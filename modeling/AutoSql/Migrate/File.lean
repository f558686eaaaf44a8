/-
AutoSql/Migrate/File.lean

Reading one migration file: its name, the directives in its header and its
statements (`parseFile`).

Whether the bytes of an artifact are an artifact is the parameter `isArtifact`
(`validateMigrationArtifact`); the result depends on nothing else than the file
and this answer.
-/
import AutoSql.Migrate.Manifest
import AutoSql.Source.Split

namespace AutoSql.Migrate

open GoString Text Fallible

/-- Why a list of files is not a migration directory.  `conflict` carries the
code, the path and the guidance of a `ConflictError`. -/
inductive BuildError
  | sqlEncoding
  | filename (name : GoString)
  | version (e : VersionError)
  | directiveOutside (line : Nat)
  | directive (line : Nat)
  | transactionDirective
  | unknownDirective (key : GoString)
  | directiveDigest
  | split (message : GoString)
  | artifact
  | conflict (code path guidance : GoString)
  deriving DecidableEq

/-! ### Directives -/

def directivePrefix : GoString := str "-- autosql:"

/-- The directive `key=value`. -/
def setDirective (d : Directives) (key value : GoString) : Except BuildError Directives :=
  if key = str "transaction" then
    if (TransactionMode.ofString value).declared then
      .ok { d with transaction := TransactionMode.ofString value }
    else .error .transactionDirective
  else if key = str "plan-digest" then .ok { d with planDigest := value }
  else if key = str "check-digest" then .ok { d with checkDigest := value }
  else if key = str "bundle-digest" then .ok { d with bundleDigest := value }
  else if key = str "check-bundle-digest" then .ok { d with checkBundleDigest := value }
  else .error (.unknownDirective key)

/-- The loop over the lines; `i` counts them from zero. -/
def directiveLines (d : Directives) (seen : GoSet) (header : Bool) (i : Nat) :
    List GoString → Except BuildError Directives
  | [] => .ok d
  | line :: lines =>
    let t := trimSpace line
    if t = [] ∨ (header ∧ hasPrefix t (str "--") ∧ ¬ hasPrefix t directivePrefix) then
      directiveLines d seen header (i + 1) lines
    else if ¬ hasPrefix t directivePrefix then directiveLines d seen false (i + 1) lines
    else if ¬ header then .error (.directiveOutside (i + 1))
    else
      match cut 0x3D (trimSpace (trimPrefix t directivePrefix)) with
      | none => .error (.directive (i + 1))
      | some (k, v) =>
        let k := replaceByte 0x5F 0x2D (trimSpace k)
        if GoSet.has seen k then .error (.directive (i + 1))
        else do
          let d ← setDirective d k (trimSpace v)
          directiveLines d (GoSet.add seen k) header (i + 1) lines

def Directives.digestsValid (d : Directives) : Bool :=
  validDigest d.planDigest && validDigest d.checkDigest && validDigest d.bundleDigest &&
    validDigest d.checkBundleDigest

def parseDirectives (sql : GoString) : Except BuildError Directives := do
  let d ← directiveLines { transaction := .auto } GoMap.empty true 0 (sql.splitOn 0x0A)
  if ¬ d.digestsValid then .error .directiveDigest
  else .ok d

/-! ### Statements -/

/-- The lines in front of a statement that are not part of what is executed. -/
def isHeaderLine (line : GoString) : Bool :=
  let t := trimSpace line
  hasPrefix t directivePrefix || hasPrefix t (str "-- autosql-rename-hints-") ||
    hasPrefix t (str "-- autosql-checkpoint-")

def canonicalExecutableSQL (v : GoString) : GoString :=
  trimSuffix (trimSpace (join [0x0A] ((v.splitOn 0x0A).dropWhile isHeaderLine))) (str ";")

def toStatements (split : List Source.Statement) : List Statement :=
  split.zipIdx.map fun (s, i) =>
    ⟨i + 1, s.position.line, s.position.column, statementDigest (canonicalExecutableSQL s.sql)⟩

/-! ### File names -/

/-- The version inside a file name, `[0-9]+(\.[0-9]+){0,2}(-[0-9A-Za-z][0-9A-Za-z.-]*)?`. -/
def matchFileVersion (s : GoString) : Bool :=
  let parts := (s.takeWhile (· != 0x2D)).splitOn 0x2E
  decide (parts.length ≤ 3) && parts.all (fun p => p ≠ [] && p.all isDigit) &&
    match s.dropWhile (· != 0x2D) with
    | [] => true
    | _ :: pre => matchPre pre

/-- `[-A-Za-z0-9][-.A-Za-z0-9_]*` -/
def matchName : GoString → Bool
  | [] => false
  | b :: s => (isAlnum b || b == 0x2D) && s.all fun b => isPreByte b || b == 0x5F

/-- `fileRE`: the version and the name.  The version has no underscore, so it
ends in front of the first one. -/
def matchFile (file : GoString) : Option (GoString × GoString) :=
  let body := if file.head? = some 0x56 then file.drop 1 else file
  let version := body.takeWhile (· != 0x5F)
  match body.dropWhile (· != 0x5F) with
  | 0x5F :: 0x5F :: t =>
    let name := trimSuffix t (str ".sql")
    if matchFileVersion version && (str ".sql").isSuffixOf t && matchName name then some (version, name)
    else none
  | _ => none

/-- A name with a directory in it. -/
def traverses (name : GoString) : Bool :=
  name == [] || decide (str ".." <:+: name) || name.contains 0x2F || name.contains 0x5C

/-! ### Files -/

/-- A text file of at most `maxFile` bytes. -/
def textOk (b : GoString) : Bool :=
  decide (b.length ≤ maxFile) && Utf8.valid b && !b.contains 0

variable (isArtifact : GoString → Bool)

def artifactOk (f : File) : Bool :=
  f.artifactName == f.name ++ str ".artifact.json" && f.artifact != [] && textOk f.artifact &&
    isArtifact f.artifact

def parseFile (f : File) : Except BuildError Migration :=
  if ¬ textOk f.sql then .error .sqlEncoding
  else if traverses f.name then
    .error (.conflict (str "traversal") f.name (str "use a base filename"))
  else
    match matchFile f.name with
    | none => .error (.filename f.name)
    | some (version, name) => do
      let v ← (parseVersion version).mapError .version
      let dirs ← parseDirectives f.sql
      let split ← (Source.splitSQL f.name f.sql).mapError .split
      let stmts := toStatements split
      let entry : Migration :=
        { file := f.name, version := v.string, name, sqlDigest := digest (str "sql") f.sql
          directives := dirs, directiveDigest := directiveDigest dirs
          statements := stmts, boundaryDigest := boundaryDigest stmts
          parents := sortStrings f.parents, nonLinear := f.nonLinear, kind := f.kind
          coveredFrom := f.coveredFrom, coveredTo := f.coveredTo
          schemaFingerprint := f.schemaFingerprint, dataPolicy := f.dataPolicy }
      if f.artifact ≠ [] ∨ f.artifactName ≠ [] then
        if artifactOk isArtifact f then
          .ok { entry with artifactFile := f.artifactName, artifactDigest := artifactDigest f.artifact }
        else .error .artifact
      else .ok entry

/-- What is read from a file. -/
structure Reading where
  versionText : GoString
  name : GoString
  version : Version
  directives : Directives
  split : List Source.Statement

/-- A file that comes with an artifact. -/
def File.HasArtifact (f : File) : Prop := f.artifact ≠ [] ∨ f.artifactName ≠ []

instance (f : File) : Decidable f.HasArtifact := inferInstanceAs (Decidable (_ ∨ _))

/-- The reading of an accepted file. -/
structure Reading.Of (r : Reading) (f : File) : Prop where
  text_ok : textOk f.sql = true
  base_name : traverses f.name = false
  file_ok : matchFile f.name = some (r.versionText, r.name)
  version_ok : parseVersion r.versionText = .ok r.version
  directives_ok : parseDirectives f.sql = .ok r.directives
  split_ok : Source.splitSQL f.name f.sql = .ok r.split
  artifact_ok : f.HasArtifact → artifactOk isArtifact f = true

/-- The entry of a file. -/
def Reading.entry (r : Reading) (f : File) : Migration where
  file := f.name
  version := r.version.string
  name := r.name
  sqlDigest := digest (str "sql") f.sql
  artifactFile := if f.HasArtifact then f.artifactName else []
  artifactDigest := if f.HasArtifact then artifactDigest f.artifact else []
  directives := r.directives
  directiveDigest := directiveDigest r.directives
  statements := toStatements r.split
  boundaryDigest := boundaryDigest (toStatements r.split)
  parents := sortStrings f.parents
  nonLinear := f.nonLinear
  kind := f.kind
  coveredFrom := f.coveredFrom
  coveredTo := f.coveredTo
  schemaFingerprint := f.schemaFingerprint
  dataPolicy := f.dataPolicy

theorem parseFile_ok {f : File} {e : Migration} :
    parseFile isArtifact f = .ok e ↔ ∃ r : Reading, r.Of isArtifact f ∧ e = r.entry f := by
  constructor
  · intro h
    rw [parseFile, guard_ok, guard_ok] at h
    obtain ⟨htext, hbase, h⟩ := h
    split at h
    · cases h
    · rename_i version name hfile
      simp only [bind_ok, mapError_ok] at h
      obtain ⟨v, hv, dirs, hdirs, split, hsplit, h⟩ := h
      refine ⟨⟨version, name, v, dirs, split⟩, ?_⟩
      split_ifs at h with ha hok
      · cases h
        exact ⟨⟨by simpa using htext, by simpa using hbase, hfile, hv, hdirs, hsplit, fun _ => hok⟩,
          by simp [Reading.entry, File.HasArtifact, ha]⟩
      · cases h
        exact ⟨⟨by simpa using htext, by simpa using hbase, hfile, hv, hdirs, hsplit,
          fun h => absurd h ha⟩, by simp [Reading.entry, File.HasArtifact, ha]⟩
  · rintro ⟨r, hr, rfl⟩
    rw [parseFile, if_neg (by simp [hr.text_ok]), if_neg (by simp [hr.base_name]), hr.file_ok]
    show ((parseVersion r.versionText).mapError BuildError.version >>= _) = _
    rw [hr.version_ok, hr.directives_ok, hr.split_ok]
    by_cases ha : f.artifact ≠ [] ∨ f.artifactName ≠ []
    · show (if _ then (if artifactOk isArtifact f = true then _ else _) else _) = _
      rw [if_pos (hr.artifact_ok ha)]
      simp [Reading.entry, File.HasArtifact, ha]
    · show (if _ then _ else _) = _
      simp [Reading.entry, File.HasArtifact, ha]

end AutoSql.Migrate
