/-
AutoSql/Migrate/Read.lean

`strictManifest`: reading the manifest of a directory.

A manifest is accepted only if its text is the canonical text of what was read
from it.  The checks in front of that test (`validateManifestStructure`) do not
rely on the text having been written by `build`; they repeat its rules entry by
entry.

What is read is a `ReadManifest`: unlike a manifest that `build` returns, it can
have nil slices, which are written as `null`.  `unmarshal_canonical` says what
comes back from the text of a manifest: the manifest with the bad bytes of its
strings replaced.
-/
import AutoSql.Lib.Record
import AutoSql.Migrate.Build

namespace AutoSql.Migrate

open GoString GoJson Text Fallible List
open Utf8 (valid sanitize)
open Option (mem_def some)

/-- Why a directory cannot be read.  `json` is any refusal of the text by
`rejectDuplicates` or by the decoder. -/
inductive ReadError
  | notExist
  | invalid
  | json
  | build (e : BuildError)
  | conflict (code path guidance : GoString)
  deriving DecidableEq

def manifestFile : GoString := str ".autosql-manifest.json"

structure ReadMigration where
  migration : Migration
  nilStatements : Bool := false
  nilParents : Bool := false
  deriving DecidableEq

structure ReadManifest where
  version : GoString
  generation : GoString
  entries : List ReadMigration
  nilEntries : Bool := false
  digest : GoString
  deriving DecidableEq

variable (m : Manifest)

/-- A manifest without nil slices. -/
def Manifest.read : ReadManifest :=
  ⟨m.version, m.generation, m.entries.map fun e => ⟨e, false, false⟩, false, m.digest⟩

/-! ### Writing -/

/-- A slice, which may be nil. -/
def sliceJson (isNil : Bool) (j : Json) : Json := if isNil then .null else j

variable (raw : GoString) (d : Directives)

def Directives.fields : List (GoString × Option Json) :=
  [(str "transaction", some (.str d.transaction.string)), (str "plan_digest", unlessEmpty d.planDigest),
    (str "check_digest", unlessEmpty d.checkDigest), (str "bundle_digest", unlessEmpty d.bundleDigest),
    (str "check_bundle_digest", unlessEmpty d.checkBundleDigest)]

variable (s : Statement)

def Statement.fields : List (GoString × Option Json) :=
  [(str "ordinal", some (int s.ordinal)), (str "line", some (int s.line)), (str "column", some (int s.column)),
    (str "digest", some (.str s.digest))]

/-- The fields of an entry, with its two slices given as values. -/
def Migration.fields (m : Migration) (statements parents : Json) : List (GoString × Option Json) :=
  [(str "file", some (.str m.file)), (str "version", some (.str m.version)), (str "name", some (.str m.name)),
    (str "sql_digest", some (.str m.sqlDigest)), (str "artifact_file", unlessEmpty m.artifactFile),
    (str "artifact_digest", unlessEmpty m.artifactDigest), (str "directives", some m.directives.json),
    (str "directive_digest", some (.str m.directiveDigest)), (str "statements", some statements),
    (str "boundary_digest", some (.str m.boundaryDigest)), (str "parents", some parents),
    (str "nonlinear", unlessFalse m.nonLinear), (str "chain_digest", some (.str m.chainDigest)),
    (str "kind", unlessEmpty m.kind), (str "covered_from", unlessEmpty m.coveredFrom),
    (str "covered_to", unlessEmpty m.coveredTo), (str "schema_fingerprint", unlessEmpty m.schemaFingerprint),
    (str "data_policy", unlessEmpty m.dataPolicy)]

def ReadMigration.statementsJson (m : ReadMigration) : Json :=
  sliceJson m.nilStatements (Migrate.statementsJson m.migration.statements)

def ReadMigration.json (m : ReadMigration) : Json :=
  .obj (present (m.migration.fields m.statementsJson (sliceJson m.nilParents (strings m.migration.parents))))

namespace ReadManifest

variable (m : ReadManifest)

def entriesJson : Json := sliceJson m.nilEntries (.arr (m.entries.map ReadMigration.json))

def fields : List (GoString × Option Json) :=
  [(str "version", some (.str m.version)), (str "generation", some (.str m.generation)),
    (str "entries", some m.entriesJson), (str "digest", some (.str m.digest))]

def json : Json := .obj (present m.fields)

def canonical : GoString := m.json.encode

def manifestDigest : GoString :=
  Migrate.digest (str "manifest") { m with digest := [] }.canonical

def generationOf : GoString :=
  trimPrefix (Migrate.digest (str "generation")
    (Json.encode (.obj [(str "Version", .str manifestVersion), (str "Entries", m.entriesJson)]))) (str "sha256:")

end ReadManifest

/-! ### Reading -/

def directiveNames : List GoString :=
  [str "transaction", str "plan_digest", str "check_digest", str "bundle_digest", str "check_bundle_digest"]

def Directives.unmarshal : Option Directives := do
  let ms ← knownMembers directiveNames raw
  let transaction ← field (str "transaction") decodeString [] ms
  let planDigest ← field (str "plan_digest") decodeString [] ms
  let checkDigest ← field (str "check_digest") decodeString [] ms
  let bundleDigest ← field (str "bundle_digest") decodeString [] ms
  let checkBundleDigest ← field (str "check_bundle_digest") decodeString [] ms
  some ⟨.ofString transaction, planDigest, checkDigest, bundleDigest, checkBundleDigest⟩

def statementNames : List GoString := [str "ordinal", str "line", str "column", str "digest"]

def Statement.unmarshal : Option Statement := do
  let ms ← knownMembers statementNames raw
  let ordinal ← field (str "ordinal") decodeInt 0 ms
  let line ← field (str "line") decodeInt 0 ms
  let column ← field (str "column") decodeInt 0 ms
  let digest ← field (str "digest") decodeString [] ms
  some ⟨ordinal, line, column, digest⟩

def migrationNames : List GoString :=
  [str "file", str "version", str "name", str "sql_digest", str "artifact_file", str "artifact_digest",
    str "directives", str "directive_digest", str "statements", str "boundary_digest", str "parents",
    str "nonlinear", str "chain_digest", str "kind", str "covered_from", str "covered_to",
    str "schema_fingerprint", str "data_policy"]

/-- The zero value of `Directives`. -/
def noDirectives : Directives := { transaction := .ofString [] }

def ReadMigration.unmarshal : Option ReadMigration := do
  let ms ← knownMembers migrationNames raw
  let file ← field (str "file") decodeString [] ms
  let version ← field (str "version") decodeString [] ms
  let name ← field (str "name") decodeString [] ms
  let sqlDigest ← field (str "sql_digest") decodeString [] ms
  let artifactFile ← field (str "artifact_file") decodeString [] ms
  let artifactDigest ← field (str "artifact_digest") decodeString [] ms
  let directives ← field (str "directives") (fun _ => Directives.unmarshal) noDirectives ms
  let directiveDigest ← field (str "directive_digest") decodeString [] ms
  let statements ← field (str "statements") (decodeSlice Statement.unmarshal) none ms
  let boundaryDigest ← field (str "boundary_digest") decodeString [] ms
  let parents ← field (str "parents") (decodeSlice (decodeString [])) none ms
  let nonLinear ← field (str "nonlinear") decodeBool false ms
  let chainDigest ← field (str "chain_digest") decodeString [] ms
  let kind ← field (str "kind") decodeString [] ms
  let coveredFrom ← field (str "covered_from") decodeString [] ms
  let coveredTo ← field (str "covered_to") decodeString [] ms
  let schemaFingerprint ← field (str "schema_fingerprint") decodeString [] ms
  let dataPolicy ← field (str "data_policy") decodeString [] ms
  some ⟨⟨file, version, name, sqlDigest, artifactFile, artifactDigest, directives, directiveDigest,
    statements.getD [], boundaryDigest, parents.getD [], nonLinear, chainDigest, kind, coveredFrom, coveredTo,
    schemaFingerprint, dataPolicy⟩, statements.isNone, parents.isNone⟩

def manifestNames : List GoString := [str "version", str "generation", str "entries", str "digest"]

def ReadManifest.unmarshal : Option ReadManifest := do
  let ms ← knownMembers manifestNames raw
  let version ← field (str "version") decodeString [] ms
  let generation ← field (str "generation") decodeString [] ms
  let entries ← field (str "entries") (decodeSlice ReadMigration.unmarshal) none ms
  let digest ← field (str "digest") decodeString [] ms
  some ⟨version, generation, entries.getD [], entries.isNone, digest⟩

def rejectDuplicates : Bool :=
  match Json.parse raw with
  | some v => v.noDuplicates
  | none => false

/-! ### Checks -/

/-- What the first loop of `validateManifestStructure` has seen. -/
structure Seen where
  files : GoSet := GoMap.empty
  versions : GoSet := GoMap.empty
  byVersion : GoMap Nat := GoMap.empty

def checkCovered (byVersion : GoMap Nat) (i : Nat) (e : Migration) : Bool :=
  match byVersion.get? e.coveredFrom, byVersion.get? e.coveredTo with
  | some a, some b => decide (a ≤ b) && decide (b < i)
  | _, _ => false

/-- The artifact of an entry: a name and a digest, or neither. -/
def checkArtifact (e : Migration) : Bool :=
  (e.artifactFile == []) == (e.artifactDigest == []) &&
    (e.artifactFile == [] || e.artifactFile == e.file ++ str ".artifact.json" && matchDigest e.artifactDigest)

def checkKind (e : Migration) : Bool :=
  (e.kind == [] || e.kind == checkpoint) &&
    (e.kind != checkpoint || e.coveredFrom != [] && e.coveredTo != [] && matchDigest e.schemaFingerprint &&
      (e.dataPolicy == str "schema_only" || e.dataPolicy == str "declared_replay"))

def checkStatements : Nat → List Statement → Bool
  | _, [] => true
  | j, s :: l =>
    decide (s.ordinal = j + 1) && decide (1 ≤ s.line) && decide (1 ≤ s.column) && matchDigest s.digest &&
      checkStatements (j + 1) l

def checkParentOrder (file : GoString) (prev : Option GoString) : List GoString → Except ReadError Unit
  | [] => .ok ()
  | p :: ps =>
    if (parseVersion p).toOption = none then .error .invalid
    else if prev.any fun q => le p q then
      .error (.conflict (str "parent_order") file (str "sort and deduplicate parent versions"))
    else checkParentOrder file (some p) ps

/-- One round of the first loop, at index `i` after the entry `prev`. -/
def checkEntry (seen : Seen) (i : Nat) (prev : Option Migration) (r : ReadMigration) : Except ReadError Seen :=
  let e := r.migration
  if e.kind = checkpoint ∧ ¬ checkCovered seen.byVersion i e then .error .invalid
  else if traverses e.file then .error .invalid
  else
    match matchFile e.file with
    | none => .error .invalid
    | some (version, name) =>
      match parseVersion version with
      | .error _ => .error .invalid
      | .ok v =>
        if v.string ≠ e.version ∨ name ≠ e.name then .error .invalid
        else if GoSet.has seen.files (toLower e.file) ∨ GoSet.has seen.versions e.version then
          .error (.conflict (str "duplicate_entry") e.file (str "restore unique sorted manifest entries"))
        else if prev.any fun p => (versionOf p).compare v ≠ .lt then
          .error (.conflict (str "entry_order") e.file (str "restore canonical version ordering"))
        else if ¬ (matchDigest e.sqlDigest ∧ matchDigest e.directiveDigest ∧ matchDigest e.boundaryDigest ∧
            matchDigest e.chainDigest) then .error .invalid
        else if ¬ checkArtifact e then .error .invalid
        else if ¬ checkKind e then .error .invalid
        else if ¬ e.directives.transaction.declared then .error .invalid
        else if ¬ e.directives.digestsValid then .error .invalid
        else if directiveDigest e.directives ≠ e.directiveDigest then
          .error (.conflict (str "directive_digest") e.file (str "restore canonical directive metadata"))
        else if ¬ checkStatements 0 e.statements then .error .invalid
        else if digest (str "boundaries") r.statementsJson.encode ≠ e.boundaryDigest then
          .error (.conflict (str "boundary_digest") e.file (str "restore canonical statement boundaries"))
        else do
          checkParentOrder e.file none e.parents
          .ok ⟨GoSet.add seen.files (toLower e.file), GoSet.add seen.versions e.version,
            seen.byVersion.insert e.version i⟩

/-- The first loop. -/
def checkEntries (seen : Seen) (i : Nat) (prev : Option Migration) : List ReadMigration → Except ReadError Seen
  | [] => .ok seen
  | e :: es => do
    let seen ← checkEntry seen i prev e
    checkEntries seen (i + 1) (some e.migration) es

/-- The chain digests of the parents of the entry at index `i`. -/
def chainsOf (byVersion : GoMap Nat) (entries : List Migration) (i : Nat) (seen : GoSet) :
    List GoString → Except ReadError (List GoString)
  | [] => .ok []
  | p :: ps =>
    match byVersion.get? p with
    | none => .error .invalid
    | some j =>
      if i ≤ j ∨ GoSet.has seen p then .error .invalid
      else do
        let rest ← chainsOf byVersion entries i (GoSet.add seen p) ps
        .ok (((entries[j]?).elim [] Migration.chainDigest) :: rest)

/-- One round of the second loop. -/
def checkLink (byVersion : GoMap Nat) (entries : List Migration) (i : Nat) (prev : Option Migration) (e : Migration) :
    Except ReadError Unit :=
  if i = 0 ∧ e.parents ≠ [] ∨ 0 < i ∧ e.parents = [] then .error .invalid
  else do
    let chains ← chainsOf byVersion entries i GoMap.empty e.parents
    if (i = 0 ∨ e.parents = (prev.map Migration.version).toList) ↔ e.nonLinear then .error .invalid
    else if chainDigest e (sortStrings chains) ≠ e.chainDigest then
      .error (.conflict (str "chain_digest") e.file (str "restore the canonical ancestry chain"))
    else .ok ()

/-- The second loop. -/
def checkLinks (byVersion : GoMap Nat) (entries : List Migration) (i : Nat) (prev : Option Migration) :
    List Migration → Except ReadError Unit
  | [] => .ok ()
  | e :: es => do
    checkLink byVersion entries i prev e
    checkLinks byVersion entries (i + 1) (some e) es

def validateManifestStructure (m : ReadManifest) : Except ReadError Unit := do
  let entries := m.entries.map ReadMigration.migration
  let seen ← checkEntries {} 0 none m.entries
  checkLinks seen.byVersion entries 0 none entries
  if m.generationOf ≠ m.generation then
    .error (.conflict (str "generation_digest") m.generation (str "restore the canonical generation"))
  else .ok ()

def strictManifest : Except ReadError ReadManifest :=
  if maxManifest < raw.length ∨ ¬ valid raw then .error .invalid
  else if ¬ rejectDuplicates raw then .error .json
  else
    match ReadManifest.unmarshal raw with
    | none => .error .json
    | some m =>
      if m.version ≠ manifestVersion then
        .error (.conflict (str "manifest_version") m.version (str "run MigrateManifest explicitly"))
      else if ¬ matchGeneration m.generation then .error .invalid
      else do
        validateManifestStructure m
        if m.manifestDigest ≠ m.digest then
          .error (.conflict (str "manifest_digest") manifestFile (str "restore or explicitly regenerate the manifest"))
        else if raw ≠ m.canonical then
          .error (.conflict (str "noncanonical_manifest") manifestFile (str "restore canonical manifest bytes"))
        else .ok m

/-! ### What is read from a written manifest -/

/-- A text as it comes back. -/
def Directives.clean : Directives :=
  ⟨.ofString (sanitize d.transaction.string), sanitize d.planDigest, sanitize d.checkDigest,
    sanitize d.bundleDigest, sanitize d.checkBundleDigest⟩

def Statement.clean : Statement := { s with digest := sanitize s.digest }

def Migration.clean (m : Migration) : Migration :=
  ⟨sanitize m.file, sanitize m.version, sanitize m.name, sanitize m.sqlDigest,
    sanitize m.artifactFile, sanitize m.artifactDigest, m.directives.clean,
    sanitize m.directiveDigest, m.statements.map Statement.clean, sanitize m.boundaryDigest,
    m.parents.map sanitize, m.nonLinear, sanitize m.chainDigest, sanitize m.kind,
    sanitize m.coveredFrom, sanitize m.coveredTo, sanitize m.schemaFingerprint,
    sanitize m.dataPolicy⟩

def Manifest.clean : Manifest :=
  ⟨sanitize m.version, sanitize m.generation, m.entries.map Migration.clean, sanitize m.digest⟩

/-- The numbers of a statement are of type `int`. -/
def Statement.InRange : Prop :=
  ∀ i ∈ [s.ordinal, s.line, s.column], -2 ^ 63 ≤ i ∧ i < 2 ^ 63

def Migration.InRange (m : Migration) : Prop := ∀ s ∈ m.statements, s.InRange

theorem distinct_directives : Distinct directiveNames := by decide +kernel

theorem distinct_statement : Distinct statementNames := by decide +kernel

theorem distinct_migration : Distinct migrationNames := by decide +kernel

theorem distinct_manifest : Distinct manifestNames := by decide +kernel

theorem Directives.json_eq : d.json = .obj (present d.fields) := by
  simp [Directives.json, Directives.fields]

theorem Statement.json_eq : s.json = .obj (present s.fields) := rfl

@[simp] theorem present_unlessFalse (n : GoString) (b : Bool) (l : List (GoString × Option Json)) :
    present ((n, unlessFalse b) :: l) = omitFalse n b ++ present l := by
  cases b <;> rfl

theorem Migration.json_eq (m : Migration) :
    m.json = .obj (present (m.fields (statementsJson m.statements) (strings m.parents))) := by
  simp [Migration.json, Migration.fields]

theorem entriesJson_read : m.read.entriesJson = .arr (m.entries.map Migration.json) := by
  rw [ReadManifest.entriesJson, Manifest.read, map_map]
  exact congrArg Json.arr (map_congr_left fun e _ => (Migration.json_eq e).symm)

theorem ReadManifest.json_read : m.read.json = m.json := by
  rw [ReadManifest.json, ReadManifest.fields, entriesJson_read]
  rfl

theorem canonical_read : m.read.canonical = canonical m := by
  rw [ReadManifest.canonical, ReadManifest.json_read]
  rfl

theorem Directives.strict : Strict 1 d.json := by
  rw [Directives.json_eq]
  refine Strict.record distinct_directives ?_
  simp only [Directives.fields, forall_mem_cons, mem_def, some.injEq, forall_eq']
  exact ⟨.str _, fun _ => .unlessEmpty, fun _ => .unlessEmpty, fun _ => .unlessEmpty, fun _ => .unlessEmpty, by simp⟩

theorem Statement.strict : Strict 1 s.json := by
  rw [Statement.json_eq]
  refine Strict.record distinct_statement ?_
  simp only [Statement.fields, forall_mem_cons, mem_def, some.injEq, forall_eq']
  exact ⟨.int _, .int _, .int _, .str _, by simp⟩

theorem strict_statements (l : List Statement) : Strict 2 (statementsJson l) := by
  refine Strict.arr fun v hv => ?_
  obtain ⟨s, -, rfl⟩ := mem_map.mp hv
  exact s.strict

theorem strict_strings (l : List GoString) : Strict 1 (strings l) := by
  refine Strict.arr fun v hv => ?_
  obtain ⟨s, -, rfl⟩ := mem_map.mp hv
  exact .str s

theorem strict_slice {d : Nat} {j : Json} (h : Strict d j) (isNil : Bool) : Strict d (sliceJson isNil j) := by
  cases isNil with
  | false => exact h
  | true => exact .null

theorem ReadMigration.strict (r : ReadMigration) : Strict 3 r.json := by
  refine Strict.record distinct_migration ?_
  simp only [Migration.fields, forall_mem_cons, mem_def, some.injEq, forall_eq']
  exact ⟨.str _, .str _, .str _, .str _, fun _ => .unlessEmpty, fun _ => .unlessEmpty,
    (r.migration.directives.strict).mono (by decide), .str _, strict_slice (strict_statements _) _, .str _,
    strict_slice ((strict_strings _).mono (by decide)) _, fun _ => .unlessFalse, .str _, fun _ => .unlessEmpty,
    fun _ => .unlessEmpty, fun _ => .unlessEmpty, fun _ => .unlessEmpty, fun _ => .unlessEmpty, by simp⟩

theorem ReadManifest.strict (r : ReadManifest) : Strict 5 r.json := by
  have hentries : Strict 4 (.arr (r.entries.map ReadMigration.json)) := by
    refine Strict.arr fun v hv => ?_
    obtain ⟨m, -, rfl⟩ := mem_map.mp hv
    exact m.strict
  refine Strict.record distinct_manifest ?_
  simp only [ReadManifest.fields, forall_mem_cons, mem_def, some.injEq, forall_eq']
  exact ⟨.str _, .str _, strict_slice hentries _, .str _, by simp⟩

theorem Migration.strict (m : Migration) : Strict 3 m.json := by
  rw [Migration.json_eq]
  exact ReadMigration.strict ⟨m, false, false⟩

theorem strict_entries (l : List Migration) : Strict 4 (.arr (l.map Migration.json)) := by
  refine Strict.arr fun v hv => ?_
  obtain ⟨m, -, rfl⟩ := mem_map.mp hv
  exact m.strict

theorem Manifest.strict : Strict 5 m.json := by
  rw [← ReadManifest.json_read]
  exact m.read.strict

theorem Directives.unmarshal_json : Directives.unmarshal d.json.encode = some d.clean := by
  have hd : Distinct (d.fields.map Prod.fst) := distinct_directives
  have hs : Strict Json.maxNestingDepth (.obj (present d.fields)) := by
    rw [← Directives.json_eq]
    exact d.strict.mono (by decide)
  rw [Directives.json_eq]
  exact bind_of_some (knownMembers_encode rfl hd hs) <| bind_of_some (field_string hd 0 rfl) <| bind_of_some (field_unlessEmpty hd 1 rfl) <|
    bind_of_some (field_unlessEmpty hd 2 rfl) <| bind_of_some (field_unlessEmpty hd 3 rfl) <|
    bind_of_some (field_unlessEmpty hd 4 rfl) rfl

theorem Statement.unmarshal_json {s : Statement} (h : s.InRange) : Statement.unmarshal s.json.encode = some s.clean := by
  have hd : Distinct (s.fields.map Prod.fst) := distinct_statement
  have hs : Strict Json.maxNestingDepth (.obj (present s.fields)) := s.strict.mono (by decide)
  have hms : knownMembers statementNames (Json.obj (present s.fields)).encode = some (texts s.fields) := knownMembers_encode rfl hd hs
  exact bind_of_some hms <| bind_of_some (field_int hd 0 rfl (h _ (by simp))) <|
    bind_of_some (field_int hd 1 rfl (h _ (by simp))) <| bind_of_some (field_int hd 2 rfl (h _ (by simp))) <|
    bind_of_some (field_string hd 3 rfl) rfl

theorem decode_statements {l : List Statement} (h : ∀ s ∈ l, s.InRange) (old : Option (List Statement)) :
    decodeSlice Statement.unmarshal old (statementsJson l).encode = some (some (l.map Statement.clean)) :=
  decodeSlice_encode ((strict_statements l).mono (by decide)) (fun s hs => Statement.unmarshal_json (h s hs)) old

theorem decode_strings (l : List GoString) (old : Option (List GoString)) :
    decodeSlice (decodeString []) old (strings l).encode = some (some (l.map sanitize)) :=
  decodeSlice_encode ((strict_strings l).mono (by decide)) (fun s _ => decodeString_encode [] s) old

theorem Migration.unmarshal_json {m : Migration} (h : m.InRange) :
    ReadMigration.unmarshal m.json.encode = some ⟨m.clean, false, false⟩ := by
  let fields := m.fields (statementsJson m.statements) (strings m.parents)
  have hd : Distinct (fields.map Prod.fst) := distinct_migration
  have hs : Strict Json.maxNestingDepth (.obj (present fields)) := by
    rw [← Migration.json_eq]
    exact m.strict.mono (by decide)
  have hdirectives : field (str "directives") (fun _ => Directives.unmarshal) noDirectives (texts fields) =
      some m.directives.clean := by
    rw [field_texts hd 6 rfl]
    exact m.directives.unmarshal_json
  have hstatements : field (str "statements") (decodeSlice Statement.unmarshal) none (texts fields) =
      some (some (m.statements.map Statement.clean)) := by
    rw [field_texts hd 8 rfl]
    exact decode_statements h none
  have hparents : field (str "parents") (decodeSlice (decodeString [])) none (texts fields) =
      some (some (m.parents.map sanitize)) := by
    rw [field_texts hd 10 rfl]
    exact decode_strings m.parents none
  rw [Migration.json_eq]
  exact bind_of_some (knownMembers_encode rfl hd hs) <| bind_of_some (field_string hd 0 rfl) <| bind_of_some (field_string hd 1 rfl) <|
    bind_of_some (field_string hd 2 rfl) <| bind_of_some (field_string hd 3 rfl) <|
    bind_of_some (field_unlessEmpty hd 4 rfl) <| bind_of_some (field_unlessEmpty hd 5 rfl) <|
    bind_of_some hdirectives <| bind_of_some (field_string hd 7 rfl) <| bind_of_some hstatements <|
    bind_of_some (field_string hd 9 rfl) <| bind_of_some hparents <| bind_of_some (field_unlessFalse hd 11 rfl) <|
    bind_of_some (field_string hd 12 rfl) <| bind_of_some (field_unlessEmpty hd 13 rfl) <|
    bind_of_some (field_unlessEmpty hd 14 rfl) <| bind_of_some (field_unlessEmpty hd 15 rfl) <|
    bind_of_some (field_unlessEmpty hd 16 rfl) <| bind_of_some (field_unlessEmpty hd 17 rfl) rfl

theorem unmarshal_canonical {m : Manifest} (h : ∀ e ∈ m.entries, e.InRange) :
    ReadManifest.unmarshal (canonical m) = some m.clean.read := by
  have hd : Distinct (m.read.fields.map Prod.fst) := distinct_manifest
  have hs : Strict Json.maxNestingDepth (.obj (present m.read.fields)) := by
    rw [← ReadManifest.json, ReadManifest.json_read]
    exact m.strict.mono (by decide)
  have hentries : field (str "entries") (decodeSlice ReadMigration.unmarshal) none (texts m.read.fields) =
      some (some (m.entries.map fun e => ⟨e.clean, false, false⟩)) := by
    rw [field_texts hd 2 rfl, entriesJson_read]
    exact decodeSlice_encode ((strict_entries _).mono (by decide)) (fun e he => Migration.unmarshal_json (h e he)) none
  have hclean : m.clean.read = ⟨sanitize m.version, sanitize m.generation,
      m.entries.map fun e => ⟨e.clean, false, false⟩, false, sanitize m.digest⟩ := by
    rw [Manifest.read, Manifest.clean, map_map]
    rfl
  rw [← canonical_read, hclean]
  exact bind_of_some (knownMembers_encode rfl hd hs) <| bind_of_some (field_string hd 0 rfl) <| bind_of_some (field_string hd 1 rfl) <|
    bind_of_some hentries <| bind_of_some (field_string hd 3 rfl) rfl

theorem rejectDuplicates_encode {j : Json} (h : Strict Json.maxNestingDepth j) : rejectDuplicates j.encode = true := by
  rw [rejectDuplicates, Json.parse_encode h.1]
  exact h.2

/-- The text of a manifest is accepted up to the checks on its content. -/
theorem strictManifest_canonical {m : Manifest} (h : ∀ e ∈ m.entries, e.InRange)
    (hsize : (canonical m).length ≤ maxManifest) {r : ReadManifest} :
    strictManifest (canonical m) = .ok r ↔ r = m.clean.read ∧ m.clean.version = manifestVersion ∧
      matchGeneration m.clean.generation = true ∧ validateManifestStructure m.clean.read = .ok () ∧
      m.clean.read.manifestDigest = m.clean.digest ∧ canonical m = canonical m.clean := by
  have hstrict : Strict Json.maxNestingDepth m.json := m.strict.mono (by decide)
  have hvalid : valid (canonical m) = true := Json.valid_encode hstrict.1
  have hdup : rejectDuplicates (canonical m) = true := rejectDuplicates_encode hstrict
  rw [strictManifest, if_neg (by simp [hvalid, hsize]), if_neg (by simp [hdup]), unmarshal_canonical h]
  simp only [guard_ok, bind_ok, canonical_read, not_not, ne_eq]
  constructor
  · rintro ⟨hv, hg, ⟨⟩, hval, hdig, hcan, h⟩
    cases h
    exact ⟨rfl, hv, hg, hval, hdig, hcan⟩
  · rintro ⟨rfl, hv, hg, hval, hdig, hcan⟩
    exact ⟨hv, hg, (), hval, hdig, hcan, rfl⟩

end AutoSql.Migrate
