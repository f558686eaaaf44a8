/-
AutoSql/Migrate/Directory.lean

The files of a migration directory and how they are read: `loadAt`,
`verifyGenerationAt` and `snapshotAt`.

A directory is a map from names to contents for the files next to the manifest,
and one such map for each generation.  The files are the program's own: ordinary
files that nobody else writes, links or makes writable.

A generation is not compared with the digests of its manifest one by one.  It is
rebuilt: the files the manifest names are given to `build` again, and the result
must have the same canonical text.
-/
import AutoSql.Migrate.Read

namespace AutoSql.Migrate

open GoString Text Fallible

structure Dir where
  root : GoMap GoString
  generations : Option (GoMap (GoMap GoString))

/-- `filepath.Base(name) != name` -/
def notBase (name : GoString) : Bool := name == [] || (name.contains 0x2F && name != [0x2F])

/-- `readAt`: a file of at most `limit` bytes. -/
def readAt (files : GoMap GoString) (name : GoString) (limit : Nat) : Except ReadError GoString :=
  if notBase name ∨ str ".." <:+: name then .error .invalid
  else
    match files.get? name with
    | none => .error .notExist
    | some b => if limit < b.length then .error .invalid else .ok b

structure ReadSnapshot where
  manifest : ReadManifest
  manifestBytes : GoString
  files : GoMap GoString
  deriving DecidableEq

/-- The files `f` stands for. -/
def File.parts (f : File) : List (GoString × GoString) :=
  (f.name, f.sql) :: if f.artifactName ≠ [] then [(f.artifactName, f.artifact)] else []

/-- The files of a generation. -/
def stored (files : List File) : GoMap GoString := GoMap.ofList (files.flatMap File.parts)

namespace Dir

variable (isArtifact : GoString → Bool) (d : Dir)

def loadAt : Except ReadError (ReadManifest × GoString) := do
  let raw ← readAt d.root manifestFile maxManifest
  let m ← strictManifest raw
  .ok (m, raw)

def openGeneration (g : GoString) : Except ReadError (GoMap GoString) :=
  match d.generations.bind (·.get? g) with
  | none => .error .notExist
  | some files => .ok files

end Dir

/-- The names of the files of a generation. -/
def expectedNames (entries : List Migration) : List GoString :=
  entries.flatMap fun e => e.file :: if e.artifactFile ≠ [] then [e.artifactFile] else []

/-- The file of an entry, read back from the generation. -/
def readCandidate (g : GoMap GoString) (e : Migration) : Except ReadError File := do
  let sql ← readAt g e.file maxFile
  let f : File :=
    { name := e.file, sql, parents := e.parents, nonLinear := e.nonLinear, kind := e.kind
      coveredFrom := e.coveredFrom, coveredTo := e.coveredTo, schemaFingerprint := e.schemaFingerprint
      dataPolicy := e.dataPolicy }
  if e.artifactFile ≠ [] then do
    let artifact ← readAt g e.artifactFile maxFile
    if artifactDigest artifact ≠ e.artifactDigest then
      .error (.conflict (str "artifact_changed") e.artifactFile (str "restore the byte-exact signed artifact"))
    else .ok { f with artifactName := e.artifactFile, artifact }
  else .ok f

variable (isArtifact : GoString → Bool)

/-- `verifyGenerationAt`, on the files `g` of the generation. -/
def verifyFiles (g : GoMap GoString) (m : ReadManifest) : Except ReadError (GoMap GoString) :=
  let entries := m.entries.map ReadMigration.migration
  match g.keys.find? fun name => name ∉ expectedNames entries with
  | some name => .error (.conflict (str "untracked_file") name (str "restore the exact published generation"))
  | none => do
    let candidates ← entries.mapM (readCandidate g)
    let actual ← (build isArtifact candidates).mapError .build
    if m.canonical ≠ canonical actual then
      .error (.conflict (str "content_changed") m.generation
        (str "restore the byte-exact migration generation or perform an authorized update"))
    else .ok (stored candidates)

def Dir.verifyGenerationAt (d : Dir) (m : ReadManifest) : Except ReadError (GoMap GoString) := do
  let g ← d.openGeneration m.generation
  verifyFiles isArtifact g m

/-- A name that ends in `.sql`, in any case. -/
def isSQLName (name : GoString) : Bool := (str ".sql").isSuffixOf (toLower name)

def Dir.snapshotAt (d : Dir) : Except ReadError ReadSnapshot := do
  let (m, raw) ← d.loadAt
  let files ← d.verifyGenerationAt isArtifact m
  match d.root.keys.find? isSQLName with
  | some name =>
    .error (.conflict (str "untracked_file") name (str "remove root SQL and use an authorized generation update"))
  | none => .ok ⟨m, raw, files⟩

end AutoSql.Migrate
