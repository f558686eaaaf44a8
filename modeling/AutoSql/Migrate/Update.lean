/-
AutoSql/Migrate/Update.lean

`updateLocked`, `recoverLocked` and `MigrateManifest` as programs over a directory.

Every durable operation is one call: creating a file, writing one byte of it,
syncing, closing, making a directory, renaming, unlinking.  A write that takes
`n` bytes is `n` calls, so short writes are among the runs.  A call may fail or the
process may stop at it, with or without the call having had its effect.  Reading
costs no call: it goes around the injected operations.

Each program runs with the exclusive lock of the directory held; a process that
stops loses the lock and leaves the directory as it is.
-/
import AutoSql.Lib.Proc
import AutoSql.Migrate.Journal

namespace AutoSql.Migrate

open GoString Proc

/-! ### Places -/

/-- Where a file lies: next to the manifest, or in a generation. -/
inductive Place
  | root
  | generation (g : GoString)
  deriving DecidableEq

namespace Dir

/-- The files of a generation, if there is such a directory. -/
def generation (d : Dir) (g : GoString) : Option (GoMap GoString) := d.generations.bind (·.get? g)

def files (d : Dir) : Place → GoMap GoString
  | .root => d.root
  | .generation g => (d.generation g).getD GoMap.empty

def setFiles (d : Dir) : Place → GoMap GoString → Dir
  | .root, m => { d with root := m }
  | .generation g, m => { d with generations := some ((d.generations.getD GoMap.empty).insert g m) }

end Dir

/-- One change of the manifest file: the text that was replaced and the new one. -/
structure Publication where
  replaced : Option GoString
  manifest : GoString

/-- A directory, with the requests that were made for it and the manifests that
were published in it.  The two lists only record; no program reads them. -/
structure World where
  dir : Dir
  requested : List Request
  published : List Publication

namespace World

variable (w : World)

/-- The content of a file. -/
def get? (p : Place) (name : GoString) : Option GoString := (w.dir.files p).get? name

def setFiles (p : Place) (m : GoMap GoString) : World := { w with dir := w.dir.setFiles p m }

def put (p : Place) (name b : GoString) : World := w.setFiles p ((w.dir.files p).insert name b)

def drop (p : Place) (name : GoString) : World := w.setFiles p ((w.dir.files p).erase name)

/-- The manifest file becomes what `name` was. -/
def publish (name b : GoString) : World where
  dir := { w.dir with root := (w.dir.root.erase name).insert manifestFile b }
  requested := w.requested
  published := w.published ++ [⟨w.dir.root.get? manifestFile, b⟩]

/-- The request is recorded. -/
def request (r : Request) : World := { w with requested := w.requested ++ [r] }

/-- `mkdirat` of the directory of generations; one that is there stays as it is. -/
def makeBase : World :=
  { w with dir := { w.dir with generations := some (w.dir.generations.getD GoMap.empty) } }

/-- `mkdirat` of a generation; one that is there stays as it is. -/
def makeGeneration (g : GoString) : World :=
  w.setFiles (.generation g) (w.dir.files (.generation g))

end World

/-! ### Operations -/

inductive DirError
  | read (e : ReadError)
  | eexist
  | io
  deriving DecidableEq

variable {α : Type}

/-- Look at the directory. -/
def inspect (f : Dir → Except ReadError α) : Proc World DirError α := do
  let w ← look
  match f w.dir with
  | .ok a => pure a
  | .error e => fail (.read e)

/-- `conflict` -/
abbrev conflict (code path guidance : GoString) : Except ReadError α := .error (.conflict code path guidance)

/-- A sync, a close or an open: a call that changes nothing. -/
def sync : Proc World DirError Unit := ask .io

variable (p : Place) (name : GoString)

/-- `openat` with `O_CREAT|O_EXCL`; the answer is false for `EEXIST`. -/
def create : Proc World DirError Bool := do
  let w ← look
  if (w.get? p name).isSome then do
    ask .io
    pure false
  else do
    call (fun w => some (w.put p name [])) .io
    pure true

/-- Write one byte at the end of a file. -/
def append (b : UInt8) : Proc World DirError Unit :=
  call (fun w => some (w.put p name ((w.get? p name).getD [] ++ [b]))) .io

def writeAll (bytes : GoString) : Proc World DirError Unit := forEach (append p name) bytes

/-- `unlinkat`; the answer is false for `ENOENT`. -/
def unlink : Proc World DirError Bool := do
  let w ← look
  if (w.get? p name).isSome then do
    call (fun w => some (w.drop p name)) .io
    pure true
  else do
    ask .io
    pure false

/-- `writeAt`, which does not remove a file it did not create; the answer is false
for `EEXIST`.  The deferred close has no effect on the directory. -/
def writeNew (bytes : GoString) : Proc World DirError Bool := do
  let isNew ← create p name
  if isNew then do
    onError (do writeAll p name bytes; sync; sync) fun e => do
      onError (do let _ ← unlink p name; pure ()) fun _ => pure ()
      fail e
    pure true
  else pure false

def writeAt (bytes : GoString) : Proc World DirError Unit := do
  let isNew ← writeNew p name bytes
  if isNew then pure () else fail .eexist

def ensureFileAt (bytes : GoString) : Proc World DirError Unit := do
  let isNew ← writeNew p name bytes
  if isNew then pure ()
  else
    inspect fun d => do
      let got ← readAt (d.files p) name bytes.length
      if got ≠ bytes then conflict (str "stale_staging_file") name (str "retain and inspect the foreign staging bytes")
      else .ok ()

/-- `rename` onto the manifest file. -/
def rename : Proc World DirError Unit :=
  call (fun w => (w.get? .root name).map (w.publish name)) .io

/-! ### Publishing -/

/-- The name of the staged manifest. -/
def stagedFile (g : GoString) : GoString := manifestFile ++ str "." ++ g ++ str ".new"

/-- One file of a generation.  A file that is there is compared, never written. -/
def storeFile (g guidance name bytes : GoString) : Proc World DirError Unit := do
  let w ← look
  match readAt (w.dir.files (.generation g)) name maxFile with
  | .ok existing =>
    if existing ≠ bytes then fail (.read (.conflict (str "generation_collision") name guidance)) else pure ()
  | .error .notExist => writeAt (.generation g) name bytes
  | .error e => fail (.read e)

def storeParts (g : GoString) (f : File) : Proc World DirError Unit := do
  storeFile g (str "restore the deterministic generation") f.name f.sql
  onlyIf (f.artifactName ≠ []) (storeFile g (str "restore the deterministic artifact") f.artifactName f.artifact)

/-- No name in the generation but those of the files. -/
def Dir.checkNames (d : Dir) (g : GoString) (files : List File) : Except ReadError Unit :=
  match (d.files (.generation g)).keys.find? fun name => name ∉ (files.flatMap File.parts).map Prod.fst with
  | some name =>
    conflict (str "generation_collision") name (str "remove foreign bytes from the unpublished generation")
  | none => .ok ()

/-- The generation. -/
def store (g : GoString) (files : List File) : Proc World DirError Unit := do
  call (fun w => some w.makeBase) .io
  sync
  call (fun w => some (w.makeGeneration g)) .io
  sync
  forEach (storeParts g) files
  inspect (·.checkNames g files)
  sync
  sync

/-- What is left to do once the manifest is published. -/
def finish (cleanup : List GoString) : Proc World DirError Unit := do
  forEach (fun name => do let _ ← unlink .root name; pure ()) cleanup
  sync
  let found ← unlink .root journalFile
  if found then sync else fail (.read .notExist)

/-- The staged manifest, the journal, and the rename. -/
def commit (r : Request) : Proc World DirError Unit := do
  ensureFileAt .root (stagedFile r.man.generation) (canonical r.man)
  writeAt .root journalFile r.text
  sync
  rename (stagedFile r.man.generation)
  sync
  finish r.cleanup

def publish (r : Request) : Proc World DirError Unit := do
  store r.man.generation r.files
  commit r

/-! ### The commands -/

/-- The journal, if there is one. -/
def Dir.pending (d : Dir) (limit : Nat) (guidance : GoString) : Except ReadError (Option Journal) :=
  match readAt d.root journalFile limit with
  | .error .notExist => .ok none
  | .error e => .error e
  | .ok raw =>
    match parseJournal raw with
    | .error _ => conflict (str "dirty_journal") journalFile guidance
    | .ok j => .ok (some j)

variable (isArtifact : GoString → Bool)

/-- Whether the manifest of the journal is the published one already; an error if
what is published is not what the journal was written for. -/
def Dir.isPublished (d : Dir) (j : Journal) : Except ReadError Bool :=
  match d.loadAt with
  | .ok (m, _) =>
    if m.digest = j.manifest.digest then .ok true
    else if m.digest ≠ j.expectedDigest then
      conflict (str "recovery_cas") manifestFile (str "current manifest no longer matches the journal precondition")
    else
      match d.snapshotAt isArtifact with
      | .error _ =>
        conflict (str "current_snapshot_invalid") manifestFile (str "restore the journal's trusted precondition snapshot")
      | .ok _ => .ok false
  | .error e =>
    if j.kind = .v0Migration then do
      let raw ← readAt d.root manifestFile maxManifest
      match parseLegacyManifest raw with
      | .error _ =>
        conflict (str "recovery_cas") manifestFile (str "legacy manifest no longer matches the journal precondition")
      | .ok old =>
        if old.digest ≠ j.expectedDigest then
          conflict (str "recovery_cas") manifestFile (str "legacy manifest no longer matches the journal precondition")
        else .ok false
    else if e = .notExist ∧ j.expectedDigest = [] then .ok false
    else conflict (str "recovery_cas") manifestFile (str "current manifest no longer matches the journal precondition")

def Dir.checkStaged (d : Dir) (m : ReadManifest) : Except ReadError Unit :=
  match readAt d.root (stagedFile m.generation) maxManifest with
  | .error _ =>
    conflict (str "missing_staged_manifest") (stagedFile m.generation)
      (str "restore the exact staged manifest from the journal candidate")
  | .ok raw =>
    if raw ≠ m.canonical then
      conflict (str "missing_staged_manifest") (stagedFile m.generation)
        (str "restore the exact staged manifest from the journal candidate")
    else .ok ()

def recoverLocked : Proc World DirError Unit := do
  let journal ← inspect (·.pending maxFile (str "inspect and retain the exact journal"))
  match journal with
  | none => pure ()
  | some j => do
    let _ ← inspect (·.verifyGenerationAt isArtifact j.manifest)
    let published ← inspect (·.isPublished isArtifact j)
    onlyIf (published = false) do
      inspect (·.checkStaged j.manifest)
      rename (stagedFile j.manifest.generation)
      sync
    finish (j.cleanup.getD [])

/-- The compare-and-swap on the digest of the published manifest. -/
def Dir.checkCurrent (d : Dir) (allowLegacy : Bool) (path expected : GoString) : Except ReadError Unit :=
  match d.loadAt with
  | .ok (current, _) =>
    match d.snapshotAt isArtifact with
    | .error _ =>
      conflict (str "current_snapshot_invalid") path (str "restore the trusted current snapshot before updating")
    | .ok _ =>
      if expected = [] then
        conflict (str "compare_and_swap_required") path (str "reload the snapshot and provide its digest")
      else if current.digest ≠ expected then
        conflict (str "compare_and_swap") path (str "reload the snapshot and retry")
      else .ok ()
  | .error e =>
    if allowLegacy then .ok ()
    else if e ≠ .notExist then .error e
    else if expected ≠ [] then
      conflict (str "compare_and_swap") path (str "the directory has no published manifest")
    else .ok ()

/-- What is built, unless its text is too long. -/
def candidate (files : List File) : Except ReadError Manifest := do
  let man ← (build isArtifact files).mapError .build
  if maxManifest < (canonical man).length then .error .invalid else .ok man

/-- The kind of journal that `updateLocked` writes. -/
def journalKind (allowLegacy : Bool) : JournalKind := if allowLegacy then .v0Migration else .update

/-- The request that `updateLocked` makes. -/
def requestOf (allowLegacy : Bool) (expected : GoString) (files : List File) (man : Manifest) (cleanup : List GoString) :
    Request :=
  ⟨journalKind allowLegacy, expected, files, man, cleanup⟩

def updateLocked (allowLegacy : Bool) (path expected : GoString) (files : List File) (cleanup : List GoString) :
    Proc World DirError Manifest := do
  let man ← inspect fun _ => candidate isArtifact files
  let r := requestOf allowLegacy expected files man cleanup
  keep (·.request r)
  let journal ← inspect (·.pending maxManifest (str "retain and inspect the exact journal"))
  match journal with
  | some j => do
    inspect fun _ =>
      if j.manifest.digest ≠ man.digest ∨ j.expectedDigest ≠ expected ∨ j.kind ≠ r.kind then
        conflict (str "pending_transaction") journalFile
          (str "resume with the exact authorized candidate and expected digest")
      else .ok ()
    recoverLocked isArtifact
    let _ ← inspect (·.verifyGenerationAt isArtifact man.read)
    pure man
  | none => do
    inspect (·.checkCurrent isArtifact allowLegacy path expected)
    publish r
    pure man

structure UpdateRequest where
  manifestVersion : GoString := []
  files : List File
  expected : GoString

/-- `UpdateWithOps` -/
def update (path : GoString) (req : UpdateRequest) : Proc World DirError Manifest := do
  inspect fun _ =>
    if req.manifestVersion ≠ [] ∧ req.manifestVersion ≠ manifestVersion then
      conflict (str "manifest_version") req.manifestVersion (str "migrate explicitly")
    else .ok ()
  updateLocked isArtifact false path req.expected req.files []

/-- The legacy manifest, its text, and the files it names. -/
def Dir.legacyFiles (d : Dir) : Except ReadError (GoString × LegacyManifest × List File) := do
  let raw ← readAt d.root manifestFile maxManifest
  let old ← parseLegacyManifest raw
  let files ← (old.entries.getD []).mapM fun e => do
    let b ← readAt d.root e.file maxFile
    .ok { name := e.file, sql := b, parents := e.parents, nonLinear := e.nonLinear : File }
  .ok (raw, old, files)

/-- Whether there is a journal, readable or not. -/
def Dir.hasJournal (d : Dir) : Except ReadError Bool :=
  match readAt d.root journalFile maxManifest with
  | .ok _ => .ok true
  | .error .notExist => .ok false
  | .error e => .error e

/-- The manifest as it is published. -/
def verify : Proc World DirError ReadManifest := do
  let s ← inspect (·.snapshotAt isArtifact)
  pure s.manifest

/-- `MigrateManifestWithOps`; its parameter `from` is `source` here. -/
def migrateManifest (path source : GoString) : Proc World DirError ReadManifest :=
  if source = manifestVersion then verify isArtifact
  else if source ≠ legacyVersion then
    fail (.read (.conflict (str "unsupported_manifest_migration") source
      (str "only explicit supported migrations may change manifest versions")))
  else do
    let journal ← inspect Dir.hasJournal
    if journal then do
      recoverLocked isArtifact
      verify isArtifact
    else do
      let w ← look
      match w.dir.loadAt with
      | .ok _ => verify isArtifact
      | .error _ => do
        let (raw, old, files) ← inspect Dir.legacyFiles
        ensureFileAt .root (manifestFile ++ str ".v0") raw
        let man ← updateLocked isArtifact true path old.digest files (files.map File.name)
        pure man.read

/-- What is done to a directory in one critical section. -/
inductive Command
  | update (path : GoString) (req : UpdateRequest)
  | recover
  | migrateManifest (path source : GoString)

def Command.run : Command → Proc World DirError Unit
  | .update path req => do let _ ← Migrate.update isArtifact path req; pure ()
  | .recover => recoverLocked isArtifact
  | .migrateManifest path source => do let _ ← Migrate.migrateManifest isArtifact path source; pure ()

end AutoSql.Migrate
