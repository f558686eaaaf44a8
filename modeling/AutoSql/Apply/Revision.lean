/-
AutoSql/Apply/Revision.lean

The revision records of a target: one row for every migration, baseline,
checkpoint, reversal and re-application, in the order in which they were
started.  Rows are never deleted.

`Engine.Run` records its candidates with `baseRevision`; the last column of
`record` is the state a successful run leaves.
-/
import AutoSql.Migrate.Build
import AutoSql.Artifact.Model

namespace AutoSql.Apply

open Migrate Artifacts

inductive Kind
  | migration
  | baseline
  | checkpoint
  | reversal
  | reapply
  deriving DecidableEq

inductive State
  | pending
  | applied
  | failed
  | partially
  | baseline
  | checkpoint
  deriving DecidableEq

structure Revision where
  version : GoString
  description : GoString
  kind : Kind
  fileName : GoString
  fileDigest : GoString
  manifestDigest : GoString
  manifestGeneration : GoString
  artifactDigest : GoString
  planDigest : GoString
  checksDigest : GoString
  bundleDigest : GoString
  state : State
  statementOrdinal : Nat := 0
  attempt : Nat
  operator : GoString
  fromVersion : GoString
  toVersion : GoString
  reversalOf : GoString
  supersedes : List GoString := []
  deriving DecidableEq

/-- A migration that is about to be applied. -/
structure Candidate where
  entry : Migration
  raw : GoString
  payload : Artifact
  recordVersion : GoString := []
  reversalOf : GoString := []
  executionAttempt : Nat := 1
  deriving DecidableEq

def versionInRange (value lo hi : GoString) : Bool :=
  match parseVersion value, parseVersion lo, parseVersion hi with
  | .ok v, .ok f, .ok t => v.compare f != .lt && v.compare t != .gt
  | _, _, _ => false

/-- The key of a record in the target's metadata. -/
def migrationFrom : GoString := str "autosql.migration.from"

def baseRevision (c : Candidate) (m : Manifest) (operator : GoString) (state : State) (kind : Kind) : Revision :=
  let kind := if c.recordVersion ≠ [] then .reapply else kind
  { version := if c.recordVersion ≠ [] then c.recordVersion else c.entry.version
    description := c.entry.name
    kind
    fileName := c.entry.file
    fileDigest := c.entry.sqlDigest
    manifestDigest := m.digest
    manifestGeneration := m.generation
    artifactDigest := c.entry.artifactDigest
    planDigest := c.entry.directives.planDigest
    checksDigest := c.entry.directives.checkDigest
    bundleDigest := c.entry.directives.bundleDigest
    state
    attempt := if c.executionAttempt < 1 then 1 else c.executionAttempt
    operator
    fromVersion := (c.payload.metadata.get? migrationFrom).getD []
    toVersion := c.entry.version
    reversalOf := c.reversalOf
    supersedes :=
      if kind = .checkpoint then
        (m.entries.filter fun e => versionInRange e.version c.entry.coveredFrom c.entry.coveredTo).map
          Migration.version
      else [] }

/-- How `Engine.Run` is asked to record its candidates: by running them, or as a baseline. -/
inductive RunMode
  | apply
  | baseline
  deriving DecidableEq

/-- The kind under which an entry is recorded. -/
def RunMode.kind : RunMode → Migration → Kind
  | .baseline, _ => .baseline
  | .apply, e => if e.kind = Migrate.checkpoint then .checkpoint else .migration

/-- The state that a successful run leaves. -/
def RunMode.finalState : RunMode → Migration → State
  | .baseline, _ => .baseline
  | .apply, e => if e.kind = Migrate.checkpoint then .checkpoint else .applied

theorem RunMode.finalState_clean (mode : RunMode) (e : Migration) :
    mode.finalState e ≠ .failed ∧ mode.finalState e ≠ .partially ∧ mode.finalState e ≠ .pending := by
  cases mode with
  | baseline => simp [RunMode.finalState]
  | apply =>
    rw [RunMode.finalState]
    split_ifs <;> decide

/-- The row of a candidate after a successful run: `baseline` writes it at once,
`executeGuarded` writes a pending row and finalizes it; `n` is the number of
steps the executor applied. -/
def record (mode : RunMode) (m : Manifest) (operator : GoString) (n : Nat) (c : Candidate) : Revision :=
  { baseRevision c m operator (mode.finalState c.entry) (mode.kind c.entry) with
    statementOrdinal :=
      match mode with
      | .baseline => c.entry.statements.length
      | .apply => n }

section

variable {mode : RunMode} {m : Manifest} {operator : GoString} {n : Nat} {c : Candidate}

theorem record_version : (record mode m operator n c).version =
    if c.recordVersion ≠ [] then c.recordVersion else c.entry.version := rfl

theorem record_kind : (record mode m operator n c).kind =
    if c.recordVersion ≠ [] then .reapply else mode.kind c.entry := rfl

@[simp] theorem record_state : (record mode m operator n c).state = mode.finalState c.entry := rfl

@[simp] theorem record_toVersion : (record mode m operator n c).toVersion = c.entry.version := rfl

theorem record_supersedes (hk : (record mode m operator n c).kind = .checkpoint) :
    (record mode m operator n c).supersedes =
      (m.entries.filter fun e => versionInRange e.version c.entry.coveredFrom c.entry.coveredTo).map
        Migration.version :=
  if_pos hk

end

end AutoSql.Apply
