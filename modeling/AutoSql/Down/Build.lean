/-
AutoSql/Down/Build.lean

Controlled down migrations: `down.Build`, which decides whether the entries
after a target version can be taken back, and the record that `ApplyDown` writes
for a plan.

`Build` reads the revision rows and the executor's rows as evidence that every
entry to be reversed was applied as it stands in the manifest.  Planning the
reversal itself (inspecting the schemas, rendering and signing the reverse
statements) is the parameter `compose`.
-/
import AutoSql.Apply.Select
import AutoSql.Executor.History

namespace AutoSql.Down

open Migrate Artifacts Apply Executor Fallible List

structure Original where
  version : GoString
  artifactDigest : GoString
  planDigest : GoString
  deriving DecidableEq

structure Request where
  snapshot : Snapshot
  revisions : List Revision
  targetVersion : GoString
  executor : List Row
  targetIdentity : GoString

/-- The parts of a plan that planning and signing add. -/
structure Body where
  digest : GoString
  artifactPath : GoString

structure DownPlan where
  manifestDigest : GoString
  manifestGeneration : GoString
  headVersion : GoString
  headArtifactDigest : GoString
  targetVersion : GoString
  originals : List Original
  body : Body

inductive DownError
  | refused
  | unfinishedHead
  | malformedEvidence
  | duplicateEvidence
  | evidenceGap
  | duplicateExecutor
  | executorGap
  | executorBinding
  | irreversible
  deriving DecidableEq

/-- The version that the last record leaves the target at. -/
def logicalHead (head : Revision) : GoString :=
  if (head.kind = .reversal ∨ head.kind = .reapply) ∧ head.toVersion ≠ [] then head.toVersion
  else head.version

/-- The version a row is evidence for. -/
def logicalVersion (row : Revision) : GoString :=
  if row.kind = .reapply then row.toVersion else row.version

def addRow (rows : GoMap Revision) (row : Revision) : Except DownError (GoMap Revision) :=
  if row.kind = .reversal then .ok rows
  else if logicalVersion row = [] then .error .malformedEvidence
  else if (rows.get? (logicalVersion row)).any fun x => row.kind ≠ .reapply ∨ row.attempt ≤ x.attempt then
    .error .duplicateEvidence
  else .ok (rows.insert (logicalVersion row) row)

/-- The row of an entry that can be reversed. -/
def evidenceOk (rows : GoMap Revision) (e : Migration) : Bool :=
  (rows.get? e.version).any fun row =>
    row.state = .applied ∧ row.kind ≠ .baseline ∧ ¬ drifted row e

def original (trust : Trust) (files : GoMap GoString) (e : Migration) : Except DownError (Original × Artifact) :=
  if e.artifactFile = [] then .error .refused
  else
    match (trust.parse ((files.get? e.artifactFile).getD [])).bind trust.verify with
    | none => .error .refused
    | some p => .ok (⟨e.version, p.digest, p.plan.digest⟩, p)

/-- A row of the executor that confirms a step of the artifact. -/
def rowOk (r : Request) (a : Artifact) (x : Row) : Bool :=
  match (expectedSteps a).get? x.stepID, (a.plan.steps.filter fun s => s.id = x.stepID).getLast? with
  | some phase, some step =>
    decide (x.state = .confirmed ∧ x.stepHash = stepHash step ∧ x.phaseID = phase.id ∧
      x.phaseMode = phase.transaction ∧ x.executionID = a.digest ∧ x.planDigest = a.plan.digest ∧
      x.bundleDigest = a.guardrailDigest ∧ (r.targetIdentity = [] ∨ x.targetIdentity = r.targetIdentity))
  | _, _ => false

def checkExecutor (r : Request) (rows : GoMap Revision) : List (Original × Artifact) → Except DownError Unit
  | [] => .ok ()
  | (o, a) :: os =>
    let attempt := ((rows.get? o.version).map Revision.attempt).getD 0
    let history := r.executor.filter fun x => x.artifactDigest = o.artifactDigest ∧ x.attempt = attempt
    if history.length ≠ (expectedSteps a).size then .error .executorGap
    else if ¬ history.all (rowOk r a) then .error .executorBinding
    else checkExecutor r rows os

/-- `Build`, with `compose` for what follows the evidence. -/
def build (trust : Trust) (compose : Request → List Original → Except DownError Body) (r : Request) :
    Except DownError DownPlan :=
  match parseVersion r.targetVersion, r.revisions.getLast? with
  | .ok v, some head =>
    if r.snapshot.manifest.digest = [] then .error .refused
    else if head.state ≠ .applied ∧ head.state ≠ .baseline ∧ head.state ≠ .checkpoint then
      .error .unfinishedHead
    else
      let entries := r.snapshot.manifest.entries
      let index := versionIndex entries
      match index.get? v.string, index.get? (logicalHead head) with
      | some target, some headIndex =>
        if headIndex ≤ target then .error .refused
        else do
          let rows ← r.revisions.foldlM addRow .empty
          let reversed := (entries.take (headIndex + 1)).drop (target + 1)
          if ¬ reversed.all (evidenceOk rows) then .error .evidenceGap
          else do
            let originals ← reversed.mapM (original trust r.snapshot.files)
            if ¬ (r.executor.map fun x => (x.artifactDigest, x.stepID, x.attempt)).Nodup then
              .error .duplicateExecutor
            else do
              checkExecutor r rows originals
              let body ← compose r (originals.map Prod.fst)
              return {
                manifestDigest := r.snapshot.manifest.digest
                manifestGeneration := r.snapshot.manifest.generation
                headVersion := head.version
                headArtifactDigest := head.artifactDigest
                targetVersion := v.string
                originals := originals.map Prod.fst
                body }
      | _, _ => .error .refused
  | _, _ => .error .refused

/-- What `Build` has established about an accepted plan. -/
structure Accepted (trust : Trust) (r : Request) (p : DownPlan) where
  head : Revision
  head_eq : r.revisions.getLast? = some head
  headVersion_eq : p.headVersion = head.version
  target : Nat
  headIndex : Nat
  target_eq : (versionIndex r.snapshot.manifest.entries).get? p.targetVersion = some target
  headIndex_eq : (versionIndex r.snapshot.manifest.entries).get? (logicalHead head) = some headIndex
  target_lt : target < headIndex
  rows : GoMap Revision
  rows_eq : r.revisions.foldlM addRow .empty = .ok rows
  evidence : ∀ e ∈ (r.snapshot.manifest.entries.take (headIndex + 1)).drop (target + 1), evidenceOk rows e = true
  originals : List (Original × Artifact)
  originals_eq : ((r.snapshot.manifest.entries.take (headIndex + 1)).drop (target + 1)).mapM
    (original trust r.snapshot.files) = .ok originals
  plan_originals : p.originals = originals.map Prod.fst

theorem build_ok {trust : Trust} {compose : Request → List Original → Except DownError Body} {r : Request}
    {p : DownPlan} (h : build trust compose r = .ok p) : Nonempty (Accepted trust r p) := by
  rw [build] at h
  split at h
  rotate_left
  · cases h
  rename_i v head hv hhead
  rw [guard_ok, guard_ok] at h
  obtain ⟨-, -, h⟩ := h
  dsimp only at h
  split at h
  rotate_left
  · cases h
  rename_i target headIndex htarget hheadIndex
  simp only [guard_ok, bind_ok] at h
  obtain ⟨hlt, rows, hrows, hev, os, hos, -, ⟨⟩, -, body, -, h⟩ := h
  cases h
  refine ⟨⟨head, hhead, rfl, target, headIndex, htarget, hheadIndex, by omega, rows, hrows, ?_, os, hos, rfl⟩⟩
  simpa [all_eq_true] using hev

/-- A row is evidence for its own version. -/
theorem addRow_ok {rows rows' : GoMap Revision} {row : Revision} (h : addRow rows row = .ok rows')
    {v : GoString} {x : Revision} (hx : rows'.get? v = some x) :
    rows.get? v = some x ∨ x = row ∧ row.kind ≠ .reversal ∧ logicalVersion row = v := by
  rw [addRow] at h
  by_cases hk : row.kind = .reversal
  · rw [if_pos hk] at h
    cases h
    exact Or.inl hx
  · rw [if_neg hk, guard_ok, guard_ok] at h
    obtain ⟨-, -, h⟩ := h
    cases h
    rw [GoMap.get?_insert] at hx
    split_ifs at hx with hv
    · cases hx
      exact Or.inr ⟨rfl, hk, hv.symm⟩
    · exact Or.inl hx

theorem addRows_ok {records : List Revision} {rows : GoMap Revision}
    (h : records.foldlM addRow .empty = .ok rows) {v : GoString} {x : Revision} (hx : rows.get? v = some x) :
    x ∈ records ∧ x.kind ≠ .reversal ∧ logicalVersion x = v := by
  induction records using List.reverseRecOn generalizing rows with
  | nil =>
    cases h
    cases hx
  | append_singleton records row ih =>
    rw [foldlM_append, bind_ok] at h
    obtain ⟨rows', hrows, h⟩ := h
    rw [foldlM_cons, bind_ok] at h
    obtain ⟨rows'', hadd, h⟩ := h
    cases h
    rcases addRow_ok hadd hx with hx | ⟨rfl, hk, hv⟩
    · obtain ⟨hmem, hk⟩ := ih hrows hx
      exact ⟨mem_append_left _ hmem, hk⟩
    · exact ⟨mem_append_right _ mem_cons_self, hk, hv⟩

/-- The record that `ApplyDown` writes; `stamp` is the formatted time and
`payload` the artifact of the reversal. -/
def reversalRecord (p : DownPlan) (payload : Artifact) (operator stamp : GoString) (statements : Nat) : Revision where
  version := str "zz_down_" ++ stamp
  description := str "controlled down to " ++ p.targetVersion
  kind := .reversal
  fileName := p.body.artifactPath
  fileDigest := p.body.digest
  manifestDigest := p.manifestDigest
  manifestGeneration := p.manifestGeneration
  artifactDigest := payload.digest
  planDigest := payload.plan.digest
  checksDigest := payload.checksDigest
  bundleDigest := payload.guardrailDigest
  state := .applied
  statementOrdinal := statements
  attempt := 1
  operator := operator
  fromVersion := p.headVersion
  toVersion := p.targetVersion
  reversalOf := GoString.join (str ",") (p.originals.map Original.artifactDigest)

end AutoSql.Down
