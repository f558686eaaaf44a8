/-
AutoSql/Fleet/State.lean

The two ways to read the store of package `fleet`: `Get` returns a copy of a rollout,
`Status` lists the targets of all rollouts with their metadata.

`cloneState` sets the metadata of the copy to an empty map and then ranges over that
map, so a copy has no metadata.  This does not depend on how the store was reached.

Main result: `get_faithful_iff`.
-/
import AutoSql.Lib.GoMap

namespace AutoSql.Fleet

inductive TargetState
  | pending
  | running
  | succeeded
  | failed
  | canceled
  | skipped
  | drifted
  deriving DecidableEq

structure TargetResult where
  targetID : GoString
  state : TargetState := .pending
  attempts : Int := 0
  lastError : GoString := []
  updatedAt : Int

structure Target where
  id : GoString := []
  project : GoString := []
  environment : GoString := []
  region : GoString := []
  tenant : GoString := []
  tier : GoString := []
  labels : GoMap GoString := .empty
  connectionRef : GoString := []
  currentArtifact : GoString := []
  expectedArtifact : GoString := []
  snapshotDigest : GoString := []

structure Event where
  time : Int
  type : GoString
  rolloutID : GoString
  targetID : GoString := []
  artifactDigest : GoString := []
  reason : GoString := []

structure RolloutState where
  rolloutID : GoString
  planID : GoString
  artifactDigest : GoString
  state : GoString := str "pending"
  targets : GoMap TargetResult
  targetMeta : GoMap Target
  events : List Event := []
  updatedAt : Int

structure Store where
  rollouts : GoMap RolloutState := .empty

/-- A plan, as far as the store reads it; `valid` is what `RolloutPlan.Validate` says of it. -/
structure RolloutPlan where
  artifactDigest : GoString
  snapshotID : GoString
  valid : List Target → Bool

def Store.create (s : Store) (id : GoString) (p : RolloutPlan) (targets : List Target) (now : Int) : Option Store :=
  if id = [] ∨ p.artifactDigest = [] ∨ p.snapshotID = [] ∨ p.valid targets = false ∨ s.rollouts.contains id then none
  else some ⟨s.rollouts.insert id
    { rolloutID := id, planID := p.snapshotID, artifactDigest := p.artifactDigest, updatedAt := now
      targets := (GoMap.index Target.id targets).map fun t => { targetID := t.id, updatedAt := now }
      targetMeta := .index Target.id targets }⟩

/-- The metadata is reset before it is ranged over. -/
def cloneState (r : RolloutState) : RolloutState :=
  let r := { r with targetMeta := .empty }
  { r with targetMeta := .ofList r.targetMeta.entries }

def Store.get (s : Store) (id : GoString) : Option RolloutState := (s.rollouts.get? id).map cloneState

structure TargetStatus where
  rolloutID : GoString
  targetID : GoString
  artifactDigest : GoString
  state : TargetState
  attempts : Int
  lastError : GoString
  updatedAt : Int
  drift : Bool
  environment : GoString
  currentArtifact : GoString
  expectedArtifact : GoString

/-- The rows of a rollout, in the order of its targets. -/
def RolloutState.rows (rid : GoString) (r : RolloutState) : List TargetStatus :=
  r.targets.entries.map fun (tid, x) =>
    let m := (r.targetMeta.get? tid).getD {}
    { rolloutID := rid, targetID := tid, artifactDigest := r.artifactDigest, state := x.state, attempts := x.attempts
      lastError := x.lastError, updatedAt := x.updatedAt, drift := x.state = .drifted
      environment := m.environment, currentArtifact := m.currentArtifact, expectedArtifact := m.expectedArtifact }

structure StatusFilter where
  rolloutID : GoString := []
  environment : GoString := []
  targetID : GoString := []
  artifactDigest : GoString := []
  states : List TargetState := []

/-- The rows are sorted by rollout and target, which is the order of the keys of the maps. -/
def Store.status (s : Store) (f : StatusFilter) : List TargetStatus :=
  let rollouts := s.rollouts.entries.filter fun (rid, r) =>
    (f.rolloutID = [] ∨ rid = f.rolloutID) ∧ (f.artifactDigest = [] ∨ r.artifactDigest = f.artifactDigest)
  (rollouts.flatMap fun (rid, r) => r.rows rid).filter fun x =>
    (f.environment = [] ∨ x.environment = f.environment) ∧ (f.targetID = [] ∨ x.targetID = f.targetID) ∧ (f.states = [] ∨ x.state ∈ f.states)

variable {s : Store} {id : GoString} {r : RolloutState}

/-- The copy of a rollout is the rollout without its metadata.  So it is the rollout, with the rows that
`Status` lists, just if the rollout has no metadata. -/
theorem get_faithful_iff (hid : id ≠ []) (hr : s.rollouts.get? id = some r) :
    ∃ g, s.get id = some g ∧ g = { r with targetMeta := .empty } ∧ s.status { rolloutID := id } = r.rows id ∧
      (g = r ∧ s.status { rolloutID := id } = g.rows id ↔ r.targetMeta = .empty) := by
  have hs : s.status { rolloutID := id } = r.rows id := by simp [Store.status, hid, GoMap.filter_entries hr]
  refine ⟨cloneState r, by rw [Store.get, hr]; rfl, rfl, hs, fun hg => (congrArg RolloutState.targetMeta hg.1).symm, fun hm => ?_⟩
  have hg : cloneState r = r := by
    show { r with targetMeta := GoMap.empty } = r
    rw [← hm]
  exact ⟨hg, by rw [hg, hs]⟩

/-- The store after a rollout with one target was created. -/
def sampleStore : Store :=
  (Store.create {} (str "r") ⟨str "sha256:a", str "s", fun _ => true⟩ [{ id := str "db", environment := str "prod" }] 0).getD {}

theorem get_faithful_iff_sample : ∃ r g, sampleStore.rollouts.get? (str "r") = some r ∧ sampleStore.get (str "r") = some g ∧
    g = { r with targetMeta := .empty } := by
  obtain ⟨g, hg, heq, -⟩ := get_faithful_iff (s := sampleStore) (show str "r" ≠ [] by decide) rfl
  exact ⟨_, g, rfl, hg, heq⟩

/-- `Status` has the environment of the target, the copy does not. -/
theorem metadata_lost : ∃ g, sampleStore.get (str "r") = some g ∧ g.targetMeta = .empty ∧
    (sampleStore.status { rolloutID := str "r" }).map TargetStatus.environment = [str "prod"] ∧
      (g.rows (str "r")).map TargetStatus.environment = [[]] := ⟨_, rfl, rfl, by decide, by decide⟩

end AutoSql.Fleet
