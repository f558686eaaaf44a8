/-
AutoSql/Artifact/Plan.lean

What `Plan.Validate` guarantees about the steps and phases of a plan, and the
artifacts the executor is built with: their plans have been validated.

The phases of a valid plan are computed from its steps (`phases`): maximal runs of
steps with one transaction mode, in the order of the steps.  Hence each step stands
in one phase, and reading the phases one after another is reading the steps.
-/
import AutoSql.Artifact.Model
import AutoSql.Lib.Text

namespace AutoSql.Artifacts

open List

def stableID (domain : GoString) (values : List GoString) : GoString :=
  domain ++ str ":" ++ (GoString.hexEncode (Sha256.sum256
    (str "autosql.plan." ++ domain ++ str "/v1" ++ 0 :: values.flatMap (· ++ [0])))).take 24

/-- One more step: it joins the last phase if that has its transaction mode. -/
def addStep (out : List Phase) (s : Step) : List Phase :=
  match out.getLast? with
  | none => [⟨[], s.transaction, [s.id]⟩]
  | some p =>
    if p.transaction = s.transaction then out.dropLast ++ [{ p with stepIDs := p.stepIDs ++ [s.id] }]
    else out ++ [⟨[], s.transaction, [s.id]⟩]

def phases (steps : List Step) : List Phase :=
  (steps.foldl addStep []).mapIdx fun i p =>
    { p with id := stableID (str "phase") [GoString.itoa i, p.transaction.string, GoString.join [0] p.stepIDs] }

def validFingerprint (s : GoString) : Bool :=
  GoString.hasPrefix s (str "sha256:") && s.length == 71 &&
    (s.drop 7).all fun b => isDigit b || (0x61 ≤ b && b ≤ 0x66) || (0x41 ≤ b && b ≤ 0x46)

/-- A step by itself. -/
def Step.Valid (s : Step) : Prop :=
  s.id ≠ [] ∧ (s.kind = .executable → Text.trimSpace s.sql ≠ []) ∧ (s.kind = .topology → s.sql = [])

/-- The part of `Plan.Validate` that is about steps, phases and fingerprints. -/
def Plan.Valid (p : Plan) : Prop :=
  validFingerprint p.fromFingerprint = true ∧ validFingerprint p.toFingerprint = true ∧
    (∀ s ∈ p.steps, s.Valid) ∧ (p.steps.map Step.id).Nodup ∧ p.phases = Artifacts.phases p.steps

instance (s : Step) : Decidable s.Valid := inferInstanceAs (Decidable (_ ∧ _))

instance (p : Plan) : Decidable p.Valid := inferInstanceAs (Decidable (_ ∧ _))

/-- The payload of a verified artifact: its plan is valid, and it may be executed
from `createdAt` on and before `expiresAt`. -/
structure VerifiedArtifact extends Artifact where
  createdAt : Int
  expiresAt : Int
  valid : plan.Valid

/-- The step of an ID, as the map over the steps has it. -/
def Plan.stepOf (p : Plan) (id : GoString) : Option Step := (p.steps.filter fun s => s.id = id).getLast?

/-- The phase of a step, as the map over the phases has it. -/
def Plan.phaseOf (p : Plan) (id : GoString) : Option Phase :=
  (p.phases.filter fun ph => id ∈ ph.stepIDs).getLast?

/-! ### Reading the phases is reading the steps -/

theorem addStep_stepIDs (out : List Phase) (s : Step) :
    (addStep out s).flatMap Phase.stepIDs = out.flatMap Phase.stepIDs ++ [s.id] := by
  unfold addStep
  cases h : out.getLast? with
  | none =>
    rw [getLast?_eq_none_iff] at h
    simp [h]
  | some p =>
    obtain ⟨init, rfl⟩ := getLast?_eq_some_iff.mp h
    dsimp only
    split_ifs <;> simp

theorem foldl_addStep_stepIDs (steps : List Step) (out : List Phase) :
    (steps.foldl addStep out).flatMap Phase.stepIDs = out.flatMap Phase.stepIDs ++ steps.map Step.id := by
  induction steps generalizing out with
  | nil => simp
  | cons s steps ih => simp [ih, addStep_stepIDs]

/-- The phases list the steps in their order. -/
theorem phases_stepIDs (steps : List Step) : (phases steps).flatMap Phase.stepIDs = steps.map Step.id := by
  have h := foldl_addStep_stepIDs steps []
  have keep : (phases steps).map Phase.stepIDs = (steps.foldl addStep []).map Phase.stepIDs := by
    apply ext_getElem
    · simp [phases]
    · intro i h₁ h₂
      simp [phases]
  rw [flatMap_def] at h ⊢
  rw [keep, h]
  rfl

theorem phase_id_ne {steps : List Step} {p : Phase} (h : p ∈ phases steps) : p.id ≠ [] := by
  obtain ⟨i, hi, rfl⟩ := mem_mapIdx.mp h
  have hd : str "phase" ≠ [] := by decide
  simp [stableID, hd]

theorem Plan.stepOf_some {p : Plan} {id : GoString} {s : Step} (h : p.stepOf id = some s) :
    s ∈ p.steps ∧ s.id = id := by
  have := mem_of_getLast? h
  simpa using mem_filter.mp this

theorem Plan.phaseOf_some {p : Plan} {id : GoString} {ph : Phase} (h : p.phaseOf id = some ph) :
    ph ∈ p.phases ∧ id ∈ ph.stepIDs := by
  have := mem_of_getLast? h
  simpa using mem_filter.mp this

section Valid

variable {p : Plan} (hp : p.Valid)
include hp

theorem Plan.Valid.stepIDs : p.phases.flatMap Phase.stepIDs = p.steps.map Step.id := by
  rw [hp.2.2.2.2]
  exact phases_stepIDs p.steps

theorem Plan.Valid.stepOf_mem {s : Step} (hs : s ∈ p.steps) : p.stepOf s.id = some s := by
  have hmem : s ∈ p.steps.filter fun t => t.id = s.id := by simp [hs]
  cases h : p.stepOf s.id with
  | none =>
    rw [Plan.stepOf, getLast?_eq_none_iff] at h
    simp [h] at hmem
  | some t =>
    obtain ⟨ht, hid⟩ := Plan.stepOf_some h
    rw [inj_on_of_nodup_map hp.2.2.2.1 ht hs hid]

/-- A step stands in one phase. -/
theorem Plan.Valid.phase_unique {ph ph' : Phase} {id : GoString} (h : ph ∈ p.phases) (h' : ph' ∈ p.phases)
    (hid : id ∈ ph.stepIDs) (hid' : id ∈ ph'.stepIDs) : ph = ph' := by
  obtain ⟨-, hd⟩ := nodup_flatMap.mp (hp.stepIDs ▸ hp.2.2.2.1)
  have : Std.Symm (Function.onFun List.Disjoint Phase.stepIDs) := ⟨fun _ _ hs _ h₁ h₂ => hs h₂ h₁⟩
  by_contra hne
  exact hd.forall h h' hne hid hid'

theorem Plan.Valid.phaseOf_mem {ph : Phase} {id : GoString} (h : ph ∈ p.phases) (hid : id ∈ ph.stepIDs) :
    p.phaseOf id = some ph := by
  have hmem : ph ∈ p.phases.filter fun x => id ∈ x.stepIDs := by simp [h, hid]
  cases hf : p.phaseOf id with
  | none =>
    rw [Plan.phaseOf, getLast?_eq_none_iff] at hf
    simp [hf] at hmem
  | some x =>
    obtain ⟨hx, hxid⟩ := Plan.phaseOf_some hf
    rw [hp.phase_unique hx h hxid hid]

theorem Plan.Valid.exists_phase {s : Step} (hs : s ∈ p.steps) : ∃ ph ∈ p.phases, s.id ∈ ph.stepIDs := by
  have h : s.id ∈ p.phases.flatMap Phase.stepIDs := by
    rw [hp.stepIDs]
    exact mem_map_of_mem hs
  simpa using h

end Valid

end AutoSql.Artifacts
