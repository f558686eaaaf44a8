/-
AutoSql/Zdm/Lifecycle.lean

Starts, completions and rollbacks of one target side by side.

Each package takes an advisory lock of its own: the key begins with the package's
version, so a start, a completion and a rollback of one target hold three different locks
at once.  `lifecycle_overlap` is a run in which that happens, and in which a rollback
withdraws a version whose contract completion has begun.

`lifecycle_exclusive` says what the locks are good for.  If calls of different packages
are kept apart when they take their lock, and the inspector of a rollback reports a
completion that has begun, then no two actions are ever at work together, and no version
is withdrawn after its contract completion has begun.
-/
import AutoSql.Zdm.Gates
import AutoSql.Zdm.Rollback
import AutoSql.Zdm.Start

namespace AutoSql.Zdm

open List Function
open Discipline (Returns Meets)

/-! ### The system -/

inductive Kind
  | start
  | contract
  | rollback
  deriving DecidableEq

instance (p : Kind → Prop) [DecidablePred p] : Decidable (∀ k, p k) :=
  decidable_of_iff (p .start ∧ p .contract ∧ p .rollback)
    ⟨fun h k => match k with
      | .start => h.1
      | .contract => h.2.1
      | .rollback => h.2.2, fun h => ⟨h _, h _, h _⟩⟩

def Kind.version : Kind → GoString
  | .start => Start.version
  | .contract => Contract.version
  | .rollback => Rollback.version

def Kind.defaultSchema : Kind → GoString
  | .start => Start.defaultSchema
  | .contract => Contract.defaultSchema
  | .rollback => Rollback.defaultSchema

def Action.kind : Action → Kind
  | .start _ => .start
  | .contract _ => .contract
  | .rollback _ => .rollback

/-- The lock of a target in the package. -/
def lockKey (cfg : Config) (k : Kind) : GoString := domain k.version (cfg.withSchema k.defaultSchema)

/-- The row of a contract completion of the target. -/
def contractKey (cfg : Config) : Key := (cfg.withSchema Contract.defaultSchema).key

/-- A call of one of the packages. -/
inductive Call
  | start (s : Start.Spec) (hooked : Bool)
  | complete (s : Contract.Spec) (a : Approval)
  | rollback (s : Rollback.Spec) (a : Rollback.Authorization)

def Call.program (cfg : Config) : Call → Nat → Prog Statement World Unit Unit
  | .start s hooked, me =>
    (Start.startWithHooks me cfg s (Start.Actions.single s.newVersion) (Start.Hooks.single hooked)).forget
  | .complete s a, me => (Contract.complete me cfg s a).forget
  | .rollback s a, me => (Rollback.rollback me cfg s a).forget

/-- Calls of all packages on one target. -/
def lifecycle (cfg : Config) : System Statement World Call Env := ⟨exec, close, env, Call.program cfg⟩

/-! ### Lock keys -/

/-- The versions of the packages have no common beginning. -/
theorem version_append_inj {k k' : Kind} {s s' : GoString} (h : k.version ++ s = k'.version ++ s') : k = k' := by
  have htake := congrArg (List.take 20) h
  have hlen : ∀ k : Kind, 20 ≤ k.version.length := by
    intro k
    cases k <;> decide +kernel
  rw [take_append_of_le_length (hlen k), take_append_of_le_length (hlen k')] at htake
  revert htake
  cases k <;> cases k' <;> decide +kernel

theorem lockKey_inj {cfg : Config} {k k' : Kind} (h : lockKey cfg k = lockKey cfg k') : k = k' := by
  simp only [lockKey, domain, append_assoc] at h
  exact version_append_inj h

theorem initDomain_ne_lockKey (cfg : Config) (k k' : Kind) :
    initDomain k.version (cfg.withSchema k.defaultSchema) ≠ lockKey cfg k' := by
  intro h
  obtain rfl : k = k' := by
    simp only [lockKey, domain, initDomain, append_assoc] at h
    exact version_append_inj h
  exact initDomain_ne_domain _ _ h

/-! ### The invariant -/

/-- The event that a version is withdrawn. -/
def isWithdrawal : Event → Bool
  | .entered _ (.rollback .withdrawNew) _ => true
  | _ => false

def isContractStart : Event → Bool
  | .contractStarted _ => true
  | _ => false

/-- No version is withdrawn after a completion of the target has begun. -/
def NoLateWithdrawal (l : List Event) : Prop := l.Pairwise fun e e' => ¬ (isContractStart e = true ∧ isWithdrawal e' = true)

theorem NoLateWithdrawal.snoc {l : List Event} {e : Event} (h : NoLateWithdrawal l)
    (he : isWithdrawal e = true → ∀ e' ∈ l, isContractStart e' = false) : NoLateWithdrawal (l ++ [e]) := by
  refine pairwise_append.mpr ⟨h, pairwise_singleton _ _, fun e₁ h₁ e₂ h₂ => ?_⟩
  obtain rfl := mem_singleton.mp h₂
  rintro ⟨hs, hw⟩
  rw [he hw e₁ h₁] at hs
  cases hs

structure Exclusive (cfg : Config) (w : World) : Prop where
  holds : ∀ i a, w.running i = some a → w.locks (lockKey cfg a.kind) = some i
  apart : ∀ k k' i j, w.locks (lockKey cfg k) = some i → w.locks (lockKey cfg k') = some j → k = k'
  recorded : w.contracts (contractKey cfg) = none → ∀ e ∈ w.log, isContractStart e = false
  inTime : NoLateWithdrawal w.log

/-- What session `i` relies on: it keeps its locks, and no completion begins while it holds the lock of a rollback. -/
structure Keeps (cfg : Config) (i : Nat) (w w' : World) : Prop where
  locks : ∀ k, w.locks (lockKey cfg k) = some i → w'.locks (lockKey cfg k) = some i
  contracts : w.locks (lockKey cfg .rollback) = some i → w.contracts (contractKey cfg) = none → w'.contracts (contractKey cfg) = none

/-- Calls of different packages are kept apart when they take their lock, and the inspector of a
rollback reports a completion that has begun. -/
def Orderly (cfg : Config) (c : Statement) (w : World) : Prop :=
  match c with
  | .tryLock key => ∀ k, key = lockKey cfg k → ∀ k', k' ≠ k → w.locks (lockKey cfg k') = none
  | .eligible => w.contracts (contractKey cfg) ≠ none → w.outside.eligibility.blockers ≠ [] ∨ w.outside.eligibility.completed = true
  | _ => True

instance (cfg : Config) (c : Statement) (w : World) : Decidable (Orderly cfg c w) := by
  unfold Orderly
  split <;> infer_instance

def lifecycleDiscipline (cfg : Config) : Discipline (lifecycle cfg) where
  Inv := Exclusive cfg
  Rely := Keeps cfg
  Guar i _ w w' := ∀ j, i ≠ j → Keeps cfg j w w'
  Assumes _ := Orderly cfg
  AssumesEnv _ _ := True
  refl _ _ := ⟨fun _ h => h, fun _ h => h⟩
  trans h h' := ⟨fun k hk => h'.locks k (h.locks k hk), fun hk hn => h'.contracts (h.locks _ hk) (h.contracts hk hn)⟩
  others hij _ h := h _ hij
  env {e w w'} hI _ he := by
    cases e with
    | outside o =>
      cases he
      exact ⟨⟨hI.holds, hI.apart, hI.recorded, hI.inTime⟩, fun _ => ⟨fun _ h => h, fun _ h => h⟩⟩
    | write rel rows =>
      simp only [lifecycle, env] at he
      split_ifs at he
      cases he
      exact ⟨⟨hI.holds, hI.apart, hI.recorded, hI.inTime⟩, fun _ => ⟨fun _ h => h, fun _ h => h⟩⟩
  close {i w} hI := by
    -- the locks that remain are those of other sessions
    have hleft : ∀ k j, (close i w).locks (lockKey cfg k) = some j → w.locks (lockKey cfg k) = some j := by
      intro k j hj
      simp only [close] at hj
      split_ifs at hj
      exact hj
    have hkept : ∀ k j, i ≠ j → w.locks (lockKey cfg k) = some j → (close i w).locks (lockKey cfg k) = some j := by
      intro k j hij hj
      have hne : w.locks (lockKey cfg k) ≠ some i := fun h => hij (Option.some.inj (h.symm.trans hj))
      simp only [close, if_neg hne]
      exact hj
    refine ⟨⟨fun j a ha => ?_, fun k k' j j' hj hj' => hI.apart k k' j j' (hleft k j hj) (hleft k' j' hj'), hI.recorded, hI.inTime⟩,
      fun j hij => ⟨fun k hk => hkept k j hij hk, fun _ hn => hn⟩⟩
    by_cases hij : i = j
    · subst hij
      simp [lifecycle, close] at ha
    · refine hkept _ _ hij (hI.holds j a ?_)
      simpa [lifecycle, close, update_of_ne (Ne.symm hij)] using ha

/-! ### What one statement does -/

section Statements

variable {cfg : Config} {i : Nat} {w w' : World}

/-- Locks, actions and the recorded completion stay, up to an action of session `i` that ends. -/
structure Calm (cfg : Config) (i : Nat) (w w' : World) : Prop where
  locks : ∀ k, w'.locks (lockKey cfg k) = w.locks (lockKey cfg k)
  running : ∀ j a, w'.running j = some a → w.running j = some a
  contracts : w'.contracts (contractKey cfg) = none ↔ w.contracts (contractKey cfg) = none
  log : w'.log = w.log ∨ ∃ e, w'.log = w.log ++ [e] ∧ isWithdrawal e = false ∧ isContractStart e = false

theorem Calm.rfl : Calm cfg i w w := ⟨fun _ => Eq.refl _, fun _ _ => id, Iff.rfl, .inl (Eq.refl _)⟩

theorem Calm.keeps (h : Calm cfg i w w') (j : Nat) : Keeps cfg j w w' :=
  ⟨fun k hk => (h.locks k).trans hk, fun _ hn => h.contracts.mpr hn⟩

theorem Calm.exclusive (h : Calm cfg i w w') (hI : Exclusive cfg w) : Exclusive cfg w' := by
  refine ⟨fun j a ha => (h.locks _).trans (hI.holds j a (h.running j a ha)), ?_, fun hn e he => ?_, ?_⟩
  · intro k k' j j' hj hj'
    rw [h.locks] at hj hj'
    exact hI.apart k k' j j' hj hj'
  · have hrec := hI.recorded (h.contracts.mp hn)
    rcases h.log with hl | ⟨e', hl, -, hs⟩
    · exact hrec e (hl ▸ he)
    · rw [hl, mem_append, mem_singleton] at he
      rcases he with he | rfl
      · exact hrec e he
      · exact hs
  · rcases h.log with hl | ⟨e, hl, hw, -⟩
    · exact hl ▸ hI.inTime
    · rw [hl]
      exact hI.inTime.snoc fun he => absurd he (by simp [hw])

/-- Statements that have nothing to do with locks and actions. -/
def calm : Statement → Bool
  | .session | .leave | .catalog _ | .start _ _ | .contract _ .select | .contract _ (.update _) | .inspect | .gate _ _ | .check _ _ _
  | .verify | .rollback _ _ | .audit _ => true
  | _ => false

theorem calm_exec {st : Statement} (hst : calm st = true) (he : exec i st w = some w') : Calm cfg i w w' := by
  cases st with
  | session =>
    cases he
    exact Calm.rfl
  | leave =>
    cases he
    refine ⟨fun _ => rfl, fun j a ha => ?_, Iff.rfl, .inl rfl⟩
    by_cases hij : j = i
    · simp [hij] at ha
    · simpa [update_of_ne hij] using ha
  | catalog | start | rollback | audit =>
    cases he
    exact ⟨fun _ => rfl, fun _ _ => id, Iff.rfl, .inl rfl⟩
  | contract key s =>
    have hsame : (s.exec (w.contracts key) = none ↔ w.contracts key = none) := by
      cases s with
      | insert r => cases hst
      | select => rfl
      | update f => simp [RowStmt.exec]
    cases he
    refine ⟨fun _ => rfl, fun _ _ => id, ?_, .inl rfl⟩
    by_cases hkey : contractKey cfg = key
    · rw [hkey]
      simpa using hsame
    · simp [update_of_ne hkey]
  | inspect | gate | verify =>
    cases he
    exact ⟨fun _ => rfl, fun _ _ => id, Iff.rfl, .inr ⟨_, rfl, rfl, rfl⟩⟩
  | check n sql after =>
    obtain ⟨b, -, rfl⟩ := Option.map_eq_some_iff.mp he
    exact ⟨fun _ => rfl, fun _ _ => id, Iff.rfl, .inr ⟨_, rfl, rfl, rfl⟩⟩
  | _ => cases hst

/-- The locks around the control schemas are no locks of targets. -/
theorem initializes_exec {st : Statement} {k : Kind}
    (hst : initializes (initDomain k.version (cfg.withSchema k.defaultSchema)) st) (he : exec i st w = some w') : Calm cfg i w w' := by
  have hne := initDomain_ne_lockKey cfg k
  cases st with
  | lock key =>
    obtain rfl : key = _ := hst
    simp only [exec] at he
    split_ifs at he with hfree
    cases he
    rw [World.takeLock, if_pos hfree]
    refine ⟨fun k' => ?_, fun _ _ => id, Iff.rfl, .inr ⟨_, rfl, rfl, rfl⟩⟩
    show update _ _ _ _ = _
    rw [update_of_ne (hne k').symm]
  | unlock key =>
    obtain rfl : key = _ := hst
    cases he
    unfold World.releaseLock
    split_ifs
    · refine ⟨fun k' => ?_, fun _ _ => id, Iff.rfl, .inl rfl⟩
      show update _ _ _ _ = _
      rw [update_of_ne (hne k').symm]
    · exact Calm.rfl
  | catalog f => exact calm_exec rfl he
  | _ => exact hst.elim

/-- Taking the lock of a target. -/
theorem tryLock_exec {k : Kind} (hI : Exclusive cfg w) (hfree : ∀ k', k' ≠ k → w.locks (lockKey cfg k') = none)
    (he : exec i (.tryLock (lockKey cfg k)) w = some w') : Exclusive cfg w' ∧ ∀ j, i ≠ j → Keeps cfg j w w' := by
  cases he
  unfold World.takeLock
  split_ifs with hopen
  · have hlocks : ∀ k', update w.locks (lockKey cfg k) (some i) (lockKey cfg k') = if k' = k then some i else none := by
      intro k'
      split_ifs with hk
      · rw [hk, update_self]
      · rw [update_of_ne fun h => hk (lockKey_inj h), hfree k' hk]
    have hmine : ∀ k' j, w.locks (lockKey cfg k') = some j → k' = k ∧ j = i := by
      intro k' j hj
      by_cases hk : k' = k
      · subst hk
        rw [hj] at hopen
        exact ⟨rfl, by simpa using hopen⟩
      · rw [hfree k' hk] at hj
        cases hj
    refine ⟨⟨fun j a ha => ?_, fun k₁ k₂ j j' h₁ h₂ => ?_, fun hn e he => ?_, hI.inTime.snoc nofun⟩, fun j hij => ⟨fun k' hk' => ?_, fun _ => id⟩⟩
    · obtain ⟨hk, rfl⟩ := hmine _ _ (hI.holds j a ha)
      exact (hlocks _).trans (if_pos hk)
    · have h₁ : update w.locks (lockKey cfg k) (some i) (lockKey cfg k₁) = some j := h₁
      have h₂ : update w.locks (lockKey cfg k) (some i) (lockKey cfg k₂) = some j' := h₂
      rw [hlocks] at h₁ h₂
      split_ifs at h₁ h₂ with hk₁ hk₂
      exact hk₁.trans hk₂.symm
    · rcases mem_append.mp he with he | he
      · exact hI.recorded hn e he
      · obtain rfl := mem_singleton.mp he
        rfl
    · exact absurd (hmine k' j hk').2 (Ne.symm hij)
  · exact ⟨hI, fun j _ => ⟨fun _ => id, fun _ => id⟩⟩

/-- An action begins in a session that holds the lock of its package. -/
theorem enter_exec {a : Action} {v : GoString} (hI : Exclusive cfg w) (hheld : w.locks (lockKey cfg a.kind) = some i)
    (hwithdraw : a = .rollback .withdrawNew → w.contracts (contractKey cfg) = none) : Exclusive cfg (w.enter i a v) := by
  refine ⟨fun j b hb => ?_, hI.apart, fun hn e he => ?_, hI.inTime.snoc fun hw => ?_⟩
  · by_cases hij : j = i
    · subst hij
      obtain rfl : a = b := by simpa [World.enter, World.record] using hb
      exact hheld
    · exact hI.holds j b (by simpa [World.enter, World.record, update_of_ne hij] using hb)
  · rcases mem_append.mp he with he | he
    · exact hI.recorded hn e he
    · obtain rfl := mem_singleton.mp he
      rfl
  · have ha : a = .rollback .withdrawNew := by
      cases a with
      | rollback p => cases p <;> simp_all [isWithdrawal]
      | start | contract => cases hw
    exact hI.recorded (hwithdraw ha)

end Statements

/-! ### What a call does -/

section Calls

variable {cfg : Config} {i : Nat} {w w' : World} {k : Kind}

/-- The session has the lock of its package, and if that is a rollback, no completion has begun. -/
def Entitled (cfg : Config) (k : Kind) (i : Nat) (w : World) : Prop :=
  w.locks (lockKey cfg k) = some i ∧ (k = .rollback → w.contracts (contractKey cfg) = none)

theorem Entitled.rely (h : Entitled cfg k i w) (hR : Keeps cfg i w w') : Entitled cfg k i w' := by
  refine ⟨hR.locks k h.1, ?_⟩
  rintro rfl
  exact hR.contracts h.1 (h.2 rfl)

/-- The statements of a call that has the lock. -/
def working (cfg : Config) (k : Kind) : Statement → Prop
  | .enter a _ => a.kind = k
  | .contractInsert key _ _ => k = .contract ∧ key = contractKey cfg
  | st => calm st = true

theorem working_exec {st : Statement} (hst : working cfg k st) (hI : Exclusive cfg w) (h : Entitled cfg k i w)
    (he : exec i st w = some w') : Exclusive cfg w' ∧ (∀ j, i ≠ j → Keeps cfg j w w') ∧ Entitled cfg k i w' := by
  have hcalm : calm st = true → Exclusive cfg w' ∧ (∀ j, i ≠ j → Keeps cfg j w w') ∧ Entitled cfg k i w' := by
    intro hc
    have hC : Calm cfg i w w' := calm_exec hc he
    exact ⟨hC.exclusive hI, fun j _ => hC.keeps j, h.rely (hC.keeps i)⟩
  cases st with
  | enter a v =>
    cases he
    obtain rfl : a.kind = k := hst
    refine ⟨enter_exec hI h.1 fun ha => h.2 (by rw [ha]; rfl), fun j _ => ⟨fun _ => id, fun _ => id⟩, h⟩
  | contractInsert key r v =>
    obtain ⟨rfl, rfl⟩ : k = .contract ∧ key = contractKey cfg := hst
    simp only [exec] at he
    cases hrow : w.contracts (contractKey cfg) with
    | some r' =>
      rw [hrow] at he
      cases he
      exact ⟨hI, fun j _ => ⟨fun _ => id, fun _ => id⟩, h⟩
    | none =>
      rw [hrow] at he
      cases he
      refine ⟨⟨hI.holds, hI.apart, fun hn => ?_, hI.inTime.snoc (by rintro ⟨⟩)⟩, fun j _ => ⟨fun _ => id, fun hj => ?_⟩, h.1, by rintro ⟨⟩⟩
      · have hsome : update w.contracts (contractKey cfg) (some r) (contractKey cfg) = none := hn
        rw [update_self] at hsome
        cases hsome
      · -- the lock of a rollback is not held while that of a completion is
        cases hI.apart _ _ _ _ hj h.1
  | _ => exact hcalm hst

theorem meets_working {σ α : Type} {p : Program σ α} (hp : p.Only (working cfg k)) (h : Entitled cfg k i w) :
    (lifecycleDiscipline cfg).Meets i p w (Returns fun _ _ => True) :=
  (Meets.of_only (K := Entitled cfg k i) (fun h hR => h.rely hR) (fun hst hI h _ he => working_exec hst hI h he) hp h).mono fun _ _ _ _ _ => trivial

/-- A call before it has the lock, up to the statement that takes it. -/
theorem meets_session {σ α : Type} {f : World → Program σ α} (e : σ × Error)
    (hf : ∀ w, (lifecycleDiscipline cfg).Meets i (f w) w (Returns fun _ _ => True)) :
    (lifecycleDiscipline cfg).Meets i (Prog.stmt .session e >>= f) w (Returns fun _ _ => True) := by
  refine Meets.stmt fun w₁ hI _ _ => ⟨Returns.error, ?_⟩
  rintro w₂ ⟨⟩
  exact ⟨hI, fun j _ => ⟨fun _ => id, fun _ => id⟩, Returns.error, hf w₁⟩

theorem meets_lock {σ : Type} [Inhabited σ] {init : Program σ Unit} {taken : Error}
    (hinit : init.Only (initializes (initDomain k.version (cfg.withSchema k.defaultSchema)))) :
    (lifecycleDiscipline cfg).Meets i (acquire i k.version taken init (cfg.withSchema k.defaultSchema)) w
      (Returns fun _ w => w.locks (lockKey cfg k) = some i) := by
  refine meets_acquire hinit (fun hI _ hA he => ?_) (fun h hR => hR.locks k h) fun hst hI h he => ?_
  · obtain ⟨hI', hG⟩ := tryLock_exec hI (hA k rfl) he
    exact ⟨hI', hG, id⟩
  · have hC : Calm cfg i _ _ := initializes_exec hst he
    exact ⟨hC.exclusive hI, fun j _ => hC.keeps j, (hC.locks k).trans h⟩

theorem meets_start (s : Start.Spec) (hooked : Bool) : (lifecycleDiscipline cfg).Meets i
      (Start.startWithHooks i cfg s (Start.Actions.single s.newVersion) (Start.Hooks.single hooked)) w
      (Returns fun _ _ => True) := by
  refine meets_checked fun c hc => meets_checked fun _ _ => ?_
  obtain rfl := defaults_ok hc
  refine meets_session _ fun w => meets_session _ fun w => ?_
  refine Meets.seq (meets_lock (k := .start) (only_ensure (fun _ => trivial) _ _ _ _)) fun _ w hw => ?_
  refine meets_working (Start.only_serve ?_ ?_ fun hook hh p => ?_) ⟨hw, nofun⟩
  · exact ⟨rfl, fun _ => rfl, rfl, fun _ _ => rfl⟩
  · exact Start.only_single (fun _ => rfl) rfl
  · exact Start.only_hook (show working cfg .start .session from rfl) hook hh p

theorem meets_completion (s : Contract.Spec) (a : Approval) :
    (lifecycleDiscipline cfg).Meets i (Contract.complete i cfg s a) w (Returns fun _ _ => True) := by
  refine meets_checked fun c hc => meets_checked fun _ _ => ?_
  obtain rfl := defaults_ok hc
  refine meets_session _ fun w => ?_
  refine Meets.seq (meets_lock (k := .contract) (only_ensure (fun _ => trivial) _ _ _ _)) fun _ w hw => ?_
  refine meets_working (Contract.only_serve ?_) ⟨hw, nofun⟩
  exact ⟨rfl, rfl, fun _ _ => rfl, rfl, fun _ _ => rfl, fun _ _ _ => rfl, rfl, fun _ => rfl, ⟨rfl, rfl⟩, fun _ _ => rfl⟩

theorem meets_rollback (s : Rollback.Spec) (a : Rollback.Authorization) :
    (lifecycleDiscipline cfg).Meets i (Rollback.rollback i cfg s a) w (Returns fun _ _ => True) := by
  refine meets_checked fun c hc => meets_checked fun _ _ => ?_
  obtain rfl := defaults_ok hc
  refine meets_session _ fun w => ?_
  refine Meets.stmt fun w₁ hI _ hA => ⟨Returns.error, fun w₂ hw₂ => ?_⟩
  obtain ⟨hI₂, hG⟩ := tryLock_exec hI (hA .rollback rfl) hw₂
  refine ⟨hI₂, hG, Returns.error, ?_⟩
  split_ifs with hown
  · exact Returns.error
  have hown : w₂.locks (lockKey cfg .rollback) = some i := not_not.mp hown
  -- the lock is kept by all statements up to the inspection
  have hcalm : ∀ {α : Type} {p : Program Rollback.Status α} {w : World}, p.Only (fun st => calm st = true) →
      w.locks (lockKey cfg .rollback) = some i →
      (lifecycleDiscipline cfg).Meets i p w fun _ w => w.locks (lockKey cfg .rollback) = some i := fun hp h =>
    Meets.of_only (fun h hR => hR.locks _ h) (fun hst hI h _ he => by
      have hC : Calm cfg i _ _ := calm_exec hst he
      exact ⟨hC.exclusive hI, fun j _ => hC.keeps j, (hC.locks _).trans h⟩) hp h
  have hstatus : (Rollback.statusOf (cfg.withSchema Rollback.defaultSchema) s).Only fun st => calm st = true :=
    Rollback.only_statusOf (P := fun st => calm st = true) rfl (fun _ => rfl) _ _
  refine Meets.seq ((hcalm (Rollback.only_ensure (fun _ => rfl) _) hown).mono fun _ _ h _ _ => h) fun _ w hw => ?_
  refine Meets.seq ((hcalm (only_sql rfl) hw).mono fun _ _ h _ _ => h) fun w' w hw => ?_
  refine meets_checked fun complete _ => ?_
  split_ifs
  · exact (hcalm hstatus hw).mono fun _ _ _ _ _ => trivial
  refine Meets.stmt fun w₃ hI₃ hR₃ hA₃ => ⟨Returns.error, ?_⟩
  rintro w₄ ⟨⟩
  refine ⟨hI₃, fun j _ => ⟨fun _ => id, fun _ => id⟩, Returns.error, ?_⟩
  split_ifs with hblock
  · exact Returns.error
  refine meets_working (Rollback.only_proceed ?_ _ _) ⟨hR₃.locks _ hw, fun _ => ?_⟩
  · exact ⟨rfl, rfl, fun _ _ => rfl, fun _ => rfl, fun _ => rfl, rfl, fun _ _ => rfl⟩
  · by_contra hbegun
    -- a completion that has begun is a blocker
    rcases hA₃ hbegun with h | h <;> simp [Rollback.eligibilityBlockers, h] at hblock

end Calls

/-- **Lifecycle actions exclude each other**, if calls of different packages are kept apart when they
take their lock and the inspector of a rollback reports a completion that has begun: no two actions are
at work together, and no version is withdrawn whose completion has begun. -/
theorem lifecycle_exclusive (cfg : Config) {w : World} (hlocks : ∀ k, w.locks (lockKey cfg k) = none) (hrunning : ∀ i, w.running i = none)
    (hlog : w.log = []) {l : List (Act Call Env)} {x : Conf Statement World}
    (h : (lifecycle cfg).Reaches (fun x a => ∀ c ∈ x.next a, Orderly cfg c x.state) (System.initial w) l x) :
    (∀ i j a b, i ≠ j → x.state.running i = some a → x.state.running j = some b → False) ∧
      ∀ before i v after, x.state.log = before ++ .entered i (.rollback .withdrawNew) v :: after → .contractStarted v ∉ before := by
  have hinit : Exclusive cfg w := by
    refine ⟨fun i a ha => ?_, fun k k' i j hi => ?_, fun _ e he => ?_, ?_⟩
    · rw [hrunning i] at ha
      cases ha
    · rw [hlocks k] at hi
      cases hi
    · rw [hlog] at he
      cases he
    · rw [hlog]
      exact List.Pairwise.nil
  have hgood : (lifecycleDiscipline cfg).Good x := by
    refine Discipline.reaches (fun p i w _ => ?_) hinit (h.mono fun x a ha => ?_)
    · cases p with
      | start s hooked => exact Meets.forget ((meets_start s hooked).mono fun _ _ _ => trivial)
      | complete s a => exact Meets.forget ((meets_completion s a).mono fun _ _ _ => trivial)
      | rollback s a => exact Meets.forget ((meets_rollback s a).mono fun _ _ _ => trivial)
    · cases a with
      | call i r => exact ha
      | env | openSession | close => trivial
  have hI := hgood.inv
  refine ⟨fun i j a b hij ha hb => ?_, fun before i v after hl hv => ?_⟩
  · -- both hold the lock of their package, so it is the same package and the same lock
    have hi := hI.holds i a ha
    have hj := hI.holds j b hb
    rw [← hI.apart _ _ _ _ hi hj] at hj
    exact hij (Option.some.inj (hi.symm.trans hj))
  · have htime := hI.inTime
    rw [hl] at htime
    exact (pairwise_append.mp htime).2.2 _ hv _ mem_cons_self ⟨rfl, rfl⟩

/-! A start, a completion and a rollback of one target.  Their locks are different. -/

def sampleStart : Call := .start (Start.new (str "release_two") (List.replicate 64 0x61) (str "v1") (str "v2")) false

def sampleCompletion : Call :=
  .complete Contract.sampleSpec ⟨Contract.sampleSpec.digest, str "ada", str "approved", 1, 10⟩

def sampleRollback : Call :=
  .rollback (Rollback.new (str "release_two") (List.replicate 64 0x61) (str "v1") (str "v2")) ⟨str "ada", str "broken", false, 1⟩

/-- While a start is validating, a completion executes its first step and a rollback withdraws the version
that is being completed. -/
theorem lifecycle_overlap : ∃ l x, (lifecycle Contract.sampleConfig).Reaches (fun _ _ => True)
      (System.initial (World.fresh (Contract.sampleOutside false) fun _ => id)) l x ∧
    x.state.running 0 = some (.start .validate) ∧ x.state.running 1 = some (.contract 0) ∧
    x.state.running 2 = some (.rollback .withdrawNew) ∧
    (x.state.log.filter fun e => isContractStart e || isWithdrawal e) =
      [.contractStarted (str "v2"), .entered 2 (.rollback .withdrawNew) (str "v2")] := by
  let l : List (Act Call Env) := [Act.openSession 0 sampleStart] ++ List.replicate 15 (Act.call 0 .done) ++
    [Act.openSession 1 sampleCompletion] ++ List.replicate 17 (Act.call 1 .done) ++
    [Act.openSession 2 sampleRollback] ++ List.replicate 13 (Act.call 2 .done)
  have hrun : ((lifecycle Contract.sampleConfig).run
      (System.initial (World.fresh (Contract.sampleOutside false) fun _ => id)) l).map
      (fun x => (x.state.running 0, x.state.running 1, x.state.running 2,
        x.state.log.filter fun e => isContractStart e || isWithdrawal e)) =
      some (some (.start .validate), some (.contract 0), some (.rollback .withdrawNew),
        [.contractStarted (str "v2"), .entered 2 (.rollback .withdrawNew) (str "v2")]) := by decide +kernel
  obtain ⟨x, hx, h⟩ := Option.map_eq_some_iff.mp hrun
  simp only [Prod.mk.injEq] at h
  exact ⟨l, x, System.Reaches.of_run hx, h⟩

/-- The same calls one after the other, the rollback without a completion before it. -/
theorem lifecycle_exclusive_sample : ∃ l x, (lifecycle Contract.sampleConfig).Reaches
      (fun x a => ∀ c ∈ x.next a, Orderly Contract.sampleConfig c x.state)
      (System.initial (World.fresh (Contract.sampleOutside false) fun _ => id)) l x ∧
    x.state.running 2 = some (.rollback .withdrawNew) ∧
    ∀ i j a b, i ≠ j → x.state.running i = some a → x.state.running j = some b → False := by
  let l : List (Act Call Env) := [Act.openSession 0 sampleStart] ++ List.replicate 15 (Act.call 0 .done) ++ [Act.close 0] ++
    [Act.openSession 2 sampleRollback] ++ List.replicate 13 (Act.call 2 .done)
  have hrun : ((lifecycle Contract.sampleConfig).runIf (fun x a => ∀ c ∈ x.next a, Orderly Contract.sampleConfig c x.state)
      (System.initial (World.fresh (Contract.sampleOutside false) fun _ => id)) l).map
      (fun x => x.state.running 2) = some (some (.rollback .withdrawNew)) := by decide +kernel
  obtain ⟨x, hx, h⟩ := Option.map_eq_some_iff.mp hrun
  have hreach := System.Reaches.of_runIf hx
  exact ⟨l, x, hreach, h, (lifecycle_exclusive Contract.sampleConfig (fun _ => rfl) (fun _ => rfl) rfl hreach).1⟩

end AutoSql.Zdm
