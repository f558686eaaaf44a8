/-
AutoSql/Zdm/Gates.lean

No destructive step runs ungated.

The sessions of the system are calls of `Complete` for one specification and one target,
each with an approval of its own.  They come at any time, are cut off anywhere, and the
inspector, the clock and the check queries answer differently from one moment to the next.

The statement is about the log.  Right before a step is executed the same session has seen
the gates open and the step's check false (`Gated`); every earlier step's check has been
true after it was executed (`Observed`); and the recorded state is complete only after a
verification that came after all of them (`Verified`).

The proof has one invariant of the shared state (`Recorded`): the log is in order, and the
recorded number of steps is backed by it.  A session that holds the lock of the target is
the only one to write the log and the row, so what it knows about them stays true.
-/
import AutoSql.Zdm.Contract

namespace AutoSql.Zdm.Contract

open List
open Discipline (Returns Meets)

/-- Calls of `Complete` on one target. -/
def completions (cfg : Config) (s : Spec) : System Statement World Approval Env :=
  ⟨exec, close, env, fun a me => (complete me cfg s a).forget⟩

/-! ### Logs -/

/-- The check of step `n` was true after the step. -/
def Observed (l : List Event) (n : Nat) : Prop := ∃ i, Event.checked i n true true ∈ l

/-- What comes right before step `n` is executed in session `i`. -/
structure Gated (s : Spec) (before : List Event) (i n : Nat) : Prop where
  step : n < s.steps.length
  gates : ∃ l e a now, before = l ++ [.inspected i e, .gated i e a now, .checked i n false false] ∧ Open e a s now ∧
    ∀ j < n, Observed l j

/-- The final verification came after all steps. -/
def Verified (s : Spec) (l : List Event) : Prop :=
  ∃ before i after, l = before ++ .verified i :: after ∧ ∀ j < s.steps.length, Observed before j

/-- The steps that were executed. -/
def executed (l : List Event) : List Nat :=
  l.filterMap fun
    | .entered _ (.contract n) _ => some n
    | _ => none

/-- Every step was gated, and the steps were executed in order. -/
structure InOrder (s : Spec) (l : List Event) : Prop where
  gated : ∀ before i n v after, l = before ++ .entered i (.contract n) v :: after → Gated s before i n
  sorted : (executed l).Pairwise (· ≤ ·)

variable {l : List Event} {s : Spec}

theorem Observed.append {n : Nat} (h : Observed l n) (l' : List Event) : Observed (l ++ l') n := by
  obtain ⟨i, hi⟩ := h
  exact ⟨i, mem_append_left _ hi⟩

theorem Verified.append (h : Verified s l) (l' : List Event) : Verified s (l ++ l') := by
  obtain ⟨before, i, after, rfl, hobs⟩ := h
  exact ⟨before, i, after ++ l', by simp, hobs⟩

@[simp] theorem executed_append (l l' : List Event) : executed (l ++ l') = executed l ++ executed l' := filterMap_append

/-- An event that is no execution. -/
theorem InOrder.other (h : InOrder s l) {e : Event} (he : executed [e] = []) : InOrder s (l ++ [e]) := by
  refine ⟨fun before i n v after hl => ?_, by simpa [he] using h.sorted⟩
  rcases eq_nil_or_concat after with rfl | ⟨after', last, rfl⟩
  · obtain ⟨-, hlast⟩ := append_inj' hl rfl
    cases hlast
    cases he
  · rw [concat_eq_append, ← cons_append, ← append_assoc] at hl
    obtain ⟨hl, -⟩ := append_inj' hl rfl
    exact h.gated before i n v after' hl

theorem InOrder.execute (h : InOrder s l) {i n : Nat} (v : GoString) (hg : Gated s l i n)
    (hn : ∀ m ∈ executed l, m ≤ n) : InOrder s (l ++ [.entered i (.contract n) v]) := by
  refine ⟨fun before i' n' v' after hl => ?_, ?_⟩
  · rcases eq_nil_or_concat after with rfl | ⟨after', last, rfl⟩
    · obtain ⟨rfl, hlast⟩ := append_inj' hl rfl
      cases hlast
      exact hg
    · rw [concat_eq_append, ← cons_append, ← append_assoc] at hl
      obtain ⟨hl, -⟩ := append_inj' hl rfl
      exact h.gated before i' n' v' after' hl
  · rw [executed_append, pairwise_append]
    refine ⟨h.sorted, pairwise_singleton _ _, fun m hm n' hn' => ?_⟩
    obtain rfl : n' = n := by simpa [executed] using hn'
    exact hn m hm

/-! ### The invariant -/

/-- The row is backed by the log. -/
def Backed (s : Spec) (l : List Event) : Option ContractRow → Prop
  | none => executed l = []
  | some r => (∀ j < r.completedSteps, Observed l j) ∧ (∀ m ∈ executed l, m ≤ r.completedSteps) ∧ (r.state = .complete → Verified s l)

theorem Backed.other {row : Option ContractRow} (h : Backed s l row) {e : Event} (he : executed [e] = []) :
    Backed s (l ++ [e]) row := by
  cases row with
  | none => simpa [Backed, he] using h
  | some r =>
    obtain ⟨hobs, hle, hver⟩ := h
    exact ⟨fun j hj => (hobs j hj).append _, by simpa [he] using hle, fun hr => (hver hr).append _⟩

/-- The log is in order and the row is backed by it. -/
structure Recorded (s : Spec) (key : Key) (w : World) : Prop where
  inOrder : InOrder s w.log
  backed : Backed s w.log (w.contracts key)

section Discipline

variable (c : Config)

def Holds (i : Nat) (w : World) : Prop := w.locks (domain version c) = some i

/-- While session `i` holds the lock of the target, nobody else writes the log or the row. -/
def Undisturbed (i : Nat) (w w' : World) : Prop :=
  Holds c i w → Holds c i w' ∧ w'.contracts c.key = w.contracts c.key ∧ w'.log = w.log

variable (cfg : Config) (s : Spec)

def discipline : Discipline (completions cfg s) where
  Inv := Recorded s c.key
  Rely := Undisturbed c
  Guar i _ w w' := ∀ j, i ≠ j → Undisturbed c j w w'
  Assumes _ _ _ := True
  AssumesEnv _ _ := True
  refl _ _ h := ⟨h, rfl, rfl⟩
  trans h h' hi := by
    obtain ⟨h₁, h₂, h₃⟩ := h hi
    obtain ⟨h₁', h₂', h₃'⟩ := h' h₁
    exact ⟨h₁', h₂'.trans h₂, h₃'.trans h₃⟩
  others hij _ h := h _ hij
  env {e w w'} hI _ he := by
    cases e with
    | outside o =>
      cases he
      exact ⟨⟨hI.inOrder, hI.backed⟩, fun _ h => ⟨h, rfl, rfl⟩⟩
    | write rel rows =>
      simp only [completions, env] at he
      split_ifs at he
      cases he
      exact ⟨⟨hI.inOrder, hI.backed⟩, fun _ h => ⟨h, rfl, rfl⟩⟩
  close {i w} hI := by
    refine ⟨⟨hI.inOrder, hI.backed⟩, fun j hij hj => ⟨?_, rfl, rfl⟩⟩
    have hne : w.locks (domain version c) ≠ some i := by
      rw [show w.locks _ = some j from hj]
      exact fun h => hij (Option.some.inj h).symm
    show (if _ then none else _) = _
    rw [if_neg hne]
    exact hj

end Discipline

/-! ### What a session that holds the lock does -/

section Session

variable {c cfg : Config} {s : Spec} {i n : Nat} {w w' : World} {a : Approval} {x : Step}

/-- What the holder of the lock does disturbs nobody. -/
theorem Holds.undisturbed (h : Holds c i w) : ∀ j, i ≠ j → Undisturbed c j w w' := by
  intro j hij hj
  exact absurd (Option.some.inj (h.symm.trans hj)) hij

/-- The session holds the lock, and `n` steps are recorded. -/
def Ready (c : Config) (i n : Nat) (w : World) : Prop := Holds c i w ∧ ∃ r, w.contracts c.key = some r ∧ r.completedSteps = n

theorem Ready.rely (h : Ready c i n w) (hR : Undisturbed c i w w') : Ready c i n w' := by
  obtain ⟨hold, hrow, -⟩ := hR h.1
  exact ⟨hold, hrow ▸ h.2⟩

theorem Holds.rely (h : Holds c i w) (hR : Undisturbed c i w w') : Holds c i w' := (hR h).1

/-- Statements that neither complete a step nor the whole. -/
def quiet (key : Key) : Statement → Prop
  | .session => True
  | .leave => True
  | .contract _ .select => True
  | .contract k (.update f) => k = key ∧ ∀ r, (f r).completedSteps = r.completedSteps ∧ (f r).state ≠ .complete
  | _ => False

theorem quiet_keeps {st : Statement} (he : exec i st w = some w') (hq : quiet c.key st) (hI : Recorded s c.key w) :
    Recorded s c.key w' ∧ (Holds c i w → Holds c i w') ∧ (Ready c i n w → Ready c i n w') ∧ w'.log = w.log := by
  cases st with
  | session =>
    cases he
    exact ⟨hI, id, id, rfl⟩
  | leave =>
    cases he
    exact ⟨⟨hI.inOrder, hI.backed⟩, id, id, rfl⟩
  | contract k r =>
    cases he
    cases r with
    | insert r => exact hq.elim
    | select =>
      have hsame : Function.update w.contracts k (RowStmt.exec .select (w.contracts k)) = w.contracts :=
        Function.update_eq_self k w.contracts
      rw [hsame]
      exact ⟨⟨hI.inOrder, hI.backed⟩, id, id, rfl⟩
    | update f =>
      obtain ⟨rfl, hf⟩ := hq
      have hback := hI.backed
      refine ⟨⟨hI.inOrder, ?_⟩, id, ?_, rfl⟩
      · simp only [RowStmt.exec, Function.update_self]
        cases hrow : w.contracts c.key with
        | none => simpa [hrow] using hback
        | some r =>
          rw [hrow] at hback
          refine ⟨?_, ?_, fun hc => absurd hc (hf r).2⟩
          · rw [(hf r).1]
            exact hback.1
          · rw [(hf r).1]
            exact hback.2.1
      · rintro ⟨hold, r, hr, hn⟩
        exact ⟨hold, f r, by simp [RowStmt.exec, hr], (hf r).1.trans hn⟩
  | _ => exact hq.elim

/-- A program of such statements keeps what the session knows. -/
theorem meets_quiet {σ α : Type} {p : Program σ α} (hp : p.Only (quiet c.key)) (h : Ready c i n w) :
    (discipline c cfg s).Meets i p w fun _ => Ready c i n := by
  refine Meets.of_only (fun h hR => h.rely hR) (fun hq hI hK _ he => ?_) hp h
  obtain ⟨hI', -, hR, -⟩ := quiet_keeps he hq hI
  exact ⟨hI', hK.1.undisturbed, hR hK⟩

theorem quiet_interrupt (step : Option GoString) (msg : GoString) : (interrupt c step msg).Only (quiet c.key) :=
  (Prog.Only.attempt ⟨rfl, fun _ => ⟨rfl, nofun⟩⟩).bind fun _ => trivial

/-- A statement of the holder of the lock that appends an event. -/
theorem Recorded.log (hI : Recorded s c.key w) {e : Event} (he : executed [e] = []) (hw' : w'.log = w.log ++ [e])
    (hrow : w'.contracts c.key = w.contracts c.key) : Recorded s c.key w' := by
  refine ⟨?_, ?_⟩
  · rw [hw']
    exact hI.inOrder.other he
  · rw [hw', hrow]
    exact hI.backed.other he

/-- The gates were open just now. -/
def Passed (c : Config) (s : Spec) (a : Approval) (i n : Nat) (w : World) : Prop :=
  Ready c i n w ∧ ∃ l e now, w.log = l ++ [.inspected i e, .gated i e a now] ∧ Open e a s now

theorem Passed.rely (h : Passed c s a i n w) (hR : Undisturbed c i w w') : Passed c s a i n w' := by
  obtain ⟨-, -, hlog⟩ := hR h.1.1
  exact ⟨h.1.rely hR, hlog ▸ h.2⟩

/-- The same for a program that returns no value. -/
theorem meets_quiet_fails {σ α : Type} {p : Program σ α} {P : α → World → Prop} (hp : p.Only (quiet c.key)) (hf : p.Fails)
    (h : Ready c i n w) : (discipline c cfg s).Meets i p w (Returns P) :=
  ((meets_quiet hp h).and_ends hf).mono fun _ _ hr u hu => absurd hu (hr.2 u)

/-- The status is read for the error. -/
theorem meets_status_fails {α : Type} {p : Program Status Unit} {f : Status → Status × Error} {P : α → World → Prop}
    (hp : p.Only (quiet c.key)) (h : Ready c i n w) :
    (discipline c cfg s).Meets i (p >>= fun _ => orZero (statusOf c s) >>= fun st => Prog.fail (f st)) w (Returns P) := by
  refine meets_quiet_fails (hp.bind fun _ => Prog.Only.bind ?_ fun _ => trivial) ?_ h
  · exact only_orZero (only_statusOf trivial (fun _ => trivial) _ _)
  · exact Prog.Fails.bind _ fun _ => Prog.Fails.bind _ fun _ => Prog.Fails.fail _

theorem meets_passGate (h : Ready c i n w) :
    (discipline c cfg s).Meets i (passGate c s a x) w (Returns fun _ => Passed c s a i n) := by
  refine Meets.stmt fun w₁ hI hR _ => ⟨Returns.error, ?_⟩
  have h₁ := h.rely hR
  rintro w₂ ⟨⟩
  refine ⟨hI.log rfl rfl rfl, h₁.1.undisturbed, Returns.error, ?_⟩
  have h₂ : Ready c i n (w₁.record (.inspected i w₁.outside.evidence)) := h₁
  refine Meets.always fun w₃ hI₃ hR₃ _ => ?_
  have h₃ := h₂.rely hR₃
  have hlog := (hR₃ h₂.1).2.2
  rintro w₄ ⟨⟩
  refine ⟨hI₃.log rfl rfl rfl, h₃.1.undisturbed, ?_⟩
  split_ifs with hgate
  · refine meets_status_fails (Prog.Only.attempt ?_) h₃
    exact ⟨rfl, fun _ => ⟨rfl, nofun⟩⟩
  · refine Returns.ok ⟨h₃, w₁.log, w₁.outside.evidence, w₃.outside.clock, ?_, gate_eq_nil.mp (not_not.mp hgate)⟩
    simp [hlog]

/-- The step may be executed. -/
def Cleared (c : Config) (s : Spec) (i n : Nat) (w : World) : Prop := Ready c i n w ∧ Gated s w.log i n

theorem Cleared.rely (h : Cleared c s i n w) (hR : Undisturbed c i w w') : Cleared c s i n w' := by
  obtain ⟨-, -, hlog⟩ := hR h.1.1
  exact ⟨h.1.rely hR, hlog ▸ h.2⟩

/-- The check before the step was false. -/
theorem Passed.cleared (h : Passed c s a i n w) (hI : Recorded s c.key w) (hn : n < s.steps.length) :
    Cleared c s i n (w.record (.checked i n false false)) := by
  obtain ⟨⟨hold, r, hr, rfl⟩, l, e, now, hlog, hopen⟩ := h
  refine ⟨⟨hold, r, hr, rfl⟩, hn, l, e, a, now, by simp [hlog], hopen, fun j hj => ?_⟩
  -- the last events are no observations, so what is observed was so before them
  have hback := hI.backed
  rw [hr] at hback
  obtain ⟨i', hi'⟩ := hback.1 j hj
  rw [hlog] at hi'
  exact ⟨i', by simpa using hi'⟩

/-- Executing a step that is cleared. -/
theorem meets_execute {b : Bool} (h : Ready c i n w) (hb : b = false → Cleared c s i n w) :
    (discipline c cfg s).Meets i (execute c s n x b) w (Returns fun _ => Ready c i n) := by
  unfold execute
  split_ifs with hcomplete
  · exact Returns.ok h
  have hclear := hb (by simpa using hcomplete)
  refine Meets.onError ?_
  refine Meets.always fun w₁ hI hR _ => ?_
  have h₁ := hclear.rely hR
  rintro w₂ ⟨⟩
  have hI₂ : Recorded s c.key (w₁.enter i (.contract n) s.newVersion) := by
    obtain ⟨⟨-, r, hr, rfl⟩, hg⟩ := h₁
    have hback := hI.backed
    rw [hr] at hback
    refine ⟨hI.inOrder.execute _ hg hback.2.1, ?_⟩
    show Backed s (w₁.log ++ [_]) (w₁.contracts c.key)
    rw [hr]
    refine ⟨fun j hj => (hback.1 j hj).append _, fun m hm => ?_, fun hc => (hback.2.2 hc).append _⟩
    rw [executed_append, mem_append] at hm
    rcases hm with hm | hm
    · exact hback.2.1 m hm
    · exact le_of_eq (by simpa [executed] using hm)
  refine ⟨hI₂, h₁.1.1.undisturbed, ?_⟩
  have h₂ : Ready c i n (w₁.enter i (.contract n) s.newVersion) := h₁.1
  have hleave : Prog.Only (quiet c.key) (do
      let _ ← Prog.stmt .leave (default, .caller)
      pure () : Program Status Unit) := (Prog.Only.stmt trivial).bind fun _ => trivial
  refine (meets_quiet hleave h₂).mono fun r w' h' => ?_
  cases r with
  | ok u => exact Returns.ok h'
  | error e => exact meets_status_fails (quiet_interrupt _ _) h'

/-- The check after the step was true. -/
def Done (c : Config) (i n : Nat) (w : World) : Prop := Ready c i n w ∧ Observed w.log n

theorem meets_postcondition (h : Ready c i n w) :
    (discipline c cfg s).Meets i (postcondition c n x) w (Returns fun _ => Done c i n) := by
  -- the handler needs to know that the lock is still held, so the first part is about errors, too
  have hhandler : ∀ e w', Ready c i n w' → (discipline c cfg s).Meets i (do
      interrupt c none (str "contract step postcondition failed")
      Prog.fail e : Program Status Unit) w' (Returns fun _ => Done c i n) := fun e w' h' =>
    meets_quiet_fails ((quiet_interrupt _ _).bind fun _ => trivial) (Prog.Fails.bind _ fun _ => Prog.Fails.fail _) h'
  refine Meets.onError (Meets.stmt fun w₁ hI hR _ => ?_)
  have h₁ := h.rely hR
  refine ⟨hhandler _ w₁ h₁, fun w₂ hw₂ => ?_⟩
  obtain ⟨b, hb, rfl⟩ := Option.map_eq_some_iff.mp hw₂
  have h₂ : Ready c i n (w₁.record (.checked i n true b)) := h₁
  refine ⟨hI.log rfl rfl rfl, h₁.1.undisturbed, hhandler _ _ h₂, ?_⟩
  split_ifs with htrue
  · exact hhandler _ _ h₂
  · obtain rfl : b = true := by simpa [hb] using htrue
    exact Returns.ok ⟨h₂, i, by simp⟩

/-- An update of the row by the holder of the lock. -/
theorem exec_update {f : ContractRow → ContractRow} (he : exec i (update c f) w = some w') :
    w'.locks = w.locks ∧ w'.log = w.log ∧ w'.contracts c.key = (w.contracts c.key).map f := by
  cases he
  exact ⟨rfl, rfl, Function.update_self _ _ _⟩

theorem meets_runStep (h : Ready c i n w) (hn : n < s.steps.length) :
    (discipline c cfg s).Meets i (runStep c s a n x) w (Returns fun _ => Ready c i (n + 1)) := by
  refine Meets.seq (meets_passGate h) fun _ w hpass => ?_
  refine Meets.stmt fun w₁ hI hR _ => ⟨Returns.error, fun w₂ hw₂ => ?_⟩
  have h₁ := hpass.rely hR
  obtain ⟨b, hb, rfl⟩ := Option.map_eq_some_iff.mp hw₂
  refine ⟨hI.log rfl rfl rfl, h₁.1.1.undisturbed, Returns.error, ?_⟩
  have h₂ : Ready c i n (w₁.record (.checked i n false b)) := h₁.1
  have hclear : b = false → Cleared c s i n (w₁.record (.checked i n false b)) := by
    rintro rfl
    exact h₁.cleared hI hn
  refine Meets.stmt fun w₃ hI₃ hR₃ _ => ⟨Returns.error, fun w₄ hw₄ => ?_⟩
  have h₃ := h₂.rely hR₃
  obtain ⟨hI₄, -, h₄, hlog⟩ := quiet_keeps (show exec i (update c _) w₃ = some w₄ from hw₄) ⟨rfl, fun _ => ⟨rfl, nofun⟩⟩ hI₃
  refine ⟨hI₄, h₃.1.undisturbed, Returns.error, ?_⟩
  have hready := h₄ h₃
  refine Meets.seq (meets_execute hready fun hfalse => ⟨hready, ?_⟩) fun _ w h => ?_
  · obtain rfl : b = false := by simpa [hb] using hfalse
    rw [hlog]
    exact ((hclear rfl).rely hR₃).2
  refine Meets.seq (meets_postcondition h) fun _ w hdone => ?_
  refine Meets.stmt fun w₅ hI₅ hR₅ _ => ⟨Returns.error, fun w₆ hw₆ => ?_⟩
  have h₅ := hdone.1.rely hR₅
  have hobs : Observed w₅.log n := (hR₅ hdone.1.1).2.2 ▸ hdone.2
  obtain ⟨hlocks, hlog₆, hrow⟩ := exec_update (i := i) hw₆
  obtain ⟨hold, r, hr, hrn⟩ := h₅
  rw [hr] at hrow
  refine ⟨⟨hlog₆ ▸ hI₅.inOrder, ?_⟩, hold.undisturbed, Returns.error, ?_⟩
  · have hback := hI₅.backed
    rw [hr] at hback
    rw [hrow, hlog₆]
    refine ⟨fun j hj => ?_, fun m hm => ?_, hback.2.2⟩
    · rcases Nat.lt_succ_iff_lt_or_eq.mp hj with hj | rfl
      · exact hback.1 j (hrn ▸ hj)
      · exact hobs
    · exact le_trans (hback.2.1 m hm) (by simp [hrn])
  · exact Returns.ok ⟨(congrFun hlocks _).trans hold, _, hrow, rfl⟩

/-- The loop records one step after the other. -/
theorem meets_runSteps {l : List Step} (h : Ready c i n w) (hl : n + l.length ≤ s.steps.length ∨ l = []) :
    (discipline c cfg s).Meets i (runSteps c s a n l) w (Returns fun _ => Ready c i (n + l.length)) := by
  induction l generalizing n w with
  | nil => exact Returns.ok h
  | cons x l ih =>
    have hlen : n + (l.length + 1) ≤ s.steps.length := by simpa using hl
    refine Meets.seq (meets_runStep h (by omega)) fun _ w h => ?_
    rw [length_cons, show n + (l.length + 1) = n + 1 + l.length by omega]
    exact ih h (.inl (by omega))

theorem meets_finish (h : Ready c i n w) (hn : s.steps.length ≤ n) :
    (discipline c cfg s).Meets i (finish c s) w (Returns fun _ _ => True) := by
  -- before `complete` is recorded all steps are done and verified
  refine Meets.seq (M := fun _ w => Ready c i n w ∧ Verified s w.log) ?_ fun _ w hw => ?_
  · have hhandler : ∀ e w', Ready c i n w' → (discipline c cfg s).Meets i (do
        interrupt c (some (str "final_inspection")) (str "final inspection failed")
        let st ← orZero (statusOf c s)
        Prog.fail ({ st with
          blockers := [str "final canonical inspection does not match the desired schema"]
          recoveryActions := [str "repair the reported final drift", str "retry completion with the identical approved plan"] }, e) :
          Program Status Unit) w' (Returns fun _ w => Ready c i n w ∧ Verified s w.log) := fun e w' h' =>
      meets_status_fails (quiet_interrupt _ _) h'
    refine Meets.onError (Meets.stmt fun w₁ hI hR _ => ?_)
    have h₁ := h.rely hR
    refine ⟨hhandler _ w₁ h₁, ?_⟩
    rintro w₂ ⟨⟩
    refine ⟨hI.log rfl rfl rfl, h₁.1.undisturbed, hhandler _ _ h₁, Returns.ok ⟨h₁, w₁.log, i, [], rfl, fun j hj => ?_⟩⟩
    obtain ⟨-, r, hr, rfl⟩ := h₁
    have hback := hI.backed
    rw [hr] at hback
    exact hback.1 j (lt_of_lt_of_le hj hn)
  · refine Meets.stmt fun w₁ hI hR _ => ⟨Returns.error, fun w₂ hw₂ => ?_⟩
    have h₁ := hw.1.rely hR
    have hver : Verified s w₁.log := (hR hw.1.1).2.2 ▸ hw.2
    obtain ⟨hlocks, hlog, hrow⟩ := exec_update (i := i) hw₂
    obtain ⟨hold, r, hr, hrn⟩ := h₁
    have hback := hI.backed
    rw [hr] at hback hrow
    refine ⟨⟨hlog ▸ hI.inOrder, ?_⟩, hold.undisturbed, Returns.error, ?_⟩
    · rw [hrow, hlog]
      exact ⟨hback.1, hback.2.1, fun _ => hver⟩
    · have h₂ : Ready c i n w₂ := ⟨(congrFun hlocks _).trans hold, _, hrow, hrn⟩
      exact (meets_quiet (only_statusOf trivial (fun _ => trivial) _ _) h₂).mono fun _ _ _ _ _ => trivial

/-- Taking the lock of the target. -/
theorem tryLock_keeps (he : exec i (.tryLock (domain version c)) w = some w') (hI : Recorded s c.key w) :
    Recorded s c.key w' ∧ ∀ j, i ≠ j → Undisturbed c j w w' := by
  cases he
  unfold World.takeLock
  split_ifs with hfree
  · refine ⟨hI.log rfl rfl rfl, fun j hij hj => ?_⟩
    rw [show w.locks (domain version c) = some j from hj] at hfree
    simp [Ne.symm hij] at hfree
  · exact ⟨hI, fun j _ hj => ⟨hj, rfl, rfl⟩⟩

/-- Initializing the control schema. -/
theorem initializes_keeps {st : Statement} (he : exec i st w = some w') (hst : initializes (initDomain version c) st)
    (hI : Recorded s c.key w) (h : Holds c i w) : Recorded s c.key w' ∧ Holds c i w' := by
  have hne := initDomain_ne_domain version c
  cases st with
  | lock key =>
    obtain rfl : key = _ := hst
    simp only [exec] at he
    split_ifs at he with hfree
    cases he
    rw [World.takeLock, if_pos hfree]
    refine ⟨hI.log rfl rfl rfl, ?_⟩
    show Function.update _ _ _ _ = _
    rw [Function.update_of_ne hne.symm]
    exact h
  | unlock key =>
    obtain rfl : key = _ := hst
    cases he
    unfold World.releaseLock
    split_ifs
    · refine ⟨⟨hI.inOrder, hI.backed⟩, ?_⟩
      show Function.update _ _ _ _ = _
      rw [Function.update_of_ne hne.symm]
      exact h
    · exact ⟨hI, h⟩
  | catalog f =>
    cases he
    exact ⟨⟨hI.inOrder, hI.backed⟩, h⟩
  | _ => exact hst.elim

/-- The row of a new completion. -/
theorem contractInsert_keeps {r : ContractRow} {v : GoString} (he : exec i (.contractInsert c.key r v) w = some w')
    (hr : r.completedSteps = 0 ∧ r.state ≠ .complete) (hI : Recorded s c.key w) (h : Holds c i w) :
    Recorded s c.key w' ∧ ∃ n, Ready c i n w' := by
  simp only [exec] at he
  cases hrow : w.contracts c.key with
  | some r' =>
    rw [hrow] at he
    cases he
    exact ⟨hI, _, h, r', hrow, rfl⟩
  | none =>
    rw [hrow] at he
    cases he
    have hback := hI.backed
    rw [hrow] at hback
    have hrow' : Function.update w.contracts c.key (some r) c.key = some r := Function.update_self _ _ _
    refine ⟨⟨hI.inOrder.other rfl, ?_⟩, _, h, r, hrow', rfl⟩
    show Backed s (w.log ++ [_]) (Function.update w.contracts c.key (some r) c.key)
    rw [hrow']
    have hnone : executed (w.log ++ [.contractStarted v]) = [] := by
      rw [executed_append, show executed w.log = [] from hback]
      rfl
    refine ⟨fun j hj => ?_, fun m hm => ?_, fun hc => absurd hc hr.2⟩
    · rw [hr.1] at hj
      cases hj
    · rw [hnone] at hm
      cases hm

/-- Every call of `Complete` does its part. -/
theorem meets_complete (cfg : Config) (s : Spec) (a : Approval) (i : Nat) (w : World) :
    (discipline (cfg.withSchema defaultSchema) cfg s).Meets i (complete i cfg s a) w (Returns fun _ _ => True) := by
  refine meets_checked fun c hc => meets_checked fun _ _ => ?_
  obtain rfl := defaults_ok hc
  refine Meets.stmt fun w₁ hI _ _ => ⟨Returns.error, ?_⟩
  rintro w₂ ⟨⟩
  refine ⟨hI, fun _ _ h => ⟨h, rfl, rfl⟩, Returns.error, ?_⟩
  refine Meets.seq (M := fun _ => Holds (cfg.withSchema defaultSchema) i) ?_ fun _ w hw => ?_
  · refine meets_acquire (only_ensure (fun _ => trivial) _ _ _ _) (fun hI _ _ he => ?_) (fun h hR => h.rely hR) fun hst hI h he => ?_
    · obtain ⟨hI', hG⟩ := tryLock_keeps he hI
      exact ⟨hI', hG, id⟩
    · obtain ⟨hI', h'⟩ := initializes_keeps he hst hI h
      exact ⟨hI', h.undisturbed, h'⟩
  refine Meets.stmt fun w₃ hI₃ hR₃ _ => ⟨Returns.error, fun w₄ hw₄ => ?_⟩
  have h₃ := hw.rely hR₃
  obtain ⟨hI₄, n, h₄⟩ := contractInsert_keeps hw₄ ⟨rfl, nofun⟩ hI₃ h₃
  refine ⟨hI₄, h₃.undisturbed, Returns.error, ?_⟩
  refine Meets.stmt fun w₅ hI₅ hR₅ _ => ⟨Returns.error, fun w₆ hw₆ => ?_⟩
  have h₅ := h₄.rely hR₅
  obtain ⟨hI₆, -, h₆, -⟩ := quiet_keeps
    (show exec i (.contract _ .select) w₅ = some w₆ from hw₆) trivial hI₅
  have hready := h₆ h₅
  refine ⟨hI₆, h₅.1.undisturbed, Returns.error, ?_⟩
  obtain ⟨hold, r, hr, rfl⟩ := hready
  simp only [hr]
  split_ifs
  · exact Returns.error
  · exact (meets_quiet (only_statusOf trivial (fun _ => trivial) _ _) ⟨hold, r, hr, rfl⟩).mono fun _ _ _ _ _ => trivial
  · refine Meets.seq (meets_runSteps ⟨hold, r, hr, rfl⟩ ?_) fun _ w h => meets_finish h ?_
    · rw [length_drop, drop_eq_nil_iff]
      omega
    · rw [length_drop]
      omega

end Session

/-- **Destructive steps never run ungated.**  However calls of `Complete` for one specification follow
each other and wherever they are cut off: each execution of a step comes right after open gates and a
false check in the same call, and after all earlier steps were observed; the steps are executed in
order; and the state is complete only after a verification that came after all steps. -/
theorem steps_gated (cfg : Config) (s : Spec) {w : World} (hlog : w.log = [])
    (hrow : w.contracts (cfg.withSchema defaultSchema).key = none) {l : List (Act Approval Env)} {x : Conf Statement World}
    (h : (completions cfg s).Reaches (fun _ _ => True) (System.initial w) l x) :
    (∀ before i n v after, x.state.log = before ++ .entered i (.contract n) v :: after → Gated s before i n) ∧
      (executed x.state.log).Pairwise (· ≤ ·) ∧
      ∀ r, x.state.contracts (cfg.withSchema defaultSchema).key = some r → r.state = .complete → Verified s x.state.log := by
  have hinit : Recorded s (cfg.withSchema defaultSchema).key w := by
    refine ⟨?_, ?_⟩
    · rw [hlog]
      exact ⟨fun before i n v after hl => by simp at hl, List.Pairwise.nil⟩
    · rw [hlog, hrow]
      rfl
  have hgood : (discipline (cfg.withSchema defaultSchema) cfg s).Good x := by
    refine Discipline.reaches (fun a i w _ => ?_) hinit (h.mono fun x a _ => ?_)
    · exact Meets.forget ((meets_complete cfg s a i w).mono fun _ _ _ => trivial)
    · exact Discipline.allows_of_assumes (fun _ _ _ => trivial) (fun _ _ => trivial) x a
  obtain ⟨hord, hback⟩ := hgood.inv
  refine ⟨hord.gated, hord.sorted, fun r hr hc => ?_⟩
  rw [hr] at hback
  exact hback.2.2 hc

/-! A call that is cut off while its only step is executed, and one that completes. -/

def sampleConfig : Config := ⟨str "postgres://", [], str "primary", str "test", 500⟩

def sampleSpec : Spec :=
  new (str "release_two") (List.replicate 64 0x61) (str "v1") (str "v2")
    [⟨str "drop_old", str "drop the old column", str "alter table t drop column a", str "retry", str "select done", true⟩]

def sampleOutside (done : Bool) : Outside :=
  ⟨⟨0, true, true, true, []⟩, ⟨true, true, false, false, true, []⟩, 5, fun _ => some done, fun _ => none, fun _ _ => none⟩

def sampleRun : List (Act Approval Env) :=
  let approval : Approval := ⟨sampleSpec.digest, str "ada", str "approved", 1, 10⟩
  [Act.openSession 0 approval] ++ List.replicate 17 (Act.call 0 .done) ++ [Act.close 0, Act.openSession 1 approval] ++
    List.replicate 13 (Act.call 1 .done) ++ [Act.env (Env.outside (sampleOutside true))] ++ List.replicate 7 (Act.call 1 .done)

theorem steps_gated_sample : ∃ x, (completions sampleConfig sampleSpec).Reaches (fun _ _ => True)
      (System.initial (World.fresh (sampleOutside false) fun _ => id)) sampleRun x ∧ executed x.state.log = [0, 0] ∧
    (executed x.state.log).Pairwise (· ≤ ·) ∧
    ∀ r, x.state.contracts (sampleConfig.withSchema defaultSchema).key = some r → r.state = .complete → Verified sampleSpec x.state.log := by
  have hrun : ((completions sampleConfig sampleSpec).run (System.initial (World.fresh (sampleOutside false) fun _ => id)) sampleRun).map
      (fun x => executed x.state.log) = some [0, 0] := by decide +kernel
  obtain ⟨x, hx, hex⟩ := Option.map_eq_some_iff.mp hrun
  have hreach := System.Reaches.of_run hx
  exact ⟨x, hreach, hex, (steps_gated sampleConfig sampleSpec rfl rfl hreach).2⟩

end AutoSql.Zdm.Contract
