/-
AutoSql/Zdm/EndStates.lean

The end states of a backfill job.

A batch works in one transaction that locks the row of the job, and `Control` leaves a
job alone that is complete or cancelled.  But the failure of a batch is recorded by an
update of its own, after the transaction has ended and without a look at the state:
`cancelled_job_runs` is a run in which a job is cancelled in between, becomes failed, is
resumed, and goes on to write rows.

`end_states_absorbing` is about all runs in which no failure is recorded for a job that
is complete or cancelled.  The invariant is `Guarded`: rows that a transaction has
written belong to a transaction that has locked the job, and the job was running.
-/
import AutoSql.Zdm.Backfill

namespace AutoSql.Zdm.Backfill

open List Function
open Option (some map_some map_eq_some_iff)

/-! ### The system -/

/-- A call on a job. -/
inductive JobCall
  | runBatch (faults : Faults)
  | control (action : GoString)
  | statusOf

def JobCall.program (c : Config) (s : BackfillSpec) : JobCall → Nat → Prog Statement World Unit Unit
  | .runBatch faults, me => (Backfill.runBatch me c s faults).forget
  | .control action, me => (Backfill.control me c s action).forget
  | .statusOf, _ => (Backfill.statusOf c s).forget

/-- Calls on one job. -/
def onJob (c : Config) (s : BackfillSpec) : System Statement World JobCall Env := ⟨exec, close, env, JobCall.program c s⟩

/-- The state of the job that is committed. -/
def durable (key : Key) (w : World) : Option JobState := (w.jobs key).map (·.committed.state)

/-- The rows that are committed. -/
def committedRows (w : World) (rel : Relation) : List Cells := (w.tables rel).map (·.cells.committed)

/-- A step leaves a job in an end state as it is, and writes no rows. -/
def Absorbs (key : Key) (w w' : World) : Prop :=
  ∀ st, durable key w = some st → st.terminal = true → durable key w' = some st ∧ ∀ rel, committedRows w' rel = committedRows w rel

/-! ### The invariant -/

/-- Rows that a transaction has written belong to one that has locked the job, which was running; and the new
state of a locked job is its old one, or complete after running. -/
structure Guarded (key : Key) (w : World) : Prop where
  rows : ∀ rel r i x, r ∈ w.tables rel → r.cells.newer = some (i, x) →
    ∃ v j, w.jobs key = some v ∧ v.newer = some (i, j) ∧ v.committed.state = .running
  job : ∀ v i j, w.jobs key = some v → v.newer = some (i, j) →
    j.state = v.committed.state ∨ v.committed.state = .running ∧ j.state = .complete

/-- A job that session `i` has locked stays. -/
def KeepsLocked (key : Key) (i : Nat) (w w' : World) : Prop :=
  ∀ v j, w.jobs key = some v → v.newer = some (i, j) → w'.jobs key = some v

/-- What a statement of session `i` does. -/
structure Safe (key : Key) (i : Nat) (w w' : World) : Prop where
  guarded : Guarded key w'
  others : ∀ j, i ≠ j → KeepsLocked key j w w'
  absorbs : Absorbs key w w'

/-- Session `i` has locked the job, which was running. -/
def Working (key : Key) (i : Nat) (w : World) : Prop := ∃ v j, w.jobs key = some v ∧ v.newer = some (i, j) ∧ v.committed.state = .running

section Statements

variable {key : Key} {i : Nat} {w w' : World} {α : Type}

/-- A statement that touches neither jobs nor rows. -/
theorem Guarded.frame (h : Guarded key w) (hjobs : w'.jobs = w.jobs) (htables : w'.tables = w.tables) : Safe key i w w' := by
  refine ⟨⟨?_, ?_⟩, fun j _ v x hv hx => hjobs ▸ hv, fun st hst _ => ⟨?_, fun rel => ?_⟩⟩
  · rw [hjobs, htables]
    exact h.rows
  · rw [hjobs]
    exact h.job
  · rw [durable, hjobs]
    exact hst
  · rw [committedRows, htables]
    rfl

/-- While nobody has locked the job, no row is written. -/
theorem Guarded.free (h : Guarded key w) (hfree : ∀ v, w.jobs key = some v → v.newer = none) {rel : Relation} {r : Row}
    (hr : r ∈ w.tables rel) : r.cells.newer = none := by
  by_contra hne
  obtain ⟨⟨i, x⟩, hx⟩ := Option.ne_none_iff_exists'.mp hne
  obtain ⟨v, j, hv, hj, -⟩ := h.rows rel r i x hr hx
  rw [hfree v hv] at hj
  cases hj

/-- A change of a job that is not locked. -/
theorem Guarded.replace {v : Versioned Job} (h : Guarded key w) (hfree : ∀ v, w.jobs key = some v → v.newer = none)
    (hjobs : w'.jobs key = some v) (htables : w'.tables = w.tables) (hnewer : ∀ x, v.newer = some x → x.2.state = v.committed.state)
    (hstate : ∀ st, durable key w = some st → st.terminal = true → v.committed.state = st) : Safe key i w w' := by
  refine ⟨⟨fun rel r k x hr hx => ?_, fun v' k j hv' hj => ?_⟩, fun j _ v' x hv' hx => ?_, fun st hst hterm => ⟨?_, fun rel => ?_⟩⟩
  · rw [h.free hfree (htables ▸ hr)] at hx
    cases hx
  · obtain rfl := some.inj (hjobs.symm.trans hv')
    exact .inl (hnewer _ hj)
  · rw [hfree v' hv'] at hx
    cases hx
  · rw [durable, hjobs, map_some, hstate st hst hterm]
  · rw [committedRows, htables]
    rfl

/-- An update of a job outside of a transaction. -/
theorem Guarded.updateJob (h : Guarded key w) {f : Job → Job} (hf : ∀ v, w.jobs key = some v → v.committed.state.terminal = true →
      (f v.committed).state = v.committed.state) (he : w.updateJob i key f = some w') : Safe key i w w' := by
  unfold World.updateJob at he
  cases hv : w.jobs key with
  | none =>
    rw [hv] at he
    cases he
    exact h.frame rfl rfl
  | some v =>
    rw [hv] at he
    dsimp only at he
    split_ifs at he with hlocked
    cases he
    have hnone : v.newer = none := by
      simpa using (not_or.mp hlocked).1
    refine h.replace (fun v' hv' => ?_) (update_self _ _ _) rfl nofun fun st hst hterm => ?_
    · obtain rfl := some.inj (hv.symm.trans hv')
      exact hnone
    · rw [durable, hv, map_some, some.injEq] at hst
      rw [hf v hv (hst ▸ hterm), hst]

/-- The end of a transaction of session `i`: its own version is committed or dropped, others stay. -/
structure Ends {α : Type} (i : Nat) (v v' : Versioned α) : Prop where
  own : ∀ x, v.newer = some (i, x) → v'.newer = none ∧ (v'.committed = v.committed ∨ v'.committed = x)
  other : (∀ x, v.newer ≠ some (i, x)) → v' = v

theorem ends_commit (i : Nat) (v : Versioned α) : Ends i v (v.commit i) := by
  obtain ⟨a, newer⟩ := v
  refine ⟨?_, fun h => ?_⟩
  · rintro x rfl
    simp [Versioned.commit]
  · cases newer with
    | none => rfl
    | some p => exact if_neg fun hp => h p.2 (by rw [← hp])

theorem ends_rollback (i : Nat) (v : Versioned α) : Ends i v (v.rollback i) := by
  obtain ⟨a, newer⟩ := v
  refine ⟨?_, fun h => ?_⟩
  · rintro x rfl
    simp [Versioned.rollback]
  · cases newer with
    | none => rfl
    | some p => exact if_neg fun hp => h p.2 (by rw [← hp])

/-- What is still written belongs to another session, and is as it was. -/
theorem Ends.of_newer {v v' : Versioned α} (h : Ends i v v') {k : Nat} {x : α} (hx : v'.newer = some (k, x)) : i ≠ k ∧ v' = v := by
  by_cases hown : ∃ y, v.newer = some (i, y)
  · obtain ⟨y, hy⟩ := hown
    rw [(h.own y hy).1] at hx
    cases hx
  · have hsame := h.other fun y hy => hown ⟨y, hy⟩
    refine ⟨?_, hsame⟩
    rintro rfl
    exact hown ⟨x, hsame ▸ hx⟩

theorem Ends.of_other {v v' : Versioned α} (h : Ends i v v') {k : Nat} {x : α} (hx : v.newer = some (k, x)) (hk : i ≠ k) : v' = v := by
  refine h.other fun y hy => hk ?_
  rw [hx] at hy
  exact (Prod.mk.inj (some.inj hy)).1.symm

/-- The end of a transaction. -/
theorem Guarded.ends (h : Guarded key w) {f : Versioned Job → Versioned Job} {g : Versioned Cells → Versioned Cells}
    (hf : ∀ v, Ends i v (f v)) (hg : ∀ v, Ends i v (g v)) (hjobs : w'.jobs key = (w.jobs key).map f)
    (htables : ∀ rel, w'.tables rel = (w.tables rel).map fun r => { r with cells := g r.cells }) : Safe key i w w' := by
  refine ⟨⟨fun rel r' k x hr' hx => ?_, fun v' k j hv' hj => ?_⟩, fun k hk v x hv hx => ?_, fun st hst hterm => ⟨?_, fun rel => ?_⟩⟩
  · -- a row that is still written belongs to another session, and so does the job
    rw [htables] at hr'
    obtain ⟨r, hr, rfl⟩ := mem_map.mp hr'
    obtain ⟨hk, hsame⟩ := (hg r.cells).of_newer hx
    obtain ⟨v, j, hv, hj, hrun⟩ := h.rows rel r k x hr (hsame ▸ hx)
    exact ⟨v, j, by rw [hjobs, hv, map_some, (hf v).of_other hj hk], hj, hrun⟩
  · rw [hjobs] at hv'
    obtain ⟨v, hv, rfl⟩ := map_eq_some_iff.mp hv'
    obtain ⟨-, hsame⟩ := (hf v).of_newer hj
    rw [hsame] at hj ⊢
    exact h.job v k j hv hj
  · rw [hjobs, hv, map_some, (hf v).of_other hx hk]
  · obtain ⟨v, hv, rfl⟩ := map_eq_some_iff.mp hst
    have hrun : v.committed.state ≠ .running := fun hrun => by simp [hrun, JobState.terminal] at hterm
    rw [durable, hjobs, hv, map_some, map_some]
    -- a transaction that has locked a job in an end state has not changed its state
    by_cases hown : ∃ j, v.newer = some (i, j)
    · obtain ⟨j, hj⟩ := hown
      rcases ((hf v).own j hj).2 with hc | hc
      · rw [hc]
      · rw [hc]
        exact congrArg some ((h.job v i j hv hj).resolve_right fun hx => hrun hx.1)
    · rw [(hf v).other fun j hj => hown ⟨j, hj⟩]
  · obtain ⟨v, hv, rfl⟩ := map_eq_some_iff.mp hst
    rw [committedRows, htables, map_map]
    refine map_congr_left fun r hr => ?_
    -- its rows would be those of a running job
    refine congrArg Versioned.committed ((hg r.cells).other fun x hx => ?_)
    obtain ⟨v', j, hv', -, hrun⟩ := h.rows rel r i x hr hx
    rw [hv] at hv'
    cases hv'
    simp [hrun, JobState.terminal] at hterm

theorem Guarded.close (h : Guarded key w) : Safe key i w (close i w) :=
  h.ends (ends_rollback i) (ends_rollback i) rfl fun _ => rfl

/-- An update of a job in a transaction: there is no job, or the transaction gets its own version of it. -/
theorem exec_jobUpdate {f : Job → Job} (he : exec i (.jobUpdate key f) w = some w') : w.jobs key = none ∧ w' = w ∨
    ∃ v, w.jobs key = some v ∧ (∀ k x, v.newer = some (k, x) → k = i) ∧ w.inTx i = true ∧
      w' = { w with jobs := update w.jobs key (some (v.write i (f (v.view i)))) } := by
  simp only [exec] at he
  cases hv : w.jobs key with
  | none =>
    rw [hv] at he
    exact .inl ⟨rfl, (some.inj he).symm⟩
  | some v =>
    rw [hv] at he
    dsimp only at he
    split_ifs at he with hfree
    obtain ⟨hlock, htx⟩ := not_or.mp hfree
    refine .inr ⟨v, rfl, fun k x hx => ?_, by simpa using htx, (some.inj he).symm⟩
    simpa [Versioned.lockedFor, hx] using hlock

/-- The row of the job is locked, which is an update that changes nothing. -/
theorem Guarded.jobLock (h : Guarded key w) (he : exec i (.jobLock key) w = some w') : Safe key i w w' := by
  obtain ⟨-, rfl⟩ | ⟨v, hv, hown, -, rfl⟩ := exec_jobUpdate (f := id) he
  · exact h.frame rfl rfl
  · obtain ⟨a, newer⟩ := v
    cases newer with
    | none =>
      refine h.replace (fun v' hv' => ?_) (update_self _ _ _) rfl ?_ fun st hst _ => ?_
      · obtain rfl := some.inj (hv.symm.trans hv')
        rfl
      · rintro _ ⟨⟩
        rfl
      · rw [durable, hv] at hst
        exact some.inj hst
    | some p =>
      obtain rfl := hown p.1 p.2 rfl
      refine h.frame (funext fun k => ?_) rfl
      by_cases hk : k = key
      · subst hk
        simp [hv, Versioned.write, Versioned.view]
      · exact update_of_ne hk _ _

/-- Statements that need nothing to be known. -/
def plain (key : Key) : Statement → Prop
  | .session | .tryLock _ | .catalog _ | .live _ | .jobRead _ | .beginTx | .commitTx _ | .rollbackTx | .jobStatus _ _ | .disconnect _ => True
  | .jobInsert k _ | .jobLock k | .jobRetry k | .jobFail k _ | .jobControl k _ => k = key
  | _ => False

/-- No failure is recorded for a job in an end state. -/
def Spares (key : Key) (st : Statement) (w : World) : Prop :=
  match st with
  | .jobFail k _ => k = key → ∀ state ∈ durable key w, state.terminal = false
  | _ => True

instance (key : Key) (st : Statement) (w : World) : Decidable (Spares key st w) := by
  unfold Spares
  split <;> infer_instance

/-- The advisory locks are apart from the rest. -/
theorem takeLock_eq (w : World) (i : Nat) (k : GoString) : ∃ locks log, w.takeLock i k = { w with locks := locks, log := log } := by
  unfold World.takeLock
  split_ifs <;> exact ⟨_, _, rfl⟩

theorem releaseLock_eq (w : World) (i : Nat) (k : GoString) : ∃ locks, w.releaseLock i k = { w with locks := locks } := by
  unfold World.releaseLock
  split_ifs <;> exact ⟨_, rfl⟩

theorem plain_exec {st : Statement} (hst : plain key st) (h : Guarded key w) (ha : Spares key st w) (he : exec i st w = some w') :
    Safe key i w w' := by
  cases st with
  | session | catalog | jobStatus =>
    cases he
    exact h.frame rfl rfl
  | tryLock k =>
    cases he
    obtain ⟨locks, log, hw⟩ := takeLock_eq w i k
    rw [hw]
    exact h.frame rfl rfl
  | live | jobRead | beginTx =>
    simp only [exec] at he
    split_ifs at he
    cases he
    exact h.frame rfl rfl
  | jobInsert k j =>
    obtain rfl := hst
    simp only [exec] at he
    split_ifs at he
    cases hv : w.jobs k with
    | some v =>
      rw [hv] at he
      cases he
      exact h.frame rfl rfl
    | none =>
      rw [hv] at he
      cases he
      refine h.replace (fun v hv' => ?_) (update_self _ _ _) rfl nofun fun st hst _ => ?_
      · rw [hv] at hv'
        cases hv'
      · simp [durable, hv] at hst
  | jobLock k =>
    obtain rfl := hst
    exact h.jobLock he
  | commitTx k =>
    simp only [exec] at he
    split_ifs at he
    cases he
    exact h.ends (ends_commit i) (ends_commit i) rfl fun _ => rfl
  | rollbackTx =>
    cases he
    exact h.ends (ends_rollback i) (ends_rollback i) rfl fun _ => rfl
  | jobRetry k =>
    obtain rfl := hst
    simp only [exec] at he
    exact h.updateJob (by exact fun _ _ _ => rfl) he
  | jobFail k msg =>
    obtain rfl := hst
    simp only [exec] at he
    refine h.updateJob (fun v hv hterm => ?_) he
    rw [ha rfl v.committed.state (by simp [durable, hv])] at hterm
    cases hterm
  | jobControl k st =>
    obtain rfl := hst
    obtain ⟨w₁, hw₁, rfl⟩ := map_eq_some_iff.mp he
    have hsafe := h.updateJob (fun v _ hterm => by simp [hterm]) hw₁
    exact { hsafe with guarded := { hsafe.guarded with } }
  | disconnect k =>
    cases he
    obtain ⟨locks, hw⟩ := releaseLock_eq (w.rollbackTx i) i k
    rw [hw]
    exact h.ends (ends_rollback i) (ends_rollback i) rfl fun _ => rfl
  | _ => exact hst.elim

/-- Statements of a transaction that has locked a running job. -/
def works (key : Key) : Statement → Prop
  | .countPending _ | .fillBatch _ _ | .existsPending _ _ => True
  | .jobUpdate k f => k = key ∧ ∀ j, (f j).state = j.state ∨ (f j).state = .complete
  | _ => False

/-- A running job is in no end state. -/
theorem Working.absorbs (h : Working key i w) : Absorbs key w w' := by
  obtain ⟨v, j, hv, -, hrun⟩ := h
  intro st hst hterm
  rw [durable, hv, map_some, some.injEq, hrun] at hst
  subst hst
  cases hterm

theorem Working.rely (h : Working key i w) (hR : KeepsLocked key i w w') : Working key i w' := by
  obtain ⟨v, j, hv, hj, hrun⟩ := h
  exact ⟨v, j, hR v j hv hj, hj, hrun⟩

theorem Working.jobUpdate (hw : Working key i w) (h : Guarded key w) {f : Job → Job} (hf : ∀ j, (f j).state = j.state ∨ (f j).state = .complete)
    (he : exec i (.jobUpdate key f) w = some w') : Safe key i w w' ∧ Working key i w' := by
  obtain ⟨v, j, hv, hj, hrun⟩ := id hw
  have hview : v.view i = j := by
    simp [Versioned.view, hj]
  simp only [exec, hv] at he
  split_ifs at he
  cases he
  have hjobs : update w.jobs key (some (v.write i (f (v.view i)))) key = some (v.write i (f j)) := by
    rw [update_self, hview]
  refine ⟨⟨⟨fun rel r k x hr hx => ?_, fun v' k j' hv' hj' => ?_⟩, fun k hk v' x hv' hx => ?_, hw.absorbs⟩, ⟨_, f j, hjobs, rfl, hrun⟩⟩
  · obtain ⟨v', j', hv', hj', -⟩ := h.rows rel r k x hr hx
    rw [hv] at hv'
    cases hv'
    rw [hj] at hj'
    cases hj'
    exact ⟨_, f j, hjobs, rfl, hrun⟩
  · obtain rfl := some.inj (hjobs.symm.trans hv')
    cases hj'
    rcases hf j with hsame | hcomplete
    · rw [hsame]
      exact h.job v i j hv hj
    · exact .inr ⟨hrun, hcomplete⟩
  · rw [hv] at hv'
    cases hv'
    rw [hj] at hx
    cases hx
    exact absurd rfl hk

theorem Working.fillBatch (hw : Working key i w) (h : Guarded key w) {s : BackfillSpec} {size : Nat}
    (he : exec i (.fillBatch s size) w = some w') : Safe key i w w' ∧ Working key i w' := by
  simp only [exec] at he
  split_ifs at he
  obtain ⟨rows, hrows, rfl⟩ := map_eq_some_iff.mp he
  refine ⟨⟨⟨fun rel r k x hr hx => ?_, h.job⟩, fun _ _ _ _ hv _ => hv, hw.absorbs⟩, hw⟩
  by_cases hrel : rel = s.relation
  · subst hrel
    simp only [update_self] at hr
    -- the row is one that was there, or it is filled in this transaction
    obtain ⟨r₀, hr₀, hsame | ⟨-, -, c, -, rfl⟩⟩ := Fallible.forall₂_mem (fillRows_rows hrows).flip r hr
    · rw [hsame] at hx
      exact h.rows s.relation r₀ k x hr₀ hx
    · cases hx
      exact hw
  · simp only [update_of_ne hrel] at hr
    exact h.rows rel r k x hr hx

theorem works_exec {st : Statement} (hst : works key st) (h : Guarded key w) (hw : Working key i w) (he : exec i st w = some w') :
    Safe key i w w' ∧ Working key i w' := by
  cases st with
  | countPending | existsPending =>
    simp only [exec] at he
    split_ifs at he
    cases he
    exact ⟨h.frame rfl rfl, hw⟩
  | jobUpdate k f =>
    obtain ⟨rfl, hf⟩ := hst
    exact hw.jobUpdate h hf he
  | fillBatch s size => exact hw.fillBatch h he
  | _ => exact hst.elim

end Statements

/-! ### The discipline -/

/-- What the application does. -/
theorem Guarded.env {key : Key} {w w' : World} {e : Env} (h : Guarded key w) (he : Zdm.env e w = some w') :
    Guarded key w' ∧ w'.jobs = w.jobs := by
  cases e with
  | outside o =>
    cases he
    exact ⟨⟨h.rows, h.job⟩, rfl⟩
  | write rel rows =>
    simp only [Zdm.env] at he
    split_ifs at he with hheld
    cases he
    refine ⟨⟨fun rel' r i x hr hx => ?_, h.job⟩, rfl⟩
    by_cases hrel : rel' = rel
    · subst hrel
      simp only [update_self] at hr
      have hmem : r ∈ (w.tables rel').filter Row.held := hheld ▸ mem_filter.mpr ⟨hr, by simp [Row.held, hx]⟩
      exact h.rows rel' r i x (mem_filter.mp hmem).1 hx
    · simp only [update_of_ne hrel] at hr
      exact h.rows rel' r i x hr hx

/-- The key of the job in calls with configuration `c`. -/
def keyOf (c : Config) (s : BackfillSpec) : Key := jobKey c.withSchema s

def jobDiscipline (c : Config) (s : BackfillSpec) : Discipline (onJob c s) where
  Inv := Guarded (keyOf c s)
  Rely := KeepsLocked (keyOf c s)
  Guar i _ w w' := (∀ j, i ≠ j → KeepsLocked (keyOf c s) j w w') ∧ Absorbs (keyOf c s) w w'
  Assumes _ st w := Spares (keyOf c s) st w
  AssumesEnv _ _ := True
  refl _ _ _ _ hv _ := hv
  trans h h' v j hv hj := h' v j (h v j hv hj) hj
  others hij _ hG := hG.1 _ hij
  env hI _ he := ⟨(hI.env he).1, fun _ _ _ hv _ => (hI.env he).2 ▸ hv⟩
  close hI := ⟨hI.close.guarded, hI.close.others⟩

section Meets

variable {c c' : Config} {s : BackfillSpec} {i : Nat} {w : World} {σ α β : Type} {p : Program σ α}

/-- Session `i` keeps to the discipline while it runs `p` from `w` on. -/
abbrev Obeys (c : Config) (s : BackfillSpec) (i : Nat) (p : Program σ α) (w : World) : Prop := (jobDiscipline c s).Meets i p w fun _ _ => True

theorem meets_plain (hp : p.Only (plain (keyOf c s))) : Obeys c s i p w := by
  refine Discipline.Meets.of_only (K := fun _ => True) (fun _ _ => trivial) (fun hst hI _ hA he => ?_) hp trivial
  have hsafe := plain_exec hst hI hA he
  exact ⟨hsafe.guarded, ⟨hsafe.others, hsafe.absorbs⟩, trivial⟩

/-- A statement that needs nothing to be known, and what follows it. -/
theorem meets_sql [Inhabited σ] {st : Statement} {f : World → Program σ β} (hst : plain (keyOf c s) st)
    (hf : ∀ w, Obeys c s i (f w) w) : Obeys c s i (sql st >>= f) w := by
  refine Discipline.Meets.stmt fun w₁ hI _ hA => ⟨trivial, fun w₂ hw₂ => ?_⟩
  have hsafe := plain_exec hst hI hA hw₂
  exact ⟨hsafe.guarded, ⟨hsafe.others, hsafe.absorbs⟩, trivial, hf w₂⟩

theorem meets_bind {f : α → Program σ β} (hp : Obeys c s i p w)
    (hf : ∀ a w, Obeys c s i (f a) w) : Obeys c s i (p >>= f) w := by
  refine Discipline.Meets.bind (hp.mono fun r w' _ => ?_)
  cases r with
  | ok a => exact hf a w'
  | error e => trivial

theorem meets_onError {f : σ × Error → Program σ α} (hp : Obeys c s i p w)
    (hf : ∀ e w, Obeys c s i (f e) w) : Obeys c s i (p.onError f) w := by
  refine Discipline.Meets.onError (hp.mono fun r w' _ => ?_)
  cases r with
  | ok a => trivial
  | error e => exact hf e w'

/-- The transaction has locked the job and found it running. -/
theorem working_of_lock {key : Key} {w' : World} {v : Versioned Job} (h : Guarded key w') (he : exec i (.jobLock key) w = some w')
    (hv : w'.jobs key = some v) (hrun : (v.view i).state = .running) : Working key i w' := by
  obtain ⟨j, hj⟩ : ∃ j, v.newer = some (i, j) := by
    obtain ⟨hnone, rfl⟩ | ⟨v₀, -, -, -, rfl⟩ := exec_jobUpdate (f := id) he
    · rw [hnone] at hv
      cases hv
    · simp only [update_self] at hv
      cases hv
      exact ⟨_, rfl⟩
  have hview : v.view i = j := by
    simp [Versioned.view, hj]
  refine ⟨v, j, hv, hj, ?_⟩
  rcases h.job v i j hv hj with hsame | ⟨hcommitted, -⟩
  · rw [← hsame, ← hview, hrun]
  · exact hcommitted

theorem only_countRows (j : Job) : (countRows i c s j).Only (works (jobKey c s)) := by
  unfold countRows
  split_ifs
  · exact (only_sql trivial).bind fun _ => (only_sql ⟨rfl, fun _ => .inl rfl⟩).bind fun _ => trivial
  · trivial

theorem only_fill : (fill i c s).Only (works (jobKey c s)) := by
  refine (only_sql trivial).bind fun w => (only_sql ⟨rfl, fun _ => .inl rfl⟩).bind fun _ => (only_sql trivial).bind fun w => ?_
  split_ifs
  · exact (only_sql ⟨rfl, fun _ => .inr rfl⟩).bind fun _ => trivial
  · trivial

theorem meets_work (hc : jobKey c' s = keyOf c s) : Obeys c s i (work i c' s) w := by
  refine meets_sql trivial fun _ => meets_sql trivial fun _ => meets_sql trivial fun _ => ?_
  rw [hc]
  refine Discipline.Meets.stmt fun w₁ hI _ hA => ⟨trivial, fun w₂ hw₂ => ?_⟩
  have hsafe := Guarded.jobLock hI hw₂
  refine ⟨hsafe.guarded, ⟨hsafe.others, hsafe.absorbs⟩, trivial, ?_⟩
  cases hv : w₂.jobs (keyOf c s) with
  | none => trivial
  | some v =>
    show Obeys c s i (if _ then _ else if _ then _ else _) _
    split_ifs with hdigest hrun
    · trivial
    · trivial
    · -- from here on the transaction has the job
      have hw := working_of_lock hsafe.guarded hw₂ hv (not_not.mp hrun)
      have honly : (countRows i c' s (v.view i) >>= fun _ => fill i c' s).Only (works (keyOf c s)) :=
        hc ▸ (only_countRows _).bind fun _ => only_fill
      refine (Discipline.Meets.of_only (K := Working (keyOf c s) i) (fun hw hR => hw.rely hR) (fun hst hI hw _ he => ?_) honly hw).mono
        fun _ _ _ => trivial
      obtain ⟨hsafe, hw'⟩ := works_exec hst hI hw he
      exact ⟨hsafe.guarded, ⟨hsafe.others, hsafe.absorbs⟩, hw'⟩

theorem meets_batch (hc : jobKey c' s = keyOf c s) : Obeys c s i (batch i c' s) w := by
  refine meets_sql trivial fun w => meets_onError (meets_bind (meets_work hc) fun n w => meets_sql trivial fun _ => trivial) fun e w => ?_
  exact meets_plain ((Prog.Only.attempt trivial).bind fun _ => trivial)

theorem only_ensureJob : (ensureJob c s).Only (plain (jobKey c s)) := by
  refine Prog.Only.bind (only_sql ?_) fun _ => Prog.Only.bind (only_sql ?_) fun w => ?_
  · rfl
  · trivial
  cases w.jobs (jobKey c s) with
  | none => trivial
  | some v =>
    show Prog.Only _ (if _ then _ else _)
    split_ifs <;> trivial

theorem meets_attemptOnce (hc : jobKey c' s = keyOf c s) {fault : Option GoString} {onFault : Option GoString → Program Status Status}
    (h : ∀ code w, Obeys c s i (onFault code) w) : Obeys c s i (attemptOnce i c' s fault onFault) w := by
  refine meets_bind (meets_onError (meets_bind (meets_batch hc) fun _ _ => trivial) fun _ _ => trivial) fun r w => ?_
  cases r with
  | ok n => exact meets_plain ((only_readStatus trivial trivial fun _ => trivial).mapError.bind fun _ => trivial)
  | error e => exact h _ _

theorem meets_recordError (hc : jobKey c' s = keyOf c s) (code : Option GoString) :
    Obeys c s i (recordError c' s code) w := by
  refine meets_plain (Prog.Only.bind (Prog.Only.attempt ?_) fun _ => (only_orZero (only_readStatus trivial trivial fun _ => trivial)).bind fun _ => trivial)
  exact hc

theorem meets_attempts (hc : jobKey c' s = keyOf c s) (faults : Faults) (left attempt : Nat) :
    Obeys c s i (attempts i c' s faults left attempt) w := by
  induction left generalizing attempt w with
  | zero => exact meets_attemptOnce hc fun code w => meets_recordError hc code
  | succ left ih =>
    refine meets_attemptOnce hc fun code w => ?_
    split_ifs
    · refine meets_bind (meets_plain (Prog.Only.attempt ?_)) fun _ w => meets_sql trivial fun w => ih _
      exact hc
    · exact meets_recordError hc code

theorem meets_runBatch (faults : Faults) : Obeys c s i (runBatch i c s faults) w := by
  refine meets_lift (fun _ => trivial) fun c' hc' => meets_lift (fun _ => trivial) fun _ _ => ?_
  obtain rfl := defaults_ok hc'
  refine meets_sql trivial fun w => meets_bind (meets_onError ?_ fun e w => ?_) fun st w => ?_
  · refine meets_sql trivial fun w => meets_sql trivial fun w => meets_bind (meets_plain (only_validateLive trivial)) fun _ w => ?_
    refine meets_bind (meets_plain (only_ensure (fun _ => trivial) _ _ _ _)) fun _ w => meets_sql trivial fun w => ?_
    split_ifs
    · trivial
    · exact meets_bind (meets_plain only_ensureJob) fun _ w => meets_attempts rfl faults _ _
  all_goals exact meets_plain ((Prog.Only.always trivial).bind fun _ => trivial)

theorem meets_control (action : GoString) : Obeys c s i (Backfill.control i c s action) w :=
  meets_plain (only_control trivial trivial (fun _ => trivial) fun _ _ => rfl)

theorem meets_jobCall (p : JobCall) : (jobDiscipline c s).Meets i (p.program c s i) w fun _ _ => True := by
  cases p with
  | runBatch faults => exact (meets_runBatch faults).forget
  | control action => exact (meets_control action).forget
  | statusOf => exact (meets_plain (only_readStatus trivial trivial fun _ => trivial)).forget

end Meets

/-! ### End states -/

/-- The acts of a run in which no failure is recorded for a job that is complete or cancelled. -/
def SparesEnded (c : Config) (s : BackfillSpec) (x : Conf Statement World) (a : Act JobCall Env) : Prop :=
  ∀ st ∈ x.next a, Spares (keyOf c s) st x.state

instance (c : Config) (s : BackfillSpec) (x : Conf Statement World) (a : Act JobCall Env) : Decidable (SparesEnded c s x a) :=
  inferInstanceAs (Decidable (∀ st ∈ x.next a, Spares (keyOf c s) st x.state))

theorem allows_of_spares {c : Config} {s : BackfillSpec} {x : Conf Statement World} {a : Act JobCall Env} (h : SparesEnded c s x a) :
    (jobDiscipline c s).Allows x a := by
  cases a with
  | call i a => exact h
  | env | openSession | close => trivial

/-- The step lemma: one act leaves an end state as it is; if it is not one of the application, it writes no rows. -/
theorem absorbs_step {c : Config} {s : BackfillSpec} {x y : Conf Statement World} {a : Act JobCall Env} (hx : (jobDiscipline c s).Good x)
    (ha : SparesEnded c s x a) (hstep : (onJob c s).step x a = some y) :
    (∀ st, durable (keyOf c s) x.state = some st → st.terminal = true → durable (keyOf c s) y.state = some st) ∧
      ((∀ e, a ≠ .env e) → Absorbs (keyOf c s) x.state y.state) := by
  have hallows := allows_of_spares ha
  refine ⟨?_, fun hne => ?_⟩
  · refine hx.act (R := fun w w' => ∀ st, durable (keyOf c s) w = some st → st.terminal = true → durable (keyOf c s) w' = some st) hallows hstep
      (fun _ hst _ => hst) (fun _ _ _ hG st hst hterm => (hG.2 st hst hterm).1) (fun i st hst hterm => (hx.inv.close.absorbs st hst hterm).1) ?_
    intro e w' _ he st hst _
    rw [durable, (Guarded.env hx.inv he).2]
    exact hst
  · exact hx.act (R := Absorbs (keyOf c s)) hallows hstep (fun st hst _ => ⟨hst, fun _ => rfl⟩) (fun _ _ _ hG => hG.2) (fun i => hx.inv.close.absorbs)
      (fun e _ he _ => absurd he (hne e))

/-- Complete and cancelled are end states in every run in which no failure is recorded for a job in an end state:
the state stays, and no act but one of the application writes rows. -/
theorem end_states_absorbing (c : Config) (s : BackfillSpec) {w₀ : World} (h₀ : Guarded (keyOf c s) w₀) {l l' : List (Act JobCall Env)}
    {x y : Conf Statement World} (hx : (onJob c s).Reaches (SparesEnded c s) (System.initial w₀) l x)
    (hy : (onJob c s).Reaches (SparesEnded c s) x l' y) {st : JobState} (hst : durable (keyOf c s) x.state = some st)
    (hterm : st = .complete ∨ st = .cancelled) : durable (keyOf c s) y.state = some st ∧
      ∀ a z, SparesEnded c s y a → (∀ e, a ≠ .env e) → (onJob c s).step y a = some z →
        durable (keyOf c s) z.state = some st ∧ ∀ rel, committedRows z.state rel = committedRows y.state rel := by
  have hterm : st.terminal = true := by
    rcases hterm with rfl | rfl <;> rfl
  have hgood : (jobDiscipline c s).Good x :=
    Discipline.reaches (fun p _ _ _ => meets_jobCall p) h₀ (hx.mono fun _ _ => allows_of_spares)
  -- along the second part of the run
  obtain ⟨hgood, hst⟩ : (jobDiscipline c s).Good y ∧ durable (keyOf c s) y.state = some st := by
    refine System.Reaches.keeps (I := fun z => (jobDiscipline c s).Good z ∧ durable (keyOf c s) z.state = some st) ?_ hy ⟨hgood, hst⟩
    rintro z a z' ha hz' ⟨hz, hst⟩
    exact ⟨hz.step (fun p _ _ _ => meets_jobCall p) (allows_of_spares ha) hz', (absorbs_step hz ha hz').1 st hst hterm⟩
  exact ⟨hst, fun a z ha hne hz => (absorbs_step hgood ha hz).2 hne st hst hterm⟩

/-! ### Two runs -/

def sampleConfig : Config := ⟨str "postgres://", [], str "primary", str "test", 10, 0, 500, 500, 0, 0, 0⟩

def sampleSpec : BackfillSpec :=
  new (List.replicate 64 0x61) (str "fill_amount") (str "app") (str "orders") (str "id") (str "price") (str "amount") (str "value::int4")

/-- One row to be filled; `convertible` says whether its value can be converted. -/
def sampleOutside (convertible : Bool) : Outside :=
  ⟨⟨0, true, true, true, []⟩, ⟨true, true, false, false, true, []⟩, 5, fun _ => none, fun _ => some ⟨true, true, true⟩,
    fun _ v => if convertible then some v else none⟩

def sampleRow : Row := ⟨⟨GoMap.ofList [(str "id", str "1"), (str "price", str "12")], none⟩, false⟩

def sampleWorld (convertible : Bool) : World :=
  { World.fresh (sampleOutside convertible) fun _ => id with tables := fun rel => if rel = (str "app", str "orders") then [sampleRow] else [] }

theorem sampleWorld_guarded (convertible : Bool) (key : Key) : Guarded key (sampleWorld convertible) := by
  refine ⟨fun rel r i x hr hx => ?_, fun v i j hv _ => by simp [sampleWorld, World.fresh] at hv⟩
  simp only [sampleWorld] at hr
  split_ifs at hr
  · rw [mem_singleton.mp hr] at hx
    simp [sampleRow] at hx
  · simp at hr

def completedRun : List (Act JobCall Env) := [Act.openSession 0 (JobCall.runBatch fun _ => none)] ++ List.replicate 25 (Act.call 0 .done)

/-- An attempt to cancel the job, and another batch. -/
def laterRun : List (Act JobCall Env) :=
  [Act.close 0, Act.openSession 1 (JobCall.control (str "cancel"))] ++ List.replicate 3 (Act.call 1 .done) ++
    [Act.openSession 2 (JobCall.runBatch fun _ => none)] ++ List.replicate 15 (Act.call 2 .done)

theorem end_states_absorbing_sample : ∃ x y,
    (onJob sampleConfig sampleSpec).Reaches (SparesEnded sampleConfig sampleSpec) (System.initial (sampleWorld true)) completedRun x ∧
    durable (keyOf sampleConfig sampleSpec) x.state = some .complete ∧
    (onJob sampleConfig sampleSpec).Reaches (SparesEnded sampleConfig sampleSpec) x laterRun y ∧
    durable (keyOf sampleConfig sampleSpec) y.state = some .complete := by
  have hrun : (((onJob sampleConfig sampleSpec).runIf (SparesEnded sampleConfig sampleSpec) (System.initial (sampleWorld true)) completedRun).bind
      fun x => ((onJob sampleConfig sampleSpec).runIf (SparesEnded sampleConfig sampleSpec) x laterRun).map
        fun _ => durable (keyOf sampleConfig sampleSpec) x.state) = some (some .complete) := by decide +kernel
  obtain ⟨x, hx, hrun⟩ := Option.bind_eq_some_iff.mp hrun
  obtain ⟨y, hy, h⟩ := map_eq_some_iff.mp hrun
  have hx := System.Reaches.of_runIf hx
  have hy := System.Reaches.of_runIf hy
  exact ⟨x, y, hx, h, hy, (end_states_absorbing sampleConfig sampleSpec (sampleWorld_guarded true _) hx hy h (.inl rfl)).1⟩

/-- A batch fails; before its failure is recorded the job is cancelled. -/
def cancelledRun : List (Act JobCall Env) :=
  [Act.openSession 0 (JobCall.runBatch fun _ => some (str "22P02"))] ++ List.replicate 22 (Act.call 0 .done) ++
    [Act.openSession 1 (JobCall.control (str "cancel"))] ++ List.replicate 3 (Act.call 1 .done)

/-- The failure is recorded, the job is resumed, and another batch fills the row. -/
def resumedRun : List (Act JobCall Env) :=
  [Act.call 0 .done, Act.close 0, Act.openSession 2 (JobCall.control (str "resume"))] ++ List.replicate 3 (Act.call 2 .done) ++
    [Act.env (Env.outside (sampleOutside true)), Act.openSession 3 (JobCall.runBatch fun _ => none)] ++ List.replicate 21 (Act.call 3 .done)

/-- A cancelled job becomes failed, runs again and writes a row. -/
theorem cancelled_job_runs : ∃ x y, (onJob sampleConfig sampleSpec).Reaches (fun _ _ => True) (System.initial (sampleWorld false)) cancelledRun x ∧
    durable (keyOf sampleConfig sampleSpec) x.state = some .cancelled ∧
    (onJob sampleConfig sampleSpec).Reaches (fun _ _ => True) x resumedRun y ∧
    (∀ a ∈ resumedRun, ∀ rel rows, a ≠ .env (.write rel rows)) ∧
    durable (keyOf sampleConfig sampleSpec) y.state = some .complete ∧
    committedRows y.state sampleSpec.relation ≠ committedRows x.state sampleSpec.relation := by
  have hrun : (((onJob sampleConfig sampleSpec).run (System.initial (sampleWorld false)) cancelledRun).bind fun x =>
      ((onJob sampleConfig sampleSpec).run x resumedRun).map fun y =>
        (durable (keyOf sampleConfig sampleSpec) x.state, durable (keyOf sampleConfig sampleSpec) y.state,
          decide (committedRows y.state sampleSpec.relation = committedRows x.state sampleSpec.relation))) =
      some (some .cancelled, some .complete, false) := by decide +kernel
  obtain ⟨x, hx, hrun⟩ := Option.bind_eq_some_iff.mp hrun
  obtain ⟨y, hy, h⟩ := map_eq_some_iff.mp hrun
  simp only [Prod.mk.injEq, decide_eq_false_iff_not] at h
  refine ⟨x, y, System.Reaches.of_run hx, h.1, System.Reaches.of_run hy, ?_, h.2.1, h.2.2⟩
  intro a ha rel rows
  rintro rfl
  simp [resumedRun] at ha

end AutoSql.Zdm.Backfill
