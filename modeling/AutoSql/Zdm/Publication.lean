/-
AutoSql/Zdm/Publication.lean

A version is published when its data are complete: where that is true and where not.

`Run` returns without an error when the state of its job is not running or its count of
remaining rows is zero, and the phases of a start take that for the end of the backfill.
`paused_job_published` is a run in which a job is paused after its first batch and the
version is published with a row that is not filled.

`published_complete` is about the runs in which the status that a batch returns with
shows a job that is running or complete, no failure is recorded for a complete job, and
the application does not add rows to be filled to a job that has counted its rows.  When
the publish phase begins, every backfill has been complete at some earlier point at which
no row was left to be filled.

The invariant is `Sound`.  At most one job exists that is not complete (`Sound.order`),
rows are written only by the transaction that has locked that job, and its count bounds
the rows that are pending (`Sound.count`).  What a session knows in a batch is `Filling`:
the count in its transaction bounds the rows that it sees pending.
-/
import AutoSql.Zdm.EndStates
import AutoSql.Zdm.Pipeline

namespace AutoSql.Zdm.Publication

open List Function Option

open Backfill (jobKey durable Working Ends ends_commit ends_rollback exec_jobUpdate)

/-- The backfills of a pipeline, where their jobs are, and where the start keeps its row. -/
structure Jobs where
  specs : List BackfillSpec
  key : BackfillSpec → Key
  startKey : Key
  inj : ∀ s ∈ specs, ∀ s' ∈ specs, key s = key s' → s = s'

/-! ### Pending rows -/

/-- The rows to be filled among the committed ones. -/
def committedPending (s : BackfillSpec) (w : World) : Nat := (w.tables s.relation).countP fun r => s.pending r.cells.committed

/-- The rows to be filled that session `i` sees. -/
def viewPending (i : Nat) (s : BackfillSpec) (w : World) : Nat := pendingCount i s (w.tables s.relation)

/-- Session `i` has written no rows. -/
def NoRows (i : Nat) (w : World) : Prop := ∀ rel r x, r ∈ w.tables rel → r.cells.newer ≠ some (i, x)

/-- Session `i` has not locked the job. -/
def Unlocked (key : Key) (i : Nat) (w : World) : Prop := ∀ v j, w.jobs key = some v → v.newer ≠ some (i, j)

/-- The rows of the job have been counted, by an earlier batch or in the transaction of session `i`. -/
def Counting (key : Key) (i : Nat) (w : World) : Prop := (∃ v, w.jobs key = some v ∧ 0 ≤ v.committed.remaining) ∨ w.counted key = some i

variable {key : Key} {α : Type} {v : Versioned Job} {j : Job}

theorem commit_committed (i : Nat) (v : Versioned α) : (v.commit i).committed = v.view i := by
  obtain ⟨a, newer⟩ := v
  cases newer with
  | none => rfl
  | some p =>
    simp only [Versioned.commit, Versioned.view]
    split_ifs <;> rfl

theorem rollback_committed (i : Nat) (v : Versioned α) : (v.rollback i).committed = v.committed := by
  obtain ⟨a, newer⟩ := v
  cases newer with
  | none => rfl
  | some p =>
    simp only [Versioned.rollback]
    split_ifs <;> rfl

/-- Another session does not see what session `i` has dropped. -/
theorem rollback_view {i j : Nat} (h : i ≠ j) (v : Versioned α) : (v.rollback i).view j = v.view j := by
  obtain ⟨a, newer⟩ := v
  cases newer with
  | none => rfl
  | some p =>
    obtain ⟨k, x⟩ := p
    simp only [Versioned.rollback]
    split_ifs with hk
    · subst hk
      simp [Versioned.view, h]
    · rfl

theorem view_of_newer_none {v : Versioned α} (h : v.newer = none) (i : Nat) : v.view i = v.committed := by
  simp [Versioned.view, h]

/-- What is committed is what the session has seen. -/
theorem committedPending_commit {s : BackfillSpec} {w w' : World} {i : Nat}
    (h : ∀ rel, w'.tables rel = (w.tables rel).map fun r => { r with cells := r.cells.commit i }) :
    committedPending s w' = viewPending i s w := by
  rw [committedPending, h, countP_map]
  simp only [viewPending, pendingCount, comp_def, commit_committed]

section Fill

variable {convert : GoString → GoString → Option GoString} {i : Nat} {s : BackfillSpec} {r r' : Row}

/-- A row that is filled is no more pending, or it is not changed. -/
theorem filled_pending (h : Backfill.Filled convert i s r r') :
    (s.pending (r'.cells.view i) = false ∧ r'.cells.newer = some (i, r'.cells.view i) ∧ r'.cells.view i ≠ r.cells.committed ∨
      s.pending (r'.cells.view i) = true ∧ r'.cells.newer = some (i, r.cells.committed)) ∧ r'.cells.committed = r.cells.committed := by
  obtain ⟨hp, hfree, c, hc, rfl⟩ := h
  rw [view_of_newer_none hfree] at hp
  have hview : (r.cells.write i c).view i = c := by simp [Versioned.view, Versioned.write]
  simp only [hview]
  refine ⟨?_, rfl⟩
  simp only [fillCells] at hc
  split at hc
  · -- the new value of the destination column
    obtain ⟨v, -, rfl⟩ := map_eq_some_iff.mp hc
    have hdest : (r.cells.committed.insert s.destinationColumn v).get? s.destinationColumn = some v := GoMap.get?_insert_self
    refine .inl ⟨by simp [BackfillSpec.pending, hdest], rfl, fun heq => ?_⟩
    rw [heq] at hdest
    simp [BackfillSpec.pending, hdest] at hp
  · cases hc
    exact .inr ⟨hp, rfl⟩

variable {rows : List Row}

/-- One more row that is changed, and one that is not. -/
theorem changedCount_changed {c : Cells} (h : r.cells.newer = some (i, c)) (hc : c ≠ r.cells.committed) :
    changedCount i (r :: rows) = changedCount i rows + 1 := by
  simp [changedCount, h, hc]

theorem changedCount_same (h : ∀ c, r.cells.newer = some (i, c) → c = r.cells.committed) :
    changedCount i (r :: rows) = changedCount i rows := by
  refine countP_cons_of_neg fun hr => ?_
  split at hr
  · obtain ⟨rfl, hne⟩ := of_decide_eq_true hr
    exact hne (h _ ‹_›)
  · cases hr

/-- A batch takes the rows it has changed from the pending ones. -/
theorem pending_fillRows {rows' : List Row} (hfree : ∀ r ∈ rows, r.cells.newer = none)
    (h : List.Forall₂ (fun r r' => r' = r ∨ Backfill.Filled convert i s r r') rows rows') :
    pendingCount i s rows' + changedCount i rows' = pendingCount i s rows := by
  induction h with
  | nil => rfl
  | @cons r r' rows rows' hr _ ih =>
    rw [forall_mem_cons] at hfree
    have ih := ih hfree.2
    rcases hr with rfl | hfilled
    · rw [changedCount_same (by simp [hfree.1])]
      simp only [pendingCount, countP_cons] at ih ⊢
      omega
    · have hp := hfilled.1
      obtain ⟨⟨hnot, hnewer, hne⟩ | ⟨hyes, hnewer⟩, hc⟩ := filled_pending hfilled
      · rw [changedCount_changed hnewer (hc ▸ hne)]
        simp only [pendingCount, countP_cons, hp, hnot, if_true, Bool.false_eq_true, if_false] at ih ⊢
        omega
      · rw [changedCount_same fun c hc' => by rw [hnewer] at hc'; cases hc'; exact hc.symm]
        simp only [pendingCount, countP_cons, hp, hyes, if_true] at ih ⊢
        omega

/-- What is committed stays while a batch fills rows. -/
theorem committed_fillRows {rows' : List Row} (h : List.Forall₂ (fun r r' => r' = r ∨ Backfill.Filled convert i s r r') rows rows') :
    rows'.map (·.cells.committed) = rows.map (·.cells.committed) := by
  refine (Fallible.map_eq_of_forall₂ (h.imp fun r r' hr => ?_)).symm
  rcases hr with rfl | hfilled
  · rfl
  · exact (filled_pending hfilled).2.symm

end Fill

/-- The application leaves alone what is locked, so that it changes for a session what it changes at all. -/
theorem viewPending_write {i : Nat} {s : BackfillSpec} {rows rows' : List Row} (hheld : rows'.filter Row.held = rows.filter Row.held)
    (h : (rows'.countP fun r => s.pending r.cells.committed) ≤ rows.countP fun r => s.pending r.cells.committed) :
    pendingCount i s rows' ≤ pendingCount i s rows := by
  have hsplit : ∀ (l : List Row) (p : Row → Bool), l.countP p = (l.filter Row.held).countP p + (l.filter fun r => !r.held).countP p := by
    intro l p
    simpa using countP_eq_countP_filter_add l p Row.held
  -- a row that is not locked is seen as it is committed
  have hfree : ∀ l : List Row, (l.filter fun r => !r.held).countP (fun r => s.pending (r.cells.view i)) =
      (l.filter fun r => !r.held).countP fun r => s.pending r.cells.committed := by
    intro l
    refine countP_congr fun r hr => ?_
    have hnone : r.cells.newer = none := by simpa [Row.held] using (mem_filter.mp hr).2
    rw [view_of_newer_none hnone]
  rw [hsplit rows', hsplit rows, hheld] at h
  unfold pendingCount
  rw [hsplit rows', hsplit rows, hheld, hfree, hfree]
  omega

/-! ### The invariant -/

namespace Jobs

variable (J : Jobs)

def Complete (s : BackfillSpec) (w : World) : Prop := durable (J.key s) w = some .complete

def AllComplete (w : World) : Prop := ∀ s ∈ J.specs, J.Complete s w

/-- The backfills before the first one with the key of `s`. -/
def earlier (s : BackfillSpec) : List BackfillSpec := J.specs.takeWhile fun s' => J.key s' ≠ J.key s

structure Sound (w : World) : Prop where
  rows : ∀ rel r i x, r ∈ w.tables rel → r.cells.newer = some (i, x) → ∃ s ∈ J.specs, Working (J.key s) i w
  tx : ∀ s ∈ J.specs, ∀ i, w.inTx i = false → Unlocked (J.key s) i w
  count : ∀ s ∈ J.specs, ∀ v, w.jobs (J.key s) = some v → v.committed.state ≠ .complete → 0 ≤ v.committed.remaining →
    0 < v.committed.remaining ∧ (committedPending s w : Int) ≤ v.committed.remaining
  order : ∀ s ∈ J.specs, ∀ v, w.jobs (J.key s) = some v → ∀ s' ∈ J.earlier s, J.Complete s' w
  progress : ∀ r, w.starts J.startKey = some r → 5 ≤ r.progress → J.AllComplete w

/-- What session `i` can rely on between two of its calls. -/
structure Rely (i : Nat) (w w' : World) : Prop where
  complete : ∀ s ∈ J.specs, J.Complete s w → J.Complete s w'
  locked : ∀ s ∈ J.specs, ∀ v j, w.jobs (J.key s) = some v → v.newer = some (i, j) → w'.jobs (J.key s) = some v
  unlocked : ∀ s ∈ J.specs, Unlocked (J.key s) i w → Unlocked (J.key s) i w'
  noRows : NoRows i w → NoRows i w'
  counting : ∀ s ∈ J.specs, Working (J.key s) i w → w.counted (J.key s) = some i → w'.counted (J.key s) = some i
  pending : ∀ s ∈ J.specs, Working (J.key s) i w → Counting (J.key s) i w → viewPending i s w' ≤ viewPending i s w

/-- What a statement of session `i` does. -/
structure Step (i : Nat) (w w' : World) : Prop where
  sound : J.Sound w'
  others : ∀ j, i ≠ j → J.Rely j w w'
  complete : ∀ s ∈ J.specs, J.Complete s w → J.Complete s w'
  completes : ∀ s ∈ J.specs, J.Complete s w' → ¬ J.Complete s w → committedPending s w' = 0

end Jobs

variable {J : Jobs} {s s' : BackfillSpec} {i : Nat} {w w' w'' : World}

theorem rely_working (h : J.Rely i w w') (hs : s ∈ J.specs) (hw : Working (J.key s) i w) : Working (J.key s) i w' := by
  obtain ⟨v, j, hv, hj, hrun⟩ := hw
  exact ⟨v, j, h.locked s hs v j hv hj, hj, hrun⟩

theorem rely_counting (h : J.Rely i w w') (hs : s ∈ J.specs) (hw : Working (J.key s) i w) (hc : Counting (J.key s) i w) :
    Counting (J.key s) i w' := by
  rcases hc with ⟨v, hv, hrem⟩ | hc
  · obtain ⟨v', j, hv', hj, -⟩ := hw
    obtain rfl := some.inj (hv.symm.trans hv')
    exact .inl ⟨v, h.locked s hs v j hv hj, hrem⟩
  · exact .inr (h.counting s hs hw hc)

theorem Jobs.Rely.refl (J : Jobs) (i : Nat) (w : World) : J.Rely i w w :=
  ⟨fun _ _ h => h, fun _ _ _ _ hv _ => hv, fun _ _ h => h, id, fun _ _ _ h => h, fun _ _ _ _ => le_refl _⟩

theorem Jobs.Rely.trans (h : J.Rely i w w') (h' : J.Rely i w' w'') : J.Rely i w w'' where
  complete s hs hc := h'.complete s hs (h.complete s hs hc)
  locked s hs v j hv hj := h'.locked s hs v j (h.locked s hs v j hv hj) hj
  unlocked s hs hu := h'.unlocked s hs (h.unlocked s hs hu)
  noRows hn := h'.noRows (h.noRows hn)
  counting s hs hw hc := h'.counting s hs (rely_working h hs hw) (h.counting s hs hw hc)
  pending s hs hw hc := (h'.pending s hs (rely_working h hs hw) (rely_counting h hs hw hc)).trans (h.pending s hs hw hc)

/-- Of two keys one comes first. -/
theorem mem_takeWhile_or {β : Type} [DecidableEq β] {f : α → β} {l : List α} {a b : α} (ha : a ∈ l) (hb : b ∈ l) (hne : f a ≠ f b) :
    (∃ x ∈ l.takeWhile (fun y => decide (f y ≠ f a)), f x = f b) ∨ ∃ x ∈ l.takeWhile (fun y => decide (f y ≠ f b)), f x = f a := by
  induction l with
  | nil => cases ha
  | cons c l ih =>
    by_cases hca : f c = f a
    · exact .inr ⟨c, by simp [hca, hne], hca⟩
    · by_cases hcb : f c = f b
      · exact .inl ⟨c, by simp [hcb, hne.symm], hcb⟩
      · have ha' := (mem_cons.mp ha).resolve_left fun h => hca (h ▸ rfl)
        have hb' := (mem_cons.mp hb).resolve_left fun h => hcb (h ▸ rfl)
        rcases ih ha' hb' with ⟨x, hx, hxb⟩ | ⟨x, hx, hxa⟩
        · refine .inl ⟨x, ?_, hxb⟩
          rw [takeWhile_cons_of_pos (by simpa using hca)]
          exact mem_cons_of_mem _ hx
        · refine .inr ⟨x, ?_, hxa⟩
          rw [takeWhile_cons_of_pos (by simpa using hcb)]
          exact mem_cons_of_mem _ hx

/-- At most one job exists that is not complete. -/
theorem Jobs.Sound.unique (h : J.Sound w) (hs : s ∈ J.specs) (hs' : s' ∈ J.specs) {v' : Versioned Job} (hv : w.jobs (J.key s) = some v)
    (hv' : w.jobs (J.key s') = some v') (hne : v.committed.state ≠ .complete) (hne' : v'.committed.state ≠ .complete) : s = s' := by
  refine J.inj s hs s' hs' ?_
  by_contra hkey
  rcases mem_takeWhile_or hs hs' hkey with ⟨x, hx, hxk⟩ | ⟨x, hx, hxk⟩
  · have hc := h.order s hs v hv x hx
    rw [Jobs.Complete, hxk, durable, hv'] at hc
    exact hne' (some.inj hc)
  · have hc := h.order s' hs' v' hv' x hx
    rw [Jobs.Complete, hxk, durable, hv] at hc
    exact hne (some.inj hc)

/-- Only one session works on a job. -/
theorem Jobs.Sound.unique_working {j : Nat} (h : J.Sound w) (hs : s ∈ J.specs) (hs' : s' ∈ J.specs) (hw : Working (J.key s) i w)
    (hw' : Working (J.key s') j w) : i = j := by
  obtain ⟨v, x, hv, hx, hrun⟩ := hw
  obtain ⟨v', x', hv', hx', hrun'⟩ := hw'
  obtain rfl := h.unique hs hs' hv hv' (by simp [hrun]) (by simp [hrun'])
  rw [hv] at hv'
  cases hv'
  rw [hx] at hx'
  exact (Prod.mk.inj (some.inj hx')).1

/-- What a statement of session `i` does that completes no job and leaves the committed rows. -/
structure Jobs.Keeps (J : Jobs) (i : Nat) (w w' : World) : Prop where
  old : ∀ k v', w'.jobs k = some v' → (∃ v, w.jobs k = some v ∧ (v'.committed.state = .complete ↔ v.committed.state = .complete) ∧
      v'.committed.remaining = v.committed.remaining) ∨
    w.jobs k = none ∧ v'.committed.state ≠ .complete ∧ v'.committed.remaining < 0 ∧ ∀ s ∈ J.specs, J.key s = k → ∀ s' ∈ J.earlier s, J.Complete s' w
  kept : ∀ k, w'.jobs k = none → w.jobs k = none
  locked : ∀ k n v x, i ≠ n → w.jobs k = some v → v.newer = some (n, x) → w'.jobs k = some v
  unlocked : ∀ k n, i ≠ n → Unlocked k n w → Unlocked k n w'
  tx : ∀ k n, (w.inTx n = false → Unlocked k n w) → w'.inTx n = false → Unlocked k n w'
  cells : ∀ rel r n x, r ∈ w'.tables rel → r.cells.newer = some (n, x) →
    (∃ r₀ ∈ w.tables rel, r₀.cells.newer = some (n, x)) ∨ i = n ∧ ∃ s ∈ J.specs, Working (J.key s) i w'
  own : NoRows i w' ∨ ∀ k, Working k i w → Working k i w'
  committed : ∀ s, committedPending s w' = committedPending s w
  counting : ∀ s ∈ J.specs, ∀ n, i ≠ n → Working (J.key s) n w → w.counted (J.key s) = some n → w'.counted (J.key s) = some n
  pending : ∀ s ∈ J.specs, ∀ n, i ≠ n → Working (J.key s) n w → viewPending n s w' ≤ viewPending n s w
  progress : ∀ r, w'.starts J.startKey = some r → 5 ≤ r.progress → J.AllComplete w

theorem Jobs.Sound.step (h : J.Sound w) (hk : J.Keeps i w w') : J.Step i w w' := by
  have hcomplete : ∀ s, J.Complete s w ↔ J.Complete s w' := by
    intro s
    unfold Jobs.Complete durable
    cases hv' : w'.jobs (J.key s) with
    | none => simp [hk.kept _ hv']
    | some v' =>
      obtain ⟨v, hv, hiff, -⟩ | ⟨hv, hne, -⟩ := hk.old _ v' hv'
      · simp [hv, hiff]
      · simp [hv, hne]
  refine ⟨⟨?_, ?_, ?_, ?_, ?_⟩, fun n hn => ⟨fun s _ => (hcomplete s).mp, fun s _ v x => hk.locked _ n v x hn, fun s _ => hk.unlocked _ n hn, ?_,
    fun s hs => hk.counting s hs n hn, fun s hs hw _ => hk.pending s hs n hn hw⟩, fun s _ => (hcomplete s).mp, ?_⟩
  · intro rel r n x hr hx
    rcases hk.cells rel r n x hr hx with ⟨r₀, hr₀, hx₀⟩ | ⟨rfl, hs⟩
    · obtain ⟨s, hs, hw⟩ := h.rows rel r₀ n x hr₀ hx₀
      by_cases hn : i = n
      · subst hn
        exact hk.own.elim (fun hno => absurd hx (hno rel r x hr)) fun hown => ⟨s, hs, hown _ hw⟩
      · obtain ⟨v, j, hv, hj, hrun⟩ := hw
        exact ⟨s, hs, v, j, hk.locked _ n v j hn hv hj, hj, hrun⟩
    · exact hs
  · exact fun s hs n => hk.tx _ n (h.tx s hs n)
  · intro s hs v' hv' hne hrem
    obtain ⟨v, hv, hiff, hsame⟩ | ⟨-, -, hneg, -⟩ := hk.old _ v' hv'
    · rw [hk.committed, hsame]
      exact h.count s hs v hv (fun hc => hne (hiff.mpr hc)) (hsame ▸ hrem)
    · exact absurd hrem (not_le.mpr hneg)
  · intro s hs v' hv' s' hs'
    refine (hcomplete s').mp ?_
    obtain ⟨v, hv, -⟩ | ⟨-, -, -, hnew⟩ := hk.old _ v' hv'
    · exact h.order s hs v hv s' hs'
    · exact hnew s hs rfl s' hs'
  · exact fun r hr hp s hs => (hcomplete s).mp (hk.progress r hr hp s hs)
  · intro hno rel r x hr hx
    rcases hk.cells rel r n x hr hx with ⟨r₀, hr₀, hx₀⟩ | ⟨rfl, -⟩
    · exact hno rel r₀ x hr₀ hx₀
    · exact hn rfl
  · exact fun s _ hc hne => absurd ((hcomplete s).mpr hc) hne

/-- A statement that touches neither jobs nor rows. -/
theorem Jobs.Sound.frame (h : J.Sound w) (hjobs : w'.jobs = w.jobs) (htables : w'.tables = w.tables) (hcounted : w'.counted = w.counted)
    (htx : ∀ k, w.inTx k = true → w'.inTx k = true) (hstarts : ∀ r, w'.starts J.startKey = some r → 5 ≤ r.progress → J.AllComplete w) :
    J.Step i w w' := by
  refine h.step ⟨fun k v hv => .inl ⟨v, hjobs ▸ hv, Iff.rfl, rfl⟩, fun k hk => hjobs ▸ hk, fun k n v x _ hv _ => hjobs ▸ hv, fun k n _ hu v x hv => hu v x (hjobs ▸ hv),
    fun k n hu hn v x hv => ?_, fun rel r n x hr hx => .inl ⟨r, htables ▸ hr, hx⟩, .inr fun k hw => ?_, fun s => ?_, fun s _ n _ _ hc => hcounted ▸ hc,
    fun s _ n _ _ => ?_, hstarts⟩
  · refine hu ?_ v x (hjobs ▸ hv)
    by_contra hne
    rw [htx n (by simpa using hne)] at hn
    cases hn
  · rwa [Working, hjobs]
  · rw [committedPending, committedPending, htables]
  · rw [viewPending, viewPending, htables]

/-- A new version `x` of a job that no other transaction has locked: the job is as complete as before and its
count stays, or it is new and the earlier ones are complete. -/
theorem Jobs.Sound.set (h : J.Sound w) {x : Versioned Job} (hown : ∀ v n y, w.jobs key = some v → v.newer = some (n, y) → n = i ∧ ∃ j, x = v.write i j)
    (hx : ∀ n y, x.newer = some (n, y) → n = i ∧ w.inTx i = true)
    (hold : (∃ v, w.jobs key = some v ∧ (x.committed.state = .complete ↔ v.committed.state = .complete) ∧ x.committed.remaining = v.committed.remaining) ∨
      w.jobs key = none ∧ x.committed.state ≠ .complete ∧ x.committed.remaining < 0 ∧ ∀ s ∈ J.specs, J.key s = key → ∀ s' ∈ J.earlier s, J.Complete s' w) :
    J.Step i w { w with jobs := update w.jobs key (some x) } := by
  have hunlocked : ∀ k n, (n = i → w.inTx i = false) → Unlocked k n w → Unlocked k n { w with jobs := update w.jobs key (some x) } := by
    intro k n hn hu v y hv hy
    by_cases hk : k = key
    · simp only [hk, update_self, some.injEq] at hv
      obtain ⟨hi, htx⟩ := hx n y (hv ▸ hy)
      simp [hn hi] at htx
    · simp only [update_of_ne hk] at hv
      exact hu v y hv hy
  refine h.step ⟨fun k v hv => ?_, fun k hk' => ?_, fun k n v y hn hv hy => ?_, fun k n hn => hunlocked k n fun hi => absurd hi.symm hn,
    fun k n hu hn => hunlocked k n (fun hi => hi ▸ hn) (hu hn), fun rel r n y hr hy => .inl ⟨r, hr, hy⟩, .inr ?_, fun _ => rfl, fun _ _ _ _ _ hc => hc,
    fun _ _ _ _ _ => le_refl _, h.progress⟩
  · by_cases hk : k = key
    · simp only [hk, update_self, some.injEq] at hv
      rw [hk, ← hv]
      exact hold
    · exact .inl ⟨v, by simpa [update_of_ne hk] using hv, Iff.rfl, rfl⟩
  · by_cases hk : k = key
    · simp [hk] at hk'
    · simpa [update_of_ne hk] using hk'
  · by_cases hk : k = key
    · subst hk
      exact absurd (hown v n y hv hy).1.symm hn
    · simp [update_of_ne hk, hv]
  · rintro k ⟨v, y, hv, hy, hrun⟩
    by_cases hk : k = key
    · subst hk
      obtain ⟨-, j, rfl⟩ := hown v i y hv hy
      exact ⟨v.write i j, j, by simp, rfl, hrun⟩
    · exact ⟨v, y, by simp [update_of_ne hk, hv], hy, hrun⟩

/-- An update of a job outside of a transaction. -/
theorem Jobs.Sound.updateJob (h : J.Sound w) {f : Job → Job} (hf : ∀ v, w.jobs key = some v →
      ((f v.committed).state = .complete ↔ v.committed.state = .complete) ∧ (f v.committed).remaining = v.committed.remaining)
    (he : w.updateJob i key f = some w') : J.Step i w w' := by
  unfold World.updateJob at he
  cases hv : w.jobs key with
  | none =>
    rw [hv] at he
    cases he
    exact h.frame rfl rfl rfl (fun _ h => h) h.progress
  | some v =>
    rw [hv] at he
    dsimp only at he
    split_ifs at he with hlocked
    cases he
    refine h.set (fun v' n y hv' hy => ?_) nofun (.inl ⟨v, hv, hf v hv⟩)
    obtain rfl := some.inj (hv.symm.trans hv')
    simp [hy] at hlocked

/-- A job is inserted when the earlier ones are complete. -/
theorem Jobs.Sound.jobInsert (h : J.Sound w) (hs : s ∈ J.specs) (hj : j.state = .running ∧ j.remaining = -1)
    (hearlier : ∀ s' ∈ J.earlier s, J.Complete s' w) (he : exec i (.jobInsert (J.key s) j) w = some w') : J.Step i w w' := by
  simp only [exec] at he
  split_ifs at he
  cases hv : w.jobs (J.key s) with
  | some v =>
    rw [hv] at he
    cases he
    exact h.frame rfl rfl rfl (fun _ h => h) h.progress
  | none =>
    rw [hv] at he
    cases he
    refine h.set (by simp [hv]) (by simp) (.inr ⟨hv, by simp [hj.1], by simp [hj.2], fun s₁ hs₁ hk => ?_⟩)
    obtain rfl := J.inj s₁ hs₁ s hs hk
    exact hearlier

/-- A transaction changes its own version of a job, or locks it. -/
theorem Jobs.Sound.jobUpdate (h : J.Sound w) {f : Job → Job} (he : exec i (.jobUpdate key f) w = some w') : J.Step i w w' := by
  obtain ⟨-, rfl⟩ | ⟨v, hv, hown, htx, rfl⟩ := exec_jobUpdate he
  · exact h.frame rfl rfl rfl (fun _ h => h) h.progress
  · refine h.set (fun v' n y hv' hy => ?_) (fun n y hy => ?_) (.inl ⟨v, hv, Iff.rfl, rfl⟩)
    · obtain rfl := some.inj (hv.symm.trans hv')
      exact ⟨hown n y hy, _, rfl⟩
    · cases hy
      exact ⟨rfl, htx⟩

/-- The end of a transaction that is rolled back. -/
theorem Jobs.Sound.rollback (h : J.Sound w) (hjobs : ∀ key, w'.jobs key = (w.jobs key).map (·.rollback i))
    (htables : ∀ rel, w'.tables rel = (w.tables rel).map fun r => { r with cells := r.cells.rollback i })
    (htx : w'.inTx = update w.inTx i false) (hcounted : ∀ key, w.counted key ≠ some i → w'.counted key = w.counted key)
    (hstarts : w'.starts = w.starts) : J.Step i w w' := by
  have hold : ∀ k v, w'.jobs k = some v → ∃ v₀, w.jobs k = some v₀ ∧ v = v₀.rollback i ∧ v.committed = v₀.committed := by
    intro k v hv
    rw [hjobs] at hv
    obtain ⟨v₀, hv₀, rfl⟩ := map_eq_some_iff.mp hv
    exact ⟨v₀, hv₀, rfl, rollback_committed i v₀⟩
  have hunlocked : ∀ k n, Unlocked k n w → Unlocked k n w' := by
    intro k n hu v x hv hx
    obtain ⟨v₀, hv₀, rfl, -⟩ := hold k v hv
    obtain ⟨-, hsame⟩ := (ends_rollback i v₀).of_newer hx
    exact hu v₀ x hv₀ (hsame ▸ hx)
  -- the rows that are written yet are those of other sessions
  have hcells : ∀ rel r n x, r ∈ w'.tables rel → r.cells.newer = some (n, x) → i ≠ n ∧ ∃ r₀ ∈ w.tables rel, r₀.cells.newer = some (n, x) := by
    intro rel r' n x hr' hx
    rw [htables] at hr'
    obtain ⟨r, hr, rfl⟩ := mem_map.mp hr'
    obtain ⟨hn, hsame⟩ := (ends_rollback i r.cells).of_newer hx
    exact ⟨hn, r, hr, hsame ▸ hx⟩
  refine h.step ⟨fun k v hv => ?_, fun k hk => ?_, fun k n v x hn hv hx => ?_, fun k n _ => hunlocked k n, fun k n hu hn => ?_,
    fun rel r n x hr hx => .inl (hcells rel r n x hr hx).2, .inl fun rel r x hr hx => (hcells rel r i x hr hx).1 rfl, fun s => ?_,
    fun s _ n hn _ hc => ?_, fun s _ n hn _ => le_of_eq ?_, fun r hr => h.progress r (hstarts ▸ hr)⟩
  · obtain ⟨v₀, hv₀, -, hc⟩ := hold k v hv
    exact .inl ⟨v₀, hv₀, by rw [hc], by rw [hc]⟩
  · rw [hjobs] at hk
    exact map_eq_none_iff.mp hk
  · rw [hjobs, hv, map_some, (ends_rollback i v).of_other hx hn]
  · by_cases hi : n = i
    · subst hi
      intro v x hv hx
      obtain ⟨v₀, hv₀, rfl, -⟩ := hold _ v hv
      exact ((ends_rollback n v₀).of_newer hx).1 rfl
    · rw [htx, update_of_ne hi] at hn
      exact hunlocked _ n (hu hn)
  · rw [committedPending, htables, countP_map]
    simp only [committedPending, comp_def, rollback_committed]
  · rw [hcounted _ fun hi => hn (some.inj (hi.symm.trans hc)), hc]
  · rw [viewPending, viewPending, htables, pendingCount, pendingCount, countP_map]
    simp only [comp_def, rollback_view hn]

theorem Jobs.Sound.close (h : J.Sound w) : J.Step i w (close i w) :=
  h.rollback (fun _ => rfl) (fun _ => rfl) rfl (fun _ hne => if_neg hne) rfl

/-- The rows of the job have been counted. -/
def rowsCounted (key : Key) (w : World) : Bool := (w.jobs key).any (fun v => decide (0 ≤ v.committed.remaining)) || (w.counted key).isSome

/-- The application adds no rows to be filled to a job that has counted its rows. -/
def Jobs.Spares (J : Jobs) (e : Env) (w : World) : Prop :=
  match e with
  | .outside _ => True
  | .write rel rows => ∀ s ∈ J.specs, s.relation = rel → rowsCounted (J.key s) w = true →
      (rows.countP fun r => s.pending r.cells.committed) ≤ committedPending s w

theorem Jobs.Sound.env (h : J.Sound w) {e : Env} (ha : J.Spares e w) (he : Zdm.env e w = some w') :
    J.Sound w' ∧ (∀ i, J.Rely i w w') ∧ w'.jobs = w.jobs := by
  cases e with
  | outside o =>
    cases he
    exact ⟨{ h with }, fun i => { Jobs.Rely.refl J i w with }, rfl⟩
  | write rel rows =>
    simp only [Zdm.env] at he
    split_ifs at he with hheld
    cases he
    -- a row that is locked was there before
    have hold : ∀ rel' r x, r ∈ update w.tables rel rows rel' → r.cells.newer = some x → r ∈ w.tables rel' := by
      intro rel' r x hr hx
      by_cases hrel : rel' = rel
      · subst hrel
        rw [update_self] at hr
        have hmem : r ∈ (w.tables rel').filter Row.held := hheld ▸ mem_filter.mpr ⟨hr, by simp [Row.held, hx]⟩
        exact (mem_filter.mp hmem).1
      · rwa [update_of_ne hrel] at hr
    have hcounted : ∀ s ∈ J.specs, (∃ v, w.jobs (J.key s) = some v ∧ 0 ≤ v.committed.remaining) ∨ (w.counted (J.key s)).isSome → s.relation = rel →
        (rows.countP fun r => s.pending r.cells.committed) ≤ committedPending s w := by
      intro s hs hc hrel
      refine ha s hs hrel ?_
      rcases hc with ⟨v, hv, hrem⟩ | hc
      · simp [rowsCounted, hv, hrem]
      · simp [rowsCounted, hc]
    refine ⟨{ h with rows := ?_, count := ?_ }, fun i => { Jobs.Rely.refl J i w with noRows := ?_, pending := ?_ }, rfl⟩
    · exact fun rel' r n x hr hx => h.rows rel' r n x (hold rel' r _ hr hx) hx
    · intro s hs v hv hne hrem
      obtain ⟨hpos, hle⟩ := h.count s hs v hv hne hrem
      refine ⟨hpos, le_trans ?_ hle⟩
      by_cases hrel : s.relation = rel
      · have hle := hcounted s hs (.inl ⟨v, hv, hrem⟩) hrel
        simp only [committedPending, hrel, update_self] at hle ⊢
        exact_mod_cast hle
      · simp only [committedPending, update_of_ne hrel, le_refl]
    · exact fun hno rel' r x hr hx => hno rel' r x (hold rel' r _ hr hx) hx
    · intro s hs hw hc
      by_cases hrel : s.relation = rel
      · have hle := hcounted s hs (hc.imp_right fun h => by simp [h]) hrel
        simp only [viewPending, committedPending, hrel, update_self] at hle ⊢
        exact viewPending_write hheld hle
      · simp only [viewPending, update_of_ne hrel, le_refl]

/-! ### A batch -/

/-- Session `i` has locked the job of `s` and no other one. -/
structure Jobs.Tx (J : Jobs) (s : BackfillSpec) (i : Nat) (v : Versioned Job) (j : Job) (w : World) : Prop where
  row : w.jobs (J.key s) = some v
  newer : v.newer = some (i, j)
  only : ∀ s' ∈ J.specs, s' ≠ s → Unlocked (J.key s') i w

/-- The transaction of a running job that has counted its rows: of the rows that its count is about, those
that the session sees pending and `n` more are left. -/
def Jobs.Filling (J : Jobs) (s : BackfillSpec) (i n : Nat) (w : World) : Prop :=
  ∃ v j, J.Tx s i v j w ∧ v.committed.state = .running ∧ j.state = .running ∧ Counting (J.key s) i w ∧
    (viewPending i s w : Int) + n ≤ j.remaining

/-- A transaction that can be committed: it has changed nothing, or it has completed the job, or rows are left. -/
def Jobs.Commits (J : Jobs) (s : BackfillSpec) (i : Nat) (w : World) : Prop :=
  ∃ v j, J.Tx s i v j w ∧ (j = v.committed ∧ NoRows i w ∨ v.committed.state = .running ∧ Counting (J.key s) i w ∧
    (j.state = .complete ∧ viewPending i s w = 0 ∨ j.state = .running ∧ 0 < j.remaining ∧ (viewPending i s w : Int) ≤ j.remaining))

theorem Jobs.Tx.working (h : J.Tx s i v j w) (hrun : v.committed.state = .running) : Working (J.key s) i w :=
  ⟨v, j, h.row, h.newer, hrun⟩

/-- A job that another session has locked is another one. -/
theorem Jobs.Tx.ne (h : J.Tx s i v j w) {v' : Versioned Job} {n : Nat} {x : Job} (hn : i ≠ n) (hv' : w.jobs (J.key s') = some v')
    (hx : v'.newer = some (n, x)) : s' ≠ s := by
  rintro rfl
  obtain rfl := some.inj (h.row.symm.trans hv')
  exact hn (Prod.mk.inj (some.inj (h.newer.symm.trans hx))).1

theorem Jobs.Tx.rely (h : J.Tx s i v j w) (hs : s ∈ J.specs) (hR : J.Rely i w w') : J.Tx s i v j w' :=
  ⟨hR.locked s hs v j h.row h.newer, h.newer, fun s' hs' hne => hR.unlocked s' hs' (h.only s' hs' hne)⟩

theorem Jobs.Filling.rely {n : Nat} (h : J.Filling s i n w) (hs : s ∈ J.specs) (hR : J.Rely i w w') : J.Filling s i n w' := by
  obtain ⟨v, j, htx, hrun, hj, hc, hle⟩ := h
  have hw := htx.working hrun
  have hpending := hR.pending s hs hw hc
  exact ⟨v, j, htx.rely hs hR, hrun, hj, rely_counting hR hs hw hc, by omega⟩

theorem Jobs.Commits.rely (h : J.Commits s i w) (hs : s ∈ J.specs) (hR : J.Rely i w w') : J.Commits s i w' := by
  obtain ⟨v, j, htx, ⟨hj, hno⟩ | ⟨hrun, hc, hend⟩⟩ := h
  · exact ⟨v, j, htx.rely hs hR, .inl ⟨hj, hR.noRows hno⟩⟩
  · have hw := htx.working hrun
    have hpending := hR.pending s hs hw hc
    refine ⟨v, j, htx.rely hs hR, .inr ⟨hrun, rely_counting hR hs hw hc, ?_⟩⟩
    rcases hend with ⟨hj, hzero⟩ | ⟨hj, hpos, hle⟩
    · exact .inl ⟨hj, by omega⟩
    · exact .inr ⟨hj, hpos, by omega⟩

/-- The rows are counted. -/
theorem Jobs.Sound.countPending (h : J.Sound w) (hs : s ∈ J.specs) (hw : Working (J.key s) i w)
    (he : exec i (.countPending (J.key s)) w = some w') : J.Step i w w' := by
  simp only [exec] at he
  split_ifs at he
  cases he
  refine ⟨{ h with }, fun n hn => { Jobs.Rely.refl J n w with counting := ?_ }, fun _ _ h => h, fun _ _ hc hne => absurd hc hne⟩
  intro s' hs' hw' hc
  have hk : J.key s' ≠ J.key s := fun hk => hn (h.unique_working hs hs' hw hw')
  simpa [update_of_ne hk] using hc

/-- A batch of rows is filled. -/
theorem Jobs.Sound.fillBatch (h : J.Sound w) (hs : s ∈ J.specs) (hw : Working (J.key s) i w) {size : Nat}
    (he : exec i (.fillBatch s size) w = some w') : J.Step i w w' ∧ w'.jobs = w.jobs ∧ w'.counted = w.counted ∧
      (NoRows i w → viewPending i s w' + changedCount i (w'.tables s.relation) = viewPending i s w) := by
  simp only [exec] at he
  split_ifs at he
  obtain ⟨rows, hrows, rfl⟩ := map_eq_some_iff.mp he
  have hfill := Backfill.fillRows_rows hrows
  -- a written row was there, or it is one of this session
  have hold : ∀ rel r n x, r ∈ update w.tables s.relation rows rel → r.cells.newer = some (n, x) →
      n = i ∨ ∃ r₀ ∈ w.tables rel, r₀.cells.newer = some (n, x) := by
    intro rel r n x hr hx
    by_cases hrel : rel = s.relation
    · subst hrel
      rw [update_self] at hr
      obtain ⟨r₀, hr₀, rfl | ⟨-, -, c, -, rfl⟩⟩ := Fallible.forall₂_mem hfill.flip r hr
      · exact .inr ⟨r, hr₀, hx⟩
      · cases hx
        exact .inl rfl
    · rw [update_of_ne hrel] at hr
      exact .inr ⟨r, hr, hx⟩
  have hpending : ∀ s', committedPending s' { w with tables := update w.tables s.relation rows } = committedPending s' w := by
    intro s'
    by_cases hrel : s'.relation = s.relation
    · have hmap := congrArg (List.countP s'.pending) (committed_fillRows hfill)
      simpa [committedPending, hrel, countP_map, comp_def] using hmap
    · simp [committedPending, update_of_ne hrel]
  refine ⟨⟨{ h with rows := ?_, count := ?_ }, fun n hn => { Jobs.Rely.refl J n w with noRows := ?_, pending := ?_ }, fun _ _ h => h,
    fun _ _ hc hne => absurd hc hne⟩, rfl, rfl, fun hno => ?_⟩
  · intro rel r n x hr hx
    rcases hold rel r n x hr hx with rfl | ⟨r₀, hr₀, hx₀⟩
    · exact ⟨s, hs, hw⟩
    · exact h.rows rel r₀ n x hr₀ hx₀
  · intro s' hs' v hv hne hrem
    rw [hpending]
    exact h.count s' hs' v hv hne hrem
  · intro hno rel r x hr hx
    rcases hold rel r n x hr hx with rfl | ⟨r₀, hr₀, hx₀⟩
    · exact hn rfl
    · exact hno rel r₀ x hr₀ hx₀
  · exact fun s' hs' hw' _ => absurd (h.unique_working hs hs' hw hw') hn
  · simp only [viewPending, update_self]
    refine pending_fillRows (fun r hr => ?_) hfill
    by_contra hne
    obtain ⟨⟨n, x⟩, hx⟩ := ne_none_iff_exists'.mp hne
    obtain ⟨s', hs', hw'⟩ := h.rows _ r n x hr hx
    obtain rfl := h.unique_working hs hs' hw hw'
    exact hno _ r x hr hx

/-- Where session `i` has written no rows, its commit leaves them. -/
theorem commit_noRows (hno : NoRows i w) {rel : Relation} {r : Row} (hr : r ∈ w.tables rel) : r.cells.commit i = r.cells :=
  (ends_commit i r.cells).other fun x => hno rel r x hr

/-- The commit of a batch. -/
theorem Jobs.Sound.commit (h : J.Sound w) (hs : s ∈ J.specs) (hc : J.Commits s i w) (key : Key) : J.Step i w (w.commitTx i key) := by
  obtain ⟨v, j, htx, hend⟩ := hc
  have hself : (w.commitTx i key).jobs (J.key s) = some ⟨j, none⟩ := by
    simp [World.commitTx, htx.row, Versioned.commit, htx.newer]
  -- the other jobs stay
  have hother : ∀ s' ∈ J.specs, s' ≠ s → (w.commitTx i key).jobs (J.key s') = w.jobs (J.key s') := by
    intro s' hs' hne
    cases hv : w.jobs (J.key s') with
    | none => simp [World.commitTx, hv]
    | some v' =>
      simp only [World.commitTx, hv, map_some]
      rw [(ends_commit i v').other fun x => htx.only s' hs' hne v' x hv]
  have htables : ∀ rel, (w.commitTx i key).tables rel = (w.tables rel).map fun r => { r with cells := r.cells.commit i } := fun _ => rfl
  have hsame : NoRows i w → (w.commitTx i key).tables = w.tables := by
    intro hno
    funext rel
    refine (map_congr_left fun r hr => ?_).trans (map_id _)
    rw [commit_noRows hno hr]
    rfl
  have hcomplete : ∀ s' ∈ J.specs, J.Complete s' w → J.Complete s' (w.commitTx i key) := by
    intro s' hs' hc
    by_cases hne : s' = s
    · subst hne
      rw [Jobs.Complete, durable, htx.row, map_some, some.injEq] at hc
      rw [Jobs.Complete, durable, hself, map_some, some.injEq]
      rcases hend with ⟨rfl, -⟩ | ⟨hrun, -⟩
      · exact hc
      · rw [hrun] at hc
        cases hc
    · rw [Jobs.Complete, durable, hother s' hs' hne]
      exact hc
  -- another job that is not complete is none that this session can have written rows for
  have hdone : ∀ s' ∈ J.specs, s' ≠ s → ∀ v', w.jobs (J.key s') = some v' → v'.committed.state ≠ .complete → NoRows i w := by
    intro s' hs' hne v' hv' hnot
    rcases hend with ⟨-, hno⟩ | ⟨hrun, -⟩
    · exact hno
    · exact absurd (h.unique hs' hs hv' htx.row hnot (by simp [hrun])) hne
  refine ⟨⟨?_, ?_, ?_, ?_, ?_⟩, fun n hn => ⟨?_, ?_, ?_, ?_, ?_, ?_⟩, hcomplete, ?_⟩
  · intro rel r' n x hr' hx
    obtain ⟨r, hr, rfl⟩ := mem_map.mp hr'
    obtain ⟨hn, hsame⟩ := (ends_commit i r.cells).of_newer hx
    obtain ⟨s', hs', v', j', hv', hj', hrun⟩ := h.rows rel r n x hr (hsame ▸ hx)
    exact ⟨s', hs', v', j', (hother s' hs' (htx.ne hn hv' hj')).trans hv', hj', hrun⟩
  · intro s' hs' n hn v' x hv' hx
    by_cases hne : s' = s
    · subst hne
      rw [hself] at hv'
      cases hv'
      cases hx
    · rw [hother s' hs' hne] at hv'
      by_cases hni : n = i
      · subst hni
        exact htx.only s' hs' hne v' x hv' hx
      · refine h.tx s' hs' n ?_ v' x hv' hx
        simpa [World.commitTx, update_of_ne hni] using hn
  · intro s' hs' v' hv' hnot hrem
    by_cases hne : s' = s
    · subst hne
      rw [hself] at hv'
      cases hv'
      rcases hend with ⟨rfl, hno⟩ | ⟨hrun, -, ⟨hj, -⟩ | ⟨-, hpos, hle⟩⟩
      · rw [committedPending, hsame hno]
        exact h.count s' hs' v htx.row hnot hrem
      · exact absurd hj hnot
      · rw [committedPending_commit htables]
        exact ⟨hpos, hle⟩
    · rw [hother s' hs' hne] at hv'
      rw [committedPending, hsame (hdone s' hs' hne v' hv' hnot)]
      exact h.count s' hs' v' hv' hnot hrem
  · intro s' hs' v' hv' s'' hs''
    have hmem : s'' ∈ J.specs := (takeWhile_sublist _).subset hs''
    by_cases hne : s' = s
    · subst hne
      exact hcomplete s'' hmem (h.order s' hs' v htx.row s'' hs'')
    · rw [hother s' hs' hne] at hv'
      exact hcomplete s'' hmem (h.order s' hs' v' hv' s'' hs'')
  · exact fun r hr hp s' hs' => hcomplete s' hs' (h.progress r hr hp s' hs')
  · exact hcomplete
  · intro s' hs' v' x hv' hx
    rw [hother s' hs' (htx.ne hn hv' hx), hv']
  · intro s' hs' hu v' x hv' hx
    by_cases hne : s' = s
    · subst hne
      rw [hself] at hv'
      cases hv'
      cases hx
    · exact hu v' x (hother s' hs' hne ▸ hv') hx
  · intro hno rel r' x hr' hx
    obtain ⟨r, hr, rfl⟩ := mem_map.mp hr'
    obtain ⟨-, hsame⟩ := (ends_commit i r.cells).of_newer hx
    exact hno rel r x hr (hsame ▸ hx)
  · intro s' _ _ hc
    show (if w.counted (J.key s') = some i then none else w.counted (J.key s')) = some n
    rw [if_neg fun hi => hn (some.inj (hi.symm.trans hc)), hc]
  · intro s' hs' hw' _
    rcases hend with ⟨-, hno⟩ | ⟨hrun, -⟩
    · rw [viewPending, viewPending, hsame hno]
    · exact absurd (h.unique_working hs hs' (htx.working hrun) hw') hn
  · intro s' hs' hc hnot
    by_cases hne : s' = s
    · subst hne
      rw [Jobs.Complete, durable, hself, map_some] at hc
      rcases hend with ⟨rfl, -⟩ | ⟨-, -, ⟨-, hzero⟩ | ⟨hj, -⟩⟩
      · exact absurd (by rw [Jobs.Complete, durable, htx.row, map_some, hc]) hnot
      · rw [committedPending_commit htables, hzero]
      · simp [hj] at hc
    · exact absurd (by rwa [Jobs.Complete, durable, hother s' hs' hne] at hc) hnot

/-- The jobs in `T` are complete. -/
def Jobs.Done (J : Jobs) (T : BackfillSpec → Prop) (w : World) : Prop := ∀ s ∈ J.specs, T s → J.Complete s w

theorem Jobs.Done.rely {T : BackfillSpec → Prop} (h : J.Done T w) (hR : J.Rely i w w') : J.Done T w' :=
  fun s hs ht => hR.complete s hs (h s hs ht)

theorem Jobs.Done.step {T : BackfillSpec → Prop} (h : J.Done T w) (hstep : J.Step i w w') : J.Done T w' :=
  fun s hs ht => hstep.complete s hs (h s hs ht)

/-! ### Statements that need nothing to be known -/

def plain : Statement → Prop
  | .session | .tryLock _ | .lock _ | .unlock _ | .catalog _ | .leave | .start _ .select | .live _ | .jobRead _ | .beginTx | .jobLock _
  | .rollbackTx | .jobRetry _ | .jobFail _ _ | .jobStatus _ _ | .disconnect _ => True
  | .enter a _ => a ≠ .start .publish
  | .start _ (.insert r) => r.progress < 5
  | .start _ (.update f) => ∀ r, (f r).progress = r.progress ∨ (f r).progress < 5
  | .jobControl _ st => st ≠ .complete
  | _ => False

def isPublish : Statement → Bool
  | .enter (.start .publish) _ => true
  | _ => false

theorem eq_of_isPublish {st : Statement} (h : isPublish st = true) : ∃ v, st = .enter (.start .publish) v := by
  unfold isPublish at h
  split at h
  · exact ⟨_, rfl⟩
  · cases h

/-- The status that a batch returns with shows a job that is running or complete, and no failure is recorded
for a complete job. -/
def Steady (st : Statement) (w : World) : Prop :=
  match st with
  | .jobStatus key true => ∀ state ∈ durable key w, state = .running ∨ state = .complete
  | .jobFail key _ => durable key w ≠ some .complete
  | _ => True

instance (st : Statement) (w : World) : Decidable (Steady st w) :=
  decidable_of_bool (match st with
    | .jobStatus key true => decide (∀ state ∈ durable key w, state = .running ∨ state = .complete)
    | .jobFail key _ => decide (durable key w ≠ some .complete)
    | _ => true) <| by
    unfold Steady
    split <;> simp

/-- A statement on the row of the start. -/
theorem Jobs.Sound.start (h : J.Sound w) {st : RowStmt StartRow} (he : exec i (.start key st) w = some w')
    (hst : plain (.start key st) ∨ J.AllComplete w) : J.Step i w w' := by
  cases he
  refine h.frame rfl rfl rfl (fun _ h => h) fun r hr hp => ?_
  rcases hst with hst | hall
  · by_cases hk : J.startKey = key
    · subst hk
      simp only [update_self] at hr
      cases hrow : w.starts J.startKey with
      | none =>
        rw [hrow] at hr
        cases st with
        | insert r₀ =>
          cases hr
          exact absurd hp (not_le.mpr hst)
        | select | update => cases hr
      | some r₀ =>
        rw [hrow] at hr
        cases st with
        | insert | select =>
          cases hr
          exact h.progress r hrow hp
        | update f =>
          cases hr
          rcases hst r₀ with hsame | hlt
          · exact h.progress r₀ hrow (hsame ▸ hp)
          · exact absurd hp (not_le.mpr hlt)
    · simp only [update_of_ne hk] at hr
      exact h.progress r hr hp
  · exact hall

theorem plain_exec {st : Statement} (hst : plain st) (h : J.Sound w) (ha : Steady st w) (he : exec i st w = some w') : J.Step i w w' := by
  -- a statement that changes nothing of this
  have hself : J.Step i w w := h.frame rfl rfl rfl (fun _ h => h) h.progress
  have htake : ∀ key, J.Step i w (w.takeLock i key) := by
    intro key
    obtain ⟨locks, log, hw⟩ := Backfill.takeLock_eq w i key
    rw [hw]
    exact h.frame rfl rfl rfl (fun _ h => h) h.progress
  cases st with
  | session | jobStatus =>
    cases he
    exact hself
  | tryLock key =>
    cases he
    exact htake key
  | lock key =>
    simp only [exec] at he
    split_ifs at he
    cases he
    exact htake key
  | unlock key =>
    cases he
    obtain ⟨locks, hw⟩ := Backfill.releaseLock_eq w i key
    rw [hw]
    exact h.frame rfl rfl rfl (fun _ h => h) h.progress
  | catalog | enter | leave =>
    cases he
    exact h.frame rfl rfl rfl (fun _ h => h) h.progress
  | start key st => exact h.start he (.inl hst)
  | live | jobRead =>
    simp only [exec] at he
    split_ifs at he
    cases he
    exact hself
  | beginTx =>
    simp only [exec] at he
    split_ifs at he
    cases he
    refine h.frame rfl rfl rfl (fun k hk => ?_) h.progress
    by_cases hki : k = i
    · subst hki
      exact update_self _ _ _
    · exact (update_of_ne hki _ _).trans hk
  | jobLock key => exact h.jobUpdate (f := id) he
  | rollbackTx =>
    cases he
    exact h.rollback (fun _ => rfl) (fun _ => rfl) rfl (fun _ hne => if_neg hne) rfl
  | jobRetry key =>
    simp only [exec] at he
    exact h.updateJob (by exact fun _ _ => ⟨Iff.rfl, rfl⟩) he
  | jobFail key msg =>
    simp only [exec] at he
    refine h.updateJob (fun v hv => ⟨?_, rfl⟩) he
    have hne : v.committed.state ≠ .complete := fun hc => ha (by rw [durable, hv, map_some, hc])
    simp [hne]
  | jobControl key st =>
    obtain ⟨w₁, hw₁, rfl⟩ := map_eq_some_iff.mp he
    have hst : st ≠ .complete := hst
    have hstep : J.Step i w w₁ := by
      refine h.updateJob (fun v _ => ?_) hw₁
      split_ifs with hterm
      · exact ⟨Iff.rfl, rfl⟩
      · refine ⟨?_, rfl⟩
        have hne : v.committed.state ≠ .complete := fun hc => hterm (by simp [hc, JobState.terminal])
        simp [hst, hne]
    exact ⟨{ hstep.sound with }, fun k hk => { hstep.others k hk with }, hstep.complete, hstep.completes⟩
  | disconnect key =>
    cases he
    obtain ⟨locks, hw⟩ := Backfill.releaseLock_eq (w.rollbackTx i) i key
    rw [hw]
    exact h.rollback (fun _ => rfl) (fun _ => rfl) rfl (fun _ hne => if_neg hne) rfl
  | _ => exact hst.elim

/-! ### The system -/

inductive PipelineCall
  | runPipeline (faults : Start.Pipeline.Faults) (fuel : Nat)
  | control (c : Backfill.Config) (s : BackfillSpec) (action : GoString)

def PipelineCall.program (cfg : Config) (p : Start.Pipeline) : PipelineCall → Nat → Prog Statement World Unit Unit
  | .runPipeline faults fuel, me => (Start.runPipeline me cfg p faults fuel).forget
  | .control c s action, me => (Backfill.control me c s action).forget

/-- Runs of one pipeline, and actions on backfills. -/
def pipelines (cfg : Config) (p : Start.Pipeline) : System Statement World PipelineCall Env := ⟨exec, close, env, PipelineCall.program cfg p⟩

/-- What is known about all runs in which the acts are steady. -/
def discipline (cfg : Config) (p : Start.Pipeline) (J : Jobs) : Discipline (pipelines cfg p) where
  Inv := J.Sound
  Rely := J.Rely
  Guar i st w w' := J.Step i w w' ∧ ∀ v, st = .enter (.start .publish) v → J.AllComplete w
  Assumes _ st w := Steady st w
  AssumesEnv e w := J.Spares e w
  refl := Jobs.Rely.refl J
  trans := Jobs.Rely.trans
  others hij _ hG := hG.1.others _ hij
  env hI ha he := ⟨(hI.env ha he).1, (hI.env ha he).2.1⟩
  close hI := ⟨hI.close.sound, hI.close.others⟩

/-! ### The programs -/

section Meets

open Discipline (Returns Meets)

variable {cfg : Config} {p : Start.Pipeline} {σ α β : Type} {c : Backfill.Config}

variable {q : Program σ α} {f : World → Program σ β} {M : β → World → Prop} {T : BackfillSpec → Prop} {st : Statement} {K : World → Prop}
  {n : Nat}

theorem meets_plain (hq : q.Only plain) : (discipline cfg p J).Meets i q w fun _ _ => True := by
  refine Meets.of_only (K := fun _ => True) (fun _ _ => trivial) (fun {st _ _} hst hI _ hA he => ?_) hq trivial
  have hstep := plain_exec hst hI hA he
  refine ⟨hstep.sound, ⟨hstep, ?_⟩, trivial⟩
  rintro v rfl
  exact absurd rfl hst

/-- Session `i` runs `q` from `w` on and keeps to the discipline; where it returns, `M` holds. -/
abbrev Leads (cfg : Config) (p : Start.Pipeline) (J : Jobs) (i : Nat) (q : Program σ α) (w : World) (M : α → World → Prop) : Prop :=
  (discipline cfg p J).Meets i q w (Returns M)

theorem meets_any (hq : q.Only plain) : Leads cfg p J i q w (fun _ _ => True) :=
  (meets_plain hq).mono fun _ _ _ _ _ => trivial

/-- Jobs that are complete stay so. -/
theorem meets_done {Q : Except (σ × Error) α → World → Prop} (h : (discipline cfg p J).Meets i q w Q) (hdone : J.Done T w) :
    (discipline cfg p J).Meets i q w fun r w' => Q r w' ∧ J.Done T w' :=
  Meets.keeps (fun hd hR => hd.rely hR) (fun hd hG => hd.step hG.1) h hdone

/-- A statement, what is known before it and what is known after it. -/
theorem meets_sql [Inhabited σ] {L : World → Prop}
    (hne : isPublish st = false) (hR : ∀ {w w'}, K w → J.Rely i w w' → K w') (hw : K w)
    (hst : ∀ {w₁ w₂}, J.Sound w₁ → K w₁ → Steady st w₁ → exec i st w₁ = some w₂ → J.Step i w₁ w₂ ∧ L w₂)
    (hf : ∀ w₂, L w₂ → Leads cfg p J i (f w₂) w₂ M) : Leads cfg p J i (sql st >>= f) w M := by
  refine Meets.stmt fun w₁ hI hrely hA => ⟨Returns.error, fun w₂ hw₂ => ?_⟩
  obtain ⟨hstep, hL⟩ := hst hI (hR hw hrely) hA hw₂
  refine ⟨hstep.sound, ⟨hstep, fun v hv => ?_⟩, Returns.error, hf w₂ hL⟩
  rw [hv] at hne
  cases hne

/-- The same for a call that cannot fail. -/
theorem meets_always {L : World → Prop} (hR : ∀ {w w'}, K w → J.Rely i w w' → K w') (hw : K w)
    (hst : ∀ {w₁ w₂}, J.Sound w₁ → K w₁ → Steady st w₁ → exec i st w₁ = some w₂ →
      J.Step i w₁ w₂ ∧ (∀ v, st = .enter (.start .publish) v → J.AllComplete w₁) ∧ L w₂)
    (hf : ∀ w₂, L w₂ → Leads cfg p J i (f w₂) w₂ M) : Leads cfg p J i (Prog.always st >>= f) w M := by
  refine Meets.always fun w₁ hI hrely hA w₂ hw₂ => ?_
  obtain ⟨hstep, hpublish, hL⟩ := hst hI (hR hw hrely) hA hw₂
  exact ⟨hstep.sound, ⟨hstep, hpublish⟩, hf w₂ hL⟩

/-- `set …` -/
theorem meets_session [Inhabited σ]
    (hR : ∀ {w w'}, K w → J.Rely i w w' → K w') (hw : K w) (hf : ∀ w', K w' → Leads cfg p J i (f w') w' M) :
    Leads cfg p J i (sql .session >>= f) w M := by
  refine meets_sql (L := K) rfl hR hw (fun hI hK hA he => ⟨plain_exec (show plain .session from trivial) hI hA he, ?_⟩) hf
  cases he
  exact hK

/-- The job of the transaction is updated. -/
theorem Jobs.Tx.jobUpdate (h : J.Tx s i v j w) (hs : s ∈ J.specs) {f : Job → Job}
    (he : exec i (.jobUpdate (J.key s) f) w = some w') :
    J.Tx s i (v.write i (f j)) (f j) w' ∧ w'.tables = w.tables ∧ w'.counted = w.counted := by
  have hview : v.view i = j := by simp [Versioned.view, h.newer]
  simp only [exec, h.row] at he
  split_ifs at he
  cases he
  refine ⟨⟨by simp [hview], rfl, fun s' hs' hne v' x hv' => ?_⟩, rfl, rfl⟩
  have hk : J.key s' ≠ J.key s := fun hk => hne (J.inj s' hs' s hs hk)
  exact h.only s' hs' hne v' x (by simpa [update_of_ne hk] using hv')

theorem Jobs.Tx.counting (h : J.Tx s i v j w) {j' : Job} (h' : J.Tx s i (v.write i j') j' w') (hcounted : w'.counted = w.counted)
    (hc : Counting (J.key s) i w) : Counting (J.key s) i w' := by
  rcases hc with ⟨v', hv', hrem⟩ | hc
  · rw [h.row] at hv'
    cases hv'
    exact .inl ⟨_, h'.row, hrem⟩
  · exact .inr (hcounted ▸ hc)

/-- An update that keeps `Filling`. -/
theorem Jobs.Filling.jobUpdate {m : Nat} (h : J.Filling s i n w) (hs : s ∈ J.specs) {f : Job → Job}
    (hf : ∀ j, (f j).state = j.state ∧ ∀ x : Int, x + n ≤ j.remaining → 0 ≤ x → x + m ≤ (f j).remaining)
    (he : exec i (.jobUpdate (J.key s) f) w = some w') : J.Filling s i m w' := by
  obtain ⟨v, j, htx, hrun, hj, hc, hle⟩ := h
  obtain ⟨htx', htables, hcounted⟩ := htx.jobUpdate hs he
  refine ⟨_, f j, htx', hrun, (hf j).1.trans hj, htx.counting htx' hcounted hc, ?_⟩
  rw [viewPending, htables]
  exact (hf j).2 _ hle (Int.natCast_nonneg _)

/-- What is known when a running job is locked. -/
structure Locked (J : Jobs) (s : BackfillSpec) (i : Nat) (v : Versioned Job) (j : Job) (w : World) : Prop where
  tx : J.Tx s i v j w
  running : v.committed.state = .running
  state : j.state = .running
  noRows : NoRows i w

theorem Locked.rely (h : Locked J s i v j w) (hs : s ∈ J.specs) (hR : J.Rely i w w') : Locked J s i v j w' :=
  ⟨h.tx.rely hs hR, h.running, h.state, hR.noRows h.noRows⟩

theorem meets_countRows (hs : s ∈ J.specs) (hc : jobKey c s = J.key s) (h : Locked J s i v j w)
    (hcount : 0 ≤ j.remaining → J.Filling s i 0 w) :
    Leads cfg p J i (Backfill.countRows i c s j) w fun _ w' => J.Filling s i 0 w' ∧ NoRows i w' := by
  unfold Backfill.countRows
  rw [hc]
  split_ifs with hneg
  · refine meets_sql (K := Locked J s i v j) (L := fun w => Locked J s i v j w ∧ w.counted (J.key s) = some i) rfl
      (fun h hR => h.rely hs hR) h (fun hI h _ he => ⟨hI.countPending hs (h.tx.working h.running) he, ?_⟩) fun w₂ h₂ => ?_
    · simp only [exec] at he
      split_ifs at he
      cases he
      exact ⟨{ h with tx := { h.tx with } }, update_self _ _ _⟩
    -- the count is right from here on
    refine meets_sql (K := fun w => Locked J s i v j w ∧ w.counted (J.key s) = some i ∧ viewPending i s w ≤ viewPending i s w₂)
      (L := fun w => J.Filling s i 0 w ∧ NoRows i w) rfl (fun h hR => ?_) ⟨h₂.1, h₂.2, le_refl _⟩ (fun hI h _ he => ⟨hI.jobUpdate he, ?_⟩)
      fun w₃ h₃ => ?_
    · have hw := h.1.tx.working h.1.running
      exact ⟨h.1.rely hs hR, hR.counting s hs hw h.2.1, (hR.pending s hs hw (.inr h.2.1)).trans h.2.2⟩
    · obtain ⟨htx, htables, hcounted⟩ := h.1.tx.jobUpdate hs he
      refine ⟨⟨_, _, htx, h.1.running, h.1.state, .inr (hcounted ▸ h.2.1), ?_⟩, fun rel r x hr => h.1.noRows rel r x (htables ▸ hr)⟩
      rw [viewPending, htables]
      have hle := h.2.2
      simp only [viewPending] at hle ⊢
      omega
    · exact Returns.ok h₃
  · exact Returns.ok ⟨hcount (not_lt.mp hneg), h.noRows⟩

theorem meets_fill (hs : s ∈ J.specs) (hc : jobKey c s = J.key s) (h : J.Filling s i 0 w) (hno : NoRows i w) :
    Leads cfg p J i (Backfill.fill i c s) w fun _ w' => J.Commits s i w' := by
  unfold Backfill.fill
  rw [hc]
  refine meets_sql (K := fun w => J.Filling s i 0 w ∧ NoRows i w) (L := fun w => J.Filling s i (changedCount i (w.tables s.relation)) w) rfl
    (fun h hR => ⟨h.1.rely hs hR, hR.noRows h.2⟩) ⟨h, hno⟩ (fun hI h _ he => ?_) fun w₂ h₂ => ?_
  · obtain ⟨v, j, htx, hrun, hj, hcount, hle⟩ := h.1
    obtain ⟨hstep, hjobs, hcounted, hpending⟩ := hI.fillBatch hs (htx.working hrun) he
    refine ⟨hstep, v, j, ⟨hjobs ▸ htx.row, htx.newer, ?_⟩, hrun, hj, ?_, ?_⟩
    · exact fun s' hs' hne v' x hv' => htx.only s' hs' hne v' x (hjobs ▸ hv')
    · rw [Counting, hjobs, hcounted]
      exact hcount
    · have heq := hpending h.2
      omega
  refine meets_sql (K := J.Filling s i (changedCount i (w₂.tables s.relation))) (L := J.Filling s i 0) rfl (fun h hR => h.rely hs hR) h₂
    (fun hI h _ he => ⟨hI.jobUpdate he, h.jobUpdate hs (fun j => ⟨?_, fun x hx hx0 => ?_⟩) he⟩) fun w₃ h₃ => ?_
  · rfl
  · simp only [Backfill.advance]
    omega
  refine meets_sql (K := J.Filling s i 0) (L := J.Filling s i 0) rfl (fun h hR => h.rely hs hR) h₃ (fun hI h _ he => ?_) fun w₄ h₄ => ?_
  · simp only [exec] at he
    split_ifs at he
    cases he
    refine ⟨hI.frame rfl rfl rfl (fun _ h => h) hI.progress, ?_⟩
    obtain ⟨v, j, htx, hrest⟩ := h
    exact ⟨v, j, ⟨htx.row, htx.newer, htx.only⟩, hrest⟩
  split_ifs with hzero
  · -- no row is left
    refine meets_sql (K := fun w => J.Filling s i 0 w ∧ viewPending i s w = 0) (L := J.Commits s i) rfl (fun h hR => ?_) ⟨h₄, hzero⟩
      (fun hI h _ he => ⟨hI.jobUpdate he, ?_⟩) fun w₅ h₅ => Returns.ok h₅
    · obtain ⟨v, j, htx, hrun, hj, hcount, hle⟩ := h.1
      have hpending := hR.pending s hs (htx.working hrun) hcount
      exact ⟨h.1.rely hs hR, by omega⟩
    · obtain ⟨v, j, htx, hrun, hj, hcount, hle⟩ := h.1
      obtain ⟨htx', htables, hcounted⟩ := htx.jobUpdate hs he
      refine ⟨_, _, htx', .inr ⟨hrun, htx.counting htx' hcounted hcount, .inl ⟨rfl, ?_⟩⟩⟩
      rw [viewPending, htables]
      exact h.2
  · obtain ⟨v, j, htx, hrun, hj, hcount, hle⟩ := h₄
    have hpos : 0 < viewPending i s w₄ := Nat.pos_of_ne_zero hzero
    exact Returns.ok ⟨v, j, htx, .inr ⟨hrun, hcount, .inr ⟨hj, by omega, by omega⟩⟩⟩

/-- Without rows of its own a session sees what is committed. -/
theorem viewPending_noRows (hno : NoRows i w) (s : BackfillSpec) : viewPending i s w = committedPending s w := by
  refine countP_congr fun r hr => ?_
  have hview : r.cells.view i = r.cells.committed := by
    rw [← commit_committed, commit_noRows hno hr]
  rw [hview]

/-- Before it locks its job, a transaction has locked none. -/
theorem noRows_of_unlocked (h : J.Sound w) (hu : ∀ s ∈ J.specs, Unlocked (J.key s) i w) : NoRows i w := by
  intro rel r x hr hx
  obtain ⟨s, hs, v, j, hv, hj, -⟩ := h.rows rel r i x hr hx
  exact hu s hs v j hv hj

/-- The lock of the job. -/
theorem tx_of_jobLock (h : J.Sound w) (hs : s ∈ J.specs) (hu : ∀ s ∈ J.specs, Unlocked (J.key s) i w)
    (he : exec i (.jobLock (J.key s)) w = some w') (hv : w'.jobs (J.key s) = some v) :
    J.Tx s i v v.committed w' ∧ v.view i = v.committed ∧ NoRows i w' := by
  have hno := noRows_of_unlocked h hu
  obtain ⟨hv₀, rfl⟩ | ⟨v₀, hv₀, hown, -, rfl⟩ := exec_jobUpdate (f := id) he
  · rw [hv₀] at hv
    cases hv
  · simp only [update_self, id_eq, some.injEq] at hv
    have hnone : v₀.newer = none := by
      cases hx : v₀.newer with
      | none => rfl
      | some q =>
        obtain rfl := hown q.1 q.2 hx
        exact absurd hx (hu s hs v₀ q.2 hv₀)
    rw [view_of_newer_none hnone] at hv
    subst hv
    refine ⟨⟨by simp [view_of_newer_none hnone], rfl, fun s' hs' hne v' x hv' => ?_⟩, by simp [Versioned.view, Versioned.write], hno⟩
    have hk : J.key s' ≠ J.key s := fun hk => hne (J.inj s' hs' s hs hk)
    exact hu s' hs' v' x (by simpa [update_of_ne hk] using hv')

theorem meets_work (hs : s ∈ J.specs) (hc : jobKey c s = J.key s) (hu : ∀ s ∈ J.specs, Unlocked (J.key s) i w) :
    Leads cfg p J i (Backfill.work i c s) w fun _ w' => J.Commits s i w' := by
  have hR : ∀ {w w'}, (∀ s ∈ J.specs, Unlocked (J.key s) i w) → J.Rely i w w' → ∀ s ∈ J.specs, Unlocked (J.key s) i w' :=
    fun hu hR s hs => hR.unlocked s hs (hu s hs)
  refine meets_session hR hu fun w₁ hu => meets_session hR hu fun w₂ hu => meets_session hR hu fun w₃ hu => ?_
  rw [hc]
  refine meets_sql (L := fun w => J.Sound w ∧ ∀ v, w.jobs (J.key s) = some v → J.Tx s i v v.committed w ∧ v.view i = v.committed ∧ NoRows i w)
    rfl hR hu (fun hI hu _ he => ?_) fun w₄ h₄ => ?_
  · have hstep := hI.jobUpdate (f := id) he
    exact ⟨hstep, hstep.sound, fun v hv => tx_of_jobLock hI hs hu he hv⟩
  obtain ⟨hsound, htx⟩ := h₄
  cases hv : w₄.jobs (J.key s) with
  | none => exact Returns.error
  | some v =>
    obtain ⟨htx, hview, hno⟩ := htx v hv
    dsimp only
    rw [hview]
    split_ifs with hdigest hrun
    · exact Returns.error
    · exact Returns.ok ⟨v, v.committed, htx, .inl ⟨rfl, hno⟩⟩
    · have hrun := not_not.mp hrun
      refine Meets.seq (meets_countRows hs hc ⟨htx, hrun, hrun, hno⟩ fun hrem => ?_) fun _ w₅ h₅ => meets_fill hs hc h₅.1 h₅.2
      -- an earlier batch has counted
      have hcount := (hsound.count s hs v hv (by simp [hrun]) hrem).2
      refine ⟨v, v.committed, htx, hrun, hrun, .inl ⟨v, hv, hrem⟩, ?_⟩
      rw [viewPending_noRows hno]
      simpa using hcount

theorem meets_batch (hs : s ∈ J.specs) (hc : jobKey c s = J.key s) :
    Leads cfg p J i (Backfill.batch i c s) w fun _ _ => True := by
  refine meets_sql (K := fun _ => True) (L := fun w => ∀ s ∈ J.specs, Unlocked (J.key s) i w) rfl (fun _ _ => trivial) trivial
    (fun hI _ hA he => ⟨plain_exec (show plain .beginTx from trivial) hI hA he, ?_⟩) fun w₁ hu => ?_
  · simp only [exec] at he
    split_ifs at he with htx
    cases he
    exact fun s hs => hI.tx s hs i (by simpa using htx)
  refine Meets.recover (Meets.seq (meets_work hs hc hu) fun n w₂ h₂ => ?_) fun e w₂ => meets_any ((Prog.Only.attempt trivial).bind fun _ => trivial)
  refine meets_sql (K := J.Commits s i) (L := fun _ => True) rfl (fun h hR => h.rely hs hR) h₂ (fun hI h _ he => ⟨?_, trivial⟩)
    fun w₃ _ => Returns.ok trivial
  simp only [exec] at he
  split_ifs at he
  cases he
  exact hI.commit hs h _

/-- What the status that a batch returns with says: rows are left, or the job is complete. -/
def Reports (J : Jobs) (s : BackfillSpec) (st : Backfill.Status) (w : World) : Prop :=
  st.state = some .running ∧ st.remaining ≠ 0 ∨ st.state = some .complete ∧ J.Complete s w

theorem Reports.rely {st : Backfill.Status} (h : Reports J s st w) (hs : s ∈ J.specs) (hR : J.Rely i w w') : Reports J s st w' :=
  h.imp_right fun hc => ⟨hc.1, hR.complete s hs hc.2⟩

theorem Reports.step {st : Backfill.Status} (h : Reports J s st w) (hs : s ∈ J.specs) (hstep : J.Step i w w') : Reports J s st w' :=
  h.imp_right fun hc => ⟨hc.1, hstep.complete s hs hc.2⟩

theorem meets_readStatus (hs : s ∈ J.specs) (hc : jobKey c.withSchema s = J.key s) :
    Leads cfg p J i (Backfill.readStatus true c s) w (Reports J s) := by
  refine meets_checked fun c' hc' => meets_checked fun _ _ => ?_
  obtain rfl := Backfill.defaults_ok hc'
  have hR : ∀ {w w' : World}, True → J.Rely i w w' → True := fun _ _ => trivial
  refine meets_session hR trivial fun w₁ _ => meets_session hR trivial fun w₂ _ => ?_
  refine Meets.seq (meets_any (Backfill.only_validateExisting trivial)) fun _ w₃ _ => ?_
  rw [hc]
  refine meets_sql (K := fun _ => True) (L := fun w => J.Sound w ∧ ∀ state ∈ durable (J.key s) w, state = .running ∨ state = .complete) rfl hR trivial
    (fun hI _ hA he => ⟨plain_exec (show plain (.jobStatus (J.key s) true) from trivial) hI hA he, ?_⟩) fun w₄ h₄ => ?_
  · cases he
    exact ⟨hI, hA⟩
  cases hv : w₄.jobs (J.key s) with
  | none => exact Returns.error
  | some v =>
    have hstate := h₄.2 v.committed.state (by simp [durable, hv])
    refine Returns.ok ?_
    rcases hstate with hrun | hcomplete
    · -- a running job that has counted its rows has rows left
      refine .inl ⟨congrArg some hrun, fun hzero => ?_⟩
      have hzero : v.committed.remaining = 0 := hzero
      have hpos := (h₄.1.count s hs v hv (by simp [hrun]) (by omega)).1
      omega
    · exact .inr ⟨congrArg some hcomplete, by rw [Jobs.Complete, durable, hv, map_some, hcomplete]⟩

theorem meets_attemptOnce (hs : s ∈ J.specs) (hc : jobKey c s = J.key s) (hc' : c.withSchema = c) {fault : Option GoString}
    {onFault : Option GoString → Program Backfill.Status Backfill.Status}
    (h : ∀ code w, Leads cfg p J i (onFault code) w (Reports J s)) :
    Leads cfg p J i (Backfill.attemptOnce i c s fault onFault) w (Reports J s) := by
  refine Meets.seq (M := fun _ _ => True) (Meets.recover ?_ fun e w₁ => Returns.ok trivial) fun r w₁ _ => ?_
  · exact Meets.seq (meets_batch hs hc) fun n w₁ _ => Returns.ok trivial
  · cases r with
    | error e => exact h _ _
    | ok n => exact Meets.seq (Meets.mapError (meets_readStatus hs (by rw [hc', hc]))) fun st w₂ h₂ => Returns.ok h₂

theorem meets_recordError (code : Option GoString) :
    Leads cfg p J i (Backfill.recordError c s code) w (Reports J s) := by
  refine Meets.seq (meets_any (Prog.Only.attempt trivial)) fun _ w₁ _ => ?_
  exact Meets.seq (meets_any (only_orZero (Backfill.only_readStatus trivial trivial fun _ => trivial))) fun _ w₂ _ => Returns.error

theorem meets_attempts (hs : s ∈ J.specs) (hc : jobKey c s = J.key s) (hc' : c.withSchema = c) (faults : Backfill.Faults) (left attempt : Nat) :
    Leads cfg p J i (Backfill.attempts i c s faults left attempt) w (Reports J s) := by
  induction left generalizing attempt w with
  | zero => exact meets_attemptOnce hs hc hc' fun code w => meets_recordError code
  | succ left ih =>
    refine meets_attemptOnce hs hc hc' fun code w => ?_
    split_ifs
    · refine Meets.seq (meets_any (Prog.Only.attempt trivial)) fun _ w₁ _ => ?_
      exact meets_session (K := fun _ => True) (fun _ _ => trivial) trivial fun w₂ _ => ih _
    · exact meets_recordError code

/-- Complete jobs over a program of plain statements, and over one such statement. -/
theorem meets_any_done (hq : q.Only plain) (hdone : J.Done T w) : Leads cfg p J i q w fun _ => J.Done T :=
  (meets_done (meets_plain hq) hdone).mono fun _ _ h _ _ => h.2

theorem meets_sql_done [Inhabited σ] (hst : plain st) (hdone : J.Done T w) (hf : ∀ w', J.Done T w' → Leads cfg p J i (f w') w' M) :
    Leads cfg p J i (sql st >>= f) w M := by
  refine meets_sql ?_ (fun h hR => h.rely hR) hdone (fun hI h hA he => ?_) hf
  · rw [← Bool.not_eq_true]
    intro hp
    obtain ⟨v, rfl⟩ := eq_of_isPublish hp
    exact hst rfl
  · have hstep := plain_exec hst hI hA he
    exact ⟨hstep, h.step hstep⟩

theorem meets_ensureJob (hs : s ∈ J.specs) (hc : jobKey c s = J.key s) (hearlier : J.Done (· ∈ J.earlier s) w) :
    Leads cfg p J i (Backfill.ensureJob c s) w fun _ _ => True := by
  unfold Backfill.ensureJob
  rw [hc]
  refine meets_sql (L := fun _ => True) rfl (fun h hR => h.rely hR) hearlier
    (fun hI h _ he => ⟨hI.jobInsert hs ⟨rfl, rfl⟩ (fun s' hs' => h s' ((takeWhile_sublist _).subset hs') hs') he, trivial⟩) fun w₁ _ => ?_
  refine meets_any ((only_sql trivial).bind fun w => ?_)
  cases w.jobs (J.key s) with
  | none => trivial
  | some v =>
    show Prog.Only _ (if _ then _ else _)
    split_ifs <;> trivial

theorem meets_runBatch (hs : s ∈ J.specs) (hc : jobKey c.withSchema s = J.key s) (faults : Backfill.Faults)
    (hearlier : J.Done (· ∈ J.earlier s) w) : Leads cfg p J i (Backfill.runBatch i c s faults) w (Reports J s) := by
  refine meets_checked fun c' hc' => meets_checked fun _ _ => ?_
  have hagain := Backfill.withSchema_again hc'
  obtain rfl := Backfill.defaults_ok hc'
  refine meets_sql_done trivial hearlier fun w₁ h₁ => Meets.seq (M := Reports J s) ?_ fun st w₂ h₂ => ?_
  · refine Meets.recover ?_ fun e w₂ => ?_
    · refine meets_sql_done trivial h₁ fun w₂ h₂ => meets_sql_done trivial h₂ fun w₃ h₃ => ?_
      refine Meets.seq (meets_any_done (Backfill.only_validateLive trivial) h₃) fun _ w₄ h₄ => ?_
      refine Meets.seq (meets_any_done (only_ensure (fun _ => trivial) _ _ _ _) h₄) fun _ w₅ h₅ => ?_
      refine meets_sql_done trivial h₅ fun w₆ h₆ => ?_
      split_ifs
      · exact Returns.error
      · exact Meets.seq (meets_ensureJob hs hc h₆) fun _ w₇ _ => meets_attempts hs hc hagain faults _ _
    · exact meets_always (K := fun _ => True) (L := fun _ => True) (fun _ _ => trivial) trivial
        (fun hI _ hA he => ⟨plain_exec (show plain (.disconnect _) from trivial) hI hA he, nofun, trivial⟩) fun w₂ _ => Returns.error
  · refine meets_always (K := Reports J s st) (L := Reports J s st) (fun h hR => h.rely hs hR) h₂ (fun hI h hA he => ?_) fun w₃ h₃ => Returns.ok h₃
    have hstep := plain_exec (show plain (.disconnect _) from trivial) hI hA he
    exact ⟨hstep, nofun, h.step hs hstep⟩

theorem meets_runFrom (hs : s ∈ J.specs) (hc : jobKey c.withSchema s = J.key s) (faults : Nat → Backfill.Faults) (fuel n : Nat)
    (hearlier : J.Done (· ∈ J.earlier s) w) :
    Leads cfg p J i (Backfill.runFrom i c s faults fuel n) w fun _ w' => J.Complete s w' := by
  induction fuel generalizing n w with
  | zero => trivial
  | succ fuel ih =>
    refine Meets.seq (M := fun st w' => Reports J s st w' ∧ J.Done (· ∈ J.earlier s) w') ?_ fun st w₁ h₁ => ?_
    · refine (meets_done (meets_runBatch hs hc (faults n) hearlier) hearlier).mono fun r w' h st hst => ?_
      exact ⟨h.1 st hst, h.2⟩
    · split_ifs with hend
      · rcases h₁.1 with ⟨hrun, hleft⟩ | ⟨-, hcomplete⟩
        · exact absurd hend (by simp [hrun, hleft])
        · exact Returns.ok hcomplete
      · exact meets_sql_done trivial h₁.2 fun w₂ h₂ => ih _ h₂

theorem meets_run (hs : s ∈ J.specs) (hc : jobKey c.withSchema s = J.key s) (faults : Nat → Backfill.Faults) (fuel : Nat)
    (hearlier : J.Done (· ∈ J.earlier s) w) :
    Leads cfg p J i (Backfill.run i c s faults fuel) w fun _ w' => J.Complete s w' := by
  refine meets_checked fun c' hc' => meets_checked fun _ _ => ?_
  have hagain := Backfill.withSchema_again hc'
  obtain rfl := Backfill.defaults_ok hc'
  exact meets_runFrom hs (by rw [hagain, hc]) faults fuel 0 hearlier

/-- What comes before an element of the list. -/
theorem mem_of_mem_takeWhile {q : α → Bool} {l₁ l₂ : List α} {a x : α} (ha : q a = false)
    (hx : x ∈ (l₁ ++ a :: l₂).takeWhile q) : x ∈ l₁ := by
  induction l₁ with
  | nil => simp [ha] at hx
  | cons b l₁ ih =>
    rw [cons_append, takeWhile_cons] at hx
    split_ifs at hx
    · rcases mem_cons.mp hx with rfl | hx
      · exact mem_cons_self
      · exact mem_cons_of_mem _ (ih hx)
    · cases hx

/-- The backfills one after the other. -/
theorem meets_runBackfills (hc : ∀ s, jobKey c.withSchema s = J.key s) (faults : Start.Pipeline.Faults) (fuel n : Nat)
    (done l : List BackfillSpec) (hl : J.specs = done ++ l) (hdone : J.Done (· ∈ done) w) :
    Leads cfg p J i (Start.Pipeline.runBackfills i c faults fuel n l) w fun _ w' => J.AllComplete w' := by
  induction l generalizing n done w with
  | nil =>
    refine Returns.ok fun s hs => hdone s hs ?_
    rwa [hl, append_nil] at hs
  | cons s l ih =>
    have hs : s ∈ J.specs := by simp [hl]
    have hearlier : J.Done (· ∈ J.earlier s) w := fun s' hmem hs' => by
      rw [Jobs.earlier, hl] at hs'
      exact hdone s' hmem (mem_of_mem_takeWhile (by simp) hs')
    refine Meets.seq (M := fun _ w' => J.Complete s w' ∧ J.Done (· ∈ done) w') (Meets.mapError ?_) fun _ w₁ h₁ => ?_
    · exact (meets_done (meets_run hs (hc s) (faults n) fuel hearlier) hdone).mono fun r w' h st hst => ⟨h.1 st hst, h.2⟩
    · refine ih _ (done ++ [s]) (by simp [hl]) fun s' hmem hs' => ?_
      rcases mem_append.mp hs' with hs' | hs'
      · exact h₁.2 s' hmem hs'
      · rw [mem_singleton.mp hs']
        exact h₁.1

theorem only_startStatus (c : Config) (spec : Start.Spec) : (Start.statusOf c spec).Only plain :=
  Start.only_statusOf (P := plain) trivial (fun _ => trivial) c spec

theorem only_acquire (me : Nat) (v : GoString) (taken : Error) {init : Program σ Unit} [Inhabited σ] (hinit : init.Only plain) (c : Config) :
    (acquire me v taken init c).Only plain := by
  refine (only_sql trivial).bind fun w => ?_
  split_ifs
  · trivial
  · refine (only_sql trivial).bind fun _ => (hinit.onError fun _ => ?_).bind fun _ => (only_sql trivial).bind fun _ => trivial
    exact (Prog.Only.attempt trivial).bind fun _ => trivial

section Pipeline

variable (hc : ∀ s, jobKey p.backfillConfig.withSchema s = J.key s) (hspecs : J.specs = p.backfills) (faults : Start.Pipeline.Faults) (fuel : Nat)

include hc hspecs

/-- A phase from number `n` on. -/
theorem meets_action {phase : StartPhase} (hn : Start.phases[n]? = some phase) (hdone : J.Done (fun _ => 5 ≤ n) w) :
    Leads cfg p J i ((p.actions i faults fuel).of phase) w fun _ => J.Done fun _ => 5 ≤ n + 1 := by
  -- the phases before the backfills leave nothing to be known
  have hearly : n + 1 < 5 → ∀ q : Program Start.Status Unit, q.Only plain → Leads cfg p J i q w fun _ => J.Done fun _ => 5 ≤ n + 1 := by
    intro hlt q hq
    exact (meets_plain hq).mono fun _ _ _ _ _ _ _ hle => absurd hle (not_le.mpr hlt)
  have hact : ∀ a v, a ≠ .start .publish → (act a v : Program Start.Status Unit).Only plain := fun a v ha => only_act ha trivial
  match n, hn with
  | 0, hn =>
    cases hn
    exact hearly (by omega) _ (only_lift _)
  | 1, hn =>
    cases hn
    exact hearly (by omega) _ trivial
  | 2, hn | 3, hn =>
    cases hn
    exact hearly (by omega) _ (hact _ _ nofun)
  | 4, hn =>
    cases hn
    exact (meets_runBackfills hc faults fuel 0 [] p.backfills hspecs nofun).mono fun r w' h a ha s hs _ => h a ha s hs
  | 5, hn =>
    cases hn
    -- the publication
    have hR : ∀ {w w'}, J.AllComplete w → J.Rely i w w' → J.AllComplete w' := fun h hR s hs => hR.complete s hs (h s hs)
    refine meets_always (K := J.AllComplete) (L := J.AllComplete) hR (fun s hs => hdone s hs (le_refl 5)) (fun hI h _ he => ?_) fun w₁ h₁ => ?_
    · cases he
      have hstep : J.Step i _ (World.enter _ i (.start .publish) p.spec.newVersion) := hI.frame rfl rfl rfl (fun _ h => h) hI.progress
      exact ⟨hstep, fun _ _ => h, fun s hs => hstep.complete s hs (h s hs)⟩
    · refine Meets.stmt fun w₂ hI hrely hA => ⟨Returns.error, fun w₃ hw₃ => ?_⟩
      have hstep := plain_exec (show plain .leave from trivial) hI hA hw₃
      refine ⟨hstep.sound, ⟨hstep, nofun⟩, Returns.error, Returns.ok fun s hs _ => ?_⟩
      exact hstep.complete s hs (hR h₁ hrely s hs)

theorem meets_runPhases (c : Config) {l : List StartPhase} (hl : Start.phases.drop n = l)
    (hdone : J.Done (fun _ => 5 ≤ n) w) :
    Leads cfg p J i (Start.runPhases c p.spec (p.actions i faults fuel) none n l) w fun _ w' => J.AllComplete w' := by
  induction l generalizing n w with
  | nil =>
    have hlen : 6 ≤ n := drop_eq_nil_iff.mp hl
    exact Returns.ok fun s hs => hdone s hs (by omega)
  | cons phase l ih =>
    have hn : Start.phases[n]? = some phase := by
      rw [← head?_drop, hl]
      rfl
    refine Meets.seq (M := fun _ => J.Done fun _ => 5 ≤ n + 1) ?_ fun _ w₁ h₁ => ?_
    · refine meets_sql_done ?_ hdone fun w₁ h₁ => ?_
      · exact fun _ => .inl rfl
      refine Meets.seq (Meets.recover (meets_action hc hspecs faults fuel hn h₁) fun e w₂ => ?_) fun _ w₂ h₂ => ?_
      · refine Meets.seq (meets_any (Prog.Only.attempt fun _ => .inl rfl)) fun _ w₃ _ => ?_
        exact Meets.seq (meets_any (only_orZero (only_startStatus c p.spec))) fun _ w₄ _ => Returns.error
      -- the progress is recorded
      refine meets_sql rfl (fun h hR => h.rely hR) h₂ (fun hI h _ he => ?_) fun w₃ h₃ => Returns.ok h₃
      have hstep := hI.start he (by
        by_cases hle : 5 ≤ n + 1
        · exact .inr fun s hs => h s hs hle
        · exact .inl fun r => .inr (not_le.mp hle))
      exact ⟨hstep, h.step hstep⟩
    · refine ih ?_ h₁
      rw [← tail_drop, hl]
      rfl

theorem meets_serve {c : Config} (hkey : c.key = J.startKey) :
    Leads cfg p J i (Start.serve c p.spec (p.actions i faults fuel) none) w fun _ _ => True := by
  refine meets_sql_done (T := fun _ => False) (show (0 : Nat) < 5 by omega) nofun fun w₁ _ => ?_
  refine meets_sql (K := fun _ => True) (L := J.Sound) rfl (fun _ _ => trivial) trivial (fun hI _ hA he => ?_) fun w₂ hsound => ?_
  · have hstep := plain_exec (show plain (.start c.key .select) from trivial) hI hA he
    exact ⟨hstep, hstep.sound⟩
  cases hrow : w₂.starts c.key with
  | none => exact Returns.error
  | some r =>
    dsimp only
    split_ifs
    · exact Returns.error
    · exact meets_any (only_startStatus _ _)
    · refine Meets.seq (meets_runPhases hc hspecs faults fuel c rfl fun s hs hle => ?_) fun _ w₃ h₃ => ?_
      · exact hsound.progress r (hkey ▸ hrow) hle s hs
      refine meets_sql (K := J.AllComplete) (L := fun _ => True) rfl (fun h hR s hs => hR.complete s hs (h s hs)) h₃
        (fun hI h _ he => ⟨hI.start he (.inr h), trivial⟩) fun w₄ _ => ?_
      exact meets_any (only_startStatus _ _)

theorem meets_runPipeline (hkey : (cfg.withSchema Start.defaultSchema).key = J.startKey) :
    Leads cfg p J i (Start.runPipeline i cfg p faults fuel) w fun _ _ => True := by
  unfold Start.runPipeline
  split_ifs
  · exact meets_any ((only_lift _).bind fun _ => (only_lift _).bind fun _ => trivial)
  · refine meets_checked fun c' hc' => meets_checked fun _ _ => ?_
    obtain rfl := defaults_ok hc'
    refine meets_sql_done (T := fun _ => False) trivial nofun fun w₁ _ => meets_sql_done (T := fun _ => False) trivial nofun fun w₂ _ => ?_
    refine Meets.seq (meets_any (only_acquire _ _ _ (only_ensure (fun _ => trivial) _ _ _ _) _)) fun _ w₃ _ => ?_
    exact meets_serve hc hspecs faults fuel hkey
  · exact Returns.error

end Pipeline

theorem meets_control (c : Backfill.Config) (s : BackfillSpec) (action : GoString) :
    Leads cfg p J i (Backfill.control i c s action) w fun _ _ => True := by
  refine meets_any (Backfill.only_control trivial trivial (fun _ => trivial) fun st hst => ?_)
  -- no action completes a job
  rintro rfl
  simp only [Backfill.actionState] at hst
  split_ifs at hst <;> cases hst

end Meets

/-! ### Publication -/

/-- The jobs of a pipeline.  SHA-256 keeps their keys apart. -/
def jobsOf (cfg : Config) (p : Start.Pipeline)
    (hinj : ∀ s ∈ p.backfills, ∀ s' ∈ p.backfills, jobKey p.backfillConfig.withSchema s = jobKey p.backfillConfig.withSchema s' → s = s') :
    Jobs :=
  ⟨p.backfills, jobKey p.backfillConfig.withSchema, (cfg.withSchema Start.defaultSchema).key, hinj⟩

/-- The acts of a run in which the status that a batch returns with shows a job that is running or complete, no
failure is recorded for a complete job, and the application adds no rows to be filled to a job that has counted
its rows. -/
def SteadyAct (cfg : Config) (p : Start.Pipeline) (J : Jobs) (x : Conf Statement World) (a : Act PipelineCall Env) : Prop :=
  (discipline cfg p J).Allows x a

/-- Nothing of the pipeline has been done. -/
structure Untouched (J : Jobs) (w : World) : Prop where
  jobs : ∀ s ∈ J.specs, w.jobs (J.key s) = none
  start : w.starts J.startKey = none
  rows : ∀ rel r, r ∈ w.tables rel → r.cells.newer = none

theorem Untouched.sound (h : Untouched J w) : J.Sound w := by
  refine ⟨fun rel r i x hr hx => ?_, fun s hs i _ v j hv => ?_, fun s hs v hv => ?_, fun s hs v hv => ?_, fun r hr => ?_⟩
  · rw [h.rows rel r hr] at hx
    cases hx
  · rw [h.jobs s hs] at hv
    cases hv
  · rw [h.jobs s hs] at hv
    cases hv
  · rw [h.jobs s hs] at hv
    cases hv
  · rw [h.start] at hr
    cases hr

section Published

variable (cfg : Config) (p : Start.Pipeline)
  (hinj : ∀ s ∈ p.backfills, ∀ s' ∈ p.backfills, jobKey p.backfillConfig.withSchema s = jobKey p.backfillConfig.withSchema s' → s = s')

theorem meets_call (q : PipelineCall) (i : Nat) (w : World) :
    (discipline cfg p (jobsOf cfg p hinj)).Meets i (q.program cfg p i) w fun _ _ => True := by
  cases q with
  | runPipeline faults fuel => exact ((meets_runPipeline (fun _ => rfl) rfl faults fuel rfl).mono fun _ _ _ => trivial).forget
  | control c s action => exact ((meets_control c s action).mono fun _ _ _ => trivial).forget

/-- Where a job becomes complete, no row is left to be filled. -/
theorem completes_step {x y : Conf Statement World} {a : Act PipelineCall Env} (hx : (discipline cfg p (jobsOf cfg p hinj)).Good x)
    (ha : SteadyAct cfg p (jobsOf cfg p hinj) x a) (hstep : (pipelines cfg p).step x a = some y) (hs : s ∈ p.backfills)
    (hnot : ¬ (jobsOf cfg p hinj).Complete s x.state) (hcomplete : (jobsOf cfg p hinj).Complete s y.state) : committedPending s y.state = 0 := by
  refine hx.act (R := fun w w' => ¬ (jobsOf cfg p hinj).Complete s w → (jobsOf cfg p hinj).Complete s w' → committedPending s w' = 0) ha hstep
    (fun hnot hc => absurd hc hnot) (fun i st w' hG hnot hc => hG.1.completes s hs hc hnot)
    (fun i hnot hc => hx.inv.close.completes s hs hc hnot) (fun e w' he hw' hnot hc => ?_) hnot hcomplete
  subst he
  have hjobs := (hx.inv.env ha hw').2.2
  exact absurd (by rwa [Jobs.Complete, durable, hjobs] at hc) hnot

/-- In such runs a version is published on complete data: when the publish phase begins, every backfill of the
pipeline has been complete at an earlier point of the run at which no row was left to be filled. -/
theorem published_complete {w₀ : World} (h₀ : Untouched (jobsOf cfg p hinj) w₀) {l : List (Act PipelineCall Env)} {x : Conf Statement World}
    (hx : (pipelines cfg p).Reaches (SteadyAct cfg p (jobsOf cfg p hinj)) (System.initial w₀) l x) {i : Nat} {a : Answer} {v : GoString}
    (hnext : x.next (.call i a : Act PipelineCall Env) = some (.enter (.start .publish) v)) {s : BackfillSpec} (hs : s ∈ p.backfills) :
    ∃ l₁ l₂ y, l = l₁ ++ l₂ ∧ (pipelines cfg p).Reaches (SteadyAct cfg p (jobsOf cfg p hinj)) (System.initial w₀) l₁ y ∧
      (pipelines cfg p).Reaches (SteadyAct cfg p (jobsOf cfg p hinj)) y l₂ x ∧
      durable (jobKey p.backfillConfig.withSchema s) y.state = some .complete ∧ committedPending s y.state = 0 := by
  have hgood : ∀ {l x}, (pipelines cfg p).Reaches (SteadyAct cfg p (jobsOf cfg p hinj)) (System.initial w₀) l x →
      (discipline cfg p (jobsOf cfg p hinj)).Good x := fun h => Discipline.reaches (fun q i w _ => meets_call cfg p hinj q i w) h₀.sound h
  -- all jobs are complete now
  have hnow : (jobsOf cfg p hinj).Complete s x.state := by
    cases hsession : x.sessions i with
    | none => simp [Conf.next, hsession] at hnext
    | some q =>
      cases q with
      | done | hang => simp [Conf.next, hsession] at hnext
      | call st k =>
        simp only [Conf.next, hsession, some.injEq] at hnext
        subst hnext
        exact ((hgood hx).guar hsession trivial rfl).2 v rfl s hs
  have hthen : ¬ (jobsOf cfg p hinj).Complete s w₀ := by
    intro hc
    have hnone : w₀.jobs (jobKey p.backfillConfig.withSchema s) = none := h₀.jobs s hs
    simp only [Jobs.Complete, durable, jobsOf, hnone] at hc
    cases hc
  obtain ⟨l₁, b, l₂, y, z, rfl, hy, hnot, hb, hz, hcomplete, hrest⟩ :=
    hx.turns (I := fun z => (jobsOf cfg p hinj).Complete s z.state) hthen hnow
  refine ⟨l₁ ++ [b], l₂, z, by simp, hy.snoc hb hz, hrest, hcomplete, ?_⟩
  exact completes_step cfg p hinj (hgood hy) hb hz hs hnot hcomplete

end Published

/-! ### Two runs -/

instance (J : Jobs) (e : Env) (w : World) : Decidable (J.Spares e w) := by
  unfold Jobs.Spares
  split <;> infer_instance

instance (cfg : Config) (p : Start.Pipeline) (J : Jobs) (x : Conf Statement World) : (a : Act PipelineCall Env) → Decidable (SteadyAct cfg p J x a)
  | .openSession _ _ | .close _ => .isTrue trivial
  | .call i a => inferInstanceAs (Decidable (∀ c ∈ x.next (.call i a : Act PipelineCall Env), Steady c x.state))
  | .env e => inferInstanceAs (Decidable (J.Spares e x.state))

def sampleCfg : Config := ⟨str "postgres://", [], str "primary", str "test", 500⟩

def samplePipeline : Start.Pipeline where
  spec := Start.new (str "release_two") (List.replicate 64 0x61) (str "v1") (str "v2")
  hasExpand := true
  virtualConfig := ⟨str "postgres://", str "primary", str "test"⟩
  virtualSpec := ⟨List.replicate 64 0x61, str "v1", str "v2", .ok ()⟩
  shadowConfig := ⟨str "postgres://", str "primary", str "test"⟩
  shadow := ⟨List.replicate 64 0x61, .ok ()⟩
  backfillConfig := { Backfill.sampleConfig with batchSize := 1 }
  backfills := [Backfill.sampleSpec]

def sampleKey : Key := jobKey samplePipeline.backfillConfig.withSchema Backfill.sampleSpec

theorem sample_inj : ∀ s ∈ samplePipeline.backfills, ∀ s' ∈ samplePipeline.backfills,
    jobKey samplePipeline.backfillConfig.withSchema s = jobKey samplePipeline.backfillConfig.withSchema s' → s = s' := by
  intro s hs s' hs' _
  rw [mem_singleton.mp hs, mem_singleton.mp hs']

/-- A table with `n` rows to be filled. -/
def sampleWorld (n : Nat) : World :=
  { Backfill.sampleWorld true with tables := fun rel => if rel = (str "app", str "orders") then List.replicate n Backfill.sampleRow else [] }

theorem sampleWorld_untouched (n : Nat) : Untouched (jobsOf sampleCfg samplePipeline sample_inj) (sampleWorld n) := by
  refine ⟨fun _ _ => rfl, rfl, fun rel r hr => ?_⟩
  simp only [sampleWorld] at hr
  split_ifs at hr
  · rw [eq_of_mem_replicate hr]
    rfl
  · cases hr

/-- The pipeline from its beginning to the publish phase, with one batch. -/
def wholeRun : List (Act PipelineCall Env) :=
  [Act.openSession 0 (PipelineCall.runPipeline (fun _ _ _ => none) 2)] ++ List.replicate 58 (Act.call 0 .done)

theorem published_complete_sample : ∃ x v, (pipelines sampleCfg samplePipeline).Reaches
      (SteadyAct sampleCfg samplePipeline (jobsOf sampleCfg samplePipeline sample_inj)) (System.initial (sampleWorld 1)) wholeRun x ∧
    x.next (.call 0 .done : Act PipelineCall Env) = some (.enter (.start .publish) v) ∧
    ∃ l₁ l₂ y, wholeRun = l₁ ++ l₂ ∧ (pipelines sampleCfg samplePipeline).Reaches
        (SteadyAct sampleCfg samplePipeline (jobsOf sampleCfg samplePipeline sample_inj)) (System.initial (sampleWorld 1)) l₁ y ∧
      durable sampleKey y.state = some .complete ∧ committedPending Backfill.sampleSpec y.state = 0 := by
  have hrun : ((pipelines sampleCfg samplePipeline).runIf (SteadyAct sampleCfg samplePipeline (jobsOf sampleCfg samplePipeline sample_inj))
      (System.initial (sampleWorld 1)) wholeRun).map (fun x => (x.next (.call 0 .done : Act PipelineCall Env)).map isPublish) =
      some (some true) := by decide +kernel
  obtain ⟨x, hx, h⟩ := map_eq_some_iff.mp hrun
  have hx := System.Reaches.of_runIf hx
  obtain ⟨st, hv, hp⟩ := map_eq_some_iff.mp h
  obtain ⟨v, rfl⟩ := eq_of_isPublish hp
  obtain ⟨l₁, l₂, y, hl, hy, -, hend⟩ := published_complete sampleCfg samplePipeline sample_inj (sampleWorld_untouched 1) hx hv
    (mem_singleton.mpr rfl)
  exact ⟨x, v, hx, hv, l₁, l₂, y, hl, hy, hend⟩

/-- The job is paused after its first batch, and the pipeline goes on. -/
def pausedRun : List (Act PipelineCall Env) :=
  [Act.openSession 0 (PipelineCall.runPipeline (fun _ _ _ => none) 2)] ++ List.replicate 50 (Act.call 0 .done) ++
    [Act.openSession 1 (PipelineCall.control samplePipeline.backfillConfig Backfill.sampleSpec (str "pause"))] ++ List.replicate 3 (Act.call 1 .done) ++
    List.replicate 7 (Act.call 0 .done)

/-- The version is published although its job has never been complete and a row is left to be filled. -/
theorem paused_job_published : ∃ x v, (pipelines sampleCfg samplePipeline).Reaches (fun y _ => durable sampleKey y.state ≠ some .complete)
      (System.initial (sampleWorld 2)) pausedRun x ∧
    x.next (.call 0 .done : Act PipelineCall Env) = some (.enter (.start .publish) v) ∧
    durable sampleKey x.state = some .paused ∧ committedPending Backfill.sampleSpec x.state = 1 := by
  have hrun : ((pipelines sampleCfg samplePipeline).runIf (fun y _ => durable sampleKey y.state ≠ some .complete)
      (System.initial (sampleWorld 2)) pausedRun).map (fun x => ((x.next (.call 0 .done : Act PipelineCall Env)).map isPublish,
        durable sampleKey x.state, committedPending Backfill.sampleSpec x.state)) = some (some true, some .paused, 1) := by decide +kernel
  obtain ⟨x, hx, h⟩ := map_eq_some_iff.mp hrun
  obtain ⟨hnext, hpaused, hone⟩ : _ ∧ _ ∧ _ := by simpa only [Prod.mk.injEq] using h
  obtain ⟨st, hv, hp⟩ := map_eq_some_iff.mp hnext
  obtain ⟨v, rfl⟩ := eq_of_isPublish hp
  exact ⟨x, v, System.Reaches.of_runIf hx, hv, hpaused, hone⟩

end AutoSql.Zdm.Publication
