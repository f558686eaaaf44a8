/-
AutoSql/Executor/Completion.lean

`ObserveCompletion` reads two records of an execution that others wrote: the rows of
the history, and the lifecycle audit.  It accepts them if every step has its confirmed
row, all in one attempt, and if the audit lists what an execution of the plan leaves
behind, with the event `completed` after the work.

Here is the observer, with what follows when it accepts, whatever the records are.
What the executor writes is in `Executor/Evidence.lean`.

Main result: `accepted_proven`.
-/
import AutoSql.Executor.Start

namespace AutoSql.Executor

open Artifacts List

/-! ### The observer -/

def metadataOf (a : VerifiedArtifact) (key : GoString) : GoString := (a.metadata.get? key).getD []

def completionEligible (a : VerifiedArtifact) : Bool :=
  let mode := metadataOf a (str "autosql.operator.mode")
  decide (a.plan.steps ≠ [] ∧ metadataOf a (str "autosql.migration.manifest") = []) &&
    decide (mode = [] ∨ mode = str "transition") &&
    (a.plan.steps.all fun s => decide (s.kind = .executable)) && a.plan.phases.all fun p => decide (p.stepIDs ≠ [])

/-- How the query of the history fails: the table or one of its columns is missing, or anything else. -/
inductive HistoryFault
  | undefined
  | other
  deriving DecidableEq

/-- One row: the steps seen so far and their attempt, which is zero before the first row. -/
def addCompleted (a : VerifiedArtifact) (st : GoSet × Nat) (r : Row) : Except CompletionFailure (GoSet × Nat) :=
  if bindingMatches a r = false ∨ r.state ≠ .confirmed ∨ r.attempt < 1 ∨ GoSet.has st.1 r.stepID = true ∨
      (st.2 ≠ 0 ∧ r.attempt ≠ st.2) then .error ⟨.refused, str "history_invalid"⟩
  else .ok (GoSet.add st.1 r.stepID, r.attempt)

def readCompletedAttempt (a : VerifiedArtifact) (rows : Except HistoryFault (List Row)) : Except CompletionFailure Nat :=
  match rows with
  | .error .undefined => .error ⟨.ineligible, str "history_missing_bindings"⟩
  | .error .other => .error ⟨.retryable, str "history_unavailable"⟩
  | .ok rows => do
    let st ← (rows.filter fun r => r.artifactDigest = a.digest).foldlM (addCompleted a) (GoMap.empty, 0)
    if st.1.size ≠ (GoMap.index Step.id a.plan.steps).size then .error ⟨.refused, str "history_incomplete"⟩
    else pure st.2

/-- The types of events about no step. -/
def plainTypes : List GoString :=
  [str "requested", str "lock_acquired", str "transaction_started", str "contended", str "authorization_refused",
    str "expiry_refused", str "stale"]

/-- The types of events about any step. -/
def stepTypes : List GoString := [str "confirmed", str "intent"]

def completionEventShape (a : VerifiedArtifact) (e : LifecycleEvent) : Bool :=
  if e.type ∈ plainTypes then decide (e.stepID = [])
  else if e.type ∈ stepTypes then a.plan.steps.any fun s => s.id = e.stepID
  else if e.type = str "transaction_committed" then
    a.plan.phases.any fun p => p.transaction = .required && p.stepIDs.getLast? = some e.stepID
  else if e.type = str "completed" then (a.plan.phases.getLast?.bind fun p => p.stepIDs.getLast?) = some e.stepID
  else false

def requiredCompletionAudit (a : VerifiedArtifact) (attempt : Nat) (seen : GoSet) : Bool :=
  let has := fun type step => GoSet.has seen (lifecycleEventID attempt a.digest type step)
  has (str "requested") [] && has (str "lock_acquired") [] && a.plan.phases.all fun p =>
    (p.stepIDs.all fun id => has (str "confirmed") id && (decide (p.transaction ≠ .prohibited) || has (str "intent") id)) &&
      (decide (p.transaction ≠ .required) ||
        has (str "transaction_started") [] && has (str "transaction_committed") (p.stepIDs.getLast?.getD []))

/-- The events seen so far, by identity, and whether `completed` was one of them. -/
structure Scan where
  seen : GoSet
  completed : Bool

/-- The event is about the artifact. -/
def About (a : VerifiedArtifact) (e : LifecycleEvent) : Prop := e.artifactDigest = a.digest ∨ e.executionID = a.digest

instance (a : VerifiedArtifact) (e : LifecycleEvent) : Decidable (About a e) := inferInstanceAs (Decidable (_ ∨ _))

/-- The event is one of this execution and attempt, from the time between its creation and now. -/
structure Bound (a : VerifiedArtifact) (attempt : Nat) (now : Int) (e : LifecycleEvent) : Prop where
  artifactDigest : e.artifactDigest = a.digest
  executionID : e.executionID = a.digest
  planDigest : e.planDigest = a.plan.digest
  bundleDigest : e.bundleDigest = a.guardrailDigest
  target : e.target = targetIdentity a.toArtifact
  attempt_eq : e.attempt = attempt
  created : ¬ e.time < a.createdAt
  past : ¬ now < e.time

instance (a : VerifiedArtifact) (attempt : Nat) (now : Int) (e : LifecycleEvent) : Decidable (Bound a attempt now e) :=
  decidable_of_iff (e.artifactDigest = a.digest ∧ e.executionID = a.digest ∧ e.planDigest = a.plan.digest ∧
      e.bundleDigest = a.guardrailDigest ∧ e.target = targetIdentity a.toArtifact ∧ e.attempt = attempt ∧
      ¬ e.time < a.createdAt ∧ ¬ now < e.time)
    ⟨fun ⟨h₁, h₂, h₃, h₄, h₅, h₆, h₇, h₈⟩ => ⟨h₁, h₂, h₃, h₄, h₅, h₆, h₇, h₈⟩,
      fun ⟨h₁, h₂, h₃, h₄, h₅, h₆, h₇, h₈⟩ => ⟨h₁, h₂, h₃, h₄, h₅, h₆, h₇, h₈⟩⟩

/-- The identity is that of the event, and its step is one of the plan. -/
def Shaped (a : VerifiedArtifact) (e : LifecycleEvent) : Prop :=
  e.eventID = lifecycleEventID e.attempt e.executionID e.type e.stepID ∧ completionEventShape a e = true

instance (a : VerifiedArtifact) (e : LifecycleEvent) : Decidable (Shaped a e) := inferInstanceAs (Decidable (_ ∧ _))

def failedTypes : List GoString :=
  [str "uncertain", str "rollback_failed", str "transaction_failed", str "transaction_rollback", str "transaction_begin_failed"]

def workTypes : List GoString := [str "confirmed", str "intent", str "transaction_committed"]

/-- An event of the right identity and shape that was not seen before. -/
def scanNew (a : VerifiedArtifact) (attempt : Nat) (st : Scan) (e : LifecycleEvent) : Option Scan :=
  let seen := GoSet.add st.seen e.eventID
  if e.type ∈ failedTypes then none
  else if e.type ∈ workTypes then if st.completed then none else some ⟨seen, st.completed⟩
  else if e.type = str "completed" then if requiredCompletionAudit a attempt seen then some ⟨seen, true⟩ else none
  else some ⟨seen, st.completed⟩

def scanEvent (a : VerifiedArtifact) (attempt : Nat) (now : Int) (st : Scan) (e : LifecycleEvent) : Option Scan :=
  if ¬ About a e then some st
  else if ¬ Bound a attempt now e then none
  else if e.type = str "completion_observed" then some st
  else if ¬ Shaped a e ∨ GoSet.has st.seen e.eventID = true then none
  else scanNew a attempt st e

def completionAuditMatches (a : VerifiedArtifact) (attempt : Nat) (es : List LifecycleEvent) (now : Int) : Bool :=
  ((es.foldlM (scanEvent a attempt now) ⟨GoMap.empty, false⟩).map Scan.completed).getD false

/-! ### What the rows say -/

variable {a : VerifiedArtifact} {attempt : Nat} {now : Int} {rows : List Row}

/-- What is known of rows that were read one after another. -/
structure Completed (a : VerifiedArtifact) (l : List Row) (st : GoSet × Nat) : Prop where
  row : ∀ r ∈ l, bindingMatches a r = true ∧ r.state = .confirmed ∧ r.attempt = st.2
  nodup : (l.map Row.stepID).Nodup
  seen : ∀ id, GoSet.has st.1 id = true ↔ id ∈ l.map Row.stepID
  some_attempt : st.2 = 0 → l = []

theorem Completed.add {l : List Row} {st st' : GoSet × Nat} {r : Row} (h : Completed a l st) (hr : addCompleted a st r = .ok st') :
    Completed a (l ++ [r]) st' := by
  unfold addCompleted at hr
  rw [Fallible.guard_ok] at hr
  obtain ⟨hn, hr⟩ := hr
  cases hr
  simp only [not_or, not_and, ne_eq, not_not, Bool.not_eq_false, Bool.not_eq_true] at hn
  obtain ⟨hbound, hstate, hpos, hnew, hsame⟩ := hn
  refine ⟨?_, ?_, ?_, fun h0 => ?_⟩
  · intro x hx
    rcases mem_append.mp hx with hx | hx
    · obtain ⟨hb, hs, ha⟩ := h.row x hx
      have hne : st.2 ≠ 0 := fun h0 => ne_nil_of_mem hx (h.some_attempt h0)
      exact ⟨hb, hs, ha.trans (hsame hne).symm⟩
    · rw [mem_singleton.mp hx]
      exact ⟨hbound, hstate, rfl⟩
  · rw [map_append, map_singleton, ← concat_eq_append]
    refine h.nodup.concat fun hmem => ?_
    rw [(h.seen _).mpr hmem] at hnew
    cases hnew
  · intro id
    rw [GoSet.has_add, h.seen]
    simp [or_comm]
  · exact absurd h0 (Nat.pos_iff_ne_zero.mp (Nat.not_lt.mp hpos))

theorem completed_foldlM {l : List Row} {st : GoSet × Nat} (h : l.foldlM (addCompleted a) (GoMap.empty, 0) = .ok st) :
    Completed a l st := Fallible.foldlM_inv h ⟨by simp, by simp, by simp, fun _ => rfl⟩ fun _ _ _ _ hd => hd.add

/-- Conversely, such rows can be read. -/
theorem foldlM_addCompleted {l : List Row} {st : GoSet × Nat} (hpos : 1 ≤ attempt) (hst : st.2 = 0 ∨ st.2 = attempt)
    (hl : ∀ r ∈ l, bindingMatches a r = true ∧ r.state = .confirmed ∧ r.attempt = attempt) (hfresh : st.1.Fresh (l.map Row.stepID)) :
    ∃ st', l.foldlM (addCompleted a) st = .ok st' ∧ (l ≠ [] → st'.2 = attempt) := by
  induction l generalizing st with
  | nil => exact ⟨st, rfl, fun h => absurd rfl h⟩
  | cons r l ih =>
    obtain ⟨⟨hb, hs, ha⟩, hl⟩ := forall_mem_cons.mp hl
    rw [map_cons, GoSet.fresh_cons] at hfresh
    have hr : addCompleted a st r = .ok (GoSet.add st.1 r.stepID, r.attempt) := by
      unfold addCompleted
      rw [if_neg]
      rintro (h | h | h | h | h)
      · rw [hb] at h
        cases h
      · exact h hs
      · omega
      · rw [hfresh.1] at h
        cases h
      · exact hst.elim h.1 fun hst => h.2 (ha.trans hst.symm)
    obtain ⟨st', hfold, hatt⟩ := @ih (GoSet.add st.1 r.stepID, r.attempt) (.inr ha) hl hfresh.2
    refine ⟨st', ?_, fun _ => ?_⟩
    · rw [foldlM_cons, hr]
      exact hfold
    · rcases l with _ | ⟨r', l⟩
      · cases hfold
        exact ha
      · exact hatt (cons_ne_nil _ _)

theorem size_steps (a : VerifiedArtifact) : (GoMap.index Step.id a.plan.steps).size = (a.plan.steps.map Step.id).length :=
  GoMap.size_of_list a.valid.2.2.2.1 fun _ => GoMap.mem_keys_index

/-- The rows of the artifact. -/
def rowsOf (a : VerifiedArtifact) (rows : List Row) : List Row := rows.filter fun r => r.artifactDigest = a.digest

theorem bindingMatches_mem {r : Row} (h : bindingMatches a r = true) : r.stepID ∈ a.plan.steps.map Step.id := by
  unfold bindingMatches at h
  split at h
  · rename_i s p hs hp
    obtain ⟨hmem, hid⟩ := Plan.stepOf_some hs
    exact hid ▸ mem_map_of_mem hmem
  · cases h

/-- What the rows are if they can be read: the steps of the plan, each once, confirmed in the attempt. -/
theorem readCompletedAttempt_ok (h : readCompletedAttempt a (.ok rows) = .ok attempt) :
    (∀ r ∈ rowsOf a rows, r.state = .confirmed ∧ r.attempt = attempt) ∧
      ((rowsOf a rows).map Row.stepID).Perm (a.plan.steps.map Step.id) := by
  unfold readCompletedAttempt at h
  simp only [Fallible.bind_ok] at h
  obtain ⟨st, hfold, h⟩ := h
  rw [Fallible.guard_ok] at h
  obtain ⟨hsize, h⟩ := h
  cases h
  have hc : Completed a (rowsOf a rows) st := completed_foldlM hfold
  have hseen : st.1.size = ((rowsOf a rows).map Row.stepID).length :=
    GoMap.size_of_list hc.nodup fun k => (GoSet.mem_keys).trans (hc.seen k)
  refine ⟨fun r hr => (hc.row r hr).2, ?_⟩
  -- as many different IDs as steps, each of a step
  have hsub : (rowsOf a rows).map Row.stepID ⊆ a.plan.steps.map Step.id := by
    intro id hid
    obtain ⟨r, hr, rfl⟩ := mem_map.mp hid
    exact bindingMatches_mem (hc.row r hr).1
  refine (subperm_of_subset hc.nodup hsub).perm_of_length_le ?_
  rw [← size_steps, ← hseen]
  exact (not_not.mp hsize).ge

/-- Rows of this kind are accepted. -/
theorem readCompletedAttempt_of_rows (hpos : 1 ≤ attempt) (hne : a.plan.steps ≠ [])
    (hrows : ∀ r ∈ rowsOf a rows, bindingMatches a r = true ∧ r.state = .confirmed ∧ r.attempt = attempt)
    (hids : (rowsOf a rows).map Row.stepID = a.plan.steps.map Step.id) : readCompletedAttempt a (.ok rows) = .ok attempt := by
  have hnodup : ((rowsOf a rows).map Row.stepID).Nodup := by
    rw [hids]
    exact a.valid.2.2.2.1
  obtain ⟨st, hfold, hatt⟩ := @foldlM_addCompleted _ _ _ (GoMap.empty, 0) hpos (.inl rfl) hrows (GoSet.fresh_empty hnodup)
  have hsome : rowsOf a rows ≠ [] := by
    intro h
    rw [h, map_nil, eq_comm, map_eq_nil_iff] at hids
    exact hne hids
  have hsize : st.1.size = (GoMap.index Step.id a.plan.steps).size := by
    rw [size_steps, ← hids]
    exact GoMap.size_of_list hnodup fun k => GoSet.mem_keys.trans ((completed_foldlM hfold).seen k)
  unfold readCompletedAttempt
  simp only [Fallible.bind_ok]
  refine ⟨st, hfold, ?_⟩
  rw [if_neg (not_not.mpr hsize), ← hatt hsome]
  rfl

/-! ### What the audit says -/

/-- The event counts as evidence. -/
def Counted (a : VerifiedArtifact) (e : LifecycleEvent) : Prop := About a e ∧ e.type ≠ str "completion_observed"

instance (a : VerifiedArtifact) (e : LifecycleEvent) : Decidable (Counted a e) := inferInstanceAs (Decidable (_ ∧ _))

/-- The observer takes the event as evidence of the attempt. -/
structure Evidence (a : VerifiedArtifact) (attempt : Nat) (now : Int) (e : LifecycleEvent) : Prop where
  bound : Bound a attempt now e
  shaped : Shaped a e
  sound : e.type ∉ failedTypes

variable {st st' : Scan} {e : LifecycleEvent} {es : List LifecycleEvent} {l : List LifecycleEvent}

/-- What one event does. -/
theorem scanEvent_some (h : scanEvent a attempt now st e = some st') :
    ¬ Counted a e ∧ (About a e → Bound a attempt now e) ∧ st' = st ∨ Counted a e ∧ Evidence a attempt now e ∧ GoSet.has st.seen e.eventID = false ∧
      st'.seen = GoSet.add st.seen e.eventID ∧ (e.type ∈ workTypes → st.completed = false) ∧
      (e.type ≠ str "completed" ∧ st'.completed = st.completed ∨
        e.type = str "completed" ∧ st'.completed = true ∧ requiredCompletionAudit a attempt st'.seen = true) := by
  unfold scanEvent at h
  by_cases habout : About a e
  swap
  · rw [if_pos habout] at h
    exact .inl ⟨fun hc => habout hc.1, fun ha => absurd ha habout, (Option.some.inj h).symm⟩
  rw [if_neg (not_not.mpr habout)] at h
  by_cases hbound : Bound a attempt now e
  swap
  · rw [if_pos hbound] at h
    cases h
  split_ifs at h with hobserved hnew
  · exact .inl ⟨fun hc => hc.2 hobserved, fun _ => hbound, (Option.some.inj h).symm⟩
  · rw [not_or, not_not, Bool.not_eq_true] at hnew
    unfold scanNew at h
    dsimp only at h
    split_ifs at h with hfailed hwork hcompleted htype hrequired
    · cases h
      refine .inr ⟨⟨habout, hobserved⟩, ⟨hbound, hnew.1, hfailed⟩, hnew.2, rfl, ?_, .inl ⟨?_, rfl⟩⟩
      · exact fun _ => by simpa using hcompleted
      · rintro htype
        rw [htype] at hwork
        revert hwork
        decide
    · cases h
      refine .inr ⟨⟨habout, hobserved⟩, ⟨hbound, hnew.1, hfailed⟩, hnew.2, rfl, fun hw => absurd hw hwork, ?_⟩
      exact .inr ⟨htype, rfl, hrequired⟩
    · cases h
      refine .inr ⟨⟨habout, hobserved⟩, ⟨hbound, hnew.1, hfailed⟩, hnew.2, rfl, fun hw => absurd hw hwork, ?_⟩
      exact .inl ⟨htype, rfl⟩

/-- `completed` is among the events, after all that is required. -/
def CompletedIn (a : VerifiedArtifact) (attempt : Nat) (l : List LifecycleEvent) : Prop :=
  ∃ before c after, l = before ++ c :: after ∧ Counted a c ∧ c.type = str "completed" ∧
    ∃ seen, requiredCompletionAudit a attempt seen = true ∧
      ∀ id, GoSet.has seen id = true → ∃ e ∈ before ++ [c], Counted a e ∧ e.eventID = id

theorem CompletedIn.append (h : CompletedIn a attempt l) : CompletedIn a attempt (l ++ [e]) := by
  obtain ⟨before, c, after, rfl, hc⟩ := h
  exact ⟨before, c, after ++ [e], by simp, hc⟩

/-- What is known of events that were scanned one after another. -/
structure Scanned (a : VerifiedArtifact) (attempt : Nat) (now : Int) (l : List LifecycleEvent) (st : Scan) : Prop where
  bound : ∀ e ∈ l, About a e → Bound a attempt now e
  evidence : ∀ e ∈ l, Counted a e → Evidence a attempt now e
  seen : ∀ id, GoSet.has st.seen id = true ↔ ∃ e ∈ l, Counted a e ∧ e.eventID = id
  nodup : ((l.filter fun e => Counted a e).map LifecycleEvent.eventID).Nodup
  completed : st.completed = true → CompletedIn a attempt l

theorem Scanned.step (h : Scanned a attempt now l st) (he : scanEvent a attempt now st e = some st') :
    Scanned a attempt now (l ++ [e]) st' := by
  rcases scanEvent_some he with ⟨hn, hbound, rfl⟩ | ⟨hc, hev, hnew, hseen, -, hcompleted⟩
  · refine ⟨forall_mem_append.mpr ⟨h.bound, forall_mem_singleton.mpr hbound⟩, ?_, fun id => ?_, ?_, fun hd => (h.completed hd).append⟩
    · rw [forall_mem_append]
      exact ⟨h.evidence, forall_mem_singleton.mpr fun hc => absurd hc hn⟩
    · rw [h.seen]
      simp [or_and_right, exists_or, hn]
    · rw [filter_append, filter_singleton, decide_eq_false hn, cond_false, append_nil]
      exact h.nodup
  · have hmem : ∀ id, GoSet.has st'.seen id = true ↔ ∃ x ∈ l ++ [e], Counted a x ∧ x.eventID = id := by
      intro id
      rw [hseen, GoSet.has_add, h.seen]
      constructor
      · rintro (rfl | ⟨x, hx, hxid⟩)
        · exact ⟨e, mem_append_right _ (mem_singleton_self e), hc, rfl⟩
        · exact ⟨x, mem_append_left _ hx, hxid⟩
      · rintro ⟨x, hx, hxc, rfl⟩
        rcases mem_append.mp hx with hx | hx
        · exact .inr ⟨x, hx, hxc, rfl⟩
        · rw [mem_singleton.mp hx]
          exact .inl rfl
    refine ⟨forall_mem_append.mpr ⟨h.bound, forall_mem_singleton.mpr fun _ => hev.bound⟩, ?_, hmem, ?_, ?_⟩
    · rw [forall_mem_append]
      exact ⟨h.evidence, forall_mem_singleton.mpr fun _ => hev⟩
    · rw [filter_append, filter_singleton, decide_eq_true hc, cond_true, map_append, map_singleton, ← concat_eq_append]
      refine h.nodup.concat fun hid => ?_
      obtain ⟨x, hx, hxid⟩ := mem_map.mp hid
      obtain ⟨hx, hxc⟩ := mem_filter.mp hx
      rw [(h.seen _).mpr ⟨x, hx, by simpa using hxc, hxid⟩] at hnew
      cases hnew
    · rcases hcompleted with ⟨-, hsame⟩ | ⟨htype, -, hrequired⟩
      · exact fun hd => (h.completed (hsame ▸ hd)).append
      · exact fun _ => ⟨l, e, [], rfl, hc, htype, st'.seen, hrequired, fun id => (hmem id).mp⟩

theorem Scanned.foldlM {l l₀ : List LifecycleEvent} (h : Scanned a attempt now l₀ st)
    (hl : l.foldlM (scanEvent a attempt now) st = some st') : Scanned a attempt now (l₀ ++ l) st' := by
  induction l generalizing l₀ st with
  | nil =>
    cases hl
    simpa using h
  | cons e l ih =>
    obtain ⟨st₁, he, hl⟩ := Option.bind_eq_some_iff.mp hl
    simpa using ih (h.step he) hl

theorem scanned_nil : Scanned a attempt now [] ⟨GoMap.empty, false⟩ :=
  ⟨by simp, by simp, by simp, by simp, nofun⟩

theorem completionAuditMatches_scanned (h : completionAuditMatches a attempt es now = true) :
    ∃ st, Scanned a attempt now es st ∧ st.completed = true := by
  unfold completionAuditMatches at h
  cases hfold : es.foldlM (scanEvent a attempt now) ⟨GoMap.empty, false⟩ with
  | none =>
    rw [hfold] at h
    cases h
  | some st =>
    rw [hfold] at h
    exact ⟨st, by simpa using scanned_nil.foldlM hfold, h⟩

/-! ### An audit that is accepted -/

theorem Evidence.counted (h : Evidence a attempt now e) : Counted a e := by
  refine ⟨.inl h.bound.artifactDigest, fun htype => ?_⟩
  have hshape := h.shaped.2
  unfold completionEventShape at hshape
  rw [htype] at hshape
  cases hshape

theorem scanEvent_evidence (h : Evidence a attempt now e) (hnew : GoSet.has st.seen e.eventID = false) :
    scanEvent a attempt now st e = scanNew a attempt st e := by
  unfold scanEvent
  rw [if_neg (not_not.mpr h.counted.1), if_neg (not_not.mpr h.bound), if_neg h.counted.2, if_neg]
  rintro (hn | hn)
  · exact hn h.shaped
  · rw [hnew] at hn
    cases hn

/-- Evidence that comes before `completed`. -/
theorem scanNew_before (h : Evidence a attempt now e) (hst : st.completed = false) (htype : e.type ≠ str "completed") :
    scanNew a attempt st e = some ⟨GoSet.add st.seen e.eventID, false⟩ := by
  unfold scanNew
  rw [if_neg h.sound, if_neg htype, hst, if_neg Bool.false_ne_true, ite_self]

/-- If the identities differ, that of the next event was not seen. -/
theorem Scanned.new {l l₀ : List LifecycleEvent} (h : Scanned a attempt now l₀ st) (habout : About a e)
    (hnodup : (((l₀ ++ e :: l).filter fun e => About a e).map LifecycleEvent.eventID).Nodup) : GoSet.has st.seen e.eventID = false := by
  rw [← Bool.not_eq_true, h.seen]
  rintro ⟨x, hx, hxc, hid⟩
  rw [filter_append, map_append, nodup_append] at hnodup
  exact hnodup.2.2 _ (mem_map_of_mem (mem_filter.mpr ⟨hx, decide_eq_true hxc.1⟩)) _
    (mem_map_of_mem (mem_filter.mpr ⟨mem_cons_self, decide_eq_true habout⟩)) hid

theorem foldlM_scanEvent {l l₀ : List LifecycleEvent} (h : Scanned a attempt now l₀ st) (hst : st.completed = false)
    (hl : ∀ e ∈ l, About a e → Evidence a attempt now e ∧ e.type ≠ str "completed")
    (hnodup : (((l₀ ++ l).filter fun e => About a e).map LifecycleEvent.eventID).Nodup) :
    ∃ st', l.foldlM (scanEvent a attempt now) st = some st' ∧ st'.completed = false := by
  induction l generalizing l₀ st with
  | nil => exact ⟨st, rfl, hst⟩
  | cons e l ih =>
    rw [forall_mem_cons] at hl
    obtain ⟨st₁, he, hst₁⟩ : ∃ st₁, scanEvent a attempt now st e = some st₁ ∧ st₁.completed = false := by
      by_cases habout : About a e
      · obtain ⟨hev, htype⟩ := hl.1 habout
        rw [scanEvent_evidence hev (h.new habout hnodup), scanNew_before hev hst htype]
        exact ⟨_, rfl, rfl⟩
      · exact ⟨st, if_pos habout, hst⟩
    rw [foldlM_cons, he]
    exact ih (h.step he) hst₁ hl.2 (by simpa using hnodup)

/-- The types and steps of the events that must come before `completed`. -/
def phaseRequired (p : Phase) : List (GoString × GoString) :=
  match p.transaction with
  | .required => [(str "transaction_started", []), (str "transaction_committed", p.stepIDs.getLast?.getD [])] ++
      p.stepIDs.map fun id => (str "confirmed", id)
  | .prohibited => p.stepIDs.flatMap fun id => [(str "intent", id), (str "confirmed", id)]

def required (a : VerifiedArtifact) : List (GoString × GoString) :=
  [(str "requested", []), (str "lock_acquired", [])] ++ a.plan.phases.flatMap phaseRequired

theorem requiredCompletionAudit_of {seen : GoSet}
    (h : ∀ k ∈ required a, GoSet.has seen (lifecycleEventID attempt a.digest k.1 k.2) = true) :
    requiredCompletionAudit a attempt seen = true := by
  unfold required at h
  rw [forall_mem_append, forall_mem_cons, forall_mem_singleton] at h
  obtain ⟨⟨hrequested, hlock⟩, hphases⟩ := h
  unfold requiredCompletionAudit
  rw [Bool.and_eq_true, Bool.and_eq_true, all_eq_true]
  refine ⟨⟨hrequested, hlock⟩, fun p hp => ?_⟩
  have hp' := fun k hk => hphases k (mem_flatMap.mpr ⟨p, hp, hk⟩)
  unfold phaseRequired at hp'
  rw [Bool.and_eq_true, all_eq_true]
  cases hmode : p.transaction with
  | required =>
    rw [hmode] at hp'
    simp only [cons_append, nil_append, forall_mem_cons, forall_mem_map] at hp'
    refine ⟨fun id hid => ?_, ?_⟩
    · simp [hp'.2.2 id hid]
    · simp [hp'.1, hp'.2.1]
  | prohibited =>
    rw [hmode] at hp'
    refine ⟨fun id hid => ?_, by simp⟩
    have hintent := hp' (str "intent", id) (mem_flatMap.mpr ⟨id, hid, by simp⟩)
    have hconfirmed := hp' (str "confirmed", id) (mem_flatMap.mpr ⟨id, hid, by simp⟩)
    simp only [hintent, hconfirmed, Bool.or_true, Bool.and_true]

/-- An audit is accepted if it ends with `completed` after all that is required. -/
theorem completionAuditMatches_of {c : LifecycleEvent}
    (hes : ∀ e ∈ es, About a e → Evidence a attempt now e ∧ e.type ≠ str "completed") (hc : Evidence a attempt now c)
    (hctype : c.type = str "completed") (hnodup : (((es ++ [c]).filter fun e => About a e).map LifecycleEvent.eventID).Nodup)
    (hrequired : ∀ k ∈ required a, ∃ e ∈ es, About a e ∧ e.eventID = lifecycleEventID attempt a.digest k.1 k.2) :
    completionAuditMatches a attempt (es ++ [c]) now = true := by
  obtain ⟨st, hfold, hcompleted⟩ := foldlM_scanEvent scanned_nil rfl hes
    (hnodup.sublist (((sublist_append_left es [c]).filter _).map _))
  have hscanned : Scanned a attempt now es st := scanned_nil.foldlM hfold
  have hall : requiredCompletionAudit a attempt (GoSet.add st.seen c.eventID) = true := by
    refine requiredCompletionAudit_of fun k hk => ?_
    obtain ⟨e, he, hea, hid⟩ := hrequired k hk
    rw [GoSet.has_add, hscanned.seen]
    exact .inr ⟨e, he, (hes e he hea).1.counted, hid⟩
  have hlast : scanEvent a attempt now st c = some ⟨GoSet.add st.seen c.eventID, true⟩ := by
    rw [scanEvent_evidence hc (hscanned.new hc.counted.1 hnodup)]
    unfold scanNew
    rw [hctype, if_neg (by decide), if_neg (by decide), if_pos rfl, if_pos hall]
  unfold completionAuditMatches
  rw [foldlM_append, hfold]
  show (((scanEvent a attempt now st c).bind some).map Scan.completed).getD false = true
  rw [hlast]
  rfl

/-! ### What follows when both are accepted -/

/-- The text whose digest is the identity of an event. -/
def eventText (attempt : Nat) (executionID type stepID : GoString) : GoString :=
  GoString.itoa attempt ++ 0 :: executionID ++ 0 :: type ++ 0 :: stepID

/-- The texts that matter to the observer: those of the events and of the confirmations it looks for. -/
def eventTexts (a : VerifiedArtifact) (attempt : Nat) (es : List LifecycleEvent) : Set GoString :=
  {m | (∃ e ∈ es, m = eventText e.attempt e.executionID e.type e.stepID) ∨
    ∃ s ∈ a.plan.steps, m = eventText attempt a.digest (str "confirmed") s.id}

/-- A type with a shape has no zero byte in it. -/
theorem zero_notMem_type (h : completionEventShape a e = true) : (0 : UInt8) ∉ e.type := by
  unfold completionEventShape at h
  split_ifs at h with h₁ h₂ h₃ h₄
  · have hall : ∀ t ∈ plainTypes, (0 : UInt8) ∉ t := by decide
    exact hall e.type h₁
  · have hall : ∀ t ∈ stepTypes, (0 : UInt8) ∉ t := by decide
    exact hall e.type h₂
  · rw [h₃]
    decide
  · rw [h₄]
    decide

/-- Among the events of an attempt the identity tells the type and the step. -/
theorem eq_of_eventID {s : Step} (hfree : Sha256.CollisionFree (eventTexts a attempt es)) (he : e ∈ es)
    (hev : Evidence a attempt now e) (hs : s ∈ a.plan.steps)
    (h : e.eventID = lifecycleEventID attempt a.digest (str "confirmed") s.id) : e.type = str "confirmed" ∧ e.stepID = s.id := by
  rw [hev.shaped.1] at h
  have hhash := GoString.hexEncode_inj (append_cancel_left h)
  have htext := hfree (.inl ⟨e, he, rfl⟩) (.inr ⟨s, hs, rfl⟩) hhash
  rw [hev.bound.attempt_eq, hev.bound.executionID] at htext
  have htail : e.type ++ 0 :: e.stepID = str "confirmed" ++ 0 :: s.id := by simpa [eventText] using htext
  exact GoString.cut_unique (zero_notMem_type hev.shaped.2) (by decide) htail

/-- **What the observer proves.**  Every step has one row, confirmed in the attempt, and there are no other rows; no event
tells of a failure or of an unknown outcome; and the confirmation of each step is there once, before `completed`. -/
structure Proven (a : VerifiedArtifact) (attempt : Nat) (rows : List Row) (es : List LifecycleEvent) : Prop where
  steps : ((rowsOf a rows).map Row.stepID).Perm (a.plan.steps.map Step.id)
  confirmed : ∀ r ∈ rowsOf a rows, r.state = .confirmed ∧ r.attempt = attempt
  certain : ∀ e ∈ es, About a e → e.attempt = attempt ∧ e.type ∉ failedTypes
  before : ∃ before c after, es = before ++ c :: after ∧ About a c ∧ c.type = str "completed" ∧
    ∀ s ∈ a.plan.steps, ∃ e ∈ before, (es.filter fun e => About a e ∧ e.type = str "confirmed" ∧ e.stepID = s.id) = [e]

/-- The observer is sound, for any rows and any events. -/
theorem accepted_proven (hrows : readCompletedAttempt a (.ok rows) = .ok attempt)
    (haudit : completionAuditMatches a attempt es now = true) (hfree : Sha256.CollisionFree (eventTexts a attempt es)) :
    Proven a attempt rows es := by
  obtain ⟨hconfirmed, hperm⟩ := readCompletedAttempt_ok hrows
  obtain ⟨st, hst, hdone⟩ := completionAuditMatches_scanned haudit
  obtain ⟨before, c, after, hes, hc, htype, seen, hrequired, hseen⟩ := hst.completed hdone
  refine ⟨hperm, hconfirmed, fun e he ha => ⟨(hst.bound e he ha).attempt_eq, fun hf => ?_⟩, before, c, after, hes, hc.1, htype, ?_⟩
  · have hcounted : Counted a e := by
      refine ⟨ha, fun hobs => ?_⟩
      rw [hobs] at hf
      revert hf
      decide
    exact (hst.evidence e he hcounted).sound hf
  intro s hs
  obtain ⟨p, hp, hid⟩ := a.valid.exists_phase hs
  simp only [requiredCompletionAudit, Bool.and_eq_true, all_eq_true] at hrequired
  obtain ⟨e, he, hecounted, heid⟩ := hseen _ ((hrequired.2 p hp).1 s.id hid).1
  have hmem : e ∈ es := by
    rw [hes]
    rcases mem_append.mp he with he | he
    · exact mem_append_left _ he
    · rw [mem_singleton.mp he]
      exact mem_append_right _ mem_cons_self
  obtain ⟨hetype, hestep⟩ := eq_of_eventID hfree hmem (hst.evidence e hmem hecounted) hs heid
  have hbefore : e ∈ before := by
    rcases mem_append.mp he with he | he
    · exact he
    · rw [mem_singleton.mp he, htype] at hetype
      exact absurd hetype (by decide)
  refine ⟨e, hbefore, ?_⟩
  -- two confirmations of one step would have one identity
  have hsub : (es.filter fun e => About a e ∧ e.type = str "confirmed" ∧ e.stepID = s.id).Sublist (es.filter fun e => Counted a e) := by
    refine monotone_filter_right _ fun x hx => ?_
    rw [decide_eq_true_iff] at hx ⊢
    refine ⟨hx.1, ?_⟩
    rw [hx.2.1]
    decide
  have hnodup := hst.nodup.sublist (hsub.map LifecycleEvent.eventID)
  have hin : e ∈ es.filter fun e => About a e ∧ e.type = str "confirmed" ∧ e.stepID = s.id :=
    mem_filter.mpr ⟨hmem, decide_eq_true ⟨hecounted.1, hetype, hestep⟩⟩
  have hall : ∀ x ∈ es.filter fun e => About a e ∧ e.type = str "confirmed" ∧ e.stepID = s.id, x = e := by
    intro x hx
    refine inj_on_of_nodup_map hnodup hx hin ?_
    have hxc : Counted a x := by simpa using (mem_filter.mp (hsub.subset hx)).2
    obtain ⟨hxmem, hxs⟩ := mem_filter.mp hx
    have hev := hst.evidence x hxmem hxc
    rw [decide_eq_true_iff] at hxs
    rw [heid, hev.shaped.1, hev.bound.attempt_eq, hev.bound.executionID, hxs.2.1, hxs.2.2]
  refine perm_singleton.mp ((perm_ext_iff_of_nodup hnodup.of_map (nodup_singleton e)).mpr fun x => ?_)
  rw [mem_singleton]
  exact ⟨hall x, fun hx => hx ▸ hin⟩

end AutoSql.Executor
