/-
AutoSql/Executor/FileAudit.lean

The lifecycle audit of the executor, kept in a file.

The executor's log lists the appends that had an effect at the interface.  A file
holds each identity once: an event that is there already, at whatever time, is not
written again, and an event that has the identity of a different one is refused.
`fileEvents` is what the file holds after the appends of a log, if it refuses none of
them.  A refused append is one that fails without effect, so the logs of the runs
against a file are among those without refusals.

`appendDurable_event` ties this to the file itself: on a file that can be read, and
for an event that comes back, `appendDurable` does what `addEvent` does.
-/
import AutoSql.Audit.Lifecycle
import AutoSql.Executor.Run

namespace AutoSql.Executor

open List

/-! ### What a file holds -/

/-- The events are the same up to their times. -/
def LifecycleEvent.Same (e e' : LifecycleEvent) : Prop := { e with time := 0 } = { e' with time := 0 }

instance (e e' : LifecycleEvent) : Decidable (e.Same e') := inferInstanceAs (Decidable (_ = _))

/-- The event has an identity, and it is that of `x`. -/
def LifecycleEvent.Identifies (e x : LifecycleEvent) : Prop := e.eventID ≠ [] ∧ x.eventID = e.eventID

instance (e x : LifecycleEvent) : Decidable (e.Identifies x) := inferInstanceAs (Decidable (_ ∧ _))

/-- One append. -/
def addEvent (es : List LifecycleEvent) (e : LifecycleEvent) : Option (List LifecycleEvent) :=
  if ∃ x ∈ es, e.Identifies x ∧ ¬ x.Same e then none
  else if ∃ x ∈ es, e.Identifies x then some es
  else some (es ++ [e])

/-- The file after the appends of a log. -/
def fileEvents (log : List LifecycleEvent) : Option (List LifecycleEvent) := log.foldlM addEvent []

inductive AuditError
  | missing
  | evidence
  | other
  deriving DecidableEq

/-- `FileAudit.ReadExecution` on an intact file, which is there from the first append on; reading may also fail. -/
def readExecution (es : List LifecycleEvent) (digest : GoString) (fault : Option AuditError) :
    Except AuditError (List LifecycleEvent) :=
  match fault with
  | some e => if e = .missing ∧ es ≠ [] then .error .other else .error e
  | none => .ok (es.filter fun e => e.artifactDigest = digest ∨ e.executionID = digest)

variable {es es' : List LifecycleEvent} {e x : LifecycleEvent} {log : List LifecycleEvent}

theorem LifecycleEvent.Same.artifactDigest_eq (h : x.Same e) : x.artifactDigest = e.artifactDigest := by
  injection h

theorem LifecycleEvent.Same.type_eq (h : x.Same e) : x.type = e.type := by
  injection h

theorem LifecycleEvent.Same.eventID_eq (h : x.Same e) : x.eventID = e.eventID := by
  injection h

/-- The three answers to an append. -/
theorem addEvent_some (h : addEvent es e = some es') : (∀ x ∈ es, e.Identifies x → x.Same e) ∧
      ((∃ x ∈ es, e.Identifies x) ∧ es' = es ∨ (∀ x ∈ es, ¬ e.Identifies x) ∧ es' = es ++ [e]) := by
  unfold addEvent at h
  split_ifs at h with hconflict hrecorded
  · refine ⟨fun x hx hid => ?_, .inl ⟨hrecorded, (Option.some.inj h).symm⟩⟩
    by_contra hsame
    exact hconflict ⟨x, hx, hid, hsame⟩
  · refine ⟨fun x hx hid => absurd ⟨x, hx, hid⟩ hrecorded, .inr ⟨fun x hx hid => hrecorded ⟨x, hx, hid⟩, (Option.some.inj h).symm⟩⟩

theorem fileEvents_append (e : LifecycleEvent) : fileEvents (log ++ [e]) = (fileEvents log).bind fun es => addEvent es e := by
  rw [fileEvents, foldlM_append]
  show ((fileEvents log).bind fun es => (addEvent es e).bind some) = _
  simp

/-- Every append is in the file, at some time. -/
theorem mem_fileEvents (h : fileEvents log = some es) : ∀ e ∈ log, ∃ x ∈ es, x.Same e := by
  induction log using List.reverseRecOn generalizing es with
  | nil => exact fun e he => nomatch he
  | append_singleton log e' ih =>
    rw [fileEvents_append, Option.bind_eq_some_iff] at h
    obtain ⟨es₀, h₀, h⟩ := h
    obtain ⟨hsame, hcases⟩ := addEvent_some h
    intro e he
    rcases mem_append.mp he with he | he
    · obtain ⟨x, hx, hxe⟩ := ih h₀ e he
      rcases hcases with ⟨-, rfl⟩ | ⟨-, rfl⟩
      · exact ⟨x, hx, hxe⟩
      · exact ⟨x, mem_append_left _ hx, hxe⟩
    · rw [mem_singleton.mp he]
      rcases hcases with ⟨⟨x, hx, hid⟩, rfl⟩ | ⟨-, rfl⟩
      · exact ⟨x, hx, hsame x hx hid⟩
      · exact ⟨e', mem_append_right _ (mem_singleton_self _), rfl⟩

/-- The file holds appended events only. -/
theorem fileEvents_subset (h : fileEvents log = some es) : es ⊆ log := by
  induction log using List.reverseRecOn generalizing es with
  | nil =>
    cases h
    exact List.Subset.refl _
  | append_singleton log e ih =>
    rw [fileEvents_append, Option.bind_eq_some_iff] at h
    obtain ⟨es₀, h₀, h⟩ := h
    rcases (addEvent_some h).2 with ⟨-, rfl⟩ | ⟨-, rfl⟩
    · exact subset_append_of_subset_left _ (ih h₀)
    · exact append_subset.mpr ⟨subset_append_of_subset_left _ (ih h₀), subset_append_right _ _⟩

/-- The file holds an identity once. -/
theorem fileEvents_pairwise (h : fileEvents log = some es) : es.Pairwise fun x e => ¬ e.Identifies x := by
  induction log using List.reverseRecOn generalizing es with
  | nil =>
    cases h
    exact List.Pairwise.nil
  | append_singleton log e ih =>
    rw [fileEvents_append, Option.bind_eq_some_iff] at h
    obtain ⟨es₀, h₀, h⟩ := h
    rcases (addEvent_some h).2 with ⟨-, rfl⟩ | ⟨hnew, rfl⟩
    · exact ih h₀
    · refine pairwise_append.mpr ⟨ih h₀, pairwise_singleton _ _, fun x hx e' he' => ?_⟩
      rw [mem_singleton.mp he']
      exact hnew x hx

/-! ### The file itself -/

section File

open LifecycleAudit LineLog

variable {X : TimeText Int} {file : GoString}

/-- The event as it is written. -/
def LifecycleEvent.record (e : LifecycleEvent) : LifecycleAudit.LifecycleEvent Int where
  eventID := e.eventID
  type := e.type
  executionID := e.executionID
  target := e.target
  artifactDigest := e.artifactDigest
  planDigest := e.planDigest
  bundleDigest := e.bundleDigest
  stepID := e.stepID
  guidance := e.guidance
  time := e.time
  attempt := Int64.ofNat e.attempt

/-- The bytes are those of a file with these events. -/
structure IsFile (X : TimeText Int) (file : GoString) (es : List LifecycleEvent) (rs : List (LifecycleRecord Int)) : Prop where
  read : readLifecycle X file = some rs
  sound : ∀ r ∈ rs, LifecycleAudit.Sound X r
  events : rs.map LifecycleRecord.event = es.map LifecycleEvent.record
  attempts : ∀ x ∈ es, x.attempt < 2 ^ 63

/-- `sameLifecycleEvent` compares all but the times. -/
theorem sameEvent_iff (hx : x.record.Valid) (hattempt : x.attempt < 2 ^ 63) (hattempt' : e.attempt < 2 ^ 63) :
    sameEvent X x.record e.record = true ↔ x.Same e := by
  constructor
  · intro h
    have heq := eq_of_sameEvent hx h
    simp only [LifecycleEvent.record, LifecycleAudit.LifecycleEvent.mk.injEq, true_and] at heq
    obtain ⟨h₁, h₂, h₃, h₄, h₅, h₆, h₇, h₈, h₉, h₁₀⟩ := heq
    have hint : (e.attempt : Int) = (x.attempt : Int) := by
      rw [← Int64.toInt_ofNat_of_lt hattempt', ← Int64.toInt_ofNat_of_lt hattempt, h₁₀]
    rw [LifecycleEvent.Same, h₁, h₂, h₃, h₄, h₅, h₆, h₇, h₈, h₉, Int.ofNat_inj.mp hint]
  · intro h
    rw [LifecycleEvent.Same, LifecycleEvent.mk.injEq] at h
    obtain ⟨h₁, h₂, h₃, h₄, h₅, h₆, h₇, h₈, h₉, -, h₁₀⟩ := h
    simp only [sameEvent, LifecycleEvent.record, h₁, h₂, h₃, h₄, h₅, h₆, h₇, h₈, h₉, h₁₀, decide_true]

/-- The records with the identity of an event are those of the events with it. -/
theorem IsFile.recorded {rs : List (LifecycleRecord Int)} (h : IsFile X file es rs) (P : LifecycleAudit.LifecycleEvent Int → Prop) :
    (∃ r ∈ recorded rs e.record, P r.event) ↔ ∃ x ∈ es, e.Identifies x ∧ P x.record := by
  have hmem : ∀ v, (∃ r ∈ rs, r.event = v) ↔ ∃ x ∈ es, x.record = v := by
    intro v
    rw [← mem_map, ← mem_map, h.events]
  constructor
  · rintro ⟨r, hr, hP⟩
    obtain ⟨hr, hid⟩ := mem_filter.mp hr
    obtain ⟨x, hx, hxr⟩ := (hmem r.event).mp ⟨r, hr, rfl⟩
    rw [← hxr, Bool.and_eq_true, decide_eq_true_iff, decide_eq_true_iff] at hid
    exact ⟨x, hx, hid, hxr ▸ hP⟩
  · rintro ⟨x, hx, hid, hP⟩
    obtain ⟨r, hr, hrx⟩ := (hmem x.record).mpr ⟨x, hx, rfl⟩
    refine ⟨r, mem_filter.mpr ⟨hr, ?_⟩, hrx ▸ hP⟩
    rw [hrx, Bool.and_eq_true, decide_eq_true_iff, decide_eq_true_iff]
    exact hid

/-- **The file refines the list of events.**  A call that is not interrupted, for an event that comes back and whose line fits,
is refused if `addEvent` refuses it, and otherwise leaves the file of the longer list. -/
theorem appendDurable_event {rs : List (LifecycleRecord Int)} (h : IsFile X file es rs) (hkept : LifecycleAudit.Kept X e.record)
    (hattempt : e.attempt < 2 ^ 63) (hlimit : (LifecycleRecord.marshal X (newRecord X rs e.record)).length < 64 * 1024) :
    match addEvent es e with
    | none => appendDurable X file e.record none = (.conflict, file)
    | some es' => ∃ file' rs', appendDurable X file e.record none = (.ok, file') ∧ IsFile X file' es' rs' := by
  have hsame : ∀ x ∈ es, sameEvent X x.record e.record = true ↔ x.Same e := by
    intro x hx
    obtain ⟨r, hr, hrx⟩ : ∃ r ∈ rs, r.event = x.record := by
      rw [← mem_map, h.events]
      exact mem_map_of_mem hx
    exact sameEvent_iff (hrx ▸ (h.sound r hr).kept.valid) (h.attempts x hx) hattempt
  have hany : (recorded rs e.record).any (fun r => !sameEvent X r.event e.record) = true ↔ ∃ x ∈ es, e.Identifies x ∧ ¬ x.Same e := by
    rw [any_eq_true, h.recorded fun v => (!sameEvent X v e.record) = true]
    refine exists_congr fun x => and_congr_right fun hx => and_congr_right fun _ => ?_
    rw [Bool.not_eq_true', ← Bool.not_eq_true, hsame x hx]
  have hnew : recorded rs e.record = [] ↔ ¬ ∃ x ∈ es, e.Identifies x := by
    have := h.recorded (e := e) fun _ => True
    simp only [and_true] at this
    rw [← this, eq_nil_iff_forall_not_mem, not_exists]
  rw [appendDurable_eq h.read]
  unfold addEvent
  by_cases hconflict : ∃ x ∈ es, e.Identifies x ∧ ¬ x.Same e
  · rw [if_pos hconflict, if_pos (hany.mpr hconflict)]
  · rw [if_neg hconflict, if_neg (hany.not.mpr hconflict)]
    by_cases hrecorded : ∃ x ∈ es, e.Identifies x
    · rw [if_pos hrecorded, if_neg (fun hn => hnew.mp hn hrecorded), append_nil]
      exact ⟨file, rs, rfl, h⟩
    · rw [if_neg hrecorded, if_pos (hnew.mpr hrecorded)]
      refine ⟨_, _, rfl, readLifecycle_newRecord h.read h.sound hkept hlimit, ?_, ?_, ?_⟩
      · exact forall_mem_append.mpr ⟨h.sound, forall_mem_singleton.mpr (newRecord_sound hkept)⟩
      · rw [map_append, map_append, h.events]
        rfl
      · exact forall_mem_append.mpr ⟨h.attempts, forall_mem_singleton.mpr hattempt⟩

def sampleEvent (time : Int) : LifecycleEvent := ⟨str "a", str "intent", [], [], [], [], [], [], [], time, 1⟩

/-- One text for all instants, read as the first. -/
def oneText : TimeText Int := ⟨0, fun _ => oneTime.format (), fun _ => some 0, fun _ => oneTime.plain (), _, rfl, rfl⟩

theorem appendDurable_event_first : ∃ file rs, appendDurable oneText [] (sampleEvent 0).record none = (.ok, file) ∧
    IsFile oneText file [sampleEvent 0] rs := by
  have hfile : IsFile oneText [] [] [] := ⟨rfl, nofun, rfl, nofun⟩
  have hvalid : (sampleEvent 0).record.Valid := by
    unfold LifecycleEvent.Valid
    decide +kernel
  exact appendDurable_event (e := sampleEvent 0) hfile ⟨hvalid, _, rfl, rfl⟩ (by decide) (by decide +kernel)

end File

end AutoSql.Executor
