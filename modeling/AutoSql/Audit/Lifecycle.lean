/-
AutoSql/Audit/Lifecycle.lean

The lifecycle audit file: one JSON record a line, each with a hash over its own text
and the hash of the record before it.

Every append reads the whole file first and refuses to write to a file that it cannot
read.  So a line that is not read back ends the file for good, and three kinds of
append write such a line: one that is interrupted inside the line, one whose line is
longer than the buffer of the reader, and one with strings that are not UTF-8, whose
text changes when it is written again.  (A fourth is a time that JSON cannot write,
for which an empty line is written.)

An identity that is recorded already is not written again.  The texts of the two
events are compared without their times.

Main result: `appends_readable`.
-/
import AutoSql.Lib.LineLog
import AutoSql.Lib.Sha256
import AutoSql.Lib.TimeText

namespace AutoSql.LifecycleAudit

open GoJson LineLog List
open Utf8 (valid sanitize sanitize_of_valid)

/-! ### Events and records -/

variable {T : Type}

structure LifecycleEvent (T : Type) where
  eventID : GoString
  type : GoString
  executionID : GoString
  target : GoString
  artifactDigest : GoString
  planDigest : GoString
  bundleDigest : GoString
  stepID : GoString
  guidance : GoString
  time : T
  attempt : Int64

structure LifecycleRecord (T : Type) where
  sequence : UInt64
  previousHash : GoString
  hash : GoString
  event : LifecycleEvent T

variable (X : TimeText T)

/-- The fields of an event, with the text of its time. -/
def LifecycleEvent.fields (e : LifecycleEvent T) (time : GoString) : List (GoString × Option Json) :=
  [(str "EventID", some (.str e.eventID)), (str "Type", some (.str e.type)), (str "ExecutionID", some (.str e.executionID)),
    (str "Target", some (.str e.target)), (str "ArtifactDigest", some (.str e.artifactDigest)),
    (str "PlanDigest", some (.str e.planDigest)), (str "BundleDigest", some (.str e.bundleDigest)),
    (str "StepID", some (.str e.stepID)), (str "Guidance", some (.str e.guidance)), (str "At", some (.str time)),
    (str "Attempt", some (int e.attempt.toInt))]

def LifecycleEvent.json (e : LifecycleEvent T) (time : GoString) : Json := .obj (present (e.fields time))

def LifecycleRecord.fields (r : LifecycleRecord T) (time : GoString) : List (GoString × Option Json) :=
  [(str "sequence", some (uint64 r.sequence)), (str "previous_hash", unlessEmpty r.previousHash), (str "hash", some (.str r.hash)),
    (str "event", some (r.event.json time))]

def LifecycleRecord.json (r : LifecycleRecord T) (time : GoString) : Json := .obj (present (r.fields time))

/-- The text of an event; there is none if its time cannot be written. -/
def LifecycleEvent.marshal (e : LifecycleEvent T) : GoString := ((X.format e.time).map fun s => (e.json s).encode).getD []

def LifecycleRecord.marshal (r : LifecycleRecord T) : GoString := ((X.format r.event.time).map fun s => (r.json s).encode).getD []

def recordHash (r : LifecycleRecord T) : GoString :=
  GoString.hexEncode (Sha256.sum256 (str "autosql.lifecycle.audit/v1" ++ 0 :: LifecycleRecord.marshal X { r with hash := [] }))

/-! ### Reading -/

def zeroEvent : LifecycleEvent T := ⟨[], [], [], [], [], [], [], [], [], X.zero, 0⟩

/-- Reading an event over another. -/
def LifecycleEvent.unmarshal (old : LifecycleEvent T) (raw : GoString) : Option (LifecycleEvent T) := do
  let ms ← rawMembers raw
  let eventID ← field (str "EventID") decodeString old.eventID ms
  let type ← field (str "Type") decodeString old.type ms
  let executionID ← field (str "ExecutionID") decodeString old.executionID ms
  let target ← field (str "Target") decodeString old.target ms
  let artifactDigest ← field (str "ArtifactDigest") decodeString old.artifactDigest ms
  let planDigest ← field (str "PlanDigest") decodeString old.planDigest ms
  let bundleDigest ← field (str "BundleDigest") decodeString old.bundleDigest ms
  let stepID ← field (str "StepID") decodeString old.stepID ms
  let guidance ← field (str "Guidance") decodeString old.guidance ms
  let time ← field (str "At") X.decode old.time ms
  let attempt ← field (str "Attempt") decodeInt old.attempt.toInt ms
  some ⟨eventID, type, executionID, target, artifactDigest, planDigest, bundleDigest, stepID, guidance, time, .ofInt attempt⟩

def LifecycleRecord.unmarshal (raw : GoString) : Option (LifecycleRecord T) := do
  let ms ← rawMembers raw
  let sequence ← field (str "sequence") decodeUint64 0 ms
  let previousHash ← field (str "previous_hash") decodeString [] ms
  let hash ← field (str "hash") decodeString [] ms
  let event ← field (str "event") (LifecycleEvent.unmarshal X) (zeroEvent X) ms
  some ⟨sequence, previousHash, hash, event⟩

/-- The sequence number and the hash of the last record. -/
def tail (rs : List (LifecycleRecord T)) : UInt64 × GoString := (rs.getLast?.map fun r => (r.sequence, r.hash)).getD (0, [])

/-- How `readLifecycle` reads a file. -/
def format : Format (LifecycleRecord T) where
  limit := 64 * 1024
  decode := LifecycleRecord.unmarshal X
  accepts rs r := r.sequence = (tail rs).1 + 1 && r.previousHash = (tail rs).2 && r.hash = recordHash X r

/-- `readLifecycle`. -/
def readLifecycle (file : GoString) : Option (List (LifecycleRecord T)) := (format X).records file

/-! ### Appending -/

inductive Answer
  | ok
  | conflict
  | unreadable
  | interrupted
  deriving DecidableEq

/-- Both events have the same text, apart from their times. -/
def sameEvent (e e' : LifecycleEvent T) : Bool :=
  LifecycleEvent.marshal X { e with time := X.zero } = LifecycleEvent.marshal X { e' with time := X.zero }

/-- The records with the identity of an event; an empty identity is never recorded. -/
def recorded (rs : List (LifecycleRecord T)) (e : LifecycleEvent T) : List (LifecycleRecord T) :=
  rs.filter fun r => e.eventID ≠ [] && r.event.eventID = e.eventID

/-- The record that is appended after others. -/
def newRecord (rs : List (LifecycleRecord T)) (e : LifecycleEvent T) : LifecycleRecord T :=
  let r : LifecycleRecord T := ⟨(tail rs).1 + 1, (tail rs).2, [], e⟩
  { r with hash := recordHash X r }

/-- `FileAudit.AppendDurable`.  An interrupted call has written the first bytes of its line, at most; a failed call that
has written nothing is one of those. -/
def appendDurable (file : GoString) (e : LifecycleEvent T) (interrupted : Option Nat) : Answer × GoString :=
  match readLifecycle X file with
  | none => (.unreadable, file)
  | some rs =>
    if (recorded rs e).any fun r => !sameEvent X r.event e then (.conflict, file)
    else
      let line := if recorded rs e = [] then LifecycleRecord.marshal X (newRecord X rs e) ++ [newline] else []
      match interrupted with
      | none => (.ok, file ++ line)
      | some n => (.interrupted, file ++ line.take n)

/-! ### What comes back -/

variable {X} {e e' : LifecycleEvent T} {r : LifecycleRecord T} {rs : List (LifecycleRecord T)} {time : GoString}

/-- The strings of an event. -/
def LifecycleEvent.strings (e : LifecycleEvent T) : List GoString :=
  [e.eventID, e.type, e.executionID, e.target, e.artifactDigest, e.planDigest, e.bundleDigest, e.stepID, e.guidance]

/-- The strings of the event are UTF-8. -/
def LifecycleEvent.Valid (e : LifecycleEvent T) : Prop := ∀ s ∈ e.strings, valid s = true

/-- The event with its bad bytes replaced. -/
def LifecycleEvent.clean (e : LifecycleEvent T) : LifecycleEvent T :=
  { e with
    eventID := sanitize e.eventID, type := sanitize e.type, executionID := sanitize e.executionID,
    target := sanitize e.target, artifactDigest := sanitize e.artifactDigest, planDigest := sanitize e.planDigest,
    bundleDigest := sanitize e.bundleDigest, stepID := sanitize e.stepID, guidance := sanitize e.guidance }

theorem LifecycleEvent.Valid.clean (h : e.Valid) : e.clean = e := by
  have hs : ∀ s ∈ e.strings, sanitize s = s := fun s hs => sanitize_of_valid (h s hs)
  simp only [strings, forall_mem_cons] at hs
  obtain ⟨h₁, h₂, h₃, h₄, h₅, h₆, h₇, h₈, h₉, -⟩ := hs
  rw [LifecycleEvent.clean, h₁, h₂, h₃, h₄, h₅, h₆, h₇, h₈, h₉]

theorem distinct_event : Distinct ((e.fields time).map Prod.fst) := by
  rw [LifecycleEvent.fields]
  simp only [map_cons, map_nil]
  decide +kernel

theorem distinct_record : Distinct ((r.fields time).map Prod.fst) := by
  rw [LifecycleRecord.fields]
  simp only [map_cons, map_nil]
  decide +kernel

theorem LifecycleEvent.strict (e : LifecycleEvent T) (time : GoString) : Strict 1 (e.json time) := by
  refine Strict.record distinct_event fun p hp v hv => ?_
  simp only [fields, mem_cons, not_mem_nil, or_false] at hp
  rcases hp with rfl | rfl | rfl | rfl | rfl | rfl | rfl | rfl | rfl | rfl | rfl <;> cases hv
  all_goals first | exact Strict.str _ | exact Strict.int _

theorem LifecycleRecord.strict (r : LifecycleRecord T) (time : GoString) : Strict 2 (r.json time) := by
  refine Strict.record distinct_record ?_
  simp only [fields, forall_mem_cons, Option.mem_def, Option.some.injEq, forall_eq']
  exact ⟨.uint64 _, fun _ => .unlessEmpty, .str _, r.event.strict time, by simp⟩

/-- An event is read back with its bad bytes replaced. -/
theorem LifecycleEvent.unmarshal_json {t : T} (htime : X.format e.time = some time) (hparse : X.parse time = some t) :
    LifecycleEvent.unmarshal X (zeroEvent X) (e.json time).encode = some { e.clean with time := t } := by
  have hd : Distinct ((e.fields time).map Prod.fst) := distinct_event
  have hat : field (str "At") X.decode X.zero (texts (e.fields time)) = some t :=
    (X.field_time hd 9 rfl htime).trans hparse
  have hattempt : field (str "Attempt") decodeInt (0 : Int64).toInt (texts (e.fields time)) = some e.attempt.toInt :=
    field_int hd 10 rfl ⟨e.attempt.le_toInt, e.attempt.toInt_lt⟩
  have hresult : LifecycleEvent.mk (sanitize e.eventID) (sanitize e.type) (sanitize e.executionID)
      (sanitize e.target) (sanitize e.artifactDigest) (sanitize e.planDigest) (sanitize e.bundleDigest)
      (sanitize e.stepID) (sanitize e.guidance) t (.ofInt e.attempt.toInt) = { e.clean with time := t } := by
    rw [Int64.ofInt_toInt]
    rfl
  rw [← hresult]
  exact bind_of_some (rawMembers_encode rfl hd ((e.strict time).mono (by decide))) <| bind_of_some (field_string hd 0 rfl) <| bind_of_some (field_string hd 1 rfl) <|
    bind_of_some (field_string hd 2 rfl) <| bind_of_some (field_string hd 3 rfl) <| bind_of_some (field_string hd 4 rfl) <|
    bind_of_some (field_string hd 5 rfl) <| bind_of_some (field_string hd 6 rfl) <| bind_of_some (field_string hd 7 rfl) <|
    bind_of_some (field_string hd 8 rfl) <| bind_of_some hat <| bind_of_some hattempt rfl

/-- What an event needs to come back as it is. -/
structure Kept (X : TimeText T) (e : LifecycleEvent T) : Prop where
  valid : e.Valid
  time : ∃ s, X.format e.time = some s ∧ X.parse s = some e.time

theorem Kept.unmarshal_json (h : Kept X e) (htime : X.format e.time = some time) :
    LifecycleEvent.unmarshal X (zeroEvent X) (e.json time).encode = some e := by
  obtain ⟨s, hs, hparse⟩ := h.time
  rw [htime, Option.some.injEq] at hs
  subst hs
  rw [LifecycleEvent.unmarshal_json htime hparse, h.valid.clean]

theorem valid_hash (s : GoString) : valid (GoString.hexEncode s) = true :=
  Utf8.valid_of_ascii fun _ => GoString.hexEncode_ascii

/-- A record is read back if its event and its hashes are. -/
theorem unmarshal_record (h : Kept X r.event) (htime : X.format r.event.time = some time) (hprev : valid r.previousHash = true)
    (hhash : valid r.hash = true) : LifecycleRecord.unmarshal X (r.json time).encode = some r := by
  have hd : Distinct ((r.fields time).map Prod.fst) := distinct_record
  have hevent : field (str "event") (LifecycleEvent.unmarshal X) (zeroEvent X) (texts (r.fields time)) = some r.event := by
    rw [field_texts hd 3 rfl]
    exact h.unmarshal_json htime
  have hresult : r = ⟨r.sequence, sanitize r.previousHash, sanitize r.hash, r.event⟩ := by
    rw [sanitize_of_valid hprev, sanitize_of_valid hhash]
  conv_rhs => rw [hresult]
  exact bind_of_some (rawMembers_encode rfl hd ((r.strict time).mono (by decide))) <| bind_of_some (field_uint64 hd 0 rfl) <| bind_of_some (field_unlessEmpty hd 1 rfl) <|
    bind_of_some (field_string hd 2 rfl) <| bind_of_some hevent rfl

/-! ### Events with the same text -/

theorem sanitize_json (e : LifecycleEvent T) (time : GoString) : (e.json time).sanitize = e.clean.json (sanitize time) :=
  sanitize_record (e.fields time) rfl distinct_event

theorem valid_of_json (h : Json.bad (e.json time) = 0) : e.Valid := by
  have hstr : ∀ (i : Nat) (n s : GoString), (e.fields time)[i]? = some (n, some (Json.str s)) → valid s = true :=
    fun i n s hi => Json.valid_of_badBytes (bad_of_field h i hi)
  intro s hs
  simp only [LifecycleEvent.strings, mem_cons, not_mem_nil, or_false] at hs
  rcases hs with rfl | rfl | rfl | rfl | rfl | rfl | rfl | rfl | rfl
  · exact hstr 0 _ _ rfl
  · exact hstr 1 _ _ rfl
  · exact hstr 2 _ _ rfl
  · exact hstr 3 _ _ rfl
  · exact hstr 4 _ _ rfl
  · exact hstr 5 _ _ rfl
  · exact hstr 6 _ _ rfl
  · exact hstr 7 _ _ rfl
  · exact hstr 8 _ _ rfl

/-- Events with the same text are equal up to their times, if one of them is UTF-8. -/
theorem eq_of_sameEvent (h : e.Valid) (hsame : sameEvent X e e' = true) : e' = { e with time := e'.time } := by
  obtain ⟨s, hs, hparse⟩ := X.zero_text
  have htext : (LifecycleEvent.json { e with time := X.zero } s).encode = (LifecycleEvent.json { e' with time := X.zero } s).encode := by
    simpa [sameEvent, LifecycleEvent.marshal, hs] using hsame
  have hnested : ∀ e : LifecycleEvent T, Json.Nested Json.maxNestingDepth (e.json s) := fun e => ((e.strict s).mono (by decide)).1
  -- the text of the first is clean, so the second has no bad bytes either
  have hclean : (LifecycleEvent.json { e with time := X.zero } s).sanitize = LifecycleEvent.json { e with time := X.zero } s := by
    have hvalid : LifecycleEvent.Valid { e with time := X.zero } := h
    rw [sanitize_json, hvalid.clean, sanitize_of_valid (X.valid_format hs)]
  have hvalid : LifecycleEvent.Valid { e' with time := X.zero } := by
    have hkept : (LifecycleEvent.json { e' with time := X.zero } s).encode =
        (LifecycleEvent.json { e' with time := X.zero } s).sanitize.encode := by
      rw [← Json.sanitize_eq_of_encode (hnested _) (hnested _) htext, hclean, htext]
    exact valid_of_json (Json.bad_eq_zero (hnested _) hkept)
  have hread := Kept.unmarshal_json (e := { e with time := X.zero }) ⟨h, s, hs, hparse⟩ hs
  rw [htext, Kept.unmarshal_json ⟨hvalid, s, hs, hparse⟩ hs] at hread
  cases e
  cases hread
  rfl

/-! ### Files that can be read -/

/-- Records that were written whole, of events that come back. -/
structure Sound (X : TimeText T) (r : LifecycleRecord T) : Prop where
  kept : Kept X r.event
  hash : valid r.hash = true

theorem valid_tail (h : ∀ r ∈ rs, Sound X r) : valid (tail rs).2 = true := by
  unfold tail
  cases hlast : rs.getLast? with
  | none => rfl
  | some r => exact (h r (mem_of_getLast? hlast)).hash

theorem newRecord_sound (h : Kept X e) : Sound X (newRecord X rs e) := ⟨h, valid_hash _⟩

/-- The line of a new record is read back. -/
theorem step_newRecord (hrs : ∀ r ∈ rs, Sound X r) (h : Kept X e)
    (hlimit : (LifecycleRecord.marshal X (newRecord X rs e)).length < (format X).limit) :
    (format X).step rs (LifecycleRecord.marshal X (newRecord X rs e)) = some (rs ++ [newRecord X rs e]) := by
  obtain ⟨s, hs, -⟩ := h.time
  have htext : LifecycleRecord.marshal X (newRecord X rs e) = ((newRecord X rs e).json s).encode := by
    rw [LifecycleRecord.marshal, show (newRecord X rs e).event.time = e.time from rfl, hs]
    rfl
  have hline : dropCR ((newRecord X rs e).json s).encode = ((newRecord X rs e).json s).encode :=
    dropCR_of_ge (Json.encode_ge ((newRecord X rs e).strict s).1)
  refine Format.step_eq_some.mpr ⟨hlimit, newRecord X rs e, ?_, ?_, rfl⟩
  · rw [htext, hline]
    exact unmarshal_record h hs (valid_tail hrs) (valid_hash _)
  · -- the hash is over the record without its hash
    show (decide _ && decide _ && decide (recordHash X _ = recordHash X _)) = true
    simp [recordHash, newRecord]

theorem newline_notMem_marshal (r : LifecycleRecord T) : newline ∉ LifecycleRecord.marshal X r := by
  unfold LifecycleRecord.marshal
  cases X.format r.event.time with
  | none => exact not_mem_nil
  | some s => exact not_mem_of_ge (Json.encode_ge (r.strict s).1)

/-! ### Runs -/

/-- A file that can be read, with the line of a new record. -/
theorem readLifecycle_newRecord {file : GoString} (hread : readLifecycle X file = some rs) (hrs : ∀ r ∈ rs, Sound X r) (h : Kept X e)
    (hlimit : (LifecycleRecord.marshal X (newRecord X rs e)).length < 64 * 1024) :
    readLifecycle X (file ++ (LifecycleRecord.marshal X (newRecord X rs e) ++ [newline])) = some (rs ++ [newRecord X rs e]) := by
  rw [readLifecycle, Format.records_append_line hread (newline_notMem_marshal _)]
  exact step_newRecord hrs h hlimit

/-- A call: the event, and for an interrupted call how many bytes of the line it had written. -/
structure Call (T : Type) where
  event : LifecycleEvent T
  interrupted : Option Nat

/-- The file, and the events whose calls returned. -/
structure State (T : Type) where
  file : GoString
  acknowledged : List (LifecycleEvent T)

def State.step (X : TimeText T) (st : State T) (c : Call T) : State T :=
  let r := appendDurable X st.file c.event c.interrupted
  ⟨r.2, if r.1 = .ok then st.acknowledged ++ [c.event] else st.acknowledged⟩

/-- The calls, from an empty file. -/
def run (X : TimeText T) (calls : List (Call T)) : State T := calls.foldl (State.step X) ⟨[], []⟩

/-- **What the file should be.**  Every acknowledged event is read back, and an event with a new identity can be appended. -/
structure State.Readable (X : TimeText T) (st : State T) : Prop where
  acknowledged : ∃ rs, readLifecycle X st.file = some rs ∧ ∀ e ∈ st.acknowledged, ∃ r ∈ rs, r.event = e
  later : ∀ e, (∀ rs, readLifecycle X st.file = some rs → recorded rs e = []) → (appendDurable X st.file e none).1 = .ok

/-- What a call after the records `rs` must be like.  If it writes anything then it writes the whole line, the line fits into
the buffer of the reader, and the event comes back as it is; if it returns for an event that is recorded already, the
recorded event has the same time. -/
structure Call.Whole (X : TimeText T) (rs : List (LifecycleRecord T)) (c : Call T) : Prop where
  written : recorded rs c.event = [] → c.interrupted = some 0 ∨ Kept X c.event ∧
    (LifecycleRecord.marshal X (newRecord X rs c.event)).length < 64 * 1024 ∧
    ∀ n, c.interrupted = some n → (LifecycleRecord.marshal X (newRecord X rs c.event)).length < n
  replayed : c.interrupted = none → ∀ r ∈ recorded rs c.event, sameEvent X r.event c.event = true → r.event.time = c.event.time

/-- Every call of a run is of that kind, after the records that it finds. -/
def AllWhole (X : TimeText T) : State T → List (Call T) → Prop
  | _, [] => True
  | st, c :: calls => (∀ rs, readLifecycle X st.file = some rs → c.Whole X rs) ∧ AllWhole X (st.step X c) calls

/-- The invariant of such runs. -/
structure State.Inv (X : TimeText T) (rs : List (LifecycleRecord T)) (st : State T) : Prop where
  read : readLifecycle X st.file = some rs
  sound : ∀ r ∈ rs, Sound X r
  acknowledged : ∀ e ∈ st.acknowledged, ∃ r ∈ rs, r.event = e

variable {st : State T} {c : Call T}

theorem State.Inv.readable (h : st.Inv X rs) : st.Readable X := by
  refine ⟨⟨rs, h.read, h.acknowledged⟩, fun e he => ?_⟩
  have hnew := he rs h.read
  rw [appendDurable, h.read]
  simp [hnew]

/-- What an append does to a file that can be read. -/
theorem appendDurable_eq {file : GoString} {interrupted : Option Nat} (h : readLifecycle X file = some rs) :
    appendDurable X file e interrupted = if (recorded rs e).any (fun r => !sameEvent X r.event e) then (.conflict, file)
      else match interrupted with
        | none => (.ok, file ++ if recorded rs e = [] then LifecycleRecord.marshal X (newRecord X rs e) ++ [newline] else [])
        | some n => (.interrupted, file ++ (if recorded rs e = [] then LifecycleRecord.marshal X (newRecord X rs e) ++ [newline] else []).take n) := by
  rw [appendDurable, h]

/-- An event that is recorded already. -/
theorem State.Inv.step_recorded (h : st.Inv X rs) (hc : c.Whole X rs) (hrec : recorded rs c.event ≠ []) : (st.step X c).Inv X rs := by
  unfold State.step
  rw [appendDurable_eq h.read]
  split_ifs with hsame
  · exact h
  · cases hint : c.interrupted with
    | some n =>
      refine ⟨?_, h.sound, h.acknowledged⟩
      simpa using h.read
    | none =>
      refine ⟨by simpa using h.read, h.sound, forall_mem_append.mpr ⟨h.acknowledged, forall_mem_singleton.mpr ?_⟩⟩
      -- the recorded event is this one
      obtain ⟨r, hr⟩ := exists_mem_of_ne_nil _ hrec
      have hmem := (mem_filter.mp hr).1
      have hsame' : sameEvent X r.event c.event = true := by
        simp only [any_eq_true, not_exists, not_and, Bool.not_eq_true, Bool.not_eq_false'] at hsame
        exact hsame r hr
      refine ⟨r, hmem, ?_⟩
      rw [eq_of_sameEvent (h.sound r hmem).kept.valid hsame', ← hc.replayed hint r hr hsame']

/-- An event that is new. -/
theorem State.Inv.step_new (h : st.Inv X rs) (hc : c.Whole X rs) (hnew : recorded rs c.event = []) :
    ∃ rs', (st.step X c).Inv X rs' := by
  unfold State.step
  rw [appendDurable_eq h.read]
  simp only [hnew, any_nil, Bool.false_eq_true, if_false, if_true]
  rcases hc.written hnew with hint | ⟨hkept, hlimit, hint⟩
  · rw [hint]
    refine ⟨rs, ?_, h.sound, h.acknowledged⟩
    simpa using h.read
  · have hline : readLifecycle X (st.file ++ (LifecycleRecord.marshal X (newRecord X rs c.event) ++ [newline])) =
        some (rs ++ [newRecord X rs c.event]) := readLifecycle_newRecord h.read h.sound hkept hlimit
    have hsound : ∀ r ∈ rs ++ [newRecord X rs c.event], Sound X r :=
      forall_mem_append.mpr ⟨h.sound, forall_mem_singleton.mpr (newRecord_sound hkept)⟩
    have hold : ∀ e ∈ st.acknowledged, ∃ r ∈ rs ++ [newRecord X rs c.event], r.event = e := by
      intro e he
      obtain ⟨r, hr, hre⟩ := h.acknowledged e he
      exact ⟨r, mem_append_left _ hr, hre⟩
    refine ⟨rs ++ [newRecord X rs c.event], ?_⟩
    cases hi : c.interrupted with
    | some n =>
      have hlen := hint n hi
      refine ⟨?_, hsound, hold⟩
      show readLifecycle X (st.file ++ (LifecycleRecord.marshal X (newRecord X rs c.event) ++ [newline]).take n) = _
      rw [take_of_length_le (by rw [length_append]; exact hlen)]
      exact hline
    | none =>
      refine ⟨hline, hsound, forall_mem_append.mpr ⟨hold, forall_mem_singleton.mpr ?_⟩⟩
      exact ⟨_, mem_append_right _ (mem_singleton_self _), rfl⟩

/-- One call keeps the file readable. -/
theorem State.Inv.step (h : st.Inv X rs) (hc : c.Whole X rs) : ∃ rs', (st.step X c).Inv X rs' := by
  by_cases hnew : recorded rs c.event = []
  · exact h.step_new hc hnew
  · exact ⟨rs, h.step_recorded hc hnew⟩

/-- Every state of the run from a state with the invariant has it. -/
theorem State.Inv.run {calls : List (Call T)} (h : st.Inv X rs) (hc : AllWhole X st calls) (n : Nat) :
    ∃ rs', ((calls.take n).foldl (State.step X) st).Inv X rs' := by
  induction calls generalizing st rs n with
  | nil =>
    rw [take_nil]
    exact ⟨rs, h⟩
  | cons c calls ih =>
    cases n with
    | zero => exact ⟨rs, h⟩
    | succ n =>
      obtain ⟨rs', h'⟩ := h.step (hc.1 rs h.read)
      exact ih h' hc.2 n

/-- **The audit file stays readable** in every run whose calls write whole lines that fit and that come back. -/
theorem appends_readable {calls : List (Call T)} (h : AllWhole X ⟨[], []⟩ calls) (n : Nat) : (run X (calls.take n)).Readable X := by
  have hempty : State.Inv X [] ⟨[], []⟩ := ⟨rfl, (fun r hr => nomatch hr), (fun e he => nomatch he)⟩
  obtain ⟨rs, hrs⟩ := hempty.run h n
  exact hrs.readable

/-- One instant and its text. -/
def oneTime : TimeText Unit where
  zero := ()
  format _ := some (str "2026-01-01T00:00:00Z")
  parse _ := some ()
  plain t s h := by
    cases h
    decide +kernel
  zero_text := ⟨_, rfl, rfl⟩

def sampleEvent (id : GoString) : LifecycleEvent Unit := ⟨id, str "intent", [], [], [], [], [], str "step", [], (), 1⟩

theorem appends_readable_one : (run oneTime ([(⟨sampleEvent (str "a"), none⟩ : Call Unit)].take 1)).Readable oneTime := by
  have hlimit : (LifecycleRecord.marshal oneTime (newRecord oneTime [] (sampleEvent (str "a")))).length < 64 * 1024 := by
    decide +kernel
  have hkept : Kept oneTime (sampleEvent (str "a")) :=
    ⟨by unfold LifecycleEvent.Valid; decide +kernel, _, rfl, rfl⟩
  have hwhole : AllWhole oneTime ⟨[], []⟩ [⟨sampleEvent (str "a"), none⟩] := by
    refine ⟨?_, trivial⟩
    rintro rs ⟨⟩
    exact ⟨fun _ => .inr ⟨hkept, hlimit, nofun⟩, fun _ r hr => nomatch hr⟩
  exact appends_readable hwhole 1

/-- **Two ways to end the file.**  A call that is interrupted after its first byte, and a call with a string that is not UTF-8,
which returns: afterwards the file cannot be read, and nothing can be appended. -/
theorem appends_unreadable :
    (appendDurable oneTime (run oneTime [⟨sampleEvent (str "a"), some 1⟩]).file (sampleEvent (str "b")) none).1 = .unreadable ∧
      (run oneTime [⟨sampleEvent [0xFF], none⟩]).acknowledged.length = 1 ∧
      (readLifecycle oneTime (run oneTime [⟨sampleEvent [0xFF], none⟩]).file).isNone = true ∧
      (appendDurable oneTime (run oneTime [⟨sampleEvent [0xFF], none⟩]).file (sampleEvent (str "b")) none).1 = .unreadable := by
  decide +kernel

end AutoSql.LifecycleAudit
