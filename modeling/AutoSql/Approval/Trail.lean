/-
AutoSql/Approval/Trail.lean

The audit trail of approvals: a file with one JSON record a line, each with its number,
the hash of the record before it and its own hash.

Several processes append to one file.  Each reads the tail under the lock, makes its
record, and writes it under the lock if the tail is still the same; so the two parts of
one append may have parts of others between them.  `Step` is one such part, and a run is
any sequence of them.

Two things are not looked at before a record is written: whether its strings are UTF-8
(otherwise its hash does not match when it is read back), and whether the reader's
buffer is long enough for its line.  A write that fails inside the line leaves the file
unreadable.  If only the newline is missing, the reader still takes the record, and the
next record is written to the same line.

Main result: `trail_grows`.
-/
import AutoSql.Lib.LineLog
import AutoSql.Lib.Sha256
import AutoSql.Lib.TimeText

namespace AutoSql.Approvals

open GoJson LineLog List
open Utf8 (valid sanitize)

/-- Nanoseconds since the zero time. -/
abbrev Instant := Int

structure Event where
  time : Instant
  type : GoString
  planDigest : GoString
  environment : GoString
  actor : GoString
  reason : GoString
  approvers : List GoString
  emergency : Bool
  allowed : Bool
  deriving DecidableEq

structure AuditRecord where
  sequence : UInt64
  previousHash : GoString
  hash : GoString
  event : Event
  deriving DecidableEq

/-! ### Writing -/

variable (X : UtcText Instant)

/-- The fields of an event, with the text of its time. -/
def Event.fields (e : Event) (time : GoString) : List (GoString × Option Json) :=
  [(str "at", some (.str time)), (str "type", some (.str e.type)), (str "plan_digest", some (.str e.planDigest)),
    (str "environment", some (.str e.environment)), (str "actor", some (.str e.actor)), (str "reason", unlessEmpty e.reason),
    (str "approvers", unlessNoStrings e.approvers), (str "emergency", some (.bool e.emergency)),
    (str "allowed", some (.bool e.allowed))]

def Event.json (e : Event) (time : GoString) : Json := .obj (present (e.fields time))

def AuditRecord.fields (r : AuditRecord) (time : GoString) : List (GoString × Option Json) :=
  [(str "sequence", some (uint64 r.sequence)), (str "previous_hash", unlessEmpty r.previousHash), (str "hash", some (.str r.hash)),
    (str "event", some (r.event.json time))]

def AuditRecord.json (r : AuditRecord) (time : GoString) : Json := .obj (present (r.fields time))

/-- What is hashed: the record without its hash. -/
def AuditRecord.payload (r : AuditRecord) (time : GoString) : Json :=
  .obj (present [(str "sequence", some (uint64 r.sequence)), (str "previous_hash", unlessEmpty r.previousHash),
    (str "event", some (r.event.json time))])

/-- `hashRecord`; nothing is hashed if the time cannot be written. -/
def hashRecord (r : AuditRecord) : GoString :=
  GoString.hexEncode (Sha256.sum256 (((X.format r.event.time).map fun s => (r.payload s).encode).getD []))

def verifyHash (r : AuditRecord) : Bool := r.hash ≠ [] && r.hash = hashRecord X r

/-- The line of a record, if it can be written. -/
def AuditRecord.line (r : AuditRecord) : Option GoString := (X.format r.event.time).map fun s => (r.json s).encode

/-! ### Reading -/

def zeroEvent : Event := ⟨X.zero, [], [], [], [], [], [], false, false⟩

/-- Reading an event over another. -/
def Event.unmarshal (old : Event) (raw : GoString) : Option Event := do
  let ms ← rawMembers raw
  let time ← field (str "at") X.decode old.time ms
  let type ← field (str "type") decodeString old.type ms
  let planDigest ← field (str "plan_digest") decodeString old.planDigest ms
  let environment ← field (str "environment") decodeString old.environment ms
  let actor ← field (str "actor") decodeString old.actor ms
  let reason ← field (str "reason") decodeString old.reason ms
  let approvers ← (field (str "approvers") (decodeSlice (decodeString [])) none ms).map (·.getD [])
  let emergency ← field (str "emergency") decodeBool old.emergency ms
  let allowed ← field (str "allowed") decodeBool old.allowed ms
  some ⟨time, type, planDigest, environment, actor, reason, approvers, emergency, allowed⟩

def AuditRecord.unmarshal (raw : GoString) : Option AuditRecord := do
  let ms ← rawMembers raw
  let sequence ← field (str "sequence") decodeUint64 0 ms
  let previousHash ← field (str "previous_hash") decodeString [] ms
  let hash ← field (str "hash") decodeString [] ms
  let event ← field (str "event") (Event.unmarshal X) (zeroEvent X) ms
  some ⟨sequence, previousHash, hash, event⟩

/-- The hash of the last record; there is none in an empty file. -/
def lastHash (rs : List AuditRecord) : GoString := (rs.getLast?.map AuditRecord.hash).getD []

/-- How `FileSink.load` reads a file. -/
def format : Format AuditRecord where
  limit := 1 <<< 20
  decode := AuditRecord.unmarshal X
  accepts rs r := r.sequence = .ofNat (rs.length + 1) && r.previousHash = lastHash rs && verifyHash X r

/-- `FileSink.load`. -/
def load (file : GoString) : Option (List AuditRecord) := (format X).load file

/-! ### Appending -/

/-- The record that `Chain.AppendDurable` makes after reading the tail. -/
def newRecord (rs : List AuditRecord) (e : Event) : AuditRecord :=
  let r : AuditRecord := ⟨(rs.getLast?.map AuditRecord.sequence).getD 0 + 1, lastHash rs, [], e⟩
  { r with hash := hashRecord X r }

inductive Answer
  | ok
  | unreadable
  | conflict
  | invalid
  | failed
  deriving DecidableEq

/-- `FileSink.appendLocked`.  A write may fail after some bytes; a call that fails without writing is one of those. -/
def appendLocked (file : GoString) (r : AuditRecord) (failed : Option Nat) : Answer × GoString :=
  match load X file with
  | none => (.unreadable, file)
  | some rs =>
    if lastHash rs ≠ r.previousHash then (.conflict, file)
    else if !verifyHash X r || r.sequence ≠ .ofNat (rs.length + 1) then (.invalid, file)
    else
      match r.line X, failed with
      | none, _ => (.failed, file)
      | some line, none => (.ok, file ++ (line ++ [newline]))
      | some line, some n => (.failed, file ++ (line ++ [newline]).take n)

/-! ### What comes back -/

variable {X} {e : Event} {r : AuditRecord} {rs : List AuditRecord} {time line : GoString}

/-- The strings of an event. -/
def Event.strings (e : Event) : List GoString := [e.type, e.planDigest, e.environment, e.actor, e.reason] ++ e.approvers

/-- The strings of the event are UTF-8. -/
def Event.Valid (e : Event) : Prop := ∀ s ∈ e.strings, valid s = true

theorem distinct_event : Distinct ((e.fields time).map Prod.fst) := by
  rw [Event.fields]
  simp only [map_cons, map_nil]
  decide +kernel

theorem distinct_record : Distinct ((r.fields time).map Prod.fst) := by
  rw [AuditRecord.fields]
  simp only [map_cons, map_nil]
  decide +kernel

theorem Event.strict (e : Event) (time : GoString) : Strict 2 (e.json time) := by
  refine Strict.record distinct_event ?_
  simp only [fields, forall_mem_cons, Option.mem_def, Option.some.injEq, forall_eq']
  exact ⟨.str _, .str _, .str _, .str _, .str _, fun _ => .unlessEmpty, fun _ => .unlessNoStrings, .bool _, .bool _, by simp⟩

theorem AuditRecord.strict (r : AuditRecord) (time : GoString) : Strict 3 (r.json time) := by
  refine Strict.record distinct_record ?_
  simp only [fields, forall_mem_cons, Option.mem_def, Option.some.injEq, forall_eq']
  exact ⟨.uint64 _, fun _ => .unlessEmpty, .str _, r.event.strict time, by simp⟩

theorem Event.Valid.unmarshal_json (h : e.Valid) (htime : X.format e.time = some time) :
    Event.unmarshal X (zeroEvent X) (e.json time).encode = some e := by
  have hd : Distinct ((e.fields time).map Prod.fst) := distinct_event
  have hat : field (str "at") X.decode X.zero (texts (e.fields time)) = some e.time :=
    (X.field_time hd 0 rfl htime).trans (X.back _ _ htime)
  have hs : ∀ s ∈ e.strings, sanitize s = s := fun s hs => Utf8.sanitize_of_valid (h s hs)
  simp only [Event.strings, cons_append, nil_append, forall_mem_cons] at hs
  obtain ⟨h₁, h₂, h₃, h₄, h₅, h₆⟩ := hs
  have hresult : e = ⟨e.time, sanitize e.type, sanitize e.planDigest, sanitize e.environment,
      sanitize e.actor, sanitize e.reason, e.approvers.map sanitize, e.emergency, e.allowed⟩ := by
    rw [h₁, h₂, h₃, h₄, h₅, map_congr_left h₆, map_id']
  conv_rhs => rw [hresult]
  exact bind_of_some (rawMembers_encode rfl hd ((e.strict time).mono (by decide))) <| bind_of_some hat <| bind_of_some (field_string hd 1 rfl) <| bind_of_some (field_string hd 2 rfl) <|
    bind_of_some (field_string hd 3 rfl) <| bind_of_some (field_string hd 4 rfl) <| bind_of_some (field_unlessEmpty hd 5 rfl) <|
    bind_of_some (field_unlessNoStrings hd 6 rfl) <| bind_of_some (field_bool hd 7 rfl) <| bind_of_some (field_bool hd 8 rfl) rfl

/-- A record is read back if its event and its hashes are UTF-8. -/
theorem unmarshal_record (h : r.event.Valid) (htime : X.format r.event.time = some time) (hprev : valid r.previousHash = true)
    (hhash : valid r.hash = true) : AuditRecord.unmarshal X (r.json time).encode = some r := by
  have hd : Distinct ((r.fields time).map Prod.fst) := distinct_record
  have hevent : field (str "event") (Event.unmarshal X) (zeroEvent X) (texts (r.fields time)) = some r.event := by
    rw [field_texts hd 3 rfl]
    exact h.unmarshal_json htime
  have hresult : r = ⟨r.sequence, sanitize r.previousHash, sanitize r.hash, r.event⟩ := by
    rw [Utf8.sanitize_of_valid hprev, Utf8.sanitize_of_valid hhash]
  conv_rhs => rw [hresult]
  exact bind_of_some (rawMembers_encode rfl hd ((r.strict time).mono (by decide))) <| bind_of_some (field_uint64 hd 0 rfl) <| bind_of_some (field_unlessEmpty hd 1 rfl) <|
    bind_of_some (field_string hd 2 rfl) <| bind_of_some hevent rfl

/-! ### One record after the others -/

theorem valid_hashRecord (r : AuditRecord) : valid (hashRecord X r) = true :=
  Utf8.valid_of_ascii fun _ => GoString.hexEncode_ascii

theorem hash_of_verifyHash (h : verifyHash X r = true) : r.hash = hashRecord X r := by
  rw [verifyHash, Bool.and_eq_true, decide_eq_true_eq, decide_eq_true_eq] at h
  exact h.2

theorem hashRecord_ne_nil (r : AuditRecord) : hashRecord X r ≠ [] := by
  intro h
  have hlen := congrArg List.length h
  rw [hashRecord, GoString.length_hexEncode, Sha256.length_sum256] at hlen
  cases hlen

theorem accepts_iff : (format X).accepts rs r = true ↔
    r.sequence = .ofNat (rs.length + 1) ∧ r.previousHash = lastHash rs ∧ verifyHash X r = true := by
  show (decide _ && decide _ && _) = true ↔ _
  rw [Bool.and_eq_true, Bool.and_eq_true, decide_eq_true_eq, decide_eq_true_eq, and_assoc]

/-- The records are numbered from one, and each has the hash of the one before it. -/
def Linked (rs : List AuditRecord) : Prop :=
  ∀ i r, rs[i]? = some r → r.sequence = .ofNat (i + 1) ∧ r.previousHash = lastHash (rs.take i)

/-- Whatever is read is linked. -/
theorem linked_of_load {file : GoString} (h : load X file = some rs) : Linked rs ∧ ∀ r ∈ rs, verifyHash X r = true := by
  have hacc : ∀ i r, rs[i]? = some r → r.sequence = .ofNat (i + 1) ∧ r.previousHash = lastHash (rs.take i) ∧ verifyHash X r = true := by
    intro i r hi
    have := accepts_iff.mp (Format.accepts_of_read h hi)
    rw [List.length_take, Nat.min_eq_left (Nat.le_of_lt (List.getElem?_eq_some_iff.mp hi).1)] at this
    exact this
  refine ⟨fun i r hi => ⟨(hacc i r hi).1, (hacc i r hi).2.1⟩, fun r hr => ?_⟩
  obtain ⟨i, hi⟩ := mem_iff_getElem?.mp hr
  exact (hacc i r hi).2.2

theorem valid_lastHash (h : ∀ r ∈ rs, verifyHash X r = true) : valid (lastHash rs) = true := by
  unfold lastHash
  cases hlast : rs.getLast? with
  | none => rfl
  | some r =>
    rw [Option.map_some, hash_of_verifyHash (h r (mem_of_getLast? hlast))]
    exact valid_hashRecord r

/-- The number of the next record. -/
theorem next_sequence (h : Linked rs) : (rs.getLast?.map AuditRecord.sequence).getD 0 + 1 = .ofNat (rs.length + 1) := by
  cases hlast : rs.getLast? with
  | none =>
    rw [getLast?_eq_none_iff.mp hlast]
    rfl
  | some r =>
    rw [getLast?_eq_getElem?] at hlast
    have hlen : 0 < rs.length := by
      have := (List.getElem?_eq_some_iff.mp hlast).1
      omega
    rw [Option.map_some, (h _ _ hlast).1, Nat.sub_add_cancel hlen, UInt64.ofNat_add]
    rfl

/-- A record made from the tail of a file is accepted after its records. -/
theorem accepts_newRecord (h : Linked rs) (e : Event) : (format X).accepts rs (newRecord X rs e) = true := by
  refine accepts_iff.mpr ⟨next_sequence h, rfl, ?_⟩
  rw [verifyHash, Bool.and_eq_true, decide_eq_true_eq, decide_eq_true_eq]
  exact ⟨hashRecord_ne_nil _, rfl⟩

theorem line_ge (h : r.line X = some line) : ∀ b ∈ line, 0x20 ≤ b := by
  obtain ⟨s, -, rfl⟩ := Option.map_eq_some_iff.mp h
  exact Json.encode_ge (r.strict s).1

/-- The line of a record is read back. -/
theorem step_line (hrs : ∀ r ∈ rs, verifyHash X r = true) (h : r.event.Valid) (hacc : (format X).accepts rs r = true)
    (hline : r.line X = some line) (hlimit : line.length < 1 <<< 20) : (format X).step rs line = some (rs ++ [r]) := by
  refine Format.step_eq_some.mpr ⟨hlimit, r, ?_, hacc, rfl⟩
  obtain ⟨-, hprev, hhash⟩ := accepts_iff.mp hacc
  rw [dropCR_of_ge (line_ge hline)]
  obtain ⟨s, hs, rfl⟩ := Option.map_eq_some_iff.mp hline
  refine unmarshal_record h hs (hprev ▸ valid_lastHash hrs) ?_
  rw [hash_of_verifyHash hhash]
  exact valid_hashRecord r

/-- A record that is accepted is written. -/
theorem appendLocked_accepted {file : GoString} (h : load X file = some rs) (hacc : (format X).accepts rs r = true)
    (hline : r.line X = some line) (failed : Option Nat) : appendLocked X file r failed = match failed with
      | none => (.ok, file ++ (line ++ [newline]))
      | some n => (.failed, file ++ (line ++ [newline]).take n) := by
  obtain ⟨hseq, hprev, hhash⟩ := accepts_iff.mp hacc
  have hcheck : (!verifyHash X r || decide (r.sequence ≠ .ofNat (rs.length + 1))) = false := by simp [hhash, hseq]
  unfold appendLocked
  rw [h]
  dsimp only
  rw [if_neg (not_not.mpr hprev.symm), hcheck, hline]
  cases failed <;> rfl

/-- A record that is not accepted, or that cannot be written, leaves no trace. -/
theorem appendLocked_refused {file : GoString} (h : load X file = some rs)
    (hacc : (format X).accepts rs r = false ∨ r.line X = none) (failed : Option Nat) :
    (appendLocked X file r failed).2 = file ∧ (appendLocked X file r failed).1 ≠ .ok := by
  unfold appendLocked
  rw [h]
  dsimp only
  split_ifs with hprev hcheck
  · exact ⟨rfl, nofun⟩
  · exact ⟨rfl, nofun⟩
  · have hacc' : (format X).accepts rs r = true := by
      simp only [Bool.or_eq_true, Bool.not_eq_true', decide_eq_true_eq, not_or, Bool.not_eq_false, not_not] at hcheck
      exact accepts_iff.mpr ⟨hcheck.2, (not_not.mp hprev).symm, hcheck.1⟩
    rcases hacc with hacc | hline
    · rw [hacc'] at hacc
      cases hacc
    · rw [hline]
      exact ⟨rfl, nofun⟩

/-! ### Several processes -/

/-- The file, the record that each process is about to append, and the records whose append returned. -/
structure State where
  file : GoString
  held : Nat → Option AuditRecord
  acknowledged : List AuditRecord

/-- One part of an append by a process: reading the tail, or writing the record. -/
inductive Step
  | tail (p : Nat) (e : Event)
  | append (p : Nat) (failed : Option Nat)

def State.step (X : UtcText Instant) (st : State) : Step → State
  | .tail p e => { st with held := Function.update st.held p ((load X st.file).map fun rs => newRecord X rs e) }
  | .append p failed =>
    match st.held p with
    | none => st
    | some r =>
      let a := appendLocked X st.file r failed
      ⟨a.2, Function.update st.held p none, if a.1 = .ok then st.acknowledged ++ [r] else st.acknowledged⟩

/-- The steps of the processes in some order, from an empty file. -/
def run (X : UtcText Instant) (steps : List Step) : State := steps.foldl (State.step X) ⟨[], fun _ => none, []⟩

/-- **What the trail should be.**  It is read as one chain that has every acknowledged record, in the order in which they were
acknowledged, and every event with a time that can be written can be appended. -/
structure State.Grows (X : UtcText Instant) (rs : List AuditRecord) (st : State) : Prop where
  loaded : load X st.file = some rs
  linked : Linked rs
  acknowledged : st.acknowledged.Sublist rs
  later : ∀ e, (X.format e.time).isSome = true → (appendLocked X st.file (newRecord X rs e) none).1 = .ok

/-- What a step must be like.  If it writes anything then it writes the whole line, the line fits into the buffer of the
reader, and the strings are UTF-8. -/
def Step.Whole (X : UtcText Instant) (st : State) : Step → Prop
  | .tail _ _ => True
  | .append p failed => ∀ r rs line, st.held p = some r → load X st.file = some rs → r.previousHash = lastHash rs →
    r.line X = some line → failed = some 0 ∨ r.event.Valid ∧ line.length < 1 <<< 20 ∧ ∀ n, failed = some n → line.length < n

def AllWhole (X : UtcText Instant) : State → List Step → Prop
  | _, [] => True
  | st, s :: steps => s.Whole X st ∧ AllWhole X (st.step X s) steps

/-- The invariant of runs of such steps: the file ends with a newline. -/
structure State.Inv (X : UtcText Instant) (rs : List AuditRecord) (st : State) : Prop where
  records : (format X).records st.file = some rs
  acknowledged : st.acknowledged.Sublist rs

variable {st : State}

theorem State.Inv.load (h : st.Inv X rs) : load X st.file = some rs := Format.load_of_records h.records

theorem State.Inv.grows (h : st.Inv X rs) : st.Grows X rs := by
  have hlinked := (linked_of_load h.load).1
  refine ⟨h.load, hlinked, h.acknowledged, fun e he => ?_⟩
  obtain ⟨s, hs⟩ := Option.isSome_iff_exists.mp he
  have hline : (newRecord X rs e).line X = some ((newRecord X rs e).json s).encode := by
    rw [AuditRecord.line, show (newRecord X rs e).event.time = e.time from rfl, hs]
    rfl
  rw [appendLocked_accepted h.load (accepts_newRecord hlinked e) hline]

/-- Writing a record. -/
theorem State.Inv.append {failed : Option Nat} (h : st.Inv X rs)
    (hw : ∀ line, r.previousHash = lastHash rs → r.line X = some line →
      failed = some 0 ∨ r.event.Valid ∧ line.length < 1 <<< 20 ∧ ∀ n, failed = some n → line.length < n) :
    ∃ rs', (format X).records (appendLocked X st.file r failed).2 = some rs' ∧
      (if (appendLocked X st.file r failed).1 = .ok then st.acknowledged ++ [r] else st.acknowledged).Sublist rs' := by
  by_cases hrefused : (format X).accepts rs r = false ∨ r.line X = none
  · obtain ⟨hfile, hok⟩ := appendLocked_refused h.load hrefused failed
    rw [hfile, if_neg hok]
    exact ⟨rs, h.records, h.acknowledged⟩
  · rw [not_or, Bool.not_eq_false, ← ne_eq, Option.ne_none_iff_exists'] at hrefused
    obtain ⟨hacc, line, hline⟩ := hrefused
    rw [appendLocked_accepted h.load hacc hline]
    rcases hw line (accepts_iff.mp hacc).2.1 hline with rfl | ⟨hvalid, hlimit, hfailed⟩
    · refine ⟨rs, ?_, h.acknowledged⟩
      show (format X).records (st.file ++ []) = some rs
      rw [append_nil]
      exact h.records
    · have hread : (format X).records (st.file ++ (line ++ [newline])) = some (rs ++ [r]) := by
        rw [Format.records_append_line h.records (not_mem_of_ge (line_ge hline))]
        exact step_line (linked_of_load h.load).2 hvalid hacc hline hlimit
      refine ⟨rs ++ [r], ?_⟩
      cases failed with
      | none => exact ⟨hread, h.acknowledged.append_right [r]⟩
      | some n =>
        refine ⟨?_, h.acknowledged.trans (sublist_append_left _ _)⟩
        show (format X).records (st.file ++ (line ++ [newline]).take n) = _
        rw [take_of_length_le (by rw [length_append]; exact hfailed n rfl)]
        exact hread

/-- One step keeps the chain. -/
theorem State.Inv.step (h : st.Inv X rs) {s : Step} (hs : s.Whole X st) : ∃ rs', (st.step X s).Inv X rs' := by
  cases s with
  | tail p e => exact ⟨rs, h.records, h.acknowledged⟩
  | append p failed =>
    rw [State.step]
    cases hheld : st.held p with
    | none => exact ⟨rs, h⟩
    | some r =>
      obtain ⟨rs', hrec, hack⟩ := h.append fun line hprev hline => hs r rs line hheld h.load hprev hline
      exact ⟨rs', hrec, hack⟩

theorem State.Inv.run {steps : List Step} (h : st.Inv X rs) (hs : AllWhole X st steps) (n : Nat) :
    ∃ rs', ((steps.take n).foldl (State.step X) st).Inv X rs' := by
  induction steps generalizing st rs n with
  | nil =>
    rw [take_nil]
    exact ⟨rs, h⟩
  | cons s steps ih =>
    cases n with
    | zero => exact ⟨rs, h⟩
    | succ n =>
      obtain ⟨rs', h'⟩ := h.step hs.1
      exact ih h' hs.2 n

/-- **The trail is one growing chain** after every step of every interleaving whose steps write whole lines that fit. -/
theorem trail_grows {steps : List Step} (h : AllWhole X ⟨[], fun _ => none, []⟩ steps) (n : Nat) :
    ∃ rs, (run X (steps.take n)).Grows X rs := by
  have hempty : State.Inv X [] ⟨[], fun _ => none, []⟩ := ⟨rfl, List.Sublist.slnil⟩
  obtain ⟨rs, hrs⟩ := hempty.run h n
  exact ⟨rs, hrs.grows⟩

/-- The text of the zero time, as the only one. -/
def zeroText : UtcText Instant where
  zero := 0
  format t := if t = 0 then some (str "0001-01-01T00:00:00Z") else none
  parse s := if s = str "0001-01-01T00:00:00Z" then some 0 else none
  plain t s h := by
    split_ifs at h
    cases h
    decide +kernel
  zero_text := ⟨_, rfl, rfl⟩
  back t s h := by
    split_ifs at h with ht
    cases h
    rw [ht]
    rfl

def sampleEvent (type : GoString) : Event := ⟨0, type, str "plan", str "prod", str "eve", [], [], false, true⟩

theorem trail_grows_one : ∃ rs, (run zeroText ([.tail 0 (sampleEvent (str "a")), Step.append 0 none].take 2)).Grows zeroText rs := by
  have hlimit : ∀ line ∈ (newRecord zeroText [] (sampleEvent (str "a"))).line zeroText, line.length < 1 <<< 20 := by decide +kernel
  have hvalid : (sampleEvent (str "a")).Valid := by
    unfold Event.Valid
    decide +kernel
  have hwhole : AllWhole zeroText ⟨[], fun _ => none, []⟩ [.tail 0 (sampleEvent (str "a")), .append 0 none] := by
    refine ⟨trivial, ?_, trivial⟩
    rintro r rs line hr - - hline
    obtain rfl : newRecord zeroText [] (sampleEvent (str "a")) = r := Option.some.inj hr
    exact .inr ⟨hvalid, hlimit line hline, nofun⟩
  exact trail_grows hwhole 2

/-- Of two processes that read the same tail, the second is refused. -/
example : ((run zeroText [.tail 0 (sampleEvent (str "a")), .tail 1 (sampleEvent (str "b")), .append 0 none, .append 1 none]).acknowledged.map
    fun r => r.event.type) = [str "a"] := by
  decide +kernel

/-- **Three ways to end the trail.**  A write that fails after the first byte; a write that fails before the newline, after which
the next record is acknowledged but shares the line; and an event with a string that is not UTF-8, which is acknowledged. -/
theorem trail_unreadable :
    load zeroText (run zeroText [.tail 0 (sampleEvent (str "a")), .append 0 (some 1)]).file = none ∧
      ((run zeroText [.tail 0 (sampleEvent (str "a")), .append 0 (some 226), .tail 1 (sampleEvent (str "b")), .append 1 none]).acknowledged.length = 1 ∧
        load zeroText (run zeroText
          [.tail 0 (sampleEvent (str "a")), .append 0 (some 226), .tail 1 (sampleEvent (str "b")), .append 1 none]).file = none) ∧
      ((run zeroText [.tail 0 (sampleEvent [0xFF]), .append 0 none]).acknowledged.length = 1 ∧
        load zeroText (run zeroText [.tail 0 (sampleEvent [0xFF]), .append 0 none]).file = none) := by
  decide +kernel

end AutoSql.Approvals
