/-
AutoSql/Lib/TimeText.lean

Times in JSON.

How `time.Time` is written is a parameter: `format` is the text between the quotes,
or none for a time that RFC 3339 cannot write, and `parse` reads such a text.  The
characters of a formatted time need no escapes, and the zero time comes back.
-/
import AutoSql.Lib.JsonSize
import AutoSql.Lib.Record

namespace AutoSql

open GoJson

structure TimeText (T : Type) where
  zero : T
  format : T → Option GoString
  parse : GoString → Option T
  plain : ∀ t s, format t = some s → ∀ b ∈ s, Json.plain b = true
  zero_text : ∃ s, format zero = some s ∧ parse s = some zero

namespace TimeText

variable {T : Type} (X : TimeText T)

/-- `Time.UnmarshalJSON`. -/
def decode (old : T) (raw : GoString) : Option T :=
  if raw = str "null" then some old
  else if raw.head? = some 0x22 ∧ raw.getLast? = some 0x22 ∧ 2 ≤ raw.length then X.parse raw.tail.dropLast
  else none

theorem decode_encode {t : T} {s : GoString} (h : X.format t = some s) (old : T) :
    X.decode old (Json.encode (.str s)) = X.parse s := by
  have hquote : Json.encode (.str s) = 0x22 :: (s ++ [0x22]) := Json.quote_plain (X.plain t s h)
  have hne : (0x22 :: (s ++ [0x22]) : GoString) ≠ str "null" := by
    intro he
    have hhead := congrArg List.head? he
    cases hhead
  have hlast : (0x22 :: (s ++ [0x22]) : GoString).getLast? = some 0x22 := by
    rw [← List.cons_append, List.getLast?_append]
    rfl
  rw [hquote, decode, if_neg hne, if_pos ⟨rfl, hlast, by simp⟩]
  simp

theorem valid_format {t : T} {s : GoString} (h : X.format t = some s) : Utf8.valid s = true := by
  refine Utf8.valid_of_ascii fun b hb => ?_
  have := X.plain t s h b hb
  rw [Json.plain, Bool.and_eq_true, decide_eq_true_eq] at this
  exact this.1

theorem field_time {fields : List (GoString × Option Json)} (hd : Distinct (fields.map Prod.fst)) (i : Nat) {n : GoString} {t : T}
    {s : GoString} (hi : fields[i]? = some (n, some (.str s))) (h : X.format t = some s) :
    field n X.decode X.zero (texts fields) = X.parse s := by
  rw [field_texts hd i hi]
  exact X.decode_encode h X.zero

end TimeText

/-- Times in one zone come back from their text. -/
structure UtcText (T : Type) extends TimeText T where
  back : ∀ t s, format t = some s → parse s = some t

end AutoSql
