/-
AutoSql/Lib/JsonSize.lean

How long a JSON text is.

`size` bounds the length of the text of a tree from above, member by member, so that
the size of a record is a sum over its fields.  From below a text is at least as long
as the text of any value inside it.  A string without bytes that have to be escaped
is written as it is.
-/
import AutoSql.Lib.JsonRoundTrip

namespace AutoSql.Json

open List

/-! ### Strings -/

theorem length_escapeByte_le (b : UInt8) : (escapeByte b).length ≤ 6 := by
  unfold escapeByte
  split_ifs <;> simp [unicodeEscape]

/-- Every byte takes at most six. -/
theorem length_quote_le (s : GoString) : (quote s).length ≤ 6 * s.length + 2 := by
  have hrune : ∀ r : Rune, Utf8.WF r → (escapeRune r).length ≤ 6 * (Utf8.bytes r).length := by
    intro r hr
    cases r with
    | ascii b => exact length_escapeByte_le b
    | multi bs =>
      have hne : bs ≠ [] := by
        rintro rfl
        exact absurd hr (by simp only [Utf8.WF]; decide)
      have hlen : 1 ≤ bs.length := length_pos_iff.mpr hne
      rw [escapeRune, Utf8.bytes]
      split_ifs <;> simp <;> omega
    | bad b => exact le_rfl
  have hall : ∀ l : List Rune, (∀ r ∈ l, Utf8.WF r) → (l.flatMap escapeRune).length ≤ 6 * (l.flatMap Utf8.bytes).length := by
    intro l
    induction l with
    | nil => exact fun _ => le_rfl
    | cons r l ih =>
      intro h
      rw [forall_mem_cons] at h
      have := hrune r h.1
      have := ih h.2
      simp only [flatMap_cons, length_append]
      omega
  have hbytes := hall (Utf8.runes s) fun r hr => Utf8.wf_of_mem_runes hr
  rw [Utf8.flatMap_bytes_runes] at hbytes
  simp only [quote, length_append, length_cons, length_nil]
  omega

/-- A byte that is written as it is. -/
def plain (b : UInt8) : Bool := b < 0x80 && escapeByte b == [b]

theorem quote_plain {s : GoString} (h : ∀ b ∈ s, plain b = true) : quote s = 0x22 :: s ++ [0x22] := by
  have hrunes : (Utf8.runes s).flatMap escapeRune = s := by
    induction s with
    | nil => rfl
    | cons b s ih =>
      rw [forall_mem_cons] at h
      obtain ⟨hb, hs⟩ := h
      rw [plain, Bool.and_eq_true, decide_eq_true_eq, beq_iff_eq] at hb
      rw [Utf8.runes_ascii hb.1, flatMap_cons, escapeRune, hb.2, ih hs]
      rfl
  rw [quote, hrunes]

/-! ### Trees -/

mutual
/-- A bound for the length of a text. -/
def size : Json → Nat
  | .null => 4
  | .bool _ => 5
  | .num lit => lit.length
  | .str s => (quote s).length
  | .arr l => 2 + sizeElems l
  | .obj l => 2 + sizeMembers l

def sizeElems : List Json → Nat
  | [] => 0
  | v :: l => size v + 1 + sizeElems l

def sizeMembers : List (GoString × Json) → Nat
  | [] => 0
  | p :: l => (quote p.1).length + 2 + size p.2 + sizeMembers l
end

theorem sizeMembers_append (l l' : List (GoString × Json)) : sizeMembers (l ++ l') = sizeMembers l + sizeMembers l' := by
  induction l with
  | nil => simp [sizeMembers]
  | cons p l ih =>
    rw [cons_append, sizeMembers, sizeMembers]
    omega

theorem length_commaSep_le (l : List GoString) : (commaSep l).length ≤ (l.map fun t => t.length + 1).sum := by
  induction l with
  | nil => exact le_rfl
  | cons t l ih =>
    cases l with
    | nil => simp [commaSep]
    | cons u l =>
      rw [commaSep_cons_cons, map_cons, sum_cons, length_append, length_cons]
      omega

mutual
theorem length_encode_le : ∀ v : Json, (encode v).length ≤ size v
  | .null => by decide
  | .bool true => by decide
  | .bool false => by decide
  | .num lit => le_rfl
  | .str s => le_rfl
  | .arr l => by
    have := length_commaSep_le (encodeElems l)
    have := sum_encodeElems_le l
    simp only [encode, size, length_append, length_cons, length_nil]
    omega
  | .obj l => by
    have := length_commaSep_le (encodeMembers l)
    have := sum_encodeMembers_le l
    simp only [encode, size, length_append, length_cons, length_nil]
    omega

theorem sum_encodeElems_le : ∀ l : List Json, ((encodeElems l).map fun t => t.length + 1).sum ≤ sizeElems l
  | [] => le_rfl
  | v :: l => by
    have := length_encode_le v
    have := sum_encodeElems_le l
    simp only [encodeElems, sizeElems, map_cons, sum_cons]
    omega

theorem sum_encodeMembers_le : ∀ l : List (GoString × Json), ((encodeMembers l).map fun t => t.length + 1).sum ≤ sizeMembers l
  | [] => le_rfl
  | p :: l => by
    have := length_encode_le p.2
    have := sum_encodeMembers_le l
    simp only [encodeMembers, sizeMembers, map_cons, sum_cons, length_append, length_cons]
    omega
end

/-! ### Values inside a text -/

theorem length_mem_commaSep {t : GoString} {l : List GoString} (h : t ∈ l) : t.length ≤ (commaSep l).length := by
  induction l with
  | nil => cases h
  | cons u l ih =>
    cases l with
    | nil =>
      rw [mem_singleton.mp h, commaSep]
    | cons u' l =>
      rw [commaSep_cons_cons, length_append, length_cons]
      rcases mem_cons.mp h with rfl | h
      · omega
      · have := ih h
        omega

theorem length_elem_le {v : Json} {l : List Json} (h : v ∈ l) : (encode v).length ≤ (encode (.arr l)).length := by
  have hmem : encode v ∈ encodeElems l := by
    rw [encodeElems_eq]
    exact mem_map_of_mem h
  have := length_mem_commaSep hmem
  simp only [encode, length_append, length_cons, length_nil]
  omega

theorem length_member_le {p : GoString × Json} {l : List (GoString × Json)} (h : p ∈ l) :
    (encode p.2).length ≤ (encode (.obj l)).length := by
  have hmem : quote p.1 ++ 0x3A :: encode p.2 ∈ encodeMembers l := by
    rw [encodeMembers_eq]
    exact mem_map_of_mem h
  have := length_mem_commaSep hmem
  simp only [encode, length_append, length_cons, length_nil] at this ⊢
  omega

end AutoSql.Json
