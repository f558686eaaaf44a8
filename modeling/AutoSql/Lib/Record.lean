/-
AutoSql/Lib/Record.lean

Structs that come back from the JSON text they were written as.

A struct is written as the list of its fields, some of which are left out
(`present`).  `field_texts` finds a field again in the members of the text: the
names of the fields differ up to case (`Distinct`), so no other member sets it.
Strings come back with their bad bytes replaced; everything else comes back as
it was.

`Strict d v` collects what a strict reader asks of the text of `v`: it is a JSON
text nested at most `d` deep, and no object in it has a key twice.
-/
import AutoSql.Lib.GoJson
import AutoSql.Lib.JsonRoundTrip

namespace AutoSql

open List
open GoString (itoa decimal)

/-! ### The text is UTF-8 -/

namespace Utf8

theorem runes_append {a : GoString} (h : valid a = true) (b : GoString) : runes (a ++ b) = runes a ++ runes b := by
  induction a using rune_induction with
  | nil => rfl
  | ascii c a hc ih =>
    rw [valid, runes_ascii hc, all_cons, Bool.and_eq_true] at h
    rw [cons_append, runes_ascii hc, runes_ascii hc, ih h.2, cons_append]
  | multi bs a hbs ih =>
    rw [valid, runes_multi hbs, all_cons, Bool.and_eq_true] at h
    rw [append_assoc, runes_multi hbs, runes_multi hbs, ih h.2, cons_append]
  | bad c a hc h₀ ih =>
    rw [valid, runes_bad hc h₀] at h
    cases h

theorem valid_append {a b : GoString} (ha : valid a = true) (hb : valid b = true) : valid (a ++ b) = true := by
  rw [valid, runes_append ha, all_append, Bool.and_eq_true]
  exact ⟨ha, hb⟩

theorem valid_of_isMulti {bs : List UInt8} (h : isMulti bs = true) : valid bs = true := by
  have hr := runes_multi h []
  rw [append_nil] at hr
  rw [valid, hr]
  rfl

end Utf8

namespace Json

open Utf8

variable {b : UInt8}

theorem isDigit_ascii (h : isDigit b = true) : b < 0x80 := by
  have hb := (Decimal.isDigit_iff.mp h).2
  exact Nat.lt_of_le_of_lt hb (by decide)

/-- The characters of numbers are printable. -/
def Printable (b : UInt8) : Prop := 0x20 ≤ b ∧ b < 0x80

instance (b : UInt8) : Decidable (Printable b) := inferInstanceAs (Decidable (_ ∧ _))

theorem isDigit_printable (h : isDigit b = true) : Printable b := by
  refine ⟨?_, isDigit_ascii h⟩
  have hb := (Decimal.isDigit_iff.mp h).1
  exact Nat.le_trans (by decide) hb

variable {p : GoString × GoString} {s : GoString}

theorem digits_printable (h : digits s = some p) : ∀ b ∈ p.1, Printable b := by
  rw [digits] at h
  split_ifs at h
  cases h
  exact fun b hb => isDigit_printable (all_eq_true.mp all_takeWhile b hb)

theorem cons_digits_printable {c : UInt8} (hc : Printable c)
    (h : (digits s).map (fun p => (c :: p.1, p.2)) = some p) : ∀ b ∈ p.1, Printable b := by
  obtain ⟨q, hq, rfl⟩ := Option.map_eq_some_iff.mp h
  exact forall_mem_cons.mpr ⟨hc, digits_printable hq⟩

theorem signPart_printable (s : GoString) : ∀ b ∈ (signPart s).1, Printable b := by
  unfold signPart
  split <;> simp [Printable]

theorem intPart_printable (h : intPart s = some p) : ∀ b ∈ p.1, Printable b := by
  unfold intPart at h
  split at h
  · cases h
    simp [Printable]
  · exact digits_printable h

theorem fracPart_printable (h : fracPart s = some p) : ∀ b ∈ p.1, Printable b := by
  unfold fracPart at h
  split at h
  · exact cons_digits_printable (by decide) h
  · cases h
    simp

theorem expDigits_printable (h : expDigits s = some p) : ∀ b ∈ p.1, Printable b := by
  unfold expDigits at h
  split at h
  · cases h
  · split_ifs at h with hb
    · exact cons_digits_printable (by rcases hb with rfl | rfl <;> decide) h
    · exact digits_printable h

theorem expPart_printable (h : expPart s = some p) : ∀ b ∈ p.1, Printable b := by
  unfold expPart at h
  split at h
  · cases h
    simp
  · split_ifs at h with hb
    · obtain ⟨q, hq, rfl⟩ := Option.map_eq_some_iff.mp h
      exact forall_mem_cons.mpr ⟨by rcases hb with rfl | rfl <;> decide, expDigits_printable hq⟩
    · cases h
      simp

theorem isNumber_printable {lit : GoString} (h : IsNumber lit) : ∀ b ∈ lit, Printable b := by
  rw [IsNumber, number] at h
  simp only [Option.bind_eq_bind, Option.bind_eq_some_iff, Option.some.injEq, Prod.mk.injEq] at h
  obtain ⟨int, hint, frac, hfrac, exp, hexp, hlit, -⟩ := h
  rw [← hlit]
  simp only [mem_append]
  rintro b (((hb | hb) | hb) | hb)
  · exact signPart_printable lit b hb
  · exact intPart_printable hint b hb
  · exact fracPart_printable hfrac b hb
  · exact expPart_printable hexp b hb

/-- A property that texts have with their parts. -/
structure Closed (Q : GoString → Prop) : Prop where
  nil : Q []
  append {a b : GoString} : Q a → Q b → Q (a ++ b)
  byte {b : UInt8} : Printable b → Q [b]
  multi {bs : List UInt8} : isMulti bs = true → Q bs

theorem escapeByte_printable (h : b < 0x80) : ∀ c ∈ escapeByte b, Printable c := by
  have hhex : ∀ n < 16, Printable (hexDigit n) := by decide
  have hb : b.toNat < 256 := b.toNat_lt
  have hhigh := hhex (b.toNat / 16) (by omega)
  have hlow := hhex (b.toNat % 16) (by omega)
  unfold escapeByte
  split_ifs with h₁ h₂ h₃ h₄ h₅ h₆ h₇
  · rcases h₁ with rfl | rfl <;> decide +kernel
  · decide +kernel
  · decide +kernel
  · decide +kernel
  · decide +kernel
  · decide +kernel
  · simp only [unicodeEscape, forall_mem_cons, hhigh, hlow, true_and]
    decide +kernel
  · rw [not_or] at h₇
    simpa [Printable, h] using h₇.1

namespace Closed

variable {Q : GoString → Prop} (hQ : Closed Q)

include hQ

theorem bytes {s : GoString} (h : ∀ b ∈ s, Printable b) : Q s := by
  induction s with
  | nil => exact hQ.nil
  | cons b s ih =>
    rw [forall_mem_cons] at h
    exact hQ.append (hQ.byte h.1) (ih h.2)

theorem escapeRune {r : Rune} (h : WF r) : Q (escapeRune r) := by
  cases r with
  | ascii b => exact hQ.bytes (escapeByte_printable h)
  | multi bs =>
    rw [Json.escapeRune]
    split_ifs
    · exact hQ.bytes (by decide +kernel)
    · exact hQ.bytes (by decide +kernel)
    · exact hQ.multi h
  | bad b => exact hQ.bytes (by rw [Json.escapeRune]; decide +kernel)

theorem wrap {t : GoString} (ht : Q t) {a b : UInt8} (ha : Printable a) (hb : Printable b) : Q (a :: t ++ [b]) :=
  hQ.append (hQ.append (hQ.byte ha) ht) (hQ.byte hb)

theorem quote (s : GoString) : Q (quote s) := by
  have key : ∀ l : List Rune, (∀ r ∈ l, WF r) → Q (l.flatMap Json.escapeRune) := by
    intro l hl
    induction l with
    | nil => exact hQ.nil
    | cons r l ih => exact hQ.append (hQ.escapeRune (hl r mem_cons_self)) (ih fun x hx => hl x (mem_cons_of_mem _ hx))
  exact hQ.wrap (key _ fun r hr => wf_of_mem_runes hr) (by decide) (by decide)

theorem commaSep {l : List GoString} (h : ∀ t ∈ l, Q t) : Q (commaSep l) := by
  induction l with
  | nil => exact hQ.nil
  | cons t l ih =>
    rw [forall_mem_cons] at h
    cases l with
    | nil => exact h.1
    | cons u l => exact hQ.append h.1 (hQ.append (hQ.byte (by decide)) (ih h.2))

theorem encode {d : Nat} {v : Json} (h : Nested d v) : Q (encode v) := by
  induction h with
  | null => exact hQ.bytes (by decide +kernel)
  | bool b => cases b <;> exact hQ.bytes (by decide +kernel)
  | num hlit => exact hQ.bytes (isNumber_printable hlit)
  | str s => exact hQ.quote s
  | arr hl ih =>
    rw [Json.encode, encodeElems_eq]
    refine hQ.wrap (hQ.commaSep fun t ht => ?_) (by decide) (by decide)
    obtain ⟨v, hv, rfl⟩ := mem_map.mp ht
    exact ih v hv
  | obj hl ih =>
    rw [Json.encode, encodeMembers_eq]
    refine hQ.wrap (hQ.commaSep fun t ht => ?_) (by decide) (by decide)
    obtain ⟨p, hp, rfl⟩ := mem_map.mp ht
    exact hQ.append (hQ.quote p.1) (hQ.append (hQ.byte (by decide)) (ih p hp))

end Closed

/-- `json.Marshal` writes UTF-8, whatever bytes the strings hold. -/
theorem valid_encode {d : Nat} {v : Json} (h : Nested d v) : valid (encode v) = true :=
  Closed.encode (Q := fun t => valid t = true) ⟨rfl, valid_append, fun hb => valid_of_ascii (by simpa using hb.2), valid_of_isMulti⟩ h

/-- The text has no control characters.  In particular it is one line. -/
theorem encode_ge {d : Nat} {v : Json} (h : Nested d v) : ∀ c ∈ encode v, (0x20 : UInt8) ≤ c := by
  refine Closed.encode (Q := fun t => ∀ c ∈ t, (0x20 : UInt8) ≤ c) ⟨nofun, fun ha hb => ?_, fun hb => by simpa using hb.1, fun hm c hc => ?_⟩ h
  · exact forall_mem_append.mpr ⟨ha, hb⟩
  · exact UInt8.le_trans (by decide) (high_of_isMulti hm c hc)

/-! ### Bytes that are not kept

Writing a string replaces a bad byte by an escape of six bytes; writing what was
read back takes three.  So a text that reading and writing does not change has no
bad bytes. -/

/-- The number of bad bytes of a string. -/
def badBytes (s : GoString) : Nat := (runes s).countP fun r => !good r

theorem valid_of_badBytes (h : badBytes s = 0) : valid s = true := by
  rw [badBytes] at h
  rw [valid]
  simpa using h

/-- The rune that comes back. -/
def cleanRune : Rune → Rune
  | .bad _ => .multi replacement
  | r => r

/-- A text that is ASCII once it has been cleaned was clean. -/
theorem eq_of_sanitize_ascii {s t : GoString} (h : Utf8.sanitize s = t) (ht : ∀ b ∈ t, b < 0x80) : s = t := by
  have hv : Utf8.valid s = true := by
    rw [Utf8.valid, all_eq_true]
    intro r hr
    cases r with
    | ascii b => rfl
    | multi bs => rfl
    | bad b =>
      -- a bad byte would have left the replacement character
      have hmem : (0xEF : UInt8) ∈ Utf8.sanitize s := mem_flatMap.mpr ⟨.bad b, hr, by simp [Utf8.encode, replacement]⟩
      exact absurd (ht _ (h ▸ hmem)) (by decide)
  rw [← h, Utf8.sanitize_of_valid hv]

theorem runes_sanitize (s : GoString) : runes (Utf8.sanitize s) = (runes s).map cleanRune := by
  have key : ∀ l : List Rune, (∀ r ∈ l, WF r) → runes (l.flatMap Utf8.encode) = l.map cleanRune := by
    intro l hl
    induction l with
    | nil => rfl
    | cons r l ih =>
      rw [forall_mem_cons] at hl
      rw [map_cons, ← ih hl.2]
      cases r with
      | ascii b => exact runes_ascii hl.1 _
      | multi bs => exact runes_multi hl.1 _
      | bad b => exact runes_multi isMulti_replacement _
  exact key (runes s) fun r hr => wf_of_mem_runes hr

theorem length_quote (s : GoString) : (quote s).length = (quote (Utf8.sanitize s)).length + 3 * badBytes s := by
  have key : ∀ l : List Rune, (l.flatMap escapeRune).length =
      ((l.map cleanRune).flatMap escapeRune).length + 3 * l.countP fun r => !good r := by
    intro l
    induction l with
    | nil => rfl
    | cons r l ih =>
      have hr : (escapeRune r).length = (escapeRune (cleanRune r)).length + 3 * (if !good r then 1 else 0) := by
        cases r <;> rfl
      rw [flatMap_cons, map_cons, flatMap_cons, length_append, length_append, countP_cons]
      omega
  rw [quote, quote, runes_sanitize, badBytes]
  simp only [length_cons, length_append, length_nil]
  have := key (runes s)
  omega

theorem length_commaSep {α : Type} {f g : α → GoString} {w : α → Nat} {l : List α}
    (h : ∀ x ∈ l, (f x).length = (g x).length + 3 * w x) :
    (commaSep (l.map f)).length = (commaSep (l.map g)).length + 3 * (l.map w).sum := by
  induction l with
  | nil => rfl
  | cons x l ih =>
    rw [forall_mem_cons] at h
    cases l with
    | nil => simpa [commaSep] using h.1
    | cons y l =>
      have hl := ih h.2
      simp only [map_cons, commaSep_cons_cons, length_append, length_cons, sum_cons] at hl ⊢
      omega

mutual
/-- The number of bad bytes in the strings and keys of a tree. -/
def bad : Json → Nat
  | .null => 0
  | .bool _ => 0
  | .num _ => 0
  | .str s => badBytes s
  | .arr l => badElems l
  | .obj l => badMembers l

def badElems : List Json → Nat
  | [] => 0
  | v :: l => bad v + badElems l

def badMembers : List (GoString × Json) → Nat
  | [] => 0
  | p :: l => (badBytes p.1 + bad p.2) + badMembers l
end

theorem badElems_eq (l : List Json) : badElems l = (l.map bad).sum := by
  induction l with
  | nil => rfl
  | cons v l ih => rw [badElems, ih, map_cons, sum_cons]

theorem badMembers_eq (l : List (GoString × Json)) : badMembers l = (l.map fun p => badBytes p.1 + bad p.2).sum := by
  induction l with
  | nil => rfl
  | cons v l ih => rw [badMembers, ih, map_cons, sum_cons]

theorem length_encode {d : Nat} {v : Json} (h : Nested d v) : (encode v).length = (encode v.sanitize).length + 3 * bad v := by
  induction h with
  | null | bool | num => rfl
  | str s => exact length_quote s
  | @arr d l hl ih =>
    have hc := length_commaSep ih
    rw [Json.sanitize, encode, encode, encodeElems_eq, encodeElems_eq, sanitizeElems_eq, bad, badElems_eq, map_map]
    simp only [length_append, length_cons, length_nil, Function.comp_def] at hc ⊢
    omega
  | @obj d l hl ih =>
    have hc : (commaSep (l.map fun p => quote p.1 ++ 0x3A :: encode p.2)).length =
        (commaSep (l.map fun p => quote (Utf8.sanitize p.1) ++ 0x3A :: encode p.2.sanitize)).length +
          3 * (l.map fun p => badBytes p.1 + bad p.2).sum := by
      refine length_commaSep fun p hp => ?_
      have := ih p hp
      have := length_quote p.1
      simp only [length_append, length_cons]
      omega
    rw [Json.sanitize, encode, encode, encodeMembers_eq, encodeMembers_eq, sanitizeMembers_eq, bad, badMembers_eq, map_map]
    simp only [length_append, length_cons, length_nil, Function.comp_def]
    omega

/-- Values with the same text differ in bad bytes only. -/
theorem sanitize_eq_of_encode {v w : Json} (hv : Nested maxNestingDepth v) (hw : Nested maxNestingDepth w)
    (h : encode v = encode w) : v.sanitize = w.sanitize := by
  have := parse_encode hv
  rw [h, parse_encode hw] at this
  exact (Option.some.inj this).symm

/-- A tree whose text survives reading and writing has no bad bytes. -/
theorem bad_eq_zero {d : Nat} {v : Json} (h : Nested d v) (he : encode v = encode v.sanitize) : bad v = 0 := by
  have := length_encode h
  rw [← he] at this
  omega

theorem bad_of_mem_arr {l : List Json} (h : bad (.arr l) = 0) {v : Json} (hv : v ∈ l) : bad v = 0 := by
  rw [bad, badElems_eq] at h
  have := le_sum_of_mem (mem_map_of_mem (f := bad) hv)
  omega

/-! ### Prefixes -/

theorem parseValue_obj {d : Nat} {l : List (GoString × Json)} (h : Nested d (.obj l)) (t : GoString) :
    parseValue d (encode (.obj l) ++ t) = some (Json.sanitize (.obj l), t) := by
  cases h with
  | @obj d _ hl =>
    have hread := object_encode hl (fun p hp => parseValue_encode (hl p hp)) t
    have hv : encode (.obj l) ++ t = 0x7B :: (commaSep (encodeMembers l) ++ 0x7D :: t) := by
      rw [encode]
      simp
    rw [hv, parseValue, hread, Json.sanitize, sanitizeMembers_eq]
    rfl

/-- What follows an object says nothing about where it ends. -/
theorem encode_obj_append {d d' : Nat} {l l' : List (GoString × Json)} (h : Nested d (.obj l)) (h' : Nested d' (.obj l'))
    {t t' : GoString} (he : encode (.obj l) ++ t = encode (.obj l') ++ t') : t = t' ∧ encode (.obj l) = encode (.obj l') := by
  have h₁ := parseValue_obj (h.mono (Nat.le_max_left d d')) t
  have h₂ := parseValue_obj (h'.mono (Nat.le_max_right d d')) t'
  rw [he, h₂] at h₁
  have ht : t = t' := by
    have := congrArg Prod.snd (Option.some.inj h₁)
    exact this.symm
  subst ht
  exact ⟨rfl, append_cancel_right he⟩

/-! ### Numbers -/

theorem number_digits {s : GoString} (hs : Decimal.canonical s = true) (sign : GoString)
    (hsign : signPart (sign ++ s) = (sign, s)) : IsNumber (sign ++ s) := by
  obtain ⟨hne, hall, hzero⟩ := Decimal.canonical_iff.mp hs
  have htake : (s ++ []).takeWhile isDigit = s ++ [] := takeWhile_append_of_pos (all_eq_true.mp hall)
  have hdrop : (s ++ []).dropWhile isDigit = [] := dropWhile_append_of_pos (all_eq_true.mp hall)
  rw [append_nil] at htake hdrop
  have hdigits : digits s = some (s, []) := by rw [digits, htake, hdrop, if_neg hne]
  have hint : intPart s = some (s, []) := by
    unfold intPart
    split
    · rename_i t
      have := hzero rfl
      cases this
      rfl
    · exact hdigits
  rw [IsNumber, number, hsign]
  simp [hint, fracPart, expPart]

theorem isNumber_itoa (i : Int) : IsNumber (itoa i) := by
  cases i with
  | ofNat n =>
    refine number_digits (Decimal.canonical_decimal n) [] ?_
    have hd : ∀ t, decimal n ≠ 0x2D :: t := by
      intro t ht
      have hall := Decimal.all_isDigit_decimal n
      rw [ht, all_cons] at hall
      cases hall
    unfold signPart
    split
    · rename_i t ht
      exact absurd ht (hd t)
    · rfl
  | negSucc n => exact number_digits (Decimal.canonical_decimal (n + 1)) [0x2D] rfl

/-! ### Keys -/

mutual
/-- No object has a key twice. -/
def noDuplicates : Json → Bool
  | .null => true
  | .bool _ => true
  | .num _ => true
  | .str _ => true
  | .arr l => noDuplicatesElems l
  | .obj l => decide (l.map Prod.fst).Nodup && noDuplicatesMembers l

def noDuplicatesElems : List Json → Bool
  | [] => true
  | v :: l => noDuplicates v && noDuplicatesElems l

def noDuplicatesMembers : List (GoString × Json) → Bool
  | [] => true
  | p :: l => noDuplicates p.2 && noDuplicatesMembers l
end

theorem noDuplicatesElems_iff {l : List Json} : noDuplicatesElems l = true ↔ ∀ v ∈ l, noDuplicates v = true := by
  induction l with
  | nil => simp [noDuplicatesElems]
  | cons v l ih => rw [noDuplicatesElems, Bool.and_eq_true, ih, forall_mem_cons]

theorem noDuplicatesMembers_iff {l : List (GoString × Json)} :
    noDuplicatesMembers l = true ↔ ∀ p ∈ l, noDuplicates p.2 = true := by
  induction l with
  | nil => simp [noDuplicatesMembers]
  | cons v l ih => rw [noDuplicatesMembers, Bool.and_eq_true, ih, forall_mem_cons]

end Json

namespace GoJson

open Json

/-! ### Fields -/

/-- The members of a struct whose fields are `fields`. -/
def present (fields : List (GoString × Option Json)) : List (GoString × Json) :=
  fields.filterMap fun p => p.2.map fun v => (p.1, v)

/-- The members as they are read, with their values as text. -/
def texts (fields : List (GoString × Option Json)) : List (GoString × GoString) :=
  (present fields).map fun p => (p.1, encode p.2)

/-- Field names that no key can mix up. -/
def Distinct (names : List GoString) : Prop := (names.map foldName).Nodup ∧ ∀ n ∈ names, Utf8.valid n = true

instance (names : List GoString) : Decidable (Distinct names) := inferInstanceAs (Decidable (_ ∧ _))

/-- The value of a string field that is left out when it is empty. -/
def unlessEmpty (s : GoString) : Option Json := if s = [] then none else some (.str s)

/-- The value of a boolean field that is left out when it is false. -/
def unlessFalse (b : Bool) : Option Json := if b then some (.bool true) else none

/-- The value of a slice of strings that is left out when it is empty. -/
def unlessNoStrings (l : List GoString) : Option Json := if l = [] then none else some (.arr (l.map Json.str))

@[simp] theorem present_nil : present [] = [] := rfl

@[simp] theorem present_some (n : GoString) (v : Json) (l : List (GoString × Option Json)) :
    present ((n, some v) :: l) = (n, v) :: present l := rfl

@[simp] theorem present_unlessEmpty (n s : GoString) (l : List (GoString × Option Json)) :
    present ((n, unlessEmpty s) :: l) = omitEmpty n s ++ present l := by
  unfold unlessEmpty omitEmpty
  split_ifs <;> rfl

variable {fields : List (GoString × Option Json)}

theorem mem_present {p : GoString × Json} : p ∈ present fields ↔ (p.1, some p.2) ∈ fields := by
  obtain ⟨n, v⟩ := p
  rw [present, mem_filterMap]
  constructor
  · rintro ⟨⟨m, w⟩, hmem, h⟩
    obtain ⟨v', hw, h⟩ := Option.map_eq_some_iff.mp h
    cases h
    exact hw ▸ hmem
  · exact fun h => ⟨_, h, rfl⟩

theorem keys_present (fields : List (GoString × Option Json)) :
    ((present fields).map Prod.fst).Sublist (fields.map Prod.fst) := by
  induction fields with
  | nil => exact List.Sublist.slnil
  | cons p l ih =>
    obtain ⟨n, - | v⟩ := p
    · exact ih.cons n
    · exact ih.cons_cons n

variable {α β : Type} {n : GoString}

/-- A field is read from its own member and from no other. -/
theorem fieldMembers_texts (h : ((fields.map Prod.fst).map foldName).Nodup)
    {i : Nat} {v : Option Json} (hi : fields[i]? = some (n, v)) :
    fieldMembers n (texts fields) = (v.map fun v => (n, encode v)).toList := by
  induction fields generalizing i with
  | nil => cases hi
  | cons p l ih =>
    have htexts : texts (p :: l) = (p.2.map fun v => (p.1, encode v)).toList ++ texts l := by
      obtain ⟨m, - | w⟩ := p <;> rfl
    rw [map_cons, map_cons, nodup_cons] at h
    rw [htexts, fieldMembers, filter_append]
    cases i with
    | zero =>
      cases hi
      have hrest : (texts l).filter (fun m => decide (foldName m.1 = foldName n)) = [] := by
        rw [filter_eq_nil_iff]
        intro q hq heq
        obtain ⟨r, hr, rfl⟩ := mem_map.mp hq
        refine h.1 (mem_map.mpr ⟨r.1, mem_map.mpr ⟨_, mem_present.mp hr, rfl⟩, ?_⟩)
        simpa using heq
      rw [hrest]
      cases v <;> simp
    | succ i =>
      have hne : foldName p.1 ≠ foldName n := by
        intro heq
        refine h.1 (mem_map.mpr ⟨n, mem_map.mpr ⟨(n, v), mem_of_getElem? hi, rfl⟩, heq.symm⟩)
      have hhead : ((p.2.map fun v => (p.1, encode v)).toList).filter (fun m => decide (foldName m.1 = foldName n)) = [] := by
        cases p.2 <;> simp [hne]
      rw [hhead]
      exact ih h.2 hi

/-- What a field is read as. -/
theorem field_texts (h : Distinct (fields.map Prod.fst)) (i : Nat)
    {v : Option Json} (hi : fields[i]? = some (n, v)) (decode : α → GoString → Option α) (init : α) :
    field n decode init (texts fields) = v.elim (some init) fun v => decode init (encode v) := by
  rw [field, fieldMembers_texts h.1 hi]
  cases v with
  | none => rfl
  | some v => exact bind_pure _

/-! ### Records whose text is kept -/

theorem sanitize_unlessEmpty (s : GoString) : (unlessEmpty s).map Json.sanitize = unlessEmpty (Utf8.sanitize s) := by
  unfold unlessEmpty
  by_cases hs : s = []
  · rw [hs]
    rfl
  · have hne : Utf8.sanitize s ≠ [] := by
      intro he
      have hlen := congrArg List.length (congrArg Utf8.runes he)
      rw [runes_sanitize, length_map] at hlen
      rw [← Utf8.flatMap_bytes_runes s, length_eq_zero_iff.mp hlen] at hs
      exact hs rfl
    rw [if_neg hs, if_neg hne]
    rfl

theorem sanitize_unlessFalse (b : Bool) : (unlessFalse b).map Json.sanitize = unlessFalse b := by
  cases b <;> rfl

theorem sanitize_record (fields : List (GoString × Option Json)) {names : List GoString} (hn : fields.map Prod.fst = names)
    (hd : Distinct names) :
    Json.sanitize (.obj (present fields)) = .obj (present (fields.map fun p => (p.1, p.2.map Json.sanitize))) := by
  have h : ∀ n ∈ fields.map Prod.fst, Utf8.valid n = true := hn ▸ hd.2
  clear hn hd
  rw [Json.sanitize, sanitizeMembers_eq]
  refine congrArg Json.obj ?_
  induction fields with
  | nil => rfl
  | cons p l ih =>
    rw [map_cons, forall_mem_cons] at h
    obtain ⟨n, - | v⟩ := p
    · exact ih h.2
    · rw [present_some, map_cons, ih h.2, Utf8.sanitize_of_valid h.1]
      rfl

theorem bad_of_field (h : bad (.obj (present fields)) = 0) (i : Nat)
    {v : Json} (hi : fields[i]? = some (n, some v)) : bad v = 0 := by
  rw [bad, badMembers_eq] at h
  have hmem : (n, v) ∈ present fields := mem_present.mpr (mem_of_getElem? hi)
  have : badBytes n + bad v ≤ _ := le_sum_of_mem (mem_map_of_mem (f := fun p => badBytes p.1 + bad p.2) hmem)
  omega

theorem valid_of_field (h : bad (.obj (present fields)) = 0) (i : Nat)
    {n s : GoString} (hi : fields[i]? = some (n, unlessEmpty s)) : Utf8.valid s = true := by
  unfold unlessEmpty at hi
  split_ifs at hi with hs
  · rw [hs]
    rfl
  · exact valid_of_badBytes (bad_of_field h i hi)

/-! ### Texts for a strict reader -/

/-- A JSON text nested at most `d` deep without duplicate keys. -/
def Strict (d : Nat) (v : Json) : Prop := Nested d v ∧ noDuplicates v.sanitize = true

namespace Strict

variable {d : Nat} {v : Json}

theorem null : Strict d .null := ⟨.null, rfl⟩

theorem bool (b : Bool) : Strict d (.bool b) := ⟨.bool b, rfl⟩

theorem str (s : GoString) : Strict d (.str s) := ⟨.str s, rfl⟩

theorem int (i : Int) : Strict d (int i) := ⟨.num (isNumber_itoa i), rfl⟩

theorem uint64 (n : UInt64) : Strict d (uint64 n) := ⟨.num (isNumber_itoa n.toNat), rfl⟩

theorem arr {l : List Json} (h : ∀ v ∈ l, Strict d v) : Strict (d + 1) (.arr l) := by
  refine ⟨.arr fun v hv => (h v hv).1, ?_⟩
  rw [Json.sanitize, noDuplicates, sanitizeElems_eq, noDuplicatesElems_iff]
  intro v hv
  obtain ⟨w, hw, rfl⟩ := mem_map.mp hv
  exact (h w hw).2

theorem unlessEmpty {s : GoString} (h : v ∈ unlessEmpty s) : Strict d v := by
  unfold GoJson.unlessEmpty at h
  split_ifs at h
  · cases h
  · cases h
    exact str s

theorem unlessFalse {b : Bool} (h : v ∈ unlessFalse b) : Strict d v := by
  unfold GoJson.unlessFalse at h
  split_ifs at h
  · cases h
    exact bool true
  · cases h

theorem unlessNoStrings {l : List GoString} (h : v ∈ unlessNoStrings l) : Strict (d + 1) v := by
  unfold GoJson.unlessNoStrings at h
  split_ifs at h
  · cases h
  · cases h
    refine arr fun v hv => ?_
    obtain ⟨s, -, rfl⟩ := mem_map.mp hv
    exact str s

theorem record {fields : List (GoString × Option Json)} (hd : Distinct (fields.map Prod.fst))
    (h : ∀ p ∈ fields, ∀ v ∈ p.2, Strict d v) : Strict (d + 1) (.obj (present fields)) := by
  have hv : ∀ p ∈ present fields, Strict d p.2 := fun p hp => h _ (mem_present.mp hp) _ rfl
  refine ⟨.obj fun p hp => (hv p hp).1, ?_⟩
  rw [Json.sanitize, noDuplicates, sanitizeMembers_eq, Bool.and_eq_true, decide_eq_true_eq, noDuplicatesMembers_iff]
  constructor
  · have hkeys : ((present fields).map fun p => (Utf8.sanitize p.1, p.2.sanitize)).map Prod.fst =
        (present fields).map Prod.fst := by
      rw [map_map]
      refine map_congr_left fun p hp => Utf8.sanitize_of_valid (hd.2 _ ?_)
      exact (keys_present fields).subset (mem_map_of_mem hp)
    rw [hkeys]
    exact (hd.1.of_map foldName).sublist (keys_present fields)
  · intro p hp
    obtain ⟨q, hq, rfl⟩ := mem_map.mp hp
    exact (hv q hq).2

theorem mono {d' : Nat} (h : Strict d v) (hd : d ≤ d') : Strict d' v := ⟨h.1.mono hd, h.2⟩

end Strict

/-! ### Reading back -/

theorem rawMembers_encode {fields : List (GoString × Option Json)} {names : List GoString}
    (hn : fields.map Prod.fst = names) (hd : Distinct names) (h : Strict maxNestingDepth (.obj (present fields))) :
    rawMembers (encode (.obj (present fields))) = some (texts fields) := by
  subst hn
  rw [rawMembers, parse_encode h.1]
  rw [rawObject_encode h.1]
  refine congrArg some (map_congr_left fun p hp => ?_)
  rw [Utf8.sanitize_of_valid (hd.2 _ ((keys_present fields).subset (mem_map_of_mem hp)))]

theorem knownMembers_encode {fields : List (GoString × Option Json)} {names : List GoString}
    (hn : fields.map Prod.fst = names) (hd : Distinct names) (h : Strict maxNestingDepth (.obj (present fields))) :
    knownMembers names (encode (.obj (present fields))) = some (texts fields) := by
  have hknown : (texts fields).all fun m => names.any fun n => foldName m.1 = foldName n := by
    rw [all_eq_true]
    intro m hm
    obtain ⟨p, hp, rfl⟩ := mem_map.mp hm
    refine any_eq_true.mpr ⟨p.1, ?_, by simp⟩
    exact hn ▸ (keys_present fields).subset (mem_map_of_mem hp)
  rw [knownMembers, rawMembers_encode hn hd h]
  exact if_pos hknown

theorem decodeString_encode (old s : GoString) : decodeString old (encode (.str s)) = some (Utf8.sanitize s) := by
  rw [decodeString, parse_encode (.str s), Json.sanitize]

theorem parseInt_itoa {i : Int} (h : -2 ^ 63 ≤ i ∧ i < 2 ^ 63) : parseInt (itoa i) = some i := by
  cases i with
  | ofNat n =>
    have hn : n < 2 ^ 63 := by
      have := h.2
      rw [Int.ofNat_eq_natCast] at this
      omega
    have hnat := Decimal.natOfDigits_decimal n
    rw [itoa]
    unfold parseInt
    split
    · rename_i t ht
      have hall := Decimal.all_isDigit_decimal n
      rw [ht] at hall
      cases hall
    · rw [hnat, Option.bind_some, if_pos hn]
      rfl
  | negSucc n =>
    have hn : n + 1 ≤ 2 ^ 63 := by
      have := h.1
      omega
    rw [itoa, parseInt, Decimal.natOfDigits_decimal, Option.bind_some, if_pos hn]
    rfl

theorem decodeUint64_encode (old n : UInt64) : decodeUint64 old (encode (uint64 n)) = some n := by
  have hlt : n.toNat < 2 ^ 64 := n.toNat_lt
  have hnum : IsNumber (decimal n.toNat) := isNumber_itoa n.toNat
  rw [decodeUint64, uint64, parse_encode (.num hnum)]
  show (Decimal.parseUint (decimal n.toNat)).map UInt64.ofNat = some n
  rw [Decimal.parseUint, Decimal.natOfDigits_decimal, Option.bind_some, if_pos hlt, Option.map_some, UInt64.ofNat_toNat]

theorem mapM_map {f : α → Json} {g : α → β} {decode : GoString → Option β} {l : List α}
    (h : ∀ x ∈ l, decode (encode (f x)) = some (g x)) : (l.map fun x => encode (f x)).mapM decode = some (l.map g) := by
  induction l with
  | nil => rfl
  | cons x l ih =>
    rw [forall_mem_cons] at h
    rw [map_cons, mapM_cons, h.1, ih h.2]
    rfl

theorem decodeSlice_encode {f : α → Json} {g : α → β} {decode : GoString → Option β} {l : List α}
    (hs : Strict maxNestingDepth (.arr (l.map f))) (h : ∀ x ∈ l, decode (encode (f x)) = some (g x))
    (old : Option (List β)) : decodeSlice decode old (encode (.arr (l.map f))) = some (some (l.map g)) := by
  rw [decodeSlice, parse_encode hs.1, Json.sanitize]
  rw [rawArray_encode hs.1, map_map]
  have := mapM_map h
  rw [Function.comp_def]
  simp [this]

/-- One field after the other. -/
theorem bind_of_some {x : Option α} {f : α → Option β} {a : α} {b : β} (hx : x = some a) (hf : f a = some b) :
    (x >>= f) = some b := by
  rw [hx]
  exact hf

section Fields

variable {fields : List (GoString × Option Json)} (hd : Distinct (fields.map Prod.fst)) (i : Nat) {n : GoString}
include hd

theorem field_string {s : GoString} (hi : fields[i]? = some (n, some (.str s))) :
    field n decodeString [] (texts fields) = some (Utf8.sanitize s) := by
  rw [field_texts hd i hi]
  exact decodeString_encode [] s

theorem field_unlessEmpty {s : GoString} (hi : fields[i]? = some (n, unlessEmpty s)) :
    field n decodeString [] (texts fields) = some (Utf8.sanitize s) := by
  rw [field_texts hd i hi]
  unfold unlessEmpty
  split_ifs with h
  · rw [h]
    rfl
  · exact decodeString_encode [] s

theorem field_unlessFalse {b : Bool} (hi : fields[i]? = some (n, unlessFalse b)) :
    field n decodeBool false (texts fields) = some b := by
  rw [field_texts hd i hi]
  cases b with
  | false => rfl
  | true =>
    show decodeBool false (encode (.bool true)) = some true
    rw [decodeBool, parse_encode (.bool true), Json.sanitize]

theorem field_bool {b : Bool} (hi : fields[i]? = some (n, some (.bool b))) :
    field n decodeBool false (texts fields) = some b := by
  rw [field_texts hd i hi]
  show decodeBool false (encode (.bool b)) = some b
  rw [decodeBool, parse_encode (.bool b), Json.sanitize]

theorem field_uint64 {k : UInt64} (hi : fields[i]? = some (n, some (uint64 k))) :
    field n decodeUint64 0 (texts fields) = some k := by
  rw [field_texts hd i hi]
  exact decodeUint64_encode 0 k

theorem field_int {k : Int} (hi : fields[i]? = some (n, some (int k))) (hk : -2 ^ 63 ≤ k ∧ k < 2 ^ 63) :
    field n decodeInt 0 (texts fields) = some k := by
  rw [field_texts hd i hi]
  show decodeInt 0 (encode (int k)) = some k
  rw [decodeInt, int, parse_encode (.num (isNumber_itoa k)), Json.sanitize]
  exact parseInt_itoa hk

end Fields

/-- A slice of strings, with nil for none. -/
theorem field_unlessNoStrings {fields : List (GoString × Option Json)} (hd : Distinct (fields.map Prod.fst)) (i : Nat) {n : GoString}
    {l : List GoString} (hi : fields[i]? = some (n, unlessNoStrings l)) :
    (field n (decodeSlice (decodeString [])) none (texts fields)).map (·.getD []) = some (l.map Utf8.sanitize) := by
  rw [field_texts hd i hi]
  unfold unlessNoStrings
  split_ifs with h
  · rw [h]
    rfl
  · have hstrict : Strict maxNestingDepth (.arr (l.map Json.str)) := by
      refine Strict.mono (d := 1) (Strict.arr fun v hv => ?_) (by decide)
      obtain ⟨s, -, rfl⟩ := mem_map.mp hv
      exact Strict.str s
    rw [Option.elim_some, decodeSlice_encode hstrict fun s _ => decodeString_encode [] s]
    rfl

end GoJson

end AutoSql
