/-
AutoSql/Lib/JsonRoundTrip.lean

What `encode` writes, the parser reads back.

The statements carry the text `rest` that follows the value, because a value
is usually read from the middle of a document; `Follow rest` says that the
rest starts like the rest of an array or an object, so that a number cannot
run on.  Strings come back with their bad bytes replaced (`sanitize`), which
is the only thing the way out and back changes.

The order of the file is the order of the parser: numbers, runes and strings,
then the two loops once for an arbitrary value parser, then values.

Main results: `parseValue_encode`, `rawObject_encode` and `rawArray_encode`.
-/
import AutoSql.Lib.Json

namespace AutoSql.Json

open List Option

/-! ### Trees -/

mutual
/-- The tree with the bad bytes of its strings and keys replaced. -/
def sanitize : Json → Json
  | .null => .null
  | .bool b => .bool b
  | .num lit => .num lit
  | .str s => .str (Utf8.sanitize s)
  | .arr l => .arr (sanitizeElems l)
  | .obj l => .obj (sanitizeMembers l)

def sanitizeElems : List Json → List Json
  | [] => []
  | v :: l => sanitize v :: sanitizeElems l

def sanitizeMembers : List (GoString × Json) → List (GoString × Json)
  | [] => []
  | p :: l => (Utf8.sanitize p.1, sanitize p.2) :: sanitizeMembers l
end

theorem sanitizeElems_eq (l : List Json) : sanitizeElems l = l.map sanitize := by
  induction l with
  | nil => rfl
  | cons v l ih => rw [sanitizeElems, ih]; rfl

theorem sanitizeMembers_eq (l : List (GoString × Json)) :
    sanitizeMembers l = l.map fun p => (Utf8.sanitize p.1, sanitize p.2) := by
  induction l with
  | nil => rfl
  | cons v l ih => rw [sanitizeMembers, ih]; rfl

theorem encodeElems_eq (l : List Json) : encodeElems l = l.map encode := by
  induction l with
  | nil => rfl
  | cons v l ih => rw [encodeElems, ih]; rfl

theorem encodeMembers_eq (l : List (GoString × Json)) :
    encodeMembers l = l.map fun p => quote p.1 ++ 0x3A :: encode p.2 := by
  induction l with
  | nil => rfl
  | cons v l ih => rw [encodeMembers, ih]; rfl

/-- A number literal. -/
def IsNumber (lit : GoString) : Prop := number lit = some (lit, [])

/-- `Nested d v`: the numbers of `v` are number literals, and `v` is nested at
most `d` deep. -/
inductive Nested : Nat → Json → Prop
  | null {d} : Nested d .null
  | bool {d} (b) : Nested d (.bool b)
  | num {d lit} : IsNumber lit → Nested d (.num lit)
  | str {d} (s) : Nested d (.str s)
  | arr {d l} : (∀ v ∈ l, Nested d v) → Nested (d + 1) (.arr l)
  | obj {d l} : (∀ p ∈ l, Nested d p.2) → Nested (d + 1) (.obj l)

/-! ### What can follow a value -/

/-- The text ends, or the enclosing array or object goes on or is closed. -/
def Follow (s : GoString) : Prop := ∀ b, s.head? = some b → b = 0x2C ∨ b = 0x5D ∨ b = 0x7D

theorem follow_nil : Follow [] := by intro b h; cases h

variable {b : UInt8}

theorem follow_cons (h : b = 0x2C ∨ b = 0x5D ∨ b = 0x7D) (s : GoString) : Follow (b :: s) := by
  intro c hc
  cases hc
  exact h

/-! ### Numbers -/

theorem span_digits_append {t : GoString} (ht : Follow t) (s : GoString) :
    (s ++ t).takeWhile isDigit = s.takeWhile isDigit ∧ (s ++ t).dropWhile isDigit = s.dropWhile isDigit ++ t := by
  induction s with
  | nil =>
    rcases t with - | ⟨b, t⟩
    · exact ⟨rfl, rfl⟩
    · have hb : isDigit b = false := by
        rcases ht b rfl with rfl | rfl | rfl <;> decide
      simp [hb]
  | cons a s ih =>
    by_cases ha : isDigit a = true
    · simp [ha, ih]
    · simp [ha]

variable {s l r t : GoString}

theorem digits_append (h : digits s = some (l, r)) (ht : Follow t) : digits (s ++ t) = some (l, r ++ t) := by
  obtain ⟨h₁, h₂⟩ := span_digits_append ht s
  rw [digits, h₁, h₂]
  rw [digits] at h
  split_ifs at h ⊢
  cases h
  rfl

theorem signPart_append (s : GoString) {t : GoString} (ht : Follow t) :
    signPart (s ++ t) = ((signPart s).1, (signPart s).2 ++ t) := by
  rcases s with - | ⟨a, s⟩
  · rcases t with - | ⟨b, t⟩
    · rfl
    · rcases ht b rfl with rfl | rfl | rfl <;> rfl
  · by_cases ha : a = 0x2D
    · subst ha; rfl
    · simp [signPart, ha]

theorem intPart_append (h : intPart s = some (l, r)) (ht : Follow t) : intPart (s ++ t) = some (l, r ++ t) := by
  rcases s with - | ⟨a, s⟩
  · cases h
  · by_cases ha : a = 0x30
    · subst ha
      cases h
      rfl
    · have other : ∀ s, intPart (a :: s) = digits (a :: s) := by simp [intPart, ha]
      rw [other] at h
      rw [cons_append, other]
      exact digits_append h ht

theorem fracPart_append (h : fracPart s = some (l, r)) (ht : Follow t) : fracPart (s ++ t) = some (l, r ++ t) := by
  rcases s with - | ⟨a, s⟩
  · cases h
    rcases t with - | ⟨b, t⟩
    · rfl
    · rcases ht b rfl with rfl | rfl | rfl <;> rfl
  · by_cases ha : a = 0x2E
    · subst ha
      simp only [fracPart, cons_append, map_eq_some_iff] at h ⊢
      obtain ⟨⟨l', r'⟩, h', heq⟩ := h
      cases heq
      exact ⟨(l', r' ++ t), digits_append h' ht, rfl⟩
    · have other : ∀ s, fracPart (a :: s) = some ([], a :: s) := by simp [fracPart, ha]
      rw [other] at h
      cases h
      exact other _

theorem expDigits_append (h : expDigits s = some (l, r)) (ht : Follow t) : expDigits (s ++ t) = some (l, r ++ t) := by
  rcases s with - | ⟨a, s⟩
  · cases h
  · rw [expDigits] at h
    rw [cons_append, expDigits]
    split_ifs at h ⊢
    · simp only [map_eq_some_iff] at h ⊢
      obtain ⟨⟨l', r'⟩, h', heq⟩ := h
      cases heq
      exact ⟨(l', r' ++ t), digits_append h' ht, rfl⟩
    · exact digits_append h ht

theorem expPart_append (h : expPart s = some (l, r)) (ht : Follow t) : expPart (s ++ t) = some (l, r ++ t) := by
  rcases s with - | ⟨a, s⟩
  · cases h
    rcases t with - | ⟨b, t⟩
    · rfl
    · rcases ht b rfl with rfl | rfl | rfl <;> rfl
  · rw [expPart] at h
    rw [cons_append, expPart]
    split_ifs at h ⊢
    · simp only [map_eq_some_iff] at h ⊢
      obtain ⟨⟨l', r'⟩, h', heq⟩ := h
      cases heq
      exact ⟨(l', r' ++ t), expDigits_append h' ht, rfl⟩
    · cases h
      rfl

/-- Reading a number stops where the number stops. -/
theorem number_append (h : number s = some (l, r)) (ht : Follow t) : number (s ++ t) = some (l, r ++ t) := by
  simp only [number, bind_eq_bind, bind_eq_some_iff, Option.some.injEq] at h ⊢
  obtain ⟨⟨int, s₁⟩, h₁, ⟨frac, s₂⟩, h₂, ⟨exp, s₃⟩, h₃, heq⟩ := h
  cases heq
  rw [signPart_append s ht]
  exact ⟨_, intPart_append h₁ ht, _, fracPart_append h₂ ht, _, expPart_append h₃ ht, rfl⟩

/-! ### Strings -/

theorem hexValue_hexDigit : ∀ n < 16, hexValue (hexDigit n) = some n := by decide

theorem stringChar_unit {s s' : GoString} {r : Nat} (h : hex4 s = some (r, s')) (hr : r < 0xD800 ∨ 0xDFFF < r) :
    stringChar (0x5C :: 0x75 :: s) = some (appendRune r, s') := by
  have hunit : unicodeUnit r s' = (appendRune r, s') := by rw [unicodeUnit, if_neg (by omega)]
  simp [stringChar, unescape, h, hunit]

theorem stringChar_unicodeEscape (hb : b < 0x80) (s : GoString) :
    stringChar (unicodeEscape b ++ s) = some ([b], s) := by
  have hlt : b.toNat < 128 := by simpa [UInt8.lt_iff_toNat_lt] using hb
  have hhex : hex4 (0x30 :: 0x30 :: hexDigit (b.toNat / 16) :: hexDigit (b.toNat % 16) :: s) = some (b.toNat, s) := by
    rw [hex4, hexValue_hexDigit _ (by omega), hexValue_hexDigit _ (by omega)]
    show some (((0 * 16 + 0) * 16 + b.toNat / 16) * 16 + b.toNat % 16, s) = _
    rw [show ((0 * 16 + 0) * 16 + b.toNat / 16) * 16 + b.toNat % 16 = b.toNat by omega]
  have hchar : stringChar (unicodeEscape b ++ s) = some (appendRune b.toNat, s) :=
    stringChar_unit hhex (by omega)
  rw [hchar, appendRune, if_pos hlt, UInt8.ofNat_toNat]

/-- An escaped byte is read back. -/
theorem stringChar_escapeByte (hb : b < 0x80) (s : GoString) : stringChar (escapeByte b ++ s) = some ([b], s) := by
  by_cases h₁ : b = 0x22 ∨ b = 0x5C
  · rcases h₁ with rfl | rfl <;> rfl
  by_cases h₂ : b = 0x08 ∨ b = 0x0C ∨ b = 0x0A ∨ b = 0x0D ∨ b = 0x09
  · rcases h₂ with rfl | rfl | rfl | rfl | rfl <;> rfl
  simp only [not_or] at h₂
  obtain ⟨hb₁, hb₂, hb₃, hb₄, hb₅⟩ := h₂
  rw [escapeByte]
  split_ifs with h₃
  · exact stringChar_unicodeEscape hb s
  · -- the byte stands for itself
    simp only [not_or] at h₁ h₃
    rw [cons_append, stringChar, if_neg h₁.2, if_neg h₃.1, if_pos hb]
    rfl

/-- An escaped rune is read back, a bad byte as the replacement character. -/
theorem stringChar_escapeRune {r : Rune} (hr : Utf8.WF r) (s : GoString) :
    stringChar (escapeRune r ++ s) = some (Utf8.encode r, s) := by
  cases r with
  | ascii b => exact stringChar_escapeByte hr s
  | bad b =>
    have h : hex4 (0x66 :: 0x66 :: 0x66 :: 0x64 :: s) = some (0xFFFD, s) := rfl
    exact stringChar_unit h (by omega)
  | multi bs =>
    rw [escapeRune]
    split_ifs with h₁ h₂
    · subst h₁
      have h : hex4 (0x32 :: 0x30 :: 0x32 :: 0x38 :: s) = some (0x2028, s) := rfl
      exact stringChar_unit h (by omega)
    · subst h₂
      have h : hex4 (0x32 :: 0x30 :: 0x32 :: 0x39 :: s) = some (0x2029, s) := rfl
      exact stringChar_unit h (by omega)
    · have hlen := Utf8.runeLen_append hr s
      have hhigh := Utf8.high_of_isMulti hr
      obtain - | ⟨a, bs⟩ := bs
      · exact absurd hr (by simp [Utf8.WF, Utf8.isMulti])
      · have ha := hhigh a mem_cons_self
        rw [cons_append] at hlen ⊢
        rw [stringChar, hlen, if_neg (by rintro rfl; revert ha; decide), if_neg (by grind), if_neg (by grind)]
        simp [Utf8.encode]

/-- An escaped rune does not start with the closing quote. -/
theorem head_escapeRune {r : Rune} (hr : Utf8.WF r) : ∃ b t, escapeRune r = b :: t ∧ b ≠ 0x22 := by
  cases r with
  | ascii b =>
    rw [escapeRune, escapeByte]
    split_ifs with h₁
    all_goals first
      | exact ⟨_, _, rfl, by decide⟩
      | exact ⟨b, [], rfl, fun h => h₁ (Or.inl h)⟩
  | bad b => exact ⟨_, _, rfl, by decide⟩
  | multi bs =>
    rw [escapeRune]
    split_ifs with h₁ h₂
    · exact ⟨_, _, rfl, by decide⟩
    · exact ⟨_, _, rfl, by decide⟩
    · have hhigh := Utf8.high_of_isMulti hr
      obtain - | ⟨a, bs⟩ := bs
      · exact absurd hr (by simp [Utf8.WF, Utf8.isMulti])
      · refine ⟨a, bs, rfl, ?_⟩
        rintro rfl
        have := hhigh _ mem_cons_self
        revert this
        decide

theorem stringBody_escapeRunes {rs : List Rune} (h : ∀ r ∈ rs, Utf8.WF r) (s : GoString) {n : Nat}
    (hn : rs.length < n) : stringBody n (rs.flatMap escapeRune ++ 0x22 :: s) = some (rs.flatMap Utf8.encode, s) := by
  induction rs generalizing n with
  | nil =>
    obtain ⟨n, rfl⟩ := Nat.exists_eq_succ_of_ne_zero (Nat.ne_of_gt hn)
    rfl
  | cons r rs ih =>
    obtain ⟨n, rfl⟩ := Nat.exists_eq_succ_of_ne_zero (Nat.ne_of_gt (Nat.zero_lt_of_lt hn))
    have hrs := ih (fun r' hr' => h r' (mem_cons_of_mem _ hr')) (by simpa using hn)
    have hr := stringChar_escapeRune (h r mem_cons_self)
      (rs.flatMap escapeRune ++ 0x22 :: s)
    obtain ⟨b, t, heq, hb⟩ := head_escapeRune (h r mem_cons_self)
    rw [heq, cons_append] at hr
    rw [flatMap_cons, heq]
    simp [stringBody, hb, hr, hrs]

/-- A quoted string is read back with its bad bytes replaced. -/
theorem string_quote (s t : GoString) : string (quote s ++ t) = some (Utf8.sanitize s, t) := by
  have hwf : ∀ r ∈ Utf8.runes s, Utf8.WF r := fun r hr => Utf8.wf_of_mem_runes hr
  have hlen : ∀ rs : List Rune, (∀ r ∈ rs, Utf8.WF r) → rs.length ≤ (rs.flatMap escapeRune).length := by
    intro rs hrs
    induction rs with
    | nil => exact Nat.le_refl _
    | cons r rs ih =>
      obtain ⟨b, u, heq, -⟩ := head_escapeRune (hrs r mem_cons_self)
      have := ih fun r' hr' => hrs r' (mem_cons_of_mem _ hr')
      rw [flatMap_cons, heq]
      simp only [length_cons, length_append]
      omega
  have h := hlen _ hwf
  have heq : quote s ++ t = 0x22 :: ((Utf8.runes s).flatMap escapeRune ++ 0x22 :: t) := by
    simp [quote]
  rw [heq]
  exact stringBody_escapeRunes hwf t (by rw [length_append]; omega)

/-! ### The first byte of a value -/

/-- The text starts with a byte that is neither white space nor a closing
bracket. -/
def Starts (s : GoString) : Prop := ∃ b t, s = b :: t ∧ isSpace b = false ∧ b ≠ 0x5D

theorem skipSpace_of_starts {s : GoString} (h : Starts s) (t : GoString) : skipSpace (s ++ t) = s ++ t := by
  obtain ⟨b, u, rfl, hb, -⟩ := h
  rw [cons_append, skipSpace, dropWhile_cons_of_neg (by simp [hb])]

theorem skipSpace_cons (h : isSpace b = false) (s : GoString) : skipSpace (b :: s) = b :: s := by
  rw [skipSpace, dropWhile_cons_of_neg (by simp [h])]

/-- A number literal starts with a minus sign or a digit. -/
theorem head_number {lit : GoString} (h : IsNumber lit) : ∃ b t, lit = b :: t ∧ (b = 0x2D ∨ isDigit b = true) := by
  rcases lit with - | ⟨b, t⟩
  · cases h
  · refine ⟨b, t, rfl, ?_⟩
    by_contra hb
    simp only [not_or, Bool.not_eq_true] at hb
    have hsign : signPart (b :: t) = ([], b :: t) := by simp [signPart, hb.1]
    have hint : intPart (b :: t) = none := by
      have hb' : b ≠ 0x30 := by rintro rfl; exact absurd hb.2 (by decide)
      simp [intPart, hb', digits, hb.2]
    rw [IsNumber, number, hsign] at h
    simp [hint] at h

theorem starts_encode {d : Nat} {v : Json} (h : Nested d v) : Starts (encode v) := by
  cases h with
  | null => exact ⟨_, _, rfl, by decide, by decide⟩
  | bool b => cases b <;> exact ⟨_, _, rfl, by decide, by decide⟩
  | str | arr | obj => exact ⟨_, _, rfl, by decide, by decide⟩
  | num h =>
    obtain ⟨b, t, rfl, hb⟩ := head_number h
    refine ⟨b, t, rfl, ?_, ?_⟩
    · rcases hb with rfl | hb
      · decide
      · simp only [isDigit, Bool.and_eq_true, decide_eq_true_eq] at hb
        simp only [isSpace, Bool.or_eq_false_iff, beq_eq_false_iff_ne]
        grind
    · rintro rfl
      revert hb
      decide

/-! ### Arrays and objects -/

section Loops

variable {α : Type} {value : GoString → Option (α × GoString)} {g : Json → α} {d : Nat}

theorem commaSep_cons_cons (t u : GoString) (ts : List GoString) :
    commaSep (t :: u :: ts) = t ++ 0x2C :: commaSep (u :: ts) := rfl

theorem length_le_commaSep {ts : List GoString} (h : ∀ t ∈ ts, t ≠ []) : ts.length ≤ (commaSep ts).length := by
  induction ts with
  | nil => exact Nat.le_refl _
  | cons t ts ih =>
    have ht : 0 < t.length := length_pos_iff.mpr (h t mem_cons_self)
    have hts := ih fun t ht => h t (mem_cons_of_mem _ ht)
    cases ts with
    | nil => exact ht
    | cons u ts =>
      rw [commaSep_cons_cons]
      simp only [length_append, length_cons] at hts ⊢
      omega

/-- `value` reads back the encoding of `v` as `g v`. -/
def Reads (value : GoString → Option (α × GoString)) (g : Json → α) (v : Json) : Prop :=
  ∀ t, Follow t → value (encode v ++ t) = some (g v, t)

/-- Both loops: `loop` reads items up to the byte `close`, with a comma between two of them. -/
theorem loop_encode {β γ : Type} {I : GoString → Option (β × GoString)} {loop : Nat → GoString → Option (List β × GoString)} {close : UInt8}
    (hclose : (close = 0x2C ∨ close = 0x5D ∨ close = 0x7D) ∧ isSpace close = false)
    (hlast : ∀ {s r x} n, I s = some (x, r) → ∀ {r'}, skipSpace r = close :: r' → loop (n + 1) s = some ([x], r'))
    (hmore : ∀ {s r x} n, I s = some (x, r) → ∀ {r' xs r''}, skipSpace r = 0x2C :: r' → loop n r' = some (xs, r'') →
      loop (n + 1) s = some (x :: xs, r''))
    {text : γ → GoString} {g : γ → β} {l : List γ} (hne : l ≠ []) (htext : ∀ x ∈ l, text x ≠ [])
    (hread : ∀ x ∈ l, ∀ t, Follow t → I (text x ++ t) = some (g x, t)) (s : GoString) :
    loop (commaSep (l.map text) ++ close :: s).length (commaSep (l.map text) ++ close :: s) = some (l.map g, s) := by
  have hloop : ∀ n, l.length ≤ n → loop n (commaSep (l.map text) ++ close :: s) = some (l.map g, s) := by
    induction l with
    | nil => exact absurd rfl hne
    | cons x l ih =>
      intro n hn
      rw [forall_mem_cons] at hread htext
      obtain ⟨n, rfl⟩ := Nat.exists_eq_succ_of_ne_zero (n := n) (by simp at hn; omega)
      cases l with
      | nil => exact hlast n (hread.1 _ (follow_cons hclose.1 s)) (skipSpace_cons hclose.2 s)
      | cons y l =>
        refine hmore n ?_ (skipSpace_cons (by decide) _) (ih (by simp) htext.2 hread.2 n (by simpa using hn))
        rw [map_cons, map_cons, commaSep_cons_cons, append_assoc]
        exact hread.1 _ (follow_cons (by decide) _)
  refine hloop _ ?_
  have : (l.map text).length ≤ _ := length_le_commaSep fun t ht => by
    obtain ⟨x, hx, rfl⟩ := mem_map.mp ht
    exact htext x hx
  rw [length_map] at this
  rw [length_append]
  omega

theorem member_encode {p : GoString × Json} (hp : Nested d p.2) (hv : Reads value g p.2)
    {t : GoString} (ht : Follow t) : member value (quote p.1 ++ 0x3A :: encode p.2 ++ t) =
      some ((Utf8.sanitize p.1, g p.2), t) := by
  have hskip : skipSpace (quote p.1 ++ (0x3A :: (encode p.2 ++ t))) =
      quote p.1 ++ (0x3A :: (encode p.2 ++ t)) := skipSpace_cons (by decide) _
  rw [append_assoc, cons_append, member, hskip, string_quote]
  simp [skipSpace_cons (show isSpace 0x3A = false by decide), skipSpace_of_starts (starts_encode hp), hv t ht]

theorem commaSep_cons_append (t : GoString) (ts : List GoString) : ∃ u, commaSep (t :: ts) = t ++ u := by
  cases ts with
  | nil => exact ⟨[], (append_nil t).symm⟩
  | cons u ts => exact ⟨_, commaSep_cons_cons t u ts⟩

theorem array_of_starts {s : GoString} (h : Starts s) : array value s = elems value s.length s := by
  obtain ⟨b, t, rfl, hb, hne⟩ := h
  rw [array, skipSpace_cons hb]
  simp [hne]

theorem array_encode {l : List Json} (hl : ∀ v ∈ l, Nested d v) (hv : ∀ v ∈ l, Reads value g v) (s : GoString) :
    array value (commaSep (encodeElems l) ++ 0x5D :: s) = some (l.map g, s) := by
  rw [encodeElems_eq]
  rcases e : l with - | ⟨v, l'⟩
  · rfl
  · have hstart : Starts (commaSep (l.map encode) ++ 0x5D :: s) := by
      obtain ⟨b, t, heq, hb⟩ := starts_encode (hl v (e ▸ mem_cons_self))
      obtain ⟨u, hu⟩ := commaSep_cons_append (encode v) (l'.map encode)
      refine ⟨b, t ++ u ++ 0x5D :: s, ?_, hb⟩
      rw [e, map_cons, hu, heq]
      simp
    rw [← e, array_of_starts hstart]
    refine loop_encode (I := fun s => value (skipSpace s)) (by decide) (fun n hv _ hr => by simp [elems, hv, hr])
      (fun n hv _ _ _ hr hvs => by simp [elems, hv, hr, hvs]) (by simp [e]) (fun v hv => ?_) (fun v hm t ht => ?_) s
    · obtain ⟨b, u, heq, -⟩ := starts_encode (hl v hv)
      simp [heq]
    · rw [skipSpace_of_starts (starts_encode (hl v hm))]
      exact hv v hm t ht

theorem object_encode {l : List (GoString × Json)} (hl : ∀ p ∈ l, Nested d p.2)
    (hv : ∀ p ∈ l, Reads value g p.2) (s : GoString) : object value (commaSep (encodeMembers l) ++ 0x7D :: s) =
      some (l.map fun p => (Utf8.sanitize p.1, g p.2), s) := by
  rcases e : l with - | ⟨p, l'⟩
  · rfl
  · have hobj : object value (commaSep (encodeMembers l) ++ 0x7D :: s) =
        members value (commaSep (encodeMembers l) ++ 0x7D :: s).length
          (commaSep (encodeMembers l) ++ 0x7D :: s) := by
      obtain ⟨u, hu⟩ := commaSep_cons_append (quote p.1 ++ 0x3A :: encode p.2) (encodeMembers l')
      rw [e, encodeMembers, hu]
      rfl
    rw [← e, hobj, encodeMembers_eq]
    exact loop_encode (by decide) (fun n hm _ hr => by simp [members, hm, hr]) (fun n hm _ _ _ hr hms => by simp [members, hm, hr, hms])
      (by simp [e]) (fun p _ => by simp [quote]) (fun p hp t ht => member_encode (hl p hp) (hv p hp) ht) s

end Loops

/-! ### Values -/

theorem parseValue_number {d : Nat} {s lit t : GoString} {b : UInt8}
    (hb : b = 0x2D ∨ isDigit b = true) (hs : s = b :: t) {r : GoString}
    (h : number s = some (lit, r)) : parseValue d s = some (.num lit, r) := by
  have hne : b ≠ 0x6E ∧ b ≠ 0x74 ∧ b ≠ 0x66 ∧ b ≠ 0x22 ∧ b ≠ 0x5B ∧ b ≠ 0x7B := by
    refine ⟨?_, ?_, ?_, ?_, ?_, ?_⟩ <;> rintro rfl <;> revert hb <;> decide
  obtain ⟨h₁, h₂, h₃, h₄, h₅, h₆⟩ := hne
  unfold parseValue
  split <;> simp_all

theorem parseValue_null (d : Nat) (s : GoString) : parseValue d (AutoSql.str "null" ++ s) = some (.null, s) := by
  have h : parseValue d (AutoSql.str "null" ++ s) =
      (literal (AutoSql.str "null") (AutoSql.str "null" ++ s)).map fun s => (.null, s) := by
    cases d <;> rfl
  rw [h]
  rfl

theorem parseValue_bool (d : Nat) (b : Bool) (s : GoString) :
    parseValue d (encode (.bool b) ++ s) = some (.bool b, s) := by
  have h : parseValue d (encode (.bool b) ++ s) =
      (literal (encode (.bool b)) (encode (.bool b) ++ s)).map fun s => (.bool b, s) := by
    cases d <;> cases b <;> rfl
  simp [h, literal]

theorem parseValue_string (d : Nat) (s t : GoString) :
    parseValue d (quote s ++ t) = some (.str (Utf8.sanitize s), t) := by
  have h : parseValue d (quote s ++ t) = (string (quote s ++ t)).map fun p => (.str p.1, p.2) := by
    cases d <;> rfl
  rw [h, string_quote]
  rfl

variable {v : Json}

/-- **Round trip.**  The parser reads back what `encode` wrote, up to bad
bytes, and stops where the value stops. -/
theorem parseValue_encode {d : Nat} (h : Nested d v) : Reads (parseValue d) sanitize v := by
  induction h with
  | null => exact fun t _ => parseValue_null _ t
  | bool b => exact fun t _ => parseValue_bool _ b t
  | num hlit =>
    intro t ht
    obtain ⟨b, u, hu, hb⟩ := head_number hlit
    exact parseValue_number hb (by rw [hu]; rfl) (by simpa [encode] using number_append hlit ht)
  | str s => exact fun t _ => parseValue_string _ s t
  | @arr d l hl ih =>
    intro t ht
    have heq : encode (.arr l) ++ t = 0x5B :: (commaSep (encodeElems l) ++ 0x5D :: t) := by
      simp [encode]
    rw [heq]
    show (array (parseValue d) _).map _ = _
    rw [array_encode hl ih, sanitize, sanitizeElems_eq]
    rfl
  | @obj d l hl ih =>
    intro t ht
    have heq : encode (.obj l) ++ t = 0x7B :: (commaSep (encodeMembers l) ++ 0x7D :: t) := by
      simp [encode]
    rw [heq]
    show (object (parseValue d) _).map _ = _
    rw [object_encode hl ih, sanitize, sanitizeMembers_eq]
    rfl

theorem rawValue_encode {d : Nat} (h : Nested d v) : Reads (rawValue d) encode v := by
  intro t ht
  rw [rawValue, parseValue_encode h t ht]
  simp

theorem Nested.mono {d d' : Nat} (h : Nested d v) (hd : d ≤ d') : Nested d' v := by
  induction h generalizing d' with
  | null => exact .null
  | bool b => exact .bool b
  | num hlit => exact .num hlit
  | str s => exact .str s
  | arr _ ih =>
    obtain ⟨d', rfl⟩ := Nat.exists_eq_succ_of_ne_zero (n := d') (by omega)
    exact .arr fun v hv => ih v hv (by omega)
  | obj _ ih =>
    obtain ⟨d', rfl⟩ := Nat.exists_eq_succ_of_ne_zero (n := d') (by omega)
    exact .obj fun p hp => ih p hp (by omega)

/-! ### Whole texts -/

theorem parse_encode (h : Nested maxNestingDepth v) : parse (encode v) = some (sanitize v) := by
  have := parseValue_encode h [] follow_nil
  rw [append_nil] at this
  have hspace : skipSpace (encode v) = encode v := by simpa using skipSpace_of_starts (starts_encode h) []
  rw [parse, hspace, this]
  rfl

/-- One level of an encoded object: the keys, and the encoded values. -/
theorem rawObject_encode {l : List (GoString × Json)} (h : Nested maxNestingDepth (.obj l)) :
    rawObject (encode (.obj l)) = some (l.map fun p => (Utf8.sanitize p.1, encode p.2)) := by
  cases h with
  | obj hl =>
    have hread := object_encode hl (fun p hp => rawValue_encode (hl p hp)) []
    show whole (object (rawValue 9999) (commaSep (encodeMembers l) ++ 0x7D :: [])) = _
    rw [hread]
    rfl

/-- One level of an encoded array: the encoded elements. -/
theorem rawArray_encode {l : List Json} (h : Nested maxNestingDepth (.arr l)) :
    rawArray (encode (.arr l)) = some (l.map encode) := by
  cases h with
  | arr hl =>
    have hread := array_encode hl (fun p hp => rawValue_encode (hl p hp)) []
    show whole (array (rawValue 9999) (commaSep (encodeElems l) ++ 0x5D :: [])) = _
    rw [hread]
    rfl

end AutoSql.Json
