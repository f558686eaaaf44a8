/-
AutoSql/Lib/GoString.lean

Go strings.  A Go `string` is a sequence of bytes: nothing forces it to be
valid UTF-8, `len` counts bytes, `<` compares bytes and slicing cuts between
bytes.  The development therefore works with byte lists, and writes a Go
literal as `str "..."`.

The file collects the part of Go's `strings`, `strconv` and `sort` packages
that the models need, each under its Go name:

* `le`, the byte order used by `sort.Strings`, with the laws a sort needs;
* `hasPrefix`, `trimPrefix`, `join`;
* `decimal` and `itoa` (`%d`), and `padded` (`%09d`);
* `hexEncode`, and the length of its result.
-/
import Mathlib

namespace AutoSql

open List

/-- A Go string: its bytes. -/
abbrev GoString := List UInt8

instance : LawfulBEq GoString := inferInstance

/-- The Go string literal with the given text. -/
def str (s : String) : GoString := s.toUTF8.data.toList

def isDigit (b : UInt8) : Bool := 0x30 ≤ b && b ≤ 0x39

namespace GoString

/-! ### Byte order -/

/-- `s <= t` on Go strings: lexicographic on bytes. -/
def le : GoString → GoString → Bool
  | [], _ => true
  | _ :: _, [] => false
  | a :: s, b :: t => a < b || (a == b && le s t)

/-- `s < t` on Go strings. -/
def lt (s t : GoString) : Bool := !le t s

theorem le_refl (s : GoString) : le s s = true := by
  induction s with
  | nil => rfl
  | cons a s ih => simp [le, ih]

theorem le_total (s t : GoString) : le s t = true ∨ le t s = true := by
  induction s generalizing t with
  | nil => exact Or.inl rfl
  | cons a s ih =>
    cases t with
    | nil => exact Or.inr rfl
    | cons b t =>
      by_cases h : a = b
      · subst h
        rcases ih t with h' | h'
        · exact Or.inl (by simp [le, h'])
        · exact Or.inr (by simp [le, h'])
      · rcases UInt8.lt_or_lt_of_ne h with h | h
        · exact Or.inl (by simp [le, h])
        · exact Or.inr (by simp [le, h])

variable {s t u : GoString}

theorem le_antisymm (h₁ : le s t = true) (h₂ : le t s = true) : s = t := by
  induction s generalizing t with
  | nil =>
    cases t with
    | nil => rfl
    | cons b t => simp [le] at h₂
  | cons a s ih =>
    cases t with
    | nil => simp [le] at h₁
    | cons b t =>
      simp only [le, Bool.or_eq_true, decide_eq_true_eq, Bool.and_eq_true, beq_iff_eq] at h₁ h₂
      rcases h₁ with h₁ | ⟨rfl, h₁⟩
      · rcases h₂ with h₂ | ⟨rfl, -⟩
        · exact absurd (UInt8.lt_trans h₁ h₂) (UInt8.lt_irrefl _)
        · exact absurd h₁ (UInt8.lt_irrefl _)
      · rcases h₂ with h₂ | ⟨-, h₂⟩
        · exact absurd h₂ (UInt8.lt_irrefl _)
        · rw [ih h₁ h₂]

theorem le_trans (h₁ : le s t = true) (h₂ : le t u = true) : le s u = true := by
  induction s generalizing t u with
  | nil => rfl
  | cons a s ih =>
    cases t with
    | nil => simp [le] at h₁
    | cons b t =>
      cases u with
      | nil => simp [le] at h₂
      | cons c u =>
        simp only [le, Bool.or_eq_true, decide_eq_true_eq, Bool.and_eq_true, beq_iff_eq] at *
        rcases h₁ with h₁ | ⟨rfl, h₁⟩
        · rcases h₂ with h₂ | ⟨rfl, -⟩
          · exact Or.inl (UInt8.lt_trans h₁ h₂)
          · exact Or.inl h₁
        · rcases h₂ with h₂ | ⟨rfl, h₂⟩
          · exact Or.inl h₂
          · exact Or.inr ⟨rfl, ih h₁ h₂⟩

theorem lt_iff : lt s t = true ↔ le s t = true ∧ s ≠ t := by
  simp only [lt, Bool.not_eq_true', ne_eq]
  constructor
  · intro h
    refine ⟨(le_total s t).resolve_right (by simp [h]), ?_⟩
    rintro rfl
    simp [le_refl] at h
  · rintro ⟨h, hne⟩
    by_contra hts
    exact hne (le_antisymm h (by simpa using hts))

@[simp] theorem lt_irrefl (s : GoString) : lt s s = false := by
  simp [lt, le_refl]

theorem lt_trans (h₁ : lt s t = true) (h₂ : lt t u = true) : lt s u = true := by
  rw [lt_iff] at h₁ h₂ ⊢
  refine ⟨le_trans h₁.1 h₂.1, ?_⟩
  rintro rfl
  exact h₁.2 (le_antisymm h₁.1 h₂.1)

theorem lt_asymm (h : lt s t = true) : lt t s = false := by
  by_contra h'
  have := lt_trans h (by simpa using h')
  simp at this

theorem lt_or_eq_or_lt (s t : GoString) : lt s t = true ∨ s = t ∨ lt t s = true := by
  by_cases h : s = t
  · exact Or.inr (Or.inl h)
  · rcases le_total s t with h' | h'
    · exact Or.inl (lt_iff.mpr ⟨h', h⟩)
    · exact Or.inr (Or.inr (lt_iff.mpr ⟨h', Ne.symm h⟩))

/-- The order as a relation, for Mathlib's sorting lemmas. -/
def LE (s t : GoString) : Prop := le s t = true

instance : DecidableRel LE := fun s t => inferInstanceAs (Decidable (le s t = true))
instance : Std.Total LE := ⟨le_total⟩
instance : IsTrans GoString LE := ⟨fun _ _ _ h₁ h₂ => le_trans h₁ h₂⟩
/-- `sort.Strings`. -/
def sortStrings (l : List GoString) : List GoString := l.insertionSort LE

theorem perm_sortStrings (l : List GoString) : (sortStrings l).Perm l :=
  perm_insertionSort LE l

@[simp] theorem mem_sortStrings {l : List GoString} : s ∈ sortStrings l ↔ s ∈ l :=
  mem_insertionSort LE

/-! ### Joining and cutting -/

/-- `strings.Join(l, sep)`. -/
def join (sep : GoString) : List GoString → GoString
  | [] => []
  | [s] => s
  | s :: l => s ++ sep ++ join sep l

theorem join_ne_nil (sep : GoString) {l : List GoString} (hl : l ≠ []) (h : ∀ s ∈ l, s ≠ []) : join sep l ≠ [] := by
  match l, hl with
  | [s], _ => exact h s mem_cons_self
  | s :: t :: l, _ => simp [join, h s mem_cons_self]

/-- `strings.HasPrefix(s, p)`. -/
def hasPrefix (s p : GoString) : Bool := p.isPrefixOf s

/-- `strings.TrimPrefix(s, p)`. -/
def trimPrefix (s p : GoString) : GoString := if hasPrefix s p then s.drop p.length else s

theorem trimPrefix_append (p s : GoString) : trimPrefix (p ++ s) p = s := by
  rw [trimPrefix, hasPrefix, if_pos ( isPrefixOf_iff_prefix.mpr (prefix_append p s)), drop_left]

/-! ### Numbers -/

/-- The decimal digits of `n` in front of `acc`; `fuel` bounds their number. -/
def decimalAux : Nat → Nat → GoString → GoString
  | 0, _, acc => acc
  | fuel + 1, n, acc =>
    if n < 10 then UInt8.ofNat (0x30 + n) :: acc
    else decimalAux fuel (n / 10) (UInt8.ofNat (0x30 + n % 10) :: acc)

/-- `strconv.Itoa` on a natural number. -/
def decimal (n : Nat) : GoString := decimalAux (n + 1) n []

/-- `strconv.Itoa`. -/
def itoa : Int → GoString
  | .ofNat n => decimal n
  | .negSucc n => 0x2D :: decimal (n + 1)

/-- `fmt.Sprintf("%0*d", width, i)`: the sign counts towards the width. -/
def padded (width : Nat) : Int → GoString
  | .ofNat n => List.replicate (width - (decimal n).length) 0x30 ++ decimal n
  | .negSucc n =>
    0x2D :: (List.replicate (width - 1 - (decimal (n + 1)).length) 0x30 ++ decimal (n + 1))

/-! ### Hexadecimal -/

/-- The two lower-case hexadecimal digits of a byte. -/
def hexByte (b : UInt8) : GoString :=
  let digit (n : Nat) : UInt8 := UInt8.ofNat (if n < 10 then 0x30 + n else 0x57 + n)
  [digit (b.toNat / 16), digit (b.toNat % 16)]

/-- `hex.EncodeToString`. -/
def hexEncode (s : GoString) : GoString := s.flatMap hexByte

theorem length_hexEncode (s : GoString) : (hexEncode s).length = 2 * s.length := by
  induction s with
  | nil => rfl
  | cons b s ih =>
    rw [hexEncode, flatMap_cons, length_append, ← hexEncode, ih, length_cons]
    show 2 + 2 * s.length = _
    omega

theorem hexByte_inj {a b : UInt8} (h : hexByte a = hexByte b) : a = b := by
  have key : ∀ m < 16, ∀ n < 16, UInt8.ofNat (if m < 10 then 0x30 + m else 0x57 + m) =
      UInt8.ofNat (if n < 10 then 0x30 + n else 0x57 + n) → m = n := by decide
  simp only [hexByte, cons.injEq, and_true] at h
  have ha := a.toNat_lt
  have hb := b.toNat_lt
  have h₁ := key _ (by omega) _ (by omega) h.1
  have h₂ := key _ (by omega) _ (by omega) h.2
  exact UInt8.toNat_inj.mp (by omega)

theorem hexEncode_ascii {b : UInt8} (h : b ∈ hexEncode s) : b < 0x80 := by
  have key : ∀ n < 16, UInt8.ofNat (if n < 10 then 0x30 + n else 0x57 + n) < 0x80 := by decide
  obtain ⟨c, -, hc⟩ := mem_flatMap.mp h
  have := c.toNat_lt
  rw [hexByte, mem_cons, mem_singleton] at hc
  rcases hc with rfl | rfl
  · exact key _ (by omega)
  · exact key _ (by omega)

theorem hexEncode_inj (h : hexEncode s = hexEncode t) : s = t := by
  induction s generalizing t with
  | nil =>
    cases t with
    | nil => rfl
    | cons b t => cases h
  | cons a s ih =>
    cases t with
    | nil => cases h
    | cons b t =>
      obtain ⟨h₁, h₂⟩ := append_inj h rfl
      rw [hexByte_inj h₁, ih h₂]

/-- A text up to the first separator. -/
theorem cut_unique {c : UInt8} {v : GoString} (hs : c ∉ s) (ht : c ∉ t) (h : s ++ c :: u = t ++ c :: v) : s = t ∧ u = v := by
  induction s generalizing t with
  | nil =>
    cases t with
    | nil => exact ⟨rfl, (cons.inj h).2⟩
    | cons x t => exact absurd (mem_cons.mpr (.inl (cons.inj h).1)) ht
  | cons x s ih =>
    cases t with
    | nil => exact absurd (mem_cons.mpr (.inl (cons.inj h).1.symm)) hs
    | cons y t =>
      obtain ⟨rfl, htail⟩ := cons.inj h
      obtain ⟨rfl, rfl⟩ := ih (fun hc => hs (mem_cons_of_mem _ hc)) (fun hc => ht (mem_cons_of_mem _ hc)) htail
      exact ⟨rfl, rfl⟩

example : itoa (-120) = str "-120" ∧ padded 5 42 = str "00042" ∧ padded 5 (-42) = str "-0042" ∧
    hexEncode [0x0F, 0xA0] = str "0fa0" := by decide

end GoString

end AutoSql
