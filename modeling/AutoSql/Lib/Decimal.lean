/-
AutoSql/Lib/Decimal.lean

Decimal numerals: reading digits (`natOfDigits`, `parseUint`) and writing
numbers (`GoString.decimal`).

A numeral is canonical if it has no superfluous zero in front.  Writing a number
gives a canonical numeral (`canonical_decimal`) that reads as the number
(`natOfDigits_decimal`), and writing what a canonical numeral reads as gives the
numeral back (`decimal_digitsValue`), so canonical numerals with the same value
are equal.
-/
import AutoSql.Lib.GoString

namespace AutoSql.Decimal

open GoString List

/-- The value of a string of digits. -/
def digitsValue (s : GoString) : Nat := s.foldl (fun n b => n * 10 + (b.toNat - 0x30)) 0

/-- The value of a nonempty string of digits. -/
def natOfDigits (s : GoString) : Option Nat :=
  if s ≠ [] ∧ s.all isDigit then some (digitsValue s) else none

/-- `strconv.ParseUint(s, 10, 64)`. -/
def parseUint (s : GoString) : Option Nat :=
  (natOfDigits s).bind fun n => if n < 2 ^ 64 then some n else none

/-- A numeral without superfluous zeros. -/
def canonical (s : GoString) : Bool :=
  s ≠ [] && s.all isDigit && (s == [0x30] || s.head? != some 0x30)

/-! ### Digits -/

theorem isDigit_iff {b : UInt8} : isDigit b = true ↔ 0x30 ≤ b.toNat ∧ b.toNat ≤ 0x39 := by
  rw [isDigit, Bool.and_eq_true, decide_eq_true_eq, decide_eq_true_eq]
  rfl

/-- The digit of `n`. -/
def digit (n : Nat) : UInt8 := UInt8.ofNat (0x30 + n)

variable {n : Nat} {s : GoString}

theorem toNat_digit (h : n < 10) : (digit n).toNat = 0x30 + n := by
  rw [digit, UInt8.toNat_ofNat']
  omega

theorem isDigit_digit (h : n < 10) : isDigit (digit n) = true := by
  rw [isDigit_iff, toNat_digit h]
  omega

theorem digit_toNat {b : UInt8} (h : isDigit b = true) : digit (b.toNat - 0x30) = b := by
  have := isDigit_iff.mp h
  rw [digit, show 0x30 + (b.toNat - 0x30) = b.toNat by omega, UInt8.ofNat_toNat]

theorem digitsValue_append (s : GoString) (b : UInt8) :
    digitsValue (s ++ [b]) = digitsValue s * 10 + (b.toNat - 0x30) := by
  rw [digitsValue, foldl_append]
  rfl

/-! ### Writing numbers -/

theorem decimalAux_append (fuel n : Nat) (acc : GoString) : decimalAux fuel n acc = decimalAux fuel n [] ++ acc := by
  induction fuel generalizing n acc with
  | zero => rfl
  | succ fuel ih =>
    rw [decimalAux, decimalAux]
    split_ifs
    · rfl
    · rw [ih _ (_ :: acc), ih _ [_], append_assoc]
      rfl

theorem decimalAux_fuel {fuel : Nat} (h : n < fuel) : decimalAux fuel n [] = decimal n := by
  induction fuel using Nat.strongRecOn generalizing n with
  | ind fuel ih =>
    obtain ⟨fuel, rfl⟩ : ∃ k, fuel = k + 1 := ⟨fuel - 1, by omega⟩
    rw [decimal, decimalAux, decimalAux]
    split_ifs with hn
    · rfl
    · rw [decimalAux_append, decimalAux_append n, ih fuel (by omega) (by omega)]
      by_cases hf : n = fuel
      · rw [hf, ih fuel (by omega) (by omega)]
      · rw [ih n (by omega) (by omega)]

theorem decimal_of_lt (h : n < 10) : decimal n = [digit n] := by
  rw [decimal, decimalAux, if_pos h]
  rfl

theorem decimal_of_ge (h : 10 ≤ n) : decimal n = decimal (n / 10) ++ [digit (n % 10)] := by
  rw [decimal, decimalAux, if_neg (by omega), decimalAux_append, decimalAux_fuel (by omega)]
  rfl

theorem decimal_ne_nil (n : Nat) : decimal n ≠ [] := by
  rcases Nat.lt_or_ge n 10 with h | h
  · simp [decimal_of_lt h]
  · simp [decimal_of_ge h]

theorem all_isDigit_decimal (n : Nat) : (decimal n).all isDigit = true := by
  induction n using Nat.strongRecOn with
  | ind n ih =>
    rcases Nat.lt_or_ge n 10 with h | h
    · simp [decimal_of_lt h, isDigit_digit h]
    · rw [decimal_of_ge h, all_append, ih (n / 10) (by omega)]
      simp [isDigit_digit (n := n % 10) (by omega)]

theorem digitsValue_decimal (n : Nat) : digitsValue (decimal n) = n := by
  induction n using Nat.strongRecOn with
  | ind n ih =>
    rcases Nat.lt_or_ge n 10 with h | h
    · rw [decimal_of_lt h, ← nil_append [digit n], digitsValue_append, toNat_digit h]
      show 0 * 10 + _ = n
      omega
    · rw [decimal_of_ge h, digitsValue_append, ih (n / 10) (by omega), toNat_digit (by omega)]
      omega

theorem natOfDigits_decimal (n : Nat) : natOfDigits (decimal n) = some n := by
  rw [natOfDigits, if_pos ⟨decimal_ne_nil n, all_isDigit_decimal n⟩, digitsValue_decimal]

/-! ### Canonical numerals -/

theorem canonical_iff : canonical s = true ↔ s ≠ [] ∧ s.all isDigit = true ∧ (s.head? = some 0x30 → s = [0x30]) := by
  rw [canonical, Bool.and_eq_true, Bool.and_eq_true, decide_eq_true_eq, Bool.or_eq_true, beq_iff_eq, bne_iff_ne]
  tauto

theorem head?_decimal (n : Nat) (h : (decimal n).head? = some 0x30) : n = 0 := by
  induction n using Nat.strongRecOn with
  | ind n ih =>
    rcases Nat.lt_or_ge n 10 with hn | hn
    · rw [decimal_of_lt hn, head?_cons, Option.some.injEq] at h
      have := congrArg UInt8.toNat h
      rw [toNat_digit hn] at this
      exact Nat.add_left_cancel this
    · rw [decimal_of_ge hn, head?_append_of_ne_nil _ (decimal_ne_nil _)] at h
      have := ih (n / 10) (by omega) h
      omega

theorem canonical_decimal (n : Nat) : canonical (decimal n) = true := by
  refine canonical_iff.mpr ⟨decimal_ne_nil n, all_isDigit_decimal n, fun h => ?_⟩
  rw [head?_decimal n h]
  rfl

/-- Writing the value of a canonical numeral gives the numeral back.  The
induction takes digits off the end, as `decimal` does. -/
theorem decimal_digitsValue (h : canonical s = true) : decimal (digitsValue s) = s := by
  induction s using List.reverseRecOn with
  | nil => cases h
  | append_singleton s b ih =>
    obtain ⟨-, hd, hz⟩ := canonical_iff.mp h
    rw [all_append, Bool.and_eq_true] at hd
    have hb : isDigit b = true := by simpa using hd.2
    have hb' := isDigit_iff.mp hb
    rw [digitsValue_append]
    by_cases hs : s = []
    · subst hs
      show decimal (0 * 10 + (b.toNat - 48)) = _
      rw [Nat.zero_add, decimal_of_lt (by omega), digit_toNat hb]
      rfl
    · have hz' : s.head? ≠ some 0x30 := by
        intro h0
        have := hz (by rw [head?_append_of_ne_nil _ hs]; exact h0)
        exact hs (append_eq_singleton_iff.mp this |>.elim (·.1) (fun h => by simp at h))
      have hc : canonical s = true := canonical_iff.mpr ⟨hs, hd.1, fun h0 => absurd h0 hz'⟩
      have hpos : digitsValue s ≠ 0 := by
        intro h0
        have := ih hc
        rw [h0] at this
        exact hz' (by rw [← this]; rfl)
      have hdiv : (digitsValue s * 10 + (b.toNat - 0x30)) / 10 = digitsValue s := by omega
      have hmod : (digitsValue s * 10 + (b.toNat - 0x30)) % 10 = b.toNat - 0x30 := by omega
      rw [decimal_of_ge (by omega), hdiv, hmod, ih hc, digit_toNat hb]

theorem parseUint_eq_some (h : parseUint s = some n) : s.all isDigit = true ∧ digitsValue s = n ∧ n < 2 ^ 64 := by
  rw [parseUint, natOfDigits] at h
  split_ifs at h with hs
  · rw [Option.bind_some] at h
    split_ifs at h with hn
    cases h
    exact ⟨hs.2, rfl, hn⟩
  · cases h

end AutoSql.Decimal
