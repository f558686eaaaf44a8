/-
AutoSql/Lib/GoFloat.lean

Number literals as `float64`.  A literal denotes the rational number
`± mant * 10 ^ exp`; `strconv.ParseFloat` rounds it to the nearest double,
ties to even, and fails when that would be infinite.  The two questions the
models ask are whether it fails (`overflows`) and what the integer part of the
rounded number is (`truncated`).
-/
import AutoSql.Lib.Json

namespace AutoSql.GoFloat

open Json

/-- A decimal number: `± mant * 10 ^ exp`. -/
structure Decimal where
  neg : Bool
  mant : Nat
  exp : Int

def digitsValue (s : GoString) : Nat := s.foldl (fun n b => n * 10 + (b.toNat - 0x30)) 0

def exponent : GoString → Int
  | 0x2D :: s => -(digitsValue s : Int)
  | 0x2B :: s => digitsValue s
  | s => digitsValue s

/-- The number a literal denotes. -/
def ofLiteral (lit : GoString) : Decimal :=
  let (sign, s) := signPart lit
  let int := s.takeWhile isDigit
  let rest := s.dropWhile isDigit
  let frac := if rest.head? = some 0x2E then (rest.drop 1).takeWhile isDigit else []
  let rest := if rest.head? = some 0x2E then (rest.drop 1).dropWhile isDigit else rest
  ⟨sign ≠ [], digitsValue (int ++ frac), exponent (rest.drop 1) - frac.length⟩

/-- The position of the first digit: `mant * 10 ^ exp < 10 ^ magnitude`. -/
def Decimal.magnitude (x : Decimal) : Int := (GoString.decimal x.mant).length + x.exp

/-- The absolute value as a fraction. -/
def Decimal.fraction (x : Decimal) : Nat × Nat := (x.mant * 10 ^ x.exp.toNat, 10 ^ (-x.exp).toNat)

/-- Rounding to the nearest double gives infinity. -/
def overflows (lit : GoString) : Bool :=
  let x := ofLiteral lit
  if x.mant = 0 ∨ x.magnitude < 300 then false
  else if 310 < x.magnitude then true
  else (2 ^ 1024 - 2 ^ 970) * x.fraction.2 ≤ x.fraction.1

/-- `p / q` to the nearest integer, ties to even. -/
def roundHalfEven (p q : Nat) : Nat :=
  let n := p / q
  if 2 * (p % q) < q ∨ (2 * (p % q) = q ∧ n % 2 = 0) then n else n + 1

/-- The integer part of the double nearest to the literal's absolute value: a
double below `2 ^ (k + 1)` is a multiple of `2 ^ (k - 52)`. -/
def truncatedAbs (x : Decimal) : Nat :=
  if x.mant = 0 ∨ x.magnitude < 0 then 0
  else
    let (p, q) := x.fraction
    let k := Nat.log2 (p / q)
    if 52 ≤ k then roundHalfEven p (q * 2 ^ (k - 52)) * 2 ^ (k - 52)
    else roundHalfEven (p * 2 ^ (52 - k)) q / 2 ^ (52 - k)

/-- `int(f)` for the double `f` nearest to a literal that does not overflow;
what does not fit gives the smallest integer, as on amd64. -/
def truncated (lit : GoString) : Int :=
  let x := ofLiteral lit
  let n := truncatedAbs x
  if x.neg then (if n ≤ 2 ^ 63 then -(n : Int) else -2 ^ 63)
  else if n < 2 ^ 63 then n else -2 ^ 63

example : truncated (str "3") = 3 ∧ truncated (str "-2.5e1") = -25 ∧
    truncated (str "0.99999999999999999999") = 1 ∧ truncated (str "9007199254740993") = 9007199254740992 ∧
    overflows (str "1.8e308") = true ∧ overflows (str "1.7e308") = false := by decide +kernel

mutual
/-- No number of the tree overflows, so that it can be read into an `any`. -/
def inRange : Json → Bool
  | .num lit => !overflows lit
  | .arr l => inRangeElems l
  | .obj l => inRangeMembers l
  | _ => true

def inRangeElems : List Json → Bool
  | [] => true
  | v :: l => inRange v && inRangeElems l

def inRangeMembers : List (GoString × Json) → Bool
  | [] => true
  | p :: l => inRange p.2 && inRangeMembers l
end

/-- `json.Unmarshal` into an `any`. -/
def unmarshalAny (raw : GoString) : Option Json := (parse raw).filter inRange

end AutoSql.GoFloat
