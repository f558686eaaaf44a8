/-
AutoSql/Lib/Base64.lean

Base64 with the standard alphabet, as `encoding/json` writes a `[]byte`.
-/
import AutoSql.Lib.GoString

namespace AutoSql.Base64

def digit (n : Nat) : UInt8 :=
  UInt8.ofNat (if n < 26 then 0x41 + n else if n < 52 then 0x47 + n else if n < 62 then n - 4 else if n = 62 then 0x2B else 0x2F)

/-- `base64.StdEncoding.EncodeToString`: four digits for three bytes, padded at the end. -/
def encode : GoString → GoString
  | a :: b :: c :: s =>
    digit (a.toNat / 4) :: digit (a.toNat % 4 * 16 + b.toNat / 16) :: digit (b.toNat % 16 * 4 + c.toNat / 64) ::
      digit (c.toNat % 64) :: encode s
  | [a, b] => [digit (a.toNat / 4), digit (a.toNat % 4 * 16 + b.toNat / 16), digit (b.toNat % 16 * 4), 0x3D]
  | [a] => [digit (a.toNat / 4), digit (a.toNat % 4 * 16), 0x3D, 0x3D]
  | [] => []

example : encode (str "light work.") = str "bGlnaHQgd29yay4=" ∧ encode (str "light wor") = str "bGlnaHQgd29y" ∧
    encode [0xFB, 0xFF] = str "+/8=" := by decide

end AutoSql.Base64
