/-
AutoSql/Lib/Text.lean

Cutting and trimming text, under the names of Go's `strings` and `unicode`
packages.  `strings.Split` at one byte is `List.splitOn`.

White space is a matter of runes: `trimSpace` drops every rune with Unicode's
White_Space property at both ends, among them some of two and three bytes.
-/
import AutoSql.Lib.Utf8

namespace AutoSql.Text

/-- `unicode.IsSpace` of the runes below 0x80. -/
def isAsciiSpace (b : UInt8) : Bool := (0x09 ≤ b && b ≤ 0x0D) || b == 0x20

/-- `unicode.IsSpace(rune(b))`: the byte stands for a Latin-1 character. -/
def isLatinSpace (b : UInt8) : Bool := isAsciiSpace b || b == 0x85 || b == 0xA0

/-- `unicode.IsSpace`. -/
def isSpace : Rune → Bool
  | .ascii b => isAsciiSpace b
  | .multi [0xC2, c] => c == 0x85 || c == 0xA0
  | .multi [0xE1, 0x9A, c] => c == 0x80
  | .multi [0xE2, 0x80, c] => (0x80 ≤ c && c ≤ 0x8A) || c == 0xA8 || c == 0xA9 || c == 0xAF
  | .multi [0xE2, 0x81, c] => c == 0x9F
  | .multi [0xE3, 0x80, c] => c == 0x80
  | _ => false

variable (s : GoString)

/-- `strings.TrimSpace`. -/
def trimSpace : GoString :=
  (((Utf8.runes s).dropWhile isSpace).rdropWhile isSpace).flatMap Utf8.bytes

/-- `strings.TrimSuffix(s, p)`. -/
def trimSuffix (p : GoString) : GoString :=
  if p.isSuffixOf s then s.take (s.length - p.length) else s

/-- `strings.Cut(s, sep)` at one byte; `none` if it does not occur. -/
def cut (sep : UInt8) (s : GoString) : Option (GoString × GoString) :=
  match s.dropWhile (· != sep) with
  | [] => none
  | _ :: t => some (s.takeWhile (· != sep), t)

/-- `strings.ReplaceAll(s, a, b)` of one byte by another. -/
def replaceByte (a b : UInt8) (s : GoString) : GoString := s.map fun c => if c = a then b else c

/-- `unicode.ToLower` as far as its result is a letter of ASCII: the Kelvin sign
and the capital I with dot have one as well.  Other runes stay as they are. -/
def lowerRune : Rune → GoString
  | .ascii b => [if 0x41 ≤ b ∧ b ≤ 0x5A then b + 0x20 else b]
  | .multi bs => if bs = [0xE2, 0x84, 0xAA] then [0x6B] else if bs = [0xC4, 0xB0] then [0x69] else bs
  | .bad b => [b]

/-- `strings.ToLower`, see `lowerRune`. -/
def toLower : GoString := (Utf8.runes s).flatMap lowerRune

/-- `unicode.ToUpper` as far as its result is a letter of ASCII: the dotless i and the
long s have one as well.  Other runes stay as they are. -/
def upperRune : Rune → GoString
  | .ascii b => [if 0x61 ≤ b ∧ b ≤ 0x7A then b - 0x20 else b]
  | .multi bs => if bs = [0xC4, 0xB1] then [0x49] else if bs = [0xC5, 0xBF] then [0x53] else bs
  | .bad b => [b]

/-- `strings.ToUpper`, see `upperRune`. -/
def toUpper : GoString := (Utf8.runes s).flatMap upperRune

/-- `strings.Contains(s, t)`. -/
def contains (t : GoString) : Bool := t <:+: s

/-- A rune of each class of `unicode.SimpleFold` that has one in ASCII: besides the
two cases of a letter the long s and the Kelvin sign.  A bad byte reads as U+FFFD. -/
def foldRune : Rune → Rune
  | .ascii b => .ascii (if 0x41 ≤ b ∧ b ≤ 0x5A then b + 0x20 else b)
  | .multi bs =>
    if bs = [0xC5, 0xBF] then .ascii 0x73 else if bs = [0xE2, 0x84, 0xAA] then .ascii 0x6B else .multi bs
  | .bad _ => .multi Utf8.replacement

/-- `strings.EqualFold`, for texts of which one is ASCII. -/
def equalFold (t : GoString) : Bool := (Utf8.runes s).map foldRune = (Utf8.runes t).map foldRune

example : trimSpace (str "\t  a b  \n") = str "a b" ∧ toLower (str "V1__Init.SQL") = str "v1__init.sql" ∧
    cut 0x3D (str "a=b=c") = some (str "a", str "b=c") := by decide

end AutoSql.Text
