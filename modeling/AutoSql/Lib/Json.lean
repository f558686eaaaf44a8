/-
AutoSql/Lib/Json.lean

JSON text as Go's `encoding/json` writes and reads it.

`Json` is a syntax tree.  Numbers keep their literal (`json.Number`) and
objects keep the order of their members, so that the tree of a text says
everything about it except white space and the spelling of strings.

* `encode` is `json.Marshal`: no white space, strings quoted with the escapes
  of `encoding/json` (`<`, `>`, `&` and the two Unicode line separators are
  escaped, a byte that is not part of valid UTF-8 becomes `\ufffd`).
* `parseValue d` reads one value from the front of a text and returns the
  rest, for values nested at most `d` deep; `parse` is the check that the
  whole text is one value.
* `rawObject` and `rawArray` read one level of a text and leave the members
  as text.  This is how `UnmarshalJSON` methods see a document.

The parser is structured so that no recursion goes through the result of
another parser: `elems` and `members` are loops over a value parser that is
passed to them, and `parseValue` recurses on the depth only.
-/
import AutoSql.Lib.Utf8

namespace AutoSql

/-- A JSON value. -/
inductive Json where
  | null
  | bool (b : Bool)
  | num (lit : GoString)
  | str (s : GoString)
  | arr (l : List Json)
  | obj (l : List (GoString × Json))

namespace Json

/-! ### Writing -/

/-- A hexadecimal digit. -/
def hexDigit (n : Nat) : UInt8 := UInt8.ofNat (if n < 10 then 0x30 + n else 0x57 + n)

/-- `\u00XX`. -/
def unicodeEscape (b : UInt8) : GoString :=
  [0x5C, 0x75, 0x30, 0x30, hexDigit (b.toNat / 16), hexDigit (b.toNat % 16)]

/-- How `encoding/json` writes a byte below `0x80` inside a string. -/
def escapeByte (b : UInt8) : GoString :=
  if b = 0x22 ∨ b = 0x5C then [0x5C, b]
  else if b = 0x08 then [0x5C, 0x62]
  else if b = 0x0C then [0x5C, 0x66]
  else if b = 0x0A then [0x5C, 0x6E]
  else if b = 0x0D then [0x5C, 0x72]
  else if b = 0x09 then [0x5C, 0x74]
  else if b < 0x20 ∨ b = 0x3C ∨ b = 0x3E ∨ b = 0x26 then unicodeEscape b
  else [b]

/-- How `encoding/json` writes a rune inside a string. -/
def escapeRune : Rune → GoString
  | .ascii b => escapeByte b
  | .multi bs =>
    if bs = [0xE2, 0x80, 0xA8] then [0x5C, 0x75, 0x32, 0x30, 0x32, 0x38]
    else if bs = [0xE2, 0x80, 0xA9] then [0x5C, 0x75, 0x32, 0x30, 0x32, 0x39]
    else bs
  | .bad _ => [0x5C, 0x75, 0x66, 0x66, 0x66, 0x64]

variable (s : GoString)

/-- A quoted string. -/
def quote : GoString := 0x22 :: (Utf8.runes s).flatMap escapeRune ++ [0x22]

/-- Texts separated by commas. -/
def commaSep : List GoString → GoString
  | [] => []
  | [t] => t
  | t :: ts => t ++ 0x2C :: commaSep ts

mutual
/-- `json.Marshal`. -/
def encode : Json → GoString
  | .null => AutoSql.str "null"
  | .bool true => AutoSql.str "true"
  | .bool false => AutoSql.str "false"
  | .num lit => lit
  | .str s => quote s
  | .arr l => 0x5B :: commaSep (encodeElems l) ++ [0x5D]
  | .obj l => 0x7B :: commaSep (encodeMembers l) ++ [0x7D]

/-- The texts of the elements of an array. -/
def encodeElems : List Json → List GoString
  | [] => []
  | v :: l => encode v :: encodeElems l

/-- The texts of the members of an object. -/
def encodeMembers : List (GoString × Json) → List GoString
  | [] => []
  | p :: l => (quote p.1 ++ 0x3A :: encode p.2) :: encodeMembers l
end

/-! ### White space and literals -/

def isSpace (b : UInt8) : Bool := b == 0x20 || b == 0x09 || b == 0x0A || b == 0x0D

def skipSpace : GoString := s.dropWhile isSpace

/-- The rest of `s` after the literal `t`. -/
def literal (t s : GoString) : Option GoString := if t <+: s then some (s.drop t.length) else none

/-! ### Numbers -/

/-- One or more digits. -/
def digits : Option (GoString × GoString) :=
  if s.takeWhile isDigit = [] then none else some (s.takeWhile isDigit, s.dropWhile isDigit)

/-- An optional minus sign. -/
def signPart : GoString → GoString × GoString
  | 0x2D :: s => ([0x2D], s)
  | s => ([], s)

/-- Zero, or digits that do not start with zero. -/
def intPart : GoString → Option (GoString × GoString)
  | 0x30 :: s => some ([0x30], s)
  | s => digits s

/-- An optional fraction. -/
def fracPart : GoString → Option (GoString × GoString)
  | 0x2E :: s => (digits s).map fun p => (0x2E :: p.1, p.2)
  | s => some ([], s)

/-- The sign and the digits of an exponent. -/
def expDigits : GoString → Option (GoString × GoString)
  | [] => none
  | b :: s =>
    if b = 0x2B ∨ b = 0x2D then (digits s).map fun p => (b :: p.1, p.2) else digits (b :: s)

/-- An optional exponent. -/
def expPart : GoString → Option (GoString × GoString)
  | [] => some ([], [])
  | b :: s =>
    if b = 0x65 ∨ b = 0x45 then (expDigits s).map fun p => (b :: p.1, p.2) else some ([], b :: s)

/-- The number literal at the front of a text. -/
def number : Option (GoString × GoString) := do
  let (sign, s) := signPart s
  let (int, s) ← intPart s
  let (frac, s) ← fracPart s
  let (exp, s) ← expPart s
  some (sign ++ int ++ frac ++ exp, s)

/-! ### Strings -/

def hexValue (b : UInt8) : Option Nat :=
  if 0x30 ≤ b ∧ b ≤ 0x39 then some (b.toNat - 0x30)
  else if 0x61 ≤ b ∧ b ≤ 0x66 then some (b.toNat - 0x57)
  else if 0x41 ≤ b ∧ b ≤ 0x46 then some (b.toNat - 0x37)
  else none

/-- Four hexadecimal digits. -/
def hex4 : GoString → Option (Nat × GoString)
  | a :: b :: c :: d :: s => do
    let a ← hexValue a
    let b ← hexValue b
    let c ← hexValue c
    let d ← hexValue d
    some (((a * 16 + b) * 16 + c) * 16 + d, s)
  | _ => none

/-- `\uXXXX`. -/
def getu4 : GoString → Option (Nat × GoString)
  | 0x5C :: 0x75 :: s => hex4 s
  | _ => none

/-- `utf8.AppendRune`. -/
def appendRune (r : Nat) : GoString :=
  if r < 0x80 then [UInt8.ofNat r]
  else if r < 0x800 then [UInt8.ofNat (0xC0 + r / 64), UInt8.ofNat (0x80 + r % 64)]
  else if (0xD800 ≤ r ∧ r ≤ 0xDFFF) ∨ 0x110000 ≤ r then Utf8.replacement
  else if r < 0x10000 then
    [UInt8.ofNat (0xE0 + r / 4096), UInt8.ofNat (0x80 + r / 64 % 64), UInt8.ofNat (0x80 + r % 64)]
  else
    [UInt8.ofNat (0xF0 + r / 262144), UInt8.ofNat (0x80 + r / 4096 % 64),
      UInt8.ofNat (0x80 + r / 64 % 64), UInt8.ofNat (0x80 + r % 64)]

/-- What `\u` followed by the code unit `r` stands for; a surrogate pair takes
the next escape with it, a lone surrogate is the replacement character. -/
def unicodeUnit (r : Nat) (s : GoString) : GoString × GoString :=
  if 0xD800 ≤ r ∧ r ≤ 0xDFFF then
    match getu4 s with
    | some (r', s') =>
      if r ≤ 0xDBFF ∧ 0xDC00 ≤ r' ∧ r' ≤ 0xDFFF then
        (appendRune (0x10000 + (r - 0xD800) * 0x400 + (r' - 0xDC00)), s')
      else (Utf8.replacement, s)
    | none => (Utf8.replacement, s)
  else (appendRune r, s)

/-- The text an escape stands for; the backslash has been read. -/
def unescape : GoString → Option (GoString × GoString)
  | [] => none
  | b :: s =>
    if b = 0x22 ∨ b = 0x5C ∨ b = 0x2F then some ([b], s)
    else if b = 0x62 then some ([0x08], s)
    else if b = 0x66 then some ([0x0C], s)
    else if b = 0x6E then some ([0x0A], s)
    else if b = 0x72 then some ([0x0D], s)
    else if b = 0x74 then some ([0x09], s)
    else if b = 0x75 then (hex4 s).map fun p => unicodeUnit p.1 p.2
    else none

/-- The text of one character of a string other than the closing quote. -/
def stringChar : GoString → Option (GoString × GoString)
  | [] => none
  | a :: s =>
    if a = 0x5C then unescape s
    else if a < 0x20 then none
    else if a < 0x80 then some ([a], s)
    else if Utf8.runeLen (a :: s) = 0 then some (Utf8.replacement, s)
    else some ((a :: s).take (Utf8.runeLen (a :: s)), (a :: s).drop (Utf8.runeLen (a :: s)))

/-- The rest of a string after its opening quote. -/
def stringBody : Nat → GoString → Option (GoString × GoString)
  | 0, _ => none
  | _ + 1, 0x22 :: s => some ([], s)
  | n + 1, s => do
    let (t, s) ← stringChar s
    let (u, s) ← stringBody n s
    some (t ++ u, s)

/-- A quoted string. -/
def string : GoString → Option (GoString × GoString)
  | 0x22 :: s => stringBody (s.length + 1) s
  | _ => none

/-! ### Arrays and objects -/

section Loops

variable {α : Type} (value : GoString → Option (α × GoString))

/-- The elements of a nonempty array and the closing bracket. -/
def elems : Nat → GoString → Option (List α × GoString)
  | 0, _ => none
  | n + 1, s => do
    let (v, s) ← value (skipSpace s)
    match skipSpace s with
    | 0x2C :: s =>
      let (vs, s) ← elems n s
      some (v :: vs, s)
    | 0x5D :: s => some ([v], s)
    | _ => none

/-- An array after its opening bracket. -/
def array (s : GoString) : Option (List α × GoString) :=
  match skipSpace s with
  | 0x5D :: s => some ([], s)
  | s => elems value s.length s

/-- A member of an object. -/
def member (s : GoString) : Option ((GoString × α) × GoString) := do
  let (k, s) ← string (skipSpace s)
  match skipSpace s with
  | 0x3A :: s =>
    let (v, s) ← value (skipSpace s)
    some ((k, v), s)
  | _ => none

/-- The members of a nonempty object and the closing brace. -/
def members : Nat → GoString → Option (List (GoString × α) × GoString)
  | 0, _ => none
  | n + 1, s => do
    let (m, s) ← member value s
    match skipSpace s with
    | 0x2C :: s =>
      let (ms, s) ← members n s
      some (m :: ms, s)
    | 0x7D :: s => some ([m], s)
    | _ => none

/-- An object after its opening brace. -/
def object (s : GoString) : Option (List (GoString × α) × GoString) :=
  match skipSpace s with
  | 0x7D :: s => some ([], s)
  | s => members value s.length s

end Loops

/-- One value, nested at most `d` deep, from the front of a text without
leading white space. -/
def parseValue : Nat → GoString → Option (Json × GoString)
  | d, s =>
    match s with
    | [] => none
    | 0x6E :: _ => (literal (AutoSql.str "null") s).map fun s => (.null, s)
    | 0x74 :: _ => (literal (AutoSql.str "true") s).map fun s => (.bool true, s)
    | 0x66 :: _ => (literal (AutoSql.str "false") s).map fun s => (.bool false, s)
    | 0x22 :: _ => (string s).map fun p => (.str p.1, p.2)
    | 0x5B :: s =>
      match d with
      | 0 => none
      | d + 1 => (array (parseValue d) s).map fun p => (.arr p.1, p.2)
    | 0x7B :: s =>
      match d with
      | 0 => none
      | d + 1 => (object (parseValue d) s).map fun p => (.obj p.1, p.2)
    | _ => (number s).map fun p => (.num p.1, p.2)

/-- The nesting that Go's scanner accepts. -/
def maxNestingDepth : Nat := 10000

/-- Reads a text that must be one value with nothing but white space after it. -/
def whole {α : Type} (p : Option (α × GoString)) : Option α :=
  match p with
  | some (v, s) => if skipSpace s = [] then some v else none
  | none => none

/-- The value of a text. -/
def parse : Option Json := whole (parseValue maxNestingDepth (skipSpace s))

/-- The text of the value at the front of a text. -/
def rawValue (d : Nat) (s : GoString) : Option (GoString × GoString) :=
  (parseValue d s).map fun p => (s.take (s.length - p.2.length), p.2)

/-- The members of an object, with the values as text; none if the text is not
an object. -/
def rawObject : Option (List (GoString × GoString)) :=
  match skipSpace s with
  | 0x7B :: s => whole (object (rawValue (maxNestingDepth - 1)) s)
  | _ => none

/-- The elements of an array, as text; none if the text is not an array. -/
def rawArray : Option (List GoString) :=
  match skipSpace s with
  | 0x5B :: s => whole (array (rawValue (maxNestingDepth - 1)) s)
  | _ => none

example : (parse (AutoSql.str " [1, -2.5e3 ,\"a\\u0041\\ud83d\\ude00\\n\", \x7b\"k\": null\x7d] ")).map encode =
    some (AutoSql.str "[1,-2.5e3,\"aA😀\\n\",\x7b\"k\":null\x7d]") := by decide +kernel

end Json

end AutoSql
