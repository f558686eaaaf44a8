/-
AutoSql/Lib/GoJson.lean

How Go values become JSON and back: the part of `encoding/json` between a
text and a struct.

* A struct field takes the value of every member whose key is the field's
  name up to case (`foldName`), one member after the other; for most types the
  last one wins, `null` leaves a string or a number as it was.
* A `json.RawMessage` keeps the text of a value, `decodeRaw` turns it into a
  tree of maps, in which the members of an object are unique and sorted.
* A `map` is written with its keys in increasing order.

`field` describes one field on its own.  Fields do not interact, and a struct
is rejected as soon as one of its fields is, so decoding a struct is decoding
its fields one by one.
-/
import AutoSql.Lib.Decimal
import AutoSql.Lib.GoMap
import AutoSql.Lib.Json

namespace AutoSql.GoJson

open Json Decimal

/-! ### Reading -/

/-- The name under which a rune is looked up: Latin letters in upper case, with
the long s and the Kelvin sign among them. -/
def foldRune : Rune → GoString
  | .ascii b => [if 0x61 ≤ b ∧ b ≤ 0x7A then b - 0x20 else b]
  | .multi bs => if bs = [0xC5, 0xBF] then [0x53] else if bs = [0xE2, 0x84, 0xAA] then [0x4B] else bs
  | .bad _ => Utf8.replacement

/-- `foldName`, on the keys that can name a struct field. -/
def foldName (s : GoString) : GoString := (Utf8.runes s).flatMap foldRune

variable {α : Type}

/-- The members that set the field `name`. -/
def fieldMembers (name : GoString) (ms : List (GoString × GoString)) : List (GoString × GoString) :=
  ms.filter fun m => foldName m.1 = foldName name

/-- The value of the field `name` after the members `ms`, from the value `init`;
`decode` reads one value over another. -/
def field (name : GoString) (decode : α → GoString → Option α) (init : α)
    (ms : List (GoString × GoString)) : Option α :=
  (fieldMembers name ms).foldlM (fun a m => decode a m.2) init

/-- Reading into a `string`. -/
def decodeString (old raw : GoString) : Option GoString :=
  match parse raw with
  | some .null => some old
  | some (.str s) => some s
  | _ => none

/-- `strconv.ParseInt(lit, 10, 64)` on a number literal. -/
def parseInt (lit : GoString) : Option Int :=
  match lit with
  | 0x2D :: s => (natOfDigits s).bind fun n => if n ≤ 2 ^ 63 then some (-(n : Int)) else none
  | s => (natOfDigits s).bind fun n => if n < 2 ^ 63 then some (n : Int) else none

/-- Reading into an `int`. -/
def decodeInt (old : Int) (raw : GoString) : Option Int :=
  match parse raw with
  | some .null => some old
  | some (.num lit) => parseInt lit
  | _ => none

/-- Reading into a `uint64`. -/
def decodeUint64 (old : UInt64) (raw : GoString) : Option UInt64 :=
  match parse raw with
  | some .null => some old
  | some (.num lit) => (parseUint lit).map UInt64.ofNat
  | _ => none

/-- Reading into a `bool`. -/
def decodeBool (old : Bool) (raw : GoString) : Option Bool :=
  match parse raw with
  | some .null => some old
  | some (.bool b) => some b
  | _ => none

/-- Reading into a `json.RawMessage`. -/
def decodeRawMessage (_ raw : GoString) : Option GoString := some raw

/-- The members of the object a text holds; `null` holds none. -/
def rawMembers (raw : GoString) : Option (List (GoString × GoString)) :=
  match parse raw with
  | some .null => some []
  | _ => rawObject raw

/-- The members of an object for a struct with the fields `names`, read with
`DisallowUnknownFields`. -/
def knownMembers (names : List GoString) (raw : GoString) : Option (List (GoString × GoString)) := do
  let ms ← rawMembers raw
  if ms.all fun m => names.any fun n => foldName m.1 = foldName n then some ms else none

/-- Reading into a `map[string]string`. -/
def decodeStringMap (old : GoMap GoString) (raw : GoString) : Option (GoMap GoString) :=
  match parse raw with
  | some .null => some .empty
  | _ => do
    let ms ← rawObject raw
    ms.foldlM (fun m p => (decodeString [] p.2).map (m.insert p.1)) old

/-- Reading into a slice; none is the nil slice. -/
def decodeSlice (decode : GoString → Option α) (_ : Option (List α)) (raw : GoString) : Option (Option (List α)) :=
  match parse raw with
  | some .null => some none
  | _ => do
    let l ← rawArray raw
    some <$> l.mapM decode

/-! ### Writing -/

mutual
/-- The tree with the members of its objects unique, the last value of a key
winning, and sorted. -/
def canon : Json → Json
  | .null => .null
  | .bool b => .bool b
  | .num lit => .num lit
  | .str s => .str s
  | .arr l => .arr (canonElems l)
  | .obj l => .obj (GoMap.ofList (canonMembers l)).entries

def canonElems : List Json → List Json
  | [] => []
  | v :: l => canon v :: canonElems l

def canonMembers : List (GoString × Json) → List (GoString × Json)
  | [] => []
  | p :: l => (p.1, canon p.2) :: canonMembers l
end

/-- A `json.Decoder` with `UseNumber` reading one value into an `any`; what
follows the value is ignored. -/
def decodeRaw (raw : GoString) : Option Json :=
  (parseValue maxNestingDepth (skipSpace raw)).map fun p => canon p.1

/-- A `map[string]string` as a value. -/
def stringMap (m : GoMap GoString) : Json := .obj (m.map Json.str).entries

/-- An `int` as a value. -/
def int (i : Int) : Json := .num (GoString.itoa i)

/-- A `uint64` as a value. -/
def uint64 (n : UInt64) : Json := .num (GoString.decimal n.toNat)

/-- A field that is left out when it is empty. -/
def omitEmpty (name : GoString) (value : GoString) : List (GoString × Json) :=
  if value = [] then [] else [(name, .str value)]

/-- An `int` field that is left out when it is zero. -/
def omitZero (name : GoString) (value : Int) : List (GoString × Json) :=
  if value = 0 then [] else [(name, int value)]

end AutoSql.GoJson
