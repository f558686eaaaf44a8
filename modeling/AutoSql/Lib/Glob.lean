/-
AutoSql/Lib/Glob.lean

Go's `path.Match`.  A pattern is a sequence of chunks, each possibly preceded
by stars; a chunk consists of single-character operators (`?`, a class
`[a-z]`, an escaped or a plain character).  A star is matched by trying the
chunk after it at every later position that does not skip a slash.

The functions follow the library's own: `scanChunk` cuts off a chunk,
`getEsc` and `matchClass` read a character class, `matchChunk` matches one
chunk, and goes on reading the pattern after the match has failed, because a
malformed pattern must be reported whether or not the name matches.
-/
import AutoSql.Lib.Utf8

namespace AutoSql.Glob

/-- `path.ErrBadPattern`. -/
inductive Error where
  | badPattern
  deriving DecidableEq

/-- The length of the chunk at the head of a pattern: up to the first star
outside a character class. -/
def chunkLen : Bool → GoString → Nat
  | _, [] => 0
  | inrange, 0x5C :: _ :: p => chunkLen inrange p + 2
  | _, 0x5B :: p => chunkLen true p + 1
  | _, 0x5D :: p => chunkLen false p + 1
  | inrange, 0x2A :: p => if inrange then chunkLen inrange p + 1 else 0
  | inrange, _ :: p => chunkLen inrange p + 1

/-- The next chunk of a pattern, and whether a star precedes it. -/
def scanChunk (pattern : GoString) : Bool × GoString × GoString :=
  let p := pattern.dropWhile (· == 0x2A)
  (pattern.head? == some 0x2A, p.take (chunkLen false p), p.drop (chunkLen false p))

/-- A possibly escaped character of a class. -/
def getEsc (chunk : GoString) : Except Error (Nat × GoString) := do
  let chunk ← match chunk with
    | [] | 0x2D :: _ | 0x5D :: _ => .error .badPattern
    | [0x5C] => .error .badPattern
    | 0x5C :: chunk => .ok chunk
    | chunk => .ok chunk
  let (r, n) := Utf8.decodeRune chunk
  if (r = 0xFFFD ∧ n = 1) ∨ chunk.drop n = [] then .error .badPattern
  else .ok (r, chunk.drop n)

/-- The ranges of a class after its opening bracket, tested against `r`. -/
def matchClass (r : Nat) : Nat → Bool → Nat → GoString → Except Error (Bool × GoString)
  | 0, _, _, _ => .error .badPattern
  | fuel + 1, found, nrange, chunk =>
    if chunk.head? = some 0x5D ∧ 0 < nrange then .ok (found, chunk.drop 1)
    else do
      let (lo, chunk) ← getEsc chunk
      let (hi, chunk) ← if chunk.head? = some 0x2D then getEsc (chunk.drop 1) else .ok (lo, chunk)
      matchClass r fuel (found || (lo ≤ r && r ≤ hi)) (nrange + 1) chunk

/-- Matches `chunk` against the beginning of `s`; the result is the rest of `s`
if it matches.  `s` is none once the match has failed. -/
def matchChunk : Nat → GoString → Option GoString → Except Error (Option GoString)
  | 0, _, _ => .error .badPattern
  | _ + 1, [], s => .ok s
  | fuel + 1, b :: chunk, s =>
    let s := if s = some [] then none else s
    if b = 0x5B then do
      let r := (s.map fun s => (Utf8.decodeRune s).1).getD 0
      let rest := s.map fun s => s.drop (Utf8.decodeRune s).2
      let negated := chunk.head? = some 0x5E
      let (found, chunk) ←
        matchClass r (chunk.length + 1) false 0 (if negated then chunk.drop 1 else chunk)
      matchChunk fuel chunk (if found = negated then none else rest)
    else if b = 0x3F then
      matchChunk fuel chunk
        (s.bind fun s =>
          if s.head? = some 0x2F then none else some (s.drop (Utf8.decodeRune s).2))
    else if b = 0x5C then
      match chunk with
      | [] => .error .badPattern
      | b :: chunk =>
        matchChunk fuel chunk (s.bind fun s => if s.head? = some b then some (s.drop 1) else none)
    else
      matchChunk fuel chunk (s.bind fun s => if s.head? = some b then some (s.drop 1) else none)

/-- `matchChunk` with enough fuel: every step consumes a byte of the chunk. -/
def matchesChunk (chunk s : GoString) : Except Error (Option GoString) :=
  matchChunk (chunk.length + 1) chunk (some s)

/-- Tries the chunk after a star at every later position. -/
def matchStar (chunk : GoString) (last : Bool) : GoString → Except Error (Option GoString)
  | [] => .ok none
  | b :: name =>
    if b = 0x2F then .ok none
    else do
      match ← matchesChunk chunk name with
      | some t => if last && t ≠ [] then matchStar chunk last name else .ok (some t)
      | none => matchStar chunk last name

/-- Checks that the remainder of a pattern is well formed. -/
def checkRest : Nat → GoString → Except Error Bool
  | 0, _ => .ok false
  | fuel + 1, pattern =>
    if pattern = [] then .ok false
    else do
      let (_, chunk, pattern) := scanChunk pattern
      let _ ← matchesChunk chunk []
      checkRest fuel pattern

/-- The main loop of `path.Match`, one chunk of the pattern at a time. -/
def matchLoop : Nat → GoString → GoString → Except Error Bool
  | 0, _, _ => .ok false
  | fuel + 1, pattern, name =>
    if pattern = [] then .ok (name = [])
    else do
      let (star, chunk, pattern) := scanChunk pattern
      if star && chunk = [] then return !name.contains 0x2F
      match ← matchesChunk chunk name with
      | some t =>
        if t = [] ∨ pattern ≠ [] then return ← matchLoop fuel pattern t
      | none => pure ()
      if star then
        match ← matchStar chunk (pattern = []) name with
        | some t => return ← matchLoop fuel pattern t
        | none => pure ()
      checkRest (pattern.length + 1) pattern

/-- `path.Match(pattern, name)`. -/
def pathMatch (pattern name : GoString) : Except Error Bool :=
  matchLoop (pattern.length + 1) pattern name

example : pathMatch (str "table:app.*") (str "table:app.users") = .ok true ∧
    pathMatch (str "a*b*c") (str "axxbyyc") = .ok true ∧ pathMatch (str "[a-c]?") (str "bz") = .ok true ∧
    pathMatch (str "*") (str "a/b") = .ok false ∧ pathMatch (str "[a") (str "") = .error .badPattern := by
  decide +kernel

end AutoSql.Glob
