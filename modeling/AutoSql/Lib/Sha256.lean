/-
AutoSql/Lib/Sha256.lean

SHA-256 as an executable function on byte strings, after FIPS 180-4: the
message is padded to blocks of sixteen words, each block is expanded to a
schedule of sixty-four words, and the eight-word state runs through sixty-four
rounds.  Words are natural numbers below `2 ^ 32`, so that closed digests can
be evaluated by the kernel.

Nothing is proved about the strength of the function.  That it is injective is
false (there are more messages than digests); what the development assumes
where it has to is that no two of the finitely many messages hashed in one
call collide, `CollisionFree S` for the set `S` of those messages.
-/
import AutoSql.Lib.GoString

namespace AutoSql.Sha256

/-- The first 32 bits of the fractional parts of the cube roots of the first
sixty-four primes. -/
def roundConstants : List Nat := [
  0x428a2f98, 0x71374491, 0xb5c0fbcf, 0xe9b5dba5, 0x3956c25b, 0x59f111f1, 0x923f82a4, 0xab1c5ed5,
  0xd807aa98, 0x12835b01, 0x243185be, 0x550c7dc3, 0x72be5d74, 0x80deb1fe, 0x9bdc06a7, 0xc19bf174,
  0xe49b69c1, 0xefbe4786, 0x0fc19dc6, 0x240ca1cc, 0x2de92c6f, 0x4a7484aa, 0x5cb0a9dc, 0x76f988da,
  0x983e5152, 0xa831c66d, 0xb00327c8, 0xbf597fc7, 0xc6e00bf3, 0xd5a79147, 0x06ca6351, 0x14292967,
  0x27b70a85, 0x2e1b2138, 0x4d2c6dfc, 0x53380d13, 0x650a7354, 0x766a0abb, 0x81c2c92e, 0x92722c85,
  0xa2bfe8a1, 0xa81a664b, 0xc24b8b70, 0xc76c51a3, 0xd192e819, 0xd6990624, 0xf40e3585, 0x106aa070,
  0x19a4c116, 0x1e376c08, 0x2748774c, 0x34b0bcb5, 0x391c0cb3, 0x4ed8aa4a, 0x5b9cca4f, 0x682e6ff3,
  0x748f82ee, 0x78a5636f, 0x84c87814, 0x8cc70208, 0x90befffa, 0xa4506ceb, 0xbef9a3f7, 0xc67178f2]

/-! ### Words -/

variable (x : Nat)

def add (y : Nat) : Nat := (x + y) % 4294967296

def rotr (n x : Nat) : Nat := (x >>> n ||| x <<< (32 - n)) % 4294967296

def sigma0 : Nat := rotr 7 x ^^^ rotr 18 x ^^^ x >>> 3

def sigma1 : Nat := rotr 17 x ^^^ rotr 19 x ^^^ x >>> 10

def bigSigma0 : Nat := rotr 2 x ^^^ rotr 13 x ^^^ rotr 22 x

def bigSigma1 : Nat := rotr 6 x ^^^ rotr 11 x ^^^ rotr 25 x

def ch (y z : Nat) : Nat := (x &&& y) ^^^ ((4294967295 - x) &&& z)

def maj (y z : Nat) : Nat := (x &&& y) ^^^ (x &&& z) ^^^ (y &&& z)

/-! ### One block -/

/-- The message schedule: `n` words, from the window of the sixteen last ones. -/
def expand : Nat → List Nat → List Nat
  | n + 1, w0 :: w1 :: w2 :: w3 :: w4 :: w5 :: w6 :: w7 :: w8 :: w9 :: w10 :: w11 :: w12 :: w13 ::
      w14 :: w15 :: _ =>
    let next := add (add (sigma1 w14) w9) (add (sigma0 w1) w0)
    w0 :: expand n [w1, w2, w3, w4, w5, w6, w7, w8, w9, w10, w11, w12, w13, w14, w15, next]
  | _, _ => []

/-- The eight working variables. -/
structure State where
  a : Nat
  b : Nat
  c : Nat
  d : Nat
  e : Nat
  f : Nat
  g : Nat
  h : Nat

def round (s : State) (kw : Nat × Nat) : State :=
  let t1 := add (add s.h (bigSigma1 s.e)) (add (ch s.e s.f s.g) (add kw.1 kw.2))
  let t2 := add (bigSigma0 s.a) (maj s.a s.b s.c)
  ⟨add t1 t2, s.a, s.b, s.c, add s.d t1, s.e, s.f, s.g⟩

def State.plus (s t : State) : State :=
  ⟨add s.a t.a, add s.b t.b, add s.c t.c, add s.d t.d, add s.e t.e, add s.f t.f, add s.g t.g, add s.h t.h⟩

def compress (s : State) (block : List Nat) : State :=
  s.plus ((List.zip roundConstants (expand 64 block)).foldl round s)

/-! ### Messages -/

/-- Big-endian words of a byte string. -/
def words : GoString → List Nat
  | a :: b :: c :: d :: s =>
    (a.toNat * 16777216 + b.toNat * 65536 + c.toNat * 256 + d.toNat) :: words s
  | _ => []

/-- The `n` low bytes of `x`, most significant first. -/
def beBytes : Nat → Nat → GoString
  | 0, _ => []
  | n + 1, x => UInt8.ofNat (x / 256 ^ n) :: beBytes n x

/-- The message, a `1` bit, zeros, and the length in bits. -/
def pad (m : GoString) : GoString :=
  m ++ 0x80 :: List.replicate ((119 - m.length % 64) % 64) 0 ++ beBytes 8 (8 * m.length)

def initial : State :=
  ⟨0x6a09e667, 0xbb67ae85, 0x3c6ef372, 0xa54ff53a, 0x510e527f, 0x9b05688c, 0x1f83d9ab, 0x5be0cd19⟩

def blocks : Nat → State → List Nat → State
  | 0, s, _ => s
  | n + 1, s, w => blocks n (compress s (w.take 16)) (w.drop 16)

/-- `sha256.Sum256`. -/
def sum256 (m : GoString) : GoString :=
  let w := words (pad m)
  let s := blocks (w.length / 16) initial w
  [s.a, s.b, s.c, s.d, s.e, s.f, s.g, s.h].flatMap (beBytes 4)

@[simp] theorem length_beBytes (n x : Nat) : (beBytes n x).length = n := by
  induction n with
  | zero => rfl
  | succ n ih => simp [beBytes, ih]

@[simp] theorem length_sum256 (m : GoString) : (sum256 m).length = 32 := by
  simp [sum256]

example : sum256 (str "abc") =
    [0xba, 0x78, 0x16, 0xbf, 0x8f, 0x01, 0xcf, 0xea, 0x41, 0x41, 0x40, 0xde, 0x5d, 0xae, 0x22, 0x23,
      0xb0, 0x03, 0x61, 0xa3, 0x96, 0x17, 0x7a, 0x9c, 0xb4, 0x10, 0xff, 0x61, 0xf2, 0x00, 0x15,
      0xad] := by decide +kernel

/-- No two messages of `S` have the same digest. -/
def CollisionFree (S : Set GoString) : Prop := Set.InjOn sum256 S

/-- Messages whose digests begin differently do not collide. -/
theorem collisionFree_of_heads {S : Set GoString} {l : List GoString} (hS : ∀ t ∈ S, t ∈ l)
    (hl : (l.map fun t => (sum256 t).head?).Nodup) : CollisionFree S := by
  intro a ha b hb h
  exact List.inj_on_of_nodup_map hl (hS a ha) (hS b hb) (congrArg List.head? h)

end AutoSql.Sha256
