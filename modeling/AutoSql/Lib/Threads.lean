/-
AutoSql/Lib/Threads.lean

Programs of several sessions on one shared state.

A `Prog C S ε α` is what one session does: it returns a value or an error, or it
makes a call `c : C` and goes on with the answer.  The answer is the state right
after the call, which is all that a query can tell, or `none` if the call was
refused or reported as failed.  What a call does to the state is not part of the
program: a `System` says it, together with what remains of a session that is gone
and what else can change the state.

A run is a list of acts: a session is opened, makes its next call, is closed, or the
environment does something.  Sessions are closed at any point, so that a run with
crashes is a run like any other.

`Discipline` is the rule for all runs, in the style of rely and guarantee.  It has an
invariant of the shared state and, for each session, a relation that the acts of all
others keep between two of its calls.  `Meets` is the obligation on a program, by
recursion on it; `Discipline.reaches` is the theorem: if every program that can be
opened meets its obligation, the invariant holds in every state of every run, also of
the runs in which only some acts are assumed (`Assumes`, `AssumesEnv`).
-/
import Mathlib

namespace AutoSql

open Function Option

/-- What a session does.  `hang` is a program that makes no call any more and does not return. -/
inductive Prog (C S ε α : Type) : Type
  | done (r : Except ε α)
  | call (c : C) (k : Option S → Prog C S ε α)
  | hang

namespace Prog

variable {C S ε α β : Type}

protected def bind : Prog C S ε α → (α → Prog C S ε β) → Prog C S ε β
  | .done (.ok a), f => f a
  | .done (.error e), _ => .done (.error e)
  | .call c k, f => .call c fun r => (k r).bind f
  | .hang, _ => .hang

instance : Monad (Prog C S ε) where
  pure a := .done (.ok a)
  bind := Prog.bind

/-- Give up with an error. -/
def fail (e : ε) : Prog C S ε α := .done (.error e)

/-- A call whose failure is the error `e`. -/
def stmt (c : C) (e : ε) : Prog C S ε S :=
  .call c fun
    | some s => .done (.ok s)
    | none => .done (.error e)

/-- A call that cannot fail: without an answer there is no more of the program. -/
def always (c : C) : Prog C S ε S :=
  .call c fun
    | some s => .done (.ok s)
    | none => .hang

/-- A call whose failure is ignored. -/
def attempt (c : C) : Prog C S ε Unit := .call c fun _ => .done (.ok ())

/-- Run `h` on the error of `p`. -/
def onError : Prog C S ε α → (ε → Prog C S ε α) → Prog C S ε α
  | .done (.ok a), _ => .done (.ok a)
  | .done (.error e), h => h e
  | .call c k, h => .call c fun r => (k r).onError h
  | .hang, _ => .hang

def mapError {ε' : Type} (f : ε → ε') : Prog C S ε α → Prog C S ε' α
  | .done (.ok a) => .done (.ok a)
  | .done (.error e) => .done (.error (f e))
  | .call c k => .call c fun r => (k r).mapError f
  | .hang => .hang

/-- All calls of the program are in `P`. -/
def Only (P : C → Prop) : Prog C S ε α → Prop
  | .done _ => True
  | .call c k => P c ∧ ∀ r, (k r).Only P
  | .hang => True

/-- Whatever the answers, a program that ends does so in `R`. -/
def Ends (R : Except ε α → Prop) : Prog C S ε α → Prop
  | .done r => R r
  | .call _ k => ∀ r, (k r).Ends R
  | .hang => True

/-- The program does not return a value. -/
def Fails (p : Prog C S ε α) : Prop := p.Ends fun r => ∀ a, r ≠ .ok a

/-- The program without what it returns. -/
def forget : Prog C S ε α → Prog C S Unit Unit
  | .done (.ok _) => .done (.ok ())
  | .done (.error _) => .done (.error ())
  | .call c k => .call c fun r => (k r).forget
  | .hang => .hang

/-- The run of one session alone in which every call is answered as the state has it.  The
result is `none` for a program that hangs. -/
def alone (exec : C → S → Option S) : Prog C S ε α → S → Option (Except ε α) × S
  | .done r, s => (some r, s)
  | .call c k, s =>
    match exec c s with
    | some s' => (k (some s')).alone exec s'
    | none => (k none).alone exec s
  | .hang, s => (none, s)

section Only

variable {P P' : C → Prop}

variable {p : Prog C S ε α} {c : C}

theorem Only.bind {f : α → Prog C S ε β} (hp : p.Only P) (hf : ∀ a, (f a).Only P) : (p >>= f).Only P := by
  show (p.bind f).Only P
  induction p with
  | done r =>
    cases r with
    | ok a => exact hf a
    | error e => trivial
  | call c k ih => exact ⟨hp.1, fun r => ih r (hp.2 r)⟩
  | hang => trivial

theorem Only.onError {f : ε → Prog C S ε α} (hp : p.Only P) (hf : ∀ e, (f e).Only P) : (p.onError f).Only P := by
  induction p with
  | done r =>
    cases r with
    | ok a => trivial
    | error e => exact hf e
  | call c k ih => exact ⟨hp.1, fun r => ih r (hp.2 r)⟩
  | hang => trivial

theorem Only.mapError {ε' : Type} {f : ε → ε'} (hp : p.Only P) : (p.mapError f).Only P := by
  induction p with
  | done r => cases r <;> trivial
  | call c k ih => exact ⟨hp.1, fun r => ih r (hp.2 r)⟩
  | hang => trivial

theorem Only.stmt {e : ε} (h : P c) : (stmt c e : Prog C S ε S).Only P := by
  refine ⟨h, fun r => ?_⟩
  cases r <;> trivial

theorem Only.attempt (h : P c) : (attempt c : Prog C S ε Unit).Only P := ⟨h, fun _ => trivial⟩

theorem Only.always (h : P c) : (always c : Prog C S ε S).Only P := by
  refine ⟨h, fun r => ?_⟩
  cases r <;> trivial

end Only

theorem Fails.fail (e : ε) : (fail e : Prog C S ε α).Fails := fun _ => nofun

/-- A program whose last part fails. -/
theorem Fails.bind (p : Prog C S ε α) {f : α → Prog C S ε β} (hf : ∀ a, (f a).Fails) : (p >>= f).Fails := by
  show (p.bind f).Fails
  induction p with
  | done r =>
    cases r with
    | ok a => exact hf a
    | error e => exact fun _ => nofun
  | call c k ih => exact fun r => ih r
  | hang => trivial

/-! ### One session alone -/

theorem alone_bind (exec : C → S → Option S) (p : Prog C S ε α) (f : α → Prog C S ε β) (s : S) : (p >>= f).alone exec s =
    match p.alone exec s with
    | (some (.ok a), s') => (f a).alone exec s'
    | (some (.error e), s') => (some (.error e), s')
    | (none, s') => (none, s') := by
  show (p.bind f).alone exec s = _
  induction p generalizing s with
  | done r => cases r <;> rfl
  | call c k ih =>
    simp only [Prog.bind, alone]
    cases exec c s with
    | none => exact ih none s
    | some s' => exact ih (some s') s'
  | hang => rfl

variable {exec : C → S → Option S} {p : Prog C S ε α}

/-- A program that returns a value, and what follows it. -/
theorem alone_bind_ok {f : α → Prog C S ε β} {s s' : S} {a : α}
    (h : p.alone exec s = (some (.ok a), s')) : (p >>= f).alone exec s = (f a).alone exec s' := by
  rw [alone_bind, h]

/-- A call that is done. -/
theorem alone_stmt {c : C} {e : ε} {f : S → Prog C S ε β} {s s' : S} (h : exec c s = some s') :
    (stmt c e >>= f).alone exec s = (f s').alone exec s' := by
  rw [alone_bind]
  simp only [stmt, alone, h]

/-- What a program returns is forgotten, not what it does. -/
theorem alone_forget (exec : C → S → Option S) (p : Prog C S ε α) (s : S) :
    (p.forget.alone exec s).2 = (p.alone exec s).2 ∧ ((p.forget.alone exec s).1 = some (.ok ()) ↔ ∃ a, (p.alone exec s).1 = some (.ok a)) := by
  induction p generalizing s with
  | done r => cases r <;> simp [forget, alone]
  | call c k ih =>
    simp only [forget, alone]
    cases exec c s with
    | none => exact ih none s
    | some s' => exact ih (some s') s'
  | hang => simp [forget, alone]

/-- Alone and with every call answered as the state has it, the program ends in `Q`. -/
def Runs (exec : C → S → Option S) (p : Prog C S ε α) (s : S) (Q : Except ε α → S → Prop) : Prop :=
  ∃ r s', p.alone exec s = (some r, s') ∧ Q r s'

namespace Runs

variable {exec : C → S → Option S} {s : S}

theorem pure {a : α} {Q : Except ε α → S → Prop} (h : Q (.ok a) s) : Runs exec (pure a) s Q := ⟨_, _, rfl, h⟩

theorem fail {e : ε} {Q : Except ε α → S → Prop} (h : Q (.error e) s) : Runs exec (fail e) s Q := ⟨_, _, rfl, h⟩

theorem mono {Q Q' : Except ε α → S → Prop} (h : Runs exec p s Q) (hQ : ∀ r s, Q r s → Q' r s) : Runs exec p s Q' := by
  obtain ⟨r, s', hr, h⟩ := h
  exact ⟨r, s', hr, hQ r s' h⟩

variable {Q : Except ε β → S → Prop} {c : C} {s' : S}

theorem bind {f : α → Prog C S ε β} (h : Runs exec p s fun r s' => match r with
      | .ok a => Runs exec (f a) s' Q
      | .error e => Q (.error e) s') : Runs exec (p >>= f) s Q := by
  obtain ⟨r, s', hr, h⟩ := h
  cases r with
  | ok a =>
    obtain ⟨r', s'', hr', h⟩ := h
    exact ⟨r', s'', by rw [alone_bind, hr]; exact hr', h⟩
  | error e => exact ⟨_, s', by rw [alone_bind, hr], h⟩

/-- A program that returns a value, and what follows it. -/
theorem seq {f : α → Prog C S ε β} {M : α → S → Prop}
    (hp : Runs exec p s fun r s' => ∃ a, r = .ok a ∧ M a s') (hf : ∀ a s', M a s' → Runs exec (f a) s' Q) : Runs exec (p >>= f) s Q := by
  refine bind (hp.mono ?_)
  rintro r s' ⟨a, rfl, ha⟩
  exact hf a s' ha

/-- A call that is done, and what follows it. -/
theorem stmt {e : ε} {f : S → Prog C S ε β} (hc : exec c s = some s')
    (hf : Runs exec (f s') s' Q) : Runs exec (Prog.stmt c e >>= f) s Q := by
  refine bind ⟨.ok s', s', ?_, hf⟩
  simp only [Prog.stmt, alone, hc]

theorem always {f : S → Prog C S ε β} (hc : exec c s = some s')
    (hf : Runs exec (f s') s' Q) : Runs exec (Prog.always c >>= f) s Q := by
  refine bind ⟨.ok s', s', ?_, hf⟩
  simp only [Prog.always, alone, hc]

theorem attempt {f : Unit → Prog C S ε β} (hc : exec c s = some s')
    (hf : Runs exec (f ()) s' Q) : Runs exec (Prog.attempt c >>= f) s Q := by
  refine bind ⟨.ok (), s', ?_, hf⟩
  simp only [Prog.attempt, alone, hc]

/-- A program that does not fail needs no handler. -/
theorem onError {h : ε → Prog C S ε α} {M : α → S → Prop}
    (hp : Runs exec p s fun r s' => ∃ a, r = .ok a ∧ M a s') : Runs exec (p.onError h) s fun r s' => ∃ a, r = .ok a ∧ M a s' := by
  induction p generalizing s with
  | done r =>
    obtain ⟨r', s', hr, a, rfl, ha⟩ := hp
    cases hr
    exact ⟨_, _, rfl, a, rfl, ha⟩
  | call c k ih =>
    obtain ⟨r', s', hr, a, rfl, ha⟩ := hp
    simp only [alone] at hr
    cases he : exec c s with
    | some s₁ =>
      rw [he] at hr
      obtain ⟨r, s₂, hrun, hQ⟩ := ih (some s₁) ⟨_, s', hr, a, rfl, ha⟩
      exact ⟨r, s₂, by simpa only [Prog.onError, alone, he] using hrun, hQ⟩
    | none =>
      rw [he] at hr
      obtain ⟨r, s₂, hrun, hQ⟩ := ih none ⟨_, s', hr, a, rfl, ha⟩
      exact ⟨r, s₂, by simpa only [Prog.onError, alone, he] using hrun, hQ⟩
  | hang =>
    obtain ⟨r, s', hr, -⟩ := hp
    cases hr

end Runs

/-- Alone, a value that the program returns is in `Q`. -/
def Yields (exec : C → S → Option S) (p : Prog C S ε α) (s : S) (Q : α → S → Prop) : Prop :=
  ∀ a s', p.alone exec s = (some (.ok a), s') → Q a s'

namespace Yields

variable {exec : C → S → Option S} {s : S}

theorem bind {f : α → Prog C S ε β} {Q : β → S → Prop} (h : Yields exec p s fun a s' => Yields exec (f a) s' Q) :
    Yields exec (p >>= f) s Q := by
  intro b s' hb
  rw [alone_bind] at hb
  rcases hp : p.alone exec s with ⟨_ | (e | a), s₁⟩
  · rw [hp] at hb
    cases hb
  · rw [hp] at hb
    cases hb
  · rw [hp] at hb
    exact h a s₁ hp b s' hb

theorem stmt {c : C} {e : ε} {f : S → Prog C S ε β} {Q : β → S → Prop} (h : ∀ s', exec c s = some s' → Yields exec (f s') s' Q) :
    Yields exec (Prog.stmt c e >>= f) s Q := by
  refine bind fun a s' ha => ?_
  simp only [Prog.stmt, alone] at ha
  cases he : exec c s with
  | some s₁ =>
    rw [he] at ha
    cases ha
    exact h a he
  | none =>
    rw [he] at ha
    cases ha

theorem fail {e : ε} {Q : α → S → Prop} : Yields exec (fail e : Prog C S ε α) s Q := fun _ _ h => nomatch h

end Yields

section Only

variable {P : C → Prop} {R : S → S → Prop} (hrefl : ∀ s, R s s) (htrans : ∀ {s s' s''}, R s s' → R s' s'' → R s s'')
  (hcall : ∀ {c s s'}, P c → exec c s = some s' → R s s') (hp : p.Only P) (s : S)
include hrefl htrans hcall hp

/-- What every call of a program does to the state, the whole program does. -/
theorem Only.alone : R s (p.alone exec s).2 := by
  induction p generalizing s with
  | done r => exact hrefl s
  | call c k ih =>
    simp only [Prog.alone]
    cases he : exec c s with
    | some s' => exact htrans (hcall hp.1 he) (ih _ (hp.2 _) s')
    | none => exact ih _ (hp.2 _) s
  | hang => exact hrefl s

theorem Only.yields : p.Yields exec s fun _ => R s := by
  intro a s' ha
  have hR := hp.alone hrefl htrans hcall s
  rwa [ha] at hR

end Only

end Prog

/-! ### Systems and their runs -/

/-- How the outside answers a call.  `took` says whether the call had its effect although it was
reported as failed. -/
inductive Answer
  | done
  | failed (took : Bool)
  deriving DecidableEq

/-- `exec i c s` is the state after call `c` of session `i`, `none` if it is refused; `close i s`
is what remains of session `i`; `env` is what the environment can do. -/
structure System (C S P E : Type) where
  exec : Nat → C → S → Option S
  close : Nat → S → S
  env : E → S → Option S
  prog : P → Nat → Prog C S Unit Unit

/-- The shared state, and what is left to do for the sessions that are open. -/
structure Conf (C S : Type) where
  state : S
  sessions : Nat → Option (Prog C S Unit Unit)

inductive Act (P E : Type)
  | openSession (i : Nat) (p : P)
  | call (i : Nat) (a : Answer)
  | close (i : Nat)
  | env (e : E)

/-- The call that an act makes. -/
def Conf.next {C S P E : Type} (x : Conf C S) : Act P E → Option C
  | .call i _ =>
    match x.sessions i with
    | some (.call c _) => some c
    | _ => none
  | _ => none

namespace System

variable {C S P E : Type} (Y : System C S P E)

/-- No session is open. -/
def initial (s : S) : Conf C S := ⟨s, fun _ => none⟩

/-- The state after call `c`, and the answer to it. -/
def reply (i : Nat) (c : C) (s : S) : Answer → Option S × S
  | .done =>
    match Y.exec i c s with
    | some s' => (some s', s')
    | none => (none, s)
  | .failed took => (none, if took then (Y.exec i c s).getD s else s)

def step (x : Conf C S) : Act P E → Option (Conf C S)
  | .openSession i p =>
    match x.sessions i with
    | none => some ⟨x.state, update x.sessions i (some (Y.prog p i))⟩
    | some _ => none
  | .call i a =>
    match x.sessions i with
    | some (.call c k) =>
      let r := Y.reply i c x.state a
      some ⟨r.2, update x.sessions i (some (k r.1))⟩
    | _ => none
  | .close i => some ⟨Y.close i x.state, update x.sessions i none⟩
  | .env e => (Y.env e x.state).map fun s => ⟨s, x.sessions⟩

/-- The run of the acts `l` from `x`, if all of them are possible. -/
def run (x : Conf C S) : List (Act P E) → Option (Conf C S)
  | [] => some x
  | a :: l => (Y.step x a).bind fun x' => run x' l

/-- The same, if all of them meet `cond` where they are done. -/
def runIf (cond : Conf C S → Act P E → Prop) [∀ x a, Decidable (cond x a)] (x : Conf C S) : List (Act P E) → Option (Conf C S)
  | [] => some x
  | a :: l => if cond x a then (Y.step x a).bind fun x' => runIf cond x' l else none

/-- The acts `l` lead from `x` to `x'`, and each of them meets `cond` where it is done. -/
def Reaches (cond : Conf C S → Act P E → Prop) : Conf C S → List (Act P E) → Conf C S → Prop
  | x, [], x' => x = x'
  | x, a :: l, x' => cond x a ∧ ∃ y, Y.step x a = some y ∧ Reaches cond y l x'

variable {Y} {cond : Conf C S → Act P E → Prop} {x y z : Conf C S} {l : List (Act P E)}

theorem Reaches.of_run (h : Y.run x l = some y) : Y.Reaches (fun _ _ => True) x l y := by
  induction l generalizing x with
  | nil => exact some.inj h
  | cons a l ih =>
    obtain ⟨x', hx', h⟩ := bind_eq_some_iff.mp h
    exact ⟨trivial, x', hx', ih h⟩

theorem Reaches.of_runIf [∀ x a, Decidable (cond x a)] (h : Y.runIf cond x l = some y) : Y.Reaches cond x l y := by
  induction l generalizing x with
  | nil => exact some.inj h
  | cons a l ih =>
    rw [runIf] at h
    split_ifs at h with ha
    obtain ⟨x', hx', h⟩ := bind_eq_some_iff.mp h
    exact ⟨ha, x', hx', ih h⟩

theorem Reaches.mono {cond' : Conf C S → Act P E → Prop} (h : Y.Reaches cond x l y) (hc : ∀ x a, cond x a → cond' x a) :
    Y.Reaches cond' x l y := by
  induction l generalizing x with
  | nil => exact h
  | cons a l ih =>
    obtain ⟨ha, x', hx', h⟩ := h
    exact ⟨hc x a ha, x', hx', ih h⟩

/-- What every act keeps holds after every run. -/
theorem Reaches.keeps {I : Conf C S → Prop} (hstep : ∀ x a x', cond x a → Y.step x a = some x' → I x → I x')
    (h : Y.Reaches cond x l y) (hx : I x) : I y := by
  induction l generalizing x with
  | nil => exact h ▸ hx
  | cons a l ih =>
    obtain ⟨hc, x', hx', h⟩ := h
    exact ih h (hstep x a x' hc hx' hx)

/-- One more act. -/
theorem Reaches.snoc (h : Y.Reaches cond x l y) {a : Act P E} (ha : cond y a) (hz : Y.step y a = some z) : Y.Reaches cond x (l ++ [a]) z := by
  induction l generalizing x with
  | nil =>
    obtain rfl : x = y := h
    exact ⟨ha, z, hz, rfl⟩
  | cons b l ih =>
    obtain ⟨hc, x', hx', h⟩ := h
    exact ⟨hc, x', hx', ih h⟩

/-- Where a property of the configuration becomes true. -/
theorem Reaches.turns {I : Conf C S → Prop} (h : Y.Reaches cond x l z) (hx : ¬ I x) (hz : I z) :
    ∃ l₁ a l₂ y y', l = l₁ ++ a :: l₂ ∧ Y.Reaches cond x l₁ y ∧ ¬ I y ∧ cond y a ∧ Y.step y a = some y' ∧ I y' ∧ Y.Reaches cond y' l₂ z := by
  induction l generalizing x with
  | nil => exact absurd ((show x = z from h) ▸ hz) hx
  | cons a l ih =>
    obtain ⟨hc, x', hx', h⟩ := h
    by_cases hI : I x'
    · exact ⟨[], a, l, x, x', rfl, rfl, hx, hc, hx', hI, h⟩
    · obtain ⟨l₁, b, l₂, y, y', rfl, hy, hrest⟩ := ih h hI
      exact ⟨a :: l₁, b, l₂, y, y', rfl, ⟨hc, x', hx', hy⟩, hrest⟩

/-- The ends of a call: it has no effect, or it has one and is reported as failed or done. -/
theorem step_call {i : Nat} {a : Answer} (h : Y.step x (.call i a) = some y) : ∃ c k, x.sessions i = some (.call c k) ∧
    ∃ s r, y = ⟨s, update x.sessions i (some (k r))⟩ ∧
      (s = x.state ∧ r = none ∨ Y.exec i c x.state = some s ∧ (r = none ∨ r = some s)) := by
  simp only [step] at h
  split at h
  · rename_i c k hi
    cases h
    refine ⟨c, k, hi, _, _, rfl, ?_⟩
    rcases a with _ | _ | _
    · cases he : Y.exec i c x.state with
      | none => exact .inl (by simp [reply, he])
      | some s' => exact .inr (by simp [reply, he])
    · exact .inl ⟨rfl, rfl⟩
    · cases he : Y.exec i c x.state with
      | none => exact .inl (by simp [reply, he])
      | some s' => exact .inr (by simp [reply, he])
  · cases h

end System

/-! ### Rely and guarantee -/

/-- What is known about the runs of a system.  `Inv` holds of every state; `Rely i` is kept by all
acts but those of session `i`; `Guar i c` holds of the states before and after a call of `i`.
`Assumes` and `AssumesEnv` restrict the runs that are considered. -/
structure Discipline {C S P E : Type} (Y : System C S P E) where
  Inv : S → Prop
  Rely : Nat → S → S → Prop
  Guar : Nat → C → S → S → Prop
  Assumes : Nat → C → S → Prop
  AssumesEnv : E → S → Prop
  refl : ∀ i s, Rely i s s
  trans : ∀ {i s s' s''}, Rely i s s' → Rely i s' s'' → Rely i s s''
  others : ∀ {i j c s s'}, i ≠ j → Inv s → Guar i c s s' → Rely j s s'
  env : ∀ {e s s'}, Inv s → AssumesEnv e s → Y.env e s = some s' → Inv s' ∧ ∀ j, Rely j s s'
  close : ∀ {i s}, Inv s → Inv (Y.close i s) ∧ ∀ j, i ≠ j → Rely j s (Y.close i s)

namespace Discipline

variable {C S P E : Type} {Y : System C S P E} (D : Discipline Y)

/-- The obligation on a program of session `i` that last saw the state `s`: before each of its
calls the state may have changed as `Rely` allows, and after it the invariant and `Guar` hold. -/
def Meets {ε α : Type} (i : Nat) : Prog C S ε α → S → (Except ε α → S → Prop) → Prop
  | .done r, s, Q => Q r s
  | .call c k, s, Q => ∀ s₁, D.Inv s₁ → D.Rely i s s₁ → D.Assumes i c s₁ →
    Meets i (k none) s₁ Q ∧ ∀ s₂, Y.exec i c s₁ = some s₂ →
      D.Inv s₂ ∧ D.Guar i c s₁ s₂ ∧ Meets i (k (some s₂)) s₂ Q ∧ Meets i (k none) s₂ Q
  | .hang, _, _ => True

variable {D} {ε α β : Type} {i : Nat} {s : S}

variable {p : Prog C S ε α} {x : Conf C S} {Q : Except ε α → S → Prop} {c : C}

/-- A call of which the rest is replaced. -/
theorem Meets.of_call {ε' : Type} {k : Option S → Prog C S ε α} {k' : Option S → Prog C S ε' β} {Q' : Except ε' β → S → Prop}
    (h : D.Meets i (.call c k) s Q) (hk : ∀ r s, D.Meets i (k r) s Q → D.Meets i (k' r) s Q') : D.Meets i (.call c k') s Q' := by
  intro s₁ hI hR hA
  obtain ⟨hnone, hsome⟩ := h s₁ hI hR hA
  refine ⟨hk none s₁ hnone, fun s₂ hs₂ => ?_⟩
  obtain ⟨hI₂, hG, hrest, hrest'⟩ := hsome s₂ hs₂
  exact ⟨hI₂, hG, hk (some s₂) s₂ hrest, hk none s₂ hrest'⟩

theorem Meets.mono {Q' : Except ε α → S → Prop} (h : D.Meets i p s Q) (hQ : ∀ r s, Q r s → Q' r s) :
    D.Meets i p s Q' := by
  induction p generalizing s with
  | done r => exact hQ r s h
  | call c k ih => exact h.of_call fun r _ => ih r
  | hang => trivial

/-- What follows starts where the program ended. -/
theorem Meets.bind {f : α → Prog C S ε β} {Q : Except ε β → S → Prop} (h : D.Meets i p s fun r s' => match r with
      | .ok a => D.Meets i (f a) s' Q
      | .error e => Q (.error e) s') : D.Meets i (p >>= f) s Q := by
  show D.Meets i (p.bind f) s Q
  induction p generalizing s with
  | done r => cases r <;> exact h
  | call c k ih => exact h.of_call fun r _ => ih r
  | hang => trivial

/-- A value that is returned is in `P`; nothing is said about errors. -/
def Returns (P : α → S → Prop) (r : Except ε α) (s : S) : Prop := ∀ a, r = .ok a → P a s

theorem Returns.error {P : α → S → Prop} {e : ε} : Returns P (.error e) s := nofun

theorem Returns.ok {P : α → S → Prop} {a : α} (h : P a s) : Returns P (.ok a : Except ε α) s := by
  rintro a' ⟨⟩
  exact h

/-- A sequence of which only the returned values matter. -/
theorem Meets.seq {f : α → Prog C S ε β} {M : α → S → Prop} {Q : β → S → Prop}
    (hp : D.Meets i p s (Returns M)) (hf : ∀ a s', M a s' → D.Meets i (f a) s' (Returns Q)) : D.Meets i (p >>= f) s (Returns Q) := by
  refine Meets.bind (hp.mono fun r s' hr => ?_)
  cases r with
  | ok a => exact hf a s' (hr a rfl)
  | error e => exact Returns.error

theorem Meets.onError {f : ε → Prog C S ε α} (h : D.Meets i p s fun r s' => match r with
      | .ok a => Q (.ok a) s'
      | .error e => D.Meets i (f e) s' Q) : D.Meets i (p.onError f) s Q := by
  induction p generalizing s with
  | done r => cases r <;> exact h
  | call c k ih => exact h.of_call fun r _ => ih r
  | hang => trivial

/-- The same, where only the returned values matter. -/
theorem Meets.recover {f : ε → Prog C S ε α} {M : α → S → Prop} (h : D.Meets i p s (Returns M))
    (hf : ∀ e s', D.Meets i (f e) s' (Returns M)) : D.Meets i (p.onError f) s (Returns M) := by
  refine Meets.onError (h.mono fun r s' hr => ?_)
  cases r with
  | ok a => exact hr
  | error e => exact hf e s'

theorem Meets.mapError {ε' : Type} {f : ε → ε'} {M : α → S → Prop} (h : D.Meets i p s (Returns M)) : D.Meets i (p.mapError f) s (Returns M) := by
  induction p generalizing s with
  | done r =>
    cases r with
    | ok a => exact Returns.ok (h a rfl)
    | error e => exact Returns.error
  | call c k ih => exact h.of_call fun r _ => ih r
  | hang => trivial

theorem Meets.forget (h : D.Meets i p s fun _ _ => True) : D.Meets i p.forget s fun _ _ => True := by
  induction p generalizing s with
  | done r => cases r <;> trivial
  | call c k ih => exact h.of_call fun r _ => ih r
  | hang => trivial

/-- Two facts about the end of a program. -/
theorem Meets.and_ends {R : Except ε α → Prop} (h : D.Meets i p s Q) (hp : p.Ends R) :
    D.Meets i p s fun r s' => Q r s' ∧ R r := by
  induction p generalizing s with
  | done r => exact ⟨h, hp⟩
  | call c k ih => exact h.of_call fun r _ hk => ih r hk (hp r)
  | hang => trivial

/-- An assertion that the others and every call keep. -/
theorem Meets.keeps {K : S → Prop} (hR : ∀ {s s'}, K s → D.Rely i s s' → K s')
    (hG : ∀ {c s s'}, K s → D.Guar i c s s' → K s') (h : D.Meets i p s Q) (hs : K s) : D.Meets i p s fun r s' => Q r s' ∧ K s' := by
  induction p generalizing s with
  | done r => exact ⟨h, hs⟩
  | call c k ih =>
    intro s₁ hI hrely hA
    obtain ⟨hnone, hsome⟩ := h s₁ hI hrely hA
    have hs₁ := hR hs hrely
    refine ⟨ih none hnone hs₁, fun s₂ hs₂ => ?_⟩
    obtain ⟨hI₂, hguar, hk, hk'⟩ := hsome s₂ hs₂
    exact ⟨hI₂, hguar, ih (some s₂) hk (hG hs₁ hguar), ih none hk' (hG hs₁ hguar)⟩
  | hang => trivial

/-- A program whose calls all keep an assertion that the others keep, too. -/
theorem Meets.of_only {P : C → Prop} {K : S → Prop} (hK : ∀ {s s'}, K s → D.Rely i s s' → K s')
    (hcall : ∀ {c s₁ s₂}, P c → D.Inv s₁ → K s₁ → D.Assumes i c s₁ → Y.exec i c s₁ = some s₂ → D.Inv s₂ ∧ D.Guar i c s₁ s₂ ∧ K s₂)
    (hp : p.Only P) (hs : K s) : D.Meets i p s fun _ => K := by
  induction p generalizing s with
  | done r => exact hs
  | call c k ih =>
    intro s₁ hI hR hA
    have hs₁ := hK hs hR
    refine ⟨ih none (hp.2 none) hs₁, fun s₂ hs₂ => ?_⟩
    obtain ⟨hI₂, hG, hs₂⟩ := hcall hp.1 hI hs₁ hA hs₂
    exact ⟨hI₂, hG, ih _ (hp.2 _) hs₂, ih _ (hp.2 _) hs₂⟩
  | hang => trivial

/-- A call and what follows it.  If it is not done, the program ends with its error. -/
theorem Meets.stmt {e : ε} {f : S → Prog C S ε β} {Q : Except ε β → S → Prop}
    (h : ∀ s₁, D.Inv s₁ → D.Rely i s s₁ → D.Assumes i c s₁ → Q (.error e) s₁ ∧ ∀ s₂, Y.exec i c s₁ = some s₂ →
      D.Inv s₂ ∧ D.Guar i c s₁ s₂ ∧ Q (.error e) s₂ ∧ D.Meets i (f s₂) s₂ Q) : D.Meets i (Prog.stmt c e >>= f) s Q := by
  intro s₁ hI hR hA
  obtain ⟨hno, h⟩ := h s₁ hI hR hA
  refine ⟨hno, fun s₂ hs₂ => ?_⟩
  obtain ⟨hI₂, hG, he, hf⟩ := h s₂ hs₂
  exact ⟨hI₂, hG, hf, he⟩

/-- A call that cannot fail, and what follows it. -/
theorem Meets.always {f : S → Prog C S ε β} {Q : Except ε β → S → Prop}
    (h : ∀ s₁, D.Inv s₁ → D.Rely i s s₁ → D.Assumes i c s₁ → ∀ s₂, Y.exec i c s₁ = some s₂ →
      D.Inv s₂ ∧ D.Guar i c s₁ s₂ ∧ D.Meets i (f s₂) s₂ Q) : D.Meets i (Prog.always c >>= f) s Q := by
  intro s₁ hI hR hA
  refine ⟨trivial, fun s₂ hs₂ => ?_⟩
  obtain ⟨hI₂, hG, hf⟩ := h s₁ hI hR hA s₂ hs₂
  exact ⟨hI₂, hG, hf, trivial⟩

/-- The runs that the discipline is about. -/
def Allows (D : Discipline Y) (x : Conf C S) : Act P E → Prop
  | .call i a => ∀ c ∈ x.next (.call i a : Act P E), D.Assumes i c x.state
  | .env e => D.AssumesEnv e x.state
  | _ => True

theorem allows_of_assumes (h : ∀ i c s, D.Assumes i c s) (henv : ∀ e s, D.AssumesEnv e s) (x : Conf C S) (a : Act P E) :
    D.Allows x a := by
  cases a with
  | call i a => exact fun c _ => h i c _
  | env e => exact henv e _
  | openSession i p => trivial
  | close i => trivial

/-- The invariant holds, and what is left of every session meets its obligation. -/
structure Good (D : Discipline Y) (x : Conf C S) : Prop where
  inv : D.Inv x.state
  meets : ∀ i p, x.sessions i = some p → ∃ s, D.Rely i s x.state ∧ D.Meets i p s fun _ _ => True

/-- A change of the state that the other sessions bear, with the program of session `i` replaced. -/
theorem Good.update {s' : S} {p' : Option (Prog C S Unit Unit)} (h : D.Good x) (hI : D.Inv s')
    (hR : ∀ j, i ≠ j → D.Rely j x.state s') (hp : ∀ p, p' = some p → D.Meets i p s' fun _ _ => True) :
    D.Good ⟨s', update x.sessions i p'⟩ := by
  refine ⟨hI, fun j p hj => ?_⟩
  by_cases hij : j = i
  · subst hij
    simp only [update_self] at hj
    exact ⟨s', D.refl j s', hp p hj⟩
  · simp only [update_of_ne hij] at hj
    obtain ⟨s₀, hs₀, hm⟩ := h.meets j p hj
    exact ⟨s₀, D.trans hs₀ (hR j (Ne.symm hij)), hm⟩

/-- The step lemma: an allowed act keeps `Good`. -/
theorem Good.step (hprog : ∀ p i s, D.Inv s → D.Meets i (Y.prog p i) s fun _ _ => True) {x' : Conf C S}
    {a : Act P E} (h : D.Good x) (ha : D.Allows x a) (hx' : Y.step x a = some x') : D.Good x' := by
  cases a with
  | openSession i p =>
    cases hi : x.sessions i with
    | some q => simp [System.step, hi] at hx'
    | none =>
      simp only [System.step, hi, some.injEq] at hx'
      subst hx'
      refine h.update h.inv (fun j _ => D.refl j _) ?_
      rintro q ⟨⟩
      exact hprog p i _ h.inv
  | close i =>
    simp only [System.step, some.injEq] at hx'
    subst hx'
    exact h.update (D.close h.inv).1 (D.close h.inv).2 (fun _ hp => nomatch hp)
  | env e =>
    simp only [System.step, map_eq_some_iff] at hx'
    obtain ⟨s', hs', rfl⟩ := hx'
    obtain ⟨hI, hR⟩ := D.env h.inv ha hs'
    refine ⟨hI, fun j p hj => ?_⟩
    obtain ⟨s₀, hs₀, hm⟩ := h.meets j p hj
    exact ⟨s₀, D.trans hs₀ (hR j), hm⟩
  | call i a =>
    obtain ⟨c, k, hi, s', r, rfl, hr⟩ := System.step_call hx'
    obtain ⟨s₀, hs₀, hm⟩ := h.meets i _ hi
    obtain ⟨hnone, hsome⟩ := hm x.state h.inv hs₀ (ha c (by simp [Conf.next, hi]))
    rcases hr with ⟨rfl, rfl⟩ | ⟨hs, hr⟩
    · refine h.update h.inv (fun j _ => D.refl j _) ?_
      rintro p ⟨⟩
      exact hnone
    · obtain ⟨hI, hG, hdone, hfailed⟩ := hsome _ hs
      refine h.update hI (fun j hij => D.others hij h.inv hG) ?_
      rintro p ⟨⟩
      rcases hr with rfl | rfl
      · exact hfailed
      · exact hdone

/-- The run theorem: if every program meets its obligation, the invariant holds in every state that
an allowed run reaches. -/
theorem reaches (hprog : ∀ p i s, D.Inv s → D.Meets i (Y.prog p i) s fun _ _ => True)
    {l : List (Act P E)} (hs : D.Inv s) (h : Y.Reaches D.Allows (System.initial s) l x) : D.Good x :=
  h.keeps (fun _ _ _ ha hx' hx => hx.step hprog ha hx') ⟨hs, fun _ _ hp => nomatch hp⟩

/-- What a call of a run does to the state. -/
theorem Good.guar (h : D.Good x) {k : Option S → Prog C S Unit Unit}
    (hi : x.sessions i = some (.call c k)) (hA : D.Assumes i c x.state) {s' : S} (hs' : Y.exec i c x.state = some s') :
    D.Guar i c x.state s' := by
  obtain ⟨s₀, hs₀, hm⟩ := h.meets i _ hi
  exact ((hm x.state h.inv hs₀ hA).2 s' hs').2.1

/-- What an act of a run does to the state, if it does not come from the environment. -/
theorem Good.act {R : S → S → Prop} {x' : Conf C S} {a : Act P E} (h : D.Good x) (ha : D.Allows x a)
    (hx' : Y.step x a = some x') (hrefl : R x.state x.state) (hguar : ∀ i c s', D.Guar i c x.state s' → R x.state s')
    (hclose : ∀ i, R x.state (Y.close i x.state)) (henv : ∀ e s', a = .env e → Y.env e x.state = some s' → R x.state s') :
    R x.state x'.state := by
  cases a with
  | openSession i p =>
    simp only [System.step] at hx'
    split at hx'
    · cases hx'
      exact hrefl
    · cases hx'
  | close i =>
    cases hx'
    exact hclose i
  | env e =>
    obtain ⟨s', hs', rfl⟩ := map_eq_some_iff.mp hx'
    exact henv e s' rfl hs'
  | call i a =>
    obtain ⟨c, k, hi, s', r, rfl, ⟨rfl, -⟩ | ⟨hs, -⟩⟩ := System.step_call hx'
    · exact hrefl
    · exact hguar i c s' (h.guar hi (ha c (by simp [Conf.next, hi])) hs)

end Discipline

end AutoSql
