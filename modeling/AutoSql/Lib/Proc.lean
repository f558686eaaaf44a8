/-
AutoSql/Lib/Proc.lean

Programs whose calls to the outside can fail or never return.

A program of type `Proc S ε α` works on a state `S` that outlives it: a database,
a directory, a log.  Everything it does to that state is a `call`, and for each
call the outside gives a `Reply`: the call is done, it reports a failure, or the
program stops there.  In the last two cases it is open whether the call had taken
effect.  The replies to come are part of the system's state, so a run is a
function of them and "for every run" is a quantifier over streams of replies.

`Holds A P p Q E` is the judgement about such programs: with replies in `A`, from
a state in `P`, the program ends in `Q` if it returns a value, and in `E` if it
returns an error or stops.  With `A` everything, it is safety under all faults; with
`A` only `done` and `E` empty, it is total correctness of the run without faults.
-/
import Mathlib

namespace AutoSql

/-- How the outside answers one call.  `took` says whether the call had its
effect although it was not reported as done. -/
inductive Proc.Reply
  | done
  | failed (took : Bool)
  | stopped (took : Bool)
  deriving DecidableEq

inductive Proc.Outcome (ε α : Type)
  | ok (value : α)
  | error (e : ε)
  | stopped
  deriving DecidableEq

/-- The state and the replies to the calls to come. -/
structure Proc.Sys (S : Type) where
  state : S
  replies : Nat → Proc.Reply

def Proc (S ε α : Type) : Type := Proc.Sys S → Proc.Outcome ε α × Proc.Sys S

namespace Proc

variable {S ε α β : Type}

instance : Monad (Proc S ε) where
  pure a := fun y => (.ok a, y)
  bind p f := fun y =>
    match p y with
    | (.ok a, y') => f a y'
    | (.error e, y') => (.error e, y')
    | (.stopped, y') => (.stopped, y')

/-- Give up with an error. -/
def fail (e : ε) : Proc S ε α := fun y => (.error e, y)

/-- The state; reading what the program itself knows costs no call. -/
def look : Proc S ε S := fun y => (.ok y.state, y)

/-- Change what the program itself keeps. -/
def keep (f : S → S) : Proc S ε Unit := fun y => (.ok (), ⟨f y.state, y.replies⟩)

variable (act : S → Option S)

/-- One call.  The outside may refuse it (`act s = none`), which is an error. -/
def call (e : ε) : Proc S ε Unit := fun y =>
  let rest := fun n => y.replies (n + 1)
  match y.replies 0 with
  | .done =>
    match act y.state with
    | some s => (.ok (), ⟨s, rest⟩)
    | none => (.error e, ⟨y.state, rest⟩)
  | .failed took => (.error e, ⟨if took then (act y.state).getD y.state else y.state, rest⟩)
  | .stopped took => (.stopped, ⟨if took then (act y.state).getD y.state else y.state, rest⟩)

/-- A call that only reads. -/
def ask (e : ε) : Proc S ε Unit := call some e

/-- Run `h` on the error of `p`; a stopped program runs nothing more. -/
def onError (p : Proc S ε α) (h : ε → Proc S ε α) : Proc S ε α := fun y =>
  match p y with
  | (.error e, y') => h e y'
  | r => r

/-- A call whose failure is not an error; the result says whether it was done. -/
def attempt (e : ε) : Proc S ε Bool := onError (do call act e; pure true) fun _ => pure false

def onlyIf (c : Prop) [Decidable c] (p : Proc S ε Unit) : Proc S ε Unit := if c then p else pure ()

def forEach (f : β → Proc S ε Unit) : List β → Proc S ε Unit
  | [] => pure ()
  | x :: l => do
    f x
    forEach f l

theorem run_bind (p : Proc S ε α) (f : α → Proc S ε β) (y : Sys S) : (p >>= f) y = match (p y).1 with
    | .ok a => f a (p y).2
    | .error e => (.error e, (p y).2)
    | .stopped => (.stopped, (p y).2) := by
  show (match p y with | (.ok a, y') => f a y' | (.error e, y') => (.error e, y') | (.stopped, y') => (.stopped, y')) = _
  rcases p y with ⟨_ | _ | _, y'⟩ <;> rfl

variable {e : ε} {y : Sys S} {f : Unit → Proc S ε β} {Q : Outcome ε β × Sys S → Prop}

/-- A call that is done. -/
theorem run_call {act : S → Option S} {s s' : S} {R : Nat → Reply} (h : R 0 = .done)
    (ha : act s = some s') : (call act e >>= f) ⟨s, R⟩ = f () ⟨s', fun n => R (n + 1)⟩ := by
  rw [run_bind]
  simp only [call, h, ha]

theorem run_ask {s : S} {R : Nat → Reply} (h : R 0 = .done) :
    (ask e >>= f) ⟨s, R⟩ = f () ⟨s, fun n => R (n + 1)⟩ := run_call h rfl

/-- A call that is not done ends the program. -/
theorem call_ne_ok {f : S → Option S} (h : y.replies 0 ≠ .done) (a : Unit) : (call f e y).1 ≠ .ok a := by
  unfold call
  cases h0 : y.replies 0 with
  | done => exact absurd h0 h
  | failed | stopped => exact nofun

/-- What follows leaves the state alone. -/
theorem state_bind {p : Proc S ε α} {f : α → Proc S ε β} (hf : ∀ a y, (f a y).2.state = y.state) (y : Sys S) :
    ((p >>= f) y).2.state = (p y).2.state := by
  rw [run_bind]
  cases (p y).1 with
  | ok a => exact hf a _
  | error e => rfl
  | stopped => rfl

/-- A call that was not reported as done. -/
theorem took_cases (s : S) (took : Bool) :
    (if took then (act s).getD s else s) = s ∨ act s = some (if took then (act s).getD s else s) := by
  cases took with
  | false => exact .inl rfl
  | true =>
    cases act s with
    | none => exact .inl rfl
    | some s => exact .inr rfl

/-- The three ends of a call. -/
theorem call_cases (e : ε) (y : Sys S) :
    (∃ s R, act y.state = some s ∧ call act e y = (.ok (), ⟨s, R⟩)) ∨
      ∃ s R, (s = y.state ∨ act y.state = some s) ∧ (call act e y = (.error e, ⟨s, R⟩) ∨ call act e y = (.stopped, ⟨s, R⟩)) := by
  unfold call
  cases y.replies 0 with
  | done =>
    cases ha : act y.state with
    | some s => exact .inl ⟨s, _, rfl, rfl⟩
    | none => exact .inr ⟨_, _, .inl rfl, .inl rfl⟩
  | failed took => exact .inr ⟨_, _, took_cases act y.state took, .inl rfl⟩
  | stopped took => exact .inr ⟨_, _, took_cases act y.state took, .inr rfl⟩

/-- Whatever the reply, a call has its effect or none. -/
theorem call_state (e : ε) (y : Sys S) :
    (call act e y).2.state = y.state ∨ act y.state = some (call act e y).2.state := by
  rcases call_cases act e y with ⟨s, R, hs, hr⟩ | ⟨s, R, hs, hr | hr⟩ <;> rw [hr]
  · exact .inr hs
  all_goals exact hs

/-- The three ends of a call, and what comes after it if it is done. -/
theorem run_call_elim {act : S → Option S} (hok : ∀ s R, act y.state = some s → Q (f () ⟨s, R⟩))
    (herror : ∀ s R, s = y.state ∨ act y.state = some s → Q (.error e, ⟨s, R⟩))
    (hstopped : ∀ s R, s = y.state ∨ act y.state = some s → Q (.stopped, ⟨s, R⟩)) : Q ((call act e >>= f) y) := by
  rw [run_bind]
  rcases call_cases act e y with ⟨s, R, hs, hr⟩ | ⟨s, R, hs, hr | hr⟩
  · rw [hr]
    exact hok s R hs
  · rw [hr]
    exact herror s R hs
  · rw [hr]
    exact hstopped s R hs

theorem ask_cases (e : ε) (y : Sys S) : ∃ R, ask e y = (.ok (), ⟨y.state, R⟩) ∨ ask e y = (.error e, ⟨y.state, R⟩) ∨
    ask e y = (.stopped, ⟨y.state, R⟩) := by
  rcases call_cases some e y with ⟨s, R, hs, hr⟩ | ⟨s, R, hs, hr⟩
  · cases hs
    exact ⟨R, .inl hr⟩
  · obtain rfl : s = y.state := hs.elim id fun h => (Option.some.inj h).symm
    exact ⟨R, .inr hr⟩

theorem ask_state (e : ε) (y : Sys S) : (ask e y).2.state = y.state := by
  obtain ⟨R, h | h | h⟩ := ask_cases e y <;> rw [h]

theorem run_ask_elim
    (hok : ∀ R, Q (f () ⟨y.state, R⟩)) (herror : ∀ R, Q (.error e, ⟨y.state, R⟩)) (hstopped : ∀ R, Q (.stopped, ⟨y.state, R⟩)) :
    Q ((ask e >>= f) y) := by
  rw [run_bind]
  obtain ⟨R, hr | hr | hr⟩ := ask_cases e y
  · rw [hr]
    exact hok R
  · rw [hr]
    exact herror R
  · rw [hr]
    exact hstopped R

/-- A question whose failure is no error. -/
theorem run_attempt_elim {f : Bool → Proc S ε β}
    (hok : ∀ b R, Q (f b ⟨y.state, R⟩)) (hstopped : ∀ R, Q (.stopped, ⟨y.state, R⟩)) : Q ((attempt some e >>= f) y) := by
  rw [run_bind, attempt, onError, run_bind]
  obtain ⟨R, hr | hr | hr⟩ := ask_cases e y
  · rw [show call some e y = _ from hr]
    exact hok true R
  · rw [show call some e y = _ from hr]
    exact hok false R
  · rw [show call some e y = _ from hr]
    exact hstopped R

theorem bind_ne_ok {p : Proc S ε α} {f : α → Proc S ε β} (h : ∀ a, (p y).1 ≠ .ok a) :
    (∀ b, ((p >>= f) y).1 ≠ .ok b) ∧ ((p >>= f) y).2 = (p y).2 := by
  rw [run_bind]
  cases hp : (p y).1 with
  | ok a => exact absurd hp (h a)
  | error | stopped => exact ⟨nofun, rfl⟩

/-- A program whose value is not used. -/
theorem state_discard (p : Proc S ε α) (b : β) (y : Sys S) : ((p >>= fun _ => pure b : Proc S ε β) y).2 = (p y).2 := by
  rw [run_bind]
  cases (p y).1 <;> rfl

/-- With replies in `A` and from a state in `P`, a returned value is in `Q` and
any other end in `E`. -/
def Holds (A : Reply → Prop) (P : S → Prop) (p : Proc S ε α) (Q : α → S → Prop) (E : S → Prop) : Prop :=
  ∀ y : Sys S, (∀ n, A (y.replies n)) → P y.state → (∀ n, A ((p y).2.replies n)) ∧ match (p y).1 with
      | .ok a => Q a (p y).2.state
      | _ => E (p y).2.state

/-- Whatever its end, the program leaves the state in `E`. -/
abbrev Leaves (A : Reply → Prop) (P : S → Prop) (p : Proc S ε α) (E : S → Prop) : Prop := Holds A P p (fun _ => E) E

/-- Some reply of `A` is a fault. -/
def Faulty (A : Reply → Prop) : Prop := ∃ r, A r ∧ r ≠ .done

theorem not_faulty : ¬ Faulty (· = .done) := by
  rintro ⟨r, hr, hne⟩
  exact hne hr

namespace Holds

variable {A : Reply → Prop} {P P' : S → Prop} {p : Proc S ε α} {Q Q' : α → S → Prop} {E E' : S → Prop}

theorem mono (h : Holds A P p Q E) (hP : ∀ s, P' s → P s) (hQ : ∀ a s, Q a s → Q' a s) (hE : ∀ s, E s → E' s) :
    Holds A P' p Q' E' := by
  intro y hA hy
  obtain ⟨hA', h⟩ := h y hA (hP _ hy)
  refine ⟨hA', ?_⟩
  revert h
  cases (p y).1 with
  | ok a => exact hQ a _
  | error | stopped => exact hE _

theorem pre (h : Holds A P p Q E) (hP : ∀ s, P' s → P s) : Holds A P' p Q E :=
  h.mono hP (fun _ _ => id) fun _ => id

theorem post (h : Holds A P p Q E) (hQ : ∀ a s, Q a s → Q' a s) : Holds A P p Q' E :=
  h.mono (fun _ => id) hQ fun _ => id

/-- Facts that do not depend on the state may be taken out of the precondition. -/
theorem of_pre {c : Prop} (h : c → Holds A P p Q E) : Holds A (fun s => c ∧ P s) p Q E :=
  fun y hA hy => h hy.1 y hA hy.2

/-- A precondition may be split by the state it starts from. -/
theorem of_state (h : ∀ s, P s → Holds A (· = s) p Q E) : Holds A P p Q E :=
  fun y hA hy => h y.state hy y hA rfl

theorem pure (a : α) (h : ∀ s, P s → Q a s) : Holds A P (pure a : Proc S ε α) Q E :=
  fun _ hA hy => ⟨hA, h _ hy⟩

theorem fail (h : ∀ s, P s → E s) : Holds A P (fail e : Proc S ε α) Q E :=
  fun _ hA hy => ⟨hA, h _ hy⟩

theorem look {Q : S → S → Prop} (h : ∀ s, P s → Q s s) : Holds A P (look : Proc S ε S) Q E :=
  fun _ hA hy => ⟨hA, h _ hy⟩

theorem keep {f : S → S} {Q : Unit → S → Prop} (h : ∀ s, P s → Q () (f s)) : Holds A P (keep f : Proc S ε Unit) Q E :=
  fun _ hA hy => ⟨hA, h _ hy⟩

theorem bind {R : β → S → Prop} {f : α → Proc S ε β} (hp : Holds A P p Q E) (hf : ∀ a, Holds A (Q a) (f a) R E) :
    Holds A P (p >>= f) R E := by
  intro y hA hy
  obtain ⟨hA', h⟩ := hp y hA hy
  simp only [Bind.bind]
  revert hA' h
  cases p y with
  | mk r y' =>
    cases r with
    | ok a => exact fun hA' h => hf a y' hA' h
    | error | stopped => exact fun hA' h => ⟨hA', h⟩

/-- A sequence whose first part returns nothing. -/
theorem seq {R : β → S → Prop} {q : Proc S ε Unit} {M : S → Prop}
    (hq : Holds A P q (fun _ => M) E) (hf : Holds A M (f ()) R E) : Holds A P (q >>= f) R E :=
  hq.bind fun _ => hf

theorem may_have_taken {act : S → Option S} {took : Bool} {s : S} (h : E s ∧ ∀ s', act s = some s' → E s') :
    E (if took then (act s).getD s else s) := by
  rcases took_cases act s took with hs | hs
  · exact hs.symm ▸ h.1
  · exact h.2 _ hs

/-- A call leads to `Q` if it is done.  If it is refused, or answered otherwise, it
leads to `E` from the state before or after. -/
theorem call {act : S → Option S} {Q : Unit → S → Prop}
    (hdone : ∀ s, P s → ∀ s', act s = some s' → Q () s') (hrefused : ∀ s, P s → act s = none → E s)
    (hfault : Faulty A → ∀ s, P s → E s ∧ ∀ s', act s = some s' → E s') : Holds A P (call act e) Q E := by
  intro y hA hy
  have rest : ∀ n, A (y.replies (n + 1)) := fun n => hA (n + 1)
  unfold Proc.call
  cases h0 : y.replies 0 with
  | done =>
    cases ha : act y.state with
    | some s' => exact ⟨rest, hdone _ hy s' ha⟩
    | none => exact ⟨rest, hrefused _ hy ha⟩
  | failed | stopped => exact ⟨rest, may_have_taken (hfault ⟨_, hA 0, by simp [h0]⟩ _ hy)⟩

theorem ask {Q : Unit → S → Prop} (hQ : ∀ s, P s → Q () s) (hE : Faulty A → ∀ s, P s → E s) :
    Holds A P (ask e) Q E := by
  refine call ?_ (fun _ _ h => nomatch h) ?_
  · rintro s hs s' ⟨⟩
    exact hQ s hs
  · intro hr s hs
    refine ⟨hE hr s hs, ?_⟩
    rintro s' ⟨⟩
    exact hE hr s hs

theorem onlyIf {c : Prop} [Decidable c] {q : Proc S ε Unit} {Q : Unit → S → Prop} (hq : c → Holds A P q Q E)
    (hn : ¬ c → ∀ s, P s → Q () s) : Holds A P (onlyIf c q) Q E := by
  unfold Proc.onlyIf
  split_ifs with hc
  · exact hq hc
  · exact pure () (hn hc)

/-- The handler starts where the program failed; a program that stops there is done for. -/
theorem onError {h : ε → Proc S ε α} {F : S → Prop} (hp : Holds A P p Q F) (hE : ∀ s, F s → E s)
    (hh : ∀ e, Holds A F (h e) Q E) : Holds A P (onError p h) Q E := by
  intro y hA hy
  obtain ⟨hA', hr⟩ := hp y hA hy
  unfold Proc.onError
  revert hA' hr
  cases p y with
  | mk r y' =>
    cases r with
    | ok a => exact fun hA' hr => ⟨hA', hr⟩
    | error e => exact fun hA' hr => hh e y' hA' hr
    | stopped => exact fun hA' hr => ⟨hA', hE _ hr⟩

/-- The rule for loops: `I done` holds after the items `done`. -/
theorem forEach {f : β → Proc S ε Unit} {l : List β} (I : List β → S → Prop)
    (step : ∀ done x rest, l = done ++ x :: rest → Holds A (I done) (f x) (fun _ => I (done ++ [x])) E) :
    Holds A (I []) (forEach f l) (fun _ => I l) E := by
  suffices loop : ∀ rest done, l = done ++ rest → Holds A (I done) (Proc.forEach f rest) (fun _ => I l) E from
    loop l [] rfl
  intro rest
  induction rest with
  | nil =>
    intro done hl
    have hd : done = l := by simpa using hl.symm
    exact pure () fun s hs => hd ▸ hs
  | cons x rest ih =>
    intro done hl
    exact (step done x rest hl).seq (ih (done ++ [x]) (by simpa using hl))

/-- Nothing starts in the empty precondition. -/
theorem absurd : Holds A (fun _ => False) p Q E := fun _ _ hy => hy.elim

/-- Any program, if nothing is said about its ends. -/
theorem trivial (hA : ∀ r, A r) : Holds A P p (fun _ _ => True) fun _ => True := by
  intro y _ _
  refine ⟨fun _ => hA _, ?_⟩
  cases (p y).1 <;> exact True.intro

/-- Two judgements about one program. -/
theorem and (h : Holds A P p Q E) (h' : Holds A P' p Q' E') :
    Holds A (fun s => P s ∧ P' s) p (fun a s => Q a s ∧ Q' a s) fun s => E s ∧ E' s := by
  intro y hA hy
  obtain ⟨hA', hr⟩ := h y hA hy.1
  obtain ⟨-, hr'⟩ := h' y hA hy.2
  refine ⟨hA', ?_⟩
  revert hr hr'
  cases (p y).1 <;> exact fun hr hr' => ⟨hr, hr'⟩

/-- A run that returns a value. -/
theorem of_ok (h : Holds A P p Q E) {a : α} (hA : ∀ n, A (y.replies n)) (hy : P y.state)
    (hr : (p y).1 = .ok a) : Q a (p y).2.state := by
  have := (h y hA hy).2
  rwa [hr] at this

/-- A run that ends otherwise. -/
theorem of_not_ok (h : Holds A P p Q E) (hA : ∀ n, A (y.replies n)) (hy : P y.state)
    (hr : ∀ a, (p y).1 ≠ .ok a) : E (p y).2.state := by
  have := (h y hA hy).2
  revert this
  cases hy' : (p y).1 with
  | ok a => exact (hr a hy').elim
  | error | stopped => exact id

/-- A program that cannot end otherwise returns a value. -/
theorem returns (h : Holds A P p Q E) (hE : ∀ s, ¬ E s) (hA : ∀ n, A (y.replies n)) (hy : P y.state) :
    ∃ a, (p y).1 = .ok a ∧ Q a (p y).2.state := by
  have := (h y hA hy).2
  revert this
  cases (p y).1 with
  | ok a => exact fun hq => ⟨a, rfl, hq⟩
  | error | stopped => exact fun he => (hE _ he).elim

/-- An assertion about both ends of a program holds after every run. -/
theorem always (h : Leaves A P p E) (hA : ∀ n, A (y.replies n)) (hy : P y.state) : E (p y).2.state := by
  have := (h y hA hy).2
  revert this
  cases (p y).1 <;> exact id

end Holds

theorem Leaves.imp {A : Reply → Prop} {P E E' : S → Prop} {p : Proc S ε α} (h : Leaves A P p E) (hE : ∀ s, E s → E' s) : Leaves A P p E' :=
  h.mono (fun _ => id) (fun _ => hE) hE

/-! ### What a run can do -/

/-- Whatever the replies, the state at the end is in the relation `R` to the state at the start. -/
def Within (R : S → S → Prop) (p : Proc S ε α) : Prop := ∀ y, R y.state (p y).2.state

/-- Every error that the program returns is in `F`. -/
def Raises (F : ε → Prop) (p : Proc S ε α) : Prop := ∀ y e, (p y).1 = .error e → F e

/-- Both, so that a program is gone through once. -/
def Acts (R : S → S → Prop) (F : ε → Prop) (p : Proc S ε α) : Prop := Within R p ∧ Raises F p

namespace Acts

variable {R : S → S → Prop} {F : ε → Prop} {p : Proc S ε α}

theorem mono {R' : S → S → Prop} (h : Acts R F p) (hR : ∀ s s', R s s' → R' s s') : Acts R' F p := ⟨fun y => hR _ _ (h.1 y), h.2⟩

/-- What the relation keeps, the program keeps. -/
theorem holds {A : Reply → Prop} {P : S → Prop} (h : Acts R F p) (hP : ∀ s s', P s → R s s' → P s') (hA : ∀ r, A r) :
    Leaves A P p P := by
  intro y _ hy
  have := hP _ _ hy (h.1 y)
  refine ⟨fun _ => hA _, ?_⟩
  cases (p y).1 <;> exact this

theorem keep {f : S → S} (h : ∀ s, R s (f s)) : Acts R F (keep f : Proc S ε Unit) := ⟨fun y => h y.state, fun _ _ h => nomatch h⟩

section Refl

variable [Std.Refl R]

theorem pure (a : α) : Acts R F (pure a : Proc S ε α) := ⟨fun y => Std.Refl.refl y.state, fun _ _ h => nomatch h⟩

theorem fail (h : F e) : Acts R F (fail e : Proc S ε α) := by
  refine ⟨fun y => Std.Refl.refl y.state, ?_⟩
  rintro y e' ⟨⟩
  exact h

theorem look : Acts R F (look : Proc S ε S) := ⟨fun y => Std.Refl.refl y.state, fun _ _ h => nomatch h⟩

theorem call {act : S → Option S} (h : ∀ s s', act s = some s' → R s s') (hF : F e) : Acts R F (call act e) := by
  refine ⟨fun y => ?_, fun y e' he => ?_⟩
  · rcases call_state act e y with hs | hs
    · rw [hs]
      exact Std.Refl.refl _
    · exact h _ _ hs
  · rcases call_cases act e y with ⟨s, R, -, hr⟩ | ⟨s, R, -, hr | hr⟩ <;> rw [hr] at he
    · cases he
    · cases he
      exact hF
    · cases he

theorem ask (h : F e) : Acts R F (ask e) := by
  refine call ?_ h
  rintro s s' ⟨⟩
  exact Std.Refl.refl _

theorem onlyIf {c : Prop} [Decidable c] {q : Proc S ε Unit} (hq : Acts R F q) : Acts R F (onlyIf c q) := by
  unfold Proc.onlyIf
  split_ifs
  · exact hq
  · exact pure ()

end Refl

section Trans

variable [Trans R R R]

theorem bind {f : α → Proc S ε β} (hp : Acts R F p) (hf : ∀ a, Acts R F (f a)) : Acts R F (p >>= f) := by
  refine ⟨fun y => ?_, fun y e he => ?_⟩
  · have hy := hp.1 y
    rw [run_bind]
    cases (p y).1 with
    | ok a => exact Trans.trans hy ((hf a).1 (p y).2)
    | error | stopped => exact hy
  · rw [run_bind] at he
    cases hr : (p y).1 with
    | ok a =>
      rw [hr] at he
      exact (hf a).2 _ e he
    | error e' =>
      rw [hr] at he
      cases he
      exact hp.2 y e hr
    | stopped =>
      rw [hr] at he
      cases he

theorem seq {q : Proc S ε Unit} (hq : Acts R F q) (hf : Acts R F (f ())) : Acts R F (q >>= f) :=
  hq.bind fun _ => hf

/-- The errors of the program are handled; those of the handler remain. -/
theorem onError {h : ε → Proc S ε α} (hp : Acts R F p) (hh : ∀ e, F e → Acts R F (h e)) : Acts R F (onError p h) := by
  have hrun : ∀ y, R y.state (Proc.onError p h y).2.state ∧ ∀ e, (Proc.onError p h y).1 = .error e → F e := by
    intro y
    have hR := hp.1 y
    have hF := hp.2 y
    unfold Proc.onError
    revert hR hF
    rcases p y with ⟨r, y'⟩
    intro hR hF
    cases r with
    | ok a => exact ⟨hR, nofun⟩
    | error e => exact ⟨Trans.trans hR ((hh e (hF e rfl)).1 y'), (hh e (hF e rfl)).2 y'⟩
    | stopped => exact ⟨hR, nofun⟩
  exact ⟨fun y => (hrun y).1, fun y => (hrun y).2⟩

theorem forEach [Std.Refl R] {f : β → Proc S ε Unit} {l : List β} (h : ∀ x ∈ l, Acts R F (f x)) : Acts R F (forEach f l) := by
  induction l with
  | nil => exact pure ()
  | cons x l ih =>
    rw [List.forall_mem_cons] at h
    exact seq h.1 (ih h.2)

end Trans

end Acts

/-- If the program ends with an error in `G`, the state at the end is in the relation `R` to the state at the start. -/
def WithinOn (G : ε → Prop) (R : S → S → Prop) (p : Proc S ε α) : Prop :=
  ∀ y e, (p y).1 = .error e → G e → R y.state (p y).2.state

namespace WithinOn

variable {F G : ε → Prop} {R : S → S → Prop} {p : Proc S ε α}

/-- A program without such errors. -/
theorem of_raises (h : Raises (fun e => ¬ G e) p) : WithinOn G R p := fun y e he hG => absurd hG (h y e he)

theorem bind [Trans R R R] {f : α → Proc S ε β} (hp : Acts R F p) (hf : ∀ a, WithinOn G R (f a)) : WithinOn G R (p >>= f) := by
  intro y e he hG
  have hy := hp.1 y
  rw [run_bind] at he ⊢
  cases hr : (p y).1 with
  | ok a =>
    rw [hr] at he
    exact Trans.trans hy (hf a _ e he hG)
  | error | stopped => exact hy

/-- What follows has no such errors. -/
theorem bind_raises {f : α → Proc S ε β} (hp : WithinOn G R p) (hf : ∀ a, Raises (fun e => ¬ G e) (f a)) : WithinOn G R (p >>= f) := by
  intro y e he hG
  rw [run_bind] at he ⊢
  cases hr : (p y).1 with
  | ok a =>
    rw [hr] at he
    exact absurd hG (hf a _ e he)
  | error e' =>
    rw [hr] at he
    cases he
    exact hp y e hr hG
  | stopped =>
    rw [hr] at he
    cases he

theorem onlyIf {c : Prop} [Decidable c] {q : Proc S ε Unit} (hq : WithinOn G R q) : WithinOn G R (onlyIf c q) := by
  unfold Proc.onlyIf
  split_ifs
  · exact hq
  · exact of_raises fun _ _ h => nomatch h

end WithinOn

end Proc

end AutoSql
