/-
AutoSql/Lib/Cut.lean

Stopping a program at a point of one's choice.

The rules of `Lib/Proc.lean` speak about all replies; they never say that a certain
state can be reached.  Here a run is cut: the first replies are all `done`, and then
the program is stopped.  That such replies exist rests on `Finite`: whatever a program
does, it depends only on finitely many of the replies to come, and hands the rest on.
-/
import AutoSql.Lib.Proc

namespace AutoSql.Proc

variable {S ε α β : Type}

/-- Every run uses up `k` replies, for some `k`, and depends on no others. -/
def Finite (p : Proc S ε α) : Prop :=
  ∀ y : Sys S, ∃ k, ∀ z : Sys S, z.state = y.state → (∀ n < k, z.replies n = y.replies n) →
    (p z).1 = (p y).1 ∧ (p z).2.state = (p y).2.state ∧ (p z).2.replies = fun n => z.replies (n + k)

namespace Finite

theorem pure (a : α) : Finite (pure a : Proc S ε α) := fun _ => ⟨0, fun _ hs _ => ⟨rfl, hs, rfl⟩⟩

theorem fail (e : ε) : Finite (fail e : Proc S ε α) := fun _ => ⟨0, fun _ hs _ => ⟨rfl, hs, rfl⟩⟩

theorem look : Finite (look : Proc S ε S) := fun _ => ⟨0, fun _ hs _ => ⟨congrArg Outcome.ok hs, hs, rfl⟩⟩

theorem keep (f : S → S) : Finite (keep f : Proc S ε Unit) := fun _ => ⟨0, fun _ hs _ => ⟨rfl, congrArg f hs, rfl⟩⟩

theorem call (act : S → Option S) (e : ε) : Finite (call act e) := by
  intro y
  refine ⟨1, fun z hs hz => ?_⟩
  have h0 : z.replies 0 = y.replies 0 := hz 0 Nat.one_pos
  unfold Proc.call
  rw [h0, hs]
  cases y.replies 0 with
  | done => cases act y.state <;> exact ⟨rfl, rfl, rfl⟩
  | failed | stopped => exact ⟨rfl, rfl, rfl⟩

theorem ask (e : ε) : Finite (ask e : Proc S ε Unit) := call _ e

theorem stopped : Finite (fun y => (.stopped, y) : Proc S ε α) := fun _ => ⟨0, fun _ hs _ => ⟨rfl, hs, rfl⟩⟩

/-- The replies that a program and what follows its end use up, one after the other. -/
theorem after {p : Proc S ε α} {g : Outcome ε α → Proc S ε β} (hp : Finite p) (hg : ∀ r, Finite (g r)) :
    Finite fun y => g (p y).1 (p y).2 := by
  intro y
  obtain ⟨k, hk⟩ := hp y
  obtain ⟨k', hk'⟩ := hg (p y).1 (p y).2
  have hrest : (p y).2.replies = fun n => y.replies (n + k) := (hk y rfl fun _ _ => rfl).2.2
  refine ⟨k' + k, fun z hs hz => ?_⟩
  obtain ⟨h₁, h₂, h₃⟩ := hk z hs fun n hn => hz n (by omega)
  have hz' : ∀ n < k', (p z).2.replies n = (p y).2.replies n := by
    intro n hn
    rw [h₃, hrest]
    exact hz (n + k) (by omega)
  obtain ⟨h₁', h₂', h₃'⟩ := hk' (p z).2 h₂ hz'
  dsimp only
  rw [h₁]
  refine ⟨h₁', h₂', h₃'.trans ?_⟩
  funext n
  rw [h₃]
  exact congrArg z.replies (Nat.add_assoc n k' k)

theorem bind {p : Proc S ε α} {f : α → Proc S ε β} (hp : Finite p) (hf : ∀ a, Finite (f a)) : Finite (p >>= f) := by
  let g (r : Outcome ε α) : Proc S ε β := r.casesOn f Proc.fail fun y => (.stopped, y)
  have hrun : (p >>= f) = fun y => g (p y).1 (p y).2 := by
    funext y
    rw [run_bind]
    cases (p y).1 <;> rfl
  rw [hrun]
  refine hp.after fun r => ?_
  cases r with
  | ok a => exact hf a
  | error e => exact fail e
  | stopped => exact stopped

theorem onError {p : Proc S ε α} {h : ε → Proc S ε α} (hp : Finite p) (hh : ∀ e, Finite (h e)) : Finite (onError p h) := by
  let g (r : Outcome ε α) : Proc S ε α := r.casesOn Pure.pure h fun y => (.stopped, y)
  have hrun : Proc.onError p h = fun y => g (p y).1 (p y).2 := by
    funext y
    unfold Proc.onError
    rcases p y with ⟨_ | _ | _, y'⟩ <;> rfl
  rw [hrun]
  refine hp.after fun r => ?_
  cases r with
  | ok a => exact pure a
  | error e => exact hh e
  | stopped => exact stopped

theorem onlyIf {c : Prop} [Decidable c] {q : Proc S ε Unit} (hq : Finite q) : Finite (onlyIf c q) := by
  unfold Proc.onlyIf
  split_ifs
  · exact hq
  · exact pure ()

theorem forEach {f : β → Proc S ε Unit} (hf : ∀ x, Finite (f x)) (l : List β) : Finite (forEach f l) := by
  induction l with
  | nil => exact pure ()
  | cons x l ih => exact (hf x).bind fun _ => ih

end Finite

/-- The program can be stopped in the state `s'`. -/
def Cuts (p : Proc S ε α) (s s' : S) : Prop :=
  ∃ replies, (p ⟨s, replies⟩).1 = .stopped ∧ (p ⟨s, replies⟩).2.state = s'

namespace Cuts

variable {s s₁ s' : S} {p : Proc S ε α} {f : α → Proc S ε β}

/-- Any call can be stopped before it takes effect. -/
theorem call {act : S → Option S} {e : ε} : Cuts (call act e) s s := ⟨fun _ => .stopped false, rfl, rfl⟩

theorem first (h : Cuts p s s') : Cuts (p >>= f) s s' := by
  obtain ⟨replies, h₁, h₂⟩ := h
  refine ⟨replies, ?_, ?_⟩
  · rw [run_bind, h₁]
  · rw [run_bind, h₁]
    exact h₂

/-- The first program comes to its end, and the second is stopped. -/
theorem second {Q : α → S → Prop} {E : S → Prop} (hp : Finite p) (h : Holds (· = .done) (· = s) p Q E) (hE : ∀ s, ¬ E s)
    (hf : ∀ a s₁, Q a s₁ → Cuts (f a) s₁ s') : Cuts (p >>= f) s s' := by
  obtain ⟨a, ha, hQ⟩ := h.returns hE (y := ⟨s, fun _ => .done⟩) (fun _ => rfl) rfl
  obtain ⟨k, hk⟩ := hp ⟨s, fun _ => .done⟩
  obtain ⟨replies, h₁, h₂⟩ := hf a _ hQ
  -- the replies of the cut, after as many as the first program uses up
  let late : Nat → Reply := fun n => if n < k then .done else replies (n - k)
  obtain ⟨hk₁, hk₂, hk₃⟩ := hk ⟨s, late⟩ rfl fun n hn => if_pos hn
  have hrest : (p ⟨s, late⟩).2 = ⟨(p ⟨s, fun _ => .done⟩).2.state, replies⟩ := by
    have hlate : (p ⟨s, late⟩).2.replies = replies := by
      rw [hk₃]
      funext n
      show (if n + k < k then Reply.done else replies (n + k - k)) = _
      rw [if_neg (by omega), Nat.add_sub_cancel]
    rw [← hk₂]
    exact congrArg (Sys.mk _) hlate
  refine ⟨late, ?_, ?_⟩
  · rw [run_bind, hk₁, ha]
    rw [hrest]
    exact h₁
  · rw [run_bind, hk₁, ha]
    rw [hrest]
    exact h₂

end Cuts

end AutoSql.Proc
