/-
AutoSql/Lib/Fallible.lean

Calls that can fail.  The models write Go's `if err != nil { return err }` as
the monad of `Except`; a successful run is then taken apart call by call with
`bind_ok`, `guard_ok` and `mapM_ok`.
-/
import Mathlib

namespace AutoSql.Fallible

open List

variable {ε α β : Type}

variable {l : List α} {ys : List β} {f : α → Except ε β} {x : Except ε α} {R : α → β → Prop} {b : β} {e : ε}

theorem bind_ok : (x >>= f) = .ok b ↔ ∃ a, x = .ok a ∧ f a = .ok b := by
  cases x with
  | error | ok => simp [bind, Except.bind]

theorem bind_error : (x >>= f) = .error e ↔ x = .error e ∨ ∃ a, x = .ok a ∧ f a = .error e := by
  cases x <;> simp [bind, Except.bind]

theorem error_bind : ((.error e : Except ε α) >>= f) = .error e := rfl

theorem eq_ok_of_isOk (h : x.isOk = true) (a : α) : x = .ok (x.toOption.getD a) := by
  cases x with
  | error e => cases h
  | ok b => rfl

/-- A check that returns an error if it fails. -/
theorem guard_ok {c : Prop} [Decidable c] {b : α} : (if c then Except.error e else x) = .ok b ↔ ¬ c ∧ x = .ok b := by
  split_ifs with h <;> simp [h]

/-- `if c { return e }`. -/
def failIf (c : Prop) [Decidable c] (e : ε) : Except ε Unit := if c then .error e else .ok ()

theorem failIf_bind_ok {c : Prop} [Decidable c] {f : Unit → Except ε β} :
    (failIf c e >>= f) = .ok b ↔ ¬ c ∧ f () = .ok b := by
  unfold failIf
  split_ifs with h
  · simp [h, error_bind]
  · simp [h, bind, Except.bind]

theorem mapM_ok (h : l.mapM f = .ok ys) : List.Forall₂ (fun x y => f x = .ok y) l ys := by
  induction l generalizing ys with
  | nil =>
    cases h
    exact .nil
  | cons x l ih =>
    rw [mapM_cons, bind_ok] at h
    obtain ⟨y, hy, h⟩ := h
    rw [bind_ok] at h
    obtain ⟨ys', hys, h⟩ := h
    cases h
    exact .cons hy (ih hys)

theorem mapM_some {f : α → Option β} (h : l.mapM f = some ys) : List.Forall₂ (fun x y => f x = some y) l ys := by
  induction l generalizing ys with
  | nil =>
    cases h
    exact .nil
  | cons x l ih =>
    rw [mapM_cons] at h
    obtain ⟨y, hy, h⟩ := Option.bind_eq_some_iff.mp h
    obtain ⟨ys', hys, h⟩ := Option.bind_eq_some_iff.mp h
    cases h
    exact .cons hy (ih hys)

/-- The input at the index of a result. -/
theorem forall₂_getElem? (h : List.Forall₂ R l ys) {i : Nat}
    {y : β} (hy : ys[i]? = some y) : ∃ x, l[i]? = some x ∧ R x y := by
  obtain ⟨hi, rfl⟩ := List.getElem?_eq_some_iff.mp hy
  have hl : i < l.length := by rw [h.length_eq]; exact hi
  exact ⟨l[i], getElem?_eq_getElem hl, h.get hl hi⟩

theorem forall₂_mem (h : List.Forall₂ R l ys) : ∀ x ∈ l, ∃ y ∈ ys, R x y := by
  intro x hx
  obtain ⟨i, hi, rfl⟩ := mem_iff_getElem.mp hx
  have hy : i < ys.length := by rw [← h.length_eq]; exact hi
  exact ⟨ys[i], getElem_mem hy, h.get hi hy⟩

theorem forall₂_imp_of_mem {S : α → β → Prop} (h : List.Forall₂ R l ys)
    (hRS : ∀ x ∈ l, ∀ y, R x y → S x y) : List.Forall₂ S l ys := by
  induction h with
  | nil => exact .nil
  | cons hxy _ ih =>
    rw [forall_mem_cons] at hRS
    exact .cons (hRS.1 _ hxy) (ih hRS.2)

theorem map_eq_of_forall₂ {γ : Type} {f : α → γ} {g : β → γ}
    (h : List.Forall₂ (fun x y => f x = g y) l ys) : l.map f = ys.map g := by
  induction h with
  | nil => rfl
  | cons hxy _ ih => rw [map_cons, map_cons, hxy, ih]

theorem mapM_mem (h : l.mapM f = .ok ys) : ∀ y ∈ ys, ∃ x ∈ l, f x = .ok y := by
  intro y hy
  obtain ⟨i, hi⟩ := mem_iff_getElem?.mp hy
  obtain ⟨x, hx, hxy⟩ := forall₂_getElem? (mapM_ok h) hi
  exact ⟨x, mem_of_getElem? hx, hxy⟩

/-- If every element succeeds, so does the list. -/
theorem exists_mapM_ok (h : ∀ x ∈ l, ∃ y, f x = .ok y ∧ R x y) : ∃ ys, l.mapM f = .ok ys ∧ List.Forall₂ R l ys := by
  induction l with
  | nil => exact ⟨[], rfl, .nil⟩
  | cons x l ih =>
    rw [forall_mem_cons] at h
    obtain ⟨y, hy, hxy⟩ := h.1
    obtain ⟨ys, hys, hl⟩ := ih h.2
    refine ⟨y :: ys, ?_, .cons hxy hl⟩
    rw [mapM_cons, hy, hys]
    rfl

theorem map_ok {f : α → β} : x.map f = .ok b ↔ ∃ a, x = .ok a ∧ f a = b := by
  cases x with
  | error | ok => simp [Except.map]

theorem mapError_ok {ε' : Type} {f : ε → ε'} {a : α} : x.mapError f = .ok a ↔ x = .ok a := by
  cases x <;> simp [Except.mapError]

/-- The rule for loops that can fail: `I done` holds after the items `done`. -/
theorem foldlM_inv {σ : Type} {f : σ → α → Except ε σ} {I : List α → σ → Prop} {s t : σ} (h : l.foldlM f s = .ok t)
    (hinit : I [] s) (hstep : ∀ done x s s', I done s → f s x = .ok s' → I (done ++ [x]) s') : I l t := by
  suffices loop : ∀ rest done s, I done s → rest.foldlM f s = .ok t → I (done ++ rest) t from loop l [] s hinit h
  intro rest
  induction rest with
  | nil =>
    rintro done s hs ⟨⟩
    rwa [append_nil]
  | cons x rest ih =>
    intro done s hs h
    rw [foldlM_cons, bind_ok] at h
    obtain ⟨s', hs', h⟩ := h
    have := ih (done ++ [x]) s' (hstep done x s s' hs hs') h
    rwa [append_assoc] at this

/-- A loop none of whose steps fails. -/
theorem exists_foldlM_ok {σ : Type} {f : σ → α → Except ε σ} {I : σ → Prop} {s : σ} (hs : I s)
    (hstep : ∀ x ∈ l, ∀ s, I s → ∃ s', f s x = .ok s' ∧ I s') : ∃ t, l.foldlM f s = .ok t ∧ I t := by
  induction l generalizing s with
  | nil => exact ⟨s, rfl, hs⟩
  | cons x l ih =>
    rw [forall_mem_cons] at hstep
    obtain ⟨s', hx, hs'⟩ := hstep.1 s hs
    rw [foldlM_cons, hx]
    exact ih hs' hstep.2

end AutoSql.Fallible
