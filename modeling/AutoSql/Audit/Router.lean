/-
AutoSql/Audit/Router.lean

`Router.Deliver`: notifications are handled until one attempt succeeds, and not again.

The look at the set of delivered keys and the mark in it are two critical sections, and
the handler runs between them.  A step here is one of the two sections or one attempt of
the handler, and the calls that are under way take their steps in any order.  So two
calls of one pair can both find it not delivered, and both handle it.

Main result: `handled_once`, for runs in which the calls of one pair do not overlap.
-/
import AutoSql.Lib.GoString

namespace AutoSql.AuditLog

open Function

/-- A notification, as far as the router reads it: its channel and the hash of its record. -/
structure Notification where
  channel : GoString
  hash : GoString
  deriving DecidableEq

def Notification.key (n : Notification) : GoString := n.channel ++ 0 :: n.hash

/-- Where a call of `Deliver` stands; `handle left` has `left` attempts after the next one. -/
inductive Phase
  | look
  | handle (left : Nat)
  | mark
  | returned (ok : Bool)
  deriving DecidableEq

/-- Between its two critical sections. -/
def Phase.Busy (p : Phase) : Prop := p = .mark ∨ ∃ left, p = .handle left

/-- The keys marked as delivered, the calls made so far, and the notifications for which the handler
returned nil. -/
structure Router where
  deliver : List GoString := []
  calls : Nat → Option (Notification × Phase) := fun _ => none
  handled : List Notification := []

/-- `go i ok` is the next step of call `i`, in which the handler returns nil or not. -/
inductive Act
  | call (i : Nat) (n : Notification)
  | go (i : Nat) (ok : Bool)

namespace Router

variable (retries : Int)

def move (r : Router) (i : Nat) (n : Notification) (p : Phase) : Router := { r with calls := update r.calls i (some (n, p)) }

def step (r : Router) : Act → Option Router
  | .call i n =>
    match r.calls i with
    | none => some (r.move i n (if n.channel = [] ∨ n.hash = [] then .returned false else .look))
    | some _ => none
  | .go i ok =>
    match r.calls i, ok with
    | some (n, .look), _ => some (r.move i n (if n.key ∈ r.deliver then .returned true else .handle (retries - 1).toNat))
    | some (n, .handle _), true => some { r.move i n .mark with handled := n :: r.handled }
    | some (n, .handle 0), false => some (r.move i n (.returned false))
    | some (n, .handle (k + 1)), false => some (r.move i n (.handle k))
    | some (n, .mark), _ => some { r.move i n (.returned true) with deliver := n.key :: r.deliver }
    | _, _ => none

/-- The states of the runs whose acts are all in `A`. -/
inductive Reaches (A : Router → Act → Prop) : Router → Prop
  | new : Reaches A {}
  | step {r r' : Router} {a : Act} : Reaches A r → A r a → r.step retries a = some r' → Reaches A r'

/-- Channels have no zero byte, and a call looks only when no other call of its pair is busy. -/
def Apart (r : Router) : Act → Prop
  | .call _ n => 0 ∉ n.channel
  | .go i _ => ∀ n, r.calls i = some (n, .look) → ∀ j p, r.calls j = some (n, p) → ¬ p.Busy

/-- What is true of a call of `n` that stands at `p`. -/
def Fits (handled : List Notification) (n : Notification) (p : Phase) : Prop :=
  0 ∉ n.channel ∧ (p = .mark ∨ p = .returned true → n ∈ handled) ∧ ∀ left, p = .handle left → n ∉ handled

structure Once (r : Router) : Prop where
  fits : ∀ {i n p}, r.calls i = some (n, p) → Fits r.handled n p
  one : ∀ {i j n p q}, r.calls i = some (n, p) → r.calls j = some (n, q) → p.Busy → q.Busy → i = j
  nodup : r.handled.Nodup
  marked : ∀ {k}, k ∈ r.deliver → ∃ n ∈ r.handled, 0 ∉ n.channel ∧ n.key = k
  due : ∀ {n}, n ∈ r.handled → n.key ∈ r.deliver ∨ ∃ i, r.calls i = some (n, .mark)

variable {retries} {r r' : Router} {a : Act} {n : Notification} {i : Nat} {p : Phase}

theorem move_calls (j : Nat) : (r.move i n p).calls j = if j = i then some (n, p) else r.calls j := update_apply ..

theorem key_inj {m : Notification} (hm : 0 ∉ m.channel) (hn : 0 ∉ n.channel) (h : m.key = n.key) : m = n := by
  cases m
  cases n
  obtain ⟨rfl, rfl⟩ := GoString.cut_unique hm hn h
  rfl

/-- Call `i` goes on to `p`, and is not the mark that its notification still needs; `n` may be handled by it. -/
theorem Once.move {handled : List Notification} (h : r.Once) (hf : Fits handled n p)
    (hp : p.Busy → ∀ {j q}, r.calls j = some (n, q) → q.Busy → j = i) (hi : ∀ {m}, r.calls i = some (m, .mark) → m.key ∈ r.deliver)
    (hd : handled.Nodup) (hh : ∀ {m}, m ∈ handled ↔ m ∈ r.handled ∨ m = n ∧ p = .mark) : Once { r.move i n p with handled } where
  fits {j m q} hj := by
    replace hj := (move_calls j).symm.trans hj
    split at hj
    next => grind
    next hji =>
      have hm := h.fits hj
      refine ⟨hm.1, fun hq => hh.mpr (.inl (hm.2.1 hq)), fun k hk hmem => ?_⟩
      rcases hh.mp hmem with hmem | ⟨rfl, hmark⟩
      · exact hm.2.2 k hk hmem
      · exact hji (hp (.inl hmark) hj (.inr ⟨k, hk⟩))
  one {j k m q q'} hj hk hq hq' := by
    have := @h.one j k m q q'
    grind [move_calls]
  nodup := hd
  marked hk := (h.marked hk).imp fun m hm => ⟨hh.mpr (.inl hm.1), hm.2⟩
  due {m} hm := by
    rcases hh.mp hm with hm | ⟨rfl, rfl⟩
    · refine (h.due hm).elim .inl fun ⟨j, hj⟩ => ?_
      by_cases hji : j = i
      · exact .inl (hi (hji ▸ hj))
      · exact .inr ⟨j, (move_calls j).trans (by rwa [if_neg hji])⟩
    · exact .inr ⟨i, (move_calls i).trans (if_pos rfl)⟩

theorem Once.step (h : r.Once) (ha : r.Apart a) (hs : r.step retries a = some r') : r'.Once := by
  cases a with
  | call i n =>
    simp only [Router.step] at hs
    split at hs
    all_goals cases hs
    refine h.move ⟨ha, ?_, ?_⟩ ?_ ?_ h.nodup ?_ <;> grind [Phase.Busy]
  | go i ok =>
    simp only [Router.step] at hs
    split at hs
    all_goals cases hs
    next n hi =>
      have hn := (h.fits hi).1
      split
      · obtain ⟨m, hm, hmc, hk⟩ := h.marked ‹_›
        refine h.move ⟨hn, fun _ => key_inj hmc hn hk ▸ hm, nofun⟩ ?_ ?_ h.nodup ?_ <;> grind [Phase.Busy]
      · refine h.move ⟨hn, by simp, fun _ _ hh => ?_⟩ (fun _ {j q} hj hq => (ha n hi j q hj hq).elim) (by simp [hi]) h.nodup (by simp)
        rcases h.due hh with hd | ⟨j, hj⟩
        · contradiction
        · exact ha n hi j _ hj (.inl rfl)
    next n left hi =>
      have hn := h.fits hi
      refine h.move ⟨hn.1, fun _ => List.mem_cons_self, nofun⟩ (fun _ {j q} hj hq => h.one hj hi hq (.inr ⟨_, rfl⟩)) (by simp [hi])
        (h.nodup.cons (hn.2.2 _ rfl)) (by simp [or_comm])
    next n hi => refine h.move ⟨(h.fits hi).1, by simp, by simp⟩ ?_ ?_ h.nodup ?_ <;> grind [Phase.Busy]
    next n k hi =>
      have hn := h.fits hi
      exact h.move ⟨hn.1, by simp, fun _ _ => hn.2.2 _ rfl⟩ (fun _ {j q} hj hq => h.one hj hi hq (.inr ⟨_, rfl⟩)) (by simp [hi]) h.nodup (by simp)
    next n hi =>
      have hn := h.fits hi
      have h' : Once { r with deliver := n.key :: r.deliver } := { h with
        marked := fun hk => (List.mem_cons.mp hk).elim (fun hk => ⟨n, hn.2.1 (.inl rfl), hn.1, hk.symm⟩) h.marked
        due := fun hm => (h.due hm).imp_left (List.mem_cons_of_mem _) }
      exact h'.move ⟨hn.1, fun _ => hn.2.1 (.inl rfl), nofun⟩ (by simp [Phase.Busy]) (by grind) h.nodup (by simp [Router.move])

theorem Reaches.once (h : Reaches retries Apart r) : r.Once := by
  induction h with
  | new => exact ⟨nofun, nofun, .nil, nofun, nofun⟩
  | step _ ha hs ih => exact ih.step ha hs

/-- If calls of one pair do not overlap, the handler returns nil for it at most once, a call returns nil
only if the pair was handled, and a call that looks before that goes on to the handler. -/
theorem handled_once (h : Reaches retries Apart r) (n : Notification) :
    r.handled.count n ≤ 1 ∧ ∀ i, (r.calls i = some (n, .returned true) → n ∈ r.handled) ∧
      ∀ ok, r.calls i = some (n, .look) → n ∉ r.handled → r.step retries (.go i ok) = some (r.move i n (.handle (retries - 1).toNat)) := by
  have ho := h.once
  refine ⟨List.nodup_iff_count_le_one.mp ho.nodup n, fun i => ⟨fun hi => (ho.fits hi).2.1 (.inr rfl), fun ok hi hn => ?_⟩⟩
  have hk : n.key ∉ r.deliver := fun hk => by
    obtain ⟨m, hm, hmc, hkey⟩ := ho.marked hk
    exact hn (key_inj hmc (ho.fits hi).1 hkey ▸ hm)
  simp only [step, hi, if_neg hk]

theorem handled_once_called : step 3 (move {} 0 ⟨str "ops", str "h"⟩ .look) (.go 0 true) =
    some ((move {} 0 ⟨str "ops", str "h"⟩ .look).move 0 ⟨str "ops", str "h"⟩ (.handle 2)) :=
  have hc : 0 ∉ str "ops" := by decide
  ((handled_once (.step (a := .call 0 ⟨str "ops", str "h"⟩) .new hc rfl) _).2 0).2 true rfl List.not_mem_nil

/-- Two calls look before either of them marks, and both handle the notification. -/
theorem overlap_handled_twice : ∃ r, Reaches 3 (fun _ _ => True) r ∧ r.handled.count ⟨str "ops", str "h"⟩ = 2 := by
  have h₀ : Reaches 3 (fun _ _ => True) _ := .step (a := .call 0 ⟨str "ops", str "h"⟩) .new trivial rfl
  have h₁ := h₀.step (a := .call 1 ⟨str "ops", str "h"⟩) trivial rfl
  have h₂ := h₁.step (a := .go 0 true) trivial rfl
  have h₃ := h₂.step (a := .go 1 true) trivial rfl
  have h₄ := h₃.step (a := .go 0 true) trivial rfl
  exact ⟨_, h₄.step (a := .go 1 true) trivial rfl, by decide⟩

end Router
end AutoSql.AuditLog
