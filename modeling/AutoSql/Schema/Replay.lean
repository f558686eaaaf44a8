/-
AutoSql/Schema/Replay.lean

Replaying the changes of a comparison on the current resources.

A change acts on a map of resources at the IDs of its two snapshots and at no
other, and what it does at one ID depends only on what the map holds there
(`effect`).  So the history of one ID is the list of the changes that touch
it, and the rest of the run does not matter (`valueAt_filter`).

For the changes that `diff` emits these histories are short: nothing, a single
change, or a rename followed by an alteration of its result.  `Script` lists
the possibilities.  `history_unordered` says that every ID has such a history,
because the matching makes the pairs disjoint; `filter_ordered`, that ordering
the changes respects it, because of the edge from a rename to the alteration of
its result.

Main result: `diff_sound_complete`, every change is enabled when it is reached
and the run ends in the desired resources.
-/
import AutoSql.Schema.Diff

namespace AutoSql.Schema

open Fallible List GoMap

/-! ### Replaying -/

/-- Executes a change, if it is enabled. -/
def replayStep (m : GoMap Resource) (c : Change) : Option (GoMap Resource) :=
  match c.operation, c.before, c.after with
  | .create, _, some a => if m.contains a.id then none else some (m.insert a.id a)
  | .drop, some b, _ => if m.contains b.id then some (m.erase b.id) else none
  | .alter, some b, some a => if m.contains b.id then some (m.insert b.id a) else none
  | .rename, some b, some a =>
    if m.contains b.id && !m.contains a.id then some ((m.erase b.id).insert a.id a) else none
  | _, _, _ => none

/-- Executes the changes in order; none if one of them is not enabled when it is
reached. -/
def replay (m : GoMap Resource) (cs : List Change) : Option (GoMap Resource) := cs.foldlM replayStep m

/-! ### One ID at a time -/

/-- The change has a snapshot with the given ID. -/
def Change.touches (id : GoString) (c : Change) : Bool :=
  c.before.any (id = ·.id) || c.after.any (id = ·.id)

/-- What a change makes of the resource under an ID. -/
def effect (id : GoString) (v : Option Resource) (c : Change) : Option Resource :=
  match c.operation, c.before, c.after with
  | .create, _, some a => if id = a.id then some a else v
  | .drop, some b, _ => if id = b.id then none else v
  | .alter, some b, some a => if id = b.id then some a else v
  | .rename, some b, some a => if id = a.id then some a else if id = b.id then none else v
  | _, _, _ => v

/-- What a change demands of the resource under an ID. -/
def Demands (id : GoString) (v : Option Resource) (c : Change) : Prop :=
  match c.operation, c.before, c.after with
  | .create, _, some a => id = a.id → v = none
  | .drop, some b, _ => id = b.id → v.isSome = true
  | .alter, some b, some _ => id = b.id → v.isSome = true
  | .rename, some b, some a => (id = b.id → v.isSome = true) ∧ (id = a.id → v = none)
  | _, _, _ => False

/-- The resource under an ID after the changes of a list. -/
def valueAt (id : GoString) (v : Option Resource) (cs : List Change) : Option Resource :=
  cs.foldl (effect id) v

section Replay

variable {m m' : GoMap Resource} {c : Change} {cs : List Change}

theorem replayStep_get? (h : replayStep m c = some m') (id : GoString) : m'.get? id = effect id (m.get? id) c := by
  obtain ⟨cid, op, rid, before, after, deps, details⟩ := c
  cases op with
  | create =>
    rcases after with - | a
    · cases h
    · simp only [replayStep] at h
      split_ifs at h
      cases h
      exact get?_insert
  | drop =>
    rcases before with - | b
    · cases h
    · simp only [replayStep] at h
      split_ifs at h
      cases h
      exact get?_erase
  | alter =>
    rcases before with - | b
    · cases h
    · rcases after with - | a
      · cases h
      · simp only [replayStep] at h
        split_ifs at h
        cases h
        exact get?_insert
  | rename =>
    rcases before with - | b
    · cases h
    · rcases after with - | a
      · cases h
      · simp only [replayStep] at h
        split_ifs at h
        cases h
        rw [get?_insert, get?_erase]
        rfl

theorem replay_get? (h : replay m cs = some m') (id : GoString) : m'.get? id = valueAt id (m.get? id) cs := by
  induction cs generalizing m with
  | nil =>
    cases h
    rfl
  | cons c cs ih =>
    rw [replay, foldlM_cons, Option.bind_eq_bind, Option.bind_eq_some_iff] at h
    obtain ⟨m₁, hstep, hrest⟩ := h
    rw [ih hrest, replayStep_get? hstep]
    rfl

theorem replayStep_of_demands (h : ∀ id, Demands id (m.get? id) c) : ∃ m', replayStep m c = some m' := by
  obtain ⟨cid, op, rid, before, after, deps, details⟩ := c
  cases op with
  | create =>
    rcases after with - | a
    · exact (h []).elim
    · have ha : m.get? a.id = none := h a.id rfl
      exact ⟨_, if_neg (by simp [GoMap.contains, ha])⟩
  | drop =>
    rcases before with - | b
    · exact (h []).elim
    · exact ⟨_, if_pos (h b.id rfl)⟩
  | alter =>
    rcases before with - | b
    · exact (h []).elim
    · rcases after with - | a
      · exact (h []).elim
      · exact ⟨_, if_pos (h b.id rfl)⟩
  | rename =>
    rcases before with - | b
    · exact (h []).elim
    · rcases after with - | a
      · exact (h []).elim
      · have hb : (m.get? b.id).isSome = true := (h b.id).1 rfl
        have ha : m.get? a.id = none := (h a.id).2 rfl
        exact ⟨_, if_pos (by simp [GoMap.contains, hb, ha])⟩

/-- A run is possible if every change finds what it demands. -/
theorem replay_of_demands (h : ∀ l₁ c l₂, cs = l₁ ++ c :: l₂ → ∀ id, Demands id (valueAt id (m.get? id) l₁) c) :
    ∃ m', replay m cs = some m' := by
  induction cs generalizing m with
  | nil => exact ⟨m, rfl⟩
  | cons c cs ih =>
    obtain ⟨m₁, hstep⟩ := replayStep_of_demands (h [] c cs rfl)
    rw [replay, foldlM_cons, hstep]
    refine ih fun l₁ c' l₂ heq id => ?_
    rw [replayStep_get? hstep]
    exact h (c :: l₁) c' l₂ (by rw [heq]; rfl) id

end Replay

variable {v : Option Resource} {id : GoString}

theorem effect_of_not_touches {c : Change} (h : c.touches id = false) : effect id v c = v := by
  obtain ⟨cid, op, rid, before, after, deps, details⟩ := c
  cases op <;> rcases before with - | b <;> rcases after with - | a <;>
    simp_all [Change.touches, effect]

theorem demands_of_not_touches {c : Change} (hc : c.shaped = true) (h : c.touches id = false) : Demands id v c := by
  obtain ⟨cid, op, rid, before, after, deps, details⟩ := c
  cases op <;> rcases before with - | b <;> rcases after with - | a <;>
    simp_all [Change.touches, Demands, Change.shaped]

/-- Changes that do not touch an ID do not matter to it. -/
theorem valueAt_filter {cs : List Change} : valueAt id v cs = valueAt id v (cs.filter (·.touches id)) := by
  induction cs generalizing v with
  | nil => rfl
  | cons c cs ih =>
    by_cases h : c.touches id = true
    · rw [filter_cons_of_pos h]
      exact ih
    · rw [filter_cons_of_neg h, ← ih]
      show valueAt id (effect id v c) cs = valueAt id v cs
      rw [effect_of_not_touches (Bool.eq_false_iff.mpr h)]

/-! ### The history of an ID -/

/-- Two resources with the same fingerprint. -/
def SameFingerprint (r w : Resource) : Prop :=
  ∃ f, resourceFingerprint r = .ok f ∧ resourceFingerprint w = .ok f

/-- What is there is what is desired, up to the fingerprint. -/
def Matches : Option Resource → Option Resource → Prop
  | none, none => True
  | some r, some w => SameFingerprint r w
  | _, _ => False

/-- `Script id v w cs`: the changes `cs` that touch `id` lead from the current
resource `v` to the desired resource `w`. -/
inductive Script (id : GoString) (v w : Option Resource) : List Change → Prop
  | unchanged : Matches v w → Script id v w []
  | altered {c b a} : c.operation = .alter → c.before = some b → c.after = some a → b.id = id →
      a.id = id → v = some b → w = some a → SameFingerprint a a → Script id v w [c]
  | created {c a} : c.operation = .create → c.before = none → c.after = some a → a.id = id →
      v = none → w = some a → SameFingerprint a a → Script id v w [c]
  | dropped {c b} : c.operation = .drop → c.before = some b → c.after = none → b.id = id →
      v = some b → w = none → Script id v w [c]
  | renamedAway {c b a} : c.operation = .rename → c.before = some b → c.after = some a → b.id = id →
      a.id ≠ id → v.isSome = true → w = none → Script id v w [c]
  | renamedTo {c b a w'} : c.operation = .rename → c.before = some b → c.after = some a →
      b.id ≠ id → a.id = id → v = none → w = some w' → SameFingerprint a w' → Script id v w [c]
  | renamedAltered {r c b x a} : r.operation = .rename → r.before = some b → r.after = some x →
      b.id ≠ id → x.id = id → c.operation = .alter → c.before = some x → c.after = some a →
      a.id = id → v = none → w = some a → SameFingerprint a a → Script id v w [r, c]

section Script

variable {id : GoString} {v w : Option Resource} {c : Change} {b a : Resource}

theorem effect_create {a : Resource} (ho : c.operation = .create)
    (ha : c.after = some a) (hid : a.id = id) : effect id v c = some a := by
  rw [effect, ho, ha, ← hid]
  exact if_pos rfl

theorem effect_drop {b : Resource} (ho : c.operation = .drop)
    (hb : c.before = some b) (hid : b.id = id) : effect id v c = none := by
  rw [effect, ho, hb, ← hid]
  exact if_pos rfl

theorem effect_alter (ho : c.operation = .alter) (hb : c.before = some b) (ha : c.after = some a) (hid : b.id = id) :
    effect id v c = some a := by
  rw [effect, ho, hb, ha, ← hid]
  exact if_pos rfl

theorem effect_rename_to (ho : c.operation = .rename)
    (hb : c.before = some b) (ha : c.after = some a) (hid : a.id = id) : effect id v c = some a := by
  rw [effect, ho, hb, ha, ← hid]
  exact if_pos rfl

theorem effect_rename_away (ho : c.operation = .rename)
    (hb : c.before = some b) (ha : c.after = some a) (hid : b.id = id) (hne : a.id ≠ id) : effect id v c = none := by
  rw [effect, ho, hb, ha]
  show (if id = a.id then some a else if id = b.id then none else v) = none
  rw [if_neg (Ne.symm hne), if_pos hid.symm]

/-- A history ends in the desired resource. -/
theorem Script.final {cs : List Change} (h : Script id v w cs) : Matches (valueAt id v cs) w := by
  cases h with
  | unchanged hm => exact hm
  | altered ho hb ha hbid _ _ hw hf =>
    show Matches (effect id v _) w
    rw [effect_alter ho hb ha hbid, hw]
    exact hf
  | created ho _ ha haid _ hw hf =>
    show Matches (effect id v _) w
    rw [effect_create ho ha haid, hw]
    exact hf
  | dropped ho hb _ hbid _ hw =>
    show Matches (effect id v _) w
    rw [effect_drop ho hb hbid, hw]
    trivial
  | renamedAway ho hb ha hbid hne _ hw =>
    show Matches (effect id v _) w
    rw [effect_rename_away ho hb ha hbid hne, hw]
    trivial
  | renamedTo ho hb ha _ haid _ hw hf =>
    show Matches (effect id v _) w
    rw [effect_rename_to ho hb ha haid, hw]
    exact hf
  | renamedAltered _ _ _ _ hxid ho hb ha _ _ hw hf =>
    show Matches (effect id (effect id v _) _) w
    rw [effect_alter ho hb ha hxid, hw]
    exact hf

/-- A change of a history finds what it demands. -/
theorem Script.demands {l₁ l₂ : List Change} (h : Script id v w (l₁ ++ c :: l₂)) : Demands id (valueAt id v l₁) c := by
  have single : ∀ {c' : Change}, l₁ ++ c :: l₂ = [c'] → l₁ = [] ∧ c = c' := by
    intro c' heq
    rcases l₁ with - | ⟨d, l₁⟩
    · cases heq
      exact ⟨rfl, rfl⟩
    · simp at heq
  generalize heq : l₁ ++ c :: l₂ = cs at h
  cases h with
  | unchanged _ => simp at heq
  | altered ho hb ha hbid _ hv _ _ =>
    obtain ⟨rfl, rfl⟩ := single heq
    rw [Demands, ho, hb, ha, hv]
    exact fun _ => rfl
  | created ho _ ha _ hv _ _ =>
    obtain ⟨rfl, rfl⟩ := single heq
    rw [Demands, ho, ha, hv]
    exact fun _ => rfl
  | dropped ho hb _ _ hv _ =>
    obtain ⟨rfl, rfl⟩ := single heq
    rw [Demands, ho, hb, hv]
    exact fun _ => rfl
  | renamedAway ho hb ha hbid hne hv _ =>
    obtain ⟨rfl, rfl⟩ := single heq
    rw [Demands, ho, hb, ha]
    exact ⟨fun _ => hv, fun hid => absurd hid.symm hne⟩
  | renamedTo ho hb ha hne _ hv _ _ =>
    obtain ⟨rfl, rfl⟩ := single heq
    rw [Demands, ho, hb, ha, hv]
    exact ⟨fun hid => absurd hid.symm hne, fun _ => rfl⟩
  | renamedAltered hro hrb hra hne hxid ho hb ha _ hv _ _ =>
    rcases l₁ with - | ⟨d, l₁⟩
    · cases heq
      rw [Demands, hro, hrb, hra, hv]
      exact ⟨fun hid => absurd hid.symm hne, fun _ => rfl⟩
    · obtain ⟨rfl, heq⟩ := List.cons.inj heq
      rcases l₁ with - | ⟨d', l₁⟩
      · cases heq
        rw [Demands, ho, hb, ha]
        intro _
        show (effect id v d).isSome = true
        rw [effect_rename_to hro hrb hra hxid]
        rfl
      · simp at heq

/-- Histories do not depend on the recorded dependencies of the changes. -/
theorem Script.map_emitted {cs : List Change} (h : Script id v w cs) (it : MapIter RangeSite)
    (changes : List Change) : Script id v w (cs.map (emitted it changes)) := by
  cases h with
  | unchanged hm => exact .unchanged hm
  | altered h₁ h₂ h₃ h₄ h₅ h₆ h₇ h₈ => exact .altered h₁ h₂ h₃ h₄ h₅ h₆ h₇ h₈
  | created h₁ h₂ h₃ h₄ h₅ h₆ h₇ => exact .created h₁ h₂ h₃ h₄ h₅ h₆ h₇
  | dropped h₁ h₂ h₃ h₄ h₅ h₆ => exact .dropped h₁ h₂ h₃ h₄ h₅ h₆
  | renamedAway h₁ h₂ h₃ h₄ h₅ h₆ h₇ => exact .renamedAway h₁ h₂ h₃ h₄ h₅ h₆ h₇
  | renamedTo h₁ h₂ h₃ h₄ h₅ h₆ h₇ h₈ => exact .renamedTo h₁ h₂ h₃ h₄ h₅ h₆ h₇ h₈
  | renamedAltered h₁ h₂ h₃ h₄ h₅ h₆ h₇ h₈ h₉ h₁₀ h₁₁ h₁₂ =>
    exact .renamedAltered h₁ h₂ h₃ h₄ h₅ h₆ h₇ h₈ h₉ h₁₀ h₁₁ h₁₂

end Script

/-! ### The changes of a matching -/

/-- What `newChange` returns. -/
structure IsChange (op : Operation) (before after : Option Resource) (c : Change) : Prop where
  operation_eq : c.operation = op
  before_eq : c.before = before
  after_eq : c.after = after
  id_length : c.id.length = 31
  resourceID_eq : c.resourceID = ((after.or before).getD {}).id
  before_ok : ∀ r, before = some r → SameFingerprint r r
  after_ok : ∀ r, after = some r → SameFingerprint r r

theorem newChange_ok {op : Operation} {before after : Option Resource} {c : Change}
    (h : newChange op before after = .ok c) : IsChange op before after c := by
  rw [newChange] at h
  simp only [bind_ok] at h
  obtain ⟨bf, hbf, af, haf, heq⟩ := h
  cases heq
  refine ⟨rfl, rfl, rfl, ?_, rfl, ?_, ?_⟩
  · rw [length_append]
    rfl
  · rintro r rfl
    exact ⟨bf, hbf, hbf⟩
  · rintro r rfl
    exact ⟨af, haf, haf⟩

theorem alteration_ok {b a : Resource} {cs : List Change} (h : alteration b a = .ok cs) :
    (cs = [] ∧ SameFingerprint b a) ∨ ∃ c, cs = [c] ∧ IsChange .alter (some b) (some a) c := by
  rw [alteration] at h
  simp only [bind_ok] at h
  obtain ⟨equal, heq, h⟩ := h
  split at h
  · next ht =>
    cases h
    rw [resourcesEqual] at heq
    simp only [bind_ok] at heq
    obtain ⟨af, haf, bf, hbf, hfeq⟩ := heq
    cases hfeq
    have : af = bf := by simpa using ht
    exact Or.inl ⟨rfl, af, haf, this ▸ hbf⟩
  · obtain ⟨c, hc, h⟩ := bind_ok.mp h
    cases h
    exact Or.inr ⟨c, rfl, newChange_ok hc⟩

theorem touches_iff {op : Operation} {before after : Option Resource} {c : Change}
    (h : IsChange op before after c) (id : GoString) :
    c.touches id = true ↔ before.any (id = ·.id) = true ∨ after.any (id = ·.id) = true := by
  rw [Change.touches, h.before_eq, h.after_eq, Bool.or_eq_true]

/-- The changes of a pair: nothing or an alteration for a resource that keeps
its ID, a rename for another, with or without an alteration of its result. -/
inductive PairChanges (pairs : GoMap GoString) (o n : GoString) (before after : Resource) : List Change → Prop
  | kept : o = n → SameFingerprint before after → PairChanges pairs o n before after []
  | altered {c} : o = n → IsChange .alter (some before) (some after) c →
      PairChanges pairs o n before after [c]
  | renamed {r} : o ≠ n →
      IsChange .rename (some (remapped pairs before)) (some (intermediate pairs before after)) r →
      SameFingerprint (intermediate pairs before after) after →
      PairChanges pairs o n before after [r]
  | renamedAltered {r c} : o ≠ n →
      IsChange .rename (some (remapped pairs before)) (some (intermediate pairs before after)) r →
      IsChange .alter (some (intermediate pairs before after)) (some after) c →
      PairChanges pairs o n before after [r, c]

section PairChanges

variable {pairs : GoMap GoString} {o n : GoString} {before after : Resource} {cs : List Change}

theorem pairChanges_ok (h : pairChanges pairs o n before after = .ok cs) : PairChanges pairs o n before after cs := by
  rw [pairChanges] at h
  split_ifs at h with hne
  · obtain ⟨r, hr, h⟩ := bind_ok.mp h
    obtain ⟨as, has, h⟩ := bind_ok.mp h
    cases h
    rcases alteration_ok has with ⟨rfl, hf⟩ | ⟨c, rfl, hc⟩
    · exact .renamed hne (newChange_ok hr) hf
    · exact .renamedAltered hne (newChange_ok hr) hc
  · rw [not_not] at hne
    rcases alteration_ok h with ⟨rfl, hf⟩ | ⟨c, rfl, hc⟩
    · exact .kept hne hf
    · exact .altered hne hc

theorem PairChanges.mem (h : PairChanges pairs o n before after cs) {c : Change} (hc : c ∈ cs) :
    o = n ∧ IsChange .alter (some before) (some after) c ∨
      o ≠ n ∧ (IsChange .rename (some (remapped pairs before)) (some (intermediate pairs before after)) c ∨
        IsChange .alter (some (intermediate pairs before after)) (some after) c) := by
  cases h with
  | kept _ _ => cases hc
  | altered heq h =>
    obtain rfl := mem_singleton.mp hc
    exact .inl ⟨heq, h⟩
  | renamed hne h _ =>
    obtain rfl := mem_singleton.mp hc
    exact .inr ⟨hne, .inl h⟩
  | renamedAltered hne hr h =>
    rcases mem_cons.mp hc with rfl | hc
    · exact .inr ⟨hne, .inl hr⟩
    · obtain rfl := mem_singleton.mp hc
      exact .inr ⟨hne, .inr h⟩

/-- The snapshots of the changes of a pair carry its two IDs. -/
theorem PairChanges.ids (h : PairChanges pairs o n before after cs) (hb : before.id = o)
    (ha : after.id = n) {c : Change} (hc : c ∈ cs) :
    ∃ b a, c.before = some b ∧ c.after = some a ∧ (b.id = o ∨ b.id = n) ∧ a.id = n := by
  rcases h.mem hc with ⟨-, h⟩ | ⟨-, h | h⟩
  · exact ⟨before, after, h.before_eq, h.after_eq, Or.inl hb, ha⟩
  · exact ⟨_, _, h.before_eq, h.after_eq, Or.inl hb, ha⟩
  · exact ⟨_, _, h.before_eq, h.after_eq, Or.inr ha, ha⟩

/-- The changes of a pair touch its two IDs only. -/
theorem PairChanges.touches (h : PairChanges pairs o n before after cs) (hb : before.id = o)
    (ha : after.id = n) {id : GoString} (ho : id ≠ o) (hn : id ≠ n) : cs.filter (·.touches id) = [] := by
  refine filter_eq_nil_iff.mpr fun c hc ht => ?_
  obtain ⟨b, a, hcb, hca, hbid, haid⟩ := h.ids hb ha hc
  simp only [Change.touches, hcb, hca, Option.any_some, Bool.or_eq_true, decide_eq_true_eq] at ht
  rcases ht with rfl | rfl
  · exact hbid.elim ho hn
  · exact hn haid

/-- The history of an ID that both documents have. -/
theorem PairChanges.script_identity {id : GoString} (h : PairChanges pairs id id before after cs)
    (hb : before.id = id) (ha : after.id = id) : Script id (some before) (some after) (cs.filter (·.touches id)) := by
  cases h with
  | kept _ hf => exact .unchanged hf
  | altered _ hc =>
    rw [filter_cons_of_pos ((touches_iff hc id).mpr (Or.inl (by simp [hb])))]
    exact .altered hc.operation_eq hc.before_eq hc.after_eq hb ha rfl rfl (hc.after_ok _ rfl)
  | renamed hne _ _ => exact absurd rfl hne
  | renamedAltered hne _ _ => exact absurd rfl hne

/-- The changes of a rename that touch the old ID, and those that touch the new
one. -/
theorem PairChanges.filter_rename (h : PairChanges pairs o n before after cs) (hb : before.id = o)
    (ha : after.id = n) (hne : o ≠ n) : ∃ r, cs.filter (·.touches o) = [r] ∧ cs.filter (·.touches n) = cs ∧
      IsChange .rename (some (remapped pairs before)) (some (intermediate pairs before after)) r ∧
      ((cs = [r] ∧ SameFingerprint (intermediate pairs before after) after) ∨
        ∃ c, cs = [r, c] ∧ IsChange .alter (some (intermediate pairs before after)) (some after) c) := by
  have hrename : ∀ {r}, IsChange .rename (some (remapped pairs before))
      (some (intermediate pairs before after)) r → r.touches o = true ∧ r.touches n = true :=
    fun hr => ⟨(touches_iff hr o).mpr (Or.inl (by simp [remapped, hb])),
      (touches_iff hr n).mpr (Or.inr (by simp [intermediate, ha]))⟩
  cases h with
  | kept heq _ => exact absurd heq hne
  | altered heq _ => exact absurd heq hne
  | @renamed r _ hr hf =>
    obtain ⟨hro, hrn⟩ := hrename hr
    exact ⟨r, by simp [hro], by simp [hrn], hr, Or.inl ⟨rfl, hf⟩⟩
  | @renamedAltered r c _ hr hc =>
    obtain ⟨hro, hrn⟩ := hrename hr
    have hco : c.touches o = false := by
      rw [← Bool.not_eq_true, touches_iff hc]
      simp [intermediate, ha, hne]
    have hcn : c.touches n = true := (touches_iff hc n).mpr (Or.inr (by simp [ha]))
    exact ⟨r, by simp [hro, hco], by simp [hrn, hcn], hr, Or.inr ⟨c, rfl, hc⟩⟩

/-- The histories of the two IDs of a rename. -/
theorem PairChanges.script_rename (h : PairChanges pairs o n before after cs) (hb : before.id = o)
    (ha : after.id = n) (hne : o ≠ n) : Script o (some before) none (cs.filter (·.touches o)) ∧
      Script n none (some after) (cs.filter (·.touches n)) := by
  obtain ⟨r, hold, hnew, hr, halt⟩ := h.filter_rename hb ha hne
  have hbne : before.id ≠ n := by rwa [hb]
  have hane : after.id ≠ o := by rw [ha]; exact hne.symm
  rw [hold, hnew]
  refine ⟨.renamedAway hr.operation_eq hr.before_eq hr.after_eq hb hane rfl rfl, ?_⟩
  rcases halt with ⟨rfl, hf⟩ | ⟨c, rfl, hc⟩
  · exact .renamedTo hr.operation_eq hr.before_eq hr.after_eq hbne ha rfl rfl hf
  · exact .renamedAltered hr.operation_eq hr.before_eq hr.after_eq hbne ha hc.operation_eq
      hc.before_eq hc.after_eq ha rfl rfl (hc.after_ok _ rfl)

end PairChanges

/-! ### The changes that touch an ID -/

section Flatten

variable {α β : Type} {R : α → List β → Prop} {l : List α} {ys : List (List β)} {p : β → Bool}

theorem filter_flatten_eq_nil (h : List.Forall₂ R l ys)
    (hp : ∀ x ∈ l, ∀ y, R x y → y.filter p = []) : ys.flatten.filter p = [] := by
  induction h with
  | nil => rfl
  | cons hxy _ ih =>
    rw [flatten_cons, filter_append, hp _ mem_cons_self _ hxy, ih fun x hx => hp x (mem_cons_of_mem _ hx)]
    rfl

/-- If only the block of `x` can satisfy `p`, then `p` selects from that block. -/
theorem filter_flatten_of_mem (h : List.Forall₂ R l ys) (hl : l.Nodup) {x : α} (hx : x ∈ l)
    (hp : ∀ x' ∈ l, x' ≠ x → ∀ y, R x' y → y.filter p = []) : ∃ y, R x y ∧ ys.flatten.filter p = y.filter p := by
  induction h with
  | nil => cases hx
  | @cons a y l ys hay hrest ih =>
    obtain ⟨ha, hl⟩ := nodup_cons.mp hl
    rw [flatten_cons, filter_append]
    rcases mem_cons.mp hx with rfl | hx
    · refine ⟨y, hay, ?_⟩
      have hnil : ys.flatten.filter p = [] := by
        refine filter_flatten_eq_nil hrest fun x' hx' => hp x' (mem_cons_of_mem _ hx') ?_
        rintro rfl
        exact ha hx'
      rw [hnil, append_nil]
    · obtain ⟨y', hy', heq⟩ := ih hl hx fun x' hx' => hp x' (mem_cons_of_mem _ hx')
      have hnil : y.filter p = [] := by
        refine hp a mem_cons_self ?_ y hay
        rintro rfl
        exact ha hx
      exact ⟨y', hy', by rw [hnil, nil_append, heq]⟩

end Flatten

section Unordered

variable {it : MapIter RangeSite} {cur want : GoMap Resource} {m : Matching} {cs : List Change} {mp : GoMap Resource} {site : RangeSite}

theorem map_id_visited (hk : Keyed mp) : (visited it site mp).map Resource.id = it.order site mp.keys := by
  rw [visited, map_filterMap]
  refine (filterMap_congr ?_).trans filterMap_some
  intro id hid
  obtain ⟨r, hr⟩ := Option.isSome_iff_exists.mp (GoMap.mem_keys.mp (it.mem_order.mp hid))
  rw [hr, Option.map_some, hk id r hr]

theorem nodup_visited (hk : Keyed mp) : (visited it site mp).Nodup := by
  refine List.Nodup.of_map Resource.id ?_
  rw [map_id_visited hk]
  exact (it.perm _ _).nodup_iff.mpr mp.nodup_keys

/-- The changes made of single resources, a create or a drop for each resource
of a list. -/
theorem filter_singles {op : Operation} {snap : Resource → Option Resource × Option Resource}
    (hsnap : ∀ r, snap r = (none, some r) ∨ snap r = (some r, none)) {rs : List Resource} (hrs : rs.Nodup)
    (hinj : ∀ r ∈ rs, ∀ r' ∈ rs, r.id = r'.id → r = r')
    (h : rs.mapM (fun r => newChange op (snap r).1 (snap r).2) = .ok cs) (id : GoString) :
    (cs.filter (·.touches id) = [] ∧ ∀ r ∈ rs, r.id ≠ id) ∨ ∃ r ∈ rs, r.id = id ∧ ∃ c, cs.filter (·.touches id) = [c] ∧
        IsChange op (snap r).1 (snap r).2 c := by
  have hF : List.Forall₂ (fun r y => ∃ c, y = [c] ∧ IsChange op (snap r).1 (snap r).2 c) rs
      (cs.map fun c => [c]) := by
    rw [forall₂_map_right_iff]
    exact (mapM_ok h).imp fun r c hc => ⟨c, rfl, newChange_ok hc⟩
  have hflat : (cs.map fun c => [c]).flatten = cs := by
    rw [← flatMap_def, flatMap_singleton']
  have htouch : ∀ {r : Resource} {c : Change}, IsChange op (snap r).1 (snap r).2 c →
      (c.touches id = true ↔ r.id = id) := by
    intro r c hc
    rw [touches_iff hc]
    rcases hsnap r with h' | h' <;> rw [h'] <;> simp [eq_comm]
  by_cases hex : ∃ r ∈ rs, r.id = id
  · obtain ⟨r, hr, hrid⟩ := hex
    obtain ⟨y, ⟨c, rfl, hc⟩, heq⟩ := filter_flatten_of_mem hF hrs hr
      (by
        rintro r' hr' hne y ⟨c, rfl, hc⟩
        rw [filter_cons_of_neg]
        · rfl
        · rw [htouch hc]
          exact fun h' => hne (hinj r' hr' r hr (h'.trans hrid.symm)))
    rw [hflat, filter_cons_of_pos ((htouch hc).mpr hrid)] at heq
    exact Or.inr ⟨r, hr, hrid, c, heq, hc⟩
  · refine Or.inl ⟨?_, fun r hr hid => hex ⟨r, hr, hid⟩⟩
    rw [← hflat]
    refine filter_flatten_eq_nil hF ?_
    rintro r hr y ⟨c, rfl, hc⟩
    rw [filter_cons_of_neg]
    · rfl
    · rw [htouch hc]
      exact fun h' => hex ⟨r, hr, h'⟩

/-- The creates or drops that touch an ID: one for an unmatched resource. -/
theorem filter_unmatched {op : Operation} (snap : Resource → Option Resource × Option Resource)
    (hsnap : ∀ r, snap r = (none, some r) ∨ snap r = (some r, none)) {matched : GoSet} (hk : Keyed mp)
    (h : ((visited it site mp).filter fun r => !matched.has r.id).mapM
      (fun r => newChange op (snap r).1 (snap r).2) = .ok cs) (id : GoString) :
    (cs.filter (·.touches id) = [] ∧ ∀ r, mp.get? id = some r → matched.has id = true) ∨
      ∃ r, mp.get? id = some r ∧ matched.has id = false ∧
        ∃ c, cs.filter (·.touches id) = [c] ∧ IsChange op (snap r).1 (snap r).2 c := by
  have hmem : ∀ r, r ∈ (visited it site mp).filter (fun r => !matched.has r.id) ↔
      mp.get? r.id = some r ∧ matched.has r.id = false := by
    intro r
    rw [mem_filter, mem_visited, Bool.not_eq_true']
    exact and_congr_left fun _ => ⟨fun ⟨k, hr⟩ => by rw [hk k r hr]; exact hr, fun h => ⟨_, h⟩⟩
  have hinj : ∀ r ∈ (visited it site mp).filter (fun r => !matched.has r.id),
      ∀ r' ∈ (visited it site mp).filter (fun r => !matched.has r.id), r.id = r'.id → r = r' := by
    intro r hr r' hr' heq
    rw [hmem] at hr hr'
    exact Option.some.inj (hr.1.symm.trans (heq ▸ hr'.1))
  rcases filter_singles hsnap ((nodup_visited hk).filter _) hinj h id with
    ⟨hnil, hno⟩ | ⟨r, hr, rfl, c, hc⟩
  · refine Or.inl ⟨hnil, fun r hr => ?_⟩
    by_contra hun
    have hrid := hk id r hr
    exact hno r ((hmem r).mpr ⟨hrid ▸ hr, by rw [hrid]; simpa using hun⟩) hrid
  · rw [hmem] at hr
    exact Or.inr ⟨r, hr.1, hr.2, c, hc⟩

/-- The IDs of the pairs are disjoint. -/
theorem Matching.owner_unique (hs : m.Sound cur want) (hi : m.Identity cur want)
    {o n o' n' id : GoString} (h : m.pairs.get? o = some n) (h' : m.pairs.get? o' = some n')
    (hid : id = o ∨ id = n) (hid' : id = o' ∨ id = n') : o' = o := by
  -- an old ID that is also a new one is in both documents
  have cross : ∀ {a b a' : GoString}, m.pairs.get? a = some b → m.pairs.get? a' = some a → a' = a := by
    intro a b a' ha ha'
    obtain ⟨r, hr⟩ := hs.cur_mem a b ha
    obtain ⟨w, hw⟩ := hs.want_mem a' a ha'
    exact hs.inj a' a a ha' (hi a (contains_iff.mpr ⟨r, hr⟩) (contains_iff.mpr ⟨w, hw⟩))
  rcases hid with rfl | rfl <;> rcases hid' with rfl | rfl
  · rfl
  · exact cross h h'
  · exact (cross h' h).symm
  · exact hs.inj o' o _ h' h

/-- The changes of the pairs that touch an ID. -/
theorem filter_pairs (hcur : Keyed cur) (hwant : Keyed want) (hs : m.Sound cur want) (hi : m.Identity cur want)
    (h : changesOfPairs it cur want m.pairs = .ok cs) (id : GoString) :
    (cs.filter (·.touches id) = [] ∧ ∀ o n, m.pairs.get? o = some n → id ≠ o ∧ id ≠ n) ∨
      ∃ o n before after ys, m.pairs.get? o = some n ∧ (id = o ∨ id = n) ∧
        cur.get? o = some before ∧ want.get? n = some after ∧ pairChanges m.pairs o n before after = .ok ys ∧
        cs.filter (·.touches id) = ys.filter (·.touches id) := by
  obtain ⟨ys, hys, heq⟩ := bind_ok.mp h
  cases heq
  have hF := mapM_ok hys
  have hmem : ∀ o, o ∈ GoString.sortStrings (it.order .pairs m.pairs.keys) ↔ ∃ n, m.pairs.get? o = some n := by
    intro o
    rw [GoString.mem_sortStrings, MapIter.mem_order, GoMap.mem_keys, Option.isSome_iff_exists]
  have hnodup : (GoString.sortStrings (it.order .pairs m.pairs.keys)).Nodup := by
    rw [(GoString.perm_sortStrings _).nodup_iff, (it.perm _ _).nodup_iff]
    exact m.pairs.nodup_keys
  have hblock : ∀ o n, m.pairs.get? o = some n → ∃ before after, cur.get? o = some before ∧
      want.get? n = some after ∧ ∀ y, pairChanges m.pairs o ((m.pairs.get? o).getD []) (resourceAt cur o)
          (resourceAt want ((m.pairs.get? o).getD [])) = .ok y →
        pairChanges m.pairs o n before after = .ok y := by
    intro o n ho
    obtain ⟨b, hb⟩ := hs.cur_mem o n ho
    obtain ⟨a, ha⟩ := hs.want_mem o n ho
    refine ⟨b, a, hb, ha, fun y hy => ?_⟩
    rw [resourceAt, resourceAt, ho, hb] at hy
    simpa [ha] using hy
  have hother : ∀ o n, m.pairs.get? o = some n → id ≠ o → id ≠ n → ∀ y,
      pairChanges m.pairs o ((m.pairs.get? o).getD []) (resourceAt cur o)
        (resourceAt want ((m.pairs.get? o).getD [])) = .ok y → y.filter (·.touches id) = [] := by
    intro o n ho hne₁ hne₂ y hy
    obtain ⟨b, a, hb, ha, hpc⟩ := hblock o n ho
    exact (pairChanges_ok (hpc y hy)).touches (hcur o b hb) (hwant n a ha) hne₁ hne₂
  by_cases hex : ∃ o n, m.pairs.get? o = some n ∧ (id = o ∨ id = n)
  · obtain ⟨o, n, ho, hid⟩ := hex
    obtain ⟨b, a, hb, ha, hpc⟩ := hblock o n ho
    obtain ⟨y, hy, heq⟩ := filter_flatten_of_mem hF hnodup
      ((hmem o).mpr ⟨n, ho⟩) (by
        intro o' ho' hne y hy
        obtain ⟨n', hn'⟩ := (hmem o').mp ho'
        have hnot : ¬ (id = o' ∨ id = n') := fun h' =>
          hne (Matching.owner_unique hs hi ho hn' hid h')
        rw [not_or] at hnot
        exact hother o' n' hn' hnot.1 hnot.2 y hy)
    exact Or.inr ⟨o, n, b, a, y, ho, hid, hb, ha, hpc y hy, heq⟩
  · have hno : ∀ o n, m.pairs.get? o = some n → id ≠ o ∧ id ≠ n := fun o n ho =>
      ⟨fun h' => hex ⟨o, n, ho, Or.inl h'⟩, fun h' => hex ⟨o, n, ho, Or.inr h'⟩⟩
    refine Or.inl ⟨filter_flatten_eq_nil hF ?_, hno⟩
    intro o ho y hy
    obtain ⟨n, hn⟩ := (hmem o).mp ho
    exact hother o n hn (hno o n hn).1 (hno o n hn).2 y hy

/-- The changes that touch an ID, by what becomes of the ID. -/
inductive History (cur want : GoMap Resource) (pairs : GoMap GoString) (id : GoString) : List Change → Prop
  | absent : cur.get? id = none → want.get? id = none → History cur want pairs id []
  | created {w c} : cur.get? id = none → want.get? id = some w → (∀ o, pairs.get? o ≠ some id) →
      IsChange .create none (some w) c → History cur want pairs id [c]
  | dropped {r c} : cur.get? id = some r → want.get? id = none → pairs.get? id = none →
      IsChange .drop (some r) none c → History cur want pairs id [c]
  | paired {o n before after ys} : pairs.get? o = some n → (id = o ∨ id = n) →
      cur.get? o = some before → want.get? n = some after →
      pairChanges pairs o n before after = .ok ys →
      History cur want pairs id (ys.filter (·.touches id))

/-- **Every ID has a history** among the changes of a matching. -/
theorem history_unordered (hcur : Keyed cur) (hwant : Keyed want) (hs : m.Sound cur want) (hi : m.Identity cur want)
    (h : unorderedChanges it cur want m = .ok cs) (id : GoString) :
    History cur want m.pairs id (cs.filter (·.touches id)) := by
  rw [unorderedChanges] at h
  simp only [bind_ok] at h
  obtain ⟨ps, hps, cr, hcr, dr, hdr, heq⟩ := h
  cases heq
  rw [filter_append, filter_append]
  have hcreates := filter_unmatched (fun r => (none, some r)) (fun r => Or.inl rfl) hwant hcr id
  have hdrops := filter_unmatched (fun r => (some r, none)) (fun r => Or.inr rfl) hcur hdr id
  have hboth : ∀ {r w}, cur.get? id = some r → want.get? id = some w → m.pairs.get? id = some id :=
    fun hr hw => hi id (contains_iff.mpr ⟨_, hr⟩) (contains_iff.mpr ⟨_, hw⟩)
  rcases filter_pairs hcur hwant hs hi hps id with ⟨hpnil, hno⟩ | ⟨o, n, before, after, ys, ho, hid, hb, ha, hys, hpeq⟩
  · -- the ID is not matched: it is dropped, created, or in neither document
    have hunc : m.matchedCur.has id = false := Bool.eq_false_iff.mpr fun hm =>
      let ⟨n, hn⟩ := (hs.cur_iff id).mp hm
      (hno id n hn).1 rfl
    have hunw : m.matchedWant.has id = false := Bool.eq_false_iff.mpr fun hm =>
      let ⟨o, ho⟩ := (hs.want_iff id).mp hm
      (hno o id ho).2 rfl
    rw [hpnil]
    rcases hcreates with ⟨hcnil, hcno⟩ | ⟨w, hw, -, c, hceq, hc⟩
    · have hwnone : want.get? id = none := Option.eq_none_iff_forall_ne_some.mpr fun w e => by
        rw [hcno w e] at hunw
        cases hunw
      rw [hcnil]
      rcases hdrops with ⟨hdnil, hdno⟩ | ⟨r, hr, -, d, hdeq, hd⟩
      · have hcnone : cur.get? id = none := Option.eq_none_iff_forall_ne_some.mpr fun r e => by
          rw [hdno r e] at hunc
          cases hunc
        rw [hdnil]
        exact .absent hcnone hwnone
      · rw [hdeq]
        have hpnone : m.pairs.get? id = none := Option.eq_none_iff_forall_ne_some.mpr fun n e => (hno id n e).1 rfl
        exact .dropped hr hwnone hpnone hd
    · have hcnone : cur.get? id = none := Option.eq_none_iff_forall_ne_some.mpr fun r e => (hno id id (hboth e hw)).1 rfl
      rcases hdrops with ⟨hdnil, -⟩ | ⟨r, hr, -⟩
      · rw [hceq, hdnil]
        exact .created hcnone hw (fun o ho => (hno o id ho).2 rfl) hc
      · rw [hcnone] at hr
        cases hr
  · -- the ID belongs to a pair, which is all that touches it
    have hcnil : cr.filter (·.touches id) = [] := by
      rcases hcreates with ⟨hcnil, -⟩ | ⟨w, hw, hun, -⟩
      · exact hcnil
      · have hmat : m.matchedWant.has id = true := by
          rcases hid with rfl | rfl
          · exact (hs.want_iff id).mpr ⟨id, hboth hb hw⟩
          · exact (hs.want_iff id).mpr ⟨o, ho⟩
        rw [hmat] at hun
        cases hun
    have hdnil : dr.filter (·.touches id) = [] := by
      rcases hdrops with ⟨hdnil, -⟩ | ⟨r, hr, hun, -⟩
      · exact hdnil
      · have hmat : m.matchedCur.has id = true := by
          rcases hid with rfl | rfl
          · exact (hs.cur_iff id).mpr ⟨n, ho⟩
          · exact (hs.cur_iff id).mpr ⟨id, hboth hr ha⟩
        rw [hmat] at hun
        cases hun
    rw [hpeq, hcnil, hdnil, append_nil, append_nil]
    exact .paired ho hid hb ha hys

/-- The two IDs of a rename are not in the other document. -/
theorem Matching.rename_fresh (hs : m.Sound cur want) (hi : m.Identity cur want) {o n : GoString}
    (h : m.pairs.get? o = some n) (hne : o ≠ n) : want.get? o = none ∧ cur.get? n = none := by
  obtain ⟨r, hr⟩ := hs.cur_mem o n h
  obtain ⟨w, hw⟩ := hs.want_mem o n h
  constructor <;> refine Option.eq_none_iff_forall_ne_some.mpr fun x e => hne ?_
  · have hid := hi o (contains_iff.mpr ⟨r, hr⟩) (contains_iff.mpr ⟨x, e⟩)
    rw [hid] at h
    exact Option.some.inj h
  · have hid := hi n (contains_iff.mpr ⟨x, e⟩) (contains_iff.mpr ⟨w, hw⟩)
    exact hs.inj o n n h hid

/-- A history leads from the current to the desired resource. -/
theorem History.script (hcur : Keyed cur) (hwant : Keyed want) (hs : m.Sound cur want)
    (hi : m.Identity cur want) {id : GoString}
    (h : History cur want m.pairs id cs) : Script id (cur.get? id) (want.get? id) cs := by
  cases h with
  | absent hc hw =>
    rw [hc, hw]
    exact .unchanged trivial
  | created hc hw _ h =>
    rw [hc, hw]
    exact .created h.operation_eq h.before_eq h.after_eq (hwant id _ hw) rfl rfl (h.after_ok _ rfl)
  | dropped hc hw _ h =>
    rw [hc, hw]
    exact .dropped h.operation_eq h.before_eq h.after_eq (hcur id _ hc) rfl rfl
  | @paired o n before after ys ho hid hb ha hys =>
    have hbid := hcur o before hb
    have haid := hwant n after ha
    have hys := pairChanges_ok hys
    by_cases hne : o = n
    · subst hne
      obtain rfl : id = o := hid.elim (fun h => h) (fun h => h)
      rw [hb, ha]
      exact hys.script_identity hbid haid
    · obtain ⟨hold, hnew⟩ := hys.script_rename hbid haid hne
      obtain ⟨hwnone, hcnone⟩ := Matching.rename_fresh hs hi ho hne
      rcases hid with rfl | rfl
      · rw [hb, hwnone]
        exact hold
      · rw [hcnone, ha]
        exact hnew

end Unordered

/-! ### The ordered changes -/

/-- The rename that the edges see for a new ID, if it is the only one. -/
theorem lastChange_renamesTo {changes : List Change} {r : Change} {x : Resource} (hr : r ∈ changes)
    (ho : r.operation = .rename) (hx : r.after = some x)
    (huniq : ∀ c ∈ changes, ∀ y, c.operation = .rename → c.after = some y → y.id = x.id → c = r) :
    lastChange (Change.renamesTo x.id) changes = some r := by
  obtain ⟨c, hlast⟩ := exists_lastChange (p := Change.renamesTo x.id) hr
    (by simp [Change.renamesTo, ho, hx])
  obtain ⟨hc, hto⟩ := mem_of_lastChange hlast
  simp only [Change.renamesTo, Bool.and_eq_true, decide_eq_true_eq, Option.any_eq_true] at hto
  obtain ⟨hop, y, hy, hid⟩ := hto
  rw [hlast, huniq c hc y hop hy hid.symm]

section Ordered

variable {it : MapIter RangeSite} {cur want : GoMap Resource} {changes out : List Change}

/-- What a change waits for is emitted before it. -/
theorem Ordered.before (h : Ordered it changes out) {l₁ l₂ : List Change} {c : Change}
    (hout : out = l₁ ++ c :: l₂) {p : GoString} (hp : p ∈ changeIDs changes)
    (hw : Waits changes p c.id) : p ∈ changeIDs l₁ := by
  have hg := orderedIDs_greedy it changes
  have hsplit : changeIDs (l₁ ++ c :: l₂) = changeIDs l₁ ++ c.id :: changeIDs l₂ := by
    simp [changeIDs]
  rw [← h.ids_eq, hout, hsplit] at hg
  exact hg.available.1.2.2 p (mem_toFinset.mpr hp) hw

/-- The changes that touch an ID are emitted in the order of its history. -/
theorem filter_ordered (h : Ordered it changes out)
    (hids : ∀ c ∈ changes, c.id ≠ []) {id : GoString} {v w : Option Resource}
    (hs : Script id v w (changes.filter (·.touches id))) :
    out.filter (·.touches id) = (changes.filter (·.touches id)).map (emitted it changes) := by
  have hperm : (out.filter (·.touches id)).Perm
      ((changes.filter (·.touches id)).map (emitted it changes)) := by
    have := h.perm.filter (·.touches id)
    rwa [filter_map] at this
  generalize hS : changes.filter (·.touches id) = S at hs hperm
  cases hs with
  | unchanged _ => exact hperm.eq_nil
  | altered | created | dropped | renamedAway | renamedTo => exact perm_singleton.mp hperm
  | @renamedAltered r c b x a hro hrb hra hne hxid ho hb ha haid hv hw hf =>
    rcases pair_perm.mp hperm.symm with heq | heq
    · exact heq
    · -- the alteration waits for the rename, so it cannot come first
      exfalso
      have hrmem : r ∈ changes := mem_of_mem_filter (hS ▸ mem_cons_self)
      have hcmem : c ∈ changes :=
        mem_of_mem_filter (hS ▸ mem_cons_of_mem _ mem_cons_self)
      have huniq : ∀ c' ∈ changes, ∀ y, c'.operation = .rename → c'.after = some y → y.id = x.id → c' = r := by
        intro c' hc' y hop hy hyid
        have htouch : c'.touches id = true := by simp [Change.touches, hy, hyid, hxid]
        have hin : c' ∈ [r, c] := hS ▸ mem_filter.mpr ⟨hc', htouch⟩
        rcases mem_cons.mp hin with rfl | hin
        · rfl
        · rw [mem_singleton.mp hin, ho] at hop
          cases hop
      have hedge := mem_edgeList_alter hcmem ho hb (lastChange_renamesTo hrmem hro hra huniq)
      have hneid : c.id ≠ r.id := by
        intro hid
        have := inj_on_of_nodup_map h.nodup hcmem hrmem hid
        rw [this, hro] at ho
        cases ho
      obtain ⟨l₁, l₂, hout, hl₁, -, -⟩ := filter_eq_cons_iff.mp heq
      have hbefore := h.before hout
        (mem_changeIDs.mpr ⟨r, hrmem, rfl⟩) ⟨hedge, hids c hcmem, hids r hrmem, hneid⟩
      obtain ⟨d, hd, hdid⟩ := mem_changeIDs.mp hbefore
      have hdout : d ∈ out := hout ▸ mem_append_left _ hd
      obtain ⟨d₀, hd₀, rfl⟩ := mem_map.mp (h.perm.mem_iff.mp hdout)
      obtain rfl : d₀ = r := inj_on_of_nodup_map h.nodup hd₀ hrmem hdid
      refine hl₁ _ hd ?_
      show d₀.touches id = true
      simp [Change.touches, hra, hxid]

/-- The emitted changes lead every ID from the current to the desired state. -/
theorem replay_ordered (hout : ∀ c ∈ out, c.shaped = true)
    (hs : ∀ id, Script id (cur.get? id) (want.get? id) (out.filter (·.touches id))) :
    ∃ final, replay cur out = some final ∧ ∀ id, Matches (final.get? id) (want.get? id) := by
  have hdemands : ∀ l₁ c l₂, out = l₁ ++ c :: l₂ → ∀ id, Demands id (valueAt id (cur.get? id) l₁) c := by
    intro l₁ c l₂ heq id
    by_cases ht : c.touches id = true
    · have hsid := hs id
      rw [heq, filter_append, filter_cons_of_pos ht] at hsid
      rw [valueAt_filter]
      exact hsid.demands
    · exact demands_of_not_touches (hout c (by rw [heq]; simp)) (Bool.eq_false_iff.mpr ht)
  obtain ⟨final, hrun⟩ := replay_of_demands hdemands
  refine ⟨final, hrun, fun id => ?_⟩
  rw [replay_get? hrun, valueAt_filter]
  exact (hs id).final

end Ordered

/-! ### Soundness and completeness of `diff` -/

section DiffRun

variable {it : MapIter RangeSite} {current desired : Document} {options : DiffOptions}
  {result : ChangeSet}

variable (run : DiffRun it current desired options result)

theorem DiffRun.keyed : Keyed (resourceMap run.selCurrent) ∧ Keyed (resourceMap run.selDesired) :=
  ⟨keyed_resourceMap _, keyed_resourceMap _⟩

theorem DiffRun.matched : run.m.Sound (resourceMap run.selCurrent) (resourceMap run.selDesired) ∧
      run.m.Identity (resourceMap run.selCurrent) (resourceMap run.selDesired) :=
  matching_sound run.keyed.1 run.keyed.2 run.matching_ok

theorem DiffRun.ordered : Ordered it run.changes result.changes := orderChanges_ok run.order_ok

/-- The history of every ID in a successful comparison. -/
theorem DiffRun.history (id : GoString) :
    History (resourceMap run.selCurrent) (resourceMap run.selDesired) run.m.pairs id
      (run.changes.filter (·.touches id)) :=
  history_unordered run.keyed.1 run.keyed.2 run.matched.1 run.matched.2 run.changes_ok id

theorem DiffRun.script_unordered (id : GoString) :
    Script id ((resourceMap run.selCurrent).get? id) ((resourceMap run.selDesired).get? id)
      (run.changes.filter (·.touches id)) :=
  (run.history id).script run.keyed.1 run.keyed.2 run.matched.1 run.matched.2

/-- The changes of a run are well-formed, before and after they are ordered. -/
theorem DiffRun.well_formed {c : Change} (hc : c ∈ run.changes) : c.id ≠ [] ∧ c.shaped = true :=
  ChangeSet.validate_ok run.validate_ok (emitted it run.changes c)
    (run.ordered.perm.mem_iff.mpr (mem_map_of_mem hc))

theorem DiffRun.filter_eq (id : GoString) : result.changes.filter (·.touches id) =
      (run.changes.filter (·.touches id)).map (emitted it run.changes) :=
  filter_ordered run.ordered (fun _ hc => (run.well_formed hc).1) (run.script_unordered id)

theorem DiffRun.script (id : GoString) :
    Script id ((resourceMap run.selCurrent).get? id) ((resourceMap run.selDesired).get? id)
      (result.changes.filter (·.touches id)) := by
  rw [run.filter_eq]
  exact (run.script_unordered id).map_emitted it run.changes

/-- **`diff` is sound and complete.**  Replayed on the selected current
resources, every change of a result is enabled when it is reached, and the run
ends with exactly the selected desired IDs, each with the fingerprint of the
desired resource. -/
theorem diff_sound_complete (h : diff it current desired options = .ok result) : ∃ selCurrent selDesired,
      select it .current current options.includes options.excludes = .ok selCurrent ∧
      select it .desired desired options.includes options.excludes = .ok selDesired ∧
      ∃ final, replay (resourceMap selCurrent) result.changes = some final ∧
        ∀ id, Matches (final.get? id) ((resourceMap selDesired).get? id) := by
  obtain ⟨run⟩ := diff_ok h
  refine ⟨run.selCurrent, run.selDesired, run.current_ok, run.desired_ok, ?_⟩
  exact replay_ordered (fun c hc => (ChangeSet.validate_ok run.validate_ok c hc).2) run.script

end DiffRun

/-- A resource of the given kind and name. -/
def sampleResource (kind : Kind) (name : GoString) (dependencies : List Dependency) : Resource :=
  let name : Name := { schema := str "app", name := name }
  { id := stableID kind name, kind := kind, name := name, dependencies := dependencies }

def sampleEnum : Resource := sampleResource kindEnum (str "status") []

/-- A table with a column of an enumeration type. -/
def sampleTable : Resource :=
  sampleResource kindTable (str "orders") [{ target := sampleEnum.id, type := dependencyUses }]

def sampleDocument (resources : List Resource) : Document :=
  { version := schemaVersion, graph := { resources := some resources } }

/-- The table and its enumeration. -/
def sampleCurrent : Document := sampleDocument [sampleEnum, sampleTable]

/-- The table under another name, without the enumeration. -/
def sampleDesired : Document := sampleDocument [sampleResource kindTable (str "purchases") []]

def sampleOptions : DiffOptions := { renameHints := [⟨str "app.orders", str "app.purchases"⟩] }

/-- The enumeration is dropped, then the table renamed and altered. -/
theorem sample_changes : (diff .sorted sampleCurrent sampleDesired sampleOptions).map (fun r =>
    (r.changes.map Change.operation, r.changes.head?.bind Change.before)) =
      .ok ([.drop, .rename, .alter], some sampleEnum) := by decide +kernel

theorem diff_sample : ∃ result, diff .sorted sampleCurrent sampleDesired sampleOptions = .ok result ∧
    ∃ selCurrent selDesired, select .sorted .current sampleCurrent sampleOptions.includes sampleOptions.excludes =
        .ok selCurrent ∧ select .sorted .desired sampleDesired sampleOptions.includes sampleOptions.excludes =
        .ok selDesired ∧ ∃ final, replay (resourceMap selCurrent) result.changes = some final ∧
        ∀ id, Matches (final.get? id) ((resourceMap selDesired).get? id) := by
  obtain ⟨result, h, -⟩ := map_ok.mp sample_changes
  exact ⟨result, h, diff_sound_complete h⟩

end AutoSql.Schema
