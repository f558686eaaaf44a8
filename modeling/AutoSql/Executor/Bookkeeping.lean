/-
AutoSql/Executor/Bookkeeping.lean

`ExcludeBookkeeping`: an inspected document without the executor's history table.

The loop marks the table and, pass after pass, what is nested in it.  What only depends
on a marked resource is not marked: it stays, and the target of its dependency is gone.

Main result: the document that is left is valid, and has exactly the resources that do
not lead to the table, if and only if every such dependent is nested in the table
itself (`excludeBookkeeping_iff`).
-/
import AutoSql.Schema.Part

namespace AutoSql.Executor

open Schema List

/-- `BookkeepingTableName`. -/
def bookkeepingTableName : GoString := str "autosql_migration_history"

def isHistory (r : Resource) : Bool := r.kind = kindTable && r.name.name = bookkeepingTableName

/-- The body of the inner loop; the flag is `progress`. -/
def mark (st : GoSet × Bool) (r : Resource) : GoSet × Bool :=
  if st.1.has r.id then st
  else if isHistory r || (r.name.parent ≠ [] && st.1.has r.name.parent) then (st.1.add r.id, true)
  else st

/-- The outer loop.  A pass with progress marks one more resource, so the fuel is not used up. -/
def markAll (rs : List Resource) : Nat → GoSet → GoSet
  | 0, removed => removed
  | fuel + 1, removed =>
    let st := rs.foldl mark (removed, false)
    if st.2 then markAll rs fuel st.1 else st.1

def excludeBookkeeping (d : Document) : Document :=
  let removed := markAll d.resources (d.resources.length + 1) .empty
  if removed.size = 0 then d
  else { d with graph := { d.graph with resources := some (d.resources.filter fun r => !removed.has r.id) } }

/-! ### What is marked -/

/-- The resource leads to the history table along edges of `E`. -/
inductive Leads (E : Resource → GoString → Prop) (rs : List Resource) : Resource → Prop
  | table {r} : r ∈ rs → isHistory r = true → Leads E rs r
  | edge {r p} : r ∈ rs → Leads E rs p → E r p.id → Leads E rs r

/-- Nested in the table, or the table itself. -/
def Nested : List Resource → Resource → Prop := Leads fun r x => r.name.parent = x

variable {rs : List Resource} {E : Resource → GoString → Prop} {r : Resource} {removed : GoSet} {st : GoSet × Bool}

theorem Leads.mem (h : Leads E rs r) : r ∈ rs := by cases h <;> assumption

/-- The marked resources are nested. -/
def Marked (rs : List Resource) (removed : GoSet) : Prop := ∀ x, removed.has x = true → ∃ r, Nested rs r ∧ r.id = x

theorem Marked.size_le (h : Marked rs removed) : removed.size ≤ rs.length := by
  have hsub : removed.keys ⊆ rs.map Resource.id := by
    intro x hx
    obtain ⟨r, hr, rfl⟩ := h x (GoSet.mem_keys.mp hx)
    exact mem_map_of_mem hr.mem
  simpa [GoMap.keys, GoMap.size] using (subperm_of_subset removed.nodup_keys hsub).length_le

theorem size_add {x : GoString} (h : removed.has x = false) : (removed.add x).size = removed.size + 1 := by
  have hnot : x ∉ removed.keys := by rw [GoSet.mem_keys, h]; exact Bool.false_ne_true
  rw [GoMap.size_of_list (nodup_cons.mpr ⟨hnot, removed.nodup_keys⟩), length_cons, GoMap.keys, length_map, GoMap.size]
  intro k
  rw [GoSet.mem_keys, GoSet.has_add, mem_cons, GoSet.mem_keys]

/-- Part of a pass marks nested resources only.  If it marks none, none is to be marked. -/
theorem foldl_mark {l : List Resource} (hl : ∀ r ∈ l, r ∈ rs) (h : Marked rs st.1) : Marked rs (l.foldl mark st).1 ∧
    (l.foldl mark st = st ∧ (∀ r ∈ l, mark st r = st) ∨ (l.foldl mark st).2 = true ∧ st.1.size < (l.foldl mark st).1.size) := by
  induction l generalizing st with
  | nil => exact ⟨h, .inl ⟨rfl, nofun⟩⟩
  | cons r l ih =>
    rw [forall_mem_cons] at hl
    rw [foldl_cons, forall_mem_cons]
    by_cases hsame : mark st r = st
    · rw [hsame]
      exact ⟨(ih hl.2 h).1, (ih hl.2 h).2.imp_left fun ⟨heq, hrest⟩ => ⟨heq, rfl, hrest⟩⟩
    have hcases := hsame
    unfold mark at hcases
    split_ifs at hcases with hold hnew
    · exact absurd rfl hcases
    · have hmark : mark st r = (st.1.add r.id, true) := by rw [mark, if_neg hold, if_pos hnew]
      have hnested : Nested rs r := by
        simp only [Bool.or_eq_true, Bool.and_eq_true, decide_eq_true_eq] at hnew
        rcases hnew with hnew | ⟨-, hnew⟩
        · exact .table hl.1 hnew
        · obtain ⟨p, hp, hid⟩ := h _ hnew
          exact .edge hl.1 hp hid.symm
      have hmarked : Marked rs (mark st r).1 := by
        intro x hx
        rw [hmark, GoSet.has_add] at hx
        exact hx.elim (fun hx => ⟨r, hnested, hx.symm⟩) (h x)
      have hsize : st.1.size < (mark st r).1.size := by
        rw [hmark, size_add (Bool.not_eq_true _ ▸ hold)]
        exact Nat.lt_succ_self _
      obtain ⟨hM, ⟨heq, -⟩ | ⟨hflag, hlt⟩⟩ := ih hl.2 hmarked
      · exact ⟨hM, .inr ⟨by rw [heq, hmark], by rw [heq]; exact hsize⟩⟩
      · exact ⟨hM, .inr ⟨hflag, hsize.trans hlt⟩⟩
    · exact absurd rfl hcases

theorem markAll_spec {fuel : Nat} (h : Marked rs removed) (hfuel : rs.length < fuel + removed.size) :
    Marked rs (markAll rs fuel removed) ∧ ∀ r ∈ rs, mark (markAll rs fuel removed, false) r = (markAll rs fuel removed, false) := by
  induction fuel generalizing removed with
  | zero =>
    have := h.size_le
    omega
  | succ fuel ih =>
    obtain ⟨hM, ⟨heq, hclosed⟩ | ⟨hflag, hlt⟩⟩ := @foldl_mark rs (removed, false) rs (fun _ => id) h
    · have hlast : markAll rs (fuel + 1) removed = removed := by rw [markAll, heq]; rfl
      rw [hlast]
      exact ⟨h, hclosed⟩
    · have hnext : markAll rs (fuel + 1) removed = markAll rs fuel (rs.foldl mark (removed, false)).1 := if_pos hflag
      rw [hnext]
      exact ih hM (by simp only at hlt; omega)

/-- Marked is what is nested. -/
theorem has_markAll (hne : ∀ r ∈ rs, r.id ≠ []) {x : GoString} :
    (markAll rs (rs.length + 1) .empty).has x = true ↔ ∃ r, Nested rs r ∧ r.id = x := by
  obtain ⟨hM, hclosed⟩ := @markAll_spec rs .empty (rs.length + 1) (fun x hx => nomatch hx) (by omega)
  refine ⟨hM x, ?_⟩
  have hmark : ∀ r ∈ rs, isHistory r = true ∨ r.name.parent ≠ [] ∧ (markAll rs (rs.length + 1) .empty).has r.name.parent = true →
      (markAll rs (rs.length + 1) .empty).has r.id = true := by
    intro r hr hb
    by_contra hold
    have := congrArg Prod.snd (hclosed r hr)
    rw [mark, if_neg hold, if_pos (by simpa using hb)] at this
    cases this
  rintro ⟨r, hr, rfl⟩
  induction hr with
  | table hr hb => exact hmark _ hr (.inl hb)
  | edge hr hp hE ih => exact hmark _ hr (.inr ⟨hE ▸ hne _ hp.mem, hE ▸ ih⟩)

/-! ### The document that is left -/

theorem excludeBookkeeping_resources (d : Document) : (excludeBookkeeping d).version = d.version ∧ (excludeBookkeeping d).resources =
    d.resources.filter fun r => !(markAll d.resources (d.resources.length + 1) .empty).has r.id := by
  unfold excludeBookkeeping
  dsimp only
  split_ifs with h0
  · have hnone : ∀ x, (markAll d.resources (d.resources.length + 1) .empty).has x = false := by
      simp [GoSet.has, GoMap.contains, GoMap.get?, length_eq_zero_iff.mp h0, GoMap.lookup]
    simp [hnone]
  · exact ⟨rfl, rfl⟩

theorem mem_excludeBookkeeping {d : Document} (h : d.Valid) :
    r ∈ (excludeBookkeeping d).resources ↔ r ∈ d.resources ∧ ¬ Nested d.resources r := by
  rw [(excludeBookkeeping_resources d).2, mem_filter, Bool.not_eq_true', ← Bool.not_eq_true, has_markAll h.id_ne]
  refine and_congr_right fun hr => not_congr ⟨?_, fun hn => ⟨r, hn, rfl⟩⟩
  rintro ⟨p, hp, hid⟩
  rwa [← inj_on_of_nodup_map h.nodup hp.mem hr hid]

theorem Nested.refers (h : Nested rs r) : Leads Resource.refers rs r := by
  induction h with
  | table hr hb => exact .table hr hb
  | edge hr _ hE ih => exact .edge hr ih (.inl hE)

theorem Leads.exists_history (h : Leads E rs r) : ∃ t ∈ rs, isHistory t = true := by
  induction h with
  | table hr hb => exact ⟨_, hr, hb⟩
  | edge _ _ _ ih => exact ih

/-- **Excluding the history table.**  For a valid document, what is left is valid and is what does not lead to the table, and
a document without the table stays as it is, exactly if what depends on the table or its parts is one of them. -/
theorem excludeBookkeeping_iff {S : Type} (it : MapIter S) (s s' : S) (d : Document) :
    (d.validate (it.order s) = .ok () → (excludeBookkeeping d).validate (it.order s') = .ok () ∧
      (∀ r, r ∈ (excludeBookkeeping d).resources ↔ r ∈ d.resources ∧ ¬ Leads Resource.refers d.resources r) ∧
      ((∀ r ∈ d.resources, isHistory r = false) → excludeBookkeeping d = d)) ↔
    (d.validate (it.order s) = .ok () → ∀ r ∈ d.resources, ∀ p, Nested d.resources p → p.id ∈ r.targets → Nested d.resources r) := by
  refine forall_congr' fun h => ?_
  have hvalid := validate_ok h
  constructor
  · rintro ⟨-, hexact, -⟩ r hr p hp htarget
    by_contra hn
    have hkept := (hexact r).mp ((mem_excludeBookkeeping hvalid).mpr ⟨hr, hn⟩)
    exact hkept.2 (.edge hr hp.refers (.inr htarget))
  · intro hdep
    have hedge : ∀ {r p}, r ∈ d.resources → Nested d.resources p → r.refers p.id → Nested d.resources r :=
      fun hr hp hE => hE.elim (.edge hr hp) (hdep _ hr _ hp)
    have hleads : ∀ {r}, Leads Resource.refers d.resources r → Nested d.resources r := by
      intro r h
      induction h with
      | table hr hb => exact .table hr hb
      | edge hr _ hE ih => exact hedge hr ih hE
    obtain ⟨hversion, hres⟩ := excludeBookkeeping_resources d
    refine ⟨validate_part (it.perm s) (it.perm s') h hversion (hres ▸ filter_sublist) fun r hr x hx hE => ?_, fun r => ?_, fun hno => ?_⟩
    · obtain ⟨p, hp, rfl⟩ := mem_map.mp hx
      obtain ⟨hr, hn⟩ := (mem_excludeBookkeeping hvalid).mp hr
      exact mem_map_of_mem ((mem_excludeBookkeeping hvalid).mpr ⟨hp, fun hpn => hn (hedge hr hpn hE)⟩)
    · rw [mem_excludeBookkeeping hvalid]
      exact and_congr_right fun _ => not_congr ⟨Nested.refers, hleads⟩
    · -- without the table nothing is marked
      refine if_pos (GoMap.size_of_list (l := []) nodup_nil fun x => ?_)
      rw [GoSet.mem_keys, has_markAll hvalid.id_ne]
      refine iff_of_false ?_ not_mem_nil
      rintro ⟨r, hr, -⟩
      obtain ⟨t, ht, hb⟩ := hr.exists_history
      rw [hno t ht] at hb
      cases hb

/-! ### A view of the history -/

def sampleObject (kind : Kind) (name : GoString) (dependencies : List Dependency) : Resource :=
  { id := stableID kind { name := name }, kind := kind, name := { name := name }, dependencies := dependencies }

def historyTable : Resource := sampleObject kindTable bookkeepingTableName []

def historyView : Resource := sampleObject kindView (str "audit") [{ target := historyTable.id, type := dependencyReferences }]

def observed : Document := { version := schemaVersion, graph := { resources := some [historyTable, historyView] } }

/-- The view stays, and what it selects from is gone. -/
theorem dangling_view : observed.validate (MapIter.sorted.order ()) = .ok () ∧ (excludeBookkeeping observed).resources = [historyView] ∧
    (excludeBookkeeping observed).validate (MapIter.sorted.order ()) =
      .error (.invalidDocument (.missingDependency historyView.id historyTable.id)) := by decide +kernel

end AutoSql.Executor
