/-
AutoSql/Schema/Select.lean

`Select` restricts a document to the resources a user asked for: those that
match an include pattern, their descendants, and everything these depend on;
minus those that match an exclude pattern and everything that depends on them.

The source computes this with worklists over maps, which Go visits in no
particular order; `RangeSite` names the places where it does, here and in the
comparison of two documents, and every function takes the order of its visits
from a `MapIter`.

Main result: `select` returns a valid document, whose resources are resources
of the copy of its input (`select_ok`).
-/
import AutoSql.Lib.Glob
import AutoSql.Schema.Json

namespace AutoSql.Schema

open List

/-- The two documents of a comparison. -/
inductive Side where
  | current
  | desired
  deriving DecidableEq

/-- The places where the package ranges over a map. -/
inductive RangeSite where
  | validate (side : Side) (pass : Nat)
  | includes (side : Side)
  | childSeeds (side : Side)
  | dependencySeeds (side : Side)
  | excludes (side : Side)
  | removals (side : Side)
  | identity
  | hintFrom (hint : Nat)
  | hintTo (hint : Nat)
  | carry (pass : Nat)
  | candidates (pass : Nat) (oldID : GoString)
  | pairs
  | creates
  | drops
  | indegree
  | predecessors (change : GoString)
  | children (change : GoString)
  deriving DecidableEq

/-! ### Patterns -/

def patternMatches (pattern name : GoString) : Bool :=
  match Glob.pathMatch pattern name with
  | .ok b => b
  | .error _ => false

/-- A pattern is matched against the ID, the name, and the name after its
kind. -/
def matchesAny (r : Resource) (patterns : List GoString) : Bool :=
  patterns.any fun p =>
    [r.id, r.name.string, r.kind ++ str ":" ++ r.name.string].any (patternMatches p)

/-! ### The graph of a document -/

/-- Appends to the list stored under a key. -/
def push (m : GoMap (List GoString)) (k v : GoString) : GoMap (List GoString) :=
  m.insert k ((m.get? k).getD [] ++ [v])

/-- The list stored under a key. -/
def neighbours (m : GoMap (List GoString)) (k : GoString) : List GoString := (m.get? k).getD []

def resourceMap (doc : Document) : GoMap Resource := GoMap.index Resource.id doc.resources

/-- The resources that refer to a resource. -/
def reverseEdges (rs : List Resource) : GoMap (List GoString) :=
  rs.foldl (fun m r =>
    let m := r.targets.foldl (fun m t => push m t r.id) m
    if r.name.parent ≠ [] then push m r.name.parent r.id else m) .empty

/-- The resources contained in a resource. -/
def childEdges (rs : List Resource) : GoMap (List GoString) :=
  rs.foldl (fun m r => if r.name.parent ≠ [] then push m r.name.parent r.id else m) .empty

/-! ### Closures -/

/-- Adds the descendants of a kept resource.  Every nested call has a kept
resource more, so the number of resources bounds the depth. -/
def addChildren (children : GoMap (List GoString)) : Nat → GoSet → GoString → GoSet
  | 0, keep, _ => keep
  | fuel + 1, keep, id =>
    (neighbours children id).foldl (fun keep child =>
      if keep.has child then keep else addChildren children fuel (keep.add child) child) keep

/-- Adds a resource and what it depends on; the state is the resources that
were expanded, and those kept. -/
def addDeps (byID : GoMap Resource) : Nat → GoSet × GoSet → GoString → GoSet × GoSet
  | 0, st, _ => st
  | fuel + 1, st, id =>
    match byID.get? id with
    | none => st
    | some r =>
      if st.1.has id then st
      else
        let st := (st.1.add id, st.2.add id)
        let st := if r.name.parent ≠ [] then addDeps byID fuel st r.name.parent else st
        r.targets.foldl (addDeps byID fuel) st

/-- Adds what the kept resource `id` depends on. -/
def addDepsOf (byID : GoMap Resource) (st : GoSet × GoSet) (id : GoString) : GoSet × GoSet :=
  match byID.get? id with
  | none => st
  | some r =>
    let fuel := byID.size + 1
    let st := if r.name.parent ≠ [] then addDeps byID fuel st r.name.parent else st
    r.targets.foldl (addDeps byID fuel) st

/-- One removed resource: its dependents that are not yet removed are removed
and queued. -/
def removeDependents (dependents : List GoString) (st : GoSet × List GoString) : GoSet × List GoString :=
  dependents.foldl (fun st d => if st.1.has d then st else (st.1.add d, st.2 ++ [d])) st

/-- Works off the queue of removed resources.  A resource is queued once. -/
def removeLoop (reverse : GoMap (List GoString)) : Nat → GoSet → List GoString → GoSet
  | 0, remove, _ => remove
  | _ + 1, remove, [] => remove
  | fuel + 1, remove, id :: queue =>
    let st := removeDependents (neighbours reverse id) (remove, queue)
    removeLoop reverse fuel st.1 st.2

/-! ### Selection -/

/-- Sorts the set-like collections of a document. -/
def Document.normalize (d : Document) : Document :=
  { d with graph := { d.graph with resources := d.graph.resources.map fun l =>
      (l.map sortDependencies).insertionSort fun a b => GoString.le a.id b.id = true } }

section Select

variable (it : MapIter RangeSite) (side : Side)

/-- The resources to keep, before exclusions. -/
def keepSet (doc : Document) (includes : List GoString) : GoSet :=
  let byID := resourceMap doc
  let ids := it.order (.includes side) byID.keys
  let chosen := ids.filter fun id =>
    includes = [] || (byID.get? id).any fun r => matchesAny r includes
  let keep : GoSet := chosen.foldl GoSet.add .empty
  let childSeeds := it.order (.childSeeds side) keep.keys
  let keep := childSeeds.foldl (addChildren (childEdges doc.resources) (byID.size + 1)) keep
  let seeds := it.order (.dependencySeeds side) keep.keys
  (seeds.foldl (addDepsOf byID) (.empty, keep)).2

/-- The resources to remove. -/
def removeSet (doc : Document) (excludes : List GoString) : GoSet :=
  let byID := resourceMap doc
  let chosen := (it.order (.excludes side) byID.keys).filter fun id =>
    (byID.get? id).any fun r => matchesAny r excludes
  let remove : GoSet := chosen.foldl GoSet.add .empty
  removeLoop (reverseEdges doc.resources) (byID.size + 1) remove
    (it.order (.removals side) remove.keys)

/-- The document with the given resources; an empty selection leaves the nil
slice. -/
def Document.withResources (d : Document) (rs : List Resource) : Document :=
  { d with graph := { d.graph with resources := if rs = [] then none else some rs } }

/-- `Select`. -/
def select (doc : Document) (includes excludes : List GoString) : Except Error Document := do
  if (includes ++ excludes).any fun p =>
      match Glob.pathMatch p [] with
      | .ok _ => false
      | .error _ => true then
    .error .invalidPattern
  let clone ← cloneDocument doc
  clone.validate (it.order (.validate side 0))
  let keep := keepSet it side clone includes
  let remove := removeSet it side clone excludes
  let selected := clone.withResources
    (clone.resources.filter fun r => keep.has r.id && !remove.has r.id)
  let result := selected.normalize
  match result.validate (it.order (.validate side 1)) with
  | .ok () => .ok result
  | .error e => .error (.invalidSelection e)

end Select

/-! ### What a selection keeps -/

section Kept

open Fallible

variable {it : MapIter RangeSite} {side : Side} {doc result : Document}
  {includes excludes : List GoString}

theorem resources_normalize (d : Document) : d.normalize.resources = (d.resources.map sortDependencies).insertionSort
      fun a b => GoString.le a.id b.id = true := by
  rw [Document.normalize, Document.resources, Document.resources]
  cases d.graph.resources <;> rfl

theorem resources_withResources (d : Document) (rs : List Resource) : (d.withResources rs).resources = rs := by
  rw [Document.withResources, Document.resources]
  split_ifs with h
  · exact h.symm
  · rfl

/-- The calls inside a successful selection, and its result. -/
structure Selected (it : MapIter RangeSite) (side : Side) (doc : Document)
    (includes excludes : List GoString) (clone result : Document) : Prop where
  clone_ok : cloneDocument doc = .ok clone
  clone_valid : clone.Valid
  result_valid : result.Valid
  mem_ids : ∀ id, id ∈ result.ids ↔ id ∈ clone.ids ∧ (keepSet it side clone includes).has id = true ∧
    (removeSet it side clone excludes).has id = false

/-- **What `select` returns.** -/
theorem select_ok (h : select it side doc includes excludes = .ok result) :
    ∃ clone, Selected it side doc includes excludes clone result := by
  rw [select] at h
  simp only [bind_ok, error_bind, guard_ok] at h
  obtain ⟨-, clone, hclone, u, hvalid, h⟩ := h
  split at h
  · next hresult =>
    cases h
    refine ⟨clone, hclone, validate_ok hvalid, validate_ok hresult, fun id => ?_⟩
    rw [Document.ids, resources_normalize, resources_withResources,
      ((perm_insertionSort _ _).map _).mem_iff, map_map, mem_map]
    constructor
    · rintro ⟨r, hr, rfl⟩
      obtain ⟨hmem, hkeep⟩ := mem_filter.mp hr
      rw [Bool.and_eq_true, Bool.not_eq_true'] at hkeep
      exact ⟨mem_map.mpr ⟨r, hmem, rfl⟩, hkeep⟩
    · rintro ⟨hid, hkeep, hremove⟩
      obtain ⟨r, hr, rfl⟩ := mem_map.mp hid
      exact ⟨r, mem_filter.mpr ⟨hr, by rw [hkeep, hremove]; rfl⟩, rfl⟩
  · cases h

theorem mem_resourceMap {d : Document} {id : GoString} : id ∈ d.ids ↔ ∃ r, (resourceMap d).get? id = some r := by
  rw [resourceMap, ← Option.isSome_iff_exists, GoMap.isSome_index]
  rfl

/-- The references of a selected document lead to its own resources. -/
theorem Document.Valid.get?_closed {d : Document} (h : d.Valid) {id x : GoString} {r : Resource}
    (hr : (resourceMap d).get? id = some r) (hx : x ≠ []) (hrefers : r.refers x) :
    ∃ r', (resourceMap d).get? x = some r' :=
  mem_resourceMap.mp (h.closed r (GoMap.get?_index hr).1 x hx hrefers)

end Kept

end AutoSql.Schema
