/-
AutoSql/Schema/Order.lean

Changes, and the order in which they are emitted.

`orderChanges` sorts the changes topologically.  The edges, in the order in
which the source adds them:

* an alteration of a renamed resource after its rename;
* a drop before the changes of what the dropped resource refers to, and any
  other change after the changes of what its result refers to;
* the drop of a table's other objects before the drop or rename of a column
  of the table;
* grants, memberships and default privileges last, their drops first.

Among the changes that can be next, the sort key decides: alterations and
renames, then creates, then drops.

Main results: the successors in the graph are the edges of the list
(`mem_children`), and a successful run returns every change once, in the greedy
order of that graph (`orderedIDs_greedy`, `orderChanges_ok`).
-/
import AutoSql.Lib.Kahn
import AutoSql.Schema.Select

namespace AutoSql.Schema

open List GoMap

/-! ### Changes -/

inductive Operation where
  | create
  | alter
  | drop
  | rename
  deriving DecidableEq

def Operation.string : Operation → GoString
  | .create => str "create"
  | .alter => str "alter"
  | .drop => str "drop"
  | .rename => str "rename"

/-- One transition, with the snapshots before and after it. -/
structure Change where
  id : GoString
  operation : Operation
  resourceID : GoString
  before : Option Resource := none
  after : Option Resource := none
  dependsOn : List GoString := []
  details : GoString := []
  annotations : GoMap GoString := .empty
  extra : GoMap GoString := .empty
  deriving DecidableEq

variable (c : Change)

/-- The snapshot that names the resource of a change: the result, or what is
dropped. -/
def Change.snapshot : Resource := (c.after.or c.before).getD {}

/-- The ID of a snapshot, empty if there is none. -/
def snapshotID (r : Option Resource) : GoString := (r.map Resource.id).getD []

/-- The fingerprint of a snapshot, empty if there is none. -/
def snapshotFingerprint : Option Resource → Except Error GoString
  | none => .ok []
  | some r => resourceFingerprint r

def newChange (op : Operation) (before after : Option Resource) : Except Error Change := do
  let beforeFingerprint ← snapshotFingerprint before
  let afterFingerprint ← snapshotFingerprint after
  let id := digest (str "change") (GoString.join [0]
    [op.string, snapshotID before, snapshotID after, beforeFingerprint, afterFingerprint])
  .ok { id := str "change:" ++ (GoString.trimPrefix id (str "sha256:")).take 24
        operation := op
        resourceID := ((after.or before).getD {}).id
        before := before
        after := after }

/-! ### Sort keys -/

def rank : Operation → GoString
  | .drop => str "3"
  | .rename => str "1"
  | .alter => str "1"
  | .create => str "2"

/-- The member `key` of an object; the last one wins. -/
def lookupMember (key : GoString) (ms : List (GoString × Json)) : Option Json :=
  GoMap.lookup key ms.reverse

/-- The position of a column, from its specification. -/
def columnOrdinal (spec : GoString) : GoString :=
  match GoFloat.unmarshalAny spec with
  | some (.obj ms) =>
    match lookupMember (str "ordinal") ms with
    | some (.num lit) => GoString.padded 9 (GoFloat.truncated lit) ++ [0]
    | _ => []
  | _ => []

def changeSortKey : GoString :=
  let r := c.snapshot
  let ordinal := if c.operation = .create ∧ r.kind = kindColumn then columnOrdinal r.spec else []
  rank c.operation ++ [0] ++ r.kind ++ [0] ++ r.name.parent ++ [0] ++ ordinal ++ r.name.string ++ [0] ++ c.id

def isAccessHandoffChange : Bool :=
  [kindGrant, kindMembership, kindDefaultPrivilege].contains c.snapshot.kind

/-! ### Edges -/

/-- The change of a resource, by the ID of its result and by its old ID; a later
change of the list wins. -/
def byResource (changes : List Change) : GoMap GoString :=
  changes.foldl (fun m c =>
    let m := m.insert c.resourceID c.id
    match c.before with
    | some b => m.insert b.id c.id
    | none => m) .empty

/-- The change stored under a key, empty if there is none. -/
def changeOf (m : GoMap GoString) (k : GoString) : GoString := (m.get? k).getD []

def renameByAfter (changes : List Change) : GoMap GoString :=
  changes.foldl (fun m c =>
    match c.operation, c.after with
    | .rename, some a => m.insert a.id c.id
    | _, _ => m) .empty

/-- An alteration waits for the rename that produced what it alters. -/
def alterEdges (changes : List Change) : List (GoString × GoString) :=
  changes.filterMap fun c =>
    match c.operation, c.before with
    | .alter, some b => some (c.id, changeOf (renameByAfter changes) b.id)
    | _, _ => none

/-- What a snapshot refers to: its dependency targets, then its parent. -/
def references (r : Resource) : List GoString :=
  r.targets ++ if r.name.parent ≠ [] then [r.name.parent] else []

/-- A drop comes before the changes of what it refers to, another change after
them. -/
def referenceEdges (changes : List Change) : List (GoString × GoString) :=
  changes.flatMap fun c =>
    (references c.snapshot).map fun x =>
      if c.operation = .drop then (changeOf (byResource changes) x, c.id)
      else (c.id, changeOf (byResource changes) x)

/-- The dropped or renamed column of a change. -/
def Change.column : Option Resource :=
  if c.operation = .drop ∨ c.operation = .rename then
    c.before.filter fun r => r.kind = kindColumn ∧ r.name.parent ≠ []
  else none

/-- A dropped object of a table that is not a column. -/
def Change.droppedNonColumn : Option Resource :=
  if c.operation = .drop then c.before.filter fun r => r.kind ≠ kindColumn else none

/-- The dropped objects of a table come before the drop or rename of one of its
columns. -/
def columnEdges (changes : List Change) : List (GoString × GoString) :=
  changes.flatMap fun column =>
    match column.column with
    | none => []
    | some r => changes.filterMap fun descendant =>
      match descendant.droppedNonColumn with
      | none => none
      | some d => if d.name.parent = r.name.parent then some (column.id, descendant.id) else none

/-- Access changes come after all others that are not drops, their drops before
all other drops. -/
def accessEdges (changes : List Change) : List (GoString × GoString) :=
  changes.flatMap fun access =>
    if !isAccessHandoffChange access then []
    else changes.filterMap fun object =>
      if object.id = access.id ∨ isAccessHandoffChange object then none
      else if access.operation = .drop then
        if object.operation = .drop then some (object.id, access.id) else none
      else if object.operation ≠ .drop then some (access.id, object.id)
      else none

/-- All edges `(change, depends)`, in the order in which they are added. -/
def edgeList (changes : List Change) : List (GoString × GoString) :=
  alterEdges changes ++ referenceEdges changes ++ columnEdges changes ++ accessEdges changes

/-- The dependency graph of the changes: successors, and numbers of
predecessors. -/
structure ChangeGraph where
  edges : GoMap GoSet
  indegree : GoMap Nat

def ChangeGraph.empty (changes : List Change) : ChangeGraph :=
  ⟨GoMap.ofList (changes.map fun c => (c.id, .empty)), GoMap.ofList (changes.map fun c => (c.id, 0))⟩

/-- The successors of a change. -/
def ChangeGraph.nexts (g : ChangeGraph) (id : GoString) : GoSet := (g.edges.get? id).getD .empty

/-- The number of predecessors of a change. -/
def ChangeGraph.count (g : ChangeGraph) (id : GoString) : Nat := (g.indegree.get? id).getD 0

/-- Adds an edge, unless an end is missing, it is a loop, or it is there. -/
def ChangeGraph.add (g : ChangeGraph) (e : GoString × GoString) : ChangeGraph :=
  let (change, depends) := e
  if change = [] ∨ depends = [] ∨ change = depends ∨ (g.nexts depends).has change then g
  else
    ⟨g.edges.insert depends ((g.nexts depends).add change), g.indegree.insert change (g.count change + 1)⟩

def changeGraph (changes : List Change) : ChangeGraph :=
  (edgeList changes).foldl ChangeGraph.add (ChangeGraph.empty changes)

/-! ### The order -/

section Order

variable (it : MapIter RangeSite) (changes : List Change)

/-- The change with the given ID. -/
def byChange : GoMap Change := index Change.id changes

/-- The sort key of the change with the given ID. -/
def keyOf (id : GoString) : GoString :=
  (((byChange changes).get? id).map changeSortKey).getD []

/-- The order of the ready queue. -/
def keyLE (a b : GoString) : Prop := GoString.le (keyOf changes a) (keyOf changes b) = true

instance : DecidableRel (keyLE changes) := fun _ _ => inferInstanceAs (Decidable (_ = true))
instance : Std.Total (keyLE changes) := ⟨fun _ _ => GoString.le_total _ _⟩
instance : IsTrans GoString (keyLE changes) := ⟨fun _ _ _ h₁ h₂ => GoString.le_trans h₁ h₂⟩

/-- The successors of a change in the order in which they are visited. -/
def children (id : GoString) : List GoString :=
  it.order (.children id) ((changeGraph changes).nexts id).keys

/-- The IDs of the changes in the order in which they are emitted. -/
def orderedIDs : List GoString :=
  let g := changeGraph changes
  let ready := (it.order .indegree g.indegree.keys).filter fun id => g.count id = 0
  Kahn.loop (children it changes) (keyLE changes) (changes.length + 1) g.count
    (ready.insertionSort (keyLE changes))

/-- The predecessors of a change. -/
def dependencies (id : GoString) : List GoString :=
  let g := changeGraph changes
  GoString.sortStrings ((it.order (.predecessors id) g.edges.keys).filter fun p => (g.nexts p).has id)

/-- `orderChanges`; the documents that the source passes along are not used. -/
def orderChanges : Except Error (List Change) :=
  let out := (orderedIDs it changes).filterMap fun id =>
    ((byChange changes).get? id).map fun c => { c with dependsOn := dependencies it changes id }
  if out.length ≠ changes.length then .error (.invalidDocument .changeCycle) else .ok out

end Order

/-! ### The graph of the changes -/

/-- The IDs of the changes. -/
def changeIDs (changes : List Change) : List GoString := changes.map Change.id

variable {changes : List Change} {k v : GoString} {p : Change → Bool}

theorem mem_changeIDs {id : GoString} : id ∈ changeIDs changes ↔ ∃ c ∈ changes, c.id = id := by
  simp [changeIDs]

/-- A name that is either missing or the ID of a change. -/
def Names (changes : List Change) (id : GoString) : Prop := id = [] ∨ id ∈ changeIDs changes

theorem names_id {c : Change} (hc : c ∈ changes) : Names changes c.id :=
  Or.inr (mem_changeIDs.mpr ⟨c, hc, rfl⟩)

theorem names_changeOf {m : GoMap GoString} (hm : ∀ k v, m.get? k = some v → v ∈ changeIDs changes) (k : GoString) :
    Names changes (changeOf m k) := by
  rcases e : m.get? k with - | v
  · exact Or.inl (by rw [changeOf, e]; rfl)
  · exact Or.inr (by rw [changeOf, e]; exact hm k v e)

/-- The last change of the list with a property. -/
def lastChange (p : Change → Bool) (changes : List Change) : Option Change := changes.reverse.find? p

theorem mem_of_lastChange {c : Change} (h : lastChange p changes = some c) : c ∈ changes ∧ p c = true :=
  ⟨mem_reverse.mp (mem_of_find?_eq_some h), find?_some h⟩

theorem exists_lastChange {c : Change} (hc : c ∈ changes) (hp : p c = true) : ∃ d, lastChange p changes = some d :=
  Option.isSome_iff_exists.mp (find?_isSome.mpr ⟨c, mem_reverse.mpr hc, hp⟩)

/-- A map built by a fold over the changes holds what the last one stores. -/
theorem get?_foldl_last {f : GoMap GoString → Change → GoMap GoString}
    (hf : ∀ m c, (f m c).get? k = if p c then some c.id else m.get? k) :
    (changes.foldl f .empty).get? k = (lastChange p changes).map Change.id := by
  rw [lastChange]
  induction changes using List.reverseRecOn with
  | nil => simp
  | append_singleton l c ih =>
    rw [foldl_append, foldl_cons, foldl_nil, hf, ih, reverse_append, reverse_singleton, singleton_append, find?_cons]
    cases p c <;> rfl

/-- A change is filed under the ID it is about, and under the old one. -/
def Change.filedUnder (k : GoString) (c : Change) : Bool :=
  k = c.resourceID || c.before.any (k = ·.id)

theorem get?_byResource : (byResource changes).get? k = (lastChange (Change.filedUnder k) changes).map Change.id := by
  refine get?_foldl_last fun m c => ?_
  rcases e : c.before with - | b
  · simp [e, Change.filedUnder, get?_insert]
  · by_cases hk : k = b.id <;> simp [e, Change.filedUnder, get?_insert, hk]

/-- A rename with the given result. -/
def Change.renamesTo (k : GoString) (c : Change) : Bool :=
  c.operation = .rename && c.after.any (k = ·.id)

theorem get?_renameByAfter :
    (renameByAfter changes).get? k = (lastChange (Change.renamesTo k) changes).map Change.id := by
  refine get?_foldl_last fun m c => ?_
  split
  · next a hop ha => simp [Change.renamesTo, hop, ha, get?_insert]
  · next hno =>
    rcases e : c.after with - | a
    · simp [Change.renamesTo, e]
    · have hop : c.operation ≠ .rename := fun hop => hno a hop e
      simp [Change.renamesTo, hop]

theorem lastChange_mem (h : (lastChange p changes).map Change.id = some v) : v ∈ changeIDs changes := by
  obtain ⟨c, hc, hid⟩ := Option.map_eq_some_iff.mp h
  exact mem_changeIDs.mpr ⟨c, (mem_of_lastChange hc).1, hid⟩

/-- An alteration waits for the last rename that produced what it alters. -/
theorem mem_edgeList_alter {c r : Change} {b : Resource} (hc : c ∈ changes)
    (ho : c.operation = .alter) (hb : c.before = some b) (hr : lastChange (Change.renamesTo b.id) changes = some r) :
    (c.id, r.id) ∈ edgeList changes := by
  have hin : (c.id, r.id) ∈ alterEdges changes := by
    refine mem_filterMap.mpr ⟨c, hc, ?_⟩
    rw [ho, hb]
    show some (c.id, changeOf (renameByAfter changes) b.id) = _
    rw [changeOf, get?_renameByAfter, hr]
    rfl
  simp only [edgeList, mem_append]
  exact Or.inl (Or.inl (Or.inl hin))

/-- Edges run between changes. -/
theorem names_of_mem_edgeList {e : GoString × GoString}
    (h : e ∈ edgeList changes) : Names changes e.1 ∧ Names changes e.2 := by
  have hres : ∀ k, Names changes (changeOf (byResource changes) k) :=
    names_changeOf fun k v h => lastChange_mem (get?_byResource ▸ h)
  have hren : ∀ k, Names changes (changeOf (renameByAfter changes) k) :=
    names_changeOf fun k v h => lastChange_mem (get?_renameByAfter ▸ h)
  simp only [edgeList, mem_append] at h
  rcases h with ((h | h) | h) | h
  · obtain ⟨c, hc, he⟩ := mem_filterMap.mp h
    split at he
    · cases he
      exact ⟨names_id hc, hren _⟩
    · cases he
  · obtain ⟨c, hc, he⟩ := mem_flatMap.mp h
    obtain ⟨x, -, rfl⟩ := mem_map.mp he
    split_ifs
    · exact ⟨hres x, names_id hc⟩
    · exact ⟨names_id hc, hres x⟩
  · obtain ⟨c, hc, he⟩ := mem_flatMap.mp h
    split at he
    · cases he
    · obtain ⟨d, hd, he⟩ := mem_filterMap.mp he
      split at he
      · cases he
      · split_ifs at he
        cases he
        exact ⟨names_id hc, names_id hd⟩
  · obtain ⟨c, hc, he⟩ := mem_flatMap.mp h
    split at he
    · cases he
    · obtain ⟨d, hd, he⟩ := mem_filterMap.mp he
      split_ifs at he
      · cases he
        exact ⟨names_id hd, names_id hc⟩
      · cases he
        exact ⟨names_id hc, names_id hd⟩

/-- `Edge es p c`: after adding the edges `es`, `c` waits for `p`. -/
def Edge (es : List (GoString × GoString)) (p c : GoString) : Prop :=
  (c, p) ∈ es ∧ c ≠ [] ∧ p ≠ [] ∧ c ≠ p

/-- What holds after adding the edges `es`. -/
structure ChangeGraph.Inv (changes : List Change) (es : List (GoString × GoString))
    (g : ChangeGraph) : Prop where
  nexts_iff : ∀ p c, (g.nexts p).has c = true ↔ Edge es p c
  count_eq : ∀ c ∈ changeIDs changes,
    g.count c = ((changeIDs changes).toFinset.filter fun p => (g.nexts p).has c = true).card
  edges_keys : ∀ id, id ∈ g.edges.keys ↔ id ∈ changeIDs changes
  indegree_keys : ∀ id, id ∈ g.indegree.keys ↔ id ∈ changeIDs changes

theorem get?_ofList_const {β : Type} (changes : List Change) (v : β) (id : GoString) :
    (GoMap.ofList (changes.map fun c => (c.id, v))).get? id = if id ∈ changeIDs changes then some v else none := by
  have key : ∀ l : List Change, GoMap.lookup id (l.map fun c => (c.id, v)) =
      if id ∈ changeIDs l then some v else none := by
    intro l
    induction l with
    | nil => simp [GoMap.lookup, changeIDs]
    | cons c l ih =>
      rw [map_cons, GoMap.lookup, ih]
      by_cases hid : id = c.id <;> simp [changeIDs, hid]
  rw [get?_ofList, ← map_reverse, key]
  simp [changeIDs]

theorem ChangeGraph.inv_empty (changes : List Change) : (ChangeGraph.empty changes).Inv changes [] := by
  have hnexts : ∀ p, (ChangeGraph.empty changes).nexts p = .empty := by
    intro p
    rw [ChangeGraph.nexts, ChangeGraph.empty, get?_ofList_const]
    split_ifs <;> rfl
  refine ⟨?_, ?_, ?_, ?_⟩
  · intro p c
    rw [hnexts]
    simp [Edge]
  · intro c hc
    have hcount : (ChangeGraph.empty changes).count c = 0 := by
      rw [ChangeGraph.count, ChangeGraph.empty, get?_ofList_const, if_pos hc]
      rfl
    rw [hcount]
    simp [hnexts]
  all_goals
    intro id
    rw [GoMap.mem_keys, ChangeGraph.empty, get?_ofList_const]
    split_ifs with h <;> simp [h]

theorem ChangeGraph.Inv.add {es : List (GoString × GoString)}
    {g : ChangeGraph} (h : g.Inv changes es) {e : GoString × GoString}
    (he : Names changes e.1 ∧ Names changes e.2) : (g.add e).Inv changes (es ++ [e]) := by
  obtain ⟨change, depends⟩ := e
  have hEdge : ∀ p c, Edge (es ++ [(change, depends)]) p c ↔ Edge es p c ∨
      (c = change ∧ p = depends ∧ c ≠ [] ∧ p ≠ [] ∧ c ≠ p) := by
    intro p c
    simp only [Edge, mem_append, mem_singleton, Prod.mk.injEq]
    tauto
  rw [ChangeGraph.add]
  by_cases hskip : change = [] ∨ depends = [] ∨ change = depends ∨ (g.nexts depends).has change = true
  · -- nothing is added: the edge is void, or it is there
    rw [if_pos hskip]
    refine ⟨fun p c => ?_, h.count_eq, h.edges_keys, h.indegree_keys⟩
    rw [h.nexts_iff, hEdge]
    refine ⟨Or.inl, ?_⟩
    rintro (hpc | ⟨rfl, rfl, hc, hp, hne⟩)
    · exact hpc
    · rcases hskip with h' | h' | h' | h'
      · exact absurd h' hc
      · exact absurd h' hp
      · exact absurd h' hne
      · exact (h.nexts_iff _ _).mp h'
  · rw [if_neg hskip]
    simp only [not_or] at hskip
    obtain ⟨hc, hd, hne, hnew⟩ := hskip
    have hcmem : change ∈ changeIDs changes := he.1.resolve_left hc
    have hdmem : depends ∈ changeIDs changes := he.2.resolve_left hd
    have hnexts : ∀ p c, ((ChangeGraph.mk (g.edges.insert depends ((g.nexts depends).add change))
        (g.indegree.insert change (g.count change + 1))).nexts p).has c = true ↔
        (c = change ∧ p = depends) ∨ (g.nexts p).has c = true := by
      intro p c
      rw [ChangeGraph.nexts, get?_insert]
      split_ifs with hp
      · subst hp
        simp
      · simp [hp, ChangeGraph.nexts]
    refine ⟨?_, ?_, ?_, ?_⟩
    · intro p c
      rw [hnexts, h.nexts_iff, hEdge]
      constructor
      · rintro (⟨rfl, rfl⟩ | hpc)
        · exact Or.inr ⟨rfl, rfl, hc, hd, hne⟩
        · exact Or.inl hpc
      · rintro (hpc | ⟨rfl, rfl, -⟩)
        · exact Or.inr hpc
        · exact Or.inl ⟨rfl, rfl⟩
    · intro c hcid
      have hold := h.count_eq c hcid
      rw [ChangeGraph.count, get?_insert]
      split_ifs with hcc
      · -- the new predecessor is counted once more
        subst hcc
        have hins : ((changeIDs changes).toFinset.filter fun p =>
            ((ChangeGraph.mk (g.edges.insert depends ((g.nexts depends).add c))
              (g.indegree.insert c (g.count c + 1))).nexts p).has c = true) =
            insert depends ((changeIDs changes).toFinset.filter fun p => (g.nexts p).has c = true) := by
          ext p
          simp only [Finset.mem_filter, hnexts, Finset.mem_insert, mem_toFinset, true_and]
          constructor
          · rintro ⟨hp, rfl | hpc⟩
            · exact Or.inl rfl
            · exact Or.inr ⟨hp, hpc⟩
          · rintro (rfl | ⟨hp, hpc⟩)
            · exact ⟨hdmem, Or.inl rfl⟩
            · exact ⟨hp, Or.inr hpc⟩
        rw [hins, Finset.card_insert_of_notMem (by simp [hnew]), ← hold]
        rfl
      · have hsame : ((changeIDs changes).toFinset.filter fun p =>
            ((ChangeGraph.mk (g.edges.insert depends ((g.nexts depends).add change))
              (g.indegree.insert change (g.count change + 1))).nexts p).has c = true) =
            (changeIDs changes).toFinset.filter fun p => (g.nexts p).has c = true := by
          refine Finset.filter_congr fun p _ => ?_
          rw [hnexts]
          simp [hcc]
        rw [hsame, ← hold]
        rfl
    · intro id
      rw [GoMap.mem_keys, get?_insert, ← h.edges_keys, GoMap.mem_keys]
      split_ifs with hid
      · simp [hid, ← GoMap.mem_keys, h.edges_keys, hdmem]
      · rfl
    · intro id
      rw [GoMap.mem_keys, get?_insert, ← h.indegree_keys, GoMap.mem_keys]
      split_ifs with hid
      · simp [hid, ← GoMap.mem_keys, h.indegree_keys, hcmem]
      · rfl

/-- The graph of the changes: its edges, and the number of predecessors. -/
theorem changeGraph_inv (changes : List Change) : (changeGraph changes).Inv changes (edgeList changes) := by
  have key : ∀ (todo done : List (GoString × GoString)) (g : ChangeGraph), g.Inv changes done →
      (∀ e ∈ todo, Names changes e.1 ∧ Names changes e.2) →
      (todo.foldl ChangeGraph.add g).Inv changes (done ++ todo) := by
    intro todo
    induction todo with
    | nil => intro done g h _; simpa using h
    | cons e todo ih =>
      intro done g h he
      have := ih (done ++ [e]) (g.add e) (h.add (he e mem_cons_self))
        fun e' he' => he e' (mem_cons_of_mem _ he')
      simpa using this
  have := key (edgeList changes) [] _ (ChangeGraph.inv_empty changes)
    fun e he => names_of_mem_edgeList he
  rwa [nil_append] at this

/-- `c` waits for `p`. -/
def Waits (changes : List Change) (p c : GoString) : Prop := Edge (edgeList changes) p c

section Spec

variable {it : MapIter RangeSite} {changes : List Change}

theorem mem_children {p c : GoString} : c ∈ children it changes p ↔ Waits changes p c := by
  rw [children, MapIter.mem_order, GoSet.mem_keys, (changeGraph_inv changes).nexts_iff]
  rfl

theorem nodup_children (p : GoString) : (children it changes p).Nodup :=
  (it.perm _ _).nodup_iff.mpr (nodup_keys _)

/-- **The emitted order is the greedy one**: at each position stands a change
with the least sort key among those that wait for nothing else. -/
theorem orderedIDs_greedy (it : MapIter RangeSite) (changes : List Change) :
    Kahn.Greedy (· ∈ (changeIDs changes).toFinset) (Waits changes) (keyLE changes) [] (orderedIDs it changes) := by
  have hinv := changeGraph_inv changes
  have hE : (fun a b => b ∈ children it changes a) = Waits changes := by
    funext a b
    exact propext mem_children
  rw [← hE]
  refine Kahn.loop_greedy nodup_children ?_ ?_ (pairwise_insertionSort _ _) ?_
  · intro a b hab
    have hw := mem_children.mp hab
    exact mem_toFinset.mpr ((names_of_mem_edgeList hw.1).1.resolve_left hw.2.1)
  · refine ⟨nodup_nil, by simp, by simp, ?_, ?_, ?_⟩
    · intro b hb
      rw [hinv.count_eq b (mem_toFinset.mp hb)]
      congr 1
      ext a
      simp [Kahn.preds, mem_children, hinv.nexts_iff, Waits]
    · rw [(perm_insertionSort _ _).nodup_iff]
      exact ((it.perm _ _).nodup_iff.mpr (nodup_keys _)).filter _
    · intro b
      rw [(perm_insertionSort _ _).mem_iff, mem_filter, MapIter.mem_order, hinv.indegree_keys, decide_eq_true_eq]
      constructor
      · rintro ⟨hb, hcount⟩
        refine ⟨mem_toFinset.mpr hb, by simp, ?_⟩
        intro a ha hab
        rw [hinv.count_eq b hb, Finset.card_eq_zero, Finset.filter_eq_empty_iff] at hcount
        exact absurd ((hinv.nexts_iff a b).mpr (mem_children.mp hab)) (hcount ha)
      · rintro ⟨hb, -, hall⟩
        refine ⟨mem_toFinset.mp hb, ?_⟩
        rw [hinv.count_eq b (mem_toFinset.mp hb), Finset.card_eq_zero, Finset.filter_eq_empty_iff]
        intro a ha hab
        exact not_mem_nil (hall a ha (mem_children.mpr ((hinv.nexts_iff a b).mp hab)))
  · have hcard := toFinset_card_le (changeIDs changes)
    have hlen : (changeIDs changes).length = changes.length := length_map _
    omega

/-- A change as it is emitted: with the changes it waited for. -/
def emitted (it : MapIter RangeSite) (changes : List Change) (c : Change) : Change :=
  { c with dependsOn := dependencies it changes c.id }

/-- What a successful run returns: every change once, in the greedy order. -/
structure Ordered (it : MapIter RangeSite) (changes out : List Change) : Prop where
  nodup : (changeIDs changes).Nodup
  ids_eq : changeIDs out = orderedIDs it changes
  perm : out.Perm (changes.map (emitted it changes))

theorem orderChanges_ok {out : List Change} (h : orderChanges it changes = .ok out) : Ordered it changes out := by
  have hgreedy := orderedIDs_greedy it changes
  rw [orderChanges] at h
  split_ifs at h with hlen
  cases h
  -- both the IDs and the emitted changes are as many as there can be
  have hsub : (orderedIDs it changes).toFinset ⊆ (changeIDs changes).toFinset := by
    intro id hid
    exact (hgreedy.mem (mem_toFinset.mp hid)).1
  have h₁ := Finset.card_le_card hsub
  rw [toFinset_card_of_nodup hgreedy.nodup] at h₁
  have h₂ := toFinset_card_le (changeIDs changes)
  have h₃ := length_filterMap_le (fun id => ((byChange changes).get? id).map fun c =>
    { c with dependsOn := dependencies it changes id }) (orderedIDs it changes)
  have hids : (changeIDs changes).length = changes.length := length_map _
  have hnodup : (changeIDs changes).Nodup := by
    refine Multiset.coe_nodup.mp (Multiset.toFinset_card_eq_card_iff_nodup.mp ?_)
    show (changeIDs changes).toFinset.card = (changeIDs changes).length
    omega
  have hperm : (orderedIDs it changes).Perm (changeIDs changes) := by
    refine List.Subperm.perm_of_length_le (hgreedy.nodup.subperm ?_) (by omega)
    intro id hid
    exact mem_toFinset.mp (hgreedy.mem hid).1
  -- reading the changes back by their IDs
  have hget : ∀ c ∈ changes, ((byChange changes).get? c.id).map
      (fun c' => { c' with dependsOn := dependencies it changes c.id }) = some (emitted it changes c) := by
    intro c hc
    rw [byChange, get?_index_of_nodup hnodup hc]
    rfl
  have hmap : (changeIDs changes).filterMap (fun id => ((byChange changes).get? id).map fun c =>
      { c with dependsOn := dependencies it changes id }) = changes.map (emitted it changes) := by
    rw [changeIDs, filterMap_map, ← filterMap_eq_map]
    exact filterMap_congr hget
  refine ⟨hnodup, ?_, ?_⟩
  · rw [changeIDs, map_filterMap]
    refine (filterMap_congr ?_).trans filterMap_some
    intro id hid
    obtain ⟨c, hc, rfl⟩ := mem_changeIDs.mp (hperm.mem_iff.mp hid)
    rw [hget c hc]
    rfl
  · rw [← hmap]
    exact hperm.filterMap _

end Spec

end AutoSql.Schema
