/-
AutoSql/Schema/Changes.lean

What the changes of a comparison promise.

* **Order.**  `orderChanges` emits every change after the changes it waits for,
  or it fails and the changes wait for each other in a circle
  (`orderChanges_sorted`).  An ID with several changes is known to the edges by
  the last of them.  Map iteration does not show (`orderChanges_iteration`).
* **Snapshots.**  The snapshots are the resources of the two documents, except
  that the mapping of references writes into the dependency list that a renamed
  resource shares with its rename (`snapshots_faithful_iff`).
* **Rename hints.**  They keep every object in its container, except that a
  parent without a hint passes for no parent at all (`keepsContainers_iff`).
-/
import AutoSql.Schema.DropSafety

namespace AutoSql.Schema

open Fallible Kahn List GoMap

/-! ### The order of the changes -/

/-- The changes of the result in the order of what they refer to. -/
structure Sorted (it : MapIter RangeSite) (changes out : List Change) : Prop where
  perm : out.Perm (changes.map (emitted it changes))
  dependsOn_iff : ∀ c ∈ out, ∀ p, p ∈ c.dependsOn ↔ Waits changes p c.id
  waits : ∀ p c, Waits changes p c → Precedes (changeIDs out) p c
  referred : ∀ c ∈ changes, c.operation ≠ .drop → ∀ a, c.after = some a → ∀ x ∈ references a,
    ∀ d, lastChange (Change.filedUnder x) changes = some d → d ≠ c → Precedes (changeIDs out) d.id c.id
  drops : ∀ c ∈ changes, c.operation = .drop → ∀ b, c.before = some b → ∀ x ∈ references b,
    ∀ d, lastChange (Change.filedUnder x) changes = some d → d ≠ c → Precedes (changeIDs out) c.id d.id
  renames : ∀ c ∈ changes, c.operation = .alter → ∀ b, c.before = some b →
    ∀ r, lastChange (Change.renamesTo b.id) changes = some r → Precedes (changeIDs out) r.id c.id
  access : ∀ a ∈ changes, isAccessHandoffChange a = true → ∀ o ∈ changes, isAccessHandoffChange o = false →
      (a.operation ≠ .drop → o.operation ≠ .drop → Precedes (changeIDs out) o.id a.id) ∧
      (a.operation = .drop → o.operation = .drop → Precedes (changeIDs out) a.id o.id)

section Order

variable {it : MapIter RangeSite} {changes out : List Change} {p id : GoString} {c d : Change}

theorem mem_dependencies : p ∈ dependencies it changes id ↔ Waits changes p id := by
  have hinv := changeGraph_inv changes
  rw [dependencies, GoString.mem_sortStrings, mem_filter, MapIter.mem_order, hinv.edges_keys, hinv.nexts_iff]
  exact and_iff_right_of_imp fun hw => mem_toFinset.mp (mem_of_waits hw)

theorem Ordered.precedes (h : Ordered it changes out) (hw : Waits changes p id) : Precedes (changeIDs out) p id := by
  have hg := orderedIDs_greedy it changes
  rw [← h.ids_eq] at hg
  have hids : (changeIDs out).Perm (changeIDs changes) := by
    have := h.perm.map Change.id
    rwa [map_map] at this
  have hid : id ∈ changeIDs out :=
    hids.mem_iff.mpr ((names_of_mem_edgeList hw.1).1.resolve_left hw.2.1)
  obtain ⟨l₁, l₂, heq⟩ := append_of_mem hid
  rw [heq] at hg ⊢
  obtain ⟨-, hnot, hpreds⟩ := hg.available.1
  exact (precedes_iff hnot).mpr (hpreds p (mem_of_waits hw) hw)

theorem Ordered.precedes_of_edge (h : Ordered it changes out) (hids : ∀ c ∈ changes, c.id ≠ [])
    (hc : c ∈ changes) (hd : d ∈ changes) (hne : d ≠ c) (he : (c.id, d.id) ∈ edgeList changes) :
    Precedes (changeIDs out) d.id c.id :=
  h.precedes ⟨he, hids c hc, hids d hd, fun hid => hne (inj_on_of_nodup_map h.nodup hd hc hid.symm)⟩

/-- The edges between a change and the last change of what it refers to. -/
theorem mem_edgeList_reference {r : Resource} {x : GoString} (hc : c ∈ changes)
    (hr : c.snapshot = r) (hx : x ∈ references r) (hd : lastChange (Change.filedUnder x) changes = some d) :
    (if c.operation = .drop then (d.id, c.id) else (c.id, d.id)) ∈ edgeList changes := by
  have hof : changeOf (byResource changes) x = d.id := by
    rw [changeOf, get?_byResource, hd]
    rfl
  have hmem : (if c.operation = .drop then (d.id, c.id) else (c.id, d.id)) ∈ referenceEdges changes :=
    mem_flatMap.mpr ⟨c, hc, mem_map.mpr ⟨x, hr ▸ hx, by rw [hof]⟩⟩
  simp only [edgeList, mem_append]
  exact Or.inl (Or.inl (Or.inr hmem))

theorem Ordered.sorted (h : Ordered it changes out)
    (hwf : ∀ c ∈ changes, c.id ≠ [] ∧ c.shaped = true) : Sorted it changes out where
  perm := h.perm
  dependsOn_iff c hc p := by
    obtain ⟨c₀, -, rfl⟩ := mem_map.mp (h.perm.mem_iff.mp hc)
    exact mem_dependencies
  waits p c := h.precedes
  referred c hc ho a ha x hx d hd hne := by
    have hedge := mem_edgeList_reference hc (by simp [Change.snapshot, ha]) hx hd
    rw [if_neg ho] at hedge
    exact h.precedes_of_edge (fun c hc => (hwf c hc).1) hc (mem_of_lastChange hd).1 hne hedge
  drops c hc ho b hb x hx d hd hne := by
    obtain ⟨-, -, ha⟩ := Change.shaped_drop (hwf c hc).2 ho
    have hedge := mem_edgeList_reference hc (by simp [Change.snapshot, ha, hb]) hx hd
    rw [if_pos ho] at hedge
    exact h.precedes_of_edge (fun c hc => (hwf c hc).1) (mem_of_lastChange hd).1 hc hne.symm hedge
  renames c hc ho b hb r hr := by
    obtain ⟨hmem, hto⟩ := mem_of_lastChange hr
    refine h.precedes_of_edge (fun c hc => (hwf c hc).1) hc hmem ?_ (mem_edgeList_alter hc ho hb hr)
    rintro rfl
    simp [Change.renamesTo, ho] at hto
  access a ha hacc o ho hnacc := by
    have hne : a ≠ o := by
      rintro rfl
      rw [hacc] at hnacc
      cases hnacc
    have hid : o.id ≠ a.id := fun hid => hne (inj_on_of_nodup_map h.nodup ha ho hid.symm)
    have hin : ∀ e, (if a.operation = .drop then
          if o.operation = .drop then some (o.id, a.id) else none
        else if o.operation ≠ .drop then some (a.id, o.id) else none) = some e →
        e ∈ edgeList changes := by
      intro e he
      have hmem : e ∈ accessEdges changes := by
        refine mem_flatMap.mpr ⟨a, ha, ?_⟩
        rw [hacc, Bool.not_true, if_neg Bool.false_ne_true]
        refine mem_filterMap.mpr ⟨o, ho, ?_⟩
        rw [if_neg (by simp [hid, hnacc]), he]
      exact mem_append_right _ hmem
    refine ⟨fun hop hop' => ?_, fun hop hop' => ?_⟩
    · exact h.precedes_of_edge (fun c hc => (hwf c hc).1) ha ho hne.symm (hin _ (by simp [hop, hop']))
    · exact h.precedes_of_edge (fun c hc => (hwf c hc).1) ho ha hne (hin _ (by simp [hop, hop']))

/-- **The order of the changes.**  Either every change comes after what it
waits for, or the changes wait for each other in a circle. -/
theorem orderChanges_sorted (it : MapIter RangeSite) (hnodup : (changeIDs changes).Nodup)
    (hwf : ∀ c ∈ changes, c.id ≠ [] ∧ c.shaped = true) :
    (∃ out, orderChanges it changes = .ok out ∧ Sorted it changes out) ∨
      orderChanges it changes = .error (.invalidDocument .changeCycle) ∧
        ∃ p, Relation.TransGen (Waits changes) p p := by
  rcases e : orderChanges it changes with err | out
  · refine Or.inr ⟨?_, ?_⟩
    · rw [orderChanges] at e
      split_ifs at e
      rw [← e]
    · by_contra hcycle
      -- without a cycle every change is emitted
      have hg := orderedIDs_greedy it changes
      have hperm : (orderedIDs it changes).Perm (changeIDs changes) := by
        refine (perm_ext_iff_of_nodup hg.nodup hnodup).mpr fun id => ?_
        exact ⟨fun h => mem_toFinset.mp (hg.mem h).1,
          fun h => hg.complete (fun p hp => hcycle ⟨p, hp⟩) (mem_toFinset.mpr h)⟩
      have hsome : ∀ id ∈ orderedIDs it changes, (((byChange changes).get? id).map fun c =>
          { c with dependsOn := dependencies it changes id }).isSome = true := by
        intro id hid
        obtain ⟨c, hc, rfl⟩ := mem_changeIDs.mp (hperm.mem_iff.mp hid)
        rw [byChange, get?_index_of_nodup hnodup hc]
        rfl
      rw [orderChanges, if_neg] at e
      · cases e
      · rw [not_not, filterMap_length_eq_length.mpr hsome, hperm.length_eq, changeIDs, length_map]
  · exact Or.inl ⟨out, rfl, (orderChanges_ok e).sorted hwf⟩

end Order

/-- A change of the enumeration. -/
def sampleAlter (id : GoString) : Change :=
  { id := id, operation := .alter, resourceID := sampleEnum.id, before := some sampleEnum, after := some sampleEnum }

/-- The drop of the table that uses the enumeration. -/
def sampleDrop : Change :=
  { id := str "d", operation := .drop, resourceID := sampleTable.id, before := some sampleTable }

/-- Two changes of the enumeration and the drop of the table. -/
def sampleChanges : List Change := [sampleAlter (str "a"), sampleAlter (str "b"), sampleDrop]

theorem sampleChanges_wf : (changeIDs sampleChanges).Nodup ∧
    ∀ c ∈ sampleChanges, c.id ≠ [] ∧ c.shaped = true := by decide +kernel

theorem orderChanges_sample : (∃ out, orderChanges .sorted sampleChanges = .ok out ∧ Sorted .sorted sampleChanges out) ∨
      orderChanges .sorted sampleChanges = .error (.invalidDocument .changeCycle) ∧
        ∃ p, Relation.TransGen (Waits sampleChanges) p p :=
  orderChanges_sorted .sorted sampleChanges_wf.1 sampleChanges_wf.2

/-- **An earlier change of the same ID.**  The drop of the table comes before
the last change of the enumeration only. -/
theorem drop_after_change : (changeIDs sampleChanges).Nodup ∧ (∀ c ∈ sampleChanges, c.id ≠ [] ∧ c.shaped = true) ∧
    sampleTable.refers sampleEnum.id ∧
    (orderChanges .sorted sampleChanges).map changeIDs = .ok [str "a", str "d", str "b"] :=
  ⟨sampleChanges_wf.1, sampleChanges_wf.2, by decide +kernel, by decide +kernel⟩

/-- **Iteration does not show.**  The IDs are digests and so of one length, and a sort key ends in the ID: whatever
the orders in which two runs visit their maps, they return the same. -/
theorem orderChanges_iteration (it it' : MapIter RangeSite) {changes : List Change} {n : Nat}
    (hlen : ∀ id ∈ changeIDs changes, id.length = n) : orderChanges it changes = orderChanges it' changes := by
  have hkey : ∀ id ∈ changeIDs changes, ∃ s, keyOf changes id = s ++ id := by
    intro id hid
    obtain ⟨c, hc⟩ := Option.isSome_iff_exists.mp (isSome_index.mpr hid)
    rw [keyOf, byChange, hc, ← (get?_index hc).2]
    exact ⟨_, rfl⟩
  have hids : orderedIDs it changes = orderedIDs it' changes := by
    refine (orderedIDs_greedy it changes).unique (fun {a b} ha hb hab hba => ?_) (orderedIDs_greedy it' changes)
    rw [mem_toFinset] at ha hb
    obtain ⟨s, hs⟩ := hkey a ha
    obtain ⟨t, ht⟩ := hkey b hb
    have heq := GoString.le_antisymm hab hba
    rw [hs, ht] at heq
    exact append_inj_right' heq ((hlen a ha).trans (hlen b hb).symm)
  have hdeps : dependencies it changes = dependencies it' changes := by
    funext id
    refine Perm.eq_of_pairwise (fun _ _ _ _ => GoString.le_antisymm) (pairwise_insertionSort GoString.LE _)
      (pairwise_insertionSort GoString.LE _) ?_
    have hperm := (it.perm (.predecessors id) (changeGraph changes).edges.keys).trans (it'.perm (.predecessors id) _).symm
    exact ((perm_insertionSort _ _).trans (hperm.filter _)).trans (perm_insertionSort _ _).symm
  rw [orderChanges, orderChanges, hids, hdeps]

theorem orderChanges_reversed : orderChanges .sorted sampleChanges = orderChanges ⟨fun _ => reverse, fun _ => reverse_perm⟩ sampleChanges :=
  orderChanges_iteration _ _ (n := 1) (by decide)

/-! ### The snapshots of the changes -/

/-- The snapshot is the resource that the map holds under its ID. -/
def Snapshot (m : GoMap Resource) (r : Option Resource) : Prop := ∃ x, r = some x ∧ m.get? x.id = some x

/-- The snapshots before and after a change are those of the two documents; in between a renamed resource
is one of neither. -/
structure Faithful (cur want : GoMap Resource) (pairs : GoMap GoString) (cs : List Change) : Prop where
  before : ∀ c ∈ cs, c.operation = .drop ∨ c.operation = .rename ∨
    c.operation = .alter ∧ pairs.get? c.resourceID = some c.resourceID → Snapshot cur c.before
  after : ∀ c ∈ cs, c.operation = .create ∨ c.operation = .alter → Snapshot want c.after

/-- No dependency of a renamed resource is itself renamed. -/
def RenamesApart (cur : GoMap Resource) (pairs : GoMap GoString) : Prop :=
  ∀ o n r, pairs.get? o = some n → o ≠ n → cur.get? o = some r → ∀ t ∈ r.targets, ∀ t', pairs.get? t = some t' → t' = t

theorem remapped_eq_iff {pairs : GoMap GoString} {r : Resource} :
    remapped pairs r = r ↔ ∀ t ∈ r.targets, ∀ t', pairs.get? t = some t' → t' = t := by
  have hsame : remapped pairs r = r ↔ remapDependencies pairs r.dependencies = r.dependencies :=
    ⟨fun h => congrArg Resource.dependencies h, fun h => by rw [remapped, h]⟩
  have hmap : remapDependencies pairs r.dependencies = r.dependencies.map id ↔ _ := map_inj_left
  rw [map_id] at hmap
  rw [hsame, hmap, Resource.targets, forall_mem_map]
  refine forall₂_congr fun d _ => ?_
  rcases e : pairs.get? d.target with - | t
  · simp
  · simp only [Option.getD_some, id_eq, Option.some.injEq, forall_eq']
    exact ⟨fun h => congrArg Dependency.target h, fun h => by rw [h]⟩

section Snapshots

variable {it : MapIter RangeSite} {current desired : Document} {options : DiffOptions}
  {result : ChangeSet} {c : Change}

/-- The snapshots of one change. -/
theorem DiffRun.snapshots (run : DiffRun it current desired options result)
    (hapart : RenamesApart run.cur run.m.pairs) (hc : c ∈ run.changes) : (c.operation = .drop ∨ c.operation = .rename ∨
      c.operation = .alter ∧ run.m.pairs.get? c.resourceID = some c.resourceID → Snapshot run.cur c.before) ∧
    (c.operation = .create ∨ c.operation = .alter → Snapshot run.want c.after) := by
  rcases run.origin hc with ⟨w, h, hw⟩ | ⟨r, h, hr, -⟩ | ⟨o, n, before, after, ys, hp, hin⟩
  · exact ⟨fun hop => by simp [h.operation_eq] at hop, fun _ => ⟨w, h.after_eq, hw⟩⟩
  · exact ⟨fun _ => ⟨r, h.before_eq, hr⟩, fun hop => by simp [h.operation_eq] at hop⟩
  · have hb : run.cur.get? before.id = some before := (run.keyed.1 o before hp.cur_eq).symm ▸ hp.cur_eq
    have ha : run.want.get? after.id = some after := (run.keyed.2 n after hp.want_eq).symm ▸ hp.want_eq
    rcases hp.changes.mem hin with ⟨-, h⟩ | ⟨hne, h | h⟩
    · exact ⟨fun _ => ⟨before, h.before_eq, hb⟩, fun _ => ⟨after, h.after_eq, ha⟩⟩
    · have hsame := remapped_eq_iff.mpr (hapart o n before hp.pairs_eq hne hp.cur_eq)
      exact ⟨fun _ => ⟨before, hsame ▸ h.before_eq, hb⟩, fun hop => by simp [h.operation_eq] at hop⟩
    · refine ⟨fun hop => ?_, fun _ => ⟨after, h.after_eq, ha⟩⟩
      -- the result of a rename is not paired with itself
      have hid : c.resourceID = n := h.resourceID_eq.trans (run.keyed.2 n after hp.want_eq)
      simp only [h.operation_eq, reduceCtorEq, false_or, true_and, hid] at hop
      obtain ⟨r, hr⟩ := run.matched.1.cur_mem n n hop
      rw [(Matching.rename_fresh run.matched.1 run.matched.2 hp.pairs_eq hne).2] at hr
      cases hr

/-- **Faithful snapshots.**  The snapshots of a comparison are the resources of
the two documents exactly if no dependency of a renamed resource is renamed. -/
theorem snapshots_faithful_iff (h : diff it current desired options = .ok result) :
    ∃ run : DiffRun it current desired options result,
      Faithful run.cur run.want run.m.pairs result.changes ↔ RenamesApart run.cur run.m.pairs := by
  obtain ⟨run⟩ := diff_ok h
  refine ⟨run, fun hfaithful o n r hpair hne hr => ?_, fun hapart => ⟨fun c hc => ?_, fun c hc => ?_⟩⟩
  · obtain ⟨before, after, ys, hp⟩ := run.exists_pair hpair
    obtain rfl : r = before := Option.some.inj (hr.symm.trans hp.cur_eq)
    obtain ⟨c, hold, -, hc, -⟩ := hp.changes.filter_rename (run.keyed.1 o r hp.cur_eq)
      (run.keyed.2 n after hp.want_eq) hne
    have hmem : c ∈ ys := mem_of_mem_filter (hold ▸ mem_singleton_self c)
    obtain ⟨x, hx, hget⟩ := hfaithful.before (emitted it run.changes c)
      (run.ordered.perm.mem_iff.mpr (mem_map_of_mem (hp.mem_changes hmem)))
      (Or.inr (Or.inl hc.operation_eq))
    obtain rfl : remapped run.m.pairs r = x := Option.some.inj (hc.before_eq.symm.trans hx)
    refine remapped_eq_iff.mp (Option.some.inj (hget.symm.trans ?_))
    exact (run.keyed.1 o r hr).symm ▸ hr
  · obtain ⟨c, hc₀, rfl⟩ := run.mem_of_emitted (append_nil _).symm hc
    exact (run.snapshots hapart hc₀).1
  · obtain ⟨c, hc₀, rfl⟩ := run.mem_of_emitted (append_nil _).symm hc
    exact (run.snapshots hapart hc₀).2

end Snapshots

theorem snapshots_faithful_sample : ∃ result, diff .sorted sampleCurrent sampleDesired sampleOptions = .ok result ∧
      ∃ run : DiffRun .sorted sampleCurrent sampleDesired sampleOptions result,
        Faithful run.cur run.want run.m.pairs result.changes ↔ RenamesApart run.cur run.m.pairs := by
  obtain ⟨result, h, -⟩ := map_ok.mp sample_changes
  exact ⟨result, h, snapshots_faithful_iff h⟩

/-- The table and its enumeration under other names. -/
def renamedDocument : Document :=
  let enum := sampleResource kindEnum (str "state") []
  sampleDocument [enum, sampleResource kindTable (str "purchases")
    [{ target := enum.id, type := dependencyUses }]]

def renamedOptions : DiffOptions :=
  { renameHints := [⟨str "app.orders", str "app.purchases"⟩, ⟨str "app.status", str "app.state"⟩] }

/-- **An unfaithful snapshot.**  The table is renamed together with the
enumeration it uses, and the snapshot before its rename uses the new one. -/
theorem renamed_snapshot : sampleCurrent.validate id = .ok () ∧ renamedDocument.validate id = .ok () ∧
    (diff .sorted sampleCurrent renamedDocument renamedOptions).map (fun r => r.changes.filterMap fun c =>
      if c.operation = .rename ∧ snapshotID c.before = sampleTable.id then c.before else none) =
        .ok [{ sampleTable with dependencies :=
          [{ target := (sampleResource kindEnum (str "state") []).id, type := dependencyUses }] }] := by
  decide +kernel

/-! ### Rename hints -/

/-- The errors with the sentinel `ErrAmbiguousRename`. -/
def Error.isAmbiguousRename : Error → Bool
  | .unresolvedHint _ _ | .ambiguousRename _ _ | .conflictingSource _ | .crossParentRename _ _ => true
  | _ => false

/-- An extension that moves to another schema. -/
def ResolvedHint.movesExtension (x : ResolvedHint) : Prop :=
  x.src.kind = kindExtension ∧ x.src.name.name = x.dst.name.name ∧ x.src.name.catalog = x.dst.name.catalog

/-- Hints that keep every object in its container. -/
structure Contained (items : List ResolvedHint) : Prop where
  kind : ∀ x ∈ items, x.src.kind = x.dst.kind
  container : ∀ x ∈ items, (x.src.name.parent = x.dst.name.parent ∧
      x.src.name.catalog = x.dst.name.catalog ∧ x.src.name.schema = x.dst.name.schema) ∨
    (x.src.name.parent ≠ [] ∧ ∃ y ∈ items, y.src.id = x.src.name.parent ∧ y.dst.id = x.dst.name.parent) ∨
    x.movesExtension
  once : items.Pairwise fun x y => x.src.id ≠ y.src.id ∧ x.dst.id ≠ y.dst.id

/-- The hint takes an object out of a parent that no hint renames, to no parent
at all. -/
def Escapes (items : List ResolvedHint) (x : ResolvedHint) : Prop :=
  x.src.name.parent ≠ [] ∧ x.dst.name.parent = [] ∧ (∀ y ∈ items, y.src.id ≠ x.src.name.parent) ∧ ¬ x.movesExtension

section Hints

variable {it : MapIter RangeSite} {cur want : GoMap Resource} {hints : List RenameHint} {i : Nat}
  {hp : GoMap GoString} {items : List ResolvedHint} {m m' : Matching} {seen : GoSet} {e : Error}

theorem resolveResource_error {site : RangeSite} {value : GoString}
    (h : resolveResource it site cur value = .error e) : e.isAmbiguousRename = true := by
  rw [resolveResource] at h
  split at h
  · cases h
  · split at h
    · cases h
    · cases h
      rfl

theorem resolveHints_error (h : resolveHints it cur want i hints hp = .error e) : e.isAmbiguousRename = true := by
  induction hints generalizing i hp with
  | nil => cases h
  | cons hint hints ih =>
    simp only [resolveHints, bind_error, error_bind] at h
    rcases h with h | ⟨src, -, h | ⟨dst, -, h⟩⟩
    · exact resolveResource_error h
    · exact resolveResource_error h
    · split_ifs at h
      · cases h
        rfl
      · cases h
        rfl
      · rcases bind_error.mp h with h | ⟨_, -, h⟩
        · exact ih h
        · cases h

theorem matchHints_error (h : matchHints hp items m seen = .error e) : e.isAmbiguousRename = true := by
  induction items generalizing m seen with
  | nil => cases h
  | cons item items ih =>
    rw [matchHints] at h
    split_ifs at h
    · cases h
      rfl
    · cases h
      rfl
    · exact ih h

theorem matching_error (h : matching it cur want hints = .error e) : e.isAmbiguousRename = true := by
  simp only [matching, bind_error] at h
  rcases h with hr | ⟨_, -, hm | ⟨_, -, h⟩⟩
  · exact resolveHints_error hr
  · exact matchHints_error hm
  · cases h

/-- Matched hints are allowed, and use no end twice. -/
theorem matchHints_ok (h : matchHints hp items m seen = .ok m') :
    (∀ x ∈ items, renameAllowed hp x.src x.dst = true ∧ m.matchedCur.has x.src.id = false ∧
        m.matchedWant.has x.dst.id = false) ∧ items.Pairwise fun x y => x.src.id ≠ y.src.id ∧ x.dst.id ≠ y.dst.id := by
  induction items generalizing m seen with
  | nil => simp
  | cons item items ih =>
    rw [matchHints] at h
    simp only [guard_ok, Bool.not_eq_true, Bool.or_eq_false_iff, Bool.not_eq_false'] at h
    obtain ⟨⟨⟨hsrc, hdst⟩, -⟩, hallowed, h⟩ := h
    obtain ⟨hall, honce⟩ := ih h
    simp only [Matching.add, ← Bool.not_eq_true, GoSet.has_add, not_or] at hall
    simp only [← Bool.not_eq_true] at hsrc hdst ⊢
    rw [forall_mem_cons, pairwise_cons]
    refine ⟨⟨⟨hallowed, hsrc, hdst⟩, fun x hx => ?_⟩, fun x hx => ?_, honce⟩
    · obtain ⟨hx, hc, hw⟩ := hall x hx
      exact ⟨hx, hc.2, hw.2⟩
    · obtain ⟨-, hc, hw⟩ := hall x hx
      exact ⟨Ne.symm hc.1, Ne.symm hw.1⟩

/-- Hints that pass the checks are contained, unless one of them escapes. -/
theorem contained_iff (hcur : Keyed cur) (hwant : Keyed want)
    (hr : resolveHints it cur want i hints .empty = .ok (items, hp)) (hm : matchHints hp items m seen = .ok m') :
    Contained items ↔ ∀ x ∈ items, ¬ Escapes items x := by
  obtain ⟨hitems, hget⟩ := resolveHints_ok hcur hwant hr
  obtain ⟨hall, honce⟩ := matchHints_ok hm
  constructor
  · rintro h x hx ⟨hne, hnil, hno, hext⟩
    rcases h.container x hx with hsame | ⟨-, y, hy, hid, -⟩ | hmove
    · exact hne (hsame.1.trans hnil)
    · exact hno y hy hid
    · exact hext hmove
  · refine fun hno => ⟨fun x hx => (hitems x hx).2.2, fun x hx => ?_, honce⟩
    have hallowed := (hall x hx).1
    rw [renameAllowed, decide_eq_true_eq] at hallowed
    rcases hallowed with hsame | ⟨hne, hparent⟩ | hext
    · exact Or.inl hsame
    · rcases e : hp.get? x.src.name.parent with - | v
      · -- a parent that is not hinted reads as no parent
        rw [e] at hparent
        refine Or.inr (Or.inr (by_contra fun hext => hno x hx ⟨hne, hparent.symm, fun y hy hid => ?_, hext⟩))
        rw [(hget _ y.dst.id).mpr (Or.inr ⟨y, hy, hid, rfl⟩)] at e
        cases e
      · rw [e] at hparent
        obtain ⟨y, hy, hid, hv⟩ := ((hget _ v).mp e).resolve_left (by simp)
        exact Or.inr (Or.inl ⟨hne, y, hy, hid, hv.trans hparent⟩)
    · exact Or.inr (Or.inr hext)

end Hints

section Containers

variable (it : MapIter RangeSite) (current desired : Document) (options : DiffOptions)

/-- What `P` says of the resources that `Diff` compares. -/
def OnSelected (P : GoMap Resource → GoMap Resource → Prop) : Prop := ∀ selCurrent selDesired,
  select it .current current options.includes options.excludes = .ok selCurrent →
  select it .desired desired options.includes options.excludes = .ok selDesired →
    P (resourceMap selCurrent) (resourceMap selDesired)

/-- Hints that do not keep the objects in their containers are refused as ambiguous. -/
def KeepsContainers : Prop := OnSelected it current desired options fun cur want =>
  (∀ items hp, resolveHints it cur want 0 options.renameHints .empty = .ok (items, hp) → ¬ Contained items) →
    ∃ e, matching it cur want options.renameHints = .error e ∧ diff it current desired options = .error e ∧
      e.isAmbiguousRename = true

/-- No hint of a list that passes the checks escapes. -/
def NoEscape : Prop := OnSelected it current desired options fun cur want =>
  ∀ items hp m, resolveHints it cur want 0 options.renameHints .empty = .ok (items, hp) →
    matchHints hp items (matchIdentity it cur want) .empty = .ok m → ∀ x ∈ items, ¬ Escapes items x

/-- **Rename hints.**  They keep every object in its container exactly if none
takes an object out of an unhinted parent to no parent. -/
theorem keepsContainers_iff : KeepsContainers it current desired options ↔ NoEscape it current desired options := by
  refine forall₄_congr fun selCurrent selDesired hc hd => ?_
  constructor
  · intro hrefused items hp m hr hm
    by_contra hesc
    obtain ⟨e, he, -⟩ := hrefused fun items' hp' hr' hcont => by
      obtain ⟨rfl, -⟩ := Prod.mk.inj (Except.ok.inj (hr.symm.trans hr'))
      exact hesc ((contained_iff (keyed_resourceMap _) (keyed_resourceMap _) hr hm).mp hcont)
    simp only [matching, bind_error, hr, reduceCtorEq, false_or, Except.ok.injEq, exists_eq_left', hm] at he
  · intro hno hnot
    rcases he : matching it (resourceMap selCurrent) (resourceMap selDesired) options.renameHints with e | m
    · refine ⟨e, rfl, ?_, matching_error he⟩
      simp only [diff, hc, hd, bind_error, he, reduceCtorEq, false_or, Except.ok.injEq, exists_eq_left', true_or]
    · simp only [matching, bind_ok] at he
      obtain ⟨⟨items, hp⟩, hr, m', hm, -⟩ := he
      refine absurd ?_ (hnot items hp hr)
      exact (contained_iff (keyed_resourceMap _) (keyed_resourceMap _) hr hm).mpr (hno items hp m' hr hm)

end Containers

/-- A column of the table, and one of no table. -/
def sampleColumn (parent : GoString) : Resource :=
  let name : Name := { schema := str "app", name := str "id", parent := parent }
  { id := stableID kindColumn name, kind := kindColumn, name := name }

/-- **An escape.**  The column leaves its table by a rename. -/
theorem escaped_column : let current := sampleDocument [sampleEnum, sampleTable, sampleColumn sampleTable.id]
    let desired := sampleDocument [sampleColumn []]
    current.validate id = .ok () ∧ desired.validate id = .ok () ∧
    (diff .sorted current desired { renameHints := [⟨(sampleColumn sampleTable.id).id, (sampleColumn []).id⟩] }).map
      (fun r => r.changes.filterMap fun c =>
        if c.operation = .rename then some (c.before.map (·.name.parent), c.after.map (·.name.parent)) else none) =
      .ok [(some sampleTable.id, some [])] := by
  decide +kernel

end AutoSql.Schema
