/-
AutoSql/Schema/Part.lean

Parts of valid documents.

`Document.validate` ends with a depth-first search for cycles.  If it succeeds, every
resource is accessible along dependencies (`visit_acc`); and from accessible resources
it succeeds, whatever the order, with the fuel it has (`visit_of_acc`).  The other
checks look at one resource at a time.

Main result: a part of a valid document is valid if it has what its resources refer to
(`validate_part`).
-/
import AutoSql.Schema.Model

namespace AutoSql.Schema

open List Fallible Relation

/-! ### The search for cycles -/

/-- `x` depends on `y`. -/
def Dep (adj : GoMap (List GoString)) (y x : GoString) : Prop := y ∈ (adj.get? x).getD []

/-- The finished resources are accessible. -/
def Finished (adj : GoMap (List GoString)) (state : GoMap Nat) : Prop := ∀ x, state.get? x = some 2 → Acc (Dep adj) x

variable {adj : GoMap (List GoString)} {state state' : GoMap Nat} {id : GoString} {fuel : Nat}

theorem visits_acc {l : List GoString} (hvisit : ∀ {s s' : GoMap Nat} {y}, visit adj fuel s y = .ok s' → Finished adj s →
      Acc (Dep adj) y ∧ Finished adj s')
    (h : l.foldlM (visit adj fuel) state = .ok state') (hstate : Finished adj state) : (∀ y ∈ l, Acc (Dep adj) y) ∧ Finished adj state' := by
  refine foldlM_inv (I := fun done s => (∀ y ∈ done, Acc (Dep adj) y) ∧ Finished adj s) h ⟨nofun, hstate⟩ fun done y s s' hd hy => ?_
  obtain ⟨hacc, hs'⟩ := hvisit hy hd.2
  exact ⟨forall_mem_append.mpr ⟨hd.1, forall_mem_singleton.mpr hacc⟩, hs'⟩

theorem visit_acc (h : visit adj fuel state id = .ok state') (hstate : Finished adj state) :
    Acc (Dep adj) id ∧ Finished adj state' := by
  induction fuel generalizing state state' id with
  | zero => cases h
  | succ fuel ih =>
    rw [visit] at h
    split_ifs at h with h₁ h₂
    · cases h
      exact ⟨hstate id h₂, hstate⟩
    · obtain ⟨s, hloop, h⟩ := bind_ok.mp h
      cases h
      have hstart : Finished adj (state.insert id 1) := by
        intro x hx
        rw [GoMap.get?_insert] at hx
        split_ifs at hx
        · cases hx
        · exact hstate x hx
      obtain ⟨hdeps, hs⟩ := visits_acc ih hloop hstart
      have hacc : Acc (Dep adj) id := .intro id hdeps
      refine ⟨hacc, fun x hx => ?_⟩
      rw [GoMap.get?_insert] at hx
      split_ifs at hx with heq
      · exact heq ▸ hacc
      · exact hs x hx

/-- The resources in progress are those of `P`. -/
def InProgress (P : Finset GoString) (state : GoMap Nat) : Prop := ∀ x, state.get? x = some 1 ↔ x ∈ P

theorem not_of_acc {r : GoString → GoString → Prop} {x : GoString} (h : Acc r x) : ¬ r x x := by
  induction h with
  | intro x _ ih => exact fun hx => ih x hx hx

/-- The path to the resource is of different resources of `N`, so the fuel lasts. -/
theorem visit_of_acc {N P : Finset GoString} (hN : ∀ x ∈ N, ∀ y, Dep adj y x → y ∈ N) (hacc : Acc (Dep adj) id) (hid : id ∈ N)
    (hP : P ⊆ N) (hfuel : N.card < fuel + P.card) (hpath : ∀ p ∈ P, TransGen (Dep adj) id p) (hstate : InProgress P state) :
    ∃ state', visit adj fuel state id = .ok state' ∧ InProgress P state' := by
  induction hacc generalizing fuel state P with
  | intro id hacc ih =>
    have hnot : id ∉ P := fun h => not_of_acc (Acc.intro id hacc).transGen (hpath id h)
    obtain _ | fuel := fuel
    · have := Finset.card_le_card hP
      omega
    rw [visit, if_neg fun h => hnot ((hstate id).mp h)]
    split_ifs with h₂
    · exact ⟨state, rfl, hstate⟩
    have hstart : InProgress (insert id P) (state.insert id 1) := by
      intro x
      rw [GoMap.get?_insert, Finset.mem_insert, ← hstate]
      split_ifs with hx <;> simp [hx]
    obtain ⟨s, hloop, hs⟩ := exists_foldlM_ok (l := (adj.get? id).getD []) (f := visit adj fuel) hstart fun y hy s hs => by
      refine ih y hy (hN id hid y hy) (Finset.insert_subset hid hP) ?_ ?_ hs
      · rw [Finset.card_insert_of_notMem hnot]
        omega
      · intro p hp
        rcases Finset.mem_insert.mp hp with rfl | hp
        · exact .single hy
        · exact .head hy (hpath p hp)
    rw [hloop]
    refine ⟨s.insert id 2, rfl, fun x => ?_⟩
    rw [GoMap.get?_insert]
    split_ifs with hx
    · simp [hx, hnot]
    · rw [hs, Finset.mem_insert]
      simp [hx]

theorem search_of_acc {order : List GoString → List GoString} (horder : ∀ l, (order l).Perm l) {ids : GoSet}
    (hids : ∀ x y, Dep adj y x → ids.has y = true) (hacc : ∀ x, ids.has x = true → Acc (Dep adj) x) :
    ∃ s, (order ids.keys).foldlM (visit adj (ids.size + 1)) .empty = .ok s := by
  have hmem : ∀ x, x ∈ ids.keys.toFinset ↔ ids.has x = true := fun x => mem_toFinset.trans GoSet.mem_keys
  have hcard : ids.keys.toFinset.card = ids.size := by
    rw [toFinset_card_of_nodup ids.nodup_keys, GoMap.keys, length_map]
    rfl
  obtain ⟨s, hs, -⟩ := exists_foldlM_ok (l := order ids.keys) (f := visit adj (ids.size + 1)) (I := InProgress ∅) (s := .empty)
    (by simp [InProgress]) fun x hx s hs => by
      have hx : ids.has x = true := GoSet.mem_keys.mp ((horder _).mem_iff.mp hx)
      refine visit_of_acc (fun z _ y hyz => (hmem y).mpr (hids z y hyz)) (hacc x hx) ((hmem x).mpr hx) (Finset.empty_subset _) ?_
        (by simp) hs
      rw [hcard]
      exact Nat.lt_succ_self _
  exact ⟨s, hs⟩

theorem dep_adjacency {rs : List Resource} (h : (rs.map Resource.id).Nodup) {x y : GoString} :
    Dep (adjacency rs) y x ↔ ∃ r ∈ rs, r.id = x ∧ y ∈ r.targets := by
  have hkeys : (rs.map fun r => (r.id, r.targets)).map Prod.fst = rs.map Resource.id := map_map
  have hdep : Dep (adjacency rs) y x ↔ ∃ l, (adjacency rs).get? x = some l ∧ y ∈ l := by
    rw [Dep]
    cases (adjacency rs).get? x <;> simp
  rw [hdep]
  simp only [adjacency, GoMap.get?_ofList_of_nodup (hkeys ▸ h), mem_map, Prod.mk.injEq]
  constructor
  · rintro ⟨_, ⟨r, hr, hid, rfl⟩, hy⟩
    exact ⟨r, hr, hid, hy⟩
  · rintro ⟨r, hr, hid, hy⟩
    exact ⟨_, ⟨r, hr, hid, rfl⟩, hy⟩

/-! ### The other checks -/

variable {rs : List Resource} {ids ids' : GoSet}

theorem checkResources_of {i : Nat} (h : ∀ r ∈ rs, ∃ i seen, checkResource i r seen = .ok ())
    (hfresh : ids.Fresh (rs.map Resource.id)) : ∃ out, checkResources i rs ids = .ok out := by
  induction rs generalizing i ids with
  | nil => exact ⟨ids, rfl⟩
  | cons r rs ih =>
    rw [forall_mem_cons] at h
    rw [map_cons, GoSet.fresh_cons] at hfresh
    have hr : checkResource i r ids = .ok () := by
      obtain ⟨j, seen, hj⟩ := h.1
      rw [checkResource] at hj ⊢
      simp only [guard_ok] at hj ⊢
      obtain ⟨hkind, hname, hne, heq, -, hrest⟩ := hj
      exact ⟨hkind, hname, hne, heq, by simp [hfresh.1], hrest⟩
    rw [checkResources, hr]
    exact ih h.2 hfresh.2

theorem checkDependencies_of {deps : List Dependency} {seen : GoSet} (h : checkDependencies ids id deps seen = .ok ())
    (hids : ∀ dep ∈ deps, ids'.has dep.target = true) : checkDependencies ids' id deps seen = .ok () := by
  induction deps generalizing seen with
  | nil => rfl
  | cons dep deps ih =>
    rw [forall_mem_cons] at hids
    rw [checkDependencies] at h ⊢
    simp only [guard_ok] at h ⊢
    obtain ⟨htype, -, hself, hnew, hrest⟩ := h
    exact ⟨htype, by simp [hids.1], hself, hnew, ih hrest hids.2⟩

/-! ### Parts -/

/-- **A part is valid** if it has the resources of the document that its own refer to. -/
theorem validate_part {d d' : Document} {order order' : List GoString → List GoString} (horder : ∀ l, (order l).Perm l)
    (horder' : ∀ l, (order' l).Perm l) (h : d.validate order = .ok ()) (hversion : d'.version = d.version)
    (hsub : d'.resources <+ d.resources) (hclosed : ∀ r ∈ d'.resources, ∀ x ∈ d.ids, r.refers x → x ∈ d'.ids) :
    d'.validate order' = .ok () := by
  have hvalid := validate_ok h
  have hnodup' : d'.ids.Nodup := hvalid.nodup.sublist (hsub.map _)
  unfold Document.validate at h ⊢
  simp only [bind_ok, error_bind, guard_ok] at h ⊢
  obtain ⟨hv, ids, hids, ⟨⟩, hrefs, states, hvisit, -⟩ := h
  obtain ⟨hall, hfresh, hmem⟩ := checkResources_ok hids
  simp only [GoSet.has_empty, Bool.false_eq_true, false_or] at hmem
  obtain ⟨ids', hids'⟩ := checkResources_of (i := 0) (fun r hr => hall r (hsub.subset hr)) (GoSet.fresh_empty hnodup')
  have hmem' := (checkResources_ok hids').2.2
  simp only [GoSet.has_empty, Bool.false_eq_true, false_or] at hmem'
  -- what a resource of the part depends on is in the part
  have htarget : ∀ r ∈ d'.resources, ∀ x ∈ r.targets, x ∈ d'.ids := by
    intro r hr x hx
    refine hclosed r hr x ?_ (.inr hx)
    obtain ⟨dep, hdep, rfl⟩ := mem_map.mp hx
    exact (hmem _).mp (checkDependencies_ok (checkReferences_ok.mp hrefs r (hsub.subset hr)).2 dep hdep)
  refine ⟨hversion ▸ hv, ids', hids', (), checkReferences_ok.mpr fun r hr => ?_, ?_⟩
  · obtain ⟨hparent, hdeps⟩ := checkReferences_ok.mp hrefs r (hsub.subset hr)
    refine ⟨fun hne => (hmem' _).mpr (hclosed r hr _ ((hmem _).mp (hparent hne)) (.inl rfl)), checkDependencies_of hdeps fun dep hdep => ?_⟩
    exact (hmem' _).mpr (htarget r hr _ (mem_map_of_mem hdep))
  · -- the edges of the part are edges of the document
    have hacc : ∀ x, ids'.has x = true → Acc (Dep (adjacency d'.resources)) x := by
      intro x hx
      have hkey : x ∈ ids.keys := GoSet.mem_keys.mpr ((hmem x).mpr ((hsub.map _).subset ((hmem' x).mp hx)))
      have hvisited := (visits_acc visit_acc hvisit nofun).1 x ((horder _).mem_iff.mpr hkey)
      refine Subrelation.accessible (fun {y z} hyz => ?_) hvisited
      obtain ⟨r, hr, hz, hy⟩ := (dep_adjacency hnodup').mp hyz
      exact (dep_adjacency hvalid.nodup).mpr ⟨r, hsub.subset hr, hz, hy⟩
    have hinside : ∀ x y, Dep (adjacency d'.resources) y x → ids'.has y = true := by
      intro x y hyx
      obtain ⟨r, hr, -, hy⟩ := (dep_adjacency hnodup').mp hyx
      exact (hmem' y).mpr (htarget r hr y hy)
    obtain ⟨s, hs⟩ := search_of_acc horder' hinside hacc
    exact ⟨s, hs, trivial⟩

end AutoSql.Schema
