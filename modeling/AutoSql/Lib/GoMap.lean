/-
AutoSql/Lib/GoMap.lean

Go maps with string keys.  A map is the list of its entries in increasing
order of keys.  The order is not visible to a Go program, which ranges over a
map in an arbitrary order; it makes the representation canonical, so that two
maps with the same entries are equal (`ext`), and it is the order in which
`encoding/json` writes a map.

The operations are `m[k]` (`get?`), `m[k] = v` (`insert`), `delete` (`erase`),
and building a map entry by entry (`ofList`, where the last value of a key
wins).  `keys` is what an iteration visits, in the order of the list.
-/
import AutoSql.Lib.GoString

namespace AutoSql

open List

variable {β γ : Type}

/-- Strictly increasing keys. -/
def SortedKeys (l : List (GoString × β)) : Prop :=
  l.Pairwise fun a b => GoString.lt a.1 b.1 = true

/-- A Go map with string keys. -/
structure GoMap (β : Type) where
  entries : List (GoString × β)
  sorted : SortedKeys entries

namespace GoMap

instance [DecidableEq β] : DecidableEq (GoMap β) := fun m n =>
  decidable_of_iff (m.entries = n.entries) ⟨fun h => by cases m; cases n; simp_all, fun h => h ▸ rfl⟩

/-! ### Entry lists -/

def insertList (k : GoString) (v : β) : List (GoString × β) → List (GoString × β)
  | [] => [(k, v)]
  | p :: l =>
    if GoString.lt k p.1 then (k, v) :: p :: l
    else if k = p.1 then (k, v) :: l
    else p :: insertList k v l

variable {l : List (GoString × β)}

theorem mem_insertList {k : GoString} {v : β} {p : GoString × β} (h : p ∈ insertList k v l) : p = (k, v) ∨ p ∈ l := by
  induction l with
  | nil => simpa [insertList] using h
  | cons q l ih =>
    rw [insertList] at h
    split_ifs at h with h₁ h₂
    · simpa using h
    · rcases mem_cons.mp h with rfl | h
      · exact Or.inl rfl
      · exact Or.inr (mem_cons_of_mem _ h)
    · rcases mem_cons.mp h with rfl | h
      · exact Or.inr mem_cons_self
      · exact (ih h).imp id (mem_cons_of_mem _)

theorem sorted_insertList (k : GoString) (v : β) (h : SortedKeys l) : SortedKeys (insertList k v l) := by
  induction l with
  | nil => exact pairwise_singleton _ _
  | cons q l ih =>
    obtain ⟨hq, hl⟩ := pairwise_cons.mp h
    rw [insertList]
    split_ifs with h₁ h₂
    · refine pairwise_cons.mpr ⟨?_, h⟩
      intro p hp
      rcases mem_cons.mp hp with rfl | hp
      · exact h₁
      · exact GoString.lt_trans h₁ (hq p hp)
    · subst h₂
      exact pairwise_cons.mpr ⟨hq, hl⟩
    · refine pairwise_cons.mpr ⟨?_, ih hl⟩
      intro p hp
      rcases mem_insertList hp with rfl | hp
      · exact ((GoString.lt_or_eq_or_lt k q.1).resolve_left h₁).resolve_left h₂
      · exact hq p hp

/-- The value of the first entry with key `k`. -/
def lookup (k : GoString) : List (GoString × β) → Option β
  | [] => none
  | p :: l => if k = p.1 then some p.2 else lookup k l

theorem lookup_insertList (k : GoString) (v : β) (k' : GoString) (l : List (GoString × β)) :
    lookup k' (insertList k v l) = if k' = k then some v else lookup k' l := by
  induction l with
  | nil => rfl
  | cons q l ih =>
    rw [insertList]
    by_cases h₁ : GoString.lt k q.1 = true
    · rw [if_pos h₁, lookup]
    · rw [if_neg h₁]
      by_cases h₂ : k = q.1
      · rw [if_pos h₂, lookup, lookup, ← h₂]
        split_ifs <;> rfl
      · rw [if_neg h₂, lookup, lookup, ih]
        split_ifs with h₃ h₄
        · exact absurd (h₄.symm.trans h₃) h₂
        · rfl
        · rfl
        · rfl

theorem lookup_append (k : GoString) (l l' : List (GoString × β)) :
    lookup k (l ++ l') = (lookup k l).or (lookup k l') := by
  induction l with
  | nil => rfl
  | cons q l ih =>
    rw [cons_append, lookup, lookup, ih]
    split_ifs <;> rfl

theorem lookup_filter_ne (k k' : GoString) (l : List (GoString × β)) :
    lookup k' (l.filter fun p => p.1 ≠ k) = if k' = k then none else lookup k' l := by
  induction l with
  | nil => simp [lookup]
  | cons q l ih =>
    by_cases hq : q.1 = k
    · rw [filter_cons_of_neg (by simpa using hq), ih, lookup]
      split_ifs with h h'
      · rfl
      · exact absurd (h'.trans hq) h
      · rfl
    · rw [filter_cons_of_pos (by simpa using hq), lookup, lookup, ih]
      split_ifs with h h' h'
      · exact absurd (h.symm.trans h') hq
      · rfl
      · rfl
      · rfl

theorem lookup_eq_some {k : GoString} {v : β} (hl : SortedKeys l) : lookup k l = some v ↔ (k, v) ∈ l := by
  induction l with
  | nil => simp [lookup]
  | cons q l ih =>
    obtain ⟨hq, hl⟩ := pairwise_cons.mp hl
    rw [lookup, mem_cons]
    split_ifs with h
    · subst h
      have hn : (q.1, v) ∉ l := fun hm => by simpa using hq _ hm
      simp [hn, Prod.ext_iff, eq_comm]
    · simp [h, ih hl, Prod.ext_iff]

/-! ### Operations -/

def empty : GoMap β := ⟨[], List.Pairwise.nil⟩

/-- `m[k]`, with the `ok` of Go's two-valued form. -/
def get? (m : GoMap β) (k : GoString) : Option β := lookup k m.entries

/-- `_, ok := m[k]`. -/
def contains (m : GoMap β) (k : GoString) : Bool := (m.get? k).isSome

/-- `m[k] = v`. -/
def insert (m : GoMap β) (k : GoString) (v : β) : GoMap β :=
  ⟨insertList k v m.entries, sorted_insertList k v m.sorted⟩

/-- `delete(m, k)`. -/
def erase (m : GoMap β) (k : GoString) : GoMap β :=
  ⟨m.entries.filter fun p => p.1 ≠ k, m.sorted.filter _⟩

def keys (m : GoMap β) : List GoString := m.entries.map Prod.fst

/-- `len(m)`. -/
def size (m : GoMap β) : Nat := m.entries.length

def map (f : β → γ) (m : GoMap β) : GoMap γ :=
  ⟨m.entries.map fun p => (p.1, f p.2), by simpa [SortedKeys, pairwise_map] using m.sorted⟩

/-- The map made by assigning the entries of a list one after the other. -/
def ofList (l : List (GoString × β)) : GoMap β := l.foldl (fun m p => m.insert p.1 p.2) empty

variable {m n : GoMap β} {k k' : GoString} {v : β}

@[simp] theorem get?_empty : (empty : GoMap β).get? k = none := rfl

theorem get?_insert : (m.insert k v).get? k' = if k' = k then some v else m.get? k' :=
  lookup_insertList k v k' m.entries

@[simp] theorem get?_insert_self : (m.insert k v).get? k = some v := by simp [get?_insert]

theorem get?_insert_ne (h : k' ≠ k) : (m.insert k v).get? k' = m.get? k' := by
  simp [get?_insert, h]

theorem get?_erase : (m.erase k).get? k' = if k' = k then none else m.get? k' :=
  lookup_filter_ne k k' m.entries

/-! ### Membership -/

theorem nodup_keys (m : GoMap β) : m.keys.Nodup := by
  refine pairwise_map.mpr (List.Pairwise.imp ?_ m.sorted)
  intro a b h hab
  simp [hab] at h

theorem get?_eq_some : m.get? k = some v ↔ (k, v) ∈ m.entries :=
  lookup_eq_some m.sorted

theorem mem_keys : k ∈ m.keys ↔ (m.get? k).isSome = true := by
  rw [Option.isSome_iff_exists, keys, mem_map]
  constructor
  · rintro ⟨p, hp, rfl⟩
    exact ⟨p.2, get?_eq_some.mpr hp⟩
  · rintro ⟨v, hv⟩
    exact ⟨(k, v), get?_eq_some.mp hv, rfl⟩

theorem contains_iff : m.contains k = true ↔ ∃ v, m.get? k = some v := Option.isSome_iff_exists

theorem get?_eq_none : m.get? k = none ↔ k ∉ m.keys := by
  rw [mem_keys]
  cases m.get? k <;> simp

/-- Maps with the same entries are equal. -/
theorem filter_entries (h : m.get? k = some v) : (m.entries.filter fun p => p.1 = k) = [(k, v)] := by
  have hnodup : (m.entries.filter fun p => p.1 = k).Nodup := (m.nodup_keys.of_map _).filter _
  refine perm_singleton.mp ((perm_ext_iff_of_nodup hnodup (nodup_singleton _)).mpr fun ⟨k', v'⟩ => ?_)
  simp only [mem_filter, ← get?_eq_some, mem_singleton, decide_eq_true_eq]
  grind

@[ext] theorem ext (h : ∀ k, m.get? k = n.get? k) : m = n := by
  have hperm : m.entries.Perm n.entries := by
    refine (perm_ext_iff_of_nodup ?_ ?_).mpr ?_
    · exact List.Nodup.of_map _ m.nodup_keys
    · exact List.Nodup.of_map _ n.nodup_keys
    · rintro ⟨k, v⟩
      rw [← get?_eq_some, ← get?_eq_some, h]
  have heq : m.entries = n.entries := by
    refine hperm.eq_of_pairwise ?_ m.sorted n.sorted
    intro a b _ _ hab hba
    rw [GoString.lt_asymm hab] at hba
    cases hba
  cases m; cases n; cases heq; rfl

theorem insert_insert {v' : β} : (m.insert k v).insert k v' = m.insert k v' := by
  ext k' : 1
  simp only [get?_insert]
  split_ifs <;> rfl

/-- An entry that is there already. -/
theorem insert_of_get? (h : m.get? k = some v) : m.insert k v = m := by
  ext k' : 1
  rw [get?_insert]
  split_ifs with hk
  · exact hk ▸ h.symm
  · rfl

theorem erase_insert (h : m.get? k = none) : (m.insert k v).erase k = m := by
  ext k' : 1
  rw [get?_erase, get?_insert]
  split_ifs with hk
  · exact hk ▸ h.symm
  · rfl

theorem erase_of_get? (h : m.get? k = none) : m.erase k = m := by
  ext k' : 1
  rw [get?_erase]
  split_ifs with hk
  · exact hk ▸ h.symm
  · rfl

/-- The number of entries, from a list of the keys. -/
theorem size_of_list {l : List GoString} (hl : l.Nodup) (h : ∀ k, k ∈ m.keys ↔ k ∈ l) : m.size = l.length := by
  have hlen := ((perm_ext_iff_of_nodup m.nodup_keys hl).mpr h).length_eq
  rwa [keys, length_map] at hlen

/-- The first key with a property, if the keys with that property are the same. -/
theorem find?_keys_congr {p : GoString → Bool} (h : ∀ k, p k = true → (m.get? k).isSome = (n.get? k).isSome) :
    m.keys.find? p = n.keys.find? p := by
  have hsorted : ∀ m : GoMap β, (m.keys.filter p).Pairwise fun a b => GoString.lt a b = true := by
    intro m
    refine List.Pairwise.filter p (pairwise_map.mpr ?_)
    exact m.sorted
  have hmem : ∀ k, k ∈ m.keys.filter p ↔ k ∈ n.keys.filter p := by
    intro k
    rw [mem_filter, mem_filter, mem_keys, mem_keys]
    refine and_congr_left fun hk => ?_
    rw [h k hk]
  have hperm : (m.keys.filter p).Perm (n.keys.filter p) :=
    (perm_ext_iff_of_nodup (m.nodup_keys.filter p) (n.nodup_keys.filter p)).mpr hmem
  have heq : m.keys.filter p = n.keys.filter p :=
    hperm.eq_of_pairwise (fun a b _ _ h₁ h₂ => absurd h₂ (by simp [GoString.lt_asymm h₁])) (hsorted m) (hsorted n)
  rw [← head?_filter, ← head?_filter, heq]

/-! ### Building a map from a list -/

theorem get?_foldl_insert (l : List (GoString × β)) (m : GoMap β) :
    (l.foldl (fun m p => m.insert p.1 p.2) m).get? k = (lookup k l.reverse).or (m.get? k) := by
  induction l generalizing m with
  | nil => rfl
  | cons p l ih =>
    rw [foldl_cons, ih, reverse_cons, lookup_append, get?_insert]
    cases lookup k l.reverse with
    | some v => rfl
    | none =>
      by_cases h : k = p.1 <;> simp [lookup, h]

/-- The last value of a key wins. -/
theorem get?_ofList (l : List (GoString × β)) : (ofList l).get? k = lookup k l.reverse := by
  simp [ofList, get?_foldl_insert]

theorem mem_of_lookup (h : lookup k l = some v) : (k, v) ∈ l := by
  induction l with
  | nil => cases h
  | cons p l ih =>
    rw [lookup] at h
    split_ifs at h with hk
    · cases h
      exact hk ▸ mem_cons_self
    · exact mem_cons_of_mem _ (ih h)

theorem isSome_lookup : (lookup k l).isSome = true ↔ k ∈ l.map Prod.fst := by
  induction l with
  | nil => simp [lookup]
  | cons p l ih =>
    rw [lookup]
    split_ifs with hk
    · simp [hk]
    · simp [ih, hk]

/-- If no key occurs twice, the map has the entries of the list. -/
theorem get?_ofList_of_nodup (hl : (l.map Prod.fst).Nodup) : (ofList l).get? k = some v ↔ (k, v) ∈ l := by
  rw [get?_ofList]
  constructor
  · intro h
    exact mem_reverse.mp (mem_of_lookup h)
  · intro h
    have hk : k ∈ l.reverse.map Prod.fst := mem_map_of_mem (mem_reverse.mpr h)
    obtain ⟨w, hw⟩ := Option.isSome_iff_exists.mp (isSome_lookup.mpr hk)
    have hmem := mem_reverse.mp (mem_of_lookup hw)
    have heq := inj_on_of_nodup_map hl hmem h rfl
    cases heq
    exact hw

theorem get?_ofList_eq_none : (ofList l).get? k = none ↔ k ∉ l.map Prod.fst := by
  have h := isSome_lookup (k := k) (l := l.reverse)
  rw [map_reverse, mem_reverse, ← get?_ofList] at h
  rw [← h, Option.not_isSome_iff_eq_none]

/-- The elements of a list by their keys; of several with one key the last. -/
def index (key : β → GoString) (l : List β) : GoMap β := ofList (l.map fun x => (key x, x))

variable {key : β → GoString} {l : List β}

theorem get?_index (h : (index key l).get? k = some v) : v ∈ l ∧ key v = k := by
  rw [index, get?_ofList] at h
  have := mem_of_lookup h
  rw [mem_reverse, mem_map] at this
  obtain ⟨x, hx, heq⟩ := this
  cases heq
  exact ⟨hx, rfl⟩

theorem isSome_index : ((index key l).get? k).isSome = true ↔ k ∈ l.map key := by
  rw [index, get?_ofList, isSome_lookup, map_reverse, mem_reverse, map_map]
  rfl

theorem get?_index_of_nodup (hl : (l.map key).Nodup) (hv : v ∈ l) : (index key l).get? (key v) = some v := by
  obtain ⟨w, hw⟩ := Option.isSome_iff_exists.mp (isSome_index.mpr (mem_map_of_mem hv))
  obtain ⟨hmem, hkey⟩ := get?_index hw
  rw [hw, inj_on_of_nodup_map hl hmem hv hkey]

theorem mem_keys_index : k ∈ (index key l).keys ↔ k ∈ l.map key := by
  rw [mem_keys, isSome_index]

end GoMap

/-! ### Sets -/

/-- A `map[string]bool` that holds only `true`. -/
abbrev GoSet := GoMap Unit

namespace GoSet

/-- `s[k]`. -/
def has (s : GoSet) (k : GoString) : Bool := s.contains k

/-- `s[k] = true`. -/
def add (s : GoSet) (k : GoString) : GoSet := s.insert k ()

@[simp] theorem has_empty (k : GoString) : has GoMap.empty k = false := rfl

@[simp] theorem has_add {s : GoSet} {k k' : GoString} : has (add s k) k' = true ↔ k' = k ∨ has s k' = true := by
  rw [has, add, GoMap.contains, GoMap.get?_insert]
  split_ifs with h
  · simp [h]
  · simp [h, has, GoMap.contains]

theorem mem_keys {s : GoSet} {k : GoString} : k ∈ s.keys ↔ has s k = true := GoMap.mem_keys

@[simp] theorem has_foldl_add {s : GoSet} {l : List GoString} {k : GoString} :
    has (l.foldl add s) k = true ↔ k ∈ l ∨ has s k = true := by
  induction l generalizing s with
  | nil => simp
  | cons a l ih =>
    rw [foldl_cons, ih, has_add, mem_cons]
    tauto

/-- Each of the keys is new when its turn comes. -/
def Fresh (s : GoSet) (l : List GoString) : Prop := l.Nodup ∧ ∀ k ∈ l, has s k = false

@[simp] theorem fresh_nil {s : GoSet} : Fresh s [] := by simp [Fresh]

theorem fresh_cons {s : GoSet} {k : GoString} {l : List GoString} : Fresh s (k :: l) ↔ has s k = false ∧ Fresh (add s k) l := by
  have hnew : (∀ x ∈ l, has (add s k) x = false) ↔ k ∉ l ∧ ∀ x ∈ l, has s x = false := by
    simp only [← Bool.not_eq_true, has_add, not_or, forall_and, forall_mem_ne']
  rw [Fresh, Fresh, hnew, nodup_cons, forall_mem_cons]
  tauto

theorem fresh_empty {l : List GoString} (h : l.Nodup) : Fresh GoMap.empty l := ⟨h, fun _ _ => rfl⟩

end GoSet

/-! ### Iteration -/

/-- The orders in which a program visits its maps: at each place `S` where it
ranges over a map, some rearrangement of the keys. -/
structure MapIter (S : Type) where
  order : S → List GoString → List GoString
  perm : ∀ s l, (order s l).Perm l

namespace MapIter

variable {S : Type}

@[simp] theorem mem_order (it : MapIter S) {s : S} {l : List GoString} {k : GoString} :
    k ∈ it.order s l ↔ k ∈ l := (it.perm s l).mem_iff

/-- Every map is visited in increasing order of its keys. -/
def sorted : MapIter S := ⟨fun _ l => l, fun _ _ => List.Perm.refl _⟩

end MapIter

end AutoSql
