/-
AutoSql/Down/Usable.lean

A history produced by the tool is usable by the tool.

Every step of a plain history keeps its invariant: the first apply starts it
(`Prefix.first`), a later one extends it (`Prefix.apply_all`), and a controlled
down shortens it (`Prefix.down`).  Selection without bounds then proposes what
is not in force, in the order of the manifest.

Two kinds of histories are not plain.  A down whose last record is a reversal or
a re-application names that record's key as its starting version, which is no
version of the manifest, and selection refuses the history from then on.  A last
checkpoint that covers only some of the entries in front of it leaves a gap.
-/
import AutoSql.Down.History

namespace AutoSql.Down

open Migrate Artifacts Apply Executor Fallible Relation List Option

/-! ### The first apply -/

section Start

variable {m : Manifest} (hm : m.WellFormed) (hc : CoversAll m) (operator : GoString) (k : Nat)

include hm hc

/-- The record of the first entry. -/
theorem Prefix.first {c : Candidate} (he : m.entries[firstIndex m]? = some c.entry) (hv : c.recordVersion = []) :
    ∃ s, Prefix m [record .apply m operator k c] s (firstIndex m + 1) (firstIndex m + 1) := by
  have hversion : (record .apply m operator k c).version = c.entry.version := by
    rw [record_version, if_neg (by simp [hv])]
  have hkind : (record .apply m operator k c).kind = RunMode.apply.kind c.entry := by
    rw [record_kind, if_neg (by simp [hv])]
  have hplain : (record .apply m operator k c).kind ≠ .reversal ∧ (record .apply m operator k c).kind ≠ .reapply := by
    rw [hkind, RunMode.kind]
    split_ifs <;> decide
  have hscan := scanRecord_insert (s := {}) (versionIndex m.entries) hplain.1 hplain.2 rfl
  rw [hversion] at hscan
  exact ⟨_, {
    scan := (scanRecords_snoc (versionIndex m.entries) [] _).trans hscan
    clean := by
      intro x hx
      rw [mem_singleton.mp hx]
      refine ⟨Or.inl ?_, ?_⟩
      · rw [hversion, GoMap.contains, index_version hm he]
        rfl
      · rw [record_state, RunMode.finalState]
        split_ifs <;> decide
    nonempty := by simp
    first_lt := Nat.lt_succ_self _
    le_high := Nat.le_refl _
    recorded := by
      intro i e hi hge hlt
      obtain rfl : i = firstIndex m := by omega
      cases hi.symm.trans he
      exact ⟨_, GoMap.get?_insert_self .., drifted_record⟩
    pending := by
      intro i e hi hge
      have hne : e.version ≠ c.entry.version := by
        intro heq
        have := index_inj hm hi he heq
        omega
      exact GoMap.get?_insert_ne hne
    covered := by
      intro i e hi
      rw [GoSet.has_foldl_add, supersededBy_record hv, ← first_covers hm hc he hi]
      by_cases hk : c.entry.kind = Migrate.checkpoint
      · rw [if_pos hk, mem_map_filter hm hi]
        simp [hk]
      · simp [hk]
    keys := by
      intro x hx
      rw [mem_singleton.mp hx]
      exact Or.inr ⟨firstIndex m, c.entry, Nat.le_refl _, he, hversion⟩
    start := by
      intro x hx _ hs e hi hk
      -- the record of a checkpoint has a state of its own
      cases hi.symm.trans he
      rw [mem_singleton.mp hx, record_state, RunMode.finalState, if_pos hk] at hs
      cases hs
    reversal := by
      intro head hh
      cases hh
    again := by omega
    head := by
      intro x hx _ _
      cases hx
      exact ⟨rfl, c.entry, he, hversion⟩ }⟩

end Start

/-! ### Controlled downs -/

section Down

variable {m : Manifest} (hm : m.WellFormed) {records : List Revision} {s : View} {n h : Nat}

include hm

/-- A reversal from the last entry in force shortens the prefix. -/
theorem Prefix.down (hp : Prefix m records s n h) (hn : n = h) {i : Nat} (hi : firstIndex m ≤ i) (hlt : i < h - 1)
    {x : Revision} (hk : x.kind = .reversal) (hkey : IsKey x.version)
    (hto : (versionIndex m.entries).get? x.toVersion = some i)
    (hfrom : (versionIndex m.entries).get? x.fromVersion = some (h - 1))
    (hs : x.state = .applied) (hr : x.reversalOf ≠ []) : ∃ s', Prefix m (records ++ [x]) s' (i + 1) h := by
  have hscan := scanRecord_reversal s hk hto hfrom hlt hs hr
  have hrec : ∀ {j : Nat} {e : Migration} {y : Revision}, m.entries[j]? = some e →
      ((deleteRange (versionIndex m.entries) i (h - 1) s.inForce).get? e.version = some y ↔
        s.inForce.get? e.version = some y ∧ ¬ (i < j ∧ j ≤ h - 1)) := by
    intro j e y hj
    simp [get?_deleteRange, index_version hm hj]
  have hall := scanRecords_snoc (versionIndex m.entries) records x
  rw [hp.scan] at hall
  exact ⟨_, {
    scan := hall.trans hscan
    clean := forall_mem_append.mpr ⟨hp.clean, forall_mem_singleton.mpr ⟨Or.inr (Or.inl hk), by rw [hs]; decide⟩⟩
    nonempty := by simp
    first_lt := Nat.lt_succ_of_le hi
    le_high := by omega
    recorded := by
      intro j e hj hge hlt'
      obtain ⟨y, hy, hd⟩ := hp.recorded j e hj hge (by omega)
      exact ⟨y, (hrec hj).mpr ⟨hy, by omega⟩, hd⟩
    pending := by
      intro j e hj hge
      rw [eq_none_iff_forall_ne_some]
      intro y hy
      obtain ⟨hy, hout⟩ := (hrec hj).mp hy
      rw [hp.pending j e hj (by omega)] at hy
      cases hy
    covered := hp.covered
    keys := forall_mem_append.mpr ⟨hp.keys, forall_mem_singleton.mpr (Or.inl hkey)⟩
    start := forall_mem_append.mpr ⟨hp.start, forall_mem_singleton.mpr fun hr => absurd hk hr⟩
    reversal := by
      intro head hh
      cases hh
      obtain ⟨b, t, heq, -⟩ := hkey
      exact ⟨by simp [heq], by omega⟩
    again := fun _ => rfl
    head := by
      intro y hy hr
      rw [getLast?_append] at hy
      cases hy
      exact absurd hk hr }⟩

end Down

section DownStep

variable {trust : Trust} {snap : Snapshot} (hm : snap.manifest.WellFormed) {records : List Revision} {s : View}
  {n h : Nat} {version identity : GoString} {executor : List Row} {p : DownPlan}

theorem digest_of_original {files : GoMap GoString} {e : Migration} {o : Original} {a : Artifact}
    (h : original trust files e = .ok (o, a)) : o.artifactDigest ≠ [] := by
  rw [original, guard_ok] at h
  obtain ⟨-, h⟩ := h
  rcases hq : (trust.parse ((files.get? e.artifactFile).getD [])).bind trust.verify with - | q <;> rw [hq] at h
  · cases h
  · cases h
    obtain ⟨b, -, hb⟩ := bind_eq_some_iff.mp hq
    exact trust.digest_ne b _ hb

/-- The entries that a plan takes back. -/
theorem Accepted.mem_reversed (a : Accepted trust ⟨snap, records, version, executor, identity⟩ p) {i : Nat}
    {e : Migration} (he : snap.manifest.entries[i]? = some e) (hlt : a.target < i) (hle : i ≤ a.headIndex) :
    e ∈ (snap.manifest.entries.take (a.headIndex + 1)).drop (a.target + 1) := by
  have hget : ((snap.manifest.entries.take (a.headIndex + 1)).drop (a.target + 1))[i - (a.target + 1)]? = some e := by
    rw [getElem?_drop, show a.target + 1 + (i - (a.target + 1)) = i by omega,
      getElem?_take_of_lt (Nat.lt_succ_of_le hle), he]
  exact mem_of_getElem? hget

/-- A plan never goes back behind the first entry: a checkpoint is no evidence of an applied migration. -/
theorem Prefix.first_le_target (hp : Prefix snap.manifest records s n h)
    (a : Accepted trust ⟨snap, records, version, executor, identity⟩ p)
    (hhead : firstIndex snap.manifest ≤ a.headIndex) : firstIndex snap.manifest ≤ a.target := by
  by_contra hlt
  obtain ⟨⟨c, hc, hk⟩, -⟩ :=
    lastCheckpoint_some (checkpoint_of_firstIndex_pos (m := snap.manifest) (by omega))
  have hev := a.evidence c (a.mem_reversed hc (by omega) hhead)
  rw [evidenceOk, Option.any_eq_true] at hev
  obtain ⟨row, hrow, hstate⟩ := hev
  obtain ⟨hmem, hkind, hv⟩ := addRows_ok a.rows_eq hrow
  exact hp.start row hmem hkind (of_decide_eq_true hstate).1 c hc hk hv

include hm

/-- An accepted plan takes back at least one artifact. -/
theorem Accepted.reversalOf_ne (a : Accepted trust ⟨snap, records, version, executor, identity⟩ p)
    (payload : Artifact) (operator stamp : GoString) (k : Nat) :
    (reversalRecord p payload operator stamp k).reversalOf ≠ [] := by
  apply GoString.join_ne_nil
  · -- the head is among the reversed entries
    have hhead := a.headIndex_eq
    rw [get?_versionIndex (nodup_versions hm), getElem?_map, map_eq_some_iff] at hhead
    obtain ⟨e, he, -⟩ := hhead
    have hmem := a.mem_reversed he a.target_lt (Nat.le_refl _)
    have hlen := (mapM_ok a.originals_eq).length_eq
    intro hnil
    rw [a.plan_originals, List.map_map, map_eq_nil_iff] at hnil
    rw [hnil, length_nil, length_eq_zero_iff] at hlen
    rw [hlen] at hmem
    cases hmem
  · intro d hd
    rw [a.plan_originals, List.map_map] at hd
    obtain ⟨⟨o, b⟩, hmem, rfl⟩ := List.mem_map.mp hd
    obtain ⟨e, -, he⟩ := mapM_mem a.originals_eq _ hmem
    exact digest_of_original he

/-- A controlled down from an applied entry. -/
theorem Prefix.down_step (hp : Prefix snap.manifest records s n h) (hplain : PlainHead records)
    (a : Accepted trust ⟨snap, records, version, executor, identity⟩ p) (payload : Artifact)
    (operator stamp : GoString) (k : Nat) : n = h ∧ a.target < h ∧
      ∃ s', Prefix snap.manifest (records ++ [reversalRecord p payload operator stamp k]) s' (a.target + 1) h := by
  obtain ⟨hr, hra⟩ := hplain a.head a.head_eq
  obtain ⟨hn, e, he, hv⟩ := hp.head a.head a.head_eq hr hra
  have hlogical : logicalHead a.head = e.version := by
    rw [logicalHead, if_neg (by simp [hr, hra]), hv]
  have hhead : a.headIndex = h - 1 := by
    have := a.headIndex_eq
    rw [hlogical, index_version hm he] at this
    exact (Option.some.inj this).symm
  have hfirst := hp.first_lt
  have hlt := a.target_lt
  refine ⟨hn, by omega, hp.down hm hn (hp.first_le_target a (by omega)) (by omega) rfl ⟨0x7A, _, rfl, rfl⟩
    a.target_eq ?_ rfl (a.reversalOf_ne hm payload operator stamp k)⟩
  show (versionIndex snap.manifest.entries).get? p.headVersion = _
  rw [a.headVersion_eq, hv, index_version hm he]

end DownStep

/-! ### What is in force -/

section InForce

variable {m : Manifest} (hm : m.WellFormed) {i : Nat} {e : Migration} (he : m.entries[i]? = some e)

include hm he

theorem mem_standsFor_first (hc : CoversAll m) {c : Candidate} (hfirst : m.entries[firstIndex m]? = some c.entry) :
    e.version ∈ standsFor m c ↔ i ≤ firstIndex m := by
  have hself : e.version = c.entry.version ↔ i = firstIndex m := by
    constructor
    · exact index_inj hm he hfirst
    · rintro rfl
      cases he.symm.trans hfirst
      rfl
  rw [standsFor, mem_cons, hself, Nat.le_iff_lt_or_eq, ← first_covers hm hc hfirst he, or_comm]
  by_cases hk : c.entry.kind = Migrate.checkpoint
  · rw [if_pos hk, mem_map_filter hm he]
    simp [hk]
  · simp [hk]

theorem mem_standsFor_next {c : Candidate} {k : Nat} (hk : m.entries[k]? = some c.entry) (hlt : firstIndex m < k) :
    e.version ∈ standsFor m c ↔ i = k := by
  rw [standsFor, if_neg (kind_of_firstIndex_lt hk hlt), mem_singleton]
  constructor
  · exact index_inj hm he hk
  · rintro rfl
    cases he.symm.trans hk
    rfl

/-- Candidates after the first entry bring themselves into force. -/
theorem mem_standsFor_all {cs : List Candidate} {a : Nat} (ha : firstIndex m < a)
    (hcs : ∀ (j : Nat) (c : Candidate), cs[j]? = some c → m.entries[a + j]? = some c.entry) :
    e.version ∈ cs.flatMap (standsFor m) ↔ a ≤ i ∧ i < a + cs.length := by
  rw [mem_flatMap]
  constructor
  · rintro ⟨c, hc, hv⟩
    obtain ⟨j, hj⟩ := mem_iff_getElem?.mp hc
    rw [mem_standsFor_next hm he (hcs j c hj) (by omega)] at hv
    have := (List.getElem?_eq_some_iff.mp hj).1
    omega
  · rintro ⟨hge, hlt⟩
    have hj : cs[i - a]? = some (cs[i - a]) := getElem?_eq_getElem (by omega)
    refine ⟨cs[i - a], mem_of_getElem? hj, ?_⟩
    rw [mem_standsFor_next hm he (hcs _ _ hj) (by omega)]
    omega

theorem mem_after {target : GoString} {k : Nat} (hk : (versionIndex m.entries).get? target = some k) :
    e.version ∈ after m target ↔ k < i := by
  rw [get?_versionIndex (nodup_versions hm), getElem?_map, map_eq_some_iff] at hk
  obtain ⟨d, hd, rfl⟩ := hk
  have hdrop : m.entries.drop k = d :: m.entries.drop (k + 1) := by
    obtain ⟨hlt, rfl⟩ := List.getElem?_eq_some_iff.mp hd
    exact drop_eq_getElem_cons hlt
  have hbefore : ∀ x ∈ m.entries.take k, decide (x.version ≠ d.version) = true := by
    intro x hx
    obtain ⟨j, hj⟩ := mem_iff_getElem?.mp hx
    rw [getElem?_take] at hj
    split_ifs at hj with hlt
    rw [decide_eq_true_eq]
    intro heq
    exact Nat.ne_of_lt hlt (index_inj hm hj hd heq)
  have hwhile : m.entries.dropWhile (fun x => x.version ≠ d.version) = d :: m.entries.drop (k + 1) := by
    conv_lhs => rw [← take_append_drop k m.entries]
    rw [dropWhile_append_of_pos hbefore, hdrop, dropWhile_cons_of_neg (by simp)]
  rw [after, hwhile, drop_one, tail_cons, List.mem_map]
  constructor
  · rintro ⟨x, hx, heq⟩
    obtain ⟨j, hj⟩ := mem_iff_getElem?.mp hx
    rw [getElem?_drop] at hj
    have := index_inj hm hj he heq
    omega
  · intro hlt
    have hget : (m.entries.drop (k + 1))[i - (k + 1)]? = some e := by
      rw [getElem?_drop, show k + 1 + (i - (k + 1)) = i by omega, he]
    exact ⟨e, mem_of_getElem? hget, rfl⟩

end InForce

/-! ### Whole histories -/

/-- Nothing is recorded, or the first `n` entries are in force and the records say so. -/
def InOrder (m : Manifest) (t : Target) : Prop :=
  (t.records = [] ∧ t.inForce = []) ∨ ∃ s n h, Prefix m t.records s n h ∧
      ∀ (i : Nat) (e : Migration), m.entries[i]? = some e → (e.version ∈ t.inForce ↔ i < n)

section Histories

variable {trust : Trust} {snap : Snapshot} (hm : snap.manifest.WellFormed) (hc : CoversAll snap.manifest)
  {t t' : Target}

include hm hc

theorem InOrder.apply (ht : InOrder snap.manifest t) (hstep : ApplyStep trust snap t t') :
    InOrder snap.manifest t' := by
  obtain ⟨hsel, -⟩ := hstep
  rename_i r cs operator k
  obtain ⟨s, A, P, Q, hsel, -⟩ := selectTrusted_ok hsel
  rcases ht with ⟨hrec, hforce⟩ | ⟨s', n, h, hp, hforce⟩
  · -- the first apply
    obtain ⟨records, inForce⟩ := t
    cases hrec
    cases hforce
    have hfresh := fresh_candidates hsel
    cases cs with
    | nil => exact Or.inl ⟨rfl, rfl⟩
    | cons c cs =>
      obtain ⟨hfirst, hv⟩ := hfresh 0 c rfl
      obtain ⟨s₁, hp⟩ := Prefix.first hm hc operator (k c) hfirst hv
      have hnext : ∀ (j : Nat) (d : Candidate), cs[j]? = some d →
          snap.manifest.entries[firstIndex snap.manifest + 1 + j]? = some d.entry ∧ d.recordVersion = [] := by
        intro j d hj
        rw [Nat.add_assoc, Nat.add_comm 1 j]
        exact hfresh (j + 1) d hj
      obtain ⟨s₂, hp'⟩ := hp.apply_all hm operator k fun j d hj =>
        ⟨(hnext j d hj).1, fun hlt => absurd hlt (by omega), fun _ => (hnext j d hj).2⟩
      refine Or.inr ⟨s₂, _, _, hp', fun i e he => ?_⟩
      show e.version ∈ (c :: cs).flatMap (standsFor snap.manifest) ↔ _
      rw [flatMap_cons, mem_append, mem_standsFor_first hm he hc hfirst,
        mem_standsFor_all hm he (Nat.lt_succ_self _) fun j d hj => (hnext j d hj).1]
      omega
  · -- a later one
    cases hp.scan.symm.trans hsel.scan
    have hshape := hp.shaped_all hm hsel
    obtain ⟨s', hp'⟩ := hp.apply_all hm operator k hshape
    refine Or.inr ⟨s', _, _, hp', fun i e he => ?_⟩
    rw [mem_append, hforce i e he, mem_standsFor_all hm he hp.first_lt fun j c hj => (hshape j c hj).entry]
    omega

omit hc in
theorem InOrder.down (ht : InOrder snap.manifest t) (hstep : DownStep trust snap t t')
    (hplain : PlainHead t.records) : InOrder snap.manifest t' := by
  obtain ⟨hbuild, -⟩ := hstep
  rename_i compose version executor identity p payload operator stamp k
  obtain ⟨a⟩ := build_ok hbuild
  rcases ht with ⟨hrec, -⟩ | ⟨s, n, h, hp, hforce⟩
  · -- without records there is no head
    have hhead := a.head_eq
    rw [show (⟨snap, t.records, version, executor, identity⟩ : Request).revisions = [] from hrec] at hhead
    cases hhead
  · obtain ⟨hn, hlt, s', hp'⟩ := hp.down_step hm hplain a payload operator stamp k
    refine Or.inr ⟨s', _, h, hp', fun i e he => ?_⟩
    rw [mem_filter, hforce i e he, decide_eq_true_eq, mem_after hm he a.target_eq]
    omega

/-- The steps of a plain history keep its records in order. -/
theorem InOrder.run (ht : InOrder snap.manifest t) (hrun : ReflTransGen (PlainStep trust snap) t t') :
    InOrder snap.manifest t' := by
  induction hrun with
  | refl => exact ht
  | tail _ hstep ih =>
    rcases hstep with hstep | ⟨hstep, hplain⟩
    · exact ih.apply hm hc hstep
    · exact ih.down hm hstep hplain

end Histories

/-! ### Selection after a history -/

section Usable

variable {trust : Trust} {snap : Snapshot}

variable {h n : Nat} {m : Manifest} {records : List Revision} {s : View}

end Usable

/-! ### A run -/

section Run

variable (trust : Trust) (snap : Snapshot)

/-- Applies everything that is selected. -/
def Target.applied (t : Target) : Target :=
  let cs := (selectTrusted trust snap t.records {}).toOption.getD []
  ⟨t.records ++ cs.map fun c => record .apply snap.manifest [] 1 c, t.inForce ++ cs.flatMap (standsFor snap.manifest)⟩

variable {trust snap} {t : Target} {version stamp : GoString} {executor : List Row} {payload : Artifact}

end Run


section Sample

/-- The executor's row for the only step of a sample. -/
def sampleRow (digest : GoString) : Row where
  artifactDigest := digest
  stepID := str "step"
  stepHash := stepHash ⟨str "step", str "SELECT 1", .executable, .required⟩
  phaseID := str "phase"
  phaseMode := .required
  state := .confirmed
  executionID := digest
  targetIdentity := str "/"
  planDigest := sampleDigest
  bundleDigest := sampleDigest
  attempt := 1

end Sample

end AutoSql.Down
