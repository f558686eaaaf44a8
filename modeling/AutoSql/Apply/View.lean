/-
AutoSql/Apply/View.lean

What selection sees of a target whose manifest was accepted by `build`.

Versions increase with the indices of the entries, so a range of versions is a
range of indices (`versionInRange_entry`), and a key that is not a version, such
as those of reversals and re-applications, lies in no range.
-/
import AutoSql.Apply.Select

namespace AutoSql.Apply

open Migrate Artifacts Fallible GoString List

/-! ### Versions and indices -/

section Index

variable {m : Manifest} (hm : m.WellFormed) {i j : Nat} {a b : Migration}

include hm

theorem nodup_versions : (m.entries.map Migration.version).Nodup := by
  rw [List.Nodup, pairwise_map]
  refine hm.increasing.imp ?_
  intro a b hlt heq
  rw [versionOf, versionOf, heq, Version.compare_self] at hlt
  cases hlt

theorem index_version (hi : m.entries[i]? = some a) : (versionIndex m.entries).get? a.version = some i := by
  rw [get?_versionIndex (nodup_versions hm), getElem?_map, hi]
  rfl

theorem index_inj (hi : m.entries[i]? = some a) (hj : m.entries[j]? = some b) (h : a.version = b.version) : i = j := by
  have := index_version hm hi
  rw [h, index_version hm hj] at this
  exact (Option.some.inj this).symm

theorem eq_of_version (ha : a ∈ m.entries) (hb : b ∈ m.entries) (h : a.version = b.version) : a = b := by
  obtain ⟨i, hi⟩ := mem_iff_getElem?.mp ha
  obtain ⟨j, hj⟩ := mem_iff_getElem?.mp hb
  obtain rfl := index_inj hm hi hj h
  exact Option.some.inj (hi.symm.trans hj)

theorem parseVersion_entry (hi : m.entries[i]? = some a) : parseVersion a.version = .ok (versionOf a) := by
  obtain ⟨hv, heq⟩ := hm.canonical a (mem_of_getElem? hi)
  have := parseVersion_string hv
  rwa [← heq] at this

theorem compare_lt (hi : m.entries[i]? = some a) (hj : m.entries[j]? = some b) (h : i < j) :
    (versionOf a).compare (versionOf b) = .lt := by
  obtain ⟨hi', rfl⟩ := List.getElem?_eq_some_iff.mp hi
  obtain ⟨hj', rfl⟩ := List.getElem?_eq_some_iff.mp hj
  exact pairwise_iff_getElem.mp hm.increasing i j hi' hj' h

/-- Versions compare as the indices of their entries. -/
theorem compare_eq_compare (hi : m.entries[i]? = some a) (hj : m.entries[j]? = some b) :
    (versionOf a).compare (versionOf b) = compare i j := by
  rcases Nat.lt_trichotomy i j with h | rfl | h
  · rw [compare_lt hm hi hj h, Nat.compare_eq_lt.mpr h]
  · cases hi.symm.trans hj
    rw [Version.compare_self, Nat.compare_eq_eq.mpr rfl]
  · rw [Version.compare_swap, compare_lt hm hj hi h, Nat.compare_eq_gt.mpr h]
    rfl

/-- A range of versions is a range of indices. -/
theorem versionInRange_entry {lo hi : GoString} (he : m.entries[i]? = some a)
    {x y : Nat} (hx : (m.entries.map Migration.version)[x]? = some lo)
    (hy : (m.entries.map Migration.version)[y]? = some hi) : versionInRange a.version lo hi = true ↔ x ≤ i ∧ i ≤ y := by
  rw [getElem?_map, Option.map_eq_some_iff] at hx hy
  obtain ⟨c, hc, rfl⟩ := hx
  obtain ⟨d, hd, rfl⟩ := hy
  rw [versionInRange, parseVersion_entry hm he, parseVersion_entry hm hc, parseVersion_entry hm hd]
  dsimp only
  rw [compare_eq_compare hm he hc, compare_eq_compare hm he hd, Bool.and_eq_true, bne_iff_ne, bne_iff_ne,
    Ne, Ne, Nat.compare_eq_lt, Nat.compare_eq_gt, not_lt, not_lt]

end Index

/-! ### The last checkpoint -/

theorem pairwise_zipIdx {α : Type} (l : List α) (i : Nat) : (l.zipIdx i).Pairwise fun p q => p.2 < q.2 := by
  have := pairwise_lt_range' (s := i) (n := l.length) 1
  rwa [← zipIdx_map_snd i l, pairwise_map] at this

variable {s : View} {x : Revision} {i k : Nat} {index : GoMap Nat} {m : Manifest} {records : List Revision} {fresh : Option Nat}
  {ms : List Migration}

theorem lastCheckpoint_some {entries : List Migration} (h : lastCheckpoint entries = some k) :
    (∃ c, entries[k]? = some c ∧ c.kind = Migrate.checkpoint) ∧
      ∀ (i : Nat) (e : Migration), entries[i]? = some e → e.kind = Migrate.checkpoint → i ≤ k := by
  rw [lastCheckpoint, Option.map_eq_some_iff] at h
  obtain ⟨⟨c, k⟩, hlast, rfl⟩ := h
  obtain ⟨ys, hys⟩ := getLast?_eq_some_iff.mp hlast
  have hmem : (c, k) ∈ entries.zipIdx.filter fun p => p.1.kind = Migrate.checkpoint := by simp [hys]
  rw [mem_filter, mem_zipIdx_iff_getElem?, decide_eq_true_eq] at hmem
  refine ⟨⟨c, hmem⟩, fun i e he hk => ?_⟩
  have hi : (e, i) ∈ entries.zipIdx.filter fun p => p.1.kind = Migrate.checkpoint := by
    rw [mem_filter, mem_zipIdx_iff_getElem?, decide_eq_true_eq]
    exact ⟨he, hk⟩
  have hpair := (pairwise_zipIdx entries 0).filter fun p => p.1.kind = Migrate.checkpoint
  rw [hys] at hi hpair
  rcases mem_append.mp hi with hi | hi
  · exact Nat.le_of_lt ((pairwise_append.mp hpair).2.2 _ hi (c, k) mem_cons_self)
  · cases mem_singleton.mp hi
    exact Nat.le_refl _

theorem lastCheckpoint_none {entries : List Migration} (h : lastCheckpoint entries = none) :
    ∀ e ∈ entries, e.kind ≠ Migrate.checkpoint := by
  intro e he hk
  rw [lastCheckpoint, Option.map_eq_none_iff, getLast?_eq_none_iff, filter_eq_nil_iff] at h
  obtain ⟨i, hi⟩ := mem_iff_getElem?.mp he
  exact h (e, i) (mem_zipIdx_iff_getElem?.mpr hi) (by simpa using hk)

/-- The index of the entry that a target without records starts with. -/
def firstIndex (m : Manifest) : Nat := (lastCheckpoint m.entries).getD 0

/-- The last checkpoint covers every entry in front of it. -/
def CoversAll (m : Manifest) : Prop :=
  ∀ k c, lastCheckpoint m.entries = some k → m.entries[k]? = some c →
    ∀ e ∈ m.entries.take k, versionInRange e.version c.coveredFrom c.coveredTo = true

instance (m : Manifest) : Decidable (CoversAll m) :=
  decidable_of_iff ((lastCheckpoint m.entries).all fun k => (m.entries[k]?).all fun c =>
      (m.entries.take k).all fun e => versionInRange e.version c.coveredFrom c.coveredTo) (by
    simp only [CoversAll, Option.all_eq_true, all_eq_true]
    exact ⟨fun h k c hk hc => h k hk c hc, fun h k hk c hc => h k c hk hc⟩)

/-! ### The first entry -/

section First

variable {m : Manifest} (hm : m.WellFormed)

variable {e : Migration}

theorem kind_of_firstIndex_lt (h : m.entries[i]? = some e) (hi : firstIndex m < i) : e.kind ≠ Migrate.checkpoint := by
  intro hk
  rw [firstIndex] at hi
  rcases hl : lastCheckpoint m.entries with - | k
  · exact lastCheckpoint_none hl e (mem_of_getElem? h) hk
  · have := (lastCheckpoint_some hl).2 i e h hk
    rw [hl] at hi
    exact absurd hi (Nat.not_lt.mpr this)

/-- Only a checkpoint has entries in front of it that are left out. -/
theorem checkpoint_of_firstIndex_pos (h : 0 < firstIndex m) : lastCheckpoint m.entries = some (firstIndex m) := by
  rw [firstIndex] at h ⊢
  rcases hl : lastCheckpoint m.entries with - | k
  · rw [hl] at h
    exact absurd h (by decide)
  · rfl

include hm

/-- The range of a checkpoint lies in front of it. -/
theorem not_inRange_of_le {c : Migration} (hk : m.entries[k]? = some c)
    (hc : c.kind = Migrate.checkpoint) (hi : m.entries[i]? = some e) (hle : k ≤ i) :
    versionInRange e.version c.coveredFrom c.coveredTo = false := by
  obtain ⟨a, b, -, hb, hfrom, hto⟩ := hm.covers k c hk hc
  rw [← Bool.not_eq_true, versionInRange_entry hm hi hfrom hto]
  omega

theorem mem_map_filter {p : Migration → Bool} (he : m.entries[i]? = some e) :
    e.version ∈ (m.entries.filter p).map Migration.version ↔ p e = true := by
  rw [mem_map]
  constructor
  · rintro ⟨d, hd, heq⟩
    obtain ⟨hd, hp⟩ := mem_filter.mp hd
    obtain ⟨j, hj⟩ := mem_iff_getElem?.mp hd
    obtain rfl := index_inj hm hj he heq
    cases hj.symm.trans he
    exact hp
  · intro hp
    exact ⟨e, mem_filter.mpr ⟨mem_of_getElem? he, hp⟩, rfl⟩

/-- The first entry stands for the entries in front of it. -/
theorem first_covers (hc : CoversAll m) {c : Migration} (hfirst : m.entries[firstIndex m]? = some c)
    (he : m.entries[i]? = some e) :
    c.kind = Migrate.checkpoint ∧ versionInRange e.version c.coveredFrom c.coveredTo = true ↔ i < firstIndex m := by
  constructor
  · rintro ⟨hk, hr⟩
    by_contra hge
    rw [not_inRange_of_le hm hfirst hk he (Nat.not_lt.mp hge)] at hr
    cases hr
  · intro hlt
    have hlast := checkpoint_of_firstIndex_pos (Nat.zero_lt_of_lt hlt)
    obtain ⟨⟨d, hd, hk⟩, -⟩ := lastCheckpoint_some hlast
    cases hd.symm.trans hfirst
    have htake : (m.entries.take (firstIndex m))[i]? = some e := by rw [getElem?_take_of_lt hlt, he]
    exact ⟨hk, hc _ c hlast hfirst e (mem_of_getElem? htake)⟩

end First

/-- A target without records starts at the first entry. -/
theorem skips_fresh {e : Migration} : skips {} [] (lastCheckpoint m.entries) e i = decide (i < firstIndex m) := by
  rw [skips, firstIndex]
  rcases lastCheckpoint m.entries with - | k <;> simp [insideRange]

/-! ### Keys that are not versions -/

/-- A record key that is not a version. -/
def IsKey (v : GoString) : Prop := ∃ b t, v = b :: t ∧ isDigit b = false

/-- A key that does not start with a digit lies in no range. -/
theorem versionInRange_key {b : UInt8} {s lo hi : GoString} (hb : isDigit b = false) :
    versionInRange (b :: s) lo hi = false := by
  rw [versionInRange]
  rcases h : parseVersion (b :: s) with e | v
  · rfl
  · rw [isDigit_of_parseVersion h] at hb
    cases hb

/-! ### The records -/

theorem get?_foldl_erase {lo hi : Nat} {l : List (GoString × Nat)} {b : GoMap Revision} {v : GoString} :
    (l.foldl (fun b (p : GoString × Nat) => if lo < p.2 ∧ p.2 ≤ hi then b.erase p.1 else b) b).get? v = some x ↔
      b.get? v = some x ∧ ∀ i, (v, i) ∈ l → ¬ (lo < i ∧ i ≤ hi) := by
  induction l generalizing b with
  | nil => simp
  | cons p l ih =>
    have hhead : (if lo < p.2 ∧ p.2 ≤ hi then b.erase p.1 else b).get? v = some x ↔
        b.get? v = some x ∧ (v = p.1 → ¬ (lo < p.2 ∧ p.2 ≤ hi)) := by
      split_ifs with hp
      · rw [GoMap.get?_erase]
        split_ifs with hv <;> simp [hp, hv]
      · simp [hp]
    rw [foldl_cons, ih, hhead, and_assoc]
    refine and_congr_right fun _ => ⟨fun h i hi' => ?_, fun h => ⟨fun hv => ?_, fun i hi' => ?_⟩⟩
    · rcases mem_cons.mp hi' with rfl | hi'
      · exact h.1 rfl
      · exact h.2 i hi'
    · exact h p.2 (hv ▸ mem_cons_self)
    · exact h i (mem_cons_of_mem _ hi')

/-- A reversal takes the versions of a range of indices out of force. -/
theorem get?_deleteRange {lo hi : Nat} {b : GoMap Revision} {v : GoString}
    : (deleteRange index lo hi b).get? v = some x ↔
      b.get? v = some x ∧ ∀ i, index.get? v = some i → ¬ (lo < i ∧ i ≤ hi) := by
  rw [deleteRange, get?_foldl_erase]
  simp only [GoMap.get?_eq_some]

theorem scanRecords_append (index : GoMap Nat) (xs ys : List Revision) :
    scanRecords index (xs ++ ys) = scanRecords index xs >>= fun s => ys.foldlM (scanRecord index) s :=
  foldlM_append

theorem scanRecords_snoc (index : GoMap Nat) (xs : List Revision) (x : Revision) :
    scanRecords index (xs ++ [x]) = scanRecords index xs >>= fun s => scanRecord index s x := by
  rw [scanRecords_append]
  congr 1
  funext s
  exact foldlM_cons.trans (bind_pure _)

theorem scanRecord_plain (h₁ : x.kind ≠ .reversal) (h₂ : x.kind ≠ .reapply) : scanRecord index s x = scanPlain s x := by
  rw [scanRecord]
  split
  · exact absurd ‹_› h₁
  · exact absurd ‹_› h₂
  · rfl

/-- Reading the record of a version that is not in force. -/
theorem scanRecord_insert (index : GoMap Nat) (h₁ : x.kind ≠ .reversal)
    (h₂ : x.kind ≠ .reapply) (hnone : s.inForce.get? x.version = none) : scanRecord index s x = .ok { s with
      inForce := s.inForce.insert x.version x
      covered := (supersededBy x).foldl GoSet.add s.covered } := by
  rw [scanRecord_plain h₁ h₂, scanPlain]
  simp [GoMap.contains, hnone]

/-- Reading the record of a re-application. -/
theorem scanRecord_reapply (s : View) (hk : x.kind = .reapply)
    (hi : (index.get? x.toVersion).isSome = true) (hs : x.state = .applied) (hr : x.reversalOf ≠ []) :
    ∃ s', scanRecord index s x = .ok s' ∧ s'.inForce = s.inForce.insert x.toVersion x ∧
      s'.covered = s.covered ∧ s'.activeReversal = s.activeReversal ∧ s'.reversalHead = s.reversalHead := by
  rw [scanRecord, hk]
  rw [scanReapply, if_neg]
  · exact ⟨_, rfl, rfl, rfl, rfl, rfl⟩
  · simp [hs, hr, Option.isSome_iff_ne_none.mp hi]

/-- Reading the record of a reversal. -/
theorem scanRecord_reversal (s : View) (hk : x.kind = .reversal) {head : Nat}
    (hi : index.get? x.toVersion = some i) (hh : index.get? x.fromVersion = some head) (hlt : i < head)
    (hs : x.state = .applied) (hr : x.reversalOf ≠ []) : scanRecord index s x = .ok { s with
      inForce := deleteRange index i head s.inForce
      activeReversal := x.version
      reversalHead := some head } := by
  rw [scanRecord, hk]
  rw [scanReversal, hi, hh]
  simp [hs, hr, hlt]

/-! ### The records of a run -/

theorem drifted_record {operator : GoString} {c : Candidate} {mode : RunMode} :
    drifted (record mode m operator k c) c.entry = false := by
  simp [drifted, record, baseRevision]

theorem supersededBy_record {operator : GoString} {c : Candidate} (hv : c.recordVersion = []) :
    supersededBy (record .apply m operator k c) = if c.entry.kind = Migrate.checkpoint then
        (m.entries.filter fun e => versionInRange e.version c.entry.coveredFrom c.entry.coveredTo).map Migration.version
      else [] := by
  have hkind : (record .apply m operator k c).kind = RunMode.apply.kind c.entry := by
    rw [record_kind, if_neg (by simp [hv])]
  by_cases hk : c.entry.kind = Migrate.checkpoint
  · have hcp : (record .apply m operator k c).kind = .checkpoint := by rw [hkind, RunMode.kind, if_pos hk]
    rw [if_pos hk, supersededBy, if_pos ⟨hcp, by simp [RunMode.finalState, hk]⟩, record_supersedes hcp]
  · rw [supersededBy]
    simp [hkind, RunMode.kind, hk]

/-! ### The checks -/

/-- A record that is neither unknown nor unfinished. -/
def CleanRecord (index : GoMap Nat) (x : Revision) : Prop :=
  (index.contains x.version = true ∨ x.kind = .reversal ∨ x.kind = .reapply) ∧
    x.state ≠ .failed ∧ x.state ≠ .partially ∧ x.state ≠ .pending

theorem checkRecords_ok : checkRecords index records = .ok () ↔ ∀ x ∈ records, CleanRecord index x := by
  induction records with
  | nil => simp [checkRecords]
  | cons x xs ih =>
    rw [checkRecords, guard_ok, guard_ok, forall_mem_cons, CleanRecord]
    tauto

section Closure

variable {m : Manifest} (hm : m.WellFormed)

include hm

/-- Parents are in front of their children, so the closure is complete; what is
left of the check is that nothing pending branches. -/
theorem checkParentClosure_from {done : List Migration} {applied : GoSet}
    (hsplit : m.entries = done ++ ms) (happ : ∀ e ∈ done, GoSet.has applied e.version = true) :
    checkParentClosure s applied ms = .ok () ↔ ∀ e ∈ ms, s.isApplied e = true ∨ e.nonLinear = false := by
  induction ms generalizing done applied with
  | nil => simp [checkParentClosure]
  | cons e ms ih =>
    have hget : m.entries[done.length]? = some e := by
      rw [hsplit, getElem?_append_right (Nat.le_refl _), Nat.sub_self]
      rfl
    have hparents : (e.parents.any fun p => !GoSet.has applied p) = false := by
      rw [any_eq_false]
      intro p hp
      obtain ⟨j, hj, hv⟩ := hm.before _ e hget p hp
      rw [hsplit, map_append, getElem?_append_left (by simpa using hj), getElem?_map, Option.map_eq_some_iff] at hv
      obtain ⟨d, hd, rfl⟩ := hv
      simp [happ d (mem_of_getElem? hd)]
    have hlen : e.nonLinear = false → e.parents.length ≤ 1 := by
      intro hlin
      rw [(hm.linear _ e hget).mp hlin, linearParents]
      cases (m.entries.take done.length).getLast? <;> simp
    have hsplit' : m.entries = (done ++ [e]) ++ ms := by simp [hsplit]
    rw [checkParentClosure, hparents, if_neg (by simp), guard_ok, forall_mem_cons, ih hsplit']
    · refine and_congr_left fun _ => ?_
      constructor
      · intro h
        by_contra hno
        rw [not_or, Bool.not_eq_false] at hno
        exact h ⟨hno.1, Or.inl hno.2⟩
      · rintro (h | h) ⟨hno, hbranch⟩
        · exact hno h
        · rcases hbranch with hb | hb
          · rw [h] at hb
            cases hb
          · have := hlen h
            omega
    · intro d hd
      rw [GoSet.has_add]
      rcases mem_append.mp hd with hd | hd
      · exact Or.inr (happ d hd)
      · exact Or.inl (by rw [mem_singleton.mp hd])

theorem checkParentClosure_ok : checkParentClosure s GoMap.empty m.entries = .ok () ↔
    ∀ e ∈ m.entries, s.isApplied e = true ∨ e.nonLinear = false :=
  checkParentClosure_from hm (nil_append _).symm (by simp)

end Closure

/-! ### Candidates -/

section Candidate

variable {s : View} {index : GoMap Nat} {files : GoMap GoString} {m : Migration} {p : Artifact}

@[simp] theorem candidate_entry : (s.candidate index files m p).entry = m := by
  rw [View.candidate]
  rcases s.reversalHead with - | head
  · rfl
  · dsimp only
    split_ifs <;> rfl

/-- An entry at or below the head of the last reversal is applied again. -/
theorem candidate_again {head : Nat} (hh : s.reversalHead = some head) (ha : s.activeReversal ≠ [])
    (hi : (index.get? m.version).getD 0 ≤ head) :
    s.candidate index files m p =
      { entry := m
        raw := (files.get? m.artifactFile).getD []
        payload := p
        reversalOf := s.activeReversal
        executionAttempt := max ((s.reapplyAttempt.get? m.version).getD 0) 1 + 1
        recordVersion := str "zz_reapply_" ++ Text.replaceByte 0x2E 0x5F m.version ++
          0x5F :: decimal (max ((s.reapplyAttempt.get? m.version).getD 0) 1 + 1) } := by
  rw [View.candidate, hh]
  exact if_pos ⟨ha, hi⟩

theorem candidate_plain (h : ∀ head, s.reversalHead = some head → head < (index.get? m.version).getD 0) :
    (s.candidate index files m p).recordVersion = [] := by
  rw [View.candidate]
  rcases hh : s.reversalHead with - | head
  · rfl
  · dsimp only
    rw [if_neg fun hle => Nat.not_lt.mpr hle.2 (h head hh)]

/-- A candidate with a key of its own is applied again after a reversal. -/
theorem candidate_key (h : (s.candidate index files m p).recordVersion ≠ []) :
    IsKey (s.candidate index files m p).recordVersion ∧ (s.candidate index files m p).reversalOf ≠ [] := by
  rcases hh : s.reversalHead with - | head
  · exact absurd (candidate_plain (fun head h => by rw [hh] at h; cases h)) h
  · by_cases hc : s.activeReversal ≠ [] ∧ (index.get? m.version).getD 0 ≤ head
    · rw [candidate_again hh hc.1 hc.2]
      exact ⟨⟨0x7A, _, rfl, rfl⟩, hc.1⟩
    · rw [View.candidate, hh] at h
      dsimp only at h
      rw [if_neg hc] at h
      exact absurd rfl h

end Candidate

/-- Pending entries with trusted artifacts have candidates. -/
theorem exists_admitted {trust : Trust} {snap : Snapshot} {P : List Migration} (hnone : ∀ e ∈ P, s.inForce.get? e.version = none)
    (htrust : ∀ e ∈ P, ∃ p, trusted trust snap.files e = .ok p) :
    ∃ cs, List.Forall₂ (Admitted trust snap s) P cs ∧ cs.map Candidate.entry = P := by
  induction P with
  | nil => exact ⟨[], .nil, rfl⟩
  | cons e P ih =>
    rw [forall_mem_cons] at hnone htrust
    obtain ⟨cs, hcs, hentry⟩ := ih hnone.2 htrust.2
    obtain ⟨p, hp⟩ := htrust.1
    exact ⟨s.candidate (versionIndex snap.manifest.entries) snap.files e p :: cs,
      .cons ⟨hnone.1, p, hp, rfl⟩ hcs, by rw [map_cons, candidate_entry, hentry]⟩

/-! ### The entries that are left -/

theorem mem_remaining {m : Migration} : m ∈ remaining s records fresh 0 ms ↔
      ∃ i, ms[i]? = some m ∧ skips s records fresh m i = false := by
  simp only [remaining, mem_map, mem_filter, Bool.not_eq_true', Prod.exists, exists_and_right,
    exists_eq_right, mem_zipIdx_iff_getElem?]

theorem remaining_sublist (s : View) (records : List Revision) (fresh : Option Nat) (ms : List Migration) :
    (remaining s records fresh 0 ms).Sublist ms := by
  have := (filter_sublist (l := ms.zipIdx 0)
    (p := fun p => !skips s records fresh p.1 p.2)).map Prod.fst
  rwa [zipIdx_map_fst] at this

theorem remaining_eq_drop_from (h : ∀ (j : Nat) (e : Migration), ms[j]? = some e →
      skips s records fresh e (i + j) = decide (i + j < k)) : remaining s records fresh i ms = ms.drop (k - i) := by
  induction ms generalizing i with
  | nil => rw [drop_nil]; rfl
  | cons e ms ih =>
    have htail : remaining s records fresh (i + 1) ms = ms.drop (k - (i + 1)) := by
      apply ih
      intro j e' he'
      have := h (j + 1) e' he'
      rwa [Nat.add_comm j 1, ← Nat.add_assoc] at this
    have hhead : skips s records fresh e i = decide (i < k) := h 0 e rfl
    rw [remaining_cons, hhead, htail]
    by_cases hk : i < k
    · rw [if_pos (by simpa using hk), show k - i = k - (i + 1) + 1 by omega]
      rfl
    · rw [if_neg (by simpa using hk), show k - (i + 1) = 0 by omega, show k - i = 0 by omega]
      rfl

/-- If the entries in front of an index are skipped, those from it on are left. -/
theorem remaining_eq_drop

    (h : ∀ (i : Nat) (e : Migration), ms[i]? = some e → skips s records fresh e i = decide (i < k)) :
    remaining s records fresh 0 ms = ms.drop k := by
  apply remaining_eq_drop_from
  intro j e he
  rw [Nat.zero_add]
  exact h j e he

/-- The candidates for a target without records start with the first entry. -/
theorem fresh_candidates {trust : Trust} {snap : Snapshot} {A P Q : List Migration} {cs : List Candidate}
    (hsel : Selects trust snap [] s A P Q cs) : ∀ (j : Nat) (c : Candidate), cs[j]? = some c →
      snap.manifest.entries[firstIndex snap.manifest + j]? = some c.entry ∧ c.recordVersion = [] := by
  obtain rfl : {} = s := Except.ok.inj hsel.scan
  have hA : A = [] := by
    rw [eq_nil_iff_forall_not_mem]
    intro e he
    obtain ⟨x, hx, -⟩ := hsel.recorded e he
    cases hx
  have hdrop : snap.manifest.entries.drop (firstIndex snap.manifest) = P ++ Q := by
    have hsplit := hsel.split
    rw [hA, nil_append] at hsplit
    rw [← hsplit]
    exact (remaining_eq_drop fun i e _ => skips_fresh).symm
  intro j c hj
  obtain ⟨e, he, -, p, -, rfl⟩ := forall₂_getElem? hsel.pending hj
  refine ⟨?_, candidate_plain fun head hh => by cases hh⟩
  rw [candidate_entry, ← getElem?_drop, hdrop, getElem?_append_left (List.getElem?_eq_some_iff.mp he).1, he]

/-- Skipping more entries filters what is left. -/
theorem remaining_filter (hm : m.WellFormed) {s' : View} {R R' : List Revision} {fresh' : Option Nat}
    (h : ∀ (i : Nat) (e : Migration), m.entries[i]? = some e → skips s R fresh e i = true →
      skips s' R' fresh' e i = true) :
    remaining s' R' fresh' 0 m.entries = (remaining s R fresh 0 m.entries).filter fun e =>
      !skips s' R' fresh' e (((versionIndex m.entries).get? e.version).getD 0) := by
  rw [remaining, remaining, filter_map, filter_filter]
  congr 1
  refine filter_congr fun p hp => ?_
  have hget := mem_zipIdx_iff_getElem?.mp hp
  simp only [Function.comp_apply, index_version hm hget, Option.getD_some]
  rcases hs : skips s R fresh p.1 p.2 with - | -
  · simp
  · rw [h p.2 p.1 hget hs]
    rfl

/-! ### A sample directory

Every file runs one statement in one phase, and its artifact is the text of its
version. -/

def sampleDigest : GoString :=
  str "sha256:0000000000000000000000000000000000000000000000000000000000000000"

def sampleFile (version : GoString) : File where
  name := version ++ str "__sample.sql"
  sql := str "-- autosql: plan-digest=" ++ sampleDigest ++ str "\n-- autosql: check-digest=" ++ sampleDigest ++
    str "\n-- autosql: bundle-digest=" ++ sampleDigest ++ str "\nSELECT 1;"
  artifactName := version ++ str "__sample.sql.artifact.json"
  artifact := version

def sampleCheckpoint (version lo hi : GoString) : File :=
  { sampleFile version with
    kind := Migrate.checkpoint
    coveredFrom := lo
    coveredTo := hi
    schemaFingerprint := sampleDigest
    dataPolicy := str "schema_only" }

def samplePlan : Plan where
  fromFingerprint := str "before"
  toFingerprint := str "after"
  steps := [⟨str "step", str "SELECT 1", .executable, .required⟩]
  phases := [⟨str "phase", .required, [str "step"]⟩]
  digest := sampleDigest

def sampleArtifact (digest : GoString) : Artifact :=
  ⟨samplePlan, sampleDigest, [], [], [], sampleDigest, .empty, digest⟩

/-- Trusts every artifact with a digest. -/
def sampleTrust : Trust where
  parse raw := some (sampleArtifact raw)
  verify a := if a.digest = [] then none else some a
  digest_ne a p h := by
    split_ifs at h with hd
    cases h
    exact hd

def sampleSnapshot (files : List File) : Snapshot where
  manifest := (build (fun _ => true) files).toOption.getD ⟨[], [], [], []⟩
  files := GoMap.ofList (files.map fun f => (f.artifactName, f.artifact))

theorem build_sampleSnapshot {files : List File} (h : (build (fun _ => true) files).isOk = true) :
    build (fun _ => true) files = .ok (sampleSnapshot files).manifest := eq_ok_of_isOk h _

end AutoSql.Apply
