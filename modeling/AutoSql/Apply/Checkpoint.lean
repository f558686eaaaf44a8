/-
AutoSql/Apply/Checkpoint.lean

Which entries a selection leaves out, and what a returned checkpoint stands for.

An entry in front of a candidate that is neither in force nor returned was
passed over (`skips`), for one of three reasons: a recorded checkpoint stands for
it, it is itself a checkpoint and the target is inside its range, or the target
has no records and starts with a later checkpoint.

A returned checkpoint has no record inside its range.  Whether entries inside
its range are returned with it is settled for a target without records only: a
target that stands in front of the range is offered the entries of the range and
the checkpoint.
-/
import AutoSql.Apply.Resume

namespace AutoSql.Apply

open Migrate Artifacts Fallible List

/-! ### What recorded checkpoints stand for -/

theorem supersededBy_plain {x : Revision} {v : GoString} (h : v ∈ supersededBy x) :
    x.kind = .checkpoint ∧ (x.state = .checkpoint ∨ x.state = .applied) ∧ v ∈ x.supersedes := by
  rw [supersededBy] at h
  split_ifs at h with hk
  · exact ⟨hk.1, hk.2, h⟩
  · cases h

/-- One record adds the versions it stands for. -/
theorem covered_scanRecord {index : GoMap Nat} {s s' : View} {x : Revision}
    (h : scanRecord index s x = .ok s') (v : GoString) :
    GoSet.has s'.covered v = true ↔ v ∈ supersededBy x ∨ GoSet.has s.covered v = true := by
  have hnone : x.kind ≠ .checkpoint → (v ∈ supersededBy x ↔ False) := by
    intro hk
    rw [iff_false]
    exact fun hv => hk (supersededBy_plain hv).1
  rw [scanRecord] at h
  split at h
  · -- a reversal
    rename_i hk
    rw [hnone (by simp [hk]), false_or]
    rw [scanReversal] at h
    split at h
    · rw [guard_ok] at h
      obtain ⟨-, h⟩ := h
      cases h
      rfl
    · cases h
  · -- a re-application
    rename_i hk
    rw [hnone (by simp [hk]), false_or]
    rw [scanReapply, guard_ok] at h
    obtain ⟨-, h⟩ := h
    cases h
    rfl
  · rw [scanPlain, guard_ok] at h
    obtain ⟨-, h⟩ := h
    cases h
    exact GoSet.has_foldl_add

theorem covered_scanRecords {index : GoMap Nat} {records : List Revision} {s : View}
    (h : scanRecords index records = .ok s) (v : GoString) :
    GoSet.has s.covered v = true ↔ ∃ x ∈ records, v ∈ supersededBy x := by
  induction records using List.reverseRecOn generalizing s with
  | nil =>
    cases h
    simp
  | append_singleton records x ih =>
    rw [scanRecords_snoc, bind_ok] at h
    obtain ⟨s₁, hscan, hx⟩ := h
    rw [covered_scanRecord hx, ih hscan]
    simp only [mem_append, mem_singleton, or_and_right, exists_or, exists_eq_left]
    exact or_comm

/-! ### Entries that are passed over -/

/-- Why an entry at index `i` is passed over. -/
inductive PassedOver (m : Manifest) (records : List Revision) (cs : List Candidate) (i : Nat) (e : Migration) : Prop
  | superseded (x : Revision) (hx : x ∈ records) (hk : x.kind = .checkpoint)
      (hs : x.state = .checkpoint ∨ x.state = .applied) (hv : e.version ∈ x.supersedes)
  | inside (hk : e.kind = Migrate.checkpoint) (x : Revision) (hx : x ∈ records)
      (hr : versionInRange x.version e.coveredFrom e.coveredTo = true)
  | fresh (hr : records = []) (k : Nat) (hk : lastCheckpoint m.entries = some k) (hi : i < k) (d : Candidate)
      (rest : List Candidate) (hcs : cs = d :: rest) (hd : m.entries[k]? = some d.entry)
      (hin : CoversAll m → versionInRange e.version d.entry.coveredFrom d.entry.coveredTo = true)

/-- What a selection does around checkpoints. -/
structure AroundCheckpoints (m : Manifest) (R : List Revision) (s : View) (cs : List Candidate) : Prop where
  /-- What is in front of a candidate and neither in force nor returned was passed over. -/
  before : ∀ (i j : Nat) (e : Migration) (c : Candidate), m.entries[i]? = some e → c ∈ cs →
    m.entries[j]? = some c.entry → i < j → s.inForce.get? e.version = none →
    (∀ d ∈ cs, d.entry ≠ e) → PassedOver m R cs i e
  /-- A returned checkpoint has no record inside its range. -/
  unrecorded : ∀ c ∈ cs, c.entry.kind = Migrate.checkpoint → ∀ x ∈ R,
    versionInRange x.version c.entry.coveredFrom c.entry.coveredTo = false
  /-- On a target without records it has no returned entry inside its range. -/
  unreturned : R = [] → ∀ c ∈ cs, c.entry.kind = Migrate.checkpoint → ∀ d ∈ cs,
    versionInRange d.entry.version c.entry.coveredFrom c.entry.coveredTo = false

section Selection

variable {trust : Trust} {snap : Snapshot} {R : List Revision} {s : View} {A P Q : List Migration}
  {cs : List Candidate}

/-- What is in front of a candidate, not in force and not returned is passed over. -/
theorem Selects.skips_of_before (hm : snap.manifest.WellFormed) (h : Selects trust snap R s A P Q cs) {i j : Nat}
    {e : Migration} {c : Candidate} (he : snap.manifest.entries[i]? = some e) (hc : c ∈ cs)
    (hj : snap.manifest.entries[j]? = some c.entry) (hlt : i < j)
    (hnone : s.inForce.get? e.version = none) (hout : ∀ d ∈ cs, d.entry ≠ e) :
    skips s R (freshCheckpoint R snap.manifest.entries) e i = true := by
  by_contra hskip
  have hmem : e ∈ A ++ P ++ Q := by
    rw [← h.split, mem_remaining]
    exact ⟨i, he, by simpa using hskip⟩
  have hcP : c.entry ∈ P := h.entries ▸ mem_map_of_mem hc
  rcases mem_append.mp hmem with hmem | hQ
  · rcases mem_append.mp hmem with hA | hP
    · obtain ⟨x, hx, -⟩ := h.recorded e hA
      rw [hnone] at hx
      cases hx
    · rw [← h.entries] at hP
      obtain ⟨d, hd, hde⟩ := mem_map.mp hP
      exact hout d hd hde
  · -- what the bounds cut off comes behind all candidates
    have hgt := (pairwise_append.mp (h.pairwise hm)).2.2 c.entry (mem_append_right _ hcP) e hQ
    rw [compare_eq_compare hm hj he, Nat.compare_eq_lt] at hgt
    omega

theorem Selects.passedOver (hm : snap.manifest.WellFormed) (h : Selects trust snap R s A P Q cs) (hne : cs ≠ [])
    {i : Nat} {e : Migration} (he : snap.manifest.entries[i]? = some e)
    (hskip : skips s R (freshCheckpoint R snap.manifest.entries) e i = true) : PassedOver snap.manifest R cs i e := by
  simp only [skips, Bool.or_eq_true, Bool.and_eq_true, beq_iff_eq] at hskip
  rcases hskip with (hcov | hfresh) | ⟨hk, hin⟩
  · obtain ⟨x, hx, hv⟩ := (covered_scanRecords h.scan _).mp hcov
    obtain ⟨hk, hs, hv⟩ := supersededBy_plain hv
    exact .superseded x hx hk hs hv
  · rw [freshCheckpoint] at hfresh
    split_ifs at hfresh with hR
    · subst hR
      obtain ⟨k, hk, hi⟩ := (Option.any_eq_true _ _).mp hfresh
      have hfirst : firstIndex snap.manifest = k := by rw [firstIndex, hk, Option.getD_some]
      obtain ⟨d, rest, rfl⟩ := exists_cons_of_ne_nil hne
      obtain ⟨hd, -⟩ := fresh_candidates h 0 d rfl
      rw [Nat.add_zero] at hd
      refine .fresh rfl k hk (of_decide_eq_true hi) d rest rfl (by rw [← hfirst, hd]) fun hcov => ?_
      exact ((first_covers hm hcov hd he).mpr (by rw [hfirst]; exact of_decide_eq_true hi)).2
    · cases hfresh
  · obtain ⟨x, hx, hr⟩ := any_eq_true.mp hin
    exact .inside hk x hx hr

/-- A returned checkpoint has no record inside its range. -/
theorem Selects.range_unrecorded (h : Selects trust snap R s A P Q cs) {c : Candidate} (hc : c ∈ cs)
    (hk : c.entry.kind = Migrate.checkpoint) {x : Revision} (hx : x ∈ R) :
    versionInRange x.version c.entry.coveredFrom c.entry.coveredTo = false := by
  have hmem : c.entry ∈ A ++ P ++ Q :=
    mem_append_left _ (mem_append_right _ (h.entries ▸ mem_map_of_mem hc))
  rw [← h.split, mem_remaining] at hmem
  obtain ⟨i, -, hskip⟩ := hmem
  simp only [skips, Bool.or_eq_false_iff, hk, beq_self_eq_true, Bool.true_and, insideRange, any_eq_false] at hskip
  simpa using hskip.2 x hx

/-- On a target without records nothing inside the range of a returned checkpoint is returned. -/
theorem Selects.range_unreturned (hm : snap.manifest.WellFormed) (h : Selects trust snap [] s A P Q cs)
    {c d : Candidate} (hc : c ∈ cs) (hk : c.entry.kind = Migrate.checkpoint) (hd : d ∈ cs) :
    versionInRange d.entry.version c.entry.coveredFrom c.entry.coveredTo = false := by
  obtain ⟨j, hj⟩ := mem_iff_getElem?.mp hc
  obtain ⟨i, hi⟩ := mem_iff_getElem?.mp hd
  obtain ⟨hcj, -⟩ := fresh_candidates h j c hj
  obtain ⟨hdi, -⟩ := fresh_candidates h i d hi
  -- the only checkpoint that is returned is the first candidate
  have hzero : j = 0 := by
    by_contra hne
    exact kind_of_firstIndex_lt hcj (by omega) hk
  exact not_inRange_of_le hm hcj hk hdi (by omega)

/-- **Around a checkpoint.** -/
theorem checkpoint_selection {isArtifact : GoString → Bool} {files : List File}
    (hb : build isArtifact files = .ok snap.manifest) {r : Bounds} (hsel : selectTrusted trust snap R r = .ok cs) :
    ∃ s, scanRecords (versionIndex snap.manifest.entries) R = .ok s ∧ AroundCheckpoints snap.manifest R s cs := by
  have hm := build_ok isArtifact hb
  obtain ⟨s, A, P, Q, h, -⟩ := selectTrusted_ok hsel
  refine ⟨s, h.scan, ?_, ?_, ?_⟩
  · intro i j e c he hc hj hlt hnone hout
    exact h.passedOver hm (ne_nil_of_mem hc) he (h.skips_of_before hm he hc hj hlt hnone hout)
  · intro c hc hk x hx
    exact h.range_unrecorded hc hk hx
  · rintro rfl c hc hk d hd
    exact h.range_unreturned hm hc hk hd

end Selection

/-- The selection for the sample whose first migration was applied. -/
theorem checkpoint_selection_overtaken :
    ∃ s, scanRecords (versionIndex (sampleSnapshot overtakenFiles).manifest.entries) overtakenRecords = .ok s ∧
      AroundCheckpoints (sampleSnapshot overtakenFiles).manifest overtakenRecords s
        (sampleCandidates overtakenFiles overtakenRecords {}) := by
  obtain ⟨hbuild, -, hall, -⟩ := overtaken_runs
  exact checkpoint_selection (build_sampleSnapshot hbuild) (sampleCandidates_ok hall)

/-- The records after both migrations in front of the checkpoint were applied. -/
def insideRecords : List Revision := sampleRun .apply overtakenFiles overtakenRecords { count := some 1 }

/-- With both migrations recorded and no checkpoint, the checkpoint in front of the
candidate is left out.  With one of them recorded, the other and the checkpoint
that covers it are both returned. -/
theorem checkpoint_left_out : build (fun _ => true) overtakenFiles = .ok (sampleSnapshot overtakenFiles).manifest ∧
      (sampleSnapshot overtakenFiles).manifest.entries.map (fun e => (e.version, e.kind, e.coveredFrom, e.coveredTo)) =
        [(str "1.0.0", [], [], []), (str "2.0.0", [], [], []),
          (str "3.0.0", Migrate.checkpoint, str "2.0.0", str "2.0.0"), (str "4.0.0", [], [], [])] ∧
      insideRecords.map (fun x => (x.version, x.kind)) = [(str "1.0.0", .migration), (str "2.0.0", .migration)] ∧
      versions (selectTrusted sampleTrust (sampleSnapshot overtakenFiles) insideRecords {}) = .ok [str "4.0.0"] ∧
      versions (selectTrusted sampleTrust (sampleSnapshot overtakenFiles) overtakenRecords {}) =
        .ok [str "2.0.0", str "3.0.0", str "4.0.0"] := by
  obtain ⟨hbuild, -, hall, -, -, hnext⟩ := overtaken_runs
  refine ⟨build_sampleSnapshot hbuild, ?_, ?_, hnext, hall⟩ <;> decide +kernel

end AutoSql.Apply
