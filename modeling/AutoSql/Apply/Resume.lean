/-
AutoSql/Apply/Resume.lean

What selection proposes after a run.

A run records its candidates, which are the first pending entries.  Reading the
longer list of records (`scan_run`) puts the new entries into force, and with an
applied checkpoint the entries it covers, and leaves everything else as it was
(`Recorded.Extended`).  So what was passed over still is, what was recorded or
has just been is recorded, and the entries behind the last candidate are left.

A checkpoint among them is passed over if the run recorded a version inside its
range (`overtaken`): the target is inside the checkpoint already.

Two ways of recording do not fit.  A re-applied checkpoint, and a baseline of an
entry that would be applied again, are rows that selection refuses.  On a target
without records the entries in front of the last checkpoint are passed over only
until something is recorded; after that only an applied checkpoint stands for
them, and only for those it covers.
-/
import AutoSql.Apply.View

namespace AutoSql.Apply

open Migrate Artifacts Fallible List

/-- A checkpoint with a recorded candidate inside its range. -/
def overtaken (cs : List Candidate) (e : Migration) : Bool :=
  e.kind == Migrate.checkpoint &&
    cs.any fun c => c.recordVersion == [] && versionInRange c.entry.version e.coveredFrom e.coveredTo

/-- The rows that a run leaves; `n` counts the applied steps. -/
def rows (mode : RunMode) (m : Manifest) (operator : GoString) (n : Candidate → Nat) (cs : List Candidate) :
    List Revision :=
  cs.map fun c => record mode m operator (n c) c

/-! ### One row -/

section Row

variable {mode : RunMode} {m : Manifest} {operator : GoString} {k : Nat} {c : Candidate}

/-- Only an applied checkpoint stands for other entries. -/
theorem mem_supersededBy {v : GoString} (h : v ∈ supersededBy (record mode m operator k c)) :
    c.entry.kind = Migrate.checkpoint ∧
      v ∈ (m.entries.filter fun e => versionInRange e.version c.entry.coveredFrom c.entry.coveredTo).map
        Migration.version := by
  rw [supersededBy] at h
  split_ifs at h with hk
  · rw [record_supersedes hk.1] at h
    refine ⟨?_, h⟩
    by_contra hne
    have hkind := hk.1
    rw [record_kind] at hkind
    split_ifs at hkind
    cases mode <;> simp [RunMode.kind, hne] at hkind
  · cases h

theorem versionInRange_record (hkey : c.recordVersion ≠ [] → IsKey c.recordVersion) {lo hi : GoString} :
    versionInRange (record mode m operator k c).version lo hi =
      (c.recordVersion == [] && versionInRange c.entry.version lo hi) := by
  rw [record_version]
  by_cases h : c.recordVersion = []
  · simp [h]
  · obtain ⟨b, t, heq, hb⟩ := hkey h
    rw [if_pos h, heq, versionInRange_key hb]
    rfl

theorem clean_record {index : GoMap Nat} (hi : index.contains c.entry.version = true) :
    CleanRecord index (record mode m operator k c) := by
  refine ⟨?_, ?_⟩
  · by_cases h : c.recordVersion = []
    · left
      rw [record_version, if_neg (by simp [h]), hi]
    · right
      right
      rw [record_kind, if_pos h]
  · exact mode.finalState_clean c.entry

end Row

/-! ### All rows of a run -/

/-- The view after the rows of `cs`. -/
structure Extended (mode : RunMode) (m : Manifest) (operator : GoString) (n : Candidate → Nat)
    (cs : List Candidate) (s s' : View) : Prop where
  kept : ∀ v, (∀ c ∈ cs, c.entry.version ≠ v) → s'.inForce.get? v = s.inForce.get? v
  new : ∀ c ∈ cs, s'.inForce.get? c.entry.version = some (record mode m operator (n c) c)
  covered : ∀ v, GoSet.has s'.covered v = true ↔
    (∃ c ∈ cs, v ∈ supersededBy (record mode m operator (n c) c)) ∨ GoSet.has s.covered v = true

section Run

variable {mode : RunMode} {m : Manifest} {operator : GoString} {n : Candidate → Nat}

/-- A candidate whose row can be read. -/
structure Readable (index : GoMap Nat) (mode : RunMode) (c : Candidate) : Prop where
  index : index.contains c.entry.version = true
  key : c.recordVersion ≠ [] → IsKey c.recordVersion ∧ c.reversalOf ≠ []
  mode : c.recordVersion ≠ [] → mode = .apply ∧ c.entry.kind ≠ Migrate.checkpoint

end Run

/-! ### The parts of two selections -/

section Split

variable {trust : Trust} {snap : Snapshot} {R : List Revision} {s : View}

variable {A P Q : List Migration} {cs : List Candidate}

theorem Selects.entries (h : Selects trust snap R s A P Q cs) : cs.map Candidate.entry = P := by
  have hlen := h.pending.length_eq
  refine ext_getElem? fun i => ?_
  rw [getElem?_map]
  rcases hc : cs[i]? with - | c
  · rw [getElem?_eq_none_iff] at hc
    rw [getElem?_eq_none_iff.mpr (by omega)]
    rfl
  · obtain ⟨e, he, -, p, -, rfl⟩ := forall₂_getElem? h.pending hc
    rw [he, Option.map_some, candidate_entry]

end Split

/-! ### Resuming -/

section Resume

variable {trust : Trust} {snap : Snapshot} (hm : snap.manifest.WellFormed) {R : List Revision} {s s' : View}
  {A P Q : List Migration} {cs all : List Candidate} {mode : RunMode} {operator : GoString} {n : Candidate → Nat}

variable {e : Migration}

theorem Selects.mem_entries (h : Selects trust snap R s A P Q cs) (he : e ∈ A ++ P ++ Q) :
    e ∈ snap.manifest.entries := by
  apply (remaining_sublist s R (freshCheckpoint R snap.manifest.entries) snap.manifest.entries).subset
  rwa [h.split]

theorem Selects.readable (hm : snap.manifest.WellFormed) (h : Selects trust snap R s A P Q cs)
    (hmode : ∀ c ∈ cs, c.recordVersion ≠ [] → mode = .apply ∧ c.entry.kind ≠ Migrate.checkpoint) :
    ∀ c ∈ cs, Readable (versionIndex snap.manifest.entries) mode c := by
  intro c hc
  obtain ⟨i, hi⟩ := mem_iff_getElem?.mp hc
  obtain ⟨e, he, -, p, -, rfl⟩ := forall₂_getElem? h.pending hi
  refine ⟨?_, candidate_key, hmode _ hc⟩
  obtain ⟨j, hj⟩ := mem_iff_getElem?.mp
    (h.mem_entries (mem_append_left _ (mem_append_right _ (mem_of_getElem? he))))
  rw [candidate_entry, GoMap.contains, index_version hm hj]
  rfl

/-- The entries of a selection come in the order of the manifest. -/
theorem Selects.pairwise (hm : snap.manifest.WellFormed) (h : Selects trust snap R s A P Q cs) :
    (A ++ P ++ Q).Pairwise fun a b => (versionOf a).compare (versionOf b) = .lt := by
  rw [← h.split]
  exact hm.increasing.sublist (remaining_sublist _ _ _ _)

include hm

theorem Selects.nodup (h : Selects trust snap R s A P Q cs) : (cs.map fun c => c.entry.version).Nodup := by
  have hmap : (cs.map fun c => c.entry.version) = P.map Migration.version := by
    rw [← h.entries, map_map]
    rfl
  have hsub : (P.map Migration.version).Sublist (snap.manifest.entries.map Migration.version) := by
    apply List.Sublist.map
    apply List.Sublist.trans _ (remaining_sublist s R (freshCheckpoint R snap.manifest.entries) _)
    rw [h.split, append_assoc]
    exact (sublist_append_left P Q).trans (sublist_append_right A _)
  rw [hmap]
  exact (nodup_versions hm).sublist hsub

/-- What was passed over before a run is passed over after it. -/
theorem skips_mono (h : Selects trust snap R s A P Q cs) (hne : cs ≠ [])
    (hext : Extended mode snap.manifest operator n cs s s')
    (hfresh : R = [] → ∀ k, lastCheckpoint snap.manifest.entries = some k → mode = .apply ∧ CoversAll snap.manifest)
    {i : Nat} (he : snap.manifest.entries[i]? = some e)
    (hskip : skips s R (freshCheckpoint R snap.manifest.entries) e i = true) :
    skips s' (R ++ rows mode snap.manifest operator n cs) none e i = true := by
  have hcov : GoSet.has s.covered e.version = true → GoSet.has s'.covered e.version = true :=
    fun hc => (hext.covered _).mpr (Or.inr hc)
  by_cases hR : R = []
  · -- the first candidate is the last checkpoint, and stands for what is in front of it
    subst hR
    obtain rfl : {} = s := Except.ok.inj h.scan
    rw [freshCheckpoint, if_pos rfl, skips_fresh, decide_eq_true_eq] at hskip
    obtain ⟨rfl, hc⟩ := hfresh rfl _ (checkpoint_of_firstIndex_pos (Nat.zero_lt_of_lt hskip))
    obtain ⟨c, cs, rfl⟩ := exists_cons_of_ne_nil hne
    obtain ⟨hfirst, hv⟩ := fresh_candidates h 0 c rfl
    obtain ⟨hk, hr⟩ := (first_covers hm hc hfirst he).mpr hskip
    have hmem : e.version ∈ supersededBy (record .apply snap.manifest operator (n c) c) := by
      rw [supersededBy_record hv, if_pos hk, mem_map_filter hm he]
      exact hr
    rw [skips, (hext.covered _).mpr (Or.inl ⟨c, mem_cons_self, hmem⟩)]
    rfl
  · rw [freshCheckpoint, if_neg hR] at hskip
    simp only [skips, Option.any_none, Bool.or_false, Bool.or_eq_true, Bool.and_eq_true] at hskip ⊢
    refine hskip.imp hcov fun hin => ⟨hin.1, ?_⟩
    rw [insideRange, any_append, Bool.or_eq_true]
    exact Or.inl hin.2

/-- Behind the candidates, only an overtaken checkpoint is passed over. -/
theorem skips_behind (h : Selects trust snap R s A P Q cs)
    (hread : ∀ c ∈ cs, Readable (versionIndex snap.manifest.entries) mode c)
    (hext : Extended mode snap.manifest operator n cs s s') {i : Nat}
    (he : snap.manifest.entries[i]? = some e) (hQ : e ∈ Q)
    (hskip : skips s R (freshCheckpoint R snap.manifest.entries) e i = false) :
    skips s' (R ++ rows mode snap.manifest operator n cs) none e i = overtaken cs e := by
  -- no checkpoint among the candidates stands for an entry behind it
  have hcov : GoSet.has s'.covered e.version = false := by
    rw [← Bool.not_eq_true, hext.covered, not_or]
    simp only [skips, Bool.or_eq_false_iff] at hskip
    refine ⟨?_, by simp [hskip.1.1]⟩
    rintro ⟨c, hc, hmem⟩
    obtain ⟨hk, hmem⟩ := mem_supersededBy hmem
    rw [mem_map_filter hm he] at hmem
    have hP : c.entry ∈ P := h.entries ▸ mem_map_of_mem hc
    have hlt := (pairwise_append.mp (h.pairwise hm)).2.2 c.entry (mem_append_right _ hP) e hQ
    obtain ⟨j, hj⟩ := mem_iff_getElem?.mp (h.mem_entries (mem_append_left _ (mem_append_right _ hP)))
    rw [compare_eq_compare hm hj he, Nat.compare_eq_lt] at hlt
    rw [not_inRange_of_le hm hj hk he (Nat.le_of_lt hlt)] at hmem
    cases hmem
  have hnew : insideRange (rows mode snap.manifest operator n cs) e =
      cs.any fun c => c.recordVersion == [] && versionInRange c.entry.version e.coveredFrom e.coveredTo := by
    rw [insideRange, rows, any_map, Bool.eq_iff_iff, any_eq_true, any_eq_true]
    refine exists_congr fun c => and_congr_right fun hc => ?_
    rw [Function.comp_apply, versionInRange_record fun hv => ((hread c hc).key hv).1]
  have hold : (e.kind == Migrate.checkpoint && insideRange R e) = false := by
    rw [skips, Bool.or_eq_false_iff] at hskip
    exact hskip.2
  rw [skips, hcov, insideRange, any_append]
  change (false || false || (_ && (insideRange R e || insideRange (rows mode snap.manifest operator n cs) e))) = _
  rw [hnew, Bool.and_or_distrib_left, hold]
  rfl

omit hm in
theorem Extended.contains (hext : Extended mode snap.manifest operator n cs s s') {v : GoString}
    (hv : s.inForce.contains v = true) : s'.inForce.contains v = true := by
  rw [GoMap.contains] at hv ⊢
  by_cases hc : ∃ c ∈ cs, c.entry.version = v
  · obtain ⟨c, hc, rfl⟩ := hc
    rw [hext.new c hc]
    rfl
  · rw [hext.kept v fun c hmem heq => hc ⟨c, hmem, heq⟩]
    exact hv

omit hm in
theorem Extended.isApplied (hext : Extended mode snap.manifest operator n cs s s')
    (h : s.isApplied e = true) : s'.isApplied e = true := by
  rw [View.isApplied, Bool.or_eq_true] at h ⊢
  exact h.imp hext.contains fun hc => (hext.covered _).mpr (Or.inr hc)

/-- What is not a candidate is in force after a run if it was before. -/
theorem Selects.kept (h : Selects trust snap R s A P Q cs)
    (hext : Extended mode snap.manifest operator n cs s s') (he : e ∈ A ++ P ++ Q)
    (hP : e ∉ P) : s'.inForce.get? e.version = s.inForce.get? e.version := by
  apply hext.kept
  intro c hc heq
  have hcP : c.entry ∈ P := h.entries ▸ mem_map_of_mem hc
  have hentry := h.mem_entries (mem_append_left _ (mem_append_right _ hcP))
  exact hP (eq_of_version hm hentry (h.mem_entries he) heq ▸ hcP)

/-- The recorded entries and the candidates are recorded after a run. -/
theorem Selects.recorded_after (h : Selects trust snap R s A P Q cs)
    (hext : Extended mode snap.manifest operator n cs s s') (he : e ∈ A ++ P) : Recorded s' e := by
  by_cases hP : e ∈ P
  · rw [← h.entries] at hP
    obtain ⟨c, hc, rfl⟩ := mem_map.mp hP
    exact ⟨_, hext.new c hc, drifted_record⟩
  · obtain ⟨x, hx, hd⟩ := h.recorded e ((mem_append.mp he).resolve_right hP)
    exact ⟨x, (h.kept hm hext (mem_append_left _ he) hP).trans hx, hd⟩

/-- The entries behind the candidates are pending after a run. -/
theorem Selects.pending_after (h : Selects trust snap R s A P Q cs) (hall : Selects trust snap R s A (P ++ Q) [] all)
    (hext : Extended mode snap.manifest operator n cs s s') (he : e ∈ Q) :
    s'.inForce.get? e.version = none ∧ ∃ p, trusted trust snap.files e = .ok p := by
  have hP : e ∉ P := by
    intro hP
    have := (pairwise_append.mp (h.pairwise hm)).2.2 e (mem_append_right _ hP) e he
    rw [Version.compare_self] at this
    cases this
  obtain ⟨c, -, hnone, p, hp, -⟩ := forall₂_mem hall.pending e (mem_append_right P he)
  exact ⟨(h.kept hm hext (mem_append_right _ he) hP).trans hnone, p, hp⟩

/-- The selection after a run. -/
theorem Selects.resume (h : Selects trust snap R s A P Q cs) (hne : cs ≠ [])
    (hall : Selects trust snap R s A (P ++ Q) [] all)
    (hread : ∀ c ∈ cs, Readable (versionIndex snap.manifest.entries) mode c)
    (hscan : scanRecords (versionIndex snap.manifest.entries) (R ++ rows mode snap.manifest operator n cs) = .ok s')
    (hext : Extended mode snap.manifest operator n cs s s')
    (hfresh : R = [] → ∀ k, lastCheckpoint snap.manifest.entries = some k → mode = .apply ∧ CoversAll snap.manifest) :
    ∃ A₁ next, Selects trust snap (R ++ rows mode snap.manifest operator n cs) s' A₁
      (Q.filter fun e => !overtaken cs e) [] next ∧ next.map Candidate.entry = Q.filter fun e => !overtaken cs e := by
  have hnonempty : R ++ rows mode snap.manifest operator n cs ≠ [] := by simp [rows, hne]
  have hrem := remaining_filter hm fun i e he => skips_mono hm h hne hext hfresh he
  have hbehind : ∀ e ∈ Q, (!skips s' (R ++ rows mode snap.manifest operator n cs) none e
      (((versionIndex snap.manifest.entries).get? e.version).getD 0)) = !overtaken cs e := by
    intro e he
    obtain ⟨i, hi, hskip⟩ := mem_remaining.mp (h.split ▸ mem_append_right (A ++ P) he)
    rw [index_version hm hi, Option.getD_some, skips_behind hm h hread hext hi he hskip]
  obtain ⟨next, hnext, hentries⟩ := exists_admitted
   
    (fun e he => (h.pending_after hm hall hext (mem_of_mem_filter he)).1)
    (fun e he => (h.pending_after hm hall hext (mem_of_mem_filter he)).2)
  refine ⟨(A ++ P).filter fun e => !skips s' (R ++ rows mode snap.manifest operator n cs) none e
      (((versionIndex snap.manifest.entries).get? e.version).getD 0), next,
    ⟨hscan, ?_, ?_, ?_, ?_, hnext⟩, hentries⟩
  · rw [checkParentClosure_ok hm]
    intro e he
    exact ((checkParentClosure_ok hm).mp h.closure e he).imp hext.isApplied id
  · rw [checkRecords_ok]
    intro x hx
    rcases mem_append.mp hx with hx | hx
    · exact checkRecords_ok.mp h.clean x hx
    · obtain ⟨c, hc, rfl⟩ := mem_map.mp hx
      exact clean_record (hread c hc).index
  · rw [freshCheckpoint, if_neg hnonempty, hrem, h.split, filter_append, filter_congr hbehind, append_nil]
  · intro e he
    exact h.recorded_after hm hext (mem_of_mem_filter he)

end Resume

/-! ### Two runs -/

section Sample

/-- Two migrations, a checkpoint for the second, and one more migration. -/
def overtakenFiles : List File :=
  [sampleFile (str "1"), sampleFile (str "2"), sampleCheckpoint (str "3") (str "2.0.0") (str "2.0.0"),
    sampleFile (str "4")]

def sampleCandidates (files : List File) (R : List Revision) (r : Bounds) : List Candidate :=
  (selectTrusted sampleTrust (sampleSnapshot files) R r).toOption.getD []

/-- The records after a run. -/
def sampleRun (mode : RunMode) (files : List File) (R : List Revision) (r : Bounds) : List Revision :=
  R ++ rows mode (sampleSnapshot files).manifest [] (fun _ => 1) (sampleCandidates files R r)

/-- The first migration was applied when it was the only one. -/
def overtakenRecords : List Revision := sampleRun .apply [sampleFile (str "1")] [] {}

def versions (x : Except Refusal (List Candidate)) : Except Refusal (List GoString) :=
  x.map (List.map fun c => c.entry.version)

theorem overtaken_runs : (build (fun _ => true) overtakenFiles).isOk = true ∧ overtakenRecords ≠ [] ∧
      versions (selectTrusted sampleTrust (sampleSnapshot overtakenFiles) overtakenRecords {}) =
        .ok [str "2.0.0", str "3.0.0", str "4.0.0"] ∧
      versions (selectTrusted sampleTrust (sampleSnapshot overtakenFiles) overtakenRecords { count := some 1 }) =
        .ok [str "2.0.0"] ∧
      (∀ c ∈ sampleCandidates overtakenFiles overtakenRecords { count := some 1 }, c.recordVersion = []) ∧
      versions (selectTrusted sampleTrust (sampleSnapshot overtakenFiles)
        (sampleRun .apply overtakenFiles overtakenRecords { count := some 1 }) {}) = .ok [str "4.0.0"] := by
  decide +kernel

theorem sampleCandidates_ok {files : List File} {R : List Revision} {r : Bounds} {l : List GoString}
    (h : versions (selectTrusted sampleTrust (sampleSnapshot files) R r) = .ok l) :
    selectTrusted sampleTrust (sampleSnapshot files) R r = .ok (sampleCandidates files R r) := by
  obtain ⟨cs, hcs, -⟩ := map_ok.mp h
  rw [sampleCandidates, hcs]
  rfl

end Sample

end AutoSql.Apply
