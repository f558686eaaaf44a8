/-
AutoSql/Apply/Reconcile.lean

`reconcileHistory`: the executor's history must account for every revision.

A revision that is not a baseline is accepted if the rows of its artifact and attempt
are as many as the artifact has executable steps, and each of them confirms one of
these steps with all the fields that bind it.  The second part of the file relates this
to the executor: a run that went through the phases leaves such rows, and a run that
found the target state at once leaves the rows that were there.  The last part is about
all rows: `history_accounts_iff` says when a history that is accepted has no row but those
of its revisions.
-/
import AutoSql.Apply.Revision
import AutoSql.Executor.AtMostOnce

namespace AutoSql.Apply

open Migrate Artifacts Executor List Fallible

/-- The reasons to refuse, in the order of the source. -/
inductive HistoryRefusal
  | refused
  | duplicateHistory
  | reversalMissing
  | artifactAbsent
  | baselineHistory
  | incomplete
  | bindingConflict
  | withoutRevision
  deriving DecidableEq

def stepByID (a : Artifact) (id : GoString) : Option Step := a.plan.steps.find? fun s => s.id = id

def isExecutable (a : Artifact) (id : GoString) : Bool := (stepByID a id).any fun s => s.kind = .executable

/-- The phase of every executable step. -/
def expectedPhases (a : Artifact) : GoMap Phase :=
  GoMap.ofList (a.plan.phases.flatMap fun p => (p.stepIDs.filter (isExecutable a)).map fun id => (id, p))

def rowMatches (a : Artifact) (attempt : Nat) (x : Row) : Bool :=
  match (expectedPhases a).get? x.stepID, stepByID a x.stepID with
  | some p, some s =>
    decide (x.attempt = attempt ∧ x.state = .confirmed ∧ x.stepHash = stepHash s ∧ x.phaseID = p.id ∧
      x.phaseMode = p.transaction ∧ x.executionID = a.digest ∧ x.targetIdentity = targetIdentity a ∧
      x.planDigest = a.plan.digest ∧ x.bundleDigest = a.guardrailDigest)
  | _, _ => false

def attemptRows (a : Artifact) (attempt : Nat) (rows : List Row) : List Row :=
  rows.filter fun x => x.artifactDigest = a.digest ∧ x.attempt = attempt

def checkRevision (a : Artifact) (rows : List Row) (r : Revision) : Except HistoryRefusal Unit :=
  if r.state = .baseline then
    if rows.any fun x => x.artifactDigest = a.digest then .error .baselineHistory else .ok ()
  else if (attemptRows a r.attempt rows).length ≠ (expectedPhases a).size then .error .incomplete
  else if ¬ (attemptRows a r.attempt rows).all (rowMatches a r.attempt) then .error .bindingConflict
  else .ok ()

/-- The artifact a revision was executed from: a reversal has its own file, a
re-application runs the entry of the version it leads to. -/
def artifactOf (trust : Trust) (readFile : GoString → Option GoString) (m : Manifest) (arts : GoMap Artifact)
    (r : Revision) : Except HistoryRefusal Artifact :=
  match r.kind with
  | .reversal =>
    match readFile r.fileName with
    | none => .error .reversalMissing
    | some raw =>
      match (trust.parse raw).bind trust.verify with
      | none => .error .refused
      | some a => if a.digest ≠ r.artifactDigest then .error .refused else .ok a
  | .reapply =>
    match (m.entries.filter fun e => e.version = r.toVersion).getLast? with
    | some e => ((arts.get? e.artifactDigest).map Except.ok).getD (.error .artifactAbsent)
    | none => ((arts.get? r.artifactDigest).map Except.ok).getD (.error .artifactAbsent)
  | _ => ((arts.get? r.artifactDigest).map Except.ok).getD (.error .artifactAbsent)

def entryArtifact (trust : Trust) (snap : Snapshot) (e : Migration) : Except HistoryRefusal (GoString × Artifact) :=
  match (trust.parse ((snap.files.get? e.artifactFile).getD [])).bind trust.verify with
  | none => .error .refused
  | some p => .ok (e.artifactDigest, p)

def reconcileHistory (trust : Trust) (readFile : GoString → Option GoString) (snap : Snapshot)
    (revs : List Revision) (rows : List Row) : Except HistoryRefusal Unit := do
  let arts ← snap.manifest.entries.mapM (entryArtifact trust snap)
  if ¬ (rows.map Row.key).Nodup then .error .duplicateHistory else
  let known ← revs.mapM fun r => do
    let a ← artifactOf trust readFile snap.manifest (GoMap.ofList arts) r
    checkRevision a rows r
    pure a.digest
  if ¬ ∀ x ∈ rows, x.artifactDigest ∈ known then .error .withoutRevision else .ok ()

/-! ### The phases of a valid plan -/

section Valid

variable {a : VerifiedArtifact}

theorem stepByID_mem {s : Step} (hs : s ∈ a.plan.steps) : stepByID a.toArtifact s.id = some s := by
  cases h : stepByID a.toArtifact s.id with
  | none =>
    have := find?_eq_none.mp h s hs
    simp at this
  | some t =>
    have hid : t.id = s.id := by simpa using find?_some h
    rw [inj_on_of_nodup_map a.valid.2.2.2.1 (mem_of_find?_eq_some h) hs hid]

theorem isExecutable_iff {id : GoString} : isExecutable a.toArtifact id = true ↔
    ∃ s ∈ a.plan.steps, s.id = id ∧ s.kind = .executable := by
  unfold isExecutable
  constructor
  · intro h
    cases hs : stepByID a.toArtifact id with
    | none => simp [hs] at h
    | some s =>
      exact ⟨s, mem_of_find?_eq_some hs, by simpa using find?_some hs, by simpa [hs] using h⟩
  · rintro ⟨s, hs, rfl, hk⟩
    simp [stepByID_mem hs, hk]

theorem expected_ids : (a.plan.phases.flatMap fun p =>
      (p.stepIDs.filter (isExecutable a.toArtifact)).map fun id => (id, p)).map Prod.fst =
    (a.plan.steps.map Step.id).filter (isExecutable a.toArtifact) := by
  rw [← a.valid.stepIDs, filter_flatMap, map_flatMap]
  congr 1
  funext p
  simp [Function.comp_def]

theorem expected_get {p : Phase} {id : GoString} (hp : p ∈ a.plan.phases) (hid : id ∈ p.stepIDs)
    (hk : isExecutable a.toArtifact id = true) : (expectedPhases a.toArtifact).get? id = some p := by
  refine (GoMap.get?_ofList_of_nodup ?_).mpr ?_
  · rw [expected_ids]
    exact a.valid.2.2.2.1.filter _
  · exact mem_flatMap.mpr ⟨p, hp, by simp [hid, hk]⟩

theorem mem_expected_keys {id : GoString} :
    id ∈ (expectedPhases a.toArtifact).keys ↔ isExecutable a.toArtifact id = true := by
  rw [GoMap.mem_keys, expectedPhases, GoMap.get?_ofList, GoMap.isSome_lookup, map_reverse, mem_reverse,
    expected_ids, mem_filter]
  refine and_iff_right_of_imp fun h => ?_
  obtain ⟨s, hs, rfl, -⟩ := isExecutable_iff.mp h
  exact mem_map_of_mem hs

end Valid

/-! ### What a run leaves for the check -/

/-- Every executable step is confirmed, and the check accepts a revision of the attempt. -/
def Complete (a : Artifact) (attempt : Nat) (rows : List Row) : Prop :=
  (∀ s ∈ a.plan.steps, s.kind = .executable → ∃ x ∈ rows, x.key = ⟨a.digest, s.id, attempt⟩ ∧ x.state = .confirmed) ∧
    ∀ r : Revision, r.state ≠ .baseline → r.attempt = attempt → checkRevision a rows r = .ok ()

section Run

variable {σ : Type} {b : Backend σ} {cfg : Config} {a : VerifiedArtifact}

theorem rowMatches_step {attempt : Nat} {x : Row} (h : rowMatches a.toArtifact attempt x = true) :
    x.state = .confirmed ∧ isExecutable a.toArtifact x.stepID = true := by
  unfold rowMatches at h
  split at h
  case h_2 => cases h
  case h_1 p s hp hs =>
    refine ⟨(of_decide_eq_true h).2.1, ?_⟩
    rw [← mem_expected_keys, GoMap.mem_keys, hp]
    rfl

/-- The rows of one step each, for all the executable steps. -/
theorem complete_of_rows {rows : List Row} (hm : ∀ x ∈ attemptRows a.toArtifact cfg.attempt rows,
      rowMatches a.toArtifact cfg.attempt x = true)
    (hn : ((attemptRows a.toArtifact cfg.attempt rows).map Row.stepID).Nodup)
    (hall : ∀ s ∈ a.plan.steps, s.kind = .executable →
      s.id ∈ (attemptRows a.toArtifact cfg.attempt rows).map Row.stepID) : Complete a.toArtifact cfg.attempt rows := by
  refine ⟨fun s hs hk => ?_, fun r hb hr => ?_⟩
  · obtain ⟨x, hx, hid⟩ := mem_map.mp (hall s hs hk)
    obtain ⟨hmem, hof⟩ := mem_filter.mp hx
    obtain ⟨hd, hat⟩ := of_decide_eq_true hof
    exact ⟨x, hmem, by rw [Row.key, hd, hat, hid], (rowMatches_step (hm x hx)).1⟩
  · -- the rows and the expected steps have the same IDs, each once
    have hperm : ((attemptRows a.toArtifact cfg.attempt rows).map Row.stepID).Perm (expectedPhases a.toArtifact).keys := by
      refine (perm_ext_iff_of_nodup hn (GoMap.nodup_keys _)).mpr fun id => ?_
      rw [mem_expected_keys]
      constructor
      · intro h
        obtain ⟨x, hx, rfl⟩ := mem_map.mp h
        exact (rowMatches_step (hm x hx)).2
      · intro h
        obtain ⟨s, hs, rfl, hk⟩ := isExecutable_iff.mp h
        exact hall s hs hk
    have hlen : (attemptRows a.toArtifact cfg.attempt rows).length = (expectedPhases a.toArtifact).size := by
      have := hperm.length_eq
      rwa [length_map, GoMap.keys, length_map] at this
    rw [checkRevision, if_neg hb, hr, if_neg (not_not_intro hlen), if_neg (not_not_intro (all_eq_true.mpr hm))]

/-- A row the executor accepts as confirmed is one the check accepts. -/
theorem rowMatches_of_binding {x : Row} (hb : bindingMatches a x = true) (hx : x.attempt = cfg.attempt)
    (hs : x.state = .confirmed) : rowMatches a.toArtifact cfg.attempt x = true := by
  unfold bindingMatches at hb
  split at hb
  case h_2 => cases hb
  case h_1 s p hstep hphase =>
    obtain ⟨hmem, hid⟩ := Plan.stepOf_some hstep
    obtain ⟨hp, hpid⟩ := Plan.phaseOf_some hphase
    obtain ⟨-, -, hk, hrest⟩ := of_decide_eq_true hb
    have hk : s.kind = .executable := by
      cases h : s.kind with
      | executable => rfl
      | topology => exact absurd h hk
    have hget := expected_get hp hpid (isExecutable_iff.mpr ⟨s, hmem, hid, hk⟩)
    have hfind := stepByID_mem hmem
    rw [hid] at hfind
    simp only [rowMatches, hget, hfind, decide_eq_true_eq]
    exact ⟨hx, hs, hrest⟩

/-- So is a row it writes. -/
theorem rowMatches_confirmedRow {confirmed : GoSet} {x : Work} (hx : x ∈ workOf a confirmed a.plan.phases) :
    rowMatches a.toArtifact cfg.attempt (confirmedRow cfg a x) = true := by
  obtain ⟨hp, hid, hs, hk, -⟩ := mem_workOf hx
  have hget := expected_get hp hid (isExecutable_iff.mpr ⟨x.2, hs, rfl, hk⟩)
  have hfind := stepByID_mem hs
  have hstep : (confirmedRow cfg a x).stepID = x.2.id := rfl
  simp only [rowMatches, hstep, hget, hfind, decide_eq_true_eq]
  exact ⟨rfl, rfl, rfl, rfl, rfl, rfl, rfl, rfl, rfl⟩

theorem complete_of_executed {d₀ d : Data σ} {confirmed : GoSet} (hu : ¬ Unconfirmed cfg a d₀)
    (hc : confirmedRows cfg a d₀.rows = .ok confirmed)
    (hd : Executed b cfg a (workOf a confirmed a.plan.phases) d₀ d) : Complete a.toArtifact cfg.attempt d.rows := by
  have hread := confirmedRows_ok hc
  -- the rows that were there are all confirmed, and the new ones follow
  have hold : attemptRows a.toArtifact cfg.attempt d₀.rows =
      d₀.rows.filter fun r => ofAttempt cfg a r ∧ r.state = .confirmed := by
    refine filter_congr fun r hr => ?_
    rw [decide_eq_decide]
    refine (and_iff_left_of_imp fun hof => ?_).symm
    cases hs : r.state with
    | confirmed => rfl
    | intended => exact (hu ⟨r, hr, hof, hs⟩).elim
  have hrows : attemptRows a.toArtifact cfg.attempt d.rows =
      attemptRows a.toArtifact cfg.attempt d₀.rows ++ (workOf a confirmed a.plan.phases).map (confirmedRow cfg a) := by
    rw [attemptRows, hd.rows, filter_append]
    congr 1
    rw [filter_eq_self]
    intro r hr
    obtain ⟨x, -, rfl⟩ := mem_map.mp hr
    simp [confirmedRow, historyRow]
  have hnew : ((workOf a confirmed a.plan.phases).map (confirmedRow cfg a)).map Row.stepID =
      (a.plan.steps.map Step.id).filter fun id => ¬ GoSet.has confirmed id ∧ executes a id := by
    rw [← workOf_ids, map_map]
    rfl
  apply complete_of_rows
  · intro x hx
    rw [hrows] at hx
    rcases mem_append.mp hx with hx | hx
    · rw [hold] at hx
      obtain ⟨-, hof⟩ := mem_filter.mp hx
      obtain ⟨hof, hs⟩ := of_decide_eq_true hof
      exact rowMatches_of_binding (hread.bound x hx) hof.2 hs
    · obtain ⟨y, hy, rfl⟩ := mem_map.mp hx
      exact rowMatches_confirmedRow hy
  · rw [hrows, map_append, nodup_append, hold, hnew]
    refine ⟨hread.nodup, a.valid.2.2.2.1.filter _, ?_⟩
    rintro id hid id' hid' rfl
    have := (mem_filter.mp hid').2
    simp [(hread.mem id).mpr hid] at this
  · intro s hs hk
    rw [hrows, map_append, mem_append, hold, hnew, ← hread.mem]
    by_cases h : GoSet.has confirmed s.id = true
    · exact .inl h
    · refine .inr (mem_filter.mpr ⟨mem_map_of_mem hs, ?_⟩)
      simp [h, executes, a.valid.stepOf_mem hs, hk]

/-- If a run returns no error, and a caller's transaction commits, then every executable
step is confirmed and a revision of the attempt is accepted, unless the run found the
target state at once: then this is so only if it was so before. -/
theorem success_complete (b : Backend σ) (w : World σ) (q : Request σ) (ht : w.core.tx = none)
    (hok : (outcome b w q).1 = .ok ()) : Complete q.artifact.toArtifact q.config.attempt (after b w q).core.db.rows ↔
      atTarget q.artifact (b.inspect (q.data w).schema) = false ∨
        Complete q.artifact.toArtifact q.config.attempt w.core.db.rows := by
  rcases after_success ht hok with ⟨htarget, hd⟩ | ⟨htarget, hu, confirmed, hc, hd⟩
  · have hrows : (after b w q).core.db.rows = w.core.db.rows := by
      rw [hd]
      rfl
    rw [hrows, htarget]
    simp
  · exact iff_of_true (complete_of_executed hu hc hd) (.inl htarget)

end Run

/-- A run through the phases, from a database at the plan's source. -/
theorem success_complete_concurrent :
    (outcome (sampleBackend 1) (start 0 []) (sampleRequest concurrentArtifact false 0 .done)).1 = .ok () ∧
      Complete concurrentArtifact.toArtifact 1
        (after (sampleBackend 1) (start 0 []) (sampleRequest concurrentArtifact false 0 .done)).core.db.rows := by
  have hok : (outcome (sampleBackend 1) (start 0 []) (sampleRequest concurrentArtifact false 0 .done)).1 = .ok () := by
    decide +kernel
  refine ⟨hok, (success_complete (sampleBackend 1) (start 0 []) _ rfl hok).mpr (.inl ?_)⟩
  decide +kernel

def dataPlan : Plan := { Executor.samplePlan [concurrentStep] with toFingerprint := sampleFingerprint 0x61 }

/-- A step that changes data only: the plan's source and target have one fingerprint. -/
def dataArtifact : VerifiedArtifact :=
  { concurrentArtifact with plan := dataPlan, valid := by decide +kernel }

/-- The revision that the caller of a successful run records. -/
def dataRevision : Revision where
  version := str "1"
  description := str "data"
  kind := .migration
  fileName := str "1_data.sql"
  fileDigest := []
  manifestDigest := []
  manifestGeneration := []
  artifactDigest := str "digest"
  planDigest := str "plan"
  checksDigest := []
  bundleDigest := str "bundle"
  state := .applied
  attempt := 1
  operator := str "op"
  fromVersion := []
  toVersion := str "1"
  reversalOf := []

/-- The run takes the source for the target: it returns no error and sends nothing, and
the revision of that run is refused from then on. -/
theorem data_step_skipped : let q := sampleRequest dataArtifact false 0 .done
    (outcome (sampleBackend 1) (start 0 []) q).1 = .ok () ∧ (after (sampleBackend 1) (start 0 []) q).core.sent = [] ∧
      (after (sampleBackend 1) (start 0 []) q).core.db.rows = [] ∧
      checkRevision dataArtifact.toArtifact [] dataRevision = .error .incomplete := by decide +kernel

/-! ### Every row accounted for -/

section Accounts

variable (trust : Trust) (readFile : GoString → Option GoString) (snap : Snapshot) (revs : List Revision) (rows : List Row)

/-- The artifact of a revision in a snapshot. -/
def revisionArtifact (r : Revision) : Except HistoryRefusal Artifact := do
  let arts ← snap.manifest.entries.mapM (entryArtifact trust snap)
  artifactOf trust readFile snap.manifest (GoMap.ofList arts) r

/-- Every row is one of a step of a revision, and the executable steps of a revision
have one row each. -/
structure Accounts : Prop where
  row : ∀ x ∈ rows, ∃ r ∈ revs, r.state ≠ .baseline ∧ ∃ a, revisionArtifact trust readFile snap r = .ok a ∧
    x ∈ attemptRows a r.attempt rows ∧ rowMatches a r.attempt x = true
  step : ∀ r ∈ revs, r.state ≠ .baseline → ∀ a : VerifiedArtifact,
    revisionArtifact trust readFile snap r = .ok a.toArtifact → ∀ s ∈ a.plan.steps, s.kind = .executable →
    ((attemptRows a.toArtifact r.attempt rows).map Row.stepID).count s.id = 1

variable {trust readFile snap revs rows}

theorem reconcileHistory_ok (h : reconcileHistory trust readFile snap revs rows = .ok ()) : (rows.map Row.key).Nodup ∧
      ∀ r ∈ revs, ∃ a, revisionArtifact trust readFile snap r = .ok a ∧ checkRevision a rows r = .ok () := by
  simp only [reconcileHistory, bind_ok, guard_ok, not_not] at h
  obtain ⟨arts, harts, hkeys, known, hknown, -⟩ := h
  refine ⟨hkeys, fun r hr => ?_⟩
  obtain ⟨_, -, hy⟩ := forall₂_mem (mapM_ok hknown) r hr
  simp only [bind_ok] at hy
  obtain ⟨a, ha, _, hc, -⟩ := hy
  exact ⟨a, by rw [revisionArtifact, harts]; exact ha, hc⟩

theorem checkRevision_ok {a : Artifact} {r : Revision} (h : checkRevision a rows r = .ok ()) :
    r.state = .baseline ∧ (∀ x ∈ rows, x.artifactDigest ≠ a.digest) ∨
      r.state ≠ .baseline ∧ (attemptRows a r.attempt rows).length = (expectedPhases a).size ∧
        ∀ x ∈ attemptRows a r.attempt rows, rowMatches a r.attempt x = true := by
  rw [checkRevision] at h
  split_ifs at h with hb hany hlen hall
  · exact .inl ⟨hb, by simpa using hany⟩
  · exact .inr ⟨hb, not_not.mp hlen, all_eq_true.mp hall⟩

/-- The rows of an attempt have the steps of the plan, each once. -/
theorem count_attemptRows {a : VerifiedArtifact} {attempt : Nat} (hkeys : (rows.map Row.key).Nodup)
    (hlen : (attemptRows a.toArtifact attempt rows).length = (expectedPhases a.toArtifact).size)
    (hm : ∀ x ∈ attemptRows a.toArtifact attempt rows, rowMatches a.toArtifact attempt x = true) {s : Step}
    (hs : s ∈ a.plan.steps) (hk : s.kind = .executable) :
    ((attemptRows a.toArtifact attempt rows).map Row.stepID).count s.id = 1 := by
  have hn : ((attemptRows a.toArtifact attempt rows).map Row.stepID).Nodup := by
    refine (nodup_map_iff_inj_on (hkeys.of_map.filter _)).mpr fun x hx y hy hxy => ?_
    obtain ⟨hx, hxa⟩ := mem_filter.mp hx
    obtain ⟨hy, hya⟩ := mem_filter.mp hy
    refine inj_on_of_nodup_map hkeys hx hy ?_
    simp_all [Row.key]
  -- as many rows as steps, so that no step is left out
  have hsub : (attemptRows a.toArtifact attempt rows).map Row.stepID ⊆ (expectedPhases a.toArtifact).keys := by
    intro id hid
    obtain ⟨x, hx, rfl⟩ := mem_map.mp hid
    exact mem_expected_keys.mpr (rowMatches_step (hm x hx)).2
  have hperm := (subperm_of_subset hn hsub).perm_of_length_le (by rw [length_map, hlen, GoMap.keys, length_map]; rfl)
  exact count_eq_one_of_mem hn (hperm.mem_iff.mpr (mem_expected_keys.mpr (isExecutable_iff.mpr ⟨s, hs, rfl, hk⟩)))

variable (trust readFile snap revs rows) in
/-- The rows of an accepted history are accounted for exactly if some revision of its artifact
has the attempt of each row: the last loop asks for a revision of the artifact only. -/
theorem history_accounts_iff :
    (reconcileHistory trust readFile snap revs rows = .ok () → Accounts trust readFile snap revs rows) ↔
      (reconcileHistory trust readFile snap revs rows = .ok () → ∀ x ∈ rows, ∃ r ∈ revs, r.attempt = x.attempt ∧
        ∃ a, revisionArtifact trust readFile snap r = .ok a ∧ a.digest = x.artifactDigest) := by
  refine forall_congr' fun hok => ⟨fun h x hx => ?_, fun h => ⟨fun x hx => ?_, fun r hr hb a ha s hs hk => ?_⟩⟩
  · obtain ⟨r, hr, -, a, ha, hmem, -⟩ := h.row x hx
    have hof := of_decide_eq_true (mem_filter.mp hmem).2
    exact ⟨r, hr, hof.2.symm, a, ha, hof.1.symm⟩
  · obtain ⟨r, hr, hattempt, a, ha, hd⟩ := h x hx
    have hmem : x ∈ attemptRows a r.attempt rows := mem_filter.mpr ⟨hx, decide_eq_true ⟨hd.symm, hattempt.symm⟩⟩
    obtain ⟨a', ha', hc⟩ := (reconcileHistory_ok hok).2 r hr
    cases ha.symm.trans ha'
    rcases checkRevision_ok hc with ⟨-, hnone⟩ | ⟨hb, -, hm⟩
    · exact absurd hd.symm (hnone x hx)
    · exact ⟨r, hr, hb, a, ha, hmem, hm x hmem⟩
  · obtain ⟨hkeys, hrev⟩ := reconcileHistory_ok hok
    obtain ⟨a', ha', hc⟩ := hrev r hr
    cases ha.symm.trans ha'
    rcases checkRevision_ok hc with ⟨hb', -⟩ | ⟨-, hlen, hm⟩
    · exact absurd hb' hb
    · exact count_attemptRows hkeys hlen hm hs hk

end Accounts

/-- A reversal of one step with its confirmed row, and the row that a second attempt left. -/
theorem second_attempt_unrecorded : ∃ (trust : Trust) (readFile : GoString → Option GoString) (snap : Snapshot)
    (r : Revision) (rows : List Row), reconcileHistory trust readFile snap [r] rows = .ok () ∧
      (∃ x ∈ rows, x.state = .intended) ∧ ¬ Accounts trust readFile snap [r] rows := by
  let trust : Trust := ⟨fun _ => some dataArtifact.toArtifact, fun _ => some dataArtifact.toArtifact, by
    rintro _ _ ⟨⟩
    decide⟩
  let cfg := (sampleRequest dataArtifact false 0 .done).config
  let first := (workOf dataArtifact GoMap.empty dataPlan.phases).map (confirmedRow cfg dataArtifact)
  let rows := first ++ first.map fun x => { x with attempt := 2, state := .intended }
  refine ⟨trust, fun _ => some [], ⟨⟨[], [], [], []⟩, GoMap.empty⟩, { dataRevision with kind := .reversal }, rows, ?_, ?_, ?_⟩
  · decide +kernel
  · decide +kernel
  · intro h
    obtain ⟨x, hx, hattempt⟩ : ∃ x ∈ rows, x.attempt = 2 := by decide +kernel
    obtain ⟨r, hr, -, a, -, hmem, -⟩ := h.row x hx
    cases mem_singleton.mp hr
    cases hattempt.symm.trans (of_decide_eq_true (mem_filter.mp hmem).2).2

end AutoSql.Apply
