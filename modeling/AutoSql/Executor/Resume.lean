/-
AutoSql/Executor/Resume.lean

Resuming an execution that was interrupted.

Over any number of interrupted runs of one artifact and attempt the database goes
through the plan from front to back: it has executed a beginning of the plan, and at
most one further step was started (`reached_afterAll`).  If no row is left intended, a
run without faults does exactly what remains.  It must get past the check of the live
state first: between two phases that each change the schema the state is neither the
plan's source nor its target, and the run is refused as stale.
-/
import AutoSql.Executor.AtMostOnce

namespace AutoSql.Executor

open Artifacts Proc List

variable {σ : Type} {b : Backend σ} {cfg cfg' : Config} {a : VerifiedArtifact}

/-- The work of a plan of which nothing is done. -/
def allWork (a : VerifiedArtifact) : List Work := workOf a GoMap.empty a.plan.phases

/-- The SQL of steps, one after another. -/
def execSteps (b : Backend σ) (steps : List Step) (schema : σ) : Option σ :=
  steps.foldlM (fun s x => b.exec x.sql s) schema

theorem execAll_eq (work : List Work) (schema : σ) : execAll b work schema = execSteps b (work.map Prod.snd) schema := by
  rw [execAll, execSteps, foldlM_map]

def executable (a : VerifiedArtifact) : List Step := a.plan.steps.filter fun s => s.kind = .executable

/-- The executable steps without a confirmed row. -/
def remaining (a : VerifiedArtifact) (attempt : Nat) (rows : List Row) : List Step :=
  (executable a).filter fun s => ¬ ∃ r ∈ rows, r.key = ⟨a.digest, s.id, attempt⟩ ∧ r.state = .confirmed

/-! ### The order of the work -/

theorem pending_filter (confirmed : GoSet) (ids : List GoString) :
    pending a confirmed ids = (pending a GoMap.empty ids).filter fun s => ¬ GoSet.has confirmed s.id := by
  unfold pending
  induction ids with
  | nil => rfl
  | cons id ids ih =>
    cases hs : a.plan.stepOf id with
    | none => by_cases hc : GoSet.has confirmed id = true <;> simpa [hc, hs] using ih
    | some s =>
      have hid := (Plan.stepOf_some hs).2
      by_cases hk : s.kind = .executable <;> by_cases hc : GoSet.has confirmed id = true <;>
        simpa [hc, hs, hk, hid, Option.filter] using ih

theorem workOf_filter (confirmed : GoSet) (ps : List Phase) :
    workOf a confirmed ps = (workOf a GoMap.empty ps).filter fun x => ¬ GoSet.has confirmed x.2.id := by
  rw [workOf, workOf, filter_flatMap]
  congr 1
  funext p
  rw [phaseWork, phaseWork, pending_filter, filter_map]
  rfl

theorem allWork_steps : (allWork a).map Prod.snd = executable a := by
  have hstep : ∀ s ∈ a.plan.steps, (a.plan.stepOf s.id).filter (fun s => s.kind = .executable) =
      Option.guard (fun s => s.kind = .executable) s := by
    intro s hs
    rw [a.valid.stepOf_mem hs]
    rfl
  calc (allWork a).map Prod.snd
      = a.plan.phases.flatMap fun p => p.stepIDs.filterMap fun id =>
          (a.plan.stepOf id).filter fun s => s.kind = .executable := by
        simp [allWork, workOf, map_flatMap, phaseWork, pending, Function.comp_def]
    _ = (a.plan.steps.map Step.id).filterMap fun id =>
          (a.plan.stepOf id).filter fun s => s.kind = .executable := by
        rw [← a.valid.stepIDs, filterMap_flatMap]
    _ = executable a := by
        rw [filterMap_map, executable, ← filterMap_eq_filter]
        exact filterMap_congr hstep

theorem allWork_nodup : ((allWork a).map fun x => x.2.id).Nodup := by
  rw [allWork, workOf_ids]
  exact a.valid.2.2.2.1.filter _

variable {d d₀ : Data σ} {done : List Work}

/-- What is left if the first part is confirmed. -/
theorem workOf_rest {confirmed : GoSet} {rest : List Work} (hall : allWork a = done ++ rest)
    (hc : ∀ id, GoSet.has confirmed id = true ↔ id ∈ done.map fun x => x.2.id) :
    workOf a confirmed a.plan.phases = rest := by
  have hn := allWork_nodup (a := a)
  rw [hall, map_append, nodup_append] at hn
  rw [workOf_filter, show workOf a GoMap.empty a.plan.phases = done ++ rest from hall, filter_append]
  have hdone : done.filter (fun x => ¬ GoSet.has confirmed x.2.id) = [] := by
    rw [filter_eq_nil_iff]
    intro x hx
    simp [(hc x.2.id).mpr (mem_map_of_mem hx)]
  have hrest : rest.filter (fun x => ¬ GoSet.has confirmed x.2.id) = rest := by
    rw [filter_eq_self]
    intro x hx
    rw [decide_eq_true_iff, hc]
    exact fun h => hn.2.2 _ h _ (mem_map_of_mem hx) rfl
  rw [hdone, hrest, nil_append]

/-! ### Through interrupted runs -/

/-- Configurations of one attempt write the same rows. -/
theorem rows_congr (h : cfg.attempt = cfg'.attempt) : confirmedRow cfg a = confirmedRow cfg' a ∧
    intendedRow cfg a = intendedRow cfg' a ∧ workKey cfg a = workKey cfg' a := by
  refine ⟨?_, ?_, ?_⟩ <;> funext x
  · rw [confirmedRow, confirmedRow, historyRow, historyRow, h]
  · rw [intendedRow, intendedRow, historyRow, historyRow, h]
  · rw [workKey, workKey, stepKey, stepKey, h]

theorem Executed.congr (h : cfg.attempt = cfg'.attempt)
    (hd : Executed b cfg a done d₀ d) : Executed b cfg' a done d₀ d :=
  ⟨(rows_congr h).1 ▸ hd.rows, (rows_congr h).2.2 ▸ hd.effects, hd.schema⟩

theorem Reached.congr (h : cfg.attempt = cfg'.attempt) {work : List Work}
    (hd : Reached b cfg a work d₀ d) : Reached b cfg' a work d₀ d := by
  rcases hd with ⟨done, rest, hw, hd⟩ | ⟨done, x, rest, hw, hd⟩
  · exact .inl ⟨done, rest, hw, hd.congr h⟩
  · exact .inr ⟨done, x, rest, hw, (rows_congr h).1 ▸ (rows_congr h).2.1 ▸ hd.rows, (rows_congr h).2.2 ▸ hd.effects⟩

/-- Going on from where the work had come. -/
theorem Reached.append {rest : List Work} {d₁ d₂ : Data σ} (h₁ : Executed b cfg a done d₀ d₁)
    (h₂ : Reached b cfg a rest d₁ d₂) : Reached b cfg a (done ++ rest) d₀ d₂ := by
  rcases h₂ with ⟨l, r, hw, h₂⟩ | ⟨l, x, r, hw, h₂⟩
  · exact .inl ⟨done ++ l, r, by rw [hw, append_assoc], h₁.append h₂⟩
  · obtain ⟨m, hm, heffects, hschema⟩ := h₂.effects
    refine .inr ⟨done ++ l, x, r, by rw [hw, append_assoc], ?_, done ++ m, ?_, ?_, ?_⟩
    · rw [h₂.rows, h₁.rows, map_append]
      simp only [append_assoc]
    · rcases hm with rfl | rfl <;> simp
    · rw [heffects, h₁.effects, map_append, append_assoc]
    · rw [execAll_append, h₁.schema]
      exact hschema

theorem Begun.unconfirmed {x : Work} (hd : Begun b cfg a done x d₀ d) : Unconfirmed cfg a d := by
  refine ⟨intendedRow cfg a x, ?_, ⟨rfl, rfl⟩, rfl⟩
  rw [hd.rows]
  simp

section Attempt

variable {d₀ d d' : Data σ} (hfresh : ∀ r ∈ d₀.rows, ¬ ofAttempt cfg a r)
include hfresh

/-- The rows of the attempt are those of the work that is done. -/
theorem Executed.attemptRows (hd : Executed b cfg a done d₀ d) :
    (d.rows.filter fun r => ofAttempt cfg a r ∧ r.state = .confirmed) = done.map (confirmedRow cfg a) := by
  have hold : d₀.rows.filter (fun r => ofAttempt cfg a r ∧ r.state = .confirmed) = [] := by
    rw [filter_eq_nil_iff]
    intro r hr h
    exact hfresh r hr (of_decide_eq_true h).1
  have hnew : (done.map (confirmedRow cfg a)).filter (fun r => ofAttempt cfg a r ∧ r.state = .confirmed) =
      done.map (confirmedRow cfg a) := by
    rw [filter_eq_self]
    intro r hr
    obtain ⟨x, -, rfl⟩ := mem_map.mp hr
    simp [confirmedRow, historyRow, ofAttempt]
  rw [hd.rows, filter_append, hold, hnew, nil_append]

theorem Executed.has_iff {confirmed : GoSet} (hd : Executed b cfg a done d₀ d)
    (hc : confirmedRows cfg a d.rows = .ok confirmed) (id : GoString) :
    GoSet.has confirmed id = true ↔ id ∈ done.map fun x => x.2.id := by
  rw [(confirmedRows_ok hc).mem, hd.attemptRows hfresh, map_map]
  rfl

/-- One more run of the attempt. -/
theorem Reached.progress (h : Reached b cfg a (allWork a) d₀ d) (hp : Progress b cfg a d d') :
    Reached b cfg a (allWork a) d₀ d' := by
  rcases hp with rfl | ⟨hu, confirmed, hc, hr⟩
  · exact h
  · rcases h with ⟨done, rest, hall, hd⟩ | ⟨done, x, rest, hall, hd⟩
    · rw [workOf_rest hall (hd.has_iff hfresh hc)] at hr
      rw [hall]
      exact hr.append hd
    · exact (hu hd.unconfirmed).elim

end Attempt

/-- Runs of one artifact and attempt between which nobody else changes the schema. -/
def SameAttempt (a : VerifiedArtifact) (attempt : Nat) (q : Request σ) : Prop :=
  q.artifact = a ∧ q.config.attempt = attempt ∧ q.drift = id

theorem data_of_same {attempt : Nat} {q : Request σ} (hq : SameAttempt a attempt q) (w : World σ) : q.data w = w.core.db := by
  unfold Request.data World.drift
  rw [hq.2.2]
  rfl

theorem reached_afterAll (hfresh : ∀ r ∈ d₀.rows, ¬ ofAttempt cfg a r) {w : World σ}
    (ht : w.core.tx = none) (h : Reached b cfg a (allWork a) d₀ w.core.db) {qs : List (Request σ)}
    (hqs : ∀ q ∈ qs, SameAttempt a cfg.attempt q) :
    Reached b cfg a (allWork a) d₀ (afterAll b w qs).core.db ∧ (afterAll b w qs).core.tx = none := by
  induction qs generalizing w with
  | nil => exact ⟨h, ht⟩
  | cons q qs ih =>
    have hq := hqs q mem_cons_self
    refine ih rfl ?_ fun q' hq' => hqs q' (mem_cons_of_mem _ hq')
    have hp := (after_stopped (b := b) (q := q) ht).1
    rw [data_of_same hq, hq.1] at hp
    exact ((h.congr hq.2.1.symm).progress (fun r hr hof => hfresh r hr ⟨hof.1, hof.2.trans hq.2.1⟩) hp).congr hq.2.1

/-! ### The run that resumes -/

section Resume

variable {d₀ d : Data σ} {done rest : List Work} (hfresh : ∀ r ∈ d₀.rows, ¬ ofAttempt cfg a r)
  (hall : allWork a = done ++ rest) (hd : Executed b cfg a done d₀ d)
include hfresh hall hd

/-- The rows that interrupted runs leave can be read. -/
theorem Executed.readable : ∃ confirmed, confirmedRows cfg a d.rows = .ok confirmed := by
  unfold confirmedRows
  rw [hd.attemptRows hfresh]
  refine foldlM_addConfirmed_ok ?_ (GoSet.fresh_empty ?_)
  · intro r hr
    obtain ⟨x, hx, rfl⟩ := mem_map.mp hr
    exact bindingMatches_confirmedRow (hall ▸ mem_append_left _ hx)
  · have hn := allWork_nodup (a := a)
    rw [hall, map_append, nodup_append] at hn
    rw [map_map]
    exact hn.1

/-- The steps without a confirmed row are those of the rest. -/
theorem Executed.remaining_eq : remaining a cfg.attempt d.rows = rest.map Prod.snd := by
  have hn := allWork_nodup (a := a)
  rw [hall, map_append, nodup_append] at hn
  have hrow : ∀ s : Step, (∃ r ∈ d.rows, r.key = ⟨a.digest, s.id, cfg.attempt⟩ ∧ r.state = .confirmed) ↔
      s.id ∈ done.map fun x => x.2.id := by
    intro s
    constructor
    · rintro ⟨r, hr, hk, -⟩
      rw [hd.rows, mem_append] at hr
      rcases hr with hr | hr
      · refine (hfresh r hr ⟨?_, ?_⟩).elim
        · exact congrArg Key.artifactDigest hk
        · exact congrArg Key.attempt hk
      · obtain ⟨x, hx, rfl⟩ := mem_map.mp hr
        have hid : x.2.id = s.id := congrArg Key.stepID hk
        exact mem_map.mpr ⟨x, hx, hid⟩
    · intro h
      obtain ⟨x, hx, hid⟩ := mem_map.mp h
      refine ⟨confirmedRow cfg a x, ?_, ?_, rfl⟩
      · rw [hd.rows]
        exact mem_append_right _ (mem_map_of_mem hx)
      · rw [confirmedRow_key, workKey, stepKey, hid]
  simp only [remaining, hrow]
  rw [← allWork_steps, hall, map_append, filter_append]
  have hdone : (done.map Prod.snd).filter (fun s => ¬ s.id ∈ done.map fun x => x.2.id) = [] := by
    rw [filter_eq_nil_iff]
    intro s hs
    obtain ⟨x, hx, rfl⟩ := mem_map.mp hs
    simpa using ⟨x.1, x.2, hx, rfl⟩
  have hrest : (rest.map Prod.snd).filter (fun s => ¬ s.id ∈ done.map fun x => x.2.id) = rest.map Prod.snd := by
    rw [filter_eq_self]
    intro s hs
    obtain ⟨x, hx, rfl⟩ := mem_map.mp hs
    rw [decide_eq_true_iff]
    exact fun h => hn.2.2 _ h _ (mem_map.mpr ⟨x, hx, rfl⟩) rfl
  rw [hdone, hrest, nil_append]

/-- Nothing stands in the way of the rest. -/
theorem Executed.smooth {checks : List Assertion} (hpk : (d₀.rows.map Row.key).Nodup) {target : σ}
    (hplan : execAll b (allWork a) d₀.schema = some target) (hchecks : ∀ x ∈ checks, b.observe x d.schema ≤ x.maxAllowed) :
    Smooth (· = .done) b cfg a checks rest d where
  faultless := by
    rintro ⟨r, hr, hne⟩
    exact hne hr
  executes := by
    rw [hall, execAll_append, hd.schema, Option.bind_some] at hplan
    rw [hplan]
    rfl
  keys := by
    have hkeys : d.rows.map Row.key ++ rest.map (workKey cfg a) =
        d₀.rows.map Row.key ++ (allWork a).map (workKey cfg a) := by
      rw [hd.rows, hall, map_append, map_append, map_map, append_assoc]
      rfl
    rw [hkeys, nodup_append]
    refine ⟨hpk, ?_, ?_⟩
    · refine List.Nodup.of_map Key.stepID ?_
      rw [map_map]
      exact allWork_nodup
    · rintro k hk k' hk' rfl
      obtain ⟨r, hr, rfl⟩ := mem_map.mp hk
      obtain ⟨x, -, hx⟩ := mem_map.mp hk'
      exact hfresh r hr ⟨(congrArg Key.artifactDigest hx).symm, (congrArg Key.attempt hx).symm⟩
  checks := hchecks

end Resume

/-- After any number of interrupted runs that left no row intended, a run without faults
executes exactly the remaining steps, in their order, and leaves the schema to which the
whole plan leads.  The live state must be the plan's source and not its target; if it is
the target, nothing must remain. -/
theorem execution_resumes (b : Backend σ) (a : VerifiedArtifact) (schema target : σ) (rows : List Row)
    (qs : List (Request σ)) (q : Request σ) (hpk : (rows.map Row.key).Nodup)
    (hfresh : ∀ r ∈ rows, ¬ ofAttempt q.config a r)
    (hplan : execSteps b (executable a) schema = some target) (htarget : atTarget a (b.inspect target) = true)
    (hruns : ∀ r ∈ qs ++ [q], SameAttempt a q.config.attempt r)
    (hrows : ∀ r ∈ (afterAll b (start schema rows) qs).core.db.rows, ofAttempt q.config a r → r.state = .confirmed)
    (hlive : (atSource a (b.inspect (afterAll b (start schema rows) qs).core.db.schema) = true ∧
        atTarget a (b.inspect (afterAll b (start schema rows) qs).core.db.schema) = false) ∨
      (atTarget a (b.inspect (afterAll b (start schema rows) qs).core.db.schema) = true ∧
        remaining a q.config.attempt (afterAll b (start schema rows) qs).core.db.rows = []))
    (hdone : ∀ n, q.replies n = .done) (hadmitted : Admitted q.config a)
    (hchecks : ∀ x ∈ q.checks, b.observe x (afterAll b (start schema rows) qs).core.db.schema ≤ x.maxAllowed) :
    (outcome b (afterAll b (start schema rows) qs) q).1 = .ok () ∧
      (after b (afterAll b (start schema rows) qs) q).core.db.effects =
        (afterAll b (start schema rows) qs).core.db.effects ++
          (remaining a q.config.attempt (afterAll b (start schema rows) qs).core.db.rows).map (stepKey q.config a) ∧
      (after b (afterAll b (start schema rows) qs) q).core.db.schema = target ∧
      atTarget a (b.inspect (after b (afterAll b (start schema rows) qs) q).core.db.schema) = true := by
  have hq := hruns q (by simp)
  have hinit : Reached b q.config a (allWork a) ⟨schema, rows, []⟩ (start schema rows).core.db := reached_refl
  obtain ⟨hr, ht⟩ := reached_afterAll hfresh rfl hinit
    fun r hr => hruns r (mem_append_left _ hr)
  generalize afterAll b (start schema rows) qs = w at *
  rw [← allWork_steps, ← execAll_eq] at hplan
  have hu : ¬ Unconfirmed q.config a w.core.db := by
    rintro ⟨r, hr, hof, hs⟩
    exact nomatch hs.symm.trans (hrows r hr hof)
  -- no row is intended, so some first part of the plan is executed
  obtain ⟨done, rest, hall, hd⟩ : ∃ done rest, allWork a = done ++ rest ∧
      Executed b q.config a done ⟨schema, rows, []⟩ w.core.db := by
    rcases hr with h | ⟨done, x, rest, -, hd⟩
    · exact h
    · exact (hu hd.unconfirmed).elim
  obtain ⟨confirmed, hc⟩ := hd.readable hfresh hall
  have hwork : workOf a confirmed a.plan.phases = rest := workOf_rest hall (hd.has_iff hfresh hc)
  have hrem : remaining a q.config.attempt w.core.db.rows = rest.map Prod.snd := hd.remaining_eq hfresh hall
  have hdata := data_of_same hq w
  have hsmooth := hd.smooth hfresh hall hpk hplan hchecks
  have hwelcome : Welcome (· = .done) b q.config q.artifact q.checks (q.data w) := by
    rw [hdata, hq.1]
    refine ⟨hsmooth.faultless, hadmitted, fun hn => ?_⟩
    rcases hlive with ⟨hs, -⟩ | ⟨h, -⟩
    · exact ⟨hs, hu, confirmed, hc, hwork.symm ▸ hsmooth⟩
    · rw [h] at hn
      cases hn
  have hok : (outcome b w q).1 = .ok () := by
    by_contra hn
    exact ((session_exact (A := (· = .done)) q.checks (q.data w)).of_not_ok hdone ⟨rfl, ht, rfl⟩ fun _ h => hn h).1 hwelcome
  have hsuccess := after_success ht hok
  rw [hdata, hq.1] at hsuccess
  -- whether it ran or had nothing to do, the whole plan is executed
  have hfinal : Executed b q.config a rest w.core.db (after b w q).core.db := by
    rcases hsuccess with ⟨hat, heq⟩ | ⟨-, -, m, hm, he⟩
    · have hnil : rest = [] := by
        rcases hlive with ⟨-, h⟩ | ⟨-, h⟩
        · rw [hat] at h
          cases h
        · rw [hrem] at h
          exact map_eq_nil_iff.mp h
      rw [heq, hnil]
      exact Executed.nil _
    · rw [hc, Except.ok.injEq] at hm
      rwa [← hm, hwork] at he
  have hschema : (after b w q).core.db.schema = target := by
    have := (hd.append hfinal).schema
    rw [← hall] at this
    exact Option.some.inj (this.symm.trans hplan)
  refine ⟨hok, ?_, hschema, by rw [hschema]; exact htarget⟩
  rw [hfinal.effects, hrem, map_map]
  rfl

/-! ### Two phases -/

def secondStep : Step := ⟨str "step:2", str "alter table t add column c text", .executable, .required⟩

theorem twoPhases_valid : (samplePlan [concurrentStep, secondStep]).Valid := by decide +kernel

def twoPhases : VerifiedArtifact := sampleArtifact [concurrentStep, secondStep] twoPhases_valid

/-- The first phase is over, the second one has not begun. -/
def interrupted : Request Nat := sampleRequest twoPhases false 9 (.stopped false)

def resumed : Request Nat := sampleRequest twoPhases false 0 .done

/-- The first step changes data only: the fingerprint is the source's until the second. -/
def lateBackend : Backend Nat :=
  { sampleBackend 0 with
    inspect := fun n => ⟨sampleFingerprint (if n < 2 then 0x61 else 0x62), str "rev", str "prod", str "db"⟩ }

theorem execution_resumes_second : (afterAll lateBackend (start 0 []) [interrupted]).core.db.effects = [concurrentKey] ∧
      (after lateBackend (afterAll lateBackend (start 0 []) [interrupted]) resumed).core.db.effects =
        [concurrentKey, ⟨str "digest", str "step:2", 1⟩] := by
  have first : (afterAll lateBackend (start 0 []) [interrupted]).core.db.effects = [concurrentKey] ∧
      (∀ r ∈ (afterAll lateBackend (start 0 []) [interrupted]).core.db.rows, r.state = .confirmed) ∧
      (afterAll lateBackend (start 0 []) [interrupted]).core.db.schema = 1 ∧
      remaining twoPhases 1 (afterAll lateBackend (start 0 []) [interrupted]).core.db.rows = [secondStep] := by
    decide +kernel
  obtain ⟨heffects, hrows, hschema, hrem⟩ := first
  have live : atSource twoPhases (lateBackend.inspect 1) = true ∧ atTarget twoPhases (lateBackend.inspect 1) = false ∧
      atTarget twoPhases (lateBackend.inspect 2) = true := by decide +kernel
  have h := execution_resumes lateBackend twoPhases 0 2 [] [interrupted] resumed nodup_nil (by simp)
    (by decide +kernel) live.2.2
    (by
      intro r hr
      simp only [cons_append, nil_append, mem_cons, not_mem_nil, or_false] at hr
      rcases hr with rfl | rfl <;> exact ⟨rfl, rfl, rfl⟩)
    (fun r hr _ => hrows r hr) (.inl (by rw [hschema]; exact ⟨live.1, live.2.1⟩))
    (fun n => by simp [resumed, sampleRequest])
    ⟨by decide, by decide, rfl, fun _ => show ¬ (1 : Int) < 0 by decide, fun _ => show (1 : Int) < 10 by decide⟩ nofun
  refine ⟨heffects, ?_⟩
  rw [h.2.1, heffects, show resumed.config.attempt = 1 from rfl, hrem]
  rfl

/-- Where the first phase changes the schema, the run that should resume is refused: the
live state is neither the plan's source nor its target. -/
theorem resume_stale : let w := afterAll (sampleBackend 2) (start 0 []) [interrupted]
    w.core.db.effects = [concurrentKey] ∧ (w.core.db.rows.map fun r => (r.key, r.state)) = [(concurrentKey, .confirmed)] ∧
      (outcome (sampleBackend 2) w resumed).1 = .error [.stale] := by decide +kernel

end AutoSql.Executor
