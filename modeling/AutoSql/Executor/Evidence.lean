/-
AutoSql/Executor/Evidence.lean

What the executor leaves for the observer of `Executor/Completion.lean`.

A run that is refused before the first step appends events of a few types, about no
step, and changes nothing in the database.  A run that executes a plan from the source
state, and commits its transactions itself, appends exactly `runKinds`.  Both together
are what the observer accepts.

A run that finds the database at the target, and a run inside a caller's transaction,
return no error either, and the observer does not accept what they leave.

Main result: `observer_agrees`.
-/
import AutoSql.Executor.Completion

namespace AutoSql.Executor

open Artifacts Proc List

variable {σ α : Type} {b : Backend σ} {cfg : Config} {a : VerifiedArtifact}

/-! ### Runs that are refused -/

/-- The errors of a run that was contended, expired, not authorised or stale. -/
def refusals : List Failure := [[.busy], [.expired], [.stale]]

variable {checks : List Assertion} {guidance step type : GoString} {p : Phase} {confirmed : GoSet} {e : Failure} {checksPending : Bool}
  {s : Step} {P : World σ → Prop} {ps : List Phase}

theorem Later.not_refusal (h : Later e) : ¬ e ∈ refusals := by
  intro he
  have hall : ∀ e ∈ refusals, ¬ Later e := by decide
  exact hall e he h

/-- A run that was refused has appended events about no step and has changed nothing else. -/
theorem plainly_refused : WithinOn (· ∈ refusals) (Plainly cfg a) (session b cfg a checks) := by
  have hexecute : Raises (fun e => ¬ e ∈ refusals) (execute b cfg a checks) := fun y e he => (reports_execute.2 y e he).not_refusal
  have happly : WithinOn (· ∈ refusals) (Plainly cfg a) (applyAuthorized b cfg a checks) := by
    refine WithinOn.bind plainly_prepare fun _ => WithinOn.bind acts_readState fun s => WithinOn.onlyIf ?_
    exact WithinOn.bind (Acts.onlyIf (plainly_refuse (by decide))) fun _ => WithinOn.of_raises hexecute
  refine WithinOn.bind (F := anyError) (Acts.onlyIf (Acts.keep fun w => .of_eq rfl rfl rfl)) fun _ => happly.bind_raises fun _ => ?_
  refine (Acts.onlyIf (grows_onCore (by decide) ?_)).2
  rintro c c' ⟨⟩
  rfl

/-! ### A run that executes -/

/-- What the program leads to if it returns a value. -/
def Gives (P : World σ → Prop) (p : Exec σ α) (Q : α → World σ → Prop) : Prop := Holds anyReply P p Q fun _ => True

/-- The run has appended events of the given types and steps, in this order, and its last confirmed step is `last`. -/
structure Noted (cfg : Config) (a : VerifiedArtifact) (log₀ : List LifecycleEvent) (ks : List (GoString × GoString)) (last : GoString)
    (w : World σ) : Prop where
  last : w.result.lastConfirmed = last
  log : ∃ ts : List Nat, w.log = log₀ ++ (ks.zip ts).map (fun k => event cfg a k.1.1 k.1.2 [] (cfg.clock k.2)) ∧ ts.length = ks.length

variable {log₀ : List LifecycleEvent} {ks : List (GoString × GoString)} {last : GoString}

/-- The log and the last confirmed step are as they were. -/
structure Silent (w w' : World σ) : Prop where
  log : w'.log = w.log
  last : w'.result.lastConfirmed = w.result.lastConfirmed

instance : Std.Refl (Silent (σ := σ)) := ⟨fun _ => ⟨rfl, rfl⟩⟩

instance : Trans (Silent (σ := σ)) Silent Silent := ⟨fun h h' => ⟨h'.log.trans h.log, h'.last.trans h.last⟩⟩

theorem Noted.silent {w w' : World σ} (h : Noted cfg a log₀ ks last w) (hw : Silent w w') : Noted cfg a log₀ ks last w' :=
  ⟨hw.last.trans h.last, hw.log ▸ h.log⟩

theorem gives_silent {p : Exec σ α} (h : Acts Silent anyError p) : Gives (Noted cfg a log₀ ks last) p fun _ => Noted cfg a log₀ ks last :=
  (h.holds (fun _ _ => Noted.silent) fun _ => trivial).mono (fun _ => id) (fun _ _ => id) fun _ _ => trivial

theorem silent_onCore {f : Core σ → Option (Core σ)} : Acts Silent anyError (call (fun w => w.onCore f) e : Exec σ Unit) := by
  refine Acts.call (fun w w' hw => ?_) trivial
  obtain ⟨c, -, rfl⟩ := Option.map_eq_some_iff.mp hw
  exact ⟨rfl, rfl⟩

theorem silent_now : Acts Silent anyError (now cfg : Exec σ Int) := ⟨fun _ => ⟨rfl, rfl⟩, fun _ _ h => nomatch h⟩

/-- A program that ends with an error. -/
theorem gives_fail {Q : Unit → World σ → Prop} {p : Exec σ Unit} : Gives P (p >>= fun _ => fail e) Q :=
  Holds.seq (M := fun _ => True) (Holds.trivial fun _ => trivial) (Holds.fail fun _ _ => trivial)

/-- The handler of an error does not return. -/
theorem gives_onError {p : Exec σ α} {Q : α → World σ → Prop} {h : Failure → Exec σ α} (hp : Gives P p Q)
    (hh : ∀ e, Gives (fun _ => True) (h e) Q) : Gives P (onError p h) Q :=
  Holds.onError hp (fun _ _ => trivial) hh

theorem gives_uncertain {Q : Unit → World σ → Prop} : Gives P (uncertain cfg a step guidance) Q :=
  Holds.seq (M := fun _ => True) (Holds.trivial fun _ => trivial) gives_fail

/-- Part of a run that appends nothing if it returns. -/
theorem gives_guarded {p : Exec σ Unit} {h : Failure → Exec σ Unit} (hp : Acts Silent anyError p)
    (hh : ∀ e, Gives (fun _ => True) (h e) fun _ => Noted cfg a log₀ ks last) :
    Gives (Noted cfg a log₀ ks last) (onError p h) fun _ => Noted cfg a log₀ ks last :=
  gives_onError (gives_silent hp) hh

theorem gives_audit (haudits : cfg.audits = true) :
    Gives (Noted cfg a log₀ ks last) (audit cfg a type step [] : Exec σ Unit)
      fun _ => Noted cfg a log₀ (ks ++ [(type, step)]) last := by
  refine Holds.onlyIf (fun _ => ?_) fun h => absurd haudits h
  intro y hA hy
  refine Holds.call ?_ (fun _ _ h => nomatch h) (fun _ _ _ => ⟨trivial, fun _ _ => trivial⟩) _ hA
    (hy.silent ⟨rfl, rfl⟩)
  rintro w ⟨hlast, ts, hlog, hlen⟩ w' ⟨⟩
  refine ⟨hlast, ts ++ [y.state.ticks], ?_, by simp [hlen]⟩
  rw [zip_append hlen.symm, map_append, ← append_assoc, ← hlog]
  rfl

theorem gives_auditApplied (haudits : cfg.audits = true) :
    Gives (Noted cfg a log₀ ks last) (auditApplied cfg a type step guidance : Exec σ Unit)
      fun _ => Noted cfg a log₀ (ks ++ [(type, step)]) last :=
  gives_onError (gives_audit haudits) fun _ => gives_fail

theorem gives_prepare (haudits : cfg.audits = true) : Gives (fun w : World σ => w.log = log₀) (prepare cfg a)
      fun _ => Noted cfg a log₀ [(str "requested", []), (str "lock_acquired", [])] [] := by
  refine Holds.seq (M := Noted cfg a log₀ [] []) (Holds.keep fun w hw => ⟨rfl, [], by simpa using hw, rfl⟩) ?_
  refine Holds.seq (gives_audit haudits) ?_
  refine Holds.seq (gives_silent (Acts.onlyIf (Acts.ask trivial))) (Holds.seq (M := Noted cfg a log₀ [(str "requested", [])] []) ?_ ?_)
  · refine Holds.seq (gives_silent (Acts.onlyIf (Acts.fail trivial))) (Holds.onlyIf (fun _ => ?_) fun _ _ => id)
    exact gives_guarded ((Acts.ask trivial).seq (Acts.onlyIf (Acts.fail trivial))) fun _ => gives_fail
  refine Holds.seq (gives_audit haudits) (Holds.seq (M := Noted cfg a log₀ [(str "requested", []), (str "lock_acquired", [])] []) ?_ ?_)
  · exact Holds.onlyIf (fun _ => gives_guarded (Acts.ask trivial) fun _ => gives_fail) fun _ _ => id
  · exact Holds.bind (gives_silent silent_now) fun _ => Holds.onlyIf (fun _ => gives_fail) fun _ _ => id

theorem silent_runChecks : Acts Silent anyError (runChecks b checks : Exec σ Unit) := by
  refine Acts.forEach fun x _ => (Acts.ask trivial).seq (Acts.look.bind fun w => ?_)
  exact Acts.seq (Acts.keep fun w => ⟨rfl, rfl⟩) (Acts.onlyIf (Acts.fail trivial))

theorem silent_send {inside : Bool} : Acts Silent anyError (send b cfg a inside s) :=
  Acts.seq (Acts.keep fun _ => ⟨rfl, rfl⟩) silent_onCore

/-- The types and steps of the events of a phase. -/
def phaseKinds (p : Phase) (steps : List Step) (last : GoString) : List (GoString × GoString) :=
  match p.transaction with
  | .required => [(str "transaction_started", []), (str "transaction_committed", lastOf steps last)] ++
      steps.map fun s => (str "confirmed", s.id)
  | .prohibited => steps.flatMap fun s => [(str "intent", s.id), (str "confirmed", s.id)]

theorem gives_transactionalPhase (haudits : cfg.audits = true) (hb : cfg.borrowed = false) :
    Gives (Noted cfg a log₀ ks last) (transactionalPhase b cfg a confirmed checks checksPending p)
      fun _ => Noted cfg a log₀ (ks ++ ([(str "transaction_started", []),
          (str "transaction_committed", lastOf (pending a confirmed p.stepIDs) last)] ++
        (pending a confirmed p.stepIDs).map fun s => (str "confirmed", s.id))) (lastOf (pending a confirmed p.stepIDs) last) := by
  let M : World σ → Prop := Noted cfg a log₀ (ks ++ [(str "transaction_started", [])]) last
  refine Holds.seq (gives_audit haudits) (Holds.seq (M := M) ?_ ?_)
  · exact Holds.onlyIf (fun _ => gives_guarded silent_onCore fun _ => gives_fail) fun _ _ => id
  refine Holds.seq (M := M) ?_ ?_
  · refine gives_onError (Holds.seq (M := M) ?_ ?_) fun e => ?_
    · exact Holds.onlyIf (fun _ => gives_guarded silent_runChecks fun _ => gives_fail) fun _ _ => id
    · refine Holds.forEach (fun _ => M) fun _ s _ _ => ?_
      refine Holds.seq (gives_guarded silent_send fun _ => gives_fail) (gives_guarded silent_onCore fun _ => gives_fail)
    · exact Holds.seq (M := fun _ => True) (Holds.trivial fun _ => trivial) gives_fail
  -- the last step is read before the commit
  refine Holds.bind (Q := fun w w' => w.result.lastConfirmed = last ∧ M w')
    (Holds.look fun w hw => ⟨hw.last, hw⟩) fun w => Holds.of_pre fun hlast => ?_
  rw [hlast]
  refine Holds.seq (M := M) ?_ ?_
  · exact Holds.onlyIf (fun _ => gives_guarded silent_onCore fun _ => gives_uncertain) fun _ _ => id
  refine Holds.seq (M := Noted cfg a log₀ (ks ++ [(str "transaction_started", [])]) (lastOf (pending a confirmed p.stepIDs) last))
    (Holds.keep fun w hw => ⟨rfl, hw.log⟩) (Holds.onlyIf (fun _ => ?_) fun h => absurd hb h)
  refine Holds.seq (gives_auditApplied haudits) ?_
  have hloop := Holds.forEach (A := anyReply) (E := fun _ => True)
    (f := fun s : Step => (auditApplied cfg a (str "confirmed") s.id (str "repair lifecycle audit before retry") : Exec σ Unit))
    (l := pending a confirmed p.stepIDs)
    (fun done => Noted cfg a log₀ (ks ++ ([(str "transaction_started", []),
          (str "transaction_committed", lastOf (pending a confirmed p.stepIDs) last)] ++
        done.map fun s => (str "confirmed", s.id))) (lastOf (pending a confirmed p.stepIDs) last)) fun done s rest _ => ?_
  · exact hloop.pre fun w hw => by simpa using hw
  · refine (gives_auditApplied haudits).post fun _ w hw => ?_
    simpa using hw

theorem gives_nontransactionalStep (haudits : cfg.audits = true) :
    Gives (Noted cfg a log₀ ks last) (nontransactionalStep b cfg a p s)
      fun _ => Noted cfg a log₀ (ks ++ [(str "intent", s.id), (str "confirmed", s.id)]) s.id := by
  refine Holds.seq (gives_silent silent_onCore) (Holds.seq (gives_audit haudits) ?_)
  refine Holds.seq (gives_guarded silent_send fun _ => gives_uncertain) ?_
  refine Holds.seq (M := Noted cfg a log₀ (ks ++ [(str "intent", s.id)]) last) ?_ ?_
  · exact Holds.onlyIf (fun _ => gives_guarded (Acts.ask trivial) fun _ => gives_uncertain) fun _ _ => id
  refine Holds.seq (gives_guarded silent_onCore fun _ => gives_uncertain) ?_
  refine Holds.seq (gives_guarded ?_ fun _ => gives_uncertain) ?_
  · exact (Acts.ask trivial).seq (Acts.look.bind fun _ => Acts.onlyIf (Acts.fail trivial))
  refine Holds.seq (M := Noted cfg a log₀ (ks ++ [(str "intent", s.id)]) s.id) (Holds.keep fun w hw => ⟨rfl, hw.log⟩) ?_
  refine (gives_auditApplied haudits).post fun _ w hw => ?_
  simpa using hw

theorem gives_nontransactionalPhase (haudits : cfg.audits = true) :
    Gives (Noted cfg a log₀ ks last) (nontransactionalPhase b cfg a confirmed checks checksPending p)
      fun _ => Noted cfg a log₀ (ks ++ (pending a confirmed p.stepIDs).flatMap fun s => [(str "intent", s.id), (str "confirmed", s.id)])
        (lastOf (pending a confirmed p.stepIDs) last) := by
  refine Holds.seq (gives_silent (Acts.onlyIf silent_runChecks)) ?_
  have hloop := Holds.forEach (A := anyReply) (E := fun _ => True) (f := nontransactionalStep b cfg a p) (l := pending a confirmed p.stepIDs)
    (fun done => Noted cfg a log₀ (ks ++ done.flatMap fun s => [(str "intent", s.id), (str "confirmed", s.id)]) (lastOf done last))
    fun done s rest _ => ?_
  · exact hloop.pre fun w hw => by simpa [lastOf] using hw
  · refine (gives_nontransactionalStep haudits).post fun _ w hw => ?_
    simpa [lastOf] using hw

/-- The last step after the phases. -/
def lastAfter (a : VerifiedArtifact) (confirmed : GoSet) (last : GoString) (ps : List Phase) : GoString :=
  ps.foldl (fun last p => lastOf (pending a confirmed p.stepIDs) last) last

/-- If the phases have work each, what they append is what the observer looks for. -/
theorem phaseKinds_eq {steps : List Step} (hsteps : steps.map Step.id = p.stepIDs) (hne : p.stepIDs ≠ []) :
    phaseKinds p steps last = phaseRequired p := by
  have hlast : lastOf steps last = p.stepIDs.getLast?.getD [] := by
    rw [lastOf, ← getLast?_map, hsteps, getLast?_eq_some_getLast hne]
    rfl
  unfold phaseKinds phaseRequired
  cases p.transaction with
  | required =>
    simp only [hlast, ← hsteps, map_map]
    rfl
  | prohibited => simp only [← hsteps, flatMap_map]

/-- Each phase has steps, and all of them are pending. -/
def AllPending (a : VerifiedArtifact) (confirmed : GoSet) (ps : List Phase) : Prop :=
  ∀ p ∈ ps, (pending a confirmed p.stepIDs).map Step.id = p.stepIDs ∧ p.stepIDs ≠ []

theorem gives_runPhases (haudits : cfg.audits = true) (hb : cfg.borrowed = false) (hps : AllPending a confirmed ps) :
    Gives (Noted cfg a log₀ ks last) (runPhases b cfg a confirmed checks checksPending ps)
      fun _ => Noted cfg a log₀ (ks ++ ps.flatMap phaseRequired) (lastAfter a confirmed last ps) := by
  induction ps generalizing ks last checksPending with
  | nil => exact Holds.pure () fun w hw => by simpa [lastAfter] using hw
  | cons p ps ih =>
    rw [AllPending, forall_mem_cons] at hps
    have hphase : Gives (Noted cfg a log₀ ks last) (runPhase b cfg a confirmed checks checksPending p)
        fun _ => Noted cfg a log₀ (ks ++ phaseRequired p) (lastOf (pending a confirmed p.stepIDs) last) := by
      have hkinds : phaseKinds p (pending a confirmed p.stepIDs) last = phaseRequired p := phaseKinds_eq hps.1.1 hps.1.2
      rw [← hkinds]
      unfold runPhase phaseKinds
      cases p.transaction with
      | required => exact gives_transactionalPhase haudits hb
      | prohibited => exact gives_nontransactionalPhase haudits
    refine Holds.seq hphase ((ih hps.2).post fun _ w hw => ?_)
    simpa [lastAfter] using hw

/-- All that a run appends that executes the plan. -/
def runKinds (a : VerifiedArtifact) : List (GoString × GoString) :=
  required a ++ [(str "completed", lastAfter a GoMap.empty [] a.plan.phases)]

theorem gives_finish (haudits : cfg.audits = true) :
    Gives (Noted cfg a log₀ ks last) (finish cfg a : Exec σ Unit) fun _ => Noted cfg a log₀ (ks ++ [(str "completed", last)]) last := by
  refine Holds.bind (Q := fun w w' => w.result.lastConfirmed = last ∧ Noted cfg a log₀ ks last w')
    (Holds.look fun w hw => ⟨hw.last, hw⟩) fun w => Holds.of_pre fun hlast => ?_
  rw [hlast]
  exact gives_onError (gives_audit haudits) fun _ => gives_fail

theorem silent_confirmedSteps : Acts Silent anyError (confirmedSteps cfg a : Exec σ GoSet) := by
  refine (Acts.ask trivial).seq (Acts.look.bind fun w => ?_)
  split
  · exact Acts.pure _
  · exact Acts.fail trivial

/-- What is known of the core and what is known of the log. -/
theorem gives_both {R : Core σ → Prop} {p : Exec σ α} {Q : α → Core σ → Prop} {T : α → World σ → Prop}
    (hcore : On anyReply R p Q fun _ => True) (hlog : Gives P p T) :
    Gives (fun w => R w.core ∧ P w) p fun x w => Q x w.core ∧ T x w :=
  (Holds.and hcore hlog).mono (fun _ => id) (fun _ _ => id) fun _ _ => trivial

section Whole

variable {d₀ : Data σ} (haudits : cfg.audits = true) (hb : cfg.borrowed = false) (htarget : atTarget a (b.inspect d₀.schema) = false)
  (hrows : confirmedRows cfg a d₀.rows = .ok GoMap.empty) (hps : AllPending a GoMap.empty a.plan.phases)
include haudits hb htarget hrows hps

/-- A run that executes the whole plan and returns no error. -/
theorem gives_applyAuthorized : Gives (fun w => w.core.data = d₀ ∧ w.log = log₀) (applyAuthorized b cfg a checks)
      fun _ => Noted cfg a log₀ (runKinds a) (lastAfter a GoMap.empty [] a.plan.phases) := by
  let start : World σ → Prop := fun w => w.core.data = d₀ ∧ Noted cfg a log₀ [(str "requested", []), (str "lock_acquired", [])] [] w
  refine Holds.seq (M := start) (gives_both (R := fun c => c.data = d₀) (On.prepare fun _ _ _ => trivial) (gives_prepare haudits)) ?_
  have hread : Gives start (readState b) fun s w => s = b.inspect d₀.schema ∧ start w := by
    refine (gives_both (R := fun c => c.data = d₀) (On.readState fun _ _ _ => trivial)
      (gives_silent acts_readState)).post ?_
    rintro s w ⟨⟨rfl, hd⟩, hn⟩
    exact ⟨by rw [hd], hd, hn⟩
  refine Holds.bind hread fun s => Holds.of_pre fun hs => ?_
  rw [hs]
  refine Holds.onlyIf (fun _ => ?_) fun h => absurd htarget h
  refine Holds.seq (M := start) (Holds.onlyIf (fun _ => gives_fail) fun _ _ => id) ?_
  refine Holds.seq (M := start) (gives_both (R := fun c => c.data = d₀) (On.ensureHistory fun _ _ _ => trivial) (gives_silent ((Acts.ask trivial).seq (Acts.ask trivial)))) ?_
  have huncertain : Gives start (refuseUncertain cfg a) fun _ => start := by
    refine Holds.seq (M := start) (Holds.ask (fun _ => id) fun _ _ _ => trivial) ?_
    refine Holds.bind (Q := fun _ => start) (Holds.look fun _ => id) fun w => ?_
    exact Holds.onlyIf (fun _ => gives_fail) fun _ _ => id
  refine Holds.seq (M := start) huncertain ?_
  have hconfirmed : Gives start (confirmedSteps cfg a) fun m w => m = GoMap.empty ∧ start w := by
    refine (gives_both (R := fun c => c.data = d₀) (On.confirmedSteps fun _ _ _ => trivial) (gives_silent silent_confirmedSteps)).post ?_
    rintro m w ⟨⟨hm, hd⟩, hn⟩
    rw [hd, hrows] at hm
    exact ⟨(Except.ok.inj hm).symm, hd, hn⟩
  refine Holds.bind hconfirmed fun m => Holds.of_pre fun hm => ?_
  rw [hm]
  refine Holds.seq ((gives_runPhases haudits hb hps).pre fun w hw => hw.2) ?_
  exact Holds.onlyIf (fun _ => gives_finish haudits) fun h => absurd hb h

theorem gives_session : Gives (fun w => w.core.data = d₀ ∧ w.log = log₀) (session b cfg a checks)
      fun _ => Noted cfg a log₀ (runKinds a) (lastAfter a GoMap.empty [] a.plan.phases) := by
  refine Holds.seq (M := fun w => w.core.data = d₀ ∧ w.log = log₀) (Holds.onlyIf (fun h => ?_) fun _ _ => id) ?_
  · rw [hb] at h
    cases h
  refine Holds.seq (gives_applyAuthorized haudits hb htarget hrows hps) (Holds.onlyIf (fun h => ?_) fun _ _ => id)
  rw [hb] at h
  cases h

end Whole

/-! ### Eligible plans -/

theorem eligible_steps (h : completionEligible a = true) : a.plan.steps ≠ [] ∧ (∀ s ∈ a.plan.steps, s.kind = .executable) ∧
    ∀ p ∈ a.plan.phases, p.stepIDs ≠ [] := by
  simp only [completionEligible, Bool.and_eq_true, decide_eq_true_eq, all_eq_true] at h
  exact ⟨h.1.1.1.1, h.1.2, h.2⟩

/-- Without confirmed rows, all steps of an eligible plan are pending. -/
theorem eligible_pending (h : completionEligible a = true) : AllPending a GoMap.empty a.plan.phases := by
  intro p hp
  refine ⟨?_, (eligible_steps h).2.2 p hp⟩
  rw [pending_ids, filter_eq_self]
  intro id hid
  have hmem : id ∈ a.plan.steps.map Step.id := by
    rw [← a.valid.stepIDs]
    exact mem_flatMap.mpr ⟨p, hp, hid⟩
  obtain ⟨s, hs, rfl⟩ := mem_map.mp hmem
  simp [executes, a.valid.stepOf_mem hs, (eligible_steps h).2.1 s hs]

theorem eligible_work_ids (h : completionEligible a = true) :
    (workOf a GoMap.empty a.plan.phases).map (fun x => x.2.id) = a.plan.steps.map Step.id := by
  rw [workOf_ids, filter_eq_self]
  intro id hid
  obtain ⟨s, hs, rfl⟩ := mem_map.mp hid
  simp [executes, a.valid.stepOf_mem hs, (eligible_steps h).2.1 s hs]

/-- The step of the event `completed` is the last one of the last phase. -/
theorem lastAfter_eq (hps : AllPending a confirmed ps) (hne : ps ≠ []) : (ps.getLast?.bind fun p => p.stepIDs.getLast?) = some (lastAfter a confirmed last ps) := by
  obtain ⟨init, p, rfl⟩ := (eq_nil_or_concat' ps).resolve_left hne
  obtain ⟨hids, hp⟩ := hps p (mem_append_right _ (mem_singleton_self p))
  rw [getLast?_concat, Option.bind_some, lastAfter, foldl_append]
  show _ = some (lastOf (pending a confirmed p.stepIDs) _)
  rw [lastOf, ← getLast?_map, hids, getLast?_eq_some_getLast hp]
  rfl

/-- Events of this type and step have the shape that is demanded. -/
def Fit (a : VerifiedArtifact) (type step : GoString) : Prop :=
  type ∉ failedTypes ∧ ∀ e : LifecycleEvent, e.type = type → e.stepID = step → completionEventShape a e = true

theorem fit_plain (h : type ∈ plainTypes) : Fit a type [] := by
  have hall : ∀ t ∈ plainTypes, t ∉ failedTypes := by decide
  refine ⟨hall type h, fun e htype hstep => ?_⟩
  rw [completionEventShape, htype, if_pos h, hstep]
  rfl

theorem fit_step (h : type ∈ stepTypes) (hs : s ∈ a.plan.steps) : Fit a type s.id := by
  have hall : ∀ t ∈ stepTypes, t ∉ failedTypes ∧ t ∉ plainTypes := by decide
  refine ⟨(hall type h).1, fun e htype hstep => ?_⟩
  rw [completionEventShape, htype, if_neg (hall type h).2, if_pos h, hstep]
  exact any_eq_true.mpr ⟨s, hs, decide_eq_true rfl⟩

/-- What is required has the shape that is demanded. -/
theorem fit_required (h : completionEligible a = true) {k : GoString × GoString} (hk : k ∈ required a) :
    Fit a k.1 k.2 ∧ k.1 ≠ str "completed" := by
  have hids : ∀ p ∈ a.plan.phases, ∀ id ∈ p.stepIDs, ∃ s ∈ a.plan.steps, s.id = id := by
    intro p hp id hid
    have hmem : id ∈ a.plan.phases.flatMap Phase.stepIDs := mem_flatMap.mpr ⟨p, hp, hid⟩
    rw [a.valid.stepIDs] at hmem
    exact mem_map.mp hmem
  have hconfirmed : ∀ s ∈ a.plan.steps, Fit a (str "confirmed") s.id ∧ str "confirmed" ≠ str "completed" :=
    fun s hs => ⟨fit_step (by decide) hs, by decide⟩
  have hintent : ∀ s ∈ a.plan.steps, Fit a (str "intent") s.id ∧ str "intent" ≠ str "completed" :=
    fun s hs => ⟨fit_step (by decide) hs, by decide⟩
  rcases mem_append.mp hk with hk | hk
  · rw [mem_cons, mem_singleton] at hk
    rcases hk with rfl | rfl <;> exact ⟨fit_plain (by decide), by decide⟩
  · obtain ⟨p, hp, hk⟩ := mem_flatMap.mp hk
    unfold phaseRequired at hk
    cases hmode : p.transaction with
    | required =>
      simp only [hmode, cons_append, nil_append, mem_cons, mem_map] at hk
      rcases hk with rfl | rfl | ⟨id, hid, rfl⟩
      · exact ⟨fit_plain (by decide), by decide⟩
      · refine ⟨⟨(by decide : str "transaction_committed" ∉ _), fun e htype hstep => ?_⟩, (by decide : str "transaction_committed" ≠ _)⟩
        rw [completionEventShape, htype, hstep]
        refine any_eq_true.mpr ⟨p, hp, ?_⟩
        rw [hmode, getLast?_eq_some_getLast ((eligible_steps h).2.2 p hp)]
        simp
      · obtain ⟨s, hs, rfl⟩ := hids p hp id hid
        exact hconfirmed s hs
    | prohibited =>
      simp only [hmode, mem_flatMap, mem_cons, not_mem_nil, or_false] at hk
      obtain ⟨id, hid, hk⟩ := hk
      obtain ⟨s, hs, rfl⟩ := hids p hp id hid
      rcases hk with rfl | rfl
      · exact hintent s hs
      · exact hconfirmed s hs

/-! ### The records of the runs -/

/-- The run is one of the artifact at the attempt, with an audit, at times between the creation and `now`. -/
structure RunOf (a : VerifiedArtifact) (attempt : Nat) (now : Int) (q : Request σ) : Prop where
  artifact : q.artifact = a
  attempt_eq : q.config.attempt = attempt
  audits : q.config.audits = true
  clock : ∀ n, a.createdAt ≤ q.config.clock n ∧ q.config.clock n ≤ now

/-- The runs, one after another, are refused. -/
def AllRefused (b : Backend σ) : World σ → List (Request σ) → Prop
  | _, [] => True
  | w, q :: qs => (∃ e ∈ refusals, (outcome b w q).1 = .error e) ∧ AllRefused b (after b w q) qs

variable {attempt : Nat} {now : Int} {q : Request σ} {w : World σ}

theorem evidence_event (hq : RunOf a attempt now q) (hfit : Fit a type step) (n : Nat) :
    Evidence a attempt now (event q.config a type step [] (q.config.clock n)) := by
  refine ⟨⟨rfl, rfl, rfl, rfl, rfl, hq.attempt_eq, ?_, ?_⟩, ⟨rfl, hfit.2 _ rfl rfl⟩, hfit.1⟩
  · exact not_lt.mpr (hq.clock n).1
  · exact not_lt.mpr (hq.clock n).2

/-- Nothing but evidence of an attempt that has not begun. -/
structure Unbegun (a : VerifiedArtifact) (attempt : Nat) (now : Int) (w : World σ) : Prop where
  tx : w.core.tx = none
  rows : rowsOf a w.core.db.rows = []
  log : ∀ e ∈ w.log, About a e → Evidence a attempt now e ∧ e.type ≠ str "completed"

theorem Unbegun.refused (h : Unbegun a attempt now w) (hq : RunOf a attempt now q) (he : ∃ e ∈ refusals, (outcome b w q).1 = .error e) :
    Unbegun a attempt now (after b w q) := by
  obtain ⟨e, he, hout⟩ := he
  obtain ⟨hdb, -, l, hlog, hplain⟩ : Plainly q.config q.artifact (w.drift q.drift) (outcome b w q).2.state :=
    plainly_refused ⟨w.drift q.drift, q.replies⟩ e hout he
  refine ⟨rfl, ?_, ?_⟩
  · show rowsOf a (outcome b w q).2.state.core.db.rows = []
    rw [hdb]
    exact h.rows
  · show ∀ e ∈ (outcome b w q).2.state.log, _
    rw [hlog, forall_mem_append]
    refine ⟨h.log, fun e he _ => ?_⟩
    obtain ⟨type, htype, n, rfl⟩ := hplain e he
    have hall : ∀ t ∈ refusalTypes, t ∈ plainTypes ∧ t ≠ str "completed" := by decide
    rw [hq.artifact]
    exact ⟨evidence_event hq (fit_plain (hall type htype).1) n, (hall type htype).2⟩

theorem Unbegun.allRefused {qs : List (Request σ)} (h : Unbegun a attempt now w) (hqs : ∀ q ∈ qs, RunOf a attempt now q)
    (hrefused : AllRefused b w qs) : Unbegun a attempt now (afterAll b w qs) := by
  induction qs generalizing w with
  | nil => exact h
  | cons q qs ih =>
    rw [forall_mem_cons] at hqs
    exact ih (h.refused hqs.1 hrefused.1) hqs.2 hrefused.2

theorem confirmedRows_unbegun {rows : List Row} (h : rowsOf a rows = []) : confirmedRows cfg a rows = .ok GoMap.empty := by
  have hnone : (rows.filter fun r => ofAttempt cfg a r ∧ r.state = .confirmed) = [] := by
    rw [filter_eq_nil_iff]
    intro r hr hof
    rw [decide_eq_true_iff] at hof
    have hmem : r ∈ rowsOf a rows := mem_filter.mpr ⟨hr, decide_eq_true hof.1.1⟩
    rw [h] at hmem
    cases hmem
  rw [confirmedRows, hnone]
  rfl

section Accepted

variable (h : Unbegun a attempt now w) (heligible : completionEligible a = true) (hq : RunOf a attempt now q)
  (htarget : atTarget a (b.inspect (q.data w).schema) = false) (hok : (outcome b w q).1 = .ok ())
include h heligible hq htarget hok

/-- The rows that the run leaves are accepted. -/
theorem Unbegun.rows_accepted : readCompletedAttempt a (.ok (after b w q).core.db.rows) = .ok attempt := by
  have hsuccess := after_success h.tx hok
  rw [hq.artifact] at hsuccess
  rcases hsuccess with ⟨hat, -⟩ | ⟨-, -, confirmed, hconfirmed, hexecuted⟩
  · rw [htarget] at hat
    cases hat
  have hdata : (q.data w).rows = w.core.db.rows := rfl
  rw [hdata, confirmedRows_unbegun h.rows, Except.ok.injEq] at hconfirmed
  rw [← hconfirmed] at hexecuted
  have hown : rowsOf a (after b w q).core.db.rows = (workOf a GoMap.empty a.plan.phases).map (confirmedRow q.config a) := by
    rw [rowsOf, hexecuted.rows, filter_append]
    show rowsOf a w.core.db.rows ++ _ = _
    rw [h.rows, nil_append, filter_eq_self]
    intro r hr
    obtain ⟨x, -, rfl⟩ := mem_map.mp hr
    exact decide_eq_true rfl
  refine readCompletedAttempt_of_rows ?_ (eligible_steps heligible).1 ?_ ?_
  · rw [← hq.attempt_eq]
    exact q.config.attempt_pos
  · rw [hown]
    intro r hr
    obtain ⟨x, hx, rfl⟩ := mem_map.mp hr
    exact ⟨bindingMatches_confirmedRow hx, rfl, hq.attempt_eq⟩
  · rw [hown, map_map, ← eligible_work_ids heligible]
    rfl

/-- The log that the run leaves. -/
theorem Unbegun.log_eq (hb : q.config.borrowed = false) : ∃ ts : List Nat, (after b w q).log = w.log ++ ((runKinds a).zip ts).map (fun k => event q.config a k.1.1 k.1.2 [] (q.config.clock k.2)) ∧
      ts.length = (runKinds a).length := by
  have hdata : (w.drift q.drift).core.data = q.data w := Core.data_none h.tx
  have hgives : Gives (fun w' => w'.core.data = q.data w ∧ w'.log = w.log) (session b q.config a q.checks)
      fun _ => Noted q.config a w.log (runKinds a) (lastAfter a GoMap.empty [] a.plan.phases) :=
    gives_session hq.audits hb htarget (confirmedRows_unbegun h.rows) (eligible_pending heligible)
  have hout : (session b q.config a q.checks ⟨w.drift q.drift, q.replies⟩).1 = .ok () := by
    rw [← hq.artifact]
    exact hok
  have hnoted := Holds.of_ok hgives (fun _ => trivial) ⟨hdata, rfl⟩ hout
  have hstate : (after b w q).log = (session b q.config a q.checks ⟨w.drift q.drift, q.replies⟩).2.state.log := by
    rw [← hq.artifact]
    rfl
  rw [hstate]
  exact hnoted.log

/-- The file that the run leaves is accepted. -/
theorem Unbegun.audit_accepted (hb : q.config.borrowed = false) {es : List LifecycleEvent}
    (hfile : fileEvents (after b w q).log = some es) : completionAuditMatches a attempt es now = true := by
  obtain ⟨ts, hlog, hlen⟩ := h.log_eq heligible hq htarget hok hb
  -- the last event is `completed`
  obtain ⟨init, n, rfl⟩ : ∃ init n, ts = init ++ [n] := by
    rcases eq_nil_or_concat' ts with rfl | ⟨init, n, rfl⟩
    · rw [runKinds] at hlen
      simp at hlen
    · exact ⟨init, n, rfl⟩
  have hinit : (required a).length = init.length := by
    rw [runKinds] at hlen
    simpa using hlen.symm
  set last := lastAfter a GoMap.empty [] a.plan.phases with hlast
  set before := ((required a).zip init).map fun k => event q.config a k.1.1 k.1.2 [] (q.config.clock k.2) with hbefore
  set c := event q.config a (str "completed") last [] (q.config.clock n) with hc
  have hlog' : (after b w q).log = (w.log ++ before) ++ [c] := by
    rw [hlog, runKinds, zip_append hinit, map_append, append_assoc]
    rfl
  have hcompleted : Evidence a attempt now c := by
    refine evidence_event hq ⟨by decide, fun e htype hstep => ?_⟩ n
    rw [completionEventShape, htype, hstep]
    refine decide_eq_true (lastAfter_eq (eligible_pending heligible) fun hnil => ?_)
    have hids := a.valid.stepIDs
    rw [hnil, flatMap_nil, eq_comm, map_eq_nil_iff] at hids
    exact (eligible_steps heligible).1 hids
  have hevidence : ∀ e ∈ w.log ++ before, About a e → Evidence a attempt now e ∧ e.type ≠ str "completed" := by
    rw [forall_mem_append]
    refine ⟨h.log, fun e he _ => ?_⟩
    obtain ⟨k, hk, rfl⟩ := mem_map.mp he
    obtain ⟨hfit, hne⟩ := fit_required heligible (of_mem_zip hk).1
    exact ⟨evidence_event hq hfit k.2, hne⟩
  rw [hlog', fileEvents_append, Option.bind_eq_some_iff] at hfile
  obtain ⟨es₀, hes₀, hadd⟩ := hfile
  have hsub := fileEvents_subset hes₀
  -- it is new, so it is the last one of the file
  have hes : es = es₀ ++ [c] := by
    obtain ⟨hsame, ⟨⟨x, hx, hid⟩, -⟩ | ⟨-, hes⟩⟩ := addEvent_some hadd
    · have hxc := hsame x hx hid
      exact absurd hxc.type_eq (hevidence x (hsub hx) (.inl hxc.artifactDigest_eq)).2
    · exact hes
  have hfile' : fileEvents ((w.log ++ before) ++ [c]) = some (es₀ ++ [c]) := by
    rw [fileEvents_append, hes₀, ← hes]
    exact hadd
  rw [hes]
  refine completionAuditMatches_of (fun e he => hevidence e (hsub he)) hcompleted rfl ?_ fun k hk => ?_
  · -- an identity occurs once
    rw [nodup_iff_pairwise_ne, pairwise_map]
    have hpair := (fileEvents_pairwise hfile').sublist (filter_sublist (p := fun e => About a e))
    refine hpair.imp_of_mem fun {x e} _ he hn heq => hn ⟨?_, heq⟩
    obtain ⟨hmem, habout⟩ := mem_filter.mp he
    have hev : Evidence a attempt now e := by
      rcases mem_append.mp hmem with hmem | hmem
      · exact (hevidence e (hsub hmem) (by simpa using habout)).1
      · rw [mem_singleton.mp hmem]
        exact hcompleted
    rw [hev.shaped.1]
    exact cons_ne_nil _ _
  · -- what was appended is in the file
    have hfst : ((required a).zip init).map Prod.fst = required a := map_fst_zip hinit.le
    rw [← hfst] at hk
    obtain ⟨kn, hkn, rfl⟩ := mem_map.mp hk
    obtain ⟨x, hx, hxsame⟩ := mem_fileEvents hes₀ _ (mem_append_right _ (mem_map_of_mem hkn))
    refine ⟨x, hx, .inl hxsame.artifactDigest_eq, ?_⟩
    rw [hxsame.eventID_eq, ← hq.attempt_eq]
    rfl

end Accepted

/-- **The observer agrees with the executor.**  Runs of the artifact at one attempt that were refused, and then one that
returned no error, executed the plan from its source state and was no part of a caller's transaction: the observer accepts
the rows and the file that are left.  If it accepts any rows and any events, then what it proves holds of them. -/
theorem observer_agrees (b : Backend σ) (a : VerifiedArtifact) (attempt : Nat) (now : Int) :
    (∀ (w : World σ) (refused : List (Request σ)) (q : Request σ) (es : List LifecycleEvent), completionEligible a = true →
      w.core.tx = none → rowsOf a w.core.db.rows = [] → (∀ e ∈ w.log, ¬ About a e) →
      (∀ r ∈ refused ++ [q], RunOf a attempt now r) → AllRefused b w refused → q.config.borrowed = false →
      atTarget a (b.inspect (q.data (afterAll b w refused)).schema) = false →
      (outcome b (afterAll b w refused) q).1 = .ok () → fileEvents (afterAll b w (refused ++ [q])).log = some es →
      readCompletedAttempt a (.ok (afterAll b w (refused ++ [q])).core.db.rows) = .ok attempt ∧
        completionAuditMatches a attempt es now = true) ∧
    ∀ (rows : List Row) (es : List LifecycleEvent), readCompletedAttempt a (.ok rows) = .ok attempt →
      completionAuditMatches a attempt es now = true → Sha256.CollisionFree (eventTexts a attempt es) → Proven a attempt rows es := by
  refine ⟨?_, fun rows es => accepted_proven⟩
  intro w refused q es heligible htx hrows hlog hruns hrefused hb htarget hok hfile
  rw [forall_mem_append, forall_mem_singleton] at hruns
  have hstart : Unbegun a attempt now w := ⟨htx, hrows, fun e he habout => absurd habout (hlog e he)⟩
  have hunbegun := hstart.allRefused hruns.1 hrefused
  have hafter : afterAll b w (refused ++ [q]) = after b (afterAll b w refused) q := by
    rw [afterAll, foldl_append]
    rfl
  rw [hafter] at hfile ⊢
  exact ⟨hunbegun.rows_accepted heligible hruns.2 htarget hok, hunbegun.audit_accepted heligible hruns.2 htarget hok hb hfile⟩

/-! ### A plan of two phases -/

def plainStep : Step := ⟨str "step:a", str "create table", .executable, .required⟩

theorem mixed_valid : (samplePlan [plainStep, concurrentStep]).Valid := by decide +kernel

def mixedArtifact : VerifiedArtifact := sampleArtifact [plainStep, concurrentStep] mixed_valid

/-- A run without faults, with an audit. -/
def auditedRequest (a : VerifiedArtifact) (borrowed contended : Bool) (attempt : Nat) (hattempt : 1 ≤ attempt) (clock : Nat → Int) :
    Request Nat where
  config := { sampleConfig borrowed with
    audits := true, contended := contended, attempt := attempt, attempt_pos := hattempt, clock := clock
    lockAlreadyHeld := false, held_locked := fun h => nomatch h }
  artifact := a
  checks := []
  replies := fun _ => .done
  drift := id

def contendedRun : Request Nat := auditedRequest mixedArtifact false true 1 Nat.one_pos fun _ => 1

def wholeRun : Request Nat := auditedRequest mixedArtifact false false 1 Nat.one_pos fun _ => 2

def mixedWorld : World Nat := afterAll (sampleBackend 2) (start 0 []) [contendedRun, wholeRun]

def mixedEvents : List LifecycleEvent := (fileEvents mixedWorld.log).getD []

def mixedTexts : List GoString :=
  [(str "requested", []), (str "contended", []), (str "lock_acquired", []), (str "transaction_started", []),
    (str "transaction_committed", str "step:a"), (str "confirmed", str "step:a"), (str "intent", str "step:1"),
    (str "confirmed", str "step:1"), (str "completed", str "step:1")].map fun k => eventText 1 (str "digest") k.1 k.2

theorem observer_agrees_mixed : (readCompletedAttempt mixedArtifact (.ok mixedWorld.core.db.rows) = .ok 1 ∧
      completionAuditMatches mixedArtifact 1 mixedEvents 5 = true) ∧ Proven mixedArtifact 1 mixedWorld.core.db.rows mixedEvents := by
  obtain ⟨hcomplete, hsound⟩ := observer_agrees (sampleBackend 2) mixedArtifact 1 5
  have hfile : fileEvents mixedWorld.log = some mixedEvents := by decide +kernel
  have hrun : ∀ r ∈ [contendedRun] ++ [wholeRun], RunOf mixedArtifact 1 5 r := by
    intro r hr
    simp only [singleton_append, mem_cons, not_mem_nil, or_false] at hr
    rcases hr with rfl | rfl
    · exact ⟨rfl, rfl, rfl, fun _ => (by decide : (0 : Int) ≤ 1 ∧ (1 : Int) ≤ 5)⟩
    · exact ⟨rfl, rfl, rfl, fun _ => (by decide : (0 : Int) ≤ 2 ∧ (2 : Int) ≤ 5)⟩
  have hfirst : AllRefused (sampleBackend 2) (start 0 []) [contendedRun] := ⟨⟨[.busy], by decide, by decide +kernel⟩, trivial⟩
  have haccepted := hcomplete (start 0 []) [contendedRun] wholeRun mixedEvents (by decide +kernel) rfl rfl (fun _ h => nomatch h) hrun
    hfirst rfl (by decide +kernel) (by decide +kernel) hfile
  refine ⟨haccepted, hsound _ _ haccepted.1 haccepted.2 ?_⟩
  refine Sha256.collisionFree_of_heads (l := mixedTexts) ?_ (by decide +kernel)
  have hevents : ∀ e ∈ mixedEvents, eventText e.attempt e.executionID e.type e.stepID ∈ mixedTexts := by decide +kernel
  have hsteps : ∀ s ∈ mixedArtifact.plan.steps, eventText 1 mixedArtifact.digest (str "confirmed") s.id ∈ mixedTexts := by decide +kernel
  rintro m (⟨e, he, rfl⟩ | ⟨s, hs, rfl⟩)
  · exact hevents e he
  · exact hsteps s hs

/-- A run of the plan with one step from a world returns no error, and the observer does not accept what it leaves. -/
def missed (w : World Nat) (q : Request Nat) (attempt : Nat) : Bool :=
  let w' := after (sampleBackend 1) w q
  decide ((outcome (sampleBackend 1) w q).1 = .ok ()) && !(decide (readCompletedAttempt concurrentArtifact (.ok w'.core.db.rows) = .ok attempt) &&
    completionAuditMatches concurrentArtifact attempt ((fileEvents w'.log).getD []) 5)

/-- Four such runs: one that finds the database at the target, one inside a caller's transaction, one whose first event is
older than the artifact, and one after a contended run at another attempt. -/
theorem observer_disagrees : let run := auditedRequest concurrentArtifact
    let contended := run false true 1 (le_refl 1) fun _ => 1
    completionEligible concurrentArtifact = true ∧ missed (start 1 []) (run false false 1 (le_refl 1) fun _ => 2) 1 = true ∧
      missed (start 0 []) (run true false 1 (le_refl 1) fun _ => 2) 1 = true ∧
      missed (start 0 []) (run false false 1 (le_refl 1) fun n => if n = 0 then -1 else 2) 1 = true ∧
      (outcome (sampleBackend 1) (start 0 []) contended).1 = .error [.busy] ∧
      missed (after (sampleBackend 1) (start 0 []) contended) (run false false 2 (by decide) fun _ => 2) 2 = true := by decide +kernel

end AutoSql.Executor
