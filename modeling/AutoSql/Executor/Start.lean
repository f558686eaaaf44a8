/-
AutoSql/Executor/Start.lean

`checkExecutionStart`: has the execution of an artifact begun?

The answer comes from three places: the live fingerprint, the rows of the history, and
the lifecycle audit.  The audit alone is enough for what is proved here.  SQL of a
step is sent only after an event that is no refusal (`transaction_started` or
`intent`) has been appended, and what was appended stays, whatever becomes of the
transaction.

The parts of a run are sorted by what they do to the log and to the list of sent SQL
(`Grows`, `Plainly`, `Sends`); the first kind is most of them.  A run as a whole is in
the relation `Reports`.

Main result: `sent_not_unstarted`.
-/
import AutoSql.Executor.AtMostOnce
import AutoSql.Executor.FileAudit

namespace AutoSql.Executor

open Artifacts Proc List

/-! ### The check -/

/-- `CompletionOutcome`; `none` is the empty one. -/
inductive CompletionOutcome
  | none
  | proven
  | ineligible
  | refused
  | retryable
  deriving DecidableEq

structure CompletionFailure where
  outcome : CompletionOutcome := .none
  reason : GoString := []
  deriving DecidableEq

structure ExecutionStartCheck where
  started : Bool := false
  failure : CompletionFailure := {}
  deriving DecidableEq

/-- The types of events that are no evidence of execution. -/
def unstartedTypes : List GoString :=
  [str "requested", str "lock_acquired", str "contended", str "authorization_refused", str "expiry_refused", str "stale",
    str "transaction_begin_failed"]

def unstartedAuditEvent (a : VerifiedArtifact) (e : LifecycleEvent) (now : Int) : Bool :=
  decide (e.artifactDigest = a.digest ∧ e.executionID = a.digest ∧ e.planDigest = a.plan.digest ∧ e.bundleDigest = a.guardrailDigest ∧
    e.target = targetIdentity a.toArtifact ∧ e.attempt = 1 ∧ e.stepID = [] ∧
    e.eventID = lifecycleEventID e.attempt e.executionID e.type e.stepID ∧ ¬ e.time < a.createdAt ∧ ¬ now < e.time) &&
  unstartedTypes.contains e.type

def executionAuditStarted (events : Except AuditError (List LifecycleEvent)) (a : VerifiedArtifact) (requireExisting : Bool) (now : Int) :
    ExecutionStartCheck :=
  match events with
  | .error e =>
    if e = .missing ∧ requireExisting = false then {}
    else { failure := ⟨if e = .other then .retryable else .refused, str "audit_unavailable"⟩ }
  | .ok es =>
    if requireExisting ∧ es = [] then { failure := ⟨.refused, str "audit_incomplete"⟩ }
    else if es.all fun e => unstartedAuditEvent a e now then {} else { started := true }

/-- What the reader finds in one pass: the live state and whether there is a row of the artifact; either read may fail. -/
structure Pass where
  state : Option RuntimeState
  present : Option Bool

/-- One pass; the check goes on after the empty result. -/
def checkPass (a : VerifiedArtifact) (p : Pass) : ExecutionStartCheck :=
  match p.state with
  | none => { failure := ⟨.retryable, str "state_unavailable"⟩ }
  | some s =>
    if !Text.equalFold s.fingerprint a.plan.fromFingerprint || Text.equalFold s.fingerprint a.plan.toFingerprint then { started := true }
    else
      match p.present with
      | none => { failure := ⟨.retryable, str "history_unavailable"⟩ }
      | some present => { started := present }

def checkExecutionStart (a : VerifiedArtifact) (first second : Pass) (events : Except AuditError (List LifecycleEvent))
    (requireExisting : Bool) (now : Int) : ExecutionStartCheck :=
  if checkPass a first ≠ {} then checkPass a first
  else
    let audit := executionAuditStarted events a requireExisting now
    if audit.started ∨ audit.failure.outcome ≠ .none then audit else checkPass a second

/-! ### Parts that send nothing -/

variable {σ α : Type} {b : Backend σ} {cfg : Config} {a : VerifiedArtifact}

/-- The log is longer, and no SQL was sent. -/
structure Grows (w w' : World σ) : Prop where
  log : w.log <+: w'.log
  sent : w'.core.sent = w.core.sent

instance : Std.Refl (Grows (σ := σ)) := ⟨fun _ => ⟨prefix_rfl, rfl⟩⟩

instance : Trans (Grows (σ := σ)) Grows Grows := ⟨fun h h' => ⟨h.log.trans h'.log, h'.sent.trans h.sent⟩⟩

/-- An error that no run returns before the first step. -/
def Later (e : Failure) : Prop := ∀ x ∈ e, x ≠ .busy ∧ x ≠ .expired ∧ x ≠ .stale

instance (e : Failure) : Decidable (Later e) := inferInstanceAs (Decidable (∀ x ∈ e, _))

/-- Any error. -/
def anyError : Failure → Prop := fun _ => True

variable {guidance step type : GoString} {checks : List Assertion} {e : Failure} {w w' : World σ} {p : Phase} {checksPending : Bool}
  {s : Step} {F : Failure → Prop} {confirmed : GoSet} {ps : List Phase}

theorem Later.append {e' : Failure} (h : Later e) (h' : Later e') : Later (e ++ e') := forall_mem_append.mpr ⟨h, h'⟩

/-- A call that changes the data only. -/
theorem grows_onCore {f : Core σ → Option (Core σ)} (he : F e) (h : ∀ c c', f c = some c' → c'.sent = c.sent) :
    Acts Grows F (call (fun w => w.onCore f) e : Exec σ Unit) := by
  refine Acts.call (fun w w' hw => ?_) he
  obtain ⟨c, hc, rfl⟩ := Option.map_eq_some_iff.mp hw
  exact ⟨prefix_rfl, h _ _ hc⟩

theorem grows_statement {f : Data σ → Option (Data σ)} (he : F e) : Acts Grows F (statement f e) := by
  refine grows_onCore he fun c c' hc => ?_
  obtain ⟨d, -, rfl⟩ := Option.map_eq_some_iff.mp hc
  unfold Core.store
  split <;> rfl

/-- A change of what the executor keeps for itself, and what follows. -/
theorem grows_keep_seq {f : World σ → World σ} {g : Unit → Exec σ α} (hg : Acts Grows F (g ())) (hlog : ∀ w, (f w).log = w.log)
    (hcore : ∀ w, (f w).core = w.core) : Acts Grows F (keep f >>= g : Exec σ α) := by
  have hkeep : Acts Grows F (keep f : Exec σ Unit) := Acts.keep fun w => ⟨hlog w ▸ prefix_rfl, by rw [hcore w]⟩
  exact hkeep.seq hg

theorem grows_now : Acts Grows F (now cfg : Exec σ Int) := by
  refine Acts.look.bind fun w => ?_
  exact grows_keep_seq (Acts.pure _) (fun _ => rfl) fun _ => rfl

theorem grows_audit (h : F [.audit]) : Acts Grows F (audit cfg a type step guidance : Exec σ Unit) := by
  refine Acts.onlyIf (grows_now.bind fun t => Acts.call ?_ h)
  rintro w w' ⟨⟩
  exact ⟨prefix_append _ _, rfl⟩

theorem grows_refuse (h : F [.audit]) (he : F e) : Acts Grows F (refuse cfg a type guidance e : Exec σ Unit) :=
  (grows_audit h).seq (Acts.fail he)

theorem grows_failWith (h : Later e) : Acts Grows Later (failWith cfg a type step guidance e : Exec σ Unit) :=
  ((grows_audit (by decide)).onError fun _ _ => Acts.fail (h.append (by decide))).seq (Acts.fail h)

theorem grows_uncertain : Acts Grows Later (uncertain cfg a step guidance : Exec σ Unit) :=
  grows_keep_seq (grows_failWith (by decide)) (fun _ => rfl) fun _ => rfl

theorem grows_auditApplied : Acts Grows Later (auditApplied cfg a type step guidance : Exec σ Unit) :=
  (grows_audit (by decide)).onError fun _ _ => grows_keep_seq (Acts.fail (by decide)) (fun _ => rfl) fun _ => rfl

theorem acts_readState {R : World σ → World σ → Prop} [Std.Refl R] [Trans R R R] : Acts R anyError (readState b : Exec σ RuntimeState) :=
  (Acts.ask trivial).seq (Acts.look.bind fun _ => Acts.pure _)

theorem grows_refuseUncertain : Acts Grows Later (refuseUncertain cfg a : Exec σ Unit) :=
  (Acts.ask (by decide)).seq (Acts.look.bind fun _ => Acts.onlyIf (grows_refuse (by decide) (by decide)))

theorem confirmedRows_error {rows : List Row} {e : ExecError} (h : confirmedRows cfg a rows = .error e) :
    e = .bindingConflict ∨ e = .duplicate := by
  have hfold : ∀ (l : List Row) (out : GoSet), l.foldlM (addConfirmed a) out = .error e → e = .bindingConflict ∨ e = .duplicate := by
    intro l
    induction l with
    | nil => exact fun _ h => nomatch h
    | cons r l ih =>
      intro out h
      rw [foldlM_cons, Fallible.bind_error] at h
      rcases h with h | ⟨out', -, h⟩
      · unfold addConfirmed at h
        split_ifs at h <;> cases h
        · exact .inl rfl
        · exact .inr rfl
      · exact ih out' h
  exact hfold _ _ h

theorem grows_confirmedSteps : Acts Grows Later (confirmedSteps cfg a : Exec σ GoSet) := by
  refine (Acts.ask (by decide)).seq (Acts.look.bind fun w => ?_)
  cases hrows : confirmedRows cfg a w.core.data.rows with
  | ok confirmed => exact Acts.pure _
  | error e =>
    refine Acts.fail (forall_mem_singleton.mpr ?_)
    rcases confirmedRows_error hrows with rfl | rfl <;> exact ⟨nofun, nofun, nofun⟩

theorem grows_runChecks : Acts Grows Later (runChecks b checks : Exec σ Unit) := by
  refine Acts.forEach fun x _ => (Acts.ask (by decide)).seq (Acts.look.bind fun w => ?_)
  refine grows_keep_seq (Acts.onlyIf (Acts.fail ?_)) (fun _ => rfl) fun _ => rfl
  exact forall_mem_singleton.mpr ⟨nofun, nofun, nofun⟩

theorem grows_beginPhase : Acts Grows Later (beginPhase cfg a : Exec σ Unit) := by
  refine Acts.onlyIf (Acts.onError (grows_onCore (by decide) ?_) fun _ h => grows_failWith h)
  rintro c c' ⟨⟩
  rfl

theorem grows_rollbackPhase (he : Later e) : Acts Grows Later (rollbackPhase cfg a e : Exec σ Unit) := by
  refine Acts.seq (Acts.onError (Acts.onlyIf (grows_onCore (by decide) ?_)) fun _ _ => ?_) ?_
  · rintro c c' ⟨⟩
    rfl
  · refine grows_keep_seq ?_ (fun _ => rfl) fun _ => rfl
    exact ((grows_audit (by decide)).onError fun _ _ => Acts.fail (he.append (by decide))).seq (Acts.fail (he.append (by decide)))
  · exact ((grows_audit (by decide)).onError fun _ _ => Acts.fail (he.append (by decide))).seq (Acts.fail he)

theorem grows_commitPhase {last : GoString} : Acts Grows Later (commitPhase cfg a last : Exec σ Unit) := by
  refine Acts.onlyIf (Acts.onError (grows_onCore (by decide) ?_) fun _ _ => grows_uncertain)
  rintro c c' ⟨⟩
  rfl

theorem grows_finish : Acts Grows Later (finish cfg a : Exec σ Unit) := by
  refine Acts.look.bind fun w => (grows_audit (by decide)).onError fun _ _ => ?_
  refine Acts.seq (Acts.onlyIf ?_) (Acts.fail (by decide))
  exact grows_keep_seq (Acts.fail (by decide)) (fun _ => rfl) fun _ => rfl

/-! ### Before the first step -/

/-- The types of the events of a run that is refused before the first step. -/
def refusalTypes : List GoString :=
  [str "requested", str "lock_acquired", str "contended", str "authorization_refused", str "expiry_refused", str "stale"]

/-- An event of the run about no step. -/
def Plain (cfg : Config) (a : VerifiedArtifact) (e : LifecycleEvent) : Prop :=
  ∃ type ∈ refusalTypes, ∃ n, e = event cfg a type [] [] (cfg.clock n)

/-- The database is as it was, no SQL was sent, and the log is longer by such events. -/
structure Plainly (cfg : Config) (a : VerifiedArtifact) (w w' : World σ) : Prop where
  db : w'.core.db = w.core.db
  sent : w'.core.sent = w.core.sent
  log : ∃ l, w'.log = w.log ++ l ∧ ∀ e ∈ l, Plain cfg a e

theorem Plainly.of_eq (hdb : w'.core.db = w.core.db) (hsent : w'.core.sent = w.core.sent) (hlog : w'.log = w.log) :
    Plainly cfg a w w' :=
  ⟨hdb, hsent, [], by rw [hlog, append_nil], fun _ he => nomatch he⟩

instance : Std.Refl (Plainly (σ := σ) cfg a) := ⟨fun _ => .of_eq rfl rfl rfl⟩

instance : Trans (Plainly (σ := σ) cfg a) (Plainly cfg a) (Plainly cfg a) where
  trans := by
    rintro w w' w'' ⟨hdb, hsent, l, hl, hplain⟩ ⟨hdb', hsent', l', hl', hplain'⟩
    refine ⟨hdb'.trans hdb, hsent'.trans hsent, l ++ l', ?_, forall_mem_append.mpr ⟨hplain, hplain'⟩⟩
    rw [hl', hl, append_assoc]

theorem plainly_keep_seq {f : World σ → World σ} {g : Unit → Exec σ α} (hg : Acts (Plainly cfg a) anyError (g ()))
    (hlog : ∀ w, (f w).log = w.log) (hcore : ∀ w, (f w).core = w.core) : Acts (Plainly cfg a) anyError (keep f >>= g : Exec σ α) :=
  (Acts.keep fun w => .of_eq (by rw [hcore w]) (by rw [hcore w]) (hlog w)).seq hg

theorem plainly_audit (htype : type ∈ refusalTypes) :
    Acts (Plainly cfg a) anyError (audit cfg a type [] [] : Exec σ Unit) := by
  refine Acts.onlyIf ⟨fun y => ?_, fun _ _ _ => trivial⟩
  have happend : Acts (Plainly cfg a) anyError (call (fun w : World σ =>
      some { w with log := w.log ++ [event cfg a type [] [] (cfg.clock y.state.ticks)] }) [.audit] : Exec σ Unit) := by
    refine Acts.call ?_ trivial
    rintro s s' ⟨⟩
    exact ⟨rfl, rfl, _, rfl, forall_mem_singleton.mpr ⟨type, htype, _, rfl⟩⟩
  have hticks : Plainly cfg a y.state { y.state with ticks := y.state.ticks + 1 } := .of_eq rfl rfl rfl
  exact Trans.trans hticks (happend.1 _)

theorem plainly_now : Acts (Plainly cfg a) anyError (now cfg : Exec σ Int) :=
  Acts.look.bind fun _ => plainly_keep_seq (Acts.pure _) (fun _ => rfl) fun _ => rfl

theorem plainly_refuse (htype : type ∈ refusalTypes) :
    Acts (Plainly cfg a) anyError (refuse cfg a type [] e : Exec σ Unit) :=
  (plainly_audit htype).seq (Acts.fail trivial)

theorem plainly_prepare : Acts (Plainly cfg a) anyError (prepare cfg a : Exec σ Unit) := by
  have hlock : Acts (Plainly cfg a) anyError (lock cfg a : Exec σ Unit) := by
    refine (Acts.onlyIf (Acts.fail trivial)).seq (Acts.onlyIf ?_)
    refine ((Acts.ask trivial).seq (Acts.onlyIf (Acts.fail trivial))).onError fun e _ => ?_
    exact (plainly_audit (by decide)).seq (Acts.fail trivial)
  refine plainly_keep_seq ?_ (fun _ => rfl) fun _ => rfl
  refine (plainly_audit (by decide)).seq ((Acts.onlyIf (Acts.ask trivial)).seq (hlock.seq ?_))
  refine (plainly_audit (by decide)).seq (Acts.seq ?_ ?_)
  · exact Acts.onlyIf ((Acts.ask trivial).onError fun _ _ => plainly_refuse (by decide))
  · exact plainly_now.bind fun t => Acts.onlyIf (plainly_refuse (by decide))

theorem Plainly.grows (h : Plainly cfg a w w') : Grows w w' := by
  obtain ⟨l, hl, -⟩ := h.log
  exact ⟨⟨l, hl.symm⟩, h.sent⟩

/-! ### Parts that send SQL of the artifact -/

/-- The log is longer, and what was sent is SQL of the artifact. -/
structure Sends (a : VerifiedArtifact) (w w' : World σ) : Prop where
  log : w.log <+: w'.log
  sent : ∀ s ∈ w'.core.sent, s ∈ w.core.sent ∨ s.key.artifactDigest = a.digest

instance : Std.Refl (Sends (σ := σ) a) := ⟨fun _ => ⟨prefix_rfl, fun _ => .inl⟩⟩

instance : Trans (Sends (σ := σ) a) (Sends a) (Sends a) :=
  ⟨fun h h' => ⟨h.log.trans h'.log, fun s hs => (h'.sent s hs).elim (h.sent s) .inr⟩⟩

theorem Grows.sends (h : Grows w w') : Sends a w w' := ⟨h.log, fun _ hs => .inl (h.sent ▸ hs)⟩

theorem sends_of_grows {p : Exec σ α} (h : Acts Grows F p) : Acts (Sends a) F p := h.mono fun _ _ => Grows.sends

theorem sends_send {inside : Bool} : Acts (Sends a) Later (send b cfg a inside s) := by
  refine Acts.seq (Acts.keep fun w => ⟨prefix_rfl, fun x hx => ?_⟩) (sends_of_grows (grows_statement (by decide)))
  rcases mem_append.mp hx with hx | hx
  · exact .inl hx
  · rw [mem_singleton.mp hx]
    exact .inr rfl

theorem sends_transactionalStep : Acts (Sends a) Later (transactionalStep b cfg a p s) :=
  (sends_send.onError fun _ h => sends_of_grows (grows_failWith h)).seq
    (sends_of_grows ((grows_statement (by decide)).onError fun _ h => grows_failWith h))

theorem sends_phaseBody {steps : List Step} : Acts (Sends a) Later (phaseBody b cfg a p checks checksPending steps) :=
  (sends_of_grows (Acts.onlyIf (grows_runChecks.onError fun _ h => grows_failWith h))).seq
    (Acts.forEach fun _ _ => sends_transactionalStep)

variable (b cfg a p)

variable (checks checksPending confirmed) in
/-- What follows the first event of a transactional phase. -/
theorem sends_transaction : ∃ rest : Exec σ Unit, transactionalPhase b cfg a confirmed checks checksPending p =
    (do audit cfg a (str "transaction_started") [] []; rest) ∧ Acts (Sends a) Later rest := by
  refine ⟨_, rfl, (sends_of_grows grows_beginPhase).seq (Acts.seq ?_ (sends_of_grows (Acts.look.bind fun w => ?_)))⟩
  · exact sends_phaseBody.onError fun _ h => sends_of_grows (grows_rollbackPhase h)
  · refine grows_commitPhase.seq (grows_keep_seq (Acts.onlyIf ?_) (fun _ => rfl) fun _ => rfl)
    exact grows_auditApplied.seq (Acts.forEach fun _ _ => grows_auditApplied)

/-- What follows the first event of a nontransactional step. -/
theorem sends_intended (s : Step) : ∃ rest : Exec σ Unit, nontransactionalStep b cfg a p s =
    (do insertHistory cfg a s p .intended; audit cfg a (str "intent") s.id []; rest) ∧ Acts (Sends a) Later rest := by
  refine ⟨_, rfl, (sends_send.onError fun _ _ => sends_of_grows grows_uncertain).seq (sends_of_grows ?_)⟩
  refine (Acts.onlyIf ((Acts.ask (by decide)).onError fun _ _ => grows_uncertain)).seq ?_
  refine ((grows_statement (by decide)).onError fun _ _ => grows_uncertain).seq (Acts.seq (Acts.onError ?_ fun _ _ => grows_uncertain) ?_)
  · exact (Acts.ask (by decide)).seq (Acts.look.bind fun _ => Acts.onlyIf (Acts.fail (by decide)))
  · exact grows_keep_seq grows_auditApplied (fun _ => rfl) fun _ => rfl

variable {b cfg a p}

/-! ### The trace of what was sent -/

/-- An event of the execution of the artifact with this digest, after which SQL may be sent. -/
def Started (digest : GoString) (e : LifecycleEvent) : Prop :=
  e.artifactDigest = digest ∧ (e.type = str "transaction_started" ∨ e.type = str "intent")

/-- The log is longer, and what was sent is SQL of the artifact.  If there is an audit, it was sent after such an event. -/
structure Reports (cfg : Config) (a : VerifiedArtifact) (w w' : World σ) : Prop where
  log : w.log <+: w'.log
  sent : ∀ s ∈ w'.core.sent, s ∈ w.core.sent ∨ s.key.artifactDigest = a.digest ∧ (cfg.audits = true → ∃ e ∈ w'.log, Started a.digest e)

instance : Std.Refl (Reports (σ := σ) cfg a) := ⟨fun _ => ⟨prefix_rfl, fun _ => .inl⟩⟩

instance : Trans (Reports (σ := σ) cfg a) (Reports cfg a) (Reports cfg a) where
  trans := by
    intro w w' w'' h h'
    refine ⟨h.log.trans h'.log, fun s hs => ?_⟩
    rcases h'.sent s hs with hs | hs
    · refine (h.sent s hs).imp_right fun ⟨hdigest, hstarted⟩ => ⟨hdigest, fun haudits => ?_⟩
      obtain ⟨e, he, hse⟩ := hstarted haudits
      exact ⟨e, h'.log.subset he, hse⟩
    · exact .inr hs

theorem Grows.reports (h : Grows w w') : Reports cfg a w w' := ⟨h.log, fun _ hs => .inl (h.sent ▸ hs)⟩

theorem reports_of_grows {p : Exec σ α} (h : Acts Grows F p) : Acts (Reports cfg a) F p := h.mono fun _ _ => Grows.reports

/-- Any replies. -/
def anyReply : Reply → Prop := fun _ => True

/-- What is sent after such an event. -/
theorem reports_audit_seq {rest : Exec σ Unit} (htype : type = str "transaction_started" ∨ type = str "intent")
    (hrest : Acts (Sends a) Later rest) : Acts (Reports cfg a) Later (do audit cfg a type step guidance; rest) := by
  have haudit : Acts Grows Later (audit cfg a type step guidance : Exec σ Unit) := grows_audit (by decide)
  refine ⟨fun y => ?_, ((sends_of_grows haudit).seq hrest).2⟩
  -- when the audit is done, it has the event
  have hevent : Holds anyReply (fun _ => True) (audit cfg a type step guidance : Exec σ Unit)
      (fun _ w => cfg.audits = true → ∃ e ∈ w.log, Started a.digest e) fun _ => True := by
    refine Holds.onlyIf (fun _ => ?_) fun h _ _ haudits => absurd haudits h
    refine Holds.bind (Q := fun _ _ => True) (Holds.trivial fun _ => trivial) fun t => ?_
    refine Holds.call ?_ (fun _ _ _ => trivial) fun _ _ _ => ⟨trivial, fun _ _ => trivial⟩
    rintro w - w' ⟨⟩ -
    exact ⟨_, mem_append_right _ (mem_singleton_self _), rfl, htype⟩
  have hgrows := haudit.1 y
  rw [run_bind]
  cases hr : (audit cfg a type step guidance y).1 with
  | ok u =>
    have hsends := hrest.1 (audit cfg a type step guidance y).2
    refine ⟨hgrows.log.trans hsends.log, fun s hs => ?_⟩
    refine (hsends.sent s hs).imp (fun h => hgrows.sent ▸ h) fun hdigest => ⟨hdigest, fun haudits => ?_⟩
    obtain ⟨e, he, hse⟩ := hevent.of_ok (fun _ => trivial) trivial hr haudits
    exact ⟨e, hsends.log.subset he, hse⟩
  | error | stopped => exact hgrows.reports

theorem reports_runPhases : Acts (Reports cfg a) Later (runPhases b cfg a confirmed checks checksPending ps) := by
  induction ps generalizing checksPending with
  | nil => exact Acts.pure ()
  | cons p ps ih =>
    refine Acts.seq ?_ ih
    unfold runPhase
    split
    · obtain ⟨rest, hphase, hrest⟩ := sends_transaction b cfg a checks p checksPending confirmed
      rw [hphase]
      exact reports_audit_seq (.inl rfl) hrest
    · refine (reports_of_grows (Acts.onlyIf grows_runChecks)).seq (Acts.forEach fun s _ => ?_)
      obtain ⟨rest, hstep, hrest⟩ := sends_intended b cfg a p s
      rw [hstep]
      exact (reports_of_grows (grows_statement (by decide))).seq (reports_audit_seq (.inr rfl) hrest)

theorem reports_execute : Acts (Reports cfg a) Later (execute b cfg a checks) := by
  refine (reports_of_grows ((Acts.ask (by decide)).seq (Acts.ask (by decide)))).seq ((reports_of_grows grows_refuseUncertain).seq ?_)
  refine (reports_of_grows grows_confirmedSteps).bind fun confirmed => ?_
  exact reports_runPhases.seq (reports_of_grows (Acts.onlyIf grows_finish))

theorem reports_session : Acts (Reports cfg a) anyError (session b cfg a checks) := by
  have hexecute : Acts (Reports cfg a) anyError (execute b cfg a checks) := ⟨reports_execute.1, fun _ _ _ => trivial⟩
  have happly : Acts (Reports cfg a) anyError (applyAuthorized b cfg a checks) := by
    refine (plainly_prepare.mono fun _ _ h => h.grows.reports).seq (acts_readState.bind fun s => Acts.onlyIf ?_)
    exact (reports_of_grows (Acts.onlyIf (grows_refuse trivial trivial))).seq hexecute
  refine (Acts.onlyIf (Acts.keep fun w => ⟨prefix_rfl, fun _ => .inl⟩)).seq (happly.seq (reports_of_grows (Acts.onlyIf ?_)))
  refine grows_onCore trivial ?_
  rintro c c' ⟨⟩
  rfl

/-- Whatever was sent has left such an event. -/
def Traced (w : World σ) : Prop := ∀ s ∈ w.core.sent, ∃ e ∈ w.log, Started s.key.artifactDigest e

theorem Traced.reports (h : Traced w) (haudits : cfg.audits = true) (hw : Reports cfg a w w') : Traced w' := by
  intro s hs
  rcases hw.sent s hs with hs | ⟨hdigest, hstarted⟩
  · obtain ⟨e, he, hse⟩ := h s hs
    exact ⟨e, hw.log.subset he, hse⟩
  · rw [hdigest]
    exact hstarted haudits

theorem traced_after {q : Request σ} (h : Traced w) (haudits : q.config.audits = true) : Traced (after b w q) := by
  have hreports : Reports q.config q.artifact (w.drift q.drift) (outcome b w q).2.state := reports_session.1 ⟨w.drift q.drift, q.replies⟩
  have hdrift : Traced (w.drift q.drift) := h
  have houtcome : Traced (outcome b w q).2.state := hdrift.reports haudits hreports
  exact houtcome

theorem traced_afterAll {qs : List (Request σ)} (h : Traced w) (haudits : ∀ q ∈ qs, q.config.audits = true) :
    Traced (afterAll b w qs) := by
  induction qs generalizing w with
  | nil => exact h
  | cons q qs ih =>
    rw [forall_mem_cons] at haudits
    exact ih (traced_after h haudits.1) haudits.2

/-! ### The answer after something was sent -/

/-- The answer stops the caller from applying afresh. -/
def ExecutionStartCheck.Stops (r : ExecutionStartCheck) : Prop := r.started = true ∨ r.failure.outcome ≠ .none

theorem checkPass_stops {p : Pass} (h : checkPass a p ≠ {}) : (checkPass a p).Stops := by
  unfold checkPass at h ⊢
  split at h
  · exact .inr nofun
  · split_ifs at h ⊢
    · exact .inl rfl
    · split at h
      · exact .inr nofun
      · rename_i present hp
        cases present with
        | true => exact .inl rfl
        | false => exact absurd rfl h

/-- An event after which SQL may have been sent is evidence. -/
theorem unstartedAuditEvent_started {e : LifecycleEvent} {digest : GoString} {now : Int} (h : Started digest e) :
    unstartedAuditEvent a e now = false := by
  have htype : unstartedTypes.contains e.type = false := by
    rcases h.2 with h | h <;> rw [h] <;> decide
  rw [unstartedAuditEvent, htype, Bool.and_false]

theorem executionAuditStarted_stops {es : List LifecycleEvent} (fault : Option AuditError) (requireExisting : Bool) (now : Int)
    (h : ∃ e ∈ es, Started a.digest e) :
    (executionAuditStarted (readExecution es a.digest fault) a requireExisting now).Stops := by
  obtain ⟨e, he, hstarted⟩ := h
  have hne : es ≠ [] := ne_nil_of_mem he
  cases fault with
  | some f =>
    refine .inr ?_
    cases f <;> simp [readExecution, executionAuditStarted, hne]
  | none =>
    have hmem : e ∈ es.filter fun e => decide (e.artifactDigest = a.digest ∨ e.executionID = a.digest) :=
      mem_filter.mpr ⟨he, by simp [hstarted.1]⟩
    refine .inl ?_
    rw [readExecution, executionAuditStarted, if_neg fun hempty => ne_nil_of_mem hmem hempty.2, if_neg]
    intro hall
    have := all_eq_true.mp hall e hmem
    rw [unstartedAuditEvent_started hstarted] at this
    cases this

/-- **Started work is not reported as unstarted.**  After any sequence of runs against one database and one audit file, each
ending anywhere: if the SQL of a step of the artifact was sent, the check says so or fails, whatever else it reads. -/
theorem sent_not_unstarted (b : Backend σ) (schema : σ) (rows : List Row) (qs : List (Request σ)) (a : VerifiedArtifact)
    (haudits : ∀ q ∈ qs, q.config.audits = true) {es : List LifecycleEvent}
    (hfile : fileEvents (afterAll b (start schema rows) qs).log = some es)
    (hsent : ∃ s ∈ (afterAll b (start schema rows) qs).core.sent, s.key.artifactDigest = a.digest)
    (first second : Pass) (fault : Option AuditError) (requireExisting : Bool) (now : Int) :
    (checkExecutionStart a first second (readExecution es a.digest fault) requireExisting now).Stops := by
  have htraced : Traced (afterAll b (start schema rows) qs) := traced_afterAll (fun _ hs => nomatch hs) haudits
  obtain ⟨s, hs, hdigest⟩ := hsent
  obtain ⟨e, he, hstarted⟩ := htraced s hs
  -- the file has the event, perhaps from an earlier run
  obtain ⟨x, hx, hsame⟩ := mem_fileEvents hfile e he
  have hxstarted : Started a.digest x := by
    rw [hdigest] at hstarted
    rw [Started, hsame.artifactDigest_eq, hsame.type_eq]
    exact hstarted
  have haudit := executionAuditStarted_stops fault requireExisting now ⟨x, hx, hxstarted⟩
  unfold checkExecutionStart
  split_ifs with hfirst
  · exact checkPass_stops hfirst
  · exact (if_pos haudit).symm ▸ haudit

/-- A run that stops while it sends the first SQL. -/
def stoppedSending : Request Nat :=
  ⟨{ sampleConfig false with audits := true }, concurrentArtifact, [], fun i => if i = 9 then .stopped false else .done, id⟩

theorem sent_not_unstarted_stopped :
    (afterAll (sampleBackend 1) (start 0 []) [stoppedSending]).core.sent = [⟨concurrentKey, false⟩] ∧
      ∃ es, fileEvents (afterAll (sampleBackend 1) (start 0 []) [stoppedSending]).log = some es ∧
        (checkExecutionStart concurrentArtifact ⟨none, none⟩ ⟨none, none⟩ (readExecution es (str "digest") none) false 5).Stops := by
  have hsent : (afterAll (sampleBackend 1) (start 0 []) [stoppedSending]).core.sent = [⟨concurrentKey, false⟩] := by decide +kernel
  have hfile : (fileEvents (afterAll (sampleBackend 1) (start 0 []) [stoppedSending]).log).isSome = true := by decide +kernel
  obtain ⟨es, hes⟩ := Option.isSome_iff_exists.mp hfile
  refine ⟨hsent, es, hes, sent_not_unstarted (sampleBackend 1) 0 [] [stoppedSending] concurrentArtifact ?_ hes ?_ _ _ none false 5⟩
  · exact forall_mem_singleton.mpr rfl
  · rw [hsent]
    exact ⟨_, mem_singleton_self _, rfl⟩

end AutoSql.Executor
