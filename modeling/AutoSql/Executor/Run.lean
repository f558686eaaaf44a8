/-
AutoSql/Executor/Run.lean

The executor: `ApplyAuthorized` and the functions it is made of, as programs
whose calls to the database and to the lifecycle audit can fail or never return.

The database has a schema, about which nothing is assumed, and the rows of
`autosql_migration_history` with their primary key.  A transaction works on a copy
that a commit puts in place.  Two logs of the model are not in the database:
`effects` lists the steps whose SQL took effect, and is copied, committed and lost
with the data; `sent` lists the steps whose SQL was sent, whatever became of it.

With a caller's transaction (`borrowed`) every statement of the run is part of that
transaction.  The executor neither commits it nor rolls it back; `session` adds the
caller, who commits if and only if the run returned no error.
-/
import AutoSql.Artifact.Plan
import AutoSql.Executor.History
import AutoSql.Lib.Proc

namespace AutoSql.Executor

open Artifacts Proc

/-! ### The database and what a run keeps -/

structure RuntimeState where
  fingerprint : GoString
  sourceRevision : GoString
  environment : GoString
  databaseIdentity : GoString
  deriving DecidableEq

/-- A precheck: a query and the largest count it may return. -/
structure Assertion where
  name : GoString
  query : GoString
  maxAllowed : Int
  deriving DecidableEq

structure CheckResult where
  name : GoString
  observed : Int
  maxAllowed : Int
  passed : Bool
  deriving DecidableEq

/-- The primary key of the history. -/
structure Key where
  artifactDigest : GoString
  stepID : GoString
  attempt : Nat
  deriving DecidableEq

def Row.key (r : Row) : Key := ⟨r.artifactDigest, r.stepID, r.attempt⟩

structure Data (σ : Type) where
  schema : σ
  rows : List Row
  effects : List Key
  deriving DecidableEq

structure LifecycleEvent where
  eventID : GoString
  type : GoString
  executionID : GoString
  target : GoString
  artifactDigest : GoString
  planDigest : GoString
  bundleDigest : GoString
  stepID : GoString
  guidance : GoString
  time : Int
  attempt : Nat
  deriving DecidableEq

structure Result where
  appliedSteps : Nat := 0
  lastConfirmed : GoString := []
  partially : Bool := false
  uncertain : Bool := false
  pendingStep : GoString := []
  executionID : GoString := []
  recoveryGuidance : GoString := []
  deriving DecidableEq

/-- SQL of a step that was sent, and whether inside a transaction. -/
structure Sent where
  key : Key
  inside : Bool
  deriving DecidableEq

/-- What the steps of a plan work on. -/
structure Core (σ : Type) where
  db : Data σ
  tx : Option (Data σ)
  sent : List Sent
  deriving DecidableEq

/-- The core, the lifecycle audit, and the executor's own record of its run. -/
structure World (σ : Type) where
  core : Core σ
  log : List LifecycleEvent
  ticks : Nat
  result : Result
  checks : List CheckResult
  deriving DecidableEq

/-- The data a statement of the session sees. -/
def Core.data {σ : Type} (c : Core σ) : Data σ := c.tx.getD c.db

def Core.store {σ : Type} (c : Core σ) (d : Data σ) : Core σ :=
  match c.tx with
  | none => { c with db := d }
  | some _ => { c with tx := some d }

/-- The database engine: what SQL does to a schema (`none` is an SQL error), what an
inspection sees and what a precheck counts. -/
structure Backend (σ : Type) where
  exec : GoString → σ → Option σ
  inspect : σ → RuntimeState
  observe : Assertion → σ → Int

/-- The configuration that `NewPostgreSQL` accepts, with the clock, and whether
another session holds the lock. -/
structure Config where
  audits : Bool
  lockedSession : Bool
  lockAlreadyHeld : Bool
  borrowed : Bool
  reauthorizes : Bool
  confirms : Bool
  attempt : Nat
  clock : Nat → Int
  contended : Bool
  attempt_pos : 1 ≤ attempt
  held_locked : lockAlreadyHeld = true → lockedSession = true
  borrowed_locked : borrowed = true → lockedSession = true

inductive ExecError
  | audit | connect | lockIdentity | lockQuery | busy | expired | inspect | stale
  | createHistory | upgrade | readRecovery | reconcile | readConfirmed | bindingConflict | duplicate
  | precheckQuery | precheck (name : GoString) | begin | executeStep | writeHistory | rollback
  | rollbackAudit | rollbackAndAudit | commit | postcondition | readback | partially
  deriving DecidableEq

/-- Joined errors, in the order of `errors.Join`. -/
abbrev Failure := List ExecError

abbrev Exec (σ : Type) : Type → Type := Proc (World σ) Failure

variable {σ : Type} (b : Backend σ) (cfg : Config) (a : VerifiedArtifact)

variable (checks : List Assertion) (w : World σ)

/-- A change of the core. -/
def World.onCore (f : Core σ → Option (Core σ)) : Option (World σ) :=
  (f w.core).map fun c => { w with core := c }

/-- A statement of the session: inside its transaction, if there is one. -/
def statement (f : Data σ → Option (Data σ)) (e : Failure) : Exec σ Unit :=
  call (fun w => w.onCore fun c => (f c.data).map c.store) e

/-! ### The lifecycle audit -/

def lifecycleEventID (attempt : Nat) (executionID type stepID : GoString) : GoString :=
  str "sha256:" ++ GoString.hexEncode (Sha256.sum256
    (GoString.itoa attempt ++ 0 :: executionID ++ 0 :: type ++ 0 :: stepID))

variable (type : GoString)

def event (step guidance : GoString) (time : Int) : LifecycleEvent where
  eventID := lifecycleEventID cfg.attempt a.digest type step
  type := type
  executionID := a.digest
  target := targetIdentity a.toArtifact
  artifactDigest := a.digest
  planDigest := a.plan.digest
  bundleDigest := a.guardrailDigest
  stepID := step
  guidance := guidance
  time := time
  attempt := cfg.attempt

def now : Exec σ Int := do
  let w ← look
  keep fun w => { w with ticks := w.ticks + 1 }
  pure (cfg.clock w.ticks)

def audit (step guidance : GoString) : Exec σ Unit :=
  onlyIf (cfg.audits = true) do
    let t ← now cfg
    call (fun w => some { w with log := w.log ++ [event cfg a type step guidance t] }) [.audit]

/-- Audit a refusal and return it; only the failed audit is reported if that fails. -/
def refuse (guidance : GoString) (e : Failure) : Exec σ Unit := do
  audit cfg a type [] guidance
  fail e

/-- Audit a failure and return it, joined with the failure of the audit. -/
def failWith (step guidance : GoString) (e : Failure) : Exec σ Unit := do
  onError (audit cfg a type step guidance) fun _ => fail (e ++ [.audit])
  fail e

/-- The outcome of a step or of a commit is not known. -/
def uncertain (step guidance : GoString) : Exec σ Unit := do
  keep fun w => { w with result := { w.result with
    uncertain := true, pendingStep := step, executionID := a.digest, recoveryGuidance := guidance } }
  failWith cfg a (str "uncertain") step guidance [.reconcile]

/-- Audit what has been applied; a failure leaves the execution partially applied. -/
def auditApplied (step guidance : GoString) : Exec σ Unit :=
  onError (audit cfg a type step []) fun _ => do
    keep fun w => { w with result := { w.result with
      partially := true, executionID := a.digest, recoveryGuidance := guidance } }
    fail [.partially]

/-! ### Before the first step -/

def lock : Exec σ Unit := do
  onlyIf (a.databaseIdentity = [] ∨ a.targetEnvironment = []) (fail [.lockIdentity])
  onlyIf (cfg.lockAlreadyHeld = false) <|
    onError (do ask [.lockQuery]; onlyIf (cfg.contended = true) (fail [.busy])) fun e => do
      audit cfg a (str "contended") [] []
      fail e

def reauthorize : Exec σ Unit :=
  onlyIf (cfg.reauthorizes = true) <|
    onError (ask [.expired]) fun _ => refuse cfg a (str "authorization_refused") [] [.expired]

def checkExpiry : Exec σ Unit := do
  let t ← now cfg
  onlyIf (t < a.createdAt ∨ ¬ t < a.expiresAt) (refuse cfg a (str "expiry_refused") [] [.expired])

def readState : Exec σ RuntimeState := do
  ask [.inspect]
  let w ← look
  pure (b.inspect w.core.data.schema)

/-- The live state has the fingerprint and is the artifact's target. -/
def matchesState (fingerprint : GoString) (s : RuntimeState) : Bool :=
  Text.equalFold s.fingerprint fingerprint ∧ s.sourceRevision = a.sourceRevision ∧
    s.environment = a.targetEnvironment ∧ s.databaseIdentity = a.databaseIdentity

def atTarget (s : RuntimeState) : Bool := matchesState a a.plan.toFingerprint s

def atSource (s : RuntimeState) : Bool := matchesState a a.plan.fromFingerprint s

def ensureHistory : Exec σ Unit := do
  ask [.createHistory]
  ask [.upgrade]

/-- The rows of this artifact and attempt. -/
def ofAttempt (r : Row) : Prop := r.artifactDigest = a.digest ∧ r.attempt = cfg.attempt

instance (r : Row) : Decidable (ofAttempt cfg a r) := inferInstanceAs (Decidable (_ ∧ _))

def refuseUncertain : Exec σ Unit := do
  ask [.readRecovery]
  let w ← look
  onlyIf (∃ r ∈ w.core.data.rows, ofAttempt cfg a r ∧ r.state = .intended)
    (refuse cfg a (str "reconcile_refused") (str "reconcile pending execution before retry") [.reconcile])

/-- The row is one of the artifact's own, with the fields that bind it. -/
def bindingMatches (r : Row) : Bool :=
  match a.plan.stepOf r.stepID, a.plan.phaseOf r.stepID with
  | some s, some p =>
    decide (s.id ≠ [] ∧ p.id ≠ [] ∧ s.kind ≠ .topology ∧ r.stepHash = stepHash s ∧ r.phaseID = p.id ∧
      r.phaseMode = p.transaction ∧ r.executionID = a.digest ∧ r.targetIdentity = targetIdentity a.toArtifact ∧
      r.planDigest = a.plan.digest ∧ r.bundleDigest = a.guardrailDigest)
  | _, _ => false

def addConfirmed (out : GoSet) (r : Row) : Except ExecError GoSet :=
  if bindingMatches a r = false then .error .bindingConflict
  else if GoSet.has out r.stepID then .error .duplicate
  else .ok (GoSet.add out r.stepID)

def confirmedRows (rows : List Row) : Except ExecError GoSet :=
  (rows.filter fun r => ofAttempt cfg a r ∧ r.state = .confirmed).foldlM (addConfirmed a) GoMap.empty

def confirmedSteps : Exec σ GoSet := do
  ask [.readConfirmed]
  let w ← look
  match confirmedRows cfg a w.core.data.rows with
  | .ok confirmed => pure confirmed
  | .error e => fail [e]

def runCheck (x : Assertion) : Exec σ Unit := do
  ask [.precheckQuery]
  let w ← look
  let observed := b.observe x w.core.data.schema
  keep fun w => { w with checks := w.checks ++ [⟨x.name, observed, x.maxAllowed, observed ≤ x.maxAllowed⟩] }
  onlyIf (¬ observed ≤ x.maxAllowed) (fail [.precheck x.name])

def runChecks : Exec σ Unit := forEach (runCheck b) checks

/-! ### The steps -/

def stepKey (s : Step) : Key := ⟨a.digest, s.id, cfg.attempt⟩

def historyRow (s : Step) (p : Phase) (state : RowState) : Row where
  artifactDigest := a.digest
  stepID := s.id
  stepHash := stepHash s
  phaseID := p.id
  phaseMode := p.transaction
  state := state
  executionID := a.digest
  targetIdentity := targetIdentity a.toArtifact
  planDigest := a.plan.digest
  bundleDigest := a.guardrailDigest
  attempt := cfg.attempt

/-- A new row; the primary key refuses a second one. -/
def addRow (r : Row) (d : Data σ) : Option (Data σ) :=
  if r.key ∈ d.rows.map Row.key then none else some { d with rows := d.rows ++ [r] }

def insertHistory (s : Step) (p : Phase) (state : RowState) : Exec σ Unit :=
  statement (addRow (historyRow cfg a s p state)) [.writeHistory]

/-- The SQL of a step, with its entry in the log of effects. -/
def effect (s : Step) (d : Data σ) : Option (Data σ) :=
  (b.exec s.sql d.schema).map fun schema => { d with schema := schema, effects := d.effects ++ [stepKey cfg a s] }

def send (inside : Bool) (s : Step) : Exec σ Unit := do
  keep fun w => { w with core := { w.core with sent := w.core.sent ++ [⟨stepKey cfg a s, inside⟩] } }
  statement (effect b cfg a s) [.executeStep]

/-- The steps of a list of IDs that are left to execute. -/
def pending (confirmed : GoSet) (ids : List GoString) : List Step :=
  (ids.filter fun id => ¬ GoSet.has confirmed id).filterMap fun id =>
    (a.plan.stepOf id).filter fun s => s.kind = .executable

def lastOf (steps : List Step) (last : GoString) : GoString := (steps.getLast?.map Step.id).getD last

def beginPhase : Exec σ Unit :=
  onlyIf (cfg.borrowed = false) <|
    onError (call (fun w => w.onCore fun c => some { c with tx := some c.db }) [.begin]) fun e =>
      failWith cfg a (str "transaction_begin_failed") [] [] e

def rollbackPhase (e : Failure) : Exec σ Unit := do
  onError (onlyIf (cfg.borrowed = false) (call (fun w => w.onCore fun c => some { c with tx := none }) [.rollback]))
    fun _ => do
      let guidance := str "reconcile failed rollback before retry"
      keep fun w => { w with result := { w.result with
        uncertain := true, executionID := a.digest, recoveryGuidance := guidance } }
      onError (audit cfg a (str "rollback_failed") [] guidance) fun _ =>
        fail (e ++ [.reconcile, .rollbackAndAudit])
      fail (e ++ [.reconcile])
  onError (audit cfg a (str "transaction_rollback") [] []) fun _ => fail (e ++ [.rollbackAudit])
  fail e

def commitPhase (last : GoString) : Exec σ Unit :=
  onlyIf (cfg.borrowed = false) <|
    onError (call (fun w => w.onCore fun c => some { c with db := c.data, tx := none }) [.commit]) fun _ =>
      uncertain cfg a last (str "reconcile transaction outcome before retry")

def transactionalStep (p : Phase) (s : Step) : Exec σ Unit := do
  onError (send b cfg a true s) fun e => failWith cfg a (str "transaction_failed") s.id [] e
  onError (insertHistory cfg a s p .confirmed) fun e => failWith cfg a (str "transaction_failed") s.id [] e

def phaseBody (p : Phase) (checks : List Assertion) (checksPending : Bool) (steps : List Step) : Exec σ Unit := do
  onlyIf (checksPending = true) <|
    onError (runChecks b checks) fun e => failWith cfg a (str "transaction_failed") [] [] e
  forEach (transactionalStep b cfg a p) steps

def transactionalPhase (confirmed : GoSet) (checks : List Assertion) (checksPending : Bool) (p : Phase) : Exec σ Unit := do
  let steps := pending a confirmed p.stepIDs
  audit cfg a (str "transaction_started") [] []
  beginPhase cfg a
  onError (phaseBody b cfg a p checks checksPending steps) (rollbackPhase cfg a)
  let w ← look
  let last := lastOf steps w.result.lastConfirmed
  commitPhase cfg a last
  keep fun w => { w with result := { w.result with
    appliedSteps := w.result.appliedSteps + steps.length, lastConfirmed := last } }
  onlyIf (cfg.borrowed = false) do
    auditApplied cfg a (str "transaction_committed") last (str "repair transaction commit audit before retry")
    forEach (fun s => auditApplied cfg a (str "confirmed") s.id (str "repair lifecycle audit before retry")) steps

/-- Set the row of a step from intended to confirmed; it must be there. -/
def confirmRow (r : Row) (d : Data σ) : Option (Data σ) :=
  if r ∈ d.rows then
    some { d with rows := d.rows.map fun x => if x = r then { x with state := .confirmed } else x }
  else none

def readBack (s : Step) : Exec σ Unit := do
  ask [.readback]
  let w ← look
  onlyIf (¬ ∃ r ∈ w.core.data.rows, r.key = stepKey cfg a s ∧ r.state = .confirmed ∧ r.stepHash = stepHash s)
    (fail [.readback])

def nontransactionalStep (p : Phase) (s : Step) : Exec σ Unit := do
  insertHistory cfg a s p .intended
  audit cfg a (str "intent") s.id []
  onError (send b cfg a cfg.borrowed s) fun _ =>
    uncertain cfg a s.id (str "reconcile statement outcome before retry")
  onlyIf (cfg.confirms = true) <| onError (ask [.postcondition]) fun _ =>
    uncertain cfg a s.id (str "reconcile postcondition before retry")
  onError (statement (confirmRow (historyRow cfg a s p .intended)) [.writeHistory]) fun _ =>
    uncertain cfg a s.id (str "reconcile confirmation persistence before retry")
  onError (readBack cfg a s) fun _ =>
    uncertain cfg a s.id (str "reconcile confirmation readback")
  keep fun w => { w with result := { w.result with
    appliedSteps := w.result.appliedSteps + 1, lastConfirmed := s.id } }
  auditApplied cfg a (str "confirmed") s.id (str "repair lifecycle audit before retry")

def nontransactionalPhase (confirmed : GoSet) (checks : List Assertion) (checksPending : Bool) (p : Phase) : Exec σ Unit := do
  onlyIf (checksPending = true) (runChecks b checks)
  forEach (nontransactionalStep b cfg a p) (pending a confirmed p.stepIDs)

def runPhase (confirmed : GoSet) (checks : List Assertion) (checksPending : Bool) (p : Phase) : Exec σ Unit :=
  match p.transaction with
  | .required => transactionalPhase b cfg a confirmed checks checksPending p
  | .prohibited => nontransactionalPhase b cfg a confirmed checks checksPending p

/-- The loop over the phases; the prechecks run with the first one. -/
def runPhases (confirmed : GoSet) (checks : List Assertion) : Bool → List Phase → Exec σ Unit
  | _, [] => pure ()
  | checksPending, p :: ps => do
    runPhase b cfg a confirmed checks checksPending p
    runPhases confirmed checks false ps

def finish : Exec σ Unit := do
  let w ← look
  onError (audit cfg a (str "completed") w.result.lastConfirmed []) fun _ => do
    onlyIf (w.result.appliedSteps > 0) do
      keep fun w => { w with result := { w.result with
        partially := true, executionID := a.digest, recoveryGuidance := str "repair lifecycle audit before retry" } }
      fail [.partially]
    fail [.audit]

/-- What follows once the live state is the artifact's source. -/
def execute : Exec σ Unit := do
  ensureHistory
  refuseUncertain cfg a
  let confirmed ← confirmedSteps cfg a
  runPhases b cfg a confirmed checks true a.plan.phases
  onlyIf (cfg.borrowed = false) (finish cfg a)

def prepare : Exec σ Unit := do
  keep fun w => { w with result := {}, checks := [] }
  audit cfg a (str "requested") [] []
  onlyIf (cfg.lockedSession = false) (ask [.connect])
  lock cfg a
  audit cfg a (str "lock_acquired") [] []
  reauthorize cfg a
  checkExpiry cfg a

def applyAuthorized : Exec σ Unit := do
  prepare cfg a
  let state ← readState b
  onlyIf (atTarget a state = false) do
    onlyIf (atSource a state = false) (refuse cfg a (str "stale") [] [.stale])
    execute b cfg a checks

/-! ### Whole runs -/

/-- A run with the caller around it, who owns the transaction of a `borrowed` one. -/
def session : Exec σ Unit := do
  onlyIf (cfg.borrowed = true) (keep fun w => { w with core := { w.core with tx := some w.core.db } })
  applyAuthorized b cfg a checks
  onlyIf (cfg.borrowed = true)
    (call (fun w => w.onCore fun c => some { c with db := c.data, tx := none }) [.commit])

/-- One run: its configuration, its artifact, the answers it gets, and what others
did to the schema before it. -/
structure Request (σ : Type) where
  config : Config
  artifact : VerifiedArtifact
  checks : List Assertion
  replies : Nat → Reply
  drift : σ → σ

def World.drift (f : σ → σ) : World σ :=
  { w with core := { w.core with db := { w.core.db with schema := f w.core.db.schema } } }

/-- When a run is over nothing of an open transaction is left. -/
def World.close : World σ := { w with core := { w.core with tx := none } }

def outcome (q : Request σ) : Outcome Failure Unit × Sys (World σ) :=
  session b q.config q.artifact q.checks ⟨w.drift q.drift, q.replies⟩

def after (q : Request σ) : World σ := (outcome b w q).2.state.close

/-- Runs one after another, as the lock orders them. -/
def afterAll (qs : List (Request σ)) : World σ := qs.foldl (after b) w

def start (schema : σ) (rows : List Row) : World σ := ⟨⟨⟨schema, rows, []⟩, none, []⟩, [], 0, {}, []⟩

end AutoSql.Executor
