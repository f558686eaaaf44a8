/-
AutoSql/Zdm/Rollback.lean

Package `rollback`: a zero-downtime migration that is not yet completed is withdrawn.

`rollback` is the model of `Rollback`; its loop over the phases is `runPhases`, by
recursion on the phases that are left, with `runPhase` its body.
-/
import AutoSql.Zdm.Control

namespace AutoSql.Zdm.Rollback

def version : GoString := str "autosql.zdm.rollback/v1"

def defaultSchema : GoString := str "autosql_zdm_rollback"

structure Spec where
  version : GoString
  operationID : GoString
  artifactDigest : GoString
  previousVersion : GoString
  newVersion : GoString
  digest : GoString
  deriving DecidableEq

/-- `At` of the source is 0 for the zero time. -/
structure Authorization where
  operator : GoString
  reason : GoString
  acknowledgeLossy : Bool
  authorizedAt : Int
  deriving DecidableEq

/-- What a state column can say; `blocked` is reported and never stored. -/
inductive Reported
  | stored (s : RollbackState)
  | blocked
  deriving DecidableEq

inductive ReportedPhase
  | stored (p : RollbackPhase)
  | eligibility
  deriving DecidableEq

structure Status where
  state : Option Reported
  phase : Option ReportedPhase
  previousVersion : GoString
  newVersion : GoString
  blockers : List GoString
  recoveryActions : List GoString
  lastError : GoString
  deriving DecidableEq, Inhabited

/-! ### Specifications -/

/-- `json.Marshal` of the specification without its digest. -/
def Spec.json (s : Spec) : Json :=
  .obj [(str "Version", .str s.version), (str "OperationID", .str s.operationID), (str "ArtifactDigest", .str s.artifactDigest),
    (str "PreviousVersion", .str s.previousVersion), (str "NewVersion", .str s.newVersion), (str "Digest", .str [])]

def digest (s : Spec) : GoString := jsonDigest s.json

def Spec.validate (s : Spec) : Except Error Unit :=
  if s.version ≠ Rollback.version ∨ ident s.operationID = false ∨ hex64 s.artifactDigest = false ∨ ident s.previousVersion = false ∨
      ident s.newVersion = false ∨ s.previousVersion = s.newVersion ∨ Rollback.digest s ≠ s.digest then
    .error (.invalid (str "specification"))
  else .ok ()

/-- `New`, before it validates. -/
def new (operation artifact previous next : GoString) : Spec :=
  let s : Spec := ⟨version, operation, artifact, previous, next, []⟩
  { s with digest := Rollback.digest s }

/-! ### Eligibility -/

def eligibilityBlockers (e : Eligibility) (a : Authorization) : List GoString :=
  e.blockers ++
  (if e.active then [] else [str "migration is not active"]) ++
  (if e.completed then [str "completed migration requires a forward repair, not rollback"] else []) ++
  (if e.previousWritable then [] else [str "previous version is not writable"]) ++
  (if e.lossy ∧ e.reverseAvailable = false ∧ a.acknowledgeLossy = false then
    [str "lossy transformation risk requires explicit acknowledgement"] else []) ++
  (if a.operator = [] ∨ a.reason = [] ∨ a.authorizedAt = 0 then [str "operator, reason, and authorization time required"] else [])

/-! ### Programs -/

def defaults (c : Config) : Except Error Config := Zdm.defaults defaultSchema (str "config") c

def marker : GoString := str "autosql:zdm:rollback:v1"

/-- Unlike the other packages this one marks its schema only, and takes no lock to create it. -/
def ensure (c : Config) : Program Status Unit := do
  ensureSchema c.schema marker
  createTable c.schema (str "operations")
  createTable c.schema (str "audit")

/-- The status is read without validating the specification. -/
def statusOf (cfg : Config) (s : Spec) : Program Status Status := do
  let cfg ← lift (defaults cfg)
  let _ ← sql .session
  let w ← sql (.rollback cfg.key .select)
  match w.rollbacks cfg.key with
  | none => giveUp .database
  | some r =>
    if r.specDigest ≠ s.digest then giveUp (.refused [])
    else
      let st : Status := ⟨some (.stored r.state), some (.stored r.phase), s.previousVersion, s.newVersion, [], [], r.lastError⟩
      pure (if r.state = .interrupted then
          { st with
            blockers := [str "rollback phase " ++ r.phase.name ++ str " incomplete"]
            recoveryActions := [str "inspect the phase's owned objects", str "retry rollback with identical specification"] }
        else st)

def steps : List RollbackPhase := [.withdrawNew, .removeCompatibility, .verifyPrevious]

/-- The steps from the recorded phase on; a phase that is no step starts from the beginning. -/
def stepsFrom : RollbackPhase → List RollbackPhase
  | .withdrawNew => steps
  | .removeCompatibility => steps.drop 1
  | .verifyPrevious => steps.drop 2
  | .complete => steps

/-- The phase after a step. -/
def next : RollbackPhase → RollbackPhase
  | .withdrawNew => .removeCompatibility
  | .removeCompatibility => .verifyPrevious
  | _ => .complete

section Loop

variable (cfg : Config) (s : Spec)

/-- `update … set …` of the row of the target. -/
def update (f : RollbackRow → RollbackRow) : Statement := .rollback cfg.key (.update f)

/-- The body of the loop. -/
def runPhase (p : RollbackPhase) : Program Status Unit := do
  Prog.attempt (update cfg fun r => { r with state := .running, phase := p })
  Prog.onError (act (.rollback p) s.newVersion) fun e => do
    Prog.attempt (update cfg fun r => { r with state := .interrupted, lastError := str "rollback phase failed" })
    let st ← orZero (statusOf cfg s)
    Prog.fail (st, e.2)
  let _ ← sql (update cfg fun r => { r with phase := next p })
  pure ()

def runPhases : List RollbackPhase → Program Status Unit
  | [] => pure ()
  | p :: l => do
    runPhase cfg s p
    runPhases l

end Loop

/-- The recorded operation before the inspection: it may belong to another plan, or be complete. -/
def existing (s : Spec) : Option RollbackRow → Except Error Bool
  | none => .ok false
  | some r =>
    if r.specDigest ≠ s.digest then .error (.refused (str "different operation owns target"))
    else .ok (r.state = .complete)

/-- What is returned if the migration cannot be rolled back. -/
def blocked (s : Spec) (blockers : List GoString) : Status :=
  ⟨some .blocked, some .eligibility, s.previousVersion, s.newVersion, blockers,
    [str "resolve every blocker", str "reinspect rollback eligibility", str "retry with a reasoned authorization"], []⟩

/-- From the recorded row on. -/
def resume (cfg : Config) (s : Spec) (e : Eligibility) (a : Authorization) (r : RollbackRow) : Program Status Status := do
  runPhases cfg s (stepsFrom r.phase)
  let _ ← sql (.audit ⟨str "rollback_completed", scope cfg, s.digest, a.operator, a.reason, e.lossy, e.reverseAvailable⟩)
  let _ ← sql (update cfg fun r => { r with state := .complete, phase := .complete, lastError := [] })
  statusOf cfg s

/-- After the inspection: the operation is recorded and its phases are run. -/
def proceed (cfg : Config) (s : Spec) (e : Eligibility) (a : Authorization) : Program Status Status := do
  let _ ← sql (.rollback cfg.key (.insert ⟨s.digest, .running, .withdrawNew, []⟩))
  let w ← sql (.rollback cfg.key .select)
  match w.rollbacks cfg.key with
  | none => giveUp .database
  | some r =>
    if r.specDigest ≠ s.digest then giveUp (.refused (str "different operation owns target"))
    else if r.state = .complete then statusOf cfg s
    else resume cfg s e a r

/-- What a call does when it has the lock of the target and the control schema is there. -/
def serve (cfg : Config) (s : Spec) (a : Authorization) : Program Status Status := do
  let w ← sql (.rollback cfg.key .select)
  let complete ← lift (existing s (w.rollbacks cfg.key))
  if complete then statusOf cfg s
  else do
    let w ← Prog.stmt .eligible (default, .caller)
    if eligibilityBlockers w.outside.eligibility a ≠ [] then
      Prog.fail (blocked s (eligibilityBlockers w.outside.eligibility a), .refused [])
    else proceed cfg s w.outside.eligibility a

/-- `Rollback`, called in session `me`. -/
def rollback (me : Nat) (cfg : Config) (s : Spec) (a : Authorization) : Program Status Status := do
  let cfg ← lift (defaults cfg)
  lift s.validate
  let _ ← sql .session
  let w ← sql (.tryLock (domain version cfg))
  if w.locks (domain version cfg) ≠ some me then giveUp (.refused (str "another lifecycle action is active"))
  else do
    ensure cfg
    serve cfg s a

/-! ### What a call says to the database -/

/-- `P` holds of all statements of the package for one target and specification that come after the inspection. -/
structure Allows (P : Statement → Prop) (cfg : Config) (s : Spec) : Prop where
  session : P .session
  leave : P .leave
  enter : ∀ p v, P (.enter (.rollback p) v)
  audit : ∀ r, P (.audit r)
  select : ∀ key, P (.rollback key .select)
  insert : P (.rollback cfg.key (.insert ⟨s.digest, .running, .withdrawNew, []⟩))
  update : ∀ f, (∀ r, (f r).specDigest = r.specDigest) → P (update cfg f)

section Only

variable {P : Statement → Prop}

theorem only_statusOf (hsession : P .session) (hselect : ∀ key, P (.rollback key .select)) (cfg : Config) (s : Spec) :
    (statusOf cfg s).Only P := by
  refine (only_lift _).bind fun cfg => (only_sql hsession).bind fun _ => (only_sql (hselect _)).bind fun w => ?_
  cases w.rollbacks cfg.key with
  | none => trivial
  | some r =>
    show Prog.Only P (if _ then _ else _ : Program Status Status)
    split_ifs <;> trivial

theorem only_ensure (h : ∀ f, P (.catalog f)) (c : Config) : (ensure c).Only P :=
  (only_ensureSchema h _ _).bind fun _ => (only_createTable h _ _).bind fun _ => only_createTable h _ _

variable {cfg : Config} {s : Spec} (h : Allows P cfg s)

include h

theorem only_runPhases (l : List RollbackPhase) : (runPhases cfg s l).Only P := by
  induction l with
  | nil => trivial
  | cons p l ih =>
    refine Prog.Only.bind ?_ fun _ => ih
    refine (Prog.Only.attempt (h.update _ ?_)).bind fun _ => Prog.Only.bind ?_ fun _ => (only_sql (h.update _ ?_)).bind fun _ => trivial
    · exact fun _ => rfl
    · refine (only_act (h.enter _ _) h.leave).onError fun _ => (Prog.Only.attempt (h.update _ ?_)).bind fun _ =>
        (only_orZero (only_statusOf h.session h.select _ _)).bind fun _ => trivial
      exact fun _ => rfl
    · exact fun _ => rfl

theorem only_proceed (e : Eligibility) (a : Authorization) : (proceed cfg s e a).Only P := by
  have hstatus : (statusOf cfg s).Only P := only_statusOf h.session h.select _ _
  refine (only_sql h.insert).bind fun _ => (only_sql (h.select _)).bind fun w => ?_
  cases w.rollbacks cfg.key with
  | none => trivial
  | some r =>
    show Prog.Only P (if _ then _ else if _ then _ else _ : Program Status Status)
    split_ifs
    · trivial
    · exact hstatus
    · refine (only_runPhases h _).bind fun _ => (only_sql (h.audit _)).bind fun _ => (only_sql (h.update _ ?_)).bind fun _ => hstatus
      exact fun _ => rfl

end Only

end AutoSql.Zdm.Rollback
