/-
AutoSql/Zdm/Start.lean

Package `start`: the phases that begin a zero-downtime migration.

`startWithHooks` is the model of `StartWithHooks`; its loop over the phases is `runPhases`,
by recursion on the phases that are left, with `runPhase` its body.  The caller's functions
are programs of their own (`Actions`), so that a phase may be one opaque action or the
concrete pipeline.
-/
import AutoSql.Zdm.Control

namespace AutoSql.Zdm.Start

def version : GoString := str "autosql.zdm.start/v1"

def defaultSchema : GoString := str "autosql_zdm_start"

structure Spec where
  version : GoString
  operationID : GoString
  artifactDigest : GoString
  previousVersion : GoString
  newVersion : GoString
  digest : GoString
  deriving DecidableEq

structure Status where
  operationID : GoString
  phase : Option StartPhase
  state : Option StartState
  previousVersion : GoString
  newVersion : GoString
  progress : Nat
  blockers : List GoString
  recoveryActions : List GoString
  lastError : GoString
  deriving DecidableEq, Inhabited

/-! ### Specifications -/

/-- `json.Marshal` of the specification without its digest. -/
def Spec.json (s : Spec) : Json :=
  .obj [(str "version", .str s.version), (str "operation_id", .str s.operationID), (str "artifact_digest", .str s.artifactDigest),
    (str "previous_version", .str s.previousVersion), (str "new_version", .str s.newVersion), (str "digest", .str [])]

def Spec.validate (s : Spec) : Except Error Unit :=
  if s.version ≠ Start.version ∨ ident s.operationID = false ∨ ident s.previousVersion = false ∨ ident s.newVersion = false ∨
      s.previousVersion = s.newVersion ∨ hex64 s.artifactDigest = false then
    .error (.invalid (str "identity or versions"))
  else if s.digest ≠ jsonDigest s.json then .error (.invalid (str "digest mismatch"))
  else .ok ()

/-- `New`, before it validates. -/
def new (operation artifact previous next : GoString) : Spec :=
  let s : Spec := ⟨version, operation, artifact, previous, next, []⟩
  { s with digest := jsonDigest s.json }

/-! ### Programs -/

def defaults (c : Config) : Except Error Config := Zdm.defaults defaultSchema (str "configuration") c

def marker : GoString := str "autosql:zdm:start:v1"

def ensure (c : Config) : Program Status Unit := Zdm.ensure marker (str "operations") (str "operations table collision") c.schema

def phases : List StartPhase := [.validate, .recordIntent, .expand, .compatibility, .backfill, .publish]

/-- The caller's functions. -/
structure Actions where
  validate : Program Status Unit
  expand : Program Status Unit
  compatibility : Program Status Unit
  backfill : Program Status Unit
  publish : Program Status Unit

/-- Every action is one call of the caller. -/
def Actions.single (version : GoString) : Actions :=
  ⟨act (.start .validate) version, act (.start .expand) version, act (.start .compatibility) version, act (.start .backfill) version,
    act (.start .publish) version⟩

def Actions.of (actions : Actions) : StartPhase → Program Status Unit
  | .validate => actions.validate
  | .recordIntent => pure ()
  | .expand => actions.expand
  | .compatibility => actions.compatibility
  | .backfill => actions.backfill
  | .publish => actions.publish
  | .complete => pure ()

/-- `Hooks.AfterPhase` -/
abbrev Hooks := Option (StartPhase → Program Status Unit)

/-- A hook that may fail and does nothing else, or none. -/
def Hooks.single : Bool → Hooks
  | true => some fun _ => do
    let _ ← Prog.stmt .session (default, .caller)
    pure ()
  | false => none

def statusOf (cfg : Config) (s : Spec) : Program Status Status := do
  let cfg ← lift (defaults cfg)
  lift s.validate
  let _ ← sql .session
  let w ← sql (.start cfg.key .select)
  match w.starts cfg.key with
  | none => giveUp .database
  | some r =>
    if r.specDigest ≠ s.digest then giveUp (.invalid (str "specification mismatch"))
    else
      let st : Status := ⟨r.operationID, some r.phase, some r.state, r.previousVersion, r.newVersion, r.progress * 100 / phases.length, [], [],
        r.lastError⟩
      let st := if r.state = .running ∨ r.state = .interrupted then
          { st with
            blockers := [str "phase " ++ r.phase.name ++ str " is incomplete"]
            recoveryActions := [str "retry start with the identical specification"] }
        else st
      pure (if r.phase = .backfill then
          { st with
            recoveryActions := [str "inspect backfill status", str "resume or cancel the backfill",
              str "retry start with the identical specification"] }
        else st)

def classify : GoString := str "phase action failed; retry start with the identical specification"

section Loop

variable (cfg : Config) (s : Spec) (actions : Actions) (hooks : Hooks)

/-- `update … set …` of the row of the target. -/
def update (f : StartRow → StartRow) : Statement := .start cfg.key (.update f)

/-- What is done on an error of a phase or of the hook after it. -/
def interrupt (msg : GoString) (e : Error) : Program Status Unit := do
  Prog.attempt (update cfg fun r => { r with state := .interrupted, lastError := msg })
  let st ← orZero (statusOf cfg s)
  Prog.fail (st, e)

/-- The hook after phase `p`, if there is one. -/
def runHook (p : StartPhase) : Program Status Unit :=
  match hooks with
  | none => pure ()
  | some hook => (hook p).onError fun e => interrupt cfg s (str "orchestrator interrupted after " ++ p.name) e.2

/-- The body of the loop for phase `n`, which is `p`. -/
def runPhase (n : Nat) (p : StartPhase) : Program Status Unit := do
  let _ ← sql (update cfg fun r => { r with phase := p, state := .running, lastError := [] })
  (actions.of p).onError fun e => interrupt cfg s classify e.2
  let _ ← sql (update cfg fun r => { r with progress := n + 1 })
  runHook cfg s hooks p

/-- The loop from phase `n` on. -/
def runPhases : Nat → List StartPhase → Program Status Unit
  | _, [] => pure ()
  | n, p :: l => do
    runPhase cfg s actions hooks n p
    runPhases (n + 1) l

end Loop

/-- The row of a new start. -/
def newRow (s : Spec) : StartRow :=
  ⟨s.operationID, s.digest, s.artifactDigest, s.previousVersion, s.newVersion, .validate, .pending, 0, []⟩

/-- What a call does when it has the lock of the target. -/
def serve (cfg : Config) (s : Spec) (actions : Actions) (hooks : Hooks) : Program Status Status := do
  let _ ← sql (.start cfg.key (.insert (newRow s)))
  let w ← sql (.start cfg.key .select)
  match w.starts cfg.key with
  | none => giveUp .database
  | some r =>
    if r.specDigest ≠ s.digest then giveUp (.invalid (str "another migration owns target/environment"))
    else if r.state = .complete then statusOf cfg s
    else do
      runPhases cfg s actions hooks r.progress (phases.drop r.progress)
      let _ ← sql (update cfg fun r => { r with phase := .complete, state := .complete, progress := phases.length, lastError := [] })
      statusOf cfg s

/-- `StartWithHooks`, called in session `me`. -/
def startWithHooks (me : Nat) (cfg : Config) (s : Spec) (actions : Actions) (hooks : Hooks) : Program Status Status := do
  let cfg ← lift (defaults cfg)
  lift s.validate
  let _ ← sql .session
  -- `set lock_timeout`
  let _ ← sql .session
  acquire me version .busy (ensure cfg) cfg
  serve cfg s actions hooks

/-! ### What a call says to the database -/

/-- `P` holds of all statements of the package for one target and specification, the caller's functions apart. -/
structure Allows (P : Statement → Prop) (cfg : Config) (s : Spec) : Prop where
  session : P .session
  select : ∀ key, P (.start key .select)
  insert : P (.start cfg.key (.insert (newRow s)))
  update : ∀ f, (∀ r, (f r).specDigest = r.specDigest) → P (update cfg f)

section Only

variable {P : Statement → Prop}

theorem only_statusOf (hsession : P .session) (hselect : ∀ key, P (.start key .select)) (cfg : Config) (s : Spec) :
    (statusOf cfg s).Only P := by
  refine (only_lift _).bind fun cfg => (only_lift _).bind fun _ => (only_sql hsession).bind fun _ => (only_sql (hselect _)).bind fun w => ?_
  cases w.starts cfg.key with
  | none => trivial
  | some r =>
    show Prog.Only P (if _ then _ else _ : Program Status Status)
    split_ifs <;> trivial

variable {cfg : Config} {s : Spec} (h : Allows P cfg s)

include h

theorem only_interrupt (msg : GoString) (e : Error) : (interrupt cfg s msg e).Only P := by
  refine (Prog.Only.attempt (h.update _ ?_)).bind fun _ => (only_orZero (only_statusOf h.session h.select _ _)).bind fun _ => trivial
  exact fun _ => rfl

variable {actions : Actions} {hooks : Hooks}

theorem only_runPhases (hactions : ∀ p, (actions.of p).Only P) (hhooks : ∀ hook, hooks = some hook → ∀ p, (hook p).Only P) (n : Nat)
    (l : List StartPhase) : (runPhases cfg s actions hooks n l).Only P := by
  induction l generalizing n with
  | nil => trivial
  | cons p l ih =>
    refine Prog.Only.bind ?_ fun _ => ih (n + 1)
    refine (only_sql (h.update _ ?_)).bind fun _ => ((hactions p).onError fun _ => only_interrupt h _ _).bind fun _ =>
      (only_sql (h.update _ ?_)).bind fun _ => ?_
    · exact fun _ => rfl
    · exact fun _ => rfl
    · cases hooks with
      | none => trivial
      | some hook => exact (hhooks hook rfl p).onError fun _ => only_interrupt h _ _

theorem only_serve (hactions : ∀ p, (actions.of p).Only P) (hhooks : ∀ hook, hooks = some hook → ∀ p, (hook p).Only P) :
    (serve cfg s actions hooks).Only P := by
  refine (only_sql h.insert).bind fun _ => (only_sql (h.select _)).bind fun w => ?_
  cases w.starts cfg.key with
  | none => trivial
  | some r =>
    show Prog.Only P (if _ then _ else if _ then _ else _ : Program Status Status)
    split_ifs
    · trivial
    · exact only_statusOf h.session h.select _ _
    · refine (only_runPhases h hactions hhooks _ _).bind fun _ => (only_sql (h.update _ ?_)).bind fun _ =>
        only_statusOf h.session h.select _ _
      exact fun _ => rfl

end Only

theorem only_single {P : Statement → Prop} {v : GoString} (henter : ∀ p, P (.enter (.start p) v)) (hleave : P .leave) (p : StartPhase) :
    ((Actions.single v).of p).Only P := by
  cases p <;> first | exact only_act (henter _) hleave | trivial

theorem only_hook {P : Statement → Prop} (hsession : P .session) (hook : StartPhase → Program Status Unit)
    {hooked : Bool} (h : Hooks.single hooked = some hook) (p : StartPhase) : (hook p).Only P := by
  cases hooked with
  | false => cases h
  | true =>
    cases h
    exact (Prog.Only.stmt hsession).bind fun _ => trivial

end AutoSql.Zdm.Start
