/-
AutoSql/Zdm/Contract.lean

Package `contract`: the destructive end of a zero-downtime migration, behind gates that
are looked at again before every step.

`complete` is the model of `Complete`.  Its loop is `runSteps`, by recursion on the steps
that are left, and `runStep` is its body.
-/
import AutoSql.Zdm.Control

namespace AutoSql.Zdm.Contract

def version : GoString := str "autosql.zdm.contract/v1"

def defaultSchema : GoString := str "autosql_zdm_contract"

structure Step where
  id : GoString
  summary : GoString
  sql : GoString
  recovery : GoString
  checkSQL : GoString
  transactional : Bool
  deriving DecidableEq

structure Spec where
  version : GoString
  operationID : GoString
  artifactDigest : GoString
  previousVersion : GoString
  newVersion : GoString
  steps : List Step
  digest : GoString
  deriving DecidableEq

structure Status where
  state : Option ContractState
  completedSteps : Nat
  totalSteps : Nat
  currentStep : GoString
  blockers : List GoString
  recoveryActions : List GoString
  lastError : GoString
  deriving DecidableEq, Inhabited

/-! ### Specifications -/

def Step.json (x : Step) : Json :=
  .obj [(str "ID", .str x.id), (str "Summary", .str x.summary), (str "SQL", .str x.sql), (str "Recovery", .str x.recovery),
    (str "CheckSQL", .str x.checkSQL), (str "Transactional", .bool x.transactional)]

/-- `json.Marshal` of the specification without its digest.  A slice without elements is nil here. -/
def Spec.json (s : Spec) : Json :=
  .obj [(str "Version", .str s.version), (str "OperationID", .str s.operationID), (str "ArtifactDigest", .str s.artifactDigest),
    (str "PreviousVersion", .str s.previousVersion), (str "NewVersion", .str s.newVersion),
    (str "Steps", if s.steps = [] then .null else .arr (s.steps.map Step.json)), (str "Digest", .str [])]

def digest (s : Spec) : GoString := jsonDigest s.json

/-- The loop of `Validate`; `seen` are the identifiers of the steps before. -/
def validSteps : List GoString → List Step → Bool
  | _, [] => true
  | seen, x :: l =>
    ident x.id && x.id ∉ seen && x.summary ≠ [] && x.sql ≠ [] && x.checkSQL ≠ [] && x.recovery ≠ [] && validSteps (x.id :: seen) l

def Spec.validate (s : Spec) : Except Error Unit :=
  if s.version ≠ Contract.version ∨ ident s.operationID = false ∨ hex64 s.artifactDigest = false ∨ ident s.previousVersion = false ∨
      ident s.newVersion = false ∨ s.previousVersion = s.newVersion ∨ s.steps = [] then
    .error (.invalid (str "identity, versions, artifact, or steps"))
  else if validSteps [] s.steps = false then .error (.invalid (str "complete unique steps required"))
  else if Contract.digest s ≠ s.digest then .error (.invalid (str "digest mismatch"))
  else .ok ()

/-- `New`, before it validates. -/
def new (operation artifact previous next : GoString) (steps : List Step) : Spec :=
  let s : Spec := ⟨version, operation, artifact, previous, next, steps, []⟩
  { s with digest := Contract.digest s }

/-! ### Gates -/

/-- The blockers; without any the next step may run. -/
def gate (e : Evidence) (a : Approval) (s : Spec) (now : Int) : List GoString :=
  e.blockers ++
  (if e.oldVersionSessions ≠ 0 then [str "old version has " ++ GoString.itoa e.oldVersionSessions ++ str " active sessions"] else []) ++
  (if e.backfillsComplete then [] else [str "backfill incomplete"]) ++
  (if e.checksPassed then [] else [str "checks failed"]) ++
  (if e.driftFree then [] else [str "compatibility or physical objects drifted"]) ++
  (if a.planDigest ≠ s.digest then [str "destructive approval is not bound to contract plan"] else []) ++
  (if a.approver = [] ∨ a.reason = [] then [str "approver and reason required"] else []) ++
  (if now < a.approvedAt ∨ a.expiresAt ≤ now then [str "destructive approval is not currently valid"] else [])

/-- What the claims of an operator and the outside must be for a step to run. -/
structure Open (e : Evidence) (a : Approval) (s : Spec) (now : Int) : Prop where
  noSessions : e.oldVersionSessions = 0
  backfilled : e.backfillsComplete = true
  checked : e.checksPassed = true
  driftFree : e.driftFree = true
  noBlockers : e.blockers = []
  bound : a.planDigest = s.digest
  named : a.approver ≠ [] ∧ a.reason ≠ []
  current : a.approvedAt ≤ now ∧ now < a.expiresAt

theorem gate_eq_nil {e : Evidence} {a : Approval} {s : Spec} {now : Int} : gate e a s now = [] ↔ Open e a s now := by
  simp only [gate, List.append_eq_nil_iff, ite_eq_right_iff, ite_eq_left_iff, List.cons_ne_self, imp_false, Bool.not_eq_true,
    not_not, Bool.not_eq_false, not_or, not_lt, not_le, ne_eq]
  constructor
  · rintro ⟨⟨⟨⟨⟨⟨⟨h₁, h₂⟩, h₃⟩, h₄⟩, h₅⟩, h₆⟩, h₇⟩, h₈⟩
    exact ⟨h₂, h₃, h₄, h₅, h₁, h₆, h₇, h₈⟩
  · rintro ⟨h₂, h₃, h₄, h₅, h₁, h₆, h₇, h₈⟩
    exact ⟨⟨⟨⟨⟨⟨⟨h₁, h₂⟩, h₃⟩, h₄⟩, h₅⟩, h₆⟩, h₇⟩, h₈⟩

/-! ### Programs -/

def defaults (c : Config) : Except Error Config := Zdm.defaults defaultSchema (str "config") c

def marker : GoString := str "autosql:zdm:contract:v1"

def ensure (c : Config) : Program Status Unit := Zdm.ensure marker (str "operations") (str "operations table collision") c.schema

def statusOf (cfg : Config) (s : Spec) : Program Status Status := do
  let cfg ← lift (defaults cfg)
  lift s.validate
  let _ ← sql .session
  let w ← sql (.contract cfg.key .select)
  match w.contracts cfg.key with
  | none => giveUp .database
  | some r =>
    if r.specDigest ≠ s.digest then giveUp (.refused (str "plan mismatch"))
    else
      let st : Status := ⟨some r.state, r.completedSteps, s.steps.length, r.currentStep, [], [], r.lastError⟩
      if r.state = .running ∨ r.state = .interrupted then
        pure { st with
          blockers := [str "contract step " ++ r.currentStep ++ str " incomplete"]
          recoveryActions := [str "perform the step recovery action from the approved preview", str "reinspect gates and retry completion"] }
      else pure st

section Loop

variable (cfg : Config) (s : Spec) (a : Approval)

/-- `update … set …` of the row of the target. -/
def update (f : ContractRow → ContractRow) : Statement := .contract cfg.key (.update f)

/-- The state is set to interrupted if that succeeds; then the status is read. -/
def interrupt (step : Option GoString) (msg : GoString) : Program Status Unit := do
  Prog.attempt (update cfg fun r => { r with state := .interrupted, currentStep := step.getD r.currentStep, lastError := msg })
  pure ()

/-- Step `x` is not run. -/
def refuse (x : Step) (blockers : List GoString) : Program Status Unit := do
  Prog.attempt (update cfg fun r => { r with state := .blocked, currentStep := x.id, lastError := str "gates refused" })
  let st ← orZero (statusOf cfg s)
  Prog.fail ({ st with
    blockers := blockers
    recoveryActions := [str "resolve every blocker", str "collect a fresh approval for contract digest " ++ s.digest,
      str "retry completion"] }, .refused [])

/-- The gates before step `x`. -/
def passGate (x : Step) : Program Status Unit := do
  let w ← Prog.stmt .inspect (default, .caller)
  let w' ← Prog.always (.gate w.outside.evidence a)
  if gate w.outside.evidence a s w'.outside.clock ≠ [] then refuse cfg s x (gate w.outside.evidence a s w'.outside.clock)
  else pure ()

/-- The step itself, unless its postcondition holds already. -/
def execute (n : Nat) (x : Step) (alreadyComplete : Bool) : Program Status Unit :=
  if alreadyComplete then pure ()
  else
    Prog.onError (act (.contract n) s.newVersion) fun e => do
      interrupt cfg none (str "contract step failed")
      let st ← orZero (statusOf cfg s)
      Prog.fail ({ st with recoveryActions := [x.recovery, str "reinspect gates and retry completion"] }, e.2)

/-- The postcondition of step `x` must hold now. -/
def postcondition (n : Nat) (x : Step) : Program Status Unit :=
  Prog.onError
    (do
      let w ← Prog.stmt (.check n x.checkSQL true) (default, .wrapped (str "verify contract step " ++ x.id))
      if w.outside.check x.checkSQL ≠ some true then
        giveUp (.wrapped (str "verify contract step " ++ x.id ++ str ": approved step postcondition is false"))
      else pure ())
    fun e => do
      interrupt cfg none (str "contract step postcondition failed")
      Prog.fail e

/-- The body of the loop for step `n`, which is `x`. -/
def runStep (n : Nat) (x : Step) : Program Status Unit := do
  passGate cfg s a x
  let w ← Prog.stmt (.check n x.checkSQL false) (default, .wrapped (str "verify contract step " ++ x.id ++ str " precondition"))
  let _ ← sql (update cfg fun r => { r with state := .running, currentStep := x.id, lastError := [] })
  execute cfg s n x (w.outside.check x.checkSQL = some true)
  postcondition cfg n x
  let _ ← sql (update cfg fun r => { r with completedSteps := n + 1 })
  pure ()

/-- The loop from step `n` on. -/
def runSteps : Nat → List Step → Program Status Unit
  | _, [] => pure ()
  | n, x :: l => do
    runStep cfg s a n x
    runSteps (n + 1) l

/-- The final verification and the end. -/
def finish : Program Status Status := do
  Prog.onError
    (do
      let _ ← Prog.stmt .verify (default, .caller)
      pure ())
    fun e => do
      interrupt cfg (some (str "final_inspection")) (str "final inspection failed")
      let st ← orZero (statusOf cfg s)
      Prog.fail ({ st with
        blockers := [str "final canonical inspection does not match the desired schema"]
        recoveryActions := [str "repair the reported final drift", str "retry completion with the identical approved plan"] }, e.2)
  let _ ← sql (update cfg fun r => { r with state := .complete, currentStep := [], lastError := [] })
  statusOf cfg s

end Loop

/-- What a call does when it has the lock of the target. -/
def serve (cfg : Config) (s : Spec) (a : Approval) : Program Status Status := do
  let _ ← sql (.contractInsert cfg.key ⟨s.digest, .pending, 0, [], []⟩ s.newVersion)
  let w ← sql (.contract cfg.key .select)
  match w.contracts cfg.key with
  | none => giveUp .database
  | some r =>
    if r.specDigest ≠ s.digest then giveUp (.refused (str "different contract plan owns target"))
    else if r.state = .complete then statusOf cfg s
    else do
      runSteps cfg s a r.completedSteps (s.steps.drop r.completedSteps)
      finish cfg s

/-- `Complete`, called in session `me`. -/
def complete (me : Nat) (cfg : Config) (s : Spec) (a : Approval) : Program Status Status := do
  let cfg ← lift (defaults cfg)
  lift s.validate
  let _ ← sql .session
  acquire me version (.refused (str "completion already active")) (ensure cfg) cfg
  serve cfg s a

/-! ### What a call says to the database -/

/-- `P` holds of all statements of the package for one target and specification. -/
structure Allows (P : Statement → Prop) (cfg : Config) (s : Spec) : Prop where
  session : P .session
  leave : P .leave
  enter : ∀ n v, P (.enter (.contract n) v)
  inspect : P .inspect
  gate : ∀ e a, P (.gate e a)
  check : ∀ n sql after, P (.check n sql after)
  verify : P .verify
  select : ∀ key, P (.contract key .select)
  insert : P (.contractInsert cfg.key ⟨s.digest, .pending, 0, [], []⟩ s.newVersion)
  update : ∀ f, (∀ r, (f r).specDigest = r.specDigest) → P (update cfg f)

section Only

variable {P : Statement → Prop}

theorem only_statusOf (hsession : P .session) (hselect : ∀ key, P (.contract key .select)) (cfg : Config) (s : Spec) :
    (statusOf cfg s).Only P := by
  refine (only_lift _).bind fun cfg => (only_lift _).bind fun _ => (only_sql hsession).bind fun _ => (only_sql (hselect _)).bind fun w => ?_
  cases w.contracts cfg.key with
  | none => trivial
  | some r =>
    show Prog.Only P (if _ then _ else if _ then _ else _ : Program Status Status)
    split_ifs <;> trivial

variable {cfg : Config} {s : Spec} (h : Allows P cfg s)

include h

theorem only_interrupt (step : Option GoString) (msg : GoString) : (interrupt cfg step msg).Only P := by
  refine (Prog.Only.attempt (h.update _ ?_)).bind fun _ => trivial
  exact fun _ => rfl

variable {a : Approval}

theorem only_passGate (x : Step) : (passGate cfg s a x).Only P := by
  refine (Prog.Only.stmt h.inspect).bind fun w => (Prog.Only.always (h.gate _ _)).bind fun w' => ?_
  split_ifs
  · refine (Prog.Only.attempt (h.update _ ?_)).bind fun _ => (only_orZero (only_statusOf h.session h.select _ _)).bind fun _ => trivial
    exact fun _ => rfl
  · trivial

theorem only_execute (n : Nat) (x : Step) (b : Bool) : (execute cfg s n x b).Only P := by
  unfold execute
  split_ifs
  · trivial
  · exact (only_act (h.enter _ _) h.leave).onError fun _ => (only_interrupt h _ _).bind fun _ =>
      (only_orZero (only_statusOf h.session h.select _ _)).bind fun _ => trivial

theorem only_postcondition (n : Nat) (x : Step) : (postcondition cfg n x).Only P := by
  refine Prog.Only.onError ((Prog.Only.stmt (h.check _ _ _)).bind fun w => ?_) fun _ => (only_interrupt h _ _).bind fun _ => trivial
  split_ifs <;> trivial

theorem only_runSteps (n : Nat) (l : List Step) : (runSteps cfg s a n l).Only P := by
  induction l generalizing n with
  | nil => trivial
  | cons x l ih =>
    refine Prog.Only.bind ?_ fun _ => ih (n + 1)
    refine (only_passGate h x).bind fun _ => (Prog.Only.stmt (h.check _ _ _)).bind fun w => (only_sql (h.update _ ?_)).bind fun _ =>
      (only_execute h n x _).bind fun _ => (only_postcondition h n x).bind fun _ => (only_sql (h.update _ ?_)).bind fun _ => trivial
    · exact fun _ => rfl
    · exact fun _ => rfl

theorem only_finish : (finish cfg s).Only P := by
  have hstatus : (statusOf cfg s).Only P := only_statusOf h.session h.select _ _
  refine Prog.Only.bind ?_ fun _ => (only_sql (h.update _ ?_)).bind fun _ => hstatus
  · refine Prog.Only.onError ?_ fun _ => (only_interrupt h _ _).bind fun _ => (only_orZero hstatus).bind fun _ => trivial
    exact (Prog.Only.stmt h.verify).bind fun _ => trivial
  · exact fun _ => rfl

theorem only_serve : (serve cfg s a).Only P := by
  refine (only_sql h.insert).bind fun _ => (only_sql (h.select _)).bind fun w => ?_
  cases w.contracts cfg.key with
  | none => trivial
  | some r =>
    show Prog.Only P (if _ then _ else if _ then _ else _ : Program Status Status)
    split_ifs
    · trivial
    · exact only_statusOf h.session h.select _ _
    · exact (only_runSteps h _ _).bind fun _ => only_finish h

end Only

end AutoSql.Zdm.Contract
