/-
AutoSql/Zdm/World.lean

The database under the zero-downtime packages `start`, `contract`, `rollback` and
`backfill`, and the statements that they send to it.

A `World` holds the session advisory locks, the control schemas with their comments,
one operations table for each package, the backfill jobs with the application's tables,
and the answers that inspectors and check queries would give now.  Those answers and the
application's rows change at any time (`Env`); what the caller's functions do to them is
given by `effects`.

`affected` is the number of rows that the last update of a session reports.

Every call of the packages is a `Statement`; `exec` is its effect.  A statement that
waits for a lock is one that is not scheduled while the lock is held: if it is, it is
refused, as by a lock timeout.  A row that a transaction has written or locked has a
newer version next to the committed one (`Versioned`).

Three parts of the state are there for the statements of theorems only, and no program
reads them: `running`, the phase action a session is in; `counted`, the session whose open
transaction has counted the rows of a job; and `log`, what has happened so far.
-/
import AutoSql.Lib.GoMap
import AutoSql.Lib.Threads

namespace AutoSql.Zdm

open Function

/-! ### Rows -/

/-- The phases of a start, and the value of the column when all are done. -/
inductive StartPhase
  | validate
  | recordIntent
  | expand
  | compatibility
  | backfill
  | publish
  | complete
  deriving DecidableEq

def StartPhase.name : StartPhase → GoString
  | .validate => str "validate"
  | .recordIntent => str "record_intent"
  | .expand => str "expand"
  | .compatibility => str "compatibility"
  | .backfill => str "backfill"
  | .publish => str "publish"
  | .complete => str "complete"

inductive StartState
  | pending
  | running
  | interrupted
  | complete
  deriving DecidableEq

/-- A row of the operations table of package `start`. -/
structure StartRow where
  operationID : GoString
  specDigest : GoString
  artifactDigest : GoString
  previousVersion : GoString
  newVersion : GoString
  phase : StartPhase
  state : StartState
  progress : Nat
  lastError : GoString
  deriving DecidableEq

inductive ContractState
  | pending
  | running
  | blocked
  | interrupted
  | complete
  deriving DecidableEq

/-- A row of the operations table of package `contract`. -/
structure ContractRow where
  specDigest : GoString
  state : ContractState
  completedSteps : Nat
  currentStep : GoString
  lastError : GoString
  deriving DecidableEq

inductive RollbackPhase
  | withdrawNew
  | removeCompatibility
  | verifyPrevious
  | complete
  deriving DecidableEq

def RollbackPhase.name : RollbackPhase → GoString
  | .withdrawNew => str "withdraw_new"
  | .removeCompatibility => str "remove_compatibility"
  | .verifyPrevious => str "verify_previous"
  | .complete => str "complete"

inductive RollbackState
  | running
  | interrupted
  | complete
  deriving DecidableEq

/-- A row of the operations table of package `rollback`. -/
structure RollbackRow where
  specDigest : GoString
  state : RollbackState
  phase : RollbackPhase
  lastError : GoString
  deriving DecidableEq

/-- A row of the audit table of package `rollback`. -/
structure AuditRow where
  eventType : GoString
  scope : GoString
  subjectDigest : GoString
  operator : GoString
  reason : GoString
  lossy : Bool
  reverseAvailable : Bool
  deriving DecidableEq

inductive JobState
  | running
  | paused
  | cancelled
  | complete
  | failed
  deriving DecidableEq

/-- A job that no action of `Control` changes. -/
def JobState.terminal (s : JobState) : Bool := s = .complete || s = .cancelled

/-- A row of the jobs table of package `backfill`.  `remaining` is -1 until the rows are counted. -/
structure Job where
  jobID : GoString
  specDigest : GoString
  state : JobState
  processed : Int
  remaining : Int
  retries : Nat
  lastError : GoString
  deriving DecidableEq

/-- What a backfill is about. -/
structure BackfillSpec where
  version : GoString
  artifactDigest : GoString
  jobID : GoString
  physicalSchema : GoString
  table : GoString
  keyColumn : GoString
  sourceColumn : GoString
  destinationColumn : GoString
  transform : GoString
  digest : GoString
  deriving DecidableEq

/-! ### What inspectors report -/

structure Evidence where
  oldVersionSessions : Int
  backfillsComplete : Bool
  checksPassed : Bool
  driftFree : Bool
  blockers : List GoString
  deriving DecidableEq

/-- Times are counted in nanoseconds; the zero time of Go is 0. -/
structure Approval where
  planDigest : GoString
  approver : GoString
  reason : GoString
  approvedAt : Int
  expiresAt : Int
  deriving DecidableEq

structure Eligibility where
  active : Bool
  previousWritable : Bool
  completed : Bool
  lossy : Bool
  reverseAvailable : Bool
  blockers : List GoString
  deriving DecidableEq

/-- What `validateLive` asks the catalog. -/
structure Live where
  unique : Bool
  columns : Bool
  privileges : Bool
  deriving DecidableEq

/-- What the outside would answer now.  A check query or a conversion can fail. -/
structure Outside where
  evidence : Evidence
  eligibility : Eligibility
  clock : Int
  check : GoString → Option Bool
  live : BackfillSpec → Option Live
  convert : GoString → GoString → Option GoString

/-! ### Rows with an uncommitted version -/

/-- A row, and the version of it that an open transaction has written or locked. -/
structure Versioned (α : Type) where
  committed : α
  newer : Option (Nat × α)
  deriving DecidableEq

namespace Versioned

variable {α : Type}

/-- The version that session `i` sees. -/
def view (i : Nat) (v : Versioned α) : α :=
  match v.newer with
  | some (j, a) => if j = i then a else v.committed
  | none => v.committed

/-- Another session than `i` has locked the row. -/
def lockedFor (i : Nat) (v : Versioned α) : Bool :=
  match v.newer with
  | some (j, _) => j ≠ i
  | none => false

/-- Session `i` writes `a`. -/
def write (i : Nat) (a : α) (v : Versioned α) : Versioned α := ⟨v.committed, some (i, a)⟩

/-- Session `i` commits. -/
def commit (i : Nat) (v : Versioned α) : Versioned α :=
  match v.newer with
  | some (j, a) => if j = i then ⟨a, none⟩ else v
  | none => v

/-- Session `i` rolls back. -/
def rollback (i : Nat) (v : Versioned α) : Versioned α :=
  match v.newer with
  | some (j, _) => if j = i then ⟨v.committed, none⟩ else v
  | none => v

end Versioned

/-- The values of a row; a column that is not there is null. -/
abbrev Cells := GoMap GoString

/-- A row of the application.  It is `busy` while a transaction of the application holds a lock on it. -/
structure Row where
  cells : Versioned Cells
  busy : Bool
  deriving DecidableEq

/-! ### The state -/

/-- A control schema and a scope in it. -/
abbrev Key := GoString × GoString

/-- A schema and a table. -/
abbrev Relation := GoString × GoString

/-- Schemas and tables with their comments. -/
structure Catalog where
  schemas : GoString → Option (Option GoString)
  tables : Relation → Option (Option GoString)

namespace Catalog

variable (c : Catalog)

/-- The schema is there, with the comment. -/
def setSchema (s : GoString) (comment : Option GoString) : Catalog :=
  { c with schemas := update c.schemas s (some comment) }

/-- The table is there, with the comment. -/
def setTable (r : Relation) (comment : Option GoString) : Catalog :=
  { c with tables := update c.tables r (some comment) }

/-- `create table if not exists` -/
def createTable (r : Relation) : Catalog := if (c.tables r).isSome then c else c.setTable r none

theorem createTable_schemas (r : Relation) : (c.createTable r).schemas = c.schemas := by
  unfold createTable
  split_ifs <;> rfl

theorem createTable_tables {r r' : Relation} (h : r' ≠ r) : (c.createTable r).tables r' = c.tables r' := by
  unfold createTable
  split_ifs
  · rfl
  · exact update_of_ne h _ _

end Catalog

/-- What a caller of the packages is asked to do in a phase. -/
inductive Action
  | start (p : StartPhase)
  | contract (step : Nat)
  | rollback (p : RollbackPhase)
  deriving DecidableEq

inductive Event
  | locked (i : Nat) (key : GoString)
  | inspected (i : Nat) (e : Evidence)
  | gated (i : Nat) (e : Evidence) (a : Approval) (now : Int)
  | checked (i : Nat) (step : Nat) (after : Bool) (result : Bool)
  | entered (i : Nat) (a : Action) (version : GoString)
  | verified (i : Nat)
  | contractStarted (version : GoString)
  | examined (i : Nat) (key : Key) (rows : List Cells)
  | completed (i : Nat) (key : Key)
  deriving DecidableEq

structure World where
  locks : GoString → Option Nat
  catalog : Catalog
  starts : Key → Option StartRow
  contracts : Key → Option ContractRow
  rollbacks : Key → Option RollbackRow
  audit : List AuditRow
  jobs : Key → Option (Versioned Job)
  tables : Relation → List Row
  inTx : Nat → Bool
  affected : Nat → Nat
  outside : Outside
  effects : Action → Outside → Outside
  running : Nat → Option Action
  counted : Key → Option Nat
  log : List Event

/-- A database in which none of the packages has been at work. -/
def World.fresh (o : Outside) (effects : Action → Outside → Outside) : World where
  locks _ := none
  catalog := ⟨fun _ => none, fun _ => none⟩
  starts _ := none
  contracts _ := none
  rollbacks _ := none
  audit := []
  jobs _ := none
  tables _ := []
  inTx _ := false
  affected _ := 0
  outside := o
  effects := effects
  running _ := none
  counted _ := none
  log := []

/-! ### Statements -/

/-- A statement on one row of a table: an insert that does nothing if the row is there, a select, an update. -/
inductive RowStmt (ρ : Type)
  | insert (r : ρ)
  | select
  | update (f : ρ → ρ)

def RowStmt.exec {ρ : Type} : RowStmt ρ → Option ρ → Option ρ
  | .insert r, none => some r
  | .insert _, some r => some r
  | .select, x => x
  | .update f, x => x.map f

inductive Statement
  -- connecting, `set …`: nothing of the state changes
  | session
  | tryLock (key : GoString)
  | lock (key : GoString)
  | unlock (key : GoString)
  | catalog (f : Catalog → Catalog)
  -- the caller's functions; `version` is the version that the call is about
  | enter (a : Action) (version : GoString)
  | leave
  | start (key : Key) (s : RowStmt StartRow)
  -- package contract
  | contractInsert (key : Key) (r : ContractRow) (version : GoString)
  | contract (key : Key) (s : RowStmt ContractRow)
  | inspect
  | gate (e : Evidence) (a : Approval)
  | check (step : Nat) (sql : GoString) (after : Bool)
  | verify
  -- package rollback
  | rollback (key : Key) (s : RowStmt RollbackRow)
  | eligible
  | audit (r : AuditRow)
  -- package backfill
  | live (s : BackfillSpec)
  | jobInsert (key : Key) (j : Job)
  | jobRead (key : Key)
  | beginTx
  | jobLock (key : Key)
  | countPending (key : Key)
  | jobUpdate (key : Key) (f : Job → Job)
  | fillBatch (s : BackfillSpec) (size : Nat)
  | existsPending (key : Key) (s : BackfillSpec)
  | commitTx (key : Key)
  | rollbackTx
  | jobRetry (key : Key)
  | jobFail (key : Key) (msg : GoString)
  | jobControl (key : Key) (state : JobState)
  -- `returned` marks the status that a batch returns with
  | jobStatus (key : Key) (returned : Bool)
  | disconnect (lockKey : GoString)

/-! ### Application rows -/

variable (convert : GoString → GoString → Option GoString) (s : BackfillSpec)

/-- The row has a source value and no destination value. -/
def BackfillSpec.pending (c : Cells) : Bool :=
  (c.get? s.sourceColumn).isSome && (c.get? s.destinationColumn).isNone

def BackfillSpec.relation : Relation := (s.physicalSchema, s.table)

variable (i : Nat)

/-- `select count(*) … where dest is null and source is not null` in session `i`. -/
def pendingCount (s : BackfillSpec) (rows : List Row) : Nat := rows.countP fun r => s.pending (r.cells.view i)

/-- `order by key`: the rows without a key come last. -/
def keyLE (r r' : Row × Nat) : Bool :=
  match r.1.cells.committed.get? s.keyColumn, r'.1.cells.committed.get? s.keyColumn with
  | some k, some k' => GoString.le k k'
  | some _, none => true
  | none, some _ => false
  | none, none => true

/-- The rows that `for update skip locked limit size` selects, by their index. -/
def picked (s : BackfillSpec) (size : Nat) (rows : List Row) : List Nat :=
  (((rows.zipIdx.filter fun r => s.pending (r.1.cells.view i) && r.1.cells.newer.isNone && !r.1.busy).insertionSort fun r r' =>
    keyLE s r r' = true).take size).map Prod.snd

/-- The new values of a selected row, `none` if the conversion fails.  A row without a key joins with no row. -/
def fillCells (c : Cells) : Option Cells :=
  match c.get? s.keyColumn, c.get? s.sourceColumn with
  | some _, some v => (convert s.transform v).map (c.insert s.destinationColumn ·)
  | _, _ => some c

/-- The `update` of a batch. -/
def fillRows (s : BackfillSpec) (picks : List Nat) (rows : List Row) :
    Option (List Row) :=
  rows.zipIdx.mapM fun r =>
    if r.2 ∈ picks then (fillCells convert s r.1.cells.committed).map fun c => { r.1 with cells := r.1.cells.write i c }
    else some r.1

/-- The rows that the transaction of session `i` has changed. -/
def changedCount (rows : List Row) : Nat :=
  rows.countP fun r =>
    match r.cells.newer with
    | some (j, c) => j = i ∧ c ≠ r.cells.committed
    | none => false

/-! ### What a statement does -/

namespace World

variable (w : World)

/-- Something happened. -/
def record (e : Event) : World := { w with log := w.log ++ [e] }

@[simp] theorem record_log (e : Event) : (w.record e).log = w.log ++ [e] := rfl

@[simp] theorem record_outside (e : Event) : (w.record e).outside = w.outside := rfl

variable (i : Nat)

/-- The caller's function for `a` is at work in session `i`. -/
def enter (a : Action) (v : GoString) : World :=
  ({ w with running := update w.running i (some a), outside := w.effects a w.outside } : World).record (.entered i a v)

/-- Take the advisory lock if it is free. -/
def takeLock (key : GoString) : World :=
  if w.locks key = none ∨ w.locks key = some i then
    ({ w with locks := update w.locks key (some i) } : World).record (.locked i key)
  else w

def releaseLock (key : GoString) : World :=
  if w.locks key = some i then { w with locks := update w.locks key none } else w

/-- The open transaction of session `i` is gone. -/
def rollbackTx : World :=
  { w with
    jobs := fun key => (w.jobs key).map (·.rollback i)
    tables := fun rel => (w.tables rel).map fun r => { r with cells := r.cells.rollback i }
    inTx := update w.inTx i false
    counted := fun key => if w.counted key = some i then none else w.counted key }

/-- The transaction of session `i` makes the job `key` complete. -/
def completes (key : Key) : Bool :=
  match w.jobs key with
  | some ⟨_, some (j, job)⟩ => j = i ∧ job.state = .complete
  | _ => false

/-- The open transaction of session `i` is committed, in which it works on the job `key`. -/
def commitTx (key : Key) : World :=
  { w with
    log := if w.completes i key then w.log ++ [.completed i key] else w.log
    jobs := fun key => (w.jobs key).map (·.commit i)
    tables := fun rel => (w.tables rel).map fun r => { r with cells := r.cells.commit i }
    inTx := update w.inTx i false
    counted := fun key => if w.counted key = some i then none else w.counted key }

/-- There is a job that an action of `Control` changes. -/
def controllable (key : Key) : Bool :=
  match w.jobs key with
  | some v => !v.committed.state.terminal
  | none => false

/-- An update of a job outside of a transaction.  It waits while a transaction has locked the row. -/
def updateJob (key : Key) (f : Job → Job) : Option World :=
  match w.jobs key with
  | none => some w
  | some v =>
    if v.newer.isSome ∨ w.inTx i = true then none
    else some { w with jobs := update w.jobs key (some ⟨f v.committed, none⟩) }

end World

/-- The effect of a statement of session `i`. -/
def exec : Statement → World → Option World
  | .session, w => some w
  | .tryLock key, w => some (w.takeLock i key)
  | .lock key, w => if w.locks key = none ∨ w.locks key = some i then some (w.takeLock i key) else none
  | .unlock key, w => some (w.releaseLock i key)
  | .catalog f, w => some { w with catalog := f w.catalog }
  | .enter a v, w => some (w.enter i a v)
  | .leave, w => some { w with running := update w.running i none }
  | .start key s, w => some { w with starts := update w.starts key (s.exec (w.starts key)) }
  | .contractInsert key r v, w =>
    match w.contracts key with
    | some _ => some w
    | none => some (({ w with contracts := update w.contracts key (some r) } : World).record (.contractStarted v))
  | .contract key s, w => some { w with contracts := update w.contracts key (s.exec (w.contracts key)) }
  | .inspect, w => some (w.record (.inspected i w.outside.evidence))
  | .gate e a, w => some (w.record (.gated i e a w.outside.clock))
  | .check n sql after, w => (w.outside.check sql).map fun b => w.record (.checked i n after b)
  | .verify, w => some (w.record (.verified i))
  | .rollback key s, w => some { w with rollbacks := update w.rollbacks key (s.exec (w.rollbacks key)) }
  | .eligible, w => some w
  | .audit r, w => some { w with audit := w.audit ++ [r] }
  | .live s, w => if (w.outside.live s).isSome then some w else none
  | .jobInsert key j, w =>
    if w.inTx i then none
    else
      match w.jobs key with
      | some _ => some w
      | none => some { w with jobs := update w.jobs key (some ⟨j, none⟩) }
  | .jobRead _, w => if w.inTx i then none else some w
  | .beginTx, w => if w.inTx i then none else some { w with inTx := update w.inTx i true }
  | .jobLock key, w =>
    match w.jobs key with
    | none => some w
    | some v =>
      if v.lockedFor i ∨ w.inTx i = false then none
      else some { w with jobs := update w.jobs key (some (v.write i (v.view i))) }
  | .countPending key, w =>
    if w.inTx i then some { w with counted := update w.counted key (some i) } else none
  | .jobUpdate key f, w =>
    match w.jobs key with
    | none => some w
    | some v =>
      if v.lockedFor i ∨ w.inTx i = false then none
      else some { w with jobs := update w.jobs key (some (v.write i (f (v.view i)))) }
  | .fillBatch s size, w =>
    if w.inTx i then
      (fillRows w.outside.convert i s (picked i s size (w.tables s.relation)) (w.tables s.relation)).map fun rows =>
        { w with tables := update w.tables s.relation rows }
    else none
  | .existsPending key s, w =>
    if w.inTx i then some (w.record (.examined i key ((w.tables s.relation).map fun r => r.cells.view i))) else none
  | .commitTx key, w => if w.inTx i then some (w.commitTx i key) else none
  | .rollbackTx, w => some (w.rollbackTx i)
  | .jobRetry key, w => w.updateJob i key fun j => { j with retries := j.retries + 1 }
  | .jobFail key msg, w => w.updateJob i key fun j => { j with state := .failed, lastError := msg }
  | .jobControl key st, w =>
    (w.updateJob i key fun j => if j.state.terminal then j else { j with state := st }).map fun w' =>
      { w' with affected := update w.affected i (if w.controllable key then 1 else 0) }
  | .jobStatus _ _, w => some w
  | .disconnect key, w => some ((w.rollbackTx i).releaseLock i key)

/-- What remains when session `i` is gone: its locks are released and its transaction is rolled back. -/
def close (w : World) : World :=
  { w.rollbackTx i with
    locks := fun key => if w.locks key = some i then none else w.locks key
    running := update w.running i none }

/-! ### What else happens -/

/-- What the outside can do: answer differently from now on, or write the rows of a table. -/
inductive Env
  | outside (o : Outside)
  | write (rel : Relation) (rows : List Row)

/-- Some transaction of a backfill has locked the row. -/
def Row.held (r : Row) : Bool := r.cells.newer.isSome

/-- The application leaves the rows alone that a backfill has locked. -/
def env : Env → World → Option World
  | .outside o, w => some { w with outside := o }
  | .write rel rows, w =>
    if rows.filter Row.held = (w.tables rel).filter Row.held then some { w with tables := update w.tables rel rows } else none

end AutoSql.Zdm
