/-
AutoSql/Zdm/Backfill.lean

Package `backfill`: the column of a new version is filled in batches, one transaction
each.

`batch`, `runBatch`, `run`, `control` and `statusOf` are the models of `batch`,
`RunBatch`, `Run`, `Control` and `StatusOf`.  A call of `RunBatch` has a connection of
its own, which is closed on every way out (`connected`).  What kind of error the
database reports is not in the state: a call gets it as an argument, the SQLSTATE of the
error of each attempt (`Faults`), `none` for an error that is not the database's.

`Run` may go on for ever, since `Remaining` need not reach zero; `run` makes a given
number of batches at most and stops there without returning.
-/
import AutoSql.Lib.Fallible
import AutoSql.Zdm.Control

namespace AutoSql.Zdm.Backfill

open List

def version : GoString := str "autosql.zdm.backfill/v1"

def defaultSchema : GoString := str "autosql_zdm_backfill"

structure Config where
  url : GoString
  schema : GoString
  target : GoString
  environment : GoString
  batchSize : Int
  maxRetries : Int
  lockTimeoutMS : Int
  statementTimeoutMS : Int
  maxRowsPerSecond : Int
  delay : Int
  backoff : Int
  deriving DecidableEq

structure Status where
  jobID : GoString
  state : Option JobState
  processed : Int
  remaining : Int
  retries : Nat
  lastError : GoString
  lastBatchRows : Nat
  deriving DecidableEq, Inhabited

/-! ### Specifications -/

/-- `json.Marshal` of the specification without its digest. -/
def json (s : BackfillSpec) : Json :=
  .obj [(str "version", .str s.version), (str "artifact_digest", .str s.artifactDigest), (str "job_id", .str s.jobID),
    (str "physical_schema", .str s.physicalSchema), (str "table", .str s.table), (str "key_column", .str s.keyColumn),
    (str "source_column", .str s.sourceColumn), (str "destination_column", .str s.destinationColumn), (str "transform", .str s.transform),
    (str "digest", .str [])]

/-- The type of a cast, `^value::([a-z_][a-z0-9_]*)$` -/
def castType (x : GoString) : Option GoString :=
  if GoString.hasPrefix x (str "value::") then
    match x.drop (str "value::").length with
    | [] => none
    | b :: s => if isLowerOrUnderscore b && s.all (fun c => isLowerOrUnderscore c || isDigit c) then some (b :: s) else none
  else none

/-- The SQL of a transform.  The type of a cast has no quote in it, so that quoting adds two. -/
def transformSQL (x value : GoString) : Except GoString GoString :=
  if x = str "value" then .ok value
  else if x = str "lower(value)" then .ok (str "pg_catalog.lower(" ++ value ++ str ")")
  else if x = str "upper(value)" then .ok (str "pg_catalog.upper(" ++ value ++ str ")")
  else if x = str "btrim(value)" then .ok (str "pg_catalog.btrim(" ++ value ++ str ")")
  else
    match castType x with
    | some t => .ok (str "(" ++ value ++ str ")::\"" ++ t ++ str "\"")
    | none => .error (str "unsupported transform")

def validate (s : BackfillSpec) : Except Error Unit :=
  if s.version ≠ version ∨ hex64 s.artifactDigest = false ∨ ident s.jobID = false ∨ ident s.physicalSchema = false ∨ ident s.table = false ∨
      ident s.keyColumn = false ∨ ident s.sourceColumn = false ∨ ident s.destinationColumn = false ∨ s.sourceColumn = s.destinationColumn then
    .error (.invalid (str "identity fields"))
  else
    match transformSQL s.transform (str "x") with
    | .error e => .error (.invalid (str "transform: " ++ e))
    | .ok _ => if jsonDigest (json s) ≠ s.digest then .error (.invalid (str "digest mismatch")) else .ok ()

/-- `New`, before it validates. -/
def new (artifact job schema table key source dest transform : GoString) : BackfillSpec :=
  let s : BackfillSpec := ⟨version, artifact, job, schema, table, key, source, dest, transform, []⟩
  { s with digest := jsonDigest (json s) }

/-! ### Configuration -/

def Config.withSchema (c : Config) : Config := if c.schema = [] then { c with schema := defaultSchema } else c

def defaults (c : Config) : Except Error Config :=
  let c := c.withSchema
  if c.url = [] ∨ c.target = [] ∨ c.environment = [] ∨ ident c.schema = false ∨ c.batchSize ≤ 0 ∨ 10000 < c.batchSize ∨ c.maxRetries < 0 ∨
      c.lockTimeoutMS ≤ 0 ∨ c.statementTimeoutMS ≤ 0 ∨ c.maxRowsPerSecond < 0 ∨ c.delay < 0 ∨ c.backoff < 0 then
    .error (.invalid (str "configuration"))
  else .ok c

theorem defaults_ok {c c' : Config} (h : defaults c = .ok c') : c' = c.withSchema := by
  simp only [defaults] at h
  split_ifs at h
  cases h
  rfl

/-- A configuration that has passed stays as it is. -/
theorem withSchema_again {c c' : Config} (h : defaults c = .ok c') : c'.withSchema = c' := by
  obtain rfl := defaults_ok h
  refine if_neg fun hnil => ?_
  simp [defaults, hnil, ident] at h

/-- The name of a job in the table and in its lock key. -/
def scope (c : Config) (s : BackfillSpec) : GoString :=
  jsonDigest (.arr [.str version, .str c.target, .str c.environment, .str s.artifactDigest, .str s.digest])

def jobKey (c : Config) (s : BackfillSpec) : Key := (c.schema, scope c s)

/-- The advisory lock of a job. -/
def domain (c : Config) (s : BackfillSpec) : GoString := str "autosql.zdm.backfill/v1/" ++ scope c s

/-! ### The control schema -/

def marker : GoString := str "autosql:zdm:backfill:v1"

def ensure (c : Config) : Program Status Unit := Zdm.ensure marker (str "jobs") (str "jobs table collision") c.schema

def validateExisting (c : Config) : Program Status Unit := do
  let w ← sql (.catalog id)
  if w.catalog.schemas c.schema ≠ some (some marker) ∨ w.catalog.tables (c.schema, str "jobs") ≠ some (some (marker ++ str ":jobs")) then
    giveUp (.invalid (str "backfill control state absent or untrusted"))
  else pure ()

/-! ### Status -/

/-- The error of a query without a row. -/
def noRows : Error := .wrapped (str "no rows in result set")

def Job.status (s : BackfillSpec) (j : Job) : Status := ⟨s.jobID, some j.state, j.processed, j.remaining, j.retries, j.lastError, 0⟩

/-- The body of `StatusOf`.  It reads on a connection of its own, so it sees what is committed. -/
def readStatus (returned : Bool) (c : Config) (s : BackfillSpec) : Program Status Status := do
  let c ← lift (defaults c)
  lift (validate s)
  let _ ← sql .session
  -- `set lock_timeout`, `set statement_timeout`
  let _ ← sql .session
  validateExisting c
  let w ← sql (.jobStatus (jobKey c s) returned)
  match w.jobs (jobKey c s) with
  | none => giveUp noRows
  | some v => pure (Job.status s v.committed)

def statusOf (c : Config) (s : BackfillSpec) : Program Status Status := readStatus false c s

/-! ### One batch -/

def validateLive (s : BackfillSpec) : Program Status Unit := do
  let w ← sql (.live s)
  match w.outside.live s with
  | none => giveUp .database
  | some l =>
    if l.unique = false then giveUp (.invalid (str "key column must have an exact valid single-column unique index"))
    else if l.columns = false then giveUp (.invalid (str "key/source/destination columns missing"))
    else if l.privileges = false then giveUp (.invalid (str "SELECT and UPDATE privileges required"))
    else pure ()

def newJob (s : BackfillSpec) : Job := ⟨s.jobID, s.digest, .running, 0, -1, 0, []⟩

def ensureJob (c : Config) (s : BackfillSpec) : Program Status Unit := do
  let _ ← sql (.jobInsert (jobKey c s) (newJob s))
  let w ← sql (.jobRead (jobKey c s))
  match w.jobs (jobKey c s) with
  | none => giveUp noRows
  | some v => if v.committed.specDigest ≠ s.digest then giveUp (.invalid (str "durable job spec mismatch")) else pure ()

section Batch

variable (me : Nat) (c : Config) (s : BackfillSpec)

/-- The rows are counted once, in the first batch. -/
def countRows (j : Job) : Program Status Unit :=
  if j.remaining < 0 then do
    let w ← sql (.countPending (jobKey c s))
    let n := pendingCount me s (w.tables s.relation)
    let _ ← sql (.jobUpdate (jobKey c s) fun j => { j with remaining := n })
    pure ()
  else pure ()

/-- A batch that has changed `n` rows. -/
def advance (n : Nat) (j : Job) : Job := { j with processed := j.processed + n, remaining := max (j.remaining - n) 0, lastError := [] }

/-- The rows of a job in state running.  It returns the number of rows that are changed. -/
def fill : Program Status Nat := do
  let w ← sql (.fillBatch s c.batchSize.toNat)
  let n := changedCount me (w.tables s.relation)
  let _ ← sql (.jobUpdate (jobKey c s) (advance n))
  let w ← sql (.existsPending (jobKey c s) s)
  if pendingCount me s (w.tables s.relation) = 0 then do
    let _ ← sql (.jobUpdate (jobKey c s) fun j => { j with state := .complete, remaining := 0 })
    pure n
  else pure n

/-- What a batch does between `begin` and `commit`. -/
def work : Program Status Nat := do
  -- `set local …`
  let _ ← sql .session
  let _ ← sql .session
  let _ ← sql .session
  let w ← sql (.jobLock (jobKey c s))
  match w.jobs (jobKey c s) with
  | none => giveUp noRows
  | some v =>
    let j := v.view me
    if j.specDigest ≠ [] ∧ j.specDigest ≠ s.digest then giveUp (.invalid (str "durable job spec mismatch"))
    else if j.state ≠ .running then pure 0
    else do
      countRows me c s j
      fill me c s

def batch : Program Status Nat := do
  let _ ← sql .beginTx
  (do
    let n ← work me c s
    let _ ← sql (.commitTx (jobKey c s))
    pure n).onError fun e => do
      Prog.attempt .rollbackTx
      Prog.fail e

/-- The SQLSTATE of the error of each attempt. -/
abbrev Faults := Nat → Option GoString

/-- The SQLSTATE of an error, if it is one of the database. -/
def sqlState (e : Error) (fault : Option GoString) : Option GoString := if e = .database then fault else none

def transient (state : Option GoString) : Bool :=
  state = some (str "40001") || state = some (str "40P01") || state = some (str "55P03") || state = some (str "57014")

/-- The text of `safeError`. -/
def safeError : Option GoString → GoString
  | some code => str "backfill database error SQLSTATE " ++ code
  | none => str "backfill batch failed"

/-- `st.LastBatchRows = n` -/
def Status.withRows (n : Nat) (st : Status) : Status := { st with lastBatchRows := n }

/-- One attempt, and what is done with the SQLSTATE of its error. -/
def attemptOnce (fault : Option GoString) (onFault : Option GoString → Program Status Status) : Program Status Status := do
  let r ← (Except.ok <$> batch me c s).onError fun e => pure (Except.error e.2)
  match r with
  | .ok n => Status.withRows n <$> (readStatus true c s).mapError fun e => (e.1.withRows n, e.2)
  | .error e => onFault (sqlState e fault)

/-- `recordError`, and the end of the call after it. -/
def recordError (code : Option GoString) : Program Status Status := do
  Prog.attempt (.jobFail (jobKey c s) (safeError code))
  let st ← orZero (statusOf c s)
  Prog.fail (st, .wrapped (safeError code))

/-- The attempts from number `attempt` on, if that many retries are left. -/
def attempts (faults : Faults) : Nat → Nat → Program Status Status
  | 0, attempt => attemptOnce me c s (faults attempt) (recordError c s)
  | left + 1, attempt => attemptOnce me c s (faults attempt) fun code =>
    if transient code then do
      Prog.attempt (.jobRetry (jobKey c s))
      -- waiting, unless the context is done
      let _ ← sql .session
      attempts faults left (attempt + 1)
    else recordError c s code

end Batch

/-- A program that closes its connection on every way out. -/
def connected {α : Type} (key : GoString) (p : Program Status α) : Program Status α := do
  let _ ← sql .session
  let a ← p.onError fun e => do
    let _ ← Prog.always (.disconnect key)
    Prog.fail e
  let _ ← Prog.always (.disconnect key)
  pure a

/-- `RunBatch`, called in session `me`. -/
def runBatch (me : Nat) (c : Config) (s : BackfillSpec) (faults : Faults) : Program Status Status := do
  let c ← lift (defaults c)
  lift (validate s)
  connected (domain c s) do
    -- `set lock_timeout`, `set statement_timeout`
    let _ ← sql .session
    let _ ← sql .session
    validateLive s
    ensure c
    let w ← sql (.tryLock (domain c s))
    if w.locks (domain c s) ≠ some me then giveUp .busy
    else do
      ensureJob c s
      attempts me c s faults c.maxRetries.toNat 0

/-- The loop of `Run`, for the batches from number `n` on. -/
def runFrom (me : Nat) (c : Config) (s : BackfillSpec) (faults : Nat → Faults) : Nat → Nat → Program Status Status
  | 0, _ => .hang
  | fuel + 1, n => do
    let st ← runBatch me c s (faults n)
    if st.state ≠ some .running ∨ st.remaining = 0 then pure st
    else do
      -- waiting, unless the context is done
      let _ ← sql .session
      runFrom me c s faults fuel (n + 1)

/-- `Run`, of which at most `fuel` batches are followed. -/
def run (me : Nat) (c : Config) (s : BackfillSpec) (faults : Nat → Faults) (fuel : Nat) : Program Status Status := do
  let c ← lift (defaults c)
  lift (validate s)
  runFrom me c s faults fuel 0

/-! ### Control -/

def actionState (action : GoString) : Option JobState :=
  if action = str "pause" then some .paused
  else if action = str "resume" then some .running
  else if action = str "cancel" then some .cancelled
  else none

/-- `Control`, called in session `me`. -/
def control (me : Nat) (c : Config) (s : BackfillSpec) (action : GoString) : Program Status Status := do
  let c ← lift (defaults c)
  lift (validate s)
  let _ ← sql .session
  validateExisting c
  match actionState action with
  | none => giveUp (.invalid (str "action"))
  | some state => do
    let w ← sql (.jobControl (jobKey c s) state)
    if w.affected me = 0 then giveUp (.invalid (str "job absent or terminal"))
    else statusOf c s

/-! ### The rows of a batch -/

/-- A row that a batch of session `i` has filled. -/
def Filled (convert : GoString → GoString → Option GoString) (i : Nat) (s : BackfillSpec) (r r' : Row) : Prop :=
  s.pending (r.cells.view i) = true ∧ r.cells.newer = none ∧
    ∃ c, fillCells convert s r.cells.committed = some c ∧ r' = { r with cells := r.cells.write i c }

/-- A picked row is pending, and no transaction has it. -/
theorem of_mem_picked {i : Nat} {s : BackfillSpec} {size : Nat} {rows : List Row} {r : Row} {n : Nat} (hr : (r, n) ∈ rows.zipIdx)
    (hn : n ∈ picked i s size rows) : s.pending (r.cells.view i) = true ∧ r.cells.newer = none := by
  obtain ⟨⟨r', n'⟩, hr', rfl⟩ := mem_map.mp hn
  have hmem := mem_filter.mp ((mem_insertionSort _).mp (mem_of_mem_take hr'))
  -- the same index is the same row
  obtain rfl : r' = r := by
    have h := mem_zipIdx_iff_getElem?.mp hr
    have h' := mem_zipIdx_iff_getElem?.mp hmem.1
    exact Option.some.inj (h'.symm.trans h)
  have hpick := hmem.2
  simp only [Bool.and_eq_true, Option.isNone_iff_eq_none] at hpick
  exact hpick.1

/-- A batch leaves a row as it is or fills it. -/
theorem fillRows_rows {convert : GoString → GoString → Option GoString} {i : Nat} {s : BackfillSpec} {size : Nat} {rows rows' : List Row}
    (h : fillRows convert i s (picked i s size rows) rows = some rows') :
    List.Forall₂ (fun r r' => r' = r ∨ Filled convert i s r r') rows rows' := by
  have hall := Fallible.forall₂_imp_of_mem (Fallible.mapM_some h) (S := fun r r' => r' = r.1 ∨ Filled convert i s r.1 r') ?_
  · have hmap := (forall₂_map_left_iff (R := fun r r' => r' = r ∨ Filled convert i s r r')).mpr hall
    rwa [zipIdx_map_fst] at hmap
  · rintro ⟨r, n⟩ hr r' hr'
    split_ifs at hr' with hn
    · obtain ⟨hp, hfree⟩ := of_mem_picked hr hn
      obtain ⟨c, hc, rfl⟩ := Option.map_eq_some_iff.mp hr'
      exact .inr ⟨hp, hfree, c, hc, rfl⟩
    · exact .inl (Option.some.inj hr').symm

/-! ### The statements of the calls that read -/

section Only

variable {P : Statement → Prop} {c : Config} {s : BackfillSpec}

theorem only_validateExisting (h : P (.catalog id)) : (validateExisting c).Only P := by
  refine (only_sql h).bind fun w => ?_
  split_ifs <;> trivial

theorem only_readStatus {returned : Bool} (hsession : P .session) (hcatalog : P (.catalog id)) (h : ∀ key, P (.jobStatus key returned)) :
    (readStatus returned c s).Only P := by
  refine (only_lift _).bind fun c => (only_lift _).bind fun _ => (only_sql hsession).bind fun _ => (only_sql hsession).bind fun _ =>
    (only_validateExisting hcatalog).bind fun _ => (only_sql (h _)).bind fun w => ?_
  cases w.jobs (jobKey c s) <;> trivial

theorem only_validateLive (h : P (.live s)) : (validateLive s).Only P := by
  refine (only_sql h).bind fun w => ?_
  cases w.outside.live s with
  | none => trivial
  | some l =>
    show Prog.Only _ (if _ then _ else if _ then _ else if _ then _ else _)
    split_ifs <;> trivial

theorem only_control {me : Nat} {action : GoString} (hsession : P .session) (hcatalog : P (.catalog id)) (h : ∀ key, P (.jobStatus key false))
    (hcontrol : ∀ st, actionState action = some st → P (.jobControl (jobKey c.withSchema s) st)) : (control me c s action).Only P := by
  cases hc : defaults c with
  | error e =>
    rw [control, hc]
    trivial
  | ok c' =>
    obtain rfl := defaults_ok hc
    rw [control, hc]
    show Prog.Only P (lift (validate s) >>= _)
    refine (only_lift _).bind fun _ => (only_sql hsession).bind fun _ => (only_validateExisting hcatalog).bind fun _ => ?_
    cases hst : actionState action with
    | none => trivial
    | some st =>
      refine (only_sql (hcontrol st hst)).bind fun w => ?_
      split_ifs
      · trivial
      · exact only_readStatus hsession hcatalog h

end Only

end AutoSql.Zdm.Backfill
