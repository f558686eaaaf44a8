/-
AutoSql/Plan/Model.lean

Execution plans as the planner binds and checks them.

A renderer answers a change set with statements, each under the ID of a change.
`bindSteps` turns them into steps: it gives each statement an identity, a lock
level, an impact, and the steps it depends on.  `Plan.validate` reads the
statements back from the steps, binds them again and compares the result with
the steps as JSON; the phases and the digest are computed again as well.
`editSQL` replaces the texts of the executable steps of a copy of the plan.

A nil slice and an empty one are written differently, so the steps and the phases
of a plan are optional lists.  `indexConcurrent` is the answer of PostgreSQL's
parser to the question whether a text is one `CREATE INDEX CONCURRENTLY`.

The enumerations are types here, and the three checks that a step has one of
their values are gone: what is written for a step that is bound again has one.
-/
import AutoSql.Artifact.Plan
import AutoSql.Lib.Record
import AutoSql.Schema.Diff

namespace AutoSql.Plans

open GoJson Schema Artifacts

def planVersion : GoString := str "autosql.plan/v1"

def plannerVersion : GoString := str "0.1.0"

inductive LockLevel
  | none
  | share
  | exclusive
  deriving DecidableEq

def LockLevel.string : LockLevel → GoString
  | .none => str "none"
  | .share => str "share"
  | .exclusive => str "exclusive"

def kindString : StepKind → GoString
  | .executable => str "executable"
  | .topology => str "topology"

structure Impact where
  destructive : Bool := false
  rewrites : Bool := false
  scans : Bool := false
  deriving DecidableEq

structure DriverIdentity where
  name : GoString
  version : GoString
  deriving DecidableEq

structure Step extends Artifacts.Step where
  changeID : GoString
  lock : LockLevel
  impact : Impact
  dependsOn : List GoString
  deriving DecidableEq

structure Plan where
  version : GoString
  plannerVersion : GoString
  driver : DriverIdentity
  fromFingerprint : GoString
  toFingerprint : GoString
  renameHintsDigest : GoString := []
  changes : ChangeSet
  replay : List GoString := []
  steps : Option (List Step)
  phases : Option (List Phase)
  digest : GoString
  deriving DecidableEq

/-- The steps of a plan as a list. -/
def Plan.stepList (p : Plan) : List Step := p.steps.getD []

/-- A rendered statement with its originating change. -/
structure Statement where
  sql : GoString
  changeID : GoString
  transactional : Bool
  kind : StepKind
  deriving DecidableEq

inductive Error
  | identity
  | changes (why : Schema.Error)
  | emptyReplay
  | invalidStep
  | steps
  | phases
  | stepDependency
  | digest
  | noStatements
  | unbound
  | replayBinding
  | notPlannedEarlier (dep : GoString)
  | noStatement
  | json
  | editedCount
  | emptyEditedSQL
  deriving DecidableEq

/-! ### Wire format -/

/-- A slice that may be nil. -/
def slice {α : Type} (f : α → Json) : Option (List α) → Json
  | none => .null
  | some l => .arr (l.map f)

/-- A slice of strings that is left out when it is empty. -/
def unlessNil (l : List GoString) : Option Json := if l = [] then none else some (.arr (l.map .str))

def Impact.json (i : Impact) : Json :=
  .obj (present [(str "destructive", unlessFalse i.destructive), (str "rewrites", unlessFalse i.rewrites),
    (str "scans", unlessFalse i.scans)])

def Step.fields (s : Step) : List (GoString × Option Json) :=
  [(str "id", some (.str s.id)), (str "change_id", some (.str s.changeID)), (str "sql", some (.str s.sql)),
    (str "kind", some (.str (kindString s.kind))), (str "transaction", some (.str s.transaction.string)),
    (str "lock", some (.str s.lock.string)), (str "impact", some s.impact.json),
    (str "depends_on", unlessNil s.dependsOn)]

def Step.json (s : Step) : Json := .obj (present s.fields)

def phaseFields (p : Phase) : List (GoString × Option Json) :=
  [(str "id", some (.str p.id)), (str "transaction", some (.str p.transaction.string)),
    (str "step_ids", some (.arr (p.stepIDs.map .str)))]

def phaseJSON (p : Phase) : Json := .obj (present (phaseFields p))

/-- `Change.MarshalJSON`. -/
def changeJSON (c : Change) : Option Json := do
  let before ← optionalField (str "before") c.before.isSome (c.before.bind Resource.json)
  let after ← optionalField (str "after") c.after.isSome (c.after.bind Resource.json)
  let dependsOn ← optionalField (str "depends_on") (c.dependsOn ≠ []) (some (.arr (c.dependsOn.map .str)))
  let details ← optionalField (str "details") (c.details ≠ []) (decodeRaw c.details)
  let annotations ← optionalField (str "annotations") (c.annotations.size ≠ 0) (some (stringMap c.annotations))
  marshalWithExtra
    ([(str "id", .str c.id), (str "operation", .str c.operation.string), (str "resource_id", .str c.resourceID)] ++
      before ++ after ++ dependsOn ++ details ++ annotations) c.extra

/-- `ChangeSet.MarshalJSON`. -/
def changeSetJSON (cs : ChangeSet) : Option Json := do
  let changes ← cs.changes.mapM changeJSON
  let annotations ← optionalField (str "annotations") (cs.annotations.size ≠ 0) (some (stringMap cs.annotations))
  marshalWithExtra ([(str "version", .str cs.version), (str "changes", .arr changes)] ++ annotations) cs.extra

def DriverIdentity.json (d : DriverIdentity) : Json :=
  .obj (present [(str "name", some (.str d.name)), (str "version", some (.str d.version))])

/-- The fields of a plan; `changes` is the change set as a value. -/
def Plan.fields (p : Plan) (changes : Json) : List (GoString × Option Json) :=
  [(str "version", some (.str p.version)), (str "planner_version", some (.str p.plannerVersion)),
    (str "driver", some p.driver.json), (str "from_fingerprint", some (.str p.fromFingerprint)),
    (str "to_fingerprint", some (.str p.toFingerprint)),
    (str "rename_hints_digest", unlessEmpty p.renameHintsDigest), (str "changes", some changes),
    (str "replay", unlessNil p.replay), (str "steps", some (slice Step.json p.steps)),
    (str "phases", some (slice phaseJSON p.phases)), (str "digest", some (.str p.digest))]

def Plan.json (p : Plan) : Option Json :=
  (changeSetJSON p.changes).map fun changes => .obj (present (p.fields changes))

/-! ### Reading

A struct is read field by field.  Its texts here are written by the functions
above and have each field once. -/

/-- Reading one of the strings of an enumeration. -/
def decodeEnum {α : Type} (string : α → GoString) (values : List α) (_ : α) (raw : GoString) : Option α := do
  let s ← decodeString [] raw
  values.find? fun v => string v = s

def decodeStrings (old : List GoString) (raw : GoString) : Option (List GoString) :=
  (decodeSlice (decodeString []) (some old) raw).map fun l => l.getD []

variable (raw : GoString)

def Impact.unmarshal : Option Impact := do
  let ms ← rawMembers raw
  let destructive ← field (str "destructive") decodeBool false ms
  let rewrites ← field (str "rewrites") decodeBool false ms
  let scans ← field (str "scans") decodeBool false ms
  some ⟨destructive, rewrites, scans⟩

def Step.unmarshal : Option Step := do
  let ms ← rawMembers raw
  let id ← field (str "id") decodeString [] ms
  let changeID ← field (str "change_id") decodeString [] ms
  let sql ← field (str "sql") decodeString [] ms
  let kind ← field (str "kind") (decodeEnum kindString [.executable, .topology]) .executable ms
  let transaction ← field (str "transaction") (decodeEnum TransactionMode.string [.required, .prohibited]) .required ms
  let lock ← field (str "lock") (decodeEnum LockLevel.string [.none, .share, .exclusive]) .none ms
  let impact ← field (str "impact") (fun _ => Impact.unmarshal) {} ms
  let dependsOn ← field (str "depends_on") decodeStrings [] ms
  some ⟨⟨id, sql, kind, transaction⟩, changeID, lock, impact, dependsOn⟩

def unmarshalPhase : Option Phase := do
  let ms ← rawMembers raw
  let id ← field (str "id") decodeString [] ms
  let transaction ← field (str "transaction") (decodeEnum TransactionMode.string [.required, .prohibited]) .required ms
  let stepIDs ← field (str "step_ids") decodeStrings [] ms
  some ⟨id, transaction, stepIDs⟩

/-- Reading into a pointer to a resource. -/
def decodeResource (_ : Option Resource) (raw : GoString) : Option (Option Resource) :=
  match Json.parse raw with
  | some .null => some none
  | _ => some <$> Resource.unmarshal raw

/-- `Change.UnmarshalJSON`. -/
def unmarshalChange : Option Change := do
  let ms ← rawMembers raw
  let id ← field (str "id") decodeString [] ms
  let operation ← field (str "operation")
    (decodeEnum Operation.string [.create, .alter, .drop, .rename]) .create ms
  let resourceID ← field (str "resource_id") decodeString [] ms
  let before ← field (str "before") decodeResource none ms
  let after ← field (str "after") decodeResource none ms
  let dependsOn ← field (str "depends_on") decodeStrings [] ms
  let details ← field (str "details") decodeRawMessage [] ms
  let annotations ← field (str "annotations") decodeStringMap .empty ms
  some ⟨id, operation, resourceID, before, after, dependsOn, details, annotations,
    remove ms [str "id", str "operation", str "resource_id", str "before", str "after", str "depends_on",
      str "details", str "annotations"]⟩

/-- `ChangeSet.UnmarshalJSON`. -/
def unmarshalChangeSet : Option ChangeSet := do
  let ms ← rawMembers raw
  let version ← field (str "version") decodeString [] ms
  let changes ← field (str "changes") (decodeSlice unmarshalChange) none ms
  let annotations ← field (str "annotations") decodeStringMap .empty ms
  some ⟨version, changes.getD [], annotations, remove ms [str "version", str "changes", str "annotations"]⟩

def DriverIdentity.unmarshal : Option DriverIdentity := do
  let ms ← rawMembers raw
  let name ← field (str "name") decodeString [] ms
  let version ← field (str "version") decodeString [] ms
  some ⟨name, version⟩

def Plan.unmarshal : Option Plan := do
  let ms ← rawMembers raw
  let version ← field (str "version") decodeString [] ms
  let plannerVersion ← field (str "planner_version") decodeString [] ms
  let driver ← field (str "driver") (fun _ => DriverIdentity.unmarshal) ⟨[], []⟩ ms
  let fromFingerprint ← field (str "from_fingerprint") decodeString [] ms
  let toFingerprint ← field (str "to_fingerprint") decodeString [] ms
  let renameHintsDigest ← field (str "rename_hints_digest") decodeString [] ms
  let changes ← field (str "changes") (fun _ => unmarshalChangeSet) ⟨[], [], .empty, .empty⟩ ms
  let replay ← field (str "replay") decodeStrings [] ms
  let steps ← field (str "steps") (decodeSlice Step.unmarshal) none ms
  let phases ← field (str "phases") (decodeSlice unmarshalPhase) none ms
  let digest ← field (str "digest") decodeString [] ms
  some ⟨version, plannerVersion, driver, fromFingerprint, toFingerprint, renameHintsDigest, changes, replay, steps,
    phases, digest⟩

/-! ### Digest -/

def digestPlan (p : Plan) : Option GoString :=
  (Plan.json { p with digest := [] }).map fun j =>
    str "sha256:" ++ GoString.hexEncode (Sha256.sum256 (str "autosql.plan.digest/v1" ++ 0 :: j.encode))

/-- `Plan.MarshalCanonical`, of a plan that has been checked. -/
def Plan.canonical (p : Plan) : Option GoString := p.json.map fun j => j.encode ++ [0x0A]

/-! ### Locks and impact -/

section Bind

variable (indexConcurrent : GoString → Bool)

def lockFor (c : Change) (sql : GoString) : LockLevel :=
  if GoString.hasPrefix (Text.toUpper (Text.trimSpace sql)) (str "-- AUTOSQL TOPOLOGY:") then .none
  else if indexConcurrent sql then .share
  else if c.operation = .create ∧ c.after.any fun r => r.kind = kindSchema then .none
  else .exclusive

def simpleDefault (value : GoString) : Bool :=
  let value := Text.trimSpace value
  if value = str "true" ∨ value = str "false" ∨ value = str "NULL" then true
  else if 2 ≤ value.length ∧ value.head? = some 0x27 ∧ value.getLast? = some 0x27 ∧
      0x27 ∉ (value.drop 1).dropLast then true
  else value.all (fun b => isDigit b || b == 0x2E || b == 0x2D) && value ≠ []

/-- The member `key` of a specification, read into a map. -/
def specMember (spec key : GoString) : Option Json :=
  match GoFloat.unmarshalAny spec with
  | some (.obj ms) => lookupMember key ms
  | _ => none

/-- A column with a default that has to be computed. -/
def computedDefault (r : Resource) : Bool :=
  match specMember r.spec (str "default") with
  | some (.str d) => d ≠ [] && !simpleDefault d
  | _ => false

def notNull (r : Resource) : Bool :=
  match specMember r.spec (str "not_null") with
  | some (.bool b) => b
  | _ => false

/-- A column that becomes `NOT NULL`. -/
def becomesNotNull (c : Change) : Bool :=
  match c.before, c.after with
  | some b, some a => !notNull b && notNull a
  | _, _ => false

def constrains (r : Resource) : Bool :=
  [kindPrimaryKey, kindUniqueConstraint, kindCheckConstraint, kindForeignKey].contains r.kind

def impactFor (c : Change) (sql : GoString) : Impact :=
  let u := Text.toUpper sql
  let impact : Impact :=
    { destructive := c.operation = .drop || GoString.hasPrefix (Text.trimSpace u) (str "DROP ")
      rewrites := Text.contains u (str " TYPE ") || Text.contains u (str "SET DATA TYPE")
      scans := Text.contains u (str "VALIDATE") || Text.contains u (str "CREATE INDEX") }
  match c.after.or c.before with
  | none => impact
  | some r =>
    let isColumn := r.kind = kindColumn
    let builds := c.operation = .create || c.operation = .alter
    { impact with
      rewrites := impact.rewrites || isColumn && computedDefault r
      scans := impact.scans || isColumn && becomesNotNull c ||
        (r.kind = kindMaterializedView || constrains r) && builds }

/-! ### Binding -/

def replayChangeID : GoString := str "autosql:approved-replay"

/-- The change that replayed statements are bound to. -/
def replayChange : Change := { id := replayChangeID, operation := .alter, resourceID := replayChangeID }

/-- The changes by ID; the replayed statements take the place of a change with their ID. -/
def byChange (changes : List Change) (replay : List GoString) : GoMap Change :=
  let m := GoMap.index Change.id changes
  if replay ≠ [] then m.insert replayChangeID replayChange else m

/-- What has been bound: the steps, and the last step of each change. -/
structure Bound where
  steps : List Step := []
  lastByChange : GoMap GoString := .empty

/-- The last step so far of every change in `deps`. -/
def dependencySteps (last : GoMap GoString) (deps : List GoString) : Except Error (List GoString) :=
  deps.mapM fun dep =>
    let step := (last.get? dep).getD []
    if step = [] then .error (.notPlannedEarlier dep) else .ok step

/-- A replayed statement stands where the replay has it, counted from the end. -/
def checkReplay (count idx : Nat) (replay : List GoString) (st : Statement) : Bool :=
  st.kind = .executable && count ≤ idx + replay.length && idx + replay.length - count < replay.length &&
    st.sql = replay.getD (idx + replay.length - count) [] && st.transactional

def modeOf (st : Statement) : TransactionMode := if st.transactional then .required else .prohibited

/-- The step of the statement at the index `idx`; `count` is the number of statements. -/
def bindStep (changes : GoMap Change) (replay : List GoString) (count idx : Nat) (b : Bound) (st : Statement) :
    Except Error Bound := do
  let change ← match changes.get? st.changeID with
    | some change => .ok change
    | none => .error .unbound
  if (st.kind = .executable ∧ Text.trimSpace st.sql = []) ∨ (st.kind = .topology ∧ st.sql ≠ []) then .error .unbound
  if st.changeID = replayChangeID ∧ !checkReplay count idx replay st then .error .replayBinding
  let id := Artifacts.stableID (str "step")
    [st.changeID, GoString.itoa idx, kindString st.kind, st.sql, (modeOf st).string]
  let deps ← dependencySteps b.lastByChange change.dependsOn
  let deps := deps ++ (b.lastByChange.get? change.id).toList
  let topology := st.kind = .topology
  .ok { steps := b.steps ++ [{
          id := id
          changeID := change.id
          sql := st.sql
          kind := st.kind
          transaction := modeOf st
          lock := if topology then .none else lockFor indexConcurrent change st.sql
          impact := if topology then {} else impactFor change st.sql
          dependsOn := GoString.sortStrings deps }]
        lastByChange := b.lastByChange.insert change.id id }

def bindFrom (changes : GoMap Change) (replay : List GoString) (count : Nat) :
    Nat → Bound → List Statement → Except Error Bound
  | _, b, [] => .ok b
  | idx, b, st :: sts => do
    let b ← bindStep indexConcurrent changes replay count idx b st
    bindFrom changes replay count (idx + 1) b sts

def bindSteps (changes : List Change) (statements : List Statement) (replay : List GoString) :
    Except Error (List Step) := do
  if changes ≠ [] ∧ statements = [] then .error .noStatements
  let m := byChange changes replay
  let b ← bindFrom indexConcurrent m replay statements.length 0 {} statements
  -- which of the changes without a statement is named depends on the order of a map
  if m.keys.all b.lastByChange.contains then .ok b.steps else .error .noStatement

/-- The phases of a plan; no phases are a nil slice. -/
def phasesOf (steps : List Step) : Option (List Phase) :=
  if steps = [] then none else some (Artifacts.phases (steps.map Step.toStep))

/-! ### Checking -/

/-- The statement a step was bound from. -/
def Step.rendered (s : Step) : Statement := ⟨s.sql, s.changeID, s.transaction = .required, s.kind⟩

/-- The first loop of `Validate` over the steps; the result is the set of their IDs. -/
def checkSteps (changeIDs : GoSet) : List Step → GoSet → Except Error GoSet
  | [], ids => .ok ids
  | s :: steps, ids =>
    if s.id = [] ∨ !changeIDs.has s.changeID ∨ ids.has s.id ∨
        (s.kind = .executable ∧ Text.trimSpace s.sql = []) ∨ (s.kind = .topology ∧ s.sql ≠ []) then
      .error .invalidStep
    else checkSteps changeIDs steps (ids.add s.id)

def changeIDSet (p : Plan) : GoSet :=
  let ids := (p.changes.changes.map Change.id).foldl GoSet.add .empty
  if p.replay ≠ [] then ids.add replayChangeID else ids

/-- The steps are the ones that binding their statements gives. -/
def Plan.rebinds (p : Plan) : Bool :=
  match bindSteps indexConcurrent p.changes.changes (p.stepList.map Step.rendered) p.replay with
  | .ok rebuilt => (Json.arr (rebuilt.map Step.json)).encode = (slice Step.json p.steps).encode
  | .error _ => false

def Plan.validate (p : Plan) : Except Error Unit := do
  if p.version ≠ planVersion ∨ p.plannerVersion ≠ Plans.plannerVersion ∨ p.driver.name = [] ∨
      p.driver.version = [] ∨ !validFingerprint p.fromFingerprint ∨ !validFingerprint p.toFingerprint ∨
      p.digest = [] then .error .identity
  p.changes.validate.mapError .changes
  if p.replay.any fun q => Text.trimSpace q = [] then .error .emptyReplay
  let ids ← checkSteps (changeIDSet p) p.stepList .empty
  if !p.rebinds indexConcurrent then .error .steps
  if (slice phaseJSON (phasesOf p.stepList)).encode ≠ (slice phaseJSON p.phases).encode then .error .phases
  if !p.stepList.all fun s => s.dependsOn.all ids.has then .error .stepDependency
  if digestPlan p ≠ some p.digest then .error .digest

/-! ### Editing -/

/-- The statements of the steps with new texts for the executable ones. -/
def editStatements : List Step → List GoString → Except Error (List Statement)
  | [], _ => .ok []
  | s :: steps, sql =>
    if s.kind = .topology then do
      let sts ← editStatements steps sql
      .ok (⟨[], s.changeID, true, .topology⟩ :: sts)
    else
      match sql with
      | [] => .error .editedCount
      | q :: sql =>
        if Text.trimSpace q = [] then .error .emptyEditedSQL
        else do
          let sts ← editStatements steps sql
          .ok (⟨q, s.changeID, s.transaction = .required, .executable⟩ :: sts)

def editSQL (p : Plan) (sql : List GoString) : Except Error Plan := do
  p.validate indexConcurrent
  match p.json.bind fun j => Plan.unmarshal j.encode with
  | none => .error .json
  | some p =>
    if sql.length ≠ (p.stepList.filter fun s => s.kind = .executable).length then .error .editedCount
    let statements ← editStatements p.stepList sql
    let steps ← bindSteps indexConcurrent p.changes.changes statements p.replay
    let p := { p with steps := some steps, phases := phasesOf steps, digest := [] }
    match digestPlan p with
    | none => .error .json
    | some d =>
      let p := { p with digest := d }
      p.validate indexConcurrent
      .ok p

end Bind

end AutoSql.Plans
