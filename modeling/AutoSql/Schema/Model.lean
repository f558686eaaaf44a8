/-
AutoSql/Schema/Model.lean

The schema document: resources with stable identities, names, and dependency
edges, and the check that makes a document usable (`Document.validate`).

A resource is identified by `stableID`, a truncated digest of its kind and its
qualified name.  A valid document has resources of known kinds whose IDs are
the stable ones and pairwise distinct; parents and dependency targets are
resources of the document, and the dependencies have no cycle.

Kinds and dependency types are strings, as on the wire: a document may name a
kind this release does not know, and `validate` is what rejects it.

Main result: what `validate` guarantees about the resources of a document
(`validate_ok`), in the form used by selection and comparison.
-/
import AutoSql.Lib.Fallible
import AutoSql.Lib.GoFloat
import AutoSql.Lib.GoJson
import AutoSql.Lib.Sha256

namespace AutoSql.Schema

open List

/-- `SchemaVersion`. -/
def schemaVersion : GoString := str "autosql.schema/v1"

/-! ### Kinds -/

abbrev Kind := GoString

def kindDatabase : Kind := str "database"
def kindSchema : Kind := str "schema"
def kindExtension : Kind := str "extension"
def kindEnum : Kind := str "enum"
def kindDomain : Kind := str "domain"
def kindComposite : Kind := str "composite_type"
def kindSequence : Kind := str "sequence"
def kindTable : Kind := str "table"
def kindColumn : Kind := str "column"
def kindPrimaryKey : Kind := str "primary_key"
def kindUniqueConstraint : Kind := str "unique_constraint"
def kindCheckConstraint : Kind := str "check_constraint"
def kindForeignKey : Kind := str "foreign_key"
def kindIndex : Kind := str "index"
def kindView : Kind := str "view"
def kindMaterializedView : Kind := str "materialized_view"
def kindFunction : Kind := str "function"
def kindProcedure : Kind := str "procedure"
def kindTrigger : Kind := str "trigger"
def kindPolicy : Kind := str "policy"
def kindRole : Kind := str "role"
def kindGrant : Kind := str "grant"
def kindMembership : Kind := str "membership"
def kindDefaultPrivilege : Kind := str "default_privilege"
def kindReferenceData : Kind := str "reference_data"

def knownKinds : List Kind :=
  [kindDatabase, kindSchema, kindExtension, kindEnum, kindDomain, kindComposite, kindSequence,
    kindTable, kindColumn, kindPrimaryKey, kindUniqueConstraint, kindCheckConstraint,
    kindForeignKey, kindIndex, kindView, kindMaterializedView, kindFunction, kindProcedure,
    kindTrigger, kindPolicy, kindRole, kindGrant, kindMembership, kindDefaultPrivilege,
    kindReferenceData]

def isKnownKind (kind : Kind) : Bool := knownKinds.contains kind

/-! ### Documents -/

/-- A qualified name; `parent` is the ID of the containing resource. -/
structure Name where
  catalog : GoString := []
  schema : GoString := []
  name : GoString := []
  parent : GoString := []
  extra : GoMap GoString := .empty
  deriving DecidableEq

/-- The unquoted qualified name, without the parent. -/
def Name.string (n : Name) : GoString :=
  GoString.join (str ".") ([n.catalog, n.schema, n.name].filter fun p => p ≠ [])

/-- The opaque ID of a resource: its kind, and twelve bytes of the digest of
its kind and name. -/
def stableID (kind : Kind) (name : Name) : GoString :=
  let identity := GoString.join [0] [kind, name.catalog, name.schema, name.parent, name.name]
  kind ++ str ":" ++ GoString.hexEncode ((Sha256.sum256 identity).take 12)

structure SourceLocation where
  uri : GoString := []
  line : Int := 0
  column : Int := 0
  endLine : Int := 0
  endColumn : Int := 0
  extra : GoMap GoString := .empty
  deriving DecidableEq

def dependencyContains : GoString := str "contains"
def dependencyReferences : GoString := str "references"
def dependencyUses : GoString := str "uses"
def dependencyOwns : GoString := str "owns"

/-- An edge from the enclosing resource to `target`. -/
structure Dependency where
  target : GoString := []
  type : GoString := []
  extra : GoMap GoString := .empty
  deriving DecidableEq

/-- The unit of desired or inspected state.  `spec` is a JSON text, `extra` the
fields this release does not know. -/
structure Resource where
  id : GoString := []
  kind : Kind := []
  name : Name := {}
  dependencies : List Dependency := []
  annotations : GoMap GoString := .empty
  source : Option SourceLocation := none
  spec : GoString := []
  extra : GoMap GoString := .empty
  deriving DecidableEq

/-- The resources of a document; none is the nil slice. -/
structure Graph where
  resources : Option (List Resource) := none
  extra : GoMap GoString := .empty
  deriving DecidableEq

structure Document where
  version : GoString := []
  graph : Graph := {}
  annotations : GoMap GoString := .empty
  extra : GoMap GoString := .empty
  deriving DecidableEq

/-- The resources of a document as a list. -/
def Document.resources (d : Document) : List Resource := d.graph.resources.getD []

/-- The IDs of the resources of a document. -/
def Document.ids (d : Document) : List GoString := d.resources.map Resource.id

/-- The dependency targets of a resource. -/
def Resource.targets (r : Resource) : List GoString := r.dependencies.map Dependency.target

/-- `r` refers to `x`: as its parent, or as a dependency target. -/
def Resource.refers (r : Resource) (x : GoString) : Prop := r.name.parent = x ∨ x ∈ r.targets

instance (r : Resource) (x : GoString) : Decidable (r.refers x) :=
  inferInstanceAs (Decidable (_ ∨ _))

/-! ### Errors -/

/-- Why a document or a change set is refused with `ErrInvalidDocument`. -/
inductive Invalid where
  | nameRequired (index : Nat)
  | idRequired (index : Nat)
  | idMismatch (index : Nat) (id stable : GoString)
  | duplicateResource (id : GoString)
  | specNotObject (id : GoString)
  | sourceLocation (id : GoString)
  | missingParent (id parent : GoString)
  | dependencyType (id type : GoString)
  | missingDependency (id target : GoString)
  | selfDependency (id : GoString)
  | duplicateDependency (id target : GoString)
  | cycle (id : GoString)
  | changeIDsRequired (index : Nat)
  | duplicateChange (id : GoString)
  | changeShape (id : GoString)
  | renameName (id : GoString)
  | renameResource (id : GoString)
  | changeIdentity (id : GoString)
  | changeSnapshot (id : GoString)
  | changeSpec (id : GoString)
  | changeDetails (id : GoString)
  | missingChange (id dep : GoString)
  | changeCycle
  deriving DecidableEq

/-- The errors of the package, by sentinel. -/
inductive Error where
  | unsupportedVersion (version : GoString)
  | unsupportedKind (index : Nat) (kind : Kind)
  | unsupportedChangeKind (id : GoString) (kind : Kind)
  | invalidDocument (why : Invalid)
  | invalidPattern
  | invalidSelection (why : Error)
  | unresolvedHint (value : GoString) (found : Nat)
  | ambiguousRename (source target : GoString)
  | conflictingSource (source : GoString)
  | crossParentRename (source target : GoString)
  | json
  deriving DecidableEq

/-! ### Validation -/

/-- `json.Unmarshal` into an `any` gives an object. -/
def validJSONObject (raw : GoString) : Bool :=
  match GoFloat.unmarshalAny raw with
  | some (.obj _) => true
  | _ => false

/-- The checks on one resource that do not look at other resources, except for
the IDs seen before it. -/
def checkResource (i : Nat) (r : Resource) (ids : GoSet) : Except Error Unit :=
  if !isKnownKind r.kind then .error (.unsupportedKind i r.kind)
  else if r.name.name = [] then .error (.invalidDocument (.nameRequired i))
  else if r.id = [] then .error (.invalidDocument (.idRequired i))
  else if r.id ≠ stableID r.kind r.name then
    .error (.invalidDocument (.idMismatch i r.id (stableID r.kind r.name)))
  else if ids.has r.id then .error (.invalidDocument (.duplicateResource r.id))
  else if r.spec ≠ [] ∧ !validJSONObject r.spec then
    .error (.invalidDocument (.specNotObject r.id))
  else if r.source.any fun s =>
      s.uri = [] || s.line < 0 || s.column < 0 || s.endLine < 0 || s.endColumn < 0 then
    .error (.invalidDocument (.sourceLocation r.id))
  else .ok ()

/-- The first loop of `Validate`; the result is the set of IDs. -/
def checkResources : Nat → List Resource → GoSet → Except Error GoSet
  | _, [], ids => .ok ids
  | i, r :: rs, ids => do
    checkResource i r ids
    checkResources (i + 1) rs (ids.add r.id)

/-- The dependencies of the resource `id`; `seen` holds the pairs of type and
target that occurred. -/
def checkDependencies (ids : GoSet) (id : GoString) : List Dependency → GoSet → Except Error Unit
  | [], _ => .ok ()
  | dep :: deps, seen =>
    let key := dep.type ++ [0] ++ dep.target
    if !([dependencyContains, dependencyReferences, dependencyUses, dependencyOwns].contains
        dep.type) then
      .error (.invalidDocument (.dependencyType id dep.type))
    else if !ids.has dep.target then
      .error (.invalidDocument (.missingDependency id dep.target))
    else if dep.target = id then .error (.invalidDocument (.selfDependency id))
    else if seen.has key then .error (.invalidDocument (.duplicateDependency id dep.target))
    else checkDependencies ids id deps (seen.add key)

/-- The second loop of `Validate`: parents and dependencies. -/
def checkReferences (ids : GoSet) : List Resource → Except Error Unit
  | [] => .ok ()
  | r :: rs => do
    if r.name.parent ≠ [] ∧ !ids.has r.name.parent then
      .error (.invalidDocument (.missingParent r.id r.name.parent))
    checkDependencies ids r.id r.dependencies .empty
    checkReferences ids rs

/-- Depth-first search for a cycle; a resource in progress has state 1, a
finished one state 2.  The fuel is never used up: a path that visits more
resources than there are repeats one. -/
def visit (adj : GoMap (List GoString)) : Nat → GoMap Nat → GoString → Except Error (GoMap Nat)
  | 0, _, id => .error (.invalidDocument (.cycle id))
  | fuel + 1, state, id =>
    if state.get? id = some 1 then .error (.invalidDocument (.cycle id))
    else if state.get? id = some 2 then .ok state
    else do
      let state ← ((adj.get? id).getD []).foldlM (visit adj fuel) (state.insert id 1)
      .ok (state.insert id 2)

/-- The dependency targets by resource. -/
def adjacency (rs : List Resource) : GoMap (List GoString) :=
  GoMap.ofList (rs.map fun r => (r.id, r.targets))

/-- `Document.Validate`; `order` is the order in which the map of IDs is ranged
over by the search for cycles. -/
def Document.validate (d : Document) (order : List GoString → List GoString) : Except Error Unit := do
  if d.version ≠ schemaVersion then .error (.unsupportedVersion d.version)
  let ids ← checkResources 0 d.resources .empty
  checkReferences ids d.resources
  let _ ← (order ids.keys).foldlM (visit (adjacency d.resources) (ids.size + 1)) .empty
  .ok ()

/-! ### Valid documents -/

section Valid

open Fallible

/-- The resources of a valid document: their IDs are the stable ones and
pairwise distinct, and what they refer to is in the document. -/
structure Document.Valid (d : Document) : Prop where
  id_eq : ∀ r ∈ d.resources, r.id = stableID r.kind r.name
  id_ne : ∀ r ∈ d.resources, r.id ≠ []
  nodup : d.ids.Nodup
  closed : ∀ r ∈ d.resources, ∀ x, x ≠ [] → r.refers x → x ∈ d.ids

theorem checkResource_ok {i : Nat} {r : Resource} {ids : GoSet} (h : checkResource i r ids = .ok ()) :
    r.id = stableID r.kind r.name ∧ r.id ≠ [] ∧ ids.has r.id = false := by
  rw [checkResource] at h
  simp only [guard_ok, not_not, Bool.not_eq_true] at h
  obtain ⟨-, -, hne, heq, hnew, -⟩ := h
  exact ⟨heq, hne, hnew⟩

theorem checkResources_ok {i : Nat} {rs : List Resource} {ids ids' : GoSet} (h : checkResources i rs ids = .ok ids') :
    (∀ r ∈ rs, ∃ i seen, checkResource i r seen = .ok ()) ∧ ids.Fresh (rs.map Resource.id) ∧
      ∀ id, ids'.has id = true ↔ ids.has id = true ∨ id ∈ rs.map Resource.id := by
  induction rs generalizing i ids with
  | nil =>
    cases h
    simp
  | cons r rs ih =>
    obtain ⟨u, hr, hrest⟩ := bind_ok.mp h
    obtain ⟨hall, hfresh, hids⟩ := ih hrest
    refine ⟨forall_mem_cons.mpr ⟨⟨i, ids, hr⟩, hall⟩, GoSet.fresh_cons.mpr ⟨(checkResource_ok hr).2.2, hfresh⟩, fun id => ?_⟩
    rw [hids, GoSet.has_add, map_cons, mem_cons]
    tauto

theorem checkDependencies_ok {ids : GoSet} {id : GoString} {deps : List Dependency} {seen : GoSet}
    (h : checkDependencies ids id deps seen = .ok ()) : ∀ d ∈ deps, ids.has d.target = true := by
  induction deps generalizing seen with
  | nil => simp
  | cons dep deps ih =>
    rw [checkDependencies] at h
    simp only [guard_ok, Bool.not_eq_true, Bool.not_eq_false'] at h
    obtain ⟨-, hhas, -, -, hrest⟩ := h
    exact forall_mem_cons.mpr ⟨hhas, ih hrest⟩

theorem checkReferences_ok {ids : GoSet} {rs : List Resource} : checkReferences ids rs = .ok () ↔
    ∀ r ∈ rs, (r.name.parent ≠ [] → ids.has r.name.parent = true) ∧ checkDependencies ids r.id r.dependencies .empty = .ok () := by
  induction rs with
  | nil => simp [checkReferences]
  | cons r rs ih =>
    rw [checkReferences, forall_mem_cons, ← ih]
    simp only [bind_ok, error_bind, guard_ok, not_and, Bool.not_eq_true', Bool.not_eq_false, and_assoc]
    exact ⟨fun ⟨hparent, _, h⟩ => ⟨hparent, h⟩, fun ⟨hparent, h⟩ => ⟨hparent, (), h⟩⟩

/-- **What `validate` guarantees.** -/
theorem validate_ok {d : Document} {order : List GoString → List GoString}
    (h : d.validate order = .ok ()) : d.Valid := by
  rw [Document.validate] at h
  simp only [bind_ok, error_bind, guard_ok] at h
  obtain ⟨-, ids, hids, u, hrefs, -⟩ := h
  obtain ⟨hall, hfresh, hmem⟩ := checkResources_ok hids
  have hres : ∀ r ∈ d.resources, r.id = stableID r.kind r.name ∧ r.id ≠ [] := by
    intro r hr
    obtain ⟨i, seen, hr⟩ := hall r hr
    exact ⟨(checkResource_ok hr).1, (checkResource_ok hr).2.1⟩
  refine ⟨fun r hr => (hres r hr).1, fun r hr => (hres r hr).2, hfresh.1, ?_⟩
  intro r hr x hx hrefers
  obtain ⟨hparent, hdeps⟩ := checkReferences_ok.mp hrefs r hr
  have hhas : ids.has x = true := by
    rcases hrefers with rfl | htarget
    · exact hparent hx
    · obtain ⟨dep, hdep, rfl⟩ := mem_map.mp htarget
      exact checkDependencies_ok hdeps dep hdep
  exact ((hmem x).mp hhas).resolve_left (by simp)

end Valid

end AutoSql.Schema
