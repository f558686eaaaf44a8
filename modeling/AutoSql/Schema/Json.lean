/-
AutoSql/Schema/Json.lean

The wire format of schema documents, and the digests computed from it.

Every type of the model writes its known fields and the unknown ones it was
read with (`marshalWithExtra`; a known field wins over an unknown one of the
same name), and reads back the known fields by name, keeping all the others in
`extra`.  A known field that is empty is not written.

`cloneDocument` and `cloneResource` copy a value by writing and reading it.
The copy is not always the same value: bytes that are not valid UTF-8 are
replaced, and an unknown field whose name is a known one in another case is
read as the known one.

`resourceFingerprint` is the digest of a resource without its source location
and with its dependencies sorted; `fingerprintText` is the text that is
hashed.
-/
import AutoSql.Schema.Model

namespace AutoSql.Schema

open GoJson

/-! ### Writing -/

/-- The object of the known fields over the unknown ones. -/
def marshalWithExtra (known : List (GoString × Json)) (extra : GoMap GoString) : Option Json := do
  let decoded ← extra.entries.mapM fun p => (decodeRaw p.2).map fun v => (p.1, v)
  some (.obj (GoMap.ofList (decoded ++ known)).entries)

def Name.json (n : Name) : Option Json :=
  marshalWithExtra
    ((str "name", .str n.name) :: omitEmpty (str "catalog") n.catalog ++
      omitEmpty (str "schema") n.schema ++ omitEmpty (str "parent") n.parent) n.extra

def SourceLocation.json (s : SourceLocation) : Option Json :=
  marshalWithExtra
    ((str "uri", .str s.uri) :: omitZero (str "line") s.line ++ omitZero (str "column") s.column ++
      omitZero (str "end_line") s.endLine ++ omitZero (str "end_column") s.endColumn) s.extra

def Dependency.json (d : Dependency) : Option Json :=
  marshalWithExtra [(str "target", .str d.target), (str "type", .str d.type)] d.extra

/-- An optional part of a resource. -/
def optionalField (name : GoString) (present : Bool) (value : Option Json) : Option (List (GoString × Json)) :=
  if present then value.map fun v => [(name, v)] else some []

def Resource.json (r : Resource) : Option Json := do
  let name ← r.name.json
  let dependencies ← optionalField (str "dependencies") (r.dependencies ≠ [])
    ((r.dependencies.mapM Dependency.json).map .arr)
  let annotations ← optionalField (str "annotations") (r.annotations.size ≠ 0)
    (some (stringMap r.annotations))
  let source ← optionalField (str "source") r.source.isSome (r.source.bind SourceLocation.json)
  let spec ← optionalField (str "spec") (r.spec ≠ []) (decodeRaw r.spec)
  marshalWithExtra
    ([(str "id", .str r.id), (str "kind", .str r.kind), (str "name", name)] ++ dependencies ++
      annotations ++ source ++ spec) r.extra

def Graph.json (g : Graph) : Option Json := do
  let resources ← match g.resources with
    | none => some .null
    | some l => (l.mapM Resource.json).map .arr
  marshalWithExtra [(str "resources", resources)] g.extra

def Document.json (d : Document) : Option Json := do
  let graph ← d.graph.json
  let annotations ← optionalField (str "annotations") (d.annotations.size ≠ 0)
    (some (stringMap d.annotations))
  marshalWithExtra ([(str "version", .str d.version), (str "graph", graph)] ++ annotations) d.extra

/-! ### Reading -/

/-- The members that are not known fields. -/
def remove (ms : List (GoString × GoString)) (keys : List GoString) : GoMap GoString :=
  keys.foldl GoMap.erase (GoMap.ofList ms)

variable (raw : GoString)

def Name.unmarshal : Option Name := do
  let ms ← rawMembers raw
  let catalog ← field (str "catalog") decodeString [] ms
  let schema ← field (str "schema") decodeString [] ms
  let name ← field (str "name") decodeString [] ms
  let parent ← field (str "parent") decodeString [] ms
  some ⟨catalog, schema, name, parent, remove ms [str "catalog", str "schema", str "name", str "parent"]⟩

def SourceLocation.unmarshal : Option SourceLocation := do
  let ms ← rawMembers raw
  let uri ← field (str "uri") decodeString [] ms
  let line ← field (str "line") decodeInt 0 ms
  let column ← field (str "column") decodeInt 0 ms
  let endLine ← field (str "end_line") decodeInt 0 ms
  let endColumn ← field (str "end_column") decodeInt 0 ms
  some ⟨uri, line, column, endLine, endColumn,
    remove ms [str "uri", str "line", str "column", str "end_line", str "end_column"]⟩

def Dependency.unmarshal : Option Dependency := do
  let ms ← rawMembers raw
  let target ← field (str "target") decodeString [] ms
  let type ← field (str "type") decodeString [] ms
  some ⟨target, type, remove ms [str "target", str "type"]⟩

/-- Reading into a pointer to a source location. -/
def decodeSource (_ : Option SourceLocation) (raw : GoString) : Option (Option SourceLocation) :=
  match Json.parse raw with
  | some .null => some none
  | _ => some <$> SourceLocation.unmarshal raw

def Resource.unmarshal : Option Resource := do
  let ms ← rawMembers raw
  let id ← field (str "id") decodeString [] ms
  let kind ← field (str "kind") decodeString [] ms
  let name ← field (str "name") (fun _ => Name.unmarshal) {} ms
  let dependencies ← field (str "dependencies") (decodeSlice Dependency.unmarshal) none ms
  let annotations ← field (str "annotations") decodeStringMap .empty ms
  let source ← field (str "source") decodeSource none ms
  let spec ← field (str "spec") decodeRawMessage [] ms
  some ⟨id, kind, name, dependencies.getD [], annotations, source, spec,
    remove ms [str "id", str "kind", str "name", str "dependencies", str "annotations", str "source", str "spec"]⟩

def Graph.unmarshal : Option Graph := do
  let ms ← rawMembers raw
  let resources ← field (str "resources") (decodeSlice Resource.unmarshal) none ms
  some ⟨resources, remove ms [str "resources"]⟩

def Document.unmarshal : Option Document := do
  let ms ← rawMembers raw
  let version ← field (str "version") decodeString [] ms
  let graph ← field (str "graph") (fun _ => Graph.unmarshal) {} ms
  let annotations ← field (str "annotations") decodeStringMap .empty ms
  some ⟨version, graph, annotations, remove ms [str "version", str "graph", str "annotations"]⟩

/-! ### Copies -/

def cloneDocument (doc : Document) : Except Error Document :=
  match doc.json.bind fun j => Document.unmarshal j.encode with
  | some d => .ok d
  | none => .error .json

def cloneResource (resource : Resource) : Option Resource :=
  resource.json.bind fun j => Resource.unmarshal j.encode

/-! ### Fingerprints -/

/-- The order of dependencies: by type, then by target. -/
def dependencyLE (a b : Dependency) : Prop :=
  (if a.type = b.type then GoString.le a.target b.target else GoString.le a.type b.type) = true

instance : DecidableRel dependencyLE := fun _ _ => inferInstanceAs (Decidable (_ = true))

def sortDependencies (r : Resource) : Resource :=
  { r with dependencies := r.dependencies.insertionSort dependencyLE }

def digest (domain : GoString) (raw : GoString) : GoString :=
  str "sha256:" ++ GoString.hexEncode (Sha256.sum256 (str "autosql.schema." ++ domain ++ str "/v1" ++ [0] ++ raw))

/-- The text that identifies a resource. -/
def fingerprintText (resource : Resource) : Option GoString := do
  let clone ← cloneResource resource
  let json ← (sortDependencies { clone with source := none }).json
  some json.encode

def resourceFingerprint (resource : Resource) : Except Error GoString :=
  match fingerprintText resource with
  | some raw => .ok (digest (str "resource") raw)
  | none => .error .json

end AutoSql.Schema
