/-
AutoSql/Migrate/Manifest.lean

The manifest of a migration directory: its types, the JSON text they are
written as, and the digests taken from it.

A struct is written field by field in the order of its declaration; the fields
marked `omitempty` are left out when they are empty.  A slice that may be nil
is written as `null`: this happens to the parents of the first entry inside the
material of its chain digest, and nowhere else.
-/
import AutoSql.Lib.GoJson
import AutoSql.Lib.Sha256
import AutoSql.Migrate.Version

namespace AutoSql.Migrate

open GoJson List

def manifestVersion : GoString := str "autosql.migration-directory/v1"

def maxFile : Nat := 8 <<< 20

def maxManifest : Nat := 16 <<< 20

/-- A `TransactionMode`: the declared ones, or any other string. -/
inductive TransactionMode
  | auto
  | required
  | forbidden
  | other (s : GoString)
  deriving DecidableEq

namespace TransactionMode

def ofString (s : GoString) : TransactionMode :=
  if s = str "auto" then .auto
  else if s = str "required" then .required
  else if s = str "forbidden" then .forbidden
  else .other s

def string : TransactionMode → GoString
  | .auto => str "auto"
  | .required => str "required"
  | .forbidden => str "forbidden"
  | .other s => s

/-- One of the declared modes. -/
def declared : TransactionMode → Bool
  | .other _ => false
  | _ => true

end TransactionMode

structure Directives where
  transaction : TransactionMode
  planDigest : GoString := []
  checkDigest : GoString := []
  bundleDigest : GoString := []
  checkBundleDigest : GoString := []
  deriving DecidableEq

structure Statement where
  ordinal : Int
  line : Int
  column : Int
  digest : GoString
  deriving DecidableEq

structure Migration where
  file : GoString
  version : GoString
  name : GoString
  sqlDigest : GoString
  artifactFile : GoString := []
  artifactDigest : GoString := []
  directives : Directives
  directiveDigest : GoString
  statements : List Statement
  boundaryDigest : GoString
  parents : List GoString
  nonLinear : Bool
  chainDigest : GoString := []
  kind : GoString
  coveredFrom : GoString
  coveredTo : GoString
  schemaFingerprint : GoString
  dataPolicy : GoString
  deriving DecidableEq

structure Manifest where
  version : GoString
  generation : GoString
  entries : List Migration
  digest : GoString
  deriving DecidableEq

structure File where
  name : GoString
  sql : GoString
  artifactName : GoString := []
  artifact : GoString := []
  parents : List GoString := []
  nonLinear : Bool := false
  kind : GoString := []
  coveredFrom : GoString := []
  coveredTo : GoString := []
  schemaFingerprint : GoString := []
  dataPolicy : GoString := []

structure Snapshot where
  manifest : Manifest
  files : GoMap GoString

/-- The kind of a migration that stands for the range of migrations it covers. -/
def checkpoint : GoString := str "checkpoint"

/-! ### JSON -/

/-- A `bool` field that is left out when it is false. -/
def omitFalse (name : GoString) (value : Bool) : List (GoString × Json) :=
  if value then [(name, .bool true)] else []

def strings (l : List GoString) : Json := .arr (l.map .str)

/-- A `[]string` that is nil if it has no elements. -/
def nilStrings (l : List GoString) : Json := if l = [] then .null else strings l

def Directives.json (d : Directives) : Json :=
  .obj ((str "transaction", .str d.transaction.string) :: omitEmpty (str "plan_digest") d.planDigest ++
    omitEmpty (str "check_digest") d.checkDigest ++ omitEmpty (str "bundle_digest") d.bundleDigest ++
    omitEmpty (str "check_bundle_digest") d.checkBundleDigest)

def Statement.json (s : Statement) : Json :=
  .obj [(str "ordinal", int s.ordinal), (str "line", int s.line), (str "column", int s.column),
    (str "digest", .str s.digest)]

def statementsJson (l : List Statement) : Json := .arr (l.map Statement.json)

def Migration.json (m : Migration) : Json :=
  .obj ([(str "file", .str m.file), (str "version", .str m.version), (str "name", .str m.name),
      (str "sql_digest", .str m.sqlDigest)] ++
    omitEmpty (str "artifact_file") m.artifactFile ++ omitEmpty (str "artifact_digest") m.artifactDigest ++
    [(str "directives", m.directives.json), (str "directive_digest", .str m.directiveDigest),
      (str "statements", statementsJson m.statements), (str "boundary_digest", .str m.boundaryDigest),
      (str "parents", strings m.parents)] ++
    omitFalse (str "nonlinear") m.nonLinear ++ [(str "chain_digest", .str m.chainDigest)] ++
    omitEmpty (str "kind") m.kind ++ omitEmpty (str "covered_from") m.coveredFrom ++
    omitEmpty (str "covered_to") m.coveredTo ++
    omitEmpty (str "schema_fingerprint") m.schemaFingerprint ++
    omitEmpty (str "data_policy") m.dataPolicy)

def Manifest.json (m : Manifest) : Json :=
  .obj [(str "version", .str m.version), (str "generation", .str m.generation),
    (str "entries", .arr (m.entries.map Migration.json)), (str "digest", .str m.digest)]

/-- What the chain digest of an entry is taken of: the entry and the chain
digests of its parents. -/
def chainMaterial (e : Migration) (parentChains : List GoString) : Json :=
  .obj ([(str "Version", .str e.version), (str "File", .str e.file), (str "SQL", .str e.sqlDigest),
      (str "Directives", .str e.directiveDigest), (str "Boundaries", .str e.boundaryDigest)] ++
    omitEmpty (str "Artifact") e.artifactDigest ++ omitEmpty (str "Kind") e.kind ++
    omitEmpty (str "CoveredFrom") e.coveredFrom ++ omitEmpty (str "CoveredTo") e.coveredTo ++
    omitEmpty (str "SchemaFingerprint") e.schemaFingerprint ++ omitEmpty (str "DataPolicy") e.dataPolicy ++
    [(str "Parents", nilStrings e.parents), (str "ParentChains", strings parentChains),
      (str "NonLinear", .bool e.nonLinear)])

/-- What the generation is the digest of. -/
def generationSeed (entries : List Migration) : Json :=
  .obj [(str "Version", .str manifestVersion), (str "Entries", .arr (entries.map Migration.json))]

/-- `canonical`, of a manifest. -/
def canonical (m : Manifest) : GoString := m.json.encode

/-! ### Digests -/

def digest (domain b : GoString) : GoString :=
  str "sha256:" ++ GoString.hexEncode (Sha256.sum256 (str "autosql.migrate." ++ domain ++ str "/v1\x00" ++ b))

def artifactDigest (raw : GoString) : GoString := digest (str "artifact") raw

def statementDigest (sql : GoString) : GoString := digest (str "statement") sql

def directiveDigest (d : Directives) : GoString := digest (str "directives") d.json.encode

def boundaryDigest (l : List Statement) : GoString := digest (str "boundaries") (statementsJson l).encode

def chainDigest (e : Migration) (parentChains : List GoString) : GoString :=
  digest (str "chain") (chainMaterial e parentChains).encode

def generationOf (entries : List Migration) : GoString :=
  GoString.trimPrefix (digest (str "generation") (generationSeed entries).encode) (str "sha256:")

def manifestDigest (m : Manifest) : GoString := digest (str "manifest") (canonical { m with digest := [] })

def isHex (b : UInt8) : Bool := isDigit b || (0x61 ≤ b && b ≤ 0x66)

/-- `generationRE`. -/
def matchGeneration (s : GoString) : Bool := s.length == 64 && s.all isHex

/-- `digestRE`. -/
def matchDigest (s : GoString) : Bool :=
  GoString.hasPrefix s (str "sha256:") && matchGeneration (s.drop 7)

def validDigest (s : GoString) : Bool := s == [] || matchDigest s

theorem isHex_hexByte (b : UInt8) : (GoString.hexByte b).all isHex = true := by
  have h : ∀ n < 16, isHex (UInt8.ofNat (if n < 10 then 0x30 + n else 0x57 + n)) = true := by decide
  have hb : b.toNat < 256 := b.toNat_lt
  rw [GoString.hexByte]
  simp only [all_cons, all_nil, Bool.and_true, Bool.and_eq_true]
  exact ⟨h _ (by omega), h _ (by omega)⟩

theorem matchGeneration_hexEncode (m : GoString) : matchGeneration (GoString.hexEncode (Sha256.sum256 m)) = true := by
  rw [matchGeneration, Bool.and_eq_true, beq_iff_eq, GoString.length_hexEncode, Sha256.length_sum256]
  refine ⟨rfl, ?_⟩
  rw [GoString.hexEncode, all_flatMap, all_eq_true]
  exact fun b _ => isHex_hexByte b

theorem matchDigest_digest (domain b : GoString) : matchDigest (digest domain b) = true := by
  rw [matchDigest, Bool.and_eq_true]
  refine ⟨ List.isPrefixOf_iff_prefix.mpr (prefix_append _ _), ?_⟩
  exact matchGeneration_hexEncode _

end AutoSql.Migrate
