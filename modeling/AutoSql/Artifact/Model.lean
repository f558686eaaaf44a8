/-
AutoSql/Artifact/Model.lean

Execution plans and the signed artifacts that carry them, as far as the
executor and the migration engine read them.

Whether a text is an artifact and whether its signature is trusted is decided
elsewhere; `Trust` stands for the two answers.  A verified artifact has a digest.
-/
import AutoSql.Lib.GoMap
import AutoSql.Lib.Sha256

namespace AutoSql.Artifacts

/-- How a step or a phase runs. -/
inductive TransactionMode
  | required
  | prohibited
  deriving DecidableEq

def TransactionMode.string : TransactionMode → GoString
  | .required => str "required"
  | .prohibited => str "prohibited"

inductive StepKind
  | executable
  | topology
  deriving DecidableEq

structure Step where
  id : GoString
  sql : GoString
  kind : StepKind
  transaction : TransactionMode
  deriving DecidableEq

structure Phase where
  id : GoString
  transaction : TransactionMode
  stepIDs : List GoString
  deriving DecidableEq

structure Plan where
  fromFingerprint : GoString
  toFingerprint : GoString
  steps : List Step
  phases : List Phase
  digest : GoString
  deriving DecidableEq

structure Artifact where
  plan : Plan
  checksDigest : GoString
  sourceRevision : GoString
  targetEnvironment : GoString
  databaseIdentity : GoString
  guardrailDigest : GoString
  metadata : GoMap GoString
  digest : GoString
  deriving DecidableEq

/-- What verification says about artifacts: the parsed artifact of a text, and
the payload of a verified one.  A payload has a digest. -/
structure Trust where
  parse : GoString → Option Artifact
  verify : Artifact → Option Artifact
  digest_ne : ∀ a p, verify a = some p → p.digest ≠ []

end AutoSql.Artifacts
