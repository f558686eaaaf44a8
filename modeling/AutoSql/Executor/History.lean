/-
AutoSql/Executor/History.lean

The rows of `autosql_migration_history`: the executor's own record of the steps
it runs, one row for every artifact, step and attempt.
-/
import AutoSql.Artifact.Model

namespace AutoSql.Executor

open Artifacts

/-- A nontransactional step is intended before it runs and confirmed after;
the row of a transactional one is confirmed from the start. -/
inductive RowState
  | intended
  | confirmed
  deriving DecidableEq

structure Row where
  artifactDigest : GoString
  stepID : GoString
  stepHash : GoString
  phaseID : GoString
  phaseMode : TransactionMode
  state : RowState
  executionID : GoString
  targetIdentity : GoString
  planDigest : GoString
  bundleDigest : GoString
  attempt : Nat
  deriving DecidableEq

def stepHash (s : Step) : GoString :=
  str "sha256:" ++ GoString.hexEncode
    (Sha256.sum256 (s.id ++ 0 :: s.sql ++ 0 :: s.transaction.string))

/-- The target an artifact is signed for. -/
def targetIdentity (a : Artifact) : GoString := a.databaseIdentity ++ str "/" ++ a.targetEnvironment

/-- The executable steps of the phases with their phases, as the map that the
readers of the history build: the last phase of a step wins. -/
def expectedSteps (a : Artifact) : GoMap Phase :=
  GoMap.ofList (a.plan.phases.flatMap fun p =>
    (p.stepIDs.filter fun id => a.plan.steps.any fun s => s.id = id ∧ s.kind = .executable).map
      fun id => (id, p))

end AutoSql.Executor
