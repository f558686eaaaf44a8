/-
AutoSql/Zdm/Pipeline.lean

The concrete pipeline of package `start`: a start whose phases are an expand plan, the
compatibility triggers, the backfills and the publication of the virtual schema.

`Pipeline.actions` and `runPipeline` are the models of `Pipeline.Actions` and
`RunPipeline`.  The specifications of the virtual schema and of the triggers come with
the result of their own validation; what their `Apply` functions do to the database is a
call of the caller, as are the expand plan and the publication.
-/
import AutoSql.Zdm.Backfill
import AutoSql.Zdm.Start

namespace AutoSql.Zdm.Start

/-- The database, target and environment of a configuration. -/
structure Binding where
  url : GoString
  target : GoString
  environment : GoString
  deriving DecidableEq

/-- A `virtualschema.Spec`. -/
structure VirtualSpec where
  artifactDigest : GoString
  previousName : GoString
  currentName : GoString
  valid : Except Error Unit

/-- A `shadowsync.Spec` under its policy. -/
structure ShadowSpec where
  artifactDigest : GoString
  valid : Except Error Unit

structure Pipeline where
  spec : Spec
  hasExpand : Bool
  virtualConfig : Binding
  virtualSpec : VirtualSpec
  shadowConfig : Binding
  shadow : ShadowSpec
  backfillConfig : Backfill.Config
  backfills : List BackfillSpec

namespace Pipeline

/-- The loop over the backfills of the validate phase. -/
def validateBackfills (p : Pipeline) : List BackfillSpec → Except Error Unit
  | [] => .ok ()
  | s :: l => do
    Backfill.validate s
    if s.artifactDigest ≠ p.spec.artifactDigest then .error (.invalid (str "backfill artifact binding mismatch"))
    else p.validateBackfills l

/-- The validate phase. -/
def validate (p : Pipeline) : Except Error Unit := do
  p.spec.validate
  if p.hasExpand = false then .error (.invalid (str "verified expand executor required"))
  else do
    p.virtualSpec.valid
    p.shadow.valid
    if p.virtualSpec.artifactDigest ≠ p.spec.artifactDigest ∨ p.shadow.artifactDigest ≠ p.spec.artifactDigest ∨
        p.virtualSpec.previousName ≠ p.spec.previousVersion ∨ p.virtualSpec.currentName ≠ p.spec.newVersion then
      .error (.invalid (str "pipeline artifact or version binding mismatch"))
    else p.validateBackfills p.backfills

/-- The errors of the database, for each backfill and each of its batches. -/
abbrev Faults := Nat → Nat → Backfill.Faults

/-- The backfills from number `n` on, with at most `fuel` batches each. -/
def runBackfills (me : Nat) (c : Backfill.Config) (faults : Faults) (fuel : Nat) : Nat → List BackfillSpec → Program Status Unit
  | _, [] => pure ()
  | n, s :: l => do
    let _ ← (Backfill.run me c s (faults n) fuel).mapError fun e => (default, e.2)
    runBackfills me c faults fuel (n + 1) l

def actions (p : Pipeline) (me : Nat) (faults : Faults) (fuel : Nat) : Actions where
  validate := lift p.validate
  expand := act (.start .expand) p.spec.newVersion
  compatibility := act (.start .compatibility) p.spec.newVersion
  backfill := runBackfills me p.backfillConfig faults fuel 0 p.backfills
  publish := act (.start .publish) p.spec.newVersion

/-- All parts are bound to one database, target and environment. -/
def Bound (p : Pipeline) (cfg : Config) : Prop :=
  p.virtualConfig = ⟨cfg.url, cfg.target, cfg.environment⟩ ∧ p.shadowConfig = ⟨cfg.url, cfg.target, cfg.environment⟩ ∧
    p.backfillConfig.url = cfg.url ∧ p.backfillConfig.target = cfg.target ∧ p.backfillConfig.environment = cfg.environment

instance (p : Pipeline) (cfg : Config) : Decidable (p.Bound cfg) := by
  unfold Bound
  infer_instance

end Pipeline

/-- `RunPipeline`, called in session `me`. -/
def runPipeline (me : Nat) (cfg : Config) (p : Pipeline) (faults : Pipeline.Faults) (fuel : Nat) : Program Status Status :=
  if ¬ p.Bound cfg then giveUp (.invalid (str "pipeline database, target, or environment binding mismatch"))
  else if p.hasExpand = false then do
    -- of the functions that `StartWithHooks` requires only this one can be missing
    let _ ← lift (defaults cfg)
    lift p.spec.validate
    giveUp (.invalid (str "all phase actions required"))
  else startWithHooks me cfg p.spec (p.actions me faults fuel) none

end AutoSql.Zdm.Start
