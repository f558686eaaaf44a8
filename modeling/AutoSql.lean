import AutoSql.Schema.Selection
import AutoSql.Schema.Changes
import AutoSql.Executor.Resume
import AutoSql.Apply.Checkpoint
import AutoSql.Apply.Reconcile
import AutoSql.Down.Usable
import AutoSql.Migrate.Chain
import AutoSql.Approval.Gate
import AutoSql.Artifact.Registry
import AutoSql.Executor.Evidence
import AutoSql.Executor.Bookkeeping
import AutoSql.Plan.Edit
import AutoSql.Plan.Order
import AutoSql.Zdm.Ownership
import AutoSql.Zdm.Publication
import AutoSql.Fleet.Tenants
import AutoSql.Zdm.ShadowSync
import AutoSql.Audit.Router
import AutoSql.Fleet.State
import AutoSql.Fleet.Hooks
