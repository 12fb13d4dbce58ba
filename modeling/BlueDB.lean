import BlueDB.Ledger.Bounds
import BlueDB.Ledger.BurnedIds
import BlueDB.Ledger.Closing
import BlueDB.Ledger.Resolutions
import BlueDB.Ledger.ChainOutcomes
import BlueDB.Evidence.Projection
import BlueDB.Sql.UniqueRuns
import BlueDB.Sql.ConcurrentIndex
import BlueDB.Sql.WriteConflicts
import BlueDB.Sql.SetMembership
import BlueDB.Sql.AppendKeys
import BlueDB.Sql.TableIds
import BlueDB.Sql.Guardrail
import BlueDB.Lakehouse.Numbers
import BlueDB.Lakehouse.Progress
import BlueDB.Lakehouse.Transparency
import BlueDB.Ledger.Projection
import BlueDB.Storage.ChunkedRuns
import BlueDB.Fts.Stopped
import BlueDB.Cte.Inlining
import BlueDB.Fts.Followed
import BlueDB.Fts.Lifecycle
import BlueDB.Fts.Counts
import BlueDB.Ha.Calls
import BlueDB.Ha.Demotion
import BlueDB.Server.FreshHandle
import BlueDB.Server.TasksStop
import BlueDB.Server.CellJson
import BlueDB.Collections.ConcurrentUpdates
import BlueDB.Query.FrontDoor
import BlueDB.Fts.Sealing
import BlueDB.Fts.TsQuery
import BlueDB.Fts.Tenants
import BlueDB.KeyRanges
import BlueDB.Evidence.Widest
import BlueDB.Evidence.LeafOrder
import BlueDB.Evidence.Binding
import BlueDB.Lakehouse.Rewrites
import BlueDB.Collections.CompoundMatch
import BlueDB.Sql.EquiJoins
import BlueDB.Query.Sketches
import BlueDB.Query.JsonPath
import BlueDB.Collections.Expiry
import BlueDB.Collections.Increments
