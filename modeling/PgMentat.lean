import PgMentat.AppendOnly
import PgMentat.Projection
import PgMentat.TxOrder
import PgMentat.Concurrency
import PgMentat.UniqueClaims
import PgMentat.PatternQuery
import PgMentat.QueryResults
import PgMentat.Typing
import PgMentat.ValueAtTx
import PgMentat.ResultDiff
import PgMentat.ProjectionRepair
import PgMentat.Excision
import PgMentat.Naming
import PgMentat.ReadPaths
import PgMentat.CasOutcome
import PgMentat.Ordered
import PgMentat.ReportedWrites
import PgMentat.NoHistory
import PgMentat.RetractEntity
import PgMentat.LookupRefs
import PgMentat.Redirects
import PgMentat.ConstantSearch
import PgMentat.Negation
import PgMentat.Disjunction
import PgMentat.Aggregation
import PgMentat.MissingValues
import PgMentat.OrderedRows
import PgMentat.ComponentExpansion
import PgMentat.PullMany
import PgMentat.PullRecursion
import PgMentat.ComputedVariables
import PgMentat.InstantReadback
import PgMentat.InstantUnits
import PgMentat.UpsertUnion
import PgMentat.StoreNames
import PgMentat.RecursiveViews
import PgMentat.Query.Stable
import PgMentat.Mentatd.SnapshotStability
import PgMentat.Mentatd.CacheTracking
import PgMentat.Mentatd.AcknowledgedWrites
import PgMentat.Mentatd.MsgpackRoundTrip
import PgMentat.Mentatd.MsgpackSafety
import PgMentat.Mentatd.TransitJsonExact
import PgMentat.Mentatd.TxReportText
