import SlangNetlist.Analysis.BlockDrivers
import SlangNetlist.Analysis.ConstantSlices
import SlangNetlist.Analysis.ConstantSources
import SlangNetlist.Analysis.ControlDependence
import SlangNetlist.Analysis.IntervalDifference
import SlangNetlist.Analysis.ReadPrecision
import SlangNetlist.Analysis.ReadSources
import SlangNetlist.Analysis.WeakUpdates
import SlangNetlist.Build.BlockSensitivity
import SlangNetlist.Build.CanonicalBodies
import SlangNetlist.Build.CollectedCoverage
import SlangNetlist.Build.KeptBits
import SlangNetlist.Build.OutputPorts
import SlangNetlist.Build.PortBits
import SlangNetlist.Build.RegisteredWrites
import SlangNetlist.Build.ResolveRvalue
import SlangNetlist.Common.WildcardSpelling
import SlangNetlist.Concurrency.Deadlock
import SlangNetlist.Concurrency.EdgeInsertion
import SlangNetlist.Concurrency.InternRuns
import SlangNetlist.Concurrency.ResolveRuns
import SlangNetlist.Concurrency.TaskRuns
import SlangNetlist.Driver.FanQuery
import SlangNetlist.Driver.PathCommand
import SlangNetlist.Query.AllCycles
import SlangNetlist.Query.CombReachability
import SlangNetlist.Query.SearchTrace
import SlangNetlist.Serialization.LoadedQueries
import SlangNetlist.Serialization.Resave
import SlangNetlist.Tracking.ManagerCopies
