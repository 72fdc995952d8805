import BugInsight.Runs
import BugInsight.Loop
import BugInsight.Programs
import BugInsight.TopoOrder
import BugInsight.HoldIntervals
import BugInsight.Largest
import BugInsight.Regex
import BugInsight.CommandLine
import BugInsight.Decimal
import BugInsight.Strings
import BugInsight.LinearCongruential
import BugInsight.SkipList
import BugInsight.Extents
import BugInsight.FirstFit
import BugInsight.GraphCycles.NodeSet
import BugInsight.GraphCycles.PointerMap
import BugInsight.GraphCycles.Graph
import BugInsight.GraphCycles.Search
import BugInsight.GraphCycles.Invariant
import BugInsight.GraphCycles.Nodes
import BugInsight.GraphCycles.Edges
import BugInsight.GraphCycles.Refinement
import BugInsight.GraphCycles.Vec
import BugInsight.GraphCycles.StoredNodeSet
import BugInsight.GraphCycles.NodeSet32
import BugInsight.GraphCycles.Graph32
import BugInsight.GraphCycles.Refinement32
import BugInsight.GraphCycles.Evolution
import BugInsight.GraphCycles.Registrations
import BugInsight.GraphCycles.CheckInvariants
import BugInsight.GraphCycles.Recorded
import BugInsight.GraphCycles.Representation
import BugInsight.GraphCycles.FindPath
import BugInsight.Held
import BugInsight.Report
import BugInsight.ExitStatus
import BugInsight.ThreadHistory
import BugInsight.Watchdog
import BugInsight.Monitor.Calls
import BugInsight.Monitor.Invariant
import BugInsight.Monitor.LockOrder
import BugInsight.Monitor.Reports
import BugInsight.Monitor.Threads
import BugInsight.Monitor.HoldTime
import BugInsight.Monitor.HeldLocks
import BugInsight.Monitor.Drained
import BugInsight.Monitor.Nesting
import BugInsight.Monitor.Ignored
import BugInsight.Monitor.DeadlockPath
import BugInsight.Monitor.Records
import BugInsight.Leak.Repository
import BugInsight.Leak.Hooks
import BugInsight.Leak.Monitors
import BugInsight.Leak.Tracking
import BugInsight.Leak.Reallocation
import BugInsight.Leak.Allocation
import BugInsight.Leak.Release
import BugInsight.Leak.Freeable
import BugInsight.Leak.Grouping
import BugInsight.Leak.Callstacks
import BugInsight.Leak.Symbols
import BugInsight.Iat.Jumps
import BugInsight.Iat.Patching
import BugInsight.Iat.Pass
import BugInsight.Iat.Exporters
import BugInsight.Iat.Invariant
import BugInsight.Iat.Reload
import BugInsight.Iat.RoundTrip
import BugInsight.Iat.InitRoutine
import BugInsight.Options.ModulePatterns
import BugInsight.Options.Wildcards
import BugInsight.Options.Parser
import BugInsight.Options.CommandLineParser
import BugInsight.Options.Agreement
import BugInsight.Options.Arguments
import BugInsight.Forwarding
import BugInsight.DetachedStart
import BugInsight.RuntimeApi
import BugInsight.GraphCycles.NodeSetRuns
import BugInsight.LowLevelAlloc.Levels
import BugInsight.LowLevelAlloc.Freelist
import BugInsight.LowLevelAlloc.Coalesce
import BugInsight.LowLevelAlloc.Allocation
import BugInsight.LowLevelAlloc.Clients
import BugInsight.LowLevelAlloc.DeleteArena
