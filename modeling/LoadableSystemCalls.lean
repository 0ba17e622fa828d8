import LoadableSystemCalls.RegistryOrder
import LoadableSystemCalls.TaskRegistration
import LoadableSystemCalls.ReferenceCounts
import LoadableSystemCalls.RegistrationMap
import LoadableSystemCalls.SyscallHooks
import LoadableSystemCalls.ModuleUnload
import LoadableSystemCalls.CloneRegistration
import LoadableSystemCalls.CStrings
import LoadableSystemCalls.TraceLog
import LoadableSystemCalls.HexDecoding
import LoadableSystemCalls.FileScan
import LoadableSystemCalls.BlacklistPaging
import LoadableSystemCalls.VirusCheck
import LoadableSystemCalls.BlacklistVerdict
import LoadableSystemCalls.AntivirusOpen
import LoadableSystemCalls.TaskEndings
import LoadableSystemCalls.TraceSafety
import LoadableSystemCalls.ScanRounds
import LoadableSystemCalls.ProtectModule
import LoadableSystemCalls.GuardedWrite
import LoadableSystemCalls.TextBuffers
import LoadableSystemCalls.VectorReport
import LoadableSystemCalls.ReportExactness
import LoadableSystemCalls.BlacklistLines
import LoadableSystemCalls.HexTokens
import LoadableSystemCalls.SystemMap
import LoadableSystemCalls.DriverSetup
import LoadableSystemCalls.SymbolLookup
import LoadableSystemCalls.DriverLoad
import LoadableSystemCalls.SizeCoverage
import LoadableSystemCalls.FailureReports
import LoadableSystemCalls.AllocationFailures
import LoadableSystemCalls.TraceReadiness
import LoadableSystemCalls.HelperStatements
import LoadableSystemCalls.UnlockedCalls
import LoadableSystemCalls.OwnedCells
import LoadableSystemCalls.RecordHeap
import LoadableSystemCalls.CallRouting
import LoadableSystemCalls.Descendants
import LoadableSystemCalls.TracedRuns
import LoadableSystemCalls.ConcurrentChain
import LoadableSystemCalls.ConcurrentRegistry
import LoadableSystemCalls.LogReading
import LoadableSystemCalls.PublishedFields
import LoadableSystemCalls.RacedCalls
import LoadableSystemCalls.ScannedOpens
import LoadableSystemCalls.CommandLine
import LoadableSystemCalls.TraceSessions
import LoadableSystemCalls.ProofOutlines
import LoadableSystemCalls.RacedTraces
