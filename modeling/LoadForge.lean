import LoadForge.Controller.TallyAccount
import LoadForge.Main.Outcome
import LoadForge.Controller.PhaseDeltas
import LoadForge.Controller.ScheduleMemory
import LoadForge.Controller.Launch
import LoadForge.Journal.Corruption
import LoadForge.Journal.FailedAppend
import LoadForge.Main.JournalLocks
import LoadForge.Verification.Receivable
import LoadForge.Controller.ControlProtocol
import LoadForge.Verification.CompressionOracle
import LoadForge.Worker.PoolContract
import LoadForge.Worker.WholeBeats
import LoadForge.Verification.BreadthFirst
import LoadForge.Verification.MeshWalk
import LoadForge.Verification.PageRank
import LoadForge.Verification.SortOracle
import LoadForge.Explore.Experiment
import LoadForge.Workloads.FftStages
import LoadForge.Verification.GoldenFile
import LoadForge.Worker.CommandLine
import LoadForge.Worker.ControlCanonical
import LoadForge.Reporters.CsvLossless
import LoadForge.Reporters.JsonLossless
import LoadForge.Workloads.CyclingSchedules
import LoadForge.Workloads.MixedSchedules
import LoadForge.Telemetry.TimelineRuns
import LoadForge.Workloads.MixedNeighbours
import LoadForge.Verification.Regions
import LoadForge.Main.ResultFiles
import LoadForge.Primitives.Cache
import LoadForge.Worker.FrameFaults
import LoadForge.Worker.Pacing
import LoadForge.Worker.Channels
import LoadForge.Controller.Watched
