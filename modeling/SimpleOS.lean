import SimpleOS.Lib.Run
import SimpleOS.Lib.Rely
import SimpleOS.Lib.ByteMemory
import SimpleOS.Lib.FrameForest
import SimpleOS.Lib.Scan
import SimpleOS.Lib.Decimal
import SimpleOS.Lib.Fifo
import SimpleOS.Lib.Chain
import SimpleOS.Model.Bits
import SimpleOS.Model.Memphy
import SimpleOS.Model.Mm
import SimpleOS.Model.Loader
import SimpleOS.Model.ReadConfig
import SimpleOS.Model.FreeRegions
import SimpleOS.Soundness.FreeRegions
import SimpleOS.Model.PageTable
import SimpleOS.Model.Libmem
import SimpleOS.Proofs.Entries
import SimpleOS.Proofs.Unseen
import SimpleOS.Proofs.Tables
import SimpleOS.Proofs.Mapping
import SimpleOS.Proofs.Descent
import SimpleOS.Proofs.Paging
import SimpleOS.Model.Machine
import SimpleOS.Proofs.Regions
import SimpleOS.Proofs.Calls
import SimpleOS.Proofs.FirstPage
import SimpleOS.Proofs.Ownership
import SimpleOS.Soundness.Frames
import SimpleOS.Soundness.Regions
import SimpleOS.Soundness.ReadOverWrite
import SimpleOS.Soundness.Aliasing
import SimpleOS.Model.Cpu
import SimpleOS.Proofs.Instructions
import SimpleOS.Proofs.Spending
import SimpleOS.Soundness.Isolation
import SimpleOS.Model.Timer
import SimpleOS.Proofs.Timer
import SimpleOS.Model.Os
import SimpleOS.Lib.Tally
import SimpleOS.Proofs.Sched
import SimpleOS.Proofs.SystemCalls
import SimpleOS.Proofs.Headers
import SimpleOS.Proofs.Threads
import SimpleOS.Soundness.Barrier
import SimpleOS.Proofs.Places
import SimpleOS.Soundness.TimeSlices
import SimpleOS.Soundness.LoadTimes
import SimpleOS.Soundness.Scheduling
import SimpleOS.Soundness.Completion
import SimpleOS.Soundness.RunningList
import SimpleOS.Soundness.Idle
import SimpleOS.Model.Queue
import SimpleOS.Proofs.Queue
import SimpleOS.Soundness.Dispatch
import SimpleOS.Soundness.ArrayQueue
import SimpleOS.Model.SchedLocks
import SimpleOS.Soundness.Exclusion
import SimpleOS.Soundness.PageNumbers
import SimpleOS.Soundness.TableLaws
import SimpleOS.Soundness.Release
import SimpleOS.Soundness.FreeList
import SimpleOS.Soundness.Integrity
import SimpleOS.Soundness.Retirement
import SimpleOS.Proofs.Alike
import SimpleOS.Soundness.Uninitialised
import SimpleOS.Soundness.Growth
import SimpleOS.Soundness.Statistics
import SimpleOS.Soundness.Replacement
import SimpleOS.Soundness.Access
import SimpleOS.Soundness.Paths
import SimpleOS.Proofs.Swapping
import SimpleOS.Soundness.FailedAccess
import SimpleOS.Soundness.Registers
import SimpleOS.Soundness.PageUpdates
import SimpleOS.Lib.Cover
import SimpleOS.Proofs.FreeRegions
import SimpleOS.Soundness.Configuration
import SimpleOS.Soundness.LoadRoundTrip
import SimpleOS.Proofs.Faults
import SimpleOS.Soundness.Demand
import SimpleOS.Spec.Process
import SimpleOS.Lib.Views
import SimpleOS.Proofs.PrivateMemory
import SimpleOS.Soundness.PrivateMemory
import SimpleOS.Lib.Ranking
import SimpleOS.Soundness.Schedules
import SimpleOS.Soundness.WorkConservation
import SimpleOS.Soundness.Progress
import SimpleOS.Soundness.Makespan
import SimpleOS.Soundness.SpeedLimits
import SimpleOS.Soundness.Response
import SimpleOS.Soundness.SwapDevice
import SimpleOS.Soundness.RangeMapping
import SimpleOS.Soundness.Escape
import SimpleOS.Model.Main
import SimpleOS.Soundness.FromFiles
import SimpleOS.Soundness.FullLoad
import SimpleOS.Soundness.Waiting
