import SystemsProgramming.Foundation.Transition
import SystemsProgramming.Foundation.CArray
import SystemsProgramming.Foundation.Tally
import SystemsProgramming.Foundation.Slots
import SystemsProgramming.ThreadPool.Model
import SystemsProgramming.ThreadPool.Staff
import SystemsProgramming.ThreadPool.Crew
import SystemsProgramming.ThreadPool.Wakeups
import SystemsProgramming.ThreadPool.Sections
import SystemsProgramming.ThreadPool.TaskArray
import SystemsProgramming.ThreadPool.TaskSteps
import SystemsProgramming.ThreadPool.Occupancy
import SystemsProgramming.Foundation.Log
import SystemsProgramming.ThreadPool.Ledger
import SystemsProgramming.ThreadPool.Deletion
import SystemsProgramming.Foundation.Loop
import SystemsProgramming.Shell.Model
import SystemsProgramming.Shell.Evaluation
import SystemsProgramming.Shell.ShortCircuit
import SystemsProgramming.Shell.Redirection
import SystemsProgramming.Foundation.Heap
import SystemsProgramming.Foundation.Linked
import SystemsProgramming.UserFs.Model
import SystemsProgramming.UserFs.Layout
import SystemsProgramming.UserFs.Blocks
import SystemsProgramming.UserFs.Bytes
import SystemsProgramming.UserFs.Table
import SystemsProgramming.UserFs.Release
import SystemsProgramming.UserFs.Truncation
import SystemsProgramming.UserFs.Directory
import SystemsProgramming.Shell.Tokenizer
import SystemsProgramming.Shell.Parser
import SystemsProgramming.Shell.Status
import SystemsProgramming.Foundation.FreeSlot
import SystemsProgramming.Shell.Descriptors
import SystemsProgramming.Shell.Background
import SystemsProgramming.UserFs.Closing
import SystemsProgramming.UserFs.Creation
import SystemsProgramming.UserFs.Cells
import SystemsProgramming.UserFs.Limits
import SystemsProgramming.UserFs.Simulation
import SystemsProgramming.UserFs.SizeLimit
import SystemsProgramming.UserFs.Destroy
import SystemsProgramming.UserFs.Contents
import SystemsProgramming.UserFs.Positions
import SystemsProgramming.UserFs.ReadOnly
import SystemsProgramming.UserFs.Twins
import SystemsProgramming.UserFs.Stale
import SystemsProgramming.UserFs.Chains
import SystemsProgramming.UserFs.Frames
import SystemsProgramming.UserFs.Namespace
import SystemsProgramming.UserFs.Flat
import SystemsProgramming.UserFs.Refinement
import SystemsProgramming.UserFs.Enlarging
import SystemsProgramming.UserFs.Narrowing
import SystemsProgramming.UserFs.ResizeLimit
import SystemsProgramming.Foundation.Custody
import SystemsProgramming.Shell.Agreement
import SystemsProgramming.Shell.OpenFiles
import SystemsProgramming.Shell.Spacing
import SystemsProgramming.Foundation.Chain
import SystemsProgramming.HeapHelp.Ledger
import SystemsProgramming.HeapHelp.Threads
import SystemsProgramming.Foundation.Coroutine
import SystemsProgramming.Libcoro.Creation
import SystemsProgramming.Libcoro.Progress
import SystemsProgramming.Libcoro.Rounds
import SystemsProgramming.Libcoro.Scheduler
import SystemsProgramming.Foundation.Ascending
import SystemsProgramming.Libcoro.Teams
import SystemsProgramming.Sorting.Claims
import SystemsProgramming.Sorting.Merging
import SystemsProgramming.Sorting.Pool
import SystemsProgramming.Shell.Signals
import SystemsProgramming.Foundation.Splitting
import SystemsProgramming.Shell.Reading
import SystemsProgramming.Shell.Grouping
import SystemsProgramming.Shell.SingleQuotes
import SystemsProgramming.Foundation.SwapQueue
import SystemsProgramming.Foundation.Timespec
import SystemsProgramming.Sorting.Clock
import SystemsProgramming.ThreadPool.Deadline
import SystemsProgramming.ThreadPool.Fairness
import SystemsProgramming.Shell.Pointers
import SystemsProgramming.Foundation.Process
import SystemsProgramming.Shell.Dataflow
import SystemsProgramming.Shell.Meaning
import SystemsProgramming.Shell.Rendering
import SystemsProgramming.Shell.Script
import SystemsProgramming.Foundation.Decimal
import SystemsProgramming.Sorting.Texts
import SystemsProgramming.ThreadPool.Calls
import SystemsProgramming.ThreadPool.Completion
import SystemsProgramming.ThreadPool.Departure
import SystemsProgramming.UserFs.Footprint
import SystemsProgramming.UserFs.Isolation
import SystemsProgramming.UserFs.Transfers
import SystemsProgramming.Foundation.Handling
import SystemsProgramming.HeapHelp.Nesting
import SystemsProgramming.HeapHelp.Report
import SystemsProgramming.Sorting.Timing
