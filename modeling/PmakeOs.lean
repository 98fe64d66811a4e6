import PmakeOs.Lib.LinkedList
import PmakeOs.Lib.Occurrences
import PmakeOs.Machine.Mmu
import PmakeOs.Machine.Bytes
import PmakeOs.Machine.X86
import PmakeOs.Lib.BlockCopy
import PmakeOs.Machine.Memmove
import PmakeOs.Kernel.Syscall
import PmakeOs.Kernel.Load
import PmakeOs.Paging.Steps
import PmakeOs.Paging.Preserve
import PmakeOs.Paging.Ledger
import PmakeOs.Paging.Operations
import PmakeOs.Paging.Refinement
import PmakeOs.Kernel.Local
import PmakeOs.Space.Effects
import PmakeOs.Space.Handlers
import PmakeOs.Lib.Loop
import PmakeOs.Lib.Circle
import PmakeOs.Lib.Ring
import PmakeOs.Lib.Sink
import PmakeOs.Lib.Bytes
import PmakeOs.Space.Teardown
import PmakeOs.Space.History
import PmakeOs.Space.Runs
import PmakeOs.Space.References
import PmakeOs.Kernel.Smp
import PmakeOs.Sched.Acts
import PmakeOs.Sched.Entries
import PmakeOs.Sched.Calm
import PmakeOs.Sched.Exclusion
import PmakeOs.Sched.Destruction
import PmakeOs.Sched.Finality
import PmakeOs.Calls.Dispatch
import PmakeOs.Calls.Writes
import PmakeOs.Calls.Frames
import PmakeOs.Calls.Ipc
import PmakeOs.Calls.Mailbox
import PmakeOs.Sched.Table
import PmakeOs.Space.Footprint
import PmakeOs.Calls.Authority
import PmakeOs.Calls.SendChecks
import PmakeOs.Sched.KernelLock
import PmakeOs.Sched.RoundRobin
import PmakeOs.Kernel.Boot
import PmakeOs.Boot.Pool
import PmakeOs.Boot.Trial
import PmakeOs.Boot.Checks
import PmakeOs.Boot.Regions
import PmakeOs.Boot.MemInit
import PmakeOs.Boot.Tables
import PmakeOs.Boot.BootUp
import PmakeOs.Boot.Accepts
import PmakeOs.Space.Reachable
import PmakeOs.Space.Freeing
import PmakeOs.Space.SelfMap
import PmakeOs.Space.Isolation
import PmakeOs.Space.Aliases
import PmakeOs.Space.Escalation
import PmakeOs.Space.Walks
import PmakeOs.Space.Passages
import PmakeOs.Space.Rewrites
import PmakeOs.Space.TwoCpus
import PmakeOs.Space.Coherence
import PmakeOs.Calls.Atomic
import PmakeOs.Calls.UserCheck
import PmakeOs.Trap.TaskState
import PmakeOs.Trap.UserMemory
import PmakeOs.Trap.PageFault
import PmakeOs.Trap.Nested
import PmakeOs.Console.Printfmt
import PmakeOs.Console.Cprintf
import PmakeOs.Console.Cputs
import PmakeOs.Console.Snprintf
import PmakeOs.Lib.Numeral
import PmakeOs.Lib.MaximalRuns
import PmakeOs.Lib.Reading
import PmakeOs.Console.Pieces
import PmakeOs.Console.Enough
import PmakeOs.Console.Cursor
import PmakeOs.Console.Numbers
import PmakeOs.Console.Fields
import PmakeOs.Console.Strtol
import PmakeOs.Console.Readline
import PmakeOs.Console.Monitor
import PmakeOs.Console.Input
import PmakeOs.Console.Screen
import PmakeOs.Console.Emitted
import PmakeOs.Trap.Upcall
import PmakeOs.Boot.FreeList
import PmakeOs.Boot.Exposure
import PmakeOs.Boot.Addresses
import PmakeOs.Debug.Stabs
import PmakeOs.Debug.Found
import PmakeOs.Debug.Eip
import PmakeOs.Debug.Reads
import PmakeOs.Debug.Inside
import PmakeOs.Debug.Line
import PmakeOs.Boot.MpConfig
import PmakeOs.Lib.Offset
import PmakeOs.Lib.Overlay
import PmakeOs.Boot.Loader
import PmakeOs.Boot.Devices
import PmakeOs.Boot.RegionAlloc
import PmakeOs.Boot.LoadIcode
import PmakeOs.User.Processes
import PmakeOs.User.Printed
import PmakeOs.Boot.Layout
import PmakeOs.Console.Line
