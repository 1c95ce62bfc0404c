import SistemasOperativos.Library.Codec
import SistemasOperativos.Library.Runs
import SistemasOperativos.Library.Interaction
import SistemasOperativos.Library.Inversion
import SistemasOperativos.Library.Avoidance
import SistemasOperativos.Library.Delivery
import SistemasOperativos.Library.LinkedList
import SistemasOperativos.Library.ListSegments
import SistemasOperativos.Library.RefCount
import SistemasOperativos.Library.Replacement
import SistemasOperativos.Library.RingBuffer
import SistemasOperativos.Library.Sieve
import SistemasOperativos.Library.Chunks
import SistemasOperativos.Library.Observation
import SistemasOperativos.FisopFs.Types
import SistemasOperativos.FisopFs.Paths
import SistemasOperativos.FisopFs.Entries
import SistemasOperativos.FisopFs.Lookup
import SistemasOperativos.FisopFs.Handlers
import SistemasOperativos.FisopFs.Image
import SistemasOperativos.FisopFs.System
import SistemasOperativos.FisopFs.Tree
import SistemasOperativos.FisopFs.Effects
import SistemasOperativos.FisopFs.Slots
import SistemasOperativos.FisopFs.ImageWriter
import SistemasOperativos.FisopFs.ImageReader
import SistemasOperativos.FisopFs.Loader
import SistemasOperativos.FisopFs.Reachability
import SistemasOperativos.FisopFs.Accounting
import SistemasOperativos.FisopFs.Resolution
import SistemasOperativos.FisopFs.PathBuffers
import SistemasOperativos.FisopFs.Naming
import SistemasOperativos.FisopFs.PathEffects
import SistemasOperativos.FisopFs.PathMap
import SistemasOperativos.FisopFs.Contents
import SistemasOperativos.FisopFs.ErrorConvention
import SistemasOperativos.FisopFs.TruncatedFlush
import SistemasOperativos.FisopFs.MissingDirectory
import SistemasOperativos.FisopFs.FailedCreation
import SistemasOperativos.FisopFs.ExposedBytes
import SistemasOperativos.FisopFs.Listing
import SistemasOperativos.FisopFs.LastComponent
import SistemasOperativos.FisopFs.Arguments
import SistemasOperativos.Jos.Types
import SistemasOperativos.Jos.Pmap
import SistemasOperativos.Jos.EnvTable
import SistemasOperativos.Jos.Sched
import SistemasOperativos.Jos.Syscall
import SistemasOperativos.Jos.Trap
import SistemasOperativos.Jos.Machine
import SistemasOperativos.Jos.PageOps
import SistemasOperativos.Jos.PageTables
import SistemasOperativos.Jos.Accounting
import SistemasOperativos.Jos.PageInsert
import SistemasOperativos.Jos.Sections
import SistemasOperativos.Jos.Boot
import SistemasOperativos.Jos.Decomposition
import SistemasOperativos.Jos.Ownership
import SistemasOperativos.Jos.OneCpu
import SistemasOperativos.Jos.Ipc
import SistemasOperativos.Jos.IpcTransfer
import SistemasOperativos.Jos.CowFault
import SistemasOperativos.Jos.ForkedEnvironments
import SistemasOperativos.Jos.Interleaving
import SistemasOperativos.Jos.ContextSwitch
import SistemasOperativos.Jos.WaitingTime
import SistemasOperativos.Jos.Console
import SistemasOperativos.Jos.Layout
import SistemasOperativos.Jos.AddressSpaces
import SistemasOperativos.Jos.TidyKernels
import SistemasOperativos.Jos.PageCalls
import SistemasOperativos.Jos.PageRuns
import SistemasOperativos.Jos.PageAccounting
import SistemasOperativos.Jos.Confinement
import SistemasOperativos.Jos.EnvIds
import SistemasOperativos.Jos.Priorities
import SistemasOperativos.Jos.PriorityAuthority
import SistemasOperativos.Jos.PageContents
import SistemasOperativos.Jos.Isolation
import SistemasOperativos.Jos.Fairness
import SistemasOperativos.Jos.PrioritySelection
import SistemasOperativos.Jos.History
import SistemasOperativos.Jos.UserMemCheck
import SistemasOperativos.Jos.ExceptionStack
import SistemasOperativos.Jos.UserMode
import SistemasOperativos.Jos.PgfaultUpcall
import SistemasOperativos.Jos.BootMap
import SistemasOperativos.Jos.Mmio
import SistemasOperativos.Jos.MemInit
import SistemasOperativos.Jos.FreeListOrder
import SistemasOperativos.Jos.KernelSpace
import SistemasOperativos.Jos.BootedKernel
import SistemasOperativos.Jos.BoostPeriod
import SistemasOperativos.Shell.Types
import SistemasOperativos.Shell.Parsing
import SistemasOperativos.Shell.CommandLine
import SistemasOperativos.Shell.Builtins
import SistemasOperativos.Shell.Processes
import SistemasOperativos.Shell.ExitStatus
import SistemasOperativos.Shell.Reaping
import SistemasOperativos.Shell.Words
import SistemasOperativos.Shell.Expansion
import SistemasOperativos.Shell.Redirections
import SistemasOperativos.Shell.Background
import SistemasOperativos.Shell.Execution
import SistemasOperativos.Shell.TemporaryVariables
import SistemasOperativos.Shell.Segments
import SistemasOperativos.Shell.EmptySegments
import SistemasOperativos.Shell.ParserBounds
import SistemasOperativos.Fork.Pipes
import SistemasOperativos.Fork.Primes
import SistemasOperativos.Fork.Descriptors
import SistemasOperativos.Fork.Phases
import SistemasOperativos.Fork.Coherence
import SistemasOperativos.Fork.Representation
import SistemasOperativos.Fork.Simulation
import SistemasOperativos.Fork.Progress
import SistemasOperativos.Fork.PrimeSieve
import SistemasOperativos.Fork.Xargs
