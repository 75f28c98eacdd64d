import CacheCPU.Board
import CacheCPU.Proofs.Step
import CacheCPU.Proofs.Control
import CacheCPU.Proofs.Entry
import CacheCPU.Proofs.Flight
import CacheCPU.Proofs.Physical
import CacheCPU.Proofs.Board
import CacheCPU.Isa
import CacheCPU.Proofs.Isa
import CacheCPU.Proofs.Precise
import CacheCPU.Proofs.Timer
import CacheCPU.Lib.OneHot
import CacheCPU.Proofs.Lookup
import CacheCPU.Proofs.Stage
import CacheCPU.Proofs.MappedRead
import CacheCPU.Ucore.Tlb
import CacheCPU.Proofs.TlbWrite
import CacheCPU.Proofs.TlbCoherence
import CacheCPU.Lib.Stutter
import CacheCPU.Proofs.Latency
import CacheCPU.Lib.ByteMemory
import CacheCPU.Proofs.Access
import CacheCPU.Proofs.Memory
import CacheCPU.Lib.LinkedRing
import CacheCPU.Proofs.FirstFit
import CacheCPU.Lib.RefCount
import CacheCPU.Proofs.PageRefs
import CacheCPU.Proofs.Vma
import CacheCPU.Proofs.CopyMm
import CacheCPU.Lib.LinkCycle
import CacheCPU.Proofs.Slob
import CacheCPU.Cadb.Config
import CacheCPU.Cadb.Link
import CacheCPU.Cadb.Parser
import CacheCPU.Lib.CircularBuffer
import CacheCPU.Proofs.Conformance
import CacheCPU.Proofs.Console
import CacheCPU.Proofs.Probe
import CacheCPU.Proofs.Sched
import CacheCPU.Proofs.Semaphore
import CacheCPU.Proofs.TimerList
import CacheCPU.Proofs.TlbStack
import CacheCPU.Decaf.FlowGraph
import CacheCPU.Decaf.Symbol
import CacheCPU.Decaf.TransPass2
import CacheCPU.Decaf.Translate
import CacheCPU.Lib.Forest
import CacheCPU.Lib.Loop
import CacheCPU.Proofs.Blocks
import CacheCPU.Proofs.Dispatch
import CacheCPU.Proofs.EmitTrace
import CacheCPU.Proofs.FileTable
import CacheCPU.Proofs.FlowGraph
import CacheCPU.Proofs.Classify
import CacheCPU.Proofs.CopyString
import CacheCPU.Proofs.Pgfault
import CacheCPU.Proofs.Literal
import CacheCPU.Proofs.Delivery
import CacheCPU.Proofs.Breakpoint
import CacheCPU.Proofs.Snapshot
import CacheCPU.Proofs.Session
import CacheCPU.Proofs.ProcTable
import CacheCPU.Proofs.Pulses
import CacheCPU.Proofs.Regions
import CacheCPU.Proofs.FlashRead
import CacheCPU.Proofs.Reserved
import CacheCPU.Proofs.Transmit
import CacheCPU.Proofs.Receive
import CacheCPU.Proofs.Divmod
import CacheCPU.Proofs.Printfmt
import CacheCPU.Proofs.Kmalloc
import CacheCPU.Proofs.Liveness
import CacheCPU.Proofs.Trapentry
import CacheCPU.Proofs.Disk0
import CacheCPU.Proofs.Exec
import CacheCPU.Proofs.Boot
import CacheCPU.Proofs.BuildSym
import CacheCPU.Proofs.Heap
import CacheCPU.Proofs.Mips
import CacheCPU.Proofs.SfsFiles
