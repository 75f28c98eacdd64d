import CacheCPU.Cpu
import Mathlib.Logic.Function.Iterate

/-!
# The CPU on a device of any latency

A device serves requests one at a time: it answers each at once, or is busy for a number of edges
of `cpu_clk` first. What it answers depends on the requests only, how long it takes on a timing
that is chosen freely; while it is busy its data lines show anything.
-/

namespace CacheCPU

/-- A request to the physical level. -/
inductive Request
  | read (addr : BitVec 24)
  | write (addr : BitVec 24) (data : BitVec 32)
deriving DecidableEq

/-- The requests that leave at the last falling edge. -/
def Cpu.sent (s : Cpu) : List Request :=
  (if s.mmu.toPhysicalReadEnable then [.read s.mmu.toPhysicalAddr] else []) ++
    if s.mmu.toPhysicalWriteEnable then [.write s.mmu.toPhysicalAddr s.mmu.toPhysicalData] else []

/-- A device with states in `σ`: how it serves a request, and what it drives when idle. -/
structure Device (σ : Type) where
  serve : σ → Request → σ
  data : σ → BitVec 32
  serial : σ → Bool

/-- For each request the number of edges that the device is busy, and what its data lines show at
each of them. -/
structure Timing where
  busy : ℕ → ℕ
  lines : ℕ → ℕ → BitVec 32

/-- The CPU and the device before a rising edge: the device is busy for `wait` more edges and has
been sent `served` requests. -/
structure World (σ : Type) where
  cpu : Cpu
  dev : σ
  wait : ℕ
  served : ℕ

namespace World

variable {σ : Type} (D : Device σ) (T : Timing) (w : World σ)

/-- What the device drives with `k` busy edges to go. -/
def out (k : ℕ) : PhyOut :=
  if k = 0 then ⟨D.data w.dev, true, D.serial w.dev⟩
  else ⟨T.lines w.served k, false, D.serial w.dev⟩

def machine : Machine := ⟨w.cpu, w.out D T w.wait⟩

/-- A cycle of `cpu_clk`: two edges, and a new request after the second. -/
def step : World σ :=
  let cpu := w.cpu.cycle (w.out D T w.wait) (w.out D T (w.wait - 1))
  { cpu
    dev := cpu.sent.foldl D.serve w.dev
    wait := if cpu.sent = [] then w.wait - 2 else T.busy w.served
    served := w.served + cpu.sent.length }

/-- The world after `n` cycles. -/
def run (n : ℕ) : World σ := (step D T)^[n] w

/-- The CPU after reset, the device idle. -/
def IsStart : Prop := w.cpu.IsReset ∧ w.wait = 0

/-! ## What is observed -/

/-- The architectural state: the program counter and the next one, the registers, `HI` and `LO`,
CP0, the TLB, and the memory behind the device. -/
structure Arch (σ : Type) where
  pc : BitVec 32
  nextPc : BitVec 32
  regs : BitVec 5 → BitVec 32
  hiLo : BitVec 64
  cp0 : BitVec 5 → BitVec 32
  tlb : Tlb
  memory : σ

def arch : Arch σ where
  pc := w.cpu.pcReg
  nextPc := w.cpu.pcToMmu
  regs := w.cpu.archRegs
  hiLo := w.cpu.alu.hiLo
  cp0 := w.cpu.cp0.reg
  tlb := w.cpu.mmu.tlbMem
  memory := w.dev

/-- The state after an edge of `WriteB` or `Exc`. -/
def point : List (Arch σ) :=
  if (w.machine D T).state = .writeB ∨ (w.machine D T).state = .exc then [(w.step D T).arch]
  else []

/-- The stages of the current instruction so far. A stage begins at an edge where the device is
idle. -/
def stages : ℕ → List Status
  | 0 => []
  | n + 1 =>
    if (w.run D T n).wait = 0 then
      if ((w.run D T n).machine D T).state = .insF then [.insF]
      else stages n ++ [((w.run D T n).machine D T).state]
    else stages n

end World

end CacheCPU
