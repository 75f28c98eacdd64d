import CacheCPU.Cpu
import CacheCPU.PhyMem

/-!
# The whole `cacpu`

The CPU with its physical level. `clks` counts down: in one cycle of `cpu_clk = clks(2)` the clock
of the physical level, `clks(0)`, rises four times, the first together with the rising edge of
`cpu_clk` and the third together with its falling edge. Edges that coincide read what was there
before them.
-/

namespace CacheCPU

/-- The CPU and the physical level, before a rising edge of `cpu_clk`. -/
structure Board where
  cpu : Cpu
  phys : Physical

namespace Board

variable (I : Image) (b : Board)

/-- What comes from outside in the four fast edges of a cycle. -/
structure Exts where
  e0 : Ext
  e1 : Ext
  e2 : Ext
  e3 : Ext

/-- The physical level at the falling edge of `cpu_clk`, after two fast edges. -/
def phys2 (x : Exts) : Physical :=
  (b.phys.tick I x.e0 b.cpu.mmu).tick I x.e1 (b.cpu.rise b.phys.out).mmu

/-- The CPU after the cycle. -/
def cpu' (x : Exts) : Cpu := b.cpu.cycle b.phys.out (b.phys2 I x).out

/-- One cycle of `cpu_clk`. -/
def cycle (x : Exts) : Board where
  cpu := b.cpu' I x
  phys := ((b.phys2 I x).tick I x.e2 (b.cpu.rise b.phys.out).mmu).tick I x.e3 (b.cpu' I x).mmu

/-- The machine that a board is, its physical level seen through its outputs. -/
def machine : Machine := ⟨b.cpu, b.phys.out⟩

def IsReset : Prop := b.cpu.IsReset ∧ b.phys.IsReset

/-- The boards that some run from reset passes through. -/
inductive Reachable : Board → Prop
  | reset {b : Board} : b.IsReset → Reachable b
  | cycle {b : Board} (x : Exts) : Reachable b → Reachable (b.cycle I x)

end Board

end CacheCPU
