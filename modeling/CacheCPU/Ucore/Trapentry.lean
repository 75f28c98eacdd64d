import CacheCPU.Isa
import CacheCPU.Ucore.Divmod
import Mathlib.Data.Int.Notation

/-!
# The trap of `div`: `kern/trap/trapentry.S` and `kern/trap/ri.h`

The two halves of the assembly are run line by line on the registers of `Isa` and a memory of words;
`and` with a constant is the two instructions that the assembler makes of it. The trapframe is the
memory from `$a0` on, laid out as `struct trapframe`: the 32 registers by their numbers, then
`Status`, `Cause`, `EPC`, `BadVAddr`, `LO` and `HI`.
-/

namespace CacheCPU

namespace Ucore

open Isa

/-! ## Names -/

namespace Reg

abbrev zero : BitVec 5 := 0#5
abbrev at' : BitVec 5 := 1#5
abbrev v0 : BitVec 5 := 2#5
abbrev v1 : BitVec 5 := 3#5
abbrev a0 : BitVec 5 := 4#5
abbrev a1 : BitVec 5 := 5#5
abbrev a2 : BitVec 5 := 6#5
abbrev a3 : BitVec 5 := 7#5
abbrev t0 : BitVec 5 := 8#5
abbrev t1 : BitVec 5 := 9#5
abbrev t2 : BitVec 5 := 10#5
abbrev t3 : BitVec 5 := 11#5
abbrev t4 : BitVec 5 := 12#5
abbrev t5 : BitVec 5 := 13#5
abbrev t6 : BitVec 5 := 14#5
abbrev t7 : BitVec 5 := 15#5
abbrev s0 : BitVec 5 := 16#5
abbrev s1 : BitVec 5 := 17#5
abbrev s2 : BitVec 5 := 18#5
abbrev s3 : BitVec 5 := 19#5
abbrev s4 : BitVec 5 := 20#5
abbrev s5 : BitVec 5 := 21#5
abbrev s6 : BitVec 5 := 22#5
abbrev s7 : BitVec 5 := 23#5
abbrev t8 : BitVec 5 := 24#5
abbrev t9 : BitVec 5 := 25#5
abbrev k0 : BitVec 5 := 26#5
abbrev k1 : BitVec 5 := 27#5
abbrev gp : BitVec 5 := 28#5
abbrev sp : BitVec 5 := 29#5
abbrev fp : BitVec 5 := 30#5
abbrev ra : BitVec 5 := 31#5

end Reg

namespace Cp0

abbrev badVAddr : BitVec 5 := 8#5
abbrev status : BitVec 5 := 12#5
abbrev cause : BitVec 5 := 13#5
abbrev epc : BitVec 5 := 14#5

end Cp0

/-! ## Assembly -/

abbrev Memory := BitVec 32 → BitVec 32

/-- The processor and the memory, by words. -/
structure Machine where
  cpu : Isa.State
  mem : Memory

/-- A line of the assembly. `la` is an address, `beq` goes on behind the next `n` lines. -/
inductive Line
  | op (i : Isa.Instr)
  | la (t : BitVec 5) (a : BitVec 32)
  | lw (t : BitVec 5) (off : BitVec 32) (base : BitVec 5)
  | sw (t : BitVec 5) (off : BitVec 32) (base : BitVec 5)
  | beq (s t : BitVec 5) (n : ℕ)

namespace Line

def move (d s : BitVec 5) : Line := .op (.op3 .addu d s Reg.zero)

def andi (t s : BitVec 5) (imm : BitVec 16) : Line := .op (.opImm .andi t s imm)

def addiu (t s : BitVec 5) (imm : BitVec 16) : Line := .op (.opImm .addiu t s imm)

def and (d s t : BitVec 5) : Line := .op (.op3 .and d s t)

def or (d s t : BitVec 5) : Line := .op (.op3 .or d s t)

def mfc0 (t d : BitVec 5) : Line := .op (.mfc0 t d)

def mtc0 (t d : BitVec 5) : Line := .op (.mtc0 t d)

def mflo (d : BitVec 5) : Line := .op (.mflo d)

def mfhi (d : BitVec 5) : Line := .op (.mfhi d)

def mtlo (s : BitVec 5) : Line := .op (.mtlo s)

def mthi (s : BitVec 5) : Line := .op (.mthi s)

end Line

namespace Machine

variable (m : Machine)

/-- A line that is no branch. -/
def exec : Line → Machine
  | .op i => { m with cpu := i.exec 0#32 m.cpu }
  | .la t a => { m with cpu := m.cpu.set t a }
  | .lw t off base => { m with cpu := m.cpu.set t (m.mem (m.cpu.reg base + off)) }
  | .sw t off base => { m with mem := Function.update m.mem (m.cpu.reg base + off) (m.cpu.reg t) }
  | .beq _ _ _ => m

/-- The lines from behind the next `skip` ones on. -/
def run (m : Machine) : ℕ → List Line → Machine
  | _, [] => m
  | skip + 1, _ :: lines => run m skip lines
  | 0, .beq s t n :: lines => run m (if m.cpu.reg s = m.cpu.reg t then n else 0) lines
  | 0, line :: lines => run (m.exec line) 0 lines

end Machine

open CacheCPU.Ucore.Line Reg

/-- `__alltraps`, up to the call of `trap`. `kstackSp` is the address of `kstack_sp`. -/
def alltraps (kstackSp : BitVec 32) : List Line :=
  [mfc0 k0 Cp0.status,
    andi k0 k0 0x0010#16,
    .move k1 sp,
    .beq k0 zero 2,
    .la sp kstackSp,
    .lw sp 0#32 sp,
    addiu sp sp (-0xa0#16),
    .sw at' 0x04#32 sp,
    .sw v0 0x08#32 sp,
    .sw v1 0x0c#32 sp,
    .sw a0 0x10#32 sp,
    .sw a1 0x14#32 sp,
    .sw a2 0x18#32 sp,
    .sw a3 0x1c#32 sp,
    .sw t0 0x20#32 sp,
    .sw t1 0x24#32 sp,
    .sw t2 0x28#32 sp,
    .sw t3 0x2c#32 sp,
    .sw t4 0x30#32 sp,
    .sw t5 0x34#32 sp,
    .sw t6 0x38#32 sp,
    .sw t7 0x3c#32 sp,
    .sw s0 0x40#32 sp,
    .sw s1 0x44#32 sp,
    .sw s2 0x48#32 sp,
    .sw s3 0x4c#32 sp,
    .sw s4 0x50#32 sp,
    .sw s5 0x54#32 sp,
    .sw s6 0x58#32 sp,
    .sw s7 0x5c#32 sp,
    .sw t8 0x60#32 sp,
    .sw t9 0x64#32 sp,
    .sw gp 0x70#32 sp,
    .sw k1 0x74#32 sp,
    .sw fp 0x78#32 sp,
    .sw ra 0x7c#32 sp,
    mfc0 t4 Cp0.status,
    .sw t4 0x80#32 sp,
    mfc0 t5 Cp0.cause,
    .sw t5 0x84#32 sp,
    mfc0 t6 Cp0.epc,
    .sw t6 0x88#32 sp,
    mfc0 t7 Cp0.badVAddr,
    .sw t7 0x8c#32 sp,
    mflo t0,
    .sw t0 0x90#32 sp,
    mfhi t0,
    .sw t0 0x94#32 sp,
    -- and $t4, $t4, 0xffffffec
    addiu at' zero (-0x14#16),
    and t4 t4 at',
    mtc0 t4 Cp0.status,
    .move a0 sp,
    addiu sp sp (-0x10#16),
    .move fp sp]

/-- `__trapret`, up to `eret`. -/
def trapret : List Line :=
  [.lw t0 0x80#32 sp,
    mfc0 t1 Cp0.status,
    -- and $t1, $t1, 0xffffff00
    addiu at' zero (-0x100#16),
    and t1 t1 at',
    or t0 t0 t1,
    mtc0 t0 Cp0.status,
    .lw v0 0x08#32 sp,
    .lw v1 0x0c#32 sp,
    .lw a0 0x10#32 sp,
    .lw a1 0x14#32 sp,
    .lw a2 0x18#32 sp,
    .lw a3 0x1c#32 sp,
    .lw t0 0x20#32 sp,
    .lw t1 0x24#32 sp,
    .lw t2 0x28#32 sp,
    .lw t3 0x2c#32 sp,
    .lw t4 0x30#32 sp,
    .lw t5 0x34#32 sp,
    .lw t6 0x38#32 sp,
    .lw t7 0x3c#32 sp,
    .lw s0 0x40#32 sp,
    .lw s1 0x44#32 sp,
    .lw s2 0x48#32 sp,
    .lw s3 0x4c#32 sp,
    .lw s4 0x50#32 sp,
    .lw s5 0x54#32 sp,
    .lw s6 0x58#32 sp,
    .lw s7 0x5c#32 sp,
    .lw t8 0x60#32 sp,
    .lw t9 0x64#32 sp,
    .lw gp 0x70#32 sp,
    .lw k1 0x74#32 sp,
    .lw fp 0x78#32 sp,
    .lw ra 0x7c#32 sp,
    .lw k0 0x90#32 sp,
    mtlo k0,
    .lw k0 0x94#32 sp,
    mthi k0,
    .lw k0 0x88#32 sp,
    mtc0 k0 Cp0.epc,
    .lw at' 0x04#32 sp,
    addiu sp sp 0xa0#16,
    mfc0 k0 Cp0.status,
    andi k0 k0 0x0010#16,
    .beq k0 zero 1,
    .move sp k1]

/-! ## `ri_handler` -/

def excRI : BitVec 32 := 10#32

/-- The result and the memory; `none` is the failed assertion. -/
def riHandler (tf : BitVec 32) (mem : Memory) : Option (ℤ × Memory) :=
  if mem (tf + 0x84#32) >>> 2 &&& 0x1f#32 ≠ excRI then none
  else
    let inst := mem (mem (tf + 0x88#32))
    if inst &&& 0xfc00ffff#32 = 0x0000001a#32 then
      let reg1 := inst >>> 21 &&& 0x1f#32
      let reg2 := inst >>> 16 &&& 0x1f#32
      match divmod (mem (tf + 4#32 * reg1)) (mem (tf + 4#32 * reg2)) with
      | none => some (-1, mem)
      | some (q, r) =>
        let mem := Function.update mem (tf + 0x90#32) q
        let mem := Function.update mem (tf + 0x94#32) r
        some (0, Function.update mem (tf + 0x88#32) (mem (tf + 0x88#32) + 4#32))
    else some (-1, mem)

end Ucore

end CacheCPU
