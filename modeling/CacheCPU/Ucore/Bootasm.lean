import CacheCPU.Isa
import CacheCPU.Lib.ByteMemory
import CacheCPU.Mmu
import CacheCPU.Ucore.Trapentry
import Mathlib.Logic.Relation

/-!
# The boot loader: `boot/bootasm.S` and `boot_rom`

The words of the ROM are run one after the other on the registers of `Isa` and a RAM of bytes.
Reads go to the RAM, the Flash or the ROM by the address; what a read of anything else returns is a
parameter. There is no TLB entry, so an address outside kseg0 and kseg1 ends the run, as does one
that is not a multiple of 4.
-/

namespace CacheCPU

namespace Boot

open Isa Ucore

/-! ## `rom.vhd` -/

def bootRom : List (BitVec 32) := [
  0x00000000#32, 0x10000001#32, 0x00000000#32, 0x3c10be00#32, 0x240f0000#32, 0x020f7821#32,
  0x8de90000#32, 0x8def0004#32, 0x000f7c00#32, 0x012f4825#32, 0x3c08464c#32, 0x3508457f#32,
  0x11090003#32, 0x00000000#32, 0x10000042#32, 0x00000000#32, 0x240f0038#32, 0x020f7821#32,
  0x8df10000#32, 0x8def0004#32, 0x000f7c00#32, 0x022f8825#32, 0x240f0058#32, 0x020f7821#32,
  0x8df20000#32, 0x8def0004#32, 0x000f7c00#32, 0x024f9025#32, 0x3252ffff#32, 0x240f0030#32,
  0x020f7821#32, 0x8df30000#32, 0x8def0004#32, 0x000f7c00#32, 0x026f9825#32, 0x262f0008#32,
  0x000f7840#32, 0x020f7821#32, 0x8df40000#32, 0x8def0004#32, 0x000f7c00#32, 0x028fa025#32,
  0x262f0010#32, 0x000f7840#32, 0x020f7821#32, 0x8df50000#32, 0x8def0004#32, 0x000f7c00#32,
  0x02afa825#32, 0x262f0004#32, 0x000f7840#32, 0x020f7821#32, 0x8df60000#32, 0x8def0004#32,
  0x000f7c00#32, 0x02cfb025#32, 0x12800010#32, 0x00000000#32, 0x12a0000e#32, 0x00000000#32,
  0x26cf0000#32, 0x000f7840#32, 0x020f7821#32, 0x8de80000#32, 0x8def0004#32, 0x000f7c00#32,
  0x010f4025#32, 0xae880000#32, 0x26d60004#32, 0x26940004#32, 0x26b5fffc#32, 0x1ea0fff4#32,
  0x00000000#32, 0x26310020#32, 0x2652ffff#32, 0x1e40ffd7#32, 0x00000000#32, 0x02600008#32,
  0x00000000#32, 0x1000ffff#32, 0x00000000#32, 0x1000ffff#32, 0x00000000#32, 0x00000000#32]

/-! ## The machine -/

structure State where
  cpu : Isa.State
  pc : BitVec 32
  ram : BitVec 23 → BitVec 8

/-- The register instructions that are in the ROM. -/
def decode (w : BitVec 32) : Option Instr :=
  if first w = F.zero then
    if last w = L.addu then some (.op3 .addu (rdOf w) (rsOf w) (rtOf w))
    else if last w = L.or then some (.op3 .or (rdOf w) (rsOf w) (rtOf w))
    else if last w = L.sll then some (.shift .sll (rdOf w) (rtOf w) (shamtOf w))
    else if last w = L.jr then some .jr
    else none
  else if first w = F.addiu then some (.opImm .addiu (rtOf w) (rsOf w) (w.extractLsb 15 0))
  else if first w = F.andi then some (.opImm .andi (rtOf w) (rsOf w) (w.extractLsb 15 0))
  else if first w = F.ori then some (.opImm .ori (rtOf w) (rsOf w) (w.extractLsb 15 0))
  else if first w = F.lui then some (.lui (rtOf w) (w.extractLsb 15 0))
  else if first w = F.beq ∨ first w = F.bgtz then some .branch
  else none

section Machine

variable (flash : BitVec 23 → BitVec 16) (elsewhere : BitVec 32 → BitVec 32)

/-- The addresses that bypass the TLB and raise nothing for a word. -/
def direct (a : BitVec 32) : Prop := notUseMmu a = true ∧ a.extractLsb 1 0 = 0b00#2

instance (a : BitVec 32) : Decidable (direct a) := inferInstanceAs (Decidable (_ ∧ _))

/-- A word of the Flash address space holds 16 bits of the Flash. -/
def State.read (s : State) (a : BitVec 32) : Option (BitVec 32) :=
  if direct a then
    if a.extractLsb 28 23 = 0#6 then some (ByteMemory.word s.ram (a.extractLsb 22 0))
    else if a.extractLsb 28 24 = 0x1e#5 then
      some (0x0000#16 ++ flash (a.extractLsb 23 2 ++ 0b0#1))
    else if a.extractLsb 28 12 = 0x10000#17 then
      some (bootRom.getD (a.extractLsb 11 2).toNat (elsewhere a))
    else some (elsewhere a)
  else none

/-- Only the RAM can be written. -/
def State.write (s : State) (a v : BitVec 32) : Option (BitVec 23 → BitVec 8) :=
  if direct a then
    if a.extractLsb 28 23 = 0#6 then some (ByteMemory.putWord s.ram (a.extractLsb 22 0) v)
    else some s.ram
  else none

/-- The address of the load or store `w`. -/
def State.address (s : State) (w : BitVec 32) : BitVec 32 :=
  s.cpu.reg (rsOf w) + (w.extractLsb 15 0).signExtend 32

/-- One instruction. -/
def State.step (s : State) : Option State := do
  let w ← s.read flash elsewhere s.pc
  let pc := nextPc w s.pc (s.cpu.reg (rsOf w)) (s.cpu.reg (rtOf w)) (s.cpu.cp0 Cp0.epc)
  if first w = F.lw then
    (s.read flash elsewhere (s.address w)).map fun v => ⟨s.cpu.set (rtOf w) v, pc, s.ram⟩
  else if first w = F.sw then
    (s.write (s.address w) (s.cpu.reg (rtOf w))).map fun ram => ⟨s.cpu, pc, ram⟩
  else (decode w).map fun i => ⟨i.exec s.pc s.cpu, pc, s.ram⟩

/-- The address of word `k` of the ROM. -/
def addr (k : ℕ) : BitVec 32 := 0x90000000#32 + 4#32 * BitVec.ofNat 32 k

/-- `done`, in words. -/
def done : ℕ := 77

/-- One instruction on the way to `done`. -/
def Next (s t : State) : Prop := s.pc ≠ addr done ∧ s.step flash elsewhere = some t

/-- The loader comes to `done`, and `t` is the state after the jump there. -/
def Boots (s t : State) : Prop :=
  ∃ u, Relation.ReflTransGen (Next flash elsewhere) s u ∧ u.pc = addr done ∧
    u.step flash elsewhere = some t

end Machine

/-- After a reset. The RAM and the registers but `$zero` hold anything. -/
structure Starts (s : State) : Prop where
  pc : s.pc = 0x90000000#32
  zero : s.cpu.reg Reg.zero = 0#32

/-! ## `bootasm.S` -/

/-- A line of the assembly; the target of a branch is given by the number of lines from the next
one. -/
inductive Line
  | addu (d s t : BitVec 5)
  | or (d s t : BitVec 5)
  | sll (d t h : BitVec 5)
  | addiu (t s : BitVec 5) (imm : BitVec 16)
  | andi (t s : BitVec 5) (imm : BitVec 16)
  | ori (t s : BitVec 5) (imm : BitVec 16)
  | lui (t : BitVec 5) (imm : BitVec 16)
  | lw (t : BitVec 5) (off : BitVec 16) (base : BitVec 5)
  | sw (t : BitVec 5) (off : BitVec 16) (base : BitVec 5)
  | beq (s t : BitVec 5) (off : BitVec 16)
  | bgtz (s : BitVec 5) (off : BitVec 16)
  | jr (s : BitVec 5)
deriving DecidableEq

/-- The word of an instruction with an immediate. -/
def encodeI (op : BitVec 6) (s t : BitVec 5) (imm : BitVec 16) : BitVec 32 := op ++ s ++ t ++ imm

/-- The word of an instruction with three registers. -/
def encodeR (s t d h : BitVec 5) (l : BitVec 6) : BitVec 32 := F.zero ++ s ++ t ++ d ++ h ++ l

def Line.encode : Line → BitVec 32
  | addu d s t => encodeR s t d 0#5 L.addu
  | or d s t => encodeR s t d 0#5 L.or
  | sll d t h => encodeR 0#5 t d h L.sll
  | addiu t s imm => encodeI F.addiu s t imm
  | andi t s imm => encodeI F.andi s t imm
  | ori t s imm => encodeI F.ori s t imm
  | lui t imm => encodeI F.lui 0#5 t imm
  | lw t off base => encodeI F.lw base t off
  | sw t off base => encodeI F.sw base t off
  | beq s t off => encodeI F.beq s t off
  | bgtz s off => encodeI F.bgtz s 0#5 off
  | jr s => encodeR s 0#5 0#5 0#5 L.jr

def flashStart : BitVec 32 := 0xbe000000#32
def elfMagic : BitVec 32 := 0x464c457f#32

def nop : Line := .sll Reg.zero Reg.zero 0#5

def b (off : BitVec 16) : Line := .beq Reg.zero Reg.zero off

/-- What the assembler makes of an address. -/
def la (t : BitVec 5) (a : BitVec 32) : List Line :=
  if a.extractLsb 31 16 = 0#16 then [.addiu t Reg.zero (a.extractLsb 15 0)]
  else if a.extractLsb 15 0 = 0#16 then [.lui t (a.extractLsb 31 16)]
  else [.lui t (a.extractLsb 31 16), .ori t t (a.extractLsb 15 0)]

open Reg

/-- From the address in `$t7`. -/
def loadWord (dst : BitVec 5) : List Line :=
  [.addu t7 s0 t7, .lw dst 0#16 t7, .lw t7 4#16 t7, .sll t7 t7 16#5, .or dst dst t7]

def loadWordI (dst : BitVec 5) (off : BitVec 32) : List Line := la t7 (off <<< 1) ++ loadWord dst

def loadWordR (dst : BitVec 5) (off : BitVec 16) (base : BitVec 5) : List Line :=
  [.addiu t7 base off, .sll t7 t7 1#5] ++ loadWord dst

def loadElf : List Line :=
  la s0 flashStart ++ loadWordI t1 0#32 ++ la t0 elfMagic ++
    [.beq t0 t1 3#16, nop, b 0x42#16, nop] ++
    loadWordI s1 28#32 ++ loadWordI s2 44#32 ++ [.andi s2 s2 0xffff#16] ++ loadWordI s3 24#32

def nextSec : List Line :=
  loadWordR s4 8#16 s1 ++ loadWordR s5 16#16 s1 ++ loadWordR s6 4#16 s1 ++
    [.beq s4 zero 0x10#16, nop, .beq s5 zero 0xe#16, nop]

def copySec : List Line :=
  loadWordR t0 0#16 s6 ++ [.sw t0 0#16 s4, .addiu s6 s6 4#16, .addiu s4 s4 4#16,
    .addiu s5 s5 (-4#16), .bgtz s5 (-12#16), nop]

def bootasm : List Line :=
  [nop, b 1#16, nop] ++ loadElf ++ nextSec ++ copySec ++
    [.addiu s1 s1 32#16, .addiu s2 s2 (-1#16), .bgtz s2 (-41#16), nop] ++
    [.jr s3, nop, b (-1#16), nop] ++ [b (-1#16), nop] ++ [nop]

end Boot

end CacheCPU
