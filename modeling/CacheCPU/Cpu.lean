import CacheCPU.CP0
import CacheCPU.Mmu

/-!
# The top level of the CPU

`cacpu` wires the units together and steps through the stages. `state` is combinational: the
stage whose rising edge comes next. It is the current stage again while the physical level is
busy, `Exc` if some unit reports an event, and the next stage otherwise. A cycle of `cpu_clk` is a
rising edge, where every unit reads what the others held before it, and a falling edge, where the
exception codes and the request to the physical level are set.
-/

namespace CacheCPU

/-- The registers of the CPU. -/
structure Cpu where
  oldState : Status
  nextState : Status
  hasMem1 : Bool
  hasMem2 : Bool
  badVAddr : BitVec 32
  pcReg : BitVec 32
  id : IDecode
  alu : Alu
  wb : WB
  gpr : GeneralRegister
  cp0 : CP0
  exc : Exception
  mmu : Mmu

namespace Cpu

variable (s : Cpu) (p : PhyOut)

/-! ## The combinational signals -/

def epc : BitVec 32 := s.cp0.reg CP0.epc

def ebase : BitVec 32 := s.cp0.reg CP0.ebase

def rpc : BitVec 32 := s.pcReg + 4#32

/-- `PC_to_mmu`: `EPC` after an `ERET`, else `EBase` after an event, else what `WB` computed. -/
def pcToMmu : BitVec 32 :=
  if s.id.eretEnable then s.epc else if s.exc.pcSel0 then s.ebase else s.wb.pcSrc

/-- `tlb_write_value`: what `TLBWI` writes. -/
def tlbWriteValue : BitVec 67 := s.cp0.tlbWriteStruct

/-- What the MMU reads from the other units. -/
def mmuIn : MmuIn where
  ifAddr := s.pcToMmu
  virtualAddr := s.alu.result
  readEnable := s.id.memOp.getLsbD 2
  writeEnable := s.id.memOp.getLsbD 1
  tlbWriteStruct := s.tlbWriteValue
  tlbWriteEnable := s.id.tlbwiEnable
  alignType := s.id.alignType

def instrFromMmu : BitVec 32 := s.mmu.instruction p

def dataFromMmu : BitVec 32 := s.mmu.dataOut p

/-- The value a store sends: the register, or the merged word of `SB`. -/
def writeValueFromMem : BitVec 32 :=
  memWriteValue s.id.memOp s.alu.result (s.dataFromMmu p) s.gpr.rtValue

/-- Interrupts are taken only between instructions, with `IE` set and `EXL` clear. -/
def clockInterToExcep : Bool :=
  s.oldState == .writeB && s.cp0.compareInterrupt && !s.cp0.exl && s.cp0.ie

def serialInterToExcep : Bool :=
  s.oldState == .writeB && p.serial && !s.cp0.exl && s.cp0.ie

def excep : Bool :=
  s.clockInterToExcep || s.serialInterToExcep p || s.mmu.excCode != 0#3 || s.id.excCode != 0#2

/-- The stage whose rising edge comes next. -/
def state : Status :=
  if p.ready then (if s.excep p then .exc else s.nextState) else s.oldState

def exceptionIn : ExceptionIn where
  mmuExcCode := s.mmu.excCode
  serialInt := s.serialInterToExcep p
  compareInterrupt := s.clockInterToExcep
  idExcCode := s.id.excCode
  pc := s.pcReg
  pcMmu := s.pcToMmu
  vAddr := s.badVAddr
  oldEntryHi := (s.cp0.reg CP0.entryHi).extractLsb 31 12
  oldInterruptCode := s.cp0.interruptCode

/-! ## The edges -/

/-- The stage after `st`. -/
def succ (st : Status) : Status :=
  match st with
  | .insF => .insD
  | .insD => .exe
  | .exe => if s.hasMem1 then .mem1 else .writeB
  | .mem1 => if s.hasMem2 then .mem2 else .writeB
  | .mem2 => .writeB
  | .writeB => .insF
  | .exc => .insF

/-- A rising edge of `cpu_clk`. -/
def rise : Cpu :=
  let st := s.state p
  { oldState := st
    nextState := s.succ st
    hasMem1 := if st = .insD then isMem (first (s.instrFromMmu p)) else s.hasMem1
    hasMem2 := if st = .insD then first (s.instrFromMmu p) == F.sb else s.hasMem2
    badVAddr :=
      if st = .insF then s.pcToMmu
      else if st = .mem1 ∨ st = .mem2 then s.alu.result
      else s.badVAddr
    pcReg :=
      if st = .insF ∧ p.ready then
        if s.id.eretEnable = false then (if s.exc.pcSel0 then s.ebase else s.wb.pcSrc)
        else s.epc
      else s.pcReg
    id := s.id.rise st (s.instrFromMmu p)
    alu := s.alu.rise st s.id.aluOps s.gpr.rsValue s.gpr.rtValue s.id.imme s.cp0.addrValue
    wb := s.wb.rise st s.id s.rpc (s.dataFromMmu p) s.cp0.addrValue s.alu.result
      s.gpr.rsValue s.gpr.rtValue
    gpr := s.gpr.rise st (rsOf (s.instrFromMmu p)) (rtOf (s.instrFromMmu p)) s.wb
    cp0 := s.cp0.rise st (rdOf (s.instrFromMmu p)) s.id.cp0Op s.gpr.rtValue s.exc
      s.id.eretEnable
    exc := s.exc.rise st (s.exceptionIn p)
    mmu := s.mmu.rise st p.ready s.mmuIn }

/-- A falling edge of `cpu_clk`. -/
def fall : Cpu :=
  { s with
    id := s.id.fall
    mmu := s.mmu.fall p.ready (s.writeValueFromMem p) s.mmuIn }

/-- A request is on its way to the physical level. -/
def requests : Bool := s.mmu.toPhysicalReadEnable || s.mmu.toPhysicalWriteEnable

/-- A cycle: `p` is what the physical level drives at the rising edge, `q` at the falling
edge. -/
def cycle (q : PhyOut) : Cpu := (s.rise p).fall q

/-- The registers after reset, `e = '0'`. Registers that reset leaves alone hold anything. -/
structure IsReset : Prop where
  oldState : s.oldState = .insF
  nextState : s.nextState = .insF
  badVAddr : s.badVAddr = 0#32
  pcReg : s.pcReg = 0x90000000#32
  id : s.id.IsReset
  wb : s.wb.IsReset
  gpr : s.gpr.IsReset
  cp0 : s.cp0.IsReset
  exc : s.exc.IsReset
  mmu : s.mmu.IsReset

/-- The general registers with the write that the next edge performs. -/
def archRegs : BitVec 5 → BitVec 32 := s.gpr.written s.wb

end Cpu

/-! ## The machine -/

/-- The CPU before a rising edge, with what the physical level drives there. -/
structure Machine where
  cpu : Cpu
  phy : PhyOut

namespace Machine

variable (m : Machine)

def state : Status := m.cpu.state m.phy

/-- The word that `IDecode` sees. -/
def instr : BitVec 32 := m.cpu.instrFromMmu m.phy

/-- One cycle of `cpu_clk`. The physical level is any device that does not become busy before the
falling edge, and after it only in answer to a request. -/
inductive Step : Machine → Machine → Prop
  | cycle (m : Machine) (q p' : PhyOut) (hq : m.phy.ready → q.ready)
      (hp : m.phy.ready → (m.cpu.cycle m.phy q).requests = false → p'.ready) :
      Step m ⟨m.cpu.cycle m.phy q, p'⟩

/-- The machine after reset, the physical level idle. -/
def IsReset : Prop := m.cpu.IsReset ∧ m.phy.ready = true

/-- The states that some run from reset passes through. -/
inductive Reachable : Machine → Prop
  | reset {m : Machine} : m.IsReset → Reachable m
  | step {m m' : Machine} : Reachable m → Step m m' → Reachable m'

end Machine

end CacheCPU
