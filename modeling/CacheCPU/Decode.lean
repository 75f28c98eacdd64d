import CacheCPU.Common

/-!
# Instruction decoding

`IDecode` latches the word fetched and the control words decoded from it at the rising edge of
`InsD`, where the five decode tables are evaluated side by side; they stay until the next `InsD`,
except `eret_enable`, which the next `InsF` clears. A syscall or an undefined word raises its
exception code at the falling edge of `InsD`, for one cycle.
-/

namespace CacheCPU

section Tables

/-- `pc_op`: where the next program counter comes from. -/
def pcOp (f l : BitVec 6) : BitVec 2 :=
  if f = F.zero then
    if l = L.jalr then 0b11#2
    else if l = L.jr then 0b11#2
    else 0b00#2
  else if f = F.beq then 0b01#2
  else if f = F.bgez then 0b01#2
  else if f = F.bgtz then 0b01#2
  else if f = F.blez then 0b01#2
  else if f = F.bne then 0b01#2
  else if f = F.j then 0b10#2
  else if f = F.jal then 0b10#2
  else 0b00#2

/-- `comp_op`: the branch condition; `b16` is `instruction(16)`. -/
def compOp (f : BitVec 6) (b16 : Bool) : BitVec 3 :=
  if f = F.beq then 0b000#3
  else if f = F.bgez then (if b16 then 0b001#3 else 0b100#3)
  else if f = F.bgtz then 0b010#3
  else if f = F.blez then 0b011#3
  else if f = F.bne then 0b101#3
  else 0b000#3

/-- The immediate: shift amount, zero-extended, jump target or sign-extended. -/
def imme (w : BitVec 32) : BitVec 32 :=
  if first w = F.zero then
    if last w = L.sll ∨ last w = L.sra ∨ last w = L.srl then (shamtOf w).zeroExtend 32
    else 0#32
  else if first w = F.sltiu ∨ first w = F.andi ∨ first w = F.ori ∨ first w = F.xori then
    (w.extractLsb 15 0).zeroExtend 32
  else if first w = F.j ∨ first w = F.jal then (w.extractLsb 25 0).signExtend 32
  else (w.extractLsb 15 0).signExtend 32

/-- `mem_op`: `mem_read`, `mem_write` and whether the value is merged into the word read. -/
def memOp (f : BitVec 6) : BitVec 3 :=
  if f = F.zero then memDisable
  else if f = F.lw then 0b100#3
  else if f = F.lb then 0b100#3
  else if f = F.lbu then 0b100#3
  else if f = F.lhu then 0b100#3
  else if f = F.sw then 0b010#3
  else if f = F.sb then 0b111#3
  else memDisable

/-- `align_type`: how many low address bits an access must have clear. -/
def alignType (f : BitVec 6) : BitVec 2 :=
  if f = F.lb ∨ f = F.lbu ∨ f = F.sb then alignTypeByte
  else if f = F.lhu then alignTypeWord
  else alignTypeQuad

/-- `wb_op`: the destination register and the value written to it; `b23` is
`instruction(23)`. -/
def wbOp (f l : BitVec 6) (b23 : Bool) : BitVec 5 :=
  if f = F.zero then
    if l = L.jalr then 0b01010#5
    else if l = L.jr then wbDisable
    else if l = L.mult then wbDisable
    else if l = L.mtlo then wbDisable
    else if l = L.mthi then wbDisable
    else 0b01000#5
  else if f = F.addiu then 0b00000#5
  else if f = F.slti then 0b00000#5
  else if f = F.sltiu then 0b00000#5
  else if f = F.andi then 0b00000#5
  else if f = F.lui then 0b00000#5
  else if f = F.ori then 0b00000#5
  else if f = F.xori then 0b00000#5
  else if f = F.jal then 0b10010#5
  else if f = F.lw then 0b00001#5
  else if f = F.lb then 0b00100#5
  else if f = F.lbu then 0b00011#5
  else if f = F.sb then wbDisable
  else if f = F.lhu then 0b00101#5
  else if f = F.mfc0 then (if b23 then wbDisable else 0b00110#5)
  else wbDisable

/-- `alu_ops` (both sources and the operation), with `ins_undef` beside it: a word no row
matches is undefined. -/
def aluOps (f l : BitVec 6) : BitVec 9 × Bool :=
  if f = F.zero then
    if l = L.addu then (0b000000000#9, false)
    else if l = L.slt then (0b000001010#9, false)
    else if l = L.sltu then (0b000001011#9, false)
    else if l = L.subu then (0b000000001#9, false)
    else if l = L.mult then (0b000010000#9, false)
    else if l = L.mflo then (0b000010001#9, false)
    else if l = L.mfhi then (0b000010010#9, false)
    else if l = L.mtlo then (0b000010011#9, false)
    else if l = L.mthi then (0b000010100#9, false)
    else if l = L.jalr then (0b001000000#9, false)
    else if l = L.jr then (0b001000000#9, false)
    else if l = L.and then (0b000000011#9, false)
    else if l = L.nor then (0b000000110#9, false)
    else if l = L.or then (0b000000100#9, false)
    else if l = L.xor then (0b000000101#9, false)
    else if l = L.sll then (0b010000111#9, false)
    else if l = L.sllv then (0b000000111#9, false)
    else if l = L.sra then (0b010001000#9, false)
    else if l = L.srav then (0b000001000#9, false)
    else if l = L.srl then (0b010001001#9, false)
    else if l = L.srlv then (0b000001001#9, false)
    else if l = L.syscall then (aluDisable, false)
    else (aluDisable, true)
  else if f = F.addiu then (0b000100000#9, false)
  else if f = F.slti then (0b000101010#9, false)
  else if f = F.sltiu then (0b000101011#9, false)
  else if f = F.andi then (0b000100011#9, false)
  else if f = F.lui then (0b110100111#9, false)
  else if f = F.ori then (0b000100100#9, false)
  else if f = F.xori then (0b000100101#9, false)
  else if f = F.beq then (0b000000010#9, false)
  else if f = F.bne then (0b000000010#9, false)
  else if f = F.bgez then (0b001000001#9, false)
  else if f = F.bgtz then (0b001000001#9, false)
  else if f = F.blez then (0b001000001#9, false)
  else if f = F.lw then (0b000100000#9, false)
  else if f = F.sw then (0b000100000#9, false)
  else if f = F.lb then (0b000100000#9, false)
  else if f = F.lbu then (0b000100000#9, false)
  else if f = F.sb then (0b000100000#9, false)
  else if f = F.lhu then (0b000100000#9, false)
  else if f = F.j then (aluDisable, false)
  else if f = F.jal then (aluDisable, false)
  else if f = F.cache then (aluDisable, false)
  else if f = F.eret then (aluDisable, false)
  else (aluDisable, true)

def isEret (w : BitVec 32) : Bool := first w == F.eret && last w == L.eret

def isTlbwi (w : BitVec 32) : Bool := first w == F.tlbwi && last w == L.tlbwi

/-- `cp0_op`: the word writes a CP0 register. -/
def isMtc0 (w : BitVec 32) : Bool :=
  first w == F.mtc0 && last w == L.mtc0 && w.getLsbD 23

def isSyscall (w : BitVec 32) : Bool := first w == F.zero && last w == L.syscall

/-- `has_mem1`: loads and stores. -/
def isMem (f : BitVec 6) : Bool :=
  f == F.lw || f == F.lb || f == F.lbu || f == F.lhu || f == F.sw || f == F.sb

end Tables

/-- The registers of `IDecode`. -/
structure IDecode where
  insReg : BitVec 32
  stateReg : Status
  rsAddr : BitVec 5
  rtAddr : BitVec 5
  rdAddr : BitVec 5
  pcOp : BitVec 2
  eretEnable : Bool
  compOp : BitVec 3
  imme : BitVec 32
  aluOps : BitVec 9
  memOp : BitVec 3
  tlbwiEnable : Bool
  alignType : BitVec 2
  wbOp : BitVec 5
  cp0Op : Bool
  insUndef : Bool
  excCode : BitVec 2
  excCounter : Bool

namespace IDecode

/-- What the rising edge of `InsD` latches from the word fetched. `eret_enable` is set here and
never cleared here. -/
def latch (d : IDecode) (w : BitVec 32) : IDecode where
  insReg := w
  stateReg := .insD
  rsAddr := rsOf w
  rtAddr := rtOf w
  rdAddr := rdOf w
  pcOp := CacheCPU.pcOp (first w) (last w)
  eretEnable := if isEret w then true else d.eretEnable
  compOp := CacheCPU.compOp (first w) (w.getLsbD 16)
  imme := CacheCPU.imme w
  aluOps := (CacheCPU.aluOps (first w) (last w)).1
  memOp := CacheCPU.memOp (first w)
  tlbwiEnable := isTlbwi w
  alignType := CacheCPU.alignType (first w)
  wbOp := CacheCPU.wbOp (first w) (last w) (w.getLsbD 23)
  cp0Op := isMtc0 w
  insUndef := (CacheCPU.aluOps (first w) (last w)).2
  excCode := d.excCode
  excCounter := d.excCounter

def rise (d : IDecode) (state : Status) (instruction : BitVec 32) : IDecode :=
  match state with
  | .insF => { d with stateReg := .insF, eretEnable := false }
  | .insD => d.latch instruction
  | st => { d with stateReg := st }

/-- The code of the exception that the latched word raises, `"00"` for none. -/
def raised (d : IDecode) : BitVec 2 :=
  if d.insUndef then 0b10#2 else if isSyscall d.insReg then 0b01#2 else 0b00#2

/-- The exception code is raised and cleared at falling edges. -/
def fall (d : IDecode) : IDecode :=
  { d with
    excCode :=
      if d.excCounter then 0b00#2 else if d.stateReg = .insD then d.raised else d.excCode
    excCounter :=
      if d.excCounter then false else d.stateReg == .insD && d.raised != 0b00#2 }

/-- What reset sets; the other registers keep what they held. -/
structure IsReset (d : IDecode) : Prop where
  cp0Op : d.cp0Op = false
  eretEnable : d.eretEnable = false
  tlbwiEnable : d.tlbwiEnable = false
  alignType : d.alignType = alignTypeQuad
  compOp : d.compOp = 0b000#3
  excCode : d.excCode = 0b00#2
  excCounter : d.excCounter = false
  pcOp : d.pcOp = 0b00#2
  imme : d.imme = 0#32
  memOp : d.memOp = memDisable
  wbOp : d.wbOp = 0b00000#5
  aluOps : d.aluOps = aluDisable

end IDecode

end CacheCPU
