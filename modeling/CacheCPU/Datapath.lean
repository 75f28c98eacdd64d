import CacheCPU.Decode

/-!
# The datapath

The ALU with its `HI`/`LO` pair, the byte merge of `mem`, write-back with the next program
counter, and the register file. The ALU works at the rising edge of `Exe`, write-back at that of
`WriteB`; the register file takes the value one edge after `WriteB`.
-/

namespace CacheCPU

/-! ## `alu` -/

/-- The registers of `alu`. `srcB` is the process variable: source code `"11"` leaves it. -/
structure Alu where
  hiLo : BitVec 64
  result : BitVec 32
  srcB : BitVec 32

namespace Alu

def selA (srcA : BitVec 2) (rs imme cp0 : BitVec 32) : BitVec 32 :=
  if srcA = 0b00#2 then rs
  else if srcA = 0b01#2 then imme
  else if srcA = 0b10#2 then cp0
  else 16#32

def selB (srcB : BitVec 2) (rt imme old : BitVec 32) : BitVec 32 :=
  if srcB = 0b00#2 then rt
  else if srcB = 0b01#2 then imme
  else if srcB = 0b10#2 then 0#32
  else old

/-- The operation on two selected operands. A shift by `32` or more leaves no bit of the operand
(the sign, for `sra`); the multiplication is signed. -/
def op (x : Alu) (aluOp : BitVec 5) (a b : BitVec 32) : Alu :=
  if aluOp = 0b00000#5 then { x with result := a + b }
  else if aluOp = 0b00001#5 then { x with result := a + ~~~b + 1#32 }
  else if aluOp = 0b00010#5 then { x with result := a + ~~~b + 1#32 }
  else if aluOp = 0b00011#5 then { x with result := a &&& b }
  else if aluOp = 0b00100#5 then { x with result := a ||| b }
  else if aluOp = 0b00101#5 then { x with result := a ^^^ b }
  else if aluOp = 0b00110#5 then { x with result := ~~~(a ||| b) }
  else if aluOp = 0b00111#5 then { x with result := b <<< a.toNat }
  else if aluOp = 0b01000#5 then { x with result := b.sshiftRight a.toNat }
  else if aluOp = 0b01001#5 then { x with result := b >>> a.toNat }
  else if aluOp = 0b01010#5 then { x with result := if a.slt b then 1#32 else 0#32 }
  else if aluOp = 0b01011#5 then { x with result := if a.ult b then 1#32 else 0#32 }
  else if aluOp = 0b10000#5 then { x with hiLo := a.signExtend 64 * b.signExtend 64 }
  else if aluOp = 0b10011#5 then { x with hiLo := x.hiLo.extractLsb 63 32 ++ a }
  else if aluOp = 0b10100#5 then { x with hiLo := a ++ x.hiLo.extractLsb 31 0 }
  else if aluOp = 0b10001#5 then { x with result := x.hiLo.extractLsb 31 0 }
  else if aluOp = 0b10010#5 then { x with result := x.hiLo.extractLsb 63 32 }
  else { x with result := 0xaaaaaaaa#32 }

/-- The whole operation of an `Exe` edge. -/
def exec (x : Alu) (aluOps : BitVec 9) (rs rt imme cp0 : BitVec 32) : Alu :=
  let a := selA (aluOps.extractLsb 8 7) rs imme cp0
  let b := selB (aluOps.extractLsb 6 5) rt imme x.srcB
  { op x (aluOps.extractLsb 4 0) a b with srcB := b }

def rise (x : Alu) (state : Status) (aluOps : BitVec 9) (rs rt imme cp0 : BitVec 32) : Alu :=
  match state with
  | .exe => x.exec aluOps rs rt imme cp0
  | _ => x

end Alu

/-! ## `mem` -/

/-- The word read with the byte that `SB` stores put in its lane. -/
def selectByte (lane : BitVec 2) (mmuValue rtValue : BitVec 32) : BitVec 32 :=
  if lane = 0b00#2 then mmuValue.extractLsb 31 8 ++ rtValue.extractLsb 7 0
  else if lane = 0b01#2 then
    mmuValue.extractLsb 31 16 ++ rtValue.extractLsb 7 0 ++ mmuValue.extractLsb 7 0
  else if lane = 0b10#2 then
    mmuValue.extractLsb 31 24 ++ rtValue.extractLsb 7 0 ++ mmuValue.extractLsb 15 0
  else rtValue.extractLsb 7 0 ++ mmuValue.extractLsb 23 0

/-- The value `mem` sends to the MMU. -/
def memWriteValue (memOp : BitVec 3) (result mmuValue rtValue : BitVec 32) : BitVec 32 :=
  if memOp.getLsbD 0 then selectByte (result.extractLsb 1 0) mmuValue rtValue else rtValue

/-! ## `WB` -/

/-- The registers of `WB`. -/
structure WB where
  writeAddr : BitVec 5
  writeValue : BitVec 32
  writeEnable : Bool
  pcSrc : BitVec 32
  compare : Bool

namespace WB

/-- The byte of a word in a lane. -/
def byteOf (lane : BitVec 2) (v : BitVec 32) : BitVec 8 :=
  if lane = 0b00#2 then v.extractLsb 7 0
  else if lane = 0b01#2 then v.extractLsb 15 8
  else if lane = 0b10#2 then v.extractLsb 23 16
  else v.extractLsb 31 24

/-- The half of a word that the address bit selects. -/
def halfOf (upper : Bool) (v : BitVec 32) : BitVec 16 :=
  if upper then v.extractLsb 31 16 else v.extractLsb 15 0

/-- The value written back. -/
def value (old : BitVec 32) (kind : BitVec 3) (rpc mmuValue cp0Value aluResult : BitVec 32) :
    BitVec 32 :=
  if kind = 0b000#3 then aluResult
  else if kind = 0b001#3 then mmuValue
  else if kind = 0b010#3 then rpc
  else if kind = 0b011#3 then (byteOf (aluResult.extractLsb 1 0) mmuValue).zeroExtend 32
  else if kind = 0b100#3 then (byteOf (aluResult.extractLsb 1 0) mmuValue).signExtend 32
  else if kind = 0b101#3 then (halfOf (aluResult.getLsbD 1) mmuValue).zeroExtend 32
  else if kind = 0b110#3 then cp0Value
  else old

/-- The destination: its address and whether it is written. Register 0 never is. -/
def dest (old : BitVec 5) (dst : BitVec 2) (rdAddr rtAddr : BitVec 5) : BitVec 5 × Bool :=
  if dst = 0b00#2 then (if rtAddr ≠ 0#5 then (rtAddr, true) else (old, false))
  else if dst = 0b01#2 then (if rdAddr ≠ 0#5 then (rdAddr, true) else (old, false))
  else if dst = 0b10#2 then (31#5, true)
  else (old, false)

/-- `m_compare`: the branch condition. -/
def cond (compOp : BitVec 3) (rs rt : BitVec 32) : Bool :=
  if compOp = 0b000#3 then rs == rt
  else if compOp = 0b001#3 then !rs.getLsbD 31
  else if compOp = 0b010#3 then !rs.getLsbD 31 && rs != 0#32
  else if compOp = 0b011#3 then rs.getLsbD 31 || rs == 0#32
  else if compOp = 0b100#3 then rs.getLsbD 31
  else if compOp = 0b101#3 then rs != rt
  else false

/-- `m_PcSrc`. A taken branch assigns bits 31 to 2 only. -/
def next (old : BitVec 32) (pcOp : BitVec 2) (compare : Bool) (rpc imme aluResult : BitVec 32) :
    BitVec 32 :=
  if pcOp = 0b00#2 then rpc
  else if pcOp = 0b01#2 then
    if compare then (rpc.extractLsb 31 2 + imme.extractLsb 29 0) ++ old.extractLsb 1 0
    else rpc
  else if pcOp = 0b10#2 then rpc.extractLsb 31 28 ++ imme.extractLsb 25 0 ++ 0b00#2
  else aluResult

def rise (b : WB) (state : Status) (d : IDecode)
    (rpc mmuValue cp0Value aluResult rs rt : BitVec 32) : WB :=
  match state with
  | .exe => { b with writeEnable := false, compare := cond d.compOp rs rt }
  | .writeB =>
    { b with
      writeAddr := (dest b.writeAddr (d.wbOp.extractLsb 4 3) d.rdAddr d.rtAddr).1
      writeEnable := (dest b.writeAddr (d.wbOp.extractLsb 4 3) d.rdAddr d.rtAddr).2
      writeValue := value b.writeValue (d.wbOp.extractLsb 2 0) rpc mmuValue cp0Value aluResult
      pcSrc := next b.pcSrc d.pcOp b.compare rpc d.imme aluResult }
  | _ => { b with writeEnable := false }

/-- Reset points the next program counter at the first address of the ROM. -/
structure IsReset (b : WB) : Prop where
  writeEnable : b.writeEnable = false
  writeAddr : b.writeAddr = 0#5
  writeValue : b.writeValue = 0#32
  pcSrc : b.pcSrc = 0x90000000#32
  compare : b.compare = false

end WB

/-! ## `general_register` -/

/-- The register file and the two operands it reads. -/
structure GeneralRegister where
  reg : BitVec 5 → BitVec 32
  rsValue : BitVec 32
  rtValue : BitVec 32

namespace GeneralRegister

/-- The file after the write that `WB` drives. -/
def written (g : GeneralRegister) (b : WB) : BitVec 5 → BitVec 32 :=
  if b.writeEnable then Function.update g.reg b.writeAddr b.writeValue else g.reg

def rise (g : GeneralRegister) (state : Status) (rsAddr rtAddr : BitVec 5) (b : WB) :
    GeneralRegister where
  reg := g.written b
  rsValue := if state = .insD then g.reg rsAddr else g.rsValue
  rtValue := if state = .insD then g.reg rtAddr else g.rtValue

structure IsReset (g : GeneralRegister) : Prop where
  reg : ∀ i, g.reg i = 0#32

end GeneralRegister

end CacheCPU
