import CacheCPU.Common
import Mathlib.Data.List.FinRange

/-!
# `mmu_module`

The address of an access is latched at the rising edge of its stage; the lookup is combinational
in it; the exception code and the request to the physical level leave at the falling edge. A TLB
entry holds `EntryHi` (62 downto 44), the even page's frame (43 downto 24) and `D`, `V` (23, 22),
and the odd page's frame (21 downto 2) and `D`, `V` (1, 0).
-/

namespace CacheCPU

/-- The sixteen entries of `tlb_mem`. -/
abbrev Tlb := Fin 16 → BitVec 63

/-! ## The lookup -/

section Lookup

variable (tlb : Tlb) (addr : BitVec 32)

def tlbWhichEqual (i : Fin 16) : Bool := (tlb i).extractLsb 62 44 == addr.extractLsb 31 13

/-- `tlb_which_low(i*2)`: entry `i` matches, the page is the odd one and it is valid. -/
def tlbWhichLowOdd (i : Fin 16) : Bool :=
  tlbWhichEqual tlb addr i && (tlb i).getLsbD 0 && addr.getLsbD 12

/-- `tlb_which_low(i*2+1)`: entry `i` matches, the page is the even one and it is valid. -/
def tlbWhichLowEven (i : Fin 16) : Bool :=
  tlbWhichEqual tlb addr i && (tlb i).getLsbD 22 && !addr.getLsbD 12

/-- Row `i` of the matrix `tlb_low_temp_value`: the frame and `D` of the halves of entry `i`,
each masked by whether it is selected. -/
def tlbLowTempValue (i : Fin 16) : BitVec 21 :=
  (if tlbWhichLowOdd tlb addr i then (tlb i).extractLsb 21 1 else 0#21) |||
    (if tlbWhichLowEven tlb addr i then (tlb i).extractLsb 43 23 else 0#21)

/-- The rows or-ed together: the frame (20 downto 1) and `D` (0). -/
def tlbLookupResult : BitVec 21 :=
  ((List.finRange 16).map (tlbLowTempValue tlb addr)).foldr (· ||| ·) 0#21

/-- The addresses of kseg0 and kseg1 bypass the TLB. -/
def notUseMmu : Bool :=
  addr.extractLsb 31 29 == 0b100#3 || addr.extractLsb 31 29 == 0b101#3

def tlbMissing : Bool :=
  !(notUseMmu addr ||
    (List.finRange 16).any fun i => tlbWhichLowOdd tlb addr i || tlbWhichLowEven tlb addr i)

def tlbWritable : Bool := notUseMmu addr || (tlbLookupResult tlb addr).getLsbD 0

def physicalAddr : BitVec 32 :=
  if notUseMmu addr then (addr.extractLsb 28 0).zeroExtend 32
  else if tlbMissing tlb addr = false then
    (tlbLookupResult tlb addr).extractLsb 20 1 ++ addr.extractLsb 11 0
  else 0xffffffff#32

end Lookup

/-- The device address of a physical address: Flash, RAM, the serial data register, the ROM, or
no device. -/
def toPhysicalAddrReg (pa : BitVec 32) : BitVec 24 :=
  if pa.extractLsb 31 24 = 0x1e#8 then 0b00#2 ++ pa.extractLsb 23 2
  else if pa.extractLsb 31 23 = 0#9 then 0b010#3 ++ pa.extractLsb 22 2
  else if pa = physicalSerialData then 0b1000#4 ++ 0x00000#20
  else if pa.extractLsb 31 12 = 0x10000#20 then 0b11#2 ++ 0x000#12 ++ pa.extractLsb 11 2
  else 0xffffff#24

/-- The address violates the alignment its access needs. -/
def misaligned (alignType : BitVec 2) (addr : BitVec 32) : Bool :=
  (alignType == alignTypeWord && addr.getLsbD 0) ||
    (alignType == alignTypeQuad && addr.extractLsb 1 0 != 0b00#2)

/-! ## The registers -/

/-- The registers of `mmu_module`. -/
structure Mmu where
  addr : BitVec 32
  stateReg : Status
  toPhysicalCounter : Bool
  tlbMem : Tlb
  excCode : BitVec 3
  excCounter : Bool
  toPhysicalAddr : BitVec 24
  toPhysicalData : BitVec 32
  toPhysicalReadEnable : Bool
  toPhysicalWriteEnable : Bool

/-- What `mmu_module` reads besides the stage and the physical level. -/
structure MmuIn where
  ifAddr : BitVec 32
  virtualAddr : BitVec 32
  readEnable : Bool
  writeEnable : Bool
  tlbWriteStruct : BitVec 67
  tlbWriteEnable : Bool
  alignType : BitVec 2

namespace Mmu

variable (m : Mmu)

def isInsFOrMem : Status → Bool
  | .insF | .mem1 | .mem2 => true
  | _ => false

/-- The TLB after a `TLBWI`. -/
def tlbwi (t : Tlb) (struct : BitVec 67) : Tlb :=
  Function.update t (struct.extractLsb 66 63).toFin (struct.extractLsb 62 0)

def rise (state : Status) (ready : Bool) (i : MmuIn) : Mmu :=
  { m with
    addr :=
      if isInsFOrMem state && ready then (if state = .insF then i.ifAddr else i.virtualAddr)
      else m.addr
    stateReg := state
    toPhysicalCounter := state == m.stateReg
    tlbMem := if state = .exe ∧ i.tlbWriteEnable then tlbwi m.tlbMem i.tlbWriteStruct
      else m.tlbMem }

/-- The stage reads: an instruction fetch, or `Mem1` of a load or of `SB`. -/
def reads (i : MmuIn) : Bool := (m.stateReg == .mem1 && i.readEnable) || m.stateReg == .insF

/-- The stage writes: `Mem1` of `SW`, or `Mem2`. -/
def writes (i : MmuIn) : Bool :=
  (m.stateReg == .mem1 && i.writeEnable && !i.readEnable) || m.stateReg == .mem2

/-- The exception raised at a falling edge, if any. -/
def raised (i : MmuIn) : Option (BitVec 3) :=
  if misaligned i.alignType m.addr then
    if m.reads i then some adeL else if m.writes i then some adeS else none
  else if tlbMissing m.tlbMem m.addr then
    if m.reads i then some tlbL else if m.writes i then some tlbS else none
  else if tlbWritable m.tlbMem m.addr = false then
    if m.writes i then some tlbModified else none
  else none

def specialCom1Status : Bool := m.addr == virtualSerialStatus

def noExceptionAccur (i : MmuIn) : Bool :=
  !misaligned i.alignType m.addr && !tlbMissing m.tlbMem m.addr && tlbWritable m.tlbMem m.addr

/-- The conditions a read and a write request share. -/
def mayRequest (ready : Bool) (i : MmuIn) : Bool :=
  !m.specialCom1Status && !m.toPhysicalCounter && m.noExceptionAccur i && ready

def readEnableReg (ready : Bool) (i : MmuIn) : Bool := m.mayRequest ready i && m.reads i

def writeEnableReg (ready : Bool) (i : MmuIn) : Bool := m.mayRequest ready i && m.writes i

def fall (ready : Bool) (dataIn : BitVec 32) (i : MmuIn) : Mmu :=
  { m with
    excCode := if m.excCounter then noMemExc else (m.raised i).getD m.excCode
    excCounter := if m.excCounter then false else (m.raised i).isSome
    toPhysicalAddr := toPhysicalAddrReg (physicalAddr m.tlbMem m.addr)
    toPhysicalData := dataIn
    toPhysicalReadEnable := m.readEnableReg ready i
    toPhysicalWriteEnable := m.writeEnableReg ready i }

/-- `instruction`: what `IDecode` sees. -/
def instruction (p : PhyOut) : BitVec 32 :=
  if m.stateReg = .insF ∨ m.stateReg = .insD then p.data else invalidContent

/-- `data_out`: the serial status word, or the word read last. -/
def dataOut (p : PhyOut) : BitVec 32 :=
  if m.specialCom1Status then 0#30 ++ BitVec.ofBool p.serial ++ 0b1#1 else p.data

/-- What reset sets. -/
structure IsReset : Prop where
  addr : m.addr = 0x90000000#32
  toPhysicalCounter : m.toPhysicalCounter = false
  stateReg : m.stateReg = .writeB
  excCounter : m.excCounter = false
  excCode : m.excCode = noMemExc
  toPhysicalReadEnable : m.toPhysicalReadEnable = false
  toPhysicalWriteEnable : m.toPhysicalWriteEnable = false
  toPhysicalAddr : m.toPhysicalAddr = 0#24
  toPhysicalData : m.toPhysicalData = 0#32

end Mmu

end CacheCPU
