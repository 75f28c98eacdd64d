import CacheCPU.Datapath

/-!
# CP0 and the exception unit

`Exception` latches an event at the rising edge of `Exc` and drives it for one cycle; `CP0` takes
it at the rising edge of the `InsF` that follows. `CP0` also keeps the timer: `Count` grows at
`WriteB` until it reaches `Compare`, which raises `m_compare_interrupt`.
-/

namespace CacheCPU

/-! ## `Exception` -/

/-- The registers of `Exception`. -/
structure Exception where
  badVAddr : BitVec 32
  entryHi : BitVec 20
  interruptStart : Bool
  cause : BitVec 5
  interruptCode : BitVec 6
  epc : BitVec 32
  pcSel0 : Bool
  compareRecover : Bool

/-- What `Exception` reads at a rising edge. -/
structure ExceptionIn where
  mmuExcCode : BitVec 3
  serialInt : Bool
  compareInterrupt : Bool
  idExcCode : BitVec 2
  pc : BitVec 32
  pcMmu : BitVec 32
  vAddr : BitVec 32
  oldEntryHi : BitVec 20
  oldInterruptCode : BitVec 6

namespace Exception

/-- `m_cause`, `m_interrupt_code`, `m_epc` and `m_compare_recover` at an `Exc` edge: an MMU code
goes before an `IDecode` code, that before the serial interrupt, that before the timer. -/
def record (x : Exception) (i : ExceptionIn) : Exception :=
  if i.mmuExcCode = noMemExc then
    if i.idExcCode = 0b00#2 then
      if i.serialInt then
        { x with cause := 0b00000#5, interruptCode := 0b000001#6, epc := i.pcMmu }
      else if i.compareInterrupt then
        { x with
          cause := 0b00000#5, interruptCode := 0b100000#6, epc := i.pcMmu
          compareRecover := true }
      else x
    else if i.idExcCode = 0b01#2 then
      { x with interruptCode := i.oldInterruptCode, cause := 0b01000#5, epc := i.pc }
    else if i.idExcCode = 0b10#2 then
      { x with interruptCode := i.oldInterruptCode, cause := 0b01010#5, epc := i.pc }
    else x
  else
    { x with
      epc := i.pc
      interruptCode := i.oldInterruptCode
      cause :=
        if i.mmuExcCode = tlbModified then 0b00001#5
        else if i.mmuExcCode = tlbL then 0b00010#5
        else if i.mmuExcCode = tlbS then 0b00011#5
        else if i.mmuExcCode = adeL then 0b00100#5
        else if i.mmuExcCode = adeS then 0b00101#5
        else x.cause }

def rise (x : Exception) (state : Status) (i : ExceptionIn) : Exception :=
  match state with
  | .exc =>
    { x.record i with
      interruptStart := true
      pcSel0 := true
      badVAddr := if i.mmuExcCode = noMemExc then i.pc else i.vAddr
      entryHi :=
        if i.mmuExcCode = tlbL ∨ i.mmuExcCode = tlbS then i.vAddr.extractLsb 31 12
        else i.oldEntryHi }
  | _ => { x with interruptStart := false, pcSel0 := false, compareRecover := false }

structure IsReset (x : Exception) : Prop where
  interruptStart : x.interruptStart = false
  pcSel0 : x.pcSel0 = false
  badVAddr : x.badVAddr = 0#32
  entryHi : x.entryHi = 0#20
  compareRecover : x.compareRecover = false
  cause : x.cause = 0b11111#5
  epc : x.epc = 0#32
  interruptCode : x.interruptCode = 0#6

end Exception

/-! ## `CP0` -/

/-- The registers of `CP0`. -/
structure CP0 where
  reg : BitVec 5 → BitVec 32
  addrValue : BitVec 32
  rdAddress : BitVec 5
  oldCompare : BitVec 32
  compareInterrupt : Bool

namespace CP0

/-- The CP0 register numbers. -/
def index : BitVec 5 := 0#5
def entryLo0 : BitVec 5 := 2#5
def entryLo1 : BitVec 5 := 3#5
def badVAddr : BitVec 5 := 8#5
def count : BitVec 5 := 9#5
def entryHi : BitVec 5 := 10#5
def compare : BitVec 5 := 11#5
def status : BitVec 5 := 12#5
def cause : BitVec 5 := 13#5
def epc : BitVec 5 := 14#5
def ebase : BitVec 5 := 15#5

variable (c : CP0)

/-- `Status.IE`, bit 384 of `cp0_values`. -/
def ie : Bool := (c.reg status).getLsbD 0

/-- `Status.EXL`, bit 385 of `cp0_values`. -/
def exl : Bool := (c.reg status).getLsbD 1

def excCode : BitVec 5 := (c.reg cause).extractLsb 6 2

def interruptCode : BitVec 6 := (c.reg cause).extractLsb 15 10

/-- The TLB entry that `Index`, `EntryHi`, `EntryLo0` and `EntryLo1` describe, with its index. -/
def tlbWriteStruct : BitVec 67 :=
  (c.reg index).extractLsb 3 0 ++ (c.reg entryHi).extractLsb 31 13
    ++ (c.reg entryLo0).extractLsb 25 6 ++ (c.reg entryLo0).extractLsb 2 1
    ++ (c.reg entryLo1).extractLsb 25 6 ++ (c.reg entryLo1).extractLsb 2 1

/-- Taking the event that `Exception` drives into the registers. -/
def record (x : Exception) : BitVec 5 → BitVec 32 := fun i =>
  if i = badVAddr then x.badVAddr
  else if i = entryHi then x.entryHi ++ (c.reg entryHi).extractLsb 11 0
  else if i = status then c.reg status ||| 2#32
  else if i = cause then
    (c.reg cause).extractLsb 31 16 ++ x.interruptCode ++ (c.reg cause).extractLsb 9 7
      ++ x.cause ++ (c.reg cause).extractLsb 1 0
  else if i = epc then x.epc
  else if i = count then (if x.compareRecover then 0#32 else c.reg count)
  else c.reg i

/-- The registers after a rising edge: one prioritised chain. -/
def regs (state : Status) (cp0Op : Bool) (rtValue : BitVec 32) (x : Exception)
    (eretEnable : Bool) : BitVec 5 → BitVec 32 :=
  if state = .exe ∧ eretEnable then Function.update c.reg status (c.reg status &&& ~~~2#32)
  else if state = .exe ∧ cp0Op then Function.update c.reg c.rdAddress rtValue
  else if state = .insF ∧ x.interruptStart then c.record x
  else if c.reg compare ≠ c.oldCompare then Function.update c.reg count 0#32
  else if state = .writeB ∧ c.compareInterrupt = false then
    Function.update c.reg count (c.reg count + 1#32)
  else c.reg

/-- `m_compare_interrupt` after a rising edge. -/
def pending (compareInit : Bool) : Bool :=
  if c.reg compare ≠ c.oldCompare then false
  else if compareInit then false
  else if c.reg compare ≤ c.reg count then true
  else c.compareInterrupt

def rise (state : Status) (rd : BitVec 5) (cp0Op : Bool) (rtValue : BitVec 32) (x : Exception)
    (eretEnable : Bool) : CP0 where
  reg := c.regs state cp0Op rtValue x eretEnable
  addrValue := if state = .insD then c.reg rd else c.addrValue
  rdAddress := if state = .insD then rd else c.rdAddress
  oldCompare := if c.reg compare ≠ c.oldCompare then c.reg compare else c.oldCompare
  compareInterrupt := c.pending x.compareRecover

/-- What reset sets: every register but `Compare`, `Status` and `EBase` is cleared. -/
structure IsReset (c : CP0) : Prop where
  compare : c.reg compare = 0x11111111#32
  ebase : c.reg ebase = 0x80000180#32
  others : ∀ i, i ≠ CP0.compare → i ≠ CP0.ebase → c.reg i = 0#32
  addrValue : c.addrValue = 0#32
  oldCompare : c.oldCompare = 0#32
  compareInterrupt : c.compareInterrupt = false
  rdAddress : c.rdAddress = 0#5

end CP0

end CacheCPU
