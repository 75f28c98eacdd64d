import Mathlib.Algebra.GroupWithZero.Nat
import Mathlib.Data.Nat.Notation
import Mathlib.Logic.Function.Basic

/-!
# `com_debug` and `bp_debug`: the debugger beside the CPU

`com_debug` collects the bytes of a command from the serial receiver and sends the 512 bytes of a
snapshot to the transmitter; `bp_debug` carries the commands out and makes the clock of the target,
`clk_o`. Both have the clock `clk`. A signal keeps its value from edge to edge, and what a process
reads at an edge is what stood there before it.
-/

namespace CacheCPU

namespace Cadb

/-! ## `com_debug` -/

/-- The bytes of a command: `coming_data(8k + 7 downto 8k)` is byte `k`. -/
abbrev Frame := Fin 17 → BitVec 8

instance neZeroFrame : NeZero 17 := ⟨by decide⟩

namespace Frame

variable (f : Frame)

/-- `debug_data_in(7 downto 0)`. -/
def command : BitVec 8 := f 0

/-- `debug_data_in(71 downto 8)`. -/
def value : BitVec 64 := f 8 ++ f 7 ++ f 6 ++ f 5 ++ f 4 ++ f 3 ++ f 2 ++ f 1

/-- `debug_data_in(135 downto 72)`. -/
def mask : BitVec 64 := f 16 ++ f 15 ++ f 14 ++ f 13 ++ f 12 ++ f 11 ++ f 10 ++ f 9

end Frame

def slcMax : BitVec 16 := 0x0200#16

/-- The registers of `com_debug`. `count` and `comingData` are those of the receiving process,
`state` and `afterFallingEdge` variables of the sending one. -/
structure ComDebug where
  count : Fin 17
  comingData : Frame
  dataComing : Bool
  slcNum : BitVec 16
  state : ℕ
  afterFallingEdge : Bool
  transmitSignal : Bool

/-- What `com_debug` reads: a byte that the receiver has ready, and whether the transmitter is
busy, besides the signals of `bp_debug`. -/
structure ComIn where
  clk : Bool
  dataRead : Bool
  receive : Option (BitVec 8)
  transmitBusy : Bool

namespace ComDebug

variable (c : ComDebug)

/-- The receiving process. The last byte raises `data_coming`, unless `data_read` stands. -/
def receive (i : ComIn) : ComDebug :=
  let c' :=
    match i.receive with
    | some b =>
      { c with
        comingData := Function.update c.comingData c.count b
        count := c.count + 1
        dataComing := c.dataComing || c.count == 16 }
    | none => c
  { c' with dataComing := c'.dataComing && !i.dataRead }

/-- A snapshot is asked for and the last one is complete. -/
def starts (i : ComIn) : Bool := i.clk && c.slcNum == slcMax && c.afterFallingEdge

/-- The sending process. -/
def send (i : ComIn) : ComDebug :=
  let c' :=
    { c with
      slcNum := if c.starts i then 0#16 else c.slcNum
      state := if c.starts i then 0 else c.state
      afterFallingEdge := if c.starts i then false else !i.clk || c.afterFallingEdge }
  match c'.state with
  | 0 => { c' with state := 1 }
  | 1 =>
    if i.transmitBusy = false ∧ c.slcNum < slcMax then
      { c' with transmitSignal := true, state := 2 }
    else c'
  | 2 => { c' with transmitSignal := false, slcNum := c.slcNum + 1, state := 0 }
  | _ => { c' with state := 0 }

/-- The two processes write different signals. -/
def tick (i : ComIn) : ComDebug := (c.receive i).send i

/-- The initial values; `com_debug` has no reset. -/
structure IsInitial : Prop where
  count : c.count = 0
  dataComing : c.dataComing = false
  slcNum : c.slcNum = slcMax
  state : c.state = 0
  afterFallingEdge : c.afterFallingEdge = true
  transmitSignal : c.transmitSignal = false

end ComDebug

/-! ## `bp_debug` -/

/-- The registers of `bp_debug`. -/
structure BpDebug where
  state : BitVec 3
  breakpoint : BitVec 64
  compare : BitVec 64
  runStep : BitVec 64
  mClkO1 : Bool
  mClkO2 : Bool
  comDebugClk : Bool
  debugDataRead : Bool

/-- What `bp_debug` reads. -/
structure BpIn where
  slc : BitVec 16
  dataComing : Bool
  dataIn : Frame
  monitor : BitVec 64

namespace BpDebug

variable (b : BpDebug)

/-- `clk_o`. -/
def mClkO : Bool := b.mClkO1 ^^ b.mClkO2

/-- `e = '0'`. `debug_data_read` is not among what it sets. -/
def reset : BpDebug :=
  { b with
    state := 0b000#3, breakpoint := 0#64, compare := BitVec.allOnes 64, runStep := 0#64
    mClkO1 := false, mClkO2 := false, comDebugClk := false }

/-- State "010": the command. -/
def execute (f : Frame) : BpDebug :=
  let b' := { b with debugDataRead := true }
  if f.command = 0x01#8 then { b' with state := 0b011#3 }
  else if f.command = 0x02#8 then
    { b' with state := 0b001#3, breakpoint := f.value, compare := f.mask }
  else if f.command = 0x03#8 then { b' with state := 0b100#3 }
  else if f.command = 0x04#8 then { b' with state := 0b101#3, runStep := f.value }
  else { b' with state := 0b000#3 }

/-- A rising edge of `clk`. The literals that the vectors of 64 bits are compared with are 32 bits
long, and `std_logic_unsigned` compares them as numbers. -/
def rise (i : BpIn) : BpDebug :=
  if b.state = 0b000#3 then
    { b with debugDataRead := false, comDebugClk := true, state := 0b001#3 }
  else if b.state = 0b001#3 then
    { b with
      debugDataRead := false
      comDebugClk := b.comDebugClk && !i.slc.getLsbD 2
      state := if b.comDebugClk = false ∧ i.dataComing = true then 0b010#3 else 0b001#3 }
  else if b.state = 0b010#3 then b.execute i.dataIn
  else if b.state = 0b011#3 then
    if b.mClkO = false then
      if (i.monitor ^^^ b.breakpoint) &&& b.compare = 0#64 then { b with state := 0b000#3 }
      else { b with mClkO1 := !b.mClkO1 }
    else b
  else if b.state = 0b100#3 then
    if b.mClkO = false then { b with mClkO1 := !b.mClkO1, state := 0b011#3 } else b
  else if b.state = 0b101#3 then
    if b.mClkO = false then
      if b.runStep = 0#64 then { b with state := 0b000#3 }
      else { b with runStep := b.runStep - 1#64, mClkO1 := !b.mClkO1 }
    else b
  else b

/-- A falling edge of `clk`. -/
def fall : BpDebug :=
  if (b.state = 0b011#3 ∨ b.state = 0b101#3) ∧ b.mClkO = true then { b with mClkO2 := !b.mClkO2 }
  else b

end BpDebug

/-! ## The two together -/

structure Debug where
  bp : BpDebug
  com : ComDebug

/-- What comes from outside at a rising edge. -/
structure DebugIn where
  monitor : BitVec 64
  receive : Option (BitVec 8)
  transmitBusy : Bool

namespace Debug

variable (s : Debug)

def clkO : Bool := s.bp.mClkO

def comIn (i : DebugIn) : ComIn := ⟨s.bp.comDebugClk, s.bp.debugDataRead, i.receive, i.transmitBusy⟩

def bpIn (i : DebugIn) : BpIn := ⟨s.com.slcNum, s.com.dataComing, s.com.comingData, i.monitor⟩

def rise (i : DebugIn) : Debug := ⟨s.bp.rise (s.bpIn i), s.com.tick (s.comIn i)⟩

def fall : Debug := { s with bp := s.bp.fall }

/-- A cycle of `clk`. -/
def cycle (i : DebugIn) : Debug := (s.rise i).fall

/-- `e` is low: an edge of `clk` reaches `com_debug` only. -/
def reset : Debug := { s with bp := s.bp.reset }

def riseReset (i : DebugIn) : Debug := ⟨s.bp.reset, s.com.tick (s.comIn i)⟩

def IsReset : Prop := s.bp = s.bp.reset ∧ s.com.IsInitial

/-- What some run from reset passes through, with the level of `clk`. `e` may go low at any
time. -/
inductive Reachable : Bool → Debug → Prop
  | initial {s : Debug} : s.IsReset → Reachable false s
  | rise {s : Debug} (i : DebugIn) : Reachable false s → Reachable true (s.rise i)
  | fall {s : Debug} : Reachable true s → Reachable false s.fall
  | reset {s : Debug} {clk : Bool} : Reachable clk s → Reachable clk s.reset
  | riseReset {s : Debug} (i : DebugIn) : Reachable false s → Reachable true (s.riseReset i)

/-- After `k` cycles with the inputs `is`. -/
def after (is : ℕ → DebugIn) : ℕ → Debug
  | 0 => s
  | k + 1 => (after is k).cycle (is k)

end Debug

end Cadb

end CacheCPU
