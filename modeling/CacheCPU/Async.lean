import CacheCPU.Board

/-!
# The serial transmitter and receiver

`async_transmitter` and `async_receiver` of `async.v`, and the board with its transmitter. `BitTick`
and `OversamplingTick` come from baud generators that count clock cycles; here they are inputs, so
that a bit may take any number of edges.
-/

namespace CacheCPU

/-- The registers of `async_transmitter`. -/
structure Transmitter where
  state : BitVec 4
  shift : BitVec 8
deriving DecidableEq

namespace Transmitter

variable (t : Transmitter)

/-- `TxD_ready`. -/
def ready : Bool := t.state == 0b0000#4

/-- `TxD_busy`. -/
def busy : Bool := !t.ready

/-- The state after a tick. -/
def next (s : BitVec 4) : BitVec 4 :=
  if s = 0b0100#4 then 0b1000#4
  else if s = 0b1000#4 then 0b1001#4
  else if s = 0b1001#4 then 0b1010#4
  else if s = 0b1010#4 then 0b1011#4
  else if s = 0b1011#4 then 0b1100#4
  else if s = 0b1100#4 then 0b1101#4
  else if s = 0b1101#4 then 0b1110#4
  else if s = 0b1110#4 then 0b1111#4
  else if s = 0b1111#4 then 0b0010#4
  else if s = 0b0010#4 then 0b0011#4
  else 0b0000#4

def tick (start : Bool) (data : BitVec 8) (bitTick : Bool) : Transmitter where
  shift :=
    if t.ready && start then data
    else if t.state.getLsbD 3 && bitTick then t.shift >>> 1
    else t.shift
  state :=
    if t.state = 0b0000#4 then (if start then 0b0100#4 else 0b0000#4)
    else if bitTick then next t.state
    else t.state

/-- The byte that is latched at an edge. -/
def accepted (start : Bool) (data : BitVec 8) : Option (BitVec 8) :=
  if t.ready && start then some data else none

end Transmitter

/-! ## The board with its transmitter -/

/-- The physical level and the transmitter, between edges of the fast clock. -/
structure Line where
  phys : Physical
  tx : Transmitter

namespace Line

variable (I : Image) (l : Line)

/-- A rising edge of the fast clock. -/
def tick (e : Ext) (bitTick : Bool) (m : Mmu) : Line where
  phys := l.phys.tick I { e with transmitBusy := l.tx.busy } m
  tx := l.tx.tick l.phys.phy.serialportTransmitSignal l.phys.phy.serialportTransmitData bitTick

def accepted : Option (BitVec 8) :=
  l.tx.accepted l.phys.phy.serialportTransmitSignal l.phys.phy.serialportTransmitData

end Line

/-- The board and the transmitter, before a rising edge of `cpu_clk`. -/
structure Station where
  board : Board
  tx : Transmitter

namespace Station

variable (I : Image) (s : Station)

/-- What comes from outside in a cycle. What the board is told of the transmitter is not taken from
`exts`. -/
structure Inputs where
  exts : Board.Exts
  t0 : Bool
  t1 : Bool
  t2 : Bool
  t3 : Bool

def line0 : Line := ⟨s.board.phys, s.tx⟩

def line1 (x : Inputs) : Line := s.line0.tick I x.exts.e0 x.t0 s.board.cpu.mmu

def line2 (x : Inputs) : Line :=
  (s.line1 I x).tick I x.exts.e1 x.t1 (s.board.cpu.rise s.board.phys.out).mmu

def line3 (x : Inputs) : Line :=
  (s.line2 I x).tick I x.exts.e2 x.t2 (s.board.cpu.rise s.board.phys.out).mmu

/-- The four fast edges with what the transmitter tells the board at each. -/
def exts (x : Inputs) : Board.Exts where
  e0 := { x.exts.e0 with transmitBusy := s.line0.tx.busy }
  e1 := { x.exts.e1 with transmitBusy := (s.line1 I x).tx.busy }
  e2 := { x.exts.e2 with transmitBusy := (s.line2 I x).tx.busy }
  e3 := { x.exts.e3 with transmitBusy := (s.line3 I x).tx.busy }

def line4 (x : Inputs) : Line :=
  (s.line3 I x).tick I x.exts.e3 x.t3 (s.board.cycle I (s.exts I x)).cpu.mmu

/-- One cycle of `cpu_clk`. -/
def cycle (x : Inputs) : Station := ⟨s.board.cycle I (s.exts I x), (s.line4 I x).tx⟩

/-- The bytes that the transmitter accepts in a cycle. -/
def accepted (x : Inputs) : List (BitVec 8) :=
  ([s.line0.accepted, (s.line1 I x).accepted, (s.line2 I x).accepted,
    (s.line3 I x).accepted]).filterMap id

def IsReset : Prop := s.board.IsReset ∧ s.tx.state = 0b0000#4

end Station

/-! ## The receiver -/

/-- The registers of `async_receiver`, without those that only detect gaps. -/
structure Receiver where
  sync : BitVec 2
  filterCnt : BitVec 2
  rxdBit : Bool
  oversamplingCnt : BitVec 4
  state : BitVec 4
  data : BitVec 8
  dataReady : Bool

namespace Receiver

variable (r : Receiver)

/-- `OversamplingCnt==Oversampling/2-1`, at an `OversamplingTick`. -/
def sampleNow (tick : Bool) : Bool := tick && r.oversamplingCnt == 7#4

/-- The state after a sample. -/
def next (s : BitVec 4) : BitVec 4 :=
  if s = 0b0001#4 then 0b1000#4
  else if s = 0b1000#4 then 0b1001#4
  else if s = 0b1001#4 then 0b1010#4
  else if s = 0b1010#4 then 0b1011#4
  else if s = 0b1011#4 then 0b1100#4
  else if s = 0b1100#4 then 0b1101#4
  else if s = 0b1101#4 then 0b1110#4
  else if s = 0b1110#4 then 0b1111#4
  else if s = 0b1111#4 then 0b0010#4
  else 0b0000#4

/-- The states that wait for a sample. -/
def waits (s : BitVec 4) : Bool := s == 0b0001#4 || s.getLsbD 3 || s == 0b0010#4

/-- A rising edge, with the line and `OversamplingTick`. -/
def tick (rxd tick : Bool) : Receiver where
  sync := if tick then r.sync.extractLsb 0 0 ++ BitVec.ofBool rxd else r.sync
  filterCnt :=
    if tick then
      if r.sync.getLsbD 1 ∧ r.filterCnt ≠ 0b11#2 then r.filterCnt + 1
      else if r.sync.getLsbD 1 = false ∧ r.filterCnt ≠ 0b00#2 then r.filterCnt - 1
      else r.filterCnt
    else r.filterCnt
  rxdBit :=
    if tick then
      if r.filterCnt = 0b11#2 then true else if r.filterCnt = 0b00#2 then false else r.rxdBit
    else r.rxdBit
  oversamplingCnt :=
    if tick then (if r.state = 0b0000#4 then 0#4 else r.oversamplingCnt + 1) else r.oversamplingCnt
  state :=
    if r.state = 0b0000#4 then (if r.rxdBit = false then 0b0001#4 else 0b0000#4)
    else if waits r.state then (if r.sampleNow tick then next r.state else r.state)
    else 0b0000#4
  data :=
    if r.sampleNow tick ∧ r.state.getLsbD 3 then BitVec.ofBool r.rxdBit ++ r.data.extractLsb 7 1
    else r.data
  dataReady := r.sampleNow tick && r.state == 0b0010#4 && r.rxdBit

/-- The byte that is ready between two edges. -/
def output : Option (BitVec 8) := if r.dataReady then some r.data else none

/-- After `n` edges. -/
def after (line : ℕ → Bool × Bool) : ℕ → Receiver
  | 0 => r
  | n + 1 => (after line n).tick (line n).1 (line n).2

end Receiver

end CacheCPU
