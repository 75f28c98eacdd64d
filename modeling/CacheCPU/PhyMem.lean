import CacheCPU.Mmu

/-!
# The physical level

`phy_mem` serves the requests of the MMU from RAM, Flash, ROM and the serial port, on a clock four
times as fast as the CPU's. `ram` and `flash` drive the pins of the chips. Each SRAM chip latches
its data at a rising edge of `we` while `ce` is low, and drives the addressed word while `ce` and
`oe` are low; the Flash chip drives the addressed word while `oe` is low. The serial receiver and
transmitter are inputs.
-/

namespace CacheCPU

/-! ## `ram` -/

/-- The states of `ram`, each for one of the two banks (`false` is `baseram`). `other` is any code
the state machine does not name, as the register holds before the first edge. -/
inductive RamState
  | idle
  | read1 (bank : Bool) | read2 (bank : Bool) | read3 (bank : Bool)
  | write1 (bank : Bool) | write2 (bank : Bool) | write3 (bank : Bool)
  | other
deriving DecidableEq

/-- The pins of one SRAM chip; `data` is what the FPGA drives, `none` for `'Z'`. -/
structure SramPins where
  addr : BitVec 20
  data : Option (BitVec 32)
  ce : Bool
  oe : Bool
  we : Bool

/-- The registers of `ram`. -/
structure Ram where
  state : RamState
  readData : BitVec 32
  pins : Bool → SramPins

/-- What `ram` reads from `phy_mem`. -/
structure RamIn where
  opeAddr : BitVec 20
  writeData : BitVec 32
  opeWe : Bool
  opeCe1 : Bool
  opeCe2 : Bool

/-- The words of the two SRAM chips. -/
abbrev Cells := Bool → BitVec 20 → BitVec 32

namespace Ram

variable (r : Ram)

def setPins (bank : Bool) (f : SramPins → SramPins) : Bool → SramPins :=
  Function.update r.pins bank (f (r.pins bank))

/-- What is on the data lines of a bank: the FPGA's word, else the chip's, else anything. -/
def bus (cells : Cells) (floating : BitVec 32) (bank : Bool) : BitVec 32 :=
  match (r.pins bank).data with
  | some v => v
  | none =>
    if (r.pins bank).ce = false ∧ (r.pins bank).oe = false then cells bank (r.pins bank).addr
    else floating

def tick (i : RamIn) (cells : Cells) (floating : BitVec 32) : Ram :=
  match r.state with
  | .idle =>
    { r with
      pins := fun b => { r.pins b with data := none }
      state :=
        if i.opeWe ∧ i.opeCe1 then .read1 false
        else if i.opeWe = false ∧ i.opeCe1 then .write1 false
        else if i.opeWe ∧ i.opeCe2 then .read1 true
        else if i.opeWe = false ∧ i.opeCe2 then .write1 true
        else .idle }
  | .read1 b =>
    { r with
      pins := r.setPins b fun p => { p with ce := false, oe := false, addr := i.opeAddr }
      state := .read2 b }
  | .read2 b => { r with readData := r.bus cells floating b, state := .read3 b }
  | .read3 b =>
    { r with pins := r.setPins b fun p => { p with ce := true, oe := true }, state := .idle }
  | .write1 b =>
    { r with
      pins := r.setPins b fun p =>
        { p with oe := true, ce := false, we := true, addr := i.opeAddr, data := some i.writeData }
      state := .write2 b }
  | .write2 b => { r with pins := r.setPins b fun p => { p with we := false }, state := .write3 b }
  | .write3 b =>
    { r with pins := r.setPins b fun p => { p with we := true, ce := true }, state := .idle }
  | .other =>
    { r with
      pins := fun b => { r.pins b with data := none, ce := true, oe := true, we := true }
      state := .idle }

/-- The SRAM chips when the pins go from those of `r` to those of `r'`. -/
def latch (r' : Ram) (cells : Cells) (floating : BitVec 32) : Cells := fun b =>
  if (r.pins b).we = false ∧ (r'.pins b).we ∧ (r.pins b).ce = false then
    Function.update (cells b) (r.pins b).addr (r.bus cells floating b)
  else cells b

end Ram

/-! ## `flash` -/

/-- The registers of `flash`; `data` is what the FPGA drives, `none` for `'Z'`. -/
structure Flash where
  state : ℕ
  addr : BitVec 23
  data : Option (BitVec 16)
  oe : Bool
  we : Bool
  dataOut : BitVec 16

/-- What `flash` reads from `phy_mem`. -/
structure FlashIn where
  addr : BitVec 22
  dataIn : BitVec 16
  readEnable : Bool
  writeEnable : Bool
  eraseEnable : Bool

namespace Flash

variable (f : Flash)

def bus (chip : BitVec 23 → BitVec 16) (floating : BitVec 16) : BitVec 16 :=
  match f.data with
  | some v => v
  | none => if f.oe = false then chip f.addr else floating

def tick (i : FlashIn) (chip : BitVec 23 → BitVec 16) (floating : BitVec 16) : Flash :=
  match f.state with
  | 0 =>
    if i.readEnable then { f with we := false, data := some 0x00ff#16, state := 1 }
    else if i.writeEnable then { f with we := false, data := some 0x0040#16, state := 11 }
    else if i.eraseEnable then { f with we := false, data := some 0x0020#16, state := 21 }
    else f
  | 1 => { f with we := true, state := 2 }
  | 2 => { f with data := none, state := 3 }
  | 3 => { f with oe := false, addr := i.addr ++ 0b0#1, state := 4 }
  | 4 => { f with dataOut := f.bus chip floating, oe := true, state := 0 }
  | 11 => { f with we := true, state := 12 }
  | 12 => { f with we := false, data := some i.dataIn, addr := i.addr ++ 0b0#1, state := 13 }
  | 13 => { f with we := true, state := 31 }
  | 21 => { f with we := true, state := 22 }
  | 22 => { f with we := false, addr := i.addr ++ 0b0#1, data := some 0x00d0#16, state := 23 }
  | 23 => { f with we := true, state := 31 }
  | 31 => { f with data := some 0x0070#16, we := false, state := 32 }
  | 32 => { f with we := true, state := 33 }
  | 33 => { f with data := none, oe := false, state := 34 }
  | 34 => { f with oe := true, state := if (f.bus chip floating).getLsbD 7 then 0 else 31 }
  | _ => { f with state := 0 }

end Flash

/-! ## `phy_mem` -/

/-- `ROM_SIZE`: the words of `boot_rom`. An index from there on is no index of it. -/
def romSize : ℕ := 84

/-- The registers of `phy_mem`. -/
structure PhyMem where
  state : ℕ
  busy : Bool
  dataOut : BitVec 32
  serialportDataLatch : BitVec 8
  serialportDataReady : Bool
  ramOpeAddr : BitVec 20
  ramWriteData : BitVec 32
  ramOpeWe : Bool
  ramOpeCe1 : Bool
  ramOpeCe2 : Bool
  flashOpeAddr : BitVec 22
  flashReadSignal : Bool
  serialportTransmitSignal : Bool
  serialportTransmitData : BitVec 8

/-- What `phy_mem` reads: the request, the data of the other units, and the serial lines. -/
structure PhyMemIn where
  addr : BitVec 24
  dataIn : BitVec 32
  writeEnable : Bool
  readEnable : Bool
  ramReadData : BitVec 32
  flashReadData : BitVec 16
  receive : Option (BitVec 8)
  transmitBusy : Bool

namespace PhyMem

variable (m : PhyMem)

/-- A byte coming in is latched first; a read of the serial port later in the same edge still
clears `serialport_data_ready`. -/
def receive (r : Option (BitVec 8)) : PhyMem :=
  match r with
  | some b => { m with serialportDataLatch := b, serialportDataReady := true }
  | none => m

/-- State 0: accept a request. `old` is the latch before the edge. -/
def accept (rom : BitVec 22 → BitVec 32) (i : PhyMemIn) (old : BitVec 8) : PhyMem :=
  let dev := i.addr.extractLsb 23 22
  if i.readEnable ∧ dev = 0b00#2 then
    { m with flashOpeAddr := i.addr.extractLsb 21 0, flashReadSignal := true, state := 1 }
  else if i.writeEnable ∧ dev = 0b01#2 then
    { m with
      ramOpeAddr := i.addr.extractLsb 19 0
      ramWriteData := i.dataIn
      ramOpeWe := false
      ramOpeCe1 := !i.addr.getLsbD 20
      ramOpeCe2 := i.addr.getLsbD 20
      state := 101 }
  else if i.readEnable ∧ dev = 0b01#2 then
    { m with
      ramOpeAddr := i.addr.extractLsb 19 0
      ramOpeWe := true
      ramOpeCe1 := !i.addr.getLsbD 20
      ramOpeCe2 := i.addr.getLsbD 20
      state := 201 }
  else if i.readEnable ∧ dev = 0b10#2 then
    { m with dataOut := 0x000000#24 ++ old, serialportDataReady := false, state := 0 }
  else if i.writeEnable ∧ dev = 0b10#2 then
    { m with
      serialportTransmitSignal := true
      serialportTransmitData := i.dataIn.extractLsb 7 0
      state := 301 }
  else if i.readEnable ∧ dev = 0b11#2 then
    { m with dataOut := rom (i.addr.extractLsb 21 0) }
  else { m with state := 0, flashReadSignal := false }

/-- The state machine of the process, after the serial latch. -/
def serve (rom : BitVec 22 → BitVec 32) (i : PhyMemIn) (old : BitVec 8) : PhyMem :=
  match m.state with
  | 0 => m.accept rom i old
  | 6 => { m with flashReadSignal := false, state := 7 }
  | 13 => { m with dataOut := 0x0000#16 ++ i.flashReadData, state := 0 }
  | 101 => { m with ramOpeCe1 := false, ramOpeCe2 := false, state := 102 }
  | 110 => { m with state := 0 }
  | 201 => { m with ramOpeCe1 := false, ramOpeCe2 := false, state := 202 }
  | 208 => { m with dataOut := i.ramReadData, state := 0 }
  | 301 =>
    { m with
      serialportTransmitSignal := false
      state := if i.transmitBusy = false then 0 else 301 }
  | n =>
    if n ≤ 12 ∨ (102 ≤ n ∧ n ≤ 109) ∨ (202 ≤ n ∧ n ≤ 207) then { m with state := n + 1 }
    else { m with state := 0 }

def tick (rom : BitVec 22 → BitVec 32) (i : PhyMemIn) : PhyMem :=
  let m' := (m.receive i.receive).serve rom i m.serialportDataLatch
  { m' with busy := m'.state != 0 }

end PhyMem

/-! ## The physical level as a whole -/

/-- What comes from outside at one edge of the fast clock. -/
structure Ext where
  receive : Option (BitVec 8)
  transmitBusy : Bool
  floating : BitVec 32
  flashFloating : BitVec 16

/-- The contents of the ROM and of the Flash chip. -/
structure Image where
  rom : BitVec 22 → BitVec 32
  flash : BitVec 23 → BitVec 16

/-- `phy_mem`, `ram` and `flash` with the SRAM chips. -/
structure Physical where
  phy : PhyMem
  ram : Ram
  flash : Flash
  cells : Cells

namespace Physical

variable (x : Physical)

def out : PhyOut where
  data := x.phy.dataOut
  ready := !x.phy.busy
  serial := x.phy.serialportDataReady

def ramIn : RamIn where
  opeAddr := x.phy.ramOpeAddr
  writeData := x.phy.ramWriteData
  opeWe := x.phy.ramOpeWe
  opeCe1 := x.phy.ramOpeCe1
  opeCe2 := x.phy.ramOpeCe2

def flashIn : FlashIn where
  addr := x.phy.flashOpeAddr
  dataIn := 0#16
  readEnable := x.phy.flashReadSignal
  writeEnable := false
  eraseEnable := false

def phyMemIn (e : Ext) (m : Mmu) : PhyMemIn where
  addr := m.toPhysicalAddr
  dataIn := m.toPhysicalData
  writeEnable := m.toPhysicalWriteEnable
  readEnable := m.toPhysicalReadEnable
  ramReadData := x.ram.readData
  flashReadData := x.flash.dataOut
  receive := e.receive
  transmitBusy := e.transmitBusy

/-- A rising edge of the fast clock, with the request the MMU drives before it. -/
def tick (I : Image) (e : Ext) (m : Mmu) : Physical where
  phy := x.phy.tick I.rom (x.phyMemIn e m)
  ram := x.ram.tick x.ramIn x.cells e.floating
  flash := x.flash.tick x.flashIn I.flash e.flashFloating
  cells := x.ram.latch (x.ram.tick x.ramIn x.cells e.floating) x.cells e.floating

/-- The physical level before the first edge. It has no reset: these are the initial values. No
write strobe is low, and the state register of `ram` may hold any code outside its sequences. -/
structure IsReset : Prop where
  state : x.phy.state = 0
  busy : x.phy.busy = false
  opeCe1 : x.phy.ramOpeCe1 = false
  opeCe2 : x.phy.ramOpeCe2 = false
  flashReadSignal : x.phy.flashReadSignal = false
  transmitSignal : x.phy.serialportTransmitSignal = false
  ram : x.ram.state = .other ∨ x.ram.state = .idle
  pins : ∀ b, (x.ram.pins b).we = true
  flash : x.flash.state = 0

end Physical

end CacheCPU
