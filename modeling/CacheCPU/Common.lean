import Mathlib.Logic.Function.Basic

/-!
# The packages `common` and `IDecode_const`

The stages of the multi-cycle machine, the constants the VHDL packages declare, and the signals
the physical level drives towards the CPU. A `std_logic` is a `Bool` and a `std_logic_vector` a
`BitVec`; `(hi downto lo)` is `extractLsb hi lo`.
-/

namespace CacheCPU

/-- The stages of the multi-cycle machine. -/
inductive Status
  | insF | insD | exe | mem1 | mem2 | writeB | exc
deriving DecidableEq, Repr

/-- What the physical level drives towards the CPU: the word read last, whether it is idle, and
whether a received byte is waiting. -/
structure PhyOut where
  data : BitVec 32
  ready : Bool
  serial : Bool
deriving DecidableEq

/-! ## Package `common` -/

def virtualSerialStatus : BitVec 32 := 0xbfd003fc#32
def physicalSerialData : BitVec 32 := 0x1fd003f8#32

def noMemExc : BitVec 3 := 0b000#3
def tlbModified : BitVec 3 := 0b001#3
def tlbL : BitVec 3 := 0b010#3
def tlbS : BitVec 3 := 0b011#3
def adeL : BitVec 3 := 0b100#3
def adeS : BitVec 3 := 0b101#3

def alignTypeQuad : BitVec 2 := 0b00#2
def alignTypeWord : BitVec 2 := 0b01#2
def alignTypeByte : BitVec 2 := 0b10#2

def invalidContent : BitVec 32 := 0xffffffff#32

/-! ## Package `IDecode_const`: the opcodes, `instruction(31 downto 26)` -/

namespace F

def zero : BitVec 6 := 0b000000#6
def addiu : BitVec 6 := 0b001001#6
def slti : BitVec 6 := 0b001010#6
def sltiu : BitVec 6 := 0b001011#6
def andi : BitVec 6 := 0b001100#6
def lui : BitVec 6 := 0b001111#6
def ori : BitVec 6 := 0b001101#6
def xori : BitVec 6 := 0b001110#6
def beq : BitVec 6 := 0b000100#6
def bgez : BitVec 6 := 0b000001#6
def bgtz : BitVec 6 := 0b000111#6
def blez : BitVec 6 := 0b000110#6
def bltz : BitVec 6 := 0b000001#6
def bne : BitVec 6 := 0b000101#6
def j : BitVec 6 := 0b000010#6
def jal : BitVec 6 := 0b000011#6
def lw : BitVec 6 := 0b100011#6
def sw : BitVec 6 := 0b101011#6
def lb : BitVec 6 := 0b100000#6
def lbu : BitVec 6 := 0b100100#6
def sb : BitVec 6 := 0b101000#6
def cache : BitVec 6 := 0b101111#6
def eret : BitVec 6 := 0b010000#6
def mfc0 : BitVec 6 := 0b010000#6
def mtc0 : BitVec 6 := 0b010000#6
def tlbwi : BitVec 6 := 0b010000#6
def lhu : BitVec 6 := 0b100101#6

end F

/-! ## Package `IDecode_const`: the function codes, `instruction(5 downto 0)` -/

namespace L

def addu : BitVec 6 := 0b100001#6
def slt : BitVec 6 := 0b101010#6
def sltu : BitVec 6 := 0b101011#6
def subu : BitVec 6 := 0b100011#6
def mult : BitVec 6 := 0b011000#6
def mflo : BitVec 6 := 0b010010#6
def mfhi : BitVec 6 := 0b010000#6
def mtlo : BitVec 6 := 0b010011#6
def mthi : BitVec 6 := 0b010001#6
def jalr : BitVec 6 := 0b001001#6
def jr : BitVec 6 := 0b001000#6
def and : BitVec 6 := 0b100100#6
def nor : BitVec 6 := 0b100111#6
def or : BitVec 6 := 0b100101#6
def xor : BitVec 6 := 0b100110#6
def sll : BitVec 6 := 0b000000#6
def sllv : BitVec 6 := 0b000100#6
def sra : BitVec 6 := 0b000011#6
def srav : BitVec 6 := 0b000111#6
def srl : BitVec 6 := 0b000010#6
def srlv : BitVec 6 := 0b000110#6
def syscall : BitVec 6 := 0b001100#6
def eret : BitVec 6 := 0b011000#6
def mfc0 : BitVec 6 := 0b000000#6
def mtc0 : BitVec 6 := 0b000000#6
def tlbwi : BitVec 6 := 0b000010#6

end L

def wbDisable : BitVec 5 := 0b11000#5
def memDisable : BitVec 3 := 0b000#3
def aluDisable : BitVec 9 := 0b000000000#9

/-! ## The fields of an instruction word -/

section Fields

variable (w : BitVec 32)

def first : BitVec 6 := w.extractLsb 31 26
def rsOf : BitVec 5 := w.extractLsb 25 21
def rtOf : BitVec 5 := w.extractLsb 20 16
def rdOf : BitVec 5 := w.extractLsb 15 11
def shamtOf : BitVec 5 := w.extractLsb 10 6
def last : BitVec 6 := w.extractLsb 5 0

end Fields

end CacheCPU
