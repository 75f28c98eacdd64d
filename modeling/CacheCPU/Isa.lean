import CacheCPU.Common

/-!
# The instruction table

The register instructions of the product requirement document, with the operation each of them is
said to perform. Opcodes and function codes are those of `IDecode_const`; fields that the table
leaves open, or gives as zero, are not looked at. There is no delay slot and `RPC` is `PC + 4`.
-/

namespace CacheCPU

namespace Isa

/-- `op $d, $s, $t`; the shifts are `op $d, $t, $s`. -/
inductive Op3
  | addu | slt | sltu | subu | and | nor | or | xor | sllv | srav | srlv

/-- `op $t, $s, imm`. -/
inductive OpImm
  | addiu | slti | sltiu | andi | ori | xori

/-- `op $d, $t, h`. -/
inductive OpShift
  | sll | sra | srl

inductive Instr
  | op3 (o : Op3) (d s t : BitVec 5)
  | opImm (o : OpImm) (t s : BitVec 5) (imm : BitVec 16)
  | shift (o : OpShift) (d t h : BitVec 5)
  | lui (t : BitVec 5) (imm : BitVec 16)
  | mult (s t : BitVec 5)
  | mflo (d : BitVec 5)
  | mfhi (d : BitVec 5)
  | mtlo (s : BitVec 5)
  | mthi (s : BitVec 5)
  | branch
  | j
  | jal
  | jalr (d : BitVec 5)
  | jr
  | mfc0 (t d : BitVec 5)
  | mtc0 (t d : BitVec 5)
  | cache

def Op3.funct : Op3 → BitVec 6
  | addu => L.addu
  | slt => L.slt
  | sltu => L.sltu
  | subu => L.subu
  | and => L.and
  | nor => L.nor
  | or => L.or
  | xor => L.xor
  | sllv => L.sllv
  | srav => L.srav
  | srlv => L.srlv

def OpImm.opcode : OpImm → BitVec 6
  | addiu => F.addiu
  | slti => F.slti
  | sltiu => F.sltiu
  | andi => F.andi
  | ori => F.ori
  | xori => F.xori

def OpShift.funct : OpShift → BitVec 6
  | sll => L.sll
  | sra => L.sra
  | srl => L.srl

/-- The words of an instruction. Branches and jumps are told apart by `nextPc`. -/
inductive Decodes (w : BitVec 32) : Instr → Prop
  | op3 (o : Op3) : first w = F.zero → last w = o.funct →
      Decodes w (.op3 o (rdOf w) (rsOf w) (rtOf w))
  | opImm (o : OpImm) : first w = o.opcode →
      Decodes w (.opImm o (rtOf w) (rsOf w) (w.extractLsb 15 0))
  | shift (o : OpShift) : first w = F.zero → last w = o.funct →
      Decodes w (.shift o (rdOf w) (rtOf w) (shamtOf w))
  | lui : first w = F.lui → Decodes w (.lui (rtOf w) (w.extractLsb 15 0))
  | mult : first w = F.zero → last w = L.mult → Decodes w (.mult (rsOf w) (rtOf w))
  | mflo : first w = F.zero → last w = L.mflo → Decodes w (.mflo (rdOf w))
  | mfhi : first w = F.zero → last w = L.mfhi → Decodes w (.mfhi (rdOf w))
  | mtlo : first w = F.zero → last w = L.mtlo → Decodes w (.mtlo (rsOf w))
  | mthi : first w = F.zero → last w = L.mthi → Decodes w (.mthi (rsOf w))
  | branch : first w ∈ [F.beq, F.bgez, F.bgtz, F.blez, F.bltz, F.bne] → Decodes w .branch
  | j : first w = F.j → Decodes w .j
  | jal : first w = F.jal → Decodes w .jal
  | jalr : first w = F.zero → last w = L.jalr → Decodes w (.jalr (rdOf w))
  | jr : first w = F.zero → last w = L.jr → Decodes w .jr
  | mfc0 : first w = F.mfc0 → rsOf w = 0b00000#5 → last w = L.mfc0 →
      Decodes w (.mfc0 (rtOf w) (rdOf w))
  | mtc0 : first w = F.mtc0 → rsOf w = 0b00100#5 → last w = L.mtc0 →
      Decodes w (.mtc0 (rtOf w) (rdOf w))
  | cache : first w = F.cache → Decodes w .cache

/-! ## The operations -/

/-- What a register instruction works on. -/
structure State where
  reg : BitVec 5 → BitVec 32
  hi : BitVec 32
  lo : BitVec 32
  cp0 : BitVec 5 → BitVec 32

def State.set (s : State) (d : BitVec 5) (v : BitVec 32) : State :=
  if d = 0#5 then s else { s with reg := Function.update s.reg d v }

def Op3.eval (o : Op3) (s t : BitVec 32) : BitVec 32 :=
  match o with
  | addu => s + t
  | slt => if s.toInt < t.toInt then 1#32 else 0#32
  | sltu => if s.toNat < t.toNat then 1#32 else 0#32
  | subu => s - t
  | and => s &&& t
  | nor => ~~~(s ||| t)
  | or => s ||| t
  | xor => s ^^^ t
  | sllv => t <<< s.toNat
  | srav => t.sshiftRight s.toNat
  | srlv => t >>> s.toNat

def OpImm.eval (o : OpImm) (s : BitVec 32) (imm : BitVec 16) : BitVec 32 :=
  match o with
  | addiu => s + imm.signExtend 32
  | slti => if s.toInt < imm.toInt then 1#32 else 0#32
  | sltiu => if s.toNat < imm.toNat then 1#32 else 0#32
  | andi => s &&& imm.zeroExtend 32
  | ori => s ||| imm.zeroExtend 32
  | xori => s ^^^ imm.zeroExtend 32

def OpShift.eval (o : OpShift) (t : BitVec 32) (h : BitVec 5) : BitVec 32 :=
  match o with
  | sll => t <<< h.toNat
  | sra => t.sshiftRight h.toNat
  | srl => t >>> h.toNat

/-- The `Operation` line of each instruction fetched from `pc`. -/
def Instr.exec (i : Instr) (pc : BitVec 32) (s : State) : State :=
  match i with
  | op3 o d rs rt => s.set d (o.eval (s.reg rs) (s.reg rt))
  | opImm o t rs imm => s.set t (o.eval (s.reg rs) imm)
  | shift o d rt h => s.set d (o.eval (s.reg rt) h)
  | lui t imm => s.set t (imm ++ 0#16)
  | mult rs rt =>
    { s with
      hi := (BitVec.ofInt 64 ((s.reg rs).toInt * (s.reg rt).toInt)).extractLsb 63 32
      lo := (BitVec.ofInt 64 ((s.reg rs).toInt * (s.reg rt).toInt)).extractLsb 31 0 }
  | mflo d => s.set d s.lo
  | mfhi d => s.set d s.hi
  | mtlo rs => { s with lo := s.reg rs }
  | mthi rs => { s with hi := s.reg rs }
  | jal => s.set 31#5 (pc + 4#32)
  | jalr d => s.set d (pc + 4#32)
  | mfc0 t d => s.set t (s.cp0 d)
  | mtc0 t d => { s with cp0 := Function.update s.cp0 d (s.reg t) }
  | branch | j | jr | cache => s

/-! ## The next program counter -/

/-- The condition of a branch word. -/
def branchHolds (w rs rt : BitVec 32) : Prop :=
  (first w = F.beq ∧ rs = rt) ∨ (first w = F.bne ∧ rs ≠ rt) ∨
    (first w = F.bgez ∧ w.getLsbD 16 = true ∧ 0 ≤ rs.toInt) ∨
    (first w = F.bltz ∧ w.getLsbD 16 = false ∧ rs.toInt < 0) ∨
    (first w = F.bgtz ∧ 0 < rs.toInt) ∨ (first w = F.blez ∧ rs.toInt ≤ 0)

instance (w rs rt : BitVec 32) : Decidable (branchHolds w rs rt) :=
  inferInstanceAs (Decidable (_ ∨ _))

/-- Where the instruction `w` fetched from `pc` goes. -/
def nextPc (w pc rs rt epc : BitVec 32) : BitVec 32 :=
  if first w = F.eret ∧ last w = L.eret then epc
  else if first w = F.zero ∧ (last w = L.jr ∨ last w = L.jalr) then rs
  else if first w = F.j ∨ first w = F.jal then
    (pc + 4#32).extractLsb 31 28 ++ w.extractLsb 25 0 ++ 0b00#2
  else if branchHolds w rs rt then pc + 4#32 + 4#32 * (w.extractLsb 15 0).signExtend 32
  else pc + 4#32

end Isa

end CacheCPU
