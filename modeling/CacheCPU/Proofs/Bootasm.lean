import CacheCPU.Proofs.FlashRead
import CacheCPU.Proofs.Trapentry
import CacheCPU.Ucore.Bootasm

/-!
# The lines of the boot loader

The ROM is the assembly of `bootasm.S`, so that the loader can be run line by line. Each of its
macros puts together a word of the image from two words of the Flash.
-/

namespace CacheCPU

namespace Boot

open Isa Ucore

/-! ## The words of the ROM -/

theorem bootRom_eq : bootRom = bootasm.map Line.encode := rfl

theorem encodeI_fields (op : BitVec 6) (s t : BitVec 5) (imm : BitVec 16) :
    first (encodeI op s t imm) = op ∧ rsOf (encodeI op s t imm) = s ∧
      rtOf (encodeI op s t imm) = t ∧ (encodeI op s t imm).extractLsb 15 0 = imm := by
  refine ⟨?_, ?_, ?_, ?_⟩ <;> ext i hi <;> simp [encodeI, first, rsOf, rtOf] <;> grind

theorem encodeR_fields (s t d h : BitVec 5) (l : BitVec 6) :
    first (encodeR s t d h l) = F.zero ∧ last (encodeR s t d h l) = l ∧
      rsOf (encodeR s t d h l) = s ∧ rtOf (encodeR s t d h l) = t ∧
      rdOf (encodeR s t d h l) = d ∧ shamtOf (encodeR s t d h l) = h := by
  refine ⟨?_, ?_, ?_, ?_, ?_, ?_⟩ <;> ext i hi <;>
    simp [encodeR, first, last, rsOf, rtOf, rdOf, shamtOf] <;> grind

/-- What is decoded is in the instruction table. -/
theorem decodes_of_decode {w : BitVec 32} {i : Instr} (h : decode w = some i) : Decodes w i := by
  unfold decode at h
  split_ifs at h with h0 h1 h2 h3 h4 h5 h6 h7 h8 h9 <;> cases h
  · exact .op3 .addu h0 h1
  · exact .op3 .or h0 h2
  · exact .shift .sll h0 h3
  · exact .jr h0 h4
  · exact .opImm .addiu h5
  · exact .opImm .andi h6
  · exact .opImm .ori h7
  · exact .lui h8
  · refine .branch ?_
    rcases h9 with h9 | h9 <;> rw [h9] <;> decide

section Step

variable {flash : BitVec 23 → BitVec 16} {elsewhere : BitVec 32 → BitVec 32} {s : State} {k : ℕ}

/-- The words of the ROM are where they are read. -/
theorem addr_in_rom : ∀ k < 84, direct (addr k) ∧ (addr k).extractLsb 28 23 ≠ 0#6 ∧
    (addr k).extractLsb 28 24 ≠ 0x1e#5 ∧ (addr k).extractLsb 28 12 = 0x10000#17 ∧
    ((addr k).extractLsb 11 2).toNat = k ∧ (k ≠ done → addr k ≠ addr done) := by
  decide +kernel

theorem addr_succ (k : ℕ) : addr k + 4#32 = addr (k + 1) := by
  unfold addr
  rw [BitVec.ofNat_add, BitVec.mul_add, BitVec.add_assoc]
  rfl

theorem lt_of_line {l : Line} (h : bootasm[k]? = some l) : k < 84 :=
  (List.getElem?_eq_some_iff.1 h).1

theorem read_line {l : Line} (h : bootasm[k]? = some l) :
    s.read flash elsewhere (addr k) = some l.encode := by
  obtain ⟨hd, h1, h2, h3, h4, -⟩ := addr_in_rom k (lt_of_line h)
  have hw : bootRom[k]? = some l.encode := by
    rw [bootRom_eq, List.getElem?_map, h]
    rfl
  rw [State.read, if_pos hd, if_neg h1, if_neg h2, if_pos h3, h4, List.getD_eq_getElem?_getD, hw]
  rfl

/-- Fetching a line of the assembly. -/
theorem step_eq {l : Line} (h : bootasm[k]? = some l) (hpc : s.pc = addr k) :
    s.step flash elsewhere =
      (let w := l.encode
      let pc := nextPc w (addr k) (s.cpu.reg (rsOf w)) (s.cpu.reg (rtOf w)) (s.cpu.cp0 Cp0.epc)
      if first w = F.lw then
        (s.read flash elsewhere (s.address w)).map fun v => ⟨s.cpu.set (rtOf w) v, pc, s.ram⟩
      else if first w = F.sw then
        (s.write (s.address w) (s.cpu.reg (rtOf w))).map fun ram => ⟨s.cpu, pc, ram⟩
      else (decode w).map fun i => ⟨i.exec (addr k) s.cpu, pc, s.ram⟩) := by
  unfold State.step
  rw [hpc, read_line h]
  rfl

theorem nextPc_encodeI {op : BitVec 6} {r t : BitVec 5} {imm : BitVec 16}
    (h : op ∉ [F.zero, F.eret, F.j, F.jal] ∧ op ∉ branches) (pc rs rt epc : BitVec 32) :
    nextPc (encodeI op r t imm) pc rs rt epc = pc + 4#32 := by
  obtain ⟨h1, -⟩ := encodeI_fields op r t imm
  obtain ⟨h, hb⟩ := h
  simp only [List.mem_cons, List.not_mem_nil, or_false, not_or] at h
  rw [← h1] at h hb
  rw [nextPc, if_neg (fun hn => h.2.1 hn.1), if_neg (fun hn => h.1 hn.1), if_neg (by simp [h]),
    if_neg (not_branchHolds hb)]

theorem nextPc_encodeR {r t d c : BitVec 5} {l : BitVec 6} (h : l ∉ [L.jr, L.jalr])
    (pc rs rt epc : BitVec 32) : nextPc (encodeR r t d c l) pc rs rt epc = pc + 4#32 := by
  obtain ⟨h1, h2, -⟩ := encodeR_fields r t d c l
  simp only [List.mem_cons, List.not_mem_nil, or_false] at h
  have hb : first (encodeR r t d c l) ∉ branches := by
    rw [h1]
    decide
  have he : F.zero ≠ F.eret ∧ ¬ (F.zero = F.j ∨ F.zero = F.jal) := by decide
  rw [nextPc, h1, h2, if_neg (fun hn => he.1 hn.1), if_neg (fun hn => h hn.2), if_neg he.2,
    if_neg (not_branchHolds hb)]

theorem nextPc_branch {w pc rs rt epc : BitVec 32} (hb : first w ∈ branches) :
    nextPc w pc rs rt epc = if branchHolds w rs rt then
      pc + 4#32 + 4#32 * (w.extractLsb 15 0).signExtend 32 else pc + 4#32 := by
  obtain ⟨he, hz, hj, hl⟩ := branch_ne hb
  rw [nextPc, if_neg (fun h => he h.1), if_neg (fun h => hz h.1), if_neg (by simp [hj, hl])]

theorem branchHolds_beq {w rs rt : BitVec 32} (h : first w = F.beq) :
    branchHolds w rs rt ↔ rs = rt := by
  simp [branchHolds, h, F.beq, F.bne, F.bgez, F.bltz, F.bgtz, F.blez]

theorem branchHolds_bgtz {w rs rt : BitVec 32} (h : first w = F.bgtz) :
    branchHolds w rs rt ↔ 0 < rs.toInt := by
  simp [branchHolds, h, F.beq, F.bne, F.bgez, F.bltz, F.bgtz, F.blez]

/-- The lines that only work on registers. -/
def Line.instr : Line → Option Instr
  | addu d s t => some (.op3 .addu d s t)
  | or d s t => some (.op3 .or d s t)
  | sll d t h => some (.shift .sll d t h)
  | addiu t s imm => some (.opImm .addiu t s imm)
  | andi t s imm => some (.opImm .andi t s imm)
  | ori t s imm => some (.opImm .ori t s imm)
  | lui t imm => some (.lui t imm)
  | _ => none

/-- The word of such a line. -/
theorem Line.encode_instr {l : Line} {i : Instr} (h : l.instr = some i) :
    decode l.encode = some i ∧ first l.encode ≠ F.lw ∧ first l.encode ≠ F.sw ∧
      ∀ pc rs rt epc, nextPc l.encode pc rs rt epc = pc + 4#32 := by
  cases l with
  | addu d r t =>
    obtain ⟨h1, h2, h3, h4, h5, -⟩ := encodeR_fields r t d 0#5 L.addu
    cases h
    refine ⟨?_, ?_, ?_, nextPc_encodeR (by decide)⟩ <;>
      simp only [Line.encode, decode, h1, h2, h3, h4, h5] <;> first | rfl | decide
  | or d r t =>
    obtain ⟨h1, h2, h3, h4, h5, -⟩ := encodeR_fields r t d 0#5 L.or
    cases h
    refine ⟨?_, ?_, ?_, nextPc_encodeR (by decide)⟩ <;>
      simp only [Line.encode, decode, h1, h2, h3, h4, h5] <;> first | rfl | decide
  | sll d t r =>
    obtain ⟨h1, h2, -, h4, h5, h6⟩ := encodeR_fields 0#5 t d r L.sll
    cases h
    refine ⟨?_, ?_, ?_, nextPc_encodeR (by decide)⟩ <;>
      simp only [Line.encode, decode, h1, h2, h4, h5, h6] <;> first | rfl | decide
  | addiu t r imm =>
    obtain ⟨h1, h2, h3, h4⟩ := encodeI_fields F.addiu r t imm
    cases h
    refine ⟨?_, ?_, ?_, nextPc_encodeI (by decide)⟩ <;>
      simp only [Line.encode, decode, h1, h2, h3, h4] <;> first | rfl | decide
  | andi t r imm =>
    obtain ⟨h1, h2, h3, h4⟩ := encodeI_fields F.andi r t imm
    cases h
    refine ⟨?_, ?_, ?_, nextPc_encodeI (by decide)⟩ <;>
      simp only [Line.encode, decode, h1, h2, h3, h4] <;> first | rfl | decide
  | ori t r imm =>
    obtain ⟨h1, h2, h3, h4⟩ := encodeI_fields F.ori r t imm
    cases h
    refine ⟨?_, ?_, ?_, nextPc_encodeI (by decide)⟩ <;>
      simp only [Line.encode, decode, h1, h2, h3, h4] <;> first | rfl | decide
  | lui t imm =>
    obtain ⟨h1, -, h3, h4⟩ := encodeI_fields F.lui 0#5 t imm
    cases h
    refine ⟨?_, ?_, ?_, nextPc_encodeI (by decide)⟩ <;>
      simp only [Line.encode, decode, h1, h3, h4] <;> first | rfl | decide
  | lw | sw | beq | bgtz | jr => cases h

theorem step_plain {l : Line} {i : Instr} (h : bootasm[k]? = some l) (hi : l.instr = some i)
    (hpc : s.pc = addr k) :
    s.step flash elsewhere = some ⟨i.exec (addr k) s.cpu, addr (k + 1), s.ram⟩ := by
  obtain ⟨hd, hlw, hsw, hn⟩ := Line.encode_instr hi
  rw [step_eq h hpc]
  simp only [if_neg hlw, if_neg hsw, hd, hn, addr_succ]
  rfl

theorem step_lw {t base : BitVec 5} {off : BitVec 16} {v : BitVec 32}
    (h : bootasm[k]? = some (.lw t off base)) (hpc : s.pc = addr k)
    (hv : s.read flash elsewhere (s.cpu.reg base + off.signExtend 32) = some v) :
    s.step flash elsewhere = some ⟨s.cpu.set t v, addr (k + 1), s.ram⟩ := by
  obtain ⟨h1, h2, h3, h4⟩ := encodeI_fields F.lw base t off
  have hn := @nextPc_encodeI F.lw base t off (by decide)
  rw [step_eq h hpc]
  simp only [Line.encode, if_pos h1, State.address, h2, h3, h4, hv, hn, addr_succ]
  rfl

theorem step_sw {t base : BitVec 5} {off : BitVec 16} {ram : BitVec 23 → BitVec 8}
    (h : bootasm[k]? = some (.sw t off base)) (hpc : s.pc = addr k)
    (hv : s.write (s.cpu.reg base + off.signExtend 32) (s.cpu.reg t) = some ram) :
    s.step flash elsewhere = some ⟨s.cpu, addr (k + 1), ram⟩ := by
  obtain ⟨h1, h2, h3, h4⟩ := encodeI_fields F.sw base t off
  have hlw : first (encodeI F.sw base t off) ≠ F.lw := by
    rw [h1]
    decide
  have hn := @nextPc_encodeI F.sw base t off (by decide)
  rw [step_eq h hpc]
  simp only [Line.encode, if_neg hlw, if_pos h1, State.address, h2, h3, h4, hv, hn, addr_succ]
  rfl

theorem step_beq {r t : BitVec 5} {off : BitVec 16} (h : bootasm[k]? = some (.beq r t off))
    (hpc : s.pc = addr k) : s.step flash elsewhere = some ⟨s.cpu,
      if s.cpu.reg r = s.cpu.reg t then addr (k + 1) + 4#32 * off.signExtend 32 else addr (k + 1),
      s.ram⟩ := by
  obtain ⟨h1, h2, h3, h4⟩ := encodeI_fields F.beq r t off
  have hd : decode (encodeI F.beq r t off) = some .branch := by
    simp only [decode, h1]
    rfl
  have hb : first (encodeI F.beq r t off) ∈ branches := by
    rw [h1]
    decide
  rw [step_eq h hpc]
  simp only [Line.encode, h1, hd, nextPc_branch hb, branchHolds_beq h1, h2, h3, h4, addr_succ]
  rfl

theorem step_bgtz {r : BitVec 5} {off : BitVec 16} (h : bootasm[k]? = some (.bgtz r off))
    (hpc : s.pc = addr k) : s.step flash elsewhere = some ⟨s.cpu,
      if 0 < (s.cpu.reg r).toInt then addr (k + 1) + 4#32 * off.signExtend 32 else addr (k + 1),
      s.ram⟩ := by
  obtain ⟨h1, h2, -, h4⟩ := encodeI_fields F.bgtz r 0#5 off
  have hd : decode (encodeI F.bgtz r 0#5 off) = some .branch := by
    simp only [decode, h1]
    rfl
  have hb : first (encodeI F.bgtz r 0#5 off) ∈ branches := by
    rw [h1]
    decide
  rw [step_eq h hpc]
  simp only [Line.encode, h1, hd, nextPc_branch hb, branchHolds_bgtz h1, h2, h4, addr_succ]
  rfl

theorem step_jr {r : BitVec 5} (h : bootasm[k]? = some (.jr r)) (hpc : s.pc = addr k) :
    s.step flash elsewhere = some ⟨s.cpu, s.cpu.reg r, s.ram⟩ := by
  obtain ⟨h1, h2, h3, -⟩ := encodeR_fields r 0#5 0#5 0#5 L.jr
  have hd : decode (encodeR r 0#5 0#5 0#5 L.jr) = some .jr := by
    simp only [decode, h1, h2]
    rfl
  have hn : ∀ pc rs rt epc, nextPc (encodeR r 0#5 0#5 0#5 L.jr) pc rs rt epc = rs := by
    intro pc rs rt epc
    have he : F.zero ≠ F.eret := by decide
    rw [nextPc, if_neg (fun hn => he (h1.symm.trans hn.1)), if_pos ⟨h1, .inl h2⟩]
  rw [step_eq h hpc]
  simp only [Line.encode, h1, hd, hn, h3]
  rfl

end Step

/-! ## Lines in a row -/

section Load

variable {flash : BitVec 23 → BitVec 16} {elsewhere : BitVec 32 → BitVec 32} {s t u : State}
  {k x : ℕ}

variable (flash elsewhere) in
abbrev Runs : State → State → Prop := Relation.ReflTransGen (Next flash elsewhere)

theorem runs_step {l : Line} (h : bootasm[k]? = some l) (hk : k ≠ done) (hpc : s.pc = addr k)
    (hs : s.step flash elsewhere = some t) : Runs flash elsewhere s t := by
  refine .single ⟨?_, hs⟩
  rw [hpc]
  exact (addr_in_rom k (lt_of_line h)).2.2.2.2.2 hk

theorem runs_plain {l : Line} {i : Instr} (h : bootasm[k]? = some l) (hi : l.instr = some i)
    (hk : k ≠ done) (hpc : s.pc = addr k) :
    Runs flash elsewhere s ⟨i.exec (addr k) s.cpu, addr (k + 1), s.ram⟩ :=
  runs_step h hk hpc (step_plain h hi hpc)

/-- The lines `code` are at place `k`. -/
def At (k : ℕ) (code : List Line) : Prop := code <+: bootasm.drop k

instance (k : ℕ) (code : List Line) : Decidable (At k code) :=
  inferInstanceAs (Decidable (_ <+: _))

theorem At.line {code : List Line} (h : At k code) {j : ℕ} {l : Line} (hj : code[j]? = some l) :
    bootasm[k + j]? = some l := by
  obtain ⟨rest, hrest⟩ := h
  have hlt : j < code.length := (List.getElem?_eq_some_iff.1 hj).1
  rw [← List.getElem?_drop, ← hrest, List.getElem?_append_left hlt, hj]

theorem At.append {code code' : List Line} (h : At k (code ++ code')) :
    At (k + code.length) code' := by
  obtain ⟨rest, hrest⟩ := h
  refine ⟨rest, ?_⟩
  rw [← List.drop_drop, ← hrest, List.append_assoc, List.drop_left]

/-! ## A word of the image -/

variable (flash elsewhere) in
/-- What is read for the 16 bits at the even distance `x` from the beginning of the image. -/
def flashWord (x : ℕ) : BitVec 32 :=
  if x < 2 ^ 23 then 0x0000#16 ++ flash (BitVec.ofNat 23 x)
  else elsewhere (flashStart + BitVec.ofNat 32 (2 * x))

variable (flash elsewhere) in
/-- What the macros load. -/
def loadedWord (x : ℕ) : BitVec 32 :=
  flashWord flash elsewhere x ||| flashWord flash elsewhere (x + 2) <<< 16

theorem extract_eq_iff {hi lo : ℕ} {a : BitVec 32} {v : BitVec (hi - lo + 1)} :
    a.extractLsb hi lo = v ↔ a.toNat / 2 ^ lo % 2 ^ (hi - lo + 1) = v.toNat := by
  rw [← BitVec.toNat_inj, BitVec.extractLsb_toNat, Nat.shiftRight_eq_div_pow]

theorem read_flash (hx : x ≤ 2 ^ 23) (he : x % 2 = 0) :
    s.read flash elsewhere (flashStart + BitVec.ofNat 32 (2 * x)) =
      some (flashWord flash elsewhere x) := by
  have ha : (flashStart + BitVec.ofNat 32 (2 * x)).toNat = 0xbe000000 + 2 * x := by
    rw [BitVec.toNat_add, BitVec.toNat_ofNat, show flashStart.toNat = 0xbe000000 from rfl]
    omega
  unfold flashWord
  generalize flashStart + BitVec.ofNat 32 (2 * x) = a at ha ⊢
  have hseg : a.extractLsb 31 29 = 0b101#3 := by
    rw [extract_eq_iff, ha]
    simp
    omega
  have hd : direct a := by
    refine ⟨by simp [notUseMmu, hseg], ?_⟩
    rw [extract_eq_iff, ha]
    simp
    omega
  have h1 : a.extractLsb 28 23 ≠ 0#6 := by
    rw [Ne, extract_eq_iff, ha]
    simp
    omega
  have h2 : a.extractLsb 28 24 = 0x1e#5 ↔ x < 2 ^ 23 := by
    rw [extract_eq_iff, ha]
    simp
    omega
  have h3 : a.extractLsb 28 12 ≠ 0x10000#17 := by
    rw [Ne, extract_eq_iff, ha]
    simp
    omega
  have h4 : x < 2 ^ 23 → a.extractLsb 23 2 ++ 0b0#1 = BitVec.ofNat 23 x := by
    intro hlt
    apply BitVec.eq_of_toNat_eq
    rw [BitVec.toNat_append, BitVec.extractLsb_toNat, Nat.shiftRight_eq_div_pow, ha]
    simp [Nat.shiftLeft_eq]
    omega
  rw [State.read, if_pos hd, if_neg h1]
  by_cases hlt : x < 2 ^ 23
  · rw [if_pos (h2.2 hlt), if_pos hlt, h4 hlt]
  · rw [if_neg (mt h2.1 hlt), if_neg h3, if_neg hlt]

/-- What the machine reads from the Flash and the ROM is what the CPU sees on a board with this ROM,
when a fetch or a load begins there. -/
theorem Board.returns_read {I : Image} {b : Board} (hr : b.Reachable I) (ha : b.machine.Accesses)
    (hread : b.machine.reads = true) (hd : direct b.machine.access)
    (hrom : ∀ k < 84, I.rom (BitVec.ofNat 22 k) = bootRom.getD k 0#32)
    (hpa : InFlash b.physical ∨ InBootRom b.physical) (y : ℕ → Board.Exts) :
    ∃ v, s.read I.flash elsewhere b.machine.access = some v ∧ b.Returns I y v := by
  obtain ⟨hflash, hbootRom⟩ := (Board.reads_flash_rom hr ha).1 hread hd.1 hd.2 y
  have hphys : b.physical = (b.machine.access.extractLsb 28 0).zeroExtend 32 := by
    rw [Board.physical, physicalAddr, if_pos hd.1]
  have hnat : b.physical.toNat = b.machine.access.toNat % 2 ^ 29 := by
    rw [hphys, BitVec.toNat_setWidth_of_le (by decide), BitVec.extractLsb_toNat]
    simp
  have hsize : romSize = 84 := rfl
  have h1 : b.machine.access.extractLsb 28 23 ≠ 0#6 := by
    rw [Ne, extract_eq_iff]
    rcases hpa with h | h <;> unfold InFlash at * <;> unfold InBootRom at * <;> simp <;> omega
  rw [State.read, if_pos hd, if_neg h1]
  rcases hpa with h | h
  · have hin := h
    unfold InFlash at hin
    have h2 : b.machine.access.extractLsb 28 24 = 0x1e#5 := by
      rw [extract_eq_iff]
      simp
      omega
    have h3 : b.physical.extractLsb 23 2 = b.machine.access.extractLsb 23 2 := by
      rw [extract_eq_iff, BitVec.extractLsb_toNat, Nat.shiftRight_eq_div_pow, hnat]
      omega
    rw [if_pos h2]
    refine ⟨_, rfl, ?_⟩
    rw [← h3, ← h.word]
    exact hflash h
  · have hin := h
    unfold InBootRom at hin
    have h2 : b.machine.access.extractLsb 28 24 ≠ 0x1e#5 := by
      rw [Ne, extract_eq_iff]
      simp
      omega
    have h3 : b.machine.access.extractLsb 28 12 = 0x10000#17 := by
      rw [extract_eq_iff]
      simp
      omega
    have h4 : (b.machine.access.extractLsb 11 2).toNat = (b.physical.toNat - 0x10000000) / 4 := by
      rw [BitVec.extractLsb_toNat, Nat.shiftRight_eq_div_pow, hnat]
      omega
    have hlt : (b.physical.toNat - 0x10000000) / 4 < bootRom.length := by
      change _ < 84
      omega
    rw [if_neg h2, if_pos h3, h4]
    refine ⟨_, rfl, ?_⟩
    rw [List.getD_eq_getElem?_getD, List.getElem?_eq_getElem hlt, Option.getD_some]
    have hword := hrom _ hlt
    rw [List.getD_eq_getElem?_getD, List.getElem?_eq_getElem hlt, Option.getD_some] at hword
    rw [← hword]
    exact hbootRom h

/-- From `s` to `t` at place `k`, with `v` in `dst` and nothing else changed but `$t7`. -/
structure Loads (flash : BitVec 23 → BitVec 16) (elsewhere : BitVec 32 → BitVec 32) (s t : State)
    (k : ℕ) (dst : BitVec 5) (v : BitVec 32) : Prop where
  runs : Runs flash elsewhere s t
  pc : t.pc = addr k
  ram : t.ram = s.ram
  value : t.cpu.reg dst = v
  other : ∀ r, r ≠ dst → r ≠ Reg.t7 → t.cpu.reg r = s.cpu.reg r

section Macros

variable {dst : BitVec 5} (hd : dst ∉ [Reg.zero, Reg.t7, Reg.s0]) (hx : x < 2 ^ 23)
  (he : x % 2 = 0) (hpc : s.pc = addr k) (hs0 : s.cpu.reg Reg.s0 = flashStart)
include hd hx he hpc hs0

theorem loads_loadWord (hc : At k (loadWord dst)) (hk : k + 5 ≤ done)
    (ht7 : s.cpu.reg Reg.t7 = BitVec.ofNat 32 (2 * x)) :
    ∃ t, Loads flash elsewhere s t (k + 5) dst (loadedWord flash elsewhere x) := by
  simp only [List.mem_cons, List.not_mem_nil, or_false, not_or] at hd
  obtain ⟨hd0, hd7, -⟩ := hd
  have h7 : Reg.t7 ≠ 0#5 := by decide
  -- the address
  have r1 := @runs_plain flash elsewhere s k _ _ (@At.line _ _ hc 0 _ rfl) rfl (by omega) hpc
  change Runs flash elsewhere s ⟨s.cpu.set Reg.t7 (s.cpu.reg Reg.s0 + s.cpu.reg Reg.t7), _, _⟩ at r1
  rw [hs0, ht7] at r1
  set c1 := s.cpu.set Reg.t7 (flashStart + BitVec.ofNat 32 (2 * x)) with hc1
  have e1 : c1.reg Reg.t7 = flashStart + BitVec.ofNat 32 (2 * x) := reg_set_self h7
  -- the two reads
  have l2 := @At.line _ _ hc 1 _ rfl
  have h0 : flashStart + BitVec.ofNat 32 (2 * x) + (0#16).signExtend 32 =
      flashStart + BitVec.ofNat 32 (2 * x) := BitVec.add_zero _
  have r2 := runs_step l2 (by omega) rfl (@step_lw flash elsewhere ⟨c1, addr (k + 1), s.ram⟩ _ _ _
    _ _ l2 rfl (by rw [e1, h0]; exact read_flash (by omega) he))
  set c2 := c1.set dst (flashWord flash elsewhere x) with hc2
  have e2 : c2.reg Reg.t7 = flashStart + BitVec.ofNat 32 (2 * x) :=
    (reg_set_of_ne (Ne.symm hd7)).trans e1
  have h4 : flashStart + BitVec.ofNat 32 (2 * x) + (4#16).signExtend 32 =
      flashStart + BitVec.ofNat 32 (2 * (x + 2)) := by
    rw [BitVec.add_assoc, Nat.mul_add, BitVec.ofNat_add]
    rfl
  have l3 := @At.line _ _ hc 2 _ rfl
  have r3 := runs_step l3 (by omega) rfl (@step_lw flash elsewhere ⟨c2, addr (k + 1 + 1), s.ram⟩ _ _
    _ _ _ l3 rfl (by rw [e2, h4]; exact read_flash (by omega) (by omega)))
  set c3 := c2.set Reg.t7 (flashWord flash elsewhere (x + 2)) with hc3
  have e3 : c3.reg Reg.t7 = flashWord flash elsewhere (x + 2) := reg_set_self h7
  -- the halves put together
  have r4 := @runs_plain flash elsewhere ⟨c3, addr (k + 1 + 1 + 1), s.ram⟩ _ _ _
    (@At.line _ _ hc 3 _ rfl) rfl (by omega) rfl
  change Runs flash elsewhere _ ⟨c3.set Reg.t7 (c3.reg Reg.t7 <<< 16), _, _⟩ at r4
  rw [e3] at r4
  set c4 := c3.set Reg.t7 (flashWord flash elsewhere (x + 2) <<< 16) with hc4
  have e4 : c4.reg Reg.t7 = flashWord flash elsewhere (x + 2) <<< 16 := reg_set_self h7
  have d4 : c4.reg dst = flashWord flash elsewhere x := by
    rw [hc4, reg_set_of_ne hd7, hc3, reg_set_of_ne hd7]
    exact reg_set_self hd0
  have r5 := @runs_plain flash elsewhere ⟨c4, addr (k + 1 + 1 + 1 + 1), s.ram⟩ _ _ _
    (@At.line _ _ hc 4 _ rfl) rfl (by omega) rfl
  change Runs flash elsewhere _ ⟨c4.set dst (c4.reg dst ||| c4.reg Reg.t7), _, _⟩ at r5
  rw [e4, d4] at r5
  refine ⟨_, (((r1.trans r2).trans r3).trans r4).trans r5, rfl, rfl, reg_set_self hd0, ?_⟩
  intro r hr hr7
  change (c4.set dst _).reg r = _
  rw [reg_set_of_ne hr, hc4, reg_set_of_ne hr7, hc3, reg_set_of_ne hr7, hc2, reg_set_of_ne hr, hc1,
    reg_set_of_ne hr7]

/-- `LOAD_WORD_R`. -/
theorem loads_loadWordR {base : BitVec 5} {off : BitVec 16} (hc : At k (loadWordR dst off base))
    (hk : k + 7 ≤ done) (hbase : s.cpu.reg base + off.signExtend 32 = BitVec.ofNat 32 x) :
    ∃ t, Loads flash elsewhere s t (k + 7) dst (loadedWord flash elsewhere x) := by
  have h7 : Reg.t7 ≠ 0#5 := by decide
  have h0 : Reg.s0 ≠ Reg.t7 := by decide
  have r1 := @runs_plain flash elsewhere s k _ _ (@At.line _ _ hc 0 _ rfl) rfl (by omega) hpc
  change Runs flash elsewhere s ⟨s.cpu.set Reg.t7 (s.cpu.reg base + off.signExtend 32), _, _⟩ at r1
  rw [hbase] at r1
  set c1 := s.cpu.set Reg.t7 (BitVec.ofNat 32 x) with hc1
  have e1 : c1.reg Reg.t7 = BitVec.ofNat 32 x := reg_set_self h7
  have r2 := @runs_plain flash elsewhere ⟨c1, addr (k + 1), s.ram⟩ _ _ _ (@At.line _ _ hc 1 _ rfl)
    rfl (by omega) rfl
  change Runs flash elsewhere _ ⟨c1.set Reg.t7 (c1.reg Reg.t7 <<< 1), _, _⟩ at r2
  have hdouble : BitVec.ofNat 32 x <<< 1 = BitVec.ofNat 32 (2 * x) := by
    apply BitVec.eq_of_toNat_eq
    simp only [BitVec.toNat_shiftLeft, BitVec.toNat_ofNat, Nat.shiftLeft_eq]
    omega
  rw [e1, hdouble] at r2
  set c2 := c1.set Reg.t7 (BitVec.ofNat 32 (2 * x)) with hc2
  have hother : ∀ r, r ≠ Reg.t7 → c2.reg r = s.cpu.reg r := fun r hr => by
    rw [hc2, reg_set_of_ne hr, hc1, reg_set_of_ne hr]
  obtain ⟨t, ht⟩ := @loads_loadWord flash elsewhere ⟨c2, addr (k + 1 + 1), s.ram⟩ _ x dst hd hx he
    rfl ((hother _ h0).trans hs0) (@At.append k [_, _] _ hc) (by omega) (reg_set_self h7)
  exact ⟨t, (r1.trans r2).trans ht.runs, ht.pc, ht.ram, ht.value,
    fun r hr hr7 => (ht.other r hr hr7).trans (hother r hr7)⟩

/-- `LOAD_WORD_I`. -/
theorem loads_loadWordI {imm : BitVec 16} (hc : At k (.addiu Reg.t7 Reg.zero imm :: loadWord dst))
    (hk : k + 6 ≤ done) (hz : s.cpu.reg Reg.zero = 0#32)
    (himm : imm.signExtend 32 = BitVec.ofNat 32 (2 * x)) :
    ∃ t, Loads flash elsewhere s t (k + 6) dst (loadedWord flash elsewhere x) := by
  have h7 : Reg.t7 ≠ 0#5 := by decide
  have h0 : Reg.s0 ≠ Reg.t7 := by decide
  have r1 := @runs_plain flash elsewhere s k _ _ (@At.line _ _ hc 0 _ rfl) rfl (by omega) hpc
  change Runs flash elsewhere s
    ⟨s.cpu.set Reg.t7 (s.cpu.reg Reg.zero + imm.signExtend 32), _, _⟩ at r1
  rw [hz, himm, BitVec.zero_add] at r1
  obtain ⟨t, ht⟩ := @loads_loadWord flash elsewhere
    ⟨s.cpu.set Reg.t7 (BitVec.ofNat 32 (2 * x)), addr (k + 1), s.ram⟩ _ x dst hd hx he rfl
    ((reg_set_of_ne h0).trans hs0) (@At.append k [_] _ hc) (by omega) (reg_set_self h7)
  exact ⟨t, r1.trans ht.runs, ht.pc, ht.ram, ht.value,
    fun r hr hr7 => (ht.other r hr hr7).trans (reg_set_of_ne hr7)⟩

end Macros

end Load

end Boot

end CacheCPU
