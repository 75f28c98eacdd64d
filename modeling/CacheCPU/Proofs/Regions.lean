import CacheCPU.Proofs.Access
import Mathlib.Data.List.ReduceOption

/-!
# Which device an access reaches

`mmu_module` gives every physical address a device address, and `phy_mem` takes the device from its
two highest bits. What has no device gets the device address `0xffffff`, and that is an index of
the ROM; so is every word of the window of 4 KB, of which `boot_rom` holds the first 84.
-/

namespace CacheCPU

/-! ## The places of the devices -/

/-- A place in one of the devices. -/
inductive Place
  | flash (addr : BitVec 22)
  | ram (addr : BitVec 21)
  | serial
  | rom (index : BitVec 22)
deriving DecidableEq

namespace PhyMem

variable {p : PhyMem} {i : PhyMemIn}

/-- The place whose access `phy_mem` begins at an edge. -/
def begins (p : PhyMem) (i : PhyMemIn) : Option Place :=
  let dev := i.addr.extractLsb 23 22
  if p.state ≠ 0 then none
  else if i.readEnable ∧ dev = 0b00#2 then some (.flash (i.addr.extractLsb 21 0))
  else if (i.writeEnable ∨ i.readEnable) ∧ dev = 0b01#2 then some (.ram (i.addr.extractLsb 20 0))
  else if (i.readEnable ∨ i.writeEnable) ∧ dev = 0b10#2 then some .serial
  else if i.readEnable ∧ dev = 0b11#2 then some (.rom (i.addr.extractLsb 21 0))
  else none

theorem serve_zero {rom : BitVec 22 → BitVec 32} {old : BitVec 8} (hs : p.state = 0) :
    p.serve rom i old = p.accept rom i old := by
  simp only [serve, hs]

/-- The index of a read of the ROM. -/
theorem serve_of_begins_rom (rom : BitVec 22 → BitVec 32) (old : BitVec 8) {k : BitVec 22}
    (h : p.begins i = some (.rom k)) : p.serve rom i old = { p with dataOut := rom k } := by
  have hs : p.state = 0 := by
    by_contra hn
    simp [begins, hn] at h
  rw [serve_zero hs]
  unfold begins at h
  unfold accept
  simp only [hs] at h ⊢
  split_ifs at h ⊢ <;> simp_all

end PhyMem

/-! ## The regions -/

/-- The physical addresses that have a device: Flash, RAM, the serial data register, and the words
that `boot_rom` holds. -/
inductive HasDevice (pa : BitVec 32) : Prop
  | flash : 0x1e000000 ≤ pa.toNat → pa.toNat < 0x1f000000 → HasDevice pa
  | ram : pa.toNat < 0x800000 → HasDevice pa
  | serial : pa = physicalSerialData → HasDevice pa
  | rom : 0x10000000 ≤ pa.toNat → pa.toNat < 0x10000000 + 4 * romSize → HasDevice pa

section Fields

variable (pa : BitVec 32)

theorem extract_flash : pa.extractLsb 31 24 = 0x1e#8 ↔
    0x1e000000 ≤ pa.toNat ∧ pa.toNat < 0x1f000000 := by
  rw [← BitVec.toNat_inj]
  simp only [BitVec.extractLsb_toNat, Nat.shiftRight_eq_div_pow, BitVec.toNat_ofNat]
  omega

theorem extract_ram : pa.extractLsb 31 23 = 0#9 ↔ pa.toNat < 0x800000 := by
  rw [← BitVec.toNat_inj]
  simp only [BitVec.extractLsb_toNat, Nat.shiftRight_eq_div_pow, BitVec.toNat_ofNat]
  omega

theorem extract_rom : pa.extractLsb 31 12 = 0x10000#20 ↔
    0x10000000 ≤ pa.toNat ∧ pa.toNat < 0x10001000 := by
  rw [← BitVec.toNat_inj]
  simp only [BitVec.extractLsb_toNat, Nat.shiftRight_eq_div_pow, BitVec.toNat_ofNat]
  omega

end Fields

variable {pa : BitVec 32}

/-- The device bits of a concatenation. -/
theorem device_append (c : BitVec 2) (v : BitVec 22) :
    (c ++ v : BitVec 24).extractLsb 23 22 = c ∧ (c ++ v : BitVec 24).extractLsb 21 0 = v := by
  constructor
  · ext i hi
    grind
  · ext i hi
    grind

theorem device_ram (v : BitVec 21) : (0b010#3 ++ v : BitVec 24).extractLsb 23 22 = 0b01#2 ∧
    (0b010#3 ++ v : BitVec 24).extractLsb 20 0 = v := by
  constructor
  · have hhigh : ∀ c : BitVec 3, (c ++ v : BitVec 24).extractLsb 23 22 = c.extractLsb 2 1 := by
      intro c
      ext i hi
      grind
    exact hhigh _
  · ext i hi
    grind

/-- The place of a physical address, whether or not the device holds it. -/
def placeOf (pa : BitVec 32) : Place :=
  if pa.extractLsb 31 24 = 0x1e#8 then .flash (pa.extractLsb 23 2)
  else if pa.extractLsb 31 23 = 0#9 then .ram (pa.extractLsb 22 2)
  else if pa = physicalSerialData then .serial
  else if pa.extractLsb 31 12 = 0x10000#20 then .rom (0x000#12 ++ pa.extractLsb 11 2)
  else .rom 0x3fffff#22

/-- Every place can be read, and those of the RAM and the serial port written. -/
def Place.takes (read write : Bool) : Place → Bool
  | .flash _ | .rom _ => read
  | .ram _ | .serial => read || write

/-- A request is for the place of its address. -/
theorem begins_eq {p : PhyMem} {i : PhyMemIn} (hs : p.state = 0)
    (ha : i.addr = toPhysicalAddrReg pa) : p.begins i =
      if (placeOf pa).takes i.readEnable i.writeEnable then some (placeOf pa) else none := by
  unfold PhyMem.begins
  rw [ha, hs]
  unfold toPhysicalAddrReg placeOf
  by_cases h1 : pa.extractLsb 31 24 = 0x1e#8
  · simp [h1, device_append, Place.takes]
  by_cases h2 : pa.extractLsb 31 23 = 0#9
  · simp [h1, h2, device_ram, Place.takes, or_comm]
  by_cases h3 : pa = physicalSerialData
  · have hserial : (0b1000#4 ++ 0x00000#20 : BitVec 24).extractLsb 23 22 = 0b10#2 := by decide
    simp only [if_neg h1, if_neg h2, if_pos h3, hserial]
    simp [Place.takes]
  by_cases h4 : pa.extractLsb 31 12 = 0x10000#20
  · have hrom : (0b11#2 ++ 0x000#12 ++ pa.extractLsb 11 2 : BitVec 24).extractLsb 23 22 = 0b11#2 ∧
        (0b11#2 ++ 0x000#12 ++ pa.extractLsb 11 2 : BitVec 24).extractLsb 21 0 =
          0x000#12 ++ pa.extractLsb 11 2 := by
      rw [BitVec.append_assoc]
      exact device_append _ _
    simp only [if_neg h1, if_neg h2, if_neg h3, if_pos h4, hrom]
    simp [Place.takes]
    rfl
  · have hnone : (0xffffff#24).extractLsb 23 22 = 0b11#2 ∧
        (0xffffff#24).extractLsb 21 0 = 0x3fffff#22 := by decide
    simp [h1, h2, h3, h4, hnone, Place.takes]

/-- The address has a device exactly if its place is none of the ROM beyond `boot_rom`. -/
theorem hasDevice_iff : HasDevice pa ↔ ∀ k, placeOf pa = .rom k → k.toNat < romSize := by
  unfold placeOf
  by_cases h1 : pa.extractLsb 31 24 = 0x1e#8
  · simp only [if_pos h1]
    have h := (extract_flash pa).1 h1
    exact iff_of_true (.flash h.1 h.2) fun _ hk => nomatch hk
  by_cases h2 : pa.extractLsb 31 23 = 0#9
  · simp only [if_neg h1, if_pos h2]
    exact iff_of_true (.ram ((extract_ram pa).1 h2)) fun _ hk => nomatch hk
  by_cases h3 : pa = physicalSerialData
  · simp only [if_neg h1, if_neg h2, if_pos h3]
    exact iff_of_true (.serial h3) fun _ hk => nomatch hk
  -- what is left has a device only in the ROM
  have hrom : HasDevice pa ↔ 0x10000000 ≤ pa.toNat ∧ pa.toNat < 0x10000000 + 4 * romSize := by
    refine ⟨fun h => ?_, fun h => .rom h.1 h.2⟩
    rcases h with ⟨ha, hb⟩ | ha | ha | ⟨ha, hb⟩
    · exact absurd ((extract_flash pa).2 ⟨ha, hb⟩) h1
    · exact absurd ((extract_ram pa).2 ha) h2
    · exact absurd ha h3
    · exact ⟨ha, hb⟩
  rw [hrom]
  simp only [if_neg h1, if_neg h2, if_neg h3]
  by_cases h4 : pa.extractLsb 31 12 = 0x10000#20
  · have hwin := (extract_rom pa).1 h4
    have hindex : (0x000#12 ++ pa.extractLsb 11 2 : BitVec 22).toNat =
        (pa.toNat - 0x10000000) / 4 := by
      simp only [BitVec.toNat_append, BitVec.extractLsb_toNat, Nat.shiftRight_eq_div_pow]
      simp
      omega
    simp only [if_pos h4, Place.rom.injEq, forall_eq', hindex]
    have : romSize = 84 := rfl
    omega
  · simp only [if_neg h4, Place.rom.injEq, forall_eq']
    have hout : ¬ (0x10000000 ≤ pa.toNat ∧ pa.toNat < 0x10001000) := mt (extract_rom pa).2 h4
    have hlast : (0x3fffff#22).toNat = 4194303 := by decide
    have : romSize = 84 := rfl
    omega

/-! ## One access -/

namespace Board

open Physical

variable (I : Image) (b : Board)

/-- What the access that begins at `b` begins at the devices. Its request stands from the falling
edge of its first cycle to that of the next, for four edges of the fast clock. -/
def begun (x y : Exts) : List Place :=
  let c := b.cycle I x
  let p₃ := (b.phys2 I x).tick I x.e2 (b.cpu.rise b.phys.out).mmu
  let p₄ := c.phys.tick I y.e0 c.cpu.mmu
  let p₅ := c.phys2 I y
  [p₃.phy.begins (p₃.phyMemIn x.e3 c.cpu.mmu),
    c.phys.phy.begins (c.phys.phyMemIn y.e0 c.cpu.mmu),
    p₄.phy.begins (p₄.phyMemIn y.e1 (c.cpu.rise c.phys.out).mmu),
    p₅.phy.begins (p₅.phyMemIn y.e2 (c.cpu.rise c.phys.out).mmu)].reduceOption

/-- The physical address of the access. -/
def physical : BitVec 32 := physicalAddr b.cpu.mmu.tlbMem b.machine.access

/-- The access keeps to the devices: it reads no index of the ROM that is none of `boot_rom`, and
begins nothing if its address has no device. -/
def KeepsBounds : Prop :=
  ∀ x y, (∀ k, .rom k ∈ b.begun I x y → k.toNat < romSize) ∧
    (¬ HasDevice b.physical → b.begun I x y = [])

/-- The access is a read that is sent, from an address that has no device. -/
def ReadsAstray : Prop :=
  b.machine.reads = true ∧ b.machine.passes = true ∧ b.machine.access ≠ virtualSerialStatus ∧
    ¬ HasDevice b.physical

variable {I b}

section Requests

variable (hr : Reachable I b) (ha : b.machine.Accesses)
include hr ha

/-- The request lines while the request stands. -/
theorem stands (x : Exts) :
    (b.cycle I x).cpu.mmu.toPhysicalReadEnable =
        (!(b.machine.access == virtualSerialStatus) && b.machine.passes && b.machine.reads) ∧
      (b.cycle I x).cpu.mmu.toPhysicalWriteEnable =
        (!(b.machine.access == virtualSerialStatus) && b.machine.passes && b.machine.writes) ∧
      (b.cycle I x).cpu.mmu.toPhysicalAddr = toPhysicalAddrReg b.physical := by
  obtain ⟨hinv, hrm⟩ := hr.inv
  have hq : (b.phys2 I x).out.ready = true := by
    have hs := (idle_cycle (I := I) hinv (hinv.ready_iff.1 ha.1) x).1
    have hbusy : (b.phys2 I x).phy.busy = ((b.phys2 I x).phy.state != 0) := rfl
    simp [out, hbusy, hs]
  exact Machine.enables_enter (a := (b.cycle I x).machine) hrm.control ha rfl hq

/-- What is begun is the place of the address, and the request is one that it takes. -/
theorem eq_place_of_begun (x y : Exts) {t : Place} (ht : t ∈ b.begun I x y) :
    t = placeOf b.physical ∧ t.takes
      (!(b.machine.access == virtualSerialStatus) && b.machine.passes && b.machine.reads)
      (!(b.machine.access == virtualSerialStatus) && b.machine.passes && b.machine.writes) := by
  obtain ⟨hread, hwrite, haddr⟩ := stands hr ha x
  rw [← hread, ← hwrite]
  have hone : ∀ {p : PhyMem} {i : PhyMemIn}, i.addr = (b.cycle I x).cpu.mmu.toPhysicalAddr →
      i.readEnable = (b.cycle I x).cpu.mmu.toPhysicalReadEnable →
      i.writeEnable = (b.cycle I x).cpu.mmu.toPhysicalWriteEnable → p.begins i = some t →
      t = placeOf b.physical ∧ t.takes (b.cycle I x).cpu.mmu.toPhysicalReadEnable
        (b.cycle I x).cpu.mmu.toPhysicalWriteEnable := by
    intro p i hi hir hiw hb
    have hs : p.state = 0 := by
      by_contra hn
      simp [PhyMem.begins, hn] at hb
    rw [begins_eq hs (hi.trans haddr), hir, hiw] at hb
    split_ifs at hb with htakes
    cases hb
    exact ⟨rfl, htakes⟩
  -- the lines do not change at the rising edge
  simp only [begun, List.reduceOption_mem_iff, List.mem_cons, List.not_mem_nil, or_false] at ht
  rcases ht with ht | ht | ht | ht
  · exact hone rfl rfl rfl ht.symm
  · exact hone rfl rfl rfl ht.symm
  · exact hone rfl rfl rfl ht.symm
  · exact hone rfl rfl rfl ht.symm

/-- A read that is sent begins at once. -/
theorem begun_of_read (hread : b.machine.reads = true) (hp : b.machine.passes = true)
    (hs : b.machine.access ≠ virtualSerialStatus) (x y : Exts) :
    placeOf b.physical ∈ b.begun I x y := by
  obtain ⟨hinv, -⟩ := hr.inv
  obtain ⟨hr, -, haddr⟩ := stands hr ha x
  have hidle := (idle_cycle (I := I) hinv (hinv.ready_iff.1 ha.1) x).2
  have htrue : (b.cycle I x).cpu.mmu.toPhysicalReadEnable = true := by
    rw [hr, beq_eq_false_iff_ne.2 hs, hp, hread]
    rfl
  simp only [begun, List.reduceOption_mem_iff, List.mem_cons]
  left
  rw [begins_eq hidle haddr]
  have htakes : ∀ w, (placeOf b.physical).takes true w = true := by
    intro w
    cases placeOf b.physical <;> rfl
  simp only [phyMemIn, htrue, htakes, if_true]

/-- An access keeps to the devices if and only if it does not read where there is none. -/
theorem keepsBounds_iff : b.KeepsBounds I ↔ ¬ b.ReadsAstray := by
  constructor
  · rintro h ⟨hread, hp, hs, hno⟩
    have hbegun := begun_of_read hr ha hread hp hs still still
    rw [(h still still).2 hno] at hbegun
    cases hbegun
  · intro h x y
    -- a place that only reads take is not begun where there is no device
    have hdev : ∀ t ∈ b.begun I x y, HasDevice b.physical := by
      intro t ht
      obtain ⟨rfl, htakes⟩ := eq_place_of_begun hr ha x y ht
      by_contra hno
      have hrom := mt hasDevice_iff.2 hno
      push Not at hrom
      obtain ⟨k, hk, -⟩ := hrom
      rw [hk] at htakes
      simp only [Place.takes, Bool.and_eq_true, Bool.not_eq_true', beq_eq_false_iff_ne] at htakes
      exact h ⟨htakes.2, htakes.1.2, htakes.1.1, hno⟩
    refine ⟨fun k hk => ?_, fun hno => List.eq_nil_iff_forall_not_mem.2 fun t ht => hno (hdev t ht)⟩
    exact hasDevice_iff.1 (hdev _ hk) k (eq_place_of_begun hr ha x y hk).1.symm

end Requests

/-- `lui r1, hi` and `lw r2, 0(r1)`. -/
def loadsFrom (hi : BitVec 16) : Image := romOf [0x3c01#16 ++ hi, 0x8c220000#32]

/-- A load from the RAM. -/
theorem keepsBounds_ram : (atReset.run (loadsFrom 0x8000#16) 7).machine.state = .mem1 ∧
    (atReset.run (loadsFrom 0x8000#16) 7).physical = 0#32 ∧
    (atReset.run (loadsFrom 0x8000#16) 7).KeepsBounds (loadsFrom 0x8000#16) := by
  have hpa : (atReset.run (loadsFrom 0x8000#16) 7).physical = 0#32 := by decide +kernel
  refine ⟨by decide +kernel, hpa, (keepsBounds_iff ((atReset_reachable _).run 7) ⟨by decide +kernel,
    by decide +kernel⟩).2 fun h => h.2.2.2 ?_⟩
  rw [hpa]
  exact .ram (by decide)

/-- A load from the first address above the RAM reads the ROM at its index `0x3fffff`. -/
theorem not_keepsBounds_above : ∃ I b, Reachable I b ∧ b.machine.Accesses ∧
    b.machine.fault = none ∧ b.physical = 0x00800000#32 ∧ ¬ HasDevice b.physical ∧
    (∀ x y, .rom 0x3fffff#22 ∈ b.begun I x y) ∧ ¬ b.KeepsBounds I := by
  have hr : Reachable (loadsFrom 0x8080#16) (atReset.run (loadsFrom 0x8080#16) 7) :=
    (atReset_reachable _).run 7
  have ha : (atReset.run (loadsFrom 0x8080#16) 7).machine.Accesses :=
    ⟨by decide +kernel, by decide +kernel⟩
  have hpa : (atReset.run (loadsFrom 0x8080#16) 7).physical = 0x00800000#32 := by decide +kernel
  have hplace : placeOf 0x00800000#32 = .rom 0x3fffff#22 := by decide
  have hno : ¬ HasDevice (atReset.run (loadsFrom 0x8080#16) 7).physical := by
    rw [hpa, hasDevice_iff, hplace]
    exact fun h => absurd (h _ rfl) (by decide)
  have hbegun : ∀ x y, .rom 0x3fffff#22 ∈
      (atReset.run (loadsFrom 0x8080#16) 7).begun (loadsFrom 0x8080#16) x y := by
    intro x y
    have h := begun_of_read hr ha (by decide +kernel) (by decide +kernel) (by decide +kernel) x y
    rwa [hpa, hplace] at h
  refine ⟨_, _, hr, ha, by decide +kernel, hpa, hno, hbegun, fun h => ?_⟩
  have hb := hbegun still still
  rw [(h still still).2 hno] at hb
  cases hb

end Board

end CacheCPU
