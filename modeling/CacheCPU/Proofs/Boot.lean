import CacheCPU.Lib.Patch
import CacheCPU.Proofs.Bootasm
import Mathlib.Order.CompletePartialOrder

/-!
# What the boot loader leaves in the RAM

`copy_sec` copies a segment word by word, the last one whole, and `next_sec` goes from one program
header to the next. It looks at the address and the size of a segment and at nothing else, so a
header of any type has its segment copied.
-/

namespace CacheCPU

namespace Boot

open Isa Ucore ByteMemory Patch

section Copy

variable {flash : BitVec 23 → BitVec 16} {elsewhere : BitVec 32 → BitVec 32} {s t : State} {k x : ℕ}

/-! ## The header of the file -/

/-- What the loops keep: the Flash, the program header, the number of those left and the entry. -/
structure Holds (s : State) (p n e : BitVec 32) : Prop where
  zero : s.cpu.reg Reg.zero = 0#32
  s0 : s.cpu.reg Reg.s0 = flashStart
  s1 : s.cpu.reg Reg.s1 = p
  s2 : s.cpu.reg Reg.s2 = n
  s3 : s.cpu.reg Reg.s3 = e

theorem Holds.of_eq {p n e : BitVec 32} (h : Holds s p n e)
    (he : ∀ r ∈ [Reg.zero, Reg.s0, Reg.s1, Reg.s2, Reg.s3], t.cpu.reg r = s.cpu.reg r) :
    Holds t p n e :=
  ⟨(he _ (by decide)).trans h.zero, (he _ (by decide)).trans h.s0, (he _ (by decide)).trans h.s1,
    (he _ (by decide)).trans h.s2, (he _ (by decide)).trans h.s3⟩

theorem Loads.holds {dst : BitVec 5} {v p n e : BitVec 32} (h : Loads flash elsewhere s t k dst v)
    (hh : Holds s p n e) (hd : dst ∈ [Reg.s4, Reg.s5, Reg.s6, Reg.t0]) : Holds t p n e := by
  refine hh.of_eq fun r hr => h.other r ?_ ?_
  · rintro rfl
    revert hd hr
    generalize r = q
    revert q
    decide
  · rintro rfl
    revert hr
    decide

/-- From the reset to the comparison of the magic number. -/
theorem runs_magic (hs : Starts s) : ∃ t, Runs flash elsewhere s t ∧ t.pc = addr 12 ∧
    t.ram = s.ram ∧ t.cpu.reg Reg.zero = 0#32 ∧ t.cpu.reg Reg.s0 = flashStart ∧
    t.cpu.reg Reg.t0 = elfMagic ∧ t.cpu.reg Reg.t1 = loadedWord flash elsewhere 0 := by
  have r0 := @runs_plain flash elsewhere s 0 _ _ rfl rfl (by decide) hs.pc
  have r1 := runs_step (by rfl) (by decide) rfl
    (@step_beq flash elsewhere ⟨s.cpu, addr 1, s.ram⟩ 1 _ _ _ rfl rfl)
  rw [if_pos rfl] at r1
  have r3 := @runs_plain flash elsewhere ⟨s.cpu, addr 3, s.ram⟩ 3 _ _ rfl rfl (by decide) rfl
  obtain ⟨u, hu⟩ := @loads_loadWordI flash elsewhere ⟨s.cpu.set Reg.s0 flashStart, addr 4, s.ram⟩ 4
    0 Reg.t1 (by decide) (by decide) rfl rfl rfl 0#16 (by decide) (by decide) hs.zero rfl
  have r10 := @runs_plain flash elsewhere u 10 _ _ rfl rfl (by decide) hu.pc
  have r11 := @runs_plain flash elsewhere ⟨u.cpu.set Reg.t0 0x464c0000#32, addr 11, u.ram⟩ 11 _ _
    rfl rfl (by decide) rfl
  have hor : 0x464c0000#32 ||| (elfMagic.extractLsb 15 0).zeroExtend 32 = elfMagic := by decide
  change Runs flash elsewhere _ ⟨(u.cpu.set Reg.t0 0x464c0000#32).set Reg.t0
    (0x464c0000#32 ||| (elfMagic.extractLsb 15 0).zeroExtend 32), addr 12, _⟩ at r11
  rw [hor] at r11
  exact ⟨_, ((((r0.trans r1).trans r3).trans hu.runs).trans r10).trans r11, rfl, hu.ram,
    (hu.other Reg.zero (by decide) (by decide)).trans hs.zero,
    hu.other Reg.s0 (by decide) (by decide), rfl, hu.value⟩

theorem runs_loadElf (hs : Starts s) (hmagic : loadedWord flash elsewhere 0 = elfMagic) :
    ∃ t, Runs flash elsewhere s t ∧ t.pc = addr 35 ∧ t.ram = s.ram ∧
      Holds t (loadedWord flash elsewhere 28) (loadedWord flash elsewhere 44 &&& 0xffff#32)
        (loadedWord flash elsewhere 24) := by
  obtain ⟨a, ra, hpc, hram, hz, h0, ht0, ht1⟩ := @runs_magic flash elsewhere s hs
  have r12 := runs_step (by rfl) (by decide) hpc (@step_beq flash elsewhere a 12 _ _ _ rfl hpc)
  rw [if_pos (ht0.trans (hmagic.symm.trans ht1.symm))] at r12
  obtain ⟨c, hc⟩ := @loads_loadWordI flash elsewhere ⟨a.cpu, addr 16, a.ram⟩ 16 28 Reg.s1
    (by decide) (by decide) rfl rfl h0 0x38#16 (by decide) (by decide) hz rfl
  have hcz : c.cpu.reg Reg.zero = 0#32 := (hc.other Reg.zero (by decide) (by decide)).trans hz
  have hc0 : c.cpu.reg Reg.s0 = flashStart := (hc.other Reg.s0 (by decide) (by decide)).trans h0
  obtain ⟨d, hd⟩ := @loads_loadWordI flash elsewhere c 22 44 Reg.s2 (by decide) (by decide) rfl
    hc.pc hc0 0x58#16 (by decide) (by decide) hcz rfl
  have r28 := @runs_plain flash elsewhere d 28 _ _ rfl rfl (by decide) hd.pc
  change Runs flash elsewhere d
    ⟨d.cpu.set Reg.s2 (d.cpu.reg Reg.s2 &&& 0xffff#32), addr 29, _⟩ at r28
  rw [hd.value] at r28
  have hdz : d.cpu.reg Reg.zero = 0#32 := (hd.other Reg.zero (by decide) (by decide)).trans hcz
  have hd0 : d.cpu.reg Reg.s0 = flashStart := (hd.other Reg.s0 (by decide) (by decide)).trans hc0
  obtain ⟨u, hu⟩ := @loads_loadWordI flash elsewhere
    ⟨d.cpu.set Reg.s2 (loadedWord flash elsewhere 44 &&& 0xffff#32), addr 29, d.ram⟩ 29 24 Reg.s3
    (by decide) (by decide) rfl rfl hd0 0x30#16 (by decide) (by decide) hdz rfl
  refine ⟨u, ((((ra.trans r12).trans hc.runs).trans hd.runs).trans r28).trans hu.runs, hu.pc,
    hu.ram.trans (hd.ram.trans (hc.ram.trans hram)), ?_, ?_, ?_, ?_, hu.value⟩
  · exact (hu.other Reg.zero (by decide) (by decide)).trans hdz
  · exact (hu.other Reg.s0 (by decide) (by decide)).trans hd0
  · exact (hu.other Reg.s1 (by decide) (by decide)).trans
      ((hd.other Reg.s1 (by decide) (by decide)).trans hc.value)
  · exact hu.other Reg.s2 (by decide) (by decide)

/-! ## Copying a segment -/

theorem direct_iff {a : BitVec 32} :
    direct a ↔ 0x80000000 ≤ a.toNat ∧ a.toNat < 0xc0000000 ∧ a.toNat % 4 = 0 := by
  have hlt := a.isLt
  simp only [direct, notUseMmu, Bool.or_eq_true, beq_iff_eq, extract_eq_iff]
  simp
  omega

theorem write_ram {a v : BitVec 32} (hd : direct a) (h : a.toNat % 2 ^ 29 < 2 ^ 23) :
    s.write a v = some (putWord s.ram (ramByte a) v) := by
  have h0 : a.extractLsb 28 23 = 0#6 := by
    rw [extract_eq_iff]
    simp
    omega
  rw [State.write, if_pos hd, if_pos h0]
  rfl

theorem ramByte_add (a : BitVec 32) (n : ℕ) :
    ramByte (a + BitVec.ofNat 32 n) = ramByte a + BitVec.ofNat 23 n := by
  apply BitVec.eq_of_toNat_eq
  simp only [ramByte, BitVec.extractLsb_toNat, BitVec.toNat_add, BitVec.toNat_ofNat]
  omega

variable (flash elsewhere) in
/-- Byte `i` of what is copied from the distance `x` on. -/
def copied (x i : ℕ) : BitVec 8 :=
  byteAt (BitVec.ofNat 2 i) (loadedWord flash elsewhere (x + 4 * (i / 4)))

theorem copied_add (x i : ℕ) :
    copied flash elsewhere (x + 4) i = copied flash elsewhere x (4 + i) := by
  have hl : BitVec.ofNat 2 (4 + i) = BitVec.ofNat 2 i := by
    apply BitVec.eq_of_toNat_eq
    simp only [BitVec.toNat_ofNat]
    omega
  have hx : x + 4 * ((4 + i) / 4) = x + 4 + 4 * (i / 4) := by omega
  rw [copied, copied, hl, hx]

/-- The next word is copied. -/
theorem copied_word (M : BitVec 23 → BitVec 8) (a : BitVec 23) {n : ℕ} (hn : 4 + n ≤ 2 ^ 23) :
    patch (putWord M a (loadedWord flash elsewhere x)) (a + 4#23) (copied flash elsewhere (x + 4)) n
      = patch M a (copied flash elsewhere x) (4 + n) := by
  have hfirst : ∀ i < 4, byteAt (BitVec.ofNat 2 i) (loadedWord flash elsewhere x) =
      copied flash elsewhere x i := by
    intro i hi
    rw [copied, Nat.div_eq_of_lt hi]
    rfl
  have hrest : copied flash elsewhere (x + 4) = fun i => copied flash elsewhere x (4 + i) :=
    funext (copied_add x)
  rw [putWord_eq_patch, patch_congr hfirst, hrest]
  exact patch_append hn

/-- A size up to the next word. -/
def rounded (n : ℕ) : ℕ := 4 * ((n + 3) / 4)

/-- The registers of `copy_sec`: the address, the number of bytes left and the distance in the
image. -/
structure Copies (s : State) (va : BitVec 32) (n x : ℕ) : Prop where
  s4 : s.cpu.reg Reg.s4 = va
  s5 : s.cpu.reg Reg.s5 = BitVec.ofNat 32 n
  s6 : s.cpu.reg Reg.s6 = BitVec.ofNat 32 x
  pos : 0 < n
  even : x % 2 = 0
  flash : x + n ≤ 2 ^ 23
  direct : direct va
  ram : va.toNat % 2 ^ 29 + rounded n ≤ 2 ^ 23

/-- One turn of the loop, up to the branch. -/
theorem runs_copyWord {p m e va : BitVec 32} {n : ℕ} (hpc : s.pc = addr 60) (hh : Holds s p m e)
    (hc : Copies s va n x) : ∃ t, Runs flash elsewhere s t ∧ t.pc = addr 71 ∧ Holds t p m e ∧
      t.ram = putWord s.ram (ramByte va) (loadedWord flash elsewhere x) ∧
      t.cpu.reg Reg.s4 = va + 4#32 ∧ t.cpu.reg Reg.s5 = BitVec.ofNat 32 n + 0xfffffffc#32 ∧
      t.cpu.reg Reg.s6 = BitVec.ofNat 32 (x + 4) := by
  have hr := hc.ram
  have hpos := hc.pos
  have hf := hc.flash
  unfold rounded at hr
  obtain ⟨a, ha⟩ := @loads_loadWordR flash elsewhere s 60 x Reg.t0 (by decide) (by omega) hc.even
    hpc hh.s0 Reg.s6 0#16 (by decide) (by decide) ((BitVec.add_zero _).trans hc.s6)
  have ha4 : a.cpu.reg Reg.s4 = va := (ha.other Reg.s4 (by decide) (by decide)).trans hc.s4
  have ha5 := (ha.other Reg.s5 (by decide) (by decide)).trans hc.s5
  have ha6 := (ha.other Reg.s6 (by decide) (by decide)).trans hc.s6
  have hah := ha.holds hh (by decide)
  have hw : a.write (a.cpu.reg Reg.s4 + (0#16).signExtend 32) (a.cpu.reg Reg.t0) =
      some (putWord a.ram (ramByte va) (loadedWord flash elsewhere x)) := by
    rw [ha4, ha.value, show va + (0#16).signExtend 32 = va from BitVec.add_zero va]
    exact write_ram hc.direct (by omega)
  have r67 := runs_step (by rfl) (by decide) ha.pc
    (@step_sw flash elsewhere a 67 _ _ _ _ rfl ha.pc hw)
  rw [ha.ram] at r67
  generalize putWord s.ram (ramByte va) (loadedWord flash elsewhere x) = ram at r67 ⊢
  have r68 := @runs_plain flash elsewhere ⟨a.cpu, addr 68, ram⟩ 68 _ _ rfl rfl (by decide) rfl
  have r69 := @runs_plain flash elsewhere
    ⟨a.cpu.set Reg.s6 (a.cpu.reg Reg.s6 + 4#32), addr 69, ram⟩ 69 _ _ rfl rfl (by decide) rfl
  have r70 := @runs_plain flash elsewhere ⟨(a.cpu.set Reg.s6 (a.cpu.reg Reg.s6 + 4#32)).set Reg.s4
    (a.cpu.reg Reg.s4 + 4#32), addr 70, ram⟩ 70 _ _ rfl rfl (by decide) rfl
  refine ⟨_, (((ha.runs.trans r67).trans r68).trans r69).trans r70, rfl, hah.of_eq ?_, rfl,
    ?_, ?_, ?_⟩
  · intro r hr
    simp only [List.mem_cons, List.not_mem_nil, or_false] at hr
    rcases hr with rfl | rfl | rfl | rfl | rfl <;> rfl
  · rw [← ha4]
    rfl
  · rw [← ha5]
    rfl
  · rw [BitVec.ofNat_add, ← ha6]
    rfl

theorem toInt_sub_pos {n c : ℕ} (hn : n < 2 ^ 31) (hc : 0 < c) (hc' : c < 2 ^ 31) :
    0 < (BitVec.ofNat 32 n + BitVec.ofNat 32 (2 ^ 32 - c)).toInt ↔ c < n := by
  rw [BitVec.toInt_eq_toNat_cond, BitVec.toNat_add, BitVec.toNat_ofNat, BitVec.toNat_ofNat]
  split_ifs <;> omega

theorem ofNat_sub {n c : ℕ} (hn : n < 2 ^ 32) (hc : c ≤ n) (h0 : 0 < c) :
    BitVec.ofNat 32 n + BitVec.ofNat 32 (2 ^ 32 - c) = BitVec.ofNat 32 (n - c) := by
  apply BitVec.eq_of_toNat_eq
  rw [BitVec.toNat_add, BitVec.toNat_ofNat, BitVec.toNat_ofNat, BitVec.toNat_ofNat]
  omega

/-- The whole of `copy_sec`. -/
theorem runs_copySec {p m e va : BitVec 32} {n : ℕ} (hpc : s.pc = addr 60) (hh : Holds s p m e)
    (hc : Copies s va n x) : ∃ t, Runs flash elsewhere s t ∧ t.pc = addr 73 ∧ Holds t p m e ∧
      t.ram = patch s.ram (ramByte va) (copied flash elsewhere x) (rounded n) := by
  induction hn : n using Nat.strong_induction_on generalizing s va x n with
  | _ n ih =>
    subst hn
    have hr := hc.ram
    have hpos := hc.pos
    have hf := hc.flash
    have hev := hc.even
    unfold rounded at hr ⊢
    obtain ⟨a, ra, hapc, hah, haram, ha4, ha5, ha6⟩ := @runs_copyWord flash elsewhere _ _ _ _ _ _ _
      hpc hh hc
    have r71 := runs_step (by rfl) (by decide) hapc (@step_bgtz flash elsewhere a 71 _ _ rfl hapc)
    have hmore : 0 < (BitVec.ofNat 32 n + 0xfffffffc#32).toInt ↔ 4 < n :=
      @toInt_sub_pos n 4 (by omega) (by decide) (by decide)
    rw [ha5, if_congr hmore rfl rfl] at r71
    by_cases hlast : 4 < n
    · -- the rest of the segment
      rw [if_pos hlast] at r71
      have hd := direct_iff.1 hc.direct
      have hva : (va + 4#32).toNat = va.toNat + 4 := by
        rw [BitVec.toNat_add]
        exact Nat.mod_eq_of_lt (by simp; omega)
      have hrest : Copies ⟨a.cpu, addr 60, a.ram⟩ (va + 4#32) (n - 4) (x + 4) :=
        ⟨ha4, ha5.trans (@ofNat_sub n 4 (by omega) (by omega) (by decide)), ha6, by omega, by omega,
          by omega, direct_iff.2 (by omega), by unfold rounded; omega⟩
      obtain ⟨t, rt, htpc, hth, htram⟩ := @ih (n - 4) (by omega) ⟨a.cpu, addr 60, a.ram⟩ (x + 4)
        (va + 4#32) (n - 4) rfl (hah.of_eq fun _ _ => rfl) hrest rfl
      refine ⟨t, (ra.trans r71).trans rt, htpc, hth, ?_⟩
      rw [htram]
      change patch a.ram _ _ (rounded (n - 4)) = _
      rw [haram, show ramByte (va + 4#32) = ramByte va + 4#23 from ramByte_add va 4,
        copied_word _ _ (by unfold rounded; omega)]
      congr 1
      unfold rounded
      omega
    · -- the last word
      rw [if_neg hlast] at r71
      have r72 := @runs_plain flash elsewhere ⟨a.cpu, addr 72, a.ram⟩ 72 _ _ rfl rfl (by decide) rfl
      refine ⟨_, (ra.trans r71).trans r72, rfl, hah.of_eq fun _ _ => rfl, ?_⟩
      have h := @copied_word flash elsewhere x s.ram (ramByte va) 0 (by decide)
      rw [patch_zero] at h
      change a.ram = _
      rw [haram, h]
      congr 1
      omega

end Copy

/-! ## The image

The ELF image that the Flash holds, by its bytes, and the fields of its headers; `k` is the number
of a program header. -/

namespace Elf

variable (flash : BitVec 23 → BitVec 16) (n k : ℕ)

def byte : BitVec 8 := (flash (BitVec.ofNat 23 (2 * (n / 2)))).extractLsb' (8 * (n % 2)) 8

def half : BitVec 16 := byte flash (n + 1) ++ byte flash n

def word : BitVec 32 := half flash (n + 2) ++ half flash n

def magic : BitVec 32 := word flash 0
def entry : BitVec 32 := word flash 24
def phoff : ℕ := (word flash 28).toNat
def phnum : ℕ := (half flash 44).toNat

/-- Where the program header is. -/
def phdr : ℕ := phoff flash + 32 * k

def pType : BitVec 32 := word flash (phdr flash k)
def pOffset : ℕ := (word flash (phdr flash k + 4)).toNat
def pVa : BitVec 32 := word flash (phdr flash k + 8)
def pFilesz : ℕ := (word flash (phdr flash k + 16)).toNat

/-- The bytes of the RAM that the segment takes, up to the next word. -/
def range : Set ℕ :=
  Set.Ico ((pVa flash k).toNat % 2 ^ 29) ((pVa flash k).toNat % 2 ^ 29 + rounded (pFilesz flash k))

instance (a : ℕ) : Decidable (a ∈ range flash k) := inferInstanceAs (Decidable (_ ∧ _))

/-- The loader looks at nothing else to decide whether it copies the segment. -/
def Copied : Prop := pVa flash k ≠ 0#32 ∧ pFilesz flash k ≠ 0

instance : Decidable (Copied flash k) := inferInstanceAs (Decidable (_ ∧ _))

/-- The segment is in the Flash, at an even place, and goes to whole words of the RAM. -/
structure Segment : Prop where
  even : pOffset flash k % 2 = 0
  inFlash : pOffset flash k + pFilesz flash k ≤ 2 ^ 23
  direct : direct (pVa flash k)
  ram : (pVa flash k).toNat % 2 ^ 29 + rounded (pFilesz flash k) ≤ 2 ^ 23

/-- The images that can be loaded. -/
structure Loadable : Prop where
  magic : magic flash = elfMagic
  phnum : 0 < phnum flash
  phoff : phoff flash % 2 = 0
  headers : Elf.phoff flash + 32 * Elf.phnum flash ≤ 2 ^ 23
  segment : ∀ k < Elf.phnum flash, Copied flash k → Segment flash k
  apart : ∀ j < Elf.phnum flash, ∀ k < Elf.phnum flash, j ≠ k → Copied flash j → Copied flash k →
    Disjoint (range flash j) (range flash k)

end Elf

section Image

variable {flash : BitVec 23 → BitVec 16} {elsewhere : BitVec 32 → BitVec 32} {s t : State} {k x : ℕ}

open Elf

theorem half_eq (he : x % 2 = 0) : Elf.half flash x = flash (BitVec.ofNat 23 x) := by
  have h0 : 2 * (x / 2) = x ∧ 2 * ((x + 1) / 2) = x ∧ x % 2 = 0 ∧ (x + 1) % 2 = 1 := by omega
  rw [Elf.half, byte, byte, h0.1, h0.2.1, h0.2.2.1, h0.2.2.2]
  generalize flash (BitVec.ofNat 23 x) = v
  ext i hi
  grind

/-- The macros load the words of the image. -/
theorem loadedWord_eq (he : x % 2 = 0) (hx : x + 4 ≤ 2 ^ 23) :
    loadedWord flash elsewhere x = Elf.word flash x := by
  rw [loadedWord, flashWord, flashWord, if_pos (by omega), if_pos (by omega), Elf.word, half_eq he,
    half_eq (by omega)]
  generalize flash (BitVec.ofNat 23 x) = v
  generalize flash (BitVec.ofNat 23 (x + 2)) = w
  ext i hi
  simp
  grind

theorem getLsbD_half (v : BitVec 16) (j : ℕ) : (0#16 ++ v).getLsbD j = v.getLsbD j := by
  rw [BitVec.getLsbD_append]
  split_ifs with h
  · rfl
  · rw [BitVec.getLsbD_zero, BitVec.getLsbD_of_ge v j (by omega)]

/-- The bytes of the segment itself, also of a last word that ends outside the Flash. -/
theorem copied_eq {i : ℕ} (he : x % 2 = 0) (hi : x + i < 2 ^ 23) :
    copied flash elsewhere x i = byte flash (x + i) := by
  have hlane : BitVec.ofNat 2 i = BitVec.ofNat 2 (i % 4) := by
    apply BitVec.eq_of_toNat_eq
    simp only [BitVec.toNat_ofNat]
    omega
  have hlow : flashWord flash elsewhere (x + 4 * (i / 4)) =
      0x0000#16 ++ flash (BitVec.ofNat 23 (x + 4 * (i / 4))) := if_pos (by omega)
  have hhigh : 2 ≤ i % 4 → flashWord flash elsewhere (x + 4 * (i / 4) + 2) =
      0x0000#16 ++ flash (BitVec.ofNat 23 (x + 4 * (i / 4) + 2)) := fun h => if_pos (by omega)
  have hi4 : i % 4 = 0 ∨ i % 4 = 1 ∨ i % 4 = 2 ∨ i % 4 = 3 := by omega
  rw [copied, loadedWord, hlane, hlow, byte]
  rcases hi4 with h | h | h | h
  · rw [h, show 2 * ((x + i) / 2) = x + 4 * (i / 4) by omega, show (x + i) % 2 = 0 by omega]
    generalize flash _ = v
    generalize flashWord flash elsewhere _ = w
    ext j hj
    simp [byteAt, getLsbD_half, (by omega : j < 16)]
  · rw [h, show 2 * ((x + i) / 2) = x + 4 * (i / 4) by omega, show (x + i) % 2 = 1 by omega]
    generalize flash _ = v
    generalize flashWord flash elsewhere _ = w
    ext j hj
    simp [byteAt, getLsbD_half, (by omega : 8 + j < 16)]
  · rw [hhigh (by omega), h, show 2 * ((x + i) / 2) = x + 4 * (i / 4) + 2 by omega,
      show (x + i) % 2 = 0 by omega]
    generalize flash (BitVec.ofNat 23 (x + 4 * (i / 4))) = v
    generalize flash (BitVec.ofNat 23 (x + 4 * (i / 4) + 2)) = w
    ext j hj
    simp [byteAt]
    rw [getLsbD_half, getLsbD_half, BitVec.getLsbD_of_ge v _ (by omega),
      decide_eq_true (by omega : 16 + j < 32), Bool.false_or, Bool.true_and]
  · rw [hhigh (by omega), h, show 2 * ((x + i) / 2) = x + 4 * (i / 4) + 2 by omega,
      show (x + i) % 2 = 1 by omega]
    generalize flash (BitVec.ofNat 23 (x + 4 * (i / 4))) = v
    generalize flash (BitVec.ofNat 23 (x + 4 * (i / 4) + 2)) = w
    ext j hj
    simp [byteAt]
    rw [getLsbD_half, getLsbD_half, BitVec.getLsbD_of_ge v _ (by omega),
      decide_eq_true (by omega : 24 + j < 32), decide_eq_false (by omega : ¬ 24 + j < 16),
      show 24 + j - 16 = 8 + j by omega]
    simp

/-! ## One program header after the other -/

variable (flash elsewhere) in
/-- The RAM after the first `k` program headers. -/
def loadedRam (M : BitVec 23 → BitVec 8) : ℕ → BitVec 23 → BitVec 8
  | 0 => M
  | k + 1 =>
    if Copied flash k then
      patch (loadedRam M k) (ramByte (pVa flash k)) (copied flash elsewhere (pOffset flash k))
        (rounded (pFilesz flash k))
    else loadedRam M k

/-- The loader stands before program header `k`. -/
structure AtHeader (flash : BitVec 23 → BitVec 16) (s : State) (k : ℕ) : Prop where
  pc : s.pc = addr 35
  holds : Holds s (BitVec.ofNat 32 (phdr flash k)) (BitVec.ofNat 32 (phnum flash - k)) (entry flash)

/-- The three fields of the header are loaded. -/
theorem runs_fields (hl : Loadable flash) (hk : k < phnum flash) (hs : AtHeader flash s k) :
    ∃ t, Runs flash elsewhere s t ∧ t.pc = addr 56 ∧ t.ram = s.ram ∧
      Holds t (BitVec.ofNat 32 (phdr flash k)) (BitVec.ofNat 32 (phnum flash - k)) (entry flash) ∧
      t.cpu.reg Reg.s4 = pVa flash k ∧ t.cpu.reg Reg.s5 = BitVec.ofNat 32 (pFilesz flash k) ∧
      t.cpu.reg Reg.s6 = BitVec.ofNat 32 (pOffset flash k) := by
  have hev := hl.phoff
  have hin := hl.headers
  have hphdr : phdr flash k = Elf.phoff flash + 32 * k := rfl
  have hnat : ∀ n, BitVec.ofNat 32 (Elf.word flash n).toNat = Elf.word flash n := fun n => by simp
  have hoff : ∀ {u : State} {off : BitVec 16} {d : ℕ}, off.signExtend 32 = BitVec.ofNat 32 d →
      u.cpu.reg Reg.s1 = BitVec.ofNat 32 (phdr flash k) →
      u.cpu.reg Reg.s1 + off.signExtend 32 = BitVec.ofNat 32 (phdr flash k + d) := by
    intro u off d hd hu
    rw [hu, hd, BitVec.ofNat_add]
  obtain ⟨a, ha⟩ := @loads_loadWordR flash elsewhere s 35 (phdr flash k + 8) Reg.s4 (by decide)
    (by omega) (by omega) hs.pc hs.holds.s0 Reg.s1 8#16 (by decide) (by decide)
    (hoff rfl hs.holds.s1)
  have hah := ha.holds hs.holds (by decide)
  obtain ⟨b, hb⟩ := @loads_loadWordR flash elsewhere a 42 (phdr flash k + 16) Reg.s5 (by decide)
    (by omega) (by omega) ha.pc hah.s0 Reg.s1 16#16 (by decide) (by decide) (hoff rfl hah.s1)
  have hbh := hb.holds hah (by decide)
  obtain ⟨c, hc⟩ := @loads_loadWordR flash elsewhere b 49 (phdr flash k + 4) Reg.s6 (by decide)
    (by omega) (by omega) hb.pc hbh.s0 Reg.s1 4#16 (by decide) (by decide) (hoff rfl hbh.s1)
  refine ⟨c, (ha.runs.trans hb.runs).trans hc.runs, hc.pc, hc.ram.trans (hb.ram.trans ha.ram),
    hc.holds hbh (by decide), ?_, ?_, ?_⟩
  · rw [hc.other Reg.s4 (by decide) (by decide), hb.other Reg.s4 (by decide) (by decide), ha.value]
    exact loadedWord_eq (by omega) (by omega)
  · rw [hc.other Reg.s5 (by decide) (by decide), hb.value, pFilesz, hnat]
    exact loadedWord_eq (by omega) (by omega)
  · rw [hc.value, pOffset, hnat]
    exact loadedWord_eq (by omega) (by omega)

/-- The segment is copied, or not. -/
theorem runs_segment (hl : Loadable flash) (hk : k < phnum flash) (hs : AtHeader flash s k)
    {M : BitVec 23 → BitVec 8} (hM : s.ram = loadedRam flash elsewhere M k) :
    ∃ t, Runs flash elsewhere s t ∧ t.pc = addr 73 ∧ t.ram = loadedRam flash elsewhere M (k + 1) ∧
      Holds t (BitVec.ofNat 32 (phdr flash k)) (BitVec.ofNat 32 (phnum flash - k))
        (entry flash) := by
  obtain ⟨a, ra, hapc, haram, hah, ha4, ha5, ha6⟩ := @runs_fields flash elsewhere s k hl hk hs
  have hz : pFilesz flash k < 2 ^ 32 := (Elf.word flash _).isLt
  have r56 := runs_step (by rfl) (by decide) hapc (@step_beq flash elsewhere a 56 _ _ _ rfl hapc)
  rw [ha4, hah.zero] at r56
  by_cases hva : pVa flash k = 0#32
  · rw [if_pos hva] at r56
    refine ⟨_, ra.trans r56, rfl, ?_, hah.of_eq fun _ _ => rfl⟩
    rw [loadedRam, if_neg fun hc => hc.1 hva, ← hM]
    exact haram
  · rw [if_neg hva] at r56
    have r57 := @runs_plain flash elsewhere ⟨a.cpu, addr 57, a.ram⟩ 57 _ _ rfl rfl (by decide) rfl
    have r58 := runs_step (by rfl) (by decide) rfl
      (@step_beq flash elsewhere ⟨a.cpu, addr 58, a.ram⟩ 58 _ _ _ rfl rfl)
    have hzero : a.cpu.reg Reg.s5 = a.cpu.reg Reg.zero ↔ pFilesz flash k = 0 := by
      rw [ha5, hah.zero, ← BitVec.toNat_inj, BitVec.toNat_ofNat, Nat.mod_eq_of_lt hz]
      rfl
    rw [if_congr hzero rfl rfl] at r58
    by_cases hn : pFilesz flash k = 0
    · rw [if_pos hn] at r58
      refine ⟨_, ((ra.trans r56).trans r57).trans r58, rfl, ?_, hah.of_eq fun _ _ => rfl⟩
      rw [loadedRam, if_neg fun hc => hc.2 hn, ← hM]
      exact haram
    · rw [if_neg hn] at r58
      have r59 := @runs_plain flash elsewhere ⟨a.cpu, addr 59, a.ram⟩ 59 _ _ rfl rfl (by decide) rfl
      have hseg := hl.segment k hk ⟨hva, hn⟩
      obtain ⟨t, rt, htpc, hth, htram⟩ := @runs_copySec flash elsewhere ⟨a.cpu, addr 60, a.ram⟩
        (pOffset flash k) _ _ _ (pVa flash k) (pFilesz flash k) rfl (hah.of_eq fun _ _ => rfl)
        ⟨ha4, ha5, ha6, by omega, hseg.even, hseg.inFlash, hseg.direct, hseg.ram⟩
      refine ⟨t, ((((ra.trans r56).trans r57).trans r58).trans r59).trans rt, htpc, ?_, hth⟩
      rw [htram, loadedRam, if_pos ⟨hva, hn⟩, ← hM, ← haram]

/-- One header, up to the branch. -/
theorem runs_header (hl : Loadable flash) (hk : k < phnum flash) (hs : AtHeader flash s k)
    {M : BitVec 23 → BitVec 8} (hM : s.ram = loadedRam flash elsewhere M k) :
    ∃ t, Runs flash elsewhere s t ∧ t.ram = loadedRam flash elsewhere M (k + 1) ∧
      Holds t (BitVec.ofNat 32 (phdr flash (k + 1))) (BitVec.ofNat 32 (phnum flash - (k + 1)))
        (entry flash) ∧
      t.pc = if k + 1 < phnum flash then addr 35 else addr 76 := by
  obtain ⟨a, ra, hapc, haram, hah⟩ := @runs_segment flash elsewhere s k hl hk hs M hM
  have hlt : phnum flash < 2 ^ 16 := (Elf.half flash 44).isLt
  have r73 := @runs_plain flash elsewhere a 73 _ _ rfl rfl (by decide) hapc
  have r74 := @runs_plain flash elsewhere
    ⟨a.cpu.set Reg.s1 (a.cpu.reg Reg.s1 + 32#32), addr 74, a.ram⟩ 74 _ _ rfl rfl (by decide) rfl
  set c := (a.cpu.set Reg.s1 (a.cpu.reg Reg.s1 + 32#32)).set Reg.s2
    (a.cpu.reg Reg.s2 + 0xffffffff#32) with hc
  have r75 := runs_step (by rfl) (by decide) rfl
    (@step_bgtz flash elsewhere ⟨c, addr 75, a.ram⟩ 75 _ _ rfl rfl)
  have hmore : 0 < (c.reg Reg.s2).toInt ↔ k + 1 < phnum flash := by
    have h := @toInt_sub_pos (phnum flash - k) 1 (by omega) (by decide) (by decide)
    rw [show c.reg Reg.s2 = BitVec.ofNat 32 (phnum flash - k) + BitVec.ofNat 32 (2 ^ 32 - 1) from
      congrArg (· + _) hah.s2, h]
    omega
  rw [if_congr hmore rfl rfl] at r75
  refine ⟨_, ((ra.trans r73).trans r74).trans r75, haram, ⟨hah.zero, hah.s0, ?_, ?_, hah.s3⟩, ?_⟩
  · rw [phdr, Nat.mul_succ, ← Nat.add_assoc, BitVec.ofNat_add]
    exact congrArg (· + 32#32) hah.s1
  · rw [← Nat.sub_sub, ← @ofNat_sub (phnum flash - k) 1 (by omega) (by omega) (by decide)]
    exact congrArg (· + _) hah.s2
  · rfl

theorem runs_headers (hl : Loadable flash) (hs : Starts s) (hk : k < phnum flash) :
    ∃ t, Runs flash elsewhere s t ∧ AtHeader flash t k ∧
      t.ram = loadedRam flash elsewhere s.ram k := by
  induction k with
  | zero =>
    obtain ⟨t, rt, hpc, hram, hh⟩ := @runs_loadElf flash elsewhere s hs
      ((loadedWord_eq rfl (by decide)).trans hl.magic)
    rw [loadedWord_eq rfl (by decide), loadedWord_eq rfl (by decide),
      loadedWord_eq rfl (by decide)] at hh
    have hnum : Elf.word flash 44 &&& 0xffff#32 = BitVec.ofNat 32 (phnum flash) := by
      rw [phnum, BitVec.ofNat_toNat, Elf.word]
      generalize Elf.half flash 44 = v
      generalize Elf.half flash (44 + 2) = w
      ext i hi
      have : (0xffff#32)[i] = decide (i < 16) := by
        revert i
        decide
      simp [this]
      grind
    refine ⟨t, rt, ⟨hpc, ?_⟩, hram⟩
    rw [hnum] at hh
    have hoff : BitVec.ofNat 32 (phdr flash 0) = Elf.word flash 28 := by
      simp [phdr, Elf.phoff]
    rwa [hoff]
  | succ k ih =>
    obtain ⟨a, ra, ha, haram⟩ := ih (by omega)
    obtain ⟨t, rt, htram, hth, htpc⟩ := @runs_header flash elsewhere a k hl (by omega) ha _ haram
    rw [if_pos hk] at htpc
    exact ⟨t, ra.trans rt, ⟨htpc, hth⟩, htram⟩

/-- The run of the loader. -/
theorem boots (hl : Loadable flash) (hs : Starts s) : ∃ t, Boots flash elsewhere s t ∧
    t.pc = entry flash ∧ t.ram = loadedRam flash elsewhere s.ram (phnum flash) := by
  have hpos := hl.phnum
  have hlast : phnum flash - 1 + 1 = phnum flash := by omega
  obtain ⟨a, ra, ha, haram⟩ := @runs_headers flash elsewhere s (phnum flash - 1) hl hs (by omega)
  obtain ⟨b, rb, hbram, hbh, hbpc⟩ := @runs_header flash elsewhere a (phnum flash - 1) hl (by omega)
    ha _ haram
  rw [if_neg (by omega)] at hbpc
  have r76 := @runs_plain flash elsewhere b 76 _ _ rfl rfl (by decide) hbpc
  have r77 := @step_jr flash elsewhere ⟨b.cpu, addr 77, b.ram⟩ 77 _ rfl rfl
  refine ⟨_, ⟨_, (ra.trans rb).trans r76, rfl, r77⟩, hbh.s3, ?_⟩
  rw [hlast] at hbram
  exact hbram

/-! ## The RAM -/

/-- The bytes of a stretch that does not go over the end of the RAM. -/
theorem sub_lt_iff {a d : BitVec 23} {n : ℕ} (h : d.toNat + n ≤ 2 ^ 23) :
    (a - d).toNat < n ↔ a.toNat ∈ Set.Ico d.toNat (d.toNat + n) := by
  have ha := a.isLt
  rw [BitVec.toNat_sub, Set.mem_Ico]
  omega

theorem Elf.Segment.toNat_ramByte (h : Segment flash k) (hn : pFilesz flash k ≠ 0) :
    (ramByte (pVa flash k)).toNat = (pVa flash k).toNat % 2 ^ 29 := by
  have hr := h.ram
  unfold rounded at hr
  rw [ramByte, BitVec.extractLsb_toNat]
  omega

theorem loadedRam_succ (hl : Loadable flash) (hk : k < phnum flash) (M : BitVec 23 → BitVec 8)
    (a : BitVec 23) : loadedRam flash elsewhere M (k + 1) a =
      if Copied flash k ∧ a.toNat ∈ range flash k then
        copied flash elsewhere (pOffset flash k) (a - ramByte (pVa flash k)).toNat
      else loadedRam flash elsewhere M k a := by
  by_cases hc : Copied flash k
  · have hseg := hl.segment k hk hc
    have hd := hseg.toNat_ramByte hc.2
    have hiff : (a - ramByte (pVa flash k)).toNat < rounded (pFilesz flash k) ↔
        a.toNat ∈ range flash k := by
      rw [sub_lt_iff (by rw [hd]; exact hseg.ram), hd]
      rfl
    rw [loadedRam, if_pos hc, patch, if_congr hiff rfl rfl, if_congr (and_iff_right hc) rfl rfl]
  · rw [loadedRam, if_neg hc, if_neg fun h => hc h.1]

/-- Nothing outside the segments. -/
theorem loadedRam_outside (hl : Loadable flash) (M : BitVec 23 → BitVec 8) {a : BitVec 23} {n : ℕ}
    (hn : n ≤ phnum flash) (ha : ∀ k < n, Copied flash k → a.toNat ∉ range flash k) :
    loadedRam flash elsewhere M n a = M a := by
  induction n with
  | zero => rfl
  | succ n ih =>
    rw [loadedRam_succ hl (by omega), if_neg fun h => ha n (by omega) h.1 h.2]
    exact ih (by omega) fun k hk => ha k (by omega)

/-- A segment stays as it has been copied. -/
theorem loadedRam_inside (hl : Loadable flash) (M : BitVec 23 → BitVec 8) {a : BitVec 23} {n : ℕ}
    (hn : n ≤ phnum flash) (hk : k < n) (hc : Copied flash k) (ha : a.toNat ∈ range flash k) :
    loadedRam flash elsewhere M n a =
      copied flash elsewhere (pOffset flash k) (a - ramByte (pVa flash k)).toNat := by
  induction n with
  | zero => omega
  | succ n ih =>
    rw [loadedRam_succ hl (by omega)]
    by_cases hkn : k = n
    · subst hkn
      rw [if_pos ⟨hc, ha⟩]
    · rw [if_neg]
      · exact ih (by omega) (by omega)
      · rintro ⟨hcn, han⟩
        exact Set.disjoint_left.1 (hl.apart k (by omega) n (by omega) hkn hc hcn) ha han

/-- The boot loader. From a reset it comes to its jump to the entry of the image, whatever the RAM
and the registers held. Each segment whose header has an address and a size is then in the RAM at
its address, whatever type the header gives it, and no byte outside these segments, taken up to the
next word, has changed. -/
theorem boots_loads (hl : Loadable flash) (hs : Starts s) :
    ∃ t, Boots flash elsewhere s t ∧ t.pc = entry flash ∧
      (∀ k < phnum flash, pVa flash k ≠ 0#32 → ∀ i < pFilesz flash k,
        t.ram (ramByte (pVa flash k) + BitVec.ofNat 23 i) = byte flash (pOffset flash k + i)) ∧
      ∀ a : BitVec 23, (∀ k < phnum flash, Copied flash k → a.toNat ∉ range flash k) →
        t.ram a = s.ram a := by
  obtain ⟨t, ht, hpc, hram⟩ := @boots flash elsewhere s hl hs
  refine ⟨t, ht, hpc, fun k hk hva i hi => ?_, fun a ha => ?_⟩
  · have hc : Copied flash k := ⟨hva, by omega⟩
    have hseg := hl.segment k hk hc
    have hfl := hseg.inFlash
    have hr := hseg.ram
    have hd := hseg.toNat_ramByte hc.2
    unfold rounded at hr
    have hdist : (ramByte (pVa flash k) + BitVec.ofNat 23 i - ramByte (pVa flash k)).toNat = i :=
      toNat_add_sub (by omega)
    rw [hram, loadedRam_inside hl _ le_rfl hk hc, hdist, copied_eq hseg.even (by omega)]
    rw [range, ← hd, ← sub_lt_iff (by rw [hd]; exact hseg.ram), hdist, rounded]
    omega
  · rw [hram, loadedRam_outside hl _ le_rfl ha]

/-! ## An image with a segment that is not to be loaded -/

theorem Boots.unique {u : State} (h : Boots flash elsewhere s t) (h' : Boots flash elsewhere s u) :
    t = u := by
  obtain ⟨a, ra, ha, hat⟩ := h
  obtain ⟨c, rc, hc, hcu⟩ := h'
  have hright : Relator.RightUnique (Next flash elsewhere) := fun x y z hy hz =>
    Option.some.inj (hy.2.symm.trans hz.2)
  have hstop : ∀ {x y : State}, x.pc = addr done → Runs flash elsewhere x y → x = y := by
    intro x y hx hr
    rcases hr.cases_head with rfl | ⟨z, hz, -⟩
    · rfl
    · exact absurd hx hz.1
  have hac : a = c := by
    rcases ra.total_of_right_unique hright rc with hr | hr
    · exact hstop ha hr
    · exact (hstop hc hr).symm
  subst hac
  exact Option.some.inj (hat.symm.trans hcu)

end Image

namespace Elf

/-- `ELF_PT_LOAD`. -/
def ptLoad : BitVec 32 := 1#32

/-- An executable with one instruction at `0x80000000`, and the register information of its object
file at `0x80001000`. -/
def regInfoWords : List (BitVec 16) := [
  0x457f#16, 0x464c#16, 0x0101#16, 0x0001#16, 0#16, 0#16, 0#16, 0#16,
  0x0002#16, 0x0008#16, 0x0001#16, 0#16, 0#16, 0x8000#16, 0x0034#16, 0#16,
  0#16, 0#16, 0#16, 0#16, 0x0034#16, 0x0020#16, 0x0002#16, 0#16, 0#16, 0#16,
  0x0001#16, 0#16, 0x0074#16, 0#16, 0#16, 0x8000#16, 0#16, 0x8000#16,
  0x0004#16, 0#16, 0x0004#16, 0#16, 0x0005#16, 0#16, 0x0004#16, 0#16,
  0#16, 0x7000#16, 0x0078#16, 0#16, 0x1000#16, 0x8000#16, 0x1000#16, 0x8000#16,
  0x0018#16, 0#16, 0x0018#16, 0#16, 0x0004#16, 0#16, 0x0004#16, 0#16,
  0#16, 0#16, 0x00f0#16, 0#16, 0#16, 0#16, 0#16, 0#16, 0#16, 0#16, 0#16, 0#16, 0#16, 0#16]

def regInfo (a : BitVec 23) : BitVec 16 := regInfoWords.getD (a.toNat / 2) 0xffff#16

theorem regInfo_phnum : phnum regInfo = 2 := by decide

theorem regInfo_fields : pVa regInfo 0 = 0x80000000#32 ∧ pVa regInfo 1 = 0x80001000#32 ∧
    pFilesz regInfo 0 = 4 ∧ pFilesz regInfo 1 = 24 ∧ pOffset regInfo 0 = 116 ∧
    pOffset regInfo 1 = 120 ∧ pType regInfo 0 = ptLoad ∧ pType regInfo 1 = 0x70000000#32 := by
  decide

theorem regInfo_range : range regInfo 0 = Set.Ico 0 4 ∧ range regInfo 1 = Set.Ico 4096 4120 := by
  obtain ⟨h0, h1, h2, h3, -⟩ := regInfo_fields
  rw [range, range, h0, h1, h2, h3]
  exact ⟨rfl, rfl⟩

theorem regInfo_cases {k : ℕ} (hk : k < phnum regInfo) : k = 0 ∨ k = 1 := by
  rw [regInfo_phnum] at hk
  omega

theorem regInfo_loadable : Loadable regInfo where
  magic := by decide
  phnum := by decide
  phoff := by decide
  headers := by decide
  segment k hk _ := by
    obtain ⟨h0, h1, h2, h3, h4, h5, -⟩ := regInfo_fields
    rcases regInfo_cases hk with rfl | rfl
    · exact ⟨by rw [h4], by rw [h2, h4]; decide, by rw [h0]; decide, by rw [h0, h2]; decide⟩
    · exact ⟨by rw [h5], by rw [h3, h5]; decide, by rw [h1]; decide, by rw [h1, h3]; decide⟩
  apart j hj k hk hne _ _ := by
    have hdisj : Disjoint (range regInfo 0) (range regInfo 1) := by
      rw [regInfo_range.1, regInfo_range.2, Set.disjoint_left]
      intro a ha hb
      rw [Set.mem_Ico] at ha hb
      omega
    rcases regInfo_cases hj with rfl | rfl <;> rcases regInfo_cases hk with rfl | rfl
    · exact absurd rfl hne
    · exact hdisj
    · exact hdisj.symm
    · exact absurd rfl hne

end Elf

open Elf

/-- A reset with everything zero. -/
def cleared : State := ⟨⟨fun _ => 0#32, 0#32, 0#32, fun _ => 0#32⟩, 0x90000000#32, fun _ => 0#8⟩

theorem boots_loads_regInfo : ∃ t, Boots regInfo (fun _ => 0#32) cleared t ∧
    t.pc = 0x80000000#32 ∧ t.ram 4096#23 = 0xf0#8 ∧ t.ram 4#23 = 0#8 := by
  obtain ⟨t, ht, hpc, hin, hout⟩ := @boots_loads regInfo (fun _ => 0#32) cleared regInfo_loadable
    ⟨rfl, rfl⟩
  obtain ⟨h0, h1, h2, h3, h4, h5, -⟩ := regInfo_fields
  refine ⟨t, ht, hpc.trans (by decide), ?_, hout 4#23 fun k hk _ => ?_⟩
  · have h := hin 1 (by rw [regInfo_phnum]; decide) (by rw [h1]; decide) 0 (by rw [h3]; decide)
    rw [h1, h5] at h
    exact h
  · rcases regInfo_cases hk with rfl | rfl
    · rw [regInfo_range.1]
      decide
    · rw [regInfo_range.2]
      decide

/-- The loader does not look at the type of a header, so bytes outside the segments of type
`PT_LOAD` change. -/
theorem not_only_ptLoad : ¬ ∀ (flash : BitVec 23 → BitVec 16) (elsewhere : BitVec 32 → BitVec 32)
    (s : State), Loadable flash →
      (∀ k < phnum flash, pVa flash k ≠ 0#32 ∧ pFilesz flash k < 2 ^ 31) → Starts s →
      ∃ t, Boots flash elsewhere s t ∧ t.pc = entry flash ∧
        (∀ k < phnum flash, pType flash k = ptLoad → ∀ i < pFilesz flash k,
          t.ram (ramByte (pVa flash k) + BitVec.ofNat 23 i) = byte flash (pOffset flash k + i)) ∧
        ∀ a : BitVec 23, (∀ k < phnum flash, pType flash k = ptLoad → a.toNat ∉ range flash k) →
          t.ram a = s.ram a := by
  intro h
  obtain ⟨h0, h1, h2, h3, h4, h5, -, h7⟩ := regInfo_fields
  obtain ⟨t, ht, -, -, hout⟩ := h regInfo (fun _ => 0#32) cleared regInfo_loadable (fun k hk => by
    rcases regInfo_cases hk with rfl | rfl
    · rw [h0, h2]
      decide
    · rw [h1, h3]
      decide) ⟨rfl, rfl⟩
  obtain ⟨u, hu, -, hram⟩ := @boots regInfo (fun _ => 0#32) cleared regInfo_loadable ⟨rfl, rfl⟩
  obtain rfl := ht.unique hu
  have hzero : t.ram 4096#23 = 0#8 := hout _ fun k hk hp => by
    rcases regInfo_cases hk with rfl | rfl
    · rw [regInfo_range.1]
      decide
    · rw [h7] at hp
      exact absurd hp (by decide)
  rw [hram, loadedRam_inside regInfo_loadable _ le_rfl (k := 1) (by rw [regInfo_phnum]; decide)
    ⟨by rw [h1]; decide, by rw [h3]; decide⟩ (by rw [regInfo_range.2]; decide), h1, h5,
    copied_eq (by decide) (by decide)] at hzero
  exact absurd hzero (by decide)

end Boot

end CacheCPU
