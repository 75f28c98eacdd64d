import CacheCPU.Lib.Patch
import CacheCPU.Proofs.CopyMm
import CacheCPU.Proofs.MmMap
import CacheCPU.Ucore.Exec

/-!
# Loading a program

The loop of `load_icode` over the program headers. Each segment is filled from its first byte on,
page after page, in four parts that each compute anew where they are; after each part the bytes so
far are right and the pages up to there have been allocated, each once.
-/

namespace CacheCPU

namespace Ucore

open ByteMemory Patch

/-! ## Bytes of a page -/

namespace Pmm

variable (s : Pmm) {p o : ℕ}

theorem storeFrame_storeFrame (c c' : BitVec 10 → BitVec 32) :
    (s.storeFrame p c).storeFrame p c' = s.storeFrame p c' := by
  simp [storeFrame]

theorem setByte_eq (b : BitVec 8) (ho : o < 4096) :
    ∃ c, s.setByte (p * 4096 + o) b = s.storeFrame p c ∧
      bytes c = Function.update (bytes (s.mem p)) (BitVec.ofNat 12 o) b := by
  have ha : BitVec.ofNat 12 (p * 4096 + o) = BitVec.ofNat 12 o := by
    apply BitVec.eq_of_toNat_eq
    simp only [BitVec.toNat_ofNat]
    omega
  have hp : (p * 4096 + o) / 4096 = p := by omega
  refine ⟨Function.update (s.mem p) (index (BitVec.ofNat 12 o))
    (setByteAt (lane (BitVec.ofNat 12 o)) (s.mem p (index (BitVec.ofNat 12 o))) b), ?_, ?_⟩
  · simp only [setByte, hp, ha]
    rfl
  · exact bytes_putByte fun l => byteAt_setByteAt _ _ _ _

/-- What is stored within a page is a stretch of its bytes. -/
theorem setBytes_eq (f : ℕ → BitVec 8) {n : ℕ} (h : o + n ≤ 4096) :
    ∃ c, s.setBytes (p * 4096 + o) f n = s.storeFrame p c ∧
      bytes c = patch (bytes (s.mem p)) (BitVec.ofNat 12 o) f n := by
  induction n generalizing s o f with
  | zero => exact ⟨s.mem p, by simp [setBytes, storeFrame], by rw [patch_zero]⟩
  | succ n ih =>
    obtain ⟨c₁, he₁, hb₁⟩ := s.setByte_eq (p := p) (f 0) (show o < 4096 by omega)
    obtain ⟨c₂, he₂, hb₂⟩ := ih (s.storeFrame p c₁) (fun i => f (i + 1))
      (show o + 1 + n ≤ 4096 by omega)
    refine ⟨c₂, ?_, ?_⟩
    · rw [setBytes, he₁, Nat.add_assoc, he₂, storeFrame_storeFrame]
    · have hmem : (s.storeFrame p c₁).mem p = c₁ := Function.update_self _ _ _
      rw [hb₂, hmem, hb₁, BitVec.ofNat_add]
      exact patch_update (by omega)

theorem setBytes_area (pa : ℕ) (f : ℕ → BitVec 8) (n : ℕ) : (s.setBytes pa f n).area = s.area := by
  induction n generalizing s pa f with
  | zero => rfl
  | succ n ih => exact ih _ _ _

end Pmm

/-! ## The address space -/

/-- The entry for a byte of user memory. -/
def slotOf (d x : ℕ) : Slot := (d, pdx (BitVec.ofNat 32 x), ptx (BitVec.ofNat 32 x))

theorem slotOf_inj {d x y : ℕ} (hx : x < 2 ^ 32) (hy : y < 2 ^ 32) :
    slotOf d x = slotOf d y ↔ x / 4096 = y / 4096 := by
  have hX : (BitVec.ofNat 32 x).toNat = x := by rw [BitVec.toNat_ofNat, Nat.mod_eq_of_lt hx]
  have hY : (BitVec.ofNat 32 y).toNat = y := by rw [BitVec.toNat_ofNat, Nat.mod_eq_of_lt hy]
  simp only [slotOf, Prod.mk.injEq, true_and, ← BitVec.toNat_inj, pdx_toNat, ptx_toNat, hX, hY]
  omega

/-- A byte of the user memory of a directory. -/
def userByte (s : Pmm) (dirs : Finset ℕ) (d x : ℕ) : Option (BitVec 8) :=
  (mapped s dirs (slotOf d x)).map fun p => bytes (s.mem p) (BitVec.ofNat 12 x)

/-- The pages that the directory `d` maps are its own: no table, and mapped nowhere else. -/
structure Space (g : ℕ → Bool) (managed : ℕ → Prop) (dirs : Finset ℕ) (d : ℕ) (s : Pmm)
    (live : ℕ → Prop) : Prop where
  good : Good g managed s dirs live
  dir : d ∈ dirs
  noTable : ∀ l p, l.1 = d → mapped s dirs l = some p → ∀ e, tableOf s dirs e ≠ some p
  alone : ∀ l l' p, l.1 = d → mapped s dirs l = some p → mapped s dirs l' = some p → l' = l

section Space

variable {g : ℕ → Bool} {managed live : ℕ → Prop} {dirs : Finset ℕ} {d p : ℕ} {s s' : Pmm}

/-- At most the page and a page table for it are taken. -/
theorem Space.alloc (h : Space g managed dirs d s live) {la perm : BitVec 32}
    (hla : pdx la ≠ vptx) (hperm : perm >>> 12 = 0#32) :
    (s.pgdirAllocPage d la perm = .error .noMem ∧ s.area.nrFree < 2) ∨
      ∃ s' p live', s.pgdirAllocPage d la perm = .ok (s', p) ∧ Space g managed dirs d s' live' ∧
        s.area.nrFree ≤ s'.area.nrFree + 2 ∧
        mapped s' dirs = Function.update (mapped s dirs) (d, pdx la, ptx la) (some p) ∧
        ∀ l q, l.1 = d → mapped s dirs l = some q → s'.mem q = s.mem q := by
  rcases h.good.heap.allocPage with ⟨he, hall⟩ | ⟨a, p, he, -, hnl, -⟩
  · have hle := h.good.heap.nrFree_le Set.finite_empty fun q hq => .inl (hall q hq)
    rw [Set.ncard_empty] at hle
    exact .inl ⟨by rw [Pmm.pgdirAllocPage, he]; rfl, by omega⟩
  have hrest : s.pgdirAllocPage d la perm = (do
      let s ← { s with area := a }.pageInsert d p la perm
      return (s, p)) := by
    rw [Pmm.pgdirAllocPage, he]
    rfl
  have h₁ := h.good.newPage he
  have hpd : p ∉ dirs := fun hd => hnl (h.good.core.dirLive p hd)
  rcases h₁.pageInsert h.dir hla (.inl rfl) hpd hperm with
    ⟨he', -, hall⟩ | ⟨s', live', he', heff, -⟩
  · have hle := h.good.heap.nrFree_le (Set.finite_singleton p) fun q hq => (hall q hq).symm
    rw [Set.ncard_singleton] at hle
    exact .inl ⟨by rw [hrest, he']; rfl, by omega⟩
  have hroom : s.area.nrFree ≤ s'.area.nrFree + 2 := by
    let table := (tableOf s' dirs (d, pdx la)).getD 0
    refine (h.good.heap.nrFree_le_add heff.good.heap (W := {p, table}) (Set.toFinite _)
      fun q hq => ?_).trans (Nat.add_le_add_left ?_ _)
    · rcases heff.taken q hq with (rfl | hq) | ⟨-, ht⟩
      · exact .inr (.inl rfl)
      · exact .inl hq
      · exact .inr (.inr (by rw [Set.mem_singleton_iff]; simp only [table, ht, Option.getD_some]))
    · exact (Set.ncard_insert_le _ _).trans (by rw [Set.ncard_singleton])
  have hw := pteFrame_entry (h₁.heap.lt_two_pow (.inl rfl)) hperm
  have hmap : mapped s' dirs =
      Function.update (mapped s dirs) (d, pdx la, ptx la) (some p) := by
    funext l
    rw [mapped, heff.entry]
    by_cases hl : l = (d, pdx la, ptx la)
    · rw [hl, Function.update_self, Function.update_self, hw]
    · rw [Function.update_of_ne hl, Function.update_of_ne hl]
      rfl
  -- the new page is no table, and nothing maps it yet
  have hnew : ∀ e, tableOf s' dirs e ≠ some p := fun e ht =>
    hnl (h.good.core.tableLive (heff.keeps.noTable e p (.inl rfl) ht)).1
  have hunmapped : ∀ l, mapped s dirs l ≠ some p := fun l hl => hnl (h.good.maps l p hl).1
  refine .inr ⟨s', p, live', ?_, ⟨heff.good, h.dir, ?_, ?_⟩, hroom, hmap, ?_⟩
  · rw [hrest, he']
    rfl
  · intro l q hl hq e ht
    rw [hmap] at hq
    by_cases hlp : l = (d, pdx la, ptx la)
    · rw [hlp, Function.update_self] at hq
      exact hnew e (Option.some.inj hq ▸ ht)
    · rw [Function.update_of_ne hlp] at hq
      exact h.noTable l q hl hq e
        (heff.keeps.noTable e q (.inr (h.good.maps l q hq).1) ht)
  · intro l l' q hl hq hq'
    rw [hmap] at hq hq'
    by_cases hlp : l = (d, pdx la, ptx la)
    · rw [hlp, Function.update_self] at hq
      cases hq
      by_contra hne
      rw [Function.update_of_ne (hlp ▸ hne)] at hq'
      exact hunmapped l' hq'
    · rw [Function.update_of_ne hlp] at hq
      by_cases hlp' : l' = (d, pdx la, ptx la)
      · rw [hlp', Function.update_self] at hq'
        cases hq'
        exact absurd hq (hunmapped l)
      · rw [Function.update_of_ne hlp'] at hq'
        exact h.alone l l' q hl hq hq'
  · intro l q hl hq
    obtain ⟨hlive, hnd⟩ := h.good.maps l q hq
    refine heff.keeps.mem q (.inr hlive) ?_
    rintro (rfl | ht)
    · exact hnd h.dir
    · exact h.noTable l q hl hq _ ht

theorem Space.setBytes (h : Space g managed dirs d s live) {l : Slot} (hl : l.1 = d)
    (hp : mapped s dirs l = some p) (f : ℕ → BitVec 8) {o n : ℕ} (hn : o + n ≤ 4096) :
    Space g managed dirs d (s.setBytes (p * 4096 + o) f n) live ∧
      mapped (s.setBytes (p * 4096 + o) f n) dirs = mapped s dirs ∧
      (∀ q, q ≠ p → (s.setBytes (p * 4096 + o) f n).mem q = s.mem q) ∧
      bytes ((s.setBytes (p * 4096 + o) f n).mem p) =
        patch (bytes (s.mem p)) (BitVec.ofNat 12 o) f n := by
  obtain ⟨c, he, hb⟩ := s.setBytes_eq f hn
  obtain ⟨hgood, htab, hent, -⟩ := h.good.storeFrame (h.good.maps l p hp).2 (h.noTable l p hl hp) c
  have hmap : mapped (s.storeFrame p c) dirs = mapped s dirs := by
    funext l
    simp only [mapped, hent]
  rw [he]
  refine ⟨⟨hgood, h.dir, ?_, ?_⟩, hmap, fun q hq => Function.update_of_ne hq _ _, ?_⟩
  · rw [hmap, htab]
    exact h.noTable
  · rw [hmap]
    exact h.alone
  · rw [← hb]
    exact congrArg bytes (Function.update_self _ _ _)

/-- Stored bytes are seen by the user at the addresses of the page. -/
theorem Space.userByte_setBytes (h : Space g managed dirs d s live) {la x : ℕ}
    (hp : mapped s dirs (slotOf d la) = some p) (f : ℕ → BitVec 8) {n : ℕ}
    (hn : la % 4096 + n ≤ 4096) (hla : la < 2 ^ 32) (hx : x < 2 ^ 32) :
    userByte (s.setBytes (p * 4096 + la % 4096) f n) dirs d x =
      if la ≤ x ∧ x < la + n then some (f (x - la)) else userByte s dirs d x := by
  obtain ⟨-, hmap, hother, hbytes⟩ := h.setBytes rfl hp f hn
  rw [userByte, hmap]
  by_cases hpage : x / 4096 = la / 4096
  · have hslot := (slotOf_inj (d := d) hx hla).2 hpage
    have hdist : (BitVec.ofNat 12 x - BitVec.ofNat 12 (la % 4096)).toNat =
        if la ≤ x then x - la else x + 4096 - la := by
      rw [BitVec.toNat_sub, BitVec.toNat_ofNat, BitVec.toNat_ofNat]
      split_ifs <;> omega
    rw [userByte, hslot, hp, Option.map_some, Option.map_some, hbytes, patch, hdist]
    by_cases hle : la ≤ x
    · rw [if_pos hle]
      by_cases hlt : x < la + n
      · rw [if_pos (by omega), if_pos ⟨hle, hlt⟩]
      · rw [if_neg (by omega), if_neg fun hc => hlt hc.2]
    · rw [if_neg hle, if_neg (by omega), if_neg fun hc => hle hc.1]
  · rw [if_neg (by omega), userByte]
    cases hq : mapped s dirs (slotOf d x) with
    | none => rfl
    | some q =>
      have hqp : q ≠ p := by
        rintro rfl
        exact hpage ((slotOf_inj hx hla).1 (h.alone _ _ q rfl hp hq))
      simp only [Option.map_some, hother q hqp]

end Space

/-! ## The bytes of a segment -/

namespace Proghdr

variable (f : ProgramFile) (ph : Proghdr)

def start : ℕ := ph.pVa.toNat

/-- Where the bytes of the file end. -/
def fileEnd : ℕ := ph.pVa.toNat + ph.pFilesz.toNat

def stop : ℕ := ph.pVa.toNat + ph.pMemsz.toNat

/-- What the segment holds at an address. -/
def content (x : ℕ) : BitVec 8 :=
  if x < ph.fileEnd then f.byte (ph.pOffset.toNat + (x - ph.start)) else 0#8

/-- The numbers of the pages of the segment. -/
def pages : List ℕ := List.range' (ph.start / 4096) ((ph.stop + 4095) / 4096 - ph.start / 4096)

/-- A segment that can be loaded. -/
structure Loadable : Prop where
  memsz : 0 < ph.pMemsz.toNat
  filesz : ph.pFilesz.toNat ≤ ph.pMemsz.toNat
  base : 0x200000 ≤ ph.start
  top : ph.stop ≤ 0x80000000
  inFile : ph.pOffset.toNat + ph.pFilesz.toNat ≤ f.size

theorem perm_shift : ph.perm >>> 12 = 0#32 := by
  unfold perm
  split_ifs <;> decide

end Proghdr

namespace Loading

/-- The pages of a list of addresses. -/
def pagesOf (las : List (BitVec 32)) : List ℕ := las.map fun la => la.toNat / 4096

section Segment

variable {g : ℕ → Bool} {managed live : ℕ → Prop} {dirs : Finset ℕ} {d : ℕ} {f : ProgramFile}
  {ph : Proghdr} {c₀ c c' : Loading} {L N : ℕ}

/-- The segment is right up to the address `L`, and its pages up to the page `N` are there. -/
structure Upto (g : ℕ → Bool) (managed : ℕ → Prop) (dirs : Finset ℕ) (d : ℕ) (f : ProgramFile)
    (ph : Proghdr) (c₀ c : Loading) (live : ℕ → Prop) (L N : ℕ) : Prop where
  space : Space g managed dirs d c.pmm live
  la : c.la.toNat = L
  lo : ph.start ≤ L
  hi : ph.start < L → L ≤ 4096 * N
  first : ph.start / 4096 ≤ N
  allocated : pagesOf c.allocated =
    pagesOf c₀.allocated ++ List.range' (ph.start / 4096) (N - ph.start / 4096)
  page : L / 4096 < N → ∃ p, c.page = some p ∧ mapped c.pmm dirs (slotOf d L) = some p
  offset : L ≤ ph.fileEnd → c.offset.toNat = ph.pOffset.toNat + (L - ph.start)
  filled : ∀ x, ph.start ≤ x → x < L → userByte c.pmm dirs d x = some (ph.content f x)
  other : ∀ x < 2 ^ 32, ¬ (ph.start / 4096 ≤ x / 4096 ∧ x / 4096 < N) →
    userByte c.pmm dirs d x = userByte c₀.pmm dirs d x
  room : c₀.pmm.area.nrFree ≤ c.pmm.area.nrFree + 2 * (N - ph.start / 4096)

/-- The page that comes next is allocated. -/
theorem Upto.alloc (h : Upto g managed dirs d f ph c₀ c live L N) (hN : L / 4096 = N)
    (hstop : L < ph.stop) (htop : ph.stop ≤ 0x80000000) :
    (c.alloc d ph = .error .noMem ∧ c₀.pmm.area.nrFree < 2 * ph.pages.length) ∨
      ∃ c' live', c.alloc d ph = .ok c' ∧ Upto g managed dirs d f ph c₀ c' live' L (N + 1) := by
  have hla := h.la
  have hroom := h.room
  have hfirst := h.first
  have hlen : ph.pages.length = (ph.stop + 4095) / 4096 - ph.start / 4096 := List.length_range'
  rcases h.space.alloc (@pdx_ne_vptx c.la (by omega)) ph.perm_shift with
    ⟨he, hfree⟩ | ⟨s', p, live', he, hspace, hspent, hmap, hmem⟩
  · exact .inl ⟨by rw [Loading.alloc, he]; rfl, by omega⟩
  have hslot : (d, pdx c.la, ptx c.la) = slotOf d L := by
    rw [slotOf, ← h.la, BitVec.ofNat_toNat, BitVec.setWidth_eq]
  rw [hslot] at hmap
  have hkeep : ∀ x < 2 ^ 32, x / 4096 ≠ N → userByte s' dirs d x = userByte c.pmm dirs d x := by
    intro x hx hne
    have hs : slotOf d x ≠ slotOf d L := fun hs =>
      hne (((slotOf_inj hx (by omega)).1 hs).trans hN)
    rw [userByte, userByte, hmap, Function.update_of_ne hs]
    cases hq : mapped c.pmm dirs (slotOf d x) with
    | none => rfl
    | some q => simp only [Option.map_some, hmem _ q rfl hq]
  refine .inr ⟨{ c with pmm := s', page := some p, allocated := c.allocated ++ [c.la] }, live',
    by rw [Loading.alloc, he]; rfl, hspace, h.la, h.lo, fun hlt => ?_, ?_, ?_,
    fun _ => ⟨p, rfl, by rw [hmap, Function.update_self]⟩, h.offset, fun x hx hxL => ?_,
    fun x hx hout => ?_, by simp only []; omega⟩
  · have := h.hi hlt
    omega
  · omega
  · rw [pagesOf, List.map_append, ← pagesOf, h.allocated, show N + 1 - ph.start / 4096 =
      N - ph.start / 4096 + 1 by omega, List.range'_concat]
    simp only [List.map_cons, List.map_nil, h.la, hN, List.append_assoc]
    congr 3
    omega
  · have := h.hi (by omega)
    rw [hkeep x (by omega) (by omega)]
    exact h.filled x hx hxL
  · rw [hkeep x hx (by omega)]
    exact h.other x hx (by omega)

/-- `n` bytes are stored in the page. -/
theorem Upto.put (h : Upto g managed dirs d f ph c₀ c live L N) (hN : L / 4096 + 1 = N)
    {n : ℕ} (hn : L % 4096 + n ≤ 4096) (htop : L + n ≤ 0x80000000) {p : ℕ} (hp : c.page = some p)
    {b : ℕ → BitVec 8} (hb : ∀ i < n, b i = ph.content f (L + i))
    (hpmm : c'.pmm = c.pmm.setBytes (p * 4096 + L % 4096) b n) (hpage : c'.page = c.page)
    (hall : c'.allocated = c.allocated) (hla : c'.la.toNat = L + n)
    (hoff : L + n ≤ ph.fileEnd → c'.offset.toNat = ph.pOffset.toNat + (L + n - ph.start)) :
    Upto g managed dirs d f ph c₀ c' live (L + n) N := by
  obtain ⟨p', hp', hmap⟩ := h.page (by omega)
  obtain rfl : p' = p := Option.some.inj (hp'.symm.trans hp)
  obtain ⟨hspace, hmapped, -⟩ := h.space.setBytes rfl hmap b hn
  have huser := fun x hx => h.space.userByte_setBytes hmap b hn (x := x) (by omega) hx
  rw [← hpmm] at hspace hmapped huser
  have hlo := h.lo
  refine ⟨hspace, hla, by omega, fun _ => by omega, h.first, by rw [hall, h.allocated],
    fun hlt => ⟨p', hpage.trans hp', ?_⟩, hoff, fun x hx hxL => ?_, fun x hx hout => ?_,
    by rw [hpmm, Pmm.setBytes_area]; exact h.room⟩
  · have hsame : slotOf d (L + n) = slotOf d L :=
      (slotOf_inj (by omega) (by omega)).2 (by omega)
    rw [hmapped, hsame, hmap]
  · rw [huser x (by omega)]
    by_cases hxl : L ≤ x
    · rw [if_pos ⟨hxl, hxL⟩, hb (x - L) (by omega), Nat.add_sub_cancel' hxl]
    · rw [if_neg fun hc => hxl hc.1]
      exact h.filled x hx (by omega)
  · have hfirst : ph.start / 4096 ≤ L / 4096 := Nat.div_le_div_right hlo
    rw [huser x hx, if_neg (by omega)]
    exact h.other x hx hout

variable (hl : ph.Loadable f)
include hl

theorem Upto.read (h : Upto g managed dirs d f ph c₀ c live L N) (hN : L / 4096 + 1 = N)
    (start len : BitVec 32) (hstart : start.toNat = L % 4096) (hn : L % 4096 + len.toNat ≤ 4096)
    (hfile : L + len.toNat ≤ ph.fileEnd) :
    ∃ c', c.read f start len = .ok c' ∧
      Upto g managed dirs d f ph c₀ c' live (L + len.toNat) N := by
  obtain ⟨p, hp, -⟩ := h.page (by omega)
  obtain ⟨hmemsz, hfilesz, -, htop, hinFile⟩ := hl
  unfold Proghdr.stop at htop
  unfold Proghdr.fileEnd at hfile
  have hsize := f.bound
  unfold sfsMaxFileSize at hsize
  have hla := h.la
  have hlo := h.lo
  have hoff := h.offset (by unfold Proghdr.fileEnd; omega)
  unfold Proghdr.start at hlo hoff
  have hreads : f.reads len c.offset = true := by
    rw [ProgramFile.reads, decide_eq_true_eq]
    omega
  refine ⟨_, by rw [Loading.read, hp]; simp only [hreads, if_true, hstart]; rfl, ?_⟩
  refine h.put hN hn (by omega) hp (fun i hi => ?_) rfl hp.symm rfl ?_ fun _ => ?_
  · rw [Proghdr.content, if_pos (by unfold Proghdr.fileEnd; omega), hoff, Proghdr.start]
    congr 1
    omega
  · rw [BitVec.toNat_add, hla, Nat.mod_eq_of_lt (by omega)]
  · rw [BitVec.toNat_add, hoff, Nat.mod_eq_of_lt (by omega), Proghdr.start]
    omega

theorem Upto.zero (h : Upto g managed dirs d f ph c₀ c live L N) (hN : L / 4096 + 1 = N)
    (start len : BitVec 32) (hstart : start.toNat = L % 4096) (hn : L % 4096 + len.toNat ≤ 4096)
    (h0 : 0 < len.toNat) (hfile : ph.fileEnd ≤ L) (hstop : L + len.toNat ≤ ph.stop) :
    ∃ c', c.zero start len = .ok c' ∧
      Upto g managed dirs d f ph c₀ c' live (L + len.toNat) N := by
  obtain ⟨p, hp, -⟩ := h.page (by omega)
  have htop := hl.top
  have hla := h.la
  refine ⟨_, by rw [Loading.zero, hp], ?_⟩
  refine h.put hN hn (by omega) hp (fun i hi => ?_) (by rw [hstart]) hp.symm rfl ?_ fun _ => ?_
  · rw [Proghdr.content, if_neg (by omega)]
  · rw [BitVec.toNat_add, hla, Nat.mod_eq_of_lt (by omega)]
  · omega

/-! ## The parts of a segment -/

omit hl in
theorem toNat_mod_pgsize (a : BitVec 32) : (a % pgsize).toNat = a.toNat % 4096 :=
  BitVec.toNat_umod

omit hl in
theorem toNat_div_pgsize (a : BitVec 32) : (a / pgsize).toNat = a.toNat / 4096 :=
  BitVec.toNat_udiv

theorem toNat_fileEnd : (ph.pVa + ph.pFilesz).toNat = ph.fileEnd := by
  have htop := hl.top
  have hle := hl.filesz
  unfold Proghdr.stop at htop
  rw [BitVec.toNat_add, Nat.mod_eq_of_lt (by omega)]
  rfl

theorem toNat_stop : (ph.pVa + ph.pMemsz).toNat = ph.stop := by
  have htop := hl.top
  unfold Proghdr.stop at htop
  rw [BitVec.toNat_add, Nat.mod_eq_of_lt (by omega)]
  rfl

theorem fileEnd_le_stop : ph.fileEnd ≤ ph.stop :=
  Nat.add_le_add_left hl.filesz _

theorem Upto.head (h : Upto g managed dirs d f ph c₀ c live ph.start (ph.start / 4096)) :
    (c.head f d ph = .error .noMem ∧ c₀.pmm.area.nrFree < 2 * ph.pages.length) ∨
      ∃ c' live' L, c.head f d ph = .ok c' ∧
        Upto g managed dirs d f ph c₀ c' live' L ((L + 4095) / 4096) ∧ L ≤ ph.fileEnd ∧
        (L % 4096 = 0 ∨ L = ph.fileEnd) := by
  have hla := h.la
  have htop := hl.top
  have hle := fileEnd_le_stop hl
  have hend := toNat_fileEnd hl
  have hstart : ph.start ≤ ph.fileEnd := Nat.le_add_right _ _
  have hva : ph.pVa.toNat = ph.start := rfl
  unfold Loading.head
  by_cases hz : ph.start % 4096 = 0
  · have hno : ¬ 0#32 < c.la % pgsize := by
      rw [BitVec.lt_def, toNat_mod_pgsize, hla]
      change ¬ 0 < _
      omega
    rw [if_neg hno]
    refine .inr ⟨c, live, ph.start, rfl, ?_, hstart, .inl hz⟩
    rw [show (ph.start + 4095) / 4096 = ph.start / 4096 by omega]
    exact h
  · have hyes : 0#32 < c.la % pgsize := by
      rw [BitVec.lt_def, toNat_mod_pgsize, hla]
      change 0 < _
      omega
    rw [if_pos hyes]
    rcases h.alloc rfl (Nat.lt_add_of_pos_right hl.memsz) htop with
      ⟨he, hroom⟩ | ⟨c₁, live₁, he, h₁⟩
    · exact .inl ⟨by rw [he]; rfl, hroom⟩
    have hla₁ := h₁.la
    have hsum : (c₁.la + ph.pFilesz).toNat = ph.fileEnd := by
      rw [← hend, show c₁.la = ph.pVa from BitVec.eq_of_toNat_eq hla₁]
    obtain ⟨len, hlen⟩ : ∃ len, (if c₁.la / pgsize = (c₁.la + ph.pFilesz) / pgsize then ph.pFilesz
      else pgsize - c₁.la % pgsize) = len := ⟨_, rfl⟩
    have hlenNat : len.toNat = if ph.start / 4096 = ph.fileEnd / 4096 then ph.fileEnd - ph.start
        else 4096 - ph.start % 4096 := by
      have hiff : c₁.la / pgsize = (c₁.la + ph.pFilesz) / pgsize ↔
          ph.start / 4096 = ph.fileEnd / 4096 := by
        rw [← BitVec.toNat_inj, toNat_div_pgsize, toNat_div_pgsize, hla₁, hsum]
      rw [← hlen]
      split_ifs with h1 h2 h2
      · unfold Proghdr.fileEnd
        omega
      · exact absurd (hiff.1 h1) h2
      · exact absurd (hiff.2 h2) h1
      · rw [BitVec.toNat_sub_of_le, toNat_mod_pgsize, hla₁]
        · rfl
        · rw [BitVec.le_def, toNat_mod_pgsize]
          change _ ≤ 4096
          omega
    obtain ⟨c₂, he₂, h₂⟩ := h₁.read hl rfl (c₁.la % pgsize) len (by rw [toNat_mod_pgsize, hla₁])
      (by rw [hlenNat]; split_ifs <;> omega) (by rw [hlenNat]; split_ifs <;> omega)
    refine .inr ⟨c₂, live₁, ph.start + len.toNat, ?_, ?_, ?_, ?_⟩
    · rw [he]
      simp only [bind, Except.bind, hlen]
      exact he₂
    · rw [show (ph.start + len.toNat + 4095) / 4096 = ph.start / 4096 + 1 by
        rw [hlenNat]; split_ifs <;> omega]
      exact h₂
    · rw [hlenNat]
      split_ifs <;> omega
    · rw [hlenNat]
      split_ifs <;> omega

theorem Upto.whole {fuel : ℕ} (h : Upto g managed dirs d f ph c₀ c live L ((L + 4095) / 4096))
    (hL : L ≤ ph.fileEnd) (hal : L % 4096 = 0 ∨ L = ph.fileEnd)
    (hfuel : ph.fileEnd / 4096 - L / 4096 < fuel) :
    (whole f d ph fuel c = .error .noMem ∧ c₀.pmm.area.nrFree < 2 * ph.pages.length) ∨
      ∃ c' live' L', whole f d ph fuel c = .ok c' ∧
        Upto g managed dirs d f ph c₀ c' live' L' ((L' + 4095) / 4096) ∧ L' ≤ ph.fileEnd ∧
        ph.fileEnd / 4096 * 4096 ≤ L' ∧ (L' % 4096 = 0 ∨ L' = ph.fileEnd) := by
  have htop := hl.top
  have hle := fileEnd_le_stop hl
  induction fuel generalizing c live L with
  | zero => omega
  | succ fuel ih =>
    have hla := h.la
    have hiff : c.la < (ph.pVa + ph.pFilesz) / pgsize * pgsize ↔ L < ph.fileEnd / 4096 * 4096 := by
      rw [BitVec.lt_def, BitVec.toNat_mul, toNat_div_pgsize, toNat_fileEnd hl, hla]
      change _ < _ * 4096 % 2 ^ 32 ↔ _
      rw [Nat.mod_eq_of_lt (by omega)]
    rw [Loading.whole]
    by_cases hlt : L < ph.fileEnd / 4096 * 4096
    · rw [if_pos (hiff.2 hlt)]
      have hz : L % 4096 = 0 := by omega
      rw [show (L + 4095) / 4096 = L / 4096 by omega] at h
      rcases h.alloc rfl (by omega) htop with ⟨he, hroom⟩ | ⟨c₁, live₁, he, h₁⟩
      · exact .inl ⟨by rw [he]; rfl, hroom⟩
      have hpg : pgsize.toNat = 4096 := rfl
      obtain ⟨c₂, he₂, h₂⟩ := h₁.read hl rfl 0#32 pgsize hz.symm (by omega) (by omega)
      rw [hpg, show L / 4096 + 1 = (L + 4096 + 4095) / 4096 by omega] at h₂
      have hrest : (do
          let c ← c.alloc d ph
          let c ← c.read f 0#32 pgsize
          Loading.whole f d ph fuel c) = Loading.whole f d ph fuel c₂ := by
        rw [he]
        simp only [bind, Except.bind, he₂]
      rw [hrest]
      exact ih h₂ (by omega) (by omega) (by omega)
    · rw [if_neg (mt hiff.1 hlt)]
      exact .inr ⟨c, live, L, rfl, h, hL, by omega, hal⟩

theorem Upto.tail (h : Upto g managed dirs d f ph c₀ c live L ((L + 4095) / 4096))
    (hL : L ≤ ph.fileEnd) (hfloor : ph.fileEnd / 4096 * 4096 ≤ L)
    (hal : L % 4096 = 0 ∨ L = ph.fileEnd) :
    (c.tail f d ph = .error .noMem ∧ c₀.pmm.area.nrFree < 2 * ph.pages.length) ∨
      ∃ c' live', c.tail f d ph = .ok c' ∧
        Upto g managed dirs d f ph c₀ c' live' ph.fileEnd ((ph.fileEnd + 4095) / 4096) := by
  have htop := hl.top
  have hle := fileEnd_le_stop hl
  have hla := h.la
  have hiff : c.la < ph.pVa + ph.pFilesz ↔ L < ph.fileEnd := by
    rw [BitVec.lt_def, toNat_fileEnd hl, hla]
  rw [Loading.tail]
  by_cases hlt : L < ph.fileEnd
  · rw [if_pos (hiff.2 hlt)]
    have hz : L % 4096 = 0 := by omega
    rw [show (L + 4095) / 4096 = L / 4096 by omega] at h
    rcases h.alloc rfl (by omega) htop with ⟨he, hroom⟩ | ⟨c₁, live₁, he, h₁⟩
    · exact .inl ⟨by rw [he]; rfl, hroom⟩
    have hlen : ((ph.pVa + ph.pFilesz) % pgsize).toNat = ph.fileEnd - L := by
      rw [toNat_mod_pgsize, toNat_fileEnd hl]
      omega
    obtain ⟨c₂, he₂, h₂⟩ := h₁.read hl rfl 0#32 ((ph.pVa + ph.pFilesz) % pgsize) hz.symm
      (by omega) (by omega)
    refine .inr ⟨c₂, live₁, ?_, ?_⟩
    · rw [he]
      exact he₂
    · rw [hlen, Nat.add_sub_cancel' hL,
        show L / 4096 + 1 = (ph.fileEnd + 4095) / 4096 by omega] at h₂
      exact h₂
  · rw [if_neg (mt hiff.1 hlt)]
    obtain rfl : L = ph.fileEnd := by omega
    exact .inr ⟨c, live, rfl, h⟩

/-- One turn of the loop that clears the rest: up to the end of the page, or of the segment. -/
theorem Upto.clear (h : Upto g managed dirs d f ph c₀ c live L (L / 4096 + 1))
    (hfile : ph.fileEnd ≤ L) (hstop : L < ph.stop) :
    ∃ c', c.zero (c.la % pgsize) (c.bssLen ph) = .ok c' ∧
      Upto g managed dirs d f ph c₀ c' live (min ph.stop (L / 4096 * 4096 + 4096))
        (L / 4096 + 1) := by
  have htop := hl.top
  have hla := h.la
  have hpg : pgsize.toNat = 4096 := rfl
  have hmod : (c.la % pgsize).toNat = L % 4096 := by rw [toNat_mod_pgsize, hla]
  have hfirst : (if c.la % pgsize = 0#32 then pgsize else pgsize - c.la % pgsize).toNat =
      4096 - L % 4096 := by
    split_ifs with hz
    · rw [hz] at hmod
      change 0 = _ at hmod
      omega
    · rw [BitVec.toNat_sub_of_le (by rw [BitVec.le_def]; omega), hmod, hpg]
  have hlen : (c.bssLen ph).toNat = min ph.stop (L / 4096 * 4096 + 4096) - L := by
    have hiff : c.la / pgsize = (ph.pVa + ph.pMemsz) / pgsize ↔ L / 4096 = ph.stop / 4096 := by
      rw [← BitVec.toNat_inj, toNat_div_pgsize, toNat_div_pgsize, hla, toNat_stop hl]
    have hback : (pgsize - (ph.pVa + ph.pMemsz) % pgsize).toNat = 4096 - ph.stop % 4096 := by
      rw [BitVec.toNat_sub_of_le, toNat_mod_pgsize, toNat_stop hl, hpg]
      rw [BitVec.le_def, toNat_mod_pgsize, hpg]
      omega
    simp only [bssLen]
    by_cases hpage : L / 4096 = ph.stop / 4096
    · rw [if_pos (hiff.2 hpage), BitVec.toNat_sub_of_le (by rw [BitVec.le_def]; omega), hfirst,
        hback]
      omega
    · rw [if_neg (mt hiff.1 hpage), hfirst]
      omega
  obtain ⟨c', he, h'⟩ := h.zero hl rfl (c.la % pgsize) (c.bssLen ph) hmod (by omega) (by omega)
    hfile (by omega)
  refine ⟨c', he, ?_⟩
  rw [hlen, Nat.add_sub_cancel' (by omega)] at h'
  exact h'

theorem Upto.bss {fuel : ℕ} (h : Upto g managed dirs d f ph c₀ c live L ((L + 4095) / 4096))
    (hfile : ph.fileEnd ≤ L) (hstop : L ≤ ph.stop)
    (hfuel : 0 < fuel ∧ (L < ph.stop → (ph.stop + 4095) / 4096 - L / 4096 < fuel)) :
    (bss d ph fuel c = .error .noMem ∧ c₀.pmm.area.nrFree < 2 * ph.pages.length) ∨
      ∃ c' live', bss d ph fuel c = .ok c' ∧
        Upto g managed dirs d f ph c₀ c' live' ph.stop ((ph.stop + 4095) / 4096) := by
  have htop := hl.top
  induction fuel generalizing c live L with
  | zero => omega
  | succ fuel ih =>
    have hla := h.la
    have hiff : c.la < ph.pVa + ph.pMemsz ↔ L < ph.stop := by
      rw [BitVec.lt_def, toNat_stop hl, hla]
    rw [Loading.bss]
    by_cases hlt : L < ph.stop
    · rw [if_pos (hiff.2 hlt)]
      have hz : c.la % pgsize = 0#32 ↔ L % 4096 = 0 := by
        rw [← BitVec.toNat_inj, toNat_mod_pgsize, hla]
        rfl
      -- the page is there, or it is allocated now
      have hpage : (c.bssPage d ph = .error .noMem ∧
          c₀.pmm.area.nrFree < 2 * ph.pages.length) ∨
          ∃ c₁ live₁, c.bssPage d ph = .ok c₁ ∧
            Upto g managed dirs d f ph c₀ c₁ live₁ L (L / 4096 + 1) := by
        unfold bssPage
        by_cases hL : L % 4096 = 0
        · rw [if_pos (hz.2 hL)]
          rw [show (L + 4095) / 4096 = L / 4096 by omega] at h
          exact h.alloc rfl hlt htop
        · rw [if_neg (mt hz.1 hL)]
          rw [show (L + 4095) / 4096 = L / 4096 + 1 by omega] at h
          exact .inr ⟨c, live, rfl, h⟩
      rcases hpage with ⟨he, hroom⟩ | ⟨c₁, live₁, he, h₁⟩
      · exact .inl ⟨by rw [he]; rfl, hroom⟩
      obtain ⟨c₂, he₂, h₂⟩ := h₁.clear hl hfile hlt
      rw [show L / 4096 + 1 = (min ph.stop (L / 4096 * 4096 + 4096) + 4095) / 4096 by omega] at h₂
      rw [he]
      simp only [bind, Except.bind, he₂]
      exact ih h₂ (by omega) (by omega) (by omega)
    · rw [if_neg (mt hiff.1 hlt)]
      obtain rfl : L = ph.stop := by omega
      exact .inr ⟨c, live, rfl, h⟩

/-- A segment is loaded. -/
theorem Upto.segment (h : Upto g managed dirs d f ph c₀ c live ph.start (ph.start / 4096)) :
    (c.segment f d ph = .error .noMem ∧ c₀.pmm.area.nrFree < 2 * ph.pages.length) ∨
      ∃ c' live', c.segment f d ph = .ok c' ∧
        Upto g managed dirs d f ph c₀ c' live' ph.stop ((ph.stop + 4095) / 4096) := by
  have htop := hl.top
  have hle := fileEnd_le_stop hl
  unfold Loading.segment
  rcases h.head hl with ⟨he, hroom⟩ | ⟨c₁, live₁, L₁, he, h₁, hL₁, hal₁⟩
  · exact .inl ⟨by rw [he]; rfl, hroom⟩
  rcases h₁.whole hl hL₁ hal₁ (show _ < 2 ^ 20 by omega) with
    ⟨he₁, hroom⟩ | ⟨c₂, live₂, L₂, he₁, h₂, hL₂, hfloor, hal₂⟩
  · exact .inl ⟨by rw [he]; simp only [bind, Except.bind, he₁], hroom⟩
  rcases h₂.tail hl hL₂ hfloor hal₂ with ⟨he₂, hroom⟩ | ⟨c₃, live₃, he₂, h₃⟩
  · exact .inl ⟨by rw [he]; simp only [bind, Except.bind, he₁, he₂], hroom⟩
  rcases h₃.bss hl (le_refl _) hle (show 0 < 2 ^ 20 ∧ _ by omega) with
    ⟨he₃, hroom⟩ | ⟨c₄, live₄, he₃, h₄⟩
  · exact .inl ⟨by rw [he]; simp only [bind, Except.bind, he₁, he₂, he₃], hroom⟩
  · refine .inr ⟨c₄, live₄, ?_, h₄⟩
    rw [he]
    simp only [bind, Except.bind, he₁, he₂, he₃]

end Segment

end Loading

/-! ## The headers -/

theorem Proghdr.mem_pages {ph : Proghdr} {q : ℕ} :
    q ∈ ph.pages ↔ ph.start / 4096 ≤ q ∧ q < (ph.stop + 4095) / 4096 := by
  rw [Proghdr.pages, List.mem_range'_1]
  have : ph.start ≤ ph.stop := Nat.le_add_right _ _
  omega

namespace ProgramFile

variable (f : ProgramFile)

/-- The header that the loop reads in the turn for `i`. -/
def proghdr (i : ℕ) : Proghdr := f.proghdrAt (f.ePhoff + proghdrSize * BitVec.ofNat 32 i)

/-- Those of the first `k` headers that are loaded. -/
def segmentsBelow (k : ℕ) : List Proghdr :=
  ((List.range k).map f.proghdr).filter fun ph => ph.pType == elfPtLoad

/-- The segments of the file. -/
def segments : List Proghdr := f.segmentsBelow f.ePhnum.toNat

/-- A file whose headers and segments lie in it and whose segments can be loaded and share no
page. -/
structure Loadable : Prop where
  header : 52 ≤ f.size
  table : f.ePhoff.toNat + 32 * f.ePhnum.toNat ≤ f.size
  segment : ∀ ph ∈ f.segments, ph.Loadable f
  apart : f.segments.Pairwise fun a b => a.pages.Disjoint b.pages

theorem segmentsBelow_succ (k : ℕ) : f.segmentsBelow (k + 1) = f.segmentsBelow k ++
    if (f.proghdr k).pType = elfPtLoad then [f.proghdr k] else [] := by
  rw [segmentsBelow, List.range_succ, List.map_append, List.filter_append]
  congr 1
  split_ifs with h
  · simp [h]
  · simp [h]

/-- The turn of the loop for the header `k`, if the header is in the file. -/
theorem loadFrom_succ {k : ℕ} (h : f.ePhoff.toNat + 32 * (k + 1) ≤ f.size)
    (kmalloc : ℕ → Option ℕ) (x : Building) : f.loadFrom kmalloc (k + 1) x =
      if (f.proghdr k).pType = elfPtLoad then do
        let x ← f.loadSegment (f.proghdr k) (kmalloc k) x
        f.loadFrom kmalloc k x
      else f.loadFrom kmalloc k x := by
  have hsize := f.bound
  unfold sfsMaxFileSize at hsize
  have hoff : (f.ePhoff + proghdrSize * BitVec.ofNat 32 k).toNat = f.ePhoff.toNat + 32 * k := by
    rw [BitVec.toNat_add, BitVec.toNat_mul, BitVec.toNat_ofNat]
    change (_ + 32 * _ % 2 ^ 32) % 2 ^ 32 = _
    omega
  have hreads : f.reads proghdrSize (f.ePhoff + proghdrSize * BitVec.ofNat 32 k) = true := by
    rw [ProgramFile.reads, decide_eq_true_eq, hoff]
    change _ + 32 ≤ _
    omega
  rw [loadFrom]
  simp only [hreads, Bool.not_true, Bool.false_eq_true, if_false, ne_eq, ite_not]
  rfl

end ProgramFile

section Headers

open Loading

variable {g : ℕ → Bool} {managed live : ℕ → Prop} {dirs : Finset ℕ} {d k n v : ℕ}
  {f : ProgramFile} {ph : Proghdr} {kmalloc : ℕ → Option ℕ} {x : Building} {done : List Proghdr}

/-- The segments `done` are loaded; the areas are theirs, and of the `n` free pages no more are
gone than theirs and as many page tables. -/
structure Built (g : ℕ → Bool) (managed : ℕ → Prop) (dirs : Finset ℕ) (d n : ℕ) (f : ProgramFile)
    (kmalloc : ℕ → Option ℕ) (x : Building) (live : ℕ → Prop) (k : ℕ) (done : List Proghdr) :
    Prop where
  space : Space g managed dirs d x.pmm live
  pgdir : x.mm.pgdir = d
  loadable : ∀ ph ∈ done, ph.Loadable f
  areas : ∃ vs, Mm.Areas x.mm vs ∧ Mm.CacheOk x.mm vs ∧ ∀ w ∈ vs,
    (∃ i, k ≤ i ∧ kmalloc i = some w) ∧ ∃ ph ∈ done,
      (x.mm.vma w).vmStart.toNat = ph.start / 4096 * 4096 ∧
      (x.mm.vma w).vmEnd.toNat = (ph.stop + 4095) / 4096 * 4096
  allocated : pagesOf x.allocated = done.reverse.flatMap Proghdr.pages
  filled : ∀ ph ∈ done, ∀ y, ph.start ≤ y → y < ph.stop →
    userByte x.pmm dirs d y = some (ph.content f y)
  room : n ≤ x.pmm.area.nrFree + 2 * (done.flatMap Proghdr.pages).length

/-- `mm_map` makes the area of a segment. -/
theorem Built.mmMap (h : Built g managed dirs d n f kmalloc x live (k + 1) done)
    (hl : ph.Loadable f) (hapart : ∀ b ∈ done, ph.pages.Disjoint b.pages)
    (hk : ∀ i j w, kmalloc i = some w → kmalloc j = some w → i = j) (hv : kmalloc k = some v) :
    ∃ m' vs, x.mm.mmMap ph.pVa ph.pMemsz ph.flags (kmalloc k) = some (m', 0, some v) ∧
      m'.pgdir = d ∧ Mm.Areas m' vs ∧ Mm.CacheOk m' vs ∧ ∀ w ∈ vs,
        (∃ i, k ≤ i ∧ kmalloc i = some w) ∧ ∃ b ∈ ph :: done,
          (m'.vma w).vmStart.toNat = b.start / 4096 * 4096 ∧
          (m'.vma w).vmEnd.toNat = (b.stop + 4095) / 4096 * 4096 := by
  obtain ⟨vs, ha, hc, hvs⟩ := h.areas
  have hmem := hl.memsz
  have hbase := hl.base
  have htop := hl.top
  have hstart : Mm.mapStart ph.pVa = ph.start / 4096 * 4096 := rfl
  have hstop : Mm.mapStop ph.pVa ph.pMemsz = (ph.stop + 4095) / 4096 * 4096 := rfl
  have hlt : ph.start < ph.stop := Nat.lt_add_of_pos_right hmem
  have hin : Mm.InUser ph.pVa ph.pMemsz := by
    rw [Mm.InUser, hstart, hstop]
    omega
  have hmeets : ∀ w ∈ vs, ¬ Mm.Meets x.mm ph.pVa ph.pMemsz w := by
    rintro w hw ⟨h1, h2⟩
    obtain ⟨-, b, hb, hbs, hbe⟩ := hvs w hw
    rw [hbs, hstop] at h1
    rw [hbe, hstart] at h2
    have hbl : b.start < b.stop := Nat.lt_add_of_pos_right (h.loadable b hb).memsz
    refine hapart b hb (a := max (ph.start / 4096) (b.start / 4096)) ?_ ?_
    · rw [Proghdr.mem_pages]
      omega
    · rw [Proghdr.mem_pages]
      omega
  have hnew : v ∉ vs := fun hvm => by
    obtain ⟨⟨i, hi, hiv⟩, -⟩ := hvs v hvm
    have := hk i k v hiv hv
    omega
  obtain ⟨m', pre, post, hret, hsplit, ha', hc', hpg, hs', he', -, hother⟩ :=
    Mm.mmMap_new ha hc ph.flags hin hmeets hnew
  refine ⟨m', pre ++ v :: post, hv ▸ hret, hpg.trans h.pgdir, ha', hc', fun w hw => ?_⟩
  have hw' : w = v ∨ w ∈ vs := by
    rw [hsplit]
    simpa [or_left_comm] using hw
  rcases hw' with rfl | hw'
  · exact ⟨⟨k, le_refl k, hv⟩, ph, by simp, hs', he'⟩
  · obtain ⟨⟨i, hi, hiw⟩, b, hb, hbs, hbe⟩ := hvs w hw'
    rw [hother w hw']
    exact ⟨⟨i, by omega, hiw⟩, b, List.mem_cons_of_mem _ hb, hbs, hbe⟩

theorem Built.segment (h : Built g managed dirs d n f kmalloc x live (k + 1) done)
    (hl : ph.Loadable f) (hapart : ∀ b ∈ done, ph.pages.Disjoint b.pages)
    (hk : ∀ i j w, kmalloc i = some w → kmalloc j = some w → i = j) (hv : kmalloc k = some v) :
    (f.loadSegment ph (kmalloc k) x = .error .noMem ∧
      n < 2 * ((ph :: done).flatMap Proghdr.pages).length) ∨
      ∃ x' live', f.loadSegment ph (kmalloc k) x = .ok x' ∧
        Built g managed dirs d n f kmalloc x' live' k (ph :: done) := by
  obtain ⟨m', vs, hret, hpg, ha, hc, hvs⟩ := h.mmMap hl hapart hk hv
  have hsz : ¬ ph.pMemsz < ph.pFilesz := by
    rw [BitVec.lt_def]
    exact Nat.not_lt.2 hl.filesz
  have hrest : f.loadSegment ph (kmalloc k) x = (do
      let c ← Loading.segment f d ph ⟨x.pmm, none, ph.pVa, ph.pOffset, x.allocated⟩
      return ⟨m', c.pmm, c.allocated⟩) := by
    rw [ProgramFile.loadSegment, hret]
    simp only [ne_eq, not_true_eq_false, if_false, if_neg hsz, hpg]
  have h₀ : Upto g managed dirs d f ph ⟨x.pmm, none, ph.pVa, ph.pOffset, x.allocated⟩
      ⟨x.pmm, none, ph.pVa, ph.pOffset, x.allocated⟩ live ph.start (ph.start / 4096) :=
    ⟨h.space, rfl, le_refl _, fun hlt => absurd hlt (lt_irrefl _), le_refl _, by simp,
      fun hlt => absurd hlt (lt_irrefl _), fun _ => by simp,
      fun y h1 h2 => absurd h2 (Nat.not_lt.2 h1), fun _ _ _ => rfl, Nat.le_add_right _ _⟩
  have hroom := h.room
  have hlen : ((ph :: done).flatMap Proghdr.pages).length =
      ph.pages.length + (done.flatMap Proghdr.pages).length := by
    rw [List.flatMap_cons, List.length_append]
  rw [hrest]
  rcases h₀.segment hl with ⟨he, hfree⟩ | ⟨c, live', he, hupto⟩
  · simp only [] at hfree
    exact .inl ⟨by rw [he]; rfl, by omega⟩
  have hspent : x.pmm.area.nrFree ≤ c.pmm.area.nrFree + 2 * ph.pages.length := by
    have := hupto.room
    rwa [Proghdr.pages, List.length_range']
  refine .inr ⟨⟨m', c.pmm, c.allocated⟩, live', by rw [he]; rfl, hupto.space, hpg, ?_,
    ⟨vs, ha, hc, hvs⟩, ?_, ?_, by simp only []; omega⟩
  · rintro b (_ | ⟨_, hb⟩)
    · exact hl
    · exact h.loadable b hb
  · rw [hupto.allocated, h.allocated, List.reverse_cons, List.flatMap_append]
    simp [Proghdr.pages]
  · rintro b (_ | ⟨_, hb⟩) y h1 h2
    · exact hupto.filled y h1 h2
    · have htop := (h.loadable b hb).top
      rw [hupto.other y (by omega), h.filled b hb y h1 h2]
      rw [← Proghdr.mem_pages]
      intro hin
      exact hapart b hb hin (Proghdr.mem_pages.2 (by omega))

/-- The loop, with the segments from the `k`-th header on loaded. -/
theorem Built.loadFrom (h : Built g managed dirs d n f kmalloc x live k done)
    (htable : f.ePhoff.toNat + 32 * k ≤ f.size)
    (hl : ∀ ph ∈ f.segmentsBelow k, ph.Loadable f)
    (hapart : (f.segmentsBelow k ++ done).Pairwise fun a b => a.pages.Disjoint b.pages)
    (hk : ∀ i j w, kmalloc i = some w → kmalloc j = some w → i = j)
    (hall : ∀ i, (kmalloc i).isSome) :
    (f.loadFrom kmalloc k x = .error .noMem ∧
      n < 2 * ((f.segmentsBelow k ++ done).flatMap Proghdr.pages).length) ∨
      ∃ x' live', f.loadFrom kmalloc k x = .ok x' ∧
        Built g managed dirs d n f kmalloc x' live' 0 (f.segmentsBelow k ++ done) := by
  induction k generalizing x live done with
  | zero => exact .inr ⟨x, live, rfl, h⟩
  | succ k ih =>
    rw [f.loadFrom_succ htable]
    rw [ProgramFile.segmentsBelow_succ] at hl hapart ⊢
    by_cases htype : (f.proghdr k).pType = elfPtLoad
    · simp only [if_pos htype] at hl hapart ⊢
      rw [List.append_assoc, List.singleton_append] at hapart ⊢
      obtain ⟨v, hv⟩ := Option.isSome_iff_exists.1 (hall k)
      have hmid := (List.pairwise_cons.1 (List.pairwise_append.1 hapart).2.1).1
      rcases h.segment (hl _ (by simp)) hmid hk hv with ⟨he, hroom⟩ | ⟨x₁, live₁, he, h₁⟩
      · rw [List.flatMap_append, List.length_append]
        exact .inl ⟨by rw [he]; rfl, by omega⟩
      · rw [he]
        exact ih h₁ (by omega) (fun b hb => hl b (by simp [hb])) hapart
    · simp only [if_neg htype, List.append_nil] at hl hapart ⊢
      obtain ⟨vs, ha, hc, hvs⟩ := h.areas
      refine ih ⟨h.space, h.pgdir, h.loadable, ⟨vs, ha, hc, fun w hw => ?_⟩, h.allocated, h.filled,
        h.room⟩ (by omega) hl hapart
      obtain ⟨⟨i, hi, hiw⟩, hrest⟩ := hvs w hw
      exact ⟨⟨i, by omega, hiw⟩, hrest⟩

/-- A new directory has no table. -/
theorem tableOf_newPgdir {s s' : Pmm} (h : Good g managed s dirs live)
    (he : s.newPgdir = .ok (s', d)) (i : BitVec 10) :
    tableOf s' (insert d dirs) (d, i) = none := by
  rcases newPgdir_cases h.heap with hn | ⟨s₁, d₁, he', -, -, -, -, hzero, -⟩
  · simp [hn] at he
  obtain ⟨rfl, rfl⟩ := Prod.mk.inj (Except.ok.inj (he'.symm.trans he))
  unfold tableOf
  split_ifs with hc
  · rw [hzero i hc.2]
    rfl
  · rfl

/-- The whole loop, for a new address space. -/
theorem loadSegments_built {s s₁ : Pmm} (hg : Good g managed s dirs live)
    (hnew : s.newPgdir = .ok (s₁, d)) (m : Mm)
    (hk : ∀ i j w, kmalloc i = some w → kmalloc j = some w → i = j)
    (hall : ∀ i, (kmalloc i).isSome) (hf : f.Loadable) :
    (f.loadSegments kmalloc ⟨{ m.mmCreate with pgdir := d }, s₁, []⟩ = .error .noMem ∧
      s₁.area.nrFree < 2 * (f.segments.flatMap Proghdr.pages).length) ∨
      ∃ x live', f.loadSegments kmalloc ⟨{ m.mmCreate with pgdir := d }, s₁, []⟩ = .ok x ∧
        Built g managed (insert d dirs) d s₁.area.nrFree f kmalloc x live' 0 f.segments := by
  have hempty : ∀ l : Slot, l.1 = d → ∀ p, mapped s₁ (insert d dirs) l ≠ some p := by
    intro l hl p hp
    have hno := tableOf_newPgdir hg hnew l.2.1
    rw [mapped_of_tableOf_none (by rw [hl]; exact hno)] at hp
    cases hp
  have hbuilt : Built g managed (insert d dirs) d s₁.area.nrFree f kmalloc
      ⟨{ m.mmCreate with pgdir := d }, s₁, []⟩ (fun q => q = d ∨ live q) f.ePhnum.toNat [] := by
    refine ⟨⟨hg.newPgdir hnew, Finset.mem_insert_self _ _,
      fun l p hl hp => absurd hp (hempty l hl p), fun l l' p hl hp => absurd hp (hempty l hl p)⟩,
      rfl, by simp, ⟨[], ?_, fun v hv => ?_, by simp⟩, rfl, by simp, Nat.le_add_right _ _⟩
    · exact ⟨LinkedRing.Links.isRing_init, by simp, List.Pairwise.nil, rfl⟩
    · simp [Mm.mmCreate] at hv
  have hhead : f.reads elfhdrSize 0#32 = true := by
    rw [ProgramFile.reads, decide_eq_true_eq]
    exact hf.header
  have hpair : (f.segments ++ []).Pairwise fun a b : Proghdr => a.pages.Disjoint b.pages := by
    rw [List.append_nil]
    exact hf.apart
  rw [ProgramFile.loadSegments, if_pos hhead]
  have hloop := hbuilt.loadFrom hf.table hf.segment hpair hk hall
  rwa [List.append_nil] at hloop

/-- There is no page left only if there were fewer than two for each page of the segments. -/
theorem loadSegments_noMem {s s₁ : Pmm} (hs : Mm.Consistent s dirs)
    (hnew : s.newPgdir = .ok (s₁, d)) (m : Mm)
    (hk : ∀ i j w, kmalloc i = some w → kmalloc j = some w → i = j)
    (hall : ∀ i, (kmalloc i).isSome) (hf : f.Loadable)
    (he : f.loadSegments kmalloc ⟨{ m.mmCreate with pgdir := d }, s₁, []⟩ = .error .noMem) :
    s₁.area.nrFree < 2 * (f.segments.flatMap Proghdr.pages).length := by
  obtain ⟨g, managed, live, hg⟩ := hs
  rcases loadSegments_built hg hnew m hk hall hf with ⟨-, hroom⟩ | ⟨x, live', hx, -⟩
  · exact hroom
  · rw [hx] at he
    cases he

/-- Loading a program into a new address space. Unless there is no page left the loop comes to its
end, with each segment in the user memory as the file has it and the rest of it zero, and each page
of a segment has been allocated once. -/
theorem load_segments {s s₁ : Pmm} (hs : Mm.Consistent s dirs) (hnew : s.newPgdir = .ok (s₁, d))
    (m : Mm) (hk : ∀ i j w, kmalloc i = some w → kmalloc j = some w → i = j)
    (hall : ∀ i, (kmalloc i).isSome) (hf : f.Loadable)
    (hmem : f.loadSegments kmalloc ⟨{ m.mmCreate with pgdir := d }, s₁, []⟩ ≠ .error .noMem) :
    ∃ x, f.loadSegments kmalloc ⟨{ m.mmCreate with pgdir := d }, s₁, []⟩ = .ok x ∧
      (∀ ph ∈ f.segments,
        (∀ i < ph.pFilesz.toNat, userByte x.pmm (insert d dirs) d (ph.pVa.toNat + i) =
          some (f.byte (ph.pOffset.toNat + i))) ∧
        ∀ i, ph.pFilesz.toNat ≤ i → i < ph.pMemsz.toNat →
          userByte x.pmm (insert d dirs) d (ph.pVa.toNat + i) = some 0#8) ∧
      pagesOf x.allocated = f.segments.reverse.flatMap Proghdr.pages ∧
      (pagesOf x.allocated).Nodup := by
  obtain ⟨g, managed, live, hg⟩ := hs
  obtain ⟨x, live', he, hx⟩ :=
    (loadSegments_built hg hnew m hk hall hf).resolve_left fun h => hmem h.1
  refine ⟨x, he, fun ph hph => ⟨fun i hi => ?_, fun i h1 h2 => ?_⟩, hx.allocated, ?_⟩
  · have hsz := (hf.segment ph hph).filesz
    rw [hx.filled ph hph _ (by unfold Proghdr.start; omega) (by unfold Proghdr.stop; omega),
      Proghdr.content, if_pos (by unfold Proghdr.fileEnd; omega), Proghdr.start,
      Nat.add_sub_cancel_left]
  · rw [hx.filled ph hph _ (by unfold Proghdr.start; omega) (by unfold Proghdr.stop; omega),
      Proghdr.content, if_neg (by unfold Proghdr.fileEnd; omega)]
  · rw [hx.allocated, List.nodup_flatMap]
    refine ⟨fun ph _ => List.nodup_range', ?_⟩
    rw [List.pairwise_reverse]
    exact hf.apart.imp fun hab => hab.symm

/-- A program with one segment of three bytes that crosses a page boundary, and two more in
memory. -/
def crossing : ProgramFile where
  byte o :=
    if o = 28 then 52#8 else if o = 44 then 1#8 else if o = 52 then 1#8 else if o = 56 then 84#8
    else if o = 60 then 0xfe#8 else if o = 61 then 0x0f#8 else if o = 62 then 0x80#8
    else if o = 68 then 3#8 else if o = 72 then 5#8 else if o = 76 then 7#8
    else if o = 84 then 10#8 else if o = 85 then 11#8 else if o = 86 then 12#8 else 0#8
  size := 87
  bound := by decide

theorem crossing_segments :
    crossing.segments = [⟨1#32, 84#32, 0x800ffe#32, 3#32, 5#32, 7#32⟩] := by
  rfl

theorem crossing_loadable : crossing.Loadable := by
  refine ⟨by decide, by decide, ?_, ?_⟩
  · rw [crossing_segments]
    simp only [List.mem_singleton, forall_eq]
    exact ⟨by decide, by decide, by decide, by decide, by decide⟩
  · rw [crossing_segments]
    exact List.pairwise_singleton _ _

/-- It is loaded into two pages. -/
theorem load_segments_crossing : ∃ s₁ x, bootSix.newPgdir = .ok (s₁, 1) ∧
    crossing.loadSegments (fun k => some (k + 1)) ⟨{ Mm.blank.mmCreate with pgdir := 1 }, s₁, []⟩
      = .ok x ∧
    userByte x.pmm {1} 1 0x801000 = some 12#8 ∧ userByte x.pmm {1} 1 0x801002 = some 0#8 ∧
    pagesOf x.allocated = [0x800, 0x801] := by
  obtain ⟨s₁, y, hnew, hy⟩ : ∃ s₁ y, bootSix.newPgdir = .ok (s₁, 1) ∧
      crossing.loadSegments (fun k => some (k + 1)) ⟨{ Mm.blank.mmCreate with pgdir := 1 }, s₁, []⟩
        = .ok y := ⟨_, _, rfl, rfl⟩
  obtain ⟨g, managed, live, hg⟩ := bootSix_reachable.good
  obtain ⟨x, hx, hbytes, hpages, -⟩ := load_segments ⟨g, managed, live, hg⟩ hnew Mm.blank
    (fun i j w hi hj => Nat.succ.inj (Option.some.inj (hi.trans hj.symm))) (fun _ => rfl)
    crossing_loadable (by rw [hy]; simp)
  rw [crossing_segments] at hbytes hpages
  obtain ⟨hfile, hzero⟩ := hbytes _ (List.mem_singleton_self _)
  exact ⟨s₁, x, hnew, hx, hfile 2 (by decide), hzero 4 (by decide) (by decide), hpages⟩

end Headers

end Ucore

end CacheCPU
