import CacheCPU.Proofs.Slob

/-!
# What `kmalloc` hands out

A small request is a block of the heap with a unit for the header, a large one a run of pages with
a block of the heap for its record. `find_order` halves the size until it is at most a page, and
what the halving drops is not in the run: the run is too short just above a power of two. The law
holds of the heaps from which the arena has never been taken; `kmalloc(0)` may take it.
-/

namespace CacheCPU

namespace Ucore

namespace Slob

open FreeArea

/-! ## `find_order` -/

section Order

variable {size : BitVec 32} {order fuel : ℕ}

theorem slt_iff (h : size.toNat < 2 ^ 31) : BitVec.slt 4096#32 size ↔ 4096 < size.toNat := by
  have hint : size.toInt = size.toNat := BitVec.toInt_eq_toNat_of_lt (by omega)
  rw [BitVec.slt_iff_toInt_lt, hint]
  change ((4096 : ℤ) < _) ↔ _
  omega

theorem toNat_half (h : size.toNat < 2 ^ 31) : (size.sshiftRight 1).toNat = size.toNat / 2 := by
  have hmsb : size.msb = false := BitVec.msb_eq_false_iff_two_mul_lt.2 (by omega)
  rw [BitVec.sshiftRight_eq_of_msb_false hmsb, BitVec.toNat_ushiftRight, Nat.shiftRight_eq_div_pow]

/-- The halvings stop at the first that leaves no more than a page. -/
theorem orderFrom_spec : ∀ {fuel : ℕ} {size : BitVec 32} {order : ℕ},
    size.toNat < 2 ^ 31 → size.toNat < 4097 * 2 ^ fuel →
    ∃ k, orderFrom (fuel + 1) size order = some (order + k) ∧ size.toNat < 4097 * 2 ^ k ∧
      (0 < k → 4097 * 2 ^ k ≤ 2 * size.toNat)
  | 0, size, order, hlt, hfuel => by
    refine ⟨0, ?_, hfuel, by omega⟩
    rw [orderFrom, if_neg (by rw [slt_iff hlt]; omega)]
    rfl
  | fuel + 1, size, order, hlt, hfuel => by
    rw [orderFrom]
    by_cases hbig : 4096 < size.toNat
    · have hhalf := toNat_half hlt
      rw [Nat.pow_succ] at hfuel
      obtain ⟨k, hk, hle, hmin⟩ := @orderFrom_spec fuel (size.sshiftRight 1) (order + 1)
        (by omega) (by omega)
      rw [hhalf] at hle hmin
      refine ⟨k + 1, ?_, ?_, fun _ => ?_⟩
      · rw [if_pos ((slt_iff hlt).2 hbig), hk]
        congr 1
        omega
      · rw [Nat.pow_succ]
        omega
      · rw [Nat.pow_succ]
        rcases Nat.eq_zero_or_pos k with rfl | hpos
        · omega
        · have := hmin hpos
          omega
    · refine ⟨0, ?_, by omega, by omega⟩
      rw [if_neg (by rw [slt_iff hlt]; omega)]
      rfl

theorem findOrder_spec (h : size.toNat < 2 ^ 31) :
    ∃ k, findOrder size = some k ∧ size.toNat < 4097 * 2 ^ k ∧
      (0 < k → 4097 * 2 ^ k ≤ 2 * size.toNat) := by
  obtain ⟨k, hk, h1, h2⟩ := @orderFrom_spec 31 size 0 h (by omega)
  exact ⟨k, by rw [findOrder, hk, Nat.zero_add], h1, h2⟩

/-- A size from `2 ^ 31` on is a negative `int`. -/
theorem findOrder_neg (h : 2 ^ 31 ≤ size.toNat) : findOrder size = some 0 := by
  have hint := BitVec.toInt_eq_toNat_cond size
  rw [if_neg (by omega)] at hint
  rw [findOrder, orderFrom, if_neg]
  rw [BitVec.slt_iff_toInt_lt, hint]
  have := size.isLt
  change ¬((4096 : ℤ) < _)
  omega

end Order

/-! ## Runs of the heap -/

section Runs

variable {getFreePage : ℕ → Option ℕ} {arena : ℕ} {σ : Session} {bs : List Block} {size : ℕ}

/-- `exec` of an allocation, by what `slob_alloc` returns. -/
theorem Session.exec_alloc (σ : Session) (getFreePage : ℕ → Option ℕ) {s' : Slob}
    {r : Option ℕ} (h : σ.heap.slobAlloc getFreePage size = some (s', r)) :
    σ.exec getFreePage (.alloc size) =
      some ⟨s', (r.map fun y => (y, slobUnit * slobUnits size)).toList ++ σ.live⟩ := by
  cases r <;> simp [Session.exec, h]

theorem Inv.calls_le (h : Inv getFreePage arena σ bs) (hs : Supply getFreePage arena)
    (hsize : 8 < size) (hmax : size + slobUnit < pageSize) {s' : Slob} {r : Option ℕ}
    (he : σ.heap.slobAlloc getFreePage size = some (s', r)) :
    s'.calls ≤ σ.heap.calls + 1 := by
  rcases h.list.slobAlloc (h.length_le hs) (by omega) hmax (.inl hsize) (h.page_apart hs) with
    ⟨-, he'⟩ | ⟨s1, y, bs', he', -, -, hcalls, -⟩
  · obtain ⟨rfl, -⟩ := Prod.mk.inj (Option.some.inj (he.symm.trans he'))
    exact Nat.le_refl _
  · obtain ⟨rfl, -⟩ := Prod.mk.inj (Option.some.inj (he.symm.trans he'))
    rcases hcalls with ⟨hc, -⟩ | ⟨page, -, hc, -⟩ <;> omega

/-- An allocation of more than a unit takes a reachable heap to a reachable heap. -/
theorem Reachable.slobAlloc (hs : Supply getFreePage arena)
    (h : Reachable getFreePage arena (fun σ op => σ.Spares arena op) σ) (hsize : 8 < size)
    (hmax : size + slobUnit < pageSize) :
    ∃ s' r, σ.heap.slobAlloc getFreePage size = some (s', r) ∧ s'.calls ≤ σ.heap.calls + 1 ∧
      Reachable getFreePage arena (fun σ op => σ.Spares arena op)
        ⟨s', (r.map fun y => (y, slobUnit * slobUnits size)).toList ++ σ.live⟩ := by
  obtain ⟨bs, hi⟩ := h.inv hs
  have hsp : σ.Spares arena (.alloc size) := ⟨by omega, .inl hsize⟩
  obtain ⟨σ', -, he, -⟩ := hi.alloc hs hmax hsp
  cases hr : σ.heap.slobAlloc getFreePage size with
  | none => simp [Session.exec, hr] at he
  | some q =>
    obtain ⟨s', r⟩ := q
    exact ⟨s', r, rfl, hi.calls_le hs hsize hmax hr,
      .step (.alloc size) h hmax hsp (σ.exec_alloc getFreePage hr)⟩

/-- One unit can always be had: if nothing better comes first, it is the arena. -/
theorem Inv.slobAlloc_unit (h : Inv getFreePage arena σ bs) (hs : Supply getFreePage arena) :
    ∃ q, σ.heap.slobAlloc getFreePage slobUnit = some q := by
  by_cases hnext : σ.heap.next σ.heap.slobfree = arena
  · have hunits : slobUnits slobUnit ≤ σ.heap.units arena := by
      have := h.list.size (arena, 8) (by simp)
      simp only [slobUnits, slobUnit] at *
      omega
    rw [Slob.slobAlloc, if_pos (by decide), show 2 ^ 34 = 17179869183 + 1 from rfl, Slob.allocFrom,
      hnext, if_pos hunits]
    exact ⟨_, rfl⟩
  · have hadm : slobUnit + slobUnit < pageSize := by decide
    obtain ⟨σ', -, he, -⟩ := h.alloc hs hadm ⟨by decide, .inr hnext⟩
    cases hr : σ.heap.slobAlloc getFreePage slobUnit with
    | none => simp [Session.exec, hr] at he
    | some q => exact ⟨q, rfl⟩

theorem obtained_mono {calls calls' p : ℕ} (hle : calls ≤ calls')
    (h : Obtained getFreePage calls p) : Obtained getFreePage calls' p := by
  obtain ⟨i, hi, page⟩ := h
  exact ⟨i, by omega, page⟩

end Runs

end Slob

namespace Kheap

open FreeArea Slob

/-! ## The law -/

/-- The runs of pages that are held are apart from the pages of the heap, the next one of these
included; and a new run is apart from both. -/
structure Allots (getFreePage : ℕ → Option ℕ) (getFreePages : ℕ → ℕ → Option ℕ)
    (arena calls : ℕ) (runs : List Block) : Prop where
  kept : ∀ {a}, Covers runs a → ¬Obtained getFreePage (calls + 1) a
  above : ∀ {k order p}, getFreePages k order = some p → arena + 8 < p
  heap : ∀ {k order p a}, getFreePages k order = some p →
    Block.Has (p, pageSize * 2 ^ order) a → ¬Obtained getFreePage k a
  runs : ∀ {k order p a}, getFreePages k order = some p →
    Block.Has (p, pageSize * 2 ^ order) a → ¬Covers runs a

/-- The block of the heap, or the pages, that a result of `kmalloc` lies in, with the other blocks of
the heap that are in use. -/
inductive Backing (getFreePage : ℕ → Option ℕ) (getFreePages : ℕ → ℕ → Option ℕ)
    (size : BitVec 32) (σ : Slob.Session) (k : Kheap) (p : ℕ) : Block → List Block → Prop
  | slob {m : ℕ} :
      σ.heap.slobAlloc getFreePage (size.toNat + slobUnit) = some (k.slob, some m) →
      p = m + slobUnit →
      Backing getFreePage getFreePages size σ k p
        (m, slobUnit * slobUnits (size.toNat + slobUnit)) σ.live
  | pages {order : ℕ} : findOrder size = some order →
      getFreePages k.slob.calls order = some p →
      Backing getFreePage getFreePages size σ k p (p, pageSize * 2 ^ order)
        ((k.bigblocks, slobUnit * slobUnits bigblockSize) :: σ.live)

/-- `kmalloc` fails no assertion, and the bytes asked for are in one block or run of pages and in
nothing else: no other block of the heap, no other run, and nothing that is free. -/
def Lawful (getFreePage : ℕ → Option ℕ) (getFreePages : ℕ → ℕ → Option ℕ) (arena : ℕ)
    (σ : Slob.Session) (bigblocks : ℕ) (runs : List Block) (size : BitVec 32) : Prop :=
  ∃ k r, kmalloc ⟨σ.heap, bigblocks⟩ getFreePage getFreePages size = some (k, r) ∧
    ∀ p, r = some p → ∃ x others, Backing getFreePage getFreePages size σ k p x others ∧
      ∀ a, p ≤ a → a < p + size.toNat → x.Has a ∧ ¬Covers others a ∧ ¬Covers runs a ∧
        ∃ bs, FreeCycle k.slob ((arena, 8) :: bs) ∧ ¬Covers ((arena, 8) :: bs) a

/-- The law for one size, after every run of the heap whose calls all meet `P`. -/
def KmallocLaw (P : ℕ → Slob.Session → Slob.Op → Prop) (size : BitVec 32) : Prop :=
  ∀ (getFreePage : ℕ → Option ℕ) (getFreePages : ℕ → ℕ → Option ℕ) (arena : ℕ)
    (σ : Slob.Session) (bigblocks : ℕ) (runs : List Block), Supply getFreePage arena →
    Reachable getFreePage arena (P arena) σ →
    Allots getFreePage getFreePages arena σ.heap.calls runs →
    Lawful getFreePage getFreePages arena σ bigblocks runs size

/-- Every run of the heap. -/
def anyRun : ℕ → Slob.Session → Slob.Op → Prop := fun _ _ _ => True

/-- The runs in which each `slob_alloc` asks for at least one byte, and for more than one unit when
the arena comes next. -/
def sparing : ℕ → Slob.Session → Slob.Op → Prop := fun arena σ op => σ.Spares arena op

/-- A header fits before the end of the page, the size is no negative `int`, and it is not just
above a power of two. -/
def Roomy (size : BitVec 32) : Prop :=
  ¬(4080 ≤ size.toNat ∧ size.toNat < 4088) ∧ size.toNat < 2 ^ 31 ∧
    ∀ k, ¬(4096 * 2 ^ k < size.toNat ∧ size.toNat < 4096 * 2 ^ k + 2 ^ k)

section Law

variable {getFreePage : ℕ → Option ℕ} {getFreePages : ℕ → ℕ → Option ℕ} {arena : ℕ}
  {σ : Slob.Session} {runs : List Block} {size : BitVec 32}

/-- An address of a live block is in no other, and not free. -/
theorem alone_of_mem (hs : Supply getFreePage arena) {s : Slob} {x : Block} {live : List Block}
    (h : Reachable getFreePage arena (fun σ op => σ.Spares arena op) ⟨s, x :: live⟩) {a : ℕ}
    (ha : x.Has a) : Obtained getFreePage s.calls a ∧ ¬Covers live a ∧
      ∃ bs, FreeCycle s ((arena, 8) :: bs) ∧ ¬Covers ((arena, 8) :: bs) a := by
  obtain ⟨bs, hi⟩ := h.inv hs
  have hc : Covers (x :: live) a := covers_cons.2 (.inl ha)
  have hob : Obtained getFreePage s.calls a := (hi.cover a).2 (.inr hc)
  refine ⟨hob, ?_, bs, hi.list, ?_⟩
  · rintro ⟨y, hy, hya⟩
    exact (List.pairwise_cons.1 hi.live).1 y hy a ha hya
  · intro hf
    rcases covers_cons.1 hf with harena | hbs
    · have := (hob.bounds hs).1
      simp only [Block.Has] at harena
      omega
    · exact hi.apart a hbs hc

variable (bigblocks : ℕ)

theorem lawful_small (hs : Supply getFreePage arena)
    (h : Reachable getFreePage arena (fun σ op => σ.Spares arena op) σ)
    (hal : Allots getFreePage getFreePages arena σ.heap.calls runs) (hpos : 0 < size.toNat)
    (hlt : size.toNat < 4080) :
    Lawful getFreePage getFreePages arena σ bigblocks runs size := by
  have hsize : 8 < size.toNat + slobUnit ∧ size.toNat + slobUnit + slobUnit < pageSize := by
    simp only [slobUnit, pageSize]
    omega
  obtain ⟨s, r, he, hcalls, hr⟩ := h.slobAlloc hs hsize.1 hsize.2
  refine ⟨⟨s, bigblocks⟩, r.map (· + slobUnit), ?_, fun p hp => ?_⟩
  · rw [kmalloc, if_pos (by simp only [slobUnit, pageSize]; omega), he]
    rfl
  · obtain ⟨m, rfl, rfl⟩ := Option.map_eq_some_iff.1 hp
    refine ⟨_, _, .slob he rfl, fun a hle hlt => ?_⟩
    have hhas : Block.Has (m, slobUnit * slobUnits (size.toNat + slobUnit)) a := by
      simp only [Block.Has, slobUnits, slobUnit] at *
      omega
    obtain ⟨hob, hlive, hfree⟩ := alone_of_mem hs hr hhas
    exact ⟨hhas, hlive, fun hc => hal.kept hc (obtained_mono hcalls hob), hfree⟩

theorem lawful_zero (hs : Supply getFreePage arena)
    (h : Reachable getFreePage arena (fun σ op => σ.Spares arena op) σ) (hzero : size.toNat = 0) :
    Lawful getFreePage getFreePages arena σ bigblocks runs size := by
  obtain ⟨bs, hi⟩ := h.inv hs
  obtain ⟨⟨s, r⟩, he⟩ := hi.slobAlloc_unit hs
  have he' : σ.heap.slobAlloc getFreePage (size.toNat + slobUnit) = some (s, r) := by
    rw [hzero, Nat.zero_add, he]
  refine ⟨⟨s, bigblocks⟩, r.map (· + slobUnit), ?_, fun p hp => ?_⟩
  · rw [kmalloc, if_pos (by rw [hzero]; decide), he']
    rfl
  · obtain ⟨m, rfl, rfl⟩ := Option.map_eq_some_iff.1 hp
    exact ⟨_, _, .slob he' rfl, fun a hle hlt => by omega⟩

/-- `slob_free` takes back the record of a big block that got no pages. -/
theorem slobFree_record (hs : Supply getFreePage arena) {s : Slob} {bb : ℕ} {live : List Block}
    (h : Reachable getFreePage arena (fun σ op => σ.Spares arena op)
      ⟨s, (bb, slobUnit * slobUnits bigblockSize) :: live⟩) (order : ℕ) :
    ∃ s', ((s.setUnits bb order).setNext bb 0).slobFree bb bigblockSize = some s' := by
  have hpos : 0 < slobUnit * slobUnits bigblockSize := by decide
  have hcov : Covers ((bb, slobUnit * slobUnits bigblockSize) :: live) bb :=
    covers_cons.2 (.inl ⟨Nat.le_refl _, Nat.lt_add_of_pos_right hpos⟩)
  obtain ⟨bs, hi⟩ := (Reachable.step (.write bb order 0) h hcov trivial rfl).inv hs
  have hadm : Slob.Session.Admits ⟨(s.setUnits bb order).setNext bb 0,
      (bb, slobUnit * slobUnits bigblockSize) :: live⟩ (.free bb bigblockSize) :=
    List.mem_cons_self
  obtain ⟨σ', -, he, -⟩ := hi.free hs hadm
  cases hr : ((s.setUnits bb order).setNext bb 0).slobFree bb bigblockSize with
  | none => simp [Slob.Session.exec, hr] at he
  | some s' => exact ⟨s', rfl⟩

/-- The record of a big block is written into its own block of the heap. -/
theorem reachable_record {s : Slob} {bb : ℕ} {live : List Block}
    (h : Reachable getFreePage arena (fun σ op => σ.Spares arena op)
      ⟨s, (bb, slobUnit * slobUnits bigblockSize) :: live⟩) (order pages : ℕ) :
    Reachable getFreePage arena (fun σ op => σ.Spares arena op)
      ⟨((s.setUnits bb order).setNext bb pages).setUnits (bb + slobUnit) bigblocks,
        (bb, slobUnit * slobUnits bigblockSize) :: live⟩ := by
  have hcov : ∀ i < 2, Covers ((bb, slobUnit * slobUnits bigblockSize) :: live)
      (bb + slobUnit * i) := by
    intro i hi
    refine covers_cons.2 (.inl ?_)
    simp only [Block.Has, slobUnits, slobUnit, bigblockSize]
    omega
  refine .step (.write (bb + slobUnit) bigblocks
    (((s.setUnits bb order).setNext bb pages).next (bb + slobUnit)))
    (.step (.write bb order pages) h (hcov 0 (by decide)) trivial rfl) (hcov 1 (by decide))
    trivial ?_
  simp [Slob.Session.exec, setNext, setUnits]

theorem lawful_big (hs : Supply getFreePage arena)
    (h : Reachable getFreePage arena (fun σ op => σ.Spares arena op) σ)
    (hal : Allots getFreePage getFreePages arena σ.heap.calls runs) (hge : 4088 ≤ size.toNat)
    {order : ℕ} (horder : findOrder size = some order)
    (hfit : size.toNat ≤ pageSize * 2 ^ order) :
    Lawful getFreePage getFreePages arena σ bigblocks runs size := by
  have hlarge : ¬ size.toNat < pageSize - slobUnit := by
    simp only [pageSize, slobUnit]
    omega
  obtain ⟨s, r, he, hcalls, hr⟩ := h.slobAlloc hs (by decide : 8 < bigblockSize) (by decide)
  unfold Lawful
  rw [kmalloc, if_neg hlarge, he]
  cases r with
  | none => exact ⟨_, _, rfl, fun p hp => by cases hp⟩
  | some bb =>
    have hcalls' : (s.setUnits bb order).calls = s.calls := rfl
    simp only [Option.bind_eq_bind, Option.bind_some, horder, hcalls']
    cases hp : getFreePages s.calls order with
    | none =>
      obtain ⟨s', he'⟩ := slobFree_record hs hr order
      simp only [he', Option.bind_some]
      exact ⟨_, _, rfl, fun p hp => by cases hp⟩
    | some pages =>
      refine ⟨_, _, rfl, fun p hpp => ?_⟩
      obtain rfl := Option.some.inj hpp
      refine ⟨_, _, .pages horder hp, fun a hle hlt => ?_⟩
      have hhas : Block.Has (pages, pageSize * 2 ^ order) a := ⟨hle, by simp only; omega⟩
      obtain ⟨bs, hi⟩ := (reachable_record bigblocks hr order pages).inv hs
      have hnot : ¬Obtained getFreePage s.calls a := hal.heap hp hhas
      refine ⟨hhas, fun hc => hnot ((hi.cover a).2 (.inr hc)), hal.runs hp hhas, bs, hi.list, ?_⟩
      intro hf
      rcases covers_cons.1 hf with harena | hbs
      · have := hal.above hp
        simp only [Block.Has] at harena
        omega
      · exact hnot ((hi.cover a).2 (.inl hbs))

theorem kmallocLaw_of_roomy (h : Roomy size) : KmallocLaw sparing size := by
  intro getFreePage getFreePages arena σ bigblocks runs hs hr hal
  obtain ⟨hheader, hpos, hround⟩ := h
  rcases Nat.eq_zero_or_pos size.toNat with hzero | hnonzero
  · exact lawful_zero bigblocks hs hr hzero
  by_cases hsmall : size.toNat < 4080
  · exact lawful_small bigblocks hs hr hal hnonzero hsmall
  · obtain ⟨k, hk, hlt, -⟩ := findOrder_spec hpos
    refine lawful_big bigblocks hs hr hal (by omega) hk ?_
    have := hround k
    simp only [pageSize]
    omega

/-! ## Where it fails -/

/-- Runs of up to `2 ^ 18` pages, far above the heap. -/
def runsUp (_calls order : ℕ) : Option ℕ := if order ≤ 18 then some 0xa0000000 else none

theorem runsUp_allots : Allots pagesUp runsUp 0x80010004 0 [] := by
  have hp : ∀ {k order p}, runsUp k order = some p → p = 0xa0000000 := by
    intro k order p h
    unfold runsUp at h
    split_ifs at h
    exact (Option.some.inj h).symm
  refine ⟨?_, ?_, ?_, ?_⟩
  · rintro a ⟨x, hx, -⟩
    simp at hx
  · intro k order p h
    rw [hp h]
    decide
  · rintro k order p a h hhas ⟨i, -, page, hpage, hin⟩
    obtain rfl := hp h
    unfold pagesUp at hpage
    split_ifs at hpage
    simp only [Block.Has, pageSize, Option.some.injEq] at *
    omega
  · rintro k order p a h hhas ⟨x, hx, -⟩
    simp at hx

/-- At boot, with pages to be had, a large request gets the run of its order. -/
theorem kmalloc_boot (hge : 4088 ≤ size.toNat) {order : ℕ} (horder : findOrder size = some order)
    (hle : order ≤ 18) :
    ∃ k, kmalloc ⟨Slob.boot 0x80010004 (fun _ => 0) fun _ => 0, 0⟩ pagesUp runsUp size =
      some (k, some 0xa0000000) := by
  obtain ⟨s, bb, hbb⟩ : ∃ s bb, (Slob.boot 0x80010004 (fun _ => 0) fun _ => 0).slobAlloc pagesUp
      bigblockSize = some (s, some bb) := ⟨_, _, rfl⟩
  have hrun : ∀ calls, runsUp calls order = some 0xa0000000 := fun _ => if_pos hle
  have hlarge : ¬ size.toNat < pageSize - slobUnit := by
    simp only [pageSize, slobUnit]
    omega
  rw [kmalloc, if_neg hlarge, hbb]
  simp only [Option.bind_eq_bind, Option.bind_some, horder, hrun]
  exact ⟨_, rfl⟩

variable {P : ℕ → Slob.Session → Slob.Op → Prop}

/-- A run that is shorter than the size breaks the law. -/
theorem not_kmallocLaw_of_short (hge : 4088 ≤ size.toNat) {order : ℕ}
    (horder : findOrder size = some order) (hle : order ≤ 18)
    (hshort : pageSize * 2 ^ order < size.toNat) : ¬KmallocLaw P size := by
  intro hlaw
  obtain ⟨k, r, hk, hr⟩ := hlaw pagesUp runsUp 0x80010004 _ 0 [] pagesUp_supply
    (.boot (fun _ => 0) fun _ => 0) runsUp_allots
  obtain ⟨k', hk'⟩ := kmalloc_boot hge horder hle
  obtain ⟨-, rfl⟩ := Prod.mk.inj (Option.some.inj (hk.symm.trans hk'))
  obtain ⟨x, others, hback, hbytes⟩ := hr _ rfl
  obtain ⟨hhas, -⟩ := hbytes (0xa0000000 + pageSize * 2 ^ order) (by omega) (by omega)
  cases hback with
  | slob he _ =>
    rw [slobAlloc, if_neg (by simp only [slobUnit, pageSize]; omega)] at he
    cases he
  | pages ho _ =>
    obtain rfl := Option.some.inj (horder.symm.trans ho)
    simp only [Block.Has] at hhas
    omega

/-- A header that does not fit fails the assertion of `slob_alloc`. -/
theorem not_kmallocLaw_of_header (hge : 4080 ≤ size.toNat) (hlt : size.toNat < 4088) :
    ¬KmallocLaw P size := by
  intro hlaw
  obtain ⟨k, r, hk, -⟩ := hlaw pagesUp runsUp 0x80010004 _ 0 [] pagesUp_supply
    (.boot (fun _ => 0) fun _ => 0) runsUp_allots
  rw [kmalloc, if_pos (by simp only [slobUnit, pageSize]; omega), slobAlloc,
    if_neg (by simp only [slobUnit, pageSize]; omega)] at hk
  cases hk

theorem roomy_of_kmallocLaw (h : KmallocLaw P size) : Roomy size := by
  have hpos : size.toNat < 2 ^ 31 := by
    by_contra hneg
    refine not_kmallocLaw_of_short (by omega) (findOrder_neg (by omega)) (by decide) ?_ h
    simp only [pageSize]
    omega
  refine ⟨fun hh => not_kmallocLaw_of_header hh.1 hh.2 h, hpos, ?_⟩
  rintro k ⟨hgt, hlt⟩
  have hpow : 0 < 2 ^ k := Nat.two_pow_pos k
  obtain ⟨order, horder, hle, hmin⟩ := findOrder_spec hpos
  have hge : k ≤ order := by
    by_contra hlt'
    have : 2 ^ (order + 1) ≤ 2 ^ k := Nat.pow_le_pow_right (by omega) (by omega)
    rw [Nat.pow_succ] at this
    omega
  have hle' : order ≤ k := by
    by_contra hgt'
    have : 2 ^ (k + 1) ≤ 2 ^ order := Nat.pow_le_pow_right (by omega) (by omega)
    have := hmin (by omega)
    rw [Nat.pow_succ] at *
    omega
  obtain rfl : order = k := Nat.le_antisymm hle' hge
  have hle18 : order ≤ 18 := by
    by_contra hgt'
    have : 2 ^ 19 ≤ 2 ^ order := Nat.pow_le_pow_right (by omega) (by omega)
    omega
  exact not_kmallocLaw_of_short (by omega) horder hle18 hgt h

/-- After three `kmalloc(100)`, two `kfree` and `kmalloc(0)` the arena is out of the list, which one
block is left in; `kmalloc(3976)` takes it and leaves it in the list. -/
theorem reachable_arenaTaken : ∃ σ : Slob.Session, Reachable pagesUp 0x80010004
      (anyRun 0x80010004) σ ∧ (0x80100070, 3984) ∈ σ.live ∧
    ∃ s, σ.heap.slobAlloc pagesUp 3984 = some (s, some 0x80100070) := by
  obtain ⟨σ1, σ2, σ3, σ4, σ5, σ6, σ7, h1, h2, h3, h4, h5, h6, h7, hB, hC, hlive, s, hs⟩ :
      ∃ σ1 σ2 σ3 σ4 σ5 σ6 σ7 : Slob.Session,
        Slob.Session.exec ⟨Slob.boot 0x80010004 (fun _ => 0) fun _ => 0, []⟩ pagesUp (.alloc 108) =
          some σ1 ∧ σ1.exec pagesUp (.alloc 108) = some σ2 ∧
        σ2.exec pagesUp (.alloc 108) = some σ3 ∧ σ3.exec pagesUp (.free 0x80100070 108) = some σ4 ∧
        σ4.exec pagesUp (.free 0x801000e0 108) = some σ5 ∧ σ5.exec pagesUp (.alloc 8) = some σ6 ∧
        σ6.exec pagesUp (.alloc 3984) = some σ7 ∧ (0x80100070, 112) ∈ σ3.live ∧
        (0x801000e0, 112) ∈ σ4.live ∧ (0x80100070, 3984) ∈ σ7.live ∧
        ∃ s, σ7.heap.slobAlloc pagesUp 3984 = some (s, some 0x80100070) :=
    ⟨_, _, _, _, _, _, _, rfl, rfl, rfl, rfl, rfl, rfl, rfl, by decide, by decide, by decide, _, rfl⟩
  refine ⟨σ7, ?_, hlive, s, hs⟩
  have h108 : 108 + slobUnit < pageSize := by decide
  refine .step (.alloc 3984) (.step (.alloc 8) (.step (.free 0x801000e0 108)
    (.step (.free 0x80100070 108) (.step (.alloc 108) (.step (.alloc 108) (.step (.alloc 108)
    (.boot _ _) h108 trivial h1) h108 trivial h2) h108 trivial h3) hB trivial h4) hC trivial h5)
    ?_ trivial h6) ?_ trivial h7
  · exact (by decide : 8 + slobUnit < pageSize)
  · exact (by decide : 3984 + slobUnit < pageSize)

/-- Without the condition on the run a size that fits does not keep the law either. -/
theorem not_kmallocLaw_arenaTaken : ¬KmallocLaw anyRun 3976#32 := by
  intro hlaw
  obtain ⟨σ, hr, hlive, s, hs⟩ := reachable_arenaTaken
  obtain ⟨k, r, hk, hbytes⟩ := hlaw pagesUp (fun _ _ => none) 0x80010004 σ 0 [] pagesUp_supply hr
    ⟨fun h => absurd h (by simp [Covers]), nofun, nofun, nofun⟩
  rw [kmalloc, if_pos (by decide), show (3976#32).toNat + slobUnit = 3984 from rfl, hs] at hk
  obtain ⟨rfl, rfl⟩ := Prod.mk.inj (Option.some.inj hk)
  obtain ⟨x, others, hback, hx⟩ := hbytes _ rfl
  cases hback with
  | slob =>
    refine (hx 0x80100078 (by decide) (by decide)).2.1 ⟨_, hlive, by decide⟩
  | pages ho hp => cases hp

/-- In the runs that spare the arena `kmalloc` keeps its law exactly for the sizes whose header fits
in a page with them, that are no negative `int`s, and that are not just above a power of two. -/
theorem kmalloc_law (size : BitVec 32) : KmallocLaw sparing size ↔ Roomy size :=
  ⟨roomy_of_kmallocLaw, kmallocLaw_of_roomy⟩

/-- A header too many, two pages for one byte more than two, one page for 2 GiB, and one block
handed out twice. -/
theorem not_kmalloc_law : ¬KmallocLaw anyRun 4080#32 ∧ ¬KmallocLaw anyRun 8193#32 ∧
    ¬KmallocLaw anyRun 0x80000000#32 ∧ ¬KmallocLaw anyRun 3976#32 := by
  refine ⟨not_kmallocLaw_of_header (by decide) (by decide), ?_, ?_, not_kmallocLaw_arenaTaken⟩
  · exact not_kmallocLaw_of_short (by decide) (by decide : findOrder 8193#32 = some 1) (by decide)
      (by decide)
  · exact not_kmallocLaw_of_short (by decide) (findOrder_neg (by decide)) (by decide) (by decide)

end Law

end Kheap

end Ucore

end CacheCPU
