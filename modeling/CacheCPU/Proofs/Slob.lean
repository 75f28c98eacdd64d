import CacheCPU.Lib.LinkCycle
import CacheCPU.Proofs.FirstFit
import CacheCPU.Ucore.Kmalloc

/-!
# The SLOB heap

The free blocks form one cycle, in the order of their addresses but for the step from the last one
back to the arena. `slob_free` puts a block where it belongs in that order, whichever block
`slobfree` points to, and `slob_alloc` goes round once, and once more after it has got a page.
-/

namespace CacheCPU

namespace Ucore

namespace Slob

open FreeArea LinkCycle
open Session (NoOverlap)

/-! ## The free list -/

variable {s s' : Slob} {ns pre post : List Block} {b n : ℕ} {c x y : Block}

/-- The free list from its lowest block on, with the sizes in bytes. No two blocks touch. -/
structure FreeCycle (s : Slob) (ns : List Block) : Prop where
  cycle : IsCycle s.next (ns.map Prod.fst)
  sorted : ns.Pairwise Block.Before
  size : ∀ b ∈ ns, slobUnit * s.units b.1 = b.2
  pos : ∀ b ∈ ns, 0 < b.2
  free : s.slobfree ∈ ns.map Prod.fst

theorem FreeCycle.nodup (h : FreeCycle s ns) : (ns.map Prod.fst).Nodup :=
  FreeList.nodup_heads h.sorted

theorem FreeCycle.next_mid (h : FreeCycle s (pre ++ c :: y :: post)) : s.next c.1 = y.1 := by
  have hc := h.cycle
  rw [List.map_append, List.map_cons, List.map_cons] at hc
  exact hc.next_mid

theorem FreeCycle.next_last (h : FreeCycle s (x :: ns)) (hc : x :: ns = pre ++ [c]) :
    s.next c.1 = x.1 := by
  have hm : x.1 :: ns.map Prod.fst = pre.map Prod.fst ++ [c.1] := by
    simpa using congrArg (List.map Prod.fst) hc
  exact IsCycle.next_last h.cycle hm

/-- Words outside the free blocks do not matter. -/
theorem FreeCycle.congr (h : FreeCycle s ns) (hn : ∀ x ∈ ns, s'.next x.1 = s.next x.1)
    (hu : ∀ x ∈ ns, s'.units x.1 = s.units x.1) (hf : s'.slobfree = s.slobfree) :
    FreeCycle s' ns := by
  refine ⟨h.cycle.congr fun a ha => ?_, h.sorted, fun x hx => ?_, h.pos, hf ▸ h.free⟩
  · obtain ⟨x, hx, rfl⟩ := List.mem_map.1 ha
    exact hn x hx
  · rw [hu x hx]
    exact h.size x hx

/-! ## The loop of `slob_free` -/

/-- `c` is the block that `b` belongs after. -/
structure Spot (b : ℕ) (pre : List Block) (c : Block) (post : List Block) : Prop where
  below : ∀ x ∈ pre ++ [c], x.1 < b
  above : ∀ x ∈ post, b < x.1

theorem Before.lt (h : Block.Before c y) : c.1 < y.1 := by
  simp only [Block.Before] at h
  omega

theorem FreeCycle.head_le (h : FreeCycle s (y :: ns)) (hns : y :: ns = pre ++ x :: post) :
    y.1 ≤ x.1 := by
  cases pre with
  | nil =>
    obtain ⟨rfl, -⟩ := List.cons.inj hns
    exact le_refl _
  | cons z pre =>
    obtain ⟨rfl, rfl⟩ := List.cons.inj hns
    exact Nat.le_of_lt (Before.lt ((List.pairwise_cons.1 h.sorted).1 x (by simp)))

/-- From a block below `b` the loop goes up to the spot. -/
theorem findSpot_up (h : FreeCycle s (y :: ns)) (hy : y.1 < b) (hne : ∀ z ∈ ns, z.1 ≠ b)
    (hns : y :: ns = pre ++ x :: post) (hx : x.1 < b) {fuel : ℕ} (hfuel : post.length < fuel) :
    ∃ pre' c post', y :: ns = pre' ++ c :: post' ∧ Spot b pre' c post'
      ∧ s.findSpot b fuel x.1 = some c.1 := by
  have hbelow : ∀ z ∈ pre ++ [x], z.1 < b := by
    have hs := h.sorted
    rw [hns] at hs
    intro z hz
    rcases List.mem_append.1 hz with hz | hz
    · have := Before.lt ((List.pairwise_append.1 hs).2.2 z hz x (by simp))
      omega
    · rwa [List.mem_singleton.1 hz]
  induction post generalizing pre x fuel with
  | nil =>
    obtain ⟨fuel, rfl⟩ : ∃ k, fuel = k + 1 := ⟨fuel - 1, by omega⟩
    have hnext := h.next_last hns
    have hle := h.head_le hns
    refine ⟨pre, x, [], hns, ⟨hbelow, by simp⟩, ?_⟩
    rw [findSpot, hnext, if_neg (by omega), if_pos ⟨hle, .inl hx⟩]
  | cons z post ih =>
    obtain ⟨fuel, rfl⟩ : ∃ k, fuel = k + 1 := ⟨fuel - 1, by omega⟩
    have h' := h
    rw [hns] at h'
    have hnext := h'.next_mid
    have hxz : x.1 < z.1 := Before.lt
      ((List.pairwise_cons.1 (List.pairwise_append.1 h'.sorted).2.1).1 z (by simp))
    have hns' : y :: ns = (pre ++ [x]) ++ z :: post := by simpa using hns
    have hzb : z.1 ≠ b := by
      have hz : z ∈ y :: ns := by simp [hns]
      rcases List.mem_cons.1 hz with rfl | hz
      · omega
      · exact hne z hz
    rw [findSpot, hnext]
    by_cases hz : z.1 < b
    · rw [if_neg (by omega), if_neg (by omega)]
      refine ih hns' hz (by simpa using hfuel) fun w hw => ?_
      rcases List.mem_append.1 hw with hw | hw
      · exact hbelow w hw
      · rwa [List.mem_singleton.1 hw]
    · refine ⟨pre, x, z :: post, hns, ⟨hbelow, fun w hw => ?_⟩, if_pos ⟨hx, by omega⟩⟩
      rcases List.mem_cons.1 hw with rfl | hw
      · omega
      · have := Before.lt ((List.pairwise_cons.1 (List.pairwise_cons.1
          (List.pairwise_append.1 h'.sorted).2.1).2).1 w hw)
        omega

/-- From anywhere else it goes round to the lowest block first. -/
theorem findSpot_spec (h : FreeCycle s (y :: ns)) (hy : y.1 < b) (hne : ∀ z ∈ ns, z.1 ≠ b)
    (hns : y :: ns = pre ++ x :: post) {fuel : ℕ}
    (hfuel : post.length + ns.length + 1 < fuel) :
    ∃ pre' c post', y :: ns = pre' ++ c :: post' ∧ Spot b pre' c post'
      ∧ s.findSpot b fuel x.1 = some c.1 := by
  by_cases hx : x.1 < b
  · exact findSpot_up h hy hne hns hx (by omega)
  have hxb : b < x.1 := by
    have hm : x ∈ y :: ns := by simp [hns]
    rcases List.mem_cons.1 hm with rfl | hm
    · omega
    · have := hne x hm
      omega
  clear hx
  induction post generalizing pre x fuel with
  | nil =>
    obtain ⟨fuel, rfl⟩ : ∃ k, fuel = k + 1 := ⟨fuel - 1, by omega⟩
    have hnext := h.next_last hns
    rw [findSpot, hnext, if_neg (by omega), if_neg (by omega)]
    exact findSpot_up h hy hne (show y :: ns = [] ++ y :: ns from rfl) hy (by simpa using hfuel)
  | cons z post ih =>
    obtain ⟨fuel, rfl⟩ : ∃ k, fuel = k + 1 := ⟨fuel - 1, by omega⟩
    have h' := h
    rw [hns] at h'
    have hnext := h'.next_mid
    have hxz : x.1 < z.1 := Before.lt
      ((List.pairwise_cons.1 (List.pairwise_append.1 h'.sorted).2.1).1 z (by simp))
    have hns' : y :: ns = (pre ++ [x]) ++ z :: post := by simpa using hns
    rw [findSpot, hnext, if_neg (by omega), if_neg (by omega)]
    exact ih hns' (by simp only [List.length_cons] at hfuel; omega) (by omega)

/-! ## Joining a block to its neighbours -/

/-- The words of other blocks are left alone. -/
def SameBut (s s' : Slob) (W : ℕ → Prop) : Prop :=
  (∀ a, ¬W a → s'.units a = s.units a ∧ s'.next a = s.next a) ∧ s'.calls = s.calls

/-- What `joinNext` leaves: a block of `n'` bytes at `b` and the blocks `post'` above it, with the
link that would take `c` past `b`. -/
structure Joined (s s' : Slob) (b n' : ℕ) (pre : List Block) (c : Block) (post' : List Block) :
    Prop where
  same : SameBut s s' (· = b)
  free : s'.slobfree = s.slobfree
  units : slobUnit * s'.units b = n'
  cycle : IsCycle (Function.update s.next c.1 (s'.next b)) ((pre ++ c :: post').map Prod.fst)
  sorted : (pre ++ c :: post').Pairwise Block.Before
  before : ∀ x ∈ post', Block.Before (b, n') x

theorem joinNext_spec (h : FreeCycle s (pre ++ c :: post)) (hn : slobUnit * s.units b = n)
    (hb : b ∉ (pre ++ c :: post).map Prod.fst) (habove : ∀ x ∈ post, b + n ≤ x.1)
    (hlast : post = [] → b + n ≠ s.next c.1) :
    ∃ n' post', Joined s (s.joinNext c.1 b) b n' pre c post' ∧ n ≤ n' ∧ (∀ x ∈ post', x ∈ post)
      ∧ (∀ p, Block.Has (b, n') p ∨ Covers post' p ↔ Block.Has (b, n) p ∨ Covers post p)
      ∧ post'.length ≤ post.length := by
  have hcb : c.1 ≠ b := fun he => hb (by simp [he])
  unfold joinNext
  rw [hn]
  split_ifs with ht
  · -- the next block starts where `b` ends, so it is one above `c`
    obtain ⟨z, post, rfl⟩ := List.exists_cons_of_ne_nil fun hp => hlast hp ht
    have hz := h.next_mid
    have hzb : z.1 ≠ b := fun he => hb (by simp [he])
    have hsz := h.size z (by simp)
    have hs := List.pairwise_append.1 h.sorted
    have hs2 := List.pairwise_cons.1 hs.2.1
    have hs3 := List.pairwise_cons.1 hs2.2
    refine ⟨n + z.2, post, ⟨⟨fun a ha => ?_, rfl⟩, rfl, ?_, ?_, ?_, fun x hx => ?_⟩, by omega,
      fun x hx => by simp [hx], fun p => ?_, by simp⟩
    · simp [setNext, setUnits, ha]
    · simp only [setNext, setUnits, Function.update_self, hz]
      rw [Nat.mul_add, hn, hsz]
    · have hcyc := h.cycle
      have hnd := h.nodup
      simp only [List.map_append, List.map_cons] at hcyc hnd ⊢
      refine hcyc.remove hnd ?_ fun a _ hac _ => Function.update_of_ne hac _ _
      rw [Function.update_self]
      simp [setNext, setUnits, hz]
    · refine List.pairwise_append.2 ⟨hs.1, List.pairwise_cons.2 ⟨fun x hx => hs2.1 x (by simp [hx]),
        hs3.2⟩, fun x hx w hw => hs.2.2 x hx w ?_⟩
      rcases List.mem_cons.1 hw with rfl | hw
      · simp
      · simp [hw]
    · have := hs3.1 x hx
      simp only [Block.Before] at this ⊢
      omega
    · rw [covers_cons, ← or_assoc]
      refine or_congr_left ?_
      simp only [Block.Has]
      omega
  · refine ⟨n, post, ⟨⟨fun a ha => ?_, rfl⟩, rfl, hn, ?_, h.sorted, fun x hx => ?_⟩, le_refl n,
      fun x hx => hx, fun p => Iff.rfl, le_refl _⟩
    · simp [setNext, ha]
    · refine h.cycle.congr fun a _ => ?_
      by_cases hac : a = c.1
      · rw [hac, Function.update_self]
        simp [setNext]
      · rw [Function.update_of_ne hac]
    · -- the first block above `b` does not touch it, and the others are higher still
      have h1 := habove x hx
      simp only [Block.Before]
      cases post with
      | nil => simp at hx
      | cons z post =>
        have hz := h.next_mid
        rcases List.mem_cons.1 hx with rfl | hx
        · omega
        · have h2 := Before.lt ((List.pairwise_cons.1 (List.pairwise_cons.1
            (List.pairwise_append.1 h.sorted).2.1).2).1 x hx)
          have h3 := habove z (by simp)
          omega

theorem mem_middle {z : Block} : z ∈ pre ++ x :: post ↔ z = x ∨ z ∈ pre ++ post := by
  simp only [List.mem_append, List.mem_cons]
  exact or_left_comm

theorem mem_after {z : Block} : z ∈ pre ++ c :: x :: post ↔ z = x ∨ z ∈ pre ++ c :: post := by
  rw [List.append_cons, mem_middle, ← List.append_cons]

theorem covers_append {as bs : List Block} {p : ℕ} :
    Covers (as ++ bs) p ↔ Covers as p ∨ Covers bs p := by
  simp only [Covers, List.mem_append, or_and_right, exists_or]

section JoinPrev

variable {n' : ℕ} {post' : List Block} (hj : Joined s s' b n' pre c post')
include hj

/-- The addresses of the others differ from `c`. -/
theorem Joined.ne (hx : x ∈ pre ∨ x ∈ post') : x.1 ≠ c.1 := by
  have hs := List.pairwise_append.1 hj.sorted
  intro he
  rcases hx with hx | hx
  · have := Before.lt (hs.2.2 x hx c (by simp))
    omega
  · have := Before.lt ((List.pairwise_cons.1 hs.2.1).1 x hx)
    omega

variable (h : FreeCycle s (pre ++ c :: post)) (hsub : ∀ x ∈ post', x ∈ post)
  (hb : b ∉ (pre ++ c :: post).map Prod.fst)
include hsub hb

omit hj in
theorem mem_of_mem_joined (hx : x ∈ pre ++ c :: post') : x ∈ pre ++ c :: post ∧ x.1 ≠ b := by
  have hmem : x ∈ pre ++ c :: post := by
    simp only [List.mem_append, List.mem_cons] at hx ⊢
    rcases hx with hx | rfl | hx
    · exact .inl hx
    · exact .inr (.inl rfl)
    · exact .inr (.inr (hsub x hx))
  exact ⟨hmem, fun he => hb (List.mem_map.2 ⟨x, hmem, he⟩)⟩

omit hj in
theorem notMem_joined : b ∉ (pre ++ c :: post').map Prod.fst := by
  rintro hm
  obtain ⟨x, hx, he⟩ := List.mem_map.1 hm
  exact (mem_of_mem_joined hsub hb hx).2 he

include h

theorem Joined.size (hx : x ∈ pre ++ c :: post') : slobUnit * s'.units x.1 = x.2 := by
  obtain ⟨hmem, hne⟩ := mem_of_mem_joined hsub hb hx
  rw [(hj.same.1 x.1 hne).1]
  exact h.size x hmem

variable (hn' : 0 < n')
include hn'

/-- The block starts where `c` ends. -/
theorem joinPrev_join (ht : c.1 + c.2 = b) :
    FreeCycle { s'.joinPrev c.1 b with slobfree := c.1 } (pre ++ (c.1, c.2 + n') :: post')
      ∧ SameBut s' { s'.joinPrev c.1 b with slobfree := c.1 } (· = c.1) := by
  have hb' := notMem_joined hsub hb
  have hs := List.pairwise_append.1 hj.sorted
  have hs2 := List.pairwise_cons.1 hs.2.1
  have hsize : ∀ x ∈ pre ++ c :: post', slobUnit * s'.units x.1 = x.2 :=
    fun x hx => hj.size h hsub hb hx
  unfold joinPrev
  rw [hsize c (by simp), if_pos ht]
  refine ⟨⟨?_, ?_, fun x hx => ?_, fun x hx => ?_, by simp⟩, fun a ha => ?_, rfl⟩
  · have hm : (pre ++ (c.1, c.2 + n') :: post').map Prod.fst = (pre ++ c :: post').map Prod.fst := by
      simp
    rw [hm]
    refine hj.cycle.congr fun a ha => ?_
    by_cases hac : a = c.1
    · simp [setNext, setUnits, hac]
    · have hab : a ≠ b := fun he => hb' (he ▸ ha)
      simp [setNext, setUnits, hac, (hj.same.1 a hab).2]
  · refine List.pairwise_append.2 ⟨hs.1, List.pairwise_cons.2 ⟨fun x hx => ?_, hs2.2⟩,
      fun x hx w hw => ?_⟩
    · have := hj.before x hx
      simp only [Block.Before] at this ⊢
      omega
    · rcases List.mem_cons.1 hw with rfl | hw
      · exact hs.2.2 x hx c (by simp)
      · exact hs.2.2 x hx w (by simp [hw])
  · rcases mem_middle.1 hx with rfl | hx
    · simp only [setNext, setUnits, Function.update_self]
      rw [Nat.mul_add, hsize c (by simp), hj.units]
    · simp only [setNext, setUnits, Function.update_of_ne (hj.ne (List.mem_append.1 hx))]
      exact hsize x (mem_middle.2 (.inr hx))
  · rcases mem_middle.1 hx with rfl | hx
    · simp only
      omega
    · exact h.pos x (mem_of_mem_joined hsub hb (mem_middle.2 (.inr hx))).1
  · simp [setNext, setUnits, ha]

/-- The block stands apart from `c`. -/
theorem joinPrev_apart (hlt : c.1 + c.2 < b) :
    FreeCycle { s'.joinPrev c.1 b with slobfree := c.1 } (pre ++ c :: (b, n') :: post')
      ∧ SameBut s' { s'.joinPrev c.1 b with slobfree := c.1 } (· = c.1) := by
  have hcb : c.1 ≠ b := by omega
  have hb' := notMem_joined hsub hb
  have hs := List.pairwise_append.1 hj.sorted
  have hs2 := List.pairwise_cons.1 hs.2.1
  have hnd : ((pre ++ c :: post').map Prod.fst).Nodup := FreeList.nodup_heads hj.sorted
  have hsize : ∀ x ∈ pre ++ c :: post', slobUnit * s'.units x.1 = x.2 :=
    fun x hx => hj.size h hsub hb hx
  unfold joinPrev
  rw [hsize c (by simp), if_neg (by omega)]
  refine ⟨⟨?_, ?_, fun x hx => ?_, fun x hx => ?_, by simp⟩, fun a ha => ?_, rfl⟩
  · have hcyc := hj.cycle
    simp only [List.map_append, List.map_cons] at hcyc hnd hb' ⊢
    refine hcyc.insert hnd ?_ ?_ fun a ha hac => ?_
    · rw [Function.update_self]
      simp [setNext, Ne.symm hcb]
    · simp [setNext]
    · have hab : a ≠ b := fun he => hb' (he ▸ ha)
      simp [setNext, hac, (hj.same.1 a hab).2]
  · refine List.pairwise_append.2 ⟨hs.1, List.pairwise_cons.2 ⟨fun x hx => ?_,
      List.pairwise_cons.2 ⟨hj.before, hs2.2⟩⟩, fun x hx w hw => ?_⟩
    · rcases List.mem_cons.1 hx with rfl | hx
      · simp only [Block.Before]
        omega
      · exact hs2.1 x hx
    · have hxc := hs.2.2 x hx c (by simp)
      rcases List.mem_cons.1 hw with rfl | hw
      · exact hxc
      · rcases List.mem_cons.1 hw with rfl | hw
        · simp only [Block.Before] at hxc ⊢
          omega
        · exact hs.2.2 x hx w (by simp [hw])
  · rcases mem_after.1 hx with rfl | hx
    · exact hj.units
    · exact hsize x hx
  · rcases mem_after.1 hx with rfl | hx
    · exact hn'
    · exact h.pos x (mem_of_mem_joined hsub hb hx).1
  · simp [setNext, ha]

theorem joinPrev_spec (hbelow : c.1 + c.2 ≤ b) :
    ∃ ns', FreeCycle { s'.joinPrev c.1 b with slobfree := c.1 } ns'
      ∧ SameBut s' { s'.joinPrev c.1 b with slobfree := c.1 } (· = c.1)
      ∧ (∀ p, Covers ns' p ↔ Covers pre p ∨ c.Has p ∨ Block.Has (b, n') p ∨ Covers post' p)
      ∧ (pre ≠ [] ∨ c.1 + c.2 ≠ b → ns'.head? = (pre ++ c :: post).head?)
      ∧ ns'.length ≤ pre.length + post'.length + 2 := by
  rcases Nat.eq_or_lt_of_le hbelow with ht | hlt
  · obtain ⟨hf, hsame⟩ := joinPrev_join hj h hsub hb hn' ht
    refine ⟨_, hf, hsame, fun p => ?_, fun hp => ?_, by simp; omega⟩
    · rw [covers_append, covers_cons]
      have : Block.Has (c.1, c.2 + n') p ↔ c.Has p ∨ Block.Has (b, n') p := by
        simp only [Block.Has]
        omega
      rw [this, or_assoc]
    · have hpre := hp.resolve_right fun hc => hc ht
      obtain ⟨w, pre, rfl⟩ := List.exists_cons_of_ne_nil hpre
      rfl
  · obtain ⟨hf, hsame⟩ := joinPrev_apart hj h hsub hb hn' hlt
    refine ⟨_, hf, hsame, fun p => ?_, fun _ => ?_, by simp; omega⟩
    · rw [covers_append, covers_cons, covers_cons]
    · cases pre <;> rfl

end JoinPrev

/-! ## `slob_free` -/

theorem not_covers_of_head (h : (x :: ns).Pairwise Block.Before) {p : ℕ} (hp : x.Has p) :
    ¬Covers ns p := by
  rintro ⟨z, hz, hzp⟩
  have := (List.pairwise_cons.1 h).1 z hz
  simp only [Block.Before, Block.Has] at *
  omega

/-- `slob_free` writes the size first. -/
theorem FreeCycle.setSize {bs : List Block} (h : FreeCycle s bs) {size : ℕ}
    (hmem : b ∉ bs.map Prod.fst)
    (hsize : slobUnit * (if size = 0 then s.units b else slobUnits size) = n) :
    ∃ s0, s0 = (if size ≠ 0 then s.setUnits b (slobUnits size) else s) ∧ FreeCycle s0 bs
      ∧ slobUnit * s0.units b = n ∧ SameBut s s0 (· = b) := by
  refine ⟨_, rfl, ?_, ?_, ?_⟩
  · split_ifs with hz
    · refine h.congr (fun _ _ => rfl) (fun x hx => ?_) rfl
      exact Function.update_of_ne (fun he => hmem (List.mem_map.2 ⟨x, hx, he⟩)) _ _
    · exact h
  · split_ifs with hz
    · rw [if_neg hz] at hsize
      simpa [setUnits] using hsize
    · rw [if_pos (not_not.1 hz)] at hsize
      exact hsize
  · split_ifs with hz
    · exact ⟨fun a ha => ⟨Function.update_of_ne ha _ _, rfl⟩, rfl⟩
    · exact ⟨fun _ _ => ⟨rfl, rfl⟩, rfl⟩

/-- A block that is apart from the free ones and above the arena fits between its neighbours. -/
theorem Spot.between {arena : ℕ} {bs : List Block} (hspot : Spot b pre c post)
    (hns : (arena, 8) :: bs = pre ++ c :: post) (hb : arena + 8 < b) (hpos : ∀ x ∈ bs, 0 < x.2)
    (hdisj : ∀ x ∈ bs, Block.Disjoint x (b, n)) :
    c.1 + c.2 ≤ b ∧ ∀ z ∈ post, b + n ≤ z.1 := by
  refine ⟨?_, fun z hz => ?_⟩
  · have hlt := hspot.below c (by simp)
    have hc : c ∈ (arena, 8) :: bs := by simp [hns]
    rcases List.mem_cons.1 hc with rfl | hc
    · exact Nat.le_of_lt hb
    · have := hdisj c hc
      simp only [Block.Disjoint] at this
      omega
  · have hlt := hspot.above z hz
    have hz' : z ∈ (arena, 8) :: bs := by simp [hns, hz]
    rcases List.mem_cons.1 hz' with rfl | hz'
    · simp only at hlt
      omega
    · have h3 := hdisj z hz'
      have h4 := hpos z hz'
      simp only [Block.Disjoint] at h3
      omega

theorem FreeCycle.slobFree {arena : ℕ} {bs : List Block}
    (h : FreeCycle s ((arena, 8) :: bs)) (size : ℕ) (hlen : 2 * bs.length + 2 < 2 ^ 34)
    (hb : arena + 8 < b) (hn : 0 < n) (hsize : slobUnit * (if size = 0 then s.units b else slobUnits size) = n)
    (hdisj : ∀ x ∈ bs, Block.Disjoint x (b, n)) :
    ∃ s' bs', s.slobFree b size = some s' ∧ FreeCycle s' ((arena, 8) :: bs')
      ∧ (∀ p, Covers bs' p ↔ Covers bs p ∨ Block.Has (b, n) p) ∧ bs'.length ≤ bs.length + 1
      ∧ SameBut s s' (fun a => a = b ∨ a ∈ ((arena, 8) :: bs).map Prod.fst) := by
  have hne : ∀ z ∈ bs, z.1 ≠ b := by
    intro z hz he
    have h1 := hdisj z hz
    have h2 := h.pos z (by simp [hz])
    simp only [Block.Disjoint] at h1
    omega
  have hmem : b ∉ ((arena, 8) :: bs).map Prod.fst := by
    simp only [List.map_cons, List.mem_cons, List.mem_map, not_or, not_exists, not_and]
    exact ⟨by omega, hne⟩
  obtain ⟨s0, hs0, h0, hu0, hsame0⟩ := h.setSize hmem hsize
  obtain ⟨x, hx, hxf⟩ := List.mem_map.1 h0.free
  obtain ⟨p1, p2, hsplit⟩ := List.append_of_mem hx
  have hlen2 : p2.length ≤ bs.length := by
    have := congrArg List.length hsplit
    simp only [List.length_cons, List.length_append] at this
    omega
  obtain ⟨pre, c, post, hns, hspot, hfind⟩ := findSpot_spec (b := b) h0 (by simp only; omega) hne
    hsplit (show p2.length + bs.length + 1 < 2 ^ 34 by omega)
  have h1 := h0
  rw [hns] at h1 hmem
  have hc : c ∈ (arena, 8) :: bs := by simp [hns]
  obtain ⟨hbelow, habove⟩ := hspot.between hns hb (fun z hz => h.pos z (by simp [hz])) hdisj
  have hlast : post = [] → b + n ≠ s0.next c.1 := by
    rintro rfl
    rw [h0.next_last hns]
    simp only
    omega
  obtain ⟨n', post', hj, hn', hsub, hcov, hl1⟩ := joinNext_spec h1 hu0 hmem habove hlast
  obtain ⟨ns', hf, hsame, hcov', hhead, hl2⟩ := joinPrev_spec hj h1 hsub hmem (by omega) hbelow
  have hhead' : ns'.head? = some (arena, 8) := by
    rw [hhead, ← hns]
    · rfl
    · cases pre with
      | nil =>
        obtain ⟨rfl, -⟩ := List.cons.inj hns
        exact .inr (Nat.ne_of_lt hb)
      | cons w pre => exact .inl (by simp)
  obtain ⟨bs', rfl⟩ : ∃ bs', ns' = (arena, 8) :: bs' := by
    cases ns' with
    | nil => simp at hhead'
    | cons w bs' => exact ⟨bs', by rw [Option.some.inj hhead']⟩
  refine ⟨_, bs', ?_, hf, fun p => ?_, ?_, ?_⟩
  · rw [Slob.slobFree, if_neg (by omega), ← hs0]
    simp only [← hxf, hfind, Option.bind_eq_bind, Option.bind_some]
    rfl
  · have hall : Covers ((arena, 8) :: bs') p ↔ Covers ((arena, 8) :: bs) p ∨ Block.Has (b, n) p := by
      rw [hcov', hns, covers_append, covers_cons, hcov]
      simp only [or_assoc, or_comm (a := Block.Has (b, n) p)]
    rw [covers_cons, covers_cons] at hall
    by_cases hp : Block.Has (arena, 8) p
    · have h3 := not_covers_of_head hf.sorted hp
      have h4 := not_covers_of_head h.sorted hp
      have h5 : ¬Block.Has (b, n) p := by
        simp only [Block.Has] at hp ⊢
        omega
      exact iff_of_false h3 (not_or.2 ⟨h4, h5⟩)
    · simpa only [hp, false_or] using hall
  · have := congrArg List.length hns
    simp only [List.length_cons, List.length_append] at this hl2
    omega
  · have hcm : c.1 ∈ ((arena, 8) :: bs).map Prod.fst := List.mem_map.2 ⟨c, hc, rfl⟩
    refine ⟨fun a ha => ?_, ?_⟩
    · rw [not_or] at ha
      have hac : a ≠ c.1 := fun he => ha.2 (he ▸ hcm)
      have e1 := hsame.1 a hac
      have e2 := hj.same.1 a ha.1
      have e3 := hsame0.1 a ha.1
      exact ⟨e1.1.trans (e2.1.trans e3.1), e1.2.trans (e2.2.trans e3.2)⟩
    · exact hsame.2.trans (hj.same.2.trans hsame0.2)

/-! ## `slob_alloc` -/

theorem takeUnits_exact {u : ℕ} (hu : s.units y.1 = u) :
    s.takeUnits u c.1 y.1 = { s.setNext c.1 (s.next y.1) with slobfree := c.1 } := by
  rw [takeUnits, if_pos hu]

theorem takeUnits_fragment {u : ℕ} (hu : s.units y.1 ≠ u) (hyc : y.1 ≠ c.1) :
    s.takeUnits u c.1 y.1 =
      { units := Function.update (Function.update s.units (y.1 + slobUnit * u) (s.units y.1 - u)) y.1 u
        next := Function.update (Function.update s.next c.1 (y.1 + slobUnit * u))
          (y.1 + slobUnit * u) (s.next y.1)
        slobfree := c.1
        calls := s.calls } := by
  rw [takeUnits, if_neg hu]
  simp [setNext, setUnits, hyc]

section TakeUnits

variable {u : ℕ} (h : FreeCycle s (pre ++ c :: y :: post))
include h

theorem FreeCycle.next_ne : y.1 ≠ c.1 := by
  have := Before.lt
    ((List.pairwise_cons.1 (List.pairwise_append.1 h.sorted).2.1).1 y (by simp))
  omega

/-- The list without `y`. -/
theorem FreeCycle.unlinked : IsCycle (Function.update s.next c.1 (s.next y.1))
      ((pre ++ c :: post).map Prod.fst)
    ∧ (pre ++ c :: post).Pairwise Block.Before
    ∧ ∀ x ∈ pre ++ c :: post, x ∈ pre ++ c :: y :: post ∧ x.1 ≠ y.1 := by
  have hs := List.pairwise_append.1 h.sorted
  have hs3 := List.pairwise_cons.1 (List.pairwise_cons.1 hs.2.1).2
  refine ⟨?_, ?_, fun x hx => ?_⟩
  · have hcyc := h.cycle
    have hnd := h.nodup
    simp only [List.map_append, List.map_cons] at hcyc hnd ⊢
    exact hcyc.remove hnd (Function.update_self _ _ _) fun a _ hac _ =>
      Function.update_of_ne hac _ _
  · refine h.sorted.sublist ?_
    exact (List.sublist_cons_self y post).cons_cons c |>.append_left pre
  · rcases List.mem_append.1 hx with hx | hx
    · have := Before.lt (hs.2.2 x hx y (by simp))
      exact ⟨by simp [hx], by omega⟩
    · rcases List.mem_cons.1 hx with rfl | hx
      · exact ⟨by simp, h.next_ne.symm⟩
      · have := Before.lt (hs3.1 x hx)
        exact ⟨by simp [hx], by omega⟩

/-- The block is taken whole. -/
theorem FreeCycle.takeUnits_whole (hu : s.units y.1 = u) :
    FreeCycle (s.takeUnits u c.1 y.1) (pre ++ c :: post)
      ∧ SameBut s (s.takeUnits u c.1 y.1) (· = c.1) ∧ (s.takeUnits u c.1 y.1).units y.1 = u := by
  obtain ⟨hcyc, hsorted, hold⟩ := h.unlinked
  rw [takeUnits_exact hu]
  exact ⟨⟨hcyc, hsorted, fun x hx => h.size x (hold x hx).1, fun x hx => h.pos x (hold x hx).1,
    by simp⟩, ⟨fun a ha => ⟨rfl, Function.update_of_ne ha _ _⟩, rfl⟩, hu⟩

/-- The end of the block stays. -/
theorem FreeCycle.takeUnits_part (hu : 0 < u) (hlt : u < s.units y.1) {r : ℕ}
    (hr : y.1 + slobUnit * u = r) :
    FreeCycle (s.takeUnits u c.1 y.1) (pre ++ c :: (r, y.2 - slobUnit * u) :: post)
      ∧ SameBut s (s.takeUnits u c.1 y.1) (fun a => a = c.1 ∨ a = y.1 ∨ a = r)
      ∧ (s.takeUnits u c.1 y.1).units y.1 = u := by
  obtain ⟨hrem, hsorted, hold⟩ := h.unlinked
  have hyc := h.next_ne
  have hsy := h.size y (by simp)
  have hs := List.pairwise_append.1 h.sorted
  have hs2 := List.pairwise_cons.1 hs.2.1
  have hs3 := List.pairwise_cons.1 hs2.2
  have hcy := Before.lt (hs2.1 y (by simp))
  have hlt' : slobUnit * u < y.2 := by
    rw [← hsy]
    exact Nat.mul_lt_mul_of_pos_left hlt (by decide)
  have hn0 : 0 < slobUnit * u := Nat.mul_pos (by decide) hu
  have hfar : ∀ x ∈ pre ++ c :: post, x.1 ≠ r := by
    intro x hx he
    rcases List.mem_append.1 hx with hx | hx
    · have := Before.lt (hs.2.2 x hx y (by simp))
      omega
    · rcases List.mem_cons.1 hx with rfl | hx
      · omega
      · have := hs3.1 x hx
        simp only [Block.Before] at this
        omega
  have hcr := hfar c (by simp)
  rw [takeUnits_fragment (by omega) hyc, hr]
  refine ⟨⟨?_, ?_, fun x hx => ?_, fun x hx => ?_, by simp⟩, ⟨fun a ha => ?_, rfl⟩,
    Function.update_self _ _ _⟩
  · have hnd : ((pre ++ c :: post).map Prod.fst).Nodup := FreeList.nodup_heads hsorted
    simp only [List.map_append, List.map_cons] at hrem hnd ⊢
    refine hrem.insert hnd ?_ ?_ fun a ha hac => ?_
    · rw [Function.update_self, Function.update_self]
    · rw [Function.update_of_ne hcr, Function.update_self]
    · have har : a ≠ r := by
        have ha' : a ∈ (pre ++ c :: post).map Prod.fst := by simpa using ha
        obtain ⟨x, hx, rfl⟩ := List.mem_map.1 ha'
        exact hfar x hx
      rw [Function.update_of_ne har, Function.update_of_ne hac, Function.update_of_ne hac]
  · have hp := List.pairwise_append.1 hsorted
    have hp2 := List.pairwise_cons.1 hp.2.1
    refine List.pairwise_append.2 ⟨hp.1, List.pairwise_cons.2 ⟨fun x hx => ?_,
      List.pairwise_cons.2 ⟨fun x hx => ?_, hp2.2⟩⟩, fun x hx w hw => ?_⟩
    · rcases List.mem_cons.1 hx with rfl | hx
      · have := hs2.1 y (by simp)
        simp only [Block.Before] at this ⊢
        omega
      · exact hp2.1 x hx
    · have := hs3.1 x hx
      simp only [Block.Before] at this ⊢
      omega
    · rcases List.mem_cons.1 hw with rfl | hw
      · exact hp.2.2 x hx _ (by simp)
      · rcases List.mem_cons.1 hw with rfl | hw
        · have := hs.2.2 x hx y (by simp)
          simp only [Block.Before] at this ⊢
          omega
        · exact hp.2.2 x hx w (by simp [hw])
  · rcases mem_after.1 hx with rfl | hx
    · have hry : r ≠ y.1 := by omega
      simp only [Function.update_of_ne hry, Function.update_self]
      rw [Nat.mul_sub, hsy]
    · simp only [Function.update_of_ne (hold x hx).2, Function.update_of_ne (hfar x hx)]
      exact h.size x (hold x hx).1
  · rcases mem_after.1 hx with rfl | hx
    · simp only
      omega
    · exact h.pos x (hold x hx).1
  · rw [not_or, not_or] at ha
    simp only [Function.update_of_ne ha.1, Function.update_of_ne ha.2.1,
      Function.update_of_ne ha.2.2, and_self]

theorem FreeCycle.takeUnits (hu : 0 < u) (hle : u ≤ s.units y.1) :
    FreeCycle (s.takeUnits u c.1 y.1) (pre ++ c :: remainder (slobUnit * u) y ++ post)
      ∧ SameBut s (s.takeUnits u c.1 y.1)
        (fun a => a = c.1 ∨ a = y.1 ∨ a ∈ (remainder (slobUnit * u) y).map Prod.fst)
      ∧ (s.takeUnits u c.1 y.1).units y.1 = u := by
  have hsy := h.size y (by simp)
  rcases Nat.eq_or_lt_of_le hle with heq | hlt
  · have hnil : remainder (slobUnit * u) y = [] := if_neg (by rw [heq, hsy]; omega)
    obtain ⟨hf, hsame, htaken⟩ := h.takeUnits_whole heq.symm
    rw [hnil]
    simp only [List.append_assoc, List.cons_append, List.nil_append]
    exact ⟨hf, ⟨fun a ha => hsame.1 a fun he => ha (.inl he), hsame.2⟩, htaken⟩
  · have hrest : remainder (slobUnit * u) y = [(y.1 + slobUnit * u, y.2 - slobUnit * u)] :=
      if_pos (by rw [← hsy]; exact Nat.mul_lt_mul_of_pos_left hlt (by decide))
    rw [hrest]
    simp only [List.append_assoc, List.cons_append, List.nil_append, List.map_cons, List.map_nil,
      List.mem_singleton]
    exact h.takeUnits_part hu hlt rfl

end TakeUnits

section Scan

variable {getFreePage : ℕ → Option ℕ} {size fuel : ℕ}

/-- The branch of the loop that has come round to `slobfree`. -/
def askPage (getFreePage : ℕ → Option ℕ) (size fuel : ℕ) (s : Slob) :
    Option (Slob × Option ℕ) :=
  if size = pageSize then some (s, none)
  else
    match getFreePage s.calls with
    | none => some ({ s with calls := s.calls + 1 }, none)
    | some page => do
      let s ← { s with calls := s.calls + 1 }.slobFree page pageSize
      allocFrom getFreePage size fuel s s.slobfree (s.next s.slobfree)

variable (getFreePage size fuel) in
/-- The scan from `a` on to `slobfree`: it takes the first block that is large enough. -/
theorem allocFrom_scan {a : ℕ} {xs : List ℕ} (hseg : Seg s.next a xs s.slobfree)
    (hxs : s.slobfree ∉ xs) :
    (∃ ys x zs w, xs ++ [s.slobfree] = ys ++ x :: zs ∧ slobUnits size ≤ s.units x
        ∧ (∀ y ∈ ys, s.units y < slobUnits size) ∧ s.next w = x ∧ w ∈ a :: xs
        ∧ allocFrom getFreePage size (fuel + xs.length + 1) s a (s.next a)
          = some (s.takeUnits (slobUnits size) w x, some x)) ∨
      ((∀ y ∈ xs ++ [s.slobfree], s.units y < slobUnits size)
        ∧ allocFrom getFreePage size (fuel + xs.length + 1) s a (s.next a)
          = askPage getFreePage size fuel s) := by
  induction xs generalizing a with
  | nil =>
    have hnext : s.next a = s.slobfree := hseg
    by_cases hu : slobUnits size ≤ s.units s.slobfree
    · refine .inl ⟨[], s.slobfree, [], a, rfl, hu, by simp, hnext, by simp, ?_⟩
      rw [hnext, List.length_nil, allocFrom, if_pos hu]
    · refine .inr ⟨by simpa using hu, ?_⟩
      rw [hnext, List.length_nil, allocFrom, if_neg hu, if_pos rfl]
      rfl
  | cons x xs ih =>
    obtain ⟨hnext, hseg'⟩ := hseg
    rw [List.mem_cons, not_or] at hxs
    rw [hnext, show fuel + (x :: xs).length + 1 = fuel + xs.length + 1 + 1 by simp; omega, allocFrom]
    by_cases hu : slobUnits size ≤ s.units x
    · refine .inl ⟨[], x, xs ++ [s.slobfree], a, rfl, hu, by simp, hnext, by simp, ?_⟩
      rw [if_pos hu]
    · rw [if_neg hu, if_neg (Ne.symm hxs.1)]
      rcases ih hseg' hxs.2 with ⟨ys, z, zs, w, h1, h2, h3, h4, h5, h6⟩ | ⟨h1, h2⟩
      · refine .inl ⟨x :: ys, z, zs, w, by rw [List.cons_append, h1]; rfl, h2, fun y hy => ?_, h4,
          List.mem_cons_of_mem a h5, h6⟩
        rcases List.mem_cons.1 hy with rfl | hy
        · omega
        · exact h3 y hy
      · refine .inr ⟨fun y hy => ?_, h2⟩
        rw [List.cons_append] at hy
        rcases List.mem_cons.1 hy with rfl | hy
        · omega
        · exact h1 y hy

variable (getFreePage fuel) in
/-- The same from `slobfree` on, once round the whole list. -/
theorem FreeCycle.allocFrom {arena : ℕ} {bs : List Block} (h : FreeCycle s ((arena, 8) :: bs))
    (hsafe : 1 < slobUnits size ∨ s.next s.slobfree ≠ arena) :
    (∃ pre c q y post, (arena, 8) :: q = pre ++ [c] ∧ bs = q ++ y :: post
        ∧ slobUnits size ≤ s.units y.1
        ∧ allocFrom getFreePage size (fuel + bs.length + 1) s s.slobfree (s.next s.slobfree)
          = some (s.takeUnits (slobUnits size) c.1 y.1, some y.1)) ∨
      ((∀ y ∈ (arena, 8) :: bs, s.units y.1 < slobUnits size)
        ∧ allocFrom getFreePage size (fuel + bs.length + 1) s s.slobfree (s.next s.slobfree)
          = askPage getFreePage size fuel s) := by
  obtain ⟨p1, p2, hsplit⟩ := List.append_of_mem h.free
  have hcyc := h.cycle
  have hnd := h.nodup
  rw [hsplit] at hcyc hnd
  have hseg : Seg s.next s.slobfree (p2 ++ p1) s.slobfree := isCycle_rotate.1 hcyc
  have hfree : s.slobfree ∉ p2 ++ p1 := by
    have := (List.nodup_cons.1 (List.nodup_middle.1 hnd)).1
    simpa [or_comm] using this
  have hmem : ∀ a, a ∈ p2 ++ p1 ++ [s.slobfree] ↔ a ∈ ((arena, 8) :: bs).map Prod.fst := by
    intro a
    rw [hsplit]
    simp only [List.mem_append, List.mem_cons, List.not_mem_nil, or_false]
    rw [or_comm, or_left_comm, or_comm (a := a ∈ p2), or_left_comm, or_assoc]
  have hlen : (p2 ++ p1).length = bs.length := by
    have := congrArg List.length hsplit
    simp only [List.length_map, List.length_cons, List.length_append] at this ⊢
    omega
  have hunits : ∀ a ∈ ((arena, 8) :: bs).map Prod.fst, 0 < s.units a := by
    intro a ha
    obtain ⟨x, hx, rfl⟩ := List.mem_map.1 ha
    have h1 := h.size x hx
    have h2 := h.pos x hx
    simp only [slobUnit] at h1
    omega
  have harena : s.units arena = 1 := by
    have := h.size (arena, 8) (by simp)
    simp only [slobUnit] at this
    omega
  rw [← hlen]
  rcases allocFrom_scan getFreePage size fuel hseg hfree with
    ⟨ys, x, zs, w, h1, h2, h3, h4, h5, h6⟩ | ⟨h1, h2⟩
  · left
    have hx : x ∈ ((arena, 8) :: bs).map Prod.fst := (hmem x).1 (by simp [h1])
    have hw : w ∈ ((arena, 8) :: bs).map Prod.fst := by
      refine (hmem w).1 (List.mem_append.2 ?_)
      rcases List.mem_cons.1 h5 with rfl | h5
      · exact .inr (by simp)
      · exact .inl h5
    -- the arena is one unit, so it can only be taken if it comes first
    have hxa : x ≠ arena := by
      rintro rfl
      rw [harena] at h2
      have hnext := hsafe.resolve_left (by omega)
      cases ys with
      | nil =>
        cases hp : p2 ++ p1 with
        | nil =>
          rw [hp] at h1 hseg
          exact hnext ((show s.next s.slobfree = s.slobfree from hseg).trans (List.cons.inj h1).1)
        | cons z zs' =>
          rw [hp] at h1 hseg
          exact hnext (hseg.1.trans (List.cons.inj h1).1)
      | cons z ys =>
        have hz := hunits z ((hmem z).1 (by simp [h1]))
        have := h3 z (by simp)
        omega
    obtain ⟨y, hy, rfl⟩ := List.mem_map.1 hx
    have hyb : y ∈ bs := (List.mem_cons.1 hy).resolve_left fun he => hxa (by rw [he])
    obtain ⟨q1, post, rfl⟩ := List.append_of_mem hyb
    obtain ⟨pre, c, hq⟩ : ∃ pre c, (arena, 8) :: q1 = pre ++ [c] := by
      rcases ((arena, 8) :: q1).eq_nil_or_concat' with hn | ⟨pre, c, he⟩
      · simp at hn
      · exact ⟨pre, c, he⟩
    have hns : (arena, 8) :: (q1 ++ y :: post) = pre ++ c :: y :: post := by
      rw [← List.cons_append, hq]
      simp
    have hnext : s.next c.1 = y.1 := by
      have h' := h
      rw [hns] at h'
      exact h'.next_mid
    have hwc : w = c.1 := h.cycle.next_inj h.nodup hw
      (List.mem_map.2 ⟨c, by simp [hns], rfl⟩) (h4.trans hnext.symm)
    exact ⟨pre, c, q1, y, post, hq, rfl, h2, by rw [← hwc]; exact h6⟩
  · refine .inr ⟨fun y hy => h1 y.1 ((hmem y.1).2 (List.mem_map.2 ⟨y, hy, rfl⟩)), h2⟩

/-- A range that free blocks cover lies in one of them. -/
theorem covered_in_one {bs : List Block} (h : bs.Pairwise Block.Before) (hn : 0 < n)
    (hcov : ∀ p, Block.Has (b, n) p → Covers bs p) : ∃ z ∈ bs, n ≤ z.2 := by
  obtain ⟨z, hz, hzb⟩ := hcov b (by simp only [Block.Has]; omega)
  refine ⟨z, hz, ?_⟩
  by_contra hlt
  simp only [Block.Has] at hzb
  obtain ⟨w, hw, hwp⟩ := hcov (z.1 + z.2) (by simp only [Block.Has]; omega)
  simp only [Block.Has] at hwp
  have hne : z ≠ w := by
    rintro rfl
    omega
  obtain ⟨l1, l2, rfl⟩ := List.append_of_mem hz
  have hs := List.pairwise_append.1 h
  rcases List.mem_append.1 hw with hw | hw
  · have := hs.2.2 w hw z (by simp)
    simp only [Block.Before] at this
    omega
  · rcases List.mem_cons.1 hw with rfl | hw
    · exact hne rfl
    · have := (List.pairwise_cons.1 hs.2.1).1 w hw
      simp only [Block.Before] at this
      omega

/-- What is left after the block `y` has lost its first units. -/
theorem FreeCycle.take {arena u : ℕ} {q : List Block} (hu : 0 < u)
    (h : FreeCycle s ((arena, 8) :: (q ++ y :: post))) (hq : (arena, 8) :: q = pre ++ [c])
    (hle : u ≤ s.units y.1) :
    ∃ bs', FreeCycle (s.takeUnits u c.1 y.1) ((arena, 8) :: bs')
      ∧ (∀ p, Covers (q ++ y :: post) p ↔ Block.Has (y.1, slobUnit * u) p ∨ Covers bs' p)
      ∧ (∀ p, Block.Has (y.1, slobUnit * u) p → ¬Covers bs' p)
      ∧ SameBut s (s.takeUnits u c.1 y.1) (fun a => a = arena ∨ Covers (q ++ y :: post) a)
      ∧ (s.takeUnits u c.1 y.1).units y.1 = u := by
  have hns : (arena, 8) :: (q ++ y :: post) = pre ++ c :: y :: post := by
    rw [← List.cons_append, hq]
    simp
  have h' := h
  rw [hns] at h'
  have hsy := h.size y (by simp)
  have hn : 0 < slobUnit * u := Nat.mul_pos (by decide) hu
  have hle' : slobUnit * u ≤ y.2 := by
    rw [← hsy]
    exact Nat.mul_le_mul_left _ hle
  obtain ⟨h1, h2, h3⟩ := h'.takeUnits hu hle
  have hns' : pre ++ c :: remainder (slobUnit * u) y ++ post
      = (arena, 8) :: (q ++ remainder (slobUnit * u) y ++ post) := by
    rw [← List.cons_append, ← List.cons_append, hq]
    simp
  rw [hns'] at h1
  refine ⟨_, h1, fun p => ?_, fun p hp => ?_, ⟨fun a ha => h2.1 a fun hw => ha ?_, h2.2⟩, h3⟩
  · rw [covers_append, covers_append, covers_append, covers_cons, covers_remainder hn hle']
    simp only [or_assoc]
    exact or_left_comm
  · exact not_covers_of_taken (List.pairwise_cons.1 h.sorted).2 hle' hp
  · have hy : Covers (q ++ y :: post) y.1 := ⟨y, by simp, by simp only [Block.Has]; omega⟩
    rcases hw with rfl | rfl | hw
    · have hc : c ∈ (arena, 8) :: (q ++ y :: post) := by simp [hns]
      rcases List.mem_cons.1 hc with rfl | hc
      · exact .inl rfl
      · have := h.pos c (List.mem_cons_of_mem _ hc)
        exact .inr ⟨c, hc, by simp only [Block.Has]; omega⟩
    · exact .inr hy
    · obtain ⟨r, hr, rfl⟩ := List.mem_map.1 hw
      unfold remainder at hr
      split_ifs at hr with hlt
      · obtain rfl := List.mem_singleton.1 hr
        exact .inr ⟨y, by simp, by simp only [Block.Has]; omega⟩
      · simp at hr

theorem slobUnits_pos (hsize : 0 < size) : 0 < slobUnits size := by
  simp only [slobUnits, slobUnit]
  omega

/-- `slob_alloc`: a block from the free list, a block from the list with another page, or nothing
if there is no page. -/
theorem FreeCycle.slobAlloc {arena : ℕ} {bs : List Block} (h : FreeCycle s ((arena, 8) :: bs))
    (hlen : bs.length ≤ 2 ^ 32) (hsize : 0 < size) (hmax : size + slobUnit < pageSize)
    (hsafe : 8 < size ∨ s.next s.slobfree ≠ arena)
    (hpage : ∀ page, getFreePage s.calls = some page →
      arena + 8 < page ∧ ∀ x ∈ bs, Block.Disjoint x (page, pageSize)) :
    (getFreePage s.calls = none
        ∧ s.slobAlloc getFreePage size = some ({ s with calls := s.calls + 1 }, none)) ∨
      ∃ s' y bs', s.slobAlloc getFreePage size = some (s', some y)
        ∧ FreeCycle s' ((arena, 8) :: bs')
        ∧ (∀ p, Block.Has (y, slobUnit * slobUnits size) p → ¬Covers bs' p)
        ∧ ((s'.calls = s.calls
            ∧ ∀ p, Covers bs p ↔ Block.Has (y, slobUnit * slobUnits size) p ∨ Covers bs' p) ∨
          ∃ page, getFreePage s.calls = some page ∧ s'.calls = s.calls + 1
            ∧ ∀ p, (Covers bs p ∨ Block.Has (page, pageSize) p) ↔
              Block.Has (y, slobUnit * slobUnits size) p ∨ Covers bs' p)
        ∧ (∀ a, a ≠ arena → ¬Covers bs a →
          (∀ page, getFreePage s.calls = some page → ¬Block.Has (page, pageSize) a) →
          s'.units a = s.units a ∧ s'.next a = s.next a)
        ∧ s'.units y = slobUnits size := by
  have hu := slobUnits_pos hsize
  have hsafe' : 1 < slobUnits size ∨ s.next s.slobfree ≠ arena := by
    refine hsafe.imp_left fun hs => ?_
    simp only [slobUnits, slobUnit]
    omega
  rw [Slob.slobAlloc, if_pos hmax]
  obtain ⟨fuel, hfuel⟩ : ∃ fuel, 2 ^ 34 = fuel + bs.length + 1 := ⟨2 ^ 34 - bs.length - 1, by omega⟩
  rw [hfuel]
  rcases h.allocFrom getFreePage fuel hsafe' with
    ⟨pre, c, q, y, post, hq, rfl, hle, he⟩ | ⟨hsmall, he⟩
  · right
    obtain ⟨bs', h1, h2, h3, h4, h5⟩ := h.take hu hq hle
    exact ⟨_, y.1, bs', he, h1, h3, .inl ⟨h4.2, h2⟩,
      fun a ha hc _ => h4.1 a fun hw => hw.elim ha hc, h5⟩
  rw [he, askPage, if_neg (by omega)]
  cases hp : getFreePage s.calls with
  | none => exact .inl ⟨rfl, rfl⟩
  | some page =>
    right
    obtain ⟨hpa, hpd⟩ := hpage page hp
    -- the arena is too small, so the block asked for has more than one unit
    have hone : 1 < slobUnits size := by
      have h1 := hsmall (arena, 8) (by simp)
      have h2 := h.size (arena, 8) (by simp)
      simp only [slobUnit] at h1 h2
      omega
    have hc1 : FreeCycle { s with calls := s.calls + 1 } ((arena, 8) :: bs) :=
      h.congr (fun _ _ => rfl) (fun _ _ => rfl) rfl
    obtain ⟨s1, bs1, he1, h1, hcov1, hlen1, hsame1⟩ := hc1.slobFree pageSize (by omega) hpa
      (show 0 < pageSize by decide) (by rw [if_neg (by decide)]; rfl) hpd
    obtain ⟨z, hz, hzn⟩ := covered_in_one (List.pairwise_cons.1 h1.sorted).2
      (show 0 < pageSize by decide) fun p hpp => (hcov1 p).2 (.inr hpp)
    obtain ⟨fuel', hfuel'⟩ : ∃ fuel', fuel = fuel' + bs1.length + 1 :=
      ⟨fuel - bs1.length - 1, by omega⟩
    rcases h1.allocFrom getFreePage fuel' (.inl hone) with
      ⟨pre, c, q, y, post, hq, rfl, hle, he2⟩ | ⟨hsmall2, -⟩
    · obtain ⟨bs', h2, h3, h4, h5, h6⟩ := h1.take hu hq hle
      refine ⟨_, y.1, bs', ?_, h2, h4, .inr ⟨page, rfl, ?_, fun p => ?_⟩, fun a ha hca hpg => ?_, h6⟩
      · simp only [he1, Option.bind_eq_bind, Option.bind_some]
        rw [hfuel', he2]
      · rw [h5.2, hsame1.2]
      · rw [← h3 p, hcov1 p]
      · have hpga := hpg page rfl
        have e1 := h5.1 a (by
          rintro (hw | hw)
          · exact ha hw
          · rcases (hcov1 a).1 hw with hw | hw
            · exact hca hw
            · exact hpga hw)
        have e2 := hsame1.1 a (by
          rintro (rfl | hw)
          · exact hpga (by simp only [Block.Has, pageSize]; omega)
          · obtain ⟨x, hx, rfl⟩ := List.mem_map.1 hw
            rcases List.mem_cons.1 hx with rfl | hx
            · exact ha rfl
            · have := h.pos x (by simp [hx])
              exact hca ⟨x, hx, by simp only [Block.Has]; omega⟩)
        exact ⟨e1.1.trans e2.1, e1.2.trans e2.2⟩
    · have h7 := hsmall2 z (by simp [hz])
      have h8 := h1.size z (by simp [hz])
      simp only [slobUnits, slobUnit, pageSize] at *
      omega

end Scan

/-! ## Runs -/

/-- The heap with the blocks it has handed out, sizes in bytes. -/
structure Session where
  heap : Slob
  live : List Block

/-- A call, or a write by the owner of a block to one of its words. -/
inductive Op
  | alloc (size : ℕ)
  | free (block size : ℕ)
  | write (a units next : ℕ)

namespace Session

variable (σ : Session)

/-- What `slob_free` is told, or finds, to be the size of a block. -/
def sizeOf (block size : ℕ) : ℕ :=
  slobUnit * if size = 0 then σ.heap.units block else slobUnits size

/-- The callers keep to the assertion, to blocks they hold and to their sizes. -/
def Admits : Op → Prop
  | .alloc size => size + slobUnit < pageSize
  | .free block size => (block, σ.sizeOf block size) ∈ σ.live
  | .write a _ _ => Covers σ.live a

def exec (getFreePage : ℕ → Option ℕ) : Op → Option Session
  | .alloc size => do
    match ← σ.heap.slobAlloc getFreePage size with
    | (s, none) => return ⟨s, σ.live⟩
    | (s, some y) => return ⟨s, (y, slobUnit * slobUnits size) :: σ.live⟩
  | .free block size => do
    let s ← σ.heap.slobFree block size
    return ⟨s, σ.live.erase (block, σ.sizeOf block size)⟩
  | .write a units next =>
    some ⟨(σ.heap.setUnits a units).setNext a next, σ.live⟩

/-- Something is asked for, and more than one unit of it if the arena comes next: the arena is
one unit, and can be neither split nor taken out of the list. -/
def Spares (arena : ℕ) : Op → Prop
  | .alloc size => size ≠ 0 ∧ (8 < size ∨ σ.heap.next σ.heap.slobfree ≠ arena)
  | _ => True

end Session

/-- What can be reached from the boot by admissible operations that satisfy `P`. -/
inductive Reachable (getFreePage : ℕ → Option ℕ) (arena : ℕ) (P : Session → Op → Prop) :
    Session → Prop
  | boot (units next : ℕ → ℕ) :
      Reachable getFreePage arena P ⟨Slob.boot arena units next, []⟩
  | step {σ σ' : Session} (op : Op) :
      Reachable getFreePage arena P σ → σ.Admits op → P σ op →
      σ.exec getFreePage op = some σ' → Reachable getFreePage arena P σ'

/-- The pages of the page allocator: aligned, above the kernel with its arena, and never the same
one twice, for the heap gives none back. -/
structure Supply (getFreePage : ℕ → Option ℕ) (arena : ℕ) : Prop where
  aligned : ∀ {k page}, getFreePage k = some page → page % pageSize = 0
  above : ∀ {k page}, getFreePage k = some page → arena + 8 < page
  below : ∀ {k page}, getFreePage k = some page → page + pageSize ≤ 2 ^ 32
  distinct : ∀ {i j page}, getFreePage i = some page → getFreePage j = some page → i = j

/-- The address lies in one of the first `calls` pages. -/
def Obtained (getFreePage : ℕ → Option ℕ) (calls p : ℕ) : Prop :=
  ∃ i < calls, ∃ page, getFreePage i = some page ∧ Block.Has (page, pageSize) p

structure Inv (getFreePage : ℕ → Option ℕ) (arena : ℕ) (σ : Session) (bs : List Block) :
    Prop where
  list : FreeCycle σ.heap ((arena, 8) :: bs)
  pos : ∀ x ∈ σ.live, 0 < x.2
  live : σ.live.Pairwise NoOverlap
  apart : ∀ p, Covers bs p → ¬Covers σ.live p
  cover : ∀ p, Obtained getFreePage σ.heap.calls p ↔ Covers bs p ∨ Covers σ.live p

section Runs

variable {getFreePage : ℕ → Option ℕ} {arena : ℕ} {σ σ' : Session} {bs : List Block}

theorem Obtained.bounds (hs : Supply getFreePage arena) {calls p : ℕ}
    (h : Obtained getFreePage calls p) : arena + 8 < p ∧ p < 2 ^ 32 := by
  obtain ⟨i, -, page, hp, hh⟩ := h
  have h1 := hs.above hp
  have h2 := hs.below hp
  simp only [Block.Has] at hh
  omega

theorem length_le_of_lt {xs : List ℕ} {k : ℕ} (hn : xs.Nodup) (h : ∀ a ∈ xs, a < k) :
    xs.length ≤ k := by
  have hsub : xs ⊆ List.range k := fun a ha => List.mem_range.2 (h a ha)
  simpa using (hn.subperm hsub).length_le

theorem Inv.length_le (h : Inv getFreePage arena σ bs) (hs : Supply getFreePage arena) :
    bs.length ≤ 2 ^ 32 := by
  rw [← List.length_map Prod.fst]
  refine length_le_of_lt (List.nodup_cons.1 h.list.nodup).2 fun a ha => ?_
  obtain ⟨x, hx, rfl⟩ := List.mem_map.1 ha
  have hpos := h.list.pos x (by simp [hx])
  exact (Obtained.bounds hs ((h.cover x.1).2 (.inl ⟨x, hx, by simp only [Block.Has]; omega⟩))).2

/-- A new page holds no address of an old one. -/
theorem Supply.fresh (hs : Supply getFreePage arena) {calls page p : ℕ}
    (hp : getFreePage calls = some page) (hh : Block.Has (page, pageSize) p) :
    ¬Obtained getFreePage calls p := by
  rintro ⟨i, hi, page', hp', hh'⟩
  have h1 := hs.aligned hp
  have h2 := hs.aligned hp'
  have heq : page' = page := by
    simp only [Block.Has, pageSize] at *
    omega
  have := hs.distinct hp (heq ▸ hp')
  omega

theorem obtained_succ {calls p : ℕ} : Obtained getFreePage (calls + 1) p ↔
    Obtained getFreePage calls p ∨
      ∃ page, getFreePage calls = some page ∧ Block.Has (page, pageSize) p := by
  constructor
  · rintro ⟨i, hi, page, h1, h2⟩
    by_cases he : i = calls
    · exact .inr ⟨page, he ▸ h1, h2⟩
    · exact .inl ⟨i, by omega, page, h1, h2⟩
  · rintro (⟨i, hi, page, h1, h2⟩ | ⟨page, h1, h2⟩)
    · exact ⟨i, by omega, page, h1, h2⟩
    · exact ⟨calls, by omega, page, h1, h2⟩

/-- Blocks without a common address lie on one side of each other. -/
theorem disjoint_of_apart {x : Block} (hx : 0 < x.2) (hn : 0 < n)
    (h : ∀ p, x.Has p → ¬Block.Has (b, n) p) : Block.Disjoint x (b, n) := by
  by_contra hd
  simp only [Block.Disjoint, not_or, Nat.not_le] at hd
  refine h (max x.1 b) ?_ ?_ <;> simp only [Block.Has] <;> omega

theorem Inv.boot (units next : ℕ → ℕ) :
    Inv getFreePage arena ⟨Slob.boot arena units next, []⟩ [] where
  list := ⟨Function.update_self _ _ _, by simp, by simp [Slob.boot, slobUnit], by simp,
    by simp [Slob.boot]⟩
  pos := by simp
  live := List.Pairwise.nil
  apart := by simp [Covers]
  cover p := by
    simp only [Obtained, Slob.boot, Nat.not_lt_zero, false_and, exists_false, Covers,
      List.not_mem_nil, or_self]

/-- The next page lies above the arena and holds no free block. -/
theorem Inv.page_apart (h : Inv getFreePage arena σ bs) (hs : Supply getFreePage arena) (page : ℕ)
    (hp : getFreePage σ.heap.calls = some page) :
    arena + 8 < page ∧ ∀ x ∈ bs, Block.Disjoint x (page, pageSize) := by
  refine ⟨hs.above hp, fun x hx => disjoint_of_apart (h.list.pos x (by simp [hx])) (by decide)
    fun p hxp hpp => ?_⟩
  exact hs.fresh hp hpp ((h.cover p).2 (.inl ⟨x, hx, hxp⟩))

theorem Inv.alloc (h : Inv getFreePage arena σ bs) (hs : Supply getFreePage arena) {size : ℕ}
    (ha : σ.Admits (.alloc size)) (hsp : σ.Spares arena (.alloc size)) :
    ∃ σ' bs', σ.exec getFreePage (.alloc size) = some σ' ∧ Inv getFreePage arena σ' bs'
      ∧ (∀ s', σ.heap.slobAlloc getFreePage size = some (s', none) →
        getFreePage σ.heap.calls = none)
      ∧ ∀ a, Covers σ.live a → σ'.heap.units a = σ.heap.units a ∧ σ'.heap.next a = σ.heap.next a := by
  rcases h.list.slobAlloc (h.length_le hs) (Nat.pos_of_ne_zero hsp.1) ha hsp.2
      (h.page_apart hs) with
    ⟨hnone, he⟩ | ⟨s', y, bs', he, hlist, hyb, hcalls, hframe, -⟩
  · refine ⟨⟨{ σ.heap with calls := σ.heap.calls + 1 }, σ.live⟩, bs, by simp [Session.exec, he],
      ⟨h.list.congr (fun _ _ => rfl) (fun _ _ => rfl) rfl, h.pos, h.live, h.apart, fun p => ?_⟩,
      fun _ _ => hnone, fun _ _ => ⟨rfl, rfl⟩⟩
    rw [← h.cover p]
    exact obtained_succ.trans (by simp [hnone])
  · have hnew : ∀ p, Block.Has (y, slobUnit * slobUnits size) p ∨ Covers bs' p →
        ¬Covers σ.live p := by
      intro p hp hl
      rcases hcalls with ⟨-, hcov⟩ | ⟨page, hpg, -, hcov⟩
      · exact h.apart p ((hcov p).2 hp) hl
      · rcases (hcov p).2 hp with hb | hb
        · exact h.apart p hb hl
        · exact hs.fresh hpg hb ((h.cover p).2 (.inr hl))
    refine ⟨⟨s', (y, slobUnit * slobUnits size) :: σ.live⟩, bs', by simp [Session.exec, he],
      ⟨hlist, fun x hx => ?_, List.pairwise_cons.2 ⟨fun x hx p hp hxp => ?_, h.live⟩,
        fun p hp hl => ?_, fun p => ?_⟩, fun s1 h1 => by simp [he] at h1, fun a hl => ?_⟩
    · rcases List.mem_cons.1 hx with rfl | hx
      · exact Nat.mul_pos (by decide) (slobUnits_pos (Nat.pos_of_ne_zero hsp.1))
      · exact h.pos x hx
    · exact hnew p (.inl hp) ⟨x, hx, hxp⟩
    · rcases covers_cons.1 hl with hl | hl
      · exact hyb p hl hp
      · exact hnew p (.inr hp) hl
    · simp only [covers_cons]
      rcases hcalls with ⟨hc, hcov⟩ | ⟨page, hpg, hc, hcov⟩
      · rw [hc, h.cover p, hcov p, or_assoc]
        exact or_left_comm
      · have hpg' : (∃ page, getFreePage σ.heap.calls = some page ∧ Block.Has (page, pageSize) p) ↔
            Block.Has (page, pageSize) p := by simp [hpg]
        rw [hc, obtained_succ, hpg', h.cover p, or_right_comm, hcov p, or_assoc]
        exact or_left_comm
    · have hob := (h.cover a).2 (.inr hl)
      have hbd := Obtained.bounds hs hob
      exact hframe a (by omega) (fun hb => h.apart a hb hl) fun page hpg hpa => hs.fresh hpg hpa hob

theorem Inv.free (h : Inv getFreePage arena σ bs) (hs : Supply getFreePage arena) {block size : ℕ}
    (ha : σ.Admits (.free block size)) :
    ∃ σ' bs', σ.exec getFreePage (.free block size) = some σ' ∧ Inv getFreePage arena σ' bs'
      ∧ ∀ a, Covers σ'.live a → σ'.heap.units a = σ.heap.units a ∧ σ'.heap.next a = σ.heap.next a := by
  have hmem : (block, σ.sizeOf block size) ∈ σ.live := ha
  have hpos := h.pos _ hmem
  have hself : Block.Has (block, σ.sizeOf block size) block := by
    simp only [Block.Has]
    omega
  have hbd := Obtained.bounds hs ((h.cover block).2 (.inr ⟨_, hmem, hself⟩))
  have hperm := List.perm_cons_erase hmem
  have hlive := h.live.perm hperm fun hab p hb ha => hab p ha hb
  obtain ⟨hne, hrest⟩ := List.pairwise_cons.1 hlive
  have hsplit : ∀ p, Covers σ.live p ↔ Block.Has (block, σ.sizeOf block size) p ∨
      Covers (σ.live.erase (block, σ.sizeOf block size)) p := by
    intro p
    rw [← covers_cons]
    simp only [Covers, hperm.mem_iff]
  obtain ⟨s', bs', he, hlist, hcov, -, hsame⟩ := h.list.slobFree size
    (by have := h.length_le hs; omega) hbd.1 hpos rfl fun x hx =>
      disjoint_of_apart (h.list.pos x (by simp [hx])) hpos fun p hxp hpp =>
        h.apart p ⟨x, hx, hxp⟩ ⟨_, hmem, hpp⟩
  refine ⟨⟨s', σ.live.erase (block, σ.sizeOf block size)⟩, bs', by simp [Session.exec, he],
    ⟨hlist, fun x hx => h.pos x (List.mem_of_mem_erase hx), hrest, fun p hp hl => ?_, fun p => ?_⟩,
    fun a hl => hsame.1 a ?_⟩
  · rcases (hcov p).1 hp with hb | hb
    · exact h.apart p hb ((hsplit p).2 (.inr hl))
    · obtain ⟨x, hx, hxp⟩ := hl
      exact hne x hx p hb hxp
  · simp only
    rw [hsame.2, h.cover p, hsplit p, hcov p, or_assoc]
  · have hl' := (hsplit a).2 (.inr hl)
    rintro (rfl | hw)
    · obtain ⟨x, hx, hxp⟩ := hl
      exact hne x hx a hself hxp
    · obtain ⟨x, hx, rfl⟩ := List.mem_map.1 hw
      rcases List.mem_cons.1 hx with rfl | hx
      · have := Obtained.bounds hs ((h.cover _).2 (.inr hl'))
        simp only at this
        omega
      · have hxpos := h.list.pos x (by simp [hx])
        exact h.apart x.1 ⟨x, hx, by simp only [Block.Has]; omega⟩ hl'

theorem Inv.write (h : Inv getFreePage arena σ bs) (hs : Supply getFreePage arena)
    {a units next : ℕ} (ha : σ.Admits (.write a units next)) :
    Inv getFreePage arena ⟨(σ.heap.setUnits a units).setNext a next, σ.live⟩ bs := by
  have hl : Covers σ.live a := ha
  have hne : ∀ x ∈ (arena, 8) :: bs, x.1 ≠ a := by
    rintro x hx rfl
    rcases List.mem_cons.1 hx with rfl | hx
    · have := Obtained.bounds hs ((h.cover _).2 (.inr hl))
      simp only at this
      omega
    · have hxpos := h.list.pos x (by simp [hx])
      exact h.apart x.1 ⟨x, hx, by simp only [Block.Has]; omega⟩ hl
  refine ⟨h.list.congr (fun x hx => ?_) (fun x hx => ?_) rfl, h.pos, h.live, h.apart, h.cover⟩
  · exact Function.update_of_ne (hne x hx) _ _
  · exact Function.update_of_ne (hne x hx) _ _

theorem Reachable.inv (hs : Supply getFreePage arena)
    (h : Reachable getFreePage arena (fun σ op => σ.Spares arena op) σ) :
    ∃ bs, Inv getFreePage arena σ bs := by
  induction h with
  | boot units next => exact ⟨[], Inv.boot units next⟩
  | step op _ ha hsp he ih =>
    obtain ⟨bs, hi⟩ := ih
    cases op with
    | alloc size =>
      obtain ⟨σ', bs', he', hi', -⟩ := hi.alloc hs ha hsp
      exact ⟨bs', Option.some.inj (he'.symm.trans he) ▸ hi'⟩
    | free block size =>
      obtain ⟨σ', bs', he', hi', -⟩ := hi.free hs ha
      exact ⟨bs', Option.some.inj (he'.symm.trans he) ▸ hi'⟩
    | write a units next => exact ⟨bs, Option.some.inj he ▸ hi.write hs ha⟩

/-- As long as no allocation gets at the arena, the free list is one cycle through it, sorted from
the arena on and without two blocks that touch; free and live blocks are disjoint and cover the
pages obtained; every call returns, without a word of another live block changed; and `slob_alloc`
returns nothing only if the page allocator did. -/
theorem slob_heap (hs : Supply getFreePage arena)
    (h : Reachable getFreePage arena (fun σ op => σ.Spares arena op) σ) :
    ∃ bs : List Block, IsCycle σ.heap.next (arena :: bs.map Prod.fst)
      ∧ ((arena, 8) :: bs).Pairwise Block.Before
      ∧ (∀ x ∈ (arena, 8) :: bs, slobUnit * σ.heap.units x.1 = x.2)
      ∧ σ.heap.slobfree ∈ arena :: bs.map Prod.fst
      ∧ σ.live.Pairwise NoOverlap ∧ (∀ p, Covers bs p → ¬Covers σ.live p)
      ∧ (∀ p, Obtained getFreePage σ.heap.calls p ↔ Covers bs p ∨ Covers σ.live p)
      ∧ (∀ op, σ.Admits op → σ.Spares arena op → ∃ σ', σ.exec getFreePage op = some σ')
      ∧ (∀ size, σ.Admits (.alloc size) → σ.Spares arena (.alloc size) →
        (∀ s', σ.heap.slobAlloc getFreePage size = some (s', none) →
          getFreePage σ.heap.calls = none)
        ∧ ∀ σ', σ.exec getFreePage (.alloc size) = some σ' → ∀ a, Covers σ.live a →
          σ'.heap.units a = σ.heap.units a ∧ σ'.heap.next a = σ.heap.next a)
      ∧ ∀ block size, σ.Admits (.free block size) →
        ∀ σ', σ.exec getFreePage (.free block size) = some σ' → ∀ a, Covers σ'.live a →
          σ'.heap.units a = σ.heap.units a ∧ σ'.heap.next a = σ.heap.next a := by
  obtain ⟨bs, hi⟩ := h.inv hs
  refine ⟨bs, hi.list.cycle, hi.list.sorted, hi.list.size, hi.list.free, hi.live, hi.apart, hi.cover,
    fun op ha hsp => ?_, fun size ha hsp => ?_, fun block size ha σ' he => ?_⟩
  · cases op with
    | alloc size =>
      obtain ⟨σ', -, he, -⟩ := hi.alloc hs ha hsp
      exact ⟨σ', he⟩
    | free block size =>
      obtain ⟨σ', -, he, -⟩ := hi.free hs ha
      exact ⟨σ', he⟩
    | write a units next => exact ⟨_, rfl⟩
  · obtain ⟨σ', -, he, -, h1, h2⟩ := hi.alloc hs ha hsp
    refine ⟨h1, fun σ'' he' => ?_⟩
    obtain rfl := Option.some.inj (he.symm.trans he')
    exact h2
  · obtain ⟨σ'', -, he', -, h2⟩ := hi.free hs ha
    obtain rfl := Option.some.inj (he'.symm.trans he)
    exact h2

/-- The pages from `0x80100000` on. -/
def pagesUp (k : ℕ) : Option ℕ :=
  if k < 1024 then some (0x80100000 + 4096 * k) else none

theorem pagesUp_supply : Supply pagesUp 0x80010004 := by
  refine ⟨fun {k page} h => ?_, fun {k page} h => ?_, fun {k page} h => ?_, fun {i j page} h h' => ?_⟩
  all_goals simp only [pagesUp, pageSize] at *
  all_goals split_ifs at *
  all_goals simp only [Option.some.injEq] at *
  all_goals omega

/-- One page, with two blocks taken from it and the first one given back. -/
theorem slob_heap_pagesUp :
    ∃ σ : Session, Reachable pagesUp 0x80010004 (fun σ op => σ.Spares 0x80010004 op) σ
      ∧ σ.live = [(0x80100010, 24)] ∧ σ.heap.calls = 1
      ∧ ∃ bs : List Block, IsCycle σ.heap.next (0x80010004 :: bs.map Prod.fst)
        ∧ ∀ p, Obtained pagesUp 1 p ↔ Covers bs p ∨ Covers σ.live p := by
  obtain ⟨σ1, σ2, σ3, h1, h2, h3, hm, hl, hc⟩ : ∃ σ1 σ2 σ3 : Session,
      Session.exec ⟨Slob.boot 0x80010004 (fun _ => 0) fun _ => 0, []⟩ pagesUp (.alloc 16) = some σ1
        ∧ σ1.exec pagesUp (.alloc 20) = some σ2 ∧ σ2.exec pagesUp (.free 0x80100000 16) = some σ3
        ∧ (0x80100000, σ2.sizeOf 0x80100000 16) ∈ σ2.live
        ∧ σ3.live = [(0x80100010, 24)] ∧ σ3.heap.calls = 1 :=
    ⟨_, _, _, rfl, rfl, rfl, by decide, rfl, rfl⟩
  have hr : Reachable pagesUp 0x80010004 (fun σ op => σ.Spares 0x80010004 op) σ3 := by
    refine .step (.free 0x80100000 16) (.step (.alloc 20) (.step (.alloc 16) (.boot _ _) ?_ ?_ h1)
      ?_ ?_ h2) hm trivial h3
    · exact (by decide : 16 + slobUnit < pageSize)
    · exact ⟨by decide, .inl (by decide)⟩
    · exact (by decide : 20 + slobUnit < pageSize)
    · exact ⟨by decide, .inl (by decide)⟩
  obtain ⟨bs, hcyc, -, -, -, -, -, hcov, -⟩ := slob_heap pagesUp_supply hr
  rw [hc] at hcov
  exact ⟨σ3, hr, hl, hc, bs, hcyc, hcov⟩

/-- Two requests for eight bytes at boot both return the arena, which stays in the list: it is its
own predecessor, and unlinking it changes nothing. -/
theorem not_slob_heap_arena :
    ∃ σ : Session, Reachable pagesUp 0x80010004 (fun _ _ => True) σ
      ∧ σ.live = [(0x80010004, 8), (0x80010004, 8)] ∧ ¬σ.live.Pairwise NoOverlap := by
  obtain ⟨σ1, σ2, h1, h2, hl⟩ : ∃ σ1 σ2 : Session,
      Session.exec ⟨Slob.boot 0x80010004 (fun _ => 0) fun _ => 0, []⟩ pagesUp (.alloc 8) = some σ1
        ∧ σ1.exec pagesUp (.alloc 8) = some σ2
        ∧ σ2.live = [(0x80010004, 8), (0x80010004, 8)] :=
    ⟨_, _, rfl, rfl, rfl⟩
  have hadm : 8 + slobUnit < pageSize := by decide
  refine ⟨σ2, .step (.alloc 8) (.step (.alloc 8) (.boot _ _) hadm trivial h1) hadm trivial h2, hl, ?_⟩
  rw [hl]
  intro hp
  exact (List.pairwise_cons.1 hp).1 (0x80010004, 8) (by simp) 0x80010004 (by decide) (by decide)

end Runs

end Slob

end Ucore

end CacheCPU
