import CacheCPU.Proofs.MmMap

/-!
# `copy_string`

The string is checked and copied by pieces that end where a page does, or where the buffer does.
The areas being made of whole pages, a piece can be read if its first byte can.
-/

namespace CacheCPU

namespace Ucore

namespace Mm

variable {m : Mm} {vs : List ℕ}

/-! ## `strnlen` and `memcpy` -/

section Strings

variable (mem : BitVec 32 → BitVec 8)

theorem add_succ (s : BitVec 32) (i : ℕ) :
    s + 1#32 + BitVec.ofNat 32 i = s + BitVec.ofNat 32 (i + 1) := by
  rw [BitVec.add_assoc, Nat.add_comm, BitVec.ofNat_add]

theorem strnlen_spec : ∀ (s : BitVec 32) (len : ℕ) (t : Access), ∃ n rs,
    strnlen mem s len t = ({ t with reads := rs ++ t.reads }, n) ∧ n ≤ len
      ∧ (∀ i < n, mem (s + BitVec.ofNat 32 i) ≠ 0#8)
      ∧ (n < len → mem (s + BitVec.ofNat 32 n) = 0#8)
      ∧ ∀ a ∈ rs, ∃ i < len, a = s + BitVec.ofNat 32 i
  | s, 0, t => ⟨0, [], rfl, Nat.le_refl 0, by simp, by simp, by simp⟩
  | s, len + 1, t => by
    by_cases h0 : mem s = 0#8
    · refine ⟨0, [s], ?_, by omega, by simp, fun _ => by simpa using h0, fun a ha => ?_⟩
      · rw [strnlen, if_pos h0]
        rfl
      · exact ⟨0, by omega, by simpa using ha⟩
    · obtain ⟨n, rs, he, hle, hne, hnul, hrs⟩ := strnlen_spec (s + 1#32) len (t.read s)
      refine ⟨n + 1, rs ++ [s], ?_, by omega, fun i hi => ?_, fun hn => ?_, fun a ha => ?_⟩
      · rw [strnlen, if_neg h0, he]
        simp [Access.read]
      · cases i with
        | zero => simpa using h0
        | succ i =>
          rw [← add_succ]
          exact hne i (by omega)
      · rw [← add_succ]
        exact hnul (by omega)
      · rcases List.mem_append.1 ha with ha | ha
        · obtain ⟨i, hi, rfl⟩ := hrs a ha
          exact ⟨i + 1, by omega, add_succ s i⟩
        · exact ⟨0, by omega, by simpa using ha⟩

theorem memcpy_spec : ∀ (d : ℕ) (s : BitVec 32) (n : ℕ) (t : Access),
    (∀ a ∈ (memcpy mem d s n t).reads, a ∈ t.reads ∨ ∃ i < n, a = s + BitVec.ofNat 32 i)
      ∧ (∀ j, j ∈ (memcpy mem d s n t).writes ↔ j ∈ t.writes ∨ d ≤ j ∧ j < d + n)
      ∧ (∀ i < n, (memcpy mem d s n t).dst (d + i) = mem (s + BitVec.ofNat 32 i))
      ∧ ∀ j, j < d ∨ d + n ≤ j → (memcpy mem d s n t).dst j = t.dst j
  | d, s, 0, t => ⟨fun a ha => .inl ha, fun j => by simp [memcpy], by simp, fun _ _ => rfl⟩
  | d, s, n + 1, t => by
    obtain ⟨hr, hw, hin, hout⟩ := memcpy_spec (d + 1) (s + 1#32) n ((t.read s).write d (mem s))
    rw [memcpy]
    refine ⟨fun a ha => ?_, fun j => ?_, fun i hi => ?_, fun j hj => ?_⟩
    · rcases hr a ha with ha | ⟨i, hi, rfl⟩
      · rcases List.mem_cons.1 ha with rfl | ha
        · exact .inr ⟨0, by omega, by simp⟩
        · exact .inl ha
      · exact .inr ⟨i + 1, by omega, add_succ s i⟩
    · rw [hw j]
      have hcons : j ∈ ((t.read s).write d (mem s)).writes ↔ j = d ∨ j ∈ t.writes := List.mem_cons
      rw [hcons]
      constructor
      · rintro ((rfl | hj) | hj)
        · exact .inr (by omega)
        · exact .inl hj
        · exact .inr (by omega)
      · rintro (hj | hj)
        · exact .inl (.inr hj)
        · by_cases h : j = d
          · exact .inl (.inl h)
          · exact .inr (by omega)
    · cases i with
      | zero =>
        rw [hout (d + 0) (by omega)]
        simp [Access.write]
      | succ i =>
        rw [← add_succ s i, ← hin i (by omega), Nat.add_assoc, Nat.add_comm 1 i]
    · rw [hout j (by omega)]
      exact Function.update_of_ne (by omega) _ _

end Strings

/-! ## Pieces -/

/-- The areas are made of whole pages. -/
def PageAligned (m : Mm) (vs : List ℕ) : Prop :=
  ∀ v ∈ vs, (m.vma v).vmStart.toNat % 4096 = 0 ∧ (m.vma v).vmEnd.toNat % 4096 = 0

/-- The byte is in user space, and in an area that can be read. -/
def Readable (m : Mm) (vs : List ℕ) (x : ℕ) : Prop :=
  0x200000 ≤ x ∧ x < 0x80000000 ∧ Allowed m vs false x

/-- The bytes of a page can all be read or none. -/
theorem Readable.page (hp : PageAligned m vs) {x y : ℕ} (hxy : x / 4096 = y / 4096)
    (h : Readable m vs x) : Readable m vs y := by
  obtain ⟨hlo, hhi, v, hv, h1, h2, hf, -⟩ := h
  obtain ⟨ha, hb⟩ := hp v hv
  refine ⟨by omega, by omega, v, hv, by omega, by omega, hf, fun hw => ?_⟩
  cases hw

/-- The check of a piece that does not go beyond the page of its first byte. -/
theorem Areas.checkPiece (h : Areas m vs) (hc : CacheOk m vs) (hp : PageAligned m vs)
    {src part : BitVec 32} (hpos : 0 < part.toNat) (hend : src.toNat % 4096 + part.toNat ≤ 4096) :
    ∃ c r, m.userMemCheck src part false = some ({ m with mmapCache := c }, r)
      ∧ CacheOk { m with mmapCache := c } vs ∧ (r = true ↔ Readable m vs src.toNat) := by
  obtain ⟨c, r, he, hc', hr⟩ := h.userMemCheck hc src part false
  refine ⟨c, r, he, hc', hr.trans ⟨fun ⟨h1, h2, h3, h4⟩ => ?_, fun hread => ?_⟩⟩
  · exact ⟨h1, by omega, h4 _ (Nat.le_refl _) (by omega)⟩
  · have hlo := hread.1
    have hhi := hread.2.1
    refine ⟨hlo, hpos, by omega, fun x h1 h2 => (hread.page hp ?_).2.2⟩
    omega

/-! ## The loop -/

section Loop

variable (m vs) (mem : BitVec 32 → BitVec 8) (dst : ℕ → BitVec 8) (src maxn : BitVec 32)

/-- The byte at index `i` of the string. -/
def byteAt (i : ℕ) : BitVec 32 := src + BitVec.ofNat 32 i

/-- The accesses so far are to bytes that can be read and to the buffer, and the first `d` bytes of
the string are in it. -/
structure Copying (d : ℕ) (t : Access) : Prop where
  reads : ∀ a ∈ t.reads, Readable m vs a.toNat
  writes : ∀ i ∈ t.writes, i < maxn.toNat
  same : ∀ i, i ∉ t.writes → t.dst i = dst i
  copied : ∀ i < d, t.dst i = mem (byteAt src i)

/-- A string that can be read ends at `k`. -/
def EndsAt (k : ℕ) : Prop :=
  mem (byteAt src k) = 0#8 ∧ ∀ i ≤ k, Readable m vs (byteAt src i).toNat

/-- What `copy_string` returns, and with which accesses. -/
def Copies (r : Bool) (t : Access) : Prop :=
  (r = true ↔ ∃ k < maxn.toNat, EndsAt m vs mem src k)
  ∧ (r = true → ∃ k < maxn.toNat, (∀ i < k, mem (byteAt src i) ≠ 0#8) ∧ EndsAt m vs mem src k
    ∧ ∀ i ≤ k, t.dst i = mem (byteAt src i))
  ∧ (∀ a ∈ t.reads, Readable m vs a.toNat) ∧ (∀ i ∈ t.writes, i < maxn.toNat)
  ∧ ∀ i, i ∉ t.writes → t.dst i = dst i

variable {m vs mem dst src maxn}

theorem byteAt_add (d i : ℕ) : byteAt src d + BitVec.ofNat 32 i = byteAt src (d + i) := by
  rw [byteAt, byteAt, BitVec.ofNat_add, BitVec.add_assoc]

theorem Copying.strnlen {d len : ℕ} {t : Access} (h : Copying m vs mem dst src maxn d t)
    (hread : ∀ i < len, Readable m vs (byteAt src (d + i)).toNat) :
    ∃ n t', Mm.strnlen mem (byteAt src d) len t = (t', n) ∧ Copying m vs mem dst src maxn d t'
      ∧ n ≤ len ∧ (∀ i < n, mem (byteAt src (d + i)) ≠ 0#8)
      ∧ (n < len → mem (byteAt src (d + n)) = 0#8) := by
  obtain ⟨n, rs, he, hle, hne, hnul, hrs⟩ := strnlen_spec mem (byteAt src d) len t
  simp only [byteAt_add] at hne hnul hrs
  refine ⟨n, _, he, ⟨fun a ha => ?_, h.writes, h.same, h.copied⟩, hle, hne, hnul⟩
  rcases List.mem_append.1 ha with ha | ha
  · obtain ⟨i, hi, rfl⟩ := hrs a ha
    exact hread i hi
  · exact h.reads a ha

theorem Copying.memcpy {d n : ℕ} {t : Access} (h : Copying m vs mem dst src maxn d t)
    (hread : ∀ i < n, Readable m vs (byteAt src (d + i)).toNat) (hn : d + n ≤ maxn.toNat) :
    Copying m vs mem dst src maxn (d + n) (Mm.memcpy mem d (byteAt src d) n t) := by
  obtain ⟨hr, hw, hin, hout⟩ := memcpy_spec mem d (byteAt src d) n t
  simp only [byteAt_add] at hr hin
  refine ⟨fun a ha => ?_, fun i hi => ?_, fun i hi => ?_, fun i hi => ?_⟩
  · rcases hr a ha with ha | ⟨i, hi, rfl⟩
    · exact h.reads a ha
    · exact hread i hi
  · rcases (hw i).1 hi with hi | hi
    · exact h.writes i hi
    · omega
  · rw [hw i, not_or] at hi
    rw [hout i (by omega), h.same i hi.1]
  · by_cases hd : i < d
    · rw [hout i (.inl hd), h.copied i hd]
    · obtain ⟨j, rfl⟩ : ∃ j, i = d + j := ⟨i - d, by omega⟩
      exact hin j (by omega)

/-- The string does not end in the buffer. -/
theorem Copying.fails {d : ℕ} {t : Access} (h : Copying m vs mem dst src maxn d t)
    (hno : ∀ k < maxn.toNat, ¬ EndsAt m vs mem src k) : Copies m vs mem dst src maxn false t := by
  refine ⟨⟨fun hf => ?_, fun ⟨k, hk, hend⟩ => absurd hend (hno k hk)⟩, fun hf => ?_,
    h.reads, h.writes, h.same⟩ <;> cases hf

/-- It ends at `k`, and is in the buffer with its end. -/
theorem Copying.ends {k : ℕ} {t : Access} (h : Copying m vs mem dst src maxn (k + 1) t)
    (hk : k < maxn.toNat) (hne : ∀ i < k, mem (byteAt src i) ≠ 0#8)
    (hend : EndsAt m vs mem src k) : Copies m vs mem dst src maxn true t :=
  ⟨⟨fun _ => ⟨k, hk, hend⟩, fun _ => rfl⟩,
    fun _ => ⟨k, hk, hne, hend, fun i hi => h.copied i (by omega)⟩, h.reads, h.writes, h.same⟩

theorem toNat_byteAt_add {d i : ℕ} (hi : (byteAt src d).toNat + i < 2 ^ 32) :
    (byteAt src (d + i)).toNat = (byteAt src d).toNat + i := by
  rw [← byteAt_add, BitVec.toNat_add, BitVec.toNat_ofNat]
  omega

theorem copyFrom_spec (h : Areas m vs) (hp : PageAligned m vs) :
    ∀ {fuel d : ℕ} {c : Option ℕ} {rest part : BitVec 32} {t : Access},
      CacheOk { m with mmapCache := c } vs → Copying m vs mem dst src maxn d t →
      (∀ i < d, mem (byteAt src i) ≠ 0#8 ∧ Readable m vs (byteAt src i).toNat) →
      d + rest.toNat = maxn.toNat → 0 < part.toNat →
      (byteAt src d).toNat % 4096 + part.toNat = 4096 → rest.toNat < fuel →
      ∃ c' t' r, copyFrom mem fuel { m with mmapCache := c } d (byteAt src d) rest part t =
          some ({ m with mmapCache := c' }, t', r) ∧ Copies m vs mem dst src maxn r t'
  | 0, _, _, _, _, _, _, _, _, _, _, _, hfuel => absurd hfuel (Nat.not_lt_zero _)
  | fuel + 1, d, c, rest, part, t, hc, ht, hbefore, hrest, hpos, hend, hfuel => by
    have h' : Areas { m with mmapCache := c } vs := ⟨h.ring, h.nonempty, h.sorted, h.count⟩
    rw [copyFrom]
    obtain ⟨p, hp'⟩ : ∃ p, p = if part > rest then rest else part := ⟨_, rfl⟩
    have hmin : p.toNat = min part.toNat rest.toNat := by
      rw [hp']
      split_ifs with hgt
      · rw [gt_iff_lt, BitVec.lt_def] at hgt
        omega
      · rw [gt_iff_lt, BitVec.lt_def] at hgt
        omega
    rw [← hp']
    dsimp only
    by_cases hzero : rest.toNat = 0
    · -- the buffer is empty, and so is the piece, which is refused
      obtain ⟨c', r, he, -, hr⟩ := h'.userMemCheck hc (byteAt src d) p false
      have hr : r = false := Bool.eq_false_iff.2 fun hr' => by
        have := (hr.1 hr').2.1
        omega
      rw [he, hr]
      exact ⟨c', t, false, rfl, ht.fails fun k hk hk' => (hbefore k (by omega)).1 hk'.1⟩
    have hfit : (byteAt src d).toNat % 4096 + p.toNat ≤ 4096 := by omega
    obtain ⟨c', r, he, hc', hr⟩ := h'.checkPiece hc hp (show 0 < p.toNat by omega) hfit
    rw [he]
    cases r with
    | false =>
      have hunread : ¬ Readable m vs (byteAt src d).toNat := fun hread => nomatch hr.2 hread
      refine ⟨c', t, false, rfl, ht.fails fun k hk hk' => ?_⟩
      by_cases hkd : k < d
      · exact (hbefore k hkd).1 hk'.1
      · exact hunread (hk'.2 d (by omega))
    | true =>
      have hfirst : Readable m vs (byteAt src d).toNat := hr.1 rfl
      have hread : ∀ i < p.toNat, Readable m vs (byteAt src (d + i)).toNat := by
        intro i hi
        have hhi := hfirst.2.1
        rw [toNat_byteAt_add (by omega)]
        exact hfirst.page hp (by omega)
      obtain ⟨n, t₁, hlen, ht₁, hle, hne, hnul⟩ := ht.strnlen hread
      have hall : ∀ i < d + n, mem (byteAt src i) ≠ 0#8 := by
        intro i hi
        by_cases hid : i < d
        · exact (hbefore i hid).1
        · obtain ⟨j, rfl⟩ : ∃ j, i = d + j := ⟨i - d, by omega⟩
          exact hne j (by omega)
      have hreadAll : ∀ i < d + p.toNat, Readable m vs (byteAt src i).toNat := by
        intro i hi
        by_cases hid : i < d
        · exact (hbefore i hid).2
        · obtain ⟨j, rfl⟩ : ∃ j, i = d + j := ⟨i - d, by omega⟩
          exact hread j (by omega)
      dsimp only [Option.bind_eq_bind, Option.bind_some]
      rw [hlen]
      dsimp only
      by_cases hlt : n < p.toNat
      · have ht₂ := ht₁.memcpy (n := n + 1) (fun i hi => hread i (by omega)) (by omega)
        have hends : EndsAt m vs mem src (d + n) :=
          ⟨hnul hlt, fun i hi => hreadAll i (by omega)⟩
        refine ⟨c', _, true, ?_, ht₂.ends (show d + n < maxn.toNat by omega) hall hends⟩
        rw [if_pos hlt]
        rfl
      · obtain rfl : n = p.toNat := by omega
        by_cases hlast : p = rest
        · refine ⟨c', t₁, false, ?_, ht₁.fails fun k hk hk' => hall k ?_ hk'.1⟩
          · rw [if_neg hlt, if_pos hlast]
            rfl
          · rw [hlast]
            omega
        · -- the piece ends with its page, so the next one is a page
          have hpart : p.toNat = part.toNat := by
            have : p.toNat ≠ rest.toNat := fun he => hlast (BitVec.eq_of_toNat_eq he)
            omega
          have hsrc : byteAt src d + p = byteAt src (d + p.toNat) := by
            rw [← byteAt_add, BitVec.ofNat_toNat, BitVec.setWidth_eq]
          have hhi := hfirst.2.1
          have hsub : (rest - p).toNat = rest.toNat - p.toNat := by
            rw [BitVec.toNat_sub]
            omega
          have hpage : pgsize.toNat = 4096 := rfl
          have hnext : (byteAt src (d + p.toNat)).toNat = _ := toNat_byteAt_add (by omega)
          have ht₂ := ht₁.memcpy hread (by omega)
          rw [if_neg hlt, if_neg hlast, hsrc]
          exact copyFrom_spec h hp hc' ht₂ (fun i hi => ⟨hall i hi, hreadAll i hi⟩) (by omega)
            (by omega) (by omega) (by omega)

/-- On areas of whole pages `copy_string` returns, with 1 if and only if the string can be read up
to an end below `maxn`, and then with the string and its end in the buffer; it reads nothing that
cannot be read, and writes nothing beyond the buffer. -/
theorem copyString_copies (h : Areas m vs) (hc : CacheOk m vs) (hp : PageAligned m vs)
    (mem : BitVec 32 → BitVec 8) (dst : ℕ → BitVec 8) (src maxn : BitVec 32) :
    ∃ c t r, m.copyString mem dst src maxn = some ({ m with mmapCache := c }, t, r)
      ∧ Copies m vs mem dst src maxn r t := by
  have hpart : (roundDown (src + pgsize) pgsize - src).toNat = 4096 - src.toNat % 4096 := by
    have hpage : pgsize.toNat = 4096 := rfl
    rw [BitVec.toNat_sub, toNat_roundDown, BitVec.toNat_add, hpage]
    omega
  have hsrc : byteAt src 0 = src := BitVec.add_zero src
  have ht : Copying m vs mem dst src maxn 0 ⟨[], [], dst⟩ :=
    ⟨by simp, by simp, fun _ _ => rfl, by simp⟩
  have hspec := copyFrom_spec h hp hc ht (by simp) (Nat.zero_add maxn.toNat)
    (show 0 < (roundDown (src + pgsize) pgsize - src).toNat by omega) (by rw [hsrc]; omega)
    (Nat.lt_succ_self _)
  rw [hsrc] at hspec
  exact hspec

end Loop

/-- A string of two letters before a page boundary, and its end behind it. -/
def twoLetters (a : BitVec 32) : BitVec 8 :=
  if a = 0x00800ffe#32 then 0x68#8 else if a = 0x00800fff#32 then 0x69#8 else 0#8

theorem copyString_copies_twoLetters :
    ∃ c t, oneArea.copyString twoLetters (fun _ => 0xff#8) 0x00800ffe#32 8#32 =
        some ({ oneArea with mmapCache := c }, t, true)
      ∧ t.dst 0 = 0x68#8 ∧ t.dst 1 = 0x69#8 ∧ t.dst 2 = 0#8 ∧ ∀ i, 8 ≤ i → i ∉ t.writes := by
  have haligned : PageAligned oneArea [1] := fun v _ =>
    show (0x00800000#32).toNat % 4096 = 0 ∧ (0x00802000#32).toNat % 4096 = 0 by decide
  obtain ⟨c, t, r, he, hr, hdst, -, hwrites, -⟩ := copyString_copies oneArea_areas.1
    oneArea_areas.2 haligned twoLetters (fun _ => 0xff#8) 0x00800ffe#32 8#32
  have hread : ∀ x, 0x00800000 ≤ x → x < 0x00802000 → Readable oneArea [1] x := fun x h1 h2 =>
    ⟨by omega, by omega, 1, List.mem_singleton_self 1, h1, h2, rfl, fun h => nomatch h⟩
  have hends : EndsAt oneArea [1] twoLetters 0x00800ffe#32 2 := by
    refine ⟨rfl, fun i hi => ?_⟩
    obtain rfl | rfl | rfl : i = 0 ∨ i = 1 ∨ i = 2 := by omega
    · exact hread _ (by decide) (by decide)
    · exact hread _ (by decide) (by decide)
    · exact hread _ (by decide) (by decide)
  obtain rfl : r = true := hr.2 ⟨2, by decide, hends⟩
  obtain ⟨k, -, hne, hk, hall⟩ := hdst rfl
  have h2 : ¬ 2 < k := fun h => hne 2 h rfl
  have h0 : k ≠ 0 := by
    rintro rfl
    exact absurd hk.1 (by decide)
  have h1 : k ≠ 1 := by
    rintro rfl
    exact absurd hk.1 (by decide)
  exact ⟨c, t, he, hall 0 (by omega), hall 1 (by omega), hall 2 (by omega),
    fun i hi hw => absurd (hwrites i hw) (by simpa using hi)⟩

end Mm

end Ucore

end CacheCPU
