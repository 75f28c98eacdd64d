import Mathlib.Data.BitVec
import Mathlib.Logic.Function.Basic
import Mathlib.Tactic.Ring

/-!
# Bytes in words

A memory of bytes that is laid out little-endian in an array of 32-bit words. The low two bits of
a byte address are the lane in the word, the others the index of the word.
-/

namespace ByteMemory

variable {k : ℕ} {W : BitVec k → BitVec 32} {a b : BitVec (k + 2)} {v : BitVec 32}

def index (a : BitVec (k + 2)) : BitVec k := a.extractLsb' 2 k

def lane (a : BitVec (k + 2)) : BitVec 2 := a.extractLsb' 0 2

/-- The byte of a word in a lane. -/
def byteAt (l : BitVec 2) (v : BitVec 32) : BitVec 8 := v.extractLsb' (8 * l.toNat) 8

/-- A word with another byte in a lane. -/
def setByteAt (l : BitVec 2) (v : BitVec 32) (b : BitVec 8) : BitVec 32 :=
  if l = 0#2 then v.extractLsb 31 8 ++ b
  else if l = 1#2 then v.extractLsb 31 16 ++ b ++ v.extractLsb 7 0
  else if l = 2#2 then v.extractLsb 31 24 ++ b ++ v.extractLsb 15 0
  else b ++ v.extractLsb 23 0

/-- The bytes of an array of words. -/
def bytes (W : BitVec k → BitVec 32) (a : BitVec (k + 2)) : BitVec 8 :=
  byteAt (lane a) (W (index a))

/-! ## Accesses -/

variable (M : BitVec (k + 2) → BitVec 8)

def half (a : BitVec (k + 2)) : BitVec 16 := M (a + 1#_) ++ M a

def word (a : BitVec (k + 2)) : BitVec 32 := M (a + 3#_) ++ M (a + 2#_) ++ M (a + 1#_) ++ M a

def putByte (a : BitVec (k + 2)) (v : BitVec 8) : BitVec (k + 2) → BitVec 8 :=
  Function.update M a v

def putWord (a : BitVec (k + 2)) (v : BitVec 32) : BitVec (k + 2) → BitVec 8 :=
  putByte (putByte (putByte (putByte M a (byteAt 0#2 v)) (a + 1#_) (byteAt 1#2 v)) (a + 2#_)
    (byteAt 2#2 v)) (a + 3#_) (byteAt 3#2 v)

/-! ## Addresses -/

theorem toNat_eq (a : BitVec (k + 2)) : a.toNat = 4 * (index a).toNat + (lane a).toNat := by
  have ha := a.isLt
  have h2 : 2 ^ (k + 2) = 4 * 2 ^ k := by ring
  have hdiv : a.toNat / 4 < 2 ^ k := by omega
  have hi : (index a).toNat = a.toNat / 4 := by
    simp [index, Nat.shiftRight_eq_div_pow, Nat.mod_eq_of_lt hdiv]
  have hl : (lane a).toNat = a.toNat % 4 := by simp [lane]
  omega

theorem ext_iff : a = b ↔ index a = index b ∧ lane a = lane b := by
  refine ⟨fun h => by rw [h]; exact ⟨rfl, rfl⟩, fun ⟨hi, hl⟩ => ?_⟩
  rw [← BitVec.toNat_inj, toNat_eq a, toNat_eq b, hi, hl]

/-- The bytes of one word have successive addresses. -/
theorem add_lane {i : ℕ} (h : (lane a).toNat + i < 4) :
    index (a + BitVec.ofNat _ i) = index a ∧
      lane (a + BitVec.ofNat _ i) = lane a + BitVec.ofNat 2 i := by
  have h1 := toNat_eq a
  have h2 := toNat_eq (a + BitVec.ofNat _ i)
  have hlt := (index a).isLt
  have hl := (lane (a + BitVec.ofNat _ i)).isLt
  have hp : 2 ^ (k + 2) = 4 * 2 ^ k := by ring
  have hsum : (a + BitVec.ofNat _ i).toNat = a.toNat + i := by
    rw [BitVec.toNat_add, BitVec.toNat_ofNat, Nat.add_mod_mod, Nat.mod_eq_of_lt (by omega)]
  rw [← BitVec.toNat_inj, ← BitVec.toNat_inj, BitVec.toNat_add, BitVec.toNat_ofNat]
  omega

theorem bytes_add {i : ℕ} (h : (lane a).toNat + i < 4) :
    bytes W (a + BitVec.ofNat _ i) = byteAt (lane a + BitVec.ofNat 2 i) (W (index a)) := by
  obtain ⟨hi, hl⟩ := add_lane h
  rw [bytes, hi, hl]

/-! ## What is read -/

theorem word_bytes (h : lane a = 0#2) : word (bytes W) a = W (index a) := by
  rw [word, bytes_add (by simp [h]), bytes_add (by simp [h]), bytes_add (by simp [h]), bytes, h]
  generalize W (index a) = v
  ext i hi
  simp only [byteAt]
  grind

theorem half_bytes (h : (lane a).getLsbD 0 = false) : half (bytes W) a =
    if (lane a).getLsbD 1 then (W (index a)).extractLsb 31 16 else (W (index a)).extractLsb 15 0 := by
  have hl : lane a = 0#2 ∨ lane a = 2#2 := by
    generalize lane a = l at h
    revert l
    decide
  rcases hl with hl | hl
  · rw [half, bytes_add (by simp [hl]), bytes, hl]
    generalize W (index a) = v
    ext i hi
    simp [byteAt]
    grind
  · rw [half, bytes_add (by simp [hl]), bytes, hl]
    generalize W (index a) = v
    ext i hi
    simp [byteAt]
    grind

/-! ## What is written -/

theorem bytes_putByte {v : BitVec 8} {u : BitVec 32}
    (h : ∀ l, byteAt l u = if l = lane a then v else byteAt l (W (index a))) :
    bytes (Function.update W (index a) u) = putByte (bytes W) a v := by
  funext b
  by_cases hb : b = a
  · subst hb
    simp [bytes, putByte, h]
  · rw [putByte, Function.update_of_ne hb]
    by_cases hi : index b = index a
    · have hl : lane b ≠ lane a := fun hl => hb (ext_iff.2 ⟨hi, hl⟩)
      simp [bytes, hi, h, hl]
    · simp [bytes, hi]

theorem byteAt_setByteAt (l k : BitVec 2) (v : BitVec 32) (b : BitVec 8) :
    byteAt k (setByteAt l v b) = if k = l then b else byteAt k v := by
  have hl : l = 0#2 ∨ l = 1#2 ∨ l = 2#2 ∨ l = 3#2 := by
    revert l
    decide
  have hk : k = 0#2 ∨ k = 1#2 ∨ k = 2#2 ∨ k = 3#2 := by
    revert k
    decide
  rcases hl with rfl | rfl | rfl | rfl <;> rcases hk with rfl | rfl | rfl | rfl <;>
    (ext i hi; simp [setByteAt, byteAt]; grind)

theorem eq_add {i : ℕ} (h : lane a = 0#2) (hi : i < 4) :
    b = a + BitVec.ofNat _ i ↔ index b = index a ∧ lane b = BitVec.ofNat 2 i := by
  obtain ⟨h1, h2⟩ := add_lane (a := a) (i := i) (by simpa [h] using hi)
  rw [ext_iff, h1, h2, h, BitVec.zero_add]

theorem bytes_putWord (h : lane a = 0#2) :
    bytes (Function.update W (index a) v) = putWord (bytes W) a v := by
  funext b
  have h0 : b = a ↔ index b = index a ∧ lane b = 0#2 := by rw [ext_iff, h]
  simp only [putWord, putByte, Function.update_apply, eq_add h (by decide : 1 < 4),
    eq_add h (by decide : 2 < 4), eq_add h (by decide : 3 < 4), h0, bytes]
  by_cases hi : index b = index a
  · have hl : lane b = 0#2 ∨ lane b = 1#2 ∨ lane b = 2#2 ∨ lane b = 3#2 := by
      generalize lane b = l
      revert l
      decide
    rcases hl with hl | hl | hl | hl <;> simp [hi, hl]
  · simp [hi]

end ByteMemory
