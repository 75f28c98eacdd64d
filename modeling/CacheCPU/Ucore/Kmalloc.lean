import Mathlib.Algebra.Group.Nat.Defs
import Mathlib.Logic.Function.Basic

/-!
# `kern/mm/kmalloc.c`: the SLOB allocator

A `slob_t *` is an address, `units` and `next` are the two words of the block there. `slob_alloc`
is called with `align = 0` throughout the kernel, and is modelled for it. `none` is a loop that has
gone round more often than there are addresses, or a failed assertion.
-/

namespace CacheCPU

namespace Ucore

structure Slob where
  units : ℕ → ℕ
  next : ℕ → ℕ
  slobfree : ℕ
  /-- How many pages have been asked for. -/
  calls : ℕ

namespace Slob

/-- `SLOB_UNIT`: `sizeof(slob_t)`. -/
def slobUnit : ℕ := 8

def pageSize : ℕ := 4096

/-- `SLOB_UNITS(size)`. -/
def slobUnits (size : ℕ) : ℕ := (size + slobUnit - 1) / slobUnit

/-- The heap at boot: `arena` is one unit and its own successor. -/
def boot (arena : ℕ) (units next : ℕ → ℕ) : Slob where
  units := Function.update units arena 1
  next := Function.update next arena arena
  slobfree := arena
  calls := 0

variable (s : Slob)

def setUnits (b u : ℕ) : Slob := { s with units := Function.update s.units b u }

def setNext (b n : ℕ) : Slob := { s with next := Function.update s.next b n }

/-! ## `slob_free` -/

/-- The loop of `slob_free`: the block to insert `b` after. -/
def findSpot (b : ℕ) : ℕ → ℕ → Option ℕ
  | 0, _ => none
  | fuel + 1, cur =>
    if cur < b ∧ b < s.next cur then some cur
    else if s.next cur ≤ cur ∧ (cur < b ∨ b < s.next cur) then some cur
    else findSpot b fuel (s.next cur)

/-- `b` before the block that follows `cur`, one with it if they touch. -/
def joinNext (cur b : ℕ) : Slob :=
  if b + slobUnit * s.units b = s.next cur then
    let s := s.setUnits b (s.units b + s.units (s.next cur))
    s.setNext b (s.next (s.next cur))
  else s.setNext b (s.next cur)

/-- `b` after `cur`, one with it if they touch. -/
def joinPrev (cur b : ℕ) : Slob :=
  if cur + slobUnit * s.units cur = b then
    let s := s.setUnits cur (s.units cur + s.units b)
    s.setNext cur (s.next b)
  else s.setNext cur b

def slobFree (block size : ℕ) : Option Slob :=
  if block = 0 then some s
  else do
    let s := if size ≠ 0 then s.setUnits block (slobUnits size) else s
    let cur ← s.findSpot block (2 ^ 34) s.slobfree
    let s := s.joinNext cur block
    let s := s.joinPrev cur block
    return { s with slobfree := cur }

/-! ## `slob_alloc` -/

/-- `units` from the front of `cur`, which follows `prev`. -/
def takeUnits (units prev cur : ℕ) : Slob :=
  let s :=
    if s.units cur = units then s.setNext prev (s.next cur)
    else
      let s := s.setNext prev (cur + slobUnit * units)
      let s := s.setUnits (s.next prev) (s.units cur - units)
      let s := s.setNext (s.next prev) (s.next cur)
      s.setUnits cur units
  { s with slobfree := prev }

/-- The loop of `slob_alloc`; `getFreePage k` is what the page allocator returns when it is asked
for the `k`-th time. -/
def allocFrom (getFreePage : ℕ → Option ℕ) (size : ℕ) :
    ℕ → Slob → ℕ → ℕ → Option (Slob × Option ℕ)
  | 0, _, _, _ => none
  | fuel + 1, s, prev, cur =>
    if slobUnits size ≤ s.units cur then some (s.takeUnits (slobUnits size) prev cur, some cur)
    else if cur = s.slobfree then
      if size = pageSize then some (s, none)
      else
        match getFreePage s.calls with
        | none => some ({ s with calls := s.calls + 1 }, none)
        | some page => do
          let s ← { s with calls := s.calls + 1 }.slobFree page pageSize
          allocFrom getFreePage size fuel s s.slobfree (s.next s.slobfree)
    else allocFrom getFreePage size fuel s cur (s.next cur)

def slobAlloc (getFreePage : ℕ → Option ℕ) (size : ℕ) : Option (Slob × Option ℕ) :=
  if size + slobUnit < pageSize then
    allocFrom getFreePage size (2 ^ 34) s s.slobfree (s.next s.slobfree)
  else none

/-! ## `__kmalloc` -/

/-- The loop of `find_order`, in `int`s. -/
def orderFrom : ℕ → BitVec 32 → ℕ → Option ℕ
  | 0, _, _ => none
  | fuel + 1, size, order =>
    if BitVec.slt 4096#32 size then orderFrom fuel (size.sshiftRight 1) (order + 1)
    else some order

def findOrder (size : BitVec 32) : Option ℕ := orderFrom 32 size 0

/-- `sizeof(bigblock_t)`. -/
def bigblockSize : ℕ := 12

end Slob

/-- The heap and the list of big blocks; a `bigblock_t` is the three words of a block of the heap,
`order` and `pages` at its address and `next` behind them. -/
structure Kheap where
  slob : Slob
  bigblocks : ℕ

namespace Kheap

open Slob

variable (k : Kheap)

/-- `getFreePages calls order` is what the page allocator returns for `2 ^ order` pages when the
heap has asked for `calls` pages. -/
def kmalloc (getFreePage : ℕ → Option ℕ) (getFreePages : ℕ → ℕ → Option ℕ)
    (size : BitVec 32) : Option (Kheap × Option ℕ) :=
  if size.toNat < pageSize - slobUnit then do
    let (s, m) ← k.slob.slobAlloc getFreePage (size.toNat + slobUnit)
    return ({ k with slob := s }, m.map (· + slobUnit))
  else do
    match ← k.slob.slobAlloc getFreePage bigblockSize with
    | (s, none) => return ({ k with slob := s }, none)
    | (s, some bb) =>
      let order ← findOrder size
      let s := s.setUnits bb order
      match getFreePages s.calls order with
      | some pages =>
        let s := s.setNext bb pages
        return ({ k with slob := s.setUnits (bb + slobUnit) k.bigblocks, bigblocks := bb }, some pages)
      | none =>
        let s ← (s.setNext bb 0).slobFree bb bigblockSize
        return ({ k with slob := s }, none)

end Kheap

end Ucore

end CacheCPU
