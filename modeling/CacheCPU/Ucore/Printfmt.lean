import Mathlib.Algebra.Group.Int.Defs
import Mathlib.Algebra.Group.Nat.Defs
import Mathlib.Data.Nat.Notation

/-!
# `libs/printfmt.c`: numbers, and `do_div` of `libs/mips32s.h`

The CPU has no divider, so `do_div` divides by 8 and 16 with shifts and by 10 with an approximation
of 1/10 that is corrected by one. Its variables `q` and `__mod` are `unsigned`, its argument is an
`unsigned long long`. What is printed is the list of the characters that `putch` is given.
-/

namespace CacheCPU

namespace Ucore

/-! ## `do_div` -/

/-- `(n >> 1) + (n >> 2)`, and the steps that bring it near `0.8 * n`. -/
def fourFifths (n : BitVec 64) : BitVec 32 :=
  let q := (n >>> 1 + n >>> 2).setWidth 32
  let q := q + q >>> 4
  let q := q + q >>> 8
  q + q >>> 16

/-- `n - (((q << 2) + q) << 1)`. -/
def restOf (n : BitVec 64) (q : BitVec 32) : BitVec 32 :=
  (n - ((q <<< 2 + q) <<< 1).setWidth 64).setWidth 32

/-- The new `n` and the value of the macro. -/
def doDiv (n : BitVec 64) (base : BitVec 32) : BitVec 64 × BitVec 32 :=
  if base = 10#32 then
    let q := fourFifths n >>> 3
    let q := q + (restOf n q + 6#32) >>> 4
    (q.setWidth 64, restOf n q)
  else if base = 16#32 then (n >>> 4, n.setWidth 32 &&& 0xf#32)
  else if base = 8#32 then (n >>> 3, n.setWidth 32 &&& 0x7#32)
  else if base = 2147483648#32 then (n >>> 31, n.setWidth 32 &&& 0x7fffffff#32)
  else (1#64, 3#32)

/-! ## `printnum` -/

/-- `"0123456789abcdef"[mod]`, the terminating NUL included. -/
def digitAt (mod : BitVec 32) : Option Char :=
  ("0123456789abcdef".toList ++ ['\x00'])[mod.toNat]?

/-- `while (-- width > 0) putch(padc, putdat, fd)`. -/
def padding (padc : Char) (width : BitVec 32) : List Char :=
  List.replicate (width - 1#32).toInt.toNat padc

/-- `none` when the fuel does not suffice or the digit table is read beyond its end. -/
def printnum : ℕ → BitVec 64 → BitVec 32 → BitVec 32 → Char → Option (List Char)
  | 0, _, _, _, _ => none
  | fuel + 1, num, base, width, padc =>
    let (result, mod) := doDiv num base
    let front :=
      if base.setWidth 64 ≤ num then printnum fuel result base (width - 1#32) padc
      else some (padding padc width)
    front.bind fun cs => (digitAt mod).map fun c => cs ++ [c]

/-! ## The number cases of `vprintfmt` -/

/-- An argument of `long long` is 64 bits long, one of `long` or `int` 32. -/
def getuint (arg : BitVec 64) (lflag : ℕ) : BitVec 64 :=
  if 2 ≤ lflag then arg else (arg.setWidth 32).setWidth 64

def getint (arg : BitVec 64) (lflag : ℕ) : BitVec 64 :=
  if 2 ≤ lflag then arg else (arg.setWidth 32).signExtend 64

inductive Conversion
  | d
  | u
  | o
  | p
  | x

/-- The conversion with the width, the pad character and the number of `l` read before it. -/
def Conversion.print (fuel : ℕ) (arg : BitVec 64) (lflag : ℕ) (width : BitVec 32) (padc : Char) :
    Conversion → Option (List Char)
  | d =>
    let num := getint arg lflag
    if num.slt 0#64 then (printnum fuel (-num) 10#32 width padc).map ('-' :: ·)
    else printnum fuel num 10#32 width padc
  | u => printnum fuel (getuint arg lflag) 10#32 width padc
  | o => printnum fuel (getuint arg lflag) 8#32 width padc
  | p => (printnum fuel ((arg.setWidth 32).setWidth 64) 16#32 width padc).map ('0' :: 'x' :: ·)
  | x => printnum fuel (getuint arg lflag) 16#32 width padc

end Ucore

end CacheCPU
