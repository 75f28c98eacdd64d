import Mathlib.Data.BitVec
import Mathlib.Logic.Function.Basic

/-!
# Console input: `kern/driver/console.c`, `kern/fs/devs/dev_stdin.c`

`cons_intr` puts what the serial port delivers into `cons`, the handler of `IRQ_COM1` moves it to
`stdin_buffer` one character at a time, and `dev_stdin_read` takes it from there. What the serial
port delivers in one call of `cons_intr` is an argument, the characters `serial_proc_data` returns
before its `-1`. `off_t` is an `int32_t`, and its increment wraps.
-/

namespace CacheCPU

namespace Ucore

/-- `CONSBUFSIZE`. -/
def consbufsize : ℕ := 512

/-- `STDIN_BUFSIZE`. -/
def stdinBufsize : ℤ := 4096

structure Console where
  buf : ℕ → BitVec 8
  rpos : ℕ
  wpos : ℕ
  stdinBuffer : ℤ → BitVec 8
  pRpos : ℤ
  pWpos : ℤ

namespace Console

variable (s : Console)

/-! ## `console.c` -/

/-- One turn of the loop of `cons_intr`. -/
def consPut (c : BitVec 8) : Console :=
  if c ≠ 0#8 then
    { s with
      buf := Function.update s.buf s.wpos c
      wpos := if s.wpos + 1 = consbufsize then 0 else s.wpos + 1 }
  else s

def consIntr (cs : List (BitVec 8)) : Console := cs.foldl consPut s

/-- `cons_getc`, which polls the serial port first. -/
def consGetc (cs : List (BitVec 8)) : BitVec 8 × Console :=
  let s := s.consIntr cs
  if s.rpos ≠ s.wpos then
    (s.buf s.rpos, { s with rpos := if s.rpos + 1 = consbufsize then 0 else s.rpos + 1 })
  else (0#8, s)

/-! ## `dev_stdin.c` -/

def incr (pos : ℤ) : ℤ := (pos + 1).bmod (2 ^ 32)

def devStdinWrite (c : BitVec 8) : Console :=
  if c ≠ 0#8 then
    let s := { s with stdinBuffer := Function.update s.stdinBuffer (s.pWpos.tmod stdinBufsize) c }
    if s.pWpos - s.pRpos < stdinBufsize then { s with pWpos := incr s.pWpos } else s
  else s

/-- `dev_stdin_read` up to where it has `len` characters or has to wait. -/
def devStdinRead (s : Console) : ℕ → List (BitVec 8) × Console
  | 0 => ([], s)
  | len + 1 =>
    if s.pRpos < s.pWpos then
      let c := s.stdinBuffer (s.pRpos.tmod stdinBufsize)
      let (cs, s) := devStdinRead { s with pRpos := incr s.pRpos } len
      (c :: cs, s)
    else ([], s)

/-! ## `trap.c` -/

/-- One turn of the loop for `IRQ_COM1`. -/
def irqTurn (cs : List (BitVec 8)) : BitVec 8 × Console :=
  let (c, s) := s.consGetc cs
  (c, if c ≠ 0#8 then s.devStdinWrite c else s)

end Console

end Ucore

end CacheCPU
