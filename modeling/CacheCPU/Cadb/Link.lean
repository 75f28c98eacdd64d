import CacheCPU.Async
import CacheCPU.Cadb.Debug

/-!
# The debugger with its transmitter

`com_debug` offers `datas(8 * slc + 7 downto 8 * slc)` to `async_transmitter`, which has the same
clock. What the debugger does is listed cycle by cycle.
-/

namespace CacheCPU

namespace Cadb

structure Link where
  dbg : Debug
  tx : Transmitter

/-- What comes from outside in a cycle: the target, the receiver and the baud generator. Byte `k` of
`datas` is `datas k`. -/
structure LinkIn where
  monitor : BitVec 64
  datas : BitVec 16 → BitVec 8
  receive : Option (BitVec 8)
  bitTick : Bool

namespace Link

variable (l : Link)

def debugIn (i : LinkIn) : DebugIn := ⟨i.monitor, i.receive, l.tx.busy⟩

/-- A cycle of `clk`. -/
def cycle (i : LinkIn) : Link where
  dbg := l.dbg.cycle (l.debugIn i)
  tx := l.tx.tick l.dbg.com.transmitSignal (i.datas l.dbg.com.slcNum) i.bitTick

inductive Event
  | exec (f : Frame)
  | pulse
  | byte (slc : BitVec 16) (v : BitVec 8)

/-- What happens in a cycle: a command is executed, a pulse is made, the transmitter takes a byte. -/
def events (i : LinkIn) : List Event :=
  (if l.dbg.bp.state = 0b010#3 then [.exec l.dbg.com.comingData] else []) ++
    (if (l.dbg.rise (l.debugIn i)).clkO then [.pulse] else []) ++
    ((l.tx.accepted l.dbg.com.transmitSignal (i.datas l.dbg.com.slcNum)).map
      (.byte l.dbg.com.slcNum)).toList

def IsReset : Prop := l.dbg.IsReset ∧ l.tx.state = 0b0000#4

/-- After `n` cycles. -/
def after (is : ℕ → LinkIn) : ℕ → Link
  | 0 => l
  | n + 1 => (after is n).cycle (is n)

/-- What has happened in the first `n` cycles. -/
def history (is : ℕ → LinkIn) : ℕ → List Event
  | 0 => []
  | n + 1 => history is n ++ (l.after is n).events (is n)

/-- The last byte of the command `f` comes. -/
def Completes (i : LinkIn) (f : Frame) : Prop :=
  l.dbg.com.count = 16 ∧
    ∃ x, i.receive = some x ∧ f = Function.update l.dbg.com.comingData 16 x

end Link

end Cadb

end CacheCPU
