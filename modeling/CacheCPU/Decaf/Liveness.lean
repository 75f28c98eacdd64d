import CacheCPU.Decaf.FlowGraph
import Mathlib.Data.Finset.Basic
import Mathlib.Logic.Function.Basic

/-!
# Liveness: `analyzeLiveness` of `decaf/dataflow/FlowGraph.java` and `BasicBlock.java`

The sets of a block are kept by its place in `bbs`. `Temp.lastVisitedBB` is a map that the blocks
pass on one to the next; it is `-1` for a temporary that no block has visited, and a temporary
belongs to one function. An exception, or a loop that does not end, is `none`.
-/

namespace CacheCPU

namespace Decaf

namespace FlowGraph

structure LiveSets where
  defs : Finset Temp
  liveUse : Finset Temp
  liveIn : Finset Temp
  liveOut : Finset Temp

/-! ## `computeDefAndLiveUse` -/

/-- The state of the loop over the operations of a block. -/
structure Visit where
  lastVisitedBB : Temp → ℤ
  defs : Finset Temp
  liveUse : Finset Temp

namespace Visit

variable (bbNum : ℤ) (v : Visit)

def use (t : Temp) : Visit :=
  if v.lastVisitedBB t ≠ bbNum then
    { v with
      liveUse := insert t v.liveUse
      lastVisitedBB := Function.update v.lastVisitedBB t bbNum }
  else v

def define (t : Temp) : Visit :=
  if v.lastVisitedBB t ≠ bbNum then
    { v with
      defs := insert t v.defs
      lastVisitedBB := Function.update v.lastVisitedBB t bbNum }
  else v

/-- `op0` of a call without a result is `null`. -/
def define? (t : Option Temp) : Visit := t.elim v (v.define bbNum)

def visitTac : Tac → Visit
  | .instr (.binary _ dst src1 src2) => ((v.use bbNum src1).use bbNum src2).define bbNum dst
  | .instr (.neg dst src) => (v.use bbNum src).define bbNum dst
  | .instr (.lnot dst src) => (v.use bbNum src).define bbNum dst
  | .instr (.assign dst src) => (v.use bbNum src).define bbNum dst
  | .instr (.indirectCall dst func) => (v.use bbNum func).define? bbNum dst
  | .instr (.load dst base _) => (v.use bbNum base).define bbNum dst
  | .instr (.loadVtbl dst _) => v.define bbNum dst
  | .instr (.directCall dst _) => v.define? bbNum dst
  | .ret src => v.define? bbNum src
  | .instr (.loadStrConst dst _) => v.define bbNum dst
  | .instr (.loadImm4 dst _) => v.define bbNum dst
  | .instr (.mflo dst) => v.define bbNum dst
  | .instr (.store src base _) => (v.use bbNum src).use bbNum base
  | .instr (.mult src1 src2) => (v.use bbNum src1).use bbNum src2
  | .instr (.parm src) => v.use bbNum src
  | .branch _ => v
  | .beqz _ _ => v
  | .bnez _ _ => v
  | .mark _ => v

end Visit

/-- The state behind the block, its condition or result included. -/
def visitBlock (bb : BasicBlock) (lastVisitedBB : Temp → ℤ) : Visit :=
  let v := bb.tacList.foldl (Visit.visitTac bb.bbNum) ⟨lastVisitedBB, ∅, ∅⟩
  bb.var.elim v (v.use bb.bbNum)

def computeDefAndLiveUse : List BasicBlock → (Temp → ℤ) → List LiveSets
  | [], _ => []
  | bb :: bbs, lastVisitedBB =>
    let v := visitBlock bb lastVisitedBB
    ⟨v.defs, v.liveUse, v.liveUse, ∅⟩ :: computeDefAndLiveUse bbs v.lastVisitedBB

/-! ## `FlowGraph.analyzeLiveness` -/

/-- The sets of every block, by its place. -/
abbrev Liveness := ℕ → LiveSets

def initial (bbs : List BasicBlock) : Liveness := fun i =>
  ((computeDefAndLiveUse bbs fun _ => -1)[i]?).getD ⟨∅, ∅, ∅, ∅⟩

/-- The block at `i` in the loop over the blocks, with `changed`. -/
def updateBlock (bbs : List BasicBlock) (s : Liveness × Bool) (i : ℕ) :
    Option (Liveness × Bool) := do
  let bb ← bbs[i]?
  let _ ← getBlock bbs bb.next0
  let _ ← getBlock bbs bb.next1
  let live := s.1
  let out := (live i).liveOut ∪ (live bb.next0.toNat).liveIn ∪ (live bb.next1.toNat).liveIn
  let out := out \ (live i).defs
  let changed := s.2 || !decide (out ⊆ (live i).liveIn)
  let live := Function.update live i { live i with liveIn := (live i).liveIn ∪ out, liveOut := out }
  let out := (live i).liveOut ∪ (live bb.next0.toNat).liveIn ∪ (live bb.next1.toNat).liveIn
  pure (Function.update live i { live i with liveOut := out }, changed)

/-- One round of the loop `do … while (changed)`. -/
def pass (bbs : List BasicBlock) (live : Liveness) : Option (Liveness × Bool) :=
  (List.range bbs.length).foldlM (updateBlock bbs) (live, false)

def rounds (bbs : List BasicBlock) : ℕ → Liveness → Option Liveness
  | 0, _ => none
  | n + 1, live => do
    let (live, changed) ← pass bbs live
    if changed then rounds bbs n live else pure live

def analyzeLiveness (bbs : List BasicBlock) (n : ℕ) : Option Liveness :=
  rounds bbs n (initial bbs)

/-! ## `BasicBlock.analyzeLiveness` -/

/-- `tac.prev.liveOut`, from `tac.liveOut`. -/
def beforeTac (live : Finset Temp) : Tac → Finset Temp
  | .instr (.binary _ dst src1 src2) => insert src2 (insert src1 (live.erase dst))
  | .instr (.neg dst src) => insert src (live.erase dst)
  | .instr (.lnot dst src) => insert src (live.erase dst)
  | .instr (.assign dst src) => insert src (live.erase dst)
  | .instr (.indirectCall dst func) => insert func (dst.elim live live.erase)
  | .instr (.load dst base _) => insert base (live.erase dst)
  | .instr (.loadVtbl dst _) => live.erase dst
  | .instr (.directCall dst _) => dst.elim live live.erase
  | .ret src => src.elim live live.erase
  | .instr (.loadStrConst dst _) => live.erase dst
  | .instr (.loadImm4 dst _) => live.erase dst
  | .instr (.mflo dst) => live.erase dst
  | .instr (.store src base _) => insert base (insert src live)
  | .instr (.mult src1 src2) => insert src2 (insert src1 live)
  | .beqz cond _ => insert cond live
  | .bnez cond _ => insert cond live
  | .instr (.parm src) => insert src live
  | .branch _ => live
  | .mark _ => live

/-- `liveOut` of the operations, of which the last one has `last`. -/
def tacLiveOuts (last : Finset Temp) : List Tac → List (Finset Temp)
  | [] => []
  | [_] => [last]
  | _ :: tac :: tacs =>
    let outs := tacLiveOuts last (tac :: tacs)
    beforeTac (outs.headD last) tac :: outs

def analyzeBlock (bb : BasicBlock) (liveOut : Finset Temp) : List (Finset Temp) :=
  tacLiveOuts (bb.var.elim liveOut (insert · liveOut)) bb.tacList

end FlowGraph

end Decaf

end CacheCPU
