import CacheCPU.Decaf.Tac
import Mathlib.Algebra.GroupWithZero.Nat

/-!
# Flow graphs: `decaf/dataflow/FlowGraph.java`, and `emitTrace` of `decaf/backend/Mips.java`

Blocks are numbered, gathered, cancelled, redirected and renumbered as in the source; an exception,
or a loop that does not end, is `none`. The instructions of a block are emitted as its operations,
since what they are made into is the matter of the register allocator.
-/

namespace CacheCPU

namespace Decaf

inductive EndKind where
  | byBranch
  | byBeqz
  | byBnez
  | byReturn
  deriving DecidableEq

structure BasicBlock where
  bbNum : ℤ
  tacList : List Tac
  endKind : EndKind
  var : Option Temp
  next0 : ℤ
  next1 : ℤ
  cancelled : Bool
  deriving DecidableEq

namespace FlowGraph

/-! ## `markBasicBlocks` -/

/-- `Label.target`, which the branches set. -/
def isTarget (code : List Tac) : Label → Bool
  | .func _ => true
  | .num id => code.any (·.target = some (.num id))

/-- The code with block numbers, without the marks that nothing goes to. -/
def markBasicBlocks (target : Label → Bool) : ℤ → Bool → List Tac → List (ℤ × Tac)
  | _, _, [] => []
  | index, atStart, t :: ts =>
    match t with
    | .mark l =>
      if ¬ target l then markBasicBlocks target index atStart ts
      else if ¬ atStart then (index + 1, t) :: markBasicBlocks target (index + 1) true ts
      else (index, t) :: markBasicBlocks target index atStart ts
    | .instr _ => (index, t) :: markBasicBlocks target index false ts
    | _ => (index, t) :: markBasicBlocks target (index + 1) true ts

/-! ## `gatherBasicBlocks` -/

/-- `label.where.bbNum`. -/
def whereNum (marked : List (ℤ × Tac)) (l : Label) : Option ℤ :=
  (marked.find? (·.2 = .mark l)).map (·.1)

/-- The block of `tacs`, which are not empty; `nextNum` is `nextStart.bbNum`. -/
def endBlock (marked : List (ℤ × Tac)) (bbNum : ℤ) (tacs : List Tac) (nextNum : Option ℤ) :
    Option BasicBlock :=
  match tacs.getLast? with
  | some (.ret src) => some ⟨bbNum, tacs.dropLast, .byReturn, src, 0, 0, false⟩
  | some (.branch l) => do
    let n ← whereNum marked l
    pure ⟨bbNum, tacs.dropLast, .byBranch, none, n, n, false⟩
  | some (.beqz c l) => do
    let n ← whereNum marked l
    let m ← nextNum
    pure ⟨bbNum, tacs.dropLast, .byBeqz, some c, n, m, false⟩
  | some (.bnez c l) => do
    let n ← whereNum marked l
    let m ← nextNum
    pure ⟨bbNum, tacs.dropLast, .byBnez, some c, n, m, false⟩
  | _ =>
    match nextNum with
    | none => some ⟨bbNum, tacs, .byReturn, none, 0, 0, false⟩
    | some m => some ⟨bbNum, tacs, .byBranch, none, m, m, false⟩

/-- The loop from `start` on, for at most `n` blocks. -/
def gather (marked : List (ℤ × Tac)) : ℕ → List (ℤ × Tac) → Option (List BasicBlock)
  | _, [] => some []
  | 0, _ :: _ => none
  | n + 1, start :: rest =>
    match (start :: rest).dropWhile (·.2.isMark) with
    | [] => some [⟨start.1, [], .byReturn, none, 0, 0, false⟩]
    | first :: rest =>
      let tacs := (first :: rest).takeWhile (·.1 = first.1)
      let nextStart := (first :: rest).dropWhile (·.1 = first.1)
      do
        let b ← endBlock marked start.1 (tacs.map (·.2)) (nextStart.head?.map (·.1))
        let bs ← gather marked n nextStart
        pure (b :: bs)

def gatherBasicBlocks (code : List Tac) : Option (List BasicBlock) :=
  let marked := markBasicBlocks (isTarget code) (-1) false code
  gather marked marked.length (marked.dropWhile (·.1 < 0))

/-! ## `simplify` -/

def getBlock (bbs : List BasicBlock) (i : ℤ) : Option BasicBlock :=
  if 0 ≤ i then bbs[i.toNat]? else none

/-- The blocks that may follow. -/
def succs (bb : BasicBlock) : List ℤ :=
  match bb.endKind with
  | .byBeqz => [bb.next1, bb.next0]
  | .byBnez => [bb.next1, bb.next0]
  | .byBranch => [bb.next0]
  | .byReturn => []

def inDegree (bbs : List BasicBlock) (i : ℤ) : ℕ :=
  (if i = 0 then 1 else 0) + (bbs.map fun bb => (succs bb).count i).sum

/-- The second loop: `bbs` are numbered by their places. -/
def cancel (bbs : List BasicBlock) : List BasicBlock :=
  bbs.mapIdx fun i bb =>
    { bb with
      cancelled := inDegree bbs i ≤ 0 ∨ (bb.endKind = .byBranch ∧ bb.tacList = []) }

/-- `while (trace.cancelled)`, at most `n` times. -/
def traceFrom (bbs : List BasicBlock) : ℕ → ℤ → Option ℤ
  | 0, _ => none
  | n + 1, i => do
    let trace ← getBlock bbs i
    if trace.cancelled then traceFrom bbs n trace.next0 else pure trace.bbNum

/-- The third loop. A cancelled block is not changed by it, so what the traces go through is as it
was before the loop. -/
def redirect (bbs : List BasicBlock) (bb : BasicBlock) : Option BasicBlock :=
  if bb.cancelled then some bb
  else
    match bb.endKind with
    | .byReturn => some bb
    | .byBranch => do
      let n ← traceFrom bbs (bbs.length + 1) bb.next0
      pure { bb with next0 := n, next1 := n }
    | _ => do
      let n ← traceFrom bbs (bbs.length + 1) bb.next0
      let m ← traceFrom bbs (bbs.length + 1) bb.next1
      pure { bb with
        next0 := n, next1 := m, endKind := if n = m then .byBranch else bb.endKind }

/-- `newBBNum`. -/
def newBBNum (bbs : List BasicBlock) (i : ℤ) : Option ℤ := do
  let bb ← getBlock bbs i
  if bb.cancelled then none
  else pure ((bbs.take i.toNat).countP fun b => ¬ b.cancelled : ℕ)

def renumber (bbs : List BasicBlock) (bb : BasicBlock) : Option BasicBlock := do
  let k ← newBBNum bbs bb.bbNum
  if bb.endKind = .byReturn then pure { bb with bbNum := k }
  else do
    let n ← newBBNum bbs bb.next0
    let m ← newBBNum bbs bb.next1
    pure { bb with bbNum := k, next0 := n, next1 := m }

def simplify (bbs : List BasicBlock) : Option (List BasicBlock) := do
  -- the first loop looks every successor up
  if bbs = [] ∨ ¬ bbs.all fun bb => (succs bb).all fun i => (getBlock bbs i).isSome then none
  else do
    let bbs ← (cancel bbs).mapM (redirect (cancel bbs))
    (bbs.filter fun bb => ¬ bb.cancelled).mapM (renumber bbs)

/-- `new FlowGraph`, without the analysis of liveness. -/
def build (code : List Tac) : Option (List BasicBlock) := do
  let bbs ← gatherBasicBlocks code
  simplify bbs

/-! ## Execution -/

section Exec

variable {σ : Type} (M : Machine σ) (bbs : List BasicBlock)

/-- A block is entered. -/
def enter (i : ℤ) (s : σ) :
    Option (Trace.Act (ℤ × List Tac × σ) Instr (Ending σ)) := do
  let bb ← getBlock bbs i
  pure (.silent (i, bb.tacList, s))

/-- One step in the block `i`, of which `rest` is still to come. -/
def graphStep :
    ℤ × List Tac × σ → Option (Trace.Act (ℤ × List Tac × σ) Instr (Ending σ))
  | (i, .instr op :: rest, s) =>
    match M.exec op s with
    | some s' => some (.emit op (i, rest, s'))
    | none => some (.stop (.halted op s))
  | (i, [], s) => do
    let bb ← getBlock bbs i
    match bb.endKind with
    | .byReturn => some (.stop (.returned bb.var s))
    | .byBranch => enter bbs bb.next0 s
    | .byBeqz => do
      let c ← bb.var
      enter bbs (if M.zero c s then bb.next0 else bb.next1) s
    | .byBnez => do
      let c ← bb.var
      enter bbs (if M.zero c s then bb.next1 else bb.next0) s
  | _ => none

end Exec

/-! ## `emitTrace` -/

/-- The blocks in the order in which they are emitted; `mark` are those emitted so far. -/
def emitTrace (bbs : List BasicBlock) (label : ℤ → Label) :
    ℕ → List ℤ → ℤ → Option (List Tac × List ℤ)
  | 0, _, _ => none
  | n + 1, mark, i =>
    if i ∈ mark then some ([], mark)
    else do
      let bb ← getBlock bbs i
      let mark := i :: mark
      let head := .mark (label i) :: bb.tacList
      match bb.endKind with
      | .byReturn => pure (head ++ [.ret bb.var], mark)
      | .byBranch =>
        if bb.next0 ∈ mark then pure (head ++ [.branch (label bb.next0)], mark)
        else do
          let r ← emitTrace bbs label n mark bb.next0
          pure (head ++ r.1, r.2)
      | kind => do
        let c ← bb.var
        let test := if kind = .byBeqz then .beqz c (label bb.next0) else .bnez c (label bb.next0)
        let r ← if bb.next1 ∈ mark then some ([.branch (label bb.next1)], mark)
          else emitTrace bbs label n mark bb.next1
        let r' ← emitTrace bbs label n r.2 bb.next0
        pure (head ++ test :: r.1 ++ r'.1, r'.2)

/-- The text of a function behind its prolog. The labels of the blocks are made one after the
other. -/
def emit (bbs : List BasicBlock) (nextLabel : ℕ) : Option (List Tac) :=
  (emitTrace bbs (fun i => .num (nextLabel + i.toNat)) (bbs.length + 1) [] 0).map (·.1)

end FlowGraph

end Decaf

end CacheCPU
