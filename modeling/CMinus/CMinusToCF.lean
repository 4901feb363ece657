import CMinus.MLIRGen
import CMinus.SSA.Closure

namespace CMinus

namespace CMinusToCF

open SSA MLIR

/-! The module that is rewritten, with the numbers of the next block and register. -/

structure PatternRewriter where
  body : List Definition
  code : Nat → List Op
  nextBlock : Nat
  nextReg : Nat

def RewriteM (α : Type) : Type := PatternRewriter → α × PatternRewriter

instance : Monad RewriteM where
  pure a := fun r => (a, r)
  bind action next := fun r => next (action r).1 (action r).2

def insertAfter (new block : Nat) : List Nat → List Nat
  | [] => []
  | b :: blocks => if b = block then b :: new :: blocks else b :: insertAfter new block blocks

def insertBefore (new block : Nat) : List Nat → List Nat
  | [] => []
  | b :: blocks => if b = block then new :: b :: blocks else b :: insertBefore new block blocks

def mapBlocks (f : List Nat → List Nat) : Definition → Definition
  | .global op => .global op
  | .func op => .func { op with blocks := f op.blocks }

namespace PatternRewriter

def module (r : PatternRewriter) : Module := { body := r.body, code := r.code }

def setCode (r : PatternRewriter) (block : Nat) (ops : List Op) : PatternRewriter :=
  { r with code := Function.update r.code block ops }

end PatternRewriter

/-- What stands from `position` on goes to a new block behind this one. -/
def splitBlock (block position : Nat) : RewriteM Nat := fun r =>
  (r.nextBlock,
    { r with
      body := r.body.map (mapBlocks (insertAfter r.nextBlock block))
      code := Function.update (Function.update r.code block ((r.code block).take position))
        r.nextBlock ((r.code block).drop position)
      nextBlock := r.nextBlock + 1 })

/-- The block at the front of a region, still outside the function. -/
def front (region : List Op) : RewriteM Nat := fun r =>
  (r.nextBlock, { r.setCode r.nextBlock region with nextBlock := r.nextBlock + 1 })

def setOps (block : Nat) (ops : List Op) : RewriteM Unit := fun r => ((), r.setCode block ops)

def inlineRegionBefore (region block : Nat) : RewriteM Unit := fun r =>
  ((), { r with body := r.body.map (mapBlocks (insertBefore region block)) })

def createBlock (block : Nat) : RewriteM Nat := do
  let new ← front []
  inlineRegionBefore new block
  return new

def append (block : Nat) (op : Op) : RewriteM Unit := fun r =>
  ((), r.setCode block (r.code block ++ [op]))

def define (block : Nat) (op : Nat → Op) : RewriteM Operand := fun r =>
  (.reg r.nextReg,
    { r.setCode block (r.code block ++ [op r.nextReg]) with nextReg := r.nextReg + 1 })

/-- Erases the op at the front of a block. -/
def eraseOp (block : Nat) : RewriteM Unit := fun r => ((), r.setCode block (r.code block).tail)

/-- A region that ends in `cminus.return` stays as it is. -/
def branchInsteadOfYield (ops : List Op) (dest : Nat) : List Op :=
  match ops.getLast? with
  | some .yield => ops.dropLast ++ [.br dest]
  | _ => ops

/-! The patterns.  The op is at `position` of `block`. -/

def indexCheckLowering (block position : Nat) (index : Operand) : RewriteM Unit := do
  let ok ← splitBlock block position
  let fail ← createBlock ok
  append fail (.call none kIndexErrorName [index])
  append fail .unreachable
  let zero ← define block fun r => .constant r 0
  let negative ← define block fun r => .cmpi r .slt index zero
  append block (.condBr negative fail ok)
  eraseOp ok

def ifLowering (block position : Nat) (cond : Operand) (thenRegion : List Op)
    (elseRegion : Option (List Op)) : RewriteM Unit := do
  let cont ← splitBlock block position
  let thenBlock ← front (branchInsteadOfYield thenRegion cont)
  inlineRegionBefore thenBlock cont
  match elseRegion with
  | none => append block (.condBr cond thenBlock cont)
  | some elseRegion =>
      let elseBlock ← front (branchInsteadOfYield elseRegion cont)
      inlineRegionBefore elseBlock cont
      append block (.condBr cond thenBlock elseBlock)
  eraseOp cont

def whileLowering (block position : Nat) (condRegion bodyRegion : List Op) (value : Operand) :
    RewriteM Unit := do
  let cont ← splitBlock block position
  let condBlock ← front condRegion
  let bodyBlock ← front (branchInsteadOfYield bodyRegion condBlock)
  setOps condBlock (condRegion.dropLast ++ [.condBr value bodyBlock cont])
  inlineRegionBefore condBlock cont
  inlineRegionBefore bodyBlock cont
  append block (.br condBlock)
  eraseOp cont

def returnLowering (block position : Nat) (value : Option Operand) : RewriteM Unit := fun r =>
  ((), r.setCode block
    ((r.code block).take position ++ .ret value :: (r.code block).drop (position + 1)))

/-- The cast of the terminator of the cond region fails where it is another op, and the
check has no pattern without a declaration of the function that it calls. -/
def matchAndRewrite (block position : Nat) (r : PatternRewriter) : Option PatternRewriter :=
  match (r.code block)[position]? with
  | some (.indexCheck index) =>
      if (lookupFunc r.body kIndexErrorName).isSome then
        some (indexCheckLowering block position index r).2
      else none
  | some (.ifs cond thenRegion elseRegion) =>
      some (ifLowering block position cond thenRegion elseRegion r).2
  | some (.whiles condRegion bodyRegion) =>
      match condRegion.getLast? with
      | some (.condition value) =>
          some (whileLowering block position condRegion bodyRegion value r).2
      | _ => none
  | some (.cminusReturn value) => some (returnLowering block position value r).2
  | _ => none

/-! The conversion rewrites ops in the blocks of functions, so that what is nested in an op
has to wait for it. -/

def Converts (r r' : PatternRewriter) : Prop :=
  ∃ f block position, .func f ∈ r.body ∧ block ∈ f.blocks ∧
    matchAndRewrite block position r = some r'

inductive Conversion : Nat → PatternRewriter → PatternRewriter → Prop where
  | done (r : PatternRewriter) : Conversion 0 r r
  | more {n : Nat} {r r' r'' : PatternRewriter} (first : Converts r r')
      (rest : Conversion n r' r'') : Conversion (n + 1) r r''

/-- Nothing is left that could be converted. -/
def Complete (r : PatternRewriter) : Prop := ∀ r', ¬ Converts r r'

/-! After the conversion. -/

def reachableBlocks (code : Nat → List Op) (blocks : List Nat) : List Nat :=
  match blocks with
  | [] => []
  | entry :: _ => blocks.filter fun b => decide (b ∈ closure code blocks.length entry)

def blocksOf (body : List Definition) : List Nat :=
  body.flatMap fun
    | .global _ => []
    | .func op => op.blocks

def eraseUnreachableBlocks (module : Module) : Module :=
  let body := module.body.map (mapBlocks (reachableBlocks module.code))
  { body := body, code := fun b => if b ∈ blocksOf body then module.code b else [] }

end CMinusToCF

end CMinus
