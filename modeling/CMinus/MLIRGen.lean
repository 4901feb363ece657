import CMinus.IRGen
import CMinus.MLIR

namespace CMinus

open SSA MLIR

inductive MLIRFlavor where
  | std
  | cminus
deriving Repr, DecidableEq, Inhabited

structure MLIRGenOptions where
  indexChecks : Bool := true
deriving Repr, DecidableEq, Inhabited

/-- A value with its type, and its number where an `arith.constant` made it. -/
structure TypedValue where
  operand : Operand
  type : Ty := .i32
  constant : Option (BitVec 32) := none
deriving Repr, DecidableEq, Inhabited

/-- The value that a call of a void function has. -/
def noValue : TypedValue := { operand := .null }

/-- A call, with the types of its arguments, and the function that its name was found to be. -/
structure CallSite where
  callee : String
  symbol : Option Symbol
  argTypes : List CType
  found : Option FuncOp
deriving Repr, DecidableEq, Inhabited

/-- A use of a variable: its storage, and what was asked for where that is a global. -/
structure VarUse where
  symbol : Symbol
  storage : TypedValue
  global : Option GlobalOp := none
deriving Repr, DecidableEq, Inhabited

/-! Three lists record what the generator did and are read by no function: `deleted`, the
blocks that were deleted; `calls` and `uses`, what was looked up for a call and for a use of
a variable. -/

structure MLIRGenerator where
  builder : Builder Op := {}
  body : List Definition := []
  slots : List (Nat × TypedValue) := []
  function : Option FuncOp := none
  diags : Diagnostics := []
  deleted : List Nat := []
  calls : List CallSite := []
  uses : List VarUse := []

def MLIRGenM (α : Type) : Type := MLIRGenerator → α × MLIRGenerator

instance : Monad MLIRGenM where
  pure a := fun g => (a, g)
  bind action next := fun g => next (action g).1 (action g).2

namespace MLIRGenerator

/-! The builder. -/

def modifyBuilder (f : Builder Op → Builder Op) : MLIRGenM Unit := fun g =>
  ((), { g with builder := f g.builder })

def emit (op : Op) : MLIRGenM Unit := modifyBuilder fun s => s.append op

def define (ty : Ty) (op : Nat → Op) : MLIRGenM TypedValue := fun g =>
  ({ operand := .reg g.builder.nextReg, type := ty },
    { g with builder := g.builder.define op })

/-- `new mlir::Block`, which belongs to no region yet. -/
def newBlock : MLIRGenM Nat := fun g =>
  (g.builder.nextBlock, { g with builder := g.builder.newBlock })

def setInsertionPoint (block : Nat) : MLIRGenM Unit := modifyBuilder fun s => s.moveTo block

/-- `delete` of a block that belongs to no region. -/
def deleteBlock (block : Nat) : MLIRGenM Unit := fun g =>
  ((), { g with deleted := g.deleted ++ [block] })

def insertionBlock : MLIRGenM Nat := fun g => (g.builder.cur, g)

def opsOf (block : Nat) : MLIRGenM (List Op) := fun g => (g.builder.code block, g)

/-- Puts the block at the end of the function and goes there. -/
def startBlock (block : Nat) : MLIRGenM Unit := do
  modifyBuilder fun s => s.attach block
  setInsertionPoint block

def blockOpen : MLIRGenM Bool := fun g =>
  (((g.builder.code g.builder.cur).getLast?.all fun op => !op.isTerminator), g)

def unlessClosed (action : MLIRGenM Unit) : MLIRGenM Unit := do
  if ← blockOpen then action

def hasNoPredecessors (block : Nat) : MLIRGenM Bool := fun g =>
  ((List.range g.builder.nextBlock).all fun b =>
    (g.builder.code b).all fun op => !(op.successors.contains block), g)

def error (loc : SourceLocation) (message : String) : MLIRGenM Unit := fun g =>
  ((), { g with diags := Diagnostics.error g.diags loc message })

def create (definition : Definition) : MLIRGenM Unit := fun g =>
  ((), { g with body := g.body ++ [definition] })

def lookupSymbol (name : String) : MLIRGenM (Option FuncOp) := fun g =>
  (lookupFunc g.body name, g)

def recordCall (site : CallSite) : MLIRGenM Unit := fun g =>
  ((), { g with calls := g.calls ++ [site] })

def recordUse (use : VarUse) : MLIRGenM Unit := fun g =>
  ((), { g with uses := g.uses ++ [use] })

/-! Declarations of the runtime. -/

def inputOp : FuncOp :=
  { name := "input", inputs := [], results := [.i32], isPrivate := true }

def outputOp : FuncOp :=
  { name := "output", inputs := [.i32], results := [], isPrivate := true }

def indexErrorOp : FuncOp :=
  { name := kIndexErrorName, inputs := [.i32], results := [], isPrivate := true }

def declareBuiltins (options : MLIRGenOptions) : MLIRGenM Unit := do
  create (.func inputOp)
  create (.func outputOp)
  if options.indexChecks then create (.func indexErrorOp)

/-! Small helpers. -/

def int32 (value : Int) : MLIRGenM TypedValue := fun g =>
  ({ operand := .reg g.builder.nextReg, constant := some (BitVec.ofInt 32 value) },
    { g with builder := g.builder.define fun r => .constant r (BitVec.ofInt 32 value) })

def cmpi (pred : Compare) (lhs rhs : TypedValue) : MLIRGenM TypedValue :=
  define .i1 fun r => .cmpi r pred lhs.operand rhs.operand

def storageType (symbol : Symbol) : Ty :=
  if symbol.isArray = false then .memref []
  else if symbol.kind = .parameter then .memref [none]
  else .memref [some symbol.arraySize]

def setSlot (symbol : Symbol) (slot : TypedValue) : MLIRGenM Unit := fun g =>
  ((), { g with slots := (symbol.id, slot) :: g.slots })

def slotOf (symbol : Symbol) : MLIRGenM (Option TypedValue) := fun g =>
  (g.slots.lookup symbol.id, g)

/-- A symbol without a slot is a global. -/
def storageOf (symbol : Symbol) : MLIRGenM TypedValue := do
  match ← slotOf symbol with
  | some slot =>
      recordUse ⟨symbol, slot, none⟩
      return slot
  | none =>
      let storage ← define (storageType symbol)
        fun r => .getGlobal r (storageType symbol) symbol.name
      recordUse ⟨symbol, storage, some ⟨symbol.name, storageType symbol⟩⟩
      return storage

def isNonNegative (index : TypedValue) : Bool :=
  index.constant.any fun v => !v.slt 0

/-! Expressions. -/

def checkIndex (flavor : MLIRFlavor) (options : MLIRGenOptions) (index : TypedValue) :
    MLIRGenM Unit :=
  if !options.indexChecks then pure ()
  else if isNonNegative index then pure ()
  else
    match flavor with
    | .cminus => emit (.indexCheck index.operand)
    | .std => do
        let zero ← int32 0
        let negative ← cmpi .slt index zero
        let failBlock ← newBlock
        let okBlock ← newBlock
        emit (.condBr negative.operand failBlock okBlock)
        startBlock failBlock
        emit (.call none kIndexErrorName [index.operand])
        emit .unreachable
        startBlock okBlock

/-- The storage of a variable, and its subscript if there is one. -/
def addressOf (flavor : MLIRFlavor) (options : MLIRGenOptions) (head : VarHead)
    (index : Option (MLIRGenM TypedValue)) : MLIRGenM (Option (TypedValue × List Operand)) :=
  match head.symbol with
  | none => pure none
  | some symbol => do
      let storage ← storageOf symbol
      match index with
      | none => return some (storage, [])
      | some index =>
          let index ← index
          checkIndex flavor options index
          let cast ← define .index fun r => .indexCast r index.operand
          return some (storage, [cast.operand])

def emitVar (flavor : MLIRFlavor) (options : MLIRGenOptions) (head : VarHead)
    (index : Option (MLIRGenM TypedValue)) : MLIRGenM TypedValue := do
  match ← addressOf flavor options head index with
  | none => int32 0
  | some (address, indices) => define .i32 fun r => .load r address.operand indices

def emitAssign (flavor : MLIRFlavor) (options : MLIRGenOptions) (target : VarHead)
    (index : Option (MLIRGenM TypedValue)) (value : MLIRGenM TypedValue) :
    MLIRGenM TypedValue := do
  match ← addressOf flavor options target index with
  | none => value
  | some (address, indices) =>
      let value ← value
      emit (.store value.operand address.operand indices)
      return value

def emitBinary (op : BinaryOp) (lhs rhs : MLIRGenM TypedValue) : MLIRGenM TypedValue := do
  let lhs ← lhs
  let rhs ← rhs
  let arith := fun (op : Arith) => define .i32 fun r => .binary r op lhs.operand rhs.operand
  match op with
  | .add => arith .add
  | .sub => arith .sub
  | .mul => arith .mul
  | .div => arith .sdiv
  | op =>
      let compared ← cmpi (IRGenerator.compareOf op) lhs rhs
      define .i32 fun r => .extui r compared.operand

/-- The memref that stands for an array argument. -/
def emitArray (paramType : Ty) (symbol : Symbol) : MLIRGenM TypedValue := do
  let array ← storageOf symbol
  if array.type ≠ paramType then define paramType fun r => .cast r paramType array.operand
  else return array

/-- `func.call`, which has a value where the function has a result. -/
def createCall (callee : FuncOp) (args : List TypedValue) : MLIRGenM TypedValue :=
  let operands := args.map TypedValue.operand
  if callee.results.isEmpty then do
    emit (.call none callee.name operands)
    return noValue
  else define .i32 fun r => .call (some r) callee.name operands

def emitCall (loc : SourceLocation) (callee : String) (symbol : Option Symbol)
    (argTypes : List CType) (args : List Ty → MLIRGenM (List TypedValue)) :
    MLIRGenM TypedValue := do
  let found ← lookupSymbol callee
  recordCall ⟨callee, symbol, argTypes, found⟩
  match found with
  | none =>
      error loc ("internal error: no MLIR function for '" ++ callee ++ "'")
      int32 0
  | some callee =>
      let args ← args callee.inputs
      createCall callee args

/-- The symbol of an argument that is passed by reference. -/
def arrayArgument (paramType : Ty) : Expr → Option Symbol
  | .var head _ => if paramType.isMemRef then head.symbol else none
  | _ => none

mutual

def emitExpr (flavor : MLIRFlavor) (options : MLIRGenOptions) : Expr → MLIRGenM TypedValue
  | .num _ value => int32 value
  | .var head index => emitVar flavor options head (emitIndex flavor options index)
  | .assign _ _ target index value =>
      emitAssign flavor options target (emitIndex flavor options index)
        (emitExpr flavor options value)
  | .binary _ op _ lhs rhs =>
      emitBinary op (emitExpr flavor options lhs) (emitExpr flavor options rhs)
  | .call info callee args symbol =>
      emitCall info.loc callee symbol (args.map Expr.type)
        fun paramTypes => emitArgs flavor options paramTypes args

def emitIndex (flavor : MLIRFlavor) (options : MLIRGenOptions) :
    Option Expr → Option (MLIRGenM TypedValue)
  | none => none
  | some index => some (emitExpr flavor options index)

/-- `paramTypes` are the types of the parameters that are still to come. -/
def emitArgs (flavor : MLIRFlavor) (options : MLIRGenOptions) (paramTypes : List Ty) :
    List Expr → MLIRGenM (List TypedValue)
  | [] => pure []
  | arg :: args => do
      let paramType := paramTypes.headD .i32
      let first ← match arrayArgument paramType arg with
        | some symbol => emitArray paramType symbol
        | none => emitExpr flavor options arg
      let others ← emitArgs flavor options paramTypes.tail args
      return first :: others

end

def emitCondition (flavor : MLIRFlavor) (options : MLIRGenOptions) (expr : Expr) :
    MLIRGenM TypedValue := do
  let value ← emitExpr flavor options expr
  let zero ← int32 0
  cmpi .ne value zero

/-! Statements. -/

/-- Without a value the return has no operand. -/
def createReturn (flavor : MLIRFlavor) (value : TypedValue) : MLIRGenM Unit :=
  let operand := if value.operand = .null then none else some value.operand
  match flavor with
  | .cminus => emit (.cminusReturn operand)
  | .std => emit (.ret operand)

/-- The ops of a region of one block.  The cursor comes back afterwards, and the op that
owns the region is put there. -/
def regionOf (fill : MLIRGenM Unit) : MLIRGenM (List Op) := do
  let outside ← insertionBlock
  let block ← newBlock
  setInsertionPoint block
  fill
  let ops ← opsOf block
  setInsertionPoint outside
  return ops

def emitRegion (stmt : MLIRGenM Unit) : MLIRGenM (List Op) :=
  regionOf do
    stmt
    unlessClosed (emit .yield)

def emitIfRegions (cond : MLIRGenM TypedValue) (thenStmt : MLIRGenM Unit)
    (elseStmt : Option (MLIRGenM Unit)) : MLIRGenM Unit := do
  let cond ← cond
  let thenRegion ← emitRegion thenStmt
  match elseStmt with
  | none => emit (.ifs cond.operand thenRegion none)
  | some elseStmt =>
      let elseRegion ← emitRegion elseStmt
      emit (.ifs cond.operand thenRegion (some elseRegion))

/-- A block without predecessors is deleted, and the cursor stays in a closed block. -/
def startUnlessDead (block : Nat) : MLIRGenM Unit := do
  if ← hasNoPredecessors block then deleteBlock block
  else startBlock block

def emitIfBlocks (cond : MLIRGenM TypedValue) (thenStmt : MLIRGenM Unit)
    (elseStmt : Option (MLIRGenM Unit)) : MLIRGenM Unit := do
  let cond ← cond
  let thenBlock ← newBlock
  match elseStmt with
  | none =>
      let endBlock ← newBlock
      emit (.condBr cond.operand thenBlock endBlock)
      startBlock thenBlock
      thenStmt
      unlessClosed (emit (.br endBlock))
      startUnlessDead endBlock
  | some elseStmt =>
      let elseBlock ← newBlock
      let endBlock ← newBlock
      emit (.condBr cond.operand thenBlock elseBlock)
      startBlock thenBlock
      thenStmt
      unlessClosed (emit (.br endBlock))
      startBlock elseBlock
      elseStmt
      unlessClosed (emit (.br endBlock))
      startUnlessDead endBlock

def emitIf (flavor : MLIRFlavor) (cond : MLIRGenM TypedValue) (thenStmt : MLIRGenM Unit)
    (elseStmt : Option (MLIRGenM Unit)) : MLIRGenM Unit :=
  match flavor with
  | .cminus => emitIfRegions cond thenStmt elseStmt
  | .std => emitIfBlocks cond thenStmt elseStmt

def emitWhileRegions (cond : MLIRGenM TypedValue) (body : MLIRGenM Unit) :
    MLIRGenM Unit := do
  let condRegion ← regionOf do
    let cond ← cond
    emit (.condition cond.operand)
  let bodyRegion ← emitRegion body
  emit (.whiles condRegion bodyRegion)

def emitWhileBlocks (cond : MLIRGenM TypedValue) (body : MLIRGenM Unit) :
    MLIRGenM Unit := do
  let condBlock ← newBlock
  let bodyBlock ← newBlock
  let endBlock ← newBlock
  emit (.br condBlock)
  startBlock condBlock
  let cond ← cond
  emit (.condBr cond.operand bodyBlock endBlock)
  startBlock bodyBlock
  body
  unlessClosed (emit (.br condBlock))
  startBlock endBlock

def emitWhile (flavor : MLIRFlavor) (cond : MLIRGenM TypedValue) (body : MLIRGenM Unit) :
    MLIRGenM Unit :=
  match flavor with
  | .cminus => emitWhileRegions cond body
  | .std => emitWhileBlocks cond body

def getFunction : MLIRGenM (Option FuncOp) := fun g => (g.function, g)

/-- The results of the MLIR function decide, so that `return;` in `main` returns 0. -/
def emitReturn (flavor : MLIRFlavor) (value : Option (MLIRGenM TypedValue)) :
    MLIRGenM Unit := do
  let function ← getFunction
  if function.any fun f => f.results.isEmpty then
    match value with
    | none => createReturn flavor noValue
    | some value =>
        let _ ← value
        createReturn flavor noValue
  else
    let value ← value.getD (int32 0)
    createReturn flavor value

mutual

def emitStmt (flavor : MLIRFlavor) (options : MLIRGenOptions) : Stmt → MLIRGenM Unit
  | .compound _ _ stmts => emitCompound flavor options stmts
  | .expr _ none => pure ()
  | .expr _ (some expr) => do
      let _ ← emitExpr flavor options expr
  | .ifs _ cond thenStmt none =>
      emitIf flavor (emitCondition flavor options cond) (emitStmt flavor options thenStmt) none
  | .ifs _ cond thenStmt (some elseStmt) =>
      emitIf flavor (emitCondition flavor options cond) (emitStmt flavor options thenStmt)
        (some (emitStmt flavor options elseStmt))
  | .whiles _ cond body =>
      emitWhile flavor (emitCondition flavor options cond) (emitStmt flavor options body)
  | .ret _ none => emitReturn flavor none
  | .ret _ (some value) => emitReturn flavor (some (emitExpr flavor options value))

/-- No op goes behind a terminator, so statements after a return are skipped. -/
def emitCompound (flavor : MLIRFlavor) (options : MLIRGenOptions) :
    List Stmt → MLIRGenM Unit
  | [] => pure ()
  | stmt :: stmts => do
      emitStmt flavor options stmt
      unlessClosed (emitCompound flavor options stmts)

end

/-! Declarations. -/

def emitGlobal (decl : VarDecl) : MLIRGenM Unit :=
  match decl.symbol with
  | none => pure ()
  | some symbol => create (.global ⟨decl.name, storageType symbol⟩)

def paramType (param : ParamDecl) : Ty :=
  if param.isArray then .memref [none] else .i32

def signatureOf (decl : FunDecl) : FuncOp :=
  { name := decl.name
    inputs := decl.params.map paramType
    results := if decl.returnType ≠ .void ∨ decl.name = kMainName then [.i32] else [] }

/-- An array parameter is its own storage; any other gets a slot. -/
def emitParams (index : Nat) : List ParamDecl → MLIRGenM Unit
  | [] => pure ()
  | param :: params => do
      match param.symbol with
      | none => pure ()
      | some symbol =>
          if param.isArray then
            setSlot symbol { operand := .arg index, type := paramType param }
          else do
            let slot ← define (storageType symbol) fun r => .alloca r (storageType symbol)
            emit (.store (.arg index) slot.operand [])
            setSlot symbol slot
      emitParams (index + 1) params

def emitLocals : List VarDecl → MLIRGenM Unit
  | [] => pure ()
  | decl :: decls => do
      match decl.symbol with
      | none => pure ()
      | some symbol =>
          let slot ← define (storageType symbol) fun r => .alloca r (storageType symbol)
          setSlot symbol slot
      emitLocals decls

def startFunction (function : FuncOp) : MLIRGenM Unit := fun g =>
  ((), { g with function := some function
                builder := { g.builder with layout := [] } })

/-- The blocks started so far belong to the function from now on. -/
def finishFunction (function : FuncOp) : MLIRGenM Unit := fun g =>
  ((), { g with body := g.body.map fun
    | .func f =>
        if f.name = function.name then .func { f with blocks := g.builder.layout } else .func f
    | definition => definition })

/-- The body of a function, up to the default return. -/
def emitBody (flavor : MLIRFlavor) (options : MLIRGenOptions) (decl : FunDecl) :
    MLIRGenM Unit := do
  create (.func (signatureOf decl))
  startFunction (signatureOf decl)
  let entry ← newBlock
  startBlock entry
  emitParams 0 decl.params
  emitLocals decl.body.toStmt.locals
  emitCompound flavor options decl.body.stmts

def emitDefaultReturn (flavor : MLIRFlavor) (function : FuncOp) : MLIRGenM Unit :=
  if function.results.isEmpty then createReturn flavor noValue
  else do
    let zero ← int32 0
    createReturn flavor zero

def emitFunction (flavor : MLIRFlavor) (options : MLIRGenOptions) (decl : FunDecl) :
    MLIRGenM Unit := do
  emitBody flavor options decl
  unlessClosed (emitDefaultReturn flavor (signatureOf decl))
  finishFunction (signatureOf decl)

def emitDecls (flavor : MLIRFlavor) (options : MLIRGenOptions) : List Decl → MLIRGenM Unit
  | [] => pure ()
  | .var decl :: decls => do
      emitGlobal decl
      emitDecls flavor options decls
  | .fun decl :: decls => do
      emitFunction flavor options decl
      emitDecls flavor options decls

def module (g : MLIRGenerator) : Module :=
  { body := g.body, code := g.builder.code }

/-- The generator after all declarations, before `verify` is asked. -/
def emitProgram (flavor : MLIRFlavor) (options : MLIRGenOptions) (program : Program) :
    MLIRGenerator :=
  (do
    declareBuiltins options
    emitDecls flavor options program.decls : MLIRGenM Unit) {} |>.2

def run (verify : Module → Bool) (flavor : MLIRFlavor) (options : MLIRGenOptions)
    (program : Program) : Option Module × Diagnostics :=
  let g := emitProgram flavor options program
  if verify g.module then (some g.module, g.diags)
  else
    (none, Diagnostics.error g.diags {}
      "internal error: the generated MLIR module failed verification")

end MLIRGenerator

def generateStdMLIR (verify : MLIR.Module → Bool) (options : MLIRGenOptions)
    (program : Program) : Option MLIR.Module × Diagnostics :=
  MLIRGenerator.run verify .std options program

def generateCMinusMLIR (verify : MLIR.Module → Bool) (options : MLIRGenOptions)
    (program : Program) : Option MLIR.Module × Diagnostics :=
  MLIRGenerator.run verify .cminus options program

end CMinus
