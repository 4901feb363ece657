import CMinus.AST
import CMinus.Resolved
import CMinus.IR
import CMinus.SSA.Builder

namespace CMinus

open SSA IR

/-! `main` of the source is `void`; the emitted one returns int. -/

def kMainName : String := "main"

def kIndexErrorName : String := "__cminus_index_error"

/-! `indexBits` is the width of a pointer index, which the data layout gives. -/

structure IRGenOptions where
  indexBits : Nat := 64
  indexChecks : Bool := true
deriving Repr, DecidableEq, Inhabited

/-- A place in the code that belongs to the subscript with this value. -/
structure Subscript where
  block : Nat
  position : Nat
  value : Operand
deriving Repr, DecidableEq, Inhabited

/-- An address, and the subscript it was computed from. -/
structure Place where
  address : Operand
  subscript : Option Operand := none
deriving Repr, DecidableEq, Inhabited

/-! Three lists record what the generator did and are read by no function:
`subscripts`, where a subscript has just been evaluated; `accesses`, the loads and
stores through an address that came from a subscript; `fallbacks`, each symbol or
address that was missing. -/

structure IRGenerator where
  builder : Builder Instr := {}
  globals : List GlobalVariable := []
  functions : List Function := []
  addresses : List (Nat × Operand) := []
  functionNames : List (Nat × String) := []
  currentFunction : Option Function := none
  diags : Diagnostics := []
  subscripts : List Subscript := []
  accesses : List Subscript := []
  fallbacks : List String := []

def IRGenM (α : Type) : Type := IRGenerator → α × IRGenerator

instance : Monad IRGenM where
  pure a := fun g => (a, g)
  bind action next := fun g => next (action g).1 (action g).2

namespace IRGenerator

/-! The builder. -/

def modifyBuilder (f : Builder Instr → Builder Instr) : IRGenM Unit := fun g =>
  ((), { g with builder := f g.builder })

def emit (i : Instr) : IRGenM Unit := modifyBuilder fun s => s.append i

def define (i : Nat → Instr) : IRGenM Operand := fun g =>
  (.reg g.builder.nextReg, { g with builder := g.builder.define i })

def newBlock : IRGenM Nat := fun g =>
  (g.builder.nextBlock, { g with builder := g.builder.newBlock })

def insertAtEnd (block : Nat) : IRGenM Unit := modifyBuilder fun s => s.attach block

def setInsertPoint (block : Nat) : IRGenM Unit := modifyBuilder fun s => s.moveTo block

/-- `BasicBlock::Create` with a function puts the block at its end. -/
def createBlock : IRGenM Nat := do
  let block ← newBlock
  insertAtEnd block
  return block

def blockOpen : IRGenM Bool := fun g =>
  (((g.builder.code g.builder.cur).getLast?.all fun i => !i.isTerminator), g)

def error (loc : SourceLocation) (message : String) : IRGenM Unit := fun g =>
  ((), { g with diags := Diagnostics.error g.diags loc message })

def fallback (name : String) : IRGenM Unit := fun g =>
  ((), { g with fallbacks := g.fallbacks ++ [name] })

def subscript (value : Operand) : IRGenM Unit := fun g =>
  ((), { g with subscripts :=
    g.subscripts ++ [⟨g.builder.cur, g.builder.position, value⟩] })

def access (value : Option Operand) : IRGenM Unit := fun g =>
  ((), { g with accesses :=
    g.accesses ++ value.toList.map fun v => ⟨g.builder.cur, g.builder.position, v⟩ })

/-! `Create...` of `IRBuilder`: fold, or append an instruction. -/

def foldOr (folded : Option Operand) (i : Nat → Instr) : IRGenM Operand :=
  match folded with
  | some constant => pure constant
  | none => define i

def createBinary (op : Arith) (lhs rhs : Operand) : IRGenM Operand :=
  foldOr (foldBinary op lhs rhs) fun r => .binary r op lhs rhs

def createICmp (pred : Compare) (lhs rhs : Operand) : IRGenM Operand :=
  foldOr (foldICmp pred lhs rhs) fun r => .icmp r pred lhs rhs

def createZExt (value : Operand) : IRGenM Operand :=
  foldOr (foldZExt value) fun r => .zext r value

def createSExtOrTrunc (bits : Nat) (value : Operand) : IRGenM Operand :=
  if bits = 32 then pure value
  else foldOr (foldIndexCast bits value) fun r =>
    if 32 < bits then .sext r value bits else .trunc r value bits

def createGEP (ty : Ty) (base : Operand) (indices : List Operand) : IRGenM Operand :=
  foldOr (foldGEP ty base indices) fun r => .getelementptr r ty base indices

def createLoad (ty : Ty) (address : Operand) : IRGenM Operand :=
  define fun r => .load r ty address

def createAlloca (ty : Ty) : IRGenM Operand :=
  define fun r => .alloca r ty

/-! Small helpers. -/

def int32 (value : Int) : Operand := .i32 (BitVec.ofInt 32 value)

def indexZero (options : IRGenOptions) : Operand :=
  if options.indexBits = 32 then .i32 0 else .index 0

def storageType (symbol : Symbol) : Ty :=
  if symbol.type ≠ .intArray then .i32
  else if symbol.kind = .parameter then .ptr
  else .array symbol.arraySize

def addressOf (symbol : Symbol) : IRGenM (Option Operand) := fun g =>
  (g.addresses.lookup symbol.id, g)

def setAddress (symbol : Symbol) (address : Operand) : IRGenM Unit := fun g =>
  ((), { g with addresses := (symbol.id, address) :: g.addresses })

/-! Functions. -/

def paramTy : CType → Ty
  | .intArray => .ptr
  | _ => .i32

def signatureOf (symbol : Symbol) : Function :=
  { name := symbol.name
    params := symbol.paramTypes.map paramTy
    returnType :=
      if symbol.name = kMainName then .i32
      else if symbol.returnType = .void then .void else .i32 }

def getFunction (functions : List Function) (name : String) : Option Function :=
  functions.find? fun f => f.name = name

def functionFor (symbol : Symbol) : IRGenM Function := fun g =>
  match g.functionNames.lookup symbol.id with
  | some name => ((getFunction g.functions name).getD (signatureOf symbol), g)
  | none =>
      (signatureOf symbol,
        { g with functions := g.functions ++ [signatureOf symbol]
                 functionNames := (symbol.id, symbol.name) :: g.functionNames })

def indexErrorSignature : Function :=
  { name := kIndexErrorName, params := [.i32], returnType := .void }

def indexErrorFunction : IRGenM Function := fun g =>
  match getFunction g.functions kIndexErrorName with
  | some existing => (existing, g)
  | none =>
      (indexErrorSignature, { g with functions := g.functions ++ [indexErrorSignature] })

def getCurrentFunction : IRGenM (Option Function) := fun g => (g.currentFunction, g)

def createCall (callee : Function) (args : List Operand) : IRGenM Operand :=
  if callee.returnType = .void then do
    emit (.call none callee.name args)
    return .poison .void
  else define fun r => .call (some r) callee.name args

/-! Expressions. -/

def isNonNegative : Operand → Bool
  | .i32 v => !v.slt 0
  | _ => false

def checkIndex (options : IRGenOptions) (index : Operand) : IRGenM Operand :=
  if !options.indexChecks then pure index
  else if isNonNegative index then pure index
  else do
    let failBlock ← createBlock
    let okBlock ← createBlock
    let negative ← createICmp .slt index (int32 0)
    emit (.condBr negative failBlock okBlock)
    setInsertPoint failBlock
    let callee ← indexErrorFunction
    let _ ← createCall callee [index]
    emit .unreachable
    setInsertPoint okBlock
    return index

def arrayBase (options : IRGenOptions) (symbol : Symbol) : IRGenM Operand := do
  match ← addressOf symbol with
  | none =>
      fallback symbol.name
      return .null
  | some address =>
      if symbol.kind = .parameter then
        createLoad .ptr address
      else
        createGEP (.array symbol.arraySize) address
          [indexZero options, indexZero options]

/-- The address of an int; `index` evaluates the subscript, if there is one. -/
def elementAddress (options : IRGenOptions) (head : VarHead)
    (index : Option (IRGenM Operand)) : IRGenM (Option Place) :=
  match head.symbol with
  | none => do
      fallback head.name
      return none
  | some symbol => do
      match ← addressOf symbol with
      | none =>
          fallback symbol.name
          return none
      | some address =>
          match index with
          | none => return some ⟨address, none⟩
          | some index =>
              let value ← index
              subscript value
              let value ← checkIndex options value
              let wide ← createSExtOrTrunc options.indexBits value
              if symbol.kind = .parameter then
                let base ← createLoad .ptr address
                return some ⟨← createGEP .i32 base [wide], value⟩
              else
                return some ⟨← createGEP (.array symbol.arraySize) address
                  [indexZero options, wide], value⟩

def emitVar (options : IRGenOptions) (head : VarHead)
    (index : Option (IRGenM Operand)) : IRGenM Operand :=
  if head.info.type = .intArray then do
    error head.info.loc "internal error: array used as a value"
    return int32 0
  else do
    match ← elementAddress options head index with
    | none => return int32 0
    | some place =>
        access place.subscript
        createLoad .i32 place.address

def emitAssign (options : IRGenOptions) (target : VarHead)
    (index : Option (IRGenM Operand)) (value : IRGenM Operand) : IRGenM Operand := do
  match ← elementAddress options target index with
  | none => value
  | some place =>
      let value ← value
      access place.subscript
      emit (.store value place.address)
      return value

def compareOf : BinaryOp → Compare
  | .lessThan => .slt
  | .lessEqual => .sle
  | .greaterThan => .sgt
  | .greaterEqual => .sge
  | .equal => .eq
  | _ => .ne

def emitBinary (op : BinaryOp) (lhs rhs : IRGenM Operand) : IRGenM Operand := do
  let lhs ← lhs
  let rhs ← rhs
  match op with
  | .add => createBinary .add lhs rhs
  | .sub => createBinary .sub lhs rhs
  | .mul => createBinary .mul lhs rhs
  | .div => createBinary .sdiv lhs rhs
  | op =>
      let compared ← createICmp (compareOf op) lhs rhs
      createZExt compared

def emitCall (callee : String) (symbol : Option Symbol)
    (args : IRGenM (List Operand)) : IRGenM Operand :=
  match symbol with
  | none => do
      fallback callee
      return int32 0
  | some symbol => do
      let callee ← functionFor symbol
      let args ← args
      createCall callee args

/-- The symbol of an argument that is passed by reference. -/
def arrayArgument (wantsArray : Bool) : Expr → Option Symbol
  | .var head _ => if wantsArray then head.symbol else none
  | _ => none

mutual

def emitExpr (options : IRGenOptions) : Expr → IRGenM Operand
  | .num _ value => pure (int32 value)
  | .var head index => emitVar options head (emitIndex options index)
  | .assign _ _ target index value =>
      emitAssign options target (emitIndex options index) (emitExpr options value)
  | .binary _ op _ lhs rhs => emitBinary op (emitExpr options lhs) (emitExpr options rhs)
  | .call _ callee args symbol =>
      emitCall callee symbol
        (emitArgs options ((symbol.map Symbol.paramTypes).getD []) args)

def emitIndex (options : IRGenOptions) : Option Expr → Option (IRGenM Operand)
  | none => none
  | some index => some (emitExpr options index)

/-- `paramTypes` are the types of the parameters that are still to come. -/
def emitArgs (options : IRGenOptions) (paramTypes : List CType) :
    List Expr → IRGenM (List Operand)
  | [] => pure []
  | arg :: args => do
      let wantsArray := decide (paramTypes.head? = some .intArray)
      let first ← match arrayArgument wantsArray arg with
        | some symbol => arrayBase options symbol
        | none => emitExpr options arg
      let others ← emitArgs options paramTypes.tail args
      return first :: others

end

def emitCondition (options : IRGenOptions) (expr : Expr) : IRGenM Operand := do
  let value ← emitExpr options expr
  createICmp .ne value (int32 0)

/-! Statements. -/

def unlessClosed (action : IRGenM Unit) : IRGenM Unit := do
  if ← blockOpen then action

def emitIf (cond : IRGenM Operand) (thenStmt : IRGenM Unit)
    (elseStmt : Option (IRGenM Unit)) : IRGenM Unit := do
  let cond ← cond
  let thenBlock ← createBlock
  match elseStmt with
  | none =>
      let endBlock ← newBlock
      emit (.condBr cond thenBlock endBlock)
      setInsertPoint thenBlock
      thenStmt
      unlessClosed (emit (.br endBlock))
      insertAtEnd endBlock
      setInsertPoint endBlock
  | some elseStmt =>
      let elseBlock ← createBlock
      let endBlock ← newBlock
      emit (.condBr cond thenBlock elseBlock)
      setInsertPoint thenBlock
      thenStmt
      unlessClosed (emit (.br endBlock))
      setInsertPoint elseBlock
      elseStmt
      unlessClosed (emit (.br endBlock))
      insertAtEnd endBlock
      setInsertPoint endBlock

def emitWhile (cond : IRGenM Operand) (body : IRGenM Unit) : IRGenM Unit := do
  let condBlock ← createBlock
  let bodyBlock ← createBlock
  let endBlock ← createBlock
  emit (.br condBlock)
  setInsertPoint condBlock
  let cond ← cond
  emit (.condBr cond bodyBlock endBlock)
  setInsertPoint bodyBlock
  body
  unlessClosed (emit (.br condBlock))
  setInsertPoint endBlock

/-- Reading the LLVM return type handles `main`, whose `return;` has to become
`ret i32 0`. -/
def emitReturn (value : Option (IRGenM Operand)) : IRGenM Unit := do
  let function ← getCurrentFunction
  if function.map Function.returnType = some .void then
    match value with
    | none => emit (.ret none)
    | some value =>
        let _ ← value
        emit (.ret none)
  else
    match value with
    | none => emit (.ret (some (int32 0)))
    | some value =>
        let value ← value
        emit (.ret (some value))

mutual

def emitStmt (options : IRGenOptions) : Stmt → IRGenM Unit
  | .compound _ _ stmts => emitCompound options stmts
  | .expr _ none => pure ()
  | .expr _ (some expr) => do
      let _ ← emitExpr options expr
  | .ifs _ cond thenStmt none =>
      emitIf (emitCondition options cond) (emitStmt options thenStmt) none
  | .ifs _ cond thenStmt (some elseStmt) =>
      emitIf (emitCondition options cond) (emitStmt options thenStmt)
        (some (emitStmt options elseStmt))
  | .whiles _ cond body =>
      emitWhile (emitCondition options cond) (emitStmt options body)
  | .ret _ none => emitReturn none
  | .ret _ (some value) => emitReturn (some (emitExpr options value))

/-- Everything after a return in a block is dead. -/
def emitCompound (options : IRGenOptions) : List Stmt → IRGenM Unit
  | [] => pure ()
  | stmt :: stmts => do
      emitStmt options stmt
      unlessClosed (emitCompound options stmts)

end

/-! Declarations. -/

def emitGlobal (decl : VarDecl) : IRGenM Unit :=
  match decl.symbol with
  | none => pure ()
  | some symbol => fun g =>
      ((), { g with globals := g.globals ++ [⟨symbol.name, storageType symbol⟩]
                    addresses := (symbol.id, .global symbol.name) :: g.addresses })

def collectLocals (stmt : Stmt) : List VarDecl := stmt.locals

/-- Each parameter gets a slot, so that assigning to it works. -/
def emitParams (index : Nat) : List ParamDecl → IRGenM Unit
  | [] => pure ()
  | param :: params => do
      match param.symbol with
      | none => pure ()
      | some symbol =>
          let slot ← createAlloca (storageType symbol)
          emit (.store (.arg index) slot)
          setAddress symbol slot
      emitParams (index + 1) params

def emitLocals : List VarDecl → IRGenM Unit
  | [] => pure ()
  | decl :: decls => do
      match decl.symbol with
      | none => pure ()
      | some symbol =>
          let slot ← createAlloca (storageType symbol)
          setAddress symbol slot
      emitLocals decls

def startFunction (function : Function) : IRGenM Unit := fun g =>
  ((), { g with currentFunction := some function
                builder := { g.builder with layout := [] } })

/-- The blocks inserted so far belong to the function from now on. -/
def finishFunction (function : Function) : IRGenM Unit := fun g =>
  ((), { g with
    currentFunction := none
    functions := g.functions.map fun f =>
      if f.name = function.name then { f with blocks := g.builder.layout } else f })

def emitFunction (options : IRGenOptions) (decl : FunDecl) : IRGenM Unit :=
  match decl.symbol with
  | none => pure ()
  | some symbol => do
      let function ← functionFor symbol
      startFunction function
      let entry ← createBlock
      setInsertPoint entry
      emitParams 0 decl.params
      emitLocals (collectLocals decl.body.toStmt)
      emitCompound options decl.body.stmts
      unlessClosed
        (if function.returnType = .void then emit (.ret none)
         else emit (.ret (some (int32 0))))
      finishFunction function

def emitDecls (options : IRGenOptions) : List Decl → IRGenM Unit
  | [] => pure ()
  | .var decl :: decls => do
      emitGlobal decl
      emitDecls options decls
  | .fun decl :: decls => do
      emitFunction options decl
      emitDecls options decls

def module (g : IRGenerator) : Module :=
  { globals := g.globals, functions := g.functions, code := g.builder.code }

/-- The generator after all declarations, before `verifyModule` is asked. -/
def emitProgram (options : IRGenOptions) (program : Program) : IRGenerator :=
  (emitDecls options program.decls {}).2

/-- `verifyModule` gives a report when it finds the module broken. -/
def run (verifyModule : Module → Option String) (options : IRGenOptions)
    (program : Program) : Option Module × Diagnostics :=
  let g := emitProgram options program
  match verifyModule g.module with
  | some report =>
      (none, Diagnostics.error g.diags {}
        ("internal error: the generated module failed verification:\n" ++ report))
  | none => (some g.module, g.diags)

end IRGenerator

def generateIR (verifyModule : IR.Module → Option String) (options : IRGenOptions)
    (program : Program) : Option IR.Module × Diagnostics :=
  IRGenerator.run verifyModule options program

end CMinus
