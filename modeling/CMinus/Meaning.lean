import CMinus.Resolved
import CMinus.Runtime
import CMinus.SSA.Memory
import CMinus.SSA.Simulation

namespace CMinus

open SSA

/-! What a program means, by sections 3.5 to 3.10 of the language's description: an
interpreter of the annotated tree.  Fuel counts nested calls and rounds of a loop.  A fault
is a point at which the description says nothing. -/

namespace Meaning

/-- A variable of a run: a global one, or what one call has of a parameter or local. -/
structure Variable where
  symbol : Symbol
  call : Option Nat
deriving Repr, DecidableEq, Inhabited

/-! `cells` are the ints that have a value, `arrays` the arrays that parameters stand for;
calls are numbered from zero. -/

structure State where
  cells : Variable → Int → Option (BitVec 32)
  arrays : Variable → Option Variable := fun _ => none
  calls : Nat := 0
  world : World

namespace State

def assign (s : State) (v : Variable) (i : Int) (x : BitVec 32) : State :=
  { s with cells := Function.update s.cells v (Function.update (s.cells v) i (some x)) }

def forget (s : State) (v : Variable) : State :=
  { s with cells := Function.update s.cells v fun _ => none }

def refer (s : State) (v array : Variable) : State :=
  { s with arrays := Function.update s.arrays v (some array) }

end State

def Eval (α : Type) : Type := State → Outcome State α

instance : Monad Eval where
  pure a := .done a
  bind first next := fun s => (first s).bind next

def fault {α : Type} (f : Fault) : Eval α := fun _ => .fault f

def timeout {α : Type} : Eval α := .timeout

def read (v : Variable) (i : Int) : Eval (BitVec 32) := fun s =>
  match s.cells v i with
  | some x => .done x s
  | none => .fault .undefined

def assign (v : Variable) (i : Int) (x : BitVec 32) : Eval Unit := fun s =>
  .done () (s.assign v i x)

def forget (v : Variable) : Eval Unit := fun s => .done () (s.forget v)

def refer (v array : Variable) : Eval Unit := fun s => .done () (s.refer v array)

/-- A negative subscript stops the program. -/
def indexError {α : Type} (index : BitVec 32) : Eval α := fun s =>
  .stopped { s with world := s.world.indexError index }

/-! One call of a function; the others of its symbols are its own. -/

structure Activation where
  globals : List Symbol
  number : Nat
deriving Repr, DecidableEq, Inhabited

def Activation.variable (a : Activation) (symbol : Symbol) : Variable :=
  { symbol := symbol, call := if symbol ∈ a.globals then none else some a.number }

/-- The array that a parameter stands for: arrays are passed by reference. -/
def referent (v : Variable) : Eval Variable := fun s =>
  match s.arrays v with
  | some array => .done array s
  | none => .fault .malformed

def arrayOf (a : Activation) (symbol : Symbol) : Eval Variable :=
  if symbol.kind = .parameter then referent (a.variable symbol)
  else pure (a.variable symbol)

/-- An element of an array.  The upper bound is not checked, so nothing is said beyond it. -/
def element (a : Activation) (symbol : Symbol) (index : BitVec 32) :
    Eval (Variable × Int) :=
  if index.slt 0 then indexError index
  else do
    let array ← arrayOf a symbol
    if index.toInt < array.symbol.arraySize then return (array, index.toInt)
    else fault .access

def place (a : Activation) (head : VarHead) (index : Option (Eval (BitVec 32))) :
    Eval (Variable × Int) :=
  match head.symbol, index with
  | none, _ => fault .malformed
  | some symbol, none => return (a.variable symbol, 0)
  | some symbol, some index => do
      let index ← index
      element a symbol index

/-! Arithmetic on 32 bits that wraps around.  Division by zero, and the quotient that does
not fit, are left open. -/

def truth (b : Bool) : BitVec 32 := if b then 1 else 0

def operate (op : BinaryOp) (x y : BitVec 32) : Eval (BitVec 32) :=
  match op with
  | .add => return x + y
  | .sub => return x - y
  | .mul => return x * y
  | .div => if Arith.sdiv.Undefined x y then fault .division else return x.sdiv y
  | .lessThan => return truth (x.slt y)
  | .lessEqual => return truth (x.sle y)
  | .greaterThan => return truth (y.slt x)
  | .greaterEqual => return truth (y.sle x)
  | .equal => return truth (x == y)
  | .notEqual => return truth (x != y)

/-! Expressions; `call` is what a call of a function does. -/

inductive Arg where
  | int (value : BitVec 32)
  | array (array : Variable)
deriving Repr, DecidableEq, Inhabited

def Arg.type : Arg → CType
  | .int _ => .int
  | .array _ => .intArray

def passInt (value : Eval (BitVec 32)) : Eval Arg := do
  let value ← value
  return .int value

def passArray (array : Eval Variable) : Eval Arg := do
  let array ← array
  return .array array

/-- The array that an argument names, where the parameter is an array. -/
def arrayName (wantsArray : Bool) : Expr → Option Symbol
  | .var head none => if wantsArray then head.symbol else none
  | _ => none

mutual

def evalExpr (call : Symbol → List Arg → Eval (BitVec 32)) (a : Activation) :
    Expr → Eval (BitVec 32)
  | .num _ value => if value ≤ 2147483647 then return BitVec.ofInt 32 value else fault .undefined
  | .var head index =>
      if head.info.type = .intArray then fault .malformed
      else do
        let (v, i) ← place a head (evalIndex call a index)
        read v i
  | .assign _ _ target index value => do
      let (v, i) ← place a target (evalIndex call a index)
      let x ← evalExpr call a value
      assign v i x
      return x
  | .binary _ op _ lhs rhs => do
      let x ← evalExpr call a lhs
      let y ← evalExpr call a rhs
      operate op x y
  | .call _ _ args symbol =>
      match symbol with
      | none => fault .malformed
      | some symbol => do
          let args ← evalArgs call a symbol.paramTypes args
          call symbol args

def evalIndex (call : Symbol → List Arg → Eval (BitVec 32)) (a : Activation) :
    Option Expr → Option (Eval (BitVec 32))
  | none => none
  | some index => some (evalExpr call a index)

def evalArgs (call : Symbol → List Arg → Eval (BitVec 32)) (a : Activation)
    (paramTypes : List CType) : List Expr → Eval (List Arg)
  | [] => return []
  | arg :: args => do
      let first ← match arrayName (decide (paramTypes.head? = some .intArray)) arg with
        | some symbol => passArray (arrayOf a symbol)
        | none => passInt (evalExpr call a arg)
      let others ← evalArgs call a paramTypes.tail args
      return first :: others

end

/-! Statements.  A return without a value counts as zero. -/

inductive Flow where
  | goesOn
  | returns (value : BitVec 32)
deriving Repr, DecidableEq, Inhabited

/-- What follows a statement runs only if that goes on. -/
def afterwards (first next : Eval Flow) : Eval Flow := do
  match ← first with
  | .goesOn => next
  | .returns value => return .returns value

/-- Any value but zero is true. -/
def choose (cond : Eval (BitVec 32)) (ifTrue ifFalse : Eval Flow) : Eval Flow := do
  let x ← cond
  if x = 0 then ifFalse else ifTrue

def loop (cond : Eval (BitVec 32)) (body : Eval Flow) : Nat → Eval Flow
  | 0 => timeout
  | fuel + 1 => choose cond (afterwards body (loop cond body fuel)) (return .goesOn)

/-- The variables of a block have no value when it is entered. -/
def forgetAll (a : Activation) : List VarDecl → Eval Unit
  | [] => return ()
  | decl :: decls => do
      match decl.symbol with
      | none => pure ()
      | some symbol => forget (a.variable symbol)
      forgetAll a decls

mutual

def evalStmt (call : Symbol → List Arg → Eval (BitVec 32)) (a : Activation) (fuel : Nat) :
    Stmt → Eval Flow
  | .compound _ localDecls stmts => do
      forgetAll a localDecls
      evalStmts call a fuel stmts
  | .expr _ none => return .goesOn
  | .expr _ (some expr) => do
      let _ ← evalExpr call a expr
      return .goesOn
  | .ifs _ cond thenStmt none =>
      choose (evalExpr call a cond) (evalStmt call a fuel thenStmt) (return .goesOn)
  | .ifs _ cond thenStmt (some elseStmt) =>
      choose (evalExpr call a cond) (evalStmt call a fuel thenStmt)
        (evalStmt call a fuel elseStmt)
  | .whiles _ cond body => loop (evalExpr call a cond) (evalStmt call a fuel body) fuel
  | .ret _ none => return .returns 0
  | .ret _ (some value) => do
      let x ← evalExpr call a value
      return .returns x

def evalStmts (call : Symbol → List Arg → Eval (BitVec 32)) (a : Activation) (fuel : Nat) :
    List Stmt → Eval Flow
  | [] => return .goesOn
  | stmt :: stmts => afterwards (evalStmt call a fuel stmt) (evalStmts call a fuel stmts)

end

/-! Functions.  Each call has variables of its own; one that falls off its end yields
zero.  `main` is a function like the others: where a program calls it, a return inside ends
that call. -/

def enter (globals : List Symbol) : Eval Activation := fun s =>
  .done { globals := globals, number := s.calls } { s with calls := s.calls + 1 }

def pass (v : Variable) : Arg → Eval Unit
  | .int value => assign v 0 value
  | .array array => refer v array

def bindParams (a : Activation) : List ParamDecl → List Arg → Eval Unit
  | [], [] => return ()
  | param :: params, arg :: args => do
      match param.symbol with
      | none => fault .malformed
      | some symbol => pass (a.variable symbol) arg
      bindParams a params args
  | _, _ => fault .malformed

def resultOf : Flow → BitVec 32
  | .goesOn => 0
  | .returns value => value

def invoke (program : Program) (fuel : Nat) (call : Symbol → List Arg → Eval (BitVec 32))
    (decl : FunDecl) (args : List Arg) : Eval (BitVec 32) := do
  let a ← enter program.symbols
  bindParams a decl.params args
  let flow ← evalStmt call a fuel decl.body.toStmt
  return resultOf flow

/-- The functions that are there before the program. -/
def predefined (name : String) (args : List Arg) : Eval (BitVec 32) := fun s =>
  match name, args with
  | "input", [] => .done (s.world.input s.world.reads) { s with world := s.world.read }
  | "output", [.int value] => .done 0 { s with world := s.world.write value }
  | _, _ => .fault .malformed

def declares (symbol : Symbol) : Decl → Option FunDecl
  | .fun decl => if decl.symbol = some symbol then some decl else none
  | .var _ => none

def callFunction (program : Program) : Nat → Symbol → List Arg → Eval (BitVec 32)
  | 0, _, _ => timeout
  | fuel + 1, symbol, args =>
      if symbol.isBuiltin then predefined symbol.name args
      else
        match program.decls.findSome? (declares symbol) with
        | none => fault .malformed
        | some decl => invoke program fuel (callFunction program fuel) decl args

/-! A run of the program: globals are zero, and the last declaration is `main`. -/

def extent (symbol : Symbol) : Int := if symbol.isArray then symbol.arraySize else 1

def initial (program : Program) (world : World) : State where
  cells v i :=
    if v.call = none ∧ v.symbol ∈ program.symbols ∧ v.symbol.isFunction = false ∧
        0 ≤ i ∧ i < extent v.symbol then some 0
    else none
  world := world

def run (program : Program) (fuel : Nat) (world : World) : Outcome State (BitVec 32) :=
  match program.decls.getLast? with
  | some (.fun decl) =>
      invoke program fuel (callFunction program fuel) decl [] (initial program world)
  | _ => .fault .malformed

end Meaning

end CMinus
