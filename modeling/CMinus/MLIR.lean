import CMinus.IR

namespace CMinus

namespace MLIR

open SSA

/-! The part of MLIR that the generator emits: the ops of arith, memref, func, cf and
llvm that both flavors share, and those of the cminus dialect.  A size that is not known
is `none` in the shape of a memref. -/

inductive Ty where
  | i1
  | i32
  | index
  | memref (shape : List (Option Int))
deriving Repr, DecidableEq, Inhabited

/-- The number of ints that a memref of a type holds. -/
def Ty.cells : Ty → Int
  | .memref [some size] => size
  | _ => 1

def Ty.isMemRef : Ty → Bool
  | .memref _ => true
  | _ => false

/-! `arg` is a block argument of the entry block, `null` a value that is missing. -/

inductive Operand where
  | null
  | arg (i : Nat)
  | reg (r : Nat)
deriving Repr, DecidableEq, Inhabited

/-! Each region of a cminus op is one block, given by its ops. -/

inductive Op where
  | constant (r : Nat) (value : BitVec 32)
  | binary (r : Nat) (op : Arith) (lhs rhs : Operand)
  | cmpi (r : Nat) (pred : Compare) (lhs rhs : Operand)
  | extui (r : Nat) (value : Operand)
  | indexCast (r : Nat) (value : Operand)
  | alloca (r : Nat) (ty : Ty)
  | getGlobal (r : Nat) (ty : Ty) (name : String)
  | cast (r : Nat) (ty : Ty) (source : Operand)
  | load (r : Nat) (memref : Operand) (indices : List Operand)
  | store (value memref : Operand) (indices : List Operand)
  | call (r : Option Nat) (callee : String) (args : List Operand)
  | br (target : Nat)
  | condBr (cond : Operand) (ifTrue ifFalse : Nat)
  | ret (value : Option Operand)
  | unreachable
  | ifs (cond : Operand) (thenRegion : List Op) (elseRegion : Option (List Op))
  | whiles (condRegion bodyRegion : List Op)
  | yield
  | condition (value : Operand)
  | cminusReturn (value : Option Operand)
  | indexCheck (index : Operand)
deriving Repr, Inhabited

namespace Operand

def eval (env : Env) : Operand → Option Value
  | .null => none
  | .arg i => env.args[i]?
  | .reg r => env.regs r

def regs : Operand → List Nat
  | .reg r => [r]
  | _ => []

end Operand

/-- The offset, in ints, that `indices` select in a memref. -/
def offsetOf : List (Option Int) → Option Int
  | [] => some 0
  | [some i] => some i
  | _ => none

def elementAt (env : Env) (memref : Operand) (indices : List Operand) : Option Value := do
  let base ← memref.eval env
  return IR.pointerAt base (offsetOf (indices.map fun i => (i.eval env).bind IR.indexValue))

def branch {M : Type} (cond : Option Value) (ifTrue ifFalse : Effect M) : Effect M :=
  match cond with
  | some (.i1 b) => if b then ifTrue else ifFalse
  | some .poison => .fault .undefined
  | _ => .fault .malformed

def exec {M : Type} (mem : MemOps M) (op : Op) (env : Env) (m : M) : Effect M :=
  match op with
  | .constant r value => IR.compute env m r (some (.ok (.i32 value)))
  | .binary r op lhs rhs =>
      IR.compute env m r (do return op.eval (← lhs.eval env) (← rhs.eval env))
  | .cmpi r pred lhs rhs =>
      IR.compute env m r (do return pred.eval (← lhs.eval env) (← rhs.eval env))
  | .extui r value => IR.compute env m r ((value.eval env).map IR.zextValue)
  | .indexCast r value => IR.compute env m r ((value.eval env).map (IR.castValue id))
  | .alloca r ty =>
      .next (env.set r (.ptr ⟨.slot env.activation r, 0⟩))
        (mem.alloca m (.slot env.activation r) ty.cells)
  | .getGlobal r _ name => IR.compute env m r (some (.ok (.ptr ⟨.global name, 0⟩)))
  | .cast r _ source => IR.compute env m r ((source.eval env).map .ok)
  | .load r memref indices =>
      IR.access mem m (elementAt env memref indices) fun a =>
        .next (env.set r (mem.load m a)) m
  | .store value memref indices =>
      match value.eval env with
      | some v =>
          IR.access mem m (elementAt env memref indices) fun a => .next env (mem.store m a v)
      | none => .fault .malformed
  | .call r callee args =>
      match args.mapM (Operand.eval env) with
      | some values => .call r callee values
      | none => .fault .malformed
  | .br target => .jump target
  | .condBr cond ifTrue ifFalse => branch (cond.eval env) (.jump ifTrue) (.jump ifFalse)
  | .ret none => .ret none
  | .ret (some value) =>
      match value.eval env with
      | some v => .ret (some v)
      | none => .fault .malformed
  | .unreachable => .fault .undefined
  | .ifs _ _ _ | .whiles _ _ | .yield | .condition _ | .cminusReturn _ | .indexCheck _ =>
      .fault .malformed

/-! The ops of the cminus dialect have no meaning in a control-flow graph. -/

instance : Executable Op := ⟨exec⟩

namespace Op

def isCMinus : Op → Bool
  | .ifs _ _ _ | .whiles _ _ | .yield | .condition _ | .cminusReturn _ | .indexCheck _ => true
  | _ => false

def isTerminator : Op → Bool
  | .br _ | .condBr _ _ _ | .ret _ | .unreachable | .yield | .condition _ | .cminusReturn _ => true
  | _ => false

def successors : Op → List Nat
  | .br target => [target]
  | .condBr _ ifTrue ifFalse => [ifTrue, ifFalse]
  | _ => []

def defines : Op → Option Nat
  | .constant r _ | .binary r _ _ _ | .cmpi r _ _ _ | .extui r _ | .indexCast r _
  | .alloca r _ | .getGlobal r _ _ | .cast r _ _ | .load r _ _ => some r
  | .call r _ _ => r
  | _ => none

def operands : Op → List Operand
  | .binary _ _ lhs rhs | .cmpi _ _ lhs rhs => [lhs, rhs]
  | .extui _ value | .indexCast _ value | .cast _ _ value | .condition value
  | .indexCheck value => [value]
  | .load _ memref indices => memref :: indices
  | .store value memref indices => value :: memref :: indices
  | .call _ _ args => args
  | .condBr cond _ _ | .ifs cond _ _ => [cond]
  | .ret (some value) | .cminusReturn (some value) => [value]
  | _ => []

end Op

instance : ControlFlow Op where
  isTerminator := Op.isTerminator
  successors := Op.successors
  defines := Op.defines
  uses op := op.operands.flatMap Operand.regs

/-! A module: its global variables and functions in the order in which they were made,
and the ops of their blocks. -/

structure GlobalOp where
  name : String
  ty : Ty
deriving Repr, DecidableEq, Inhabited

structure FuncOp where
  name : String
  inputs : List Ty
  results : List Ty
  isPrivate : Bool := false
  blocks : List Nat := []
deriving Repr, DecidableEq, Inhabited

inductive Definition where
  | global (op : GlobalOp)
  | func (op : FuncOp)
deriving Repr, DecidableEq, Inhabited

def Definition.name : Definition → String
  | .global op => op.name
  | .func op => op.name

structure Module where
  body : List Definition := []
  code : Nat → List Op := fun _ => []

/-- The first symbol of that name, if it is a function. -/
def lookupFunc (body : List Definition) (name : String) : Option FuncOp :=
  match body.find? fun definition => definition.name = name with
  | some (.func op) => some op
  | _ => none

end MLIR

end CMinus
