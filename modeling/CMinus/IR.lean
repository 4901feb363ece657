import Mathlib.Algebra.Group.Nat.Defs
import Mathlib.Algebra.Group.Int.Defs
import CMinus.SSA.Memory
import CMinus.SSA.Cfg

namespace CMinus

namespace IR

open SSA

/-! The part of LLVM IR that the generator emits.  Registers are numbered through the
module; a register defined by `alloca` holds the address of its slot. -/

inductive Ty where
  | void
  | int (bits : Nat)
  | ptr
  | array (size : Int)
deriving Repr, DecidableEq, Inhabited

abbrev Ty.i1 : Ty := .int 1
abbrev Ty.i32 : Ty := .int 32

/-- The number of ints that storage of a type takes. -/
def Ty.cells : Ty → Int
  | .array size => size
  | _ => 1

inductive Operand where
  | i32 (v : BitVec 32)
  | i1 (b : Bool)
  | index (v : Int)
  | poison (ty : Ty)
  | null
  | global (name : String)
  | element (name : String) (offset : Int)
  | arg (i : Nat)
  | reg (r : Nat)
deriving Repr, DecidableEq, Inhabited

/-- `ConstantInt`, and `Constant` in general. -/
def Operand.isConstant : Operand → Bool
  | .arg _ | .reg _ => false
  | _ => true

inductive Instr where
  | alloca (r : Nat) (ty : Ty)
  | load (r : Nat) (ty : Ty) (address : Operand)
  | store (value address : Operand)
  | binary (r : Nat) (op : Arith) (lhs rhs : Operand)
  | icmp (r : Nat) (pred : Compare) (lhs rhs : Operand)
  | zext (r : Nat) (value : Operand)
  | sext (r : Nat) (value : Operand) (bits : Nat)
  | trunc (r : Nat) (value : Operand) (bits : Nat)
  | getelementptr (r : Nat) (ty : Ty) (base : Operand) (indices : List Operand)
  | call (r : Option Nat) (callee : String) (args : List Operand)
  | br (target : Nat)
  | condBr (cond : Operand) (ifTrue ifFalse : Nat)
  | ret (value : Option Operand)
  | unreachable
deriving Repr, DecidableEq, Inhabited

/-! What the instructions do. -/

namespace Operand

def eval (env : Env) : Operand → Option Value
  | .i32 v => some (.i32 v)
  | .i1 b => some (.i1 b)
  | .index v => some (.index v)
  | .poison _ => some .poison
  | .null => some .poison
  | .global name => some (.ptr ⟨.global name, 0⟩)
  | .element name offset => some (.ptr ⟨.global name, offset⟩)
  | .arg i => env.args[i]?
  | .reg r => env.regs r

def regs : Operand → List Nat
  | .reg r => [r]
  | _ => []

end Operand

/-- The signed value of an index. -/
def indexValue : Value → Option Int
  | .i32 v => some v.toInt
  | .index v => some v
  | _ => none

/-- The offset, in ints, that `indices` reach from a pointer to `ty`. -/
def offsetOf (ty : Ty) : List (Option Int) → Option Int
  | [some i] => some (i * ty.cells)
  | [some i, some j] => some (i * ty.cells + j)
  | _ => none

def pointerAt : Value → Option Int → Value
  | .ptr a, some offset => .ptr { a with offset := a.offset + offset }
  | _, _ => .poison

def zextValue : Value → Except Fault Value
  | .i1 b => .ok (.i32 (if b then 1 else 0))
  | .poison => .ok .poison
  | _ => .error .malformed

/-- `sext` to a wider index type, `trunc` to a narrower one. -/
def castValue (f : Int → Int) : Value → Except Fault Value
  | .i32 v => .ok (.index (f v.toInt))
  | .poison => .ok .poison
  | _ => .error .malformed

def truncInt (bits : Nat) (v : Int) : Int := v.bmod (2 ^ bits)

def access {M : Type} (mem : MemOps M) (m : M) (address : Option Value)
    (go : Address → Effect M) : Effect M :=
  match address with
  | some (.ptr a) => if mem.valid m a then go a else .fault .access
  | some .poison => .fault .undefined
  | _ => .fault .malformed

/-- An instruction that only computes the value of a register. -/
def compute {M : Type} (env : Env) (m : M) (r : Nat) :
    Option (Except Fault Value) → Effect M
  | some (.ok v) => .next (env.set r v) m
  | some (.error f) => .fault f
  | none => .fault .malformed

def exec {M : Type} (mem : MemOps M) (i : Instr) (env : Env) (m : M) : Effect M :=
  match i with
  | .alloca r ty =>
      .next (env.set r (.ptr ⟨.slot env.activation r, 0⟩))
        (mem.alloca m (.slot env.activation r) ty.cells)
  | .load r _ address =>
      access mem m (address.eval env) fun a => .next (env.set r (mem.load m a)) m
  | .store value address =>
      match value.eval env with
      | some v => access mem m (address.eval env) fun a => .next env (mem.store m a v)
      | none => .fault .malformed
  | .binary r op lhs rhs =>
      compute env m r (do return op.eval (← lhs.eval env) (← rhs.eval env))
  | .icmp r pred lhs rhs =>
      compute env m r (do return pred.eval (← lhs.eval env) (← rhs.eval env))
  | .zext r value => compute env m r ((value.eval env).map zextValue)
  | .sext r value _ => compute env m r ((value.eval env).map (castValue id))
  | .trunc r value bits => compute env m r ((value.eval env).map (castValue (truncInt bits)))
  | .getelementptr r ty base indices =>
      compute env m r (do
        let offset := offsetOf ty (indices.map fun i => (i.eval env).bind indexValue)
        return .ok (pointerAt (← base.eval env) offset))
  | .call r callee args =>
      match args.mapM (Operand.eval env) with
      | some values => .call r callee values
      | none => .fault .malformed
  | .br target => .jump target
  | .condBr cond ifTrue ifFalse =>
      match cond.eval env with
      | some (.i1 b) => .jump (if b then ifTrue else ifFalse)
      | some .poison => .fault .undefined
      | _ => .fault .malformed
  | .ret none => .ret none
  | .ret (some value) =>
      match value.eval env with
      | some v => .ret (some v)
      | none => .fault .malformed
  | .unreachable => .fault .undefined

instance : Executable Instr := ⟨exec⟩

namespace Instr

def isTerminator : Instr → Bool
  | .br _ | .condBr _ _ _ | .ret _ | .unreachable => true
  | _ => false

def successors : Instr → List Nat
  | .br target => [target]
  | .condBr _ ifTrue ifFalse => [ifTrue, ifFalse]
  | _ => []

def defines : Instr → Option Nat
  | .alloca r _ | .load r _ _ | .binary r _ _ _ | .icmp r _ _ _ | .zext r _ | .sext r _ _
  | .trunc r _ _ | .getelementptr r _ _ _ => some r
  | .call r _ _ => r
  | _ => none

def operands : Instr → List Operand
  | .load _ _ address => [address]
  | .store value address => [value, address]
  | .binary _ _ lhs rhs | .icmp _ _ lhs rhs => [lhs, rhs]
  | .zext _ value | .sext _ value _ | .trunc _ value _ => [value]
  | .getelementptr _ _ base indices => base :: indices
  | .call _ _ args => args
  | .condBr cond _ _ => [cond]
  | .ret (some value) => [value]
  | _ => []

end Instr

instance : ControlFlow Instr where
  isTerminator := Instr.isTerminator
  successors := Instr.successors
  defines := Instr.defines
  uses i := i.operands.flatMap Operand.regs

/-! `IRBuilder` folds an instruction whose operands are all constants. -/

def foldBinary (op : Arith) : Operand → Operand → Option Operand
  | .i32 a, .i32 b =>
      if op.Undefined a b then some (.poison .i32) else some (.i32 (op.apply a b))
  | .poison _, .i32 _ | .i32 _, .poison _ | .poison _, .poison _ => some (.poison .i32)
  | _, _ => none

def foldICmp (pred : Compare) : Operand → Operand → Option Operand
  | .i32 a, .i32 b => some (.i1 (pred.apply a b))
  | .poison _, .i32 _ | .i32 _, .poison _ | .poison _, .poison _ => some (.poison .i1)
  | _, _ => none

def foldZExt : Operand → Option Operand
  | .i1 b => some (.i32 (if b then 1 else 0))
  | .poison _ => some (.poison .i32)
  | _ => none

def foldIndexCast (bits : Nat) : Operand → Option Operand
  | .i32 v => some (.index (if 32 ≤ bits then v.toInt else truncInt bits v.toInt))
  | .poison _ => some (.poison (.int bits))
  | _ => none

def constantIndex : Operand → Option Int
  | .i32 v => some v.toInt
  | .index v => some v
  | _ => none

def isPoison : Operand → Bool
  | .poison _ => true
  | _ => false

/-- An index that `ConstantFoldGetElementPtr` takes for no step: zero, or no value. -/
def isNoStep (index : Operand) : Bool :=
  isPoison index || decide (constantIndex index = some 0)

/-- Indices that are no steps fold to the global itself, and otherwise the address is a
constant expression, which has no value if an index has none. -/
def foldGEP (ty : Ty) : Operand → List Operand → Option Operand
  | .global name, indices =>
      if indices.all Operand.isConstant then
        if indices.all isNoStep then some (.global name)
        else if indices.any isPoison then some (.poison .ptr)
        else (offsetOf ty (indices.map constantIndex)).map (.element name)
      else none
  | _, _ => none

theorem foldGEP_cases {ty : Ty} {base v : Operand} {indices : List Operand}
    (h : foldGEP ty base indices = some v) :
    ∃ name, base = .global name ∧
      (v = .global name ∨ v = .poison .ptr ∨ ∃ offset, v = .element name offset) := by
  cases base with
  | global name =>
      refine ⟨name, rfl, ?_⟩
      unfold foldGEP at h
      dsimp only at h
      split at h
      · split at h
        · exact .inl (Option.some.inj h).symm
        split at h
        · exact .inr (.inl (Option.some.inj h).symm)
        · obtain ⟨offset, -, rfl⟩ := Option.map_eq_some_iff.mp h
          exact .inr (.inr ⟨offset, rfl⟩)
      · cases h
  | _ => cases h

theorem foldGEP_regs {ty : Ty} {base v : Operand} {indices : List Operand}
    (h : foldGEP ty base indices = some v) : v.regs = [] := by
  obtain ⟨name, -, rfl | rfl | ⟨offset, rfl⟩⟩ := foldGEP_cases h
  · rfl
  · rfl
  · rfl

/-! A module: its global variables, its functions, and the code of its blocks. -/

structure GlobalVariable where
  name : String
  ty : Ty
deriving Repr, DecidableEq, Inhabited

structure Function where
  name : String
  params : List Ty
  returnType : Ty
  blocks : List Nat := []
deriving Repr, DecidableEq, Inhabited

structure Module where
  globals : List GlobalVariable := []
  functions : List Function := []
  code : Nat → List Instr := fun _ => []

end IR

end CMinus
