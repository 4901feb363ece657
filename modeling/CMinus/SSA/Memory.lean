import CMinus.SSA.Machine

namespace SSA

/-! Two's complement arithmetic on 32 bits, as the target languages define it: a
signed division has no result for a zero divisor and for the quotient that does not
fit. -/

inductive Arith where
  | add
  | sub
  | mul
  | sdiv
deriving Repr, DecidableEq, Inhabited

inductive Compare where
  | slt
  | sle
  | sgt
  | sge
  | eq
  | ne
deriving Repr, DecidableEq, Inhabited

namespace Arith

def Undefined (op : Arith) (a b : BitVec 32) : Prop :=
  op = .sdiv ∧ (b = 0 ∨ (a = BitVec.intMin 32 ∧ b = -1))

instance (op : Arith) (a b : BitVec 32) : Decidable (op.Undefined a b) :=
  inferInstanceAs (Decidable (_ ∧ _))

def apply : Arith → BitVec 32 → BitVec 32 → BitVec 32
  | .add, a, b => a + b
  | .sub, a, b => a - b
  | .mul, a, b => a * b
  | .sdiv, a, b => a.sdiv b

/-- A poison operand could be any value: a divisor zero, a dividend the one that -1 does
not divide. -/
def eval (op : Arith) : Value → Value → Except Fault Value
  | .i32 a, .i32 b =>
      if op.Undefined a b then .error .division else .ok (.i32 (op.apply a b))
  | _, .poison => if op = .sdiv then .error .undefined else .ok .poison
  | .poison, .i32 b =>
      if op.Undefined (BitVec.intMin 32) b then .error .undefined else .ok .poison
  | _, _ => .error .malformed

end Arith

namespace Compare

def apply : Compare → BitVec 32 → BitVec 32 → Bool
  | .slt, a, b => a.slt b
  | .sle, a, b => a.sle b
  | .sgt, a, b => b.slt a
  | .sge, a, b => b.sle a
  | .eq, a, b => a == b
  | .ne, a, b => a != b

def eval (pred : Compare) : Value → Value → Except Fault Value
  | .i32 a, .i32 b => .ok (.i1 (pred.apply a b))
  | .poison, .i32 _ | .i32 _, .poison | .poison, .poison => .ok .poison
  | _, _ => .error .malformed

end Compare

/-! A memory of separate blocks.  `junk` is what a slot holds before it is written. -/

structure Block where
  size : Int
  cell : Int → Value

abbrev Store := Key → Option Block

namespace Store

def set (mem : Store) (key : Key) (block : Block) : Store :=
  Function.update mem key (some block)

def InBounds (mem : Store) (a : Address) : Prop :=
  ∃ block, mem a.key = some block ∧ 0 ≤ a.offset ∧ a.offset < block.size

def valid (mem : Store) (a : Address) : Bool :=
  match mem a.key with
  | some block => decide (0 ≤ a.offset ∧ a.offset < block.size)
  | none => false

def load (mem : Store) (a : Address) : Value :=
  match mem a.key with
  | some block => block.cell a.offset
  | none => .poison

def write (mem : Store) (a : Address) (v : Value) : Store :=
  match mem a.key with
  | some block =>
      mem.set a.key { block with cell := Function.update block.cell a.offset v }
  | none => mem

def ops (junk : Key → Int → Value) : MemOps Store where
  alloca mem key size := mem.set key ⟨size, junk key⟩
  valid := valid
  load := load
  store := write

@[simp] theorem ops_alloca (junk : Key → Int → Value) (mem : Store) (key : Key)
    (size : Int) : (ops junk).alloca mem key size = mem.set key ⟨size, junk key⟩ := rfl
@[simp] theorem ops_valid (junk : Key → Int → Value) : (ops junk).valid = valid := rfl
@[simp] theorem ops_load (junk : Key → Int → Value) : (ops junk).load = load := rfl
@[simp] theorem ops_store (junk : Key → Int → Value) : (ops junk).store = write := rfl

@[simp] theorem set_self (mem : Store) (key : Key) (block : Block) :
    mem.set key block key = some block := by
  simp [set]

theorem set_of_ne (mem : Store) {key key' : Key} (block : Block) (h : key' ≠ key) :
    mem.set key block key' = mem key' := by
  simp [set, h]

theorem valid_iff {mem : Store} {a : Address} : mem.valid a = true ↔ mem.InBounds a := by
  unfold valid InBounds
  cases mem a.key with
  | none => simp
  | some block => simp

end Store

end SSA
