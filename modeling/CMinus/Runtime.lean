import CMinus.SSA.Machine

namespace CMinus

open SSA

/-! The runtime that programs are linked against.  `input` is what `scanf` finds, call
after call; an event is what can be seen from outside. -/

inductive Event where
  | read (value : BitVec 32)
  | wrote (value : BitVec 32)
  | indexError (index : BitVec 32)
deriving Repr, DecidableEq, Inhabited

structure World where
  input : Nat → BitVec 32
  reads : Nat := 0
  events : List Event := []

namespace World

def read (w : World) : World :=
  { w with reads := w.reads + 1, events := w.events ++ [.read (w.input w.reads)] }

def write (w : World) (value : BitVec 32) : World :=
  { w with events := w.events ++ [.wrote value] }

def indexError (w : World) (index : BitVec 32) : World :=
  { w with events := w.events ++ [.indexError index] }

end World

/-- `__cminus_index_error` does not come back. -/
def runtime (callee : String) (args : List Value) (w : World) : Option (Reply World) :=
  match callee, args with
  | "input", [] => some (.returns (some (.i32 (w.input w.reads))) w.read)
  | "output", [.i32 value] => some (.returns none (w.write value))
  | "__cminus_index_error", [.i32 index] => some (.exits (w.indexError index))
  | _, _ => none

@[simp] theorem runtime_input (w : World) :
    runtime "input" [] w = some (.returns (some (.i32 (w.input w.reads))) w.read) := rfl

@[simp] theorem runtime_output (value : BitVec 32) (w : World) :
    runtime "output" [.i32 value] w = some (.returns none (w.write value)) := rfl

@[simp] theorem runtime_indexError (index : BitVec 32) (w : World) :
    runtime "__cminus_index_error" [.i32 index] w = some (.exits (w.indexError index)) := rfl

end CMinus
