import Mathlib.Logic.Function.Basic
import Mathlib.Logic.Function.Iterate

namespace SSA

/-! A machine for functions given as basic blocks over registers.  Storage is named
by a global or by the register that holds the slot in one activation. -/

inductive Key where
  | global (name : String)
  | slot (activation register : Nat)
deriving Repr, DecidableEq, Inhabited

structure Address where
  key : Key
  offset : Int := 0
deriving Repr, DecidableEq, Inhabited

inductive Value where
  | i1 (b : Bool)
  | i32 (v : BitVec 32)
  | index (v : Int)
  | ptr (address : Address)
  | poison
deriving Repr, DecidableEq, Inhabited

inductive Fault where
  | division
  | access
  | undefined
  | malformed
deriving Repr, DecidableEq, Inhabited

/-! What the machine asks of a memory.  `valid` says whether an access stays inside
the storage it was derived from; what an access does is left open. -/

structure MemOps (M : Type) where
  alloca : M → Key → Int → M
  valid : M → Address → Bool
  load : M → Address → Value
  store : M → Address → Value → M

structure Env where
  activation : Nat
  args : List Value
  regs : Nat → Option Value

namespace Env

def enter (activation : Nat) (args : List Value) : Env :=
  { activation := activation, args := args, regs := fun _ => none }

def set (env : Env) (r : Nat) (v : Value) : Env :=
  { env with regs := Function.update env.regs r (some v) }

def receive (env : Env) : Option Nat → Option Value → Env
  | some r, some v => env.set r v
  | _, _ => env

@[simp] theorem enter_activation (activation : Nat) (args : List Value) :
    (enter activation args).activation = activation := rfl

@[simp] theorem enter_args (activation : Nat) (args : List Value) :
    (enter activation args).args = args := rfl

@[simp] theorem set_activation (env : Env) (r : Nat) (v : Value) :
    (env.set r v).activation = env.activation := rfl

@[simp] theorem set_args (env : Env) (r : Nat) (v : Value) :
    (env.set r v).args = env.args := rfl

@[simp] theorem set_regs_self (env : Env) (r : Nat) (v : Value) :
    (env.set r v).regs r = some v := by
  simp [set]

theorem set_regs_of_ne (env : Env) {r q : Nat} (v : Value) (h : q ≠ r) :
    (env.set r v).regs q = env.regs q := by
  simp [set, h]

theorem set_regs (env : Env) (r q : Nat) (v : Value) :
    (env.set r v).regs q = if q = r then some v else env.regs q := by
  simp [set, Function.update_apply]

@[simp] theorem receive_activation (env : Env) (result : Option Nat)
    (v : Option Value) : (env.receive result v).activation = env.activation := by
  cases result <;> cases v <;> rfl

@[simp] theorem receive_args (env : Env) (result : Option Nat) (v : Option Value) :
    (env.receive result v).args = env.args := by
  cases result <;> cases v <;> rfl

end Env

/-! What one instruction does. -/

inductive Effect (M : Type) where
  | next (env : Env) (mem : M)
  | jump (block : Nat)
  | call (result : Option Nat) (callee : String) (args : List Value)
  | ret (value : Option Value)
  | fault (f : Fault)

class Executable (I : Type) where
  exec : {M : Type} → MemOps M → I → Env → M → Effect M

/-! What a function outside the program answers. -/

inductive Reply (W : Type) where
  | returns (value : Option Value) (world : W)
  | exits (world : W)

structure Machine (I M W : Type) where
  memory : MemOps M
  code : Nat → List I
  entry : String → Option Nat
  runtime : String → List Value → W → Option (Reply W)

/-! A frame stands before the instruction at `position` of its block; `result` is the
register of the caller that waits for the value. -/

structure Frame where
  block : Nat
  position : Nat := 0
  env : Env
  result : Option Nat := none

structure Shared (M W : Type) where
  mem : M
  world : W
  activations : Nat := 0

inductive Final where
  | finished (value : Option Value)
  | exited
  | faulted (f : Fault)
deriving Repr, DecidableEq

inductive Config (M W : Type) where
  | running (top : Frame) (callers : List Frame) (shared : Shared M W)
  | stopped (final : Final) (shared : Shared M W)

def Config.shared {M W : Type} : Config M W → Shared M W
  | .running _ _ shared => shared
  | .stopped _ shared => shared

namespace Machine

variable {I M W : Type}

def enter (m : Machine I M W) (result : Option Nat) (callee : String)
    (args : List Value) (top : Frame) (callers : List Frame)
    (shared : Shared M W) : Config M W :=
  match m.entry callee with
  | some block =>
      .running ⟨block, 0, .enter shared.activations args, result⟩ (top :: callers)
        { shared with activations := shared.activations + 1 }
  | none =>
      match m.runtime callee args shared.world with
      | some (.returns value world) =>
          .running { top with env := top.env.receive result value } callers
            { shared with world := world }
      | some (.exits world) => .stopped .exited { shared with world := world }
      | none => .stopped (.faulted .malformed) shared

def leave (top : Frame) (value : Option Value) (shared : Shared M W) :
    List Frame → Config M W
  | [] => .stopped (.finished value) shared
  | caller :: callers =>
      .running { caller with env := caller.env.receive top.result value } callers shared

/-! `top` is the frame already past the instruction. -/

def perform (m : Machine I M W) (top : Frame) (callers : List Frame)
    (shared : Shared M W) : Effect M → Config M W
  | .next env mem => .running { top with env := env } callers { shared with mem := mem }
  | .jump block => .running { top with block := block, position := 0 } callers shared
  | .call result callee args => m.enter result callee args top callers shared
  | .ret value => leave top value shared callers
  | .fault f => .stopped (.faulted f) shared

variable (m : Machine I M W)

@[simp] theorem perform_next (top : Frame) (callers : List Frame)
    (shared : Shared M W) (env : Env) (mem : M) :
    m.perform top callers shared (.next env mem) =
      .running { top with env := env } callers { shared with mem := mem } := rfl

@[simp] theorem perform_jump (top : Frame) (callers : List Frame)
    (shared : Shared M W) (block : Nat) :
    m.perform top callers shared (.jump block) =
      .running { top with block := block, position := 0 } callers shared := rfl

@[simp] theorem perform_call (top : Frame) (callers : List Frame)
    (shared : Shared M W) (result : Option Nat) (callee : String) (args : List Value) :
    m.perform top callers shared (.call result callee args) =
      m.enter result callee args top callers shared := rfl

@[simp] theorem perform_ret (top : Frame) (callers : List Frame)
    (shared : Shared M W) (value : Option Value) :
    m.perform top callers shared (.ret value) = leave top value shared callers := rfl

@[simp] theorem perform_fault (top : Frame) (callers : List Frame)
    (shared : Shared M W) (f : Fault) :
    m.perform top callers shared (.fault f) = .stopped (.faulted f) shared := rfl

variable [Executable I]

def step : Config M W → Config M W
  | .stopped final shared => .stopped final shared
  | .running top callers shared =>
      match (m.code top.block)[top.position]? with
      | none => .stopped (.faulted .malformed) shared
      | some i =>
          m.perform { top with position := top.position + 1 } callers shared
            (Executable.exec m.memory i top.env shared.mem)

def run (n : Nat) (c : Config M W) : Config M W :=
  m.step^[n] c

/-! A call of `callee` from outside, on an empty stack. -/

def start (callee : String) (args : List Value)
    (shared : Shared M W) : Option (Config M W) :=
  (m.entry callee).map fun block =>
    .running ⟨block, 0, .enter shared.activations args, none⟩ []
      { shared with activations := shared.activations + 1 }

variable {m}

@[simp] theorem run_zero (c : Config M W) : m.run 0 c = c := rfl

theorem run_succ (n : Nat) (c : Config M W) : m.run (n + 1) c = m.run n (m.step c) :=
  Function.iterate_succ_apply _ _ _

theorem run_succ' (n : Nat) (c : Config M W) : m.run (n + 1) c = m.step (m.run n c) :=
  Function.iterate_succ_apply' _ _ _

theorem run_add (n k : Nat) (c : Config M W) : m.run (n + k) c = m.run k (m.run n c) := by
  rw [Nat.add_comm]
  exact Function.iterate_add_apply _ _ _ _

@[simp] theorem step_stopped (final : Final) (shared : Shared M W) :
    m.step (.stopped final shared) = .stopped final shared := rfl

@[simp] theorem run_stopped (n : Nat) (final : Final) (shared : Shared M W) :
    m.run n (.stopped final shared) = .stopped final shared := by
  induction n with
  | zero => rfl
  | succ n ih => rw [run_succ, step_stopped, ih]

theorem step_running {top : Frame} {i : I} (callers : List Frame) (shared : Shared M W)
    (hi : (m.code top.block)[top.position]? = some i) :
    m.step (.running top callers shared) =
      m.perform { top with position := top.position + 1 } callers shared
        (Executable.exec m.memory i top.env shared.mem) := by
  simp only [step, hi]

/-! Once stopped, a run stays where it is; two stopped runs from one start agree. -/

theorem run_stopped_of_le {n k : Nat} {c : Config M W} {final : Final}
    {shared : Shared M W} (h : m.run n c = .stopped final shared) (hle : n ≤ k) :
    m.run k c = .stopped final shared := by
  obtain ⟨d, rfl⟩ := Nat.exists_eq_add_of_le hle
  rw [run_add, h, run_stopped]

theorem run_stopped_unique {n k : Nat} {c : Config M W} {first second : Final}
    {s t : Shared M W} (hn : m.run n c = .stopped first s)
    (hk : m.run k c = .stopped second t) : first = second ∧ s = t := by
  have hfirst := run_stopped_of_le hn (Nat.le_max_left n k)
  have hsecond := run_stopped_of_le hk (Nat.le_max_right n k)
  rw [hfirst] at hsecond
  cases hsecond
  exact ⟨rfl, rfl⟩

/-! What every step keeps, a run keeps. -/

theorem run_induction {P : Config M W → Prop} (hstep : ∀ c, P c → P (m.step c))
    {c : Config M W} (h : P c) (n : Nat) : P (m.run n c) := by
  induction n with
  | zero => exact h
  | succ n ih =>
      rw [run_succ']
      exact hstep _ ih

end Machine

end SSA
