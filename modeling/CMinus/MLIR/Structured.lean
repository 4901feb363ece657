import CMinus.MLIRGen
import CMinus.SSA.System

namespace CMinus

namespace MLIR

namespace Structured

open SSA

/-! Structured code is run op by op.  A frame has the ops that are left of the block or
region it is in, and what is left of the ops around it, innermost first. -/

inductive Pending where
  | after (rest : List Op)
  | loop (condRegion bodyRegion rest : List Op)

structure Frame where
  rest : List Op
  pending : List Pending := []
  env : Env
  result : Option Nat := none

inductive Config (M W : Type) where
  | running (top : Frame) (callers : List Frame) (shared : Shared M W)
  | stopped (final : Final) (shared : Shared M W)

/-- An op leads elsewhere in its function, or has an effect. -/
inductive Move (M : Type) where
  | goOn (rest : List Op) (pending : List Pending)
  | perform (rest : List Op) (effect : Effect M)

variable {M W : Type}

def Move.fault (f : Fault) : Move M := .perform [] (.fault f)

def branchOn (cond : Option Value) (go : Bool → Move M) : Move M :=
  match cond with
  | some (.i1 b) => go b
  | some .poison => .fault .undefined
  | _ => .fault .malformed

/-- The report of a negative index does not come back. -/
def checkIndex (index : Option Value) (rest : List Op) (pending : List Pending) : Move M :=
  match index with
  | none => .fault .malformed
  | some value =>
      match Compare.slt.eval value (.i32 0) with
      | .error f => .fault f
      | .ok negative =>
          branchOn (some negative) fun b =>
            if b then .perform [.unreachable] (.call none kIndexErrorName [value])
            else .goOn rest pending

def move (mem : MemOps M) (op : Op) (rest : List Op) (pending : List Pending) (env : Env)
    (m : M) : Move M :=
  match op with
  | .ifs cond thenRegion elseRegion =>
      branchOn (cond.eval env) fun b =>
        if b then .goOn thenRegion (.after rest :: pending)
        else
          match elseRegion with
          | none => .goOn rest pending
          | some elseRegion => .goOn elseRegion (.after rest :: pending)
  | .whiles condRegion bodyRegion =>
      .goOn condRegion (.loop condRegion bodyRegion rest :: pending)
  | .yield =>
      match pending with
      | .after rest :: pending => .goOn rest pending
      | .loop condRegion bodyRegion rest :: pending =>
          .goOn condRegion (.loop condRegion bodyRegion rest :: pending)
      | [] => .fault .malformed
  | .condition value =>
      match pending with
      | .loop condRegion bodyRegion rest :: pending =>
          branchOn (value.eval env) fun b =>
            if b then .goOn bodyRegion (.loop condRegion bodyRegion rest :: pending)
            else .goOn rest pending
      | _ => .fault .malformed
  | .cminusReturn value => .perform [] (exec mem (.ret value) env m)
  | .indexCheck index => checkIndex (index.eval env) rest pending
  | op => .perform rest (exec mem op env m)

def enter (m : Machine Op M W) (result : Option Nat) (callee : String) (args : List Value)
    (top : Frame) (callers : List Frame) (shared : Shared M W) : Config M W :=
  match m.entry callee with
  | some block =>
      .running ⟨m.code block, [], .enter shared.activations args, result⟩ (top :: callers)
        { shared with activations := shared.activations + 1 }
  | none =>
      match m.runtime callee args shared.world with
      | some (.returns value world) =>
          .running { top with env := top.env.receive result value } callers
            { shared with world := world }
      | some (.exits world) => .stopped .exited { shared with world := world }
      | none => .stopped (.faulted .malformed) shared

def leave (top : Frame) (value : Option Value) (shared : Shared M W) : List Frame → Config M W
  | [] => .stopped (.finished value) shared
  | caller :: callers =>
      .running { caller with env := caller.env.receive top.result value } callers shared

/-! `top` is the frame already past the op. -/

def perform (m : Machine Op M W) (top : Frame) (callers : List Frame) (shared : Shared M W) :
    Effect M → Config M W
  | .next env mem => .running { top with env := env } callers { shared with mem := mem }
  | .jump block => .running { top with rest := m.code block } callers shared
  | .call result callee args => enter m result callee args top callers shared
  | .ret value => leave top value shared callers
  | .fault f => .stopped (.faulted f) shared

def follow (m : Machine Op M W) (top : Frame) (callers : List Frame) (shared : Shared M W) :
    Move M → Config M W
  | .goOn rest pending => .running { top with rest := rest, pending := pending } callers shared
  | .perform rest effect => perform m { top with rest := rest } callers shared effect

def step (m : Machine Op M W) : Config M W → Config M W
  | .stopped final shared => .stopped final shared
  | .running top callers shared =>
      match top.rest with
      | [] => .stopped (.faulted .malformed) shared
      | op :: rest =>
          follow m top callers shared (move m.memory op rest top.pending top.env shared.mem)

/-- A call of `callee` from outside, on an empty stack. -/
def start (m : Machine Op M W) (callee : String) (args : List Value) (shared : Shared M W) :
    Option (Config M W) :=
  (m.entry callee).map fun block =>
    .running ⟨m.code block, [], .enter shared.activations args, none⟩ []
      { shared with activations := shared.activations + 1 }

end Structured

open SSA

/-! How far a run has come: what is shared, and the end if there is one. -/

def Structured.Config.outcome {M W : Type} : Structured.Config M W → Option Final × Shared M W
  | .running _ _ shared => (none, shared)
  | .stopped final shared => (some final, shared)

def graphOutcome {M W : Type} : SSA.Config M W → Option Final × Shared M W
  | .running _ _ shared => (none, shared)
  | .stopped final shared => (some final, shared)

/-! What an onlooker sees: the straight-line ops with the values of their operands, and the
report of a negative index.  Registers from `bound` on belong to nobody's source. -/

structure Performed where
  op : Op
  operands : List (Option Value)
deriving Repr

def reported (index : Operand) : Option Value → List Performed
  | some (.i32 value) =>
      if value.slt 0 then
        [⟨.call none kIndexErrorName [index], [some (.i32 value)]⟩]
      else []
  | _ => []

def performed (bound : Nat) (op : Op) (env : Env) : List Performed :=
  match op with
  | .indexCheck index => reported index (index.eval env)
  | op =>
      if op.isTerminator || op.isCMinus || op.defines.any fun r => decide (bound ≤ r) then []
      else [⟨op, op.operands.map fun v => v.eval env⟩]

variable {M W : Type}

def Structured.system (bound : Nat) (m : Machine Op M W) :
    System (Structured.Config M W) Performed where
  step := Structured.step m
  observe
    | .running top _ _ =>
        match top.rest with
        | [] => []
        | op :: _ => performed bound op top.env
    | .stopped _ _ => []

/-- The same of a control-flow graph. -/
def graphSystem (bound : Nat) (m : Machine Op M W) : System (SSA.Config M W) Performed where
  step := m.step
  observe
    | .running top _ _ =>
        match (m.code top.block)[top.position]? with
        | none => []
        | some op => performed bound op top.env
    | .stopped _ _ => []

/-- A module, linked against a runtime. -/
def Module.machine (module : Module) (memory : MemOps M)
    (runtime : String → List Value → W → Option (Reply W)) : Machine Op M W where
  memory := memory
  code := module.code
  entry name := (lookupFunc module.body name).bind fun f => f.blocks.head?
  runtime := runtime

end MLIR

end CMinus
