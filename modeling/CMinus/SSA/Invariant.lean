import CMinus.SSA.Machine
import CMinus.SSA.Cfg

namespace SSA

open ControlFlow

/-! What the facts of a discipline mean in an environment, and that every run respects
them, whatever the memory does. -/

namespace Discipline

variable {I F M W : Type} [ControlFlow I] [Executable I] (δ : Discipline I F)

structure Meaning (Holds : F → Env → Prop) : Prop where
  next : ∀ {M : Type} (mem : MemOps M) (i : I) (A : Set F) (env env' : Env) (m m' : M),
    δ.needs i A → (∀ f ∈ A, Holds f env) → Executable.exec mem i env m = .next env' m' →
      ∀ f ∈ δ.gives i A, Holds f env'
  jump : ∀ {M : Type} (mem : MemOps M) (i : I) (A : Set F) (env : Env) (m : M) (b : Nat),
    δ.needs i A → (∀ f ∈ A, Holds f env) → Executable.exec mem i env m = .jump b →
      b ∈ successors i ∧ ∀ f ∈ δ.along i b A, Holds f env
  call : ∀ {M : Type} (mem : MemOps M) (i : I) (A : Set F) (env : Env) (m : M)
    (r : Option Nat) (callee : String) (args : List Value),
    δ.needs i A → (∀ f ∈ A, Holds f env) →
      Executable.exec mem i env m = .call r callee args →
      ∀ v, ∀ f ∈ δ.gives i A, Holds f (env.receive r v)

def factsAt (K : Nat → Set F) (C : Nat → List I) (block position : Nat) : Set F :=
  δ.after (K block) ((C block).take position)

variable (K : Nat → Set F) (Holds : F → Env → Prop) (machine : Machine I M W)

def FrameHolds (frame : Frame) : Prop :=
  ∀ f ∈ δ.factsAt K machine.code frame.block frame.position, Holds f frame.env

/-- A caller holds its facts once the register it waits for is filled. -/
def CallersHold : Option Nat → List Frame → Prop
  | _, [] => True
  | result, caller :: callers =>
      (∀ v, FrameHolds δ K Holds machine
        { caller with env := caller.env.receive result v }) ∧
      CallersHold caller.result callers

def ConfigHolds : Config M W → Prop
  | .stopped _ _ => True
  | .running top callers _ =>
      FrameHolds δ K Holds machine top ∧ CallersHold δ K Holds machine top.result callers

variable {δ K Holds machine}

omit [Executable I] [ControlFlow I] in
theorem factsAt_zero (C : Nat → List I) (block : Nat) : δ.factsAt K C block 0 = K block := by
  simp [factsAt]

omit [Executable I] [ControlFlow I] in
theorem factsAt_succ {C : Nat → List I} {block position : Nat} {i : I}
    (hi : (C block)[position]? = some i) :
    δ.factsAt K C block (position + 1) = δ.gives i (δ.factsAt K C block position) := by
  unfold factsAt
  rw [List.take_add_one, hi, after_append]
  rfl

theorem ConfigHolds.step (hmeaning : δ.Meaning Holds)
    (hchecks : ∀ b, δ.Checks K (K b) (machine.code b))
    (hentry : ∀ name b, machine.entry name = some b →
      ∀ activation args, ∀ f ∈ K b, Holds f (.enter activation args))
    (c : Config M W) (h : ConfigHolds δ K Holds machine c) :
    ConfigHolds δ K Holds machine (machine.step c) := by
  cases c with
  | stopped final shared => trivial
  | running top callers shared =>
      obtain ⟨htop, hcallers⟩ := h
      cases hi : (machine.code top.block)[top.position]? with
      | none =>
          simp only [Machine.step, hi]
          trivial
      | some i =>
          rw [Machine.step_running callers shared hi]
          obtain ⟨hneeds, halong⟩ := (hchecks top.block).at hi
          have hafter := factsAt_succ (δ := δ) (K := K) hi
          cases heffect : Executable.exec machine.memory i top.env shared.mem with
          | next env mem =>
              refine ⟨?_, hcallers⟩
              intro f hf
              rw [hafter] at hf
              exact hmeaning.next _ i _ _ _ _ _ hneeds htop heffect f hf
          | jump b =>
              obtain ⟨hb, hholds⟩ := hmeaning.jump _ i _ _ _ _ hneeds htop heffect
              refine ⟨?_, hcallers⟩
              intro f hf
              rw [factsAt_zero] at hf
              exact hholds f (halong b hb hf)
          | call r callee args =>
              have hreceive := hmeaning.call _ i _ _ _ _ _ _ hneeds htop heffect
              have hcaller : ∀ v, FrameHolds δ K Holds machine
                  { top with position := top.position + 1, env := top.env.receive r v } := by
                intro v f hf
                rw [hafter] at hf
                exact hreceive v f hf
              rw [Machine.perform_call]
              unfold Machine.enter
              split
              · next b hb =>
                  refine ⟨?_, hcaller, hcallers⟩
                  intro f hf
                  rw [factsAt_zero] at hf
                  exact hentry _ b hb _ _ f hf
              · split
                · exact ⟨hcaller _, hcallers⟩
                · trivial
                · trivial
          | ret value =>
              rw [Machine.perform_ret]
              cases callers with
              | nil => trivial
              | cons caller callers => exact ⟨hcallers.1 value, hcallers.2⟩
          | fault f => trivial

/-- The facts at the place that a run has reached hold there. -/
theorem ConfigHolds.run (hmeaning : δ.Meaning Holds)
    (hchecks : ∀ b, δ.Checks K (K b) (machine.code b))
    (hentry : ∀ name b, machine.entry name = some b →
      ∀ activation args, ∀ f ∈ K b, Holds f (.enter activation args))
    {callee : String} {args : List Value} {shared : Shared M W} {c : Config M W}
    (hstart : machine.start callee args shared = some c) (n : Nat) :
    ConfigHolds δ K Holds machine (machine.run n c) := by
  refine Machine.run_induction (ConfigHolds.step hmeaning hchecks hentry) ?_ n
  obtain ⟨b, hb, rfl⟩ := Option.map_eq_some_iff.mp hstart
  refine ⟨?_, trivial⟩
  intro f hf
  rw [factsAt_zero] at hf
  exact hentry callee b hb _ _ f hf

end Discipline

end SSA
