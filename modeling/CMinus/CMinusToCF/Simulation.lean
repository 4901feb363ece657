import CMinus.CMinusToCF.Agreement

namespace CMinus

namespace CMinusToCF

open SSA MLIR Structured

/-! One rewrite: where a block had `occ` it has `occ'` afterwards, and the ends of the
regions that were inlined are branches now, with nothing pending. -/

structure Site where
  occ : List Op
  occ' : List Op
  Ends : Pending → Op → Op → Prop

section

variable (n : Nat) (known : Nat → Prop) (σ : Site)

/-- What is left to run, before and after the rewrite. -/
inductive Stacks : List Op → List Pending → List Op → List Pending → Prop where
  | same {rest : List Op} (block : Block n known rest) : Stacks rest [] rest []
  | site (inner : List Op) (formed : ∀ op ∈ inner, Inner n op) :
      Stacks (inner ++ σ.occ) [] (inner ++ σ.occ') []
  | arm (inner : List Op) (formed : ∀ op ∈ inner, Inner n op) {region : Pending}
      {last last' : Op} (ends : σ.Ends region last last') :
      Stacks (inner ++ [last]) [region] (inner ++ [last']) []
  | after (inner : List Op) (formed : ∀ op ∈ inner, Inner n op) {last : Op}
      (ends : ArmEnd n last) {rest rest' : List Op} {pending pending' : List Pending}
      (around : Stacks rest pending rest' pending') :
      Stacks (inner ++ [last]) (.after rest :: pending) (inner ++ [last]) (.after rest' :: pending')
  | loop (inner : List Op) (formed : ∀ op ∈ inner, Inner n op) {last : Op}
      (ends : ArmEnd n last ∨ ∃ value, last = .condition value ∧ Below n last)
      {condRegion bodyRegion : List Op} (op : Inner n (.whiles condRegion bodyRegion))
      {rest rest' : List Op} {pending pending' : List Pending}
      (around : Stacks rest pending rest' pending') :
      Stacks (inner ++ [last]) (.loop condRegion bodyRegion rest :: pending) (inner ++ [last])
        (.loop condRegion bodyRegion rest' :: pending')
  | dead (pending pending' : List Pending) :
      Stacks [.unreachable] pending [.unreachable] pending'

structure Frames (frame frame' : Structured.Frame) : Prop where
  remaining : Stacks n known σ frame.rest frame.pending frame'.rest frame'.pending
  env : EnvAgrees n frame.env frame'.env
  result : frame'.result = frame.result

variable {M W : Type}

inductive Configs : Structured.Config M W → Structured.Config M W → Prop where
  | running {top top' : Structured.Frame} {callers callers' : List Structured.Frame}
      (frame : Frames n known σ top top') (stack : List.Forall₂ (Frames n known σ) callers callers')
      (shared : Shared M W) :
      Configs (.running top callers shared) (.running top' callers' shared)
  | stopped (final : Final) (shared : Shared M W) :
      Configs (.stopped final shared) (.stopped final shared)

/-- A step of the machine before, and the steps that answer it. -/
def Answers (bound : Nat) (m m' : Machine Op M W) (c c' : Structured.Config M W) : Prop :=
  ∃ k, 0 < k ∧ (Structured.system bound m').trace k c' = (Structured.system bound m).observe c ∧
    Configs n known σ (Structured.step m c) ((Structured.system bound m').run k c')

/-- Two machines that differ in the rewrite alone. -/
structure Matches (m m' : Machine Op M W) : Prop where
  memory : m'.memory = m.memory
  runtime : m'.runtime = m.runtime
  entry : m'.entry = m.entry
  entered : ∀ name b, m.entry name = some b → known b
  blocks : ∀ b, known b → Stacks n known σ (m.code b) [] (m'.code b) []

/-- What has to be shown for a pattern. -/
structure Lowers (bound : Nat) (m m' : Machine Op M W) : Prop
    extends Matches n known σ m m' where
  site : ∀ {env env' : Env} (result : Option Nat) {callers callers' : List Structured.Frame}
    (shared : Shared M W), EnvAgrees n env env' → List.Forall₂ (Frames n known σ) callers callers' →
      Answers n known σ bound m m' (.running ⟨σ.occ, [], env, result⟩ callers shared)
        (.running ⟨σ.occ', [], env', result⟩ callers' shared)
  ends : ∀ {region : Pending} {last last' : Op} {env env' : Env} (result : Option Nat)
    {callers callers' : List Structured.Frame} (shared : Shared M W), σ.Ends region last last' →
      EnvAgrees n env env' → List.Forall₂ (Frames n known σ) callers callers' →
      Answers n known σ bound m m' (.running ⟨[last], [region], env, result⟩ callers shared)
        (.running ⟨[last'], [], env', result⟩ callers' shared)

end

variable {n bound : Nat} {known : Nat → Prop} {σ : Site} {M W : Type} {m m' : Machine Op M W}

/-! What the two sides show. -/

theorem performed_agrees {env env' : Env} (h : EnvAgrees n env env') {op : Op}
    (hop : Below n op) : performed bound op env' = performed bound op env := by
  have heval := h.map hop.operands
  unfold performed
  cases op with
  | indexCheck index =>
      have hindex : index.eval env' = index.eval env :=
        h.eval (hop.operands index (List.mem_singleton_self _))
      dsimp only
      rw [hindex]
  | _ =>
      dsimp only
      rw [heval]

/-- A step that is answered by one step. -/
theorem answers_step {c c' : Structured.Config M W}
    (hobserve : (Structured.system bound m').observe c' = (Structured.system bound m).observe c)
    (hstep : Configs n known σ (Structured.step m c) (Structured.step m' c')) :
    Answers n known σ bound m m' c c' := by
  refine ⟨1, Nat.one_pos, ?_, hstep⟩
  rw [System.trace_succ, System.trace_zero, List.append_nil, hobserve]

/-! The ops that are no part of a rewrite. -/

theorem move_plain (mem : MemOps M) {op : Op} (hop : op.isCMinus = false) (rest : List Op)
    (pending : List Pending) (env : Env) (shared : M) :
    move mem op rest pending env shared = .perform rest (exec mem op env shared) := by
  cases op with
  | ifs | whiles | yield | condition | cminusReturn | indexCheck => cases hop
  | _ => rfl

theorem successors_of_inside {op : Op} (hop : op.isTerminator = false) : op.successors = [] := by
  cases op with
  | br | condBr => cases hop
  | _ => rfl

theorem exec_terminator {mem : MemOps M} {op : Op} {env : Env} {shared : M}
    (hop : op.isTerminator = true) :
    (∀ env' mem', exec mem op env shared ≠ .next env' mem') ∧
      ∀ result callee args, exec mem op env shared ≠ .call result callee args := by
  cases op with
  | br | unreachable | yield | condition | cminusReturn => exact ⟨nofun, nofun⟩
  | condBr cond ifTrue ifFalse =>
      dsimp only [exec]
      unfold branch
      split
      · split <;> exact ⟨nofun, nofun⟩
      · exact ⟨nofun, nofun⟩
      · exact ⟨nofun, nofun⟩
  | ret value =>
      cases value with
      | none => exact ⟨nofun, nofun⟩
      | some value =>
          dsimp only [exec]
          split <;> exact ⟨nofun, nofun⟩
  | _ => cases hop

theorem Stacks.frames {rest rest' : List Op} {pending pending' : List Pending} {env env' : Env}
    (h : Stacks n known σ rest pending rest' pending') (henv : EnvAgrees n env env')
    (result : Option Nat) :
    Frames n known σ ⟨rest, pending, env, result⟩ ⟨rest', pending', env', result⟩ :=
  ⟨h, henv, rfl⟩

/-- A branch on a value that is the same on both sides. -/
theorem branchOn_configs {env env' : Env} (henv : EnvAgrees n env env') {cond : Operand}
    (hcond : ∀ r ∈ cond.regs, r < n) {top top' : Structured.Frame}
    {callers callers' : List Structured.Frame} {shared : Shared M W} {go go' : Bool → Move M}
    (hgo : ∀ b, Configs n known σ (follow m top callers shared (go b))
      (follow m' top' callers' shared (go' b))) :
    Configs n known σ (follow m top callers shared (branchOn (cond.eval env) go))
      (follow m' top' callers' shared (branchOn (cond.eval env') go')) := by
  rw [henv.eval hcond]
  unfold branchOn
  split
  · exact hgo _
  · exact .stopped _ shared
  · exact .stopped _ shared

theorem Frames.receive {frame frame' : Structured.Frame} (h : Frames n known σ frame frame')
    (result : Option Nat) (value : Option Value) :
    Frames n known σ { frame with env := frame.env.receive result value }
      { frame' with env := frame'.env.receive result value } :=
  ⟨h.remaining, h.env.receive result value, h.result⟩

namespace Matches

variable {callers callers' : List Structured.Frame}
  (hcallers : List.Forall₂ (Frames n known σ) callers callers') (shared : Shared M W)
include hcallers

theorem leave {top top' : Structured.Frame} (hresult : top'.result = top.result)
    (value : Option Value) :
    Configs n known σ (Structured.leave top value shared callers)
      (Structured.leave top' value shared callers') := by
  cases hcallers with
  | nil => exact .stopped _ shared
  | cons hcaller hcallers =>
      unfold Structured.leave
      rw [hresult]
      exact .running (hcaller.receive _ _) hcallers shared

variable (h : Matches n known σ m m')
include h

theorem enter {top top' : Structured.Frame} (htop : Frames n known σ top top')
    (result : Option Nat) (callee : String) (args : List Value) :
    Configs n known σ (Structured.enter m result callee args top callers shared)
      (Structured.enter m' result callee args top' callers' shared) := by
  unfold Structured.enter
  rw [h.entry, h.runtime]
  split
  · next b hb =>
      have hframe := (h.blocks b (h.entered _ b hb)).frames
        (.refl n (.enter shared.activations args)) result
      exact .running hframe (.cons htop hcallers) _
  · split
    · exact .running (htop.receive _ _) hcallers _
    · exact .stopped _ _
    · exact .stopped _ _

variable {rest rest' : List Op} {pending pending' : List Pending} {env env' : Env}
  (result : Option Nat) (henv : EnvAgrees n env env')
include henv

/-- An effect that both sides have alike. -/
theorem perform (hstacks : Stacks n known σ rest pending rest' pending') {effect effect' : Effect M}
    (heffect : EffectAgrees n effect effect') (hjump : ∀ b, effect ≠ .jump b) :
    Configs n known σ (Structured.perform m ⟨rest, pending, env, result⟩ callers shared effect)
      (Structured.perform m' ⟨rest', pending', env', result⟩ callers' shared effect') := by
  cases heffect with
  | next mem agrees => exact .running (hstacks.frames agrees result) hcallers _
  | jump b => exact absurd rfl (hjump b)
  | call result' callee args =>
      exact enter hcallers shared h (hstacks.frames henv result) result' callee args
  | ret value => exact leave hcallers shared rfl value
  | fault f => exact .stopped _ shared

/-- An op that ends its block. -/
theorem terminate {effect effect' : Effect M} (heffect : EffectAgrees n effect effect')
    (hnext : ∀ env mem, effect ≠ .next env mem)
    (hcall : ∀ result callee args, effect ≠ .call result callee args)
    (hjump : ∀ b, effect = .jump b → known b ∧ pending = [] ∧ pending' = []) :
    Configs n known σ (Structured.perform m ⟨rest, pending, env, result⟩ callers shared effect)
      (Structured.perform m' ⟨rest', pending', env', result⟩ callers' shared effect') := by
  cases heffect with
  | next mem agrees => exact absurd rfl (hnext _ _)
  | jump b =>
      obtain ⟨hb, rfl, rfl⟩ := hjump b rfl
      exact .running ((h.blocks b hb).frames henv result) hcallers shared
  | call result' callee args => exact absurd rfl (hcall _ _ _)
  | ret value => exact leave hcallers shared rfl value
  | fault f => exact .stopped _ shared

/-- An op before the end of its block or region. -/
theorem inner {op : Op} (hop : Inner n op)
    (hstacks : Stacks n known σ rest pending rest' pending') :
    Answers n known σ bound m m' (.running ⟨op :: rest, pending, env, result⟩ callers shared)
      (.running ⟨op :: rest', pending', env', result⟩ callers' shared) := by
  cases hop with
  | straight _ inside flat below =>
      apply answers_step
      · exact performed_agrees henv below
      · change Configs n known σ (follow m _ callers shared (move m.memory op rest _ env _))
          (follow m' _ callers' shared (move m'.memory op rest' _ env' _))
        rw [move_plain _ flat, move_plain _ flat, h.memory]
        apply perform hcallers shared h result henv hstacks (exec_agrees henv m.memory below _)
        intro b hb
        have hsucc := exec_jump hb
        rw [successors_of_inside inside] at hsucc
        cases hsucc
  | indexCheck index below =>
      have hperformed : performed bound (.indexCheck index) env' =
          performed bound (.indexCheck index) env := performed_agrees henv below
      apply answers_step
      · exact hperformed
      · change Configs n known σ
          (follow m _ callers shared (checkIndex (index.eval env) rest pending))
          (follow m' _ callers' shared (checkIndex (index.eval env') rest' pending'))
        rw [henv.eval (below.operands index (List.mem_singleton_self _))]
        unfold checkIndex
        split
        · exact .stopped _ shared
        · split
          · exact .stopped _ shared
          · unfold branchOn
            split
            · next b _ =>
                cases b with
                | true =>
                    have hdead : Stacks n known σ [.unreachable] pending [.unreachable] pending' :=
                      .dead pending pending'
                    exact enter hcallers shared h (hdead.frames henv result) _ _ _
                | false => exact .running (hstacks.frames henv result) hcallers shared
            · exact .stopped _ shared
            · exact .stopped _ shared
  | ifThen cond thenOps thenEnd below thenInner thenEnds =>
      apply answers_step
      · rfl
      · apply branchOn_configs henv
        · exact below.operands cond (List.mem_singleton_self _)
        · intro b
          cases b with
          | true =>
              have hthen := Stacks.after thenOps thenInner thenEnds hstacks
              exact .running (hthen.frames henv result) hcallers shared
          | false => exact .running (hstacks.frames henv result) hcallers shared
  | ifElse cond thenOps elseOps thenEnd elseEnd below thenInner thenEnds elseInner elseEnds =>
      apply answers_step
      · rfl
      · apply branchOn_configs henv
        · exact below.operands cond (List.mem_singleton_self _)
        · intro b
          cases b with
          | true =>
              have hthen := Stacks.after thenOps thenInner thenEnds hstacks
              exact .running (hthen.frames henv result) hcallers shared
          | false =>
              have helse := Stacks.after elseOps elseInner elseEnds hstacks
              exact .running (helse.frames henv result) hcallers shared
  | whiles value condOps bodyOps bodyEnd below condInner bodyInner bodyEnds =>
      apply answers_step
      · rfl
      · have hloop := Stacks.loop condOps condInner (.inr ⟨value, rfl, below⟩)
          (.whiles value condOps bodyOps bodyEnd below condInner bodyInner bodyEnds) hstacks
        exact .running (hloop.frames henv result) hcallers shared

/-- `cminus.return`, from any depth, against either return. -/
theorem returning {value : Option Operand} (hbelow : Below n (.cminusReturn value))
    (pending pending' : List Pending) {last' : Op}
    (hlast' : last' = .cminusReturn value ∨ last' = .ret value) :
    Answers n known σ bound m m'
      (.running ⟨[.cminusReturn value], pending, env, result⟩ callers shared)
      (.running ⟨[last'], pending', env', result⟩ callers' shared) := by
  have heffect := exec_agrees henv m.memory hbelow.ret shared.mem
  have hterminator : (∀ env' mem', exec m.memory (.ret value) env shared.mem ≠ .next env' mem') ∧
      ∀ result callee args, exec m.memory (.ret value) env shared.mem ≠ .call result callee args :=
    exec_terminator rfl
  obtain ⟨hnext, hcall⟩ := hterminator
  apply answers_step
  · rcases hlast' with rfl | rfl <;> rfl
  · have hstep : Structured.step m' (.running ⟨[last'], pending', env', result⟩ callers' shared) =
        Structured.perform m' ⟨[], pending', env', result⟩ callers' shared
          (exec m.memory (.ret value) env' shared.mem) := by
      rw [← h.memory]
      rcases hlast' with rfl | rfl <;> rfl
    rw [hstep]
    exact terminate hcallers shared h result henv heffect hnext hcall
      fun b hb => by cases exec_jump hb

theorem leaving {value : Option Operand} (hbelow : Below n (.cminusReturn value))
    (pending pending' : List Pending) :
    Answers n known σ bound m m'
      (.running ⟨[.cminusReturn value], pending, env, result⟩ callers shared)
      (.running ⟨[.cminusReturn value], pending', env', result⟩ callers' shared) :=
  returning hcallers shared h result henv hbelow pending pending' (.inl rfl)

/-- A terminator of a control-flow graph, or a return. -/
theorem blockEnd {last : Op} (hlast : BlockEnd n known last) :
    Answers n known σ bound m m' (.running ⟨[last], [], env, result⟩ callers shared)
      (.running ⟨[last], [], env', result⟩ callers' shared) := by
  cases hlast with
  | leave value below => exact leaving hcallers shared h result henv below [] []
  | flat _ terminator plain targets below =>
      apply answers_step
      · exact performed_agrees henv below
      · change Configs n known σ (follow m _ callers shared (move m.memory last [] _ env _))
          (follow m' _ callers' shared (move m'.memory last [] _ env' _))
        rw [move_plain _ plain, move_plain _ plain, h.memory]
        have heffect := exec_agrees henv m.memory below shared.mem
        obtain ⟨hnext, hcall⟩ := exec_terminator terminator
        exact terminate hcallers shared h result henv heffect hnext hcall
          fun b hb => ⟨targets b (exec_jump hb), rfl, rfl⟩

end Matches

/-- Whatever is left to run, a step is answered. -/
theorem Lowers.simulates (h : Lowers n known σ bound m m') :
    System.Simulates (Structured.system bound m) (Structured.system bound m')
      (Configs n known σ) := by
  constructor
  intro c c' hc
  cases hc with
  | stopped final shared => exact ⟨1, Nat.one_pos, rfl, .stopped final shared⟩
  | @running top top' callers callers' frame stack shared =>
      obtain ⟨rest, pending, env, result⟩ := top
      obtain ⟨rest', pending', env', result'⟩ := top'
      obtain ⟨hstacks, henv, hresult⟩ := frame
      dsimp only at hstacks henv hresult
      subst hresult
      cases hstacks with
      | same block =>
          obtain ⟨inner, last, rfl, hinner, hlast⟩ := block
          cases inner with
          | nil => exact h.toMatches.blockEnd stack shared result' henv hlast
          | cons op inner =>
              rw [List.forall_mem_cons] at hinner
              exact h.toMatches.inner stack shared result' henv hinner.1
                (.same ⟨inner, last, rfl, hinner.2, hlast⟩)
      | site inner hinner =>
          cases inner with
          | nil => exact h.site result' shared henv stack
          | cons op inner =>
              rw [List.forall_mem_cons] at hinner
              exact h.toMatches.inner stack shared result' henv hinner.1 (.site inner hinner.2)
      | arm inner hinner ends =>
          cases inner with
          | nil => exact h.ends result' shared ends henv stack
          | cons op inner =>
              rw [List.forall_mem_cons] at hinner
              exact h.toMatches.inner stack shared result' henv hinner.1 (.arm inner hinner.2 ends)
      | after inner hinner ends around =>
          cases inner with
          | nil =>
              cases ends with
              | leave value below => exact h.toMatches.leaving stack shared result' henv below _ _
              | yield =>
                  apply answers_step
                  · rfl
                  · exact .running (around.frames henv result') stack shared
          | cons op inner =>
              rw [List.forall_mem_cons] at hinner
              exact h.toMatches.inner stack shared result' henv hinner.1 (.after inner hinner.2 ends around)
      | @loop inner hinner last ends condRegion bodyRegion op rest rest' pending pending' around =>
          cases inner with
          | nil =>
              cases op with
              | straight _ inside flat => cases flat
              | whiles value condOps bodyOps bodyEnd below condInner bodyInner bodyEnds =>
                  have hloop : Inner n (.whiles (condOps ++ [.condition value])
                      (bodyOps ++ [bodyEnd])) :=
                    .whiles value condOps bodyOps bodyEnd below condInner bodyInner bodyEnds
                  have hcond := Stacks.loop condOps condInner (.inr ⟨value, rfl, below⟩) hloop
                    around
                  have hbody := Stacks.loop bodyOps bodyInner (.inl bodyEnds) hloop around
                  rcases ends with ends | ⟨value', rfl, below'⟩
                  · cases ends with
                    | leave value below => exact h.toMatches.leaving stack shared result' henv below _ _
                    | yield =>
                        apply answers_step
                        · rfl
                        · exact .running (hcond.frames henv result') stack shared
                  · apply answers_step
                    · rfl
                    · apply branchOn_configs henv
                      · exact below'.operands value' (List.mem_singleton_self _)
                      · intro b
                        cases b with
                        | true => exact .running (hbody.frames henv result') stack shared
                        | false => exact .running (around.frames henv result') stack shared
          | cons op' inner =>
              rw [List.forall_mem_cons] at hinner
              exact h.toMatches.inner stack shared result' henv hinner.1
                (.loop inner hinner.2 ends op around)
      | dead =>
          apply answers_step
          · rfl
          · exact .stopped _ shared

end CMinusToCF

end CMinus
