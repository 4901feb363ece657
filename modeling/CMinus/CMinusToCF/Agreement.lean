import CMinus.CMinusToCF.Formed
import CMinus.MLIR.Structured

namespace CMinus

namespace CMinusToCF

open SSA MLIR

/-! Environments that agree on the registers below `n`, and what ops make of them that
mention no other. -/

structure EnvAgrees (n : Nat) (env env' : Env) : Prop where
  activation : env'.activation = env.activation
  args : env'.args = env.args
  regs : ∀ r, r < n → env'.regs r = env.regs r

inductive EffectAgrees (n : Nat) {M : Type} : Effect M → Effect M → Prop where
  | next {env env' : Env} (mem : M) (agrees : EnvAgrees n env env') :
      EffectAgrees n (.next env mem) (.next env' mem)
  | jump (block : Nat) : EffectAgrees n (.jump block) (.jump block)
  | call (result : Option Nat) (callee : String) (args : List Value) :
      EffectAgrees n (.call result callee args) (.call result callee args)
  | ret (value : Option Value) : EffectAgrees n (.ret value) (.ret value)
  | fault (f : Fault) : EffectAgrees n (.fault f) (.fault f)

variable {n : Nat} {env env' : Env}

namespace EnvAgrees

theorem refl (n : Nat) (env : Env) : EnvAgrees n env env := ⟨rfl, rfl, fun _ _ => rfl⟩

theorem set (h : EnvAgrees n env env') (r : Nat) (v : Value) :
    EnvAgrees n (env.set r v) (env'.set r v) := by
  constructor
  · exact h.activation
  · exact h.args
  · intro q hq
    rw [Env.set_regs, Env.set_regs, h.regs q hq]

/-- A register that nobody else knows. -/
theorem fresh (h : EnvAgrees n env env') {r : Nat} (hr : n ≤ r) (v : Value) :
    EnvAgrees n env (env'.set r v) := by
  constructor
  · exact h.activation
  · exact h.args
  · intro q hq
    rw [Env.set_regs_of_ne _ v (by omega), h.regs q hq]

theorem receive (h : EnvAgrees n env env') (result : Option Nat) (value : Option Value) :
    EnvAgrees n (env.receive result value) (env'.receive result value) := by
  unfold Env.receive
  split
  · exact h.set _ _
  · exact h

variable (h : EnvAgrees n env env')
include h

theorem eval {v : Operand} (hv : ∀ r ∈ v.regs, r < n) : v.eval env' = v.eval env := by
  cases v with
  | null => rfl
  | arg i => exact congrArg (·[i]?) h.args
  | reg r => exact h.regs r (hv r (List.mem_singleton_self r))

theorem mapM {values : List Operand} (hvalues : ∀ v ∈ values, ∀ r ∈ v.regs, r < n) :
    values.mapM (Operand.eval env') = values.mapM (Operand.eval env) := by
  induction values with
  | nil => rfl
  | cons v values ih =>
      rw [List.forall_mem_cons] at hvalues
      rw [List.mapM_cons, List.mapM_cons, h.eval hvalues.1, ih hvalues.2]

theorem map {values : List Operand} (hvalues : ∀ v ∈ values, ∀ r ∈ v.regs, r < n) :
    values.map (fun v => v.eval env') = values.map fun v => v.eval env := by
  apply List.map_congr_left
  intro v hv
  exact h.eval (hvalues v hv)

theorem elementAt {memref : Operand} {indices : List Operand}
    (hmemref : ∀ r ∈ memref.regs, r < n) (hindices : ∀ v ∈ indices, ∀ r ∈ v.regs, r < n) :
    elementAt env' memref indices = elementAt env memref indices := by
  have hmap : (indices.map fun i => (i.eval env').bind IR.indexValue) =
      indices.map fun i => (i.eval env).bind IR.indexValue := by
    apply List.map_congr_left
    intro v hv
    rw [h.eval (hindices v hv)]
  unfold MLIR.elementAt
  rw [hmap, h.eval hmemref]

end EnvAgrees

variable {M : Type}

theorem compute_agrees (h : EnvAgrees n env env') (m : M) (r : Nat)
    (value : Option (Except Fault Value)) :
    EffectAgrees n (IR.compute env m r value) (IR.compute env' m r value) := by
  rcases value with _ | ⟨f⟩ | ⟨v⟩
  · exact .fault _
  · exact .fault f
  · exact .next m (h.set r v)

theorem access_agrees (mem : MemOps M) (m : M) (address : Option Value)
    {go go' : Address → Effect M} (hgo : ∀ a, EffectAgrees n (go a) (go' a)) :
    EffectAgrees n (IR.access mem m address go) (IR.access mem m address go') := by
  unfold IR.access
  split
  · split
    · exact hgo _
    · exact .fault _
  · exact .fault _
  · exact .fault _

theorem branch_agrees (cond : Option Value) {ifTrue ifFalse : Effect M}
    (htrue : EffectAgrees n ifTrue ifTrue) (hfalse : EffectAgrees n ifFalse ifFalse) :
    EffectAgrees n (branch cond ifTrue ifFalse) (branch cond ifTrue ifFalse) := by
  unfold branch
  split
  · split
    · exact htrue
    · exact hfalse
  · exact .fault _
  · exact .fault _

theorem exec_agrees (h : EnvAgrees n env env') (mem : MemOps M) {op : Op} (hop : Below n op)
    (m : M) : EffectAgrees n (exec mem op env m) (exec mem op env' m) := by
  have heval : ∀ v ∈ op.operands, v.eval env' = v.eval env :=
    fun v hv => h.eval (hop.operands v hv)
  cases op with
  | constant r value => exact .next m (h.set r _)
  | binary r op lhs rhs | cmpi r op lhs rhs =>
      dsimp only [exec]
      rw [heval lhs (by simp [Op.operands]), heval rhs (by simp [Op.operands])]
      exact compute_agrees h m r _
  | extui r value | indexCast r value =>
      dsimp only [exec]
      rw [heval value (by simp [Op.operands])]
      exact compute_agrees h m r _
  | cast r ty source =>
      dsimp only [exec]
      rw [heval source (by simp [Op.operands])]
      exact compute_agrees h m r _
  | alloca r ty =>
      dsimp only [exec]
      rw [h.activation]
      exact .next _ (h.set r _)
  | getGlobal r ty name => exact .next m (h.set r _)
  | load r memref indices =>
      dsimp only [exec]
      rw [h.elementAt (hop.operands memref (by simp [Op.operands]))
        fun v hv => hop.operands v (by simp [Op.operands, hv])]
      exact access_agrees mem m _ fun a => .next m (h.set r _)
  | store value memref indices =>
      dsimp only [exec]
      rw [heval value (by simp [Op.operands]),
        h.elementAt (hop.operands memref (by simp [Op.operands]))
          fun v hv => hop.operands v (by simp [Op.operands, hv])]
      split
      · exact access_agrees mem m _ fun a => .next _ h
      · exact .fault _
  | call r callee args =>
      dsimp only [exec]
      have hargs : args.mapM (Operand.eval env') = args.mapM (Operand.eval env) :=
        h.mapM fun v hv => hop.operands v hv
      rw [hargs]
      split
      · exact .call r callee _
      · exact .fault _
  | br target => exact .jump target
  | condBr cond ifTrue ifFalse =>
      dsimp only [exec]
      rw [heval cond (by simp [Op.operands])]
      exact branch_agrees _ (.jump ifTrue) (.jump ifFalse)
  | ret value =>
      cases value with
      | none => exact .ret none
      | some value =>
          dsimp only [exec]
          rw [heval value (by simp [Op.operands])]
          split
          · exact .ret _
          · exact .fault _
  | unreachable => exact .fault _
  | ifs | whiles | yield | condition | cminusReturn | indexCheck => exact .fault _

/-! The ops that leave a block are the terminators. -/

theorem exec_jump {mem : MemOps M} {op : Op} {m : M} {b : Nat}
    (h : exec mem op env m = .jump b) : b ∈ op.successors := by
  have hcompute : ∀ r value, IR.compute env m r value ≠ .jump b := by
    intro r value
    rcases value with _ | ⟨f⟩ | ⟨v⟩ <;> exact nofun
  have haccess : ∀ address (go : Address → Effect M), (∀ a, go a ≠ .jump b) →
      IR.access mem m address go ≠ .jump b := by
    intro address go hgo
    unfold IR.access
    split
    · split
      · exact hgo _
      · exact nofun
    · exact nofun
    · exact nofun
  cases op with
  | br target =>
      cases h
      exact List.mem_singleton_self _
  | condBr cond ifTrue ifFalse =>
      dsimp only [exec] at h
      unfold branch at h
      split at h
      · split at h
        · cases h
          exact List.mem_cons_self
        · cases h
          exact List.mem_cons_of_mem _ (List.mem_singleton_self _)
      · cases h
      · cases h
  | binary | cmpi | extui | indexCast | cast =>
      exact absurd h (hcompute _ _)
  | load => exact absurd h (haccess _ _ fun _ => nofun)
  | store value memref indices =>
      dsimp only [exec] at h
      split at h
      · exact absurd h (haccess _ _ fun _ => nofun)
      · cases h
  | call r callee args =>
      dsimp only [exec] at h
      split at h <;> cases h
  | ret value =>
      cases value with
      | none => cases h
      | some value =>
          dsimp only [exec] at h
          split at h <;> cases h
  | constant | getGlobal | alloca | unreachable | ifs | whiles | yield | condition
  | cminusReturn | indexCheck => cases h

end CMinusToCF

end CMinus
