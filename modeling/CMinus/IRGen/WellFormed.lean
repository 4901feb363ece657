import CMinus.IRGen.Facts

namespace CMinus

namespace IR

open SSA

/-! What the verifier asks of a module. -/

namespace Module

def signatures (m : Module) (bits : Nat) : Signatures :=
  { functions := m.functions, globals := m.globals.map GlobalVariable.name, bits := bits }

/-- The registers that a function defines, with their types. -/
def registers (m : Module) (f : Function) : Set Fact :=
  { fact | ∃ r ty, fact = .typed r ty ∧ ∃ b ∈ f.blocks, ∃ i ∈ m.code b,
    i.defines = some r ∧ i.resultTy = some ty }

/-- A function with a body, whose first block is `entry`. -/
structure Body (m : Module) (bits : Nat) (f : Function) (entry : Nat) : Prop where
  starts : f.blocks.head? = some entry
  distinct : f.blocks.Nodup
  closed : ∀ b ∈ f.blocks, IsClosed (m.code b)
  branches : ∀ b ∈ f.blocks, ∀ i ∈ m.code b, ∀ t ∈ i.successors, t ∈ f.blocks ∧ t ≠ entry
  typed : ∀ b ∈ f.blocks, ∀ i ∈ m.code b, i.WellTyped (m.signatures bits) f (m.registers f)
  dominated : ∀ b, Reachable m.code entry b → ∀ k i, (m.code b)[k]? = some i →
    ∀ r ∈ ControlFlow.uses i, DefinedBefore m.code entry r b k

structure WellFormed (m : Module) (bits : Nat) : Prop where
  names : (m.functions.map Function.name ++ m.globals.map GlobalVariable.name).Nodup
  assigned : SingleAssignment m.code
  bodies : ∀ f ∈ m.functions, f.blocks ≠ [] → ∃ entry, m.Body bits f entry
  apart : ∀ f ∈ m.functions, ∀ f' ∈ m.functions, ∀ b, b ∈ f.blocks → b ∈ f'.blocks → f = f'

end Module

/-! Typing is kept by more facts, and by signatures that agree on what is named. -/

structure Signatures.Agree (Γ Δ : Signatures) (i : Instr) : Prop where
  bits : Δ.bits = Γ.bits
  globals : Δ.globals = Γ.globals
  callee : ∀ r callee args, i = .call r callee args → ∀ g,
    IRGenerator.getFunction Γ.functions callee = some g →
      ∃ h, IRGenerator.getFunction Δ.functions callee = some h ∧ h.params = g.params ∧
        h.returnType = g.returnType

theorem Operand.HasTy.transfer {Γ Δ : Signatures} {f f' : Function} {A B : Set Fact}
    {v : Operand} {ty : Ty} (h : v.HasTy Γ f A ty) (hbits : Δ.bits = Γ.bits)
    (hglobals : Δ.globals = Γ.globals) (hparams : f'.params = f.params)
    (hAB : ∀ r ty, .typed r ty ∈ A → .typed r ty ∈ B) : v.HasTy Δ f' B ty := by
  cases v with
  | reg r => exact hAB r ty h
  | arg i =>
      change f'.params[i]? = some ty
      rw [hparams]
      exact h
  | index v =>
      change ty = .int Δ.bits
      rw [hbits]
      exact h
  | global name | element name offset =>
      change ty = .ptr ∧ name ∈ Δ.globals
      rw [hglobals]
      exact h
  | _ => exact h

theorem Instr.WellTyped.transfer {Γ Δ : Signatures} {f f' : Function} {A B : Set Fact}
    {i : Instr} (h : i.WellTyped Γ f A) (hagree : Γ.Agree Δ i)
    (hparams : f'.params = f.params) (hreturn : f'.returnType = f.returnType)
    (hAB : ∀ r ty, .typed r ty ∈ A → .typed r ty ∈ B) : i.WellTyped Δ f' B := by
  have hmove : ∀ {v : Operand} {ty : Ty}, v.HasTy Γ f A ty → v.HasTy Δ f' B ty :=
    fun hv => hv.transfer hagree.bits hagree.globals hparams hAB
  cases i with
  | alloca r ty => exact h
  | load r ty address => exact ⟨h.1, hmove h.2⟩
  | store value address => exact ⟨h.1.imp hmove hmove, hmove h.2⟩
  | binary r op lhs rhs | icmp r pred lhs rhs => exact ⟨hmove h.1, hmove h.2⟩
  | zext r value => exact hmove h
  | sext r value bits | trunc r value bits =>
      exact ⟨h.1, h.2.1.trans hagree.bits.symm, hmove h.2.2⟩
  | getelementptr r ty base indices =>
      refine ⟨hmove h.1, h.2.1, fun i hi => ?_⟩
      rw [hagree.bits]
      exact hmove (h.2.2 i hi)
  | call r callee args =>
      obtain ⟨g, hg, hargs, hret⟩ := h
      obtain ⟨g', hg', hparams', hreturn'⟩ := hagree.callee r callee args rfl g hg
      refine ⟨g', hg', ?_, hreturn'.trans hret⟩
      rw [hparams']
      exact hargs.imp fun _ _ => hmove
  | br target => trivial
  | condBr cond ifTrue ifFalse => exact hmove h
  | ret value =>
      cases value with
      | none => exact hreturn.trans h
      | some value =>
          refine ⟨hreturn.symm ▸ h.1, ?_⟩
          rw [hreturn]
          exact hmove h.2
  | unreachable => trivial

/-! The discipline looks at no more of a function than its type. -/

theorem typing_congr {Γ : Signatures} {f f' : Function} (hparams : f'.params = f.params)
    (hreturn : f'.returnType = f.returnType) : typing Γ f' = typing Γ f := by
  have hsame : ∀ (i : Instr) (A : Set Fact), i.WellTyped Γ f' A ↔ i.WellTyped Γ f A := by
    intro i A
    have hagree : Γ.Agree Γ i := ⟨rfl, rfl, fun _ _ _ _ g hg => ⟨g, hg, rfl, rfl⟩⟩
    exact ⟨fun h => h.transfer hagree hparams.symm hreturn.symm fun _ _ => id,
      fun h => h.transfer hagree hparams hreturn fun _ _ => id⟩
  unfold typing
  simp only [hsame]

end IR

end CMinus
