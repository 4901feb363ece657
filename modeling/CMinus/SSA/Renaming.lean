import Mathlib.Logic.Equiv.Defs
import Mathlib.SetTheory.Cardinal.Arithmetic
import Mathlib.Data.Set.Finite.Range
import CMinus.SSA.Machine

namespace SSA

/-! Storage under other register names: a slot keeps its activation, and the register that
holds it is renamed. -/

abbrev Renaming : Type := Equiv.Perm Nat

namespace Key

def rename (π : Renaming) : Key → Key
  | .global name => .global name
  | .slot activation register => .slot activation (π register)

@[simp] theorem rename_symm (π : Renaming) (key : Key) :
    (key.rename π).rename π.symm = key := by
  cases key with
  | global name => rfl
  | slot activation register => exact congrArg (Key.slot activation) (π.symm_apply_apply _)

end Key

namespace Address

def rename (π : Renaming) (a : Address) : Address := { a with key := a.key.rename π }

@[simp] theorem rename_symm (π : Renaming) (a : Address) :
    (a.rename π).rename π.symm = a := by
  unfold rename
  rw [Key.rename_symm]

end Address

namespace Value

def rename (π : Renaming) : Value → Value
  | .ptr a => .ptr (a.rename π)
  | v => v

@[simp] theorem rename_symm (π : Renaming) (v : Value) : (v.rename π).rename π.symm = v := by
  cases v with
  | ptr a => exact congrArg Value.ptr (a.rename_symm π)
  | _ => rfl

@[simp] theorem symm_rename (π : Renaming) (v : Value) : (v.rename π.symm).rename π = v := by
  have h := rename_symm π.symm v
  rwa [Equiv.symm_symm] at h

end Value

/-- The same memory, addressed by the names before the renaming. -/
def MemOps.rename {M : Type} (π : Renaming) (mem : MemOps M) : MemOps M where
  alloca m key size := mem.alloca m (key.rename π) size
  valid m a := mem.valid m (a.rename π)
  load m a := (mem.load m (a.rename π)).rename π.symm
  store m a v := mem.store m (a.rename π) (v.rename π)

/-! Environments that agree on the registers below `n`. -/

structure Env.Renames (π : Renaming) (n : Nat) (env env' : Env) : Prop where
  activation : env'.activation = env.activation
  args : env'.args = env.args.map (Value.rename π)
  regs : ∀ r, r < n → env'.regs (π r) = (env.regs r).map (Value.rename π)

namespace Env.Renames

variable {π : Renaming} {n : Nat} {env env' : Env}

theorem enter (activation : Nat) (args : List Value) :
    Renames π n (.enter activation args) (.enter activation (args.map (Value.rename π))) := by
  constructor
  · rfl
  · rfl
  · intro r _
    rfl

theorem set (h : Renames π n env env') (r : Nat) (v : Value) :
    Renames π n (env.set r v) (env'.set (π r) (v.rename π)) := by
  constructor
  · exact h.activation
  · exact h.args
  · intro q hq
    rw [Env.set_regs, Env.set_regs]
    by_cases hsame : q = r
    · rw [if_pos hsame, if_pos (congrArg π hsame)]
      rfl
    · rw [if_neg hsame, if_neg fun heq => hsame (π.injective heq)]
      exact h.regs q hq

/-- A register of the renamed side alone. -/
theorem set_apart (h : Renames π n env env') {r' : Nat} (hr' : ∀ r, r < n → π r ≠ r')
    (v : Value) : Renames π n env (env'.set r' v) := by
  constructor
  · exact h.activation
  · exact h.args
  · intro q hq
    rw [Env.set_regs_of_ne _ _ (hr' q hq)]
    exact h.regs q hq

theorem receive (h : Renames π n env env') (result : Option Nat) (value : Option Value) :
    Renames π n (env.receive result value)
      (env'.receive (result.map π) (value.map (Value.rename π))) := by
  cases result with
  | none => cases value <;> exact h
  | some r =>
      cases value with
      | none => exact h
      | some v => exact h.set r v

end Env.Renames

/-- A one-to-one naming of finitely many registers is part of a renaming of all. -/
theorem exists_renaming {n : Nat} {f : Nat → Nat}
    (hf : ∀ r, r < n → ∀ q, q < n → f r = f q → r = q) :
    ∃ π : Renaming, ∀ r, r < n → π r = f r := by
  let s : Set Nat := { r | r < n }
  let g : s ↪ Nat := ⟨fun r => f r.1, fun r q h => Subtype.ext (hf r.1 r.2 q.1 q.2 h)⟩
  have hs : s.Finite := Set.finite_lt_nat n
  have hrange : (Set.range g).Finite := by
    have : Finite s := hs
    exact Set.finite_range g
  have hleft : Infinite (↥sᶜ) := hs.infinite_compl.to_subtype
  have hright : Infinite (↥(Set.range g)ᶜ) := hrange.infinite_compl.to_subtype
  obtain ⟨π, hπ⟩ := Cardinal.extend_function g
    (Cardinal.eq.mp (by rw [Cardinal.mk_eq_aleph0, Cardinal.mk_eq_aleph0]))
  exact ⟨π, fun r hr => hπ ⟨r, hr⟩⟩

end SSA
