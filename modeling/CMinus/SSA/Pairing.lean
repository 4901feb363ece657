import CMinus.SSA.Cfg
import Mathlib.Order.Basic

namespace SSA

/-! Two codes side by side, a plain one and one with guards in it.  A place of the plain code
is paired with the places of the other that stand before the same instruction or before a
guard of it; a guard has registers of its own. -/

structure Pairing where
  reg : Nat → Nat → Prop
  guard : Nat → Prop
  block : Nat → Nat → Prop
  place : Nat → Nat → Nat → Nat → Prop

namespace Pairing

def empty : Pairing :=
  ⟨fun _ _ => False, fun _ => False, fun _ _ => False, fun _ _ _ _ => False⟩

instance : LE Pairing where
  le w w' := (∀ r r', w.reg r r' → w'.reg r r') ∧ (∀ r', w.guard r' → w'.guard r') ∧
    (∀ b c, w.block b c → w'.block b c) ∧ ∀ b p c q, w.place b p c q → w'.place b p c q

variable {w w' w'' : Pairing}

theorem reg_mono (h : w ≤ w') {r r' : Nat} (hr : w.reg r r') : w'.reg r r' := h.1 r r' hr

theorem guard_mono (h : w ≤ w') {r' : Nat} (hr : w.guard r') : w'.guard r' := h.2.1 r' hr

theorem block_mono (h : w ≤ w') {b c : Nat} (hb : w.block b c) : w'.block b c := h.2.2.1 b c hb

theorem place_mono (h : w ≤ w') {b p c q : Nat} (hp : w.place b p c q) : w'.place b p c q :=
  h.2.2.2 b p c q hp

instance : Preorder Pairing where
  le_refl _ := ⟨fun _ _ h => h, fun _ h => h, fun _ _ h => h, fun _ _ _ _ h => h⟩
  le_trans _ _ _ h h' := ⟨fun _ _ hr => reg_mono h' (reg_mono h hr),
    fun _ hr => guard_mono h' (guard_mono h hr), fun _ _ hb => block_mono h' (block_mono h hb),
    fun _ _ _ _ hp => place_mono h' (place_mono h hp)⟩

/-! What is added as both codes grow. -/

def addReg (w : Pairing) (r r' : Nat) : Pairing :=
  { w with reg := fun q q' => w.reg q q' ∨ (q = r ∧ q' = r') }

def addGuard (w : Pairing) (r' : Nat) : Pairing :=
  { w with guard := fun q' => w.guard q' ∨ q' = r' }

def addPlace (w : Pairing) (b p c q : Nat) : Pairing :=
  { w with place := fun b' p' c' q' =>
      w.place b' p' c' q' ∨ (b' = b ∧ p' = p ∧ c' = c ∧ q' = q) }

/-- Two blocks, from their first instruction on. -/
def addBlock (w : Pairing) (b c : Nat) : Pairing :=
  { w.addPlace b 0 c 0 with block := fun b' c' => w.block b' c' ∨ (b' = b ∧ c' = c) }

theorem le_addReg (w : Pairing) (r r' : Nat) : w ≤ w.addReg r r' :=
  ⟨fun _ _ h => .inl h, fun _ h => h, fun _ _ h => h, fun _ _ _ _ h => h⟩

theorem le_addGuard (w : Pairing) (r' : Nat) : w ≤ w.addGuard r' :=
  ⟨fun _ _ h => h, fun _ h => .inl h, fun _ _ h => h, fun _ _ _ _ h => h⟩

theorem le_addPlace (w : Pairing) (b p c q : Nat) : w ≤ w.addPlace b p c q :=
  ⟨fun _ _ h => h, fun _ h => h, fun _ _ h => h, fun _ _ _ _ h => .inl h⟩

theorem le_addBlock (w : Pairing) (b c : Nat) : w ≤ w.addBlock b c :=
  ⟨fun _ _ h => h, fun _ h => h, fun _ _ h => .inl h, fun _ _ _ _ h => .inl h⟩

/-- The names below `n` and `n'`, and the blocks below `k` and `k'`, are paired one to one, and
no guard has a register that is paired. -/
structure Proper (w : Pairing) (n n' k k' : Nat) : Prop where
  bound : ∀ r r', w.reg r r' → r < n ∧ r' < n'
  total : ∀ r, r < n → ∃ r', w.reg r r'
  forth : ∀ r r' q', w.reg r r' → w.reg r q' → r' = q'
  back : ∀ r q r', w.reg r r' → w.reg q r' → r = q
  apart : ∀ r', w.guard r' → r' < n' ∧ ∀ r, ¬ w.reg r r'
  blocks : ∀ b c, w.block b c → b < k ∧ c < k'
  blockForth : ∀ b c c', w.block b c → w.block b c' → c = c'
  blockBack : ∀ b b' c, w.block b c → w.block b' c → b = b'

theorem proper_empty : empty.Proper 0 0 0 0 := by
  constructor
  · intro r r' h
    cases h
  · intro r hr
    cases hr
  · intro r r' q' h
    cases h
  · intro r q r' h
    cases h
  · intro r' h
    cases h
  · intro b c h
    cases h
  · intro b c c' h
    cases h
  · intro b b' c h
    cases h

namespace Proper

variable {n n' k k' : Nat}

theorem addReg (h : w.Proper n n' k k') : (w.addReg n n').Proper (n + 1) (n' + 1) k k' := by
  constructor
  · intro r r' hr
    rcases hr with hr | ⟨rfl, rfl⟩
    · obtain ⟨hlt, hlt'⟩ := h.bound r r' hr
      exact ⟨Nat.lt_succ_of_lt hlt, Nat.lt_succ_of_lt hlt'⟩
    · exact ⟨Nat.lt_succ_self _, Nat.lt_succ_self _⟩
  · intro r hr
    rcases Nat.lt_succ_iff_lt_or_eq.mp hr with hr | rfl
    · obtain ⟨r', hreg⟩ := h.total r hr
      exact ⟨r', .inl hreg⟩
    · exact ⟨n', .inr ⟨rfl, rfl⟩⟩
  · intro r r' q' hr hq
    rcases hr with hr | ⟨rfl, rfl⟩ <;> rcases hq with hq | ⟨hn, rfl⟩
    · exact h.forth r r' q' hr hq
    · exact absurd (h.bound r r' hr).1 (hn ▸ Nat.lt_irrefl _)
    · exact absurd (h.bound r q' hq).1 (Nat.lt_irrefl _)
    · rfl
  · intro r q r' hr hq
    rcases hr with hr | ⟨rfl, rfl⟩ <;> rcases hq with hq | ⟨rfl, hn⟩
    · exact h.back r q r' hr hq
    · exact absurd (h.bound r r' hr).2 (hn ▸ Nat.lt_irrefl _)
    · exact absurd (h.bound q r' hq).2 (Nat.lt_irrefl _)
    · rfl
  · intro r' hr
    obtain ⟨hlt, hnone⟩ := h.apart r' hr
    refine ⟨Nat.lt_succ_of_lt hlt, ?_⟩
    intro r hreg
    rcases hreg with hreg | ⟨-, rfl⟩
    · exact hnone r hreg
    · exact Nat.lt_irrefl _ hlt
  · exact h.blocks
  · exact h.blockForth
  · exact h.blockBack

theorem addGuard (h : w.Proper n n' k k') : (w.addGuard n').Proper n (n' + 1) k k' := by
  constructor
  · intro r r' hr
    obtain ⟨hlt, hlt'⟩ := h.bound r r' hr
    exact ⟨hlt, Nat.lt_succ_of_lt hlt'⟩
  · exact h.total
  · exact h.forth
  · exact h.back
  · intro r' hr
    rcases hr with hr | rfl
    · obtain ⟨hlt, hnone⟩ := h.apart r' hr
      exact ⟨Nat.lt_succ_of_lt hlt, hnone⟩
    · refine ⟨Nat.lt_succ_self _, ?_⟩
      intro r hreg
      exact Nat.lt_irrefl _ (h.bound r _ hreg).2
  · exact h.blocks
  · exact h.blockForth
  · exact h.blockBack

theorem addPlace (h : w.Proper n n' k k') (b p c q : Nat) :
    (w.addPlace b p c q).Proper n n' k k' :=
  ⟨h.bound, h.total, h.forth, h.back, h.apart, h.blocks, h.blockForth, h.blockBack⟩

theorem addBlock (h : w.Proper n n' k k') : (w.addBlock k k').Proper n n' (k + 1) (k' + 1) := by
  constructor
  · exact h.bound
  · exact h.total
  · exact h.forth
  · exact h.back
  · exact h.apart
  · intro b c hb
    rcases hb with hb | ⟨rfl, rfl⟩
    · obtain ⟨hlt, hlt'⟩ := h.blocks b c hb
      exact ⟨Nat.lt_succ_of_lt hlt, Nat.lt_succ_of_lt hlt'⟩
    · exact ⟨Nat.lt_succ_self _, Nat.lt_succ_self _⟩
  · intro b c c' hb hb'
    rcases hb with hb | ⟨rfl, rfl⟩ <;> rcases hb' with hb' | ⟨hk, rfl⟩
    · exact h.blockForth b c c' hb hb'
    · exact absurd (h.blocks b c hb).1 (hk ▸ Nat.lt_irrefl _)
    · exact absurd (h.blocks b c' hb').1 (Nat.lt_irrefl _)
    · rfl
  · intro b b' c hb hb'
    rcases hb with hb | ⟨rfl, rfl⟩ <;> rcases hb' with hb' | ⟨rfl, hk⟩
    · exact h.blockBack b b' c hb hb'
    · exact absurd (h.blocks b c hb).2 (hk ▸ Nat.lt_irrefl _)
    · exact absurd (h.blocks b' c hb').2 (Nat.lt_irrefl _)
    · rfl

/-- Blocks that only the guarded code has. -/
theorem more (h : w.Proper n n' k k') {j' : Nat} (hle : k' ≤ j') : w.Proper n n' k j' := by
  refine ⟨h.bound, h.total, h.forth, h.back, h.apart, ?_, h.blockForth, h.blockBack⟩
  intro b c hb
  obtain ⟨hlt, hlt'⟩ := h.blocks b c hb
  exact ⟨hlt, Nat.lt_of_lt_of_le hlt' hle⟩

end Proper

end Pairing

end SSA
