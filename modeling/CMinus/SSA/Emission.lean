import Mathlib.Data.Set.Insert
import CMinus.SSA.Builder

namespace SSA

open ControlFlow

/-! Facts that speak of registers: `grounded code n f` says that what `f` needs is in the
code, and that `f` mentions no register from `n` on. -/

class Grounded (I F : Type) where
  grounded : (Nat → List I) → Nat → F → Prop
  mono : ∀ {code code' : Nat → List I} {n n' : Nat} {f : F},
    (∀ b, code b <+: code' b) → n ≤ n' → grounded code n f → grounded code' n' f

namespace Builder

variable {I F : Type} [ControlFlow I] [Grounded I F]

/-- The code of the blocks from `entry` on. -/
def codeFrom (s : Builder I) (entry b : Nat) : List I := if entry ≤ b then s.code b else []

def Grounds (entry : Nat) (s : Builder I) (f : F) : Prop :=
  Grounded.grounded (s.codeFrom entry) s.nextReg f

omit [ControlFlow I] [Grounded I F] in
theorem codeFrom_grows {s t : Builder I} (h : ∀ b, s.code b <+: t.code b) (entry b : Nat) :
    s.codeFrom entry b <+: t.codeFrom entry b := by
  unfold codeFrom
  split
  · exact h b
  · exact List.prefix_rfl

omit [ControlFlow I] in
theorem Grounds.mono {s t : Builder I} {f : F} {base entry : Nat} (h : s.Grounds entry f)
    (hgrows : Grows base s t) : t.Grounds entry f :=
  Grounded.mono (codeFrom_grows hgrows.code entry) hgrows.regs h

/-! The blocks of the function under construction, which are those from `entry` on:
their code passes the check against `K`, and each is complete but the current one
and those in `P`. -/

structure Sound (δ : Discipline I F) (entry : Nat) (K : Nat → Set F) (P : Set Nat)
    (s : Builder I) : Prop where
  valid : s.Valid
  checks : ∀ b, entry ≤ b → b < s.nextBlock → δ.Checks K (K b) (s.code b)
  settled : ∀ b, entry ≤ b → b < s.nextBlock → b = s.cur ∨ b ∈ P ∨ IsClosed (s.code b)
  grounded : ∀ b, entry ≤ b → b < s.nextBlock → ∀ f ∈ K b, s.Grounds entry f
  targets : ∀ b, entry ≤ b → ∀ i ∈ s.code b, ∀ c ∈ successors i,
    entry < c ∧ c < s.nextBlock

/-! The insertion point is open, and the facts there are `A`. -/

structure At (δ : Discipline I F) (entry : Nat) (K : Nat → Set F) (s : Builder I)
    (A : Set F) : Prop where
  inside : entry ≤ s.cur
  born : s.cur < s.nextBlock
  isOpen : IsOpen (s.code s.cur)
  facts : δ.after (K s.cur) (s.code s.cur) = A
  grounded : ∀ f ∈ A, s.Grounds entry f

variable {δ : Discipline I F} {entry : Nat} {K L : Nat → Set F} {P Q : Set Nat}
  {s t : Builder I} {A B : Set F}

theorem Sound.mono (h : Sound δ entry K P s) (hPQ : P ⊆ Q) : Sound δ entry K Q s :=
  ⟨h.valid, h.checks,
    fun b hle hb => (h.settled b hle hb).imp_right (.imp_left fun hP => hPQ hP),
    h.grounded, h.targets⟩

private theorem Sound.aim (h : Sound δ entry K P s) {i : I}
    (hi : ∀ c ∈ successors i, entry < c ∧ c < s.nextBlock) :
    ∀ b, entry ≤ b → ∀ j ∈ (s.append i).code b, ∀ c ∈ successors j,
      entry < c ∧ c < s.nextBlock := by
  intro b hle j hj c hc
  rw [Valid.code_append_eq] at hj
  split at hj
  · rcases List.mem_append.mp hj with hj | hj
    · exact h.targets b hle j hj c hc
    · rw [List.mem_singleton.mp hj] at hc
      exact hi c hc
  · exact h.targets b hle j hj c hc

private theorem Sound.grow (h : Sound δ entry K P s) (hat : At δ entry K s A) {i : I}
    (hneeds : δ.needs i A) (halong : ∀ b ∈ successors i, K b ⊆ δ.along i b A) :
    ∀ b, entry ≤ b → b < s.nextBlock → δ.Checks K (K b) ((s.append i).code b) := by
  intro b hle hb
  rw [Valid.code_append_eq]
  split
  · next hcur =>
      subst hcur
      rw [Discipline.checks_append, hat.facts]
      exact ⟨h.checks _ hle hb, hneeds, halong, trivial⟩
  · exact h.checks b hle hb

private theorem Sound.keep (h : Sound δ entry K P s) (i : I) :
    ∀ b, entry ≤ b → b < s.nextBlock →
      b = s.cur ∨ b ∈ P ∨ IsClosed ((s.append i).code b) := by
  intro b hle hb
  by_cases hcur : b = s.cur
  · exact .inl hcur
  · rw [s.append_code_of_ne i hcur]
    exact h.settled b hle hb

/-- An instruction that neither branches nor defines a register. -/
theorem Sound.append (h : Sound δ entry K P s) (hat : At δ entry K s A) {i : I}
    (hterm : isTerminator i = false) (hsucc : successors i = []) (hdef : defines i = none)
    (hneeds : δ.needs i A) (hground : ∀ f ∈ δ.gives i A, (s.append i).Grounds entry f) :
    Sound δ entry K P (s.append i) ∧ At δ entry K (s.append i) (δ.gives i A) := by
  have hnone : ∀ c, c ∉ successors i := by
    intro c hc
    rw [hsucc] at hc
    cases hc
  refine ⟨⟨h.valid.append hat.born hdef,
    h.grow hat hneeds fun c hc => absurd hc (hnone c), h.keep i, ?_,
    h.aim fun c hc => absurd hc (hnone c)⟩, hat.inside, hat.born, ?_, ?_, hground⟩
  · intro b hle hb f hf
    exact (h.grounded b hle hb f hf).mono (Grows.append 0 s i)
  · rw [append_cur, append_code_cur]
    exact hat.isOpen.snoc hterm
  · rw [append_cur, append_code_cur, Discipline.after_append, hat.facts]
    rfl

/-- An instruction that defines the next register. -/
theorem Sound.define (h : Sound δ entry K P s) (hat : At δ entry K s A) {i : Nat → I}
    (hterm : isTerminator (i s.nextReg) = false) (hsucc : successors (i s.nextReg) = [])
    (hdef : defines (i s.nextReg) = some s.nextReg) (hneeds : δ.needs (i s.nextReg) A)
    (hground : ∀ f ∈ δ.gives (i s.nextReg) A, (s.define i).Grounds entry f) :
    Sound δ entry K P (s.define i) ∧
      At δ entry K (s.define i) (δ.gives (i s.nextReg) A) := by
  have hnone : ∀ c, c ∉ successors (i s.nextReg) := by
    intro c hc
    rw [hsucc] at hc
    cases hc
  refine ⟨⟨h.valid.define hat.born hdef,
    h.grow hat hneeds fun c hc => absurd hc (hnone c), h.keep _, ?_,
    h.aim fun c hc => absurd hc (hnone c)⟩, hat.inside, hat.born, ?_, ?_, hground⟩
  · intro b hle hb f hf
    exact (h.grounded b hle hb f hf).mono (Grows.define 0 s i)
  · rw [define_cur, define_code, append_code_cur]
    exact hat.isOpen.snoc hterm
  · rw [define_cur, define_code, append_code_cur, Discipline.after_append, hat.facts]
    rfl

/-- A terminator closes the current block. -/
theorem Sound.close (h : Sound δ entry K P s) (hat : At δ entry K s A) {i : I}
    (hterm : isTerminator i = true) (hdef : defines i = none) (hneeds : δ.needs i A)
    (hborn : ∀ b ∈ successors i, entry < b ∧ b < s.nextBlock)
    (halong : ∀ b ∈ successors i, K b ⊆ δ.along i b A) :
    Sound δ entry K P (s.append i) ∧ IsClosed ((s.append i).code s.cur) := by
  refine ⟨⟨h.valid.append hat.born hdef, h.grow hat hneeds halong, h.keep i, ?_,
    h.aim hborn⟩, ?_⟩
  · intro b hle hb f hf
    exact (h.grounded b hle hb f hf).mono (Grows.append 0 s i)
  · rw [append_code_cur]
    exact hat.isOpen.close hterm

/-- A new block, for which the facts `B` are promised. -/
theorem Sound.newBlock (h : Sound δ entry K P s) (hB : ∀ f ∈ B, s.Grounds entry f) :
    Sound δ entry (Function.update K s.nextBlock B) (insert s.nextBlock P) s.newBlock := by
  refine ⟨h.valid.newBlock, ?_, ?_, ?_, fun b hle i hi c hc => ?_⟩
  · intro b hle hb
    by_cases hnew : b = s.nextBlock
    · subst hnew
      rw [newBlock_code, h.valid.unborn _ le_rfl]
      trivial
    · rw [Function.update_of_ne hnew]
      refine (h.checks b hle (by simp at hb; omega)).congr fun i hi c hc => ?_
      have hlt := (h.targets b hle i hi c hc).2
      exact Function.update_of_ne (by omega) _ _
  · intro b hle hb
    by_cases hnew : b = s.nextBlock
    · exact .inr (.inl (.inl hnew))
    · exact (h.settled b hle (by simp at hb; omega)).imp_right
        (.imp_left fun hP => .inr hP)
  · intro b hle hb f hf
    by_cases hnew : b = s.nextBlock
    · subst hnew
      rw [Function.update_self] at hf
      exact hB f hf
    · rw [Function.update_of_ne hnew] at hf
      exact h.grounded b hle (by simp at hb; omega) f hf
  · have hc := h.targets b hle i hi c hc
    exact ⟨hc.1, Nat.lt_succ_of_lt hc.2⟩

theorem At.newBlock (hat : At δ entry K s A) :
    At δ entry (Function.update K s.nextBlock B) s.newBlock A := by
  refine ⟨hat.inside, Nat.lt_succ_of_lt hat.born, hat.isOpen, ?_, hat.grounded⟩
  have hne := Nat.ne_of_lt hat.born
  rw [newBlock_cur, newBlock_code, Function.update_of_ne hne]
  exact hat.facts

theorem Sound.moveTo (h : Sound δ entry K P s) {b : Nat} (hle : entry ≤ b)
    (hb : b < s.nextBlock) (hcode : s.code b = [])
    (hclosed : entry ≤ s.cur → s.cur < s.nextBlock → IsClosed (s.code s.cur))
    (hP : ∀ c ∈ P, c = b ∨ c ∈ Q) :
    Sound δ entry K Q (s.moveTo b) ∧ At δ entry K (s.moveTo b) (K b) := by
  refine ⟨⟨h.valid.moveTo b, h.checks, ?_, h.grounded, h.targets⟩, hle, hb, ?_, ?_,
    h.grounded b hle hb⟩
  · intro c hlc hc
    rcases h.settled c hlc hc with rfl | hmem | hdone
    · exact .inr (.inr (hclosed hlc hc))
    · exact (hP c hmem).imp_right .inl
    · exact .inr (.inr hdone)
  · rw [moveTo_cur, moveTo_code, hcode]
    exact IsOpen.nil
  · rw [moveTo_cur, moveTo_code, hcode]
    rfl

theorem Sound.attach (h : Sound δ entry K P s) (b : Nat) :
    Sound δ entry K P (s.attach b) :=
  ⟨h.valid.attach b, h.checks, h.settled, h.grounded, h.targets⟩

theorem At.attach (hat : At δ entry K s A) (b : Nat) : At δ entry K (s.attach b) A :=
  ⟨hat.inside, hat.born, hat.isOpen, hat.facts, hat.grounded⟩

end Builder

end SSA
