import Mathlib.Logic.Function.Basic
import CMinus.SSA.Cfg

namespace SSA

/-! A builder with an insertion point.  Blocks and registers are numbered in the
order in which they are made; `layout` lists the blocks of the current function. -/

structure Builder (I : Type) where
  code : Nat → List I := fun _ => []
  layout : List Nat := []
  cur : Nat := 0
  nextBlock : Nat := 0
  nextReg : Nat := 0

namespace Builder

variable {I : Type}

def append (s : Builder I) (i : I) : Builder I :=
  { s with code := Function.update s.code s.cur (s.code s.cur ++ [i]) }

def define (s : Builder I) (i : Nat → I) : Builder I :=
  { s.append (i s.nextReg) with nextReg := s.nextReg + 1 }

def newBlock (s : Builder I) : Builder I :=
  { s with nextBlock := s.nextBlock + 1 }

def attach (s : Builder I) (b : Nat) : Builder I :=
  { s with layout := s.layout ++ [b] }

def moveTo (s : Builder I) (b : Nat) : Builder I :=
  { s with cur := b }

@[simp] theorem append_cur (s : Builder I) (i : I) : (s.append i).cur = s.cur := rfl
@[simp] theorem append_layout (s : Builder I) (i : I) :
    (s.append i).layout = s.layout := rfl
@[simp] theorem append_nextBlock (s : Builder I) (i : I) :
    (s.append i).nextBlock = s.nextBlock := rfl
@[simp] theorem append_nextReg (s : Builder I) (i : I) :
    (s.append i).nextReg = s.nextReg := rfl

@[simp] theorem append_code_cur (s : Builder I) (i : I) :
    (s.append i).code s.cur = s.code s.cur ++ [i] := by
  simp [append]

theorem append_code_of_ne (s : Builder I) (i : I) {b : Nat} (h : b ≠ s.cur) :
    (s.append i).code b = s.code b := by
  simp [append, h]

/-- Blocks that are not made yet get no code from what is put into one that is. -/
theorem unborn_append {s : Builder I} (hcur : s.cur < s.nextBlock)
    (h : ∀ b, s.nextBlock ≤ b → s.code b = []) (i : I) {b : Nat} (hb : s.nextBlock ≤ b) :
    (s.append i).code b = [] :=
  (s.append_code_of_ne i (Nat.ne_of_gt (Nat.lt_of_lt_of_le hcur hb))).trans (h b hb)

theorem code_append_subset (s : Builder I) (i : I) (b : Nat) :
    s.code b ⊆ (s.append i).code b := by
  by_cases h : b = s.cur
  · rw [h, append_code_cur]
    exact List.subset_append_left _ _
  · rw [append_code_of_ne s i h]
    exact List.Subset.refl _

@[simp] theorem define_cur (s : Builder I) (i : Nat → I) : (s.define i).cur = s.cur := rfl
@[simp] theorem define_layout (s : Builder I) (i : Nat → I) :
    (s.define i).layout = s.layout := rfl
@[simp] theorem define_nextBlock (s : Builder I) (i : Nat → I) :
    (s.define i).nextBlock = s.nextBlock := rfl
@[simp] theorem define_nextReg (s : Builder I) (i : Nat → I) :
    (s.define i).nextReg = s.nextReg + 1 := rfl
@[simp] theorem define_code (s : Builder I) (i : Nat → I) :
    (s.define i).code = (s.append (i s.nextReg)).code := rfl

@[simp] theorem newBlock_code (s : Builder I) : s.newBlock.code = s.code := rfl
@[simp] theorem newBlock_cur (s : Builder I) : s.newBlock.cur = s.cur := rfl
@[simp] theorem newBlock_layout (s : Builder I) : s.newBlock.layout = s.layout := rfl
@[simp] theorem newBlock_nextBlock (s : Builder I) :
    s.newBlock.nextBlock = s.nextBlock + 1 := rfl
@[simp] theorem newBlock_nextReg (s : Builder I) : s.newBlock.nextReg = s.nextReg := rfl

@[simp] theorem attach_code (s : Builder I) (b : Nat) : (s.attach b).code = s.code := rfl
@[simp] theorem attach_cur (s : Builder I) (b : Nat) : (s.attach b).cur = s.cur := rfl
@[simp] theorem attach_layout (s : Builder I) (b : Nat) :
    (s.attach b).layout = s.layout ++ [b] := rfl
@[simp] theorem attach_nextBlock (s : Builder I) (b : Nat) :
    (s.attach b).nextBlock = s.nextBlock := rfl
@[simp] theorem attach_nextReg (s : Builder I) (b : Nat) :
    (s.attach b).nextReg = s.nextReg := rfl

@[simp] theorem moveTo_code (s : Builder I) (b : Nat) : (s.moveTo b).code = s.code := rfl
@[simp] theorem moveTo_cur (s : Builder I) (b : Nat) : (s.moveTo b).cur = b := rfl
@[simp] theorem moveTo_layout (s : Builder I) (b : Nat) :
    (s.moveTo b).layout = s.layout := rfl
@[simp] theorem moveTo_nextBlock (s : Builder I) (b : Nat) :
    (s.moveTo b).nextBlock = s.nextBlock := rfl
@[simp] theorem moveTo_nextReg (s : Builder I) (b : Nat) :
    (s.moveTo b).nextReg = s.nextReg := rfl

/-! What a piece of emission that starts when `base` blocks exist may touch: the block
it starts in, and blocks made later. -/

structure Grows (base : Nat) (s t : Builder I) : Prop where
  blocks : s.nextBlock ≤ t.nextBlock
  regs : s.nextReg ≤ t.nextReg
  code : ∀ b, s.code b <+: t.code b
  frame : ∀ b, b < base → b ≠ s.cur → t.code b = s.code b
  cur : t.cur = s.cur ∨ base ≤ t.cur

namespace Grows

variable {base : Nat} {s t u : Builder I}

@[refl] theorem refl (base : Nat) (s : Builder I) : Grows base s s :=
  ⟨le_rfl, le_rfl, fun _ => List.prefix_rfl, fun _ _ _ => rfl, .inl rfl⟩

theorem trans (hst : Grows base s t) (htu : Grows base t u) : Grows base s u := by
  refine ⟨hst.blocks.trans htu.blocks, hst.regs.trans htu.regs,
    fun b => (hst.code b).trans (htu.code b), ?_, ?_⟩
  · intro b hb hne
    rw [htu.frame b hb, hst.frame b hb hne]
    rcases hst.cur with h | h
    · rwa [h]
    · omega
  · rcases htu.cur with h | h
    · rw [h]
      exact hst.cur
    · exact .inr h

theorem mono {base' : Nat} (h : Grows base' s t) (hbase : base ≤ base') :
    Grows base s t :=
  ⟨h.blocks, h.regs, h.code, fun b hb => h.frame b (by omega),
    h.cur.imp_right fun hcur => by omega⟩

/-- Emission that follows a piece which started with fewer blocks. -/
theorem followed (hst : Grows s.nextBlock s t) (htu : Grows t.nextBlock t u) :
    Grows s.nextBlock s u :=
  hst.trans (htu.mono hst.blocks)

theorem append (base : Nat) (s : Builder I) (i : I) : Grows base s (s.append i) := by
  refine ⟨le_rfl, le_rfl, ?_, fun b _ hne => s.append_code_of_ne i hne, .inl rfl⟩
  intro b
  by_cases hb : b = s.cur
  · subst hb
    exact ⟨[i], (s.append_code_cur i).symm⟩
  · exact ⟨[], by rw [List.append_nil, s.append_code_of_ne i hb]⟩

theorem define (base : Nat) (s : Builder I) (i : Nat → I) : Grows base s (s.define i) :=
  have h := append base s (i s.nextReg)
  ⟨h.blocks, Nat.le_succ _, h.code, h.frame, h.cur⟩

theorem newBlock (base : Nat) (s : Builder I) : Grows base s s.newBlock :=
  ⟨Nat.le_succ _, le_rfl, fun _ => List.prefix_rfl, fun _ _ _ => rfl, .inl rfl⟩

theorem attach (base : Nat) (s : Builder I) (b : Nat) : Grows base s (s.attach b) :=
  ⟨le_rfl, le_rfl, fun _ => List.prefix_rfl, fun _ _ _ => rfl, .inl rfl⟩

theorem moveTo {b : Nat} (s : Builder I) (hb : base ≤ b) : Grows base s (s.moveTo b) :=
  ⟨le_rfl, le_rfl, fun _ => List.prefix_rfl, fun _ _ _ => rfl, .inr hb⟩

/-- A block that was there before, and not under the insertion point, is left alone. -/
theorem untouched (h : Grows s.nextBlock s t) {b : Nat} (hb : b < s.nextBlock)
    (hne : b ≠ s.cur) : t.code b = s.code b ∧ b ≠ t.cur := by
  refine ⟨h.frame b hb hne, ?_⟩
  rcases h.cur with hcur | hcur
  · rwa [hcur]
  · omega

end Grows

/-! The code `C` that a builder ends with, seen from an earlier state. -/

def Within (s : Builder I) (C : Nat → List I) : Prop := ∀ b, s.code b <+: C b

theorem Within.of_grows {s t : Builder I} {C : Nat → List I} {base : Nat}
    (h : t.Within C) (hgrows : Grows base s t) : s.Within C :=
  fun b => (hgrows.code b).trans (h b)

/-- The position at which the next instruction goes. -/
def position (s : Builder I) : Nat := (s.code s.cur).length

theorem Within.at {s : Builder I} {C : Nat → List I} (h : s.Within C) {b k : Nat} {i : I}
    (hi : (s.code b)[k]? = some i) : (C b)[k]? = some i := by
  obtain ⟨tail, htail⟩ := h b
  rw [← htail, List.getElem?_append_left (List.getElem?_eq_some_iff.mp hi).1]
  exact hi

@[simp] theorem position_append (s : Builder I) (i : I) :
    (s.append i).position = s.position + 1 := by
  simp [position]

@[simp] theorem position_define (s : Builder I) (i : Nat → I) :
    (s.define i).position = s.position + 1 := by
  simp [position]

@[simp] theorem position_newBlock (s : Builder I) : s.newBlock.position = s.position := rfl

@[simp] theorem position_attach (s : Builder I) (b : Nat) :
    (s.attach b).position = s.position := rfl

theorem position_moveTo {s : Builder I} {b : Nat} (h : s.code b = []) :
    (s.moveTo b).position = 0 := by
  simp [position, h]

theorem appended (s : Builder I) (i : I) :
    ((s.append i).code s.cur)[s.position]? = some i := by
  simp [position]

/-! The blocks made so far are the only ones with code, and registers are assigned
in order. -/

variable [ControlFlow I]

structure Valid (s : Builder I) : Prop where
  unborn : ∀ b, s.nextBlock ≤ b → s.code b = []
  numbered : ∀ b r, r ∈ definedIn (s.code b) → r < s.nextReg
  ssa : SingleAssignment s.code

namespace Valid

variable {s : Builder I}

omit [ControlFlow I] in
theorem code_append_eq (s : Builder I) (i : I) (b : Nat) :
    (s.append i).code b = if b = s.cur then s.code b ++ [i] else s.code b := by
  by_cases hb : b = s.cur
  · subst hb
    simp
  · rw [if_neg hb, s.append_code_of_ne i hb]

theorem append (h : s.Valid) (hcur : s.cur < s.nextBlock) {i : I}
    (hi : ControlFlow.defines i = none) :
    (s.append i).Valid := by
  have hdefined : ∀ b, definedIn ((s.append i).code b) = definedIn (s.code b) := by
    intro b
    rw [code_append_eq]
    split
    · simp [definedIn, hi]
    · rfl
  refine ⟨?_, ?_, ?_, ?_⟩
  · exact fun b hb => unborn_append hcur h.unborn i hb
  · intro b r hr
    rw [hdefined] at hr
    exact h.numbered b r hr
  · intro b
    rw [hdefined]
    exact h.ssa.once b
  · intro b b' r hr hr'
    rw [hdefined] at hr hr'
    exact h.ssa.apart b b' r hr hr'

theorem define (h : s.Valid) (hcur : s.cur < s.nextBlock) {i : Nat → I}
    (hi : ControlFlow.defines (i s.nextReg) = some s.nextReg) : (s.define i).Valid := by
  have hdefined : ∀ b r, r ∈ definedIn ((s.define i).code b) →
      r ∈ definedIn (s.code b) ∨ (r = s.nextReg ∧ b = s.cur) := by
    intro b r hr
    rw [define_code, code_append_eq] at hr
    split at hr
    · next hb =>
        rw [definedIn_append, List.mem_append] at hr
        refine hr.imp_right fun hlast => ⟨?_, hb⟩
        obtain ⟨j, hj, hdef⟩ := mem_definedIn.mp hlast
        rw [List.mem_singleton.mp hj, hi] at hdef
        exact (Option.some.inj hdef).symm
    · exact .inl hr
  refine ⟨?_, ?_, ?_, ?_⟩
  · exact fun b hb => unborn_append hcur h.unborn _ hb
  · intro b r hr
    rw [define_nextReg]
    rcases hdefined b r hr with hold | ⟨rfl, -⟩
    · exact Nat.lt_succ_of_lt (h.numbered b r hold)
    · exact Nat.lt_succ_self _
  · intro b
    rw [define_code, code_append_eq]
    split
    · rw [definedIn_append, List.nodup_append]
      refine ⟨h.ssa.once b, ?_, ?_⟩
      · simp [definedIn, hi]
      · intro r hr q hq hrq
        obtain ⟨j, hj, hdef⟩ := mem_definedIn.mp hq
        rw [List.mem_singleton.mp hj, hi] at hdef
        have hlt := h.numbered b r hr
        rw [hrq, ← Option.some.inj hdef] at hlt
        exact Nat.lt_irrefl _ hlt
    · exact h.ssa.once b
  · intro b b' r hr hr'
    rcases hdefined b r hr with hold | ⟨rfl, hb⟩
    · rcases hdefined b' r hr' with hold' | ⟨rfl, -⟩
      · exact h.ssa.apart b b' r hold hold'
      · exact absurd (h.numbered b _ hold) (Nat.lt_irrefl _)
    · rcases hdefined b' _ hr' with hold' | ⟨-, hb'⟩
      · exact absurd (h.numbered b' _ hold') (Nat.lt_irrefl _)
      · rw [hb, hb']

theorem newBlock (h : s.Valid) : s.newBlock.Valid :=
  ⟨fun b hb => h.unborn b (by simp at hb; omega), h.numbered, h.ssa⟩

theorem attach (h : s.Valid) (b : Nat) : (s.attach b).Valid :=
  ⟨h.unborn, h.numbered, h.ssa⟩

theorem moveTo (h : s.Valid) (b : Nat) : (s.moveTo b).Valid :=
  ⟨h.unborn, h.numbered, h.ssa⟩

end Valid

end Builder

end SSA
