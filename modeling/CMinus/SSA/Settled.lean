import Mathlib.Data.List.Perm.Basic
import CMinus.SSA.Live

namespace SSA

open ControlFlow

variable {I : Type} [ControlFlow I]

namespace Builder

variable {s : Builder I} {entry b : Nat} {pending gone : List Nat}

/-! Where the blocks of a function are that have been made so far: in its layout, still to be
started, or deleted.  A branch leads to the first two, and every block of the layout but the
current one is finished. -/

structure Settled (entry : Nat) (pending gone : List Nat) (s : Builder I) : Prop where
  entered : entry ≤ s.nextBlock
  current : s.cur ∈ s.layout
  housed : (s.layout ++ (pending ++ gone)).Perm
    (List.range' entry (s.nextBlock - entry))
  empty : ∀ b, entry ≤ b → b ∉ s.layout → s.code b = []
  branches : ∀ b, entry ≤ b → ∀ i ∈ s.code b, ∀ c ∈ successors i, c ∈ s.layout ∨ c ∈ pending
  closed : ∀ b ∈ s.layout, b ≠ s.cur → IsClosed (s.code b)

namespace Settled

theorem distinct (h : Settled entry pending gone s) :
    (s.layout ++ (pending ++ gone)).Nodup :=
  h.housed.nodup_iff.mpr List.nodup_range'

theorem made (h : Settled entry pending gone s) {b : Nat} :
    b ∈ s.layout ++ (pending ++ gone) ↔ entry ≤ b ∧ b < s.nextBlock := by
  have hentered := h.entered
  rw [h.housed.mem_iff, List.mem_range'_1]
  omega

theorem placed (h : Settled entry pending gone s) {b : Nat} (hb : b ∈ s.layout) :
    entry ≤ b ∧ b < s.nextBlock :=
  h.made.mp (List.mem_append_left _ hb)

theorem perm (h : Settled entry pending gone s) {pending' : List Nat}
    (hperm : pending.Perm pending') : Settled entry pending' gone s := by
  constructor
  · exact h.entered
  · exact h.current
  · have hsame : (s.layout ++ (pending' ++ gone)).Perm (s.layout ++ (pending ++ gone)) :=
      (hperm.symm.append_right gone).append_left s.layout
    exact hsame.trans h.housed
  · exact h.empty
  · intro b hb i hi c hc
    exact (h.branches b hb i hi c hc).imp_right hperm.mem_iff.mp
  · exact h.closed

theorem append (h : Settled entry pending gone s) {i : I}
    (hi : ∀ c ∈ successors i, c ∈ s.layout ∨ c ∈ pending) :
    Settled entry pending gone (s.append i) := by
  constructor
  · exact h.entered
  · exact h.current
  · exact h.housed
  · intro b hb hout
    have hne : b ≠ s.cur := by
      rintro rfl
      exact hout h.current
    rw [s.append_code_of_ne i hne]
    exact h.empty b hb hout
  · intro b hb j hj
    rw [Valid.code_append_eq] at hj
    split at hj
    · rcases List.mem_append.mp hj with hj | hj
      · exact h.branches b hb j hj
      · rw [List.mem_singleton.mp hj]
        exact hi
    · exact h.branches b hb j hj
  · intro b hb hne
    rw [s.append_code_of_ne i hne]
    exact h.closed b hb hne

theorem define (h : Settled entry pending gone s) {i : Nat → I}
    (hi : successors (i s.nextReg) = []) : Settled entry pending gone (s.define i) := by
  have happend := h.append (i := i s.nextReg) (by simp [hi])
  exact ⟨happend.entered, happend.current, happend.housed, happend.empty, happend.branches,
    happend.closed⟩

theorem newBlock (h : Settled entry pending gone s) :
    Settled entry (s.nextBlock :: pending) gone s.newBlock := by
  have hentered := h.entered
  constructor
  · exact Nat.le_succ_of_le hentered
  · exact h.current
  · have hrange : List.range' entry (s.newBlock.nextBlock - entry) =
        List.range' entry (s.nextBlock - entry) ++ [s.nextBlock] := by
      rw [newBlock_nextBlock, Nat.succ_sub hentered, List.range'_concat]
      congr 2
      omega
    rw [hrange]
    have hmiddle : (s.layout ++ s.nextBlock :: (pending ++ gone)).Perm
        (s.nextBlock :: (s.layout ++ (pending ++ gone))) := List.perm_middle
    have hlast : (List.range' entry (s.nextBlock - entry) ++ [s.nextBlock]).Perm
        (s.nextBlock :: List.range' entry (s.nextBlock - entry)) :=
      List.perm_append_singleton _ _
    exact hmiddle.trans ((h.housed.cons _).trans hlast.symm)
  · exact h.empty
  · intro b hb i hi c hc
    exact (h.branches b hb i hi c hc).imp_right (List.mem_cons_of_mem _)
  · exact h.closed

/-- A block that is still to be started, once the current one is finished. -/
theorem start (h : Settled entry (b :: pending) gone s) (hclosed : IsClosed (s.code s.cur)) :
    Settled entry pending gone ((s.attach b).moveTo b) := by
  constructor
  · exact h.entered
  · exact List.mem_append_right _ (List.mem_singleton_self b)
  · have hhoused := h.housed
    rw [List.cons_append, ← List.singleton_append, ← List.append_assoc] at hhoused
    exact hhoused
  · intro c hc hout
    exact h.empty c hc fun hmem => hout (List.mem_append_left _ hmem)
  · intro c hc i hi target htarget
    rcases h.branches c hc i hi target htarget with hmem | hmem
    · exact .inl (List.mem_append_left _ hmem)
    · rcases List.mem_cons.mp hmem with rfl | hmem
      · exact .inl (List.mem_append_right _ (List.mem_singleton_self _))
      · exact .inr hmem
  · intro c hc hne
    rcases List.mem_append.mp hc with hc | hc
    · by_cases hcur : c = s.cur
      · rw [hcur]
        exact hclosed
      · exact h.closed c hc hcur
    · exact absurd (List.mem_singleton.mp hc) hne

theorem unstarted (h : Settled entry (b :: pending) gone s) : s.code b = [] := by
  have hmem : b ∈ s.layout ++ (b :: pending ++ gone) := by simp
  have hout : b ∉ s.layout := by
    intro hb
    have hdistinct := h.distinct
    rw [List.nodup_append] at hdistinct
    exact hdistinct.2.2 b hb b (by simp) rfl
  exact h.empty b (h.made.mp hmem).1 hout

/-- A block that no branch leads to. -/
theorem delete (h : Settled entry (b :: pending) gone s)
    (hdead : ∀ c, c < s.nextBlock → ∀ i ∈ s.code c, b ∉ successors i) :
    Settled entry pending (gone ++ [b]) s := by
  constructor
  · exact h.entered
  · exact h.current
  · have hsame : (pending ++ (gone ++ [b])).Perm (b :: (pending ++ gone)) := by
      rw [← List.append_assoc]
      exact List.perm_append_singleton _ _
    exact (hsame.append_left s.layout).trans h.housed
  · exact h.empty
  · intro c hc i hi target htarget
    rcases h.branches c hc i hi target htarget with hmem | hmem
    · exact .inl hmem
    · rcases List.mem_cons.mp hmem with rfl | hmem
      · have hplaced : c ∈ s.layout := by
          by_contra hout
          rw [h.empty c hc hout] at hi
          cases hi
        exact absurd htarget (hdead c (h.placed hplaced).2 i hi)
      · exact .inr hmem
  · exact h.closed

end Settled

/-! A function that is complete: every block that was made for it is in the layout or
deleted. -/

structure Complete (entry : Nat) (gone : List Nat) (s : Builder I) : Prop where
  settled : Settled entry [] gone s
  last : IsClosed (s.code s.cur)

namespace Complete

theorem closed (h : Complete entry gone s) (hb : b ∈ s.layout) : IsClosed (s.code b) := by
  by_cases hcur : b = s.cur
  · rw [hcur]
    exact h.last
  · exact h.settled.closed b hb hcur

theorem branches (h : Complete entry gone s) (hb : b ∈ s.layout) {i : I} (hi : i ∈ s.code b)
    {c : Nat} (hc : c ∈ successors i) : c ∈ s.layout := by
  rcases h.settled.branches b (h.settled.placed hb).1 i hi c hc with hmem | hmem
  · exact hmem
  · cases hmem

theorem housed (h : Complete entry gone s) :
    (s.layout ++ gone).Perm (List.range' entry (s.nextBlock - entry)) :=
  h.settled.housed

end Complete

end Builder

end SSA
