import CMinus.SSA.Reach

namespace SSA

open ControlFlow

variable {I : Type} [ControlFlow I]

namespace Builder

variable {s t u : Builder I} {entry : Nat}

/-! `Live`: every block of the function is reachable, and there is code nowhere else. -/

structure Live (entry : Nat) (s : Builder I) : Prop where
  placed : ∀ b ∈ s.layout, s.Reaches entry b
  filled : ∀ b, entry ≤ b → s.code b ≠ [] → b ∈ s.layout
  current : s.cur ∈ s.layout

structure Alive (entry : Nat) (s : Builder I) : Prop extends Writing s where
  entered : entry < s.nextBlock
  live : s.Live entry

theorem Reaches.append {b : Nat} (h : s.Reaches entry b) (i : I) :
    (s.append i).Reaches entry b :=
  h.mono (Grows.append 0 s i).code

namespace Live

theorem reached (h : s.Live entry) : s.Reaches entry s.cur := h.placed _ h.current

theorem append (h : s.Live entry) (i : I) : (s.append i).Live entry := by
  constructor
  · intro b hb
    exact (h.placed b hb).append i
  · intro b hb hcode
    rw [Valid.code_append_eq] at hcode
    split at hcode
    · next hcur => exact hcur ▸ h.current
    · exact h.filled b hb hcode
  · exact h.current

theorem define (h : s.Live entry) (i : Nat → I) : (s.define i).Live entry :=
  have happend := h.append (i s.nextReg)
  ⟨happend.placed, happend.filled, happend.current⟩

theorem newBlock (h : s.Live entry) : s.newBlock.Live entry :=
  ⟨h.placed, h.filled, h.current⟩

theorem start (h : s.Live entry) {b : Nat} (hb : s.Reaches entry b) :
    ((s.attach b).moveTo b).Live entry := by
  constructor
  · intro c hc
    rcases List.mem_append.mp hc with hc | hc
    · exact h.placed c hc
    · rw [List.mem_singleton.mp hc]
      exact hb
  · intro c hc hcode
    exact List.mem_append_left _ (h.filled c hc hcode)
  · exact List.mem_append_right _ (List.mem_singleton_self b)

theorem closeWith (h : s.Live entry) (i : I) : (s.closeWith i).Live entry := by
  unfold Builder.closeWith
  split
  · exact h.append i
  · exact h

/-- The block after a branch to it. -/
theorem branch (h : s.Live entry) {i : I} {b : Nat} (hb : b ∈ successors i) :
    (s.append i).Reaches entry b := by
  have hcur : (s.append i).Reaches entry s.cur := h.reached.append i
  exact hcur.step ⟨i, by simp, hb⟩

end Live

theorem Grows.reaches {base b : Nat} (h : Grows base s t) (hb : s.Reaches entry b) :
    t.Reaches entry b :=
  hb.mono h.code

/-! `Steers`: emission led from `s` to `t`, and every block of `t` is reachable.  The
insertion point is left open if and only if `through`. -/

structure Steers (entry : Nat) (through : Bool) (s t : Builder I) : Prop where
  flow : Flow entry through s t
  live : t.Live entry

namespace Steers

variable {through other : Bool}

theorem refl (h : s.Alive entry) : Steers entry true s s := ⟨.refl h.toWriting, h.live⟩

theorem alive (h : Steers entry true s t) (hs : s.Alive entry) : t.Alive entry :=
  ⟨h.flow.writing, hs.entered.trans_le h.flow.grows.blocks, h.live⟩

theorem trans (h : Steers entry true s t) (h' : Steers entry through t u) :
    Steers entry through s u :=
  ⟨h.flow.trans h'.flow, h'.live⟩

theorem append (h : s.Alive entry) {i : I} (hterm : isTerminator i = false)
    (hi : successors i = []) : Steers entry true s (s.append i) :=
  ⟨.append h.toWriting hterm hi, h.live.append i⟩

theorem define (h : s.Alive entry) {i : Nat → I} (hterm : isTerminator (i s.nextReg) = false)
    (hi : successors (i s.nextReg) = []) : Steers entry true s (s.define i) :=
  ⟨.define h.toWriting hterm hi, h.live.define i⟩

theorem close (h : s.Alive entry) {i : I} (hterm : isTerminator i = true)
    (hi : successors i = []) : Steers entry false s (s.append i) :=
  ⟨.close h.toWriting hterm hi, h.live.append i⟩

theorem exit (h : Steers entry through s t) :
    (IsOpen (t.code t.cur) ∧ through = true) ∨ (IsClosed (t.code t.cur) ∧ through = false) := by
  rcases h.flow.exit with ⟨hopen, hreach⟩ | hclosed
  · exact .inl ⟨hopen, (hreach.mp h.live.reached).2⟩
  · exact .inr hclosed

theorem blockOpen (h : Steers entry through s t) : t.blockOpen = through := by
  rcases h.exit with ⟨hopen, rfl⟩ | ⟨hclosed, rfl⟩
  · exact blockOpen_of_isOpen hopen
  · exact blockOpen_of_isClosed hclosed

theorem closeWith (h : Steers entry false s t) (i : I) : t.closeWith i = t := by
  unfold Builder.closeWith
  rw [h.blockOpen, if_neg Bool.false_ne_true]

/-- What follows an open block. -/
theorem andThen (h : Steers entry through s t)
    (hopen : through = true → Steers entry other t u) (hclosed : through = false → u = t) :
    Steers entry (through && other) s u := by
  cases through with
  | true => exact h.trans (hopen rfl)
  | false =>
      rw [hclosed rfl]
      exact h

end Steers

/-! A block that both arms lead away from is deleted. -/

def HasPredecessor (s : Builder I) (block : Nat) : Prop := ∃ b, Edge s.code b block

namespace Joined

variable {block : Nat} {through : Bool}

theorem steers (h : Joined entry block through s t) (hthrough : through = true)
    (hs : s.Live entry) (ht : t.Live entry) :
    Steers entry through s ((t.attach block).moveTo block) :=
  ⟨h.start, ht.start (h.reach.mpr ⟨hs.reached, hthrough⟩)⟩

theorem delete (h : Joined entry block false s t) (hclosed : IsClosed (t.code t.cur))
    (hborn : t.cur < t.nextBlock) (ht : t.Live entry) : Steers entry false s t :=
  ⟨⟨h.grows, h.tidy, hborn, h.old, .inr ⟨hclosed, rfl⟩⟩, ht⟩

theorem hasPredecessor_iff (h : Joined entry block through s t) (hs : s.Alive entry)
    (ht : t.Live entry) : t.HasPredecessor block ↔ through = true := by
  have hreach : t.Reaches entry block ↔ through = true := by
    rw [h.reach]
    simp [hs.live.reached]
  rw [← hreach]
  constructor
  · intro hpred
    obtain ⟨b, i, hi, htarget⟩ := hpred
    have hb : t.Reaches entry b := by
      by_cases hentry : entry ≤ b
      · exact ht.placed b (ht.filled b hentry (List.ne_nil_of_mem hi))
      · -- the blocks before the function know nothing of it
        have hlt : b < s.nextBlock := (Nat.lt_of_not_le hentry).trans hs.entered
        by_cases hcur : b = s.cur
        · rw [hcur]
          exact h.grows.reaches hs.live.reached
        · rw [h.grows.frame b hlt hcur] at hi
          have hold := hs.targets b i hi block htarget
          exact absurd h.later (Nat.not_le.mpr hold)
    exact hb.step ⟨i, hi, htarget⟩
  · intro hblock
    obtain ⟨visited, walk⟩ := hblock
    cases walk with
    | nil =>
        have hlater := h.later
        have hentered := hs.entered
        omega
    | @snoc visited source _ walk edge => exact ⟨source, edge⟩

end Joined

end Builder

end SSA
