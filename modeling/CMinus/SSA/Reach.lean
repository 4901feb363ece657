import CMinus.SSA.Builder
import CMinus.SSA.Machine

namespace SSA

open ControlFlow

variable {I : Type} [ControlFlow I]

/-! Reachability, one edge at a time. -/

namespace Reachable

variable {C C' : Nat → List I} {entry b c : Nat}

theorem refl (C : Nat → List I) (entry : Nat) : Reachable C entry entry := ⟨[], .nil⟩

theorem step (h : Reachable C entry b) (hedge : Edge C b c) : Reachable C entry c := by
  obtain ⟨visited, walk⟩ := h
  exact ⟨visited ++ [b], walk.snoc hedge⟩

theorem induction {P : Nat → Prop} (h : Reachable C entry b) (hentry : P entry)
    (hstep : ∀ b c, Reachable C entry b → P b → Edge C b c → P c) : P b := by
  obtain ⟨visited, walk⟩ := h
  induction walk with
  | nil => exact hentry
  | @snoc visited source target walk edge ih =>
      exact hstep source target ⟨visited, walk⟩ ih edge

theorem mono (h : Reachable C entry b) (hcode : ∀ b, C b <+: C' b) :
    Reachable C' entry b := by
  apply h.induction (Reachable.refl C' entry)
  intro source target _ hsource hedge
  obtain ⟨i, hi, htarget⟩ := hedge
  exact hsource.step ⟨i, (hcode source).subset hi, htarget⟩

end Reachable

namespace Builder

variable {s t u : Builder I} {entry : Nat}

def Reaches (s : Builder I) (entry b : Nat) : Prop := Reachable s.code entry b

/-! What an instruction adds to the reachable blocks, if each of its targets is empty so
far, or reachable whenever the current block is. -/

theorem reaches_append {i : I}
    (htargets : ∀ c ∈ successors i,
      s.code c = [] ∨ (s.Reaches entry s.cur → s.Reaches entry c)) (b : Nat) :
    (s.append i).Reaches entry b ↔
      s.Reaches entry b ∨ (s.Reaches entry s.cur ∧ b ∈ successors i) := by
  have hgrows := (Grows.append 0 s i).code
  constructor
  · intro h
    apply h.induction (Or.inl (Reachable.refl s.code entry))
    intro source target _ hsource hedge
    obtain ⟨j, hj, htarget⟩ := hedge
    have hstep : s.Reaches entry source → s.Reaches entry target ∨
        (s.Reaches entry s.cur ∧ target ∈ successors i) := by
      intro hreach
      rw [Valid.code_append_eq] at hj
      split at hj
      · next hcur =>
          rcases List.mem_append.mp hj with hj | hj
          · exact .inl (hreach.step ⟨j, hj, htarget⟩)
          · rw [List.mem_singleton.mp hj] at htarget
            exact .inr ⟨hcur ▸ hreach, htarget⟩
      · exact .inl (hreach.step ⟨j, hj, htarget⟩)
    rcases hsource with hsource | ⟨hcur, hmem⟩
    · exact hstep hsource
    · rcases htargets source hmem with hempty | hreach
      · -- an empty target has no branches of its own, unless it is the current block
        rw [Valid.code_append_eq] at hj
        split at hj
        · rw [hempty, List.nil_append] at hj
          rw [List.mem_singleton.mp hj] at htarget
          exact .inr ⟨hcur, htarget⟩
        · rw [hempty] at hj
          cases hj
      · exact hstep (hreach hcur)
  · intro h
    rcases h with h | ⟨hcur, hmem⟩
    · exact h.mono hgrows
    · exact (hcur.mono hgrows).step ⟨i, by simp, hmem⟩

theorem reaches_append_straight {i : I} (hi : successors i = []) (b : Nat) :
    (s.append i).Reaches entry b ↔ s.Reaches entry b := by
  rw [reaches_append (by simp [hi])]
  simp [hi]

@[simp] theorem reaches_define (i : Nat → I) (b : Nat) :
    (s.define i).Reaches entry b ↔ (s.append (i s.nextReg)).Reaches entry b := Iff.rfl

@[simp] theorem reaches_newBlock (b : Nat) :
    s.newBlock.Reaches entry b ↔ s.Reaches entry b := Iff.rfl

@[simp] theorem reaches_attach (c b : Nat) :
    (s.attach c).Reaches entry b ↔ s.Reaches entry b := Iff.rfl

@[simp] theorem reaches_moveTo (c b : Nat) :
    (s.moveTo c).Reaches entry b ↔ s.Reaches entry b := Iff.rfl

/-! Blocks that are not made yet have no code, and no branch leads to them. -/

structure Tidy (s : Builder I) : Prop where
  unborn : ∀ b, s.nextBlock ≤ b → s.code b = []
  targets : ∀ b, ∀ i ∈ s.code b, ∀ c ∈ successors i, c < s.nextBlock

structure Writing (s : Builder I) : Prop extends Tidy s where
  born : s.cur < s.nextBlock
  isOpen : IsOpen (s.code s.cur)

namespace Tidy

theorem initial : (({} : Builder I)).Tidy :=
  ⟨fun _ _ => rfl, fun _ _ hi => by cases hi⟩

theorem unreached (h : s.Tidy) (hentry : entry < s.nextBlock) {b : Nat}
    (hb : s.nextBlock ≤ b) : ¬ s.Reaches entry b := by
  intro hreach
  have hlt : b < s.nextBlock := by
    apply hreach.induction hentry
    intro source target _ _ hedge
    obtain ⟨i, hi, htarget⟩ := hedge
    exact h.targets source i hi target htarget
  omega

theorem append (h : s.Tidy) (hborn : s.cur < s.nextBlock) {i : I}
    (hi : ∀ c ∈ successors i, c < s.nextBlock) : (s.append i).Tidy := by
  constructor
  · intro b hb
    rw [s.append_code_of_ne i (by simp at hb; omega)]
    exact h.unborn b hb
  · intro b j hj
    rw [Valid.code_append_eq] at hj
    split at hj
    · rcases List.mem_append.mp hj with hj | hj
      · exact h.targets b j hj
      · rw [List.mem_singleton.mp hj]
        exact hi
    · exact h.targets b j hj

theorem define (h : s.Tidy) (hborn : s.cur < s.nextBlock) {i : Nat → I}
    (hi : successors (i s.nextReg) = []) : (s.define i).Tidy :=
  have happend := h.append hborn (i := i s.nextReg) (by simp [hi])
  ⟨happend.unborn, happend.targets⟩

theorem newBlock (h : s.Tidy) : s.newBlock.Tidy :=
  ⟨fun b hb => h.unborn b (Nat.le_of_succ_le hb),
    fun b i hi c hc => Nat.lt_succ_of_lt (h.targets b i hi c hc)⟩

theorem attach (h : s.Tidy) (b : Nat) : (s.attach b).Tidy := ⟨h.unborn, h.targets⟩

theorem moveTo (h : s.Tidy) (b : Nat) : (s.moveTo b).Tidy := ⟨h.unborn, h.targets⟩

/-- Blocks made later change nothing for those that are there. -/
theorem reaches_later (h : s.Tidy) (hentry : entry < s.nextBlock)
    (hcode : ∀ b, b < s.nextBlock → t.code b = s.code b) (b : Nat) :
    t.Reaches entry b ↔ s.Reaches entry b := by
  constructor
  · intro hreach
    have hboth : s.Reaches entry b ∧ b < s.nextBlock := by
      apply hreach.induction ⟨Reachable.refl _ _, hentry⟩
      intro source target _ hsource hedge
      obtain ⟨hreach, hlt⟩ := hsource
      obtain ⟨i, hi, htarget⟩ := hedge
      rw [hcode source hlt] at hi
      exact ⟨hreach.step ⟨i, hi, htarget⟩, h.targets source i hi target htarget⟩
    exact hboth.1
  · intro hreach
    apply hreach.induction (Reachable.refl _ _)
    intro source target hsource ih hedge
    obtain ⟨i, hi, htarget⟩ := hedge
    have hlt : source < s.nextBlock := by
      by_contra hge
      exact h.unreached hentry (Nat.le_of_not_lt hge) hsource
    exact ih.step ⟨i, (hcode source hlt).symm ▸ hi, htarget⟩

/-- Going to an empty block. -/
theorem writing (h : s.Tidy) {b : Nat} (hborn : b < s.nextBlock) (hcode : s.code b = []) :
    (s.moveTo b).Writing := by
  have hopen : IsOpen ((s.moveTo b).code b) := by
    rw [moveTo_code, hcode]
    exact IsOpen.nil
  exact ⟨h.moveTo b, hborn, hopen⟩

end Tidy

/-! `Flow`: emission led from the open builder `s` to `t`.  The blocks there before are
reachable as before.  If `through`, the insertion point is reachable when it was;
otherwise it is unreachable, or its block is closed. -/

structure Flow (entry : Nat) (through : Bool) (s t : Builder I) : Prop where
  grows : Grows s.nextBlock s t
  tidy : t.Tidy
  born : t.cur < t.nextBlock
  old : ∀ b, b < s.nextBlock → (t.Reaches entry b ↔ s.Reaches entry b)
  exit : (IsOpen (t.code t.cur) ∧
      (t.Reaches entry t.cur ↔ s.Reaches entry s.cur ∧ through = true)) ∨
    (IsClosed (t.code t.cur) ∧ through = false)

namespace Flow

variable {through : Bool}

theorem isOpen (h : Flow entry true s t) :
    IsOpen (t.code t.cur) ∧ (t.Reaches entry t.cur ↔ s.Reaches entry s.cur) := by
  rcases h.exit with ⟨hopen, hreach⟩ | ⟨-, hfalse⟩
  · exact ⟨hopen, by simpa using hreach⟩
  · cases hfalse

theorem writing (h : Flow entry true s t) : t.Writing := ⟨h.tidy, h.born, h.isOpen.1⟩

theorem refl (h : s.Writing) : Flow entry true s s :=
  ⟨.refl _ s, h.toTidy, h.born, fun _ _ => Iff.rfl, .inl ⟨h.isOpen, by simp⟩⟩

theorem trans (h : Flow entry true s t) (h' : Flow entry through t u) :
    Flow entry through s u := by
  have hold : ∀ b, b < s.nextBlock → (u.Reaches entry b ↔ s.Reaches entry b) := by
    intro b hb
    rw [h'.old b (hb.trans_le h.grows.blocks), h.old b hb]
  have hexit := h'.exit
  rw [h.isOpen.2] at hexit
  exact ⟨h.grows.followed h'.grows, h'.tidy, h'.born, hold, hexit⟩

theorem of_attach {c : Nat} (h : Flow entry through (s.attach c) t) : Flow entry through s t :=
  ⟨(Grows.attach _ s c).trans h.grows, h.tidy, h.born, h.old, h.exit⟩

/-- An instruction that does not branch. -/
theorem append (h : s.Writing) {i : I} (hterm : isTerminator i = false)
    (hi : successors i = []) : Flow entry true s (s.append i) := by
  have hopen : IsOpen ((s.append i).code s.cur) := by
    rw [append_code_cur]
    exact h.isOpen.snoc hterm
  have hreach : ∀ b, (s.append i).Reaches entry b ↔ s.Reaches entry b :=
    reaches_append_straight hi
  exact ⟨.append _ s i, h.append h.born (by simp [hi]), h.born, fun b _ => hreach b,
    .inl ⟨hopen, by simp [hreach]⟩⟩

theorem define (h : s.Writing) {i : Nat → I} (hterm : isTerminator (i s.nextReg) = false)
    (hi : successors (i s.nextReg) = []) : Flow entry true s (s.define i) := by
  have happend : Flow entry true s (s.append (i s.nextReg)) := append h hterm hi
  exact ⟨.define _ s i, h.toTidy.define h.born hi, h.born, happend.old, happend.exit⟩

/-- A terminator that leaves the function. -/
theorem close (h : s.Writing) {i : I} (hterm : isTerminator i = true)
    (hi : successors i = []) : Flow entry false s (s.append i) := by
  have hclosed : IsClosed ((s.append i).code s.cur) := by
    rw [append_code_cur]
    exact h.isOpen.close hterm
  exact ⟨.append _ s i, h.append h.born (by simp [hi]), h.born,
    fun b _ => reaches_append_straight hi b, .inr ⟨hclosed, rfl⟩⟩

end Flow

/-! The test that decides whether a block gets a terminator of its own. -/

def blockOpen (s : Builder I) : Bool :=
  (s.code s.cur).getLast?.all fun i => !isTerminator i

theorem blockOpen_of_isOpen (h : IsOpen (s.code s.cur)) : s.blockOpen = true := by
  unfold blockOpen
  cases hlast : (s.code s.cur).getLast? with
  | none => rfl
  | some i =>
      have hi := h i (List.mem_of_getLast? hlast)
      simp [hi]

theorem blockOpen_of_isClosed (h : IsClosed (s.code s.cur)) : s.blockOpen = false := by
  obtain ⟨body, last, hcode, -, hlast⟩ := h
  simp [blockOpen, hcode, hlast]

def closeWith (s : Builder I) (i : I) : Builder I := if s.blockOpen then s.append i else s

theorem reaches_closeWith {i : I} (hi : successors i = []) (b : Nat) :
    (s.closeWith i).Reaches entry b ↔ s.Reaches entry b := by
  unfold closeWith
  split
  · exact reaches_append_straight hi b
  · rfl

/-! The current block branches to blocks that are made for it. -/

structure Branched (entry : Nat) (s u : Builder I) (targets : List Nat) : Prop where
  grows : Grows s.nextBlock s u
  tidy : u.Tidy
  empty : ∀ b, s.nextBlock ≤ b → u.code b = []
  reach : ∀ b, u.Reaches entry b ↔
    s.Reaches entry b ∨ (s.Reaches entry s.cur ∧ b ∈ targets)

namespace Branched

variable {targets : List Nat}

theorem of_append (h : s.Writing) (hcode : t.code = s.code) (hcur : t.cur = s.cur)
    (hblocks : s.nextBlock ≤ t.nextBlock) (hregs : s.nextReg ≤ t.nextReg) {i : I}
    (hi : ∀ c ∈ successors i, s.nextBlock ≤ c ∧ c < t.nextBlock) :
    Branched entry s (t.append i) (successors i) := by
  have hgrows : Grows s.nextBlock s t :=
    ⟨hblocks, hregs, fun b => hcode ▸ List.prefix_rfl, fun b _ _ => congrFun hcode b, .inl hcur⟩
  have htidy : t.Tidy := by
    constructor
    · intro b hb
      rw [hcode]
      exact h.unborn b (hblocks.trans hb)
    · intro b j hj c hc
      rw [hcode] at hj
      exact (h.targets b j hj c hc).trans_le hblocks
  have hborn : t.cur < t.nextBlock := hcur ▸ h.born.trans_le hblocks
  have hsame : ∀ b, t.Reaches entry b ↔ s.Reaches entry b := by
    intro b
    unfold Reaches
    rw [hcode]
  constructor
  · exact hgrows.trans (.append _ t i)
  · exact htidy.append hborn fun c hc => (hi c hc).2
  · intro b hb
    rw [t.append_code_of_ne i (by have := h.born; omega), hcode]
    exact h.unborn b hb
  · intro b
    have hempty : ∀ c ∈ successors i,
        t.code c = [] ∨ (t.Reaches entry t.cur → t.Reaches entry c) := by
      intro c hc
      rw [hcode]
      exact .inl (h.unborn c (hi c hc).1)
    rw [reaches_append hempty b, hsame, hsame, hcur]

/-- The blocks there before are reachable as before, and no new one is but the targets. -/
theorem old (h : Branched entry s u targets) {b : Nat} (hb : b ∉ targets) :
    u.Reaches entry b ↔ s.Reaches entry b := by
  rw [h.reach b]
  simp [hb]

theorem target (h : Branched entry s u targets) (hs : s.Tidy) (hentry : entry < s.nextBlock)
    {b : Nat} (hb : b ∈ targets) (hnew : s.nextBlock ≤ b) :
    u.Reaches entry b ↔ s.Reaches entry s.cur := by
  rw [h.reach b]
  simp [hb, hs.unreached hentry hnew]

end Branched

/-! One arm: `block` is filled, and leads on to `next` if it is left open. -/

structure Arm (entry base block next : Nat) (through : Bool) (s t : Builder I) : Prop where
  grows : Grows base s t
  tidy : t.Tidy
  closed : IsClosed (t.code t.cur)
  born : t.cur < t.nextBlock
  frame : ∀ b, b < s.nextBlock → b ≠ block → t.code b = s.code b
  reach : ∀ b, b < s.nextBlock → (t.Reaches entry b ↔
    s.Reaches entry b ∨ (b = next ∧ s.Reaches entry block ∧ through = true))

theorem Flow.arm {block : Nat} {through : Bool} {i : I}
    (h : Flow entry through (s.moveTo block) t) (base next : Nat) (hterm : isTerminator i = true)
    (hi : successors i = [next]) (hbase : base ≤ block) (hborn : block < s.nextBlock)
    (hnext : next < s.nextBlock)
    (htarget : (s.code next = [] ∧ next ≠ block) ∨
      (s.Reaches entry block → s.Reaches entry next)) :
    Arm entry base block next through s (t.closeWith i) := by
  have hgrows : Grows base s t :=
    (Grows.moveTo s hbase).trans (h.grows.mono (hbase.trans (Nat.le_of_lt hborn)))
  have hframe : ∀ b, b < s.nextBlock → b ≠ block → t.code b = s.code b ∧ b ≠ t.cur :=
    fun b hb hne => h.grows.untouched hb hne
  have hold : ∀ b, b < s.nextBlock → (t.Reaches entry b ↔ s.Reaches entry b) := h.old
  rcases h.exit with ⟨hopen, hreach⟩ | ⟨hclosed, rfl⟩
  · have hclose : t.closeWith i = t.append i := by
      simp [closeWith, blockOpen_of_isOpen hopen]
    rw [hclose]
    have hempty : ∀ c ∈ successors i,
        t.code c = [] ∨ (t.Reaches entry t.cur → t.Reaches entry c) := by
      intro c hc
      rw [hi, List.mem_singleton] at hc
      subst hc
      rcases htarget with ⟨hcode, hne⟩ | hreaches
      · exact .inl ((hframe c hnext hne).1.trans hcode)
      · exact .inr fun hcur => (hold c hnext).mpr (hreaches (hreach.mp hcur).1)
    constructor
    · exact hgrows.trans (.append _ t i)
    · apply h.tidy.append h.born
      intro c hc
      rw [hi, List.mem_singleton] at hc
      exact hc ▸ hnext.trans_le h.grows.blocks
    · rw [append_cur, append_code_cur]
      exact hopen.close hterm
    · exact h.born
    · intro b hb hne
      rw [t.append_code_of_ne i (hframe b hb hne).2]
      exact (hframe b hb hne).1
    · intro b hb
      rw [reaches_append hempty b, hold b hb, hreach, hi, List.mem_singleton]
      simp only [reaches_moveTo, moveTo_cur]
      tauto
  · have hclose : t.closeWith i = t := by
      simp [closeWith, blockOpen_of_isClosed hclosed]
    rw [hclose]
    constructor
    · exact hgrows
    · exact h.tidy
    · exact hclosed
    · exact h.born
    · intro b hb hne
      exact (hframe b hb hne).1
    · intro b hb
      rw [hold b hb]
      simp

theorem Arm.of_attach {base block next c : Nat} {through : Bool}
    (h : Arm entry base block next through (s.attach c) t) :
    Arm entry base block next through s t :=
  ⟨(Grows.attach _ s c).trans h.grows, h.tidy, h.closed, h.born, h.frame, h.reach⟩

/-! Emission goes on in a block that is empty so far. -/

structure Joined (entry block : Nat) (through : Bool) (s t : Builder I) : Prop where
  grows : Grows s.nextBlock s t
  tidy : t.Tidy
  later : s.nextBlock ≤ block
  born : block < t.nextBlock
  empty : t.code block = []
  old : ∀ b, b < s.nextBlock → (t.Reaches entry b ↔ s.Reaches entry b)
  reach : t.Reaches entry block ↔ s.Reaches entry s.cur ∧ through = true

namespace Joined

variable {block : Nat} {through : Bool}

theorem moveTo (h : Joined entry block through s t) :
    Flow entry through s (t.moveTo block) := by
  have hwriting := h.tidy.writing h.born h.empty
  exact ⟨h.grows.trans (.moveTo t h.later), hwriting.toTidy, h.born, h.old,
    .inl ⟨hwriting.isOpen, h.reach⟩⟩

/-- The block is put at the end of the function first. -/
theorem start (h : Joined entry block through s t) :
    Flow entry through s ((t.attach block).moveTo block) := by
  have hattached : Joined entry block through s (t.attach block) :=
    ⟨h.grows.trans (.attach _ t block), h.tidy.attach block, h.later, h.born, h.empty, h.old,
      h.reach⟩
  exact hattached.moveTo

/-! The shapes that the statements and the subscript check take.  Each starts with a
branch of the builder `s` to blocks made for it; `u` is after it, `t` after the arms. -/

variable {v : Builder I} (hs : s.Writing) (hentry : entry < s.nextBlock)
include hs hentry

theorem ifThen (hbranch : Branched entry s u [s.nextBlock, s.nextBlock + 1])
    (hblocks : u.nextBlock = s.nextBlock + 2)
    (harm : Arm entry s.nextBlock s.nextBlock (s.nextBlock + 1) through u t) :
    Joined entry (s.nextBlock + 1) true s t := by
  have hle := harm.grows.blocks
  have hthen := hbranch.target hs.toTidy hentry (b := s.nextBlock) (by simp) le_rfl
  have hend := hbranch.target hs.toTidy hentry (b := s.nextBlock + 1) (by simp) (by omega)
  constructor
  · exact hbranch.grows.trans harm.grows
  · exact harm.tidy
  · omega
  · omega
  · rw [harm.frame _ (by omega) (by omega)]
    exact hbranch.empty _ (by omega)
  · intro b hb
    rw [harm.reach b (by omega), hbranch.old (by simp; omega)]
    simp only [or_iff_left_iff_imp]
    omega
  · rw [harm.reach _ (by omega), hthen, hend]
    tauto

theorem ifThenElse {other : Bool}
    (hbranch : Branched entry s u [s.nextBlock, s.nextBlock + 1])
    (hblocks : u.nextBlock = s.nextBlock + 3)
    (hthen : Arm entry s.nextBlock s.nextBlock (s.nextBlock + 2) through u v)
    (helse : Arm entry s.nextBlock (s.nextBlock + 1) (s.nextBlock + 2) other v t) :
    Joined entry (s.nextBlock + 2) (through || other) s t := by
  have hle := hthen.grows.blocks
  have hle' := helse.grows.blocks
  have hreachThen := hbranch.target hs.toTidy hentry (b := s.nextBlock) (by simp) le_rfl
  have hreachElse := hbranch.target hs.toTidy hentry (b := s.nextBlock + 1) (by simp) (by omega)
  have hreachEnd : ¬ u.Reaches entry (s.nextBlock + 2) := by
    rw [hbranch.old (by simp)]
    exact hs.unreached hentry (by omega)
  constructor
  · exact (hbranch.grows.trans hthen.grows).trans helse.grows
  · exact helse.tidy
  · omega
  · omega
  · rw [helse.frame _ (by omega) (by omega), hthen.frame _ (by omega) (by omega)]
    exact hbranch.empty _ (by omega)
  · intro b hb
    rw [helse.reach b (by omega), hthen.reach b (by omega), hbranch.old (by simp; omega)]
    have hne : b ≠ s.nextBlock + 2 := by omega
    simp [hne]
  · rw [helse.reach _ (by omega), hthen.reach _ (by omega), hthen.reach _ (by omega),
      hreachThen, hreachElse]
    simp only [hreachEnd, false_or, Bool.or_eq_true]
    have hne : ¬ s.nextBlock + 1 = s.nextBlock + 2 := by omega
    simp only [hne, false_and, or_false]
    tauto

end Joined

/-! A loop up to its body: the condition is in the block `s.nextBlock`, the two blocks
after it are still empty. -/

structure Looped (entry : Nat) (s u : Builder I) : Prop where
  grows : Grows s.nextBlock s u
  tidy : u.Tidy
  blocks : s.nextBlock + 3 ≤ u.nextBlock
  empty : ∀ b, b = s.nextBlock + 1 ∨ b = s.nextBlock + 2 → u.code b = []
  old : ∀ b, b < s.nextBlock → (u.Reaches entry b ↔ s.Reaches entry b)
  reach : ∀ b, s.nextBlock ≤ b → b < s.nextBlock + 3 →
    (u.Reaches entry b ↔ s.Reaches entry s.cur)

namespace Looped

variable {v : Builder I} (hs : s.Writing) (hentry : entry < s.nextBlock)
include hs hentry

theorem of_branched (hbranch : Branched entry s u [s.nextBlock])
    (hblocks : u.nextBlock = s.nextBlock + 3)
    (hcond : Flow entry true (u.moveTo s.nextBlock) v) {i : I}
    (hi : successors i = [s.nextBlock + 1, s.nextBlock + 2]) :
    Looped entry s (v.append i) := by
  have hle : u.nextBlock ≤ v.nextBlock := hcond.grows.blocks
  have hold : ∀ b, b < u.nextBlock → (v.Reaches entry b ↔ u.Reaches entry b) := hcond.old
  have hhead := hbranch.target hs.toTidy hentry (b := s.nextBlock) (by simp) le_rfl
  have hempty : ∀ b, b = s.nextBlock + 1 ∨ b = s.nextBlock + 2 → v.code b = [] ∧ b ≠ v.cur := by
    intro b hb
    have hframe := hcond.grows.untouched (b := b) (by simp; omega) (by simp; omega)
    rw [moveTo_code, hbranch.empty b (by omega)] at hframe
    exact hframe
  have htargets : ∀ c ∈ successors i,
      v.code c = [] ∨ (v.Reaches entry v.cur → v.Reaches entry c) := by
    intro c hc
    rw [hi] at hc
    exact .inl (hempty c (by simpa using hc)).1
  have hcur : v.Reaches entry v.cur ↔ s.Reaches entry s.cur := hcond.isOpen.2.trans hhead
  have hgrows : Grows s.nextBlock s v :=
    hbranch.grows.trans ((Grows.moveTo u le_rfl).trans (hcond.grows.mono (by simp; omega)))
  constructor
  · exact hgrows.trans (.append _ v i)
  · apply hcond.tidy.append hcond.born
    intro c hc
    simp only [hi, List.mem_cons, List.not_mem_nil, or_false] at hc
    omega
  · rw [append_nextBlock]
    omega
  · intro b hb
    rw [v.append_code_of_ne i (hempty b hb).2]
    exact (hempty b hb).1
  · intro b hb
    rw [reaches_append htargets, hold b (by omega), hbranch.old (by simp; omega), hi]
    simp only [List.mem_cons, List.not_mem_nil, or_false, or_iff_left_iff_imp]
    omega
  · intro b hb hlt
    rw [reaches_append htargets, hold b (by omega), hcur, hi]
    by_cases hb0 : b = s.nextBlock
    · subst hb0
      rw [hhead]
      simp
    · have hnot : ¬ u.Reaches entry b := by
        rw [hbranch.old (by simpa using hb0)]
        exact hs.unreached hentry hb
      have hmem : b = s.nextBlock + 1 ∨ b = s.nextBlock + 2 := by omega
      simp [hnot, hmem]

omit hs hentry in
theorem joined {through : Bool} (hloop : Looped entry s u)
    (harm : Arm entry s.nextBlock (s.nextBlock + 1) s.nextBlock through u t) :
    Joined entry (s.nextBlock + 2) true s t := by
  have hblocks := hloop.blocks
  have hle := harm.grows.blocks
  constructor
  · exact hloop.grows.trans harm.grows
  · exact harm.tidy
  · omega
  · omega
  · rw [harm.frame _ (by omega) (by omega)]
    exact hloop.empty _ (.inr rfl)
  · intro b hb
    rw [harm.reach b (by omega), hloop.old b hb]
    simp only [or_iff_left_iff_imp]
    omega
  · rw [harm.reach _ (by omega), hloop.reach _ (by omega) (by omega)]
    simp

end Looped

end Builder

/-! Where the frames of a run can be: in blocks that are reachable from an entry. -/

namespace Machine

variable {M W : Type} [Executable I]

def Entered (m : Machine I M W) (frame : Frame) : Prop :=
  ∃ name entry, m.entry name = some entry ∧ Reachable m.code entry frame.block

def frames : Config M W → List Frame
  | .running top callers _ => top :: callers
  | .stopped _ _ => []

structure Jumps (I : Type) [ControlFlow I] [Executable I] : Prop where
  jump : ∀ {M : Type} (mem : MemOps M) (i : I) (env : Env) (m : M) (b : Nat),
    Executable.exec mem i env m = .jump b → b ∈ successors i

variable {m : Machine I M W}

omit [ControlFlow I] [Executable I] in
@[simp] theorem frames_running (top : Frame) (callers : List Frame) (shared : Shared M W) :
    frames (.running top callers shared) = top :: callers := rfl

theorem entered_step (hjumps : Jumps I) (c : Config M W)
    (h : ∀ frame ∈ frames c, m.Entered frame) : ∀ frame ∈ frames (m.step c), m.Entered frame := by
  cases c with
  | stopped final shared => exact h
  | running top callers shared =>
      rw [frames_running, List.forall_mem_cons] at h
      obtain ⟨htop, hcallers⟩ := h
      cases hi : (m.code top.block)[top.position]? with
      | none =>
          simp only [Machine.step, hi]
          simp [frames]
      | some i =>
          rw [step_running callers shared hi]
          cases heffect : Executable.exec m.memory i top.env shared.mem with
          | next env mem =>
              rw [perform_next, frames_running, List.forall_mem_cons]
              exact ⟨htop, hcallers⟩
          | jump b =>
              obtain ⟨name, entry, hentry, hreach⟩ := htop
              have hedge : Edge m.code top.block b :=
                ⟨i, List.mem_of_getElem? hi, hjumps.jump _ i _ _ b heffect⟩
              rw [perform_jump, frames_running, List.forall_mem_cons]
              exact ⟨⟨name, entry, hentry, hreach.step hedge⟩, hcallers⟩
          | call r callee args =>
              rw [perform_call]
              unfold Machine.enter
              split
              · next b hb =>
                  rw [frames_running, List.forall_mem_cons, List.forall_mem_cons]
                  exact ⟨⟨callee, b, hb, Reachable.refl _ _⟩, htop, hcallers⟩
              · split
                · rw [frames_running, List.forall_mem_cons]
                  exact ⟨htop, hcallers⟩
                · simp [frames]
                · simp [frames]
          | ret value =>
              rw [perform_ret]
              cases callers with
              | nil => simp [leave, frames]
              | cons caller callers =>
                  rw [List.forall_mem_cons] at hcallers
                  unfold leave
                  rw [frames_running, List.forall_mem_cons]
                  exact hcallers
          | fault f => simp [frames]

theorem entered_run (hjumps : Jumps I) {callee : String} {args : List Value}
    {shared : Shared M W} {c : Config M W} (hstart : m.start callee args shared = some c)
    (n : Nat) : ∀ frame ∈ frames (m.run n c), m.Entered frame := by
  apply run_induction (P := fun c => ∀ frame ∈ frames c, m.Entered frame) (entered_step hjumps)
  obtain ⟨b, hb, rfl⟩ := Option.map_eq_some_iff.mp hstart
  intro frame hframe
  rw [frames_running, List.mem_singleton] at hframe
  subst hframe
  exact ⟨callee, b, hb, Reachable.refl _ _⟩

end Machine

end SSA
