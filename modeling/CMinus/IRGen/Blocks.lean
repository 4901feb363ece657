import CMinus.IRGen.State

namespace CMinus

namespace IRGenerator

open SSA IR

/-! Running an action step by step. -/

def Run {α : Type} (action : IRGenM α) (g : IRGenerator) (Q : α → IRGenerator → Prop) :
    Prop :=
  Q (action g).1 (action g).2

section run

variable {α β : Type} {g : IRGenerator} {Q : α → IRGenerator → Prop}

theorem Run.bind {action : IRGenM α} {next : α → IRGenM β} {R : β → IRGenerator → Prop}
    (h : Run action g fun a g' => Run (next a) g' R) : Run (action >>= next) g R := h

theorem Run.mono {action : IRGenM α} {R : α → IRGenerator → Prop} (h : Run action g R)
    (hRQ : ∀ a g', R a g' → Q a g') : Run action g Q :=
  hRQ _ _ h

theorem run_pure {a : α} (h : Q a g) : Run (pure a) g Q := h

theorem run_createBlock {Q : Nat → IRGenerator → Prop}
    (h : Q g.builder.nextBlock
      { g with builder := g.builder.newBlock.attach g.builder.nextBlock }) :
    Run createBlock g Q := h

theorem run_newBlock {Q : Nat → IRGenerator → Prop}
    (h : Q g.builder.nextBlock { g with builder := g.builder.newBlock }) :
    Run newBlock g Q := h

theorem run_insertAtEnd {Q : Unit → IRGenerator → Prop} {b : Nat}
    (h : Q () { g with builder := g.builder.attach b }) : Run (insertAtEnd b) g Q := h

theorem run_setInsertPoint {Q : Unit → IRGenerator → Prop} {b : Nat}
    (h : Q () { g with builder := g.builder.moveTo b }) : Run (setInsertPoint b) g Q := h

theorem run_emit {Q : Unit → IRGenerator → Prop} {i : Instr}
    (h : Q () { g with builder := g.builder.append i }) : Run (emit i) g Q := h

end run

/-! Blocks. -/

/-- The current block is complete. -/
structure Shut (c : Scene) (K : Nat → Set Fact) (P : Set Nat) (g : IRGenerator) : Prop
    extends Working c K P g where
  inside : c.entry ≤ g.builder.cur
  born : g.builder.cur < g.builder.nextBlock
  closed : IsClosed (g.builder.code g.builder.cur)

section blocks

variable {c : Scene} {P Q : Set Nat} {K : Nat → Set Fact} {A B : Set Fact}
  {g : IRGenerator} {base : Nat}

theorem Ready.newBlock (h : Ready c K P A g) (hB : ∀ fact ∈ B, g.builder.Grounds c.entry fact) :
    Ready c (Function.update K g.builder.nextBlock B) (insert g.builder.nextBlock P) A
      { g with builder := g.builder.newBlock } := by
  refine ⟨⟨h.sound.newBlock hB, ⟨h.declared.names, h.declared.keys, h.declared.listed,
    h.declared.signed, h.declared.calls⟩, h.recorded, ?_, ?_, h.distinct, h.first,
    h.fallbacks, h.current⟩, h.at_.newBlock, h.addressed⟩
  · intro b hle hb
    by_cases hnew : b = g.builder.nextBlock
    · exact .inl (.inl hnew)
    · exact (h.laid b hle (by simp at hb; omega)).imp_left .inr
  · intro b hb
    have hlisted := h.listed b hb
    exact ⟨hlisted.1, Nat.lt_succ_of_lt hlisted.2⟩

theorem Next.newBlock (c : Scene) (base : Nat) (K : Nat → Set Fact) (g : IRGenerator)
    (B : Set Fact) :
    Next c base K g (Function.update K g.builder.nextBlock B)
      { g with builder := g.builder.newBlock } :=
  ⟨Builder.Grows.newBlock base g.builder,
    fun _ hb => Function.update_of_ne (Nat.ne_of_lt hb) _ _, ⟨[], by simp, by simp⟩, rfl,
    rfl, ⟨[], by simp, by simp⟩, ⟨[], by simp, by simp⟩, ⟨[], by simp, by simp⟩⟩

theorem Working.attach (h : Working c K P g) {b : Nat} (hle : c.entry ≤ b)
    (hb : b < g.builder.nextBlock) (hnew : b ∉ g.builder.layout) :
    Working c K P { g with builder := g.builder.attach b } := by
  refine ⟨h.sound.attach b, ⟨h.declared.names, h.declared.keys, h.declared.listed,
    h.declared.signed, h.declared.calls⟩, h.recorded, ?_, ?_, ?_, ?_, h.fallbacks,
    h.current⟩
  · intro d hled hd
    exact (h.laid d hled hd).imp_right fun hmem => List.mem_append_left _ hmem
  · intro d hd
    rcases List.mem_append.mp hd with hd | hd
    · exact h.listed d hd
    · rw [List.mem_singleton.mp hd]
      exact ⟨hle, hb⟩
  · refine List.nodup_append.mpr ⟨h.distinct, List.nodup_singleton b, ?_⟩
    intro d hd e he heq
    rw [List.mem_singleton.mp he] at heq
    exact hnew (heq ▸ hd)
  · rw [Builder.attach_layout, List.head?_append, h.first]
    rfl

theorem Ready.attach (h : Ready c K P A g) {b : Nat} (hle : c.entry ≤ b)
    (hb : b < g.builder.nextBlock) (hnew : b ∉ g.builder.layout) :
    Ready c K P A { g with builder := g.builder.attach b } :=
  ⟨h.toWorking.attach hle hb hnew, h.at_.attach b, h.addressed⟩

theorem Shut.attach (h : Shut c K P g) {b : Nat} (hle : c.entry ≤ b)
    (hb : b < g.builder.nextBlock) (hnew : b ∉ g.builder.layout) :
    Shut c K P { g with builder := g.builder.attach b } :=
  ⟨h.toWorking.attach hle hb hnew, h.inside, h.born, h.closed⟩

theorem Next.attach (c : Scene) (K : Nat → Set Fact) (g : IRGenerator) {b : Nat}
    (hb : base ≤ b) : Next c base K g K { g with builder := g.builder.attach b } :=
  ⟨Builder.Grows.attach base g.builder b, fun _ _ => rfl, ⟨[b], rfl, by simpa using hb⟩, rfl,
    rfl, ⟨[], by simp, by simp⟩, ⟨[], by simp, by simp⟩, ⟨[], by simp, by simp⟩⟩

/-- The block after the next one is created and put at the end of the function. -/
theorem Ready.createBlock (h : Ready c K P A g)
    (hB : ∀ fact ∈ B, g.builder.Grounds c.entry fact) :
    Ready c (Function.update K g.builder.nextBlock B) (insert g.builder.nextBlock P) A
      { g with builder := g.builder.newBlock.attach g.builder.nextBlock } := by
  refine (h.newBlock hB).attach ?_ (Nat.lt_succ_self _) ?_
  · exact h.at_.inside.trans (Nat.le_of_lt h.at_.born)
  · intro hmem
    exact Nat.lt_irrefl _ (h.listed _ hmem).2

theorem Next.createBlock (c : Scene) (K : Nat → Set Fact) (g : IRGenerator) (B : Set Fact)
    (hbase : base ≤ g.builder.nextBlock) :
    Next c base K g (Function.update K g.builder.nextBlock B)
      { g with builder := g.builder.newBlock.attach g.builder.nextBlock } :=
  (Next.newBlock c base K g B).trans
    (Next.attach c _ { g with builder := g.builder.newBlock } hbase)

theorem allowed_of_plain {i : Instr} (hcalls : ∀ r callee args, i ≠ .call r callee args)
    (haccess : accessed i = none) : Allowed g i := by
  refine ⟨fun r callee args hi => absurd hi (hcalls r callee args), ?_⟩
  intro address haddress
  rw [haccess] at haddress
  cases haddress

theorem allowed_of_terminator {i : Instr} (hterm : i.isTerminator = true) : Allowed g i := by
  apply allowed_of_plain
  · rintro r callee args rfl
    cases hterm
  · cases i <;> first | rfl | cases hterm

theorem defines_of_terminator {i : Instr} (hterm : i.isTerminator = true) :
    i.defines = none := by
  cases i <;> first | rfl | cases hterm

/-- A terminator closes the current block. -/
theorem Ready.close (h : Ready c K P A g) {i : Instr} (hterm : i.isTerminator = true)
    (hi : i.WellTyped c.signatures c.function A)
    (hborn : ∀ b ∈ i.successors, c.entry < b ∧ b < g.builder.nextBlock)
    (halong : ∀ b ∈ i.successors, K b ⊆ along i b A) :
    Shut c K P { g with builder := g.builder.append i } := by
  have hdef := defines_of_terminator hterm
  obtain ⟨hsound, hclosed⟩ := h.sound.close h.at_ hterm hdef
    ⟨hi, fresh_next h hi (.inl hdef)⟩ hborn halong
  have hallowed : Allowed g i := allowed_of_terminator hterm
  exact ⟨⟨hsound, h.declared.append rfl hallowed, h.recorded.append rfl hallowed, h.laid,
    h.listed, h.distinct, h.first, h.fallbacks, h.current⟩, h.at_.inside, h.at_.born, hclosed⟩

/-- On to a block that is still empty. -/
theorem Shut.moveTo (h : Shut c K P g) {b : Nat} (hb : b ∈ g.builder.layout)
    (hcode : g.builder.code b = []) (hP : ∀ d ∈ P, d = b ∨ d ∈ Q)
    (haddressed : Addressed c (K b) g) :
    Ready c K Q (K b) { g with builder := g.builder.moveTo b } := by
  obtain ⟨hle, hlt⟩ := h.listed b hb
  obtain ⟨hsound, hat⟩ := h.sound.moveTo hle hlt hcode (fun _ _ => h.closed) hP
  refine ⟨⟨hsound, ⟨h.declared.names, h.declared.keys, h.declared.listed,
    h.declared.signed, h.declared.calls⟩, h.recorded, ?_, h.listed, h.distinct, h.first,
    h.fallbacks, h.current⟩, hat, haddressed⟩
  intro d hled hd
  rcases h.laid d hled hd with hmem | hmem
  · rcases hP d hmem with rfl | hQ
    · exact .inr hb
    · exact .inl hQ
  · exact .inr hmem

theorem Next.moveTo (c : Scene) (K : Nat → Set Fact) (g : IRGenerator) {b : Nat}
    (hb : base ≤ b) : Next c base K g K { g with builder := g.builder.moveTo b } :=
  .of_builder (Builder.Grows.moveTo g.builder hb) rfl

end blocks

end IRGenerator

end CMinus
