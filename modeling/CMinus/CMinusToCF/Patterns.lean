import CMinus.CMinusToCF.Formed

namespace CMinus

namespace CMinusToCF

open SSA MLIR

/-! What a pattern makes of the blocks: some new ones behind the block of its op. -/

structure Extends (F : List Nat → List Nat) (n block : Nat) (new : List Nat) : Prop where
  mem : ∀ blocks : List Nat, (∀ b ∈ blocks, b < n) →
    ∀ b, b ∈ F blocks ↔ b ∈ blocks ∨ (block ∈ blocks ∧ b ∈ new)
  head : ∀ blocks : List Nat, (∀ b ∈ blocks, b < n) → (F blocks).head? = blocks.head?

theorem mem_insertAfter {new block b : Nat} {blocks : List Nat} :
    b ∈ insertAfter new block blocks ↔ b ∈ blocks ∨ (block ∈ blocks ∧ b = new) := by
  induction blocks with
  | nil => simp [insertAfter]
  | cons first blocks ih =>
      unfold insertAfter
      split
      · next h =>
          subst h
          simp only [List.mem_cons]
          tauto
      · next h =>
          have hne : ¬ block = first := fun heq => h heq.symm
          simp only [List.mem_cons, ih, hne, false_or]
          tauto

theorem mem_insertBefore {new block b : Nat} {blocks : List Nat} :
    b ∈ insertBefore new block blocks ↔ b ∈ blocks ∨ (block ∈ blocks ∧ b = new) := by
  induction blocks with
  | nil => simp [insertBefore]
  | cons first blocks ih =>
      unfold insertBefore
      split
      · next h =>
          subst h
          simp only [List.mem_cons]
          tauto
      · next h =>
          have hne : ¬ block = first := fun heq => h heq.symm
          simp only [List.mem_cons, ih, hne, false_or]
          tauto

theorem head_insertAfter (new block : Nat) (blocks : List Nat) :
    (insertAfter new block blocks).head? = blocks.head? := by
  cases blocks with
  | nil => rfl
  | cons first blocks =>
      unfold insertAfter
      split <;> rfl

theorem head_insertBefore (new : Nat) {block : Nat} {blocks : List Nat}
    (h : blocks.head? ≠ some block) : (insertBefore new block blocks).head? = blocks.head? := by
  cases blocks with
  | nil => rfl
  | cons first blocks =>
      unfold insertBefore
      rw [if_neg (by simpa using h)]
      rfl

theorem Extends.refl (n block : Nat) : Extends id n block [] := by
  constructor
  · simp
  · exact fun _ _ => rfl

theorem Extends.split (n block : Nat) : Extends (insertAfter n block) n block [n] := by
  constructor
  · intro blocks _ b
    rw [mem_insertAfter, List.mem_singleton]
  · exact fun blocks _ => head_insertAfter n block blocks

theorem Extends.inline {F : List Nat → List Nat} {n block cont : Nat} {new : List Nat}
    (h : Extends F n block new) (hcont : cont ∈ new) (hn : n ≤ cont) (region : Nat) :
    Extends (insertBefore region cont ∘ F) n block (region :: new) := by
  constructor
  · intro blocks hblocks b
    have hmem : cont ∈ F blocks ↔ block ∈ blocks := by
      rw [h.mem blocks hblocks]
      constructor
      · intro hor
        rcases hor with hold | hnew
        · exact absurd (hblocks cont hold) (Nat.not_lt.mpr hn)
        · exact hnew.1
      · exact fun hblock => .inr ⟨hblock, hcont⟩
    rw [Function.comp_apply, mem_insertBefore, h.mem blocks hblocks, hmem, List.mem_cons]
    tauto
  · intro blocks hblocks
    rw [Function.comp_apply, head_insertBefore, h.head blocks hblocks]
    rw [h.head blocks hblocks]
    intro hhead
    exact absurd (hblocks cont (List.mem_of_mem_head? hhead)) (Nat.not_lt.mpr hn)

/-- One rewrite, at an op of `block`. -/
structure Rewrites (r r' : PatternRewriter) (block : Nat) (new : List Nat) : Prop where
  body : ∃ F, Extends F r.nextBlock block new ∧ r'.body = r.body.map (mapBlocks F)
  fresh : ∀ b ∈ new, r.nextBlock ≤ b ∧ b < r'.nextBlock
  blocks : r.nextBlock ≤ r'.nextBlock
  regs : r.nextReg ≤ r'.nextReg
  frame : ∀ b, b < r.nextBlock → b ≠ block → r'.code b = r.code b

theorem mapBlocks_comp (F G : List Nat → List Nat) (body : List Definition) :
    (body.map (mapBlocks F)).map (mapBlocks G) = body.map (mapBlocks (G ∘ F)) := by
  rw [List.map_map]
  apply List.map_congr_left
  intro definition _
  cases definition <;> rfl

theorem bind_apply {α β : Type} (action : RewriteM α) (next : α → RewriteM β)
    (r : PatternRewriter) : (action >>= next) r = next (action r).1 (action r).2 := rfl

theorem pure_apply {α : Type} (a : α) (r : PatternRewriter) :
    (pure a : RewriteM α) r = (a, r) := rfl

section code

variable {r : PatternRewriter} {block : Nat} {before rest : List Op} {op : Op}
  (hcode : r.code block = before ++ op :: rest) (hborn : block < r.nextBlock)
include hcode hborn

theorem ifThen_rewrites (cond : Operand) (thenRegion : List Op) :
    let r' := (ifLowering block before.length cond thenRegion none r).2
    Rewrites r r' block [r.nextBlock + 1, r.nextBlock] ∧
      r'.nextReg = r.nextReg ∧
      r'.code block = before ++ [.condBr cond (r.nextBlock + 1) r.nextBlock] ∧
      r'.code r.nextBlock = rest ∧
      r'.code (r.nextBlock + 1) = branchInsteadOfYield thenRegion r.nextBlock := by
  have hne : block ≠ r.nextBlock := Nat.ne_of_lt hborn
  have hne' : block ≠ r.nextBlock + 1 := by omega
  intro r'
  refine ⟨⟨⟨_, (Extends.split _ _).inline (List.mem_singleton_self _) le_rfl _, ?_⟩, ?_, ?_, ?_,
    ?_⟩, ?_, ?_, ?_, ?_⟩
  · exact mapBlocks_comp _ _ _
  · intro b hb
    change r.nextBlock ≤ b ∧ b < r.nextBlock + 2
    simp only [List.mem_cons, List.not_mem_nil, or_false] at hb
    omega
  · exact Nat.le_add_right _ 2
  · exact le_rfl
  · intro b hb hblock
    have h1 : b ≠ r.nextBlock := by omega
    have h2 : b ≠ r.nextBlock + 1 := by omega
    simp [r', ifLowering, bind_apply, splitBlock, front, inlineRegionBefore, append, eraseOp,
      PatternRewriter.setCode, Function.update_apply, hblock, h1, h2]
  · rfl
  all_goals
    simp [r', ifLowering, bind_apply, splitBlock, front, inlineRegionBefore, append, eraseOp,
      PatternRewriter.setCode, hne, hne', hne.symm, hne'.symm, hcode]

theorem ifElse_rewrites (cond : Operand) (thenRegion elseRegion : List Op) :
    let r' := (ifLowering block before.length cond thenRegion (some elseRegion) r).2
    Rewrites r r' block [r.nextBlock + 2, r.nextBlock + 1, r.nextBlock] ∧
      r'.nextReg = r.nextReg ∧
      r'.code block = before ++ [.condBr cond (r.nextBlock + 1) (r.nextBlock + 2)] ∧
      r'.code r.nextBlock = rest ∧
      r'.code (r.nextBlock + 1) = branchInsteadOfYield thenRegion r.nextBlock ∧
      r'.code (r.nextBlock + 2) = branchInsteadOfYield elseRegion r.nextBlock := by
  have hne : block ≠ r.nextBlock := Nat.ne_of_lt hborn
  have hne' : block ≠ r.nextBlock + 1 := by omega
  have hne'' : block ≠ r.nextBlock + 2 := by omega
  have hgap : r.nextBlock ≠ r.nextBlock + 1 + 1 := by omega
  intro r'
  refine ⟨⟨⟨_, ((Extends.split _ _).inline (List.mem_singleton_self _) le_rfl _).inline
    (List.mem_cons_of_mem _ (List.mem_singleton_self _)) le_rfl _, ?_⟩, ?_, ?_, ?_, ?_⟩,
    ?_, ?_, ?_, ?_, ?_⟩
  · exact (congrArg _ (mapBlocks_comp _ _ _)).trans (mapBlocks_comp _ _ _)
  · intro b hb
    change r.nextBlock ≤ b ∧ b < r.nextBlock + 3
    simp only [List.mem_cons, List.not_mem_nil, or_false] at hb
    omega
  · exact Nat.le_add_right _ 3
  · exact le_rfl
  · intro b hb hblock
    have h1 : b ≠ r.nextBlock := by omega
    have h2 : b ≠ r.nextBlock + 1 := by omega
    have h3 : b ≠ r.nextBlock + 2 := by omega
    simp [r', ifLowering, bind_apply, splitBlock, front, inlineRegionBefore, append, eraseOp,
      PatternRewriter.setCode, Function.update_apply, hblock, h1, h2, h3]
  · rfl
  all_goals
    simp [r', ifLowering, bind_apply, splitBlock, front, inlineRegionBefore, append, eraseOp,
      PatternRewriter.setCode, hne, hne', hne'', hne.symm, hne'.symm, hne''.symm, hgap, hcode]

theorem while_rewrites (condRegion bodyRegion : List Op) (value : Operand) :
    let r' := (whileLowering block before.length condRegion bodyRegion value r).2
    Rewrites r r' block [r.nextBlock + 2, r.nextBlock + 1, r.nextBlock] ∧
      r'.nextReg = r.nextReg ∧
      r'.code block = before ++ [.br (r.nextBlock + 1)] ∧
      r'.code r.nextBlock = rest ∧
      r'.code (r.nextBlock + 1) =
        condRegion.dropLast ++ [.condBr value (r.nextBlock + 2) r.nextBlock] ∧
      r'.code (r.nextBlock + 2) = branchInsteadOfYield bodyRegion (r.nextBlock + 1) := by
  have hne : block ≠ r.nextBlock := Nat.ne_of_lt hborn
  have hne' : block ≠ r.nextBlock + 1 := by omega
  have hne'' : block ≠ r.nextBlock + 2 := by omega
  have hgap : r.nextBlock ≠ r.nextBlock + 1 + 1 := by omega
  intro r'
  refine ⟨⟨⟨_, ((Extends.split _ _).inline (List.mem_singleton_self _) le_rfl _).inline
    (List.mem_cons_of_mem _ (List.mem_singleton_self _)) le_rfl _, ?_⟩, ?_, ?_, ?_, ?_⟩,
    ?_, ?_, ?_, ?_, ?_⟩
  · exact (congrArg _ (mapBlocks_comp _ _ _)).trans (mapBlocks_comp _ _ _)
  · intro b hb
    change r.nextBlock ≤ b ∧ b < r.nextBlock + 3
    simp only [List.mem_cons, List.not_mem_nil, or_false] at hb
    omega
  · exact Nat.le_add_right _ 3
  · exact le_rfl
  · intro b hb hblock
    have h1 : b ≠ r.nextBlock := by omega
    have h2 : b ≠ r.nextBlock + 1 := by omega
    have h3 : b ≠ r.nextBlock + 2 := by omega
    simp [r', whileLowering, bind_apply, splitBlock, front, setOps, inlineRegionBefore, append,
      eraseOp, PatternRewriter.setCode, Function.update_apply, hblock, h1, h2, h3]
  · rfl
  all_goals
    simp [r', whileLowering, bind_apply, splitBlock, front, setOps, inlineRegionBefore, append,
      eraseOp, PatternRewriter.setCode, hne, hne', hne'', hne.symm, hne'.symm, hne''.symm, hgap,
      hcode]

theorem indexCheck_rewrites (index : Operand) :
    let r' := (indexCheckLowering block before.length index r).2
    Rewrites r r' block [r.nextBlock + 1, r.nextBlock] ∧
      r'.nextReg = r.nextReg + 2 ∧
      r'.code block = before ++ [.constant r.nextReg 0,
        .cmpi (r.nextReg + 1) .slt index (.reg r.nextReg),
        .condBr (.reg (r.nextReg + 1)) (r.nextBlock + 1) r.nextBlock] ∧
      r'.code r.nextBlock = rest ∧
      r'.code (r.nextBlock + 1) = [.call none kIndexErrorName [index], .unreachable] := by
  have hne : block ≠ r.nextBlock := Nat.ne_of_lt hborn
  have hne' : block ≠ r.nextBlock + 1 := by omega
  intro r'
  refine ⟨⟨⟨_, (Extends.split _ _).inline (List.mem_singleton_self _) le_rfl _, ?_⟩, ?_, ?_, ?_,
    ?_⟩, ?_, ?_, ?_, ?_⟩
  · exact mapBlocks_comp _ _ _
  · intro b hb
    change r.nextBlock ≤ b ∧ b < r.nextBlock + 2
    simp only [List.mem_cons, List.not_mem_nil, or_false] at hb
    omega
  · exact Nat.le_add_right _ 2
  · exact Nat.le_add_right _ 2
  · intro b hb hblock
    have h1 : b ≠ r.nextBlock := by omega
    have h2 : b ≠ r.nextBlock + 1 := by omega
    simp [r', indexCheckLowering, bind_apply, pure_apply, splitBlock, createBlock, front,
      inlineRegionBefore, append, define, eraseOp, PatternRewriter.setCode, Function.update_apply,
      hblock, h1, h2]
  · rfl
  all_goals
    simp [r', indexCheckLowering, bind_apply, pure_apply, splitBlock, createBlock, front,
      inlineRegionBefore, append, define, eraseOp, PatternRewriter.setCode, hne, hne', hne.symm,
      hne'.symm, hcode]

omit hborn in
theorem return_rewrites (value : Option Operand) :
    let r' := (returnLowering block before.length value r).2
    Rewrites r r' block [] ∧ r'.nextReg = r.nextReg ∧
      r'.code block = before ++ .ret value :: rest := by
  intro r'
  refine ⟨⟨⟨id, Extends.refl _ _, ?_⟩, ?_, le_rfl, le_rfl, ?_⟩, rfl, ?_⟩
  · change r.body = r.body.map (mapBlocks id)
    have hid : mapBlocks id = id := by
      funext definition
      cases definition <;> rfl
    rw [hid, List.map_id]
  · simp
  · intro b _ hblock
    exact Function.update_of_ne hblock _ _
  · simp [r', returnLowering, PatternRewriter.setCode, hcode]

end code

end CMinusToCF

end CMinus
