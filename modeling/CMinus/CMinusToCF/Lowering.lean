import CMinus.CMinusToCF.Patterns
import CMinus.CMinusToCF.Simulation

namespace CMinus

namespace CMinusToCF

open SSA MLIR Structured

/-! What holds of a module on the way: every block is of one of the forms, and branches stay
in their function. -/

structure PatternRewriter.Valid (r : PatternRewriter) : Prop where
  formed : ∀ f, .func f ∈ r.body → ∀ b ∈ f.blocks, Block r.nextReg (· ∈ f.blocks) (r.code b)
  born : ∀ f, .func f ∈ r.body → ∀ b ∈ f.blocks, b < r.nextBlock

def PatternRewriter.Known (r : PatternRewriter) (b : Nat) : Prop :=
  ∃ f, .func f ∈ r.body ∧ b ∈ f.blocks

variable {r r' : PatternRewriter} {block : Nat} {new : List Nat} {n : Nat} {known : Nat → Prop}

theorem PatternRewriter.Valid.known_block (h : r.Valid) {b : Nat} (hb : r.Known b) :
    Block r.nextReg r.Known (r.code b) := by
  obtain ⟨f, hf, hmem⟩ := hb
  exact (h.formed f hf b hmem).mono le_rfl fun c hc => ⟨f, hf, hc⟩

theorem PatternRewriter.Valid.known_lt (h : r.Valid) {b : Nat} (hb : r.Known b) :
    b < r.nextBlock := by
  obtain ⟨f, hf, hmem⟩ := hb
  exact h.born f hf b hmem

theorem mem_map_mapBlocks {F : List Nat → List Nat} {body : List Definition} {f' : FuncOp} :
    .func f' ∈ body.map (mapBlocks F) ↔
      ∃ f, .func f ∈ body ∧ f' = { f with blocks := F f.blocks } := by
  rw [List.mem_map]
  constructor
  · intro h
    obtain ⟨definition, hmem, heq⟩ := h
    cases definition with
    | global op => cases heq
    | func f =>
        cases heq
        exact ⟨f, hmem, rfl⟩
  · intro h
    obtain ⟨f, hmem, rfl⟩ := h
    exact ⟨.func f, hmem, rfl⟩

theorem lookupFunc_mapBlocks (F : List Nat → List Nat) (body : List Definition) (name : String) :
    lookupFunc (body.map (mapBlocks F)) name =
      (lookupFunc body name).map fun f => { f with blocks := F f.blocks } := by
  have hname : ∀ definition : Definition, (mapBlocks F definition).name = definition.name := by
    intro definition
    cases definition <;> rfl
  unfold lookupFunc
  rw [List.find?_map]
  have hfind : ((fun definition : Definition => decide (definition.name = name)) ∘ mapBlocks F) =
      fun definition => decide (definition.name = name) := by
    funext definition
    rw [Function.comp_apply, hname]
  rw [hfind]
  cases body.find? fun definition => decide (definition.name = name) with
  | none => rfl
  | some definition => cases definition <;> rfl

theorem lookupFunc_mem {body : List Definition} {name : String} {f : FuncOp}
    (h : lookupFunc body name = some f) : .func f ∈ body := by
  unfold lookupFunc at h
  split at h
  · next op hfind =>
      cases h
      exact List.mem_of_find?_eq_some hfind
  · cases h

namespace Rewrites

variable (hrewrites : Rewrites r r' block new) (hvalid : r.Valid)
include hrewrites hvalid

/-- If the blocks that the rewrite wrote are of one of the forms, all are. -/
theorem valid (hforms : ∀ known : Nat → Prop, Block r.nextReg known (r.code block) →
      (∀ b ∈ new, known b) → Block r'.nextReg known (r'.code block) ∧
        ∀ b ∈ new, Block r'.nextReg known (r'.code b)) : r'.Valid := by
  obtain ⟨F, hextends, hbody⟩ := hrewrites.body
  constructor
  · intro f' hf' b hb
    rw [hbody, mem_map_mapBlocks] at hf'
    obtain ⟨f, hf, rfl⟩ := hf'
    have hborn := hvalid.born f hf
    have hmem := hextends.mem f.blocks hborn
    have hgrow : ∀ c ∈ f.blocks, c ∈ F f.blocks := fun c hc => (hmem c).mpr (.inl hc)
    have hwritten : block ∈ f.blocks → Block r'.nextReg (· ∈ F f.blocks) (r'.code block) ∧
        ∀ c ∈ new, Block r'.nextReg (· ∈ F f.blocks) (r'.code c) := by
      intro hblock
      apply hforms
      · exact (hvalid.formed f hf block hblock).mono le_rfl hgrow
      · exact fun c hc => (hmem c).mpr (.inr ⟨hblock, hc⟩)
    rcases (hmem b).mp hb with hold | ⟨hblock, hnew⟩
    · by_cases heq : b = block
      · subst heq
        exact (hwritten hold).1
      · rw [hrewrites.frame b (hborn b hold) heq]
        exact (hvalid.formed f hf b hold).mono hrewrites.regs hgrow
    · exact (hwritten hblock).2 b hnew
  · intro f' hf' b hb
    rw [hbody, mem_map_mapBlocks] at hf'
    obtain ⟨f, hf, rfl⟩ := hf'
    have hborn := hvalid.born f hf
    rcases (hextends.mem f.blocks hborn b).mp hb with hold | ⟨-, hnew⟩
    · exact (hborn b hold).trans_le hrewrites.blocks
    · exact (hrewrites.fresh b hnew).2

variable {M W : Type} (memory : MemOps M) (runtime : String → List Value → W → Option (Reply W))

theorem entry :
    (r'.module.machine memory runtime).entry = (r.module.machine memory runtime).entry := by
  obtain ⟨F, hextends, hbody⟩ := hrewrites.body
  funext name
  change (lookupFunc r'.body name).bind _ = (lookupFunc r.body name).bind _
  rw [hbody, lookupFunc_mapBlocks]
  cases hlookup : lookupFunc r.body name with
  | none => rfl
  | some f => exact hextends.head f.blocks (hvalid.born f (lookupFunc_mem hlookup))

theorem matching {σ : Site} {before : List Op} (hcode : r.code block = before ++ σ.occ)
    (hcode' : r'.code block = before ++ σ.occ') (hbefore : ∀ op ∈ before, Inner r.nextReg op) :
    Matches r.nextReg r.Known σ (r.module.machine memory runtime)
      (r'.module.machine memory runtime) := by
  constructor
  · rfl
  · rfl
  · exact hrewrites.entry hvalid memory runtime
  · intro name b hb
    obtain ⟨f, hlookup, hhead⟩ := Option.bind_eq_some_iff.mp hb
    exact ⟨f, lookupFunc_mem hlookup, List.mem_of_mem_head? hhead⟩
  · intro b hb
    change Stacks _ _ _ (r.code b) [] (r'.code b) []
    by_cases heq : b = block
    · subst heq
      rw [hcode, hcode']
      exact .site before hbefore
    · rw [hrewrites.frame b (hvalid.known_lt hb) heq]
      exact .same (hvalid.known_block hb)

end Rewrites

/-! The ends of the regions. -/

def armEnd (last : Op) (dest : Nat) : Op :=
  match last with
  | .yield => .br dest
  | op => op

theorem branchInsteadOfYield_append (inner : List Op) {last : Op} (hlast : ArmEnd n last)
    (dest : Nat) : branchInsteadOfYield (inner ++ [last]) dest = inner ++ [armEnd last dest] := by
  unfold branchInsteadOfYield
  rw [List.getLast?_concat, List.dropLast_concat]
  cases hlast <;> rfl

theorem armEnd_block {last : Op} (hlast : ArmEnd n last) {dest : Nat} (hdest : known dest) :
    BlockEnd n known (armEnd last dest) := by
  cases hlast with
  | leave value below => exact .leave value below
  | yield =>
      apply BlockEnd.flat
      · rfl
      · rfl
      · intro b hb
        rw [List.mem_singleton.mp hb]
        exact hdest
      · exact ⟨nofun, nofun⟩

theorem condBr_block {cond : Operand} (hcond : ∀ q ∈ cond.regs, q < n) {ifTrue ifFalse : Nat}
    (htrue : known ifTrue) (hfalse : known ifFalse) :
    BlockEnd n known (.condBr cond ifTrue ifFalse) := by
  apply BlockEnd.flat
  · rfl
  · rfl
  · intro b hb
    rcases List.mem_cons.mp hb with rfl | hb
    · exact htrue
    · rw [List.mem_singleton.mp hb]
      exact hfalse
  · refine ⟨?_, nofun⟩
    intro v hv
    rw [List.mem_singleton.mp hv]
    exact hcond

end CMinusToCF

end CMinus
