import CMinus.CMinusToCF

namespace CMinus

namespace CMinusToCF

open SSA MLIR

/-! The forms that the dialect describes.  `n` bounds the registers that the ops mention. -/

structure Below (n : Nat) (op : Op) : Prop where
  operands : ∀ v ∈ op.operands, ∀ r ∈ v.regs, r < n
  defines : ∀ r, op.defines = some r → r < n

/-- What a then, else or body region ends in. -/
inductive ArmEnd (n : Nat) : Op → Prop where
  | yield : ArmEnd n .yield
  | leave (value : Option Operand) (below : Below n (.cminusReturn value)) :
      ArmEnd n (.cminusReturn value)

/-- An op before the end of a block or region. -/
inductive Inner (n : Nat) : Op → Prop where
  | straight (op : Op) (inside : op.isTerminator = false) (flat : op.isCMinus = false)
      (below : Below n op) : Inner n op
  | indexCheck (index : Operand) (below : Below n (.indexCheck index)) :
      Inner n (.indexCheck index)
  | ifThen (cond : Operand) (thenOps : List Op) (thenEnd : Op)
      (below : Below n (.ifs cond [] none)) (thenInner : ∀ op ∈ thenOps, Inner n op)
      (thenEnds : ArmEnd n thenEnd) : Inner n (.ifs cond (thenOps ++ [thenEnd]) none)
  | ifElse (cond : Operand) (thenOps elseOps : List Op) (thenEnd elseEnd : Op)
      (below : Below n (.ifs cond [] none)) (thenInner : ∀ op ∈ thenOps, Inner n op)
      (thenEnds : ArmEnd n thenEnd) (elseInner : ∀ op ∈ elseOps, Inner n op)
      (elseEnds : ArmEnd n elseEnd) :
      Inner n (.ifs cond (thenOps ++ [thenEnd]) (some (elseOps ++ [elseEnd])))
  | whiles (value : Operand) (condOps bodyOps : List Op) (bodyEnd : Op)
      (below : Below n (.condition value)) (condInner : ∀ op ∈ condOps, Inner n op)
      (bodyInner : ∀ op ∈ bodyOps, Inner n op) (bodyEnds : ArmEnd n bodyEnd) :
      Inner n (.whiles (condOps ++ [.condition value]) (bodyOps ++ [bodyEnd]))

/-- A function body before the conversion. -/
def Body (n : Nat) (ops : List Op) : Prop :=
  ∃ inner value, ops = inner ++ [.cminusReturn value] ∧ (∀ op ∈ inner, Inner n op) ∧
    Below n (.cminusReturn value)

/-! The blocks on the way: in between they may also end in a terminator of a graph, with
branches to blocks that are `known`. -/

inductive BlockEnd (n : Nat) (known : Nat → Prop) : Op → Prop where
  | leave (value : Option Operand) (below : Below n (.cminusReturn value)) :
      BlockEnd n known (.cminusReturn value)
  | flat (op : Op) (terminator : op.isTerminator = true) (plain : op.isCMinus = false)
      (targets : ∀ b ∈ op.successors, known b) (below : Below n op) : BlockEnd n known op

def Block (n : Nat) (known : Nat → Prop) (ops : List Op) : Prop :=
  ∃ inner last, ops = inner ++ [last] ∧ (∀ op ∈ inner, Inner n op) ∧ BlockEnd n known last

variable {n n' : Nat} {known known' : Nat → Prop} {ops : List Op} {op : Op}

theorem Body.block (h : Body n ops) : Block n known ops := by
  obtain ⟨inner, value, hops, hinner, hbelow⟩ := h
  exact ⟨inner, _, hops, hinner, .leave value hbelow⟩

theorem Below.mono (h : Below n op) (hn : n ≤ n') : Below n' op := by
  constructor
  · intro v hv r hr
    exact (h.operands v hv r hr).trans_le hn
  · intro r hr
    exact (h.defines r hr).trans_le hn

theorem Below.ret {value : Option Operand} (h : Below n (.cminusReturn value)) :
    Below n (.ret value) := by
  cases value with
  | none => exact ⟨nofun, nofun⟩
  | some value => exact ⟨h.operands, nofun⟩

theorem ArmEnd.mono (h : ArmEnd n op) (hn : n ≤ n') : ArmEnd n' op := by
  cases h with
  | yield => exact .yield
  | leave value below => exact .leave value (below.mono hn)

theorem Inner.mono (h : Inner n op) (hn : n ≤ n') : Inner n' op := by
  induction h with
  | straight op inside flat below => exact .straight op inside flat (below.mono hn)
  | indexCheck index below => exact .indexCheck index (below.mono hn)
  | ifThen cond thenOps thenEnd below _ thenEnds ih =>
      exact .ifThen cond thenOps thenEnd (below.mono hn) ih (thenEnds.mono hn)
  | ifElse cond thenOps elseOps thenEnd elseEnd below _ thenEnds _ elseEnds ih ih' =>
      exact .ifElse cond thenOps elseOps thenEnd elseEnd (below.mono hn) ih (thenEnds.mono hn)
        ih' (elseEnds.mono hn)
  | whiles value condOps bodyOps bodyEnd below _ _ bodyEnds ih ih' =>
      exact .whiles value condOps bodyOps bodyEnd (below.mono hn) ih ih' (bodyEnds.mono hn)

theorem BlockEnd.mono (h : BlockEnd n known op) (hn : n ≤ n')
    (hknown : ∀ b, known b → known' b) : BlockEnd n' known' op := by
  cases h with
  | leave value below => exact .leave value (below.mono hn)
  | flat _ terminator plain targets below =>
      exact .flat op terminator plain (fun b hb => hknown b (targets b hb)) (below.mono hn)

theorem Block.mono (h : Block n known ops) (hn : n ≤ n') (hknown : ∀ b, known b → known' b) :
    Block n' known' ops := by
  obtain ⟨inner, last, hops, hinner, hlast⟩ := h
  exact ⟨inner, last, hops, fun op hop => (hinner op hop).mono hn, hlast.mono hn hknown⟩

/-! Where a block has an op of the dialect, a pattern applies. -/

theorem Inner.not_terminator (h : Inner n op) : op.isTerminator = false := by
  cases h with
  | straight _ inside => exact inside
  | _ => rfl

theorem ArmEnd.terminator (h : ArmEnd n op) : op.isTerminator = true := by
  cases h <;> rfl

theorem BlockEnd.terminator (h : BlockEnd n known op) : op.isTerminator = true := by
  cases h with
  | leave => rfl
  | flat _ terminator => exact terminator

/-- The parts of a block around an op. -/
theorem Block.split (h : Block n known ops) {position : Nat} (hop : ops[position]? = some op) :
    ∃ inner rest, ops = inner ++ op :: rest ∧ position = inner.length ∧
      (∀ op ∈ inner, Inner n op) ∧
      ((Inner n op ∧ Block n known rest) ∨ (BlockEnd n known op ∧ rest = [])) := by
  obtain ⟨inner, last, rfl, hinner, hlast⟩ := h
  by_cases hposition : position < inner.length
  · rw [List.getElem?_append_left hposition] at hop
    obtain ⟨hlt, rfl⟩ := List.getElem?_eq_some_iff.mp hop
    refine ⟨inner.take position, inner.drop (position + 1) ++ [last], ?_, ?_, ?_, .inl ⟨?_, ?_⟩⟩
    · have hsplit := List.take_append_drop position inner
      rw [List.drop_eq_getElem_cons hlt] at hsplit
      calc
        inner ++ [last] = (inner.take position ++ inner[position] :: inner.drop (position + 1)) ++
            [last] := by rw [hsplit]
        _ = _ := by rw [List.append_assoc, List.cons_append]
    · simp [Nat.le_of_lt hlt]
    · intro op hop
      exact hinner op (List.mem_of_mem_take hop)
    · exact hinner _ (List.getElem_mem hlt)
    · exact ⟨_, last, rfl, fun op hop => hinner op (List.mem_of_mem_drop hop), hlast⟩
  · have hlength := (List.getElem?_eq_some_iff.mp hop).1
    rw [List.length_append, List.length_singleton] at hlength
    obtain rfl : position = inner.length := by omega
    rw [List.getElem?_concat_length] at hop
    obtain rfl := Option.some.inj hop
    exact ⟨inner, [], rfl, rfl, hinner, .inr ⟨hlast, rfl⟩⟩

theorem Block.parts {before rest : List Op} (h : Block n known (before ++ op :: rest)) :
    (∀ op ∈ before, Inner n op) ∧
      ((Inner n op ∧ Block n known rest) ∨ (BlockEnd n known op ∧ rest = [])) := by
  have hop : (before ++ op :: rest)[before.length]? = some op := by simp
  obtain ⟨inner, rest', hops, hlength, hinner, hparts⟩ := h.split hop
  obtain ⟨rfl, hrest⟩ := List.append_inj hops hlength
  obtain ⟨-, rfl⟩ := List.cons.inj hrest
  exact ⟨hinner, hparts⟩

theorem Block.inside {before rest : List Op} (h : Block n known (before ++ op :: rest))
    (hop : op.isTerminator = false) : Inner n op ∧ Block n known rest := by
  rcases h.parts.2 with hinner | ⟨hend, -⟩
  · exact hinner
  · rw [hend.terminator] at hop
    cases hop

end CMinusToCF

end CMinus
