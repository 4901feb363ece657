import CMinus.IRGen.EmitExpr

namespace CMinus

namespace IRGenerator

open SSA IR

/-! Statements.  A statement either leaves the current block open or completes it. -/

mutual

def closes : Stmt → Bool
  | .compound _ _ stmts => someCloses stmts
  | .ret _ _ => true
  | _ => false

def someCloses : List Stmt → Bool
  | [] => false
  | stmt :: stmts => closes stmt || someCloses stmts

end

/-- A bare array in an expression statement. -/
def bareArray : Expr → List SourceLocation
  | .var head none => if head.info.type = .intArray then [head.info.loc] else []
  | _ => []

/-! The bare arrays among the statements for which code is emitted. -/

mutual

def bareArrays : Stmt → List SourceLocation
  | .compound _ _ stmts => bareArraysOf stmts
  | .expr _ (some e) => bareArray e
  | .ifs _ _ thenStmt none => bareArrays thenStmt
  | .ifs _ _ thenStmt (some elseStmt) => bareArrays thenStmt ++ bareArrays elseStmt
  | .whiles _ _ body => bareArrays body
  | .expr _ none | .ret _ _ => []

def bareArraysOf : List Stmt → List SourceLocation
  | [] => []
  | stmt :: stmts => bareArrays stmt ++ if closes stmt then [] else bareArraysOf stmts

end

def reported (bare : List SourceLocation) : Diagnostics :=
  bare.map fun loc => ⟨.error, loc, "internal error: array used as a value"⟩

@[simp] theorem reported_append (first second : List SourceLocation) :
    reported (first ++ second) = reported first ++ reported second := by
  simp [reported]

inductive Left (c : Scene) (K : Nat → Set Fact) (P : Set Nat) (A : Set Fact)
    (g : IRGenerator) : Bool → Prop where
  | shut (h : Shut c K P g) : Left c K P A g true
  | open (A' : Set Fact) (hmore : A ⊆ A') (h : Ready c K P A' g) : Left c K P A g false

/-- What the emission of a statement promises, wherever it starts. -/
def EmitsStmt (c : Scene) (action : IRGenM Unit) (closed : Bool)
    (bare : List SourceLocation) : Prop :=
  ∀ P K A g, Ready c K P A g → Run action g fun _ g' => ∃ K',
    Next c g.builder.nextBlock K g K' g' ∧ g'.diags = g.diags ++ reported bare ∧
      Left c K' P A g' closed

variable {c : Scene} {P Q : Set Nat} {K : Nat → Set Fact} {A B : Set Fact}
  {g : IRGenerator} {base block : Nat}

theorem Run.assoc {α β γ : Type} {first : IRGenM α} {second : α → IRGenM β}
    {next : β → IRGenM γ} {R : γ → IRGenerator → Prop}
    (h : Run ((first >>= second) >>= next) g R) :
    Run (first >>= fun a => second a >>= next) g R := h

theorem Run.emits {α β : Type} {action : IRGenM α} {next : α → IRGenM β}
    {R : α → Set Fact → Prop} {T : β → IRGenerator → Prop} (h : Emits c P action K A g R)
    (hnext : ∀ a K' A' g', Next c g.builder.nextBlock K g K' g' → Ready c K' P A' g' →
      A ⊆ A' → g'.diags = g.diags → R a A' → Run (next a) g' T) :
    Run (action >>= next) g T := by
  obtain ⟨K', A', hfirst, hready, hmore, hdiags, hR⟩ := h
  exact hnext _ K' A' _ hfirst hready hmore hdiags hR

theorem blockOpen_ready (h : Ready c K P A g) : blockOpen g = (true, g) := by
  unfold blockOpen
  cases hlast : (g.builder.code g.builder.cur).getLast? with
  | none => rfl
  | some i =>
      have hopen := h.at_.isOpen i (List.mem_of_getLast? hlast)
      change i.isTerminator = false at hopen
      simp [hopen]

theorem blockOpen_shut (h : Shut c K P g) : blockOpen g = (false, g) := by
  obtain ⟨body, last, hcode, -, hterm⟩ := h.closed
  change last.isTerminator = true at hterm
  unfold blockOpen
  simp [hcode, hterm]

theorem run_unlessClosed_ready {action : IRGenM Unit} {R : Unit → IRGenerator → Prop}
    (h : Ready c K P A g) (hrun : Run action g R) : Run (unlessClosed action) g R := by
  unfold unlessClosed
  apply Run.bind
  unfold Run at hrun ⊢
  rw [blockOpen_ready h]
  exact hrun

theorem run_unlessClosed_shut {action : IRGenM Unit} {R : Unit → IRGenerator → Prop}
    (h : Shut c K P g) (hR : R () g) : Run (unlessClosed action) g R := by
  unfold unlessClosed
  apply Run.bind
  unfold Run
  rw [blockOpen_shut h]
  exact hR

/-- A branch, with nothing to check but its target. -/
theorem Ready.branch (h : Ready c K P A g) {t : Nat} (hK : K t ⊆ A)
    (hentry : c.entry < t) (hborn : t < g.builder.nextBlock) :
    Shut c K P { g with builder := g.builder.append (.br t) } := by
  refine h.close (i := .br t) rfl trivial ?_ ?_
  · intro b hb
    rw [List.mem_singleton.mp hb]
    exact ⟨hentry, hborn⟩
  · intro b hb fact hfact
    rw [List.mem_singleton.mp hb] at hfact
    exact .inl (hK hfact)

/-- A block that is still empty and relies on `A`. -/
structure Waiting (c : Scene) (K : Nat → Set Fact) (A : Set Fact) (g : IRGenerator)
    (block : Nat) : Prop where
  entry : c.entry < block
  born : block < g.builder.nextBlock
  facts : K block = A
  empty : g.builder.code block = []
  addressed : Addressed c A g

theorem Waiting.moveTo (hwaiting : Waiting c K A g block) (h : Shut c K Q g)
    (hplaced : block ∈ g.builder.layout) (hQ : ∀ d ∈ Q, d = block ∨ d ∈ P) :
    Ready c K P A { g with builder := g.builder.moveTo block } := by
  have hready := h.moveTo (Q := P) hplaced hwaiting.empty hQ
    (hwaiting.facts.symm ▸ hwaiting.addressed)
  rwa [hwaiting.facts] at hready

theorem Waiting.later {K' : Nat → Set Fact} {g' : IRGenerator} {block : Nat}
    (hwaiting : Waiting c K A g block) (h : Next c base K g K' g')
    (hcode : g'.builder.code block = g.builder.code block) : Waiting c K' A g' block :=
  ⟨hwaiting.entry, hwaiting.born.trans_le h.grows.blocks,
    (h.agrees block hwaiting.born).trans hwaiting.facts, hcode.trans hwaiting.empty,
    hwaiting.addressed.mono subset_rfl h.addresses⟩

/-- One arm: a block that is filled with a statement and leads on to `next`. -/
theorem run_arm {action : IRGenM Unit} {closed : Bool} {bare : List SourceLocation}
    (haction : EmitsStmt c action closed bare) {block next : Nat} (h : Shut c K Q g)
    (hwaiting : Waiting c K A g block) (hplaced : block ∈ g.builder.layout)
    (hbase : base ≤ block) (hQ : ∀ d ∈ Q, d = block ∨ d ∈ P)
    (hentry : c.entry < next) (hborn : next < g.builder.nextBlock) (hK : K next = A) :
    Run (do
      setInsertPoint block
      action
      unlessClosed (emit (.br next))) g fun _ g' => ∃ K', Next c base K g K' g' ∧
        g'.diags = g.diags ++ reported bare ∧ Shut c K' P g' ∧
        (∀ b, b ≠ block → Waiting c K A g b → Waiting c K' A g' b) ∧
        ∀ b, b < g.builder.nextBlock → (b ∈ g'.builder.layout ↔ b ∈ g.builder.layout) := by
  have hready := hwaiting.moveTo h hplaced hQ
  have hmove : Next c base K g K { g with builder := g.builder.moveTo block } :=
    .moveTo c K g hbase
  have hbaseNext : base ≤ g.builder.nextBlock := hbase.trans (Nat.le_of_lt hwaiting.born)
  have hresult : ∀ {K' : Nat → Set Fact} {g' : IRGenerator},
      Next c g.builder.nextBlock K { g with builder := g.builder.moveTo block } K' g' →
      g'.diags = g.diags ++ reported bare → Shut c K' P g' →
      ∃ K', Next c base K g K' g' ∧
        g'.diags = g.diags ++ reported bare ∧ Shut c K' P g' ∧
        (∀ b, b ≠ block → Waiting c K A g b → Waiting c K' A g' b) ∧
        ∀ b, b < g.builder.nextBlock → (b ∈ g'.builder.layout ↔ b ∈ g.builder.layout) := by
    intro K' g' hnext hdiags hshut
    have hall := hmove.trans (hnext.mono hbaseNext)
    refine ⟨K', hall, hdiags, hshut, ?_, ?_⟩
    · intro b hne hb
      exact hb.later hall (hnext.grows.frame b hb.born hne)
    · obtain ⟨new, hlayout, hnew⟩ := hnext.layout
      intro b hb
      rw [hlayout, List.mem_append]
      refine ⟨fun hmem => hmem.resolve_right fun hlater => ?_, .inl⟩
      exact absurd (hnew b hlater) (Nat.not_le_of_lt hb)
  refine Run.bind (run_setInsertPoint (Run.bind ?_))
  refine Run.mono (haction P K _ _ hready) ?_
  rintro - g1 ⟨K1, hnext, hdiags, hleft⟩
  cases hleft with
  | shut hshut => exact run_unlessClosed_shut hshut (hresult hnext hdiags hshut)
  | «open» A1 hmore hready1 =>
      have hagrees : K1 next = A := (hnext.agrees next hborn).trans hK
      have hshut := hready1.branch (t := next) (hagrees.subset.trans hmore) hentry
        (hborn.trans_le hnext.grows.blocks)
      exact run_unlessClosed_ready hready1
        (run_emit (hresult (hnext.trans (.append c _ K1 g1 (.br next))) hdiags hshut))

/-- The block after the arms. -/
theorem run_join {block : Nat} (h : Shut c K (insert block P) g)
    (hwaiting : Waiting c K A g block) (hnew : block ∉ g.builder.layout)
    (hbase : base ≤ block) :
    Run (do
      insertAtEnd block
      setInsertPoint block) g fun _ g' =>
        Next c base K g K g' ∧ Ready c K P A g' ∧ g'.diags = g.diags := by
  have hnext := Next.attach c K g hbase
  have hattached := h.attach (Nat.le_of_lt hwaiting.entry) hwaiting.born hnew
  have hready := (hwaiting.later hnext rfl).moveTo (P := P) hattached (by simp)
    fun d hd => hd
  refine Run.bind (run_insertAtEnd (run_setInsertPoint ?_))
  exact ⟨hnext.trans (.moveTo c K _ hbase), hready, rfl⟩

/-- A conditional branch to two blocks which rely on no more than what is known. -/
theorem Ready.fork (h : Ready c K P A g) {cond : Operand} {t f : Nat}
    (hcond : c.HasTy A cond .i1) (hK : ∀ b, b = t ∨ b = f → K b ⊆ A ∧
      c.entry < b ∧ b < g.builder.nextBlock) :
    Shut c K P { g with builder := g.builder.append (.condBr cond t f) } := by
  have htargets : ∀ b ∈ (Instr.condBr cond t f).successors,
      b = t ∨ b = f := by
    intro b hb
    simpa [Instr.successors] using hb
  refine h.close (i := .condBr cond t f) rfl hcond ?_ ?_
  · intro b hb
    exact (hK b (htargets b hb)).2
  · intro b hb fact hfact
    exact .inl ((hK b (htargets b hb)).1 hfact)

/-- What the emission of a condition promises, wherever it starts. -/
def EmitsCondition (c : Scene) (action : IRGenM Operand) : Prop :=
  ∀ P K A g, Ready c K P A g → Emits c P action K A g fun v A' => c.HasTy A' v .i1

/-- New blocks, all of which rely on what is known at the insertion point; those in
`placed` are at the end of the function already. -/
structure Prepared (c : Scene) (K : Nat → Set Fact) (P : Set Nat) (A : Set Fact)
    (g : IRGenerator) (count : Nat) (placed : List Nat) (K' : Nat → Set Fact)
    (g' : IRGenerator) : Prop where
  origin : Ready c K P A g
  next : Next c g.builder.nextBlock K g K' g'
  ready : Ready c K' { b | b ∈ P ∨ g.builder.nextBlock ≤ b ∧ b < g.builder.nextBlock + count }
    A g'
  facts : ∀ b, g.builder.nextBlock ≤ b → b < g.builder.nextBlock + count → K' b = A
  blocks : g'.builder.nextBlock = g.builder.nextBlock + count
  cur : g'.builder.cur = g.builder.cur
  code : g'.builder.code = g.builder.code
  layout : g'.builder.layout = g.builder.layout ++ placed
  diags : g'.diags = g.diags

namespace Prepared

variable {count : Nat} {placed : List Nat} {K' : Nat → Set Fact} {g' : IRGenerator}

theorem zero (h : Ready c K P A g) : Prepared c K P A g 0 [] K g := by
  refine ⟨h, .refl c _ K g, ?_, fun b hle hlt => by omega, rfl, rfl, rfl, by simp, rfl⟩
  have hsame : { b | b ∈ P ∨ g.builder.nextBlock ≤ b ∧ b < g.builder.nextBlock + 0 } = P := by
    ext b
    constructor
    · rintro (hb | hb)
      · exact hb
      · omega
    · exact Or.inl
  rwa [hsame]

private theorem pending_succ (P : Set Nat) (n count : Nat) :
    insert (n + count) { b | b ∈ P ∨ n ≤ b ∧ b < n + count } =
      { b | b ∈ P ∨ n ≤ b ∧ b < n + (count + 1) } := by
  ext b
  simp only [Set.mem_insert_iff, Set.mem_ofPred_eq]
  by_cases hb : b ∈ P
  · simp [hb]
  · simp only [hb, false_or]
    omega

private theorem facts_succ (h : Prepared c K P A g count placed K' g') :
    ∀ b, g.builder.nextBlock ≤ b → b < g.builder.nextBlock + (count + 1) →
      Function.update K' g'.builder.nextBlock A b = A := by
  intro b hle hlt
  by_cases hb : b = g'.builder.nextBlock
  · rw [hb, Function.update_self]
  · rw [Function.update_of_ne hb]
    have hblocks := h.blocks
    exact h.facts b hle (by omega)

theorem newBlock (h : Prepared c K P A g count placed K' g') :
    Prepared c K P A g (count + 1) placed (Function.update K' g'.builder.nextBlock A)
      { g' with builder := g'.builder.newBlock } := by
  have hready := h.ready.newBlock h.ready.at_.grounded
  rw [show g'.builder.nextBlock = g.builder.nextBlock + count from h.blocks,
    pending_succ] at hready
  refine ⟨h.origin, h.next.trans (.newBlock c _ K' g' A), ?_, h.facts_succ, ?_, h.cur, h.code,
    h.layout, h.diags⟩
  · rw [h.blocks]
    exact hready
  · rw [Builder.newBlock_nextBlock, h.blocks]
    rfl

theorem createBlock (h : Prepared c K P A g count placed K' g') :
    Prepared c K P A g (count + 1) (placed ++ [g'.builder.nextBlock])
      (Function.update K' g'.builder.nextBlock A)
      { g' with builder := g'.builder.newBlock.attach g'.builder.nextBlock } := by
  have hready := h.ready.createBlock h.ready.at_.grounded
  rw [show g'.builder.nextBlock = g.builder.nextBlock + count from h.blocks,
    pending_succ] at hready
  refine ⟨h.origin, h.next.trans (.createBlock c K' g' A h.next.grows.blocks), ?_, h.facts_succ,
    ?_, h.cur, h.code, ?_, h.diags⟩
  · rw [h.blocks]
    exact hready
  · rw [Builder.attach_nextBlock, Builder.newBlock_nextBlock, h.blocks]
    rfl
  · rw [Builder.attach_layout, Builder.newBlock_layout, h.layout, List.append_assoc]

/-! The new blocks, after a terminator has closed the current one. -/

variable (h : Prepared c K P A g count placed K' g')
include h

theorem waiting (i : Instr) {b : Nat} (hle : g.builder.nextBlock ≤ b)
    (hlt : b < g.builder.nextBlock + count) :
    Waiting c K' A { g' with builder := g'.builder.append i } b := by
  have hinside := h.origin.at_.inside
  have hborn := h.origin.at_.born
  have hne : b ≠ g'.builder.cur := by
    rw [h.cur]
    omega
  refine ⟨by omega, hlt.trans_eq h.blocks.symm, h.facts b hle hlt, ?_,
    h.ready.addressed.mono subset_rfl rfl⟩
  exact (Builder.append_code_of_ne _ _ hne).trans
    ((congrFun h.code b).trans (h.origin.sound.valid.unborn b hle))

theorem fork {cond : Operand} {t f : Nat} (hcond : c.HasTy A cond .i1)
    (hb : ∀ b, b = t ∨ b = f →
      g.builder.nextBlock ≤ b ∧ b < g.builder.nextBlock + count) :
    Shut c K' { b | b ∈ P ∨ g.builder.nextBlock ≤ b ∧ b < g.builder.nextBlock + count }
      { g' with builder := g'.builder.append (.condBr cond t f) } := by
  refine h.ready.fork hcond fun b htarget => ?_
  have hwaiting := h.waiting (.condBr cond t f) (hb b htarget).1 (hb b htarget).2
  exact ⟨hwaiting.facts.subset, hwaiting.entry, hwaiting.born⟩

theorem unplaced {b : Nat} (hle : g.builder.nextBlock ≤ b) (hb : b ∉ placed) :
    b ∉ g'.builder.layout := by
  rw [h.layout]
  intro hmem
  rcases List.mem_append.mp hmem with hmem | hmem
  · exact absurd (h.origin.listed b hmem).2 (by omega)
  · exact hb hmem

end Prepared

theorem emits_emitIf {cond : IRGenM Operand} {thenStmt : IRGenM Unit} {closed : Bool}
    {bare : List SourceLocation} (hcond : EmitsCondition c cond)
    (hthen : EmitsStmt c thenStmt closed bare) :
    EmitsStmt c (emitIf cond thenStmt none) false bare := by
  intro P K A g h
  unfold emitIf
  refine Run.emits (hcond P K A g h) ?_
  intro v K1 A1 g1 hnext1 hready1 hmore1 hdiags1 hcondTy
  have hprepared := (Prepared.zero hready1).createBlock.newBlock
  refine Run.bind (run_createBlock (Run.bind (run_newBlock ?_)))
  simp only [Builder.attach_nextBlock, Builder.newBlock_nextBlock] at hprepared ⊢
  generalize hn : g1.builder.nextBlock = n at hprepared ⊢
  generalize ({ g1 with builder := (g1.builder.newBlock.attach n).newBlock } : IRGenerator) = g2
    at hprepared ⊢
  generalize Function.update (Function.update K1 n A1) (n + 1) A1 = K2 at hprepared
  have hfork := hprepared.fork (t := n) (f := n + 1) hcondTy (by omega)
  have hthenBlock := hprepared.waiting (.condBr v n (n + 1)) (b := n) (by omega) (by omega)
  have hendBlock := hprepared.waiting (.condBr v n (n + 1)) (b := n + 1) (by omega) (by omega)
  refine Run.bind (run_emit ?_)
  change Run ((do
    setInsertPoint n
    thenStmt
    unlessClosed (emit (.br (n + 1)))) >>= fun _ => do
      insertAtEnd (n + 1)
      setInsertPoint (n + 1)) _ _
  refine Run.bind (Run.mono (run_arm (P := insert (n + 1) P) hthen hfork hthenBlock
    ?_ le_rfl ?_ hendBlock.entry hendBlock.born hendBlock.facts) ?_)
  · simp [hprepared.layout]
  · intro d hd
    rcases hd with hP | ⟨hle, hlt⟩
    · exact .inr (.inr hP)
    · rcases (by omega : d = n ∨ d = n + 1) with rfl | rfl
      · exact .inl rfl
      · exact .inr (.inl rfl)
  · rintro - g4 ⟨K4, hnext4, hdiags4, hshut4, hwaiting4, hlayout4⟩
    have hend4 := hwaiting4 (n + 1) (by omega) hendBlock
    refine Run.mono (run_join hshut4 hend4 ?_ (show n ≤ n + 1 by omega)) ?_
    · rw [hlayout4 (n + 1) hendBlock.born]
      exact hprepared.unplaced (by omega) (by simp)
    · rintro - g5 ⟨hnext5, hready5, hdiags5⟩
      have hafter := (hprepared.next.trans (.append c _ K2 g2 (.condBr v n (n + 1))))
      rw [hn] at hafter
      refine ⟨K4, hnext1.trans (((hafter.trans hnext4).trans hnext5).mono ?_), ?_,
        .open A1 hmore1 hready5⟩
      · exact hnext1.grows.blocks.trans_eq hn
      · rw [hdiags5, hdiags4, hprepared.diags, hdiags1]

theorem emits_emitIfElse {cond : IRGenM Operand} {thenStmt elseStmt : IRGenM Unit}
    {thenClosed elseClosed : Bool} {thenBare elseBare : List SourceLocation}
    (hcond : EmitsCondition c cond) (hthen : EmitsStmt c thenStmt thenClosed thenBare)
    (helse : EmitsStmt c elseStmt elseClosed elseBare) :
    EmitsStmt c (emitIf cond thenStmt (some elseStmt)) false (thenBare ++ elseBare) := by
  intro P K A g h
  unfold emitIf
  refine Run.emits (hcond P K A g h) ?_
  intro v K1 A1 g1 hnext1 hready1 hmore1 hdiags1 hcondTy
  have hprepared := (Prepared.zero hready1).createBlock.createBlock.newBlock
  refine Run.bind (run_createBlock (Run.bind (run_createBlock (Run.bind (run_newBlock ?_)))))
  simp only [Builder.attach_nextBlock, Builder.newBlock_nextBlock] at hprepared ⊢
  generalize hn : g1.builder.nextBlock = n at hprepared ⊢
  generalize ({ g1 with builder :=
    (((g1.builder.newBlock.attach n).newBlock).attach (n + 1)).newBlock } : IRGenerator) = g2
    at hprepared ⊢
  generalize Function.update (Function.update (Function.update K1 n A1) (n + 1) A1)
    (n + 1 + 1) A1 = K2 at hprepared
  have hfork := hprepared.fork (t := n) (f := n + 1) hcondTy (by omega)
  have hthenBlock := hprepared.waiting (.condBr v n (n + 1)) (b := n) (by omega) (by omega)
  have helseBlock := hprepared.waiting (.condBr v n (n + 1)) (b := n + 1) (by omega) (by omega)
  have hendBlock := hprepared.waiting (.condBr v n (n + 1)) (b := n + 2) (by omega) (by omega)
  refine Run.bind (run_emit ?_)
  change Run ((do
    setInsertPoint n
    thenStmt
    unlessClosed (emit (.br (n + 2)))) >>= fun _ => (do
      setInsertPoint (n + 1)
      elseStmt
      unlessClosed (emit (.br (n + 2)))) >>= fun _ => do
        insertAtEnd (n + 2)
        setInsertPoint (n + 2)) _ _
  refine Run.bind (Run.mono (run_arm (P := insert (n + 1) (insert (n + 2) P)) hthen
    hfork hthenBlock ?_ le_rfl ?_ hendBlock.entry hendBlock.born hendBlock.facts) ?_)
  · simp [hprepared.layout]
  · intro d hd
    rcases hd with hP | ⟨hle, hlt⟩
    · exact .inr (.inr (.inr hP))
    · rcases (by omega : d = n ∨ d = n + 1 ∨ d = n + 2) with rfl | rfl | rfl
      · exact .inl rfl
      · exact .inr (.inl rfl)
      · exact .inr (.inr (.inl rfl))
  rintro - g4 ⟨K4, hnext4, hdiags4, hshut4, hwaiting4, hlayout4⟩
  have helse4 := hwaiting4 (n + 1) (by omega) helseBlock
  have hend4 := hwaiting4 (n + 2) (by omega) hendBlock
  refine Run.bind (Run.mono (run_arm (P := insert (n + 2) P) helse hshut4 helse4
    ?_ (show n ≤ n + 1 by omega) (fun d hd => hd) hend4.entry hend4.born hend4.facts) ?_)
  · rw [hlayout4 (n + 1) helseBlock.born]
    simp [hprepared.layout]
  rintro - g5 ⟨K5, hnext5, hdiags5, hshut5, hwaiting5, hlayout5⟩
  have hend5 := hwaiting5 (n + 2) (by omega) hend4
  refine Run.mono (run_join hshut5 hend5 ?_ (show n ≤ n + 2 by omega)) ?_
  · rw [hlayout5 (n + 2) hend4.born, hlayout4 (n + 2) hendBlock.born]
    exact hprepared.unplaced (by omega) (by simp)
  rintro - g6 ⟨hnext6, hready6, hdiags6⟩
  have hafter := (hprepared.next.trans (.append c _ K2 g2 (.condBr v n (n + 1))))
  rw [hn] at hafter
  refine ⟨K5, hnext1.trans ((((hafter.trans hnext4).trans hnext5).trans hnext6).mono ?_), ?_,
    .open A1 hmore1 hready6⟩
  · exact hnext1.grows.blocks.trans_eq hn
  · rw [hdiags6, hdiags5, hdiags4, hprepared.diags, hdiags1, reported_append, List.append_assoc]

/-- The blocks of a loop rely on what is known before it. -/
theorem emits_emitWhile {cond : IRGenM Operand} {body : IRGenM Unit} {closed : Bool}
    {bare : List SourceLocation} (hcond : EmitsCondition c cond)
    (hbody : EmitsStmt c body closed bare) :
    EmitsStmt c (emitWhile cond body) false bare := by
  intro P K A g h
  unfold emitWhile
  have hprepared := (Prepared.zero h).createBlock.createBlock.createBlock
  refine Run.bind (run_createBlock (Run.bind (run_createBlock (Run.bind (run_createBlock ?_)))))
  simp only [Builder.attach_nextBlock, Builder.newBlock_nextBlock] at hprepared ⊢
  generalize hn : g.builder.nextBlock = n at hprepared ⊢
  generalize ({ g with builder :=
    ((((g.builder.newBlock.attach n).newBlock).attach (n + 1)).newBlock).attach (n + 1 + 1) } :
      IRGenerator) = g2 at hprepared ⊢
  generalize Function.update (Function.update (Function.update K n A) (n + 1) A)
    (n + 1 + 1) A = K2 at hprepared
  have hcondBlock := hprepared.waiting (.br n) (b := n) (by omega) (by omega)
  have hbodyBlock := hprepared.waiting (.br n) (b := n + 1) (by omega) (by omega)
  have hendBlock := hprepared.waiting (.br n) (b := n + 2) (by omega) (by omega)
  have hshut2 := hprepared.ready.branch (t := n) hcondBlock.facts.subset hcondBlock.entry
    hcondBlock.born
  have hplaced : ∀ b, b = n ∨ b = n + 1 ∨ b = n + 2 → b ∈ g2.builder.layout := by
    intro b hb
    rw [hprepared.layout]
    rcases hb with rfl | rfl | rfl <;> simp
  have hready3 := hcondBlock.moveTo (P := insert (n + 1) (insert (n + 2) P)) hshut2
    (hplaced n (.inl rfl)) (by
      intro d hd
      rcases hd with hP | ⟨hle, hlt⟩
      · exact .inr (.inr (.inr hP))
      · rcases (by omega : d = n ∨ d = n + 1 ∨ d = n + 2) with rfl | rfl | rfl
        · exact .inl rfl
        · exact .inr (.inl rfl)
        · exact .inr (.inr (.inl rfl)))
  refine Run.bind (run_emit (Run.bind (run_setInsertPoint ?_)))
  refine Run.emits (hcond _ _ _ _ hready3) ?_
  intro v K4 A4 g4 hnext4 hready4 hmore4 hdiags4 hcondTy
  have hstart : Next c n K g K2 { g2 with builder := (g2.builder.append (.br n)).moveTo n } := by
    have hnext2 := hprepared.next
    rw [hn] at hnext2
    exact (hnext2.trans (.append c n K2 g2 (.br n))).trans (.moveTo c K2 _ le_rfl)
  have hstay : ∀ b, b ≠ n → Waiting c K2 A { g2 with builder := g2.builder.append (.br n) } b →
      Waiting c K4 A g4 b ∧ b ≠ g4.builder.cur := by
    intro b hne hb
    obtain ⟨hcode, hcur⟩ := hnext4.grows.untouched hb.born hne
    exact ⟨(hb.later (.moveTo c K2 _ (Nat.zero_le n)) rfl).later hnext4 hcode, hcur⟩
  obtain ⟨hbody4, hbodyCur⟩ := hstay (n + 1) (by omega) hbodyBlock
  obtain ⟨hend4, hendCur⟩ := hstay (n + 2) (by omega) hendBlock
  have hkept : ∀ b, b ∈ g2.builder.layout → b ∈ g4.builder.layout := by
    obtain ⟨new, hlayout, -⟩ := hnext4.layout
    intro b hb
    rw [hlayout]
    exact List.mem_append_left _ hb
  have hfork := hready4.fork (t := n + 1) (f := n + 2) hcondTy fun b hb => by
    rcases hb with rfl | rfl
    · exact ⟨hbody4.facts.subset.trans hmore4, hbody4.entry, hbody4.born⟩
    · exact ⟨hend4.facts.subset.trans hmore4, hend4.entry, hend4.born⟩
  have hbranch := Next.append c n K4 g4 (.condBr v (n + 1) (n + 2))
  have hloop : K4 n = A :=
    (hnext4.agrees n hcondBlock.born).trans hcondBlock.facts
  refine Run.bind (run_emit ?_)
  change Run ((do
    setInsertPoint (n + 1)
    body
    unlessClosed (emit (.br n))) >>= fun _ => setInsertPoint (n + 2)) _ _
  refine Run.bind (Run.mono (run_arm (P := insert (n + 2) P) hbody hfork
    (hbody4.later hbranch (Builder.append_code_of_ne _ _ hbodyCur))
    (hkept _ (hplaced (n + 1) (.inr (.inl rfl)))) (show n ≤ n + 1 by omega)
    (fun d hd => hd) hcondBlock.entry ?_ hloop) ?_)
  · exact hcondBlock.born.trans_le hnext4.grows.blocks
  rintro - g5 ⟨K5, hnext5, hdiags5, hshut5, hwaiting5, hlayout5⟩
  have hend5 := hwaiting5 (n + 2) (by omega)
    (hend4.later hbranch (Builder.append_code_of_ne _ _ hendCur))
  have hready6 := hend5.moveTo (P := P) hshut5 ((hlayout5 (n + 2) hend4.born).mpr
    (hkept _ (hplaced (n + 2) (.inr (.inr rfl))))) fun d hd => hd
  refine run_setInsertPoint ⟨K5, ?_, ?_, .open A subset_rfl hready6⟩
  · refine hstart.trans ((hnext4.mono ?_).trans (hbranch.trans (hnext5.trans
      (.moveTo c K5 g5 (by omega)))))
    exact Nat.le_of_lt hcondBlock.born
  · rw [hdiags5, hdiags4, hprepared.diags]

/-! What a function returns: `main` returns an int whatever the source says. -/

structure Scene.Returns (c : Scene) (returnType : CType) : Prop where
  type : c.function.returnType = .void ∨ c.function.returnType = .i32
  value : returnType ≠ .void → c.function.returnType = .i32

theorem Ready.currentFunction (h : Ready c K P A g) :
    (g.currentFunction.map Function.returnType = some .void) ↔
      c.function.returnType = .void := by
  rw [h.current]
  simp

theorem run_getCurrentFunction {R : Option Function → IRGenerator → Prop}
    (h : R g.currentFunction g) : Run getCurrentFunction g R := h

theorem emits_emitReturn {value : Option (IRGenM Operand)} {returnType : CType}
    (hreturns : c.Returns returnType) (hnone : value = none → returnType = .void)
    (hsome : ∀ action, value = some action → returnType ≠ .void ∧
      ∀ P, EmitsInt c P action) :
    EmitsStmt c (emitReturn value) true [] := by
  intro P K A g h
  have hnil : ∀ diags : Diagnostics, diags ++ reported [] = diags := by simp [reported]
  have hret : ∀ {K1 A1 g1} {result : Option Operand}, Ready c K1 P A1 g1 →
      (Instr.ret result).WellTyped c.signatures c.function A1 →
      Shut c K1 P { g1 with builder := g1.builder.append (.ret result) } := by
    intro K1 A1 g1 result hready hty
    exact hready.close (i := .ret result) rfl hty (by simp [Instr.successors])
      (by simp [Instr.successors])
  unfold emitReturn
  refine Run.bind (run_getCurrentFunction ?_)
  cases value with
  | none =>
      split
      · next hvoid =>
          refine run_emit ⟨K, .append c _ K g _, (hnil _).symm, .shut (hret h ?_)⟩
          exact h.currentFunction.mp hvoid
      · next hint =>
          have hne : c.function.returnType ≠ .void := fun hvoid =>
            hint (h.currentFunction.mpr hvoid)
          refine run_emit ⟨K, .append c _ K g _, (hnil _).symm, .shut (hret h ⟨hne, ?_⟩)⟩
          exact hreturns.type.resolve_left hne
  | some action =>
      obtain ⟨hne, haction⟩ := hsome action rfl
      have hint := hreturns.value hne
      split
      · next hvoid =>
          rw [h.currentFunction.mp hvoid] at hint
          cases hint
      · refine Run.emits (haction P K A g h) ?_
        intro v K1 A1 g1 hnext1 hready1 hmore1 hdiags1 hv
        refine run_emit ⟨K1, ?_, ?_, .shut (hret hready1 ⟨by rw [hint]; simp, ?_⟩)⟩
        · exact hnext1.followed (.append c _ K1 g1 _) hnext1.grows.blocks
        · rw [hnil, hdiags1]
        · rw [hint]
          exact hv

/-- The bare name of an array is reported, and nothing is emitted. -/
theorem emits_discarded (hc : c.Proper) {e : Expr} (he : e.Resolved c.visible) :
    EmitsStmt c (emitExpr c.options e >>= fun _ => pure ()) false (bareArray e) := by
  intro P K A g h
  by_cases harray : e.type = .intArray
  · obtain ⟨head, symbol, rfl, -, -⟩ := bare_of_array hc he harray
    change head.info.type = .intArray at harray
    have hreport : bareArray (.var head none) = [head.info.loc] := by
      exact if_pos harray
    unfold emitExpr emitVar
    rw [if_pos harray, hreport]
    let g' : IRGenerator :=
      { g with diags := g.diags.error head.info.loc "internal error: array used as a value" }
    have hready : Ready c K P A g' :=
      ⟨⟨h.sound, ⟨h.declared.names, h.declared.keys, h.declared.listed, h.declared.signed,
        h.declared.calls⟩, h.recorded, h.laid, h.listed, h.distinct, h.first, h.fallbacks,
        h.current⟩, h.at_, h.addressed⟩
    have hnext : Next c g.builder.nextBlock K g K g' :=
      ⟨Builder.Grows.refl _ _, fun _ _ => rfl, ⟨[], by simp [g'], by simp⟩, rfl, rfl,
        ⟨[], by simp [g'], by simp⟩, ⟨[], by simp [g'], by simp⟩, ⟨[], by simp [g'], by simp⟩⟩
    exact ⟨K, hnext, rfl, .open A subset_rfl hready⟩
  · have hreport : bareArray e = [] := by
      unfold bareArray
      split
      · next head => exact if_neg harray
      · rfl
    refine Run.emits (emits_emitExpr hc e h he harray) ?_
    intro v K1 A1 g1 hnext1 hready1 hmore1 hdiags1 _
    refine run_pure ⟨K1, hnext1, ?_, .open A1 hmore1 hready1⟩
    rw [hreport, hdiags1]
    simp [reported]

theorem emits_emitCondition (hc : c.Proper) {cond : Expr} (hcond : cond.Resolved c.visible)
    (hint : cond.type = .int) : EmitsCondition c (emitCondition c.options cond) := by
  intro P K A g h
  unfold emitCondition
  refine (emits_int hc cond hcond hint K A g h).bind ?_
  intro v K1 A1 g1 hready hmore _ hv
  exact emits_createICmp hready hv rfl

mutual

theorem emits_emitStmt (hc : c.Proper) {returnType : CType}
    (hreturns : c.Returns returnType) :
    ∀ stmt : Stmt, stmt.Resolved c.visible returnType →
      EmitsStmt c (emitStmt c.options stmt) (closes stmt) (bareArrays stmt)
  | .compound _ _ stmts, hstmts => by
      unfold emitStmt closes bareArrays
      exact emits_emitCompound hc hreturns stmts hstmts
  | .expr _ none, _ => by
      unfold emitStmt closes bareArrays
      intro P K A g h
      exact run_pure ⟨K, .refl c _ K g, by simp [reported], .open A subset_rfl h⟩
  | .expr _ (some e), he => by
      unfold emitStmt closes bareArrays
      exact emits_discarded hc he
  | .ifs _ cond thenStmt none, ⟨⟨hcond, hint⟩, hthen⟩ => by
      unfold emitStmt closes bareArrays
      exact emits_emitIf (emits_emitCondition hc hcond hint)
        (emits_emitStmt hc hreturns thenStmt hthen)
  | .ifs _ cond thenStmt (some elseStmt), ⟨⟨hcond, hint⟩, hthen, helse⟩ => by
      unfold emitStmt closes bareArrays
      exact emits_emitIfElse (emits_emitCondition hc hcond hint)
        (emits_emitStmt hc hreturns thenStmt hthen) (emits_emitStmt hc hreturns elseStmt helse)
  | .whiles _ cond body, ⟨⟨hcond, hint⟩, hbody⟩ => by
      unfold emitStmt closes bareArrays
      exact emits_emitWhile (emits_emitCondition hc hcond hint)
        (emits_emitStmt hc hreturns body hbody)
  | .ret _ none, hvoid => by
      unfold emitStmt closes bareArrays
      exact emits_emitReturn hreturns (fun _ => hvoid) (fun _ hnone => by cases hnone)
  | .ret _ (some value), ⟨hne, hvalue, hint⟩ => by
      unfold emitStmt closes bareArrays
      refine emits_emitReturn hreturns (fun hnone => by cases hnone) ?_
      rintro _ ⟨⟩
      exact ⟨hne, fun P => emits_int hc value hvalue hint⟩

theorem emits_emitCompound (hc : c.Proper) {returnType : CType}
    (hreturns : c.Returns returnType) :
    ∀ stmts : List Stmt, ResolvedStmts c.visible returnType stmts →
      EmitsStmt c (emitCompound c.options stmts) (someCloses stmts) (bareArraysOf stmts)
  | [], _ => by
      unfold emitCompound someCloses bareArraysOf
      intro P K A g h
      exact run_pure ⟨K, .refl c _ K g, by simp [reported], .open A subset_rfl h⟩
  | stmt :: stmts, ⟨hstmt, hstmts⟩ => by
      unfold emitCompound someCloses bareArraysOf
      intro P K A g h
      refine Run.bind (Run.mono (emits_emitStmt hc hreturns stmt hstmt P K A g h) ?_)
      rintro - g1 ⟨K1, hnext1, hdiags1, hleft⟩
      generalize closes stmt = closed at hleft
      cases hleft with
      | shut hshut =>
          refine run_unlessClosed_shut hshut ⟨K1, hnext1, ?_, .shut hshut⟩
          rw [if_pos rfl, List.append_nil, hdiags1]
      | «open» A1 hmore1 hready1 =>
          refine run_unlessClosed_ready hready1
            (Run.mono (emits_emitCompound hc hreturns stmts hstmts P K1 A1 g1 hready1) ?_)
          rintro - g2 ⟨K2, hnext2, hdiags2, hleft2⟩
          refine ⟨K2, hnext1.followed hnext2 hnext1.grows.blocks, ?_, ?_⟩
          · rw [hdiags2, hdiags1, if_neg (by simp), reported_append, List.append_assoc]
          · rw [Bool.false_or]
            generalize someCloses stmts = closed at hleft2
            cases hleft2 with
            | shut hshut => exact .shut hshut
            | «open» A2 hmore2 hready2 => exact .open A2 (hmore1.trans hmore2) hready2

end

end IRGenerator

end CMinus
