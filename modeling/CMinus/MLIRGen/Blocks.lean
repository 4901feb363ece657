import CMinus.SSA.Settled
import CMinus.MLIRGen.DefaultReturn
import CMinus.IRGen.Verified

namespace CMinus

namespace MLIRGenerator

open SSA MLIR

/-! Where the blocks of a function of the std flavor are.  `earlier` are the blocks that were
deleted before the function was begun, `pending` those that are still to be started. -/

def Housed (entry : Nat) (earlier pending : List Nat) (g : MLIRGenerator) : Prop :=
  ∃ gone, g.deleted = earlier ++ gone ∧ g.builder.Settled entry pending gone

def CurrentOpen (g : MLIRGenerator) : Prop := IsOpen (g.builder.code g.builder.cur)

def CurrentClosed (g : MLIRGenerator) : Prop := IsClosed (g.builder.code g.builder.cur)

variable {entry : Nat} {earlier pending : List Nat} {g g' : MLIRGenerator} {through : Bool}

theorem Housed.perm (h : Housed entry earlier pending g) {pending' : List Nat}
    (hperm : pending.Perm pending') : Housed entry earlier pending' g := by
  obtain ⟨gone, hgone, hsettled⟩ := h
  exact ⟨gone, hgone, hsettled.perm hperm⟩

theorem Housed.emit (h : Housed entry earlier pending g) {op : Op}
    (hop : ∀ c ∈ op.successors, c ∈ g.builder.layout ∨ c ∈ pending) :
    Housed entry earlier pending (emit op g).2 := by
  obtain ⟨gone, hgone, hsettled⟩ := h
  exact ⟨gone, hgone, hsettled.append hop⟩

theorem Housed.newBlock (h : Housed entry earlier pending g) :
    Housed entry earlier (g.builder.nextBlock :: pending) (newBlock g).2 := by
  obtain ⟨gone, hgone, hsettled⟩ := h
  exact ⟨gone, hgone, hsettled.newBlock⟩

theorem Housed.startBlock {block : Nat} (h : Housed entry earlier (block :: pending) g)
    (hclosed : CurrentClosed g) :
    Housed entry earlier pending (startBlock block g).2 ∧ CurrentOpen (startBlock block g).2 := by
  obtain ⟨gone, hgone, hsettled⟩ := h
  refine ⟨⟨gone, hgone, hsettled.start hclosed⟩, ?_⟩
  unfold CurrentOpen
  change IsOpen (g.builder.code block)
  rw [hsettled.unstarted]
  exact IsOpen.nil

theorem CurrentOpen.close (h : CurrentOpen g) {op : Op} (hop : op.isTerminator = true) :
    CurrentClosed (emit op g).2 := by
  unfold CurrentClosed
  change IsClosed ((g.builder.append op).code g.builder.cur)
  rw [Builder.append_code_cur]
  exact IsOpen.close h hop

theorem CurrentOpen.emit (h : CurrentOpen g) {op : Op} (hop : op.isTerminator = false) :
    CurrentOpen (emit op g).2 := by
  unfold CurrentOpen
  change IsOpen ((g.builder.append op).code g.builder.cur)
  rw [Builder.append_code_cur]
  exact IsOpen.snoc h hop

theorem deleted_of_hasNoPredecessors {block : Nat} (h : (hasNoPredecessors block g).1 = true) :
    ∀ c, c < g.builder.nextBlock → ∀ op ∈ g.builder.code c, block ∉ op.successors := by
  intro c hc op hop
  have hblock := List.all_eq_true.mp h c (List.mem_range.mpr hc)
  have hsucc := List.all_eq_true.mp hblock op hop
  simpa using hsucc

/-! `Houses`: emission leaves nothing of its own pending.  If `through`, it ends in an open
block; otherwise it may have closed it. -/

structure Housing (entry : Nat) (earlier pending : List Nat) (through : Bool)
    (g g' : MLIRGenerator) : Prop where
  housed : Housed entry earlier pending g'
  layout : g.builder.layout <+: g'.builder.layout
  exit : CurrentOpen g' ∨ (through = false ∧ CurrentClosed g')

structure Houses {α : Type} (entry : Nat) (through : Bool) (action : MLIRGenM α) : Prop where
  housing : ∀ (g : MLIRGenerator) (earlier pending : List Nat),
    Housed entry earlier pending g → CurrentOpen g →
      Housing entry earlier pending through g (action g).2

variable {α β : Type}

theorem Housing.isOpen (h : Housing entry earlier pending true g g') : CurrentOpen g' := by
  rcases h.exit with hopen | ⟨hfalse, -⟩
  · exact hopen
  · cases hfalse

theorem houses_of_builder {action : MLIRGenM α} (hbuilder : ∀ g, (action g).2.builder = g.builder)
    (hdeleted : ∀ g, (action g).2.deleted = g.deleted) : Houses entry true action := by
  constructor
  intro g earlier pending hhoused hopen
  constructor
  · unfold Housed
    rw [hbuilder, hdeleted]
    exact hhoused
  · have hlayout : (action g).2.builder.layout = g.builder.layout := by rw [hbuilder]
    exact hlayout ▸ List.prefix_rfl
  · unfold CurrentOpen
    rw [hbuilder]
    exact .inl hopen

theorem Houses.bind {first : MLIRGenM α} {next : α → MLIRGenM β}
    (hfirst : Houses entry true first) (hnext : ∀ a, Houses entry through (next a)) :
    Houses entry through (first >>= next) := by
  constructor
  intro g earlier pending hhoused hopen
  have hleft := hfirst.housing g earlier pending hhoused hopen
  have hright := (hnext (first g).1).housing (first g).2 earlier pending hleft.housed hleft.isOpen
  exact ⟨hright.housed, hleft.layout.trans hright.layout, hright.exit⟩

theorem houses_pure (a : α) : Houses entry true (pure a : MLIRGenM α) :=
  houses_of_builder (fun _ => rfl) fun _ => rfl

theorem houses_emit {op : Op} (h : op.isTerminator = false) : Houses entry true (emit op) := by
  constructor
  intro g earlier pending hhoused hopen
  constructor
  · apply hhoused.emit
    rw [straight h]
    intro c hc
    cases hc
  · exact List.prefix_rfl
  · exact .inl (hopen.emit h)

theorem houses_leave {op : Op} (hterm : op.isTerminator = true) (hop : op.successors = []) :
    Houses entry false (emit op) := by
  constructor
  intro g earlier pending hhoused hopen
  constructor
  · apply hhoused.emit
    rw [hop]
    intro c hc
    cases hc
  · exact List.prefix_rfl
  · exact .inr ⟨rfl, hopen.close hterm⟩

theorem houses_define (ty : Ty) {op : Nat → Op} (h : ∀ r, (op r).isTerminator = false) :
    Houses entry true (define ty op) := by
  constructor
  intro g earlier pending hhoused hopen
  have hemit := (houses_emit (h g.builder.nextReg)).housing g earlier pending hhoused hopen
  obtain ⟨gone, hgone, hsettled⟩ := hhoused
  exact ⟨⟨gone, hgone, hsettled.define (straight (h _))⟩, hemit.layout, hemit.exit⟩

theorem houses_int32 (value : Int) : Houses entry true (int32 value) := by
  constructor
  intro g earlier pending hhoused hopen
  have hdefine : Houses entry true (define .i32 fun r => .constant r (BitVec.ofInt 32 value)) :=
    houses_define .i32 fun _ => rfl
  have h := hdefine.housing g earlier pending hhoused hopen
  exact ⟨h.housed, h.layout, h.exit⟩

/-! A terminator where the block is still open. -/

theorem currentClosed_unlessClosed {op : Op} (hop : op.isTerminator = true)
    (h : CurrentOpen g ∨ CurrentClosed g) : CurrentClosed (unlessClosed (emit op) g).2 := by
  unfold unlessClosed
  change CurrentClosed ((if g.builder.blockOpen = true then emit op else pure PUnit.unit :
    MLIRGenM Unit) g).2
  rcases h with hopen | hclosed
  · rw [Builder.blockOpen_of_isOpen hopen, if_pos rfl]
    exact hopen.close hop
  · rw [Builder.blockOpen_of_isClosed hclosed, if_neg Bool.false_ne_true]
    exact hclosed

theorem Housed.unlessClosed (h : Housed entry earlier pending g) {op : Op}
    (hop : ∀ c ∈ op.successors, c ∈ g.builder.layout ∨ c ∈ pending) :
    Housed entry earlier pending (unlessClosed (MLIRGenerator.emit op) g).2 := by
  unfold MLIRGenerator.unlessClosed
  change Housed entry earlier pending ((if g.builder.blockOpen = true then MLIRGenerator.emit op
    else pure PUnit.unit : MLIRGenM Unit) g).2
  split
  · exact h.emit hop
  · exact h

theorem layout_unlessClosed (op : Op) (g : MLIRGenerator) :
    (unlessClosed (emit op) g).2.builder.layout = g.builder.layout := by
  rw [unlessClosed_emit]
  unfold Builder.closeWith
  split
  · rfl
  · rfl

/-- One arm: the block is started, filled, and leads on to `next` if it is left open. -/
def fillArm (block next : Nat) (action : MLIRGenM Unit) : MLIRGenM Unit := do
  startBlock block
  action
  unlessClosed (emit (.br next))

theorem Houses.fillArm {action : MLIRGenM Unit} (h : Houses entry through action)
    {block next : Nat} (hhoused : Housed entry earlier (block :: pending) g)
    (hclosed : CurrentClosed g)
    (hnext : next ∈ pending ∨ next ∈ g.builder.layout) :
    Housed entry earlier pending (fillArm block next action g).2 ∧
      CurrentClosed (fillArm block next action g).2 ∧
      g.builder.layout ++ [block] <+: (fillArm block next action g).2.builder.layout := by
  obtain ⟨hstarted, hopen⟩ := hhoused.startBlock hclosed
  have hfilled := h.housing _ earlier pending hstarted hopen
  have hlayout : g.builder.layout ++ [block] <+:
      (action (startBlock block g).2).2.builder.layout := hfilled.layout
  have hexit : CurrentOpen (action (startBlock block g).2).2 ∨
      CurrentClosed (action (startBlock block g).2).2 := hfilled.exit.imp_right And.right
  unfold MLIRGenerator.fillArm
  change Housed entry earlier pending
      (unlessClosed (emit (.br next)) (action (startBlock block g).2).2).2 ∧
    CurrentClosed (unlessClosed (emit (.br next)) (action (startBlock block g).2).2).2 ∧
    _ <+: (unlessClosed (emit (.br next)) (action (startBlock block g).2).2).2.builder.layout
  refine ⟨?_, currentClosed_unlessClosed rfl hexit, ?_⟩
  · apply hfilled.housed.unlessClosed
    intro c hc
    obtain rfl := List.mem_singleton.mp hc
    rcases hnext with hmem | hmem
    · exact .inr hmem
    · exact .inl (hlayout.subset (List.mem_append_left _ hmem))
  · rw [layout_unlessClosed]
    exact hlayout

theorem housed_startUnlessDead {block : Nat} (h : Housed entry earlier (block :: pending) g)
    (hclosed : CurrentClosed g) :
    Housing entry earlier pending false g (startUnlessDead block g).2 := by
  unfold startUnlessDead
  change Housing entry earlier pending false g
    ((if (hasNoPredecessors block g).1 = true then deleteBlock block else startBlock block :
      MLIRGenM Unit) g).2
  split
  · next hdead =>
      obtain ⟨gone, hgone, hsettled⟩ := h
      constructor
      · refine ⟨gone ++ [block], ?_, ?_⟩
        · change g.deleted ++ [block] = _
          rw [hgone, List.append_assoc]
        · exact hsettled.delete (deleted_of_hasNoPredecessors hdead)
      · exact List.prefix_rfl
      · exact .inr ⟨rfl, hclosed⟩
  · obtain ⟨hstarted, hopen⟩ := h.startBlock hclosed
    exact ⟨hstarted, List.prefix_append _ _, .inl hopen⟩

/-! Statements and the subscript check. -/

/-- The blocks that are made at once, the first of them on top. -/
theorem Housed.newBlocks (h : Housed entry earlier pending g) :
    Housed entry earlier (g.builder.nextBlock :: (g.builder.nextBlock + 1) :: pending)
      { g with builder := g.builder.newBlock.newBlock } := by
  have htwo : Housed entry earlier ((g.builder.nextBlock + 1) :: g.builder.nextBlock :: pending)
      { g with builder := g.builder.newBlock.newBlock } := h.newBlock.newBlock
  exact htwo.perm (List.Perm.swap _ _ _)

theorem Housed.newThree (h : Housed entry earlier pending g) :
    Housed entry earlier (g.builder.nextBlock :: (g.builder.nextBlock + 1) ::
      (g.builder.nextBlock + 2) :: pending)
      { g with builder := g.builder.newBlock.newBlock.newBlock } := by
  have hthree : Housed entry earlier ((g.builder.nextBlock + 2) :: g.builder.nextBlock ::
      (g.builder.nextBlock + 1) :: pending)
      { g with builder := g.builder.newBlock.newBlock.newBlock } := h.newBlocks.newBlock
  apply hthree.perm
  apply (List.Perm.swap _ _ _).trans
  exact (List.Perm.swap _ _ _).cons _

theorem houses_emitIf {cond : MLIRGenM TypedValue} {thenStmt : MLIRGenM Unit}
    (hcond : Houses entry true cond) (hthen : Houses entry through thenStmt) :
    Houses entry false (emitIf .std cond thenStmt none) := by
  unfold emitIf emitIfBlocks
  apply hcond.bind
  intro v
  constructor
  intro g earlier pending hhoused hopen
  let n := g.builder.nextBlock
  let made : MLIRGenerator := { g with builder := g.builder.newBlock.newBlock }
  let branched := (emit (.condBr v.operand n (n + 1)) made).2
  have hbranched : Housed entry earlier (n :: (n + 1) :: pending) branched := by
    apply hhoused.newBlocks.emit
    intro c hc
    have hmem : c ∈ [n, n + 1] := hc
    exact .inr (by simp only [List.mem_cons, List.not_mem_nil, or_false] at hmem ⊢; tauto)
  have hmade : CurrentOpen made := hopen
  obtain ⟨harm, hclosed, hlayout⟩ := hthen.fillArm hbranched (hmade.close rfl)
    (.inl List.mem_cons_self)
  have hend := housed_startUnlessDead harm hclosed
  have hprefix : g.builder.layout <+: (fillArm n (n + 1) thenStmt branched).2.builder.layout :=
    (List.prefix_append _ _).trans hlayout
  exact ⟨hend.housed, hprefix.trans hend.layout, hend.exit⟩

theorem houses_emitIfElse {other : Bool} {cond : MLIRGenM TypedValue}
    {thenStmt elseStmt : MLIRGenM Unit} (hcond : Houses entry true cond)
    (hthen : Houses entry through thenStmt) (helse : Houses entry other elseStmt) :
    Houses entry false (emitIf .std cond thenStmt (some elseStmt)) := by
  unfold emitIf emitIfBlocks
  apply hcond.bind
  intro v
  constructor
  intro g earlier pending hhoused hopen
  let n := g.builder.nextBlock
  let made : MLIRGenerator := { g with builder := g.builder.newBlock.newBlock.newBlock }
  let branched := (emit (.condBr v.operand n (n + 1)) made).2
  have hbranched : Housed entry earlier (n :: (n + 1) :: (n + 2) :: pending) branched := by
    apply hhoused.newThree.emit
    intro c hc
    have hmem : c ∈ [n, n + 1] := hc
    exact .inr (by simp only [List.mem_cons, List.not_mem_nil, or_false] at hmem ⊢; tauto)
  have hmade : CurrentOpen made := hopen
  obtain ⟨harm, hclosed, hlayout⟩ := hthen.fillArm hbranched (hmade.close rfl)
    (.inl (List.mem_cons_of_mem _ List.mem_cons_self))
  obtain ⟨harm', hclosed', hlayout'⟩ := helse.fillArm harm hclosed (.inl List.mem_cons_self)
  have hend := housed_startUnlessDead harm' hclosed'
  let filled := (fillArm n (n + 2) thenStmt branched).2
  have hprefix : g.builder.layout <+:
      (fillArm (n + 1) (n + 2) elseStmt filled).2.builder.layout :=
    ((List.prefix_append _ _).trans hlayout).trans ((List.prefix_append _ _).trans hlayout')
  exact ⟨hend.housed, hprefix.trans hend.layout, hend.exit⟩

theorem houses_emitWhile {cond : MLIRGenM TypedValue} {body : MLIRGenM Unit}
    (hcond : Houses entry true cond) (hbody : Houses entry through body) :
    Houses entry true (emitWhile .std cond body) := by
  unfold emitWhile emitWhileBlocks
  constructor
  intro g earlier pending hhoused hopen
  let n := g.builder.nextBlock
  let made : MLIRGenerator := { g with builder := g.builder.newBlock.newBlock.newBlock }
  let entered := (emit (.br n) made).2
  have hentered : Housed entry earlier (n :: (n + 1) :: (n + 2) :: pending) entered := by
    apply hhoused.newThree.emit
    intro c hc
    obtain rfl := List.mem_singleton.mp hc
    exact .inr List.mem_cons_self
  have hmade : CurrentOpen made := hopen
  obtain ⟨hstarted, hstartedOpen⟩ := hentered.startBlock (hmade.close rfl)
  -- the condition
  have htest := hcond.housing _ earlier _ hstarted hstartedOpen
  let v := (cond (startBlock n entered).2).1
  let tested := (cond (startBlock n entered).2).2
  let branched := (emit (.condBr v.operand (n + 1) (n + 2)) tested).2
  have hbranched : Housed entry earlier ((n + 1) :: (n + 2) :: pending) branched := by
    apply htest.housed.emit
    intro c hc
    have hmem : c ∈ [n + 1, n + 2] := hc
    exact .inr (by simp only [List.mem_cons, List.not_mem_nil, or_false] at hmem ⊢; tauto)
  have hhead : g.builder.layout ++ [n] <+: branched.builder.layout := htest.layout
  -- the body goes back to the condition
  obtain ⟨harm, hclosed, hlayout⟩ := hbody.fillArm hbranched (htest.isOpen.close rfl)
    (.inr (hhead.subset (List.mem_append_right _ (List.mem_singleton_self n))))
  obtain ⟨hend, hendOpen⟩ := harm.startBlock hclosed
  have hprefix : g.builder.layout <+:
      (startBlock (n + 2) (fillArm (n + 1) n body branched).2).2.builder.layout :=
    (((List.prefix_append _ _).trans hhead).trans ((List.prefix_append _ _).trans hlayout)).trans
      (List.prefix_append _ _)
  exact ⟨hend, hprefix, .inl hendOpen⟩

theorem houses_checkIndex (options : MLIRGenOptions) (index : TypedValue) :
    Houses entry true (checkIndex .std options index) := by
  unfold checkIndex
  split
  · exact houses_pure ()
  split
  · exact houses_pure ()
  dsimp only
  apply (houses_int32 0).bind
  intro zero
  have hcompare : Houses entry true (cmpi .slt index zero) := houses_define .i1 fun _ => rfl
  apply hcompare.bind
  intro negative
  constructor
  intro g earlier pending hhoused hopen
  let n := g.builder.nextBlock
  let made : MLIRGenerator := { g with builder := g.builder.newBlock.newBlock }
  let branched := (emit (.condBr negative.operand n (n + 1)) made).2
  have hbranched : Housed entry earlier (n :: (n + 1) :: pending) branched := by
    apply hhoused.newBlocks.emit
    intro c hc
    have hmem : c ∈ [n, n + 1] := hc
    exact .inr (by simp only [List.mem_cons, List.not_mem_nil, or_false] at hmem ⊢; tauto)
  have hmade : CurrentOpen made := hopen
  obtain ⟨hstarted, hstartedOpen⟩ := hbranched.startBlock (hmade.close rfl)
  have hreport : Houses entry true (emit (.call none kIndexErrorName [index.operand])) :=
    houses_emit rfl
  have hreported := hreport.housing _ earlier _ hstarted hstartedOpen
  have hleave : Houses entry false (emit .unreachable) := houses_leave rfl rfl
  have hleft := hleave.housing _ earlier _ hreported.housed hreported.isOpen
  obtain ⟨hend, hendOpen⟩ := hleft.housed.startBlock (hreported.isOpen.close rfl)
  refine ⟨hend, ?_, .inl hendOpen⟩
  exact ((List.prefix_append _ _).trans (hreported.layout.trans hleft.layout)).trans
    (List.prefix_append _ _)

theorem houses_composes (options : MLIRGenOptions) :
    Composes .std options (Houses entry true) := by
  constructor
  · exact houses_pure
  · exact Houses.bind
  · exact fun op hop => houses_emit hop
  · exact fun ty op hop => houses_define ty hop
  · exact houses_int32
  · exact fun symbol => houses_of_builder (fun _ => rfl) fun _ => rfl
  · exact fun name => houses_of_builder (fun _ => rfl) fun _ => rfl
  · exact fun use => houses_of_builder (fun _ => rfl) fun _ => rfl
  · exact fun site => houses_of_builder (fun _ => rfl) fun _ => rfl
  · exact fun loc message => houses_of_builder (fun _ => rfl) fun _ => rfl
  · exact houses_checkIndex options

theorem Houses.weaken {action : MLIRGenM α} (h : Houses entry true action) :
    Houses entry false action := by
  constructor
  intro g earlier pending hhoused hopen
  have hhousing := h.housing g earlier pending hhoused hopen
  exact ⟨hhousing.housed, hhousing.layout, .inl hhousing.isOpen⟩

theorem houses_createReturn (value : TypedValue) :
    Houses entry false (createReturn .std value) :=
  houses_leave rfl rfl

theorem houses_emitReturn {value : Option (MLIRGenM TypedValue)}
    (hvalue : ∀ action, value = some action → Houses entry true action) :
    Houses entry false (emitReturn .std value) := by
  unfold emitReturn
  have hfunction : Houses entry true getFunction :=
    houses_of_builder (fun _ => rfl) fun _ => rfl
  apply hfunction.bind
  intro function
  split
  · cases value with
    | none => exact houses_createReturn noValue
    | some action => exact (hvalue action rfl).bind fun _ => houses_createReturn noValue
  · cases value with
    | none => exact (houses_int32 0).bind fun v => houses_createReturn v
    | some action => exact (hvalue action rfl).bind fun v => houses_createReturn v

/-- What follows is emitted only where the block is left open. -/
theorem Houses.andThen {first second : MLIRGenM Unit} (hfirst : Houses entry through first)
    (hsecond : Houses entry false second) :
    Houses entry false (first >>= fun _ => unlessClosed second) := by
  constructor
  intro g earlier pending hhoused hopen
  have hleft := hfirst.housing g earlier pending hhoused hopen
  let g1 := (first g).2
  change Housing entry earlier pending false g
    ((if g1.builder.blockOpen = true then second else pure PUnit.unit : MLIRGenM Unit) g1).2
  rcases hleft.exit with hleftOpen | ⟨-, hleftClosed⟩
  · rw [Builder.blockOpen_of_isOpen hleftOpen, if_pos rfl]
    have hright := hsecond.housing g1 earlier pending hleft.housed hleftOpen
    exact ⟨hright.housed, hleft.layout.trans hright.layout, hright.exit⟩
  · rw [Builder.blockOpen_of_isClosed hleftClosed, if_neg Bool.false_ne_true]
    exact ⟨hleft.housed, hleft.layout, .inr ⟨rfl, hleftClosed⟩⟩

mutual

theorem houses_emitStmt (options : MLIRGenOptions) :
    ∀ stmt : Stmt, Houses entry false (emitStmt .std options stmt)
  | .compound _ _ stmts => by
      unfold emitStmt
      exact houses_emitCompound options stmts
  | .expr _ none => by
      unfold emitStmt
      exact (houses_pure ()).weaken
  | .expr _ (some e) => by
      unfold emitStmt
      exact (((houses_composes options).emitExpr e).bind fun _ => houses_pure ()).weaken
  | .ifs _ cond thenStmt none => by
      unfold emitStmt
      exact houses_emitIf ((houses_composes options).emitCondition cond)
        (houses_emitStmt options thenStmt)
  | .ifs _ cond thenStmt (some elseStmt) => by
      unfold emitStmt
      exact houses_emitIfElse ((houses_composes options).emitCondition cond)
        (houses_emitStmt options thenStmt) (houses_emitStmt options elseStmt)
  | .whiles _ cond body => by
      unfold emitStmt
      exact (houses_emitWhile ((houses_composes options).emitCondition cond)
        (houses_emitStmt options body)).weaken
  | .ret _ none => by
      unfold emitStmt
      exact houses_emitReturn fun _ h => by cases h
  | .ret _ (some value) => by
      unfold emitStmt
      apply houses_emitReturn
      intro action h
      cases h
      exact (houses_composes options).emitExpr value

theorem houses_emitCompound (options : MLIRGenOptions) :
    ∀ stmts : List Stmt, Houses entry false (emitCompound .std options stmts)
  | [] => by
      unfold emitCompound
      exact (houses_pure ()).weaken
  | stmt :: stmts => by
      unfold emitCompound
      exact (houses_emitStmt options stmt).andThen (houses_emitCompound options stmts)

end

/-! One function. -/

theorem houses_emitParams (params : List ParamDecl) :
    ∀ index : Nat, Houses entry true (emitParams index params) := by
  induction params with
  | nil => exact fun _ => houses_pure ()
  | cons param params ih =>
      intro index
      have hset : ∀ (symbol : Symbol) (slot : TypedValue),
          Houses entry true (setSlot symbol slot) :=
        fun _ _ => houses_of_builder (fun _ => rfl) fun _ => rfl
      unfold emitParams
      cases param.symbol with
      | none => exact ih (index + 1)
      | some symbol =>
          dsimp only
          split
          · exact (hset _ _).bind fun _ => ih (index + 1)
          · have hslot : Houses entry true (define (storageType symbol)
                fun r => .alloca r (storageType symbol)) := houses_define _ fun _ => rfl
            apply hslot.bind
            intro slot
            have hstore : Houses entry true (emit (.store (.arg index) slot.operand [])) :=
              houses_emit rfl
            apply hstore.bind
            intro _
            exact (hset _ _).bind fun _ => ih (index + 1)

theorem houses_emitLocals (decls : List VarDecl) : Houses entry true (emitLocals decls) := by
  induction decls with
  | nil => exact houses_pure ()
  | cons decl decls ih =>
      unfold emitLocals
      cases decl.symbol with
      | none => exact ih
      | some symbol =>
          have hslot : Houses entry true (define (storageType symbol)
              fun r => .alloca r (storageType symbol)) := houses_define _ fun _ => rfl
          apply hslot.bind
          intro slot
          have hset : Houses entry true (setSlot symbol slot) :=
            houses_of_builder (fun _ => rfl) fun _ => rfl
          exact hset.bind fun _ => ih

theorem houses_emitDefaultReturn (function : FuncOp) :
    Houses entry false (emitDefaultReturn .std function) := by
  unfold emitDefaultReturn
  split
  · exact houses_createReturn noValue
  · exact (houses_int32 0).bind fun v => houses_createReturn v

theorem housed_opened (decl : FunDecl) (h : g.builder.Tidy) :
    Housed g.builder.nextBlock g.deleted [] (opened decl g) ∧ CurrentOpen (opened decl g) := by
  have hempty : ∀ b, g.builder.nextBlock ≤ b → (opened decl g).builder.code b = [] := h.unborn
  constructor
  · refine ⟨[], (List.append_nil _).symm, ?_⟩
    constructor
    · exact Nat.le_succ _
    · exact List.mem_singleton_self _
    · have hone : (opened decl g).builder.nextBlock - g.builder.nextBlock = 1 :=
        Nat.add_sub_cancel_left _ 1
      rw [hone]
      exact List.Perm.refl _
    · exact fun b hb _ => hempty b hb
    · intro b hb i hi
      rw [hempty b hb] at hi
      cases hi
    · intro b hb hne
      exact absurd (List.mem_singleton.mp hb) hne
  · have hcur : (opened decl g).builder.code (opened decl g).builder.cur = [] := hempty _ le_rfl
    unfold CurrentOpen
    rw [hcur]
    exact IsOpen.nil

/-- The blocks of a function once it is emitted. -/
theorem complete_emitFunction (options : MLIRGenOptions) (decl : FunDecl)
    (h : g.builder.Tidy) : ∃ gone,
      (emitFunction .std options decl g).2.deleted = g.deleted ++ gone ∧
      (filled options decl g).builder.Complete g.builder.nextBlock gone ∧
      (filled options decl g).builder.layout.head? = some g.builder.nextBlock := by
  obtain ⟨hopened, hopen⟩ := housed_opened decl h
  have hhouses : Houses g.builder.nextBlock false (do
      emitParams 0 decl.params
      emitLocals decl.body.toStmt.locals
      emitCompound .std options decl.body.stmts) :=
    (houses_emitParams decl.params 0).bind fun _ => (houses_emitLocals _).bind fun _ =>
      houses_emitCompound options decl.body.stmts
  have hfilled := (hhouses.andThen (houses_emitDefaultReturn (signatureOf decl))).housing
    (opened decl g) g.deleted [] hopened hopen
  obtain ⟨gone, hgone, hsettled⟩ := hfilled.housed
  have hclosed : IsClosed ((filled options decl g).builder.code
      (filled options decl g).builder.cur) := by
    rcases (steers_emitFunction options decl h).exit with ⟨-, hfalse⟩ | ⟨hclosed, -⟩
    · cases hfalse
    · exact hclosed
  refine ⟨gone, hgone, ⟨hsettled, hclosed⟩, ?_⟩
  obtain ⟨rest, hrest⟩ := hfilled.layout
  have hlayout : (filled options decl g).builder.layout = g.builder.nextBlock :: rest :=
    hrest.symm
  rw [hlayout]
  rfl

/-! The blocks of a module. -/

def blocksOf : Definition → List Nat
  | .func f => f.blocks
  | .global _ => []

/-- Every block of the function is reached from the first one, ends in its one terminator,
and branches to blocks of the function. -/
structure NoDeadBlock (C : Nat → List Op) (f : FuncOp) : Prop where
  reached : ∃ entry, f.blocks.head? = some entry ∧ ∀ b ∈ f.blocks, Reachable C entry b
  closed : ∀ b ∈ f.blocks, IsClosed (C b)
  branches : ∀ b ∈ f.blocks, ∀ op ∈ C b, ∀ c ∈ op.successors, c ∈ f.blocks

/-- What holds between two declarations: the blocks made so far are those of the functions
and the deleted ones. -/
structure Accounted (g : MLIRGenerator) : Prop where
  tidy : g.builder.Tidy
  declared : ∀ f, .func f ∈ g.body → f.isPrivate = true → f.blocks = []
  bodies : ∀ f, .func f ∈ g.body → f.isPrivate = false → NoDeadBlock g.builder.code f
  blocks : (g.body.flatMap blocksOf ++ g.deleted).Perm (List.range g.builder.nextBlock)
  dead : ∀ b ∈ g.deleted, g.builder.code b = [] ∧
    ∀ c, ∀ op ∈ g.builder.code c, b ∉ op.successors

theorem Accounted.born (h : Accounted g) {b : Nat}
    (hb : b ∈ g.body.flatMap blocksOf ∨ b ∈ g.deleted) : b < g.builder.nextBlock := by
  rw [← List.mem_append, h.blocks.mem_iff, List.mem_range] at hb
  exact hb

theorem accounted_declareBuiltins (options : MLIRGenOptions) :
    Accounted (declareBuiltins options {}).2 := by
  have hbuilder : (declareBuiltins options {}).2.builder = {} := by
    unfold declareBuiltins
    cases options.indexChecks with
    | true => rfl
    | false => rfl
  have hdeleted : (declareBuiltins options {}).2.deleted = [] := by
    unfold declareBuiltins
    cases options.indexChecks with
    | true => rfl
    | false => rfl
  have hbody : ∀ d ∈ (declareBuiltins options {}).2.body,
      blocksOf d = [] ∧ ∀ f, d = .func f → f.isPrivate = true ∧ f.blocks = [] := by
    unfold declareBuiltins
    cases options.indexChecks with
    | true =>
        intro d hd
        change d ∈ [.func inputOp, .func outputOp, .func indexErrorOp] at hd
        simp only [List.mem_cons, List.not_mem_nil, or_false] at hd
        rcases hd with rfl | rfl | rfl
        all_goals exact ⟨rfl, fun f hf => by cases hf; exact ⟨rfl, rfl⟩⟩
    | false =>
        intro d hd
        change d ∈ [.func inputOp, .func outputOp] at hd
        simp only [List.mem_cons, List.not_mem_nil, or_false] at hd
        rcases hd with rfl | rfl
        all_goals exact ⟨rfl, fun f hf => by cases hf; exact ⟨rfl, rfl⟩⟩
  constructor
  · rw [hbuilder]
    exact Builder.Tidy.initial
  · exact fun f hf _ => ((hbody _ hf).2 f rfl).2
  · intro f hf hfalse
    rw [((hbody _ hf).2 f rfl).1] at hfalse
    cases hfalse
  · have hnone : (declareBuiltins options {}).2.body.flatMap blocksOf = [] :=
      List.flatMap_eq_nil_iff.mpr fun d hd => (hbody d hd).1
    rw [hnone, hdeleted, hbuilder]
    exact List.Perm.refl _
  · rw [hdeleted]
    intro b hb
    cases hb

theorem Accounted.emitGlobal (h : Accounted g) (decl : VarDecl) :
    Accounted (emitGlobal decl g).2 := by
  unfold MLIRGenerator.emitGlobal
  cases decl.symbol with
  | none => exact h
  | some symbol =>
      let definition : Definition := .global ⟨decl.name, storageType symbol⟩
      have hfunc : ∀ f, .func f ∈ g.body ++ [definition] → .func f ∈ g.body := by
        intro f hf
        rcases List.mem_append.mp hf with hf | hf
        · exact hf
        · have hglobal : Definition.func f = .global ⟨decl.name, storageType symbol⟩ :=
            List.mem_singleton.mp hf
          cases hglobal
      constructor
      · exact h.tidy
      · exact fun f hf => h.declared f (hfunc f hf)
      · exact fun f hf => h.bodies f (hfunc f hf)
      · have hsame : (g.body ++ [definition]).flatMap blocksOf = g.body.flatMap blocksOf := by
          rw [List.flatMap_append]
          exact List.append_nil _
        change ((g.body ++ [definition]).flatMap blocksOf ++ g.deleted).Perm _
        rw [hsame]
        exact h.blocks
      · exact h.dead

/-- The function that is made of a declaration. -/
def funcOf (options : MLIRGenOptions) (decl : FunDecl) (g : MLIRGenerator) : FuncOp :=
  { signatureOf decl with blocks := (filled options decl g).builder.layout }

theorem body_emitFunction_fresh (options : MLIRGenOptions) (decl : FunDecl)
    (hfresh : ∀ d ∈ g.body, d.name ≠ decl.name) :
    (emitFunction .std options decl g).2.body = g.body ++ [.func (funcOf options decl g)] := by
  rw [body_emitFunction]
  exact finishFunction_body rfl hfresh

theorem Accounted.emitFunction (h : Accounted g) (options : MLIRGenOptions) (decl : FunDecl)
    (hfresh : ∀ d ∈ g.body, d.name ≠ decl.name) :
    Accounted (emitFunction .std options decl g).2 := by
  have hsteers := steers_emitFunction options decl h.tidy
  obtain ⟨gone, hgone, hcomplete, hhead⟩ := complete_emitFunction options decl h.tidy
  let g' := (MLIRGenerator.emitFunction .std options decl g).2
  have hbuilder : g'.builder = (filled options decl g).builder := rfl
  have hbody : g'.body = g.body ++ [Definition.func (funcOf options decl g)] :=
    body_emitFunction_fresh options decl hfresh
  have hgrows := hsteers.flow.grows
  have hsame : ∀ b, b < g.builder.nextBlock → g'.builder.code b = g.builder.code b :=
    fun b hb => hgrows.frame b (Nat.lt_succ_of_lt hb) (Nat.ne_of_lt hb)
  have hle : g.builder.nextBlock ≤ g'.builder.nextBlock := hcomplete.settled.entered
  have hborn : ∀ f, .func f ∈ g.body → ∀ b ∈ f.blocks, b < g.builder.nextBlock :=
    fun f hf b hb => h.born (.inl (List.mem_flatMap.mpr ⟨_, hf, hb⟩))
  have hnew : ∀ b, b ∈ g'.builder.layout ∨ b ∈ gone → g.builder.nextBlock ≤ b := by
    intro b hb
    have hmem : b ∈ g'.builder.layout ++ ([] ++ gone) := by simpa using hb
    exact (hcomplete.settled.made.mp hmem).1
  -- a branch of the new function stays in it
  have hinside : ∀ c, g.builder.nextBlock ≤ c → ∀ op ∈ g'.builder.code c,
      ∀ b ∈ op.successors, b ∈ g'.builder.layout := by
    intro c hc op hop b hb
    have hplaced : c ∈ g'.builder.layout := by
      by_contra hout
      rw [hbuilder, hcomplete.settled.empty c hc hout] at hop
      cases hop
    exact hcomplete.branches hplaced hop hb
  constructor
  · exact hsteers.flow.tidy
  · intro f hf hprivate
    rw [hbody] at hf
    rcases List.mem_append.mp hf with hf | hf
    · exact h.declared f hf hprivate
    · cases List.mem_singleton.mp hf
      cases hprivate
  · intro f hf hpublic
    rw [hbody] at hf
    rcases List.mem_append.mp hf with hf | hf
    · have hold := h.bodies f hf hpublic
      obtain ⟨entry, hentry, hreach⟩ := hold.reached
      constructor
      · exact ⟨entry, hentry, fun b hb => (hreach b hb).mono hgrows.code⟩
      · intro b hb
        rw [hsame b (hborn f hf b hb)]
        exact hold.closed b hb
      · intro b hb op hop
        rw [hsame b (hborn f hf b hb)] at hop
        exact hold.branches b hb op hop
    · cases List.mem_singleton.mp hf
      constructor
      · exact ⟨_, hhead, fun b hb => hsteers.live.placed b hb⟩
      · exact fun b hb => hcomplete.closed hb
      · exact fun b hb op hop c hc => hcomplete.branches hb hop hc
  · have hnext : g'.builder.nextBlock =
        g.builder.nextBlock + (g'.builder.nextBlock - g.builder.nextBlock) := by
      omega
    have hrange : List.range g'.builder.nextBlock = List.range g.builder.nextBlock ++
        List.range' g.builder.nextBlock (g'.builder.nextBlock - g.builder.nextBlock) := by
      rw [hnext, List.range_eq_range', List.range_eq_range', ← List.range'_append_1,
        Nat.zero_add, Nat.add_sub_cancel_left]
    have hboth := h.blocks.append hcomplete.housed
    change (g'.body.flatMap blocksOf ++ g'.deleted).Perm (List.range g'.builder.nextBlock)
    rw [hrange, hbody, List.flatMap_append, show g'.deleted = g.deleted ++ gone from hgone]
    refine List.Perm.trans ?_ hboth
    change (g.body.flatMap blocksOf ++ (g'.builder.layout ++ []) ++ (g.deleted ++ gone)).Perm
      (g.body.flatMap blocksOf ++ g.deleted ++ (g'.builder.layout ++ gone))
    rw [List.append_nil, List.append_assoc, List.append_assoc]
    apply List.Perm.append_left
    rw [← List.append_assoc, ← List.append_assoc]
    exact List.perm_append_comm.append_right gone
  · intro b hb
    rw [show g'.deleted = g.deleted ++ gone from hgone] at hb
    rcases List.mem_append.mp hb with hb | hb
    · have hlt := h.born (.inr hb)
      obtain ⟨hempty, hdead⟩ := h.dead b hb
      refine ⟨(hsame b hlt).trans hempty, ?_⟩
      intro c op hop hsucc
      by_cases hc : g.builder.nextBlock ≤ c
      · have hlater := hnew b (.inl (hinside c hc op hop b hsucc))
        omega
      · change op ∈ g'.builder.code c at hop
        rw [hsame c (Nat.lt_of_not_le hc)] at hop
        exact hdead c op hop hsucc
    · have hlater := hnew b (.inr hb)
      have hout : b ∉ g'.builder.layout := by
        intro hmem
        have hdistinct := hcomplete.settled.distinct
        rw [List.nil_append, List.nodup_append] at hdistinct
        exact hdistinct.2.2 b hmem b hb rfl
      refine ⟨hcomplete.settled.empty b hlater hout, ?_⟩
      intro c op hop hsucc
      by_cases hc : g.builder.nextBlock ≤ c
      · exact hout (hinside c hc op hop b hsucc)
      · change op ∈ g'.builder.code c at hop
        rw [hsame c (Nat.lt_of_not_le hc)] at hop
        have hlt := h.tidy.targets c op hop b hsucc
        omega

/-! All declarations. -/

theorem accounted_emitDecls (options : MLIRGenOptions) : ∀ {decls : List Decl}
    {g : MLIRGenerator}, Accounted g → (∀ d ∈ g.body, d.name ∉ decls.map Decl.name) →
      (decls.map Decl.name).Nodup → Accounted (emitDecls .std options decls g).2 := by
  intro decls
  induction decls with
  | nil => exact fun h _ _ => h
  | cons decl decls ih =>
      intro g h hfresh hnodup
      rw [List.map_cons, List.nodup_cons] at hnodup
      have hlater : ∀ d ∈ g.body, d.name ∉ decls.map Decl.name := fun d hd hmem =>
        hfresh d hd (List.mem_cons_of_mem _ hmem)
      unfold emitDecls
      cases decl with
      | var decl =>
          apply ih (h.emitGlobal decl) _ hnodup.2
          intro d hd
          unfold emitGlobal at hd
          cases hsymbol : decl.symbol with
          | none =>
              rw [hsymbol] at hd
              exact hlater d hd
          | some symbol =>
              rw [hsymbol] at hd
              rcases List.mem_append.mp hd with hd | hd
              · exact hlater d hd
              · rw [List.mem_singleton.mp hd]
                exact hnodup.1
      | «fun» decl =>
          have hname : ∀ d ∈ g.body, d.name ≠ decl.name := by
            intro d hd hsame
            exact hfresh d hd (by rw [hsame]; exact List.mem_cons_self)
          apply ih (h.emitFunction options decl hname) _ hnodup.2
          intro d hd
          rw [body_emitFunction_fresh options decl hname] at hd
          rcases List.mem_append.mp hd with hd | hd
          · exact hlater d hd
          · rw [List.mem_singleton.mp hd]
            exact hnodup.1

theorem declared_runtime (options : MLIRGenOptions) :
    ∀ d ∈ (declareBuiltins options {}).2.body,
      d.name ∈ builtinSymbols.map Symbol.name ∨ d.name = kIndexErrorName := by
  unfold declareBuiltins
  cases options.indexChecks with
  | true => decide
  | false => decide

/-- In the std flavor no block is dead: each is in one function, where it is reached, or was
deleted, and then no branch leads to it. -/
theorem emitProgram_noDeadBlock (options : MLIRGenOptions) {source : String}
    {program : Program} (h : frontEnd source = some program) :
    (∀ f, .func f ∈ (emitProgram .std options program).module.body →
      (f.isPrivate = true → f.blocks = []) ∧
      (f.isPrivate = false →
        NoDeadBlock (emitProgram .std options program).module.code f)) ∧
    ((emitProgram .std options program).module.body.flatMap blocksOf ++
        (emitProgram .std options program).deleted).Perm
      (List.range (emitProgram .std options program).builder.nextBlock) ∧
    ∀ b ∈ (emitProgram .std options program).deleted,
      (emitProgram .std options program).module.code b = [] ∧
        ∀ c, ∀ op ∈ (emitProgram .std options program).module.code c, b ∉ op.successors := by
  have hemittable := IRGenerator.emittable_of_accepted (accepted_of_frontEnd h)
  have hnames := (hemittable.resolved.decls.scope (List.Sublist.refl _) (by decide)).1
  rw [List.map_append, hemittable.resolved.decls.names, List.nodup_append] at hnames
  have hfresh : ∀ d ∈ (declareBuiltins options {}).2.body,
      d.name ∉ program.decls.map Decl.name := by
    intro d hd hmem
    rcases declared_runtime options d hd with hbuiltin | herror
    · exact hnames.2.2 _ hbuiltin _ hmem rfl
    · obtain ⟨decl, hdecl, hname⟩ := List.mem_map.mp hmem
      exact hemittable.reserved decl hdecl (hname.trans herror)
  have haccounted : Accounted (emitProgram .std options program) :=
    accounted_emitDecls options (accounted_declareBuiltins options) hfresh hnames.2.1
  refine ⟨?_, haccounted.blocks, haccounted.dead⟩
  intro f hf
  exact ⟨haccounted.declared f hf, haccounted.bodies f hf⟩

/-- Both arms return, so the block behind them is deleted. -/
theorem emitProgram_noDeadBlock_bothArms : ∃ program,
    frontEnd ("int f(int x) \x7b if (x) return 1; else return 2; \x7d " ++
      "void main(void) \x7b output(f(3)); \x7d") = some program ∧
    (emitProgram .std {} program).deleted = [3] ∧
    (∀ f, .func f ∈ (emitProgram .std {} program).module.body →
      (f.isPrivate = false → NoDeadBlock (emitProgram .std {} program).module.code f)) ∧
    ∀ c, ∀ op ∈ (emitProgram .std {} program).module.code c, 3 ∉ op.successors := by
  have hrun : (frontEnd ("int f(int x) \x7b if (x) return 1; else return 2; \x7d " ++
      "void main(void) \x7b output(f(3)); \x7d")).any (fun program =>
        decide ((emitProgram .std {} program).deleted = [3])) = true := by
    decide +kernel
  rw [Option.any_eq_true] at hrun
  obtain ⟨program, hprogram, hdeleted⟩ := hrun
  rw [decide_eq_true_iff] at hdeleted
  obtain ⟨hfunctions, -, hdead⟩ := emitProgram_noDeadBlock {} hprogram
  refine ⟨program, hprogram, hdeleted, fun f hf => (hfunctions f hf).2, ?_⟩
  exact (hdead 3 (by rw [hdeleted]; exact List.mem_singleton_self 3)).2

end MLIRGenerator

end CMinus
