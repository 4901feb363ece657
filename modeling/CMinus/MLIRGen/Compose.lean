import CMinus.MLIRGen

namespace CMinus

namespace MLIRGenerator

open SSA MLIR

/-! A property of actions that holds of the small ones and of what is composed of such: it
holds of the emission of every expression. -/

structure Composes (flavor : MLIRFlavor) (options : MLIRGenOptions)
    (P : ∀ {α : Type}, MLIRGenM α → Prop) : Prop where
  pure : ∀ {α : Type} (a : α), P (pure a : MLIRGenM α)
  bind : ∀ {α β : Type} {first : MLIRGenM α} {next : α → MLIRGenM β},
    P first → (∀ a, P (next a)) → P (first >>= next)
  emit : ∀ op : Op, op.isTerminator = false → P (emit op)
  define : ∀ (ty : Ty) (op : Nat → Op), (∀ r, (op r).isTerminator = false) → P (define ty op)
  int32 : ∀ value : Int, P (int32 value)
  slotOf : ∀ symbol : Symbol, P (slotOf symbol)
  lookupSymbol : ∀ name : String, P (lookupSymbol name)
  recordUse : ∀ use : VarUse, P (recordUse use)
  recordCall : ∀ site : CallSite, P (recordCall site)
  error : ∀ (loc : SourceLocation) (message : String), P (error loc message)
  checkIndex : ∀ index : TypedValue, P (checkIndex flavor options index)

namespace Composes

variable {flavor : MLIRFlavor} {options : MLIRGenOptions}
  {P : ∀ {α : Type}, MLIRGenM α → Prop}

section

variable (h : Composes flavor options P)
include h

theorem before {α β : Type} {first : MLIRGenM α} {next : MLIRGenM β} (hfirst : P first)
    (hnext : P next) : P (first >>= fun _ => next) :=
  h.bind hfirst fun _ => hnext

theorem cmpi (pred : Compare) (lhs rhs : TypedValue) : P (cmpi pred lhs rhs) :=
  h.define .i1 _ fun _ => rfl

theorem storageOf (symbol : Symbol) : P (storageOf symbol) := by
  unfold MLIRGenerator.storageOf
  apply h.bind (h.slotOf symbol)
  intro found
  cases found with
  | some slot => exact h.before (h.recordUse _) (h.pure slot)
  | none =>
      apply h.bind (h.define _ _ fun _ => rfl)
      intro storage
      exact h.before (h.recordUse _) (h.pure storage)

theorem createCall (callee : FuncOp) (args : List TypedValue) : P (createCall callee args) := by
  unfold MLIRGenerator.createCall
  dsimp only
  split
  · exact h.before (h.emit _ rfl) (h.pure _)
  · exact h.define _ _ fun _ => rfl

theorem addressOf (head : VarHead) {index : Option (MLIRGenM TypedValue)}
    (hindex : ∀ action, index = some action → P action) :
    P (addressOf flavor options head index) := by
  unfold MLIRGenerator.addressOf
  cases head.symbol with
  | none => exact h.pure _
  | some symbol =>
      apply h.bind (h.storageOf symbol)
      intro storage
      cases index with
      | none => exact h.pure _
      | some action =>
          apply h.bind (hindex action rfl)
          intro value
          apply h.before (h.checkIndex value)
          exact h.bind (h.define _ _ fun _ => rfl) fun _ => h.pure _

theorem emitVar (head : VarHead) {index : Option (MLIRGenM TypedValue)}
    (hindex : ∀ action, index = some action → P action) :
    P (emitVar flavor options head index) := by
  unfold MLIRGenerator.emitVar
  apply h.bind (h.addressOf head hindex)
  intro place
  cases place with
  | none => exact h.int32 0
  | some place => exact h.define _ _ fun _ => rfl

theorem emitAssign (target : VarHead) {index : Option (MLIRGenM TypedValue)}
    {value : MLIRGenM TypedValue} (hindex : ∀ action, index = some action → P action)
    (hvalue : P value) : P (emitAssign flavor options target index value) := by
  unfold MLIRGenerator.emitAssign
  apply h.bind (h.addressOf target hindex)
  intro place
  cases place with
  | none => exact hvalue
  | some place =>
      apply h.bind hvalue
      intro v
      exact h.before (h.emit _ rfl) (h.pure v)

theorem emitBinary (op : BinaryOp) {lhs rhs : MLIRGenM TypedValue} (hlhs : P lhs)
    (hrhs : P rhs) : P (emitBinary op lhs rhs) := by
  unfold MLIRGenerator.emitBinary
  apply h.bind hlhs
  intro a
  apply h.bind hrhs
  intro b
  cases op with
  | add | sub | mul | div => exact h.define _ _ fun _ => rfl
  | _ => exact h.bind (h.cmpi _ a b) fun _ => h.define _ _ fun _ => rfl

theorem emitArray (paramType : Ty) (symbol : Symbol) : P (emitArray paramType symbol) := by
  unfold MLIRGenerator.emitArray
  apply h.bind (h.storageOf symbol)
  intro array
  split
  · exact h.define _ _ fun _ => rfl
  · exact h.pure array

theorem emitCall (loc : SourceLocation) (callee : String) (symbol : Option Symbol)
    (argTypes : List CType) {args : List Ty → MLIRGenM (List TypedValue)}
    (hargs : ∀ paramTypes, P (args paramTypes)) :
    P (emitCall loc callee symbol argTypes args) := by
  unfold MLIRGenerator.emitCall
  apply h.bind (h.lookupSymbol callee)
  intro found
  apply h.before (h.recordCall _)
  cases found with
  | none => exact h.before (h.error _ _) (h.int32 0)
  | some callee => exact h.bind (hargs callee.inputs) fun values => h.createCall callee values

end

mutual

theorem emitExpr (h : Composes flavor options P) : ∀ e : Expr, 
    P (MLIRGenerator.emitExpr flavor options e)
  | .num _ value => by
      unfold MLIRGenerator.emitExpr
      exact h.int32 value
  | .var head index => by
      unfold MLIRGenerator.emitExpr
      exact h.emitVar head (emitIndex h index)
  | .assign _ _ target index value => by
      unfold MLIRGenerator.emitExpr
      exact h.emitAssign target (emitIndex h index) (emitExpr h value)
  | .binary _ op _ lhs rhs => by
      unfold MLIRGenerator.emitExpr
      exact h.emitBinary op (emitExpr h lhs) (emitExpr h rhs)
  | .call info callee args symbol => by
      unfold MLIRGenerator.emitExpr
      exact h.emitCall info.loc callee symbol _ fun paramTypes => emitArgs h paramTypes args

theorem emitIndex (h : Composes flavor options P) : ∀ index : Option Expr, ∀ action,
    MLIRGenerator.emitIndex flavor options index = some action → P action
  | none, action, hsome => by
      unfold MLIRGenerator.emitIndex at hsome
      cases hsome
  | some index, action, hsome => by
      unfold MLIRGenerator.emitIndex at hsome
      cases hsome
      exact emitExpr h index

theorem emitArgs (h : Composes flavor options P) : ∀ (paramTypes : List Ty) (args : List Expr),
    P (MLIRGenerator.emitArgs flavor options paramTypes args)
  | _, [] => by
      unfold MLIRGenerator.emitArgs
      exact h.pure _
  | paramTypes, arg :: args => by
      have hothers : ∀ first : TypedValue, P
          (MLIRGenerator.emitArgs flavor options paramTypes.tail args >>= fun others =>
            Pure.pure (first :: others)) :=
        fun first => h.bind (emitArgs h paramTypes.tail args) fun _ => h.pure _
      unfold MLIRGenerator.emitArgs
      dsimp only
      split
      · exact h.bind (h.emitArray _ _) hothers
      · exact h.bind (emitExpr h arg) hothers

end

theorem emitCondition (h : Composes flavor options P) (cond : Expr) :
    P (MLIRGenerator.emitCondition flavor options cond) := by
  unfold MLIRGenerator.emitCondition
  apply h.bind (h.emitExpr cond)
  intro value
  exact h.bind (h.int32 0) fun zero => h.cmpi .ne value zero

end Composes

/-! What an action leaves alone that only moves the builder. -/

structure Quiet {α : Type} (action : MLIRGenM α) : Prop where
  body : ∀ g, (action g).2.body = g.body
  slots : ∀ g, (action g).2.slots = g.slots
  calls : ∀ g, (action g).2.calls = g.calls
  uses : ∀ g, (action g).2.uses = g.uses
  ops : ∀ g b, g.builder.code b ⊆ (action g).2.builder.code b

theorem quiet_emit (op : Op) : Quiet (emit op) :=
  ⟨fun _ => rfl, fun _ => rfl, fun _ => rfl, fun _ => rfl,
    fun g => g.builder.code_append_subset op⟩

theorem quiet_define (ty : Ty) (op : Nat → Op) : Quiet (define ty op) :=
  ⟨fun _ => rfl, fun _ => rfl, fun _ => rfl, fun _ => rfl,
    fun g => g.builder.code_append_subset (op g.builder.nextReg)⟩

theorem quiet_int32 (value : Int) : Quiet (int32 value) :=
  ⟨fun _ => rfl, fun _ => rfl, fun _ => rfl, fun _ => rfl,
    fun g => g.builder.code_append_subset _⟩

theorem quiet_newBlock : Quiet newBlock :=
  ⟨fun _ => rfl, fun _ => rfl, fun _ => rfl, fun _ => rfl,
    fun _ _ => List.Subset.refl _⟩

theorem quiet_setInsertionPoint (block : Nat) : Quiet (setInsertionPoint block) :=
  ⟨fun _ => rfl, fun _ => rfl, fun _ => rfl, fun _ => rfl,
    fun _ _ => List.Subset.refl _⟩

theorem quiet_startBlock (block : Nat) : Quiet (startBlock block) :=
  ⟨fun _ => rfl, fun _ => rfl, fun _ => rfl, fun _ => rfl,
    fun _ _ => List.Subset.refl _⟩

theorem quiet_deleteBlock (block : Nat) : Quiet (deleteBlock block) :=
  ⟨fun _ => rfl, fun _ => rfl, fun _ => rfl, fun _ => rfl,
    fun _ _ => List.Subset.refl _⟩

theorem quiet_insertionBlock : Quiet insertionBlock :=
  ⟨fun _ => rfl, fun _ => rfl, fun _ => rfl, fun _ => rfl,
    fun _ _ => List.Subset.refl _⟩

theorem quiet_opsOf (block : Nat) : Quiet (opsOf block) :=
  ⟨fun _ => rfl, fun _ => rfl, fun _ => rfl, fun _ => rfl,
    fun _ _ => List.Subset.refl _⟩

theorem quiet_blockOpen : Quiet blockOpen :=
  ⟨fun _ => rfl, fun _ => rfl, fun _ => rfl, fun _ => rfl,
    fun _ _ => List.Subset.refl _⟩

theorem quiet_hasNoPredecessors (block : Nat) : Quiet (hasNoPredecessors block) :=
  ⟨fun _ => rfl, fun _ => rfl, fun _ => rfl, fun _ => rfl,
    fun _ _ => List.Subset.refl _⟩

theorem quiet_getFunction : Quiet getFunction :=
  ⟨fun _ => rfl, fun _ => rfl, fun _ => rfl, fun _ => rfl,
    fun _ _ => List.Subset.refl _⟩

theorem quiet_slotOf (symbol : Symbol) : Quiet (slotOf symbol) :=
  ⟨fun _ => rfl, fun _ => rfl, fun _ => rfl, fun _ => rfl,
    fun _ _ => List.Subset.refl _⟩

theorem quiet_lookupSymbol (name : String) : Quiet (lookupSymbol name) :=
  ⟨fun _ => rfl, fun _ => rfl, fun _ => rfl, fun _ => rfl,
    fun _ _ => List.Subset.refl _⟩

theorem quiet_error (loc : SourceLocation) (message : String) : Quiet (error loc message) :=
  ⟨fun _ => rfl, fun _ => rfl, fun _ => rfl, fun _ => rfl,
    fun _ _ => List.Subset.refl _⟩

/-! A property that looks at nothing else: the shapes of the statements keep it in both
flavors. -/

structure Ignores (P : ∀ {α : Type}, MLIRGenM α → Prop) : Prop where
  bind : ∀ {α β : Type} {first : MLIRGenM α} {next : α → MLIRGenM β},
    P first → (∀ a, P (next a)) → P (first >>= next)
  quiet : ∀ {α : Type} {action : MLIRGenM α}, Quiet action → P action

namespace Ignores

variable {flavor : MLIRFlavor} {P : ∀ {α : Type}, MLIRGenM α → Prop} (h : Ignores P)
include h

theorem pure {α : Type} (a : α) : P (pure a : MLIRGenM α) :=
  h.quiet ⟨fun _ => rfl, fun _ => rfl, fun _ => rfl, fun _ => rfl,
    fun _ _ => List.Subset.refl _⟩

theorem before {α β : Type} {first : MLIRGenM α} {next : MLIRGenM β} (hfirst : P first)
    (hnext : P next) : P (first >>= fun _ => next) :=
  h.bind hfirst fun _ => hnext

theorem emit (op : Op) : P (emit op) := h.quiet (quiet_emit op)

theorem unlessClosed {action : MLIRGenM Unit} (haction : P action) : P (unlessClosed action) := by
  unfold MLIRGenerator.unlessClosed
  apply h.bind (h.quiet quiet_blockOpen)
  intro isOpen
  split
  · exact haction
  · exact h.pure PUnit.unit

theorem startUnlessDead (block : Nat) : P (startUnlessDead block) := by
  unfold MLIRGenerator.startUnlessDead
  apply h.bind (h.quiet (quiet_hasNoPredecessors block))
  intro dead
  split
  · exact h.quiet (quiet_deleteBlock block)
  · exact h.quiet (quiet_startBlock block)

theorem createReturn (value : TypedValue) : P (createReturn flavor value) := by
  cases flavor with
  | std => exact h.emit _
  | cminus => exact h.emit _

theorem checkIndex (options : MLIRGenOptions) (index : TypedValue) :
    P (checkIndex flavor options index) := by
  unfold MLIRGenerator.checkIndex
  split
  · exact h.pure ()
  split
  · exact h.pure ()
  cases flavor with
  | cminus => exact h.emit _
  | std =>
      apply h.bind (h.quiet (quiet_int32 0))
      intro zero
      apply h.bind (h.quiet (quiet_define _ _))
      intro negative
      apply h.bind (h.quiet quiet_newBlock)
      intro failBlock
      apply h.bind (h.quiet quiet_newBlock)
      intro okBlock
      apply h.before (h.emit _)
      apply h.before (h.quiet (quiet_startBlock failBlock))
      apply h.before (h.emit _)
      apply h.before (h.emit _)
      exact h.quiet (quiet_startBlock okBlock)

/-- The lookups are what is left to show for the expressions. -/
theorem composes (options : MLIRGenOptions) (huse : ∀ use, P (recordUse use))
    (hcall : ∀ site, P (recordCall site)) : Composes flavor options P := by
  constructor
  · exact h.pure
  · exact h.bind
  · exact fun op _ => h.emit op
  · exact fun ty op _ => h.quiet (quiet_define ty op)
  · exact fun value => h.quiet (quiet_int32 value)
  · exact fun symbol => h.quiet (quiet_slotOf symbol)
  · exact fun name => h.quiet (quiet_lookupSymbol name)
  · exact huse
  · exact hcall
  · exact fun loc message => h.quiet (quiet_error loc message)
  · exact h.checkIndex options

theorem regionOf {fill : MLIRGenM Unit} (hfill : P fill) : P (regionOf fill) := by
  unfold MLIRGenerator.regionOf
  apply h.bind (h.quiet quiet_insertionBlock)
  intro outside
  apply h.bind (h.quiet quiet_newBlock)
  intro block
  apply h.before (h.quiet (quiet_setInsertionPoint block))
  apply h.before hfill
  apply h.bind (h.quiet (quiet_opsOf block))
  intro ops
  exact h.before (h.quiet (quiet_setInsertionPoint outside)) (h.pure ops)

theorem emitRegion {stmt : MLIRGenM Unit} (hstmt : P stmt) : P (emitRegion stmt) :=
  h.regionOf (h.before hstmt (h.unlessClosed (h.emit _)))

theorem emitIf {cond : MLIRGenM TypedValue} {thenStmt : MLIRGenM Unit}
    {elseStmt : Option (MLIRGenM Unit)} (hcond : P cond) (hthen : P thenStmt)
    (helse : ∀ action, elseStmt = some action → P action) :
    P (emitIf flavor cond thenStmt elseStmt) := by
  cases flavor with
  | cminus =>
      unfold MLIRGenerator.emitIf emitIfRegions
      apply h.bind hcond
      intro v
      apply h.bind (h.emitRegion hthen)
      intro thenRegion
      cases elseStmt with
      | none => exact h.emit _
      | some action => exact h.bind (h.emitRegion (helse action rfl)) fun _ => h.emit _
  | std =>
      unfold MLIRGenerator.emitIf emitIfBlocks
      apply h.bind hcond
      intro v
      apply h.bind (h.quiet quiet_newBlock)
      intro thenBlock
      cases elseStmt with
      | none =>
          apply h.bind (h.quiet quiet_newBlock)
          intro endBlock
          apply h.before (h.emit _)
          apply h.before (h.quiet (quiet_startBlock thenBlock))
          apply h.before hthen
          apply h.before (h.unlessClosed (h.emit _))
          exact h.startUnlessDead endBlock
      | some action =>
          apply h.bind (h.quiet quiet_newBlock)
          intro elseBlock
          apply h.bind (h.quiet quiet_newBlock)
          intro endBlock
          apply h.before (h.emit _)
          apply h.before (h.quiet (quiet_startBlock thenBlock))
          apply h.before hthen
          apply h.before (h.unlessClosed (h.emit _))
          apply h.before (h.quiet (quiet_startBlock elseBlock))
          apply h.before (helse action rfl)
          apply h.before (h.unlessClosed (h.emit _))
          exact h.startUnlessDead endBlock

theorem emitWhile {cond : MLIRGenM TypedValue} {body : MLIRGenM Unit} (hcond : P cond)
    (hbody : P body) : P (emitWhile flavor cond body) := by
  cases flavor with
  | cminus =>
      unfold MLIRGenerator.emitWhile emitWhileRegions
      apply h.bind (h.regionOf (h.bind hcond fun _ => h.emit _))
      intro condRegion
      exact h.bind (h.emitRegion hbody) fun _ => h.emit _
  | std =>
      unfold MLIRGenerator.emitWhile emitWhileBlocks
      apply h.bind (h.quiet quiet_newBlock)
      intro condBlock
      apply h.bind (h.quiet quiet_newBlock)
      intro bodyBlock
      apply h.bind (h.quiet quiet_newBlock)
      intro endBlock
      apply h.before (h.emit _)
      apply h.before (h.quiet (quiet_startBlock condBlock))
      apply h.bind hcond
      intro v
      apply h.before (h.emit _)
      apply h.before (h.quiet (quiet_startBlock bodyBlock))
      apply h.before hbody
      apply h.before (h.unlessClosed (h.emit _))
      exact h.quiet (quiet_startBlock endBlock)

theorem emitReturn {value : Option (MLIRGenM TypedValue)}
    (hvalue : ∀ action, value = some action → P action) : P (emitReturn flavor value) := by
  unfold MLIRGenerator.emitReturn
  apply h.bind (h.quiet quiet_getFunction)
  intro function
  split
  · cases value with
    | none => exact h.createReturn noValue
    | some action => exact h.bind (hvalue action rfl) fun _ => h.createReturn noValue
  · cases value with
    | none => exact h.bind (h.quiet (quiet_int32 0)) fun v => h.createReturn v
    | some action => exact h.bind (hvalue action rfl) fun v => h.createReturn v

theorem emitDefaultReturn (function : FuncOp) : P (emitDefaultReturn flavor function) := by
  unfold MLIRGenerator.emitDefaultReturn
  split
  · exact h.createReturn noValue
  · exact h.bind (h.quiet (quiet_int32 0)) fun v => h.createReturn v

end Ignores

end MLIRGenerator

end CMinus
