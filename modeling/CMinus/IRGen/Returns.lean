import CMinus.SemanticAnalyzer
import CMinus.IRGen
import CMinus.SSA.Reach

namespace CMinus

namespace IRGenerator

open SSA IR

/-! How emission moves the insertion point: run on an open block, the action leads the
builder on, `through` or not. -/

structure Flows {α : Type} (entry : Nat) (through : Bool) (action : IRGenM α) : Prop where
  flow : ∀ g : IRGenerator, g.builder.Writing → entry < g.builder.nextBlock →
    Builder.Flow entry through g.builder (action g).2.builder

variable {α β : Type} {entry : Nat} {through other : Bool}

/-- An action that leaves the builder alone. -/
theorem flows_of_builder {action : IRGenM α} (h : ∀ g, (action g).2.builder = g.builder) :
    Flows entry true action := by
  constructor
  intro g hg _
  rw [h g]
  exact .refl hg

theorem flows_pure (a : α) : Flows entry true (pure a : IRGenM α) :=
  flows_of_builder fun _ => rfl

theorem Flows.bind {first : IRGenM α} {next : α → IRGenM β} (hfirst : Flows entry true first)
    (hnext : ∀ a, Flows entry through (next a)) : Flows entry through (first >>= next) := by
  constructor
  intro g hg hentry
  have hflow := hfirst.flow g hg hentry
  exact hflow.trans ((hnext _).flow _ hflow.writing (hentry.trans_le hflow.grows.blocks))

theorem straight {i : Instr} (h : i.isTerminator = false) : i.successors = [] := by
  cases i with
  | br | condBr | ret | unreachable => cases h
  | _ => rfl

theorem flows_emit {i : Instr} (h : i.isTerminator = false) : Flows entry true (emit i) := by
  constructor
  intro g hg _
  exact .append hg h (straight h)

theorem flows_define {i : Nat → Instr} (h : ∀ r, (i r).isTerminator = false) :
    Flows entry true (define i) := by
  constructor
  intro g hg _
  exact .define hg (h _) (straight (h _))

theorem flows_leave {i : Instr} (hterm : i.isTerminator = true) (hi : i.successors = []) :
    Flows entry false (emit i) := by
  constructor
  intro g hg _
  exact .close hg hterm hi

theorem flows_ret (value : Option Operand) : Flows entry false (emit (.ret value)) :=
  flows_leave rfl rfl

theorem flows_foldOr {folded : Option Operand} {i : Nat → Instr}
    (h : ∀ r, (i r).isTerminator = false) : Flows entry true (foldOr folded i) := by
  cases folded with
  | some constant => exact flows_pure constant
  | none => exact flows_define h

theorem flows_createICmp (pred : Compare) (lhs rhs : Operand) :
    Flows entry true (createICmp pred lhs rhs) :=
  flows_foldOr fun _ => rfl

theorem flows_createSExtOrTrunc (bits : Nat) (value : Operand) :
    Flows entry true (createSExtOrTrunc bits value) := by
  unfold createSExtOrTrunc
  split
  · exact flows_pure value
  · apply flows_foldOr
    intro r
    split <;> rfl

theorem flows_createGEP (ty : Ty) (base : Operand) (indices : List Operand) :
    Flows entry true (createGEP ty base indices) :=
  flows_foldOr fun _ => rfl

theorem flows_createLoad (ty : Ty) (address : Operand) :
    Flows entry true (createLoad ty address) :=
  flows_define fun _ => rfl

theorem flows_createCall (callee : Function) (args : List Operand) :
    Flows entry true (createCall callee args) := by
  unfold createCall
  split
  · exact (flows_emit rfl).bind fun _ => flows_pure _
  · exact flows_define fun _ => rfl

theorem flows_indexErrorFunction : Flows entry true indexErrorFunction := by
  apply flows_of_builder
  intro g
  unfold indexErrorFunction
  split <;> rfl

theorem flows_functionFor (symbol : Symbol) : Flows entry true (functionFor symbol) := by
  apply flows_of_builder
  intro g
  unfold functionFor
  split <;> rfl

/-! The arms of a branch, as actions. -/

theorem unlessClosed_emit (i : Instr) (g : IRGenerator) :
    (unlessClosed (emit i) g).2 = { g with builder := g.builder.closeWith i } := by
  unfold unlessClosed Builder.closeWith
  change ((if g.builder.blockOpen = true then emit i else pure PUnit.unit) g).2 = _
  split <;> rfl

theorem Flows.arm {action : IRGenM Unit} (h : Flows entry through action)
    {s : Builder Instr} {g : IRGenerator} (base block next : Nat)
    (hg : g.builder = s.moveTo block) (htidy : s.Tidy) (hentry : entry < s.nextBlock)
    (hbase : base ≤ block) (hborn : block < s.nextBlock) (hempty : s.code block = [])
    (hnext : next < s.nextBlock)
    (htarget : (s.code next = [] ∧ next ≠ block) ∨
      (s.Reaches entry block → s.Reaches entry next)) :
    Builder.Arm entry base block next through s
      ((do action; unlessClosed (emit (.br next)) : IRGenM Unit) g).2.builder := by
  have hwriting : g.builder.Writing := hg ▸ htidy.writing hborn hempty
  have hflow := h.flow g hwriting (by rw [hg]; exact hentry)
  rw [hg] at hflow
  change Builder.Arm entry base block next through s
    (unlessClosed (emit (.br next)) (action g).2).2.builder
  rw [unlessClosed_emit]
  exact hflow.arm base next rfl rfl hbase hborn hnext htarget

/-! The subscript check goes on in the block for a good subscript.  `s` is the builder
without the two blocks. -/

theorem flows_report (index : Operand) : Flows entry false (do
    let callee ← indexErrorFunction
    let _ ← createCall callee [index]
    emit .unreachable) := by
  apply flows_indexErrorFunction.bind
  intro callee
  exact (flows_createCall callee [index]).bind fun _ => flows_leave rfl rfl

/-- The report ends in `unreachable`. -/
theorem report_closed (index : Operand) (g : IRGenerator) {i : Instr} :
    let s := ((do
      let callee ← indexErrorFunction
      let _ ← createCall callee [index]
      emit .unreachable : IRGenM Unit) g).2.builder
    s.closeWith i = s := by
  intro s
  have hlast : (s.code s.cur).getLast? = some .unreachable := by
    change ((Builder.append _ _).code (Builder.append _ _).cur).getLast? = _
    rw [Builder.append_cur, Builder.append_code_cur, List.getLast?_concat]
  have hclosed : s.blockOpen = false := by
    unfold Builder.blockOpen
    rw [hlast]
    rfl
  simp [Builder.closeWith, hclosed]

theorem flow_fork {s : Builder Instr} {g : IRGenerator} (hs : s.Writing)
    (hentry : entry < s.nextBlock) (hcode : g.builder.code = s.code)
    (hcur : g.builder.cur = s.cur) (hblocks : g.builder.nextBlock = s.nextBlock + 2)
    (hregs : s.nextReg ≤ g.builder.nextReg) (negative index : Operand) :
    Builder.Flow entry true s ((do
      emit (.condBr negative s.nextBlock (s.nextBlock + 1))
      setInsertPoint s.nextBlock
      let callee ← indexErrorFunction
      let _ ← createCall callee [index]
      emit .unreachable
      setInsertPoint (s.nextBlock + 1) : IRGenM Unit) g).2.builder := by
  let n := s.nextBlock
  let u := g.builder.append (.condBr negative n (n + 1))
  have hbranch : Builder.Branched entry s u [n, n + 1] := by
    apply Builder.Branched.of_append (i := .condBr negative n (n + 1)) hs hcode hcur
    · omega
    · exact hregs
    · intro c hc
      change c ∈ [n, n + 1] at hc
      simp only [List.mem_cons, List.not_mem_nil, or_false] at hc
      omega
  have hu : u.nextBlock = n + 2 := hblocks
  have hwriting := hbranch.tidy.writing (b := n) (by omega) (hbranch.empty n le_rfl)
  have hflows : Flows entry false (do
      let callee ← indexErrorFunction
      let _ ← createCall callee [index]
      emit .unreachable) := flows_report index
  have hreport := hflows.flow { g with builder := u.moveTo n } hwriting
    (show entry < u.nextBlock by omega)
  have harm := hreport.arm (i := .br (n + 1)) n (n + 1) rfl rfl le_rfl (by omega) (by omega)
    (.inl ⟨hbranch.empty _ (Nat.le_succ n), Nat.succ_ne_self n⟩)
  rw [report_closed] at harm
  exact (Builder.Joined.ifThen hs hentry hbranch hu harm).moveTo

theorem flows_checkIndex (options : IRGenOptions) (index : Operand) :
    Flows entry true (checkIndex options index) := by
  unfold checkIndex
  split
  · exact flows_pure index
  split
  · exact flows_pure index
  constructor
  intro g hg hentry
  let n := g.builder.nextBlock
  let g2 : IRGenerator :=
    { g with builder := (g.builder.newBlock.attach n).newBlock.attach (n + 1) }
  change Builder.Flow entry true g.builder ((do
    let negative ← createICmp .slt index (int32 0)
    emit (.condBr negative n (n + 1))
    setInsertPoint n
    let callee ← indexErrorFunction
    let _ ← createCall callee [index]
    emit .unreachable
    setInsertPoint (n + 1)
    return index : IRGenM Operand) g2).2.builder
  unfold createICmp
  cases hfold : foldICmp .slt index (int32 0) with
  | some negative =>
      exact flow_fork (g := g2) hg hentry rfl rfl rfl le_rfl negative index
  | none =>
      have htest : Builder.Flow entry true g.builder
          (g.builder.define fun r => .icmp r .slt index (int32 0)) := .define hg rfl rfl
      have hfork := flow_fork (s := g.builder.define fun r => .icmp r .slt index (int32 0))
        (g := { g2 with builder := g2.builder.define fun r => .icmp r .slt index (int32 0) })
        htest.writing hentry rfl rfl rfl le_rfl (.reg g.builder.nextReg) index
      exact htest.trans hfork

theorem flows_emitIf {cond : IRGenM Operand} {thenStmt : IRGenM Unit}
    (hcond : Flows entry true cond) (hthen : Flows entry through thenStmt) :
    Flows entry true (emitIf cond thenStmt none) := by
  unfold emitIf
  apply hcond.bind
  intro v
  constructor
  intro g hg hentry
  let n := g.builder.nextBlock
  let s := (g.builder.newBlock.attach n).newBlock.append (.condBr v n (n + 1))
  have hbranch : Builder.Branched entry g.builder s [n, n + 1] := by
    apply Builder.Branched.of_append (i := .condBr v n (n + 1))
      (t := (g.builder.newBlock.attach n).newBlock) hg rfl rfl
    · exact Nat.le_add_right n 2
    · exact le_rfl
    · intro c hc
      change c ∈ [n, n + 1] at hc
      simp only [List.mem_cons, List.not_mem_nil, or_false] at hc
      change n ≤ c ∧ c < n + 2
      omega
  have harm := hthen.arm (s := s)
    (g := { g with builder := s.moveTo n }) n n (n + 1) rfl hbranch.tidy
    (Nat.lt_add_right 2 hentry) le_rfl
    (show n < n + 2 by omega) (hbranch.empty n le_rfl) (show n + 1 < n + 2 by omega)
    (.inl ⟨hbranch.empty _ (Nat.le_succ n), Nat.succ_ne_self n⟩)
  have hjoined := Builder.Joined.ifThen hg hentry hbranch rfl harm
  exact hjoined.start

theorem flows_emitIfElse {cond : IRGenM Operand} {thenStmt elseStmt : IRGenM Unit}
    (hcond : Flows entry true cond) (hthen : Flows entry through thenStmt)
    (helse : Flows entry other elseStmt) :
    Flows entry (through || other) (emitIf cond thenStmt (some elseStmt)) := by
  unfold emitIf
  apply hcond.bind
  intro v
  constructor
  intro g hg hentry
  let n := g.builder.nextBlock
  let s := ((g.builder.newBlock.attach n).newBlock.attach (n + 1)).newBlock.append
    (.condBr v n (n + 1))
  have hbranch : Builder.Branched entry g.builder s [n, n + 1] := by
    apply Builder.Branched.of_append (i := .condBr v n (n + 1))
      (t := ((g.builder.newBlock.attach n).newBlock.attach (n + 1)).newBlock) hg rfl rfl
    · exact Nat.le_add_right n 3
    · exact le_rfl
    · intro c hc
      change c ∈ [n, n + 1] at hc
      simp only [List.mem_cons, List.not_mem_nil, or_false] at hc
      change n ≤ c ∧ c < n + 3
      omega
  have harm := hthen.arm (s := s)
    (g := { g with builder := s.moveTo n }) n n (n + 2) rfl hbranch.tidy
    (Nat.lt_add_right 3 hentry) le_rfl
    (show n < n + 3 by omega) (hbranch.empty n le_rfl) (show n + 2 < n + 3 by omega)
    (.inl ⟨hbranch.empty _ (Nat.le_add_right n 2), by omega⟩)
  let g1 := ((do
    thenStmt
    unlessClosed (emit (.br (n + 2))) : IRGenM Unit) { g with builder := s.moveTo n }).2
  have hle : n + 3 ≤ g1.builder.nextBlock := harm.grows.blocks
  have hempty : ∀ b, n < b → b < n + 3 → g1.builder.code b = [] := by
    intro b hb hlt
    rw [harm.frame b hlt (Nat.ne_of_gt hb)]
    exact hbranch.empty b (Nat.le_of_lt hb)
  have harm' := helse.arm (s := g1.builder)
    (g := { g1 with builder := g1.builder.moveTo (n + 1) }) n (n + 1) (n + 2) rfl harm.tidy
    (by omega)
    (Nat.le_succ n) (by omega) (hempty (n + 1) (by omega) (by omega)) (by omega)
    (.inl ⟨hempty (n + 2) (by omega) (by omega), by omega⟩)
  have hjoined := Builder.Joined.ifThenElse hg hentry hbranch rfl harm harm'
  exact hjoined.start

theorem flows_emitWhile {cond : IRGenM Operand} {body : IRGenM Unit}
    (hcond : Flows entry true cond) (hbody : Flows entry through body) :
    Flows entry true (emitWhile cond body) := by
  unfold emitWhile
  constructor
  intro g hg hentry
  let n := g.builder.nextBlock
  let s := (((g.builder.newBlock.attach n).newBlock.attach (n + 1)).newBlock.attach
    (n + 2)).append (.br n)
  have hbranch : Builder.Branched entry g.builder s [n] := by
    apply Builder.Branched.of_append (i := .br n) (t := ((g.builder.newBlock.attach n).newBlock.attach
      (n + 1)).newBlock.attach (n + 2)) hg rfl rfl
    · exact Nat.le_add_right n 3
    · exact le_rfl
    · intro c hc
      change c ∈ [n] at hc
      rw [List.mem_singleton.mp hc]
      exact ⟨le_rfl, show n < n + 3 by omega⟩
  have hwriting := hbranch.tidy.writing (b := n) (show n < n + 3 by omega)
    (hbranch.empty n le_rfl)
  have hflow := hcond.flow { g with builder := s.moveTo n } hwriting (Nat.lt_add_right 3 hentry)
  let v := (cond { g with builder := s.moveTo n }).1
  let g1 := (cond { g with builder := s.moveTo n }).2
  have hloop := Builder.Looped.of_branched (i := .condBr v (n + 1) (n + 2)) hg hentry hbranch
    rfl hflow rfl
  let w := g1.builder.append (.condBr v (n + 1) (n + 2))
  have hle : n + 3 ≤ w.nextBlock := hloop.blocks
  have harm := hbody.arm
    (s := w) (g := { g1 with builder := w.moveTo (n + 1) }) n (n + 1) n rfl hloop.tidy
    (by omega) (Nat.le_succ n) (by omega) (hloop.empty _ (.inl rfl)) (by omega)
    (.inr fun h => (hloop.reach n le_rfl (by omega)).mpr
      ((hloop.reach (n + 1) (by omega) (by omega)).mp h))
  exact (hloop.joined harm).moveTo

theorem flows_emitReturn {value : Option (IRGenM Operand)}
    (hvalue : ∀ action, value = some action → Flows entry true action) :
    Flows entry false (emitReturn value) := by
  unfold emitReturn
  apply (flows_of_builder (fun _ => rfl) : Flows entry true getCurrentFunction).bind
  intro function
  split
  · cases value with
    | none => exact flows_ret none
    | some action => exact (hvalue action rfl).bind fun _ => flows_ret none
  · cases value with
    | none => exact flows_ret _
    | some action => exact (hvalue action rfl).bind fun v => flows_ret (some v)

/-! Expressions never leave their block behind. -/

theorem flows_addressOf (symbol : Symbol) : Flows entry true (addressOf symbol) :=
  flows_of_builder fun _ => rfl

theorem flows_fallback (name : String) : Flows entry true (fallback name) :=
  flows_of_builder fun _ => rfl

theorem flows_arrayBase (options : IRGenOptions) (symbol : Symbol) :
    Flows entry true (arrayBase options symbol) := by
  unfold arrayBase
  apply (flows_addressOf symbol).bind
  intro address
  cases address with
  | none => exact (flows_fallback _).bind fun _ => flows_pure _
  | some address =>
      dsimp only
      split
      · exact flows_createLoad .ptr address
      · exact flows_createGEP _ address _

theorem flows_elementAddress (options : IRGenOptions) (head : VarHead)
    {index : Option (IRGenM Operand)}
    (hindex : ∀ action, index = some action → Flows entry true action) :
    Flows entry true (elementAddress options head index) := by
  unfold elementAddress
  cases head.symbol with
  | none => exact (flows_fallback _).bind fun _ => flows_pure _
  | some symbol =>
      apply (flows_addressOf symbol).bind
      intro address
      cases address with
      | none => exact (flows_fallback _).bind fun _ => flows_pure _
      | some address =>
          cases index with
          | none => exact flows_pure _
          | some action =>
              apply (hindex action rfl).bind
              intro value
              apply (flows_of_builder (fun _ => rfl) : Flows entry true (subscript value)).bind
              intro _
              apply (flows_checkIndex options value).bind
              intro checked
              apply (flows_createSExtOrTrunc _ checked).bind
              intro wide
              split
              · apply (flows_createLoad .ptr address).bind
                intro base
                exact (flows_createGEP .i32 base [wide]).bind fun _ => flows_pure _
              · exact (flows_createGEP _ address _).bind fun _ => flows_pure _

theorem flows_emitVar (options : IRGenOptions) (head : VarHead)
    {index : Option (IRGenM Operand)}
    (hindex : ∀ action, index = some action → Flows entry true action) :
    Flows entry true (emitVar options head index) := by
  unfold emitVar
  split
  · apply (flows_of_builder (fun _ => rfl) : Flows entry true (error _ _)).bind
    intro _
    exact flows_pure _
  · apply (flows_elementAddress options head hindex).bind
    intro place
    cases place with
    | none => exact flows_pure _
    | some place =>
        apply (flows_of_builder (fun _ => rfl) :
          Flows entry true (access place.subscript)).bind
        intro _
        exact flows_createLoad .i32 place.address

theorem flows_emitAssign (options : IRGenOptions) (target : VarHead)
    {index : Option (IRGenM Operand)} {value : IRGenM Operand}
    (hindex : ∀ action, index = some action → Flows entry true action)
    (hvalue : Flows entry true value) :
    Flows entry true (emitAssign options target index value) := by
  unfold emitAssign
  apply (flows_elementAddress options target hindex).bind
  intro place
  cases place with
  | none => exact hvalue
  | some place =>
      apply hvalue.bind
      intro v
      apply (flows_of_builder (fun _ => rfl) :
          Flows entry true (access place.subscript)).bind
      intro _
      apply (flows_emit (i := .store v place.address) rfl).bind
      intro _
      exact flows_pure v

theorem flows_emitBinary (op : BinaryOp) {lhs rhs : IRGenM Operand}
    (hlhs : Flows entry true lhs) (hrhs : Flows entry true rhs) :
    Flows entry true (emitBinary op lhs rhs) := by
  unfold emitBinary
  apply hlhs.bind
  intro a
  apply hrhs.bind
  intro b
  cases op with
  | add | sub | mul | div => exact flows_foldOr fun _ => rfl
  | _ => exact (flows_createICmp _ a b).bind fun _ => flows_foldOr fun _ => rfl

theorem flows_emitCall (callee : String) (symbol : Option Symbol)
    {args : IRGenM (List Operand)} (hargs : Flows entry true args) :
    Flows entry true (emitCall callee symbol args) := by
  unfold emitCall
  cases symbol with
  | none => exact (flows_fallback callee).bind fun _ => flows_pure _
  | some symbol =>
      apply (flows_functionFor symbol).bind
      intro function
      exact hargs.bind fun values => flows_createCall function values

mutual

theorem flows_emitExpr (options : IRGenOptions) :
    ∀ e : Expr, Flows entry true (emitExpr options e)
  | .num _ _ => by
      unfold emitExpr
      exact flows_pure _
  | .var head index => by
      unfold emitExpr
      exact flows_emitVar options head (flows_emitIndex options index)
  | .assign _ _ target index value => by
      unfold emitExpr
      exact flows_emitAssign options target (flows_emitIndex options index)
        (flows_emitExpr options value)
  | .binary _ op _ lhs rhs => by
      unfold emitExpr
      exact flows_emitBinary op (flows_emitExpr options lhs) (flows_emitExpr options rhs)
  | .call _ callee args symbol => by
      unfold emitExpr
      exact flows_emitCall callee symbol (flows_emitArgs options _ args)

theorem flows_emitIndex (options : IRGenOptions) :
    ∀ index : Option Expr, ∀ action, emitIndex options index = some action →
      Flows entry true action
  | none, action, h => by
      unfold emitIndex at h
      cases h
  | some index, action, h => by
      unfold emitIndex at h
      cases h
      exact flows_emitExpr options index

theorem flows_emitArgs (options : IRGenOptions) :
    ∀ (paramTypes : List CType) (args : List Expr),
      Flows entry true (emitArgs options paramTypes args)
  | _, [] => by
      unfold emitArgs
      exact flows_pure _
  | paramTypes, arg :: args => by
      have hothers : ∀ first, Flows entry true
          (emitArgs options paramTypes.tail args >>= fun others => pure (first :: others)) :=
        fun first => (flows_emitArgs options paramTypes.tail args).bind fun _ => flows_pure _
      unfold emitArgs
      dsimp only
      split
      · exact (flows_arrayBase options _).bind hothers
      · exact (flows_emitExpr options arg).bind hothers

end

theorem flows_emitCondition (options : IRGenOptions) (cond : Expr) :
    Flows entry true (emitCondition options cond) :=
  (flows_emitExpr options cond).bind fun v => flows_createICmp .ne v (int32 0)

/-! Statements, and how they compare with `alwaysReturns`. -/

/-- What follows is emitted only where the block is left open. -/
theorem Flows.andThen {first second : IRGenM Unit} (hfirst : Flows entry through first)
    (hsecond : Flows entry other second) :
    Flows entry (through && other) (first >>= fun _ => unlessClosed second) := by
  constructor
  intro g hg hentry
  have hflow := hfirst.flow g hg hentry
  let g1 := (first g).2
  change Builder.Flow entry (through && other) g.builder
    ((if g1.builder.blockOpen = true then second else pure PUnit.unit : IRGenM Unit) g1).2.builder
  rcases hflow.exit with ⟨hopen, hreach⟩ | ⟨hclosed, hfalse⟩
  · rw [Builder.blockOpen_of_isOpen hopen, if_pos rfl]
    have hflow' := hsecond.flow g1 ⟨hflow.tidy, hflow.born, hopen⟩
      (hentry.trans_le hflow.grows.blocks)
    have hexit := hflow'.exit
    constructor
    · exact hflow.grows.followed hflow'.grows
    · exact hflow'.tidy
    · exact hflow'.born
    · intro b hb
      rw [hflow'.old b (hb.trans_le hflow.grows.blocks), hflow.old b hb]
    · rw [hreach] at hexit
      rcases hexit with ⟨hopen', hreach'⟩ | ⟨hclosed', hfalse'⟩
      · exact .inl ⟨hopen', by rw [hreach', Bool.and_eq_true, and_assoc]⟩
      · exact .inr ⟨hclosed', by rw [hfalse', Bool.and_false]⟩
  · rw [Builder.blockOpen_of_isClosed hclosed, if_neg (by simp)]
    exact ⟨hflow.grows, hflow.tidy, hflow.born, hflow.old, .inr ⟨hclosed, by simp [hfalse]⟩⟩

open SemanticAnalyzer

mutual

theorem flows_emitStmt (options : IRGenOptions) :
    ∀ stmt : Stmt, Flows entry (!alwaysReturns stmt) (emitStmt options stmt)
  | .compound _ _ stmts => by
      unfold emitStmt alwaysReturns
      exact flows_emitCompound options stmts
  | .expr _ none => by
      unfold emitStmt alwaysReturns
      exact flows_pure ()
  | .expr _ (some e) => by
      unfold emitStmt alwaysReturns
      exact (flows_emitExpr options e).bind fun _ => flows_pure ()
  | .ifs _ cond thenStmt none => by
      unfold emitStmt alwaysReturns
      exact flows_emitIf (flows_emitCondition options cond) (flows_emitStmt options thenStmt)
  | .ifs _ cond thenStmt (some elseStmt) => by
      unfold emitStmt alwaysReturns
      rw [Bool.not_and]
      exact flows_emitIfElse (flows_emitCondition options cond)
        (flows_emitStmt options thenStmt) (flows_emitStmt options elseStmt)
  | .whiles _ cond body => by
      unfold emitStmt alwaysReturns
      exact flows_emitWhile (flows_emitCondition options cond) (flows_emitStmt options body)
  | .ret _ none => by
      unfold emitStmt alwaysReturns
      exact flows_emitReturn fun _ h => by cases h
  | .ret _ (some value) => by
      unfold emitStmt alwaysReturns
      apply flows_emitReturn
      intro action h
      cases h
      exact flows_emitExpr options value

theorem flows_emitCompound (options : IRGenOptions) :
    ∀ stmts : List Stmt, Flows entry (!alwaysReturnsSome stmts) (emitCompound options stmts)
  | [] => by
      unfold emitCompound alwaysReturnsSome
      exact flows_pure ()
  | stmt :: stmts => by
      unfold emitCompound alwaysReturnsSome
      rw [Bool.not_or]
      exact (flows_emitStmt options stmt).andThen (flows_emitCompound options stmts)

end

end IRGenerator

end CMinus
