import CMinus.SemanticAnalyzer
import CMinus.MLIRGen.Compose
import CMinus.SSA.Live

namespace CMinus

namespace MLIRGenerator

open SSA MLIR

/-! How emission moves the insertion point in the std flavor, where every block is
reachable: it is left open if and only if `through`. -/

structure Leads {α : Type} (entry : Nat) (through : Bool) (action : MLIRGenM α) : Prop where
  steers : ∀ g : MLIRGenerator, g.builder.Alive entry →
    Builder.Steers entry through g.builder (action g).2.builder

variable {α β : Type} {entry : Nat} {through other : Bool}

/-- An action that leaves the builder alone. -/
theorem leads_of_builder {action : MLIRGenM α} (h : ∀ g, (action g).2.builder = g.builder) :
    Leads entry true action := by
  constructor
  intro g hg
  rw [h g]
  exact .refl hg

theorem leads_pure (a : α) : Leads entry true (pure a : MLIRGenM α) :=
  leads_of_builder fun _ => rfl

theorem Leads.bind {first : MLIRGenM α} {next : α → MLIRGenM β}
    (hfirst : Leads entry true first) (hnext : ∀ a, Leads entry through (next a)) :
    Leads entry through (first >>= next) := by
  constructor
  intro g hg
  have hsteers := hfirst.steers g hg
  exact hsteers.trans ((hnext _).steers _ (hsteers.alive hg))

theorem straight {op : Op} (h : op.isTerminator = false) : op.successors = [] := by
  cases op with
  | br | condBr => cases h
  | _ => rfl

theorem leads_emit {op : Op} (h : op.isTerminator = false) : Leads entry true (emit op) := by
  constructor
  intro g hg
  exact .append hg h (straight h)

theorem leads_define (ty : Ty) {op : Nat → Op} (h : ∀ r, (op r).isTerminator = false) :
    Leads entry true (define ty op) := by
  constructor
  intro g hg
  exact .define hg (h _) (straight (h _))

theorem leads_leave {op : Op} (hterm : op.isTerminator = true) (hop : op.successors = []) :
    Leads entry false (emit op) := by
  constructor
  intro g hg
  exact .close hg hterm hop

theorem leads_int32 (value : Int) : Leads entry true (int32 value) := by
  constructor
  intro g hg
  exact .define (i := fun r => .constant r (BitVec.ofInt 32 value)) hg rfl rfl

theorem leads_cmpi (pred : Compare) (lhs rhs : TypedValue) :
    Leads entry true (cmpi pred lhs rhs) :=
  leads_define .i1 fun _ => rfl

/-! A block that is filled and leads on to another. -/

theorem unlessClosed_emit (op : Op) (g : MLIRGenerator) :
    (unlessClosed (emit op) g).2.builder = g.builder.closeWith op := by
  unfold unlessClosed Builder.closeWith
  change ((if g.builder.blockOpen = true then emit op else pure PUnit.unit) g).2.builder = _
  split <;> rfl

theorem Leads.arm {action : MLIRGenM Unit} (h : Leads entry through action)
    {s : Builder Op} {g : MLIRGenerator} (base block next : Nat)
    (hg : g.builder = (s.attach block).moveTo block) (htidy : s.Tidy)
    (hentry : entry < s.nextBlock) (hlive : s.Live entry) (hreach : s.Reaches entry block)
    (hbase : base ≤ block) (hborn : block < s.nextBlock) (hempty : s.code block = [])
    (hnext : next < s.nextBlock)
    (htarget : (s.code next = [] ∧ next ≠ block) ∨
      (s.Reaches entry block → s.Reaches entry next)) :
    let t := ((do action; unlessClosed (emit (.br next)) : MLIRGenM Unit) g).2.builder
    Builder.Arm entry base block next through s t ∧ t.Live entry := by
  have halive : g.builder.Alive entry := by
    rw [hg]
    exact ⟨(htidy.attach block).writing hborn hempty, hentry, hlive.start hreach⟩
  have hsteers := h.steers g halive
  rw [hg] at hsteers
  change Builder.Arm entry base block next through s
    (unlessClosed (emit (.br next)) (action g).2).2.builder ∧
      (unlessClosed (emit (.br next)) (action g).2).2.builder.Live entry
  rw [unlessClosed_emit]
  constructor
  · have harm := hsteers.flow.arm (s := s.attach block) (i := .br next) base next rfl rfl hbase
      hborn hnext htarget
    exact harm.of_attach
  · exact hsteers.live.closeWith _

theorem hasNoPredecessors_iff {g : MLIRGenerator} (h : g.builder.Tidy) (block : Nat) :
    (hasNoPredecessors block g).1 = false ↔ g.builder.HasPredecessor block := by
  unfold hasNoPredecessors
  rw [List.all_eq_false]
  constructor
  · intro hsome
    obtain ⟨b, -, hb⟩ := hsome
    rw [Bool.not_eq_true, List.all_eq_false] at hb
    obtain ⟨op, hop, htarget⟩ := hb
    have hsucc : block ∈ op.successors := by simpa using htarget
    exact ⟨b, op, hop, hsucc⟩
  · intro hpred
    obtain ⟨b, op, hop, htarget⟩ := hpred
    have hlt : b < g.builder.nextBlock := by
      by_contra hge
      rw [h.unborn b (Nat.le_of_not_lt hge)] at hop
      cases hop
    refine ⟨b, List.mem_range.mpr hlt, ?_⟩
    rw [Bool.not_eq_true, List.all_eq_false]
    have hsucc : block ∈ op.successors := htarget
    exact ⟨op, hop, by simpa using hsucc⟩

/-- After the arms of an `if`, the end block is started exactly where one of them gets there. -/
theorem steers_startUnlessDead {s : Builder Op} {g : MLIRGenerator} {block : Nat}
    (hs : s.Alive entry) (hjoined : Builder.Joined entry block through s g.builder)
    (hclosed : IsClosed (g.builder.code g.builder.cur))
    (hborn : g.builder.cur < g.builder.nextBlock) (hlive : g.builder.Live entry) :
    Builder.Steers entry through s (startUnlessDead block g).2.builder := by
  have hpred := hjoined.hasPredecessor_iff hs hlive
  rw [← hasNoPredecessors_iff hjoined.tidy] at hpred
  change Builder.Steers entry through s
    ((if (hasNoPredecessors block g).1 = true then deleteBlock block else startBlock block :
      MLIRGenM Unit) g).2.builder
  cases through with
  | true =>
      rw [hpred.mpr rfl]
      exact hjoined.steers rfl hs.live hlive
  | false =>
      have hdead : (hasNoPredecessors block g).1 = true := by simpa using hpred
      rw [hdead]
      exact hjoined.delete hclosed hborn hlive

theorem leads_emitIf {cond : MLIRGenM TypedValue} {thenStmt : MLIRGenM Unit}
    (hcond : Leads entry true cond) (hthen : Leads entry through thenStmt) :
    Leads entry true (emitIf .std cond thenStmt none) := by
  unfold emitIf emitIfBlocks
  apply hcond.bind
  intro v
  constructor
  intro g hg
  let n := g.builder.nextBlock
  let u := g.builder.newBlock.newBlock.append (.condBr v.operand n (n + 1))
  have hbranch : Builder.Branched entry g.builder u [n, n + 1] := by
    apply Builder.Branched.of_append (i := .condBr v.operand n (n + 1))
      (t := g.builder.newBlock.newBlock) hg.toWriting rfl rfl
    · exact Nat.le_add_right n 2
    · exact le_rfl
    · intro c hc
      change c ∈ [n, n + 1] at hc
      simp only [List.mem_cons, List.not_mem_nil, or_false] at hc
      change n ≤ c ∧ c < n + 2
      omega
  have hlive := hg.live.newBlock.newBlock
  have hreach : u.Reaches entry n :=
    hlive.branch (i := .condBr v.operand n (n + 1)) List.mem_cons_self
  obtain ⟨harm, hlive'⟩ := hthen.arm (s := u)
    (g := { g with builder := (u.attach n).moveTo n }) n n (n + 1) rfl hbranch.tidy
    (Nat.lt_add_right 2 hg.entered) (hlive.append _) hreach le_rfl (show n < n + 2 by omega)
    (hbranch.empty n le_rfl) (show n + 1 < n + 2 by omega)
    (.inl ⟨hbranch.empty _ (Nat.le_succ n), Nat.succ_ne_self n⟩)
  have hjoined := Builder.Joined.ifThen hg.toWriting hg.entered hbranch rfl harm
  let g1 := ((do
    thenStmt
    unlessClosed (emit (.br (n + 1))) : MLIRGenM Unit)
      { g with builder := (u.attach n).moveTo n }).2
  have hend : Builder.Steers entry true g.builder (startUnlessDead (n + 1) g1).2.builder :=
    steers_startUnlessDead hg hjoined harm.closed harm.born hlive'
  exact hend

theorem leads_emitIfElse {cond : MLIRGenM TypedValue} {thenStmt elseStmt : MLIRGenM Unit}
    (hcond : Leads entry true cond) (hthen : Leads entry through thenStmt)
    (helse : Leads entry other elseStmt) :
    Leads entry (through || other) (emitIf .std cond thenStmt (some elseStmt)) := by
  unfold emitIf emitIfBlocks
  apply hcond.bind
  intro v
  constructor
  intro g hg
  let n := g.builder.nextBlock
  let u := g.builder.newBlock.newBlock.newBlock.append (.condBr v.operand n (n + 1))
  have hbranch : Builder.Branched entry g.builder u [n, n + 1] := by
    apply Builder.Branched.of_append (i := .condBr v.operand n (n + 1))
      (t := g.builder.newBlock.newBlock.newBlock) hg.toWriting rfl rfl
    · exact Nat.le_add_right n 3
    · exact le_rfl
    · intro c hc
      change c ∈ [n, n + 1] at hc
      simp only [List.mem_cons, List.not_mem_nil, or_false] at hc
      change n ≤ c ∧ c < n + 3
      omega
  have hlive := hg.live.newBlock.newBlock.newBlock
  have hreach : ∀ b ∈ [n, n + 1], u.Reaches entry b :=
    fun b hb => hlive.branch (i := .condBr v.operand n (n + 1)) hb
  obtain ⟨harm, hlive'⟩ := hthen.arm (s := u)
    (g := { g with builder := (u.attach n).moveTo n }) n n (n + 2) rfl hbranch.tidy
    (Nat.lt_add_right 3 hg.entered) (hlive.append _) (hreach n (by simp)) le_rfl
    (show n < n + 3 by omega) (hbranch.empty n le_rfl) (show n + 2 < n + 3 by omega)
    (.inl ⟨hbranch.empty _ (Nat.le_add_right n 2), by omega⟩)
  let g1 := ((do
    thenStmt
    unlessClosed (emit (.br (n + 2))) : MLIRGenM Unit)
      { g with builder := (u.attach n).moveTo n }).2
  have hle : n + 3 ≤ g1.builder.nextBlock := harm.grows.blocks
  have hempty : ∀ b, n < b → b < n + 3 → g1.builder.code b = [] := by
    intro b hb hlt
    rw [harm.frame b hlt (Nat.ne_of_gt hb)]
    exact hbranch.empty b (Nat.le_of_lt hb)
  have hentry := hg.entered
  have hn : g.builder.nextBlock = n := rfl
  obtain ⟨harm', hlive''⟩ := helse.arm (s := g1.builder)
    (g := { g1 with builder := (g1.builder.attach (n + 1)).moveTo (n + 1) }) n (n + 1) (n + 2)
    rfl harm.tidy (by omega) hlive' (harm.grows.reaches (hreach (n + 1) (by simp)))
    (Nat.le_succ n) (by omega) (hempty (n + 1) (by omega) (by omega)) (by omega)
    (.inl ⟨hempty (n + 2) (by omega) (by omega), by omega⟩)
  have hjoined := Builder.Joined.ifThenElse hg.toWriting hg.entered hbranch rfl harm harm'
  let g2 := ((do
    elseStmt
    unlessClosed (emit (.br (n + 2))) : MLIRGenM Unit)
      { g1 with builder := (g1.builder.attach (n + 1)).moveTo (n + 1) }).2
  have hend : Builder.Steers entry (through || other) g.builder
      (startUnlessDead (n + 2) g2).2.builder :=
    steers_startUnlessDead hg hjoined harm'.closed harm'.born hlive''
  exact hend

theorem leads_emitWhile {cond : MLIRGenM TypedValue} {body : MLIRGenM Unit}
    (hcond : Leads entry true cond) (hbody : Leads entry through body) :
    Leads entry true (emitWhile .std cond body) := by
  unfold emitWhile emitWhileBlocks
  constructor
  intro g hg
  let n := g.builder.nextBlock
  let u := g.builder.newBlock.newBlock.newBlock.append (.br n)
  have hbranch : Builder.Branched entry g.builder u [n] := by
    apply Builder.Branched.of_append (i := .br n)
      (t := g.builder.newBlock.newBlock.newBlock) hg.toWriting rfl rfl
    · exact Nat.le_add_right n 3
    · exact le_rfl
    · intro c hc
      change c ∈ [n] at hc
      rw [List.mem_singleton.mp hc]
      exact ⟨le_rfl, show n < n + 3 by omega⟩
  have hlive := hg.live.newBlock.newBlock.newBlock
  have hreach : u.Reaches entry n := hlive.branch (i := .br n) List.mem_cons_self
  -- the condition
  let head : MLIRGenerator := { g with builder := (u.attach n).moveTo n }
  have halive : head.builder.Alive entry :=
    ⟨(hbranch.tidy.attach n).writing (show n < n + 3 by omega) (hbranch.empty n le_rfl),
      Nat.lt_add_right 3 hg.entered, (hlive.append _).start hreach⟩
  have hsteers := hcond.steers head halive
  let v := (cond head).1
  let g1 := (cond head).2
  have hloop := Builder.Looped.of_branched (i := .condBr v.operand (n + 1) (n + 2)) (v := g1.builder)
    hg.toWriting hg.entered hbranch rfl (Builder.Flow.of_attach (c := n) hsteers.flow) rfl
  let w := g1.builder.append (.condBr v.operand (n + 1) (n + 2))
  have hle : n + 3 ≤ w.nextBlock := hloop.blocks
  have hentry := hg.entered
  have hn : g.builder.nextBlock = n := rfl
  have htargets : ∀ b ∈ [n + 1, n + 2], w.Reaches entry b :=
    fun b hb => hsteers.live.branch (i := .condBr v.operand (n + 1) (n + 2)) hb
  -- the body
  obtain ⟨harm, hlive'⟩ := hbody.arm (s := w)
    (g := { g1 with builder := (w.attach (n + 1)).moveTo (n + 1) }) n (n + 1) n rfl hloop.tidy
    (by omega) (hsteers.live.append _) (htargets (n + 1) (by simp)) (Nat.le_succ n) (by omega)
    (hloop.empty _ (.inl rfl)) (by omega)
    (.inr fun h => (hloop.reach n le_rfl (by omega)).mpr
      ((hloop.reach (n + 1) (by omega) (by omega)).mp h))
  exact (hloop.joined harm).steers rfl hg.live hlive'

theorem leads_checkIndex (options : MLIRGenOptions) (index : TypedValue) :
    Leads entry true (checkIndex .std options index) := by
  unfold checkIndex
  split
  · exact leads_pure ()
  split
  · exact leads_pure ()
  dsimp only
  apply (leads_int32 0).bind
  intro zero
  apply (leads_cmpi .slt index zero).bind
  intro negative
  constructor
  intro g hg
  let n := g.builder.nextBlock
  let u := g.builder.newBlock.newBlock.append (.condBr negative.operand n (n + 1))
  have hbranch : Builder.Branched entry g.builder u [n, n + 1] := by
    apply Builder.Branched.of_append (i := .condBr negative.operand n (n + 1))
      (t := g.builder.newBlock.newBlock) hg.toWriting rfl rfl
    · exact Nat.le_add_right n 2
    · exact le_rfl
    · intro c hc
      change c ∈ [n, n + 1] at hc
      simp only [List.mem_cons, List.not_mem_nil, or_false] at hc
      change n ≤ c ∧ c < n + 2
      omega
  have hlive := hg.live.newBlock.newBlock
  have hreach : ∀ b ∈ [n, n + 1], u.Reaches entry b :=
    fun b hb => hlive.branch (i := .condBr negative.operand n (n + 1)) hb
  let report : MLIRGenM Unit := do
    emit (.call none kIndexErrorName [index.operand])
    emit .unreachable
  have hreport : Leads entry false report := (leads_emit rfl).bind fun _ => leads_leave rfl rfl
  let fail : MLIRGenerator := { g with builder := (u.attach n).moveTo n }
  obtain ⟨harm, hlive'⟩ := hreport.arm (s := u) (g := fail) n n (n + 1) rfl hbranch.tidy
    (Nat.lt_add_right 2 hg.entered) (hlive.append _) (hreach n (by simp)) le_rfl
    (show n < n + 2 by omega) (hbranch.empty n le_rfl) (show n + 1 < n + 2 by omega)
    (.inl ⟨hbranch.empty _ (Nat.le_succ n), Nat.succ_ne_self n⟩)
  have halive : fail.builder.Alive entry :=
    ⟨(hbranch.tidy.attach n).writing (show n < n + 2 by omega) (hbranch.empty n le_rfl),
      Nat.lt_add_right 2 hg.entered, (hlive.append _).start (hreach n (by simp))⟩
  -- the report is closed by `unreachable`
  have hclosed : ((do report; unlessClosed (emit (.br (n + 1))) : MLIRGenM Unit)
      fail).2.builder = (report fail).2.builder := by
    change (unlessClosed (emit (.br (n + 1))) (report fail).2).2.builder = _
    rw [unlessClosed_emit]
    exact (hreport.steers fail halive).closeWith _
  rw [hclosed] at harm hlive'
  have hjoined := Builder.Joined.ifThen hg.toWriting hg.entered hbranch rfl harm
  exact hjoined.steers rfl hg.live hlive'

/-! Expressions never leave their block behind. -/

theorem leads_composes (options : MLIRGenOptions) :
    Composes .std options (Leads entry true) := by
  constructor
  · exact leads_pure
  · exact Leads.bind
  · exact fun op hop => leads_emit hop
  · exact fun ty op hop => leads_define ty hop
  · exact leads_int32
  · exact fun symbol => leads_of_builder fun _ => rfl
  · exact fun name => leads_of_builder fun _ => rfl
  · exact fun use => leads_of_builder fun _ => rfl
  · exact fun site => leads_of_builder fun _ => rfl
  · exact fun loc message => leads_of_builder fun _ => rfl
  · exact leads_checkIndex options

theorem leads_emitExpr (options : MLIRGenOptions) (e : Expr) :
    Leads entry true (emitExpr .std options e) :=
  (leads_composes options).emitExpr e

theorem leads_emitCondition (options : MLIRGenOptions) (cond : Expr) :
    Leads entry true (emitCondition .std options cond) :=
  (leads_composes options).emitCondition cond

/-! Statements, and how they compare with `alwaysReturns`. -/

theorem leads_createReturn (value : TypedValue) :
    Leads entry false (createReturn .std value) :=
  leads_leave rfl rfl

theorem leads_emitReturn {value : Option (MLIRGenM TypedValue)}
    (hvalue : ∀ action, value = some action → Leads entry true action) :
    Leads entry false (emitReturn .std value) := by
  unfold emitReturn
  apply (leads_of_builder (fun _ => rfl) : Leads entry true getFunction).bind
  intro function
  split
  · cases value with
    | none => exact leads_createReturn noValue
    | some action => exact (hvalue action rfl).bind fun _ => leads_createReturn noValue
  · cases value with
    | none => exact (leads_int32 0).bind fun v => leads_createReturn v
    | some action => exact (hvalue action rfl).bind fun v => leads_createReturn v

/-- What follows is emitted only where the block is left open. -/
theorem Leads.andThen {first second : MLIRGenM Unit} (hfirst : Leads entry through first)
    (hsecond : Leads entry other second) :
    Leads entry (through && other) (first >>= fun _ => unlessClosed second) := by
  constructor
  intro g hg
  have hsteers := hfirst.steers g hg
  let g1 := (first g).2
  change Builder.Steers entry (through && other) g.builder
    ((if g1.builder.blockOpen = true then second else pure PUnit.unit : MLIRGenM Unit) g1).2.builder
  apply hsteers.andThen
  · intro hthrough
    subst hthrough
    rw [hsteers.blockOpen, if_pos rfl]
    exact hsecond.steers g1 (hsteers.alive hg)
  · intro hthrough
    subst hthrough
    rw [hsteers.blockOpen, if_neg Bool.false_ne_true]
    rfl

open SemanticAnalyzer

mutual

theorem leads_emitStmt (options : MLIRGenOptions) :
    ∀ stmt : Stmt, Leads entry (!alwaysReturns stmt) (emitStmt .std options stmt)
  | .compound _ _ stmts => by
      unfold emitStmt alwaysReturns
      exact leads_emitCompound options stmts
  | .expr _ none => by
      unfold emitStmt alwaysReturns
      exact leads_pure ()
  | .expr _ (some e) => by
      unfold emitStmt alwaysReturns
      exact (leads_emitExpr options e).bind fun _ => leads_pure ()
  | .ifs _ cond thenStmt none => by
      unfold emitStmt alwaysReturns
      exact leads_emitIf (leads_emitCondition options cond) (leads_emitStmt options thenStmt)
  | .ifs _ cond thenStmt (some elseStmt) => by
      unfold emitStmt alwaysReturns
      rw [Bool.not_and]
      exact leads_emitIfElse (leads_emitCondition options cond)
        (leads_emitStmt options thenStmt) (leads_emitStmt options elseStmt)
  | .whiles _ cond body => by
      unfold emitStmt alwaysReturns
      exact leads_emitWhile (leads_emitCondition options cond) (leads_emitStmt options body)
  | .ret _ none => by
      unfold emitStmt alwaysReturns
      exact leads_emitReturn fun _ h => by cases h
  | .ret _ (some value) => by
      unfold emitStmt alwaysReturns
      apply leads_emitReturn
      intro action h
      cases h
      exact leads_emitExpr options value

theorem leads_emitCompound (options : MLIRGenOptions) :
    ∀ stmts : List Stmt, Leads entry (!alwaysReturnsSome stmts) (emitCompound .std options stmts)
  | [] => by
      unfold emitCompound alwaysReturnsSome
      exact leads_pure ()
  | stmt :: stmts => by
      unfold emitCompound alwaysReturnsSome
      rw [Bool.not_or]
      exact (leads_emitStmt options stmt).andThen (leads_emitCompound options stmts)

end

end MLIRGenerator

end CMinus
