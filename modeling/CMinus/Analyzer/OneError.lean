import CMinus.Analyzer.Cascade

namespace CMinus

namespace SemanticAnalyzer

section Replacement

variable {program : Program} {fresh : String} {use : Use} {s s' : SemanticAnalyzer}

/-! What a declaration list adds is known as long as it does not declare the fresh
name. -/

theorem Knows.leaves (h : Knows program fresh s) {new : List Symbol}
    (hleaves : Leaves s s' new) : Knows program fresh s' := by
  unfold Knows
  rw [hleaves.scopes]
  exact h

theorem Knows.adds (h : Knows program fresh s) {new : List Symbol} (hadds : Adds s s' new)
    (hnew : ∀ symbol ∈ new, Known program fresh symbol) : Knows program fresh s' := by
  intro scope hscope symbol hmem
  rw [hadds.scopes] at hscope
  cases hscopes : s.table.scopes with
  | nil =>
      rw [hscopes] at hscope
      cases hscope
  | cons inner outer =>
      rw [hscopes, addTo] at hscope
      unfold Knows at h
      rw [hscopes] at h
      rcases List.mem_cons.mp hscope with rfl | hscope
      · rcases List.mem_append.mp hmem with hmem | hmem
        · exact h inner List.mem_cons_self symbol hmem
        · exact hnew symbol hmem
      · exact h scope (.tail _ hscope) symbol hmem

/-- What a declaration enters that is not a function's is known by its name. -/
theorem enters_known {scope : List Symbol} {name : String} {symbol : Option Symbol}
    {Declares : Symbol → Prop} (henter : CMinus.Enters scope name symbol Declares)
    (hname : name ≠ fresh) (hdeclares : ∀ entered, Declares entered →
      symbol = some entered ∧ entered.name = name ∧ entered.isFunction = false) :
    ∀ own, symbol = some own → Known program fresh own := by
  intro own hown
  obtain ⟨-, hnull⟩ | ⟨-, other, hother⟩ := henter
  · rw [hnull] at hown
    cases hown
  · obtain ⟨hcarries, hother, hsort⟩ := hdeclares other hother
    rw [hcarries] at hown
    cases hown
    refine ⟨?_, fun hfun => ?_⟩
    · rw [hother]
      exact hname
    · rw [hsort] at hfun
      cases hfun

theorem enterEach_known {δ : Type} {symbol : δ → Option Symbol}
    {enters : List Symbol → δ → Prop} {scope : List Symbol} {decls : List δ}
    (henter : EnterEach symbol enters scope decls)
    (hone : ∀ scope, ∀ decl ∈ decls, enters scope decl →
      ∀ own, symbol decl = some own → Known program fresh own) :
    ∀ own ∈ decls.filterMap symbol, Known program fresh own := by
  induction decls generalizing scope with
  | nil =>
      intro own hmem
      cases hmem
  | cons decl decls ih =>
      have hrest := ih henter.2 fun scope decl hmem => hone scope decl (.tail _ hmem)
      intro own hmem
      rw [← toList_append_filterMap] at hmem
      rcases List.mem_append.mp hmem with hmem | hmem
      · exact hone scope decl List.mem_cons_self henter.1 own (Option.mem_toList.mp hmem)
      · exact hrest own hmem

theorem enterVars_known {scope : List Symbol} {decls decls' : List VarDecl}
    (henter : EnterVars scope decls') (hraw : decls'.map VarDecl.raw = decls)
    (hnames : ∀ decl ∈ decls, decl.name ≠ fresh) :
    ∀ symbol ∈ entered decls', Known program fresh symbol := by
  subst hraw
  apply enterEach_known henter
  intro scope decl hmem henters
  have hname : decl.name ≠ fresh := hnames decl.raw (List.mem_map_of_mem hmem)
  apply enters_known henters hname
  intro other hdeclares
  exact ⟨hdeclares.carries, hdeclares.name, by rw [Symbol.isFunction, hdeclares.kind]; rfl⟩

theorem enterParams_known {scope : List Symbol} {params params' : List ParamDecl}
    (henter : EnterParams scope params') (hraw : params'.map ParamDecl.raw = params)
    (hnames : ∀ param ∈ params, param.name ≠ fresh) :
    ∀ symbol ∈ params'.filterMap ParamDecl.symbol, Known program fresh symbol := by
  subst hraw
  apply enterEach_known henter
  intro scope param hmem henters
  have hname : param.name ≠ fresh := hnames param.raw (List.mem_map_of_mem hmem)
  apply enters_known henters hname
  intro other hdeclares
  exact ⟨hdeclares.carries, hdeclares.name, by rw [Symbol.isFunction, hdeclares.kind]; rfl⟩

/-! Statements. -/

/-! What both runs do alike, before the replacement and after it. -/

theorem Cascade.before {α β β' : Type} {action : AnalyzerM α}
    {P : α → SemanticAnalyzer → Prop} {next : α → AnalyzerM β} {next' : α → AnalyzerM β'}
    {Q : β → β' → Diagnostics → SemanticAnalyzer → SemanticAnalyzer → Prop}
    (hblind : Blind action) (htwin : Twin s s') (hleads : Leads action s P)
    (hnext : ∀ a s₁ s₁', P a s₁ → Twin s₁ s₁' → Cascade (next a) (next' a) s₁ s₁' Q) :
    Cascade (action >>= next) (action >>= next') s s' Q := by
  apply (Cascade.same hblind htwin hleads).bind
  intro a a' errs s₁ s₁' hleft
  obtain ⟨rfl, rfl, hP, htwin₁⟩ := hleft
  exact hnext a' s₁ s₁' hP htwin₁

def Repeats {α α' : Type} (s s' : SemanticAnalyzer) (action : AnalyzerM α)
    (action' : AnalyzerM α') : Prop :=
  Cascade action action' s s' fun _ _ errs s₁ s₁' => errs = [] ∧ Twin s₁ s₁'

theorem Repeats.pure {α α' : Type} {a : α} {a' : α'} (htwin : Twin s s') :
    Repeats s s' (Pure.pure a) (Pure.pure a') :=
  Cascade.pure ⟨rfl, htwin⟩

theorem Repeats.bind {α β β' : Type} {action : AnalyzerM α} {P : α → SemanticAnalyzer → Prop}
    {next : α → AnalyzerM β} {next' : α → AnalyzerM β'} (hblind : Blind action)
    (htwin : Twin s s') (hleads : Leads action s P)
    (hnext : ∀ a s₁ s₁', Twin s₁ s₁' → Repeats s₁ s₁' (next a) (next' a)) :
    Repeats s s' (action >>= next) (action >>= next') :=
  Cascade.before hblind htwin hleads fun a s₁ s₁' _ htwin₁ => hnext a s₁ s₁' htwin₁

def Settles {α α' : Type} (program : Program) (fresh : String) (use : Use)
    (s s' : SemanticAnalyzer) (action : AnalyzerM α) (action' : AnalyzerM α') : Prop :=
  Cascade action action' s s' fun _ _ errs s₁ s₁' =>
    Settled program fresh use errs ∧ Twin s₁ s₁'

theorem Settles.bind {α α' β β' : Type} {action : AnalyzerM α} {action' : AnalyzerM α'}
    {next : α → AnalyzerM β} {next' : α' → AnalyzerM β'}
    (h : Settles program fresh use s s' action action')
    (hnext : ∀ a a' s₁ s₁', Twin s₁ s₁' → Repeats s₁ s₁' (next a) (next' a')) :
    Settles program fresh use s s' (action >>= next) (action' >>= next') := by
  apply Cascade.bind h
  intro a a' errs s₁ s₁' hleft
  obtain ⟨hsettled, htwin₁⟩ := hleft
  apply (hnext a a' s₁ s₁' htwin₁).mono
  intro b b' errs' s₂ s₂' hrest
  exact ⟨hsettled.append hrest.1, hrest.2⟩

def CascadeStmt (program : Program) (fresh : String) (use : Use)
    (s s' : SemanticAnalyzer) (stmt stmt' : Stmt) : Prop :=
  Settles program fresh use s s' (analyzeStmt stmt) (analyzeStmt stmt')

theorem cascade_condition (htwin : Twin s s') (hnames : DistinctNames program)
    (hknows : Knows program fresh s) {cond cond' : Expr} (hraw : cond.raw = cond)
    (hreplaced : ReplacedExpr fresh none cond cond' use) :
    Settles program fresh use s s' (analyzeCondition cond) (analyzeCondition cond') := by
  unfold Settles analyzeCondition
  apply CascadeExpr.operand (cascade_expr htwin hnames hknows cond hraw hreplaced)
  intro x x' errs hsettled
  apply Cascade.pure
  exact ⟨hsettled.append rfl, htwin⟩

theorem cascade_sameCondition {β β' : Type} (htwin : Twin s s') {cond : Expr}
    (hraw : cond.raw = cond) {next : Expr → AnalyzerM β} {next' : Expr → AnalyzerM β'}
    (hnext : ∀ x, Settles program fresh use s s' (next x) (next' x)) :
    Settles program fresh use s s' (analyzeCondition cond >>= next)
      (analyzeCondition cond >>= next') := by
  apply (Cascade.still (blind_condition cond) htwin (leads_condition hraw)).bind
  intro x x' errs s₁ s₁' hleft
  obtain ⟨rfl, rfl, -, rfl, rfl⟩ := hleft
  exact hnext x'

theorem cascade_return (htwin : Twin s s') (hnames : DistinctNames program)
    (hknows : Knows program fresh s) (loc : SourceLocation) {value value' : Expr}
    (hraw : value.raw = value) (hreplaced : ReplacedExpr fresh none value value' use) :
    CascadeStmt program fresh use s s' (.ret loc (some value)) (.ret loc (some value')) := by
  have hinner := cascade_expr htwin hnames hknows value hraw hreplaced
  have hbody : Cascade (analyzeReturnIn s.currentFunction loc (some value))
      (analyzeReturnIn s.currentFunction loc (some value')) s s' fun _ _ errs s₁ s₁' =>
        Settled program fresh use errs ∧ s₁ = s ∧ s₁' = s' := by
    unfold analyzeReturnIn
    apply Cascade.bind hinner
    intro x x' errs s₁ s₁' hleft
    obtain ⟨hpending, rfl, rfl⟩ := hleft
    obtain ⟨hsettled, hint⟩ := hpending.settled
    apply Cascade.ite
    · exact fun _ => .failed
    intro _
    apply (cascade_requireInt hint _).bind
    intro _ _ errs' s₂ s₂' hleft
    obtain ⟨-, herrs', rfl, rfl⟩ := hleft
    apply Cascade.pure
    refine ⟨hsettled.append ?_, rfl, rfl⟩
    rw [herrs']
    rfl
  unfold CascadeStmt analyzeStmt
  rw [analyzeReturn_eq, analyzeReturn_eq]
  obtain ⟨current, halike, rfl⟩ := htwin
  constructor
  intro hcount
  show Settled program fresh use (errors
      (analyzeReturnIn current loc (some value') (s.withCurrent current)).2.2) ∧
    Twin (analyzeReturnIn s.currentFunction loc (some value) s).2.1
      (analyzeReturnIn current loc (some value') (s.withCurrent current)).2.1
  rw [analyzeReturnIn_alike halike]
  obtain ⟨hsettled, hstate, hstate'⟩ := hbody.run hcount
  refine ⟨hsettled, ?_⟩
  rw [hstate, hstate']
  exact ⟨current, halike, rfl⟩

theorem cascade_block (loc : SourceLocation) {localDecls : List VarDecl}
    {stmts stmts' : List Stmt} (hlocals : localDecls.map VarDecl.raw = localDecls)
    (hfresh : ∀ decl ∈ localDecls, decl.name ≠ fresh) (htwin : Twin s s')
    (hknows : Knows program fresh s)
    (hstmts : ∀ s₁ s₁', Twin s₁ s₁' → Knows program fresh s₁ →
      Settles program fresh use s₁ s₁' (analyzeStmts stmts) (analyzeStmts stmts')) :
    CascadeStmt program fresh use s s' (.compound loc localDecls stmts)
      (.compound loc localDecls stmts') := by
  unfold CascadeStmt analyzeStmt
  apply Cascade.before (blind_pushScope "block") htwin (leads_pushScope "block")
  intro _ s₀ s₀' hpush htwin₀
  have hopen : s₀.table.scopes =
      { order := s.table.nextOrder, label := "block" } :: s.table.scopes := by
    rw [hpush]
    rfl
  have hknows₀ : Knows program fresh s₀ := by
    intro scope hscope symbol hmem
    rw [hopen] at hscope
    rcases List.mem_cons.mp hscope with rfl | hscope
    · cases hmem
    · exact hknows scope hscope symbol hmem
  apply Cascade.before (blind_varDecls localDecls) htwin₀
    (leads_varDecls localDecls hlocals hopen)
  intro decls' s₁ s₁' hleft htwin₁
  obtain ⟨hraw, henter, hadds⟩ := hleft
  apply Settles.bind (hstmts s₁ s₁' htwin₁
    (hknows₀.adds hadds (enterVars_known henter hraw hfresh)))
  intro _ _ s₂ s₂' htwin₂
  have hclose : Leads closeScope s₂ fun _ _ => True := ⟨trivial⟩
  apply Repeats.bind blind_closeScope htwin₂ hclose
  intro _ s₃ s₃' htwin₃
  exact .pure htwin₃

/-! A condition with one arm, which is what `if` and `while` have in common: the
replacement is in the one or in the other. -/

theorem cascade_guard {cond cond' : Expr} {arm : Stmt} (hraw : arm.raw = arm)
    (hcond : Settles program fresh use s s' (analyzeCondition cond) (analyzeCondition cond'))
    (build : Expr → Stmt → Stmt) :
    Settles program fresh use s s'
      (analyzeCondition cond >>= fun x => analyzeStmt arm >>= fun y => pure (build x y))
      (analyzeCondition cond' >>= fun x => analyzeStmt arm >>= fun y => pure (build x y)) := by
  apply hcond.bind
  intro x x' s₁ s₁' htwin₁
  apply Repeats.bind (blind_stmt arm) htwin₁ (leads_stmt arm s₁ hraw)
  intro y s₂ s₂' htwin₂
  exact .pure htwin₂

theorem cascade_guarded (htwin : Twin s s') {cond : Expr} {arm arm' : Stmt}
    (hraw : cond.raw = cond) (harm : CascadeStmt program fresh use s s' arm arm')
    (build : Expr → Stmt → Stmt) :
    Settles program fresh use s s'
      (analyzeCondition cond >>= fun x => analyzeStmt arm >>= fun y => pure (build x y))
      (analyzeCondition cond >>= fun x => analyzeStmt arm' >>= fun y => pure (build x y)) := by
  apply cascade_sameCondition htwin hraw
  intro x
  apply Settles.bind harm
  intro y y' s₁ s₁' htwin₁
  exact .pure htwin₁

/-! With a second arm. -/

theorem cascade_ifCond (loc : SourceLocation) {cond cond' : Expr} {thenStmt elseStmt : Stmt}
    (hthen : thenStmt.raw = thenStmt) (helse : elseStmt.raw = elseStmt)
    (hcond : Settles program fresh use s s' (analyzeCondition cond) (analyzeCondition cond')) :
    CascadeStmt program fresh use s s' (.ifs loc cond thenStmt (some elseStmt))
      (.ifs loc cond' thenStmt (some elseStmt)) := by
  unfold CascadeStmt analyzeStmt
  apply hcond.bind
  intro x x' s₁ s₁' htwin₁
  apply Repeats.bind (blind_stmt thenStmt) htwin₁ (leads_stmt thenStmt s₁ hthen)
  intro y s₂ s₂' htwin₂
  apply Repeats.bind (blind_stmt elseStmt) htwin₂ (leads_stmt elseStmt s₂ helse)
  intro z s₃ s₃' htwin₃
  exact .pure htwin₃

theorem cascade_thenArm (htwin : Twin s s') (loc : SourceLocation) {cond : Expr}
    {thenStmt thenStmt' elseStmt : Stmt} (hcond : cond.raw = cond)
    (helse : elseStmt.raw = elseStmt)
    (hthen : CascadeStmt program fresh use s s' thenStmt thenStmt') :
    CascadeStmt program fresh use s s' (.ifs loc cond thenStmt (some elseStmt))
      (.ifs loc cond thenStmt' (some elseStmt)) := by
  unfold CascadeStmt analyzeStmt
  apply cascade_sameCondition htwin hcond
  intro x
  apply Settles.bind hthen
  intro y y' s₁ s₁' htwin₁
  apply Repeats.bind (blind_stmt elseStmt) htwin₁ (leads_stmt elseStmt s₁ helse)
  intro z s₂ s₂' htwin₂
  exact .pure htwin₂

theorem cascade_elseArm (htwin : Twin s s') (hknows : Knows program fresh s)
    (loc : SourceLocation) {cond : Expr} {thenStmt elseStmt elseStmt' : Stmt}
    (hcond : cond.raw = cond) (hthen : thenStmt.raw = thenStmt)
    (helse : ∀ s₁ s₁', Twin s₁ s₁' → Knows program fresh s₁ →
      CascadeStmt program fresh use s₁ s₁' elseStmt elseStmt') :
    CascadeStmt program fresh use s s' (.ifs loc cond thenStmt (some elseStmt))
      (.ifs loc cond thenStmt (some elseStmt')) := by
  unfold CascadeStmt analyzeStmt
  apply cascade_sameCondition htwin hcond
  intro x
  apply Cascade.before (blind_stmt thenStmt) htwin (leads_stmt thenStmt s hthen)
  intro y s₁ s₁' hleft htwin₁
  apply Settles.bind (helse s₁ s₁' htwin₁ (hknows.leaves hleft.2))
  intro z z' s₂ s₂' htwin₂
  exact .pure htwin₂

mutual

theorem cascade_stmt (hnames : DistinctNames program) : ∀ (stmt : Stmt) {stmt' : Stmt}
    {s s' : SemanticAnalyzer}, stmt.raw = stmt →
    (∀ decl ∈ stmt.locals, decl.name ≠ fresh) → ReplacedStmt fresh stmt stmt' use →
    Twin s s' → Knows program fresh s → CascadeStmt program fresh use s s' stmt stmt'
  | .compound loc localDecls stmts, stmt', s, s', hraw, hfresh, hreplaced, htwin, hknows => by
      rw [Stmt.raw, Stmt.compound.injEq] at hraw
      rw [Stmt.locals, List.forall_mem_append] at hfresh
      cases hreplaced with
      | block hstmts =>
          exact cascade_block loc hraw.2.1 hfresh.1 htwin hknows fun s₁ s₁' htwin₁ hknows₁ =>
            cascade_stmts hnames stmts hraw.2.2 hfresh.2 hstmts htwin₁ hknows₁
  | .expr loc none, stmt', s, s', hraw, hfresh, hreplaced, htwin, hknows => by
      cases hreplaced
  | .expr loc (some e), stmt', s, s', hraw, hfresh, hreplaced, htwin, hknows => by
      rw [Stmt.raw, Stmt.expr.injEq, Option.some.injEq] at hraw
      cases hreplaced with
      | expr he =>
          unfold CascadeStmt analyzeStmt
          apply Cascade.bind (cascade_expr htwin hnames hknows e hraw.2 he)
          intro x x' errs s₁ s₁' hleft
          obtain ⟨hpending, hstate, hstate'⟩ := hleft
          apply Cascade.pure
          rw [hstate, hstate']
          exact ⟨hpending.settled.1.append rfl, htwin⟩
  | .ifs loc cond thenStmt none, stmt', s, s', hraw, hfresh, hreplaced, htwin, hknows => by
      rw [Stmt.raw, Stmt.ifs.injEq] at hraw
      unfold CascadeStmt
      cases hreplaced with
      | ifCond hcond =>
          unfold analyzeStmt
          exact cascade_guard hraw.2.2.1
            (cascade_condition htwin hnames hknows hraw.2.1 hcond) (.ifs loc · · none)
      | thenStmt hthen =>
          have hinner := cascade_stmt hnames thenStmt hraw.2.2.1 hfresh hthen htwin hknows
          unfold analyzeStmt
          exact cascade_guarded htwin hraw.2.1 hinner (.ifs loc · · none)
  | .ifs loc cond thenStmt (some elseStmt), stmt', s, s', hraw, hfresh, hreplaced, htwin,
      hknows => by
      rw [Stmt.raw, Stmt.ifs.injEq, Option.some.injEq] at hraw
      rw [Stmt.locals, List.forall_mem_append] at hfresh
      cases hreplaced with
      | ifCond hcond =>
          exact cascade_ifCond loc hraw.2.2.1 hraw.2.2.2
            (cascade_condition htwin hnames hknows hraw.2.1 hcond)
      | thenStmt hthen =>
          exact cascade_thenArm htwin loc hraw.2.1 hraw.2.2.2
            (cascade_stmt hnames thenStmt hraw.2.2.1 hfresh.1 hthen htwin hknows)
      | elseStmt helse =>
          exact cascade_elseArm htwin hknows loc hraw.2.1 hraw.2.2.1
            fun s₁ s₁' htwin₁ hknows₁ =>
              cascade_stmt hnames elseStmt hraw.2.2.2 hfresh.2 helse htwin₁ hknows₁
  | .whiles loc cond body, stmt', s, s', hraw, hfresh, hreplaced, htwin, hknows => by
      rw [Stmt.raw, Stmt.whiles.injEq] at hraw
      unfold CascadeStmt
      cases hreplaced with
      | whileCond hcond =>
          unfold analyzeStmt
          exact cascade_guard hraw.2.2
            (cascade_condition htwin hnames hknows hraw.2.1 hcond) (.whiles loc)
      | body hbody =>
          have hinner := cascade_stmt hnames body hraw.2.2 hfresh hbody htwin hknows
          unfold analyzeStmt
          exact cascade_guarded htwin hraw.2.1 hinner (.whiles loc)
  | .ret loc none, stmt', s, s', hraw, hfresh, hreplaced, htwin, hknows => by
      cases hreplaced
  | .ret loc (some value), stmt', s, s', hraw, hfresh, hreplaced, htwin, hknows => by
      rw [Stmt.raw, Stmt.ret.injEq, Option.some.injEq] at hraw
      cases hreplaced with
      | ret hvalue => exact cascade_return htwin hnames hknows loc hraw.2 hvalue

theorem cascade_stmts (hnames : DistinctNames program) : ∀ (stmts : List Stmt)
    {stmts' : List Stmt} {s s' : SemanticAnalyzer}, rawStmts stmts = stmts →
    (∀ decl ∈ localsOf stmts, decl.name ≠ fresh) → ReplacedStmts fresh stmts stmts' use →
    Twin s s' → Knows program fresh s →
    Settles program fresh use s s' (analyzeStmts stmts) (analyzeStmts stmts')
  | [], stmts', s, s', hraw, hfresh, hreplaced, htwin, hknows => by cases hreplaced
  | stmt :: stmts, stmts', s, s', hraw, hfresh, hreplaced, htwin, hknows => by
      rw [rawStmts, List.cons.injEq] at hraw
      rw [localsOf, List.forall_mem_append] at hfresh
      cases hreplaced with
      | head hstmt =>
          have hinner := cascade_stmt hnames stmt hraw.1 hfresh.1 hstmt htwin hknows
          unfold analyzeStmts
          apply Settles.bind hinner
          intro x x' s₁ s₁' htwin₁
          apply Repeats.bind (blind_stmts stmts) htwin₁ (leads_stmts stmts s₁ hraw.2)
          intro y s₂ s₂' htwin₂
          exact .pure htwin₂
      | tail hstmts =>
          unfold analyzeStmts
          apply Cascade.before (blind_stmt stmt) htwin (leads_stmt stmt s hraw.1)
          intro x s₁ s₁' hleft htwin₁
          apply Settles.bind (cascade_stmts hnames stmts hraw.2 hfresh.2 hstmts htwin₁
            (hknows.leaves hleft.2))
          intro y y' s₂ s₂' htwin₂
          exact .pure htwin₂

end

/-! Declarations.  Both runs start from the same state, and end in the same one. -/

theorem Cascade.refl {α : Type} {action : AnalyzerM α} {P : α → SemanticAnalyzer → Prop}
    (hleads : Leads action s P) : Cascade action action s s
      fun a a' errs s₁ s₁' => a' = a ∧ errs = [] ∧ s₁' = s₁ ∧ P a s₁ :=
  ⟨fun hcount => ⟨rfl, errors_eq_nil.mpr hcount, rfl, hleads.result⟩⟩

theorem Cascade.getCurrentFunction {α α' : Type} {next : Option FunDecl → AnalyzerM α}
    {next' : Option FunDecl → AnalyzerM α'}
    {Q : α → α' → Diagnostics → SemanticAnalyzer → SemanticAnalyzer → Prop}
    (h : Cascade (next s.currentFunction) (next' s'.currentFunction) s s' Q) :
    Cascade (getCurrentFunction >>= next) (getCurrentFunction >>= next') s s' Q := ⟨h.run⟩

theorem cascade_setCurrentFunction (current current' : Option FunDecl)
    (hheader : current'.map header = current.map header) :
    Cascade (setCurrentFunction current) (setCurrentFunction current') s s
      fun _ _ errs s₁ s₁' => errs = [] ∧ s₁.table = s.table ∧ Twin s₁ s₁' :=
  ⟨fun _ => ⟨rfl, rfl, current', hheader, rfl⟩⟩

theorem cascade_restore (htwin : Twin s s') (enclosing : Option FunDecl) :
    Cascade (setCurrentFunction enclosing) (setCurrentFunction enclosing) s s'
      fun _ _ errs s₁ s₁' => errs = [] ∧ s₁' = s₁ := by
  obtain ⟨current, -, rfl⟩ := htwin
  exact ⟨fun _ => ⟨rfl, rfl⟩⟩

theorem known_functionSymbol {decl : FunDecl} (hmem : Decl.fun decl ∈ program.decls)
    (hfresh : decl.name ≠ fresh) (id : Nat) :
    Known program fresh { functionSymbol decl with id := id } :=
  ⟨hfresh, fun _ => .inr ⟨decl, hmem, rfl, rfl⟩⟩

theorem Knows.pushScope (h : Knows program fresh s) {label : String}
    (hpush : s'.table = s.table.pushScope label) : Knows program fresh s' := by
  intro scope hscope symbol hmem
  rw [hpush] at hscope
  rcases List.mem_cons.mp hscope with rfl | hscope
  · cases hmem
  · exact h scope hscope symbol hmem

theorem cascade_body (hnames : DistinctNames program) {block : CompoundStmt}
    (hraw : block.raw = block) (hfresh : ∀ decl ∈ block.toStmt.locals, decl.name ≠ fresh)
    {stmts' : List Stmt} (hreplaced : ReplacedStmts fresh block.stmts stmts' use)
    (htwin : Twin s s') (hknows : Knows program fresh s) {scope : Scope}
    {outer : List Scope} (hscopes : s.table.scopes = scope :: outer) :
    Settles program fresh use s s' (analyzeBody block)
      (analyzeBody { block with stmts := stmts' }) := by
  rw [CompoundStmt.raw, CompoundStmt.mk.injEq] at hraw
  rw [CompoundStmt.toStmt, Stmt.locals, List.forall_mem_append] at hfresh
  unfold analyzeBody
  apply Cascade.before (blind_varDecls block.localDecls) htwin
    (leads_varDecls block.localDecls hraw.2.1 hscopes)
  intro decls' s₁ s₁' hleft htwin₁
  obtain ⟨hdecls, henter, hadds⟩ := hleft
  apply Settles.bind (cascade_stmts hnames block.stmts hraw.2.2 hfresh.2 hreplaced htwin₁
    (hknows.adds hadds (enterVars_known henter hdecls hfresh.1)))
  intro _ _ s₂ s₂' htwin₂
  exact .pure htwin₂

theorem cascade_funDecl (hnames : DistinctNames program) {decl : FunDecl}
    (hraw : decl.raw = decl) (hmem : Decl.fun decl ∈ program.decls)
    (hfresh : ∀ name ∈ (Decl.fun decl).declaredNames, name ≠ fresh)
    {stmts' : List Stmt} (hreplaced : ReplacedStmts fresh decl.body.stmts stmts' use)
    (hknows : Knows program fresh s) {scope : Scope} (hscopes : s.table.scopes = [scope]) :
    Cascade (analyzeFunDecl decl) (analyzeFunDecl (decl.withStmts stmts')) s s
      fun d d' errs s₁ s₁' => Settled program fresh use errs ∧ s₁' = s₁ ∧
        outline (.fun d') = outline (.fun d) := by
  rw [FunDecl.raw, FunDecl.mk.injEq] at hraw
  obtain ⟨-, -, -, -, hparamsRaw, hbodyRaw, -⟩ := hraw
  have hname : decl.name ≠ fresh := hfresh _ List.mem_cons_self
  have hparamNames : ∀ param ∈ decl.params, param.name ≠ fresh := fun param hparam =>
    hfresh _ (.tail _ (List.mem_append_left _ (List.mem_map_of_mem hparam)))
  have hlocalNames : ∀ local' ∈ decl.body.toStmt.locals, local'.name ≠ fresh :=
    fun local' hlocal =>
      hfresh _ (.tail _ (List.mem_append_right _ (List.mem_map_of_mem hlocal)))
  unfold analyzeFunDecl
  apply (Cascade.refl (leads_declare hscopes (sorted_functionSymbol decl))).bind
  intro _ symbol errs₁ _ s₁ hleft
  obtain ⟨rfl, herrs₁, rfl, hadds, hsymbol⟩ := hleft
  have hknown : ∀ x ∈ symbol.toList, Known program fresh x := by
    intro x hx
    obtain ⟨-, rfl⟩ | ⟨-, id, rfl⟩ := hsymbol
    · cases hx
    · rw [List.mem_singleton.mp hx]
      exact known_functionSymbol hmem hname id
  have hknows₁ := hknows.adds hadds hknown
  apply Cascade.getCurrentFunction
  apply (cascade_setCurrentFunction (some decl) (some (decl.withStmts stmts')) rfl).bind
  intro _ _ errs₂ s₂ s₂' hleft
  obtain ⟨herrs₂, htable₂, htwin₂⟩ := hleft
  apply Cascade.before (blind_pushScope _) htwin₂ (leads_pushScope _)
  intro _ s₃ s₃' hpush htwin₃
  have htable₃ : s₃.table = s₁.table.pushScope ("function '" ++ decl.name ++ "'") := by
    rw [hpush, htable₂]
  have hopen : s₃.table.scopes = { order := s₁.table.nextOrder
                                   label := "function '" ++ decl.name ++ "'" } ::
      s₁.table.scopes := by
    rw [htable₃]
    rfl
  apply Cascade.before (blind_params decl.params) htwin₃
    (leads_params decl.params hparamsRaw hopen)
  intro params' s₄ s₄' hleft htwin₄
  obtain ⟨hparams, henter, hadds₄⟩ := hleft
  have hknows₄ := (hknows₁.pushScope htable₃).adds hadds₄
    (enterParams_known henter hparams hparamNames)
  apply Cascade.bind (cascade_body hnames hbodyRaw hlocalNames hreplaced htwin₄ hknows₄
    (hadds₄.cons_scopes hopen))
  intro body body' errs₅ s₅ s₅' hleft
  obtain ⟨hsettled, htwin₅⟩ := hleft
  have hclose : Leads closeScope s₅ fun _ _ => True := ⟨trivial⟩
  apply Cascade.before blind_closeScope htwin₅ hclose
  intro _ s₆ s₆' _ htwin₆
  apply (cascade_restore htwin₆ s₁.currentFunction).bind
  intro _ _ errs₇ _ s₇ hleft
  obtain ⟨herrs₇, rfl⟩ := hleft
  apply (Cascade.silent (silent_warnIf _ _ _) (silent_warnIf _ _ _)).bind
  intro _ _ errs₈ s₈ s₈' hleft
  obtain ⟨herrs₈, rfl, rfl⟩ := hleft
  apply Cascade.pure
  refine ⟨?_, rfl, rfl⟩
  rw [herrs₁, herrs₂, herrs₇, herrs₈]
  exact hsettled.append rfl

theorem declEntered_known {scope : Scope} {decl decl' : Decl}
    (h : DeclEntered s s' scope decl decl') (hmem : decl ∈ program.decls)
    (hfresh : ∀ name ∈ decl.declaredNames, name ≠ fresh) :
    ∀ symbol ∈ decl'.symbol.toList, Known program fresh symbol := by
  intro symbol hsymbol
  have hown := Option.mem_toList.mp hsymbol
  have hscoped := h.follows
  have hraw := h.raw
  subst hraw
  cases decl' with
  | var decl =>
      have hname : decl.name ≠ fresh := hfresh decl.raw.name List.mem_cons_self
      apply enters_known hscoped hname ?_ symbol hown
      intro other hdeclares
      exact ⟨hdeclares.carries, hdeclares.name, by rw [Symbol.isFunction, hdeclares.kind]; rfl⟩
  | «fun» decl =>
      have hname : decl.name ≠ fresh := hfresh decl.raw.name List.mem_cons_self
      obtain ⟨-, hnull⟩ | ⟨-, other, hdeclares⟩ := hscoped.enters
      · exact absurd (hnull.symm.trans hown) (by simp)
      · have hsame : some other = some symbol := hdeclares.carries.symm.trans hown
        cases hsame
        refine ⟨?_, fun _ => .inr ⟨decl.raw, hmem, hdeclares.name.symm, ?_⟩⟩
        · rw [hdeclares.name]
          exact hname
        · rw [hdeclares.paramTypes]
          show _ = (decl.params.map ParamDecl.raw).map paramType
          rw [List.map_map]
          rfl

theorem cascade_decls (hnames : DistinctNames program) {decls decls' : List Decl}
    (hreplaced : ReplacedDecls fresh decls decls' use)
    (hraw : decls.map Decl.raw = decls) (hsub : decls ⊆ program.decls)
    (hfresh : ∀ name ∈ decls.flatMap Decl.declaredNames, name ≠ fresh)
    (hknows : Knows program fresh s) {scope : Scope} (hscopes : s.table.scopes = [scope]) :
    Cascade (analyzeDecls decls) (analyzeDecls decls') s s
      fun ds ds' errs s₁ s₁' => Settled program fresh use errs ∧ s₁' = s₁ ∧
        ds'.map outline = ds.map outline ∧ ds ≠ [] ∧ ds' ≠ [] := by
  induction hreplaced generalizing s scope with
  | @here decl stmts' decls use hstmts =>
      rw [List.map_cons, List.cons.injEq] at hraw
      rw [List.flatMap_cons, List.forall_mem_append] at hfresh
      have hfun : Cascade (analyzeDecl (.fun decl)) (analyzeDecl (.fun (decl.withStmts stmts')))
          s s fun d d' errs s₁ s₁' => Settled program fresh use errs ∧ s₁' = s₁ ∧
            outline d' = outline d := by
        unfold analyzeDecl
        apply (cascade_funDecl hnames (Decl.fun.inj hraw.1) (hsub List.mem_cons_self)
          hfresh.1 hstmts hknows hscopes).bind
        intro d d' errs s₁ s₁' hleft
        obtain ⟨hsettled, hstate, houtline⟩ := hleft
        exact .pure ⟨hsettled.append rfl, hstate, houtline⟩
      unfold analyzeDecls
      apply hfun.bind
      intro d d' errs _ s₁ hleft
      obtain ⟨hsettled, rfl, houtline⟩ := hleft
      have hany : Leads (analyzeDecls decls) s₁ fun _ _ => True := ⟨trivial⟩
      apply (Cascade.refl hany).bind
      intro _ ds errs' _ s₂ hleft
      obtain ⟨rfl, herrs', rfl, -⟩ := hleft
      apply Cascade.pure
      refine ⟨hsettled.append ?_, rfl, ?_, List.cons_ne_nil _ _, List.cons_ne_nil _ _⟩
      · rw [herrs']
        rfl
      · rw [List.map_cons, List.map_cons, houtline]
  | @later decl decls decls' use _ ih =>
      rw [List.map_cons, List.cons.injEq] at hraw
      rw [List.flatMap_cons, List.forall_mem_append] at hfresh
      unfold analyzeDecls
      apply (Cascade.refl (leads_decl hraw.1 hscopes)).bind
      intro _ d errs _ s₁ hleft
      obtain ⟨rfl, herrs, rfl, hentered⟩ := hleft
      have hknown := declEntered_known hentered (hsub List.mem_cons_self) hfresh.1
      have hknows₁ : Knows program fresh s₁ := by
        intro inner hinner symbol hsymbol
        rw [hentered.scopes, List.mem_singleton] at hinner
        subst hinner
        rcases List.mem_append.mp hsymbol with hsymbol | hsymbol
        · exact hknows scope (by rw [hscopes]; exact List.mem_singleton_self _) symbol hsymbol
        · exact hknown symbol hsymbol
      apply (ih hraw.2 (fun x hx => hsub (.tail _ hx)) hfresh.2 hknows₁
        hentered.scopes).bind
      intro ds ds' errs' s₂ s₂' hleft
      obtain ⟨hsettled, hstate, houtline, -, -⟩ := hleft
      apply Cascade.pure
      rw [herrs]
      refine ⟨hsettled.append rfl, hstate, ?_, List.cons_ne_nil _ _, List.cons_ne_nil _ _⟩
      rw [List.map_cons, List.map_cons, houtline]

/-! The program. -/

theorem cascade_checkMain {ds ds' : List Decl} (houtline : ds'.map outline = ds.map outline)
    (hne : ds ≠ []) (hne' : ds' ≠ []) :
    Cascade (checkMain { decls := ds }) (checkMain { decls := ds' }) s s
      fun _ _ errs s₁ s₁' => errs = [] ∧ s₁' = s₁ := by
  constructor
  intro hcount
  have hmain := (judges_checkMain { decls := ds } hne).exact.mp hcount
  rw [mainLast_iff, ← houtline, ← mainLast_iff] at hmain
  refine ⟨errors_eq_nil.mpr ((judges_checkMain { decls := ds' } hne').exact.mpr hmain), ?_⟩
  rw [(still_checkMain _).state, (still_checkMain _).state]

theorem builtins_known (hfresh : ∀ symbol ∈ builtinSymbols, symbol.name ≠ fresh) :
    ∀ symbol ∈ builtinSymbols, Known program fresh symbol :=
  fun symbol hmem => ⟨hfresh symbol hmem, fun _ => .inl hmem⟩

theorem cascade_analyze (hraw : program.raw = program) (hnames : DistinctNames program)
    (hfresh : fresh ∉ program.declaredNames) {program' : Program}
    (hreplaced : program.Replaced fresh program' use) :
    Cascade (analyze program) (analyze program') {} {}
      fun _ _ errs _ _ => Settled program fresh use errs := by
  have hdeclared : ∀ name ∈ program.declaredNames, name ≠ fresh :=
    fun name hmem heq => hfresh (heq ▸ hmem)
  unfold Program.declaredNames at hdeclared
  rw [List.forall_mem_append] at hdeclared
  rw [Program.raw, Program.mk.injEq] at hraw
  unfold analyze
  apply (Cascade.refl (leads_pushScope "global")).bind
  intro _ _ errs₀ _ s₀ hleft
  obtain ⟨-, herrs₀, rfl, hpush⟩ := hleft
  have hbuiltins : Leads declareBuiltins s₀ (fun _ s' => s'.table.scopes =
      [{ order := 0, label := "global", symbols := builtinSymbols }]) := by
    rw [hpush]
    exact ⟨(judges_declareBuiltins.result trivial).1⟩
  apply (Cascade.refl hbuiltins).bind
  intro _ _ errs₁ _ s₁ hleft
  obtain ⟨-, herrs₁, rfl, hscopes⟩ := hleft
  have hknows : Knows program fresh s₁ := by
    intro scope hscope symbol hmem
    rw [hscopes, List.mem_singleton] at hscope
    subst hscope
    exact builtins_known (fun symbol hmem => hdeclared.1 _ (List.mem_map_of_mem hmem))
      symbol hmem
  apply (cascade_decls hnames hreplaced hraw (fun _ hx => hx) hdeclared.2 hknows hscopes).bind
  intro ds ds' errs₂ _ s₂ hleft
  obtain ⟨hsettled, rfl, houtline, hne, hne'⟩ := hleft
  apply (cascade_checkMain houtline hne hne').bind
  intro _ _ errs₃ _ s₃ hleft
  obtain ⟨herrs₃, rfl⟩ := hleft
  have hclose : Leads closeScope s₃ fun _ _ => True := ⟨trivial⟩
  apply (Cascade.refl hclose).bind
  intro _ _ errs₄ _ s₄ hleft
  obtain ⟨-, herrs₄, rfl, -⟩ := hleft
  have hsort : Leads sortScopes s₄ fun _ _ => True := ⟨trivial⟩
  apply (Cascade.refl hsort).bind
  intro _ _ errs₅ _ s₅ hleft
  obtain ⟨-, herrs₅, rfl, -⟩ := hleft
  apply Cascade.pure
  rw [herrs₀, herrs₁, herrs₃, herrs₄, herrs₅]
  exact hsettled.append rfl

end Replacement

theorem declsOk_nodup {discard : Static.Context → Expr → Prop} {decls : List Decl}
    {globals : Static.Bindings} (h : Static.DeclsOk discard globals decls)
    (hglobals : (globals.map Prod.fst).Nodup) :
    (globals.map Prod.fst ++ decls.map Decl.name).Nodup := by
  induction decls generalizing globals with
  | nil =>
      rw [List.map_nil, List.append_nil]
      exact hglobals
  | cons decl decls ih =>
      have hsplit : decl.name ∉ globals.map Prod.fst ∧
          Static.DeclsOk discard (globals ++ [declBinding decl]) decls := by
        cases decl with
        | var decl => exact h.2
        | «fun» decl => exact ⟨h.1, h.2.2⟩
      have hfst : (declBinding decl).1 = decl.name := by cases decl <;> rfl
      have hsnoc : ((globals ++ [declBinding decl]).map Prod.fst).Nodup := by
        rw [List.map_append, List.map_singleton, hfst, List.nodup_append]
        refine ⟨hglobals, List.nodup_singleton _, ?_⟩
        intro name hname other hother heq
        rw [List.mem_singleton.mp hother] at heq
        exact hsplit.1 (heq ▸ hname)
      have hrest := ih hsplit.2 hsnoc
      rwa [List.map_append, List.map_singleton, hfst, List.append_assoc,
        List.singleton_append] at hrest

theorem accepted_distinctNames {program : Program} (hdecls : program.decls ≠ [])
    (haccepted : (analyze program {}).2.2.errorCount = 0) : DistinctNames program := by
  have hrules := (judges_analyze program hdecls).exact.mp haccepted
  exact declsOk_nodup hrules.1 (by decide)

/-- One undeclared name costs one error, unless it is passed whole for an array: there
the type `int` that the analyzer goes on with does not fit the parameter. -/
theorem analyze_replaced (p p' : Parser) (program program' : Program) (fresh : String)
    (use : Use) (hparse : p.parseProgram = some (program, p'))
    (haccepted : (analyze program {}).2.2.errorCount = 0)
    (hfresh : fresh ∉ program.declaredNames)
    (hreplaced : program.Replaced fresh program' use) :
    errors (analyze program' {}).2.2 = [use.report fresh] ↔
      ¬ use.IsArrayArgument program := by
  have hdecls : program.decls ≠ [] := by
    intro hnil
    unfold Program.Replaced at hreplaced
    rw [hnil] at hreplaced
    cases hreplaced
  have hcascade := cascade_analyze (Parser.parseProgram_raw hparse)
    (accepted_distinctNames hdecls haccepted) hfresh hreplaced
  obtain ⟨extra, herrs, hextra⟩ := hcascade.run haccepted
  rw [← hextra, herrs]
  constructor
  · intro h
    exact (List.cons.inj h).2
  · intro h
    rw [h]

/-! `int f(int x[]) { return 0; } int a[1]; void main(void) { f(a); }`, and the same
with another name for the argument. -/

def passTokens : List Token :=
  [{ kind := .kwInt, lexeme := "int" }, { kind := .identifier, lexeme := "f" },
   { kind := .lParen, lexeme := "(" }, { kind := .kwInt, lexeme := "int" },
   { kind := .identifier, lexeme := "x" }, { kind := .lBracket, lexeme := "[" },
   { kind := .rBracket, lexeme := "]" }, { kind := .rParen, lexeme := ")" },
   { kind := .lBrace, lexeme := "\x7b" }, { kind := .kwReturn, lexeme := "return" },
   { kind := .number, lexeme := "0" }, { kind := .semicolon, lexeme := ";" },
   { kind := .rBrace, lexeme := "\x7d" },
   { kind := .kwInt, lexeme := "int" }, { kind := .identifier, lexeme := "a" },
   { kind := .lBracket, lexeme := "[" }, { kind := .number, lexeme := "1", value := 1 },
   { kind := .rBracket, lexeme := "]" }, { kind := .semicolon, lexeme := ";" },
   { kind := .kwVoid, lexeme := "void" }, { kind := .identifier, lexeme := "main" },
   { kind := .lParen, lexeme := "(" }, { kind := .kwVoid, lexeme := "void" },
   { kind := .rParen, lexeme := ")" }, { kind := .lBrace, lexeme := "\x7b" },
   { kind := .identifier, lexeme := "f" }, { kind := .lParen, lexeme := "(" },
   { kind := .identifier, lexeme := "a" }, { kind := .rParen, lexeme := ")" },
   { kind := .semicolon, lexeme := ";" },
   { kind := .rBrace, lexeme := "\x7d" }, { kind := .endOfFile }]

def renameArgument (fresh : String) (program : Program) : Option Program :=
  match program.decls with
  | [.fun f, .var a, .fun main] =>
      match main.body.stmts with
      | [.expr loc (some (.call info callee [.var head none] symbol))] =>
          let call := Expr.call info callee [.var (head.renamed fresh) none] symbol
          some { decls := [.fun f, .var a, .fun (main.withStmts [.expr loc (some call)])] }
      | _ => none
  | _ => none

theorem replaced_of_renameArgument {fresh : String} {program program' : Program}
    (h : renameArgument fresh program = some program') :
    ∃ use, program.Replaced fresh program' use := by
  obtain ⟨decls⟩ := program
  unfold renameArgument at h
  split at h
  · rename_i f a main hdecls
    split at h
    · rename_i loc info callee head symbol hstmts
      cases h
      dsimp only at hdecls
      subst hdecls
      refine ⟨⟨head.info.loc, false, some (callee, 0)⟩, .later (.later (.here ?_))⟩
      rw [hstmts]
      exact .head (.expr (.args (.head .name)))
    · cases h
  · cases h

theorem analyze_arrayArgument_cascades :
    ∃ program p' program' use,
      (Parser.make passTokens []).parseProgram = some (program, p') ∧
        p'.diags.errorCount = 0 ∧ (analyze program {}).2.2.errorCount = 0 ∧
        "z" ∉ program.declaredNames ∧ program.Replaced "z" program' use ∧
        (errors (analyze program' {}).2.2).length = 2 := by
  have hrun : (Parser.make passTokens []).parseProgram.any (fun r =>
      decide (r.2.diags.errorCount = 0) && decide ((analyze r.1 {}).2.2.errorCount = 0) &&
        decide ("z" ∉ r.1.declaredNames) && (renameArgument "z" r.1).any (fun program' =>
          decide ((errors (analyze program' {}).2.2).length = 2))) = true := by
    decide +kernel
  obtain ⟨⟨program, p'⟩, hparse, hok⟩ := (Option.any_eq_true _ _).mp hrun
  simp only [Bool.and_eq_true, decide_eq_true_eq] at hok
  obtain ⟨⟨⟨hdiags, haccepted⟩, hfresh⟩, hrename⟩ := hok
  obtain ⟨program', hprogram', htwo⟩ := (Option.any_eq_true _ _).mp hrename
  obtain ⟨use, hreplaced⟩ := replaced_of_renameArgument hprogram'
  exact ⟨program, p', program', use, hparse, hdiags, haccepted, hfresh, hreplaced,
    of_decide_eq_true htwo⟩

theorem analyze_replaced_argument :
    ∃ program p' program' use,
      (Parser.make passTokens []).parseProgram = some (program, p') ∧
        program.Replaced "z" program' use ∧
        (errors (analyze program' {}).2.2 = [use.report "z"] ↔
          ¬ use.IsArrayArgument program) := by
  have hrun : (Parser.make passTokens []).parseProgram.any (fun r =>
      decide ((analyze r.1 {}).2.2.errorCount = 0) &&
        decide ("z" ∉ r.1.declaredNames) && (renameArgument "z" r.1).isSome) = true := by
    decide +kernel
  obtain ⟨⟨program, p'⟩, hparse, hok⟩ := (Option.any_eq_true _ _).mp hrun
  simp only [Bool.and_eq_true, decide_eq_true_eq] at hok
  obtain ⟨⟨haccepted, hfresh⟩, hrename⟩ := hok
  obtain ⟨program', hprogram'⟩ := Option.isSome_iff_exists.mp hrename
  obtain ⟨use, hreplaced⟩ := replaced_of_renameArgument hprogram'
  exact ⟨program, p', program', use, hparse, hreplaced,
    analyze_replaced _ p' program program' "z" use hparse haccepted hfresh hreplaced⟩

end SemanticAnalyzer

end CMinus
