import CMinus.Scoping
import CMinus.Parser.Raw
import CMinus.Analyzer.Exact

namespace CMinus

/-! What analysis puts into a raw tree, whether it reports an error or not. -/

def Expr.Resolves (env : Env) (e e' : Expr) : Prop := e'.raw = e ∧ e'.Scoped env

def ResolvesArgs (env : Env) (args args' : List Expr) : Prop :=
  rawArgs args' = args ∧ ScopedArgs env args'

def VarHead.Resolves (env : Env) (head head' : VarHead) : Prop :=
  head'.raw = head ∧ head'.Scoped env

def Stmt.Resolves (env : Env) (stmt stmt' : Stmt) : Prop :=
  stmt'.raw = stmt ∧ stmt'.Scoped env

def ResolvesStmts (env : Env) (stmts stmts' : List Stmt) : Prop :=
  rawStmts stmts' = stmts ∧ ScopedStmts env stmts'

namespace SemanticAnalyzer

/-! `Leads action s Q`: run from `s`, whatever the action reports, its result and the
state it leaves satisfy `Q`.  A still action leaves the state as it is. -/

structure Leads {α : Type} (action : AnalyzerM α) (s : SemanticAnalyzer)
    (Q : α → SemanticAnalyzer → Prop) : Prop where
  result : Q (action s).1 (action s).2.1

structure Still {α : Type} (action : AnalyzerM α) : Prop where
  state : ∀ s, (action s).2.1 = s

section Rules

variable {α β : Type} {s : SemanticAnalyzer}

theorem Leads.pure {a : α} {Q : α → SemanticAnalyzer → Prop} (h : Q a s) :
    Leads (Pure.pure a) s Q := ⟨h⟩

theorem Leads.bind {action : AnalyzerM α} {next : α → AnalyzerM β}
    {Q : α → SemanticAnalyzer → Prop} {R : β → SemanticAnalyzer → Prop}
    (h : Leads action s Q) (hnext : ∀ a s', Q a s' → Leads (next a) s' R) :
    Leads (action >>= next) s R :=
  ⟨(hnext _ _ h.result).result⟩

theorem Leads.still {action : AnalyzerM α} {next : α → AnalyzerM β}
    {R : β → SemanticAnalyzer → Prop} (h : Still action)
    (hnext : ∀ a, Leads (next a) s R) : Leads (action >>= next) s R := by
  have hsame : Leads action s (fun _ s' => s' = s) := ⟨h.state s⟩
  apply hsame.bind
  intro a s' heq
  subst heq
  exact hnext a

theorem Leads.lookup {name : String} {next : Option Symbol → AnalyzerM β}
    {R : β → SemanticAnalyzer → Prop} (h : Leads (next (s.table.lookup name)) s R) :
    Leads (lookup name >>= next) s R := ⟨h.result⟩

theorem Leads.getCurrentFunction {next : Option FunDecl → AnalyzerM β}
    {R : β → SemanticAnalyzer → Prop} (h : Leads (next s.currentFunction) s R) :
    Leads (getCurrentFunction >>= next) s R := ⟨h.result⟩

theorem Still.pure (a : α) : Still (Pure.pure a) := ⟨fun _ => rfl⟩

theorem Still.error (loc : SourceLocation) (message : String) :
    Still (error loc message) := ⟨fun _ => rfl⟩

theorem Still.bind {action : AnalyzerM α} {next : α → AnalyzerM β} (h : Still action)
    (hnext : ∀ a, Still (next a)) : Still (action >>= next) := by
  constructor
  intro s
  calc ((action >>= next) s).2.1 = (next (action s).1 (action s).2.1).2.1 := rfl
    _ = (action s).2.1 := (hnext _).state _
    _ = s := h.state s

theorem Still.ite {c : Prop} [Decidable c] {x y : AnalyzerM α} (hx : Still x)
    (hy : Still y) : Still (if c then x else y) := by
  split
  · exact hx
  · exact hy

theorem still_errorIf (c : Prop) [Decidable c] (loc : SourceLocation)
    (message : String) : Still (errorIf c loc message) :=
  .ite (.error loc message) (.pure ())

theorem still_warnIf (c : Prop) [Decidable c] (loc : SourceLocation)
    (message : String) : Still (warnIf c loc message) :=
  .ite ⟨fun _ => rfl⟩ (.pure ())

theorem still_note (loc : SourceLocation) (message : String) : Still (note loc message) :=
  ⟨fun _ => rfl⟩

theorem still_requireInt (e : Expr) (context : String) : Still (requireInt e context) :=
  .ite (.pure ()) (.ite (.error _ _) (.error _ _))

theorem still_checkConstantIndex (symbol : Symbol) (name : String) (index : Expr) :
    Still (checkConstantIndex symbol name index) := by
  cases index with
  | num info value => exact still_warnIf _ _ _
  | _ => exact .pure ()

theorem still_checkDivisor (op : BinaryOp) (opLoc : SourceLocation) (e : Expr) :
    Still (checkDivisor op opLoc e) := by
  cases e with
  | num info value => exact still_warnIf _ _ _
  | _ => exact .pure ()

theorem still_checkArgs (callee : String) (types : List CType) (args : List Expr)
    (i : Nat) : Still (checkArgs callee i types args) := by
  induction types generalizing i args with
  | nil => exact .pure ()
  | cons wanted types ih =>
      cases args with
      | nil => exact .pure ()
      | cons arg args =>
          rw [checkArgs]
          have hrest := ih args (i + 1)
          apply Still.ite
          · apply Still.ite
            · exact .bind (.error _ _) fun _ => hrest
            · exact .bind (still_requireInt _ _) fun _ => hrest
          · exact hrest

end Rules

/-! The environment that a symbol table stands for. -/

def env (s : SemanticAnalyzer) : Env := s.table.scopes.map Scope.symbols

theorem declared_env (s : SemanticAnalyzer) (name : String) :
    s.env.declared name = s.table.lookup name := by
  unfold env Env.declared SymbolTable.lookup SymbolTable.lookupIn
  rw [List.findSome?_map]
  rfl

variable {s s' : SemanticAnalyzer}

/-! Expressions. -/

def LeadsExpr (s : SemanticAnalyzer) (action : AnalyzerM Expr) (e : Expr) : Prop :=
  Leads action s fun e' s' => s' = s ∧ e.Resolves s.env e'

/-! A name with no symbol of the right sort keeps the null pointer of the parser. -/

theorem resolves_null {head : VarHead} (hraw : head.raw = head)
    (hsort : ∀ symbol, s.table.lookup head.name = some symbol →
      symbol.isFunction = true) :
    head.Resolves s.env (VarHead.typed head .int) := by
  refine ⟨hraw, ?_⟩
  have hsymbol : head.symbol = none := by rw [← hraw]; rfl
  show head.symbol = (s.env.declared head.name).filter fun symbol => !symbol.isFunction
  rw [hsymbol, declared_env]
  cases hlookup : s.table.lookup head.name with
  | none => rfl
  | some symbol =>
      rw [Option.filter_some, hsort symbol hlookup]
      rfl

theorem resolves_symbol {head : VarHead} (hraw : head.raw = head) {symbol : Symbol}
    (hlookup : s.table.lookup head.name = some symbol) (hsort : symbol.isFunction = false)
    (type : CType) :
    head.Resolves s.env { VarHead.typed head type with symbol := some symbol } := by
  refine ⟨hraw, ?_⟩
  show some symbol = (s.env.declared head.name).filter fun symbol => !symbol.isFunction
  rw [declared_env, hlookup, Option.filter_some, hsort]
  rfl

theorem leads_name {head : VarHead} (hraw : head.raw = head) :
    Leads (analyzeVarExpr head none) s
      (fun r s' => s' = s ∧ r.2 = none ∧ head.Resolves s.env r.1) := by
  unfold analyzeVarExpr
  apply Leads.lookup
  have hname : (VarHead.typed head .int).name = head.name := rfl
  rw [hname]
  cases hlookup : s.table.lookup head.name with
  | none =>
      apply Leads.still (.error _ _)
      intro _
      exact ⟨rfl, rfl, resolves_null hraw (by simp [hlookup])⟩
  | some symbol =>
      dsimp only
      cases hsort : symbol.isFunction with
      | true =>
          rw [if_pos rfl]
          apply Leads.still (.error _ _)
          intro _
          exact ⟨rfl, rfl, resolves_null hraw (by simp [hlookup, hsort])⟩
      | false =>
          rw [if_neg Bool.false_ne_true]
          exact .pure ⟨rfl, rfl, resolves_symbol hraw hlookup hsort symbol.type⟩

theorem leads_element {head : VarHead} (hraw : head.raw = head)
    {action : AnalyzerM Expr} {index : Expr} (hindex : LeadsExpr s action index) :
    Leads (analyzeVarExpr head (some action)) s
      (fun r s' => s' = s ∧ head.Resolves s.env r.1 ∧
        ∃ index', r.2 = some index' ∧ index.Resolves s.env index') := by
  -- an index under a name without a symbol is analyzed all the same
  have hafter : ∀ head', head.Resolves s.env head' →
      Leads (do return (head', ← analyzeIndex (some action))) s
        (fun r s' => s' = s ∧ head.Resolves s.env r.1 ∧
          ∃ index', r.2 = some index' ∧ index.Resolves s.env index') := by
    intro head' hhead
    have hsome : Leads (analyzeIndex (some action)) s
        (fun r s' => s' = s ∧ ∃ index', r = some index' ∧ index.Resolves s.env index') := by
      apply Leads.bind hindex
      intro index' s' hleft
      obtain ⟨hstate, hresolves⟩ := hleft
      exact .pure ⟨hstate, index', rfl, hresolves⟩
    apply hsome.bind
    intro r s' hleft
    obtain ⟨hstate, hresolves⟩ := hleft
    exact .pure ⟨hstate, hhead, hresolves⟩
  unfold analyzeVarExpr
  apply Leads.lookup
  have hname : (VarHead.typed head .int).name = head.name := rfl
  rw [hname]
  cases hlookup : s.table.lookup head.name with
  | none =>
      apply Leads.still (.error _ _)
      intro _
      exact hafter _ (resolves_null hraw (by simp [hlookup]))
  | some symbol =>
      dsimp only
      cases hsort : symbol.isFunction with
      | true =>
          rw [if_pos rfl]
          apply Leads.still (.error _ _)
          intro _
          exact hafter _ (resolves_null hraw (by simp [hlookup, hsort]))
      | false =>
          rw [if_neg Bool.false_ne_true]
          apply Leads.bind hindex
          intro index' s' hleft
          obtain ⟨hstate, hresolves⟩ := hleft
          apply Leads.still (still_requireInt _ _)
          intro _
          have hdone : Leads (pure ({ VarHead.typed head .int with symbol := some symbol },
              some index')) s' (fun r s' => s' = s ∧ head.Resolves s.env r.1 ∧
                ∃ index', r.2 = some index' ∧ index.Resolves s.env index') :=
            .pure ⟨hstate, resolves_symbol hraw hlookup hsort .int, index', rfl, hresolves⟩
          split
          · exact .still (.error _ _) fun _ => hdone
          · exact .still (still_checkConstantIndex _ _ _) fun _ => hdone

def LeadsArgs (s : SemanticAnalyzer) (action : AnalyzerM (List Expr))
    (args : List Expr) : Prop :=
  Leads action s fun args' s' => s' = s ∧ ResolvesArgs s.env args args'

theorem resolves_call {env : Env} {info : ExprInfo} (hraw : info.raw = info)
    {callee : String} {args args' : List Expr} {symbol : Option Symbol}
    (hargs : ResolvesArgs env args args')
    (hsymbol : symbol = (env.declared callee).filter Symbol.isFunction) (type : CType) :
    (Expr.call info callee args none).Resolves env
      (.call { info with type := type } callee args' symbol) := by
  refine ⟨?_, hsymbol, hargs.2⟩
  calc (Expr.call { info with type := type } callee args' symbol).raw
      = .call info.raw callee (rawArgs args') none := rfl
    _ = .call info callee args none := by rw [hraw, hargs.1]

theorem leads_call {info : ExprInfo} (hraw : info.raw = info) (callee : String)
    {args : List Expr} {action : AnalyzerM (List Expr)} (hargs : LeadsArgs s action args) :
    LeadsExpr s (analyzeCallExpr info callee action) (.call info callee args none) := by
  unfold analyzeCallExpr
  apply Leads.lookup
  apply Leads.bind hargs
  intro args' s' hleft
  obtain ⟨hstate, hresolves⟩ := hleft
  subst hstate
  have hdone : ∀ type symbol,
      symbol = (s'.env.declared callee).filter Symbol.isFunction →
      LeadsExpr s' (pure (.call { info with type := type } callee args' symbol))
        (.call info callee args none) :=
    fun type symbol hsymbol => .pure ⟨rfl, resolves_call hraw hresolves hsymbol type⟩
  cases hlookup : s'.table.lookup callee with
  | none =>
      apply Leads.still (.error _ _)
      intro _
      apply hdone
      rw [declared_env, hlookup]
      rfl
  | some symbol =>
      dsimp only
      cases hsort : symbol.isFunction with
      | false =>
          rw [Bool.not_false, if_pos rfl]
          apply Leads.still (.error _ _)
          intro _
          apply Leads.still (still_note _ _)
          intro _
          apply hdone
          rw [declared_env, hlookup, Option.filter_some, hsort]
          rfl
      | true =>
          rw [Bool.not_true, if_neg Bool.false_ne_true]
          have hfound : LeadsExpr s' (pure (.call { info with type := symbol.returnType }
              callee args' (some symbol))) (.call info callee args none) := by
            apply hdone
            rw [declared_env, hlookup, Option.filter_some, hsort]
            rfl
          split
          · apply Leads.still (.error _ _)
            intro _
            split
            · exact .still (still_note _ _) fun _ => hfound
            · exact hfound
          · exact .still (still_checkArgs _ _ _ _) fun _ => hfound

mutual

theorem leads_expr : ∀ e : Expr, e.raw = e → LeadsExpr s (analyzeExpr e) e
  | .num info value, hraw => by
      unfold analyzeExpr
      exact .pure ⟨rfl, hraw, trivial⟩
  | .var head none, hraw => by
      unfold analyzeExpr
      have hhead : head.raw = head := by
        rw [Expr.raw, Expr.var.injEq] at hraw
        exact hraw.1
      apply Leads.bind (leads_name hhead)
      intro var s' hleft
      obtain ⟨hstate, hnone, hvar⟩ := hleft
      apply Leads.pure
      rw [hnone]
      refine ⟨hstate, ?_, hvar.2⟩
      rw [Expr.raw, hvar.1]
  | .var head (some index), hraw => by
      unfold analyzeExpr
      rw [Expr.raw, Expr.var.injEq, Option.some.injEq] at hraw
      apply Leads.bind (leads_element hraw.1 (leads_expr index hraw.2))
      intro var s' hleft
      obtain ⟨hstate, hvar, index', hsome, hindex⟩ := hleft
      apply Leads.pure
      rw [hsome]
      refine ⟨hstate, ?_, hvar.2, hindex.2⟩
      rw [Expr.raw, hvar.1, hindex.1]
  | .call info callee args symbol, hraw => by
      unfold analyzeExpr
      rw [Expr.raw, Expr.call.injEq] at hraw
      rw [← hraw.2.2.2]
      exact leads_call hraw.1 callee (leads_args args hraw.2.2.1)
  | .assign info opLoc target none value, hraw => by
      unfold analyzeExpr
      rw [Expr.raw, Expr.assign.injEq] at hraw
      apply Leads.bind (leads_name hraw.2.2.1)
      intro var s₁ hleft
      obtain ⟨hstate, hnone, hvar⟩ := hleft
      rw [hstate]
      apply Leads.still (still_errorIf _ _ _)
      intro _
      apply Leads.bind (leads_expr value hraw.2.2.2.2)
      intro value' s' hleft
      obtain ⟨hstate, hvalue⟩ := hleft
      apply Leads.still (still_requireInt _ _)
      intro _
      apply Leads.pure
      rw [hnone]
      refine ⟨hstate, ?_, hvar.2, hvalue.2⟩
      rw [Expr.raw, hvar.1, hvalue.1, Expr.assign.injEq]
      exact ⟨hraw.1, rfl, rfl, rfl, rfl⟩
  | .assign info opLoc target (some index) value, hraw => by
      unfold analyzeExpr
      rw [Expr.raw, Expr.assign.injEq, Option.some.injEq] at hraw
      apply Leads.bind (leads_element hraw.2.2.1 (leads_expr index hraw.2.2.2.1))
      intro var s₁ hleft
      obtain ⟨hstate, hvar, index', hsome, hindex⟩ := hleft
      rw [hstate]
      apply Leads.still (still_errorIf _ _ _)
      intro _
      apply Leads.bind (leads_expr value hraw.2.2.2.2)
      intro value' s' hleft
      obtain ⟨hstate, hvalue⟩ := hleft
      apply Leads.still (still_requireInt _ _)
      intro _
      apply Leads.pure
      rw [hsome]
      refine ⟨hstate, ?_, hvar.2, hindex.2, hvalue.2⟩
      rw [Expr.raw, hvar.1, hindex.1, hvalue.1, Expr.assign.injEq]
      exact ⟨hraw.1, rfl, rfl, rfl, rfl⟩
  | .binary info op opLoc lhs rhs, hraw => by
      unfold analyzeExpr
      rw [Expr.raw, Expr.binary.injEq] at hraw
      apply Leads.bind (leads_expr lhs hraw.2.2.2.1)
      intro lhs' s₁ hleft
      obtain ⟨hstate, hlhs⟩ := hleft
      rw [hstate]
      apply Leads.still (still_requireInt _ _)
      intro _
      apply Leads.bind (leads_expr rhs hraw.2.2.2.2)
      intro rhs' s' hleft
      obtain ⟨hstate, hrhs⟩ := hleft
      apply Leads.still (still_requireInt _ _)
      intro _
      apply Leads.still (still_checkDivisor _ _ _)
      intro _
      apply Leads.pure
      refine ⟨hstate, ?_, hlhs.2, hrhs.2⟩
      rw [Expr.raw, hlhs.1, hrhs.1, Expr.binary.injEq]
      exact ⟨hraw.1, rfl, rfl, rfl, rfl⟩

theorem leads_args : ∀ args : List Expr, rawArgs args = args →
    LeadsArgs s (analyzeArgs args) args
  | [], _ => by
      unfold analyzeArgs
      exact .pure ⟨rfl, rfl, trivial⟩
  | arg :: args, hraw => by
      unfold analyzeArgs
      rw [rawArgs, List.cons.injEq] at hraw
      apply Leads.bind (leads_expr arg hraw.1)
      intro arg' s₁ hleft
      obtain ⟨hstate, harg⟩ := hleft
      rw [hstate]
      apply Leads.bind (leads_args args hraw.2)
      intro args' s' hleft
      obtain ⟨hstate, hargs⟩ := hleft
      apply Leads.pure
      refine ⟨hstate, ?_, harg.2, hargs.2⟩
      rw [rawArgs, harg.1, hargs.1]

end

/-! Declarations.  What they enter goes into the innermost scope. -/

theorem leads_declare {symbol : Symbol} {loc : SourceLocation} {scope : Scope}
    {outer : List Scope} (hscopes : s.table.scopes = scope :: outer)
    (hsorted : ∀ id, Sorted { symbol with id := id }) :
    Leads (declareOrDiagnose symbol loc) s (fun r s' => Adds s s' r.toList ∧
      ((symbol.name ∈ names scope.symbols ∧ r = none) ∨
        (symbol.name ∉ names scope.symbols ∧
          ∃ id, r = some { symbol with id := id }))) := by
  cases hfind : scope.find symbol.name with
  | none =>
      have hfresh : symbol.name ∉ names scope.symbols := find_eq_none.mp hfind
      have hjudges : Judges (declareOrDiagnose symbol loc) s _ _ :=
        judges_declare hscopes hsorted
      obtain ⟨hresult, hadds⟩ := hjudges.result hfresh
      constructor
      rw [hresult]
      exact ⟨hadds, .inr ⟨hfresh, _, rfl⟩⟩
  | some found =>
      have hmem : symbol.name ∈ names scope.symbols := by
        by_contra hfresh
        rw [find_eq_none.mpr hfresh] at hfind
        cases hfind
      have hsame : s.table.declare symbol = (.existing found, s.table) := by
        simp [SymbolTable.declare, hscopes, hfind]
      have hdeclare : Leads (declare symbol) s
          (fun r s' => r = .existing found ∧ s' = s) := by
        constructor
        show (s.table.declare symbol).1 = _ ∧
          { s with table := (s.table.declare symbol).2 } = s
        rw [hsame]
        exact ⟨rfl, rfl⟩
      have hdone : Leads (pure none) s (fun r s' => Adds s s' (Option.toList r) ∧
          ((symbol.name ∈ names scope.symbols ∧ r = none) ∨
            (symbol.name ∉ names scope.symbols ∧
              ∃ id, r = some { symbol with id := id }))) :=
        .pure ⟨.refl s, .inl ⟨hmem, rfl⟩⟩
      unfold declareOrDiagnose
      apply hdeclare.bind
      intro r s' hleft
      obtain ⟨hr, hstate⟩ := hleft
      rw [hr, hstate]
      dsimp only
      split
      · exact .still (.error _ _) fun _ => hdone
      · exact .still (.error _ _) fun _ => .still (still_note _ _) fun _ => hdone

theorem sorted_variable {symbol : Symbol} {isArray : Bool}
    (htype : symbol.type = variableType isArray) (hparams : symbol.paramTypes = [])
    (id : Nat) : Sorted { symbol with id := id } where
  type := by
    intro _
    show symbol.type ≠ .void
    rw [htype]
    cases isArray <;> decide
  params := by
    show CType.void ∉ symbol.paramTypes
    rw [hparams]
    exact List.not_mem_nil

theorem leads_varDecl {decl : VarDecl} (hraw : decl.raw = decl) {scope : Scope}
    {outer : List Scope} (hscopes : s.table.scopes = scope :: outer) :
    Leads (analyzeVarDecl decl) s (fun decl' s' => decl'.raw = decl ∧
      decl'.Enters scope.symbols ∧ Adds s s' decl'.symbol.toList) := by
  unfold analyzeVarDecl
  apply Leads.still (still_errorIf _ _ _)
  intro _
  apply Leads.still (still_warnIf _ _ _)
  intro _
  apply Leads.bind (leads_declare hscopes (@sorted_variable _ decl.isArray rfl rfl))
  intro symbol s' hleft
  obtain ⟨hadds, hsymbol⟩ := hleft
  refine .pure ⟨hraw, ?_, hadds⟩
  obtain ⟨hmem, rfl⟩ | ⟨hfresh, id, rfl⟩ := hsymbol
  · exact .inl ⟨hmem, rfl⟩
  · exact .inr ⟨hfresh, _, rfl, rfl, rfl, rfl, rfl⟩

theorem leads_param {param : ParamDecl} (hraw : param.raw = param) {scope : Scope}
    {outer : List Scope} (hscopes : s.table.scopes = scope :: outer) :
    Leads (analyzeParam param) s (fun param' s' => param'.raw = param ∧
      param'.Enters scope.symbols ∧ Adds s s' param'.symbol.toList) := by
  unfold analyzeParam
  apply Leads.still (still_errorIf _ _ _)
  intro _
  apply Leads.bind (leads_declare hscopes (@sorted_variable _ param.isArray rfl rfl))
  intro symbol s' hleft
  obtain ⟨hadds, hsymbol⟩ := hleft
  refine .pure ⟨hraw, ?_, hadds⟩
  obtain ⟨hmem, rfl⟩ | ⟨hfresh, id, rfl⟩ := hsymbol
  · exact .inl ⟨hmem, rfl⟩
  · exact .inr ⟨hfresh, _, rfl, rfl, rfl, rfl⟩

theorem Adds.cons_scopes {scope : Scope} {outer : List Scope} {new : List Symbol}
    (h : Adds s s' new) (hscopes : s.table.scopes = scope :: outer) :
    s'.table.scopes = { scope with symbols := scope.symbols ++ new } :: outer := by
  rw [h.scopes, hscopes, addTo]

theorem toList_append_filterMap {α : Type} (f : α → Option Symbol) (a : α) (as : List α) :
    (f a).toList ++ as.filterMap f = (a :: as).filterMap f := by
  rw [List.filterMap_cons]
  cases f a <;> rfl

theorem leads_varDecls (decls : List VarDecl) (hraw : decls.map VarDecl.raw = decls)
    {scope : Scope} {outer : List Scope} (hscopes : s.table.scopes = scope :: outer) :
    Leads (analyzeVarDecls decls) s (fun decls' s' => decls'.map VarDecl.raw = decls ∧
      EnterVars scope.symbols decls' ∧ Adds s s' (decls'.filterMap VarDecl.symbol)) := by
  induction decls generalizing s scope with
  | nil => exact .pure ⟨rfl, trivial, .refl s⟩
  | cons decl decls ih =>
      rw [List.map_cons, List.cons.injEq] at hraw
      unfold analyzeVarDecls
      apply Leads.bind (leads_varDecl hraw.1 hscopes)
      intro decl' s₁ hleft
      obtain ⟨hdecl, henters, hadds⟩ := hleft
      apply Leads.bind (ih hraw.2 (hadds.cons_scopes hscopes))
      intro decls' s₂ hleft
      obtain ⟨hdecls, henter, hadds'⟩ := hleft
      refine .pure ⟨?_, ⟨henters, henter⟩, ?_⟩
      · rw [List.map_cons, hdecl, hdecls]
      · rw [← toList_append_filterMap]
        exact hadds.trans hadds'

theorem leads_params (params : List ParamDecl) (hraw : params.map ParamDecl.raw = params)
    {scope : Scope} {outer : List Scope} (hscopes : s.table.scopes = scope :: outer) :
    Leads (analyzeParams params) s (fun params' s' => params'.map ParamDecl.raw = params ∧
      EnterParams scope.symbols params' ∧
      Adds s s' (params'.filterMap ParamDecl.symbol)) := by
  induction params generalizing s scope with
  | nil => exact .pure ⟨rfl, trivial, .refl s⟩
  | cons param params ih =>
      rw [List.map_cons, List.cons.injEq] at hraw
      unfold analyzeParams
      apply Leads.bind (leads_param hraw.1 hscopes)
      intro param' s₁ hleft
      obtain ⟨hparam, henters, hadds⟩ := hleft
      apply Leads.bind (ih hraw.2 (hadds.cons_scopes hscopes))
      intro params' s₂ hleft
      obtain ⟨hparams, henter, hadds'⟩ := hleft
      refine .pure ⟨?_, ⟨henters, henter⟩, ?_⟩
      · rw [List.map_cons, hparam, hparams]
      · rw [← toList_append_filterMap]
        exact hadds.trans hadds'

/-! Statements.  After one of them the scopes are those before it. -/

theorem Leaves.env {new : List Symbol} (h : Leaves s s' new) : s'.env = s.env := by
  unfold SemanticAnalyzer.env
  rw [h.scopes]

def entered (decls : List VarDecl) : List Symbol := decls.filterMap VarDecl.symbol

theorem entered_append (first second : List VarDecl) :
    entered (first ++ second) = entered first ++ entered second := List.filterMap_append

def LeadsStmt (s : SemanticAnalyzer) (stmt : Stmt) : Prop :=
  Leads (analyzeStmt stmt) s fun stmt' s' =>
    stmt.Resolves s.env stmt' ∧ Leaves s s' (entered stmt'.locals)

def LeadsStmts (s : SemanticAnalyzer) (stmts : List Stmt) : Prop :=
  Leads (analyzeStmts stmts) s fun stmts' s' =>
    ResolvesStmts s.env stmts stmts' ∧ Leaves s s' (entered (localsOf stmts'))

theorem leads_condition {cond : Expr} (hraw : cond.raw = cond) :
    LeadsExpr s (analyzeCondition cond) cond := by
  unfold analyzeCondition
  apply Leads.bind (leads_expr cond hraw)
  intro cond' s' hleft
  apply Leads.still (still_requireInt _ _)
  intro _
  exact .pure hleft

theorem leads_return {loc : SourceLocation} {value : Option Expr}
    (hraw : (Stmt.ret loc value).raw = .ret loc value) :
    Leads (analyzeReturn loc value) s fun stmt' s' =>
      (Stmt.ret loc value).Resolves s.env stmt' ∧ stmt'.locals = [] ∧ s' = s := by
  unfold analyzeReturn
  apply Leads.getCurrentFunction
  cases value with
  | none =>
      apply Leads.still (still_errorIf _ _ _)
      intro _
      exact .pure ⟨⟨rfl, trivial⟩, rfl, rfl⟩
  | some value =>
      rw [Stmt.raw, Stmt.ret.injEq, Option.some.injEq] at hraw
      apply Leads.bind (leads_expr value hraw.2)
      intro value' s' hleft
      obtain ⟨hstate, hvalue⟩ := hleft
      have hdone : Leads (pure (Stmt.ret loc (some value'))) s' fun stmt' s' =>
          (Stmt.ret loc (some value)).Resolves s.env stmt' ∧ stmt'.locals = [] ∧ s' = s := by
        refine .pure ⟨⟨?_, hvalue.2⟩, rfl, hstate⟩
        rw [Stmt.raw, hvalue.1]
      split
      · exact .still (.error _ _) fun _ => hdone
      · exact .still (still_requireInt _ _) fun _ => hdone

theorem leads_pushScope (label : String) : Leads (pushScope label) s
    (fun _ s' => s' = { s with table := s.table.pushScope label }) := ⟨rfl⟩

theorem leads_closeScope : Leads closeScope s (fun _ s' =>
    s'.table.scopes = s.table.scopes.tail ∧ s'.table.storage = s.table.storage ∧
      s'.currentFunction = s.currentFunction) :=
  ⟨judges_closeScope.result trivial⟩

theorem leads_block {loc : SourceLocation} {localDecls : List VarDecl} {stmts : List Stmt}
    (hlocals : localDecls.map VarDecl.raw = localDecls)
    (hstmts : ∀ s', LeadsStmts s' stmts) :
    LeadsStmt s (.compound loc localDecls stmts) := by
  unfold LeadsStmt analyzeStmt
  apply Leads.bind (leads_pushScope "block")
  intro _ s₀ hpush
  have hopen : s₀.table.scopes =
      { order := s.table.nextOrder, label := "block" } :: s.table.scopes := by
    rw [hpush]
    rfl
  apply Leads.bind (leads_varDecls localDecls hlocals hopen)
  intro decls' s₁ hleft
  obtain ⟨hdecls, henter, hadds⟩ := hleft
  have henv : s₁.env = entered decls' :: s.env := by
    unfold SemanticAnalyzer.env
    rw [hadds.cons_scopes hopen]
    rfl
  apply Leads.bind (hstmts s₁)
  intro stmts' s₂ hleft
  obtain ⟨hresolves, hleaves⟩ := hleft
  rw [henv] at hresolves
  apply leads_closeScope.bind
  intro _ s₃ hclosed
  obtain ⟨hscopes, hstorage, hcurrent⟩ := hclosed
  have hstores := hadds.toStores.trans hleaves.toStores
  refine .pure ⟨⟨?_, henter, hresolves.2⟩, ⟨?_, ?_, ?_, ?_⟩, ?_⟩
  · rw [Stmt.raw, hdecls, hresolves.1]
  · rw [hstorage, hstores.storage, Stmt.locals, entered_append, hpush]
    rfl
  · rw [hcurrent, hstores.current, hpush]
  · intro h
    rw [hstorage]
    apply hstores.numbered
    rw [hpush]
    exact h
  · rw [Stmt.locals, entered_append]
    exact hstores.sorted
  · rw [hscopes, hleaves.scopes, hadds.scopes, hopen]
    rfl

theorem Leaves.of_eq (h : s' = s) : Leaves s s' [] := by
  rw [h]
  exact .refl s

mutual

theorem leads_stmt : ∀ (stmt : Stmt) (s : SemanticAnalyzer), stmt.raw = stmt →
    LeadsStmt s stmt
  | .compound loc localDecls stmts, s, hraw => by
      rw [Stmt.raw, Stmt.compound.injEq] at hraw
      exact leads_block hraw.2.1 fun s' => leads_stmts stmts s' hraw.2.2
  | .expr loc none, s, _ => ⟨⟨rfl, trivial⟩, .refl s⟩
  | .expr loc (some e), s, hraw => by
      rw [Stmt.raw, Stmt.expr.injEq, Option.some.injEq] at hraw
      unfold LeadsStmt analyzeStmt
      apply Leads.bind (leads_expr e hraw.2)
      intro e' s' hleft
      obtain ⟨hstate, he⟩ := hleft
      refine .pure ⟨⟨?_, he.2⟩, .of_eq hstate⟩
      rw [Stmt.raw, he.1]
  | .ifs loc cond thenStmt none, s, hraw => by
      rw [Stmt.raw, Stmt.ifs.injEq] at hraw
      unfold LeadsStmt analyzeStmt
      apply Leads.bind (leads_condition hraw.2.1)
      intro cond' s₀ hleft
      obtain ⟨hstate, hcond⟩ := hleft
      rw [hstate]
      apply Leads.bind (leads_stmt thenStmt s hraw.2.2.1)
      intro then' s₁ hleft
      obtain ⟨hthen, hleaves⟩ := hleft
      refine .pure ⟨⟨?_, hcond.2, hthen.2⟩, hleaves⟩
      rw [Stmt.raw, hcond.1, hthen.1]
  | .ifs loc cond thenStmt (some elseStmt), s, hraw => by
      rw [Stmt.raw, Stmt.ifs.injEq, Option.some.injEq] at hraw
      unfold LeadsStmt analyzeStmt
      apply Leads.bind (leads_condition hraw.2.1)
      intro cond' s₀ hleft
      obtain ⟨hstate, hcond⟩ := hleft
      rw [hstate]
      apply Leads.bind (leads_stmt thenStmt s hraw.2.2.1)
      intro then' s₁ hleft
      obtain ⟨hthen, hleaves⟩ := hleft
      apply Leads.bind (leads_stmt elseStmt s₁ hraw.2.2.2)
      intro else' s₂ hleft
      obtain ⟨helse, hleaves'⟩ := hleft
      rw [hleaves.env] at helse
      refine .pure ⟨⟨?_, hcond.2, hthen.2, helse.2⟩, ?_⟩
      · rw [Stmt.raw, hcond.1, hthen.1, helse.1]
      · rw [Stmt.locals, entered_append]
        exact hleaves.trans hleaves'
  | .whiles loc cond body, s, hraw => by
      rw [Stmt.raw, Stmt.whiles.injEq] at hraw
      unfold LeadsStmt analyzeStmt
      apply Leads.bind (leads_condition hraw.2.1)
      intro cond' s₀ hleft
      obtain ⟨hstate, hcond⟩ := hleft
      rw [hstate]
      apply Leads.bind (leads_stmt body s hraw.2.2)
      intro body' s₁ hleft
      obtain ⟨hbody, hleaves⟩ := hleft
      refine .pure ⟨⟨?_, hcond.2, hbody.2⟩, hleaves⟩
      rw [Stmt.raw, hcond.1, hbody.1]
  | .ret loc value, s, hraw => by
      unfold LeadsStmt analyzeStmt
      obtain ⟨hresolves, hlocals, hstate⟩ := (leads_return hraw).result
      constructor
      refine ⟨hresolves, ?_⟩
      rw [hlocals]
      exact .of_eq hstate

theorem leads_stmts : ∀ (stmts : List Stmt) (s : SemanticAnalyzer),
    rawStmts stmts = stmts → LeadsStmts s stmts
  | [], s, _ => ⟨⟨rfl, trivial⟩, .refl s⟩
  | stmt :: stmts, s, hraw => by
      rw [rawStmts, List.cons.injEq] at hraw
      unfold LeadsStmts analyzeStmts
      apply Leads.bind (leads_stmt stmt s hraw.1)
      intro stmt' s₁ hleft
      obtain ⟨hstmt, hleaves⟩ := hleft
      apply Leads.bind (leads_stmts stmts s₁ hraw.2)
      intro stmts' s₂ hleft
      obtain ⟨hstmts, hleaves'⟩ := hleft
      rw [hleaves.env] at hstmts
      refine .pure ⟨⟨?_, hstmt.2, hstmts.2⟩, ?_⟩
      · rw [rawStmts, hstmt.1, hstmts.1]
      · rw [localsOf, entered_append]
        exact hleaves.trans hleaves'

end

/-! Functions. -/

structure BlockEntered (s s' : SemanticAnalyzer) (scope : Scope) (outer : List Scope)
    (block block' : CompoundStmt) : Prop where
  raw : block'.raw = block
  locals : EnterVars scope.symbols block'.localDecls
  body : ScopedStmts ((scope.symbols ++ entered block'.localDecls) ::
    outer.map Scope.symbols) block'.stmts
  stores : Stores s s' (entered block'.toStmt.locals)
  outer : s'.table.scopes.tail = outer

theorem leads_body {block : CompoundStmt} (hraw : block.raw = block) {scope : Scope}
    {outer : List Scope} (hscopes : s.table.scopes = scope :: outer) :
    Leads (analyzeBody block) s fun block' s' =>
      BlockEntered s s' scope outer block block' := by
  rw [CompoundStmt.raw, CompoundStmt.mk.injEq] at hraw
  unfold analyzeBody
  apply Leads.bind (leads_varDecls block.localDecls hraw.2.1 hscopes)
  intro decls' s₁ hleft
  obtain ⟨hdecls, henter, hadds⟩ := hleft
  have hopen := hadds.cons_scopes hscopes
  have henv : s₁.env = (scope.symbols ++ entered decls') :: outer.map Scope.symbols := by
    unfold SemanticAnalyzer.env
    rw [hopen]
    rfl
  apply Leads.bind (leads_stmts block.stmts s₁ hraw.2.2)
  intro stmts' s₂ hleft
  obtain ⟨hresolves, hleaves⟩ := hleft
  rw [henv] at hresolves
  apply Leads.pure
  exact {
    raw := by rw [CompoundStmt.raw, hdecls, hresolves.1]
    locals := henter
    body := hresolves.2
    stores := by
      show Stores s s₂ (entered (decls' ++ localsOf stmts'))
      rw [entered_append]
      exact hadds.toStores.trans hleaves.toStores
    outer := by
      rw [hleaves.scopes, hopen]
      rfl }

theorem sorted_functionSymbol (decl : FunDecl) (id : Nat) :
    Sorted { functionSymbol decl with id := id } where
  type := by
    intro h
    cases h
  params := by
    simp only [functionSymbol, List.mem_map, paramType, not_exists, not_and]
    intro param _
    split <;> decide

/-! A declaration of the global scope, which is the only one open. -/

structure DeclEntered (s s' : SemanticAnalyzer) (scope : Scope) (decl decl' : Decl) :
    Prop where
  raw : decl'.raw = decl
  follows : decl'.Scoped scope.symbols
  storage : s'.table.storage = s.table.storage ++ decl'.entered
  numbered : Numbered s.table.storage → Numbered s'.table.storage
  scopes : s'.table.scopes =
    [{ scope with symbols := scope.symbols ++ decl'.symbol.toList }]

theorem leads_funDecl {decl : FunDecl} (hraw : decl.raw = decl) {scope : Scope}
    (hscopes : s.table.scopes = [scope]) :
    Leads (analyzeFunDecl decl) s fun decl' s' =>
      DeclEntered s s' scope (.fun decl) (.fun decl') := by
  rw [FunDecl.raw, FunDecl.mk.injEq] at hraw
  obtain ⟨-, -, -, -, hparamsRaw, hbodyRaw, hsymbolRaw⟩ := hraw
  unfold analyzeFunDecl
  apply Leads.bind (leads_declare hscopes (sorted_functionSymbol decl))
  intro symbol s₁ hleft
  obtain ⟨hadds, hsymbol⟩ := hleft
  have hglobal := hadds.cons_scopes hscopes
  apply Leads.getCurrentFunction
  have hset : ∀ (s : SemanticAnalyzer) (current : Option FunDecl),
      Leads (setCurrentFunction current) s
        (fun _ s' => s' = { s with currentFunction := current }) := fun _ _ => ⟨rfl⟩
  apply (hset s₁ (some decl)).bind
  intro _ s₂ hcurrent
  apply Leads.bind (leads_pushScope _)
  intro _ s₃ hpush
  have htable : s₃.table = s₁.table.pushScope ("function '" ++ decl.name ++ "'") := by
    rw [hpush, hcurrent]
  have hopen : s₃.table.scopes = { order := s₁.table.nextOrder
                                   label := "function '" ++ decl.name ++ "'" } ::
      s₁.table.scopes := by
    rw [htable]
    rfl
  apply Leads.bind (leads_params decl.params hparamsRaw hopen)
  intro params' s₄ hleft
  obtain ⟨hparams, henter, hadds₄⟩ := hleft
  apply Leads.bind (leads_body hbodyRaw (hadds₄.cons_scopes hopen))
  intro body' s₅ hbody
  apply leads_closeScope.bind
  intro _ s₆ hclosed
  obtain ⟨hscopes₆, hstorage₆, -⟩ := hclosed
  apply (hset s₆ s₁.currentFunction).bind
  intro _ s₇ hrestore
  apply Leads.still (still_warnIf _ _ _)
  intro _
  have htable₇ : s₇.table = s₆.table := by rw [hrestore]
  have hinner := hadds₄.toStores.trans hbody.stores
  have hstorage₃ : s₃.table.storage = s₁.table.storage := by
    rw [htable]
    rfl
  apply Leads.pure
  exact {
    raw := by
      rw [Decl.raw, FunDecl.raw, hparams, hbody.raw, hsymbolRaw]
    follows := by
      have hlocals := hbody.locals
      have hstmts := hbody.body
      rw [hglobal] at hstmts
      refine ⟨?_, henter, hlocals, hstmts⟩
      obtain ⟨hmem, rfl⟩ | ⟨hfresh, id, rfl⟩ := hsymbol
      · exact .inl ⟨hmem, rfl⟩
      · refine .inr ⟨hfresh, _, rfl, rfl, rfl, rfl, ?_, rfl⟩
        have hmap : ∀ params : List ParamDecl,
            (params.map ParamDecl.raw).map paramType = params.map paramType := by
          intro params
          rw [List.map_map]
          rfl
        show decl.params.map paramType = params'.map paramType
        rw [← hparams, hmap]
    storage := by
      rw [htable₇, hstorage₆, hinner.storage, hstorage₃, hadds.storage, List.append_assoc]
      simp only [Decl.entered, List.append_assoc]
      rfl
    numbered := by
      intro h
      rw [htable₇, hstorage₆]
      apply hinner.numbered
      rw [hstorage₃]
      exact hadds.numbered h
    scopes := by
      rw [htable₇, hscopes₆, hbody.outer, hglobal]
      rfl }

theorem leads_decl {decl : Decl} (hraw : decl.raw = decl) {scope : Scope}
    (hscopes : s.table.scopes = [scope]) :
    Leads (analyzeDecl decl) s fun decl' s' => DeclEntered s s' scope decl decl' := by
  cases decl with
  | var decl =>
      rw [Decl.raw, Decl.var.injEq] at hraw
      unfold analyzeDecl
      apply Leads.bind (leads_varDecl hraw hscopes)
      intro decl' s' hleft
      obtain ⟨hraw', henters, hadds⟩ := hleft
      apply Leads.pure
      exact {
        raw := congrArg Decl.var hraw'
        follows := henters
        storage := hadds.storage
        numbered := hadds.numbered
        scopes := hadds.cons_scopes hscopes }
  | «fun» decl =>
      rw [Decl.raw, Decl.fun.injEq] at hraw
      unfold analyzeDecl
      apply Leads.bind (leads_funDecl hraw hscopes)
      intro decl' s' hleft
      exact .pure hleft

/-! The program. -/

structure DeclsEntered (s s' : SemanticAnalyzer) (scope : Scope)
    (decls decls' : List Decl) : Prop where
  raw : decls'.map Decl.raw = decls
  follows : ScopedDecls scope.symbols decls'
  storage : s'.table.storage = s.table.storage ++ decls'.flatMap Decl.entered
  numbered : Numbered s.table.storage → Numbered s'.table.storage

theorem leads_decls (decls : List Decl) (hraw : decls.map Decl.raw = decls)
    {scope : Scope} (hscopes : s.table.scopes = [scope]) :
    Leads (analyzeDecls decls) s fun decls' s' =>
      DeclsEntered s s' scope decls decls' := by
  induction decls generalizing s scope with
  | nil => exact .pure ⟨rfl, trivial, by simp, id⟩
  | cons decl decls ih =>
      rw [List.map_cons, List.cons.injEq] at hraw
      unfold analyzeDecls
      apply Leads.bind (leads_decl hraw.1 hscopes)
      intro decl' s₁ hdecl
      apply Leads.bind (ih hraw.2 hdecl.scopes)
      intro decls' s₂ hdecls
      apply Leads.pure
      exact {
        raw := by rw [List.map_cons, hdecl.raw, hdecls.raw]
        follows := ⟨hdecl.follows, hdecls.follows⟩
        storage := by
          rw [hdecls.storage, hdecl.storage, List.flatMap_cons, List.append_assoc]
        numbered := hdecls.numbered ∘ hdecl.numbered }

theorem still_checkMain (program : Program) : Still (checkMain program) := by
  unfold checkMain
  cases program.decls.getLast? with
  | none => exact .pure ()
  | some last =>
      cases findMain 0 program.decls with
      | none => exact .error _ _
      | some found => exact .bind (still_errorIf _ _ _) fun _ => still_errorIf _ _ _

theorem analyze_scoped {program : Program} (hraw : program.raw = program) :
    (analyze program {}).1.raw = program ∧ (analyze program {}).1.Scoped := by
  have hleads : Leads (analyze program) {} fun program' _ =>
      program'.raw = program ∧ program'.Scoped := by
    rw [Program.raw, Program.mk.injEq] at hraw
    unfold analyze
    apply Leads.bind (leads_pushScope "global")
    intro _ s₀ hpush
    have hbuiltins : Leads declareBuiltins s₀ (fun _ s' => s'.table.scopes =
        [{ order := 0, label := "global", symbols := builtinSymbols }] ∧
          s'.table.storage = builtinSymbols) := by
      rw [hpush]
      exact ⟨judges_declareBuiltins.result trivial⟩
    apply hbuiltins.bind
    intro _ s₁ hleft
    obtain ⟨hscopes, hstorage⟩ := hleft
    apply Leads.bind (leads_decls program.decls hraw hscopes)
    intro decls' s₂ hdecls
    apply Leads.still (still_checkMain _)
    intro _
    apply leads_closeScope.bind
    intro _ s₃ _
    have hsort : Leads sortScopes s₃ (fun _ _ => True) := ⟨trivial⟩
    apply hsort.bind
    intro _ s₄ _
    apply Leads.pure
    refine ⟨congrArg Program.mk hdecls.raw, hdecls.follows, ?_⟩
    have hnumbered := hdecls.numbered (by rw [hstorage]; rfl)
    rwa [hdecls.storage, hstorage] at hnumbered
  exact hleads.result

/-- Lexical scoping: analysis gives every use of a name in a program that the parser
returns the symbol that the rules of scoping prescribe, and changes nothing else but
the types. -/
theorem analyze_lexicallyScoped (p p' : Parser) (program : Program)
    (hparse : p.parseProgram = some (program, p')) :
    (analyze program {}).1.raw = program ∧ (analyze program {}).1.Scoped :=
  analyze_scoped (Parser.parseProgram_raw hparse)

/-! `int x; void main(void) { { int x; int x; x; } x; y; }` -/

def shadowTokens : List Token :=
  [{ kind := .kwInt, lexeme := "int" }, { kind := .identifier, lexeme := "x" },
   { kind := .semicolon, lexeme := ";" },
   { kind := .kwVoid, lexeme := "void" }, { kind := .identifier, lexeme := "main" },
   { kind := .lParen, lexeme := "(" }, { kind := .kwVoid, lexeme := "void" },
   { kind := .rParen, lexeme := ")" }, { kind := .lBrace, lexeme := "\x7b" },
   { kind := .lBrace, lexeme := "\x7b" },
   { kind := .kwInt, lexeme := "int" }, { kind := .identifier, lexeme := "x" },
   { kind := .semicolon, lexeme := ";" },
   { kind := .kwInt, lexeme := "int" }, { kind := .identifier, lexeme := "x" },
   { kind := .semicolon, lexeme := ";" },
   { kind := .identifier, lexeme := "x" }, { kind := .semicolon, lexeme := ";" },
   { kind := .rBrace, lexeme := "\x7d" },
   { kind := .identifier, lexeme := "x" }, { kind := .semicolon, lexeme := ";" },
   { kind := .identifier, lexeme := "y" }, { kind := .semicolon, lexeme := ";" },
   { kind := .rBrace, lexeme := "\x7d" }, { kind := .endOfFile }]

theorem analyze_lexicallyScoped_shadow :
    ∃ program p', (Parser.make shadowTokens []).parseProgram = some (program, p') ∧
      (analyze program {}).1.raw = program ∧ (analyze program {}).1.Scoped := by
  have hrun : (Parser.make shadowTokens []).parseProgram.isSome = true := by
    decide +kernel
  obtain ⟨⟨program, p'⟩, hparse⟩ := Option.isSome_iff_exists.mp hrun
  exact ⟨program, p', hparse, analyze_lexicallyScoped _ p' program hparse⟩

end SemanticAnalyzer

end CMinus
