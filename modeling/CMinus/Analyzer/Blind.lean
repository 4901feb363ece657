import CMinus.SemanticAnalyzer

namespace CMinus

namespace SemanticAnalyzer

/-! Of the function around it a statement is judged by the name and the return type
alone, so its body may change without a change to what is reported. -/

def header (decl : FunDecl) : String × CType := (decl.name, decl.returnType)

def withCurrent (s : SemanticAnalyzer) (current : Option FunDecl) : SemanticAnalyzer :=
  { s with currentFunction := current }

def Alike (s : SemanticAnalyzer) (current : Option FunDecl) : Prop :=
  current.map header = s.currentFunction.map header

structure Blind {α : Type} (action : AnalyzerM α) : Prop where
  run : ∀ s current, Alike s current →
    action (s.withCurrent current) =
      ((action s).1, (action s).2.1.withCurrent current, (action s).2.2)
  keeps : ∀ s, (action s).2.1.currentFunction = s.currentFunction

section Rules

variable {α β : Type}

theorem Blind.alike {action : AnalyzerM α} (h : Blind action) {s : SemanticAnalyzer}
    {current : Option FunDecl} (halike : Alike s current) :
    Alike (action s).2.1 current := by
  unfold Alike
  rw [h.keeps]
  exact halike

theorem Blind.pure (a : α) : Blind (Pure.pure a) := ⟨fun _ _ _ => rfl, fun _ => rfl⟩

theorem Blind.bind {action : AnalyzerM α} {next : α → AnalyzerM β} (h : Blind action)
    (hnext : ∀ a, Blind (next a)) : Blind (action >>= next) where
  run := by
    intro s current halike
    show ((next (action (s.withCurrent current)).1 (action (s.withCurrent current)).2.1).1,
      (next (action (s.withCurrent current)).1 (action (s.withCurrent current)).2.1).2.1,
      (action (s.withCurrent current)).2.2 ++
        (next (action (s.withCurrent current)).1
          (action (s.withCurrent current)).2.1).2.2) = _
    rw [h.run s current halike, (hnext _).run _ current (h.alike halike)]
    rfl
  keeps := by
    intro s
    calc ((action >>= next) s).2.1.currentFunction
        = (next (action s).1 (action s).2.1).2.1.currentFunction := rfl
      _ = (action s).2.1.currentFunction := (hnext _).keeps _
      _ = s.currentFunction := h.keeps s

theorem Blind.ite {c : Prop} [Decidable c] {x y : AnalyzerM α} (hx : Blind x)
    (hy : Blind y) : Blind (if c then x else y) := by
  split
  · exact hx
  · exact hy

theorem Blind.error (loc : SourceLocation) (message : String) :
    Blind (error loc message) := ⟨fun _ _ _ => rfl, fun _ => rfl⟩

theorem blind_note (loc : SourceLocation) (message : String) : Blind (note loc message) :=
  ⟨fun _ _ _ => rfl, fun _ => rfl⟩

theorem blind_errorIf (c : Prop) [Decidable c] (loc : SourceLocation)
    (message : String) : Blind (errorIf c loc message) :=
  .ite (.error loc message) (.pure ())

theorem blind_warnIf (c : Prop) [Decidable c] (loc : SourceLocation)
    (message : String) : Blind (warnIf c loc message) :=
  .ite ⟨fun _ _ _ => rfl, fun _ => rfl⟩ (.pure ())

theorem blind_lookup (name : String) : Blind (lookup name) :=
  ⟨fun _ _ _ => rfl, fun _ => rfl⟩

theorem blind_declare (symbol : Symbol) : Blind (declare symbol) :=
  ⟨fun _ _ _ => rfl, fun _ => rfl⟩

theorem blind_pushScope (label : String) : Blind (pushScope label) :=
  ⟨fun _ _ _ => rfl, fun _ => rfl⟩

theorem blind_closeScope : Blind closeScope := ⟨fun _ _ _ => rfl, fun _ => rfl⟩

end Rules

/-! Expressions. -/

theorem blind_requireInt (e : Expr) (context : String) : Blind (requireInt e context) :=
  .ite (.pure ()) (.ite (.error _ _) (.error _ _))

theorem blind_checkConstantIndex (symbol : Symbol) (name : String) (index : Expr) :
    Blind (checkConstantIndex symbol name index) := by
  cases index with
  | num info value => exact blind_warnIf _ _ _
  | _ => exact .pure ()

theorem blind_checkDivisor (op : BinaryOp) (opLoc : SourceLocation) (e : Expr) :
    Blind (checkDivisor op opLoc e) := by
  cases e with
  | num info value => exact blind_warnIf _ _ _
  | _ => exact .pure ()

theorem blind_checkArgs (callee : String) (types : List CType) (args : List Expr)
    (i : Nat) : Blind (checkArgs callee i types args) := by
  induction types generalizing i args with
  | nil => exact .pure ()
  | cons wanted types ih =>
      cases args with
      | nil => exact .pure ()
      | cons arg args =>
          rw [checkArgs]
          have hrest := ih args (i + 1)
          apply Blind.ite
          · apply Blind.ite
            · exact .bind (.error _ _) fun _ => hrest
            · exact .bind (blind_requireInt _ _) fun _ => hrest
          · exact hrest

theorem blind_analyzeIndex {index : Option (AnalyzerM Expr)}
    (hindex : ∀ action, index = some action → Blind action) :
    Blind (analyzeIndex index) := by
  cases index with
  | none => exact .pure none
  | some action => exact .bind (hindex action rfl) fun _ => .pure _

theorem blind_analyzeVarExpr (head : VarHead) {index : Option (AnalyzerM Expr)}
    (hindex : ∀ action, index = some action → Blind action) :
    Blind (analyzeVarExpr head index) := by
  have hnull : ∀ head' : VarHead, Blind (do return (head', ← analyzeIndex index)) :=
    fun head' => .bind (blind_analyzeIndex hindex) fun _ => .pure _
  unfold analyzeVarExpr
  apply Blind.bind (blind_lookup _)
  intro found
  cases found with
  | none => exact .bind (.error _ _) fun _ => hnull _
  | some symbol =>
      apply Blind.ite
      · exact .bind (.error _ _) fun _ => hnull _
      cases index with
      | none => exact .pure _
      | some action =>
          apply Blind.bind (hindex action rfl)
          intro index'
          apply Blind.bind (blind_requireInt _ _)
          intro _
          apply Blind.ite
          · exact .bind (.error _ _) fun _ => .pure _
          · exact .bind (blind_checkConstantIndex _ _ _) fun _ => .pure _

theorem blind_analyzeCallExpr (info : ExprInfo) (callee : String)
    {args : AnalyzerM (List Expr)} (hargs : Blind args) :
    Blind (analyzeCallExpr info callee args) := by
  unfold analyzeCallExpr
  apply Blind.bind (blind_lookup _)
  intro found
  apply Blind.bind hargs
  intro args'
  cases found with
  | none => exact .bind (.error _ _) fun _ => .pure _
  | some symbol =>
      apply Blind.ite
      · exact .bind (.error _ _) fun _ => .bind (blind_note _ _) fun _ => .pure _
      apply Blind.ite
      · apply Blind.bind (.error _ _)
        intro _
        apply Blind.ite
        · exact .bind (blind_note _ _) fun _ => .pure _
        · exact .pure _
      · exact .bind (blind_checkArgs _ _ _ _) fun _ => .pure _

theorem blind_noIndex : ∀ action, (none : Option (AnalyzerM Expr)) = some action →
    Blind action := by
  intro action h
  cases h

theorem blind_someIndex {action : AnalyzerM Expr} (h : Blind action) :
    ∀ action', some action = some action' → Blind action' := by
  intro action' heq
  cases heq
  exact h

mutual

theorem blind_expr : ∀ e : Expr, Blind (analyzeExpr e)
  | .num info value => by
      unfold analyzeExpr
      exact .pure _
  | .var head none => by
      unfold analyzeExpr
      exact .bind (blind_analyzeVarExpr head blind_noIndex) fun _ => .pure _
  | .var head (some index) => by
      unfold analyzeExpr
      exact .bind (blind_analyzeVarExpr head (blind_someIndex (blind_expr index))) fun _ => .pure _
  | .call info callee args symbol => by
      unfold analyzeExpr
      exact blind_analyzeCallExpr info callee (blind_args args)
  | .assign info opLoc target none value => by
      unfold analyzeExpr
      apply Blind.bind (blind_analyzeVarExpr target blind_noIndex)
      intro var
      apply Blind.bind (blind_errorIf _ _ _)
      intro _
      apply Blind.bind (blind_expr value)
      intro value'
      exact .bind (blind_requireInt _ _) fun _ => .pure _
  | .assign info opLoc target (some index) value => by
      unfold analyzeExpr
      apply Blind.bind (blind_analyzeVarExpr target (blind_someIndex (blind_expr index)))
      intro var
      apply Blind.bind (blind_errorIf _ _ _)
      intro _
      apply Blind.bind (blind_expr value)
      intro value'
      exact .bind (blind_requireInt _ _) fun _ => .pure _
  | .binary info op opLoc lhs rhs => by
      unfold analyzeExpr
      apply Blind.bind (blind_expr lhs)
      intro lhs'
      apply Blind.bind (blind_requireInt _ _)
      intro _
      apply Blind.bind (blind_expr rhs)
      intro rhs'
      apply Blind.bind (blind_requireInt _ _)
      intro _
      exact .bind (blind_checkDivisor _ _ _) fun _ => .pure _

theorem blind_args : ∀ args : List Expr, Blind (analyzeArgs args)
  | [] => by
      unfold analyzeArgs
      exact .pure _
  | arg :: args => by
      unfold analyzeArgs
      apply Blind.bind (blind_expr arg)
      intro arg'
      exact .bind (blind_args args) fun _ => .pure _

end

/-! Declarations and statements. -/

theorem blind_declareOrDiagnose (symbol : Symbol) (loc : SourceLocation) :
    Blind (declareOrDiagnose symbol loc) := by
  unfold declareOrDiagnose
  apply Blind.bind (blind_declare symbol)
  intro declared
  cases declared with
  | inserted stored => exact .pure _
  | existing existing =>
      apply Blind.ite
      · exact .bind (.error _ _) fun _ => .pure _
      · exact .bind (.error _ _) fun _ => .bind (blind_note _ _) fun _ => .pure _
  | noScope => exact .bind (.error _ _) fun _ => .pure _

theorem blind_varDecls (decls : List VarDecl) : Blind (analyzeVarDecls decls) := by
  induction decls with
  | nil => exact .pure _
  | cons decl decls ih =>
      have hdecl : Blind (analyzeVarDecl decl) := by
        unfold analyzeVarDecl
        apply Blind.bind (blind_errorIf _ _ _)
        intro _
        apply Blind.bind (blind_warnIf _ _ _)
        intro _
        exact .bind (blind_declareOrDiagnose _ _) fun _ => .pure _
      unfold analyzeVarDecls
      exact .bind hdecl fun _ => .bind ih fun _ => .pure _

theorem blind_params (params : List ParamDecl) : Blind (analyzeParams params) := by
  induction params with
  | nil => exact .pure _
  | cons param params ih =>
      have hparam : Blind (analyzeParam param) := by
        unfold analyzeParam
        apply Blind.bind (blind_errorIf _ _ _)
        intro _
        exact .bind (blind_declareOrDiagnose _ _) fun _ => .pure _
      unfold analyzeParams
      exact .bind hparam fun _ => .bind ih fun _ => .pure _

theorem blind_condition (cond : Expr) : Blind (analyzeCondition cond) := by
  unfold analyzeCondition
  exact .bind (blind_expr cond) fun _ => .bind (blind_requireInt _ _) fun _ => .pure _

/-! What `analyzeReturn` takes from the current function. -/

def expected (current : Option FunDecl) : CType :=
  (current.map FunDecl.returnType).getD .void

def returnPlace (current : Option FunDecl) : String :=
  match current with
  | some decl => " in function '" ++ decl.name ++ "'"
  | none => ""

def analyzeReturnIn (current : Option FunDecl) (loc : SourceLocation) :
    Option Expr → AnalyzerM Stmt
  | none => do
      errorIf (expected current ≠ .void) loc
        ("'return' with no value" ++ returnPlace current ++ ", which returns " ++
          typeName (expected current))
      return .ret loc none
  | some value => do
      let value ← analyzeExpr value
      if expected current = .void then
        error loc ("'return' with a value" ++ returnPlace current ++
          ", which returns void")
      else
        requireInt value "as a return value"
      return .ret loc (some value)

theorem analyzeReturn_eq (loc : SourceLocation) (value : Option Expr) :
    analyzeReturn loc value =
      getCurrentFunction >>= fun current => analyzeReturnIn current loc value := by
  cases value <;> rfl

theorem analyzeReturnIn_alike {s : SemanticAnalyzer} {current : Option FunDecl}
    (h : Alike s current) (loc : SourceLocation) (value : Option Expr) :
    analyzeReturnIn current loc value = analyzeReturnIn s.currentFunction loc value := by
  have hboth : expected current = expected s.currentFunction ∧
      returnPlace current = returnPlace s.currentFunction := by
    unfold Alike at h
    cases current with
    | none =>
        cases hs : s.currentFunction with
        | none => exact ⟨rfl, rfl⟩
        | some decl => simp [hs] at h
    | some decl =>
        cases hs : s.currentFunction with
        | none => simp [hs] at h
        | some decl' =>
            simp only [hs, Option.map_some, Option.some.injEq, header, Prod.mk.injEq] at h
            simp [expected, returnPlace, h.1, h.2]
  cases value with
  | none => rw [analyzeReturnIn, analyzeReturnIn, hboth.1, hboth.2]
  | some value => rw [analyzeReturnIn, analyzeReturnIn, hboth.1, hboth.2]

theorem blind_returnIn (current : Option FunDecl) (loc : SourceLocation)
    (value : Option Expr) : Blind (analyzeReturnIn current loc value) := by
  cases value with
  | none => exact .bind (blind_errorIf _ _ _) fun _ => .pure _
  | some value =>
      unfold analyzeReturnIn
      apply Blind.bind (blind_expr value)
      intro value'
      apply Blind.ite
      · exact .bind (.error _ _) fun _ => .pure _
      · exact .bind (blind_requireInt _ _) fun _ => .pure _

theorem blind_return (loc : SourceLocation) (value : Option Expr) :
    Blind (analyzeReturn loc value) where
  run := by
    intro s current halike
    rw [analyzeReturn_eq]
    show analyzeReturnIn current loc value (s.withCurrent current) = _
    rw [(blind_returnIn current loc value).run s current halike,
      analyzeReturnIn_alike halike]
    rfl
  keeps := by
    intro s
    rw [analyzeReturn_eq]
    exact (blind_returnIn s.currentFunction loc value).keeps s

mutual

theorem blind_stmt : ∀ stmt : Stmt, Blind (analyzeStmt stmt)
  | .compound loc localDecls stmts => by
      unfold analyzeStmt
      apply Blind.bind (blind_pushScope _)
      intro _
      apply Blind.bind (blind_varDecls localDecls)
      intro localDecls'
      apply Blind.bind (blind_stmts stmts)
      intro stmts'
      exact .bind blind_closeScope fun _ => .pure _
  | .expr loc none => by
      unfold analyzeStmt
      exact .pure _
  | .expr loc (some e) => by
      unfold analyzeStmt
      exact .bind (blind_expr e) fun _ => .pure _
  | .ifs loc cond thenStmt none => by
      unfold analyzeStmt
      apply Blind.bind (blind_condition cond)
      intro cond'
      exact .bind (blind_stmt thenStmt) fun _ => .pure _
  | .ifs loc cond thenStmt (some elseStmt) => by
      unfold analyzeStmt
      apply Blind.bind (blind_condition cond)
      intro cond'
      apply Blind.bind (blind_stmt thenStmt)
      intro thenStmt'
      exact .bind (blind_stmt elseStmt) fun _ => .pure _
  | .whiles loc cond body => by
      unfold analyzeStmt
      apply Blind.bind (blind_condition cond)
      intro cond'
      exact .bind (blind_stmt body) fun _ => .pure _
  | .ret loc value => by
      unfold analyzeStmt
      exact blind_return loc value

theorem blind_stmts : ∀ stmts : List Stmt, Blind (analyzeStmts stmts)
  | [] => by
      unfold analyzeStmts
      exact .pure _
  | stmt :: stmts => by
      unfold analyzeStmts
      apply Blind.bind (blind_stmt stmt)
      intro stmt'
      exact .bind (blind_stmts stmts) fun _ => .pure _

end

end SemanticAnalyzer

end CMinus
