import CMinus.SemanticAnalyzer

namespace CMinus

namespace SemanticAnalyzer

/-! Analysis leaves the shape of statements alone, so `alwaysReturns` says the same before
and after. -/

theorem alwaysReturns_analyzeReturn (loc : SourceLocation) (value : Option Expr)
    (s : SemanticAnalyzer) : alwaysReturns (analyzeReturn loc value s).1 = true := by
  unfold analyzeReturn
  cases value with
  | none => rfl
  | some value =>
      change alwaysReturns ((if _ = CType.void then _ else _ : AnalyzerM Stmt) _).1 = true
      split <;> rfl

mutual

theorem alwaysReturns_analyzeStmt :
    ∀ (stmt : Stmt) (s : SemanticAnalyzer),
      alwaysReturns (analyzeStmt stmt s).1 = alwaysReturns stmt
  | .compound loc localDecls stmts, s => by
      unfold analyzeStmt
      conv => rhs; unfold alwaysReturns
      exact alwaysReturns_analyzeStmts stmts _
  | .expr _ none, _ => by
      unfold analyzeStmt
      rfl
  | .expr _ (some e), _ => by
      unfold analyzeStmt
      rfl
  | .ifs loc cond thenStmt none, s => by
      unfold analyzeStmt
      rfl
  | .ifs loc cond thenStmt (some elseStmt), s => by
      unfold analyzeStmt
      conv => rhs; unfold alwaysReturns
      have hthen := alwaysReturns_analyzeStmt thenStmt (analyzeCondition cond s).2.1
      have helse := alwaysReturns_analyzeStmt elseStmt
        (analyzeStmt thenStmt (analyzeCondition cond s).2.1).2.1
      rw [← hthen, ← helse]
      rfl
  | .whiles loc cond body, s => by
      unfold analyzeStmt
      rfl
  | .ret loc value, s => by
      unfold analyzeStmt
      exact alwaysReturns_analyzeReturn loc value s

theorem alwaysReturns_analyzeStmts :
    ∀ (stmts : List Stmt) (s : SemanticAnalyzer),
      alwaysReturnsSome (analyzeStmts stmts s).1 = alwaysReturnsSome stmts
  | [], _ => rfl
  | stmt :: stmts, s => by
      have hfirst := alwaysReturns_analyzeStmt stmt s
      have hrest := alwaysReturns_analyzeStmts stmts (analyzeStmt stmt s).2.1
      unfold analyzeStmts
      conv => rhs; unfold alwaysReturnsSome
      rw [← hfirst, ← hrest]
      rfl

end

/-! What an action records stays recorded. -/

theorem recorded_first {α β : Type} {first : AnalyzerM α} {next : α → AnalyzerM β}
    {s : SemanticAnalyzer} {d : Diagnostic} (h : d ∈ (first s).2.2) :
    d ∈ ((first >>= next) s).2.2 :=
  List.mem_append_left _ h

theorem recorded_next {α β : Type} {first : AnalyzerM α} {next : α → AnalyzerM β}
    {s : SemanticAnalyzer} {d : Diagnostic} (h : d ∈ (next (first s).1 (first s).2.1).2.2) :
    d ∈ ((first >>= next) s).2.2 :=
  List.mem_append_right _ h

/-! The warning for a function that may reach its end. -/

def endWarning (decl : FunDecl) : Diagnostic :=
  { level := .warning, loc := decl.loc
    message := "control may reach the end of non-void function '" ++ decl.name ++
      "' without returning a value" }

theorem warns_analyzeFunDecl (decl : FunDecl) (s : SemanticAnalyzer)
    (hvoid : (analyzeFunDecl decl s).1.returnType ≠ .void)
    (hreturns : alwaysReturns (analyzeFunDecl decl s).1.body.toStmt = false) :
    endWarning (analyzeFunDecl decl s).1 ∈ (analyzeFunDecl decl s).2.2 := by
  have hbody : alwaysReturns decl.body.toStmt = false := by
    rw [← hreturns]
    unfold CompoundStmt.toStmt
    conv => lhs; unfold alwaysReturns
    conv => rhs; unfold alwaysReturns
    exact (alwaysReturns_analyzeStmts decl.body.stmts _).symm
  change endWarning decl ∈ _
  have hwarn : ∀ s' : SemanticAnalyzer, endWarning decl ∈
      (warnIf (decl.returnType ≠ .void ∧ ¬ alwaysReturns decl.body.toStmt) decl.loc
        ("control may reach the end of non-void function '" ++ decl.name ++
          "' without returning a value") s').2.2 := by
    intro s'
    unfold warnIf
    rw [if_pos ⟨hvoid, by simp [hbody]⟩]
    exact List.mem_singleton_self _
  unfold analyzeFunDecl
  apply recorded_next
  apply recorded_next
  apply recorded_next
  apply recorded_next
  apply recorded_next
  apply recorded_next
  apply recorded_next
  apply recorded_next
  apply recorded_first
  exact hwarn _

theorem warns_analyzeDecls (decls : List Decl) :
    ∀ (s : SemanticAnalyzer) (decl : FunDecl), .fun decl ∈ (analyzeDecls decls s).1 →
      decl.returnType ≠ .void → alwaysReturns decl.body.toStmt = false →
      endWarning decl ∈ (analyzeDecls decls s).2.2 := by
  induction decls with
  | nil =>
      intro s decl hmem
      cases hmem
  | cons first decls ih =>
      intro s decl hmem hvoid hreturns
      unfold analyzeDecls at hmem ⊢
      rcases List.mem_cons.mp hmem with heq | hmem
      · apply recorded_first
        cases first with
        | var first => cases heq
        | «fun» first =>
            obtain rfl := Decl.fun.inj heq
            exact recorded_first (warns_analyzeFunDecl first s hvoid hreturns)
      · apply recorded_next
        apply recorded_first
        exact ih _ decl hmem hvoid hreturns

theorem warns_analyze (program : Program) (decl : FunDecl)
    (hmem : .fun decl ∈ (analyze program {}).1.decls) (hvoid : decl.returnType ≠ .void)
    (hreturns : alwaysReturns decl.body.toStmt = false) :
    endWarning decl ∈ (analyze program {}).2.2 := by
  unfold analyze
  apply recorded_next
  apply recorded_next
  apply recorded_first
  exact warns_analyzeDecls program.decls _ decl hmem hvoid hreturns

end SemanticAnalyzer

end CMinus
