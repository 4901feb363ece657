import CMinus.Symbol

namespace CMinus

/-! Semantic analysis.  Where the source writes into the tree, a function here
returns the tree with its annotations; what it reports comes back as a list, in the
order in which the source hands it to `diags_`. -/

structure SemanticAnalyzer where
  table : SymbolTable := {}
  scopes : List ScopeReport := []
  currentFunction : Option FunDecl := none
deriving Repr, Inhabited

def AnalyzerM (α : Type) : Type :=
  SemanticAnalyzer → α × SemanticAnalyzer × Diagnostics

instance : Monad AnalyzerM where
  pure a := fun s => (a, s, [])
  bind action next := fun s =>
    let first := action s
    let second := next first.1 first.2.1
    (second.1, second.2.1, first.2.2 ++ second.2.2)

def exprLabel : Expr → String
  | .var head _ => "'" ++ head.name ++ "'"
  | .call _ callee _ _ => "the result of '" ++ callee ++ "'"
  | _ => "this expression"

def plural (n : Nat) (singular many : String) : String :=
  toString n ++ " " ++ (if n = 1 then singular else many)

mutual

def alwaysReturns : Stmt → Bool
  | .ret _ _ => true
  | .compound _ _ stmts => alwaysReturnsSome stmts
  | .ifs _ _ thenStmt (some elseStmt) =>
      alwaysReturns thenStmt && alwaysReturns elseStmt
  | _ => false

def alwaysReturnsSome : List Stmt → Bool
  | [] => false
  | stmt :: stmts => alwaysReturns stmt || alwaysReturnsSome stmts

end

namespace SemanticAnalyzer

def error (loc : SourceLocation) (message : String) : AnalyzerM Unit := fun s =>
  ((), s, Diagnostics.error [] loc message)

def warning (loc : SourceLocation) (message : String) : AnalyzerM Unit := fun s =>
  ((), s, Diagnostics.warning [] loc message)

def note (loc : SourceLocation) (message : String) : AnalyzerM Unit := fun s =>
  ((), s, Diagnostics.note [] loc message)

def errorIf (c : Prop) [Decidable c] (loc : SourceLocation) (message : String) :
    AnalyzerM Unit :=
  if c then error loc message else pure ()

def warnIf (c : Prop) [Decidable c] (loc : SourceLocation) (message : String) :
    AnalyzerM Unit :=
  if c then warning loc message else pure ()

def lookup (name : String) : AnalyzerM (Option Symbol) := fun s =>
  (s.table.lookup name, s, [])

def declare (symbol : Symbol) : AnalyzerM SymbolTable.Declared := fun s =>
  ((s.table.declare symbol).1, { s with table := (s.table.declare symbol).2 }, [])

def pushScope (label : String) : AnalyzerM Unit := fun s =>
  ((), { s with table := s.table.pushScope label }, [])

def closeScope : AnalyzerM Unit := fun s =>
  ((), { s with table := s.table.popScope.2
                scopes := s.scopes ++ [s.table.popScope.1] }, [])

def getCurrentFunction : AnalyzerM (Option FunDecl) := fun s =>
  (s.currentFunction, s, [])

def setCurrentFunction (decl : Option FunDecl) : AnalyzerM Unit := fun s =>
  ((), { s with currentFunction := decl }, [])

/-! Expressions. -/

def requireInt (expr : Expr) (context : String) : AnalyzerM Unit := do
  if expr.type = .int then return
  if expr.type = .intArray then
    error expr.loc (exprLabel expr ++ " is an array and cannot be used " ++ context ++
      "; index it to get an element")
  else
    error expr.loc (exprLabel expr ++ " has type void and cannot be used " ++ context)

/-! `Type::Int` in the node, then what the analysis finds. -/

def VarHead.typed (head : VarHead) (type : CType) : VarHead :=
  { head with info := { head.info with type := type } }

def analyzeIndex : Option (AnalyzerM Expr) → AnalyzerM (Option Expr)
  | none => pure none
  | some index => do
      let index ← index
      return some index

def checkConstantIndex (symbol : Symbol) (name : String) : Expr → AnalyzerM Unit
  | .num info index => do
      warnIf (0 < symbol.arraySize ∧ symbol.arraySize ≤ index) info.loc
        ("index " ++ toString index ++ " is past the end of '" ++ name ++
          "', which has " ++ toString symbol.arraySize ++ " elements")
  | _ => pure ()

def analyzeVarExpr (head : VarHead) (index : Option (AnalyzerM Expr)) :
    AnalyzerM (VarHead × Option Expr) := do
  let head := VarHead.typed head .int
  match ← lookup head.name with
  | none =>
      error head.info.loc ("use of undeclared identifier '" ++ head.name ++ "'")
      return (head, ← analyzeIndex index)
  | some symbol =>
      if symbol.isFunction then
        error head.info.loc ("'" ++ head.name ++ "' is a function; call it as '" ++
          head.name ++ "(...)'")
        return (head, ← analyzeIndex index)
      let head := { head with symbol := some symbol }
      match index with
      | none => return (VarHead.typed head symbol.type, none)
      | some index =>
          let index ← index
          requireInt index "as an array subscript"
          if symbol.type ≠ .intArray then
            error head.info.loc
              ("'" ++ head.name ++ "' is not an array and cannot be subscripted")
          else
            checkConstantIndex symbol head.name index
          return (head, some index)

def checkArgs (callee : String) : Nat → List CType → List Expr → AnalyzerM Unit
  | i, wanted :: types, arg :: args => do
      if arg.type ≠ wanted then
        if wanted = .intArray then
          error arg.loc ("argument " ++ toString (i + 1) ++ " of '" ++ callee ++
            "' must be an array variable, but " ++ exprLabel arg ++ " is not an array")
        else
          requireInt arg ("as argument " ++ toString (i + 1) ++ " of '" ++ callee ++ "'")
      checkArgs callee (i + 1) types args
  | _, _, _ => pure ()

def analyzeCallExpr (info : ExprInfo) (callee : String) (args : AnalyzerM (List Expr)) :
    AnalyzerM Expr := do
  let info := { info with type := CType.int }
  let found ← lookup callee
  let args ← args
  match found with
  | none =>
      error info.loc ("call to undeclared function '" ++ callee ++ "'")
      return .call info callee args none
  | some symbol =>
      if !symbol.isFunction then
        error info.loc ("'" ++ callee ++ "' is a " ++ symbolKindName symbol.kind ++
          ", not a function")
        note symbol.loc ("'" ++ callee ++ "' declared here")
        return .call info callee args none
      let info := { info with type := symbol.returnType }
      if args.length ≠ symbol.paramTypes.length then
        error info.loc ("'" ++ callee ++ "' takes " ++
          plural symbol.paramTypes.length "argument" "arguments" ++ " but " ++
          plural args.length "was" "were" ++ " given")
        if !symbol.isBuiltin then
          note symbol.loc ("'" ++ callee ++ "' declared here")
        return .call info callee args (some symbol)
      checkArgs callee 0 symbol.paramTypes args
      return .call info callee args (some symbol)

def checkTarget (target : VarHead) : AnalyzerM Unit :=
  errorIf (target.info.type = .intArray) target.info.loc
    ("cannot assign to array '" ++ target.name ++ "' as a whole; assign to an element")

def checkDivisor (op : BinaryOp) (opLoc : SourceLocation) : Expr → AnalyzerM Unit
  | .num _ value => warnIf (op = .div ∧ value = 0) opLoc "division by zero"
  | _ => pure ()

mutual

def analyzeExpr : Expr → AnalyzerM Expr
  | .num info value => pure (.num { info with type := .int } value)
  | .var head none => do
      let var ← analyzeVarExpr head none
      return .var var.1 var.2
  | .var head (some index) => do
      let var ← analyzeVarExpr head (some (analyzeExpr index))
      return .var var.1 var.2
  | .call info callee args _ => analyzeCallExpr info callee (analyzeArgs args)
  | .assign info opLoc target none value => do
      let var ← analyzeVarExpr target none
      checkTarget var.1
      let value ← analyzeExpr value
      requireInt value "as the value of an assignment"
      return .assign { info with type := .int } opLoc var.1 var.2 value
  | .assign info opLoc target (some index) value => do
      let var ← analyzeVarExpr target (some (analyzeExpr index))
      checkTarget var.1
      let value ← analyzeExpr value
      requireInt value "as the value of an assignment"
      return .assign { info with type := .int } opLoc var.1 var.2 value
  | .binary info op opLoc lhs rhs => do
      let context := if isComparison op then "in a comparison" else "in arithmetic"
      let lhs ← analyzeExpr lhs
      requireInt lhs context
      let rhs ← analyzeExpr rhs
      requireInt rhs context
      checkDivisor op opLoc rhs
      return .binary { info with type := .int } op opLoc lhs rhs

def analyzeArgs : List Expr → AnalyzerM (List Expr)
  | [] => pure []
  | arg :: args => do
      let arg ← analyzeExpr arg
      let args ← analyzeArgs args
      return arg :: args

end

/-! Declarations of variables and parameters. -/

def declareOrDiagnose (symbol : Symbol) (loc : SourceLocation) :
    AnalyzerM (Option Symbol) := do
  match ← declare symbol with
  | .inserted stored => return some stored
  | .existing existing =>
      if existing.isBuiltin then
        error loc ("'" ++ symbol.name ++
          "' redeclares a built-in function of the same name")
      else
        error loc ("redeclaration of '" ++ symbol.name ++ "'")
        note existing.loc ("previous declaration of '" ++ symbol.name ++ "' is here")
      return none
  | .noScope =>
      error loc ("redeclaration of '" ++ symbol.name ++ "'")
      return none

def declareBuiltins : AnalyzerM Unit := do
  let _ ← declare { kind := .function, name := "input", type := .int,
                    returnType := .int, isBuiltin := true }
  let _ ← declare { kind := .function, name := "output", type := .void,
                    returnType := .void, paramTypes := [.int], isBuiltin := true }

def analyzeVarDecl (decl : VarDecl) : AnalyzerM VarDecl := do
  errorIf (decl.declaredType = .void) decl.typeLoc
    ("variable '" ++ decl.name ++ "' declared void")
  warnIf (decl.isArray ∧ decl.arraySize = 0) decl.loc
    ("array '" ++ decl.name ++ "' has size 0 and cannot be indexed")
  let symbol ← declareOrDiagnose
    { kind := .variable, name := decl.name
      type := if decl.isArray then .intArray else .int
      arraySize := if decl.isArray then decl.arraySize else 0
      loc := decl.loc } decl.loc
  return { decl with symbol := symbol }

def analyzeVarDecls : List VarDecl → AnalyzerM (List VarDecl)
  | [] => pure []
  | decl :: decls => do
      let decl ← analyzeVarDecl decl
      let decls ← analyzeVarDecls decls
      return decl :: decls

def analyzeParam (param : ParamDecl) : AnalyzerM ParamDecl := do
  errorIf (param.declaredType = .void) param.typeLoc
    ("parameter '" ++ param.name ++ "' declared void")
  let symbol ← declareOrDiagnose
    { kind := .parameter, name := param.name
      type := if param.isArray then .intArray else .int
      loc := param.loc } param.loc
  return { param with symbol := symbol }

def analyzeParams : List ParamDecl → AnalyzerM (List ParamDecl)
  | [] => pure []
  | param :: params => do
      let param ← analyzeParam param
      let params ← analyzeParams params
      return param :: params

/-! Statements. -/

def analyzeCondition (cond : Expr) : AnalyzerM Expr := do
  let cond ← analyzeExpr cond
  requireInt cond "as a condition"
  return cond

def analyzeReturn (loc : SourceLocation) (value : Option Expr) : AnalyzerM Stmt := do
  let current ← getCurrentFunction
  let expected := (current.map FunDecl.returnType).getD .void
  let place := match current with
    | some decl => " in function '" ++ decl.name ++ "'"
    | none => ""
  match value with
  | none =>
      errorIf (expected ≠ .void) loc
        ("'return' with no value" ++ place ++ ", which returns " ++ typeName expected)
      return .ret loc none
  | some value =>
      let value ← analyzeExpr value
      if expected = .void then
        error loc ("'return' with a value" ++ place ++ ", which returns void")
      else
        requireInt value "as a return value"
      return .ret loc (some value)

mutual

def analyzeStmt : Stmt → AnalyzerM Stmt
  | .compound loc localDecls stmts => do
      pushScope "block"
      let localDecls ← analyzeVarDecls localDecls
      let stmts ← analyzeStmts stmts
      closeScope
      return .compound loc localDecls stmts
  | .expr loc none => pure (.expr loc none)
  | .expr loc (some expr) => do
      let expr ← analyzeExpr expr
      return .expr loc (some expr)
  | .ifs loc cond thenStmt none => do
      let cond ← analyzeCondition cond
      let thenStmt ← analyzeStmt thenStmt
      return .ifs loc cond thenStmt none
  | .ifs loc cond thenStmt (some elseStmt) => do
      let cond ← analyzeCondition cond
      let thenStmt ← analyzeStmt thenStmt
      let elseStmt ← analyzeStmt elseStmt
      return .ifs loc cond thenStmt (some elseStmt)
  | .whiles loc cond body => do
      let cond ← analyzeCondition cond
      let body ← analyzeStmt body
      return .whiles loc cond body
  | .ret loc value => analyzeReturn loc value

def analyzeStmts : List Stmt → AnalyzerM (List Stmt)
  | [] => pure []
  | stmt :: stmts => do
      let stmt ← analyzeStmt stmt
      let stmts ← analyzeStmts stmts
      return stmt :: stmts

end

/-! `analyzeCompound` without a scope of its own, as a function body has it. -/

def analyzeBody (block : CompoundStmt) : AnalyzerM CompoundStmt := do
  let localDecls ← analyzeVarDecls block.localDecls
  let stmts ← analyzeStmts block.stmts
  return { block with localDecls := localDecls, stmts := stmts }

/-! Functions and the program. -/

def paramType (param : ParamDecl) : CType :=
  if param.isArray then .intArray else .int

def functionSymbol (decl : FunDecl) : Symbol :=
  { kind := .function, name := decl.name, type := decl.returnType
    returnType := decl.returnType, loc := decl.loc
    paramTypes := decl.params.map paramType }

def analyzeFunDecl (decl : FunDecl) : AnalyzerM FunDecl := do
  let symbol ← declareOrDiagnose (functionSymbol decl) decl.loc
  let enclosing ← getCurrentFunction
  setCurrentFunction (some decl)
  pushScope ("function '" ++ decl.name ++ "'")
  let params ← analyzeParams decl.params
  let body ← analyzeBody decl.body
  closeScope
  setCurrentFunction enclosing
  warnIf (decl.returnType ≠ .void ∧ ¬ alwaysReturns decl.body.toStmt) decl.loc
    ("control may reach the end of non-void function '" ++ decl.name ++
      "' without returning a value")
  return { decl with params := params, body := body, symbol := symbol }

def analyzeDecl : Decl → AnalyzerM Decl
  | .var decl => do
      let decl ← analyzeVarDecl decl
      return .var decl
  | .fun decl => do
      let decl ← analyzeFunDecl decl
      return .fun decl

def analyzeDecls : List Decl → AnalyzerM (List Decl)
  | [] => pure []
  | decl :: decls => do
      let decl ← analyzeDecl decl
      let decls ← analyzeDecls decls
      return decl :: decls

/-! The last function called `main`, with its place in the list. -/

def findMain : Nat → List Decl → Option (Nat × FunDecl)
  | _, [] => none
  | i, decl :: decls =>
      match findMain (i + 1) decls with
      | some found => some found
      | none =>
          match decl with
          | .fun f => if f.name = "main" then some (i, f) else none
          | .var _ => none

def checkMain (program : Program) : AnalyzerM Unit := do
  match program.decls.getLast? with
  | none => return
  | some last =>
      match findMain 0 program.decls with
      | none =>
          error last.loc
            "the last declaration of a C- program must be 'void main(void)'"
      | some (index, main) =>
          errorIf (index + 1 ≠ program.decls.length) main.loc
            "'main' must be the last declaration in the program"
          errorIf (main.returnType ≠ .void ∨ main.params ≠ []) main.loc
            "'main' must be declared as 'void main(void)'"

def sortScopes : AnalyzerM Unit := fun s =>
  ((), { s with scopes := s.scopes.mergeSort (fun a b => decide (a.order ≤ b.order)) },
    [])

def analyze (program : Program) : AnalyzerM Program := do
  pushScope "global"
  declareBuiltins
  let decls ← analyzeDecls program.decls
  let program : Program := { decls := decls }
  checkMain program
  closeScope
  sortScopes
  return program

end SemanticAnalyzer

end CMinus
