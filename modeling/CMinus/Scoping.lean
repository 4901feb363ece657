import CMinus.Resolved

namespace CMinus

/-! A tree without what semantic analysis writes into it. -/

def ExprInfo.raw (info : ExprInfo) : ExprInfo := { info with type := .int }

def VarHead.raw (head : VarHead) : VarHead :=
  { head with info := head.info.raw, symbol := none }

mutual

def Expr.raw : Expr → Expr
  | .num info value => .num info.raw value
  | .var head none => .var head.raw none
  | .var head (some index) => .var head.raw (some index.raw)
  | .call info callee args _ => .call info.raw callee (rawArgs args) none
  | .assign info opLoc target none value =>
      .assign info.raw opLoc target.raw none value.raw
  | .assign info opLoc target (some index) value =>
      .assign info.raw opLoc target.raw (some index.raw) value.raw
  | .binary info op opLoc lhs rhs => .binary info.raw op opLoc lhs.raw rhs.raw

def rawArgs : List Expr → List Expr
  | [] => []
  | arg :: args => arg.raw :: rawArgs args

end

def VarDecl.raw (decl : VarDecl) : VarDecl := { decl with symbol := none }

def ParamDecl.raw (param : ParamDecl) : ParamDecl := { param with symbol := none }

mutual

def Stmt.raw : Stmt → Stmt
  | .compound loc localDecls stmts =>
      .compound loc (localDecls.map VarDecl.raw) (rawStmts stmts)
  | .expr loc none => .expr loc none
  | .expr loc (some expr) => .expr loc (some expr.raw)
  | .ifs loc cond thenStmt none => .ifs loc cond.raw thenStmt.raw none
  | .ifs loc cond thenStmt (some elseStmt) =>
      .ifs loc cond.raw thenStmt.raw (some elseStmt.raw)
  | .whiles loc cond body => .whiles loc cond.raw body.raw
  | .ret loc none => .ret loc none
  | .ret loc (some value) => .ret loc (some value.raw)

def rawStmts : List Stmt → List Stmt
  | [] => []
  | stmt :: stmts => stmt.raw :: rawStmts stmts

end

def CompoundStmt.raw (block : CompoundStmt) : CompoundStmt :=
  { block with localDecls := block.localDecls.map VarDecl.raw
               stmts := rawStmts block.stmts }

def FunDecl.raw (decl : FunDecl) : FunDecl :=
  { decl with params := decl.params.map ParamDecl.raw, body := decl.body.raw
              symbol := none }

def Decl.raw : Decl → Decl
  | .var decl => .var decl.raw
  | .fun decl => .fun decl.raw

def Program.raw (program : Program) : Program :=
  { decls := program.decls.map Decl.raw }

/-! Lexical scoping, as a property of an annotated tree.  An environment is the list
of the open scopes, innermost first; a scope is the list of the symbols of the
declarations in it that come before the point in question. -/

abbrev Env := List (List Symbol)

def Env.declared (env : Env) (name : String) : Option Symbol :=
  env.findSome? fun scope => scope.find? fun symbol => symbol.name = name

def VarHead.Scoped (env : Env) (head : VarHead) : Prop :=
  head.symbol = (env.declared head.name).filter fun symbol => !symbol.isFunction

mutual

def Expr.Scoped (env : Env) : Expr → Prop
  | .num _ _ => True
  | .var head none => head.Scoped env
  | .var head (some index) => head.Scoped env ∧ index.Scoped env
  | .call _ callee args symbol =>
      symbol = (env.declared callee).filter Symbol.isFunction ∧ ScopedArgs env args
  | .assign _ _ target none value => target.Scoped env ∧ value.Scoped env
  | .assign _ _ target (some index) value =>
      target.Scoped env ∧ index.Scoped env ∧ value.Scoped env
  | .binary _ _ _ lhs rhs => lhs.Scoped env ∧ rhs.Scoped env

def ScopedArgs (env : Env) : List Expr → Prop
  | [] => True
  | arg :: args => arg.Scoped env ∧ ScopedArgs env args

end

/-! A declaration enters a symbol of its own, unless its scope has the name already. -/

def Enters (scope : List Symbol) (name : String) (symbol : Option Symbol)
    (Declares : Symbol → Prop) : Prop :=
  (name ∈ scope.map Symbol.name ∧ symbol = none) ∨
    (name ∉ scope.map Symbol.name ∧ ∃ entered, Declares entered)

def VarDecl.Enters (scope : List Symbol) (decl : VarDecl) : Prop :=
  CMinus.Enters scope decl.name decl.symbol decl.Declares

def ParamDecl.Enters (scope : List Symbol) (param : ParamDecl) : Prop :=
  CMinus.Enters scope param.name param.symbol param.Declares

def FunDecl.Enters (scope : List Symbol) (decl : FunDecl) : Prop :=
  CMinus.Enters scope decl.name decl.symbol decl.Declares

def EnterEach {δ : Type} (symbol : δ → Option Symbol)
    (enters : List Symbol → δ → Prop) : List Symbol → List δ → Prop
  | _, [] => True
  | scope, decl :: decls =>
      enters scope decl ∧
        EnterEach symbol enters (scope ++ (symbol decl).toList) decls

def EnterVars : List Symbol → List VarDecl → Prop :=
  EnterEach VarDecl.symbol VarDecl.Enters

def EnterParams : List Symbol → List ParamDecl → Prop :=
  EnterEach ParamDecl.symbol ParamDecl.Enters

/-! A block puts a scope of its own in front.  What follows the block is judged in
the environment of the block itself. -/

mutual

def Stmt.Scoped (env : Env) : Stmt → Prop
  | .compound _ localDecls stmts =>
      EnterVars [] localDecls ∧
        ScopedStmts (localDecls.filterMap VarDecl.symbol :: env) stmts
  | .expr _ none => True
  | .expr _ (some expr) => expr.Scoped env
  | .ifs _ cond thenStmt none => cond.Scoped env ∧ thenStmt.Scoped env
  | .ifs _ cond thenStmt (some elseStmt) =>
      cond.Scoped env ∧ thenStmt.Scoped env ∧ elseStmt.Scoped env
  | .whiles _ cond body => cond.Scoped env ∧ body.Scoped env
  | .ret _ none => True
  | .ret _ (some value) => value.Scoped env

def ScopedStmts (env : Env) : List Stmt → Prop
  | [] => True
  | stmt :: stmts => stmt.Scoped env ∧ ScopedStmts env stmts

end

/-! The parameters and the outermost block of the body share one scope, inside the
global scope as it is right after the name of the function. -/

structure FunDecl.Scoped (globals : List Symbol) (decl : FunDecl) : Prop where
  enters : decl.Enters globals
  params : EnterParams [] decl.params
  locals : EnterVars (decl.params.filterMap ParamDecl.symbol) decl.body.localDecls
  body : ScopedStmts
    [decl.params.filterMap ParamDecl.symbol ++
        decl.body.localDecls.filterMap VarDecl.symbol,
      globals ++ decl.symbol.toList] decl.body.stmts

def Decl.Scoped (globals : List Symbol) : Decl → Prop
  | .var decl => decl.Enters globals
  | .fun decl => decl.Scoped globals

def ScopedDecls : List Symbol → List Decl → Prop
  | _, [] => True
  | globals, decl :: decls =>
      decl.Scoped globals ∧ ScopedDecls (globals ++ decl.symbol.toList) decls

/-! No two declarations of a program enter the same symbol. -/

def Decl.entered : Decl → List Symbol
  | .var decl => decl.symbol.toList
  | .fun decl =>
      decl.symbol.toList ++ decl.params.filterMap ParamDecl.symbol ++
        decl.locals.filterMap VarDecl.symbol

structure Program.Scoped (program : Program) : Prop where
  decls : ScopedDecls builtinSymbols program.decls
  distinct : Numbered (builtinSymbols ++ program.decls.flatMap Decl.entered)

end CMinus
