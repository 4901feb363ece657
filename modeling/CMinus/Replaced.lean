import CMinus.Resolved

namespace CMinus

/-! One use of a name: where it stands, whether it is the name of a callee, and, when
it heads a whole argument of a call, the callee and the number of that argument. -/

structure Use where
  loc : SourceLocation
  isCallee : Bool
  place : Option (String × Nat)

/-! What is reported of the use of an undeclared name. -/

def Use.report (use : Use) (name : String) : Diagnostic :=
  ⟨.error, use.loc,
    if use.isCallee then "call to undeclared function '" ++ name ++ "'"
    else "use of undeclared identifier '" ++ name ++ "'"⟩

def VarHead.renamed (head : VarHead) (name : String) : VarHead := { head with name := name }

/-! `ReplacedExpr fresh place e e' use`: in `e`, which stands at `place`, the one use
`use` of a name is replaced by `fresh`, and that gives `e'`. -/

mutual

inductive ReplacedExpr (fresh : String) :
    Option (String × Nat) → Expr → Expr → Use → Prop where
  | name {place : Option (String × Nat)} {head : VarHead} {index : Option Expr} :
      ReplacedExpr fresh place (.var head index) (.var (head.renamed fresh) index)
        ⟨head.info.loc, false, place⟩
  | index {place : Option (String × Nat)} {head : VarHead} {index index' : Expr}
      {use : Use} :
      ReplacedExpr fresh none index index' use →
        ReplacedExpr fresh place (.var head (some index)) (.var head (some index')) use
  | callee {place : Option (String × Nat)} {info : ExprInfo} {callee : String}
      {args : List Expr} {symbol : Option Symbol} :
      ReplacedExpr fresh place (.call info callee args symbol)
        (.call info fresh args symbol) ⟨info.loc, true, place⟩
  | args {place : Option (String × Nat)} {info : ExprInfo} {callee : String}
      {args args' : List Expr} {symbol : Option Symbol} {use : Use} :
      ReplacedArgs fresh callee 0 args args' use →
        ReplacedExpr fresh place (.call info callee args symbol)
          (.call info callee args' symbol) use
  | target {place : Option (String × Nat)} {info : ExprInfo} {opLoc : SourceLocation}
      {target : VarHead} {index : Option Expr} {value : Expr} :
      ReplacedExpr fresh place (.assign info opLoc target index value)
        (.assign info opLoc (target.renamed fresh) index value)
        ⟨target.info.loc, false, none⟩
  | targetIndex {place : Option (String × Nat)} {info : ExprInfo}
      {opLoc : SourceLocation} {target : VarHead} {index index' value : Expr}
      {use : Use} :
      ReplacedExpr fresh none index index' use →
        ReplacedExpr fresh place (.assign info opLoc target (some index) value)
          (.assign info opLoc target (some index') value) use
  | value {place : Option (String × Nat)} {info : ExprInfo} {opLoc : SourceLocation}
      {target : VarHead} {index : Option Expr} {value value' : Expr} {use : Use} :
      ReplacedExpr fresh none value value' use →
        ReplacedExpr fresh place (.assign info opLoc target index value)
          (.assign info opLoc target index value') use
  | lhs {place : Option (String × Nat)} {info : ExprInfo} {op : BinaryOp}
      {opLoc : SourceLocation} {lhs lhs' rhs : Expr} {use : Use} :
      ReplacedExpr fresh none lhs lhs' use →
        ReplacedExpr fresh place (.binary info op opLoc lhs rhs)
          (.binary info op opLoc lhs' rhs) use
  | rhs {place : Option (String × Nat)} {info : ExprInfo} {op : BinaryOp}
      {opLoc : SourceLocation} {lhs rhs rhs' : Expr} {use : Use} :
      ReplacedExpr fresh none rhs rhs' use →
        ReplacedExpr fresh place (.binary info op opLoc lhs rhs)
          (.binary info op opLoc lhs rhs') use

inductive ReplacedArgs (fresh : String) :
    String → Nat → List Expr → List Expr → Use → Prop where
  | head {callee : String} {i : Nat} {arg arg' : Expr} {args : List Expr} {use : Use} :
      ReplacedExpr fresh (some (callee, i)) arg arg' use →
        ReplacedArgs fresh callee i (arg :: args) (arg' :: args) use
  | tail {callee : String} {i : Nat} {arg : Expr} {args args' : List Expr} {use : Use} :
      ReplacedArgs fresh callee (i + 1) args args' use →
        ReplacedArgs fresh callee i (arg :: args) (arg :: args') use

end

mutual

inductive ReplacedStmt (fresh : String) : Stmt → Stmt → Use → Prop where
  | block {loc : SourceLocation} {localDecls : List VarDecl} {stmts stmts' : List Stmt}
      {use : Use} :
      ReplacedStmts fresh stmts stmts' use →
        ReplacedStmt fresh (.compound loc localDecls stmts)
          (.compound loc localDecls stmts') use
  | expr {loc : SourceLocation} {e e' : Expr} {use : Use} :
      ReplacedExpr fresh none e e' use →
        ReplacedStmt fresh (.expr loc (some e)) (.expr loc (some e')) use
  | ifCond {loc : SourceLocation} {cond cond' : Expr} {thenStmt : Stmt}
      {elseStmt : Option Stmt} {use : Use} :
      ReplacedExpr fresh none cond cond' use →
        ReplacedStmt fresh (.ifs loc cond thenStmt elseStmt)
          (.ifs loc cond' thenStmt elseStmt) use
  | thenStmt {loc : SourceLocation} {cond : Expr} {thenStmt thenStmt' : Stmt}
      {elseStmt : Option Stmt} {use : Use} :
      ReplacedStmt fresh thenStmt thenStmt' use →
        ReplacedStmt fresh (.ifs loc cond thenStmt elseStmt)
          (.ifs loc cond thenStmt' elseStmt) use
  | elseStmt {loc : SourceLocation} {cond : Expr} {thenStmt elseStmt elseStmt' : Stmt}
      {use : Use} :
      ReplacedStmt fresh elseStmt elseStmt' use →
        ReplacedStmt fresh (.ifs loc cond thenStmt (some elseStmt))
          (.ifs loc cond thenStmt (some elseStmt')) use
  | whileCond {loc : SourceLocation} {cond cond' : Expr} {body : Stmt} {use : Use} :
      ReplacedExpr fresh none cond cond' use →
        ReplacedStmt fresh (.whiles loc cond body) (.whiles loc cond' body) use
  | body {loc : SourceLocation} {cond : Expr} {body body' : Stmt} {use : Use} :
      ReplacedStmt fresh body body' use →
        ReplacedStmt fresh (.whiles loc cond body) (.whiles loc cond body') use
  | ret {loc : SourceLocation} {value value' : Expr} {use : Use} :
      ReplacedExpr fresh none value value' use →
        ReplacedStmt fresh (.ret loc (some value)) (.ret loc (some value')) use

inductive ReplacedStmts (fresh : String) : List Stmt → List Stmt → Use → Prop where
  | head {stmt stmt' : Stmt} {stmts : List Stmt} {use : Use} :
      ReplacedStmt fresh stmt stmt' use →
        ReplacedStmts fresh (stmt :: stmts) (stmt' :: stmts) use
  | tail {stmt : Stmt} {stmts stmts' : List Stmt} {use : Use} :
      ReplacedStmts fresh stmts stmts' use →
        ReplacedStmts fresh (stmt :: stmts) (stmt :: stmts') use

end

def FunDecl.withStmts (decl : FunDecl) (stmts : List Stmt) : FunDecl :=
  { decl with body := { decl.body with stmts := stmts } }

inductive ReplacedDecls (fresh : String) : List Decl → List Decl → Use → Prop where
  | here {decl : FunDecl} {stmts' : List Stmt} {decls : List Decl} {use : Use} :
      ReplacedStmts fresh decl.body.stmts stmts' use →
        ReplacedDecls fresh (.fun decl :: decls) (.fun (decl.withStmts stmts') :: decls)
          use
  | later {decl : Decl} {decls decls' : List Decl} {use : Use} :
      ReplacedDecls fresh decls decls' use →
        ReplacedDecls fresh (decl :: decls) (decl :: decls') use

def Program.Replaced (fresh : String) (program program' : Program) (use : Use) : Prop :=
  ReplacedDecls fresh program.decls program'.decls use

/-! Every name that a program declares, the built-in functions included. -/

def Decl.declaredNames : Decl → List String
  | .var decl => [decl.name]
  | .fun decl =>
      decl.name :: decl.params.map ParamDecl.name ++ decl.locals.map VarDecl.name

def Program.declaredNames (program : Program) : List String :=
  builtinSymbols.map Symbol.name ++ program.decls.flatMap Decl.declaredNames

/-! The use is passed whole to a parameter that is an array. -/

def Use.IsArrayArgument (use : Use) (program : Program) : Prop :=
  ∃ f i param, use.place = some (f.name, i) ∧ Decl.fun f ∈ program.decls ∧
    f.params[i]? = some param ∧ param.isArray = true

end CMinus
