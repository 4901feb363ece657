import CMinus.Token

namespace CMinus

/-! The semantic types of C-, and the operators of rules 20, 22 and 24. -/

inductive CType where
  | int
  | void
  | intArray
deriving Repr, DecidableEq, Inhabited

def typeName : CType → String
  | .int => "int"
  | .void => "void"
  | .intArray => "int[]"

inductive BinaryOp where
  | add
  | sub
  | mul
  | div
  | lessThan
  | lessEqual
  | greaterThan
  | greaterEqual
  | equal
  | notEqual
deriving Repr, DecidableEq, Inhabited

def isComparison : BinaryOp → Bool
  | .add | .sub | .mul | .div => false
  | _ => true

/-! A symbol as the analyzer stores it.  Where the source keeps a pointer into the
symbol table the tree keeps the symbol itself; `id`, its place in the storage of
the table, plays the part of the address. -/

inductive SymbolKind where
  | variable
  | parameter
  | function
deriving Repr, DecidableEq, Inhabited

structure Symbol where
  id : Nat := 0
  kind : SymbolKind := .variable
  name : String
  type : CType := .int
  loc : SourceLocation := {}
  arraySize : Int := 0
  returnType : CType := .int
  paramTypes : List CType := []
  isBuiltin : Bool := false
deriving Repr, DecidableEq, Inhabited

def Symbol.isFunction (symbol : Symbol) : Bool :=
  decide (symbol.kind = .function)

def Symbol.isArray (symbol : Symbol) : Bool :=
  decide (symbol.type = .intArray)

/-! Declarations. -/

structure VarDecl where
  loc : SourceLocation := {}
  name : String
  typeLoc : SourceLocation := {}
  declaredType : CType
  isArray : Bool := false
  arraySize : Int := 0
  symbol : Option Symbol := none
deriving Repr, DecidableEq, Inhabited

structure ParamDecl where
  loc : SourceLocation := {}
  name : String
  typeLoc : SourceLocation := {}
  declaredType : CType
  isArray : Bool := false
  symbol : Option Symbol := none
deriving Repr, DecidableEq, Inhabited

/-! What every expression node carries: its location, the type that semantic
analysis gives it, and whether it was written inside parentheses. -/

structure ExprInfo where
  loc : SourceLocation := {}
  type : CType := .int
  parenthesized : Bool := false
deriving Repr, DecidableEq, Inhabited

/-! A `VarExpr` without its subscript: the part an assignment target shares with a
variable that is read. -/

structure VarHead where
  info : ExprInfo := {}
  name : String
  symbol : Option Symbol := none
deriving Repr, DecidableEq, Inhabited

inductive Expr where
  | num (info : ExprInfo) (value : Int)
  | var (head : VarHead) (index : Option Expr)
  | call (info : ExprInfo) (callee : String) (args : List Expr)
      (symbol : Option Symbol)
  | assign (info : ExprInfo) (opLoc : SourceLocation) (target : VarHead)
      (index : Option Expr) (value : Expr)
  | binary (info : ExprInfo) (op : BinaryOp) (opLoc : SourceLocation)
      (lhs rhs : Expr)
deriving Repr, Inhabited

inductive Stmt where
  | compound (loc : SourceLocation) (localDecls : List VarDecl)
      (stmts : List Stmt)
  | expr (loc : SourceLocation) (expr : Option Expr)
  | ifs (loc : SourceLocation) (cond : Expr) (thenStmt : Stmt)
      (elseStmt : Option Stmt)
  | whiles (loc : SourceLocation) (cond : Expr) (body : Stmt)
  | ret (loc : SourceLocation) (value : Option Expr)
deriving Repr, Inhabited

structure CompoundStmt where
  loc : SourceLocation := {}
  localDecls : List VarDecl := []
  stmts : List Stmt := []
deriving Repr, Inhabited

def CompoundStmt.toStmt (block : CompoundStmt) : Stmt :=
  .compound block.loc block.localDecls block.stmts

structure FunDecl where
  loc : SourceLocation := {}
  name : String
  typeLoc : SourceLocation := {}
  returnType : CType
  params : List ParamDecl := []
  body : CompoundStmt := {}
  symbol : Option Symbol := none
deriving Repr, Inhabited

inductive Decl where
  | var (decl : VarDecl)
  | fun (decl : FunDecl)
deriving Repr, Inhabited

structure Program where
  decls : List Decl := []
deriving Repr, Inhabited

def Expr.info : Expr → ExprInfo
  | .num info _ => info
  | .var head _ => head.info
  | .call info _ _ _ => info
  | .assign info _ _ _ _ => info
  | .binary info _ _ _ _ => info

def Expr.loc (e : Expr) : SourceLocation := e.info.loc

def Expr.type (e : Expr) : CType := e.info.type

def Expr.parenthesize : Expr → Expr
  | .num info value => .num { info with parenthesized := true } value
  | .var head index =>
      .var { head with info := { head.info with parenthesized := true } } index
  | .call info callee args symbol =>
      .call { info with parenthesized := true } callee args symbol
  | .assign info opLoc target index value =>
      .assign { info with parenthesized := true } opLoc target index value
  | .binary info op opLoc lhs rhs =>
      .binary { info with parenthesized := true } op opLoc lhs rhs

def Decl.name : Decl → String
  | .var decl => decl.name
  | .fun decl => decl.name

def Decl.loc : Decl → SourceLocation
  | .var decl => decl.loc
  | .fun decl => decl.loc

end CMinus
