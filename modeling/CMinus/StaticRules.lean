import Mathlib.Tactic.Tauto
import CMinus.Resolved

namespace CMinus

/-! The static rules of the language, as a judgement over the tree the parser
returns.  What a name stands for is an `Entity`; a context is the list of the open
scopes, the innermost first, each with its declarations in source order. -/

namespace Static

inductive Entity where
  | scalar
  | array
  | function (returnType : CType) (params : List CType)
deriving Repr, DecidableEq, Inhabited

abbrev Bindings := List (String × Entity)

abbrev Context := List Bindings

def Bindings.find (scope : Bindings) (name : String) : Option Entity :=
  (scope.find? (fun binding => binding.1 = name)).map Prod.snd

def Context.lookup (Γ : Context) (name : String) : Option Entity :=
  Γ.findSome? (fun scope => Bindings.find scope name)

def variableEntity (isArray : Bool) : Entity :=
  if isArray then .array else .scalar

def varBinding (decl : VarDecl) : String × Entity :=
  (decl.name, variableEntity decl.isArray)

def paramBinding (param : ParamDecl) : String × Entity :=
  (param.name, variableEntity param.isArray)

def funBinding (decl : FunDecl) : String × Entity :=
  (decl.name, .function decl.returnType
    (decl.params.map fun param => if param.isArray then .intArray else .int))

/-! Expressions: S4, S6-S12. -/

mutual

inductive HasType (Γ : Context) : Expr → CType → Prop
  | num {info : ExprInfo} {value : Int} : HasType Γ (.num info value) .int
  | scalar {head : VarHead} : Γ.lookup head.name = some .scalar →
      HasType Γ (.var head none) .int
  | array {head : VarHead} : Γ.lookup head.name = some .array →
      HasType Γ (.var head none) .intArray
  | element {head : VarHead} {index : Expr} : Γ.lookup head.name = some .array →
      HasType Γ index .int → HasType Γ (.var head (some index)) .int
  | call {info : ExprInfo} {callee : String} {args : List Expr}
      {symbol : Option Symbol} {returnType : CType} {params : List CType} :
      Γ.lookup callee = some (.function returnType params) → HasTypes Γ args params →
      HasType Γ (.call info callee args symbol) returnType
  | assign {info : ExprInfo} {opLoc : SourceLocation} {target : VarHead}
      {value : Expr} : Γ.lookup target.name = some .scalar → HasType Γ value .int →
      HasType Γ (.assign info opLoc target none value) .int
  | assignElement {info : ExprInfo} {opLoc : SourceLocation} {target : VarHead}
      {index value : Expr} : Γ.lookup target.name = some .array →
      HasType Γ index .int → HasType Γ value .int →
      HasType Γ (.assign info opLoc target (some index) value) .int
  | binary {info : ExprInfo} {op : BinaryOp} {opLoc : SourceLocation}
      {lhs rhs : Expr} : HasType Γ lhs .int → HasType Γ rhs .int →
      HasType Γ (.binary info op opLoc lhs rhs) .int

inductive HasTypes (Γ : Context) : List Expr → List CType → Prop
  | nil : HasTypes Γ [] []
  | cons {arg : Expr} {args : List Expr} {type : CType} {types : List CType} :
      HasType Γ arg type → HasTypes Γ args types →
      HasTypes Γ (arg :: args) (type :: types)

end

/-! S9 in the one place where a value of any type may stand: an expression
statement is not the bare name of an array. -/

def BareArray (Γ : Context) : Expr → Prop
  | .var head none => Γ.lookup head.name = some .array
  | _ => False

/-! Statements: S1, S3, S9, S13, S14.  `discard` is the condition on the
expression of an expression statement. -/

def ScopeOk (bindings : Bindings) : Prop :=
  (bindings.map Prod.fst).Nodup

def VarsOk (decls : List VarDecl) : Prop :=
  ∀ decl ∈ decls, decl.declaredType ≠ .void

mutual

def StmtOk (discard : Context → Expr → Prop) (returnType : CType) (Γ : Context) :
    Stmt → Prop
  | .compound _ localDecls stmts =>
      VarsOk localDecls ∧ ScopeOk (localDecls.map varBinding) ∧
        StmtsOk discard returnType (localDecls.map varBinding :: Γ) stmts
  | .expr _ none => True
  | .expr _ (some e) => (∃ type, HasType Γ e type) ∧ discard Γ e
  | .ifs _ cond thenStmt none =>
      HasType Γ cond .int ∧ StmtOk discard returnType Γ thenStmt
  | .ifs _ cond thenStmt (some elseStmt) =>
      HasType Γ cond .int ∧ StmtOk discard returnType Γ thenStmt ∧
        StmtOk discard returnType Γ elseStmt
  | .whiles _ cond body => HasType Γ cond .int ∧ StmtOk discard returnType Γ body
  | .ret _ none => returnType = .void
  | .ret _ (some e) => returnType ≠ .void ∧ HasType Γ e .int

def StmtsOk (discard : Context → Expr → Prop) (returnType : CType) (Γ : Context) :
    List Stmt → Prop
  | [] => True
  | stmt :: stmts =>
      StmtOk discard returnType Γ stmt ∧ StmtsOk discard returnType Γ stmts

end

/-! Declarations: S1, S3, S5.  The parameters and the outermost block of the body
are one scope, and a function is visible in its own body. -/

def functionScope (decl : FunDecl) : Bindings :=
  decl.params.map paramBinding ++ decl.body.localDecls.map varBinding

def FunOk (discard : Context → Expr → Prop) (globals : Bindings) (decl : FunDecl) :
    Prop :=
  (∀ param ∈ decl.params, param.declaredType ≠ .void) ∧
    VarsOk decl.body.localDecls ∧ ScopeOk (functionScope decl) ∧
    StmtsOk discard decl.returnType [functionScope decl, globals] decl.body.stmts

def DeclsOk (discard : Context → Expr → Prop) : Bindings → List Decl → Prop
  | _, [] => True
  | globals, .var decl :: decls =>
      decl.declaredType ≠ .void ∧ decl.name ∉ globals.map Prod.fst ∧
        DeclsOk discard (globals ++ [varBinding decl]) decls
  | globals, .fun decl :: decls =>
      decl.name ∉ globals.map Prod.fst ∧
        FunOk discard (globals ++ [funBinding decl]) decl ∧
        DeclsOk discard (globals ++ [funBinding decl]) decls

def builtins : Bindings :=
  [("input", .function .int []), ("output", .function .void [.int])]

def ProgramOk (discard : Context → Expr → Prop) (program : Program) : Prop :=
  DeclsOk discard builtins program.decls ∧ MainLast program

def Rules (program : Program) : Prop :=
  ProgramOk (fun Γ e => ¬ BareArray Γ e) program

/-! The same rules without S9 in expression statements. -/

def RulesButDiscard (program : Program) : Prop :=
  ProgramOk (fun _ _ => True) program

/-! The statements that make the difference. -/

mutual

def DiscardsArray (Γ : Context) : Stmt → Prop
  | .compound _ localDecls stmts =>
      SomeDiscardsArray (localDecls.map varBinding :: Γ) stmts
  | .expr _ (some e) => BareArray Γ e
  | .ifs _ _ thenStmt none => DiscardsArray Γ thenStmt
  | .ifs _ _ thenStmt (some elseStmt) =>
      DiscardsArray Γ thenStmt ∨ DiscardsArray Γ elseStmt
  | .whiles _ _ body => DiscardsArray Γ body
  | _ => False

def SomeDiscardsArray (Γ : Context) : List Stmt → Prop
  | [] => False
  | stmt :: stmts => DiscardsArray Γ stmt ∨ SomeDiscardsArray Γ stmts

end

def DeclsDiscardArray : Bindings → List Decl → Prop
  | _, [] => False
  | globals, .var decl :: decls =>
      DeclsDiscardArray (globals ++ [varBinding decl]) decls
  | globals, .fun decl :: decls =>
      SomeDiscardsArray [functionScope decl, globals ++ [funBinding decl]]
          decl.body.stmts ∨
        DeclsDiscardArray (globals ++ [funBinding decl]) decls

def ProgramDiscardsArray (program : Program) : Prop :=
  DeclsDiscardArray builtins program.decls

mutual

theorem stmtOk_bareArray {returnType : CType} {Γ : Context} : ∀ stmt : Stmt,
    StmtOk (fun Γ e => ¬ BareArray Γ e) returnType Γ stmt ↔
      StmtOk (fun _ _ => True) returnType Γ stmt ∧ ¬ DiscardsArray Γ stmt
  | .compound _ localDecls stmts => by
      simp only [StmtOk, DiscardsArray, stmtsOk_bareArray stmts, and_assoc]
  | .expr _ none => by simp [StmtOk, DiscardsArray]
  | .expr _ (some e) => by simp [StmtOk, DiscardsArray]
  | .ifs _ cond thenStmt none => by
      simp only [StmtOk, DiscardsArray, stmtOk_bareArray thenStmt, and_assoc]
  | .ifs _ cond thenStmt (some elseStmt) => by
      simp only [StmtOk, DiscardsArray, stmtOk_bareArray thenStmt,
        stmtOk_bareArray elseStmt]
      tauto
  | .whiles _ cond body => by
      simp only [StmtOk, DiscardsArray, stmtOk_bareArray body, and_assoc]
  | .ret _ none => by simp [StmtOk, DiscardsArray]
  | .ret _ (some e) => by simp [StmtOk, DiscardsArray]

theorem stmtsOk_bareArray {returnType : CType} {Γ : Context} : ∀ stmts : List Stmt,
    StmtsOk (fun Γ e => ¬ BareArray Γ e) returnType Γ stmts ↔
      StmtsOk (fun _ _ => True) returnType Γ stmts ∧ ¬ SomeDiscardsArray Γ stmts
  | [] => by simp [StmtsOk, SomeDiscardsArray]
  | stmt :: stmts => by
      simp only [StmtsOk, SomeDiscardsArray, stmtOk_bareArray stmt,
        stmtsOk_bareArray stmts]
      tauto

end

theorem declsOk_bareArray (decls : List Decl) (globals : Bindings) :
    DeclsOk (fun Γ e => ¬ BareArray Γ e) globals decls ↔
      DeclsOk (fun _ _ => True) globals decls ∧ ¬ DeclsDiscardArray globals decls := by
  induction decls generalizing globals with
  | nil => simp [DeclsOk, DeclsDiscardArray]
  | cons decl decls ih =>
      cases decl with
      | var decl => simp only [DeclsOk, DeclsDiscardArray, ih, and_assoc]
      | «fun» decl =>
          simp only [DeclsOk, DeclsDiscardArray, FunOk, ih, stmtsOk_bareArray]
          tauto

theorem rules_iff (program : Program) :
    Rules program ↔ RulesButDiscard program ∧ ¬ ProgramDiscardsArray program := by
  simp only [Rules, RulesButDiscard, ProgramDiscardsArray, ProgramOk,
    declsOk_bareArray]
  tauto

end Static

end CMinus
