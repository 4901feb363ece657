import CMinus.AST

namespace CMinus

/-! The tree without its source locations. -/

def ExprInfo.bare (info : ExprInfo) : ExprInfo := { info with loc := {} }

def VarHead.bare (head : VarHead) : VarHead :=
  { head with info := head.info.bare }

def VarDecl.bare (decl : VarDecl) : VarDecl :=
  { decl with loc := {}, typeLoc := {} }

def ParamDecl.bare (param : ParamDecl) : ParamDecl :=
  { param with loc := {}, typeLoc := {} }

mutual

def Expr.bare : Expr → Expr
  | .num info value => .num info.bare value
  | .var head none => .var head.bare none
  | .var head (some index) => .var head.bare (some index.bare)
  | .call info callee args symbol => .call info.bare callee (bareArgs args) symbol
  | .assign info _ target none value =>
      .assign info.bare {} target.bare none value.bare
  | .assign info _ target (some index) value =>
      .assign info.bare {} target.bare (some index.bare) value.bare
  | .binary info op _ lhs rhs => .binary info.bare op {} lhs.bare rhs.bare

def bareArgs : List Expr → List Expr
  | [] => []
  | arg :: args => arg.bare :: bareArgs args

end

mutual

def Stmt.bare : Stmt → Stmt
  | .compound _ localDecls stmts =>
      .compound {} (localDecls.map VarDecl.bare) (bareStmts stmts)
  | .expr _ expr => .expr {} (expr.map Expr.bare)
  | .ifs _ cond thenStmt none => .ifs {} cond.bare thenStmt.bare none
  | .ifs _ cond thenStmt (some elseStmt) =>
      .ifs {} cond.bare thenStmt.bare (some elseStmt.bare)
  | .whiles _ cond body => .whiles {} cond.bare body.bare
  | .ret _ value => .ret {} (value.map Expr.bare)

def bareStmts : List Stmt → List Stmt
  | [] => []
  | stmt :: stmts => stmt.bare :: bareStmts stmts

end

def CompoundStmt.bare (block : CompoundStmt) : CompoundStmt :=
  { loc := {}, localDecls := block.localDecls.map VarDecl.bare,
    stmts := bareStmts block.stmts }

def FunDecl.bare (decl : FunDecl) : FunDecl :=
  { decl with loc := {}, typeLoc := {}, params := decl.params.map ParamDecl.bare,
              body := decl.body.bare }

def Decl.bare : Decl → Decl
  | .var decl => .var decl.bare
  | .fun decl => .fun decl.bare

def Program.bare (program : Program) : Program :=
  { decls := program.decls.map Decl.bare }

theorem bareArgs_eq_map (args : List Expr) : bareArgs args = args.map Expr.bare := by
  induction args with
  | nil => rfl
  | cons arg args ih => simp [bareArgs, ih]

theorem bareStmts_eq_map (stmts : List Stmt) :
    bareStmts stmts = stmts.map Stmt.bare := by
  induction stmts with
  | nil => rfl
  | cons stmt stmts ih => simp [bareStmts, ih]

namespace Grammar

/-! The grammar of C-, one constructor for each alternative of the 29 rules.  A
derivation relates the tokens a nonterminal spans to the tree it stands for. -/

inductive TypeSpecifier : TokenKind → CType → Prop       -- rule 5
  | int : TypeSpecifier .kwInt .int
  | void : TypeSpecifier .kwVoid .void

inductive Relop : TokenKind → BinaryOp → Prop            -- rule 21
  | le : Relop .lessEqual .lessEqual
  | lt : Relop .less .lessThan
  | gt : Relop .greater .greaterThan
  | ge : Relop .greaterEqual .greaterEqual
  | eq : Relop .equalEqual .equal
  | ne : Relop .bangEqual .notEqual

inductive Addop : TokenKind → BinaryOp → Prop            -- rule 23
  | plus : Addop .plus .add
  | minus : Addop .minus .sub

inductive Mulop : TokenKind → BinaryOp → Prop            -- rule 25
  | times : Mulop .star .mul
  | over : Mulop .slash .div

mutual

inductive Expression : List Token → Expr → Prop          -- rule 18
  | assign {v w : List Token} {eq : Token} {target : VarHead}
      {index : Option Expr} {value : Expr} :
      Var v target index → eq.kind = .assign → Expression w value →
      Expression (v ++ eq :: w) (.assign {} {} target index value)
  | simple {w : List Token} {e : Expr} : SimpleExpression w e → Expression w e

inductive Var : List Token → VarHead → Option Expr → Prop -- rule 19
  | scalar {name : Token} : name.kind = .identifier →
      Var [name] { name := name.lexeme } none
  | element {name lb rb : Token} {w : List Token} {index : Expr} :
      name.kind = .identifier → lb.kind = .lBracket → Expression w index →
      rb.kind = .rBracket →
      Var (name :: lb :: (w ++ [rb])) { name := name.lexeme } (some index)

inductive SimpleExpression : List Token → Expr → Prop    -- rule 20
  | compare {v w : List Token} {tok : Token} {op : BinaryOp} {lhs rhs : Expr} :
      AdditiveExpression v lhs → Relop tok.kind op → AdditiveExpression w rhs →
      SimpleExpression (v ++ tok :: w) (.binary {} op {} lhs rhs)
  | additive {w : List Token} {e : Expr} :
      AdditiveExpression w e → SimpleExpression w e

inductive AdditiveExpression : List Token → Expr → Prop  -- rule 22
  | fold {v w : List Token} {tok : Token} {op : BinaryOp} {lhs rhs : Expr} :
      AdditiveExpression v lhs → Addop tok.kind op → Term w rhs →
      AdditiveExpression (v ++ tok :: w) (.binary {} op {} lhs rhs)
  | term {w : List Token} {e : Expr} : Term w e → AdditiveExpression w e

inductive Term : List Token → Expr → Prop                -- rule 24
  | fold {v w : List Token} {tok : Token} {op : BinaryOp} {lhs rhs : Expr} :
      Term v lhs → Mulop tok.kind op → Factor w rhs →
      Term (v ++ tok :: w) (.binary {} op {} lhs rhs)
  | factor {w : List Token} {e : Expr} : Factor w e → Term w e

inductive Factor : List Token → Expr → Prop              -- rule 26
  | paren {lp rp : Token} {w : List Token} {e : Expr} :
      lp.kind = .lParen → Expression w e → rp.kind = .rParen →
      Factor (lp :: (w ++ [rp])) e.parenthesize
  | var {w : List Token} {head : VarHead} {index : Option Expr} :
      Var w head index → Factor w (.var head index)
  | call {w : List Token} {e : Expr} : Call w e → Factor w e
  | num {tok : Token} : tok.kind = .number → Factor [tok] (.num {} tok.value)

inductive Call : List Token → Expr → Prop                -- rule 27
  | mk {name lp rp : Token} {w : List Token} {args : List Expr} :
      name.kind = .identifier → lp.kind = .lParen → Args w args →
      rp.kind = .rParen →
      Call (name :: lp :: (w ++ [rp])) (.call {} name.lexeme args none)

inductive Args : List Token → List Expr → Prop           -- rule 28
  | list {w : List Token} {args : List Expr} : ArgList w args → Args w args
  | empty : Args [] []

inductive ArgList : List Token → List Expr → Prop        -- rule 29
  | snoc {v w : List Token} {comma : Token} {args : List Expr} {arg : Expr} :
      ArgList v args → comma.kind = .comma → Expression w arg →
      ArgList (v ++ comma :: w) (args ++ [arg])
  | one {w : List Token} {arg : Expr} : Expression w arg → ArgList w [arg]

end

inductive VarDeclaration : List Token → VarDecl → Prop   -- rule 4
  | scalar {type name semi : Token} {t : CType} :
      TypeSpecifier type.kind t → name.kind = .identifier →
      semi.kind = .semicolon →
      VarDeclaration [type, name, semi] { name := name.lexeme, declaredType := t }
  | array {type name lb size rb semi : Token} {t : CType} :
      TypeSpecifier type.kind t → name.kind = .identifier →
      lb.kind = .lBracket → size.kind = .number → rb.kind = .rBracket →
      semi.kind = .semicolon →
      VarDeclaration [type, name, lb, size, rb, semi]
        { name := name.lexeme, declaredType := t, isArray := true,
          arraySize := size.value }

inductive Param : List Token → ParamDecl → Prop          -- rule 9
  | scalar {type name : Token} {t : CType} :
      TypeSpecifier type.kind t → name.kind = .identifier →
      Param [type, name] { name := name.lexeme, declaredType := t }
  | array {type name lb rb : Token} {t : CType} :
      TypeSpecifier type.kind t → name.kind = .identifier →
      lb.kind = .lBracket → rb.kind = .rBracket →
      Param [type, name, lb, rb]
        { name := name.lexeme, declaredType := t, isArray := true }

inductive ParamList : List Token → List ParamDecl → Prop -- rule 8
  | snoc {v w : List Token} {comma : Token} {params : List ParamDecl}
      {param : ParamDecl} :
      ParamList v params → comma.kind = .comma → Param w param →
      ParamList (v ++ comma :: w) (params ++ [param])
  | one {w : List Token} {param : ParamDecl} : Param w param → ParamList w [param]

inductive Params : List Token → List ParamDecl → Prop    -- rule 7
  | list {w : List Token} {params : List ParamDecl} :
      ParamList w params → Params w params
  | void {tok : Token} : tok.kind = .kwVoid → Params [tok] []

inductive LocalDeclarations : List Token → List VarDecl → Prop -- rule 11
  | snoc {v w : List Token} {decls : List VarDecl} {decl : VarDecl} :
      LocalDeclarations v decls → VarDeclaration w decl →
      LocalDeclarations (v ++ w) (decls ++ [decl])
  | empty : LocalDeclarations [] []

mutual

inductive Compound : List Token → CompoundStmt → Prop    -- rule 10
  | mk {lb rb : Token} {v w : List Token} {decls : List VarDecl}
      {stmts : List Stmt} :
      lb.kind = .lBrace → LocalDeclarations v decls → StatementList w stmts →
      rb.kind = .rBrace →
      Compound (lb :: (v ++ w ++ [rb])) { localDecls := decls, stmts := stmts }

inductive StatementList : List Token → List Stmt → Prop  -- rule 12
  | snoc {v w : List Token} {stmts : List Stmt} {stmt : Stmt} :
      StatementList v stmts → Statement w stmt →
      StatementList (v ++ w) (stmts ++ [stmt])
  | empty : StatementList [] []

inductive Statement : List Token → Stmt → Prop           -- rules 13-17
  | expr {w : List Token} {semi : Token} {e : Expr} :
      Expression w e → semi.kind = .semicolon →
      Statement (w ++ [semi]) (.expr {} (some e))
  | nothing {semi : Token} : semi.kind = .semicolon →
      Statement [semi] (.expr {} none)
  | compound {w : List Token} {block : CompoundStmt} :
      Compound w block → Statement w block.toStmt
  | ifThen {kw lp rp : Token} {u v : List Token} {cond : Expr} {thenStmt : Stmt} :
      kw.kind = .kwIf → lp.kind = .lParen → Expression u cond →
      rp.kind = .rParen → Statement v thenStmt →
      Statement (kw :: lp :: (u ++ rp :: v)) (.ifs {} cond thenStmt none)
  | ifElse {kw lp rp els : Token} {u v w : List Token} {cond : Expr}
      {thenStmt elseStmt : Stmt} :
      kw.kind = .kwIf → lp.kind = .lParen → Expression u cond →
      rp.kind = .rParen → Statement v thenStmt → els.kind = .kwElse →
      Statement w elseStmt →
      Statement (kw :: lp :: (u ++ rp :: (v ++ els :: w)))
        (.ifs {} cond thenStmt (some elseStmt))
  | iteration {kw lp rp : Token} {u v : List Token} {cond : Expr} {body : Stmt} :
      kw.kind = .kwWhile → lp.kind = .lParen → Expression u cond →
      rp.kind = .rParen → Statement v body →
      Statement (kw :: lp :: (u ++ rp :: v)) (.whiles {} cond body)
  | returnVoid {kw semi : Token} : kw.kind = .kwReturn → semi.kind = .semicolon →
      Statement [kw, semi] (.ret {} none)
  | returnValue {kw semi : Token} {w : List Token} {e : Expr} :
      kw.kind = .kwReturn → Expression w e → semi.kind = .semicolon →
      Statement (kw :: (w ++ [semi])) (.ret {} (some e))

end

inductive FunDeclaration : List Token → FunDecl → Prop   -- rule 6
  | mk {type name lp rp : Token} {v w : List Token} {t : CType}
      {params : List ParamDecl} {block : CompoundStmt} :
      TypeSpecifier type.kind t → name.kind = .identifier → lp.kind = .lParen →
      Params v params → rp.kind = .rParen → Compound w block →
      FunDeclaration (type :: name :: lp :: (v ++ rp :: w))
        { name := name.lexeme, returnType := t, params := params, body := block }

inductive Declaration : List Token → Decl → Prop         -- rule 3
  | var {w : List Token} {decl : VarDecl} :
      VarDeclaration w decl → Declaration w (.var decl)
  | fun {w : List Token} {decl : FunDecl} :
      FunDeclaration w decl → Declaration w (.fun decl)

inductive DeclarationList : List Token → List Decl → Prop -- rule 2
  | snoc {v w : List Token} {decls : List Decl} {decl : Decl} :
      DeclarationList v decls → Declaration w decl →
      DeclarationList (v ++ w) (decls ++ [decl])
  | one {w : List Token} {decl : Decl} :
      Declaration w decl → DeclarationList w [decl]

inductive Derives : List Token → Program → Prop          -- rule 1
  | mk {w : List Token} {decls : List Decl} :
      DeclarationList w decls → Derives w { decls := decls }

/-! Rule 15 is ambiguous.  `openIf` says that a statement ends in an `if` which
could still take an `else`; the standard reading gives no such statement to the
`then` branch of an `if` that has an `else`. -/

def openIf : Stmt → Bool
  | .ifs _ _ _ none => true
  | .ifs _ _ _ (some elseStmt) => openIf elseStmt
  | .whiles _ _ body => openIf body
  | _ => false

mutual

def NearestElse : Stmt → Prop
  | .compound _ _ stmts => NearestElses stmts
  | .ifs _ _ thenStmt none => NearestElse thenStmt
  | .ifs _ _ thenStmt (some elseStmt) =>
      openIf thenStmt = false ∧ NearestElse thenStmt ∧ NearestElse elseStmt
  | .whiles _ _ body => NearestElse body
  | _ => True

def NearestElses : List Stmt → Prop
  | [] => True
  | stmt :: stmts => NearestElse stmt ∧ NearestElses stmts

end

def NearestElseProgram (program : Program) : Prop :=
  ∀ decl : FunDecl, Decl.fun decl ∈ program.decls → NearestElses decl.body.stmts

end Grammar

end CMinus
