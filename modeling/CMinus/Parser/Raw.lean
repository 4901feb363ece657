import CMinus.Scoping
import CMinus.Parser

namespace CMinus

namespace Parser

/-! What an action gives whenever it returns, and the same for one that may give a
null pointer. -/

structure Gives {α : Type} (Q : α → Prop) (action : ParserM α) : Prop where
  result : ∀ p a p', action p = some (a, p') → Q a

def Parses {α : Type} (Q : α → Prop) (action : ParserM (Option α)) : Prop :=
  Gives (fun r => ∀ a, r = some a → Q a) action

section Rules

variable {α β : Type} {Q : α → Prop}

theorem Gives.pure {a : α} (h : Q a) : Gives Q (Pure.pure a) := by
  constructor
  intro p b p' hrun
  cases hrun
  exact h

theorem Gives.bind {R : β → Prop} {action : ParserM β} {next : β → ParserM α}
    (h : Gives R action) (hnext : ∀ b, R b → Gives Q (next b)) :
    Gives Q (action >>= next) := by
  constructor
  intro p a p' hrun
  obtain ⟨⟨b, p₁⟩, hb, ha⟩ := Option.bind_eq_some_iff.mp hrun
  exact (hnext b (h.result p b p₁ hb)).result p₁ a p' ha

theorem Gives.skip {action : ParserM β} {next : β → ParserM α}
    (hnext : ∀ b, Gives Q (next b)) : Gives Q (action >>= next) :=
  have hany : Gives (fun _ => True) action := ⟨fun _ _ _ _ => trivial⟩
  hany.bind fun b _ => hnext b

theorem Gives.ite {c : Prop} [Decidable c] {x y : ParserM α} (hx : Gives Q x)
    (hy : Gives Q y) : Gives Q (if c then x else y) := by
  split
  · exact hx
  · exact hy

theorem Parses.null : Parses Q (Pure.pure none) := by
  apply Gives.pure
  intro a h
  cases h

theorem Parses.tree {a : α} (h : Q a) : Parses Q (Pure.pure (some a)) := by
  apply Gives.pure
  intro b hb
  cases hb
  exact h

end Rules

/-! Trees without annotations. -/

theorem rawArgs_eq_map (args : List Expr) : rawArgs args = args.map Expr.raw := by
  induction args with
  | nil => rfl
  | cons arg args ih => rw [rawArgs, ih, List.map_cons]

theorem rawStmts_eq_map (stmts : List Stmt) :
    rawStmts stmts = stmts.map Stmt.raw := by
  induction stmts with
  | nil => rfl
  | cons stmt stmts ih => rw [rawStmts, ih, List.map_cons]

theorem parenthesize_raw (e : Expr) : e.parenthesize.raw = e.raw.parenthesize := by
  cases e with
  | var head index => cases index <;> rfl
  | assign info opLoc target index value => cases index <;> rfl
  | _ => rfl

def Raw (e : Expr) : Prop := e.raw = e

def RawList {α : Type} (raw : α → α) (as : List α) : Prop := as.map raw = as

theorem RawList.snoc {α : Type} {raw : α → α} {as : List α} {a : α}
    (h : RawList raw as) (ha : raw a = a) : RawList raw (as ++ [a]) := by
  unfold RawList at h ⊢
  rw [List.map_append, h, List.map_singleton, ha]

theorem Raw.parenthesize {e : Expr} (h : Raw e) : Raw e.parenthesize := by
  unfold Raw at h ⊢
  rw [parenthesize_raw, h]

theorem Raw.assign {loc opLoc : SourceLocation} {head : VarHead} {index : Option Expr}
    {value : Expr} (hvar : Raw (.var head index)) (hvalue : Raw value) :
    Raw (.assign { loc := loc } opLoc head index value) := by
  unfold Raw at hvar hvalue ⊢
  cases index with
  | none =>
      rw [Expr.raw, Expr.var.injEq] at hvar
      rw [Expr.raw, hvar.1, hvalue]
      rfl
  | some index =>
      rw [Expr.raw, Expr.var.injEq] at hvar
      rw [Expr.raw, hvar.1, hvar.2, hvalue]
      rfl

theorem Raw.binary {loc opLoc : SourceLocation} {op : BinaryOp} {lhs rhs : Expr}
    (hlhs : Raw lhs) (hrhs : Raw rhs) :
    Raw (.binary { loc := loc } op opLoc lhs rhs) := by
  unfold Raw at hlhs hrhs ⊢
  rw [Expr.raw, hlhs, hrhs]
  rfl

theorem Raw.call {loc : SourceLocation} {callee : String} {args : List Expr}
    (h : RawList Expr.raw args) : Raw (.call { loc := loc } callee args none) := by
  unfold Raw
  rw [Expr.raw, rawArgs_eq_map, h]
  rfl

theorem Raw.element {loc : SourceLocation} {name : String} {index : Expr}
    (h : Raw index) :
    Raw (.var { info := { loc := loc }, name := name } (some index)) := by
  unfold Raw at h ⊢
  rw [Expr.raw, h]
  rfl

/-! Expressions. -/

structure ExprRaw (limit : Nat) : Prop where
  expression : Parses Raw (parseExpression limit)
  simple : Parses Raw (parseSimpleExpression limit)
  additive : Parses Raw (parseAdditiveExpression limit)
  addops : ∀ node, Raw node → Parses Raw (parseAddops limit node)
  term : Parses Raw (parseTerm limit)
  mulops : ∀ node, Raw node → Parses Raw (parseMulops limit node)
  factor : Parses Raw (parseFactor limit)
  args : Parses (RawList Expr.raw) (parseArgs limit)
  argsFrom : ∀ args, RawList Expr.raw args →
    Parses (RawList Expr.raw) (parseArgsFrom limit args)

section Rules

variable {α β : Type} {Q : α → Prop}

/-! What follows a null pointer is the null pointer. -/

theorem Parses.bind {R : β → Prop} {action : ParserM (Option β)}
    {next : Option β → ParserM (Option α)} (h : Parses R action)
    (hnone : Parses Q (next none)) (hsome : ∀ b, R b → Parses Q (next (some b))) :
    Parses Q (action >>= next) := by
  apply Gives.bind h
  intro b hb
  cases b with
  | none => exact hnone
  | some b => exact hsome b (hb b rfl)

theorem Parses.skip {action : ParserM β} {next : β → ParserM (Option α)}
    (hnext : ∀ b, Parses Q (next b)) : Parses Q (action >>= next) := Gives.skip hnext

theorem Parses.ite {c : Prop} [Decidable c] {x y : ParserM (Option α)}
    (hx : Parses Q x) (hy : Parses Q y) : Parses Q (if c then x else y) := Gives.ite hx hy

end Rules

section Expression

variable {limit : Nat} (ih : ExprRaw limit)

include ih

theorem parseTerm_raw : Parses Raw (parseTerm (limit + 1)) := by
  rw [parseTerm]
  apply Parses.bind ih.factor
  · exact .null
  exact ih.mulops

theorem parseMulops_raw (node : Expr) (hnode : Raw node) :
    Parses Raw (parseMulops (limit + 1) node) := by
  rw [parseMulops]
  apply Parses.skip
  intro tok
  apply Parses.ite
  · exact .tree hnode
  apply Parses.skip
  intro op
  apply Parses.bind ih.factor
  · exact .null
  intro rhs hrhs
  exact ih.mulops _ (.binary hnode hrhs)

theorem parseAdditiveExpression_raw :
    Parses Raw (parseAdditiveExpression (limit + 1)) := by
  rw [parseAdditiveExpression]
  apply Parses.bind ih.term
  · exact .null
  exact ih.addops

theorem parseAddops_raw (node : Expr) (hnode : Raw node) :
    Parses Raw (parseAddops (limit + 1) node) := by
  rw [parseAddops]
  apply Parses.skip
  intro tok
  apply Parses.ite
  · exact .tree hnode
  apply Parses.skip
  intro op
  apply Parses.bind ih.term
  · exact .null
  intro rhs hrhs
  exact ih.addops _ (.binary hnode hrhs)

theorem parseSimpleExpression_raw :
    Parses Raw (parseSimpleExpression (limit + 1)) := by
  rw [parseSimpleExpression]
  apply Parses.bind ih.additive
  · exact .null
  intro lhs hlhs
  apply Parses.skip
  intro tok
  apply Parses.ite
  · exact .tree hlhs
  apply Parses.skip
  intro op
  apply Parses.bind ih.additive
  · exact .null
  intro rhs hrhs
  apply Parses.skip
  intro tok
  apply Parses.ite
  · exact Parses.skip fun _ => .null
  · exact .tree (.binary hlhs hrhs)

theorem parseExpression_raw : Parses Raw (parseExpression (limit + 1)) := by
  rw [parseExpression]
  apply Parses.bind ih.simple
  · exact .null
  intro lhs hlhs
  apply Parses.skip
  intro assign
  apply Parses.ite
  · exact .tree hlhs
  apply Parses.skip
  intro eq
  apply Parses.bind ih.expression
  · exact .null
  intro value hvalue
  cases lhs with
  | var head index =>
      apply Parses.ite
      · exact Parses.skip fun _ => .null
      · exact .tree (.assign hlhs hvalue)
  | _ => exact Parses.skip fun _ => .null

theorem parseFactor_raw : Parses Raw (parseFactor (limit + 1)) := by
  rw [parseFactor]
  apply Parses.skip
  intro tok
  cases tok.kind with
  | lParen =>
      apply Parses.skip
      intro _
      apply Parses.bind ih.expression
      · exact .null
      intro inner hinner
      apply Parses.skip
      intro closed
      exact .ite .null (.tree hinner.parenthesize)
  | number =>
      apply Parses.skip
      intro _
      exact .tree rfl
  | identifier =>
      apply Parses.skip
      intro _
      apply Parses.skip
      intro paren
      apply Parses.ite
      · apply Parses.bind ih.args
        · exact .null
        intro args hargs
        apply Parses.skip
        intro closed
        exact .ite .null (.tree (.call hargs))
      · apply Parses.skip
        intro bracket
        apply Parses.ite
        · apply Parses.bind ih.expression
          · exact .null
          intro index hindex
          apply Parses.skip
          intro closed
          exact .ite .null (.tree (.element hindex))
        · exact .tree rfl
  | _ => exact Parses.skip fun _ => .null

theorem parseArgsFrom_raw (args : List Expr) (hargs : RawList Expr.raw args) :
    Parses (RawList Expr.raw) (parseArgsFrom (limit + 1) args) := by
  rw [parseArgsFrom]
  apply Parses.bind ih.expression
  · exact .null
  intro arg harg
  apply Parses.skip
  intro comma
  apply Parses.ite
  · exact .tree (hargs.snoc harg)
  · exact ih.argsFrom _ (hargs.snoc harg)

theorem parseArgs_raw : Parses (RawList Expr.raw) (parseArgs (limit + 1)) := by
  rw [parseArgs]
  apply Parses.skip
  intro closed
  apply Parses.ite
  · exact .tree rfl
  · exact ih.argsFrom [] rfl

end Expression

theorem exprRaw (limit : Nat) : ExprRaw limit := by
  induction limit with
  | zero =>
      constructor <;> intros
      all_goals
        constructor
        intro p a p' h
        cases h
  | succ limit ih =>
      exact {
        expression := parseExpression_raw ih
        simple := parseSimpleExpression_raw ih
        additive := parseAdditiveExpression_raw ih
        addops := parseAddops_raw ih
        term := parseTerm_raw ih
        mulops := parseMulops_raw ih
        factor := parseFactor_raw ih
        args := parseArgs_raw ih
        argsFrom := parseArgsFrom_raw ih }

/-! Declarations. -/

def RawVar (decl : VarDecl) : Prop := decl.raw = decl

def RawParam (param : ParamDecl) : Prop := param.raw = param

theorem finishVarDeclaration_raw (type : CType) (typeLoc : SourceLocation) (name : Token) :
    Parses RawVar (finishVarDeclaration type typeLoc name) := by
  have htail : ∀ decl : VarDecl, RawVar decl → Parses RawVar (do
      if ← check .comma then
        errorAt (← peek) ("C- declares one variable per declaration; write a " ++
          "separate declaration for each name")
        return none
      if !(← expect .semicolon ("after the declaration of '" ++ name.lexeme ++ "'")) then
        return none
      return some decl) := by
    intro decl hdecl
    apply Parses.skip
    intro comma
    apply Parses.ite
    · exact Parses.skip fun _ => Parses.skip fun _ => .null
    · apply Parses.skip
      intro semi
      exact .ite .null (.tree hdecl)
  rw [finishVarDeclaration]
  apply Parses.skip
  intro bracket
  apply Parses.ite
  · apply Parses.skip
    intro number
    apply Parses.ite
    · exact Parses.skip fun _ => Parses.skip fun _ => .null
    · apply Parses.skip
      intro size
      apply Parses.skip
      intro closed
      exact .ite .null (htail _ rfl)
  · exact htail _ rfl

theorem parseLocalVarDeclaration_raw : Parses RawVar parseLocalVarDeclaration := by
  rw [parseLocalVarDeclaration]
  apply Parses.skip
  intro type
  cases type with
  | none => exact .null
  | some type =>
      apply Parses.skip
      intro identifier
      apply Parses.ite
      · exact Parses.skip fun _ => Parses.skip fun _ => .null
      apply Parses.skip
      intro name
      apply Parses.skip
      intro paren
      apply Parses.ite
      · exact Parses.skip fun _ => .null
      · exact finishVarDeclaration_raw _ _ _

theorem parseLocalDecls_raw (limit : Nat) (decls : List VarDecl)
    (hdecls : RawList VarDecl.raw decls) :
    Gives (RawList VarDecl.raw) (parseLocalDecls limit decls) := by
  induction limit generalizing decls with
  | zero =>
      constructor
      intro p a p' h
      cases h
  | succ limit ih =>
      rw [parseLocalDecls]
      apply Gives.skip
      intro tok
      apply Gives.ite
      · exact .pure hdecls
      apply Gives.skip
      intro before
      apply Gives.bind parseLocalVarDeclaration_raw
      intro decl hdecl
      cases decl with
      | some decl => exact ih _ (hdecls.snoc (hdecl decl rfl))
      | none =>
          apply Gives.skip
          intro _
          apply Gives.skip
          intro after
          apply Gives.ite
          · exact Gives.skip fun _ => ih decls hdecls
          · exact ih decls hdecls

theorem parseParam_raw : Parses RawParam parseParam := by
  rw [parseParam]
  apply Parses.skip
  intro type
  cases type with
  | none => exact .null
  | some type =>
      apply Parses.skip
      intro identifier
      apply Parses.ite
      · exact Parses.skip fun _ => Parses.skip fun _ => .null
      apply Parses.skip
      intro name
      apply Parses.skip
      intro bracket
      apply Parses.ite
      · apply Parses.skip
        intro number
        apply Parses.ite
        · exact Parses.skip fun _ => Parses.skip fun _ => .null
        · apply Parses.skip
          intro closed
          exact .ite .null (.tree rfl)
      · exact .tree rfl

theorem parseParamsFrom_raw (limit : Nat) (params : List ParamDecl)
    (hparams : RawList ParamDecl.raw params) :
    Parses (RawList ParamDecl.raw) (parseParamsFrom limit params) := by
  induction limit generalizing params with
  | zero =>
      constructor
      intro p a p' h
      cases h
  | succ limit ih =>
      rw [parseParamsFrom]
      apply Parses.bind parseParam_raw
      · exact .null
      intro param hparam
      apply Parses.skip
      intro comma
      apply Parses.ite
      · exact .tree (hparams.snoc hparam)
      · exact ih _ (hparams.snoc hparam)

theorem parseParams_raw (limit : Nat) :
    Parses (RawList ParamDecl.raw) (parseParams limit) := by
  rw [parseParams]
  apply Parses.skip
  intro void
  apply Parses.skip
  intro next
  apply Parses.ite
  · exact Parses.skip fun _ => .tree rfl
  apply Parses.skip
  intro closed
  apply Parses.ite
  · exact Parses.skip fun _ => Parses.skip fun _ => .null
  · exact parseParamsFrom_raw limit [] rfl

/-! Statements. -/

def RawStmt (stmt : Stmt) : Prop := stmt.raw = stmt

def RawBlock (block : CompoundStmt) : Prop := block.raw = block

theorem RawBlock.toStmt {block : CompoundStmt} (h : RawBlock block) :
    RawStmt block.toStmt := by
  unfold RawBlock at h
  unfold RawStmt
  calc block.toStmt.raw = block.raw.toStmt := rfl
    _ = block.toStmt := by rw [h]

theorem parseExpressionStmt_raw (limit : Nat) :
    Parses RawStmt (parseExpressionStmt limit) := by
  rw [parseExpressionStmt]
  apply Parses.skip
  intro tok
  apply Parses.skip
  intro semi
  apply Parses.ite
  · exact .tree rfl
  apply Parses.bind (exprRaw limit).expression
  · exact .null
  intro expr hexpr
  apply Parses.skip
  intro closed
  apply Parses.ite
  · exact .null
  · exact .tree (congrArg (fun e => Stmt.expr _ (some e)) hexpr)

theorem parseReturnStmt_raw (limit : Nat) : Parses RawStmt (parseReturnStmt limit) := by
  rw [parseReturnStmt]
  apply Parses.skip
  intro tok
  apply Parses.skip
  intro semi
  apply Parses.ite
  · exact .tree rfl
  apply Parses.bind (exprRaw limit).expression
  · exact .null
  intro value hvalue
  apply Parses.skip
  intro closed
  apply Parses.ite
  · exact .null
  · exact .tree (congrArg (fun e => Stmt.ret _ (some e)) hvalue)

structure StmtRaw (limit : Nat) : Prop where
  statement : Parses RawStmt (parseStatement limit)
  compound : Parses RawBlock (parseCompoundStmt limit)
  stmts : ∀ stmts, RawList Stmt.raw stmts →
    Gives (RawList Stmt.raw) (parseStmts limit stmts)
  selection : Parses RawStmt (parseSelectionStmt limit)
  iteration : Parses RawStmt (parseIterationStmt limit)

section Statement

variable {limit : Nat} (ih : StmtRaw limit)

include ih

theorem parseStatement_raw : Parses RawStmt (parseStatement (limit + 1)) := by
  rw [parseStatement]
  apply Parses.skip
  intro tok
  cases tok.kind with
  | lBrace =>
      apply Parses.bind ih.compound
      · exact .null
      intro block hblock
      exact .tree hblock.toStmt
  | kwIf => exact ih.selection
  | kwWhile => exact ih.iteration
  | kwReturn => exact parseReturnStmt_raw limit
  | semicolon | identifier | number | lParen => exact parseExpressionStmt_raw limit
  | _ => exact Parses.skip fun _ => .null

theorem parseCompoundStmt_raw : Parses RawBlock (parseCompoundStmt (limit + 1)) := by
  rw [parseCompoundStmt]
  apply Parses.skip
  intro tok
  apply Parses.skip
  intro opened
  apply Parses.ite
  · exact .null
  apply Gives.bind (parseLocalDecls_raw limit [] rfl)
  intro localDecls hlocals
  apply Gives.bind (ih.stmts [] rfl)
  intro stmts hstmts
  apply Parses.skip
  intro closed
  apply Parses.ite
  · exact .null
  · apply Parses.tree
    unfold RawBlock CompoundStmt.raw
    dsimp only
    rw [hlocals, rawStmts_eq_map, hstmts]

theorem parseStmts_raw (stmts : List Stmt) (hstmts : RawList Stmt.raw stmts) :
    Gives (RawList Stmt.raw) (parseStmts (limit + 1) stmts) := by
  rw [parseStmts]
  apply Gives.skip
  intro closed
  apply Gives.skip
  intro ended
  apply Gives.ite
  · exact .pure hstmts
  apply Gives.skip
  intro before
  apply Gives.bind ih.statement
  intro stmt hstmt
  cases stmt with
  | some stmt => exact ih.stmts _ (hstmts.snoc (hstmt stmt rfl))
  | none =>
      apply Gives.skip
      intro _
      apply Gives.skip
      intro after
      apply Gives.ite
      · exact Gives.skip fun _ => ih.stmts stmts hstmts
      · exact ih.stmts stmts hstmts

theorem parseSelectionStmt_raw : Parses RawStmt (parseSelectionStmt (limit + 1)) := by
  rw [parseSelectionStmt]
  apply Parses.skip
  intro tok
  apply Parses.skip
  intro opened
  apply Parses.ite
  · exact .null
  apply Parses.bind (exprRaw limit).expression
  · exact .null
  intro cond hcond
  apply Parses.skip
  intro closed
  apply Parses.ite
  · exact .null
  apply Parses.bind ih.statement
  · exact .null
  intro thenStmt hthen
  unfold Raw at hcond
  unfold RawStmt at hthen
  apply Parses.skip
  intro hasElse
  apply Parses.ite
  · apply Parses.bind ih.statement
    · exact .null
    intro elseStmt helse
    unfold RawStmt at helse
    apply Parses.tree
    rw [RawStmt, Stmt.raw, hcond, hthen, helse]
  · apply Parses.tree
    rw [RawStmt, Stmt.raw, hcond, hthen]

theorem parseIterationStmt_raw : Parses RawStmt (parseIterationStmt (limit + 1)) := by
  rw [parseIterationStmt]
  apply Parses.skip
  intro tok
  apply Parses.skip
  intro opened
  apply Parses.ite
  · exact .null
  apply Parses.bind (exprRaw limit).expression
  · exact .null
  intro cond hcond
  apply Parses.skip
  intro closed
  apply Parses.ite
  · exact .null
  apply Parses.bind ih.statement
  · exact .null
  intro body hbody
  apply Parses.tree
  rw [RawStmt, Stmt.raw, hcond, hbody]

end Statement

theorem stmtRaw (limit : Nat) : StmtRaw limit := by
  induction limit with
  | zero =>
      constructor <;> intros
      all_goals
        constructor
        intro p a p' h
        cases h
  | succ limit ih =>
      exact {
        statement := parseStatement_raw ih
        compound := parseCompoundStmt_raw ih
        stmts := parseStmts_raw ih
        selection := parseSelectionStmt_raw ih
        iteration := parseIterationStmt_raw ih }

/-! Functions and the program. -/

def RawFun (decl : FunDecl) : Prop := decl.raw = decl

def RawDecl (decl : Decl) : Prop := decl.raw = decl

theorem finishFunDeclaration_raw (limit : Nat) (type : CType) (typeLoc : SourceLocation)
    (name : Token) : Parses RawFun (finishFunDeclaration limit type typeLoc name) := by
  rw [finishFunDeclaration]
  apply Parses.skip
  intro opened
  apply Parses.ite
  · exact .null
  apply Parses.bind (parseParams_raw limit)
  · exact .null
  intro params hparams
  apply Parses.skip
  intro closed
  apply Parses.ite
  · exact .null
  apply Parses.skip
  intro brace
  apply Parses.ite
  · exact Parses.skip fun _ => Parses.skip fun _ => .null
  apply Parses.bind (stmtRaw limit).compound
  · exact .null
  intro body hbody
  unfold RawBlock at hbody
  apply Parses.tree
  unfold RawFun FunDecl.raw
  dsimp only
  rw [hparams, hbody]

theorem parseDeclaration_raw (limit : Nat) :
    Parses RawDecl (parseDeclaration limit) := by
  rw [parseDeclaration]
  apply Parses.skip
  intro type
  cases type with
  | none => exact .null
  | some type =>
      apply Parses.skip
      intro identifier
      apply Parses.ite
      · exact Parses.skip fun _ => Parses.skip fun _ => .null
      apply Parses.skip
      intro name
      apply Parses.skip
      intro paren
      apply Parses.ite
      · apply Parses.bind (finishFunDeclaration_raw limit _ _ _)
        · exact .null
        intro decl hdecl
        exact .tree (congrArg Decl.fun hdecl)
      · apply Parses.bind (finishVarDeclaration_raw _ _ _)
        · exact .null
        intro decl hdecl
        exact .tree (congrArg Decl.var hdecl)

theorem parseDecls_raw (limit : Nat) (decls : List Decl)
    (hdecls : RawList Decl.raw decls) :
    Gives (RawList Decl.raw) (parseDecls limit decls) := by
  induction limit generalizing decls with
  | zero =>
      constructor
      intro p a p' h
      cases h
  | succ limit ih =>
      rw [parseDecls]
      apply Gives.skip
      intro ended
      apply Gives.ite
      · exact .pure hdecls
      apply Gives.skip
      intro before
      apply Gives.bind (parseDeclaration_raw limit)
      intro decl hdecl
      cases decl with
      | some decl => exact ih _ (hdecls.snoc (hdecl decl rfl))
      | none =>
          apply Gives.skip
          intro _
          apply Gives.skip
          intro after
          apply Gives.ite
          · exact Gives.skip fun _ => ih decls hdecls
          · exact ih decls hdecls

/-- The parser annotates nothing: every tree it returns is its own raw form. -/
theorem parseProgram_raw {p p' : Parser} {program : Program}
    (h : parseProgram p = some (program, p')) : program.raw = program := by
  have hgives : Gives (fun program => program.raw = program)
      (parseProgramWith (recursionLimit p.tokens)) := by
    rw [parseProgramWith]
    apply Gives.skip
    intro ended
    apply Gives.ite
    · exact Gives.skip fun _ => Gives.skip fun _ => .pure rfl
    apply Gives.bind (parseDecls_raw _ [] rfl)
    intro decls hdecls
    exact .pure (congrArg Program.mk hdecls)
  exact hgives.result p program p' h

end Parser

end CMinus
