import CMinus.AST

namespace CMinus

/-! The recursive-descent parser.  `none` as the result of a parsing function means
that its recursion limit was reached; a null pointer of the source is the `none`
inside the result. -/

structure Parser where
  tokens : List Token
  pos : Nat := 0
  diags : Diagnostics := []
deriving Repr, Inhabited

def ParserM (α : Type) : Type := Parser → Option (α × Parser)

instance : Monad ParserM where
  pure a := fun p => some (a, p)
  bind action next := fun p => (action p).bind fun r => next r.1 r.2

def describeToken (tok : Token) : String :=
  match tok.kind with
  | .endOfFile => "end of file"
  | .identifier => "identifier '" ++ tok.lexeme ++ "'"
  | .number => "number '" ++ tok.lexeme ++ "'"
  | _ => "'" ++ tok.lexeme ++ "'"

def expectedName (kind : TokenKind) : String :=
  match kind with
  | .identifier => "an identifier"
  | .number => "a number"
  | _ => "'" ++ tokenKindSpelling kind ++ "'"

def relopFor : TokenKind → BinaryOp
  | .less => .lessThan
  | .lessEqual => .lessEqual
  | .greater => .greaterThan
  | .greaterEqual => .greaterEqual
  | .equalEqual => .equal
  | _ => .notEqual

/-! `Parser::Parser`: the scanner has reported the `Error` tokens already, and the
list always ends in an `EndOfFile`. -/

def Parser.make (tokens : List Token) (diags : Diagnostics) : Parser :=
  let kept := tokens.filter (fun tok => !tok.is .error)
  match kept.getLast? with
  | none => { tokens := [{}], diags := diags }
  | some last =>
      if last.is .endOfFile then { tokens := kept, diags := diags }
      else { tokens := kept ++ [{ loc := last.loc }], diags := diags }

namespace Parser

/-! Token access. -/

def peekAt (p : Parser) (ahead : Nat) : Token :=
  if h : p.pos + ahead < p.tokens.length then p.tokens[p.pos + ahead]
  else p.tokens.getLastD {}

def previousToken (p : Parser) : Token :=
  if 0 < p.pos then p.tokens.getD (p.pos - 1) {} else p.tokens.headD {}

def peek : ParserM Token := fun p => some (p.peekAt 0, p)

def peekNext : ParserM Token := fun p => some (p.peekAt 1, p)

def previous : ParserM Token := fun p => some (p.previousToken, p)

def position : ParserM Nat := fun p => some (p.pos, p)

def atEnd : ParserM Bool := fun p => some ((p.peekAt 0).is .endOfFile, p)

def check (kind : TokenKind) : ParserM Bool := fun p =>
  some ((p.peekAt 0).is kind, p)

def advanced (p : Parser) : Parser :=
  if (p.peekAt 0).is .endOfFile then p else { p with pos := p.pos + 1 }

def advance : ParserM Token := fun p =>
  some (p.advanced.previousToken, p.advanced)

def «match» (kind : TokenKind) : ParserM Bool := do
  if ← check kind then
    let _ ← advance
    return true
  return false

def errorAt (tok : Token) (message : String) : ParserM Unit := fun p =>
  some ((), { p with diags := p.diags.error tok.loc message })

def expect (kind : TokenKind) (context : String) : ParserM Bool := do
  if ← check kind then
    let _ ← advance
    return true
  let tok ← peek
  errorAt tok ("expected " ++ expectedName kind ++ " " ++ context ++ ", found " ++
    describeToken tok)
  return false

/-! Panic-mode recovery. -/

def synchronizeDeclarationFrom : Nat → Nat → ParserM Unit
  | 0, _ => fun _ => none
  | limit + 1, depth => do
      if ← atEnd then return
      let tok ← peek
      if depth = 0 ∧ tok.kind.isTypeSpecifier then return
      let depth :=
        if tok.is .lBrace then depth + 1
        else if tok.is .rBrace ∧ 0 < depth then depth - 1
        else depth
      let _ ← advance
      synchronizeDeclarationFrom limit depth

def synchronizeDeclaration : ParserM Unit := fun p =>
  synchronizeDeclarationFrom (p.tokens.length + 1) 0 p

def startsStatementAfterError : TokenKind → Bool
  | .kwIf | .kwWhile | .kwReturn | .kwInt | .kwVoid | .lBrace | .rBrace => true
  | _ => false

def synchronizeStatementFrom : Nat → ParserM Unit
  | 0 => fun _ => none
  | limit + 1 => do
      if ← atEnd then return
      if (← previous).is .semicolon then return
      if startsStatementAfterError (← peek).kind then return
      let _ ← advance
      synchronizeStatementFrom limit

def synchronizeStatement : ParserM Unit := fun p =>
  synchronizeStatementFrom (p.tokens.length + 1) p

/-! Declarations, rules 3-9. -/

def parseTypeSpecifier : ParserM (Option (CType × SourceLocation)) := do
  let loc := (← peek).loc
  if ← «match» .kwInt then return some (.int, loc)
  if ← «match» .kwVoid then return some (.void, loc)
  let tok ← peek
  errorAt tok ("expected 'int' or 'void', found " ++ describeToken tok)
  return none

def finishVarDeclaration (type : CType) (typeLoc : SourceLocation) (name : Token) :
    ParserM (Option VarDecl) := do
  let mut decl : VarDecl :=
    { loc := name.loc, name := name.lexeme, typeLoc := typeLoc, declaredType := type }
  if ← «match» .lBracket then
    if !(← check .number) then
      let tok ← peek
      errorAt tok ("expected an array size, found " ++ describeToken tok)
      return none
    let size ← advance
    decl := { decl with isArray := true, arraySize := size.value }
    if !(← expect .rBracket "after the array size") then return none
  if ← check .comma then
    errorAt (← peek) ("C- declares one variable per declaration; write a " ++
      "separate declaration for each name")
    return none
  if !(← expect .semicolon ("after the declaration of '" ++ name.lexeme ++ "'")) then
    return none
  return some decl

def parseParam : ParserM (Option ParamDecl) := do
  let some (type, typeLoc) ← parseTypeSpecifier | return none
  if !(← check .identifier) then
    let tok ← peek
    errorAt tok ("expected a parameter name, found " ++ describeToken tok)
    return none
  let name ← advance
  let mut param : ParamDecl :=
    { loc := name.loc, name := name.lexeme, typeLoc := typeLoc, declaredType := type }
  if ← «match» .lBracket then
    param := { param with isArray := true }
    if ← check .number then
      errorAt (← peek)
        ("an array parameter has no size; write '" ++ name.lexeme ++ "[]'")
      return none
    if !(← expect .rBracket "after '[' in an array parameter") then return none
  return some param

def parseParamsFrom : Nat → List ParamDecl → ParserM (Option (List ParamDecl))
  | 0, _ => fun _ => none
  | limit + 1, params => do
      let some param ← parseParam | return none
      let params := params ++ [param]
      if !(← «match» .comma) then return some params
      parseParamsFrom limit params

def parseParams (limit : Nat) : ParserM (Option (List ParamDecl)) := do
  if (← check .kwVoid) && (← peekNext).is .rParen then
    let _ ← advance
    return some []
  if ← check .rParen then
    errorAt (← peek) "C- has no empty parameter list; write '(void)'"
    return none
  parseParamsFrom limit []

def parseLocalVarDeclaration : ParserM (Option VarDecl) := do
  let some (type, typeLoc) ← parseTypeSpecifier | return none
  if !(← check .identifier) then
    let tok ← peek
    errorAt tok ("expected an identifier after '" ++ typeName type ++ "', found " ++
      describeToken tok)
    return none
  let name ← advance
  if ← check .lParen then
    errorAt name "functions cannot be declared inside a block in C-"
    return none
  finishVarDeclaration type typeLoc name

/-! The loop of `parseCompoundStmt` over the local declarations, rule 11. -/

def parseLocalDecls : Nat → List VarDecl → ParserM (List VarDecl)
  | 0, _ => fun _ => none
  | limit + 1, decls => do
      if !(← peek).kind.isTypeSpecifier then return decls
      let before ← position
      if let some decl ← parseLocalVarDeclaration then
        parseLocalDecls limit (decls ++ [decl])
      else
        synchronizeStatement
        if (← position) = before then
          let _ ← advance
        parseLocalDecls limit decls

/-! Statements, rules 10-17, and expressions, rules 18-29. -/

mutual

def parseExpression : Nat → ParserM (Option Expr)
  | 0 => fun _ => none
  | limit + 1 => do
      let some lhs ← parseSimpleExpression limit | return none
      if !(← check .assign) then return some lhs
      let eq ← advance
      let some value ← parseExpression limit | return none
      match lhs with
      | .var head index =>
          if head.info.parenthesized then
            errorAt eq
              "left operand of '=' must be a variable or an array element"
            return none
          return some (.assign { loc := head.info.loc } eq.loc head index value)
      | _ =>
          errorAt eq "left operand of '=' must be a variable or an array element"
          return none

def parseSimpleExpression : Nat → ParserM (Option Expr)
  | 0 => fun _ => none
  | limit + 1 => do
      let some lhs ← parseAdditiveExpression limit | return none
      if !(← peek).kind.isRelop then return some lhs
      let op ← advance
      let some rhs ← parseAdditiveExpression limit | return none
      let tok ← peek
      if tok.kind.isRelop then
        errorAt tok ("relational operators do not associate in C-; parenthesize " ++
          "one of the comparisons")
        return none
      return some (.binary { loc := lhs.loc } (relopFor op.kind) op.loc lhs rhs)

def parseAdditiveExpression : Nat → ParserM (Option Expr)
  | 0 => fun _ => none
  | limit + 1 => do
      let some node ← parseTerm limit | return none
      parseAddops limit node

-- The loop of `parseAdditiveExpression`: `node` is what it has folded so far.
def parseAddops : Nat → Expr → ParserM (Option Expr)
  | 0, _ => fun _ => none
  | limit + 1, node => do
      if !(← peek).kind.isAddop then return some node
      let op ← advance
      let some rhs ← parseTerm limit | return none
      parseAddops limit (.binary { loc := node.loc }
        (if op.is .plus then .add else .sub) op.loc node rhs)

def parseTerm : Nat → ParserM (Option Expr)
  | 0 => fun _ => none
  | limit + 1 => do
      let some node ← parseFactor limit | return none
      parseMulops limit node

def parseMulops : Nat → Expr → ParserM (Option Expr)
  | 0, _ => fun _ => none
  | limit + 1, node => do
      if !(← peek).kind.isMulop then return some node
      let op ← advance
      let some rhs ← parseFactor limit | return none
      parseMulops limit (.binary { loc := node.loc }
        (if op.is .star then .mul else .div) op.loc node rhs)

def parseFactor : Nat → ParserM (Option Expr)
  | 0 => fun _ => none
  | limit + 1 => do
      let tok ← peek
      match tok.kind with
      | .lParen =>
          let _ ← advance
          let some inner ← parseExpression limit | return none
          if !(← expect .rParen "after the parenthesized expression") then
            return none
          return some inner.parenthesize
      | .number =>
          let _ ← advance
          return some (.num { loc := tok.loc } tok.value)
      | .identifier =>
          let _ ← advance
          if ← «match» .lParen then
            let some args ← parseArgs limit | return none
            if !(← expect .rParen "after the argument list") then return none
            return some (.call { loc := tok.loc } tok.lexeme args none)
          let head : VarHead := { info := { loc := tok.loc }, name := tok.lexeme }
          if ← «match» .lBracket then
            let some index ← parseExpression limit | return none
            if !(← expect .rBracket "after the array subscript") then return none
            return some (.var head (some index))
          return some (.var head none)
      | .minus =>
          errorAt tok "C- has no unary minus; write '0 - x' instead"
          return none
      | _ =>
          errorAt tok ("expected an expression, found " ++ describeToken tok)
          return none

def parseArgs : Nat → ParserM (Option (List Expr))
  | 0 => fun _ => none
  | limit + 1 => do
      if ← check .rParen then return some []
      parseArgsFrom limit []

def parseArgsFrom : Nat → List Expr → ParserM (Option (List Expr))
  | 0, _ => fun _ => none
  | limit + 1, args => do
      let some arg ← parseExpression limit | return none
      let args := args ++ [arg]
      if !(← «match» .comma) then return some args
      parseArgsFrom limit args

end

def parseExpressionStmt : Nat → ParserM (Option Stmt)
  | limit => do
      let loc := (← peek).loc
      if ← «match» .semicolon then return some (.expr loc none)
      let some expr ← parseExpression limit | return none
      if !(← expect .semicolon "after the expression") then return none
      return some (.expr loc (some expr))

def parseReturnStmt : Nat → ParserM (Option Stmt)
  | limit => do
      let loc := (← advance).loc
      if ← «match» .semicolon then return some (.ret loc none)
      let some value ← parseExpression limit | return none
      if !(← expect .semicolon "after the return value") then return none
      return some (.ret loc (some value))

mutual

def parseStatement : Nat → ParserM (Option Stmt)
  | 0 => fun _ => none
  | limit + 1 => do
      let tok ← peek
      match tok.kind with
      | .lBrace =>
          let some block ← parseCompoundStmt limit | return none
          return some block.toStmt
      | .kwIf => parseSelectionStmt limit
      | .kwWhile => parseIterationStmt limit
      | .kwReturn => parseReturnStmt limit
      | .semicolon | .identifier | .number | .lParen => parseExpressionStmt limit
      | .kwInt | .kwVoid =>
          errorAt tok "declarations must appear before any statement in a block"
          return none
      | _ =>
          errorAt tok ("expected a statement, found " ++ describeToken tok)
          return none

def parseCompoundStmt : Nat → ParserM (Option CompoundStmt)
  | 0 => fun _ => none
  | limit + 1 => do
      let loc := (← peek).loc
      if !(← expect .lBrace "to begin a block") then return none
      let localDecls ← parseLocalDecls limit []
      let stmts ← parseStmts limit []
      if !(← expect .rBrace "to close the block") then return none
      return some { loc := loc, localDecls := localDecls, stmts := stmts }

-- The loop of `parseCompoundStmt` over the statements, rule 12.
def parseStmts : Nat → List Stmt → ParserM (List Stmt)
  | 0, _ => fun _ => none
  | limit + 1, stmts => do
      if (← check .rBrace) || (← atEnd) then return stmts
      let before ← position
      if let some stmt ← parseStatement limit then
        parseStmts limit (stmts ++ [stmt])
      else
        synchronizeStatement
        if (← position) = before then
          let _ ← advance
        parseStmts limit stmts

def parseSelectionStmt : Nat → ParserM (Option Stmt)
  | 0 => fun _ => none
  | limit + 1 => do
      let loc := (← advance).loc
      if !(← expect .lParen "after 'if'") then return none
      let some cond ← parseExpression limit | return none
      if !(← expect .rParen "after the condition of 'if'") then return none
      let some thenStmt ← parseStatement limit | return none
      if ← «match» .kwElse then
        let some elseStmt ← parseStatement limit | return none
        return some (.ifs loc cond thenStmt (some elseStmt))
      return some (.ifs loc cond thenStmt none)

def parseIterationStmt : Nat → ParserM (Option Stmt)
  | 0 => fun _ => none
  | limit + 1 => do
      let loc := (← advance).loc
      if !(← expect .lParen "after 'while'") then return none
      let some cond ← parseExpression limit | return none
      if !(← expect .rParen "after the condition of 'while'") then return none
      let some body ← parseStatement limit | return none
      return some (.whiles loc cond body)

end

def finishFunDeclaration (limit : Nat) (type : CType) (typeLoc : SourceLocation)
    (name : Token) : ParserM (Option FunDecl) := do
  if !(← expect .lParen "after the function name") then return none
  let some params ← parseParams limit | return none
  if !(← expect .rParen "after the parameter list") then return none
  if !(← check .lBrace) then
    let tok ← peek
    errorAt tok ("expected '\x7b' to begin the body of '" ++ name.lexeme ++
      "'; C- has no function prototypes, found " ++ describeToken tok)
    return none
  let some body ← parseCompoundStmt limit | return none
  return some
    { loc := name.loc, name := name.lexeme, typeLoc := typeLoc, returnType := type
      params := params, body := body }

def parseDeclaration (limit : Nat) : ParserM (Option Decl) := do
  let some (type, typeLoc) ← parseTypeSpecifier | return none
  if !(← check .identifier) then
    let tok ← peek
    errorAt tok ("expected an identifier after '" ++ typeName type ++ "', found " ++
      describeToken tok)
    return none
  let name ← advance
  if ← check .lParen then
    let some decl ← finishFunDeclaration limit type typeLoc name | return none
    return some (.fun decl)
  let some decl ← finishVarDeclaration type typeLoc name | return none
  return some (.var decl)

def parseDecls : Nat → List Decl → ParserM (List Decl)
  | 0, _ => fun _ => none
  | limit + 1, decls => do
      if ← atEnd then return decls
      let before ← position
      if let some decl ← parseDeclaration limit then
        parseDecls limit (decls ++ [decl])
      else
        synchronizeDeclaration
        if (← position) = before then
          let _ ← advance
        parseDecls limit decls

def parseProgramWith (limit : Nat) : ParserM Program := do
  if ← atEnd then
    errorAt (← peek) "a program must contain at least one declaration"
    return {}
  let decls ← parseDecls limit []
  return { decls := decls }

/-! A limit that no parse reaches. -/

def recursionLimit (tokens : List Token) : Nat := 10 * tokens.length + 10

def parseProgram (p : Parser) : Option (Program × Parser) :=
  parseProgramWith (recursionLimit p.tokens) p

end Parser

end CMinus
