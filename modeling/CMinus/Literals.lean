import CMinus.Analyzer.Scoping
import CMinus.Driver
import CMinus.IRGen
import CMinus.Lexer.Scan
import CMinus.MLIRGen

namespace CMinus

open Grammar

/-! The NUMs of a tree, in the order of the source: the sizes of the arrays it declares
and the literals of its expressions. -/

inductive Num where
  | size (value : Int)
  | literal (value : Int)
deriving Repr, DecidableEq

def Num.value : Num → Int
  | .size value => value
  | .literal value => value

mutual

def Expr.nums : Expr → List Num
  | .num _ value => [.literal value]
  | .var _ none => []
  | .var _ (some index) => index.nums
  | .call _ _ args _ => numsOfArgs args
  | .assign _ _ _ none value => value.nums
  | .assign _ _ _ (some index) value => index.nums ++ value.nums
  | .binary _ _ _ lhs rhs => lhs.nums ++ rhs.nums

def numsOfArgs : List Expr → List Num
  | [] => []
  | arg :: args => arg.nums ++ numsOfArgs args

end

def VarDecl.nums (decl : VarDecl) : List Num :=
  if decl.isArray then [.size decl.arraySize] else []

mutual

def Stmt.nums : Stmt → List Num
  | .compound _ localDecls stmts => localDecls.flatMap VarDecl.nums ++ numsOfStmts stmts
  | .expr _ none => []
  | .expr _ (some expr) => expr.nums
  | .ifs _ cond thenStmt none => cond.nums ++ thenStmt.nums
  | .ifs _ cond thenStmt (some elseStmt) => cond.nums ++ (thenStmt.nums ++ elseStmt.nums)
  | .whiles _ cond body => cond.nums ++ body.nums
  | .ret _ none => []
  | .ret _ (some value) => value.nums

def numsOfStmts : List Stmt → List Num
  | [] => []
  | stmt :: stmts => stmt.nums ++ numsOfStmts stmts

end

def CompoundStmt.nums (block : CompoundStmt) : List Num := block.toStmt.nums

def Decl.nums : Decl → List Num
  | .var decl => decl.nums
  | .fun decl => decl.body.nums

def Program.nums (program : Program) : List Num := program.decls.flatMap Decl.nums

/-! Locations and what analysis writes into a tree do not touch them. -/

@[simp] theorem Expr.nums_parenthesize (e : Expr) : e.parenthesize.nums = e.nums := by
  cases e with
  | num => rfl
  | var head index => cases index <;> rfl
  | call => rfl
  | assign info opLoc target index value => cases index <;> rfl
  | binary => rfl

theorem numsOfArgs_eq (args : List Expr) : numsOfArgs args = args.flatMap Expr.nums := by
  induction args with
  | nil => rfl
  | cons arg args ih => rw [numsOfArgs, ih, List.flatMap_cons]

theorem numsOfStmts_eq (stmts : List Stmt) : numsOfStmts stmts = stmts.flatMap Stmt.nums := by
  induction stmts with
  | nil => rfl
  | cons stmt stmts ih => rw [numsOfStmts, ih, List.flatMap_cons]

mutual

theorem Expr.nums_bare : ∀ e : Expr, e.raw.bare.nums = e.nums
  | .num _ _ => rfl
  | .var _ none => rfl
  | .var _ (some index) => index.nums_bare
  | .call _ _ args _ => nums_bareArgs args
  | .assign _ _ _ none value => value.nums_bare
  | .assign _ _ _ (some index) value => by
      simp only [Expr.raw, Expr.bare, Expr.nums, index.nums_bare, value.nums_bare]
  | .binary _ _ _ lhs rhs => by
      simp only [Expr.raw, Expr.bare, Expr.nums, lhs.nums_bare, rhs.nums_bare]

theorem nums_bareArgs : ∀ args : List Expr,
    numsOfArgs (bareArgs (rawArgs args)) = numsOfArgs args
  | [] => rfl
  | arg :: args => by
      simp only [rawArgs, bareArgs, numsOfArgs, arg.nums_bare, nums_bareArgs args]

end

theorem nums_bareLocals (decls : List VarDecl) :
    ((decls.map VarDecl.raw).map VarDecl.bare).flatMap VarDecl.nums =
      decls.flatMap VarDecl.nums := by
  rw [List.map_map, List.flatMap_map]
  rfl

mutual

theorem Stmt.nums_bare : ∀ stmt : Stmt, stmt.raw.bare.nums = stmt.nums
  | .compound _ localDecls stmts => by
      simp only [Stmt.raw, Stmt.bare, Stmt.nums, nums_bareLocals, nums_bareStmts stmts]
  | .expr _ none => rfl
  | .expr _ (some expr) => expr.nums_bare
  | .ifs _ cond thenStmt none => by
      simp only [Stmt.raw, Stmt.bare, Stmt.nums, cond.nums_bare, thenStmt.nums_bare]
  | .ifs _ cond thenStmt (some elseStmt) => by
      simp only [Stmt.raw, Stmt.bare, Stmt.nums, cond.nums_bare, thenStmt.nums_bare,
        elseStmt.nums_bare]
  | .whiles _ cond body => by
      simp only [Stmt.raw, Stmt.bare, Stmt.nums, cond.nums_bare, body.nums_bare]
  | .ret _ none => rfl
  | .ret _ (some value) => value.nums_bare

theorem nums_bareStmts : ∀ stmts : List Stmt,
    numsOfStmts (bareStmts (rawStmts stmts)) = numsOfStmts stmts
  | [] => rfl
  | stmt :: stmts => by
      simp only [rawStmts, bareStmts, numsOfStmts, stmt.nums_bare, nums_bareStmts stmts]

end

theorem Decl.nums_bare (decl : Decl) : decl.raw.bare.nums = decl.nums := by
  cases decl with
  | var decl => rfl
  | «fun» decl => exact decl.body.toStmt.nums_bare

theorem Program.nums_bare (program : Program) : program.raw.bare.nums = program.nums := by
  unfold Program.nums Program.bare Program.raw
  rw [List.map_map, List.flatMap_map]
  apply List.flatMap_congr
  intro decl _
  exact decl.nums_bare

/-! The NUMs of a tree are the ones its derivation spans. -/

def numbers (w : List Token) : List Int :=
  (w.filter fun tok => tok.is .number).map Token.value

@[simp] theorem numbers_nil : numbers [] = [] := rfl

@[simp] theorem numbers_append (v w : List Token) :
    numbers (v ++ w) = numbers v ++ numbers w := by
  simp [numbers]

theorem numbers_cons (tok : Token) (w : List Token) :
    numbers (tok :: w) = if tok.kind = .number then tok.value :: numbers w else numbers w := by
  unfold numbers
  rw [List.filter_cons]
  by_cases hkind : tok.kind = .number
  · rw [if_pos hkind, if_pos (Token.is_eq_true.mpr hkind), List.map_cons]
  · rw [if_neg hkind, if_neg]
    simpa using hkind

def values (nums : List Num) : List Int := nums.map Num.value

@[simp] theorem values_append (xs ys : List Num) :
    values (xs ++ ys) = values xs ++ values ys := List.map_append

theorem nums_assign (info : ExprInfo) (opLoc : SourceLocation) (target : VarHead)
    (index : Option Expr) (value : Expr) :
    (Expr.assign info opLoc target index value).nums =
      (Expr.var target index).nums ++ value.nums := by
  cases index <;> rfl

theorem typeSpecifier_ne_number {kind : TokenKind} {t : CType}
    (h : TypeSpecifier kind t) : kind ≠ .number := by
  cases h <;> decide

theorem relop_ne_number {kind : TokenKind} {op : BinaryOp} (h : Relop kind op) :
    kind ≠ .number := by
  cases h <;> decide

theorem addop_ne_number {kind : TokenKind} {op : BinaryOp} (h : Addop kind op) :
    kind ≠ .number := by
  cases h <;> decide

theorem mulop_ne_number {kind : TokenKind} {op : BinaryOp} (h : Mulop kind op) :
    kind ≠ .number := by
  cases h <;> decide

theorem values_binary {v w : List Token} {tok : Token} {op : BinaryOp} {lhs rhs : Expr}
    (hlhs : values lhs.nums = numbers v) (hop : tok.kind ≠ .number)
    (hrhs : values rhs.nums = numbers w) :
    values (Expr.binary {} op {} lhs rhs).nums = numbers (v ++ tok :: w) := by
  rw [Expr.nums, values_append, hlhs, hrhs, numbers_append, numbers_cons, if_neg hop]

theorem values_expression {w : List Token} {e : Expr} (h : Expression w e) :
    values e.nums = numbers w := by
  refine @Expression.rec (fun w e _ => values e.nums = numbers w)
    (fun w head index _ => values (Expr.var head index).nums = numbers w)
    (fun w e _ => values e.nums = numbers w) (fun w e _ => values e.nums = numbers w)
    (fun w e _ => values e.nums = numbers w) (fun w e _ => values e.nums = numbers w)
    (fun w e _ => values e.nums = numbers w)
    (fun w args _ => values (numsOfArgs args) = numbers w)
    (fun w args _ => values (numsOfArgs args) = numbers w) ?assign ?simple ?scalar ?element
    ?compare ?additive ?addFold ?term ?mulFold ?factor ?paren ?var ?call ?num ?callMk ?list
    ?empty ?argSnoc ?argOne w e h
  case assign =>
    intro v w eq target index value _ heq _ hv hw
    rw [nums_assign, values_append, hv, hw]
    simp [numbers_cons, heq]
  case scalar =>
    intro name hname
    simp [numbers_cons, hname, Expr.nums, values]
  case element =>
    intro name lb rb w index hname hlb _ hrb hw
    rw [Expr.nums, hw]
    simp [numbers_cons, hname, hlb, hrb]
  case compare =>
    intro v w tok op lhs rhs _ htok _ hv hw
    exact values_binary hv (relop_ne_number htok) hw
  case addFold =>
    intro v w tok op lhs rhs _ htok _ hv hw
    exact values_binary hv (addop_ne_number htok) hw
  case mulFold =>
    intro v w tok op lhs rhs _ htok _ hv hw
    exact values_binary hv (mulop_ne_number htok) hw
  case paren =>
    intro lp rp w e hlp _ hrp hw
    rw [Expr.nums_parenthesize, hw]
    simp [numbers_cons, hlp, hrp]
  case num =>
    intro tok htok
    simp [numbers_cons, htok, Expr.nums, values, Num.value]
  case callMk =>
    intro name lp rp w args hname hlp _ hrp hw
    rw [Expr.nums, hw]
    simp [numbers_cons, hname, hlp, hrp]
  case empty => rfl
  case argSnoc =>
    intro v w comma args arg _ hcomma _ hv hw
    rw [numsOfArgs_eq] at hv
    rw [numsOfArgs_eq, List.flatMap_append, values_append, hv]
    simp [numbers_cons, hcomma, hw]
  case argOne =>
    intro w arg _ hw
    simpa [numsOfArgs] using hw
  case simple | additive | term | factor | var | call | list =>
    intros
    assumption

theorem values_varDeclaration {w : List Token} {decl : VarDecl}
    (h : VarDeclaration w decl) : values decl.nums = numbers w := by
  cases h with
  | scalar htype hname hsemi =>
      simp [numbers_cons, typeSpecifier_ne_number htype, hname, hsemi, VarDecl.nums, values]
  | array htype hname hlb hsize hrb hsemi =>
      simp [numbers_cons, typeSpecifier_ne_number htype, hname, hlb, hsize, hrb, hsemi,
        VarDecl.nums, values, Num.value]

theorem numbers_params {w : List Token} {params : List ParamDecl} (h : Params w params) :
    numbers w = [] := by
  have hone : ∀ {w : List Token} {param : ParamDecl}, Param w param → numbers w = [] := by
    intro w param h
    cases h with
    | scalar htype hname => simp [numbers_cons, typeSpecifier_ne_number htype, hname]
    | array htype hname hlb hrb =>
        simp [numbers_cons, typeSpecifier_ne_number htype, hname, hlb, hrb]
  cases h with
  | void hvoid => simp [numbers_cons, hvoid]
  | list hlist =>
      induction hlist with
      | one hparam => exact hone hparam
      | snoc _ hcomma hparam ih => simp [numbers_cons, ih, hcomma, hone hparam]

theorem values_localDeclarations {w : List Token} {decls : List VarDecl}
    (h : LocalDeclarations w decls) : values (decls.flatMap VarDecl.nums) = numbers w := by
  induction h with
  | empty => rfl
  | snoc _ hdecl ih => simp [ih, values_varDeclaration hdecl]

theorem values_compound {w : List Token} {block : CompoundStmt} (h : Compound w block) :
    values block.nums = numbers w := by
  refine @Compound.rec (fun w block _ => values block.nums = numbers w)
    (fun w stmts _ => values (numsOfStmts stmts) = numbers w)
    (fun w stmt _ => values stmt.nums = numbers w)
    ?mk ?snoc ?empty ?expr ?nothing ?compound ?ifThen ?ifElse ?iteration ?returnVoid
    ?returnValue w block h
  case mk =>
    intro lb rb v w decls stmts hlb hdecls _ hrb hw
    rw [CompoundStmt.nums, CompoundStmt.toStmt, Stmt.nums, values_append,
      values_localDeclarations hdecls, hw]
    simp [numbers_cons, hlb, hrb]
  case snoc =>
    intro v w stmts stmt _ _ hv hw
    rw [numsOfStmts_eq] at hv
    rw [numsOfStmts_eq, List.flatMap_append, values_append, hv]
    simp [hw]
  case empty => rfl
  case expr =>
    intro w semi e he hsemi
    rw [Stmt.nums, values_expression he]
    simp [numbers_cons, hsemi]
  case nothing =>
    intro semi hsemi
    simp [numbers_cons, hsemi, Stmt.nums, values]
  case compound =>
    intro w block _ hw
    exact hw
  case ifThen =>
    intro kw lp rp u v cond thenStmt hkw hlp hcond hrp _ hv
    rw [Stmt.nums, values_append, values_expression hcond, hv]
    simp [numbers_cons, hkw, hlp, hrp]
  case ifElse =>
    intro kw lp rp els u v w cond thenStmt elseStmt hkw hlp hcond hrp _ hels _ hv hw
    rw [Stmt.nums, values_append, values_append, values_expression hcond, hv, hw]
    simp [numbers_cons, hkw, hlp, hrp, hels]
  case iteration =>
    intro kw lp rp u v cond body hkw hlp hcond hrp _ hv
    rw [Stmt.nums, values_append, values_expression hcond, hv]
    simp [numbers_cons, hkw, hlp, hrp]
  case returnVoid =>
    intro kw semi hkw hsemi
    simp [numbers_cons, hkw, hsemi, Stmt.nums, values]
  case returnValue =>
    intro kw semi w e hkw he hsemi
    rw [Stmt.nums, values_expression he]
    simp [numbers_cons, hkw, hsemi]

theorem values_declaration {w : List Token} {decl : Decl} (h : Declaration w decl) :
    values decl.nums = numbers w := by
  cases h with
  | var h => exact values_varDeclaration h
  | «fun» h =>
      cases h with
      | mk htype hname hlp hparams hrp hblock =>
          rw [Decl.nums, values_compound hblock]
          simp [numbers_cons, typeSpecifier_ne_number htype, hname, hlp, hrp,
            numbers_params hparams]

theorem values_derives {w : List Token} {program : Program} (h : Derives w program) :
    values program.nums = numbers w := by
  obtain ⟨hlist⟩ := h
  unfold Program.nums
  induction hlist with
  | one hdecl => simp [values_declaration hdecl]
  | snoc _ hdecl ih => simp [ih, values_declaration hdecl]

/-! From the source to the tree. -/

/-- The digit strings the scanner hands out, in order. -/
def digitStrings (source : String) : List String :=
  ((Lexer.tokenize { source := source.toList }).1.filter fun tok => tok.is .number).map
    Token.lexeme

theorem numbers_filter (w : List Token) :
    numbers (w.filter fun tok => !tok.is .error) = numbers w := by
  unfold numbers
  rw [List.filter_filter]
  congr 2
  ext tok
  cases hkind : tok.kind <;> simp [Token.is, hkind]

theorem make_filter (tokens : List Token) (diags : Diagnostics) :
    Parser.make (tokens.filter fun tok => !tok.is .error) diags =
      Parser.make tokens diags := by
  unfold Parser.make
  rw [List.filter_filter]
  simp only [Bool.and_self]

theorem numbers_ahead {w : List Token} {eof : Token} (diags : Diagnostics)
    (heof : eof.kind = .endOfFile) (hends : ∀ tok ∈ w, tok.kind ≠ .endOfFile) :
    numbers (Parser.make (w ++ [eof]) diags).ahead = numbers (w ++ [eof]) := by
  have hsplit : (w ++ [eof]).filter (fun tok => !tok.is .error) =
      w.filter (fun tok => !tok.is .error) ++ [eof] := by
    rw [List.filter_append]
    simp [heof, Token.is]
  have hkept : ∀ tok ∈ w.filter fun tok => !tok.is .error, tok.kind ≠ .error :=
    fun tok htok => by simpa using (List.mem_filter.mp htok).2
  obtain ⟨hat, -⟩ := Parser.make_at diags hkept heof
    (fun tok htok => hends tok (List.mem_filter.mp htok).1)
  rw [← make_filter, hsplit, hat.ahead, numbers_filter, numbers_append]
  simp [numbers_cons, heof]

theorem numbers_scanned {w : List Token} (h : ∀ tok ∈ w, Lexer.Scanned tok) :
    numbers w = ((w.filter fun tok => tok.is .number).map Token.lexeme).map
      fun digits => (Lexer.decimalValue digits.toList : Int) := by
  unfold numbers
  rw [List.map_map]
  apply List.map_congr_left
  intro tok htok
  obtain ⟨hmem, hkind⟩ := List.mem_filter.mp htok
  exact ((h tok hmem).value (Token.is_eq_true.mp hkind)).1

theorem tokenize_last (source : List Char) :
    ∃ init eof, (Lexer.tokenize { source := source }).1 = init ++ [eof] ∧
      eof.kind = .endOfFile ∧ ∀ tok ∈ init, tok.kind ≠ .endOfFile := by
  obtain ⟨tokens, new, lx, hrun, -, htokens⟩ := Lexer.tokenizeFrom_tokenized
    (source.length + 1) source { line := 1, column := 1 } [] (Nat.lt_succ_self _)
  have htokenize : (Lexer.tokenize { source := source }).1 = tokens := congrArg Prod.fst hrun
  rw [htokenize]
  exact htokens.last_endOfFile

/-- The values in the tree are those of the digit strings, and analysis keeps them. -/
theorem Accepted.values_nums {source : String} {program : Program}
    (h : Accepted source program) :
    values program.nums =
      (digitStrings source).map fun digits => (Lexer.decimalValue digits.toList : Int) := by
  obtain ⟨tree, parser, hparse, hparsed, -, rfl⟩ := h.parsed
  have hraw := (SemanticAnalyzer.analyze_scoped (Parser.parseProgram_raw hparse)).1
  obtain ⟨init, eof, htokens, heof, hinit⟩ := tokenize_last source.toList
  have hscanned := numbers_scanned h.scanned
  rw [htokens] at hparse
  calc values (SemanticAnalyzer.analyze tree {}).1.nums
      = values tree.bare.nums := by rw [← Program.nums_bare, hraw]
    _ = numbers (Parser.make (init ++ [eof]) []).ahead :=
        values_derives (Parser.derives_ahead hparse hparsed)
    _ = numbers (Lexer.tokenize { source := source.toList }).1 := by
        rw [numbers_ahead [] heof hinit, htokens]
    _ = _ := hscanned

/-! The constants. -/

/-- `digits` stands in an expression of the source, and `value` in its place in the tree. -/
def LiteralAt (source : String) (program : Program) (digits : String) (value : Int) : Prop :=
  (digits, Num.literal value) ∈ (digitStrings source).zip program.nums

instance (source : String) (program : Program) (digits : String) (value : Int) :
    Decidable (LiteralAt source program digits value) :=
  inferInstanceAs (Decidable (_ ∈ _))

open SemanticAnalyzer (checkConstantIndex checkDivisor warnIf) in
/-- What becomes of the literal: the checks of the analyzer compare the decimal value of its
digits, and the constant that a generator emits for it is that value. -/
structure KeepsValue (digits : String) (value : Int) : Prop where
  divisor : ∀ info op opLoc, checkDivisor op opLoc (.num info value) =
    warnIf (op = .div ∧ (Lexer.decimalValue digits.toList : Int) = 0) opLoc "division by zero"
  subscript : ∀ info symbol name, checkConstantIndex symbol name (.num info value) =
    warnIf (0 < symbol.arraySize ∧
        symbol.arraySize ≤ (Lexer.decimalValue digits.toList : Int)) info.loc
      ("index " ++ toString (Lexer.decimalValue digits.toList : Int) ++ " is past the end of '" ++
        name ++ "', which has " ++ toString symbol.arraySize ++ " elements")
  llvm : ∀ options info g, ∃ c : BitVec 32,
    IRGenerator.emitExpr options (.num info value) g = (.i32 c, g) ∧
      c.toInt = Lexer.decimalValue digits.toList
  mlir : ∀ flavor options info g, ∃ c : BitVec 32,
    MLIRGenerator.emitExpr flavor options (.num info value) g =
        ({ operand := .reg g.builder.nextReg, constant := some c },
          { g with builder := g.builder.define fun r => .constant r c }) ∧
      c.toInt = Lexer.decimalValue digits.toList

theorem toInt_int32 (n : Nat) : (BitVec.ofInt 32 n).toInt = n ↔ n ≤ 2147483647 := by
  constructor
  · intro h
    have hlt : (BitVec.ofInt 32 n).toInt < 2 ^ 31 := BitVec.toInt_lt
    omega
  · intro h
    rw [BitVec.toInt_ofInt]
    exact Int.bmod_eq_of_le (by omega) (by omega)

theorem KeepsValue.fits {digits : String} {value : Int}
    (h : KeepsValue digits value) (hvalue : value = Lexer.decimalValue digits.toList) :
    Lexer.decimalValue digits.toList ≤ 2147483647 := by
  obtain ⟨c, hemitted, htoInt⟩ := h.llvm {} {} {}
  have hconstant : IRGenerator.int32 value = .i32 c := congrArg Prod.fst hemitted
  cases hconstant
  rw [hvalue] at htoInt
  exact (toInt_int32 _).mp htoInt

theorem keepsValue_exact {digits : String} {value : Int}
    (hvalue : value = Lexer.decimalValue digits.toList) :
    KeepsValue digits value ↔ Lexer.decimalValue digits.toList ≤ 2147483647 := by
  constructor
  · intro hkeeps
    exact hkeeps.fits hvalue
  · intro hle
    have htoInt := (toInt_int32 _).mpr hle
    subst hvalue
    constructor
    · exact fun _ _ _ => rfl
    · exact fun _ _ _ => rfl
    · exact fun _ _ _ => ⟨_, rfl, htoInt⟩
    · exact fun _ _ _ _ => ⟨_, rfl, htoInt⟩

theorem eq_of_mem_zip {α β γ : Type} {f : α → γ} {g : β → γ} {xs : List α} {ys : List β}
    (h : xs.map f = ys.map g) {x : α} {y : β} (hmem : (x, y) ∈ xs.zip ys) : f x = g y := by
  obtain ⟨i, hi, hget⟩ := List.mem_iff_getElem.mp hmem
  rw [List.getElem_zip, Prod.mk.injEq] at hget
  have hlength : (xs.zip ys).length = min xs.length ys.length := List.length_zip
  have hxs : (xs.map f)[i]? = some (f x) := by
    rw [List.getElem?_map, List.getElem?_eq_getElem (by omega), hget.1, Option.map_some]
  rw [h, List.getElem?_map, List.getElem?_eq_getElem (by omega), hget.2] at hxs
  exact (Option.some.inj hxs).symm

theorem LiteralAt.value_eq {source : String} {program : Program}
    (h : Accepted source program) {digits : String} {value : Int}
    (hat : LiteralAt source program digits value) :
    value = Lexer.decimalValue digits.toList :=
  (eq_of_mem_zip h.values_nums.symm hat).symm

/-- A digit string that no `long long` can have is the scanner's error. -/
theorem rejects_tooLarge {source : String} {digits : String} (h : digits ∈ digitStrings source)
    (hlarge : 9223372036854775808 ≤ Lexer.decimalValue digits.toList) :
    frontEnd source = none ∧ (frontEndDiags source).hasErrors = true := by
  have herrors : (Lexer.tokenize { source := source.toList }).2.diags.hasErrors = true := by
    by_contra hnone
    obtain ⟨-, hscanned⟩ := Lexer.scanned_tokenize (by simpa using hnone)
    obtain ⟨tok, htok, rfl⟩ := List.mem_map.mp h
    obtain ⟨hmem, hkind⟩ := List.mem_filter.mp htok
    have hlt := ((hscanned tok hmem).value (Token.is_eq_true.mp hkind)).2
    omega
  constructor
  · unfold frontEnd
    exact if_pos herrors
  · unfold frontEndDiags
    dsimp only
    rw [if_pos herrors]
    exact herrors

/-- A source with a digit string from 2 ^ 63 on is rejected.  In an accepted one the digit
strings and the NUMs of the tree correspond one to one, and a literal keeps its value just
when an `i32` can have it. -/
theorem literals_exact (source : String) :
    (∀ digits ∈ digitStrings source, 9223372036854775808 ≤ Lexer.decimalValue digits.toList →
      frontEnd source = none ∧ (frontEndDiags source).hasErrors = true) ∧
    ∀ program, frontEnd source = some program →
      program.nums.map Num.value =
          (digitStrings source).map (fun digits => (Lexer.decimalValue digits.toList : Int)) ∧
        ∀ digits value, LiteralAt source program digits value →
          (KeepsValue digits value ↔ Lexer.decimalValue digits.toList ≤ 2147483647) := by
  constructor
  · intro digits hmem hlarge
    exact rejects_tooLarge hmem hlarge
  · intro program hprogram
    have haccepted := accepted_of_frontEnd hprogram
    refine ⟨haccepted.values_nums, ?_⟩
    intro digits value hat
    exact keepsValue_exact (hat.value_eq haccepted)

/-- The largest literal that keeps its value, and the smallest one that is rejected. -/
theorem literals_exact_bounds :
    (∃ program, frontEnd "void main(void) \x7b output(1/2147483647); \x7d" = some program ∧
      KeepsValue "2147483647" 2147483647) ∧
    frontEnd "void main(void) \x7b output(9223372036854775808); \x7d" = none := by
  constructor
  · have hrun : (frontEnd "void main(void) \x7b output(1/2147483647); \x7d").any
        (fun program => decide (LiteralAt "void main(void) \x7b output(1/2147483647); \x7d"
          program "2147483647" 2147483647)) = true := by
      decide +kernel
    rw [Option.any_eq_true] at hrun
    obtain ⟨program, hprogram, hat⟩ := hrun
    obtain ⟨-, hexact⟩ := (literals_exact _).2 program hprogram
    exact ⟨program, hprogram, (hexact _ _ (of_decide_eq_true hat)).mpr (by decide)⟩
  · have hmem : "9223372036854775808" ∈
        digitStrings "void main(void) \x7b output(9223372036854775808); \x7d" := by
      decide +kernel
    exact ((literals_exact _).1 _ hmem (by decide)).1

/-- The divisor the analyzer sees is not zero; the one the generators emit is. -/
theorem literals_zeroDivisor : ∃ program,
    frontEnd "void main(void) \x7b output(1/4294967296); \x7d" = some program ∧
      frontEndDiags "void main(void) \x7b output(1/4294967296); \x7d" = [] ∧
      LiteralAt "void main(void) \x7b output(1/4294967296); \x7d" program "4294967296"
        4294967296 ∧
      (∀ options info g,
        IRGenerator.emitExpr options (.num info 4294967296) g = (.i32 0, g)) ∧
      ¬ KeepsValue "4294967296" 4294967296 := by
  have hrun : (frontEnd "void main(void) \x7b output(1/4294967296); \x7d").any
      (fun program => decide (LiteralAt "void main(void) \x7b output(1/4294967296); \x7d"
        program "4294967296" 4294967296)) = true := by
    decide +kernel
  rw [Option.any_eq_true] at hrun
  obtain ⟨program, hprogram, hat⟩ := hrun
  have hzero : ∀ options info g,
      IRGenerator.emitExpr options (.num info 4294967296) g = (.i32 0, g) := fun _ _ _ => rfl
  refine ⟨program, hprogram, by decide +kernel, of_decide_eq_true hat, hzero, ?_⟩
  intro hkeeps
  exact absurd (hkeeps.fits (by decide)) (by decide)

end CMinus
