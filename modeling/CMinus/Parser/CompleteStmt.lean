import CMinus.Parser.SoundDecl
import CMinus.Parser.CompleteExpr

namespace CMinus

namespace Parser

open Grammar

/-! Declarations are read back. -/

theorem run_typeSpecifier {p : Parser} {tok : Token} {w : List Token} {t : CType}
    (hat : At p (tok :: w)) (h : TypeSpecifier tok.kind t) :
    parseTypeSpecifier p = some (some (t, tok.loc), p.skip 1) := by
  cases hk : tok.kind <;> rw [hk] at h <;> cases h
  · rw [parseTypeSpecifier, run_peek, hat.peek, ← hk, run_match hat]
    rfl
  · have hint : (p.peekAt 0).kind ≠ .kwInt := by
      rw [hat.peek, hk]
      decide
    rw [parseTypeSpecifier, run_peek, hat.peek, run_match_ne hint, ← hk]
    simp only [Bool.false_eq_true, if_false, run_match hat]
    rfl

theorem run_finishVar_scalar {p : Parser} {t : CType} {typeLoc : SourceLocation}
    {name semi : Token} {r : List Token} (hat : At p (semi :: r))
    (hsemi : semi.kind = .semicolon) :
    finishVarDeclaration t typeLoc name p = some (some
      { loc := name.loc, name := name.lexeme, typeLoc := typeLoc, declaredType := t },
      p.skip 1) := by
  have hlb : (p.peekAt 0).kind ≠ .lBracket := by rw [hat.peek, hsemi]; decide
  have hcomma : (p.peekAt 0).kind ≠ .comma := by rw [hat.peek, hsemi]; decide
  rw [finishVarDeclaration, run_match_ne hlb]
  simp only [Bool.false_eq_true, if_false, run_check_ne hcomma]
  simp only [← hsemi, run_expect hat, Bool.not_true, Bool.false_eq_true, if_false]
  rfl

theorem run_finishVar_array {p : Parser} {t : CType} {typeLoc : SourceLocation}
    {name lb size rb semi : Token} {r : List Token}
    (hat : At p (lb :: size :: rb :: semi :: r)) (hlb : lb.kind = .lBracket)
    (hsize : size.kind = .number) (hrb : rb.kind = .rBracket)
    (hsemi : semi.kind = .semicolon) :
    finishVarDeclaration t typeLoc name p = some (some
      { loc := name.loc, name := name.lexeme, typeLoc := typeLoc, declaredType := t,
        isArray := true, arraySize := size.value }, p.skip 4) := by
  have h₁ := hat.skip_one
  have h₂ := h₁.skip_one
  have h₃ := h₂.skip_one
  have hnum : ((p.skip 1).peekAt 0).kind = .number := by rw [h₁.peek, hsize]
  have hcomma : ((((p.skip 1).skip 1).skip 1).peekAt 0).kind ≠ .comma := by
    rw [h₃.peek, hsemi]
    decide
  rw [finishVarDeclaration, ← hlb, run_match hat]
  simp only [if_true, run_check_of hnum, Bool.not_true, Bool.false_eq_true, if_false,
    run_advance h₁, ← hrb, run_expect h₂, run_check_ne hcomma]
  simp only [← hsemi, run_expect h₃, Bool.not_true, Bool.false_eq_true, if_false]
  rfl

/-! `type-specifier ID` and then the rest of a variable declaration. -/

theorem varDeclaration_split {w : List Token} {decl : VarDecl}
    (h : VarDeclaration w decl) :
    ∃ type name rest t, w = type :: name :: rest ∧ TypeSpecifier type.kind t ∧
      name.kind = .identifier ∧ headKind rest ≠ .lParen ∧
      ∀ (p : Parser) (r : List Token), At p (rest ++ r) →
        ∃ d : VarDecl, finishVarDeclaration t type.loc name p =
          some (some d, p.skip rest.length) ∧ d.bare = decl := by
  cases h with
  | @scalar type name semi t htype hname hsemi =>
      refine ⟨type, name, [semi], t, rfl, htype, hname, by simp [hsemi], ?_⟩
      intro p r hat
      exact ⟨_, run_finishVar_scalar hat hsemi, rfl⟩
  | @array type name lb size rb semi t htype hname hlb hsize hrb hsemi =>
      refine ⟨type, name, [lb, size, rb, semi], t, rfl, htype, hname, by simp [hlb], ?_⟩
      intro p r hat
      exact ⟨_, run_finishVar_array hat hlb hsize hrb hsemi, rfl⟩

theorem skip_two (p : Parser) (w : List Token) (tok tok' : Token) :
    ((p.skip 1).skip 1).skip w.length = p.skip (tok :: tok' :: w).length := by
  simp [Nat.add_comm 2]

theorem run_localVarDeclaration {w r : List Token} {decl : VarDecl} {p : Parser}
    (h : VarDeclaration w decl) (hat : At p (w ++ r)) :
    ∃ d : VarDecl, parseLocalVarDeclaration p = some (some d, p.skip w.length) ∧
      d.bare = decl := by
  obtain ⟨type, name, rest, t, rfl, htype, hname, hnotParen, hfinish⟩ :=
    varDeclaration_split h
  obtain ⟨d, hrun, hbare⟩ := hfinish _ r hat.skip_one.skip_one
  refine ⟨d, ?_, hbare⟩
  have hid : ((p.skip 1).peekAt 0).kind = .identifier := by rw [hat.skip_one.peek, hname]
  have hparen : (((p.skip 1).skip 1).peekAt 0).kind ≠ .lParen := by
    rw [hat.skip_one.skip_one.kind]
    cases rest with
    | nil => cases h
    | cons tok rest => exact hnotParen
  rw [parseLocalVarDeclaration, run_bind (run_typeSpecifier hat htype)]
  simp only [run_check_of hid, Bool.not_true, Bool.false_eq_true, if_false,
    run_advance hat.skip_one, run_check_ne hparen]
  rw [hrun, skip_two]

theorem varDeclaration_starts {w : List Token} {decl : VarDecl}
    (h : VarDeclaration w decl) :
    ∃ tok rest, w = tok :: rest ∧ tok.kind.isTypeSpecifier = true := by
  obtain ⟨type, name, rest, t, rfl, htype, -⟩ := varDeclaration_split h
  refine ⟨type, _, rfl, ?_⟩
  cases hk : type.kind <;> rw [hk] at htype <;> cases htype <;> rfl

/-! The loop over the local declarations. -/

theorem run_localDecls {w : List Token} {decls : List VarDecl}
    (h : LocalDeclarations w decls) (limit : Nat) (p : Parser) (r : List Token)
    (acc : List VarDecl) (hat : At p (w ++ r)) (hlimit : p.ahead.length < limit) :
    ∃ m ds, parseLocalDecls limit acc p = parseLocalDecls m ds (p.skip w.length) ∧
      ds.map VarDecl.bare = acc.map VarDecl.bare ++ decls ∧
      (p.skip w.length).ahead.length < m := by
  induction h generalizing r with
  | empty => exact ⟨limit, acc, rfl, by simp, hlimit⟩
  | @snoc v w decls decl _ hdecl ih =>
      obtain ⟨m, ds, hrun, hbare, hm⟩ := ih _ hat.front
      have hat' := hat.front.skip
      obtain ⟨d, hd, hdbare⟩ := run_localVarDeclaration hdecl hat'
      obtain ⟨tok, rest, rfl, htype⟩ := varDeclaration_starts hdecl
      have hlen := hat'.length
      have hlen' := hat'.skip.length
      rw [List.length_append, List.length_cons] at hlen
      obtain ⟨m, rfl⟩ : ∃ m', m = m' + 1 := ⟨m - 1, by omega⟩
      refine ⟨m, ds ++ [d], ?_, by simp [hbare, hdbare], ?_⟩
      · rw [hrun, parseLocalDecls, run_peek, hat'.peek]
        simp only [htype, Bool.not_true, Bool.false_eq_true, if_false, run_position]
        rw [run_bind hd]
        simp only [skip_append]
      · rw [skip_append] at hlen'
        omega

theorem parseLocalDecls_stop {limit : Nat} {p : Parser} {ds : List VarDecl}
    (hkind : (p.peekAt 0).kind.isTypeSpecifier = false) (hlimit : 0 < limit) :
    parseLocalDecls limit ds p = some (ds, p) := by
  obtain ⟨limit, rfl⟩ : ∃ m, limit = m + 1 := ⟨limit - 1, by omega⟩
  rw [parseLocalDecls, run_peek]
  simp only [hkind, Bool.not_false, if_true]
  rfl

/-! The first token of a statement. -/

def startsStatement : TokenKind → Bool
  | .identifier | .number | .lParen | .semicolon | .lBrace | .kwIf | .kwWhile
  | .kwReturn => true
  | _ => false

theorem statement_starts {w : List Token} {s : Stmt} (h : Statement w s) :
    ∃ tok rest, w = tok :: rest ∧ startsStatement tok.kind = true := by
  have hexpr : ∀ {w r : List Token} {e : Expr}, Expression w e →
      ∃ tok rest, w ++ r = tok :: rest ∧ startsStatement tok.kind = true := by
    intro w r e he
    have hstart := expression_starts he
    cases w with
    | nil => cases hstart
    | cons tok w =>
        refine ⟨tok, w ++ r, rfl, ?_⟩
        rw [StartsExpression, headKind_cons] at hstart
        cases hk : tok.kind <;> rw [hk] at hstart <;>
          first | rfl | exact absurd hstart (by decide)
  cases h with
  | expr he _ => exact hexpr he
  | nothing hsemi => exact ⟨_, [], rfl, by rw [hsemi]; rfl⟩
  | compound hblock =>
      cases hblock with
      | mk hlb _ _ _ => exact ⟨_, _, rfl, by rw [hlb]; rfl⟩
  | ifThen hkw _ _ _ _ => exact ⟨_, _, rfl, by rw [hkw]; rfl⟩
  | ifElse hkw _ _ _ _ _ _ => exact ⟨_, _, rfl, by rw [hkw]; rfl⟩
  | iteration hkw _ _ _ _ => exact ⟨_, _, rfl, by rw [hkw]; rfl⟩
  | returnVoid hkw _ => exact ⟨_, _, rfl, by rw [hkw]; rfl⟩
  | returnValue hkw _ _ => exact ⟨_, _, rfl, by rw [hkw]; rfl⟩

/-! Statements are read back, as the tree in which every `else` is nearest.  A
statement that ends in an open `if` is only read before something else than
`else`. -/

def StatementRead (w : List Token) (t : Stmt) : Prop :=
  NearestElse t → ∀ (limit : Nat) (p : Parser) (r : List Token), At p (w ++ r) →
    (openIf t = true → headKind r ≠ .kwElse) → 10 * p.ahead.length + 8 ≤ limit →
    ∃ s, parseStatement limit p = some (some s, p.skip w.length) ∧ s.bare = t

def CompoundRead (w : List Token) (t : CompoundStmt) : Prop :=
  NearestElses t.stmts → ∀ (limit : Nat) (p : Parser) (r : List Token), At p (w ++ r) →
    10 * p.ahead.length + 7 ≤ limit →
    ∃ b, parseCompoundStmt limit p = some (some b, p.skip w.length) ∧ b.bare = t

def StmtsRead (w : List Token) (ts : List Stmt) : Prop :=
  (w = [] ∨ startsStatement (headKind w) = true) ∧
  (NearestElses ts → ∀ (limit : Nat) (p : Parser) (r : List Token) (acc : List Stmt),
    At p (w ++ r) → headKind r ≠ .kwElse → 10 * p.ahead.length + 9 ≤ limit →
    ∃ m ss, parseStmts limit acc p = parseStmts m ss (p.skip w.length) ∧
      ss.map Stmt.bare = acc.map Stmt.bare ++ ts ∧
      10 * (p.skip w.length).ahead.length + 9 ≤ m)

theorem parseStmts_stop {limit : Nat} {p : Parser} {ss : List Stmt}
    (hkind : (p.peekAt 0).kind = .rBrace) (hlimit : 0 < limit) :
    parseStmts limit ss p = some (ss, p) := by
  obtain ⟨limit, rfl⟩ : ∃ m, limit = m + 1 := ⟨limit - 1, by omega⟩
  rw [parseStmts, run_check_of hkind, run_atEnd]
  simp only [Bool.true_or, if_true]
  rfl

theorem stmtsRead_snoc {v w : List Token} {ts : List Stmt} {t : Stmt}
    (hlist : StmtsRead v ts) (hder : Statement w t) (h : StatementRead w t) :
    StmtsRead (v ++ w) (ts ++ [t]) := by
  obtain ⟨tok, rest, rfl, hstart⟩ := statement_starts hder
  refine ⟨.inr ?_, ?_⟩
  · rcases hlist.1 with rfl | hfirst
    · exact hstart
    · cases v with
      | nil => exact hstart
      | cons first v => exact hfirst
  intro hnear limit p r acc hat hend hlimit
  obtain ⟨hnear, hnear'⟩ := (nearestElses_append_one _ _).mp hnear
  obtain ⟨m, ss, hrun, hbare, hm⟩ := hlist.2 hnear limit p _ acc hat.front
    (by rw [List.cons_append, headKind_cons]; rintro hk; rw [hk] at hstart; cases hstart)
    hlimit
  have hat' := hat.front.skip
  have hlen := hat'.length
  have hlen' := hat'.skip.length
  rw [List.length_append, List.length_cons] at hlen
  obtain ⟨m, rfl⟩ : ∃ m', m = m' + 1 := ⟨m - 1, by omega⟩
  obtain ⟨s, hs, hsbare⟩ := h hnear' m _ r hat' (fun _ => hend) (by omega)
  have hbrace : ((p.skip v.length).peekAt 0).kind ≠ .rBrace := by
    rw [hat'.peek]
    rintro hk
    rw [hk] at hstart
    cases hstart
  have heof : ((p.skip v.length).peekAt 0).kind ≠ .endOfFile := by
    rw [hat'.peek]
    rintro hk
    rw [hk] at hstart
    cases hstart
  refine ⟨m, ss ++ [s], ?_, by simp [hbare, hsbare], ?_⟩
  · rw [hrun, parseStmts, run_check_ne hbrace, run_atEnd, Token.is_eq_false.mpr heof]
    simp only [Bool.or_self, Bool.false_eq_true, if_false, run_position]
    rw [run_bind hs]
    simp only [skip_append]
  · rw [skip_append] at hlen'
    omega

theorem compoundRead_mk {lb rb : Token} {v w : List Token} {decls : List VarDecl}
    {ts : List Stmt} (hlb : lb.kind = .lBrace) (hdecls : LocalDeclarations v decls)
    (h : StmtsRead w ts) (hrb : rb.kind = .rBrace) :
    CompoundRead (lb :: (v ++ w ++ [rb])) { localDecls := decls, stmts := ts } := by
  intro hnear limit p r hat hlimit
  have hat : At p (lb :: (v ++ (w ++ rb :: r))) := by simpa using hat
  have hlen := hat.length
  rw [List.length_cons] at hlen
  obtain ⟨limit, rfl⟩ : ∃ m, limit = m + 1 := ⟨limit - 1, by omega⟩
  have hopen := hat.skip_one
  have hlen₁ := hopen.length
  obtain ⟨m, ds, hrun, hbare, hm⟩ := run_localDecls hdecls limit _ _ [] hopen (by omega)
  have hmid := hopen.skip
  have hlen₂ := hmid.length
  have hstop : (((p.skip 1).skip v.length).peekAt 0).kind.isTypeSpecifier = false := by
    rw [hmid.kind]
    cases w with
    | nil => rw [List.nil_append, headKind_cons, hrb]; rfl
    | cons tok w =>
        have hstart := h.1.resolve_left (by simp)
        rw [headKind_cons] at hstart
        rw [List.cons_append, headKind_cons]
        cases hk : tok.kind <;> rw [hk] at hstart <;> first | rfl | cases hstart
  rw [List.length_append] at hlen
  obtain ⟨m', ss, hrun', hbare', hm'⟩ := h.2 hnear limit _ (rb :: r) [] hmid
    (by rw [headKind_cons, hrb]; decide) (by omega)
  have hclose := hmid.skip
  have hend : ((((p.skip 1).skip v.length).skip w.length).peekAt 0).kind = .rBrace := by
    rw [hclose.kind, headKind_cons, hrb]
  have hskip : (((p.skip 1).skip v.length).skip w.length).skip 1 =
      p.skip (lb :: (v ++ w ++ [rb])).length := by
    rw [skip_append, skip_enclosed p (v ++ w) lb rb]
  refine ⟨{ loc := lb.loc, localDecls := ds, stmts := ss }, ?_, ?_⟩
  · rw [← hskip, parseCompoundStmt, run_peek, hat.peek, ← hlb, run_expect hat]
    simp only [Bool.not_true, Bool.false_eq_true, if_false]
    rw [run_bind (hrun.trans (parseLocalDecls_stop hstop (by omega))),
      run_bind (hrun'.trans (parseStmts_stop hend (by omega))), ← hrb, run_expect hclose]
    simp only [Bool.not_true, Bool.false_eq_true, if_false]
    rfl
  · rw [CompoundStmt.bare, bareStmts_eq_map, hbare, hbare']
    rfl

/-! The remaining statements. -/

theorem statementRead_compound {w : List Token} {b : CompoundStmt}
    (hder : Compound w b) (h : CompoundRead w b) : StatementRead w b.toStmt := by
  intro hnear limit p r hat hend hlimit
  obtain ⟨limit, rfl⟩ : ∃ m, limit = m + 1 := ⟨limit - 1, by omega⟩
  obtain ⟨block, hrun, hbare⟩ := h hnear limit p r hat (by omega)
  have hkind : (p.peekAt 0).kind = .lBrace := by
    cases hder with
    | mk hlb _ _ _ => rw [hat.peek, hlb]
  refine ⟨block.toStmt, ?_, by rw [← hbare]; rfl⟩
  rw [parseStatement, run_peek]
  simp only [hkind]
  rw [run_bind hrun]
  rfl

theorem run_expressionStmt {limit : Nat} {p : Parser} (hstart :
    startsExpression (p.peekAt 0).kind = true) :
    parseStatement (limit + 1) p = parseExpressionStmt limit p := by
  rw [parseStatement, run_peek]
  cases hk : (p.peekAt 0).kind <;> rw [hk] at hstart <;> first | rfl | cases hstart

theorem statementRead_nothing {semi : Token} (hsemi : semi.kind = .semicolon) :
    StatementRead [semi] (.expr {} none) := by
  intro _ limit p r hat _ hlimit
  obtain ⟨limit, rfl⟩ : ∃ m, limit = m + 1 := ⟨limit - 1, by omega⟩
  refine ⟨.expr semi.loc none, ?_, rfl⟩
  have hkind : (p.peekAt 0).kind = .semicolon := by rw [hat.peek, hsemi]
  rw [parseStatement, run_peek]
  simp only [hkind]
  rw [parseExpressionStmt, run_peek, hat.peek, ← hsemi, run_match hat]
  rfl

theorem statementRead_expr {w : List Token} {semi : Token} {e : Expr}
    (h : Expression w e) (hsemi : semi.kind = .semicolon) :
    StatementRead (w ++ [semi]) (.expr {} (some e)) := by
  intro _ limit p r hat _ hlimit
  have hat : At p (w ++ semi :: r) := by simpa using hat
  obtain ⟨limit, rfl⟩ : ∃ m, limit = m + 1 := ⟨limit - 1, by omega⟩
  obtain ⟨expr, hrun, hbare⟩ := expression_read h limit p _ hat
    (by rw [headKind_cons, hsemi]; rfl) (by omega)
  have hstart : startsExpression (p.peekAt 0).kind = true := by
    rw [hat.kind]
    exact (expression_starts h).append
  have hne : (p.peekAt 0).kind ≠ .semicolon := by
    intro hk
    rw [hk] at hstart
    cases hstart
  have hclose := hat.skip
  refine ⟨.expr (p.peekAt 0).loc (some expr), ?_, by simp [Stmt.bare, hbare]⟩
  rw [run_expressionStmt hstart, parseExpressionStmt, run_peek, run_match_ne hne]
  simp only [Bool.false_eq_true, if_false]
  rw [run_bind hrun]
  simp only [← hsemi, run_expect hclose, Bool.not_true, Bool.false_eq_true, if_false]
  rw [List.length_append, ← skip_skip]
  rfl

theorem statementRead_returnVoid {kw semi : Token} (hkw : kw.kind = .kwReturn)
    (hsemi : semi.kind = .semicolon) : StatementRead [kw, semi] (.ret {} none) := by
  intro _ limit p r hat _ hlimit
  obtain ⟨limit, rfl⟩ : ∃ m, limit = m + 1 := ⟨limit - 1, by omega⟩
  have hkind : (p.peekAt 0).kind = .kwReturn := by rw [hat.peek, hkw]
  refine ⟨.ret kw.loc none, ?_, rfl⟩
  rw [parseStatement, run_peek]
  simp only [hkind]
  rw [parseReturnStmt, run_advance hat, ← hsemi, run_match hat.skip_one]
  rfl

theorem statementRead_returnValue {kw semi : Token} {w : List Token} {e : Expr}
    (hkw : kw.kind = .kwReturn) (h : Expression w e) (hsemi : semi.kind = .semicolon) :
    StatementRead (kw :: (w ++ [semi])) (.ret {} (some e)) := by
  intro _ limit p r hat _ hlimit
  have hat : At p (kw :: (w ++ semi :: r)) := by simpa using hat
  have hlen := hat.length
  have hlen' := hat.skip_one.length
  rw [List.length_cons] at hlen
  obtain ⟨limit, rfl⟩ : ∃ m, limit = m + 1 := ⟨limit - 1, by omega⟩
  obtain ⟨value, hrun, hbare⟩ := expression_read h limit _ _ hat.skip_one
    (by rw [headKind_cons, hsemi]; rfl) (by omega)
  have hkind : (p.peekAt 0).kind = .kwReturn := by rw [hat.peek, hkw]
  have hne : ((p.skip 1).peekAt 0).kind ≠ .semicolon := by
    rw [hat.skip_one.kind]
    intro hk
    have hstart := (expression_starts h).append (w := semi :: r)
    rw [StartsExpression, hk] at hstart
    cases hstart
  have hclose := hat.skip_one.skip
  refine ⟨.ret kw.loc (some value), ?_, by simp [Stmt.bare, hbare]⟩
  rw [← skip_enclosed p w kw semi, parseStatement, run_peek]
  simp only [hkind]
  rw [parseReturnStmt, run_advance hat, run_match_ne hne]
  simp only [Bool.false_eq_true, if_false]
  rw [run_bind hrun]
  simp only [← hsemi, run_expect hclose, Bool.not_true, Bool.false_eq_true, if_false]
  rfl

/-! `if ( expression )` and `while ( expression )` share their first four parts. -/

theorem statementRead_iteration {kw lp rp : Token} {u v : List Token} {cond : Expr}
    {body : Stmt} (hkw : kw.kind = .kwWhile) (hlp : lp.kind = .lParen)
    (hcond : Expression u cond) (hrp : rp.kind = .rParen) (hbody : StatementRead v body) :
    StatementRead (kw :: lp :: (u ++ rp :: v)) (.whiles {} cond body) := by
  intro hnear limit p r hat hend hlimit
  have hat : At p (kw :: lp :: (u ++ rp :: (v ++ r))) := by simpa using hat
  have hlen := hat.length
  simp only [List.length_cons, List.length_append] at hlen
  obtain ⟨limit, rfl⟩ : ∃ m, limit = m + 2 := ⟨limit - 2, by omega⟩
  have h₂ := hat.skip_one.skip_one
  have hlen₂ := h₂.length
  simp only [List.length_cons, List.length_append] at hlen₂
  obtain ⟨c, hc, hcbare⟩ := expression_read hcond limit _ _ h₂
    (by rw [headKind_cons, hrp]; rfl) (by omega)
  have h₃ := h₂.skip
  have h₄ := h₃.skip_one
  have hlen₄ := h₄.length
  rw [List.length_append] at hlen₄
  obtain ⟨s, hs, hsbare⟩ := hbody hnear limit _ r h₄ hend (by omega)
  have hkind : (p.peekAt 0).kind = .kwWhile := by rw [hat.peek, hkw]
  have hskip : ((((p.skip 1).skip 1).skip u.length).skip 1).skip v.length =
      p.skip (kw :: lp :: (u ++ rp :: v)).length := by
    rw [skip_cons, skip_two p _ kw lp]
  refine ⟨.whiles kw.loc c s, ?_, by simp [Stmt.bare, hcbare, hsbare]⟩
  rw [← hskip, parseStatement, run_peek]
  simp only [hkind]
  rw [parseIterationStmt, run_advance hat, ← hlp, run_expect hat.skip_one]
  simp only [Bool.not_true, Bool.false_eq_true, if_false]
  rw [run_bind hc, ← hrp]
  simp only [run_expect h₃, Bool.not_true, Bool.false_eq_true, if_false]
  rw [run_bind hs]
  rfl

theorem statementRead_ifThen {kw lp rp : Token} {u v : List Token} {cond : Expr}
    {thenStmt : Stmt} (hkw : kw.kind = .kwIf) (hlp : lp.kind = .lParen)
    (hcond : Expression u cond) (hrp : rp.kind = .rParen)
    (hthen : StatementRead v thenStmt) :
    StatementRead (kw :: lp :: (u ++ rp :: v)) (.ifs {} cond thenStmt none) := by
  intro hnear limit p r hat hend hlimit
  have hat : At p (kw :: lp :: (u ++ rp :: (v ++ r))) := by simpa using hat
  have hlen := hat.length
  simp only [List.length_cons, List.length_append] at hlen
  obtain ⟨limit, rfl⟩ : ∃ m, limit = m + 2 := ⟨limit - 2, by omega⟩
  have h₂ := hat.skip_one.skip_one
  have hlen₂ := h₂.length
  simp only [List.length_cons, List.length_append] at hlen₂
  obtain ⟨c, hc, hcbare⟩ := expression_read hcond limit _ _ h₂
    (by rw [headKind_cons, hrp]; rfl) (by omega)
  have h₃ := h₂.skip
  have h₄ := h₃.skip_one
  have hlen₄ := h₄.length
  rw [List.length_append] at hlen₄
  obtain ⟨s, hs, hsbare⟩ := hthen hnear limit _ r h₄ (fun _ => hend rfl) (by omega)
  have hkind : (p.peekAt 0).kind = .kwIf := by rw [hat.peek, hkw]
  have hskip : ((((p.skip 1).skip 1).skip u.length).skip 1).skip v.length =
      p.skip (kw :: lp :: (u ++ rp :: v)).length := by
    rw [skip_cons, skip_two p _ kw lp]
  have helse : ((((((p.skip 1).skip 1).skip u.length).skip 1).skip v.length).peekAt
      0).kind ≠ .kwElse := by
    rw [h₄.skip.kind]
    exact hend rfl
  refine ⟨.ifs kw.loc c s none, ?_, by simp [Stmt.bare, hcbare, hsbare]⟩
  rw [← hskip, parseStatement, run_peek]
  simp only [hkind]
  rw [parseSelectionStmt, run_advance hat, ← hlp, run_expect hat.skip_one]
  simp only [Bool.not_true, Bool.false_eq_true, if_false]
  rw [run_bind hc, ← hrp]
  simp only [run_expect h₃, Bool.not_true, Bool.false_eq_true, if_false]
  rw [run_bind hs]
  simp only [run_match_ne helse, Bool.false_eq_true, if_false]
  rfl

theorem statementRead_ifElse {kw lp rp els : Token} {u v w : List Token} {cond : Expr}
    {thenStmt elseStmt : Stmt} (hkw : kw.kind = .kwIf) (hlp : lp.kind = .lParen)
    (hcond : Expression u cond) (hrp : rp.kind = .rParen)
    (hthen : StatementRead v thenStmt) (hels : els.kind = .kwElse)
    (helse : StatementRead w elseStmt) :
    StatementRead (kw :: lp :: (u ++ rp :: (v ++ els :: w)))
      (.ifs {} cond thenStmt (some elseStmt)) := by
  intro hnear limit p r hat hend hlimit
  obtain ⟨hclosed, hnear₁, hnear₂⟩ := hnear
  have hat : At p (kw :: lp :: (u ++ rp :: (v ++ els :: (w ++ r)))) := by simpa using hat
  have hlen := hat.length
  simp only [List.length_cons, List.length_append] at hlen
  obtain ⟨limit, rfl⟩ : ∃ m, limit = m + 2 := ⟨limit - 2, by omega⟩
  have h₂ := hat.skip_one.skip_one
  have hlen₂ := h₂.length
  simp only [List.length_cons, List.length_append] at hlen₂
  obtain ⟨c, hc, hcbare⟩ := expression_read hcond limit _ _ h₂
    (by rw [headKind_cons, hrp]; rfl) (by omega)
  have h₃ := h₂.skip
  have h₄ := h₃.skip_one
  have hlen₄ := h₄.length
  simp only [List.length_cons, List.length_append] at hlen₄
  obtain ⟨s, hs, hsbare⟩ := hthen hnear₁ limit _ _ h₄
    (fun hopen => by rw [hclosed] at hopen; cases hopen) (by omega)
  have h₅ := h₄.skip
  have h₆ := h₅.skip_one
  have hlen₆ := h₆.length
  rw [List.length_append] at hlen₆
  obtain ⟨s', hs', hsbare'⟩ := helse hnear₂ limit _ r h₆ hend (by omega)
  have hkind : (p.peekAt 0).kind = .kwIf := by rw [hat.peek, hkw]
  have hskip : ((((((p.skip 1).skip 1).skip u.length).skip 1).skip v.length).skip
      1).skip w.length = p.skip (kw :: lp :: (u ++ rp :: (v ++ els :: w))).length := by
    rw [skip_cons (((p.skip 1).skip 1).skip u.length |>.skip 1) v w els, skip_cons,
      skip_two p _ kw lp]
  refine ⟨.ifs kw.loc c s (some s'), ?_, by simp [Stmt.bare, hcbare, hsbare, hsbare']⟩
  rw [← hskip, parseStatement, run_peek]
  simp only [hkind]
  rw [parseSelectionStmt, run_advance hat, ← hlp, run_expect hat.skip_one]
  simp only [Bool.not_true, Bool.false_eq_true, if_false]
  rw [run_bind hc, ← hrp]
  simp only [run_expect h₃, Bool.not_true, Bool.false_eq_true, if_false]
  rw [run_bind hs]
  simp only [← hels, run_match h₅, if_true]
  rw [run_bind hs']
  rfl

theorem compound_read {w : List Token} {b : CompoundStmt} (h : Compound w b) :
    CompoundRead w b := by
  refine @Compound.rec (fun w b _ => CompoundRead w b) (fun w ss _ => StmtsRead w ss)
    (fun w s _ => StatementRead w s) ?mk ?snoc ?empty ?expr ?nothing ?compound ?ifThen
    ?ifElse ?iteration ?returnVoid ?returnValue w b h
  case mk => exact fun hlb hdecls _ hrb h => compoundRead_mk hlb hdecls h hrb
  case snoc => exact fun _ hder hlist h => stmtsRead_snoc hlist hder h
  case empty =>
    refine ⟨.inl rfl, fun _ limit p r acc hat hend hlimit => ?_⟩
    exact ⟨limit, acc, rfl, by simp, hlimit⟩
  case expr => exact fun he hsemi => statementRead_expr he hsemi
  case nothing => exact fun hsemi => statementRead_nothing hsemi
  case compound => exact fun hder h => statementRead_compound hder h
  case ifThen =>
    exact fun hkw hlp hcond hrp _ h => statementRead_ifThen hkw hlp hcond hrp h
  case ifElse =>
    exact fun hkw hlp hcond hrp _ hels _ h h' =>
      statementRead_ifElse hkw hlp hcond hrp h hels h'
  case iteration =>
    exact fun hkw hlp hcond hrp _ h => statementRead_iteration hkw hlp hcond hrp h
  case returnVoid => exact fun hkw hsemi => statementRead_returnVoid hkw hsemi
  case returnValue => exact fun hkw he hsemi => statementRead_returnValue hkw he hsemi

end Parser

end CMinus
