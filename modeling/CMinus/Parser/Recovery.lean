import CMinus.Parser.Exact

namespace CMinus

namespace Parser

open Grammar

/-! A derivation spans neither an `EndOfFile` nor an `Error` token. -/

def Plain (w : List Token) : Prop := ∀ tok ∈ w, tok.kind ≠ .endOfFile ∧ tok.kind ≠ .error

@[simp] theorem plain_nil : Plain [] := fun _ h => by cases h

@[simp] theorem plain_cons {tok : Token} {w : List Token} :
    Plain (tok :: w) ↔ (tok.kind ≠ .endOfFile ∧ tok.kind ≠ .error) ∧ Plain w := by
  simp [Plain]

@[simp] theorem plain_append {v w : List Token} : Plain (v ++ w) ↔ Plain v ∧ Plain w := by
  simp only [Plain, List.mem_append]
  exact ⟨fun h => ⟨fun tok hv => h tok (.inl hv), fun tok hw => h tok (.inr hw)⟩,
    fun h tok hmem => hmem.elim (h.1 tok) (h.2 tok)⟩

theorem expression_plain {w : List Token} {e : Expr} (h : Expression w e) : Plain w := by
  have hrelop : ∀ {kind op}, Relop kind op → kind ≠ .endOfFile ∧ kind ≠ .error := by
    intro kind op h
    cases h <;> simp
  have haddop : ∀ {kind op}, Addop kind op → kind ≠ .endOfFile ∧ kind ≠ .error := by
    intro kind op h
    cases h <;> simp
  have hmulop : ∀ {kind op}, Mulop kind op → kind ≠ .endOfFile ∧ kind ≠ .error := by
    intro kind op h
    cases h <;> simp
  refine @Expression.rec (fun w _ _ => Plain w) (fun w _ _ _ => Plain w) (fun w _ _ => Plain w)
    (fun w _ _ => Plain w) (fun w _ _ => Plain w) (fun w _ _ => Plain w) (fun w _ _ => Plain w)
    (fun w _ _ => Plain w) (fun w _ _ => Plain w) ?assign ?simple ?scalar ?element ?compare
    ?additive ?addFold ?term ?mulFold ?factor ?paren ?var ?call ?num ?callMk ?list ?empty
    ?argSnoc ?argOne w e h
  case assign =>
    intro v w eq target index value _ heq _ hv hw
    simp [hv, hw, heq]
  case scalar =>
    intro name hname
    simp [hname]
  case element =>
    intro name lb rb w index hname hlb _ hrb hw
    simp [hname, hlb, hrb, hw]
  case compare =>
    intro v w tok op lhs rhs _ htok _ hv hw
    simp [hv, hw, hrelop htok]
  case addFold =>
    intro v w tok op lhs rhs _ htok _ hv hw
    simp [hv, hw, haddop htok]
  case mulFold =>
    intro v w tok op lhs rhs _ htok _ hv hw
    simp [hv, hw, hmulop htok]
  case paren =>
    intro lp rp w e hlp _ hrp hw
    simp [hlp, hrp, hw]
  case num =>
    intro tok htok
    simp [htok]
  case callMk =>
    intro name lp rp w args hname hlp _ hrp hw
    simp [hname, hlp, hrp, hw]
  case empty => exact plain_nil
  case argSnoc =>
    intro v w comma args arg _ hcomma _ hv hw
    simp [hcomma, hv, hw]
  case simple | additive | term | factor | var | call | list | argOne =>
    intros
    assumption

theorem typeSpecifier_plain {kind : TokenKind} {t : CType} (h : TypeSpecifier kind t) :
    kind ≠ .endOfFile ∧ kind ≠ .error := by
  cases h <;> simp

theorem varDeclaration_plain {w : List Token} {decl : VarDecl} (h : VarDeclaration w decl) :
    Plain w := by
  cases h with
  | scalar htype hname hsemi => simp [typeSpecifier_plain htype, hname, hsemi]
  | array htype hname hlb hsize hrb hsemi =>
      simp [typeSpecifier_plain htype, hname, hlb, hsize, hrb, hsemi]

theorem params_plain {w : List Token} {params : List ParamDecl} (h : Params w params) :
    Plain w := by
  have hone : ∀ {w : List Token} {param : ParamDecl}, Param w param → Plain w := by
    intro w param h
    cases h with
    | scalar htype hname => simp [typeSpecifier_plain htype, hname]
    | array htype hname hlb hrb => simp [typeSpecifier_plain htype, hname, hlb, hrb]
  cases h with
  | void hvoid => simp [hvoid]
  | list hlist =>
      induction hlist with
      | one hparam => exact hone hparam
      | snoc _ hcomma hparam ih => simp [ih, hcomma, hone hparam]

theorem localDeclarations_plain {w : List Token} {decls : List VarDecl}
    (h : LocalDeclarations w decls) : Plain w := by
  induction h with
  | empty => exact plain_nil
  | snoc _ hdecl ih => simp [ih, varDeclaration_plain hdecl]

theorem compound_plain {w : List Token} {block : CompoundStmt} (h : Compound w block) :
    Plain w := by
  refine @Compound.rec (fun w _ _ => Plain w) (fun w _ _ => Plain w) (fun w _ _ => Plain w)
    ?mk ?snoc ?empty ?expr ?nothing ?compound ?ifThen ?ifElse ?iteration ?returnVoid
    ?returnValue w block h
  case mk =>
    intro lb rb v w decls stmts hlb hdecls _ hrb hw
    simp [hlb, hrb, localDeclarations_plain hdecls, hw]
  case snoc =>
    intro v w stmts stmt _ _ hv hw
    simp [hv, hw]
  case empty => exact plain_nil
  case expr =>
    intro w semi e he hsemi
    simp [expression_plain he, hsemi]
  case nothing =>
    intro semi hsemi
    simp [hsemi]
  case compound =>
    intro w block _ hw
    exact hw
  case ifThen =>
    intro kw lp rp u v cond thenStmt hkw hlp hcond hrp _ hv
    simp [hkw, hlp, hrp, expression_plain hcond, hv]
  case ifElse =>
    intro kw lp rp els u v w cond thenStmt elseStmt hkw hlp hcond hrp _ hels _ hv hw
    simp [hkw, hlp, hrp, hels, expression_plain hcond, hv, hw]
  case iteration =>
    intro kw lp rp u v cond body hkw hlp hcond hrp _ hv
    simp [hkw, hlp, hrp, expression_plain hcond, hv]
  case returnVoid =>
    intro kw semi hkw hsemi
    simp [hkw, hsemi]
  case returnValue =>
    intro kw semi w e hkw he hsemi
    simp [hkw, hsemi, expression_plain he]

theorem declaration_plain {w : List Token} {decl : Decl} (h : Declaration w decl) :
    Plain w := by
  cases h with
  | var h => exact varDeclaration_plain h
  | «fun» h =>
      cases h with
      | mk htype hname hlp hparams hrp hblock =>
          simp [typeSpecifier_plain htype, hname, hlp, hrp, params_plain hparams,
            compound_plain hblock]

theorem declarationList_plain {w : List Token} {decls : List Decl}
    (h : DeclarationList w decls) : Plain w := by
  induction h with
  | one hdecl => exact declaration_plain hdecl
  | snoc _ hdecl ih => simp [ih, declaration_plain hdecl]

/-! Junk between declarations.  The depth counts open braces; a closing brace at depth
zero leaves it there. -/

def braceDepth (depth : Nat) (tok : Token) : Nat :=
  if tok.is .lBrace then depth + 1
  else if tok.is .rBrace then depth - 1
  else depth

def depthAfter (depth : Nat) (toks : List Token) : Nat :=
  toks.foldl braceDepth depth

/-- No type specifier stands at depth zero. -/
def NoneOutside : Nat → List Token → Prop
  | _, [] => True
  | depth, tok :: toks =>
      (depth = 0 → tok.kind.isTypeSpecifier = false) ∧ NoneOutside (braceDepth depth tok) toks

instance : ∀ (toks : List Token) (depth : Nat), Decidable (NoneOutside depth toks)
  | [], _ => isTrue trivial
  | tok :: toks, depth =>
      have := instDecidableNoneOutside toks (braceDepth depth tok)
      inferInstanceAs (Decidable (_ ∧ _))

structure Junk (toks : List Token) : Prop where
  plain : Plain toks
  outside : NoneOutside 0 toks
  closed : depthAfter 0 toks = 0

/-- A list of declarations, possibly empty, and its trees. -/
def Declared (w : List Token) (decls : List Decl) : Prop :=
  (w = [] ∧ decls = [] ∨ DeclarationList w decls) ∧
    ∀ f, Decl.fun f ∈ decls → NearestElses f.body.stmts

theorem Declared.plain {w : List Token} {decls : List Decl} (h : Declared w decls) :
    Plain w := by
  rcases h.1 with ⟨rfl, -⟩ | hlist
  · exact plain_nil
  · exact declarationList_plain hlist

theorem Declared.starts {w : List Token} {decls : List Decl} (h : Declared w decls) :
    w = [] ∨ (headKind w).isTypeSpecifier = true := by
  have hone : ∀ {w : List Token} {decl : Decl}, Declaration w decl →
      w ≠ [] ∧ (headKind w).isTypeSpecifier = true := by
    intro w decl h
    cases h with
    | var h =>
        obtain ⟨tok, rest, rfl, htype⟩ := varDeclaration_starts h
        exact ⟨by simp, htype⟩
    | «fun» h =>
        cases h with
        | mk htype _ _ _ _ _ =>
            refine ⟨by simp, ?_⟩
            rw [headKind_cons]
            generalize Token.kind _ = kind at htype
            cases htype <;> rfl
  rcases h.1 with ⟨rfl, -⟩ | hlist
  · exact .inl rfl
  right
  clear h
  induction hlist with
  | one hdecl => exact (hone hdecl).2
  | @snoc v w decls decl hlist hdecl ih =>
      cases v with
      | nil => exact (hone hdecl).2
      | cons tok v => exact ih

theorem run_declared {w r : List Token} {decls : List Decl} (h : Declared w decls)
    (limit : Nat) (p : Parser) (acc : List Decl) (hat : At p (w ++ r))
    (hlimit : 10 * p.ahead.length + 9 ≤ limit) :
    ∃ m ds, parseDecls limit acc p = parseDecls m ds (p.skip w.length) ∧
      ds.map Decl.bare = acc.map Decl.bare ++ decls ∧
      10 * (p.skip w.length).ahead.length + 9 ≤ m := by
  obtain ⟨hlist, hnear⟩ := h
  rcases hlist with ⟨rfl, rfl⟩ | hlist
  · exact ⟨limit, acc, rfl, by simp, hlimit⟩
  · exact run_declarationList hlist hnear limit p r acc hat hlimit

/-! Recovery runs through junk, and stops in front of a type specifier or at the end. -/

theorem run_synchronizeDeclarationFrom {toks r : List Token} (depth : Nat) (limit : Nat)
    (p : Parser) (hat : At p (toks ++ r)) (houtside : NoneOutside depth toks)
    (hclosed : depthAfter depth toks = 0)
    (hstop : r = [] ∨ (headKind r).isTypeSpecifier = true) (hlimit : toks.length < limit) :
    synchronizeDeclarationFrom limit depth p = some ((), p.skip toks.length) := by
  induction toks generalizing depth limit p with
  | nil =>
      obtain ⟨limit, rfl⟩ : ∃ m, limit = m + 1 := ⟨limit - 1, by omega⟩
      obtain rfl : depth = 0 := hclosed
      rw [synchronizeDeclarationFrom, run_atEnd]
      rcases hstop with rfl | hstop
      · have hend : (p.peekAt 0).kind = .endOfFile := hat.kind
        rw [Token.is_eq_true.mpr hend]
        rfl
      · have hmore : (p.peekAt 0).kind ≠ .endOfFile := by
          rw [hat.kind]
          exact ne_endOfFile hstop rfl
        have htype : (p.peekAt 0).kind.isTypeSpecifier = true := by
          rw [hat.kind]
          exact hstop
        rw [Token.is_eq_false.mpr hmore]
        simp only [Bool.false_eq_true, if_false, run_peek, htype, and_self, if_true]
        rfl
  | cons tok toks ih =>
      obtain ⟨limit, rfl⟩ : ∃ m, limit = m + 1 := ⟨limit - 1, by omega⟩
      have hmore : (p.peekAt 0).kind ≠ .endOfFile := by
        rw [hat.peek]
        exact (ahead_cons hat.ahead).2.1
      have hgo : ¬(depth = 0 ∧ tok.kind.isTypeSpecifier = true) := by
        rintro ⟨hzero, htype⟩
        rw [houtside.1 hzero] at htype
        cases htype
      have hdepth : (if tok.is .lBrace then depth + 1
          else if tok.is .rBrace ∧ 0 < depth then depth - 1 else depth) =
          braceDepth depth tok := by
        unfold braceDepth
        by_cases hl : tok.is .lBrace = true
        · rw [if_pos hl, if_pos hl]
        · rw [if_neg hl, if_neg hl]
          by_cases hr : tok.is .rBrace = true
          · rw [if_pos hr]
            by_cases hzero : 0 < depth
            · rw [if_pos ⟨hr, hzero⟩]
            · rw [if_neg fun h => hzero h.2]
              omega
          · rw [if_neg fun h => hr h.1, if_neg hr]
      have hrest := ih (braceDepth depth tok) limit (p.skip 1) hat.skip_one houtside.2 hclosed
        (by simpa using hlimit)
      rw [synchronizeDeclarationFrom, run_atEnd, Token.is_eq_false.mpr hmore]
      simp only [Bool.false_eq_true, if_false, run_peek, hat.peek, if_neg hgo, hdepth,
        run_advance hat]
      rw [hrest, skip_skip, List.length_cons, Nat.add_comm]

theorem run_parseTypeSpecifier_fail {p : Parser}
    (h : (p.peekAt 0).kind.isTypeSpecifier = false) :
    parseTypeSpecifier p = some (none, p.withError (p.peekAt 0)
      ("expected 'int' or 'void', found " ++ describeToken (p.peekAt 0))) := by
  have hint : (p.peekAt 0).kind ≠ .kwInt := by
    intro hk
    rw [hk] at h
    cases h
  have hvoid : (p.peekAt 0).kind ≠ .kwVoid := by
    intro hk
    rw [hk] at h
    cases h
  rw [parseTypeSpecifier, run_peek, run_match_ne hint]
  simp only [Bool.false_eq_true, if_false, run_match_ne hvoid]
  rfl

/-- One round of the loop over the declarations, started at junk. -/
theorem run_junk {tok : Token} {toks r : List Token} (hjunk : Junk (tok :: toks))
    (hstop : r = [] ∨ (headKind r).isTypeSpecifier = true) (limit : Nat) (p : Parser)
    (acc : List Decl) (hat : At p (tok :: toks ++ r)) :
    ∃ message, parseDecls (limit + 1) acc p =
      parseDecls limit acc ((p.withError tok message).skip (tok :: toks).length) := by
  have hfirst : (p.peekAt 0).kind.isTypeSpecifier = false := by
    rw [hat.peek]
    exact hjunk.outside.1 rfl
  have hmore : (p.peekAt 0).kind ≠ .endOfFile := by
    rw [hat.peek]
    exact (hjunk.plain tok List.mem_cons_self).1
  refine ⟨"expected 'int' or 'void', found " ++ describeToken tok, ?_⟩
  have hlength : (tok :: toks).length < p.tokens.length + 1 := by
    have hahead := p.ahead_length_le
    rw [hat.ahead, List.length_append] at hahead
    omega
  have herror : At (p.withError tok ("expected 'int' or 'void', found " ++ describeToken tok))
      (tok :: toks ++ r) := ⟨hat.valid, hat.ahead⟩
  have hfail : parseDeclaration limit p = some (none,
      p.withError tok ("expected 'int' or 'void', found " ++ describeToken tok)) := by
    rw [parseDeclaration, run_bind (run_parseTypeSpecifier_fail hfirst), hat.peek]
    rfl
  have hsync : synchronizeDeclaration
      (p.withError tok ("expected 'int' or 'void', found " ++ describeToken tok)) =
      some ((), (p.withError tok ("expected 'int' or 'void', found " ++
        describeToken tok)).skip (tok :: toks).length) :=
    run_synchronizeDeclarationFrom 0 _ _ herror hjunk.outside hjunk.closed hstop hlength
  have hmoved : p.pos + (tok :: toks).length ≠ p.pos := by
    simp
  rw [parseDecls, run_atEnd, Token.is_eq_false.mpr hmore]
  simp only [Bool.false_eq_true, if_false, run_position]
  rw [run_bind hfail]
  dsimp only
  rw [run_bind hsync, run_position]
  exact congrFun (if_neg hmoved) _

/-- The parser over plain tokens and an `EndOfFile`. -/
theorem make_plain {w : List Token} {eof : Token} (diags : Diagnostics) (hplain : Plain w)
    (heof : eof.kind = .endOfFile) :
    At (Parser.make (w ++ [eof]) diags) w ∧
      (Parser.make (w ++ [eof]) diags).diags = diags :=
  make_at diags (fun tok hmem => (hplain tok hmem).2) heof fun tok hmem => (hplain tok hmem).1

theorem parseProgram_of_decls {p parser : Parser} {decls : List Decl}
    (hmore : (p.peekAt 0).kind ≠ .endOfFile)
    (hrun : parseDecls (recursionLimit p.tokens) [] p = some (decls, parser)) :
    p.parseProgram = some ({ decls := decls }, parser) := by
  rw [parseProgram, parseProgramWith, run_atEnd, Token.is_eq_false.mpr hmore]
  simp only [Bool.false_eq_true, if_false]
  rw [run_bind hrun]
  rfl

theorem parseProgram_junk {w₁ w₂ : List Token} {decls₁ decls₂ : List Decl} {tok eof : Token}
    {toks : List Token} (diags : Diagnostics) (h₁ : Declared w₁ decls₁)
    (hjunk : Junk (tok :: toks)) (h₂ : Declared w₂ decls₂) (heof : eof.kind = .endOfFile) :
    ∃ program parser message,
      (Parser.make (w₁ ++ (tok :: toks) ++ w₂ ++ [eof]) diags).parseProgram =
        some (program, parser) ∧
      parser.diags = diags ++ [⟨.error, tok.loc, message⟩] ∧
      program.bare.decls = decls₁ ++ decls₂ := by
  have hplain : Plain (w₁ ++ (tok :: toks) ++ w₂) := by
    rw [plain_append, plain_append]
    exact ⟨⟨h₁.plain, hjunk.plain⟩, h₂.plain⟩
  obtain ⟨hat, hdiags⟩ := make_plain diags hplain heof
  generalize Parser.make (w₁ ++ (tok :: toks) ++ w₂ ++ [eof]) diags = p at hat hdiags
  have hlimit : 10 * p.ahead.length + 9 ≤ recursionLimit p.tokens := by
    have := p.ahead_length_le
    unfold recursionLimit
    omega
  have hmore : (p.peekAt 0).kind ≠ .endOfFile := by
    rw [ne_eq, ← ahead_eq_nil hat.valid, hat.ahead]
    simp
  -- the declarations before, the junk, and the declarations after
  have hat₁ : At p (w₁ ++ (tok :: toks ++ w₂)) := by
    rwa [List.append_assoc] at hat
  obtain ⟨m, ds, hrun₁, hbare₁, hm⟩ := run_declared h₁ _ p [] hat₁ hlimit
  obtain ⟨m, rfl⟩ : ∃ k, m = k + 1 := ⟨m - 1, by omega⟩
  have hat₂ := hat₁.skip
  have hstop : w₂ = [] ∨ (headKind w₂).isTypeSpecifier = true := h₂.starts
  obtain ⟨message, hrun₂⟩ := run_junk hjunk hstop m _ ds hat₂
  have hat₃ : At (((p.skip w₁.length).withError tok message).skip (tok :: toks).length)
      (w₂ ++ []) := by
    rw [List.append_nil]
    exact At.skip ⟨hat₂.valid, hat₂.ahead⟩
  obtain ⟨k, ds', hrun₃, hbare₂, hk⟩ := run_declared h₂ m _ ds hat₃ (by
    have hlen := hat₂.length
    have hlen' := hat₃.length
    rw [List.length_append, List.length_cons] at hlen
    rw [List.append_nil] at hlen'
    omega)
  have hrun := hrun₁.trans (hrun₂.trans (hrun₃.trans
    (parseDecls_stop hat₃.skip.kind (by omega))))
  refine ⟨{ decls := ds' }, _, message, parseProgram_of_decls hmore hrun, ?_, ?_⟩
  · simp only [skip_diags, withError, hdiags]
    rfl
  · change ds'.map Decl.bare = _
    rw [hbare₂, hbare₁]
    rfl

theorem parseProgram_junk_strayBrace :
    ∃ program parser message,
      (Parser.make ([] ++ [{ kind := .rBrace, loc := ⟨1, 1⟩ }, { kind := .semicolon }] ++
        [{ kind := .kwInt }, { kind := .identifier, lexeme := "x" }, { kind := .semicolon }] ++
        [{ kind := .endOfFile }]) []).parseProgram = some (program, parser) ∧
      parser.diags = [] ++ [⟨.error, ⟨1, 1⟩, message⟩] ∧
      program.bare.decls = [] ++ [.var { name := "x", declaredType := .int }] :=
  parseProgram_junk [] ⟨.inl ⟨rfl, rfl⟩, by simp⟩ ⟨by simp, by decide, rfl⟩
    ⟨.inr (.one (.var (.scalar .int rfl rfl))), by simp⟩ rfl

end Parser

end CMinus
