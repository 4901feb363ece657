import CMinus.Lexer
import CMinus.Parser.CompleteStmt

namespace CMinus

namespace Parser

open Grammar

/-! Parameters and declarations are read back. -/

theorem run_param {w r : List Token} {param : ParamDecl} {p : Parser}
    (h : Param w param) (hat : At p (w ++ r)) (hend : headKind r ≠ .lBracket) :
    ∃ d : ParamDecl, parseParam p = some (some d, p.skip w.length) ∧ d.bare = param := by
  cases h with
  | @scalar type name t htype hname =>
      have hid : ((p.skip 1).peekAt 0).kind = .identifier := by
        rw [hat.skip_one.peek, hname]
      have hne : (((p.skip 1).skip 1).peekAt 0).kind ≠ .lBracket := by
        rw [hat.skip_one.skip_one.kind]
        exact hend
      refine ⟨{ loc := name.loc, name := name.lexeme, typeLoc := type.loc,
                declaredType := t }, ?_, rfl⟩
      rw [parseParam, run_bind (run_typeSpecifier hat htype)]
      simp only [run_check_of hid, Bool.not_true, Bool.false_eq_true, if_false,
        run_advance hat.skip_one, run_match_ne hne]
      rfl
  | @array type name lb rb t htype hname hlb hrb =>
      have hid : ((p.skip 1).peekAt 0).kind = .identifier := by
        rw [hat.skip_one.peek, hname]
      have h₂ := hat.skip_one.skip_one
      have h₃ := h₂.skip_one
      have hnum : ((((p.skip 1).skip 1).skip 1).peekAt 0).kind ≠ .number := by
        rw [h₃.peek, hrb]
        decide
      refine ⟨{ loc := name.loc, name := name.lexeme, typeLoc := type.loc,
                declaredType := t, isArray := true }, ?_, rfl⟩
      rw [parseParam, run_bind (run_typeSpecifier hat htype)]
      simp only [run_check_of hid, Bool.not_true, Bool.false_eq_true, if_false,
        run_advance hat.skip_one, ← hlb, run_match h₂, if_true, run_check_ne hnum]
      simp only [← hrb, run_expect h₃, Bool.not_true, Bool.false_eq_true, if_false]
      rfl

/-! The end of a round of the loop of `parseParams`. -/

def paramsTail (limit : Nat) (params : List ParamDecl) :
    ParserM (Option (List ParamDecl)) := do
  if !(← «match» .comma) then return some params
  parseParamsFrom limit params

theorem run_paramList {w : List Token} {params : List ParamDecl}
    (h : ParamList w params) (limit : Nat) (p : Parser) (r : List Token)
    (acc : List ParamDecl) (hat : At p (w ++ r)) (hend : headKind r ≠ .lBracket)
    (hlimit : p.ahead.length < limit) :
    ∃ m ds, parseParamsFrom limit acc p = paramsTail m ds (p.skip w.length) ∧
      ds.map ParamDecl.bare = acc.map ParamDecl.bare ++ params ∧
      (p.skip w.length).ahead.length ≤ m := by
  have hone : ∀ {w r : List Token} {param : ParamDecl} (limit : Nat) (p : Parser)
      (acc : List ParamDecl), Param w param → At p (w ++ r) → headKind r ≠ .lBracket →
      p.ahead.length < limit →
      ∃ m ds, parseParamsFrom limit acc p = paramsTail m ds (p.skip w.length) ∧
        ds.map ParamDecl.bare = acc.map ParamDecl.bare ++ [param] ∧
        (p.skip w.length).ahead.length ≤ m := by
    intro w r param limit p acc hparam hat hend hlimit
    obtain ⟨limit, rfl⟩ : ∃ m, limit = m + 1 := ⟨limit - 1, by omega⟩
    obtain ⟨d, hrun, hbare⟩ := run_param hparam hat hend
    have hlen := hat.length
    have hlen' := hat.skip.length
    rw [List.length_append] at hlen
    refine ⟨limit, acc ++ [d], ?_, by simp [hbare], by omega⟩
    rw [parseParamsFrom, run_bind hrun]
    rfl
  induction h generalizing r with
  | one hparam => exact hone limit p acc hparam hat hend hlimit
  | @snoc v w comma params param hlist hcomma hparam ih =>
      have hat := hat.front_cons
      obtain ⟨m, ds, hrun, hbare, hm⟩ := ih _ hat (by rw [headKind_cons, hcomma]; decide)
      have hop := hat.skip
      have hlen := hop.length
      have hlen' := hop.skip_one.length
      rw [List.length_cons] at hlen
      obtain ⟨m', ds', hrun', hbare', hm'⟩ :=
        hone m _ ds hparam hop.skip_one hend (by omega)
      refine ⟨m', ds', ?_, by rw [hbare', hbare, List.append_assoc], ?_⟩
      · rw [hrun, paramsTail, ← hcomma, run_match hop]
        simp only [Bool.not_true, Bool.false_eq_true, if_false]
        rw [hrun', skip_cons]
      · rwa [skip_cons p v w comma] at hm'

/-! The second token decides between `( void )` and a list of parameters. -/

theorem paramList_starts {w : List Token} {params : List ParamDecl}
    (h : ParamList w params) :
    ∃ type name rest, w = type :: name :: rest ∧ type.kind.isTypeSpecifier = true ∧
      name.kind = .identifier := by
  have hparam : ∀ {w : List Token} {param : ParamDecl}, Param w param →
      ∃ type name rest, w = type :: name :: rest ∧ type.kind.isTypeSpecifier = true ∧
        name.kind = .identifier := by
    intro w param h
    have htest : ∀ {kind : TokenKind} {t : CType}, TypeSpecifier kind t →
        kind.isTypeSpecifier = true := fun h => by cases h <;> rfl
    cases h with
    | scalar htype hname => exact ⟨_, _, _, rfl, htest htype, hname⟩
    | array htype hname _ _ => exact ⟨_, _, _, rfl, htest htype, hname⟩
  induction h with
  | one h => exact hparam h
  | snoc _ _ _ ih =>
      obtain ⟨type, name, rest, rfl, htype, hname⟩ := ih
      exact ⟨type, name, _, rfl, htype, hname⟩

theorem run_params {w r : List Token} {params : List ParamDecl} {limit : Nat}
    {p : Parser} {rp : Token} (h : Params w params) (hat : At p (w ++ rp :: r))
    (hrp : rp.kind = .rParen) (hlimit : p.ahead.length < limit) :
    ∃ ds : List ParamDecl, parseParams limit p = some (some ds, p.skip w.length) ∧
      ds.map ParamDecl.bare = params := by
  have hnext : ∀ {next : Token → ParserM (Option (List ParamDecl))},
      (peekNext >>= next) p = next (p.peekAt 1) p := rfl
  cases h with
  | @void tok hvoid =>
      have hat : At p (tok :: rp :: r) := hat
      have hkind : (p.peekAt 0).kind = .kwVoid := by rw [hat.peek, hvoid]
      refine ⟨[], ?_, rfl⟩
      rw [parseParams, run_check_of hkind]
      simp only [hnext, peekAt_one hat.ahead, Token.is_eq_true.mpr hrp, Bool.and_self,
        if_true, run_advance hat]
      rfl
  | list hlist =>
      obtain ⟨type, name, rest, rfl, htype, hname⟩ := paramList_starts hlist
      obtain ⟨m, ds, hrun, hbare, hm⟩ := run_paramList hlist limit p _ [] hat
        (by rw [headKind_cons, hrp]; decide) hlimit
      have hnotParen : (p.peekAt 0).kind ≠ .rParen := by
        rw [hat.peek]
        intro hk
        rw [hk] at htype
        cases htype
      have hsecond : (p.peekAt 1).is .rParen = false := by
        rw [peekAt_one (by rw [hat.ahead]; rfl), Token.is_eq_false, hname]
        decide
      have hcomma : ((p.skip (type :: name :: rest).length).peekAt 0).kind ≠ .comma := by
        rw [hat.skip.kind, headKind_cons, hrp]
        decide
      refine ⟨ds, ?_, by simpa using hbare⟩
      rw [parseParams, run_check]
      simp only [hnext, hsecond, Bool.and_false, Bool.false_eq_true, if_false,
        run_check_ne hnotParen]
      rw [hrun, paramsTail, run_match_ne hcomma]
      rfl

theorem run_declaration {w r : List Token} {decl : Decl} {limit : Nat} {p : Parser}
    (h : Declaration w decl) (hnear : ∀ f, decl = .fun f → NearestElses f.body.stmts)
    (hat : At p (w ++ r)) (hlimit : 10 * p.ahead.length + 8 ≤ limit) :
    ∃ d : Decl, parseDeclaration limit p = some (some d, p.skip w.length) ∧
      d.bare = decl := by
  cases h with
  | var h =>
      obtain ⟨type, name, rest, t, rfl, htype, hname, hnotParen, hfinish⟩ :=
        varDeclaration_split h
      obtain ⟨d, hrun, hbare⟩ := hfinish _ r hat.skip_one.skip_one
      have hid : ((p.skip 1).peekAt 0).kind = .identifier := by
        rw [hat.skip_one.peek, hname]
      have hparen : (((p.skip 1).skip 1).peekAt 0).kind ≠ .lParen := by
        rw [hat.skip_one.skip_one.kind]
        cases rest with
        | nil => cases h
        | cons tok rest => exact hnotParen
      refine ⟨.var d, ?_, by rw [Decl.bare, hbare]⟩
      rw [← skip_two p rest type name, parseDeclaration,
        run_bind (run_typeSpecifier hat htype)]
      simp only [run_check_of hid, Bool.not_true, Bool.false_eq_true, if_false,
        run_advance hat.skip_one, run_check_ne hparen]
      rw [run_bind hrun]
      rfl
  | «fun» h =>
      cases h with
      | @mk type name lp rp v w t params block htype hname hlp hparams hrp hblock =>
          have hat : At p (type :: name :: lp :: (v ++ rp :: (w ++ r))) := by
            simpa using hat
          have hlen := hat.length
          simp only [List.length_cons, List.length_append] at hlen
          have hid : ((p.skip 1).peekAt 0).kind = .identifier := by
            rw [hat.skip_one.peek, hname]
          have h₂ := hat.skip_one.skip_one
          have hparen : (((p.skip 1).skip 1).peekAt 0).kind = .lParen := by
            rw [h₂.peek, hlp]
          have h₃ := h₂.skip_one
          have hlen₃ := h₃.length
          simp only [List.length_cons, List.length_append] at hlen₃
          obtain ⟨ds, hds, hdsbare⟩ := run_params hparams h₃ hrp
            (show _ < limit by omega)
          have h₄ := h₃.skip
          have h₅ := h₄.skip_one
          have hlen₅ := h₅.length
          rw [List.length_append] at hlen₅
          obtain ⟨b, hb, hbbare⟩ :=
            compound_read hblock (hnear _ rfl) limit _ r h₅ (by omega)
          have hbrace : ((((((p.skip 1).skip 1).skip 1).skip v.length).skip 1).peekAt
              0).kind = .lBrace := by
            cases hblock with
            | mk hlb _ _ _ => rw [h₅.peek, hlb]
          have hskip : (((((p.skip 1).skip 1).skip 1).skip v.length).skip 1).skip
              w.length = p.skip (type :: name :: lp :: (v ++ rp :: w)).length := by
            simp only [skip_skip, List.length_cons, List.length_append]
            congr 1
            omega
          refine ⟨.fun { loc := name.loc, name := name.lexeme, typeLoc := type.loc,
                         returnType := t, params := ds, body := b }, ?_, ?_⟩
          · rw [← hskip, parseDeclaration, run_bind (run_typeSpecifier hat htype)]
            simp only [run_check_of hid, Bool.not_true, Bool.false_eq_true, if_false,
              run_advance hat.skip_one, run_check_of hparen, if_true]
            refine run_bind (b := some _) ?_
            rw [finishFunDeclaration, ← hlp, run_expect h₂]
            simp only [Bool.not_true, Bool.false_eq_true, if_false]
            rw [run_bind hds, ← hrp]
            simp only [run_expect h₄, run_check_of hbrace, Bool.not_true,
              Bool.false_eq_true, if_false]
            rw [run_bind hb]
            rfl
          · rw [Decl.bare, FunDecl.bare, hdsbare, hbbare]

theorem declaration_ne_nil {w : List Token} {decl : Decl} (h : Declaration w decl) :
    w ≠ [] := by
  cases h with
  | var h =>
      obtain ⟨_, _, _, _, rfl, -⟩ := varDeclaration_split h
      simp
  | «fun» h =>
      cases h
      simp

theorem declaration_starts {w r : List Token} {decl : Decl} {p : Parser}
    (h : Declaration w decl) (hat : At p (w ++ r)) :
    (p.peekAt 0).kind ≠ .endOfFile := by
  rw [ne_eq, ← ahead_eq_nil hat.valid, hat.ahead, List.append_eq_nil_iff]
  exact fun hnil => declaration_ne_nil h hnil.1

theorem run_declarationList {w : List Token} {decls : List Decl}
    (h : DeclarationList w decls)
    (hnear : ∀ f, Decl.fun f ∈ decls → NearestElses f.body.stmts) (limit : Nat)
    (p : Parser) (r : List Token) (acc : List Decl) (hat : At p (w ++ r))
    (hlimit : 10 * p.ahead.length + 9 ≤ limit) :
    ∃ m ds, parseDecls limit acc p = parseDecls m ds (p.skip w.length) ∧
      ds.map Decl.bare = acc.map Decl.bare ++ decls ∧
      10 * (p.skip w.length).ahead.length + 9 ≤ m := by
  have hone : ∀ {w r : List Token} {decl : Decl} (limit : Nat) (p : Parser)
      (acc : List Decl), Declaration w decl →
      (∀ f, decl = .fun f → NearestElses f.body.stmts) → At p (w ++ r) →
      10 * p.ahead.length + 9 ≤ limit →
      ∃ m ds, parseDecls limit acc p = parseDecls m ds (p.skip w.length) ∧
        ds.map Decl.bare = acc.map Decl.bare ++ [decl] ∧
        10 * (p.skip w.length).ahead.length + 9 ≤ m := by
    intro w r decl limit p acc hdecl hnear hat hlimit
    obtain ⟨limit, rfl⟩ : ∃ m, limit = m + 1 := ⟨limit - 1, by omega⟩
    obtain ⟨d, hrun, hbare⟩ := run_declaration hdecl hnear hat
      (show _ ≤ limit by omega)
    have hlen := hat.length
    have hlen' := hat.skip.length
    have hpos := List.length_pos_iff.mpr (declaration_ne_nil hdecl)
    rw [List.length_append] at hlen
    refine ⟨limit, acc ++ [d], ?_, by simp [hbare], by omega⟩
    rw [parseDecls, run_atEnd, Token.is_eq_false.mpr (declaration_starts hdecl hat)]
    simp only [Bool.false_eq_true, if_false, run_position]
    rw [run_bind hrun]
  induction h generalizing r with
  | one hdecl =>
      exact hone limit p acc hdecl (fun f hf => hnear f (by simp [hf])) hat hlimit
  | @snoc v w decls decl hlist hdecl ih =>
      obtain ⟨m, ds, hrun, hbare, hm⟩ := ih (fun f hf => hnear f (by simp [hf])) _ hat.front
      obtain ⟨m', ds', hrun', hbare', hm'⟩ :=
        hone m _ ds hdecl (fun f hf => hnear f (by simp [hf])) hat.front.skip hm
      refine ⟨m', ds', by rw [hrun, hrun', skip_append],
        by rw [hbare', hbare, List.append_assoc], ?_⟩
      rwa [skip_append] at hm'

/-! The parser accepts every derivation with nearest `else`, and returns its tree. -/

theorem parseDecls_stop {limit : Nat} {p : Parser} {ds : List Decl}
    (hend : (p.peekAt 0).kind = .endOfFile) (hlimit : 0 < limit) :
    parseDecls limit ds p = some (ds, p) := by
  obtain ⟨limit, rfl⟩ : ∃ m, limit = m + 1 := ⟨limit - 1, by omega⟩
  rw [parseDecls, run_atEnd, Token.is_eq_true.mpr hend]
  rfl

theorem parseProgram_complete {p : Parser} {w : List Token} {t : Program}
    (hat : At p w) (h : Derives w t) (hnear : NearestElseProgram t) :
    ∃ program, p.parseProgram = some (program, p.skip w.length) ∧ program.bare = t := by
  cases h with
  | @mk decls hlist =>
      have hat' : At p (w ++ []) := by rwa [List.append_nil]
      have hlimit : 10 * p.ahead.length + 9 ≤ recursionLimit p.tokens := by
        have := p.ahead_length_le
        unfold recursionLimit
        omega
      obtain ⟨m, ds, hrun, hbare, hm⟩ :=
        run_declarationList hlist hnear _ p [] [] hat' hlimit
      have hend : ((p.skip w.length).peekAt 0).kind = .endOfFile := hat'.skip.kind
      have hmore : (p.peekAt 0).kind ≠ .endOfFile := by
        have hne : w ≠ [] := by
          cases hlist with
          | one hdecl => exact declaration_ne_nil hdecl
          | snoc _ hdecl =>
              have := declaration_ne_nil hdecl
              simp [this]
        rw [ne_eq, ← ahead_eq_nil hat.valid, hat.ahead]
        exact hne
      refine ⟨{ decls := ds }, ?_, by simpa [Program.bare] using hbare⟩
      rw [parseProgram, parseProgramWith, run_atEnd, Token.is_eq_false.mpr hmore]
      simp only [Bool.false_eq_true, if_false]
      rw [run_bind (hrun.trans (parseDecls_stop hend (by omega)))]
      rfl

/-! Any derivation can be rearranged so that every `else` is nearest: an `else`
behind an open `if` moves into it. -/

theorem attach_else {v w : List Token} {els : Token} {s e : Stmt} (h : Statement v s)
    (hels : els.kind = .kwElse) (he : Statement w e) (hnearE : NearestElse e)
    (hnear : NearestElse s) (hopen : openIf s = true) :
    ∃ s', Statement (v ++ els :: w) s' ∧ NearestElse s' := by
  revert hnear hopen
  refine @Statement.rec (fun _ _ _ => True) (fun _ _ _ => True)
    (fun v s _ => NearestElse s → openIf s = true →
      ∃ s', Statement (v ++ els :: w) s' ∧ NearestElse s')
    ?mk ?snoc ?empty ?expr ?nothing ?compound ?ifThen ?ifElse ?iteration ?returnVoid
    ?returnValue v s h
  case ifThen =>
    intro kw lp rp u v cond t hkw hlp hcond hrp ht ih hnear _
    cases hop : openIf t with
    | false =>
        refine ⟨.ifs {} cond t (some e), ?_, hop, hnear, hnearE⟩
        simpa using Statement.ifElse hkw hlp hcond hrp ht hels he
    | true =>
        obtain ⟨t', ht', hnear'⟩ := ih hnear hop
        refine ⟨.ifs {} cond t' none, ?_, hnear'⟩
        simpa using Statement.ifThen hkw hlp hcond hrp ht'
  case ifElse =>
    intro kw lp rp els' u v w' cond t f hkw hlp hcond hrp ht hels' hf _ ih hnear hopen
    obtain ⟨f', hf', hnear'⟩ := ih hnear.2.2 hopen
    refine ⟨.ifs {} cond t (some f'), ?_, hnear.1, hnear.2.1, hnear'⟩
    simpa using Statement.ifElse hkw hlp hcond hrp ht hels' hf'
  case iteration =>
    intro kw lp rp u v cond body hkw hlp hcond hrp _ ih hnear hopen
    obtain ⟨b', hb', hnear'⟩ := ih hnear hopen
    refine ⟨.whiles {} cond b', ?_, hnear'⟩
    simpa using Statement.iteration hkw hlp hcond hrp hb'
  case mk | snoc | empty => intros; trivial
  case compound =>
    intro _ _ _ _ _ hopen
    cases hopen
  case expr | nothing | returnVoid | returnValue =>
    intros
    contradiction

theorem compound_nearest {w : List Token} {b : CompoundStmt} (h : Compound w b) :
    ∃ b', Compound w b' ∧ NearestElses b'.stmts := by
  refine @Compound.rec (fun w _ _ => ∃ b', Compound w b' ∧ NearestElses b'.stmts)
    (fun w _ _ => ∃ ss, StatementList w ss ∧ NearestElses ss)
    (fun w _ _ => ∃ s, Statement w s ∧ NearestElse s)
    ?mk ?snoc ?empty ?expr ?nothing ?compound ?ifThen ?ifElse ?iteration ?returnVoid
    ?returnValue w b h
  case mk =>
    rintro lb rb v w decls _ hlb hdecls _ hrb ⟨ss, hlist, hnear⟩
    exact ⟨{ localDecls := decls, stmts := ss }, .mk hlb hdecls hlist hrb, hnear⟩
  case snoc =>
    rintro v w _ _ _ _ ⟨ss, hlist, hnear⟩ ⟨s, hs, hnear'⟩
    exact ⟨ss ++ [s], .snoc hlist hs, (nearestElses_append_one _ _).mpr ⟨hnear, hnear'⟩⟩
  case empty => exact ⟨[], .empty, trivial⟩
  case expr => exact fun he hsemi => ⟨_, .expr he hsemi, trivial⟩
  case nothing => exact fun hsemi => ⟨_, .nothing hsemi, trivial⟩
  case compound =>
    rintro w _ _ ⟨b, hb, hnear⟩
    exact ⟨b.toStmt, .compound hb, hnear⟩
  case ifThen =>
    rintro kw lp rp u v cond _ hkw hlp hcond hrp _ ⟨t, ht, hnear⟩
    exact ⟨_, .ifThen hkw hlp hcond hrp ht, hnear⟩
  case ifElse =>
    rintro kw lp rp els u v w cond _ _ hkw hlp hcond hrp _ hels _ ⟨t, ht, hnear⟩
      ⟨e, he, hnear'⟩
    cases hop : openIf t with
    | false => exact ⟨_, .ifElse hkw hlp hcond hrp ht hels he, hop, hnear, hnear'⟩
    | true =>
        obtain ⟨t', ht', hnear''⟩ := attach_else ht hels he hnear' hnear hop
        exact ⟨_, .ifThen hkw hlp hcond hrp ht', hnear''⟩
  case iteration =>
    rintro kw lp rp u v cond _ hkw hlp hcond hrp _ ⟨b, hb, hnear⟩
    exact ⟨_, .iteration hkw hlp hcond hrp hb, hnear⟩
  case returnVoid => exact fun hkw hsemi => ⟨_, .returnVoid hkw hsemi, trivial⟩
  case returnValue => exact fun hkw he hsemi => ⟨_, .returnValue hkw he hsemi, trivial⟩

theorem declaration_nearest {w : List Token} {decl : Decl} (h : Declaration w decl) :
    ∃ decl', Declaration w decl' ∧ ∀ f, decl' = .fun f → NearestElses f.body.stmts := by
  cases h with
  | var h => exact ⟨_, .var h, by simp⟩
  | «fun» h =>
      cases h with
      | mk htype hname hlp hparams hrp hblock =>
          obtain ⟨b, hb, hnear⟩ := compound_nearest hblock
          refine ⟨_, .fun (.mk htype hname hlp hparams hrp hb), ?_⟩
          intro f hf
          cases hf
          exact hnear

theorem derives_nearest {w : List Token} {t : Program} (h : Derives w t) :
    ∃ t', Derives w t' ∧ NearestElseProgram t' := by
  obtain ⟨hlist⟩ := h
  suffices ∃ decls, DeclarationList w decls ∧
      ∀ f, Decl.fun f ∈ decls → NearestElses f.body.stmts by
    obtain ⟨decls, hlist, hnear⟩ := this
    exact ⟨_, .mk hlist, hnear⟩
  induction hlist with
  | one hdecl =>
      obtain ⟨decl, hdecl, hnear⟩ := declaration_nearest hdecl
      exact ⟨[decl], .one hdecl, fun f hf => hnear f (List.mem_singleton.mp hf).symm⟩
  | snoc _ hdecl ih =>
      obtain ⟨decls, hlist, hnears⟩ := ih
      obtain ⟨decl, hdecl, hnear⟩ := declaration_nearest hdecl
      refine ⟨decls ++ [decl], .snoc hlist hdecl, fun f hf => ?_⟩
      rcases List.mem_append.mp hf with hf | hf
      · exact hnears f hf
      · exact hnear f (List.mem_singleton.mp hf).symm

/-! The parser over a token list as the scanner makes it. -/

theorem make_at {w : List Token} {eof : Token} (diags : Diagnostics)
    (herror : ∀ tok ∈ w, tok.kind ≠ .error) (heof : eof.kind = .endOfFile)
    (hends : ∀ tok ∈ w, tok.kind ≠ .endOfFile) :
    At (Parser.make (w ++ [eof]) diags) w ∧
      (Parser.make (w ++ [eof]) diags).diags = diags := by
  have hkept : (w ++ [eof]).filter (fun tok => !tok.is .error) = w ++ [eof] := by
    rw [List.filter_eq_self]
    intro tok hmem
    rw [Bool.not_eq_true', Token.is_eq_false]
    rcases List.mem_append.mp hmem with hmem | hmem
    · exact herror tok hmem
    · rw [List.mem_singleton.mp hmem, heof]
      decide
  have hmake : Parser.make (w ++ [eof]) diags =
      { tokens := w ++ [eof], diags := diags } := by
    simp only [Parser.make, hkept]
    simp [heof, Token.is]
  rw [hmake]
  refine ⟨⟨⟨eof, by simp [rest], heof⟩, ?_⟩, rfl⟩
  simp only [ahead, rest, List.drop_zero]
  rw [List.takeWhile_append_of_pos
    (fun tok hmem => by simpa using hends tok hmem)]
  simp [List.takeWhile, heof, Token.is]

/-! Whatever the tokens, the parser starts before an `EndOfFile`, and has nothing
but the given tokens ahead. -/

theorem make_valid (tokens : List Token) (diags : Diagnostics) :
    (Parser.make tokens diags).Valid := by
  unfold Parser.make Valid rest
  dsimp only
  cases hlast : (tokens.filter (fun tok => !tok.is .error)).getLast? with
  | none => exact ⟨{}, by simp, rfl⟩
  | some last =>
      have hmem := List.mem_of_getLast? hlast
      dsimp only
      by_cases hend : last.is .endOfFile = true
      · rw [if_pos hend]
        exact ⟨last, by simpa using hmem, Token.is_eq_true.mp hend⟩
      · rw [if_neg hend]
        exact ⟨{ loc := last.loc }, by simp, rfl⟩

theorem make_ahead {tokens : List Token} {diags : Diagnostics} {tok : Token}
    (h : tok ∈ (Parser.make tokens diags).ahead) : tok ∈ tokens := by
  have hend := List.all_eq_true.mp List.all_takeWhile tok h
  have hmem : tok ∈ (Parser.make tokens diags).tokens :=
    List.mem_of_mem_drop ((List.takeWhile_sublist _).subset h)
  simp only [Bool.not_eq_true', Token.is_eq_false] at hend
  unfold Parser.make at hmem
  dsimp only at hmem
  cases hlast : (tokens.filter (fun tok => !tok.is .error)).getLast? with
  | none =>
      rw [hlast] at hmem
      rw [List.mem_singleton.mp hmem] at hend
      exact absurd rfl hend
  | some last =>
      rw [hlast] at hmem
      dsimp only at hmem
      split at hmem
      · exact (List.mem_filter.mp hmem).1
      · rcases List.mem_append.mp hmem with hmem | hmem
        · exact (List.mem_filter.mp hmem).1
        · rw [List.mem_singleton.mp hmem] at hend
          exact absurd rfl hend

theorem derives_ahead {tokens : List Token} {program : Program} {p' : Parser}
    (hparse : (Parser.make tokens []).parseProgram = some (program, p'))
    (herrors : p'.diags.errorCount = 0) :
    Derives (Parser.make tokens []).ahead program.bare := by
  have hdiags : (Parser.make tokens []).diags = [] := by
    unfold Parser.make
    dsimp only
    split
    · rfl
    · split <;> rfl
  obtain ⟨program', p'', hrun, -, hsound⟩ := parseProgram_spec _ (make_valid tokens [])
  rw [hparse] at hrun
  cases hrun
  rw [hdiags] at hsound
  exact (hsound herrors).1

theorem parsed_derives {tokens : List Token} {program : Program} {p' : Parser}
    (hparse : (Parser.make tokens []).parseProgram = some (program, p'))
    (herrors : p'.diags.errorCount = 0) :
    ∃ w : List Token, (∀ tok ∈ w, tok ∈ tokens) ∧ Derives w program.bare :=
  ⟨_, fun _ => make_ahead, derives_ahead hparse herrors⟩

/-! `Parser(tokens).parseProgram()` against the grammar. -/

theorem parseProgram_exact (w : List Token) (eof : Token) (diags : Diagnostics)
    (herror : ∀ tok ∈ w, tok.kind ≠ .error) (heof : eof.kind = .endOfFile)
    (hends : ∀ tok ∈ w, tok.kind ≠ .endOfFile) :
    ∃ program p', (Parser.make (w ++ [eof]) diags).parseProgram = some (program, p') ∧
      (p'.diags.errorCount = diags.errorCount ↔ ∃ t, Derives w t) ∧
      (p'.diags.errorCount = diags.errorCount →
        Derives w program.bare ∧ NearestElseProgram program.bare ∧
        ∀ t, Derives w t → NearestElseProgram t → t = program.bare) := by
  obtain ⟨hat, hdiags⟩ := make_at diags herror heof hends
  obtain ⟨program, p', hrun, -, hsound⟩ := parseProgram_spec _ hat.valid
  rw [hat.ahead, hdiags] at hsound
  refine ⟨program, p', hrun, ⟨fun h => ⟨_, (hsound h).1⟩, ?_⟩, fun h => ?_⟩
  · rintro ⟨t, ht⟩
    obtain ⟨t', ht', hnear⟩ := derives_nearest ht
    obtain ⟨program', hrun', -⟩ := parseProgram_complete hat ht' hnear
    rw [hrun] at hrun'
    cases hrun'
    rw [skip_diags, hdiags]
  · refine ⟨(hsound h).1, (hsound h).2, fun t ht hnear => ?_⟩
    obtain ⟨program', hrun', hbare⟩ := parseProgram_complete hat ht hnear
    rw [hrun] at hrun'
    cases hrun'
    exact hbare.symm

/-- An `else` after two conditions, a chain of assignments, and operators of every kind. -/
def mixed : List Token :=
  (Lexer.tokenize { source := ("int a[2]; void main(void) \x7b int x; " ++
    "if (x) if (x * 2 - 4 / x < 1 + a[0]) x = a[1] = (1 - x) * f(x, 2) - 3; else ; \x7d").toList
    }).1.dropLast

theorem parseProgram_exact_mixed :
    ∃ program p', (Parser.make (mixed ++ [{ kind := .endOfFile }]) []).parseProgram =
        some (program, p') ∧
      (p'.diags.errorCount = 0 ↔ ∃ t, Derives mixed t) ∧ p'.diags.errorCount = 0 ∧
      Derives mixed program.bare ∧ NearestElseProgram program.bare ∧
      ∀ t, Derives mixed t → NearestElseProgram t → t = program.bare := by
  obtain ⟨program, p', hrun, hexact, hsound⟩ :=
    parseProgram_exact mixed { kind := .endOfFile } [] (by decide +kernel) rfl
      (by decide +kernel)
  have herrors : (Parser.make (mixed ++ [{ kind := .endOfFile }]) []).parseProgram.map
      (fun r => r.2.diags.errorCount) = some 0 := by decide +kernel
  rw [hrun] at herrors
  have hnone : p'.diags.errorCount = 0 := Option.some.inj herrors
  exact ⟨program, p', hrun, hexact, hnone, hsound hnone⟩

end Parser

end CMinus
