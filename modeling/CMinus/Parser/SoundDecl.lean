import CMinus.Parser.SoundStmt

namespace CMinus

namespace Parser

open Grammar

/-! Parameters, rules 7-9. -/

theorem parseParam_spec (p : Parser) (hp : p.Valid) :
    Ends parseParam p (Parsed p fun used param => Param used param.bare) := by
  simp only [parseParam]
  refine (parseTypeSpecifier_spec p).bind ?_
  rintro (_ | ⟨t, typeLoc⟩) p₁ h
  · obtain ⟨-, message, rfl⟩ := h
    exact (ends_pure _).mpr (.fail ((Steps.refl hp).withError _ _) (by simp))
  · obtain ⟨htype, rfl⟩ := h
    have h₁ := Steps.advanced hp (typeSpecifier_ne_endOfFile htype)
    simp only [ends_check_or_stop, ends_check_or_else, ends_match_or_else,
      ends_expect_or_none, ends_peek_then, ends_advance_then, ends_errorAt_then, ends_pure]
    refine ⟨fun hname => ?_, fun _ => .fail (h₁.withError _ _) (by simp)⟩
    have heof : (p.advanced.peekAt 0).kind ≠ .endOfFile := by simp [hname]
    have h₂ := h₁.trans (Steps.advanced h₁.valid heof)
    rw [previousToken_advanced h₁.valid heof]
    refine ⟨fun hlb => ?_, fun _ => ?_⟩
    · have h₃ := h₂.trans (Steps.advanced h₂.valid (by simp [hlb]))
      refine ⟨fun _ => .fail (h₃.withError _ _) (by simp), fun _ =>
        ⟨fun hrb => ?_, fun _ => .fail (h₃.withError _ _) (by simp)⟩⟩
      have h₄ := h₃.trans (Steps.advanced h₃.valid (by simp [hrb]))
      exact ⟨_, h₄, by simp, by simp, .array htype hname hlb hrb⟩
    · exact ⟨_, h₂, by simp, by simp, .scalar htype hname⟩

theorem parseParamsFrom_spec (limit : Nat) (p q : Parser) (u : List Token)
    (params : List ParamDecl) (hsteps : Steps q u p)
    (herr : p.diags.errorCount = q.diags.errorCount) (hlimit : p.ahead.length < limit)
    (hparams : ∀ w param, Param w param →
      ParamList (u ++ w) (params.map ParamDecl.bare ++ [param])) :
    Ends (parseParamsFrom limit params) p
      (Parsed q fun used params => ParamList used (params.map ParamDecl.bare)) := by
  induction limit generalizing p u params with
  | zero => omega
  | succ limit ih =>
      simp only [parseParamsFrom]
      refine (parseParam_spec p hsteps.valid).bind ?_
      rintro (_ | param) p₁ ⟨used, h₁, hres⟩
      · refine (ends_pure _).mpr (.fail (hsteps.trans h₁) ?_)
        omega
      · obtain ⟨herr₁, hne, hparam⟩ := hres
        have hlist := hparams used param.bare hparam
        have hall := hsteps.trans h₁
        simp only [ends_match_or_stop, ends_pure]
        refine ⟨fun hcomma => ?_, fun _ =>
          ⟨_, hall, herr₁.trans herr, by simp [hne], by simpa using hlist⟩⟩
        have hop := Steps.advanced h₁.valid (by simp [hcomma])
        have hlen := h₁.length_le
        have hlen' := hop.length_le
        simp only [List.length_singleton] at hlen'
        refine ih p₁.advanced _ _ (hall.trans hop)
          (by rw [advanced_diags, herr₁, herr]) (by omega) ?_
        intro w next hnext
        rw [List.map_append, List.append_assoc (u ++ used)]
        exact .snoc hlist hcomma hnext

theorem parseParams_spec (limit : Nat) (p : Parser) (hp : p.Valid)
    (hlimit : p.ahead.length < limit) :
    Ends (parseParams limit) p
      (Parsed p fun used params => Params used (params.map ParamDecl.bare)) := by
  simp only [parseParams, ends_bind, ends_check, ends_peekNext, ends_ite, ends_pure,
    ends_advance, ends_peek, ends_errorAt, Bool.and_eq_true, Token.is_eq_true]
  refine ⟨fun hvoid => ?_, fun _ => ⟨fun _ => ?_, fun _ => ?_⟩⟩
  · exact ⟨_, Steps.advanced hp (by simp [hvoid.1]), by simp, by simp, .void hvoid.1⟩
  · exact .fail ((Steps.refl hp).withError _ _) (by simp)
  · refine (parseParamsFrom_spec limit p p [] [] (.refl hp) rfl hlimit
      (fun w param h => .one h)).mono ?_
    rintro (_ | params) p₁ ⟨used, h₁, hres⟩
    · exact .fail h₁ hres
    · exact ⟨used, h₁, hres.1, hres.2.1, .list hres.2.2⟩

/-! Declarations and the program, rules 1-3 and 6. -/

def DeclParsed (p : Parser) (r : Option Decl) (p' : Parser) : Prop :=
  ∃ used, Steps p used p' ∧
    match r with
    | none => p.diags.errorCount < p'.diags.errorCount
    | some decl => used ≠ [] ∧ (p'.diags.errorCount = p.diags.errorCount →
        Declaration used decl.bare ∧
        ∀ f, decl.bare = .fun f → NearestElses f.body.stmts)

theorem finishFunDeclaration_spec (limit : Nat) (p : Parser) (hp : p.Valid)
    (hlimit : 10 * p.ahead.length + 7 ≤ limit) (t : CType) (typeLoc : SourceLocation)
    (name : Token) :
    Ends (finishFunDeclaration limit t typeLoc name) p (fun r p' =>
      ∃ used, Steps p used p' ∧
        match r with
        | none => p.diags.errorCount < p'.diags.errorCount
        | some decl => used ≠ [] ∧ (p'.diags.errorCount = p.diags.errorCount →
            NearestElses decl.bare.body.stmts ∧
            ∀ type : Token, TypeSpecifier type.kind t → name.kind = .identifier →
              FunDeclaration (type :: name :: used) decl.bare)) := by
  simp only [finishFunDeclaration]
  rw [ends_expect_or_none]
  refine ⟨fun hlp => ?_, fun _ => ⟨[], (Steps.refl hp).withError _ _, by simp⟩⟩
  have h₁ := Steps.advanced hp (by simp [hlp])
  have hlen₁ := h₁.length_le
  simp only [List.length_singleton] at hlen₁
  refine (parseParams_spec limit _ h₁.valid (by omega)).bind ?_
  rintro (_ | params) p₂ ⟨v, h₂, hparams⟩
  · refine (ends_pure _).mpr ⟨_, h₁.trans h₂, ?_⟩
    simpa using hparams
  obtain ⟨herr₂, -, hparams⟩ := hparams
  have h₂ := h₁.trans h₂
  simp only [advanced_diags] at herr₂
  simp only [ends_expect_or_none, ends_check_or_stop, ends_peek_then, ends_errorAt_then,
    ends_pure]
  refine ⟨fun hrp => ?_, fun _ => ⟨_, h₂.withError _ _, by simp [herr₂]⟩⟩
  have h₃ := h₂.trans (Steps.advanced h₂.valid (by simp [hrp]))
  have hlen₃ := h₃.length_le
  simp only [List.length_append, List.length_singleton] at hlen₃
  refine ⟨fun hlb => ?_, fun _ => ⟨_, h₃.withError _ _, by simp [herr₂]⟩⟩
  refine ((stmtSpecs limit).compound _ h₃.valid (by omega)).bind ?_
  rintro (_ | block) p₄ ⟨w, h₄, hblock⟩
  · refine (ends_pure _).mpr ⟨_, h₃.trans h₄, ?_⟩
    simpa [herr₂] using hblock
  · obtain ⟨-, hblock⟩ := hblock
    simp only [advanced_diags, herr₂] at hblock
    refine (ends_pure _).mpr ⟨_, h₃.trans h₄, by simp, fun h => ?_⟩
    obtain ⟨hder, hnear⟩ := hblock h
    refine ⟨hnear, fun type htype hname => ?_⟩
    simpa [FunDecl.bare] using FunDeclaration.mk htype hname hlp hparams hrp hder

theorem parseDeclaration_spec (limit : Nat) (p : Parser) (hp : p.Valid)
    (hlimit : 10 * p.ahead.length + 8 ≤ limit) :
    Ends (parseDeclaration limit) p (DeclParsed p) := by
  simp only [parseDeclaration]
  refine (parseTypeSpecifier_spec p).bind ?_
  rintro (_ | ⟨t, typeLoc⟩) p₁ h
  · obtain ⟨-, message, rfl⟩ := h
    exact (ends_pure _).mpr ⟨_, (Steps.refl hp).withError _ _, by simp⟩
  · obtain ⟨htype, rfl⟩ := h
    have h₁ := Steps.advanced hp (typeSpecifier_ne_endOfFile htype)
    have hlen₁ := h₁.length_le
    simp only [ends_check_or_stop, ends_check_or_else, ends_peek_then, ends_advance_then,
      ends_errorAt_then, ends_pure]
    refine ⟨fun hname => ?_, fun _ => ⟨_, h₁.withError _ _, by simp⟩⟩
    have heof : (p.advanced.peekAt 0).kind ≠ .endOfFile := by simp [hname]
    have hname' := Steps.advanced h₁.valid heof
    have hlen₂ := hname'.length_le
    have h₂ := h₁.trans hname'
    rw [previousToken_advanced h₁.valid heof]
    refine ⟨fun hlp => ?_, fun _ => ?_⟩
    · refine (finishFunDeclaration_spec limit _ h₂.valid (by omega) t typeLoc _).bind ?_
      rintro (_ | decl) p₃ ⟨used, h₃, hres⟩
      · refine (ends_pure _).mpr ⟨_, h₂.trans h₃, ?_⟩
        simpa using hres
      · obtain ⟨-, hres⟩ := hres
        simp only [advanced_diags] at hres
        refine (ends_pure _).mpr ⟨_, h₂.trans h₃, by simp, fun h => ?_⟩
        obtain ⟨hnear, hder⟩ := hres h
        refine ⟨.fun (hder _ htype hname), fun f hf => ?_⟩
        cases hf
        exact hnear
    · refine (finishVarDeclaration_spec _ h₂.valid t typeLoc _).bind ?_
      rintro (_ | decl) p₃ ⟨used, h₃, hres⟩
      · refine (ends_pure _).mpr ⟨_, h₂.trans h₃, ?_⟩
        simpa using hres
      · obtain ⟨herr, -, hder⟩ := hres
        refine (ends_pure _).mpr ⟨_, h₂.trans h₃, by simp, fun h => ?_⟩
        refine ⟨.var (hder _ htype hname), fun f hf => ?_⟩
        cases hf

/-! What `parseProgram` has built so far, after the tokens `u`: nothing yet, or a
declaration list. -/

def DeclsSoFar (u : List Token) (decls : List Decl) : Prop :=
  (u = [] ∧ decls = [] ∨ DeclarationList u decls) ∧
  ∀ f, Decl.fun f ∈ decls → NearestElses f.body.stmts

theorem DeclsSoFar.snoc {u w : List Token} {decls : List Decl} {decl : Decl}
    (h : DeclsSoFar u decls) (hdecl : Declaration w decl)
    (hnear : ∀ f, decl = .fun f → NearestElses f.body.stmts) :
    DeclsSoFar (u ++ w) (decls ++ [decl]) := by
  refine ⟨.inr ?_, fun f hf => ?_⟩
  · rcases h.1 with ⟨rfl, rfl⟩ | hlist
    · exact .one hdecl
    · exact .snoc hlist hdecl
  · rcases List.mem_append.mp hf with hf | hf
    · exact h.2 f hf
    · exact hnear f (List.mem_singleton.mp hf).symm

theorem parseDecls_spec (limit : Nat) (p q : Parser) (u : List Token)
    (decls : List Decl) (hsteps : Steps q u p)
    (hlimit : 10 * p.ahead.length + 9 ≤ limit)
    (hdecls : p.diags.errorCount = q.diags.errorCount →
      DeclsSoFar u (decls.map Decl.bare)) :
    Ends (parseDecls limit decls) p (fun r p' => ∃ used, Steps q used p' ∧
      p'.ahead = [] ∧ (p'.diags.errorCount = q.diags.errorCount →
        DeclsSoFar used (r.map Decl.bare))) := by
  induction limit generalizing p u decls with
  | zero => omega
  | succ limit ih =>
      simp only [parseDecls, ends_bind, ends_atEnd, ends_ite, ends_pure, Token.is_eq_true,
        ends_position]
      refine ⟨fun hend => ⟨u, hsteps, (ahead_eq_nil hsteps.valid).mpr hend, hdecls⟩,
        fun hmore => ?_⟩
      have hahead : p.ahead ≠ [] := by rwa [ne_eq, ahead_eq_nil hsteps.valid]
      refine (parseDeclaration_spec limit p hsteps.valid (by omega)).mono ?_
      rintro (_ | decl) p₁ ⟨used, h₁, hres⟩
      · refine (synchronizeDeclaration_spec p₁ h₁.valid).bind ?_
        rintro - p₂ ⟨used', h₂, herr⟩
        refine forced_advance (h₁.trans h₂) hahead ?_
        intro v p₃ hne h₃ hdiags
        have hlen := h₃.length_le
        have hpos := List.length_pos_iff.mpr hne
        refine ih p₃ _ decls (hsteps.trans h₃) (by omega) fun h => ?_
        have := hsteps.errors
        rw [hdiags] at h
        omega
      · obtain ⟨hne, hdecl⟩ := hres
        have hlen := h₁.length_le
        have hpos := List.length_pos_iff.mpr hne
        refine ih p₁ _ (decls ++ [decl]) (hsteps.trans h₁) (by omega) fun h => ?_
        have herr := hsteps.errors
        have herr₁ := h₁.errors
        obtain ⟨hder, hnear⟩ := hdecl (by omega)
        rw [List.map_append]
        exact (hdecls (by omega)).snoc hder hnear

/-! `parseProgram` ends on every valid parser, and a run without an error derives
all the tokens ahead. -/

theorem parseProgram_spec (p : Parser) (hp : p.Valid) :
    ∃ program p', p.parseProgram = some (program, p') ∧
      p.diags.errorCount ≤ p'.diags.errorCount ∧
      (p'.diags.errorCount = p.diags.errorCount →
        Derives p.ahead program.bare ∧ NearestElseProgram program.bare) := by
  have hlen := p.ahead_length_le
  have hrun : Ends (parseProgramWith (recursionLimit p.tokens)) p (fun program p' =>
      p.diags.errorCount ≤ p'.diags.errorCount ∧
      (p'.diags.errorCount = p.diags.errorCount →
        Derives p.ahead program.bare ∧ NearestElseProgram program.bare)) := by
    simp only [parseProgramWith, ends_bind, ends_atEnd, ends_ite, ends_pure,
      Token.is_eq_true, ends_peek, ends_errorAt]
    refine ⟨fun _ => by simp, fun hmore => ?_⟩
    refine (parseDecls_spec _ p p [] [] (.refl hp) ?_
      (fun _ => ⟨.inl ⟨rfl, rfl⟩, by simp⟩)).mono ?_
    · unfold recursionLimit
      omega
    · rintro decls p₁ ⟨used, h₁, hend, hres⟩
      refine ⟨h₁.errors, fun h => ?_⟩
      obtain ⟨hlist, hnear⟩ := hres h
      have hused : p.ahead = used := by rw [h₁.ahead, hend, List.append_nil]
      rw [← hused] at hlist
      rcases hlist with ⟨hnil, -⟩ | hlist
      · exact absurd ((ahead_eq_nil hp).mp hnil) hmore
      · exact ⟨.mk hlist, hnear⟩
  obtain ⟨⟨program, p'⟩, hrun, hres⟩ := hrun
  exact ⟨program, p', hrun, hres⟩

end Parser

end CMinus
