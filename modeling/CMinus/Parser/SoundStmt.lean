import CMinus.Parser.SoundExpr

namespace CMinus

namespace Parser

open Grammar

/-! Recovery: it moves forward, records nothing, and a parser that has not moved is
pushed one token further. -/

theorem ahead_length_le (p : Parser) : p.ahead.length ≤ p.tokens.length :=
  calc p.ahead.length ≤ p.rest.length := (List.takeWhile_prefix _).length_le
    _ ≤ p.tokens.length := by simp [rest]

def Recovers (p : Parser) (p' : Parser) : Prop :=
  ∃ used, Steps p used p' ∧ p'.diags.errorCount = p.diags.errorCount

theorem synchronizeStatementFrom_spec (limit : Nat) (p q : Parser) (u : List Token)
    (hsteps : Steps q u p) (herr : p.diags.errorCount = q.diags.errorCount)
    (hlimit : p.ahead.length < limit) :
    Ends (synchronizeStatementFrom limit) p (fun _ => Recovers q) := by
  induction limit generalizing p u with
  | zero => omega
  | succ limit ih =>
      have hstop : Recovers q p := ⟨u, hsteps, herr⟩
      simp only [synchronizeStatementFrom, ends_bind, ends_atEnd, ends_ite, ends_pure,
        ends_previous, ends_peek, ends_advance, Token.is_eq_true]
      refine ⟨fun _ => hstop, fun heof => ⟨fun _ => hstop, fun _ =>
        ⟨fun _ => hstop, fun _ => ?_⟩⟩⟩
      have hnext := Steps.advanced hsteps.valid heof
      have hlen := hnext.length_le
      simp only [List.length_singleton] at hlen
      exact ih p.advanced _ (hsteps.trans hnext) (by rw [advanced_diags, herr])
        (by omega)

theorem synchronizeStatement_spec (p : Parser) (hp : p.Valid) :
    Ends synchronizeStatement p (fun _ => Recovers p) :=
  synchronizeStatementFrom_spec _ p p [] (.refl hp) rfl
    (Nat.lt_succ_of_le p.ahead_length_le)

theorem synchronizeDeclarationFrom_spec (limit depth : Nat) (p q : Parser)
    (u : List Token) (hsteps : Steps q u p)
    (herr : p.diags.errorCount = q.diags.errorCount)
    (hlimit : p.ahead.length < limit) :
    Ends (synchronizeDeclarationFrom limit depth) p (fun _ => Recovers q) := by
  induction limit generalizing p u depth with
  | zero => omega
  | succ limit ih =>
      have hstop : Recovers q p := ⟨u, hsteps, herr⟩
      simp only [synchronizeDeclarationFrom, ends_bind, ends_atEnd, ends_ite, ends_pure,
        ends_peek, ends_advance, Token.is_eq_true]
      refine ⟨fun _ => hstop, fun heof => ⟨fun _ => hstop, fun _ => ?_⟩⟩
      have hnext := Steps.advanced hsteps.valid heof
      have hlen := hnext.length_le
      simp only [List.length_singleton] at hlen
      exact ih _ p.advanced _ (hsteps.trans hnext) (by rw [advanced_diags, herr])
        (by omega)

theorem synchronizeDeclaration_spec (p : Parser) (hp : p.Valid) :
    Ends synchronizeDeclaration p (fun _ => Recovers p) :=
  synchronizeDeclarationFrom_spec _ 0 p p [] (.refl hp) rfl
    (Nat.lt_succ_of_le p.ahead_length_le)

/-! The end of a failed round of one of the loops: recovery has reached `p₂`, and
the loop goes on at least one token after its start `p`. -/

theorem forced_advance {α : Type} {p p₂ : Parser} {u : List Token}
    {next : ParserM α} {Q : α → Parser → Prop} (hsteps : Steps p u p₂)
    (hahead : p.ahead ≠ [])
    (hnext : ∀ v p₃, v ≠ [] → Steps p v p₃ → p₃.diags = p₂.diags → Ends next p₃ Q) :
    Ends (position >>= fun now => if now = p.pos then advance >>= fun _ => next else next)
      p₂ Q := by
  simp only [ends_bind, ends_position, ends_ite, ends_advance]
  constructor
  · intro hpos
    have hnil : u = [] := by
      have := hsteps.pos
      exact List.eq_nil_of_length_eq_zero (by omega)
    subst hnil
    have heof : (p₂.peekAt 0).kind ≠ .endOfFile := by
      rw [ne_eq, ← ahead_eq_nil hsteps.valid]
      have := hsteps.ahead
      rw [List.nil_append] at this
      rwa [← this]
    have hone := Steps.advanced hsteps.valid heof
    exact hnext _ _ (by simp) (hsteps.trans hone) (advanced_diags p₂)
  · intro hpos
    refine hnext u p₂ ?_ hsteps rfl
    rintro rfl
    exact hpos (by simpa using hsteps.pos)

/-! Declarations. -/

theorem parseTypeSpecifier_spec (p : Parser) :
    Ends parseTypeSpecifier p (fun r p' =>
      match r with
      | none => (p.peekAt 0).kind.isTypeSpecifier = false ∧
          ∃ message, p' = p.withError (p.peekAt 0) message
      | some (t, _) => TypeSpecifier (p.peekAt 0).kind t ∧ p' = p.advanced) := by
  simp only [parseTypeSpecifier, ends_peek_then, ends_match_or_else, ends_errorAt_then,
    ends_pure]
  refine ⟨fun hint => ⟨?_, trivial⟩, fun hint => ⟨fun hvoid => ⟨?_, trivial⟩,
    fun hvoid => ⟨?_, _, rfl⟩⟩⟩
  · rw [hint]
    exact .int
  · rw [hvoid]
    exact .void
  · cases hk : (p.peekAt 0).kind <;> first | rfl | contradiction

theorem typeSpecifier_ne_endOfFile {kind : TokenKind} {t : CType}
    (h : TypeSpecifier kind t) : kind ≠ .endOfFile := by
  cases h <;> simp

theorem finishVarDeclaration_spec (p : Parser) (hp : p.Valid) (t : CType)
    (typeLoc : SourceLocation) (name : Token) :
    Ends (finishVarDeclaration t typeLoc name) p
      (Parsed p fun used decl => ∀ type : Token, TypeSpecifier type.kind t →
        name.kind = .identifier → VarDeclaration (type :: name :: used) decl.bare) := by
  have hfail : ∀ (p' : Parser) (u : List Token) tok message, Steps p u p' →
      p'.diags.errorCount = p.diags.errorCount →
      Parsed p (fun used (decl : VarDecl) => ∀ type : Token, TypeSpecifier type.kind t →
        name.kind = .identifier → VarDeclaration (type :: name :: used) decl.bare) none
        (p'.withError tok message) := by
    intro p' u tok message hsteps herr
    refine .fail (hsteps.withError tok message) ?_
    rw [withError_errorCount]
    omega
  simp only [finishVarDeclaration, ends_match_or_else, ends_check_or_stop,
    ends_check_or_else, ends_expect_or_none, ends_peek_then, ends_advance_then,
    ends_errorAt_then, ends_pure]
  constructor
  · intro hlb
    have h₁ := Steps.advanced hp (by simp [hlb])
    refine ⟨fun hsize => ?_, fun _ => hfail _ _ _ _ h₁ (by simp)⟩
    have heof : (p.advanced.peekAt 0).kind ≠ .endOfFile := by simp [hsize]
    have h₂ := h₁.trans (Steps.advanced h₁.valid heof)
    refine ⟨fun hrb => ?_, fun _ => hfail _ _ _ _ h₂ (by simp)⟩
    have h₃ := h₂.trans (Steps.advanced h₂.valid (by simp [hrb]))
    refine ⟨fun _ => hfail _ _ _ _ h₃ (by simp), fun _ =>
      ⟨fun hsemi => ?_, fun _ => hfail _ _ _ _ h₃ (by simp)⟩⟩
    have h₄ := h₃.trans (Steps.advanced h₃.valid (by simp [hsemi]))
    refine ⟨_, h₄, by simp, by simp, fun type htype hname => ?_⟩
    rw [previousToken_advanced h₁.valid heof]
    exact .array htype hname hlb hsize hrb hsemi
  · intro _
    refine ⟨fun _ => hfail _ _ _ _ (.refl hp) rfl, fun _ =>
      ⟨fun hsemi => ?_, fun _ => hfail _ _ _ _ (.refl hp) rfl⟩⟩
    refine ⟨_, Steps.advanced hp (by simp [hsemi]), by simp, by simp,
      fun type htype hname => ?_⟩
    exact .scalar htype hname hsemi

theorem parseLocalVarDeclaration_spec (p : Parser) (hp : p.Valid) :
    Ends parseLocalVarDeclaration p
      (Parsed p fun used decl => VarDeclaration used decl.bare) := by
  simp only [parseLocalVarDeclaration]
  refine (parseTypeSpecifier_spec p).bind ?_
  rintro (_ | ⟨t, typeLoc⟩) p₁ h
  · obtain ⟨-, message, rfl⟩ := h
    exact (ends_pure _).mpr (.fail ((Steps.refl hp).withError _ _) (by simp))
  · obtain ⟨htype, rfl⟩ := h
    have h₁ := Steps.advanced hp (typeSpecifier_ne_endOfFile htype)
    simp only [ends_check_or_stop, ends_check_or_else, ends_peek_then, ends_advance_then,
      ends_errorAt_then, ends_pure]
    refine ⟨fun hname => ?_, fun _ => .fail (h₁.withError _ _) (by simp)⟩
    have heof : (p.advanced.peekAt 0).kind ≠ .endOfFile := by simp [hname]
    have h₂ := h₁.trans (Steps.advanced h₁.valid heof)
    refine ⟨fun _ => .fail (h₂.withError _ _) (by simp), fun _ => ?_⟩
    refine (finishVarDeclaration_spec _ h₂.valid t typeLoc _).mono ?_
    rintro (_ | decl) p₃ ⟨used, h₃, hres⟩
    · refine .fail (h₂.trans h₃) ?_
      simpa using hres
    · obtain ⟨herr, -, hdecl⟩ := hres
      refine ⟨_, h₂.trans h₃, by simpa using herr, by simp, ?_⟩
      rw [previousToken_advanced h₁.valid heof] at hdecl
      exact hdecl _ htype hname

theorem parseLocalDecls_spec (limit : Nat) (p q : Parser) (u : List Token)
    (decls : List VarDecl) (hsteps : Steps q u p) (hlimit : p.ahead.length < limit)
    (hdecls : p.diags.errorCount = q.diags.errorCount →
      LocalDeclarations u (decls.map VarDecl.bare)) :
    Ends (parseLocalDecls limit decls) p (fun r p' => ∃ used, Steps q used p' ∧
      (p'.diags.errorCount = q.diags.errorCount →
        LocalDeclarations used (r.map VarDecl.bare))) := by
  induction limit generalizing p u decls with
  | zero => omega
  | succ limit ih =>
      simp only [parseLocalDecls, ends_peek_then, ends_ite, ends_pure]
      refine ⟨fun _ => ⟨u, hsteps, hdecls⟩, fun htype => ?_⟩
      have htype : (p.peekAt 0).kind.isTypeSpecifier = true := by simpa using htype
      have hahead : p.ahead ≠ [] := by
        rw [ne_eq, ahead_eq_nil hsteps.valid]
        exact ne_endOfFile htype rfl
      rw [ends_position_then]
      refine (parseLocalVarDeclaration_spec p hsteps.valid).bind ?_
      rintro (_ | decl) p₁ ⟨used, h₁, hres⟩
      · refine (synchronizeStatement_spec p₁ h₁.valid).bind ?_
        rintro - p₂ ⟨used', h₂, herr⟩
        refine forced_advance (h₁.trans h₂) hahead ?_
        intro v p₃ hne h₃ hdiags
        have hlen := h₃.length_le
        have hpos := List.length_pos_iff.mpr hne
        refine ih p₃ _ decls (hsteps.trans h₃) (by omega) fun h => ?_
        have := hsteps.errors
        rw [hdiags] at h
        omega
      · obtain ⟨herr, hne, hdecl⟩ := hres
        have hlen := h₁.length_le
        have hpos := List.length_pos_iff.mpr hne
        refine ih p₁ _ (decls ++ [decl]) (hsteps.trans h₁) (by omega) fun h => ?_
        rw [List.map_append]
        exact .snoc (hdecls (by omega)) hdecl

/-! Statements.  A statement may come back although errors were recorded inside one
of its blocks, so that its derivation is promised only when none was. -/

theorem nearestElses_append_one (stmts : List Stmt) (stmt : Stmt) :
    NearestElses (stmts ++ [stmt]) ↔ NearestElses stmts ∧ NearestElse stmt := by
  induction stmts with
  | nil => simp [NearestElses]
  | cons head tail ih => simp [NearestElses, ih, and_assoc]

def StmtParsed (p : Parser) (r : Option Stmt) (p' : Parser) : Prop :=
  ∃ used, Steps p used p' ∧
    match r with
    | none => p.diags.errorCount < p'.diags.errorCount
    | some stmt => used ≠ [] ∧ (p'.diags.errorCount = p.diags.errorCount →
        Statement used stmt.bare ∧ NearestElse stmt.bare ∧
        (openIf stmt.bare = true → (p'.peekAt 0).kind ≠ .kwElse))

def BlockParsed (p : Parser) (r : Option CompoundStmt) (p' : Parser) : Prop :=
  ∃ used, Steps p used p' ∧
    match r with
    | none => p.diags.errorCount < p'.diags.errorCount
    | some block => used ≠ [] ∧ (p'.diags.errorCount = p.diags.errorCount →
        Compound used block.bare ∧ NearestElses block.bare.stmts)

theorem StmtParsed.fail {p p' : Parser} {used : List Token} (h : Steps p used p')
    (herr : p.diags.errorCount < p'.diags.errorCount) : StmtParsed p none p' :=
  ⟨used, h, herr⟩

theorem StmtParsed.rejected {p p' : Parser} {used : List Token} (h : Steps p used p')
    (tok : Token) (message : String) : StmtParsed p none (p'.withError tok message) := by
  refine .fail (h.withError tok message) ?_
  have := h.errors
  rw [withError_errorCount]
  omega

structure StmtSpecs (limit : Nat) : Prop where
  statement : ∀ p : Parser, p.Valid → 10 * p.ahead.length + 8 ≤ limit →
    Ends (parseStatement limit) p (StmtParsed p)
  compound : ∀ p : Parser, p.Valid → 10 * p.ahead.length + 7 ≤ limit →
    Ends (parseCompoundStmt limit) p (BlockParsed p)
  stmts : ∀ (p q : Parser) (u : List Token) (stmts : List Stmt), Steps q u p →
    10 * p.ahead.length + 9 ≤ limit →
    (p.diags.errorCount = q.diags.errorCount →
      StatementList u (stmts.map Stmt.bare) ∧ NearestElses (stmts.map Stmt.bare)) →
    Ends (parseStmts limit stmts) p (fun r p' => ∃ used, Steps q used p' ∧
      (p'.diags.errorCount = q.diags.errorCount →
        StatementList used (r.map Stmt.bare) ∧ NearestElses (r.map Stmt.bare)))
  selection : ∀ p : Parser, p.Valid → (p.peekAt 0).kind = .kwIf →
    10 * p.ahead.length + 7 ≤ limit → Ends (parseSelectionStmt limit) p (StmtParsed p)
  iteration : ∀ p : Parser, p.Valid → (p.peekAt 0).kind = .kwWhile →
    10 * p.ahead.length + 7 ≤ limit → Ends (parseIterationStmt limit) p (StmtParsed p)

theorem parseExpressionStmt_spec (limit : Nat) (p : Parser) (hp : p.Valid)
    (hlimit : 10 * p.ahead.length + 5 ≤ limit) :
    Ends (parseExpressionStmt limit) p (StmtParsed p) := by
  simp only [parseExpressionStmt, ends_peek_then, ends_match_or_else, ends_pure]
  refine ⟨fun hsemi => ?_, fun _ => ?_⟩
  · exact ⟨_, Steps.advanced hp (by simp [hsemi]), by simp, fun _ =>
      ⟨.nothing hsemi, trivial, by simp [Stmt.bare, openIf]⟩⟩
  · refine ((exprSpecs limit).expression p hp hlimit).bind ?_
    rintro (_ | expr) p₁ ⟨used, h₁, hres⟩
    · exact (ends_pure _).mpr (.fail h₁ hres)
    · obtain ⟨herr, hne, hexpr⟩ := hres
      simp only [ends_expect_or_none, ends_pure]
      refine ⟨fun hsemi => ?_, fun _ => .rejected h₁ _ _⟩
      exact ⟨_, h₁.trans (Steps.advanced h₁.valid (by simp [hsemi])), by simp, fun _ =>
        ⟨.expr hexpr hsemi, trivial, by simp [Stmt.bare, openIf]⟩⟩

theorem parseReturnStmt_spec (limit : Nat) (p : Parser) (hp : p.Valid)
    (hkw : (p.peekAt 0).kind = .kwReturn) (hlimit : 10 * p.ahead.length + 5 ≤ limit) :
    Ends (parseReturnStmt limit) p (StmtParsed p) := by
  have h₁ := Steps.advanced hp (by simp [hkw])
  have hlen := h₁.length_le
  simp only [parseReturnStmt, ends_advance_then, ends_match_or_else, ends_pure]
  refine ⟨fun hsemi => ?_, fun _ => ?_⟩
  · exact ⟨_, h₁.trans (Steps.advanced h₁.valid (by simp [hsemi])), by simp, fun _ =>
      ⟨.returnVoid hkw hsemi, trivial, by simp [Stmt.bare, openIf]⟩⟩
  · refine ((exprSpecs limit).expression p.advanced h₁.valid (by omega)).bind ?_
    rintro (_ | value) p₂ ⟨used, h₂, hres⟩
    · refine (ends_pure _).mpr (.fail (h₁.trans h₂) ?_)
      simpa using hres
    · obtain ⟨herr, hne, hexpr⟩ := hres
      simp only [ends_expect_or_none, ends_pure]
      have h₁₂ := h₁.trans h₂
      refine ⟨fun hsemi => ?_, fun _ => .rejected h₁₂ _ _⟩
      refine ⟨_, h₁₂.trans (Steps.advanced h₂.valid (by simp [hsemi])), by simp, fun _ =>
        ⟨?_, trivial, by simp [Stmt.bare, openIf]⟩⟩
      rw [List.append_assoc]
      exact .returnValue hkw hexpr hsemi

section Statement

variable {limit : Nat} (ih : StmtSpecs limit)

include ih

theorem parseStmts_spec (p q : Parser) (u : List Token) (stmts : List Stmt)
    (hsteps : Steps q u p) (hlimit : 10 * p.ahead.length + 9 ≤ limit + 1)
    (hstmts : p.diags.errorCount = q.diags.errorCount →
      StatementList u (stmts.map Stmt.bare) ∧ NearestElses (stmts.map Stmt.bare)) :
    Ends (parseStmts (limit + 1) stmts) p (fun r p' => ∃ used, Steps q used p' ∧
      (p'.diags.errorCount = q.diags.errorCount →
        StatementList used (r.map Stmt.bare) ∧ NearestElses (r.map Stmt.bare))) := by
  simp only [parseStmts, ends_bind, ends_check, ends_atEnd, ends_ite, ends_pure]
  refine ⟨fun _ => ⟨u, hsteps, hstmts⟩, fun hmore => ?_⟩
  have hahead : p.ahead ≠ [] := by
    rw [ne_eq, ahead_eq_nil hsteps.valid]
    intro heof
    simp [heof, Token.is] at hmore
  simp only [ends_position]
  refine (ih.statement p hsteps.valid (by omega)).mono ?_
  rintro (_ | stmt) p₁ ⟨used, h₁, hres⟩
  · refine (synchronizeStatement_spec p₁ h₁.valid).bind ?_
    rintro - p₂ ⟨used', h₂, herr⟩
    refine forced_advance (h₁.trans h₂) hahead ?_
    intro v p₃ hne h₃ hdiags
    have hlen := h₃.length_le
    have hpos := List.length_pos_iff.mpr hne
    refine ih.stmts p₃ q _ stmts (hsteps.trans h₃) (by omega) fun h => ?_
    have := hsteps.errors
    rw [hdiags] at h
    omega
  · obtain ⟨hne, hstmt⟩ := hres
    have hlen := h₁.length_le
    have hpos := List.length_pos_iff.mpr hne
    refine ih.stmts p₁ q _ (stmts ++ [stmt]) (hsteps.trans h₁) (by omega) fun h => ?_
    have herr := hsteps.errors
    have herr₁ := h₁.errors
    obtain ⟨hlist, hnearest⟩ := hstmts (by omega)
    obtain ⟨hone, hnearest', -⟩ := hstmt (by omega)
    simp only [List.map_append, List.map_cons, List.map_nil]
    exact ⟨.snoc hlist hone, (nearestElses_append_one _ _).mpr ⟨hnearest, hnearest'⟩⟩

theorem parseCompoundStmt_spec (p : Parser) (hp : p.Valid)
    (hlimit : 10 * p.ahead.length + 7 ≤ limit + 1) :
    Ends (parseCompoundStmt (limit + 1)) p (BlockParsed p) := by
  simp only [parseCompoundStmt, ends_peek_then]
  rw [ends_expect_or_none]
  refine ⟨fun hlb => ?_, fun _ => ⟨[], (Steps.refl hp).withError _ _, by simp⟩⟩
  have h₁ := Steps.advanced hp (by simp [hlb])
  have hlen := h₁.length_le
  simp only [List.length_singleton] at hlen
  refine (parseLocalDecls_spec limit p.advanced p.advanced [] [] (.refl h₁.valid)
    (by omega) (fun _ => .empty)).bind ?_
  rintro decls p₂ ⟨v, h₂, hdecls⟩
  have hlen₂ := h₂.length_le
  refine (ih.stmts p₂ p₂ [] [] (.refl h₂.valid) (by omega)
    (fun _ => ⟨.empty, trivial⟩)).bind ?_
  rintro stmts p₃ ⟨w, h₃, hstmts⟩
  have h₁₃ := h₁.trans (h₂.trans h₃)
  have herr₂ := h₂.errors
  have herr₃ := h₃.errors
  simp only [advanced_diags] at herr₂ hdecls
  simp only [ends_expect_or_none, ends_pure]
  refine ⟨fun hrb => ?_, fun _ => ⟨_, h₁₃.withError _ _, ?_⟩⟩
  · have h₄ := Steps.advanced h₃.valid (by simp [hrb])
    refine ⟨_, h₁₃.trans h₄, by simp, fun h => ?_⟩
    rw [advanced_diags] at h
    obtain ⟨hlist, hnearest⟩ := hstmts (by omega)
    simp only [CompoundStmt.bare, bareStmts_eq_map]
    refine ⟨?_, hnearest⟩
    simpa using Compound.mk hlb (hdecls (by omega)) hlist hrb
  · rw [withError_errorCount]
    omega

theorem parseSelectionStmt_spec (p : Parser) (hp : p.Valid)
    (hkw : (p.peekAt 0).kind = .kwIf) (hlimit : 10 * p.ahead.length + 7 ≤ limit + 1) :
    Ends (parseSelectionStmt (limit + 1)) p (StmtParsed p) := by
  have h₁ := Steps.advanced hp (by simp [hkw])
  have hlen₁ := h₁.length_le
  simp only [List.length_singleton] at hlen₁
  simp only [parseSelectionStmt, ends_advance_then]
  rw [ends_expect_or_none]
  refine ⟨fun hlp => ?_, fun _ => .rejected h₁ _ _⟩
  have h₂ := h₁.trans (Steps.advanced h₁.valid (by simp [hlp]))
  have hlen₂ := h₂.length_le
  simp only [List.length_append, List.length_singleton] at hlen₂
  refine ((exprSpecs limit).expression _ h₂.valid (by omega)).bind ?_
  rintro (_ | cond) p₃ ⟨u, h₃, hcond⟩
  · refine (ends_pure _).mpr (.fail (h₂.trans h₃) ?_)
    simpa using hcond
  obtain ⟨herr₃, -, hcond⟩ := hcond
  have h₃ := h₂.trans h₃
  simp only [advanced_diags] at herr₃
  rw [ends_expect_or_none]
  refine ⟨fun hrp => ?_, fun _ => .rejected h₃ _ _⟩
  have h₄ := h₃.trans (Steps.advanced h₃.valid (by simp [hrp]))
  have hlen₄ := h₄.length_le
  simp only [List.length_append, List.length_singleton] at hlen₄
  refine (ih.statement _ h₄.valid (by omega)).bind ?_
  rintro (_ | thenStmt) p₅ ⟨v, h₅, hthen⟩
  · refine (ends_pure _).mpr (.fail (h₄.trans h₅) ?_)
    simpa [herr₃] using hthen
  obtain ⟨-, hthen⟩ := hthen
  have hlen₅ := h₅.length_le
  have herr₅ := h₅.errors
  have h₅ := h₄.trans h₅
  simp only [advanced_diags, herr₃] at hthen herr₅
  simp only [ends_match_or_else, ends_pure]
  refine ⟨fun helse => ?_, fun helse => ?_⟩
  · have h₆ := h₅.trans (Steps.advanced h₅.valid (by simp [helse]))
    have hlen₆ := (Steps.advanced h₅.valid (by simp [helse])).length_le
    refine (ih.statement _ h₆.valid (by omega)).bind ?_
    rintro (_ | elseStmt) p₇ ⟨w, h₇, hels⟩
    · refine (ends_pure _).mpr (.fail (h₆.trans h₇) ?_)
      simp only [advanced_diags] at hels
      omega
    obtain ⟨-, hels⟩ := hels
    have herr₇ := h₇.errors
    simp only [advanced_diags] at hels herr₇
    refine (ends_pure _).mpr ⟨_, h₆.trans h₇, by simp, fun h => ?_⟩
    obtain ⟨hder, hnear, hopen⟩ := hthen (by omega)
    obtain ⟨hder', hnear', hopen'⟩ := hels (by omega)
    refine ⟨?_, ⟨?_, hnear, hnear'⟩, hopen'⟩
    · simpa [Stmt.bare] using Statement.ifElse hkw hlp hcond hrp hder helse hder'
    · cases hop : openIf thenStmt.bare with
      | false => rfl
      | true => exact absurd helse (hopen hop)
  · refine ⟨_, h₅, by simp, fun h => ?_⟩
    obtain ⟨hder, hnear, -⟩ := hthen h
    refine ⟨?_, hnear, fun _ => helse⟩
    simpa [Stmt.bare] using Statement.ifThen hkw hlp hcond hrp hder

theorem parseIterationStmt_spec (p : Parser) (hp : p.Valid)
    (hkw : (p.peekAt 0).kind = .kwWhile)
    (hlimit : 10 * p.ahead.length + 7 ≤ limit + 1) :
    Ends (parseIterationStmt (limit + 1)) p (StmtParsed p) := by
  have h₁ := Steps.advanced hp (by simp [hkw])
  simp only [parseIterationStmt, ends_advance_then]
  rw [ends_expect_or_none]
  refine ⟨fun hlp => ?_, fun _ => .rejected h₁ _ _⟩
  have h₂ := h₁.trans (Steps.advanced h₁.valid (by simp [hlp]))
  have hlen₂ := h₂.length_le
  simp only [List.length_append, List.length_singleton] at hlen₂
  refine ((exprSpecs limit).expression _ h₂.valid (by omega)).bind ?_
  rintro (_ | cond) p₃ ⟨u, h₃, hcond⟩
  · refine (ends_pure _).mpr (.fail (h₂.trans h₃) ?_)
    simpa using hcond
  obtain ⟨herr₃, -, hcond⟩ := hcond
  have h₃ := h₂.trans h₃
  simp only [advanced_diags] at herr₃
  rw [ends_expect_or_none]
  refine ⟨fun hrp => ?_, fun _ => .rejected h₃ _ _⟩
  have h₄ := h₃.trans (Steps.advanced h₃.valid (by simp [hrp]))
  have hlen₄ := h₄.length_le
  simp only [List.length_append, List.length_singleton] at hlen₄
  refine (ih.statement _ h₄.valid (by omega)).bind ?_
  rintro (_ | body) p₅ ⟨v, h₅, hbody⟩
  · refine (ends_pure _).mpr (.fail (h₄.trans h₅) ?_)
    simpa [herr₃] using hbody
  obtain ⟨-, hbody⟩ := hbody
  simp only [advanced_diags, herr₃] at hbody
  refine (ends_pure _).mpr ⟨_, h₄.trans h₅, by simp, fun h => ?_⟩
  obtain ⟨hder, hnear, hopen⟩ := hbody h
  refine ⟨?_, hnear, hopen⟩
  simpa [Stmt.bare] using Statement.iteration hkw hlp hcond hrp hder

theorem parseStatement_spec (p : Parser) (hp : p.Valid)
    (hlimit : 10 * p.ahead.length + 8 ≤ limit + 1) :
    Ends (parseStatement (limit + 1)) p (StmtParsed p) := by
  rw [parseStatement, ends_peek_then]
  cases hkind : (p.peekAt 0).kind with
  | lBrace =>
      refine (ih.compound p hp (by omega)).bind ?_
      rintro (_ | block) p₁ ⟨used, h₁, hres⟩
      · exact (ends_pure _).mpr (.fail h₁ hres)
      · refine (ends_pure _).mpr ⟨used, h₁, hres.1, fun h => ?_⟩
        obtain ⟨hder, hnear⟩ := hres.2 h
        exact ⟨.compound hder, hnear, by simp [CompoundStmt.toStmt, Stmt.bare, openIf]⟩
  | kwIf => exact ih.selection p hp hkind (by omega)
  | kwWhile => exact ih.iteration p hp hkind (by omega)
  | kwReturn => exact parseReturnStmt_spec limit p hp hkind (by omega)
  | semicolon | identifier | number | lParen =>
      exact parseExpressionStmt_spec limit p hp (by omega)
  | _ =>
      simp only [ends_errorAt_then, ends_pure]
      exact .rejected (.refl hp) _ _

end Statement

theorem stmtSpecs (limit : Nat) : StmtSpecs limit := by
  induction limit with
  | zero => constructor <;> intros <;> omega
  | succ limit ih =>
      exact {
        statement := parseStatement_spec ih
        compound := parseCompoundStmt_spec ih
        stmts := parseStmts_spec ih
        selection := parseSelectionStmt_spec ih
        iteration := parseIterationStmt_spec ih }

end Parser

end CMinus
