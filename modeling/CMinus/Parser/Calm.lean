import CMinus.Parser.SoundDecl
import CMinus.Parser.CompleteExpr

namespace CMinus

namespace Parser

open Grammar

/-! Tokens among which there is no brace. -/

def Flat (w : List Token) : Prop :=
  ∀ tok ∈ w, tok.kind ≠ .lBrace ∧ tok.kind ≠ .rBrace

@[simp] theorem flat_nil : Flat [] := by simp [Flat]

@[simp] theorem flat_cons {tok : Token} {w : List Token} :
    Flat (tok :: w) ↔ (tok.kind ≠ .lBrace ∧ tok.kind ≠ .rBrace) ∧ Flat w := by
  simp [Flat]

@[simp] theorem flat_append {v w : List Token} : Flat (v ++ w) ↔ Flat v ∧ Flat w :=
  List.forall_mem_append

/-! Kinds that calm parsing may consume. -/

def Ordinary (kind : TokenKind) : Prop :=
  kind ≠ .endOfFile ∧ kind ≠ .lBrace ∧ kind ≠ .rBrace

instance (kind : TokenKind) : Decidable (Ordinary kind) :=
  inferInstanceAs (Decidable (_ ∧ _))

theorem ordinary_of {kind : TokenKind} {test : TokenKind → Bool} (h : test kind = true)
    (hend : test .endOfFile = false) (hlb : test .lBrace = false)
    (hrb : test .rBrace = false) : Ordinary kind :=
  ⟨ne_endOfFile h hend, fun hk => by simp [hk, hlb] at h, fun hk => by simp [hk, hrb] at h⟩

/-! The errors recorded between two parsers, and where they are. -/

def Blames (p : Parser) (toks : List Token) (p' : Parser) : Prop :=
  ∃ new : Diagnostics, p'.diags = p.diags ++ new ∧
    ∀ d ∈ new, d.level = .error ∧ ∃ tok ∈ toks, d.loc = tok.loc

theorem Blames.same {p p' : Parser} {toks : List Token} (h : p'.diags = p.diags) :
    Blames p toks p' := ⟨[], by simp [h], by simp⟩

theorem Blames.trans {p p₁ p₂ : Parser} {toks : List Token} (h : Blames p toks p₁)
    (h' : Blames p₁ toks p₂) : Blames p toks p₂ := by
  obtain ⟨new, hnew, hin⟩ := h
  obtain ⟨new', hnew', hin'⟩ := h'
  refine ⟨new ++ new', by rw [hnew', hnew, List.append_assoc], ?_⟩
  intro d hd
  rcases List.mem_append.mp hd with hd | hd
  · exact hin d hd
  · exact hin' d hd

theorem Blames.mono {p p' : Parser} {toks toks' : List Token} (h : Blames p toks p')
    (hsub : ∀ tok ∈ toks, tok ∈ toks') : Blames p toks' p' := by
  obtain ⟨new, hnew, hin⟩ := h
  refine ⟨new, hnew, fun d hd => ?_⟩
  obtain ⟨hlevel, tok, htok, hloc⟩ := hin d hd
  exact ⟨hlevel, tok, hsub tok htok, hloc⟩

theorem Blames.withError {p p' : Parser} {toks : List Token} {tok : Token}
    {message : String} (h : Blames p toks p') (htok : tok ∈ toks) :
    Blames p toks (p'.withError tok message) := by
  apply h.trans
  refine ⟨[⟨.error, tok.loc, message⟩], rfl, fun d hd => ?_⟩
  rw [List.mem_singleton.mp hd]
  exact ⟨rfl, tok, htok, rfl⟩

/-! `Over p used p'`: from `p` to `p'` no brace is consumed, and what is recorded
blames a consumed token or the one in front of `p'`. -/

structure Over (p : Parser) (used : List Token) (p' : Parser) : Prop where
  steps : Steps p used p'
  flat : Flat used
  blames : Blames p (used ++ [p'.peekAt 0]) p'

theorem Over.refl {p : Parser} (hp : p.Valid) : Over p [] p :=
  ⟨.refl hp, flat_nil, .same rfl⟩

theorem Steps.peekAt {p p' : Parser} {u : List Token} (h : Steps p u p') :
    p.peekAt 0 ∈ u ++ [p'.peekAt 0] := by
  cases u with
  | nil =>
      have hpos : p'.pos = p.pos := h.pos
      simp [Parser.peekAt, h.tokens, hpos]
  | cons tok u =>
      rw [(ahead_cons h.ahead).1]
      simp

theorem Over.trans {p p₁ p₂ : Parser} {u v : List Token} (h : Over p u p₁)
    (h' : Over p₁ v p₂) : Over p (u ++ v) p₂ where
  steps := h.steps.trans h'.steps
  flat := flat_append.mpr ⟨h.flat, h'.flat⟩
  blames := by
    apply Blames.trans (h.blames.mono ?_) (h'.blames.mono ?_)
    · intro tok htok
      rw [List.append_assoc]
      rcases List.mem_append.mp htok with htok | htok
      · exact List.mem_append_left _ htok
      · rw [List.mem_singleton.mp htok]
        exact List.mem_append_right _ h'.steps.peekAt
    · intro tok htok
      rw [List.append_assoc]
      exact List.mem_append_right _ htok

theorem Over.withError {p p' : Parser} {u : List Token} {tok : Token} (message : String)
    (h : Over p u p') (htok : tok ∈ u ++ [p'.peekAt 0]) :
    Over p u (p'.withError tok message) :=
  ⟨h.steps.withError tok message, h.flat, h.blames.withError htok⟩

theorem Over.advanced {p : Parser} {kind : TokenKind} (hp : p.Valid)
    (hkind : (p.peekAt 0).kind = kind)
    (hne : Ordinary kind) :
    Over p [p.peekAt 0] p.advanced := by
  subst hkind
  exact ⟨.advanced hp hne.1, by simp [hne.2], .same (advanced_diags p)⟩

/-! An action is calm at `p` when, however it ends, it has only gone over tokens in
this way.  Calm actions compose. -/

def Quiet (p p' : Parser) : Prop := ∃ used, Over p used p'

def Calm {α : Type} (action : ParserM α) (p : Parser) : Prop :=
  ∀ a p', action p = some (a, p') → Quiet p p'

section Rules

variable {α β : Type} {p : Parser}

theorem Calm.pure (hp : p.Valid) (a : α) : Calm (Pure.pure a) p := by
  intro b p' h
  cases h
  exact ⟨[], .refl hp⟩

theorem Calm.bind {action : ParserM β} {next : β → ParserM α} (h : Calm action p)
    (hnext : ∀ b p', p'.Valid → action p = some (b, p') → Calm (next b) p') :
    Calm (action >>= next) p := by
  intro a p₂ hrun
  obtain ⟨⟨b, p₁⟩, hb, ha⟩ := Option.bind_eq_some_iff.mp hrun
  obtain ⟨u, hu⟩ := h b p₁ hb
  obtain ⟨v, hv⟩ := hnext b p₁ hu.steps.valid hb a p₂ ha
  exact ⟨u ++ v, hu.trans hv⟩

theorem Calm.peek {next : Token → ParserM α} (h : Calm (next (p.peekAt 0)) p) :
    Calm (peek >>= next) p := h

theorem Calm.atEnd {next : Bool → ParserM α}
    (h : Calm (next ((p.peekAt 0).is .endOfFile)) p) : Calm (atEnd >>= next) p := h

theorem Calm.previous {next : Token → ParserM α} (h : Calm (next p.previousToken) p) :
    Calm (previous >>= next) p := h

theorem Calm.check {kind : TokenKind} {next : Bool → ParserM α}
    (h : Calm (next ((p.peekAt 0).is kind)) p) : Calm (check kind >>= next) p := h

theorem Calm.errorAt (hp : p.Valid) {message : String} {next : Unit → ParserM α}
    (h : Calm (next ()) (p.withError (p.peekAt 0) message)) :
    Calm (errorAt (p.peekAt 0) message >>= next) p := by
  intro a p' hrun
  obtain ⟨u, hu⟩ := h a p' hrun
  have herr : Over p [] (p.withError (p.peekAt 0) message) :=
    (Over.refl hp).withError message (by simp)
  exact ⟨[] ++ u, herr.trans hu⟩

theorem Calm.advance {kind : TokenKind} {next : Token → ParserM α} (hp : p.Valid)
    (hkind : (p.peekAt 0).kind = kind)
    (hne : Ordinary kind)
    (h : p.advanced.Valid → Calm (next p.advanced.previousToken) p.advanced) :
    Calm (advance >>= next) p := by
  intro a p' hrun
  have hone := Over.advanced hp hkind hne
  obtain ⟨u, hu⟩ := h hone.steps.valid a p' hrun
  exact ⟨_, hone.trans hu⟩

theorem calm_match {kind : TokenKind} (hp : p.Valid)
    (hne : Ordinary kind) :
    Calm («match» kind) p := by
  rw [«match»]
  apply Calm.check
  by_cases hkind : (p.peekAt 0).kind = kind
  · rw [Token.is_eq_true.mpr hkind]
    exact Calm.advance hp hkind hne fun hnext => .pure hnext _
  · rw [Token.is_eq_false.mpr hkind]
    exact Calm.pure hp _

theorem calm_expect {kind : TokenKind} {context : String} (hp : p.Valid)
    (hne : Ordinary kind) :
    Calm (expect kind context) p := by
  rw [expect]
  apply Calm.check
  by_cases hkind : (p.peekAt 0).kind = kind
  · rw [Token.is_eq_true.mpr hkind]
    exact Calm.advance hp hkind hne fun hnext => .pure hnext _
  · rw [Token.is_eq_false.mpr hkind]
    apply Calm.peek
    apply Calm.errorAt hp
    apply Calm.pure
    exact hp

theorem Calm.ite {c : Prop} [Decidable c] {x y : ParserM α} (hx : c → Calm x p)
    (hy : ¬c → Calm y p) : Calm (if c then x else y) p := by
  split
  · next hc => exact hx hc
  · next hc => exact hy hc

end Rules

/-! No parsing function below the statements consumes a brace. -/

structure ExprCalm (limit : Nat) : Prop where
  expression : ∀ p : Parser, p.Valid → Calm (parseExpression limit) p
  simple : ∀ p : Parser, p.Valid → Calm (parseSimpleExpression limit) p
  additive : ∀ p : Parser, p.Valid → Calm (parseAdditiveExpression limit) p
  addops : ∀ (p : Parser) (node : Expr), p.Valid → Calm (parseAddops limit node) p
  term : ∀ p : Parser, p.Valid → Calm (parseTerm limit) p
  mulops : ∀ (p : Parser) (node : Expr), p.Valid → Calm (parseMulops limit node) p
  factor : ∀ p : Parser, p.Valid → Calm (parseFactor limit) p
  args : ∀ p : Parser, p.Valid → Calm (parseArgs limit) p
  argsFrom : ∀ (p : Parser) (args : List Expr), p.Valid →
    Calm (parseArgsFrom limit args) p

section Expression

variable {limit : Nat} (ih : ExprCalm limit)

include ih

theorem parseTerm_calm (p : Parser) (hp : p.Valid) : Calm (parseTerm (limit + 1)) p := by
  rw [parseTerm]
  apply Calm.bind (ih.factor p hp)
  intro node p₁ hp₁ _
  cases node with
  | none => exact .pure hp₁ _
  | some node => exact ih.mulops p₁ node hp₁

theorem parseMulops_calm (p : Parser) (node : Expr) (hp : p.Valid) :
    Calm (parseMulops (limit + 1) node) p := by
  rw [parseMulops]
  apply Calm.peek
  apply Calm.ite
  · exact fun _ => .pure hp _
  intro hmulop
  have hmulop : (p.peekAt 0).kind.isMulop = true := by simpa using hmulop
  apply Calm.advance hp rfl (ordinary_of hmulop rfl rfl rfl)
  intro hnext
  apply Calm.bind (ih.factor _ hnext)
  intro rhs p₁ hp₁ _
  cases rhs with
  | none => exact .pure hp₁ _
  | some rhs => exact ih.mulops p₁ _ hp₁

theorem parseAdditiveExpression_calm (p : Parser) (hp : p.Valid) :
    Calm (parseAdditiveExpression (limit + 1)) p := by
  rw [parseAdditiveExpression]
  apply Calm.bind (ih.term p hp)
  intro node p₁ hp₁ _
  cases node with
  | none => exact .pure hp₁ _
  | some node => exact ih.addops p₁ node hp₁

theorem parseAddops_calm (p : Parser) (node : Expr) (hp : p.Valid) :
    Calm (parseAddops (limit + 1) node) p := by
  rw [parseAddops]
  apply Calm.peek
  apply Calm.ite
  · exact fun _ => .pure hp _
  intro haddop
  have haddop : (p.peekAt 0).kind.isAddop = true := by simpa using haddop
  apply Calm.advance hp rfl (ordinary_of haddop rfl rfl rfl)
  intro hnext
  apply Calm.bind (ih.term _ hnext)
  intro rhs p₁ hp₁ _
  cases rhs with
  | none => exact .pure hp₁ _
  | some rhs => exact ih.addops p₁ _ hp₁

theorem parseSimpleExpression_calm (p : Parser) (hp : p.Valid) :
    Calm (parseSimpleExpression (limit + 1)) p := by
  rw [parseSimpleExpression]
  apply Calm.bind (ih.additive p hp)
  intro lhs p₁ hp₁ _
  cases lhs with
  | none => exact .pure hp₁ _
  | some lhs =>
      apply Calm.peek
      apply Calm.ite
      · exact fun _ => .pure hp₁ _
      intro hrelop
      have hrelop : (p₁.peekAt 0).kind.isRelop = true := by simpa using hrelop
      apply Calm.advance hp₁ rfl (ordinary_of hrelop rfl rfl rfl)
      intro hnext
      apply Calm.bind (ih.additive _ hnext)
      intro rhs p₂ hp₂ _
      cases rhs with
      | none => exact .pure hp₂ _
      | some rhs =>
          apply Calm.peek
          apply Calm.ite
          · intro _
            apply Calm.errorAt hp₂
            apply Calm.pure
            exact hp₂
          · exact fun _ => .pure hp₂ _

theorem parseExpression_calm (p : Parser) (hp : p.Valid) :
    Calm (parseExpression (limit + 1)) p := by
  rw [parseExpression]
  apply Calm.bind (ih.simple p hp)
  intro lhs p₁ hp₁ _
  cases lhs with
  | none => exact .pure hp₁ _
  | some lhs =>
      apply Calm.check
      apply Calm.ite
      · exact fun _ => .pure hp₁ _
      intro hassign
      have hassign : (p₁.peekAt 0).kind = .assign := by simpa using hassign
      -- the error about the target blames the `=`, which has been consumed by then
      have hone := Over.advanced hp₁ hassign (by decide)
      have heq : p₁.advanced.previousToken = p₁.peekAt 0 :=
        previousToken_advanced hp₁ (by simp [hassign])
      intro a p' hrun
      obtain ⟨_, hadvance, hrun⟩ := Option.bind_eq_some_iff.mp hrun
      cases hadvance
      obtain ⟨⟨value, p₂⟩, hvalue, hrun⟩ := Option.bind_eq_some_iff.mp hrun
      obtain ⟨u, hu⟩ := ih.expression _ hone.steps.valid value p₂ hvalue
      have hall := hone.trans hu
      have hreject : ∀ message, Quiet p₁ (p₂.withError (p₁.peekAt 0) message) :=
        fun message => ⟨_, hall.withError message (by simp)⟩
      rw [heq] at hrun
      cases value with
      | none =>
          cases hrun
          exact ⟨_, hall⟩
      | some value =>
          cases lhs with
          | var head index =>
              dsimp only at hrun
              by_cases hparen : head.info.parenthesized = true
              · rw [if_pos hparen] at hrun
                cases hrun
                exact hreject _
              · rw [if_neg hparen] at hrun
                cases hrun
                exact ⟨_, hall⟩
          | _ =>
              cases hrun
              exact hreject _

theorem parseFactor_calm (p : Parser) (hp : p.Valid) :
    Calm (parseFactor (limit + 1)) p := by
  rw [parseFactor]
  apply Calm.peek
  cases hkind : (p.peekAt 0).kind with
  | lParen =>
      dsimp only
      apply Calm.advance hp hkind (by decide)
      intro hnext
      apply Calm.bind (ih.expression _ hnext)
      intro inner p₁ hp₁ _
      cases inner with
      | none => exact .pure hp₁ _
      | some inner =>
          apply Calm.bind (calm_expect hp₁ (by decide))
          intro found p₂ hp₂ _
          apply Calm.ite
          · exact fun _ => .pure hp₂ _
          · exact fun _ => .pure hp₂ _
  | number =>
      dsimp only
      apply Calm.advance hp hkind (by decide)
      exact fun hnext => .pure hnext _
  | identifier =>
      dsimp only
      apply Calm.advance hp hkind (by decide)
      intro hnext
      apply Calm.bind (calm_match hnext (by decide))
      intro paren p₁ hp₁ _
      apply Calm.ite
      · intro _
        apply Calm.bind (ih.args _ hp₁)
        intro args p₂ hp₂ _
        cases args with
        | none => exact .pure hp₂ _
        | some args =>
            apply Calm.bind (calm_expect hp₂ (by decide))
            intro found p₃ hp₃ _
            apply Calm.ite
            · exact fun _ => .pure hp₃ _
            · exact fun _ => .pure hp₃ _
      · intro _
        apply Calm.bind (calm_match hp₁ (by decide))
        intro bracket p₂ hp₂ _
        apply Calm.ite
        · intro _
          apply Calm.bind (ih.expression _ hp₂)
          intro index p₃ hp₃ _
          cases index with
          | none => exact .pure hp₃ _
          | some index =>
              apply Calm.bind (calm_expect hp₃ (by decide))
              intro found p₄ hp₄ _
              apply Calm.ite
              · exact fun _ => .pure hp₄ _
              · exact fun _ => .pure hp₄ _
        · exact fun _ => .pure hp₂ _
  | _ =>
      dsimp only
      apply Calm.errorAt hp
      apply Calm.pure
      exact hp

theorem parseArgsFrom_calm (p : Parser) (args : List Expr) (hp : p.Valid) :
    Calm (parseArgsFrom (limit + 1) args) p := by
  rw [parseArgsFrom]
  apply Calm.bind (ih.expression p hp)
  intro arg p₁ hp₁ _
  cases arg with
  | none => exact .pure hp₁ _
  | some arg =>
      apply Calm.bind (calm_match hp₁ (by decide))
      intro comma p₂ hp₂ _
      apply Calm.ite
      · exact fun _ => .pure hp₂ _
      · exact fun _ => ih.argsFrom p₂ _ hp₂

theorem parseArgs_calm (p : Parser) (hp : p.Valid) : Calm (parseArgs (limit + 1)) p := by
  rw [parseArgs]
  apply Calm.check
  apply Calm.ite
  · exact fun _ => .pure hp _
  · exact fun _ => ih.argsFrom p [] hp

end Expression

theorem exprCalm (limit : Nat) : ExprCalm limit := by
  induction limit with
  | zero =>
      constructor <;> intros
      all_goals
        intro a p' h
        cases h
  | succ limit ih =>
      exact {
        expression := parseExpression_calm ih
        simple := parseSimpleExpression_calm ih
        additive := parseAdditiveExpression_calm ih
        addops := parseAddops_calm ih
        term := parseTerm_calm ih
        mulops := parseMulops_calm ih
        factor := parseFactor_calm ih
        args := parseArgs_calm ih
        argsFrom := parseArgsFrom_calm ih }

/-! Declarations, recovery inside a block, and the statements without a block. -/

theorem synchronizeStatementFrom_calm (limit : Nat) (p : Parser) (hp : p.Valid) :
    Calm (synchronizeStatementFrom limit) p := by
  induction limit generalizing p with
  | zero =>
      intro a p' h
      cases h
  | succ limit ih =>
      rw [synchronizeStatementFrom]
      apply Calm.atEnd
      apply Calm.ite
      · exact fun _ => .pure hp _
      intro hend
      apply Calm.previous
      apply Calm.ite
      · exact fun _ => .pure hp _
      intro _
      apply Calm.peek
      apply Calm.ite
      · exact fun _ => .pure hp _
      intro hstop
      have hend : (p.peekAt 0).kind ≠ .endOfFile := by simpa using hend
      have hne : Ordinary (p.peekAt 0).kind := by
        refine ⟨hend, fun hk => ?_, fun hk => ?_⟩ <;>
          · rw [hk] at hstop
            exact hstop rfl
      apply Calm.advance hp rfl hne
      exact fun hnext => ih _ hnext

theorem synchronizeStatement_calm (p : Parser) (hp : p.Valid) :
    Calm synchronizeStatement p :=
  synchronizeStatementFrom_calm _ p hp

theorem parseTypeSpecifier_calm (p : Parser) (hp : p.Valid) :
    Calm parseTypeSpecifier p := by
  rw [parseTypeSpecifier]
  apply Calm.peek
  apply Calm.bind (calm_match hp (by decide))
  intro int p₁ hp₁ _
  apply Calm.ite
  · exact fun _ => .pure hp₁ _
  intro _
  apply Calm.bind (calm_match hp₁ (by decide))
  intro void p₂ hp₂ _
  apply Calm.ite
  · exact fun _ => .pure hp₂ _
  intro _
  apply Calm.peek
  apply Calm.errorAt hp₂
  apply Calm.pure
  exact hp₂

theorem finishVarDeclaration_calm (type : CType) (typeLoc : SourceLocation) (name : Token)
    (p : Parser) (hp : p.Valid) : Calm (finishVarDeclaration type typeLoc name) p := by
  have htail : ∀ (decl : VarDecl) (q : Parser), q.Valid → Calm (do
      if ← check .comma then
        errorAt (← peek) ("C- declares one variable per declaration; write a " ++
          "separate declaration for each name")
        return none
      if !(← expect .semicolon ("after the declaration of '" ++ name.lexeme ++ "'")) then
        return none
      return some decl) q := by
    intro decl q hq
    apply Calm.check
    apply Calm.ite
    · intro _
      apply Calm.peek
      apply Calm.errorAt hq
      apply Calm.pure
      exact hq
    · intro _
      apply Calm.bind (calm_expect hq (by decide))
      intro semi q₁ hq₁ _
      apply Calm.ite
      · exact fun _ => .pure hq₁ _
      · exact fun _ => .pure hq₁ _
  rw [finishVarDeclaration]
  apply Calm.bind (calm_match hp (by decide))
  intro bracket p₁ hp₁ _
  apply Calm.ite
  · intro _
    apply Calm.check
    by_cases hnumber : (p₁.peekAt 0).kind = .number
    · rw [Token.is_eq_true.mpr hnumber]
      apply Calm.advance hp₁ hnumber (by decide)
      intro hnext
      apply Calm.bind (calm_expect hnext (by decide))
      intro found p₂ hp₂ _
      apply Calm.ite
      · exact fun _ => .pure hp₂ _
      · exact fun _ => htail _ p₂ hp₂
    · rw [Token.is_eq_false.mpr hnumber]
      apply Calm.peek
      apply Calm.errorAt hp₁
      apply Calm.pure
      exact hp₁
  · exact fun _ => htail _ p₁ hp₁

theorem parseLocalVarDeclaration_calm (p : Parser) (hp : p.Valid) :
    Calm parseLocalVarDeclaration p := by
  rw [parseLocalVarDeclaration]
  apply Calm.bind (parseTypeSpecifier_calm p hp)
  intro type p₁ hp₁ _
  cases type with
  | none => exact .pure hp₁ _
  | some type =>
      apply Calm.check
      by_cases hname : (p₁.peekAt 0).kind = .identifier
      · rw [Token.is_eq_true.mpr hname]
        simp only [Bool.not_true, Bool.false_eq_true, if_false]
        -- the error about a function blames its name, which has been consumed by then
        have hone := Over.advanced hp₁ hname (by decide)
        have hprev : p₁.advanced.previousToken = p₁.peekAt 0 :=
          previousToken_advanced hp₁ (by simp [hname])
        intro a p' hrun
        obtain ⟨_, hadvance, hrun⟩ := Option.bind_eq_some_iff.mp hrun
        cases hadvance
        rw [hprev] at hrun
        dsimp only at hrun
        by_cases hparen : (p₁.advanced.peekAt 0).kind = .lParen
        · rw [run_check_of hparen] at hrun
          cases hrun
          exact ⟨_, hone.withError _ (by simp)⟩
        · rw [run_check_ne hparen] at hrun
          obtain ⟨u, hu⟩ := finishVarDeclaration_calm _ _ _ _ hone.steps.valid a p' hrun
          exact ⟨_, hone.trans hu⟩
      · rw [Token.is_eq_false.mpr hname]
        apply Calm.peek
        apply Calm.errorAt hp₁
        apply Calm.pure
        exact hp₁

theorem parseExpressionStmt_calm (limit : Nat) (p : Parser) (hp : p.Valid) :
    Calm (parseExpressionStmt limit) p := by
  rw [parseExpressionStmt]
  apply Calm.peek
  apply Calm.bind (calm_match hp (by decide))
  intro semi p₁ hp₁ _
  apply Calm.ite
  · exact fun _ => .pure hp₁ _
  intro _
  apply Calm.bind ((exprCalm limit).expression p₁ hp₁)
  intro expr p₂ hp₂ _
  cases expr with
  | none => exact .pure hp₂ _
  | some expr =>
      apply Calm.bind (calm_expect hp₂ (by decide))
      intro found p₃ hp₃ _
      apply Calm.ite
      · exact fun _ => .pure hp₃ _
      · exact fun _ => .pure hp₃ _

theorem parseReturnStmt_calm (limit : Nat) (p : Parser) (hp : p.Valid)
    (hkw : (p.peekAt 0).kind = .kwReturn) : Calm (parseReturnStmt limit) p := by
  rw [parseReturnStmt]
  apply Calm.advance hp hkw (by decide)
  intro hnext
  apply Calm.bind (calm_match hnext (by decide))
  intro semi p₁ hp₁ _
  apply Calm.ite
  · exact fun _ => .pure hp₁ _
  intro _
  apply Calm.bind ((exprCalm limit).expression p₁ hp₁)
  intro value p₂ hp₂ _
  cases value with
  | none => exact .pure hp₂ _
  | some value =>
      apply Calm.bind (calm_expect hp₂ (by decide))
      intro found p₃ hp₃ _
      apply Calm.ite
      · exact fun _ => .pure hp₃ _
      · exact fun _ => .pure hp₃ _

end Parser

end CMinus
