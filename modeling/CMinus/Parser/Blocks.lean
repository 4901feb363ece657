import CMinus.Parser.Calm
import CMinus.Parser.Recovery

namespace CMinus

namespace Parser

open Grammar

/-! Token lists whose braces are properly nested. -/

inductive Nested : List Token → Prop
  | nil : Nested []
  | token {tok : Token} {w : List Token} :
      tok.kind ≠ .lBrace → tok.kind ≠ .rBrace → Nested w → Nested (tok :: w)
  | block {lb rb : Token} {v w : List Token} :
      lb.kind = .lBrace → Nested v → rb.kind = .rBrace → Nested w →
      Nested (lb :: (v ++ rb :: w))

theorem Nested.drop_flat {u w : List Token} (h : Nested (u ++ w)) (hflat : Flat u) :
    Nested w := by
  induction u with
  | nil => exact h
  | cons tok u ih =>
      obtain ⟨htok, hu⟩ := flat_cons.mp hflat
      rw [List.cons_append] at h
      generalize u ++ w = rest at h ih
      cases h with
      | token _ _ h => exact ih h hu
      | block hlb _ _ _ => exact absurd hlb htok.1

theorem Nested.split {lb : Token} {w : List Token} (h : Nested (lb :: w))
    (hlb : lb.kind = .lBrace) :
    ∃ v rb w', w = v ++ rb :: w' ∧ Nested v ∧ rb.kind = .rBrace ∧ Nested w' := by
  cases h with
  | token hne _ _ => exact absurd hlb hne
  | block _ hv hrb hw => exact ⟨_, _, _, rfl, hv, hrb, hw⟩

/-! Inside a block: `v` is what is left of the body `w`, in front of the closing
brace `rb`. -/

structure Left (p : Parser) (w : List Token) (rb : Token) (r : List Token) (v : List Token)
    (p' : Parser) : Prop where
  nested : Nested v
  steps : ∃ u, w = u ++ v ∧ Steps p u p'
  ahead : At p' (v ++ rb :: r)
  blames : Blames p (w ++ [rb]) p'

theorem Left.refl {p : Parser} {w r : List Token} {rb : Token} (hat : At p (w ++ rb :: r))
    (hw : Nested w) : Left p w rb r w p :=
  ⟨hw, ⟨[], rfl, .refl hat.valid⟩, hat, .same rfl⟩

theorem Left.trans {p p₁ p₂ : Parser} {w v v' r : List Token} {rb : Token}
    (h : Left p w rb r v p₁) (h' : Left p₁ v rb r v' p₂) : Left p w rb r v' p₂ := by
  obtain ⟨-, ⟨u, rfl, hsteps⟩, -, hblames⟩ := h
  obtain ⟨hnested, ⟨u', rfl, hsteps'⟩, hat, hblames'⟩ := h'
  refine ⟨hnested, ⟨u ++ u', by rw [List.append_assoc], hsteps.trans hsteps'⟩, hat, ?_⟩
  apply hblames.trans (hblames'.mono ?_)
  intro tok htok
  rw [List.append_assoc u]
  exact List.mem_append_right _ htok

theorem Quiet.left {p p' : Parser} {w r : List Token} {rb : Token} (h : Quiet p p')
    (hat : At p (w ++ rb :: r)) (hw : Nested w) (hrb : rb.kind = .rBrace) :
    ∃ v, Left p w rb r v p' := by
  obtain ⟨used, hover⟩ := h
  have hahead : w ++ rb :: r = used ++ p'.ahead := by
    rw [← hat.ahead]
    exact hover.steps.ahead
  -- no brace is consumed, so the closing one is still ahead
  obtain ⟨v, rfl⟩ : ∃ v, w = used ++ v := by
    rcases List.append_eq_append_iff.mp hahead with ⟨v, hused, hrest⟩ | ⟨v, hw, -⟩
    · cases v with
      | nil => exact ⟨[], by simpa using hused.symm⟩
      | cons tok v =>
          cases hrest
          have hmem : rb ∈ used := by simp [hused]
          exact absurd hrb (hover.flat rb hmem).2
    · exact ⟨v, hw⟩
  have hp' : At p' (v ++ rb :: r) := by
    refine ⟨hover.steps.valid, ?_⟩
    rw [List.append_assoc] at hahead
    exact (List.append_cancel_left hahead).symm
  refine ⟨v, hw.drop_flat hover.flat, ⟨used, rfl, hover.steps⟩, hp',
    hover.blames.mono ?_⟩
  intro tok htok
  rw [List.append_assoc]
  rcases List.mem_append.mp htok with htok | htok
  · exact List.mem_append_left _ htok
  · apply List.mem_append_right
    rw [List.mem_singleton.mp htok]
    cases v with
    | nil => simp [hp'.peek]
    | cons head v => simp [hp'.peek]

/-! The forced advance of a loop in front of an ordinary token. -/

theorem Steps.peekAt_of_pos {p p' : Parser} {u : List Token} (h : Steps p u p')
    (hpos : p'.pos = p.pos) (ahead : Nat) : p'.peekAt ahead = p.peekAt ahead := by
  simp [Parser.peekAt, h.tokens, hpos]

theorem Left.forced {α : Type} {p p₂ p' : Parser} {w v r : List Token} {rb : Token}
    {next : ParserM α} {a : α} (h : Left p w rb r v p₂) (hrb : rb.kind = .rBrace)
    (hfirst : p₂.pos = p.pos → Ordinary (p.peekAt 0).kind)
    (hrun : (position >>= fun now =>
      if now = p.pos then advance >>= fun _ => next else next) p₂ = some (a, p')) :
    ∃ v' p₃, Left p w rb r v' p₃ ∧ next p₃ = some (a, p') := by
  rw [run_position] at hrun
  by_cases hpos : p₂.pos = p.pos
  · rw [if_pos hpos] at hrun
    obtain ⟨u, -, hsteps⟩ := h.steps
    have hkind := hfirst hpos
    rw [← hsteps.peekAt_of_pos hpos] at hkind
    have hone : Quiet p₂ p₂.advanced := ⟨_, .advanced h.ahead.valid rfl hkind⟩
    obtain ⟨v', hv'⟩ := hone.left h.ahead h.nested hrb
    exact ⟨v', _, h.trans hv', hrun⟩
  · rw [if_neg hpos] at hrun
    exact ⟨v, p₂, h, hrun⟩

theorem parseLocalDecls_left (limit : Nat) {p p' : Parser} {w r : List Token} {rb : Token}
    {decls ds : List VarDecl} (hat : At p (w ++ rb :: r)) (hw : Nested w)
    (hrb : rb.kind = .rBrace) (hrun : parseLocalDecls limit decls p = some (ds, p')) :
    ∃ v, Left p w rb r v p' := by
  induction limit generalizing p w decls with
  | zero => cases hrun
  | succ limit ih =>
      rw [parseLocalDecls, run_peek] at hrun
      by_cases htype : (p.peekAt 0).kind.isTypeSpecifier = true
      · simp only [htype, Bool.not_true, Bool.false_eq_true, if_false, run_position] at hrun
        obtain ⟨⟨decl, p₁⟩, hdecl, hrun⟩ := Option.bind_eq_some_iff.mp hrun
        have hquiet := parseLocalVarDeclaration_calm p hat.valid decl p₁ hdecl
        obtain ⟨v, hleft⟩ := hquiet.left hat hw hrb
        cases decl with
        | some decl =>
            obtain ⟨v', hleft'⟩ := ih hleft.ahead hleft.nested hrun
            exact ⟨v', hleft.trans hleft'⟩
        | none =>
            obtain ⟨⟨_, p₂⟩, hsync, hrun⟩ := Option.bind_eq_some_iff.mp hrun
            have hquiet' := synchronizeStatement_calm p₁ hleft.ahead.valid _ p₂ hsync
            obtain ⟨v', hleft'⟩ := hquiet'.left hleft.ahead hleft.nested hrb
            obtain ⟨v₃, p₃, hleft₃, hrun⟩ := (hleft.trans hleft').forced hrb
              (fun _ => ordinary_of htype rfl rfl rfl) hrun
            obtain ⟨v₄, hleft₄⟩ := ih hleft₃.ahead hleft₃.nested hrun
            exact ⟨v₄, hleft₃.trans hleft₄⟩
      · simp only [htype, Bool.not_false, if_true] at hrun
        cases hrun
        exact ⟨w, .refl hat hw⟩

/-! An action is kept inside its block when it ends with something left of the body. -/

def Kept {α : Type} (rb : Token) (r : List Token) (action : ParserM α) (p : Parser) : Prop :=
  ∀ w, At p (w ++ rb :: r) → Nested w →
    ∀ a p', action p = some (a, p') → ∃ v, Left p w rb r v p'

section Kept

variable {α β : Type} {p : Parser} {rb : Token} {r : List Token}

theorem Calm.kept {action : ParserM α} (h : Calm action p) (hrb : rb.kind = .rBrace) :
    Kept rb r action p :=
  fun _ hat hw a p' hrun => (h a p' hrun).left hat hw hrb

theorem Kept.bind {action : ParserM β} {next : β → ParserM α} (h : Kept rb r action p)
    (hnext : ∀ b p', p'.Valid → Kept rb r (next b) p') :
    Kept rb r (action >>= next) p := by
  intro w hat hw a p' hrun
  obtain ⟨⟨b, p₁⟩, hb, hrun⟩ := Option.bind_eq_some_iff.mp hrun
  obtain ⟨v, hleft⟩ := h w hat hw b p₁ hb
  obtain ⟨v', hleft'⟩ := hnext b p₁ hleft.ahead.valid v hleft.ahead hleft.nested a p' hrun
  exact ⟨v', hleft.trans hleft'⟩

theorem Kept.ite {c : Prop} [Decidable c] {x y : ParserM α} (hx : c → Kept rb r x p)
    (hy : ¬c → Kept rb r y p) : Kept rb r (if c then x else y) p := by
  split
  · next hc => exact hx hc
  · next hc => exact hy hc

end Kept

structure BlockCalm (limit : Nat) : Prop where
  statement : ∀ (p : Parser) (rb : Token) (r : List Token), rb.kind = .rBrace →
    Kept rb r (parseStatement limit) p
  block : ∀ (p p' : Parser) (w : List Token) (rb : Token) (r : List Token)
    (result : Option Stmt), rb.kind = .rBrace → At p (w ++ rb :: r) → Nested w →
    (p.peekAt 0).kind = .lBrace → parseStatement limit p = some (result, p') →
    result.isSome = true
  compound : ∀ (p p' : Parser) (lb rb : Token) (body r : List Token)
    (result : Option CompoundStmt), lb.kind = .lBrace → rb.kind = .rBrace →
    At p (lb :: (body ++ rb :: r)) → Nested body →
    parseCompoundStmt limit p = some (result, p') →
    result.isSome = true ∧ Steps p (lb :: (body ++ [rb])) p' ∧ Blames p (body ++ [rb]) p'
  stmts : ∀ (p p' : Parser) (w : List Token) (rb : Token) (r : List Token)
    (stmts result : List Stmt), rb.kind = .rBrace → At p (w ++ rb :: r) → Nested w →
    parseStmts limit stmts p = some (result, p') → Left p w rb r [] p'
  selection : ∀ (p : Parser) (rb : Token) (r : List Token), rb.kind = .rBrace →
    p.Valid → (p.peekAt 0).kind = .kwIf → Kept rb r (parseSelectionStmt limit) p
  iteration : ∀ (p : Parser) (rb : Token) (r : List Token), rb.kind = .rBrace →
    p.Valid → (p.peekAt 0).kind = .kwWhile → Kept rb r (parseIterationStmt limit) p

section Block

variable {limit : Nat} (ih : BlockCalm limit)

include ih

theorem parseSelectionStmt_kept (p : Parser) (rb : Token) (r : List Token)
    (hrb : rb.kind = .rBrace) (hp : p.Valid) (hkw : (p.peekAt 0).kind = .kwIf) :
    Kept rb r (parseSelectionStmt (limit + 1)) p := by
  rw [parseSelectionStmt]
  have hadvance : Calm advance p := by
    intro a p' h
    cases h
    exact ⟨_, .advanced hp hkw (by decide)⟩
  apply Kept.bind (hadvance.kept hrb)
  intro loc p₁ hp₁
  apply Kept.bind ((calm_expect hp₁ (by decide)).kept hrb)
  intro lp p₂ hp₂
  apply Kept.ite
  · exact fun _ => (Calm.pure hp₂ _).kept hrb
  intro _
  apply Kept.bind (((exprCalm limit).expression p₂ hp₂).kept hrb)
  intro cond p₃ hp₃
  cases cond with
  | none => exact (Calm.pure hp₃ _).kept hrb
  | some cond =>
      apply Kept.bind ((calm_expect hp₃ (by decide)).kept hrb)
      intro rp p₄ hp₄
      apply Kept.ite
      · exact fun _ => (Calm.pure hp₄ _).kept hrb
      intro _
      apply Kept.bind (ih.statement p₄ rb r hrb)
      intro thenStmt p₅ hp₅
      cases thenStmt with
      | none => exact (Calm.pure hp₅ _).kept hrb
      | some thenStmt =>
          apply Kept.bind ((calm_match hp₅ (by decide)).kept hrb)
          intro els p₆ hp₆
          apply Kept.ite
          · intro _
            apply Kept.bind (ih.statement p₆ rb r hrb)
            intro elseStmt p₇ hp₇
            cases elseStmt with
            | none => exact (Calm.pure hp₇ _).kept hrb
            | some elseStmt => exact (Calm.pure hp₇ _).kept hrb
          · exact fun _ => (Calm.pure hp₆ _).kept hrb

theorem parseIterationStmt_kept (p : Parser) (rb : Token) (r : List Token)
    (hrb : rb.kind = .rBrace) (hp : p.Valid) (hkw : (p.peekAt 0).kind = .kwWhile) :
    Kept rb r (parseIterationStmt (limit + 1)) p := by
  rw [parseIterationStmt]
  have hadvance : Calm advance p := by
    intro a p' h
    cases h
    exact ⟨_, .advanced hp hkw (by decide)⟩
  apply Kept.bind (hadvance.kept hrb)
  intro loc p₁ hp₁
  apply Kept.bind ((calm_expect hp₁ (by decide)).kept hrb)
  intro lp p₂ hp₂
  apply Kept.ite
  · exact fun _ => (Calm.pure hp₂ _).kept hrb
  intro _
  apply Kept.bind (((exprCalm limit).expression p₂ hp₂).kept hrb)
  intro cond p₃ hp₃
  cases cond with
  | none => exact (Calm.pure hp₃ _).kept hrb
  | some cond =>
      apply Kept.bind ((calm_expect hp₃ (by decide)).kept hrb)
      intro rp p₄ hp₄
      apply Kept.ite
      · exact fun _ => (Calm.pure hp₄ _).kept hrb
      intro _
      apply Kept.bind (ih.statement p₄ rb r hrb)
      intro body p₅ hp₅
      cases body with
      | none => exact (Calm.pure hp₅ _).kept hrb
      | some body => exact (Calm.pure hp₅ _).kept hrb

/-- A nested block as a statement: it is read to its own closing brace. -/
theorem parseStatement_block {p p' : Parser} {w r : List Token} {rb : Token}
    {result : Option Stmt} (hrb : rb.kind = .rBrace) (hat : At p (w ++ rb :: r))
    (hw : Nested w) (hkind : (p.peekAt 0).kind = .lBrace)
    (hrun : parseStatement (limit + 1) p = some (result, p')) :
    result.isSome = true ∧ ∃ v, Left p w rb r v p' := by
  cases w with
  | nil =>
      rw [hat.peek, hrb] at hkind
      cases hkind
  | cons lb w =>
      rw [hat.peek] at hkind
      obtain ⟨v, rb', w', rfl, hv, hrb', hw'⟩ := hw.split hkind
      rw [parseStatement, run_peek, hat.peek, hkind] at hrun
      obtain ⟨⟨block, p₁⟩, hblock, hrun⟩ := Option.bind_eq_some_iff.mp hrun
      have hat' : At p (lb :: (v ++ rb' :: (w' ++ rb :: r))) := by simpa using hat
      obtain ⟨hsome, hsteps, hblames⟩ :=
        ih.compound p p₁ lb rb' v _ block hkind hrb' hat' hv hblock
      obtain ⟨block, rfl⟩ := Option.isSome_iff_exists.mp hsome
      cases hrun
      have hahead : p₁.ahead = w' ++ rb :: r := by
        have := hsteps.ahead
        rw [hat'.ahead] at this
        simpa using this.symm
      refine ⟨rfl, w', hw', ⟨lb :: (v ++ [rb']), by simp, hsteps⟩,
        ⟨hsteps.valid, hahead⟩, hblames.mono ?_⟩
      intro tok htok
      simp only [List.mem_append, List.mem_cons, List.not_mem_nil, or_false] at htok ⊢
      rcases htok with htok | rfl
      · exact .inl (.inr (.inl htok))
      · exact .inl (.inr (.inr (.inl rfl)))

theorem parseStatement_kept (p : Parser) (rb : Token) (r : List Token)
    (hrb : rb.kind = .rBrace) : Kept rb r (parseStatement (limit + 1)) p := by
  intro w hat hw a p' hrun
  have hp := hat.valid
  by_cases hlb : (p.peekAt 0).kind = .lBrace
  · exact (parseStatement_block ih hrb hat hw hlb hrun).2
  rw [parseStatement, run_peek] at hrun
  have herror : ∀ {message : String} {action : ParserM (Option Stmt)},
      (action = do
        errorAt (p.peekAt 0) message
        return none) → action p = some (a, p') → ∃ v, Left p w rb r v p' := by
    rintro message action rfl hrun
    have hcalm : Calm (do
        errorAt (p.peekAt 0) message
        return (none : Option Stmt)) p := by
      apply Calm.errorAt hp
      apply Calm.pure
      exact hp
    exact hcalm.kept hrb w hat hw a p' hrun
  cases hkind : (p.peekAt 0).kind <;> rw [hkind] at hrun
  case lBrace => exact absurd hkind hlb
  case kwIf => exact ih.selection p rb r hrb hp hkind w hat hw a p' hrun
  case kwWhile => exact ih.iteration p rb r hrb hp hkind w hat hw a p' hrun
  case kwReturn =>
    exact (parseReturnStmt_calm limit p hp hkind).kept hrb w hat hw a p' hrun
  case semicolon | identifier | number | lParen =>
    exact (parseExpressionStmt_calm limit p hp).kept hrb w hat hw a p' hrun
  all_goals exact herror rfl hrun

theorem parseStmts_left (p p' : Parser) (w : List Token) (rb : Token) (r : List Token)
    (stmts result : List Stmt) (hrb : rb.kind = .rBrace) (hat : At p (w ++ rb :: r))
    (hw : Nested w) (hrun : parseStmts (limit + 1) stmts p = some (result, p')) :
    Left p w rb r [] p' := by
  rw [parseStmts, run_check, run_atEnd] at hrun
  by_cases hstop : (p.peekAt 0).kind = .rBrace
  · have hnil : w = [] := by
      cases hw with
      | nil => rfl
      | token _ hne _ => exact absurd (hat.peek ▸ hstop) hne
      | block hlb _ _ _ =>
          rw [hat.peek, hlb] at hstop
          cases hstop
    subst hnil
    rw [Token.is_eq_true.mpr hstop] at hrun
    cases hrun
    exact .refl hat hw
  have hmore : (p.peekAt 0).kind ≠ .endOfFile := by
    rw [ne_eq, ← ahead_eq_nil hat.valid, hat.ahead]
    simp
  rw [Token.is_eq_false.mpr hstop, Token.is_eq_false.mpr hmore] at hrun
  simp only [Bool.or_self, Bool.false_eq_true, if_false, run_position] at hrun
  obtain ⟨⟨stmt, p₁⟩, hstmt, hrun⟩ := Option.bind_eq_some_iff.mp hrun
  obtain ⟨v, hleft⟩ := ih.statement p rb r hrb w hat hw stmt p₁ hstmt
  cases stmt with
  | some stmt =>
      exact hleft.trans (ih.stmts _ _ _ _ _ _ _ hrb hleft.ahead hleft.nested hrun)
  | none =>
      obtain ⟨⟨_, p₂⟩, hsync, hrun⟩ := Option.bind_eq_some_iff.mp hrun
      have hquiet := synchronizeStatement_calm p₁ hleft.ahead.valid _ p₂ hsync
      obtain ⟨v', hleft'⟩ := hquiet.left hleft.ahead hleft.nested hrb
      -- in front of an opening brace the statement is a block, and a block is never null
      have hopen : (p.peekAt 0).kind ≠ .lBrace := fun hlb => by
        have := ih.block p p₁ w rb r none hrb hat hw hlb hstmt
        cases this
      obtain ⟨v₃, p₃, hleft₃, hrun⟩ := (hleft.trans hleft').forced hrb
        (fun _ => ⟨hmore, hopen, hstop⟩) hrun
      exact hleft₃.trans (ih.stmts _ _ _ _ _ _ _ hrb hleft₃.ahead hleft₃.nested hrun)

theorem parseCompoundStmt_block (p p' : Parser) (lb rb : Token) (body r : List Token)
    (result : Option CompoundStmt) (hlb : lb.kind = .lBrace) (hrb : rb.kind = .rBrace)
    (hat : At p (lb :: (body ++ rb :: r))) (hbody : Nested body)
    (hrun : parseCompoundStmt (limit + 1) p = some (result, p')) :
    result.isSome = true ∧ Steps p (lb :: (body ++ [rb])) p' ∧
      Blames p (body ++ [rb]) p' := by
  rw [parseCompoundStmt, run_peek, ← hlb, run_expect hat] at hrun
  simp only [Bool.not_true, Bool.false_eq_true, if_false] at hrun
  obtain ⟨⟨localDecls, p₁⟩, hdecls, hrun⟩ := Option.bind_eq_some_iff.mp hrun
  obtain ⟨v, hleft⟩ := parseLocalDecls_left limit hat.skip_one hbody hrb hdecls
  obtain ⟨⟨stmts, p₂⟩, hstmts, hrun⟩ := Option.bind_eq_some_iff.mp hrun
  have hall := hleft.trans (ih.stmts _ _ _ _ _ _ _ hrb hleft.ahead hleft.nested hstmts)
  have hat₂ : At p₂ (rb :: r) := hall.ahead
  dsimp only at hrun
  rw [← hrb, run_expect hat₂] at hrun
  cases hrun
  obtain ⟨u, hu, hsteps⟩ := hall.steps
  rw [List.append_nil] at hu
  subst hu
  have hone := Steps.one hat.valid hat.ahead
  have hlast := Steps.one hat₂.valid hat₂.ahead
  exact ⟨rfl, hone.trans (hsteps.trans hlast), hall.blames⟩

end Block

theorem blockCalm (limit : Nat) : BlockCalm limit := by
  induction limit with
  | zero =>
      exact {
        statement := fun _ _ _ _ _ _ _ _ _ hrun => nomatch hrun
        block := fun _ _ _ _ _ _ _ _ _ _ hrun => nomatch hrun
        compound := fun _ _ _ _ _ _ _ _ _ _ _ hrun => nomatch hrun
        stmts := fun _ _ _ _ _ _ _ _ _ _ hrun => nomatch hrun
        selection := fun _ _ _ _ _ _ _ _ _ _ _ hrun => nomatch hrun
        iteration := fun _ _ _ _ _ _ _ _ _ _ _ hrun => nomatch hrun }
  | succ limit ih =>
      exact {
        statement := parseStatement_kept ih
        block := fun _ _ _ _ _ _ hrb hat hw hlb hrun =>
          (parseStatement_block ih hrb hat hw hlb hrun).1
        compound := parseCompoundStmt_block ih
        stmts := parseStmts_left ih
        selection := parseSelectionStmt_kept ih
        iteration := parseIterationStmt_kept ih }

/-! With a limit that is large enough the block is read, and read to its own brace. -/

theorem run_nestedBlock {limit : Nat} {p : Parser} {lb rb : Token} {body r : List Token}
    (hlb : lb.kind = .lBrace) (hrb : rb.kind = .rBrace) (hbody : Nested body)
    (hat : At p (lb :: (body ++ rb :: r))) (hlimit : 10 * p.ahead.length + 7 ≤ limit) :
    ∃ block p', parseCompoundStmt limit p = some (some block, p') ∧
      Steps p (lb :: (body ++ [rb])) p' ∧ Blames p (body ++ [rb]) p' := by
  obtain ⟨⟨result, p'⟩, hrun, -⟩ := (stmtSpecs limit).compound p hat.valid hlimit
  obtain ⟨hsome, hsteps, hblames⟩ :=
    (blockCalm limit).compound p p' lb rb body r result hlb hrb hat hbody hrun
  obtain ⟨block, rfl⟩ := Option.isSome_iff_exists.mp hsome
  exact ⟨block, p', hrun, hsteps, hblames⟩

theorem At.of_steps {p p' : Parser} {u r : List Token} (h : Steps p u p')
    (hat : At p (u ++ r)) : At p' r := by
  refine ⟨h.valid, ?_⟩
  have hahead := h.ahead
  rw [hat.ahead] at hahead
  exact (List.append_cancel_left hahead).symm

/-! A function header, rule 6 up to its body. -/

inductive FunHeader : List Token → String → CType → List ParamDecl → Prop
  | mk {type name lp rp : Token} {v : List Token} {t : CType} {params : List ParamDecl} :
      TypeSpecifier type.kind t → name.kind = .identifier → lp.kind = .lParen →
      Params v params → rp.kind = .rParen →
      FunHeader (type :: name :: lp :: (v ++ [rp])) name.lexeme t params

theorem funHeader_plain {w : List Token} {name : String} {t : CType}
    {params : List ParamDecl} (h : FunHeader w name t params) : Plain w := by
  cases h with
  | mk htype hname hlp hparams hrp =>
      simp [typeSpecifier_plain htype, hname, hlp, hrp, params_plain hparams]

theorem run_funHeader {limit : Nat} {p : Parser} {w body r : List Token} {lb rb : Token}
    {name : String} {t : CType} {params : List ParamDecl} (h : FunHeader w name t params)
    (hlb : lb.kind = .lBrace) (hrb : rb.kind = .rBrace) (hbody : Nested body)
    (hat : At p (w ++ lb :: (body ++ rb :: r))) (hlimit : 10 * p.ahead.length + 8 ≤ limit) :
    ∃ (f : FunDecl) (p' : Parser), parseDeclaration limit p = some (some (.fun f), p') ∧
      At p' r ∧ Blames p (body ++ [rb]) p' ∧
      f.name = name ∧ f.returnType = t ∧ f.params.map ParamDecl.bare = params := by
  cases h with
  | @mk type name lp rp v t params htype hname hlp hparams hrp =>
      have hat : At p (type :: name :: lp :: (v ++ rp :: (lb :: (body ++ rb :: r)))) := by
        simpa using hat
      have hlen := hat.length
      simp only [List.length_cons, List.length_append] at hlen
      have hid : ((p.skip 1).peekAt 0).kind = .identifier := by
        rw [hat.skip_one.peek, hname]
      have h₂ := hat.skip_one.skip_one
      have hparen : (((p.skip 1).skip 1).peekAt 0).kind = .lParen := by rw [h₂.peek, hlp]
      have h₃ := h₂.skip_one
      have hlen₃ := h₃.length
      simp only [List.length_cons, List.length_append] at hlen₃
      obtain ⟨ds, hds, hbare⟩ := run_params hparams h₃ hrp (show _ < limit by omega)
      have h₄ := h₃.skip
      have h₅ := h₄.skip_one
      have hlen₅ := h₅.length
      simp only [List.length_cons, List.length_append] at hlen₅
      have hbrace : ((((((p.skip 1).skip 1).skip 1).skip v.length).skip 1).peekAt
          0).kind = .lBrace := by rw [h₅.peek, hlb]
      obtain ⟨block, p', hblock, hsteps, hblames⟩ :=
        run_nestedBlock hlb hrb hbody h₅ (show _ ≤ limit by omega)
      refine ⟨{ loc := name.loc, name := name.lexeme, typeLoc := type.loc,
                returnType := t, params := ds, body := block }, p', ?_,
        .of_steps hsteps (by simpa using h₅), hblames, rfl, rfl, hbare⟩
      rw [parseDeclaration, run_bind (run_typeSpecifier hat htype)]
      simp only [run_check_of hid, Bool.not_true, Bool.false_eq_true, if_false,
        run_advance hat.skip_one, run_check_of hparen, if_true]
      refine run_bind (b := some _) ?_
      rw [finishFunDeclaration, ← hlp, run_expect h₂]
      simp only [Bool.not_true, Bool.false_eq_true, if_false]
      rw [run_bind hds, ← hrp]
      simp only [run_expect h₄, run_check_of hbrace, Bool.not_true, Bool.false_eq_true,
        if_false]
      rw [run_bind hblock]
      rfl

theorem run_brokenBody {p : Parser} {w₁ w w₂ body : List Token} {decls₁ decls₂ : List Decl}
    {lb rb : Token} {name : String} {t : CType} {params : List ParamDecl}
    (h₁ : Declared w₁ decls₁) (h : FunHeader w name t params) (h₂ : Declared w₂ decls₂)
    (hlb : lb.kind = .lBrace) (hrb : rb.kind = .rBrace) (hbody : Nested body)
    (hat : At p (w₁ ++ (w ++ lb :: (body ++ rb :: w₂)))) :
    ∃ program parser f, p.parseProgram = some (program, parser) ∧
      Blames p (body ++ [rb]) parser ∧
      program.bare.decls = decls₁ ++ [.fun f] ++ decls₂ ∧
      f.name = name ∧ f.returnType = t ∧ f.params = params := by
  have hlimit : 10 * p.ahead.length + 9 ≤ recursionLimit p.tokens := by
    have := p.ahead_length_le
    unfold recursionLimit
    omega
  have hmore : (p.peekAt 0).kind ≠ .endOfFile := by
    rw [ne_eq, ← ahead_eq_nil hat.valid, hat.ahead]
    simp
  -- the declarations before, the broken function, and the declarations after
  obtain ⟨m, ds, hrun₁, hbare₁, hm⟩ := run_declared h₁ _ p [] hat hlimit
  obtain ⟨m, rfl⟩ : ∃ k, m = k + 1 := ⟨m - 1, by omega⟩
  have hat₁ := hat.skip
  obtain ⟨f, p₂, hdecl, hat₂, hblames, hname, htype, hparams⟩ :=
    run_funHeader h hlb hrb hbody hat₁ (show _ ≤ m by omega)
  have hmore₁ : ((p.skip w₁.length).peekAt 0).kind ≠ .endOfFile := by
    rw [ne_eq, ← ahead_eq_nil hat₁.valid, hat₁.ahead]
    simp
  have hrun₂ : parseDecls (m + 1) ds (p.skip w₁.length) =
      parseDecls m (ds ++ [.fun f]) p₂ := by
    rw [parseDecls, run_atEnd, Token.is_eq_false.mpr hmore₁]
    simp only [Bool.false_eq_true, if_false, run_position]
    rw [run_bind hdecl]
  have hat₂' : At p₂ (w₂ ++ []) := by rwa [List.append_nil]
  obtain ⟨k, ds', hrun₃, hbare₂, hk⟩ := run_declared h₂ m p₂ (ds ++ [.fun f]) hat₂' (by
    have hlen := hat₁.length
    have hlen' := hat₂.length
    simp only [List.length_append, List.length_cons] at hlen
    omega)
  have hrun := hrun₁.trans (hrun₂.trans (hrun₃.trans
    (parseDecls_stop hat₂'.skip.kind (by omega))))
  refine ⟨{ decls := ds' }, _, f.bare, parseProgram_of_decls hmore hrun, hblames, ?_,
    hname, htype, hparams⟩
  change ds'.map Decl.bare = _
  rw [hbare₂, List.map_append, hbare₁]
  rfl

theorem rest_of_steps {p p' : Parser} {u r : List Token} (h : Steps p u p')
    (hrest : p.rest = u ++ r) : p'.rest = r := by
  have hdrop : p'.rest = p.rest.drop u.length := by
    simp [rest, h.tokens, h.pos, List.drop_drop]
  rw [hdrop, hrest, List.drop_left]

/-- The parser of the first part is any one in front of the block; that an `EndOfFile`
is ahead of it (`Valid`) is what the constructor sees to. -/
theorem parseProgram_brokenBody {lb rb : Token} {body : List Token}
    (hlb : lb.kind = .lBrace) (hrb : rb.kind = .rBrace) (hplain : Plain body)
    (hbody : Nested body) :
    (∀ (p : Parser) (rest : List Token) (limit : Nat), p.Valid →
      p.rest = lb :: (body ++ rb :: rest) → 10 * p.ahead.length + 7 ≤ limit →
      ∃ block p', parseCompoundStmt limit p = some (some block, p') ∧ p'.rest = rest) ∧
    ∀ (w₁ w w₂ : List Token) (decls₁ decls₂ : List Decl) (name : String) (t : CType)
      (params : List ParamDecl) (eof : Token) (diags : Diagnostics),
      Declared w₁ decls₁ → FunHeader w name t params → Declared w₂ decls₂ →
      eof.kind = .endOfFile →
      ∃ program parser f new,
        (Parser.make (w₁ ++ w ++ (lb :: (body ++ [rb])) ++ w₂ ++ [eof]) diags).parseProgram =
          some (program, parser) ∧
        program.bare.decls = decls₁ ++ [.fun f] ++ decls₂ ∧
        f.name = name ∧ f.returnType = t ∧ f.params = params ∧
        parser.diags = diags ++ new ∧
        ∀ d ∈ new, d.level = .error ∧ ∃ tok ∈ body ++ [rb], d.loc = tok.loc := by
  constructor
  · intro p rest limit hp hrest hlimit
    have hat : At p (lb :: (body ++ rb :: rest.takeWhile (fun tok => !tok.is .endOfFile))) := by
      refine ⟨hp, ?_⟩
      have hfront : ∀ tok ∈ lb :: (body ++ [rb]), (!tok.is .endOfFile) = true := by
        intro tok htok
        rw [Bool.not_eq_true', Token.is_eq_false]
        rcases List.mem_cons.mp htok with rfl | htok
        · simp [hlb]
        · rcases List.mem_append.mp htok with htok | htok
          · exact (hplain tok htok).1
          · simp [List.mem_singleton.mp htok, hrb]
      have hsplit : p.rest = (lb :: (body ++ [rb])) ++ rest := by simp [hrest]
      rw [ahead, hsplit, List.takeWhile_append_of_pos hfront]
      simp
    obtain ⟨block, p', hrun, hsteps, -⟩ := run_nestedBlock hlb hrb hbody hat hlimit
    exact ⟨block, p', hrun, rest_of_steps hsteps (by simp [hrest])⟩
  · intro w₁ w w₂ decls₁ decls₂ name t params eof diags h₁ h h₂ heof
    have hall : Plain (w₁ ++ w ++ (lb :: (body ++ [rb])) ++ w₂) := by
      simp [h₁.plain, funHeader_plain h, h₂.plain, hplain, hlb, hrb]
    obtain ⟨hat, hdiags⟩ := make_plain diags hall heof
    generalize Parser.make (w₁ ++ w ++ (lb :: (body ++ [rb])) ++ w₂ ++ [eof]) diags = p
      at hat hdiags
    have hat' : At p (w₁ ++ (w ++ lb :: (body ++ rb :: w₂))) := by simpa using hat
    obtain ⟨program, parser, f, hrun, hblames, hdecls, hname, htype, hparams⟩ :=
      run_brokenBody h₁ h h₂ hlb hrb hbody hat'
    obtain ⟨new, hnew, hin⟩ := hblames
    rw [hdiags] at hnew
    exact ⟨program, parser, f, new, hrun, hdecls, hname, htype, hparams, hnew, hin⟩

/-- `else { x } ;` -/
def strayElse : List Token :=
  [{ kind := .kwElse, loc := ⟨1, 2⟩ }, { kind := .lBrace, loc := ⟨1, 7⟩ },
    { kind := .identifier, lexeme := "x", loc := ⟨1, 9⟩ }, { kind := .rBrace, loc := ⟨1, 11⟩ },
    { kind := .semicolon, loc := ⟨1, 13⟩ }]

/-- In `int x; int f(int n) {` ... `} int y[2];`. -/
theorem parseProgram_brokenBody_strayElse :
    (∃ block p', parseCompoundStmt 107 (Parser.make ({ kind := .lBrace } ::
        (strayElse ++ { kind := .rBrace, loc := ⟨1, 15⟩ } ::
          [{ kind := .kwInt }, { kind := .endOfFile }])) []) = some (some block, p') ∧
      p'.rest = [{ kind := .kwInt }, { kind := .endOfFile }]) ∧
    ∃ program parser f new,
      (Parser.make ([{ kind := .kwInt }, { kind := .identifier, lexeme := "x" },
          { kind := .semicolon }] ++
        { kind := .kwInt } :: { kind := .identifier, lexeme := "f" } :: { kind := .lParen } ::
          ([{ kind := .kwInt }, { kind := .identifier, lexeme := "n" }] ++
            [{ kind := .rParen }]) ++
        ({ kind := .lBrace } :: (strayElse ++ [{ kind := .rBrace, loc := ⟨1, 15⟩ }])) ++
        [{ kind := .kwInt }, { kind := .identifier, lexeme := "y" }, { kind := .lBracket },
          { kind := .number, lexeme := "2", value := 2 }, { kind := .rBracket },
          { kind := .semicolon }] ++
        [{ kind := .endOfFile }]) []).parseProgram = some (program, parser) ∧
      program.bare.decls = [.var { name := "x", declaredType := .int }] ++ [.fun f] ++
        [.var { name := "y", declaredType := .int, isArray := true, arraySize := 2 }] ∧
      f.name = "f" ∧ f.returnType = .int ∧
      f.params = [{ name := "n", declaredType := .int }] ∧
      parser.diags = [] ++ new ∧
      ∀ d ∈ new, d.level = .error ∧
        ∃ tok ∈ strayElse ++ [{ kind := .rBrace, loc := ⟨1, 15⟩ }], d.loc = tok.loc := by
  have hnested : Nested strayElse := by
    apply Nested.token (by decide) (by decide)
    apply Nested.block rfl (.token (by decide) (by decide) .nil) rfl
    exact .token (by decide) (by decide) .nil
  have hplain : Plain strayElse := by simp [strayElse]
  obtain ⟨hblock, hprogram⟩ := @parseProgram_brokenBody { kind := .lBrace }
    { kind := .rBrace, loc := ⟨1, 15⟩ } strayElse rfl rfl hplain hnested
  constructor
  · exact hblock _ _ 107 ⟨{ kind := .endOfFile }, by decide, rfl⟩ rfl (by decide)
  · exact hprogram _ _ _ _ _ "f" .int _ _ [] ⟨.inr (.one (.var (.scalar .int rfl rfl))), by simp⟩
      (.mk .int rfl rfl (.list (.one (.scalar .int rfl))) rfl)
      ⟨.inr (.one (.var (.array .int rfl rfl rfl rfl rfl))), by simp⟩ rfl

end Parser

end CMinus
