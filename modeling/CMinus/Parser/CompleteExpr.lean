import CMinus.Parser.SoundExpr

namespace CMinus

namespace Parser

open Grammar

/-! The kind of the first of the remaining tokens, `endOfFile` when there is none. -/

def headKind : List Token → TokenKind
  | [] => .endOfFile
  | tok :: _ => tok.kind

@[simp] theorem headKind_cons (tok : Token) (toks : List Token) :
    headKind (tok :: toks) = tok.kind := rfl

theorem peek_kind {p : Parser} (hp : p.Valid) : (p.peekAt 0).kind = headKind p.ahead := by
  cases hahead : p.ahead with
  | nil => exact (ahead_eq_nil hp).mp hahead
  | cons tok toks => rw [(ahead_cons hahead).1, headKind_cons]

/-! A parser in front of known tokens. -/

structure At (p : Parser) (w : List Token) : Prop where
  valid : p.Valid
  ahead : p.ahead = w

theorem At.peek {p : Parser} {tok : Token} {w : List Token} (h : At p (tok :: w)) :
    p.peekAt 0 = tok := (ahead_cons h.ahead).1

theorem At.kind {p : Parser} {w : List Token} (h : At p w) :
    (p.peekAt 0).kind = headKind w := by
  rw [peek_kind h.valid, h.ahead]

theorem At.advanced {p : Parser} {tok : Token} {w : List Token} (h : At p (tok :: w)) :
    p.advanced = p.skip 1 := advanced_of_ahead h.ahead

theorem At.skip_one {p : Parser} {tok : Token} {w : List Token} (h : At p (tok :: w)) :
    At (p.skip 1) w :=
  ⟨h.valid.skip_one h.ahead, (ahead_cons h.ahead).2.2⟩

theorem At.previous {p : Parser} {tok : Token} {w : List Token} (h : At p (tok :: w)) :
    (p.skip 1).previousToken = tok := previousToken_skip_one h.ahead

theorem At.skip {p : Parser} {v w : List Token} (h : At p (v ++ w)) :
    At (p.skip v.length) w := by
  induction v generalizing p with
  | nil => exact h
  | cons tok v ih =>
      have hnext := ih (p := p.skip 1) h.skip_one
      rwa [skip_skip, Nat.add_comm] at hnext

theorem At.length {p : Parser} {w : List Token} (h : At p w) :
    p.ahead.length = w.length := by rw [h.ahead]

/-! Runs of the primitive actions. -/

section Runs

variable {α β : Type} {p : Parser}

theorem run_bind {action : ParserM β} {next : β → ParserM α} {b : β} {p' : Parser}
    (h : action p = some (b, p')) : (action >>= next) p = next b p' := by
  show (action p).bind _ = _
  rw [h]
  rfl

theorem run_peek {next : Token → ParserM α} :
    (peek >>= next) p = next (p.peekAt 0) p := rfl

theorem run_atEnd {next : Bool → ParserM α} :
    (atEnd >>= next) p = next ((p.peekAt 0).is .endOfFile) p := rfl

theorem run_position {next : Nat → ParserM α} : (position >>= next) p = next p.pos p := rfl

theorem run_check {kind : TokenKind} {next : Bool → ParserM α} :
    (check kind >>= next) p = next ((p.peekAt 0).is kind) p := rfl

theorem run_check_of {kind : TokenKind} (h : (p.peekAt 0).kind = kind)
    {next : Bool → ParserM α} : (check kind >>= next) p = next true p := by
  rw [run_check, Token.is_eq_true.mpr h]

theorem run_check_ne {kind : TokenKind} (h : (p.peekAt 0).kind ≠ kind)
    {next : Bool → ParserM α} : (check kind >>= next) p = next false p := by
  rw [run_check, Token.is_eq_false.mpr h]

theorem run_advance {tok : Token} {w : List Token} (h : At p (tok :: w))
    {next : Token → ParserM α} : (advance >>= next) p = next tok (p.skip 1) := by
  show next p.advanced.previousToken p.advanced = _
  rw [h.advanced, h.previous]

theorem run_match {tok : Token} {w : List Token} (h : At p (tok :: w))
    {next : Bool → ParserM α} :
    («match» tok.kind >>= next) p = next true (p.skip 1) := by
  refine run_bind ?_
  simp only [«match», run_check, h.peek, Token.is, decide_true, if_true, run_advance h]
  rfl

theorem run_match_ne {kind : TokenKind} (h : (p.peekAt 0).kind ≠ kind)
    {next : Bool → ParserM α} : («match» kind >>= next) p = next false p := by
  refine run_bind ?_
  simp only [«match», run_check, Token.is, h, decide_false, Bool.false_eq_true, if_false]
  rfl

theorem run_expect {tok : Token} {w : List Token} {context : String}
    (h : At p (tok :: w)) {next : Bool → ParserM α} :
    (expect tok.kind context >>= next) p = next true (p.skip 1) := by
  refine run_bind ?_
  simp only [expect, run_check, h.peek, Token.is, decide_true, if_true, run_advance h]
  rfl

end Runs

/-! The first token of an expression. -/

def startsExpression : TokenKind → Bool
  | .identifier | .number | .lParen => true
  | _ => false

def StartsExpression (w : List Token) : Prop := startsExpression (headKind w) = true

theorem StartsExpression.append {v w : List Token} (h : StartsExpression v) :
    StartsExpression (v ++ w) := by
  cases v with
  | nil => cases h
  | cons tok v => exact h

theorem expression_starts {w : List Token} {e : Expr} (h : Expression w e) :
    StartsExpression w := by
  refine @Expression.rec (fun w _ _ => StartsExpression w)
    (fun w _ _ _ => StartsExpression w) (fun w _ _ => StartsExpression w)
    (fun w _ _ => StartsExpression w) (fun w _ _ => StartsExpression w)
    (fun w _ _ => StartsExpression w) (fun w _ _ => StartsExpression w)
    (fun _ _ _ => True) (fun w _ _ => StartsExpression w)
    ?_ ?_ ?_ ?_ ?_ ?_ ?_ ?_ ?_ ?_ ?_ ?_ ?_ ?_ ?_ ?_ ?_ ?_ ?_ w e h
  all_goals intros
  all_goals first
    | assumption
    | trivial
    | exact StartsExpression.append ‹_›
    | simp_all [StartsExpression, startsExpression]

/-! What may follow an expression, a simple expression and a term.  The parser would
take more if the next token were an operator, a subscript or an argument list. -/

def endsFactor : TokenKind → Bool
  | .lParen | .lBracket => false
  | _ => true

def endsTerm (kind : TokenKind) : Bool := endsFactor kind && !kind.isMulop

def endsAdditive (kind : TokenKind) : Bool := endsTerm kind && !kind.isAddop

def endsSimple (kind : TokenKind) : Bool := endsAdditive kind && !kind.isRelop

def endsExpression (kind : TokenKind) : Bool :=
  endsSimple kind && decide (kind ≠ .assign)

theorem parseMulops_stop {limit : Nat} {p : Parser} {e : Expr}
    (hkind : (p.peekAt 0).kind.isMulop = false) (hlimit : 1 ≤ limit) :
    parseMulops limit e p = some (some e, p) := by
  cases limit with
  | zero => omega
  | succ limit =>
      rw [parseMulops, run_peek]
      simp only [hkind, Bool.not_false, if_true]
      rfl

theorem parseAddops_stop {limit : Nat} {p : Parser} {e : Expr}
    (hkind : (p.peekAt 0).kind.isAddop = false) (hlimit : 1 ≤ limit) :
    parseAddops limit e p = some (some e, p) := by
  cases limit with
  | zero => omega
  | succ limit =>
      rw [parseAddops, run_peek]
      simp only [hkind, Bool.not_false, if_true]
      rfl

/-! `Reads f p w t`: in front of `w` the parsing function returns a tree that is `t`
up to locations, and stands behind `w` with nothing recorded. -/

def Reads (f : Nat → ParserM (Option Expr)) (limit : Nat) (p : Parser) (w : List Token)
    (t : Expr) : Prop :=
  ∃ e, f limit p = some (some e, p.skip w.length) ∧ e.bare = t

/-! `ReadsInto f loop p w t`: having read `w` the function is in its loop. -/

def ReadsInto (f : Nat → ParserM (Option Expr))
    (loop : Nat → Expr → ParserM (Option Expr)) (limit : Nat) (p : Parser)
    (w : List Token) (t : Expr) : Prop :=
  ∃ m e, f limit p = loop m e (p.skip w.length) ∧ e.bare = t ∧
    10 * (p.skip w.length).ahead.length + 1 ≤ m

theorem ReadsInto.stop_mulops {limit : Nat} {p : Parser} {w : List Token} {t : Expr}
    (h : ReadsInto parseTerm parseMulops limit p w t)
    (hkind : ((p.skip w.length).peekAt 0).kind.isMulop = false) :
    Reads parseTerm limit p w t := by
  obtain ⟨m, e, hrun, hbare, hm⟩ := h
  exact ⟨e, by rw [hrun, parseMulops_stop hkind (by omega)], hbare⟩

theorem ReadsInto.stop_addops {limit : Nat} {p : Parser} {w : List Token} {t : Expr}
    (h : ReadsInto parseAdditiveExpression parseAddops limit p w t)
    (hkind : ((p.skip w.length).peekAt 0).kind.isAddop = false) :
    Reads parseAdditiveExpression limit p w t := by
  obtain ⟨m, e, hrun, hbare, hm⟩ := h
  exact ⟨e, by rw [hrun, parseAddops_stop hkind (by omega)], hbare⟩

theorem readsTerm_of_factor {limit : Nat} {p : Parser} {w r : List Token} {t : Expr}
    (hat : At p (w ++ r)) (hne : w ≠ []) (hlimit : 10 * p.ahead.length + 2 ≤ limit + 1)
    (h : Reads parseFactor limit p w t) :
    ReadsInto parseTerm parseMulops (limit + 1) p w t := by
  obtain ⟨e, hrun, hbare⟩ := h
  refine ⟨limit, e, ?_, hbare, ?_⟩
  · rw [parseTerm, run_bind hrun]
  · have hlen := hat.length
    have hlen' := hat.skip.length
    have hpos := List.length_pos_iff.mpr hne
    rw [List.length_append] at hlen
    omega

theorem readsAdditive_of_term {limit : Nat} {p : Parser} {w r : List Token} {t : Expr}
    (hat : At p (w ++ r)) (hne : w ≠ []) (hlimit : 10 * p.ahead.length + 3 ≤ limit + 1)
    (h : Reads parseTerm limit p w t) :
    ReadsInto parseAdditiveExpression parseAddops (limit + 1) p w t := by
  obtain ⟨e, hrun, hbare⟩ := h
  refine ⟨limit, e, ?_, hbare, ?_⟩
  · rw [parseAdditiveExpression, run_bind hrun]
  · have hlen := hat.length
    have hlen' := hat.skip.length
    have hpos := List.length_pos_iff.mpr hne
    rw [List.length_append] at hlen
    omega

theorem readsSimple_of_additive {limit : Nat} {p : Parser} {w : List Token} {t : Expr}
    (hkind : ((p.skip w.length).peekAt 0).kind.isRelop = false)
    (h : Reads parseAdditiveExpression limit p w t) :
    Reads parseSimpleExpression (limit + 1) p w t := by
  obtain ⟨e, hrun, hbare⟩ := h
  refine ⟨e, ?_, hbare⟩
  rw [parseSimpleExpression, run_bind hrun]
  simp only [run_peek, hkind, Bool.not_false, if_true]
  rfl

/-! The way up from a factor when no operator follows. -/

theorem readsSimple_of_factor {limit : Nat} {p : Parser} {w r : List Token} {t : Expr}
    (hat : At p (w ++ r)) (hne : w ≠ []) (hend : endsSimple (headKind r) = true)
    (hlimit : 10 * p.ahead.length + 1 ≤ limit) (h : Reads parseFactor limit p w t) :
    Reads parseSimpleExpression (limit + 3) p w t := by
  have hkind := hat.skip.kind
  simp only [endsSimple, endsAdditive, endsTerm, Bool.and_eq_true, Bool.not_eq_true',
    ← hkind] at hend
  obtain ⟨⟨⟨-, hmul⟩, hadd⟩, hrel⟩ := hend
  have hterm := (readsTerm_of_factor hat hne (by omega) h).stop_mulops hmul
  have hadditive := (readsAdditive_of_term hat hne (by omega) hterm).stop_addops hadd
  exact readsSimple_of_additive hrel hadditive

/-! What the parser does in front of a derivation, one statement for each
nonterminal. -/

def FactorRead (w : List Token) (t : Expr) : Prop :=
  ∀ (limit : Nat) (p : Parser) (r : List Token), At p (w ++ r) →
    endsFactor (headKind r) = true → 10 * p.ahead.length + 1 ≤ limit →
    Reads parseFactor limit p w t

def TermRead (w : List Token) (t : Expr) : Prop :=
  ∀ (limit : Nat) (p : Parser) (r : List Token), At p (w ++ r) →
    endsFactor (headKind r) = true → 10 * p.ahead.length + 2 ≤ limit →
    ReadsInto parseTerm parseMulops limit p w t

def AdditiveRead (w : List Token) (t : Expr) : Prop :=
  ∀ (limit : Nat) (p : Parser) (r : List Token), At p (w ++ r) →
    endsTerm (headKind r) = true → 10 * p.ahead.length + 3 ≤ limit →
    ReadsInto parseAdditiveExpression parseAddops limit p w t

def SimpleRead (w : List Token) (t : Expr) : Prop :=
  ∀ (limit : Nat) (p : Parser) (r : List Token), At p (w ++ r) →
    endsSimple (headKind r) = true → 10 * p.ahead.length + 4 ≤ limit →
    Reads parseSimpleExpression limit p w t

def ExpressionRead (w : List Token) (t : Expr) : Prop :=
  ∀ (limit : Nat) (p : Parser) (r : List Token), At p (w ++ r) →
    endsExpression (headKind r) = true → 10 * p.ahead.length + 5 ≤ limit →
    Reads parseExpression limit p w t

def VarRead (w : List Token) (head : VarHead) (index : Option Expr) : Prop :=
  w ≠ [] ∧ head.info = {} ∧ FactorRead w (.var head index)

def ArgsRead (w : List Token) (ts : List Expr) : Prop :=
  ∀ (limit : Nat) (p : Parser) (r : List Token), At p (w ++ r) →
    headKind r = .rParen → 10 * p.ahead.length + 7 ≤ limit →
    ∃ args, parseArgs limit p = some (some args, p.skip w.length) ∧
      args.map Expr.bare = ts

/-! The end of a round of the loop of `parseArgs`. -/

def argsTail (limit : Nat) (args : List Expr) : ParserM (Option (List Expr)) := do
  if !(← «match» .comma) then return some args
  parseArgsFrom limit args

def ArgListRead (w : List Token) (ts : List Expr) : Prop :=
  StartsExpression w ∧
  ∀ (limit : Nat) (p : Parser) (r : List Token) (acc : List Expr), At p (w ++ r) →
    endsExpression (headKind r) = true → 10 * p.ahead.length + 6 ≤ limit →
    ∃ m args, parseArgsFrom limit acc p = argsTail m args (p.skip w.length) ∧
      args.map Expr.bare = acc.map Expr.bare ++ ts ∧
      10 * (p.skip w.length).ahead.length + 6 ≤ m

theorem starts_ne_nil {w : List Token} (h : StartsExpression w) : w ≠ [] := by
  rintro rfl
  cases h

theorem At.front {p : Parser} {v w r : List Token} (h : At p ((v ++ w) ++ r)) :
    At p (v ++ (w ++ r)) := by rwa [List.append_assoc] at h

theorem At.front_cons {p : Parser} {v w r : List Token} {tok : Token}
    (h : At p ((v ++ tok :: w) ++ r)) : At p (v ++ tok :: (w ++ r)) := by
  rwa [List.append_assoc, List.cons_append] at h

theorem skip_append (p : Parser) (v w : List Token) :
    (p.skip v.length).skip w.length = p.skip (v ++ w).length := by
  rw [skip_skip, List.length_append]

/-! An operator and its right operand, behind what `p` has read. -/

theorem skip_cons (p : Parser) (v w : List Token) (tok : Token) :
    ((p.skip v.length).skip 1).skip w.length = p.skip (v ++ tok :: w).length := by
  simp [Nat.add_assoc, Nat.add_comm 1]

theorem ends_of_mulop {tok : Token} {op : BinaryOp} (h : Mulop tok.kind op) :
    endsFactor tok.kind = true ∧ tok.kind.isMulop = true ∧
      (if tok.is .star then BinaryOp.mul else BinaryOp.div) = op := by
  cases hk : tok.kind <;> rw [hk] at h <;> cases h <;> simp [hk, Token.is] <;> decide

theorem ends_of_addop {tok : Token} {op : BinaryOp} (h : Addop tok.kind op) :
    endsTerm tok.kind = true ∧ tok.kind.isAddop = true ∧
      (if tok.is .plus then BinaryOp.add else BinaryOp.sub) = op := by
  cases hk : tok.kind <;> rw [hk] at h <;> cases h <;> simp [hk, Token.is] <;> decide

theorem ends_of_relop {tok : Token} {op : BinaryOp} (h : Relop tok.kind op) :
    endsAdditive tok.kind = true ∧ tok.kind.isRelop = true ∧
      relopFor tok.kind = op := by
  cases hk : tok.kind <;> rw [hk] at h <;> cases h <;> decide

theorem termRead_fold {v w : List Token} {tok : Token} {op : BinaryOp}
    {lhs rhs : Expr} (hop : Mulop tok.kind op) (hlhs : TermRead v lhs)
    (hw : w ≠ []) (hrhs : FactorRead w rhs) :
    TermRead (v ++ tok :: w) (.binary {} op {} lhs rhs) := by
  intro limit p r hat hend hlimit
  obtain ⟨hends, hmul, hopfor⟩ := ends_of_mulop hop
  have hat := hat.front_cons
  obtain ⟨m, node, hrun, hbare, hm⟩ := hlhs limit p _ hat hends hlimit
  have hop' := hat.skip
  have hlen := hop'.length
  have hlen' := hop'.skip_one.length
  rw [List.length_cons] at hlen
  obtain ⟨m, rfl⟩ : ∃ m', m = m' + 1 := ⟨m - 1, by omega⟩
  obtain ⟨e, hfactor, hrbare⟩ :=
    hrhs m _ r hop'.skip_one hend (by omega)
  refine ⟨m, .binary { loc := node.loc } (if tok.is .star then .mul else .div) tok.loc
    node e, ?_, ?_, ?_⟩
  · rw [hrun, parseMulops, run_peek, hop'.peek]
    simp only [hmul, Bool.not_true, Bool.false_eq_true, if_false, run_advance hop']
    rw [run_bind hfactor, skip_cons]
  · rw [Expr.bare, hbare, hrbare, hopfor]
    rfl
  · have hlast := hop'.skip_one.skip.length
    have hpos := List.length_pos_iff.mpr hw
    rw [skip_cons p v w tok] at hlast
    rw [List.length_append] at hlen
    omega

theorem additiveRead_fold {v w : List Token} {tok : Token} {op : BinaryOp}
    {lhs rhs : Expr} (hop : Addop tok.kind op) (hlhs : AdditiveRead v lhs)
    (hw : w ≠ []) (hrhs : TermRead w rhs) :
    AdditiveRead (v ++ tok :: w) (.binary {} op {} lhs rhs) := by
  intro limit p r hat hend hlimit
  obtain ⟨hends, hadd, hopfor⟩ := ends_of_addop hop
  have hat := hat.front_cons
  obtain ⟨m, node, hrun, hbare, hm⟩ := hlhs limit p _ hat hends hlimit
  have hop' := hat.skip
  have hlen := hop'.length
  have hlen' := hop'.skip_one.length
  rw [List.length_cons] at hlen
  obtain ⟨m, rfl⟩ : ∃ m', m = m' + 1 := ⟨m - 1, by omega⟩
  simp only [endsTerm, Bool.and_eq_true, Bool.not_eq_true'] at hend
  obtain ⟨e, hterm, hrbare⟩ :=
    (hrhs m _ r hop'.skip_one hend.1 (by omega)).stop_mulops
      (by rw [hop'.skip_one.skip.kind, hend.2])
  refine ⟨m, .binary { loc := node.loc } (if tok.is .plus then .add else .sub) tok.loc
    node e, ?_, ?_, ?_⟩
  · rw [hrun, parseAddops, run_peek, hop'.peek]
    simp only [hadd, Bool.not_true, Bool.false_eq_true, if_false, run_advance hop']
    rw [run_bind hterm, skip_cons]
  · rw [Expr.bare, hbare, hrbare, hopfor]
    rfl
  · have hlast := hop'.skip_one.skip.length
    have hpos := List.length_pos_iff.mpr hw
    rw [skip_cons p v w tok] at hlast
    rw [List.length_append] at hlen
    omega

theorem AdditiveRead.reads {w : List Token} {t : Expr} (h : AdditiveRead w t)
    {limit : Nat} {p : Parser} {r : List Token} (hat : At p (w ++ r))
    (hend : endsAdditive (headKind r) = true)
    (hlimit : 10 * p.ahead.length + 3 ≤ limit) :
    Reads parseAdditiveExpression limit p w t := by
  simp only [endsAdditive, Bool.and_eq_true, Bool.not_eq_true'] at hend
  exact (h limit p r hat hend.1 hlimit).stop_addops (by rw [hat.skip.kind, hend.2])

theorem simpleRead_compare {v w : List Token} {tok : Token} {op : BinaryOp}
    {lhs rhs : Expr} (hop : Relop tok.kind op) (hlhs : AdditiveRead v lhs)
    (hrhs : AdditiveRead w rhs) :
    SimpleRead (v ++ tok :: w) (.binary {} op {} lhs rhs) := by
  intro limit p r hat hend hlimit
  obtain ⟨hends, hrel, hopfor⟩ := ends_of_relop hop
  have hat := hat.front_cons
  obtain ⟨limit, rfl⟩ : ∃ m, limit = m + 1 := ⟨limit - 1, by omega⟩
  obtain ⟨l, hl, hlbare⟩ := hlhs.reads hat hends (show _ ≤ limit by omega)
  have hop' := hat.skip
  have hlen := hat.length
  have hlen' := hop'.skip_one.length
  rw [List.length_append, List.length_cons] at hlen
  simp only [endsSimple, Bool.and_eq_true, Bool.not_eq_true'] at hend
  obtain ⟨e, hr, hrbare⟩ :=
    hrhs.reads hop'.skip_one hend.1 (show _ ≤ limit by omega)
  have hlast := hop'.skip_one.skip.kind
  refine ⟨.binary { loc := l.loc } (relopFor tok.kind) tok.loc l e, ?_, ?_⟩
  · rw [← skip_cons p v w tok, parseSimpleExpression, run_bind hl]
    simp only [run_peek, hop'.peek, hrel, Bool.not_true, Bool.false_eq_true, if_false, run_advance hop']
    rw [run_bind hr]
    simp only [run_peek, hlast, hend.2, Bool.false_eq_true, if_false]
    rfl
  · rw [Expr.bare, hlbare, hrbare, hopfor]
    rfl

theorem simpleRead_additive {w : List Token} {t : Expr} (h : AdditiveRead w t) :
    SimpleRead w t := by
  intro limit p r hat hend hlimit
  obtain ⟨limit, rfl⟩ : ∃ m, limit = m + 1 := ⟨limit - 1, by omega⟩
  simp only [endsSimple, Bool.and_eq_true, Bool.not_eq_true'] at hend
  refine readsSimple_of_additive (by rw [hat.skip.kind, hend.2]) ?_
  exact h.reads hat hend.1 (by omega)

theorem expressionRead_simple {w : List Token} {t : Expr} (h : SimpleRead w t) :
    ExpressionRead w t := by
  intro limit p r hat hend hlimit
  obtain ⟨limit, rfl⟩ : ∃ m, limit = m + 1 := ⟨limit - 1, by omega⟩
  simp only [endsExpression, Bool.and_eq_true, decide_eq_true_eq] at hend
  obtain ⟨e, hrun, hbare⟩ := h limit p r hat hend.1 (by omega)
  refine ⟨e, ?_, hbare⟩
  rw [parseExpression, run_bind hrun]
  simp only [run_check, Token.is, hat.skip.kind, hend.2, decide_false, Bool.not_false,
    if_true]
  rfl

theorem expressionRead_assign {v w : List Token} {eq : Token} {target : VarHead}
    {index : Option Expr} {value : Expr} (heq : eq.kind = .assign)
    (htarget : VarRead v target index) (hvalue : ExpressionRead w value) :
    ExpressionRead (v ++ eq :: w) (.assign {} {} target index value) := by
  intro limit p r hat hend hlimit
  have hat := hat.front_cons
  obtain ⟨hne, hinfo, hfactor⟩ := htarget
  have hlen := hat.length
  have hpos := List.length_pos_iff.mpr hne
  rw [List.length_append, List.length_cons] at hlen
  obtain ⟨limit, rfl⟩ : ∃ m, limit = m + 4 := ⟨limit - 4, by omega⟩
  obtain ⟨lhs, hl, hlbare⟩ := readsSimple_of_factor hat hne
    (by rw [headKind_cons, heq]; decide) (show _ ≤ limit by omega)
    (hfactor limit p _ hat (by rw [headKind_cons, heq]; rfl) (by omega))
  have hop' := hat.skip
  have hlen' := hop'.skip_one.length
  obtain ⟨e, hr, hrbare⟩ := hvalue (limit + 3) _ r hop'.skip_one hend (by omega)
  obtain ⟨head, index', rfl⟩ : ∃ head index', lhs = .var head index' := by
    cases lhs with
    | var head index' => exact ⟨head, index', rfl⟩
    | assign _ _ _ index' _ => cases index' <;> simp [Expr.bare] at hlbare
    | _ => simp [Expr.bare] at hlbare
  rw [bare_var, Expr.var.injEq] at hlbare
  obtain ⟨rfl, rfl⟩ := hlbare
  have hparen : head.info.parenthesized = false := by
    have := congrArg ExprInfo.parenthesized hinfo
    exact this
  refine ⟨.assign { loc := head.info.loc } eq.loc head index' e, ?_, ?_⟩
  · rw [← skip_cons p v w eq, parseExpression, run_bind hl]
    simp only [run_check, Token.is, hop'.peek, heq, decide_true, Bool.not_true,
      Bool.false_eq_true, if_false, run_advance hop']
    rw [run_bind hr]
    simp only [hparen, Bool.false_eq_true, if_false]
    rfl
  · rw [bare_assign, hrbare]
    rfl

/-! Factors. -/

theorem skip_enclosed (p : Parser) (w : List Token) (lp rp : Token) :
    ((p.skip 1).skip w.length).skip 1 = p.skip (lp :: (w ++ [rp])).length := by
  simp [Nat.add_comm 1, Nat.add_assoc]

theorem skip_applied (p : Parser) (w : List Token) (name lp rp : Token) :
    (((p.skip 1).skip 1).skip w.length).skip 1 =
      p.skip (name :: lp :: (w ++ [rp])).length := by
  rw [skip_enclosed (p.skip 1) w lp rp, skip_skip, Nat.add_comm]
  rfl

theorem factorRead_num {tok : Token} (hkind : tok.kind = .number) :
    FactorRead [tok] (.num {} tok.value) := by
  intro limit p r hat hend hlimit
  obtain ⟨limit, rfl⟩ : ∃ m, limit = m + 1 := ⟨limit - 1, by omega⟩
  refine ⟨.num { loc := tok.loc } tok.value, ?_, rfl⟩
  rw [parseFactor, run_peek, hat.peek]
  simp only [hkind, run_advance hat]
  rfl

theorem factorRead_paren {lp rp : Token} {w : List Token} {t : Expr}
    (hlp : lp.kind = .lParen) (h : ExpressionRead w t) (hrp : rp.kind = .rParen) :
    FactorRead (lp :: (w ++ [rp])) t.parenthesize := by
  intro limit p r hat hend hlimit
  have hat : At p (lp :: (w ++ rp :: r)) := by simpa using hat
  have hlen := hat.length
  have hlen' := hat.skip_one.length
  rw [List.length_cons] at hlen
  obtain ⟨limit, rfl⟩ : ∃ m, limit = m + 1 := ⟨limit - 1, by omega⟩
  obtain ⟨e, hrun, hbare⟩ := h limit _ _ hat.skip_one
    (by rw [headKind_cons, hrp]; rfl) (by omega)
  have hclose := hat.skip_one.skip
  refine ⟨e.parenthesize, ?_, by rw [bare_parenthesize, hbare]⟩
  rw [← skip_enclosed p w lp rp, parseFactor, run_peek, hat.peek]
  simp only [hlp, run_advance hat]
  rw [run_bind hrun]
  simp only [← hrp, run_expect hclose, Bool.not_true, Bool.false_eq_true, if_false]
  rfl

theorem varRead_scalar {name : Token} (hname : name.kind = .identifier) :
    VarRead [name] { name := name.lexeme } none := by
  refine ⟨by simp, rfl, ?_⟩
  intro limit p r hat hend hlimit
  obtain ⟨limit, rfl⟩ : ∃ m, limit = m + 1 := ⟨limit - 1, by omega⟩
  have hkind := hat.skip.kind
  have hnotParen : ((p.skip 1).peekAt 0).kind ≠ .lParen := by
    intro h
    rw [← hkind, List.length_singleton, h] at hend
    cases hend
  have hnotBracket : ((p.skip 1).peekAt 0).kind ≠ .lBracket := by
    intro h
    rw [← hkind, List.length_singleton, h] at hend
    cases hend
  refine ⟨.var { info := { loc := name.loc }, name := name.lexeme } none, ?_, rfl⟩
  rw [parseFactor, run_peek, hat.peek]
  simp only [hname, run_advance hat, run_match_ne hnotParen, run_match_ne hnotBracket,
    Bool.false_eq_true, if_false]
  rfl

theorem varRead_element {name lb rb : Token} {w : List Token} {t : Expr}
    (hname : name.kind = .identifier) (hlb : lb.kind = .lBracket)
    (h : ExpressionRead w t) (hrb : rb.kind = .rBracket) :
    VarRead (name :: lb :: (w ++ [rb])) { name := name.lexeme } (some t) := by
  refine ⟨by simp, rfl, ?_⟩
  intro limit p r hat hend hlimit
  have hat : At p (name :: lb :: (w ++ rb :: r)) := by simpa using hat
  have hlen := hat.length
  have hlen' := hat.skip_one.skip_one.length
  simp only [List.length_cons] at hlen
  obtain ⟨limit, rfl⟩ : ∃ m, limit = m + 1 := ⟨limit - 1, by omega⟩
  obtain ⟨e, hrun, hbare⟩ := h limit _ _ hat.skip_one.skip_one
    (by rw [headKind_cons, hrb]; rfl) (by omega)
  have hclose := hat.skip_one.skip_one.skip
  have hnotParen : ((p.skip 1).peekAt 0).kind ≠ .lParen := by
    rw [hat.skip_one.kind, headKind_cons, hlb]
    decide
  refine ⟨.var { info := { loc := name.loc }, name := name.lexeme } (some e), ?_, ?_⟩
  · rw [← skip_applied p w name lb rb, parseFactor, run_peek, hat.peek]
    simp only [hname, run_advance hat, run_match_ne hnotParen, Bool.false_eq_true,
      if_false, ← hlb, run_match hat.skip_one, if_true]
    rw [run_bind hrun]
    simp only [← hrb, run_expect hclose, Bool.not_true, Bool.false_eq_true, if_false]
    rfl
  · rw [Expr.bare, hbare]
    rfl

theorem factorRead_call {name lp rp : Token} {w : List Token} {ts : List Expr}
    (hname : name.kind = .identifier) (hlp : lp.kind = .lParen) (h : ArgsRead w ts)
    (hrp : rp.kind = .rParen) :
    FactorRead (name :: lp :: (w ++ [rp])) (.call {} name.lexeme ts none) := by
  intro limit p r hat hend hlimit
  have hat : At p (name :: lp :: (w ++ rp :: r)) := by simpa using hat
  have hlen := hat.length
  have hlen' := hat.skip_one.skip_one.length
  simp only [List.length_cons] at hlen
  obtain ⟨limit, rfl⟩ : ∃ m, limit = m + 1 := ⟨limit - 1, by omega⟩
  obtain ⟨args, hrun, hbare⟩ := h limit _ _ hat.skip_one.skip_one
    (by rw [headKind_cons, hrp]) (by omega)
  have hclose := hat.skip_one.skip_one.skip
  refine ⟨.call { loc := name.loc } name.lexeme args none, ?_, ?_⟩
  · rw [← skip_applied p w name lp rp, parseFactor, run_peek, hat.peek]
    simp only [hname, run_advance hat, ← hlp, run_match hat.skip_one, if_true]
    rw [run_bind hrun]
    simp only [← hrp, run_expect hclose, Bool.not_true, Bool.false_eq_true, if_false]
    rfl
  · rw [Expr.bare, bareArgs_eq_map, hbare]
    rfl

/-! Arguments. -/

theorem argsRead_empty : ArgsRead [] [] := by
  intro limit p r hat hend hlimit
  obtain ⟨limit, rfl⟩ : ∃ m, limit = m + 1 := ⟨limit - 1, by omega⟩
  refine ⟨[], ?_, rfl⟩
  have hkind : (p.peekAt 0).kind = .rParen := hat.kind.trans hend
  rw [parseArgs, run_check]
  simp only [Token.is, hkind, decide_true, if_true]
  rfl

theorem argsRead_list {w : List Token} {ts : List Expr} (h : ArgListRead w ts) :
    ArgsRead w ts := by
  intro limit p r hat hend hlimit
  obtain ⟨hstart, h⟩ := h
  obtain ⟨limit, rfl⟩ : ∃ m, limit = m + 1 := ⟨limit - 1, by omega⟩
  obtain ⟨m, args, hrun, hbare, hm⟩ :=
    h limit p r [] hat (by rw [hend]; rfl) (by omega)
  refine ⟨args, ?_, by simpa using hbare⟩
  have hkind : (p.peekAt 0).kind ≠ .rParen := by
    have hstart := hstart.append (w := r)
    rw [StartsExpression, ← hat.kind] at hstart
    intro h
    rw [h] at hstart
    cases hstart
  have hend : ((p.skip w.length).peekAt 0).kind ≠ .comma := by
    rw [hat.skip.kind, hend]
    decide
  rw [parseArgs, run_check]
  simp only [Token.is, hkind, decide_false, Bool.false_eq_true, if_false]
  rw [hrun, argsTail, run_match_ne hend]
  rfl

theorem argListRead_one {w : List Token} {t : Expr} (hstart : StartsExpression w)
    (h : ExpressionRead w t) : ArgListRead w [t] := by
  refine ⟨hstart, ?_⟩
  intro limit p r acc hat hend hlimit
  obtain ⟨limit, rfl⟩ : ∃ m, limit = m + 1 := ⟨limit - 1, by omega⟩
  obtain ⟨e, hrun, hbare⟩ := h limit p r hat hend (by omega)
  have hlen := hat.length
  have hlen' := hat.skip.length
  have hpos := List.length_pos_iff.mpr (starts_ne_nil hstart)
  rw [List.length_append] at hlen
  refine ⟨limit, acc ++ [e], ?_, by simp [hbare], by omega⟩
  rw [parseArgsFrom, run_bind hrun]
  rfl

theorem argListRead_snoc {v w : List Token} {comma : Token} {ts : List Expr} {t : Expr}
    (hlist : ArgListRead v ts) (hcomma : comma.kind = .comma)
    (hstart : StartsExpression w) (h : ExpressionRead w t) :
    ArgListRead (v ++ comma :: w) (ts ++ [t]) := by
  refine ⟨hlist.1.append, ?_⟩
  intro limit p r acc hat hend hlimit
  have hat := hat.front_cons
  obtain ⟨m, args, hrun, hbare, hm⟩ := hlist.2 limit p _ acc hat
    (by rw [headKind_cons, hcomma]; rfl) hlimit
  have hop := hat.skip
  have hlen := hop.length
  have hlen' := hop.skip_one.length
  rw [List.length_cons] at hlen
  obtain ⟨m', args', hrun', hbare', hm'⟩ :=
    (argListRead_one hstart h).2 m _ r args hop.skip_one hend (by omega)
  refine ⟨m', args', ?_, by rw [hbare', hbare, List.append_assoc], ?_⟩
  · rw [hrun, argsTail, ← hcomma, run_match hop]
    simp only [Bool.not_true, Bool.false_eq_true, if_false]
    rw [hrun', skip_cons]
  · rwa [skip_cons p v w comma] at hm'

/-! Every expression the grammar derives is read back. -/

theorem expression_read {w : List Token} {t : Expr} (h : Expression w t) :
    ExpressionRead w t := by
  refine @Expression.rec (fun w t _ => ExpressionRead w t)
    (fun w head index _ => VarRead w head index) (fun w t _ => SimpleRead w t)
    (fun w t _ => w ≠ [] ∧ AdditiveRead w t) (fun w t _ => w ≠ [] ∧ TermRead w t)
    (fun w t _ => w ≠ [] ∧ FactorRead w t) (fun w t _ => w ≠ [] ∧ FactorRead w t)
    (fun w ts _ => ArgsRead w ts) (fun w ts _ => ArgListRead w ts)
    ?assign ?simple ?scalar ?element ?compare ?additive ?addops ?term ?mulops ?factor
    ?paren ?var ?call ?num ?mk ?list ?empty ?snoc ?one w t h
  case assign =>
    intro v w eq target index value _ heq _ htarget hvalue
    exact expressionRead_assign heq htarget hvalue
  case simple => exact fun _ h => expressionRead_simple h
  case scalar => exact fun hname => varRead_scalar hname
  case element => exact fun hname hlb _ hrb h => varRead_element hname hlb h hrb
  case compare => exact fun _ hop _ hl hr => simpleRead_compare hop hl.2 hr.2
  case additive => exact fun _ h => simpleRead_additive h.2
  case addops =>
    exact fun _ hop _ hl hr => ⟨by simp, additiveRead_fold hop hl.2 hr.1 hr.2⟩
  case term =>
    intro w t _ h
    refine ⟨h.1, fun limit p r hat hend hlimit => ?_⟩
    obtain ⟨limit, rfl⟩ : ∃ m, limit = m + 1 := ⟨limit - 1, by omega⟩
    simp only [endsTerm, Bool.and_eq_true, Bool.not_eq_true'] at hend
    refine readsAdditive_of_term hat h.1 hlimit ?_
    exact (h.2 limit p r hat hend.1 (by omega)).stop_mulops (by rw [hat.skip.kind, hend.2])
  case mulops =>
    exact fun _ hop _ hl hr => ⟨by simp, termRead_fold hop hl.2 hr.1 hr.2⟩
  case factor =>
    intro w t _ h
    refine ⟨h.1, fun limit p r hat hend hlimit => ?_⟩
    obtain ⟨limit, rfl⟩ : ∃ m, limit = m + 1 := ⟨limit - 1, by omega⟩
    exact readsTerm_of_factor hat h.1 hlimit (h.2 limit p r hat hend (by omega))
  case paren => exact fun hlp _ hrp h => ⟨by simp, factorRead_paren hlp h hrp⟩
  case var => exact fun _ h => ⟨h.1, h.2.2⟩
  case call => exact fun _ h => h
  case num => exact fun hkind => ⟨by simp, factorRead_num hkind⟩
  case mk => exact fun hname hlp _ hrp h => ⟨by simp, factorRead_call hname hlp h hrp⟩
  case list => exact fun _ h => argsRead_list h
  case empty => exact argsRead_empty
  case snoc =>
    exact fun _ hcomma hder hlist h =>
      argListRead_snoc hlist hcomma (expression_starts hder) h
  case one => exact fun hder h => argListRead_one (expression_starts hder) h

end Parser

end CMinus
