import CMinus.Parser
import Mathlib.Data.List.TakeDrop

namespace CMinus

namespace Parser

/-! What a parser still has in front of it: the tokens before the next
`EndOfFile`. -/

def rest (p : Parser) : List Token := p.tokens.drop p.pos

def ahead (p : Parser) : List Token :=
  p.rest.takeWhile (fun tok => !tok.is .endOfFile)

def Valid (p : Parser) : Prop := ∃ tok ∈ p.rest, tok.kind = .endOfFile

def skip (p : Parser) (count : Nat) : Parser := { p with pos := p.pos + count }

@[simp] theorem skip_zero (p : Parser) : p.skip 0 = p := rfl

@[simp] theorem skip_skip (p : Parser) (m n : Nat) :
    (p.skip m).skip n = p.skip (m + n) := by
  simp [skip, Nat.add_assoc]

@[simp] theorem skip_diags (p : Parser) (n : Nat) : (p.skip n).diags = p.diags := rfl

theorem rest_skip (p : Parser) (n : Nat) : (p.skip n).rest = p.rest.drop n := by
  simp [rest, skip, List.drop_drop]

theorem peekAt_eq_getElem? {p : Parser} {ahead : Nat} {tok : Token}
    (h : p.rest[ahead]? = some tok) : p.peekAt ahead = tok := by
  rw [rest, List.getElem?_drop] at h
  obtain ⟨hlt, heq⟩ := List.getElem?_eq_some_iff.mp h
  simp [peekAt, hlt, heq]

theorem peekAt_zero_of_rest {p : Parser} {tok : Token} {toks : List Token}
    (h : p.rest = tok :: toks) : p.peekAt 0 = tok :=
  peekAt_eq_getElem? (by simp [h])

theorem rest_ne_nil {p : Parser} (hp : p.Valid) : ∃ tok toks, p.rest = tok :: toks := by
  obtain ⟨tok, hmem, -⟩ := hp
  cases hrest : p.rest with
  | nil => simp [hrest] at hmem
  | cons head tail => exact ⟨head, tail, rfl⟩

/-! At the end of the tokens, and at a token before it. -/

theorem ahead_eq_nil {p : Parser} (hp : p.Valid) :
    p.ahead = [] ↔ (p.peekAt 0).kind = .endOfFile := by
  obtain ⟨tok, toks, hrest⟩ := rest_ne_nil hp
  rw [peekAt_zero_of_rest hrest, ahead, hrest, List.takeWhile_cons]
  by_cases htok : tok.kind = .endOfFile <;> simp [htok, Token.is]

theorem ahead_cons {p : Parser} {tok : Token} {toks : List Token}
    (h : p.ahead = tok :: toks) :
    p.peekAt 0 = tok ∧ tok.kind ≠ .endOfFile ∧ (p.skip 1).ahead = toks := by
  cases hrest : p.rest with
  | nil => simp [ahead, hrest] at h
  | cons head tail =>
      rw [ahead, hrest, List.takeWhile_cons] at h
      by_cases hhead : head.kind = .endOfFile
      · simp [hhead, Token.is] at h
      · simp only [Token.is, hhead, decide_false, Bool.not_false, if_true,
          List.cons.injEq] at h
        obtain ⟨rfl, rfl⟩ := h
        refine ⟨peekAt_zero_of_rest hrest, hhead, ?_⟩
        rw [ahead, rest_skip, hrest]
        rfl

theorem Valid.skip_one {p : Parser} (hp : p.Valid) {tok : Token} {toks : List Token}
    (h : p.ahead = tok :: toks) : (p.skip 1).Valid := by
  obtain ⟨last, hmem, hlast⟩ := hp
  obtain ⟨hpeek, htok, -⟩ := ahead_cons h
  cases hrest : p.rest with
  | nil => simp [hrest] at hmem
  | cons head tail =>
      have hhead : head = tok := (peekAt_zero_of_rest hrest).symm.trans hpeek
      subst hhead
      rw [hrest] at hmem
      rcases List.mem_cons.mp hmem with rfl | htail
      · exact absurd hlast htok
      · exact ⟨last, by simpa [rest_skip, hrest] using htail, hlast⟩

theorem advanced_of_ahead {p : Parser} {tok : Token} {toks : List Token}
    (h : p.ahead = tok :: toks) : p.advanced = p.skip 1 := by
  obtain ⟨hpeek, htok, -⟩ := ahead_cons h
  simp [advanced, hpeek, htok, skip, Token.is]

theorem advanced_of_atEnd {p : Parser} (h : (p.peekAt 0).kind = .endOfFile) :
    p.advanced = p := by
  simp [advanced, h, Token.is]

theorem previousToken_skip_one {p : Parser} {tok : Token} {toks : List Token}
    (h : p.ahead = tok :: toks) : (p.skip 1).previousToken = tok := by
  have hpeek := (ahead_cons h).1
  cases hrest : p.rest with
  | nil => simp [ahead, hrest] at h
  | cons head tail =>
      have hhead : head = tok := (peekAt_zero_of_rest hrest).symm.trans hpeek
      have hget : p.tokens[p.pos]? = some head := by
        have := congrArg List.head? hrest
        simpa [rest, List.head?_drop] using this
      simp [previousToken, skip, List.getD, hget, hhead]

/-! The second token of lookahead. -/

theorem peekAt_one {p : Parser} {tok next : Token} {toks : List Token}
    (h : p.ahead = tok :: next :: toks) : p.peekAt 1 = next := by
  obtain ⟨-, -, hskip⟩ := ahead_cons h
  have hpeek := (ahead_cons hskip).1
  cases hrest : p.rest with
  | nil => simp [ahead, hrest] at h
  | cons head tail =>
      have htail : (p.skip 1).rest = tail := by simp [rest_skip, hrest]
      cases htail' : tail with
      | nil => simp [ahead, htail, htail'] at hskip
      | cons second others =>
          have hsecond : (p.skip 1).peekAt 0 = second :=
            peekAt_zero_of_rest (htail.trans htail')
          refine peekAt_eq_getElem? ?_
          simp [hrest, htail', ← hsecond, hpeek]

/-! `Steps p used p'`: from `p` the parser consumes exactly `used` and is at `p'`;
on the way it may record errors, and it loses none. -/

structure Steps (p : Parser) (used : List Token) (p' : Parser) : Prop where
  tokens : p'.tokens = p.tokens
  pos : p'.pos = p.pos + used.length
  ahead : p.ahead = used ++ p'.ahead
  valid : p'.Valid
  errors : p.diags.errorCount ≤ p'.diags.errorCount

theorem Steps.refl {p : Parser} (hp : p.Valid) : Steps p [] p :=
  ⟨rfl, rfl, rfl, hp, Nat.le_refl _⟩

theorem Steps.trans {p p₁ p₂ : Parser} {u v : List Token} (h : Steps p u p₁)
    (h' : Steps p₁ v p₂) : Steps p (u ++ v) p₂ where
  tokens := h'.tokens.trans h.tokens
  pos := by rw [h'.pos, h.pos, List.length_append, Nat.add_assoc]
  ahead := by rw [h.ahead, h'.ahead, List.append_assoc]
  valid := h'.valid
  errors := Nat.le_trans h.errors h'.errors

theorem Steps.one {p : Parser} (hp : p.Valid) {tok : Token} {toks : List Token}
    (h : p.ahead = tok :: toks) : Steps p [tok] (p.skip 1) where
  tokens := rfl
  pos := rfl
  ahead := by rw [h, (ahead_cons h).2.2]; rfl
  valid := hp.skip_one h
  errors := Nat.le_refl _

theorem Steps.length_le {p p' : Parser} {u : List Token} (h : Steps p u p') :
    p'.ahead.length + u.length = p.ahead.length := by
  rw [h.ahead, List.length_append, Nat.add_comm]

theorem ahead_of_kind {p : Parser} (hp : p.Valid)
    (h : (p.peekAt 0).kind ≠ .endOfFile) : ∃ toks, p.ahead = p.peekAt 0 :: toks := by
  cases hahead : p.ahead with
  | nil => exact absurd ((ahead_eq_nil hp).mp hahead) h
  | cons tok toks => exact ⟨toks, by rw [(ahead_cons hahead).1]⟩

theorem Steps.advanced {p : Parser} (hp : p.Valid)
    (h : (p.peekAt 0).kind ≠ .endOfFile) : Steps p [p.peekAt 0] p.advanced := by
  obtain ⟨toks, hahead⟩ := ahead_of_kind hp h
  rw [advanced_of_ahead hahead]
  exact Steps.one hp hahead

theorem previousToken_advanced {p : Parser} (hp : p.Valid)
    (h : (p.peekAt 0).kind ≠ .endOfFile) :
    p.advanced.previousToken = p.peekAt 0 := by
  obtain ⟨toks, hahead⟩ := ahead_of_kind hp h
  rw [advanced_of_ahead hahead, previousToken_skip_one hahead]

@[simp] theorem advanced_diags (p : Parser) : p.advanced.diags = p.diags := by
  unfold Parser.advanced
  split <;> rfl

/-! Recording a diagnostic moves nothing. -/

def withError (p : Parser) (tok : Token) (message : String) : Parser :=
  { p with diags := p.diags.error tok.loc message }

@[simp] theorem withError_ahead (p : Parser) (tok : Token) (message : String) :
    (p.withError tok message).ahead = p.ahead := rfl

@[simp] theorem withError_errorCount (p : Parser) (tok : Token) (message : String) :
    (p.withError tok message).diags.errorCount = p.diags.errorCount + 1 := by
  simp [withError]

theorem Steps.withError {p p' : Parser} {u : List Token} (h : Steps p u p')
    (tok : Token) (message : String) : Steps p u (p'.withError tok message) where
  tokens := h.tokens
  pos := h.pos
  ahead := h.ahead
  valid := h.valid
  errors := by
    have := h.errors
    rw [withError_errorCount]
    omega

/-! `Ends action p Q`: run from `p`, the action ends, and `Q` holds of its result
and of the parser it leaves. -/

def Ends {α : Type} (action : ParserM α) (p : Parser) (Q : α → Parser → Prop) : Prop :=
  ∃ r, action p = some r ∧ Q r.1 r.2

section Rules

variable {α β : Type} {p : Parser} {Q : α → Parser → Prop}

theorem Ends.mono {action : ParserM α} {R : α → Parser → Prop} (h : Ends action p Q)
    (hQR : ∀ a p', Q a p' → R a p') : Ends action p R := by
  obtain ⟨r, hr, hq⟩ := h
  exact ⟨r, hr, hQR _ _ hq⟩

@[simp] theorem ends_pure (a : α) : Ends (pure a) p Q ↔ Q a p := by
  constructor
  · rintro ⟨r, hr, hq⟩
    cases hr
    exact hq
  · exact fun hq => ⟨(a, p), rfl, hq⟩

@[simp] theorem ends_bind {action : ParserM β} {next : β → ParserM α} :
    Ends (action >>= next) p Q ↔
      Ends action p (fun b p' => Ends (next b) p' Q) := by
  constructor
  · rintro ⟨r, hr, hq⟩
    obtain ⟨⟨b, p'⟩, hb, hnext⟩ := Option.bind_eq_some_iff.mp hr
    exact ⟨(b, p'), hb, r, hnext, hq⟩
  · rintro ⟨⟨b, p'⟩, hb, r, hnext, hq⟩
    exact ⟨r, Option.bind_eq_some_iff.mpr ⟨(b, p'), hb, hnext⟩, hq⟩

theorem ends_of_eq {action : ParserM α} {a : α} {p' : Parser}
    (h : action p = some (a, p')) : Ends action p Q ↔ Q a p' := by
  simp [Ends, h]

@[simp] theorem ends_peek {Q : Token → Parser → Prop} :
    Ends peek p Q ↔ Q (p.peekAt 0) p := ends_of_eq rfl

@[simp] theorem ends_peekNext {Q : Token → Parser → Prop} :
    Ends peekNext p Q ↔ Q (p.peekAt 1) p := ends_of_eq rfl

@[simp] theorem ends_previous {Q : Token → Parser → Prop} :
    Ends previous p Q ↔ Q p.previousToken p := ends_of_eq rfl

@[simp] theorem ends_position {Q : Nat → Parser → Prop} :
    Ends position p Q ↔ Q p.pos p := ends_of_eq rfl

@[simp] theorem ends_atEnd {Q : Bool → Parser → Prop} :
    Ends atEnd p Q ↔ Q ((p.peekAt 0).is .endOfFile) p := ends_of_eq rfl

@[simp] theorem ends_check {kind : TokenKind} {Q : Bool → Parser → Prop} :
    Ends (check kind) p Q ↔ Q ((p.peekAt 0).is kind) p := ends_of_eq rfl

@[simp] theorem ends_advance {Q : Token → Parser → Prop} :
    Ends advance p Q ↔ Q p.advanced.previousToken p.advanced := ends_of_eq rfl

@[simp] theorem ends_errorAt {tok : Token} {message : String}
    {Q : Unit → Parser → Prop} :
    Ends (errorAt tok message) p Q ↔ Q () (p.withError tok message) := ends_of_eq rfl

theorem ends_ite {c : Prop} [Decidable c] {x y : ParserM α} :
    Ends (if c then x else y) p Q ↔
      (c → Ends x p Q) ∧ (¬c → Ends y p Q) := by
  split <;> simp_all

@[simp] theorem ends_match {kind : TokenKind} {Q : Bool → Parser → Prop} :
    Ends («match» kind) p Q ↔
      ((p.peekAt 0).kind = kind → Q true p.advanced) ∧
      ((p.peekAt 0).kind ≠ kind → Q false p) := by
  simp only [«match», ends_bind, ends_check, ends_ite, Token.is_eq_true, ends_advance,
    ends_pure]

@[simp] theorem ends_expect {kind : TokenKind} {context : String}
    {Q : Bool → Parser → Prop} :
    Ends (expect kind context) p Q ↔
      ((p.peekAt 0).kind = kind → Q true p.advanced) ∧
      ((p.peekAt 0).kind ≠ kind → Q false (p.withError (p.peekAt 0)
        ("expected " ++ expectedName kind ++ " " ++ context ++ ", found " ++
          describeToken (p.peekAt 0)))) := by
  simp only [expect, ends_bind, ends_check, ends_ite, Token.is_eq_true, ends_advance,
    ends_pure, ends_peek, ends_errorAt]

theorem Ends.bind {action : ParserM β} {next : β → ParserM α}
    {R : β → Parser → Prop} (h : Ends action p R)
    (hnext : ∀ b p', R b p' → Ends (next b) p' Q) : Ends (action >>= next) p Q :=
  ends_bind.mpr (h.mono hnext)

theorem ends_peek_then {next : Token → ParserM α} :
    Ends (peek >>= next) p Q ↔ Ends (next (p.peekAt 0)) p Q := by
  rw [ends_bind, ends_peek]

theorem ends_advance_then {next : Token → ParserM α} :
    Ends (advance >>= next) p Q ↔ Ends (next p.advanced.previousToken) p.advanced Q := by
  rw [ends_bind, ends_advance]

theorem ends_errorAt_then {tok : Token} {message : String}
    {next : Unit → ParserM α} :
    Ends (errorAt tok message >>= next) p Q ↔
      Ends (next ()) (p.withError tok message) Q := by
  rw [ends_bind, ends_errorAt]

theorem ends_position_then {next : Nat → ParserM α} :
    Ends (position >>= next) p Q ↔ Ends (next p.pos) p Q := by
  rw [ends_bind, ends_position]

/-! The two shapes in which the source asks for a token. -/

theorem ends_expect_or_none {β : Type} {kind : TokenKind} {context : String}
    {next : ParserM (Option β)} {Q : Option β → Parser → Prop} :
    Ends (expect kind context >>= fun found =>
        if (!found) = true then pure none else next) p Q ↔
      ((p.peekAt 0).kind = kind → Ends next p.advanced Q) ∧
      ((p.peekAt 0).kind ≠ kind → Q none (p.withError (p.peekAt 0)
        ("expected " ++ expectedName kind ++ " " ++ context ++ ", found " ++
          describeToken (p.peekAt 0)))) := by
  simp only [ends_bind, ends_expect, ends_ite, ends_pure, Bool.not_true, Bool.not_false,
    Bool.false_eq_true, not_false_eq_true, not_true_eq_false, true_imp_iff,
    false_imp_iff, and_true, true_and]

theorem ends_match_or_else {kind : TokenKind} {yes no : ParserM α} :
    Ends («match» kind >>= fun found => if found = true then yes else no) p Q ↔
      ((p.peekAt 0).kind = kind → Ends yes p.advanced Q) ∧
      ((p.peekAt 0).kind ≠ kind → Ends no p Q) := by
  simp only [ends_bind, ends_match, ends_ite, Bool.false_eq_true, not_false_eq_true,
    not_true_eq_false, true_imp_iff, false_imp_iff, and_true, true_and]

theorem ends_match_or_stop {kind : TokenKind} {yes no : ParserM α} :
    Ends («match» kind >>= fun found => if (!found) = true then no else yes) p Q ↔
      ((p.peekAt 0).kind = kind → Ends yes p.advanced Q) ∧
      ((p.peekAt 0).kind ≠ kind → Ends no p Q) := by
  simp only [ends_bind, ends_match, ends_ite, Bool.not_true, Bool.not_false,
    Bool.false_eq_true, not_false_eq_true, not_true_eq_false, true_imp_iff,
    false_imp_iff, and_true, true_and]

theorem ends_check_or_else {kind : TokenKind} {yes no : ParserM α} :
    Ends (check kind >>= fun found => if found = true then yes else no) p Q ↔
      ((p.peekAt 0).kind = kind → Ends yes p Q) ∧
      ((p.peekAt 0).kind ≠ kind → Ends no p Q) := by
  simp only [ends_bind, ends_check, ends_ite, Token.is_eq_true]

theorem ends_check_or_stop {kind : TokenKind} {yes no : ParserM α} :
    Ends (check kind >>= fun found => if (!found) = true then no else yes) p Q ↔
      ((p.peekAt 0).kind = kind → Ends yes p Q) ∧
      ((p.peekAt 0).kind ≠ kind → Ends no p Q) := by
  simp only [ends_bind, ends_check, ends_ite, Bool.not_eq_true', Token.is_eq_false,
    ne_eq, not_not, and_comm]

end Rules

end Parser

end CMinus
