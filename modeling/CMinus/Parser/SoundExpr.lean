import CMinus.Parser.Step
import CMinus.Grammar

namespace CMinus

namespace Parser

open Grammar

@[simp] theorem ExprInfo.bare_parenthesized (info : ExprInfo) :
    info.bare.parenthesized = info.parenthesized := rfl

theorem bare_var (head : VarHead) (index : Option Expr) :
    (Expr.var head index).bare = .var head.bare (index.map Expr.bare) := by
  cases index <;> simp [Expr.bare]

theorem bare_assign (info : ExprInfo) (opLoc : SourceLocation) (target : VarHead)
    (index : Option Expr) (value : Expr) :
    (Expr.assign info opLoc target index value).bare =
      .assign info.bare {} target.bare (index.map Expr.bare) value.bare := by
  cases index <;> simp [Expr.bare]

theorem bare_parenthesize (e : Expr) : e.parenthesize.bare = e.bare.parenthesize := by
  cases e with
  | var head index =>
      simp only [Expr.parenthesize, bare_var]
      rfl
  | assign info opLoc target index value =>
      simp only [Expr.parenthesize, bare_assign]
      rfl
  | _ => simp [Expr.parenthesize, Expr.bare, ExprInfo.bare]

/-! What a parsing function promises: it ends, a null result leaves an error
behind, and a tree comes with the tokens it was made of. -/

def Parsed {α : Type} (p : Parser) (D : List Token → α → Prop) (r : Option α)
    (p' : Parser) : Prop :=
  ∃ used, Steps p used p' ∧
    match r with
    | none => p.diags.errorCount < p'.diags.errorCount
    | some a => p'.diags.errorCount = p.diags.errorCount ∧ used ≠ [] ∧ D used a

theorem Parsed.fail {α : Type} {p p' : Parser} {D : List Token → α → Prop}
    {used : List Token} (h : Steps p used p')
    (herr : p.diags.errorCount < p'.diags.errorCount) : Parsed p D none p' :=
  ⟨used, h, herr⟩

/-! An unparenthesized `VarExpr` was derived as a `var`, whatever chain of rules it
went through, so it may be reused as an assignment target. -/

def Target (w : List Token) (e : Expr) : Prop :=
  ∀ head index, e = .var head index → head.info.parenthesized = false →
    Var w head.bare (index.map Expr.bare)

structure ExprSpecs (limit : Nat) : Prop where
  expression : ∀ p : Parser, p.Valid → 10 * p.ahead.length + 5 ≤ limit →
    Ends (parseExpression limit) p
      (Parsed p fun w e => Expression w e.bare)
  simple : ∀ p : Parser, p.Valid → 10 * p.ahead.length + 4 ≤ limit →
    Ends (parseSimpleExpression limit) p
      (Parsed p fun w e => SimpleExpression w e.bare ∧ Target w e)
  additive : ∀ p : Parser, p.Valid → 10 * p.ahead.length + 3 ≤ limit →
    Ends (parseAdditiveExpression limit) p
      (Parsed p fun w e => AdditiveExpression w e.bare ∧ Target w e)
  addops : ∀ (p q : Parser) (u : List Token) (node : Expr), Steps q u p → u ≠ [] →
    p.diags.errorCount = q.diags.errorCount → 10 * p.ahead.length + 1 ≤ limit →
    AdditiveExpression u node.bare → Target u node →
    Ends (parseAddops limit node) p
      (Parsed q fun w e => AdditiveExpression w e.bare ∧ Target w e)
  term : ∀ p : Parser, p.Valid → 10 * p.ahead.length + 2 ≤ limit →
    Ends (parseTerm limit) p (Parsed p fun w e => Term w e.bare ∧ Target w e)
  mulops : ∀ (p q : Parser) (u : List Token) (node : Expr), Steps q u p → u ≠ [] →
    p.diags.errorCount = q.diags.errorCount → 10 * p.ahead.length + 1 ≤ limit →
    Term u node.bare → Target u node →
    Ends (parseMulops limit node) p
      (Parsed q fun w e => Term w e.bare ∧ Target w e)
  factor : ∀ p : Parser, p.Valid → 10 * p.ahead.length + 1 ≤ limit →
    Ends (parseFactor limit) p (Parsed p fun w e => Factor w e.bare ∧ Target w e)
  args : ∀ p : Parser, p.Valid → 10 * p.ahead.length + 7 ≤ limit →
    Ends (parseArgs limit) p (fun r p' => ∃ used, Steps p used p' ∧
      match r with
      | none => p.diags.errorCount < p'.diags.errorCount
      | some args => p'.diags.errorCount = p.diags.errorCount ∧
          Args used (args.map Expr.bare))
  argsFrom : ∀ (p q : Parser) (u : List Token) (args : List Expr), Steps q u p →
    p.diags.errorCount = q.diags.errorCount → 10 * p.ahead.length + 6 ≤ limit →
    (∀ w arg, Expression w arg → ArgList (u ++ w) (args.map Expr.bare ++ [arg])) →
    Ends (parseArgsFrom limit args) p
      (Parsed q fun w args => ArgList w (args.map Expr.bare))

theorem Target.binary {w : List Token} {info : ExprInfo} {op : BinaryOp}
    {opLoc : SourceLocation} {lhs rhs : Expr} :
    Target w (.binary info op opLoc lhs rhs) := by
  intro head index heq
  cases heq

theorem relop_relopFor {kind : TokenKind} (h : kind.isRelop = true) :
    Relop kind (relopFor kind) := by
  cases kind <;> first | exact absurd h (by decide) | constructor

theorem addop_of_isAddop {tok : Token} (h : tok.kind.isAddop = true) :
    Addop tok.kind (if tok.is .plus then .add else .sub) := by
  cases hk : tok.kind <;> rw [hk] at h <;>
    first | exact absurd h (by decide) | (simp only [Token.is, hk]; constructor)

theorem mulop_of_isMulop {tok : Token} (h : tok.kind.isMulop = true) :
    Mulop tok.kind (if tok.is .star then .mul else .div) := by
  cases hk : tok.kind <;> rw [hk] at h <;>
    first | exact absurd h (by decide) | (simp only [Token.is, hk]; constructor)

theorem ne_endOfFile {kind : TokenKind} {test : TokenKind → Bool}
    (h : test kind = true) (heof : test .endOfFile = false) : kind ≠ .endOfFile := by
  rintro rfl
  rw [heof] at h
  cases h

section Factor

variable {limit : Nat} (ih : ExprSpecs limit)

include ih

theorem parseTerm_spec (p : Parser) (hp : p.Valid)
    (hlimit : 10 * p.ahead.length + 2 ≤ limit + 1) :
    Ends (parseTerm (limit + 1)) p (Parsed p fun w e => Term w e.bare ∧ Target w e) := by
  simp only [parseTerm, ends_bind]
  refine (ih.factor p hp (by omega)).mono ?_
  rintro (_ | node) p₁ ⟨used, hsteps, hres⟩
  · exact (ends_pure _).mpr (.fail hsteps hres)
  · obtain ⟨herr, hne, hfactor, htarget⟩ := hres
    have hlen := hsteps.length_le
    exact ih.mulops p₁ p used node hsteps hne herr (by omega) (.factor hfactor) htarget

theorem parseMulops_spec (p q : Parser) (u : List Token) (node : Expr)
    (hsteps : Steps q u p) (hne : u ≠ [])
    (herr : p.diags.errorCount = q.diags.errorCount)
    (hlimit : 10 * p.ahead.length + 1 ≤ limit + 1) (hterm : Term u node.bare)
    (htarget : Target u node) :
    Ends (parseMulops (limit + 1) node) p
      (Parsed q fun w e => Term w e.bare ∧ Target w e) := by
  simp only [parseMulops, ends_bind, ends_peek, ends_ite, ends_pure]
  refine ⟨fun _ => ⟨u, hsteps, herr, hne, hterm, htarget⟩, fun hmulop => ?_⟩
  have hmulop : (p.peekAt 0).kind.isMulop = true := by simpa using hmulop
  have heof := ne_endOfFile hmulop rfl
  have hop := Steps.advanced hsteps.valid heof
  have hlen := hop.length_le
  simp only [ends_advance, previousToken_advanced hsteps.valid heof]
  simp only [List.length_singleton] at hlen
  refine (ih.factor p.advanced hop.valid (by omega)).mono ?_
  rintro (_ | rhs) p₂ ⟨used, hrhs, hres⟩
  · refine (ends_pure _).mpr (.fail ((hsteps.trans hop).trans hrhs) ?_)
    rw [advanced_diags] at hres
    omega
  · obtain ⟨herr', hne', hfactor, -⟩ := hres
    have hlen' := hrhs.length_le
    refine ih.mulops p₂ q _ _ ((hsteps.trans hop).trans hrhs) (by simp [hne])
      (by rw [herr', advanced_diags, herr]) (by omega) ?_ .binary
    rw [List.append_assoc]
    exact .fold hterm (mulop_of_isMulop hmulop) hfactor

theorem parseAdditiveExpression_spec (p : Parser) (hp : p.Valid)
    (hlimit : 10 * p.ahead.length + 3 ≤ limit + 1) :
    Ends (parseAdditiveExpression (limit + 1)) p
      (Parsed p fun w e => AdditiveExpression w e.bare ∧ Target w e) := by
  simp only [parseAdditiveExpression, ends_bind]
  refine (ih.term p hp (by omega)).mono ?_
  rintro (_ | node) p₁ ⟨used, hsteps, hres⟩
  · exact (ends_pure _).mpr (.fail hsteps hres)
  · obtain ⟨herr, hne, hterm, htarget⟩ := hres
    have hlen := hsteps.length_le
    exact ih.addops p₁ p used node hsteps hne herr (by omega) (.term hterm) htarget

theorem parseAddops_spec (p q : Parser) (u : List Token) (node : Expr)
    (hsteps : Steps q u p) (hne : u ≠ [])
    (herr : p.diags.errorCount = q.diags.errorCount)
    (hlimit : 10 * p.ahead.length + 1 ≤ limit + 1)
    (hadd : AdditiveExpression u node.bare) (htarget : Target u node) :
    Ends (parseAddops (limit + 1) node) p
      (Parsed q fun w e => AdditiveExpression w e.bare ∧ Target w e) := by
  simp only [parseAddops, ends_bind, ends_peek, ends_ite, ends_pure]
  refine ⟨fun _ => ⟨u, hsteps, herr, hne, hadd, htarget⟩, fun haddop => ?_⟩
  have haddop : (p.peekAt 0).kind.isAddop = true := by simpa using haddop
  have heof := ne_endOfFile haddop rfl
  have hop := Steps.advanced hsteps.valid heof
  have hlen := hop.length_le
  simp only [ends_advance, previousToken_advanced hsteps.valid heof]
  simp only [List.length_singleton] at hlen
  refine (ih.term p.advanced hop.valid (by omega)).mono ?_
  rintro (_ | rhs) p₂ ⟨used, hrhs, hres⟩
  · refine (ends_pure _).mpr (.fail ((hsteps.trans hop).trans hrhs) ?_)
    rw [advanced_diags] at hres
    omega
  · obtain ⟨herr', hne', hterm, -⟩ := hres
    have hlen' := hrhs.length_le
    refine ih.addops p₂ q _ _ ((hsteps.trans hop).trans hrhs) (by simp [hne])
      (by rw [herr', advanced_diags, herr]) (by omega) ?_ .binary
    rw [List.append_assoc]
    exact .fold hadd (addop_of_isAddop haddop) hterm

theorem parseSimpleExpression_spec (p : Parser) (hp : p.Valid)
    (hlimit : 10 * p.ahead.length + 4 ≤ limit + 1) :
    Ends (parseSimpleExpression (limit + 1)) p
      (Parsed p fun w e => SimpleExpression w e.bare ∧ Target w e) := by
  simp only [parseSimpleExpression, ends_bind]
  refine (ih.additive p hp (by omega)).mono ?_
  rintro (_ | lhs) p₁ ⟨used, hsteps, hres⟩
  · exact (ends_pure _).mpr (.fail hsteps hres)
  · obtain ⟨herr, hne, hadd, htarget⟩ := hres
    simp only [ends_bind, ends_peek, ends_ite, ends_pure]
    refine ⟨fun _ => ⟨used, hsteps, herr, hne, .additive hadd, htarget⟩,
      fun hrelop => ?_⟩
    have hrelop : (p₁.peekAt 0).kind.isRelop = true := by simpa using hrelop
    have heof := ne_endOfFile hrelop rfl
    have hop := Steps.advanced hsteps.valid heof
    have hlen := hsteps.length_le
    have hlen' := hop.length_le
    simp only [ends_advance, previousToken_advanced hsteps.valid heof]
    simp only [List.length_singleton] at hlen'
    refine (ih.additive p₁.advanced hop.valid (by omega)).mono ?_
    rintro (_ | rhs) p₂ ⟨used', hrhs, hres'⟩
    · refine (ends_pure _).mpr (.fail ((hsteps.trans hop).trans hrhs) ?_)
      rw [advanced_diags] at hres'
      omega
    · obtain ⟨herr', hne', hadd', -⟩ := hres'
      have hall := (hsteps.trans hop).trans hrhs
      rw [advanced_diags] at herr'
      simp only [ends_bind, ends_peek, ends_ite, ends_errorAt, ends_pure]
      refine ⟨fun _ => .fail (hall.withError _ _) ?_, fun _ =>
        ⟨_, hall, herr'.trans herr, by simp [hne], ?_, .binary⟩⟩
      · rw [withError_errorCount]
        omega
      · rw [List.append_assoc]
        exact .compare hadd (relop_relopFor hrelop) hadd'

theorem parseExpression_spec (p : Parser) (hp : p.Valid)
    (hlimit : 10 * p.ahead.length + 5 ≤ limit + 1) :
    Ends (parseExpression (limit + 1)) p
      (Parsed p fun w e => Expression w e.bare) := by
  simp only [parseExpression, ends_bind]
  refine (ih.simple p hp (by omega)).mono ?_
  rintro (_ | lhs) p₁ ⟨used, hsteps, hres⟩
  · exact (ends_pure _).mpr (.fail hsteps hres)
  · obtain ⟨herr, hne, hsimple, htarget⟩ := hres
    simp only [ends_bind, ends_check, ends_ite, ends_pure]
    refine ⟨fun _ => ⟨used, hsteps, herr, hne, .simple hsimple⟩, fun hassign => ?_⟩
    have hassign : (p₁.peekAt 0).kind = .assign := by simpa using hassign
    have heof : (p₁.peekAt 0).kind ≠ .endOfFile := by simp [hassign]
    have hop := Steps.advanced hsteps.valid heof
    have hlen := hsteps.length_le
    have hlen' := hop.length_le
    simp only [ends_advance, previousToken_advanced hsteps.valid heof]
    simp only [List.length_singleton] at hlen'
    refine (ih.expression p₁.advanced hop.valid (by omega)).mono ?_
    rintro (_ | value) p₂ ⟨used', hvalue, hres'⟩
    · refine (ends_pure _).mpr (.fail ((hsteps.trans hop).trans hvalue) ?_)
      rw [advanced_diags] at hres'
      omega
    · obtain ⟨herr', hne', hexpr⟩ := hres'
      have hall := (hsteps.trans hop).trans hvalue
      rw [advanced_diags] at herr'
      have hreject : ∀ tok message, Parsed p (fun w e => Expression w (Expr.bare e))
          none (p₂.withError tok message) := by
        intro tok message
        refine .fail (hall.withError tok message) ?_
        rw [withError_errorCount]
        omega
      cases lhs with
      | var head index =>
          simp only [ends_bind, ends_ite, ends_errorAt, ends_pure]
          refine ⟨fun _ => hreject _ _, fun hparen =>
            ⟨_, hall, herr'.trans herr, by simp [hne], ?_⟩⟩
          have hvar := htarget head index rfl (by simpa using hparen)
          show Expression (used ++ [p₁.peekAt 0] ++ used') (Expr.bare _)
          rw [List.append_assoc, bare_assign]
          exact .assign hvar hassign hexpr
      | _ => simpa only [ends_bind, ends_errorAt, ends_pure] using hreject _ _

theorem parseArgsFrom_spec (p q : Parser) (u : List Token) (args : List Expr)
    (hsteps : Steps q u p) (herr : p.diags.errorCount = q.diags.errorCount)
    (hlimit : 10 * p.ahead.length + 6 ≤ limit + 1)
    (hargs : ∀ w arg, Expression w arg →
      ArgList (u ++ w) (args.map Expr.bare ++ [arg])) :
    Ends (parseArgsFrom (limit + 1) args) p
      (Parsed q fun w args => ArgList w (args.map Expr.bare)) := by
  simp only [parseArgsFrom, ends_bind]
  refine (ih.expression p hsteps.valid (by omega)).mono ?_
  rintro (_ | arg) p₁ ⟨used, harg, hres⟩
  · refine (ends_pure _).mpr (.fail (hsteps.trans harg) ?_)
    omega
  · obtain ⟨herr₁, hne, hexpr⟩ := hres
    have hlist := hargs used arg.bare hexpr
    have hall := hsteps.trans harg
    simp only [ends_match_or_stop, ends_pure]
    refine ⟨fun hcomma => ?_, fun _ =>
      ⟨_, hall, herr₁.trans herr, by simp [hne], ?_⟩⟩
    · have heof : (p₁.peekAt 0).kind ≠ .endOfFile := by simp [hcomma]
      have hop := Steps.advanced harg.valid heof
      have hlen := harg.length_le
      have hlen' := hop.length_le
      simp only [List.length_singleton] at hlen'
      refine ih.argsFrom p₁.advanced q _ _ (hall.trans hop)
        (by rw [advanced_diags, herr₁, herr]) (by omega) ?_
      intro w next hnext
      rw [List.map_append, List.append_assoc (u ++ used)]
      exact .snoc hlist hcomma hnext
    · simpa using hlist

theorem parseArgs_spec (p : Parser) (hp : p.Valid)
    (hlimit : 10 * p.ahead.length + 7 ≤ limit + 1) :
    Ends (parseArgs (limit + 1)) p (fun r p' => ∃ used, Steps p used p' ∧
      match r with
      | none => p.diags.errorCount < p'.diags.errorCount
      | some args => p'.diags.errorCount = p.diags.errorCount ∧
          Args used (args.map Expr.bare)) := by
  simp only [parseArgs, ends_bind, ends_check, ends_ite, ends_pure]
  refine ⟨fun _ => ⟨[], .refl hp, trivial, .empty⟩, fun _ => ?_⟩
  refine (ih.argsFrom p p [] [] (.refl hp) rfl (by omega) ?_).mono ?_
  · exact fun w arg h => .one h
  · rintro (_ | args) p₁ ⟨used, hsteps, hres⟩
    · exact ⟨used, hsteps, hres⟩
    · exact ⟨used, hsteps, hres.1, .list hres.2.2⟩

theorem parseFactor_paren_spec (p : Parser) (hp : p.Valid)
    (hkind : (p.peekAt 0).kind = .lParen)
    (hlimit : 10 * p.ahead.length + 1 ≤ limit + 1) :
    Ends (parseFactor (limit + 1)) p
      (Parsed p fun w e => Factor w e.bare ∧ Target w e) := by
  have heof : (p.peekAt 0).kind ≠ .endOfFile := by simp [hkind]
  have hlp := Steps.advanced hp heof
  have hlen := hlp.length_le
  simp only [List.length_singleton] at hlen
  simp only [parseFactor, ends_bind, ends_peek, hkind, ends_advance]
  refine (ih.expression p.advanced hlp.valid (by omega)).mono ?_
  rintro (_ | inner) p₁ ⟨used, hinner, hres⟩
  · refine (ends_pure _).mpr (.fail (hlp.trans hinner) ?_)
    rw [advanced_diags] at hres
    omega
  · obtain ⟨herr, hne, hexpr⟩ := hres
    have hall := hlp.trans hinner
    rw [advanced_diags] at herr
    simp only [ends_expect_or_none, ends_pure]
    refine ⟨fun hrp => ?_, fun _ => .fail (hall.withError _ _) ?_⟩
    · have hrest := Steps.advanced hinner.valid (by simp [hrp])
      refine ⟨_, hall.trans hrest, by rw [advanced_diags, herr], by simp, ?_, ?_⟩
      · rw [bare_parenthesize]
        exact .paren hkind hexpr hrp
      · intro head index heq hparen
        cases inner <;> simp only [Expr.parenthesize, Expr.var.injEq, reduceCtorEq] at heq
        obtain ⟨rfl, -⟩ := heq
        simp at hparen
    · rw [withError_errorCount]
      omega

theorem parseFactor_identifier_spec (p : Parser) (hp : p.Valid)
    (hkind : (p.peekAt 0).kind = .identifier)
    (hlimit : 10 * p.ahead.length + 1 ≤ limit + 1) :
    Ends (parseFactor (limit + 1)) p
      (Parsed p fun w e => Factor w e.bare ∧ Target w e) := by
  have heof : (p.peekAt 0).kind ≠ .endOfFile := by simp [hkind]
  have hid := Steps.advanced hp heof
  have hlen := hid.length_le
  simp only [List.length_singleton] at hlen
  rw [parseFactor]
  simp only [ends_peek_then, hkind, ends_advance_then, ends_match_or_else, ends_pure]
  refine ⟨fun hlp => ?_, fun _ => ⟨fun hlb => ?_, fun _ => ?_⟩⟩
  · -- rule 27: the arguments of a call
    have hop := Steps.advanced hid.valid (by simp [hlp])
    have hlen' := hop.length_le
    simp only [List.length_singleton] at hlen'
    refine (ih.args p.advanced.advanced hop.valid (by omega)).bind ?_
    rintro (_ | args) p₁ ⟨used, hargs, hres⟩
    · refine (ends_pure _).mpr (.fail ((hid.trans hop).trans hargs) ?_)
      simpa only [advanced_diags] using hres
    · obtain ⟨herr, hder⟩ := hres
      have hall := (hid.trans hop).trans hargs
      simp only [advanced_diags] at herr
      simp only [ends_expect_or_none, ends_pure]
      refine ⟨fun hrp => ?_, fun _ => .fail (hall.withError _ _) ?_⟩
      · have hrest := Steps.advanced hargs.valid (by simp [hrp])
        refine ⟨_, hall.trans hrest, by rw [advanced_diags, herr], by simp, ?_, ?_⟩
        · rw [Expr.bare, bareArgs_eq_map]
          exact .call (.mk hkind hlp hder hrp)
        · intro head index heq
          cases heq
      · rw [withError_errorCount]
        omega
  · -- rule 19: the subscript of an array element
    have hop := Steps.advanced hid.valid (by simp [hlb])
    have hlen' := hop.length_le
    simp only [List.length_singleton] at hlen'
    refine (ih.expression p.advanced.advanced hop.valid (by omega)).bind ?_
    rintro (_ | index) p₁ ⟨used, hindex, hres⟩
    · refine (ends_pure _).mpr (.fail ((hid.trans hop).trans hindex) ?_)
      simpa only [advanced_diags] using hres
    · obtain ⟨herr, -, hder⟩ := hres
      have hall := (hid.trans hop).trans hindex
      simp only [advanced_diags] at herr
      simp only [ends_expect_or_none, ends_pure]
      refine ⟨fun hrb => ?_, fun _ => .fail (hall.withError _ _) ?_⟩
      · have hrest := Steps.advanced hindex.valid (by simp [hrb])
        have hvar := Var.element hkind hlb hder hrb
        refine ⟨_, hall.trans hrest, by rw [advanced_diags, herr], by simp, ?_, ?_⟩
        · rw [bare_var]
          exact .var hvar
        · intro head index' heq _
          cases heq
          exact hvar
      · rw [withError_errorCount]
        omega
  · have hvar := Var.scalar hkind
    refine ⟨_, hid, by rw [advanced_diags], by simp, ?_, ?_⟩
    · rw [bare_var]
      exact .var hvar
    · intro head index heq _
      cases heq
      exact hvar

theorem parseFactor_spec (p : Parser) (hp : p.Valid)
    (hlimit : 10 * p.ahead.length + 1 ≤ limit + 1) :
    Ends (parseFactor (limit + 1)) p
      (Parsed p fun w e => Factor w e.bare ∧ Target w e) := by
  have hreject : ∀ tok message, Parsed p
      (fun w e => Factor w (Expr.bare e) ∧ Target w e) none
      (p.withError tok message) := fun tok message =>
    .fail ((Steps.refl hp).withError tok message) (by simp)
  cases hkind : (p.peekAt 0).kind with
  | lParen => exact parseFactor_paren_spec ih p hp hkind hlimit
  | identifier => exact parseFactor_identifier_spec ih p hp hkind hlimit
  | number =>
      have hnum := Steps.advanced hp (by simp [hkind])
      simp only [parseFactor, ends_bind, ends_peek, hkind, ends_advance, ends_pure]
      refine ⟨_, hnum, by rw [advanced_diags], by simp, .num hkind, ?_⟩
      intro head index heq
      cases heq
  | _ =>
      simpa only [parseFactor, ends_bind, ends_peek, hkind, ends_errorAt, ends_pure]
        using hreject _ _

end Factor

/-! Every limit that is large enough for the tokens ahead gives the result. -/

theorem exprSpecs (limit : Nat) : ExprSpecs limit := by
  induction limit with
  | zero => constructor <;> intros <;> omega
  | succ limit ih =>
      exact {
        expression := parseExpression_spec ih
        simple := parseSimpleExpression_spec ih
        additive := parseAdditiveExpression_spec ih
        addops := parseAddops_spec ih
        term := parseTerm_spec ih
        mulops := parseMulops_spec ih
        factor := parseFactor_spec ih
        args := parseArgs_spec ih
        argsFrom := parseArgsFrom_spec ih }

end Parser

end CMinus
