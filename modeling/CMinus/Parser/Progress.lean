import CMinus.Parser.Exact

namespace CMinus

namespace Parser

/-! One round of a loop: it leaves the loop with a result, or goes on. -/

inductive Round (σ ρ : Type) where
  | leave (result : ρ)
  | again (state : σ)

def iterate {σ ρ : Type} (round : Nat → σ → ParserM (Round σ ρ)) : Nat → σ → ParserM ρ
  | 0, _ => fun _ => none
  | limit + 1, state => do
      match ← round limit state with
      | .leave result => return result
      | .again state => iterate round limit state

instance : LawfulMonad ParserM := LawfulMonad.mk' ParserM
  (fun action => by
    funext p
    show (action p).bind _ = action p
    cases action p <;> rfl)
  (fun _ _ => rfl)
  (fun action _ _ => by
    funext p
    show ((action p).bind _).bind _ = (action p).bind _
    cases action p <;> rfl)

/-! The rounds of the loops of the parser. -/

def declsRound (limit : Nat) (decls : List Decl) :
    ParserM (Round (List Decl) (List Decl)) := do
  if ← atEnd then return .leave decls
  let before ← position
  if let some decl ← parseDeclaration limit then
    return .again (decls ++ [decl])
  synchronizeDeclaration
  if (← position) = before then
    let _ ← advance
  return .again decls

def localDeclsRound (_ : Nat) (decls : List VarDecl) :
    ParserM (Round (List VarDecl) (List VarDecl)) := do
  if !(← peek).kind.isTypeSpecifier then return .leave decls
  let before ← position
  if let some decl ← parseLocalVarDeclaration then
    return .again (decls ++ [decl])
  synchronizeStatement
  if (← position) = before then
    let _ ← advance
  return .again decls

def stmtsRound (limit : Nat) (stmts : List Stmt) :
    ParserM (Round (List Stmt) (List Stmt)) := do
  if (← check .rBrace) || (← atEnd) then return .leave stmts
  let before ← position
  if let some stmt ← parseStatement limit then
    return .again (stmts ++ [stmt])
  synchronizeStatement
  if (← position) = before then
    let _ ← advance
  return .again stmts

def synchronizeDeclarationRound (_ : Nat) (depth : Nat) : ParserM (Round Nat Unit) := do
  if ← atEnd then return .leave ()
  let tok ← peek
  if depth = 0 ∧ tok.kind.isTypeSpecifier then return .leave ()
  let depth :=
    if tok.is .lBrace then depth + 1
    else if tok.is .rBrace ∧ 0 < depth then depth - 1
    else depth
  let _ ← advance
  return .again depth

def synchronizeStatementRound (_ : Nat) (_ : Unit) : ParserM (Round Unit Unit) := do
  if ← atEnd then return .leave ()
  if (← previous).is .semicolon then return .leave ()
  if startsStatementAfterError (← peek).kind then return .leave ()
  let _ ← advance
  return .again ()

def paramsRound (_ : Nat) (params : List ParamDecl) :
    ParserM (Round (List ParamDecl) (Option (List ParamDecl))) := do
  let some param ← parseParam | return .leave none
  let params := params ++ [param]
  if !(← «match» .comma) then return .leave (some params)
  return .again params

def argsRound (limit : Nat) (args : List Expr) :
    ParserM (Round (List Expr) (Option (List Expr))) := do
  let some arg ← parseExpression limit | return .leave none
  let args := args ++ [arg]
  if !(← «match» .comma) then return .leave (some args)
  return .again args

def addopsRound (limit : Nat) (node : Expr) : ParserM (Round Expr (Option Expr)) := do
  if !(← peek).kind.isAddop then return .leave (some node)
  let op ← advance
  let some rhs ← parseTerm limit | return .leave none
  return .again (.binary { loc := node.loc } (if op.is .plus then .add else .sub) op.loc
    node rhs)

def mulopsRound (limit : Nat) (node : Expr) : ParserM (Round Expr (Option Expr)) := do
  if !(← peek).kind.isMulop then return .leave (some node)
  let op ← advance
  let some rhs ← parseFactor limit | return .leave none
  return .again (.binary { loc := node.loc } (if op.is .star then .mul else .div) op.loc
    node rhs)

theorem parseDecls_eq : parseDecls = iterate declsRound := by
  funext limit decls
  induction limit generalizing decls with
  | zero => rfl
  | succ limit ih =>
      simp only [parseDecls, iterate, declsRound, bind_assoc]
      congr 1
      funext atEnd
      cases atEnd with
      | true => rfl
      | false =>
          simp only [Bool.false_eq_true, if_false, bind_assoc]
          congr 1
          funext before
          congr 1
          funext result
          cases result with
          | some decl => exact ih _
          | none =>
              simp only [bind_assoc]
              congr 1
              funext _
              congr 1
              funext now
              split
              · simp only [bind_assoc, pure_bind, ih]
              · simp only [pure_bind, ih]

/-- The loop leaves with what it has at the end of the tokens. -/
example (decls : List Decl) :
    (parseDecls 1 decls { tokens := [{ kind := .endOfFile }] }).map Prod.fst = some decls := by
  rw [parseDecls_eq, iterate]
  rfl

theorem parseLocalDecls_eq : parseLocalDecls = iterate localDeclsRound := by
  funext limit decls
  induction limit generalizing decls with
  | zero => rfl
  | succ limit ih =>
      simp only [parseLocalDecls, iterate, localDeclsRound, bind_assoc]
      congr 1
      funext tok
      cases tok.kind.isTypeSpecifier with
      | false => rfl
      | true =>
          simp only [Bool.not_true, Bool.false_eq_true, if_false, bind_assoc]
          congr 1
          funext before
          congr 1
          funext result
          cases result with
          | some decl => exact ih _
          | none =>
              simp only [bind_assoc]
              congr 1
              funext _
              congr 1
              funext now
              split
              · simp only [bind_assoc, pure_bind, ih]
              · simp only [pure_bind, ih]

theorem parseStmts_eq : parseStmts = iterate stmtsRound := by
  funext limit stmts
  induction limit generalizing stmts with
  | zero => rfl
  | succ limit ih =>
      simp only [parseStmts, iterate, stmtsRound, bind_assoc]
      congr 1
      funext closing
      congr 1
      funext atEnd
      cases closing || atEnd with
      | true => rfl
      | false =>
          simp only [Bool.false_eq_true, if_false, bind_assoc]
          congr 1
          funext before
          congr 1
          funext result
          cases result with
          | some stmt => exact ih _
          | none =>
              simp only [bind_assoc]
              congr 1
              funext _
              congr 1
              funext now
              split
              · simp only [bind_assoc, pure_bind, ih]
              · simp only [pure_bind, ih]

theorem synchronizeDeclarationFrom_eq :
    synchronizeDeclarationFrom = iterate synchronizeDeclarationRound := by
  funext limit depth
  induction limit generalizing depth with
  | zero => rfl
  | succ limit ih =>
      simp only [synchronizeDeclarationFrom, iterate, synchronizeDeclarationRound, bind_assoc]
      congr 1
      funext atEnd
      cases atEnd with
      | true => rfl
      | false =>
          simp only [Bool.false_eq_true, if_false, bind_assoc]
          congr 1
          funext tok
          split
          · simp only [pure_bind]
          · simp only [bind_assoc, pure_bind, ih]

theorem synchronizeStatementFrom_eq :
    (fun limit _ => synchronizeStatementFrom limit) = iterate synchronizeStatementRound := by
  funext limit _
  induction limit with
  | zero => rfl
  | succ limit ih =>
      simp only [synchronizeStatementFrom, iterate, synchronizeStatementRound, bind_assoc]
      congr 1
      funext atEnd
      cases atEnd with
      | true => rfl
      | false =>
          simp only [Bool.false_eq_true, if_false, bind_assoc]
          congr 1
          funext last
          split
          · simp only [pure_bind]
          · simp only [bind_assoc]
            congr 1
            funext tok
            split
            · simp only [pure_bind]
            · simp only [bind_assoc, pure_bind, ih]

theorem parseParamsFrom_eq : parseParamsFrom = iterate paramsRound := by
  funext limit params
  induction limit generalizing params with
  | zero => rfl
  | succ limit ih =>
      simp only [parseParamsFrom, iterate, paramsRound, bind_assoc]
      congr 1
      funext param
      cases param with
      | none => rfl
      | some param =>
          simp only [bind_assoc]
          congr 1
          funext comma
          cases comma with
          | false => rfl
          | true => exact ih _

theorem parseArgsFrom_eq : parseArgsFrom = iterate argsRound := by
  funext limit args
  induction limit generalizing args with
  | zero => rfl
  | succ limit ih =>
      simp only [parseArgsFrom, iterate, argsRound, bind_assoc]
      congr 1
      funext arg
      cases arg with
      | none => rfl
      | some arg =>
          simp only [bind_assoc]
          congr 1
          funext comma
          cases comma with
          | false => rfl
          | true => exact ih _

theorem parseAddops_eq : parseAddops = iterate addopsRound := by
  funext limit node
  induction limit generalizing node with
  | zero => rfl
  | succ limit ih =>
      simp only [parseAddops, iterate, addopsRound, bind_assoc]
      congr 1
      funext tok
      cases tok.kind.isAddop with
      | false => rfl
      | true =>
          simp only [Bool.not_true, Bool.false_eq_true, if_false, bind_assoc]
          congr 1
          funext op
          congr 1
          funext rhs
          cases rhs with
          | none => rfl
          | some rhs => exact ih _

theorem parseMulops_eq : parseMulops = iterate mulopsRound := by
  funext limit node
  induction limit generalizing node with
  | zero => rfl
  | succ limit ih =>
      simp only [parseMulops, iterate, mulopsRound, bind_assoc]
      congr 1
      funext tok
      cases tok.kind.isMulop with
      | false => rfl
      | true =>
          simp only [Bool.not_true, Bool.false_eq_true, if_false, bind_assoc]
          congr 1
          funext op
          congr 1
          funext rhs
          cases rhs with
          | none => rfl
          | some rhs => exact ih _

/-! The states of a run: `advance` is all that moves `pos`, and the rest of the parser
only records diagnostics. -/

inductive Reaches (start : Parser) : Parser → Prop
  | start : Reaches start start
  | advance {p : Parser} : Reaches start p → Reaches start p.advanced
  | report {p : Parser} (diags : Diagnostics) :
      Reaches start p → Reaches start { p with diags := diags }

theorem Reaches.trans {p p₁ p₂ : Parser} (h : Reaches p p₁) (h' : Reaches p₁ p₂) :
    Reaches p p₂ := by
  induction h' with
  | start => exact h
  | advance _ ih => exact ih.advance
  | report diags _ ih => exact ih.report diags

theorem Reaches.skip {p : Parser} {u w : List Token} (h : p.ahead = u ++ w) :
    Reaches p (p.skip u.length) := by
  induction u generalizing p with
  | nil => exact .start
  | cons tok u ih =>
      have hone : Reaches p (p.skip 1) := by
        rw [← advanced_of_ahead h]
        exact Reaches.start.advance
      have hnext := hone.trans (ih (ahead_cons h).2.2)
      rwa [skip_skip, Nat.add_comm] at hnext

theorem Steps.reaches {p p' : Parser} {u : List Token} (h : Steps p u p') :
    Reaches p p' := by
  have hend : p' = { p.skip u.length with diags := p'.diags } := by
    cases p'
    simp only [Parser.skip, Parser.mk.injEq]
    exact ⟨h.tokens, h.pos, trivial⟩
  rw [hend]
  exact (Reaches.skip h.ahead).report _

/-- The position is that of a token, and no `EndOfFile` stands before it. -/
def Inside (p : Parser) : Prop :=
  p.pos < p.tokens.length ∧ ∀ tok ∈ p.tokens.take p.pos, tok.kind ≠ .endOfFile

theorem Reaches.inside {start p : Parser} (h : Reaches start p) (hvalid : start.Valid)
    (hstart : start.Inside) : p.Valid ∧ p.Inside := by
  induction h with
  | start => exact ⟨hvalid, hstart⟩
  | report diags _ ih => exact ih
  | @advance p _ ih =>
      obtain ⟨hp, hlt, htake⟩ := ih
      by_cases hend : (p.peekAt 0).kind = .endOfFile
      · rw [advanced_of_atEnd hend]
        exact ⟨hp, hlt, htake⟩
      · obtain ⟨toks, hahead⟩ := ahead_of_kind hp hend
        have hvalid := hp.skip_one hahead
        rw [advanced_of_ahead hahead]
        refine ⟨hvalid, ?_, ?_⟩
        · obtain ⟨tok, hmem, -⟩ := hvalid
          have := List.length_pos_of_mem hmem
          simp only [rest, List.length_drop] at this
          omega
        · intro tok htok
          have hpeek : p.peekAt 0 = p.tokens[p.pos] := by simp [peekAt, hlt]
          have hmem : tok ∈ p.tokens.take (p.pos + 1) := htok
          rw [List.take_succ_eq_append_getElem hlt, List.mem_append,
            List.mem_singleton, ← hpeek] at hmem
          rcases hmem with hmem | rfl
          · exact htake tok hmem
          · exact hend

/-! A round either leaves its loop or consumes a token. -/

def Advances {σ ρ : Type} (p : Parser) (r : Round σ ρ) (p' : Parser) : Prop :=
  ∃ u, Steps p u p' ∧ ∀ state, r = .again state → u ≠ []

section Rounds

variable {σ ρ : Type} {p : Parser}

theorem Advances.leave {p' : Parser} {u : List Token} (h : Steps p u p') (result : ρ) :
    Advances p (.leave result : Round σ ρ) p' :=
  ⟨u, h, by simp⟩

theorem Advances.again {p' : Parser} {u : List Token} (h : Steps p u p') (hne : u ≠ [])
    (state : σ) : Advances p (.again state : Round σ ρ) p' :=
  ⟨u, h, fun _ _ => hne⟩

theorem Advances.pos {p' : Parser} {r : Round σ ρ} (h : Advances p r p') :
    ∀ state, r = .again state → p.pos < p'.pos := by
  intro state hr
  obtain ⟨u, hsteps, hne⟩ := h
  have := List.length_pos_iff.mpr (hne state hr)
  rw [hsteps.pos]
  omega

end Rounds

section Advance

variable {limit : Nat} {p : Parser} (hp : p.Valid) (hlimit : 10 * p.ahead.length + 9 ≤ limit)

include hp

theorem localDeclsRound_advances (decls : List VarDecl) :
    Ends (localDeclsRound limit decls) p (Advances p) := by
  simp only [localDeclsRound, ends_peek_then, ends_ite, ends_pure]
  refine ⟨fun _ => .leave (.refl hp) _, fun htype => ?_⟩
  have htype : (p.peekAt 0).kind.isTypeSpecifier = true := by simpa using htype
  have hahead : p.ahead ≠ [] := by
    rw [ne_eq, ahead_eq_nil hp]
    exact ne_endOfFile htype rfl
  rw [ends_position_then]
  apply (parseLocalVarDeclaration_spec p hp).bind
  intro decl p₁ h
  obtain ⟨u, h₁, hres⟩ := h
  cases decl with
  | some decl => exact (ends_pure _).mpr (.again h₁ hres.2.1 _)
  | none =>
      apply (synchronizeStatement_spec p₁ h₁.valid).bind
      intro _ p₂ h
      obtain ⟨v, h₂, -⟩ := h
      apply forced_advance (h₁.trans h₂) hahead
      intro w p₃ hne h₃ _
      exact (ends_pure _).mpr (.again h₃ hne _)

theorem synchronizeDeclarationRound_advances (depth : Nat) :
    Ends (synchronizeDeclarationRound limit depth) p (Advances p) := by
  simp only [synchronizeDeclarationRound, ends_bind, ends_atEnd, ends_ite, ends_pure,
    ends_peek, ends_advance, Token.is_eq_true]
  refine ⟨fun _ => .leave (.refl hp) _, fun hend => ⟨fun _ => .leave (.refl hp) _, ?_⟩⟩
  exact fun _ => .again (Steps.advanced hp hend) (by simp) _

theorem synchronizeStatementRound_advances (state : Unit) :
    Ends (synchronizeStatementRound limit state) p (Advances p) := by
  simp only [synchronizeStatementRound, ends_bind, ends_atEnd, ends_ite, ends_pure,
    ends_previous, ends_peek, ends_advance, Token.is_eq_true]
  refine ⟨fun _ => .leave (.refl hp) _, fun hend => ⟨fun _ => .leave (.refl hp) _,
    fun _ => ⟨fun _ => .leave (.refl hp) _, ?_⟩⟩⟩
  exact fun _ => .again (Steps.advanced hp hend) (by simp) _

theorem paramsRound_advances (params : List ParamDecl) :
    Ends (paramsRound limit params) p (Advances p) := by
  simp only [paramsRound]
  apply (parseParam_spec p hp).bind
  intro param p₁ h
  obtain ⟨u, h₁, hres⟩ := h
  cases param with
  | none => exact (ends_pure _).mpr (.leave h₁ _)
  | some param =>
      simp only [ends_match_or_stop, ends_pure]
      refine ⟨fun hcomma => ?_, fun _ => .leave h₁ _⟩
      exact .again (h₁.trans (Steps.advanced h₁.valid (by simp [hcomma]))) (by simp) _

include hlimit

theorem declsRound_advances (decls : List Decl) :
    Ends (declsRound limit decls) p (Advances p) := by
  simp only [declsRound, ends_bind, ends_atEnd, ends_ite, ends_pure, Token.is_eq_true,
    ends_position]
  refine ⟨fun _ => .leave (.refl hp) _, fun hmore => ?_⟩
  have hahead : p.ahead ≠ [] := by rwa [ne_eq, ahead_eq_nil hp]
  apply (parseDeclaration_spec limit p hp (by omega)).mono
  intro decl p₁ h
  obtain ⟨u, h₁, hres⟩ := h
  cases decl with
  | some decl => exact (ends_pure _).mpr (.again h₁ hres.1 _)
  | none =>
      apply (synchronizeDeclaration_spec p₁ h₁.valid).bind
      intro _ p₂ h
      obtain ⟨v, h₂, -⟩ := h
      apply forced_advance (h₁.trans h₂) hahead
      intro w p₃ hne h₃ _
      exact (ends_pure _).mpr (.again h₃ hne _)

theorem stmtsRound_advances (stmts : List Stmt) :
    Ends (stmtsRound limit stmts) p (Advances p) := by
  simp only [stmtsRound, ends_bind, ends_check, ends_atEnd, ends_ite, ends_pure,
    ends_position]
  refine ⟨fun _ => .leave (.refl hp) _, fun hmore => ?_⟩
  have hahead : p.ahead ≠ [] := by
    rw [ne_eq, ahead_eq_nil hp]
    intro heof
    simp [heof, Token.is] at hmore
  apply ((stmtSpecs limit).statement p hp (by omega)).mono
  intro stmt p₁ h
  obtain ⟨u, h₁, hres⟩ := h
  cases stmt with
  | some stmt => exact (ends_pure _).mpr (.again h₁ hres.1 _)
  | none =>
      apply (synchronizeStatement_spec p₁ h₁.valid).bind
      intro _ p₂ h
      obtain ⟨v, h₂, -⟩ := h
      apply forced_advance (h₁.trans h₂) hahead
      intro w p₃ hne h₃ _
      exact (ends_pure _).mpr (.again h₃ hne _)

theorem argsRound_advances (args : List Expr) :
    Ends (argsRound limit args) p (Advances p) := by
  simp only [argsRound]
  apply ((exprSpecs limit).expression p hp (by omega)).bind
  intro arg p₁ h
  obtain ⟨u, h₁, hres⟩ := h
  cases arg with
  | none => exact (ends_pure _).mpr (.leave h₁ _)
  | some arg =>
      simp only [ends_match_or_stop, ends_pure]
      refine ⟨fun hcomma => ?_, fun _ => .leave h₁ _⟩
      exact .again (h₁.trans (Steps.advanced h₁.valid (by simp [hcomma]))) (by simp) _

theorem addopsRound_advances (node : Expr) :
    Ends (addopsRound limit node) p (Advances p) := by
  simp only [addopsRound, ends_peek_then, ends_ite, ends_pure]
  refine ⟨fun _ => .leave (.refl hp) _, fun haddop => ?_⟩
  have haddop : (p.peekAt 0).kind.isAddop = true := by simpa using haddop
  have hop := Steps.advanced hp (ne_endOfFile haddop rfl)
  have hlen := hop.length_le
  rw [ends_advance_then]
  apply ((exprSpecs limit).term p.advanced hop.valid (by omega)).bind
  intro rhs p₁ h
  obtain ⟨u, h₁, hres⟩ := h
  cases rhs with
  | none => exact (ends_pure _).mpr (.leave (hop.trans h₁) _)
  | some rhs => exact (ends_pure _).mpr (.again (hop.trans h₁) (by simp) _)

theorem mulopsRound_advances (node : Expr) :
    Ends (mulopsRound limit node) p (Advances p) := by
  simp only [mulopsRound, ends_peek_then, ends_ite, ends_pure]
  refine ⟨fun _ => .leave (.refl hp) _, fun hmulop => ?_⟩
  have hmulop : (p.peekAt 0).kind.isMulop = true := by simpa using hmulop
  have hop := Steps.advanced hp (ne_endOfFile hmulop rfl)
  have hlen := hop.length_le
  rw [ends_advance_then]
  apply ((exprSpecs limit).factor p.advanced hop.valid (by omega)).bind
  intro rhs p₁ h
  obtain ⟨u, h₁, hres⟩ := h
  cases rhs with
  | none => exact (ends_pure _).mpr (.leave (hop.trans h₁) _)
  | some rhs => exact (ends_pure _).mpr (.again (hop.trans h₁) (by simp) _)

end Advance

/-- The loop repeats the round, and from `p` every round that does not leave the loop
consumes a token. -/
structure Progress {σ ρ : Type} (loop : Nat → σ → ParserM ρ)
    (round : Nat → σ → ParserM (Round σ ρ)) (p : Parser) : Prop where
  rounds : loop = iterate round
  advances : ∀ limit state, 10 * p.ahead.length + 9 ≤ limit →
    ∃ r p', round limit state p = some (r, p') ∧ Reaches p p' ∧
      ∀ next, r = .again next → p.pos < p'.pos

theorem Progress.mk' {σ ρ : Type} {loop : Nat → σ → ParserM ρ}
    {round : Nat → σ → ParserM (Round σ ρ)} {p : Parser} (hrounds : loop = iterate round)
    (hadvances : ∀ limit state, 10 * p.ahead.length + 9 ≤ limit →
      Ends (round limit state) p (Advances p)) : Progress loop round p := by
  refine ⟨hrounds, fun limit state hlimit => ?_⟩
  obtain ⟨⟨r, p'⟩, hrun, hadv⟩ := hadvances limit state hlimit
  have hpos := hadv.pos
  obtain ⟨u, hsteps, -⟩ := hadv
  exact ⟨r, p', hrun, hsteps.reaches, hpos⟩

/-! Whatever the tokens are. -/

theorem make_inside (tokens : List Token) (diags : Diagnostics) :
    (Parser.make tokens diags).Inside := by
  have hpos : (Parser.make tokens diags).pos = 0 := by
    unfold Parser.make
    dsimp only
    split
    · rfl
    · split <;> rfl
  obtain ⟨tok, hmem, -⟩ := make_valid tokens diags
  have hlength := List.length_pos_of_mem (List.mem_of_mem_drop hmem)
  refine ⟨by omega, ?_⟩
  rw [hpos]
  simp

theorem parseProgram_reaches (p : Parser) (hp : p.Valid) :
    ∃ program p', p.parseProgram = some (program, p') ∧ Reaches p p' := by
  have hlen := p.ahead_length_le
  have hrun : Ends (parseProgramWith (recursionLimit p.tokens)) p
      (fun _ p' => Reaches p p') := by
    simp only [parseProgramWith, ends_bind, ends_atEnd, ends_ite, ends_pure,
      Token.is_eq_true, ends_peek, ends_errorAt]
    refine ⟨fun _ => ((Steps.refl hp).withError _ _).reaches, fun _ => ?_⟩
    refine (parseDecls_spec _ p p [] [] (.refl hp) ?_
      (fun _ => ⟨.inl ⟨rfl, rfl⟩, by simp⟩)).mono ?_
    · unfold recursionLimit
      omega
    · intro decls p' h
      obtain ⟨u, hsteps, -⟩ := h
      exact hsteps.reaches
  obtain ⟨⟨program, p'⟩, hrun, hreach⟩ := hrun
  exact ⟨program, p', hrun, hreach⟩

theorem parseProgram_ends (tokens : List Token) (diags : Diagnostics) :
    (∃ program p', (Parser.make tokens diags).parseProgram = some (program, p') ∧
      Reaches (Parser.make tokens diags) p') ∧
    ∀ p, Reaches (Parser.make tokens diags) p → p.Inside ∧
      Progress parseDecls declsRound p ∧
      Progress parseLocalDecls localDeclsRound p ∧
      Progress parseStmts stmtsRound p ∧
      Progress synchronizeDeclarationFrom synchronizeDeclarationRound p ∧
      Progress (fun limit (_ : Unit) => synchronizeStatementFrom limit)
        synchronizeStatementRound p ∧
      Progress parseParamsFrom paramsRound p ∧
      Progress parseArgsFrom argsRound p ∧
      Progress parseAddops addopsRound p ∧
      Progress parseMulops mulopsRound p := by
  have hvalid := make_valid tokens diags
  refine ⟨parseProgram_reaches _ hvalid, fun p hreach => ?_⟩
  obtain ⟨hp, hinside⟩ := hreach.inside hvalid (make_inside tokens diags)
  exact ⟨hinside,
    .mk' parseDecls_eq fun _ state hlimit => declsRound_advances hp hlimit state,
    .mk' parseLocalDecls_eq fun _ state _ => localDeclsRound_advances hp state,
    .mk' parseStmts_eq fun _ state hlimit => stmtsRound_advances hp hlimit state,
    .mk' synchronizeDeclarationFrom_eq fun _ state _ =>
      synchronizeDeclarationRound_advances hp state,
    .mk' synchronizeStatementFrom_eq fun _ state _ =>
      synchronizeStatementRound_advances hp state,
    .mk' parseParamsFrom_eq fun _ state _ => paramsRound_advances hp state,
    .mk' parseArgsFrom_eq fun _ state hlimit => argsRound_advances hp hlimit state,
    .mk' parseAddops_eq fun _ state hlimit => addopsRound_advances hp hlimit state,
    .mk' parseMulops_eq fun _ state hlimit => mulopsRound_advances hp hlimit state⟩

end Parser

end CMinus
