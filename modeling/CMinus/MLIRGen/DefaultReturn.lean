import CMinus.MLIRGen.Keeps
import CMinus.MLIRGen.Returns
import CMinus.Resolved

namespace CMinus

namespace MLIRGenerator

open SSA MLIR SemanticAnalyzer

/-! The default return of a function in the std flavor: its block and its position there,
in the function that is emitted next. -/

def defaultReturn (options : MLIRGenOptions) (decl : FunDecl) (g : MLIRGenerator) :
    Option (Nat × Nat) :=
  let filled := (emitBody .std options decl g).2
  if filled.builder.blockOpen then
    some (filled.builder.cur, filled.builder.position + (signatureOf decl).results.length)
  else none

/-- At that position the function returns nothing, or the constant 0. -/
def ReturnsDefault (function : FuncOp) (ops : List Op) (position : Nat) : Prop :=
  if function.results = [] then ops[position]? = some (.ret none)
  else ∃ r, ops[position - 1]? = some (.constant r 0) ∧
    ops[position]? = some (.ret (some (.reg r)))

variable {g g' g'' : MLIRGenerator} {entry : Nat}

/-! One function. -/

/-- The generator at the start of a body. -/
def opened (decl : FunDecl) (g : MLIRGenerator) : MLIRGenerator :=
  { g with
    body := g.body ++ [.func (signatureOf decl)]
    function := some (signatureOf decl)
    builder := (({ g.builder with layout := [] } : Builder Op).newBlock.attach
      g.builder.nextBlock).moveTo g.builder.nextBlock }

theorem alive_opened (decl : FunDecl) (h : g.builder.Tidy) :
    (opened decl g).builder.Alive g.builder.nextBlock := by
  have hempty : g.builder.code g.builder.nextBlock = [] := h.unborn _ le_rfl
  have hwriting := h.newBlock.writing (Nat.lt_succ_self g.builder.nextBlock) hempty
  constructor
  · exact ⟨⟨hwriting.unborn, hwriting.targets⟩, hwriting.born, hwriting.isOpen⟩
  · exact Nat.lt_succ_self g.builder.nextBlock
  · constructor
    · intro b hb
      change b ∈ [g.builder.nextBlock] at hb
      rw [List.mem_singleton.mp hb]
      exact Reachable.refl _ _
    · intro b hb hcode
      exact absurd (h.unborn b hb) hcode
    · exact List.mem_singleton_self _

theorem leads_emitParams (params : List ParamDecl) :
    ∀ index : Nat, Leads entry true (emitParams index params) := by
  induction params with
  | nil => exact fun _ => leads_pure ()
  | cons param params ih =>
      intro index
      have hset : ∀ (symbol : Symbol) (slot : TypedValue),
          Leads entry true (setSlot symbol slot) := fun _ _ => leads_of_builder fun _ => rfl
      unfold emitParams
      cases param.symbol with
      | none => exact ih (index + 1)
      | some symbol =>
          dsimp only
          split
          · exact (hset _ _).bind fun _ => ih (index + 1)
          · have hslot : Leads entry true (define (storageType symbol)
                fun r => .alloca r (storageType symbol)) := leads_define _ fun _ => rfl
            apply hslot.bind
            intro slot
            have hstore : Leads entry true (emit (.store (.arg index) slot.operand [])) :=
              leads_emit rfl
            apply hstore.bind
            intro _
            exact (hset _ _).bind fun _ => ih (index + 1)

theorem leads_emitLocals (decls : List VarDecl) : Leads entry true (emitLocals decls) := by
  induction decls with
  | nil => exact leads_pure ()
  | cons decl decls ih =>
      unfold emitLocals
      cases decl.symbol with
      | none => exact ih
      | some symbol =>
          have hslot : Leads entry true (define (storageType symbol)
              fun r => .alloca r (storageType symbol)) := leads_define _ fun _ => rfl
          apply hslot.bind
          intro slot
          have hset : Leads entry true (setSlot symbol slot) := leads_of_builder fun _ => rfl
          exact hset.bind fun _ => ih

theorem leads_emitDefaultReturn (function : FuncOp) :
    Leads entry false (emitDefaultReturn .std function) := by
  unfold emitDefaultReturn
  split
  · exact leads_createReturn noValue
  · exact (leads_int32 0).bind fun v => leads_createReturn v

/-- Whether the body leaves its last block open is a matter of `alwaysReturns`. -/
theorem steers_emitBody (options : MLIRGenOptions) (decl : FunDecl) (h : g.builder.Tidy) :
    Builder.Steers g.builder.nextBlock (!alwaysReturns decl.body.toStmt)
      (opened decl g).builder (emitBody .std options decl g).2.builder := by
  have hleads : Leads g.builder.nextBlock (!alwaysReturns decl.body.toStmt) (do
      emitParams 0 decl.params
      emitLocals decl.body.toStmt.locals
      emitCompound .std options decl.body.stmts) := by
    apply (leads_emitParams decl.params 0).bind
    intro _
    apply (leads_emitLocals _).bind
    intro _
    exact leads_emitCompound options decl.body.stmts
  exact hleads.steers (opened decl g) (alive_opened decl h)

theorem body_emitBody (options : MLIRGenOptions) (decl : FunDecl) (g : MLIRGenerator) :
    (emitBody .std options decl g).2.body = g.body ++ [.func (signatureOf decl)] := by
  have hkeeps : Keeps (do
      emitParams 0 decl.params
      emitLocals decl.body.toStmt.locals
      emitCompound .std options decl.body.stmts) :=
    (keeps_emitParams decl.params 0).before
      ((keeps_emitLocals _).before (keeps_emitCompound options decl.body.stmts))
  exact hkeeps.body (opened decl g)

/-- The generator with the body and the default return, if there is one. -/
def filled (options : MLIRGenOptions) (decl : FunDecl) (g : MLIRGenerator) : MLIRGenerator :=
  (unlessClosed (emitDefaultReturn .std (signatureOf decl)) (emitBody .std options decl g).2).2

theorem builder_emitFunction (options : MLIRGenOptions) (decl : FunDecl) (g : MLIRGenerator) :
    (emitFunction .std options decl g).2.builder = (filled options decl g).builder := rfl

theorem body_emitFunction (options : MLIRGenOptions) (decl : FunDecl) (g : MLIRGenerator) :
    (emitFunction .std options decl g).2.body =
      (finishFunction (signatureOf decl)
        { filled options decl g with body := g.body ++ [.func (signatureOf decl)] }).2.body := by
  have hbody : (filled options decl g).body = g.body ++ [.func (signatureOf decl)] := by
    rw [← body_emitBody options]
    exact (keeps_emitDefaultReturn _).unlessClosed.body _
  rw [← hbody]
  rfl

theorem steers_emitFunction (options : MLIRGenOptions) (decl : FunDecl) (h : g.builder.Tidy) :
    Builder.Steers g.builder.nextBlock false (opened decl g).builder
      (emitFunction .std options decl g).2.builder := by
  have hbody := steers_emitBody options decl h
  have halive := alive_opened decl h
  have hsteers : Builder.Steers g.builder.nextBlock (!alwaysReturns decl.body.toStmt && false)
      (opened decl g).builder (filled options decl g).builder := by
    unfold filled
    change Builder.Steers _ _ _ ((if (emitBody .std options decl g).2.builder.blockOpen = true
      then emitDefaultReturn .std (signatureOf decl) else pure PUnit.unit : MLIRGenM Unit)
        (emitBody .std options decl g).2).2.builder
    rw [hbody.blockOpen]
    apply hbody.andThen
    · intro hthrough
      rw [hthrough] at hbody
      rw [hthrough, if_pos rfl]
      exact (leads_emitDefaultReturn _).steers _ (hbody.alive halive)
    · intro hthrough
      rw [hthrough, if_neg Bool.false_ne_true]
      rfl
  rwa [Bool.and_false] at hsteers

/-- What the module has of the function once it is emitted. -/
structure Ends (options : MLIRGenOptions) (decl : FunDecl) (g g' : MLIRGenerator)
    (f : FuncOp) : Prop where
  listed : .func f ∈ g'.body
  signature : f = { signatureOf decl with blocks := f.blocks }
  decided : alwaysReturns decl.body.toStmt = false ↔
    ∃ b k, defaultReturn options decl g = some (b, k)
  born : ∀ b k, defaultReturn options decl g = some (b, k) → b < g'.builder.nextBlock
  place : ∀ b k, defaultReturn options decl g = some (b, k) →
    b ∈ f.blocks ∧ ReturnsDefault (signatureOf decl) (g'.builder.code b) k

theorem returnsDefault_append (decl : FunDecl) (g : MLIRGenerator) :
    ReturnsDefault (signatureOf decl)
      ((emitDefaultReturn .std (signatureOf decl) g).2.builder.code g.builder.cur)
      (g.builder.position + (signatureOf decl).results.length) := by
  have hresults : (signatureOf decl).results = [] ∨ (signatureOf decl).results = [.i32] := by
    unfold signatureOf
    dsimp only
    split
    · exact .inr rfl
    · exact .inl rfl
  unfold ReturnsDefault emitDefaultReturn
  rcases hresults with hresults | hresults
  · rw [hresults]
    exact g.builder.appended (.ret none)
  · rw [hresults]
    let s := g.builder.define fun r => .constant r 0
    refine ⟨g.builder.nextReg, ?_, ?_⟩
    · have hfirst := g.builder.appended (.constant g.builder.nextReg 0)
      have hgrows := Builder.Grows.append 0 s (.ret (some (.reg g.builder.nextReg)))
      exact Builder.Within.at (s := s) hgrows.code hfirst
    · have hlast := s.appended (.ret (some (.reg g.builder.nextReg)))
      have hposition : s.position = g.builder.position + 1 := g.builder.position_define _
      rw [hposition] at hlast
      exact hlast

theorem ends_emitFunction (options : MLIRGenOptions) (decl : FunDecl) (h : g.builder.Tidy) :
    ∃ f, Ends options decl g (emitFunction .std options decl g).2 f := by
  have hsteers := steers_emitBody options decl h
  have hfunction := steers_emitFunction options decl h
  let body := (emitBody .std options decl g).2
  have hplace : defaultReturn options decl g = if (!alwaysReturns decl.body.toStmt) = true then
      some (body.builder.cur, body.builder.position + (signatureOf decl).results.length)
      else none := by
    rw [← hsteers.blockOpen]
    rfl
  have hended : ∀ b k, defaultReturn options decl g = some (b, k) →
      (emitFunction .std options decl g).2.builder =
        (emitDefaultReturn .std (signatureOf decl) body).2.builder ∧ b = body.builder.cur ∧
        k = body.builder.position + (signatureOf decl).results.length := by
    intro b k hsome
    rw [hplace] at hsome
    split at hsome
    · next hopen =>
        obtain ⟨rfl, rfl⟩ := hsome
        refine ⟨?_, rfl, rfl⟩
        rw [builder_emitFunction]
        unfold filled
        change ((if body.builder.blockOpen = true
          then emitDefaultReturn .std (signatureOf decl) else pure PUnit.unit : MLIRGenM Unit)
            body).2.builder = _
        rw [hsteers.blockOpen, if_pos hopen]
    · cases hsome
  have hcur : (emitDefaultReturn .std (signatureOf decl) body).2.builder.cur =
      body.builder.cur := by
    unfold emitDefaultReturn
    split <;> rfl
  refine ⟨{ signatureOf decl with blocks := (filled options decl g).builder.layout }, ?_⟩
  constructor
  · rw [body_emitFunction]
    apply List.mem_map.mpr
    refine ⟨.func (signatureOf decl), List.mem_append_right _ (List.mem_singleton_self _), ?_⟩
    exact if_pos rfl
  · rfl
  · rw [hplace]
    cases alwaysReturns decl.body.toStmt with
    | true => simp
    | false => simp
  · intro b k hsome
    obtain ⟨hbuilder, rfl, -⟩ := hended b k hsome
    rw [hbuilder, ← hcur, ← hbuilder]
    exact hfunction.flow.born
  · intro b k hsome
    obtain ⟨hbuilder, rfl, rfl⟩ := hended b k hsome
    constructor
    · change body.builder.cur ∈ (filled options decl g).builder.layout
      rw [← builder_emitFunction, ← hcur, ← hbuilder]
      exact hfunction.live.current
    · rw [hbuilder]
      exact returnsDefault_append decl body

/-! The declarations after it leave the function as it is. -/

structure Stays (names : List String) (g g' : MLIRGenerator) : Prop where
  tidy : g'.builder.Tidy
  functions : ∀ f, .func f ∈ g.body → f.name ∉ names → .func f ∈ g'.body
  blocks : g.builder.nextBlock ≤ g'.builder.nextBlock
  code : ∀ b, b < g.builder.nextBlock → g'.builder.code b = g.builder.code b

theorem Stays.append {names names' : List String} (h : Stays names g g')
    (h' : Stays names' g' g'') : Stays (names ++ names') g g'' := by
  constructor
  · exact h'.tidy
  · intro f hf hname
    rw [List.mem_append, not_or] at hname
    exact h'.functions f (h.functions f hf hname.1) hname.2
  · exact h.blocks.trans h'.blocks
  · intro b hb
    rw [h'.code b (hb.trans_le h.blocks), h.code b hb]

theorem stays_emitGlobal (decl : VarDecl) (h : g.builder.Tidy) :
    Stays [decl.name] g (emitGlobal decl g).2 := by
  unfold emitGlobal
  cases decl.symbol with
  | none => exact ⟨h, fun _ hf _ => hf, le_rfl, fun _ _ => rfl⟩
  | some symbol =>
      exact ⟨h, fun _ hf _ => List.mem_append_left _ hf, le_rfl, fun _ _ => rfl⟩

theorem stays_emitFunction (options : MLIRGenOptions) (decl : FunDecl) (h : g.builder.Tidy) :
    Stays [decl.name] g (emitFunction .std options decl g).2 := by
  have hsteers := steers_emitFunction options decl h
  have hgrows := hsteers.flow.grows
  constructor
  · exact hsteers.flow.tidy
  · intro f hf hname
    rw [body_emitFunction]
    apply List.mem_map.mpr
    refine ⟨.func f, List.mem_append_left _ hf, ?_⟩
    exact if_neg (List.mem_singleton.not.mp hname)
  · exact (Nat.le_succ _).trans hgrows.blocks
  · intro b hb
    exact hgrows.frame b (Nat.lt_succ_of_lt hb) (Nat.ne_of_lt hb)

theorem stays_emitDecls (options : MLIRGenOptions) (decls : List Decl) :
    ∀ {g : MLIRGenerator}, g.builder.Tidy →
      Stays (decls.map Decl.name) g (emitDecls .std options decls g).2 := by
  induction decls with
  | nil =>
      intro g h
      exact ⟨h, fun _ hf _ => hf, le_rfl, fun _ _ => rfl⟩
  | cons decl decls ih =>
      intro g h
      cases decl with
      | var decl =>
          have hfirst := stays_emitGlobal decl h
          exact hfirst.append (ih hfirst.tidy)
      | «fun» decl =>
          have hfirst := stays_emitFunction options decl h
          exact hfirst.append (ih hfirst.tidy)

theorem emitDecls_append (options : MLIRGenOptions) (decls later : List Decl)
    (g : MLIRGenerator) :
    (emitDecls .std options (decls ++ later) g).2 =
      (emitDecls .std options later (emitDecls .std options decls g).2).2 := by
  induction decls generalizing g with
  | nil => rfl
  | cons decl decls ih =>
      cases decl with
      | var decl =>
          change (emitDecls .std options (decls ++ later) (emitGlobal decl g).2).2 = _
          rw [ih]
          rfl
      | «fun» decl =>
          change (emitDecls .std options (decls ++ later) (emitFunction .std options decl g).2).2
            = _
          rw [ih]
          rfl

theorem Ends.later {options : MLIRGenOptions} {decl : FunDecl} {f : FuncOp}
    {names : List String} (h : Ends options decl g g' f) (hstays : Stays names g' g'')
    (hname : decl.name ∉ names) : Ends options decl g g'' f := by
  constructor
  · apply hstays.functions f h.listed
    rw [h.signature]
    exact hname
  · exact h.signature
  · exact h.decided
  · intro b k hsome
    exact (h.born b k hsome).trans_le hstays.blocks
  · intro b k hsome
    rw [hstays.code b (h.born b k hsome)]
    exact h.place b k hsome

/-- The generator before a declaration. -/
def emitBefore (options : MLIRGenOptions) (before : List Decl) : MLIRGenerator :=
  (emitDecls .std options before (declareBuiltins options {}).2).2

/-- The function of a declaration, in the generator at the end of the program. -/
theorem ends_emitProgram (options : MLIRGenOptions) {program : Program}
    (h : program.Resolved) {before after : List Decl} {decl : FunDecl}
    (hsplit : program.decls = before ++ .fun decl :: after) :
    ∃ f, Ends options decl (emitBefore options before) (emitProgram .std options program) f := by
  have hbuiltins : (declareBuiltins options {}).2.builder.Tidy := by
    have hbuilder : (declareBuiltins options {}).2.builder = {} := by
      unfold declareBuiltins
      cases options.indexChecks with
      | true => rfl
      | false => rfl
    rw [hbuilder]
    exact Builder.Tidy.initial
  have htidy := (stays_emitDecls options before hbuiltins).tidy
  obtain ⟨f, hends⟩ := ends_emitFunction options decl htidy
  have hnames := h.distinct
  rw [hsplit, List.map_append, List.map_cons] at hnames
  have hfresh : decl.name ∉ after.map Decl.name :=
    (List.nodup_cons.mp (List.nodup_append.mp hnames).2.1).1
  have hlater := stays_emitDecls options after (stays_emitFunction options decl htidy).tidy
  have hend : emitProgram .std options program =
      (emitDecls .std options after
        (emitFunction .std options decl (emitBefore options before)).2).2 := by
    unfold emitProgram emitBefore
    rw [hsplit]
    change (emitDecls .std options (before ++ .fun decl :: after)
      (declareBuiltins options {}).2).2 = _
    rw [emitDecls_append]
    rfl
  rw [hend]
  exact ⟨f, hends.later hlater hfresh⟩

end MLIRGenerator

end CMinus
