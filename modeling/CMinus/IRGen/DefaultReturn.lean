import CMinus.IRGen.Returns
import CMinus.IRGen.Subscripts

namespace CMinus

namespace IRGenerator

open SSA IR SemanticAnalyzer

/-! The default return of a function stands where its body leaves off, if the block there
is still open. -/

def emitBody (options : IRGenOptions) (decl : FunDecl) (function : Function) : IRGenM Unit := do
  startFunction function
  let entry ← createBlock
  setInsertPoint entry
  emitParams 0 decl.params
  emitLocals (collectLocals decl.body.toStmt)
  emitCompound options decl.body.stmts

def defaultValue (function : Function) : Option Operand :=
  if function.returnType = .void then none else some (int32 0)

/-- Its block and its position there, in the function that is emitted next. -/
def defaultReturn (options : IRGenOptions) (decl : FunDecl) (g : IRGenerator) :
    Option (Nat × Nat) :=
  match decl.symbol with
  | none => none
  | some symbol =>
      let called := functionFor symbol g
      let filled := (emitBody options decl called.1 called.2).2
      if filled.builder.blockOpen then some (filled.builder.cur, filled.builder.position)
      else none

theorem emitFunction_eq (options : IRGenOptions) {decl : FunDecl} {symbol : Symbol}
    (h : decl.symbol = some symbol) :
    emitFunction options decl = (do
      let function ← functionFor symbol
      emitBody options decl function
      unlessClosed (emit (.ret (defaultValue function)))
      finishFunction function) := by
  have hret : ∀ function : Function, (if function.returnType = .void then emit (.ret none)
      else emit (.ret (some (int32 0)))) = emit (.ret (defaultValue function)) := by
    intro function
    unfold defaultValue
    split <;> rfl
  unfold emitFunction
  rw [h]
  simp only [hret]
  rfl

section body

variable {entry : Nat}

theorem flows_emitParams (params : List ParamDecl) :
    ∀ index : Nat, Flows entry true (emitParams index params) := by
  induction params with
  | nil => exact fun _ => flows_pure ()
  | cons param params ih =>
      intro index
      unfold emitParams
      cases param.symbol with
      | none => exact ih (index + 1)
      | some symbol =>
          have hslot : Flows entry true (createAlloca (storageType symbol)) :=
            flows_define fun _ => rfl
          apply hslot.bind
          intro slot
          apply (flows_emit (i := .store (.arg index) slot) rfl).bind
          intro _
          have hset : Flows entry true (setAddress symbol slot) := flows_of_builder fun _ => rfl
          exact hset.bind fun _ => ih (index + 1)

theorem flows_emitLocals (decls : List VarDecl) : Flows entry true (emitLocals decls) := by
  induction decls with
  | nil => exact flows_pure ()
  | cons decl decls ih =>
      unfold emitLocals
      cases decl.symbol with
      | none => exact ih
      | some symbol =>
          have hslot : Flows entry true (createAlloca (storageType symbol)) :=
            flows_define fun _ => rfl
          apply hslot.bind
          intro slot
          have hset : Flows entry true (setAddress symbol slot) := flows_of_builder fun _ => rfl
          exact hset.bind fun _ => ih

theorem opened_writing {g : IRGenerator} (h : g.builder.Tidy) (function : Function) :
    (opened g function).builder.Writing := by
  have hempty : g.builder.code g.builder.nextBlock = [] := h.unborn _ le_rfl
  have hwriting := h.newBlock.writing (Nat.lt_succ_self g.builder.nextBlock) hempty
  exact ⟨⟨hwriting.unborn, hwriting.targets⟩, hwriting.born, hwriting.isOpen⟩

/-- The entry block is reachable, and what the body makes of it is a matter of
`alwaysReturns`. -/
theorem flow_emitBody (options : IRGenOptions) (decl : FunDecl) (function : Function)
    {g : IRGenerator} (h : g.builder.Tidy) :
    Builder.Flow g.builder.nextBlock (!alwaysReturns decl.body.toStmt)
      (opened g function).builder (emitBody options decl function g).2.builder := by
  have hflows : Flows g.builder.nextBlock (!alwaysReturns decl.body.toStmt) (do
      emitParams 0 decl.params
      emitLocals (collectLocals decl.body.toStmt)
      emitCompound options decl.body.stmts) := by
    apply (flows_emitParams decl.params 0).bind
    intro _
    apply (flows_emitLocals _).bind
    intro _
    exact flows_emitCompound options decl.body.stmts
  exact hflows.flow (opened g function) (opened_writing h function)
    (Nat.lt_succ_self g.builder.nextBlock)

end body

/-! One function. -/

variable {p : Plan} {all : List Symbol} {decls : List Decl} {storage globals : List Symbol}
  {done : List String} {K : Nat → Set Fact} {g g' : IRGenerator}

theorem Built.tidy (h : Built p storage globals done K g) : g.builder.Tidy := by
  constructor
  · exact h.valid.unborn
  · intro b i hi c hc
    by_cases hb : b < g.builder.nextBlock
    · obtain ⟨f, hf, hmem⟩ := h.housed b hb
      obtain ⟨entry, hcomplete⟩ := h.complete f hf (List.ne_nil_of_mem hmem)
      exact hcomplete.born c (hcomplete.branches b hmem i hi c hc).1
    · rw [h.valid.unborn b (Nat.le_of_not_lt hb)] at hi
      cases hi

/-- What the module has of the function once it is emitted. -/
structure Ends (options : IRGenOptions) (decl : FunDecl) (g g' : IRGenerator) (f : Function) :
    Prop where
  listed : f ∈ g'.functions
  name : f.name = decl.name
  head : f.blocks.head? = some g.builder.nextBlock
  reached : alwaysReturns decl.body.toStmt = false ↔ ∃ b k,
    defaultReturn options decl g = some (b, k) ∧ g'.builder.Reaches g.builder.nextBlock b
  place : ∀ b k, defaultReturn options decl g = some (b, k) →
    b ∈ f.blocks ∧ (g'.builder.code b)[k]? = some (.ret (defaultValue f))

/-- What emission makes of the builder, with the function that was called for. -/
theorem emitFunction_builder (options : IRGenOptions) {decl : FunDecl} {symbol : Symbol}
    (h : decl.symbol = some symbol) (g : IRGenerator) :
    (emitFunction options decl g).2.builder =
      (emitBody options decl (functionFor symbol g).1
        (functionFor symbol g).2).2.builder.closeWith
          (.ret (defaultValue (functionFor symbol g).1)) := by
  rw [emitFunction_eq options h]
  change (unlessClosed (emit _) _).2.builder = _
  rw [unlessClosed_emit]

theorem Midway.ends (hfits : p.Fits all) {decl : FunDecl}
    (h : Midway p all (.fun decl :: decls) storage globals done K g) :
    ∃ f, Ends p.options decl g (IRGenerator.emitFunction p.options decl g).2 f := by
  have hrun := Midway.emitFunction hfits h
  unfold Run at hrun
  obtain ⟨-, hemitted⟩ := hrun
  obtain ⟨visible, symbol, slots, K', g2, function, hfilled, hsymbol, hname, hmem, hfunction,
    hfinish, -⟩ := hemitted.filled
  have hproper : (p.scene visible (signatureOf symbol) g.builder.nextBlock).Proper :=
    hfilled.proper
  have hbuilder := emitFunction_builder p.options hsymbol g
  have hcode : g2.builder = (IRGenerator.emitFunction p.options decl g).2.builder := by
    rw [hfinish]
    rfl
  -- the function as it is called for
  have hcalled := enters_functionFor hproper h.built.declared hmem
  unfold Run at hcalled
  have hcallee := hcalled.callee
  have hsame : (functionFor symbol g).2.builder = g.builder := by
    obtain ⟨new, keys, -, heq⟩ := hcalled.adds
    rw [heq]
  let body := (emitBody p.options decl (functionFor symbol g).1 (functionFor symbol g).2).2
  have hplace : defaultReturn p.options decl g =
      if body.builder.blockOpen then some (body.builder.cur, body.builder.position)
      else none := by
    unfold defaultReturn
    rw [hsymbol]
  have hflow : Builder.Flow g.builder.nextBlock (!alwaysReturns decl.body.toStmt)
      (opened (functionFor symbol g).2 (functionFor symbol g).1).builder body.builder := by
    have htidy := h.built.tidy
    rw [← hsame] at htidy
    have hflow := flow_emitBody p.options decl (functionFor symbol g).1 htidy
    rwa [hsame] at hflow
  -- the function as it is listed in the end
  obtain ⟨f, hf, hlisted⟩ := hfilled.listed
  have hsig := hfilled.shut.declared.signature hproper hf hmem hlisted
  have hblocks : (withBody symbol.name g2.builder.layout f).blocks = g2.builder.layout := by
    unfold withBody
    rw [if_pos hlisted]
  have hvalue : defaultValue (withBody symbol.name g2.builder.layout f) =
      defaultValue (functionFor symbol g).1 := by
    have hreturn : (withBody symbol.name g2.builder.layout f).returnType =
        (functionFor symbol g).1.returnType := by
      have hsig' := (withBody_signature symbol.name g2.builder.layout f).trans hsig
      exact (congrArg Function.returnType hsig').trans hcallee.returnType.symm
    unfold defaultValue
    rw [hreturn]
  have hreach : ∀ b, (IRGenerator.emitFunction p.options decl g).2.builder.Reaches
      g.builder.nextBlock b ↔ body.builder.Reaches g.builder.nextBlock b := by
    intro b
    rw [hbuilder]
    exact Builder.reaches_closeWith rfl b
  have hentry : (opened (functionFor symbol g).2 (functionFor symbol g).1).builder.Reaches
      g.builder.nextBlock
      (opened (functionFor symbol g).2 (functionFor symbol g).1).builder.cur := by
    change Builder.Reaches _ _ (functionFor symbol g).2.builder.nextBlock
    rw [hsame]
    exact Reachable.refl _ _
  have hfunctions : (IRGenerator.emitFunction p.options decl g).2.functions =
      g2.functions.map (withBody symbol.name g2.builder.layout) := by
    rw [hfinish]
    unfold finishFunction withBody
    rw [hfunction]
  refine ⟨withBody symbol.name g2.builder.layout f, ?_⟩
  constructor
  · rw [hfunctions]
    exact List.mem_map_of_mem hf
  · rw [withBody_name, hlisted, hname]
  · rw [hblocks]
    exact hfilled.shut.first
  · rw [hplace]
    rcases hflow.exit with ⟨hopen, hcur⟩ | ⟨hclosed, hreturns⟩
    · rw [Builder.blockOpen_of_isOpen hopen, if_pos rfl]
      have hthrough : alwaysReturns decl.body.toStmt = false ↔
          body.builder.Reaches g.builder.nextBlock body.builder.cur := by
        rw [hcur]
        simp [hentry]
      rw [hthrough]
      constructor
      · intro hlive
        exact ⟨_, _, rfl, (hreach _).mpr hlive⟩
      · intro hlive
        obtain ⟨b, k, hsome, hb⟩ := hlive
        cases hsome
        exact (hreach _).mp hb
    · rw [Builder.blockOpen_of_isClosed hclosed]
      simpa using hreturns
  · intro b k hsome
    rw [hplace] at hsome
    split at hsome
    · next hopen =>
        cases hsome
        have hclose : (IRGenerator.emitFunction p.options decl g).2.builder =
            body.builder.append (.ret (defaultValue (functionFor symbol g).1)) := by
          rw [hbuilder]
          exact if_pos hopen
        constructor
        · rw [hblocks]
          have hle : g.builder.nextBlock ≤ body.builder.cur := by
            rcases hflow.grows.cur with hcur | hcur
            · rw [hcur]
              exact hsame ▸ le_rfl
            · have hlater : (functionFor symbol g).2.builder.nextBlock + 1 ≤
                  body.builder.cur := hcur
              rw [hsame] at hlater
              exact Nat.le_of_succ_le hlater
          have hlt : body.builder.cur < g2.builder.nextBlock := by
            rw [hcode, hclose]
            exact hflow.born
          exact (hfilled.shut.laid _ hle hlt).resolve_left (Set.notMem_empty _)
        · rw [hclose, hvalue]
          exact body.builder.appended _
    · cases hsome

/-! The declarations after it leave the function as it is. -/

structure Stays (g g' : IRGenerator) : Prop where
  functions : ∀ f ∈ g.functions, f.blocks ≠ [] → f ∈ g'.functions
  blocks : g.builder.nextBlock ≤ g'.builder.nextBlock
  code : ∀ b, b < g.builder.nextBlock → g'.builder.code b = g.builder.code b

theorem Stays.trans {g'' : IRGenerator} (h : Stays g g') (h' : Stays g' g'') : Stays g g'' := by
  constructor
  · exact fun f hf hblocks => h'.functions f (h.functions f hf hblocks) hblocks
  · exact h.blocks.trans h'.blocks
  · intro b hb
    rw [h'.code b (hb.trans_le h.blocks), h.code b hb]

theorem stays_emitGlobal (decl : VarDecl) (g : IRGenerator) :
    Stays g (emitGlobal decl g).2 := by
  unfold emitGlobal
  cases decl.symbol with
  | none => exact ⟨fun _ hf _ => hf, le_rfl, fun _ _ => rfl⟩
  | some symbol => exact ⟨fun _ hf _ => hf, le_rfl, fun _ _ => rfl⟩

theorem Emitted.stays {decl : FunDecl} (h : Emitted p decl K g g') : Stays g g' := by
  obtain ⟨visible, symbol, slots, K', g2, function, hfilled, -, -, -, hfunction, rfl, hothers⟩ :=
    h.filled
  constructor
  · intro f hf hblocks
    have hmem : f ∈ g2.functions := hfilled.mem_old hf
    have hsame : withBody symbol.name g2.builder.layout f = f :=
      withBody_of_ne (hothers f hf hblocks)
    unfold finishFunction
    rw [hfunction]
    exact List.mem_map.mpr ⟨f, hmem, hsame⟩
  · exact Nat.le_of_lt hfilled.blocks
  · exact hfilled.code

theorem Midway.stays (hfits : p.Fits all) (decls : List Decl) :
    ∀ {storage globals : List Symbol} {done : List String} {K : Nat → Set Fact}
      {g : IRGenerator}, Midway p all decls storage globals done K g →
      Stays g (IRGenerator.emitDecls p.options decls g).2 := by
  induction decls with
  | nil =>
      intro storage globals done K g h
      exact ⟨fun _ hf _ => hf, le_rfl, fun _ _ => rfl⟩
  | cons decl decls ih =>
      intro storage globals done K g h
      cases decl with
      | var decl =>
          have hrun := Midway.emitGlobal h
          unfold Run at hrun
          obtain ⟨storage', globals', done', K', hnext, -⟩ := hrun
          have hlater := ih hnext
          unfold IRGenerator.emitDecls
          exact (stays_emitGlobal decl g).trans hlater
      | «fun» decl =>
          have hrun := Midway.emitFunction hfits h
          unfold Run at hrun
          obtain ⟨⟨storage', globals', done', K', hnext, -⟩, hemitted⟩ := hrun
          have hlater := ih hnext
          unfold IRGenerator.emitDecls
          exact hemitted.stays.trans hlater

theorem emitDecls_append (options : IRGenOptions) (decls later : List Decl) (g : IRGenerator) :
    (emitDecls options (decls ++ later) g).2 =
      (emitDecls options later (emitDecls options decls g).2).2 := by
  induction decls generalizing g with
  | nil => rfl
  | cons decl decls ih =>
      cases decl with
      | var decl =>
          change (emitDecls options (decls ++ later) (emitGlobal decl g).2).2 = _
          rw [ih]
          rfl
      | «fun» decl =>
          change (emitDecls options (decls ++ later) (emitFunction options decl g).2).2 = _
          rw [ih]
          rfl

theorem Ends.later {options : IRGenOptions} {decl : FunDecl} {f : Function} {g'' : IRGenerator}
    (h : Ends options decl g g' f) (htidy : g'.builder.Tidy) (hborn : ∀ b ∈ f.blocks,
      b < g'.builder.nextBlock) (hstays : Stays g' g'') : Ends options decl g g'' f := by
  have hentry : g.builder.nextBlock ∈ f.blocks := List.mem_of_mem_head? h.head
  constructor
  · exact hstays.functions f h.listed (List.ne_nil_of_mem hentry)
  · exact h.name
  · exact h.head
  · rw [h.reached]
    have hsame := htidy.reaches_later (t := g''.builder) (hborn _ hentry) hstays.code
    simp only [hsame]
  · intro b k hplace
    obtain ⟨hb, hi⟩ := h.place b k hplace
    rw [hstays.code b (hborn b hb)]
    exact ⟨hb, hi⟩

/-- The function of a declaration, in the generator at the end of the program. -/
theorem ends_emitProgram (options : IRGenOptions) {program : Program} (h : Emittable program)
    {before after : List Decl} {decl : FunDecl}
    (hsplit : program.decls = before ++ .fun decl :: after) :
    ∃ f, Ends options decl (emitDecls options before {}).2 (emitProgram options program) f := by
  have hfits := fits_planOf options h
  have hstart : Midway (planOf options program) program.symbols (before ++ .fun decl :: after)
      builtinSymbols builtinSymbols [] (fun _ => ∅) {} := by
    constructor
    · exact built_empty _
    · rw [← hsplit]
      exact h.resolved.decls
    · rw [← hsplit]
      rfl
    · exact List.Sublist.refl _
    · constructor
      · intro name hmem
        cases hmem
      · exact fun symbol hmem _ => .inl hmem
  have hrun := hstart.emitDecls hfits before
  unfold Run at hrun
  obtain ⟨storage, globals, done, K, hmidway, -⟩ := hrun
  obtain ⟨f, hends⟩ := hmidway.ends hfits
  have hnext := Midway.emitFunction hfits hmidway
  unfold Run at hnext
  obtain ⟨⟨storage', globals', done', K', hmidway', -⟩, -⟩ := hnext
  have hborn : ∀ b ∈ f.blocks, b <
      (emitFunction options decl (emitDecls options before {}).2).2.builder.nextBlock := by
    intro b hb
    obtain ⟨entry, hcomplete⟩ :=
      hmidway'.built.complete f hends.listed (List.ne_nil_of_mem hb)
    exact hcomplete.born b hb
  have hend : emitProgram options program =
      (emitDecls options after
        (emitFunction options decl (emitDecls options before {}).2).2).2 := by
    unfold emitProgram
    rw [hsplit, emitDecls_append]
    rfl
  rw [hend]
  exact ⟨f, hends.later hmidway'.built.tidy hborn (Midway.stays hfits after hmidway')⟩

/-! Runs of the module. -/

theorem jumps : Machine.Jumps Instr := by
  constructor
  intro M mem i env m b h
  rcases exec_jump h with rfl | ⟨cond, ifTrue, ifFalse, c, rfl, -, hb⟩
  · exact List.mem_singleton_self b
  · rw [hb]
    cases c with
    | true => exact List.mem_cons_self
    | false => exact List.mem_cons_of_mem _ (List.mem_singleton_self _)

/-- A function that always returns never gets to its default return. -/
theorem never_defaultReturn (options : IRGenOptions) {program : Program} (h : Emittable program)
    {before after : List Decl} {decl : FunDecl}
    (hsplit : program.decls = before ++ .fun decl :: after)
    (hreturns : alwaysReturns decl.body.toStmt = true) {M : Type} (memory : MemOps M)
    {callee : String} {args : List Value} {shared : Shared M World} {c : Config M World}
    (hstart : ((emitProgram options program).module.machine memory).start callee args shared =
      some c) (n : Nat) {frame : Frame}
    (hframe : frame ∈ Machine.frames
      (((emitProgram options program).module.machine memory).run n c)) :
    defaultReturn options decl (emitDecls options before {}).2 ≠
      some (frame.block, frame.position) := by
  intro hplace
  obtain ⟨f, hends⟩ := ends_emitProgram options h hsplit
  obtain ⟨hblock, -⟩ := hends.place _ _ hplace
  obtain ⟨storage, done, K, hbuilt, -, -⟩ := built_emitProgram options h
  obtain ⟨name, entry, hentry, hreach⟩ := Machine.entered_run jumps hstart n frame hframe
  obtain ⟨f', hget, hhead⟩ := Option.bind_eq_some_iff.mp hentry
  obtain ⟨hf', -⟩ := getFunction_mem hget
  have hne : f'.blocks ≠ [] := by
    intro hnil
    rw [hnil] at hhead
    cases hhead
  obtain ⟨entry', hcomplete⟩ := hbuilt.complete f' hf' hne
  obtain rfl : entry' = entry := Option.some.inj (hcomplete.starts.symm.trans hhead)
  -- only the function itself has the block of its default return
  obtain rfl : f = f' :=
    hbuilt.apart f hends.listed f' hf' frame.block hblock (hcomplete.reachable hreach)
  have hsame : entry' = (emitDecls options before {}).2.builder.nextBlock :=
    Option.some.inj (hcomplete.starts.symm.trans hends.head)
  have hfalse := hends.reached.mpr ⟨_, _, hplace, hsame ▸ hreach⟩
  rw [hreturns] at hfalse
  cases hfalse

end IRGenerator

end CMinus
