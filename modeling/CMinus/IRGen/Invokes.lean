import CMinus.IRGen.Opens
import CMinus.IRGen.Whole

namespace CMinus

namespace IRGenerator

open SSA IR Meaning

/-! The machine that runs the emitted module, and the calls of its functions. -/

/-- What the compilation is given. -/
structure Compiles (options : IRGenOptions) (program : Program) : Prop where
  emittable : Emittable program
  checks : options.indexChecks = true
  bits : 32 ≤ options.indexBits

def settingOf (options : IRGenOptions) (program : Program) (junk : Key → Int → Value) :
    Setting where
  options := options
  machine := (emitProgram options program).module.machine (Store.ops junk)
  addresses := (emitProgram options program).addresses
  storage := program.storage
  statics := program.symbols.filter fun symbol => !symbol.isFunction

def siteOf (options : IRGenOptions) (program : Program) (junk : Key → Int → Value)
    (visible : List Symbol) (symbol : Symbol) (number : Nat) : Site where
  setting := settingOf options program junk
  functions := (planOf options program).functions
  visible := visible
  returnType := (signatureOf symbol).returnType
  activation := { globals := program.symbols, number := number }

section

variable {options : IRGenOptions} {program : Program} {junk : Key → Int → Value}
  {decl : FunDecl} {g g' : IRGenerator} {globals params locals visible : List Symbol}
  {symbol : Symbol} {number : Nat} {state : State} {shared : Shared Store World}

theorem Compiles.setting (h : Compiles options program) : (settingOf options program junk).Proper := by
  obtain ⟨storage, done, K, hbuilt, hcovers, -⟩ := built_emitProgram options h.emittable
  exact ⟨h.checks, h.bits, ⟨junk, rfl⟩, rfl,
    hbuilt.indexError_entry (fits_planOf options h.emittable) hcovers (Store.ops junk),
    hbuilt.distinct, h.emittable.resolved.storage_ids⟩

theorem Compiles.site (h : Compiles options program)
    (hvisible : ∀ other ∈ visible, other.isFunction = true → other ∈ program.symbols) :
    (siteOf options program junk visible symbol number).Proper := by
  have hproper : ((planOf options program).scene visible default 0).Proper :=
    (fits_planOf options h.emittable).proper hvisible
  exact ⟨h.setting, hproper.ids, hproper.names, hproper.reserved, hproper.visible,
    hproper.returns, hproper.params⟩

theorem Declared.signed_of {c : Scene} (hc : c.Proper) (h : Declared c.functions g) :
    Signed c.functions g := by
  refine ⟨h.keys, ?_, ?_⟩
  · intro f hf symbol hsymbol hname
    have hsignature := h.signature hc hf hsymbol hname
    rw [← hsignature]
  · intro f hf hname
    rcases h.signed f hf with herror | ⟨symbol, hsymbol, hsignature, -⟩
    · exact congrArg Function.returnType herror
    · have hsame : f.name = symbol.name := congrArg Function.name hsignature
      exact absurd (hname ▸ hsame ▸ List.mem_map_of_mem hsymbol) hc.reserved

/-! The prologue only touches the builder and the addresses. -/

structure Framed (g g' : IRGenerator) : Prop where
  functions : g'.functions = g.functions
  names : g'.functionNames = g.functionNames
  current : g'.currentFunction = g.currentFunction

theorem framed_emitLocals (decls : List VarDecl) (g : IRGenerator) :
    Framed g (emitLocals decls g).2 := by
  induction decls generalizing g with
  | nil => exact ⟨rfl, rfl, rfl⟩
  | cons decl decls ih =>
      unfold emitLocals
      cases decl.symbol with
      | none => exact ih g
      | some symbol => exact ⟨(ih _).functions, (ih _).names, (ih _).current⟩

theorem framed_emitParams (params : List ParamDecl) (index : Nat) (g : IRGenerator) :
    Framed g (emitParams index params g).2 := by
  induction params generalizing index g with
  | nil => exact ⟨rfl, rfl, rfl⟩
  | cons param params ih =>
      unfold emitParams
      cases param.symbol with
      | none => exact ih (index + 1) g
      | some symbol => exact ⟨(ih _ _).functions, (ih _ _).names, (ih _ _).current⟩

/-! A function of the program, at its first statement and at its end. -/

def entered (symbol : Symbol) (g : IRGenerator) : IRGenerator :=
  opened (functionFor symbol g).2 (functionFor symbol g).1

def slotted (decl : FunDecl) (symbol : Symbol) (g : IRGenerator) : IRGenerator :=
  (emitParams 0 decl.params (entered symbol g)).2

def begun (decl : FunDecl) (symbol : Symbol) (g : IRGenerator) : IRGenerator :=
  (emitLocals decl.locals (slotted decl symbol g)).2

def ended (options : IRGenOptions) (decl : FunDecl) (symbol : Symbol) (g : IRGenerator) :
    IRGenerator :=
  (emitCompound options decl.body.stmts (begun decl symbol g)).2

/-- The default return. -/
def leaving (options : IRGenOptions) (decl : FunDecl) (symbol : Symbol) (g : IRGenerator) :
    Builder Instr :=
  (ended options decl symbol g).builder.closeWith
    (.ret (defaultValue (functionFor symbol g).1))

def isVariable (symbol : Symbol) : Bool := !symbol.isFunction

theorem Hosted.builder (h : Hosted options program decl g globals symbol params locals) :
    (functionFor symbol g).2.builder = g.builder := by
  obtain ⟨new, keys, -, heq⟩ := h.enters.adds
  rw [heq]

theorem Hosted.cur (h : Hosted options program decl g globals symbol params locals) :
    (entered symbol g).builder.cur = g.builder.nextBlock := by
  change (functionFor symbol g).2.builder.nextBlock = _
  rw [h.builder]

theorem Hosted.position (h : Hosted options program decl g globals symbol params locals) :
    (entered symbol g).builder.position = 0 := by
  unfold Builder.position
  rw [h.cur]
  change ((functionFor symbol g).2.builder.code _).length = 0
  rw [h.builder, h.tidy.unborn _ le_rfl]
  rfl

/-- Where the machine enters the function, the global variables have their storage. -/
theorem Hosted.slots (h : Hosted options program decl g globals symbol params locals)
    (visible : List Symbol) (hagrees : (settingOf options program junk).Agrees state shared)
    (values : List Value) :
    (siteOf options program junk visible symbol state.calls).Slots (globals.filter isVariable)
      (entered symbol g)
      (.enter shared.activations values) { state with calls := state.calls + 1 }
      { shared with activations := shared.activations + 1 } := by
  have hcalls := hagrees.calls
  refine ⟨opened_writing (h.builder ▸ h.tidy) _, hcalls, ?_, ?_, hagrees.enter, ?_⟩
  · exact hcalls ▸ Nat.lt_succ_self _
  · exact fun r _ => hagrees.fresh state.calls r (Nat.le_of_eq hcalls)
  · intro other hother
    obtain ⟨hmem, hvar⟩ := List.mem_filter.mp hother
    have hvar : other.isFunction = false := by simpa [isVariable] using hvar
    have hglobal := h.scope other hmem
    have hlookup := h.final _ (h.sub (h.stored other hmem hvar))
    have hstatic := hagrees.statics other (List.mem_filter.mpr ⟨hglobal, by simp [hvar]⟩)
    refine ⟨.global other.name, .global other.name, hlookup, fun r hr => (by cases hr), rfl,
      program.symbols_subset hglobal, Setting.locate_global (if_pos hglobal) hlookup, hstatic⟩

/-- The code of the function is code of the module. -/
theorem Hosted.within (h : Hosted options program decl g globals symbol params locals) :
    (leaving options decl symbol g).Within (emitProgram options program).builder.code := by
  have hcode := h.code
  rw [emitFunction_builder options h.resolved.declares.carries g] at hcode
  exact hcode

section body

variable {n : Nat} {through : Bool} {source : Eval Flow}

theorem Hosted.addresses {c : Site} (h : Hosted options program decl g globals symbol params locals)
    (hkept : c.Preserves (emitCompound options decl.body.stmts)) :
    (emitFunction options decl g).2.addresses = (begun decl symbol g).addresses := by
  have hbody : (ended options decl symbol g).addresses = (begun decl symbol g).addresses :=
    hkept.addresses (begun decl symbol g)
  rw [emitFunction_eq options h.resolved.declares.carries, ← hbody]
  change (unlessClosed (emit _) _).2.addresses = _
  rw [unlessClosed_emit]
  rfl

theorem Hosted.own (h : Hosted options program decl g globals symbol params locals)
    (hcompiles : Compiles options program) {other : Symbol} (hother : other ∈ params ++ locals) :
    other ∈ program.storage ∧ other ∉ program.symbols :=
  hcompiles.emittable.resolved.slots_own h.declared (h.resolved.slots ▸ hother)

/-- The machine gets to the first statement, with the parameters bound. -/
theorem Hosted.opens {c : Site} (h : Hosted options program decl g globals symbol params locals)
    (hcompiles : Compiles options program)
    (hc : c = siteOf options program junk visible symbol state.calls) (hproper : c.Proper)
    (hbody : FollowsStmt c n through (emitCompound options decl.body.stmts) source)
    (hagrees : c.setting.Agrees state shared) {values : List Value} {args : List Arg}
    (hpasses : List.Forall₂ (c.setting.Passes shared.mem) values args)
    (htypes : args.map Arg.type = params.map Symbol.type) {state' : State}
    (hbound : bindParams c.activation decl.params args { state with calls := state.calls + 1 } =
      .done () state') (result : Option Nat) (callers : List Frame) :
    c.Opens (globals.filter isVariable ++ params ++ locals) (entered symbol g)
      (begun decl symbol g) (.enter shared.activations values)
      { shared with activations := shared.activations + 1 } result callers state' := by
  subst hc
  have hslots := h.slots visible hagrees values
  have hwriting := hslots.writing
  have hflow1 := (flows_emitParams decl.params 0 : Flows (entered symbol g).builder.cur true _).flow _
    hwriting hwriting.born
  have hflow2 := (flows_emitLocals decl.locals : Flows (slotted decl symbol g).builder.cur true _).flow
    _ hflow1.writing hflow1.born
  have hflow3 := (hbody.flows (begun decl symbol g).builder.cur).flow _ hflow2.writing hflow2.born
  have hbegun := (h.within.of_grows (closeWith_grows _ _)).of_grows hflow3.grows
  have hfinal : (siteOf options program junk visible symbol state.calls).Final
      (begun decl symbol g) :=
    fun q hq => h.final q (h.addresses hbody.kept ▸ hq)
  have hparams : Site.Opens _ _ _ (slotted decl symbol g) _ _ result callers state' :=
    Site.opens_emitParams hproper
    h.resolved.eachParam
    (fun other hother => h.own hcompiles (List.mem_append_left _ hother)) hslots
    (fun q hq => hfinal q (addresses_emitLocals decl.locals _ hq)) (hbegun.of_grows hflow2.grows)
    List.drop_zero hpasses htypes hbound
  refine hparams.trans ?_
  intro env' shared' h' _ _
  exact Site.opens_emitLocals hproper h.resolved.eachLocal
    (fun other hother => h.own hcompiles (List.mem_append_right _ hother)) h' hfinal hbegun

/-! What is known at the first statement. -/

theorem Hosted.recorded (h : Hosted options program decl g globals symbol params locals) :
    ∀ other ∈ globals.filter isVariable ++ params ++ locals, ∃ address,
      (other.id, address) ∈ (begun decl symbol g).addresses := by
  have hslotted : (slotted decl symbol g).addresses ⊆ (begun decl symbol g).addresses :=
    addresses_emitLocals decl.locals _
  have hentered : (entered symbol g).addresses = g.addresses := by
    obtain ⟨new, keys, -, heq⟩ := h.enters.adds
    unfold entered opened
    rw [heq]
  intro other hother
  rcases List.mem_append.mp hother with hother | hother
  · rcases List.mem_append.mp hother with hother | hother
    · obtain ⟨hmem, hvar⟩ := List.mem_filter.mp hother
      have hstored := h.stored other hmem (by simpa [isVariable] using hvar)
      exact ⟨_, hslotted (addresses_emitParams decl.params 0 _ (hentered ▸ hstored))⟩
    · obtain ⟨slot, hslot⟩ := recorded_emitParams h.resolved.eachParam 0 _ other hother
      exact ⟨slot, hslotted hslot⟩
  · exact recorded_emitLocals h.resolved.eachLocal _ other hother

theorem Hosted.seen (h : Hosted options program decl g globals symbol params locals)
    {other : Symbol} (hother : other ∈ globals ++ [symbol] ++ params ++ locals)
    (hvar : other.isFunction = false) :
    other ∈ globals.filter isVariable ++ params ++ locals := by
  have hfun : symbol.isFunction = true := by
    simp [Symbol.isFunction, h.resolved.declares.kind]
  rw [List.append_assoc, List.append_assoc] at hother
  rw [List.append_assoc]
  rcases List.mem_append.mp hother with hother | hother
  · exact List.mem_append_left _ (List.mem_filter.mpr ⟨hother, by simp [isVariable, hvar]⟩)
  · rcases List.mem_append.mp hother with hother | hother
    · rw [List.mem_singleton.mp hother, hfun] at hvar
      cases hvar
    · exact List.mem_append_right _ hother

theorem Hosted.emitting {c : Site} (h : Hosted options program decl g globals symbol params locals)
    (hc : c = siteOf options program junk (globals ++ [symbol] ++ params ++ locals) symbol number)
    (hproper : c.Proper)
    (hbody : FollowsStmt c n through (emitCompound options decl.body.stmts) source)
    {env : SSA.Env} (hslots : c.Slots (globals.filter isVariable ++ params ++ locals)
      (begun decl symbol g) env state shared) :
    c.Emitting (begun decl symbol g) ∧ c.Stands env shared.mem := by
  subst hc
  have haddresses := h.addresses hbody.kept
  have hframed := framed_emitLocals decl.locals (slotted decl symbol g)
  have hframed' := framed_emitParams decl.params 0 (entered symbol g)
  have hfunctions : (begun decl symbol g).functions = (functionFor symbol g).2.functions :=
    hframed.functions.trans hframed'.functions
  have hnames : (begun decl symbol g).functionNames = (functionFor symbol g).2.functionNames :=
    hframed.names.trans hframed'.names
  have hcurrent : (begun decl symbol g).currentFunction = some (functionFor symbol g).1 :=
    hframed.current.trans hframed'.current
  have hsigned := Declared.signed_of hproper.scene h.enters.declared
  refine ⟨⟨hslots.writing, ?_, ⟨?_, ?_, ?_⟩, ?_⟩, hslots.activation, ?_⟩
  · intro other hother hvar
    obtain ⟨address, key, hlookup, hbelow, -⟩ := hslots.housed other (h.seen hother hvar)
    obtain ⟨recorded, hmem⟩ := h.recorded other (h.seen hother hvar)
    have hfinal := h.final _ (haddresses ▸ hmem)
    obtain rfl : recorded = address := Option.some.inj (hfinal.symm.trans hlookup)
    exact ⟨recorded, lookup_of_nodup (haddresses ▸ h.keys) hmem, hlookup, hbelow⟩
  · rw [hnames]
    exact hsigned.keys
  · rw [hfunctions]
    exact hsigned.types
  · rw [hfunctions]
    exact hsigned.report
  · rw [hcurrent]
    exact congrArg some h.enters.callee.returnType
  · intro other hother hvar
    obtain ⟨address, key, hlookup, -, hvalue, hstands⟩ :=
      hslots.housed other (h.seen hother hvar)
    exact ⟨address, key, hlookup, hvalue, hstands⟩

/-! The body, and the return at its end. -/

theorem FollowsStmt.leaves {c : Site} {action : IRGenM Unit} {f : Function}
    (h : FollowsStmt c n through action source) (hg : c.Emitting g)
    (hreturn : f.returnType = c.returnType)
    (hwithin : ((action g).2.builder.closeWith (.ret (defaultValue f))).Within
      c.setting.machine.code) {env : SSA.Env} (hagrees : c.setting.Agrees state shared)
    (hstands : c.Stands env shared.mem) (result : Option Nat) (callers : List Frame) :
    c.comparison.Simulates n (.running ⟨g.builder.cur, g.builder.position, env, result⟩ callers
      shared) (source state) fun flow state' config =>
        c.Returned shared.mem result callers (resultOf flow) state' config := by
  refine (h.simulates g hg (hwithin.of_grows (closeWith_grows _ _)) state env result callers shared
    hagrees hstands).further ?_
  rintro flow state' config ⟨hopen, hends⟩
  cases flow with
  | returns x => exact .done hends
  | goesOn =>
      obtain ⟨env', shared', rfl, hagrees', -, hmem, -⟩ := hends
      have hclose : (action g).2.builder.closeWith (.ret (defaultValue f)) =
          (action g).2.builder.append
            (.ret (if c.returnType = .void then none else some (int32 0))) := by
        unfold Builder.closeWith defaultValue
        rw [Builder.blockOpen_of_isOpen (hopen rfl), if_pos rfl, hreturn]
      rw [hclose] at hwithin
      have hzero : Denotes (int32 0) (.i32 0) env' shared'.mem := rfl
      have hret : c.comparison.Simulates n (.running ⟨_, _, env', result⟩ callers shared')
          (.done (Flow.returns 0) state') _ :=
        simulates_ret (hwithin.at (Builder.appended _ _)) hzero hagrees'
      obtain ⟨k, y, hy, top, shared'', hresult, hconfig, hagrees'', hmem'⟩ := hret
      cases hy
      exact ⟨k, top, shared'', hresult, hconfig, hagrees'', hmem.trans hmem'⟩

end body

theorem signatureOf_ne_void {symbol : Symbol} (h : symbol.returnType ≠ .void) :
    (signatureOf symbol).returnType ≠ .void := by
  unfold signatureOf
  dsimp only
  rw [if_neg h]
  split <;> simp

theorem Hosted.paramTypes (h : Hosted options program decl g globals symbol params locals) :
    symbol.paramTypes = params.map Symbol.type := by
  have htypes : ∀ {decls : List ParamDecl} {symbols : List Symbol},
      List.Forall₂ ParamDecl.Declares decls symbols →
        decls.map (fun param => variableType param.isArray) = symbols.map Symbol.type := by
    intro decls symbols hdeclares
    induction hdeclares with
    | nil => rfl
    | cons hparam _ ih => rw [List.map_cons, List.map_cons, ih, hparam.type]
  rw [h.resolved.declares.paramTypes, htypes h.resolved.eachParam]

/-- A call of a function of the program, from the entry of its code. -/
theorem Hosted.invokes {c : Site} (h : Hosted options program decl g globals symbol params locals)
    (hcompiles : Compiles options program)
    (hc : c = siteOf options program junk (globals ++ [symbol] ++ params ++ locals) symbol
      state.calls) (hproper : c.Proper) {n : Nat} {call : Symbol → List Arg → Eval (BitVec 32)}
    (hcall : c.Calls n call) (hagrees : c.setting.Agrees state shared) {values : List Value}
    {args : List Arg} (hpasses : List.Forall₂ (c.setting.Passes shared.mem) values args)
    (htypes : args.map Arg.type = symbol.paramTypes) (result : Option Nat)
    (callers : List Frame) :
    c.comparison.Simulates n
      (.running ⟨g.builder.nextBlock, 0, .enter shared.activations values, result⟩ callers
        { shared with activations := shared.activations + 1 }) (invoke program n call decl args state)
      (c.Returned shared.mem result callers) := by
  have hreturns : decl.returnType ≠ .void → c.returnType ≠ .void := by
    intro hne
    rw [hc]
    exact signatureOf_ne_void (h.resolved.declares.returnType.trans_ne hne)
  have hresolved : decl.body.toStmt.Resolved c.visible decl.returnType := by
    rw [hc]
    exact h.resolved.body
  have hbody : FollowsStmt c n (!alwaysReturns decl.body.toStmt)
      (emitCompound options decl.body.stmts) (evalStmt call c.activation n decl.body.toStmt) := by
    have hstmt := follows_emitStmt hproper hcall hreturns decl.body.toStmt hresolved
    have hoptions : c.setting.options = options := by
      rw [hc]
      rfl
    rw [hoptions] at hstmt
    exact hstmt
  have hslots : args.map Arg.type = params.map Symbol.type :=
    htypes.trans h.paramTypes
  obtain ⟨state', hbound⟩ := Site.bindParams_done h.resolved.eachParam c.activation
    { state with calls := state.calls + 1 } hslots
  obtain ⟨k, env, shared', hrun, hopened, -, -, hmem⟩ := h.opens hcompiles hc hproper hbody hagrees
    hpasses hslots hbound result callers
  obtain ⟨hemitting, hstands⟩ := h.emitting hc hproper hbody hopened
  have hleaves := hbody.leaves (f := (functionFor symbol g).1) hemitting (by
    rw [hc]
    exact h.enters.callee.returnType) (by
    rw [hc]
    exact h.within) hopened.agrees hstands result callers
  have hinvoke : invoke program n call decl args state =
      (bindParams c.activation decl.params args { state with calls := state.calls + 1 }).bind
        fun _ state' => (evalStmt call c.activation n decl.body.toStmt state').bind
          fun flow => .done (resultOf flow) := by
    rw [hc]
    rfl
  have hentry : c.setting.machine.run k
      (.running ⟨g.builder.nextBlock, 0, .enter shared.activations values, result⟩ callers
        { shared with activations := shared.activations + 1 }) =
      .running ⟨(begun decl symbol g).builder.cur, (begun decl symbol g).builder.position, env,
        result⟩ callers shared' := by
    rw [← hrun, h.cur, h.position]
  rw [hinvoke, hbound, Outcome.bind_done]
  apply Comparison.Simulates.of_run (k := k)
  change c.comparison.Simulates n (c.setting.machine.run k _) _ _
  rw [hentry]
  refine hleaves.bind ?_
  rintro flow state'' config ⟨top, shared'', hresult, hconfig, hagrees'', hmem'⟩
  exact .done ⟨top, shared'', hresult, hconfig, hagrees'', hmem.trans hmem'⟩

end

end IRGenerator

end CMinus
