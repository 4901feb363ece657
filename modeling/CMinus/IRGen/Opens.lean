import CMinus.IRGen.DefaultReturn
import CMinus.IRGen.FollowsStmt

namespace CMinus

namespace IRGenerator

open SSA IR Meaning

/-! The beginning of a call: each parameter and local gets a slot of the new activation. -/

theorem addresses_emitLocals (decls : List VarDecl) (g : IRGenerator) :
    g.addresses ⊆ (emitLocals decls g).2.addresses := by
  induction decls generalizing g with
  | nil => exact fun _ h => h
  | cons decl decls ih =>
      unfold emitLocals
      cases decl.symbol with
      | none => exact ih g
      | some symbol => exact fun q hq => ih _ (List.mem_cons_of_mem _ hq)

theorem addresses_emitParams (params : List ParamDecl) (index : Nat) (g : IRGenerator) :
    g.addresses ⊆ (emitParams index params g).2.addresses := by
  induction params generalizing index g with
  | nil => exact fun _ h => h
  | cons param params ih =>
      unfold emitParams
      cases param.symbol with
      | none => exact ih (index + 1) g
      | some symbol => exact fun q hq => ih (index + 1) _ (List.mem_cons_of_mem _ hq)

theorem recorded_emitLocals {decls : List VarDecl} {symbols : List Symbol}
    (hdeclares : List.Forall₂ VarDecl.Declares decls symbols) (g : IRGenerator) :
    ∀ symbol ∈ symbols, ∃ slot, (symbol.id, slot) ∈ (emitLocals decls g).2.addresses := by
  induction hdeclares generalizing g with
  | nil => exact fun symbol hsymbol => absurd hsymbol List.not_mem_nil
  | @cons decl symbol decls symbols hdecl _ ih =>
      unfold emitLocals
      rw [hdecl.carries]
      intro other hother
      rcases List.mem_cons.mp hother with rfl | hother
      · exact ⟨_, addresses_emitLocals decls _ List.mem_cons_self⟩
      · exact ih _ other hother

theorem recorded_emitParams {params : List ParamDecl} {symbols : List Symbol}
    (hdeclares : List.Forall₂ ParamDecl.Declares params symbols) (index : Nat) (g : IRGenerator) :
    ∀ symbol ∈ symbols, ∃ slot, (symbol.id, slot) ∈ (emitParams index params g).2.addresses := by
  induction hdeclares generalizing index g with
  | nil => exact fun symbol hsymbol => absurd hsymbol List.not_mem_nil
  | @cons param symbol params symbols hparam _ ih =>
      unfold emitParams
      rw [hparam.carries]
      intro other hother
      rcases List.mem_cons.mp hother with rfl | hother
      · exact ⟨_, addresses_emitParams params (index + 1) _ List.mem_cons_self⟩
      · exact ih (index + 1) _ other hother

namespace Site

/-- The symbols of `seen` have their storage, and no register to come has any. -/
structure Slots (c : Site) (seen : List Symbol) (g : IRGenerator) (env : SSA.Env)
    (state : State) (shared : Shared Store World) : Prop where
  writing : g.builder.Writing
  activation : env.activation = c.activation.number
  current : c.activation.number < shared.activations
  unused : ∀ r, g.builder.nextReg ≤ r → shared.mem (.slot c.activation.number r) = none
  agrees : c.setting.Agrees state shared
  housed : ∀ symbol ∈ seen, ∃ address key, c.setting.addresses.lookup symbol.id = some address ∧
    address.Below g.builder.nextReg ∧ address.eval env = some (.ptr ⟨key, 0⟩) ∧
    c.setting.Stands shared.mem (c.activation.variable symbol) key

/-- The machine comes from where `g` stands to where `g'` stands. -/
def Opens (c : Site) (seen : List Symbol) (g g' : IRGenerator) (env : SSA.Env)
    (shared : Shared Store World) (result : Option Nat) (callers : List Frame) (state' : State) :
    Prop :=
  ∃ k env' shared', c.setting.machine.run k
      (.running ⟨g.builder.cur, g.builder.position, env, result⟩ callers shared) =
        .running ⟨g'.builder.cur, g'.builder.position, env', result⟩ callers shared' ∧
    c.Slots seen g' env' state' shared' ∧ env.Keeps g.builder.nextReg env' ∧
    g.builder.nextReg ≤ g'.builder.nextReg ∧ shared.mem.Keeps shared'.mem

section opens

variable {c : Site} {seen more : List Symbol} {g g' g'' : IRGenerator} {env : SSA.Env}
  {state state' state'' : State} {shared : Shared Store World} {result : Option Nat}
  {callers : List Frame} {symbol : Symbol}

theorem Slots.opens (h : c.Slots seen g env state shared) :
    c.Opens seen g g env shared result callers state :=
  ⟨0, env, shared, rfl, h, .refl _ _, le_rfl, .refl _⟩

theorem Opens.trans (h : c.Opens seen g g' env shared result callers state')
    (hnext : ∀ env' shared', c.Slots seen g' env' state' shared' →
      env.Keeps g.builder.nextReg env' → shared.mem.Keeps shared'.mem →
      c.Opens more g' g'' env' shared' result callers state'') :
    c.Opens more g g'' env shared result callers state'' := by
  obtain ⟨k, env', shared', hrun, hslots, henv, hregs, hmem⟩ := h
  obtain ⟨k', env'', shared'', hrun', hslots', henv', hregs', hmem'⟩ :=
    hnext env' shared' hslots henv hmem
  refine ⟨k + k', env'', shared'', ?_, hslots', henv.trans henv' hregs, hregs.trans hregs',
    hmem.trans hmem'⟩
  rw [Machine.run_add, hrun, hrun']

/-- The address of a new symbol is recorded; nothing is executed. -/
theorem Opens.record (h : c.Opens seen g g' env shared result callers state')
    (symbol : Symbol) (address : Operand) :
    c.Opens seen g (setAddress symbol address g').2 env shared result callers state' := by
  obtain ⟨k, env', shared', hrun, hslots, henv, hregs, hmem⟩ := h
  exact ⟨k, env', shared', hrun, ⟨hslots.writing, hslots.activation, hslots.current,
    hslots.unused, hslots.agrees, hslots.housed⟩, henv, hregs, hmem⟩

/-- The slot of a symbol of the call. -/
theorem Slots.alloca (hc : c.Proper) (h : c.Slots seen g env state shared)
    (hstored : symbol ∈ c.setting.storage) (hlocal : symbol ∉ c.activation.globals)
    (haddress : c.setting.addresses.lookup symbol.id = some (.reg g.builder.nextReg))
    (hwithin : (createAlloca (storageType symbol) g).2.builder.Within c.setting.machine.code) :
    c.Opens (seen ++ [symbol]) g (createAlloca (storageType symbol) g).2 env shared result callers
      state := by
  obtain ⟨junk, hjunk⟩ := hc.setting.memory
  let n := c.activation.number
  let r := g.builder.nextReg
  have hnew : shared.mem (.slot n r) = none := h.unused r le_rfl
  let block : Block := ⟨(storageType symbol).cells, junk (.slot n r)⟩
  have hkeeps : shared.mem.Keeps (shared.mem.set (.slot n r) block) := Store.Keeps.set hnew
  have henv : env.Keeps r (env.set r (.ptr ⟨.slot n r, 0⟩)) := .set env le_rfl _
  have hcode := hwithin.at (g.builder.appended (.alloca r (storageType symbol)))
  have hstep : c.setting.machine.run 1
      (.running ⟨g.builder.cur, g.builder.position, env, result⟩ callers shared) =
        .running ⟨g.builder.cur, g.builder.position + 1, env.set r (.ptr ⟨.slot n r, 0⟩), result⟩
          callers { shared with mem := shared.mem.set (.slot n r) block } := by
    rw [Machine.run_succ, Machine.run_zero, Machine.step_running callers shared hcode]
    change c.setting.machine.perform _ _ _ (IR.exec c.setting.machine.memory _ env shared.mem) = _
    simp only [IR.exec, h.activation, hjunk, Store.ops_alloca, Machine.perform_next]
    rfl
  have hwriting := writing_define h.writing (i := fun r => .alloca r (storageType symbol)) rfl
  have hposition : (createAlloca (storageType symbol) g).2.builder.position =
      g.builder.position + 1 := Builder.position_define _ _
  refine ⟨1, env.set r (.ptr ⟨.slot n r, 0⟩),
    { shared with mem := shared.mem.set (.slot n r) block }, ?_,
    ⟨hwriting, h.activation, h.current, ?_, ?_, ?_⟩, henv, Nat.le_succ _, hkeeps⟩
  · rw [hstep, hposition]
    rfl
  · intro q hq
    have hne : Key.slot n q ≠ .slot n r := by
      rintro ⟨⟩
      exact absurd hq (Nat.not_succ_le_self r)
    exact (Store.set_of_ne _ _ hne).trans (h.unused q (Nat.le_of_succ_le hq))
  · exact h.agrees.alloca h.current hnew
  · intro other hother
    rcases List.mem_append.mp hother with hother | hother
    · obtain ⟨address, key, hlookup, hbelow, hvalue, hstands⟩ := h.housed other hother
      refine ⟨address, key, hlookup, fun q hq => Nat.lt_succ_of_lt (hbelow q hq), ?_,
        hstands.later hkeeps⟩
      rw [Operand.eval_keeps hbelow henv, hvalue]
    · obtain rfl : other = symbol := List.mem_singleton.mp hother
      refine ⟨.reg r, .slot n r, haddress, ?_, env.set_regs_self r _, hstored,
        Setting.locate_slot (if_neg hlocal) haddress, block, Store.set_self _ _ _, rfl⟩
      intro q hq
      rw [List.mem_singleton.mp hq]
      exact Nat.lt_succ_self r

theorem cells_parameter (hkind : symbol.kind = .parameter) : (storageType symbol).cells = 1 := by
  unfold storageType
  rw [if_pos hkind]
  split <;> rfl

/-- What a call passes is bound to a parameter. -/
theorem agrees_pass (hc : c.Proper) (hagrees : c.setting.Agrees state shared)
    (hkind : symbol.kind = .parameter) {key : Key}
    (hstands : c.setting.Stands shared.mem (c.activation.variable symbol) key) {value : Value}
    {arg : Arg} (hpass : c.setting.Passes shared.mem value arg) (htype : arg.type = symbol.type)
    (hbound : pass (c.activation.variable symbol) arg state = .done () state') :
    c.setting.Agrees state' { shared with mem := shared.mem.write ⟨key, 0⟩ value } := by
  cases hpass with
  | int x =>
      cases hbound
      have hint : storageType symbol ≠ .ptr := by
        rw [Ne, storageType_ptr, ← htype]
        simp [Arg.type]
      exact hagrees.assign hc.setting hstands hint 0 x
  | array harray hsort =>
      cases hbound
      have hptr : storageType symbol = .ptr := (storageType_ptr symbol).mpr ⟨htype.symm, hkind⟩
      exact hagrees.refer hc.setting hstands hptr harray hsort

/-- A parameter receives the argument. -/
theorem Slots.pass (hc : c.Proper) (h : c.Slots seen g env state shared) (hsymbol : symbol ∈ seen)
    (hkind : symbol.kind = .parameter) {slot : Operand}
    (hlookup : c.setting.addresses.lookup symbol.id = some slot) {index : Nat} {value : Value}
    (hvalue : env.args[index]? = some value) {arg : Arg}
    (hpass : c.setting.Passes shared.mem value arg) (htype : arg.type = symbol.type)
    (hbound : Meaning.pass (c.activation.variable symbol) arg state = .done () state')
    (hwithin : (emit (.store (.arg index) slot) g).2.builder.Within c.setting.machine.code) :
    c.Opens seen g (emit (.store (.arg index) slot) g).2 env shared result callers state' := by
  obtain ⟨address, key, hlookup', -, haddress, hstands⟩ := h.housed symbol hsymbol
  obtain rfl : slot = address := Option.some.inj (hlookup.symm.trans hlookup')
  have hagrees := agrees_pass hc h.agrees hkind hstands hpass htype hbound
  have hkeeps : shared.mem.Keeps (shared.mem.write ⟨key, 0⟩ value) := Store.Keeps.write _ _ _
  have hvalid : shared.mem.valid ⟨key, 0⟩ = true := by
    apply hstands.size.valid le_rfl
    change 0 < (storageType symbol).cells
    rw [cells_parameter hkind]
    decide
  have hcode := hwithin.at (g.builder.appended (.store (.arg index) slot))
  have harg : Denotes (.arg index) value env shared.mem := hvalue
  have hexec := exec_store hc harg haddress hvalid
  have hstep : c.setting.machine.run 1
      (.running ⟨g.builder.cur, g.builder.position, env, result⟩ callers shared) =
        .running ⟨g.builder.cur, g.builder.position + 1, env, result⟩ callers
          { shared with mem := shared.mem.write ⟨key, 0⟩ value } := by
    rw [Machine.run_succ, Machine.run_zero, Machine.step_running callers shared hcode, hexec,
      Machine.perform_next]
  have hwriting := writing_append h.writing (i := .store (.arg index) slot) rfl
  have hposition : (emit (.store (.arg index) slot) g).2.builder.position =
      g.builder.position + 1 := Builder.position_append _ _
  refine ⟨1, env, { shared with mem := shared.mem.write ⟨key, 0⟩ value }, ?_,
    ⟨hwriting, h.activation, h.current, ?_, hagrees, ?_⟩, .refl _ env, le_rfl, hkeeps⟩
  · rw [hstep, hposition]
    rfl
  · exact fun r hr => Store.write_none (h.unused r hr) _ _
  · intro other hother
    obtain ⟨address', key', hlookup', hbelow', hvalue', hstands'⟩ := h.housed other hother
    exact ⟨address', key', hlookup', hbelow', hvalue', hstands'.later hkeeps⟩

/-! All parameters and locals. -/

/-- The addresses recorded so far are those the generator ends with. -/
def Final (c : Site) (g : IRGenerator) : Prop :=
  ∀ q ∈ g.addresses, c.setting.addresses.lookup q.1 = some q.2

theorem opens_emitLocals (hc : c.Proper) {decls : List VarDecl} {symbols : List Symbol}
    (hdeclares : List.Forall₂ VarDecl.Declares decls symbols)
    (hlocal : ∀ symbol ∈ symbols, symbol ∈ c.setting.storage ∧ symbol ∉ c.activation.globals) :
    ∀ {seen : List Symbol} {g : IRGenerator} {env : SSA.Env} {shared : Shared Store World},
      c.Slots seen g env state shared → c.Final (emitLocals decls g).2 →
      (emitLocals decls g).2.builder.Within c.setting.machine.code →
      c.Opens (seen ++ symbols) g (emitLocals decls g).2 env shared result callers state := by
  induction hdeclares with
  | nil =>
      intro seen g env shared h _ _
      rw [List.append_nil]
      exact h.opens
  | @cons decl symbol decls symbols hdecl _ ih =>
      intro seen g env shared h hfinal hwithin
      let g1 := (createAlloca (storageType symbol) g).2
      let g2 := (setAddress symbol (.reg g.builder.nextReg) g1).2
      have hrun : emitLocals (decl :: decls) g = emitLocals decls g2 := by
        conv_lhs => unfold emitLocals
        rw [hdecl.carries]
        rfl
      rw [hrun] at hfinal hwithin ⊢
      have hwriting : g2.builder.Writing :=
        writing_define h.writing (i := fun r => .alloca r (storageType symbol)) rfl
      have hflow := (flows_emitLocals decls : Flows g2.builder.cur true _).flow g2 hwriting
        hwriting.born
      have haddress := hfinal _ (addresses_emitLocals decls g2 List.mem_cons_self)
      obtain ⟨hstored, hown⟩ := hlocal symbol List.mem_cons_self
      have hslot : c.Opens (seen ++ [symbol]) g g1 env shared result callers state :=
        h.alloca hc hstored hown haddress (hwithin.of_grows hflow.grows)
      refine (hslot.record symbol (.reg g.builder.nextReg)).trans ?_
      intro env' shared' h' _ _
      have hrest := ih (fun other hother => hlocal other (List.mem_cons_of_mem _ hother)) h' hfinal
        hwithin
      rwa [List.append_assoc] at hrest

theorem bindParams_cons {param : ParamDecl} {params : List ParamDecl} (hparam : param.Declares symbol)
    {a : Activation} {arg : Arg} {args : List Arg}
    (h : bindParams a (param :: params) (arg :: args) state = .done () state') :
    ∃ state1, Meaning.pass (a.variable symbol) arg state = .done () state1 ∧
      bindParams a params args state1 = .done () state' := by
  unfold bindParams at h
  rw [hparam.carries] at h
  change (Meaning.pass _ arg state).bind _ = _ at h
  cases arg <;> exact ⟨_, rfl, h⟩

theorem bindParams_done {params : List ParamDecl} {symbols : List Symbol}
    (hdeclares : List.Forall₂ ParamDecl.Declares params symbols) (a : Activation) :
    ∀ {args : List Arg} (state : State), args.map Arg.type = symbols.map Symbol.type →
      ∃ state', bindParams a params args state = .done () state' := by
  induction hdeclares with
  | nil =>
      intro args state htypes
      obtain rfl : args = [] := List.map_eq_nil_iff.mp htypes
      exact ⟨state, rfl⟩
  | @cons param symbol params symbols hparam _ ih =>
      intro args state htypes
      cases args with
      | nil => cases htypes
      | cons arg args =>
          have hpass : ∃ state1, Meaning.pass (a.variable symbol) arg state = .done () state1 := by
            cases arg <;> exact ⟨_, rfl⟩
          obtain ⟨state1, hpass⟩ := hpass
          obtain ⟨state', hrest⟩ := ih state1 (List.cons.inj htypes).2
          refine ⟨state', ?_⟩
          conv_lhs => unfold bindParams
          rw [hparam.carries]
          change (Meaning.pass _ arg state).bind _ = _
          rw [hpass]
          exact hrest

theorem opens_emitParams (hc : c.Proper) {params : List ParamDecl} {symbols : List Symbol}
    (hdeclares : List.Forall₂ ParamDecl.Declares params symbols)
    (hlocal : ∀ symbol ∈ symbols, symbol ∈ c.setting.storage ∧ symbol ∉ c.activation.globals) :
    ∀ {seen : List Symbol} {g : IRGenerator} {env : SSA.Env} {state : State}
      {shared : Shared Store World} {index : Nat} {values : List Value} {args : List Arg},
      c.Slots seen g env state shared → c.Final (emitParams index params g).2 →
      (emitParams index params g).2.builder.Within c.setting.machine.code →
      env.args.drop index = values → List.Forall₂ (c.setting.Passes shared.mem) values args →
      args.map Arg.type = symbols.map Symbol.type →
      bindParams c.activation params args state = .done () state' →
      c.Opens (seen ++ symbols) g (emitParams index params g).2 env shared result callers
        state' := by
  induction hdeclares with
  | nil =>
      intro seen g env state shared index values args h _ _ _ _ htypes hbound
      obtain rfl : args = [] := List.map_eq_nil_iff.mp htypes
      cases hbound
      rw [List.append_nil]
      exact h.opens
  | @cons param symbol params symbols hparam _ ih =>
      intro seen g env state shared index values args h hfinal hwithin hvalues hpasses htypes hbound
      cases hpasses with
      | nil => cases htypes
      | @cons value arg values args hpass hpasses =>
          obtain ⟨htype, htypes⟩ := List.cons.inj htypes
          have hvalue : env.args[index]? = some value := by
            rw [← Nat.add_zero index, ← List.getElem?_drop, hvalues]
            rfl
          have hlater : env.args.drop (index + 1) = values := by
            rw [← List.drop_drop, hvalues]
            rfl
          obtain ⟨state1, hfirst, hrest⟩ := bindParams_cons hparam hbound
          let slot : Operand := .reg g.builder.nextReg
          let g1 := (createAlloca (storageType symbol) g).2
          let g2 := (emit (.store (.arg index) slot) g1).2
          let g3 := (setAddress symbol slot g2).2
          have hrun : emitParams index (param :: params) g = emitParams (index + 1) params g3 := by
            conv_lhs => unfold emitParams
            rw [hparam.carries]
            rfl
          rw [hrun] at hfinal hwithin ⊢
          have hwriting : g3.builder.Writing := writing_append (writing_define h.writing
            (i := fun r => .alloca r (storageType symbol)) rfl)
            (i := .store (.arg index) slot) rfl
          have hflow := (flows_emitParams params (index + 1) : Flows g3.builder.cur true _).flow
            g3 hwriting hwriting.born
          have hwithin2 : g2.builder.Within c.setting.machine.code := hwithin.of_grows hflow.grows
          have haddress := hfinal _ (addresses_emitParams params (index + 1) g3 List.mem_cons_self)
          obtain ⟨hstored, hown⟩ := hlocal symbol List.mem_cons_self
          have hseen : symbol ∈ seen ++ [symbol] :=
            List.mem_append_right _ (List.mem_singleton_self symbol)
          have hslot : c.Opens (seen ++ [symbol]) g g1 env shared result callers state :=
            h.alloca hc hstored hown haddress (hwithin2.of_grows (.append 0 _ _))
          have hstored : c.Opens (seen ++ [symbol]) g g2 env shared result callers state1 := by
            refine hslot.trans ?_
            intro env' shared' h' henv hmem
            exact h'.pass hc hseen hparam.kind haddress (henv.args ▸ hvalue) (hpass.later hmem)
              htype hfirst hwithin2
          refine (hstored.record symbol slot).trans ?_
          intro env' shared' h' henv hmem
          have hopens := ih (fun other hother => hlocal other (List.mem_cons_of_mem _ hother)) h'
            hfinal hwithin (henv.args ▸ hlater) (hpasses.imp fun _ _ hpass => hpass.later hmem)
            htypes hrest
          rwa [List.append_assoc] at hopens

end opens

end Site

end IRGenerator

end CMinus
