import CMinus.IRGen.PairedStmt
import CMinus.IRGen.DefaultReturn

namespace CMinus

namespace IRGenerator

open SSA IR

variable {w : Pairing} {P : List (Nat × Nat)} {now : Bool} {g g' : IRGenerator}

/-! The slots of a function. -/

theorem evaluates_setAddress (symbol : Symbol) {slot slot' : Operand} (hslot : slot.Same w slot') :
    Evaluates w (setAddress symbol slot) (setAddress symbol slot') fun _ _ _ => True :=
  evaluates_still (fun _ => ⟨rfl, List.Subset.refl _⟩) (fun _ => ⟨rfl, List.Subset.refl _⟩)
    fun _ hle _ _ _ h => ⟨.cons ⟨rfl, hslot.mono hle⟩ h.addresses,
      h.functions.same rfl rfl rfl rfl rfl rfl, trivial⟩

theorem evaluates_emitParams (params : List ParamDecl) :
    ∀ {w : Pairing} (index : Nat),
      Evaluates w (emitParams index params) (emitParams index params) fun _ _ _ => True := by
  induction params with
  | nil => exact fun _ => evaluates_pure fun _ _ => trivial
  | cons param params ih =>
      intro w index
      unfold emitParams
      cases param.symbol with
      | none => exact ih (index + 1)
      | some symbol =>
          refine (evaluates_createAlloca _).bind ?_
          intro v _ slot slot' hslot
          refine (evaluates_emit (fun _ hu => .store (.other _ rfl) (hslot.mono hu)) rfl).bind ?_
          intro v1 hv1 _ _ _
          refine (evaluates_setAddress symbol (hslot.mono hv1)).bind ?_
          intro v2 _ _ _ _
          exact ih (index + 1)

theorem evaluates_emitLocals (decls : List VarDecl) :
    ∀ {w : Pairing},
      Evaluates w (emitLocals decls) (emitLocals decls) fun _ _ _ => True := by
  induction decls with
  | nil => exact evaluates_pure fun _ _ => trivial
  | cons decl decls ih =>
      intro w
      unfold emitLocals
      cases decl.symbol with
      | none => exact ih
      | some symbol =>
          refine (evaluates_createAlloca _).bind ?_
          intro v _ slot slot' hslot
          refine (evaluates_setAddress symbol hslot).bind ?_
          intro v1 _ _ _ _
          exact ih

/-! A function. -/

theorem getFunction_withBody (functions : List Function) (target : String) (blocks : List Nat)
    (name : String) : getFunction (functions.map (withBody target blocks)) name =
      (getFunction functions name).map (withBody target blocks) := by
  unfold getFunction
  rw [List.find?_map]
  congr 2
  funext f
  exact congrArg (fun other => decide (other = name)) (withBody_name target blocks f)

theorem SameFunctions.finish (h : SameFunctions w g g') {f f' : Function} (hf : Callees f f')
    (hentry : Option.Rel w.block g.builder.layout.head? g'.builder.layout.head?) :
    SameFunctions w (finishFunction f g).2 (finishFunction f' g').2 := by
  have hfunctions : ∀ (f : Function) (g : IRGenerator), (finishFunction f g).2.functions =
      g.functions.map (withBody f.name g.builder.layout) := fun _ _ => rfl
  constructor
  · exact h.names
  · intro name hname
    rw [hfunctions, hfunctions, getFunction_withBody, getFunction_withBody]
    apply rel_map (h.found name hname)
    intro k k' hsame
    unfold withBody
    rw [hsame.name, hf.name]
    split
    · exact ⟨rfl, hsame.returnType, hentry⟩
    · exact hsame
  · exact h.others
  · intro k hk
    rw [hfunctions, getFunction_withBody] at hk
    obtain ⟨k', hk', rfl⟩ := Option.map_eq_some_iff.mp hk
    rw [h.report k' hk']
    exact withBody_of_ne (hf.name ▸ Ne.symm hf.other)
  · rfl

theorem functionFor_still (symbol : Symbol) (g : IRGenerator) :
    Kept g (functionFor symbol g).2 ∧ (functionFor symbol g).2.addresses = g.addresses := by
  unfold functionFor
  split <;> exact ⟨⟨rfl, rfl, rfl, rfl, List.Subset.refl _⟩, rfl⟩

/-- Between two declarations. -/
abbrev Declaring (w : Pairing) (g g' : IRGenerator) : Prop := Aligned w [] false g g'

section

variable {options options' : IRGenOptions} (hsides : Sides options options')

include hsides

theorem Aligned.emitBody (h : Declaring w g g') {decl : FunDecl} {V : List Symbol}
    (hV : Others V) (hbody : ResolvedStmts V decl.returnType decl.body.stmts) {f f' : Function}
    (hf : Callees f f') :
    ∃ u, w ≤ u ∧ Declaring u
      (unlessClosed (emit (.ret (defaultValue f))) (emitBody options decl f g).2).2
      (unlessClosed (emit (.ret (defaultValue f'))) (emitBody options' decl f' g').2).2 ∧
      Option.Rel u.block
        (unlessClosed (emit (.ret (defaultValue f)))
          (emitBody options decl f g).2).2.builder.layout.head?
        (unlessClosed (emit (.ret (defaultValue f')))
          (emitBody options' decl f' g').2).2.builder.layout.head? := by
  let n := g.builder.nextBlock
  let n' := g'.builder.nextBlock
  have hkept : ∀ (f : Function) (g : IRGenerator), Kept g (startFunction f g).2 :=
    fun _ _ => ⟨rfl, rfl, rfl, rfl, List.Subset.refl _⟩
  have hstarted : Declaring w (startFunction f g).2 (startFunction f' g').2 :=
    h.carry (hkept f g) (hkept f' g') h.addresses ⟨h.functions.names, h.functions.found,
      h.functions.others, h.functions.report, congrArg some hf.returnType⟩
  have hentered := (hstarted.newBlock.attach n n').start
  have hret : Leads (· = false) (w.addBlock n n') (emit (.ret (defaultValue f)))
      (emit (.ret (defaultValue f'))) fun _ _ _ => True := by
    refine leads_close ?_ rfl
    intro v _
    unfold defaultValue
    rw [hf.returnType]
    split
    · exact .ret
    · exact .retValue (.other _ rfl)
  have hfilled : Proceeds (w.addBlock n n')
      (do
        emitParams 0 decl.params
        emitLocals (collectLocals decl.body.toStmt)
        emitCompound options decl.body.stmts)
      (do
        emitParams 0 decl.params
        emitLocals (collectLocals decl.body.toStmt)
        emitCompound options' decl.body.stmts) := by
    refine (evaluates_emitParams decl.params 0).bind ?_
    intro v _ _ _ _
    refine (evaluates_emitLocals _).bind ?_
    intro v1 _ _ _ _
    exact proceeds_emitCompound hsides hV hbody
  obtain ⟨u, _, honward, hpaired, rfl, -⟩ :=
    (hfilled.unlessClosed hret rfl).run _ le_rfl [] _ _ hentered
  refine ⟨u, (w.le_addBlock n n').trans honward.le, hpaired.toAligned, ?_⟩
  have hhead : ∀ {l : List Nat} {b : Nat}, [b] <+: l → l.head? = some b := by
    intro l b hprefix
    obtain ⟨tail, rfl⟩ := hprefix
    rfl
  have hentry : u.block n n' := Pairing.block_mono honward.le (.inr ⟨rfl, rfl⟩)
  have hfirst := hhead honward.layout
  have hfirst' := hhead honward.layout'
  exact hfirst.symm ▸ hfirst'.symm ▸ .some hentry

theorem Aligned.emitFunction (h : Declaring w g g') {decl : FunDecl} {globals params locals :
    List Symbol} {symbol : Symbol} (hdecl : decl.Resolved globals symbol params locals)
    (hglobals : Others globals) (hname : symbol.name ≠ kIndexErrorName) :
    ∃ u, w ≤ u ∧
      Declaring u (emitFunction options decl g).2 (emitFunction options' decl g').2 := by
  obtain ⟨hfunctions, hcallees⟩ := h.functions.functionFor hname
  obtain ⟨hkept, haddresses⟩ := functionFor_still symbol g
  obtain ⟨hkept', haddresses'⟩ := functionFor_still symbol g'
  have hcalled : Declaring w (functionFor symbol g).2 (functionFor symbol g').2 := by
    refine h.carry hkept hkept' ?_ hfunctions
    rw [haddresses, haddresses']
    exact h.addresses
  have hV : Others (globals ++ [symbol] ++ params ++ locals) := by
    intro other hmem hfun
    rw [List.append_assoc] at hmem
    rcases List.mem_append.mp hmem with hmem | hmem
    · rcases List.mem_append.mp hmem with hmem | hmem
      · exact hglobals other hmem hfun
      · rw [List.mem_singleton.mp hmem]
        exact hname
    · rw [slots_not_functions hdecl.eachParam hdecl.eachLocal other hmem] at hfun
      cases hfun
  obtain ⟨u, hle, hbody, hentry⟩ := hcalled.emitBody hsides hV hdecl.body hcallees
  rw [emitFunction_eq options hdecl.declares.carries,
    emitFunction_eq options' hdecl.declares.carries]
  have hkept : ∀ (f : Function) (g : IRGenerator), Kept g (finishFunction f g).2 :=
    fun _ _ => ⟨rfl, rfl, rfl, rfl, List.Subset.refl _⟩
  exact ⟨u, hle, hbody.carry (hkept _ _) (hkept _ _) hbody.addresses
    (hbody.functions.finish hcallees hentry)⟩

omit hsides in
theorem Aligned.emitGlobal (h : Declaring w g g') (decl : VarDecl) :
    Declaring w (emitGlobal decl g).2 (emitGlobal decl g').2 := by
  unfold IRGenerator.emitGlobal
  cases decl.symbol with
  | none => exact h
  | some symbol =>
      exact h.carry ⟨rfl, rfl, rfl, rfl, List.Subset.refl _⟩
        ⟨rfl, rfl, rfl, rfl, List.Subset.refl _⟩ (.cons ⟨rfl, .other _ rfl⟩ h.addresses)
        (h.functions.same rfl rfl rfl rfl rfl rfl)

theorem Aligned.emitDecls {decls : List Decl} :
    ∀ {globals storage : List Symbol} {w : Pairing} {g g' : IRGenerator},
      ResolvedDecls globals storage decls → Others globals →
      (∀ decl ∈ decls, decl.name ≠ kIndexErrorName) → Declaring w g g' →
      ∃ u, w ≤ u ∧ Declaring u (emitDecls options decls g).2 (emitDecls options' decls g').2 := by
  induction decls with
  | nil =>
      intro globals storage w g g' _ _ _ h
      exact ⟨w, le_rfl, h⟩
  | cons decl decls ih =>
      intro globals storage w g g' hresolved hglobals hnames h
      have hrestNames : ∀ decl ∈ decls, decl.name ≠ kIndexErrorName :=
        fun other hother => hnames other (List.mem_cons_of_mem _ hother)
      have hmore : ∀ {symbol : Symbol}, symbol.name = decl.name → Others (globals ++ [symbol]) := by
        intro symbol hsame other hmem hfun
        rcases List.mem_append.mp hmem with hmem | hmem
        · exact hglobals other hmem hfun
        · rw [List.mem_singleton.mp hmem, hsame]
          exact hnames decl List.mem_cons_self
      cases decl with
      | var decl =>
          obtain ⟨symbol, hdeclares, -, hrest⟩ := hresolved
          exact ih hrest (hmore hdeclares.name) hrestNames (h.emitGlobal decl)
      | «fun» decl =>
          obtain ⟨symbol, params, locals, hfunction, -, hrest⟩ := hresolved
          have hname := hfunction.declares.name
          obtain ⟨u, hle, hnext⟩ := h.emitFunction hsides hfunction hglobals
            (hname ▸ hnames _ List.mem_cons_self)
          obtain ⟨v, hle', hlast⟩ := ih hrest (hmore hname) hrestNames hnext
          exact ⟨v, hle.trans hle', hlast⟩

end

theorem aligned_empty : Declaring Pairing.empty {} {} := by
  constructor
  · exact Pairing.proper_empty
  · intro b p c q h
    cases h
  · intro b c h
    cases h
  · exact List.nodup_nil
  · intro b c h
    cases h
  · intro h
    cases h
  · intro b _
    rfl
  · intro c _
    rfl
  · exact .nil
  · refine ⟨rfl, fun _ _ => .none, ?_, ?_, rfl⟩
    · intro p hp
      cases hp
    · intro f hf
      cases hf

/-- The two modules of a program, one without the checks and one with them. -/
theorem aligned_emitProgram {options options' : IRGenOptions} (hsides : Sides options options')
    {program : Program} (h : Emittable program) :
    ∃ w, Declaring w (emitProgram options program) (emitProgram options' program) := by
  obtain ⟨w, -, hw⟩ := aligned_empty.emitDecls hsides h.resolved.decls
    (fun f hf _ => (builtinSymbols_plain f hf).1) h.reserved
  exact ⟨w, hw⟩

end IRGenerator

end CMinus
