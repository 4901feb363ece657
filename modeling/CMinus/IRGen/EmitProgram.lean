import CMinus.IRGen.Prologue
import CMinus.IRGen.WellFormed

namespace CMinus

namespace IRGenerator

open SSA IR

/-! Between two declarations.  A plan fixes what the scenes of one program share. -/

structure Plan where
  options : IRGenOptions
  functions : List Symbol
  globals : List String

namespace Plan

def signatures (p : Plan) : Signatures :=
  { functions := p.functions.map signatureOf ++ [indexErrorSignature]
    globals := p.globals
    bits := p.options.indexBits }

def scene (p : Plan) (visible : List Symbol) (function : Function) (entry : Nat) : Scene :=
  { options := p.options, functions := p.functions, globals := p.globals, visible := visible
    function := function, entry := entry }

end Plan

/-- A function whose blocks are all there. -/
structure Complete (p : Plan) (K : Nat → Set Fact) (s : Builder Instr) (f : Function)
    (entry : Nat) : Prop where
  starts : f.blocks.head? = some entry
  distinct : f.blocks.Nodup
  born : ∀ b ∈ f.blocks, b < s.nextBlock
  nothing : K entry = ∅
  checks : ∀ b ∈ f.blocks, (typing p.signatures f).Checks K (K b) (s.code b)
  closed : ∀ b ∈ f.blocks, IsClosed (s.code b)
  branches : ∀ b ∈ f.blocks, ∀ i ∈ s.code b, ∀ t ∈ i.successors, t ∈ f.blocks ∧ t ≠ entry
  typed : ∀ b ∈ f.blocks, ∀ r ty, .typed r ty ∈ K b →
    ∃ b' ∈ f.blocks, ∃ i ∈ s.code b', i.defines = some r ∧ i.resultTy = some ty

/-- The code of a complete function stays, and so do the facts at its blocks. -/
theorem Complete.later {p : Plan} {K K' : Nat → Set Fact} {s t : Builder Instr} {f : Function}
    {entry : Nat} (h : Complete p K s f entry) (hK : ∀ b, b < s.nextBlock → K' b = K b)
    (hcode : ∀ b, b < s.nextBlock → t.code b = s.code b) (hblocks : s.nextBlock ≤ t.nextBlock) :
    Complete p K' t f entry := by
  have hborn := h.born
  have hentry : entry < s.nextBlock := hborn _ (List.mem_of_mem_head? h.starts)
  refine ⟨h.starts, h.distinct, fun b hb => (hborn b hb).trans_le hblocks, ?_, ?_, ?_, ?_, ?_⟩
  · rw [hK entry hentry]
    exact h.nothing
  · intro b hb
    rw [hK b (hborn b hb), hcode b (hborn b hb)]
    refine (h.checks b hb).congr fun i hi t ht => ?_
    exact hK t (hborn t (h.branches b hb i hi t ht).1)
  · intro b hb
    rw [hcode b (hborn b hb)]
    exact h.closed b hb
  · intro b hb i hi
    rw [hcode b (hborn b hb)] at hi
    exact h.branches b hb i hi
  · intro b hb r ty hfact
    rw [hK b (hborn b hb)] at hfact
    obtain ⟨b', hb', i, hi, htyped⟩ := h.typed b hb r ty hfact
    exact ⟨b', hb', i, by rwa [hcode b' (hborn b' hb')], htyped⟩

/-- The scene of a function ends with all its blocks complete. -/
theorem Shut.complete {p : Plan} {visible : List Symbol} {function f : Function} {entry : Nat}
    {K : Nat → Set Fact} {g : IRGenerator}
    (h : Shut (p.scene visible function entry) K ∅ g) (hK : K entry = ∅)
    (hparams : f.params = function.params) (hreturn : f.returnType = function.returnType)
    (hblocks : f.blocks = g.builder.layout) : Complete p K g.builder f entry := by
  have hlisted : ∀ b ∈ f.blocks, entry ≤ b ∧ b < g.builder.nextBlock := by
    rw [hblocks]
    exact h.listed
  have hlaid : ∀ b, entry ≤ b → b < g.builder.nextBlock → b ∈ f.blocks := by
    intro b hle hb
    rw [hblocks]
    exact (h.laid b hle hb).resolve_left (Set.notMem_empty b)
  refine ⟨hblocks ▸ h.first, hblocks ▸ h.distinct, fun b hb => (hlisted b hb).2, hK, ?_, ?_, ?_,
    ?_⟩
  · intro b hb
    obtain ⟨hle, hlt⟩ := hlisted b hb
    rw [typing_congr hparams hreturn]
    exact h.sound.checks b hle hlt
  · intro b hb
    obtain ⟨hle, hlt⟩ := hlisted b hb
    rcases h.sound.settled b hle hlt with rfl | hP | hclosed
    · exact h.closed
    · cases hP
    · exact hclosed
  · intro b hb i hi t ht
    obtain ⟨hlt, hborn⟩ := h.sound.targets b (hlisted b hb).1 i hi t ht
    exact ⟨hlaid t (Nat.le_of_lt hlt) hborn, Nat.ne_of_gt hlt⟩
  · intro b hb r ty hfact
    obtain ⟨hle, hlt⟩ := hlisted b hb
    obtain ⟨-, b', i, hi, hdef, hty⟩ := h.sound.grounded b hle hlt _ hfact
    unfold Builder.codeFrom at hi
    split at hi
    · next hle' =>
        refine ⟨b', hlaid b' hle' ?_, i, hi, hdef, hty⟩
        by_contra hge
        rw [h.sound.valid.unborn b' (Nat.le_of_not_lt hge)] at hi
        cases hi
    · cases hi

/-- After some declarations: `storage` are the symbols stored so far, `globals` those of
the global scope, and `done` the functions that have a body. -/
structure Built (p : Plan) (storage globals : List Symbol) (done : List String)
    (K : Nat → Set Fact) (g : IRGenerator) : Prop where
  valid : g.builder.Valid
  declared : Declared p.functions g
  recorded : Recorded g
  fallbacks : g.fallbacks = []
  complete : ∀ f ∈ g.functions, f.blocks ≠ [] → ∃ entry, Complete p K g.builder f entry
  bodies : ∀ f ∈ g.functions, f.blocks ≠ [] ↔ f.name ∈ done
  present : ∀ name ∈ done, ∃ f ∈ g.functions, f.name = name
  apart : ∀ f ∈ g.functions, ∀ f' ∈ g.functions, ∀ b, b ∈ f.blocks → b ∈ f'.blocks → f = f'
  housed : ∀ b, b < g.builder.nextBlock → ∃ f ∈ g.functions, b ∈ f.blocks
  keys : ∀ q ∈ g.addresses, q.1 ∈ storage.map Symbol.id
  keysNodup : (g.addresses.map Prod.fst).Nodup
  distinct : (g.addresses.map Prod.snd).Nodup
  values : ∀ q ∈ g.addresses, (∃ r, q.2 = .reg r ∧ r < g.builder.nextReg) ∨
    ∃ symbol ∈ globals, q.2 = .global symbol.name
  stored : ∀ symbol ∈ globals, symbol.isFunction = false →
    (symbol.id, .global symbol.name) ∈ g.addresses
  names : g.globals.map GlobalVariable.name =
    (globals.filter fun symbol => !symbol.isFunction).map Symbol.name
  guarded : p.options.indexChecks = true → ∀ σ ∈ g.subscripts, Guarded g.builder.code σ
  safe : ∀ σ ∈ g.accesses, σ.block < g.builder.nextBlock ∧
    SafeAccess p.options.indexChecks K g.builder.code σ

theorem lookup_of_nodup {l : List (Nat × Operand)} (hnodup : (l.map Prod.fst).Nodup)
    {key : Nat} {a : Operand} (h : (key, a) ∈ l) : l.lookup key = some a := by
  induction l with
  | nil => cases h
  | cons q l ih =>
      rw [List.map_cons, List.nodup_cons] at hnodup
      rw [List.lookup_cons]
      rcases List.mem_cons.mp h with rfl | h
      · simp
      · have hne : key ≠ q.1 := by
          rintro rfl
          exact hnodup.1 (List.mem_map.mpr ⟨_, h, rfl⟩)
        rw [beq_false_of_ne hne]
        exact ih hnodup.2 h

variable {p : Plan} {storage globals visible : List Symbol} {done : List String} {K : Nat → Set Fact}
  {g : IRGenerator}

/-- A global variable. -/
theorem Built.emitGlobal (h : Built p storage globals done K g) {decl : VarDecl}
    {symbol : Symbol} (hdeclares : decl.Declares symbol)
    (hid : symbol.id ∉ storage.map Symbol.id)
    (hname : symbol.name ∉ globals.map Symbol.name) :
    Run (emitGlobal decl) g fun _ g' =>
      Built p (storage ++ [symbol]) (globals ++ [symbol]) done K g' ∧ g'.diags = g.diags := by
  have hfun : symbol.isFunction = false := by
    simp [Symbol.isFunction, hdeclares.kind]
  have hkey : symbol.id ∉ g.addresses.map Prod.fst := by
    intro hmem
    obtain ⟨q, hq, hsame⟩ := List.mem_map.mp hmem
    exact hid (hsame ▸ h.keys q hq)
  have hvalue : Operand.global symbol.name ∉ g.addresses.map Prod.snd := by
    intro hmem
    obtain ⟨q, hq, hsame⟩ := List.mem_map.mp hmem
    rcases h.values q hq with ⟨r, hr, -⟩ | ⟨other, hother, hsecond⟩
    · rw [hsame] at hr
      cases hr
    · rw [hsame] at hsecond
      injection hsecond with heq
      exact hname (heq ▸ List.mem_map_of_mem hother)
  unfold Run IRGenerator.emitGlobal
  rw [hdeclares.carries]
  refine ⟨⟨h.valid, ⟨h.declared.names, h.declared.keys, h.declared.listed, h.declared.signed,
    h.declared.calls⟩, ?_, h.fallbacks, h.complete, h.bodies, h.present, h.apart, h.housed, ?_,
    List.nodup_cons.mpr ⟨hkey, h.keysNodup⟩, List.nodup_cons.mpr ⟨hvalue, h.distinct⟩, ?_, ?_,
    ?_, h.guarded, h.safe⟩, rfl⟩
  · intro b k i address hi haddress
    exact (h.recorded b k i address hi haddress).imp_left
      fun ⟨id, hmem⟩ => ⟨id, List.mem_cons_of_mem _ hmem⟩
  · intro q hq
    rw [List.map_append]
    rcases List.mem_cons.mp hq with rfl | hq
    · exact List.mem_append_right _ (by simp)
    · exact List.mem_append_left _ (h.keys q hq)
  · intro q hq
    rcases List.mem_cons.mp hq with rfl | hq
    · exact .inr ⟨symbol, by simp, rfl⟩
    · exact (h.values q hq).imp_right
        fun ⟨other, hother, hsame⟩ => ⟨other, List.mem_append_left _ hother, hsame⟩
  · intro other hother hvar
    rcases List.mem_append.mp hother with hother | hother
    · exact List.mem_cons_of_mem _ (h.stored other hother hvar)
    · rw [List.mem_singleton.mp hother]
      exact List.mem_cons_self
  · dsimp only
    rw [List.map_append, h.names, List.filter_append, List.map_append]
    simp [hfun]

/-! A function.  `opened` is the generator at the start of its first block. -/

def opened (g : IRGenerator) (function : Function) : IRGenerator :=
  { g with
    currentFunction := some function
    builder := { g.builder.newBlock with layout := [g.builder.nextBlock]
                                         cur := g.builder.nextBlock } }

theorem run_startFunction {function : Function} {Q : Unit → IRGenerator → Prop}
    (h : Q () { g with currentFunction := some function
                       builder := { g.builder with layout := [] } }) :
    Run (startFunction function) g Q := h

theorem Built.ready {c : Scene} (h : Built p storage globals done K g)
    (hdiscipline : c.entry = g.builder.nextBlock) {function : Function} {g' : IRGenerator}
    (hdeclared : Declared c.functions g')
    (hsame : ∃ new keys, g' = { g with functions := g.functions ++ new, functionNames := keys })
    (hreturn : function.returnType = c.function.returnType)
    (hglobals : c.globals = p.globals)
    (hnames : ∀ symbol ∈ globals, symbol.isFunction = false → symbol.name ∈ p.globals)
    (hvisible : ∀ symbol ∈ c.visible, symbol.isFunction = false → symbol ∈ globals) :
    Ready c (Function.update K g.builder.nextBlock ∅) ∅ ∅ (opened g' function) := by
  obtain ⟨new, keys, rfl⟩ := hsame
  have hempty := h.valid.unborn g.builder.nextBlock le_rfl
  have honly : ∀ b, c.entry ≤ b → b < g.builder.nextBlock + 1 → b = g.builder.nextBlock := by
    intro b hle hlt
    omega
  refine ⟨⟨⟨⟨?_, h.valid.numbered, h.valid.ssa⟩, ?_, ?_, ?_, ?_⟩, ⟨hdeclared.names,
    hdeclared.keys, hdeclared.listed, hdeclared.signed, hdeclared.calls⟩, h.recorded, ?_, ?_, ?_,
    ?_, h.fallbacks, ?_⟩, ⟨?_, ?_, ?_, ?_, ?_⟩, ?_⟩
  · exact fun b hb => h.valid.unborn b (Nat.le_of_succ_le hb)
  · intro b hle hb
    rw [honly b hle hb]
    change c.discipline.Checks _ _ (g.builder.code g.builder.nextBlock)
    rw [hempty]
    trivial
  · intro b hle hb
    exact .inl (honly b hle hb)
  · intro b hle hb fact hfact
    rw [honly b hle hb, Function.update_self] at hfact
    cases hfact
  · intro b hle i hi
    change i ∈ g.builder.code b at hi
    rw [h.valid.unborn b (by omega)] at hi
    cases hi
  · intro b hle hb
    rw [honly b hle hb]
    exact .inr (List.mem_singleton_self _)
  · intro b hb
    rw [List.mem_singleton.mp hb]
    exact ⟨hdiscipline.le, Nat.lt_succ_self _⟩
  · exact List.nodup_singleton _
  · rw [hdiscipline]
    rfl
  · exact congrArg some hreturn
  · exact hdiscipline.le
  · exact Nat.lt_succ_self _
  · change IsOpen (g.builder.code g.builder.nextBlock)
    rw [hempty]
    exact IsOpen.nil
  · change c.discipline.after (Function.update K g.builder.nextBlock ∅ g.builder.nextBlock)
      (g.builder.code g.builder.nextBlock) = ∅
    rw [hempty, Function.update_self]
    rfl
  · intro fact hfact
    cases hfact
  · intro symbol hsymbol hfun
    have hglobal := hvisible symbol hsymbol hfun
    refine ⟨.global symbol.name, lookup_of_nodup h.keysNodup (h.stored symbol hglobal hfun),
      rfl, ?_⟩
    change symbol.name ∈ c.globals
    rw [hglobals]
    exact hnames symbol hglobal hfun

theorem returns_of_declares {c : Scene} {decl : FunDecl} {symbol : Symbol}
    (hdeclares : decl.Declares symbol) (hfunction : c.function = signatureOf symbol) :
    c.Returns decl.returnType := by
  have htype : c.function.returnType = (signatureOf symbol).returnType :=
    congrArg Function.returnType hfunction
  refine ⟨htype ▸ signatureOf_returnType symbol, fun hne => ?_⟩
  rw [htype]
  unfold signatureOf
  dsimp only
  rw [hdeclares.returnType, if_neg hne]
  split <;> rfl

/-- The end of a body that runs out without a return. -/
theorem run_finish {c : Scene} {A : Set Fact} (h : Ready c K ∅ A g) {function : Function}
    (hreturn : function.returnType = c.function.returnType) {returnType : CType}
    (hreturns : c.Returns returnType) :
    Run (if function.returnType = .void then emit (.ret none)
      else emit (.ret (some (int32 0)))) g fun _ g' =>
        Next c g.builder.nextBlock K g K g' ∧ Shut c K ∅ g' ∧ g'.diags = g.diags := by
  have hshut : ∀ value, (Instr.ret value).WellTyped c.signatures c.function A →
      Shut c K ∅ { g with builder := g.builder.append (.ret value) } := by
    intro value hty
    exact h.close (i := .ret value) rfl hty (by simp [Instr.successors])
      (by simp [Instr.successors])
  split
  · next hvoid =>
      exact run_emit ⟨.append c _ K g _, hshut none (hreturn.symm.trans hvoid), rfl⟩
  · next hint =>
      rw [hreturn] at hint
      exact run_emit ⟨.append c _ K g _, hshut _ ⟨hint, hreturns.type.resolve_left hint⟩, rfl⟩

theorem run_body {c : Scene} (hc : (c.seeing visible).Proper) (h : Ready c K ∅ ∅ g)
    {decl : FunDecl} {symbol : Symbol} {params locals : List Symbol} {function : Function}
    (hvisible : visible = c.visible ++ (params ++ locals))
    (hdeclares : decl.Declares symbol) (hfunction : c.function = signatureOf symbol)
    (hparams : List.Forall₂ ParamDecl.Declares decl.params params)
    (hlocals : List.Forall₂ VarDecl.Declares decl.locals locals)
    (hbody : ResolvedStmts visible decl.returnType decl.body.stmts)
    (hids : (visible.map Symbol.id).Nodup)
    (hreturn : function.returnType = c.function.returnType) :
    Run (do
      emitParams 0 decl.params
      emitLocals (collectLocals decl.body.toStmt)
      emitCompound c.options decl.body.stmts
      unlessClosed (if function.returnType = .void then emit (.ret none)
        else emit (.ret (some (int32 0))))) g fun _ g' => ∃ K',
      Next c g.builder.nextBlock K { g with addresses := g'.addresses } K' g' ∧
        Shut (c.seeing visible) K' ∅ g' ∧
        (∃ new, g'.addresses = new ++ g.addresses ∧
          new.map Prod.fst = ((params ++ locals).map Symbol.id).reverse ∧
          (new.map Prod.snd).Nodup ∧
          ∀ p ∈ new, ∃ r, p.2 = .reg r ∧ g.builder.nextReg ≤ r ∧ r < g'.builder.nextReg) ∧
        g'.diags = g.diags ++ reported (bareArraysOf decl.body.stmts) := by
  subst hvisible
  have hargs : ∀ k, k < decl.params.length →
      ∃ ty, c.function.params[0 + k]? = some ty ∧ (ty = .i32 ∨ ty = .ptr) := by
    intro k hk
    have hlist : c.function.params =
        decl.params.map fun param => paramTy (variableType param.isArray) := by
      rw [hfunction, signatureOf_params, hdeclares.paramTypes, List.map_map]
      rfl
    refine ⟨paramTy (variableType decl.params[k].isArray), ?_, ?_⟩
    · rw [hlist, Nat.zero_add, List.getElem?_map, List.getElem?_eq_getElem hk]
      rfl
    · cases decl.params[k].isArray
      · exact .inl rfl
      · exact .inr rfl
  rw [← List.append_assoc] at hids
  have hfirst : ((c.visible ++ params).map Symbol.id).Nodup := by
    rw [List.map_append] at hids
    exact hids.of_append_left
  refine Run.bind (Run.mono (run_emitParams hparams h hfirst hargs) ?_)
  intro _ g1 hslotted1
  have hslotted : Run (emitLocals (collectLocals decl.body.toStmt)) g1 fun _ g2 =>
      Slotted c K ∅ ∅ g (params ++ locals) g2 :=
    hslotted1.append fun A' hready => run_emitLocals hlocals hready hids
  refine Run.bind (Run.mono hslotted ?_)
  intro _ g2 hslotted2
  obtain ⟨A2, -, hready2⟩ := hslotted2.ready
  obtain ⟨new, haddresses, hkeys, hdistinct, hregs⟩ := hslotted2.addresses
  have hreturns : (c.seeing (c.visible ++ (params ++ locals))).Returns decl.returnType :=
    returns_of_declares hdeclares hfunction
  have hresult : ∀ {K' : Nat → Set Fact} {g' : IRGenerator} {diags : Diagnostics},
      Next (c.seeing (c.visible ++ (params ++ locals))) g2.builder.nextBlock K g2 K' g' →
      Shut (c.seeing (c.visible ++ (params ++ locals))) K' ∅ g' → g'.diags = g2.diags ++ diags →
      ∃ K', Next c g.builder.nextBlock K { g with addresses := g'.addresses } K' g' ∧
        Shut (c.seeing (c.visible ++ (params ++ locals))) K' ∅ g' ∧
        (∃ new, g'.addresses = new ++ g.addresses ∧
          new.map Prod.fst = ((params ++ locals).map Symbol.id).reverse ∧
          (new.map Prod.snd).Nodup ∧
          ∀ p ∈ new, ∃ r, p.2 = .reg r ∧ g.builder.nextReg ≤ r ∧ r < g'.builder.nextReg) ∧
        g'.diags = g.diags ++ diags := by
    intro K' g' diags hnext hshut hdiags
    have hnext' : Next c g.builder.nextBlock K g2 K' g' := by
      rw [← hslotted2.blocks]
      exact ⟨hnext.grows, hnext.agrees, hnext.layout, hnext.addresses, hnext.globals,
        hnext.functions, hnext.subscripts, hnext.accesses⟩
    refine ⟨K', ?_, hshut, ⟨new, hnext.addresses.trans haddresses, hkeys, hdistinct, ?_⟩, ?_⟩
    · rw [hnext.addresses]
      exact hslotted2.next.trans hnext'
    · intro p hp
      obtain ⟨r, hr, hle, hlt⟩ := hregs p hp
      exact ⟨r, hr, hle, hlt.trans_le hnext.grows.regs⟩
    · rw [hdiags, hslotted2.diags]
  refine Run.bind (Run.mono (emits_emitCompound hc hreturns _ hbody ∅ K A2 g2 hready2) ?_)
  rintro - g3 ⟨K3, hnext3, hdiags3, hleft⟩
  generalize someCloses decl.body.stmts = closed at hleft
  cases hleft with
  | shut hshut => exact run_unlessClosed_shut hshut (hresult hnext3 hshut hdiags3)
  | «open» A3 hmore hready3 =>
      refine run_unlessClosed_ready hready3 (Run.mono (run_finish hready3 hreturn hreturns) ?_)
      rintro - g4 ⟨hnext4, hshut4, hdiags4⟩
      exact hresult (hnext3.followed hnext4 hnext3.grows.blocks) hshut4
        (hdiags4.trans hdiags3)

/-- The function gets the blocks that have been laid out. -/
def withBody (name : String) (blocks : List Nat) (f : Function) : Function :=
  if f.name = name then { f with blocks := blocks } else f

@[simp] theorem withBody_name (name : String) (blocks : List Nat) (f : Function) :
    (withBody name blocks f).name = f.name := by
  unfold withBody
  split <;> rfl

@[simp] theorem withBody_signature (name : String) (blocks : List Nat) (f : Function) :
    { withBody name blocks f with blocks := [] } = { f with blocks := [] } := by
  unfold withBody
  split <;> rfl

theorem withBody_of_ne {name : String} {blocks : List Nat} {f : Function}
    (h : f.name ≠ name) : withBody name blocks f = f :=
  if_neg h

theorem Declared.withBody {T : List Symbol} (h : Declared T g) (name : String)
    (blocks : List Nat) {g' : IRGenerator} (hcode : g'.builder.code = g.builder.code)
    (hkeys : g'.functionNames = g.functionNames)
    (hfunctions : g'.functions = g.functions.map (withBody name blocks)) : Declared T g' := by
  have hmap : g'.functions.map Function.name = g.functions.map Function.name := by
    rw [hfunctions, List.map_map]
    exact List.map_congr_left fun f _ => withBody_name name blocks f
  have hfind : ∀ {callee : String}, (∃ f ∈ g.functions, f.name = callee) →
      ∃ f ∈ g'.functions, f.name = callee := by
    rintro callee ⟨f, hf, hname⟩
    refine ⟨IRGenerator.withBody name blocks f, ?_, (withBody_name name blocks f).trans hname⟩
    rw [hfunctions]
    exact List.mem_map_of_mem hf
  refine ⟨hmap ▸ h.names, hkeys ▸ h.keys, ?_, ?_, ?_⟩
  · rw [hkeys]
    exact fun q hq => hfind (h.listed q hq)
  · rw [hfunctions, hkeys]
    intro f hf
    obtain ⟨f', hf', rfl⟩ := List.mem_map.mp hf
    rw [withBody_signature]
    exact h.signed f' hf'
  · rw [hcode]
    exact fun b r callee args hcall => hfind (h.calls b r callee args hcall)

/-- A name stands for one function. -/
theorem Declared.unique {T : List Symbol} (h : Declared T g) {f f' : Function}
    (hf : f ∈ g.functions) (hf' : f' ∈ g.functions) (hname : f.name = f'.name) : f = f' :=
  List.inj_on_of_nodup_map h.names hf hf' hname

theorem Declared.signature {c : Scene} (hc : c.Proper) (h : Declared c.functions g)
    {f : Function} (hf : f ∈ g.functions) {symbol : Symbol} (hsymbol : symbol ∈ c.functions)
    (hname : f.name = symbol.name) : { f with blocks := [] } = signatureOf symbol := by
  rcases h.signed f hf with herror | ⟨symbol', hsymbol', hsig, -⟩
  · have hreserved : f.name = kIndexErrorName := congrArg Function.name herror
    refine absurd ?_ hc.reserved
    rw [← hreserved, hname]
    exact List.mem_map_of_mem hsymbol
  · have hname' : f.name = symbol'.name := congrArg Function.name hsig
    obtain rfl : symbol = symbol' :=
      List.inj_on_of_nodup_map hc.names hsymbol hsymbol' (hname.symm.trans hname')
    exact hsig

/-- What has happened between the start of a function and its end. -/
structure Filled (p : Plan) (visible : List Symbol) (symbol : Symbol) (slots : List Symbol)
    (K : Nat → Set Fact) (g : IRGenerator) (K' : Nat → Set Fact) (g' : IRGenerator) :
    Prop where
  proper : (p.scene visible (signatureOf symbol) g.builder.nextBlock).Proper
  shut : Shut (p.scene visible (signatureOf symbol) g.builder.nextBlock) K' ∅ g'
  nothing : K' g.builder.nextBlock = ∅
  agrees : ∀ b, b < g.builder.nextBlock → K' b = K b
  code : ∀ b, b < g.builder.nextBlock → g'.builder.code b = g.builder.code b
  prefixes : ∀ b, g.builder.code b <+: g'.builder.code b
  blocks : g.builder.nextBlock < g'.builder.nextBlock
  regs : g.builder.nextReg ≤ g'.builder.nextReg
  functions : ∃ new, g'.functions = g.functions ++ new ∧ ∀ f ∈ new, f.blocks = []
  listed : ∃ f ∈ g'.functions, f.name = symbol.name
  globals : g'.globals = g.globals
  addresses : ∃ new, g'.addresses = new ++ g.addresses ∧
    new.map Prod.fst = (slots.map Symbol.id).reverse ∧ (new.map Prod.snd).Nodup ∧
    ∀ q ∈ new, ∃ r, q.2 = .reg r ∧ g.builder.nextReg ≤ r ∧ r < g'.builder.nextReg
  subscripts : ∃ new, g'.subscripts = g.subscripts ++ new ∧
    (p.options.indexChecks = true → ∀ σ ∈ new, Guarded g'.builder.code σ)
  accesses : ∃ new, g'.accesses = g.accesses ++ new ∧
    ∀ σ ∈ new, σ.block < g'.builder.nextBlock ∧
      SafeAccess p.options.indexChecks K' g'.builder.code σ

section filled

variable {symbol : Symbol} {slots : List Symbol} {K' : Nat → Set Fact} {g' : IRGenerator}

/-- The functions that had a body before are as they were. -/
theorem Filled.old (hfilled : Filled p visible symbol slots K g K' g')
    (h : Built p storage globals done K g) {f : Function} (hf : f ∈ g'.functions)
    (hblocks : f.blocks ≠ []) : f ∈ g.functions ∧ f.name ∈ done := by
  obtain ⟨new, hfunctions, hnew⟩ := hfilled.functions
  rw [hfunctions] at hf
  rcases List.mem_append.mp hf with hf | hf
  · exact ⟨hf, (h.bodies f hf).mp hblocks⟩
  · exact absurd (hnew f hf) hblocks

theorem Filled.mem_old (hfilled : Filled p visible symbol slots K g K' g') {f : Function}
    (hf : f ∈ g.functions) : f ∈ g'.functions := by
  obtain ⟨new, hfunctions, -⟩ := hfilled.functions
  rw [hfunctions]
  exact List.mem_append_left _ hf

theorem Filled.bodies (hfilled : Filled p visible symbol slots K g K' g')
    (h : Built p storage globals done K g) {f : Function} (hf : f ∈ g'.functions) :
    f.blocks ≠ [] ↔ f.name ∈ done := by
  refine ⟨fun hblocks => (hfilled.old h hf hblocks).2, fun hname => ?_⟩
  obtain ⟨f', hf', hname'⟩ := h.present f.name hname
  obtain rfl := hfilled.shut.declared.unique (hfilled.mem_old hf') hf hname'
  exact (h.bodies f' hf').mpr hname

/-- The blocks of the new function are apart from the old ones. -/
theorem Filled.fresh (hfilled : Filled p visible symbol slots K g K' g')
    (h : Built p storage globals done K g) {f : Function} (hf : f ∈ g'.functions) {b : Nat}
    (hb : b ∈ f.blocks) : b ∉ g'.builder.layout := by
  have hne : f.blocks ≠ [] := List.ne_nil_of_mem hb
  obtain ⟨hold, -⟩ := hfilled.old h hf hne
  obtain ⟨entry, hcomplete⟩ := h.complete f hold hne
  intro hlaid
  have hle : g.builder.nextBlock ≤ b := (hfilled.shut.listed b hlaid).1
  exact absurd (hcomplete.born b hb) (Nat.not_lt_of_le hle)

theorem Filled.complete (hfilled : Filled p visible symbol slots K g K' g')
    (h : Built p storage globals done K g) (hsymbol : symbol ∈ p.functions) {f : Function}
    (hf : f ∈ g'.functions)
    (hblocks : (withBody symbol.name g'.builder.layout f).blocks ≠ []) :
    ∃ entry, Complete p K' g'.builder (withBody symbol.name g'.builder.layout f) entry := by
  by_cases hname : f.name = symbol.name
  · have hsig : { f with blocks := [] } = signatureOf symbol :=
      hfilled.shut.declared.signature hfilled.proper hf hsymbol hname
    have heq : withBody symbol.name g'.builder.layout f =
        { f with blocks := g'.builder.layout } := if_pos hname
    rw [heq]
    have hparams := congrArg Function.params hsig
    have hreturn := congrArg Function.returnType hsig
    exact ⟨_, hfilled.shut.complete hfilled.nothing hparams hreturn rfl⟩
  · rw [withBody_of_ne hname] at hblocks ⊢
    obtain ⟨hold, -⟩ := hfilled.old h hf hblocks
    obtain ⟨entry, hcomplete⟩ := h.complete f hold hblocks
    exact ⟨entry, hcomplete.later hfilled.agrees hfilled.code (Nat.le_of_lt hfilled.blocks)⟩

theorem Filled.apart (hfilled : Filled p visible symbol slots K g K' g')
    (h : Built p storage globals done K g) {f f' : Function} (hf : f ∈ g'.functions)
    (hf' : f' ∈ g'.functions) {b : Nat}
    (hb : b ∈ (withBody symbol.name g'.builder.layout f).blocks)
    (hb' : b ∈ (withBody symbol.name g'.builder.layout f').blocks) : f = f' := by
  have hunique := fun hname => hfilled.shut.declared.unique hf hf' hname
  unfold withBody at hb hb'
  split at hb
  · next hname =>
      split at hb'
      · next hname' => exact hunique (hname.trans hname'.symm)
      · exact absurd hb (hfilled.fresh h hf' hb')
  · split at hb'
    · exact absurd hb' (hfilled.fresh h hf hb)
    · obtain ⟨hold, -⟩ := hfilled.old h hf (List.ne_nil_of_mem hb)
      obtain ⟨hold', -⟩ := hfilled.old h hf' (List.ne_nil_of_mem hb')
      exact h.apart f hold f' hold' b hb hb'

theorem Filled.housed (hfilled : Filled p visible symbol slots K g K' g')
    (h : Built p storage globals done K g) (hnew : symbol.name ∉ done) {b : Nat}
    (hb : b < g'.builder.nextBlock) :
    ∃ f ∈ g'.functions, b ∈ (withBody symbol.name g'.builder.layout f).blocks := by
  by_cases hlt : b < g.builder.nextBlock
  · obtain ⟨f, hf, hmem⟩ := h.housed b hlt
    refine ⟨f, hfilled.mem_old hf, ?_⟩
    have hname : f.name ≠ symbol.name := by
      intro hname
      exact hnew (hname ▸ (h.bodies f hf).mp (List.ne_nil_of_mem hmem))
    rwa [withBody_of_ne hname]
  · obtain ⟨f, hf, hname⟩ := hfilled.listed
    have hlaid : b ∈ g'.builder.layout :=
      (hfilled.shut.laid b (Nat.le_of_not_lt hlt) hb).resolve_left (Set.notMem_empty b)
    refine ⟨f, hf, ?_⟩
    unfold withBody
    rwa [if_pos hname]

theorem Filled.built (hfilled : Filled p visible symbol slots K g K' g')
    (h : Built p storage globals done K g) (hsymbol : symbol ∈ p.functions)
    (hfun : symbol.isFunction = true) (hnew : symbol.name ∉ done)
    (hids : (slots.map Symbol.id).Nodup)
    (hstorage : ∀ slot ∈ slots, slot.id ∉ storage.map Symbol.id) {function : Function}
    (hname : function.name = symbol.name) :
    Built p (storage ++ symbol :: slots) (globals ++ [symbol]) (done ++ [symbol.name]) K'
      (finishFunction function g').2 := by
  have hfunctions : (finishFunction function g').2.functions =
      g'.functions.map (withBody symbol.name g'.builder.layout) := by
    unfold finishFunction withBody
    rw [hname]
  obtain ⟨new, haddresses, hkeys, hdistinct, hregs⟩ := hfilled.addresses
  have hslot : ∀ q ∈ new, ∃ slot ∈ slots, q.1 = slot.id := by
    intro q hq
    have hmem : q.1 ∈ (slots.map Symbol.id).reverse := by
      rw [← hkeys]
      exact List.mem_map_of_mem hq
    obtain ⟨slot, hslot, hsame⟩ := List.mem_map.mp (List.mem_reverse.mp hmem)
    exact ⟨slot, hslot, hsame.symm⟩
  refine ⟨hfilled.shut.sound.valid, hfilled.shut.declared.withBody symbol.name
    g'.builder.layout rfl rfl hfunctions, hfilled.shut.recorded, hfilled.shut.fallbacks, ?_, ?_,
    ?_, ?_, ?_, ?_, ?_, ?_, ?_, ?_, ?_, ?_, ?_⟩
  · rw [hfunctions]
    intro f hf hblocks
    obtain ⟨f', hf', rfl⟩ := List.mem_map.mp hf
    exact hfilled.complete h hsymbol hf' hblocks
  · rw [hfunctions]
    intro f hf
    obtain ⟨f', hf', rfl⟩ := List.mem_map.mp hf
    rw [withBody_name, List.mem_append, List.mem_singleton]
    by_cases hsame : f'.name = symbol.name
    · have hlaid : g'.builder.layout ≠ [] := by
        intro hnil
        have hfirst := hfilled.shut.first
        rw [hnil] at hfirst
        cases hfirst
      unfold withBody
      rw [if_pos hsame]
      exact ⟨fun _ => .inr hsame, fun _ => hlaid⟩
    · rw [withBody_of_ne hsame, hfilled.bodies h hf']
      exact ⟨.inl, fun hdone => hdone.resolve_right hsame⟩
  · rw [hfunctions]
    intro name hdone
    have hfind : ∃ f ∈ g'.functions, f.name = name := by
      rcases List.mem_append.mp hdone with hdone | hdone
      · obtain ⟨f, hf, hsame⟩ := h.present name hdone
        exact ⟨f, hfilled.mem_old hf, hsame⟩
      · rw [List.mem_singleton.mp hdone]
        exact hfilled.listed
    obtain ⟨f, hf, hsame⟩ := hfind
    exact ⟨_, List.mem_map_of_mem hf, (withBody_name _ _ f).trans hsame⟩
  · rw [hfunctions]
    intro f hf f' hf' b hb hb'
    obtain ⟨f, hmem, rfl⟩ := List.mem_map.mp hf
    obtain ⟨f', hmem', rfl⟩ := List.mem_map.mp hf'
    rw [hfilled.apart h hmem hmem' hb hb']
  · rw [hfunctions]
    intro b hb
    obtain ⟨f, hf, hmem⟩ := hfilled.housed h hnew hb
    exact ⟨_, List.mem_map_of_mem hf, hmem⟩
  · intro q hq
    change q ∈ g'.addresses at hq
    rw [haddresses] at hq
    rw [List.map_append]
    rcases List.mem_append.mp hq with hq | hq
    · obtain ⟨slot, hmem, hsame⟩ := hslot q hq
      refine List.mem_append_right _ (List.mem_cons_of_mem _ ?_)
      rw [hsame]
      exact List.mem_map_of_mem hmem
    · exact List.mem_append_left _ (h.keys q hq)
  · change (g'.addresses.map Prod.fst).Nodup
    rw [haddresses, List.map_append, List.nodup_append, hkeys]
    refine ⟨List.nodup_reverse.mpr hids, h.keysNodup, ?_⟩
    rintro _ hid _ hkey rfl
    obtain ⟨slot, hmem, rfl⟩ := List.mem_map.mp (List.mem_reverse.mp hid)
    obtain ⟨q, hq, hsame⟩ := List.mem_map.mp hkey
    exact hstorage slot hmem (hsame ▸ h.keys q hq)
  · change (g'.addresses.map Prod.snd).Nodup
    rw [haddresses, List.map_append, List.nodup_append]
    refine ⟨hdistinct, h.distinct, ?_⟩
    rintro _ hvalue _ hvalue' rfl
    obtain ⟨q, hq, hsame⟩ := List.mem_map.mp hvalue
    obtain ⟨q', hq', hsame'⟩ := List.mem_map.mp hvalue'
    obtain ⟨r, hr, hle, -⟩ := hregs q hq
    rw [← hsame, hr] at hsame'
    rcases h.values q' hq' with ⟨r', hr', hlt⟩ | ⟨other, -, hother⟩
    · rw [hsame'] at hr'
      cases hr'
      omega
    · rw [hsame'] at hother
      cases hother
  · intro q hq
    change q ∈ g'.addresses at hq
    rw [haddresses] at hq
    rcases List.mem_append.mp hq with hq | hq
    · obtain ⟨r, hr, -, hlt⟩ := hregs q hq
      exact .inl ⟨r, hr, hlt⟩
    · rcases h.values q hq with ⟨r, hr, hlt⟩ | ⟨other, hother, hsame⟩
      · exact .inl ⟨r, hr, hlt.trans_le hfilled.regs⟩
      · exact .inr ⟨other, List.mem_append_left _ hother, hsame⟩
  · intro other hother hvar
    change _ ∈ g'.addresses
    rw [haddresses]
    rcases List.mem_append.mp hother with hother | hother
    · exact List.mem_append_right _ (h.stored other hother hvar)
    · rw [List.mem_singleton.mp hother, hfun] at hvar
      cases hvar
  · change g'.globals.map GlobalVariable.name = _
    rw [hfilled.globals, h.names, List.filter_append, List.map_append]
    simp [hfun]
  · obtain ⟨more, hsubscripts, hguarded⟩ := hfilled.subscripts
    intro hchecks σ hσ
    change σ ∈ g'.subscripts at hσ
    rw [hsubscripts] at hσ
    rcases List.mem_append.mp hσ with hσ | hσ
    · exact (h.guarded hchecks σ hσ).mono hfilled.prefixes
    · exact hguarded hchecks σ hσ
  · obtain ⟨more, haccesses, hsafe⟩ := hfilled.accesses
    intro σ hσ
    change σ ∈ g'.accesses at hσ
    rw [haccesses] at hσ
    rcases List.mem_append.mp hσ with hσ | hσ
    · obtain ⟨hlt, haccess⟩ := h.safe σ hσ
      exact ⟨hlt.trans hfilled.blocks,
        haccess.mono hfilled.prefixes (hfilled.agrees _ hlt)⟩
    · exact hsafe σ hσ

end filled

/-- What a plan has to do with the symbols of the global scope. -/
structure Plan.Fits (p : Plan) (all : List Symbol) : Prop where
  functions : p.functions = all.filter Symbol.isFunction
  globals : p.globals = (all.filter fun symbol => !symbol.isFunction).map Symbol.name
  ids : (all.map Symbol.id).Nodup
  names : (all.map Symbol.name).Nodup
  reserved : kIndexErrorName ∉ all.map Symbol.name
  returns : ∀ symbol ∈ all, symbol.isFunction = true → symbol.returnType ≠ .intArray
  params : ∀ symbol ∈ all, symbol.isFunction = true → .void ∉ symbol.paramTypes

theorem Plan.Fits.mem_functions {all : List Symbol} (hfits : p.Fits all) {symbol : Symbol} :
    symbol ∈ p.functions ↔ symbol ∈ all ∧ symbol.isFunction = true := by
  rw [hfits.functions]
  exact List.mem_filter

theorem Plan.Fits.mem_globals {all : List Symbol} (hfits : p.Fits all) {symbol : Symbol}
    (hmem : symbol ∈ all) (hvar : symbol.isFunction = false) : symbol.name ∈ p.globals := by
  rw [hfits.globals]
  exact List.mem_map_of_mem (List.mem_filter.mpr ⟨hmem, by simp [hvar]⟩)

theorem Plan.Fits.proper {all : List Symbol} (hfits : p.Fits all) {function : Function}
    {entry : Nat}
    (hvisible : ∀ symbol ∈ visible, symbol.isFunction = true → symbol ∈ all) :
    (p.scene visible function entry).Proper := by
  have hsub : (p.functions).Sublist all := by
    rw [hfits.functions]
    exact List.filter_sublist
  refine ⟨hfits.ids.sublist (hsub.map _), hfits.names.sublist (hsub.map _), ?_, ?_, ?_, ?_⟩
  · exact fun hmem => hfits.reserved ((hsub.map _).subset hmem)
  · exact fun symbol hsymbol hfun => hfits.mem_functions.mpr ⟨hvisible symbol hsymbol hfun, hfun⟩
  · intro symbol hsymbol
    obtain ⟨hmem, hfun⟩ := hfits.mem_functions.mp hsymbol
    exact hfits.returns symbol hmem hfun
  · intro symbol hsymbol
    obtain ⟨hmem, hfun⟩ := hfits.mem_functions.mp hsymbol
    exact hfits.params symbol hmem hfun

theorem isFunction_param {param : ParamDecl} {symbol : Symbol} (h : param.Declares symbol) :
    symbol.isFunction = false := by
  simp [Symbol.isFunction, h.kind]

theorem isFunction_var {decl : VarDecl} {symbol : Symbol} (h : decl.Declares symbol) :
    symbol.isFunction = false := by
  simp [Symbol.isFunction, h.kind]

theorem slots_not_functions {params : List ParamDecl} {locals : List VarDecl}
    {first second : List Symbol} (hparams : List.Forall₂ ParamDecl.Declares params first)
    (hlocals : List.Forall₂ VarDecl.Declares locals second) :
    ∀ symbol ∈ first ++ second, symbol.isFunction = false := by
  intro symbol hmem
  rcases List.mem_append.mp hmem with hmem | hmem
  · obtain ⟨k, hk, rfl⟩ := List.mem_iff_getElem.mp hmem
    exact isFunction_param (hparams.get (hparams.length_eq ▸ hk) hk)
  · obtain ⟨k, hk, rfl⟩ := List.mem_iff_getElem.mp hmem
    exact isFunction_var (hlocals.get (hlocals.length_eq ▸ hk) hk)

theorem Built.fills {all : List Symbol} (hfits : p.Fits all)
    (h : Built p storage globals done K g) {decl : FunDecl} {symbol : Symbol}
    {params locals : List Symbol} (hdecl : decl.Resolved globals symbol params locals)
    (hglobals : ∀ other ∈ globals, other ∈ all) (hsymbol : symbol ∈ all)
    (hsub : globals.Sublist storage)
    (hids : ((storage ++ symbol :: (params ++ locals)).map Symbol.id).Nodup)
    (hnew : symbol.name ∉ done) :
    Run (emitFunction p.options decl) g fun _ g' => ∃ K' g2 function,
      Filled p (globals ++ [symbol] ++ (params ++ locals)) symbol (params ++ locals) K g K' g2 ∧
        function.name = symbol.name ∧ g' = (finishFunction function g2).2 ∧
        Built p (storage ++ symbol :: (params ++ locals)) (globals ++ [symbol])
          (done ++ [symbol.name]) K' g' ∧
        g'.diags = g.diags ++ reported (bareArraysOf decl.body.stmts) := by
  have hfun : symbol.isFunction = true := by
    simp [Symbol.isFunction, hdecl.declares.kind]
  have hmem : symbol ∈ p.functions := hfits.mem_functions.mpr ⟨hsymbol, hfun⟩
  have hslots := slots_not_functions hdecl.eachParam hdecl.eachLocal
  have hglobal : ∀ other ∈ globals ++ [symbol], other ∈ all := by
    intro other hother
    rcases List.mem_append.mp hother with hother | hother
    · exact hglobals other hother
    · rw [List.mem_singleton.mp hother]
      exact hsymbol
  have hproper : ∀ entry, (p.scene (globals ++ [symbol] ++ (params ++ locals))
      (signatureOf symbol) entry).Proper := by
    intro entry
    apply hfits.proper
    intro other hother hfun'
    rcases List.mem_append.mp hother with hother | hother
    · exact hglobal other hother
    · rw [hslots other hother] at hfun'
      cases hfun'
  have hvisible : ((globals ++ [symbol] ++ (params ++ locals)).map Symbol.id).Nodup := by
    refine hids.sublist (List.Sublist.map _ ?_)
    rw [List.append_assoc]
    exact hsub.append (List.Sublist.refl _)
  unfold IRGenerator.emitFunction
  rw [hdecl.declares.carries]
  refine Run.bind (Run.mono (enters_functionFor (hproper 0) h.declared hmem) ?_)
  rintro function g1 ⟨hsame, hdeclared, hcallee⟩
  obtain ⟨new, keys, hblocks, rfl⟩ := hsame
  have hready := h.ready (c := p.scene (globals ++ [symbol]) (signatureOf symbol)
      g.builder.nextBlock) rfl hdeclared ⟨new, keys, rfl⟩ hcallee.returnType rfl
    (fun other hother hvar => hfits.mem_globals (hglobals other hother) hvar) (by
      intro other hother hvar
      rcases List.mem_append.mp hother with hother | hother
      · exact hother
      · rw [List.mem_singleton.mp hother, hfun] at hvar
        cases hvar)
  refine Run.bind (run_startFunction (Run.bind (run_createBlock
    (Run.bind (run_setInsertPoint ?_)))))
  change Run ((do
    emitParams 0 decl.params
    emitLocals (collectLocals decl.body.toStmt)
    emitCompound p.options decl.body.stmts
    unlessClosed (if function.returnType = .void then emit (.ret none)
      else emit (.ret (some (int32 0))))) >>= fun _ => finishFunction function)
    (opened { g with functions := g.functions ++ new, functionNames := keys } function) _
  refine Run.bind (Run.mono (run_body (c := p.scene (globals ++ [symbol]) (signatureOf symbol)
      g.builder.nextBlock) (hproper g.builder.nextBlock) hready rfl
    hdecl.declares rfl hdecl.eachParam hdecl.eachLocal (by
      rw [← List.append_assoc]
      exact hdecl.body) hvisible hcallee.returnType) ?_)
  rintro - g2 ⟨K2, hnext, hshut, haddresses, hdiags⟩
  have hlt : ∀ b, b < g.builder.nextBlock → b < g.builder.nextBlock + 1 :=
    fun b hb => Nat.lt_succ_of_lt hb
  have hfilled : Filled p (globals ++ [symbol] ++ (params ++ locals)) symbol (params ++ locals)
      K g K2 g2 := by
    refine ⟨hproper _, hshut, ?_, ?_, ?_, hnext.grows.code, hnext.grows.blocks,
      hnext.grows.regs, ?_, ?_, hnext.globals, haddresses, hnext.subscripts, hnext.accesses⟩
    · rw [hnext.agrees _ (Nat.lt_succ_self g.builder.nextBlock), Function.update_self]
    · intro b hb
      rw [hnext.agrees b (hlt b hb), Function.update_of_ne (Nat.ne_of_lt hb)]
    · intro b hb
      exact hnext.grows.frame b (hlt b hb) (Nat.ne_of_lt hb)
    · obtain ⟨more, hmore, hempty⟩ := hnext.functions
      refine ⟨new ++ more, by rw [hmore, ← List.append_assoc]; rfl, ?_⟩
      intro f hf
      exact (List.mem_append.mp hf).elim (hblocks f) (hempty f)
    · obtain ⟨f, hf, hname⟩ := hcallee.listed
      exact ⟨f, hnext.functions_prefix.subset hf, hname⟩
  have hnodup : ((params ++ locals).map Symbol.id).Nodup := by
    refine hids.sublist (List.Sublist.map _ ?_)
    exact (List.sublist_cons_self symbol _).trans (List.sublist_append_right _ _)
  refine ⟨K2, g2, function, hfilled, hcallee.name, rfl,
    hfilled.built h hmem hfun hnew hnodup ?_ hcallee.name, hdiags⟩
  intro slot hslot hmem'
  rw [List.map_append, List.nodup_append] at hids
  exact hids.2.2 _ hmem' _ (by
    rw [List.map_cons]
    exact List.mem_cons_of_mem _ (List.mem_map_of_mem hslot)) rfl

theorem Built.emitFunction {all : List Symbol} (hfits : p.Fits all)
    (h : Built p storage globals done K g) {decl : FunDecl} {symbol : Symbol}
    {params locals : List Symbol} (hdecl : decl.Resolved globals symbol params locals)
    (hglobals : ∀ other ∈ globals, other ∈ all) (hsymbol : symbol ∈ all)
    (hsub : globals.Sublist storage)
    (hids : ((storage ++ symbol :: (params ++ locals)).map Symbol.id).Nodup)
    (hnew : symbol.name ∉ done) :
    Run (emitFunction p.options decl) g fun _ g' => ∃ K',
      Built p (storage ++ symbol :: (params ++ locals)) (globals ++ [symbol])
        (done ++ [symbol.name]) K' g' ∧
        g'.diags = g.diags ++ reported (bareArraysOf decl.body.stmts) := by
  apply Run.mono (h.fills hfits hdecl hglobals hsymbol hsub hids hnew)
  intro _ g' hfills
  obtain ⟨K', -, -, -, -, -, hbuilt, hdiags⟩ := hfills
  exact ⟨K', hbuilt, hdiags⟩

/-! All declarations. -/

def bareArraysOfDecls : List Decl → List SourceLocation
  | [] => []
  | .var _ :: decls => bareArraysOfDecls decls
  | .fun decl :: decls => bareArraysOf decl.body.stmts ++ bareArraysOfDecls decls

/-- The functions with a body are those that the program has declared so far. -/
structure Covers (globals : List Symbol) (done : List String) : Prop where
  names : ∀ name ∈ done, name ∈ globals.map Symbol.name
  functions : ∀ symbol ∈ globals, symbol.isFunction = true →
    symbol ∈ builtinSymbols ∨ symbol.name ∈ done

/-- The declarations `decls` of a program are still to come. -/
structure Midway (p : Plan) (all : List Symbol) (decls : List Decl)
    (storage globals : List Symbol) (done : List String) (K : Nat → Set Fact)
    (g : IRGenerator) : Prop where
  built : Built p storage globals done K g
  resolved : ResolvedDecls globals storage decls
  rest : globals ++ decls.filterMap Decl.symbol = all
  sub : globals.Sublist storage
  covers : Covers globals done

/-- What the emission of a declaration leads to. -/
def Advances (p : Plan) (all : List Symbol) (decls : List Decl) (bare : List SourceLocation)
    (g g' : IRGenerator) : Prop :=
  ∃ storage globals done K, Midway p all decls storage globals done K g' ∧
    g'.diags = g.diags ++ reported bare

theorem Midway.emitGlobal {all : List Symbol} {decl : VarDecl} {decls : List Decl}
    (h : Midway p all (.var decl :: decls) storage globals done K g) :
    Run (emitGlobal decl) g fun _ g' => Advances p all decls [] g g' := by
  obtain ⟨symbol, hdeclares, hname, hrest⟩ := h.resolved
  have hvar := isFunction_var hdeclares
  have hid : symbol.id ∉ storage.map Symbol.id := by
    have hnodup := hrest.numbered.nodup
    rw [List.map_append, List.nodup_append] at hnodup
    exact fun hmem => hnodup.2.2 _ hmem _ (by simp) rfl
  apply Run.mono (h.built.emitGlobal hdeclares hid hname)
  intro _ g' hresult
  obtain ⟨hbuilt, hdiags⟩ := hresult
  have hcons : (Decl.var decl :: decls).filterMap Decl.symbol =
      symbol :: decls.filterMap Decl.symbol :=
    List.filterMap_cons_some hdeclares.carries
  have hcovers : Covers (globals ++ [symbol]) done := by
    constructor
    · intro name hmem
      rw [List.map_append]
      exact List.mem_append_left _ (h.covers.names name hmem)
    · intro other hother hfun
      rcases List.mem_append.mp hother with hother | hother
      · exact h.covers.functions other hother hfun
      · rw [List.mem_singleton.mp hother, hvar] at hfun
        cases hfun
  have hall : globals ++ [symbol] ++ decls.filterMap Decl.symbol = all := by
    rw [← h.rest, hcons]
    simp
  exact ⟨_, _, _, _, ⟨hbuilt, hrest, hall, h.sub.append (List.Sublist.refl _), hcovers⟩,
    by simpa [reported] using hdiags⟩

/-- The new function, before and after it is finished. -/
structure Emitted (p : Plan) (decl : FunDecl) (K : Nat → Set Fact) (g g' : IRGenerator) :
    Prop where
  filled : ∃ visible symbol slots K' g2 function, Filled p visible symbol slots K g K' g2 ∧
    decl.symbol = some symbol ∧ symbol.name = decl.name ∧ symbol ∈ p.functions ∧
    function.name = symbol.name ∧ g' = (finishFunction function g2).2 ∧
    ∀ f ∈ g.functions, f.blocks ≠ [] → f.name ≠ symbol.name

theorem Midway.emitFunction {all : List Symbol} (hfits : p.Fits all) {decl : FunDecl}
    {decls : List Decl} (h : Midway p all (.fun decl :: decls) storage globals done K g) :
    Run (emitFunction p.options decl) g fun _ g' =>
      Advances p all decls (bareArraysOf decl.body.stmts) g g' ∧ Emitted p decl K g g' := by
  obtain ⟨symbol, params, locals, hdecl, hname, hrest⟩ := h.resolved
  rw [List.append_assoc, List.cons_append] at hrest
  have hfun : symbol.isFunction = true := by
    simp [Symbol.isFunction, hdecl.declares.kind]
  have hcons : (Decl.fun decl :: decls).filterMap Decl.symbol =
      symbol :: decls.filterMap Decl.symbol :=
    List.filterMap_cons_some hdecl.declares.carries
  have hall := h.rest
  rw [hcons] at hall
  have hnew : symbol.name ∉ done := fun hmem => hname (h.covers.names _ hmem)
  have hglobals : ∀ other ∈ globals, other ∈ all := by
    intro other hother
    rw [← hall]
    exact List.mem_append_left _ hother
  have hsymbol : symbol ∈ all := by
    rw [← hall]
    simp
  apply Run.mono (h.built.fills hfits hdecl hglobals hsymbol h.sub hrest.numbered.nodup hnew)
  intro _ g' hfills
  obtain ⟨K', g2, function, hfilled, hfunction, hg', hbuilt, hdiags⟩ := hfills
  have hcovers : Covers (globals ++ [symbol]) (done ++ [symbol.name]) := by
    constructor
    · intro name hmem
      rw [List.map_append]
      rcases List.mem_append.mp hmem with hmem | hmem
      · exact List.mem_append_left _ (h.covers.names name hmem)
      · exact List.mem_append_right _ (by simpa using hmem)
    · intro other hother hfun
      rcases List.mem_append.mp hother with hother | hother
      · exact (h.covers.functions other hother hfun).imp_right
          fun hmem => List.mem_append_left _ hmem
      · rw [List.mem_singleton.mp hother]
        exact .inr (List.mem_append_right _ (by simp))
  have hrest' : globals ++ [symbol] ++ decls.filterMap Decl.symbol = all := by
    rw [← hall]
    simp
  have hsub := h.sub.append (List.Sublist.cons_cons symbol (List.nil_sublist (params ++ locals)))
  constructor
  · exact ⟨_, _, _, K', ⟨hbuilt, hrest, hrest', hsub, hcovers⟩, hdiags⟩
  · refine ⟨_, symbol, _, K', g2, function, hfilled, hdecl.declares.carries,
      hdecl.declares.name, hfits.mem_functions.mpr ⟨hsymbol, hfun⟩, hfunction, hg', ?_⟩
    intro f hf hblocks hsame
    exact hnew (hsame ▸ (h.built.bodies f hf).mp hblocks)

/-- A run of declarations, with others after it. -/
theorem Midway.emitDecls {all : List Symbol} (hfits : p.Fits all) (decls : List Decl) :
    ∀ {later : List Decl} {storage globals : List Symbol} {done : List String}
      {K : Nat → Set Fact} {g : IRGenerator},
      Midway p all (decls ++ later) storage globals done K g →
      Run (emitDecls p.options decls) g fun _ g' =>
        Advances p all later (bareArraysOfDecls decls) g g' := by
  induction decls with
  | nil =>
      intro later storage globals done K g h
      exact run_pure ⟨storage, globals, done, K, h, by simp [bareArraysOfDecls, reported]⟩
  | cons decl decls ih =>
      intro later storage globals done K g h
      unfold IRGenerator.emitDecls
      cases decl with
      | var decl =>
          apply Run.bind
          apply Run.mono (Midway.emitGlobal h)
          intro _ g1 hfirst
          obtain ⟨storage1, globals1, done1, K1, h1, hdiags1⟩ := hfirst
          apply Run.mono (ih h1)
          intro _ g2 hsecond
          obtain ⟨storage2, globals2, done2, K2, h2, hdiags2⟩ := hsecond
          refine ⟨storage2, globals2, done2, K2, h2, ?_⟩
          rw [hdiags2, hdiags1, bareArraysOfDecls]
          simp [reported]
      | «fun» decl =>
          apply Run.bind
          apply Run.mono (Midway.emitFunction hfits h)
          intro _ g1 hfirst
          obtain ⟨⟨storage1, globals1, done1, K1, h1, hdiags1⟩, -⟩ := hfirst
          apply Run.mono (ih h1)
          intro _ g2 hsecond
          obtain ⟨storage2, globals2, done2, K2, h2, hdiags2⟩ := hsecond
          refine ⟨storage2, globals2, done2, K2, h2, ?_⟩
          rw [hdiags2, hdiags1, bareArraysOfDecls, reported_append, List.append_assoc]

theorem Built.emitDecls {all : List Symbol} (hfits : p.Fits all) :
    ∀ {decls : List Decl} {storage globals : List Symbol} {done : List String}
      {K : Nat → Set Fact} {g : IRGenerator}, Built p storage globals done K g →
      ResolvedDecls globals storage decls → globals ++ decls.filterMap Decl.symbol = all →
      globals.Sublist storage → Covers globals done →
      Run (emitDecls p.options decls) g fun _ g' => ∃ storage' done' K',
        Built p storage' all done' K' g' ∧ Covers all done' ∧
          g'.diags = g.diags ++ reported (bareArraysOfDecls decls) := by
  intro decls storage globals done K g h hresolved hall hsub hcovers
  have hmidway : Midway p all (decls ++ []) storage globals done K g := by
    rw [List.append_nil]
    exact ⟨h, hresolved, hall, hsub, hcovers⟩
  apply Run.mono (hmidway.emitDecls hfits decls)
  intro _ g' hadvances
  obtain ⟨storage', globals', done', K', hend, hdiags⟩ := hadvances
  obtain rfl : globals' = all := by simpa using hend.rest
  exact ⟨storage', done', K', hend.built, hend.covers, hdiags⟩

/-! A whole program. -/

def planOf (options : IRGenOptions) (program : Program) : Plan :=
  { options := options
    functions := program.symbols.filter Symbol.isFunction
    globals := (program.symbols.filter fun symbol => !symbol.isFunction).map Symbol.name }

theorem built_empty (p : Plan) :
    Built p builtinSymbols builtinSymbols [] (fun _ => ∅) {} := by
  refine ⟨⟨fun _ _ => rfl, ?_, ⟨fun _ => List.nodup_nil, ?_⟩⟩,
    ⟨List.nodup_nil, by simp, by simp, by simp, by simp⟩, ?_, rfl, by simp, by simp, by simp,
    by simp, by simp, by simp, List.nodup_nil, List.nodup_nil, by simp, ?_, by decide, by simp,
    by simp⟩
  · intro b r hr
    cases hr
  · intro b b' r hr
    cases hr
  · intro b k i address hi
    cases hi
  · decide

/-- What acceptance gives the generator. -/
structure Emittable (program : Program) : Prop where
  resolved : program.Resolved
  reserved : ∀ decl ∈ program.decls, decl.name ≠ kIndexErrorName
  returns : ∀ decl, .fun decl ∈ program.decls → decl.returnType ≠ .intArray

theorem builtinSymbols_plain : ∀ symbol ∈ builtinSymbols, symbol.name ≠ kIndexErrorName ∧
    symbol.returnType ≠ .intArray ∧ .void ∉ symbol.paramTypes := by
  decide

theorem fits_planOf (options : IRGenOptions) {program : Program}
    (h : Emittable program) : (planOf options program).Fits program.symbols := by
  obtain ⟨hnames, hids⟩ := h.resolved.decls.scope (List.Sublist.refl _) (by decide)
  have hsymbol : ∀ symbol ∈ program.symbols, symbol ∈ builtinSymbols ∨
      ∃ decl ∈ program.decls, decl.Declares symbol := by
    intro symbol hmem
    exact (List.mem_append.mp hmem).imp_right (h.resolved.decls.declared symbol)
  have hfun : ∀ symbol ∈ program.symbols, symbol.isFunction = true → symbol ∈ builtinSymbols ∨
      ∃ decl, .fun decl ∈ program.decls ∧ FunDecl.Declares decl symbol := by
    intro symbol hmem hfun
    rcases hsymbol symbol hmem with hbuiltin | ⟨decl, hdecl, hdeclares⟩
    · exact .inl hbuiltin
    · cases decl with
      | var decl =>
          rw [isFunction_var hdeclares] at hfun
          cases hfun
      | «fun» decl => exact .inr ⟨decl, hdecl, hdeclares⟩
  refine ⟨rfl, rfl, hids, hnames, ?_, ?_, ?_⟩
  · intro hmem
    obtain ⟨symbol, hsymbol', hname⟩ := List.mem_map.mp hmem
    rcases hsymbol symbol hsymbol' with hbuiltin | ⟨decl, hdecl, hdeclares⟩
    · exact (builtinSymbols_plain symbol hbuiltin).1 hname
    · exact h.reserved decl hdecl (hdeclares.name.symm.trans hname)
  · intro symbol hmem hisFunction
    rcases hfun symbol hmem hisFunction with hbuiltin | ⟨decl, hdecl, hdeclares⟩
    · exact (builtinSymbols_plain symbol hbuiltin).2.1
    · rw [hdeclares.returnType]
      exact h.returns decl hdecl
  · intro symbol hmem hisFunction
    rcases hfun symbol hmem hisFunction with hbuiltin | ⟨decl, hdecl, hdeclares⟩
    · exact (builtinSymbols_plain symbol hbuiltin).2.2
    · rw [hdeclares.paramTypes]
      intro hvoid
      obtain ⟨param, -, hparam⟩ := List.mem_map.mp hvoid
      unfold variableType at hparam
      split at hparam <;> cases hparam

theorem built_emitProgram (options : IRGenOptions) {program : Program}
    (h : Emittable program) : ∃ storage done K,
      Built (planOf options program) storage program.symbols done K
        (emitProgram options program) ∧ Covers program.symbols done ∧
        (emitProgram options program).diags = reported (bareArraysOfDecls program.decls) := by
  have hcovers : Covers builtinSymbols [] := by
    refine ⟨?_, fun symbol hmem _ => .inl hmem⟩
    intro name hmem
    cases hmem
  obtain ⟨storage, done, K, hbuilt, hcovers', hdiags⟩ :=
    (built_empty (planOf options program)).emitDecls (fits_planOf options h) h.resolved.decls rfl
      (List.Sublist.refl _) hcovers
  exact ⟨storage, done, K, hbuilt, hcovers', hdiags⟩

end IRGenerator

end CMinus
