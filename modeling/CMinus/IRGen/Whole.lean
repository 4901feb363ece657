import Mathlib.Data.List.Perm.Basic
import CMinus.IRGen.DefaultReturn
import CMinus.IRGen.Represents

namespace CMinus

/-! All symbols of a program: those of the global scope, and the parameters and locals. -/

def Decl.slots : Decl → List Symbol
  | .var _ => []
  | .fun decl => decl.params.filterMap ParamDecl.symbol ++ decl.locals.filterMap VarDecl.symbol

def Decl.storage (decl : Decl) : List Symbol := decl.symbol.toList ++ decl.slots

def Program.storage (program : Program) : List Symbol :=
  builtinSymbols ++ program.decls.flatMap Decl.storage

theorem filterMap_of_forall₂ {α : Type} {f : α → Option Symbol} {R : α → Symbol → Prop}
    (hR : ∀ a symbol, R a symbol → f a = some symbol) {l : List α} {symbols : List Symbol}
    (h : List.Forall₂ R l symbols) : l.filterMap f = symbols := by
  induction h with
  | nil => rfl
  | cons ha _ ih => rw [List.filterMap_cons_some (hR _ _ ha), ih]

theorem FunDecl.Resolved.slots {globals params locals : List Symbol} {decl : FunDecl}
    {symbol : Symbol} (h : decl.Resolved globals symbol params locals) :
    (Decl.fun decl).slots = params ++ locals := by
  have hparams := filterMap_of_forall₂ (fun _ _ h => h.carries) h.eachParam
  have hlocals := filterMap_of_forall₂ (fun _ _ h => h.carries) h.eachLocal
  change decl.params.filterMap ParamDecl.symbol ++ decl.locals.filterMap VarDecl.symbol = _
  rw [hparams, hlocals]

theorem VarDecl.Declares.storage {decl : VarDecl} {symbol : Symbol} (h : decl.Declares symbol) :
    (Decl.var decl).storage = [symbol] := by
  change decl.symbol.toList ++ [] = [symbol]
  rw [h.carries]
  rfl

theorem FunDecl.Resolved.storage {globals params locals : List Symbol} {decl : FunDecl}
    {symbol : Symbol} (h : decl.Resolved globals symbol params locals) :
    (Decl.fun decl).storage = symbol :: (params ++ locals) := by
  change decl.symbol.toList ++ (Decl.fun decl).slots = _
  rw [h.slots, h.declares.carries]
  rfl

theorem ResolvedDecls.storage {decls : List Decl} {globals storage : List Symbol}
    (h : ResolvedDecls globals storage decls) :
    Numbered (storage ++ decls.flatMap Decl.storage) := by
  induction decls generalizing globals storage with
  | nil =>
      rw [List.flatMap_nil, List.append_nil]
      exact h
  | cons decl decls ih =>
      rw [List.flatMap_cons, ← List.append_assoc]
      cases decl with
      | var decl =>
          obtain ⟨symbol, hdeclares, -, hrest⟩ := h
          rw [hdeclares.storage]
          exact ih hrest
      | «fun» decl =>
          obtain ⟨symbol, params, locals, hdecl, -, hrest⟩ := h
          rw [hdecl.storage]
          rw [List.append_assoc, List.cons_append] at hrest
          exact ih hrest

namespace Program

variable {program : Program}

theorem Resolved.storage_ids (h : program.Resolved) : (program.storage.map Symbol.id).Nodup :=
  h.decls.storage.nodup

theorem storage_perm (program : Program) :
    program.storage.Perm (program.symbols ++ program.decls.flatMap Decl.slots) := by
  unfold storage symbols
  rw [List.append_assoc, List.filterMap_eq_flatMap_toList]
  exact (List.flatMap_append_perm _ _ _).symm.append_left _

theorem symbols_subset (program : Program) : program.symbols ⊆ program.storage :=
  fun _ h => program.storage_perm.symm.subset (List.mem_append_left _ h)

/-- The parameters and locals of a function are symbols of their own. -/
theorem Resolved.slots_own (h : program.Resolved) {decl : Decl} (hdecl : decl ∈ program.decls)
    {symbol : Symbol} (hsymbol : symbol ∈ decl.slots) :
    symbol ∈ program.storage ∧ symbol ∉ program.symbols := by
  have hslot : symbol ∈ program.decls.flatMap Decl.slots :=
    List.mem_flatMap.mpr ⟨decl, hdecl, hsymbol⟩
  constructor
  · exact program.storage_perm.symm.subset (List.mem_append_right _ hslot)
  · have hnodup := (program.storage_perm.map Symbol.id).nodup_iff.mp h.storage_ids
    rw [List.map_append, List.nodup_append] at hnodup
    intro hglobal
    exact hnodup.2.2 _ (List.mem_map_of_mem hglobal) _ (List.mem_map_of_mem hslot) rfl

end Program

namespace IRGenerator

open SSA IR Meaning

variable {p : Plan} {all : List Symbol} {decls : List Decl} {storage globals : List Symbol}
  {done : List String} {K : Nat → Set Fact} {g g' g'' : IRGenerator}

/-! What the declarations `decls` leave of the generator: what is recorded stays so, and
only the functions among them get a body. -/

structure Later (decls : List Decl) (g g' : IRGenerator) : Prop where
  addresses : g.addresses <:+ g'.addresses
  globals : g.globals ⊆ g'.globals
  made : ∀ decl symbol, .var decl ∈ decls → decl.symbol = some symbol →
    ⟨symbol.name, storageType symbol⟩ ∈ g'.globals
  bodies : ∀ f ∈ g'.functions, f.blocks ≠ [] → (∃ f' ∈ g.functions, f'.name = f.name ∧
    f'.blocks ≠ []) ∨ ∃ decl, .fun decl ∈ decls ∧ decl.name = f.name

theorem Later.nil (g : IRGenerator) : Later [] g g :=
  ⟨List.suffix_rfl, fun _ h => h, fun _ _ h => absurd h List.not_mem_nil,
    fun f hf hblocks => .inl ⟨f, hf, rfl, hblocks⟩⟩

theorem Later.cons {decl : Decl} (h : Later [decl] g g') (h' : Later decls g' g'') :
    Later (decl :: decls) g g'' := by
  refine ⟨h.addresses.trans h'.addresses, List.Subset.trans h.globals h'.globals, ?_, ?_⟩
  · intro other symbol hother hsymbol
    rcases List.mem_cons.mp hother with hother | hother
    · exact h'.globals (h.made other symbol (hother ▸ List.mem_cons_self) hsymbol)
    · exact h'.made other symbol hother hsymbol
  · intro f hf hblocks
    rcases h'.bodies f hf hblocks with ⟨f', hf', hname, hblocks'⟩ | ⟨other, hother, hname⟩
    · rcases h.bodies f' hf' hblocks' with ⟨f'', hf'', hname', hblocks''⟩ |
        ⟨other, hother, hname'⟩
      · exact .inl ⟨f'', hf'', hname'.trans hname, hblocks''⟩
      · refine .inr ⟨other, ?_, hname'.trans hname⟩
        rw [List.mem_singleton] at hother
        exact hother ▸ List.mem_cons_self
    · exact .inr ⟨other, List.mem_cons_of_mem _ hother, hname⟩

theorem later_emitGlobal (decl : VarDecl) (g : IRGenerator) :
    Later [.var decl] g (emitGlobal decl g).2 := by
  have hbodies : ∀ f ∈ g.functions, f.blocks ≠ [] → (∃ f' ∈ g.functions, f'.name = f.name ∧
      f'.blocks ≠ []) ∨ ∃ other, .fun other ∈ [Decl.var decl] ∧ other.name = f.name :=
    fun f hf hblocks => .inl ⟨f, hf, rfl, hblocks⟩
  cases hsymbol : decl.symbol with
  | none =>
      have heq : (emitGlobal decl g).2 = g := by
        unfold emitGlobal
        rw [hsymbol]
        rfl
      rw [heq]
      refine ⟨List.suffix_rfl, fun _ h => h, ?_, hbodies⟩
      intro other symbol hother hsome
      cases List.mem_singleton.mp hother
      rw [hsymbol] at hsome
      cases hsome
  | some symbol =>
      have heq : (emitGlobal decl g).2 =
          { g with globals := g.globals ++ [⟨symbol.name, storageType symbol⟩]
                   addresses := (symbol.id, .global symbol.name) :: g.addresses } := by
        unfold emitGlobal
        rw [hsymbol]
      rw [heq]
      refine ⟨List.suffix_cons _ _, List.subset_append_left _ _, ?_, hbodies⟩
      intro other symbol' hother hsome
      cases List.mem_singleton.mp hother
      rw [hsymbol] at hsome
      cases hsome
      exact List.mem_append_right _ (List.mem_singleton_self _)

theorem Emitted.later {decl : FunDecl} (h : Emitted p decl K g g') : Later [.fun decl] g g' := by
  obtain ⟨visible, symbol, slots, K', g2, function, hfilled, -, hname, -, hfunction, rfl, -⟩ :=
    h.filled
  refine ⟨?_, ?_, ?_, ?_⟩
  · obtain ⟨new, haddresses, -⟩ := hfilled.addresses
    exact ⟨new, haddresses.symm⟩
  · change g.globals ⊆ g2.globals
    rw [hfilled.globals]
    exact fun _ h => h
  · intro other symbol' hother
    cases List.mem_singleton.mp hother
  · intro f hf hblocks
    obtain ⟨f', hf', rfl⟩ := List.mem_map.mp hf
    by_cases hsame : f'.name = function.name
    · refine .inr ⟨decl, List.mem_singleton_self _, ?_⟩
      rw [if_pos hsame]
      exact (hname.symm.trans hfunction.symm).trans hsame.symm
    · rw [if_neg hsame] at hblocks ⊢
      obtain ⟨new, hfunctions, hnew⟩ := hfilled.functions
      rw [hfunctions] at hf'
      rcases List.mem_append.mp hf' with hf' | hf'
      · exact .inl ⟨f', hf', rfl, hblocks⟩
      · exact absurd (hnew f' hf') hblocks

theorem Midway.later (hfits : p.Fits all) (decls : List Decl) :
    ∀ {storage globals : List Symbol} {done : List String} {K : Nat → Set Fact}
      {g : IRGenerator}, Midway p all decls storage globals done K g →
      Later decls g (IRGenerator.emitDecls p.options decls g).2 := by
  induction decls with
  | nil =>
      intro storage globals done K g _
      exact .nil g
  | cons decl decls ih =>
      intro storage globals done K g h
      cases decl with
      | var decl =>
          have hrun := Midway.emitGlobal h
          unfold Run at hrun
          obtain ⟨storage', globals', done', K', hnext, -⟩ := hrun
          exact (later_emitGlobal decl g).cons (ih hnext)
      | «fun» decl =>
          have hrun := Midway.emitFunction hfits h
          unfold Run at hrun
          obtain ⟨⟨storage', globals', done', K', hnext, -⟩, hemitted⟩ := hrun
          exact hemitted.later.cons (ih hnext)

theorem Stays.within (h : Stays g g') (htidy : g.builder.Tidy) :
    g.builder.Within g'.builder.code := by
  intro b
  by_cases hb : b < g.builder.nextBlock
  · exact (h.code b hb).symm ▸ List.prefix_rfl
  · rw [htidy.unborn b (Nat.le_of_not_lt hb)]
    exact List.nil_prefix

/-! The program from one of its functions on. -/

section program

variable {options : IRGenOptions} {program : Program}

theorem midway_program (options : IRGenOptions) (h : Emittable program) {before later : List Decl}
    (hsplit : program.decls = before ++ later) : ∃ storage globals done K,
      Midway (planOf options program) program.symbols later storage globals done K
        (emitDecls options before {}).2 := by
  have hstart : Midway (planOf options program) program.symbols (before ++ later)
      builtinSymbols builtinSymbols [] (fun _ => ∅) {} := by
    refine ⟨built_empty _, hsplit ▸ h.resolved.decls, ?_, List.Sublist.refl _, ?_, ?_⟩
    · rw [← hsplit]
      rfl
    · exact fun name hname => absurd hname List.not_mem_nil
    · exact fun symbol hsymbol _ => .inl hsymbol
  have hrun := hstart.emitDecls (fits_planOf options h) before
  unfold Run at hrun
  obtain ⟨storage, globals, done, K, hmidway, -⟩ := hrun
  exact ⟨storage, globals, done, K, hmidway⟩

theorem later_emitProgram (options : IRGenOptions) (h : Emittable program) :
    Later program.decls {} (emitProgram options program) := by
  obtain ⟨storage, globals, done, K, hmidway⟩ :=
    midway_program options h (List.nil_append program.decls).symm
  exact Midway.later (fits_planOf options h) program.decls hmidway

/-- A function of the program; `g` is the generator as it comes to it. -/
structure Hosted (options : IRGenOptions) (program : Program) (decl : FunDecl) (g : IRGenerator)
    (globals : List Symbol) (symbol : Symbol) (params locals : List Symbol) : Prop where
  resolved : decl.Resolved globals symbol params locals
  declared : .fun decl ∈ program.decls
  scope : ∀ other ∈ globals, other ∈ program.symbols
  listed : symbol ∈ (planOf options program).functions
  tidy : g.builder.Tidy
  enters : Enters (planOf options program).functions g (signatureOf symbol)
    (functionFor symbol g).1 (functionFor symbol g).2
  stored : ∀ other ∈ globals, other.isFunction = false →
    (other.id, .global other.name) ∈ g.addresses
  sub : g.addresses ⊆ (emitFunction options decl g).2.addresses
  keys : ((emitFunction options decl g).2.addresses.map Prod.fst).Nodup
  final : ∀ q ∈ (emitFunction options decl g).2.addresses,
    (emitProgram options program).addresses.lookup q.1 = some q.2
  code : (emitFunction options decl g).2.builder.Within (emitProgram options program).builder.code
  entry : (getFunction (emitProgram options program).functions symbol.name).bind
    (fun f => f.blocks.head?) = some g.builder.nextBlock

theorem hosted_emitProgram (options : IRGenOptions) (h : Emittable program)
    {before after : List Decl} {decl : FunDecl}
    (hsplit : program.decls = before ++ .fun decl :: after) :
    ∃ globals symbol params locals, Hosted options program decl (emitDecls options before {}).2
      globals symbol params locals := by
  have hfits := fits_planOf options h
  obtain ⟨storage, globals, done, K, hmidway⟩ := midway_program options h hsplit
  obtain ⟨f, hends⟩ := ends_emitProgram options h hsplit
  obtain ⟨storage', done', K', hbuilt, -, -⟩ := built_emitProgram options h
  obtain ⟨symbol, params, locals, hdecl, -, -⟩ := hmidway.resolved
  have hrun := Midway.emitFunction hfits hmidway
  unfold Run at hrun
  obtain ⟨⟨storage1, globals1, done1, K1, hnext, -⟩, hemitted⟩ := hrun
  let g := (emitDecls options before {}).2
  let g' := (emitFunction options decl g).2
  have hend : (emitDecls options after g').2 = emitProgram options program := by
    unfold emitProgram
    rw [hsplit, emitDecls_append]
    rfl
  have hfun : symbol.isFunction = true := by
    simp [Symbol.isFunction, hdecl.declares.kind]
  have hall : globals ++ symbol :: after.filterMap Decl.symbol = program.symbols := by
    have hcons : (Decl.fun decl :: after).filterMap Decl.symbol =
        symbol :: after.filterMap Decl.symbol :=
      List.filterMap_cons_some hdecl.declares.carries
    rw [← hmidway.rest, hcons]
  have hglobals : ∀ other ∈ globals, other ∈ program.symbols :=
    fun other hother => hall ▸ List.mem_append_left _ hother
  have hlisted : symbol ∈ (planOf options program).functions :=
    hfits.mem_functions.mpr ⟨hall ▸ List.mem_append_right _ List.mem_cons_self, hfun⟩
  have hproper : ((planOf options program).scene [] default 0).Proper :=
    hfits.proper fun other hother => absurd hother List.not_mem_nil
  have hcallee := enters_functionFor hproper hmidway.built.declared hlisted
  unfold Run at hcallee
  have hlater : Later after g' (emitProgram options program) := hend ▸ Midway.later hfits after hnext
  have hstays : Stays g' (emitProgram options program) := hend ▸ Midway.stays hfits after hnext
  obtain ⟨new, haddresses⟩ := hlater.addresses
  refine ⟨globals, symbol, params, locals, hdecl, ?_, hglobals, hlisted, hmidway.built.tidy,
    hcallee, hmidway.built.stored, hemitted.later.addresses.subset, hnext.built.keysNodup, ?_,
    hstays.within hnext.built.tidy, ?_⟩
  · rw [hsplit]
    exact List.mem_append_right _ List.mem_cons_self
  · intro q hq
    exact lookup_of_nodup hbuilt.keysNodup (haddresses ▸ List.mem_append_right _ hq)
  · have hname : f.name = symbol.name := hends.name.trans hdecl.declares.name.symm
    rw [← hname, find_of_names hbuilt.declared.names hends.listed]
    exact hends.head

end program

end IRGenerator

end CMinus
