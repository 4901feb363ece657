import CMinus.IRGen.Invokes
import CMinus.IRGen.MainReturn

namespace CMinus

namespace IR

open SSA

/-- The memory a module starts with: its global variables are zero. -/
def Module.storage (m : Module) : Store
  | .global name => (m.globals.find? fun v => v.name = name).map fun v =>
      { size := v.ty.cells, cell := fun _ => .i32 0 }
  | .slot _ _ => none

end IR

namespace IRGenerator

open SSA IR Meaning

section

variable {options : IRGenOptions} {program : Program} {junk : Key → Int → Value}

/-! The two functions that are there before the program have no code in the module. -/

theorem Emittable.symbol_cases (h : Emittable program) {symbol : Symbol}
    (hsymbol : symbol ∈ program.symbols) : symbol ∈ builtinSymbols ∨
      (∃ decl, .var decl ∈ program.decls ∧ VarDecl.Declares decl symbol) ∨
      ∃ decl, .fun decl ∈ program.decls ∧ FunDecl.Declares decl symbol := by
  rcases List.mem_append.mp hsymbol with hbuiltin | hdeclared
  · exact .inl hbuiltin
  · obtain ⟨decl, hdecl, hdeclares⟩ := h.resolved.decls.declared symbol hdeclared
    cases decl with
    | var decl => exact .inr (.inl ⟨decl, hdecl, hdeclares⟩)
    | «fun» decl => exact .inr (.inr ⟨decl, hdecl, hdeclares⟩)

theorem Compiles.builtin_entry (h : Compiles options program) {symbol : Symbol}
    (hsymbol : symbol ∈ builtinSymbols) :
    (settingOf options program junk).machine.entry symbol.name = none := by
  change (getFunction (emitProgram options program).functions symbol.name).bind _ = none
  cases hget : getFunction (emitProgram options program).functions symbol.name with
  | none => rfl
  | some f =>
      obtain ⟨hf, hname⟩ := getFunction_mem hget
      have hblocks : f.blocks = [] := by
        by_contra hne
        rcases (later_emitProgram options h.emittable).bodies f hf hne with
          ⟨f', hf', -⟩ | ⟨decl, hdecl, hsame⟩
        · cases hf'
        · obtain ⟨hnames, -⟩ :=
            h.emittable.resolved.decls.scope (List.Sublist.refl _) (by decide)
          rw [List.map_append, h.emittable.resolved.decls.names, List.nodup_append] at hnames
          exact hnames.2.2 _ (List.mem_map_of_mem hsymbol) _ (List.mem_map_of_mem hdecl)
            (hname.symm.trans hsame.symm)
      simp [hblocks]

theorem declares_some {f : Symbol} {decl : Decl} {found : FunDecl}
    (h : declares f decl = some found) : decl = .fun found ∧ found.symbol = some f := by
  unfold declares at h
  split at h
  · next other =>
      split at h
      · next hsymbol =>
          cases h
          exact ⟨rfl, hsymbol⟩
      · cases h
  · cases h

/-- A function of the program is predefined, or found where it is declared. -/
theorem Emittable.function_cases (h : Emittable program) {f : Symbol} (hf : f ∈ program.symbols)
    (hfun : f.isFunction = true) : (f ∈ builtinSymbols ∧ f.isBuiltin = true) ∨
      (f.isBuiltin = false ∧ ∃ decl, program.decls.findSome? (declares f) = some decl ∧
        .fun decl ∈ program.decls ∧ decl.symbol = some f) := by
  have hbuiltins : ∀ symbol ∈ builtinSymbols, symbol.isBuiltin = true := by decide
  rcases h.symbol_cases hf with hmem | ⟨decl, -, hdecl⟩ | ⟨decl, hmem, hdecl⟩
  · exact .inl ⟨hmem, hbuiltins f hmem⟩
  · rw [isFunction_var hdecl] at hfun
    cases hfun
  · have hdeclared : declares f (.fun decl) = some decl := by simp [declares, hdecl.carries]
    have hsome : (program.decls.findSome? (declares f)).isSome = true :=
      List.findSome?_isSome_iff.mpr ⟨_, hmem, by rw [hdeclared]; rfl⟩
    obtain ⟨found, hfind⟩ := Option.isSome_iff_exists.mp hsome
    obtain ⟨other, hother, hdeclares⟩ := List.exists_of_findSome?_eq_some hfind
    obtain ⟨rfl, hsymbol⟩ := declares_some hdeclares
    exact .inr ⟨hdecl.isBuiltin, found, hfind, hother, hsymbol⟩

theorem Emittable.hosted (h : Emittable program) (options : IRGenOptions) {decl : FunDecl}
    {f : Symbol} (hdecl : .fun decl ∈ program.decls) (hsymbol : decl.symbol = some f) :
    ∃ g globals params locals, Hosted options program decl g globals f params locals := by
  obtain ⟨before, after, hsplit⟩ := List.append_of_mem hdecl
  obtain ⟨globals, symbol, params, locals, hhosted⟩ := hosted_emitProgram options h hsplit
  obtain rfl : f = symbol :=
    Option.some.inj (hsymbol.symm.trans hhosted.resolved.declares.carries)
  exact ⟨_, globals, params, locals, hhosted⟩

/-- The last declaration is `main`, which takes nothing. -/
theorem Emittable.main (h : Emittable program) (options : IRGenOptions) :
    ∃ decl g globals symbol params locals, program.decls.getLast? = some (.fun decl) ∧
      symbol.name = kMainName ∧ symbol.paramTypes = [] ∧
      Hosted options program decl g globals symbol params locals := by
  obtain ⟨decl, hlast, hname, -, hparams⟩ := h.resolved.main
  obtain ⟨before, hsplit⟩ := List.getLast?_eq_some_iff.mp hlast
  obtain ⟨globals, symbol, params, locals, hhosted⟩ := hosted_emitProgram options h hsplit
  have htypes : symbol.paramTypes = [] := by
    rw [hhosted.resolved.declares.paramTypes, hparams]
    rfl
  exact ⟨decl, _, globals, symbol, params, locals, hlast,
    hhosted.resolved.declares.name.trans hname, htypes, hhosted⟩

theorem Hosted.functions (h : Emittable program) {decl : FunDecl} {g : IRGenerator}
    {globals params locals : List Symbol} {symbol : Symbol}
    (hhosted : Hosted options program decl g globals symbol params locals) :
    ∀ other ∈ globals ++ [symbol] ++ params ++ locals, other.isFunction = true →
      other ∈ program.symbols := by
  intro other hother hfun
  rw [List.append_assoc] at hother
  rcases List.mem_append.mp hother with hother | hother
  · rcases List.mem_append.mp hother with hother | hother
    · exact hhosted.scope other hother
    · rw [List.mem_singleton.mp hother]
      exact ((fits_planOf options h).mem_functions.mp hhosted.listed).1
  · rw [slots_not_functions hhosted.resolved.eachParam hhosted.resolved.eachLocal other hother]
      at hfun
    cases hfun

theorem Compiles.hosted_site (h : Compiles options program) {decl : FunDecl} {g : IRGenerator}
    {globals params locals : List Symbol} {symbol : Symbol}
    (hhosted : Hosted options program decl g globals symbol params locals) (number : Nat) :
    (siteOf options program junk (globals ++ [symbol] ++ params ++ locals) symbol number).Proper :=
  h.site (hhosted.functions h.emittable)

/-! Calls, by induction on the fuel that is left for them. -/

variable {c : Site} {top : Frame} {callers : List Frame} {state : State}
  {shared : Shared Store World} {r : Option Nat} {ops : List Operand} {values : List Value}
  {name : String}

/-- The machine executes a call. -/
theorem simulates_call {α : Type} {n : Nat} {outcome : Outcome State α}
    {Q : α → State → Config Store World → Prop}
    (hcode : (c.setting.machine.code top.block)[top.position]? = some (.call r name ops))
    (hvalues : ops.mapM (Operand.eval top.env) = some values)
    (h : c.comparison.Simulates n (c.setting.machine.enter r name values
      { top with position := top.position + 1 } callers shared) outcome Q) :
    c.comparison.Simulates (n + 1) (.running top callers shared) outcome Q := by
  have hexec : Executable.exec c.setting.machine.memory (Instr.call r name ops) top.env shared.mem =
      .call r name values := by
    change IR.exec c.setting.machine.memory (.call r name ops) top.env shared.mem = _
    simp only [IR.exec, hvalues]
  refine Comparison.Simulates.instr (κ := c.comparison) hcode ?_
  change c.comparison.Simulates n (Machine.perform _ _ _ _
    (Executable.exec c.setting.machine.memory _ _ _)) _ _
  rw [hexec, Machine.perform_call]
  exact h

/-- What the machine does for a function that has no code. -/
def Resumes (c : Site) (f : Symbol) (r : Option Nat) (top : Frame) (callers : List Frame)
    (mem : Store) (x : BitVec 32) (state' : State) (config : Config Store World) : Prop :=
  ∃ shared', config = .running
      { top with env := top.env.receive r (returned (signatureOf f).returnType x) } callers
      shared' ∧
    c.setting.Agrees state' shared' ∧ mem.Keeps shared'.mem

theorem simulates_predefined {n : Nat} {f : Symbol} {args : List Arg}
    (hruntime : c.setting.machine.runtime = runtime)
    (hentry : c.setting.machine.entry f.name = none) (hf : f ∈ builtinSymbols)
    (htypes : args.map Arg.type = f.paramTypes)
    (hpasses : List.Forall₂ (c.setting.Passes shared.mem) values args)
    (hagrees : c.setting.Agrees state shared) :
    c.comparison.Simulates n (c.setting.machine.enter r f.name values top callers shared)
      (predefined f.name args state) (Resumes c f r top callers shared.mem) := by
  have hworld := hagrees.world
  unfold Machine.enter
  rw [hentry, hruntime]
  rcases List.mem_cons.mp hf with rfl | hf
  · obtain rfl : args = [] := List.map_eq_nil_iff.mp htypes
    cases hpasses
    refine .done ⟨{ shared with world := shared.world.read }, ?_, ?_, .refl _⟩
    · rw [← hworld]
      rfl
    · rw [← hworld]
      exact hagrees.event _
  · rw [List.mem_singleton] at hf
    subst hf
    cases hpasses with
    | nil => cases htypes
    | cons hpass hpasses =>
        obtain ⟨htype, htypes⟩ := List.cons.inj htypes
        obtain rfl := List.map_eq_nil_iff.mp htypes
        cases hpasses
        cases hpass with
        | array _ _ => cases htype
        | int x =>
            refine .done ⟨{ shared with world := shared.world.write x }, rfl, ?_, .refl _⟩
            rw [← hworld]
            exact hagrees.event _

theorem calls_callFunction (h : Compiles options program) (n : Nat) :
    ∀ (visible : List Symbol) (symbol : Symbol) (number : Nat),
      (siteOf options program junk visible symbol number).Calls n (callFunction program n) := by
  induction n with
  | zero =>
      intro visible symbol number
      constructor
      intro f hf args htypes r ops values top callers state shared _ _ _ hagrees
      exact ⟨0, top, callers, shared, le_rfl, rfl, hagrees⟩
  | succ n ih =>
      intro visible symbol number
      constructor
      intro f hf args htypes r ops values top callers state shared hcode hvalues hpasses hagrees
      obtain ⟨hmem, hfun⟩ := (fits_planOf options h.emittable).mem_functions.mp hf
      refine simulates_call hcode hvalues ?_
      unfold callFunction
      rcases h.emittable.function_cases hmem hfun with
        ⟨hf, hbuiltin⟩ | ⟨hdeclared, decl, hfind, hdecl, hsymbol⟩
      · rw [if_pos hbuiltin]
        exact simulates_predefined rfl (h.builtin_entry hf) hf htypes hpasses hagrees
      · rw [if_neg (by simp [hdeclared])]
        simp only [hfind]
        obtain ⟨g, globals, params, locals, hhosted⟩ := h.emittable.hosted options hdecl hsymbol
        have hinvokes := hhosted.invokes h rfl (h.hosted_site hhosted _) (ih _ _ _) hagrees
          hpasses htypes r ({ top with position := top.position + 1 } :: callers)
        have hentry : (siteOf options program junk visible symbol number).setting.machine.entry
            f.name = some g.builder.nextBlock := hhosted.entry
        unfold Machine.enter
        rw [hentry]
        refine hinvokes.mono ?_
        rintro x state' config ⟨frame, shared', hresult, hconfig, hagrees', hmem'⟩
        subst hresult
        exact ⟨shared', hconfig, hagrees', hmem'⟩

/-! The start of the program. -/

theorem Compiles.storage (h : Compiles options program) {symbol : Symbol}
    (hsymbol : symbol ∈ program.symbols) (hvar : symbol.isFunction = false) :
    symbol.kind = .variable ∧ (emitProgram options program).module.storage (.global symbol.name) =
      some { size := (storageType symbol).cells, cell := fun _ => .i32 0 } := by
  obtain ⟨storage, done, K, hbuilt, -, -⟩ := built_emitProgram options h.emittable
  obtain ⟨hnames, -⟩ := h.emittable.resolved.decls.scope (List.Sublist.refl _) (by decide)
  have hdistinct : ((emitProgram options program).globals.map GlobalVariable.name).Nodup := by
    rw [hbuilt.names]
    exact hnames.sublist (List.filter_sublist.map _)
  have hdeclared : ∃ decl, .var decl ∈ program.decls ∧ VarDecl.Declares decl symbol := by
    rcases h.emittable.symbol_cases hsymbol with hf | hdeclared | ⟨decl, -, hdecl⟩
    · have hfunctions : ∀ f ∈ builtinSymbols, f.isFunction = true := by decide
      rw [hfunctions symbol hf] at hvar
      cases hvar
    · exact hdeclared
    · simp [Symbol.isFunction, hdecl.kind] at hvar
  obtain ⟨decl, hdecl, hdeclares⟩ := hdeclared
  have hmade := (later_emitProgram options h.emittable).made decl symbol hdecl hdeclares.carries
  refine ⟨hdeclares.kind, ?_⟩
  change ((emitProgram options program).globals.find? _).map _ = _
  cases hfind : (emitProgram options program).globals.find? fun v => v.name = symbol.name with
  | none =>
      have hnot := List.find?_eq_none.mp hfind _ hmade
      simp at hnot
  | some v =>
      have hname : v.name = symbol.name := by simpa using List.find?_some hfind
      have hsame := List.inj_on_of_nodup_map hdistinct (List.mem_of_find?_eq_some hfind) hmade hname
      rw [hsame]
      rfl

theorem Compiles.starts (h : Compiles options program) (world : World) :
    (settingOf options program junk).Agrees (initial program world)
      { mem := (emitProgram options program).module.storage, world := world } := by
  obtain ⟨storage, done, K, hbuilt, -, -⟩ := built_emitProgram options h.emittable
  refine ⟨rfl, rfl, ?_, ?_, ?_, fun _ _ _ => rfl⟩
  · rintro ⟨symbol, call⟩ i x hx
    unfold initial at hx
    dsimp only at hx
    split at hx
    · next hglobal =>
        obtain ⟨hcall, hsymbol, hvar, -, -⟩ := hglobal
        cases hx
        obtain ⟨hkind, hblock⟩ := h.storage hsymbol hvar
        have hlookup := lookup_of_nodup hbuilt.keysNodup (hbuilt.stored symbol hsymbol hvar)
        refine ⟨program.symbols_subset hsymbol, ?_, .global symbol.name,
          Setting.locate_global hcall hlookup, ?_⟩
        · rw [Ne, storageType_ptr, hkind]
          simp
        · unfold Store.load
          dsimp only
          rw [hblock]
    · cases hx
  · intro v array harray
    cases harray
  · intro symbol hsymbol
    obtain ⟨hmem, hvar⟩ := List.mem_filter.mp hsymbol
    obtain ⟨-, hblock⟩ := h.storage hmem (by simpa using hvar)
    exact ⟨_, hblock, rfl⟩

/-- Whatever the fuel, the machine follows the interpreter from the start of the program. -/
theorem Compiles.follows (h : Compiles options program) (junk : Key → Int → Value)
    (world : World) :
    ∃ c, (settingOf options program junk).machine.start kMainName []
        { mem := (emitProgram options program).module.storage, world := world } = some c ∧
      ∀ n, (siteOf options program junk [] default 0).comparison.Simulates n c
        (Meaning.run program n world) fun x state' config => ∃ shared',
          config = .stopped (.finished (some (.i32 x))) shared' ∧
          (settingOf options program junk).Agrees state' shared' := by
  obtain ⟨decl, g, globals, symbol, params, locals, hlast, hmain, hnone, hhosted⟩ :=
    h.emittable.main options
  have htypes : ([] : List Arg).map Arg.type = symbol.paramTypes := hnone.symm
  have hreturn : ∀ x, returned (signatureOf symbol).returnType x = some (.i32 x) := by
    intro x
    have hint : (signatureOf symbol).returnType = .i32 := if_pos hmain
    rw [hint]
    rfl
  have hentry : (settingOf options program junk).machine.entry kMainName =
      some g.builder.nextBlock := hmain ▸ hhosted.entry
  refine ⟨_, Option.map_eq_some_iff.mpr ⟨_, hentry, rfl⟩, ?_⟩
  intro n
  let c := siteOf options program junk (globals ++ [symbol] ++ params ++ locals) symbol 0
  have hproper : c.Proper := h.hosted_site hhosted 0
  have hcall : c.Calls n (callFunction program n) := calls_callFunction h n _ symbol 0
  have hinvokes := hhosted.invokes h (c := c) rfl hproper hcall (h.starts world) .nil htypes none []
  have hrun : Meaning.run program n world =
      invoke program n (callFunction program n) decl [] (initial program world) := by
    unfold Meaning.run
    rw [hlast]
  rw [hrun]
  refine hinvokes.mono ?_
  rintro x state' config ⟨top, shared', -, hconfig, hagrees, -⟩
  refine ⟨shared', ?_, hagrees⟩
  rw [← hreturn x]
  exact hconfig

end

/-- From `c` on, the machine does what the program means, as far as the description of the
language says anything: nothing is asked once the interpreter meets a fault. -/
structure Realizes (program : Program) (world : World) (m : Machine Instr Store World)
    (c : Config Store World) : Prop where
  finishes : ∀ fuel x s, Meaning.run program fuel world = .done x s → ∃ k shared,
    m.run k c = .stopped (.finished (some (.i32 x))) shared ∧ shared.world = s.world
  exits : ∀ fuel s, Meaning.run program fuel world = .stopped s → ∃ k shared,
    m.run k c = .stopped .exited shared ∧ shared.world = s.world
  goesOn : ∀ fuel s, Meaning.run program fuel world = .timeout s → ∃ k top callers shared,
    fuel ≤ k ∧ m.run k c = .running top callers shared ∧ shared.world = s.world
  accounts : ∀ k final shared, m.run k c = .stopped final shared → ∃ fuel,
    (∃ f, Meaning.run program fuel world = .fault f) ∨
    (∃ x s, Meaning.run program fuel world = .done x s ∧ final = .finished (some (.i32 x)) ∧
      shared.world = s.world) ∨
    ∃ s, Meaning.run program fuel world = .stopped s ∧ final = .exited ∧ shared.world = s.world

/-- The emitted module means what the program means. -/
theorem emitProgram_realizes {options : IRGenOptions} (hchecks : options.indexChecks = true)
    (hbits : 32 ≤ options.indexBits) {source : String} {program : Program}
    (h : frontEnd source = some program) (junk : Key → Int → Value) (world : World) :
    ∃ c, ((emitProgram options program).module.machine (Store.ops junk)).start kMainName []
        { mem := (emitProgram options program).module.storage, world := world } = some c ∧
      Realizes program world ((emitProgram options program).module.machine (Store.ops junk)) c := by
  have hcompiles : Compiles options program :=
    ⟨emittable_of_accepted (accepted_of_frontEnd h), hchecks, hbits⟩
  obtain ⟨c, hstart, hfollows⟩ := hcompiles.follows junk world
  refine ⟨c, hstart, ?_, ?_, ?_, ?_⟩
  · intro fuel x s hrun
    have hsimulates := hfollows fuel
    rw [hrun] at hsimulates
    obtain ⟨k, shared, hstopped, hagrees⟩ := hsimulates
    exact ⟨k, shared, hstopped, hagrees.world⟩
  · intro fuel s hrun
    have hsimulates := hfollows fuel
    rw [hrun] at hsimulates
    obtain ⟨k, shared, hstopped, hagrees⟩ := hsimulates
    exact ⟨k, shared, hstopped, Setting.Agrees.world hagrees⟩
  · intro fuel s hrun
    have hsimulates := hfollows fuel
    rw [hrun] at hsimulates
    obtain ⟨k, top, callers, shared, hle, hrunning, hagrees⟩ := hsimulates
    exact ⟨k, top, callers, shared, hle, hrunning, Setting.Agrees.world hagrees⟩
  · intro k final shared hrun
    refine ⟨k + 1, ?_⟩
    rcases (hfollows (k + 1)).settles hrun with hfault |
      ⟨x, s, j, hdone, shared', hstopped, hagrees⟩ | ⟨s, hstopped, hfinal, hagrees⟩
    · exact .inl hfault
    · obtain ⟨rfl, rfl⟩ := Machine.run_stopped_unique hrun hstopped
      exact .inr (.inl ⟨x, s, hdone, rfl, hagrees.world⟩)
    · exact .inr (.inr ⟨s, hstopped, hfinal, Setting.Agrees.world hagrees⟩)

def euclid : String :=
  "int gcd(int u, int v) \x7b if (v == 0) return u; else return gcd(v, u - u / v * v); \x7d" ++
    "void main(void) \x7b int x; int y; x = input(); y = input(); output(gcd(x, y)); \x7d"

def twelveEighteen : World := { input := fun n => if n = 0 then 12 else 18 }

def endsWith (events : List Event) : Outcome State (BitVec 32) → Bool
  | .done x s => x = 0 && decide (s.world.events = events)
  | _ => false

theorem emitProgram_realizes_euclid : ∃ program c, frontEnd euclid = some program ∧
    ((emitProgram {} program).module.machine (Store.ops fun _ _ => .poison)).start kMainName []
      { mem := (emitProgram {} program).module.storage, world := twelveEighteen } = some c ∧
    Realizes program twelveEighteen
      ((emitProgram {} program).module.machine (Store.ops fun _ _ => .poison)) c ∧
    ∃ k shared, ((emitProgram {} program).module.machine (Store.ops fun _ _ => .poison)).run k c =
        .stopped (.finished (some (.i32 0))) shared ∧
      shared.world.events = [.read 12, .read 18, .wrote 6] := by
  have hrun : (frontEnd euclid).any (fun program =>
      endsWith [.read 12, .read 18, .wrote 6] (Meaning.run program 5 twelveEighteen)) = true := by
    decide +kernel
  rw [Option.any_eq_true] at hrun
  obtain ⟨program, hprogram, hrun⟩ := hrun
  have hchecks : ({} : IRGenOptions).indexChecks = true := rfl
  obtain ⟨c, hstart, hrealizes⟩ := emitProgram_realizes hchecks (by decide) hprogram
    (fun _ _ => .poison) twelveEighteen
  refine ⟨program, c, hprogram, hstart, hrealizes, ?_⟩
  cases houtcome : Meaning.run program 5 twelveEighteen with
  | done x s =>
      rw [houtcome] at hrun
      unfold endsWith at hrun
      rw [Bool.and_eq_true, decide_eq_true_iff, decide_eq_true_iff] at hrun
      obtain ⟨rfl, hevents⟩ := hrun
      obtain ⟨k, shared, hstopped, hworld⟩ := hrealizes.finishes 5 _ s houtcome
      exact ⟨k, shared, hstopped, hworld ▸ hevents⟩
  | stopped s =>
      rw [houtcome] at hrun
      cases hrun
  | fault f =>
      rw [houtcome] at hrun
      cases hrun
  | timeout s =>
      rw [houtcome] at hrun
      cases hrun

end IRGenerator

end CMinus
