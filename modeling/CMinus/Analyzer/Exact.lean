import CMinus.Analyzer.Stmt
import CMinus.Parser.Exact

namespace CMinus

namespace SemanticAnalyzer

open Static

variable {s : SemanticAnalyzer}

/-! Parameters. -/

theorem judges_param {scope : Scope} {outer : List Scope} (param : ParamDecl)
    (hscopes : s.table.scopes = scope :: outer) :
    Judges (analyzeParam param) s
      (param.declaredType ≠ .void ∧ param.name ∉ names scope.symbols)
      (fun param' s' => ∃ symbol, Adds s s' [symbol] ∧ param'.Declares symbol ∧
        binding symbol = paramBinding param ∧ paramType param' = paramType param) := by
  unfold analyzeParam
  refine Judges.bind judges_errorIf And.left ?_
  rintro hvoid - s' rfl
  refine (judges_declare hscopes ?_).bind And.right ?_
  · intro id
    refine ⟨fun _ => ?_, by simp⟩
    show (if param.isArray then CType.intArray else .int) ≠ .void
    split <;> decide
  rintro hname - s'' ⟨rfl, hadds⟩
  refine judges_pure ⟨hvoid, hname⟩ ⟨_, hadds, ⟨rfl, rfl, rfl, rfl⟩, ?_, rfl⟩
  cases harray : param.isArray <;>
    simp [binding, entity, paramBinding, variableEntity, Symbol.isFunction, harray]

theorem judges_params (params : List ParamDecl) {scope : Scope} {outer : List Scope}
    (hscopes : s.table.scopes = scope :: outer) :
    Judges (analyzeParams params) s
      ((∀ param ∈ params, param.declaredType ≠ .void) ∧
        Fresh (names scope.symbols) (params.map ParamDecl.name))
      (fun params' s' => ∃ new, Adds s s' new ∧
        List.Forall₂ ParamDecl.Declares params' new ∧
        new.map binding = params.map paramBinding ∧
        params'.map paramType = params.map paramType) := by
  induction params generalizing s scope with
  | nil =>
      exact judges_pure ⟨by simp, fresh_nil _⟩ ⟨[], .refl s, .nil, rfl, rfl⟩
  | cons param params ih =>
      have hok : ((∀ p ∈ param :: params, p.declaredType ≠ .void) ∧
          Fresh (names scope.symbols) ((param :: params).map ParamDecl.name)) ↔
          (param.declaredType ≠ .void ∧ param.name ∉ names scope.symbols) ∧
            (∀ p ∈ params, p.declaredType ≠ .void) ∧
              Fresh (names scope.symbols ++ [param.name])
                (params.map ParamDecl.name) := by
        rw [List.map_cons, fresh_cons, List.forall_mem_cons]
        tauto
      refine Judges.congr ?_ hok.symm
      unfold analyzeParams
      refine (judges_param param hscopes).bind And.left ?_
      rintro hparam param' s' ⟨symbol, hadds, hdeclares, hbinding, htype⟩
      have hname : symbol.name = param.name := congrArg Prod.fst hbinding
      have hscopes' : s'.table.scopes =
          { scope with symbols := scope.symbols ++ [symbol] } :: outer := by
        rw [hadds.scopes, hscopes, addTo]
      have hnames : names (scope.symbols ++ [symbol]) =
          names scope.symbols ++ [param.name] := by
        simp [names, hname]
      refine ((ih hscopes').congr (by rw [hnames])).bind And.right ?_
      rintro hparams params' s'' ⟨new, hadds', hdeclares', hbindings, htypes⟩
      exact judges_pure ⟨hparam, hparams⟩
        ⟨symbol :: new, hadds.trans hadds', .cons hdeclares hdeclares', by
          simp [hbinding, hbindings], by simp [htype, htypes]⟩

/-! A function: its name in the scope around it, then the scope that its parameters
share with the outermost block of its body. -/

theorem judges_functionSymbol {scope : Scope} {outer : List Scope} (decl : FunDecl)
    (hscopes : s.table.scopes = scope :: outer) :
    Judges (declareOrDiagnose (functionSymbol decl) decl.loc) s
      (decl.name ∉ names scope.symbols)
      (fun r s' => ∃ f, r = some f ∧ Adds s s' [f] ∧ binding f = funBinding decl ∧
        ∀ decl' : FunDecl, decl'.symbol = some f → decl'.name = decl.name →
          decl'.returnType = decl.returnType →
          decl'.params.map paramType = decl.params.map paramType →
          decl'.Declares f) := by
  refine (judges_declare hscopes ?_).mono ?_
  · intro id
    refine ⟨fun h => (by cases h), ?_⟩
    simp only [functionSymbol, List.mem_map, paramType, not_exists, not_and]
    intro param _
    split <;> decide
  · rintro - r s' ⟨rfl, hadds⟩
    exact ⟨_, rfl, hadds, rfl, fun decl' hsymbol hname hreturn hparams =>
      ⟨hsymbol, rfl, hname.symm, hreturn.symm, hparams.symm, rfl⟩⟩

theorem judges_body {V : List Symbol} {returnType : CType} {scope : Scope}
    {outer : List Scope} (hV : Covers V s) (hreturn : Returns s returnType)
    (hscopes : s.table.scopes = scope :: outer) (block : CompoundStmt) :
    Judges (analyzeBody block) s
      ((VarsOk block.localDecls ∧
          Fresh (names scope.symbols) (block.localDecls.map VarDecl.name)) ∧
        StmtsOk (fun _ _ => True) returnType
          ((scope.symbols.map binding ++ block.localDecls.map varBinding) ::
            context outer) block.stmts)
      (fun block' s' => ∃ new, Stores s s' new ∧ s'.table.scopes.tail = outer ∧
        List.Forall₂ VarDecl.Declares block'.toStmt.locals new ∧
        ResolvedStmts (V ++ new) returnType block'.stmts) := by
  unfold analyzeBody
  refine (judges_varDecls block.localDecls hscopes).bind And.left ?_
  rintro hvars decls' s1 ⟨new, hadds, hdeclares, hbindings⟩
  have hcontext : context s1.table.scopes =
      (scope.symbols.map binding ++ block.localDecls.map varBinding) ::
        context outer := by
    rw [hadds.scopes, hscopes]
    simp [context, addTo, hbindings]
  refine Judges.bind (judges_stmts block.stmts (hV.adds hadds)
    (hreturn.stores hadds.toStores)) (fun h => ?_) ?_
  · rw [hcontext]
    exact h.2
  rintro hstmts stmts' s2 ⟨new', hleaves, hdeclares', hresolved⟩
  rw [hcontext] at hstmts
  refine judges_pure ⟨hvars, hstmts⟩ ⟨new ++ new', hadds.toStores.trans hleaves.toStores,
    ?_, List.rel_append hdeclares hdeclares', ?_⟩
  · rw [hleaves.scopes, hadds.scopes, hscopes]
    rfl
  · rwa [List.append_assoc] at hresolved

structure DeclaresFun (s s' : SemanticAnalyzer) (scope : Scope) (decl decl' : FunDecl) :
    Prop where
  signature : decl'.name = decl.name ∧ decl'.returnType = decl.returnType ∧
    (decl'.params = [] ↔ decl.params = [])
  resolved : ∃ symbol params locals,
    decl'.Resolved scope.symbols symbol params locals ∧
    Stores s s' (symbol :: params ++ locals) ∧
    s'.table.scopes = [{ scope with symbols := scope.symbols ++ [symbol] }] ∧
    binding symbol = funBinding decl

theorem judges_funDecl {scope : Scope} (hscopes : s.table.scopes = [scope])
    (hsorted : ∀ symbol ∈ scope.symbols, Sorted symbol) (decl : FunDecl) :
    Judges (analyzeFunDecl decl) s
      (decl.name ∉ names scope.symbols ∧
        FunOk (fun _ _ => True) (scope.symbols.map binding ++ [funBinding decl]) decl)
      (fun decl' s' => DeclaresFun s s' scope decl decl') := by
  unfold analyzeFunDecl
  refine (judges_functionSymbol decl hscopes).bind And.left ?_
  rintro hname - s1 ⟨f, rfl, hadds, hbinding, hdeclares⟩
  have hscopes1 : s1.table.scopes = [{ scope with symbols := scope.symbols ++ [f] }] := by
    rw [hadds.scopes, hscopes, addTo]
  have hV : Covers scope.symbols s := by
    refine ⟨?_, hsorted⟩
    rw [hscopes]
    intro scope' hscope' symbol hmem
    rw [List.mem_singleton.mp hscope'] at hmem
    exact hmem
  have hcurrent : Judges getCurrentFunction s1 True
      (fun current s' => current = s1.currentFunction ∧ s' = s1) :=
    ⟨⟨fun _ => trivial, fun _ => rfl⟩, fun _ => ⟨rfl, rfl⟩⟩
  refine hcurrent.bind (fun _ => trivial) ?_
  rintro - enclosing s' ⟨rfl, rfl⟩
  have hset : ∀ (s : SemanticAnalyzer) (current : Option FunDecl),
      Judges (setCurrentFunction current) s True
        (fun _ s' => s' = { s with currentFunction := current }) :=
    fun _ _ => ⟨⟨fun _ => trivial, fun _ => rfl⟩, fun _ => rfl⟩
  refine (hset s' (some decl)).bind (fun _ => trivial) ?_
  rintro - - s2 rfl
  refine (judges_pushScope _).bind (fun _ => trivial) ?_
  rintro - - s3 rfl
  have hV2 : Covers (scope.symbols ++ [f]) { s' with currentFunction := some decl } :=
    ⟨(hV.adds hadds).mem, (hV.adds hadds).sorted⟩
  have hV3 := hV2.push ("function '" ++ decl.name ++ "'")
  refine (judges_params decl.params rfl).bind ?_ ?_
  · rintro ⟨-, hvoid, -, hscope, -⟩
    refine ⟨hvoid, ?_⟩
    unfold ScopeOk functionScope at hscope
    rw [List.map_append, List.map_map, List.map_map] at hscope
    exact (fresh_append.mp (fresh_empty.mpr hscope)).1
  rintro hparams params' s4 ⟨params, hadds4, hparams', hbindings, htypes⟩
  have hscopes4 : s4.table.scopes =
      { order := s'.table.nextOrder, label := "function '" ++ decl.name ++ "'",
        symbols := params } :: s'.table.scopes := by
    rw [hadds4.scopes]
    rfl
  have hnames : names params = decl.params.map ParamDecl.name := by
    have h := congrArg (List.map Prod.fst) hbindings
    rwa [List.map_map, List.map_map] at h
  have hreturn : Returns s4 decl.returnType := by
    unfold Returns
    rw [hadds4.current]
    rfl
  have hok : FunOk (fun _ _ => True) (scope.symbols.map binding ++ [funBinding decl])
      decl → (VarsOk decl.body.localDecls ∧
          Fresh (names params) (decl.body.localDecls.map VarDecl.name)) ∧
        StmtsOk (fun _ _ => True) decl.returnType
          ((params.map binding ++ decl.body.localDecls.map varBinding) ::
            context s'.table.scopes) decl.body.stmts := by
    rintro ⟨-, hvars, hscope, hstmts⟩
    refine ⟨⟨hvars, ?_⟩, ?_⟩
    · unfold ScopeOk functionScope at hscope
      rw [List.map_append, List.map_map, List.map_map] at hscope
      rw [hnames]
      exact (fresh_append.mp (fresh_empty.mpr hscope)).2
    · rw [hbindings, hscopes1]
      simpa [context, hbinding, functionScope] using hstmts
  refine (judges_body (hV3.adds hadds4) hreturn hscopes4 decl.body).bind
    (fun h => hok h.2) ?_
  rintro ⟨⟨hvars, hfresh⟩, hstmts⟩ body' s5 ⟨locals, hstores5, htail, hlocals, hresolved⟩
  refine judges_closeScope.bind (fun _ => trivial) ?_
  rintro - - s6 ⟨hscopes6, hstorage6, hcurrent6⟩
  refine (hset s6 _).bind (fun _ => trivial) ?_
  rintro - - s7 rfl
  refine Judges.bind judges_warnIf (fun _ => trivial) ?_
  rintro - - s8 rfl
  have hinner := hadds4.toStores.trans hstores5
  refine judges_pure ?_ ⟨⟨rfl, rfl, ?_⟩, f, params, locals,
    ⟨hdeclares _ rfl rfl rfl htypes, hparams', hlocals, ?_⟩, ⟨?_, ?_, ?_, ?_⟩, ?_,
    hbinding⟩
  · refine ⟨hname, hparams.1, hvars, ?_, ?_⟩
    · unfold ScopeOk functionScope
      rw [List.map_append, List.map_map, List.map_map]
      rw [hnames] at hfresh
      exact fresh_empty.mp (fresh_append.mpr ⟨hparams.2, hfresh⟩)
    · rw [hbindings, hscopes1] at hstmts
      simpa [context, hbinding, functionScope] using hstmts
  · have hlength := congrArg List.length htypes
    rw [List.length_map, List.length_map] at hlength
    rw [← List.length_eq_zero_iff, ← List.length_eq_zero_iff, hlength]
  · exact hresolved
  · show s6.table.storage = _
    rw [hstorage6, hinner.storage]
    show s'.table.storage ++ (params ++ locals) = _
    rw [hadds.storage]
    simp
  · exact hadds.current
  · intro h
    show Numbered s6.table.storage
    rw [hstorage6]
    exact hinner.numbered (hadds.numbered h)
  · intro symbol hmem
    rcases List.mem_cons.mp hmem with rfl | hmem
    · exact hadds.sorted symbol (by simp)
    · exact hinner.sorted symbol hmem
  · show s6.table.scopes = _
    rw [hscopes6, htail, hscopes1]

/-! The declarations of a program, one after the other in the global scope; `outline`
is what `checkMain` looks at. -/

def outline : Decl → Option (String × CType × Bool)
  | .var _ => none
  | .fun decl => some (decl.name, decl.returnType, decl.params.isEmpty)

theorem outline_fun {decl decl' : FunDecl} (h : decl'.name = decl.name ∧
    decl'.returnType = decl.returnType ∧ (decl'.params = [] ↔ decl.params = [])) :
    outline (.fun decl') = outline (.fun decl) := by
  obtain ⟨hname, hreturn, hparams⟩ := h
  have hempty : decl'.params.isEmpty = decl.params.isEmpty := by
    rw [Bool.eq_iff_iff, List.isEmpty_iff, List.isEmpty_iff]
    exact hparams
  simp [outline, hname, hreturn, hempty]

theorem names_binding (symbols : List Symbol) :
    (symbols.map binding).map Prod.fst = names symbols := by
  rw [List.map_map]
  rfl

theorem snoc_sorted {symbols : List Symbol} {symbol : Symbol}
    (h : ∀ other ∈ symbols, Sorted other) (hsymbol : Sorted symbol) :
    ∀ other ∈ symbols ++ [symbol], Sorted other := by
  intro other hmem
  rcases List.mem_append.mp hmem with hmem | hmem
  · exact h other hmem
  · rw [List.mem_singleton.mp hmem]
    exact hsymbol

def declBinding : Decl → String × Entity
  | .var decl => varBinding decl
  | .fun decl => funBinding decl

def DeclOk (globals : Bindings) : Decl → Prop
  | .var decl => decl.declaredType ≠ .void ∧ decl.name ∉ globals.map Prod.fst
  | .fun decl => decl.name ∉ globals.map Prod.fst ∧
      FunOk (fun _ _ => True) (globals ++ [funBinding decl]) decl

theorem declsOk_cons {globals : Bindings} {decl : Decl} {decls : List Decl} :
    DeclsOk (fun _ _ => True) globals (decl :: decls) ↔
      DeclOk globals decl ∧
        DeclsOk (fun _ _ => True) (globals ++ [declBinding decl]) decls := by
  cases decl <;> simp only [DeclsOk, DeclOk, declBinding, and_assoc]

structure DeclaresDecl (s s' : SemanticAnalyzer) (scope : Scope) (decl decl' : Decl)
    (symbol : Symbol) : Prop where
  scopes : s'.table.scopes = [{ scope with symbols := scope.symbols ++ [symbol] }]
  sorted : Sorted symbol
  numbered : Numbered s'.table.storage
  binding : binding symbol = declBinding decl
  outline : outline decl' = outline decl
  name : decl'.name = decl.name
  resolved : ∀ decls,
    ResolvedDecls (scope.symbols ++ [symbol]) s'.table.storage decls →
      ResolvedDecls scope.symbols s.table.storage (decl' :: decls)

theorem name_fresh {scope : Scope} {symbol : Symbol} {name : String}
    (hname : symbol.name = name) (hfresh : name ∉ names scope.symbols) :
    symbol.name ∉ scope.symbols.map Symbol.name :=
  hname ▸ hfresh

theorem judges_decl {scope : Scope} (hscopes : s.table.scopes = [scope])
    (hsorted : ∀ symbol ∈ scope.symbols, Sorted symbol)
    (hnumbered : Numbered s.table.storage) (decl : Decl) :
    Judges (analyzeDecl decl) s (DeclOk (scope.symbols.map binding) decl)
      (fun decl' s' => ∃ symbol, DeclaresDecl s s' scope decl decl' symbol) := by
  unfold analyzeDecl DeclOk
  cases decl with
  | var decl =>
      rw [names_binding]
      refine (judges_varDecl decl hscopes).bind id ?_
      rintro hok decl' s' ⟨symbol, hadds, hdeclares, hbinding⟩
      have hname : symbol.name = decl.name := congrArg Prod.fst hbinding
      refine judges_pure hok ⟨symbol, ?_, hadds.sorted symbol (by simp),
        hadds.numbered hnumbered, hbinding, rfl, hdeclares.name.symm.trans hname,
        fun decls hrest => ?_⟩
      · rw [hadds.scopes, hscopes, addTo]
      · rw [hadds.storage] at hrest
        exact ⟨symbol, hdeclares, name_fresh hname hok.2, hrest⟩
  | «fun» decl =>
      rw [names_binding]
      refine (judges_funDecl hscopes hsorted decl).bind id ?_
      rintro hok decl' s' ⟨hsignature, symbol, params, locals, hresolved, hstores, hscopes',
        hbinding⟩
      have hname : symbol.name = decl.name := congrArg Prod.fst hbinding
      refine judges_pure hok ⟨symbol, hscopes', hstores.sorted symbol (by simp),
        hstores.numbered hnumbered, hbinding, outline_fun hsignature, hsignature.1,
        fun decls hrest => ?_⟩
      rw [hstores.storage] at hrest
      refine ⟨symbol, params, locals, hresolved, name_fresh hname hok.1, ?_⟩
      rwa [List.append_assoc]

theorem judges_decls (decls : List Decl) {scope : Scope}
    (hscopes : s.table.scopes = [scope])
    (hsorted : ∀ symbol ∈ scope.symbols, Sorted symbol)
    (hnumbered : Numbered s.table.storage) :
    Judges (analyzeDecls decls) s
      (DeclsOk (fun _ _ => True) (scope.symbols.map binding) decls)
      (fun decls' _ => ResolvedDecls scope.symbols s.table.storage decls' ∧
        decls'.map outline = decls.map outline ∧
        decls'.map Decl.name = decls.map Decl.name) := by
  induction decls generalizing s scope with
  | nil => exact judges_pure trivial ⟨hnumbered, rfl, rfl⟩
  | cons decl decls ih =>
      rw [declsOk_cons]
      unfold analyzeDecls
      refine (judges_decl hscopes hsorted hnumbered decl).bind And.left ?_
      rintro hdecl decl' s' ⟨symbol, hdeclares⟩
      have hglobals : (scope.symbols ++ [symbol]).map binding =
          scope.symbols.map binding ++ [declBinding decl] := by
        simp [hdeclares.binding]
      refine ((ih hdeclares.scopes (snoc_sorted hsorted hdeclares.sorted)
        hdeclares.numbered).congr (by rw [hglobals])).bind And.right ?_
      rintro hdecls decls' s'' ⟨hresolved, houtline, hnames⟩
      exact judges_pure ⟨hdecl, hdecls⟩
        ⟨hdeclares.resolved _ hresolved, by simp [hdeclares.outline, houtline],
          by simp [hdeclares.name, hnames]⟩

/-! `checkMain`. -/

theorem findMain_bound (decls : List Decl) (i : Nat) {index : Nat} {main : FunDecl}
    (h : findMain i decls = some (index, main)) : index < i + decls.length := by
  induction decls generalizing i with
  | nil => cases h
  | cons decl decls ih =>
      unfold findMain at h
      rw [List.length_cons]
      cases hrest : findMain (i + 1) decls with
      | some found =>
          rw [hrest] at h
          cases h
          have := ih (i + 1) hrest
          omega
      | none =>
          rw [hrest] at h
          cases decl with
          | var decl => cases h
          | «fun» decl =>
              dsimp only at h
              split at h
              · cases h
                omega
              · cases h

theorem findMain_cons (decl : Decl) (decls : List Decl) (i : Nat) :
    findMain i (decl :: decls) = (findMain (i + 1) decls).or (findMain i [decl]) := by
  cases hrest : findMain (i + 1) decls with
  | none =>
      simp only [findMain, hrest]
      rfl
  | some found =>
      simp only [findMain, hrest]
      rfl

theorem findMain_append (decls : List Decl) (i : Nat) (last : Decl) :
    findMain i (decls ++ [last]) = (findMain (i + decls.length) [last]).or
      (findMain i decls) := by
  induction decls generalizing i with
  | nil => simp [findMain]
  | cons decl decls ih =>
      rw [List.cons_append, findMain_cons, ih, findMain_cons decl decls,
        List.length_cons, show i + (decls.length + 1) = i + 1 + decls.length by omega,
        Option.or_assoc]

theorem mainLast_iff {decls : List Decl} :
    MainLast { decls := decls } ↔
      (decls.map outline).getLast? = some (some ("main", .void, true)) := by
  unfold MainLast
  rw [List.getLast?_map]
  constructor
  · rintro ⟨decl, hlast, hname, hreturn, hparams⟩
    simp [hlast, outline, hname, hreturn, hparams]
  · intro h
    cases hlast : decls.getLast? with
    | none => simp [hlast] at h
    | some last =>
        rw [hlast] at h
        cases last with
        | var decl => simp [outline] at h
        | «fun» decl =>
            simp only [outline, Option.map_some, Option.some.injEq, Prod.mk.injEq,
              List.isEmpty_iff] at h
            exact ⟨decl, rfl, h.1, h.2.1, h.2.2⟩

theorem judges_checkMain (program : Program) (hdecls : program.decls ≠ []) :
    Judges (checkMain program) s (MainLast program) (fun _ s' => s' = s) := by
  obtain ⟨front, last, hlist⟩ := List.eq_nil_or_concat program.decls |>.resolve_left hdecls
  have hprogram : program = { decls := front ++ [last] } := by
    cases program
    simpa using hlist
  subst hprogram
  unfold checkMain
  simp only [List.getLast?_append, List.getLast?_singleton, Option.some_or]
  rw [findMain_append, Nat.zero_add]
  have hmain : MainLast { decls := front ++ [last] } ↔
      ∃ decl, last = .fun decl ∧ decl.name = "main" ∧ decl.returnType = .void ∧
        decl.params = [] := by
    unfold MainLast
    simp [List.getLast?_append]
  by_cases hlast : ∃ decl, last = .fun decl ∧ decl.name = "main"
  · obtain ⟨decl, rfl, hname⟩ := hlast
    have hfound : findMain front.length [.fun decl] = some (front.length, decl) := by
      simp [findMain, hname]
    rw [hfound]
    have hsignature : decl.returnType = .void ∧ decl.params = [] ↔
        MainLast { decls := front ++ [.fun decl] } := by
      rw [hmain]
      constructor
      · exact fun h => ⟨decl, rfl, hname, h⟩
      · rintro ⟨decl', heq, -, h⟩
        cases heq
        exact h
    refine Judges.congr ?_ hsignature
    refine Judges.bind judges_errorIf (fun _ => by simp) ?_
    rintro - - s' rfl
    refine (judges_errorIf).congr ?_
    tauto
  · have hfound : findMain front.length [last] = none := by
      cases last with
      | var decl => rfl
      | «fun» decl =>
          have hname : decl.name ≠ "main" := fun h => hlast ⟨decl, rfl, h⟩
          simp [findMain, hname]
    have hno : ¬ MainLast { decls := front ++ [last] } := by
      rw [hmain]
      rintro ⟨decl, rfl, hname, -⟩
      exact hlast ⟨decl, rfl, hname⟩
    rw [hfound, Option.none_or]
    cases hfront : findMain 0 front with
    | none => exact judges_error hno
    | some found =>
        have hbound := findMain_bound front 0 hfront
        have hne : found.1 + 1 ≠ (front ++ [last]).length := by
          rw [List.length_append, List.length_singleton]
          omega
        simp only [errorIf, hne, ne_eq, not_false_eq_true, if_true]
        exact judges_error_then hno

/-! The whole program. -/

theorem judges_declareBuiltins :
    Judges declareBuiltins { table := SymbolTable.pushScope {} "global" } True
      (fun _ s' => s'.table.scopes =
          [{ order := 0, label := "global", symbols := builtinSymbols }] ∧
        s'.table.storage = builtinSymbols) := by
  refine ⟨⟨fun _ => trivial, fun _ => rfl⟩, fun _ => ?_⟩
  decide

theorem builtinSymbols_sorted : ∀ symbol ∈ builtinSymbols, Sorted symbol := by
  intro symbol hmem
  constructor
  · revert symbol
    decide
  · revert symbol
    decide

theorem judges_analyze (program : Program) (hdecls : program.decls ≠ []) :
    Judges (analyze program) {} (RulesButDiscard program)
      (fun program' _ => program'.Resolved ∧
        program'.decls.map outline = program.decls.map outline ∧
        program'.decls.map Decl.name = program.decls.map Decl.name) := by
  unfold analyze
  refine (judges_pushScope "global").bind (fun _ => trivial) ?_
  rintro - - s0 rfl
  refine judges_declareBuiltins.bind (fun _ => trivial) ?_
  rintro - - s1 ⟨hscopes, hstorage⟩
  have hnumbered : Numbered s1.table.storage := by
    rw [hstorage]
    rfl
  have hbuiltins : builtinSymbols.map binding = builtins := rfl
  refine (judges_decls program.decls hscopes builtinSymbols_sorted hnumbered).bind
    (fun h => ?_) ?_
  · rw [hbuiltins]
    exact h.1
  rintro hok decls' s2 ⟨hresolved, houtline, hnames⟩
  have hne : decls' ≠ [] := by
    intro hnil
    rw [hnil, List.map_nil, eq_comm, List.map_eq_nil_iff] at houtline
    exact hdecls houtline
  have hmain : MainLast { decls := decls' } ↔ MainLast program := by
    rw [mainLast_iff, houtline, ← mainLast_iff]
  refine ((judges_checkMain { decls := decls' } hne).congr hmain).bind And.right ?_
  rintro hmain' - s3 rfl
  refine judges_closeScope.bind (fun _ => trivial) ?_
  rintro - - s4 -
  have hsort : Judges sortScopes s4 True (fun _ _ => True) :=
    ⟨⟨fun _ => trivial, fun _ => rfl⟩, fun _ => trivial⟩
  refine hsort.bind (fun _ => trivial) ?_
  rintro - - s5 -
  rw [hstorage] at hresolved
  exact judges_pure ⟨hok, hmain'⟩ ⟨⟨hresolved, hmain.mpr hmain'⟩, houtline, hnames⟩

/-! A program without an error in the parser has at least one declaration. -/

theorem parsed_nonempty {tokens : List Token} {program : Program} {p' : Parser}
    (hparse : (Parser.make tokens []).parseProgram = some (program, p'))
    (herrors : p'.diags.errorCount = 0) : program.decls ≠ [] := by
  obtain ⟨w, -, hder⟩ := Parser.parsed_derives hparse herrors
  intro hnil
  have hbare : program.bare = { decls := [] } := by simp [Program.bare, hnil]
  rw [hbare] at hder
  cases hder with
  | mk hlist =>
      generalize hdecls : ([] : List Decl) = decls at hlist
      cases hlist with
      | one => cases hdecls
      | snoc => simp at hdecls

/-! Analyzer exactness: the rules hold of what is accepted, except for expression
statements that name an array. -/

theorem analyze_exact (tokens : List Token) (program : Program) (p' : Parser)
    (hparse : (Parser.make tokens []).parseProgram = some (program, p'))
    (herrors : p'.diags.errorCount = 0) :
    ((analyze program {}).2.2.errorCount = 0 ↔ Rules program) ↔
      (RulesButDiscard program → ¬ ProgramDiscardsArray program) := by
  have hexact := (judges_analyze program (parsed_nonempty hparse herrors)).exact
  rw [hexact, rules_iff]
  tauto

/-! `int a[1]; void main(void) { a; }`: the analyzer accepts a statement that S9
forbids. -/

def discardTokens : List Token :=
  [{ kind := .kwInt, lexeme := "int" }, { kind := .identifier, lexeme := "a" },
   { kind := .lBracket, lexeme := "[" }, { kind := .number, lexeme := "1", value := 1 },
   { kind := .rBracket, lexeme := "]" }, { kind := .semicolon, lexeme := ";" },
   { kind := .kwVoid, lexeme := "void" }, { kind := .identifier, lexeme := "main" },
   { kind := .lParen, lexeme := "(" }, { kind := .kwVoid, lexeme := "void" },
   { kind := .rParen, lexeme := ")" }, { kind := .lBrace, lexeme := "\x7b" },
   { kind := .identifier, lexeme := "a" }, { kind := .semicolon, lexeme := ";" },
   { kind := .rBrace, lexeme := "\x7d" }, { kind := .endOfFile }]

def discardsFirst (program : Program) : Bool :=
  match program.decls with
  | [.var array, .fun main] =>
      match main.body.stmts with
      | [.expr _ (some (.var head none))] =>
          array.isArray && main.params.isEmpty && main.body.localDecls.isEmpty &&
            decide (array.name = "a") && decide (head.name = "a")
      | _ => false
  | _ => false

theorem discards_of_discardsFirst {program : Program}
    (h : discardsFirst program = true) : ProgramDiscardsArray program := by
  obtain ⟨decls⟩ := program
  unfold discardsFirst at h
  split at h
  · rename_i array main hdecls
    split at h
    · rename_i loc head hstmts
      simp only [Bool.and_eq_true, List.isEmpty_iff, decide_eq_true_eq] at h
      obtain ⟨⟨⟨⟨harray, hparams⟩, hlocals⟩, hname⟩, hhead⟩ := h
      dsimp only at hdecls
      subst hdecls
      left
      rw [hstmts]
      left
      simp [DiscardsArray, BareArray, Context.lookup, functionScope, hparams, hlocals, hhead, builtins,
        varBinding, variableEntity, harray, hname, funBinding, Bindings.find]
      simp [List.findSome?, List.find?]
    · cases h
  · cases h

theorem analyze_accepts_discarded_array :
    ∃ program p', (Parser.make discardTokens []).parseProgram = some (program, p') ∧
      p'.diags.errorCount = 0 ∧ (analyze program {}).2.2.errorCount = 0 ∧
      ¬ Rules program := by
  have hrun : (Parser.make discardTokens []).parseProgram.any (fun r =>
      decide (r.2.diags.errorCount = 0) &&
        decide ((analyze r.1 {}).2.2.errorCount = 0) && discardsFirst r.1) = true := by
    decide +kernel
  obtain ⟨⟨program, p'⟩, hparse, hok⟩ := (Option.any_eq_true _ _).mp hrun
  simp only [Bool.and_eq_true, decide_eq_true_eq] at hok
  refine ⟨program, p', hparse, hok.1.1, hok.1.2, fun hrules => ?_⟩
  exact ((rules_iff program).mp hrules).2 (discards_of_discardsFirst hok.2)

theorem analyze_exact_discardTokens :
    ∃ program p', (Parser.make discardTokens []).parseProgram = some (program, p') ∧
      (((analyze program {}).2.2.errorCount = 0 ↔ Rules program) ↔
        (RulesButDiscard program → ¬ ProgramDiscardsArray program)) := by
  have hrun : (Parser.make discardTokens []).parseProgram.any (fun r =>
      decide (r.2.diags.errorCount = 0)) = true := by
    decide +kernel
  obtain ⟨⟨program, p'⟩, hparse, hok⟩ := (Option.any_eq_true _ _).mp hrun
  exact ⟨program, p', hparse,
    analyze_exact discardTokens program p' hparse (of_decide_eq_true hok)⟩

end SemanticAnalyzer

end CMinus
