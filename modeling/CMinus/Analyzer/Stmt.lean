import CMinus.Analyzer.Expr

namespace CMinus

namespace SemanticAnalyzer

open Static

/-! Names that are new to a scope. -/

def names (symbols : List Symbol) : List String := symbols.map Symbol.name

def Fresh (taken new : List String) : Prop :=
  (∀ name ∈ new, name ∉ taken) ∧ new.Nodup

theorem fresh_nil (taken : List String) : Fresh taken [] := by
  simp [Fresh]

theorem fresh_cons {taken new : List String} {name : String} :
    Fresh taken (name :: new) ↔ name ∉ taken ∧ Fresh (taken ++ [name]) new := by
  unfold Fresh
  rw [List.nodup_cons]
  constructor
  · rintro ⟨htaken, hname, hnodup⟩
    refine ⟨htaken _ List.mem_cons_self, fun other hother => ?_, hnodup⟩
    rw [List.mem_append, List.mem_singleton, not_or]
    exact ⟨htaken other (.tail _ hother), fun heq => hname (heq ▸ hother)⟩
  · rintro ⟨hname, hnew, hnodup⟩
    refine ⟨?_, fun hmem => ?_, hnodup⟩
    · intro other hother
      rcases List.mem_cons.mp hother with rfl | hother
      · exact hname
      · exact fun h => hnew other hother (List.mem_append_left _ h)
    · exact hnew name hmem (by simp)

theorem fresh_append {taken first second : List String} :
    Fresh taken (first ++ second) ↔
      Fresh taken first ∧ Fresh (taken ++ first) second := by
  induction first generalizing taken with
  | nil => simp [fresh_nil]
  | cons name first ih =>
      rw [List.cons_append, fresh_cons, fresh_cons, ih, List.append_assoc, and_assoc]
      rfl

theorem fresh_empty {new : List String} : Fresh [] new ↔ new.Nodup := by
  simp [Fresh]

/-! What a declaration list and what a statement do to the table. -/

def addTo (new : List Symbol) : List Scope → List Scope
  | [] => []
  | scope :: outer => { scope with symbols := scope.symbols ++ new } :: outer

structure Stores (s s' : SemanticAnalyzer) (new : List Symbol) : Prop where
  storage : s'.table.storage = s.table.storage ++ new
  current : s'.currentFunction = s.currentFunction
  numbered : Numbered s.table.storage → Numbered s'.table.storage
  sorted : ∀ symbol ∈ new, Sorted symbol

structure Adds (s s' : SemanticAnalyzer) (new : List Symbol) : Prop
    extends Stores s s' new where
  scopes : s'.table.scopes = addTo new s.table.scopes

structure Leaves (s s' : SemanticAnalyzer) (new : List Symbol) : Prop
    extends Stores s s' new where
  scopes : s'.table.scopes = s.table.scopes

theorem addTo_addTo (first second : List Symbol) (scopes : List Scope) :
    addTo second (addTo first scopes) = addTo (first ++ second) scopes := by
  cases scopes <;> simp [addTo]

theorem addTo_nil (scopes : List Scope) : addTo [] scopes = scopes := by
  cases scopes <;> simp [addTo]

variable {s s' s'' : SemanticAnalyzer} {first second : List Symbol} {V : List Symbol}

theorem Stores.refl (s : SemanticAnalyzer) : Stores s s [] :=
  ⟨by simp, rfl, id, by simp⟩

theorem Stores.trans (h : Stores s s' first) (h' : Stores s' s'' second) :
    Stores s s'' (first ++ second) where
  storage := by rw [h'.storage, h.storage, List.append_assoc]
  current := h'.current.trans h.current
  numbered := h'.numbered ∘ h.numbered
  sorted := by
    intro symbol hmem
    rcases List.mem_append.mp hmem with hmem | hmem
    · exact h.sorted symbol hmem
    · exact h'.sorted symbol hmem

theorem Adds.refl (s : SemanticAnalyzer) : Adds s s [] :=
  { Stores.refl s with scopes := (addTo_nil _).symm }

theorem Adds.trans (h : Adds s s' first) (h' : Adds s' s'' second) :
    Adds s s'' (first ++ second) :=
  { h.toStores.trans h'.toStores with
    scopes := by rw [h'.scopes, h.scopes, addTo_addTo] }

theorem Leaves.refl (s : SemanticAnalyzer) : Leaves s s [] :=
  { Stores.refl s with scopes := rfl }

theorem Leaves.trans (h : Leaves s s' first) (h' : Leaves s' s'' second) :
    Leaves s s'' (first ++ second) :=
  { h.toStores.trans h'.toStores with scopes := h'.scopes.trans h.scopes }

theorem Covers.stores (hV : Covers V s) (h : Stores s s' first) :
    ∀ symbol ∈ V ++ first, Sorted symbol := by
  intro symbol hmem
  rcases List.mem_append.mp hmem with hmem | hmem
  · exact hV.sorted symbol hmem
  · exact h.sorted symbol hmem

theorem Covers.adds (hV : Covers V s) (h : Adds s s' first) :
    Covers (V ++ first) s' where
  mem := by
    intro scope hscope symbol hmem
    rw [h.scopes] at hscope
    cases hscopes : s.table.scopes with
    | nil =>
        rw [hscopes] at hscope
        cases hscope
    | cons inner outer =>
        rw [hscopes, addTo] at hscope
        have hcover := hV.mem
        rw [hscopes] at hcover
        rcases List.mem_cons.mp hscope with rfl | hscope
        · rcases List.mem_append.mp hmem with hmem | hmem
          · exact List.mem_append_left _ (hcover inner List.mem_cons_self symbol hmem)
          · exact List.mem_append_right _ hmem
        · exact List.mem_append_left _ (hcover scope (.tail _ hscope) symbol hmem)
  sorted := hV.stores h.toStores

theorem Covers.leaves (hV : Covers V s) (h : Leaves s s' first) : Covers V s' where
  mem := by
    rw [h.scopes]
    exact hV.mem
  sorted := hV.sorted

/-! Declaring a name. -/

theorem find_eq_none {scope : Scope} {name : String} :
    scope.find name = none ↔ name ∉ names scope.symbols := by
  simp only [Scope.find, names, List.find?_eq_none, List.mem_map, decide_eq_true_eq,
    not_exists, not_and]

theorem judges_declare {symbol : Symbol} {loc : SourceLocation} {scope : Scope}
    {outer : List Scope} (hscopes : s.table.scopes = scope :: outer)
    (hsorted : ∀ id, Sorted { symbol with id := id }) :
    Judges (declareOrDiagnose symbol loc) s (symbol.name ∉ names scope.symbols)
      (fun r s' => r = some { symbol with id := s.table.storage.length } ∧
        Adds s s' [{ symbol with id := s.table.storage.length }]) := by
  unfold declareOrDiagnose
  have hdeclare : Judges (declare symbol) s True (fun r s' =>
      r = (s.table.declare symbol).1 ∧
        s' = { s with table := (s.table.declare symbol).2 }) :=
    ⟨⟨fun _ => trivial, fun _ => rfl⟩, fun _ => ⟨rfl, rfl⟩⟩
  refine hdeclare.bind (fun _ => trivial) ?_
  rintro - r s' ⟨rfl, rfl⟩
  cases hfind : scope.find symbol.name with
  | none =>
      have hresult : s.table.declare symbol =
          (.inserted { symbol with id := s.table.storage.length },
            { s.table with
              storage := s.table.storage ++
                [{ symbol with id := s.table.storage.length }]
              scopes := addTo [{ symbol with id := s.table.storage.length }]
                s.table.scopes }) := by
        simp [SymbolTable.declare, hscopes, hfind, addTo]
      rw [hresult]
      exact judges_pure (find_eq_none.mp hfind)
        ⟨rfl, ⟨rfl, rfl, fun h => h.snoc rfl, by simpa using hsorted _⟩, rfl⟩
  | some found =>
      have hresult : s.table.declare symbol = (.existing found, s.table) := by
        simp [SymbolTable.declare, hscopes, hfind]
      have hno : ¬ symbol.name ∉ names scope.symbols := by
        rw [← find_eq_none, hfind]
        simp
      rw [hresult]
      dsimp only
      split
      · exact judges_error_then hno
      · exact judges_error_then hno

theorem judges_varDecl {scope : Scope} {outer : List Scope} (decl : VarDecl)
    (hscopes : s.table.scopes = scope :: outer) :
    Judges (analyzeVarDecl decl) s
      (decl.declaredType ≠ .void ∧ decl.name ∉ names scope.symbols)
      (fun decl' s' => ∃ symbol, Adds s s' [symbol] ∧ decl'.Declares symbol ∧
        binding symbol = varBinding decl) := by
  unfold analyzeVarDecl
  refine Judges.bind judges_errorIf And.left ?_
  rintro hvoid - s' rfl
  refine Judges.bind judges_warnIf (fun _ => trivial) ?_
  rintro - - s' rfl
  refine (judges_declare hscopes ?_).bind And.right ?_
  · intro id
    refine ⟨fun _ => ?_, by simp⟩
    show (if decl.isArray then CType.intArray else .int) ≠ .void
    split <;> decide
  rintro hname - s'' ⟨rfl, hadds⟩
  refine judges_pure ⟨hvoid, hname⟩
    ⟨_, hadds, ⟨rfl, rfl, rfl, rfl, rfl⟩, ?_⟩
  cases harray : decl.isArray <;>
    simp [binding, entity, varBinding, variableEntity, Symbol.isFunction, harray]

theorem judges_varDecls (decls : List VarDecl) {scope : Scope} {outer : List Scope}
    (hscopes : s.table.scopes = scope :: outer) :
    Judges (analyzeVarDecls decls) s
      (VarsOk decls ∧ Fresh (names scope.symbols) (decls.map VarDecl.name))
      (fun decls' s' => ∃ new, Adds s s' new ∧
        List.Forall₂ VarDecl.Declares decls' new ∧
        new.map binding = decls.map varBinding) := by
  induction decls generalizing s scope with
  | nil =>
      exact judges_pure ⟨by simp [VarsOk], fresh_nil _⟩ ⟨[], .refl s, .nil, rfl⟩
  | cons decl decls ih =>
      have hok : (VarsOk (decl :: decls) ∧
          Fresh (names scope.symbols) ((decl :: decls).map VarDecl.name)) ↔
          (decl.declaredType ≠ .void ∧ decl.name ∉ names scope.symbols) ∧
            VarsOk decls ∧
              Fresh (names scope.symbols ++ [decl.name]) (decls.map VarDecl.name) := by
        rw [List.map_cons, fresh_cons]
        unfold VarsOk
        rw [List.forall_mem_cons]
        tauto
      refine Judges.congr ?_ hok.symm
      unfold analyzeVarDecls
      refine (judges_varDecl decl hscopes).bind And.left ?_
      rintro hdecl decl' s' ⟨symbol, hadds, hdeclares, hbinding⟩
      have hname : symbol.name = decl.name := congrArg Prod.fst hbinding
      have hscopes' : s'.table.scopes =
          { scope with symbols := scope.symbols ++ [symbol] } :: outer := by
        rw [hadds.scopes, hscopes, addTo]
      have hnames : names (scope.symbols ++ [symbol]) =
          names scope.symbols ++ [decl.name] := by
        simp [names, hname]
      refine ((ih hscopes').congr (by rw [hnames])).bind And.right ?_
      rintro hdecls decls' s'' ⟨new, hadds', hdeclares', hbindings⟩
      exact judges_pure ⟨hdecl, hdecls⟩
        ⟨symbol :: new, hadds.trans hadds', .cons hdeclares hdeclares', by
          simp [hbinding, hbindings]⟩

/-! Statements.  `V` covers the open scopes; the locals that a statement declares
come on top. -/

def JudgesStmt (V : List Symbol) (returnType : CType) (s : SemanticAnalyzer)
    (stmt : Stmt) : Prop :=
  Judges (analyzeStmt stmt) s
    (StmtOk (fun _ _ => True) returnType (context s.table.scopes) stmt)
    (fun stmt' s' => ∃ new, Leaves s s' new ∧
      List.Forall₂ VarDecl.Declares stmt'.locals new ∧
      stmt'.Resolved (V ++ new) returnType)

def JudgesStmts (V : List Symbol) (returnType : CType) (s : SemanticAnalyzer)
    (stmts : List Stmt) : Prop :=
  Judges (analyzeStmts stmts) s
    (StmtsOk (fun _ _ => True) returnType (context s.table.scopes) stmts)
    (fun stmts' s' => ∃ new, Leaves s s' new ∧
      List.Forall₂ VarDecl.Declares (localsOf stmts') new ∧
      ResolvedStmts (V ++ new) returnType stmts')

def Returns (s : SemanticAnalyzer) (returnType : CType) : Prop :=
  (s.currentFunction.map FunDecl.returnType).getD .void = returnType

theorem Returns.stores {returnType : CType} (h : Returns s returnType)
    (hstores : Stores s s' first) : Returns s' returnType := by
  unfold Returns
  rw [hstores.current]
  exact h

theorem judges_condition (hV : Covers V s) (cond : Expr) :
    Judges (analyzeCondition cond) s (HasType (context s.table.scopes) cond .int)
      (fun cond' s' => s' = s ∧ cond'.Resolved V ∧ cond'.type = .int) := by
  unfold analyzeCondition
  refine judges_assignedValue (judges_expr hV cond) id ?_ _
  intro cond' htype hresolved hint
  exact judges_pure htype ⟨rfl, hresolved, hint⟩

theorem judges_return (hV : Covers V s) {returnType : CType}
    (hreturn : Returns s returnType) (loc : SourceLocation) (value : Option Expr) :
    Judges (analyzeReturn loc value) s
      (StmtOk (fun _ _ => True) returnType (context s.table.scopes) (.ret loc value))
      (fun stmt' s' => s' = s ∧ stmt'.locals = [] ∧ stmt'.Resolved V returnType) := by
  unfold analyzeReturn
  have hcurrent : Judges getCurrentFunction s True
      (fun current s' => current = s.currentFunction ∧ s' = s) :=
    ⟨⟨fun _ => trivial, fun _ => rfl⟩, fun _ => ⟨rfl, rfl⟩⟩
  refine hcurrent.bind (fun _ => trivial) ?_
  rintro - current s' ⟨rfl, rfl⟩
  dsimp only
  rw [show (s'.currentFunction.map FunDecl.returnType).getD .void = returnType
    from hreturn]
  cases value with
  | none =>
      refine Judges.bind judges_errorIf ?_ ?_
      · intro h hne
        exact hne h
      rintro hvoid - s'' rfl
      rw [ne_eq, not_not] at hvoid
      exact judges_pure hvoid ⟨rfl, rfl, hvoid⟩
  | some value =>
      refine Judges.bind (judges_expr hV value) (fun h => ⟨_, h.2⟩) ?_
      rintro - value' s'' ⟨rfl, htype, hresolved⟩
      by_cases hvoid : returnType = .void
      · simp only [hvoid, if_true]
        exact judges_error_then (fun h => h.1 rfl)
      · simp only [hvoid, if_false]
        refine (judges_requireInt value' _).bind
          (fun h => (type_eq_int_iff htype).mpr h.2) ?_
        rintro hint - s3 rfl
        exact judges_pure ⟨hvoid, hint ▸ htype⟩ ⟨rfl, rfl, hvoid, hresolved, hint⟩

theorem judges_pushScope (label : String) :
    Judges (pushScope label) s True
      (fun _ s' => s' = { s with table := s.table.pushScope label }) :=
  ⟨⟨fun _ => trivial, fun _ => rfl⟩, fun _ => rfl⟩

theorem judges_closeScope :
    Judges closeScope s True
      (fun _ s' => s'.table.scopes = s.table.scopes.tail ∧
        s'.table.storage = s.table.storage ∧
        s'.currentFunction = s.currentFunction) := by
  refine ⟨⟨fun _ => trivial, fun _ => rfl⟩, fun _ => ⟨?_, ?_, rfl⟩⟩
  all_goals
    unfold closeScope SymbolTable.popScope
    cases h : s.table.scopes <;> simp [h]

theorem Covers.push (hV : Covers V s) (label : String) :
    Covers V { s with table := s.table.pushScope label } where
  mem := by
    intro scope hscope symbol hmem
    rcases List.mem_cons.mp hscope with rfl | hscope
    · cases hmem
    · exact hV.mem scope hscope symbol hmem
  sorted := hV.sorted

theorem subset_left {first second : List Symbol} :
    V ++ first ⊆ V ++ (first ++ second) := by
  rw [← List.append_assoc]
  exact List.subset_append_left _ _

theorem subset_right {first second : List Symbol} :
    V ++ second ⊆ V ++ (first ++ second) := by
  intro symbol hmem
  simp only [List.mem_append] at hmem ⊢
  tauto

theorem judges_block {returnType : CType} (hV : Covers V s)
    (hreturn : Returns s returnType) (loc : SourceLocation) (localDecls : List VarDecl)
    {stmts : List Stmt}
    (hstmts : ∀ W s', Covers W s' → Returns s' returnType →
      JudgesStmts W returnType s' stmts) :
    JudgesStmt V returnType s (.compound loc localDecls stmts) := by
  unfold JudgesStmt analyzeStmt
  refine (judges_pushScope "block").bind (fun _ => trivial) ?_
  rintro - - s1 rfl
  refine (judges_varDecls localDecls rfl).bind ?_ ?_
  · rintro ⟨hvars, hscope, -⟩
    refine ⟨hvars, ?_⟩
    unfold ScopeOk at hscope
    rw [List.map_map] at hscope
    exact fresh_empty.mpr hscope
  rintro hvars decls' s2 ⟨new, hadds, hdeclares, hbindings⟩
  have hcontext : context s2.table.scopes =
      localDecls.map varBinding :: context s.table.scopes := by
    rw [hadds.scopes]
    simp [context, addTo, SymbolTable.pushScope, hbindings]
  have hpush : Returns { s with table := s.table.pushScope "block" } returnType := hreturn
  refine Judges.bind (hstmts _ s2 ((hV.push "block").adds hadds)
    (hpush.stores hadds.toStores)) ?_ ?_
  · rintro ⟨-, -, h⟩
    rwa [hcontext]
  rintro hok stmts' s3 ⟨new', hleaves, hdeclares', hresolved⟩
  refine judges_closeScope.bind (fun _ => trivial) ?_
  rintro - - s4 ⟨hscopes, hstorage, hcurrent⟩
  have hstores : Stores s s3 (new ++ new') := by
    have h := hadds.toStores.trans hleaves.toStores
    exact ⟨h.storage, h.current, h.numbered, h.sorted⟩
  refine judges_pure ?_ ⟨new ++ new', ⟨⟨?_, ?_, ?_, hstores.sorted⟩, ?_⟩, ?_, ?_⟩
  · refine ⟨hvars.1, ?_, hcontext ▸ hok⟩
    unfold ScopeOk
    rw [List.map_map]
    exact fresh_empty.mp hvars.2
  · rw [hstorage, hstores.storage]
  · rw [hcurrent, hstores.current]
  · intro h
    rw [hstorage]
    exact hstores.numbered h
  · rw [hscopes, hleaves.scopes, hadds.scopes]
    rfl
  · exact List.rel_append hdeclares hdeclares'
  · rw [List.append_assoc] at hresolved
    exact hresolved

mutual

theorem judges_stmt {returnType : CType} : ∀ (stmt : Stmt) {V : List Symbol}
    {s : SemanticAnalyzer}, Covers V s → Returns s returnType →
    JudgesStmt V returnType s stmt
  | .compound loc localDecls stmts, _, _, hV, hreturn =>
      judges_block hV hreturn loc localDecls
        (fun _ _ hW hret => judges_stmts stmts hW hret)
  | .expr loc none, _, s, _, _ =>
      judges_pure trivial ⟨[], .refl s, .nil, trivial⟩
  | .expr loc (some e), V, s, hV, _ => by
      unfold JudgesStmt analyzeStmt
      refine Judges.bind (judges_expr hV e) And.left ?_
      rintro hok e' s' ⟨rfl, -, hresolved⟩
      refine judges_pure ⟨hok, trivial⟩ ⟨[], .refl s', .nil, ?_⟩
      rwa [List.append_nil]
  | .ifs loc cond thenStmt none, V, s, hV, hreturn => by
      unfold JudgesStmt analyzeStmt
      refine (judges_condition hV cond).bind And.left ?_
      rintro hcond cond' s' ⟨rfl, hresolved⟩
      refine Judges.bind (judges_stmt thenStmt hV hreturn) And.right ?_
      rintro hthen then' s' ⟨new, hleaves, hdeclares, hthen'⟩
      exact judges_pure ⟨hcond, hthen⟩ ⟨new, hleaves, hdeclares,
        ⟨hresolved.1.mono (List.subset_append_left _ _), hresolved.2⟩, hthen'⟩
  | .ifs loc cond thenStmt (some elseStmt), V, s, hV, hreturn => by
      unfold JudgesStmt analyzeStmt
      refine (judges_condition hV cond).bind And.left ?_
      rintro hcond cond' s0 ⟨rfl, hresolved⟩
      refine Judges.bind (judges_stmt thenStmt hV hreturn) (fun h => h.2.1) ?_
      rintro hthen then' s1 ⟨new, hleaves, hdeclares, hthen'⟩
      refine Judges.bind (judges_stmt elseStmt (hV.leaves hleaves)
        (Returns.stores hreturn hleaves.toStores)) (fun h => ?_) ?_
      · rw [hleaves.scopes]
        exact h.2.2
      rintro helse else' s2 ⟨new', hleaves', hdeclares', helse'⟩
      rw [hleaves.scopes] at helse
      exact judges_pure ⟨hcond, hthen, helse⟩ ⟨new ++ new', hleaves.trans hleaves',
        List.rel_append hdeclares hdeclares',
        ⟨hresolved.1.mono (List.subset_append_left _ _), hresolved.2⟩,
        hthen'.mono subset_left, helse'.mono subset_right⟩
  | .whiles loc cond body, V, s, hV, hreturn => by
      unfold JudgesStmt analyzeStmt
      refine (judges_condition hV cond).bind And.left ?_
      rintro hcond cond' s' ⟨rfl, hresolved⟩
      refine Judges.bind (judges_stmt body hV hreturn) And.right ?_
      rintro hbody body' s' ⟨new, hleaves, hdeclares, hbody'⟩
      exact judges_pure ⟨hcond, hbody⟩ ⟨new, hleaves, hdeclares,
        ⟨hresolved.1.mono (List.subset_append_left _ _), hresolved.2⟩, hbody'⟩
  | .ret loc value, V, s, hV, hreturn => by
      unfold JudgesStmt analyzeStmt
      refine (judges_return hV hreturn loc value).mono ?_
      rintro - stmt' s' ⟨rfl, hlocals, hresolved⟩
      refine ⟨[], .refl s', ?_, ?_⟩
      · rw [hlocals]
        exact .nil
      · rwa [List.append_nil]

theorem judges_stmts {returnType : CType} : ∀ (stmts : List Stmt) {V : List Symbol}
    {s : SemanticAnalyzer}, Covers V s → Returns s returnType →
    JudgesStmts V returnType s stmts
  | [], _, s, _, _ => judges_pure trivial ⟨[], .refl s, .nil, trivial⟩
  | stmt :: stmts, V, s, hV, hreturn => by
      unfold JudgesStmts analyzeStmts
      refine Judges.bind (judges_stmt stmt hV hreturn) And.left ?_
      rintro hstmt stmt' s1 ⟨new, hleaves, hdeclares, hresolved⟩
      refine Judges.bind (judges_stmts stmts (hV.leaves hleaves)
        (Returns.stores hreturn hleaves.toStores)) (fun h => ?_) ?_
      · rw [hleaves.scopes]
        exact h.2
      rintro hstmts stmts' s2 ⟨new', hleaves', hdeclares', hresolved'⟩
      rw [hleaves.scopes] at hstmts
      exact judges_pure ⟨hstmt, hstmts⟩ ⟨new ++ new', hleaves.trans hleaves',
        List.rel_append hdeclares hdeclares', hresolved.mono subset_left,
        hresolved'.mono subset_right⟩

end

end SemanticAnalyzer

end CMinus
