import CMinus.Analyzer.Judge

namespace CMinus

namespace SemanticAnalyzer

open Static

/-! `V` holds every symbol of an open scope, and nothing but a result is void. -/

structure Sorted (symbol : Symbol) : Prop where
  type : symbol.isFunction = false → symbol.type ≠ .void
  params : CType.void ∉ symbol.paramTypes

structure Covers (V : List Symbol) (s : SemanticAnalyzer) : Prop where
  mem : ∀ scope ∈ s.table.scopes, ∀ symbol ∈ scope.symbols, symbol ∈ V
  sorted : ∀ symbol ∈ V, Sorted symbol

def JudgesExpr (V : List Symbol) (s : SemanticAnalyzer) (action : AnalyzerM Expr)
    (e : Expr) : Prop :=
  Judges action s (∃ type, HasType (context s.table.scopes) e type)
    (fun e' s' => s' = s ∧ HasType (context s.table.scopes) e e'.type ∧ e'.Resolved V)

variable {V : List Symbol} {s : SemanticAnalyzer}

theorem Covers.lookup (hV : Covers V s) {name : String} {symbol : Symbol}
    (h : s.table.lookup name = some symbol) : symbol ∈ V ∧ symbol.name = name := by
  obtain ⟨⟨scope, hscope, hmem⟩, hname⟩ := lookupIn_some h
  exact ⟨hV.mem scope hscope symbol hmem, hname⟩

theorem lookup_entity {name : String} {symbol : Symbol}
    (h : s.table.lookup name = some symbol) :
    (context s.table.scopes).lookup name = some (entity symbol) := by
  rw [context_lookup, show SymbolTable.lookupIn s.table.scopes name = some symbol from h]
  rfl

theorem lookup_none {name : String} (h : s.table.lookup name = none) :
    (context s.table.scopes).lookup name = none := by
  rw [context_lookup, show SymbolTable.lookupIn s.table.scopes name = none from h]
  rfl

theorem entity_function {symbol : Symbol} (h : symbol.isFunction = true) :
    entity symbol = .function symbol.returnType symbol.paramTypes := by
  simp [entity, h]

theorem entity_array {symbol : Symbol} (h : symbol.isFunction = false)
    (htype : symbol.type = .intArray) : entity symbol = .array := by
  simp [entity, h, htype]

theorem entity_scalar {symbol : Symbol} (h : symbol.isFunction = false)
    (htype : symbol.type ≠ .intArray) : entity symbol = .scalar := by
  simp [entity, h, htype]

/-! A variable without a subscript. -/

theorem judges_name (hV : Covers V s) (head : VarHead) :
    Judges (analyzeVarExpr head none) s
      (∃ type, HasType (context s.table.scopes) (.var head none) type)
      (fun r s' => s' = s ∧ r.2 = none ∧
        HasType (context s.table.scopes) (.var head none) r.1.info.type ∧
        ∃ symbol, r.1.Resolved V symbol ∧ r.1.info.type = symbol.type) := by
  unfold analyzeVarExpr
  refine (judges_lookup head.name).bind (fun _ => trivial) ?_
  rintro - found s' ⟨hfound, rfl⟩
  cases hlookup : s'.table.lookup head.name with
  | none =>
      subst hfound
      rw [hlookup]
      refine judges_error_then ?_
      rintro ⟨type, htype⟩
      cases htype with
      | scalar h | array h => rw [lookup_none hlookup] at h; cases h
  | some symbol =>
      subst hfound
      rw [hlookup]
      obtain ⟨hmem, hname⟩ := hV.lookup hlookup
      have hentity := lookup_entity hlookup
      cases hfun : symbol.isFunction with
      | true =>
          simp only [hfun, if_true]
          rw [entity_function hfun] at hentity
          refine judges_error_then ?_
          rintro ⟨type, htype⟩
          cases htype with
          | scalar h | array h => rw [hentity] at h; cases h
      | false =>
          simp only [hfun, Bool.false_eq_true, if_false]
          by_cases harray : symbol.type = .intArray
          · rw [entity_array hfun harray] at hentity
            have htype : HasType (context s'.table.scopes) (.var head none) .intArray :=
              .array hentity
            exact judges_pure ⟨_, htype⟩
              ⟨rfl, rfl, harray ▸ htype, symbol, ⟨rfl, hmem, hfun, hname⟩, rfl⟩
          · rw [entity_scalar hfun harray] at hentity
            have hint : symbol.type = .int := by
              have hvoid := (hV.sorted symbol hmem).type hfun
              cases htype : symbol.type <;> simp_all
            have htype : HasType (context s'.table.scopes) (.var head none) .int :=
              .scalar hentity
            exact judges_pure ⟨_, htype⟩
              ⟨rfl, rfl, hint ▸ htype, symbol, ⟨rfl, hmem, hfun, hname⟩, rfl⟩

theorem judges_checkConstantIndex (symbol : Symbol) (name : String) (index : Expr) :
    Judges (checkConstantIndex symbol name index) s True (fun _ s' => s' = s) := by
  unfold checkConstantIndex
  split
  · exact judges_warnIf
  · exact judges_pure trivial rfl

/-! A variable with a subscript. -/

theorem judges_element (hV : Covers V s) (head : VarHead) {index : Expr}
    {action : AnalyzerM Expr} (hindex : JudgesExpr V s action index) :
    Judges (analyzeVarExpr head (some action)) s
      (HasType (context s.table.scopes) (.var head (some index)) .int)
      (fun r s' => s' = s ∧ ∃ index', r.2 = some index' ∧ r.1.info.type = .int ∧
        (∃ symbol, r.1.Resolved V symbol ∧ symbol.type = .intArray) ∧
        index'.Resolved V ∧ index'.type = .int) := by
  unfold analyzeVarExpr
  refine (judges_lookup head.name).bind (fun _ => trivial) ?_
  rintro - found s' ⟨hfound, rfl⟩
  cases hlookup : s'.table.lookup head.name with
  | none =>
      subst hfound
      rw [hlookup]
      refine judges_error_then ?_
      intro htype
      cases htype with
      | element h => rw [lookup_none hlookup] at h; cases h
  | some symbol =>
      subst hfound
      rw [hlookup]
      obtain ⟨hmem, hname⟩ := hV.lookup hlookup
      have hentity := lookup_entity hlookup
      cases hfun : symbol.isFunction with
      | true =>
          simp only [hfun, if_true]
          rw [entity_function hfun] at hentity
          refine judges_error_then ?_
          intro htype
          cases htype with
          | element h => rw [hentity] at h; cases h
      | false =>
          simp only [hfun, Bool.false_eq_true, if_false]
          refine Judges.bind hindex ?_ ?_
          · intro htype
            cases htype with
            | element _ h => exact ⟨_, h⟩
          rintro - index' s'' ⟨rfl, htype, hresolved⟩
          refine (judges_requireInt index' _).bind ?_ ?_
          · intro h
            cases h with
            | element _ h => exact (type_eq_int_iff htype).mpr h
          rintro hint - s''' rfl
          by_cases harray : symbol.type = .intArray
          · rw [entity_array hfun harray] at hentity
            simp only [harray, ne_eq, not_true_eq_false, if_false]
            refine (judges_checkConstantIndex symbol head.name index').bind
              (fun _ => trivial) ?_
            rintro - - s4 rfl
            exact judges_pure (.element hentity (hint ▸ htype))
              ⟨rfl, index', rfl, rfl, ⟨symbol, ⟨rfl, hmem, hfun, hname⟩, harray⟩,
                hresolved, hint⟩
          · rw [entity_scalar hfun harray] at hentity
            simp only [harray, ne_eq, not_false_eq_true, if_true]
            refine judges_error_then ?_
            intro h
            cases h with
            | element h => rw [hentity] at h; cases h

/-! Calls. -/

theorem hasTypes_unique {Γ : Context} {args : List Expr} {types : List CType}
    (h : HasTypes Γ args types) : ∀ types', HasTypes Γ args types' → types = types' := by
  induction args generalizing types with
  | nil =>
      intro types' h'
      cases h
      cases h'
      rfl
  | cons arg args ih =>
      intro types' h'
      cases h with
      | cons harg hargs =>
          cases h' with
          | cons harg' hargs' =>
              rw [hasType_unique harg _ harg', ih hargs _ hargs']

theorem judges_checkArgs (callee : String) {types : List CType} (hvoid : .void ∉ types)
    (args : List Expr) (hlength : args.length = types.length) (i : Nat) :
    Judges (checkArgs callee i types args) s (args.map Expr.type = types)
      (fun _ s' => s' = s) := by
  induction types generalizing args i with
  | nil =>
      rw [List.length_nil, List.length_eq_zero_iff] at hlength
      subst hlength
      exact judges_pure rfl rfl
  | cons wanted types ih =>
      cases args with
      | nil => cases hlength
      | cons arg args =>
          have hrest := ih (fun h => hvoid (.tail _ h)) args
            (by simpa using hlength) (i + 1)
          unfold checkArgs
          by_cases htype : arg.type = wanted
          · simp only [htype, ne_eq, not_true_eq_false, if_false]
            refine hrest.congr ?_
            simp [htype]
          · simp only [htype, ne_eq, not_false_eq_true, if_true]
            have hno : ¬ (arg :: args).map Expr.type = wanted :: types := by
              simp [htype]
            by_cases harray : wanted = .intArray
            · simp only [harray, if_true]
              exact judges_error_then (harray ▸ hno)
            · simp only [harray, if_false]
              refine (judges_requireInt arg _).bind (fun h => absurd h hno) ?_
              intro hint
              cases hw : wanted with
              | int => exact absurd (hint.trans hw.symm) htype
              | void => exact absurd (hw ▸ List.mem_cons_self) hvoid
              | intArray => exact absurd hw harray

def JudgesArgs (V : List Symbol) (s : SemanticAnalyzer) (action : AnalyzerM (List Expr))
    (args : List Expr) : Prop :=
  Judges action s (∃ types, HasTypes (context s.table.scopes) args types)
    (fun args' s' => s' = s ∧
      HasTypes (context s.table.scopes) args (args'.map Expr.type) ∧ ResolvedArgs V args')

theorem judges_call (hV : Covers V s) (info : ExprInfo) (callee : String)
    (symbol : Option Symbol) {args : List Expr} {action : AnalyzerM (List Expr)}
    (hargs : JudgesArgs V s action args) :
    JudgesExpr V s (analyzeCallExpr info callee action)
      (.call info callee args symbol) := by
  unfold analyzeCallExpr JudgesExpr
  refine (judges_lookup callee).bind (fun _ => trivial) ?_
  rintro - found s' ⟨rfl, rfl⟩
  refine Judges.bind hargs ?_ ?_
  · rintro ⟨type, htype⟩
    cases htype with
    | call _ hargs => exact ⟨_, hargs⟩
  rintro - args' s'' ⟨rfl, htypes, hresolved⟩
  cases hlookup : s''.table.lookup callee with
  | none =>
      refine judges_error_then ?_
      rintro ⟨type, htype⟩
      cases htype with
      | call h => rw [lookup_none hlookup] at h; cases h
  | some f =>
      obtain ⟨hmem, hname⟩ := hV.lookup hlookup
      have hentity := lookup_entity hlookup
      cases hfun : f.isFunction with
      | false =>
          simp only [hfun, Bool.not_false, if_true]
          refine judges_error_then ?_
          rintro ⟨type, htype⟩
          cases htype with
          | call h =>
              rw [hentity] at h
              unfold entity at h
              rw [hfun] at h
              by_cases harray : f.type = .intArray <;> simp [harray] at h
      | true =>
          rw [entity_function hfun] at hentity
          simp only [hfun, Bool.not_true, Bool.false_eq_true, if_false]
          by_cases hlength : args'.length = f.paramTypes.length
          · simp only [hlength, ne_eq, not_true_eq_false, if_false]
            refine (judges_checkArgs callee (hV.sorted f hmem).params args' hlength 0).bind
              ?_ ?_
            · rintro ⟨type, htype⟩
              cases htype with
              | call h hargs =>
                  rw [hentity] at h
                  cases h
                  exact hasTypes_unique htypes _ hargs
            · rintro hparams - s3 rfl
              have htype : HasType (context s3.table.scopes)
                  (.call info callee args symbol) f.returnType :=
                .call hentity (hparams ▸ htypes)
              exact judges_pure ⟨_, htype⟩
                ⟨rfl, htype, ⟨f, hmem, rfl, hfun, hname, rfl, hparams⟩, hresolved⟩
          · simp only [hlength, ne_eq, not_false_eq_true, if_true]
            refine judges_error_then ?_
            rintro ⟨type, htype⟩
            cases htype with
            | call h hargs =>
                rw [hentity] at h
                cases h
                have heq := hasTypes_unique htypes _ hargs
                exact hlength (by simpa using congrArg List.length heq)

/-! Assignments. -/

theorem judges_checkTarget (target : VarHead) :
    Judges (checkTarget target) s (target.info.type ≠ .intArray) (fun _ s' => s' = s) :=
  judges_errorIf

theorem judges_assignedValue {next : Expr → AnalyzerM Expr} {value : Expr} {ok : Prop}
    {Q : Expr → SemanticAnalyzer → Prop}
    (hvalue : JudgesExpr V s (analyzeExpr value) value)
    (hsplit : ok → HasType (context s.table.scopes) value .int)
    (hnext : ∀ value' : Expr, HasType (context s.table.scopes) value .int →
      value'.Resolved V → value'.type = .int → Judges (next value') s ok Q)
    (context : String) :
    Judges (do
      let value ← analyzeExpr value
      requireInt value context
      next value) s ok Q := by
  refine Judges.bind hvalue (fun h => ⟨_, hsplit h⟩) ?_
  rintro - value' s' ⟨rfl, htype, hresolved⟩
  refine (judges_requireInt value' _).bind
    (fun h => (type_eq_int_iff htype).mpr (hsplit h)) ?_
  rintro hint - s'' rfl
  exact hnext value' (hint ▸ htype) hresolved hint

theorem judges_assign (hV : Covers V s) (info : ExprInfo) (opLoc : SourceLocation)
    (target : VarHead) {value : Expr}
    (hvalue : JudgesExpr V s (analyzeExpr value) value) :
    JudgesExpr V s (analyzeExpr (.assign info opLoc target none value))
      (.assign info opLoc target none value) := by
  unfold analyzeExpr JudgesExpr
  refine (judges_name hV target).bind ?_ ?_
  · rintro ⟨type, htype⟩
    cases htype with
    | assign h _ => exact ⟨_, .scalar h⟩
  rintro - var s' ⟨rfl, hnone, htarget, symbol, hresolved, hsymbol⟩
  refine (judges_checkTarget var.1).bind ?_ ?_
  · rintro ⟨type, htype⟩
    cases htype with
    | assign h _ =>
        intro harray
        rw [harray] at htarget
        cases htarget with
        | array h' => rw [h] at h'; cases h'
  rintro hscalar - s'' rfl
  refine judges_assignedValue hvalue ?_ ?_ _
  · rintro ⟨type, htype⟩
    cases htype with
    | assign _ h => exact h
  intro value' hint hresolved' hint'
  cases hty : var.1.info.type with
  | intArray => exact absurd hty hscalar
  | void =>
      rw [hty] at htarget
      cases htarget
  | int =>
      rw [hty] at htarget
      cases htarget with
      | scalar hlookup =>
          refine judges_pure ⟨_, .assign hlookup hint⟩ ⟨rfl, .assign hlookup hint, ?_⟩
          rw [hnone]
          exact ⟨⟨symbol, hresolved, hsymbol.symm.trans hty⟩, hty, rfl, hresolved', hint'⟩

theorem judges_assignElement (hV : Covers V s) (info : ExprInfo)
    (opLoc : SourceLocation) (target : VarHead) {index value : Expr}
    (hindex : JudgesExpr V s (analyzeExpr index) index)
    (hvalue : JudgesExpr V s (analyzeExpr value) value) :
    JudgesExpr V s (analyzeExpr (.assign info opLoc target (some index) value))
      (.assign info opLoc target (some index) value) := by
  unfold analyzeExpr JudgesExpr
  refine (judges_element hV target hindex).bind ?_ ?_
  · rintro ⟨type, htype⟩
    cases htype with
    | assignElement h hi _ => exact .element h hi
  rintro htarget var s' ⟨rfl, index', hsome, hty, hsymbol, hindex', hint⟩
  refine (judges_checkTarget var.1).bind (fun _ => ?_) ?_
  · rw [hty]
    decide
  rintro - - s'' rfl
  refine judges_assignedValue hvalue ?_ ?_ _
  · rintro ⟨type, htype⟩
    cases htype with
    | assignElement _ _ h => exact h
  intro value' hvalueInt hresolved' hint'
  cases htarget with
  | element hlookup hi =>
      have htype : HasType (context s''.table.scopes)
          (.assign info opLoc target (some index) value) .int :=
        .assignElement hlookup hi hvalueInt
      refine judges_pure ⟨_, htype⟩ ⟨rfl, htype, ?_⟩
      rw [hsome]
      exact ⟨hsymbol, hty, rfl, ⟨hindex', hint⟩, hresolved', hint'⟩

/-! Operators. -/

theorem judges_checkDivisor (op : BinaryOp) (opLoc : SourceLocation) (e : Expr) :
    Judges (checkDivisor op opLoc e) s True (fun _ s' => s' = s) := by
  unfold checkDivisor
  split
  · exact judges_warnIf
  · exact judges_pure trivial rfl

theorem judges_binary (info : ExprInfo) (op : BinaryOp) (opLoc : SourceLocation)
    {lhs rhs : Expr} (hlhs : JudgesExpr V s (analyzeExpr lhs) lhs)
    (hrhs : JudgesExpr V s (analyzeExpr rhs) rhs) :
    JudgesExpr V s (analyzeExpr (.binary info op opLoc lhs rhs))
      (.binary info op opLoc lhs rhs) := by
  unfold analyzeExpr JudgesExpr
  refine judges_assignedValue hlhs ?_ ?_ _
  · rintro ⟨type, htype⟩
    cases htype with
    | binary h _ => exact h
  intro lhs' hl hlresolved hlint
  refine judges_assignedValue hrhs ?_ ?_ _
  · rintro ⟨type, htype⟩
    cases htype with
    | binary _ h => exact h
  intro rhs' hr hrresolved hrint
  refine (judges_checkDivisor op opLoc rhs').bind (fun _ => trivial) ?_
  rintro - - s' rfl
  exact judges_pure ⟨_, .binary hl hr⟩
    ⟨rfl, .binary hl hr, rfl, ⟨hlresolved, hlint⟩, hrresolved, hrint⟩

/-! Every expression. -/

mutual

theorem judges_expr (hV : Covers V s) : ∀ e : Expr, JudgesExpr V s (analyzeExpr e) e
  | .num info value => by
      unfold analyzeExpr
      exact judges_pure ⟨_, .num⟩ ⟨rfl, .num, rfl⟩
  | .var head none => by
      unfold analyzeExpr
      refine (judges_name hV head).bind id ?_
      rintro hok var s' ⟨rfl, hnone, htype, hsymbol⟩
      refine judges_pure hok ⟨rfl, htype, ?_⟩
      rw [hnone]
      exact hsymbol
  | .var head (some index) => by
      unfold analyzeExpr
      refine (judges_element hV head (judges_expr hV index)).bind ?_ ?_
      · rintro ⟨type, htype⟩
        cases htype with
        | element h hi => exact .element h hi
      rintro htype var s' ⟨rfl, index', hsome, hint, hsymbol, hindex, hindexInt⟩
      refine judges_pure ⟨_, htype⟩ ⟨rfl, ?_, ?_⟩
      · show HasType _ _ var.1.info.type
        exact hint ▸ htype
      · rw [hsome]
        exact ⟨hsymbol, hint, hindex, hindexInt⟩
  | .call info callee args symbol => by
      unfold analyzeExpr
      exact judges_call hV info callee symbol (judges_args hV args)
  | .assign info opLoc target none value =>
      judges_assign hV info opLoc target (judges_expr hV value)
  | .assign info opLoc target (some index) value =>
      judges_assignElement hV info opLoc target (judges_expr hV index)
        (judges_expr hV value)
  | .binary info op opLoc lhs rhs =>
      judges_binary info op opLoc (judges_expr hV lhs) (judges_expr hV rhs)

theorem judges_args (hV : Covers V s) : ∀ args : List Expr,
    JudgesArgs V s (analyzeArgs args) args
  | [] => by
      unfold analyzeArgs
      exact judges_pure ⟨[], .nil⟩ ⟨rfl, .nil, trivial⟩
  | arg :: args => by
      have hrest := judges_args hV args
      unfold analyzeArgs
      refine Judges.bind (judges_expr hV arg) ?_ ?_
      · rintro ⟨types, htypes⟩
        cases htypes with
        | cons h _ => exact ⟨_, h⟩
      rintro - arg' s' ⟨rfl, htype, hresolved⟩
      refine Judges.bind hrest ?_ ?_
      · rintro ⟨types, htypes⟩
        cases htypes with
        | cons _ h => exact ⟨_, h⟩
      rintro - args' s'' ⟨rfl, htypes, hresolveds⟩
      exact judges_pure ⟨_, .cons htype htypes⟩
        ⟨rfl, .cons htype htypes, hresolved, hresolveds⟩

end

end SemanticAnalyzer

end CMinus
