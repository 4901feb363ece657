import CMinus.Replaced
import CMinus.Analyzer.Blind
import CMinus.Analyzer.Scoping

namespace CMinus

namespace SemanticAnalyzer

def errors (diags : Diagnostics) : Diagnostics :=
  diags.filter fun diag => diag.level = .error

@[simp] theorem errors_append (first second : Diagnostics) :
    errors (first ++ second) = errors first ++ errors second := List.filter_append ..

theorem errors_eq_nil {diags : Diagnostics} : errors diags = [] ↔ diags.errorCount = 0 := by
  unfold errors Diagnostics.errorCount
  rw [List.countP_eq_length_filter, List.length_eq_zero_iff]

/-! Two states that agree on everything but the body of the current function. -/

def Twin (s s' : SemanticAnalyzer) : Prop :=
  ∃ current, Alike s current ∧ s' = s.withCurrent current

theorem Twin.table {s s' : SemanticAnalyzer} (h : Twin s s') : s'.table = s.table := by
  obtain ⟨current, -, rfl⟩ := h
  rfl

/-! `Cascade action action' s s' Q`: when `action`, run from `s`, reports no error, its
result and those of `action'`, run from `s'`, with the errors that `action'` reports and
the two states that are left, satisfy `Q`. -/

structure Cascade {α α' : Type} (action : AnalyzerM α) (action' : AnalyzerM α')
    (s s' : SemanticAnalyzer)
    (Q : α → α' → Diagnostics → SemanticAnalyzer → SemanticAnalyzer → Prop) : Prop where
  run : (action s).2.2.errorCount = 0 →
    Q (action s).1 (action' s').1 (errors (action' s').2.2) (action s).2.1 (action' s').2.1

section Rules

variable {α α' β β' : Type} {s s' : SemanticAnalyzer}

theorem errorCount_bind {action : AnalyzerM α} {next : α → AnalyzerM β} :
    ((action >>= next) s).2.2.errorCount =
      (action s).2.2.errorCount + (next (action s).1 (action s).2.1).2.2.errorCount :=
  Diagnostics.errorCount_append _ _

theorem Cascade.bind {action : AnalyzerM α} {action' : AnalyzerM α'}
    {next : α → AnalyzerM β} {next' : α' → AnalyzerM β'}
    {Q : α → α' → Diagnostics → SemanticAnalyzer → SemanticAnalyzer → Prop}
    {R : β → β' → Diagnostics → SemanticAnalyzer → SemanticAnalyzer → Prop}
    (h : Cascade action action' s s' Q)
    (hnext : ∀ a a' errs s₁ s₁', Q a a' errs s₁ s₁' →
      Cascade (next a) (next' a') s₁ s₁'
        fun b b' errs' s₂ s₂' => R b b' (errs ++ errs') s₂ s₂') :
    Cascade (action >>= next) (action' >>= next') s s' R := by
  constructor
  intro hcount
  rw [errorCount_bind, Nat.add_eq_zero_iff] at hcount
  have hresult := (hnext _ _ _ _ _ (h.run hcount.1)).run hcount.2
  show R _ _ (errors (_ ++ _)) _ _
  rw [errors_append]
  exact hresult

theorem Cascade.pure {a : α} {a' : α'}
    {Q : α → α' → Diagnostics → SemanticAnalyzer → SemanticAnalyzer → Prop}
    (h : Q a a' [] s s') : Cascade (Pure.pure a) (Pure.pure a') s s' Q := ⟨fun _ => h⟩

theorem Cascade.mono {action : AnalyzerM α} {action' : AnalyzerM α'}
    {Q R : α → α' → Diagnostics → SemanticAnalyzer → SemanticAnalyzer → Prop}
    (h : Cascade action action' s s' Q)
    (hQR : ∀ a a' errs s₁ s₁', Q a a' errs s₁ s₁' → R a a' errs s₁ s₁') :
    Cascade action action' s s' R := ⟨fun hcount => hQR _ _ _ _ _ (h.run hcount)⟩

/-! An error in the first run leaves nothing to show. -/

theorem Cascade.failed {loc : SourceLocation} {message : String} {next : Unit → AnalyzerM α}
    {action' : AnalyzerM α'}
    {Q : α → α' → Diagnostics → SemanticAnalyzer → SemanticAnalyzer → Prop} :
    Cascade (error loc message >>= next) action' s s' Q := by
  constructor
  intro hcount
  rw [errorCount_bind, Nat.add_eq_zero_iff] at hcount
  cases hcount.1

theorem Cascade.ite {c : Prop} [Decidable c] {x y : AnalyzerM α} {x' y' : AnalyzerM α'}
    {Q : α → α' → Diagnostics → SemanticAnalyzer → SemanticAnalyzer → Prop}
    (hx : c → Cascade x x' s s' Q) (hy : ¬ c → Cascade y y' s s' Q) :
    Cascade (if c then x else y) (if c then x' else y') s s' Q := by
  split
  · next hc => exact hx hc
  · next hc => exact hy hc

/-! The second run alone reports an error, or the first one alone goes on. -/

theorem Cascade.reports {loc : SourceLocation} {message : String} {action : AnalyzerM α}
    {next : Unit → AnalyzerM α'}
    {Q : α → α' → Diagnostics → SemanticAnalyzer → SemanticAnalyzer → Prop}
    (h : Cascade action (next ()) s s'
      fun a a' errs s₁ s₁' => Q a a' (⟨.error, loc, message⟩ :: errs) s₁ s₁') :
    Cascade action (error loc message >>= next) s s' Q := ⟨h.run⟩

theorem Cascade.goesOn {action : AnalyzerM α} {action' : AnalyzerM α'}
    {next : α → AnalyzerM β}
    {Q : α → α' → Diagnostics → SemanticAnalyzer → SemanticAnalyzer → Prop}
    {R : β → α' → Diagnostics → SemanticAnalyzer → SemanticAnalyzer → Prop}
    (h : Cascade action action' s s' Q)
    (hnext : ∀ a a' errs s₁ s₁', Q a a' errs s₁ s₁' →
      Leads (next a) s₁ fun b s₂ => R b a' errs s₂ s₁') :
    Cascade (action >>= next) action' s s' R := by
  constructor
  intro hcount
  rw [errorCount_bind, Nat.add_eq_zero_iff] at hcount
  exact (hnext _ _ _ _ _ (h.run hcount.1)).result

theorem Cascade.lookup {name : String} {next : Option Symbol → AnalyzerM α}
    {action' : AnalyzerM α'}
    {Q : α → α' → Diagnostics → SemanticAnalyzer → SemanticAnalyzer → Prop}
    (h : Cascade (next (s.table.lookup name)) action' s s' Q) :
    Cascade (lookup name >>= next) action' s s' Q := ⟨h.run⟩

theorem Cascade.second {action : AnalyzerM α} {action' action'' : AnalyzerM α'}
    {Q : α → α' → Diagnostics → SemanticAnalyzer → SemanticAnalyzer → Prop}
    (heq : action' s' = action'' s') (h : Cascade action action'' s s' Q) :
    Cascade action action' s s' Q := by
  constructor
  rw [heq]
  exact h.run

/-! What is the same in both runs reports nothing in the second one either. -/

theorem Cascade.same {action : AnalyzerM α} {P : α → SemanticAnalyzer → Prop}
    (hblind : Blind action) (htwin : Twin s s') (hleads : Leads action s P) :
    Cascade action action s s'
      fun a a' errs s₁ s₁' => a' = a ∧ errs = [] ∧ P a s₁ ∧ Twin s₁ s₁' := by
  constructor
  intro hcount
  obtain ⟨current, halike, rfl⟩ := htwin
  rw [hblind.run s current halike]
  exact ⟨rfl, errors_eq_nil.mpr hcount, hleads.result, current, hblind.alike halike, rfl⟩

theorem Cascade.still {action : AnalyzerM α} {P : α → Prop} (hblind : Blind action)
    (htwin : Twin s s') (hleads : Leads action s fun a s₁ => s₁ = s ∧ P a) :
    Cascade action action s s'
      fun a a' errs s₁ s₁' => a' = a ∧ errs = [] ∧ P a ∧ s₁ = s ∧ s₁' = s' := by
  constructor
  intro hcount
  obtain ⟨current, halike, rfl⟩ := htwin
  obtain ⟨hstate, hP⟩ := hleads.result
  rw [hblind.run s current halike]
  exact ⟨rfl, errors_eq_nil.mpr hcount, hP, hstate, by rw [hstate]⟩

/-! Two actions that report no error at all. -/

structure Silent (action : AnalyzerM Unit) : Prop where
  state : ∀ s, (action s).2.1 = s
  errors : ∀ s, errors (action s).2.2 = []

theorem silent_warnIf (c : Prop) [Decidable c] (loc : SourceLocation)
    (message : String) : Silent (warnIf c loc message) where
  state := (still_warnIf c loc message).state
  errors := by
    intro s
    unfold warnIf
    split
    · rfl
    · rfl

theorem silent_checkConstantIndex (symbol : Symbol) (name : String) (index : Expr) :
    Silent (checkConstantIndex symbol name index) := by
  cases index with
  | num info value => exact silent_warnIf _ _ _
  | _ => exact ⟨fun _ => rfl, fun _ => rfl⟩

theorem silent_checkDivisor (op : BinaryOp) (opLoc : SourceLocation) (e : Expr) :
    Silent (checkDivisor op opLoc e) := by
  cases e with
  | num info value => exact silent_warnIf _ _ _
  | _ => exact ⟨fun _ => rfl, fun _ => rfl⟩

theorem Cascade.silent {action action' : AnalyzerM Unit} (h : Silent action)
    (h' : Silent action') : Cascade action action' s s'
      fun _ _ errs s₁ s₁' => errs = [] ∧ s₁ = s ∧ s₁' = s' :=
  ⟨fun _ => ⟨h'.errors s', h.state s, h'.state s'⟩⟩

theorem cascade_requireInt {e e' : Expr} (hint : e.type = .int → e'.type = .int)
    (context : String) : Cascade (requireInt e context) (requireInt e' context) s s'
      fun _ _ errs s₁ s₁' => e.type = .int ∧ errs = [] ∧ s₁ = s ∧ s₁' = s' := by
  constructor
  intro hcount
  have htype : e.type = .int := (judges_requireInt e context).exact.mp hcount
  have hstill := (still_requireInt e context).state s
  refine ⟨htype, ?_, hstill, (still_requireInt e' context).state s'⟩
  exact errors_eq_nil.mpr ((judges_requireInt e' context).exact.mpr (hint htype))

end Rules

/-! The symbols of the open scopes: none has the fresh name, and every function is
built in or declared by the program. -/

structure Known (program : Program) (fresh : String) (symbol : Symbol) : Prop where
  name : symbol.name ≠ fresh
  origin : symbol.isFunction = true → symbol ∈ builtinSymbols ∨
    ∃ f, Decl.fun f ∈ program.decls ∧ f.name = symbol.name ∧
      symbol.paramTypes = f.params.map paramType

def Knows (program : Program) (fresh : String) (s : SemanticAnalyzer) : Prop :=
  ∀ scope ∈ s.table.scopes, ∀ symbol ∈ scope.symbols, Known program fresh symbol

def DistinctNames (program : Program) : Prop :=
  (builtinSymbols.map Symbol.name ++ program.decls.map Decl.name).Nodup

section Replacement

variable {program : Program} {fresh : String} {use : Use} {s s' : SemanticAnalyzer}

theorem Knows.unbound (h : Knows program fresh s) : s.table.lookup fresh = none := by
  cases hlookup : s.table.lookup fresh with
  | none => rfl
  | some symbol =>
      obtain ⟨⟨scope, hscope, hmem⟩, hname⟩ := lookupIn_some hlookup
      exact absurd hname (h scope hscope symbol hmem).name

theorem Knows.lookup (h : Knows program fresh s) {name : String} {symbol : Symbol}
    (hlookup : s.table.lookup name = some symbol) :
    Known program fresh symbol ∧ symbol.name = name := by
  obtain ⟨⟨scope, hscope, hmem⟩, hname⟩ := lookupIn_some hlookup
  exact ⟨h scope hscope symbol hmem, hname⟩

theorem Known.noVoid {symbol : Symbol} (h : Known program fresh symbol)
    (hsort : symbol.isFunction = true) : CType.void ∉ symbol.paramTypes := by
  rcases h.origin hsort with hbuiltin | ⟨f, -, -, htypes⟩
  · exact (builtinSymbols_sorted symbol hbuiltin).params
  · rw [htypes]
    exact (sorted_functionSymbol f 0).params

theorem DistinctNames.function (hnames : DistinctNames program) {f f' : FunDecl}
    (hf : Decl.fun f ∈ program.decls) (hf' : Decl.fun f' ∈ program.decls)
    (hname : f.name = f'.name) : f = f' := by
  have hnodup := (List.nodup_append.mp hnames).2.1
  have hsame := List.inj_on_of_nodup_map hnodup hf hf' hname
  exact Decl.fun.inj hsame

theorem DistinctNames.notBuiltin (hnames : DistinctNames program) {f : FunDecl}
    (hf : Decl.fun f ∈ program.decls) {symbol : Symbol} (hsymbol : symbol ∈ builtinSymbols) :
    f.name ≠ symbol.name := by
  have hdisjoint := (List.nodup_append.mp hnames).2.2
  exact fun h => hdisjoint _ (List.mem_map_of_mem hsymbol) _ (List.mem_map_of_mem hf) h.symm

theorem builtin_params {symbol : Symbol} (h : symbol ∈ builtinSymbols) :
    CType.intArray ∉ symbol.paramTypes := by
  revert symbol
  decide

theorem isArrayArgument_iff (hnames : DistinctNames program) {symbol : Symbol}
    (hknown : Known program fresh symbol) (hsort : symbol.isFunction = true) {i : Nat}
    (hplace : use.place = some (symbol.name, i)) {wanted : CType}
    (hwanted : symbol.paramTypes[i]? = some wanted) :
    use.IsArrayArgument program ↔ wanted = .intArray := by
  have horigin := hknown.origin hsort
  constructor
  · intro h
    obtain ⟨f, j, param, hat, hmem, hparam, harray⟩ := h
    rw [hplace, Option.some.injEq, Prod.mk.injEq] at hat
    obtain ⟨hname, rfl⟩ := hat
    rcases horigin with hbuiltin | ⟨f', hmem', hname', htypes⟩
    · exact absurd hname.symm (hnames.notBuiltin hmem hbuiltin)
    · have hsame := hnames.function hmem hmem' (hname.symm.trans hname'.symm)
      rw [htypes, ← hsame, List.getElem?_map, hparam] at hwanted
      have htype : paramType param = wanted := Option.some.inj hwanted
      rw [← htype, paramType, if_pos harray]
  · intro h
    rw [h] at hwanted
    have hmem := List.mem_of_getElem? hwanted
    rcases horigin with hbuiltin | ⟨f, hf, hname, htypes⟩
    · exact absurd hmem (builtin_params hbuiltin)
    · rw [htypes, List.getElem?_map] at hwanted
      obtain ⟨param, hparam, htype⟩ := Option.map_eq_some_iff.mp hwanted
      refine ⟨f, i, param, by rw [hname]; exact hplace, hf, hparam, ?_⟩
      cases harray : param.isArray with
      | true => rfl
      | false => simp [paramType, harray] at htype

/-! The errors that a replacement leads to, once it is clear whether the name was passed
for an array; an argument may still have to be checked against its parameter. -/

def Settled (program : Program) (fresh : String) (use : Use) (errs : Diagnostics) : Prop :=
  ∃ extra, errs = use.report fresh :: extra ∧
    (extra = [] ↔ ¬ use.IsArrayArgument program)

def Pending (program : Program) (fresh : String) (use : Use)
    (place : Option (String × Nat)) (e e' : Expr) (errs : Diagnostics) : Prop :=
  (e'.type = e.type ∧ Settled program fresh use errs) ∨
    (use.place = place ∧ e'.type = .int ∧ errs = [use.report fresh])

theorem Pending.settled {e e' : Expr} {errs : Diagnostics}
    (h : Pending program fresh use none e e' errs) :
    Settled program fresh use errs ∧ (e.type = .int → e'.type = .int) := by
  rcases h with ⟨htype, hsettled⟩ | ⟨hplace, htype, hone⟩
  · exact ⟨hsettled, fun hint => htype.trans hint⟩
  · refine ⟨⟨[], hone, fun _ harray => ?_, fun _ => rfl⟩, fun _ => htype⟩
    obtain ⟨f, i, param, hat, -⟩ := harray
    rw [hplace] at hat
    cases hat

theorem Settled.append {errs : Diagnostics} (h : Settled program fresh use errs)
    {more : Diagnostics} (hmore : more = []) :
    Settled program fresh use (errs ++ more) := by
  rw [hmore, List.append_nil]
  exact h

/-! A name. -/

theorem bind_lookup {β : Type} {name : String} {found : Option Symbol}
    (h : s.table.lookup name = found) (next : Option Symbol → AnalyzerM β) :
    (lookup name >>= next) s = next found s := by
  rw [← h]
  rfl

theorem analyzeVarExpr_unbound {head : VarHead} (h : s.table.lookup head.name = none)
    (index : Option (AnalyzerM Expr)) :
    analyzeVarExpr head index s =
      (error head.info.loc ("use of undeclared identifier '" ++ head.name ++ "'") >>=
        fun _ => analyzeIndex index >>= fun index' =>
          pure (VarHead.typed head .int, index')) s :=
  bind_lookup h _

def undeclared (head : VarHead) (fresh : String) : Diagnostic :=
  ⟨.error, head.info.loc, "use of undeclared identifier '" ++ fresh ++ "'"⟩

theorem cascade_name (htwin : Twin s s') (hknows : Knows program fresh s) {head : VarHead}
    (hraw : head.raw = head) :
    Cascade (analyzeVarExpr head none) (analyzeVarExpr (head.renamed fresh) none) s s'
      fun _ r' errs s₁ s₁' => r'.1.info.type = .int ∧
        errs = [undeclared head fresh] ∧ s₁ = s ∧ s₁' = s' := by
  have hnone : s'.table.lookup (head.renamed fresh).name = none := by
    rw [htwin.table]
    exact hknows.unbound
  constructor
  intro _
  rw [analyzeVarExpr_unbound hnone]
  exact ⟨rfl, rfl, (leads_name (s := s) hraw).result.1, rfl⟩

/-! Under the fresh name the subscript is analyzed as it was. -/

theorem cascade_element (htwin : Twin s s') (hknows : Knows program fresh s)
    {head : VarHead} {action : AnalyzerM Expr} {index : Expr}
    (hblind : Blind action) (hindex : LeadsExpr s action index) :
    Cascade (analyzeVarExpr head (some action))
      (analyzeVarExpr (head.renamed fresh) (some action)) s s'
      fun _ r' errs s₁ s₁' => r'.1.info.type = .int ∧
        errs = [undeclared head fresh] ∧ s₁ = s ∧ s₁' = s' := by
  have hnone : s'.table.lookup (head.renamed fresh).name = none := by
    rw [htwin.table]
    exact hknows.unbound
  have hanalyze : Cascade action (analyzeIndex (some action) >>= fun index' =>
      pure (VarHead.typed (head.renamed fresh) .int, index')) s s'
      fun _ r' errs s₁ s₁' => r'.1.info.type = .int ∧ errs = [] ∧ s₁ = s ∧ s₁' = s' := by
    constructor
    intro hcount
    obtain ⟨-, herrs, -, hstate, hstate'⟩ := (Cascade.still hblind htwin hindex).run hcount
    refine ⟨rfl, ?_, hstate, hstate'⟩
    show errors (((action s').2.2 ++ []) ++ []) = []
    rw [List.append_nil, List.append_nil]
    exact herrs
  apply Cascade.second (analyzeVarExpr_unbound hnone _)
  apply Cascade.reports
  unfold analyzeVarExpr
  apply Cascade.lookup
  cases s.table.lookup (VarHead.typed head .int).name with
  | none => exact .failed
  | some symbol =>
      dsimp only
      cases symbol.isFunction with
      | true => exact .failed
      | false =>
          rw [if_neg Bool.false_ne_true]
          apply Cascade.goesOn hanalyze
          intro index' r' errs s₁ s₁' hleft
          obtain ⟨htype, herrs, hstate, hstate'⟩ := hleft
          have hdone : ∀ r : VarHead × Option Expr, Leads (pure r) s₁ fun _ s₂ =>
              r'.1.info.type = .int ∧ undeclared head fresh :: errs =
                [undeclared head fresh] ∧ s₂ = s ∧ s₁' = s' := by
            intro r
            exact .pure ⟨htype, by rw [herrs], hstate, hstate'⟩
          apply Leads.still (still_requireInt _ _)
          intro _
          split
          · exact .still (.error _ _) fun _ => hdone _
          · exact .still (still_checkConstantIndex _ _ _) fun _ => hdone _

/-! A replacement inside the subscript. -/

theorem cascade_index (htwin : Twin s s') (head : VarHead) {action action' : AnalyzerM Expr}
    (hindex : Cascade action action' s s' fun e e' errs s₁ s₁' =>
      Pending program fresh use none e e' errs ∧ s₁ = s ∧ s₁' = s') :
    Cascade (analyzeVarExpr head (some action)) (analyzeVarExpr head (some action')) s s'
      fun r r' errs s₁ s₁' => r'.1.info.type = r.1.info.type ∧
        Settled program fresh use errs ∧ s₁ = s ∧ s₁' = s' := by
  unfold analyzeVarExpr
  apply Cascade.lookup
  have htable : s'.table.lookup (VarHead.typed head .int).name =
      s.table.lookup (VarHead.typed head .int).name := by rw [htwin.table]
  apply Cascade.second (bind_lookup htable _)
  cases s.table.lookup (VarHead.typed head .int).name with
  | none => exact .failed
  | some symbol =>
      dsimp only
      cases symbol.isFunction with
      | true => exact .failed
      | false =>
          rw [if_neg Bool.false_ne_true, if_neg Bool.false_ne_true]
          apply hindex.bind
          intro index₁ index₂ errs s₁ s₁' hleft
          obtain ⟨hpending, rfl, rfl⟩ := hleft
          obtain ⟨hsettled, hint⟩ := hpending.settled
          apply (cascade_requireInt hint _).bind
          intro _ _ errs' s₂ s₂' hleft
          obtain ⟨-, herrs', rfl, rfl⟩ := hleft
          apply Cascade.ite
          · exact fun _ => .failed
          intro _
          apply (Cascade.silent (silent_checkConstantIndex _ _ _)
            (silent_checkConstantIndex _ _ _)).bind
          intro _ _ errs'' s₃ s₃' hleft
          obtain ⟨herrs'', rfl, rfl⟩ := hleft
          apply Cascade.pure
          refine ⟨rfl, hsettled.append ?_, rfl, rfl⟩
          rw [herrs', herrs'']
          rfl

/-! The arguments of a call against its parameters. -/

theorem cascade_mismatch {α α' : Type} {arg : Expr} {wanted : CType}
    (htype : arg.type ≠ wanted) (hvoid : wanted ≠ .void) {message context : String}
    {next : Unit → AnalyzerM α} {action' : AnalyzerM α'}
    {Q : α → α' → Diagnostics → SemanticAnalyzer → SemanticAnalyzer → Prop} :
    Cascade (if wanted = .intArray then error arg.loc message >>= next
      else requireInt arg context >>= next) action' s s' Q := by
  split
  · exact .failed
  · next harray =>
      have hint : arg.type ≠ .int := by
        cases wanted with
        | int => exact htype
        | void => exact absurd rfl hvoid
        | intArray => exact absurd rfl harray
      constructor
      intro hcount
      rw [errorCount_bind, Nat.add_eq_zero_iff] at hcount
      exact absurd ((judges_requireInt arg context).exact.mp hcount.1) hint

theorem leads_checkArgs (callee : String) (types : List CType) (args : List Expr) (i : Nat) :
    Leads (checkArgs callee i types args) s fun _ s₁ => s₁ = s ∧ True :=
  ⟨(still_checkArgs callee types args i).state s, trivial⟩

theorem cascade_checkArgs (htwin : Twin s s') (callee : String) {errs : Diagnostics}
    {arg arg' : Expr} (back front : List Expr) (types : List CType) (i : Nat)
    (hlength : (front ++ arg :: back).length = types.length)
    (hvoid : CType.void ∉ types)
    (hcase : (arg'.type = arg.type ∧ Settled program fresh use errs) ∨
      (arg'.type = .int ∧ errs = [use.report fresh] ∧
        ∀ wanted, types[front.length]? = some wanted →
          (use.IsArrayArgument program ↔ wanted = .intArray))) :
    Cascade (checkArgs callee i types (front ++ arg :: back))
      (checkArgs callee i types (front ++ arg' :: back)) s s'
      fun _ _ errs' s₁ s₁' => Settled program fresh use (errs ++ errs') ∧
        s₁ = s ∧ s₁' = s' := by
  induction front generalizing types i with
  | nil =>
      cases types with
      | nil => cases hlength
      | cons wanted types =>
          have hwanted : wanted ≠ .void := fun h => hvoid (h ▸ List.mem_cons_self)
          rw [List.nil_append, List.nil_append, checkArgs, checkArgs]
          by_cases htype : arg.type = wanted
          · have hback := Cascade.still (blind_checkArgs callee types back (i + 1)) htwin
              (leads_checkArgs callee types back (i + 1))
            rw [if_neg (not_not.mpr htype)]
            rcases hcase with ⟨hsame, hsettled⟩ | ⟨hint, hone, hplace⟩
            · rw [if_neg (not_not.mpr (hsame.trans htype))]
              apply hback.mono
              intro _ _ errs' s₁ s₁' hleft
              obtain ⟨-, herrs, -, hstate, hstate'⟩ := hleft
              exact ⟨hsettled.append herrs, hstate, hstate'⟩
            · have harray := hplace wanted rfl
              cases hw : wanted with
              | void => exact absurd hw hwanted
              | int =>
                  rw [if_neg (not_not.mpr hint)]
                  have hno : ¬ use.IsArrayArgument program := by
                    rw [harray, hw]
                    decide
                  apply hback.mono
                  intro _ _ errs' s₁ s₁' hleft
                  obtain ⟨-, herrs, -, hstate, hstate'⟩ := hleft
                  refine ⟨⟨[], ?_, fun _ => hno, fun _ => rfl⟩, hstate, hstate'⟩
                  rw [hone, herrs]
                  rfl
              | intArray =>
                  rw [if_pos (by rw [hint]; decide), if_pos rfl]
                  have hyes : use.IsArrayArgument program := harray.mpr hw
                  apply Cascade.reports
                  apply hback.mono
                  intro _ _ errs' s₁ s₁' hleft
                  obtain ⟨-, -, -, hstate, hstate'⟩ := hleft
                  refine ⟨⟨_, by rw [hone]; rfl, fun h => ?_, fun h => absurd hyes h⟩,
                    hstate, hstate'⟩
                  cases h
          · rw [if_pos htype]
            exact cascade_mismatch htype hwanted
  | cons first front ih =>
      cases types with
      | nil => cases hlength
      | cons wanted types =>
          have hwanted : wanted ≠ .void := fun h => hvoid (h ▸ List.mem_cons_self)
          have hrest := ih types (i + 1) (by simpa using hlength)
            (fun h => hvoid (.tail _ h)) (by simpa using hcase)
          rw [List.cons_append, List.cons_append, checkArgs, checkArgs]
          apply Cascade.ite
          · exact fun htype => cascade_mismatch htype hwanted
          · exact fun _ => hrest

/-! A call. -/

def PendingArgs (program : Program) (fresh : String) (use : Use) (callee : String) (i : Nat)
    (args args' : List Expr) (errs : Diagnostics) : Prop :=
  ∃ front arg arg' back, args = front ++ arg :: back ∧ args' = front ++ arg' :: back ∧
    Pending program fresh use (some (callee, i + front.length)) arg arg' errs

theorem cascade_call (htwin : Twin s s') (hnames : DistinctNames program)
    (hknows : Knows program fresh s) (info : ExprInfo) (callee : String)
    {action action' : AnalyzerM (List Expr)}
    (hargs : Cascade action action' s s' fun args args' errs s₁ s₁' =>
      PendingArgs program fresh use callee 0 args args' errs ∧ s₁ = s ∧ s₁' = s') :
    Cascade (analyzeCallExpr info callee action) (analyzeCallExpr info callee action') s s'
      fun e e' errs s₁ s₁' => e'.type = e.type ∧ Settled program fresh use errs ∧
        s₁ = s ∧ s₁' = s' := by
  unfold analyzeCallExpr
  apply Cascade.lookup
  have htable : s'.table.lookup callee = s.table.lookup callee := by rw [htwin.table]
  apply Cascade.second (bind_lookup htable _)
  apply hargs.bind
  intro args args' errs s₁ s₁' hleft
  obtain ⟨⟨front, arg, arg', back, rfl, rfl, hpending⟩, rfl, rfl⟩ := hleft
  cases hlookup : s₁.table.lookup callee with
  | none => exact .failed
  | some symbol =>
      dsimp only
      cases hsort : symbol.isFunction with
      | false => exact .failed
      | true =>
          rw [Bool.not_true, if_neg Bool.false_ne_true, if_neg Bool.false_ne_true]
          have hsame : (front ++ arg' :: back).length = (front ++ arg :: back).length := by
            rw [List.length_append, List.length_append, List.length_cons, List.length_cons]
          rw [hsame]
          apply Cascade.ite
          · exact fun _ => .failed
          intro hlength
          rw [ne_eq, not_not] at hlength
          obtain ⟨hknown, hname⟩ := hknows.lookup hlookup
          have hcheck : Cascade (checkArgs callee 0 symbol.paramTypes (front ++ arg :: back))
              (checkArgs callee 0 symbol.paramTypes (front ++ arg' :: back)) s₁ s₁'
              fun _ _ errs' s₂ s₂' => Settled program fresh use (errs ++ errs') ∧
                s₂ = s₁ ∧ s₂' = s₁' := by
            apply cascade_checkArgs htwin callee back front symbol.paramTypes 0 hlength
              (hknown.noVoid hsort)
            rcases hpending with hsettled | ⟨hplace, hint, hone⟩
            · exact .inl hsettled
            · refine .inr ⟨hint, hone, fun wanted hwanted => ?_⟩
              rw [Nat.zero_add, ← hname] at hplace
              exact isArrayArgument_iff hnames hknown hsort hplace hwanted
          apply hcheck.bind
          intro _ _ errs' s₂ s₂' hleft
          obtain ⟨hsettled, hstate, hstate'⟩ := hleft
          apply Cascade.pure
          refine ⟨rfl, ?_, hstate, hstate'⟩
          rw [List.append_nil]
          exact hsettled

theorem cascade_callee (htwin : Twin s s') (hknows : Knows program fresh s)
    (info : ExprInfo) (callee : String) {args : List Expr} {action : AnalyzerM (List Expr)}
    (hblind : Blind action) (hargs : LeadsArgs s action args) :
    Cascade (analyzeCallExpr info callee action) (analyzeCallExpr info fresh action) s s'
      fun _ e' errs s₁ s₁' => e'.type = .int ∧
        errs = [⟨.error, info.loc, "call to undeclared function '" ++ fresh ++ "'"⟩] ∧
        s₁ = s ∧ s₁' = s' := by
  have hnone : s'.table.lookup fresh = none := by
    rw [htwin.table]
    exact hknows.unbound
  unfold analyzeCallExpr
  apply Cascade.lookup
  apply Cascade.second (bind_lookup hnone _)
  apply (Cascade.still hblind htwin hargs).bind
  intro args₁ args₁' errs s₁ s₁' hleft
  obtain ⟨rfl, rfl, -, rfl, rfl⟩ := hleft
  cases s₁.table.lookup callee with
  | none => exact .failed
  | some symbol =>
      dsimp only
      cases symbol.isFunction with
      | false => exact .failed
      | true =>
          rw [Bool.not_true, if_neg Bool.false_ne_true]
          by_cases hlength : args₁'.length = symbol.paramTypes.length
          · rw [if_neg (not_not.mpr hlength)]
            apply Cascade.reports
            constructor
            intro _
            exact ⟨rfl, rfl, (still_checkArgs _ _ _ _).state _, rfl⟩
          · rw [if_pos hlength]
            exact .failed

/-! Expressions. -/

def CascadeExpr (program : Program) (fresh : String) (use : Use)
    (place : Option (String × Nat)) (s s' : SemanticAnalyzer) (e e' : Expr) : Prop :=
  Cascade (analyzeExpr e) (analyzeExpr e') s s' fun x x' errs s₁ s₁' =>
    Pending program fresh use place x x' errs ∧ s₁ = s ∧ s₁' = s'

theorem cascade_same (htwin : Twin s s') {e : Expr} (hraw : e.raw = e) :
    Cascade (analyzeExpr e) (analyzeExpr e) s s' fun x x' errs s₁ s₁' =>
      x' = x ∧ errs = [] ∧ s₁ = s ∧ s₁' = s' := by
  apply (Cascade.still (blind_expr e) htwin (leads_expr e hraw)).mono
  intro x x' errs s₁ s₁' hleft
  exact ⟨hleft.1, hleft.2.1, hleft.2.2.2⟩

/-! An operand that has to be an int, with what follows on it. -/

theorem CascadeExpr.operand {α α' : Type} {e e' : Expr}
    {next : Expr → AnalyzerM α} {next' : Expr → AnalyzerM α'}
    {Q : α → α' → Diagnostics → SemanticAnalyzer → SemanticAnalyzer → Prop}
    (h : CascadeExpr program fresh use none s s' e e') (context : String)
    (hnext : ∀ x x' errs, Settled program fresh use errs → Cascade (next x) (next' x') s s'
      fun b b' errs' s₁ s₁' => Q b b' (errs ++ errs') s₁ s₁') :
    Cascade (analyzeExpr e >>= fun x => requireInt x context >>= fun _ => next x)
      (analyzeExpr e' >>= fun x => requireInt x context >>= fun _ => next' x) s s' Q := by
  apply Cascade.bind h
  intro x x' errs s₁ s₁' hleft
  obtain ⟨hpending, rfl, rfl⟩ := hleft
  obtain ⟨hsettled, hint⟩ := hpending.settled
  apply (cascade_requireInt hint _).bind
  intro _ _ errs' s₂ s₂' hleft
  obtain ⟨-, rfl, rfl, rfl⟩ := hleft
  exact hnext x x' errs hsettled

theorem cascade_sameOperand {α α' : Type} (htwin : Twin s s') {e : Expr} (hraw : e.raw = e)
    {next : Expr → AnalyzerM α} {next' : Expr → AnalyzerM α'}
    {Q : α → α' → Diagnostics → SemanticAnalyzer → SemanticAnalyzer → Prop}
    (context : String) (hnext : ∀ x, Cascade (next x) (next' x) s s' Q) :
    Cascade (analyzeExpr e >>= fun x => requireInt x context >>= fun _ => next x)
      (analyzeExpr e >>= fun x => requireInt x context >>= fun _ => next' x) s s' Q := by
  apply (cascade_same htwin hraw).bind
  intro x x' errs s₁ s₁' hleft
  obtain ⟨rfl, rfl, rfl, rfl⟩ := hleft
  apply (cascade_requireInt id _).bind
  intro _ _ errs' s₂ s₂' hleft
  obtain ⟨-, rfl, rfl, rfl⟩ := hleft
  exact hnext x'

/-! A binary expression, whose divisor is no error. -/

theorem cascade_lhs (htwin : Twin s s') (info : ExprInfo) (op : BinaryOp)
    (opLoc : SourceLocation) {lhs lhs' rhs : Expr} (hraw : rhs.raw = rhs)
    (hinner : CascadeExpr program fresh use none s s' lhs lhs')
    (place : Option (String × Nat)) :
    CascadeExpr program fresh use place s s' (.binary info op opLoc lhs rhs)
      (.binary info op opLoc lhs' rhs) := by
  unfold CascadeExpr analyzeExpr
  apply hinner.operand
  intro x x' errs hsettled
  apply cascade_sameOperand htwin hraw
  intro y
  apply (Cascade.silent (silent_checkDivisor _ _ _) (silent_checkDivisor _ _ _)).bind
  intro _ _ errs' s₁ s₁' hleft
  obtain ⟨rfl, rfl, rfl⟩ := hleft
  apply Cascade.pure
  exact ⟨.inl ⟨rfl, hsettled.append rfl⟩, rfl, rfl⟩

theorem cascade_rhs (htwin : Twin s s') (info : ExprInfo) (op : BinaryOp)
    (opLoc : SourceLocation) {lhs rhs rhs' : Expr} (hraw : lhs.raw = lhs)
    (hinner : CascadeExpr program fresh use none s s' rhs rhs')
    (place : Option (String × Nat)) :
    CascadeExpr program fresh use place s s' (.binary info op opLoc lhs rhs)
      (.binary info op opLoc lhs rhs') := by
  unfold CascadeExpr analyzeExpr
  apply cascade_sameOperand htwin hraw
  intro x
  apply hinner.operand
  intro y y' errs hsettled
  apply (Cascade.silent (silent_checkDivisor _ _ _) (silent_checkDivisor _ _ _)).bind
  intro _ _ errs' s₁ s₁' hleft
  obtain ⟨rfl, rfl, rfl⟩ := hleft
  apply Cascade.pure
  exact ⟨.inl ⟨rfl, hsettled.append rfl⟩, rfl, rfl⟩

/-! After a target has been replaced, and after a subscript or a value has. -/

theorem cascade_value (htwin : Twin s s') (info : ExprInfo) (opLoc : SourceLocation)
    {value : Expr} (hraw : value.raw = value) {var var' : VarHead × Option Expr}
    {errs : Diagnostics} (htarget : var.1.info.type ≠ .intArray →
      var'.1.info.type ≠ .intArray)
    (hsettled : Settled program fresh use errs) (place : Option (String × Nat)) :
    Cascade (do
        checkTarget var.1
        let value ← analyzeExpr value
        requireInt value "as the value of an assignment"
        return Expr.assign { info with type := .int } opLoc var.1 var.2 value)
      (do
        checkTarget var'.1
        let value ← analyzeExpr value
        requireInt value "as the value of an assignment"
        return Expr.assign { info with type := .int } opLoc var'.1 var'.2 value) s s'
      fun x x' errs' s₁ s₁' => Pending program fresh use place x x' (errs ++ errs') ∧
        s₁ = s ∧ s₁' = s' := by
  have hcheck : Cascade (checkTarget var.1) (checkTarget var'.1) s s'
      fun _ _ errs' s₁ s₁' => errs' = [] ∧ s₁ = s ∧ s₁' = s' := by
    constructor
    intro hcount
    have hok : var.1.info.type ≠ .intArray := judges_errorIf.exact.mp hcount
    exact ⟨errors_eq_nil.mpr (judges_errorIf.exact.mpr (htarget hok)),
      (still_errorIf _ _ _).state s, (still_errorIf _ _ _).state s'⟩
  apply hcheck.bind
  intro _ _ errs' s₁ s₁' hleft
  obtain ⟨rfl, rfl, rfl⟩ := hleft
  apply cascade_sameOperand htwin hraw
  intro x
  apply Cascade.pure
  exact ⟨.inl ⟨rfl, hsettled.append rfl⟩, rfl, rfl⟩

theorem cascade_assigned (htwin : Twin s s') (info : ExprInfo) (opLoc : SourceLocation)
    {value value' : Expr} (hinner : CascadeExpr program fresh use none s s' value value')
    (var : VarHead × Option Expr) (place : Option (String × Nat)) :
    Cascade (do
        checkTarget var.1
        let value ← analyzeExpr value
        requireInt value "as the value of an assignment"
        return Expr.assign { info with type := .int } opLoc var.1 var.2 value)
      (do
        checkTarget var.1
        let value ← analyzeExpr value'
        requireInt value "as the value of an assignment"
        return Expr.assign { info with type := .int } opLoc var.1 var.2 value) s s'
      fun x x' errs s₁ s₁' => Pending program fresh use place x x' errs ∧
        s₁ = s ∧ s₁' = s' := by
  have hleads : Leads (checkTarget var.1) s fun _ s₁ => s₁ = s ∧ True :=
    ⟨(still_errorIf _ _ _).state s, trivial⟩
  apply (Cascade.still (blind_errorIf _ _ _) htwin hleads).bind
  intro _ _ errs s₁ s₁' hleft
  obtain ⟨-, rfl, -, rfl, rfl⟩ := hleft
  apply hinner.operand
  intro x x' errs hsettled
  apply Cascade.pure
  exact ⟨.inl ⟨rfl, hsettled.append rfl⟩, rfl, rfl⟩

theorem settled_one {errs : Diagnostics} (hone : errs = [use.report fresh])
    (hplace : use.place = none) : Settled program fresh use errs := by
  refine ⟨[], hone, fun _ harray => ?_, fun _ => rfl⟩
  obtain ⟨f, i, param, hat, -⟩ := harray
  rw [hplace] at hat
  cases hat

/-! An assignment: its target is what is replaced, or its value is. -/

theorem Cascade.target {head : VarHead} {action action' : AnalyzerM (VarHead × Option Expr)}
    (h : Cascade action action' s s' fun _ var' errs s₁ s₁' => var'.1.info.type = .int ∧
      errs = [undeclared head fresh] ∧ s₁ = s ∧ s₁' = s') :
    Cascade action action' s s' fun var var' errs s₁ s₁' =>
      (var.1.info.type ≠ .intArray → var'.1.info.type ≠ .intArray) ∧
        Settled program fresh ⟨head.info.loc, false, none⟩ errs ∧ s₁ = s ∧ s₁' = s' := by
  apply h.mono
  intro var var' errs s₁ s₁' hleft
  obtain ⟨htype, herrs, hstates⟩ := hleft
  refine ⟨fun _ => ?_, settled_one herrs rfl, hstates⟩
  rw [htype]
  decide

theorem cascade_target (htwin : Twin s s') (info : ExprInfo) (opLoc : SourceLocation)
    {value : Expr} (hraw : value.raw = value)
    {action action' : AnalyzerM (VarHead × Option Expr)}
    (hvar : Cascade action action' s s' fun var var' errs s₁ s₁' =>
      (var.1.info.type ≠ .intArray → var'.1.info.type ≠ .intArray) ∧
        Settled program fresh use errs ∧ s₁ = s ∧ s₁' = s')
    (place : Option (String × Nat)) :
    Cascade (do
        let var ← action
        checkTarget var.1
        let value ← analyzeExpr value
        requireInt value "as the value of an assignment"
        return Expr.assign { info with type := .int } opLoc var.1 var.2 value)
      (do
        let var ← action'
        checkTarget var.1
        let value ← analyzeExpr value
        requireInt value "as the value of an assignment"
        return Expr.assign { info with type := .int } opLoc var.1 var.2 value) s s'
      fun x x' errs s₁ s₁' => Pending program fresh use place x x' errs ∧
        s₁ = s ∧ s₁' = s' := by
  apply hvar.bind
  intro var var' errs s₁ s₁' hleft
  obtain ⟨htarget, hsettled, rfl, rfl⟩ := hleft
  exact cascade_value htwin info opLoc hraw htarget hsettled place

theorem cascade_assignedTo (htwin : Twin s s') (info : ExprInfo) (opLoc : SourceLocation)
    {value value' : Expr} (hinner : CascadeExpr program fresh use none s s' value value')
    {action : AnalyzerM (VarHead × Option Expr)} {P : VarHead × Option Expr → Prop}
    (hblind : Blind action) (hleads : Leads action s fun var s₁ => s₁ = s ∧ P var)
    (place : Option (String × Nat)) :
    Cascade (do
        let var ← action
        checkTarget var.1
        let value ← analyzeExpr value
        requireInt value "as the value of an assignment"
        return Expr.assign { info with type := .int } opLoc var.1 var.2 value)
      (do
        let var ← action
        checkTarget var.1
        let value ← analyzeExpr value'
        requireInt value "as the value of an assignment"
        return Expr.assign { info with type := .int } opLoc var.1 var.2 value) s s'
      fun x x' errs s₁ s₁' => Pending program fresh use place x x' errs ∧
        s₁ = s ∧ s₁' = s' := by
  apply (Cascade.still hblind htwin hleads).bind
  intro var var' errs s₁ s₁' hleft
  obtain ⟨rfl, rfl, -, rfl, rfl⟩ := hleft
  exact cascade_assigned htwin info opLoc hinner _ place

mutual

theorem cascade_expr (htwin : Twin s s') (hnames : DistinctNames program)
    (hknows : Knows program fresh s) : ∀ (e : Expr) {e' : Expr}
    {place : Option (String × Nat)}, e.raw = e → ReplacedExpr fresh place e e' use →
    CascadeExpr program fresh use place s s' e e'
  | .num info value, _, _, _, hreplaced => by cases hreplaced
  | .var head none, e', place, hraw, hreplaced => by
      rw [Expr.raw, Expr.var.injEq] at hraw
      cases hreplaced with
      | name =>
          unfold CascadeExpr analyzeExpr
          apply (cascade_name htwin hknows hraw.1).bind
          intro r r' errs s₁ s₁' hleft
          obtain ⟨htype, herrs, hstate, hstate'⟩ := hleft
          apply Cascade.pure
          refine ⟨.inr ⟨rfl, htype, ?_⟩, hstate, hstate'⟩
          rw [herrs]
          rfl
  | .var head (some index), e', place, hraw, hreplaced => by
      rw [Expr.raw, Expr.var.injEq, Option.some.injEq] at hraw
      cases hreplaced with
      | name =>
          unfold CascadeExpr analyzeExpr
          apply (cascade_element htwin hknows (blind_expr index)
            (leads_expr index hraw.2)).bind
          intro r r' errs s₁ s₁' hleft
          obtain ⟨htype, herrs, hstate, hstate'⟩ := hleft
          apply Cascade.pure
          refine ⟨.inr ⟨rfl, htype, ?_⟩, hstate, hstate'⟩
          rw [herrs]
          rfl
      | index hindex =>
          have hinner := cascade_expr htwin hnames hknows index hraw.2 hindex
          unfold CascadeExpr analyzeExpr
          apply (cascade_index htwin head hinner).bind
          intro r r' errs s₁ s₁' hleft
          obtain ⟨htype, hsettled, hstate, hstate'⟩ := hleft
          apply Cascade.pure
          exact ⟨.inl ⟨htype, hsettled.append rfl⟩, hstate, hstate'⟩
  | .call info callee args symbol, e', place, hraw, hreplaced => by
      rw [Expr.raw, Expr.call.injEq] at hraw
      cases hreplaced with
      | callee =>
          unfold CascadeExpr analyzeExpr
          apply (cascade_callee htwin hknows info callee (blind_args args)
            (leads_args args hraw.2.2.1)).mono
          intro x x' errs s₁ s₁' hleft
          obtain ⟨htype, herrs, hstates⟩ := hleft
          exact ⟨.inr ⟨rfl, htype, herrs⟩, hstates⟩
      | args hargs =>
          have hinner := cascade_args htwin hnames hknows args hraw.2.2.1 hargs
          unfold CascadeExpr analyzeExpr
          apply (cascade_call htwin hnames hknows info callee hinner).mono
          intro x x' errs s₁ s₁' hleft
          obtain ⟨htype, hsettled, hstates⟩ := hleft
          exact ⟨.inl ⟨htype, hsettled⟩, hstates⟩
  | .assign info opLoc target none value, e', place, hraw, hreplaced => by
      rw [Expr.raw, Expr.assign.injEq] at hraw
      cases hreplaced with
      | target =>
          unfold CascadeExpr analyzeExpr
          exact cascade_target htwin info opLoc hraw.2.2.2.2
            (Cascade.target (cascade_name htwin hknows hraw.2.2.1)) place
      | value hvalue =>
          have hinner := cascade_expr htwin hnames hknows value hraw.2.2.2.2 hvalue
          unfold CascadeExpr analyzeExpr
          exact cascade_assignedTo htwin info opLoc hinner
            (blind_analyzeVarExpr target blind_noIndex) (leads_name hraw.2.2.1) place
  | .assign info opLoc target (some index) value, e', place, hraw, hreplaced => by
      rw [Expr.raw, Expr.assign.injEq, Option.some.injEq] at hraw
      cases hreplaced with
      | target =>
          unfold CascadeExpr analyzeExpr
          exact cascade_target htwin info opLoc hraw.2.2.2.2 (Cascade.target
            (cascade_element htwin hknows (blind_expr index)
              (leads_expr index hraw.2.2.2.1))) place
      | targetIndex hindex =>
          have hinner := cascade_expr htwin hnames hknows index hraw.2.2.2.1 hindex
          unfold CascadeExpr analyzeExpr
          apply cascade_target htwin info opLoc hraw.2.2.2.2
          apply (cascade_index htwin target hinner).mono
          intro var var' errs s₁ s₁' hleft
          obtain ⟨htype, hleft⟩ := hleft
          refine ⟨fun hne => ?_, hleft⟩
          rw [htype]
          exact hne
      | value hvalue =>
          have hinner := cascade_expr htwin hnames hknows value hraw.2.2.2.2 hvalue
          unfold CascadeExpr analyzeExpr
          exact cascade_assignedTo htwin info opLoc hinner
            (blind_analyzeVarExpr target (blind_someIndex (blind_expr index)))
            (leads_element hraw.2.2.1 (leads_expr index hraw.2.2.2.1)) place
  | .binary info op opLoc lhs rhs, e', place, hraw, hreplaced => by
      rw [Expr.raw, Expr.binary.injEq] at hraw
      cases hreplaced with
      | lhs hlhs =>
          exact cascade_lhs htwin info op opLoc hraw.2.2.2.2
            (cascade_expr htwin hnames hknows lhs hraw.2.2.2.1 hlhs) place
      | rhs hrhs =>
          exact cascade_rhs htwin info op opLoc hraw.2.2.2.1
            (cascade_expr htwin hnames hknows rhs hraw.2.2.2.2 hrhs) place

theorem cascade_args (htwin : Twin s s') (hnames : DistinctNames program)
    (hknows : Knows program fresh s) : ∀ (args : List Expr) {args' : List Expr}
    {callee : String} {i : Nat}, rawArgs args = args →
    ReplacedArgs fresh callee i args args' use →
    Cascade (analyzeArgs args) (analyzeArgs args') s s' fun xs xs' errs s₁ s₁' =>
      PendingArgs program fresh use callee i xs xs' errs ∧ s₁ = s ∧ s₁' = s'
  | [], _, _, _, _, hreplaced => by cases hreplaced
  | arg :: args, args', callee, i, hraw, hreplaced => by
      rw [rawArgs, List.cons.injEq] at hraw
      cases hreplaced with
      | head harg =>
          have hinner := cascade_expr htwin hnames hknows arg hraw.1 harg
          have hrest := Cascade.still (blind_args args) htwin (leads_args args hraw.2)
          unfold analyzeArgs
          apply Cascade.bind hinner
          intro x x' errs₁ s₁ s₁' hleft
          obtain ⟨hpending, hstate, hstate'⟩ := hleft
          rw [hstate, hstate']
          apply hrest.bind
          intro xs xs' errs₂ s₂ s₂' hleft
          obtain ⟨rfl, herrs₂, -, rfl, rfl⟩ := hleft
          apply Cascade.pure
          refine ⟨⟨[], x, x', xs', rfl, rfl, ?_⟩, rfl, rfl⟩
          rw [herrs₂, List.append_nil, List.append_nil]
          exact hpending
      | tail hargs =>
          have hrest := cascade_args htwin hnames hknows args hraw.2 hargs
          unfold analyzeArgs
          apply (cascade_same htwin hraw.1).bind
          intro x x' errs₁ s₁ s₁' hleft
          obtain ⟨rfl, herrs₁, hstate, hstate'⟩ := hleft
          rw [hstate, hstate']
          apply hrest.bind
          intro xs xs' errs₂ s₂ s₂' hleft
          obtain ⟨⟨front, a, a', back, rfl, rfl, hpending⟩, rfl, rfl⟩ := hleft
          apply Cascade.pure
          refine ⟨⟨x' :: front, a, a', back, rfl, rfl, ?_⟩, rfl, rfl⟩
          rw [herrs₁, List.nil_append, List.append_nil, List.length_cons,
            ← Nat.add_assoc, Nat.add_right_comm]
          exact hpending

end

end Replacement

end SemanticAnalyzer

end CMinus
