import Mathlib.Data.List.Perm.Basic
import Mathlib.Data.List.Sort
import CMinus.Analyzer.Scoping

namespace CMinus

/-! The scopes of an analyzed tree in the order in which they open.  An entry is the name
that is declared, and the symbol that it got. -/

structure OpenedScope where
  depth : Int
  label : String
  entries : List (String × Option Symbol)
deriving Repr, DecidableEq, Inhabited

def OpenedScope.symbols (scope : OpenedScope) : List Symbol := scope.entries.filterMap Prod.snd

def OpenedScope.report (order : Nat) (scope : OpenedScope) : ScopeReport :=
  { order := order, depth := scope.depth, label := scope.label, symbols := scope.symbols }

def VarDecl.entry (decl : VarDecl) : String × Option Symbol := (decl.name, decl.symbol)

def ParamDecl.entry (param : ParamDecl) : String × Option Symbol := (param.name, param.symbol)

def Decl.entry (decl : Decl) : String × Option Symbol := (decl.name, decl.symbol)

mutual

def Stmt.opens (depth : Int) : Stmt → List OpenedScope
  | .compound _ localDecls stmts =>
      ⟨depth, "block", localDecls.map VarDecl.entry⟩ :: opensOf (depth + 1) stmts
  | .expr _ _ => []
  | .ifs _ _ thenStmt none => thenStmt.opens depth
  | .ifs _ _ thenStmt (some elseStmt) => thenStmt.opens depth ++ elseStmt.opens depth
  | .whiles _ _ body => body.opens depth
  | .ret _ _ => []

def opensOf (depth : Int) : List Stmt → List OpenedScope
  | [] => []
  | stmt :: stmts => stmt.opens depth ++ opensOf depth stmts

end

def FunDecl.opens (decl : FunDecl) : List OpenedScope :=
  ⟨1, "function '" ++ decl.name ++ "'",
    decl.params.map ParamDecl.entry ++ decl.body.localDecls.map VarDecl.entry⟩ ::
    opensOf 2 decl.body.stmts

def Decl.opens : Decl → List OpenedScope
  | .var _ => []
  | .fun decl => decl.opens

def Program.opens (program : Program) : List OpenedScope :=
  ⟨0, "global", builtinSymbols.map (fun symbol => (symbol.name, some symbol)) ++
    program.decls.map Decl.entry⟩ :: program.decls.flatMap Decl.opens

/-- Of the declarations of a name the first has a symbol, and no other has. -/
def FirstOfEach : List String → List (String × Option Symbol) → Prop
  | _, [] => True
  | seen, (name, symbol) :: entries =>
      (symbol = none ↔ name ∈ seen) ∧ (∀ found, symbol = some found → found.name = name) ∧
        FirstOfEach (seen ++ [name]) entries

theorem firstOfEach_append {seen : List String} {first second : List (String × Option Symbol)} :
    FirstOfEach seen (first ++ second) ↔
      FirstOfEach seen first ∧ FirstOfEach (seen ++ first.map Prod.fst) second := by
  induction first generalizing seen with
  | nil => simp [FirstOfEach]
  | cons entry first ih =>
      obtain ⟨name, symbol⟩ := entry
      simp only [List.cons_append, FirstOfEach, List.map_cons, ih, and_assoc, List.append_assoc,
        List.nil_append]

/-! What a scope holds are the first declarations. -/

section

variable {δ : Type} (symbol : δ → Option Symbol) (name : δ → String)
  (declares : δ → Symbol → Prop) (hdeclares : ∀ decl found, declares decl found →
    symbol decl = some found ∧ found.name = name decl)
include hdeclares

theorem firstOfEach_of_enter {scope : List Symbol} {seen : List String}
    (hseen : ∀ n, n ∈ scope.map Symbol.name ↔ n ∈ seen) {decls : List δ}
    (h : EnterEach symbol (fun scope decl => Enters scope (name decl) (symbol decl) (declares decl))
      scope decls) :
    FirstOfEach seen (decls.map fun decl => (name decl, symbol decl)) ∧
      ∀ n, n ∈ (scope ++ decls.filterMap symbol).map Symbol.name ↔
        n ∈ seen ++ decls.map name := by
  induction decls generalizing scope seen with
  | nil => simpa [FirstOfEach] using hseen
  | cons decl decls ih =>
      obtain ⟨henters, hrest⟩ := h
      have hsame : ∀ n, n ∈ (scope ++ (symbol decl).toList).map Symbol.name ↔
          n ∈ seen ++ [name decl] := by
        intro n
        rw [List.map_append, List.mem_append, List.mem_append, hseen, List.mem_singleton]
        rcases henters with ⟨hmem, hnone⟩ | ⟨-, found, hfound⟩
        · rw [hseen] at hmem
          rw [hnone]
          constructor
          · intro hor
            rcases hor with hold | hnew
            · exact .inl hold
            · cases hnew
          · intro hor
            rcases hor with hold | rfl
            · exact .inl hold
            · exact .inl hmem
        · obtain ⟨hsome, hname⟩ := hdeclares decl found hfound
          rw [hsome, ← hname]
          simp
      obtain ⟨hfirst, hnames⟩ := ih hsame hrest
      refine ⟨⟨?_, ?_, hfirst⟩, ?_⟩
      · rcases henters with ⟨hmem, hnone⟩ | ⟨hfresh, found, hfound⟩
        · exact ⟨fun _ => (hseen _).mp hmem, fun _ => hnone⟩
        · have hsome := (hdeclares decl found hfound).1
          rw [hseen] at hfresh
          rw [hsome]
          exact ⟨nofun, fun hmem => absurd hmem hfresh⟩
      · intro found hsome
        rcases henters with ⟨-, hnone⟩ | ⟨-, found', hfound⟩
        · rw [hnone] at hsome
          cases hsome
        · obtain ⟨hsome', hname⟩ := hdeclares decl found' hfound
          rw [hsome'] at hsome
          cases hsome
          exact hname
      · intro n
        rw [← SemanticAnalyzer.toList_append_filterMap, ← List.append_assoc, hnames, List.map_cons,
          List.append_assoc]
        rfl

end

theorem firstOfEach_vars {scope : List Symbol} {seen : List String}
    (hseen : ∀ n, n ∈ scope.map Symbol.name ↔ n ∈ seen) {decls : List VarDecl}
    (h : EnterVars scope decls) : FirstOfEach seen (decls.map VarDecl.entry) :=
  (firstOfEach_of_enter VarDecl.symbol VarDecl.name VarDecl.Declares
    (fun _ _ h => ⟨h.carries, h.name⟩) hseen h).1

theorem firstOfEach_params {params : List ParamDecl} (h : EnterParams [] params) :
    FirstOfEach [] (params.map ParamDecl.entry) ∧
      ∀ n, n ∈ (params.filterMap ParamDecl.symbol).map Symbol.name ↔
        n ∈ (params.map ParamDecl.entry).map Prod.fst := by
  have hnone : ∀ n, n ∈ ([] : List Symbol).map Symbol.name ↔ n ∈ [] := fun _ => Iff.rfl
  have hfirst := firstOfEach_of_enter ParamDecl.symbol ParamDecl.name ParamDecl.Declares
    (fun _ _ h => ⟨h.carries, h.name⟩) hnone h
  refine ⟨hfirst.1, ?_⟩
  intro n
  rw [List.map_map]
  exact hfirst.2 n

mutual

theorem Stmt.Scoped.firstOfEach (depth : Int) : ∀ (stmt : Stmt) {env : Env}, stmt.Scoped env →
    ∀ scope ∈ stmt.opens depth, FirstOfEach [] scope.entries
  | .compound _ localDecls stmts, _, h => by
      intro scope hscope
      rcases List.mem_cons.mp hscope with rfl | hscope
      · exact firstOfEach_vars (fun _ => Iff.rfl) h.1
      · exact ScopedStmts.firstOfEach (depth + 1) stmts h.2 scope hscope
  | .expr _ _, _, _ => by
      intro scope hscope
      cases hscope
  | .ifs _ _ thenStmt none, _, h => Stmt.Scoped.firstOfEach depth thenStmt h.2
  | .ifs _ _ thenStmt (some elseStmt), _, h => by
      intro scope hscope
      rcases List.mem_append.mp hscope with hscope | hscope
      · exact Stmt.Scoped.firstOfEach depth thenStmt h.2.1 scope hscope
      · exact Stmt.Scoped.firstOfEach depth elseStmt h.2.2 scope hscope
  | .whiles _ _ body, _, h => Stmt.Scoped.firstOfEach depth body h.2
  | .ret _ _, _, _ => by
      intro scope hscope
      cases hscope

theorem ScopedStmts.firstOfEach (depth : Int) : ∀ (stmts : List Stmt) {env : Env},
    ScopedStmts env stmts → ∀ scope ∈ opensOf depth stmts, FirstOfEach [] scope.entries
  | [], _, _ => by
      intro scope hscope
      cases hscope
  | stmt :: stmts, _, h => by
      intro scope hscope
      rcases List.mem_append.mp hscope with hscope | hscope
      · exact Stmt.Scoped.firstOfEach depth stmt h.1 scope hscope
      · exact ScopedStmts.firstOfEach depth stmts h.2 scope hscope

end

theorem FunDecl.Scoped.firstOfEach {globals : List Symbol} {decl : FunDecl}
    (h : decl.Scoped globals) : ∀ scope ∈ decl.opens, FirstOfEach [] scope.entries := by
  intro scope hscope
  rcases List.mem_cons.mp hscope with rfl | hscope
  · obtain ⟨hparams, hnames⟩ := firstOfEach_params h.params
    exact firstOfEach_append.mpr ⟨hparams, firstOfEach_vars hnames h.locals⟩
  · exact ScopedStmts.firstOfEach 2 decl.body.stmts h.body scope hscope

theorem Decl.Scoped.enters {globals : List Symbol} {decl : Decl} (h : decl.Scoped globals) :
    Enters globals decl.name decl.symbol decl.Declares := by
  cases decl with
  | var decl => exact h
  | «fun» decl => exact FunDecl.Scoped.enters h

theorem ScopedDecls.enterEach {globals : List Symbol} {decls : List Decl}
    (h : ScopedDecls globals decls) :
    EnterEach Decl.symbol
      (fun scope decl => Enters scope decl.name decl.symbol decl.Declares) globals decls := by
  induction decls generalizing globals with
  | nil => trivial
  | cons decl decls ih => exact ⟨h.1.enters, ih h.2⟩

theorem ScopedDecls.firstOfEach {globals : List Symbol} {decls : List Decl}
    (h : ScopedDecls globals decls) :
    ∀ scope ∈ decls.flatMap Decl.opens, FirstOfEach [] scope.entries := by
  induction decls generalizing globals with
  | nil =>
      intro scope hscope
      cases hscope
  | cons decl decls ih =>
      intro scope hscope
      rw [List.flatMap_cons, List.mem_append] at hscope
      rcases hscope with hscope | hscope
      · cases decl with
        | var decl => cases hscope
        | «fun» decl => exact FunDecl.Scoped.firstOfEach h.1 scope hscope
      · exact ih h.2 scope hscope

theorem Program.Scoped.firstOfEach {program : Program} (h : program.Scoped) :
    ∀ scope ∈ program.opens, FirstOfEach [] scope.entries := by
  intro scope hscope
  rcases List.mem_cons.mp hscope with rfl | hscope
  · have hseen : ∀ n, n ∈ builtinSymbols.map Symbol.name ↔
        n ∈ [] ++ (builtinSymbols.map fun symbol => (symbol.name, some symbol)).map Prod.fst :=
      fun _ => Iff.rfl
    refine firstOfEach_append.mpr ⟨?_, ?_⟩
    · simp [builtinSymbols, FirstOfEach]
    · exact (firstOfEach_of_enter Decl.symbol Decl.name Decl.Declares
        (fun _ _ h => ⟨h.carries, h.name⟩) hseen h.decls.enterEach).1
  · exact ScopedDecls.firstOfEach h.decls scope hscope

/-! What the scopes hold together is what the declarations entered. -/

def symbolsOf (opened : List OpenedScope) : List Symbol := opened.flatMap OpenedScope.symbols

theorem symbolsOf_append (first second : List OpenedScope) :
    symbolsOf (first ++ second) = symbolsOf first ++ symbolsOf second := List.flatMap_append

theorem filterMap_entry {δ : Type} (symbol : δ → Option Symbol) (name : δ → String)
    (decls : List δ) : (decls.map fun decl => (name decl, symbol decl)).filterMap Prod.snd =
      decls.filterMap symbol := by
  rw [List.filterMap_map]
  rfl

mutual

theorem Stmt.symbolsOf_opens (depth : Int) : ∀ stmt : Stmt,
    symbolsOf (stmt.opens depth) = stmt.locals.filterMap VarDecl.symbol
  | .compound _ localDecls stmts => by
      have hlocals : (localDecls.map VarDecl.entry).filterMap Prod.snd =
          localDecls.filterMap VarDecl.symbol := filterMap_entry VarDecl.symbol VarDecl.name _
      rw [Stmt.locals, List.filterMap_append, ← symbolsOf_opensOf (depth + 1) stmts, ← hlocals]
      rfl
  | .expr _ _ => rfl
  | .ifs _ _ thenStmt none => Stmt.symbolsOf_opens depth thenStmt
  | .ifs _ _ thenStmt (some elseStmt) => by
      rw [Stmt.locals, List.filterMap_append, ← Stmt.symbolsOf_opens depth thenStmt,
        ← Stmt.symbolsOf_opens depth elseStmt, ← symbolsOf_append]
      rfl
  | .whiles _ _ body => Stmt.symbolsOf_opens depth body
  | .ret _ _ => rfl

theorem symbolsOf_opensOf (depth : Int) : ∀ stmts : List Stmt,
    symbolsOf (opensOf depth stmts) = (localsOf stmts).filterMap VarDecl.symbol
  | [] => rfl
  | stmt :: stmts => by
      rw [localsOf, List.filterMap_append, ← Stmt.symbolsOf_opens depth stmt,
        ← symbolsOf_opensOf depth stmts, ← symbolsOf_append]
      rfl

end

theorem Decl.entered_eq (decl : Decl) :
    decl.entered = decl.symbol.toList ++ symbolsOf decl.opens := by
  cases decl with
  | var decl => exact (List.append_nil _).symm
  | «fun» decl =>
      have hparams : (decl.params.map ParamDecl.entry).filterMap Prod.snd =
          decl.params.filterMap ParamDecl.symbol := filterMap_entry ParamDecl.symbol ParamDecl.name _
      have hlocals : (decl.body.localDecls.map VarDecl.entry).filterMap Prod.snd =
          decl.body.localDecls.filterMap VarDecl.symbol :=
        filterMap_entry VarDecl.symbol VarDecl.name _
      have hopens : symbolsOf decl.opens =
          (decl.params.map ParamDecl.entry ++ decl.body.localDecls.map VarDecl.entry).filterMap
            Prod.snd ++ symbolsOf (opensOf 2 decl.body.stmts) := rfl
      have hwhole : decl.locals = decl.body.localDecls ++ localsOf decl.body.stmts := rfl
      change decl.symbol.toList ++ decl.params.filterMap ParamDecl.symbol ++
        decl.locals.filterMap VarDecl.symbol = decl.symbol.toList ++ symbolsOf decl.opens
      rw [hopens, hwhole, List.filterMap_append, List.filterMap_append, hparams, hlocals,
        symbolsOf_opensOf]
      simp only [List.append_assoc]

theorem Program.symbolsOf_opens (program : Program) :
    (symbolsOf program.opens).Perm (builtinSymbols ++ program.decls.flatMap Decl.entered) := by
  have hglobal : (program.decls.map Decl.entry).filterMap Prod.snd =
      program.decls.flatMap fun decl => decl.symbol.toList := by
    rw [List.filterMap_eq_flatMap_toList, List.flatMap_map]
    rfl
  have hinner : symbolsOf (program.decls.flatMap Decl.opens) =
      program.decls.flatMap fun decl => symbolsOf decl.opens := List.flatMap_assoc
  have hwhole : symbolsOf program.opens =
      (builtinSymbols ++ (program.decls.map Decl.entry).filterMap Prod.snd) ++
        symbolsOf (program.decls.flatMap Decl.opens) := by
    change (builtinSymbols.map (fun symbol => (symbol.name, some symbol)) ++
      program.decls.map Decl.entry).filterMap Prod.snd ++ _ = _
    rw [List.filterMap_append]
    rfl
  rw [hwhole, hglobal, hinner, List.append_assoc]
  apply List.Perm.append_left
  have hentered : program.decls.flatMap Decl.entered =
      program.decls.flatMap fun decl => decl.symbol.toList ++ symbolsOf decl.opens := by
    apply List.flatMap_congr
    intro decl _
    exact decl.entered_eq
  rw [hentered]
  exact List.flatMap_append_perm _ _ _

namespace SemanticAnalyzer

/-! What analysis reports.  The reports come in the order in which the scopes close, with the
numbers of the order in which they opened. -/

def numbered (n : Nat) (opened : List OpenedScope) : List ScopeReport :=
  opened.mapIdx fun i scope => scope.report (n + i)

theorem numbered_cons (n : Nat) (scope : OpenedScope) (opened : List OpenedScope) :
    numbered n (scope :: opened) = scope.report n :: numbered (n + 1) opened := by
  unfold numbered
  rw [List.mapIdx_cons, Nat.add_zero]
  congr 2
  funext i
  rw [Nat.add_assoc, Nat.add_comm 1 i]

theorem numbered_append (n : Nat) (first second : List OpenedScope) :
    numbered n (first ++ second) = numbered n first ++ numbered (n + first.length) second := by
  unfold numbered
  rw [List.mapIdx_append]
  congr 2
  funext i
  rw [Nat.add_assoc, Nat.add_comm i]

/-- From `s` to `s'` these scopes were opened and closed again. -/
structure Dumps (s s' : SemanticAnalyzer) (opened : List OpenedScope) : Prop where
  nextOrder : s'.table.nextOrder = s.table.nextOrder + opened.length
  reports : ∃ new, s'.scopes = s.scopes ++ new ∧ new.Perm (numbered s.table.nextOrder opened)

variable {s s' s'' : SemanticAnalyzer}

theorem Dumps.quiet (horder : s'.table.nextOrder = s.table.nextOrder)
    (hscopes : s'.scopes = s.scopes) : Dumps s s' [] :=
  ⟨horder, [], by rw [hscopes, List.append_nil], .nil⟩

theorem Dumps.refl (s : SemanticAnalyzer) : Dumps s s [] := .quiet rfl rfl

theorem Dumps.trans {first second : List OpenedScope} (h : Dumps s s' first)
    (h' : Dumps s' s'' second) : Dumps s s'' (first ++ second) := by
  obtain ⟨new, hnew, hperm⟩ := h.reports
  obtain ⟨new', hnew', hperm'⟩ := h'.reports
  constructor
  · rw [h'.nextOrder, h.nextOrder, List.length_append, Nat.add_assoc]
  · refine ⟨new ++ new', ?_, ?_⟩
    · rw [hnew', hnew, List.append_assoc]
    · rw [h.nextOrder] at hperm'
      rw [numbered_append]
      exact hperm.append hperm'

theorem Leads.and {α : Type} {action : AnalyzerM α} {Q R : α → SemanticAnalyzer → Prop}
    (h : Leads action s Q) (h' : Leads action s R) :
    Leads action s fun a s' => Q a s' ∧ R a s' := ⟨h.result, h'.result⟩

/-! Declarations neither open nor close a scope. -/

structure Quiet {α : Type} (action : AnalyzerM α) : Prop where
  keeps : ∀ s, Dumps s (action s).2.1 []

section Rules

variable {α β : Type}

theorem Quiet.of_still {action : AnalyzerM α} (h : Still action) : Quiet action := by
  constructor
  intro s
  rw [h.state]
  exact .refl s

theorem Quiet.bind {action : AnalyzerM α} {next : α → AnalyzerM β} (h : Quiet action)
    (hnext : ∀ a, Quiet (next a)) : Quiet (action >>= next) := by
  constructor
  intro s
  exact (h.keeps s).trans ((hnext (action s).1).keeps (action s).2.1)

theorem Quiet.leads {action : AnalyzerM α} (h : Quiet action) (s : SemanticAnalyzer) :
    Leads action s fun _ s' => Dumps s s' [] := ⟨h.keeps s⟩

end Rules

theorem quiet_declareOrDiagnose (symbol : Symbol) (loc : SourceLocation) :
    Quiet (declareOrDiagnose symbol loc) := by
  have hdeclare : Quiet (declare symbol) := by
    constructor
    intro s
    have horder : (s.table.declare symbol).2.nextOrder = s.table.nextOrder := by
      unfold SymbolTable.declare
      split
      · rfl
      · split <;> rfl
    exact .quiet horder rfl
  unfold declareOrDiagnose
  apply hdeclare.bind
  intro declared
  apply Quiet.of_still
  cases declared with
  | inserted stored => exact .pure _
  | existing existing =>
      apply Still.ite
      · exact .bind (.error _ _) fun _ => .pure _
      · exact .bind (.error _ _) fun _ => .bind (still_note _ _) fun _ => .pure _
  | noScope => exact .bind (.error _ _) fun _ => .pure _

theorem quiet_varDecls (decls : List VarDecl) : Quiet (analyzeVarDecls decls) := by
  induction decls with
  | nil => exact .of_still (.pure _)
  | cons decl decls ih =>
      have hdecl : Quiet (analyzeVarDecl decl) := by
        unfold analyzeVarDecl
        apply Quiet.bind (.of_still (still_errorIf _ _ _))
        intro _
        apply Quiet.bind (.of_still (still_warnIf _ _ _))
        intro _
        apply Quiet.bind (quiet_declareOrDiagnose _ _)
        intro symbol
        exact .of_still (.pure _)
      unfold analyzeVarDecls
      apply hdecl.bind
      intro decl'
      apply ih.bind
      intro decls'
      exact .of_still (.pure _)

theorem quiet_params (params : List ParamDecl) : Quiet (analyzeParams params) := by
  induction params with
  | nil => exact .of_still (.pure _)
  | cons param params ih =>
      have hparam : Quiet (analyzeParam param) := by
        unfold analyzeParam
        apply Quiet.bind (.of_still (still_errorIf _ _ _))
        intro _
        apply Quiet.bind (quiet_declareOrDiagnose _ _)
        intro symbol
        exact .of_still (.pure _)
      unfold analyzeParams
      apply hparam.bind
      intro param'
      apply ih.bind
      intro params'
      exact .of_still (.pure _)

/-! Statements.  A block opens its scope before those in it, and closes it after them. -/

/-- One scope, opened at `s` and closed at `s'`, with what happened in between. -/
theorem Dumps.scope {opened : List OpenedScope} {label : String} {scope : Scope}
    {s₀ s₁ : SemanticAnalyzer}
    (hpush : s₀ = { s with table := s.table.pushScope label }) (h : Dumps s₀ s₁ opened)
    (hscope : s₁.table.scopes = scope :: s.table.scopes)
    (horder : scope.order = s.table.nextOrder) (hlabel : scope.label = label)
    {entries : List (String × Option Symbol)}
    (hentries : scope.symbols = entries.filterMap Prod.snd) :
    Dumps s (closeScope s₁).2.1 (⟨s.table.scopes.length, label, entries⟩ :: opened) := by
  obtain ⟨new, hnew, hperm⟩ := h.reports
  subst hpush
  have hpop : s₁.table.popScope = (OpenedScope.report s.table.nextOrder
      ⟨s.table.scopes.length, label, entries⟩, { s₁.table with scopes := s.table.scopes }) := by
    have hdepth : s₁.table.depth = s.table.scopes.length := by
      unfold SymbolTable.depth
      rw [hscope, List.length_cons]
      omega
    unfold SymbolTable.popScope
    rw [hscope]
    dsimp only
    rw [hdepth, horder, hlabel, hentries]
    rfl
  constructor
  · change (s₁.table.popScope).2.nextOrder = _
    rw [hpop, List.length_cons, Nat.add_comm opened.length, ← Nat.add_assoc]
    exact h.nextOrder
  · refine ⟨new ++ [(s₁.table.popScope).1], ?_, ?_⟩
    · rw [← List.append_assoc, ← hnew]
      rfl
    · rw [hpop, numbered_cons]
      exact (List.perm_append_comm).trans (List.Perm.cons _ hperm)

def DumpsStmt (s : SemanticAnalyzer) (stmt : Stmt) : Prop :=
  Leads (analyzeStmt stmt) s fun stmt' s' => Dumps s s' (stmt'.opens s.table.scopes.length)

def DumpsStmts (s : SemanticAnalyzer) (stmts : List Stmt) : Prop :=
  Leads (analyzeStmts stmts) s fun stmts' s' => Dumps s s' (opensOf s.table.scopes.length stmts')

theorem Dumps.of_eq (h : s' = s) : Dumps s s' [] := by
  rw [h]
  exact .refl s

theorem dumps_block {loc : SourceLocation} {localDecls : List VarDecl} {stmts : List Stmt}
    (hlocals : localDecls.map VarDecl.raw = localDecls) (hraw : rawStmts stmts = stmts)
    (hstmts : ∀ s', DumpsStmts s' stmts) : DumpsStmt s (.compound loc localDecls stmts) := by
  unfold DumpsStmt analyzeStmt
  apply Leads.bind (leads_pushScope "block")
  intro _ s₀ hpush
  have hopen : s₀.table.scopes =
      { order := s.table.nextOrder, label := "block" } :: s.table.scopes := by
    rw [hpush]
    rfl
  apply Leads.bind ((leads_varDecls localDecls hlocals hopen).and
    ((quiet_varDecls localDecls).leads s₀))
  intro decls' s₁ hleft
  obtain ⟨⟨-, -, hadds⟩, hquiet⟩ := hleft
  have hscope := hadds.cons_scopes hopen
  apply Leads.bind ((leads_stmts stmts s₁ hraw).and (hstmts s₁))
  intro stmts' s₂ hleft
  obtain ⟨⟨-, hleaves⟩, hdumps⟩ := hleft
  rw [hscope, List.length_cons] at hdumps
  have hclosed : Leads closeScope s₂ fun _ s' => s' = (closeScope s₂).2.1 := ⟨rfl⟩
  apply hclosed.bind
  intro _ s₃ hclose
  apply Leads.pure
  subst hclose
  apply Dumps.scope hpush (hquiet.trans hdumps) (hleaves.scopes.trans hscope) rfl rfl
  exact (filterMap_entry VarDecl.symbol VarDecl.name decls').symm

mutual

theorem dumps_stmt : ∀ (stmt : Stmt) (s : SemanticAnalyzer), stmt.raw = stmt → DumpsStmt s stmt
  | .compound loc localDecls stmts, s, hraw => by
      rw [Stmt.raw, Stmt.compound.injEq] at hraw
      exact dumps_block hraw.2.1 hraw.2.2 fun s' => dumps_stmts stmts s' hraw.2.2
  | .expr loc none, s, _ => ⟨.refl s⟩
  | .expr loc (some e), s, hraw => by
      rw [Stmt.raw, Stmt.expr.injEq, Option.some.injEq] at hraw
      unfold DumpsStmt analyzeStmt
      apply Leads.bind (leads_expr e hraw.2)
      intro e' s' hleft
      exact .pure (.of_eq hleft.1)
  | .ifs loc cond thenStmt none, s, hraw => by
      rw [Stmt.raw, Stmt.ifs.injEq] at hraw
      unfold DumpsStmt analyzeStmt
      apply Leads.bind (leads_condition hraw.2.1)
      intro cond' s₀ hleft
      rw [hleft.1]
      apply Leads.bind (dumps_stmt thenStmt s hraw.2.2.1)
      intro then' s₁ hdumps
      exact .pure hdumps
  | .ifs loc cond thenStmt (some elseStmt), s, hraw => by
      rw [Stmt.raw, Stmt.ifs.injEq, Option.some.injEq] at hraw
      unfold DumpsStmt analyzeStmt
      apply Leads.bind (leads_condition hraw.2.1)
      intro cond' s₀ hleft
      rw [hleft.1]
      apply Leads.bind ((leads_stmt thenStmt s hraw.2.2.1).and (dumps_stmt thenStmt s hraw.2.2.1))
      intro then' s₁ hleft
      obtain ⟨⟨-, hleaves⟩, hthen⟩ := hleft
      apply Leads.bind (dumps_stmt elseStmt s₁ hraw.2.2.2)
      intro else' s₂ helse
      rw [hleaves.scopes] at helse
      exact .pure (hthen.trans helse)
  | .whiles loc cond body, s, hraw => by
      rw [Stmt.raw, Stmt.whiles.injEq] at hraw
      unfold DumpsStmt analyzeStmt
      apply Leads.bind (leads_condition hraw.2.1)
      intro cond' s₀ hleft
      rw [hleft.1]
      apply Leads.bind (dumps_stmt body s hraw.2.2)
      intro body' s₁ hdumps
      exact .pure hdumps
  | .ret loc value, s, hraw => by
      unfold DumpsStmt analyzeStmt
      have hkind : Leads (analyzeReturn loc value) s fun stmt' _ => ∃ value', stmt' = .ret loc value' := by
        unfold analyzeReturn
        apply Leads.getCurrentFunction
        cases value with
        | none => exact .still (still_errorIf _ _ _) fun _ => .pure ⟨none, rfl⟩
        | some value =>
            rw [Stmt.raw, Stmt.ret.injEq, Option.some.injEq] at hraw
            apply Leads.bind (leads_expr value hraw.2)
            intro value' s' _
            split
            · exact .still (.error _ _) fun _ => .pure ⟨some value', rfl⟩
            · exact .still (still_requireInt _ _) fun _ => .pure ⟨some value', rfl⟩
      obtain ⟨-, -, hstate⟩ := (leads_return hraw).result
      obtain ⟨value', hvalue⟩ := hkind.result
      constructor
      rw [hvalue]
      exact .of_eq hstate

theorem dumps_stmts : ∀ (stmts : List Stmt) (s : SemanticAnalyzer), rawStmts stmts = stmts →
    DumpsStmts s stmts
  | [], s, _ => ⟨.refl s⟩
  | stmt :: stmts, s, hraw => by
      rw [rawStmts, List.cons.injEq] at hraw
      unfold DumpsStmts analyzeStmts
      apply Leads.bind ((leads_stmt stmt s hraw.1).and (dumps_stmt stmt s hraw.1))
      intro stmt' s₁ hleft
      obtain ⟨⟨-, hleaves⟩, hstmt⟩ := hleft
      apply Leads.bind (dumps_stmts stmts s₁ hraw.2)
      intro stmts' s₂ hstmts
      rw [hleaves.scopes] at hstmts
      exact .pure (hstmt.trans hstmts)

end

/-! Functions and the program. -/

theorem dumps_funDecl {decl : FunDecl} (hraw : decl.raw = decl) {scope : Scope}
    (hscopes : s.table.scopes = [scope]) :
    Leads (analyzeFunDecl decl) s fun decl' s' => Dumps s s' decl'.opens := by
  rw [FunDecl.raw, FunDecl.mk.injEq] at hraw
  obtain ⟨-, -, -, -, hparamsRaw, hbodyRaw, -⟩ := hraw
  rw [CompoundStmt.raw, CompoundStmt.mk.injEq] at hbodyRaw
  obtain ⟨-, hlocalsRaw, hstmtsRaw⟩ := hbodyRaw
  unfold analyzeFunDecl
  apply Leads.bind ((leads_declare hscopes (sorted_functionSymbol decl)).and
    ((quiet_declareOrDiagnose _ _).leads s))
  intro symbol s₁ hleft
  obtain ⟨⟨hadds, -⟩, hdeclared⟩ := hleft
  apply Leads.getCurrentFunction
  have hset : ∀ (s : SemanticAnalyzer) (current : Option FunDecl),
      Leads (setCurrentFunction current) s
        (fun _ s' => s' = { s with currentFunction := current }) := fun _ _ => ⟨rfl⟩
  apply (hset s₁ (some decl)).bind
  intro _ s₂ hcurrent
  have hscopes₂ : s₂.table.scopes.length = 1 := by
    rw [hcurrent]
    dsimp only
    rw [hadds.cons_scopes hscopes]
    rfl
  apply Leads.bind (leads_pushScope _)
  intro _ s₃ hpush
  have hopen : s₃.table.scopes = { order := s₂.table.nextOrder
                                   label := "function '" ++ decl.name ++ "'" } ::
      s₂.table.scopes := by
    rw [hpush]
    rfl
  apply Leads.bind ((leads_params decl.params hparamsRaw hopen).and
    ((quiet_params decl.params).leads s₃))
  intro params' s₄ hleft
  obtain ⟨⟨-, -, hadds₄⟩, hquiet₄⟩ := hleft
  have hscope₄ := hadds₄.cons_scopes hopen
  have hbody : Leads (analyzeBody decl.body) s₄ fun body' s' => Dumps s₃ s' (opensOf 2 body'.stmts) ∧
      s'.table.scopes = { order := s₂.table.nextOrder
                          label := "function '" ++ decl.name ++ "'"
                          symbols := params'.filterMap ParamDecl.symbol ++
                            body'.localDecls.filterMap VarDecl.symbol } :: s₂.table.scopes := by
    unfold analyzeBody
    apply Leads.bind ((leads_varDecls decl.body.localDecls hlocalsRaw hscope₄).and
      ((quiet_varDecls decl.body.localDecls).leads s₄))
    intro locals' s₅ hleft
    obtain ⟨⟨-, -, hadds₅⟩, hquiet₅⟩ := hleft
    have hscope₅ := hadds₅.cons_scopes hscope₄
    apply Leads.bind ((leads_stmts decl.body.stmts s₅ hstmtsRaw).and
      (dumps_stmts decl.body.stmts s₅ hstmtsRaw))
    intro stmts' s₆ hleft
    obtain ⟨⟨-, hleaves⟩, hdumps⟩ := hleft
    rw [hscope₅, List.length_cons, hscopes₂] at hdumps
    exact .pure ⟨(hquiet₄.trans hquiet₅).trans hdumps, hleaves.scopes.trans hscope₅⟩
  apply hbody.bind
  intro body' s₆ hleft
  obtain ⟨hdumps, hscope₆⟩ := hleft
  have hclosed : Leads closeScope s₆ fun _ s' => s' = (closeScope s₆).2.1 := ⟨rfl⟩
  apply hclosed.bind
  intro _ s₇ hclose
  apply (hset s₇ s₁.currentFunction).bind
  intro _ s₈ hrestore
  apply Leads.still (still_warnIf _ _ _)
  intro _
  apply Leads.pure
  have hentries : params'.filterMap ParamDecl.symbol ++ body'.localDecls.filterMap VarDecl.symbol =
      (params'.map ParamDecl.entry ++ body'.localDecls.map VarDecl.entry).filterMap Prod.snd := by
    rw [List.filterMap_append]
    exact congrArg₂ _ (filterMap_entry ParamDecl.symbol ParamDecl.name params').symm
      (filterMap_entry VarDecl.symbol VarDecl.name body'.localDecls).symm
  have hwhole := Dumps.scope hpush hdumps hscope₆ rfl rfl hentries
  rw [hscopes₂, ← hclose] at hwhole
  have hstart : Dumps s s₂ [] := hdeclared.trans (.quiet (by rw [hcurrent]) (by rw [hcurrent]))
  have hend : Dumps s₇ s₈ [] := .quiet (by rw [hrestore]) (by rw [hrestore])
  have hall := (hstart.trans hwhole).trans hend
  rw [List.nil_append, List.append_nil] at hall
  exact hall

theorem dumps_decls (decls : List Decl) (hraw : decls.map Decl.raw = decls) {scope : Scope}
    (hscopes : s.table.scopes = [scope]) :
    Leads (analyzeDecls decls) s fun decls' s' =>
      Dumps s s' (decls'.flatMap Decl.opens) ∧
        s'.table.scopes = [{ scope with symbols := scope.symbols ++ decls'.filterMap Decl.symbol }] := by
  induction decls generalizing s scope with
  | nil =>
      refine .pure ⟨.refl s, ?_⟩
      rw [List.filterMap_nil, List.append_nil, hscopes]
  | cons decl decls ih =>
      rw [List.map_cons, List.cons.injEq] at hraw
      have hdecl : Leads (analyzeDecl decl) s fun decl' s' => Dumps s s' decl'.opens := by
        cases decl with
        | var decl =>
            rw [Decl.raw, Decl.var.injEq] at hraw
            unfold analyzeDecl
            have hquiet : Leads (analyzeVarDecl decl) s fun _ s' => Dumps s s' [] := by
              have hlist := (quiet_varDecls [decl]).leads s
              exact ⟨hlist.result⟩
            apply hquiet.bind
            intro decl' s' hdumps
            exact .pure hdumps
        | «fun» decl =>
            rw [Decl.raw, Decl.fun.injEq] at hraw
            unfold analyzeDecl
            apply (dumps_funDecl hraw.1 hscopes).bind
            intro decl' s' hdumps
            exact .pure hdumps
      unfold analyzeDecls
      apply ((leads_decl hraw.1 hscopes).and hdecl).bind
      intro decl' s₁ hleft
      obtain ⟨hentered, hdumps⟩ := hleft
      apply (ih hraw.2 hentered.scopes).bind
      intro decls' s₂ hleft
      obtain ⟨hrest, hglobal⟩ := hleft
      refine .pure ⟨?_, ?_⟩
      · rw [List.flatMap_cons]
        exact hdumps.trans hrest
      · rw [hglobal, List.append_assoc, toList_append_filterMap]

theorem numbered_sorted (n : Nat) (opened : List OpenedScope) :
    (numbered n opened).Pairwise fun a b => a.order < b.order := by
  have hbound : ∀ (opened : List OpenedScope) (n : Nat), ∀ report ∈ numbered n opened,
      n ≤ report.order := by
    intro opened
    induction opened with
    | nil =>
        intro n report hreport
        cases hreport
    | cons scope opened ih =>
        intro n report hreport
        rw [numbered_cons] at hreport
        rcases List.mem_cons.mp hreport with rfl | hreport
        · exact le_rfl
        · exact (Nat.le_succ n).trans (ih (n + 1) report hreport)
  induction opened generalizing n with
  | nil => exact .nil
  | cons scope opened ih =>
      rw [numbered_cons]
      exact .cons (fun report hreport => hbound opened (n + 1) report hreport) (ih (n + 1))

/-- However the reports come, sorting puts them in the order in which the scopes opened. -/
theorem sort_numbered {n : Nat} {opened : List OpenedScope} {reports : List ScopeReport}
    (h : reports.Perm (numbered n opened)) :
    reports.mergeSort (fun a b => decide (a.order ≤ b.order)) = numbered n opened := by
  have hsorted : (reports.mergeSort fun a b => decide (a.order ≤ b.order)).Pairwise
      fun a b => decide (a.order ≤ b.order) = true := by
    apply List.pairwise_mergeSort
    · intro a b c hab hbc
      rw [decide_eq_true_iff] at hab hbc ⊢
      exact hab.trans hbc
    · intro a b
      rw [Bool.or_eq_true, decide_eq_true_iff, decide_eq_true_iff]
      exact Nat.le_total _ _
  have hperm := (List.mergeSort_perm reports fun a b => decide (a.order ≤ b.order)).trans h
  have hstrict := numbered_sorted n opened
  apply hperm.eq_of_pairwise _ hsorted (hstrict.imp fun hlt => decide_eq_true (Nat.le_of_lt hlt))
  intro a b ha hb hab hba
  rw [decide_eq_true_iff] at hab hba
  have hsame : a.order = b.order := Nat.le_antisymm hab hba
  by_contra hne
  have hsymm : Std.Symm fun a b : ScopeReport => a.order ≠ b.order := ⟨fun _ _ h => Ne.symm h⟩
  have hdistinct : (numbered n opened).Pairwise fun a b => a.order ≠ b.order :=
    hstrict.imp fun hlt => Nat.ne_of_lt hlt
  exact hdistinct.forall (hperm.mem_iff.mp ha) hb hne hsame

theorem numbered_symbols (n : Nat) (opened : List OpenedScope) :
    (numbered n opened).flatMap ScopeReport.symbols = symbolsOf opened := by
  induction opened generalizing n with
  | nil => rfl
  | cons scope opened ih =>
      rw [numbered_cons, List.flatMap_cons, ih]
      rfl

/-- What occurs once in all lists together is in one of them. -/
theorem index_unique {α β : Type} {f : α → List β} {l : List α} (h : (l.flatMap f).Nodup)
    {i j : Nat} {a b : α} {x : β} (hi : l[i]? = some a) (hj : l[j]? = some b) (ha : x ∈ f a)
    (hb : x ∈ f b) : i = j := by
  have hapart := (List.nodup_flatMap.mp h).2
  obtain ⟨hlt, rfl⟩ := List.getElem?_eq_some_iff.mp hi
  obtain ⟨hlt', rfl⟩ := List.getElem?_eq_some_iff.mp hj
  rcases Nat.lt_trichotomy i j with hij | rfl | hij
  · exact absurd hb (List.pairwise_iff_getElem.mp hapart i j hlt hlt' hij ha)
  · rfl
  · exact absurd ha (List.pairwise_iff_getElem.mp hapart j i hlt' hlt hij hb)

theorem dumps_program {program : Program} (hraw : program.raw = program) :
    Leads (analyze program) {} fun program' s =>
      s.scopes = numbered 0 program'.opens ∧ s.table.scopes = [] := by
  rw [Program.raw, Program.mk.injEq] at hraw
  unfold analyze
  apply Leads.bind (leads_pushScope "global")
  intro _ s₀ hpush
  have hbuiltins : Leads declareBuiltins s₀ (fun _ s' => s'.table.scopes =
      [{ order := 0, label := "global", symbols := builtinSymbols }] ∧ Dumps s₀ s' []) := by
    rw [hpush]
    exact ⟨(judges_declareBuiltins.result trivial).1, .quiet rfl rfl⟩
  apply hbuiltins.bind
  intro _ s₁ hleft
  obtain ⟨hscopes, hquiet⟩ := hleft
  apply (dumps_decls program.decls hraw hscopes).bind
  intro decls' s₂ hleft
  obtain ⟨hdumps, hglobal⟩ := hleft
  apply Leads.still (still_checkMain _)
  intro _
  have hclosed : Leads closeScope s₂ fun _ s' => s' = (closeScope s₂).2.1 ∧
      s'.table.scopes = s₂.table.scopes.tail := ⟨rfl, leads_closeScope.result.1⟩
  apply hclosed.bind
  intro _ s₃ hleft
  obtain ⟨hclose, hempty⟩ := hleft
  have hsort : Leads sortScopes s₃ (fun _ s' => s'.table = s₃.table ∧
      s'.scopes = s₃.scopes.mergeSort fun a b => decide (a.order ≤ b.order)) := ⟨rfl, rfl⟩
  apply hsort.bind
  intro _ s₄ hleft
  obtain ⟨htable, hsorted⟩ := hleft
  have hentries : builtinSymbols ++ decls'.filterMap Decl.symbol =
      (builtinSymbols.map (fun symbol => (symbol.name, some symbol)) ++
        decls'.map Decl.entry).filterMap Prod.snd := by
    rw [List.filterMap_append]
    exact congrArg₂ _ rfl (filterMap_entry Decl.symbol Decl.name decls').symm
  have hwhole := Dumps.scope hpush (hquiet.trans hdumps) hglobal rfl rfl hentries
  rw [← hclose] at hwhole
  obtain ⟨new, hnew, hperm⟩ := hwhole.reports
  refine .pure ⟨?_, ?_⟩
  · rw [hsorted, hnew]
    exact sort_numbered hperm
  · rw [htable, hempty, hglobal]
    rfl

/-- The reports are the scopes of the tree in the order in which they open, each with the
first declarations of its names, and no symbol is in two of them. -/
theorem analyze_dump (p p' : Parser) (program : Program)
    (hparse : p.parseProgram = some (program, p')) :
    (analyze program {}).1.raw = program ∧
    (analyze program {}).2.1.scopes =
      (analyze program {}).1.opens.mapIdx (fun i scope => scope.report i) ∧
    (∀ scope ∈ (analyze program {}).1.opens, FirstOfEach [] scope.entries) ∧
    ((analyze program {}).2.1.scopes.flatMap ScopeReport.symbols).Nodup ∧
    (∀ symbol ∈ (analyze program {}).1.decls.flatMap Decl.entered,
      ∃! i : Nat, ∃ report, (analyze program {}).2.1.scopes[i]? = some report ∧
        symbol ∈ report.symbols) ∧
    (analyze program {}).2.1.table.scopes = [] := by
  have hraw := Parser.parseProgram_raw hparse
  obtain ⟨hsame, hscoped⟩ := analyze_scoped hraw
  obtain ⟨hscopes, hempty⟩ := (dumps_program hraw).result
  have hsymbols : (analyze program {}).2.1.scopes.flatMap ScopeReport.symbols =
      symbolsOf (analyze program {}).1.opens := by
    rw [hscopes, numbered_symbols]
  have hperm := (analyze program {}).1.symbolsOf_opens
  have hnodup : ((analyze program {}).2.1.scopes.flatMap ScopeReport.symbols).Nodup := by
    rw [hsymbols]
    exact hperm.nodup_iff.mpr (List.Nodup.of_map _ hscoped.distinct.nodup)
  refine ⟨hsame, ?_, hscoped.firstOfEach, hnodup, ?_, hempty⟩
  · rw [hscopes]
    unfold numbered
    congr 1
    funext i scope
    rw [Nat.zero_add]
  · intro symbol hsymbol
    have hmem : symbol ∈ (analyze program {}).2.1.scopes.flatMap ScopeReport.symbols := by
      rw [hsymbols, hperm.mem_iff]
      exact List.mem_append_right _ hsymbol
    obtain ⟨report, hreport, hin⟩ := List.mem_flatMap.mp hmem
    obtain ⟨i, hi⟩ := List.mem_iff_getElem?.mp hreport
    refine ⟨i, ⟨report, hi, hin⟩, ?_⟩
    intro j hj
    obtain ⟨report', hj, hin'⟩ := hj
    exact index_unique hnodup hj hi hin' hin

theorem analyze_dump_shadow :
    ∃ program p', (Parser.make shadowTokens []).parseProgram = some (program, p') ∧
      (analyze program {}).1.raw = program ∧
      (analyze program {}).2.1.scopes =
        (analyze program {}).1.opens.mapIdx (fun i scope => scope.report i) ∧
      (∀ scope ∈ (analyze program {}).1.opens, FirstOfEach [] scope.entries) ∧
      ((analyze program {}).2.1.scopes.flatMap ScopeReport.symbols).Nodup ∧
      (∀ symbol ∈ (analyze program {}).1.decls.flatMap Decl.entered,
        ∃! i : Nat, ∃ report, (analyze program {}).2.1.scopes[i]? = some report ∧
          symbol ∈ report.symbols) ∧
      (analyze program {}).2.1.table.scopes = [] := by
  have hrun : (Parser.make shadowTokens []).parseProgram.isSome = true := by
    decide +kernel
  obtain ⟨⟨program, p'⟩, hparse⟩ := Option.isSome_iff_exists.mp hrun
  exact ⟨program, p', hparse, analyze_dump _ p' program hparse⟩

end SemanticAnalyzer

end CMinus
