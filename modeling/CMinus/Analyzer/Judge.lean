import CMinus.SemanticAnalyzer
import CMinus.StaticRules

namespace CMinus

namespace SemanticAnalyzer

open Static

/-! `Judges action s ok Q`: run from `s`, the action reports no error exactly when
`ok` holds, and then its result and the state it leaves satisfy `Q`. -/

structure Judges {α : Type} (action : AnalyzerM α) (s : SemanticAnalyzer) (ok : Prop)
    (Q : α → SemanticAnalyzer → Prop) : Prop where
  exact : (action s).2.2.errorCount = 0 ↔ ok
  result : ok → Q (action s).1 (action s).2.1

variable {α β : Type} {s : SemanticAnalyzer} {ok : Prop}

theorem judges_pure {a : α} {Q : α → SemanticAnalyzer → Prop} (hok : ok) (hQ : Q a s) :
    Judges (pure a) s ok Q :=
  ⟨⟨fun _ => hok, fun _ => rfl⟩, fun _ => hQ⟩

/-! `ok` speaks of the whole action; the first part decides a consequence of it. -/

theorem Judges.bind {action : AnalyzerM α} {next : α → AnalyzerM β} {first : Prop}
    {Q : α → SemanticAnalyzer → Prop} {R : β → SemanticAnalyzer → Prop}
    (h : Judges action s first Q) (hsplit : ok → first)
    (hnext : first → ∀ a s', Q a s' → Judges (next a) s' ok R) :
    Judges (action >>= next) s ok R := by
  have hcount : ((action >>= next) s).2.2.errorCount =
      (action s).2.2.errorCount +
        (next (action s).1 (action s).2.1).2.2.errorCount :=
    Diagnostics.errorCount_append _ _
  constructor
  · rw [hcount, Nat.add_eq_zero_iff]
    constructor
    · rintro ⟨hfirst, hsecond⟩
      have hok := h.exact.mp hfirst
      exact (hnext hok _ _ (h.result hok)).exact.mp hsecond
    · intro hok
      have hfirst := hsplit hok
      exact ⟨h.exact.mpr hfirst, (hnext hfirst _ _ (h.result hfirst)).exact.mpr hok⟩
  · intro hok
    have hfirst := hsplit hok
    exact (hnext hfirst _ _ (h.result hfirst)).result hok

theorem Judges.congr {action : AnalyzerM α} {ok' : Prop}
    {Q : α → SemanticAnalyzer → Prop} (h : Judges action s ok Q) (hiff : ok ↔ ok') :
    Judges action s ok' Q :=
  ⟨h.exact.trans hiff, fun hok => h.result (hiff.mpr hok)⟩

theorem Judges.mono {action : AnalyzerM α} {Q R : α → SemanticAnalyzer → Prop}
    (h : Judges action s ok Q) (hQR : ok → ∀ a s', Q a s' → R a s') :
    Judges action s ok R :=
  ⟨h.exact, fun hok => hQR hok _ _ (h.result hok)⟩

theorem judges_error_then {next : Unit → AnalyzerM β} {loc : SourceLocation}
    {message : String} {R : β → SemanticAnalyzer → Prop} (hok : ¬ ok) :
    Judges (error loc message >>= next) s ok R := by
  have hcount : ((error loc message >>= next) s).2.2.errorCount =
      1 + (next () s).2.2.errorCount := Diagnostics.errorCount_append _ _
  refine ⟨⟨fun h => ?_, fun h => absurd h hok⟩, fun h => absurd h hok⟩
  rw [hcount] at h
  omega

theorem judges_error {loc : SourceLocation} {message : String}
    {R : Unit → SemanticAnalyzer → Prop} (hok : ¬ ok) :
    Judges (error loc message) s ok R := by
  refine ⟨⟨fun h => ?_, fun h => absurd h hok⟩, fun h => absurd h hok⟩
  cases h

theorem judges_warning (loc : SourceLocation) (message : String) :
    Judges (warning loc message) s True (fun _ s' => s' = s) :=
  ⟨⟨fun _ => trivial, fun _ => rfl⟩, fun _ => rfl⟩

theorem judges_errorIf {c : Prop} [Decidable c] {loc : SourceLocation}
    {message : String} :
    Judges (errorIf c loc message) s (¬ c) (fun _ s' => s' = s) := by
  unfold errorIf
  by_cases hc : c
  · rw [if_pos hc]
    exact judges_error (not_not.mpr hc)
  · rw [if_neg hc]
    exact judges_pure hc rfl

theorem judges_warnIf {c : Prop} [Decidable c] {loc : SourceLocation}
    {message : String} :
    Judges (warnIf c loc message) s True (fun _ s' => s' = s) := by
  unfold warnIf
  by_cases hc : c
  · rw [if_pos hc]
    exact judges_warning loc message
  · rw [if_neg hc]
    exact judges_pure trivial rfl

theorem judges_lookup (name : String) :
    Judges (lookup name) s True
      (fun found s' => found = s.table.lookup name ∧ s' = s) :=
  ⟨⟨fun _ => trivial, fun _ => rfl⟩, fun _ => ⟨rfl, rfl⟩⟩

theorem judges_requireInt (e : Expr) (context : String) :
    Judges (requireInt e context) s (e.type = .int) (fun _ s' => s' = s) := by
  unfold requireInt
  by_cases hint : e.type = .int
  · rw [if_pos hint]
    exact judges_pure hint rfl
  · rw [if_neg hint]
    split
    · exact judges_error hint
    · exact judges_error hint

/-! The context that a table stands for. -/

def entity (symbol : Symbol) : Entity :=
  if symbol.isFunction then .function symbol.returnType symbol.paramTypes
  else if symbol.type = .intArray then .array else .scalar

def binding (symbol : Symbol) : String × Entity := (symbol.name, entity symbol)

def context (scopes : List Scope) : Context :=
  scopes.map (fun scope => scope.symbols.map binding)

theorem bindings_find (symbols : List Symbol) (name : String) :
    Bindings.find (symbols.map binding) name =
      (symbols.find? (fun symbol => symbol.name = name)).map entity := by
  induction symbols with
  | nil => rfl
  | cons symbol symbols ih =>
      unfold Bindings.find at ih ⊢
      by_cases hname : symbol.name = name
      · simp [List.find?, binding, hname]
      · simpa [List.find?, binding, hname] using ih

theorem context_lookup (scopes : List Scope) (name : String) :
    (context scopes).lookup name = (SymbolTable.lookupIn scopes name).map entity := by
  induction scopes with
  | nil => rfl
  | cons scope scopes ih =>
      have hfind : Bindings.find (scope.symbols.map binding) name =
          (scope.find name).map entity := bindings_find _ _
      unfold Context.lookup context SymbolTable.lookupIn at ih ⊢
      rw [List.map_cons, List.findSome?_cons, List.findSome?_cons, hfind]
      cases scope.find name with
      | none => exact ih
      | some symbol => rfl

theorem lookupIn_some {scopes : List Scope} {name : String} {symbol : Symbol}
    (h : SymbolTable.lookupIn scopes name = some symbol) :
    (∃ scope ∈ scopes, symbol ∈ scope.symbols) ∧ symbol.name = name := by
  obtain ⟨scope, hscope, hfind⟩ := List.exists_of_findSome?_eq_some h
  have hname := List.find?_some hfind
  exact ⟨⟨scope, hscope, List.mem_of_find?_eq_some hfind⟩, by simpa using hname⟩

/-! A type of a given expression is unique. -/

theorem hasType_unique {Γ : Context} {e : Expr} {type : CType} (h : HasType Γ e type) :
    ∀ type', HasType Γ e type' → type = type' := by
  intro type' h'
  cases h with
  | call hlookup _ =>
      cases h' with
      | call hlookup' _ =>
          rw [hlookup] at hlookup'
          cases hlookup'
          rfl
  | scalar hlookup =>
      cases h' with
      | scalar => rfl
      | array hlookup' => rw [hlookup] at hlookup'; cases hlookup'
  | array hlookup =>
      cases h' with
      | array => rfl
      | scalar hlookup' => rw [hlookup] at hlookup'; cases hlookup'
  | num | element | assign | assignElement | binary => cases h'; rfl

theorem type_eq_int_iff {Γ : Context} {e : Expr} {type : CType}
    (h : HasType Γ e type) : type = .int ↔ HasType Γ e .int :=
  ⟨fun heq => heq ▸ h, fun hint => hasType_unique h _ hint⟩

end SemanticAnalyzer

end CMinus
