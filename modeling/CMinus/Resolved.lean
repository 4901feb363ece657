import Mathlib.Data.List.Nodup
import Mathlib.Data.List.Range
import CMinus.AST

namespace CMinus

/-! What the generators rely on: every use of a name in an annotated tree carries a
symbol out of `V`, of the right sort, and every type is where it has to be. -/

def VarHead.Resolved (V : List Symbol) (head : VarHead) (symbol : Symbol) : Prop :=
  head.symbol = some symbol ∧ symbol ∈ V ∧ symbol.isFunction = false ∧
    symbol.name = head.name

mutual

def Expr.Resolved (V : List Symbol) : Expr → Prop
  | .num info _ => info.type = .int
  | .var head none =>
      ∃ symbol, head.Resolved V symbol ∧ head.info.type = symbol.type
  | .var head (some index) =>
      (∃ symbol, head.Resolved V symbol ∧ symbol.type = .intArray) ∧
        head.info.type = .int ∧ index.Resolved V ∧ index.type = .int
  | .call info callee args symbol =>
      (∃ f ∈ V, symbol = some f ∧ f.isFunction = true ∧ f.name = callee ∧
        info.type = f.returnType ∧ args.map Expr.type = f.paramTypes) ∧
        ResolvedArgs V args
  | .assign info _ target none value =>
      (∃ symbol, target.Resolved V symbol ∧ symbol.type = .int) ∧
        target.info.type = .int ∧ info.type = .int ∧ value.Resolved V ∧
        value.type = .int
  | .assign info _ target (some index) value =>
      (∃ symbol, target.Resolved V symbol ∧ symbol.type = .intArray) ∧
        target.info.type = .int ∧ info.type = .int ∧
        (index.Resolved V ∧ index.type = .int) ∧ value.Resolved V ∧ value.type = .int
  | .binary info _ _ lhs rhs =>
      info.type = .int ∧ (lhs.Resolved V ∧ lhs.type = .int) ∧ rhs.Resolved V ∧
        rhs.type = .int

def ResolvedArgs (V : List Symbol) : List Expr → Prop
  | [] => True
  | arg :: args => arg.Resolved V ∧ ResolvedArgs V args

end

mutual

def Stmt.Resolved (V : List Symbol) (returnType : CType) : Stmt → Prop
  | .compound _ _ stmts => ResolvedStmts V returnType stmts
  | .expr _ none => True
  | .expr _ (some e) => e.Resolved V
  | .ifs _ cond thenStmt none =>
      (cond.Resolved V ∧ cond.type = .int) ∧ thenStmt.Resolved V returnType
  | .ifs _ cond thenStmt (some elseStmt) =>
      (cond.Resolved V ∧ cond.type = .int) ∧ thenStmt.Resolved V returnType ∧
        elseStmt.Resolved V returnType
  | .whiles _ cond body =>
      (cond.Resolved V ∧ cond.type = .int) ∧ body.Resolved V returnType
  | .ret _ none => returnType = .void
  | .ret _ (some e) => returnType ≠ .void ∧ e.Resolved V ∧ e.type = .int

def ResolvedStmts (V : List Symbol) (returnType : CType) : List Stmt → Prop
  | [] => True
  | stmt :: stmts =>
      stmt.Resolved V returnType ∧ ResolvedStmts V returnType stmts

end

/-! More symbols do no harm. -/

theorem VarHead.Resolved.mono {V W : List Symbol} (hVW : V ⊆ W) {head : VarHead}
    {symbol : Symbol} (h : head.Resolved V symbol) : head.Resolved W symbol :=
  ⟨h.1, hVW h.2.1, h.2.2⟩

mutual

theorem Expr.Resolved.mono {V W : List Symbol} (hVW : V ⊆ W) :
    ∀ {e : Expr}, e.Resolved V → e.Resolved W
  | .num _ _, h => h
  | .var _ none, ⟨symbol, hsymbol, htype⟩ => ⟨symbol, hsymbol.mono hVW, htype⟩
  | .var _ (some _), ⟨⟨symbol, hsymbol, harray⟩, htype, hindex, hint⟩ =>
      ⟨⟨symbol, hsymbol.mono hVW, harray⟩, htype, hindex.mono hVW, hint⟩
  | .call _ _ _ _, ⟨⟨f, hmem, hrest⟩, hargs⟩ =>
      ⟨⟨f, hVW hmem, hrest⟩, ResolvedArgs.mono hVW hargs⟩
  | .assign _ _ _ none _, ⟨⟨symbol, hsymbol, hscalar⟩, htarget, hinfo, hvalue, hint⟩ =>
      ⟨⟨symbol, hsymbol.mono hVW, hscalar⟩, htarget, hinfo, hvalue.mono hVW, hint⟩
  | .assign _ _ _ (some _) _,
      ⟨⟨symbol, hsymbol, harray⟩, htarget, hinfo, ⟨hindex, hindexInt⟩, hvalue, hint⟩ =>
      ⟨⟨symbol, hsymbol.mono hVW, harray⟩, htarget, hinfo,
        ⟨hindex.mono hVW, hindexInt⟩, hvalue.mono hVW, hint⟩
  | .binary _ _ _ _ _, ⟨hinfo, ⟨hlhs, hlint⟩, hrhs, hrint⟩ =>
      ⟨hinfo, ⟨hlhs.mono hVW, hlint⟩, hrhs.mono hVW, hrint⟩

theorem ResolvedArgs.mono {V W : List Symbol} (hVW : V ⊆ W) :
    ∀ {args : List Expr}, ResolvedArgs V args → ResolvedArgs W args
  | [], _ => trivial
  | _ :: _, ⟨harg, hargs⟩ => ⟨harg.mono hVW, ResolvedArgs.mono hVW hargs⟩

end

mutual

theorem Stmt.Resolved.mono {V W : List Symbol} (hVW : V ⊆ W) {returnType : CType} :
    ∀ {stmt : Stmt}, stmt.Resolved V returnType → stmt.Resolved W returnType
  | .compound _ _ _, h => ResolvedStmts.mono hVW h
  | .expr _ none, _ => trivial
  | .expr _ (some _), h => Expr.Resolved.mono hVW h
  | .ifs _ _ _ none, ⟨⟨hcond, hint⟩, hthen⟩ => ⟨⟨hcond.mono hVW, hint⟩, hthen.mono hVW⟩
  | .ifs _ _ _ (some _), ⟨⟨hcond, hint⟩, hthen, helse⟩ =>
      ⟨⟨hcond.mono hVW, hint⟩, hthen.mono hVW, helse.mono hVW⟩
  | .whiles _ _ _, ⟨⟨hcond, hint⟩, hbody⟩ =>
      ⟨⟨hcond.mono hVW, hint⟩, hbody.mono hVW⟩
  | .ret _ none, h => h
  | .ret _ (some _), ⟨hvoid, hvalue, hint⟩ => ⟨hvoid, hvalue.mono hVW, hint⟩

theorem ResolvedStmts.mono {V W : List Symbol} (hVW : V ⊆ W) {returnType : CType} :
    ∀ {stmts : List Stmt}, ResolvedStmts V returnType stmts →
      ResolvedStmts W returnType stmts
  | [], _ => trivial
  | _ :: _, ⟨hstmt, hstmts⟩ => ⟨hstmt.mono hVW, ResolvedStmts.mono hVW hstmts⟩

end

/-! The declarations of a statement, in source order. -/

mutual

def Stmt.locals : Stmt → List VarDecl
  | .compound _ localDecls stmts => localDecls ++ localsOf stmts
  | .expr _ _ => []
  | .ifs _ _ thenStmt none => thenStmt.locals
  | .ifs _ _ thenStmt (some elseStmt) => thenStmt.locals ++ elseStmt.locals
  | .whiles _ _ body => body.locals
  | .ret _ _ => []

def localsOf : List Stmt → List VarDecl
  | [] => []
  | stmt :: stmts => stmt.locals ++ localsOf stmts

end

def FunDecl.locals (decl : FunDecl) : List VarDecl := decl.body.toStmt.locals

def variableType (isArray : Bool) : CType :=
  if isArray then .intArray else .int

/-! Each declaration carries the symbol it made. -/

structure VarDecl.Declares (decl : VarDecl) (symbol : Symbol) : Prop where
  carries : decl.symbol = some symbol
  kind : symbol.kind = .variable
  name : symbol.name = decl.name
  type : symbol.type = variableType decl.isArray
  size : symbol.arraySize = if decl.isArray then decl.arraySize else 0

structure ParamDecl.Declares (param : ParamDecl) (symbol : Symbol) : Prop where
  carries : param.symbol = some symbol
  kind : symbol.kind = .parameter
  name : symbol.name = param.name
  type : symbol.type = variableType param.isArray

structure FunDecl.Declares (decl : FunDecl) (symbol : Symbol) : Prop where
  carries : decl.symbol = some symbol
  kind : symbol.kind = .function
  name : symbol.name = decl.name
  returnType : symbol.returnType = decl.returnType
  paramTypes : symbol.paramTypes = decl.params.map fun param => variableType param.isArray
  isBuiltin : symbol.isBuiltin = false

structure FunDecl.Resolved (globals : List Symbol) (decl : FunDecl) (symbol : Symbol)
    (params locals : List Symbol) : Prop where
  declares : decl.Declares symbol
  eachParam : List.Forall₂ ParamDecl.Declares decl.params params
  eachLocal : List.Forall₂ VarDecl.Declares decl.locals locals
  body : ResolvedStmts (globals ++ [symbol] ++ params ++ locals) decl.returnType
    decl.body.stmts

/-! The symbols of the two built-in functions, and the declarations of a program
after the symbols of the global scope and all symbols stored so far. -/

def builtinSymbols : List Symbol :=
  [{ id := 0, kind := .function, name := "input", type := .int, returnType := .int,
     isBuiltin := true },
   { id := 1, kind := .function, name := "output", type := .void, returnType := .void,
     paramTypes := [.int], isBuiltin := true }]

def Numbered (storage : List Symbol) : Prop :=
  storage.map Symbol.id = List.range storage.length

def ResolvedDecls (globals storage : List Symbol) : List Decl → Prop
  | [] => Numbered storage
  | .var decl :: decls =>
      ∃ symbol, decl.Declares symbol ∧ symbol.name ∉ globals.map Symbol.name ∧
        ResolvedDecls (globals ++ [symbol]) (storage ++ [symbol]) decls
  | .fun decl :: decls =>
      ∃ symbol params locals, decl.Resolved globals symbol params locals ∧
        symbol.name ∉ globals.map Symbol.name ∧
        ResolvedDecls (globals ++ [symbol])
          (storage ++ symbol :: params ++ locals) decls

def MainLast (program : Program) : Prop :=
  ∃ decl : FunDecl, program.decls.getLast? = some (.fun decl) ∧ decl.name = "main" ∧
    decl.returnType = .void ∧ decl.params = []

structure Program.Resolved (program : Program) : Prop where
  decls : ResolvedDecls builtinSymbols builtinSymbols program.decls
  main : MainLast program

theorem Numbered.of_append {s t : List Symbol} (h : Numbered (s ++ t)) : Numbered s := by
  unfold Numbered at h ⊢
  have htake := congrArg (List.take s.length) h
  simpa [List.take_range] using htake

theorem Numbered.snoc {s : List Symbol} {symbol : Symbol} (h : Numbered s)
    (hid : symbol.id = s.length) : Numbered (s ++ [symbol]) := by
  unfold Numbered at h ⊢
  simp [h, hid, List.range_succ]

theorem Numbered.nodup {s : List Symbol} (h : Numbered s) : (s.map Symbol.id).Nodup := by
  rw [h]
  exact List.nodup_range

theorem ResolvedDecls.numbered {decls : List Decl} {globals storage : List Symbol}
    (h : ResolvedDecls globals storage decls) : Numbered storage := by
  induction decls generalizing globals storage with
  | nil => exact h
  | cons decl decls ih =>
      cases decl with
      | var decl =>
          obtain ⟨symbol, -, -, hrest⟩ := h
          exact (ih hrest).of_append
      | «fun» decl =>
          obtain ⟨symbol, params, locals, -, -, hrest⟩ := h
          have hnumbered := ih hrest
          rw [List.append_assoc] at hnumbered
          exact hnumbered.of_append

/-! The symbols of the global scope. -/

def Decl.symbol : Decl → Option Symbol
  | .var decl => decl.symbol
  | .fun decl => decl.symbol

def Program.symbols (program : Program) : List Symbol :=
  builtinSymbols ++ program.decls.filterMap Decl.symbol

/-- The symbol of a declaration, and the rest of what a resolved one says. -/
def Decl.Declares (decl : Decl) (symbol : Symbol) : Prop :=
  match decl with
  | .var decl => decl.Declares symbol
  | .fun decl => decl.Declares symbol

theorem Decl.Declares.carries {decl : Decl} {symbol : Symbol} (h : decl.Declares symbol) :
    decl.symbol = some symbol := by
  cases decl with
  | var decl => exact VarDecl.Declares.carries h
  | «fun» decl => exact FunDecl.Declares.carries h

theorem Decl.Declares.name {decl : Decl} {symbol : Symbol} (h : decl.Declares symbol) :
    symbol.name = decl.name := by
  cases decl with
  | var decl => exact VarDecl.Declares.name h
  | «fun» decl => exact FunDecl.Declares.name h

theorem ResolvedDecls.head {decl : Decl} {decls : List Decl} {globals storage : List Symbol}
    (h : ResolvedDecls globals storage (decl :: decls)) :
    ∃ symbol slots, decl.Declares symbol ∧ symbol.name ∉ globals.map Symbol.name ∧
      ResolvedDecls (globals ++ [symbol]) (storage ++ symbol :: slots) decls := by
  cases decl with
  | var decl =>
      obtain ⟨symbol, hdeclares, hname, hrest⟩ := h
      exact ⟨symbol, [], hdeclares, hname, hrest⟩
  | «fun» decl =>
      obtain ⟨symbol, params, locals, hresolved, hname, hrest⟩ := h
      refine ⟨symbol, params ++ locals, hresolved.declares, hname, ?_⟩
      rwa [List.append_assoc, List.cons_append] at hrest

theorem ResolvedDecls.scope {decls : List Decl} {globals storage : List Symbol}
    (h : ResolvedDecls globals storage decls) (hsub : globals.Sublist storage)
    (hnames : (globals.map Symbol.name).Nodup) :
    ((globals ++ decls.filterMap Decl.symbol).map Symbol.name).Nodup ∧
      ((globals ++ decls.filterMap Decl.symbol).map Symbol.id).Nodup := by
  induction decls generalizing globals storage with
  | nil =>
      rw [List.filterMap_nil, List.append_nil]
      exact ⟨hnames, (Numbered.nodup h).sublist (hsub.map _)⟩
  | cons decl decls ih =>
      obtain ⟨symbol, slots, hdeclares, hname, hrest⟩ := h.head
      have hsub' : (globals ++ [symbol]).Sublist (storage ++ symbol :: slots) :=
        hsub.append (List.Sublist.cons_cons symbol (List.nil_sublist slots))
      have hnames' : ((globals ++ [symbol]).map Symbol.name).Nodup := by
        rw [List.map_append, List.nodup_append]
        refine ⟨hnames, by simp, ?_⟩
        rintro _ hmem _ hsame rfl
        rw [List.map_singleton, List.mem_singleton] at hsame
        exact hname (hsame ▸ hmem)
      have hscope := ih hrest hsub' hnames'
      rwa [List.append_assoc, List.singleton_append,
        ← List.filterMap_cons_some hdeclares.carries] at hscope

theorem ResolvedDecls.names {decls : List Decl} {globals storage : List Symbol}
    (h : ResolvedDecls globals storage decls) :
    (decls.filterMap Decl.symbol).map Symbol.name = decls.map Decl.name := by
  induction decls generalizing globals storage with
  | nil => rfl
  | cons decl decls ih =>
      obtain ⟨symbol, slots, hdeclares, -, hrest⟩ := h.head
      rw [List.filterMap_cons_some hdeclares.carries, List.map_cons, List.map_cons, ih hrest,
        hdeclares.name]

theorem Program.Resolved.distinct {program : Program} (h : program.Resolved) :
    (program.decls.map Decl.name).Nodup := by
  obtain ⟨hnames, -⟩ := h.decls.scope (List.Sublist.refl _) (by decide)
  rw [List.map_append, h.decls.names] at hnames
  exact (List.nodup_append.mp hnames).2.1

theorem ResolvedDecls.declared {decls : List Decl} {globals storage : List Symbol}
    (h : ResolvedDecls globals storage decls) :
    ∀ symbol ∈ decls.filterMap Decl.symbol, ∃ decl ∈ decls, decl.Declares symbol := by
  induction decls generalizing globals storage with
  | nil =>
      intro symbol hmem
      cases hmem
  | cons decl decls ih =>
      obtain ⟨symbol, slots, hdeclares, -, hrest⟩ := h.head
      intro other hmem
      rw [List.filterMap_cons_some hdeclares.carries] at hmem
      rcases List.mem_cons.mp hmem with rfl | hmem
      · exact ⟨decl, List.mem_cons_self, hdeclares⟩
      · obtain ⟨decl', hdecl', hother⟩ := ih hrest other hmem
        exact ⟨decl', List.mem_cons_of_mem _ hdecl', hother⟩

end CMinus
