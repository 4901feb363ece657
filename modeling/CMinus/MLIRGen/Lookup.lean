import CMinus.MLIRGen.Keeps
import CMinus.IRGen.Verified

namespace CMinus

namespace MLIRGenerator

open SSA MLIR

/-! What a lookup finds while a body is emitted: the module lists `body` and the variables
have the slots `slots` from its first statement to its last. -/

def Finds (V : List Symbol) (body : List Definition) (site : CallSite) : Prop :=
  ∃ f ∈ V, site.symbol = some f ∧ f.isFunction = true ∧ f.name = site.callee ∧
    site.argTypes = f.paramTypes ∧ site.found = lookupFunc body site.callee

def Yields (V : List Symbol) (slots : List (Nat × TypedValue)) (use : VarUse) : Prop :=
  use.symbol ∈ V ∧ use.symbol.isFunction = false ∧
    ((slots.lookup use.symbol.id = some use.storage ∧ use.global = none) ∨
      (slots.lookup use.symbol.id = none ∧ use.storage.type = storageType use.symbol ∧
        use.global = some ⟨use.symbol.name, storageType use.symbol⟩))

/-- The op that a use of a global stands for. -/
def Fetched (code : Nat → List Op) (use : VarUse) : Prop :=
  ∀ global, use.global = some global → ∃ r b, use.storage.operand = .reg r ∧
    .getGlobal r global.ty global.name ∈ code b

theorem Fetched.mono {code code' : Nat → List Op} {use : VarUse} (h : Fetched code use)
    (hsub : ∀ b, code b ⊆ code' b) : Fetched code' use := by
  intro global hglobal
  obtain ⟨r, b, hreg, hmem⟩ := h global hglobal
  exact ⟨r, b, hreg, hsub b hmem⟩

structure Records {α : Type} (V : List Symbol) (action : MLIRGenM α) : Prop where
  body : ∀ g, (action g).2.body = g.body
  slots : ∀ g, (action g).2.slots = g.slots
  ops : ∀ g b, g.builder.code b ⊆ (action g).2.builder.code b
  calls : ∀ g, ∃ new, (action g).2.calls = g.calls ++ new ∧ ∀ site ∈ new, Finds V g.body site
  uses : ∀ g, ∃ new, (action g).2.uses = g.uses ++ new ∧
    ∀ use ∈ new, Yields V g.slots use ∧ Fetched (action g).2.builder.code use

variable {α β : Type} {flavor : MLIRFlavor} {V : List Symbol}

theorem Quiet.records {action : MLIRGenM α} (h : Quiet action) : Records V action := by
  constructor
  · exact h.body
  · exact h.slots
  · exact h.ops
  · intro g
    exact ⟨[], by rw [h.calls, List.append_nil], fun site hsite => by cases hsite⟩
  · intro g
    exact ⟨[], by rw [h.uses, List.append_nil], fun use huse => by cases huse⟩

theorem Records.bind {first : MLIRGenM α} {next : α → MLIRGenM β} (hfirst : Records V first)
    (hnext : ∀ a, Records V (next a)) : Records V (first >>= next) := by
  constructor
  · intro g
    exact ((hnext (first g).1).body (first g).2).trans (hfirst.body g)
  · intro g
    exact ((hnext (first g).1).slots (first g).2).trans (hfirst.slots g)
  · intro g b
    exact List.Subset.trans (hfirst.ops g b) ((hnext (first g).1).ops (first g).2 b)
  · intro g
    obtain ⟨before, hbefore, hleft⟩ := hfirst.calls g
    obtain ⟨after, hafter, hright⟩ := (hnext (first g).1).calls (first g).2
    rw [hfirst.body] at hright
    refine ⟨before ++ after, ?_, ?_⟩
    · rw [← List.append_assoc, ← hbefore]
      exact hafter
    · intro site hsite
      exact (List.mem_append.mp hsite).elim (hleft site) (hright site)
  · intro g
    obtain ⟨before, hbefore, hleft⟩ := hfirst.uses g
    obtain ⟨after, hafter, hright⟩ := (hnext (first g).1).uses (first g).2
    rw [hfirst.slots] at hright
    refine ⟨before ++ after, ?_, ?_⟩
    · rw [← List.append_assoc, ← hbefore]
      exact hafter
    · intro use huse
      rcases List.mem_append.mp huse with huse | huse
      · obtain ⟨hyields, hfetched⟩ := hleft use huse
        exact ⟨hyields, hfetched.mono ((hnext (first g).1).ops (first g).2)⟩
      · exact hright use huse

theorem records_ignores : Ignores (Records V) := by
  constructor
  · exact Records.bind
  · exact Quiet.records

theorem records_pure (a : α) : Records V (pure a : MLIRGenM α) := records_ignores.pure a

theorem Records.before {first : MLIRGenM α} {next : MLIRGenM β} (hfirst : Records V first)
    (hnext : Records V next) : Records V (first >>= fun _ => next) :=
  hfirst.bind fun _ => hnext

theorem records_define (ty : Ty) (op : Nat → Op) : Records V (define ty op) :=
  (quiet_define ty op).records

theorem records_int32 (value : Int) : Records V (int32 value) := (quiet_int32 value).records

/-! The two lookups. -/

theorem storageOf_slot {g : MLIRGenerator} {symbol : Symbol} {slot : TypedValue}
    (h : g.slots.lookup symbol.id = some slot) :
    storageOf symbol g = (slot, { g with uses := g.uses ++ [⟨symbol, slot, none⟩] }) := by
  simp only [storageOf, bind, slotOf, h]
  rfl

theorem storageOf_global {g : MLIRGenerator} {symbol : Symbol}
    (h : g.slots.lookup symbol.id = none) :
    storageOf symbol g =
      (⟨.reg g.builder.nextReg, storageType symbol, none⟩,
        { g with builder := g.builder.define fun r => .getGlobal r (storageType symbol) symbol.name
                 uses := g.uses ++ [⟨symbol, ⟨.reg g.builder.nextReg, storageType symbol, none⟩,
                   some ⟨symbol.name, storageType symbol⟩⟩] }) := by
  simp only [storageOf, bind, slotOf, h]
  rfl

theorem records_storageOf {symbol : Symbol} (hmem : symbol ∈ V)
    (hvar : symbol.isFunction = false) : Records V (storageOf symbol) := by
  constructor <;> intro g <;> cases hslot : g.slots.lookup symbol.id
  · rw [storageOf_global hslot]
  · rw [storageOf_slot hslot]
  · rw [storageOf_global hslot]
  · rw [storageOf_slot hslot]
  · rw [storageOf_global hslot]
    exact g.builder.code_append_subset _
  · rw [storageOf_slot hslot]
    exact fun _ => List.Subset.refl _
  · rw [storageOf_global hslot]
    exact ⟨[], (List.append_nil _).symm, fun site hsite => by cases hsite⟩
  · rw [storageOf_slot hslot]
    exact ⟨[], (List.append_nil _).symm, fun site hsite => by cases hsite⟩
  · rw [storageOf_global hslot]
    refine ⟨[_], rfl, ?_⟩
    intro use huse
    rw [List.mem_singleton.mp huse]
    refine ⟨⟨hmem, hvar, .inr ⟨hslot, rfl, rfl⟩⟩, ?_⟩
    intro global hglobal
    cases hglobal
    refine ⟨g.builder.nextReg, g.builder.cur, rfl, ?_⟩
    rw [SSA.Builder.define_code, SSA.Builder.append_code_cur]
    exact List.mem_append_right _ (List.mem_singleton_self _)
  · rw [storageOf_slot hslot]
    refine ⟨[_], rfl, ?_⟩
    intro use huse
    rw [List.mem_singleton.mp huse]
    refine ⟨⟨hmem, hvar, .inl ⟨hslot, rfl⟩⟩, ?_⟩
    intro global hglobal
    cases hglobal

/-- The lookup for a call, and what follows it. -/
theorem records_lookup {callee : String} {f : Symbol} {argTypes : List CType}
    {next : Option FuncOp → MLIRGenM β} (hmem : f ∈ V) (hfun : f.isFunction = true)
    (hname : f.name = callee) (htypes : argTypes = f.paramTypes)
    (hnext : ∀ found, Records V (next found)) : Records V (do
      let found ← lookupSymbol callee
      recordCall ⟨callee, some f, argTypes, found⟩
      next found) := by
  have hrecord : Records V (do
      let found ← lookupSymbol callee
      recordCall ⟨callee, some f, argTypes, found⟩
      return found) := by
    constructor <;> intro g
    · rfl
    · rfl
    · exact fun _ => List.Subset.refl _
    · refine ⟨[_], rfl, ?_⟩
      intro site hsite
      rw [List.mem_singleton.mp hsite]
      exact ⟨f, hmem, rfl, hfun, hname, htypes, rfl⟩
    · exact ⟨[], (List.append_nil _).symm, fun use huse => by cases huse⟩
  exact hrecord.bind hnext

/-- The arguments come after the lookup, in a module that lists the same. -/
theorem records_emitCall {loc : SourceLocation} {callee : String} {f : Symbol}
    {argTypes : List CType} {args : List Ty → MLIRGenM (List TypedValue)} (hmem : f ∈ V)
    (hfun : f.isFunction = true) (hname : f.name = callee) (htypes : argTypes = f.paramTypes)
    (hargs : ∀ paramTypes, Records V (args paramTypes)) :
    Records V (emitCall loc callee (some f) argTypes args) := by
  unfold emitCall
  apply records_lookup hmem hfun hname htypes
  intro found
  cases found with
  | none => exact (quiet_error _ _).records.before (records_int32 0)
  | some op =>
      apply (hargs op.inputs).bind
      intro values
      unfold createCall
      dsimp only
      split
      · exact (quiet_emit _).records.before (records_pure _)
      · exact records_define _ _

theorem records_emitArray {paramType : Ty} {symbol : Symbol} (hmem : symbol ∈ V)
    (hvar : symbol.isFunction = false) : Records V (emitArray paramType symbol) := by
  unfold emitArray
  apply (records_storageOf hmem hvar).bind
  intro array
  split
  · exact records_define _ _
  · exact records_pure array

theorem records_addressOf {options : MLIRGenOptions} {head : VarHead} {symbol : Symbol}
    {index : Option (MLIRGenM TypedValue)} (hhead : head.Resolved V symbol)
    (hindex : ∀ action, index = some action → Records V action) :
    Records V (addressOf flavor options head index) := by
  obtain ⟨hsymbol, hmem, hvar, -⟩ := hhead
  unfold addressOf
  rw [hsymbol]
  apply (records_storageOf hmem hvar).bind
  intro storage
  cases index with
  | none => exact records_pure _
  | some action =>
      apply (hindex action rfl).bind
      intro value
      apply (records_ignores.checkIndex options value).before
      exact (records_define _ _).bind fun _ => records_pure _

theorem records_emitVar {options : MLIRGenOptions} {head : VarHead} {symbol : Symbol}
    {index : Option (MLIRGenM TypedValue)} (hhead : head.Resolved V symbol)
    (hindex : ∀ action, index = some action → Records V action) :
    Records V (emitVar flavor options head index) := by
  unfold emitVar
  apply (records_addressOf hhead hindex).bind
  intro place
  cases place with
  | none => exact records_int32 0
  | some place => exact records_define _ _

theorem records_emitAssign {options : MLIRGenOptions} {target : VarHead} {symbol : Symbol}
    {index : Option (MLIRGenM TypedValue)} {value : MLIRGenM TypedValue}
    (htarget : target.Resolved V symbol)
    (hindex : ∀ action, index = some action → Records V action) (hvalue : Records V value) :
    Records V (emitAssign flavor options target index value) := by
  unfold emitAssign
  apply (records_addressOf htarget hindex).bind
  intro place
  cases place with
  | none => exact hvalue
  | some place =>
      apply hvalue.bind
      intro v
      exact (quiet_emit _).records.before (records_pure v)

theorem records_emitBinary (op : BinaryOp) {lhs rhs : MLIRGenM TypedValue}
    (hlhs : Records V lhs) (hrhs : Records V rhs) : Records V (emitBinary op lhs rhs) := by
  unfold emitBinary
  apply hlhs.bind
  intro a
  apply hrhs.bind
  intro b
  cases op with
  | add | sub | mul | div => exact records_define _ _
  | _ => exact (records_define _ _).bind fun _ => records_define _ _

/-- An array that is passed by reference is a variable like another. -/
theorem arrayArgument_resolved {paramType : Ty} {arg : Expr} {symbol : Symbol}
    (harg : arg.Resolved V) (h : arrayArgument paramType arg = some symbol) :
    symbol ∈ V ∧ symbol.isFunction = false := by
  cases arg with
  | var head index =>
      simp only [arrayArgument] at h
      split at h
      · cases index with
        | none =>
            obtain ⟨found, ⟨hsymbol, hmem, hvar, -⟩, -⟩ := harg
            cases hsymbol.symm.trans h
            exact ⟨hmem, hvar⟩
        | some index =>
            obtain ⟨⟨found, ⟨hsymbol, hmem, hvar, -⟩, -⟩, -⟩ := harg
            cases hsymbol.symm.trans h
            exact ⟨hmem, hvar⟩
      · cases h
  | num | call | assign | binary => cases h

mutual

theorem records_emitExpr (options : MLIRGenOptions) : ∀ {e : Expr}, e.Resolved V →
    Records V (emitExpr flavor options e)
  | .num _ value, _ => by
      unfold emitExpr
      exact records_int32 value
  | .var head none, ⟨_, hhead, _⟩ => by
      unfold emitExpr emitIndex
      apply records_emitVar hhead
      intro action h
      cases h
  | .var head (some index), ⟨⟨_, hhead, _⟩, _, hindex, _⟩ => by
      unfold emitExpr emitIndex
      apply records_emitVar hhead
      intro action h
      cases h
      exact records_emitExpr options hindex
  | .assign _ _ target none value, ⟨⟨_, htarget, _⟩, _, _, hvalue, _⟩ => by
      unfold emitExpr emitIndex
      apply records_emitAssign htarget _ (records_emitExpr options hvalue)
      intro action h
      cases h
  | .assign _ _ target (some index) value,
      ⟨⟨_, htarget, _⟩, _, _, ⟨hindex, _⟩, hvalue, _⟩ => by
      unfold emitExpr emitIndex
      apply records_emitAssign htarget _ (records_emitExpr options hvalue)
      intro action h
      cases h
      exact records_emitExpr options hindex
  | .binary _ op _ lhs rhs, ⟨_, ⟨hlhs, _⟩, hrhs, _⟩ => by
      unfold emitExpr
      exact records_emitBinary op (records_emitExpr options hlhs) (records_emitExpr options hrhs)
  | .call info callee args symbol, ⟨⟨f, hmem, hsymbol, hfun, hname, _, htypes⟩, hargs⟩ => by
      unfold emitExpr
      rw [hsymbol]
      exact records_emitCall hmem hfun hname htypes fun paramTypes =>
        records_emitArgs options paramTypes hargs

theorem records_emitArgs (options : MLIRGenOptions) : ∀ (paramTypes : List Ty)
    {args : List Expr}, ResolvedArgs V args → Records V (emitArgs flavor options paramTypes args)
  | _, [], _ => by
      unfold emitArgs
      exact records_pure _
  | paramTypes, arg :: args, ⟨harg, hargs⟩ => by
      have hothers : ∀ first : TypedValue, Records V
          (emitArgs flavor options paramTypes.tail args >>= fun others =>
            pure (first :: others)) :=
        fun first => (records_emitArgs options paramTypes.tail hargs).bind fun _ => records_pure _
      unfold emitArgs
      dsimp only
      split
      · obtain ⟨hmem, hvar⟩ := arrayArgument_resolved harg ‹_›
        exact (records_emitArray hmem hvar).bind hothers
      · exact (records_emitExpr options harg).bind hothers

end

theorem records_emitCondition (options : MLIRGenOptions) {cond : Expr} (h : cond.Resolved V) :
    Records V (emitCondition flavor options cond) := by
  unfold emitCondition
  apply (records_emitExpr options h).bind
  intro value
  exact (records_int32 0).bind fun zero => records_define _ _

mutual

theorem records_emitStmt (options : MLIRGenOptions) {returnType : CType} : ∀ {stmt : Stmt},
    stmt.Resolved V returnType → Records V (emitStmt flavor options stmt)
  | .compound _ _ stmts, h => by
      unfold emitStmt
      exact records_emitCompound options h
  | .expr _ none, _ => by
      unfold emitStmt
      exact records_pure ()
  | .expr _ (some e), h => by
      unfold emitStmt
      exact (records_emitExpr options h).bind fun _ => records_pure ()
  | .ifs _ cond thenStmt none, ⟨⟨hcond, _⟩, hthen⟩ => by
      unfold emitStmt
      apply records_ignores.emitIf (records_emitCondition options hcond)
        (records_emitStmt options hthen)
      intro action h
      cases h
  | .ifs _ cond thenStmt (some elseStmt), ⟨⟨hcond, _⟩, hthen, helse⟩ => by
      unfold emitStmt
      apply records_ignores.emitIf (records_emitCondition options hcond)
        (records_emitStmt options hthen)
      intro action h
      cases h
      exact records_emitStmt options helse
  | .whiles _ cond body, ⟨⟨hcond, _⟩, hbody⟩ => by
      unfold emitStmt
      exact records_ignores.emitWhile (records_emitCondition options hcond)
        (records_emitStmt options hbody)
  | .ret _ none, _ => by
      unfold emitStmt
      apply records_ignores.emitReturn
      intro action h
      cases h
  | .ret _ (some value), ⟨_, hvalue, _⟩ => by
      unfold emitStmt
      apply records_ignores.emitReturn
      intro action h
      cases h
      exact records_emitExpr options hvalue

theorem records_emitCompound (options : MLIRGenOptions) {returnType : CType} :
    ∀ {stmts : List Stmt}, ResolvedStmts V returnType stmts →
      Records V (emitCompound flavor options stmts)
  | [], _ => by
      unfold emitCompound
      exact records_pure ()
  | stmt :: stmts, ⟨hstmt, hstmts⟩ => by
      unfold emitCompound
      exact (records_emitStmt options hstmt).before
        (records_ignores.unlessClosed (records_emitCompound options hstmts))

end

end MLIRGenerator

end CMinus
