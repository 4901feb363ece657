import CMinus.IRGen.Realizes

namespace CMinus

namespace Meaning

open SSA

/-! A program that is well typed runs into the faults of its values only. -/

def State.Binds (s s' : State) : Prop :=
  ∀ v, (s.arrays v).isSome = true → (s'.arrays v).isSome = true

theorem State.Binds.refl (s : State) : s.Binds s := fun _ h => h

theorem State.Binds.trans {s s' s'' : State} (h : s.Binds s') (h' : s'.Binds s'') : s.Binds s'' :=
  fun v hv => h' v (h v hv)

/-- No fault of the program's form, and no array is lost. -/
def Sound {α : Type} (m : Eval α) (s : State) (Q : α → State → Prop) : Prop :=
  (m s).Safe (· ≠ .malformed) fun a s' => s.Binds s' ∧ Q a s'

section sound

variable {α β : Type} {m : Eval α} {s : State} {Q R : α → State → Prop}

theorem Sound.mono (h : Sound m s Q) (hQR : ∀ a s', s.Binds s' → Q a s' → R a s') :
    Sound m s R :=
  Outcome.Safe.mono h fun a s' h => ⟨h.1, hQR a s' h.1 h.2⟩

theorem Sound.bind {next : α → Eval β} {R : β → State → Prop} (h : Sound m s Q)
    (hnext : ∀ a s', s.Binds s' → Q a s' → Sound (next a) s' R) : Sound (m >>= next) s R := by
  have hfirst : (m s).Safe (· ≠ .malformed) fun a s' => s.Binds s' ∧ Q a s' := h
  apply hfirst.bind
  intro a s' ⟨hbinds, hQ⟩
  exact Outcome.Safe.mono (hnext a s' hbinds hQ) fun b s'' h => ⟨hbinds.trans h.1, h.2⟩

theorem sound_pure {a : α} (h : Q a s) : Sound (pure a) s Q := ⟨.refl s, h⟩

theorem sound_fault {f : Fault} (h : f ≠ .malformed) : Sound (fault f) s Q := h

theorem sound_read (v : Variable) (i : Int) : Sound (read v i) s fun _ _ => True := by
  unfold Sound read
  cases s.cells v i with
  | none => exact fun h => (by cases h)
  | some x => exact ⟨.refl s, trivial⟩

theorem sound_assign (v : Variable) (i : Int) (x : BitVec 32) :
    Sound (assign v i x) s fun _ _ => True :=
  ⟨.refl s, trivial⟩

/-- An array that is passed is bound to the parameter. -/
theorem sound_pass (v : Variable) (arg : Arg) :
    Sound (pass v arg) s fun _ s' => arg.type = .intArray → (s'.arrays v).isSome = true := by
  cases arg with
  | int x => exact ⟨.refl s, fun h => by cases h⟩
  | array array =>
      refine ⟨?_, fun _ => ?_⟩
      · intro w hw
        unfold State.refer
        dsimp only
        by_cases hsame : w = v
        · rw [hsame, Function.update_self]
          rfl
        · rw [Function.update_of_ne hsame]
          exact hw
      · unfold State.refer
        dsimp only
        rw [Function.update_self]
        rfl

theorem sound_bindParams {params : List ParamDecl} {symbols : List Symbol}
    (hdeclares : List.Forall₂ ParamDecl.Declares params symbols) (a : Activation) :
    ∀ (args : List Arg) (s : State), args.map Arg.type = symbols.map Symbol.type →
      Sound (bindParams a params args) s fun _ s' => ∀ symbol ∈ symbols,
        symbol.type = .intArray → (s'.arrays (a.variable symbol)).isSome = true := by
  induction hdeclares with
  | nil =>
      intro args s htypes
      obtain rfl := List.map_eq_nil_iff.mp htypes
      exact sound_pure fun symbol hsymbol => absurd hsymbol List.not_mem_nil
  | @cons param symbol params symbols hparam _ ih =>
      intro args s htypes
      cases args with
      | nil => cases htypes
      | cons arg args =>
          obtain ⟨htype, htypes⟩ := List.cons.inj htypes
          unfold bindParams
          rw [hparam.carries]
          refine (sound_pass (a.variable symbol) arg).bind ?_
          intro _ s' _ hbound
          refine (ih args s' htypes).mono ?_
          intro _ s'' hbinds hrest other hother harray
          rcases List.mem_cons.mp hother with rfl | hother
          · exact hbinds _ (hbound (htype.trans harray))
          · exact hrest other hother harray

end sound

end Meaning

namespace IRGenerator

open SSA IR Meaning

/-- The array parameters in sight stand for arrays. -/
def Known (c : Scene) (a : Activation) (s : State) : Prop :=
  ∀ symbol ∈ c.visible, symbol.type = .intArray → symbol.kind = .parameter →
    (s.arrays (a.variable symbol)).isSome = true

/-- What is asked of a call. -/
structure CallsSoundly (c : Scene) (call : Symbol → List Arg → Eval (BitVec 32)) : Prop where
  sound : ∀ f ∈ c.functions, ∀ args : List Arg, args.map Arg.type = f.paramTypes → ∀ s,
    Sound (call f args) s fun _ _ => True

section expr

variable {c : Scene} {a : Activation} {s : State} {symbol : Symbol}
  {call : Symbol → List Arg → Eval (BitVec 32)}

theorem Known.later (h : Known c a s) {s' : State} (hbinds : s.Binds s') : Known c a s' :=
  fun symbol hsymbol htype hkind => hbinds _ (h symbol hsymbol htype hkind)

theorem sound_arrayOf (h : Known c a s) (hvisible : symbol ∈ c.visible)
    (htype : symbol.type = .intArray) : Sound (arrayOf a symbol) s fun _ _ => True := by
  unfold arrayOf
  split
  · next hkind =>
      obtain ⟨array, harray⟩ := Option.isSome_iff_exists.mp (h symbol hvisible htype hkind)
      unfold Sound referent
      simp only [harray]
      exact ⟨.refl s, trivial⟩
  · exact sound_pure trivial

theorem sound_element (h : Known c a s) (hvisible : symbol ∈ c.visible)
    (htype : symbol.type = .intArray) (index : BitVec 32) :
    Sound (element a symbol index) s fun _ _ => True := by
  unfold element
  split
  · exact trivial
  · refine (sound_arrayOf h hvisible htype).bind ?_
    intro array s' _ _
    split
    · exact sound_pure trivial
    · exact sound_fault (by simp)

/-! A variable, or an element of an array. -/

theorem sound_scalar {head : VarHead} (hhead : head.Resolved c.visible symbol) :
    Sound (place a head none) s fun _ _ => True := by
  unfold place
  rw [hhead.1]
  exact sound_pure trivial

theorem sound_subscript (h : Known c a s) {head : VarHead}
    (hhead : head.Resolved c.visible symbol) (htype : symbol.type = .intArray)
    {index : Eval (BitVec 32)} (hindex : Sound index s fun _ _ => True) :
    Sound (place a head (some index)) s fun _ _ => True := by
  obtain ⟨hsymbol, hvisible, -⟩ := hhead
  unfold place
  rw [hsymbol]
  apply hindex.bind
  intro x s' hbinds _
  exact sound_element (h.later hbinds) hvisible htype x

theorem sound_store {target : Eval (Variable × Int)} {value : Eval (BitVec 32)}
    (h : Known c a s) (htarget : Sound target s fun _ _ => True)
    (hvalue : ∀ s', Known c a s' → Sound value s' fun _ _ => True) :
    Sound (target >>= fun place => value >>= fun x =>
      Meaning.assign place.1 place.2 x >>= fun _ => pure x) s fun _ _ => True := by
  apply htarget.bind
  intro place s' hbinds _
  apply (hvalue s' (h.later hbinds)).bind
  intro x s'' _ _
  exact (sound_assign place.1 place.2 x).bind fun _ _ _ _ => sound_pure trivial

theorem sound_operate (op : BinaryOp) (x y : BitVec 32) :
    Sound (operate op x y) s fun _ _ => True := by
  cases op with
  | div =>
      change Sound (if Arith.sdiv.Undefined x y then fault .division else pure (x.sdiv y)) s _
      split
      · exact sound_fault (by simp)
      · exact sound_pure trivial
  | _ => exact sound_pure trivial

mutual

theorem sound_evalExpr (hc : c.Proper) (hcall : CallsSoundly c call) :
    ∀ (e : Expr) (s : State), Known c a s → e.Resolved c.visible → e.type ≠ .intArray →
      Sound (evalExpr call a e) s fun _ _ => True
  | .num _ value, s, _, _, _ => by
      unfold evalExpr
      split
      · exact sound_pure trivial
      · exact sound_fault (by simp)
  | .var head none, s, h, he, htype => by
      obtain ⟨symbol, hhead, -⟩ := he
      change head.info.type ≠ .intArray at htype
      unfold evalExpr evalIndex
      rw [if_neg htype]
      exact (sound_scalar hhead).bind fun place _ _ _ => sound_read place.1 place.2
  | .var head (some index), s, h, he, htype => by
      obtain ⟨⟨symbol, hhead, harray⟩, -, hindex, hint⟩ := he
      change head.info.type ≠ .intArray at htype
      have hsubscript := sound_evalExpr hc hcall index s h hindex (by rw [hint]; simp)
      unfold evalExpr evalIndex
      rw [if_neg htype]
      exact (sound_subscript h hhead harray hsubscript).bind fun place _ _ _ =>
        sound_read place.1 place.2
  | .assign _ _ target none value, s, h, he, _ => by
      obtain ⟨⟨symbol, hhead, -⟩, -, -, hvalue, hint⟩ := he
      unfold evalExpr evalIndex
      apply sound_store h (sound_scalar hhead)
      intro s' hknown
      exact sound_evalExpr hc hcall value s' hknown hvalue (by rw [hint]; simp)
  | .assign _ _ target (some index) value, s, h, he, _ => by
      obtain ⟨⟨symbol, hhead, harray⟩, -, -, ⟨hindex, hindexInt⟩, hvalue, hint⟩ := he
      have hsubscript := sound_evalExpr hc hcall index s h hindex (by rw [hindexInt]; simp)
      unfold evalExpr evalIndex
      apply sound_store h (sound_subscript h hhead harray hsubscript)
      intro s' hknown
      exact sound_evalExpr hc hcall value s' hknown hvalue (by rw [hint]; simp)
  | .binary _ op _ lhs rhs, s, h, he, _ => by
      obtain ⟨-, ⟨hlhs, hlint⟩, hrhs, hrint⟩ := he
      unfold evalExpr
      refine (sound_evalExpr hc hcall lhs s h hlhs (by rw [hlint]; simp)).bind ?_
      intro x s' hbinds _
      refine (sound_evalExpr hc hcall rhs s' (h.later hbinds) hrhs (by rw [hrint]; simp)).bind ?_
      intro y s'' _ _
      exact sound_operate op x y
  | .call info callee args symbol, s, h, he, _ => by
      obtain ⟨⟨f, hmem, rfl, hfun, -, -, htypes⟩, hargs⟩ := he
      have hf := hc.visible f hmem hfun
      unfold evalExpr
      refine (sound_evalArgs hc hcall args f.paramTypes s h hargs htypes (hc.params f hf)).bind ?_
      intro values s' _ hvalues
      exact hcall.sound f hf values hvalues s'

theorem sound_evalArgs (hc : c.Proper) (hcall : CallsSoundly c call) :
    ∀ (args : List Expr) (types : List CType) (s : State), Known c a s →
      ResolvedArgs c.visible args → args.map Expr.type = types → .void ∉ types →
      Sound (evalArgs call a types args) s fun values _ => values.map Arg.type = types
  | [], types, s, _, _, htypes, _ => by
      subst htypes
      unfold evalArgs
      exact sound_pure rfl
  | arg :: args, types, s, h, hargs, htypes, hvoid => by
      subst htypes
      obtain ⟨harg, hargs⟩ := hargs
      rw [List.map_cons, List.mem_cons, not_or] at hvoid
      have hothers : ∀ (first : Arg) (s' : State), s.Binds s' → first.type = arg.type →
          Sound (evalArgs call a (args.map Expr.type) args >>= fun others =>
            pure (first :: others)) s' fun values _ =>
              values.map Arg.type = (arg :: args).map Expr.type := by
        intro first s' hbinds hfirst
        refine (sound_evalArgs hc hcall args _ s' (h.later hbinds) hargs rfl hvoid.2).bind ?_
        intro values s'' _ hvalues
        apply sound_pure
        rw [List.map_cons, List.map_cons, hfirst, hvalues]
      by_cases harray : arg.type = .intArray
      · obtain ⟨head, symbol, rfl, ⟨hsymbol, hvisible, -⟩, htype⟩ := bare_of_array hc harg harray
        have heval : evalArgs call a (List.map Expr.type (.var head none :: args))
            (.var head none :: args) = passArray (arrayOf a symbol) >>= fun first =>
              evalArgs call a (args.map Expr.type) args >>= fun others =>
                pure (first :: others) := by
          conv_lhs => unfold evalArgs
          simp only [List.map_cons, List.head?_cons, harray, decide_true, arrayName, if_true,
            hsymbol, List.tail_cons]
        rw [heval]
        have hpass : Sound (passArray (arrayOf a symbol)) s fun first _ =>
            first.type = .intArray :=
          (sound_arrayOf h hvisible htype).bind fun _ _ _ _ => sound_pure rfl
        exact hpass.bind fun first s' hbinds hfirst =>
          hothers first s' hbinds (hfirst.trans harray.symm)
      · have hint : arg.type = .int := by
          cases htype : arg.type with
          | int => rfl
          | void => exact absurd htype.symm hvoid.1
          | intArray => exact absurd htype harray
        have heval : evalArgs call a (List.map Expr.type (arg :: args)) (arg :: args) =
            passInt (evalExpr call a arg) >>= fun first =>
              evalArgs call a (args.map Expr.type) args >>= fun others =>
                pure (first :: others) := by
          conv_lhs => unfold evalArgs
          simp only [List.map_cons, List.head?_cons, Option.some.injEq, harray, decide_false,
            arrayName_of_int, List.tail_cons]
        rw [heval]
        have hpass : Sound (passInt (evalExpr call a arg)) s fun first _ => first.type = .int :=
          (sound_evalExpr hc hcall arg s h harg harray).bind fun _ _ _ _ => sound_pure rfl
        exact hpass.bind fun first s' hbinds hfirst =>
          hothers first s' hbinds (hfirst.trans hint.symm)

end

end expr

section stmt

variable {c : Scene} {a : Activation} {s : State} {call : Symbol → List Arg → Eval (BitVec 32)}
  {closed other : Prop} {n : Nat} {source next : Eval Flow}

/-- A statement is sound wherever the array parameters are bound, and does not go on where
it closes its block. -/
def SoundStmt (c : Scene) (a : Activation) (closed : Prop) (source : Eval Flow) : Prop :=
  ∀ s, Known c a s → Sound source s fun flow _ => closed → flow ≠ .goesOn

theorem SoundStmt.mono (h : SoundStmt c a closed source) (himp : other → closed) :
    SoundStmt c a other source :=
  fun s hknown => (h s hknown).mono fun _ _ _ hflow hother => hflow (himp hother)

theorem soundStmt_goesOn : SoundStmt c a False (pure .goesOn) :=
  fun _ _ => sound_pure fun h => h.elim

/-- What comes after a statement that closes its block does not matter. -/
theorem soundStmt_afterwards (h : SoundStmt c a closed source)
    (hnext : ¬ closed → SoundStmt c a other next) :
    SoundStmt c a (closed ∨ other) (afterwards source next) := by
  intro s hknown
  refine (h s hknown).bind ?_
  intro flow s' hbinds hflow
  cases flow with
  | returns x => exact sound_pure fun _ hgoesOn => by cases hgoesOn
  | goesOn =>
      have hopen : ¬ closed := fun hclosed => hflow hclosed rfl
      exact (hnext hopen s' (hknown.later hbinds)).mono fun _ _ _ hend hclosed =>
        hend (hclosed.resolve_left hopen)

theorem soundStmt_choose {cond : Eval (BitVec 32)} {ifTrue ifFalse : Eval Flow}
    (hcond : ∀ s, Known c a s → Sound cond s fun _ _ => True)
    (htrue : SoundStmt c a False ifTrue) (hfalse : SoundStmt c a False ifFalse) :
    SoundStmt c a False (choose cond ifTrue ifFalse) := by
  intro s hknown
  refine (hcond s hknown).bind ?_
  intro x s' hbinds _
  by_cases hx : x = 0
  · rw [if_pos hx]
    exact hfalse s' (hknown.later hbinds)
  · rw [if_neg hx]
    exact htrue s' (hknown.later hbinds)

theorem soundStmt_loop {cond : Eval (BitVec 32)}
    (hcond : ∀ s, Known c a s → Sound cond s fun _ _ => True)
    (hbody : SoundStmt c a False source) (m : Nat) : SoundStmt c a False (loop cond source m) := by
  induction m with
  | zero => exact fun s _ => trivial
  | succ m ih =>
      have hround : SoundStmt c a False (afterwards source (loop cond source m)) :=
        (soundStmt_afterwards hbody fun _ => ih).mono .inl
      exact soundStmt_choose hcond hround soundStmt_goesOn

theorem sound_forgetAll (decls : List VarDecl) (s : State) :
    Sound (forgetAll a decls) s fun _ _ => True := by
  induction decls generalizing s with
  | nil => exact sound_pure trivial
  | cons decl decls ih =>
      unfold forgetAll
      cases decl.symbol with
      | none => exact ih s
      | some symbol =>
          have hforget : Sound (forget (a.variable symbol)) s fun _ _ => True := ⟨.refl s, trivial⟩
          exact hforget.bind fun _ s' _ _ => ih s'

theorem not_bare {head : VarHead} (h : bareArray (.var head none) = []) :
    head.info.type ≠ .intArray := by
  intro htype
  change (if head.info.type = .intArray then [head.info.loc] else []) = [] at h
  rw [if_pos htype] at h
  cases h

mutual

theorem sound_evalStmt (hc : c.Proper) (hcall : CallsSoundly c call) {returnType : CType} :
    ∀ stmt : Stmt, stmt.Resolved c.visible returnType → bareArrays stmt = [] →
      SoundStmt c a (closes stmt = true) (evalStmt call a n stmt)
  | .compound _ decls stmts, h, hbare => by
      intro s hknown
      unfold evalStmt closes
      refine (sound_forgetAll decls s).bind ?_
      intro _ s' hbinds _
      exact sound_evalStmts hc hcall stmts h hbare s' (hknown.later hbinds)
  | .expr _ none, _, _ => by
      unfold evalStmt closes
      exact soundStmt_goesOn.mono (by simp)
  | .expr _ (some e), h, hbare => by
      intro s hknown
      have htype : e.type ≠ .intArray := by
        intro htype
        obtain ⟨head, symbol, rfl, -⟩ := bare_of_array hc h htype
        exact not_bare hbare htype
      unfold evalStmt closes
      refine (sound_evalExpr hc hcall e s hknown h htype).bind ?_
      exact fun _ s' _ _ => sound_pure (by simp)
  | .ifs _ cond thenStmt none, h, hbare => by
      obtain ⟨⟨hcond, hint⟩, hthen⟩ := h
      have hthen := sound_evalStmt hc hcall thenStmt hthen hbare
      unfold evalStmt closes
      refine (soundStmt_choose ?_ (hthen.mono False.elim) soundStmt_goesOn).mono (by simp)
      exact fun s hknown => sound_evalExpr hc hcall cond s hknown hcond (by rw [hint]; simp)
  | .ifs _ cond thenStmt (some elseStmt), h, hbare => by
      obtain ⟨⟨hcond, hint⟩, hthen, helse⟩ := h
      unfold bareArrays at hbare
      obtain ⟨hbare, hbare'⟩ := List.append_eq_nil_iff.mp hbare
      have hthen := sound_evalStmt hc hcall thenStmt hthen hbare
      have helse := sound_evalStmt hc hcall elseStmt helse hbare'
      unfold evalStmt closes
      refine (soundStmt_choose ?_ (hthen.mono False.elim) (helse.mono False.elim)).mono (by simp)
      exact fun s hknown => sound_evalExpr hc hcall cond s hknown hcond (by rw [hint]; simp)
  | .whiles _ cond body, h, hbare => by
      obtain ⟨⟨hcond, hint⟩, hbody⟩ := h
      have hbody := sound_evalStmt hc hcall body hbody hbare
      unfold evalStmt closes
      refine (soundStmt_loop ?_ (hbody.mono False.elim) n).mono (by simp)
      exact fun s hknown => sound_evalExpr hc hcall cond s hknown hcond (by rw [hint]; simp)
  | .ret _ none, _, _ => by
      unfold evalStmt
      exact fun s _ => sound_pure fun _ h => by cases h
  | .ret _ (some value), h, _ => by
      obtain ⟨-, hvalue, hint⟩ := h
      intro s hknown
      unfold evalStmt
      refine (sound_evalExpr hc hcall value s hknown hvalue (by rw [hint]; simp)).bind ?_
      exact fun x s' _ _ => sound_pure fun _ h => by cases h

theorem sound_evalStmts (hc : c.Proper) (hcall : CallsSoundly c call) {returnType : CType} :
    ∀ stmts : List Stmt, ResolvedStmts c.visible returnType stmts → bareArraysOf stmts = [] →
      SoundStmt c a (someCloses stmts = true) (evalStmts call a n stmts)
  | [], _, _ => by
      unfold evalStmts someCloses
      exact soundStmt_goesOn.mono (by simp)
  | stmt :: stmts, ⟨hstmt, hstmts⟩, hbare => by
      unfold bareArraysOf at hbare
      obtain ⟨hbare, hbare'⟩ := List.append_eq_nil_iff.mp hbare
      unfold evalStmts someCloses
      rw [Bool.or_eq_true]
      apply soundStmt_afterwards (sound_evalStmt hc hcall stmt hstmt hbare)
      intro hopen
      rw [if_neg hopen] at hbare'
      exact sound_evalStmts hc hcall stmts hstmts hbare'

end

end stmt

/-! Functions, and the program. -/

section program

variable {options : IRGenOptions} {program : Program}

theorem bareArraysOf_decl {decls : List Decl} (h : bareArraysOfDecls decls = []) {decl : FunDecl}
    (hdecl : .fun decl ∈ decls) : bareArraysOf decl.body.stmts = [] := by
  induction decls with
  | nil => cases hdecl
  | cons first decls ih =>
      cases first with
      | var other =>
          rcases List.mem_cons.mp hdecl with hsame | hdecl
          · cases hsame
          · exact ih h hdecl
      | «fun» other =>
          unfold bareArraysOfDecls at h
          obtain ⟨hbody, hrest⟩ := List.append_eq_nil_iff.mp h
          rcases List.mem_cons.mp hdecl with hsame | hdecl
          · cases hsame
            exact hbody
          · exact ih hrest hdecl

/-- No symbol of the global scope is a parameter. -/
theorem Emittable.not_parameter (h : Emittable program) {other : Symbol}
    (hother : other ∈ program.symbols) : other.kind ≠ .parameter := by
  have hbuiltins : ∀ f ∈ builtinSymbols, f.kind ≠ .parameter := by decide
  rcases h.symbol_cases hother with hmem | ⟨decl, -, hdecl⟩ | ⟨decl, -, hdecl⟩
  · exact hbuiltins other hmem
  · simp [hdecl.kind]
  · simp [hdecl.kind]

/-- What is in sight of a function that is a parameter, is one of its own. -/
theorem Hosted.parameter (h : Emittable program) {decl : FunDecl} {g : IRGenerator}
    {globals params locals : List Symbol} {symbol : Symbol}
    (hhosted : Hosted options program decl g globals symbol params locals) {other : Symbol}
    (hother : other ∈ globals ++ [symbol] ++ params ++ locals) (hkind : other.kind = .parameter) :
    other ∈ params := by
  rw [List.mem_append, List.mem_append, List.mem_append, List.mem_singleton] at hother
  rcases hother with ((hglobal | rfl) | hparam) | hlocal
  · exact absurd hkind (h.not_parameter (hhosted.scope other hglobal))
  · simp [hhosted.resolved.declares.kind] at hkind
  · exact hparam
  · obtain ⟨k, hk, rfl⟩ := List.mem_iff_getElem.mp hlocal
    have hlength := hhosted.resolved.eachLocal.length_eq
    have hdecl := hhosted.resolved.eachLocal.get (hlength ▸ hk) hk
    cases hdecl.kind.symm.trans hkind

theorem Hosted.sound (h : Emittable program) {decl : FunDecl} {g : IRGenerator}
    {globals params locals : List Symbol} {symbol : Symbol}
    (hhosted : Hosted options program decl g globals symbol params locals)
    (hbare : bareArraysOf decl.body.stmts = []) {n : Nat}
    {call : Symbol → List Arg → Eval (BitVec 32)}
    (hcall : CallsSoundly ((planOf options program).scene (globals ++ [symbol] ++ params ++ locals)
      default 0) call) {args : List Arg} (htypes : args.map Arg.type = symbol.paramTypes)
    (s : State) : Sound (invoke program n call decl args) s fun _ _ => True := by
  have hproper : ((planOf options program).scene (globals ++ [symbol] ++ params ++ locals)
      default 0).Proper := (fits_planOf options h).proper (hhosted.functions h)
  have henter : Sound (enter program.symbols) s fun _ _ => True := ⟨.refl s, trivial⟩
  refine henter.bind ?_
  intro a s1 _ _
  refine (sound_bindParams hhosted.resolved.eachParam a args s1
    (htypes.trans hhosted.paramTypes)).bind ?_
  intro _ s2 _ hbound
  have hknown : Known ((planOf options program).scene (globals ++ [symbol] ++ params ++ locals)
      default 0) a s2 :=
    fun other hother htype hkind => hbound other (hhosted.parameter h hother hkind) htype
  have hbody := sound_evalStmt (a := a) (n := n) hproper hcall decl.body.toStmt
    hhosted.resolved.body hbare
  exact (hbody s2 hknown).bind fun _ _ _ _ => sound_pure trivial

theorem sound_predefined {symbol : Symbol} (hsymbol : symbol ∈ builtinSymbols) {args : List Arg}
    (htypes : args.map Arg.type = symbol.paramTypes) (s : State) :
    Sound (predefined symbol.name args) s fun _ _ => True := by
  rcases List.mem_cons.mp hsymbol with rfl | hsymbol
  · obtain rfl : args = [] := List.map_eq_nil_iff.mp htypes
    exact ⟨fun _ h => h, trivial⟩
  · rw [List.mem_singleton] at hsymbol
    subst hsymbol
    cases args with
    | nil => cases htypes
    | cons arg args =>
        obtain ⟨htype, htypes⟩ := List.cons.inj htypes
        obtain rfl := List.map_eq_nil_iff.mp htypes
        cases arg with
        | array array => cases htype
        | int x => exact ⟨fun _ h => h, trivial⟩

theorem sound_callFunction (h : Emittable program) (hbare : bareArraysOfDecls program.decls = [])
    (options : IRGenOptions) (n : Nat) (visible : List Symbol) :
    CallsSoundly ((planOf options program).scene visible default 0) (callFunction program n) := by
  induction n generalizing visible with
  | zero => exact ⟨fun _ _ _ _ _ => trivial⟩
  | succ n ih =>
      constructor
      intro f hf args htypes s
      obtain ⟨hmem, hfun⟩ := (fits_planOf options h).mem_functions.mp hf
      unfold callFunction
      rcases h.function_cases hmem hfun with
        ⟨hf, hbuiltin⟩ | ⟨hdeclared, decl, hfind, hdecl, hsymbol⟩
      · rw [if_pos hbuiltin]
        exact sound_predefined hf htypes s
      · rw [if_neg (by simp [hdeclared])]
        simp only [hfind]
        obtain ⟨g, globals, params, locals, hhosted⟩ := h.hosted options hdecl hsymbol
        exact hhosted.sound h (bareArraysOf_decl hbare hdecl) (ih _) htypes s

theorem sound_run (h : Emittable program) (hbare : bareArraysOfDecls program.decls = []) (n : Nat)
    (world : World) : (Meaning.run program n world).Safe (· ≠ .malformed) fun _ _ => True := by
  obtain ⟨decl, g, globals, symbol, params, locals, hlast, -, hnone, hhosted⟩ := h.main {}
  have hdecl : .fun decl ∈ program.decls := List.mem_of_getLast? hlast
  have htypes : ([] : List Arg).map Arg.type = symbol.paramTypes := hnone.symm
  have hsound := hhosted.sound h (bareArraysOf_decl hbare hdecl) (n := n)
    (sound_callFunction h hbare {} n _) htypes (initial program world)
  unfold Meaning.run
  rw [hlast]
  exact Outcome.Safe.mono hsound fun _ _ _ => trivial

end program

theorem generateIR_module {verifyModule : Module → Option String} {options : IRGenOptions}
    {program : Program} {m : Module} {diags : Diagnostics}
    (h : generateIR verifyModule options program = (some m, diags)) :
    m = (emitProgram options program).module ∧ (emitProgram options program).diags = diags := by
  unfold generateIR IRGenerator.run at h
  dsimp only at h
  split at h
  · cases h
  · cases h
    exact ⟨rfl, rfl⟩

/-- What the description of the language leaves open: a variable that has no value or a
literal that no int has, an access past the end, a division without a result. -/
def LeftOpen (f : Fault) : Prop := f = .undefined ∨ f = .access ∨ f = .division

theorem leftOpen_of_run {program : Program} (h : Emittable program)
    (hbare : bareArraysOfDecls program.decls = []) {fuel : Nat} {world : World} {f : Fault}
    (hrun : Meaning.run program fuel world = .fault f) : LeftOpen f := by
  have hsafe := sound_run h hbare fuel world
  rw [hrun] at hsafe
  cases f with
  | malformed => exact absurd rfl hsafe
  | undefined => exact .inl rfl
  | access => exact .inr (.inl rfl)
  | division => exact .inr (.inr rfl)

/-- Where a run of the module faults, the interpreter has faulted by then. -/
theorem Compiles.faults {options : IRGenOptions} {program : Program}
    (h : Compiles options program) {junk : Key → Int → Value} {world : World}
    {c : Config Store World}
    (hstart : ((emitProgram options program).module.machine (Store.ops junk)).start kMainName []
      { mem := (emitProgram options program).module.storage, world := world } = some c)
    {k : Nat} {f : Fault} {shared : Shared Store World}
    (hrun : ((emitProgram options program).module.machine (Store.ops junk)).run k c =
      .stopped (.faulted f) shared) :
    ∃ f', Meaning.run program (k + 1) world = .fault f' := by
  obtain ⟨c', hstart', hfollows⟩ := h.follows junk world
  obtain rfl : c = c' := Option.some.inj (hstart.symm.trans hstart')
  rcases (hfollows (k + 1)).settles hrun with hfault |
    ⟨x, s, j, hdone, shared', hstopped, -⟩ | ⟨s, -, hfinal, -⟩
  · exact hfault
  · obtain ⟨hfinal, -⟩ := Machine.run_stopped_unique hrun hstopped
    cases hfinal
  · cases hfinal

/-- A program that gets a module has no other faults, and neither has its module. -/
theorem generateIR_faults {verifyModule : Module → Option String} {options : IRGenOptions}
    {source : String} {program : Program} (h : frontEnd source = some program) {m : Module}
    (hmodule : generateIR verifyModule options program = (some m, [])) (world : World) :
    (∀ fuel f, Meaning.run program fuel world = .fault f → LeftOpen f) ∧
    (options.indexChecks = true → 32 ≤ options.indexBits → ∀ junk c,
      (m.machine (Store.ops junk)).start kMainName [] { mem := m.storage, world := world } =
        some c →
      ∀ k f shared, (m.machine (Store.ops junk)).run k c = .stopped (.faulted f) shared →
        ∃ f', LeftOpen f' ∧ Meaning.run program (k + 1) world = .fault f') := by
  have hemittable := emittable_of_accepted (accepted_of_frontEnd h)
  obtain ⟨rfl, hdiags⟩ := generateIR_module hmodule
  obtain ⟨_, _, _, -, -, hreported⟩ := built_emitProgram options hemittable
  have hbare : bareArraysOfDecls program.decls = [] := by
    rw [hreported] at hdiags
    exact List.map_eq_nil_iff.mp hdiags
  refine ⟨fun fuel f hrun => leftOpen_of_run hemittable hbare hrun, ?_⟩
  intro hchecks hbits junk c hstart k f shared hrun
  have hcompiles : Compiles options program := ⟨hemittable, hchecks, hbits⟩
  obtain ⟨f', hfault⟩ := hcompiles.faults hstart hrun
  exact ⟨f', leftOpen_of_run hemittable hbare hfault, hfault⟩

def reciprocal : String :=
  "int first(int a[]) \x7b return a[0]; \x7d" ++
    "void main(void) \x7b int a[2]; a[0] = input(); output(1 / first(a)); \x7d"

def faultedBy (f : Fault) : Config Store World → Bool
  | .stopped final _ => decide (final = .faulted f)
  | .running _ _ _ => false

theorem generateIR_faults_division : ∃ program m c, frontEnd reciprocal = some program ∧
    generateIR (fun _ => none) {} program = (some m, []) ∧
    (m.machine (Store.ops fun _ _ => .poison)).start kMainName []
      { mem := m.storage, world := { input := fun _ => 0 } } = some c ∧
    (∀ fuel f, Meaning.run program fuel { input := fun _ => 0 } = .fault f → LeftOpen f) ∧
    ∃ f, LeftOpen f ∧ Meaning.run program 41 { input := fun _ => 0 } = .fault f := by
  have hrun : (frontEnd reciprocal).any (fun program =>
      decide ((emitProgram {} program).diags = []) &&
      let m := (emitProgram {} program).module
      ((m.machine (Store.ops fun _ _ => .poison)).start kMainName []
        { mem := m.storage, world := { input := fun _ => 0 } }).any fun c =>
          faultedBy .division ((m.machine (Store.ops fun _ _ => .poison)).run 40 c)) = true := by
    decide +kernel
  rw [Option.any_eq_true] at hrun
  obtain ⟨program, hprogram, hrun⟩ := hrun
  rw [Bool.and_eq_true, decide_eq_true_iff, Option.any_eq_true] at hrun
  obtain ⟨hdiags, c, hstart, hfaulted⟩ := hrun
  have hmodule : generateIR (fun _ => none) {} program =
      (some (emitProgram {} program).module, []) := by
    rw [← hdiags]
    rfl
  obtain ⟨hopen, hfaults⟩ := generateIR_faults hprogram hmodule { input := fun _ => 0 }
  refine ⟨program, _, c, hprogram, hmodule, hstart, hopen, ?_⟩
  cases hend :
      ((emitProgram {} program).module.machine (Store.ops fun _ _ => .poison)).run 40 c with
  | running top callers shared =>
      rw [hend] at hfaulted
      cases hfaulted
  | stopped final shared =>
      rw [hend] at hfaulted
      have hfinal : final = .faulted .division := of_decide_eq_true hfaulted
      subst hfinal
      exact hfaults rfl (by decide) _ c hstart 40 .division shared hend

end IRGenerator

end CMinus
