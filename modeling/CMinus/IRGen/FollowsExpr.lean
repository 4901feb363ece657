import CMinus.IRGen.FollowsVar

namespace CMinus

namespace IRGenerator

open SSA IR Meaning

/-! Operators. -/

section binary

variable {c : Site} {n : Nat}

theorem arith_defined (op : Arith) (h : op ≠ .sdiv) (x y : BitVec 32) :
    pure (op.apply x y) = arith op x y := by
  unfold arith
  rw [if_neg]
  rintro ⟨rfl, -⟩
  exact h rfl

theorem follows_operate {P : Known} {g : IRGenerator} {v w : Operand} {x y : BitVec 32}
    (op : BinaryOp) (hg : c.Emitting g) (hP : P.Stable g.builder.nextReg)
    (hx : ∀ env mem, P env mem → Denotes v (.i32 x) env mem)
    (hy : ∀ env mem, P env mem → Denotes w (.i32 y) env mem) :
    Follows c n P (emitBinary op (pure v) (pure w)) (operate op x y) g (fun v n => v.Below n)
      fun v z => Denotes v (.i32 z) := by
  have harith : ∀ op, Follows c n P (createBinary op v w) (arith op x y) g
      (fun v n => v.Below n) fun v z => Denotes v (.i32 z) :=
    fun op => follows_createBinary hg op hx hy
  have hcompare : ∀ pred : Compare, Follows c n P (createICmp pred v w >>= createZExt)
      (pure (truth (pred.apply x y)) : Eval (BitVec 32)) g (fun v n => v.Below n)
      fun v z => Denotes v (.i32 z) := by
    intro pred
    refine Follows.next (b := ()) (Q := fun v _ => Denotes v (.i1 (pred.apply x y)))
      (follows_createICmp hg pred hx hy fun _ _ _ h => h) hP ?_
    intro compared g' hg' _ _
    exact follows_createZExt hg' fun env mem h => h.2
  cases op with
  | add =>
      have heq : operate .add x y = arith .add x y := arith_defined .add (by simp) x y
      exact heq ▸ harith .add
  | sub =>
      have heq : operate .sub x y = arith .sub x y := arith_defined .sub (by simp) x y
      exact heq ▸ harith .sub
  | mul =>
      have heq : operate .mul x y = arith .mul x y := arith_defined .mul (by simp) x y
      exact heq ▸ harith .mul
  | div => exact harith .sdiv
  | lessThan => exact hcompare .slt
  | lessEqual => exact hcompare .sle
  | greaterThan => exact hcompare .sgt
  | greaterEqual => exact hcompare .sge
  | equal => exact hcompare .eq
  | notEqual => exact hcompare .ne

theorem follows_emitBinary {lhs rhs : IRGenM Operand} {left right : Eval (BitVec 32)}
    (op : BinaryOp) (hlhs : FollowsInt c n lhs left) (hrhs : FollowsInt c n rhs right) :
    FollowsInt c n (emitBinary op lhs rhs)
      (left >>= fun x => right >>= fun y => operate op x y) := by
  intro P g hg hP hknown
  change Follows c n P (lhs >>= fun v => rhs >>= fun w => emitBinary op (pure v) (pure w)) _ g _ _
  refine (hlhs P g hg hP hknown).bind hP ?_
  intro v g1 hg1 hregs1 hbelow1 x
  have hP1 := (hP.mono hregs1).and (Denotes.stable hbelow1 (.i32 x))
  refine (hrhs _ g1 hg1 hP1 fun env mem h => hknown env mem h.1).bind hP1 ?_
  intro w g2 hg2 hregs2 hbelow2 y
  exact follows_operate op hg2 ((hP1.mono hregs2).and (Denotes.stable hbelow2 (.i32 y)))
    (fun env mem h => h.1.2) fun env mem h => h.2

end binary

/-! Calls.  What a call of a function does is left to `call`. -/

def returned (ty : Ty) (x : BitVec 32) : Option Value :=
  if ty = .void then none else some (.i32 x)

structure Site.Calls (c : Site) (n : Nat) (call : Symbol → List Arg → Eval (BitVec 32)) : Prop where
  simulates : ∀ f ∈ c.functions, ∀ args : List Arg, args.map Arg.type = f.paramTypes →
    ∀ (r : Option Nat) (ops : List Operand) (values : List Value) (top : Frame)
      (callers : List Frame) (state : State) (shared : Shared Store World),
      (c.setting.machine.code top.block)[top.position]? = some (.call r f.name ops) →
      ops.mapM (Operand.eval top.env) = some values →
      List.Forall₂ (c.setting.Passes shared.mem) values args → c.setting.Agrees state shared →
      c.comparison.Simulates n (.running top callers shared) (call f args state)
        fun x state' config => ∃ shared', config = .running
          { top with position := top.position + 1
                     env := top.env.receive r (returned (signatureOf f).returnType x) }
          callers shared' ∧ c.setting.Agrees state' shared' ∧ shared.mem.Keeps shared'.mem

/-- The operands are what a call passes. -/
def Site.PassesAll (c : Site) (ops : List Operand) (args : List Arg) : Known := fun env mem =>
  ∃ values, ops.mapM (Operand.eval env) = some values ∧
    List.Forall₂ (c.setting.Passes mem) values args

section call

variable {c : Site} {n : Nat} {P : Known} {g : IRGenerator}
  {call : Symbol → List Arg → Eval (BitVec 32)}

theorem mapM_keeps {ops : List Operand} {m : Nat} {env env' : SSA.Env}
    (h : ∀ v ∈ ops, v.Below m) (henv : env.Keeps m env') :
    ops.mapM (Operand.eval env') = ops.mapM (Operand.eval env) := by
  induction ops with
  | nil => rfl
  | cons v ops ih =>
      rw [List.mapM_cons, List.mapM_cons, Operand.eval_keeps (h v List.mem_cons_self) henv,
        ih fun w hw => h w (List.mem_cons_of_mem _ hw)]

theorem Site.PassesAll.stable {ops : List Operand} {m : Nat} (h : ∀ v ∈ ops, v.Below m)
    (args : List Arg) : Known.Stable m (c.PassesAll ops args) := by
  constructor
  rintro env env' mem mem' henv hmem ⟨values, hvalues, hpasses⟩
  exact ⟨values, (mapM_keeps h henv).trans hvalues, hpasses.imp fun _ _ h => h.later hmem⟩

theorem follows_createCall (hcall : c.Calls n call) (hg : c.Emitting g) {f : Symbol}
    (hf : f ∈ c.functions) {callee : Function} (hname : callee.name = f.name)
    (hreturn : callee.returnType = (signatureOf f).returnType) {ops : List Operand}
    {args : List Arg} (hpasses : ∀ env mem, P env mem →
      c.PassesAll ops args env mem ∧ args.map Arg.type = f.paramTypes) :
    Follows c n P (createCall callee ops) (call f args) g (fun v n => v.Below n)
      fun v x env _ => f.returnType = .int → v.eval env = some (.i32 x) := by
  have hrun : ∀ (r : Option Nat) (t : Builder Instr),
      t.code = (g.builder.append (.call r f.name ops)).code → t.cur = g.builder.cur →
      (∀ (env : SSA.Env) x, env.Keeps g.builder.nextReg
        (env.receive r (returned (signatureOf f).returnType x))) →
      Transfers c.comparison n P g.builder t (call f args) fun x env _ =>
        ∃ env' : SSA.Env, env = env'.receive r (returned (signatureOf f).returnType x) := by
    intro r t ht hcur hkeeps hwithin state env result callers shared hagrees hP
    obtain ⟨⟨values, hvalues, hforall⟩, htypes⟩ := hpasses env _ hP
    have hcode := hwithin.at (ht ▸ g.builder.appended (.call r f.name ops))
    refine (hcall.simulates f hf args htypes r ops values
      ⟨g.builder.cur, g.builder.position, env, result⟩ callers state shared hcode hvalues hforall
      hagrees).mono ?_
    rintro x state' _ ⟨shared', rfl, hagrees', hmem⟩
    refine ⟨_, shared', ?_, hagrees', hkeeps env x, hmem, env, rfl⟩
    have hposition : t.position = g.builder.position + 1 := by
      unfold Builder.position
      rw [hcur, ht, Builder.append_code_cur, List.length_append]
      rfl
    rw [hposition, hcur]
  unfold createCall
  rw [hreturn, hname]
  split
  · next hvoid =>
      refine ⟨⟨Emitting.append hg rfl, .append _ _ _, fun r hr => by cases hr⟩, ?_⟩
      refine (hrun none _ rfl rfl fun env x => .refl _ _).mono ?_
      intro x env mem _ hint
      rw [signatureOf_int hint] at hvoid
      cases hvoid
  · next hvalue =>
      have hreturned : ∀ x, returned (signatureOf f).returnType x = some (.i32 x) :=
        fun x => if_neg hvalue
      refine ⟨writes_define hg rfl, ?_⟩
      refine (hrun (some g.builder.nextReg) _ rfl rfl ?_).mono ?_
      · intro env x
        rw [hreturned]
        exact .set env le_rfl _
      · rintro x env mem ⟨env', rfl⟩ _
        rw [hreturned]
        exact SSA.Env.set_regs_self env' _ _

/-- The callee is looked up before the arguments are evaluated. -/
theorem follows_emitCall (hc : c.Proper) (hcall : c.Calls n call) (hg : c.Emitting g) {f : Symbol}
    (hf : f ∈ c.functions) (hP : P.Stable g.builder.nextReg) (name : String)
    {args : IRGenM (List Operand)} {source : Eval (List Arg)}
    (hargs : ∀ g', c.Emitting g' → P.Stable g'.builder.nextReg →
      Follows c n P args source g' (fun vs n => ∀ v ∈ vs, v.Below n) fun vs as env mem =>
        c.PassesAll vs as env mem ∧ as.map Arg.type = f.paramTypes) :
    Follows c n P (emitCall name (some f) args) (source >>= fun as => call f as) g
      (fun v n => v.Below n) fun v x env _ => f.returnType = .int → v.eval env = some (.i32 x) := by
  obtain ⟨-, hname, hreturn⟩ :=
    hg.kept.signed.functionFor hc.scene.ids hc.scene.names hc.scene.reserved hf
  have hbuilder : (functionFor f g).2.builder = g.builder := by
    unfold functionFor
    split <;> rfl
  have hkept := (Site.preserves_functionFor hc hf).kept g hg.kept
  have hg' : c.Emitting (functionFor f g).2 := ⟨hbuilder.symm ▸ hg.writing, hkept⟩
  have hP' : P.Stable (functionFor f g).2.builder.nextReg := hbuilder.symm ▸ hP
  unfold emitCall
  refine Follows.after hbuilder ?_
  refine (hargs _ hg' hP').bind hP' ?_
  intro ops g1 hg1 _ _ as
  exact follows_createCall hcall hg1 hf hname hreturn fun env mem h => h.2

end call

/-! Expressions. -/

def FollowsExpr (c : Site) (n : Nat) (type : CType) (action : IRGenM Operand)
    (source : Eval (BitVec 32)) : Prop :=
  ∀ (P : Known) (g : IRGenerator), c.Emitting g → P.Stable g.builder.nextReg →
    (∀ env mem, P env mem → c.Stands env mem) →
    Follows c n P action source g (fun v n => v.Below n) fun v x env _ =>
      type = .int → v.eval env = some (.i32 x)

section expr

variable {c : Site} {n : Nat} {action : IRGenM Operand} {source : Eval (BitVec 32)}

theorem FollowsInt.expr (h : FollowsInt c n action source) (type : CType) :
    FollowsExpr c n type action source :=
  fun P g hg hP hknown => (h P g hg hP hknown).mono fun _ _ _ _ hvalue _ => hvalue

theorem FollowsExpr.int (h : FollowsExpr c n .int action source) : FollowsInt c n action source :=
  fun P g hg hP hknown => (h P g hg hP hknown).mono fun _ _ _ _ hvalue => hvalue rfl

theorem follows_num (value : Int) : FollowsInt c n (pure (int32 value))
    (if value ≤ 2147483647 then pure (BitVec.ofInt 32 value) else fault .undefined) := by
  intro P g hg _ _
  split
  · exact follows_pure hg (fun r hr => by cases hr) fun _ _ _ => rfl
  · exact follows_fault ⟨hg, .refl _ _, fun r hr => by cases hr⟩

theorem arrayName_of_int {e : Expr} : arrayName false e = none ∧ arrayArgument false e = none := by
  unfold arrayName arrayArgument
  constructor
  · split <;> rfl
  · split <;> rfl

/-- An argument, and the rest of them. -/
theorem follows_cons {P : Known} {g : IRGenerator} {first : IRGenM Operand}
    {others : IRGenM (List Operand)} {arg : Eval Arg} {args : Eval (List Arg)} {type : CType}
    {types : List CType} (hP : P.Stable g.builder.nextReg)
    (hfirst : Follows c n P first arg g (fun v n => v.Below n) fun v a env mem =>
      (∃ x, Denotes v x env mem ∧ c.setting.Passes mem x a) ∧ a.type = type)
    (hothers : ∀ (P : Known) (g' : IRGenerator), c.Emitting g' → P.Stable g'.builder.nextReg →
      (∀ env mem, P env mem → c.Stands env mem) →
      Follows c n P others args g' (fun vs n => ∀ v ∈ vs, v.Below n) fun vs as env mem =>
        c.PassesAll vs as env mem ∧ as.map Arg.type = types)
    (hknown : ∀ env mem, P env mem → c.Stands env mem) :
    Follows c n P (first >>= fun v => others >>= fun vs => pure (v :: vs))
      (arg >>= fun a => args >>= fun as => pure (a :: as)) g
      (fun vs n => ∀ v ∈ vs, v.Below n) fun vs as env mem =>
        c.PassesAll vs as env mem ∧ as.map Arg.type = type :: types := by
  refine hfirst.bind hP ?_
  intro v g1 hg1 hregs1 hbelow1 a
  have hpasses : Known.Stable g1.builder.nextReg fun env mem =>
      (∃ x, Denotes v x env mem ∧ c.setting.Passes mem x a) ∧ a.type = type := by
    constructor
    rintro env env' mem mem' henv hmem ⟨⟨x, hx, hpass⟩, htype⟩
    exact ⟨⟨x, (Denotes.stable hbelow1 x).later henv hmem hx, hpass.later hmem⟩, htype⟩
  have hP1 := (hP.mono hregs1).and hpasses
  refine (hothers _ g1 hg1 hP1 fun env mem h => hknown env mem h.1).bind hP1 ?_
  intro vs g2 hg2 hregs2 hbelow2 as
  apply follows_pure hg2
  · intro w hw
    rcases List.mem_cons.mp hw with rfl | hw
    · exact fun r hr => (hbelow1 r hr).trans_le hregs2
    · exact hbelow2 w hw
  · rintro env mem ⟨⟨-, ⟨x, hx, hpass⟩, htype⟩, ⟨values, hvalues, hforall⟩, htypes⟩
    have hvalue : v.eval env = some x := hx
    refine ⟨⟨x :: values, ?_, .cons hpass hforall⟩, ?_⟩
    · rw [List.mapM_cons, hvalue, hvalues]
      rfl
    · rw [List.map_cons, htype, htypes]

mutual

theorem follows_emitExpr (hc : c.Proper) {call : Symbol → List Arg → Eval (BitVec 32)}
    (hcall : c.Calls n call) : ∀ e : Expr, e.Resolved c.visible → e.type ≠ .intArray →
      FollowsExpr c n e.type (emitExpr c.setting.options e) (evalExpr call c.activation e)
  | .num info value, _, _ => by
      unfold emitExpr evalExpr
      exact (follows_num value).expr _
  | .var head none, he, htype => by
      obtain ⟨symbol, hhead, hsame⟩ := he
      change head.info.type ≠ .intArray at htype
      unfold emitExpr evalExpr emitIndex evalIndex
      rw [if_neg htype]
      have hscalar : symbol.type ≠ .intArray := by
        rw [← hsame]
        exact htype
      exact (follows_emitVar hc hhead htype (.scalar hscalar)).expr _
  | .var head (some index), he, htype => by
      obtain ⟨⟨symbol, hhead, harray⟩, -, hindex, hint⟩ := he
      change head.info.type ≠ .intArray at htype
      unfold emitExpr evalExpr emitIndex evalIndex
      rw [if_neg htype]
      exact (follows_emitVar hc hhead htype
        (.subscript harray (follows_int hc hcall index hindex hint))).expr _
  | .assign _ _ target none value, he, _ => by
      obtain ⟨⟨symbol, hhead, hscalar⟩, -, -, hvalue, hint⟩ := he
      unfold emitExpr evalExpr emitIndex evalIndex
      exact (follows_emitAssign hc hhead (.scalar (by simp [hscalar]))
        (follows_int hc hcall value hvalue hint)).expr _
  | .assign _ _ target (some index) value, he, _ => by
      obtain ⟨⟨symbol, hhead, harray⟩, -, -, ⟨hindex, hindexInt⟩, hvalue, hint⟩ := he
      unfold emitExpr evalExpr emitIndex evalIndex
      exact (follows_emitAssign hc hhead
        (.subscript harray (follows_int hc hcall index hindex hindexInt))
        (follows_int hc hcall value hvalue hint)).expr _
  | .binary _ op _ lhs rhs, he, _ => by
      obtain ⟨-, ⟨hlhs, hlint⟩, hrhs, hrint⟩ := he
      unfold emitExpr evalExpr
      exact (follows_emitBinary op (follows_int hc hcall lhs hlhs hlint)
        (follows_int hc hcall rhs hrhs hrint)).expr _
  | .call info callee args symbol, he, _ => by
      obtain ⟨⟨f, hmem, rfl, hfun, -, hreturn, htypes⟩, hargs⟩ := he
      have hf := hc.scene.visible f hmem hfun
      have hvoid := hc.scene.params f hf
      intro P g hg hP hknown
      unfold emitExpr evalExpr
      have hfollows := follows_emitCall (n := n) hc hcall hg hf hP callee fun g' hg' hP' =>
        follows_emitArgs hc hcall args f.paramTypes hargs htypes hvoid P g' hg' hP' hknown
      exact hfollows.mono fun v x env mem hvalue hint => hvalue (hreturn.symm.trans hint)

theorem follows_int (hc : c.Proper) {call : Symbol → List Arg → Eval (BitVec 32)}
    (hcall : c.Calls n call) : ∀ e : Expr, e.Resolved c.visible → e.type = .int →
      FollowsInt c n (emitExpr c.setting.options e) (evalExpr call c.activation e)
  | e, he, hint => by
      have hfollows := follows_emitExpr hc hcall e he (by rw [hint]; simp)
      rw [hint] at hfollows
      exact hfollows.int

theorem follows_emitArgs (hc : c.Proper) {call : Symbol → List Arg → Eval (BitVec 32)}
    (hcall : c.Calls n call) : ∀ (args : List Expr) (types : List CType),
      ResolvedArgs c.visible args → args.map Expr.type = types → .void ∉ types →
      ∀ (P : Known) (g : IRGenerator), c.Emitting g → P.Stable g.builder.nextReg →
      (∀ env mem, P env mem → c.Stands env mem) →
      Follows c n P (emitArgs c.setting.options types args) (evalArgs call c.activation types args)
        g (fun vs n => ∀ v ∈ vs, v.Below n) fun vs as env mem =>
          c.PassesAll vs as env mem ∧ as.map Arg.type = types
  | [], types, _, htypes, _, P, g, hg, _, _ => by
      subst htypes
      unfold emitArgs evalArgs
      exact follows_pure hg (fun v hv => by cases hv) fun env mem _ => ⟨⟨[], rfl, .nil⟩, rfl⟩
  | arg :: args, types, hargs, htypes, hvoid, P, g, hg, hP, hknown => by
      subst htypes
      obtain ⟨harg, hargs⟩ := hargs
      rw [List.map_cons, List.mem_cons, not_or] at hvoid
      have hothers := follows_emitArgs hc hcall args _ hargs rfl hvoid.2
      by_cases harray : arg.type = .intArray
      · obtain ⟨head, symbol, rfl, ⟨hsymbol, hvisible, hvar, -⟩, htype⟩ :=
          bare_of_array hc.scene harg harray
        have hemit : emitArgs c.setting.options (List.map Expr.type (.var head none :: args))
            (.var head none :: args) = arrayBase c.setting.options symbol >>= fun v =>
              emitArgs c.setting.options (args.map Expr.type) args >>= fun vs =>
                pure (v :: vs) := by
          conv_lhs => unfold emitArgs
          simp only [List.map_cons, List.head?_cons, harray, decide_true, arrayArgument, if_true,
            hsymbol, List.tail_cons]
        have heval : evalArgs call c.activation (List.map Expr.type (.var head none :: args))
            (.var head none :: args) = passArray (arrayOf c.activation symbol) >>= fun a =>
              evalArgs call c.activation (args.map Expr.type) args >>= fun as =>
                pure (a :: as) := by
          conv_lhs => unfold evalArgs
          simp only [List.map_cons, List.head?_cons, harray, decide_true, arrayName, if_true,
            hsymbol, List.tail_cons]
        rw [hemit, heval]
        refine follows_cons hP ?_ hothers hknown
        refine (follows_arrayBase hc hg hknown hvisible hvar htype).map Arg.array ?_
        rintro v array env mem ⟨key, hstands, hv, hsort⟩
        exact ⟨⟨_, hv, .array hstands hsort⟩, harray.symm⟩
      · have hint : arg.type = .int := by
          cases htype : arg.type with
          | int => rfl
          | void => exact absurd htype.symm hvoid.1
          | intArray => exact absurd htype harray
        have hemit : emitArgs c.setting.options (List.map Expr.type (arg :: args)) (arg :: args) =
            emitExpr c.setting.options arg >>= fun v =>
              emitArgs c.setting.options (args.map Expr.type) args >>= fun vs =>
                pure (v :: vs) := by
          conv_lhs => unfold emitArgs
          simp only [List.map_cons, List.head?_cons, Option.some.injEq, harray, decide_false,
            arrayName_of_int, List.tail_cons]
        have heval : evalArgs call c.activation (List.map Expr.type (arg :: args)) (arg :: args) =
            passInt (evalExpr call c.activation arg) >>= fun a =>
              evalArgs call c.activation (args.map Expr.type) args >>= fun as =>
                pure (a :: as) := by
          conv_lhs => unfold evalArgs
          simp only [List.map_cons, List.head?_cons, Option.some.injEq, harray, decide_false,
            arrayName_of_int, List.tail_cons]
        rw [hemit, heval]
        refine follows_cons hP ?_ hothers hknown
        refine (follows_int hc hcall arg harg hint P g hg hP hknown).map Arg.int ?_
        intro v x env mem hv
        exact ⟨⟨_, hv, .int x⟩, hint.symm⟩

end

end expr

end IRGenerator

end CMinus
