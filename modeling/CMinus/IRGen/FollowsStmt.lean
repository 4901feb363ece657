import CMinus.IRGen.FollowsExpr

namespace CMinus

namespace IRGenerator

open SSA IR Meaning

/-! Where a statement leaves the machine: at a place of the same frame, or in the caller. -/

namespace Site

variable (c : Site)

def Returned (mem : Store) (result : Option Nat) (callers : List Frame) (x : BitVec 32)
    (state : State) (config : Config Store World) : Prop :=
  ∃ (top : Frame) (shared : Shared Store World), top.result = result ∧
    config = Machine.leave top (returned c.returnType x) shared callers ∧
    c.setting.Agrees state shared ∧ mem.Keeps shared.mem

def Ends (low : Nat) (env : SSA.Env) (mem : Store) (result : Option Nat) (callers : List Frame)
    (block position : Nat) (flow : Flow) (state : State) (config : Config Store World) : Prop :=
  match flow with
  | .goesOn =>
      Arrives c.comparison low env mem result callers block position (fun _ _ => True) state config
  | .returns x => c.Returned mem result callers x state config

end Site

/-- What the emission of a statement promises. -/
structure FollowsStmt (c : Site) (n : Nat) (through : Bool) (action : IRGenM Unit)
    (source : Eval Flow) : Prop where
  flows : ∀ entry, Flows entry through action
  kept : c.Preserves action
  simulates : ∀ g : IRGenerator, c.Emitting g →
    (action g).2.builder.Within c.setting.machine.code →
    ∀ state env result callers shared, c.setting.Agrees state shared → c.Stands env shared.mem →
      c.comparison.Simulates n (.running ⟨g.builder.cur, g.builder.position, env, result⟩ callers
        shared) (source state) fun flow state' config =>
          (flow = .goesOn → IsOpen ((action g).2.builder.code (action g).2.builder.cur)) ∧
          c.Ends g.builder.nextReg env shared.mem result callers (action g).2.builder.cur
            (action g).2.builder.position flow state' config

section stmt

variable {c : Site} {n low high : Nat} {through other : Bool} {env env' : SSA.Env}
  {mem mem' : Store} {result : Option Nat} {callers : List Frame} {block position : Nat}
  {flow : Flow} {state : State} {config : Config Store World} {action : IRGenM Unit}
  {source : Eval Flow} {g : IRGenerator}

theorem Site.Ends.since (h : c.Ends high env' mem' result callers block position flow state config)
    (henv : env.Keeps low env') (hmem : mem.Keeps mem') (hle : low ≤ high) :
    c.Ends low env mem result callers block position flow state config := by
  cases flow with
  | goesOn =>
      have harrives : Arrives c.comparison high env' mem' result callers block position
        (fun _ _ => True) state config := h
      exact harrives.since henv hmem hle
  | returns x =>
      obtain ⟨top, shared, hresult, hconfig, hagrees, hkeeps⟩ := h
      exact ⟨top, shared, hresult, hconfig, hagrees, hmem.trans hkeeps⟩

/-! The terminators. -/

section terminator

variable {shared : Shared Store World} {α : Type} {outcome : Outcome State α}
  {Q : α → State → Config Store World → Prop}

theorem simulates_br {target : Nat}
    (hcode : (c.setting.machine.code block)[position]? = some (.br target))
    (h : c.comparison.Simulates n (.running ⟨target, 0, env, result⟩ callers shared) outcome Q) :
    c.comparison.Simulates (n + 1) (.running ⟨block, position, env, result⟩ callers shared)
      outcome Q :=
  Comparison.Simulates.instr (κ := c.comparison) hcode h

theorem simulates_condBr {cond : Operand} {ifTrue ifFalse : Nat} {b : Bool}
    (hcode : (c.setting.machine.code block)[position]? = some (.condBr cond ifTrue ifFalse))
    (hcond : Denotes cond (.i1 b) env shared.mem)
    (h : c.comparison.Simulates n (.running ⟨if b then ifTrue else ifFalse, 0, env, result⟩
      callers shared) outcome Q) :
    c.comparison.Simulates (n + 1) (.running ⟨block, position, env, result⟩ callers shared)
      outcome Q := by
  have hvalue : cond.eval env = some (.i1 b) := hcond
  have hexec : Executable.exec c.setting.machine.memory (Instr.condBr cond ifTrue ifFalse) env
      shared.mem = .jump (if b then ifTrue else ifFalse) := by
    change IR.exec c.setting.machine.memory (.condBr cond ifTrue ifFalse) env shared.mem = _
    simp only [IR.exec, hvalue]
  refine Comparison.Simulates.instr (κ := c.comparison) hcode ?_
  change c.comparison.Simulates n (Machine.perform _ _ _ _
    (Executable.exec c.setting.machine.memory _ _ _)) _ _
  rw [hexec, Machine.perform_jump]
  exact h

end terminator

/-! Statements that go straight on, or leave. -/

/-- An expression statement. -/
theorem follows_exprStmt {operand : IRGenM Operand} {value : Eval (BitVec 32)} {type : CType}
    (hflows : ∀ entry, Flows entry true operand) (hkept : c.Preserves operand)
    (h : FollowsExpr c n type operand value) :
    FollowsStmt c n true (operand >>= fun _ => pure ())
      (value >>= fun _ => pure Flow.goesOn) := by
  refine ⟨fun entry => (hflows entry).bind fun _ => flows_pure (), ?_, ?_⟩
  · exact hkept.bind fun _ => Site.preserves_pure ()
  · intro g hg hwithin state env result callers shared hagrees hstands
    have hfollows := h _ g hg hg.kept.stands fun _ _ hknown => hknown
    refine (hfollows.transfers hwithin state env result callers shared hagrees hstands).bind ?_
    intro x state' config harrives
    exact .done ⟨fun _ => hfollows.emitting.writing.isOpen, harrives.mono fun _ _ _ => trivial⟩

theorem follows_skip : FollowsStmt c n true (pure ()) (pure Flow.goesOn) := by
  refine ⟨fun entry => flows_pure (), Site.preserves_pure (), ?_⟩
  intro g hg _ state env result callers shared hagrees _
  exact .done ⟨fun _ => hg.writing.isOpen, env, shared, rfl, hagrees, .refl _ _, .refl _, trivial⟩

/-- The machine leaves the function. -/
theorem simulates_ret {shared : Shared Store World} {x : BitVec 32} {v : Operand}
    (hcode : (c.setting.machine.code block)[position]? =
      some (.ret (if c.returnType = .void then none else some v)))
    (hv : Denotes v (.i32 x) env shared.mem) (hagrees : c.setting.Agrees state shared) :
    c.comparison.Simulates n (.running ⟨block, position, env, result⟩ callers shared)
      (.done (Flow.returns x) state) fun flow state' config =>
        ∃ y, flow = .returns y ∧ c.Returned shared.mem result callers y state' config := by
  have hvalue : v.eval env = some (.i32 x) := hv
  have hexec : Executable.exec c.setting.machine.memory
      (Instr.ret (if c.returnType = .void then none else some v)) env shared.mem =
        .ret (returned c.returnType x) := by
    change IR.exec c.setting.machine.memory _ env shared.mem = _
    unfold returned
    by_cases hvoid : c.returnType = .void
    · rw [if_pos hvoid, if_pos hvoid]
      rfl
    · rw [if_neg hvoid, if_neg hvoid]
      simp only [IR.exec, hvalue]
  refine Comparison.Simulates.weaken (Comparison.Simulates.instr (κ := c.comparison) hcode ?_)
    (Nat.le_succ n)
  change c.comparison.Simulates n (Machine.perform _ _ _ _
    (Executable.exec c.setting.machine.memory _ _ _)) _ _
  rw [hexec, Machine.perform_ret]
  exact .done ⟨x, rfl, _, shared, rfl, rfl, hagrees, .refl _⟩

theorem follows_return : FollowsStmt c n false (emitReturn none) (pure (Flow.returns 0)) := by
  refine ⟨fun entry => flows_emitReturn ?_, Site.preserves_emitReturn ?_, ?_⟩
  · intro _ h
    cases h
  · intro _ h
    cases h
  intro g hg hwithin state env result callers shared hagrees _
  have hrun : emitReturn none g =
      emit (.ret (if c.returnType = .void then none else some (int32 0))) g := by
    change (if g.currentFunction.map Function.returnType = some .void then emit (.ret none)
      else emit (.ret (some (int32 0))) : IRGenM Unit) g = _
    rw [hg.kept.current]
    by_cases hvoid : c.returnType = .void
    · rw [if_pos (congrArg some hvoid), if_pos hvoid]
    · rw [if_neg (by simpa using hvoid), if_neg hvoid]
  rw [hrun] at hwithin ⊢
  refine (simulates_ret (x := 0) (hwithin.at (g.builder.appended _)) rfl hagrees).mono ?_
  rintro flow state' config ⟨y, rfl, hreturned⟩
  exact ⟨fun h => (by cases h), hreturned⟩

theorem follows_returnValue {operand : IRGenM Operand} {value : Eval (BitVec 32)}
    (hflows : ∀ entry, Flows entry true operand) (hkept : c.Preserves operand)
    (hreturns : c.returnType ≠ .void) (h : FollowsInt c n operand value) :
    FollowsStmt c n false (emitReturn (some operand))
      (value >>= fun x => pure (Flow.returns x)) := by
  refine ⟨fun entry => flows_emitReturn fun _ h => ?_, Site.preserves_emitReturn fun _ h => ?_, ?_⟩
  · cases h
    exact hflows entry
  · cases h
    exact hkept
  intro g hg hwithin state env result callers shared hagrees hstands
  have hrun : emitReturn (some operand) g = (operand >>= fun v =>
      emit (.ret (if c.returnType = .void then none else some v))) g := by
    change (if g.currentFunction.map Function.returnType = some .void then _
      else operand >>= fun v => emit (.ret (some v)) : IRGenM Unit) g = _
    rw [hg.kept.current, if_neg (by simpa using hreturns)]
    simp only [if_neg hreturns]
  rw [hrun] at hwithin ⊢
  have hfollows := h _ g hg hg.kept.stands fun _ _ hknown => hknown
  have hwithin' := hwithin.of_grows (Builder.Grows.append 0 _ _)
  refine (hfollows.transfers hwithin' state env result callers shared hagrees hstands).bind ?_
  rintro x state' - ⟨env', shared', rfl, hagrees', henv, hmem, hv⟩
  refine (simulates_ret (hwithin.at (Builder.appended _ _)) hv hagrees').mono ?_
  rintro flow state'' config ⟨y, rfl, top, shared'', hresult, hconfig, hagrees'', hmem'⟩
  exact ⟨fun h => (by cases h), top, shared'', hresult, hconfig, hagrees'', hmem.trans hmem'⟩

/-! One statement after another. -/

theorem follows_afterwards {first second : IRGenM Unit} {before after : Eval Flow}
    (h : FollowsStmt c n through first before) (h' : FollowsStmt c n other second after) :
    FollowsStmt c n (through && other) (first >>= fun _ => unlessClosed second)
      (afterwards before after) := by
  refine ⟨fun entry => (h.flows entry).andThen (h'.flows entry),
    h.kept.bind fun _ => Site.preserves_unlessClosed h'.kept, ?_⟩
  intro g hg hwithin state env result callers shared hagrees hstands
  have hflow := (h.flows g.builder.cur).flow g hg.writing hg.writing.born
  let g1 := (first g).2
  have hkept : c.Kept g1 := h.kept.kept g hg.kept
  have hrun : (first >>= fun _ => unlessClosed second) g =
      (if g1.builder.blockOpen = true then second else pure PUnit.unit : IRGenM Unit) g1 := rfl
  rw [hrun] at hwithin ⊢
  rcases hflow.exit with ⟨hopen, -⟩ | ⟨hclosed, -⟩
  · rw [Builder.blockOpen_of_isOpen hopen, if_pos rfl] at hwithin ⊢
    have hg1 : c.Emitting g1 := ⟨⟨hflow.tidy, hflow.born, hopen⟩, hkept⟩
    have hflow' := (h'.flows g1.builder.cur).flow g1 hg1.writing hg1.writing.born
    refine (h.simulates g hg (hwithin.of_grows hflow'.grows) state env result callers shared hagrees
      hstands).bind ?_
    rintro flow state' config ⟨-, hends⟩
    cases flow with
    | returns x => exact .done ⟨fun h => (by cases h), hends⟩
    | goesOn =>
        obtain ⟨env', shared', rfl, hagrees', henv, hmem, -⟩ := hends
        refine (h'.simulates g1 hg1 hwithin state' env' result callers shared' hagrees'
          (hg.kept.stands.later henv hmem hstands)).mono ?_
        rintro flow state'' config ⟨hopen', hends'⟩
        exact ⟨hopen', hends'.since henv hmem hflow.grows.regs⟩
  · have hshut := Builder.blockOpen_of_isClosed hclosed
    rw [hshut, if_neg (by simp)] at hwithin ⊢
    refine (h.simulates g hg hwithin state env result callers shared hagrees hstands).bind ?_
    rintro flow state' config ⟨hopen, hends⟩
    cases flow with
    | returns x => exact .done ⟨fun h => (by cases h), hends⟩
    | goesOn =>
        rw [Builder.blockOpen_of_isOpen (hopen rfl)] at hshut
        cases hshut

/-! One arm of a branch. -/

theorem closeWith_grows (s : Builder Instr) (i : Instr) : Builder.Grows 0 s (s.closeWith i) := by
  unfold Builder.closeWith
  split
  · exact .append 0 s i
  · exact .refl 0 s

theorem FollowsStmt.arm (h : FollowsStmt c n through action source) {s : Builder Instr}
    {next : Nat} (hbuilder : g.builder = s.moveTo block) (hempty : s.code block = [])
    (hg : c.Emitting g)
    (hwithin : ((action g).2.builder.closeWith (.br next)).Within c.setting.machine.code)
    {shared : Shared Store World} (hagrees : c.setting.Agrees state shared)
    (hstands : c.Stands env shared.mem) :
    c.comparison.Simulates n (.running ⟨block, 0, env, result⟩ callers shared) (source state)
      (c.Ends s.nextReg env shared.mem result callers next 0) := by
  have hsimulates := h.simulates g hg (hwithin.of_grows (closeWith_grows _ _)) state env result
    callers shared hagrees hstands
  rw [hbuilder, Builder.moveTo_cur, Builder.position_moveTo hempty, Builder.moveTo_nextReg]
    at hsimulates
  refine hsimulates.further ?_
  rintro flow state' config ⟨hopen, hends⟩
  cases flow with
  | returns x => exact .done hends
  | goesOn =>
      obtain ⟨env', shared', rfl, hagrees', henv, hmem, -⟩ := hends
      have hclose : (action g).2.builder.closeWith (.br next) =
          (action g).2.builder.append (.br next) := by
        unfold Builder.closeWith
        rw [Builder.blockOpen_of_isOpen (hopen rfl), if_pos rfl]
      rw [hclose] at hwithin
      refine Comparison.Simulates.weaken (simulates_br (hwithin.at (Builder.appended _ _)) ?_)
        (Nat.le_succ n)
      exact .done ⟨env', shared', rfl, hagrees', henv, hmem, trivial⟩

/-! Conditions. -/

structure FollowsCondition (c : Site) (n : Nat) (action : IRGenM Operand)
    (source : Eval (BitVec 32)) : Prop where
  flows : ∀ entry, Flows entry true action
  kept : c.Preserves action
  follows : ∀ g : IRGenerator, c.Emitting g →
    Follows c n c.Stands action source g (fun v n => v.Below n) fun v x =>
      Denotes v (.i1 (x != 0))

theorem follows_if {cond : IRGenM Operand} {value : Eval (BitVec 32)}
    (hcond : FollowsCondition c n cond value) (h : FollowsStmt c n through action source) :
    FollowsStmt c n true (emitIf cond action none) (choose value source (pure .goesOn)) := by
  refine ⟨fun entry => flows_emitIf (hcond.flows entry) (h.flows entry),
    Site.preserves_emitIf hcond.kept h.kept (fun _ hnone => by cases hnone), ?_⟩
  intro g hg hwithin state env result callers shared hagrees hstands
  have hfollows := hcond.follows g hg
  let v := (cond g).1
  let g1 := (cond g).2
  have hg1 : c.Emitting g1 := hfollows.emitting
  let b := g1.builder.nextBlock
  let s0 := (g1.builder.newBlock.attach b).newBlock
  let s := s0.append (.condBr v b (b + 1))
  have hbranch : Builder.Branched g1.builder.cur g1.builder s [b, b + 1] := by
    apply Builder.Branched.of_append (i := .condBr v b (b + 1)) (t := s0) hg1.writing rfl rfl
    · exact Nat.le_add_right b 2
    · exact le_rfl
    · intro d hd
      change d ∈ [b, b + 1] at hd
      simp only [List.mem_cons, List.not_mem_nil, or_false] at hd
      change b ≤ d ∧ d < b + 2
      omega
  let g2 : IRGenerator := { g1 with builder := s.moveTo b }
  have hg2 : c.Emitting g2 :=
    ⟨hbranch.tidy.writing (show b < b + 2 by omega) (hbranch.empty b le_rfl),
      hg1.kept.builder le_rfl⟩
  have harm := (h.flows g1.builder.cur).arm (s := s) (g := g2) b b (b + 1) rfl hbranch.tidy
    (Nat.lt_add_right 2 hg1.writing.born) le_rfl (show b < b + 2 by omega)
    (hbranch.empty b le_rfl) (show b + 1 < b + 2 by omega)
    (.inl ⟨hbranch.empty _ (Nat.le_succ b), Nat.succ_ne_self b⟩)
  let t := (action g2).2.builder.closeWith (.br (b + 1))
  have ht : ((do action; unlessClosed (emit (.br (b + 1))) : IRGenM Unit) g2).2.builder = t :=
    congrArg builder (unlessClosed_emit _ _)
  rw [ht] at harm
  have hrun : (emitIf cond action none g).2.builder = (t.attach (b + 1)).moveTo (b + 1) := by
    rw [← ht]
    rfl
  rw [hrun] at hwithin ⊢
  have hwithin' : t.Within c.setting.machine.code := hwithin
  have hs : s.Within c.setting.machine.code := hwithin'.of_grows harm.grows
  have hempty : t.code (b + 1) = [] := by
    rw [harm.frame _ (show b + 1 < b + 2 by omega) (Nat.succ_ne_self b)]
    exact hbranch.empty _ (Nat.le_succ b)
  have hposition : ((t.attach (b + 1)).moveTo (b + 1)).position = 0 :=
    Builder.position_moveTo hempty
  rw [hposition]
  refine (hfollows.transfers (hs.of_grows hbranch.grows) state env result callers shared hagrees
    hstands).bind ?_
  rintro x state' - ⟨env', shared', rfl, hagrees', henv, hmem, hv⟩
  have hstands' := hg.kept.stands.later henv hmem hstands
  refine Comparison.Simulates.weaken (simulates_condBr (hs.at (s0.appended _)) hv ?_)
    (Nat.le_succ n)
  have hopen : IsOpen (t.code (b + 1)) := by
    rw [hempty]
    exact IsOpen.nil
  by_cases hx : x = 0
  · rw [if_pos hx, if_neg (by simpa using hx)]
    exact .done ⟨fun _ => hopen, env', shared', rfl, hagrees', henv, hmem, trivial⟩
  · rw [if_neg hx, if_pos (by simpa using hx)]
    refine (h.arm rfl (hbranch.empty b le_rfl) hg2 hwithin' hagrees' hstands').mono ?_
    intro flow state'' config hends
    exact ⟨fun _ => hopen, hends.since henv hmem hfollows.grows.regs⟩

theorem follows_ifElse {cond : IRGenM Operand} {value : Eval (BitVec 32)} {action' : IRGenM Unit}
    {source' : Eval Flow} (hcond : FollowsCondition c n cond value)
    (h : FollowsStmt c n through action source) (h' : FollowsStmt c n other action' source') :
    FollowsStmt c n (through || other) (emitIf cond action (some action'))
      (choose value source source') := by
  refine ⟨fun entry => flows_emitIfElse (hcond.flows entry) (h.flows entry) (h'.flows entry),
    Site.preserves_emitIf hcond.kept h.kept ?_, ?_⟩
  · rintro _ ⟨⟩
    exact h'.kept
  intro g hg hwithin state env result callers shared hagrees hstands
  have hfollows := hcond.follows g hg
  let v := (cond g).1
  let g1 := (cond g).2
  have hg1 : c.Emitting g1 := hfollows.emitting
  let b := g1.builder.nextBlock
  let s0 := ((g1.builder.newBlock.attach b).newBlock.attach (b + 1)).newBlock
  let s := s0.append (.condBr v b (b + 1))
  have hbranch : Builder.Branched g1.builder.cur g1.builder s [b, b + 1] := by
    apply Builder.Branched.of_append (i := .condBr v b (b + 1)) (t := s0) hg1.writing rfl rfl
    · exact Nat.le_add_right b 3
    · exact le_rfl
    · intro d hd
      change d ∈ [b, b + 1] at hd
      simp only [List.mem_cons, List.not_mem_nil, or_false] at hd
      change b ≤ d ∧ d < b + 3
      omega
  let g2 : IRGenerator := { g1 with builder := s.moveTo b }
  have hg2 : c.Emitting g2 :=
    ⟨hbranch.tidy.writing (show b < b + 3 by omega) (hbranch.empty b le_rfl),
      hg1.kept.builder le_rfl⟩
  have harm := (h.flows g1.builder.cur).arm (s := s) (g := g2) b b (b + 2) rfl hbranch.tidy
    (Nat.lt_add_right 3 hg1.writing.born) le_rfl (show b < b + 3 by omega)
    (hbranch.empty b le_rfl) (show b + 2 < b + 3 by omega)
    (.inl ⟨hbranch.empty _ (Nat.le_add_right b 2), by omega⟩)
  let g3 := (action g2).2
  let t := g3.builder.closeWith (.br (b + 2))
  have ht : ((do action; unlessClosed (emit (.br (b + 2))) : IRGenM Unit) g2).2 =
      { g3 with builder := t } := unlessClosed_emit _ _
  rw [ht] at harm
  have hle : b + 3 ≤ t.nextBlock := harm.grows.blocks
  have hempty : ∀ d, b < d → d < b + 3 → t.code d = [] := by
    intro d hd hlt
    rw [harm.frame d hlt (Nat.ne_of_gt hd)]
    exact hbranch.empty d (Nat.le_of_lt hd)
  let g4 : IRGenerator := { g3 with builder := t.moveTo (b + 1) }
  have hregs : g3.builder.nextReg ≤ t.nextReg := (closeWith_grows _ _).regs
  have hg4 : c.Emitting g4 :=
    ⟨harm.tidy.writing (show b + 1 < t.nextBlock by omega) (hempty _ (by omega) (by omega)),
      (h.kept.kept g2 hg2.kept).builder hregs⟩
  have harm' := (h'.flows g1.builder.cur).arm (s := t) (g := g4) b (b + 1) (b + 2) rfl harm.tidy
    (by have := hg1.writing.born; omega) (Nat.le_succ b) (by omega)
    (hempty (b + 1) (by omega) (by omega)) (by omega)
    (.inl ⟨hempty (b + 2) (by omega) (by omega), by omega⟩)
  let u := (action' g4).2.builder.closeWith (.br (b + 2))
  have hu : ((do action'; unlessClosed (emit (.br (b + 2))) : IRGenM Unit) g4).2.builder = u :=
    congrArg builder (unlessClosed_emit _ _)
  rw [hu] at harm'
  have hrun : (emitIf cond action (some action') g).2.builder =
      (u.attach (b + 2)).moveTo (b + 2) := by
    rw [← hu]
    change ((((do action'; unlessClosed (emit (.br (b + 2))) : IRGenM Unit)
      { ((do action; unlessClosed (emit (.br (b + 2))) : IRGenM Unit) g2).2 with
        builder := ((do action; unlessClosed (emit (.br (b + 2))) : IRGenM Unit)
          g2).2.builder.moveTo (b + 1) }).2.builder).attach (b + 2)).moveTo (b + 2) = _
    rw [ht]
  rw [hrun] at hwithin ⊢
  have hu' : u.Within c.setting.machine.code := hwithin
  have ht' : t.Within c.setting.machine.code := hu'.of_grows harm'.grows
  have hs : s.Within c.setting.machine.code := ht'.of_grows harm.grows
  have hend : u.code (b + 2) = [] := by
    rw [harm'.frame (b + 2) (by omega) (by omega)]
    exact hempty _ (by omega) (by omega)
  have hposition : ((u.attach (b + 2)).moveTo (b + 2)).position = 0 :=
    Builder.position_moveTo hend
  rw [hposition]
  refine (hfollows.transfers (hs.of_grows hbranch.grows) state env result callers shared hagrees
    hstands).bind ?_
  rintro x state' - ⟨env', shared', rfl, hagrees', henv, hmem, hv⟩
  have hstands' := hg.kept.stands.later henv hmem hstands
  refine Comparison.Simulates.weaken (simulates_condBr (hs.at (s0.appended _)) hv ?_)
    (Nat.le_succ n)
  have hopen : IsOpen (u.code (b + 2)) := by
    rw [hend]
    exact IsOpen.nil
  by_cases hx : x = 0
  · rw [if_pos hx, if_neg (by simpa using hx)]
    have hnext : t.code (b + 1) = [] := hempty (b + 1) (by omega) (by omega)
    refine (h'.arm rfl hnext hg4 hu' hagrees' hstands').mono ?_
    intro flow state'' config hends
    exact ⟨fun _ => hopen, hends.since henv hmem (hfollows.grows.regs.trans harm.grows.regs)⟩
  · rw [if_neg hx, if_pos (by simpa using hx)]
    refine (h.arm rfl (hbranch.empty b le_rfl) hg2 ht' hagrees' hstands').mono ?_
    intro flow state'' config hends
    exact ⟨fun _ => hopen, hends.since henv hmem hfollows.grows.regs⟩

/-- A loop that needs more rounds than there is fuel keeps the machine busy: each round takes
a step at least. -/
theorem follows_while {cond : IRGenM Operand} {value : Eval (BitVec 32)}
    (hcond : FollowsCondition c n cond value) (h : FollowsStmt c n through action source) :
    FollowsStmt c n true (emitWhile cond action) (loop value source n) := by
  refine ⟨fun entry => flows_emitWhile (hcond.flows entry) (h.flows entry),
    Site.preserves_emitWhile hcond.kept h.kept, ?_⟩
  intro g hg hwithin state env result callers shared hagrees hstands
  let b := g.builder.nextBlock
  have hborn : g.builder.cur < b := hg.writing.born
  let s0 := ((g.builder.newBlock.attach b).newBlock.attach (b + 1)).newBlock.attach (b + 2)
  let s := s0.append (.br b)
  have hbranch : Builder.Branched g.builder.cur g.builder s [b] := by
    apply Builder.Branched.of_append (i := .br b) (t := s0) hg.writing rfl rfl
    · exact Nat.le_add_right b 3
    · exact le_rfl
    · intro d hd
      change d ∈ [b] at hd
      rw [List.mem_singleton.mp hd]
      exact ⟨le_rfl, show b < b + 3 by omega⟩
  have hhead : s.code b = [] := hbranch.empty b le_rfl
  let gc : IRGenerator := { g with builder := s.moveTo b }
  have hgc : c.Emitting gc :=
    ⟨hbranch.tidy.writing (show b < b + 3 by omega) hhead, hg.kept.builder le_rfl⟩
  have hfollows := hcond.follows gc hgc
  let v := (cond gc).1
  let g1 := (cond gc).2
  have hg1 : c.Emitting g1 := hfollows.emitting
  have hflow := (hcond.flows g.builder.cur).flow gc hgc.writing (Nat.lt_add_right 3 hborn)
  have hloop := Builder.Looped.of_branched (i := .condBr v (b + 1) (b + 2)) hg.writing hborn
    hbranch rfl hflow rfl
  let w := g1.builder.append (.condBr v (b + 1) (b + 2))
  have hle : b + 3 ≤ w.nextBlock := hloop.blocks
  let gb : IRGenerator := { g1 with builder := w.moveTo (b + 1) }
  have hgb : c.Emitting gb :=
    ⟨hloop.tidy.writing (show b + 1 < w.nextBlock by omega) (hloop.empty _ (.inl rfl)),
      hg1.kept.builder le_rfl⟩
  have harm := (h.flows g.builder.cur).arm (s := w) (g := gb) b (b + 1) b rfl hloop.tidy
    (by omega) (Nat.le_succ b) (by omega) (hloop.empty _ (.inl rfl)) (by omega)
    (.inr fun hreach => (hloop.reach b le_rfl (by omega)).mpr
      ((hloop.reach (b + 1) (by omega) (by omega)).mp hreach))
  let t := (action gb).2.builder.closeWith (.br b)
  have ht : ((do action; unlessClosed (emit (.br b)) : IRGenM Unit) gb).2.builder = t :=
    congrArg builder (unlessClosed_emit _ _)
  rw [ht] at harm
  have hrun : (emitWhile cond action g).2.builder = t.moveTo (b + 2) := by
    rw [← ht]
    rfl
  rw [hrun] at hwithin ⊢
  have ht' : t.Within c.setting.machine.code := hwithin
  have hw : w.Within c.setting.machine.code := ht'.of_grows harm.grows
  have hg1' : g1.builder.Within c.setting.machine.code := hw.of_grows (.append 0 _ _)
  have hgc' : gc.builder.Within c.setting.machine.code := hg1'.of_grows hfollows.grows
  have hs : s.Within c.setting.machine.code := hgc'
  have hend : t.code (b + 2) = [] := by
    rw [harm.frame (b + 2) (by omega) (by omega)]
    exact hloop.empty _ (.inr rfl)
  have hposition : (t.moveTo (b + 2)).position = 0 := Builder.position_moveTo hend
  have hopen : IsOpen (t.code (b + 2)) := by
    rw [hend]
    exact IsOpen.nil
  have hrounds : ∀ m, m ≤ n → ∀ state env shared, c.setting.Agrees state shared →
      c.Stands env shared.mem →
      c.comparison.Simulates m (.running ⟨b, 0, env, result⟩ callers shared)
        (loop value source m state)
        (c.Ends g.builder.nextReg env shared.mem result callers (b + 2) 0) := by
    intro m
    induction m with
    | zero =>
        intro _ state env shared hagrees _
        exact ⟨0, _, _, _, le_rfl, rfl, hagrees⟩
    | succ m ih =>
        intro hm state env shared hagrees hstands
        have htransfers := hfollows.transfers hg1' state env result callers shared hagrees hstands
        rw [show gc.builder.position = 0 from Builder.position_moveTo hhead] at htransfers
        refine (htransfers.weaken hm).bind ?_
        rintro x state' - ⟨env', shared', rfl, hagrees', henv, hmem, hv⟩
        have hstands' := hg.kept.stands.later henv hmem hstands
        refine simulates_condBr (hw.at (g1.builder.appended _)) hv ?_
        by_cases hx : x = 0
        · rw [if_pos hx, if_neg (by simpa using hx)]
          exact .done ⟨env', shared', rfl, hagrees', henv, hmem, trivial⟩
        · rw [if_neg hx, if_pos (by simpa using hx)]
          have hround : c.comparison.Simulates n
              (.running ⟨b + 1, 0, env', result⟩ callers shared') (source state')
              (c.Ends w.nextReg env' shared'.mem result callers b 0) :=
            h.arm rfl (hloop.empty _ (.inl rfl)) hgb ht' hagrees' hstands'
          refine (hround.weaken (Nat.le_of_succ_le hm)).bind ?_
          intro flow state'' config hends
          have hends' := hends.since henv hmem hfollows.grows.regs
          cases flow with
          | returns y => exact .done hends'
          | goesOn =>
              obtain ⟨env'', shared'', rfl, hagrees'', henv', hmem', -⟩ := hends'
              have hstands'' := hg.kept.stands.later henv' hmem' hstands
              refine (ih (Nat.le_of_succ_le hm) state'' env'' shared'' hagrees'' hstands'').mono ?_
              intro flow state3 config hends
              exact hends.since henv' hmem' le_rfl
  refine Comparison.Simulates.weaken (simulates_br (hs.at (s0.appended _)) ?_) (Nat.le_succ n)
  refine (hrounds n le_rfl state env shared hagrees hstands).mono ?_
  intro flow state' config hends
  rw [hposition]
  exact ⟨fun _ => hopen, hends⟩

end stmt

/-! The statements of the language. -/

theorem eval_bind_pure {α : Type} (source : Eval α) : source >>= pure = source := by
  funext s
  change (source s).bind Outcome.done = source s
  cases source s <;> rfl

section lang

variable {c : Site} {n : Nat}

theorem follows_emitCondition (hc : c.Proper) {call : Symbol → List Arg → Eval (BitVec 32)}
    (hcall : c.Calls n call) {e : Expr} (he : e.Resolved c.visible) (hint : e.type = .int) :
    FollowsCondition c n (emitCondition c.setting.options e) (evalExpr call c.activation e) := by
  refine ⟨fun entry => flows_emitCondition _ e,
    (Site.preserves_emitExpr hc _ e he).bind fun _ => Site.preserves_foldOr _ _, ?_⟩
  intro g hg
  have hP := hg.kept.stands
  have hvalue := follows_int hc hcall e he hint c.Stands g hg hP fun _ _ h => h
  have hfollows : Follows c n c.Stands (emitCondition c.setting.options e)
      (evalExpr call c.activation e >>= pure) g (fun v n => v.Below n) fun v x =>
        Denotes v (.i1 (x != 0)) := by
    refine hvalue.bind hP ?_
    intro v g' hg' _ _ x
    exact follows_createICmp (y := 0) hg' .ne (fun env mem h => h.2) (fun env mem _ => rfl)
      fun _ _ _ h => h
  rwa [eval_bind_pure] at hfollows

/-- Entering a block only forgets values. -/
theorem forgetAll_agrees {shared : Shared Store World} (a : Activation) (decls : List VarDecl)
    {state : State} (h : c.setting.Agrees state shared) :
    ∃ state', forgetAll a decls state = .done () state' ∧ c.setting.Agrees state' shared := by
  induction decls generalizing state with
  | nil => exact ⟨state, rfl, h⟩
  | cons decl decls ih =>
      cases hsymbol : decl.symbol with
      | none =>
          obtain ⟨state', hrun, hagrees⟩ := ih h
          refine ⟨state', ?_, hagrees⟩
          unfold forgetAll
          simp only [hsymbol]
          exact hrun
      | some symbol =>
          obtain ⟨state', hrun, hagrees⟩ := ih (h.forget (a.variable symbol))
          refine ⟨state', ?_, hagrees⟩
          unfold forgetAll
          simp only [hsymbol]
          exact hrun

theorem follows_block {through : Bool} {action : IRGenM Unit} {source : Eval Flow}
    (h : FollowsStmt c n through action source) (a : Activation) (decls : List VarDecl) :
    FollowsStmt c n through action (forgetAll a decls >>= fun _ => source) := by
  refine ⟨h.flows, h.kept, ?_⟩
  intro g hg hwithin state env result callers shared hagrees hstands
  obtain ⟨state', hrun, hagrees'⟩ := forgetAll_agrees a decls hagrees
  have hstart : (forgetAll a decls >>= fun _ => source) state = source state' := by
    change (forgetAll a decls state).bind _ = _
    rw [hrun]
    rfl
  rw [hstart]
  exact h.simulates g hg hwithin state' env result callers shared hagrees' hstands

/-- Nothing is said of the bare name of an array. -/
theorem follows_bare {through : Bool} {action : IRGenM Unit} (f : Fault)
    (hflows : ∀ entry, Flows entry through action) (hkept : c.Preserves action) :
    FollowsStmt c n through action (fault f) :=
  ⟨hflows, hkept, fun _ _ _ _ _ _ _ _ _ _ hmirror => absurd hmirror id⟩

open SemanticAnalyzer

mutual

theorem follows_emitStmt (hc : c.Proper) {call : Symbol → List Arg → Eval (BitVec 32)}
    (hcall : c.Calls n call) {returnType : CType}
    (hreturns : returnType ≠ .void → c.returnType ≠ .void) :
    ∀ stmt : Stmt, stmt.Resolved c.visible returnType →
      FollowsStmt c n (!alwaysReturns stmt) (emitStmt c.setting.options stmt)
        (evalStmt call c.activation n stmt)
  | .compound _ decls stmts, h => by
      unfold emitStmt evalStmt alwaysReturns
      exact follows_block (follows_emitCompound hc hcall hreturns stmts h) c.activation decls
  | .expr _ none, _ => by
      unfold emitStmt evalStmt alwaysReturns
      exact follows_skip
  | .expr _ (some e), h => by
      have hflows : ∀ entry, Flows entry true (emitExpr c.setting.options e) :=
        fun entry => flows_emitExpr c.setting.options e
      have hkept := Site.preserves_emitExpr hc c.setting.options e h
      unfold emitStmt evalStmt alwaysReturns
      by_cases htype : e.type = .intArray
      · obtain ⟨head, symbol, rfl, -, -⟩ := bare_of_array hc.scene h htype
        change head.info.type = .intArray at htype
        unfold evalExpr
        rw [if_pos htype]
        exact follows_bare .malformed (fun entry => (hflows entry).bind fun _ => flows_pure ())
          (hkept.bind fun _ => Site.preserves_pure ())
      · exact follows_exprStmt hflows hkept (follows_emitExpr hc hcall e h htype)
  | .ifs _ cond thenStmt none, h => by
      obtain ⟨⟨hcond, hint⟩, hthen⟩ := h
      unfold emitStmt evalStmt alwaysReturns
      exact follows_if (follows_emitCondition hc hcall hcond hint)
        (follows_emitStmt hc hcall hreturns thenStmt hthen)
  | .ifs _ cond thenStmt (some elseStmt), h => by
      obtain ⟨⟨hcond, hint⟩, hthen, helse⟩ := h
      unfold emitStmt evalStmt alwaysReturns
      rw [Bool.not_and]
      exact follows_ifElse (follows_emitCondition hc hcall hcond hint)
        (follows_emitStmt hc hcall hreturns thenStmt hthen)
        (follows_emitStmt hc hcall hreturns elseStmt helse)
  | .whiles _ cond body, h => by
      obtain ⟨⟨hcond, hint⟩, hbody⟩ := h
      unfold emitStmt evalStmt alwaysReturns
      exact follows_while (follows_emitCondition hc hcall hcond hint)
        (follows_emitStmt hc hcall hreturns body hbody)
  | .ret _ none, _ => by
      unfold emitStmt evalStmt alwaysReturns
      exact follows_return
  | .ret _ (some value), h => by
      obtain ⟨hvoid, hvalue, hint⟩ := h
      unfold emitStmt evalStmt alwaysReturns
      exact follows_returnValue (fun entry => flows_emitExpr _ value)
        (Site.preserves_emitExpr hc _ value hvalue) (hreturns hvoid)
        (follows_int hc hcall value hvalue hint)

theorem follows_emitCompound (hc : c.Proper) {call : Symbol → List Arg → Eval (BitVec 32)}
    (hcall : c.Calls n call) {returnType : CType}
    (hreturns : returnType ≠ .void → c.returnType ≠ .void) :
    ∀ stmts : List Stmt, ResolvedStmts c.visible returnType stmts →
      FollowsStmt c n (!alwaysReturnsSome stmts) (emitCompound c.setting.options stmts)
        (evalStmts call c.activation n stmts)
  | [], _ => by
      unfold emitCompound evalStmts alwaysReturnsSome
      exact follows_skip
  | stmt :: stmts, ⟨hstmt, hstmts⟩ => by
      unfold emitCompound evalStmts alwaysReturnsSome
      rw [Bool.not_or]
      exact follows_afterwards (follows_emitStmt hc hcall hreturns stmt hstmt)
        (follows_emitCompound hc hcall hreturns stmts hstmts)

end

end lang

end IRGenerator

end CMinus
