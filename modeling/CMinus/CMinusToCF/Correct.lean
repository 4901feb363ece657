import CMinus.CMinusToCF.Lowering

namespace CMinus

namespace CMinusToCF

open SSA MLIR Structured

/-! A rewrite is correct if it keeps the forms and if the module afterwards follows the
module before. -/

structure Correct (r r' : PatternRewriter) : Prop where
  valid : r'.Valid
  regs : r.nextReg ≤ r'.nextReg
  entry : ∀ {M W : Type} (memory : MemOps M)
    (runtime : String → List Value → W → Option (Reply W)),
    (r'.module.machine memory runtime).entry = (r.module.machine memory runtime).entry
  lowers : ∀ {M W : Type} (memory : MemOps M)
    (runtime : String → List Value → W → Option (Reply W)) (bound : Nat), bound ≤ r.nextReg →
    ∃ σ, Lowers r.nextReg r.Known σ bound (r.module.machine memory runtime)
      (r'.module.machine memory runtime)

variable {r : PatternRewriter} {block : Nat} {before rest : List Op} {n : Nat}
  {known : Nat → Prop}

/-! What the check is made of. -/

theorem compared_inner {index : Operand} (hindex : ∀ q ∈ index.regs, q < n + 2) :
    ∀ op ∈ [Op.constant n 0, Op.cmpi (n + 1) .slt index (.reg n)], Inner (n + 2) op := by
  intro op hop
  rcases List.mem_cons.mp hop with rfl | hop
  · apply Inner.straight
    · rfl
    · rfl
    · constructor
      · exact nofun
      · intro q hq
        cases hq
        omega
  · rw [List.mem_singleton.mp hop]
    apply Inner.straight
    · rfl
    · rfl
    · constructor
      · intro v hv
        rcases List.mem_cons.mp hv with rfl | hv
        · exact hindex
        · rw [List.mem_singleton.mp hv]
          intro q hq
          rw [List.mem_singleton.mp hq]
          omega
      · intro q hq
        cases hq
        omega

theorem report_block {index : Operand} (hindex : ∀ q ∈ index.regs, q < n) :
    Block n known [.call none kIndexErrorName [index], .unreachable] := by
  refine ⟨[.call none kIndexErrorName [index]], .unreachable, rfl, ?_, .flat _ rfl rfl nofun
    ⟨nofun, nofun⟩⟩
  intro op hop
  rw [List.mem_singleton.mp hop]
  apply Inner.straight
  · rfl
  · rfl
  · refine ⟨?_, nofun⟩
    intro v hv
    rw [List.mem_singleton.mp hv]
    exact hindex

/-- The parts of a region that was inlined: its end is a branch now. -/
def ArmEnds (n : Nat) (region : Pending) (dest : Nat) (region' : Pending) (last last' : Op) :
    Prop :=
  region' = region ∧ ArmEnd n last ∧ last' = armEnd last dest

theorem perform_branch {M : Type} (cond : Option Value) (ifTrue ifFalse : Effect M) :
    Move.perform [] (branch cond ifTrue ifFalse) =
      branchOn cond fun b => .perform [] (if b then ifTrue else ifFalse) := by
  cases cond with
  | none => rfl
  | some v => cases v <;> rfl

section

variable {bound : Nat} {σ : Site} {M W : Type} {m m' : Machine Op M W} {env env' : Env}
  {callers callers' : List Structured.Frame}
  (hmatches : Matches n known σ m m') (henv : EnvAgrees n env env')
  (hcallers : List.Forall₂ (Frames n known σ) callers callers')
include hmatches henv hcallers

/-- The end of an arm, where its yield leads both sides to the same place. -/
theorem armEnds_answers (result : Option Nat) (shared : Shared M W) {last : Op}
    (hlast : ArmEnd n last) {region : Pending} {dest : Nat} {rest : List Op}
    {pending : List Pending}
    (hyield : move m.memory .yield [] [region] env shared.mem = .goOn rest pending)
    (hstacks : Stacks n known σ rest pending (m'.code dest) []) :
    Answers n known σ bound m m' (.running ⟨[last], [region], env, result⟩ callers shared)
      (.running ⟨[armEnd last dest], [], env', result⟩ callers' shared) := by
  cases hlast with
  | leave value below => exact hmatches.leaving hcallers shared result henv below _ _
  | yield =>
      apply answers_step
      · rfl
      · change Configs n known σ (follow m _ callers shared (move m.memory .yield [] _ env _)) _
        rw [hyield]
        exact .running (hstacks.frames henv result) hcallers shared

omit hmatches in
/-- A branch to two regions, against `cf.cond_br` to where they have gone. -/
theorem condBr_answers (result : Option Nat) (shared : Shared M W) {op : Op}
    {rest : List Op} {pending : List Pending} {cond : Operand}
    (hcond : ∀ q ∈ cond.regs, q < n) {go : Bool → Move M}
    (hmove : move m.memory op rest pending env shared.mem = branchOn (cond.eval env) go)
    (hperformed : performed bound op env = []) {ifTrue ifFalse : Nat}
    {trueRest falseRest : List Op} {truePending falsePending : List Pending}
    (htrue : go true = .goOn trueRest truePending) (hfalse : go false = .goOn falseRest falsePending)
    (htrueStacks : Stacks n known σ trueRest truePending (m'.code ifTrue) [])
    (hfalseStacks : Stacks n known σ falseRest falsePending (m'.code ifFalse) []) :
    Answers n known σ bound m m' (.running ⟨op :: rest, pending, env, result⟩ callers shared)
      (.running ⟨[.condBr cond ifTrue ifFalse], [], env', result⟩ callers' shared) := by
  apply answers_step
  · exact hperformed.symm
  · change Configs n known σ (follow m _ callers shared (move m.memory op rest pending env _))
      (follow m' _ callers' shared
        (.perform [] (branch (cond.eval env') (.jump ifTrue) (.jump ifFalse))))
    rw [hmove, perform_branch]
    apply branchOn_configs henv hcond
    intro b
    cases b with
    | true =>
        rw [htrue]
        exact .running (htrueStacks.frames henv result) hcallers shared
    | false =>
        rw [hfalse]
        exact .running (hfalseStacks.frames henv result) hcallers shared

/-- The check is the comparison with zero, the branch on it, and the report. -/
theorem check_answers (result : Option Nat) (shared : Shared M W) (hbound : bound ≤ n)
    {index : Operand} (hindex : ∀ q ∈ index.regs, q < n) {rest : List Op} {fail ok : Nat}
    (hfail : m'.code fail = [.call none kIndexErrorName [index], .unreachable])
    (hok : Stacks n known σ rest [] (m'.code ok) []) :
    Answers n known σ bound m m' (.running ⟨.indexCheck index :: rest, [], env, result⟩ callers shared)
      (.running ⟨[.constant n 0, .cmpi (n + 1) .slt index (.reg n),
        .condBr (.reg (n + 1)) fail ok], [], env', result⟩ callers' shared) := by
  let S' := Structured.system bound m'
  let compared := env'.set n (.i32 0)
  let compare : Structured.Config M W := .running ⟨[.cmpi (n + 1) .slt index (.reg n),
    .condBr (.reg (n + 1)) fail ok], [], compared, result⟩ callers' shared
  let check : Structured.Config M W := .running ⟨[.constant n 0, .cmpi (n + 1) .slt index (.reg n),
    .condBr (.reg (n + 1)) fail ok], [], env', result⟩ callers' shared
  have hcompared : EnvAgrees n env compared := henv.fresh le_rfl _
  -- neither the constant nor the comparison is seen
  have hhidden : ∀ k, S'.trace (k + 2) check = S'.trace k (S'.step compare) := by
    intro k
    have hconstant : performed bound (.constant n 0) env' = [] := by
      simp [performed, Op.defines, hbound]
    have hcompare : performed bound (.cmpi (n + 1) .slt index (.reg n)) compared = [] := by
      simp [performed, Op.defines, Nat.le_succ_of_le hbound]
    change performed bound (.constant n 0) env' ++
      (performed bound (.cmpi (n + 1) .slt index (.reg n)) compared ++ _) = _
    rw [hconstant, hcompare]
    rfl
  have hcompute : S'.step compare = Structured.perform m'
      ⟨[.condBr (.reg (n + 1)) fail ok], [], compared, result⟩ callers' shared
      (IR.compute compared shared.mem (n + 1)
        ((index.eval env).bind fun v => some (Compare.slt.eval v (.i32 0)))) := by
    rw [← hcompared.eval hindex]
    change Structured.perform m' _ callers' shared (IR.compute compared shared.mem (n + 1)
      ((index.eval compared).bind fun v => (compared.regs n).bind fun w => some (Compare.slt.eval v w)))
      = _
    rw [Env.set_regs_self]
    rfl
  let branching := fun w : Value => (Structured.Config.running ⟨[.condBr (.reg (n + 1)) fail ok],
    [], compared.set (n + 1) w, result⟩ callers' shared : Structured.Config M W)
  have hbranch : ∀ w, S'.step (branching w) = Structured.perform m'
      ⟨[], [], compared.set (n + 1) w, result⟩ callers' shared
      (branch (some w) (.jump fail) (.jump ok)) := by
    intro w
    change Structured.perform m' _ callers' shared (branch ((compared.set (n + 1) w).regs (n + 1))
      (.jump fail) (.jump ok)) = _
    rw [Env.set_regs_self]
  have hbranched : ∀ w, EnvAgrees n env (compared.set (n + 1) w) :=
    fun w => hcompared.fresh (Nat.le_succ n) w
  have hstep : Structured.step m (.running ⟨.indexCheck index :: rest, [], env, result⟩ callers
      shared) = follow m ⟨.indexCheck index :: rest, [], env, result⟩ callers shared
        (checkIndex (index.eval env) rest []) := rfl
  have hobserve : (Structured.system bound m).observe (.running ⟨.indexCheck index :: rest, [],
      env, result⟩ callers shared) = reported index (index.eval env) := rfl
  unfold Answers
  rw [hstep, hobserve]
  cases hindexed : index.eval env with
  | none =>
      rw [hindexed] at hcompute
      refine ⟨2, Nat.two_pos, hhidden 0, ?_⟩
      change Configs n known σ _ (S'.step compare)
      rw [hcompute]
      exact .stopped _ shared
  | some v =>
      rw [hindexed] at hcompute
      cases v with
      | i1 | index | ptr =>
          refine ⟨2, Nat.two_pos, hhidden 0, ?_⟩
          change Configs n known σ _ (S'.step compare)
          rw [hcompute]
          exact .stopped _ shared
      | poison =>
          have hpoison : S'.step compare = branching .poison := hcompute
          refine ⟨3, by omega, ?_, ?_⟩
          · rw [hhidden 1, hpoison]
            rfl
          · change Configs n known σ _ (S'.step (S'.step compare))
            rw [hpoison, hbranch]
            exact .stopped _ shared
      | i32 w =>
          have hsign : S'.step compare = branching (.i1 (w.slt 0)) := hcompute
          cases hnegative : w.slt 0 with
          | false =>
              rw [hnegative] at hsign
              refine ⟨3, by omega, ?_, ?_⟩
              · rw [hhidden 1, hsign]
                change [] = if w.slt 0 then _ else []
                rw [hnegative]
                rfl
              · change Configs n known σ (follow m _ callers shared (if w.slt 0 then _ else _))
                  (S'.step (S'.step compare))
                rw [hsign, hbranch, hnegative]
                exact .running (hok.frames (hbranched _) result) hcallers shared
          | true =>
              rw [hnegative] at hsign
              let env'' := compared.set (n + 1) (.i1 true)
              let report : Structured.Config M W := .running ⟨[.call none kIndexErrorName [index],
                .unreachable], [], env'', result⟩ callers' shared
              have hreport : S'.step (branching (.i1 true)) = report := by
                rw [hbranch]
                change Structured.Config.running ⟨m'.code fail, [], env'', result⟩ callers' shared = _
                rw [hfail]
              have heval : index.eval env'' = some (.i32 w) :=
                ((hbranched _).eval hindex).trans hindexed
              have hcall : S'.step report = Structured.enter m' none kIndexErrorName [.i32 w]
                  ⟨[.unreachable], [], env'', result⟩ callers' shared := by
                have hexec : exec m'.memory (.call none kIndexErrorName [index]) env'' shared.mem =
                    .call none kIndexErrorName [.i32 w] := by
                  simp [exec, heval]
                change Structured.perform m' _ callers' shared (exec m'.memory
                  (.call none kIndexErrorName [index]) env'' shared.mem) = _
                rw [hexec]
                rfl
              have hdead : Stacks n known σ [.unreachable] [] [.unreachable] [] := .dead [] []
              refine ⟨4, by omega, ?_, ?_⟩
              · rw [hhidden 2, hsign]
                change S'.observe (branching (.i1 true)) ++
                  (S'.observe (S'.step (branching (.i1 true))) ++ []) = _
                rw [hreport]
                have hreported : S'.observe report =
                    [⟨.call none kIndexErrorName [index], [index.eval env'']⟩] := rfl
                rw [hreported, heval, reported, hnegative]
                rfl
              · change Configs n known σ (follow m _ callers shared (if w.slt 0 then _ else _))
                  (S'.step (S'.step (S'.step compare)))
                rw [hsign, hreport, hcall, hnegative]
                exact hmatches.enter hcallers shared (hdead.frames (hbranched _) result) _ _ _

end

section

variable (hvalid : r.Valid) (hknown : r.Known block)
include hvalid hknown

theorem ifThen_correct {cond : Operand} {thenRegion : List Op}
    (hcode : r.code block = before ++ .ifs cond thenRegion none :: rest) :
    Correct r (ifLowering block before.length cond thenRegion none r).2 := by
  obtain ⟨hrewrites, hregs, hcode', hcont, hthen⟩ :=
    ifThen_rewrites hcode (hvalid.known_lt hknown) cond thenRegion
  have hblock := hvalid.known_block hknown
  rw [hcode] at hblock
  obtain ⟨hop, hrest⟩ := hblock.inside rfl
  cases hop with
  | straight _ inside flat => cases flat
  | ifThen _ thenOps thenEnd below thenInner thenEnds =>
      have hcond := below.operands cond (List.mem_singleton_self _)
      rw [branchInsteadOfYield_append thenOps thenEnds] at hthen
      constructor
      · apply hrewrites.valid hvalid
        intro known hblock hnew
        rw [hcode] at hblock
        have hcontKnown : known r.nextBlock := hnew _ (by simp)
        rw [hregs, hcode']
        constructor
        · exact ⟨before, _, rfl, hblock.parts.1, condBr_block hcond (hnew _ (by simp)) hcontKnown⟩
        · intro b hb
          rcases List.mem_cons.mp hb with rfl | hb
          · rw [hthen]
            exact ⟨thenOps, _, rfl, thenInner, armEnd_block thenEnds hcontKnown⟩
          · rw [List.mem_singleton.mp hb, hcont]
            exact (hblock.inside rfl).2
      · exact hregs.ge
      · exact hrewrites.entry hvalid
      · intro M W memory runtime bound hbound
        let σ : Site :=
          { occ := .ifs cond (thenOps ++ [thenEnd]) none :: rest
            occ' := [.condBr cond (r.nextBlock + 1) r.nextBlock]
            Ends := ArmEnds r.nextReg (.after rest) r.nextBlock }
        have hmatches := hrewrites.matching hvalid memory runtime
          (show r.code block = before ++ σ.occ from hcode) hcode'
          hblock.parts.1
        have hjoin : Stacks r.nextReg r.Known σ rest []
            ((ifLowering block before.length cond (thenOps ++ [thenEnd]) none r).2.code
              r.nextBlock) [] := by
          rw [hcont]
          exact .same hrest
        refine ⟨σ, hmatches, ?_, ?_⟩
        · intro env env' result callers callers' shared henv hcallers
          have harm : Stacks r.nextReg r.Known σ (thenOps ++ [thenEnd]) [.after rest]
              ((ifLowering block before.length cond (thenOps ++ [thenEnd]) none r).2.code
                (r.nextBlock + 1)) [] := by
            rw [hthen]
            exact .arm thenOps thenInner ⟨rfl, thenEnds, rfl⟩
          exact condBr_answers henv hcallers result shared hcond rfl rfl rfl rfl harm hjoin
        · intro region last last' env env' result callers callers' shared hends henv hcallers
          obtain ⟨rfl, hlast, rfl⟩ := hends
          exact armEnds_answers hmatches henv hcallers result shared hlast rfl hjoin

theorem ifElse_correct {cond : Operand} {thenRegion elseRegion : List Op}
    (hcode : r.code block = before ++ .ifs cond thenRegion (some elseRegion) :: rest) :
    Correct r (ifLowering block before.length cond thenRegion (some elseRegion) r).2 := by
  obtain ⟨hrewrites, hregs, hcode', hcont, hthen, helse⟩ :=
    ifElse_rewrites hcode (hvalid.known_lt hknown) cond thenRegion elseRegion
  have hblock := hvalid.known_block hknown
  rw [hcode] at hblock
  obtain ⟨hop, hrest⟩ := hblock.inside rfl
  cases hop with
  | straight _ inside flat => cases flat
  | ifElse _ thenOps elseOps thenEnd elseEnd below thenInner thenEnds elseInner elseEnds =>
      have hcond := below.operands cond (List.mem_singleton_self _)
      rw [branchInsteadOfYield_append thenOps thenEnds] at hthen
      rw [branchInsteadOfYield_append elseOps elseEnds] at helse
      constructor
      · apply hrewrites.valid hvalid
        intro known hblock hnew
        rw [hcode] at hblock
        have hcontKnown : known r.nextBlock := hnew _ (by simp)
        rw [hregs, hcode']
        constructor
        · exact ⟨before, _, rfl, hblock.parts.1,
            condBr_block hcond (hnew _ (by simp)) (hnew _ (by simp))⟩
        · intro b hb
          simp only [List.mem_cons, List.not_mem_nil, or_false] at hb
          rcases hb with rfl | rfl | rfl
          · rw [helse]
            exact ⟨elseOps, _, rfl, elseInner, armEnd_block elseEnds hcontKnown⟩
          · rw [hthen]
            exact ⟨thenOps, _, rfl, thenInner, armEnd_block thenEnds hcontKnown⟩
          · rw [hcont]
            exact (hblock.inside rfl).2
      · exact hregs.ge
      · exact hrewrites.entry hvalid
      · intro M W memory runtime bound hbound
        let σ : Site :=
          { occ := .ifs cond (thenOps ++ [thenEnd]) (some (elseOps ++ [elseEnd])) :: rest
            occ' := [.condBr cond (r.nextBlock + 1) (r.nextBlock + 2)]
            Ends := ArmEnds r.nextReg (.after rest) r.nextBlock }
        have hmatches := hrewrites.matching hvalid memory runtime
          (show r.code block = before ++ σ.occ from hcode) hcode'
          hblock.parts.1
        let r' := (ifLowering block before.length cond (thenOps ++ [thenEnd])
          (some (elseOps ++ [elseEnd])) r).2
        have hjoin : Stacks r.nextReg r.Known σ rest [] (r'.code r.nextBlock) [] := by
          rw [hcont]
          exact .same hrest
        have hthenArm : Stacks r.nextReg r.Known σ (thenOps ++ [thenEnd]) [.after rest]
            (r'.code (r.nextBlock + 1)) [] := by
          rw [hthen]
          exact .arm thenOps thenInner ⟨rfl, thenEnds, rfl⟩
        have helseArm : Stacks r.nextReg r.Known σ (elseOps ++ [elseEnd]) [.after rest]
            (r'.code (r.nextBlock + 2)) [] := by
          rw [helse]
          exact .arm elseOps elseInner ⟨rfl, elseEnds, rfl⟩
        refine ⟨σ, hmatches, ?_, ?_⟩
        · intro env env' result callers callers' shared henv hcallers
          exact condBr_answers henv hcallers result shared hcond rfl rfl rfl rfl hthenArm helseArm
        · intro region last last' env env' result callers callers' shared hends henv hcallers
          obtain ⟨rfl, hlast, rfl⟩ := hends
          exact armEnds_answers hmatches henv hcallers result shared hlast rfl hjoin

/-- The ends of the two regions of a loop. -/
def LoopEnds (n : Nat) (condRegion bodyRegion rest : List Op) (head : Nat) (value : Operand)
    (body cont : Nat) (region : Pending) (last last' : Op) : Prop :=
  (region = .loop condRegion bodyRegion rest ∧ last = .condition value ∧
    last' = .condBr value body cont) ∨
  ArmEnds n (.loop condRegion bodyRegion rest) head region last last'

theorem while_correct {condRegion bodyRegion : List Op} {value : Operand}
    (hcode : r.code block = before ++ .whiles condRegion bodyRegion :: rest)
    (hlast : condRegion.getLast? = some (.condition value)) :
    Correct r (whileLowering block before.length condRegion bodyRegion value r).2 := by
  obtain ⟨hrewrites, hregs, hcode', hcont, hcond, hbody⟩ :=
    while_rewrites hcode (hvalid.known_lt hknown) condRegion bodyRegion value
  have hblock := hvalid.known_block hknown
  rw [hcode] at hblock
  obtain ⟨hop, hrest⟩ := hblock.inside rfl
  cases hop with
  | straight _ inside flat => cases flat
  | whiles value' condOps bodyOps bodyEnd below condInner bodyInner bodyEnds =>
      rw [List.getLast?_concat] at hlast
      obtain rfl : value' = value := by simpa using hlast
      have hvalue := below.operands value' (List.mem_singleton_self _)
      rw [List.dropLast_concat] at hcond
      rw [branchInsteadOfYield_append bodyOps bodyEnds] at hbody
      constructor
      · apply hrewrites.valid hvalid
        intro known hblock hnew
        rw [hcode] at hblock
        have hheadKnown : known (r.nextBlock + 1) := hnew _ (by simp)
        rw [hregs, hcode']
        constructor
        · exact ⟨before, _, rfl, hblock.parts.1, armEnd_block .yield hheadKnown⟩
        · intro b hb
          simp only [List.mem_cons, List.not_mem_nil, or_false] at hb
          rcases hb with rfl | rfl | rfl
          · rw [hbody]
            exact ⟨bodyOps, _, rfl, bodyInner, armEnd_block bodyEnds hheadKnown⟩
          · rw [hcond]
            exact ⟨condOps, _, rfl, condInner,
              condBr_block hvalue (hnew _ (by simp)) (hnew _ (by simp))⟩
          · rw [hcont]
            exact (hblock.inside rfl).2
      · exact hregs.ge
      · exact hrewrites.entry hvalid
      · intro M W memory runtime bound hbound
        let region : Pending :=
          .loop (condOps ++ [.condition value']) (bodyOps ++ [bodyEnd]) rest
        let σ : Site :=
          { occ := .whiles (condOps ++ [.condition value']) (bodyOps ++ [bodyEnd]) :: rest
            occ' := [.br (r.nextBlock + 1)]
            Ends := LoopEnds r.nextReg (condOps ++ [.condition value']) (bodyOps ++ [bodyEnd])
              rest (r.nextBlock + 1) value' (r.nextBlock + 2) r.nextBlock }
        have hmatches := hrewrites.matching hvalid memory runtime
          (show r.code block = before ++ σ.occ from hcode) hcode'
          hblock.parts.1
        let r' := (whileLowering block before.length (condOps ++ [.condition value'])
          (bodyOps ++ [bodyEnd]) value' r).2
        have hjoin : Stacks r.nextReg r.Known σ rest [] (r'.code r.nextBlock) [] := by
          rw [hcont]
          exact .same hrest
        have hcondArm : Stacks r.nextReg r.Known σ (condOps ++ [.condition value']) [region]
            (r'.code (r.nextBlock + 1)) [] := by
          rw [hcond]
          exact .arm condOps condInner (.inl ⟨rfl, rfl, rfl⟩)
        have hbodyArm : Stacks r.nextReg r.Known σ (bodyOps ++ [bodyEnd]) [region]
            (r'.code (r.nextBlock + 2)) [] := by
          rw [hbody]
          exact .arm bodyOps bodyInner (.inr ⟨rfl, bodyEnds, rfl⟩)
        refine ⟨σ, hmatches, ?_, ?_⟩
        · intro env env' result callers callers' shared henv hcallers
          apply answers_step
          · rfl
          · exact .running (hcondArm.frames henv result) hcallers shared
        · intro region' last last' env env' result callers callers' shared hends henv hcallers
          rcases hends with ⟨rfl, rfl, rfl⟩ | ⟨rfl, hend, rfl⟩
          · exact condBr_answers henv hcallers result shared hvalue rfl rfl rfl rfl hbodyArm hjoin
          · exact armEnds_answers hmatches henv hcallers result shared hend rfl hcondArm

theorem return_correct {value : Option Operand}
    (hcode : r.code block = before ++ .cminusReturn value :: rest) :
    Correct r (returnLowering block before.length value r).2 := by
  obtain ⟨hrewrites, hregs, hcode'⟩ := return_rewrites hcode value
  have hblock := hvalid.known_block hknown
  rw [hcode] at hblock
  obtain ⟨hbefore, hparts⟩ := hblock.parts
  rcases hparts with ⟨hinner, -⟩ | ⟨hend, rfl⟩
  · cases hinner with
    | straight _ inside => cases inside
  have hbelow : Below r.nextReg (.cminusReturn value) := by
    cases hend with
    | leave _ below => exact below
    | flat _ _ plain => cases plain
  constructor
  · apply hrewrites.valid hvalid
    intro known hblock _
    rw [hregs, hcode']
    constructor
    · exact ⟨before, _, rfl, hbefore, .flat _ rfl rfl nofun hbelow.ret⟩
    · exact nofun
  · exact hregs.ge
  · exact hrewrites.entry hvalid
  · intro M W memory runtime bound hbound
    let σ : Site := { occ := [.cminusReturn value], occ' := [.ret value], Ends := fun _ _ _ => False }
    have hmatches := hrewrites.matching hvalid memory runtime
          (show r.code block = before ++ σ.occ from hcode) hcode' hbefore
    refine ⟨σ, hmatches, ?_, ?_⟩
    · intro env env' result callers callers' shared henv hcallers
      exact hmatches.returning hcallers shared result henv hbelow [] [] (.inr rfl)
    · intro region last last' env env' result callers callers' shared hends
      cases hends

theorem indexCheck_correct {index : Operand}
    (hcode : r.code block = before ++ .indexCheck index :: rest) :
    Correct r (indexCheckLowering block before.length index r).2 := by
  obtain ⟨hrewrites, hregs, hcode', hok, hfail⟩ :=
    indexCheck_rewrites hcode (hvalid.known_lt hknown) index
  have hblock := hvalid.known_block hknown
  rw [hcode] at hblock
  obtain ⟨hop, hrest⟩ := hblock.inside rfl
  cases hop with
  | straight _ inside flat => cases flat
  | indexCheck _ below =>
      have hindex := below.operands index (List.mem_singleton_self _)
      let r' := (indexCheckLowering block before.length index r).2
      constructor
      · apply hrewrites.valid hvalid
        intro known hblock hnew
        rw [hcode] at hblock
        have hlater : ∀ q ∈ index.regs, q < r.nextReg + 2 := fun q hq =>
          (hindex q hq).trans_le (Nat.le_add_right _ 2)
        have hfailKnown : known (r.nextBlock + 1) := hnew _ (by simp)
        have hokKnown : known r.nextBlock := hnew _ (by simp)
        rw [hregs, hcode']
        constructor
        · refine ⟨before ++ [.constant r.nextReg 0, .cmpi (r.nextReg + 1) .slt index
            (.reg r.nextReg)], .condBr (.reg (r.nextReg + 1)) (r.nextBlock + 1) r.nextBlock, ?_, ?_,
            condBr_block ?_ hfailKnown hokKnown⟩
          · rw [List.append_assoc]
            rfl
          · intro op hop
            rcases List.mem_append.mp hop with hop | hop
            · exact (hblock.parts.1 op hop).mono (Nat.le_add_right _ 2)
            · exact compared_inner hlater op hop
          · intro q hq
            rw [List.mem_singleton.mp hq]
            exact Nat.lt_succ_self _
        · intro b hb
          rcases List.mem_cons.mp hb with rfl | hb
          · rw [hfail]
            exact report_block hlater
          · rw [List.mem_singleton.mp hb, hok]
            exact ((hblock.inside rfl).2).mono (Nat.le_add_right _ 2) fun _ => id
      · exact hrewrites.regs
      · exact hrewrites.entry hvalid
      · intro M W memory runtime bound hbound
        let σ : Site :=
          { occ := .indexCheck index :: rest
            occ' := [.constant r.nextReg 0, .cmpi (r.nextReg + 1) .slt index (.reg r.nextReg),
              .condBr (.reg (r.nextReg + 1)) (r.nextBlock + 1) r.nextBlock]
            Ends := fun _ _ _ => False }
        have hmatches := hrewrites.matching hvalid memory runtime
          (show r.code block = before ++ σ.occ from hcode) hcode'
          hblock.parts.1
        have hgood : Stacks r.nextReg r.Known σ rest [] (r'.code r.nextBlock) [] := by
          rw [hok]
          exact .same hrest
        refine ⟨σ, hmatches, ?_, ?_⟩
        · intro env env' result callers callers' shared henv hcallers
          exact check_answers hmatches henv hcallers result shared hbound hindex hfail hgood
        · intro region last last' env env' result callers callers' shared hends
          cases hends

end

end CMinusToCF

end CMinus
