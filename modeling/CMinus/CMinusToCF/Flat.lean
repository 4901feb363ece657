import CMinus.CMinusToCF.Conversion
import CMinus.SSA.Reach

namespace CMinus

namespace CMinusToCF

open SSA MLIR Structured

/-! Branches stay in their function, so that what can be reached is among its blocks. -/

variable {r : PatternRewriter} {f : FuncOp} {entry b c : Nat}

theorem Block.edge_known {n : Nat} {known : Nat → Prop} {ops : List Op} (h : Block n known ops)
    {op : Op} (hop : op ∈ ops) (hc : c ∈ op.successors) : known c := by
  obtain ⟨inner, last, rfl, hinner, hlast⟩ := h
  rcases List.mem_append.mp hop with hop | hop
  · rw [successors_of_inside (hinner op hop).not_terminator] at hc
    cases hc
  · rw [List.mem_singleton.mp hop] at hc
    cases hlast with
    | leave => cases hc
    | flat _ _ _ targets => exact targets c hc

theorem PatternRewriter.Valid.reachable_mem (hvalid : r.Valid) (hf : .func f ∈ r.body)
    (hentry : f.blocks.head? = some entry) (h : Reachable r.code entry b) : b ∈ f.blocks := by
  obtain ⟨visited, walk⟩ := h
  induction walk with
  | nil => exact List.mem_of_mem_head? hentry
  | snoc _ edge ih =>
      obtain ⟨op, hop, hc⟩ := edge
      exact (hvalid.formed f hf _ ih).edge_known hop hc

theorem mem_reachableBlocks (hvalid : r.Valid) (hf : .func f ∈ r.body)
    (hentry : f.blocks.head? = some entry) :
    b ∈ reachableBlocks r.code f.blocks ↔ Reachable r.code entry b := by
  have hclosed : ∀ c, Reachable r.code entry c → c ∈ f.blocks :=
    fun c => hvalid.reachable_mem hf hentry
  obtain ⟨later, hblocks⟩ := List.head?_eq_some_iff.mp hentry
  rw [hblocks] at hclosed ⊢
  unfold reachableBlocks
  rw [List.mem_filter, decide_eq_true_iff, mem_closure_iff hclosed, and_iff_right_iff_imp]
  exact hclosed b

theorem head_reachableBlocks (hvalid : r.Valid) (hf : .func f ∈ r.body) :
    (reachableBlocks r.code f.blocks).head? = f.blocks.head? := by
  cases hblocks : f.blocks with
  | nil => rfl
  | cons entry later =>
      have hmem : entry ∈ closure r.code (entry :: later).length entry := by
        rw [← hblocks, mem_closure_iff fun c => hvalid.reachable_mem hf (by rw [hblocks]; rfl)]
        exact .refl _ _
      change ((entry :: later).filter fun b => decide (b ∈ closure r.code _ entry)).head? = _
      rw [List.filter_cons, if_pos (decide_eq_true hmem)]
      rfl

/-- What a run can come to. -/
def PatternRewriter.Live (r : PatternRewriter) (b : Nat) : Prop :=
  ∃ f entry, .func f ∈ r.body ∧ f.blocks.head? = some entry ∧ Reachable r.code entry b

theorem PatternRewriter.Live.known (hvalid : r.Valid) (h : r.Live b) : r.Known b := by
  obtain ⟨f, entry, hf, hentry, hreach⟩ := h
  exact ⟨f, hf, hvalid.reachable_mem hf hentry hreach⟩

theorem mem_blocksOf {body : List Definition} :
    b ∈ blocksOf body ↔ ∃ f, .func f ∈ body ∧ b ∈ f.blocks := by
  unfold blocksOf
  rw [List.mem_flatMap]
  constructor
  · intro h
    obtain ⟨definition, hmem, hb⟩ := h
    cases definition with
    | global op => cases hb
    | func f => exact ⟨f, hmem, hb⟩
  · intro h
    obtain ⟨f, hmem, hb⟩ := h
    exact ⟨.func f, hmem, hb⟩

theorem mem_erased (hvalid : r.Valid) :
    b ∈ blocksOf (eraseUnreachableBlocks r.module).body ↔ r.Live b := by
  rw [mem_blocksOf]
  constructor
  · intro h
    obtain ⟨f', hf', hb⟩ := h
    obtain ⟨f, hf, rfl⟩ := mem_map_mapBlocks.mp hf'
    cases hentry : f.blocks.head? with
    | none =>
        rw [List.head?_eq_none_iff] at hentry
        dsimp only at hb
        rw [hentry] at hb
        cases hb
    | some entry => exact ⟨f, entry, hf, hentry, (mem_reachableBlocks hvalid hf hentry).mp hb⟩
  · intro h
    obtain ⟨f, entry, hf, hentry, hreach⟩ := h
    exact ⟨_, mem_map_mapBlocks.mpr ⟨f, hf, rfl⟩, (mem_reachableBlocks hvalid hf hentry).mpr hreach⟩

theorem erased_code (hvalid : r.Valid) (h : r.Live b) :
    (eraseUnreachableBlocks r.module).code b = r.code b :=
  if_pos ((mem_erased hvalid).mpr h)

/-- No block is left that cannot be reached. -/
theorem erased_reachable (hvalid : r.Valid) {f : FuncOp}
    (hf : .func f ∈ (eraseUnreachableBlocks r.module).body) (hb : b ∈ f.blocks) :
    ∃ entry, f.blocks.head? = some entry ∧
      Reachable (eraseUnreachableBlocks r.module).code entry b := by
  obtain ⟨f, hmem, rfl⟩ := mem_map_mapBlocks.mp hf
  cases hentry : f.blocks.head? with
  | none =>
      rw [List.head?_eq_none_iff] at hentry
      dsimp only at hb
      rw [hentry] at hb
      cases hb
  | some entry =>
      refine ⟨entry, (head_reachableBlocks hvalid hmem).trans hentry, ?_⟩
      obtain ⟨visited, walk⟩ := (mem_reachableBlocks hvalid hmem hentry).mp hb
      induction walk with
      | nil => exact .refl _ _
      | @snoc visited source target walk edge ih =>
          have hsource : r.Live source := ⟨f, entry, hmem, hentry, visited, walk⟩
          obtain ⟨op, hop, hc⟩ := edge
          apply (ih ((mem_reachableBlocks hvalid hmem hentry).mpr ⟨visited, walk⟩)).step
          refine ⟨op, ?_, hc⟩
          rw [erased_code hvalid hsource]
          exact hop

theorem erased_flat (hvalid : r.Valid) (hflat : ∀ b, r.Known b → ∀ op ∈ r.code b, op.isCMinus = false)
    (b : Nat) : ∀ op ∈ (eraseUnreachableBlocks r.module).code b, op.isCMinus = false := by
  intro op hop
  by_cases hb : b ∈ blocksOf (eraseUnreachableBlocks r.module).body
  · have hlive := (mem_erased hvalid).mp hb
    rw [erased_code hvalid hlive] at hop
    exact hflat b (hlive.known hvalid) op hop
  · have hnone : (eraseUnreachableBlocks r.module).code b = [] := if_neg hb
    rw [hnone] at hop
    cases hop

/-! Code without ops of the dialect runs as a graph does. -/

/-- A frame, and the place in the graph where it stands. -/
structure Placed (r : PatternRewriter) (frame : Structured.Frame) (place : SSA.Frame) : Prop where
  rest : frame.rest = (r.code place.block).drop place.position
  pending : frame.pending = []
  env : frame.env = place.env
  result : frame.result = place.result
  live : r.Live place.block

inductive PlacedAt (r : PatternRewriter) {M W : Type} :
    Structured.Config M W → SSA.Config M W → Prop where
  | running {top : Structured.Frame} {top' : SSA.Frame} {callers : List Structured.Frame}
      {callers' : List SSA.Frame} (frame : Placed r top top')
      (stack : List.Forall₂ (Placed r) callers callers') (shared : Shared M W) :
      PlacedAt r (.running top callers shared) (.running top' callers' shared)
  | stopped (final : Final) (shared : Shared M W) :
      PlacedAt r (.stopped final shared) (.stopped final shared)

theorem Placed.receive {frame : Structured.Frame} {place : SSA.Frame} (h : Placed r frame place)
    (result : Option Nat) (value : Option Value) :
    Placed r { frame with env := frame.env.receive result value }
      { place with env := place.env.receive result value } :=
  ⟨h.rest, h.pending, congrArg (·.receive result value) h.env, h.result, h.live⟩

section

variable {M W : Type} (memory : MemOps M) (runtime : String → List Value → W → Option (Reply W))

theorem erased_entry (hvalid : r.Valid) :
    ((eraseUnreachableBlocks r.module).machine memory runtime).entry =
      (r.module.machine memory runtime).entry := by
  funext name
  change (lookupFunc (r.body.map (mapBlocks (reachableBlocks r.code))) name).bind _ =
    (lookupFunc r.body name).bind _
  rw [lookupFunc_mapBlocks]
  cases hlookup : lookupFunc r.body name with
  | none => rfl
  | some f => exact head_reachableBlocks hvalid (lookupFunc_mem hlookup)

theorem entry_live {name : String}
    (h : (r.module.machine memory runtime).entry name = some b) : r.Live b := by
  obtain ⟨f, hlookup, hhead⟩ := Option.bind_eq_some_iff.mp h
  exact ⟨f, b, lookupFunc_mem hlookup, hhead, .refl _ _⟩

theorem entered_placed (hb : r.Live b) (env : Env) (result : Option Nat) :
    Placed r ⟨r.code b, [], env, result⟩ ⟨b, 0, env, result⟩ :=
  ⟨(List.drop_zero).symm, rfl, rfl, rfl, hb⟩

variable {top : Structured.Frame} {top' : SSA.Frame} {callers : List Structured.Frame}
  {callers' : List SSA.Frame}

theorem leave_placed (hresult : top.result = top'.result)
    (hcallers : List.Forall₂ (Placed r) callers callers') (value : Option Value)
    (shared : Shared M W) :
    PlacedAt r (Structured.leave top value shared callers)
      (Machine.leave top' value shared callers') := by
  cases hcallers with
  | nil => exact .stopped _ _
  | cons hcaller hcallers =>
      unfold Structured.leave Machine.leave
      rw [hresult]
      exact .running (hcaller.receive _ _) hcallers shared

theorem enter_placed (hvalid : r.Valid) (htop : Placed r top top')
    (hcallers : List.Forall₂ (Placed r) callers callers') (shared : Shared M W)
    (result : Option Nat) (callee : String) (args : List Value) :
    PlacedAt r
      (Structured.enter (r.module.machine memory runtime) result callee args top callers shared)
      (((eraseUnreachableBlocks r.module).machine memory runtime).enter result callee args top'
        callers' shared) := by
  unfold Structured.enter Machine.enter
  rw [erased_entry memory runtime hvalid]
  cases hentry : (r.module.machine memory runtime).entry callee with
  | some block =>
      have hplaced := entered_placed (entry_live memory runtime hentry)
        (.enter shared.activations args) result
      exact .running hplaced (.cons htop hcallers)
        { shared with activations := shared.activations + 1 }
  | none =>
      have hruntime : ((eraseUnreachableBlocks r.module).machine memory runtime).runtime =
          (r.module.machine memory runtime).runtime := rfl
      dsimp only
      rw [hruntime]
      cases (r.module.machine memory runtime).runtime callee args shared.world with
      | none => exact .stopped _ _
      | some reply =>
          cases reply with
          | returns value world => exact .running (htop.receive _ _) hcallers _
          | exits world => exact .stopped _ _

theorem perform_placed (hvalid : r.Valid) (htop : Placed r top top')
    (hcallers : List.Forall₂ (Placed r) callers callers') (shared : Shared M W) (effect : Effect M)
    (hjump : ∀ b, effect = .jump b → r.Live b) :
    PlacedAt r (Structured.perform (r.module.machine memory runtime) top callers shared effect)
      (((eraseUnreachableBlocks r.module).machine memory runtime).perform top' callers' shared
        effect) := by
  cases effect with
  | next env mem =>
      have hframe : Placed r { top with env := env } { top' with env := env } :=
        ⟨htop.rest, htop.pending, rfl, htop.result, htop.live⟩
      exact .running hframe hcallers _
  | jump b =>
      have hframe : Placed r { top with rest := r.code b } { top' with block := b, position := 0 } :=
        ⟨(List.drop_zero).symm, htop.pending, htop.env, htop.result, hjump b rfl⟩
      exact .running hframe hcallers shared
  | call result callee args =>
      exact enter_placed memory runtime hvalid htop hcallers shared result callee args
  | ret value => exact leave_placed htop.result hcallers value shared
  | fault f => exact .stopped _ _

theorem simulates_placed (bound : Nat) (hvalid : r.Valid)
    (hflat : ∀ b, r.Known b → ∀ op ∈ r.code b, op.isCMinus = false) :
    System.Simulates (Structured.system bound (r.module.machine memory runtime))
      (graphSystem bound ((eraseUnreachableBlocks r.module).machine memory runtime))
      (PlacedAt r) := by
  constructor
  intro c c' hc
  refine ⟨1, Nat.one_pos, ?_⟩
  rw [System.trace_succ, System.trace_zero, List.append_nil, System.run_succ, System.run_zero]
  cases hc with
  | stopped final shared => exact ⟨rfl, .stopped final shared⟩
  | @running top top' callers callers' frame stack shared =>
      obtain ⟨rest, pending, env, result⟩ := top
      obtain ⟨block, position, env', result'⟩ := top'
      obtain ⟨hrest, hpending, henv, hresult, hlive⟩ := frame
      dsimp only at hrest hpending henv hresult hlive
      subst hpending henv hresult
      let m' := (eraseUnreachableBlocks r.module).machine memory runtime
      have hcode : m'.code block = r.code block := erased_code hvalid hlive
      let place : SSA.Frame := ⟨block, position, env, result⟩
      change (graphSystem bound m').observe (.running place callers' shared) = _ ∧
        PlacedAt r _ (m'.step (.running place callers' shared))
      cases hop : (r.code block)[position]? with
      | none =>
          have hfetch : (m'.code block)[position]? = none := by rw [hcode, hop]
          have hstep : m'.step (.running place callers' shared) =
              .stopped (.faulted .malformed) shared := by
            unfold Machine.step
            simp only [place, hfetch]
          rw [List.drop_eq_nil_of_le (List.getElem?_eq_none_iff.mp hop)] at hrest
          subst hrest
          have hobserve : (graphSystem bound m').observe (.running place callers' shared) = [] := by
            simp only [graphSystem, place, hfetch]
          rw [hstep, hobserve]
          exact ⟨rfl, .stopped _ _⟩
      | some op =>
          have hfetch : (m'.code block)[position]? = some op := by rw [hcode, hop]
          obtain ⟨hlt, hget⟩ := List.getElem?_eq_some_iff.mp hop
          rw [List.drop_eq_getElem_cons hlt, hget] at hrest
          subst hrest
          have hobserve : (graphSystem bound m').observe (.running place callers' shared) =
              performed bound op env := by
            simp only [graphSystem, place, hfetch]
          rw [Machine.step_running callers' shared hfetch, hobserve]
          have hmem := List.mem_of_getElem? hop
          have hplain := hflat block (hlive.known hvalid) op hmem
          refine ⟨rfl, ?_⟩
          change PlacedAt r (follow _ _ callers shared (move memory op _ [] env shared.mem)) _
          rw [move_plain _ hplain]
          apply perform_placed memory runtime hvalid ⟨rfl, rfl, rfl, rfl, hlive⟩ stack
          intro b hb
          obtain ⟨f, entry, hf, hentry, hreach⟩ := hlive
          exact ⟨f, entry, hf, hentry, hreach.step ⟨op, hmem, exec_jump hb⟩⟩

theorem PlacedAt.outcome {c : Structured.Config M W} {c' : SSA.Config M W} (h : PlacedAt r c c') :
    c.outcome = graphOutcome c' := by
  cases h <;> rfl

/-- The runs of a call in structured code, and in a graph. -/
def GraphFollowsAt (bound : Nat) (m m' : Machine Op M W) (callee : String) (args : List Value)
    (shared : Shared M W) : Prop :=
  Option.Rel (System.Follows (Structured.system bound m) (graphSystem bound m')
    fun c c' => c.outcome = graphOutcome c') (Structured.start m callee args shared)
    (m'.start callee args shared)

theorem erased_follows (bound : Nat) (hvalid : r.Valid)
    (hflat : ∀ b, r.Known b → ∀ op ∈ r.code b, op.isCMinus = false) (callee : String)
    (args : List Value) (shared : Shared M W) :
    GraphFollowsAt bound (r.module.machine memory runtime)
      ((eraseUnreachableBlocks r.module).machine memory runtime) callee args shared := by
  unfold GraphFollowsAt Structured.start Machine.start
  rw [erased_entry memory runtime hvalid]
  cases hentry : (r.module.machine memory runtime).entry callee with
  | none => exact .none
  | some block =>
      apply Option.Rel.some
      have hplaced : PlacedAt r _ _ := .running
        (entered_placed (entry_live memory runtime hentry) (.enter shared.activations args) none)
        .nil { shared with activations := shared.activations + 1 }
      exact ((simulates_placed memory runtime bound hvalid hflat).follows hplaced).mono
        fun _ _ => PlacedAt.outcome

variable {memory runtime}

theorem FollowsAt.graph {bound : Nat} {m m' m'' : Machine Op M W} {callee : String}
    {args : List Value} {shared : Shared M W} (h : FollowsAt bound m m' callee args shared)
    (h' : GraphFollowsAt bound m' m'' callee args shared) :
    GraphFollowsAt bound m m'' callee args shared := by
  unfold FollowsAt at h
  unfold GraphFollowsAt at h' ⊢
  generalize Structured.start m callee args shared = start at h ⊢
  generalize Structured.start m' callee args shared = start' at h h'
  generalize m''.start callee args shared = start'' at h' ⊢
  cases h with
  | none =>
      cases h' with
      | none => exact .none
  | some hfollows =>
      cases h' with
      | some hfollows' =>
          apply Option.Rel.some
          apply (hfollows.trans hfollows').mono
          intro c c'' hmiddle
          obtain ⟨c', hfirst, hsecond⟩ := hmiddle
          exact hfirst.trans hsecond

end

/-! Before the conversion a function has one block at most, and that is a body. -/

structure Initial (r : PatternRewriter) : Prop where
  bodies : ∀ f, .func f ∈ r.body → f.blocks = [] ∨
    ∃ b, f.blocks = [b] ∧ b < r.nextBlock ∧ Body r.nextReg (r.code b)
  declared : r.Declared

theorem Initial.valid (h : Initial r) : r.Valid := by
  constructor
  · intro f hf b hb
    rcases h.bodies f hf with hnone | ⟨b', hblocks, -, hbody⟩
    · rw [hnone] at hb
      cases hb
    · rw [hblocks] at hb
      rw [List.mem_singleton.mp hb]
      exact hbody.block
  · intro f hf b hb
    rcases h.bodies f hf with hnone | ⟨b', hblocks, hborn, -⟩
    · rw [hnone] at hb
      cases hb
    · rw [hblocks] at hb
      rw [List.mem_singleton.mp hb]
      exact hborn

/-- Every conversion comes to an end, and what it ends in is flat, has no dead block and does
what the structured code did. -/
theorem lowerCMinusToCF_correct (h : Initial r) :
    (∀ n r', Conversion n r r' → n ≤ r.workLeft 1 1) ∧
    (∃ n r', Conversion n r r' ∧ Complete r') ∧
    ∀ n r', Conversion n r r' → Complete r' →
      (∀ b, ∀ op ∈ (eraseUnreachableBlocks r'.module).code b, op.isCMinus = false) ∧
      (∀ f, .func f ∈ (eraseUnreachableBlocks r'.module).body → ∀ b ∈ f.blocks,
        ∃ entry, f.blocks.head? = some entry ∧
          Reachable (eraseUnreachableBlocks r'.module).code entry b) ∧
      ∀ {M W : Type} (memory : MemOps M) (runtime : String → List Value → W → Option (Reply W))
        (callee : String) (args : List Value) (shared : Shared M W),
        Option.Rel
          (System.Follows (Structured.system r.nextReg (r.module.machine memory runtime))
            (graphSystem r.nextReg ((eraseUnreachableBlocks r'.module).machine memory runtime))
            fun c c' => c.outcome = graphOutcome c')
          (Structured.start (r.module.machine memory runtime) callee args shared)
          (((eraseUnreachableBlocks r'.module).machine memory runtime).start callee args shared) := by
  have hvalid := h.valid
  refine ⟨?_, exists_complete hvalid, ?_⟩
  · intro n r' hconversion
    have hlength := hconversion.length hvalid
    omega
  · intro n r' hconversion hcomplete
    have hvalid' := (hconversion.valid hvalid).1
    have hflat : ∀ b, r'.Known b → ∀ op ∈ r'.code b, op.isCMinus = false := fun b hb op hop =>
      hcomplete.flat hvalid' (hconversion.declared hvalid h.declared) hb hop
    refine ⟨erased_flat hvalid' hflat, fun f hf b hb => erased_reachable hvalid' hf hb, ?_⟩
    intro M W memory runtime callee args shared
    exact (hconversion.follows memory runtime hvalid le_rfl callee args shared).graph
      (erased_follows memory runtime r.nextReg hvalid' hflat callee args shared)

/-- A loop whose body checks an index and returns from an `if`. -/
def guarded : PatternRewriter where
  body := [.func { name := kIndexErrorName, inputs := [.i32], results := [], isPrivate := true },
    .func { name := "main", inputs := [], results := [.i32], blocks := [0] }]
  code := fun b =>
    if b = 0 then
      [.constant 0 0, .cmpi 1 .slt (.reg 0) (.reg 0),
        .whiles [.condition (.reg 1)]
          [.indexCheck (.reg 0), .ifs (.reg 1) [.cminusReturn (some (.reg 0))] none, .yield],
        .cminusReturn (some (.reg 0))]
    else []
  nextBlock := 1
  nextReg := 2

theorem guarded_initial : Initial guarded := by
  have hreturn : Below 2 (.cminusReturn (some (.reg 0))) := by constructor <;> decide
  have harm : ArmEnd 2 (.cminusReturn (some (.reg 0))) := .leave _ hreturn
  have hcheck : Inner 2 (.indexCheck (.reg 0)) := .indexCheck _ (by constructor <;> decide)
  have hif : Inner 2 (.ifs (.reg 1) [.cminusReturn (some (.reg 0))] none) :=
    .ifThen _ [] _ (by constructor <;> decide) (by simp) harm
  have hloop : Inner 2 (.whiles [.condition (.reg 1)]
      [.indexCheck (.reg 0), .ifs (.reg 1) [.cminusReturn (some (.reg 0))] none, .yield]) := by
    apply Inner.whiles _ [] [.indexCheck (.reg 0), .ifs (.reg 1) [.cminusReturn (some (.reg 0))] none]
    · constructor <;> decide
    · simp
    · simp only [List.forall_mem_cons]
      exact ⟨hcheck, hif, by simp⟩
    · exact .yield
  constructor
  · intro f hf
    simp only [guarded, List.mem_cons, List.not_mem_nil, or_false, Definition.func.injEq] at hf
    rcases hf with rfl | rfl
    · exact .inl rfl
    · refine .inr ⟨0, rfl, Nat.one_pos, [_, _, _], some (.reg 0), rfl, ?_, hreturn⟩
      simp only [List.forall_mem_cons]
      refine ⟨.straight _ rfl rfl ?_, .straight _ rfl rfl ?_, hloop, by simp⟩
      all_goals constructor <;> decide
  · intro _
    rfl

theorem lowerCMinusToCF_correct_guarded :
    (∀ n r', Conversion n guarded r' → n ≤ 5) ∧
    ∃ n r', Conversion n guarded r' ∧ Complete r' ∧
      (∀ b, ∀ op ∈ (eraseUnreachableBlocks r'.module).code b, op.isCMinus = false) ∧
      (∀ f, .func f ∈ (eraseUnreachableBlocks r'.module).body → ∀ b ∈ f.blocks,
        ∃ entry, f.blocks.head? = some entry ∧
          Reachable (eraseUnreachableBlocks r'.module).code entry b) ∧
      ∀ {M W : Type} (memory : MemOps M) (runtime : String → List Value → W → Option (Reply W))
        (callee : String) (args : List Value) (shared : Shared M W),
        Option.Rel
          (System.Follows (Structured.system 2 (guarded.module.machine memory runtime))
            (graphSystem 2 ((eraseUnreachableBlocks r'.module).machine memory runtime))
            fun c c' => c.outcome = graphOutcome c')
          (Structured.start (guarded.module.machine memory runtime) callee args shared)
          (((eraseUnreachableBlocks r'.module).machine memory runtime).start callee args
            shared) := by
  obtain ⟨hbound, ⟨n, r', hconversion, hcomplete⟩, hcorrect⟩ :=
    lowerCMinusToCF_correct guarded_initial
  exact ⟨hbound, n, r', hconversion, hcomplete, hcorrect n r' hconversion hcomplete⟩

end CMinusToCF

end CMinus
