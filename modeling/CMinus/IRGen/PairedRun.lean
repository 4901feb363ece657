import CMinus.SSA.Stack
import CMinus.SSA.System
import CMinus.IRGen.PairedProgram

namespace CMinus

open SSA

namespace IR

variable {M : Type}

/-! What is seen of a run: the loads and the stores that are carried out, and the calls of
functions outside the module. -/

inductive Seen where
  | load (a : Address) (v : Value)
  | store (a : Address) (v : Value)
  | call (callee : String) (args : List Value)
deriving Repr, DecidableEq

def Seen.rename (π : Renaming) : Seen → Seen
  | .load a v => .load (a.rename π) (v.rename π)
  | .store a v => .store (a.rename π) (v.rename π)
  | .call callee args => .call callee (args.map (Value.rename π))

def seenAccess (memory : MemOps M) (m : M) (address : Option Value) (what : Address → Seen) :
    List Seen :=
  match address with
  | some (.ptr a) => if memory.valid m a then [what a] else []
  | _ => []

def seenCall (entry : Option Nat) (callee : String) (args : Option (List Value)) : List Seen :=
  match entry, args with
  | none, some values => [.call callee values]
  | _, _ => []

def Instr.seen (m : Machine Instr M World) (env : SSA.Env) (mem : M) : Instr → List Seen
  | .load _ _ address => seenAccess m.memory mem (address.eval env) fun a =>
      .load a (m.memory.load mem a)
  | .store value address =>
      match value.eval env with
      | some v => seenAccess m.memory mem (address.eval env) fun a => .store a v
      | none => []
  | .call _ callee args => seenCall (m.entry callee) callee (args.mapM (Operand.eval env))
  | _ => []

def seen (m : Machine Instr M World) : Config M World → List Seen
  | .stopped _ _ => []
  | .running top _ shared =>
      match (m.code top.block)[top.position]? with
      | some i => i.seen m top.env shared.mem
      | none => []

theorem seen_running (m : Machine Instr M World) {top : Frame} (callers : List Frame)
    (shared : Shared M World) {i : Instr} (hi : (m.code top.block)[top.position]? = some i) :
    seen m (.running top callers shared) = i.seen m top.env shared.mem := by
  simp only [seen, hi]

def observed (m : Machine Instr M World) : System (Config M World) Seen := ⟨m.step, seen m⟩

/-- The same, under the names of the other side. -/
def observedAs (π : Renaming) (m : Machine Instr M World) : System (Config M World) Seen :=
  ⟨m.step, fun c => (seen m c).map (Seen.rename π)⟩

theorem observed_run (m : Machine Instr M World) (n : Nat) (c : Config M World) :
    (observed m).run n c = m.run n c := rfl

theorem observedAs_run (π : Renaming) (m : Machine Instr M World) (n : Nat)
    (c : Config M World) : (observedAs π m).run n c = m.run n c := rfl

theorem observedAs_trace (π : Renaming) (m : Machine Instr M World) (n : Nat)
    (c : Config M World) :
    (observedAs π m).trace n c = ((observed m).trace n c).map (Seen.rename π) := by
  induction n generalizing c with
  | zero => rfl
  | succ n ih =>
      rw [System.trace_succ, System.trace_succ, List.map_append]
      exact congrArg ((seen m c).map (Seen.rename π) ++ ·) (ih (m.step c))

end IR

namespace IRGenerator

open IR

def renameFinal (π : Renaming) : Final → Final
  | .finished value => .finished (value.map (Value.rename π))
  | final => final

/-! The runs of the two modules, step by step. -/

/-- What the two generators leave behind, as far as runs are concerned. -/
structure Halves (w : Pairing) (π : Renaming) (n : Nat) (g g' : IRGenerator) : Prop where
  linked : ∀ b p c q, w.place b p c q → Linked w g g' b p c q
  starts : ∀ b c, w.block b c → w.place b 0 c 0
  names : Names π n w
  apart : ∀ r', w.guard r' → ∀ r, r < n → π r ≠ r'
  entries : ∀ name, Option.Rel w.block
    ((getFunction g.functions name).bind fun f => f.blocks.head?)
    ((getFunction g'.functions name).bind fun f => f.blocks.head?)

structure SameFrame (w : Pairing) (π : Renaming) (n : Nat) (frame frame' : Frame) : Prop where
  place : w.place frame.block frame.position frame'.block frame'.position
  env : Env.Renames π n frame.env frame'.env
  result : Option.Rel w.reg frame.result frame'.result

inductive SameConfig {M : Type} (w : Pairing) (π : Renaming) (n : Nat) :
    Config M World → Config M World → Prop where
  | running {top top' : Frame} {callers callers' : List Frame} (frame : SameFrame w π n top top')
      (stack : List.Forall₂ (SameFrame w π n) callers callers') (shared : Shared M World) :
      SameConfig w π n (.running top callers shared) (.running top' callers' shared)
  | stopped (final : Final) (shared : Shared M World) :
      SameConfig w π n (.stopped final shared) (.stopped (renameFinal π final) shared)

section

variable {M : Type} {w : Pairing} {π : Renaming} {n : Nat} {g g' : IRGenerator}

/-- After a terminator the block is left. -/
def Leaves : Effect M → Prop
  | .next _ _ | .call _ _ _ => False
  | .jump _ | .ret _ | .fault _ => True

theorem exec_terminator (memory : MemOps M) {i : Instr} (hterm : i.isTerminator = true)
    (env : SSA.Env) (mem : M) : Leaves (exec memory i env mem) := by
  cases i with
  | br target => trivial
  | condBr cond ifTrue ifFalse =>
      dsimp only [exec]
      split <;> trivial
  | ret value =>
      cases value with
      | none => trivial
      | some value =>
          dsimp only [exec]
          split <;> trivial
  | unreachable => trivial
  | _ => cases hterm

theorem entries_same (h : Halves w π n g g') (memory memory' : MemOps M) (name : String) :
    Option.Rel w.block ((g.module.machine memory).entry name)
      ((g'.module.machine memory').entry name) :=
  h.entries name

theorem runtime_rename (callee : String) (args : List Value) (world : World) :
    runtime callee (args.map (Value.rename π)) world = runtime callee args world := by
  cases args with
  | nil => rfl
  | cons a rest =>
      cases rest with
      | nil =>
          cases a with
          | ptr a =>
              change runtime callee [.ptr (a.rename π)] world = _
              unfold runtime
              split <;> simp_all
          | _ => rfl
      | cons b rest =>
          change runtime callee (a.rename π :: b.rename π :: rest.map (Value.rename π)) world = _
          unfold runtime
          split <;> simp_all

theorem runtime_value {callee : String} {args : List Value} {world world' : World}
    {value : Option Value} (h : runtime callee args world = some (.returns value world')) :
    value.map (Value.rename π) = value := by
  unfold runtime at h
  split at h <;> cases h <;> rfl

theorem Halves.result (h : Halves w π n g g') {r r' : Option Nat} (hr : Option.Rel w.reg r r') :
    r' = r.map π := by
  cases hr with
  | none => rfl
  | some hr => exact congrArg some (h.names _ _ hr).2

theorem SameFrame.receive (h : Halves w π n g g') {frame frame' : Frame}
    (hframe : SameFrame w π n frame frame') {r r' : Option Nat} (hr : Option.Rel w.reg r r')
    (value : Option Value) :
    SameFrame w π n { frame with env := frame.env.receive r value }
      { frame' with env := frame'.env.receive r' (value.map (Value.rename π)) } := by
  refine ⟨hframe.place, ?_, hframe.result⟩
  dsimp only
  rw [h.result hr]
  exact hframe.env.receive r value

theorem Halves.enter (h : Halves w π n g g') (memory : MemOps M) {r r' : Option Nat}
    (hr : Option.Rel w.reg r r') (callee : String) (args : List Value) {top top' : Frame}
    (htop : SameFrame w π n top top') {callers callers' : List Frame}
    (hstack : List.Forall₂ (SameFrame w π n) callers callers') (shared : Shared M World) :
    SameConfig w π n
      ((g.module.machine (memory.rename π)).enter r callee args top callers shared)
      ((g'.module.machine memory).enter r' callee (args.map (Value.rename π)) top' callers'
        shared) := by
  unfold Machine.enter
  have hentry := entries_same h (memory.rename π) memory callee
  revert hentry
  generalize (g.module.machine (memory.rename π)).entry callee = entry
  generalize (g'.module.machine memory).entry callee = entry'
  intro hentry
  cases hentry with
  | some hblock =>
      refine .running ⟨h.starts _ _ hblock, .enter _ _, hr⟩ (.cons htop hstack) _
  | none =>
      have hruntime : (g'.module.machine memory).runtime callee (args.map (Value.rename π))
          shared.world = (g.module.machine (memory.rename π)).runtime callee args shared.world :=
        runtime_rename callee args shared.world
      rw [hruntime]
      cases hreply : (g.module.machine (memory.rename π)).runtime callee args shared.world with
      | none => exact .stopped (.faulted .malformed) shared
      | some reply =>
          cases reply with
          | exits world => exact .stopped .exited _
          | returns value world =>
              have hframe := htop.receive h hr value
              rw [runtime_value hreply] at hframe
              exact .running hframe hstack _

theorem Halves.leave (h : Halves w π n g g') {top top' : Frame}
    (hresult : Option.Rel w.reg top.result top'.result) {callers callers' : List Frame}
    (hstack : List.Forall₂ (SameFrame w π n) callers callers')
    (value : Option Value) (shared : Shared M World) :
    SameConfig w π n (Machine.leave top value shared callers)
      (Machine.leave top' (value.map (Value.rename π)) shared callers') := by
  cases hstack with
  | nil => exact .stopped (.finished value) shared
  | cons hcaller hstack => exact .running (hcaller.receive h hresult value) hstack shared

/-- The same effect, and the place after the instruction where the block goes on. -/
theorem Halves.perform (h : Halves w π n g g') (memory : MemOps M) (top top' : Frame)
    (hresult : Option.Rel w.reg top.result top'.result)
    (henv : Env.Renames π n top.env top'.env)
    {callers callers' : List Frame} (hstack : List.Forall₂ (SameFrame w π n) callers callers')
    (shared : Shared M World) {effect effect' : Effect M}
    (heffect : EffectSame π n w effect effect')
    (hplace : ¬ Leaves effect → w.place top.block top.position top'.block top'.position) :
    SameConfig w π n
      ((g.module.machine (memory.rename π)).perform top callers shared effect)
      ((g'.module.machine memory).perform top' callers' shared effect') := by
  cases heffect with
  | @next env env' hnext mem =>
      have hframe : SameFrame w π n { top with env := env } { top' with env := env' } :=
        ⟨hplace id, hnext, hresult⟩
      exact .running hframe hstack _
  | @jump b c hblock =>
      have hframe : SameFrame w π n { top with block := b, position := 0 }
          { top' with block := c, position := 0 } := ⟨h.starts b c hblock, henv, hresult⟩
      exact .running hframe hstack shared
  | call hr callee args =>
      exact h.enter memory hr callee args ⟨hplace id, henv, hresult⟩ hstack shared
  | ret value => exact h.leave hresult hstack value shared
  | fault f => exact .stopped (.faulted f) shared

/-! What is seen of a step. -/

theorem seenAccess_same (memory : MemOps M) (m : M) (address : Option Value)
    {what what' : Address → Seen} (hwhat : ∀ a, what' (a.rename π) = (what a).rename π) :
    seenAccess memory m (address.map (Value.rename π)) what' =
      (seenAccess (memory.rename π) m address what).map (Seen.rename π) := by
  cases address with
  | none => rfl
  | some v =>
      cases v with
      | ptr a =>
          unfold seenAccess
          dsimp only [Option.map, Value.rename]
          change _ = (if memory.valid m (a.rename π) then [what a] else []).map (Seen.rename π)
          split
          · exact congrArg (fun x => [x]) (hwhat a)
          · rfl
      | _ => rfl

theorem seenCall_same {entry entry' : Option Nat} (hentry : Option.Rel w.block entry entry')
    (callee : String) (args : Option (List Value)) :
    seenCall entry' callee (args.map (List.map (Value.rename π))) =
      (seenCall entry callee args).map (Seen.rename π) := by
  cases hentry with
  | some hblock => cases args <;> rfl
  | none => cases args <;> rfl

theorem Halves.seen (h : Halves w π n g g') (memory : MemOps M) {env env' : SSA.Env}
    (henv : Env.Renames π n env env') (mem : M) {i i' : Instr} (hsame : i.Same w i') :
    i'.seen (g'.module.machine memory) env' mem =
      (i.seen (g.module.machine (memory.rename π)) env mem).map (Seen.rename π) := by
  cases hsame with
  | load hr ty ha =>
      dsimp only [Instr.seen]
      rw [ha.eval h.names henv]
      apply seenAccess_same
      intro a
      exact congrArg (Seen.load (a.rename π)) (Value.symm_rename π _).symm
  | store hv ha =>
      dsimp only [Instr.seen]
      rw [hv.eval h.names henv, ha.eval h.names henv]
      generalize Operand.eval env _ = value
      cases value with
      | none => rfl
      | some v =>
          apply seenAccess_same
          intro a
          rfl
  | call hr callee hargs =>
      dsimp only [Instr.seen]
      rw [evals_same h.names henv hargs]
      exact seenCall_same (entries_same h (memory.rename π) memory callee) callee _
  | _ => rfl

/-- Where both sides stand before the same instruction, they take the same step. -/
theorem Halves.step (h : Halves w π n g g') (memory : MemOps M) {top top' : Frame}
    (htop : SameFrame w π n top top') {callers callers' : List Frame}
    (hstack : List.Forall₂ (SameFrame w π n) callers callers') (shared : Shared M World)
    {i i' : Instr} (hi : (g.builder.code top.block)[top.position]? = some i)
    (hi' : (g'.builder.code top'.block)[top'.position]? = some i') (hsame : i.Same w i')
    (hnext : i.isTerminator = false →
      w.place top.block (top.position + 1) top'.block (top'.position + 1)) :
    IR.seen (g'.module.machine memory) (.running top' callers' shared) =
        (IR.seen (g.module.machine (memory.rename π)) (.running top callers shared)).map
          (Seen.rename π) ∧
      SameConfig w π n
        ((g.module.machine (memory.rename π)).step (.running top callers shared))
        ((g'.module.machine memory).step (.running top' callers' shared)) := by
  constructor
  · rw [seen_running (g'.module.machine memory) callers' shared hi',
      seen_running (g.module.machine (memory.rename π)) callers shared hi]
    exact h.seen memory htop.env shared.mem hsame
  · rw [Machine.step_running callers shared hi, Machine.step_running callers' shared hi']
    have heffect := exec_same h.names htop.env memory shared.mem hsame
    refine h.perform memory { top with position := top.position + 1 }
      { top' with position := top'.position + 1 } htop.result htop.env hstack shared heffect ?_
    intro hstays
    apply hnext
    cases hterm : i.isTerminator with
    | false => rfl
    | true => exact absurd (exec_terminator (memory.rename π) hterm top.env shared.mem) hstays

end

/-! Runs through a guard. -/

/-- The subscripts that have just been evaluated where the run stands are ints, and `Q` holds
of them. -/
def Subscripts {M : Type} (g : IRGenerator) (Q : BitVec 32 → Prop) : Config M World → Prop
  | .stopped _ _ => True
  | .running top _ _ => ∀ σ ∈ g.subscripts, σ.block = top.block → σ.position = top.position →
      ∃ x, σ.value.eval top.env = some (.i32 x) ∧ Q x

def CallsIndexError {M : Type} (m : Machine Instr M World) (c : Config M World) : Prop :=
  ∃ result args, m.Performs c (.call result kIndexErrorName args)

section

variable {M : Type} {w : Pairing} {π : Renaming} {n : Nat} {g g' : IRGenerator}

/-- The environment with the registers of guards set. -/
def SetsGuard (w : Pairing) (env env' : SSA.Env) : Prop :=
  env' = env ∨ ∃ r v, w.guard r ∧ env' = env.set r v

/-- Nothing is seen of a guard, and where it leads depends on the sign. -/
theorem Guards.tests {m : Machine Instr M World} {frame : Frame} {value : Operand} {ok : Nat}
    (h : Guards w m.code frame.block frame.position value ok) {x : BitVec 32}
    (hvalue : value.eval frame.env = some (.i32 x)) (callers : List Frame)
    (shared : Shared M World) :
    ∃ k fail env,
      m.run k (.running frame callers shared) = .running { frame with
        block := if x.slt 0 then fail else ok, position := 0, env := env } callers shared ∧
      (observed m).trace k (.running frame callers shared) = [] ∧
      SetsGuard w frame.env env ∧
      (m.code fail)[0]? = some (.call none kIndexErrorName [value]) := by
  cases h with
  | @compared r fail hguard hcompare hbranch hreport =>
      let set := frame.env.set r (.i1 (x.slt 0))
      have hexec : Executable.exec m.memory (Instr.icmp r .slt value (int32 0)) frame.env
          shared.mem = .next set shared.mem := by
        change compute frame.env shared.mem r ((value.eval frame.env).bind fun a =>
          some (Compare.slt.eval a (.i32 0))) = _
        rw [hvalue]
        rfl
      have hfirst : m.step (.running frame callers shared) =
          .running { frame with position := frame.position + 1, env := set } callers shared := by
        rw [Machine.step_running callers shared hcompare, hexec]
        rfl
      have hbranched : Executable.exec m.memory (Instr.condBr (.reg r) fail ok) set shared.mem =
          .jump (if x.slt 0 then fail else ok) := by
        change IR.exec m.memory (.condBr (.reg r) fail ok) set shared.mem = _
        dsimp only [IR.exec, Operand.eval]
        rw [show set.regs r = some (.i1 (x.slt 0)) from SSA.Env.set_regs_self _ _ _]
      refine ⟨2, fail, set, ?_, ?_, .inr ⟨r, _, hguard, rfl⟩, hreport⟩
      · rw [Machine.run_succ, hfirst, Machine.run_succ,
          Machine.step_running callers shared (by exact hbranch)]
        exact congrArg (Machine.perform m _ callers shared) hbranched
      · rw [System.trace_succ, System.trace_succ, System.trace_zero]
        change seen m (.running frame callers shared) ++
          (seen m (m.step (.running frame callers shared)) ++ []) = []
        rw [hfirst, seen_running m callers shared hcompare,
          seen_running m callers shared (by exact hbranch)]
        rfl
  | @folded cond fail hfolds hbranch hreport =>
      have hcond : cond = .i1 (x.slt 0) := by
        cases value with
        | i32 a =>
            cases hvalue
            cases hfolds
            rfl
        | poison ty => cases hvalue
        | _ => cases hfolds
      subst hcond
      refine ⟨1, fail, frame.env, ?_, ?_, .inl rfl, hreport⟩
      · rw [Machine.run_succ, Machine.step_running callers shared hbranch]
        rfl
      · rw [System.trace_succ, System.trace_zero]
        change seen m (.running frame callers shared) ++ [] = []
        rw [seen_running m callers shared hbranch]
        rfl

theorem SetsGuard.renames (h : Halves w π n g g') {env env' later : SSA.Env}
    (henv : Env.Renames π n env env') (hsets : SetsGuard w env' later) :
    Env.Renames π n env later := by
  rcases hsets with rfl | ⟨r, v, hguard, rfl⟩
  · exact henv
  · exact henv.set_apart (h.apart r hguard) v

theorem SetsGuard.eval (h : Halves w π n g g') {env later : SSA.Env} (hsets : SetsGuard w env later)
    {value value' : Operand} (hsame : value.Same w value') :
    value'.eval later = value'.eval env := by
  rcases hsets with rfl | ⟨r, v, hguard, rfl⟩
  · rfl
  · apply Operand.eval_set
    intro hmem
    cases hsame with
    | other _ hregs =>
        rw [hregs] at hmem
        cases hmem
    | reg hreg =>
        obtain ⟨hlt, rfl⟩ := h.names _ _ hreg
        exact h.apart r hguard _ hlt (List.mem_singleton.mp hmem).symm

/-- No guard of the guarded run has anything to report: the plain run says so for the place where
it stands, or the guarded run does for all of its places. -/
def Silent (g g' : IRGenerator) (m' : Machine Instr M World) (c c' : Config M World) : Prop :=
  Subscripts g (fun x => 0 ≤ x.toInt) c ∨
    ∀ k, Subscripts g' (fun _ => True) (m'.run k c') ∧ ¬ CallsIndexError m' (m'.run k c')

/-- At a guard with nothing to report, the subscript is good. -/
theorem Halves.good (h : Halves w π n g g') (memory : MemOps M) {top top' : Frame}
    (htop : SameFrame w π n top top') {callers callers' : List Frame} {shared : Shared M World}
    (hsilent : Silent g g' (g'.module.machine memory) (.running top callers shared)
      (.running top' callers' shared)) {value value' : Operand} {ok : Nat}
    (hplain : ⟨top.block, top.position, value⟩ ∈ g.subscripts)
    (hguarded : ⟨top'.block, top'.position, value'⟩ ∈ g'.subscripts)
    (hsame : value.Same w value')
    (hguards : Guards w g'.builder.code top'.block top'.position value' ok) :
    ∃ x, value'.eval top'.env = some (.i32 x) ∧ x.slt 0 = false := by
  rcases hsilent with hgood | hnone
  · obtain ⟨x, hx, hsign⟩ := hgood _ hplain rfl rfl
    refine ⟨x, ?_, ?_⟩
    · rw [hsame.eval h.names htop.env, hx]
      rfl
    · simpa [BitVec.slt] using hsign
  · obtain ⟨x, hx, -⟩ := (hnone 0).1 _ hguarded rfl rfl
    refine ⟨x, hx, ?_⟩
    have htests : Guards w (g'.module.machine memory).code top'.block top'.position value' ok :=
      hguards
    obtain ⟨k, fail, env, hrun, -, hsets, hreport⟩ := htests.tests hx callers' shared
    cases hslt : x.slt 0 with
    | false => rfl
    | true =>
        -- the report would be called
        obtain ⟨-, hcalls⟩ := hnone k
        refine absurd ?_ hcalls
        rw [hrun, hslt, if_pos rfl]
        refine ⟨none, [.i32 x], _, callers', shared, _, rfl, hreport, ?_⟩
        change IR.exec memory (.call none kIndexErrorName [value']) env shared.mem = _
        have hvalue : value'.eval env = some (.i32 x) := (hsets.eval h hsame).trans hx
        simp [IR.exec, hvalue]

/-- The guarded run passes the guards that stand before the instruction. -/
theorem Halves.passes (h : Halves w π n g g') (memory : MemOps M) {top : Frame}
    {callers callers' : List Frame} {shared : Shared M World} (d : Nat) :
    ∀ {top' : Frame}, g'.builder.nextBlock - top'.block = d → SameFrame w π n top top' →
      Silent g g' (g'.module.machine memory) (.running top callers shared)
        (.running top' callers' shared) →
      ∃ k last i i',
        (g'.module.machine memory).run k (.running top' callers' shared) =
          .running last callers' shared ∧
        (observed (g'.module.machine memory)).trace k (.running top' callers' shared) = [] ∧
        SameFrame w π n top last ∧
        (g.builder.code top.block)[top.position]? = some i ∧
        (g'.builder.code last.block)[last.position]? = some i' ∧ i.Same w i' ∧
        (i.isTerminator = false →
          w.place top.block (top.position + 1) last.block (last.position + 1)) := by
  induction d using Nat.strong_induction_on with
  | _ d ih =>
      intro top' hd htop hsilent
      cases h.linked _ _ _ _ htop.place with
      | same hplain hguarded hsame hnext =>
          exact ⟨0, top', _, _, rfl, rfl, htop, hplain, hguarded, hsame, hnext⟩
      | @guard value value' ok hplain hguarded hsame hguards hlater hbound hnext =>
          obtain ⟨x, hx, hslt⟩ := h.good memory htop hsilent hplain hguarded hsame hguards
          have htests : Guards w (g'.module.machine memory).code top'.block top'.position value'
              ok := hguards
          obtain ⟨k, fail, env, hrun, htrace, hsets, -⟩ := htests.tests hx callers' shared
          rw [hslt, if_neg (by decide)] at hrun
          have hframe : SameFrame w π n top
              { top' with block := ok, position := 0, env := env } :=
            ⟨hnext, hsets.renames h htop.env, htop.result⟩
          have hsilent' : Silent g g' (g'.module.machine memory) (.running top callers shared)
              (.running { top' with block := ok, position := 0, env := env } callers' shared) := by
            refine hsilent.imp_right fun hnone j => ?_
            have hlast := hnone (k + j)
            rwa [Machine.run_add, hrun] at hlast
          obtain ⟨j, last, i, i', hrun', htrace', hrest⟩ :=
            ih (g'.builder.nextBlock - ok) (by omega) rfl hframe hsilent'
          refine ⟨k + j, last, i, i', ?_, ?_, hrest⟩
          · rw [Machine.run_add, hrun, hrun']
          · rw [System.trace_add, htrace, observed_run, hrun, htrace']
            rfl

/-- Neither run ever has anything to report. -/
def NeverReports (g g' : IRGenerator) (m m' : Machine Instr M World) (c c' : Config M World) :
    Prop :=
  (∀ k, Subscripts g (fun x => 0 ≤ x.toInt) (m.run k c)) ∨
    ∀ k, Subscripts g' (fun _ => True) (m'.run k c') ∧ ¬ CallsIndexError m' (m'.run k c')

theorem NeverReports.later {m m' : Machine Instr M World} {c c' : Config M World}
    (h : NeverReports g g' m m' c c') (k : Nat) :
    NeverReports g g' m m' (m.step c) (m'.run k c') := by
  rcases h with hgood | hnone
  · refine .inl fun j => ?_
    rw [← Machine.run_succ]
    exact hgood (j + 1)
  · refine .inr fun j => ?_
    rw [← Machine.run_add]
    exact hnone (k + j)

/-- The guarded run answers each step of the plain one. -/
theorem Halves.simulates (h : Halves w π n g g') (memory : MemOps M) :
    System.Simulates (observedAs π (g.module.machine (memory.rename π)))
      (observed (g'.module.machine memory)) fun c c' => SameConfig w π n c c' ∧
        NeverReports g g' (g.module.machine (memory.rename π)) (g'.module.machine memory) c c' := by
  constructor
  intro c c' hboth
  obtain ⟨hsame, hsilent⟩ := hboth
  cases hsame with
  | stopped final shared => exact ⟨1, Nat.one_pos, rfl, .stopped final shared, hsilent.later 1⟩
  | @running top top' callers callers' htop hstack shared =>
      have hnow : Silent g g' (g'.module.machine memory) (.running top callers shared)
          (.running top' callers' shared) := hsilent.imp_left fun hgood => hgood 0
      obtain ⟨k, last, i, i', hrun, htrace, hframe, hi, hi', hinstr, hnext⟩ :=
        h.passes memory _ rfl htop hnow
      obtain ⟨hseen, hstep⟩ := h.step memory hframe hstack shared hi hi' hinstr hnext
      refine ⟨k + 1, Nat.succ_pos k, ?_, ?_, hsilent.later (k + 1)⟩
      · rw [System.trace_add, htrace, observed_run, hrun, System.trace_succ, System.trace_zero,
          List.nil_append, List.append_nil]
        exact hseen
      · rw [observed_run, Machine.run_succ', hrun]
        exact hstep

end

end IRGenerator

end CMinus
