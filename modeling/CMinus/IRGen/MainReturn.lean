import CMinus.SSA.Stack
import CMinus.IRGen.DefaultReturn

namespace CMinus

namespace IRGenerator

open SSA IR

variable {M : Type}

/-! A return from `main`.  The program may call `main`, and `emitReturn` makes of its
returns what it makes of any other function's. -/

/-- The place of the return at the end of `main` that no statement asks for. -/
def mainDefault (options : IRGenOptions) (program : Program) : Option (Nat × Nat) :=
  match program.decls.getLast? with
  | some (.fun main) =>
      defaultReturn options main (emitDecls options program.decls.dropLast {}).2
  | _ => none

/-- The next step executes a return in a block of `main`, for that activation, which is not
the one at `made`. -/
def ReturnsFromMain (m : Module) (made : Option (Nat × Nat)) (memory : MemOps M)
    (activation : Nat) (c : Config M World) : Prop :=
  ∃ top callers shared i value, c = .running top callers shared ∧
    (∃ f ∈ m.functions, f.name = kMainName ∧ top.block ∈ f.blocks) ∧
    made ≠ some (top.block, top.position) ∧
    (m.code top.block)[top.position]? = some i ∧
    Executable.exec memory i top.env shared.mem = .ret value ∧
    top.env.activation = activation

def CallsMain (m : Module) (memory : MemOps M) (c : Config M World) : Prop :=
  ∃ result args, (m.machine memory).Performs c (.call result kMainName args)

/-- Once such a return of `main` has executed, the run has stopped for good, with the memory
and the world that the return found. -/
def EndsWithMain (m : Module) (made : Option (Nat × Nat)) (memory : MemOps M)
    (c : Config M World) : Prop :=
  ∀ i activation, ReturnsFromMain m made memory activation ((m.machine memory).run i c) →
    ∃ final, ∀ j, i < j →
      (m.machine memory).run j c = .stopped final ((m.machine memory).run i c).shared

theorem steady : Machine.Steady Instr := by
  constructor
  intro M mem i env env' m m' h
  rcases exec_next h with ⟨rfl, -⟩ | ⟨r, x, -, rfl, -⟩
  · rfl
  · rfl

/-! At the bottom of the stack a return ends the run, and anywhere else it does not. -/

theorem endsWithMain_iff {m : Module} {made : Option (Nat × Nat)} {memory : MemOps M}
    {callee : String} {args : List Value} {shared : Shared M World} {c : Config M World}
    (hstart : (m.machine memory).start callee args shared = some c) :
    EndsWithMain m made memory c ↔
      ∀ i activation, ReturnsFromMain m made memory activation ((m.machine memory).run i c) →
        activation = shared.activations := by
  constructor
  · intro hends i activation hreturns
    obtain ⟨final, hstopped⟩ := hends i activation hreturns
    obtain ⟨top, callers, now, instr, value, hrun, -, -, hcode, hexec, rfl⟩ := hreturns
    have hbased := Machine.Based.run steady hstart i
    have hnext := hstopped (i + 1) (Nat.lt_succ_self i)
    rw [hrun] at hbased
    rw [Machine.run_succ', hrun, Machine.step_running callers now hcode] at hnext
    change Machine.perform _ _ _ _ (Executable.exec memory instr top.env now.mem) = _ at hnext
    rw [hexec, Machine.perform_ret] at hnext
    apply hbased.bottom.mpr
    cases callers with
    | nil => rfl
    | cons caller callers => cases hnext
  · intro hfirst i activation hreturns
    obtain rfl := hfirst i activation hreturns
    obtain ⟨top, callers, now, instr, value, hrun, -, -, hcode, hexec, hactivation⟩ := hreturns
    have hbased := Machine.Based.run steady hstart i
    rw [hrun] at hbased
    obtain rfl := hbased.bottom.mp hactivation
    refine ⟨.finished value, ?_⟩
    intro j hj
    apply Machine.run_stopped_of_le _ hj
    rw [Machine.run_succ', hrun, Machine.step_running [] now hcode]
    change Machine.perform _ _ _ _ (Executable.exec memory instr top.env now.mem) = _
    rw [hexec]
    rfl

/-! Where no step calls `main`, only the bottom of the stack is in its blocks. -/

def Elsewhere (m : Module) (frame : Frame) : Prop :=
  ∃ f ∈ m.functions, f.name ≠ kMainName ∧ frame.block ∈ f.blocks

theorem Elsewhere.continues {m : Module} {bits : Nat} (hwell : m.WellFormed bits)
    {memory : MemOps M} {frame frame' : Frame}
    (hcontinues : (m.machine memory).Continues frame frame') (h : Elsewhere m frame) :
    Elsewhere m frame' := by
  obtain ⟨f, hf, hname, hblock⟩ := h
  refine ⟨f, hf, hname, ?_⟩
  rcases hcontinues.block with hsame | ⟨i, hi, env, mem, hjump⟩
  · rw [hsame]
    exact hblock
  · obtain ⟨entry, hbody⟩ := hwell.bodies f hf (List.ne_nil_of_mem hblock)
    exact (hbody.branches frame.block hblock i hi _ (jumps.jump _ i env mem _ hjump)).1

theorem Elsewhere.enter {m : Module} {memory : MemOps M} {name : String} {block : Nat}
    (hentry : (m.machine memory).entry name = some block) (hname : name ≠ kMainName)
    (env : SSA.Env) (result : Option Nat) : Elsewhere m ⟨block, 0, env, result⟩ := by
  obtain ⟨f, hget, hhead⟩ := Option.bind_eq_some_iff.mp hentry
  obtain ⟨hf, hsame⟩ := getFunction_mem hget
  exact ⟨f, hf, hsame ▸ hname, List.mem_of_mem_head? hhead⟩

theorem Elsewhere.not_main {m : Module} {bits : Nat} (hwell : m.WellFormed bits)
    {frame : Frame} (h : Elsewhere m frame) :
    ¬ ∃ f ∈ m.functions, f.name = kMainName ∧ frame.block ∈ f.blocks := by
  intro hmain
  obtain ⟨f, hf, hname, hblock⟩ := h
  obtain ⟨f', hf', hname', hblock'⟩ := hmain
  obtain rfl := hwell.apart f hf f' hf' _ hblock hblock'
  exact hname hname'

theorem first_of_uncalled {m : Module} {made : Option (Nat × Nat)} {bits : Nat}
    (hwell : m.WellFormed bits) {memory : MemOps M} {callee : String} {args : List Value}
    {shared : Shared M World} {c : Config M World} (hstart : (m.machine memory).start callee args shared = some c)
    {n : Nat} (huncalled : ∀ k, k < n → ¬ CallsMain m memory ((m.machine memory).run k c))
    {activation : Nat}
    (hreturns : ReturnsFromMain m made memory activation ((m.machine memory).run n c)) :
    activation = shared.activations := by
  have hlayered : Machine.ConfigLayered (Elsewhere m) (fun _ => True)
      ((m.machine memory).run n c) := by
    apply Machine.layered_run steady
    · intro frame frame' hcontinues
      exact Elsewhere.continues hwell hcontinues
    · intro _ _ _ _
      trivial
    · obtain ⟨b, -, rfl⟩ := Option.map_eq_some_iff.mp hstart
      trivial
    · intro k hk result name values block hcall hentry
      apply Elsewhere.enter hentry
      rintro rfl
      exact huncalled k hk ⟨result, values, hcall⟩
  obtain ⟨top, callers, now, instr, value, hrun, hmain, -, -, -, rfl⟩ := hreturns
  have hbased := Machine.Based.run steady hstart n
  rw [hrun] at hlayered hbased
  apply hbased.bottom.mpr
  cases callers with
  | nil => rfl
  | cons caller callers => exact absurd hmain (hlayered.1.not_main hwell)

theorem main_starts (options : IRGenOptions) {program : Program} (h : Emittable program)
    (memory : MemOps M) (shared : Shared M World) :
    ∃ c, ((emitProgram options program).module.machine memory).start kMainName [] shared =
      some c := by
  obtain ⟨decl, hlast, hname, -, -⟩ := h.resolved.main
  obtain ⟨before, hsplit⟩ := List.getLast?_eq_some_iff.mp hlast
  obtain ⟨f, hends⟩ := ends_emitProgram options h hsplit
  obtain ⟨storage, done, K, hbuilt, -, -⟩ := built_emitProgram options h
  have hget : getFunction (emitProgram options program).functions kMainName = some f := by
    rw [show kMainName = f.name from hname.symm.trans hends.name.symm]
    exact find_of_names hbuilt.declared.names hends.listed
  have hentry : ((emitProgram options program).module.machine memory).entry kMainName =
      some (emitDecls options before {}).2.builder.nextBlock :=
    Option.bind_eq_some_iff.mpr ⟨f, hget, hends.head⟩
  exact ⟨_, Option.map_eq_some_iff.mpr ⟨_, hentry, rfl⟩⟩

/-- In a run of the program, a return statement of `main` is the last thing that executes
exactly where no activation of `main` other than the first executes one.  So it is in every
run that does not call `main`. -/
theorem return_endsProgram (options : IRGenOptions) {source : String} {program : Program}
    (h : frontEnd source = some program) (memory : MemOps M) (shared : Shared M World) :
    ∃ c, ((emitProgram options program).module.machine memory).start kMainName [] shared =
        some c ∧
      (EndsWithMain (emitProgram options program).module (mainDefault options program)
          memory c ↔
        ∀ i activation, ReturnsFromMain (emitProgram options program).module
            (mainDefault options program) memory activation
            (((emitProgram options program).module.machine memory).run i c) →
          activation = shared.activations) ∧
      ((∀ i, ¬ CallsMain (emitProgram options program).module memory
          (((emitProgram options program).module.machine memory).run i c)) →
        EndsWithMain (emitProgram options program).module (mainDefault options program)
          memory c) := by
  have hemittable := emittable_of_accepted (accepted_of_frontEnd h)
  obtain ⟨storage, done, K, hbuilt, -, -⟩ := built_emitProgram options hemittable
  have hwell := hbuilt.wellFormed (fits_planOf options hemittable)
  obtain ⟨c, hstart⟩ := main_starts options hemittable memory shared
  refine ⟨c, hstart, endsWithMain_iff hstart, ?_⟩
  intro huncalled
  apply (endsWithMain_iff hstart).mpr
  intro i activation hreturns
  exact first_of_uncalled hwell hstart (fun k _ => huncalled k) hreturns

/-- The program writes what it reads, and says `return` at its end. -/
theorem return_endsProgram_plain : ∃ program c,
    frontEnd "void main(void) \x7b output(input()); return; \x7d" = some program ∧
    ((emitProgram {} program).module.machine (Store.ops fun _ _ => .poison)).start kMainName []
      { mem := fun _ => none, world := { input := fun _ => 7 } } = some c ∧
    (EndsWithMain (emitProgram {} program).module (mainDefault {} program)
        (Store.ops fun _ _ => .poison) c ↔
      ∀ i activation, ReturnsFromMain (emitProgram {} program).module (mainDefault {} program)
          (Store.ops fun _ _ => .poison) activation
          (((emitProgram {} program).module.machine (Store.ops fun _ _ => .poison)).run i c) →
        activation = 0) ∧
    ((∀ i, ¬ CallsMain (emitProgram {} program).module (Store.ops fun _ _ => .poison)
        (((emitProgram {} program).module.machine (Store.ops fun _ _ => .poison)).run i c)) →
      EndsWithMain (emitProgram {} program).module (mainDefault {} program)
        (Store.ops fun _ _ => .poison) c) := by
  have hrun : (frontEnd "void main(void) \x7b output(input()); return; \x7d").isSome =
      true := by
    decide +kernel
  obtain ⟨program, hprogram⟩ := Option.isSome_iff_exists.mp hrun
  obtain ⟨c, hstart, hexact, huncalled⟩ := return_endsProgram {} hprogram
    (Store.ops fun _ _ => .poison) { mem := fun _ => none, world := { input := fun _ => 7 } }
  exact ⟨program, c, hprogram, hstart, hexact, huncalled⟩

/-! A program that calls its own `main`, on the inputs 1 and 0. -/

def nested : String :=
  "void main(void) \x7b if (input() == 0) return; main(); output(1); \x7d"

def nestedMemory : MemOps Store := Store.ops fun _ _ => .poison

def nestedStart : Shared Store World :=
  { mem := fun _ => none, world := { input := fun n => if n = 0 then 1 else 0 } }

def returnsZero (m : Module) (made : Option (Nat × Nat)) (activation : Nat) :
    Config Store World → Bool
  | .running top _ _ =>
      m.functions.any (fun f => f.name = kMainName && f.blocks.contains top.block) &&
        (made ≠ some (top.block, top.position) &&
          (m.code top.block)[top.position]? = some (.ret (some (.i32 0)))) &&
        top.env.activation = activation
  | .stopped _ _ => false

theorem returnsFromMain_of_returnsZero {m : Module} {made : Option (Nat × Nat)}
    {activation : Nat} (memory : MemOps Store) {c : Config Store World}
    (h : returnsZero m made activation c = true) :
    ReturnsFromMain m made memory activation c := by
  cases c with
  | stopped final shared => cases h
  | running top callers shared =>
      unfold returnsZero at h
      rw [Bool.and_eq_true, Bool.and_eq_true, Bool.and_eq_true, decide_eq_true_iff,
        decide_eq_true_iff, decide_eq_true_iff, List.any_eq_true] at h
      obtain ⟨⟨⟨f, hf, hmain⟩, hplace, hcode⟩, hactivation⟩ := h
      rw [Bool.and_eq_true, decide_eq_true_iff, List.contains_iff_mem] at hmain
      obtain ⟨hname, hblock⟩ := hmain
      exact ⟨top, callers, shared, _, _, rfl, ⟨f, hf, hname, hblock⟩, hplace, hcode, rfl,
        hactivation⟩

/-- The inner `main` returns on the second input, and the outer one writes afterwards. -/
theorem return_endsProgram_nested : ∃ program c, frontEnd nested = some program ∧
    ((emitProgram {} program).module.machine nestedMemory).start kMainName [] nestedStart =
      some c ∧
    ReturnsFromMain (emitProgram {} program).module (mainDefault {} program) nestedMemory 1
      (((emitProgram {} program).module.machine nestedMemory).run 11 c) ∧
    (((emitProgram {} program).module.machine nestedMemory).run 11 c).shared.world.events =
      [.read 1, .read 0] ∧
    (((emitProgram {} program).module.machine nestedMemory).run 13 c).shared.world.events =
      [.read 1, .read 0, .wrote 1] ∧
    ¬ EndsWithMain (emitProgram {} program).module (mainDefault {} program) nestedMemory c := by
  have hrun : (frontEnd nested).any (fun program =>
      let m := (emitProgram {} program).module
      (m.machine nestedMemory).start kMainName [] nestedStart |>.any fun c =>
        returnsZero m (mainDefault {} program) 1 ((m.machine nestedMemory).run 11 c) &&
          decide (((m.machine nestedMemory).run 11 c).shared.world.events =
            [.read 1, .read 0]) &&
          decide (((m.machine nestedMemory).run 13 c).shared.world.events =
            [.read 1, .read 0, .wrote 1])) = true := by
    decide +kernel
  rw [Option.any_eq_true] at hrun
  obtain ⟨program, hprogram, hrun⟩ := hrun
  rw [Option.any_eq_true] at hrun
  obtain ⟨c, hstart, hrun⟩ := hrun
  rw [Bool.and_eq_true, Bool.and_eq_true, decide_eq_true_iff, decide_eq_true_iff] at hrun
  obtain ⟨⟨hreturns, hbefore⟩, hafter⟩ := hrun
  have hmain := returnsFromMain_of_returnsZero nestedMemory hreturns
  refine ⟨program, c, hprogram, hstart, hmain, hbefore, hafter, ?_⟩
  intro hends
  obtain ⟨final, hstopped⟩ := hends 11 1 hmain
  rw [hstopped 13 (by decide)] at hafter
  have hsame : [Event.read 1, .read 0] = [.read 1, .read 0, .wrote 1] :=
    hbefore.symm.trans hafter
  cases hsame

end IRGenerator

end CMinus
