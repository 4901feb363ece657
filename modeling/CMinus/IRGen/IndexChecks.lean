import CMinus.IRGen.PairedRun
import CMinus.IRGen.MainReturn

namespace CMinus

namespace IRGenerator

open SSA IR

variable {M : Type}

/-! With the checks and without them. -/

def withoutChecks (options : IRGenOptions) : IRGenOptions := { options with indexChecks := false }

def withChecks (options : IRGenOptions) : IRGenOptions := { options with indexChecks := true }

theorem exists_names {w : Pairing} {n n' k k' : Nat} (h : w.Proper n n' k k') :
    ∃ π : Renaming, Names π n w := by
  choose! f hf using h.total
  obtain ⟨π, hπ⟩ : ∃ π : Renaming, ∀ r, r < n → π r = f r := by
    apply exists_renaming
    intro r hr q hq hsame
    exact h.back r q (f r) (hf r hr) (hsame ▸ hf q hq)
  refine ⟨π, ?_⟩
  intro r r' hreg
  have hlt := (h.bound r r' hreg).1
  refine ⟨hlt, ?_⟩
  rw [hπ r hlt]
  exact h.forth r r' (f r) hreg (hf r hlt)

theorem indexError_blocks (options : IRGenOptions) {program : Program} (h : Emittable program) :
    (getFunction (emitProgram options program).functions kIndexErrorName).bind
      (fun f => f.blocks.head?) = none := by
  obtain ⟨storage, done, K, hbuilt, hcovers, -⟩ := built_emitProgram options h
  exact hbuilt.indexError_entry (fits_planOf options h) hcovers (Store.ops fun _ _ => .poison)

theorem halves_emitProgram (options : IRGenOptions) {program : Program} (h : Emittable program) :
    ∃ w π n, Halves w π n (emitProgram (withoutChecks options) program)
      (emitProgram (withChecks options) program) := by
  obtain ⟨w, hw⟩ := aligned_emitProgram
    (show Sides (withoutChecks options) (withChecks options) from ⟨rfl, rfl, rfl⟩) h
  obtain ⟨π, hπ⟩ := exists_names hw.proper
  refine ⟨w, π, _, ?_, hw.starts, hπ, ?_, ?_⟩
  · intro b p c q hplace
    rcases hw.linked b p c q hplace with hlinked | ⟨hmem, -⟩ | ⟨hnow, -⟩
    · exact hlinked
    · cases hmem
    · cases hnow
  · intro r' hguard r hr hsame
    obtain ⟨q, hreg⟩ := hw.proper.total r hr
    obtain ⟨-, rfl⟩ := hπ r q hreg
    exact (hw.proper.apart r' hguard).2 r (hsame ▸ hreg)
  · intro name
    by_cases hname : name = kIndexErrorName
    · rw [hname, indexError_blocks _ h, indexError_blocks _ h]
      exact .none
    · exact rel_bind (hw.functions.found name hname) fun _ _ hsame => hsame.entry

/-- The two runs show the same and end in the same way, up to the names of slots. -/
structure Matched (π : Renaming) (m m' : Machine Instr M World) (c c' : Config M World) :
    Prop where
  plain : ∀ n, ∃ k, n ≤ k ∧
    (observed m').trace k c' = ((observed m).trace n c).map (Seen.rename π) ∧
    (m'.run k c').shared = (m.run n c).shared
  guarded : ∀ k, ∃ n, (observed m').trace k c' <+: ((observed m).trace n c).map (Seen.rename π)
  stops : ∀ final shared, (∃ n, m.run n c = .stopped final shared) ↔
    ∃ k, m'.run k c' = .stopped (renameFinal π final) shared

theorem renameFinal_injective (π : Renaming) {final final' : Final}
    (h : renameFinal π final = renameFinal π final') : final = final' := by
  have hback : ∀ final, renameFinal π.symm (renameFinal π final) = final := by
    intro final
    cases final with
    | finished value =>
        cases value with
        | none => rfl
        | some v => exact congrArg (fun v => Final.finished (some v)) (v.rename_symm π)
    | exited => rfl
    | faulted f => rfl
  rw [← hback final, h, hback]

theorem SameConfig.shared {w : Pairing} {π : Renaming} {n : Nat} {c c' : Config M World}
    (h : SameConfig w π n c c') : c'.shared = c.shared := by
  cases h <;> rfl

theorem matched_of_follows {w : Pairing} {π : Renaming} {n : Nat} {m m' : Machine Instr M World}
    {c c' : Config M World}
    (h : System.Follows (observedAs π m) (observed m') (SameConfig w π n) c c') :
    Matched π m m' c c' := by
  constructor
  · intro n
    obtain ⟨k, hle, htrace, hsame⟩ := h n
    exact ⟨k, hle, htrace.trans (observedAs_trace π m n c), hsame.shared⟩
  · intro k
    obtain ⟨n, hprefix⟩ := h.within k
    exact ⟨n, observedAs_trace π m n c ▸ hprefix⟩
  · intro final shared
    constructor
    · intro hstops
      obtain ⟨n, hn⟩ := hstops
      obtain ⟨k, -, -, hsame⟩ := h n
      rw [observedAs_run, hn, observed_run] at hsame
      refine ⟨k, ?_⟩
      generalize m'.run k c' = last at hsame
      cases hsame
      rfl
    · intro hstops
      obtain ⟨k, hk⟩ := hstops
      obtain ⟨j, hle, -, hsame⟩ := h k
      rw [observedAs_run, observed_run, Machine.run_stopped_of_le hk hle] at hsame
      refine ⟨k, ?_⟩
      generalize m.run k c = last at hsame
      generalize hfinal : renameFinal π final = final' at hsame
      cases hsame with
      | stopped other shared => rw [renameFinal_injective π hfinal]

/-- Index checks are guards.  A run with the checks that has a value for every subscript and never
reports one is matched by the run without them; and a run without them in which every subscript
has a value that is not negative is matched by the run with them. -/
theorem indexChecks_guard (options : IRGenOptions) {source : String} {program : Program}
    (h : frontEnd source = some program) :
    ∃ π : Renaming, ∀ (M : Type) (memory : MemOps M) (shared : Shared M World),
      let plain := emitProgram (withoutChecks options) program
      let guarded := emitProgram (withChecks options) program
      let m := plain.module.machine (memory.rename π)
      let m' := guarded.module.machine memory
      ∃ c c', m.start kMainName [] shared = some c ∧ m'.start kMainName [] shared = some c' ∧
        ((∀ k, Subscripts guarded (fun _ => True) (m'.run k c') ∧
          ¬ CallsIndexError m' (m'.run k c')) → Matched π m m' c c') ∧
        ((∀ n, Subscripts plain (fun x => 0 ≤ x.toInt) (m.run n c)) → Matched π m m' c c') := by
  have hemittable := emittable_of_accepted (accepted_of_frontEnd h)
  obtain ⟨w, π, n, hhalves⟩ := halves_emitProgram options hemittable
  refine ⟨π, ?_⟩
  intro M memory shared plain guarded m m'
  obtain ⟨c, hstart⟩ := main_starts (withoutChecks options) hemittable (memory.rename π) shared
  obtain ⟨c', hstart'⟩ := main_starts (withChecks options) hemittable memory shared
  have hsame : SameConfig w π n c c' := by
    obtain ⟨b, hentry, rfl⟩ := Option.map_eq_some_iff.mp hstart
    obtain ⟨b', hentry', rfl⟩ := Option.map_eq_some_iff.mp hstart'
    have hblocks := entries_same hhalves (memory.rename π) memory kMainName
    rw [hentry, hentry'] at hblocks
    cases hblocks with
    | some hblock =>
        exact .running ⟨hhalves.starts b b' hblock, .enter _ _, .none⟩ .nil _
  have hmatched : ∀ hsilent, Matched π m m' c c' := fun hsilent =>
    matched_of_follows (((hhalves.simulates memory).follows ⟨hsame, hsilent⟩).mono
      fun _ _ hboth => hboth.1)
  exact ⟨c, c', hstart, hstart', fun hnone => hmatched (.inr hnone),
    fun hgood => hmatched (.inl hgood)⟩

/-! Runs that stop, looked at step by step. -/

def isStopped : Config M World → Bool
  | .stopped _ _ => true
  | .running _ _ _ => false

theorem run_forall (good : Config M World → Bool) {m : Machine Instr M World}
    {c : Config M World} {n : Nat} (hstops : isStopped (m.run n c) = true)
    (hstopped : ∀ final shared, good (.stopped final shared) = true)
    (h : ∀ k, k < n → good (m.run k c) = true) (k : Nat) : good (m.run k c) = true := by
  by_cases hk : k < n
  · exact h k hk
  · cases hlast : m.run n c with
    | running top callers shared =>
        rw [hlast] at hstops
        cases hstops
    | stopped final shared =>
        rw [Machine.run_stopped_of_le hlast (Nat.le_of_not_lt hk)]
        exact hstopped final shared

def reportsNothing (m : Machine Instr M World) : Config M World → Bool
  | .stopped _ _ => true
  | .running top _ _ =>
      match (m.code top.block)[top.position]? with
      | some (.call _ callee _) => callee ≠ kIndexErrorName
      | _ => true

theorem not_callsIndexError {m : Machine Instr M World} {c : Config M World}
    (h : reportsNothing m c = true) : ¬ CallsIndexError m c := by
  intro hcalls
  obtain ⟨result, args, top, callers, shared, i, rfl, hi, hexec⟩ := hcalls
  obtain ⟨operands, rfl, -⟩ := exec_call hexec
  simp [reportsNothing, hi] at h

/-- What holds of the value of each subscript that has just been evaluated. -/
def subscriptsAre (good : Option Value → Bool) (g : IRGenerator) : Config M World → Bool
  | .stopped _ _ => true
  | .running top _ _ => g.subscripts.all fun σ =>
      σ.block ≠ top.block || σ.position ≠ top.position || good (σ.value.eval top.env)

def isInt : Option Value → Bool
  | some (.i32 _) => true
  | _ => false

def isNotNegative : Option Value → Bool
  | some (.i32 x) => !x.slt 0
  | _ => true

theorem subscripts_of_isInt {g : IRGenerator} {c : Config M World}
    (h : subscriptsAre isInt g c = true) : Subscripts g (fun _ => True) c := by
  cases c with
  | stopped final shared => trivial
  | running top callers shared =>
      intro σ hσ hblock hposition
      have hgood := List.all_eq_true.mp h σ hσ
      simp only [hblock, hposition, ne_eq, not_true_eq_false, decide_false, Bool.false_or] at hgood
      unfold isInt at hgood
      split at hgood
      · exact ⟨_, by assumption, trivial⟩
      · cases hgood

def isFinished : Config M World → Bool
  | .stopped (.finished _) _ => true
  | _ => false

theorem finished_of_isFinished {c : Config M World} (h : isFinished c = true) :
    ∃ value shared, c = .stopped (.finished value) shared := by
  unfold isFinished at h
  split at h
  · exact ⟨_, _, rfl⟩
  · cases h

theorem trace_stopped {m : Machine Instr M World} {c : Config M World} {n k : Nat}
    (hstops : isStopped (m.run n c) = true) (hle : n ≤ k) :
    (observed m).trace k c = (observed m).trace n c := by
  have hnone : ∀ (j : Nat) (c : Config M World), isStopped c = true →
      (observed m).trace j c = [] := by
    intro j
    induction j with
    | zero => exact fun _ _ => rfl
    | succ j ih =>
        intro c hc
        cases c with
        | running top callers shared => cases hc
        | stopped final shared => exact ih (.stopped final shared) rfl
  obtain ⟨d, rfl⟩ := Nat.exists_eq_add_of_le hle
  rw [System.trace_add, observed_run, hnone d _ hstops, List.append_nil]

/-! Programs with one array, on an input of twos. -/

def arrayMemory : MemOps Store := Store.ops fun _ _ => .poison

def arrayShared : Shared Store World :=
  { mem := fun key => if key = .global "a" then some ⟨3, fun _ => .i32 0⟩ else none
    world := { input := fun _ => 2 } }

def arrayMachine (g : IRGenerator) : Machine Instr Store World := g.module.machine arrayMemory

/-- A subscript out of a division by zero has no value.  With the check the branch on it is
undefined, before anything is read; without it the address folds to that of the array, and
the program reads, stores and finishes. -/
theorem indexChecks_guard_poison : ∃ program c c',
    frontEnd "int a[3]; void main(void) { a[1/0] = input(); }" = some program ∧
    let plain := emitProgram (withoutChecks {}) program
    let m := arrayMachine plain
    let m' := arrayMachine (emitProgram (withChecks {}) program)
    m.start kMainName [] arrayShared = some c ∧ m'.start kMainName [] arrayShared = some c' ∧
      (∀ k, ¬ CallsIndexError m' (m'.run k c')) ∧
      (∀ n, subscriptsAre isNotNegative plain (m.run n c) = true) ∧
      (∀ k, (observed m').trace k c' = []) ∧
      (observed m).trace 3 c = [.call "input" [], .store ⟨.global "a", 0⟩ (.i32 2)] ∧
      ∃ value shared, m.run 3 c = .stopped (.finished value) shared := by
  have hrun : (frontEnd "int a[3]; void main(void) { a[1/0] = input(); }").any
      (fun program =>
        let plain := emitProgram (withoutChecks {}) program
        let m := arrayMachine plain
        let m' := arrayMachine (emitProgram (withChecks {}) program)
        (m.start kMainName [] arrayShared).any fun c =>
          (m'.start kMainName [] arrayShared).any fun c' =>
            isStopped (m'.run 1 c') && reportsNothing m' c' && isFinished (m.run 3 c) &&
              decide ((observed m').trace 1 c' = []) &&
              (List.range 3).all (fun n => subscriptsAre isNotNegative plain (m.run n c)) &&
              decide ((observed m).trace 3 c =
                [.call "input" [], .store ⟨.global "a", 0⟩ (.i32 2)])) = true := by
    decide +kernel
  rw [Option.any_eq_true] at hrun
  obtain ⟨program, hprogram, hrun⟩ := hrun
  rw [Option.any_eq_true] at hrun
  obtain ⟨c, hstart, hrun⟩ := hrun
  rw [Option.any_eq_true] at hrun
  obtain ⟨c', hstart', hrun⟩ := hrun
  simp only [Bool.and_eq_true, decide_eq_true_iff, List.all_eq_true, List.mem_range] at hrun
  obtain ⟨⟨⟨⟨⟨hstops', hsilent⟩, hfinished⟩, htrace'⟩, hsubscripts⟩, htrace⟩ := hrun
  obtain ⟨value, shared, hend⟩ := finished_of_isFinished hfinished
  have hstops : isStopped ((arrayMachine (emitProgram (withoutChecks {}) program)).run 3 c) =
      true := by
    rw [hend]
    rfl
  refine ⟨program, c, c', hprogram, hstart, hstart', ?_, ?_, ?_, htrace, value, shared, hend⟩
  · intro k
    apply not_callsIndexError
    refine run_forall (reportsNothing _) hstops' (fun _ _ => rfl) ?_ k
    intro j hj
    obtain rfl : j = 0 := Nat.lt_one_iff.mp hj
    exact hsilent
  · exact run_forall (subscriptsAre isNotNegative _) hstops (fun _ _ => rfl) hsubscripts
  · intro k
    cases k with
    | zero => rfl
    | succ k => exact (trace_stopped hstops' (Nat.le_add_left 1 k)).trans htrace'

theorem indexChecks_guard_array : ∃ program π c c',
    frontEnd "int a[3]; void main(void) { a[input()] = 7; output(a[2]); }" = some program ∧
    let m := (emitProgram (withoutChecks {}) program).module.machine (arrayMemory.rename π)
    let m' := arrayMachine (emitProgram (withChecks {}) program)
    m.start kMainName [] arrayShared = some c ∧ m'.start kMainName [] arrayShared = some c' ∧
      (observed m').trace 10 c' = [.call "input" [], .store ⟨.global "a", 2⟩ (.i32 7),
        .load ⟨.global "a", 2⟩ (.i32 7), .call "output" [.i32 7]] ∧
      Matched π m m' c c' := by
  have hrun : (frontEnd "int a[3]; void main(void) { a[input()] = 7; output(a[2]); }").any
      (fun program =>
        let guarded := emitProgram (withChecks {}) program
        let m' := arrayMachine guarded
        (m'.start kMainName [] arrayShared).any fun c' =>
          isStopped (m'.run 10 c') &&
            (List.range 10).all (fun k => subscriptsAre isInt guarded (m'.run k c') &&
              reportsNothing m' (m'.run k c')) &&
            decide ((observed m').trace 10 c' = [.call "input" [], .store ⟨.global "a", 2⟩ (.i32 7),
              .load ⟨.global "a", 2⟩ (.i32 7), .call "output" [.i32 7]])) = true := by
    decide +kernel
  rw [Option.any_eq_true] at hrun
  obtain ⟨program, hprogram, hrun⟩ := hrun
  rw [Option.any_eq_true] at hrun
  obtain ⟨c', hstart', hrun⟩ := hrun
  simp only [Bool.and_eq_true, decide_eq_true_iff, List.all_eq_true, List.mem_range] at hrun
  obtain ⟨⟨hstops, hgood⟩, htrace⟩ := hrun
  obtain ⟨π, hguard⟩ := indexChecks_guard {} hprogram
  obtain ⟨c, last, hstart, hlast, hmatched, -⟩ := hguard Store arrayMemory arrayShared
  obtain rfl : last = c' := Option.some.inj (hlast.symm.trans hstart')
  refine ⟨program, π, c, last, hprogram, hstart, hlast, htrace, hmatched ?_⟩
  intro k
  constructor
  · apply subscripts_of_isInt
    exact run_forall (subscriptsAre isInt _) hstops (fun _ _ => rfl) (fun j hj => (hgood j hj).1) k
  · apply not_callsIndexError
    exact run_forall (reportsNothing _) hstops (fun _ _ => rfl) (fun j hj => (hgood j hj).2) k

end IRGenerator

end CMinus
