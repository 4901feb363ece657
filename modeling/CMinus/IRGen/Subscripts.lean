import CMinus.Runtime
import CMinus.IRGen.Verified

namespace CMinus

namespace IR

open SSA

/-! Running a module. -/

variable {M : Type}

def Module.machine (m : Module) (memory : MemOps M) : Machine Instr M World where
  memory := memory
  code := m.code
  entry name := (IRGenerator.getFunction m.functions name).bind fun f => f.blocks.head?
  runtime := runtime

end IR

namespace IRGenerator

open SSA IR

variable {M : Type} {p : Plan} {storage all : List Symbol} {done : List String}
  {K : Nat → Set Fact} {g : IRGenerator}

theorem checks_signs {Γ : Signatures} {f : Function} {A : Set Fact} {code : List Instr}
    (h : (typing Γ f).Checks K A code) : signs.Checks K A code := by
  induction code generalizing A with
  | nil => trivial
  | cons i code ih => exact ⟨h.1.2, h.2.1, ih h.2.2⟩

theorem Built.checks (h : Built p storage all done K g) (b : Nat) :
    signs.Checks K (K b) (g.builder.code b) := by
  by_cases hb : b < g.builder.nextBlock
  · obtain ⟨f, hf, hmem⟩ := h.housed b hb
    obtain ⟨entry, hcomplete⟩ := h.complete f hf (List.ne_nil_of_mem hmem)
    exact checks_signs (hcomplete.checks b hmem)
  · rw [h.valid.unborn b (Nat.le_of_not_lt hb)]
    trivial

theorem Built.entry (h : Built p storage all done K g) (memory : MemOps M) {name : String}
    {b : Nat} (hentry : (g.module.machine memory).entry name = some b) : K b = ∅ := by
  obtain ⟨f, hget, hhead⟩ := Option.bind_eq_some_iff.mp hentry
  obtain ⟨hf, -⟩ := getFunction_mem hget
  have hne : f.blocks ≠ [] := by
    intro hnil
    rw [hnil] at hhead
    cases hhead
  obtain ⟨entry, hcomplete⟩ := h.complete f hf hne
  obtain rfl : entry = b := Option.some.inj (hcomplete.starts.symm.trans hhead)
  exact hcomplete.nothing

theorem nonneg_of_slt {w : BitVec 32} (h : w.slt 0 = false) : 0 ≤ w.toInt := by
  simpa [BitVec.slt] using h

theorem Built.indexError_entry (h : Built p storage all done K g) (hfits : p.Fits all)
    (hcovers : Covers all done) (memory : MemOps M) :
    (g.module.machine memory).entry kIndexErrorName = none := by
  change (getFunction g.functions kIndexErrorName).bind _ = none
  cases hget : getFunction g.functions kIndexErrorName with
  | none => rfl
  | some f =>
      obtain ⟨hf, hname⟩ := getFunction_mem hget
      have hnot : f.name ∉ done := by
        intro hmem
        exact hfits.reserved (hname ▸ hcovers.names _ hmem)
      have hblocks : f.blocks = [] := by
        by_contra hne
        exact hnot ((h.bodies f hf).mp hne)
      simp [hblocks]

/-- The failing block calls the runtime with the value, and that is the end. -/
theorem run_failing {m : Machine Instr M World} {callers : List Frame}
    {shared : Shared M World} {frame : Frame} {index : Operand} {w : BitVec 32}
    (hentry : m.entry kIndexErrorName = none) (hruntime : m.runtime = runtime)
    (hcall : (m.code frame.block)[frame.position]? = some (.call none kIndexErrorName [index]))
    (hvalue : index.eval frame.env = some (.i32 w)) :
    m.step (.running frame callers shared) =
      .stopped .exited { shared with world := shared.world.indexError w } := by
  have hexec : Executable.exec m.memory (Instr.call none kIndexErrorName [index]) frame.env
      shared.mem = .call none kIndexErrorName [.i32 w] := by
    change IR.exec m.memory (.call none kIndexErrorName [index]) frame.env shared.mem = _
    simp [IR.exec, hvalue]
  rw [Machine.step_running callers shared hcall, hexec, Machine.perform_call]
  unfold Machine.enter
  rw [hentry, hruntime]
  rfl

end IRGenerator

end CMinus
