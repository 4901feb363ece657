import CMinus.IRGen.Places

namespace CMinus

namespace IRGenerator

open SSA IR Meaning

/-! The parts of a subscript, in the order in which the generator emits them. -/

def checkSign (index : BitVec 32) : Eval Unit :=
  if index.slt 0 then indexError index else pure ()

def within (array : Variable) (index : BitVec 32) : Eval (Variable × Int) :=
  if index.toInt < array.symbol.arraySize then pure (array, index.toInt) else fault .access

theorem element_eq (a : Activation) (symbol : Symbol) (index : BitVec 32) :
    element a symbol index =
      checkSign index >>= fun _ => arrayOf a symbol >>= fun array => within array index := by
  unfold element checkSign
  split <;> rfl

section check

variable {c : Site} {n : Nat} {P : Known} {g : IRGenerator} {value : Operand}
  {index : BitVec 32}

theorem report_builder (hc : c.Proper) (h : Signed c.functions g) (value : Operand) :
    ((do
      let callee ← indexErrorFunction
      let _ ← createCall callee [value]
      emit .unreachable : IRGenM Unit) g).2.builder =
      (g.builder.append (.call none kIndexErrorName [value])).append .unreachable := by
  obtain ⟨-, hname, hvoid⟩ := h.indexErrorFunction hc.scene.reserved
  have hbuilder : (indexErrorFunction g).2.builder = g.builder := by
    unfold indexErrorFunction
    split <;> rfl
  change (emit .unreachable (createCall (indexErrorFunction g).1 [value]
    (indexErrorFunction g).2).2).2.builder = _
  unfold createCall
  rw [if_pos hvoid, ← hname, ← hbuilder]
  rfl

/-- The branch on the test, with the block for a bad subscript. -/
def fork (negative value : Operand) (fail ok : Nat) : IRGenM Unit := do
  emit (.condBr negative fail ok)
  setInsertPoint fail
  let callee ← indexErrorFunction
  let _ ← createCall callee [value]
  emit .unreachable
  setInsertPoint ok

theorem fork_builder (hc : c.Proper) (h : Signed c.functions g) (negative value : Operand)
    (fail ok : Nat) :
    (fork negative value fail ok g).2.builder =
      ((((g.builder.append (.condBr negative fail ok)).moveTo fail).append
        (.call none kIndexErrorName [value])).append .unreachable).moveTo ok := by
  let u := (g.builder.append (.condBr negative fail ok)).moveTo fail
  have hreport := report_builder (g := { g with builder := u }) hc ⟨h.keys, h.types, h.report⟩ value
  exact congrArg (fun s => s.moveTo ok) hreport

theorem fork_grows (hc : c.Proper) (h : Signed c.functions g) (negative value : Operand)
    (fail ok : Nat) :
    Builder.Grows 0 g.builder (fork negative value fail ok g).2.builder := by
  rw [fork_builder hc h]
  apply (Builder.Grows.append 0 g.builder (.condBr negative fail ok)).trans
  apply (Builder.Grows.moveTo _ (Nat.zero_le fail)).trans
  apply (Builder.Grows.append 0 _ (.call none kIndexErrorName [value])).trans
  apply (Builder.Grows.append 0 _ .unreachable).trans
  exact Builder.Grows.moveTo _ (Nat.zero_le ok)

theorem transfers_fork (hc : c.Proper) (h : Signed c.functions g) {negative : Operand}
    {fail ok : Nat} (hfail : g.builder.code fail = []) (hok : g.builder.code ok = [])
    (hne : fail ≠ ok) (hcurfail : g.builder.cur ≠ fail) (hcurok : g.builder.cur ≠ ok)
    (hnegative : ∀ env mem, P env mem → Denotes negative (.i1 (index.slt 0)) env mem)
    (hvalue : ∀ env mem, P env mem → Denotes value (.i32 index) env mem) :
    Transfers c.comparison n P g.builder (fork negative value fail ok g).2.builder
      (checkSign index) fun _ env mem => P env mem ∧ index.slt 0 = false := by
  let u := (g.builder.append (.condBr negative fail ok)).moveTo fail
  let call : Instr := .call none kIndexErrorName [value]
  let w := u.append call
  let v := w.append .unreachable
  have hbuilder : (fork negative value fail ok g).2.builder = v.moveTo ok :=
    fork_builder hc h negative value fail ok
  rw [hbuilder]
  have hempty : u.code fail = [] :=
    (g.builder.append_code_of_ne _ (Ne.symm hcurfail)).trans hfail
  have hcode : v.code fail = [call, .unreachable] := by
    change (w.append .unreachable).code w.cur = _
    rw [Builder.append_code_cur]
    change (u.append call).code u.cur ++ _ = _
    rw [Builder.append_code_cur]
    change (u.code fail ++ _) ++ _ = _
    rw [hempty]
    rfl
  have hold : ∀ b, b ≠ fail → v.code b = u.code b := by
    intro b hb
    exact (w.append_code_of_ne .unreachable hb).trans (u.append_code_of_ne call hb)
  intro hwithin state env result callers shared hagrees hP
  have hbranch : (c.setting.machine.code g.builder.cur)[g.builder.position]? =
      some (.condBr negative fail ok) := by
    apply hwithin.at
    change (v.code g.builder.cur)[g.builder.position]? = _
    rw [hold _ hcurfail]
    exact g.builder.appended _
  have hcall : (c.setting.machine.code fail)[0]? = some (.call none kIndexErrorName [value]) := by
    apply hwithin.at
    change (v.code fail)[0]? = _
    rw [hcode]
    rfl
  have htest : negative.eval env = some (.i1 (index.slt 0)) := hnegative env _ hP
  have hexec : Executable.exec c.setting.machine.memory (Instr.condBr negative fail ok) env
      shared.mem = .jump (if index.slt 0 then fail else ok) := by
    change IR.exec c.setting.machine.memory (.condBr negative fail ok) env shared.mem = _
    simp only [IR.exec, htest]
  refine Comparison.Simulates.weaken (Comparison.Simulates.instr (κ := c.comparison) hbranch ?_)
    (Nat.le_succ n)
  change c.comparison.Simulates n (Machine.perform _ _ _ _
    (Executable.exec c.setting.machine.memory _ _ _)) _ _
  rw [hexec, Machine.perform_jump]
  unfold checkSign
  cases hsign : index.slt 0 with
  | true =>
      refine ⟨1, { shared with world := shared.world.indexError index }, ?_, ?_⟩
      · exact run_failing hc.setting.report hc.setting.runtime hcall (hvalue env _ hP)
      · have hevent := hagrees.event (shared.world.indexError index)
        rw [hagrees.world] at hevent
        rw [hagrees.world]
        exact hevent
  | false =>
      refine .done ⟨env, shared, ?_, hagrees, .refl _ _, .refl _, hP, rfl⟩
      have hposition : (v.moveTo ok).position = 0 := by
        apply Builder.position_moveTo
        rw [hold ok hne.symm]
        exact (g.builder.append_code_of_ne _ (Ne.symm hcurok)).trans hok
      rw [hposition]
      rfl

theorem foldOr_cur (folded : Option Operand) (i : Nat → Instr) (g : IRGenerator) :
    (foldOr folded i g).2.builder.cur = g.builder.cur := by
  cases folded <;> rfl

theorem writes_of_flows {α : Type} {action : IRGenM α} {below : α → Nat → Prop}
    (hg : c.Emitting g) (hflows : ∀ entry, Flows entry true action) (hkept : c.Preserves action)
    (hbelow : below (action g).1 (action g).2.builder.nextReg) : Writes c action g below := by
  have hflow := (hflows g.builder.cur).flow g hg.writing hg.writing.born
  exact ⟨⟨hflow.writing, hkept.kept g hg.kept⟩, hflow.grows, hbelow⟩

/-- Where the check is made when the program runs. -/
theorem follows_test (hc : c.Proper) (hg : c.Emitting g) (hbelow : value.Below g.builder.nextReg)
    (hstable : P.Stable g.builder.nextReg) (hknown : isNonNegative value = false)
    (hx : ∀ env mem, P env mem → Denotes value (.i32 index) env mem) :
    Follows c n P (checkIndex c.setting.options value) (checkSign index) g
      (fun v n => v.Below n) fun v _ env mem =>
        Denotes v (.i32 index) env mem ∧ index.slt 0 = false := by
  let b := g.builder.nextBlock
  let g2 : IRGenerator :=
    { g with builder := (g.builder.newBlock.attach b).newBlock.attach (b + 1) }
  let negative := (createICmp .slt value (int32 0) g2).1
  let g3 := (createICmp .slt value (int32 0) g2).2
  have hrun : checkIndex c.setting.options value g =
      (value, (fork negative value b (b + 1) g3).2) := by
    unfold checkIndex
    rw [hc.setting.checks, hknown]
    rfl
  have hborn : g.builder.cur < b := hg.writing.born
  have hwriting : g2.builder.Writing :=
    ⟨(((hg.writing.toTidy.newBlock).attach b).newBlock).attach (b + 1),
      Nat.lt_add_right 2 hborn, hg.writing.isOpen⟩
  have hg2 : c.Emitting g2 := ⟨hwriting, hg.kept.builder le_rfl⟩
  have htest : Follows c n P (createICmp .slt value (int32 0)) (pure ()) g2
      (fun v n => v.Below n) fun v _ => Denotes v (.i1 (Compare.slt.apply index 0)) :=
    follows_createICmp hg2 .slt hx (fun env mem _ => rfl) fun _ _ _ h => h
  have hsigned : Signed c.functions g3 := htest.emitting.kept.signed
  have hempty : ∀ block, b ≤ block → block < b + 2 → g3.builder.code block = [] := by
    intro block hle hlt
    rw [htest.grows.frame block hlt (Nat.ne_of_gt (hborn.trans_le hle))]
    exact hg.writing.unborn block hle
  have hcur : g3.builder.cur = g.builder.cur := foldOr_cur _ _ g2
  have hregs : g.builder.nextReg ≤ g3.builder.nextReg := htest.grows.regs
  have hgrows := fork_grows hc hsigned negative value b (b + 1)
  have hfork : Transfers c.comparison n (fun env mem =>
      P env mem ∧ Denotes negative (.i1 (index.slt 0)) env mem) g3.builder _ (checkSign index) _ :=
    transfers_fork hc hsigned (hempty b le_rfl (by omega))
      (hempty (b + 1) (by omega) (by omega)) (by omega) (by omega) (by omega) (fun env mem h => h.2) (fun env mem h => hx env mem h.1)
  have htransfers := Transfers.next htest.transfers hregs hgrows hstable hfork
  refine ⟨writes_of_flows hg (fun entry => flows_checkIndex _ value)
    (Site.preserves_checkIndex hc _ value) ?_, ?_⟩
  · rw [hrun]
    exact fun r hr => (hbelow r hr).trans_le (hregs.trans hgrows.regs)
  · rw [hrun]
    exact htransfers.mono fun _ env mem h => ⟨hx env mem h.1.1, h.2⟩

theorem follows_checkIndex (hc : c.Proper) (hg : c.Emitting g)
    (hbelow : value.Below g.builder.nextReg) (hstable : P.Stable g.builder.nextReg)
    (hx : ∀ env mem, P env mem → Denotes value (.i32 index) env mem) :
    Follows c n P (checkIndex c.setting.options value) (checkSign index) g
      (fun v n => v.Below n) fun v _ env mem =>
        Denotes v (.i32 index) env mem ∧ index.slt 0 = false := by
  cases hknown : isNonNegative value with
  | false => exact follows_test hc hg hbelow hstable hknown hx
  | true =>
      have hskip : checkIndex c.setting.options value = pure value := by
        unfold checkIndex
        rw [hc.setting.checks, hknown]
        rfl
      rw [hskip]
      have hsign : ∀ env mem, P env mem → index.slt 0 = false := by
        intro env mem hP
        have hvalue := hx env mem hP
        cases value with
        | i32 w =>
            cases hvalue
            simpa [isNonNegative] using hknown
        | _ => cases hknown
      unfold checkSign
      split
      · next hneg =>
          refine ⟨⟨hg, .refl _ _, hbelow⟩, ?_⟩
          intro _ state env result callers shared _ hP
          rw [hsign env _ hP] at hneg
          cases hneg
      · exact follows_pure hg hbelow fun env mem hP => ⟨hx env mem hP, hsign env mem hP⟩

end check

end IRGenerator

end CMinus
