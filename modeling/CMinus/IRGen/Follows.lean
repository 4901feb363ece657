import CMinus.IRGen.Kept

namespace CMinus

namespace IRGenerator

open SSA IR Meaning

/-! `Writes`: run on a generator that emits, the action leaves it so, and its result is
`below` the registers made so far.  `Follows`: besides, its code does what the computation
does. -/

structure Writes {α : Type} (c : Site) (action : IRGenM α) (g : IRGenerator)
    (below : α → Nat → Prop) : Prop where
  emitting : c.Emitting (action g).2
  grows : Builder.Grows g.builder.nextBlock g.builder (action g).2.builder
  bounded : below (action g).1 (action g).2.builder.nextReg

structure Follows {α β : Type} (c : Site) (n : Nat) (P : Known) (action : IRGenM α)
    (source : Eval β) (g : IRGenerator) (below : α → Nat → Prop) (Q : α → β → Known) : Prop
    extends Writes c action g below where
  transfers : Transfers c.comparison n P g.builder (action g).2.builder source
    (Q (action g).1)

section follows

variable {α β γ δ : Type} {c : Site} {n : Nat} {P P' : Known} {g : IRGenerator}
  {action : IRGenM α} {source : Eval β} {below : α → Nat → Prop} {Q : α → β → Known}

theorem Writes.bind {next : α → IRGenM γ} {below' : γ → Nat → Prop}
    (h : Writes c action g below)
    (hnext : Writes c (next (action g).1) (action g).2 below') :
    Writes c (action >>= next) g below' :=
  ⟨hnext.emitting, h.grows.followed hnext.grows, hnext.bounded⟩

theorem Follows.weaken (h : Follows c n P action source g below Q)
    (hP : ∀ env mem, P' env mem → P env mem) : Follows c n P' action source g below Q :=
  ⟨h.toWrites, h.transfers.weaken hP⟩

theorem Follows.mono {Q' : α → β → Known} (h : Follows c n P action source g below Q)
    (hQ : ∀ a b env mem, Q a b env mem → Q' a b env mem) :
    Follows c n P action source g below Q' :=
  ⟨h.toWrites, h.transfers.mono (hQ _)⟩

theorem Follows.map {R : α → δ → Known} (h : Follows c n P action source g below Q) (f : β → δ)
    (hQ : ∀ a b env mem, Q a b env mem → R a (f b) env mem) :
    Follows c n P action (source >>= fun b => pure (f b)) g below R :=
  ⟨h.toWrites, h.transfers.map f (hQ _)⟩

theorem Follows.bind [Inhabited β] {next : α → IRGenM γ} {after : β → Eval δ}
    {below' : γ → Nat → Prop} {R : γ → δ → Known}
    (h : Follows c n P action source g below Q) (hP : P.Stable g.builder.nextReg)
    (hnext : ∀ a g', c.Emitting g' → g.builder.nextReg ≤ g'.builder.nextReg →
      below a g'.builder.nextReg → ∀ b,
      Follows c n (fun env mem => P env mem ∧ Q a b env mem) (next a) (after b) g' below' R) :
    Follows c n P (action >>= next) (source >>= after) g below' R := by
  have hrest := hnext _ _ h.emitting h.grows.regs h.bounded
  exact ⟨h.toWrites.bind (hrest default).toWrites,
    h.transfers.bind h.grows.regs (hrest default).grows hP fun b => (hrest b).transfers⟩

/-- The first action only computes an operand. -/
theorem Follows.next {b : β} {source : Eval δ} {next : α → IRGenM γ} {below' : γ → Nat → Prop}
    {R : γ → δ → Known} (h : Follows c n P action (pure b) g below Q)
    (hP : P.Stable g.builder.nextReg)
    (hnext : ∀ a g', c.Emitting g' → g.builder.nextReg ≤ g'.builder.nextReg →
      below a g'.builder.nextReg →
      Follows c n (fun env mem => P env mem ∧ Q a b env mem) (next a) source g' below' R) :
    Follows c n P (action >>= next) source g below' R := by
  have hrest := hnext _ _ h.emitting h.grows.regs h.bounded
  exact ⟨h.toWrites.bind hrest.toWrites,
    Transfers.next h.transfers h.grows.regs hrest.grows hP hrest.transfers⟩

theorem follows_pure {a : α} {b : β} (h : c.Emitting g) (hbelow : below a g.builder.nextReg)
    (hQ : ∀ env mem, P env mem → Q a b env mem) :
    Follows c n P (pure a) (pure b) g below Q :=
  ⟨⟨h, .refl _ _, hbelow⟩, .stay rfl rfl hQ⟩

theorem Follows.of_eq {other : IRGenM α} (h : Follows c n P other source g below Q)
    (heq : action g = other g) : Follows c n P action source g below Q := by
  refine ⟨⟨?_, ?_, ?_⟩, ?_⟩
  · rw [heq]
    exact h.emitting
  · rw [heq]
    exact h.grows
  · rw [heq]
    exact h.bounded
  · rw [heq]
    exact h.transfers

/-- What does not touch the builder may come first. -/
theorem Follows.after {next : α → IRGenM γ} {below' : γ → Nat → Prop} {R : γ → β → Known}
    (hbuilder : (action g).2.builder = g.builder)
    (h : Follows c n P (next (action g).1) source (action g).2 below' R) :
    Follows c n P (action >>= next) source g below' R := by
  refine ⟨⟨h.emitting, ?_, h.bounded⟩, ?_⟩
  · have hgrows := h.grows
    rw [hbuilder] at hgrows
    exact hgrows
  · have htransfers := h.transfers
    rw [hbuilder] at htransfers
    exact htransfers

/-- Nothing is asked where the computation has no result. -/
theorem follows_fault {f : Fault} (h : Writes c action g below) :
    Follows c n P action (fault f : Eval β) g below Q :=
  ⟨h, .fault f id⟩

/-! One instruction. -/

theorem writing_define {s : Builder Instr} (h : s.Writing) {i : Nat → Instr}
    (hterm : (i s.nextReg).isTerminator = false) : (s.define i).Writing :=
  (Builder.Flow.define h hterm (straight hterm) : Builder.Flow 0 true s _).writing

theorem writing_append {s : Builder Instr} (h : s.Writing) {i : Instr}
    (hterm : i.isTerminator = false) : (s.append i).Writing :=
  (Builder.Flow.append h hterm (straight hterm) : Builder.Flow 0 true s _).writing

theorem Emitting.define (hg : c.Emitting g) {i : Nat → Instr}
    (hterm : (i g.builder.nextReg).isTerminator = false) :
    c.Emitting { g with builder := g.builder.define i } :=
  ⟨writing_define hg.writing hterm, hg.kept.builder (Nat.le_succ _)⟩

theorem Emitting.append (hg : c.Emitting g) {i : Instr} (hterm : i.isTerminator = false) :
    c.Emitting { g with builder := g.builder.append i } :=
  ⟨writing_append hg.writing hterm, hg.kept.builder le_rfl⟩

theorem writes_define {i : Nat → Instr} (hg : c.Emitting g)
    (hterm : (i g.builder.nextReg).isTerminator = false) :
    Writes c (define i) g fun v n => v.Below n := by
  refine ⟨Emitting.define hg hterm, .define _ _ _, ?_⟩
  intro r hr
  rw [List.mem_singleton.mp hr]
  exact Nat.lt_succ_self _

theorem follows_define {i : Nat → Instr} {Q : Operand → β → Known} (hg : c.Emitting g)
    (hterm : (i g.builder.nextReg).isTerminator = false)
    (h : ∀ state env shared, c.setting.Agrees state shared → P env shared.mem →
      Matches c.comparison g.builder.nextReg (i g.builder.nextReg) env shared (source state)
        (Q (.reg g.builder.nextReg))) :
    Follows c n P (define i) source g (fun v n => v.Below n) Q :=
  ⟨writes_define hg hterm, .instr rfl rfl h⟩

/-- The instruction only computes a value. -/
theorem follows_compute {i : Nat → Instr} {b : β} {Q : Operand → β → Known}
    (hg : c.Emitting g) (hterm : (i g.builder.nextReg).isTerminator = false)
    (h : ∀ env mem, P env mem → ∃ v,
      IR.exec c.setting.machine.memory (i g.builder.nextReg) env mem =
        .next (env.set g.builder.nextReg v) mem ∧
      Q (.reg g.builder.nextReg) b (env.set g.builder.nextReg v) mem) :
    Follows c n P (define i) (pure b) g (fun v n => v.Below n) Q := by
  apply follows_define hg hterm
  intro state env shared hagrees hP
  obtain ⟨v, hexec, hQ⟩ := h env shared.mem hP
  exact ⟨_, _, hexec, hagrees, .set env le_rfl v, .refl _, hQ⟩

/-! `Create...`: folded, or an instruction. -/

theorem writes_foldOr {folded : Option Operand} {i : Nat → Instr} (hg : c.Emitting g)
    (hterm : (i g.builder.nextReg).isTerminator = false)
    (hfolded : ∀ v, folded = some v → v.regs = []) :
    Writes c (foldOr folded i) g fun v n => v.Below n := by
  cases folded with
  | some v =>
      refine ⟨hg, .refl _ _, ?_⟩
      intro r hr
      have hregs := hfolded v rfl
      change r ∈ v.regs at hr
      rw [hregs] at hr
      cases hr
  | none => exact writes_define hg hterm

theorem follows_foldOr {folded : Option Operand} {i : Nat → Instr} {b : β}
    {Q : Operand → β → Known} (hg : c.Emitting g)
    (hterm : (i g.builder.nextReg).isTerminator = false)
    (hfolded : ∀ v, folded = some v → v.regs = [] ∧ ∀ env mem, P env mem → Q v b env mem)
    (h : ∀ env mem, P env mem → ∃ v,
      IR.exec c.setting.machine.memory (i g.builder.nextReg) env mem =
        .next (env.set g.builder.nextReg v) mem ∧
      Q (.reg g.builder.nextReg) b (env.set g.builder.nextReg v) mem) :
    Follows c n P (foldOr folded i) (pure b) g (fun v n => v.Below n) Q := by
  have hwrites := writes_foldOr hg hterm fun v hv => (hfolded v hv).1
  cases folded with
  | some v => exact ⟨hwrites, .stay rfl rfl (hfolded v rfl).2⟩
  | none => exact follows_compute hg hterm h

end follows

end IRGenerator

end CMinus
