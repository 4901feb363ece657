import CMinus.SSA.Machine

namespace SSA

namespace Machine

variable {I M W : Type}

/-! The stack of a run: `Base` holds of the frame at the bottom, `Inner` of every frame
above it. -/

def Layered (Inner Base : Frame → Prop) : Frame → List Frame → Prop
  | bottom, [] => Base bottom
  | top, caller :: callers => Inner top ∧ Layered Inner Base caller callers

def ConfigLayered (Inner Base : Frame → Prop) : Config M W → Prop
  | .running top callers _ => Layered Inner Base top callers
  | .stopped _ _ => True

/-- The instruction that comes next, and what it does. -/
def Performs [Executable I] (m : Machine I M W) (c : Config M W) (effect : Effect M) : Prop :=
  ∃ top callers shared i, c = .running top callers shared ∧
    (m.code top.block)[top.position]? = some i ∧
    Executable.exec m.memory i top.env shared.mem = effect

/-- The same activation, further on. -/
structure Continues [Executable I] (m : Machine I M W) (frame frame' : Frame) : Prop where
  activation : frame'.env.activation = frame.env.activation
  block : frame'.block = frame.block ∨ ∃ i ∈ m.code frame.block, ∃ env mem,
    Executable.exec m.memory i env mem = .jump frame'.block

/-- An instruction stays in its activation. -/
structure Steady (I : Type) [Executable I] : Prop where
  next : ∀ {M : Type} (mem : MemOps M) (i : I) (env env' : Env) (m m' : M),
    Executable.exec mem i env m = .next env' m' → env'.activation = env.activation

variable [Executable I] {m : Machine I M W} {Inner Base : Frame → Prop}

theorem Layered.continues {top top' : Frame} {callers : List Frame}
    (hinner : ∀ frame frame', m.Continues frame frame' → Inner frame → Inner frame')
    (hbase : ∀ frame frame', m.Continues frame frame' → Base frame → Base frame')
    (hcontinues : m.Continues top top') (h : Layered Inner Base top callers) :
    Layered Inner Base top' callers := by
  cases callers with
  | nil => exact hbase top top' hcontinues h
  | cons caller callers => exact ⟨hinner top top' hcontinues h.1, h.2⟩

theorem Continues.receive (frame : Frame) (position : Nat) (result : Option Nat)
    (value : Option Value) :
    m.Continues frame
      { frame with position := position, env := frame.env.receive result value } :=
  ⟨Env.receive_activation frame.env result value, .inl rfl⟩

theorem Continues.position (frame : Frame) (position : Nat) :
    m.Continues frame { frame with position := position } :=
  ⟨rfl, .inl rfl⟩

theorem layered_step (hsteady : Steady I)
    (hinner : ∀ frame frame', m.Continues frame frame' → Inner frame → Inner frame')
    (hbase : ∀ frame frame', m.Continues frame frame' → Base frame → Base frame')
    {c : Config M W}
    (hcall : ∀ r callee args block, m.Performs c (.call r callee args) →
      m.entry callee = some block →
        Inner ⟨block, 0, .enter c.shared.activations args, r⟩)
    (h : ConfigLayered Inner Base c) : ConfigLayered Inner Base (m.step c) := by
  cases c with
  | stopped final shared => trivial
  | running top callers shared =>
      cases hi : (m.code top.block)[top.position]? with
      | none =>
          simp only [Machine.step, hi]
          trivial
      | some i =>
          rw [step_running callers shared hi]
          have hmove : ∀ {top' : Frame}, m.Continues top top' →
              Layered Inner Base top' callers :=
            fun hcontinues => h.continues hinner hbase hcontinues
          cases heffect : Executable.exec m.memory i top.env shared.mem with
          | next env mem =>
              rw [perform_next]
              exact hmove ⟨hsteady.next _ _ _ _ _ _ heffect, .inl rfl⟩
          | jump b =>
              rw [perform_jump]
              exact hmove ⟨rfl, .inr ⟨i, List.mem_of_getElem? hi, _, _, heffect⟩⟩
          | call r callee args =>
              rw [perform_call]
              unfold Machine.enter
              split
              · next b hb =>
                  refine ⟨?_, hmove (.position top _)⟩
                  exact hcall r callee args b ⟨top, callers, shared, i, rfl, hi, heffect⟩ hb
              · split
                · exact hmove (.receive top _ _ _)
                · trivial
                · trivial
          | ret value =>
              rw [perform_ret]
              cases callers with
              | nil => trivial
              | cons caller callers =>
                  obtain ⟨-, hcallers⟩ := h
                  exact hcallers.continues hinner hbase (.receive caller _ _ _)
          | fault f => trivial

/-! Activations are numbered as they begin. -/

theorem activations_step (c : Config M W) :
    c.shared.activations ≤ (m.step c).shared.activations := by
  cases c with
  | stopped final shared => exact Nat.le_refl _
  | running top callers shared =>
      cases hi : (m.code top.block)[top.position]? with
      | none =>
          simp only [Machine.step, hi]
          exact Nat.le_refl _
      | some i =>
          rw [step_running callers shared hi]
          cases Executable.exec m.memory i top.env shared.mem with
          | next env mem => exact Nat.le_refl _
          | jump b => exact Nat.le_refl _
          | call r callee args =>
              rw [perform_call]
              unfold Machine.enter
              split
              · exact Nat.le_succ _
              · split
                · exact Nat.le_refl _
                · exact Nat.le_refl _
                · exact Nat.le_refl _
          | ret value =>
              cases callers with
              | nil => exact Nat.le_refl _
              | cons caller callers => exact Nat.le_refl _
          | fault f => exact Nat.le_refl _

/-- `first` is the activation at the bottom, and the others came later. -/
def Based (first : Nat) (c : Config M W) : Prop :=
  ConfigLayered (fun frame => first < frame.env.activation)
    (fun frame => frame.env.activation = first) c ∧ first < c.shared.activations

theorem Based.step (hsteady : Steady I) {first : Nat} (c : Config M W) (h : Based first c) :
    Based first (m.step c) := by
  obtain ⟨hlayered, hlater⟩ := h
  constructor
  · apply layered_step hsteady _ _ _ hlayered
    · intro frame frame' hcontinues hinner
      rw [hcontinues.activation]
      exact hinner
    · intro frame frame' hcontinues hbase
      rw [hcontinues.activation]
      exact hbase
    · intro r callee args block _ _
      exact hlater
  · exact Nat.lt_of_lt_of_le hlater (activations_step c)

theorem Based.run (hsteady : Steady I) {callee : String} {args : List Value}
    {shared : Shared M W} {c : Config M W} (hstart : m.start callee args shared = some c)
    (n : Nat) : Based shared.activations (m.run n c) := by
  apply run_induction (Based.step hsteady)
  obtain ⟨b, hb, rfl⟩ := Option.map_eq_some_iff.mp hstart
  exact ⟨rfl, Nat.lt_succ_self _⟩

omit [Executable I] in
theorem Based.bottom {first : Nat} {top : Frame} {callers : List Frame} {shared : Shared M W}
    (h : Based first (.running top callers shared)) :
    top.env.activation = first ↔ callers = [] := by
  obtain ⟨hlayered, -⟩ := h
  cases callers with
  | nil => exact ⟨fun _ => rfl, fun _ => hlayered⟩
  | cons caller callers =>
      constructor
      · intro hfirst
        exact absurd hfirst (Nat.ne_of_gt hlayered.1)
      · intro hnil
        cases hnil

/-! What holds of an outermost activation, where no step of the run calls for another. -/

theorem layered_run (hsteady : Steady I)
    (hinner : ∀ frame frame', m.Continues frame frame' → Inner frame → Inner frame')
    (hbase : ∀ frame frame', m.Continues frame frame' → Base frame → Base frame')
    {c : Config M W} (h : ConfigLayered Inner Base c) (n : Nat)
    (hcall : ∀ k, k < n → ∀ r callee args block, m.Performs (m.run k c) (.call r callee args) →
      m.entry callee = some block →
        Inner ⟨block, 0, .enter (m.run k c).shared.activations args, r⟩) :
    ConfigLayered Inner Base (m.run n c) := by
  induction n with
  | zero => exact h
  | succ n ih =>
      rw [run_succ']
      apply layered_step hsteady hinner hbase (hcall n (Nat.lt_succ_self n))
      exact ih fun k hk => hcall k (Nat.lt_succ_of_lt hk)

end Machine

end SSA
