import CMinus.SSA.Machine

namespace SSA

/-! The outcome of a reference computation that is given fuel: its result, an orderly
stop, a fault, or the state in which the fuel ran out. -/

inductive Outcome (S α : Type) where
  | done (value : α) (state : S)
  | stopped (state : S)
  | fault (f : Fault)
  | timeout (state : S)

namespace Outcome

variable {S α β γ : Type}

def bind (outcome : Outcome S α) (next : α → S → Outcome S β) : Outcome S β :=
  match outcome with
  | .done value state => next value state
  | .stopped state => .stopped state
  | .fault f => .fault f
  | .timeout state => .timeout state

@[simp] theorem bind_done (value : α) (state : S) (next : α → S → Outcome S β) :
    (Outcome.done value state).bind next = next value state := rfl

@[simp] theorem bind_stopped (state : S) (next : α → S → Outcome S β) :
    (Outcome.stopped state).bind next = .stopped state := rfl

@[simp] theorem bind_fault (f : Fault) (next : α → S → Outcome S β) :
    (Outcome.fault f).bind next = .fault f := rfl

@[simp] theorem bind_timeout (state : S) (next : α → S → Outcome S β) :
    (Outcome.timeout state).bind next = .timeout state := rfl

@[simp] theorem bind_assoc (outcome : Outcome S α) (next : α → S → Outcome S β)
    (last : β → S → Outcome S γ) :
    (outcome.bind next).bind last = outcome.bind fun a s => (next a s).bind last := by
  cases outcome <;> rfl

/-! Only the faults that are allowed, and results as they are wanted. -/

def Safe (allowed : Fault → Prop) (outcome : Outcome S α) (Q : α → S → Prop) : Prop :=
  match outcome with
  | .done a s => Q a s
  | .fault f => allowed f
  | .stopped _ | .timeout _ => True

namespace Safe

variable {allowed : Fault → Prop} {outcome : Outcome S α} {Q R : α → S → Prop}

theorem mono (h : outcome.Safe allowed Q) (hQR : ∀ a s, Q a s → R a s) :
    outcome.Safe allowed R := by
  cases outcome with
  | done a s => exact hQR a s h
  | fault f => exact h
  | stopped s => trivial
  | timeout s => trivial

theorem any (outcome : Outcome S α) : outcome.Safe (fun _ => True) fun _ _ => True := by
  cases outcome with
  | done a s => trivial
  | fault f => trivial
  | stopped s => trivial
  | timeout s => trivial

theorem bind {next : α → S → Outcome S β} {R : β → S → Prop} (h : outcome.Safe allowed Q)
    (hnext : ∀ a s, Q a s → (next a s).Safe allowed R) :
    (outcome.bind next).Safe allowed R := by
  cases outcome with
  | done a s => exact hnext a s h
  | fault f => exact h
  | stopped s => trivial
  | timeout s => trivial

end Safe

end Outcome

/-! When a machine follows such a computation.  `Agrees` compares the states of the
two sides, and `mirrors` says which faults the machine has to show as well.  A
computation that needs more than `n` units of fuel keeps the machine busy for `n`
steps. -/

structure Comparison (I M W S : Type) where
  machine : Machine I M W
  Agrees : S → Shared M W → Prop
  mirrors : Fault → Prop

namespace Comparison

variable {I M W S α β : Type} [Executable I] (κ : Comparison I M W S)

def Simulates (n : Nat) (c : Config M W) (outcome : Outcome S α)
    (Q : α → S → Config M W → Prop) : Prop :=
  match outcome with
  | .done value state => ∃ k, Q value state (κ.machine.run k c)
  | .stopped state =>
      ∃ k shared, κ.machine.run k c = .stopped .exited shared ∧ κ.Agrees state shared
  | .fault f =>
      κ.mirrors f → ∃ k shared, κ.machine.run k c = .stopped (.faulted f) shared
  | .timeout state =>
      ∃ k top callers shared, n ≤ k ∧
        κ.machine.run k c = .running top callers shared ∧ κ.Agrees state shared

variable {κ} {n : Nat} {c : Config M W}

theorem Simulates.done {Q : α → S → Config M W → Prop} {value : α} {state : S}
    (h : Q value state c) : κ.Simulates n c (.done value state) Q :=
  ⟨0, h⟩

/-! Steps taken before count. -/

theorem Simulates.after {k : Nat} {outcome : Outcome S α}
    {Q : α → S → Config M W → Prop}
    (h : κ.Simulates n (κ.machine.run k c) outcome Q) :
    κ.Simulates (n + k) c outcome Q := by
  cases outcome with
  | done value state =>
      obtain ⟨j, hj⟩ := h
      exact ⟨k + j, by rwa [Machine.run_add]⟩
  | stopped state =>
      obtain ⟨j, shared, hj, hagrees⟩ := h
      exact ⟨k + j, shared, by rwa [Machine.run_add], hagrees⟩
  | fault f =>
      intro hf
      obtain ⟨j, shared, hj⟩ := h hf
      exact ⟨k + j, shared, by rwa [Machine.run_add]⟩
  | timeout state =>
      obtain ⟨j, top, callers, shared, hle, hj, hagrees⟩ := h
      exact ⟨k + j, top, callers, shared, by omega, by rwa [Machine.run_add], hagrees⟩

theorem Simulates.weaken {n' : Nat} {outcome : Outcome S α}
    {Q : α → S → Config M W → Prop} (h : κ.Simulates n' c outcome Q) (hle : n ≤ n') :
    κ.Simulates n c outcome Q := by
  cases outcome with
  | done value state => exact h
  | stopped state => exact h
  | fault f => exact h
  | timeout state =>
      obtain ⟨j, top, callers, shared, hj, hrun, hagrees⟩ := h
      exact ⟨j, top, callers, shared, Nat.le_trans hle hj, hrun, hagrees⟩

theorem Simulates.of_run {k : Nat} {outcome : Outcome S α}
    {Q : α → S → Config M W → Prop}
    (h : κ.Simulates n (κ.machine.run k c) outcome Q) : κ.Simulates n c outcome Q :=
  h.after.weaken (Nat.le_add_right n k)

theorem Simulates.of_step {outcome : Outcome S α} {Q : α → S → Config M W → Prop}
    (h : κ.Simulates n (κ.machine.step c) outcome Q) :
    κ.Simulates (n + 1) c outcome Q :=
  Simulates.after (k := 1) h

theorem Simulates.step {outcome : Outcome S α} {Q : α → S → Config M W → Prop}
    (h : κ.Simulates n (κ.machine.step c) outcome Q) : κ.Simulates n c outcome Q :=
  h.of_step.weaken (Nat.le_succ n)

theorem Simulates.mono {outcome : Outcome S α} {Q R : α → S → Config M W → Prop}
    (h : κ.Simulates n c outcome Q) (hQR : ∀ value state c', Q value state c' →
      R value state c') : κ.Simulates n c outcome R := by
  cases outcome with
  | done value state =>
      obtain ⟨k, hk⟩ := h
      exact ⟨k, hQR _ _ _ hk⟩
  | stopped state => exact h
  | fault f => exact h
  | timeout state => exact h

theorem Simulates.bind {outcome : Outcome S α} {next : α → S → Outcome S β}
    {Q : α → S → Config M W → Prop} {R : β → S → Config M W → Prop}
    (h : κ.Simulates n c outcome Q)
    (hnext : ∀ value state c', Q value state c' →
      κ.Simulates n c' (next value state) R) :
    κ.Simulates n c (outcome.bind next) R := by
  cases outcome with
  | done value state =>
      obtain ⟨k, hk⟩ := h
      exact (hnext _ _ _ hk).of_run
  | stopped state => exact h
  | fault f => exact h
  | timeout state => exact h

end Comparison

end SSA
