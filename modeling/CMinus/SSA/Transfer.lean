import CMinus.SSA.Builder
import CMinus.SSA.Memory
import CMinus.SSA.Simulation

namespace SSA

/-! The same activation later on: the registers below `n` are as they were. -/

structure Env.Keeps (n : Nat) (env env' : Env) : Prop where
  activation : env'.activation = env.activation
  args : env'.args = env.args
  regs : ∀ r, r < n → env'.regs r = env.regs r

namespace Env.Keeps

variable {n m : Nat} {env env' env'' : Env}

theorem refl (n : Nat) (env : Env) : env.Keeps n env := ⟨rfl, rfl, fun _ _ => rfl⟩

theorem mono (h : env.Keeps m env') (hle : n ≤ m) : env.Keeps n env' :=
  ⟨h.activation, h.args, fun r hr => h.regs r (hr.trans_le hle)⟩

theorem trans (h : env.Keeps n env') (h' : env'.Keeps m env'') (hle : n ≤ m) :
    env.Keeps n env'' := by
  refine ⟨h'.activation.trans h.activation, h'.args.trans h.args, ?_⟩
  intro r hr
  rw [h'.regs r (hr.trans_le hle), h.regs r hr]

theorem set (env : Env) {r : Nat} (hle : n ≤ r) (v : Value) : env.Keeps n (env.set r v) :=
  ⟨rfl, rfl, fun _ hq => env.set_regs_of_ne v (Nat.ne_of_lt (hq.trans_le hle))⟩

end Env.Keeps

namespace Store

/-! Storage that is there stays there, with the size it has. -/

def HasSize (mem : Store) (key : Key) (size : Int) : Prop :=
  ∃ block, mem key = some block ∧ block.size = size

def Keeps (mem mem' : Store) : Prop :=
  ∀ key size, mem.HasSize key size → mem'.HasSize key size

variable {mem mem' mem'' : Store} {key : Key} {size : Int}

theorem Keeps.refl (mem : Store) : mem.Keeps mem := fun _ _ h => h

theorem Keeps.trans (h : mem.Keeps mem') (h' : mem'.Keeps mem'') : mem.Keeps mem'' :=
  fun key size hsize => h' key size (h key size hsize)

theorem HasSize.valid (h : mem.HasSize key size) {i : Int} (hle : 0 ≤ i) (hlt : i < size) :
    mem.valid ⟨key, i⟩ = true := by
  obtain ⟨block, hblock, rfl⟩ := h
  exact valid_iff.mpr ⟨block, hblock, hle, hlt⟩

theorem Keeps.write (mem : Store) (a : Address) (v : Value) : mem.Keeps (mem.write a v) := by
  rintro key size ⟨block, hblock, hsize⟩
  unfold Store.write
  cases ha : mem a.key with
  | none => exact ⟨block, hblock, hsize⟩
  | some target =>
      by_cases hkey : key = a.key
      · subst hkey
        obtain rfl : block = target := Option.some.inj (hblock.symm.trans ha)
        exact ⟨_, set_self mem a.key _, hsize⟩
      · exact ⟨block, (set_of_ne mem _ hkey).trans hblock, hsize⟩

theorem Keeps.set {block : Block} (h : mem key = none) : mem.Keeps (mem.set key block) := by
  rintro other size ⟨found, hfound, hsize⟩
  have hne : other ≠ key := by
    rintro rfl
    rw [h] at hfound
    cases hfound
  exact ⟨found, (set_of_ne mem block hne).trans hfound, hsize⟩

theorem load_write (h : mem.HasSize key size) (i : Int) (v : Value) (a : Address) :
    (mem.write ⟨key, i⟩ v).load a = if a = ⟨key, i⟩ then v else mem.load a := by
  obtain ⟨block, hblock, -⟩ := h
  obtain ⟨other, j⟩ := a
  unfold load Store.write
  simp only [hblock]
  by_cases hkey : other = key
  · subst hkey
    rw [set_self, hblock]
    by_cases hj : j = i
    · subst hj
      simp
    · simp [hj]
  · rw [set_of_ne mem _ hkey, if_neg]
    rintro ⟨⟩
    exact hkey rfl

theorem write_none (h : mem key = none) (a : Address) (v : Value) : mem.write a v key = none := by
  unfold Store.write
  cases ha : mem a.key with
  | none => exact h
  | some block =>
      have hne : key ≠ a.key := by
        rintro rfl
        rw [h] at ha
        cases ha
      exact (set_of_ne mem _ hne).trans h

theorem load_set_of_ne {block : Block} {a : Address} (h : a.key ≠ key) :
    (mem.set key block).load a = mem.load a := by
  unfold load
  rw [set_of_ne mem block h]

end Store

/-! What is known of an environment and a memory, and that it stays known. -/

abbrev Known : Type := Env → Store → Prop

namespace Known

structure Stable (n : Nat) (P : Known) : Prop where
  later : ∀ {env env' : Env} {mem mem' : Store}, env.Keeps n env' → mem.Keeps mem' →
    P env mem → P env' mem'

variable {n m : Nat} {P Q : Known}

theorem Stable.mono (h : Stable n P) (hle : n ≤ m) : Stable m P :=
  ⟨fun henv hmem hP => h.later (henv.mono hle) hmem hP⟩

theorem Stable.and (hP : Stable n P) (hQ : Stable n Q) :
    Stable n fun env mem => P env mem ∧ Q env mem :=
  ⟨fun henv hmem h => ⟨hP.later henv hmem h.1, hQ.later henv hmem h.2⟩⟩

theorem Stable.const (n : Nat) (p : Prop) : Stable n fun _ _ => p := ⟨fun _ _ h => h⟩

end Known

/-! Emission from `s` to `t` transfers a computation to the machine: run from where `s`
stands, the machine does what the computation does and arrives where `t` stands. -/

section transfer

variable {I W S α β : Type} [Executable I] (κ : Comparison I Store W S)

/-- The machine is at a place of the same frame. -/
def Arrives (low : Nat) (start : Env) (mem : Store) (result : Option Nat)
    (callers : List Frame) (block position : Nat) (Q : Known) (state : S)
    (c : Config Store W) : Prop :=
  ∃ env shared, c = .running ⟨block, position, env, result⟩ callers shared ∧
    κ.Agrees state shared ∧ start.Keeps low env ∧ mem.Keeps shared.mem ∧ Q env shared.mem

def Transfers (n : Nat) (P : Known) (s t : Builder I) (source : S → Outcome S α)
    (Q : α → Known) : Prop :=
  t.Within κ.machine.code → ∀ state env result callers shared, κ.Agrees state shared →
    P env shared.mem →
    κ.Simulates n (.running ⟨s.cur, s.position, env, result⟩ callers shared) (source state)
      fun a => Arrives κ s.nextReg env shared.mem result callers t.cur t.position (Q a)

variable {κ} {n low high : Nat} {start env : Env} {mem mem' : Store} {result : Option Nat}
  {callers : List Frame} {block position : Nat} {P P' : Known} {s t u : Builder I}
  {source : S → Outcome S α} {Q : α → Known} {R : β → Known}

omit [Executable I] in
theorem Arrives.mono {Q Q' : Known} {state : S} {c : Config Store W}
    (h : Arrives κ low start mem result callers block position Q state c)
    (hQ : ∀ env mem, Q env mem → Q' env mem) :
    Arrives κ low start mem result callers block position Q' state c := by
  obtain ⟨env, shared, hc, hagrees, henv, hmem, hknown⟩ := h
  exact ⟨env, shared, hc, hagrees, henv, hmem, hQ _ _ hknown⟩

omit [Executable I] in
/-- Arriving later on, seen from an earlier point. -/
theorem Arrives.since {Q : Known} {state : S} {c : Config Store W}
    (h : Arrives κ high env mem' result callers block position Q state c)
    (henv : start.Keeps low env) (hmem : mem.Keeps mem') (hle : low ≤ high) :
    Arrives κ low start mem result callers block position Q state c := by
  obtain ⟨env', shared, hc, hagrees, henv', hmem', hknown⟩ := h
  exact ⟨env', shared, hc, hagrees, henv.trans henv' hle, hmem.trans hmem', hknown⟩

theorem Transfers.weaken (h : Transfers κ n P s t source Q)
    (hP : ∀ env mem, P' env mem → P env mem) : Transfers κ n P' s t source Q :=
  fun hwithin state env result callers shared hagrees hknown =>
    h hwithin state env result callers shared hagrees (hP _ _ hknown)

theorem Transfers.mono {Q' : α → Known} (h : Transfers κ n P s t source Q)
    (hQ : ∀ a env mem, Q a env mem → Q' a env mem) : Transfers κ n P s t source Q' :=
  fun hwithin state env result callers shared hagrees hknown =>
    (h hwithin state env result callers shared hagrees hknown).mono
      fun a _ _ harrives => harrives.mono (hQ a)

/-- What is only made of the result needs no code. -/
theorem Transfers.map (h : Transfers κ n P s t source Q) (f : α → β)
    (hQ : ∀ a env mem, Q a env mem → R (f a) env mem) :
    Transfers κ n P s t (fun state => (source state).bind fun a => .done (f a)) R := by
  intro hwithin state env result callers shared hagrees hknown
  refine (h hwithin state env result callers shared hagrees hknown).bind ?_
  intro a state' c harrives
  exact .done (harrives.mono (hQ a))

theorem Transfers.bind {base : Nat} {next : α → S → Outcome S β}
    (h : Transfers κ n P s t source Q) (hregs : s.nextReg ≤ t.nextReg)
    (hgrows : Builder.Grows base t u) (hP : P.Stable s.nextReg)
    (hnext : ∀ a, Transfers κ n (fun env mem => P env mem ∧ Q a env mem) t u (next a) R) :
    Transfers κ n P s u (fun state => (source state).bind next) R := by
  intro hwithin state env result callers shared hagrees hknown
  refine (h (hwithin.of_grows hgrows) state env result callers shared hagrees hknown).bind ?_
  rintro a state' - ⟨env', shared', rfl, hagrees', henv, hmem, hQ⟩
  refine (hnext a hwithin state' env' result callers shared' hagrees'
    ⟨hP.later henv hmem hknown, hQ⟩).mono ?_
  intro b state'' c harrives
  exact harrives.since henv hmem hregs

/-- The first computation only has a result. -/
theorem Transfers.next {base : Nat} {a : α} {source : S → Outcome S β}
    (h : Transfers κ n P s t (.done a) Q) (hregs : s.nextReg ≤ t.nextReg)
    (hgrows : Builder.Grows base t u) (hP : P.Stable s.nextReg)
    (hnext : Transfers κ n (fun env mem => P env mem ∧ Q a env mem) t u source R) :
    Transfers κ n P s u source R := by
  intro hwithin state env result callers shared hagrees hknown
  obtain ⟨k, env', shared', hrun, hagrees', henv, hmem, hQ⟩ :=
    h (hwithin.of_grows hgrows) state env result callers shared hagrees hknown
  have hsimulates := hnext hwithin state env' result callers shared' hagrees'
    ⟨hP.later henv hmem hknown, hQ⟩
  rw [← hrun] at hsimulates
  exact hsimulates.of_run.mono fun b state' c harrives => harrives.since henv hmem hregs

/-- Nothing is emitted. -/
theorem Transfers.stay {a : α} (hcur : t.cur = s.cur) (hposition : t.position = s.position)
    (h : ∀ env mem, P env mem → Q a env mem) : Transfers κ n P s t (.done a) Q := by
  intro hwithin state env result callers shared hagrees hknown
  refine .done ⟨env, shared, ?_, hagrees, .refl _ _, .refl _, h _ _ hknown⟩
  rw [hcur, hposition]

/-- Where the computation has no result, the machine may do anything. -/
theorem Transfers.fault (f : Fault) (hmirrors : ¬ κ.mirrors f) :
    Transfers κ n P s t (fun _ => .fault f) Q :=
  fun _ _ _ _ _ _ _ _ hmirror => absurd hmirror hmirrors

/-- The machine's next step. -/
theorem Comparison.Simulates.instr {outcome : Outcome S α}
    {T : α → S → Config Store W → Prop} {top : Frame} {shared : Shared Store W} {i : I}
    (hi : (κ.machine.code top.block)[top.position]? = some i)
    (h : κ.Simulates n (κ.machine.perform { top with position := top.position + 1 } callers
      shared (Executable.exec κ.machine.memory i top.env shared.mem)) outcome T) :
    κ.Simulates (n + 1) (.running top callers shared) outcome T := by
  apply Simulates.of_step
  rwa [Machine.step_running callers shared hi]

/-- The machine goes on where the computation is over. -/
theorem Comparison.Simulates.further {outcome : Outcome S α} {c : Config Store W}
    {T U : α → S → Config Store W → Prop} (h : κ.Simulates n c outcome T)
    (hfurther : ∀ value state c', T value state c' → κ.Simulates n c' (.done value state) U) :
    κ.Simulates n c outcome U := by
  have hbind := h.bind hfurther
  cases outcome <;> exact hbind

/-- A machine that has stopped was not kept busy: the computation came to an end as well. -/
theorem Comparison.Simulates.settles {outcome : Outcome S α} {c : Config Store W}
    {T : α → S → Config Store W → Prop} {k : Nat} {final : Final} {shared : Shared Store W}
    (h : κ.Simulates (k + 1) c outcome T)
    (hrun : κ.machine.run k c = .stopped final shared) :
    (∃ f, outcome = .fault f) ∨
      (∃ value state j, outcome = .done value state ∧ T value state (κ.machine.run j c)) ∨
      ∃ state, outcome = .stopped state ∧ final = .exited ∧ κ.Agrees state shared := by
  cases outcome with
  | done value state =>
      obtain ⟨j, hj⟩ := h
      exact .inr (.inl ⟨value, state, j, rfl, hj⟩)
  | stopped state =>
      obtain ⟨j, shared', hj, hagrees⟩ := h
      obtain ⟨rfl, rfl⟩ := Machine.run_stopped_unique hrun hj
      exact .inr (.inr ⟨state, rfl, rfl, hagrees⟩)
  | fault f => exact .inl ⟨f, rfl⟩
  | timeout state =>
      obtain ⟨j, top, callers, shared', hle, hj, -⟩ := h
      have hstopped := Machine.run_stopped_of_le hrun (Nat.le_of_succ_le hle)
      rw [hj] at hstopped
      cases hstopped

/-- What one instruction does next to one step of the computation. -/
def Matches (κ : Comparison I Store W S) (low : Nat) (i : I) (env : Env)
    (shared : Shared Store W) (outcome : Outcome S α) (Q : α → Known) : Prop :=
  match outcome with
  | .done a state' => ∃ env' mem', Executable.exec κ.machine.memory i env shared.mem =
      .next env' mem' ∧ κ.Agrees state' { shared with mem := mem' } ∧ env.Keeps low env' ∧
      shared.mem.Keeps mem' ∧ Q a env' mem'
  | .fault f => ¬ κ.mirrors f
  | .stopped _ | .timeout _ => False

theorem Transfers.instr {i : I} (hcode : t.code = (s.append i).code) (hcur : t.cur = s.cur)
    (h : ∀ state env shared, κ.Agrees state shared → P env shared.mem →
      Matches κ s.nextReg i env shared (source state) Q) :
    Transfers κ n P s t source Q := by
  intro hwithin state env result callers shared hagrees hknown
  have hposition : t.position = s.position + 1 := by
    unfold Builder.position
    rw [hcur, hcode, Builder.append_code_cur, List.length_append]
    rfl
  have hi : (κ.machine.code s.cur)[s.position]? = some i :=
    hwithin.at (hcode ▸ s.appended i)
  have hmatches := h state env shared hagrees hknown
  cases hsource : source state with
  | done a state' =>
      rw [hsource] at hmatches
      obtain ⟨env', mem', hexec, hagrees', henv, hmem, hQ⟩ := hmatches
      refine Comparison.Simulates.weaken (Comparison.Simulates.instr hi ?_) (Nat.le_succ n)
      rw [hexec, Machine.perform_next]
      refine .done ⟨env', _, ?_, hagrees', henv, hmem, hQ⟩
      rw [hcur, hposition]
  | fault f =>
      rw [hsource] at hmatches
      exact fun hmirror => absurd hmirror hmatches
  | stopped state' =>
      rw [hsource] at hmatches
      cases hmatches
  | timeout state' =>
      rw [hsource] at hmatches
      cases hmatches

end transfer

end SSA
