import CMinus.IRGen
import CMinus.SSA.Emission
import CMinus.SSA.Invariant

namespace CMinus

namespace IR

open SSA

/-! Typing of the emitted code.  `Signatures` is what a module declares. -/

structure Signatures where
  functions : List Function
  globals : List String
  bits : Nat

/-! What is known at a place: the type of a register that is defined there, the
outcome of a comparison with zero, and that a value is not negative. -/

inductive Fact where
  | typed (r : Nat) (ty : Ty)
  | negative (r : Nat) (value : Operand)
  | nonneg (value : Operand)
deriving DecidableEq

def Operand.HasTy (Γ : Signatures) (f : Function) (A : Set Fact) : Operand → Ty → Prop
  | .i32 _, ty => ty = .i32
  | .i1 _, ty => ty = .i1
  | .index _, ty => ty = .int Γ.bits
  | .poison ty', ty => ty = ty' ∧ ty ≠ .void
  | .null, ty => ty = .ptr
  | .global name, ty | .element name _, ty => ty = .ptr ∧ name ∈ Γ.globals
  | .arg i, ty => f.params[i]? = some ty
  | .reg r, ty => .typed r ty ∈ A

def Ty.TakesIndices (count : Nat) (ty : Ty) : Prop :=
  ty = .i32 ∧ count = 1 ∨ (∃ size, ty = .array size) ∧ count = 2

namespace Instr

/-- A call with a result is a call of an int function. -/
def resultTy : Instr → Option Ty
  | .alloca _ _ | .getelementptr _ _ _ _ => some .ptr
  | .load _ ty _ => some ty
  | .binary _ _ _ _ | .zext _ _ | .call (some _) _ _ => some .i32
  | .icmp _ _ _ _ => some .i1
  | .sext _ _ bits | .trunc _ _ bits => some (.int bits)
  | _ => none

/-- The typing rules of the verifier.  An int takes one index, an array one more. -/
def WellTyped (Γ : Signatures) (f : Function) (A : Set Fact) : Instr → Prop
  | .alloca _ ty => ty ≠ .void
  | .load _ ty address => (ty = .i32 ∨ ty = .ptr) ∧ address.HasTy Γ f A .ptr
  | .store value address =>
      (value.HasTy Γ f A .i32 ∨ value.HasTy Γ f A .ptr) ∧ address.HasTy Γ f A .ptr
  | .binary _ _ lhs rhs | .icmp _ _ lhs rhs => lhs.HasTy Γ f A .i32 ∧ rhs.HasTy Γ f A .i32
  | .zext _ value => value.HasTy Γ f A .i1
  | .sext _ value bits => 32 < bits ∧ bits = Γ.bits ∧ value.HasTy Γ f A .i32
  | .trunc _ value bits => bits < 32 ∧ bits = Γ.bits ∧ value.HasTy Γ f A .i32
  | .getelementptr _ ty base indices =>
      base.HasTy Γ f A .ptr ∧ ty.TakesIndices indices.length ∧
        ∀ i ∈ indices, i.HasTy Γ f A (.int Γ.bits)
  | .call r callee args =>
      ∃ g, IRGenerator.getFunction Γ.functions callee = some g ∧
        List.Forall₂ (fun arg ty => arg.HasTy Γ f A ty) args g.params ∧
        g.returnType = if r = none then .void else .i32
  | .br _ => True
  | .condBr cond _ _ => cond.HasTy Γ f A .i1
  | .ret none => f.returnType = .void
  | .ret (some value) => f.returnType ≠ .void ∧ value.HasTy Γ f A f.returnType
  | .unreachable => True

end Instr

/-! The discipline: typing, and what the branch on a sign test tells. -/

def Operand.Below (n : Nat) (value : Operand) : Prop := ∀ r ∈ value.regs, r < n

/-- The register that an instruction defines is not spoken of yet. -/
structure FreshIn (r : Nat) (i : Instr) (A : Set Fact) : Prop where
  uses : r ∉ ControlFlow.uses i
  compared : ∀ v, .negative r v ∉ A
  sign : ∀ q v, .negative q v ∈ A → r ∉ v.regs
  nonneg : ∀ v, .nonneg v ∈ A → r ∉ v.regs

def Fresh (i : Instr) (A : Set Fact) : Prop :=
  ∀ r, i.defines = some r → FreshIn r i A

def gives (i : Instr) (A : Set Fact) : Set Fact :=
  { fact | fact ∈ A ∨
    (∃ r ty, i.defines = some r ∧ i.resultTy = some ty ∧ fact = .typed r ty) ∨
    ∃ r value, i = .icmp r .slt value (.i32 0) ∧ fact = .negative r value }

/-- The branch taken when the condition is known not to hold. -/
def along (i : Instr) (b : Nat) (A : Set Fact) : Set Fact :=
  { fact | fact ∈ A ∨
    ∃ cond ifTrue value, i = .condBr cond ifTrue b ∧ ifTrue ≠ b ∧ fact = .nonneg value ∧
      ((∃ r, cond = .reg r ∧ .negative r value ∈ A) ∨ cond = .i1 true ∨
        ∃ ty, cond = .poison ty) }

def typing (Γ : Signatures) (f : Function) : Discipline Instr Fact where
  needs i A := i.WellTyped Γ f A ∧ Fresh i A
  gives := gives
  along := along

/-- The part that the dynamic meaning of facts rests on. -/
def signs : Discipline Instr Fact where
  needs i A := Fresh i A
  gives := gives
  along := along

instance : Grounded Instr Fact where
  grounded code n fact :=
    match fact with
    | .typed r ty =>
        r < n ∧ ∃ b, ∃ i ∈ code b, i.defines = some r ∧ i.resultTy = some ty
    | .negative r v => r < n ∧ v.Below n
    | .nonneg v => v.Below n
  mono := by
    intro code code' n n' fact hcode hle h
    cases fact with
    | typed r ty =>
        obtain ⟨hr, b, i, hi, htyped⟩ := h
        exact ⟨Nat.lt_of_lt_of_le hr hle, b, i, (hcode b).subset hi, htyped⟩
    | negative r v =>
        exact ⟨Nat.lt_of_lt_of_le h.1 hle, fun q hq => Nat.lt_of_lt_of_le (h.2 q hq) hle⟩
    | nonneg v => exact fun q hq => Nat.lt_of_lt_of_le (h q hq) hle

/-! The laws that the library asks for. -/

theorem Operand.HasTy.mono {Γ : Signatures} {f : Function} {A B : Set Fact} {v : Operand}
    {ty : Ty} (h : v.HasTy Γ f A ty) (hAB : A ⊆ B) : v.HasTy Γ f B ty := by
  cases v with
  | reg r => exact hAB h
  | _ => exact h

theorem subset_gives (i : Instr) (A : Set Fact) : A ⊆ gives i A :=
  fun _ h => .inl h

theorem typed_of_hasTy {Γ : Signatures} {f : Function} {A : Set Fact} {v : Operand}
    {ty : Ty} (h : v.HasTy Γ f A ty) {r : Nat} (hr : r ∈ v.regs) :
    .typed r ty ∈ A := by
  cases v with
  | reg q =>
      obtain rfl : r = q := by simpa [Operand.regs] using hr
      exact h
  | _ => simp [Operand.regs] at hr

theorem Instr.WellTyped.typed {Γ : Signatures} {f : Function} {A : Set Fact} {i : Instr}
    (h : i.WellTyped Γ f A) {r : Nat} (hr : r ∈ ControlFlow.uses i) :
    ∃ ty, .typed r ty ∈ A := by
  obtain ⟨v, hv, hreg⟩ := List.mem_flatMap.mp hr
  cases i with
  | alloca | br | unreachable => simp [Instr.operands] at hv
  | load q ty address =>
      obtain rfl : v = address := by simpa [Instr.operands] using hv
      exact ⟨_, typed_of_hasTy h.2 hreg⟩
  | store value address =>
      rcases List.mem_pair.mp hv with rfl | rfl
      · rcases h.1 with hint | hptr
        · exact ⟨_, typed_of_hasTy hint hreg⟩
        · exact ⟨_, typed_of_hasTy hptr hreg⟩
      · exact ⟨_, typed_of_hasTy h.2 hreg⟩
  | binary q op lhs rhs | icmp q pred lhs rhs =>
      rcases List.mem_pair.mp hv with rfl | rfl
      · exact ⟨_, typed_of_hasTy h.1 hreg⟩
      · exact ⟨_, typed_of_hasTy h.2 hreg⟩
  | zext q value =>
      obtain rfl : v = value := by simpa [Instr.operands] using hv
      exact ⟨_, typed_of_hasTy h hreg⟩
  | sext q value bits | trunc q value bits =>
      obtain rfl : v = value := by simpa [Instr.operands] using hv
      exact ⟨_, typed_of_hasTy h.2.2 hreg⟩
  | getelementptr q ty base indices =>
      rcases List.mem_cons.mp hv with rfl | hmem
      · exact ⟨_, typed_of_hasTy h.1 hreg⟩
      · exact ⟨_, typed_of_hasTy (h.2.2 v hmem) hreg⟩
  | call q callee args =>
      obtain ⟨g, -, hargs, -⟩ := h
      obtain ⟨k, hk⟩ := List.mem_iff_getElem.mp hv
      obtain ⟨hlt, rfl⟩ := hk
      exact ⟨_, typed_of_hasTy (hargs.get hlt (hargs.length_eq ▸ hlt)) hreg⟩
  | condBr cond ifTrue ifFalse =>
      obtain rfl : v = cond := by simpa [Instr.operands] using hv
      exact ⟨_, typed_of_hasTy h hreg⟩
  | ret value =>
      cases value with
      | none => simp [Instr.operands] at hv
      | some value =>
          obtain rfl : v = value := by simpa [Instr.operands] using hv
          exact ⟨_, typed_of_hasTy h.2 hreg⟩

def Fact.Says (fact : Fact) (r : Nat) : Prop := ∃ ty, fact = .typed r ty

theorem typing_tracks (Γ : Signatures) (f : Function) :
    (typing Γ f).Tracks Fact.Says := by
  refine ⟨?_, ?_, ?_⟩
  · intro i A h r hr
    obtain ⟨ty, hty⟩ := Instr.WellTyped.typed h.1 hr
    exact ⟨_, hty, ty, rfl⟩
  · rintro i A fact r h ⟨ty, rfl⟩
    rcases h with hA | ⟨q, ty', hdef, -, heq⟩ | ⟨q, v, -, heq⟩
    · exact .inl hA
    · cases heq
      exact .inr hdef
    · cases heq
  · rintro i b A fact r h ⟨ty, rfl⟩
    rcases h with hA | ⟨cond, ifTrue, v, -, -, heq, -⟩
    · exact hA
    · cases heq

/-! What the facts mean for the registers of a frame. -/

def Fact.Holds : Fact → Env → Prop
  | .typed _ _, _ => True
  | .negative r v, env =>
      ∀ b, env.regs r = some (.i1 b) → ∃ w, v.eval env = some (.i32 w) ∧ b = w.slt 0
  | .nonneg v, env => ∃ w, v.eval env = some (.i32 w) ∧ w.slt 0 = false

theorem Operand.eval_set {env : Env} {r : Nat} {x : Value} {v : Operand}
    (h : r ∉ v.regs) : v.eval (env.set r x) = v.eval env := by
  cases v with
  | reg q =>
      refine Env.set_regs_of_ne env x fun hq => h ?_
      simp [Operand.regs, hq]
  | _ => rfl

section exec

variable {M : Type} {mem : MemOps M} {env env' : Env} {m m' : M} {i : Instr}

theorem compute_next {r : Nat} {result : Option (Except Fault Value)}
    (h : compute env m r result = .next env' m') :
    ∃ x, result = some (.ok x) ∧ env' = env.set r x := by
  unfold compute at h
  split at h
  · next x =>
      cases h
      exact ⟨x, rfl, rfl⟩
  · cases h
  · cases h

theorem compute_ne_jump {r b : Nat} {result : Option (Except Fault Value)} :
    compute env m r result ≠ .jump b := by
  unfold compute
  split <;> simp

theorem compute_ne_call {r : Nat} {result : Option (Except Fault Value)} {q : Option Nat}
    {callee : String} {values : List Value} :
    compute env m r result ≠ .call q callee values := by
  unfold compute
  split <;> simp

theorem access_eq {address : Option Value} {go : Address → Effect M} {effect : Effect M}
    (h : access mem m address go = effect) :
    (∃ a, go a = effect) ∨ ∃ f, effect = .fault f := by
  unfold access at h
  split at h
  · split at h
    · exact .inl ⟨_, h⟩
    · exact .inr ⟨_, h.symm⟩
  · exact .inr ⟨_, h.symm⟩
  · exact .inr ⟨_, h.symm⟩

theorem exec_next (h : exec mem i env m = .next env' m') :
    (env' = env ∧ i.defines = none) ∨
      ∃ r x, i.defines = some r ∧ env' = env.set r x ∧
        ∀ v, i = .icmp r .slt v (.i32 0) →
          ∀ b, x = .i1 b → ∃ w, v.eval env = some (.i32 w) ∧ b = w.slt 0 := by
  cases i with
  | alloca r ty =>
      cases h
      exact .inr ⟨r, _, rfl, rfl, fun v hv => by cases hv⟩
  | load r ty address =>
      rcases access_eq h with ⟨a, ha⟩ | ⟨f, hf⟩
      · cases ha
        exact .inr ⟨r, _, rfl, rfl, fun v hv => by cases hv⟩
      · cases hf
  | store value address =>
      simp only [exec] at h
      split at h
      · rcases access_eq h with ⟨a, ha⟩ | ⟨f, hf⟩
        · cases ha
          exact .inl ⟨rfl, rfl⟩
        · cases hf
      · cases h
  | icmp r pred lhs rhs =>
      obtain ⟨x, hx, rfl⟩ := compute_next h
      refine .inr ⟨r, x, rfl, rfl, fun v hv c hc => ?_⟩
      cases hv
      subst hc
      have hcompare : ((lhs.eval env).bind fun a => some (Compare.slt.eval a (.i32 0))) =
          some (.ok (.i1 c)) := hx
      obtain ⟨a, ha, heval⟩ := Option.bind_eq_some_iff.mp hcompare
      cases a with
      | i32 w =>
          cases heval
          exact ⟨w, ha, rfl⟩
      | _ => cases heval
  | binary r _ _ _ | zext r _ | sext r _ _ | trunc r _ _ | getelementptr r _ _ _ =>
      obtain ⟨x, -, rfl⟩ := compute_next h
      exact .inr ⟨r, x, rfl, rfl, fun v hv => by cases hv⟩
  | call r callee args =>
      simp only [exec] at h
      split at h <;> cases h
  | br target => cases h
  | condBr cond ifTrue ifFalse =>
      simp only [exec] at h
      split at h <;> cases h
  | ret value =>
      cases value with
      | none => cases h
      | some value =>
          simp only [exec] at h
          split at h <;> cases h
  | unreachable => cases h

theorem exec_jump {b : Nat} (h : exec mem i env m = .jump b) :
    i = .br b ∨ ∃ cond ifTrue ifFalse c, i = .condBr cond ifTrue ifFalse ∧
      cond.eval env = some (.i1 c) ∧ b = if c then ifTrue else ifFalse := by
  cases i with
  | br target =>
      cases h
      exact .inl rfl
  | condBr cond ifTrue ifFalse =>
      simp only [exec] at h
      split at h
      · next c hc =>
          cases h
          exact .inr ⟨cond, ifTrue, ifFalse, c, rfl, hc, rfl⟩
      · cases h
      · cases h
  | alloca r ty => cases h
  | load r ty address =>
      rcases access_eq h with ⟨a, ha⟩ | ⟨f, hf⟩
      · cases ha
      · cases hf
  | store value address =>
      simp only [exec] at h
      split at h
      · rcases access_eq h with ⟨a, ha⟩ | ⟨f, hf⟩
        · cases ha
        · cases hf
      · cases h
  | binary | icmp | zext | sext | trunc | getelementptr => exact absurd h compute_ne_jump
  | call r callee args =>
      simp only [exec] at h
      split at h <;> cases h
  | ret value =>
      cases value with
      | none => cases h
      | some value =>
          simp only [exec] at h
          split at h <;> cases h
  | unreachable => cases h

theorem exec_call {r : Option Nat} {callee : String} {values : List Value}
    (h : exec mem i env m = .call r callee values) :
    ∃ args, i = .call r callee args ∧ args.mapM (Operand.eval env) = some values := by
  cases i with
  | call q name args =>
      simp only [exec] at h
      split at h
      · next values' hvalues =>
          cases h
          exact ⟨args, rfl, hvalues⟩
      · cases h
  | alloca q ty => cases h
  | load q ty address =>
      rcases access_eq h with ⟨a, ha⟩ | ⟨f, hf⟩
      · cases ha
      · cases hf
  | store value address =>
      simp only [exec] at h
      split at h
      · rcases access_eq h with ⟨a, ha⟩ | ⟨f, hf⟩
        · cases ha
        · cases hf
      · cases h
  | binary | icmp | zext | sext | trunc | getelementptr => exact absurd h compute_ne_call
  | br target => cases h
  | condBr cond ifTrue ifFalse =>
      simp only [exec] at h
      split at h <;> cases h
  | ret value =>
      cases value with
      | none => cases h
      | some value =>
          simp only [exec] at h
          split at h <;> cases h
  | unreachable => cases h

end exec

end IR

end CMinus
