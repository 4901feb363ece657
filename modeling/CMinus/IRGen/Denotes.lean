import CMinus.IRGen.Follows

namespace CMinus

namespace IRGenerator

open SSA IR Meaning

/-! What an operand is known to be. -/

def Denotes (v : Operand) (x : Value) : Known := fun env _ => v.eval env = some x

/-- The operand is an index of a pointer. -/
def Indexes (v : Operand) (i : Int) : Known := fun env _ => (v.eval env).bind indexValue = some i

theorem Denotes.stable {v : Operand} {n : Nat} (h : v.Below n) (x : Value) :
    Known.Stable n (Denotes v x) := by
  constructor
  intro env env' mem mem' henv _ hx
  unfold Denotes at hx ⊢
  rw [Operand.eval_keeps h henv, hx]

theorem Indexes.stable {v : Operand} {n : Nat} (h : v.Below n) (i : Int) :
    Known.Stable n (Indexes v i) := by
  constructor
  intro env env' mem mem' henv _ hi
  unfold Indexes at hi ⊢
  rw [Operand.eval_keeps h henv, hi]

theorem Denotes.indexes {v : Operand} {x : BitVec 32} {env : SSA.Env} {mem : Store}
    (h : Denotes v (.i32 x) env mem) : Indexes v x.toInt env mem := by
  unfold Indexes
  rw [h]
  rfl

theorem Denotes.defined (env : SSA.Env) (r : Nat) (x : Value) (mem : Store) :
    Denotes (.reg r) x (env.set r x) mem :=
  env.set_regs_self r x

/-! `Create...` of `IRBuilder`. -/

section create

variable {c : Site} {n : Nat} {P : Known} {g : IRGenerator} {lhs rhs value : Operand}
  {x y : BitVec 32}

def arith (op : Arith) (x y : BitVec 32) : Eval (BitVec 32) :=
  if op.Undefined x y then fault .division else pure (op.apply x y)

theorem foldBinary_regs {op : Arith} {v : Operand} (h : foldBinary op lhs rhs = some v) :
    v.regs = [] := by
  unfold foldBinary at h
  split at h
  · split at h
    · cases h
      rfl
    · cases h
      rfl
  · cases h
    rfl
  · cases h
    rfl
  · cases h
    rfl
  · cases h

theorem foldICmp_regs {pred : Compare} {v : Operand} (h : foldICmp pred lhs rhs = some v) :
    v.regs = [] := by
  unfold foldICmp at h
  split at h
  · cases h
    rfl
  · cases h
    rfl
  · cases h
    rfl
  · cases h
    rfl
  · cases h

/-- Only ints are folded to an int. -/
theorem foldBinary_denotes {op : Arith} {v : Operand} {env : SSA.Env} {mem : Store}
    (h : foldBinary op lhs rhs = some v) (hx : Denotes lhs (.i32 x) env mem)
    (hy : Denotes rhs (.i32 y) env mem) (hdefined : ¬ op.Undefined x y) :
    Denotes v (.i32 (op.apply x y)) env mem := by
  unfold foldBinary at h
  split at h
  · cases hx
    cases hy
    rw [if_neg hdefined] at h
    cases h
    rfl
  · cases hx
  · cases hy
  · cases hx
  · cases h

theorem foldICmp_denotes {pred : Compare} {v : Operand} {env : SSA.Env} {mem : Store}
    (h : foldICmp pred lhs rhs = some v) (hx : Denotes lhs (.i32 x) env mem)
    (hy : Denotes rhs (.i32 y) env mem) : Denotes v (.i1 (pred.apply x y)) env mem := by
  unfold foldICmp at h
  split at h
  · cases hx
    cases hy
    cases h
    rfl
  · cases hx
  · cases hy
  · cases hx
  · cases h

theorem follows_createBinary (hg : c.Emitting g) (op : Arith)
    (hx : ∀ env mem, P env mem → Denotes lhs (.i32 x) env mem)
    (hy : ∀ env mem, P env mem → Denotes rhs (.i32 y) env mem) :
    Follows c n P (createBinary op lhs rhs) (arith op x y) g (fun v n => v.Below n)
      fun v z => Denotes v (.i32 z) := by
  unfold arith createBinary
  split
  · exact follows_fault (writes_foldOr hg rfl fun v hv => foldBinary_regs hv)
  · next hdefined =>
      apply follows_foldOr hg rfl
      · intro v hv
        refine ⟨foldBinary_regs hv, ?_⟩
        intro env mem hP
        exact foldBinary_denotes hv (hx env mem hP) (hy env mem hP) hdefined
      · intro env mem hP
        have hlhs : lhs.eval env = some (.i32 x) := hx env mem hP
        have hrhs : rhs.eval env = some (.i32 y) := hy env mem hP
        refine ⟨.i32 (op.apply x y), ?_, Denotes.defined _ _ _ _⟩
        change compute env mem _ ((lhs.eval env).bind fun a =>
          (rhs.eval env).bind fun b => some (op.eval a b)) = _
        rw [hlhs, hrhs]
        change compute env mem _ (some (if op.Undefined x y then _ else _)) = _
        rw [if_neg hdefined]
        rfl

theorem follows_createICmp {β : Type} {b : β} {R : Operand → β → Known} (hg : c.Emitting g)
    (pred : Compare) (hx : ∀ env mem, P env mem → Denotes lhs (.i32 x) env mem)
    (hy : ∀ env mem, P env mem → Denotes rhs (.i32 y) env mem)
    (hR : ∀ v env mem, Denotes v (.i1 (pred.apply x y)) env mem → R v b env mem) :
    Follows c n P (createICmp pred lhs rhs) (pure b) g (fun v n => v.Below n) R := by
  unfold createICmp
  apply follows_foldOr hg rfl
  · intro v hv
    refine ⟨foldICmp_regs hv, ?_⟩
    intro env mem hP
    exact hR v env mem (foldICmp_denotes hv (hx env mem hP) (hy env mem hP))
  · intro env mem hP
    have hlhs : lhs.eval env = some (.i32 x) := hx env mem hP
    have hrhs : rhs.eval env = some (.i32 y) := hy env mem hP
    refine ⟨.i1 (pred.apply x y), ?_, hR _ _ _ (Denotes.defined _ _ _ _)⟩
    change compute env mem _ ((lhs.eval env).bind fun a =>
      (rhs.eval env).bind fun b => some (pred.eval a b)) = _
    rw [hlhs, hrhs]
    rfl

theorem follows_createZExt (hg : c.Emitting g) {b : Bool}
    (hb : ∀ env mem, P env mem → Denotes value (.i1 b) env mem) :
    Follows c n P (createZExt value) (pure (truth b) : Eval (BitVec 32)) g
      (fun v n => v.Below n) fun v z => Denotes v (.i32 z) := by
  unfold createZExt
  apply follows_foldOr hg rfl
  · intro v hv
    unfold foldZExt at hv
    split at hv
    · cases hv
      refine ⟨rfl, ?_⟩
      intro env mem hP
      cases hb env mem hP
      rfl
    · cases hv
      refine ⟨rfl, ?_⟩
      intro env mem hP
      cases hb env mem hP
    · cases hv
  · intro env mem hP
    have hvalue : value.eval env = some (.i1 b) := hb env mem hP
    refine ⟨.i32 (truth b), ?_, Denotes.defined _ _ _ _⟩
    change compute env mem _ ((value.eval env).map zextValue) = _
    rw [hvalue]
    rfl

theorem follows_createSExtOrTrunc (hg : c.Emitting g) {bits : Nat} (hbits : 32 ≤ bits)
    (hbelow : value.Below g.builder.nextReg)
    (hx : ∀ env mem, P env mem → Denotes value (.i32 x) env mem) :
    Follows c n P (createSExtOrTrunc bits value) (pure () : Eval Unit) g
      (fun v n => v.Below n) fun v _ => Indexes v x.toInt := by
  unfold createSExtOrTrunc
  split
  · exact follows_pure hg hbelow fun env mem hP => (hx env mem hP).indexes
  · next hne =>
      have hlt : 32 < bits := by omega
      apply follows_foldOr hg
      · rw [if_pos hlt]
        rfl
      · intro v hv
        unfold foldIndexCast at hv
        split at hv
        · cases hv
          refine ⟨rfl, ?_⟩
          intro env mem hP
          cases hx env mem hP
          rw [if_pos hbits]
          rfl
        · cases hv
          refine ⟨rfl, ?_⟩
          intro env mem hP
          cases hx env mem hP
        · cases hv
      · intro env mem hP
        have hvalue : value.eval env = some (.i32 x) := hx env mem hP
        refine ⟨.index x.toInt, ?_, ?_⟩
        · rw [if_pos hlt]
          change compute env mem _ ((value.eval env).map (castValue id)) = _
          rw [hvalue]
          rfl
        · unfold Indexes
          simp [Operand.eval, indexValue]

/-! Addresses. -/

theorem constantIndex_eval {v : Operand} (h : v.isConstant = true) (env : SSA.Env) :
    (v.eval env).bind indexValue = constantIndex v := by
  cases v with
  | arg i => cases h
  | reg r => cases h
  | _ => rfl

theorem some_of_offsetOf {ty : Ty} {l : List (Option Int)} {offset : Int}
    (h : offsetOf ty l = some offset) {i : Option Int} (hi : i ∈ l) : i.isSome = true := by
  unfold offsetOf at h
  split at h
  · rw [List.mem_singleton.mp hi]
    rfl
  · rcases List.mem_pair.mp hi with rfl | rfl
    · rfl
    · rfl
  · cases h

theorem isNoStep_constant {i : Operand} (h : isNoStep i = true)
    (hsome : (constantIndex i).isSome = true) : constantIndex i = some 0 := by
  unfold isNoStep at h
  rcases Bool.or_eq_true_iff.mp h with hpoison | hzero
  · cases i with
    | poison ty => cases hsome
    | _ => cases hpoison
  · exact of_decide_eq_true hzero

theorem offsetOf_zeros {ty : Ty} {l : List (Option Int)} {offset : Int}
    (h : offsetOf ty l = some offset) (hzero : ∀ i ∈ l, i = some 0) : offset = 0 := by
  unfold offsetOf at h
  split at h
  · next i =>
      obtain rfl : i = 0 := Option.some.inj (hzero _ List.mem_cons_self)
      rw [← Option.some.inj h, Int.zero_mul]
  · next i j =>
      obtain rfl : i = 0 := Option.some.inj (hzero _ List.mem_cons_self)
      obtain rfl : j = 0 :=
        Option.some.inj (hzero _ (List.mem_cons_of_mem _ List.mem_cons_self))
      rw [← Option.some.inj h, Int.zero_mul, Int.zero_add]
  · cases h

/-- A folded address is the one that the instruction would compute. -/
theorem foldGEP_denotes {ty : Ty} {base v : Operand} {indices : List Operand} {a : Address}
    {offset : Int} {env : SSA.Env} {mem : Store} (h : foldGEP ty base indices = some v)
    (hbase : Denotes base (.ptr a) env mem)
    (hoffset : offsetOf ty (indices.map fun i => (i.eval env).bind indexValue) = some offset) :
    v.regs = [] ∧ Denotes v (.ptr { a with offset := a.offset + offset }) env mem := by
  cases base with
  | global name =>
      obtain rfl : a = ⟨.global name, 0⟩ := by
        cases hbase
        rfl
      unfold foldGEP at h
      dsimp only at h
      split at h
      · next hall =>
          have hsame : (indices.map fun i => (i.eval env).bind indexValue) =
              indices.map constantIndex := by
            apply List.map_congr_left
            intro i hi
            exact constantIndex_eval (List.all_eq_true.mp hall i hi) env
          rw [hsame] at hoffset
          split at h
          · next hnone =>
              obtain rfl := Option.some.inj h
              obtain rfl : offset = 0 := by
                apply offsetOf_zeros hoffset
                intro index hindex
                obtain ⟨i, hi, rfl⟩ := List.mem_map.mp hindex
                exact isNoStep_constant (List.all_eq_true.mp hnone i hi)
                  (some_of_offsetOf hoffset hindex)
              exact ⟨rfl, rfl⟩
          split at h
          · next hany =>
              obtain ⟨i, hi, hpoison⟩ := List.any_eq_true.mp hany
              have hsome := some_of_offsetOf hoffset (List.mem_map_of_mem hi)
              cases i with
              | poison ty => cases hsome
              | _ => cases hpoison
          · rw [hoffset] at h
            obtain rfl := Option.some.inj h
            refine ⟨rfl, ?_⟩
            unfold Denotes
            rw [Int.zero_add]
            rfl
      · cases h
  | _ => cases h

theorem follows_createGEP {β : Type} {b : β} {R : Operand → β → Known} (hg : c.Emitting g) (ty : Ty)
    (base : Operand) (indices : List Operand)
    (h : ∀ env mem, P env mem → ∃ a offset, Denotes base (.ptr a) env mem ∧
      offsetOf ty (indices.map fun i => (i.eval env).bind indexValue) = some offset ∧
      ∀ v env', Denotes v (.ptr { a with offset := a.offset + offset }) env' mem →
        R v b env' mem) :
    Follows c n P (createGEP ty base indices) (pure b) g (fun v n => v.Below n) R := by
  unfold createGEP
  apply follows_foldOr hg rfl
  · intro v hv
    refine ⟨foldGEP_regs hv, ?_⟩
    intro env mem hP
    obtain ⟨a, offset, hbase, hoffset, hR⟩ := h env mem hP
    exact hR v env (foldGEP_denotes hv hbase hoffset).2
  · intro env mem hP
    obtain ⟨a, offset, hbase, hoffset, hR⟩ := h env mem hP
    refine ⟨.ptr { a with offset := a.offset + offset }, ?_, hR _ _ (Denotes.defined _ _ _ _)⟩
    have hvalue : base.eval env = some (.ptr a) := hbase
    change compute env mem _ ((base.eval env).bind fun p => some (.ok (pointerAt p
      (offsetOf ty (indices.map fun i => (i.eval env).bind indexValue))))) = _
    rw [hvalue, hoffset]
    rfl

end create

end IRGenerator

end CMinus
