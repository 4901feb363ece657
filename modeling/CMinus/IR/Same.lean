import CMinus.IR
import CMinus.SSA.Pairing
import CMinus.SSA.Renaming

namespace CMinus

namespace IR

open SSA

/-! The same instruction under the names that a pairing gives. -/

inductive Operand.Same (w : Pairing) : Operand → Operand → Prop where
  | reg {r r' : Nat} (h : w.reg r r') : Same w (.reg r) (.reg r')
  | other (v : Operand) (h : v.regs = []) : Same w v v

inductive Instr.Same (w : Pairing) : Instr → Instr → Prop where
  | alloca {r r' : Nat} (hr : w.reg r r') (ty : Ty) : Same w (.alloca r ty) (.alloca r' ty)
  | load {r r' : Nat} (hr : w.reg r r') (ty : Ty) {a a' : Operand} (ha : a.Same w a') :
      Same w (.load r ty a) (.load r' ty a')
  | store {v v' a a' : Operand} (hv : v.Same w v') (ha : a.Same w a') :
      Same w (.store v a) (.store v' a')
  | binary {r r' : Nat} (hr : w.reg r r') (op : Arith) {a a' b b' : Operand} (ha : a.Same w a')
      (hb : b.Same w b') : Same w (.binary r op a b) (.binary r' op a' b')
  | icmp {r r' : Nat} (hr : w.reg r r') (pred : Compare) {a a' b b' : Operand}
      (ha : a.Same w a') (hb : b.Same w b') : Same w (.icmp r pred a b) (.icmp r' pred a' b')
  | zext {r r' : Nat} (hr : w.reg r r') {v v' : Operand} (hv : v.Same w v') :
      Same w (.zext r v) (.zext r' v')
  | sext {r r' : Nat} (hr : w.reg r r') {v v' : Operand} (hv : v.Same w v') (bits : Nat) :
      Same w (.sext r v bits) (.sext r' v' bits)
  | trunc {r r' : Nat} (hr : w.reg r r') {v v' : Operand} (hv : v.Same w v') (bits : Nat) :
      Same w (.trunc r v bits) (.trunc r' v' bits)
  | getelementptr {r r' : Nat} (hr : w.reg r r') (ty : Ty) {base base' : Operand}
      (hbase : base.Same w base') {indices indices' : List Operand}
      (hindices : List.Forall₂ (Operand.Same w) indices indices') :
      Same w (.getelementptr r ty base indices) (.getelementptr r' ty base' indices')
  | call {r r' : Option Nat} (hr : Option.Rel w.reg r r') (callee : String)
      {args args' : List Operand} (hargs : List.Forall₂ (Operand.Same w) args args') :
      Same w (.call r callee args) (.call r' callee args')
  | br {t t' : Nat} (ht : w.block t t') : Same w (.br t) (.br t')
  | condBr {v v' : Operand} (hv : v.Same w v') {t t' f f' : Nat} (ht : w.block t t')
      (hf : w.block f f') : Same w (.condBr v t f) (.condBr v' t' f')
  | ret : Same w (.ret none) (.ret none)
  | retValue {v v' : Operand} (hv : v.Same w v') : Same w (.ret (some v)) (.ret (some v'))

theorem Operand.Same.mono {w w' : Pairing} (hle : w ≤ w') {v v' : Operand} (h : v.Same w v') :
    v.Same w' v' := by
  cases h with
  | reg h => exact .reg (Pairing.reg_mono hle h)
  | other v h => exact .other v h

theorem same_forall_mono {w w' : Pairing} (hle : w ≤ w') {vs vs' : List Operand}
    (h : List.Forall₂ (Operand.Same w) vs vs') : List.Forall₂ (Operand.Same w') vs vs' :=
  h.imp fun _ _ hv => hv.mono hle

theorem Instr.Same.mono {w w' : Pairing} (hle : w ≤ w') {i i' : Instr} (h : i.Same w i') :
    i.Same w' i' := by
  have hreg : ∀ {r r' : Nat}, w.reg r r' → w'.reg r r' := Pairing.reg_mono hle
  have hblock : ∀ {b c : Nat}, w.block b c → w'.block b c := Pairing.block_mono hle
  cases h with
  | alloca hr ty => exact .alloca (hreg hr) ty
  | load hr ty ha => exact .load (hreg hr) ty (ha.mono hle)
  | store hv ha => exact .store (hv.mono hle) (ha.mono hle)
  | binary hr op ha hb => exact .binary (hreg hr) op (ha.mono hle) (hb.mono hle)
  | icmp hr pred ha hb => exact .icmp (hreg hr) pred (ha.mono hle) (hb.mono hle)
  | zext hr hv => exact .zext (hreg hr) (hv.mono hle)
  | sext hr hv bits => exact .sext (hreg hr) (hv.mono hle) bits
  | trunc hr hv bits => exact .trunc (hreg hr) (hv.mono hle) bits
  | getelementptr hr ty hbase hindices =>
      exact .getelementptr (hreg hr) ty (hbase.mono hle) (same_forall_mono hle hindices)
  | call hr callee hargs =>
      refine .call ?_ callee (same_forall_mono hle hargs)
      cases hr with
      | some hr => exact .some (hreg hr)
      | none => exact .none
  | br ht => exact .br (hblock ht)
  | condBr hv ht hf => exact .condBr (hv.mono hle) (hblock ht) (hblock hf)
  | ret => exact .ret
  | retValue hv => exact .retValue (hv.mono hle)

theorem Instr.Same.isTerminator {w : Pairing} {i i' : Instr} (h : i.Same w i') :
    i'.isTerminator = i.isTerminator := by
  cases h <;> rfl

/-! What the folding of constants sees. -/

theorem Operand.Same.fold {w : Pairing} {v v' : Operand} (h : v.Same w v') :
    v' = v ∨ ∃ r r', v = .reg r ∧ v' = .reg r' := by
  cases h with
  | reg _ => exact .inr ⟨_, _, rfl, rfl⟩
  | other v _ => exact .inl rfl

theorem foldBinary_same {w : Pairing} (op : Arith) {a a' b b' : Operand} (ha : a.Same w a')
    (hb : b.Same w b') : foldBinary op a' b' = foldBinary op a b := by
  cases ha with
  | reg _ => rfl
  | other a _ =>
      cases hb with
      | reg _ => cases a <;> rfl
      | other b _ => rfl

theorem foldICmp_same {w : Pairing} (pred : Compare) {a a' b b' : Operand} (ha : a.Same w a')
    (hb : b.Same w b') : foldICmp pred a' b' = foldICmp pred a b := by
  cases ha with
  | reg _ => rfl
  | other a _ =>
      cases hb with
      | reg _ => cases a <;> rfl
      | other b _ => rfl

theorem foldZExt_same {w : Pairing} {v v' : Operand} (h : v.Same w v') :
    foldZExt v' = foldZExt v := by
  cases h <;> rfl

theorem foldIndexCast_same {w : Pairing} (bits : Nat) {v v' : Operand} (h : v.Same w v') :
    foldIndexCast bits v' = foldIndexCast bits v := by
  cases h <;> rfl

theorem foldGEP_same {w : Pairing} (ty : Ty) {base base' : Operand} (hbase : base.Same w base')
    {indices indices' : List Operand}
    (hindices : List.Forall₂ (Operand.Same w) indices indices') :
    foldGEP ty base' indices' = foldGEP ty base indices := by
  have hall : indices'.all Operand.isConstant = indices.all Operand.isConstant ∧
      indices'.all isNoStep = indices.all isNoStep ∧
      indices'.any isPoison = indices.any isPoison ∧
      indices'.map constantIndex = indices.map constantIndex := by
    induction hindices with
    | nil => exact ⟨rfl, rfl, rfl, rfl⟩
    | @cons v v' vs vs' h _ ih =>
        obtain ⟨hconstant, hstep, hpoison, hindex⟩ := ih
        cases h with
        | reg _ =>
            refine ⟨rfl, rfl, ?_, ?_⟩
            · exact hpoison
            · exact congrArg (List.cons none) hindex
        | other =>
            refine ⟨?_, ?_, ?_, ?_⟩
            · exact congrArg (v.isConstant && ·) hconstant
            · exact congrArg (isNoStep v && ·) hstep
            · exact congrArg (isPoison v || ·) hpoison
            · exact congrArg (List.cons (constantIndex v)) hindex
  cases hbase with
  | reg _ => rfl
  | other =>
      cases base with
      | global name =>
          unfold foldGEP
          dsimp only
          rw [hall.1, hall.2.1, hall.2.2.1, hall.2.2.2]
      | _ => rfl

/-- What an instruction folds to has no register in it. -/
theorem foldBinary_regs {op : Arith} {a b v : Operand} (h : foldBinary op a b = some v) :
    v.regs = [] := by
  unfold foldBinary at h
  split at h
  · split at h <;> cases h <;> rfl
  · cases h
    rfl
  · cases h
    rfl
  · cases h
    rfl
  · cases h

theorem foldICmp_regs {pred : Compare} {a b v : Operand} (h : foldICmp pred a b = some v) :
    v.regs = [] := by
  unfold foldICmp at h
  split at h
  · cases h
    rfl
  · cases h
    rfl
  · cases h
    rfl
  · cases h
    rfl
  · cases h

theorem foldZExt_regs {a v : Operand} (h : foldZExt a = some v) : v.regs = [] := by
  unfold foldZExt at h
  split at h
  · cases h
    rfl
  · cases h
    rfl
  · cases h

theorem foldIndexCast_regs {bits : Nat} {a v : Operand} (h : foldIndexCast bits a = some v) :
    v.regs = [] := by
  unfold foldIndexCast at h
  split at h
  · cases h
    rfl
  · cases h
    rfl
  · cases h

/-! What the two instructions do, on memories that differ in the names alone. -/

variable {π : Renaming} {n : Nat} {w : Pairing} {env env' : SSA.Env} {M : Type}

inductive EffectSame (π : Renaming) (n : Nat) (w : Pairing) : Effect M → Effect M → Prop where
  | next {env env' : SSA.Env} (h : Env.Renames π n env env') (m : M) :
      EffectSame π n w (.next env m) (.next env' m)
  | jump {b c : Nat} (h : w.block b c) : EffectSame π n w (.jump b) (.jump c)
  | call {r r' : Option Nat} (h : Option.Rel w.reg r r') (callee : String) (args : List Value) :
      EffectSame π n w (.call r callee args) (.call r' callee (args.map (Value.rename π)))
  | ret (value : Option Value) :
      EffectSame π n w (.ret value) (.ret (value.map (Value.rename π)))
  | fault (f : Fault) : EffectSame π n w (.fault f) (.fault f)

/-- The paired registers are those that the renaming names. -/
def Names (π : Renaming) (n : Nat) (w : Pairing) : Prop :=
  ∀ r r', w.reg r r' → r < n ∧ r' = π r

theorem Operand.Same.eval (hnames : Names π n w) (henv : Env.Renames π n env env')
    {v v' : Operand} (h : v.Same w v') : v'.eval env' = (v.eval env).map (Value.rename π) := by
  cases h with
  | reg h =>
      obtain ⟨hlt, rfl⟩ := hnames _ _ h
      exact henv.regs _ hlt
  | other v h =>
      cases v with
      | arg i =>
          change env'.args[i]? = (env.args[i]?).map (Value.rename π)
          rw [henv.args, List.getElem?_map]
      | reg r => cases h
      | _ => rfl

theorem evals_same (hnames : Names π n w) (henv : Env.Renames π n env env')
    {vs vs' : List Operand} (h : List.Forall₂ (Operand.Same w) vs vs') :
    vs'.mapM (Operand.eval env') =
      (vs.mapM (Operand.eval env)).map (List.map (Value.rename π)) := by
  induction h with
  | nil => rfl
  | @cons v v' vs vs' hv _ ih =>
      rw [List.mapM_cons, List.mapM_cons, hv.eval hnames henv, ih]
      cases v.eval env with
      | none => rfl
      | some x =>
          cases vs.mapM (Operand.eval env) with
          | none => rfl
          | some xs => rfl

def renameResult (π : Renaming) : Except Fault Value → Except Fault Value
  | .ok v => .ok (v.rename π)
  | .error f => .error f

theorem compute_same (henv : Env.Renames π n env env') {r r' : Nat} (hr : r' = π r) (m : M)
    (result : Option (Except Fault Value)) : EffectSame π n w (compute env m r result)
      (compute env' m r' (result.map (renameResult π))) := by
  subst hr
  cases result with
  | none => exact .fault _
  | some result =>
      cases result with
      | ok v => exact .next (henv.set r v) m
      | error f => exact .fault f

theorem access_same (mem : MemOps M) (m : M) (address : Option Value)
    {go go' : Address → Effect M} (hgo : ∀ a, EffectSame π n w (go a) (go' (a.rename π))) :
    EffectSame π n w (access (mem.rename π) m address go)
      (access mem m (address.map (Value.rename π)) go') := by
  cases address with
  | none => exact .fault _
  | some v =>
      cases v with
      | ptr a =>
          unfold access
          dsimp only [Option.map, Value.rename]
          change EffectSame π n w (if mem.valid m (a.rename π) then _ else _) _
          split
          · exact hgo a
          · exact .fault _
      | _ => exact .fault _

theorem arith_rename (op : Arith) (a b : Value) :
    op.eval (a.rename π) (b.rename π) = renameResult π (op.eval a b) := by
  cases a <;> cases b <;> cases op <;> first | rfl | skip
  all_goals
    unfold Arith.eval Value.rename
    dsimp only
    split <;> rfl

theorem compare_rename (pred : Compare) (a b : Value) :
    pred.eval (a.rename π) (b.rename π) = renameResult π (pred.eval a b) := by
  cases a <;> cases b <;> rfl

theorem zext_rename (v : Value) : zextValue (v.rename π) = renameResult π (zextValue v) := by
  cases v <;> rfl

theorem cast_rename (f : Int → Int) (v : Value) :
    castValue f (v.rename π) = renameResult π (castValue f v) := by
  cases v <;> rfl

theorem pointer_rename (v : Value) (offset : Option Int) :
    pointerAt (v.rename π) offset = (pointerAt v offset).rename π := by
  cases v <;> cases offset <;> rfl

theorem index_rename (v : Value) : indexValue (v.rename π) = indexValue v := by
  cases v <;> rfl

theorem unary_rename {f : Value → Except Fault Value}
    (hf : ∀ v, f (v.rename π) = renameResult π (f v)) (a : Option Value) :
    (a.map (Value.rename π)).map f = (a.map f).map (renameResult π) := by
  cases a with
  | none => rfl
  | some v => exact congrArg some (hf v)

theorem binary_rename {f : Value → Value → Except Fault Value}
    (hf : ∀ v u, f (v.rename π) (u.rename π) = renameResult π (f v u)) (a b : Option Value) :
    (do return f (← a.map (Value.rename π)) (← b.map (Value.rename π)) : Option _) =
      (do return f (← a) (← b) : Option _).map (renameResult π) := by
  cases a with
  | none => rfl
  | some v =>
      cases b with
      | none => rfl
      | some u => exact congrArg some (hf v u)

theorem offsets_same (hnames : Names π n w) (henv : Env.Renames π n env env')
    {vs vs' : List Operand} (h : List.Forall₂ (Operand.Same w) vs vs') :
    vs'.map (fun i => (i.eval env').bind indexValue) =
      vs.map fun i => (i.eval env).bind indexValue := by
  induction h with
  | nil => rfl
  | @cons v v' vs vs' hv _ ih =>
      rw [List.map_cons, List.map_cons, ih, hv.eval hnames henv]
      congr 1
      cases v.eval env with
      | none => rfl
      | some x => exact index_rename x

theorem exec_same (hnames : Names π n w) (henv : Env.Renames π n env env') (mem : MemOps M)
    (m : M) {i i' : Instr} (h : i.Same w i') :
    EffectSame π n w (exec (mem.rename π) i env m) (exec mem i' env' m) := by
  cases h with
  | @alloca r r' hr ty =>
      obtain ⟨-, rfl⟩ := hnames _ _ hr
      have hset := henv.set r (.ptr ⟨.slot env.activation r, 0⟩)
      dsimp only [exec]
      rw [henv.activation]
      exact .next hset _
  | @load r r' hr ty a a' ha =>
      obtain ⟨-, rfl⟩ := hnames _ _ hr
      dsimp only [exec]
      rw [ha.eval hnames henv]
      apply access_same
      intro p
      have hset := henv.set r ((mem.rename π).load m p)
      have hload : ((mem.rename π).load m p).rename π = mem.load m (p.rename π) :=
        Value.symm_rename π _
      rw [hload] at hset
      exact .next hset m
  | @store v v' a a' hv ha =>
      dsimp only [exec]
      rw [hv.eval hnames henv, ha.eval hnames henv]
      cases v.eval env with
      | none => exact .fault _
      | some x =>
          apply access_same
          intro p
          exact .next henv _
  | @binary r r' hr op a a' b b' ha hb =>
      dsimp only [exec]
      rw [ha.eval hnames henv, hb.eval hnames henv, binary_rename (arith_rename op)]
      exact compute_same henv (hnames _ _ hr).2 m _
  | @icmp r r' hr pred a a' b b' ha hb =>
      dsimp only [exec]
      rw [ha.eval hnames henv, hb.eval hnames henv, binary_rename (compare_rename pred)]
      exact compute_same henv (hnames _ _ hr).2 m _
  | @zext r r' hr v v' hv =>
      dsimp only [exec]
      rw [hv.eval hnames henv, unary_rename zext_rename]
      exact compute_same henv (hnames _ _ hr).2 m _
  | @sext r r' hr v v' hv bits =>
      dsimp only [exec]
      rw [hv.eval hnames henv, unary_rename (cast_rename id)]
      exact compute_same henv (hnames _ _ hr).2 m _
  | @trunc r r' hr v v' hv bits =>
      dsimp only [exec]
      rw [hv.eval hnames henv, unary_rename (cast_rename (truncInt bits))]
      exact compute_same henv (hnames _ _ hr).2 m _
  | @getelementptr r r' hr ty base base' hbase indices indices' hindices =>
      dsimp only [exec]
      rw [hbase.eval hnames henv, offsets_same hnames henv hindices]
      have hsame : ∀ offset, (do return .ok (pointerAt (← (base.eval env).map (Value.rename π))
          offset) : Option (Except Fault Value)) =
          (do return .ok (pointerAt (← base.eval env) offset) : Option _).map
            (renameResult π) := by
        intro offset
        cases base.eval env with
        | none => rfl
        | some v => exact congrArg (fun v => some (Except.ok v)) (pointer_rename v offset)
      rw [hsame]
      exact compute_same henv (hnames _ _ hr).2 m _
  | @call r r' hr callee args args' hargs =>
      dsimp only [exec]
      rw [evals_same hnames henv hargs]
      cases args.mapM (Operand.eval env) with
      | none => exact .fault _
      | some values => exact .call hr callee values
  | br ht => exact .jump ht
  | @condBr v v' hv t t' f f' ht hf =>
      dsimp only [exec]
      rw [hv.eval hnames henv]
      cases v.eval env with
      | none => exact .fault _
      | some x =>
          cases x with
          | i1 b =>
              cases b with
              | true => exact .jump ht
              | false => exact .jump hf
          | _ => exact .fault _
  | ret => exact .ret none
  | @retValue v v' hv =>
      dsimp only [exec]
      rw [hv.eval hnames henv]
      cases v.eval env with
      | none => exact .fault _
      | some x => exact .ret (some x)

end IR

end CMinus
