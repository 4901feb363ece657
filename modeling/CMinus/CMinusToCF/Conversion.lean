import Mathlib.Algebra.BigOperators.Intervals
import Mathlib.Algebra.Order.BigOperators.Group.Finset
import CMinus.CMinusToCF.Correct

namespace CMinus

namespace CMinusToCF

open SSA MLIR Structured

/-! Where a pattern applies. -/

inductive Applies (r : PatternRewriter) (block : Nat) (before rest : List Op) :
    PatternRewriter → Prop where
  | indexCheck (index : Operand) (code : r.code block = before ++ .indexCheck index :: rest)
      (declared : (lookupFunc r.body kIndexErrorName).isSome) :
      Applies r block before rest (indexCheckLowering block before.length index r).2
  | ifThen (cond : Operand) (thenRegion : List Op)
      (code : r.code block = before ++ .ifs cond thenRegion none :: rest) :
      Applies r block before rest (ifLowering block before.length cond thenRegion none r).2
  | ifElse (cond : Operand) (thenRegion elseRegion : List Op)
      (code : r.code block = before ++ .ifs cond thenRegion (some elseRegion) :: rest) :
      Applies r block before rest
        (ifLowering block before.length cond thenRegion (some elseRegion) r).2
  | whiles (condRegion bodyRegion : List Op) (value : Operand)
      (code : r.code block = before ++ .whiles condRegion bodyRegion :: rest)
      (last : condRegion.getLast? = some (.condition value)) :
      Applies r block before rest
        (whileLowering block before.length condRegion bodyRegion value r).2
  | cminusReturn (value : Option Operand)
      (code : r.code block = before ++ .cminusReturn value :: rest) :
      Applies r block before rest (returnLowering block before.length value r).2

theorem split_at {ops : List Op} {position : Nat} {op : Op} (h : ops[position]? = some op) :
    ∃ before rest, ops = before ++ op :: rest ∧ before.length = position := by
  obtain ⟨hlt, rfl⟩ := List.getElem?_eq_some_iff.mp h
  refine ⟨ops.take position, ops.drop (position + 1), ?_, ?_⟩
  · rw [← List.drop_eq_getElem_cons hlt, List.take_append_drop]
  · rw [List.length_take, Nat.min_eq_left (Nat.le_of_lt hlt)]

theorem matchAndRewrite_applies {block position : Nat} {r r' : PatternRewriter}
    (h : matchAndRewrite block position r = some r') :
    ∃ before rest, Applies r block before rest r' := by
  unfold matchAndRewrite at h
  split at h
  · next index hop =>
      obtain ⟨before, rest, hcode, rfl⟩ := split_at hop
      split at h
      · next hdeclared =>
          cases h
          exact ⟨before, rest, .indexCheck index hcode hdeclared⟩
      · cases h
  · next cond thenRegion elseRegion hop =>
      obtain ⟨before, rest, hcode, rfl⟩ := split_at hop
      cases h
      cases elseRegion with
      | none => exact ⟨before, rest, .ifThen cond thenRegion hcode⟩
      | some elseRegion => exact ⟨before, rest, .ifElse cond thenRegion elseRegion hcode⟩
  · next condRegion bodyRegion hop =>
      obtain ⟨before, rest, hcode, rfl⟩ := split_at hop
      split at h
      · next value hlast =>
          cases h
          exact ⟨before, rest, .whiles condRegion bodyRegion value hcode hlast⟩
      · cases h
  · next value hop =>
      obtain ⟨before, rest, hcode, rfl⟩ := split_at hop
      cases h
      exact ⟨before, rest, .cminusReturn value hcode⟩
  · cases h

theorem Converts.applies {r r' : PatternRewriter} (h : Converts r r') :
    ∃ block before rest, r.Known block ∧ Applies r block before rest r' := by
  obtain ⟨f, block, position, hf, hblock, hmatch⟩ := h
  obtain ⟨before, rest, happlies⟩ := matchAndRewrite_applies hmatch
  exact ⟨block, before, rest, ⟨f, hf, hblock⟩, happlies⟩

theorem Applies.correct {r r' : PatternRewriter} {block : Nat} {before rest : List Op}
    (h : Applies r block before rest r') (hvalid : r.Valid) (hknown : r.Known block) :
    Correct r r' := by
  cases h with
  | indexCheck _ hcode => exact indexCheck_correct hvalid hknown hcode
  | ifThen _ _ hcode => exact ifThen_correct hvalid hknown hcode
  | ifElse _ _ _ hcode => exact ifElse_correct hvalid hknown hcode
  | whiles _ _ _ hcode hlast => exact while_correct hvalid hknown hcode hlast
  | cminusReturn _ hcode => exact return_correct hvalid hknown hcode

/-! The work that is left: the ops that have a pattern, however deep.  An index check counts
`check` and each other op `other`. -/

section

variable (check other : Nat)

mutual

def work : Op → Nat
  | .ifs _ thenRegion none => workOf thenRegion + other
  | .ifs _ thenRegion (some elseRegion) => workOf thenRegion + workOf elseRegion + other
  | .whiles condRegion bodyRegion => workOf condRegion + workOf bodyRegion + other
  | .cminusReturn _ => other
  | .indexCheck _ => check
  | _ => 0

def workOf : List Op → Nat
  | [] => 0
  | op :: ops => work op + workOf ops

end

def PatternRewriter.workLeft (r : PatternRewriter) : Nat :=
  ∑ b ∈ Finset.range r.nextBlock, workOf check other (r.code b)

end

variable {check other : Nat}

@[simp] theorem workOf_nil : workOf check other [] = 0 := rfl

@[simp] theorem workOf_cons (op : Op) (ops : List Op) :
    workOf check other (op :: ops) = work check other op + workOf check other ops := rfl

@[simp] theorem workOf_append (first second : List Op) :
    workOf check other (first ++ second) = workOf check other first + workOf check other second := by
  induction first with
  | nil => rw [List.nil_append, workOf_nil, Nat.zero_add]
  | cons op first ih => rw [List.cons_append, workOf_cons, workOf_cons, ih, Nat.add_assoc]

theorem workOf_replaceLast {ops : List Op} {last : Op} (h : ops.getLast? = some last) {op : Op}
    (hwork : work check other op = work check other last) :
    workOf check other (ops.dropLast ++ [op]) = workOf check other ops := by
  obtain ⟨inner, rfl⟩ := List.getLast?_eq_some_iff.mp h
  rw [List.dropLast_concat, workOf_append, workOf_append, workOf_cons, workOf_cons, hwork]

theorem workOf_branchInsteadOfYield (ops : List Op) (dest : Nat) :
    workOf check other (branchInsteadOfYield ops dest) = workOf check other ops := by
  unfold branchInsteadOfYield
  split
  · next hlast => exact workOf_replaceLast hlast rfl
  · rfl

section

variable {r r' : PatternRewriter} {block : Nat}

theorem workLeft_split (check other : Nat) (hblock : block < r.nextBlock) {k : Nat}
    (hgrown : r'.nextBlock = r.nextBlock + k)
    (hframe : ∀ b, b < r.nextBlock → b ≠ block → r'.code b = r.code b) :
    r'.workLeft check other + workOf check other (r.code block) =
      r.workLeft check other + workOf check other (r'.code block) +
        ∑ i ∈ Finset.range k, workOf check other (r'.code (r.nextBlock + i)) := by
  have hmem := Finset.mem_range.mpr hblock
  have hold := Finset.add_sum_erase _ (fun b => workOf check other (r.code b)) hmem
  have hnew := Finset.add_sum_erase _ (fun b => workOf check other (r'.code b)) hmem
  have hsame : ∑ b ∈ (Finset.range r.nextBlock).erase block, workOf check other (r'.code b) =
      ∑ b ∈ (Finset.range r.nextBlock).erase block, workOf check other (r.code b) := by
    apply Finset.sum_congr rfl
    intro b hb
    obtain ⟨hne, hlt⟩ := Finset.mem_erase.mp hb
    rw [hframe b (Finset.mem_range.mp hlt) hne]
  unfold PatternRewriter.workLeft
  rw [hgrown, Finset.sum_range_add]
  omega

/-- A pattern does the work of its own op. -/
theorem Applies.workLeft {before rest : List Op} (h : Applies r block before rest r')
    (hblock : block < r.nextBlock) : ∃ done, (done = check ∨ done = other) ∧
      r.workLeft check other = r'.workLeft check other + done := by
  cases h with
  | indexCheck index hcode =>
      obtain ⟨hrewrites, -, hblock', hok, hfail⟩ := indexCheck_rewrites hcode hblock index
      have hsplit := workLeft_split check other hblock (k := 2) rfl
        hrewrites.frame
      rw [hblock', hcode] at hsplit
      simp [Finset.sum_range_succ, hok, hfail, work] at hsplit
      exact ⟨check, .inl rfl, by omega⟩
  | ifThen cond thenRegion hcode =>
      obtain ⟨hrewrites, -, hblock', hcont, hthen⟩ := ifThen_rewrites hcode hblock cond thenRegion
      have hsplit := workLeft_split check other hblock (k := 2) rfl hrewrites.frame
      rw [hblock', hcode] at hsplit
      simp [Finset.sum_range_succ, hcont, hthen, workOf_branchInsteadOfYield, work] at hsplit
      exact ⟨other, .inr rfl, by omega⟩
  | ifElse cond thenRegion elseRegion hcode =>
      obtain ⟨hrewrites, -, hblock', hcont, hthen, helse⟩ :=
        ifElse_rewrites hcode hblock cond thenRegion elseRegion
      have hsplit := workLeft_split check other hblock (k := 3) rfl hrewrites.frame
      rw [hblock', hcode] at hsplit
      simp [Finset.sum_range_succ, hcont, hthen, helse, workOf_branchInsteadOfYield, work] at hsplit
      exact ⟨other, .inr rfl, by omega⟩
  | whiles condRegion bodyRegion value hcode hlast =>
      obtain ⟨hrewrites, -, hblock', hcont, hcond, hbody⟩ :=
        while_rewrites hcode hblock condRegion bodyRegion value
      have hsplit := workLeft_split check other hblock (k := 3) rfl hrewrites.frame
      have hreplaced : workOf check other (condRegion.dropLast ++
          [.condBr value (r.nextBlock + 2) r.nextBlock]) = workOf check other condRegion :=
        workOf_replaceLast hlast rfl
      rw [hblock', hcode] at hsplit
      simp [Finset.sum_range_succ, hcont, hcond, hbody, workOf_branchInsteadOfYield, work]
        at hsplit hreplaced
      exact ⟨other, .inr rfl, by omega⟩
  | cminusReturn value hcode =>
      obtain ⟨hrewrites, -, hblock'⟩ := return_rewrites hcode value
      have hgrown : (returnLowering block before.length value r).2.nextBlock = r.nextBlock + 0 := rfl
      have hsplit := workLeft_split check other hblock hgrown hrewrites.frame
      rw [hblock', hcode] at hsplit
      simp [work] at hsplit
      exact ⟨other, .inr rfl, by omega⟩

end

/-! A whole conversion. -/

section

variable {r r' : PatternRewriter}

theorem Applies.rewrites {block : Nat} {before rest : List Op} (h : Applies r block before rest r')
    (hblock : block < r.nextBlock) : ∃ new, Rewrites r r' block new := by
  cases h with
  | indexCheck index hcode => exact ⟨_, (indexCheck_rewrites hcode hblock index).1⟩
  | ifThen cond thenRegion hcode => exact ⟨_, (ifThen_rewrites hcode hblock cond thenRegion).1⟩
  | ifElse cond thenRegion elseRegion hcode =>
      exact ⟨_, (ifElse_rewrites hcode hblock cond thenRegion elseRegion).1⟩
  | whiles condRegion bodyRegion value hcode =>
      exact ⟨_, (while_rewrites hcode hblock condRegion bodyRegion value).1⟩
  | cminusReturn value hcode => exact ⟨_, (return_rewrites hcode value).1⟩

/-- Either nothing checks an index, or the function that reports it is declared. -/
def PatternRewriter.Declared (r : PatternRewriter) : Prop :=
  r.workLeft 1 0 ≠ 0 → (lookupFunc r.body kIndexErrorName).isSome

variable (hvalid : r.Valid) (h : Converts r r')
include hvalid h

theorem Converts.correct : Correct r r' := by
  obtain ⟨block, before, rest, hknown, happlies⟩ := h.applies
  exact happlies.correct hvalid hknown

theorem Converts.workLeft (check other : Nat) : ∃ done, (done = check ∨ done = other) ∧
    r.workLeft check other = r'.workLeft check other + done := by
  obtain ⟨block, before, rest, hknown, happlies⟩ := h.applies
  exact happlies.workLeft (hvalid.known_lt hknown)

theorem Converts.declared (hdeclared : r.Declared) : r'.Declared := by
  obtain ⟨block, before, rest, hknown, happlies⟩ := h.applies
  obtain ⟨new, hrewrites⟩ := happlies.rewrites (hvalid.known_lt hknown)
  obtain ⟨F, -, hbody⟩ := hrewrites.body
  obtain ⟨done, -, hwork⟩ := h.workLeft hvalid 1 0
  intro hchecks
  rw [hbody, lookupFunc_mapBlocks, Option.isSome_map]
  apply hdeclared
  omega

end

section

variable {n : Nat} {r r' : PatternRewriter}

theorem Conversion.valid (h : Conversion n r r') (hvalid : r.Valid) :
    r'.Valid ∧ r.nextReg ≤ r'.nextReg := by
  induction h with
  | done r => exact ⟨hvalid, le_rfl⟩
  | more first _ ih =>
      have hcorrect := first.correct hvalid
      obtain ⟨hvalid', hregs⟩ := ih hcorrect.valid
      exact ⟨hvalid', hcorrect.regs.trans hregs⟩

theorem Conversion.declared (h : Conversion n r r') (hvalid : r.Valid)
    (hdeclared : r.Declared) : r'.Declared := by
  induction h with
  | done r => exact hdeclared
  | more first _ ih => exact ih (first.correct hvalid).valid (first.declared hvalid hdeclared)

/-- Each rewrite is of one op, and makes none. -/
theorem Conversion.length (h : Conversion n r r') (hvalid : r.Valid) :
    n + r'.workLeft 1 1 = r.workLeft 1 1 := by
  induction h with
  | done r => exact Nat.zero_add _
  | more first _ ih =>
      obtain ⟨done, hdone, hwork⟩ := first.workLeft hvalid 1 1
      have hrest := ih (first.correct hvalid).valid
      omega

theorem exists_complete (hvalid : r.Valid) : ∃ n r', Conversion n r r' ∧ Complete r' := by
  induction hleft : r.workLeft 1 1 using Nat.strong_induction_on generalizing r with
  | _ left ih =>
      by_cases hcomplete : Complete r
      · exact ⟨0, r, .done r, hcomplete⟩
      · obtain ⟨r₁, hfirst⟩ := not_forall_not.mp hcomplete
        obtain ⟨done, hdone, hwork⟩ := hfirst.workLeft hvalid 1 1
        have hvalid₁ := (hfirst.correct hvalid).valid
        obtain ⟨n, r', hrest, hcomplete'⟩ := ih (r₁.workLeft 1 1) (by omega) hvalid₁ rfl
        exact ⟨n + 1, r', .more hfirst hrest, hcomplete'⟩

/-! Where nothing more can be converted, nothing of the dialect is left. -/

theorem workOf_pos {check other : Nat} {ops : List Op} {op : Op} (hop : op ∈ ops)
    (hwork : work check other op ≠ 0) : workOf check other ops ≠ 0 := by
  induction ops with
  | nil => cases hop
  | cons first ops ih =>
      rw [workOf_cons]
      rcases List.mem_cons.mp hop with rfl | hop
      · omega
      · have := ih hop
        omega

theorem workLeft_pos {check other b : Nat} (hb : b < r.nextBlock) {op : Op} (hop : op ∈ r.code b)
    (hwork : work check other op ≠ 0) : r.workLeft check other ≠ 0 := by
  have hle := Finset.single_le_sum (f := fun b => workOf check other (r.code b))
    (fun _ _ => Nat.zero_le _) (Finset.mem_range.mpr hb)
  have hpos := workOf_pos hop hwork
  unfold PatternRewriter.workLeft
  omega

theorem Complete.flat (hcomplete : Complete r) (hvalid : r.Valid) (hdeclared : r.Declared)
    {b : Nat} (hb : r.Known b) {op : Op} (hop : op ∈ r.code b) : op.isCMinus = false := by
  obtain ⟨position, hposition⟩ := List.mem_iff_getElem?.mp hop
  obtain ⟨f, hf, hmem⟩ := hb
  have hno : matchAndRewrite b position r = none := by
    apply Option.eq_none_iff_forall_ne_some.mpr
    intro r' hmatch
    exact hcomplete r' ⟨f, b, position, hf, hmem, hmatch⟩
  unfold matchAndRewrite at hno
  rw [hposition] at hno
  obtain ⟨inner, rest, -, -, -, hparts⟩ := (hvalid.formed f hf b hmem).split hposition
  rcases hparts with ⟨hinner, -⟩ | ⟨hend, -⟩
  · cases hinner with
    | straight _ _ flat => exact flat
    | indexCheck index =>
        have hchecks : r.workLeft 1 0 ≠ 0 :=
          workLeft_pos (hvalid.born f hf b hmem) hop Nat.one_ne_zero
        simp [hdeclared hchecks] at hno
    | ifThen | ifElse => cases hno
    | whiles => simp at hno
  · cases hend with
    | leave => cases hno
    | flat _ _ plain => exact plain

/-! What a conversion does to a run. -/

theorem Configs.outcome {n : Nat} {known : Nat → Prop} {σ : Site} {M W : Type}
    {c c' : Structured.Config M W} (h : Configs n known σ c c') : c.outcome = c'.outcome := by
  cases h <;> rfl

variable {M W : Type} (memory : MemOps M) (runtime : String → List Value → W → Option (Reply W))

/-- The runs of a call, before and after. -/
def FollowsAt (bound : Nat) (m m' : Machine Op M W) (callee : String) (args : List Value)
    (shared : Shared M W) : Prop :=
  Option.Rel (System.Follows (Structured.system bound m) (Structured.system bound m')
    fun c c' => c.outcome = c'.outcome) (Structured.start m callee args shared)
    (Structured.start m' callee args shared)

variable {bound : Nat} {m m' m'' : Machine Op M W} {callee : String} {args : List Value}
  {shared : Shared M W}

theorem FollowsAt.refl (bound : Nat) (m : Machine Op M W) (callee : String) (args : List Value)
    (shared : Shared M W) : FollowsAt bound m m callee args shared := by
  unfold FollowsAt
  cases Structured.start m callee args shared with
  | none => exact .none
  | some c => exact .some fun n => ⟨n, le_rfl, rfl, rfl⟩

theorem FollowsAt.trans (h : FollowsAt bound m m' callee args shared)
    (h' : FollowsAt bound m' m'' callee args shared) :
    FollowsAt bound m m'' callee args shared := by
  unfold FollowsAt at h h' ⊢
  generalize Structured.start m callee args shared = start at h ⊢
  generalize Structured.start m' callee args shared = start' at h h'
  generalize Structured.start m'' callee args shared = start'' at h' ⊢
  cases h with
  | none =>
      cases h' with
      | none => exact .none
  | some hfollows =>
      cases h' with
      | some hfollows' =>
          apply Option.Rel.some
          apply (hfollows.trans hfollows').mono
          intro c c'' hmiddle
          obtain ⟨c', hfirst, hsecond⟩ := hmiddle
          exact hfirst.trans hsecond

theorem Correct.follows (h : Correct r r') {bound : Nat} (hbound : bound ≤ r.nextReg)
    (callee : String) (args : List Value) (shared : Shared M W) :
    FollowsAt bound (r.module.machine memory runtime) (r'.module.machine memory runtime) callee args
      shared := by
  obtain ⟨σ, hlowers⟩ := h.lowers memory runtime bound hbound
  unfold FollowsAt Structured.start
  rw [hlowers.entry]
  cases hentry : (r.module.machine memory runtime).entry callee with
  | none => exact .none
  | some block =>
      apply Option.Rel.some
      have hblock := hlowers.blocks block (hlowers.entered callee block hentry)
      have hframe := hblock.frames (.refl r.nextReg (.enter shared.activations args)) none
      have hconfigs : Configs r.nextReg r.Known σ _ _ := .running hframe .nil
        { shared with activations := shared.activations + 1 }
      exact (hlowers.simulates.follows hconfigs).mono fun _ _ => Configs.outcome

theorem Conversion.follows (h : Conversion n r r') (hvalid : r.Valid) {bound : Nat}
    (hbound : bound ≤ r.nextReg) (callee : String) (args : List Value) (shared : Shared M W) :
    FollowsAt bound (r.module.machine memory runtime) (r'.module.machine memory runtime) callee args
      shared := by
  induction h with
  | done r => exact .refl _ _ _ _ _
  | more first _ ih =>
      have hcorrect := first.correct hvalid
      exact (hcorrect.follows memory runtime hbound callee args shared).trans
        (ih hcorrect.valid (hbound.trans hcorrect.regs))

end

end CMinusToCF

end CMinus
