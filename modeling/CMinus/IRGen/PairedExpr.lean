import CMinus.IRGen.Paired
import CMinus.SSA.Reach

namespace CMinus

namespace IRGenerator

open SSA IR

/-! Two actions that keep two generators in step. -/

structure Paired (w : Pairing) (P : List (Nat × Nat)) (now : Bool) (g g' : IRGenerator) : Prop
    extends Aligned w P now g g' where
  plain : g.builder.blockOpen = now
  guarded : g'.builder.blockOpen = now

/-- The pairing and the blocks of the two functions only grow. -/
structure Onward (w u : Pairing) (g g' h h' : IRGenerator) : Prop where
  le : w ≤ u
  layout : g.builder.layout <+: h.builder.layout
  layout' : g'.builder.layout <+: h'.builder.layout

theorem Onward.refl (w : Pairing) (g g' : IRGenerator) : Onward w w g g' g g' :=
  ⟨le_rfl, List.prefix_rfl, List.prefix_rfl⟩

theorem Onward.trans {w u v : Pairing} {g g' h h' k k' : IRGenerator}
    (first : Onward w u g g' h h') (second : Onward u v h h' k k') : Onward w v g g' k k' :=
  ⟨first.le.trans second.le, first.layout.trans second.layout,
    first.layout'.trans second.layout'⟩

/-- Run where the insertion points are a pair, the actions pair their results, and `exit` says
whether the insertion points are a pair again. -/
structure Leads {α : Type} (exit : Bool → Prop) (w : Pairing) (action action' : IRGenM α)
    (R : Pairing → α → α → Prop) : Prop where
  run : ∀ v, w ≤ v → ∀ P g g', Paired v P true g g' → ∃ u now,
    Onward v u g g' (action g).2 (action' g').2 ∧ Paired u P now (action g).2 (action' g').2 ∧
      exit now ∧ R u (action g).1 (action' g').1

abbrev Evaluates {α : Type} (w : Pairing) (action action' : IRGenM α)
    (R : Pairing → α → α → Prop) : Prop :=
  Leads (· = true) w action action' R

variable {α β : Type} {exit : Bool → Prop} {w : Pairing} {P : List (Nat × Nat)} {now : Bool}
  {g g' : IRGenerator}

theorem evaluates_pure {a a' : α} {R : Pairing → α → α → Prop} (h : ∀ v, w ≤ v → R v a a') :
    Evaluates w (pure a) (pure a') R := by
  constructor
  intro v hle P g g' hpaired
  exact ⟨v, true, .refl v g g', hpaired, rfl, h v hle⟩

namespace Leads

theorem later {action action' : IRGenM α} {R : Pairing → α → α → Prop}
    (h : Leads exit w action action' R) {v : Pairing} (hle : w ≤ v) :
    Leads exit v action action' R := by
  constructor
  intro u hu
  exact h.run u (hle.trans hu)

theorem mono {exit' : Bool → Prop} {action action' : IRGenM α} {R S : Pairing → α → α → Prop}
    (h : Leads exit w action action' R) (hexit : ∀ now, exit now → exit' now)
    (hRS : ∀ v a a', w ≤ v → R v a a' → S v a a') : Leads exit' w action action' S := by
  constructor
  intro v hle P g g' hpaired
  obtain ⟨u, now, honward, hpaired', hnow, hR⟩ := h.run v hle P g g' hpaired
  exact ⟨u, now, honward, hpaired', hexit now hnow, hRS u _ _ (hle.trans honward.le) hR⟩

theorem bind {first first' : IRGenM α} {next next' : α → IRGenM β}
    {R : Pairing → α → α → Prop} {S : Pairing → β → β → Prop}
    (hfirst : Evaluates w first first' R)
    (hnext : ∀ v, w ≤ v → ∀ a a', R v a a' → Leads exit v (next a) (next' a') S) :
    Leads exit w (first >>= next) (first' >>= next') S := by
  constructor
  intro v hle P g g' hpaired
  obtain ⟨u, _, honward, hpaired', rfl, hR⟩ := hfirst.run v hle P g g' hpaired
  obtain ⟨u', now, honward', hrest⟩ :=
    (hnext u (hle.trans honward.le) _ _ hR).run u le_rfl P _ _ hpaired'
  exact ⟨u', now, honward.trans honward', hrest⟩

theorem assoc {γ : Type} {first first' : IRGenM γ} {second second' : γ → IRGenM α}
    {third third' : α → IRGenM β} {R : Pairing → β → β → Prop}
    (h : Leads exit w ((first >>= second) >>= third) ((first' >>= second') >>= third') R) :
    Leads exit w (first >>= fun a => second a >>= third)
      (first' >>= fun a => second' a >>= third') R :=
  h

end Leads

/-! Instructions. -/

theorem blockOpen_append (s : Builder Instr) (i : Instr) :
    (s.append i).blockOpen = !i.isTerminator := by
  unfold Builder.blockOpen
  rw [Builder.append_cur, Builder.append_code_cur, List.getLast?_concat]
  rfl

theorem blockOpen_moveTo {s : Builder Instr} {b : Nat} (h : s.code b = []) :
    (s.moveTo b).blockOpen = true := by
  unfold Builder.blockOpen
  rw [Builder.moveTo_code, Builder.moveTo_cur, h]
  rfl

theorem Paired.append (h : Paired w P true g g') {i i' : Instr} (hsame : i.Same w i')
    (hterm : i.isTerminator = false) :
    Paired (w.addPlace g.builder.cur (g.builder.position + 1) g'.builder.cur
        (g'.builder.position + 1)) P true
      { g with builder := g.builder.append i } { g' with builder := g'.builder.append i' } := by
  refine ⟨h.toAligned.append hsame, ?_, ?_⟩
  · rw [blockOpen_append, hterm]
    rfl
  · rw [blockOpen_append, hsame.isTerminator, hterm]
    rfl

theorem Paired.close (h : Paired w P true g g') {i i' : Instr} (hsame : i.Same w i')
    (hterm : i.isTerminator = true) :
    Paired w P false { g with builder := g.builder.append i }
      { g' with builder := g'.builder.append i' } := by
  refine ⟨h.toAligned.close hsame hterm, ?_, ?_⟩
  · rw [blockOpen_append, hterm]
    rfl
  · rw [blockOpen_append, hsame.isTerminator, hterm]
    rfl

theorem Aligned.start {b c : Nat} (h : Aligned w ((b, c) :: P) false g g') :
    Paired w P true { g with builder := g.builder.moveTo b }
      { g' with builder := g'.builder.moveTo c } := by
  obtain ⟨-, hempty, hempty', -⟩ := h.waits b c List.mem_cons_self
  exact ⟨h.moveTo, blockOpen_moveTo hempty, blockOpen_moveTo hempty'⟩

theorem evaluates_emit {i i' : Instr} (hsame : ∀ v, w ≤ v → i.Same v i')
    (hterm : i.isTerminator = false) :
    Evaluates w (emit i) (emit i') fun _ _ _ => True := by
  constructor
  intro v hle P g g' hpaired
  exact ⟨_, true, ⟨v.le_addPlace _ _ _ _, List.prefix_rfl, List.prefix_rfl⟩,
    hpaired.append (hsame v hle) hterm, rfl, trivial⟩

theorem leads_close {i i' : Instr} (hsame : ∀ v, w ≤ v → i.Same v i')
    (hterm : i.isTerminator = true) :
    Leads (· = false) w (emit i) (emit i') fun _ _ _ => True := by
  constructor
  intro v hle P g g' hpaired
  exact ⟨v, false, ⟨le_rfl, List.prefix_rfl, List.prefix_rfl⟩,
    hpaired.close (hsame v hle) hterm, rfl, trivial⟩

theorem evaluates_define {i i' : Nat → Instr}
    (hsame : ∀ v, w ≤ v → ∀ r r', v.reg r r' → (i r).Same v (i' r'))
    (hterm : ∀ r, (i r).isTerminator = false) :
    Evaluates w (define i) (define i') Operand.Same := by
  constructor
  intro v hle P g g' hpaired
  have hadd := v.le_addReg g.builder.nextReg g'.builder.nextReg
  have hreg : (v.addReg g.builder.nextReg g'.builder.nextReg).reg g.builder.nextReg
      g'.builder.nextReg := .inr ⟨rfl, rfl⟩
  have hboth : Paired (v.addReg g.builder.nextReg g'.builder.nextReg) P true
      { g with builder := { g.builder with nextReg := g.builder.nextReg + 1 } }
      { g' with builder := { g'.builder with nextReg := g'.builder.nextReg + 1 } } :=
    ⟨hpaired.toAligned.addReg, hpaired.plain, hpaired.guarded⟩
  have hnext := hboth.append (hsame _ (hle.trans hadd) _ _ hreg) (hterm _)
  exact ⟨_, true, ⟨hadd.trans (Pairing.le_addPlace _ _ _ _ _), List.prefix_rfl,
    List.prefix_rfl⟩, hnext, rfl, .reg hreg⟩

/-- Both sides fold, to the same constant, or neither does. -/
theorem evaluates_foldOr {folded folded' : Option Operand} {i i' : Nat → Instr}
    (hfolded : folded' = folded) (hregs : ∀ v, folded = some v → v.regs = [])
    (hsame : ∀ v, w ≤ v → ∀ r r', v.reg r r' → (i r).Same v (i' r'))
    (hterm : ∀ r, (i r).isTerminator = false) :
    Evaluates w (foldOr folded i) (foldOr folded' i') Operand.Same := by
  subst hfolded
  cases folded' with
  | none => exact evaluates_define hsame hterm
  | some constant => exact evaluates_pure fun _ _ => .other constant (hregs constant rfl)

theorem evaluates_createBinary (op : Arith) {a a' b b' : Operand} (ha : a.Same w a')
    (hb : b.Same w b') :
    Evaluates w (createBinary op a b) (createBinary op a' b') Operand.Same :=
  evaluates_foldOr (foldBinary_same op ha hb) (fun _ => foldBinary_regs)
    (fun _ hle _ _ hr => .binary hr op (ha.mono hle) (hb.mono hle)) fun _ => rfl

theorem evaluates_createICmp (pred : Compare) {a a' b b' : Operand} (ha : a.Same w a')
    (hb : b.Same w b') :
    Evaluates w (createICmp pred a b) (createICmp pred a' b') Operand.Same :=
  evaluates_foldOr (foldICmp_same pred ha hb) (fun _ => foldICmp_regs)
    (fun _ hle _ _ hr => .icmp hr pred (ha.mono hle) (hb.mono hle)) fun _ => rfl

theorem evaluates_createZExt {v v' : Operand} (hv : v.Same w v') :
    Evaluates w (createZExt v) (createZExt v') Operand.Same :=
  evaluates_foldOr (foldZExt_same hv) (fun _ => foldZExt_regs)
    (fun _ hle _ _ hr => .zext hr (hv.mono hle)) fun _ => rfl

theorem evaluates_createSExtOrTrunc (bits : Nat) {v v' : Operand} (hv : v.Same w v') :
    Evaluates w (createSExtOrTrunc bits v) (createSExtOrTrunc bits v') Operand.Same := by
  unfold createSExtOrTrunc
  by_cases hbits : bits = 32
  · rw [if_pos hbits, if_pos hbits]
    exact evaluates_pure fun _ hle => hv.mono hle
  · rw [if_neg hbits, if_neg hbits]
    refine evaluates_foldOr (foldIndexCast_same bits hv) (fun _ => foldIndexCast_regs) ?_ ?_
    · intro u hle r r' hr
      by_cases hwide : 32 < bits
      · rw [if_pos hwide, if_pos hwide]
        exact .sext hr (hv.mono hle) bits
      · rw [if_neg hwide, if_neg hwide]
        exact .trunc hr (hv.mono hle) bits
    · intro r
      split <;> rfl

theorem evaluates_createGEP (ty : Ty) {base base' : Operand} (hbase : base.Same w base')
    {indices indices' : List Operand}
    (hindices : List.Forall₂ (Operand.Same w) indices indices') :
    Evaluates w (createGEP ty base indices) (createGEP ty base' indices') Operand.Same :=
  evaluates_foldOr (foldGEP_same ty hbase hindices) (fun _ => foldGEP_regs)
    (fun _ hle _ _ hr => .getelementptr hr ty (hbase.mono hle) (same_forall_mono hle hindices))
    fun _ => rfl

theorem evaluates_createLoad (ty : Ty) {address address' : Operand}
    (haddress : address.Same w address') :
    Evaluates w (createLoad ty address) (createLoad ty address') Operand.Same :=
  evaluates_define (fun _ hle _ _ hr => .load hr ty (haddress.mono hle)) fun _ => rfl

theorem evaluates_createAlloca (ty : Ty) :
    Evaluates w (createAlloca ty) (createAlloca ty) Operand.Same :=
  evaluates_define (fun _ _ _ _ hr => .alloca hr ty) fun _ => rfl

theorem evaluates_createCall {callee callee' : Function} (hcallee : Callees callee callee')
    {args args' : List Operand} (hargs : List.Forall₂ (Operand.Same w) args args') :
    Evaluates w (createCall callee args) (createCall callee' args') Operand.Same := by
  unfold createCall
  rw [hcallee.name, hcallee.returnType]
  by_cases hvoid : callee.returnType = .void
  · rw [if_pos hvoid, if_pos hvoid]
    refine (evaluates_emit ?_ rfl).bind fun _ _ _ _ _ => evaluates_pure fun _ _ => .other _ rfl
    intro v hle
    exact .call .none callee.name (same_forall_mono hle hargs)
  · rw [if_neg hvoid, if_neg hvoid]
    refine evaluates_define ?_ fun _ => rfl
    intro v hle r r' hr
    exact .call (.some hr) callee.name (same_forall_mono hle hargs)

/-! What leaves the builder alone. -/

theorem evaluates_still {action action' : IRGenM α} {R : Pairing → α → α → Prop}
    (hbuilder : ∀ g, (action g).2.builder = g.builder ∧ g.subscripts ⊆ (action g).2.subscripts)
    (hbuilder' : ∀ g, (action' g).2.builder = g.builder ∧
      g.subscripts ⊆ (action' g).2.subscripts)
    (hrest : ∀ v, w ≤ v → ∀ P g g', Paired v P true g g' →
      List.Forall₂ (SameAddress v) (action g).2.addresses (action' g').2.addresses ∧
      SameFunctions v (action g).2 (action' g').2 ∧ R v (action g).1 (action' g').1) :
    Evaluates w action action' R := by
  constructor
  intro v hle P g g' hpaired
  obtain ⟨haddresses, hfunctions, hR⟩ := hrest v hle P g g' hpaired
  obtain ⟨hsame, hsubscripts⟩ := hbuilder g
  obtain ⟨hsame', hsubscripts'⟩ := hbuilder' g'
  refine ⟨v, true, ⟨le_rfl, ?_, ?_⟩, ⟨?_, ?_, ?_⟩, rfl, hR⟩
  · rw [hsame]
  · rw [hsame']
  · refine hpaired.toAligned.carry ⟨?_, ?_, ?_, ?_, hsubscripts⟩ ⟨?_, ?_, ?_, ?_, hsubscripts'⟩
      haddresses hfunctions
    all_goals first | rw [hsame] | rw [hsame']
  · rw [hsame]
    exact hpaired.plain
  · rw [hsame']
    exact hpaired.guarded

theorem SameFunctions.same {k k' : IRGenerator} (h : SameFunctions w g g')
    (hnames : k.functionNames = g.functionNames) (hnames' : k'.functionNames = g'.functionNames)
    (hfunctions : k.functions = g.functions) (hfunctions' : k'.functions = g'.functions)
    (hcurrent : k.currentFunction = g.currentFunction)
    (hcurrent' : k'.currentFunction = g'.currentFunction) : SameFunctions w k k' := by
  constructor
  · rw [hnames, hnames']
    exact h.names
  · rw [hfunctions, hfunctions']
    exact h.found
  · rw [hnames]
    exact h.others
  · rw [hfunctions']
    exact h.report
  · rw [hcurrent, hcurrent']
    exact h.returns

theorem evaluates_error (loc : SourceLocation) (message : String) :
    Evaluates w (error loc message) (error loc message) fun _ _ _ => True :=
  evaluates_still (fun _ => ⟨rfl, List.Subset.refl _⟩) (fun _ => ⟨rfl, List.Subset.refl _⟩)
    fun _ _ _ _ _ h => ⟨h.addresses, h.functions.same rfl rfl rfl rfl rfl rfl, trivial⟩

theorem evaluates_fallback (name : String) :
    Evaluates w (fallback name) (fallback name) fun _ _ _ => True :=
  evaluates_still (fun _ => ⟨rfl, List.Subset.refl _⟩) (fun _ => ⟨rfl, List.Subset.refl _⟩)
    fun _ _ _ _ _ h => ⟨h.addresses, h.functions.same rfl rfl rfl rfl rfl rfl, trivial⟩

theorem evaluates_access (value value' : Option Operand) :
    Evaluates w (access value) (access value') fun _ _ _ => True :=
  evaluates_still (fun _ => ⟨rfl, List.Subset.refl _⟩) (fun _ => ⟨rfl, List.Subset.refl _⟩)
    fun _ _ _ _ _ h => ⟨h.addresses, h.functions.same rfl rfl rfl rfl rfl rfl, trivial⟩

theorem lookup_same {l l' : List (Nat × Operand)} (h : List.Forall₂ (SameAddress w) l l')
    (id : Nat) : Option.Rel (Operand.Same w) (l.lookup id) (l'.lookup id) := by
  induction h with
  | nil => exact .none
  | @cons e e' l l' he _ ih =>
      obtain ⟨hkey, hsame⟩ := he
      obtain ⟨key, address⟩ := e
      obtain ⟨key', address'⟩ := e'
      obtain rfl : key' = key := hkey
      rw [List.lookup_cons, List.lookup_cons]
      cases id == key' with
      | true => exact .some hsame
      | false => exact ih

theorem evaluates_addressOf (symbol : Symbol) :
    Evaluates w (addressOf symbol) (addressOf symbol) fun v => Option.Rel (Operand.Same v) :=
  evaluates_still (fun _ => ⟨rfl, List.Subset.refl _⟩) (fun _ => ⟨rfl, List.Subset.refl _⟩)
    fun _ _ _ _ _ h => ⟨h.addresses, h.functions, lookup_same h.addresses symbol.id⟩

theorem evaluates_functionFor {symbol : Symbol} (hname : symbol.name ≠ kIndexErrorName) :
    Evaluates w (functionFor symbol) (functionFor symbol) fun _ => Callees := by
  have hstill : ∀ g, (functionFor symbol g).2.builder = g.builder ∧
      g.subscripts ⊆ (functionFor symbol g).2.subscripts ∧
      (functionFor symbol g).2.addresses = g.addresses := by
    intro g
    unfold functionFor
    split <;> exact ⟨rfl, List.Subset.refl _, rfl⟩
  apply evaluates_still
  · intro g
    exact ⟨(hstill g).1, (hstill g).2.1⟩
  · intro g
    exact ⟨(hstill g).1, (hstill g).2.1⟩
  · intro v _ P g g' h
    rw [(hstill g).2.2, (hstill g').2.2]
    exact ⟨h.addresses, h.functions.functionFor hname⟩

theorem evaluates_getCurrentFunction :
    Evaluates w getCurrentFunction getCurrentFunction fun _ f f' =>
      f'.map Function.returnType = f.map Function.returnType :=
  evaluates_still (fun _ => ⟨rfl, List.Subset.refl _⟩) (fun _ => ⟨rfl, List.Subset.refl _⟩)
    fun _ _ _ _ _ h => ⟨h.addresses, h.functions, h.functions.returns⟩

/-! The check of a subscript, which the guarded side alone makes. -/

/-- From the branch on to the block for a good subscript, which is the one after `fail`. -/
def forked (s : Builder Instr) (fail : Nat) (cond index : Operand) : Builder Instr :=
  ((((s.append (.condBr cond fail (fail + 1))).moveTo fail).append
    (.call none kIndexErrorName [index])).append .unreachable).moveTo (fail + 1)

/-- The two blocks of the check, and the instruction that compares. -/
def compared (s : Builder Instr) (index : Operand) : Option Operand → Operand × Builder Instr
  | some cond =>
      (cond, ((s.newBlock.attach s.nextBlock).newBlock.attach (s.nextBlock + 1)))
  | none =>
      (.reg s.nextReg, ((s.newBlock.attach s.nextBlock).newBlock.attach (s.nextBlock + 1)).define
        fun r => .icmp r .slt index (int32 0))

theorem report_run {k : IRGenerator} (index : Operand) (ok : Nat)
    (hreport : ∀ f, getFunction k.functions kIndexErrorName = some f → f = indexErrorSignature) :
    ∃ functions, (functions = k.functions ∨ functions = k.functions ++ [indexErrorSignature]) ∧
      (do
        let callee ← indexErrorFunction
        let _ ← createCall callee [index]
        emit .unreachable
        setInsertPoint ok
        return index : IRGenM Operand) k = (index, { k with
        functions := functions
        builder := ((k.builder.append (.call none kIndexErrorName [index])).append
          .unreachable).moveTo ok }) := by
  have hcallee : ∃ functions, (functions = k.functions ∨
      functions = k.functions ++ [indexErrorSignature]) ∧
      indexErrorFunction k = (indexErrorSignature, { k with functions := functions }) := by
    unfold indexErrorFunction
    cases hget : getFunction k.functions kIndexErrorName with
    | none => exact ⟨_, .inr rfl, rfl⟩
    | some existing =>
        refine ⟨k.functions, .inl rfl, ?_⟩
        rw [hreport existing hget]
  obtain ⟨functions, hfunctions, hrun⟩ := hcallee
  refine ⟨functions, hfunctions, ?_⟩
  change (createCall (indexErrorFunction k).1 [index] >>= fun _ => emit .unreachable >>= fun _ =>
    setInsertPoint ok >>= fun _ => pure index : IRGenM Operand) (indexErrorFunction k).2 = _
  rw [hrun]
  rfl

theorem checkIndex_run {options : IRGenOptions} (hchecks : options.indexChecks = true)
    {index : Operand} (hsign : isNonNegative index = false)
    (hreport : ∀ f, getFunction g.functions kIndexErrorName = some f →
      f = indexErrorSignature) :
    ∃ functions, (functions = g.functions ∨ functions = g.functions ++ [indexErrorSignature]) ∧
      checkIndex options index g = (index, { g with
        functions := functions
        builder := forked (compared g.builder index (foldICmp .slt index (int32 0))).2
          g.builder.nextBlock (compared g.builder index (foldICmp .slt index (int32 0))).1
          index }) := by
  unfold checkIndex
  rw [hchecks, if_neg (by decide), hsign, if_neg (by decide)]
  unfold createICmp
  cases foldICmp .slt index (int32 0) with
  | some cond => exact report_run (k := { g with
      builder := ((compared g.builder index (some cond)).2.append
        (.condBr cond g.builder.nextBlock (g.builder.nextBlock + 1))).moveTo
          g.builder.nextBlock }) index (g.builder.nextBlock + 1) hreport
  | none => exact report_run (k := { g with
      builder := ((compared g.builder index none).2.append
        (.condBr (.reg g.builder.nextReg) g.builder.nextBlock (g.builder.nextBlock + 1))).moveTo
          g.builder.nextBlock }) index (g.builder.nextBlock + 1) hreport

/-- What is known of the builder where the branch of the check is written. -/
structure Forks (s t : Builder Instr) : Prop where
  grows : Builder.Grows s.nextBlock s t
  cur : t.cur = s.cur
  inside : s.cur < s.nextBlock
  blocks : t.nextBlock = s.nextBlock + 2
  unborn : ∀ b, s.nextBlock ≤ b → t.code b = []
  layout : s.layout <+: t.layout

theorem Forks.leaves {s t : Builder Instr} (h : Forks s t) (cond index : Operand) :
    Builder.Grows s.nextBlock t (forked t s.nextBlock cond index) ∧
      ((forked t s.nextBlock cond index).code s.cur)[t.position]? =
        some (.condBr cond s.nextBlock (s.nextBlock + 1)) ∧
      ((forked t s.nextBlock cond index).code s.nextBlock)[0]? =
        some (.call none kIndexErrorName [index]) ∧
      ∀ b, s.nextBlock < b → (forked t s.nextBlock cond index).code b = [] := by
  let branch : Instr := .condBr cond s.nextBlock (s.nextBlock + 1)
  let call : Instr := .call none kIndexErrorName [index]
  let t1 := (t.append branch).moveTo s.nextBlock
  have hfail : t1.code s.nextBlock = [] := by
    change (t.append branch).code s.nextBlock = []
    rw [t.append_code_of_ne branch (by rw [h.cur]; exact Nat.ne_of_gt h.inside)]
    exact h.unborn _ (Nat.le_refl _)
  have hone : Builder.Grows s.nextBlock (t.append branch) t1 := .moveTo _ (Nat.le_refl _)
  have htwo := Builder.Grows.append s.nextBlock t1 call
  have hthree := Builder.Grows.append s.nextBlock (t1.append call) .unreachable
  have hfour : Builder.Grows s.nextBlock ((t1.append call).append .unreachable)
      (forked t s.nextBlock cond index) := .moveTo _ (Nat.le_succ _)
  have hlast := hthree.trans hfour
  have hrest := hone.trans (htwo.trans hlast)
  refine ⟨(Builder.Grows.append _ t branch).trans hrest, ?_, ?_, ?_⟩
  · apply prefix_getElem? (hrest.code s.cur)
    rw [← h.cur]
    exact t.appended branch
  · apply prefix_getElem? (hlast.code s.nextBlock)
    have happended := t1.append_code_cur call
    change (t1.append call).code s.nextBlock = t1.code s.nextBlock ++ [call] at happended
    rw [happended, hfail]
    rfl
  · intro b hb
    have hne : b ≠ t.cur := by
      rw [h.cur]
      exact Nat.ne_of_gt (Nat.lt_trans h.inside hb)
    have hne' : b ≠ s.nextBlock := Nat.ne_of_gt hb
    change ((t1.append call).append .unreachable).code b = []
    rw [Builder.append_code_of_ne _ _ (show b ≠ (t1.append call).cur from hne'),
      Builder.append_code_of_ne _ _ (show b ≠ t1.cur from hne')]
    change (t.append branch).code b = []
    rw [Builder.append_code_of_ne _ _ hne]
    exact h.unborn b (Nat.le_of_lt hb)

theorem forks_compared {s : Builder Instr} (hinside : s.cur < s.nextBlock)
    (hunborn : ∀ b, s.nextBlock ≤ b → s.code b = []) (index : Operand) (folded : Option Operand) :
    Forks s (compared s index folded).2 := by
  have hgrows : Builder.Grows s.nextBlock s
      ((s.newBlock.attach s.nextBlock).newBlock.attach (s.nextBlock + 1)) :=
    (Builder.Grows.newBlock _ _).trans ((Builder.Grows.attach _ _ _).trans
      ((Builder.Grows.newBlock _ _).trans (Builder.Grows.attach _ _ _)))
  have hlayout : s.layout <+: s.layout ++ [s.nextBlock] ++ [s.nextBlock + 1] := by
    rw [List.append_assoc]
    exact List.prefix_append _ _
  cases folded with
  | some cond => exact ⟨hgrows, rfl, hinside, rfl, hunborn, hlayout⟩
  | none =>
      have hdefine := Builder.Grows.define s.nextBlock
        ((s.newBlock.attach s.nextBlock).newBlock.attach (s.nextBlock + 1))
        fun r => Instr.icmp r .slt index (int32 0)
      refine ⟨hgrows.trans hdefine, rfl, hinside, rfl, ?_, hlayout⟩
      intro b hb
      have hne : b ≠ s.cur := Nat.ne_of_gt (Nat.lt_of_lt_of_le hinside hb)
      change (Builder.append _ _).code b = []
      rw [Builder.append_code_of_ne _ _ (by exact hne)]
      exact hunborn b hb

theorem Forks.guarding {u : Pairing} {t : Builder Instr} (h : Forks g.builder t)
    {cond index : Operand} (functions : List Function)
    (hguards : Guards u (forked t g.builder.nextBlock cond index).code g.builder.cur
      g.builder.position index (g.builder.nextBlock + 1)) :
    Aligned.Guarding u g { g with
      functions := functions
      builder := forked t g.builder.nextBlock cond index } index := by
  obtain ⟨hleaves, -, -, hlater⟩ := h.leaves cond index
  have hgrows := h.grows.trans hleaves
  have hblocks : (forked t g.builder.nextBlock cond index).nextBlock =
      g.builder.nextBlock + 2 := h.blocks
  constructor
  · exact ⟨hgrows.code, List.Subset.refl _, hgrows.blocks⟩
  · exact hgrows.frame
  · exact Nat.le_succ _
  · change g.builder.nextBlock + 1 < (forked t g.builder.nextBlock cond index).nextBlock
    rw [hblocks]
    exact Nat.lt_succ_self _
  · exact hlater _ (Nat.lt_succ_self _)
  · intro b hb
    apply hlater
    change (forked t g.builder.nextBlock cond index).nextBlock ≤ b at hb
    rw [hblocks] at hb
    exact Nat.lt_of_succ_lt hb
  · exact hguards

/-- Where the value may be negative, the guarded side goes on in the block for a good one. -/
theorem Paired.check (h : Paired w P true g g') {value value' : Operand}
    (hsame : value.Same w value')
    (hplain : ⟨g.builder.cur, g.builder.position, value⟩ ∈ g.subscripts)
    (hguarded : ⟨g'.builder.cur, g'.builder.position, value'⟩ ∈ g'.subscripts)
    {options : IRGenOptions} (hchecks : options.indexChecks = true)
    (hsign : isNonNegative value' = false) :
    ∃ u, w ≤ u ∧ Paired u P true g (checkIndex options value' g').2 ∧
      g'.builder.layout <+: (checkIndex options value' g').2.builder.layout ∧
      (checkIndex options value' g').1 = value' := by
  obtain ⟨functions, hfunctions, hrun⟩ := checkIndex_run hchecks hsign h.functions.report
  obtain ⟨-, -, hinside⟩ := h.facing rfl
  have hforks := forks_compared hinside h.unborn' value' (foldICmp .slt value' (int32 0))
  rw [hrun]
  have hmore := h.proper.more (Nat.le_add_right g'.builder.nextBlock 2)
  cases hfold : foldICmp .slt value' (int32 0) with
  | some cond =>
      rw [hfold] at hforks
      obtain ⟨-, hbranch, hcall, hlater⟩ := hforks.leaves cond value'
      have hguarding := hforks.guarding functions (.folded (w := w) hfold hbranch hcall)
      have hguarded := h.toAligned.guard le_rfl rfl rfl hmore hguarding hsame hplain hguarded rfl
        (h.functions.reported hfunctions _)
      exact ⟨_, w.le_addPlace _ _ _ _, ⟨hguarded, h.plain,
        blockOpen_moveTo (hlater _ (Nat.lt_succ_self _))⟩, hforks.layout, rfl⟩
  | none =>
      rw [hfold] at hforks
      let negative : Operand := .reg g'.builder.nextReg
      obtain ⟨hgrows, hbranch, hcall, hlater⟩ := hforks.leaves negative value'
      let s := (g'.builder.newBlock.attach g'.builder.nextBlock).newBlock.attach
        (g'.builder.nextBlock + 1)
      let i : Instr := .icmp g'.builder.nextReg .slt value' (int32 0)
      have hplace : (compared g'.builder value' none).2.position = g'.builder.position + 1 :=
        Builder.position_append s i
      rw [hplace] at hbranch
      have hcompare : ((forked (compared g'.builder value' none).2 g'.builder.nextBlock negative
          value').code g'.builder.cur)[g'.builder.position]? = some i :=
        prefix_getElem? (hgrows.code _) (s.appended i)
      have hguarding := hforks.guarding functions
        (.compared (w := w.addGuard g'.builder.nextReg) (.inr rfl) hcompare hbranch hcall)
      have hle := w.le_addGuard g'.builder.nextReg
      have hguarded := h.toAligned.guard hle rfl rfl hmore.addGuard hguarding hsame hplain
        hguarded rfl (h.functions.reported hfunctions _)
      exact ⟨_, hle.trans (Pairing.le_addPlace _ _ _ _ _), ⟨hguarded, h.plain,
        blockOpen_moveTo (hlater _ (Nat.lt_succ_self _))⟩, hforks.layout, rfl⟩

theorem evaluates_checkIndex {options options' : IRGenOptions}
    (hplain : options.indexChecks = false) (hguarded : options'.indexChecks = true)
    {value value' : Operand} (hsame : value.Same w value') :
    Evaluates w (subscript value >>= fun _ => checkIndex options value)
      (subscript value' >>= fun _ => checkIndex options' value') Operand.Same := by
  constructor
  intro v hle P g g' hpaired
  have hskip : ∀ k, checkIndex options value k = (value, k) := by
    intro k
    unfold checkIndex
    rw [hplain, if_pos (by decide)]
    rfl
  have hkept : ∀ (k : IRGenerator) (v : Operand), Kept k (subscript v k).2 :=
    fun k v => ⟨rfl, rfl, rfl, rfl, List.subset_append_left _ _⟩
  have hmarked : Paired v P true (subscript value g).2 (subscript value' g').2 :=
    ⟨hpaired.toAligned.carry (hkept g value) (hkept g' value') hpaired.addresses
      (hpaired.functions.same rfl rfl rfl rfl rfl rfl), hpaired.plain, hpaired.guarded⟩
  change ∃ u now, Onward v u g g' (checkIndex options value (subscript value g).2).2
      (checkIndex options' value' (subscript value' g').2).2 ∧
    Paired u P now (checkIndex options value (subscript value g).2).2
      (checkIndex options' value' (subscript value' g').2).2 ∧ now = true ∧
    (checkIndex options value (subscript value g).2).1.Same u
      (checkIndex options' value' (subscript value' g').2).1
  rw [hskip]
  cases hsign : isNonNegative value' with
  | true =>
      have hskip' : ∀ k, checkIndex options' value' k = (value', k) := by
        intro k
        unfold checkIndex
        rw [hsign, if_pos rfl]
        split <;> rfl
      rw [hskip']
      exact ⟨v, true, ⟨le_rfl, List.prefix_rfl, List.prefix_rfl⟩, hmarked, rfl, hsame.mono hle⟩
  | false =>
      obtain ⟨u, hu, hchecked, hlayout, hvalue⟩ := hmarked.check (hsame.mono hle)
        (List.mem_append_right _ (List.mem_singleton_self _))
        (List.mem_append_right _ (List.mem_singleton_self _)) hguarded hsign
      rw [hvalue]
      exact ⟨u, true, ⟨hu, List.prefix_rfl, hlayout⟩, hchecked, rfl, hsame.mono (hle.trans hu)⟩

/-! Expressions. -/

/-- The options of the plain side and those of the guarded side. -/
structure Sides (options options' : IRGenOptions) : Prop where
  bits : options'.indexBits = options.indexBits
  plain : options.indexChecks = false
  guarded : options'.indexChecks = true

/-- Two actions that give the same operand. -/
abbrev Agree (w : Pairing) (action action' : IRGenM Operand) : Prop :=
  Evaluates w action action' Operand.Same

abbrev SamePlace (w : Pairing) : Option Place → Option Place → Prop :=
  Option.Rel fun place place' => place.address.Same w place'.address

section expressions

variable {options options' : IRGenOptions} (hsides : Sides options options')

include hsides

theorem indexZero_sides : indexZero options' = indexZero options := by
  unfold indexZero
  rw [hsides.bits]

theorem same_indexZero (v : Pairing) : (indexZero options).Same v (indexZero options') := by
  rw [indexZero_sides hsides]
  apply Operand.Same.other
  unfold indexZero
  split <;> rfl

theorem evaluates_arrayBase (symbol : Symbol) :
    Agree w (arrayBase options symbol) (arrayBase options' symbol) := by
  refine (evaluates_addressOf symbol).bind ?_
  intro v _ found found' hfound
  cases hfound with
  | none =>
      exact (evaluates_fallback symbol.name).bind fun _ _ _ _ _ =>
        evaluates_pure fun _ _ => .other _ rfl
  | some hsame =>
      dsimp only
      by_cases hkind : symbol.kind = .parameter
      · rw [if_pos hkind, if_pos hkind]
        exact evaluates_createLoad .ptr hsame
      · rw [if_neg hkind, if_neg hkind]
        have hzero := same_indexZero hsides v
        exact evaluates_createGEP _ hsame (.cons hzero (.cons hzero .nil))

theorem evaluates_elementAddress (head : VarHead) {index index' : Option (IRGenM Operand)}
    (hindex : Option.Rel (Agree w) index index') :
    Evaluates w (elementAddress options head index) (elementAddress options' head index')
      SamePlace := by
  unfold elementAddress
  cases head.symbol with
  | none =>
      exact (evaluates_fallback head.name).bind fun _ _ _ _ _ =>
        evaluates_pure fun _ _ => .none
  | some symbol =>
      refine (evaluates_addressOf symbol).bind ?_
      intro v hle found found' hfound
      cases hfound with
      | none =>
          exact (evaluates_fallback symbol.name).bind fun _ _ _ _ _ =>
            evaluates_pure fun _ _ => .none
      | @some address address' haddress =>
          cases hindex with
          | none => exact evaluates_pure fun _ hu => .some (haddress.mono hu)
          | @some index index' hindex =>
              refine (hindex.later hle).bind ?_
              intro v1 hv1 value value' hvalue
              have hchecked := evaluates_checkIndex hsides.plain hsides.guarded hvalue
              refine (hchecked.bind ?_).assoc
              intro v2 hv2 checked checked' hsame
              rw [hsides.bits]
              refine (evaluates_createSExtOrTrunc options.indexBits hsame).bind ?_
              intro v3 hv3 wide wide' hwide
              have haddress3 := haddress.mono (hv1.trans (hv2.trans hv3))
              by_cases hkind : symbol.kind = .parameter
              · rw [if_pos hkind, if_pos hkind]
                refine (evaluates_createLoad .ptr haddress3).bind ?_
                intro v4 hv4 base base' hbase
                refine (evaluates_createGEP .i32 hbase (.cons (hwide.mono hv4) .nil)).bind ?_
                intro v5 hv5 element element' helement
                exact evaluates_pure fun _ hu => .some (helement.mono hu)
              · rw [if_neg hkind, if_neg hkind]
                have hzero := same_indexZero hsides v3
                refine (evaluates_createGEP _ haddress3 (.cons hzero (.cons hwide .nil))).bind ?_
                intro v4 hv4 element element' helement
                exact evaluates_pure fun _ hu => .some (helement.mono hu)

theorem evaluates_emitVar (head : VarHead) {index index' : Option (IRGenM Operand)}
    (hindex : Option.Rel (Agree w) index index') :
    Agree w (emitVar options head index) (emitVar options' head index') := by
  unfold emitVar
  by_cases harray : head.info.type = .intArray
  · rw [if_pos harray, if_pos harray]
    exact (evaluates_error _ _).bind fun _ _ _ _ _ => evaluates_pure fun _ _ => .other _ rfl
  · rw [if_neg harray, if_neg harray]
    refine (evaluates_elementAddress hsides head hindex).bind ?_
    intro v hle place place' hplace
    cases hplace with
    | none => exact evaluates_pure fun _ _ => .other _ rfl
    | some haddress =>
        refine (evaluates_access _ _).bind ?_
        intro u hu _ _ _
        exact evaluates_createLoad .i32 (haddress.mono hu)

theorem evaluates_emitAssign (target : VarHead) {index index' : Option (IRGenM Operand)}
    (hindex : Option.Rel (Agree w) index index') {value value' : IRGenM Operand}
    (hvalue : Agree w value value') :
    Agree w (emitAssign options target index value) (emitAssign options' target index' value') := by
  refine (evaluates_elementAddress hsides target hindex).bind ?_
  intro v hle place place' hplace
  cases hplace with
  | none => exact hvalue.later hle
  | @some place place' haddress =>
      refine (hvalue.later hle).bind ?_
      intro v1 hv1 x x' hx
      refine (evaluates_access _ _).bind ?_
      intro v2 hv2 _ _ _
      have hstore : ∀ u, v2 ≤ u → (Instr.store x place.address).Same u
          (.store x' place'.address) := fun u hu =>
        .store (hx.mono (hv2.trans hu)) (haddress.mono (hv1.trans (hv2.trans hu)))
      refine (evaluates_emit hstore rfl).bind ?_
      intro v3 hv3 _ _ _
      exact evaluates_pure fun _ hu => hx.mono (hv2.trans (hv3.trans hu))

omit hsides in
theorem evaluates_emitBinary (op : BinaryOp) {lhs lhs' rhs rhs' : IRGenM Operand}
    (hlhs : Agree w lhs lhs') (hrhs : Agree w rhs rhs') :
    Agree w (emitBinary op lhs rhs) (emitBinary op lhs' rhs') := by
  refine hlhs.bind ?_
  intro v hle a a' ha
  refine (hrhs.later hle).bind ?_
  intro u hu b b' hb
  have harith : ∀ op, Agree u (createBinary op a b) (createBinary op a' b') :=
    fun op => evaluates_createBinary op (ha.mono hu) hb
  have hcompare : Agree u (createICmp (compareOf op) a b >>= createZExt)
      (createICmp (compareOf op) a' b' >>= createZExt) :=
    (evaluates_createICmp _ (ha.mono hu) hb).bind fun _ _ _ _ hc => evaluates_createZExt hc
  cases op with
  | add | sub | mul | div => exact harith _
  | _ => exact hcompare

omit hsides in
theorem evaluates_emitCall (callee : String) {symbol : Option Symbol}
    (hname : ∀ f, symbol = some f → f.name ≠ kIndexErrorName) {args args' : IRGenM (List Operand)}
    (hargs : Evaluates w args args' fun v => List.Forall₂ (Operand.Same v)) :
    Agree w (emitCall callee symbol args) (emitCall callee symbol args') := by
  cases symbol with
  | none =>
      exact (evaluates_fallback callee).bind fun _ _ _ _ _ =>
        evaluates_pure fun _ _ => .other _ rfl
  | some symbol =>
      refine (evaluates_functionFor (hname symbol rfl)).bind ?_
      intro v hle f f' hcallee
      refine (hargs.later hle).bind ?_
      intro u _ values values' hvalues
      exact evaluates_createCall hcallee hvalues

end expressions

/-- No function of the program has the name of the report. -/
def Others (V : List Symbol) : Prop :=
  ∀ f ∈ V, f.isFunction = true → f.name ≠ kIndexErrorName

section

variable {options options' : IRGenOptions} {V : List Symbol}

mutual

theorem evaluates_emitExpr (hsides : Sides options options') (hV : Others V) :
    ∀ {e : Expr}, e.Resolved V → Agree w (emitExpr options e) (emitExpr options' e)
  | .num _ value, _ => evaluates_pure fun _ _ => .other _ rfl
  | .var head none, _ => evaluates_emitVar hsides head .none
  | .var head (some index), ⟨_, _, hindex, _⟩ =>
      evaluates_emitVar hsides head (.some (evaluates_emitExpr hsides hV hindex))
  | .assign _ _ target none value, ⟨_, _, _, hvalue, _⟩ =>
      evaluates_emitAssign hsides target .none (evaluates_emitExpr hsides hV hvalue)
  | .assign _ _ target (some index) value, ⟨_, _, _, ⟨hindex, _⟩, hvalue, _⟩ =>
      evaluates_emitAssign hsides target (.some (evaluates_emitExpr hsides hV hindex))
        (evaluates_emitExpr hsides hV hvalue)
  | .binary _ op _ lhs rhs, ⟨_, ⟨hlhs, _⟩, hrhs, _⟩ =>
      evaluates_emitBinary op (evaluates_emitExpr hsides hV hlhs)
        (evaluates_emitExpr hsides hV hrhs)
  | .call _ callee args symbol, ⟨⟨f, hf, hsymbol, hfun, _⟩, hargs⟩ => by
      apply evaluates_emitCall callee ?_ (evaluates_emitArgs hsides hV _ hargs)
      intro f' hf'
      obtain rfl : f = f' := Option.some.inj (hsymbol.symm.trans hf')
      exact hV f hf hfun

theorem evaluates_emitArgs (hsides : Sides options options') (hV : Others V)
    (paramTypes : List CType) : ∀ {args : List Expr}, ResolvedArgs V args →
      Evaluates w (emitArgs options paramTypes args) (emitArgs options' paramTypes args) fun v =>
        List.Forall₂ (Operand.Same v)
  | [], _ => evaluates_pure fun _ _ => .nil
  | arg :: args, ⟨harg, hargs⟩ => by
      have hrest : ∀ {action action' : IRGenM Operand}, Agree w action action' →
          Evaluates w
            (action >>= fun first => do
              let others ← emitArgs options paramTypes.tail args
              return first :: others)
            (action' >>= fun first => do
              let others ← emitArgs options' paramTypes.tail args
              return first :: others)
            fun v => List.Forall₂ (Operand.Same v) := by
        intro action action' hfirst
        refine hfirst.bind ?_
        intro v hle first first' hsame
        refine ((evaluates_emitArgs hsides hV paramTypes.tail hargs).later hle).bind ?_
        intro u hu others others' hothers
        exact evaluates_pure fun _ hlater => .cons (hsame.mono (hu.trans hlater))
          (same_forall_mono hlater hothers)
      unfold emitArgs
      dsimp only
      cases arrayArgument (decide (paramTypes.head? = some .intArray)) arg with
      | some symbol => exact hrest (evaluates_arrayBase hsides symbol)
      | none => exact hrest (evaluates_emitExpr hsides hV harg)

end

end

end IRGenerator

end CMinus
