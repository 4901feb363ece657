import CMinus.IR.Same
import CMinus.IRGen.Functions

namespace CMinus

namespace IRGenerator

open SSA IR

/-! Two generators side by side: the plain one leaves subscripts unchecked, the guarded one
checks them. -/

/-- The guard of a subscript: a negative value leads to the report, any other to `ok`. -/
inductive Guards (w : Pairing) (C : Nat → List Instr) (c q : Nat) (value : Operand) (ok : Nat) :
    Prop where
  | compared {r fail : Nat} (guard : w.guard r)
      (compare : (C c)[q]? = some (.icmp r .slt value (int32 0)))
      (branch : (C c)[q + 1]? = some (.condBr (.reg r) fail ok))
      (report : (C fail)[0]? = some (.call none kIndexErrorName [value]))
  | folded {cond : Operand} {fail : Nat} (folds : foldICmp .slt value (int32 0) = some cond)
      (branch : (C c)[q]? = some (.condBr cond fail ok))
      (report : (C fail)[0]? = some (.call none kIndexErrorName [value]))

/-- What two paired places have in them. -/
inductive Linked (w : Pairing) (g g' : IRGenerator) (b p c q : Nat) : Prop where
  | same {i i' : Instr} (plain : (g.builder.code b)[p]? = some i)
      (guarded : (g'.builder.code c)[q]? = some i') (same : i.Same w i')
      (next : i.isTerminator = false → w.place b (p + 1) c (q + 1))
  | guard {value value' : Operand} {ok : Nat} (plain : ⟨b, p, value⟩ ∈ g.subscripts)
      (guarded : ⟨c, q, value'⟩ ∈ g'.subscripts) (same : value.Same w value')
      (guards : Guards w g'.builder.code c q value' ok) (later : c < ok)
      (bound : ok < g'.builder.nextBlock) (next : w.place b p ok 0)

structure Grown (g h : IRGenerator) : Prop where
  code : ∀ b, g.builder.code b <+: h.builder.code b
  subscripts : g.subscripts ⊆ h.subscripts
  blocks : g.builder.nextBlock ≤ h.builder.nextBlock

theorem Grown.refl (g : IRGenerator) : Grown g g :=
  ⟨fun _ => List.prefix_rfl, List.Subset.refl _, Nat.le_refl _⟩

theorem Grown.append (g : IRGenerator) (i : Instr) :
    Grown g { g with builder := g.builder.append i } :=
  ⟨(Builder.Grows.append 0 g.builder i).code, List.Subset.refl _, Nat.le_refl _⟩

/-- The generator did something else than writing code. -/
structure Kept (g k : IRGenerator) : Prop where
  code : k.builder.code = g.builder.code
  cur : k.builder.cur = g.builder.cur
  nextBlock : k.builder.nextBlock = g.builder.nextBlock
  nextReg : k.builder.nextReg = g.builder.nextReg
  subscripts : g.subscripts ⊆ k.subscripts

theorem Kept.both {g k : IRGenerator} (h : Kept g k) :
    k.builder.position = g.builder.position ∧ Grown g k := by
  unfold Builder.position
  rw [h.code, h.cur]
  refine ⟨rfl, ?_, h.subscripts, Nat.le_of_eq h.nextBlock.symm⟩
  intro b
  rw [h.code]

theorem Guards.mono {w u : Pairing} {C D : Nat → List Instr} {c q ok : Nat} {value : Operand}
    (h : Guards w C c q value ok) (hle : w ≤ u) (hcode : ∀ b, C b <+: D b) :
    Guards u D c q value ok := by
  cases h with
  | compared guard compare branch report =>
      exact .compared (Pairing.guard_mono hle guard) (prefix_getElem? (hcode _) compare)
        (prefix_getElem? (hcode _) branch) (prefix_getElem? (hcode _) report)
  | folded folds branch report =>
      exact .folded folds (prefix_getElem? (hcode _) branch) (prefix_getElem? (hcode _) report)

theorem Linked.mono {w u : Pairing} {g g' h h' : IRGenerator} {b p c q : Nat}
    (hlinked : Linked w g g' b p c q) (hle : w ≤ u) (hgrown : Grown g h)
    (hgrown' : Grown g' h') : Linked u h h' b p c q := by
  cases hlinked with
  | same plain guarded same next =>
      exact .same (prefix_getElem? (hgrown.code b) plain)
        (prefix_getElem? (hgrown'.code c) guarded) (same.mono hle)
        (fun hterm => Pairing.place_mono hle (next hterm))
  | guard plain guarded same guards later bound next =>
      exact .guard (hgrown.subscripts plain) (hgrown'.subscripts guarded) (same.mono hle)
        (guards.mono hle hgrown'.code) later (Nat.lt_of_lt_of_le bound hgrown'.blocks)
        (Pairing.place_mono hle next)

/-! Functions under one name. -/

structure SameFunction (w : Pairing) (f f' : Function) : Prop where
  name : f'.name = f.name
  returnType : f'.returnType = f.returnType
  entry : Option.Rel w.block f.blocks.head? f'.blocks.head?

structure SameFunctions (w : Pairing) (g g' : IRGenerator) : Prop where
  names : g'.functionNames = g.functionNames
  found : ∀ name, name ≠ kIndexErrorName → Option.Rel (SameFunction w)
    (getFunction g.functions name) (getFunction g'.functions name)
  others : ∀ p ∈ g.functionNames, p.2 ≠ kIndexErrorName
  report : ∀ f, getFunction g'.functions kIndexErrorName = some f → f = indexErrorSignature
  returns : g'.currentFunction.map Function.returnType =
    g.currentFunction.map Function.returnType

theorem rel_or {α β : Type} {R : α → β → Prop} {x z : Option α} {y t : Option β}
    (h : Option.Rel R x y) (hrest : Option.Rel R z t) : Option.Rel R (x.or z) (y.or t) := by
  cases h with
  | some h => exact .some h
  | none => exact hrest

theorem rel_map {α β γ δ : Type} {R : α → β → Prop} {S : γ → δ → Prop} {x : Option α}
    {y : Option β} (h : Option.Rel R x y) {f : α → γ} {f' : β → δ}
    (hf : ∀ a b, R a b → S (f a) (f' b)) : Option.Rel S (x.map f) (y.map f') := by
  cases h with
  | some h => exact .some (hf _ _ h)
  | none => exact .none

theorem rel_bind {α β γ δ : Type} {R : α → β → Prop} {S : γ → δ → Prop} {x : Option α}
    {y : Option β} (h : Option.Rel R x y) {f : α → Option γ} {f' : β → Option δ}
    (hf : ∀ a b, R a b → Option.Rel S (f a) (f' b)) : Option.Rel S (x.bind f) (y.bind f') := by
  cases h with
  | some h => exact hf _ _ h
  | none => exact .none

theorem rel_imp {α β : Type} {R S : α → β → Prop} (hRS : ∀ a b, R a b → S a b) {x : Option α}
    {y : Option β} (h : Option.Rel R x y) : Option.Rel S x y := by
  cases h with
  | some h => exact .some (hRS _ _ h)
  | none => exact .none

theorem SameFunction.mono {w u : Pairing} (hle : w ≤ u) {f f' : Function}
    (h : SameFunction w f f') : SameFunction u f f' :=
  ⟨h.name, h.returnType, rel_imp (fun _ _ => Pairing.block_mono hle) h.entry⟩

theorem SameFunctions.mono {w u : Pairing} (hle : w ≤ u) {g g' : IRGenerator}
    (h : SameFunctions w g g') : SameFunctions u g g' := by
  refine ⟨h.names, ?_, h.others, h.report, h.returns⟩
  intro name hname
  exact rel_imp (fun _ _ => SameFunction.mono hle) (h.found name hname)

theorem getFunction_append (functions : List Function) (f : Function) (name : String) :
    getFunction (functions ++ [f]) name =
      (getFunction functions name).or (if f.name = name then some f else none) := by
  unfold getFunction
  rw [List.find?_append]
  congr 1
  by_cases hname : f.name = name
  · rw [if_pos hname]
    exact List.find?_cons_of_pos (decide_eq_true hname)
  · rw [if_neg hname]
    exact List.find?_cons_of_neg (by simpa using hname)

/-- A function of the one side and that of the other. -/
structure Callees (f f' : Function) : Prop where
  name : f'.name = f.name
  returnType : f'.returnType = f.returnType
  other : f.name ≠ kIndexErrorName

namespace SameFunctions

variable {w : Pairing} {g g' : IRGenerator}

theorem rebuild (h : SameFunctions w g g') (s s' : Builder Instr) :
    SameFunctions w { g with builder := s } { g' with builder := s' } :=
  ⟨h.names, h.found, h.others, h.report, h.returns⟩

theorem callees (h : SameFunctions w g g') {name : String} (hother : name ≠ kIndexErrorName)
    {f : Function} (hf : f.name ≠ kIndexErrorName) :
    Callees ((getFunction g.functions name).getD f) ((getFunction g'.functions name).getD f) := by
  have hname : ∀ k, getFunction g.functions name = some k → k.name ≠ kIndexErrorName :=
    fun k hk => (getFunction_mem hk).2 ▸ hother
  have hfound := h.found name hother
  revert hname hfound
  generalize getFunction g.functions name = found
  generalize getFunction g'.functions name = found'
  intro hname hfound
  cases hfound with
  | some hsame => exact ⟨hsame.name, hsame.returnType, hname _ rfl⟩
  | none => exact ⟨rfl, rfl, hf⟩

theorem functionFor (h : SameFunctions w g g') {symbol : Symbol}
    (hname : symbol.name ≠ kIndexErrorName) :
    SameFunctions w (functionFor symbol g).2 (functionFor symbol g').2 ∧
      Callees (functionFor symbol g).1 (functionFor symbol g').1 := by
  unfold IRGenerator.functionFor
  rw [h.names]
  cases hlookup : g.functionNames.lookup symbol.id with
  | some name =>
      exact ⟨h, h.callees (h.others _ (mem_of_lookup hlookup)) hname⟩
  | none =>
      refine ⟨⟨?_, ?_, ?_, ?_, h.returns⟩, rfl, rfl, hname⟩
      · rfl
      · intro name hother
        dsimp only
        rw [getFunction_append, getFunction_append]
        apply rel_or (h.found name hother)
        split
        · exact .some ⟨rfl, rfl, .none⟩
        · exact .none
      · intro p hp
        rcases List.mem_cons.mp hp with rfl | hp
        · exact hname
        · exact h.others p hp
      · intro f hf
        dsimp only at hf
        rw [getFunction_append, if_neg (show (signatureOf symbol).name ≠ _ from hname),
          Option.or_none] at hf
        exact h.report f hf

/-- The report is a function of the guarded side alone. -/
theorem reported (h : SameFunctions w g g') {functions : List Function}
    (hfunctions : functions = g'.functions ∨ functions = g'.functions ++ [indexErrorSignature])
    (s : Builder Instr) :
    SameFunctions w g { g' with functions := functions, builder := s } := by
  rcases hfunctions with rfl | rfl
  · exact ⟨h.names, h.found, h.others, h.report, h.returns⟩
  · refine ⟨h.names, ?_, h.others, ?_, h.returns⟩
    · intro name hother
      dsimp only
      rw [getFunction_append, if_neg (show indexErrorSignature.name ≠ name from Ne.symm hother),
        Option.or_none]
      exact h.found name hother
    · intro f hf
      dsimp only at hf
      rw [getFunction_append,
        if_pos (show indexErrorSignature.name = kIndexErrorName from rfl)] at hf
      cases hget : getFunction g'.functions kIndexErrorName with
      | none =>
          rw [hget] at hf
          exact (Option.some.inj hf).symm
      | some existing =>
          rw [hget] at hf
          exact h.report f (hget.trans hf)

end SameFunctions

def SameAddress (w : Pairing) (e e' : Nat × Operand) : Prop :=
  e'.1 = e.1 ∧ e.2.Same w e'.2

theorem addresses_mono {w u : Pairing} (hle : w ≤ u) {l l' : List (Nat × Operand)}
    (h : List.Forall₂ (SameAddress w) l l') : List.Forall₂ (SameAddress u) l l' :=
  h.imp fun _ _ h => ⟨h.1, h.2.mono hle⟩

/-! `P` are the paired blocks that nothing was written to yet; `now` says that the two
insertion points are paired. -/

/-- The insertion points, where they are a pair. -/
structure Facing (w : Pairing) (g g' : IRGenerator) : Prop where
  place : w.place g.builder.cur g.builder.position g'.builder.cur g'.builder.position
  inside : g.builder.cur < g.builder.nextBlock
  inside' : g'.builder.cur < g'.builder.nextBlock

def AtEnd (g : IRGenerator) (b p : Nat) : Prop :=
  b = g.builder.cur ∧ p = g.builder.position

/-- A pair of blocks that wait for their first instruction. -/
structure Waits (w : Pairing) (now : Bool) (g g' : IRGenerator) (b c : Nat) : Prop where
  block : w.block b c
  empty : g.builder.code b = []
  empty' : g'.builder.code c = []
  elsewhere : now = true → b ≠ g.builder.cur ∧ c ≠ g'.builder.cur

structure Aligned (w : Pairing) (P : List (Nat × Nat)) (now : Bool) (g g' : IRGenerator) :
    Prop where
  proper : w.Proper g.builder.nextReg g'.builder.nextReg g.builder.nextBlock g'.builder.nextBlock
  linked : ∀ b p c q, w.place b p c q → Linked w g g' b p c q ∨
    ((b, c) ∈ P ∧ p = 0 ∧ q = 0) ∨ (now = true ∧ AtEnd g b p ∧ AtEnd g' c q)
  waits : ∀ b c, (b, c) ∈ P → Waits w now g g' b c
  distinct : P.Nodup
  starts : ∀ b c, w.block b c → w.place b 0 c 0
  facing : now = true → Facing w g g'
  unborn : ∀ b, g.builder.nextBlock ≤ b → g.builder.code b = []
  unborn' : ∀ c, g'.builder.nextBlock ≤ c → g'.builder.code c = []
  addresses : List.Forall₂ (SameAddress w) g.addresses g'.addresses
  functions : SameFunctions w g g'

namespace Aligned

variable {w : Pairing} {P : List (Nat × Nat)} {now : Bool} {g g' : IRGenerator}

theorem waits_apart (h : Aligned w P now g g') {b c b' c' : Nat} (hbc : (b, c) ∈ P)
    (hbc' : (b', c') ∈ P) (hne : (b, c) ≠ (b', c')) : b ≠ b' ∧ c ≠ c' := by
  have hblock := (h.waits b c hbc).block
  have hblock' := (h.waits b' c' hbc').block
  constructor
  · intro heq
    subst heq
    exact hne (congrArg (Prod.mk b) (h.proper.blockForth b c c' hblock hblock'))
  · intro heq
    subst heq
    exact hne (congrArg (·, c) (h.proper.blockBack b b' c hblock hblock'))

/-- A block that waits is not the one that is written to. -/
theorem waits_append (h : Aligned w P true g g') (i i' : Instr) {b c : Nat}
    (hbc : (b, c) ∈ P) :
    Waits w true { g with builder := g.builder.append i }
      { g' with builder := g'.builder.append i' } b c := by
  obtain ⟨hblock, hempty, hempty', helsewhere⟩ := h.waits b c hbc
  obtain ⟨hne, hne'⟩ := helsewhere rfl
  exact ⟨hblock, (g.builder.append_code_of_ne i hne).trans hempty,
    (g'.builder.append_code_of_ne i' hne').trans hempty', helsewhere⟩

/-- A register that both sides have from now on. -/
theorem addReg (h : Aligned w P now g g') :
    Aligned (w.addReg g.builder.nextReg g'.builder.nextReg) P now
      { g with builder := { g.builder with nextReg := g.builder.nextReg + 1 } }
      { g' with builder := { g'.builder with nextReg := g'.builder.nextReg + 1 } } := by
  have hle := w.le_addReg g.builder.nextReg g'.builder.nextReg
  constructor
  · exact h.proper.addReg
  · intro b p c q hplace
    refine (h.linked b p c q hplace).imp_left fun hlinked => ?_
    exact hlinked.mono hle ⟨fun _ => List.prefix_rfl, List.Subset.refl _, Nat.le_refl _⟩
      ⟨fun _ => List.prefix_rfl, List.Subset.refl _, Nat.le_refl _⟩
  · intro b c hbc
    obtain ⟨hblock, hempty, hempty', helsewhere⟩ := h.waits b c hbc
    exact ⟨hblock, hempty, hempty', helsewhere⟩
  · exact h.distinct
  · exact h.starts
  · intro hnow
    obtain ⟨hplace, hinside, hinside'⟩ := h.facing hnow
    exact ⟨hplace, hinside, hinside'⟩
  · exact h.unborn
  · exact h.unborn'
  · exact addresses_mono hle h.addresses
  · exact (h.functions.mono hle).rebuild _ _

/-- The same instruction on both sides, and the places after it are a pair. -/
theorem append (h : Aligned w P true g g') {i i' : Instr} (hsame : i.Same w i') :
    Aligned (w.addPlace g.builder.cur (g.builder.position + 1) g'.builder.cur
        (g'.builder.position + 1)) P true
      { g with builder := g.builder.append i } { g' with builder := g'.builder.append i' } := by
  obtain ⟨hplace, hinside, hinside'⟩ := h.facing rfl
  have hle := w.le_addPlace g.builder.cur (g.builder.position + 1) g'.builder.cur
    (g'.builder.position + 1)
  have hgrown := Grown.append g i
  have hgrown' := Grown.append g' i'
  constructor
  · exact h.proper.addPlace _ _ _ _
  · intro b p c q hnew
    rcases hnew with hold | ⟨rfl, rfl, rfl, rfl⟩
    · rcases h.linked b p c q hold with hlinked | hpending | ⟨-, ⟨rfl, rfl⟩, rfl, rfl⟩
      · exact .inl (hlinked.mono hle hgrown hgrown')
      · exact .inr (.inl hpending)
      · refine .inl (.same (Builder.appended g.builder i) (Builder.appended g'.builder i')
          (hsame.mono hle) fun _ => .inr ⟨rfl, rfl, rfl, rfl⟩)
    · exact .inr (.inr ⟨rfl, ⟨rfl, (Builder.position_append _ _).symm⟩, rfl,
        (Builder.position_append _ _).symm⟩)
  · intro b c hbc
    obtain ⟨hblock, hempty, hempty', helsewhere⟩ := h.waits_append i i' hbc
    exact ⟨hblock, hempty, hempty', helsewhere⟩
  · exact h.distinct
  · intro b c hblock
    exact .inl (h.starts b c hblock)
  · intro _
    refine ⟨.inr ⟨rfl, Builder.position_append _ _, rfl, Builder.position_append _ _⟩, hinside,
      hinside'⟩
  · exact fun b hb => Builder.unborn_append hinside h.unborn i hb
  · exact fun c hc => Builder.unborn_append hinside' h.unborn' i' hc
  · exact addresses_mono hle h.addresses
  · exact (h.functions.mono hle).rebuild _ _

/-- After a terminator the insertion points are a pair no more. -/
theorem close (h : Aligned w P true g g') {i i' : Instr} (hsame : i.Same w i')
    (hterm : i.isTerminator = true) :
    Aligned w P false { g with builder := g.builder.append i }
      { g' with builder := g'.builder.append i' } := by
  obtain ⟨hplace, hinside, hinside'⟩ := h.facing rfl
  have hgrown := Grown.append g i
  have hgrown' := Grown.append g' i'
  constructor
  · exact h.proper
  · intro b p c q hold
    rcases h.linked b p c q hold with hlinked | hpending | ⟨-, ⟨rfl, rfl⟩, rfl, rfl⟩
    · exact .inl (hlinked.mono le_rfl hgrown hgrown')
    · exact .inr (.inl hpending)
    · refine .inl (.same (Builder.appended g.builder i) (Builder.appended g'.builder i') hsame ?_)
      intro hnot
      rw [hterm] at hnot
      cases hnot
  · intro b c hbc
    obtain ⟨hblock, hempty, hempty', -⟩ := h.waits_append i i' hbc
    refine ⟨hblock, hempty, hempty', ?_⟩
    intro hnow
    cases hnow
  · exact h.distinct
  · exact h.starts
  · intro hnow
    cases hnow
  · exact fun b hb => Builder.unborn_append hinside h.unborn i hb
  · exact fun c hc => Builder.unborn_append hinside' h.unborn' i' hc
  · exact h.addresses
  · exact h.functions.rebuild _ _

/-- A block that both sides have from now on. -/
theorem newBlock (h : Aligned w P now g g') :
    Aligned (w.addBlock g.builder.nextBlock g'.builder.nextBlock)
      ((g.builder.nextBlock, g'.builder.nextBlock) :: P) now
      { g with builder := g.builder.newBlock } { g' with builder := g'.builder.newBlock } := by
  have hle := w.le_addBlock g.builder.nextBlock g'.builder.nextBlock
  have hgrown : Grown g { g with builder := g.builder.newBlock } :=
    ⟨fun _ => List.prefix_rfl, List.Subset.refl _, Nat.le_succ _⟩
  have hgrown' : Grown g' { g' with builder := g'.builder.newBlock } :=
    ⟨fun _ => List.prefix_rfl, List.Subset.refl _, Nat.le_succ _⟩
  constructor
  · exact h.proper.addBlock
  · intro b p c q hnew
    rcases hnew with hold | ⟨rfl, rfl, rfl, rfl⟩
    · rcases h.linked b p c q hold with hlinked | ⟨hmem, hp, hq⟩ | hend
      · exact .inl (hlinked.mono hle hgrown hgrown')
      · exact .inr (.inl ⟨List.mem_cons_of_mem _ hmem, hp, hq⟩)
      · exact .inr (.inr hend)
    · exact .inr (.inl ⟨List.mem_cons_self, rfl, rfl⟩)
  · intro b c hbc
    rcases List.mem_cons.mp hbc with hsame | hbc
    · cases hsame
      refine ⟨.inr ⟨rfl, rfl⟩, h.unborn _ (Nat.le_refl _), h.unborn' _ (Nat.le_refl _), ?_⟩
      intro hnow
      obtain ⟨-, hinside, hinside'⟩ := h.facing hnow
      exact ⟨Nat.ne_of_gt hinside, Nat.ne_of_gt hinside'⟩
    · obtain ⟨hblock, hempty, hempty', helsewhere⟩ := h.waits b c hbc
      exact ⟨.inl hblock, hempty, hempty', helsewhere⟩
  · refine List.nodup_cons.mpr ⟨?_, h.distinct⟩
    intro hmem
    exact Nat.lt_irrefl _ (h.proper.blocks _ _ (h.waits _ _ hmem).block).1
  · intro b c hblock
    rcases hblock with hold | ⟨rfl, rfl⟩
    · exact .inl (h.starts b c hold)
    · exact .inr ⟨rfl, rfl, rfl, rfl⟩
  · intro hnow
    obtain ⟨hplace, hinside, hinside'⟩ := h.facing hnow
    exact ⟨.inl hplace, Nat.lt_succ_of_lt hinside, Nat.lt_succ_of_lt hinside'⟩
  · intro b hb
    exact h.unborn b (Nat.le_of_succ_le hb)
  · intro c hc
    exact h.unborn' c (Nat.le_of_succ_le hc)
  · exact addresses_mono hle h.addresses
  · exact (h.functions.mono hle).rebuild _ _

/-- Only the code, the insertion point and the numbers of the builder matter. -/
theorem carry (h : Aligned w P now g g') {k k' : IRGenerator} (hk : Kept g k) (hk' : Kept g' k')
    (haddresses : List.Forall₂ (SameAddress w) k.addresses k'.addresses)
    (hfunctions : SameFunctions w k k') : Aligned w P now k k' := by
  obtain ⟨hposition, hgrown⟩ := hk.both
  obtain ⟨hposition', hgrown'⟩ := hk'.both
  constructor
  · rw [hk.nextReg, hk'.nextReg, hk.nextBlock, hk'.nextBlock]
    exact h.proper
  · intro b p c q hplace
    rcases h.linked b p c q hplace with hlinked | hpending | ⟨hnow, ⟨hb, hp⟩, hc, hq⟩
    · exact .inl (hlinked.mono le_rfl hgrown hgrown')
    · exact .inr (.inl hpending)
    · exact .inr (.inr ⟨hnow, ⟨hb.trans hk.cur.symm, hp.trans hposition.symm⟩,
        hc.trans hk'.cur.symm, hq.trans hposition'.symm⟩)
  · intro b c hbc
    obtain ⟨hblock, hempty, hempty', helsewhere⟩ := h.waits b c hbc
    refine ⟨hblock, ?_, ?_, ?_⟩
    · rw [hk.code]
      exact hempty
    · rw [hk'.code]
      exact hempty'
    · rw [hk.cur, hk'.cur]
      exact helsewhere
  · exact h.distinct
  · exact h.starts
  · intro hnow
    obtain ⟨hplace, hinside, hinside'⟩ := h.facing hnow
    constructor
    · rw [hk.cur, hk'.cur, hposition, hposition']
      exact hplace
    · rw [hk.cur, hk.nextBlock]
      exact hinside
    · rw [hk'.cur, hk'.nextBlock]
      exact hinside'
  · rw [hk.code, hk.nextBlock]
    exact h.unborn
  · rw [hk'.code, hk'.nextBlock]
    exact h.unborn'
  · exact haddresses
  · exact hfunctions

theorem attach (h : Aligned w P now g g') (b c : Nat) :
    Aligned w P now { g with builder := g.builder.attach b }
      { g' with builder := g'.builder.attach c } :=
  h.carry ⟨rfl, rfl, rfl, rfl, List.Subset.refl _⟩ ⟨rfl, rfl, rfl, rfl, List.Subset.refl _⟩
    h.addresses (h.functions.rebuild _ _)

/-- The insertion points go to two blocks that wait. -/
theorem moveTo {b c : Nat} (h : Aligned w ((b, c) :: P) false g g') :
    Aligned w P true { g with builder := g.builder.moveTo b }
      { g' with builder := g'.builder.moveTo c } := by
  obtain ⟨hblock, hempty, hempty', -⟩ := h.waits b c List.mem_cons_self
  obtain ⟨hlt, hlt'⟩ := h.proper.blocks b c hblock
  have hposition : (g.builder.moveTo b).position = 0 := Builder.position_moveTo hempty
  have hposition' : (g'.builder.moveTo c).position = 0 := Builder.position_moveTo hempty'
  obtain ⟨hnot, hdistinct⟩ := List.nodup_cons.mp h.distinct
  constructor
  · exact h.proper
  · intro b' p c' q hplace
    rcases h.linked b' p c' q hplace with hlinked | ⟨hmem, rfl, rfl⟩ | ⟨hnow, -⟩
    · exact .inl (hlinked.mono le_rfl
        ⟨fun _ => List.prefix_rfl, List.Subset.refl _, Nat.le_refl _⟩
        ⟨fun _ => List.prefix_rfl, List.Subset.refl _, Nat.le_refl _⟩)
    · rcases List.mem_cons.mp hmem with hsame | hmem
      · cases hsame
        exact .inr (.inr ⟨rfl, ⟨rfl, hposition.symm⟩, rfl, hposition'.symm⟩)
      · exact .inr (.inl ⟨hmem, rfl, rfl⟩)
    · cases hnow
  · intro b' c' hbc
    obtain ⟨hblock', hempty, hempty', -⟩ := h.waits b' c' (List.mem_cons_of_mem _ hbc)
    refine ⟨hblock', hempty, hempty', fun _ => ?_⟩
    apply h.waits_apart (List.mem_cons_of_mem _ hbc) List.mem_cons_self
    intro heq
    exact hnot (heq ▸ hbc)
  · exact hdistinct
  · exact h.starts
  · intro _
    refine ⟨?_, hlt, hlt'⟩
    change w.place b (g.builder.moveTo b).position c (g'.builder.moveTo c).position
    rw [hposition, hposition']
    exact h.starts b c hblock
  · exact h.unborn
  · exact h.unborn'
  · exact h.addresses
  · exact h.functions.rebuild _ _

/-- In which order the blocks wait does not matter. -/
theorem perm (h : Aligned w P now g g') {Q : List (Nat × Nat)} (hperm : P.Perm Q) :
    Aligned w Q now g g' := by
  constructor
  · exact h.proper
  · intro b p c q hplace
    refine (h.linked b p c q hplace).imp_right fun hrest => ?_
    exact hrest.imp_left fun hpending => ⟨hperm.mem_iff.mp hpending.1, hpending.2⟩
  · intro b c hbc
    exact h.waits b c (hperm.mem_iff.mpr hbc)
  · exact hperm.nodup_iff.mp h.distinct
  · exact h.starts
  · exact h.facing
  · exact h.unborn
  · exact h.unborn'
  · exact h.addresses
  · exact h.functions

/-! A guard is written on the guarded side alone. -/

/-- What the guard of `value` makes of the generator. -/
structure Guarding (w : Pairing) (g h : IRGenerator) (value : Operand) : Prop where
  grown : Grown g h
  frame : ∀ c, c < g.builder.nextBlock → c ≠ g.builder.cur → h.builder.code c = g.builder.code c
  fresh : g.builder.nextBlock ≤ h.builder.cur
  born : h.builder.cur < h.builder.nextBlock
  empty : h.builder.code h.builder.cur = []
  unborn : ∀ c, h.builder.nextBlock ≤ c → h.builder.code c = []
  guards : Guards w h.builder.code g.builder.cur g.builder.position value h.builder.cur

theorem guard (h : Aligned w P true g g') {u : Pairing} (hle : w ≤ u)
    (hplaces : u.place = w.place) (hblocks : u.block = w.block) {k' : IRGenerator}
    (hproper : u.Proper g.builder.nextReg k'.builder.nextReg g.builder.nextBlock
      k'.builder.nextBlock) {value value' : Operand} (hguarding : Guarding u g' k' value')
    (hsame : value.Same w value')
    (hplain : ⟨g.builder.cur, g.builder.position, value⟩ ∈ g.subscripts)
    (hguarded : ⟨g'.builder.cur, g'.builder.position, value'⟩ ∈ g'.subscripts)
    (haddresses : k'.addresses = g'.addresses) (hfunctions : SameFunctions w g k') :
    Aligned (u.addPlace g.builder.cur g.builder.position k'.builder.cur 0) P true g k' := by
  obtain ⟨hplace, hinside, hinside'⟩ := h.facing rfl
  obtain ⟨hgrown, hframe, hfresh, hborn, hempty, hunborn, hguards⟩ := hguarding
  have hadded := u.le_addPlace g.builder.cur g.builder.position k'.builder.cur 0
  have hlater := hle.trans hadded
  have hposition : k'.builder.position = 0 := by
    unfold Builder.position
    rw [hempty]
    rfl
  constructor
  · exact hproper.addPlace _ _ _ _
  · intro b p c q hnew
    rcases hnew with hold | ⟨rfl, rfl, rfl, rfl⟩
    · rw [hplaces] at hold
      rcases h.linked b p c q hold with hlinked | hpending | ⟨-, ⟨rfl, rfl⟩, rfl, rfl⟩
      · exact .inl (hlinked.mono hlater (Grown.refl g) hgrown)
      · exact .inr (.inl hpending)
      · exact .inl (.guard hplain (hgrown.subscripts hguarded) (hsame.mono hlater)
          (hguards.mono hadded fun _ => List.prefix_rfl) (Nat.lt_of_lt_of_le hinside' hfresh)
          hborn (.inr ⟨rfl, rfl, rfl, rfl⟩))
    · exact .inr (.inr ⟨rfl, ⟨rfl, rfl⟩, rfl, hposition.symm⟩)
  · intro b c hbc
    obtain ⟨hblock, hnone, hnone', helsewhere⟩ := h.waits b c hbc
    obtain ⟨hne, hne'⟩ := helsewhere rfl
    have hlt := (h.proper.blocks b c hblock).2
    refine ⟨?_, hnone, (hframe c hlt hne').trans hnone', ?_⟩
    · exact Pairing.block_mono hlater hblock
    · intro _
      exact ⟨hne, Nat.ne_of_lt (Nat.lt_of_lt_of_le hlt hfresh)⟩
  · exact h.distinct
  · intro b c hblock
    refine .inl ?_
    rw [hplaces]
    apply h.starts
    rwa [← hblocks]
  · intro _
    refine ⟨.inr ⟨rfl, rfl, rfl, hposition⟩, hinside, hborn⟩
  · exact h.unborn
  · exact hunborn
  · rw [haddresses]
    exact addresses_mono hlater h.addresses
  · exact hfunctions.mono hlater

end Aligned

end IRGenerator

end CMinus
