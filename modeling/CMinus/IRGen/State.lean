import CMinus.IRGen.Facts

namespace CMinus

namespace IRGenerator

open SSA IR

/-! What is fixed while a function is emitted: the function symbols of the program, its
globals, the symbols in scope, and the function with the number of its first block. -/

structure Scene where
  options : IRGenOptions
  functions : List Symbol
  globals : List String
  visible : List Symbol
  function : Function
  entry : Nat

namespace Scene

def signatures (c : Scene) : Signatures :=
  { functions := c.functions.map signatureOf ++ [indexErrorSignature]
    globals := c.globals
    bits := c.options.indexBits }

def discipline (c : Scene) : Discipline Instr Fact := typing c.signatures c.function

def HasTy (c : Scene) (A : Set Fact) (v : Operand) (ty : Ty) : Prop :=
  v.HasTy c.signatures c.function A ty

structure Proper (c : Scene) : Prop where
  ids : (c.functions.map Symbol.id).Nodup
  names : (c.functions.map Symbol.name).Nodup
  reserved : kIndexErrorName ∉ c.functions.map Symbol.name
  visible : ∀ symbol ∈ c.visible, symbol.isFunction = true → symbol ∈ c.functions
  returns : ∀ symbol ∈ c.functions, symbol.returnType ≠ .intArray
  params : ∀ symbol ∈ c.functions, .void ∉ symbol.paramTypes

end Scene

/-! The functions the module has so far, and what its code calls. -/

structure Declared (T : List Symbol) (g : IRGenerator) : Prop where
  names : (g.functions.map Function.name).Nodup
  keys : ∀ p ∈ g.functionNames, ∃ symbol ∈ T, p = (symbol.id, symbol.name)
  listed : ∀ p ∈ g.functionNames, ∃ h ∈ g.functions, h.name = p.2
  signed : ∀ h ∈ g.functions, { h with blocks := [] } = indexErrorSignature ∨
    ∃ symbol ∈ T, { h with blocks := [] } = signatureOf symbol ∧
      (symbol.id, symbol.name) ∈ g.functionNames
  calls : ∀ b r callee args, .call r callee args ∈ g.builder.code b →
    ∃ h ∈ g.functions, h.name = callee

/-! The address that an instruction reads or writes. -/

def accessed : Instr → Option Operand
  | .load _ _ address | .store _ address => some address
  | _ => none

/-- Every access is to the storage of a symbol, or recorded. -/
def Recorded (g : IRGenerator) : Prop :=
  ∀ b k i address, (g.builder.code b)[k]? = some i → accessed i = some address →
    (∃ id, (id, address) ∈ g.addresses) ∨
      ∃ σ ∈ g.accesses, σ.block = b ∧ σ.position = k

def Addressed (c : Scene) (A : Set Fact) (g : IRGenerator) : Prop :=
  ∀ symbol ∈ c.visible, symbol.isFunction = false →
    ∃ address, g.addresses.lookup symbol.id = some address ∧ c.HasTy A address .ptr

/-! Between two instructions of an open block. -/

structure Working (c : Scene) (K : Nat → Set Fact) (P : Set Nat) (g : IRGenerator) :
    Prop where
  sound : g.builder.Sound c.discipline c.entry K P
  declared : Declared c.functions g
  recorded : Recorded g
  laid : ∀ b, c.entry ≤ b → b < g.builder.nextBlock → b ∈ P ∨ b ∈ g.builder.layout
  listed : ∀ b ∈ g.builder.layout, c.entry ≤ b ∧ b < g.builder.nextBlock
  distinct : g.builder.layout.Nodup
  first : g.builder.layout.head? = some c.entry
  fallbacks : g.fallbacks = []
  current : g.currentFunction.map Function.returnType = some c.function.returnType

structure Ready (c : Scene) (K : Nat → Set Fact) (P : Set Nat) (A : Set Fact)
    (g : IRGenerator) : Prop extends Working c K P g where
  at_ : g.builder.At c.discipline c.entry K A
  addressed : Addressed c A g

/-! The instruction at a subscript's place tests its value, and leads to the runtime's
report where it is negative. -/

def KnownSign (v : Operand) : Prop := ∃ w, v = .i32 w ∧ w.slt 0 = false

def Tested (C : Nat → List Instr) (σ : Subscript) : Prop :=
  ∃ p cond fail ok,
    ((∃ r, cond = .reg r ∧ p = σ.position + 1 ∧
        (C σ.block)[σ.position]? = some (.icmp r .slt σ.value (.i32 0))) ∨
      (foldICmp .slt σ.value (.i32 0) = some cond ∧ p = σ.position)) ∧
    (C σ.block)[p]? = some (.condBr cond fail ok) ∧
    (C fail)[0]? = some (.call none kIndexErrorName [σ.value]) ∧
    (C fail)[1]? = some .unreachable

def Guarded (C : Nat → List Instr) (σ : Subscript) : Prop :=
  KnownSign σ.value ∨ Tested C σ

/-! Where the address came from a subscript, its sign is known. -/

structure SafeAccess (checks : Bool) (K : Nat → Set Fact) (C : Nat → List Instr)
    (σ : Subscript) : Prop where
  access : ∃ i, (C σ.block)[σ.position]? = some i ∧ (accessed i).isSome = true
  sign : checks = true →
    KnownSign σ.value ∨ .nonneg σ.value ∈ signs.factsAt K C σ.block σ.position

theorem prefix_getElem? {I : Type} {first second : List I} (h : first <+: second) {k : Nat}
    {i : I} (hi : first[k]? = some i) : second[k]? = some i := by
  obtain ⟨tail, rfl⟩ := h
  rw [List.getElem?_append_left (List.getElem?_eq_some_iff.mp hi).1]
  exact hi

theorem Guarded.mono {C C' : Nat → List Instr} {σ : Subscript} (h : Guarded C σ)
    (hcode : ∀ b, C b <+: C' b) : Guarded C' σ := by
  rcases h with hsign | ⟨p, cond, fail, ok, htest, hbranch, hcall, hend⟩
  · exact .inl hsign
  · refine .inr ⟨p, cond, fail, ok, ?_, prefix_getElem? (hcode _) hbranch,
      prefix_getElem? (hcode _) hcall, prefix_getElem? (hcode _) hend⟩
    exact htest.imp_left fun ⟨r, hr, hp, hcompare⟩ =>
      ⟨r, hr, hp, prefix_getElem? (hcode _) hcompare⟩

theorem SafeAccess.mono {checks : Bool} {K K' : Nat → Set Fact} {C C' : Nat → List Instr}
    {σ : Subscript} (h : SafeAccess checks K C σ) (hcode : ∀ b, C b <+: C' b)
    (hagrees : K' σ.block = K σ.block) : SafeAccess checks K' C' σ := by
  obtain ⟨⟨i, hi, haccess⟩, hsign⟩ := h
  refine ⟨⟨i, prefix_getElem? (hcode _) hi, haccess⟩, fun hchecks => ?_⟩
  refine (hsign hchecks).imp_right fun hfact => ?_
  have hle := (List.getElem?_eq_some_iff.mp hi).1
  obtain ⟨tail, htail⟩ := hcode σ.block
  unfold Discipline.factsAt at hfact ⊢
  rwa [hagrees, ← htail, List.take_append_of_le_length (Nat.le_of_lt hle)]

/-! What a piece of emission does to the generator, if it writes to the current block
and to blocks from `base` on. -/

structure Next (c : Scene) (base : Nat) (K : Nat → Set Fact) (g : IRGenerator)
    (K' : Nat → Set Fact) (g' : IRGenerator) : Prop where
  grows : Builder.Grows base g.builder g'.builder
  agrees : ∀ b, b < g.builder.nextBlock → K' b = K b
  layout : ∃ new, g'.builder.layout = g.builder.layout ++ new ∧
    ∀ b ∈ new, base ≤ b
  addresses : g'.addresses = g.addresses
  globals : g'.globals = g.globals
  functions : ∃ new, g'.functions = g.functions ++ new ∧ ∀ f ∈ new, f.blocks = []
  subscripts : ∃ new, g'.subscripts = g.subscripts ++ new ∧
    (c.options.indexChecks = true → ∀ σ ∈ new, Guarded g'.builder.code σ)
  accesses : ∃ new, g'.accesses = g.accesses ++ new ∧
    ∀ σ ∈ new, σ.block < g'.builder.nextBlock ∧
      SafeAccess c.options.indexChecks K' g'.builder.code σ

namespace Next

variable {c : Scene} {base base' : Nat} {K K' K'' : Nat → Set Fact}
  {g g' g'' : IRGenerator}

theorem refl (c : Scene) (base : Nat) (K : Nat → Set Fact) (g : IRGenerator) :
    Next c base K g K g :=
  ⟨Builder.Grows.refl _ _, fun _ _ => rfl, ⟨[], by simp, by simp⟩, rfl, rfl,
    ⟨[], by simp, by simp⟩, ⟨[], by simp, by simp⟩, ⟨[], by simp, by simp⟩⟩

theorem mono (h : Next c base' K g K' g') (hbase : base ≤ base') :
    Next c base K g K' g' :=
  { h with
    grows := h.grows.mono hbase
    layout := by
      obtain ⟨new, hnew, hle⟩ := h.layout
      exact ⟨new, hnew, fun b hb => hbase.trans (hle b hb)⟩ }

theorem trans (h : Next c base K g K' g') (h' : Next c base K' g' K'' g'') :
    Next c base K g K'' g'' := by
  refine ⟨h.grows.trans h'.grows, ?_, ?_, h'.addresses.trans h.addresses,
    h'.globals.trans h.globals, ?_, ?_, ?_⟩
  · intro b hb
    rw [h'.agrees b (hb.trans_le h.grows.blocks), h.agrees b hb]
  · obtain ⟨new, hnew, hle⟩ := h.layout
    obtain ⟨new', hnew', hle'⟩ := h'.layout
    refine ⟨new ++ new', by rw [hnew', hnew, List.append_assoc], ?_⟩
    intro b hb
    exact (List.mem_append.mp hb).elim (hle b) (hle' b)
  · obtain ⟨new, hnew, hblocks⟩ := h.functions
    obtain ⟨new', hnew', hblocks'⟩ := h'.functions
    refine ⟨new ++ new', by rw [hnew', hnew, List.append_assoc], ?_⟩
    intro f hf
    exact (List.mem_append.mp hf).elim (hblocks f) (hblocks' f)
  · obtain ⟨new, hnew, hguarded⟩ := h.subscripts
    obtain ⟨new', hnew', hguarded'⟩ := h'.subscripts
    refine ⟨new ++ new', by rw [hnew', hnew, List.append_assoc], ?_⟩
    intro hchecks σ hσ
    rcases List.mem_append.mp hσ with hσ | hσ
    · exact (hguarded hchecks σ hσ).mono h'.grows.code
    · exact hguarded' hchecks σ hσ
  · obtain ⟨new, hnew, hsafe⟩ := h.accesses
    obtain ⟨new', hnew', hsafe'⟩ := h'.accesses
    refine ⟨new ++ new', by rw [hnew', hnew, List.append_assoc], ?_⟩
    intro σ hσ
    rcases List.mem_append.mp hσ with hσ | hσ
    · obtain ⟨hlt, haccess⟩ := hsafe σ hσ
      exact ⟨hlt.trans_le h'.grows.blocks, haccess.mono h'.grows.code (h'.agrees _ hlt)⟩
    · exact hsafe' σ hσ

theorem functions_prefix (h : Next c base K g K' g') : g.functions <+: g'.functions := by
  obtain ⟨new, hnew, -⟩ := h.functions
  exact ⟨new, hnew.symm⟩

theorem followed (h : Next c base K g K' g')
    (h' : Next c g'.builder.nextBlock K' g' K'' g'') (hbase : base ≤ g'.builder.nextBlock) :
    Next c base K g K'' g'' :=
  h.trans (h'.mono hbase)

end Next

/-! `Emits`: run on a ready generator, the action leaves it ready, reports nothing, and
its result satisfies `R`. -/

def Emits {α : Type} (c : Scene) (P : Set Nat) (action : IRGenM α) (K : Nat → Set Fact)
    (A : Set Fact) (g : IRGenerator) (R : α → Set Fact → Prop) : Prop :=
  ∃ K' A', Next c g.builder.nextBlock K g K' (action g).2 ∧ Ready c K' P A' (action g).2 ∧ A ⊆ A' ∧
    (action g).2.diags = g.diags ∧ R (action g).1 A'

section rules

variable {α β : Type} {c : Scene} {P : Set Nat} {K : Nat → Set Fact} {A : Set Fact}
  {g : IRGenerator} {R : α → Set Fact → Prop} {S : β → Set Fact → Prop}

theorem emits_pure {a : α} (h : Ready c K P A g) (hR : R a A) :
    Emits c P (pure a) K A g R :=
  ⟨K, A, .refl c _ K g, h, subset_rfl, rfl, hR⟩

theorem Emits.bind {action : IRGenM α} {next : α → IRGenM β}
    (h : Emits c P action K A g R)
    (hnext : ∀ a K' A' g', Ready c K' P A' g' → A ⊆ A' → g'.addresses = g.addresses →
      R a A' → Emits c P (next a) K' A' g' S) :
    Emits c P (action >>= next) K A g S := by
  obtain ⟨K', A', hfirst, hready, hmore, hdiags, hR⟩ := h
  obtain ⟨K'', A'', hsecond, hready', hmore', hdiags', hS⟩ :=
    hnext _ K' A' _ hready hmore hfirst.addresses hR
  exact ⟨K'', A'', hfirst.followed hsecond hfirst.grows.blocks, hready', hmore.trans hmore',
    hdiags'.trans hdiags, hS⟩

theorem Emits.assoc {γ : Type} {first : IRGenM α} {second : α → IRGenM β}
    {next : β → IRGenM γ} {T : γ → Set Fact → Prop}
    (h : Emits c P ((first >>= second) >>= next) K A g T) :
    Emits c P (first >>= fun a => second a >>= next) K A g T := h

/-- One action is known to the end, and the rest follows it. -/
theorem Emits.of_run {first : IRGenM α} {next : α → IRGenM β} {K' : Nat → Set Fact}
    {A' : Set Fact} (hfirst : Next c g.builder.nextBlock K g K' (first g).2) (hmore : A ⊆ A')
    (hdiags : (first g).2.diags = g.diags)
    (h : Emits c P (next (first g).1) K' A' (first g).2 S) :
    Emits c P (first >>= next) K A g S := by
  obtain ⟨K'', A'', hsecond, hready, hmore', hdiags', hS⟩ := h
  exact ⟨K'', A'', hfirst.followed hsecond hfirst.grows.blocks, hready, hmore.trans hmore',
    hdiags'.trans hdiags, hS⟩

theorem Emits.mono {R' : α → Set Fact → Prop} {action : IRGenM α}
    (h : Emits c P action K A g R) (hR : ∀ a A', A ⊆ A' → R a A' → R' a A') :
    Emits c P action K A g R' := by
  obtain ⟨K', A', hnext, hready, hmore, hdiags, hres⟩ := h
  exact ⟨K', A', hnext, hready, hmore, hdiags, hR _ _ hmore hres⟩

end rules

/-! One instruction. -/

section instruction

variable {c : Scene} {P : Set Nat} {K : Nat → Set Fact} {A : Set Fact} {g : IRGenerator}

theorem successors_of_not_terminator {i : Instr} (h : i.isTerminator = false) :
    i.successors = [] := by
  cases i <;> first | rfl | cases h

theorem below_of_hasTy (h : Ready c K P A g) {v : Operand} {ty : Ty} (hv : c.HasTy A v ty) :
    v.Below g.builder.nextReg := by
  intro r hr
  exact (h.at_.grounded _ (typed_of_hasTy hv hr)).1

theorem uses_below (h : Ready c K P A g) {i : Instr}
    (hi : i.WellTyped c.signatures c.function A) {r : Nat}
    (hr : r ∈ ControlFlow.uses i) : r < g.builder.nextReg := by
  obtain ⟨ty, hty⟩ := Instr.WellTyped.typed hi hr
  exact (h.at_.grounded _ hty).1

theorem fresh_next (h : Ready c K P A g) {i : Instr}
    (hi : i.WellTyped c.signatures c.function A)
    (hdef : i.defines = none ∨ i.defines = some g.builder.nextReg) : Fresh i A := by
  intro r hr
  rcases hdef with hnone | hsome
  · rw [hnone] at hr
    cases hr
  · obtain rfl : g.builder.nextReg = r := by
      rw [hsome] at hr
      exact Option.some.inj hr
    have hlt : ∀ {q : Nat}, q < g.builder.nextReg → q ≠ g.builder.nextReg :=
      fun hq => Nat.ne_of_lt hq
    refine ⟨fun huse => hlt (uses_below h hi huse) rfl, ?_, ?_, ?_⟩
    · intro v hv
      exact hlt (h.at_.grounded _ hv).1 rfl
    · intro q v hv hmem
      exact hlt ((h.at_.grounded _ hv).2 _ hmem) rfl
    · intro v hv hmem
      exact hlt (h.at_.grounded _ hv _ hmem) rfl

theorem gives_grounded (h : Ready c K P A g) {i : Instr}
    (hi : i.WellTyped c.signatures c.function A) {s : Builder Instr} {b : Nat}
    (hcode : ∀ b, g.builder.code b <+: s.code b) (hregs : g.builder.nextReg ≤ s.nextReg)
    (hdef : ∀ r, i.defines = some r → r < s.nextReg) (hmem : i ∈ s.code b)
    (hb : c.entry ≤ b) :
    ∀ fact ∈ gives i A, s.Grounds c.entry fact := by
  intro fact hfact
  rcases hfact with hA | ⟨r, ty, hr, hty, rfl⟩ | ⟨r, v, rfl, rfl⟩
  · exact Grounded.mono (Builder.codeFrom_grows hcode c.entry) hregs (h.at_.grounded fact hA)
  · refine ⟨hdef r hr, b, i, ?_, hr, hty⟩
    rwa [Builder.codeFrom, if_pos hb]
  · refine ⟨hdef r rfl, fun q hq => ?_⟩
    have huse : q ∈ ControlFlow.uses (Instr.icmp r .slt v (.i32 0)) :=
      List.mem_flatMap.mpr ⟨v, by simp [Instr.operands], hq⟩
    exact (uses_below h hi huse).trans_le hregs

theorem code_append_cases {s : Builder Instr} {i j : Instr} {b k : Nat}
    (hj : ((s.append i).code b)[k]? = some j) :
    (s.code b)[k]? = some j ∨ (b = s.cur ∧ k = s.position ∧ j = i) := by
  rw [Builder.Valid.code_append_eq] at hj
  split at hj
  · next hb =>
      subst hb
      by_cases hk : k < (s.code s.cur).length
      · rw [List.getElem?_append_left hk] at hj
        exact .inl hj
      · rw [List.getElem?_append_right (Nat.le_of_not_lt hk)] at hj
        have hzero : k - (s.code s.cur).length = 0 := by
          by_contra hne
          rw [List.getElem?_eq_none (by simp; omega)] at hj
          cases hj
        rw [hzero] at hj
        refine .inr ⟨rfl, ?_, (Option.some.inj hj).symm⟩
        unfold Builder.position
        omega
  · exact .inl hj

/-- A call goes to a function of the module, an access is recorded. -/
structure Allowed (g : IRGenerator) (i : Instr) : Prop where
  calls : ∀ r callee args, i = .call r callee args → ∃ h ∈ g.functions, h.name = callee
  accesses : ∀ address, accessed i = some address →
    (∃ id, (id, address) ∈ g.addresses) ∨
      ∃ σ ∈ g.accesses, σ.block = g.builder.cur ∧ σ.position = g.builder.position

theorem Declared.append (h : Declared c.functions g) {i : Instr} {s : Builder Instr}
    (hs : s.code = (g.builder.append i).code) (hallowed : Allowed g i) :
    Declared c.functions { g with builder := s } := by
  refine ⟨h.names, h.keys, h.listed, h.signed, ?_⟩
  intro b r callee args hmem
  dsimp only at hmem
  rw [hs, Builder.Valid.code_append_eq] at hmem
  split at hmem
  · rcases List.mem_append.mp hmem with hmem | hmem
    · exact h.calls b r callee args hmem
    · exact hallowed.calls r callee args (List.mem_singleton.mp hmem).symm
  · exact h.calls b r callee args hmem

theorem Recorded.append (h : Recorded g) {i : Instr} {s : Builder Instr}
    (hs : s.code = (g.builder.append i).code) (hallowed : Allowed g i) :
    Recorded { g with builder := s } := by
  intro b k j address hj haddress
  dsimp only at hj
  rw [hs] at hj
  rcases code_append_cases hj with hold | ⟨rfl, rfl, rfl⟩
  · exact h b k j address hold haddress
  · exact hallowed.accesses address haddress

theorem Next.of_builder {base : Nat} {s : Builder Instr}
    (hgrows : Builder.Grows base g.builder s) (hlayout : s.layout = g.builder.layout) :
    Next c base K g K { g with builder := s } :=
  ⟨hgrows, fun _ _ => rfl, ⟨[], by simp [hlayout], by simp⟩, rfl, rfl,
    ⟨[], by simp, by simp⟩,
    ⟨[], by simp, by simp⟩, ⟨[], by simp, by simp⟩⟩

theorem Addressed.mono {B : Set Fact} {g' : IRGenerator} (h : Addressed c A g)
    (hAB : A ⊆ B) (haddresses : g'.addresses = g.addresses) : Addressed c B g' := by
  intro symbol hvisible hfun
  obtain ⟨address, hlookup, hty⟩ := h symbol hvisible hfun
  exact ⟨address, by rw [haddresses, hlookup], hty.mono hAB⟩

/-- An instruction that defines the next register. -/
theorem Ready.define (h : Ready c K P A g) {i : Nat → Instr}
    (hterm : (i g.builder.nextReg).isTerminator = false)
    (hdef : (i g.builder.nextReg).defines = some g.builder.nextReg)
    (hi : (i g.builder.nextReg).WellTyped c.signatures c.function A)
    (hallowed : Allowed g (i g.builder.nextReg)) :
    Ready c K P (gives (i g.builder.nextReg) A) { g with builder := g.builder.define i } := by
  have hgrows := Builder.Grows.define g.builder.nextBlock g.builder i
  have hground := gives_grounded h hi (s := g.builder.define i) (b := g.builder.cur)
    hgrows.code hgrows.regs
    (fun r hr => by
      rw [hdef] at hr
      cases hr
      exact Nat.lt_succ_self _)
    (by simp) h.at_.inside
  obtain ⟨hsound, hat⟩ := h.sound.define h.at_ hterm (successors_of_not_terminator hterm)
    hdef ⟨hi, fresh_next h hi (.inr hdef)⟩ hground
  exact ⟨⟨hsound, h.declared.append rfl hallowed, h.recorded.append rfl hallowed, h.laid,
    h.listed, h.distinct, h.first, h.fallbacks, h.current⟩, hat,
    h.addressed.mono (subset_gives _ A) rfl⟩

theorem Next.define (c : Scene) (base : Nat) (K : Nat → Set Fact) (g : IRGenerator)
    (i : Nat → Instr) : Next c base K g K { g with builder := g.builder.define i } :=
  .of_builder (Builder.Grows.define base g.builder i) rfl

theorem emits_define (h : Ready c K P A g) {i : Nat → Instr} {ty : Ty}
    (hterm : (i g.builder.nextReg).isTerminator = false)
    (hdef : (i g.builder.nextReg).defines = some g.builder.nextReg)
    (hty : (i g.builder.nextReg).resultTy = some ty)
    (hi : (i g.builder.nextReg).WellTyped c.signatures c.function A)
    (hallowed : Allowed g (i g.builder.nextReg)) :
    Emits c P (define i) K A g fun v A' => c.HasTy A' v ty :=
  ⟨K, _, .define c _ K g i, h.define hterm hdef hi hallowed, subset_gives _ A, rfl,
    .inr (.inl ⟨_, ty, hdef, hty, rfl⟩)⟩

/-- An instruction that neither branches nor defines a register. -/
theorem Ready.emit (h : Ready c K P A g) {i : Instr} (hterm : i.isTerminator = false)
    (hdef : i.defines = none) (hi : i.WellTyped c.signatures c.function A)
    (hallowed : Allowed g i) :
    Ready c K P (gives i A) { g with builder := g.builder.append i } := by
  have hgrows := Builder.Grows.append g.builder.nextBlock g.builder i
  have hground := gives_grounded h hi (s := g.builder.append i) (b := g.builder.cur)
    hgrows.code hgrows.regs
    (fun r hr => by
      rw [hdef] at hr
      cases hr)
    (by simp) h.at_.inside
  obtain ⟨hsound, hat⟩ := h.sound.append h.at_ hterm (successors_of_not_terminator hterm)
    hdef ⟨hi, fresh_next h hi (.inl hdef)⟩ hground
  exact ⟨⟨hsound, h.declared.append rfl hallowed, h.recorded.append rfl hallowed, h.laid,
    h.listed, h.distinct, h.first, h.fallbacks, h.current⟩, hat,
    h.addressed.mono (subset_gives _ A) rfl⟩

theorem Next.append (c : Scene) (base : Nat) (K : Nat → Set Fact) (g : IRGenerator)
    (i : Instr) : Next c base K g K { g with builder := g.builder.append i } :=
  .of_builder (Builder.Grows.append base g.builder i) rfl

theorem emits_emit (h : Ready c K P A g) {i : Instr} (hterm : i.isTerminator = false)
    (hdef : i.defines = none) (hi : i.WellTyped c.signatures c.function A)
    (hallowed : Allowed g i) :
    Emits c P (IRGenerator.emit i) K A g fun _ _ => True :=
  ⟨K, _, .append c _ K g i, h.emit hterm hdef hi hallowed, subset_gives _ A, rfl, trivial⟩

end instruction

end IRGenerator

end CMinus
