import CMinus.IRGen.EmitStmt

namespace CMinus

namespace IRGenerator

open SSA IR

/-! The beginning of a function: a slot for each parameter and local.  The scene grows
by one symbol for each slot. -/

def Scene.seeing (c : Scene) (visible : List Symbol) : Scene := { c with visible := visible }

variable {c : Scene} {P : Set Nat} {K : Nat → Set Fact} {A : Set Fact} {g : IRGenerator}

theorem Working.seeing (h : Working c K P g) (visible : List Symbol) :
    Working (c.seeing visible) K P g :=
  ⟨h.sound, h.declared, h.recorded, h.laid, h.listed, h.distinct, h.first, h.fallbacks,
    h.current⟩

/-- The address of a new symbol is registered before it is used. -/
theorem Ready.register (h : Ready c K P A g) {symbol : Symbol} (address : Operand)
    (hid : symbol.id ∉ c.visible.map Symbol.id) :
    Ready c K P A { g with addresses := (symbol.id, address) :: g.addresses } := by
  refine ⟨⟨h.sound, ⟨h.declared.names, h.declared.keys, h.declared.listed, h.declared.signed,
    h.declared.calls⟩, ?_, h.laid, h.listed, h.distinct, h.first, h.fallbacks, h.current⟩,
    h.at_, ?_⟩
  · intro b k i address' hi haddress
    exact (h.recorded b k i address' hi haddress).imp_left
      fun ⟨id, hmem⟩ => ⟨id, List.mem_cons_of_mem _ hmem⟩
  · intro other hvisible hfun
    obtain ⟨address', hlookup, hty⟩ := h.addressed other hvisible hfun
    refine ⟨address', ?_, hty⟩
    have hne : other.id ≠ symbol.id := by
      intro heq
      exact hid (heq ▸ List.mem_map_of_mem hvisible)
    rw [List.lookup_cons, beq_false_of_ne hne]
    exact hlookup

/-- Once its slot is there, the symbol can be seen. -/
theorem Ready.reveal (h : Ready c K P A g) {symbol : Symbol} {r : Nat}
    (hlookup : g.addresses.lookup symbol.id = some (.reg r)) (hty : c.HasTy A (.reg r) .ptr) :
    Ready (c.seeing (c.visible ++ [symbol])) K P A g := by
  refine ⟨h.toWorking.seeing _, h.at_, ?_⟩
  intro other hvisible hfun
  rcases List.mem_append.mp hvisible with hvisible | hvisible
  · exact h.addressed other hvisible hfun
  · rw [List.mem_singleton.mp hvisible]
    exact ⟨.reg r, hlookup, hty⟩

theorem storageType_ne_void (symbol : Symbol) : storageType symbol ≠ .void := by
  unfold storageType
  split
  · simp
  · split <;> simp

/-- What has happened when `symbols` have got their slots. -/
structure Slotted (c : Scene) (K : Nat → Set Fact) (P : Set Nat) (A : Set Fact)
    (g : IRGenerator) (symbols : List Symbol) (g' : IRGenerator) : Prop where
  addresses : ∃ new, g'.addresses = new ++ g.addresses ∧
    new.map Prod.fst = (symbols.map Symbol.id).reverse ∧ (new.map Prod.snd).Nodup ∧
    ∀ p ∈ new, ∃ r, p.2 = .reg r ∧ g.builder.nextReg ≤ r ∧ r < g'.builder.nextReg
  next : Next c g.builder.nextBlock K { g with addresses := g'.addresses } K g'
  ready : ∃ A', A ⊆ A' ∧ Ready (c.seeing (c.visible ++ symbols)) K P A' g'
  cur : g'.builder.cur = g.builder.cur
  blocks : g'.builder.nextBlock = g.builder.nextBlock
  layout : g'.builder.layout = g.builder.layout
  diags : g'.diags = g.diags

theorem Slotted.nil (h : Ready c K P A g) : Slotted c K P A g [] g := by
  refine ⟨⟨[], rfl, rfl, List.nodup_nil, by simp⟩, .refl c _ K g, ⟨A, subset_rfl, ?_⟩, rfl, rfl,
    rfl, rfl⟩
  rw [List.append_nil]
  exact h

theorem Next.readdress {base : Nat} {K' : Nat → Set Fact} {g' : IRGenerator}
    (h : Next c base K g K' g') (addresses : List (Nat × Operand)) :
    Next c base K { g with addresses := addresses } K' { g' with addresses := addresses } :=
  ⟨h.grows, h.agrees, h.layout, rfl, h.globals, h.functions, h.subscripts, h.accesses⟩

theorem Slotted.append {first second : List Symbol} {g1 g2 : IRGenerator}
    (h : Slotted c K P A g first g1)
    (h' : ∀ A', Ready (c.seeing (c.visible ++ first)) K P A' g1 →
      Slotted (c.seeing (c.visible ++ first)) K P A' g1 second g2) :
    Slotted c K P A g (first ++ second) g2 := by
  obtain ⟨A1, hmore, hready⟩ := h.ready
  have hsecond := h' A1 hready
  obtain ⟨A2, hmore', hready'⟩ := hsecond.ready
  obtain ⟨new, haddresses, hkeys, hdistinct, hregs⟩ := h.addresses
  obtain ⟨new', haddresses', hkeys', hdistinct', hregs'⟩ := hsecond.addresses
  have hgrows := h.next.grows.regs
  have hgrows' := hsecond.next.grows.regs
  refine ⟨⟨new' ++ new, ?_, ?_, ?_, ?_⟩, ?_, ⟨A2, hmore.trans hmore', ?_⟩,
    hsecond.cur.trans h.cur, hsecond.blocks.trans h.blocks, hsecond.layout.trans h.layout,
    hsecond.diags.trans h.diags⟩
  · rw [haddresses', haddresses, List.append_assoc]
  · rw [List.map_append, List.map_append, List.reverse_append, hkeys, hkeys']
  · rw [List.map_append, List.nodup_append]
    refine ⟨hdistinct', hdistinct, ?_⟩
    intro v hv w hw heq
    obtain ⟨p, hp, rfl⟩ := List.mem_map.mp hv
    obtain ⟨q, hq, rfl⟩ := List.mem_map.mp hw
    obtain ⟨r, hr, hle, -⟩ := hregs' p hp
    obtain ⟨r', hr', -, hlt⟩ := hregs q hq
    rw [hr, hr'] at heq
    cases heq
    omega
  · intro p hp
    rcases List.mem_append.mp hp with hp | hp
    · obtain ⟨r, hr, hle, hlt⟩ := hregs' p hp
      exact ⟨r, hr, hgrows.trans hle, hlt⟩
    · obtain ⟨r, hr, hle, hlt⟩ := hregs p hp
      exact ⟨r, hr, hle, hlt.trans_le hgrows'⟩
  · have hfirst := h.next.readdress g2.addresses
    have hlater := hsecond.next
    rw [h.blocks] at hlater
    exact hfirst.trans ⟨hlater.grows, hlater.agrees, hlater.layout, hlater.addresses,
      hlater.globals, hlater.functions, hlater.subscripts, hlater.accesses⟩
  · rw [← List.append_assoc]
    exact hready'

/-- The slot of a local. -/
theorem slotted_local (h : Ready c K P A g) {symbol : Symbol}
    (hid : symbol.id ∉ c.visible.map Symbol.id) :
    Run (createAlloca (storageType symbol) >>= setAddress symbol) g fun _ g' =>
      Slotted c K P A g [symbol] g' := by
  have hregistered := h.register (.reg g.builder.nextReg) hid
  have hready := hregistered.define (i := fun r => .alloca r (storageType symbol)) rfl rfl
    (storageType_ne_void symbol) (allowed_of_plain (by simp) rfl)
  refine ⟨⟨[(symbol.id, .reg g.builder.nextReg)], rfl, rfl, by simp, ?_⟩,
    .define c _ K _ fun r => .alloca r (storageType symbol),
    ⟨_, subset_gives _ A, hready.reveal ?_ (.inr (.inl ⟨_, _, rfl, rfl, rfl⟩))⟩,
    rfl, rfl, rfl, rfl⟩
  · intro p hp
    rw [List.mem_singleton.mp hp]
    exact ⟨_, rfl, le_rfl, Nat.lt_succ_self _⟩
  · simp

/-- The slot of a parameter, which receives the argument. -/
theorem slotted_param (h : Ready c K P A g) {symbol : Symbol} {index : Nat} {ty : Ty}
    (hid : symbol.id ∉ c.visible.map Symbol.id) (harg : c.function.params[index]? = some ty)
    (hty : ty = .i32 ∨ ty = .ptr) :
    Run (do
      let slot ← createAlloca (storageType symbol)
      emit (.store (.arg index) slot)
      setAddress symbol slot) g fun _ g' => Slotted c K P A g [symbol] g' := by
  have hregistered := h.register (.reg g.builder.nextReg) hid
  have hready := hregistered.define (i := fun r => .alloca r (storageType symbol)) rfl rfl
    (storageType_ne_void symbol) (allowed_of_plain (by simp) rfl)
  have hslot : c.HasTy (gives (.alloca g.builder.nextReg (storageType symbol)) A)
      (.reg g.builder.nextReg) .ptr := .inr (.inl ⟨_, _, rfl, rfl, rfl⟩)
  have hvalue : (Operand.arg index).HasTy c.signatures c.function
        (gives (.alloca g.builder.nextReg (storageType symbol)) A) .i32 ∨
      (Operand.arg index).HasTy c.signatures c.function
        (gives (.alloca g.builder.nextReg (storageType symbol)) A) .ptr := by
    rcases hty with rfl | rfl
    · exact .inl harg
    · exact .inr harg
  have hstored := hready.emit (i := .store (.arg index) (.reg g.builder.nextReg)) rfl rfl
    ⟨hvalue, hslot⟩
    ⟨by simp, fun address haddress => by
      cases haddress
      exact .inl ⟨symbol.id, List.mem_cons_self⟩⟩
  refine ⟨⟨[(symbol.id, .reg g.builder.nextReg)], rfl, rfl, by simp, ?_⟩,
    (Next.define c _ K _ fun r => .alloca r (storageType symbol)).trans (.append c _ K _ _),
    ⟨_, (subset_gives _ A).trans (subset_gives _ _), hstored.reveal ?_ (.inl hslot)⟩,
    rfl, rfl, rfl, rfl⟩
  · intro p hp
    rw [List.mem_singleton.mp hp]
    exact ⟨_, rfl, le_rfl, Nat.lt_succ_self _⟩
  · simp

theorem run_emitLocals {decls : List VarDecl} {symbols : List Symbol}
    (hdeclares : List.Forall₂ VarDecl.Declares decls symbols) :
    ∀ {c : Scene} {A : Set Fact} {g : IRGenerator}, Ready c K P A g →
      ((c.visible ++ symbols).map Symbol.id).Nodup →
      Run (emitLocals decls) g fun _ g' => Slotted c K P A g symbols g' := by
  induction hdeclares with
  | nil => exact fun h _ => Slotted.nil h
  | @cons decl symbol decls symbols hdecl _ ih =>
      intro c A g h hids
      have hid : symbol.id ∉ c.visible.map Symbol.id := by
        rw [List.map_append, List.nodup_append] at hids
        exact fun hmem => hids.2.2 _ hmem _ (by simp) rfl
      have hfirst := slotted_local h hid
      unfold emitLocals
      rw [hdecl.carries]
      refine Run.assoc (Run.bind (Run.mono hfirst ?_))
      intro _ g1 hslotted
      exact hslotted.append fun A' hready => ih hready (by simpa [Scene.seeing] using hids)

theorem run_emitParams {params : List ParamDecl} {symbols : List Symbol}
    (hdeclares : List.Forall₂ ParamDecl.Declares params symbols) :
    ∀ {c : Scene} {A : Set Fact} {g : IRGenerator} {index : Nat}, Ready c K P A g →
      ((c.visible ++ symbols).map Symbol.id).Nodup →
      (∀ k, (hk : k < params.length) → ∃ ty, c.function.params[index + k]? = some ty ∧
        (ty = .i32 ∨ ty = .ptr)) →
      Run (emitParams index params) g fun _ g' => Slotted c K P A g symbols g' := by
  induction hdeclares with
  | nil => exact fun h _ _ => Slotted.nil h
  | @cons param symbol params symbols hparam _ ih =>
      intro c A g index h hids hargs
      have hid : symbol.id ∉ c.visible.map Symbol.id := by
        rw [List.map_append, List.nodup_append] at hids
        exact fun hmem => hids.2.2 _ hmem _ (by simp) rfl
      obtain ⟨ty, harg, hty⟩ := hargs 0 (by simp)
      rw [Nat.add_zero] at harg
      unfold emitParams
      rw [hparam.carries]
      change Run ((do
        let slot ← createAlloca (storageType symbol)
        emit (.store (.arg index) slot)
        setAddress symbol slot) >>= fun _ => emitParams (index + 1) params) g _
      refine Run.bind (Run.mono (slotted_param h hid harg hty) ?_)
      intro _ g1 hslotted
      refine hslotted.append fun A' hready => ih hready (by simpa [Scene.seeing] using hids) ?_
      intro k hk
      obtain ⟨ty', harg', hty'⟩ := hargs (k + 1) (by simpa using hk)
      exact ⟨ty', by rwa [Nat.add_assoc, Nat.add_comm 1 k], hty'⟩

end IRGenerator

end CMinus
