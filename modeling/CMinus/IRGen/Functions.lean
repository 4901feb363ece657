import CMinus.IRGen.Blocks

namespace CMinus

namespace IRGenerator

open SSA IR

variable {c : Scene} {P : Set Nat} {K : Nat → Set Fact} {A : Set Fact} {g : IRGenerator}

/-! Functions of the module. -/

theorem find_of_names {functions : List Function} (hnames : (functions.map Function.name).Nodup)
    {h : Function} (hmem : h ∈ functions) : getFunction functions h.name = some h := by
  unfold getFunction
  induction functions with
  | nil => cases hmem
  | cons first functions ih =>
      rw [List.map_cons, List.nodup_cons] at hnames
      rcases List.mem_cons.mp hmem with rfl | hmem
      · simp
      · have hne : first.name ≠ h.name := by
          intro heq
          exact hnames.1 (heq ▸ List.mem_map_of_mem hmem)
        rw [List.find?_cons_of_neg (by simpa using hne)]
        exact ih hnames.2 hmem

theorem getFunction_mem {functions : List Function} {name : String} {h : Function}
    (hget : getFunction functions name = some h) : h ∈ functions ∧ h.name = name := by
  refine ⟨List.mem_of_find?_eq_some hget, ?_⟩
  simpa using List.find?_some hget

theorem mem_of_lookup {α : Type} {l : List (Nat × α)} {key : Nat} {a : α}
    (h : l.lookup key = some a) : (key, a) ∈ l := by
  induction l with
  | nil => cases h
  | cons p l ih =>
      rw [List.lookup_cons] at h
      split at h
      · next heq =>
          obtain rfl : key = p.1 := by simpa using heq
          cases h
          exact List.mem_cons_self
      · exact List.mem_cons_of_mem _ (ih h)

theorem lookup_of_mem {α : Type} {l : List (Nat × α)} {key : Nat} {a : α}
    (h : (key, a) ∈ l) : (l.lookup key).isSome = true := by
  induction l with
  | nil => cases h
  | cons p l ih =>
      rw [List.lookup_cons]
      split
      · rfl
      · next heq =>
          rcases List.mem_cons.mp h with rfl | h
          · simp at heq
          · exact ih h

/-- What `functionFor` and `indexErrorFunction` hand out. -/
structure Callee (g : IRGenerator) (signature : Function) (h : Function) : Prop where
  listed : ∃ h' ∈ g.functions, h'.name = signature.name
  name : h.name = signature.name
  params : h.params = signature.params
  returnType : h.returnType = signature.returnType

theorem Callee.mono {signature h : Function} {g' : IRGenerator} (hcallee : Callee g signature h)
    (hmore : g.functions <+: g'.functions) : Callee g' signature h := by
  obtain ⟨h', hmem, hname⟩ := hcallee.listed
  exact { hcallee with listed := ⟨h', hmore.subset hmem, hname⟩ }

theorem callee_of_signed {h signature : Function} (hmem : h ∈ g.functions)
    (hsigned : { h with blocks := [] } = signature) : Callee g signature h := by
  subst hsigned
  exact ⟨⟨h, hmem, rfl⟩, rfl, rfl, rfl⟩

theorem Declared.add {T : List Symbol} (h : Declared T g) {signature : Function}
    {keys : List (Nat × String)} (hnew : ∀ h' ∈ g.functions, h'.name ≠ signature.name)
    (hblocks : signature.blocks = []) (hkeys : keys ⊆ g.functionNames ∨ ∃ symbol ∈ T,
      signature = signatureOf symbol ∧ keys = (symbol.id, symbol.name) :: g.functionNames)
    (hsub : g.functionNames ⊆ keys)
    (hsigned : signature = indexErrorSignature ∨ ∃ symbol ∈ T,
      signature = signatureOf symbol ∧ (symbol.id, symbol.name) ∈ keys) :
    Declared T { g with functions := g.functions ++ [signature], functionNames := keys } := by
  refine ⟨?_, ?_, ?_, ?_, ?_⟩
  · rw [List.map_append, List.nodup_append]
    refine ⟨h.names, by simp, ?_⟩
    intro a ha b hb hab
    obtain ⟨h', hmem, rfl⟩ := List.mem_map.mp ha
    rw [List.map_singleton, List.mem_singleton] at hb
    exact hnew h' hmem (hab.trans hb)
  · intro p hp
    rcases hkeys with hold | ⟨symbol, hsymbol, -, rfl⟩
    · exact h.keys p (hold hp)
    · rcases List.mem_cons.mp hp with rfl | hp
      · exact ⟨symbol, hsymbol, rfl⟩
      · exact h.keys p hp
  · intro p hp
    rcases hkeys with hold | ⟨symbol, hsymbol, hsig, rfl⟩
    · obtain ⟨h', hmem, hname⟩ := h.listed p (hold hp)
      exact ⟨h', List.mem_append_left _ hmem, hname⟩
    · rcases List.mem_cons.mp hp with rfl | hp
      · exact ⟨signature, by simp, by rw [hsig]; rfl⟩
      · obtain ⟨h', hmem, hname⟩ := h.listed p hp
        exact ⟨h', List.mem_append_left _ hmem, hname⟩
  · intro h' hmem
    rcases List.mem_append.mp hmem with hmem | hmem
    · rcases h.signed h' hmem with herror | ⟨symbol, hsymbol, hsig, hkey⟩
      · exact .inl herror
      · exact .inr ⟨symbol, hsymbol, hsig, hsub hkey⟩
    · rw [List.mem_singleton.mp hmem]
      have hsame : ({ signature with blocks := [] } : Function) = signature := by
        cases signature
        cases hblocks
        rfl
      rw [hsame]
      exact hsigned
  · intro b r callee args hcall
    obtain ⟨h', hmem, hname⟩ := h.calls b r callee args hcall
    exact ⟨h', List.mem_append_left _ hmem, hname⟩

/-- A function is looked up, or entered without a body. -/
structure Enters (T : List Symbol) (g : IRGenerator) (signature callee : Function)
    (g' : IRGenerator) : Prop where
  adds : ∃ new keys, (∀ f ∈ new, f.blocks = []) ∧
    g' = { g with functions := g.functions ++ new, functionNames := keys }
  declared : Declared T g'
  callee : Callee g' signature callee

theorem Enters.found {T : List Symbol} {signature callee : Function} (h : Declared T g)
    (hcallee : Callee g signature callee) : Enters T g signature callee g :=
  ⟨⟨[], g.functionNames, by simp, by simp⟩, h, hcallee⟩

theorem enters_functionFor (hc : c.Proper) (h : Declared c.functions g) {symbol : Symbol}
    (hsymbol : symbol ∈ c.functions) :
    Run (functionFor symbol) g fun callee g' =>
      Enters c.functions g (signatureOf symbol) callee g' := by
  unfold Run
  cases hlookup : g.functionNames.lookup symbol.id with
  | some name =>
      have heq : functionFor symbol g =
          ((getFunction g.functions name).getD (signatureOf symbol), g) := by
        simp only [functionFor, hlookup]
      rw [heq]
      have hkey := mem_of_lookup hlookup
      obtain ⟨symbol', hsymbol', hpair⟩ := h.keys _ hkey
      obtain rfl : symbol = symbol' :=
        List.inj_on_of_nodup_map hc.ids hsymbol hsymbol' (congrArg Prod.fst hpair)
      obtain rfl : name = symbol.name := congrArg Prod.snd hpair
      obtain ⟨h', hmem, hlisted⟩ := h.listed _ hkey
      have hname : h'.name = symbol.name := hlisted
      have hfind : getFunction g.functions symbol.name = some h' := by
        rw [← hname]
        exact find_of_names h.names hmem
      refine .found h ?_
      simp only [hfind, Option.getD_some]
      rcases h.signed h' hmem with herror | ⟨symbol', hsymbol', hsig, -⟩
      · have hreserved : h'.name = kIndexErrorName := congrArg Function.name herror
        refine absurd ?_ hc.reserved
        rw [← hreserved, hname]
        exact List.mem_map_of_mem hsymbol
      · have hname' : h'.name = symbol'.name := congrArg Function.name hsig
        obtain rfl : symbol = symbol' :=
          List.inj_on_of_nodup_map hc.names hsymbol hsymbol' (hname.symm.trans hname')
        exact callee_of_signed hmem hsig
  | none =>
      have heq : functionFor symbol g = (signatureOf symbol,
          { g with functions := g.functions ++ [signatureOf symbol]
                   functionNames := (symbol.id, symbol.name) :: g.functionNames }) := by
        simp only [functionFor, hlookup]
      rw [heq]
      refine ⟨⟨[signatureOf symbol], _, by simp [signatureOf], rfl⟩, h.add ?_ rfl
        (.inr ⟨symbol, hsymbol, rfl, rfl⟩) (List.subset_cons_self _ _)
        (.inr ⟨symbol, hsymbol, rfl, List.mem_cons_self⟩), callee_of_signed (by simp) rfl⟩
      intro h' hmem hname
      rcases h.signed h' hmem with herror | ⟨symbol', hsymbol', hsig, hkey⟩
      · have hreserved : h'.name = kIndexErrorName := congrArg Function.name herror
        refine absurd ?_ hc.reserved
        rw [← hreserved, hname]
        exact List.mem_map_of_mem hsymbol
      · have hname' : h'.name = symbol'.name := congrArg Function.name hsig
        obtain rfl : symbol = symbol' :=
          List.inj_on_of_nodup_map hc.names hsymbol hsymbol' (hname.symm.trans hname')
        have hsome := lookup_of_mem hkey
        rw [hlookup] at hsome
        cases hsome

theorem enters_indexErrorFunction (hc : c.Proper) (h : Declared c.functions g) :
    Run indexErrorFunction g fun callee g' =>
      Enters c.functions g indexErrorSignature callee g' := by
  unfold Run
  cases hget : getFunction g.functions kIndexErrorName with
  | some existing =>
      have heq : indexErrorFunction g = (existing, g) := by
        simp only [indexErrorFunction, hget]
      rw [heq]
      obtain ⟨hmem, hname⟩ := getFunction_mem hget
      refine .found h ?_
      rcases h.signed existing hmem with herror | ⟨symbol, hsymbol, hsig, -⟩
      · exact callee_of_signed hmem herror
      · have hname' : existing.name = symbol.name := congrArg Function.name hsig
        refine absurd ?_ hc.reserved
        rw [← hname, hname']
        exact List.mem_map_of_mem hsymbol
  | none =>
      have heq : indexErrorFunction g = (indexErrorSignature,
          { g with functions := g.functions ++ [indexErrorSignature] }) := by
        simp only [indexErrorFunction, hget]
      rw [heq]
      refine ⟨⟨[indexErrorSignature], _, by simp [indexErrorSignature], rfl⟩, h.add ?_ rfl
        (.inl (List.Subset.refl _)) (List.Subset.refl _) (.inl rfl),
        callee_of_signed (by simp) rfl⟩
      intro h' hmem hname
      have hsome := find_of_names h.names hmem
      rw [hname] at hsome
      change getFunction g.functions kIndexErrorName = some h' at hsome
      rw [hget] at hsome
      cases hsome

/-! The result holds of the generator as it is then, so it is stated with `Run`. -/

theorem Enters.ready {signature callee : Function} {g' : IRGenerator}
    (h : Ready c K P A g) (henters : Enters c.functions g signature callee g') :
    (∀ base, Next c base K g K g') ∧ Ready c K P A g' ∧ g'.builder = g.builder ∧
      g'.diags = g.diags ∧ Callee g' signature callee := by
  obtain ⟨⟨new, keys, hblocks, rfl⟩, hdeclared, hcallee⟩ := henters
  refine ⟨fun base => ⟨Builder.Grows.refl _ _, fun _ _ => rfl, ⟨[], by simp, by simp⟩, rfl, rfl,
    ⟨new, rfl, hblocks⟩, ⟨[], by simp, by simp⟩, ⟨[], by simp, by simp⟩⟩, ?_, rfl, rfl, hcallee⟩
  exact ⟨⟨h.sound, hdeclared, h.recorded, h.laid, h.listed, h.distinct, h.first, h.fallbacks,
    h.current⟩, h.at_, h.addressed⟩

theorem run_functionFor (hc : c.Proper) (h : Ready c K P A g) {symbol : Symbol}
    (hsymbol : symbol ∈ c.functions) :
    Run (functionFor symbol) g fun callee g' =>
      (∀ base, Next c base K g K g') ∧ Ready c K P A g' ∧ g'.builder = g.builder ∧
        g'.diags = g.diags ∧ Callee g' (signatureOf symbol) callee :=
  (enters_functionFor hc h.declared hsymbol).ready h

theorem run_indexErrorFunction (hc : c.Proper) (h : Ready c K P A g) :
    Run indexErrorFunction g fun callee g' =>
      (∀ base, Next c base K g K g') ∧ Ready c K P A g' ∧ g'.builder = g.builder ∧
        g'.diags = g.diags ∧ Callee g' indexErrorSignature callee :=
  (enters_indexErrorFunction hc h.declared).ready h

/-! The signatures that the typing rules look up. -/

theorem Scene.Proper.signatures_nodup (hc : c.Proper) :
    (c.signatures.functions.map Function.name).Nodup := by
  unfold Scene.signatures
  rw [List.map_append, List.map_map, List.nodup_append]
  refine ⟨hc.names, by simp, ?_⟩
  intro a ha b hb hab
  rw [List.map_singleton, List.mem_singleton] at hb
  have hname : a = kIndexErrorName := hab.trans hb
  exact hc.reserved (hname ▸ ha)

theorem Scene.Proper.getFunction_symbol (hc : c.Proper) {symbol : Symbol}
    (hsymbol : symbol ∈ c.functions) :
    getFunction c.signatures.functions symbol.name = some (signatureOf symbol) :=
  find_of_names hc.signatures_nodup
    (List.mem_append_left _ (List.mem_map_of_mem hsymbol))

theorem Scene.Proper.getFunction_indexError (hc : c.Proper) :
    getFunction c.signatures.functions kIndexErrorName = some indexErrorSignature :=
  find_of_names hc.signatures_nodup (List.mem_append_right _ (List.mem_singleton_self _))

theorem emits_createCall (h : Ready c K P A g) {callee signature : Function}
    {args : List Operand} (hcallee : Callee g signature callee)
    (hsignature : getFunction c.signatures.functions signature.name = some signature)
    (hreturn : signature.returnType = .void ∨ signature.returnType = .i32)
    (hargs : List.Forall₂ (fun arg ty => c.HasTy A arg ty) args signature.params) :
    Emits c P (createCall callee args) K A g fun v A' =>
      signature.returnType = .i32 → c.HasTy A' v .i32 := by
  have hlisted : ∃ h' ∈ g.functions, h'.name = callee.name := by
    obtain ⟨h', hmem, hname⟩ := hcallee.listed
    exact ⟨h', hmem, hname.trans hcallee.name.symm⟩
  rw [← hcallee.name] at hsignature
  have hallowed : ∀ r, Allowed g (.call r callee.name args) := by
    intro r
    refine ⟨fun r' name args' heq => ?_, fun address haddress => by cases haddress⟩
    cases heq
    exact hlisted
  unfold createCall
  rcases hreturn with hvoid | hint
  · rw [if_pos (hcallee.returnType.trans hvoid)]
    refine (emits_emit h (i := .call none callee.name args) rfl rfl
      ⟨signature, hsignature, hargs, hvoid⟩ (hallowed none)).bind ?_
    intro _ K' A' g' hready _ _ _
    exact emits_pure hready fun hint => by
      rw [hvoid] at hint
      cases hint
  · have hne : callee.returnType ≠ .void := by
      rw [hcallee.returnType, hint]
      simp
    rw [if_neg hne]
    exact (emits_define h (i := fun r => .call (some r) callee.name args) rfl rfl rfl
      ⟨signature, hsignature, hargs, hint⟩ (hallowed _)).mono fun v A' _ hv _ => hv

end IRGenerator

end CMinus
