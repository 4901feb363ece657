import CMinus.IRGen.Elements

namespace CMinus

namespace IRGenerator

open SSA IR Meaning

/-- What the emission of an int expression promises, wherever it starts. -/
def FollowsInt (c : Site) (n : Nat) (action : IRGenM Operand) (source : Eval (BitVec 32)) :
    Prop :=
  ∀ (P : Known) (g : IRGenerator), c.Emitting g → P.Stable g.builder.nextReg →
    (∀ env mem, P env mem → c.Stands env mem) →
    Follows c n P action source g (fun v n => v.Below n) fun v x => Denotes v (.i32 x)

/-! The address of an int. -/

def Placed (place : Option Place) (n : Nat) : Prop :=
  ∃ p, place = some p ∧ p.address.Below n

def Site.LeadsTo (c : Site) (place : Option Place) (target : Variable × Int) : Known :=
  fun env mem => ∃ p, place = some p ∧ c.Leads p.address target env mem

section place

variable {c : Site} {n : Nat} {P : Known} {g : IRGenerator} {symbol : Symbol} {head : VarHead}

theorem follows_within {array : Variable} {index : BitVec 32} {ty : Ty} {base value : Operand}
    {indices : List Operand} (hg : c.Emitting g) (hP : P.Stable g.builder.nextReg)
    (hsign : ∀ env mem, P env mem → index.slt 0 = false)
    (hbase : ∀ env mem, P env mem → c.Starts base array env mem)
    (hoffset : ∀ env mem, P env mem →
      offsetOf ty (indices.map fun i => (i.eval env).bind indexValue) = some index.toInt) :
    Follows c n P (createGEP ty base indices >>= fun v => pure (some (Place.mk v (some value))))
      (within array index) g Placed c.LeadsTo := by
  unfold within
  split
  · next hlt =>
      refine Follows.next (b := ()) (Q := fun v _ => c.Leads v (array, index.toInt))
        (follows_createGEP hg ty base indices ?_) hP ?_
      · intro env mem hknown
        obtain ⟨key, hstands, hvalue, hsort⟩ := hbase env mem hknown
        refine ⟨_, _, hvalue, hoffset env mem hknown, ?_⟩
        intro v env' hv
        rw [Int.zero_add] at hv
        refine ⟨key, hstands, hv, ?_, nonneg_of_slt (hsign env mem hknown), ?_⟩
        · rw [hsort]
          simp
        · change index.toInt < (storageType array.symbol).cells
          rw [hsort]
          exact hlt
      · intro v g' hg' _ hbelow
        exact follows_pure hg' ⟨_, rfl, hbelow⟩ fun env mem hknown => ⟨_, rfl, hknown.2⟩
  · apply follows_fault
    apply (writes_foldOr hg rfl fun v hv => foldGEP_regs hv).bind
    have hwrites : Writes c (createGEP ty base indices) g fun v n => v.Below n :=
      writes_foldOr hg rfl fun v hv => foldGEP_regs hv
    exact ⟨hwrites.emitting, .refl _ _, _, rfl, hwrites.bounded⟩

theorem follows_element (hc : c.Proper) (hg : c.Emitting g) (hP : P.Stable g.builder.nextReg)
    (hknown : ∀ env mem, P env mem → c.Stands env mem) (hhead : head.Resolved c.visible symbol)
    (htype : symbol.type = .intArray) {action : IRGenM Operand} {source : Eval (BitVec 32)}
    (hindex : FollowsInt c n action source) :
    Follows c n P (elementAddress c.setting.options head (some action))
      (place c.activation head (some source)) g Placed c.LeadsTo := by
  obtain ⟨hsymbol, hvisible, hvar, -⟩ := hhead
  obtain ⟨address, hlookup, hbelow, haddress⟩ := Emitting.address hg hvisible hvar
  have hplace : place c.activation head (some source) =
      source >>= fun index => element c.activation symbol index := by
    unfold place
    rw [hsymbol]
  rw [hplace]
  let tail (wide value : Operand) : IRGenM (Option Place) :=
    if symbol.kind = .parameter then
      createLoad .ptr address >>= fun base =>
        createGEP .i32 base [wide] >>= fun v => pure (some ⟨v, some value⟩)
    else
      createGEP (.array symbol.arraySize) address [indexZero c.setting.options, wide] >>= fun v =>
        pure (some ⟨v, some value⟩)
  have heq : elementAddress c.setting.options head (some action) g =
      (action >>= fun value => subscript value >>= fun _ =>
        checkIndex c.setting.options value >>= fun value =>
          createSExtOrTrunc c.setting.options.indexBits value >>= fun wide => tail wide value) g := by
    unfold elementAddress
    rw [hsymbol]
    exact addressOf_bind hlookup _
  refine Follows.of_eq ?_ heq
  refine (hindex P g hg hP hknown).bind hP ?_
  intro value g1 hg1 hregs1 hbelow1 index
  have hP1 := (hP.mono hregs1).and (Denotes.stable hbelow1 (.i32 index))
  rw [element_eq]
  refine Follows.after rfl ?_
  have hg1' := Emitting.quiet hg1 (subscript value g1).2.subscripts g1.accesses
  refine (follows_checkIndex hc hg1' hbelow1 hP1 fun env mem h => h.2).bind hP1 ?_
  intro checked g2 hg2 hregs2 hbelow2 _
  have hP2 := (hP1.mono hregs2).and
    ((Denotes.stable hbelow2 (.i32 index)).and (.const _ (index.slt 0 = false)))
  refine (follows_createSExtOrTrunc hg2 hc.setting.bits hbelow2 fun env mem h => h.2.1).next hP2 ?_
  intro wide g3 hg3 hregs3 hbelow3
  have hP3 := (hP2.mono hregs3).and (Indexes.stable hbelow3 index.toInt)
  by_cases hkind : symbol.kind = .parameter
  · have htail : tail wide checked = createLoad .ptr address >>= fun base =>
        createGEP .i32 base [wide] >>= fun v => pure (some ⟨v, some checked⟩) := if_pos hkind
    rw [htail]
    refine (follows_loadArray hc hg3 htype hkind ?_).bind hP3 ?_
    · exact fun env mem h => haddress env mem (hknown env mem h.1.1.1)
    · intro base g4 hg4 hregs4 hbelow4 array
      refine follows_within hg4 ((hP3.mono hregs4).and (Site.Starts.stable hbelow4 array)) ?_ ?_ ?_
      · exact fun env mem h => h.1.1.2.2
      · exact fun env mem h => h.2
      · intro env mem h
        have hwide : (wide.eval env).bind indexValue = some index.toInt := h.1.2
        simp [hwide, offsetOf, Ty.cells]
  · have htail : tail wide checked =
        createGEP (.array symbol.arraySize) address [indexZero c.setting.options, wide] >>=
          fun v => pure (some ⟨v, some checked⟩) := if_neg hkind
    rw [htail, arrayOf_local hkind]
    change Follows c n _ _ (within (c.activation.variable symbol) index) g3 Placed c.LeadsTo
    refine follows_within hg3 hP3 ?_ ?_ ?_
    · exact fun env mem h => h.1.2.2
    · intro env mem h
      obtain ⟨key, hvalue, hstands⟩ := haddress env mem (hknown env mem h.1.1.1)
      exact ⟨key, hstands, hvalue, storageType_array htype hkind⟩
    · intro env mem h
      have hwide : (wide.eval env).bind indexValue = some index.toInt := h.2
      have hzero : ((indexZero c.setting.options).eval env).bind indexValue = some 0 :=
        indexZero_indexes c.setting.options env mem
      simp [hwide, hzero, offsetOf]

/-! The name of an int, or of an array with a subscript. -/

inductive FollowsIndex (c : Site) (n : Nat) (symbol : Symbol) :
    Option (IRGenM Operand) → Option (Eval (BitVec 32)) → Prop where
  | scalar (h : symbol.type ≠ .intArray) : FollowsIndex c n symbol none none
  | subscript {action : IRGenM Operand} {source : Eval (BitVec 32)}
      (htype : symbol.type = .intArray) (h : FollowsInt c n action source) :
      FollowsIndex c n symbol (some action) (some source)

variable {index : Option (IRGenM Operand)} {source : Option (Eval (BitVec 32))}

theorem follows_scalar (hg : c.Emitting g)
    (hknown : ∀ env mem, P env mem → c.Stands env mem) (hhead : head.Resolved c.visible symbol)
    (htype : symbol.type ≠ .intArray) :
    Follows c n P (elementAddress c.setting.options head none)
      (place c.activation head none) g Placed c.LeadsTo := by
  obtain ⟨hsymbol, hvisible, hvar, -⟩ := hhead
  obtain ⟨address, hlookup, hbelow, haddress⟩ := Emitting.address hg hvisible hvar
  have hplace : place c.activation head none = pure (c.activation.variable symbol, 0) := by
    unfold place
    rw [hsymbol]
  have heq : elementAddress c.setting.options head none g =
      (pure (some ⟨address, none⟩) : IRGenM (Option Place)) g := by
    unfold elementAddress
    rw [hsymbol]
    exact addressOf_bind hlookup _
  have hsort : storageType symbol = .i32 := by
    unfold storageType
    rw [if_pos htype]
  rw [hplace]
  refine Follows.of_eq ?_ heq
  apply follows_pure hg ⟨_, rfl, hbelow⟩
  intro env mem h
  obtain ⟨key, hvalue, hstands⟩ := haddress env mem (hknown env mem h)
  refine ⟨_, rfl, key, hstands, hvalue, ?_, le_rfl, ?_⟩
  · change storageType symbol ≠ .ptr
    rw [hsort]
    simp
  · change 0 < (storageType symbol).cells
    rw [hsort]
    decide

theorem follows_elementAddress (hc : c.Proper) (hg : c.Emitting g)
    (hP : P.Stable g.builder.nextReg) (hknown : ∀ env mem, P env mem → c.Stands env mem)
    (hhead : head.Resolved c.visible symbol) (hindex : FollowsIndex c n symbol index source) :
    Follows c n P (elementAddress c.setting.options head index)
      (place c.activation head source) g Placed c.LeadsTo := by
  cases hindex with
  | scalar htype => exact follows_scalar hg hknown hhead htype
  | subscript htype hindex => exact follows_element hc hg hP hknown hhead htype hindex

theorem Site.LeadsTo.leads {p : Place} {target : Variable × Int} {env : SSA.Env} {mem : Store}
    (h : c.LeadsTo (some p) target env mem) : c.Leads p.address target env mem := by
  obtain ⟨_, ⟨⟩, hleads⟩ := h
  exact hleads

theorem follows_emitVar (hc : c.Proper) (hhead : head.Resolved c.visible symbol)
    (htype : head.info.type ≠ .intArray) (hindex : FollowsIndex c n symbol index source) :
    FollowsInt c n (emitVar c.setting.options head index)
      (place c.activation head source >>= fun p => Meaning.read p.1 p.2) := by
  intro P g hg hP hknown
  unfold emitVar
  rw [if_neg htype]
  refine (follows_elementAddress hc hg hP hknown hhead hindex).bind hP ?_
  rintro _ g1 hg1 hregs1 ⟨p, rfl, hbelow⟩ target
  refine Follows.after rfl ?_
  exact follows_load hc (Emitting.quiet hg1 g1.subscripts (access p.subscript g1).2.accesses)
    fun env mem h => h.2.leads

theorem follows_emitAssign (hc : c.Proper) (hhead : head.Resolved c.visible symbol)
    (hindex : FollowsIndex c n symbol index source) {action : IRGenM Operand}
    {value : Eval (BitVec 32)} (hvalue : FollowsInt c n action value) :
    FollowsInt c n (emitAssign c.setting.options head index action)
      (place c.activation head source >>= fun p => value >>= fun x =>
        assign p.1 p.2 x >>= fun _ => pure x) := by
  intro P g hg hP hknown
  unfold emitAssign
  refine (follows_elementAddress hc hg hP hknown hhead hindex).bind hP ?_
  rintro _ g1 hg1 hregs1 ⟨p, rfl, hbelow1⟩ target
  have hleads : Known.Stable g1.builder.nextReg (c.LeadsTo (some p) target) := by
    constructor
    intro env env' mem mem' henv hmem h
    exact ⟨p, rfl, (Site.Leads.stable hbelow1 target).later henv hmem h.leads⟩
  have hP1 := (hP.mono hregs1).and hleads
  refine (hvalue _ g1 hg1 hP1 fun env mem h => hknown env mem h.1).bind hP1 ?_
  intro v g2 hg2 hregs2 hbelow2 x
  have hP2 := (hP1.mono hregs2).and (Denotes.stable hbelow2 (.i32 x))
  refine Follows.after rfl ?_
  have hg2' := Emitting.quiet hg2 g2.subscripts (access p.subscript g2).2.accesses
  refine (follows_store hc hg2' (fun env mem h => h.1.2.leads) fun env mem h => h.2).bind hP2 ?_
  intro _ g3 hg3 hregs3 _ _
  refine follows_pure hg3 ?_ fun env mem h => h.1.2
  exact fun r hr => (hbelow2 r hr).trans_le hregs3

end place

end IRGenerator

end CMinus
