import CMinus.IRGen.Functions

namespace CMinus

namespace IRGenerator

open SSA IR

variable {c : Scene} {P : Set Nat} {K : Nat → Set Fact} {A : Set Fact} {g : IRGenerator}

/-! The builder's folding keeps types. -/

theorem foldBinary_ty {op : Arith} {lhs rhs v : Operand}
    (h : foldBinary op lhs rhs = some v) : c.HasTy A v .i32 := by
  unfold foldBinary at h
  split at h
  · split at h
    · cases h
      exact ⟨rfl, by simp⟩
    · cases h
      rfl
  · cases h
    exact ⟨rfl, by simp⟩
  · cases h
    exact ⟨rfl, by simp⟩
  · cases h
    exact ⟨rfl, by simp⟩
  · cases h

theorem foldICmp_ty {pred : Compare} {lhs rhs v : Operand}
    (h : foldICmp pred lhs rhs = some v) : c.HasTy A v .i1 := by
  unfold foldICmp at h
  split at h
  · cases h
    rfl
  · cases h
    exact ⟨rfl, by simp⟩
  · cases h
    exact ⟨rfl, by simp⟩
  · cases h
    exact ⟨rfl, by simp⟩
  · cases h

theorem foldZExt_ty {value v : Operand} (h : foldZExt value = some v) :
    c.HasTy A v .i32 := by
  unfold foldZExt at h
  split at h
  · cases h
    rfl
  · cases h
    exact ⟨rfl, by simp⟩
  · cases h

theorem foldIndexCast_ty {value v : Operand}
    (h : foldIndexCast c.options.indexBits value = some v) :
    c.HasTy A v (.int c.options.indexBits) := by
  unfold foldIndexCast at h
  split at h
  · cases h
    rfl
  · cases h
    exact ⟨rfl, by simp⟩
  · cases h

theorem foldGEP_ty {ty : Ty} {base v : Operand} {indices : List Operand}
    (hbase : c.HasTy A base .ptr) (h : foldGEP ty base indices = some v) :
    c.HasTy A v .ptr := by
  rcases foldGEP_cases h with ⟨name, rfl, rfl | rfl | ⟨offset, rfl⟩⟩
  · exact hbase
  · exact ⟨rfl, by simp⟩
  · exact hbase

theorem indexZero_ty : c.HasTy A (indexZero c.options) (.int c.options.indexBits) := by
  unfold indexZero
  split
  · next h =>
      rw [h]
      rfl
  · rfl

/-! `Create...`: the result has the type of the instruction. -/

theorem emits_foldOr (h : Ready c K P A g) {folded : Option Operand} {i : Nat → Instr}
    {ty : Ty} (hfolded : ∀ v, folded = some v → c.HasTy A v ty)
    (hterm : (i g.builder.nextReg).isTerminator = false)
    (hdef : (i g.builder.nextReg).defines = some g.builder.nextReg)
    (hty : (i g.builder.nextReg).resultTy = some ty)
    (hi : (i g.builder.nextReg).WellTyped c.signatures c.function A)
    (hallowed : Allowed g (i g.builder.nextReg)) :
    Emits c P (foldOr folded i) K A g fun v A' => c.HasTy A' v ty := by
  cases folded with
  | some v => exact emits_pure h (hfolded v rfl)
  | none => exact emits_define h hterm hdef hty hi hallowed

theorem emits_createBinary (h : Ready c K P A g) {op : Arith} {lhs rhs : Operand}
    (hlhs : c.HasTy A lhs .i32) (hrhs : c.HasTy A rhs .i32) :
    Emits c P (createBinary op lhs rhs) K A g fun v A' => c.HasTy A' v .i32 :=
  emits_foldOr h (fun _ hv => foldBinary_ty hv) rfl rfl rfl ⟨hlhs, hrhs⟩
    (allowed_of_plain (by simp) rfl)

theorem emits_createICmp (h : Ready c K P A g) {pred : Compare} {lhs rhs : Operand}
    (hlhs : c.HasTy A lhs .i32) (hrhs : c.HasTy A rhs .i32) :
    Emits c P (createICmp pred lhs rhs) K A g fun v A' => c.HasTy A' v .i1 :=
  emits_foldOr h (fun _ hv => foldICmp_ty hv) rfl rfl rfl ⟨hlhs, hrhs⟩
    (allowed_of_plain (by simp) rfl)

theorem emits_createZExt (h : Ready c K P A g) {value : Operand}
    (hvalue : c.HasTy A value .i1) :
    Emits c P (createZExt value) K A g fun v A' => c.HasTy A' v .i32 :=
  emits_foldOr h (fun _ hv => foldZExt_ty hv) rfl rfl rfl hvalue
    (allowed_of_plain (by simp) rfl)

theorem emits_createSExtOrTrunc (h : Ready c K P A g) {value : Operand}
    (hvalue : c.HasTy A value .i32) :
    Emits c P (createSExtOrTrunc c.options.indexBits value) K A g fun v A' =>
      c.HasTy A' v (.int c.options.indexBits) := by
  unfold createSExtOrTrunc
  by_cases h32 : c.options.indexBits = 32
  · rw [if_pos h32, h32]
    exact emits_pure h hvalue
  · rw [if_neg h32]
    by_cases hlt : 32 < c.options.indexBits
    · simp only [hlt, if_true]
      exact emits_foldOr h (fun _ hv => foldIndexCast_ty hv) rfl rfl rfl ⟨hlt, rfl, hvalue⟩
        (allowed_of_plain (by simp) rfl)
    · simp only [hlt, if_false]
      exact emits_foldOr h (fun _ hv => foldIndexCast_ty hv) rfl rfl rfl
        ⟨by omega, rfl, hvalue⟩ (allowed_of_plain (by simp) rfl)

theorem emits_createGEP (h : Ready c K P A g) {ty : Ty} {base : Operand}
    {indices : List Operand} (hbase : c.HasTy A base .ptr)
    (hcount : ty.TakesIndices indices.length)
    (hindices : ∀ i ∈ indices, c.HasTy A i (.int c.options.indexBits)) :
    Emits c P (createGEP ty base indices) K A g fun v A' => c.HasTy A' v .ptr :=
  emits_foldOr h (fun _ hv => foldGEP_ty hbase hv) rfl rfl rfl ⟨hbase, hcount, hindices⟩
    (allowed_of_plain (by simp) rfl)

theorem emits_createLoad (h : Ready c K P A g) {ty : Ty} {address : Operand}
    (hty : ty = .i32 ∨ ty = .ptr) (haddress : c.HasTy A address .ptr)
    (hplace : (∃ id, (id, address) ∈ g.addresses) ∨
      ∃ σ ∈ g.accesses, σ.block = g.builder.cur ∧ σ.position = g.builder.position) :
    Emits c P (createLoad ty address) K A g fun v A' => c.HasTy A' v ty := by
  refine emits_define h (i := fun r => .load r ty address) rfl rfl rfl ⟨hty, haddress⟩
    ⟨by simp, ?_⟩
  intro address' haccess
  cases haccess
  exact hplace

/-! The test of a subscript. -/

theorem Ready.marked (h : Ready c K P A g) (subscripts accesses : List Subscript)
    (hmore : g.accesses ⊆ accesses) :
    Ready c K P A { g with subscripts := subscripts, accesses := accesses } := by
  refine ⟨⟨h.sound, ⟨h.declared.names, h.declared.keys, h.declared.listed,
    h.declared.signed, h.declared.calls⟩, ?_, h.laid, h.listed, h.distinct, h.first,
    h.fallbacks, h.current⟩, h.at_, h.addressed⟩
  intro b k i address hi haddress
  exact (h.recorded b k i address hi haddress).imp_right
    fun ⟨σ, hσ, hplace⟩ => ⟨σ, hmore hσ, hplace⟩

/-- The comparison is folded, or made by the instruction at the insertion point. -/
theorem run_signTest (h : Ready c K P A g) {index : Operand}
    (hindex : c.HasTy A index .i32) :
    Run (createICmp .slt index (int32 0)) g fun cond g' =>
      ∃ A', (∀ base, Next c base K g K g') ∧ Ready c K P A' g' ∧ A ⊆ A' ∧
        g'.diags = g.diags ∧ c.HasTy A' cond .i1 ∧
        g'.builder.cur = g.builder.cur ∧ g'.builder.nextBlock = g.builder.nextBlock ∧
        g'.builder.layout = g.builder.layout ∧
        ((∃ r, cond = .reg r ∧ .negative r index ∈ A' ∧
            g'.builder.position = g.builder.position + 1 ∧
            (g'.builder.code g.builder.cur)[g.builder.position]? =
              some (.icmp r .slt index (.i32 0))) ∨
          (foldICmp .slt index (.i32 0) = some cond ∧ g' = g)) := by
  have hzero : int32 0 = .i32 0 := rfl
  unfold createICmp Run
  rw [hzero]
  cases hfold : foldICmp .slt index (.i32 0) with
  | some cond =>
      exact ⟨A, fun base => .refl c base K g, h, subset_rfl, rfl, foldICmp_ty hfold, rfl, rfl,
        rfl, .inr ⟨rfl, rfl⟩⟩
  | none =>
      refine ⟨_, fun base => .define c base K g _,
        h.define (i := fun r => .icmp r .slt index (.i32 0)) rfl rfl ⟨hindex, rfl⟩
          (allowed_of_plain (by simp) rfl), subset_gives _ A, rfl, ?_, rfl, rfl, rfl,
        .inl ⟨g.builder.nextReg, rfl, .inr (.inr ⟨_, _, rfl, rfl⟩), ?_, ?_⟩⟩
      · exact .inr (.inl ⟨_, _, rfl, rfl, rfl⟩)
      · exact Builder.position_define _ _
      · exact g.builder.appended _

theorem Next.mark {base : Nat} {K' : Nat → Set Fact} {g' : IRGenerator} {σ : Subscript}
    (h : Next c base K { g with subscripts := g.subscripts ++ [σ] } K' g')
    (hguarded : c.options.indexChecks = true → Guarded g'.builder.code σ) :
    Next c base K g K' g' := by
  refine ⟨h.grows, h.agrees, h.layout, h.addresses, h.globals, h.functions, ?_, h.accesses⟩
  obtain ⟨new, hnew, hnewGuarded⟩ := h.subscripts
  refine ⟨σ :: new, by rw [hnew]; simp, ?_⟩
  intro hchecks τ hτ
  rcases List.mem_cons.mp hτ with rfl | hτ
  · exact hguarded hchecks
  · exact hnewGuarded hchecks τ hτ

theorem fold_true {index : Operand} {cond : Operand} (hknown : isNonNegative index = false)
    (hfold : foldICmp .slt index (.i32 0) = some cond) :
    cond = .i1 true ∨ ∃ ty, cond = .poison ty := by
  unfold foldICmp at hfold
  split at hfold
  · next a b hzero =>
      cases hzero
      cases hfold
      refine .inl ?_
      simpa [isNonNegative, Compare.apply] using hknown
  · cases hfold
    exact .inr ⟨_, rfl⟩
  · next hpoison => cases hpoison
  · next hpoison => cases hpoison
  · cases hfold

/-- The failing block: it reports the value and ends. -/
theorem run_report (hc : c.Proper) {Q : Set Nat} (h : Shut c K Q g) {index : Operand}
    {base fail ok : Nat} (hfail : fail ∈ g.builder.layout) (hok : ok ∈ g.builder.layout)
    (hbaseFail : base ≤ fail) (hbaseOk : base ≤ ok) (hne : ok ≠ fail)
    (hemptyFail : g.builder.code fail = []) (hemptyOk : g.builder.code ok = [])
    (hQ : ∀ d ∈ Q, d = fail ∨ d = ok ∨ d ∈ P) (hindex : c.HasTy (K fail) index .i32)
    (haddressedFail : Addressed c (K fail) g) (haddressedOk : Addressed c (K ok) g) :
    Run (do
      setInsertPoint fail
      let callee ← indexErrorFunction
      let _ ← createCall callee [index]
      emit .unreachable
      setInsertPoint ok
      return index) g fun v g' =>
        v = index ∧ Next c base K g K g' ∧ Ready c K P (K ok) g' ∧ g'.diags = g.diags ∧
          (g'.builder.code fail)[0]? = some (.call none kIndexErrorName [index]) ∧
          (g'.builder.code fail)[1]? = some .unreachable := by
  have hready : Ready c K (insert ok P) (K fail) { g with builder := g.builder.moveTo fail } :=
    h.moveTo hfail hemptyFail (fun d hd => (hQ d hd).imp_right id) haddressedFail
  have hnext : Next c base K g K { g with builder := g.builder.moveTo fail } :=
    .moveTo c K g hbaseFail
  refine Run.bind (run_setInsertPoint (Run.bind ?_))
  generalize hg1 : ({ g with builder := g.builder.moveTo fail } : IRGenerator) = g1 at *
  refine Run.mono (run_indexErrorFunction hc hready) ?_
  rintro callee g2 ⟨hnext2, hready2, hbuilder2, hdiags2, hcallee⟩
  have hvoid : callee.returnType = .void := hcallee.returnType
  have hname : callee.name = kIndexErrorName := hcallee.name
  -- the call and the end of the block
  have hcallReady := hready2.emit (i := .call none callee.name [index]) rfl rfl
    ⟨indexErrorSignature, by rw [hname]; exact hc.getFunction_indexError,
      .cons hindex .nil, rfl⟩
    ⟨fun r name args heq => by
      cases heq
      obtain ⟨h', hmem, hlisted⟩ := hcallee.listed
      exact ⟨h', hmem, hlisted.trans hcallee.name.symm⟩, fun address haddress => by
      cases haddress⟩
  have hcallNext := Next.append c base K g2 (.call none callee.name [index])
  have hshut := hcallReady.close (i := .unreachable) rfl trivial (by simp [Instr.successors])
    (by simp [Instr.successors])
  have hendNext := Next.append c base K
    { g2 with builder := g2.builder.append (.call none callee.name [index]) } .unreachable
  unfold createCall
  rw [if_pos hvoid]
  refine Run.bind (Run.bind (run_emit (run_pure (Run.bind (run_emit
    (Run.bind (run_setInsertPoint (run_pure ?_))))))))
  have hcode1 : g1.builder.code = g.builder.code := by
    rw [← hg1]
    rfl
  have hcur1 : g1.builder.cur = fail := by
    rw [← hg1]
    rfl
  have hlayout1 : g1.builder.layout = g.builder.layout := by
    rw [← hg1]
    rfl
  have hcur2 : g2.builder.cur = fail := by rw [hbuilder2, hcur1]
  have hcode2 : g2.builder.code = g.builder.code := by rw [hbuilder2, hcode1]
  have hlayout2 : g2.builder.layout = g.builder.layout := by rw [hbuilder2, hlayout1]
  have hcodeOk : (((g2.builder.append (.call none callee.name [index])).append
      .unreachable).code ok) = [] := by
    rw [Builder.append_code_of_ne _ _ (by simpa [hcur2] using hne),
      Builder.append_code_of_ne _ _ (by simpa [hcur2] using hne), hcode2, hemptyOk]
  have hcodeFail : (((g2.builder.append (.call none callee.name [index])).append
      .unreachable).code fail) = [.call none callee.name [index], .unreachable] := by
    have hfirst := g2.builder.append_code_cur (.call none callee.name [index])
    have hsecond := (g2.builder.append (.call none callee.name [index])).append_code_cur
      .unreachable
    rw [Builder.append_cur, hcur2] at hsecond
    rw [hcur2, hcode2, hemptyFail] at hfirst
    rw [hsecond, hfirst]
    rfl
  have haddresses2 : g2.addresses = g.addresses := by
    rw [(hnext2 0).addresses, hnext.addresses]
  refine ⟨rfl, ?_, ?_, ?_, ?_, ?_⟩
  · exact hnext.trans ((hnext2 base).trans (hcallNext.trans (hendNext.trans
      (.moveTo c K _ hbaseOk))))
  · refine hshut.moveTo ?_ hcodeOk ?_ ?_
    · simpa [hlayout2] using hok
    · intro d hd
      exact hd.imp id id
    · exact haddressedOk.mono subset_rfl haddresses2
  · rw [hdiags2, ← hg1]
  · refine (congrArg (·[0]?) hcodeFail).trans ?_
    rw [hname]
    rfl
  · exact congrArg (·[1]?) hcodeFail

/-- The diamond: a block that reports the value, and one that goes on. -/
theorem run_diamond (hc : c.Proper) (h : Ready c K P A g) {index : Operand}
    (hindex : c.HasTy A index .i32) (hchecks : c.options.indexChecks = true)
    (hknown : isNonNegative index = false) :
    Run (checkIndex c.options index) g fun v g' => v = index ∧ ∃ K' A',
      Next c g.builder.nextBlock K g K' g' ∧ Ready c K' P A' g' ∧ A ⊆ A' ∧
      g'.diags = g.diags ∧ .nonneg index ∈ A' ∧
      Tested g'.builder.code ⟨g.builder.cur, g.builder.position, index⟩ := by
  have hborn := h.at_.born
  have hinside := h.at_.inside
  have hunborn := h.sound.valid.unborn
  have hgrounded := h.at_.grounded
  -- the two blocks and what they may rely on
  generalize hn : g.builder.nextBlock = n at hborn hunborn
  have hfailReady := h.createBlock hgrounded
  have hbase : n ≤ g.builder.nextBlock := hn ▸ le_rfl
  have hfailNext := Next.createBlock c K g A hbase
  rw [hn] at hfailReady hfailNext
  have hbelow : ∀ fact ∈ insert (Fact.nonneg index) A,
      (g.builder.newBlock.attach n).Grounds c.entry fact := by
    intro fact hfact
    rcases hfact with rfl | hfact
    · exact below_of_hasTy h hindex
    · exact hgrounded fact hfact
  have hokReady := hfailReady.createBlock hbelow
  have hokNext := hfailNext.trans (Next.createBlock c _
    { g with builder := g.builder.newBlock.attach n } (insert (Fact.nonneg index) A)
    (show n ≤ _ by simp [hn]))
  simp only [Builder.attach_nextBlock, Builder.newBlock_nextBlock, hn] at hokReady hokNext
  unfold checkIndex
  rw [hchecks, if_neg (by simp), hknown, if_neg (by simp)]
  refine Run.bind (run_createBlock (Run.bind (run_createBlock (Run.bind ?_))))
  simp only [Builder.attach_nextBlock, Builder.newBlock_nextBlock, hn]
  generalize hg2 : ({ g with builder := (g.builder.newBlock.attach n).newBlock.attach (n + 1) } :
    IRGenerator) = g2 at hokReady hokNext
  have hcode2 : g2.builder.code = g.builder.code := by rw [← hg2]; rfl
  have hcur2 : g2.builder.cur = g.builder.cur := by rw [← hg2]; rfl
  have hnext2 : g2.builder.nextBlock = n + 2 := by rw [← hg2, ← hn]; rfl
  have hlayout2 : g2.builder.layout = g.builder.layout ++ [n] ++ [n + 1] := by
    rw [← hg2]
    rfl
  have hposition2 : g2.builder.position = g.builder.position := by
    unfold Builder.position
    rw [hcode2, hcur2]
  generalize hK : Function.update (Function.update K n A) (n + 1)
    (insert (Fact.nonneg index) A) = K2 at hokReady hokNext
  have hKfail : K2 n = A := by
    rw [← hK, Function.update_of_ne (by omega), Function.update_self]
  have hKok : K2 (n + 1) = insert (Fact.nonneg index) A := by
    rw [← hK, Function.update_self]
  -- the comparison and the branch
  refine Run.mono (run_signTest hokReady hindex) ?_
  rintro cond g3 ⟨A3, hnext3, hready3, hmore3, hdiags3, hcond, hcur3, hblocks3, hlayout3, htest⟩
  have hshut := hready3.close (i := .condBr cond n (n + 1)) rfl hcond
    (by
      intro b hb
      have hb' : b = n ∨ b = n + 1 := by simpa [Instr.successors] using hb
      rw [hblocks3, hnext2]
      omega)
    (by
      intro b hb fact hfact
      have hb' : b = n ∨ b = n + 1 := by simpa [Instr.successors] using hb
      rcases hb' with rfl | rfl
      · rw [hKfail] at hfact
        exact .inl (hmore3 hfact)
      · rw [hKok] at hfact
        rcases hfact with rfl | hfact
        · refine .inr ⟨cond, n, index, rfl, by omega, rfl, ?_⟩
          rcases htest with ⟨r, rfl, hneg, -⟩ | ⟨hfold, -⟩
          · exact .inl ⟨r, rfl, hneg⟩
          · exact .inr (fold_true hknown hfold)
        · exact .inl (hmore3 hfact))
  have hnext4 := Next.append c n K2 g3 (.condBr cond n (n + 1))
  have huntouched : ∀ b, b = n ∨ b = n + 1 →
      (g3.builder.append (.condBr cond n (n + 1))).code b = [] := by
    intro b hb
    have hgrows := (hnext3 g2.builder.nextBlock).grows
    obtain ⟨hsame, hne⟩ := hgrows.untouched (b := b) (by omega) (by omega)
    rw [Builder.append_code_of_ne _ _ hne, hsame, hcode2]
    exact hunborn b (by omega)
  have haddressed : ∀ B, A ⊆ B →
      Addressed c B { g3 with builder := g3.builder.append (.condBr cond n (n + 1)) } :=
    fun B hB => hokReady.addressed.mono hB (hnext3 0).addresses
  refine Run.bind (run_emit (Run.mono (run_report (P := P) hc hshut
    ?_ ?_ (le_refl n) (Nat.le_succ n) (by omega)
    (huntouched n (.inl rfl)) (huntouched (n + 1) (.inr rfl)) ?_ ?_ ?_ ?_) ?_))
  · simp [hlayout3, hlayout2]
  · simp [hlayout3, hlayout2]
  · intro d hd
    rcases hd with rfl | rfl | hd
    · exact .inr (.inl rfl)
    · exact .inl rfl
    · exact .inr (.inr hd)
  · rw [hKfail]
    exact hindex
  · exact haddressed _ hKfail.symm.subset
  · exact haddressed _ (by rw [hKok]; exact Set.subset_insert _ _)
  · rintro v g' ⟨rfl, hnext', hready', hdiags', hcall, hend⟩
    refine ⟨rfl, K2, _, hokNext.trans ((hnext3 n).trans (hnext4.trans hnext')), hready', ?_, ?_,
      ?_, ?_⟩
    · rw [hKok]
      exact Set.subset_insert _ _
    · rw [hdiags', hdiags3, ← hg2]
    · rw [hKok]
      exact Set.mem_insert _ _
    · have hbranch := g3.builder.appended (.condBr cond n (n + 1))
      have hgrows := hnext'.grows.code
      have hbranch' := prefix_getElem? (hgrows _) hbranch
      rw [hcur3, hcur2] at hbranch'
      rcases htest with ⟨r, rfl, -, hposition, hcompare⟩ | ⟨hfold, rfl⟩
      · refine ⟨g3.builder.position, _, n, n + 1, .inl ⟨r, rfl, ?_, ?_⟩, hbranch', hcall, hend⟩
        · rw [hposition, hposition2]
        · rw [hcur2, hposition2] at hcompare
          exact prefix_getElem? (hgrows _) (prefix_getElem? (hnext4.grows.code _) hcompare)
      · exact ⟨g3.builder.position, cond, n, n + 1, .inr ⟨hfold, hposition2⟩, hbranch', hcall, hend⟩

theorem emits_checkIndex (hc : c.Proper) (h : Ready c K P A g) {index : Operand}
    (hindex : c.HasTy A index .i32) :
    Emits c P (subscript index >>= fun _ => checkIndex c.options index) K A g fun v A' =>
      v = index ∧
        (c.options.indexChecks = true → KnownSign index ∨ .nonneg index ∈ A') := by
  have hmarked := h.marked
    (g.subscripts ++ [⟨g.builder.cur, g.builder.position, index⟩]) g.accesses
    (List.Subset.refl _)
  by_cases hchecks : c.options.indexChecks = true
  · cases hknown : isNonNegative index with
    | true =>
        have hsign : KnownSign index := by
          cases index with
          | i32 v => exact ⟨v, rfl, by simpa [isNonNegative] using hknown⟩
          | _ => cases hknown
        have hskip : checkIndex c.options index = pure index := by
          unfold checkIndex
          rw [hchecks, if_neg (by simp), hknown, if_pos rfl]
        rw [hskip]
        exact ⟨K, A, .mark (.refl c _ K _) fun _ => .inl hsign, hmarked, subset_rfl, rfl, rfl,
          fun _ => .inl hsign⟩
    | false =>
        obtain ⟨hv, K', A', hnext, hready, hmore, hdiags, hnonneg, htested⟩ :=
          run_diamond hc hmarked hindex hchecks hknown
        exact ⟨K', A', hnext.mark fun _ => .inr htested, hready, hmore, hdiags, hv,
          fun _ => .inr hnonneg⟩
  · have hskip : checkIndex c.options index = pure index := by
      unfold checkIndex
      rw [if_pos (by simpa using hchecks)]
    rw [hskip]
    exact ⟨K, A, .mark (.refl c _ K _) fun htrue => absurd htrue hchecks, hmarked, subset_rfl,
      rfl, rfl, fun htrue => absurd htrue hchecks⟩

/-! Addresses. -/

theorem emits_addressOf (h : Ready c K P A g) {symbol : Symbol}
    (hvisible : symbol ∈ c.visible) (hfun : symbol.isFunction = false) :
    Emits c P (addressOf symbol) K A g fun found A' =>
      ∃ address, found = some address ∧ (symbol.id, address) ∈ g.addresses ∧
        c.HasTy A' address .ptr := by
  obtain ⟨address, hlookup, hty⟩ := h.addressed symbol hvisible hfun
  exact ⟨K, A, .refl c _ K g, h, subset_rfl, rfl, address, hlookup, mem_of_lookup hlookup,
    hty⟩

/-- The sign of the subscript behind an address is known when checks are on; an
address with no subscript is the storage of a symbol. -/
structure SafePlace (c : Scene) (addresses : List (Nat × Operand)) (A : Set Fact)
    (place : Place) : Prop where
  ty : c.HasTy A place.address .ptr
  sign : ∀ index, place.subscript = some index →
    c.options.indexChecks = true → KnownSign index ∨ .nonneg index ∈ A
  direct : place.subscript = none → ∃ id, (id, place.address) ∈ addresses

theorem SafePlace.mono {addresses : List (Nat × Operand)} {B : Set Fact} {place : Place}
    (h : SafePlace c addresses A place) (hAB : A ⊆ B) : SafePlace c addresses B place :=
  ⟨h.ty.mono hAB, fun index hindex hchecks =>
    (h.sign index hindex hchecks).imp_right fun hmem => hAB hmem, h.direct⟩

/-- What the emission of an int expression promises, wherever it starts. -/
def EmitsInt (c : Scene) (P : Set Nat) (action : IRGenM Operand) : Prop :=
  ∀ K A g, Ready c K P A g → Emits c P action K A g fun v A' => c.HasTy A' v .i32

theorem emits_elementAddress (hc : c.Proper) (h : Ready c K P A g) {head : VarHead}
    {symbol : Symbol} {index : Option (IRGenM Operand)}
    (hhead : head.Resolved c.visible symbol)
    (hindex : ∀ action, index = some action → EmitsInt c P action) :
    Emits c P (elementAddress c.options head index) K A g fun place A' =>
      ∃ p, place = some p ∧ SafePlace c g.addresses A' p := by
  obtain ⟨hsymbol, hvisible, hfun, -⟩ := hhead
  unfold elementAddress
  rw [hsymbol]
  refine (emits_addressOf h hvisible hfun).bind ?_
  rintro _ K1 A1 g1 hready1 hmore1 haddresses1 ⟨address, rfl, hmem, hty⟩
  cases index with
  | none =>
      refine emits_pure hready1 ⟨_, rfl, hty, ?_, fun _ => ⟨symbol.id, hmem⟩⟩
      intro index hnone
      cases hnone
  | some index =>
      refine (hindex index rfl K1 A1 g1 hready1).bind ?_
      intro value K2 A2 g2 hready2 hmore2 haddresses2 hvalue
      refine Emits.assoc ((emits_checkIndex hc hready2 hvalue).bind ?_)
      rintro checked K3 A3 g3 hready3 hmore3 haddresses3 ⟨rfl, hsign⟩
      refine (emits_createSExtOrTrunc hready3 (hvalue.mono hmore3)).bind ?_
      intro wide K4 A4 g4 hready4 hmore4 haddresses4 hwide
      have hty4 : c.HasTy A4 address .ptr := ((hty.mono hmore2).mono hmore3).mono hmore4
      have hplace : ∀ {A5 : Set Fact} {v : Operand}, A3 ⊆ A5 → c.HasTy A5 v .ptr →
          SafePlace c g.addresses A5 ⟨v, some checked⟩ := by
        intro A5 v hmore5 hv
        refine ⟨hv, ?_, fun hnone => by cases hnone⟩
        rintro _ ⟨⟩ hchecks
        exact (hsign hchecks).imp_right fun hmem => hmore5 hmem
      split
      · have hregistered : ∃ id, (id, address) ∈ g4.addresses :=
          ⟨symbol.id, by rwa [haddresses4, haddresses3, haddresses2, haddresses1]⟩
        refine (emits_createLoad hready4 (.inr rfl) hty4 (.inl hregistered)).bind ?_
        intro base K5 A5 g5 hready5 hmore5 haddresses5 hbase
        refine (emits_createGEP hready5 hbase (.inl ⟨rfl, rfl⟩) ?_).bind ?_
        · intro i hi
          rw [List.mem_singleton.mp hi]
          exact hwide.mono hmore5
        · intro v K6 A6 g6 hready6 hmore6 haddresses6 hv
          exact emits_pure hready6 ⟨_, rfl, hplace (hmore4.trans (hmore5.trans hmore6)) hv⟩
      · refine (emits_createGEP hready4 hty4 (.inr ⟨⟨_, rfl⟩, rfl⟩) ?_).bind ?_
        · intro i hi
          rcases List.mem_pair.mp hi with rfl | rfl
          · exact indexZero_ty
          · exact hwide
        · intro v K5 A5 g5 hready5 hmore5 haddresses5 hv
          exact emits_pure hready5 ⟨_, rfl, hplace (hmore4.trans hmore5) hv⟩

/-- An access is recorded at the insertion point and made by the next instruction. -/
theorem Next.accessed {base : Nat} {value : Option Operand} {i : Instr}
    (haccess : (accessed i).isSome = true) (hborn : g.builder.cur < g.builder.nextBlock)
    {g' : IRGenerator}
    (hcode : g'.builder.code = (g.builder.append i).code)
    (hsign : ∀ index, value = some index → c.options.indexChecks = true →
      KnownSign index ∨
        .nonneg index ∈ signs.factsAt K g.builder.code g.builder.cur g.builder.position)
    (h : Next c base K (access value g).2 K g') : Next c base K g K g' := by
  refine ⟨h.grows, h.agrees, h.layout, h.addresses, h.globals, h.functions, h.subscripts, ?_⟩
  obtain ⟨new, hnew, hsafe⟩ := h.accesses
  refine ⟨value.toList.map (fun v => ⟨g.builder.cur, g.builder.position, v⟩) ++ new, ?_, ?_⟩
  · rw [hnew, ← List.append_assoc]
    rfl
  · intro σ hσ
    rcases List.mem_append.mp hσ with hσ | hσ
    · obtain ⟨v, hv, rfl⟩ := List.mem_map.mp hσ
      have hvalue : value = some v := by simpa using hv
      have hplace : (g'.builder.code g.builder.cur)[g.builder.position]? = some i := by
        rw [hcode]
        exact g.builder.appended i
      refine ⟨hborn.trans_le h.grows.blocks, ⟨i, hplace, haccess⟩, fun hchecks => ?_⟩
      refine (hsign v hvalue hchecks).imp_right fun hmem => ?_
      unfold Discipline.factsAt at hmem ⊢
      rw [hcode, Builder.append_code_cur]
      unfold Builder.position at hmem ⊢
      rwa [List.take_left, ← List.take_length (l := g.builder.code g.builder.cur)]
    · exact hsafe σ hσ

theorem Ready.facts_here (h : Ready c K P A g) :
    signs.factsAt K g.builder.code g.builder.cur g.builder.position = A := by
  unfold Discipline.factsAt Builder.position
  rw [List.take_length]
  exact h.at_.facts

theorem Ready.accessed (h : Ready c K P A g) (value : Option Operand) :
    Ready c K P A (access value g).2 :=
  h.marked g.subscripts _ (List.subset_append_left _ _)

/-- The place of an access is recorded, unless it is the storage of a symbol. -/
theorem SafePlace.allowed {place : Place} (h : SafePlace c g.addresses A place) :
    (∃ id, (id, place.address) ∈ (access place.subscript g).2.addresses) ∨
      ∃ σ ∈ (access place.subscript g).2.accesses, σ.block = g.builder.cur ∧
        σ.position = g.builder.position := by
  cases hsubscript : place.subscript with
  | none => exact .inl (h.direct hsubscript)
  | some index =>
      refine .inr ⟨⟨g.builder.cur, g.builder.position, index⟩, ?_, rfl, rfl⟩
      exact List.mem_append_right _ (by simp)

theorem emits_loadPlace (h : Ready c K P A g) {place : Place}
    (hplace : SafePlace c g.addresses A place) :
    Emits c P (access place.subscript >>= fun _ => createLoad .i32 place.address) K A g
      fun v A' => c.HasTy A' v .i32 := by
  have hready := (h.accessed place.subscript).define (i := fun r => .load r .i32 place.address)
    rfl rfl ⟨.inl rfl, hplace.ty⟩
    ⟨by simp, fun address haddress => by
      cases haddress
      exact hplace.allowed⟩
  refine ⟨K, _, ?_, hready, subset_gives _ A, rfl, .inr (.inl ⟨_, _, rfl, rfl, rfl⟩)⟩
  refine Next.accessed (i := .load g.builder.nextReg .i32 place.address) rfl h.at_.born rfl ?_
    (.define c _ K _ fun r => .load r .i32 place.address)
  intro index hindex hchecks
  rw [h.facts_here]
  exact hplace.sign index hindex hchecks

theorem emits_storePlace (h : Ready c K P A g) {place : Place} {value : Operand}
    (hplace : SafePlace c g.addresses A place) (hvalue : c.HasTy A value .i32) :
    Emits c P (access place.subscript >>= fun _ => emit (.store value place.address)) K A g
      fun _ _ => True := by
  have hready := (h.accessed place.subscript).emit (i := .store value place.address)
    rfl rfl ⟨.inl hvalue, hplace.ty⟩
    ⟨by simp, fun address haddress => by
      cases haddress
      exact hplace.allowed⟩
  refine ⟨K, _, ?_, hready, subset_gives _ A, rfl, trivial⟩
  refine Next.accessed (i := .store value place.address) rfl h.at_.born rfl ?_
    (.append c _ K _ (.store value place.address))
  intro index hindex hchecks
  rw [h.facts_here]
  exact hplace.sign index hindex hchecks

theorem emits_emitVar (hc : c.Proper) {head : VarHead} {symbol : Symbol}
    {index : Option (IRGenM Operand)} (hhead : head.Resolved c.visible symbol)
    (htype : head.info.type ≠ .intArray)
    (hindex : ∀ action, index = some action → EmitsInt c P action) :
    EmitsInt c P (emitVar c.options head index) := by
  intro K A g h
  unfold emitVar
  rw [if_neg htype]
  refine (emits_elementAddress hc h hhead hindex).bind ?_
  rintro _ K1 A1 g1 hready1 hmore1 haddresses1 ⟨place, rfl, hplace⟩
  exact emits_loadPlace hready1 (haddresses1 ▸ hplace)

theorem emits_emitAssign (hc : c.Proper) {head : VarHead} {symbol : Symbol}
    {index : Option (IRGenM Operand)} {value : IRGenM Operand}
    (hhead : head.Resolved c.visible symbol)
    (hindex : ∀ action, index = some action → EmitsInt c P action)
    (hvalue : EmitsInt c P value) :
    EmitsInt c P (emitAssign c.options head index value) := by
  intro K A g h
  unfold emitAssign
  refine (emits_elementAddress hc h hhead hindex).bind ?_
  rintro _ K1 A1 g1 hready1 hmore1 haddresses1 ⟨place, rfl, hplace⟩
  refine (hvalue K1 A1 g1 hready1).bind ?_
  intro v K2 A2 g2 hready2 hmore2 haddresses2 hv
  have hplace2 : SafePlace c g2.addresses A2 place := by
    rw [haddresses2, haddresses1]
    exact hplace.mono hmore2
  refine Emits.assoc ((emits_storePlace hready2 hplace2 hv).bind ?_)
  intro _ K3 A3 g3 hready3 hmore3 _ _
  exact emits_pure hready3 (hv.mono hmore3)

theorem emits_emitBinary {op : BinaryOp} {lhs rhs : IRGenM Operand}
    (hlhs : EmitsInt c P lhs) (hrhs : EmitsInt c P rhs) :
    EmitsInt c P (emitBinary op lhs rhs) := by
  intro K A g h
  unfold emitBinary
  refine (hlhs K A g h).bind ?_
  intro x K1 A1 g1 hready1 hmore1 _ hx
  refine (hrhs K1 A1 g1 hready1).bind ?_
  intro y K2 A2 g2 hready2 hmore2 _ hy
  have hx2 := hx.mono hmore2
  have hcompare : ∀ pred, Emits c P (createICmp pred x y >>= createZExt) K2 A2 g2
      fun v A' => c.HasTy A' v .i32 := by
    intro pred
    refine (emits_createICmp hready2 hx2 hy).bind ?_
    intro v K3 A3 g3 hready3 hmore3 _ hv
    exact emits_createZExt hready3 hv
  cases op with
  | add | sub | mul | div => exact emits_createBinary hready2 hx2 hy
  | lessThan | lessEqual | greaterThan | greaterEqual | equal | notEqual => exact hcompare _

theorem emits_arrayBase (h : Ready c K P A g) {symbol : Symbol}
    (hvisible : symbol ∈ c.visible) (hfun : symbol.isFunction = false) :
    Emits c P (arrayBase c.options symbol) K A g fun v A' => c.HasTy A' v .ptr := by
  unfold arrayBase
  refine (emits_addressOf h hvisible hfun).bind ?_
  rintro _ K1 A1 g1 hready1 hmore1 haddresses1 ⟨address, rfl, hmem, hty⟩
  dsimp only
  split
  · exact emits_createLoad hready1 (.inr rfl) hty
      (.inl ⟨symbol.id, haddresses1 ▸ hmem⟩)
  · refine emits_createGEP hready1 hty (.inr ⟨⟨_, rfl⟩, rfl⟩) ?_
    intro i hi
    rcases List.mem_pair.mp hi with rfl | rfl
    · exact indexZero_ty
    · exact indexZero_ty

/-- An expression of array type is the bare name of an array. -/
theorem bare_of_array (hc : c.Proper) {e : Expr} (he : e.Resolved c.visible)
    (htype : e.type = .intArray) :
    ∃ head symbol, e = .var head none ∧ head.Resolved c.visible symbol ∧
      symbol.type = .intArray := by
  cases e with
  | num info value =>
      change info.type = .int at he
      change info.type = .intArray at htype
      rw [he] at htype
      cases htype
  | var head index =>
      cases index with
      | none =>
          obtain ⟨symbol, hhead, hsame⟩ := he
          exact ⟨head, symbol, rfl, hhead, hsame.symm.trans htype⟩
      | some index =>
          obtain ⟨-, hint, -⟩ := he
          change head.info.type = .intArray at htype
          rw [hint] at htype
          cases htype
  | call info callee args symbol =>
      obtain ⟨⟨f, hmem, -, hfun, -, hreturn, -⟩, -⟩ := he
      change info.type = .intArray at htype
      rw [hreturn] at htype
      exact absurd htype (hc.returns f (hc.visible f hmem hfun))
  | assign info opLoc target index value =>
      have hint : info.type = .int := by
        cases index with
        | none => exact he.2.2.1
        | some index => exact he.2.2.1
      change info.type = .intArray at htype
      rw [hint] at htype
      cases htype
  | binary info op opLoc lhs rhs =>
      change info.type = .intArray at htype
      rw [he.1] at htype
      cases htype

theorem signatureOf_params (symbol : Symbol) :
    (signatureOf symbol).params = symbol.paramTypes.map paramTy := rfl

theorem signatureOf_returnType (symbol : Symbol) :
    (signatureOf symbol).returnType = .void ∨ (signatureOf symbol).returnType = .i32 := by
  unfold signatureOf
  dsimp only
  split
  · exact .inr rfl
  · split
    · exact .inl rfl
    · exact .inr rfl

theorem signatureOf_int {symbol : Symbol} (h : symbol.returnType = .int) :
    (signatureOf symbol).returnType = .i32 := by
  unfold signatureOf
  dsimp only
  rw [h]
  split <;> rfl

mutual

theorem emits_emitExpr (hc : c.Proper) :
    ∀ (e : Expr) {K : Nat → Set Fact} {A : Set Fact} {g : IRGenerator},
      Ready c K P A g → e.Resolved c.visible → e.type ≠ .intArray →
      Emits c P (emitExpr c.options e) K A g fun v A' =>
        e.type = .int → c.HasTy A' v .i32
  | .num _ value, K, A, g, h, _, _ => by
      unfold emitExpr
      exact emits_pure h fun _ => rfl
  | .var head none, K, A, g, h, he, htype => by
      obtain ⟨symbol, hhead, -⟩ := he
      unfold emitExpr emitIndex
      exact (emits_emitVar hc hhead htype (fun _ hnone => by cases hnone) K A g h).mono
        fun v A' _ hv _ => hv
  | .var head (some index), K, A, g, h, he, htype => by
      obtain ⟨⟨symbol, hhead, -⟩, -, hindex, hint⟩ := he
      unfold emitExpr emitIndex
      refine (emits_emitVar hc hhead htype ?_ K A g h).mono fun v A' _ hv _ => hv
      rintro _ ⟨⟩
      exact emits_int hc index hindex hint
  | .assign _ _ target none value, K, A, g, h, he, _ => by
      obtain ⟨⟨symbol, hhead, -⟩, -, -, hvalue, hint⟩ := he
      unfold emitExpr emitIndex
      exact (emits_emitAssign hc hhead (fun _ hnone => by cases hnone)
        (emits_int hc value hvalue hint) K A g h).mono fun v A' _ hv _ => hv
  | .assign _ _ target (some index) value, K, A, g, h, he, _ => by
      obtain ⟨⟨symbol, hhead, -⟩, -, -, ⟨hindex, hindexInt⟩, hvalue, hint⟩ := he
      unfold emitExpr emitIndex
      refine (emits_emitAssign hc hhead ?_ (emits_int hc value hvalue hint) K A g h).mono
        fun v A' _ hv _ => hv
      rintro _ ⟨⟩
      exact emits_int hc index hindex hindexInt
  | .binary _ op _ lhs rhs, K, A, g, h, he, _ => by
      obtain ⟨-, ⟨hlhs, hlint⟩, hrhs, hrint⟩ := he
      unfold emitExpr
      exact (emits_emitBinary (emits_int hc lhs hlhs hlint) (emits_int hc rhs hrhs hrint)
        K A g h).mono fun v A' _ hv _ => hv
  | .call info callee args symbol, K, A, g, h, he, _ => by
      obtain ⟨⟨f, hmem, rfl, hfun, -, hreturn, htypes⟩, hargs⟩ := he
      have hlisted := hc.visible f hmem hfun
      have hvoid := hc.params f hlisted
      unfold emitExpr emitCall
      obtain ⟨hnext, hready, -, hdiags, hcallee⟩ := run_functionFor hc h hlisted
      refine Emits.of_run (hnext _) subset_rfl hdiags ?_
      obtain ⟨K', A', hnext', hready', hmore, hdiags', htyped⟩ :=
        emits_emitArgs hc args f.paramTypes hready hargs htypes hvoid
      refine Emits.of_run hnext' hmore hdiags' ?_
      refine (emits_createCall hready' (hcallee.mono hnext'.functions_prefix)
        (hc.getFunction_symbol hlisted) (signatureOf_returnType f) htyped).mono ?_
      intro v B _ hv hint
      exact hv (signatureOf_int (hreturn.symm.trans hint))

theorem emits_int (hc : c.Proper) :
    ∀ (e : Expr), e.Resolved c.visible → e.type = .int →
      EmitsInt c P (emitExpr c.options e)
  | e, he, hint => fun K A g h =>
      (emits_emitExpr hc e h he (by rw [hint]; simp)).mono fun v A' _ hv => hv hint

theorem emits_emitArgs (hc : c.Proper) :
    ∀ (args : List Expr) (types : List CType) {K : Nat → Set Fact} {A : Set Fact}
      {g : IRGenerator}, Ready c K P A g → ResolvedArgs c.visible args →
      args.map Expr.type = types → .void ∉ types →
      Emits c P (emitArgs c.options types args) K A g fun vs A' =>
        List.Forall₂ (fun v ty => c.HasTy A' v ty) vs (types.map paramTy)
  | [], types, K, A, g, h, _, htypes, _ => by
      subst htypes
      unfold emitArgs
      exact emits_pure h .nil
  | arg :: args, types, K, A, g, h, hargs, htypes, hvoid => by
      subst htypes
      obtain ⟨harg, hargs⟩ := hargs
      rw [List.map_cons, List.mem_cons, not_or] at hvoid
      have hfirst : Emits c P
          (match arrayArgument (decide (arg.type = .intArray)) arg with
            | some symbol => arrayBase c.options symbol
            | none => emitExpr c.options arg) K A g
          fun v A' => c.HasTy A' v (paramTy arg.type) := by
        by_cases harray : arg.type = .intArray
        · obtain ⟨head, symbol, rfl, ⟨hsymbol, hvisible, hfun, -⟩, -⟩ :=
            bare_of_array hc harg harray
          simp only [harray, decide_true, arrayArgument, if_true, hsymbol]
          exact emits_arrayBase h hvisible hfun
        · have hint : arg.type = .int := by
            cases htype : arg.type with
            | int => rfl
            | void => exact absurd htype.symm hvoid.1
            | intArray => exact absurd htype harray
          have hnone : arrayArgument false arg = none := by
            cases arg <;> rfl
          simp only [harray, decide_false, hnone]
          rw [hint]
          exact emits_int hc arg harg hint K A g h
      have hsplit : emitArgs c.options (arg.type :: args.map Expr.type) (arg :: args) =
          (match arrayArgument (decide (arg.type = .intArray)) arg with
            | some symbol => arrayBase c.options symbol
            | none => emitExpr c.options arg) >>= fun first =>
              emitArgs c.options (args.map Expr.type) args >>= fun others =>
                pure (first :: others) := by
        conv_lhs => unfold emitArgs
        simp only [List.head?_cons, Option.some.injEq, List.tail_cons]
        cases arrayArgument (decide (arg.type = .intArray)) arg <;> rfl
      rw [List.map_cons, hsplit]
      refine hfirst.bind ?_
      intro v K1 A1 g1 hready1 hmore1 _ hv
      refine (emits_emitArgs hc args _ hready1 hargs rfl hvoid.2).bind ?_
      intro vs K2 A2 g2 hready2 hmore2 _ hvs
      exact emits_pure hready2 (.cons (hv.mono hmore2) hvs)

end

end IRGenerator

end CMinus
