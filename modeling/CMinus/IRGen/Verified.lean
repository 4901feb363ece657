import CMinus.Driver
import CMinus.IRGen.EmitProgram

namespace CMinus

namespace IRGenerator

open SSA IR

/-! The module that the generator builds is well formed. -/

theorem emittable_of_accepted {source : String} {program : Program}
    (h : Accepted source program) : Emittable program := by
  refine ⟨h.resolved, ?_, fun decl hdecl => h.returnType hdecl⟩
  intro decl hdecl hname
  have hletter := h.letters hdecl '_' (by rw [hname]; decide)
  revert hletter
  decide

/-- A register that is known at a place has been defined on the way to it. -/
theorem typed_after {Γ : Signatures} {f : Function} {A : Set Fact} {code : List Instr}
    {r : Nat} {ty : Ty} (h : .typed r ty ∈ (typing Γ f).after A code) :
    .typed r ty ∈ A ∨ ∃ i ∈ code, i.defines = some r ∧ i.resultTy = some ty := by
  induction code generalizing A with
  | nil => exact .inl h
  | cons i code ih =>
      rcases ih h with hgives | ⟨j, hj, htyped⟩
      · rcases hgives with hA | ⟨q, ty', hdef, hty, heq⟩ | ⟨q, v, -, heq⟩
        · exact .inl hA
        · cases heq
          exact .inr ⟨i, List.mem_cons_self, hdef, hty⟩
        · cases heq
      · exact .inr ⟨j, List.mem_cons_of_mem i hj, htyped⟩

section built

variable {p : Plan} {storage all : List Symbol} {done : List String} {K : Nat → Set Fact}
  {g : IRGenerator}

theorem Built.globalNames (h : Built p storage all done K g) (hfits : p.Fits all) :
    g.module.globals.map GlobalVariable.name = p.globals := by
  rw [hfits.globals]
  exact h.names

theorem Built.functionNames (h : Built p storage all done K g) {f : Function}
    (hf : f ∈ g.functions) : { f with blocks := [] } = indexErrorSignature ∨
      ∃ symbol ∈ p.functions, { f with blocks := [] } = signatureOf symbol := by
  apply (h.declared.signed f hf).imp_right
  exact fun ⟨symbol, hsymbol, hsig, _⟩ =>
    ⟨symbol, hsymbol, hsig⟩

theorem Plan.Fits.signatures_nodup (hfits : p.Fits all) :
    (p.signatures.functions.map Function.name).Nodup := by
  have hproper : (p.scene [] indexErrorSignature 0).Proper := hfits.proper (by simp)
  exact hproper.signatures_nodup

/-- A callee has in the module the type that it was called with. -/
theorem Built.agree (h : Built p storage all done K g) (hfits : p.Fits all) {b : Nat}
    {i : Instr} (hi : i ∈ g.builder.code b) :
    p.signatures.Agree (g.module.signatures p.options.indexBits) i := by
  refine ⟨rfl, h.globalNames hfits, ?_⟩
  rintro r callee args rfl expected hexpected
  obtain ⟨f, hf, rfl⟩ := h.declared.calls b r callee args hi
  refine ⟨f, find_of_names h.declared.names hf, ?_⟩
  obtain ⟨hmem, hname⟩ := getFunction_mem hexpected
  have hlisted : ({ f with blocks := [] } : Function) ∈ p.signatures.functions := by
    rcases h.functionNames hf with herror | ⟨symbol, hsymbol, hsig⟩
    · rw [herror]
      exact List.mem_append_right _ (List.mem_singleton_self _)
    · rw [hsig]
      exact List.mem_append_left _ (List.mem_map_of_mem hsymbol)
  have hsame := List.inj_on_of_nodup_map hfits.signatures_nodup hmem hlisted hname
  rw [hsame]
  exact ⟨rfl, rfl⟩

theorem Complete.reachable {f : Function} {entry : Nat}
    (h : Complete p K g.builder f entry) {b : Nat} (hreach : Reachable g.builder.code entry b) :
    b ∈ f.blocks := by
  obtain ⟨visited, walk⟩ := hreach
  induction walk with
  | nil => exact List.mem_of_mem_head? h.starts
  | snoc _ edge ih =>
      obtain ⟨i, hi, htarget⟩ := edge
      exact (h.branches _ ih i hi _ htarget).1

theorem Built.body (h : Built p storage all done K g) (hfits : p.Fits all) {f : Function}
    {entry : Nat} (hf : Complete p K g.builder f entry) :
    g.module.Body p.options.indexBits f entry := by
  refine ⟨hf.starts, hf.distinct, hf.closed, hf.branches, ?_, ?_⟩
  · intro b hb i hi
    obtain ⟨k, hk⟩ := List.mem_iff_getElem?.mp hi
    have hneeds := ((hf.checks b hb).at hk).1.1
    refine hneeds.transfer (h.agree hfits hi) rfl rfl fun r ty hfact => ?_
    rcases typed_after hfact with hstart | ⟨j, hj, hdef, hty⟩
    · obtain ⟨b', hb', j, hj, hdef, hty⟩ := hf.typed b hb r ty hstart
      exact ⟨r, ty, rfl, b', hb', j, hj, hdef, hty⟩
    · exact ⟨r, ty, rfl, b, hb, j, List.mem_of_mem_take hj, hdef, hty⟩
  · intro b hreach k i hi r hr
    exact (typing_tracks p.signatures f).definedBefore h.valid.ssa
      (fun b hb => hf.checks b (hf.reachable hb)) hf.nothing hreach hi hr

theorem Built.wellFormed (h : Built p storage all done K g) (hfits : p.Fits all) :
    g.module.WellFormed p.options.indexBits := by
  refine ⟨?_, h.valid.ssa, ?_, h.apart⟩
  · rw [List.nodup_append, h.globalNames hfits, hfits.globals]
    refine ⟨h.declared.names, hfits.names.sublist (List.Sublist.map _ List.filter_sublist), ?_⟩
    rintro _ hfunction _ hglobal rfl
    obtain ⟨f, hf, hname⟩ := List.mem_map.mp hfunction
    obtain ⟨variable', hvariable, hname'⟩ := List.mem_map.mp hglobal
    obtain ⟨hmem, hvar⟩ := List.mem_filter.mp hvariable
    rcases h.functionNames hf with herror | ⟨symbol, hsymbol, hsig⟩
    · have hreserved : f.name = kIndexErrorName := congrArg Function.name herror
      refine hfits.reserved ?_
      rw [← hreserved, hname, ← hname']
      exact List.mem_map_of_mem hmem
    · obtain ⟨hsymbolMem, hfun⟩ := hfits.mem_functions.mp hsymbol
      have hsame : f.name = symbol.name := congrArg Function.name hsig
      obtain rfl : symbol = variable' := List.inj_on_of_nodup_map hfits.names hsymbolMem hmem
        (hsame.symm.trans (hname.trans hname'.symm))
      simp [hfun] at hvar
  · intro f hf hblocks
    obtain ⟨entry, hcomplete⟩ := h.complete f hf hblocks
    exact ⟨entry, h.body hfits hcomplete⟩

/-- The functions without a body are those of the runtime. -/
theorem Built.runtime (h : Built p storage all done K g) (hfits : p.Fits all)
    (hcovers : Covers all done) {f : Function} (hf : f ∈ g.functions) (hblocks : f.blocks = []) :
    f = { name := "input", params := [], returnType := .i32 } ∨
      f = { name := "output", params := [.i32], returnType := .void } ∨
      f = { name := kIndexErrorName, params := [.i32], returnType := .void } := by
  have hsame : ({ f with blocks := [] } : Function) = f := by
    rw [← hblocks]
  rcases h.functionNames hf with herror | ⟨symbol, hsymbol, hsig⟩
  · exact .inr (.inr (hsame.symm.trans herror))
  · rw [hsame] at hsig
    obtain ⟨hmem, hfun⟩ := hfits.mem_functions.mp hsymbol
    rcases hcovers.functions symbol hmem hfun with hbuiltin | hdone
    · have hsignature : ∀ symbol ∈ builtinSymbols,
          signatureOf symbol = { name := "input", params := [], returnType := .i32 } ∨
            signatureOf symbol = { name := "output", params := [.i32], returnType := .void } := by
        decide
      rw [hsig]
      exact (hsignature symbol hbuiltin).imp_right .inl
    · refine absurd hblocks ((h.bodies f hf).mpr ?_)
      rw [hsig]
      exact hdone

end built

/-- The module of an accepted program, whatever is asked of it afterwards. -/
theorem emitProgram_wellFormed (options : IRGenOptions) {source : String} {program : Program}
    (h : frontEnd source = some program) :
    (emitProgram options program).module.WellFormed options.indexBits ∧
      (emitProgram options program).fallbacks = [] ∧
      ((emitProgram options program).addresses.map Prod.fst).Nodup ∧
      ((emitProgram options program).addresses.map Prod.snd).Nodup ∧
      (∀ f ∈ (emitProgram options program).functions, f.blocks = [] →
        f = { name := "input", params := [], returnType := .i32 } ∨
        f = { name := "output", params := [.i32], returnType := .void } ∨
        f = { name := kIndexErrorName, params := [.i32], returnType := .void }) ∧
      ∀ verifyModule : Module → Option String,
        (∀ m, m.WellFormed options.indexBits → verifyModule m = none) →
          generateIR verifyModule options program =
            (some (emitProgram options program).module, (emitProgram options program).diags) := by
  have hemittable := emittable_of_accepted (accepted_of_frontEnd h)
  obtain ⟨storage, done, K, hbuilt, hcovers, -⟩ := built_emitProgram options hemittable
  have hfits := fits_planOf options hemittable
  have hwell := hbuilt.wellFormed hfits
  refine ⟨hwell, hbuilt.fallbacks, hbuilt.keysNodup, hbuilt.distinct,
    fun f hf hblocks => hbuilt.runtime hfits hcovers hf hblocks, ?_⟩
  intro verifyModule hverify
  simp only [generateIR, run, hverify _ hwell]

/-- A subscript that the program reads, checked, and a verifier that finds nothing. -/
theorem emitProgram_wellFormed_input :
    ∃ program, frontEnd "int a[3]; void main(void) \x7b a[input()] = 1; \x7d" = some program ∧
      (emitProgram {} program).module.WellFormed 64 ∧
      (emitProgram {} program).fallbacks = [] ∧
      ((emitProgram {} program).addresses.map Prod.fst).Nodup ∧
      ((emitProgram {} program).addresses.map Prod.snd).Nodup ∧
      (∀ f ∈ (emitProgram {} program).functions, f.blocks = [] →
        f = { name := "input", params := [], returnType := .i32 } ∨
        f = { name := "output", params := [.i32], returnType := .void } ∨
        f = { name := kIndexErrorName, params := [.i32], returnType := .void }) ∧
      generateIR (fun _ => none) {} program =
        (some (emitProgram {} program).module, (emitProgram {} program).diags) := by
  have hrun : (frontEnd "int a[3]; void main(void) \x7b a[input()] = 1; \x7d").isSome = true := by
    decide +kernel
  obtain ⟨program, hprogram⟩ := Option.isSome_iff_exists.mp hrun
  obtain ⟨hwell, hfallbacks, hkeys, hdistinct, hruntime, hverified⟩ :=
    emitProgram_wellFormed {} hprogram
  exact ⟨program, hprogram, hwell, hfallbacks, hkeys, hdistinct, hruntime,
    hverified (fun _ => none) fun _ _ => rfl⟩

end IRGenerator

end CMinus
