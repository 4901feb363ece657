import CMinus.Analyzer.Returns
import CMinus.IRGen.DefaultReturn
import CMinus.IRGen.Verified
import CMinus.MLIRGen.DefaultReturn

namespace CMinus

open SSA SemanticAnalyzer

/-! The default return of a function: the warning of the analyzer against what the two
generators make of it. -/

theorem analyzed_of_frontEnd {source : String} {program : Program}
    (h : frontEnd source = some program) : ∃ tree, program = (analyze tree {}).1 ∧
      ∀ d ∈ (analyze tree {}).2.2, d ∈ frontEndDiags source := by
  unfold frontEnd at h
  unfold frontEndDiags
  dsimp only at h ⊢
  split at h
  · cases h
  · next hscan =>
      rw [if_neg hscan]
      cases hparse : (Parser.make (Lexer.tokenize { source := source.toList }).1
          (Lexer.tokenize { source := source.toList }).2.diags).parseProgram with
      | none =>
          rw [hparse] at h
          cases h
      | some result =>
          obtain ⟨tree, parser⟩ := result
          rw [hparse] at h
          dsimp only at h ⊢
          split at h
          · cases h
          · next hparsed =>
              split at h
              · cases h
              · cases h
                rw [if_neg hparsed]
                exact ⟨tree, rfl, fun d hd => List.mem_append_right _ hd⟩

/-- Without the warning the body of an `int` function always returns. -/
theorem alwaysReturns_of_unwarned {source : String} {program : Program}
    (h : frontEnd source = some program) {decl : FunDecl} (hmem : .fun decl ∈ program.decls)
    (hvoid : decl.returnType ≠ .void) (hwarn : endWarning decl ∉ frontEndDiags source) :
    alwaysReturns decl.body.toStmt = true := by
  obtain ⟨tree, rfl, hdiags⟩ := analyzed_of_frontEnd h
  by_contra hreturns
  apply hwarn
  apply hdiags
  exact warns_analyze tree decl hmem hvoid (by simpa using hreturns)

/-- `alwaysReturns` fails exactly where the function of the module reaches a default return,
and exactly where the std flavor makes one. -/
theorem defaultReturn_exact {source : String} {program : Program}
    (h : frontEnd source = some program) {before after : List Decl} {decl : FunDecl}
    (hsplit : program.decls = before ++ .fun decl :: after) (options : IRGenOptions)
    (mlirOptions : MLIRGenOptions) :
    (∃ f ∈ (IRGenerator.emitProgram options program).functions, f.name = decl.name ∧
      ∃ entry, f.blocks.head? = some entry ∧
        (alwaysReturns decl.body.toStmt = false ↔ ∃ b ∈ f.blocks, ∃ k,
          IRGenerator.defaultReturn options decl (IRGenerator.emitDecls options before {}).2 =
            some (b, k) ∧
          ((IRGenerator.emitProgram options program).module.code b)[k]? =
            some (.ret (IRGenerator.defaultValue f)) ∧
          Reachable (IRGenerator.emitProgram options program).module.code entry b)) ∧
    (∃ f, .func f ∈ (MLIRGenerator.emitProgram .std mlirOptions program).module.body ∧
      f.name = decl.name ∧
      (alwaysReturns decl.body.toStmt = false ↔ ∃ b ∈ f.blocks, ∃ k,
        MLIRGenerator.defaultReturn mlirOptions decl
            (MLIRGenerator.emitBefore mlirOptions before) = some (b, k) ∧
          MLIRGenerator.ReturnsDefault (MLIRGenerator.signatureOf decl)
            ((MLIRGenerator.emitProgram .std mlirOptions program).module.code b) k)) ∧
    (decl.returnType ≠ .void → endWarning decl ∉ frontEndDiags source →
      (∀ (M : Type) (memory : MemOps M) (callee : String) (args : List Value)
        (shared : Shared M World) (c : Config M World),
        ((IRGenerator.emitProgram options program).module.machine memory).start callee args
            shared = some c →
          ∀ n, ∀ frame ∈ Machine.frames
              (((IRGenerator.emitProgram options program).module.machine memory).run n c),
            IRGenerator.defaultReturn options decl (IRGenerator.emitDecls options before {}).2 ≠
              some (frame.block, frame.position)) ∧
      MLIRGenerator.defaultReturn mlirOptions decl
        (MLIRGenerator.emitBefore mlirOptions before) = none) := by
  have hemittable := IRGenerator.emittable_of_accepted (accepted_of_frontEnd h)
  obtain ⟨f, hends⟩ := IRGenerator.ends_emitProgram options hemittable hsplit
  obtain ⟨f', hends'⟩ :=
    MLIRGenerator.ends_emitProgram mlirOptions (accepted_of_frontEnd h).resolved hsplit
  have hmem : .fun decl ∈ program.decls := by
    rw [hsplit]
    exact List.mem_append_right _ List.mem_cons_self
  constructor
  · refine ⟨f, hends.listed, hends.name, _, hends.head, ?_⟩
    constructor
    · intro hreturns
      obtain ⟨b, k, hsome, hreach⟩ := hends.reached.mp hreturns
      obtain ⟨hb, hret⟩ := hends.place b k hsome
      exact ⟨b, hb, k, hsome, hret, hreach⟩
    · intro hreturn
      obtain ⟨b, -, k, hsome, -, hreach⟩ := hreturn
      exact hends.reached.mpr ⟨b, k, hsome, hreach⟩
  constructor
  · refine ⟨f', hends'.listed, ?_, ?_⟩
    · rw [hends'.signature]
      rfl
    constructor
    · intro hreturns
      obtain ⟨b, k, hsome⟩ := hends'.decided.mp hreturns
      obtain ⟨hb, hret⟩ := hends'.place b k hsome
      exact ⟨b, hb, k, hsome, hret⟩
    · intro hreturn
      obtain ⟨b, -, k, hsome, -⟩ := hreturn
      exact hends'.decided.mpr ⟨b, k, hsome⟩
  · intro hvoid hwarn
    have hreturns := alwaysReturns_of_unwarned h hmem hvoid hwarn
    constructor
    · intro M memory callee args shared c hstart n frame hframe
      exact IRGenerator.never_defaultReturn options hemittable hsplit hreturns memory hstart n
        hframe
    · cases hplace : MLIRGenerator.defaultReturn mlirOptions decl
          (MLIRGenerator.emitBefore mlirOptions before) with
      | none => rfl
      | some place =>
          have hfalse := hends'.decided.mpr ⟨place.1, place.2, hplace⟩
          rw [hreturns] at hfalse
          cases hfalse

/-- The functions of a program that has two, and nothing else. -/
def twoFunctions : List Decl → Option (FunDecl × FunDecl)
  | [.fun decl, .fun main] => some (decl, main)
  | _ => none

theorem twoFunctions_eq {decls : List Decl} {decl main : FunDecl}
    (h : twoFunctions decls = some (decl, main)) : decls = [.fun decl, .fun main] := by
  unfold twoFunctions at h
  split at h
  · cases h
    rfl
  · cases h

/-- Both arms return, so nothing gets to the `if.end` behind them. -/
theorem defaultReturn_exact_bothArms : ∃ program decl main,
    frontEnd ("int f(int x) \x7b if (x) return 1; else return 2; \x7d " ++
      "void main(void) \x7b output(f(3)); \x7d") = some program ∧
    program.decls = [.fun decl, .fun main] ∧ alwaysReturns decl.body.toStmt = true ∧
    (∃ f ∈ (IRGenerator.emitProgram {} program).functions, f.name = decl.name ∧
      ∃ entry, f.blocks.head? = some entry ∧ ¬ ∃ b ∈ f.blocks, ∃ k,
        IRGenerator.defaultReturn {} decl {} = some (b, k) ∧
        ((IRGenerator.emitProgram {} program).module.code b)[k]? =
          some (.ret (IRGenerator.defaultValue f)) ∧
        Reachable (IRGenerator.emitProgram {} program).module.code entry b) ∧
    MLIRGenerator.defaultReturn {} decl (MLIRGenerator.emitBefore {} []) = none := by
  have hrun : (frontEnd ("int f(int x) \x7b if (x) return 1; else return 2; \x7d " ++
      "void main(void) \x7b output(f(3)); \x7d")).any (fun program =>
        (twoFunctions program.decls).any fun (decl, _) =>
          alwaysReturns decl.body.toStmt && decide (decl.returnType ≠ .void) &&
            decide (endWarning decl ∉ frontEndDiags
              ("int f(int x) \x7b if (x) return 1; else return 2; \x7d " ++
                "void main(void) \x7b output(f(3)); \x7d"))) = true := by
    decide +kernel
  cases hprogram : frontEnd ("int f(int x) \x7b if (x) return 1; else return 2; \x7d " ++
      "void main(void) \x7b output(f(3)); \x7d") with
  | none =>
      rw [hprogram] at hrun
      cases hrun
  | some program =>
      rw [hprogram, Option.any_some, Option.any_eq_true] at hrun
      obtain ⟨⟨decl, main⟩, htwo, hchecked⟩ := hrun
      have hdecls := twoFunctions_eq htwo
      rw [Bool.and_eq_true, Bool.and_eq_true, decide_eq_true_iff, decide_eq_true_iff] at hchecked
      obtain ⟨⟨hreturns, hvoid⟩, hwarn⟩ := hchecked
      have hsplit : program.decls = [] ++ .fun decl :: [.fun main] := hdecls
      obtain ⟨hir, -, hunwarned⟩ := defaultReturn_exact hprogram hsplit {} {}
      obtain ⟨f, hf, hname, entry, hentry, hexact⟩ := hir
      refine ⟨program, decl, main, rfl, hdecls, hreturns, ⟨f, hf, hname, entry, hentry, ?_⟩,
        (hunwarned hvoid hwarn).2⟩
      intro hdefault
      have hfalse := hexact.mpr hdefault
      rw [hreturns] at hfalse
      cases hfalse

end CMinus
