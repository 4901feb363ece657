import CMinus.IRGen.Defined

namespace CMinus

namespace Meaning

open SSA

/-! A function that returns no value yields zero, whether it says `return` or falls off its
end. -/

/-- What becomes of the rest of the function: it goes on, or the result is zero. -/
def YieldsZero (m : Eval Flow) : Prop :=
  ∀ s, (m s).Safe (fun _ => True) fun flow _ => resultOf flow = 0

section statements

variable {call : Symbol → List Arg → Eval (BitVec 32)} {a : Activation} {n : Nat}

theorem YieldsZero.after {α : Type} {m : Eval α} {next : α → Eval Flow}
    (hnext : ∀ x, YieldsZero (next x)) : YieldsZero (m >>= next) := by
  intro s
  exact (Outcome.Safe.any (m s)).bind fun x s' _ => hnext x s'

theorem yieldsZero_goesOn : YieldsZero (return .goesOn) := fun _ => rfl

theorem YieldsZero.afterwards {first next : Eval Flow} (hfirst : YieldsZero first)
    (hnext : YieldsZero next) : YieldsZero (afterwards first next) := by
  intro s
  unfold Meaning.afterwards
  apply (hfirst s).bind
  intro flow s' hflow
  cases flow with
  | goesOn => exact hnext s'
  | returns value => exact hflow

theorem YieldsZero.choose {cond : Eval (BitVec 32)} {ifTrue ifFalse : Eval Flow}
    (htrue : YieldsZero ifTrue) (hfalse : YieldsZero ifFalse) :
    YieldsZero (choose cond ifTrue ifFalse) := by
  apply YieldsZero.after
  intro x
  by_cases hx : x = 0
  · rw [if_pos hx]
    exact hfalse
  · rw [if_neg hx]
    exact htrue

theorem YieldsZero.loop {cond : Eval (BitVec 32)} {body : Eval Flow} (hbody : YieldsZero body)
    (fuel : Nat) : YieldsZero (loop cond body fuel) := by
  induction fuel with
  | zero => exact fun _ => trivial
  | succ fuel ih => exact (hbody.afterwards ih).choose yieldsZero_goesOn

mutual

theorem yieldsZero_stmt {V : List Symbol} :
    ∀ {stmt : Stmt}, stmt.Resolved V .void → YieldsZero (evalStmt call a n stmt)
  | .compound _ decls stmts, h => by
      unfold evalStmt
      exact .after fun _ => yieldsZero_stmts h
  | .expr _ none, _ => by
      unfold evalStmt
      exact yieldsZero_goesOn
  | .expr _ (some e), _ => by
      unfold evalStmt
      exact .after fun _ => yieldsZero_goesOn
  | .ifs _ cond thenStmt none, h => by
      unfold evalStmt
      exact (yieldsZero_stmt h.2).choose yieldsZero_goesOn
  | .ifs _ cond thenStmt (some elseStmt), h => by
      unfold evalStmt
      exact (yieldsZero_stmt h.2.1).choose (yieldsZero_stmt h.2.2)
  | .whiles _ cond body, h => by
      unfold evalStmt
      exact (yieldsZero_stmt h.2).loop n
  | .ret _ none, _ => by
      unfold evalStmt
      exact fun _ => rfl
  | .ret _ (some value), h => absurd rfl h.1

theorem yieldsZero_stmts {V : List Symbol} :
    ∀ {stmts : List Stmt}, ResolvedStmts V .void stmts → YieldsZero (evalStmts call a n stmts)
  | [], _ => by
      unfold evalStmts
      exact yieldsZero_goesOn
  | stmt :: stmts, h => by
      unfold evalStmts
      exact (yieldsZero_stmt h.1).afterwards (yieldsZero_stmts h.2)

end

end statements

end Meaning

namespace IRGenerator

open SSA IR Meaning

section

variable {options : IRGenOptions} {program : Program} {junk : Key → Int → Value}

theorem Emittable.run_zero (h : Emittable program) {fuel : Nat} {world : World} {x : BitVec 32}
    {s : State} (hrun : Meaning.run program fuel world = .done x s) : x = 0 := by
  obtain ⟨decl, hlast, -, hvoid, -⟩ := h.resolved.main
  obtain ⟨before, hsplit⟩ := List.getLast?_eq_some_iff.mp hlast
  obtain ⟨globals, symbol, params, locals, hhosted⟩ := hosted_emitProgram {} h hsplit
  have hbody := hhosted.resolved.body
  rw [hvoid] at hbody
  have hsafe : (Meaning.run program fuel world).Safe (fun _ => True) fun y _ => y = 0 := by
    unfold Meaning.run
    rw [hlast]
    unfold invoke
    apply (Outcome.Safe.any (enter program.symbols (initial program world))).bind
    intro a s1 _
    apply (Outcome.Safe.any (bindParams a decl.params [] s1)).bind
    intro _ s2 _
    have hstmt : YieldsZero (evalStmt (callFunction program fuel) a fuel decl.body.toStmt) :=
      yieldsZero_stmt hbody
    exact (hstmt s2).bind fun flow _ hflow => hflow
  rw [hrun] at hsafe
  exact hsafe

/-- The global variables keep what the interpreter's do. -/
def SameGlobals (program : Program) (s : State) (mem : Store) : Prop :=
  ∀ symbol ∈ program.symbols, symbol.isFunction = false → ∀ i x,
    s.cells ⟨symbol, none⟩ i = some x → mem.load ⟨.global symbol.name, i⟩ = .i32 x

end

/-- From `c` on, the machine ends as every run of the program that ends, shows what that shows
and leaves the global variables as that does. -/
structure Preserves (program : Program) (world : World) (m : Machine Instr Store World)
    (c : Config Store World) : Prop where
  finishes : ∀ fuel x s, Meaning.run program fuel world = .done x s → ∃ k shared,
    m.run k c = .stopped (.finished (some (.i32 0))) shared ∧ shared.world = s.world ∧
    SameGlobals program s shared.mem
  exits : ∀ fuel s, Meaning.run program fuel world = .stopped s → ∃ k shared,
    m.run k c = .stopped .exited shared ∧ shared.world = s.world ∧
    SameGlobals program s shared.mem

end IRGenerator

end CMinus
