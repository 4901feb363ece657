import CMinus.MLIRGen.Compose

namespace CMinus

namespace MLIRGenerator

open SSA MLIR

/-! Only declarations change what the module lists. -/

structure Keeps {α : Type} (action : MLIRGenM α) : Prop where
  body : ∀ g, (action g).2.body = g.body

variable {α β : Type} {flavor : MLIRFlavor}

theorem keeps_pure (a : α) : Keeps (pure a : MLIRGenM α) := ⟨fun _ => rfl⟩

theorem Keeps.bind {first : MLIRGenM α} {next : α → MLIRGenM β} (hfirst : Keeps first)
    (hnext : ∀ a, Keeps (next a)) : Keeps (first >>= next) := by
  constructor
  intro g
  have hlast := (hnext (first g).1).body (first g).2
  exact hlast.trans (hfirst.body g)

theorem Keeps.before {first : MLIRGenM α} {next : MLIRGenM β} (hfirst : Keeps first)
    (hnext : Keeps next) : Keeps (first >>= fun _ => next) :=
  hfirst.bind fun _ => hnext

theorem keeps_ignores : Ignores Keeps := by
  constructor
  · exact Keeps.bind
  · exact fun hquiet => ⟨hquiet.body⟩

theorem Keeps.unlessClosed {action : MLIRGenM Unit} (h : Keeps action) :
    Keeps (MLIRGenerator.unlessClosed action) :=
  keeps_ignores.unlessClosed h

theorem keeps_setSlot (symbol : Symbol) (slot : TypedValue) : Keeps (setSlot symbol slot) :=
  ⟨fun _ => rfl⟩

theorem keeps_composes (options : MLIRGenOptions) : Composes flavor options Keeps :=
  keeps_ignores.composes options (fun _ => ⟨fun _ => rfl⟩) fun _ => ⟨fun _ => rfl⟩

theorem keeps_emitExpr (options : MLIRGenOptions) (e : Expr) :
    Keeps (emitExpr flavor options e) :=
  (keeps_composes options).emitExpr e

theorem keeps_emitCondition (options : MLIRGenOptions) (cond : Expr) :
    Keeps (emitCondition flavor options cond) :=
  (keeps_composes options).emitCondition cond

mutual

theorem keeps_emitStmt (options : MLIRGenOptions) :
    ∀ stmt : Stmt, Keeps (emitStmt flavor options stmt)
  | .compound _ _ stmts => by
      unfold emitStmt
      exact keeps_emitCompound options stmts
  | .expr _ none => by
      unfold emitStmt
      exact keeps_pure ()
  | .expr _ (some e) => by
      unfold emitStmt
      exact (keeps_emitExpr options e).bind fun _ => keeps_pure ()
  | .ifs _ cond thenStmt none => by
      unfold emitStmt
      apply keeps_ignores.emitIf (keeps_emitCondition options cond)
        (keeps_emitStmt options thenStmt)
      intro action h
      cases h
  | .ifs _ cond thenStmt (some elseStmt) => by
      unfold emitStmt
      apply keeps_ignores.emitIf (keeps_emitCondition options cond)
        (keeps_emitStmt options thenStmt)
      intro action h
      cases h
      exact keeps_emitStmt options elseStmt
  | .whiles _ cond body => by
      unfold emitStmt
      exact keeps_ignores.emitWhile (keeps_emitCondition options cond)
        (keeps_emitStmt options body)
  | .ret _ none => by
      unfold emitStmt
      apply keeps_ignores.emitReturn
      intro action h
      cases h
  | .ret _ (some value) => by
      unfold emitStmt
      apply keeps_ignores.emitReturn
      intro action h
      cases h
      exact keeps_emitExpr options value

theorem keeps_emitCompound (options : MLIRGenOptions) :
    ∀ stmts : List Stmt, Keeps (emitCompound flavor options stmts)
  | [] => by
      unfold emitCompound
      exact keeps_pure ()
  | stmt :: stmts => by
      unfold emitCompound
      exact (keeps_emitStmt options stmt).before (keeps_emitCompound options stmts).unlessClosed

end

theorem keeps_emitParams (params : List ParamDecl) :
    ∀ index : Nat, Keeps (emitParams index params) := by
  induction params with
  | nil => exact fun _ => keeps_pure ()
  | cons param params ih =>
      intro index
      unfold emitParams
      cases param.symbol with
      | none => exact ih (index + 1)
      | some symbol =>
          dsimp only
          split
          · exact (keeps_setSlot _ _).before (ih (index + 1))
          · apply (keeps_ignores.quiet (quiet_define _ _)).bind
            intro slot
            apply (keeps_ignores.emit _).before
            exact (keeps_setSlot _ _).before (ih (index + 1))

theorem keeps_emitLocals (decls : List VarDecl) : Keeps (emitLocals decls) := by
  induction decls with
  | nil => exact keeps_pure ()
  | cons decl decls ih =>
      unfold emitLocals
      cases decl.symbol with
      | none => exact ih
      | some symbol =>
          apply (keeps_ignores.quiet (quiet_define _ _)).bind
          intro slot
          exact (keeps_setSlot _ _).before ih

/-- Only the function that was begun last gets its blocks. -/
theorem finishFunction_body {g : MLIRGenerator} {before : List Definition} {op : FuncOp}
    (hbody : g.body = before ++ [.func op]) (hfresh : ∀ d ∈ before, d.name ≠ op.name) :
    (finishFunction op g).2.body = before ++ [.func { op with blocks := g.builder.layout }] := by
  change g.body.map _ = _
  rw [hbody, List.map_append]
  congr 1
  · refine (List.map_congr_left (g := id) ?_).trans (List.map_id _)
    intro d hd
    cases d with
    | global op => rfl
    | func f => exact if_neg (hfresh _ hd)
  · exact congrArg (fun d => [d]) (if_pos rfl)

theorem keeps_emitDefaultReturn (function : FuncOp) :
    Keeps (emitDefaultReturn flavor function) :=
  keeps_ignores.emitDefaultReturn function

end MLIRGenerator

end CMinus
