import CMinus.IRGen.PairedExpr

namespace CMinus

namespace IRGenerator

open SSA IR

/-! Statements: the insertion points may be a pair afterwards or not. -/

abbrev Proceeds (w : Pairing) (action action' : IRGenM Unit) : Prop :=
  Leads (fun _ => True) w action action' fun _ _ _ => True

variable {exit : Bool → Prop} {w : Pairing} {P : List (Nat × Nat)} {now : Bool}
  {g g' : IRGenerator}

theorem proceeds_pure : Proceeds w (pure ()) (pure ()) :=
  (evaluates_pure fun _ _ => trivial).mono (fun _ _ => trivial) fun _ _ _ _ h => h

theorem proceeds_of_evaluates {α : Type} {action action' : IRGenM α}
    {R : Pairing → α → α → Prop} (h : Evaluates w action action' R) :
    Proceeds w (do let _ ← action) (do let _ ← action') := by
  refine h.bind ?_
  intro v _ a a' _
  exact proceeds_pure

/-- The second action, if the first one left the block open. -/
theorem Leads.unlessClosed {first first' next next' : IRGenM Unit}
    (hfirst : Proceeds w first first') (hnext : Leads exit w next next' fun _ _ _ => True)
    (hexit : exit false) :
    Leads exit w (do first; unlessClosed next) (do first'; unlessClosed next')
      fun _ _ _ => True := by
  constructor
  intro v hle P g g' hpaired
  obtain ⟨u, now, honward, hpaired', -, -⟩ := hfirst.run v hle P g g' hpaired
  have hrun : ∀ (action : IRGenM Unit) (k : IRGenerator),
      IRGenerator.unlessClosed action k = if k.builder.blockOpen then action k else ((), k) := by
    intro action k
    change (if k.builder.blockOpen = true then action else pure PUnit.unit : IRGenM Unit) k = _
    split <;> rfl
  change ∃ u now, Onward v u g g' (IRGenerator.unlessClosed next (first g).2).2
      (IRGenerator.unlessClosed next' (first' g').2).2 ∧
    Paired u P now (IRGenerator.unlessClosed next (first g).2).2
      (IRGenerator.unlessClosed next' (first' g').2).2 ∧ exit now ∧ True
  rw [hrun, hrun, hpaired'.plain, hpaired'.guarded]
  cases now with
  | false => exact ⟨u, false, honward, hpaired', hexit, trivial⟩
  | true =>
      obtain ⟨u', now, honward', hrest⟩ :=
        hnext.run u (hle.trans honward.le) P _ _ hpaired'
      exact ⟨u', now, honward.trans honward', hrest⟩

/-! Blocks. -/

theorem Paired.newBlock (h : Paired w P now g g') :
    Paired (w.addBlock g.builder.nextBlock g'.builder.nextBlock)
      ((g.builder.nextBlock, g'.builder.nextBlock) :: P) now
      { g with builder := g.builder.newBlock } { g' with builder := g'.builder.newBlock } :=
  ⟨h.toAligned.newBlock, h.plain, h.guarded⟩

theorem Paired.attach (h : Paired w P now g g') (b c : Nat) :
    Paired w P now { g with builder := g.builder.attach b }
      { g' with builder := g'.builder.attach c } :=
  ⟨h.toAligned.attach b c, h.plain, h.guarded⟩

/-- A block that waits is filled, and left for another one. -/
def arm (block next : Nat) (stmt : IRGenM Unit) : IRGenM Unit := do
  setInsertPoint block
  stmt
  unlessClosed (emit (.br next))

theorem Aligned.arm {b c : Nat} (h : Aligned w ((b, c) :: P) false g g') {next next' : Nat}
    (hnext : w.block next next') {stmt stmt' : IRGenM Unit} (hstmt : Proceeds w stmt stmt') :
    ∃ u, Onward w u g g' (arm b next stmt g).2 (arm c next' stmt' g').2 ∧
      Paired u P false (arm b next stmt g).2 (arm c next' stmt' g').2 := by
  have hleave : Leads (· = false) w (emit (.br next)) (emit (.br next')) fun _ _ _ => True :=
    leads_close (fun _ hle => .br (Pairing.block_mono hle hnext)) rfl
  obtain ⟨u, _, honward, hpaired, rfl, -⟩ :=
    (hstmt.unlessClosed hleave rfl).run w le_rfl P _ _ h.start
  exact ⟨u, ⟨honward.le, honward.layout, honward.layout'⟩, hpaired⟩

theorem proceeds_emitIf {cond cond' : IRGenM Operand} (hcond : Agree w cond cond')
    {stmt stmt' : IRGenM Unit} (hstmt : Proceeds w stmt stmt') :
    Proceeds w (emitIf cond stmt none) (emitIf cond' stmt' none) := by
  constructor
  intro v hle P g g' hpaired
  obtain ⟨u1, _, honward1, hpaired1, rfl, hsame⟩ := hcond.run v hle P g g' hpaired
  let g1 := (cond g).2
  let g1' := (cond' g').2
  let thenBlock := g1.builder.nextBlock
  let thenBlock' := g1'.builder.nextBlock
  have hpaired2 := hpaired1.newBlock.attach thenBlock thenBlock'
  have hpaired3 := hpaired2.newBlock
  have hle2 := u1.le_addBlock thenBlock thenBlock'
  have hle3 := (u1.addBlock thenBlock thenBlock').le_addBlock (thenBlock + 1) (thenBlock' + 1)
  let u3 := (u1.addBlock thenBlock thenBlock').addBlock (thenBlock + 1) (thenBlock' + 1)
  have hthen : u3.block thenBlock thenBlock' := .inl (.inr ⟨rfl, rfl⟩)
  have hend : u3.block (thenBlock + 1) (thenBlock' + 1) := .inr ⟨rfl, rfl⟩
  have hpaired4 := hpaired3.close
    (Instr.Same.condBr (hsame.mono (hle2.trans hle3)) hthen hend) rfl
  have hstmt' := hstmt.later (hle.trans (honward1.le.trans (hle2.trans hle3)))
  obtain ⟨u5, honward5, hpaired5⟩ :=
    (hpaired4.toAligned.perm (.swap _ _ _)).arm hend hstmt'
  have hpaired6 := (hpaired5.attach (thenBlock + 1) (thenBlock' + 1)).toAligned.start
  refine ⟨u5, true, ⟨honward1.le.trans (hle2.trans (hle3.trans honward5.le)), ?_, ?_⟩, hpaired6,
    trivial, trivial⟩
  · exact honward1.layout.trans ((List.prefix_append _ _).trans
      (honward5.layout.trans (List.prefix_append _ _)))
  · exact honward1.layout'.trans ((List.prefix_append _ _).trans
      (honward5.layout'.trans (List.prefix_append _ _)))

theorem proceeds_emitIfElse {cond cond' : IRGenM Operand} (hcond : Agree w cond cond')
    {stmt stmt' other other' : IRGenM Unit} (hstmt : Proceeds w stmt stmt')
    (hother : Proceeds w other other') :
    Proceeds w (emitIf cond stmt (some other)) (emitIf cond' stmt' (some other')) := by
  constructor
  intro v hle P g g' hpaired
  obtain ⟨u1, _, honward1, hpaired1, rfl, hsame⟩ := hcond.run v hle P g g' hpaired
  let g1 := (cond g).2
  let g1' := (cond' g').2
  let n := g1.builder.nextBlock
  let n' := g1'.builder.nextBlock
  have hpaired2 := hpaired1.newBlock.attach n n'
  have hpaired3 := hpaired2.newBlock.attach (n + 1) (n' + 1)
  have hpaired4 := hpaired3.newBlock
  let u2 := u1.addBlock n n'
  let u3 := u2.addBlock (n + 1) (n' + 1)
  let u4 := u3.addBlock (n + 2) (n' + 2)
  have hle4 : u1 ≤ u4 := (u1.le_addBlock n n').trans
    ((u2.le_addBlock (n + 1) (n' + 1)).trans (u3.le_addBlock (n + 2) (n' + 2)))
  have hthen : u4.block n n' := .inl (.inl (.inr ⟨rfl, rfl⟩))
  have helse : u4.block (n + 1) (n' + 1) := .inl (.inr ⟨rfl, rfl⟩)
  have hend : u4.block (n + 2) (n' + 2) := .inr ⟨rfl, rfl⟩
  have hpaired5 := hpaired4.close (Instr.Same.condBr (hsame.mono hle4) hthen helse) rfl
  have hlater := hle.trans (honward1.le.trans hle4)
  have hperm : [(n + 2, n' + 2), (n + 1, n' + 1), (n, n')].Perm
      [(n, n'), (n + 1, n' + 1), (n + 2, n' + 2)] :=
    List.reverse_perm [(n, n'), (n + 1, n' + 1), (n + 2, n' + 2)]
  obtain ⟨u6, honward6, hpaired6⟩ :=
    (hpaired5.toAligned.perm (hperm.append_right P)).arm hend (hstmt.later hlater)
  obtain ⟨u7, honward7, hpaired7⟩ := hpaired6.toAligned.arm
    (Pairing.block_mono honward6.le hend) (hother.later (hlater.trans honward6.le))
  have honward := honward6.trans honward7
  have hpaired8 := (hpaired7.attach (n + 2) (n' + 2)).toAligned.start
  refine ⟨u7, true, ⟨honward1.le.trans (hle4.trans honward.le), ?_, ?_⟩, hpaired8, trivial,
    trivial⟩
  · exact honward1.layout.trans ((List.prefix_append _ _).trans ((List.prefix_append _ _).trans
      (honward.layout.trans (List.prefix_append _ _))))
  · exact honward1.layout'.trans ((List.prefix_append _ _).trans ((List.prefix_append _ _).trans
      (honward.layout'.trans (List.prefix_append _ _))))

theorem proceeds_emitWhile {cond cond' : IRGenM Operand} (hcond : Agree w cond cond')
    {body body' : IRGenM Unit} (hbody : Proceeds w body body') :
    Proceeds w (emitWhile cond body) (emitWhile cond' body') := by
  constructor
  intro v hle P g g' hpaired
  let n := g.builder.nextBlock
  let n' := g'.builder.nextBlock
  have hpaired1 := hpaired.newBlock.attach n n'
  have hpaired2 := hpaired1.newBlock.attach (n + 1) (n' + 1)
  have hpaired3 := hpaired2.newBlock.attach (n + 2) (n' + 2)
  let u1 := v.addBlock n n'
  let u2 := u1.addBlock (n + 1) (n' + 1)
  let u3 := u2.addBlock (n + 2) (n' + 2)
  have hle3 : v ≤ u3 := (v.le_addBlock n n').trans
    ((u1.le_addBlock (n + 1) (n' + 1)).trans (u2.le_addBlock (n + 2) (n' + 2)))
  have hcondBlock : u3.block n n' := .inl (.inl (.inr ⟨rfl, rfl⟩))
  have hbodyBlock : u3.block (n + 1) (n' + 1) := .inl (.inr ⟨rfl, rfl⟩)
  have hend : u3.block (n + 2) (n' + 2) := .inr ⟨rfl, rfl⟩
  have hpaired4 := hpaired3.close (Instr.Same.br hcondBlock) rfl
  have hperm : [(n + 2, n' + 2), (n + 1, n' + 1), (n, n')].Perm
      [(n, n'), (n + 1, n' + 1), (n + 2, n' + 2)] :=
    List.reverse_perm [(n, n'), (n + 1, n' + 1), (n + 2, n' + 2)]
  have hpaired5 := (hpaired4.toAligned.perm (hperm.append_right P)).start
  obtain ⟨u6, _, honward6, hpaired6, rfl, hsame⟩ := hcond.run u3 (hle.trans hle3) _ _ _ hpaired5
  have hpaired7 := hpaired6.close (Instr.Same.condBr hsame
    (Pairing.block_mono honward6.le hbodyBlock) (Pairing.block_mono honward6.le hend)) rfl
  obtain ⟨u8, honward8, hpaired8⟩ := hpaired7.toAligned.arm
    (Pairing.block_mono honward6.le hcondBlock)
    (hbody.later (hle.trans (hle3.trans honward6.le)))
  have hpaired9 := hpaired8.toAligned.start
  refine ⟨u8, true, ⟨hle3.trans (honward6.le.trans honward8.le), ?_, ?_⟩, hpaired9, trivial,
    trivial⟩
  · exact (List.prefix_append _ _).trans ((List.prefix_append _ _).trans
      ((List.prefix_append _ _).trans (honward6.layout.trans honward8.layout)))
  · exact (List.prefix_append _ _).trans ((List.prefix_append _ _).trans
      ((List.prefix_append _ _).trans (honward6.layout'.trans honward8.layout')))

/-! Every statement. -/

theorem proceeds_emitReturn {value value' : Option (IRGenM Operand)}
    (hvalue : Option.Rel (Agree w) value value') :
    Proceeds w (emitReturn value) (emitReturn value') := by
  have hleave : ∀ {v : Pairing} {i i' : Instr}, (∀ u, v ≤ u → i.Same u i') →
      i.isTerminator = true → Proceeds v (emit i) (emit i') := by
    intro v i i' hsame hterm
    exact (leads_close hsame hterm).mono (fun _ _ => trivial) fun _ _ _ _ h => h
  refine evaluates_getCurrentFunction.bind ?_
  intro v hle f f' hreturns
  rw [hreturns]
  split
  · cases hvalue with
    | none => exact hleave (fun _ _ => .ret) rfl
    | some hvalue =>
        refine (hvalue.later hle).bind ?_
        intro u _ _ _ _
        exact hleave (fun _ _ => .ret) rfl
  · cases hvalue with
    | none => exact hleave (fun _ _ => .retValue (.other _ rfl)) rfl
    | some hvalue =>
        refine (hvalue.later hle).bind ?_
        intro u _ x x' hx
        exact hleave (fun _ hu => .retValue (hx.mono hu)) rfl

section

variable {options options' : IRGenOptions} {V : List Symbol}

theorem evaluates_emitCondition (hsides : Sides options options') (hV : Others V) {e : Expr}
    (he : e.Resolved V) :
    Agree w (emitCondition options e) (emitCondition options' e) := by
  refine (evaluates_emitExpr hsides hV he).bind ?_
  intro v _ value value' hvalue
  exact evaluates_createICmp .ne hvalue (.other _ rfl)

mutual

theorem proceeds_emitStmt (hsides : Sides options options') (hV : Others V)
    {returnType : CType} : ∀ {stmt : Stmt}, stmt.Resolved V returnType →
      Proceeds w (emitStmt options stmt) (emitStmt options' stmt)
  | .compound _ _ _, h => proceeds_emitCompound hsides hV h
  | .expr _ none, _ => proceeds_pure
  | .expr _ (some _), h => proceeds_of_evaluates (evaluates_emitExpr hsides hV h)
  | .ifs _ _ _ none, ⟨⟨hcond, _⟩, hthen⟩ =>
      proceeds_emitIf (evaluates_emitCondition hsides hV hcond)
        (proceeds_emitStmt hsides hV hthen)
  | .ifs _ _ _ (some _), ⟨⟨hcond, _⟩, hthen, helse⟩ =>
      proceeds_emitIfElse (evaluates_emitCondition hsides hV hcond)
        (proceeds_emitStmt hsides hV hthen) (proceeds_emitStmt hsides hV helse)
  | .whiles _ _ _, ⟨⟨hcond, _⟩, hbody⟩ =>
      proceeds_emitWhile (evaluates_emitCondition hsides hV hcond)
        (proceeds_emitStmt hsides hV hbody)
  | .ret _ none, _ => proceeds_emitReturn .none
  | .ret _ (some _), ⟨_, hvalue, _⟩ =>
      proceeds_emitReturn (.some (evaluates_emitExpr hsides hV hvalue))

theorem proceeds_emitCompound (hsides : Sides options options') (hV : Others V)
    {returnType : CType} : ∀ {stmts : List Stmt}, ResolvedStmts V returnType stmts →
      Proceeds w (emitCompound options stmts) (emitCompound options' stmts)
  | [], _ => proceeds_pure
  | _ :: _, ⟨hstmt, hstmts⟩ =>
      (proceeds_emitStmt hsides hV hstmt).unlessClosed
        (proceeds_emitCompound hsides hV hstmts) trivial

end

end

end IRGenerator

end CMinus
