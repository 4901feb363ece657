import CMinus.IRGen.Represents
import CMinus.IRGen.Returns

namespace CMinus

namespace IRGenerator

open SSA IR Meaning

/-! What is fixed while the body of a function is emitted and one of its calls runs. -/

structure Site where
  setting : Setting
  functions : List Symbol
  visible : List Symbol
  returnType : Ty
  activation : Activation

namespace Site

variable (c : Site)

def scene : Scene where
  options := c.setting.options
  functions := c.functions
  globals := []
  visible := c.visible
  function := default
  entry := 0

structure Proper (c : Site) : Prop where
  setting : c.setting.Proper
  scene : c.scene.Proper

def comparison : Comparison Instr Store World State where
  machine := c.setting.machine
  Agrees := c.setting.Agrees
  mirrors _ := False

/-- The variables in sight have their storage, and their addresses lead to it. -/
def Stands : Known := fun env mem => env.activation = c.activation.number ∧
  ∀ symbol ∈ c.visible, symbol.isFunction = false → ∃ address key,
    c.setting.addresses.lookup symbol.id = some address ∧
    address.eval env = some (.ptr ⟨key, 0⟩) ∧
    c.setting.Stands mem (c.activation.variable symbol) key

end Site

/-! What the generator knows while it emits the body. -/

structure Signed (T : List Symbol) (g : IRGenerator) : Prop where
  keys : ∀ p ∈ g.functionNames, ∃ symbol ∈ T, p = (symbol.id, symbol.name)
  types : ∀ f ∈ g.functions, ∀ symbol ∈ T, f.name = symbol.name →
    f.returnType = (signatureOf symbol).returnType
  report : ∀ f ∈ g.functions, f.name = kIndexErrorName → f.returnType = .void

namespace Site

structure Kept (c : Site) (g : IRGenerator) : Prop where
  addresses : ∀ symbol ∈ c.visible, symbol.isFunction = false → ∃ address,
    g.addresses.lookup symbol.id = some address ∧
    c.setting.addresses.lookup symbol.id = some address ∧ address.Below g.builder.nextReg
  signed : Signed c.functions g
  current : g.currentFunction.map Function.returnType = some c.returnType

structure Emitting (c : Site) (g : IRGenerator) : Prop where
  writing : g.builder.Writing
  kept : c.Kept g

variable {c : Site} {g : IRGenerator}

theorem Kept.later (h : c.Kept g) {g' : IRGenerator} (haddresses : g'.addresses = g.addresses)
    (hregs : g.builder.nextReg ≤ g'.builder.nextReg) (hsigned : Signed c.functions g')
    (hcurrent : g'.currentFunction = g.currentFunction) : c.Kept g' := by
  refine ⟨?_, hsigned, ?_⟩
  · intro symbol hsymbol hvar
    obtain ⟨address, hlookup, hfinal, hbelow⟩ := h.addresses symbol hsymbol hvar
    refine ⟨address, ?_, hfinal, fun r hr => (hbelow r hr).trans_le hregs⟩
    rw [haddresses, hlookup]
  · rw [hcurrent]
    exact h.current

theorem Kept.builder (h : c.Kept g) {s : Builder Instr} (hregs : g.builder.nextReg ≤ s.nextReg) :
    c.Kept { g with builder := s } :=
  h.later rfl hregs ⟨h.signed.keys, h.signed.types, h.signed.report⟩ rfl

end Site

theorem Operand.eval_keeps {v : Operand} {n : Nat} {env env' : SSA.Env} (h : v.Below n)
    (henv : env.Keeps n env') : v.eval env' = v.eval env := by
  cases v with
  | reg r => exact henv.regs r (h r (List.mem_singleton_self r))
  | arg i => exact congrArg (·[i]?) henv.args
  | _ => rfl

namespace Site

variable {c : Site} {g : IRGenerator}

theorem Kept.stands (h : c.Kept g) : Known.Stable g.builder.nextReg c.Stands := by
  constructor
  rintro env env' mem mem' henv hmem ⟨hactivation, hvars⟩
  refine ⟨henv.activation.trans hactivation, ?_⟩
  intro symbol hsymbol hvar
  obtain ⟨address, key, haddress, hvalue, hstands⟩ := hvars symbol hsymbol hvar
  obtain ⟨address', -, hfinal, hbelow⟩ := h.addresses symbol hsymbol hvar
  obtain rfl : address' = address := Option.some.inj (hfinal.symm.trans haddress)
  refine ⟨address', key, haddress, ?_, hstands.later hmem⟩
  rw [Operand.eval_keeps hbelow henv, hvalue]

end Site

/-! What keeps that knowledge. -/

structure Site.Preserves {α : Type} (c : Site) (action : IRGenM α) : Prop where
  kept : ∀ g : IRGenerator, c.Kept g → c.Kept (action g).2
  addresses : ∀ g : IRGenerator, (action g).2.addresses = g.addresses

namespace Site

variable {α β : Type} {c : Site}

theorem Preserves.bind {first : IRGenM α} {next : α → IRGenM β} (h : c.Preserves first)
    (hnext : ∀ a, c.Preserves (next a)) : c.Preserves (first >>= next) :=
  ⟨fun g hg => (hnext _).kept _ (h.kept g hg),
    fun g => ((hnext _).addresses _).trans (h.addresses g)⟩

theorem preserves_pure (a : α) : c.Preserves (pure a : IRGenM α) :=
  ⟨fun _ hg => hg, fun _ => rfl⟩

theorem preserves_modifyBuilder {f : Builder Instr → Builder Instr}
    (h : ∀ s, s.nextReg ≤ (f s).nextReg) : c.Preserves (modifyBuilder f) :=
  ⟨fun _ hg => hg.builder (h _), fun _ => rfl⟩

theorem preserves_emit (i : Instr) : c.Preserves (emit i) :=
  preserves_modifyBuilder fun _ => le_rfl

theorem preserves_define (i : Nat → Instr) : c.Preserves (define i) :=
  ⟨fun _ hg => hg.builder (Nat.le_succ _), fun _ => rfl⟩

theorem preserves_setInsertPoint (block : Nat) : c.Preserves (setInsertPoint block) :=
  preserves_modifyBuilder fun _ => le_rfl

theorem preserves_insertAtEnd (block : Nat) : c.Preserves (insertAtEnd block) :=
  preserves_modifyBuilder fun _ => le_rfl

theorem preserves_newBlock : c.Preserves newBlock :=
  ⟨fun _ hg => hg.builder le_rfl, fun _ => rfl⟩

theorem preserves_createBlock : c.Preserves createBlock :=
  preserves_newBlock.bind fun block =>
    (preserves_insertAtEnd block).bind fun _ => preserves_pure block

theorem preserves_foldOr (folded : Option Operand) (i : Nat → Instr) :
    c.Preserves (foldOr folded i) := by
  cases folded with
  | some v => exact preserves_pure v
  | none => exact preserves_define i

theorem preserves_createCall (callee : Function) (args : List Operand) :
    c.Preserves (createCall callee args) := by
  unfold createCall
  split
  · exact (preserves_emit _).bind fun _ => preserves_pure _
  · exact preserves_define _

theorem preserves_unlessClosed {action : IRGenM Unit} (h : c.Preserves action) :
    c.Preserves (unlessClosed action) := by
  constructor
  · intro g hg
    change c.Kept ((if g.builder.blockOpen = true then action else pure PUnit.unit) g).2
    split
    · exact h.kept g hg
    · exact hg
  · intro g
    change ((if g.builder.blockOpen = true then action else pure PUnit.unit) g).2.addresses = _
    split
    · exact h.addresses g
    · rfl

end Site

/-! The functions that are called. -/

section functions

variable {T : List Symbol} {g : IRGenerator} {symbol : Symbol}

theorem Signed.functionFor (h : Signed T g) (hids : (T.map Symbol.id).Nodup)
    (hnames : (T.map Symbol.name).Nodup) (hreserved : kIndexErrorName ∉ T.map Symbol.name)
    (hsymbol : symbol ∈ T) :
    Signed T (functionFor symbol g).2 ∧ (functionFor symbol g).1.name = symbol.name ∧
      (functionFor symbol g).1.returnType = (signatureOf symbol).returnType := by
  cases hlookup : g.functionNames.lookup symbol.id with
  | some name =>
      have heq : IRGenerator.functionFor symbol g =
          ((getFunction g.functions name).getD (signatureOf symbol), g) := by
        simp only [IRGenerator.functionFor, hlookup]
      obtain ⟨symbol', hsymbol', hpair⟩ := h.keys _ (mem_of_lookup hlookup)
      obtain rfl : symbol = symbol' :=
        List.inj_on_of_nodup_map hids hsymbol hsymbol' (congrArg Prod.fst hpair)
      obtain rfl : name = symbol.name := congrArg Prod.snd hpair
      rw [heq]
      cases hget : getFunction g.functions symbol.name with
      | none => exact ⟨h, rfl, rfl⟩
      | some f =>
          obtain ⟨hmem, hname⟩ := getFunction_mem hget
          exact ⟨h, hname, h.types f hmem symbol hsymbol hname⟩
  | none =>
      have heq : IRGenerator.functionFor symbol g = (signatureOf symbol,
          { g with functions := g.functions ++ [signatureOf symbol]
                   functionNames := (symbol.id, symbol.name) :: g.functionNames }) := by
        simp only [IRGenerator.functionFor, hlookup]
      rw [heq]
      refine ⟨⟨?_, ?_, ?_⟩, rfl, rfl⟩
      · intro p hp
        rcases List.mem_cons.mp hp with rfl | hp
        · exact ⟨symbol, hsymbol, rfl⟩
        · exact h.keys p hp
      · intro f hf symbol' hsymbol' hname
        rcases List.mem_append.mp hf with hf | hf
        · exact h.types f hf symbol' hsymbol' hname
        · rw [List.mem_singleton.mp hf] at hname ⊢
          obtain rfl : symbol = symbol' :=
            List.inj_on_of_nodup_map hnames hsymbol hsymbol' hname
          rfl
      · intro f hf hname
        rcases List.mem_append.mp hf with hf | hf
        · exact h.report f hf hname
        · rw [List.mem_singleton.mp hf] at hname
          exact absurd (hname ▸ List.mem_map_of_mem hsymbol) hreserved

theorem Signed.indexErrorFunction (h : Signed T g)
    (hreserved : kIndexErrorName ∉ T.map Symbol.name) :
    Signed T (indexErrorFunction g).2 ∧ (indexErrorFunction g).1.name = kIndexErrorName ∧
      (indexErrorFunction g).1.returnType = .void := by
  cases hget : getFunction g.functions kIndexErrorName with
  | some existing =>
      have heq : IRGenerator.indexErrorFunction g = (existing, g) := by
        simp only [IRGenerator.indexErrorFunction, hget]
      obtain ⟨hmem, hname⟩ := getFunction_mem hget
      rw [heq]
      exact ⟨h, hname, h.report existing hmem hname⟩
  | none =>
      have heq : IRGenerator.indexErrorFunction g = (indexErrorSignature,
          { g with functions := g.functions ++ [indexErrorSignature] }) := by
        simp only [IRGenerator.indexErrorFunction, hget]
      rw [heq]
      refine ⟨⟨h.keys, ?_, ?_⟩, rfl, rfl⟩
      · intro f hf symbol hsymbol hname
        rcases List.mem_append.mp hf with hf | hf
        · exact h.types f hf symbol hsymbol hname
        · rw [List.mem_singleton.mp hf] at hname
          change kIndexErrorName = symbol.name at hname
          exact absurd (hname ▸ List.mem_map_of_mem hsymbol) hreserved
      · intro f hf hname
        rcases List.mem_append.mp hf with hf | hf
        · exact h.report f hf hname
        · rw [List.mem_singleton.mp hf]
          rfl

end functions

namespace Site

variable {c : Site}

theorem preserves_functionFor (hc : c.Proper) {symbol : Symbol} (hsymbol : symbol ∈ c.functions) :
    c.Preserves (functionFor symbol) := by
  have haddresses : ∀ g, (functionFor symbol g).2.addresses = g.addresses := by
    intro g
    unfold functionFor
    split <;> rfl
  refine ⟨?_, haddresses⟩
  intro g hg
  obtain ⟨hsigned, -, -⟩ :=
    hg.signed.functionFor hc.scene.ids hc.scene.names hc.scene.reserved hsymbol
  refine hg.later (haddresses g) ?_ hsigned ?_
  all_goals
    unfold functionFor
    split <;> rfl

theorem preserves_indexErrorFunction (hc : c.Proper) : c.Preserves indexErrorFunction := by
  have haddresses : ∀ g, (indexErrorFunction g).2.addresses = g.addresses := by
    intro g
    unfold indexErrorFunction
    split <;> rfl
  refine ⟨?_, haddresses⟩
  intro g hg
  obtain ⟨hsigned, -, -⟩ := hg.signed.indexErrorFunction hc.scene.reserved
  refine hg.later (haddresses g) ?_ hsigned ?_
  all_goals
    unfold indexErrorFunction
    split <;> rfl

theorem preserves_checkIndex (hc : c.Proper) (options : IRGenOptions) (value : Operand) :
    c.Preserves (checkIndex options value) := by
  unfold checkIndex
  split
  · exact preserves_pure value
  split
  · exact preserves_pure value
  apply preserves_createBlock.bind
  intro fail
  apply preserves_createBlock.bind
  intro ok
  apply (preserves_foldOr _ _).bind
  intro negative
  apply (preserves_emit _).bind
  intro _
  apply (preserves_setInsertPoint fail).bind
  intro _
  apply (preserves_indexErrorFunction hc).bind
  intro callee
  apply (preserves_createCall callee [value]).bind
  intro _
  apply (preserves_emit _).bind
  intro _
  apply (preserves_setInsertPoint ok).bind
  intro _
  exact preserves_pure value

/-! Expressions. -/

theorem preserves_addressOf (symbol : Symbol) : c.Preserves (addressOf symbol) :=
  ⟨fun _ hg => hg, fun _ => rfl⟩

/-- What only adds to the records. -/
theorem preserves_record {action : IRGenM α} (hbuilder : ∀ g, (action g).2.builder = g.builder)
    (haddresses : ∀ g, (action g).2.addresses = g.addresses)
    (hfunctions : ∀ g, (action g).2.functions = g.functions)
    (hnames : ∀ g, (action g).2.functionNames = g.functionNames)
    (hcurrent : ∀ g, (action g).2.currentFunction = g.currentFunction) : c.Preserves action := by
  refine ⟨?_, haddresses⟩
  intro g hg
  refine hg.later (haddresses g) (by rw [hbuilder]) ⟨?_, ?_, ?_⟩ (hcurrent g)
  · rw [hnames]
    exact hg.signed.keys
  · rw [hfunctions]
    exact hg.signed.types
  · rw [hfunctions]
    exact hg.signed.report

theorem preserves_fallback (name : String) : c.Preserves (fallback name) :=
  preserves_record (fun _ => rfl) (fun _ => rfl) (fun _ => rfl) (fun _ => rfl) fun _ => rfl

theorem preserves_arrayBase (options : IRGenOptions) (symbol : Symbol) :
    c.Preserves (arrayBase options symbol) := by
  unfold arrayBase
  apply (preserves_addressOf symbol).bind
  intro address
  cases address with
  | none => exact (preserves_fallback _).bind fun _ => preserves_pure _
  | some address =>
      dsimp only
      split
      · exact preserves_define _
      · exact preserves_foldOr _ _

theorem preserves_createSExtOrTrunc (bits : Nat) (value : Operand) :
    c.Preserves (createSExtOrTrunc bits value) := by
  unfold createSExtOrTrunc
  split
  · exact preserves_pure value
  · exact preserves_foldOr _ _

section expr

variable (hc : c.Proper) {head : VarHead} {index : Option (IRGenM Operand)}
  (hindex : ∀ action, index = some action → c.Preserves action)
include hc hindex

theorem preserves_elementAddress (options : IRGenOptions) :
    c.Preserves (elementAddress options head index) := by
  unfold elementAddress
  cases head.symbol with
  | none => exact (preserves_fallback _).bind fun _ => preserves_pure _
  | some symbol =>
      apply (preserves_addressOf symbol).bind
      intro address
      cases address with
      | none => exact (preserves_fallback _).bind fun _ => preserves_pure _
      | some address =>
          cases index with
          | none => exact preserves_pure _
          | some action =>
              apply (hindex action rfl).bind
              intro value
              apply (preserves_record (fun _ => rfl) (fun _ => rfl) (fun _ => rfl) (fun _ => rfl)
                fun _ => rfl : c.Preserves (subscript value)).bind
              intro _
              apply (preserves_checkIndex hc options value).bind
              intro checked
              apply (preserves_createSExtOrTrunc _ checked).bind
              intro wide
              split
              · apply (preserves_define _).bind
                intro base
                exact (preserves_foldOr _ _).bind fun _ => preserves_pure _
              · exact (preserves_foldOr _ _).bind fun _ => preserves_pure _

theorem preserves_emitVar (options : IRGenOptions) :
    c.Preserves (emitVar options head index) := by
  unfold emitVar
  split
  · apply (preserves_record (fun _ => rfl) (fun _ => rfl) (fun _ => rfl) (fun _ => rfl)
      fun _ => rfl : c.Preserves (error _ _)).bind
    intro _
    exact preserves_pure _
  · apply (preserves_elementAddress hc hindex options).bind
    intro place
    cases place with
    | none => exact preserves_pure _
    | some place =>
        apply (preserves_record (fun _ => rfl) (fun _ => rfl) (fun _ => rfl) (fun _ => rfl)
          fun _ => rfl : c.Preserves (access place.subscript)).bind
        intro _
        exact preserves_define _

theorem preserves_emitAssign (options : IRGenOptions) {value : IRGenM Operand}
    (hvalue : c.Preserves value) : c.Preserves (emitAssign options head index value) := by
  unfold emitAssign
  apply (preserves_elementAddress hc hindex options).bind
  intro place
  cases place with
  | none => exact hvalue
  | some place =>
      apply hvalue.bind
      intro v
      apply (preserves_record (fun _ => rfl) (fun _ => rfl) (fun _ => rfl) (fun _ => rfl)
        fun _ => rfl : c.Preserves (access place.subscript)).bind
      intro _
      exact (preserves_emit _).bind fun _ => preserves_pure v

end expr

theorem preserves_emitBinary (op : BinaryOp) {lhs rhs : IRGenM Operand} (hlhs : c.Preserves lhs)
    (hrhs : c.Preserves rhs) : c.Preserves (emitBinary op lhs rhs) := by
  unfold emitBinary
  apply hlhs.bind
  intro v
  apply hrhs.bind
  intro w
  cases op with
  | add | sub | mul | div => exact preserves_foldOr _ _
  | _ => exact (preserves_foldOr _ _).bind fun _ => preserves_foldOr _ _

mutual

theorem preserves_emitExpr (hc : c.Proper) (options : IRGenOptions) :
    ∀ e : Expr, e.Resolved c.visible → c.Preserves (emitExpr options e)
  | .num _ _, _ => by
      unfold emitExpr
      exact preserves_pure _
  | .var head none, _ => by
      unfold emitExpr emitIndex
      exact preserves_emitVar hc (fun _ h => by cases h) options
  | .var head (some index), he => by
      unfold emitExpr emitIndex
      refine preserves_emitVar hc ?_ options
      rintro _ ⟨⟩
      exact preserves_emitExpr hc options index he.2.2.1
  | .assign _ _ target none value, he => by
      unfold emitExpr emitIndex
      exact preserves_emitAssign hc (fun _ h => by cases h) options
        (preserves_emitExpr hc options value he.2.2.2.1)
  | .assign _ _ target (some index) value, he => by
      unfold emitExpr emitIndex
      refine preserves_emitAssign hc ?_ options
        (preserves_emitExpr hc options value he.2.2.2.2.1)
      rintro _ ⟨⟩
      exact preserves_emitExpr hc options index he.2.2.2.1.1
  | .binary _ op _ lhs rhs, he => by
      unfold emitExpr
      exact preserves_emitBinary op (preserves_emitExpr hc options lhs he.2.1.1)
        (preserves_emitExpr hc options rhs he.2.2.1)
  | .call _ callee args symbol, he => by
      obtain ⟨⟨f, hmem, rfl, hfun, -⟩, hargs⟩ := he
      unfold emitExpr emitCall
      apply (preserves_functionFor hc (hc.scene.visible f hmem hfun)).bind
      intro function
      exact (preserves_emitArgs hc options _ args hargs).bind fun _ => preserves_createCall _ _

theorem preserves_emitArgs (hc : c.Proper) (options : IRGenOptions) :
    ∀ (paramTypes : List CType) (args : List Expr), ResolvedArgs c.visible args →
      c.Preserves (emitArgs options paramTypes args)
  | _, [], _ => by
      unfold emitArgs
      exact preserves_pure _
  | paramTypes, arg :: args, ⟨harg, hargs⟩ => by
      have hothers : ∀ first, c.Preserves
          (emitArgs options paramTypes.tail args >>= fun others => pure (first :: others)) :=
        fun first => (preserves_emitArgs hc options paramTypes.tail args hargs).bind fun _ =>
          preserves_pure _
      unfold emitArgs
      dsimp only
      split
      · exact (preserves_arrayBase options _).bind hothers
      · exact (preserves_emitExpr hc options arg harg).bind hothers

end

/-! Statements. -/

theorem preserves_emitReturn {value : Option (IRGenM Operand)}
    (h : ∀ action, value = some action → c.Preserves action) :
    c.Preserves (emitReturn value) := by
  unfold emitReturn
  apply (⟨fun _ hg => hg, fun _ => rfl⟩ : c.Preserves getCurrentFunction).bind
  intro function
  split
  · cases value with
    | none => exact preserves_emit _
    | some action => exact (h action rfl).bind fun _ => preserves_emit _
  · cases value with
    | none => exact preserves_emit _
    | some action => exact (h action rfl).bind fun _ => preserves_emit _

theorem preserves_emitIf {cond : IRGenM Operand} {thenStmt : IRGenM Unit}
    {elseStmt : Option (IRGenM Unit)} (hcond : c.Preserves cond) (hthen : c.Preserves thenStmt)
    (helse : ∀ action, elseStmt = some action → c.Preserves action) :
    c.Preserves (emitIf cond thenStmt elseStmt) := by
  have harm : ∀ {action : IRGenM Unit} (block next : Nat) {rest : IRGenM Unit},
      c.Preserves action → c.Preserves rest → c.Preserves (do
        setInsertPoint block
        action
        unlessClosed (emit (.br next))
        rest) := by
    intro action block next rest haction hrest
    apply (preserves_setInsertPoint block).bind
    intro _
    apply haction.bind
    intro _
    apply (preserves_unlessClosed (preserves_emit _)).bind
    intro _
    exact hrest
  have hend : ∀ block, c.Preserves (do
      insertAtEnd block
      setInsertPoint block) := fun block =>
    (preserves_insertAtEnd block).bind fun _ => preserves_setInsertPoint block
  unfold emitIf
  apply hcond.bind
  intro v
  apply preserves_createBlock.bind
  intro thenBlock
  cases elseStmt with
  | none =>
      apply preserves_newBlock.bind
      intro endBlock
      apply (preserves_emit _).bind
      intro _
      exact harm _ _ hthen (hend endBlock)
  | some elseStmt =>
      apply preserves_createBlock.bind
      intro elseBlock
      apply preserves_newBlock.bind
      intro endBlock
      apply (preserves_emit _).bind
      intro _
      exact harm _ _ hthen (harm _ _ (helse _ rfl) (hend endBlock))

theorem preserves_emitWhile {cond : IRGenM Operand} {body : IRGenM Unit}
    (hcond : c.Preserves cond) (hbody : c.Preserves body) : c.Preserves (emitWhile cond body) := by
  unfold emitWhile
  apply preserves_createBlock.bind
  intro condBlock
  apply preserves_createBlock.bind
  intro bodyBlock
  apply preserves_createBlock.bind
  intro endBlock
  apply (preserves_emit _).bind
  intro _
  apply (preserves_setInsertPoint condBlock).bind
  intro _
  apply hcond.bind
  intro v
  apply (preserves_emit _).bind
  intro _
  apply (preserves_setInsertPoint bodyBlock).bind
  intro _
  apply hbody.bind
  intro _
  apply (preserves_unlessClosed (preserves_emit _)).bind
  intro _
  exact preserves_setInsertPoint endBlock

end Site

end IRGenerator

end CMinus
