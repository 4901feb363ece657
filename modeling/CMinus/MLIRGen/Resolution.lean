import CMinus.MLIRGen.Lookup
import CMinus.MLIRGen.Blocks

namespace CMinus

namespace MLIRGenerator

open SSA MLIR

/-! The slots that the first part of a function makes. -/

def entryOf (symbol : Symbol) : Nat × Ty := (symbol.id, storageType symbol)

def slotType (slot : Nat × TypedValue) : Nat × Ty := (slot.1, slot.2.type)

structure Enters (symbols : List Symbol) (action : MLIRGenM Unit) : Prop where
  body : ∀ g, (action g).2.body = g.body
  calls : ∀ g, (action g).2.calls = g.calls
  uses : ∀ g, (action g).2.uses = g.uses
  ops : ∀ g b, g.builder.code b ⊆ (action g).2.builder.code b
  slots : ∀ g, ∃ new, (action g).2.slots = new ++ g.slots ∧
    new.map slotType = (symbols.map entryOf).reverse

theorem enters_nothing : Enters [] (pure ()) := by
  constructor
  · exact fun _ => rfl
  · exact fun _ => rfl
  · exact fun _ => rfl
  · exact fun _ _ => List.Subset.refl _
  · exact fun _ => ⟨[], rfl, rfl⟩

theorem Enters.append {front back : List Symbol} {first next : MLIRGenM Unit}
    (hfirst : Enters front first) (hnext : Enters back next) :
    Enters (front ++ back) (first >>= fun _ => next) := by
  constructor
  · intro g
    exact (hnext.body _).trans (hfirst.body g)
  · intro g
    exact (hnext.calls _).trans (hfirst.calls g)
  · intro g
    exact (hnext.uses _).trans (hfirst.uses g)
  · intro g b
    exact List.Subset.trans (hfirst.ops g b) (hnext.ops (first g).2 b)
  · intro g
    obtain ⟨new, hnew, htypes⟩ := hfirst.slots g
    obtain ⟨newer, hnewer, hlater⟩ := hnext.slots (first g).2
    refine ⟨newer ++ new, ?_, ?_⟩
    · rw [List.append_assoc, ← hnew]
      exact hnewer
    · rw [List.map_append, htypes, hlater, List.map_append, List.reverse_append]

theorem enters_setSlot {symbol : Symbol} {slot : TypedValue}
    (htype : slot.type = storageType symbol) : Enters [symbol] (setSlot symbol slot) := by
  constructor
  · exact fun _ => rfl
  · exact fun _ => rfl
  · exact fun _ => rfl
  · exact fun _ _ => List.Subset.refl _
  · intro g
    refine ⟨[(symbol.id, slot)], rfl, ?_⟩
    change [(symbol.id, slot.type)] = _
    rw [htype]
    rfl

/-- A slot of the symbol's type, and what `fill` puts behind its `alloca`. -/
theorem enters_alloca (symbol : Symbol) (fill : TypedValue → MLIRGenM Unit)
    (hfill : ∀ slot, Quiet (fill slot)) : Enters [symbol] (do
      let slot ← define (storageType symbol) fun r => .alloca r (storageType symbol)
      fill slot
      setSlot symbol slot) := by
  constructor
  · exact fun g => (hfill _).body _
  · exact fun g => (hfill _).calls _
  · exact fun g => (hfill _).uses _
  · intro g b
    let opened : MLIRGenerator :=
      (define (storageType symbol) (fun r => .alloca r (storageType symbol)) g).2
    have hopened : g.builder.code b ⊆ opened.builder.code b := g.builder.code_append_subset _ b
    exact List.Subset.trans hopened ((hfill _).ops opened b)
  · intro g
    let slot : TypedValue := ⟨.reg g.builder.nextReg, storageType symbol, none⟩
    refine ⟨[(symbol.id, slot)], ?_, rfl⟩
    exact congrArg (fun slots => (symbol.id, slot) :: slots) ((hfill slot).slots _)

theorem storageType_arrayParam {param : ParamDecl} {symbol : Symbol}
    (h : param.Declares symbol) (harray : param.isArray = true) :
    paramType param = storageType symbol := by
  have hsymbol : symbol.isArray = true := by
    unfold Symbol.isArray
    rw [h.type, harray]
    rfl
  unfold paramType storageType
  rw [harray, hsymbol, h.kind]
  rfl

theorem enters_emitParams {params : List ParamDecl} {symbols : List Symbol}
    (h : List.Forall₂ ParamDecl.Declares params symbols) :
    ∀ index : Nat, Enters symbols (emitParams index params) := by
  induction h with
  | nil => exact fun _ => enters_nothing
  | @cons _ symbol _ _ hparam _ ih =>
      intro index
      unfold emitParams
      rw [hparam.carries]
      dsimp only
      split
      · next harray =>
          exact (enters_setSlot (storageType_arrayParam hparam harray)).append (ih (index + 1))
      · have hslot := enters_alloca symbol (fun slot => emit (.store (.arg index) slot.operand []))
          fun slot => quiet_emit _
        exact hslot.append (ih (index + 1))

theorem enters_emitLocals {decls : List VarDecl} {symbols : List Symbol}
    (h : List.Forall₂ VarDecl.Declares decls symbols) : Enters symbols (emitLocals decls) := by
  induction h with
  | nil => exact enters_nothing
  | @cons _ symbol _ _ hdecl _ ih =>
      unfold emitLocals
      rw [hdecl.carries]
      have hslot := enters_alloca symbol (fun _ => pure ())
        fun _ => ⟨fun _ => rfl, fun _ => rfl, fun _ => rfl, fun _ => rfl,
          fun _ _ => List.Subset.refl _⟩
      exact hslot.append ih

/-! A whole function. -/

/-- What the emission of a function adds. -/
structure Emitted (V own : List Symbol) (decl : FunDecl) (g g' : MLIRGenerator) : Prop where
  body : ∃ blocks, g'.body = g.body ++ [.func { signatureOf decl with blocks := blocks }]
  slots : ∃ new, g'.slots = new ++ g.slots ∧ new.map slotType = (own.map entryOf).reverse
  ops : ∀ b, g.builder.code b ⊆ g'.builder.code b
  calls : ∃ new, g'.calls = g.calls ++ new ∧
    ∀ site ∈ new, Finds V (g.body ++ [.func (signatureOf decl)]) site
  uses : ∃ new, g'.uses = g.uses ++ new ∧
    ∀ use ∈ new, Yields V g'.slots use ∧ Fetched g'.builder.code use

theorem emitted_emitFunction (flavor : MLIRFlavor) (options : MLIRGenOptions)
    {globals params locals : List Symbol} {decl : FunDecl} {symbol : Symbol}
    (h : decl.Resolved globals symbol params locals) (g : MLIRGenerator)
    (hfresh : ∀ d ∈ g.body, d.name ≠ decl.name) :
    Emitted (globals ++ [symbol] ++ params ++ locals) (params ++ locals) decl g
      (emitFunction flavor options decl g).2 := by
  let opened : MLIRGenerator := ((do
    create (.func (signatureOf decl))
    startFunction (signatureOf decl)
    let entry ← newBlock
    startBlock entry : MLIRGenM Unit) g).2
  have henters : Enters (params ++ locals)
      (emitParams 0 decl.params >>= fun _ => emitLocals decl.body.toStmt.locals) :=
    (enters_emitParams h.eachParam 0).append (enters_emitLocals h.eachLocal)
  let entered : MLIRGenerator :=
    ((emitParams 0 decl.params >>= fun _ => emitLocals decl.body.toStmt.locals) opened).2
  have hrecords : Records (globals ++ [symbol] ++ params ++ locals)
      (emitCompound flavor options decl.body.stmts >>= fun _ =>
        unlessClosed (emitDefaultReturn flavor (signatureOf decl))) :=
    (records_emitCompound options h.body).before
      (records_ignores.unlessClosed (records_ignores.emitDefaultReturn _))
  let filled : MLIRGenerator := ((emitCompound flavor options decl.body.stmts >>= fun _ =>
    unlessClosed (emitDefaultReturn flavor (signatureOf decl))) entered).2
  have hbody : entered.body = g.body ++ [.func (signatureOf decl)] := henters.body opened
  obtain ⟨new, hslots, htypes⟩ := henters.slots opened
  have hsame : filled.slots = entered.slots := hrecords.slots entered
  constructor
  · refine ⟨filled.builder.layout, ?_⟩
    exact finishFunction_body ((hrecords.body entered).trans hbody) hfresh
  · exact ⟨new, hsame.trans hslots, htypes⟩
  · intro b
    exact List.Subset.trans (henters.ops opened b) (hrecords.ops entered b)
  · obtain ⟨calls, hcalls, hfinds⟩ := hrecords.calls entered
    rw [hbody] at hfinds
    exact ⟨calls, hcalls.trans (congrArg (· ++ calls) (henters.calls opened)), hfinds⟩
  · obtain ⟨uses, huses, hyields⟩ := hrecords.uses entered
    rw [← hsame] at hyields
    exact ⟨uses, huses.trans (congrArg (· ++ uses) (henters.uses opened)), hyields⟩

/-! What was found, seen from the module as it is at the end. -/

/-- A function without its blocks. -/
def signature (op : FuncOp) : FuncOp := { op with blocks := [] }

/-- The function that the module lists for a symbol. -/
def MadeFor (decls : List Decl) (f : Symbol) (op : FuncOp) : Prop :=
  (f ∈ builtinSymbols ∧ op.name = f.name ∧ signature op ∈ [inputOp, outputOp]) ∨
    ∃ decl, .fun decl ∈ decls ∧ decl.Declares f ∧ signature op = signatureOf decl

theorem MadeFor.name {decls : List Decl} {f : Symbol} {op : FuncOp} (h : MadeFor decls f op) :
    op.name = f.name := by
  rcases h with ⟨-, hname, -⟩ | ⟨decl, -, hdeclares, hmade⟩
  · exact hname
  · have hsame : (signature op).name = decl.name := congrArg FuncOp.name hmade
    exact hsame.trans hdeclares.name.symm

/-- An array is passed by reference, and nothing else is. -/
theorem MadeFor.inputs {decls : List Decl} {f : Symbol} {op : FuncOp}
    (h : MadeFor decls f op) :
    op.inputs.map Ty.isMemRef = f.paramTypes.map fun type => decide (type = .intArray) := by
  rcases h with ⟨hmem, hname, hlisted⟩ | ⟨decl, -, hdeclares, hmade⟩
  · have hbuiltin : ∀ f ∈ builtinSymbols, ∀ op ∈ [inputOp, outputOp], op.name = f.name →
        op.inputs.map Ty.isMemRef = f.paramTypes.map fun type => decide (type = .intArray) := by
      decide
    exact hbuiltin f hmem (signature op) hlisted hname
  · have hinputs : op.inputs = decl.params.map paramType := congrArg FuncOp.inputs hmade
    rw [hinputs, hdeclares.paramTypes, List.map_map, List.map_map]
    apply List.map_congr_left
    intro param _
    change (paramType param).isMemRef = decide (variableType param.isArray = .intArray)
    unfold paramType variableType
    cases param.isArray with
    | true => rfl
    | false => rfl

/-- The parameters and variables of a function. -/
def Owns (decl : FunDecl) (symbol : Symbol) : Prop :=
  (∃ param ∈ decl.params, param.Declares symbol) ∨
    ∃ localDecl ∈ decl.locals, localDecl.Declares symbol

def Found (globals : List Symbol) (body : List Definition) (site : CallSite) : Prop :=
  ∃ f ∈ globals, site.symbol = some f ∧ f.isFunction = true ∧ f.name = site.callee ∧
    site.argTypes = f.paramTypes ∧ ∃ op, site.found = some op ∧ op.name = f.name ∧
      ∃ whole, .func whole ∈ body ∧ signature whole = signature op

theorem Found.mono {globals globals' : List Symbol} {body body' : List Definition}
    {site : CallSite} (h : Found globals body site) (hglobals : globals ⊆ globals')
    (hbody : body ⊆ body') : Found globals' body' site := by
  obtain ⟨f, hf, hsymbol, hfun, hname, htypes, op, hfound, hop, whole, hwhole, hsame⟩ := h
  exact ⟨f, hglobals hf, hsymbol, hfun, hname, htypes, op, hfound, hop, whole, hbody hwhole,
    hsame⟩

def Stored (globals owners : List Symbol) (slots : List (Nat × TypedValue)) (use : VarUse) :
    Prop :=
  use.storage.type = storageType use.symbol ∧
    ((use.symbol ∈ owners ∧ use.global = none ∧ (use.symbol.id, use.storage) ∈ slots) ∨
      (use.symbol ∈ globals ∧ use.symbol.isFunction = false ∧
        use.global = some ⟨use.symbol.name, storageType use.symbol⟩))

theorem Stored.mono {globals globals' owners owners' : List Symbol}
    {slots slots' : List (Nat × TypedValue)} {use : VarUse} (h : Stored globals owners slots use)
    (hglobals : globals ⊆ globals') (howners : owners ⊆ owners') (hslots : slots ⊆ slots') :
    Stored globals' owners' slots' use := by
  obtain ⟨htype, ⟨howner, hnone, hslot⟩ | ⟨hglobal, hvar, hasked⟩⟩ := h
  · exact ⟨htype, .inl ⟨howners howner, hnone, hslots hslot⟩⟩
  · exact ⟨htype, .inr ⟨hglobals hglobal, hvar, hasked⟩⟩

structure Listed (decls : List Decl) (globals owners storage : List Symbol)
    (g : MLIRGenerator) : Prop where
  names : (g.body.map Definition.name).Nodup
  named : ∀ d ∈ g.body, d.name ∈ globals.map Symbol.name ∨ d.name = kIndexErrorName
  functions : ∀ f ∈ globals, f.isFunction = true → ∃ op, .func op ∈ g.body ∧ MadeFor decls f op
  memrefs : ∀ v ∈ globals, v.isFunction = false →
    .global ⟨v.name, storageType v⟩ ∈ g.body ∧ ∃ decl, .var decl ∈ decls ∧ decl.Declares v
  owned : ∀ s ∈ owners, ∃ decl, .fun decl ∈ decls ∧ Owns decl s
  slots : g.slots.map slotType = owners.map entryOf
  storage : (globals ++ owners).Perm storage
  calls : ∀ site ∈ g.calls, Found globals g.body site
  uses : ∀ use ∈ g.uses, Stored globals owners g.slots use ∧ Fetched g.builder.code use

theorem lookupFunc_of_mem {body : List Definition} (hnames : (body.map Definition.name).Nodup)
    {op : FuncOp} (h : .func op ∈ body) : lookupFunc body op.name = some op := by
  have hfind : body.find? (fun d => decide (d.name = op.name)) = some (.func op) := by
    induction body with
    | nil => cases h
    | cons d body ih =>
        rw [List.map_cons, List.nodup_cons] at hnames
        rcases List.mem_cons.mp h with rfl | h
        · exact List.find?_cons_of_pos (decide_eq_true rfl)
        · have hne : d.name ≠ op.name := by
            intro hsame
            apply hnames.1
            rw [hsame]
            exact List.mem_map.mpr ⟨.func op, h, rfl⟩
          rw [List.find?_cons_of_neg (by simpa using hne)]
          exact ih hnames.2 h
  unfold lookupFunc
  rw [hfind]

/-! The slots are found by the numbers of their symbols. -/

theorem lookup_none {slots : List (Nat × TypedValue)} {owners : List Symbol} {symbol : Symbol}
    (hslots : slots.map slotType = owners.map entryOf)
    (hout : symbol.id ∉ owners.map Symbol.id) : slots.lookup symbol.id = none := by
  rw [List.lookup_eq_none_iff]
  intro slot hslot
  have hmem : slotType slot ∈ owners.map entryOf := hslots ▸ List.mem_map_of_mem hslot
  obtain ⟨owner, howner, hentry⟩ := List.mem_map.mp hmem
  rw [bne_iff_ne]
  intro hsame
  apply hout
  rw [hsame, ← show owner.id = slot.1 from congrArg Prod.fst hentry]
  exact List.mem_map_of_mem howner

theorem lookup_some {slots : List (Nat × TypedValue)} {owners : List Symbol} {symbol : Symbol}
    (hslots : slots.map slotType = owners.map entryOf) (hids : (owners.map Symbol.id).Nodup)
    (hmem : symbol ∈ owners) : ∃ slot, slots.lookup symbol.id = some slot ∧
      slot.type = storageType symbol ∧ (symbol.id, slot) ∈ slots := by
  have hentry : entryOf symbol ∈ slots.map slotType := hslots ▸ List.mem_map_of_mem hmem
  obtain ⟨entry, hin, hkey⟩ := List.mem_map.mp hentry
  have hsome : (slots.lookup symbol.id).isSome := by
    rw [List.lookup_isSome_iff]
    exact ⟨entry, hin, beq_iff_eq.mpr (congrArg Prod.fst hkey).symm⟩
  obtain ⟨slot, hslot⟩ := Option.isSome_iff_exists.mp hsome
  obtain ⟨front, back, hsplit, -⟩ := List.lookup_eq_some_iff.mp hslot
  have hslotMem : (symbol.id, slot) ∈ slots := by
    rw [hsplit]
    exact List.mem_append_right _ List.mem_cons_self
  have howned : slotType (symbol.id, slot) ∈ owners.map entryOf :=
    hslots ▸ List.mem_map_of_mem hslotMem
  obtain ⟨owner, howner, hsame⟩ := List.mem_map.mp howned
  have hid : owner.id = symbol.id := congrArg Prod.fst hsame
  obtain rfl := List.inj_on_of_nodup_map hids howner hmem hid
  exact ⟨slot, hslot, (congrArg Prod.snd hsame).symm, hslotMem⟩

/-- A use of a variable finds what its symbol was entered as. -/
theorem Yields.stored {V globals owners : List Symbol} {slots : List (Nat × TypedValue)}
    {use : VarUse} (h : Yields V slots use) (hslots : slots.map slotType = owners.map entryOf)
    (hids : ((globals ++ owners).map Symbol.id).Nodup)
    (hmem : use.symbol ∈ globals ∨ use.symbol ∈ owners) : Stored globals owners slots use := by
  rw [List.map_append, List.nodup_append] at hids
  obtain ⟨-, hvar, hfound⟩ := h
  rcases hmem with hglobal | howner
  · have hnone : slots.lookup use.symbol.id = none := by
      apply lookup_none hslots
      intro hsame
      exact hids.2.2 _ (List.mem_map_of_mem hglobal) _ hsame rfl
    rcases hfound with ⟨hslot, -⟩ | ⟨-, htype, hasked⟩
    · cases hnone.symm.trans hslot
    · exact ⟨htype, .inr ⟨hglobal, hvar, hasked⟩⟩
  · obtain ⟨slot, hlookup, htype, hslotMem⟩ := lookup_some hslots hids.2.1 howner
    rcases hfound with ⟨hslot, hasked⟩ | ⟨hnone, -⟩
    · cases hlookup.symm.trans hslot
      exact ⟨htype, .inl ⟨howner, hasked, hslotMem⟩⟩
    · cases hnone.symm.trans hlookup

section listed

variable {decls : List Decl} {globals owners storage : List Symbol} {g : MLIRGenerator}

theorem Listed.ids (h : Listed decls globals owners storage g) (hnumbered : Numbered storage) :
    ((globals ++ owners).map Symbol.id).Nodup :=
  (h.storage.map Symbol.id).nodup_iff.mpr hnumbered.nodup

theorem Listed.fresh (h : Listed decls globals owners storage g) {name : String}
    (hfresh : name ∉ globals.map Symbol.name) (hreserved : name ≠ kIndexErrorName) :
    ∀ d ∈ g.body, d.name ≠ name := by
  intro d hd hsame
  rcases h.named d hd with hglobal | herror
  · exact hfresh (hsame ▸ hglobal)
  · exact hreserved (hsame.symm.trans herror)

theorem Listed.names_snoc (h : Listed decls globals owners storage g) {d : Definition}
    (hfresh : ∀ d' ∈ g.body, d'.name ≠ d.name) :
    ((g.body ++ [d]).map Definition.name).Nodup := by
  rw [List.map_append, List.nodup_append]
  refine ⟨h.names, List.nodup_singleton _, ?_⟩
  intro name hname other hother hsame
  obtain ⟨d', hd', rfl⟩ := List.mem_map.mp hname
  rw [List.map_singleton, List.mem_singleton] at hother
  exact hfresh d' hd' (hsame.trans hother)

theorem Listed.named_snoc (h : Listed decls globals owners storage g) {d : Definition}
    {symbol : Symbol} (hname : d.name = symbol.name) : ∀ d' ∈ g.body ++ [d],
    d'.name ∈ (globals ++ [symbol]).map Symbol.name ∨ d'.name = kIndexErrorName := by
  intro d' hd'
  rw [List.map_append, List.mem_append]
  rcases List.mem_append.mp hd' with hd' | hd'
  · exact (h.named d' hd').imp_left .inl
  · rw [List.mem_singleton.mp hd', hname]
    exact .inl (.inr List.mem_cons_self)

theorem Listed.emitGlobal (h : Listed decls globals owners storage g) {decl : VarDecl}
    {symbol : Symbol} (hdecl : .var decl ∈ decls) (hdeclares : decl.Declares symbol)
    (hfresh : symbol.name ∉ globals.map Symbol.name)
    (hreserved : symbol.name ≠ kIndexErrorName) :
    Listed decls (globals ++ [symbol]) owners (storage ++ [symbol]) (emitGlobal decl g).2 := by
  unfold MLIRGenerator.emitGlobal
  rw [hdeclares.carries]
  have hvar : symbol.isFunction = false := by
    unfold Symbol.isFunction
    rw [hdeclares.kind]
    rfl
  let d : Definition := .global ⟨decl.name, storageType symbol⟩
  have hname : d.name = symbol.name := hdeclares.name.symm
  have hother : ∀ d' ∈ g.body, d'.name ≠ d.name := hname ▸ h.fresh hfresh hreserved
  constructor
  · exact h.names_snoc hother
  · exact h.named_snoc hname
  · intro f hf hfun
    rcases List.mem_append.mp hf with hf | hf
    · obtain ⟨op, hop, hmade⟩ := h.functions f hf hfun
      exact ⟨op, List.mem_append_left _ hop, hmade⟩
    · rw [List.mem_singleton.mp hf, hvar] at hfun
      cases hfun
  · intro v hv hvariable
    rcases List.mem_append.mp hv with hv | hv
    · obtain ⟨hmem, hmade⟩ := h.memrefs v hv hvariable
      exact ⟨List.mem_append_left _ hmem, hmade⟩
    · rw [List.mem_singleton.mp hv]
      refine ⟨List.mem_append_right _ ?_, decl, hdecl, hdeclares⟩
      rw [hdeclares.name]
      exact List.mem_singleton_self _
  · exact h.owned
  · exact h.slots
  · rw [List.append_assoc]
    refine List.Perm.trans (List.Perm.append_left globals List.perm_append_comm) ?_
    rw [← List.append_assoc]
    exact h.storage.append_right [symbol]
  · intro site hsite
    exact (h.calls site hsite).mono (List.subset_append_left _ _) (List.subset_append_left _ _)
  · intro use huse
    obtain ⟨hstored, hfetched⟩ := h.uses use huse
    exact ⟨hstored.mono (List.subset_append_left _ _) (List.Subset.refl _)
      (List.Subset.refl _), hfetched⟩

/-- The function that a call looks up is listed, the own one from before its body. -/
theorem Listed.found (h : Listed decls globals owners storage g) {decl : FunDecl}
    {symbol : Symbol} (hdeclares : decl.Declares symbol)
    (hother : ∀ d ∈ g.body, d.name ≠ decl.name) {V : List Symbol}
    (hV : ∀ f ∈ V, f.isFunction = true → f ∈ globals ++ [symbol]) {blocks : List Nat}
    {site : CallSite} (hfinds : Finds V (g.body ++ [.func (signatureOf decl)]) site) :
    Found (globals ++ [symbol]) (g.body ++ [.func { signatureOf decl with blocks := blocks }])
      site := by
  obtain ⟨f, hf, hsymbol, hfun, hname, htypes, hfound⟩ := hfinds
  have hnames : ((g.body ++ [Definition.func (signatureOf decl)]).map Definition.name).Nodup :=
    h.names_snoc hother
  refine ⟨f, hV f hf hfun, hsymbol, hfun, hname, htypes, ?_⟩
  rcases List.mem_append.mp (hV f hf hfun) with hglobal | hown
  · obtain ⟨op, hop, hmade⟩ := h.functions f hglobal hfun
    have hlookup := lookupFunc_of_mem hnames (List.mem_append_left _ hop)
    rw [hmade.name, hname] at hlookup
    exact ⟨op, hfound.trans hlookup, hmade.name, op, List.mem_append_left _ hop, rfl⟩
  · rw [List.mem_singleton.mp hown] at hname ⊢
    have hlookup := lookupFunc_of_mem hnames
      (List.mem_append_right _ (List.mem_singleton_self (Definition.func (signatureOf decl))))
    rw [show (signatureOf decl).name = symbol.name from hdeclares.name.symm, hname] at hlookup
    exact ⟨signatureOf decl, hfound.trans hlookup, hdeclares.name.symm, _,
      List.mem_append_right _ (List.mem_singleton_self _), rfl⟩

theorem forall₂_source {α β : Type} {R : α → β → Prop} {as : List α} {bs : List β}
    (h : List.Forall₂ R as bs) {b : β} (hb : b ∈ bs) : ∃ a ∈ as, R a b := by
  induction h with
  | nil => cases hb
  | @cons a _ _ _ hR _ ih =>
      rcases List.mem_cons.mp hb with rfl | hb
      · exact ⟨a, List.mem_cons_self, hR⟩
      · obtain ⟨a', ha', hR'⟩ := ih hb
        exact ⟨a', List.mem_cons_of_mem a ha', hR'⟩

theorem owns_declared {decl : FunDecl} {symbol : Symbol} {params locals : List Symbol}
    (h : decl.Resolved globals symbol params locals) :
    ∀ s ∈ params ++ locals, Owns decl s ∧ s.isFunction = false := by
  intro s hs
  rcases List.mem_append.mp hs with hs | hs
  · obtain ⟨param, hparam, hdeclares⟩ := forall₂_source h.eachParam hs
    refine ⟨.inl ⟨param, hparam, hdeclares⟩, ?_⟩
    unfold Symbol.isFunction
    rw [hdeclares.kind]
    rfl
  · obtain ⟨localDecl, hlocal, hdeclares⟩ := forall₂_source h.eachLocal hs
    refine ⟨.inr ⟨localDecl, hlocal, hdeclares⟩, ?_⟩
    unfold Symbol.isFunction
    rw [hdeclares.kind]
    rfl

theorem Listed.emitFunction (h : Listed decls globals owners storage g) (flavor : MLIRFlavor)
    (options : MLIRGenOptions) {decl : FunDecl} {symbol : Symbol} {params locals : List Symbol}
    (hdecl : .fun decl ∈ decls) (hresolved : decl.Resolved globals symbol params locals)
    (hfresh : symbol.name ∉ globals.map Symbol.name)
    (hreserved : symbol.name ≠ kIndexErrorName)
    (hnumbered : Numbered (storage ++ symbol :: params ++ locals)) :
    Listed decls (globals ++ [symbol]) ((params ++ locals).reverse ++ owners)
      (storage ++ symbol :: params ++ locals) (emitFunction flavor options decl g).2 := by
  have hdeclares := hresolved.declares
  have hother : ∀ d ∈ g.body, d.name ≠ decl.name := hdeclares.name ▸ h.fresh hfresh hreserved
  obtain ⟨⟨blocks, hbody⟩, ⟨new, hslots, htypes⟩, hops, ⟨calls, hcalls, hfinds⟩,
    ⟨uses, huses, hyields⟩⟩ := emitted_emitFunction flavor options hresolved g hother
  have hfun : symbol.isFunction = true := by
    unfold Symbol.isFunction
    rw [hdeclares.kind]
    rfl
  have hown := owns_declared hresolved
  have hslotTypes : (MLIRGenerator.emitFunction flavor options decl g).2.slots.map slotType =
      ((params ++ locals).reverse ++ owners).map entryOf := by
    rw [hslots, List.map_append, htypes, h.slots, ← List.map_reverse, ← List.map_append]
  have hperm : (globals ++ [symbol] ++ ((params ++ locals).reverse ++ owners)).Perm
      (storage ++ symbol :: params ++ locals) := by
    have hrest : ([symbol] ++ ((params ++ locals).reverse ++ owners)).Perm
        (owners ++ symbol :: (params ++ locals)) := by
      rw [← List.append_assoc]
      refine List.perm_append_comm.trans (List.Perm.append_left owners ?_)
      exact List.Perm.append_left [symbol] (List.reverse_perm _)
    rw [List.append_assoc, List.append_assoc storage, List.cons_append]
    refine (List.Perm.append_left globals hrest).trans ?_
    rw [← List.append_assoc]
    exact h.storage.append_right _
  have hids := (hperm.map Symbol.id).nodup_iff.mpr hnumbered.nodup
  constructor
  · rw [hbody]
    exact h.names_snoc hother
  · rw [hbody]
    exact h.named_snoc hdeclares.name.symm
  · rw [hbody]
    intro f hf hisFun
    rcases List.mem_append.mp hf with hf | hf
    · obtain ⟨op, hop, hmade⟩ := h.functions f hf hisFun
      exact ⟨op, List.mem_append_left _ hop, hmade⟩
    · rw [List.mem_singleton.mp hf]
      exact ⟨_, List.mem_append_right _ (List.mem_singleton_self _), .inr ⟨decl, hdecl,
        hdeclares, rfl⟩⟩
  · rw [hbody]
    intro v hv hvar
    rcases List.mem_append.mp hv with hv | hv
    · obtain ⟨hmem, hmade⟩ := h.memrefs v hv hvar
      exact ⟨List.mem_append_left _ hmem, hmade⟩
    · rw [List.mem_singleton.mp hv, hfun] at hvar
      cases hvar
  · intro s hs
    rcases List.mem_append.mp hs with hs | hs
    · exact ⟨decl, hdecl, (hown s (List.mem_reverse.mp hs)).1⟩
    · exact h.owned s hs
  · exact hslotTypes
  · exact hperm
  · rw [hcalls, hbody]
    intro site hsite
    rcases List.mem_append.mp hsite with hsite | hsite
    · exact (h.calls site hsite).mono (List.subset_append_left _ _)
        (List.subset_append_left _ _)
    · apply h.found hdeclares hother _ (hfinds site hsite)
      intro f hf hisFun
      rw [List.append_assoc] at hf
      rcases List.mem_append.mp hf with hf | hf
      · exact hf
      · rw [(hown f hf).2] at hisFun
        cases hisFun
  · rw [huses]
    intro use huse
    rcases List.mem_append.mp huse with huse | huse
    · obtain ⟨hstored, hfetched⟩ := h.uses use huse
      refine ⟨?_, hfetched.mono hops⟩
      rw [hslots]
      exact hstored.mono (List.subset_append_left _ _) (List.subset_append_right _ _)
        (List.subset_append_right _ _)
    · obtain ⟨hyield, hfetched⟩ := hyields use huse
      refine ⟨hyield.stored hslotTypes hids ?_, hfetched⟩
      have hmem := hyield.1
      rw [List.append_assoc] at hmem
      rcases List.mem_append.mp hmem with hmem | hmem
      · exact .inl hmem
      · exact .inr (List.mem_append_left _ (List.mem_reverse.mpr hmem))

end listed

/-! All declarations. -/

end MLIRGenerator

end CMinus
