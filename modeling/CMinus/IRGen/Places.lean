import CMinus.IRGen.Denotes

namespace CMinus

namespace IRGenerator

open SSA IR Meaning

/-! Where an operand points. -/

namespace Site

variable (c : Site)

def Leads (address : Operand) (place : Variable × Int) : Known := fun env mem =>
  ∃ key, c.setting.Stands mem place.1 key ∧ Denotes address (.ptr ⟨key, place.2⟩) env mem ∧
    storageType place.1.symbol ≠ .ptr ∧ 0 ≤ place.2 ∧
    place.2 < (storageType place.1.symbol).cells

/-- The operand is the address of the first element. -/
def Starts (base : Operand) (array : Variable) : Known := fun env mem =>
  ∃ key, c.setting.Stands mem array key ∧ Denotes base (.ptr ⟨key, 0⟩) env mem ∧
    storageType array.symbol = .array array.symbol.arraySize

variable {c} {n : Nat} {v : Operand}

theorem Leads.stable (h : v.Below n) (place : Variable × Int) :
    Known.Stable n (c.Leads v place) := by
  constructor
  rintro env env' mem mem' henv hmem ⟨key, hstands, hv, hint, hle, hlt⟩
  exact ⟨key, hstands.later hmem, (Denotes.stable h _).later henv hmem hv, hint, hle, hlt⟩

theorem Starts.stable (h : v.Below n) (array : Variable) :
    Known.Stable n (c.Starts v array) := by
  constructor
  rintro env env' mem mem' henv hmem ⟨key, hstands, hv, hsort⟩
  exact ⟨key, hstands.later hmem, (Denotes.stable h _).later henv hmem hv, hsort⟩

end Site

section places

variable {c : Site} {n : Nat} {P : Known} {g : IRGenerator} {symbol : Symbol}
  {index : BitVec 32}

theorem storageType_ptr (symbol : Symbol) :
    storageType symbol = .ptr ↔ symbol.type = .intArray ∧ symbol.kind = .parameter := by
  unfold storageType
  by_cases htype : symbol.type = .intArray
  · by_cases hkind : symbol.kind = .parameter
    · simp [htype, hkind]
    · simp [htype, hkind]
  · simp [htype]

theorem storageType_array (htype : symbol.type = .intArray) (hkind : symbol.kind ≠ .parameter) :
    storageType symbol = .array symbol.arraySize := by
  simp [storageType, htype, hkind]

/-! Loads and stores. -/

theorem valid_of_bounds {mem : Store} {v : Variable} {key : Key} {i : Int}
    (h : c.setting.Stands mem v key) (hle : 0 ≤ i) (hlt : i < (storageType v.symbol).cells) :
    mem.valid ⟨key, i⟩ = true :=
  h.size.valid hle hlt

theorem exec_load (hc : c.Proper) {env : SSA.Env} {mem : Store} {r : Nat} {ty : Ty}
    {address : Operand} {a : Address} (ha : Denotes address (.ptr a) env mem)
    (hvalid : mem.valid a = true) :
    Executable.exec c.setting.machine.memory (Instr.load r ty address) env mem =
      .next (env.set r (mem.load a)) mem := by
  obtain ⟨junk, hjunk⟩ := hc.setting.memory
  have hvalue : address.eval env = some (.ptr a) := ha
  change IR.exec c.setting.machine.memory (.load r ty address) env mem = _
  simp only [IR.exec, hvalue, hjunk, IR.access, Store.ops_valid, Store.ops_load, hvalid, if_true]

theorem exec_store (hc : c.Proper) {env : SSA.Env} {mem : Store} {value address : Operand}
    {x : Value} {a : Address} (hx : Denotes value x env mem)
    (ha : Denotes address (.ptr a) env mem) (hvalid : mem.valid a = true) :
    Executable.exec c.setting.machine.memory (Instr.store value address) env mem =
      .next env (mem.write a x) := by
  obtain ⟨junk, hjunk⟩ := hc.setting.memory
  have hvalue : value.eval env = some x := hx
  have haddress : address.eval env = some (.ptr a) := ha
  change IR.exec c.setting.machine.memory (.store value address) env mem = _
  simp only [IR.exec, hvalue, haddress, hjunk, IR.access, Store.ops_valid, Store.ops_store, hvalid,
    if_true]

theorem follows_load (hc : c.Proper) (hg : c.Emitting g) {address : Operand}
    {place : Variable × Int} (h : ∀ env mem, P env mem → c.Leads address place env mem) :
    Follows c n P (createLoad .i32 address) (Meaning.read place.1 place.2) g (fun v n => v.Below n)
      fun v x => Denotes v (.i32 x) := by
  apply follows_define hg rfl
  intro state env shared hagrees hP
  obtain ⟨key, hstands, haddress, -, hle, hlt⟩ := h env shared.mem hP
  unfold Meaning.read
  cases hcell : state.cells place.1 place.2 with
  | none => exact id
  | some x =>
      obtain ⟨-, -, key', hkey', hvalue⟩ := hagrees.cells _ _ _ hcell
      obtain rfl : key = key' := Option.some.inj (hstands.located.symm.trans hkey')
      refine ⟨_, _, exec_load hc haddress (valid_of_bounds hstands hle hlt), hagrees,
        .set env le_rfl _, .refl _, ?_⟩
      rw [hvalue]
      exact Denotes.defined _ _ _ _

theorem writes_emit (hg : c.Emitting g) {i : Instr} (hterm : i.isTerminator = false) :
    Writes c (emit i) g fun _ _ => True :=
  ⟨Emitting.append hg hterm, .append _ _ _, trivial⟩

theorem follows_store (hc : c.Proper) (hg : c.Emitting g) {value address : Operand}
    {place : Variable × Int} {x : BitVec 32}
    (h : ∀ env mem, P env mem → c.Leads address place env mem)
    (hx : ∀ env mem, P env mem → Denotes value (.i32 x) env mem) :
    Follows c n P (emit (.store value address)) (assign place.1 place.2 x) g (fun _ _ => True)
      fun _ _ _ _ => True := by
  refine ⟨writes_emit hg rfl, .instr rfl rfl ?_⟩
  intro state env shared hagrees hP
  obtain ⟨key, hstands, haddress, hint, hle, hlt⟩ := h env shared.mem hP
  exact ⟨_, _, exec_store hc (hx env _ hP) haddress (valid_of_bounds hstands hle hlt),
    hagrees.assign hc.setting hstands hint _ x, .refl _ env, .write _ _ _, trivial⟩

/-! An array parameter holds the address of the array that is passed. -/

theorem arrayOf_parameter {a : Activation} (hkind : symbol.kind = .parameter) :
    arrayOf a symbol = referent (a.variable symbol) :=
  if_pos hkind

theorem arrayOf_local {a : Activation} (hkind : symbol.kind ≠ .parameter) :
    arrayOf a symbol = pure (a.variable symbol) :=
  if_neg hkind

theorem Emitting.address (hg : c.Emitting g) (hvisible : symbol ∈ c.visible)
    (hvar : symbol.isFunction = false) : ∃ address, g.addresses.lookup symbol.id = some address ∧
      address.Below g.builder.nextReg ∧ ∀ env mem, c.Stands env mem → ∃ key,
        Denotes address (.ptr ⟨key, 0⟩) env mem ∧
        c.setting.Stands mem (c.activation.variable symbol) key := by
  obtain ⟨address, hlookup, hfinal, hbelow⟩ := hg.kept.addresses symbol hvisible hvar
  refine ⟨address, hlookup, hbelow, ?_⟩
  rintro env mem ⟨-, hvars⟩
  obtain ⟨address', key, hlookup', hvalue, hstands⟩ := hvars symbol hvisible hvar
  obtain rfl : address = address' := Option.some.inj (hfinal.symm.trans hlookup')
  exact ⟨key, hvalue, hstands⟩

theorem follows_loadArray (hc : c.Proper) (hg : c.Emitting g) (htype : symbol.type = .intArray)
    (hkind : symbol.kind = .parameter) {address : Operand}
    (h : ∀ env mem, P env mem → ∃ key, Denotes address (.ptr ⟨key, 0⟩) env mem ∧
      c.setting.Stands mem (c.activation.variable symbol) key) :
    Follows c n P (createLoad .ptr address) (arrayOf c.activation symbol) g
      (fun v n => v.Below n) fun v array => c.Starts v array := by
  apply follows_define hg rfl
  intro state env shared hagrees hP
  obtain ⟨key, haddress, hstands⟩ := h env shared.mem hP
  rw [arrayOf_parameter hkind]
  unfold referent
  cases harray : state.arrays (c.activation.variable symbol) with
  | none => exact id
  | some array =>
      obtain ⟨-, -, hsort, key', target, hkey', hvalue, htarget⟩ := hagrees.arrays _ _ harray
      obtain rfl : key = key' := Option.some.inj (hstands.located.symm.trans hkey')
      have hptr : storageType symbol = .ptr := (storageType_ptr symbol).mpr ⟨htype, hkind⟩
      have hvalid : shared.mem.valid ⟨key, 0⟩ = true := by
        apply hstands.size.valid le_rfl
        change 0 < (storageType symbol).cells
        rw [hptr]
        decide
      refine ⟨_, _, exec_load hc haddress hvalid, hagrees, .set env le_rfl _, .refl _, target,
        htarget, ?_, hsort⟩
      rw [hvalue]
      exact Denotes.defined _ _ _ _

theorem Emitting.quiet (hg : c.Emitting g) (subscripts accesses : List Subscript) :
    c.Emitting { g with subscripts := subscripts, accesses := accesses } :=
  ⟨hg.writing, hg.kept.later rfl le_rfl
    ⟨hg.kept.signed.keys, hg.kept.signed.types, hg.kept.signed.report⟩ rfl⟩

theorem indexZero_indexes (options : IRGenOptions) (env : SSA.Env) (mem : Store) :
    Indexes (indexZero options) 0 env mem := by
  unfold indexZero
  split <;> rfl

theorem addressOf_bind {α : Type} {address : Operand}
    (hlookup : g.addresses.lookup symbol.id = some address) (next : Option Operand → IRGenM α) :
    (addressOf symbol >>= next) g = next (some address) g := by
  rw [← hlookup]
  rfl

/-- An argument that is an array. -/
theorem follows_arrayBase (hc : c.Proper) (hg : c.Emitting g) (hP : ∀ env mem, P env mem →
    c.Stands env mem) (hvisible : symbol ∈ c.visible) (hvar : symbol.isFunction = false)
    (htype : symbol.type = .intArray) :
    Follows c n P (arrayBase c.setting.options symbol) (arrayOf c.activation symbol) g
      (fun v n => v.Below n) fun v array => c.Starts v array := by
  obtain ⟨address, hlookup, hbelow, haddress⟩ := Emitting.address hg hvisible hvar
  have heq : arrayBase c.setting.options symbol g =
      (if symbol.kind = .parameter then createLoad .ptr address
        else createGEP (.array symbol.arraySize) address
          [indexZero c.setting.options, indexZero c.setting.options] : IRGenM Operand) g := by
    unfold arrayBase
    exact addressOf_bind hlookup _
  suffices h : Follows c n P (if symbol.kind = .parameter then createLoad .ptr address
      else createGEP (.array symbol.arraySize) address
        [indexZero c.setting.options, indexZero c.setting.options] : IRGenM Operand)
      (arrayOf c.activation symbol) g (fun v n => v.Below n) fun v array => c.Starts v array from
    h.of_eq heq
  split
  · next hkind =>
      exact follows_loadArray hc hg htype hkind fun env mem hknown =>
        haddress env mem (hP env mem hknown)
  · next hkind =>
      rw [arrayOf_local hkind]
      apply follows_createGEP hg
      intro env mem hknown
      obtain ⟨key, hvalue, hstands⟩ := haddress env mem (hP env mem hknown)
      have hzero : (Operand.eval env (indexZero c.setting.options)).bind indexValue = some 0 :=
        indexZero_indexes c.setting.options env mem
      refine ⟨_, 0, hvalue, ?_, ?_⟩
      · simp [hzero, offsetOf]
      · intro v env' hv
        exact ⟨key, hstands, hv, storageType_array htype hkind⟩

end places

end IRGenerator

end CMinus
