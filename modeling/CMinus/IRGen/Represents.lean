import CMinus.IRGen.Subscripts
import CMinus.Meaning
import CMinus.SSA.Transfer

namespace CMinus

namespace IRGenerator

open SSA IR Meaning

/-! How a state of the interpreter is represented in the machine that runs the emitted
module.  `addresses` are those the generator ends with, `storage` the symbols that have
one, and `statics` the global variables among them. -/

structure Setting where
  options : IRGenOptions
  machine : Machine Instr Store World
  addresses : List (Nat × Operand)
  storage : List Symbol
  statics : List Symbol

namespace Setting

structure Proper (σ : Setting) : Prop where
  checks : σ.options.indexChecks = true
  bits : 32 ≤ σ.options.indexBits
  memory : ∃ junk, σ.machine.memory = Store.ops junk
  runtime : σ.machine.runtime = CMinus.runtime
  report : σ.machine.entry kIndexErrorName = none
  distinct : (σ.addresses.map Prod.snd).Nodup
  ids : (σ.storage.map Symbol.id).Nodup

variable (σ : Setting)

/-- Where the machine keeps a variable. -/
def locate (v : Variable) : Option Key :=
  match v.call, σ.addresses.lookup v.symbol.id with
  | none, some (.global name) => some (.global name)
  | some n, some (.reg r) => some (.slot n r)
  | _, _ => none

/-- The variable has its storage at the key. -/
structure Stands (mem : Store) (v : Variable) (key : Key) : Prop where
  stored : v.symbol ∈ σ.storage
  located : σ.locate v = some key
  size : mem.HasSize key (storageType v.symbol).cells

structure Agrees (s : State) (shared : Shared Store World) : Prop where
  world : shared.world = s.world
  calls : shared.activations = s.calls
  cells : ∀ v i x, s.cells v i = some x → v.symbol ∈ σ.storage ∧
    storageType v.symbol ≠ .ptr ∧
    ∃ key, σ.locate v = some key ∧ shared.mem.load ⟨key, i⟩ = .i32 x
  arrays : ∀ v array, s.arrays v = some array → v.symbol ∈ σ.storage ∧
    storageType v.symbol = .ptr ∧ storageType array.symbol = .array array.symbol.arraySize ∧
    ∃ key target, σ.locate v = some key ∧ shared.mem.load ⟨key, 0⟩ = .ptr ⟨target, 0⟩ ∧
      σ.Stands shared.mem array target
  statics : ∀ symbol ∈ σ.statics,
    shared.mem.HasSize (.global symbol.name) (storageType symbol).cells
  fresh : ∀ n r, shared.activations ≤ n → shared.mem (.slot n r) = none

/-- What a call passes. -/
inductive Passes (mem : Store) : Value → Arg → Prop where
  | int (x : BitVec 32) : Passes mem (.i32 x) (.int x)
  | array {array : Variable} {key : Key} (hstands : σ.Stands mem array key)
      (hsort : storageType array.symbol = .array array.symbol.arraySize) :
      Passes mem (.ptr ⟨key, 0⟩) (.array array)

variable {σ} {mem mem' : Store} {v w : Variable} {key : Key} {s : State}
  {shared : Shared Store World}

theorem locate_global {name : String} (hcall : v.call = none)
    (h : σ.addresses.lookup v.symbol.id = some (.global name)) :
    σ.locate v = some (.global name) := by
  unfold locate
  rw [hcall, h]

theorem locate_slot {n r : Nat} (hcall : v.call = some n)
    (h : σ.addresses.lookup v.symbol.id = some (.reg r)) : σ.locate v = some (.slot n r) := by
  unfold locate
  rw [hcall, h]

theorem Stands.later (h : σ.Stands mem v key) (hmem : mem.Keeps mem') :
    σ.Stands mem' v key :=
  ⟨h.stored, h.located, hmem _ _ h.size⟩

theorem Passes.later {x : Value} {arg : Arg} (h : σ.Passes mem x arg) (hmem : mem.Keeps mem') :
    σ.Passes mem' x arg := by
  cases h with
  | int x => exact .int x
  | array hstands hsort => exact .array (hstands.later hmem) hsort

/-- Different variables are kept in different places. -/
theorem Proper.locate_inj (hσ : σ.Proper) (hv : v.symbol ∈ σ.storage)
    (hw : w.symbol ∈ σ.storage) (hkey : σ.locate v = some key)
    (hkey' : σ.locate w = some key) : v = w := by
  have hsame : v.call = w.call ∧ ∃ address, σ.addresses.lookup v.symbol.id = some address ∧
      σ.addresses.lookup w.symbol.id = some address := by
    unfold locate at hkey hkey'
    split at hkey
    · next hcall haddress =>
        cases hkey
        split at hkey'
        · next hcall' haddress' =>
            cases hkey'
            exact ⟨hcall.trans hcall'.symm, _, haddress, haddress'⟩
        · cases hkey'
        · cases hkey'
    · next hcall haddress =>
        cases hkey
        split at hkey'
        · cases hkey'
        · next hcall' haddress' =>
            cases hkey'
            exact ⟨hcall.trans hcall'.symm, _, haddress, haddress'⟩
        · cases hkey'
    · cases hkey
  obtain ⟨hcall, address, hfirst, hsecond⟩ := hsame
  have hid : v.symbol.id = w.symbol.id := by
    have hpair := List.inj_on_of_nodup_map hσ.distinct (mem_of_lookup hfirst)
      (mem_of_lookup hsecond) rfl
    exact congrArg Prod.fst hpair
  have hsymbol : v.symbol = w.symbol := List.inj_on_of_nodup_map hσ.ids hv hw hid
  cases v
  cases w
  simp_all

/-! What the steps of a program do to the two sides. -/

theorem Agrees.event (h : σ.Agrees s shared) (world : World) :
    σ.Agrees { s with world := world } { shared with world := world } :=
  ⟨rfl, h.calls, h.cells, h.arrays, h.statics, h.fresh⟩

theorem Agrees.enter (h : σ.Agrees s shared) :
    σ.Agrees { s with calls := s.calls + 1 }
      { shared with activations := shared.activations + 1 } :=
  ⟨h.world, congrArg (· + 1) h.calls, h.cells, h.arrays, h.statics,
    fun n r hle => h.fresh n r (Nat.le_of_succ_le hle)⟩

theorem Agrees.forget (h : σ.Agrees s shared) (v : Variable) : σ.Agrees (s.forget v) shared := by
  refine ⟨h.world, h.calls, ?_, h.arrays, h.statics, h.fresh⟩
  intro w i x hx
  unfold State.forget at hx
  dsimp only at hx
  by_cases hw : w = v
  · rw [hw, Function.update_self] at hx
    cases hx
  · rw [Function.update_of_ne hw] at hx
    exact h.cells w i x hx

/-- A new slot, of the current activation, changes nothing else. -/
theorem Agrees.alloca (h : σ.Agrees s shared) {n r : Nat} {block : Block}
    (hlt : n < shared.activations) (hnew : shared.mem (.slot n r) = none) :
    σ.Agrees s { shared with mem := shared.mem.set (.slot n r) block } := by
  have hkeeps : shared.mem.Keeps (shared.mem.set (.slot n r) block) := Store.Keeps.set hnew
  have hload : ∀ {key : Key} {i : Int} {x : Value}, shared.mem.load ⟨key, i⟩ = x →
      x ≠ .poison → (shared.mem.set (.slot n r) block).load ⟨key, i⟩ = x := by
    intro key i x hx hpoison
    rw [Store.load_set_of_ne, hx]
    rintro rfl
    unfold Store.load at hx
    simp only [hnew] at hx
    exact hpoison hx.symm
  refine ⟨h.world, h.calls, ?_, ?_, ?_, ?_⟩
  · intro v i x hx
    obtain ⟨hstored, hint, key, hkey, hvalue⟩ := h.cells v i x hx
    exact ⟨hstored, hint, key, hkey, hload hvalue (by simp)⟩
  · intro v array harray
    obtain ⟨hstored, hptr, hsort, key, target, hkey, hvalue, hstands⟩ := h.arrays v array harray
    exact ⟨hstored, hptr, hsort, key, target, hkey, hload hvalue (by simp), hstands.later hkeeps⟩
  · exact fun symbol hsymbol => hkeeps _ _ (h.statics symbol hsymbol)
  · intro m q hle
    have hne : (Key.slot m q) ≠ .slot n r := by
      rintro ⟨⟩
      exact absurd hlt (Nat.not_lt_of_le hle)
    exact (Store.set_of_ne _ _ hne).trans (h.fresh m q hle)

/-- An int is stored in a cell of a variable. -/
theorem Agrees.assign (h : σ.Agrees s shared) (hσ : σ.Proper)
    (hstands : σ.Stands shared.mem v key) (hint : storageType v.symbol ≠ .ptr) (i : Int)
    (x : BitVec 32) :
    σ.Agrees (s.assign v i x) { shared with mem := shared.mem.write ⟨key, i⟩ (.i32 x) } := by
  have hkeeps := Store.Keeps.write shared.mem ⟨key, i⟩ (.i32 x)
  have hload := Store.load_write hstands.size i (.i32 x)
  refine ⟨h.world, h.calls, ?_, ?_, ?_, fun n r hle => Store.write_none (h.fresh n r hle) _ _⟩
  · intro w j y hy
    unfold State.assign at hy
    dsimp only at hy ⊢
    by_cases hw : w = v
    · subst hw
      refine ⟨hstands.stored, hint, key, hstands.located, ?_⟩
      rw [hload]
      rw [Function.update_self] at hy
      by_cases hj : j = i
      · subst hj
        rw [Function.update_self] at hy
        cases hy
        simp
      · rw [Function.update_of_ne hj] at hy
        obtain ⟨-, -, key', hkey', hvalue⟩ := h.cells w j y hy
        rw [hstands.located] at hkey'
        cases hkey'
        simp [hj, hvalue]
    · rw [Function.update_of_ne hw] at hy
      obtain ⟨hstored, hint', key', hkey', hvalue⟩ := h.cells w j y hy
      refine ⟨hstored, hint', key', hkey', ?_⟩
      rw [hload, if_neg, hvalue]
      rintro ⟨⟩
      exact hw (hσ.locate_inj hstored hstands.stored hkey' hstands.located)
  · intro w array harray
    obtain ⟨hstored, hptr, hsort, key', target, hkey', hvalue, htarget⟩ := h.arrays w array harray
    refine ⟨hstored, hptr, hsort, key', target, hkey', ?_, htarget.later hkeeps⟩
    dsimp only
    rw [hload, if_neg, hvalue]
    rintro ⟨⟩
    have hsame := hσ.locate_inj hstored hstands.stored hkey' hstands.located
    exact hint (hsame ▸ hptr)
  · exact fun symbol hsymbol => hkeeps _ _ (h.statics symbol hsymbol)

/-- A parameter gets the address of an array. -/
theorem Agrees.refer (h : σ.Agrees s shared) (hσ : σ.Proper)
    (hstands : σ.Stands shared.mem v key) (hptr : storageType v.symbol = .ptr)
    {array : Variable} {target : Key} (harray : σ.Stands shared.mem array target)
    (hsort : storageType array.symbol = .array array.symbol.arraySize) :
    σ.Agrees (s.refer v array)
      { shared with mem := shared.mem.write ⟨key, 0⟩ (.ptr ⟨target, 0⟩) } := by
  have hkeeps := Store.Keeps.write shared.mem ⟨key, 0⟩ (.ptr ⟨target, 0⟩)
  have hload := Store.load_write hstands.size 0 (.ptr ⟨target, 0⟩)
  refine ⟨h.world, h.calls, ?_, ?_, ?_, fun n r hle => Store.write_none (h.fresh n r hle) _ _⟩
  · intro w j y hy
    obtain ⟨hstored, hint, key', hkey', hvalue⟩ := h.cells w j y hy
    refine ⟨hstored, hint, key', hkey', ?_⟩
    dsimp only
    rw [hload, if_neg, hvalue]
    rintro ⟨⟩
    have hsame := hσ.locate_inj hstored hstands.stored hkey' hstands.located
    exact hint (hsame ▸ hptr)
  · intro w other hother
    unfold State.refer at hother
    dsimp only at hother ⊢
    by_cases hw : w = v
    · subst hw
      rw [Function.update_self] at hother
      cases hother
      refine ⟨hstands.stored, hptr, hsort, key, target, hstands.located, ?_,
        harray.later hkeeps⟩
      rw [hload, if_pos rfl]
    · rw [Function.update_of_ne hw] at hother
      obtain ⟨hstored, hptr', hsort', key', target', hkey', hvalue, htarget⟩ :=
        h.arrays w other hother
      refine ⟨hstored, hptr', hsort', key', target', hkey', ?_, htarget.later hkeeps⟩
      rw [hload, if_neg, hvalue]
      rintro ⟨⟩
      exact hw (hσ.locate_inj hstored hstands.stored hkey' hstands.located)
  · exact fun symbol hsymbol => hkeeps _ _ (h.statics symbol hsymbol)

end Setting

end IRGenerator

end CMinus
