import Mathlib.Data.Set.Basic
import Mathlib.Data.List.Basic

namespace SSA

/-! What a control-flow graph shows of an instruction. -/

class ControlFlow (I : Type) where
  isTerminator : I → Bool
  successors : I → List Nat
  defines : I → Option Nat
  uses : I → List Nat

open ControlFlow

variable {I F : Type} [ControlFlow I]

/-! A block that is still being written, and one that is complete. -/

def IsOpen (code : List I) : Prop := ∀ i ∈ code, isTerminator i = false

def IsClosed (code : List I) : Prop :=
  ∃ body last, code = body ++ [last] ∧ IsOpen body ∧ isTerminator last = true

theorem IsOpen.nil : IsOpen ([] : List I) := by
  intro i hi
  cases hi

theorem IsOpen.snoc {code : List I} {i : I} (h : IsOpen code)
    (hi : isTerminator i = false) : IsOpen (code ++ [i]) := by
  intro j hj
  rcases List.mem_append.mp hj with hj | hj
  · exact h j hj
  · rw [List.mem_singleton.mp hj]
    exact hi

theorem IsOpen.close {code : List I} {i : I} (h : IsOpen code)
    (hi : isTerminator i = true) : IsClosed (code ++ [i]) :=
  ⟨code, i, rfl, h, hi⟩

def definedIn (code : List I) : List Nat := code.filterMap defines

@[simp] theorem definedIn_nil : definedIn ([] : List I) = [] := rfl

@[simp] theorem definedIn_append (first second : List I) :
    definedIn (first ++ second) = definedIn first ++ definedIn second :=
  List.filterMap_append

theorem mem_definedIn {code : List I} {r : Nat} :
    r ∈ definedIn code ↔ ∃ i ∈ code, defines i = some r :=
  List.mem_filterMap

/-! Walks along the branches of a graph, from the entry to a block. -/

def Edge (C : Nat → List I) (source target : Nat) : Prop :=
  ∃ i ∈ C source, target ∈ successors i

inductive Walk (C : Nat → List I) (entry : Nat) : List Nat → Nat → Prop where
  | nil : Walk C entry [] entry
  | snoc {visited : List Nat} {source target : Nat} (walk : Walk C entry visited source)
      (edge : Edge C source target) : Walk C entry (visited ++ [source]) target

def Reachable (C : Nat → List I) (entry block : Nat) : Prop :=
  ∃ visited, Walk C entry visited block

def Dominates (C : Nat → List I) (entry dominator block : Nat) : Prop :=
  ∀ visited, Walk C entry visited block → dominator ∈ visited ++ [block]

/-! The definition of `r` at position `k` of block `d` comes before position `j` of
block `b` on every way there. -/

def DefinedBefore (C : Nat → List I) (entry r b j : Nat) : Prop :=
  ∃ d k, (∃ i, (C d)[k]? = some i ∧ defines i = some r) ∧
    ((d = b ∧ k < j) ∨ (d ≠ b ∧ Dominates C entry d b))

theorem Walk.cut {C : Nat → List I} {entry block b : Nat} {visited : List Nat}
    (walk : Walk C entry visited block) (hmem : b ∈ visited) :
    ∃ before, Walk C entry before b ∧ b ∉ before := by
  induction walk with
  | nil => cases hmem
  | @snoc visited source target walk edge ih =>
      by_cases hb : b ∈ visited
      · exact ih hb
      · rcases List.mem_append.mp hmem with h | h
        · exact absurd h hb
        · rw [List.mem_singleton.mp h] at hb ⊢
          exact ⟨visited, walk, hb⟩

/-! No register is defined at two places. -/

structure SingleAssignment (C : Nat → List I) : Prop where
  once : ∀ b, (definedIn (C b)).Nodup
  apart : ∀ b b' r, r ∈ definedIn (C b) → r ∈ definedIn (C b') → b = b'

/-! If every walk to a position has met some definition, the one definition there
is dominates it. -/

theorem definedBefore_of_walks {C : Nat → List I} (hssa : SingleAssignment C)
    {entry r b j : Nat} (hreach : Reachable C entry b)
    (h : ∀ visited, Walk C entry visited b →
      (∃ d ∈ visited, r ∈ definedIn (C d)) ∨ r ∈ definedIn ((C b).take j)) :
    DefinedBefore C entry r b j := by
  by_cases hlocal : r ∈ definedIn ((C b).take j)
  · obtain ⟨i, hi, hdef⟩ := mem_definedIn.mp hlocal
    obtain ⟨k, hk⟩ := List.mem_iff_getElem?.mp hi
    rw [List.getElem?_take] at hk
    by_cases hkj : k < j
    · rw [if_pos hkj] at hk
      exact ⟨b, k, ⟨i, hk, hdef⟩, .inl ⟨rfl, hkj⟩⟩
    · rw [if_neg hkj] at hk
      cases hk
  · have hearlier : ∀ visited, Walk C entry visited b → ∃ d ∈ visited, r ∈ definedIn (C d) :=
      fun visited walk => (h visited walk).resolve_right hlocal
    obtain ⟨visited, walk⟩ := hreach
    obtain ⟨d, hd, hr⟩ := hearlier visited walk
    obtain ⟨i, hi, hdef⟩ := mem_definedIn.mp hr
    obtain ⟨k, hk⟩ := List.mem_iff_getElem?.mp hi
    refine ⟨d, k, ⟨i, hk, hdef⟩, .inr ⟨?_, ?_⟩⟩
    · intro hdb
      subst hdb
      -- a first arrival at the block has passed the definition before it
      obtain ⟨before, hbefore, hfirst⟩ := walk.cut hd
      obtain ⟨d', hd', hr'⟩ := hearlier before hbefore
      exact hfirst (hssa.apart d' d r hr' hr ▸ hd')
    · intro other hother
      obtain ⟨d', hd', hr'⟩ := hearlier other hother
      rw [hssa.apart d d' r hr hr']
      exact List.mem_append_left _ hd'

/-! A discipline says which facts an instruction needs, which facts hold after it, and
which of them it carries along a branch. -/

structure Discipline (I F : Type) where
  needs : I → Set F → Prop
  gives : I → Set F → Set F
  along : I → Nat → Set F → Set F

namespace Discipline

variable (δ : Discipline I F)

def after (A : Set F) (code : List I) : Set F :=
  code.foldl (fun facts i => δ.gives i facts) A

/-! `K b` are the facts at the start of block `b`. -/

def Checks (K : Nat → Set F) (A : Set F) : List I → Prop
  | [] => True
  | i :: code =>
      δ.needs i A ∧ (∀ b ∈ successors i, K b ⊆ δ.along i b A) ∧
        Checks K (δ.gives i A) code

variable {δ}

omit [ControlFlow I] in
@[simp] theorem after_nil (A : Set F) : δ.after A [] = A := rfl

omit [ControlFlow I] in
@[simp] theorem after_cons (A : Set F) (i : I) (code : List I) :
    δ.after A (i :: code) = δ.after (δ.gives i A) code := rfl

omit [ControlFlow I] in
theorem after_append (A : Set F) (first second : List I) :
    δ.after A (first ++ second) = δ.after (δ.after A first) second := by
  simp [after, List.foldl_append]

theorem checks_append {K : Nat → Set F} {A : Set F} {first second : List I} :
    δ.Checks K A (first ++ second) ↔
      δ.Checks K A first ∧ δ.Checks K (δ.after A first) second := by
  induction first generalizing A with
  | nil => simp [Checks]
  | cons i first ih => simp [Checks, ih, and_assoc]

/-! Only the successors of the code matter to `Checks`. -/

theorem Checks.congr {K L : Nat → Set F} {A : Set F} {code : List I}
    (h : δ.Checks K A code) (hKL : ∀ i ∈ code, ∀ b ∈ successors i, L b = K b) :
    δ.Checks L A code := by
  induction code generalizing A with
  | nil => trivial
  | cons i code ih =>
      obtain ⟨hneeds, halong, hrest⟩ := h
      refine ⟨hneeds, ?_, ih hrest fun j hj => hKL j (List.mem_cons_of_mem i hj)⟩
      intro b hb
      rw [hKL i List.mem_cons_self b hb]
      exact halong b hb

theorem Checks.at {K : Nat → Set F} {A : Set F} {code : List I} (h : δ.Checks K A code)
    {k : Nat} {i : I} (hi : code[k]? = some i) :
    δ.needs i (δ.after A (code.take k)) ∧
      ∀ b ∈ successors i, K b ⊆ δ.along i b (δ.after A (code.take k)) := by
  induction code generalizing A k with
  | nil => simp at hi
  | cons j code ih =>
      cases k with
      | zero =>
          obtain rfl : j = i := by simpa using hi
          exact ⟨h.1, h.2.1⟩
      | succ k => exact ih h.2.2 (by simpa using hi)

/-! `Says f r`: the fact `f` says that register `r` is defined.  Only a definition makes
such a fact. -/

structure Tracks (δ : Discipline I F) (Says : F → Nat → Prop) : Prop where
  needs : ∀ i A, δ.needs i A → ∀ r ∈ uses i, ∃ f ∈ A, Says f r
  gives : ∀ i A f r, f ∈ δ.gives i A → Says f r → f ∈ A ∨ defines i = some r
  along : ∀ i b A f r, f ∈ δ.along i b A → Says f r → f ∈ A

variable {Says : F → Nat → Prop}

theorem Tracks.after (htracks : δ.Tracks Says) {A : Set F} {code : List I} {f : F} {r : Nat}
    (h : f ∈ δ.after A code) (hstates : Says f r) : f ∈ A ∨ r ∈ definedIn code := by
  induction code generalizing A with
  | nil => exact .inl h
  | cons i code ih =>
      rcases ih h with hgives | hdefined
      · rcases htracks.gives i A f r hgives hstates with hA | hdef
        · exact .inl hA
        · exact .inr (mem_definedIn.mpr ⟨i, List.mem_cons_self, hdef⟩)
      · obtain ⟨j, hj, hdef⟩ := mem_definedIn.mp hdefined
        exact .inr (mem_definedIn.mpr ⟨j, List.mem_cons_of_mem i hj, hdef⟩)

theorem Tracks.walk (htracks : δ.Tracks Says) {C : Nat → List I} {K : Nat → Set F}
    {entry : Nat} (hchecks : ∀ b, Reachable C entry b → δ.Checks K (K b) (C b))
    (hentry : K entry = ∅) {visited : List Nat} {b : Nat} (walk : Walk C entry visited b)
    {f : F} {r : Nat} (h : f ∈ K b) (hstates : Says f r) :
    ∃ d ∈ visited, r ∈ definedIn (C d) := by
  induction walk with
  | nil =>
      rw [hentry] at h
      cases h
  | @snoc visited source target walk edge ih =>
      obtain ⟨i, hi, htarget⟩ := edge
      obtain ⟨k, hk⟩ := List.mem_iff_getElem?.mp hi
      have hsource := hchecks source ⟨visited, walk⟩
      have hbefore := htracks.along _ _ _ _ _ ((hsource.at hk).2 target htarget h) hstates
      rcases htracks.after hbefore hstates with hstart | hdefined
      · obtain ⟨d, hd, hr⟩ := ih hstart
        exact ⟨d, List.mem_append_left _ hd, hr⟩
      · obtain ⟨j, hj, hdef⟩ := mem_definedIn.mp hdefined
        exact ⟨source, by simp, mem_definedIn.mpr ⟨j, List.mem_of_mem_take hj, hdef⟩⟩

/-! In a graph that passes the check, definitions dominate uses. -/

theorem Tracks.definedBefore (htracks : δ.Tracks Says) {C : Nat → List I}
    (hssa : SingleAssignment C) {K : Nat → Set F} {entry : Nat}
    (hchecks : ∀ b, Reachable C entry b → δ.Checks K (K b) (C b)) (hentry : K entry = ∅)
    {b j r : Nat} {i : I} (hreach : Reachable C entry b) (hi : (C b)[j]? = some i)
    (hr : r ∈ uses i) : DefinedBefore C entry r b j := by
  apply definedBefore_of_walks hssa hreach
  intro visited walk
  obtain ⟨f, hf, hstates⟩ := htracks.needs i _ ((hchecks b hreach).at hi).1 r hr
  rcases htracks.after hf hstates with hK | hlocal
  · exact .inl (htracks.walk hchecks hentry walk hK hstates)
  · exact .inr hlocal

end Discipline

end SSA
