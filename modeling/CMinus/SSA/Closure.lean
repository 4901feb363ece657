import Mathlib.Data.List.Dedup
import Mathlib.Data.List.Perm.Subperm
import Mathlib.Logic.Function.Iterate
import CMinus.SSA.Cfg

namespace SSA

open ControlFlow

variable {I : Type} [ControlFlow I]

/-! Reachability, computed: the blocks at most so many branches away from the entry. -/

def targets (code : List I) : List Nat := code.flatMap successors

def expand (C : Nat → List I) (seen : List Nat) : List Nat :=
  (seen ++ seen.flatMap fun b => targets (C b)).dedup

def closure (C : Nat → List I) (n entry : Nat) : List Nat := (expand C)^[n] [entry]

variable {C : Nat → List I} {entry b : Nat}

theorem mem_expand {seen : List Nat} :
    b ∈ expand C seen ↔ b ∈ seen ∨ ∃ source ∈ seen, Edge C source b := by
  simp [expand, targets, Edge]

theorem closure_succ (n : Nat) : closure C (n + 1) entry = expand C (closure C n entry) :=
  Function.iterate_succ_apply' _ _ _

theorem reachable_of_mem_closure (n : Nat) :
    ∀ b, b ∈ closure C n entry → Reachable C entry b := by
  induction n with
  | zero =>
      intro b hb
      rw [List.mem_singleton.mp hb]
      exact ⟨[], .nil⟩
  | succ n ih =>
      intro b hb
      rw [closure_succ, mem_expand] at hb
      rcases hb with hb | ⟨source, hsource, hedge⟩
      · exact ih b hb
      · obtain ⟨visited, walk⟩ := ih source hsource
        exact ⟨_, walk.snoc hedge⟩

theorem mem_closure_of_walk {visited : List Nat} (walk : Walk C entry visited b) :
    ∀ n, visited.length ≤ n → b ∈ closure C n entry := by
  induction walk with
  | nil =>
      intro n _
      induction n with
      | zero => exact List.mem_singleton_self _
      | succ n ih =>
          rw [closure_succ, mem_expand]
          exact .inl (ih (Nat.zero_le n))
  | @snoc visited source target walk edge ih =>
      intro n hn
      rw [List.length_append, List.length_singleton] at hn
      obtain ⟨n, rfl⟩ := Nat.exists_eq_add_of_le' (Nat.le_of_add_left_le hn)
      rw [closure_succ, mem_expand]
      exact .inr ⟨source, ih n (Nat.le_of_add_le_add_right hn), edge⟩

/-- Up to a block that a walk has visited. -/
theorem Walk.upTo {visited : List Nat} (walk : Walk C entry visited b) {c : Nat}
    (hc : c ∈ visited) : ∃ before later, visited = before ++ c :: later ∧ Walk C entry before c := by
  induction walk with
  | nil => cases hc
  | @snoc visited source target walk edge ih =>
      rcases List.mem_append.mp hc with hc | hc
      · obtain ⟨before, later, rfl, hwalk⟩ := ih hc
        exact ⟨before, later ++ [source], by simp, hwalk⟩
      · rw [List.mem_singleton.mp hc]
        exact ⟨visited, [], rfl, walk⟩

/-- No block needs to be visited twice. -/
theorem Reachable.simple (h : Reachable C entry b) :
    ∃ visited, Walk C entry visited b ∧ (visited ++ [b]).Nodup := by
  obtain ⟨visited, walk⟩ := h
  induction walk with
  | nil => exact ⟨[], .nil, by simp⟩
  | @snoc visited source target walk edge ih =>
      obtain ⟨visited', walk', hnodup⟩ := ih
      have hwhole := walk'.snoc edge
      by_cases hmem : target ∈ visited' ++ [source]
      · obtain ⟨before, later, heq, hwalk⟩ := hwhole.upTo hmem
        refine ⟨before, hwalk, ?_⟩
        rw [heq] at hnodup
        exact List.Nodup.sublist ((List.Sublist.refl before).append (by simp)) hnodup
      · refine ⟨visited' ++ [source], hwhole, ?_⟩
        rw [List.nodup_append]
        refine ⟨hnodup, by simp, ?_⟩
        intro c hc d hd hcd
        rw [List.mem_singleton.mp hd] at hcd
        exact hmem (hcd ▸ hc)

/-- The blocks of a function are as many as it takes. -/
theorem mem_closure_iff {blocks : List Nat} (hclosed : ∀ b, Reachable C entry b → b ∈ blocks) :
    b ∈ closure C blocks.length entry ↔ Reachable C entry b := by
  constructor
  · exact reachable_of_mem_closure _ b
  · intro h
    obtain ⟨visited, walk, hnodup⟩ := h.simple
    apply mem_closure_of_walk walk
    have hvisited : visited ⊆ blocks := by
      intro c hc
      obtain ⟨before, later, -, hwalk⟩ := walk.upTo hc
      exact hclosed c ⟨before, hwalk⟩
    exact (List.subperm_of_subset (List.nodup_append.mp hnodup).1 hvisited).length_le

end SSA
