import Mathlib.Logic.Function.Iterate
import Mathlib.Data.List.Basic

namespace SSA

/-! A deterministic system, and what an onlooker sees of each of its steps. -/

structure System (S E : Type) where
  step : S → S
  observe : S → List E

namespace System

variable {S T U E : Type}

def run (A : System S E) (n : Nat) (s : S) : S := A.step^[n] s

/-- What is seen of the first `n` steps. -/
def trace (A : System S E) : Nat → S → List E
  | 0, _ => []
  | n + 1, s => A.observe s ++ A.trace n (A.step s)

variable {A : System S E} {B : System T E} {C : System U E}

@[simp] theorem run_zero (s : S) : A.run 0 s = s := rfl

theorem run_succ (n : Nat) (s : S) : A.run (n + 1) s = A.run n (A.step s) :=
  Function.iterate_succ_apply _ _ _

theorem run_add (n k : Nat) (s : S) : A.run (n + k) s = A.run k (A.run n s) := by
  rw [Nat.add_comm]
  exact Function.iterate_add_apply _ _ _ _

@[simp] theorem trace_zero (s : S) : A.trace 0 s = [] := rfl

theorem trace_succ (n : Nat) (s : S) :
    A.trace (n + 1) s = A.observe s ++ A.trace n (A.step s) := rfl

theorem trace_add (n k : Nat) (s : S) :
    A.trace (n + k) s = A.trace n s ++ A.trace k (A.run n s) := by
  induction n generalizing s with
  | zero => rw [Nat.zero_add, trace_zero, run_zero, List.nil_append]
  | succ n ih =>
      rw [Nat.add_right_comm, trace_succ, trace_succ, run_succ, ih, List.append_assoc]

/-! `B` follows `A`: each run of `A` is matched by one of `B` that is no shorter and shows
the same, and the states that the two end in agree. -/

def Follows (A : System S E) (B : System T E) (Agree : S → T → Prop) (s : S) (t : T) : Prop :=
  ∀ n, ∃ k, n ≤ k ∧ B.trace k t = A.trace n s ∧ Agree (A.run n s) (B.run k t)

theorem Follows.mono {Agree Agree' : S → T → Prop} {s : S} {t : T}
    (h : Follows A B Agree s t) (hAgree : ∀ s t, Agree s t → Agree' s t) :
    Follows A B Agree' s t := by
  intro n
  obtain ⟨k, hle, htrace, hagree⟩ := h n
  exact ⟨k, hle, htrace, hAgree _ _ hagree⟩

theorem Follows.trans {Agree : S → T → Prop} {Agree' : T → U → Prop} {s : S} {t : T} {u : U}
    (h : Follows A B Agree s t) (h' : Follows B C Agree' t u) :
    Follows A C (fun s u => ∃ t, Agree s t ∧ Agree' t u) s u := by
  intro n
  obtain ⟨k, hle, htrace, hagree⟩ := h n
  obtain ⟨j, hle', htrace', hagree'⟩ := h' k
  exact ⟨j, Nat.le_trans hle hle', htrace'.trans htrace, _, hagree, hagree'⟩

theorem trace_mono {n k : Nat} (h : n ≤ k) (s : S) : A.trace n s <+: A.trace k s := by
  obtain ⟨d, rfl⟩ := Nat.exists_eq_add_of_le h
  rw [trace_add]
  exact List.prefix_append _ _

/-- What is followed shows no less. -/
theorem Follows.within {Agree : S → T → Prop} {s : S} {t : T} (h : Follows A B Agree s t)
    (k : Nat) : ∃ n, B.trace k t <+: A.trace n s := by
  obtain ⟨j, hle, htrace, -⟩ := h k
  exact ⟨k, htrace ▸ trace_mono hle t⟩

/-- Every step of `A` is answered by one or more steps of `B` that show the same. -/
structure Simulates (A : System S E) (B : System T E) (R : S → T → Prop) : Prop where
  step : ∀ s t, R s t →
    ∃ k, 0 < k ∧ B.trace k t = A.observe s ∧ R (A.step s) (B.run k t)

theorem Simulates.follows {R : S → T → Prop} (h : Simulates A B R) {s : S} {t : T}
    (hR : R s t) : Follows A B R s t := by
  intro n
  induction n generalizing s t with
  | zero => exact ⟨0, Nat.le_refl 0, rfl, hR⟩
  | succ n ih =>
      obtain ⟨k, hpos, htrace, hstep⟩ := h.step s t hR
      obtain ⟨j, hle, htrace', hagree⟩ := ih hstep
      refine ⟨k + j, by omega, ?_, ?_⟩
      · rw [trace_add, htrace, htrace', trace_succ]
      · rw [run_succ, run_add k j t]
        exact hagree

end System

end SSA
