import Mathlib.Algebra.Group.Pointwise.Set.Basic
import Mathlib.Algebra.Module.NatInt
import Mathlib.Tactic.Abel
import Mathlib.Tactic.Linarith
import Mathlib.Tactic.Module
import Esdm.Lib.Odometer

/-!
# Strided boxes

The positions a nest of loops visits with one fixed stride per loop, as a set in an abelian group:
the sum of one arithmetic progression per loop (`box`).  The order of the loops does not matter
(`box_perm`), and loops whose strides fit together are one progression (`progression_add`,
`progression_add_neg`).
-/

namespace Strided

open Pointwise

variable {G : Type*} [AddCommGroup G]

/-- The first `n` multiples of `v`. -/
def progression (n : ℤ) (v : G) : Set G := {x | ∃ k : ℤ, 0 ≤ k ∧ k < n ∧ k • v = x}

/-- The sums of a member of each progression. -/
def box (l : List (ℤ × G)) : Set G := (l.map fun d => progression d.1 d.2).sum

@[simp] theorem box_nil : box ([] : List (ℤ × G)) = 0 := rfl

@[simp] theorem box_cons (d : ℤ × G) (l : List (ℤ × G)) :
    box (d :: l) = progression d.1 d.2 + box l := rfl

theorem box_perm {l l' : List (ℤ × G)} (h : l.Perm l') : box l = box l' := (h.map _).sum_eq

section Progression

variable {n m : ℤ} {v : G}

theorem progression_one (v : G) : progression 1 v = 0 := by
  ext x
  rw [Set.mem_zero]
  constructor
  · rintro ⟨k, h0, h1, rfl⟩
    rw [show k = 0 by omega, zero_smul]
  · rintro rfl
    exact ⟨0, le_rfl, one_pos, zero_smul ..⟩

/-- A progression whose stride is the length of another one continues that one. -/
theorem progression_add (hn : 0 < n) :
    progression n v + progression m (n • v) = progression (n * m) v := by
  ext x
  rw [Set.mem_add]
  constructor
  · rintro ⟨_, ⟨j, hj0, hj, rfl⟩, _, ⟨k, hk0, hk, rfl⟩, rfl⟩
    refine ⟨j + n * k, by positivity, ?_, by module⟩
    have : n * (k + 1) ≤ n * m := Int.mul_le_mul_of_nonneg_left (by omega) hn.le
    linarith
  · rintro ⟨i, hi0, hi, rfl⟩
    refine ⟨_, ⟨i % n, Int.emod_nonneg _ hn.ne', Int.emod_lt_of_pos _ hn, rfl⟩, _,
      ⟨i / n, Int.ediv_nonneg hi0 hn.le, Int.ediv_lt_of_lt_mul hn (by linarith), rfl⟩, ?_⟩
    rw [smul_smul, ← add_smul, mul_comm, Int.emod_add_mul_ediv]

/-- A progression read from its end. -/
theorem progression_neg : progression m (-v) = {(1 - m) • v} + progression m v := by
  ext x
  rw [Set.singleton_add, Set.mem_image]
  constructor
  · rintro ⟨k, h0, hk, rfl⟩
    exact ⟨_, ⟨m - 1 - k, by omega, by omega, rfl⟩, by module⟩
  · rintro ⟨_, ⟨k, h0, hk, rfl⟩, rfl⟩
    exact ⟨m - 1 - k, by omega, by omega, by module⟩

theorem progression_add_neg (hn : 0 < n) :
    progression n v + progression m (-(n • v)) = {(n * (1 - m)) • v} + progression (n * m) v := by
  rw [progression_neg, smul_smul, mul_comm (1 - m), add_left_comm, progression_add hn]

end Progression

section Counters

/-- The position of a nest of loops with the given counters. -/
def position : List (ℤ × G) → List ℕ → G
  | d :: l, c :: counters => (c : ℤ) • d.2 + position l counters
  | _, _ => 0

theorem position_zero : ∀ (l : List (ℤ × G)) (n : ℕ), position l (List.replicate n 0) = 0
  | [], _ => rfl
  | _ :: _, 0 => rfl
  | d :: l, n + 1 => by
    rw [List.replicate_succ, position, position_zero l n, Nat.cast_zero, zero_smul, add_zero]

/-- The box has the positions at all counters below the sizes. -/
theorem mem_box {x : G} : ∀ {l : List (ℤ × G)}, x ∈ box l
    ↔ ∃ c ∈ Odometer.tuples (l.map fun d => d.1.toNat), position l c = x
  | [] => by simp [Odometer.tuples, position, eq_comm]
  | d :: l => by
    rw [box_cons, Set.mem_add]
    simp only [Odometer.mem_tuples, List.map_cons]
    constructor
    · rintro ⟨_, ⟨k, hk0, hk, rfl⟩, y, hy, rfl⟩
      obtain ⟨c, hc, rfl⟩ := mem_box.1 hy
      obtain ⟨j, rfl⟩ := Int.eq_ofNat_of_zero_le hk0
      exact ⟨j :: c, .cons (by omega) (Odometer.mem_tuples.1 hc), rfl⟩
    · rintro ⟨_, hc, rfl⟩
      obtain ⟨j, c, hj, hcs, rfl⟩ := List.forall₂_cons_right_iff.1 hc
      exact ⟨_, ⟨j, by omega, by omega, rfl⟩, _, mem_box.2 ⟨c, Odometer.mem_tuples.2 hcs, rfl⟩, rfl⟩

end Counters

end Strided
