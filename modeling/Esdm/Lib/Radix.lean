import Mathlib.Algebra.BigOperators.Group.List.Basic
import Mathlib.Algebra.Order.BigOperators.GroupWithZero.List
import Mathlib.Data.List.Forall2
import Mathlib.Tactic.Linarith

/-!
# Numbers of mixed radix

Digits below their bases denote a number below the product of the bases, and different digits denote
different numbers.  This is the position of an element in an array of several dimensions.
-/

namespace Radix

/-- The digits are below the bases. -/
abbrev Digits (is ns : List ℤ) : Prop := List.Forall₂ (fun i n => 0 ≤ i ∧ i < n) is ns

/-- The number with the given digits, of which the last one counts the units. -/
def value : List ℤ → List ℤ → ℤ
  | _ :: ns, i :: is => i * ns.prod + value ns is
  | _, _ => 0

theorem value_bounds {is ns : List ℤ} (h : Digits is ns) :
    0 ≤ value ns is ∧ value ns is < ns.prod := by
  induction h with
  | nil => simp [value]
  | @cons i n is ns hi _ ih =>
    obtain ⟨h0, h1⟩ := ih
    rw [value, List.prod_cons]
    constructor
    · have := Int.mul_nonneg hi.1 (by omega : 0 ≤ ns.prod)
      omega
    · have : (i + 1) * ns.prod ≤ n * ns.prod := Int.mul_le_mul_of_nonneg_right (by omega) (by omega)
      linarith

theorem value_inj {is js ns : List ℤ} (hi : Digits is ns) (hj : Digits js ns)
    (h : value ns is = value ns js) : is = js := by
  induction hi generalizing js with
  | nil => exact (List.forall₂_nil_right_iff.1 hj).symm
  | @cons i n is ns _ his ih =>
    obtain ⟨j, js, -, hjs, rfl⟩ := List.forall₂_cons_right_iff.1 hj
    obtain ⟨hi0, hi1⟩ := value_bounds his
    obtain ⟨hj0, hj1⟩ := value_bounds hjs
    rw [value, value] at h
    -- the quotient by the product of the other bases is the first digit
    have hdiv : ∀ k v : ℤ, 0 ≤ v → v < ns.prod → (k * ns.prod + v) / ns.prod = k := by
      intro k v h0 h1
      rw [Int.add_comm, Int.add_mul_ediv_right _ _ (by omega), Int.ediv_eq_zero_of_lt h0 h1,
        zero_add]
    obtain rfl : i = j := by rw [← hdiv i _ hi0 hi1, h, hdiv j _ hj0 hj1]
    rw [ih hjs (by omega)]

/-- Every number below the product of the bases has digits. -/
theorem exists_digits : ∀ {ns : List ℤ} {v : ℤ}, (∀ n ∈ ns, 0 < n) → 0 ≤ v → v < ns.prod →
    ∃ is, Digits is ns ∧ value ns is = v
  | [], v, _, h0, h1 => by
    rw [List.prod_nil] at h1
    exact ⟨[], .nil, show 0 = v by omega⟩
  | n :: ns, v, hn, h0, h1 => by
    have hpos := List.prod_pos fun m hm => hn m (List.mem_cons_of_mem n hm)
    obtain ⟨is, hd, hv⟩ := exists_digits (fun m hm => hn m (List.mem_cons_of_mem n hm))
      (Int.emod_nonneg v hpos.ne') (Int.emod_lt_of_pos v hpos)
    rw [List.prod_cons] at h1
    refine ⟨v / ns.prod :: is, .cons ⟨Int.ediv_nonneg h0 hpos.le, ?_⟩ hd, ?_⟩
    · exact Int.ediv_lt_of_lt_mul hpos h1
    · rw [value, hv]
      exact Int.ediv_mul_add_emod v ns.prod

end Radix
