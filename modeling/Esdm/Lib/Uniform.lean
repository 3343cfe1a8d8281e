import Mathlib.Probability.Distributions.Uniform

/-!
# Uniform choices

A choice whose outcomes all have the same probability is uniform.  So what a bijection gives for a
uniform choice is uniform, and so is each part of a uniform pair.
-/

namespace Uniform

open scoped ENNReal

variable {α β γ : Type*} [Fintype α] [Nonempty α] [Fintype β] [Nonempty β] [Fintype γ]

theorem eq_uniform_of_const {p : PMF β} (h : ∀ b b', p b = p b') :
    p = PMF.uniformOfFintype β := by
  ext b
  have hsum : (Fintype.card β : ℝ≥0∞) * p b = 1 := by
    rw [← p.tsum_coe, tsum_fintype, Finset.sum_congr rfl fun b' _ => h b' b, Finset.sum_const,
      nsmul_eq_mul, Finset.card_univ]
  rw [PMF.uniformOfFintype_apply]
  exact ENNReal.eq_inv_of_mul_eq_one_left ((mul_comm ..).trans hsum)

/-- The first half of what a bijection gives for a uniform choice. -/
theorem map_fst_of_bijective {f : α → β × γ} (hf : f.Bijective) :
    (PMF.uniformOfFintype α).map (fun a => (f a).1) = PMF.uniformOfFintype β := by
  classical
  have happly : ∀ b, (PMF.uniformOfFintype α).map (fun a => (f a).1) b
      = ∑ _c : γ, (Fintype.card α : ℝ≥0∞)⁻¹ := fun b => by
    simp only [PMF.map_apply, PMF.uniformOfFintype_apply]
    -- the sum over all choices is a sum over the pairs
    have hpairs := (Equiv.ofBijective f hf).tsum_eq fun p : β × γ =>
      if b = p.1 then (Fintype.card α : ℝ≥0∞)⁻¹ else 0
    simp only [Equiv.ofBijective_apply] at hpairs
    rw [hpairs, tsum_fintype, Fintype.sum_prod_type_right]
    exact Finset.sum_congr rfl fun c _ => by simp
  exact eq_uniform_of_const fun b b' => (happly b).trans (happly b').symm

end Uniform
