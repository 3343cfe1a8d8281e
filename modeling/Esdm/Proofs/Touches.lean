import Esdm.Proofs.Hypercube

/-!
# Hypercubes that touch

`esdmI_hypercube_touches` compares the bounds of two hypercubes.  What it decides is whether one
step along one dimension leads from a point of the one to a point of the other, while they share no
point (`touches_iff`).
-/

namespace Esdm

namespace Range

variable {r s : Range}

/-- One of the ranges ends where the other one starts. -/
def Abuts (r s : Range) : Prop := r.start = s.stop ∨ r.stop = s.start

instance (r s : Range) : Decidable (Abuts r s) := inferInstanceAs (Decidable (_ ∨ _))

theorem Abuts.isEmpty_intersection (h : r.Abuts s) : (r.intersection s).isEmpty := by
  unfold Abuts at h
  unfold isEmpty intersection
  dsimp only
  split_ifs <;> omega

/-- Ranges that abut have neighbouring elements. -/
theorem Abuts.exists_step (h : r.Abuts s) (hr : ¬ r.isEmpty) (hs : ¬ s.isEmpty) :
    ∃ x y, Mem x r ∧ Mem y s ∧ (y = x + 1 ∨ x = y + 1) := by
  unfold isEmpty at hr hs
  unfold Mem
  rcases h with h | h
  · exact ⟨r.start, s.stop - 1, by omega, by omega, by omega⟩
  · exact ⟨r.stop - 1, s.start, by omega, by omega, by omega⟩

theorem abuts_of_step (h : (r.intersection s).isEmpty) {x y : ℤ} (hx : Mem x r) (hy : Mem y s)
    (hxy : y = x + 1 ∨ x = y + 1) : r.Abuts s := by
  have hxs : ¬ Mem x s := fun hxs => isEmpty_iff.1 h x (mem_intersection.2 ⟨hx, hxs⟩)
  have hyr : ¬ Mem y r := fun hyr => isEmpty_iff.1 h y (mem_intersection.2 ⟨hyr, hy⟩)
  unfold Mem at *
  unfold Abuts
  omega

end Range

namespace Hypercube

/-- The points differ by one in one coordinate, and agree in all others. -/
def Adjacent (p q : List ℤ) : Prop :=
  ∃ d x y t, p = d ++ x :: t ∧ q = d ++ y :: t ∧ (y = x + 1 ∨ x = y + 1)

theorem adjacent_cons {x y : ℤ} {p q : List ℤ} :
    Adjacent (x :: p) (y :: q) ↔ (x = y ∧ Adjacent p q) ∨ (p = q ∧ (y = x + 1 ∨ x = y + 1)) := by
  constructor
  · rintro ⟨d, x', y', t, hp, hq, hxy⟩
    rcases d with _ | ⟨z, d⟩
    · obtain ⟨rfl, rfl⟩ := List.cons.inj hp
      obtain ⟨rfl, rfl⟩ := List.cons.inj hq
      exact .inr ⟨rfl, hxy⟩
    · obtain ⟨rfl, rfl⟩ := List.cons.inj hp
      obtain ⟨rfl, rfl⟩ := List.cons.inj hq
      exact .inl ⟨rfl, d, x', y', t, rfl, rfl, hxy⟩
  · rintro (⟨rfl, d, x', y', t, rfl, rfl, hxy⟩ | ⟨rfl, hxy⟩)
    · exact ⟨x :: d, x', y', t, rfl, rfl, hxy⟩
    · exact ⟨[], x, y, p, rfl, rfl, hxy⟩

section Loops

variable {r s : Range} {a b : Hypercube} {i k dim : ℕ}

theorem boundDim_cons (found : Option ℕ) : boundDim i found (r :: a) (s :: b)
    = if r.Abuts s then if found.isSome then none else boundDim (i + 1) (some i) a b
      else boundDim (i + 1) found a b := rfl

/-- With a bound found already, the loop is to find no other. -/
theorem boundDim_some : ∀ {a b : Hypercube} {i : ℕ}, boundDim i (some k) a b = some dim → dim = k
  | [], _, _, h => by
    rw [boundDim] at h
    · exact (Option.some.inj h).symm
    · simp
  | _ :: _, [], _, h => (Option.some.inj h).symm
  | r :: a, s :: b, i, h => by
    rw [boundDim_cons] at h
    split_ifs at h with hrs hfound
    · simp at hfound
    · exact boundDim_some h

theorem boundDim_of_doesIntersect : ∀ {a b : Hypercube} {i : ℕ}, doesIntersect a b →
    boundDim i (some k) a b = some k
  | [], _, _, _ => by
    rw [boundDim]
    simp
  | _ :: _, [], _, _ => rfl
  | r :: a, s :: b, i, h => by
    rw [boundDim_cons, if_neg fun hrs => h.1 (Range.Abuts.isEmpty_intersection hrs)]
    exact boundDim_of_doesIntersect h.2

theorem le_of_boundDim : ∀ {a b : Hypercube} {i : ℕ}, boundDim i none a b = some dim → i ≤ dim
  | [], _, _, h => by
    rw [boundDim] at h
    · cases h
    · simp
  | _ :: _, [], _, h => by cases h
  | r :: a, s :: b, i, h => by
    rw [boundDim_cons] at h
    split_ifs at h
    · exact (boundDim_some h).ge
    · exact (Nat.le_succ i).trans (le_of_boundDim h)

/-- Behind the dimension of the bound, the second loop looks at all dimensions. -/
theorem overlapElsewhere_iff : ∀ {a b : Hypercube} {i : ℕ}, dim < i →
    (overlapElsewhere dim i a b = true ↔ doesIntersect a b)
  | [], _, _, _ => by simp [overlapElsewhere, doesIntersect]
  | _ :: _, [], _, _ => by simp [overlapElsewhere, doesIntersect]
  | r :: a, s :: b, i, h => by
    rw [overlapElsewhere, doesIntersect]
    by_cases hrs : (r.intersection s).isEmpty
    · simp [hrs, h.ne']
    · simp [hrs, overlapElsewhere_iff (h.trans (Nat.lt_succ_self i))]

/-- `touches`, from dimension `i` on. -/
def TouchesFrom (i : ℕ) (a b : Hypercube) : Prop :=
  ∃ dim, boundDim i none a b = some dim ∧ overlapElsewhere dim i a b = true

theorem touchesFrom_zero : TouchesFrom 0 a b ↔ touches a b = true := by
  unfold TouchesFrom touches
  cases boundDim 0 none a b <;> simp

theorem touchesFrom_of_abuts (h : r.Abuts s) :
    TouchesFrom i (r :: a) (s :: b) ↔ doesIntersect a b := by
  have hover : overlapElsewhere i i (r :: a) (s :: b) = true ↔ doesIntersect a b := by
    rw [overlapElsewhere, if_neg (by simp), overlapElsewhere_iff (Nat.lt_succ_self i)]
  unfold TouchesFrom
  rw [boundDim_cons, if_pos h, if_neg (by simp)]
  constructor
  · rintro ⟨dim, hdim, ht⟩
    rw [boundDim_some hdim] at ht
    exact hover.1 ht
  · intro ht
    exact ⟨i, boundDim_of_doesIntersect ht, hover.2 ht⟩

theorem touchesFrom_of_not_abuts (h : ¬ r.Abuts s) : TouchesFrom i (r :: a) (s :: b)
    ↔ ¬ (r.intersection s).isEmpty ∧ TouchesFrom (i + 1) a b := by
  unfold TouchesFrom
  rw [boundDim_cons, if_neg h]
  have hover : ∀ {dim}, boundDim (i + 1) none a b = some dim →
      (overlapElsewhere dim i (r :: a) (s :: b) = true
        ↔ ¬ (r.intersection s).isEmpty ∧ overlapElsewhere dim (i + 1) a b = true) := by
    intro dim hdim
    have hne : i ≠ dim := Nat.ne_of_lt (le_of_boundDim hdim)
    rw [overlapElsewhere]
    by_cases hrs : (r.intersection s).isEmpty <;> simp [hrs, hne]
  constructor
  · rintro ⟨dim, hdim, ht⟩
    obtain ⟨hrs, ht⟩ := (hover hdim).1 ht
    exact ⟨hrs, dim, hdim, ht⟩
  · rintro ⟨hrs, dim, hdim, ht⟩
    exact ⟨dim, hdim, (hover hdim).2 ⟨hrs, ht⟩⟩

end Loops

/-- There is a step from one of the hypercubes to the other. -/
def StepBetween (a b : Hypercube) : Prop := ∃ p ∈ points a, ∃ q ∈ points b, Adjacent p q

theorem stepBetween_cons {r s : Range} {a b : Hypercube} : StepBetween (r :: a) (s :: b)
    ↔ (∃ x, Range.Mem x r ∧ Range.Mem x s) ∧ StepBetween a b
      ∨ (points a ∩ points b).Nonempty
        ∧ ∃ x y, Range.Mem x r ∧ Range.Mem y s ∧ (y = x + 1 ∨ x = y + 1) := by
  constructor
  · rintro ⟨p, hp, q, hq, hpq⟩
    obtain ⟨x, p', rfl, hx, hp'⟩ := mem_points_cons_iff.1 hp
    obtain ⟨y, q', rfl, hy, hq'⟩ := mem_points_cons_iff.1 hq
    rcases adjacent_cons.1 hpq with ⟨rfl, hstep⟩ | ⟨rfl, hxy⟩
    · exact .inl ⟨⟨x, hx, hy⟩, p', hp', q', hq', hstep⟩
    · exact .inr ⟨⟨p', hp', hq'⟩, x, y, hx, hy, hxy⟩
  · rintro (⟨⟨x, hx, hy⟩, p, hp, q, hq, hpq⟩ | ⟨⟨p, hp, hq⟩, x, y, hx, hy, hxy⟩)
    · exact ⟨x :: p, mem_points_cons.2 ⟨hx, hp⟩, x :: q, mem_points_cons.2 ⟨hy, hq⟩,
        adjacent_cons.2 (.inl ⟨rfl, hpq⟩)⟩
    · exact ⟨x :: p, mem_points_cons.2 ⟨hx, hp⟩, y :: p, mem_points_cons.2 ⟨hy, hq⟩,
        adjacent_cons.2 (.inr ⟨rfl, hxy⟩)⟩

/-- By induction on the dimensions: in the first one the ranges abut, or they overlap and the rest
touches. -/
theorem touchesFrom_iff : ∀ {a b : Hypercube} {i : ℕ}, a.length = b.length → ¬ isEmpty a →
    ¬ isEmpty b → (TouchesFrom i a b ↔ ¬ doesIntersect a b ∧ StepBetween a b)
  | [], [], i, _, _, _ => by
    have hno : ¬ TouchesFrom i [] [] := by
      rintro ⟨dim, hdim, -⟩
      cases hdim
    exact iff_of_false hno fun h => h.1 trivial
  | r :: a, s :: b, i, hl, ha, hb => by
    obtain ⟨hr, ha⟩ : ¬ r.isEmpty ∧ ¬ isEmpty a := by simpa [isEmpty, not_or] using ha
    obtain ⟨hs, hb⟩ : ¬ s.isEmpty ∧ ¬ isEmpty b := by simpa [isEmpty, not_or] using hb
    have hl : a.length = b.length := Nat.succ.inj hl
    rw [stepBetween_cons, ← doesIntersect_iff hl, doesIntersect]
    by_cases hrs : (r.intersection s).isEmpty
    · have hcommon : ¬ ∃ x, Range.Mem x r ∧ Range.Mem x s := by
        rintro ⟨x, hx⟩
        exact Range.isEmpty_iff.1 hrs x (Range.mem_intersection.2 hx)
      by_cases h : r.Abuts s
      · simp only [touchesFrom_of_abuts h, hrs, hcommon, not_true_eq_false, false_and,
          not_false_eq_true, true_and, false_or, h.exists_step hr hs, and_true]
      · rw [touchesFrom_of_not_abuts h]
        refine iff_of_false (fun ht => ht.1 hrs) ?_
        rintro ⟨-, ⟨hx, -⟩ | ⟨-, x, y, hx, hy, hxy⟩⟩
        · exact hcommon hx
        · exact h (Range.abuts_of_step hrs hx hy hxy)
    · have h : ¬ r.Abuts s := fun h => hrs h.isEmpty_intersection
      have hcommon : ∃ x, Range.Mem x r ∧ Range.Mem x s := by
        simpa [Range.isEmpty_iff, Range.mem_intersection] using hrs
      rw [touchesFrom_of_not_abuts h, touchesFrom_iff hl ha hb]
      simp only [hrs, hcommon, not_false_eq_true, true_and]
      constructor
      · rintro ⟨hno, hstep⟩
        exact ⟨hno, .inl hstep⟩
      · rintro ⟨hno, hstep | ⟨hint, -⟩⟩
        · exact ⟨hno, hstep⟩
        · exact absurd hint hno

/-- Two hypercubes touch if they have no point in common and one step leads from the one to the
other. -/
theorem touches_iff {a b : Hypercube} (hl : a.length = b.length) (ha : ¬ a.isEmpty)
    (hb : ¬ b.isEmpty) : a.touches b = true
      ↔ (∀ p ∈ points a, p ∉ points b) ∧ ∃ p ∈ points a, ∃ q ∈ points b, Adjacent p q := by
  rw [← touchesFrom_zero, touchesFrom_iff hl ha hb, not_doesIntersect_iff hl]
  rfl

theorem touches_iff_squares : touches [⟨0, 2⟩, ⟨0, 2⟩] [⟨2, 3⟩, ⟨1, 4⟩] = true
    ∧ ∃ p ∈ points [⟨0, 2⟩, ⟨0, 2⟩], ∃ q ∈ points [⟨2, 3⟩, ⟨1, 4⟩], Adjacent p q :=
  ⟨by decide, ((@touches_iff [⟨0, 2⟩, ⟨0, 2⟩] [⟨2, 3⟩, ⟨1, 4⟩] rfl (by decide) (by decide)).1
    (by decide)).2⟩

end Hypercube

end Esdm
