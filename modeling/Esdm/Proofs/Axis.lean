import Esdm.Proofs.Split
import Esdm.Proofs.Steps

/-!
# Axes

An axis that encloses anything has strictly increasing bounds, from the first to the last of its
domain, and the interpolation search finds the interval of every location (`findInterval_eq_ok`).

The subdivisions accept arguments that are not positive, and leave axes behind which enclose
nothing. Such an axis never matches a location; its bounds do not increase, so that no subgrid made
from it encloses anything either.
-/

namespace Esdm

namespace Axis

/-- An axis that encloses something. -/
structure Proper (axis : Axis) : Prop where
  intervals : 1 ≤ axis.intervals
  length : (axis.allBounds.length : ℤ) = axis.intervals + 1
  head : axis.allBounds.head? = some axis.outerStart
  last : axis.allBounds.getLast? = some axis.outerStop
  sorted : axis.allBounds.Pairwise (· < ·)

/-- What holds of every axis. -/
structure Wf (axis : Axis) : Prop where
  proper : axis.outerStart < axis.outerStop → 1 ≤ axis.intervals → axis.Proper
  improper : axis.outerStop ≤ axis.outerStart → axis.allBounds.Pairwise (· ≥ ·)

variable {axis : Axis} {x : ℤ}

section Bound

theorem bound_eq_ok {i y : ℤ} :
    axis.bound i = .ok y ↔ 0 ≤ i ∧ axis.allBounds[i.toNat]? = some y := by
  unfold bound
  split_ifs with h
  · simp only [false_iff, not_and]
    omega
  · rw [access_eq_ok]
    exact ⟨fun h' => ⟨by omega, h'⟩, And.right⟩

theorem bound_natCast {i : ℕ} {y : ℤ} : axis.bound i = .ok y ↔ axis.allBounds[i]? = some y := by
  rw [bound_eq_ok]
  simp

theorem Proper.exists_bound (h : axis.Proper) {i : ℕ} (hi : (i : ℤ) ≤ axis.intervals) :
    ∃ y, axis.allBounds[i]? = some y :=
  ⟨_, List.getElem?_eq_getElem (by have := h.length; omega)⟩

theorem Proper.bound_zero (h : axis.Proper) : axis.allBounds[0]? = some axis.outerStart := by
  rw [← List.head?_eq_getElem?, h.head]

theorem Proper.bound_last (h : axis.Proper) :
    axis.allBounds[axis.intervals.toNat]? = some axis.outerStop := by
  rw [← h.last, List.getLast?_eq_getElem?]
  congr 1
  have := h.length
  omega

theorem Proper.bound_lt (h : axis.Proper) {i j : ℕ} (hij : i < j) {y z : ℤ}
    (hi : axis.allBounds[i]? = some y) (hj : axis.allBounds[j]? = some z) : y < z := by
  obtain ⟨hi', rfl⟩ := List.getElem?_eq_some_iff.1 hi
  obtain ⟨hj', rfl⟩ := List.getElem?_eq_some_iff.1 hj
  exact List.pairwise_iff_getElem.1 h.sorted i j hi' hj' hij

theorem Proper.bound_le (h : axis.Proper) {i j : ℕ} (hij : i ≤ j) {y z : ℤ}
    (hi : axis.allBounds[i]? = some y) (hj : axis.allBounds[j]? = some z) : y ≤ z := by
  rcases hij.lt_or_eq with hlt | rfl
  · exact (h.bound_lt hlt hi hj).le
  · exact (Option.some.inj (hi.symm.trans hj)).le

theorem Proper.outer_lt (h : axis.Proper) : axis.outerStart < axis.outerStop :=
  h.bound_lt (by have := h.intervals; omega) h.bound_zero h.bound_last

end Bound

section Search

/-- The location lies in the interval with the given index. -/
def At (axis : Axis) (x : ℤ) (i : ℕ) : Prop :=
  (i : ℤ) < axis.intervals ∧ ∃ y z, axis.allBounds[i]? = some y ∧ axis.allBounds[i + 1]? = some z
    ∧ y ≤ x ∧ x < z

/-- The loop narrows the search down to one interval. -/
theorem Proper.search_eq_ok (h : axis.Proper) : ∀ (fuel a b : ℕ) {y z : ℤ}, a < b → b - a ≤ fuel →
    (b : ℤ) ≤ axis.intervals → axis.allBounds[a]? = some y → axis.allBounds[b]? = some z →
    y ≤ x → x < z → ∃ i : ℕ, axis.search x fuel a b = .ok (i : ℤ) ∧ axis.At x i
  | 0, a, b, _, _, hab, hf, _, _, _, _, _ => by omega
  | fuel + 1, a, b, y, z, hab, hf, hb, hy, hz, hyx, hxz => by
    rw [search]
    by_cases hone : (a : ℤ) + 1 < b
    · have hyz : y < z := h.bound_lt hab hy hz
      rw [if_pos hone, bound_natCast.2 hy, bound_natCast.2 hz]
      simp only [Outcome.ok_bind]
      rw [if_neg (by omega)]
      -- the guess is the location's share of the distance
      have hnum : 0 ≤ ((b : ℤ) - a) * (x - y) := Int.mul_nonneg (by omega) (by omega)
      have hq0 : 0 ≤ (((b : ℤ) - a) * (x - y)).tdiv (z - y) := by
        rw [Int.tdiv_eq_ediv_of_nonneg hnum]
        exact Int.ediv_nonneg hnum (by omega)
      have hq1 : (((b : ℤ) - a) * (x - y)).tdiv (z - y) < b - a := by
        rw [Int.tdiv_eq_ediv_of_nonneg hnum]
        exact Int.ediv_lt_of_lt_mul (by omega)
          (Int.mul_lt_mul_of_pos_left (by omega) (by omega))
      generalize (((b : ℤ) - a) * (x - y)).tdiv (z - y) = q at hq0 hq1
      rw [eassert_of (by omega)]
      simp only [Outcome.ok_bind]
      obtain ⟨m, hm⟩ : ∃ m : ℕ, (if (a : ℤ) + q = a then a + q + 1
          else if (a : ℤ) + q = b then a + q - 1 else a + q) = m :=
        ⟨(a + q + if q = 0 then 1 else 0).toNat, by split_ifs <;> omega⟩
      have hmab : a < m ∧ m < b := by
        split_ifs at hm <;> omega
      rw [hm, eassert_of (by omega)]
      obtain ⟨w, hw⟩ := h.exists_bound (i := m) (by omega)
      rw [bound_natCast.2 hw]
      simp only [Outcome.ok_bind]
      split_ifs with hxw
      · exact h.search_eq_ok fuel a m (by omega) (by omega) (by omega) hy hw hyx (by omega)
      · exact h.search_eq_ok fuel m b (by omega) (by omega) hb hw hz (by omega) hxz
    · obtain rfl : b = a + 1 := by omega
      rw [if_neg hone, eassert_of (by omega)]
      exact ⟨a, rfl, by omega, y, z, hy, hz, hyx, hxz⟩

/-- The search finds the interval of every location in the axis's domain. -/
theorem Proper.findInterval_eq_ok (h : axis.Proper) (h1 : axis.outerStart ≤ x)
    (h2 : x < axis.outerStop) : ∃ i : ℕ, axis.findInterval x = .ok (i : ℤ) ∧ axis.At x i := by
  have hpos := h.intervals
  have hlast := h.bound_last
  rw [findInterval, if_neg (by omega)]
  have := h.search_eq_ok (x := x) (axis.intervals.toNat + 1) 0 axis.intervals.toNat (by omega)
    (by omega) (by omega) h.bound_zero hlast h1 h2
  rwa [Int.toNat_of_nonneg (by omega)] at this

theorem Proper.at_mono (h : axis.Proper) {x' : ℤ} {i j : ℕ} (hi : axis.At x i)
    (hj : axis.At x' j) (hx : x ≤ x') : i ≤ j := by
  obtain ⟨-, y, z, hy, hz, hyx, hxz⟩ := hi
  obtain ⟨-, y', z', hy', hz', hyx', hxz'⟩ := hj
  by_contra hlt
  have := h.bound_le (show j + 1 ≤ i by omega) hz' hy
  omega

theorem Proper.at_mem (h : axis.Proper) {k : ℕ} (hx : axis.At x k) :
    axis.outerStart ≤ x ∧ x < axis.outerStop := by
  obtain ⟨hlt, y, z, hy, hz, hyx, hxz⟩ := hx
  have h1 := h.bound_le (Nat.zero_le k) h.bound_zero hy
  have h2 := h.bound_le (show k + 1 ≤ axis.intervals.toNat by omega) hz h.bound_last
  omega

theorem Proper.at_unique (h : axis.Proper) {i j : ℕ} (hi : axis.At x i) (hj : axis.At x j) :
    i = j :=
  le_antisymm (h.at_mono hi hj le_rfl) (h.at_mono hj hi le_rfl)

/-- On every axis with increasing bounds the search returns: the interval that holds the location,
which is the only one, or -1 if the location is outside of the domain. -/
theorem Proper.findInterval_finds (h : axis.Proper) (x : ℤ) : ∃ r, axis.findInterval x = .ok r
    ∧ (r = -1 ↔ x < axis.outerStart ∨ axis.outerStop ≤ x)
    ∧ (r ≠ -1 → ∃ i : ℕ, r = i ∧ axis.At x i ∧ ∀ j, axis.At x j → j = i) := by
  by_cases hx : x < axis.outerStart ∨ axis.outerStop ≤ x
  · refine ⟨-1, ?_, iff_of_true rfl hx, fun hne => absurd rfl hne⟩
    rw [findInterval, if_pos hx]
  · push Not at hx
    obtain ⟨i, hi, hat⟩ := h.findInterval_eq_ok hx.1 hx.2
    refine ⟨i, hi, iff_of_false (by omega) (by omega), fun _ => ⟨i, rfl, hat, fun j hj => ?_⟩⟩
    exact h.at_unique hj hat

theorem findInterval_finds_uneven : Proper ⟨3, 0, 100, [0, 1, 5, 100]⟩
    ∧ ∃ r, findInterval ⟨3, 0, 100, [0, 1, 5, 100]⟩ 4 = .ok r ∧ r = (1 : ℕ) := by
  have h : Proper ⟨3, 0, 100, [0, 1, 5, 100]⟩ := ⟨by decide, rfl, rfl, rfl, by decide⟩
  obtain ⟨r, hr, hiff, hfound⟩ := h.findInterval_finds 4
  obtain ⟨i, rfl, -, hunique⟩ := hfound (by rw [ne_eq, hiff]; decide)
  have hone : At ⟨3, 0, 100, [0, 1, 5, 100]⟩ 4 1 :=
    ⟨by decide, 1, 5, rfl, rfl, by decide, by decide⟩
  exact ⟨h, i, hr, congrArg _ (hunique 1 hone).symm⟩

theorem intervals_of_search_eq_ok {fuel : ℕ} {i : ℤ}
    (h : axis.search x fuel 0 axis.intervals = .ok i) : 1 ≤ axis.intervals := by
  cases fuel with
  | zero => cases h
  | succ fuel =>
    rw [search] at h
    by_cases hone : (0 : ℤ) + 1 < axis.intervals
    · omega
    · rw [if_neg hone] at h
      obtain ⟨_, he, -⟩ := Outcome.bind_eq_ok.1 h
      have := eassert_eq_ok.1 he
      omega

/-- A match that is not short is one of the intervals. -/
theorem Wf.matchInterval_eq_ok (hw : axis.Wf) {start stop i : ℤ} {isShort : Bool}
    (h : axis.matchInterval start stop isShort = .ok (i, false)) (hi : 0 ≤ i) :
    isShort = false ∧ axis.Proper ∧ i < axis.intervals ∧ axis.bound i = .ok start
      ∧ axis.bound (i + 1) = .ok stop := by
  unfold matchInterval at h
  by_cases h1 : start ≥ stop
  · rw [if_pos h1] at h
    obtain ⟨rfl, -⟩ := Prod.mk.inj (Except.ok.inj h)
    omega
  rw [if_neg h1] at h
  by_cases h2 : start < axis.outerStart ∨ stop > axis.outerStop
  · rw [if_pos h2] at h
    obtain ⟨rfl, -⟩ := Prod.mk.inj (Except.ok.inj h)
    omega
  rw [if_neg h2] at h
  obtain ⟨k, hk, h⟩ := Outcome.bind_eq_ok.1 h
  have hpos : 1 ≤ axis.intervals := by
    rw [findInterval, if_neg (by omega)] at hk
    exact intervals_of_search_eq_ok hk
  have hp := hw.proper (by omega) hpos
  obtain ⟨n, hn, hlt, y, z, hy, hz, hyx, hxz⟩ :=
    hp.findInterval_eq_ok (x := start) (by omega) (by omega)
  obtain rfl : (n : ℤ) = k := Except.ok.inj (hn.symm.trans hk)
  obtain ⟨_, -, h⟩ := Outcome.bind_eq_ok.1 h
  have hz' := bound_natCast.2 hz
  rw [if_neg (by omega), bound_natCast.2 hy] at h
  push_cast at hz'
  rw [hz'] at h
  simp only [Outcome.ok_bind] at h
  split_ifs at h with h3 h4
  · obtain ⟨rfl, -⟩ := Prod.mk.inj (Except.ok.inj h)
    omega
  · obtain ⟨-, hs⟩ := Prod.mk.inj (Except.ok.inj h)
    cases hs
  · obtain ⟨rfl, rfl⟩ := Prod.mk.inj (Except.ok.inj h)
    obtain rfl : start = y := by omega
    obtain rfl : stop = z := by omega
    exact ⟨rfl, hp, hlt, bound_natCast.2 hy, hz'⟩

/-- A match finds the interval that encloses the range, if there is one. -/
theorem Proper.matchInterval_spec (h : axis.Proper) (start stop : ℤ) (isShort : Bool) :
    (∃ (n : ℕ) (y z : ℤ), axis.matchInterval start stop isShort
        = .ok (n, isShort || decide (y < start ∨ stop < z))
      ∧ (n : ℤ) < axis.intervals ∧ axis.allBounds[n]? = some y ∧ axis.allBounds[n + 1]? = some z
      ∧ y ≤ start ∧ start < stop ∧ stop ≤ z)
    ∨ (axis.matchInterval start stop isShort = .ok (-1, isShort) ∧ ∀ (n : ℕ) (y z : ℤ),
      (n : ℤ) < axis.intervals → axis.allBounds[n]? = some y → axis.allBounds[n + 1]? = some z →
      ¬ (y ≤ start ∧ start < stop ∧ stop ≤ z)) := by
  unfold matchInterval
  by_cases h1 : start ≥ stop
  · rw [if_pos h1]
    exact .inr ⟨rfl, fun _ _ _ _ _ _ => by omega⟩
  rw [if_neg h1]
  by_cases h2 : start < axis.outerStart ∨ stop > axis.outerStop
  · rw [if_pos h2]
    refine .inr ⟨rfl, fun n y z hn hy hz => ?_⟩
    have hlo := h.bound_le (Nat.zero_le n) h.bound_zero hy
    have hhi := h.bound_le (show n + 1 ≤ axis.intervals.toNat by omega) hz h.bound_last
    omega
  rw [if_neg h2]
  obtain ⟨n, hn, hlt, y, z, hy, hz, hyx, hxz⟩ :=
    h.findInterval_eq_ok (x := start) (by omega) (by omega)
  have hz' := bound_natCast.2 hz
  push_cast at hz'
  rw [hn, Outcome.ok_bind, eassert_of hlt, Outcome.ok_bind, if_neg (by omega), bound_natCast.2 hy,
    hz', Outcome.ok_bind, Outcome.ok_bind]
  by_cases h3 : stop > z
  · rw [if_pos h3]
    refine .inr ⟨rfl, fun n' y' z' hn' hy' hz' hin => ?_⟩
    obtain rfl := h.at_unique (x := start) ⟨hlt, y, z, hy, hz, hyx, hxz⟩
      ⟨hn', y', z', hy', hz', hin.1, by omega⟩
    obtain rfl := Option.some.inj (hz.symm.trans hz')
    omega
  · rw [if_neg h3]
    refine .inl ⟨n, y, z, ?_, hlt, hy, hz, hyx, by omega, by omega⟩
    by_cases h4 : start > y ∨ stop < z
    · rw [if_pos h4, decide_eq_true (show y < start ∨ stop < z from h4), Bool.or_true]
      rfl
    · rw [if_neg h4, decide_eq_false (show ¬ (y < start ∨ stop < z) from h4), Bool.or_false]
      rfl

end Search

section Subdivide

theorem make_wf (offset size : ℤ) : (make offset size).Wf := by
  constructor
  · intro h _
    exact ⟨le_rfl, rfl, rfl, rfl, by simpa [make] using h⟩
  · intro h
    simpa [make] using h

/-- What a subdivision does to an axis: unless the result encloses nothing, its domain is that of
before. -/
structure Refines (axis axis' : Axis) : Prop where
  wf : axis'.Wf
  outer : axis'.outerStart < axis'.outerStop →
    axis'.outerStart = axis.outerStart ∧ axis'.outerStop = axis.outerStop

theorem Wf.refl (hw : axis.Wf) : Refines axis axis := ⟨hw, fun _ => ⟨rfl, rfl⟩⟩

/-- The bounds of a regular subdivision. -/
theorem pairwise_map_range {n : ℕ} {f : ℕ → ℤ} {R : ℤ → ℤ → Prop}
    (h : ∀ i j, i < j → j < n → R (f i) (f j)) : ((List.range n).map f).Pairwise R := by
  rw [List.pairwise_map]
  refine List.pairwise_lt_range.imp_of_mem ?_
  intro i j _ hj hij
  exact h i j hij (List.mem_range.1 hj)

theorem getLast?_map_range (n : ℕ) (f : ℕ → ℤ) :
    ((List.range (n + 1)).map f).getLast? = some (f n) := by
  rw [List.range_succ, List.map_append, List.map_singleton, List.getLast?_concat]

/-- Multiples of `a` have quotients by `n` at least one apart. -/
theorem tdiv_lt_tdiv {a n : ℤ} (hn : 0 < n) (hna : n ≤ a) {i j : ℕ} (hij : i < j) :
    (a * i).tdiv n < (a * j).tdiv n := by
  have hstep : a * ((i : ℤ) + 1) ≤ a * j := Int.mul_le_mul_of_nonneg_left (by omega) (by omega)
  rw [Int.tdiv_eq_ediv_of_nonneg (Int.mul_nonneg (by omega) (by omega)),
    Int.tdiv_eq_ediv_of_nonneg (Int.mul_nonneg (by omega) (by omega))]
  calc a * i / n < a * i / n + 1 := by omega
    _ = (a * i + 1 * n) / n := (Int.add_mul_ediv_right _ _ hn.ne').symm
    _ ≤ a * j / n := Int.ediv_le_ediv hn (by rw [Int.mul_add] at hstep; omega)

/-- The bounds of a subdivision into a positive number of intervals. -/
theorem flexible_proper {n : ℕ} (hn : 0 < n) (hle : (n : ℤ) ≤ axis.outerStop - axis.outerStart) :
    Proper { axis with
      intervals := n
      allBounds := (List.range (n + 1)).map fun i : ℕ =>
        axis.outerStart + ((axis.outerStop - axis.outerStart) * i).tdiv n } := by
  refine ⟨by dsimp only; omega, by simp, ?_, ?_, ?_⟩
  · simp [List.range_succ_eq_map]
  · dsimp only
    rw [getLast?_map_range, Int.mul_tdiv_cancel _ (by omega)]
    congr 1
    omega
  · refine pairwise_map_range fun i j hij _ => ?_
    have := tdiv_lt_tdiv (show (0 : ℤ) < n by omega) hle hij
    omega

theorem Wf.subdivideFlexible (hw : axis.Wf) {count : ℤ} {status : Status} {axis' : Axis}
    (h : axis.subdivideFlexible count = .ok (status, axis')) : Refines axis axis' := by
  unfold Axis.subdivideFlexible at h
  dsimp only at h
  split_ifs at h with h1 h2 h3
  · obtain ⟨-, rfl⟩ := Prod.mk.inj (Except.ok.inj h)
    exact hw.refl
  · obtain ⟨-, rfl⟩ := Prod.mk.inj (Except.ok.inj h)
    refine ⟨⟨fun hlt hpos => ?_, fun hle => ?_⟩, fun _ => ⟨rfl, rfl⟩⟩
    · dsimp only at hpos
      obtain ⟨n, rfl⟩ := Int.eq_ofNat_of_zero_le (show 0 ≤ count by omega)
      rw [show ((n : ℤ) + 1).toNat = n + 1 by omega]
      exact flexible_proper (by omega) (by omega)
    · dsimp only at hle ⊢
      rw [show (count + 1).toNat = 0 by omega]
      exact List.Pairwise.nil

/-- One interval: the bounds are written over the outer bounds they are computed from. -/
theorem wf_single (first last : ℤ) : Wf ⟨1, first, last, [first, last]⟩ := by
  refine ⟨fun h _ => ⟨le_rfl, rfl, rfl, rfl, ?_⟩, fun h => ?_⟩
  · simpa using h
  · simpa using h

/-- A positive domain has no intervals, or one, if it is subdivided by a negative size. -/
theorem intervals_of_neg {n size : ℤ} (hn : 0 < n) (hs : size < 0) :
    (n + size - 1).tdiv size ≤ 1 := by
  by_cases h : n + size - 1 ≤ 0
  · have : (n + size - 1).tdiv size = (-(n + size - 1)).tdiv (-size) := by
      rw [Int.neg_tdiv_neg]
    rw [this, Int.tdiv_eq_ediv_of_nonneg (by omega)]
    have : -(n + size - 1) / -size < 2 := Int.ediv_lt_of_lt_mul (by omega) (by omega)
    omega
  · have : (n + size - 1).tdiv size = -((n + size - 1).tdiv (-size)) := by
      rw [Int.tdiv_neg, Int.neg_neg]
    rw [this, Int.tdiv_eq_ediv_of_nonneg (by omega)]
    have : 0 ≤ (n + size - 1) / -size := Int.ediv_nonneg (by omega) (by omega)
    omega

/-- The bounds of a subdivision by a positive size. -/
theorem fixed_proper {size : ℤ} (hlt : axis.outerStart < axis.outerStop) (hs : 0 < size)
    (hpos : 1 ≤ (axis.outerStop - axis.outerStart + size - 1).tdiv size) :
    Proper { axis with
      intervals := (axis.outerStop - axis.outerStart + size - 1).tdiv size
      allBounds :=
        (List.range ((axis.outerStop - axis.outerStart + size - 1).tdiv size + 1).toNat).map
          fun i : ℕ => axis.outerStart + if size * i
            < axis.outerStop - axis.outerStart then size * i
            else axis.outerStop - axis.outerStart } := by
  rw [Int.tdiv_eq_ediv_of_nonneg (by omega)] at hpos ⊢
  -- the last bound but one lies inside the domain, and the last one not
  have hlo : (axis.outerStop - axis.outerStart + size - 1) / size * size
      ≤ axis.outerStop - axis.outerStart + size - 1 := Int.ediv_mul_le _ hs.ne'
  have hhi : axis.outerStop - axis.outerStart + size - 1
      < ((axis.outerStop - axis.outerStart + size - 1) / size + 1) * size :=
    Int.lt_ediv_add_one_mul_self _ hs
  generalize (axis.outerStop - axis.outerStart + size - 1) / size = q at hpos hlo hhi
  obtain ⟨n, rfl⟩ := Int.eq_ofNat_of_zero_le (show 0 ≤ q by omega)
  have hn : ((n : ℤ) + 1).toNat = n + 1 := by omega
  rw [hn]
  rw [Int.add_mul, Int.one_mul] at hhi
  refine ⟨hpos, by simp, ?_, ?_, ?_⟩
  · dsimp only
    rw [List.range_succ_eq_map, List.map_cons, List.head?_cons, Nat.cast_zero, mul_zero,
      if_pos (by omega), add_zero]
  · dsimp only
    rw [getLast?_map_range, if_neg (by rw [Int.mul_comm]; omega)]
    congr 1
    omega
  · refine pairwise_map_range fun i j hij hj => ?_
    have h1 : size * ((i : ℤ) + 1) ≤ size * j :=
      Int.mul_le_mul_of_nonneg_left (by omega) (by omega)
    have h2 : size * ((i : ℤ) + 1) ≤ size * n :=
      Int.mul_le_mul_of_nonneg_left (by omega) (by omega)
    rw [Int.mul_add, Int.mul_one] at h1 h2
    rw [Int.mul_comm] at hlo
    split_ifs <;> omega

theorem Wf.subdivideFixed (hw : axis.Wf) {size : ℤ} {allowIncomplete : Bool} {status : Status}
    {axis' : Axis} (h : axis.subdivideFixed size allowIncomplete = .ok (status, axis')) :
    Refines axis axis' := by
  unfold Axis.subdivideFixed at h
  dsimp only at h
  by_cases h1 : axis.outerStop - axis.outerStart < size
  · rw [if_pos h1] at h
    obtain ⟨-, rfl⟩ := Prod.mk.inj (Except.ok.inj h)
    exact hw.refl
  rw [if_neg h1] at h
  by_cases h2 : size = 0
  · rw [if_pos h2] at h
    cases h
  rw [if_neg h2] at h
  by_cases h3 : ¬ allowIncomplete = true ∧ (axis.outerStop - axis.outerStart).tmod size ≠ 0
  · rw [if_pos h3] at h
    obtain ⟨-, rfl⟩ := Prod.mk.inj (Except.ok.inj h)
    exact hw.refl
  rw [if_neg h3] at h
  by_cases h4 : (axis.outerStop - axis.outerStart + size - 1).tdiv size < -1
  · rw [if_pos h4] at h
    cases h
  rw [if_neg h4] at h
  by_cases h5 : (axis.outerStop - axis.outerStart + size - 1).tdiv size = 1
  · rw [if_pos h5] at h
    obtain ⟨-, rfl⟩ := Prod.mk.inj (Except.ok.inj h)
    refine ⟨wf_single _ _, fun hlt => ?_⟩
    dsimp only at hlt ⊢
    have hsize : size < axis.outerStop - axis.outerStart → size < 0 := by
      intro hlt'
      by_contra hneg
      rw [Int.tdiv_eq_ediv_of_nonneg (by omega)] at h5
      have : 2 ≤ (axis.outerStop - axis.outerStart + size - 1) / size :=
        Int.le_ediv_of_mul_le (by omega) (by omega)
      omega
    split_ifs at hlt ⊢ <;> omega
  · rw [if_neg h5] at h
    obtain ⟨-, rfl⟩ := Prod.mk.inj (Except.ok.inj h)
    refine ⟨⟨fun hlt hpos => ?_, fun hle => ?_⟩, fun _ => ⟨rfl, rfl⟩⟩
    · dsimp only at hlt hpos
      have hsize : 0 < size := by
        by_contra hneg
        have := intervals_of_neg (show 0 < axis.outerStop - axis.outerStart by omega)
          (show size < 0 by omega)
        omega
      exact fixed_proper hlt hsize hpos
    · dsimp only at hle ⊢
      refine pairwise_map_range fun i j hij _ => ?_
      have := Int.mul_le_mul_of_nonpos_left (show size ≤ 0 by omega)
        (show (i : ℤ) ≤ j by omega)
      split_ifs <;> omega

theorem pairwise_of_zip_tail : ∀ {l : List ℤ}, (¬ ∃ q ∈ l.zip l.tail, q.1 ≥ q.2) →
    l.Pairwise (· < ·)
  | [], _ => .nil
  | [a], _ => List.pairwise_singleton _ a
  | a :: b :: l, h => by
    have hab : a < b := by
      by_contra hle
      exact h ⟨(a, b), by simp, by omega⟩
    have ih := pairwise_of_zip_tail (l := b :: l) fun ⟨q, hq, hle⟩ => h ⟨q, by simp_all, hle⟩
    refine List.pairwise_cons.2 ⟨fun c hc => ?_, ih⟩
    rcases List.mem_cons.1 hc with rfl | hc
    · exact hab
    · exact hab.trans ((List.pairwise_cons.1 ih).1 c hc)

theorem Wf.subdivide (hw : axis.Wf) {bounds : List ℤ} {status : Status} {axis' : Axis}
    (h : axis.subdivide bounds = .ok (status, axis')) : Refines axis axis' := by
  unfold Axis.subdivide at h
  obtain ⟨_, hb, h⟩ := Outcome.bind_eq_ok.1 h
  have hb := eassert_eq_ok.1 hb
  split_ifs at h with h1 h2 h3
  · obtain ⟨-, rfl⟩ := Prod.mk.inj (Except.ok.inj h)
    exact hw.refl
  · obtain ⟨-, rfl⟩ := Prod.mk.inj (Except.ok.inj h)
    exact hw.refl
  · obtain ⟨-, rfl⟩ := Prod.mk.inj (Except.ok.inj h)
    exact hw.refl
  · obtain ⟨-, rfl⟩ := Prod.mk.inj (Except.ok.inj h)
    have hp : Proper { axis with intervals := (bounds.length : ℤ) - 1, allBounds := bounds } := by
      refine ⟨by dsimp only; omega, by dsimp only; omega, not_not.1 h1, not_not.1 h2, ?_⟩
      exact pairwise_of_zip_tail h3
    refine ⟨⟨fun _ _ => hp, fun hle => ?_⟩, fun _ => ⟨rfl, rfl⟩⟩
    have := hp.outer_lt
    omega

end Subdivide

end Axis

end Esdm
