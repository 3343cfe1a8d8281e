import Esdm.Lib.Cover
import Esdm.MinimalSubset
import Esdm.Proofs.Hypercube
import Mathlib.Data.Int.Interval
import Mathlib.Data.Set.Card
import Mathlib.Order.Interval.Set.Basic
import Mathlib.Tactic.Linarith

/-!
# Minimal subsets

Every subset that the search returns covers what the whole list covers, and no cube that it selects
is covered by the others (`nonredundantSubsets_minimal`).  The rounds of the search are steps of
`Cover.Search`; the matrix has the intersections of the cubes that are left (`checkCube_spec`).  The
cubes that are required from the start are not covered by all others: if one were, its intersections
with them had as many points as the cube itself (`size_le_of_covered`).
-/

namespace Esdm

namespace Hypercube

variable {cubes : List Hypercube} {dims : ℕ}

section Card

/-- The points of a hypercube are as many as its size says. -/
theorem ncard_points : ∀ c : Hypercube, (points c).Finite ∧ ((points c).ncard : ℤ) = size c
  | [] => by
    have h : points ([] : Hypercube) = {[]} := by
      ext p
      simp [points]
    rw [h]
    simp [size]
  | r :: c => by
    obtain ⟨hfin, hcard⟩ := ncard_points c
    have himage : points (r :: c)
        = (fun x : ℤ × List ℤ => x.1 :: x.2) '' (Set.Ico r.start r.stop ×ˢ points c) := by
      ext p
      rw [mem_points_cons_iff]
      constructor
      · rintro ⟨x, q, rfl, hx, hq⟩
        exact ⟨(x, q), ⟨hx, hq⟩, rfl⟩
      · rintro ⟨⟨x, q⟩, ⟨hx, hq⟩, rfl⟩
        exact ⟨x, q, rfl, hx, hq⟩
    have hinj : Function.Injective fun x : ℤ × List ℤ => x.1 :: x.2 := by
      rintro ⟨x, q⟩ ⟨y, q'⟩ h
      simpa using h
    refine ⟨himage ▸ ((Set.finite_Ico _ _).prod hfin).image _, ?_⟩
    rw [himage, Set.ncard_image_of_injective _ hinj, Set.ncard_prod, Nat.cast_mul, hcard]
    have hr : ((Set.Ico r.start r.stop).ncard : ℤ) = r.size := by
      rw [← Finset.coe_Ico, Set.ncard_coe_finset, Int.card_Ico]
      unfold Range.size Range.isEmpty
      split_ifs <;> omega
    rw [hr, size, size, List.map_cons, List.prod_cons]

theorem ncard_points_set : ∀ s : HypercubeSet,
    (HypercubeSet.points s).Finite ∧ ((HypercubeSet.points s).ncard : ℤ) ≤ (s.map size).sum
  | [] => by simp
  | c :: s => by
    obtain ⟨hfin, hcard⟩ := ncard_points c
    obtain ⟨hfin', hcard'⟩ := ncard_points_set s
    have h : HypercubeSet.points (c :: s) = points c ∪ HypercubeSet.points s := by
      ext p
      simp
    rw [h, List.map_cons, List.sum_cons, ← hcard]
    have hle := Set.ncard_union_le (points c) (HypercubeSet.points s)
    exact ⟨hfin.union hfin', by omega⟩

/-- A cube that is covered has no more points than the cubes that cover it have together. -/
theorem size_le_of_covered {c : Hypercube} {s : HypercubeSet}
    (h : points c ⊆ HypercubeSet.points s) : size c ≤ (s.map size).sum := by
  obtain ⟨hfin, hcard⟩ := ncard_points_set s
  have := Set.ncard_le_ncard h hfin
  have := (ncard_points c).2
  omega

end Card

section Covered

theorem restSet_spec : ∀ {covering : List (Option Hypercube)} {rest : HypercubeSet},
    HypercubeSet.Wf dims rest → (∀ c, some c ∈ covering → c.length = dims) →
    HypercubeSet.Wf dims (restSet rest covering)
      ∧ HypercubeSet.points (restSet rest covering)
        = HypercubeSet.points rest \ HypercubeSet.points (covering.filterMap id)
  | [], rest, hr, _ => by simpa [restSet] using hr
  | none :: covering, rest, hr, hc => by
    simpa [restSet] using restSet_spec hr fun c h => hc c (List.mem_cons_of_mem _ h)
  | some c :: covering, rest, hr, hc => by
    obtain ⟨hwf, hpoints⟩ := HypercubeSet.subtract_spec hr (hc c List.mem_cons_self)
    have hsets : HypercubeSet.points rest
          \ HypercubeSet.points ((some c :: covering).filterMap id)
        = HypercubeSet.points (HypercubeSet.subtract rest c)
          \ HypercubeSet.points (covering.filterMap id) := by
      rw [hpoints, Set.sdiff_sdiff]
      congr 1
      ext p
      simp
    rw [restSet, hsets]
    by_cases hnil : HypercubeSet.subtract rest c = []
    · rw [if_pos hnil]
      simpa [hnil] using hnil ▸ hwf
    · rw [if_neg hnil]
      exact restSet_spec hwf fun c h => hc c (List.mem_cons_of_mem _ h)

theorem isFullyCovered_iff {c : Hypercube} {covering : List (Option Hypercube)}
    (hl : c.length = dims) (hne : ¬ isEmpty c) (hc : ∀ c, some c ∈ covering → c.length = dims) :
    isFullyCovered c covering = true
      ↔ points c ⊆ HypercubeSet.points (covering.filterMap id) := by
  have hw : HypercubeSet.Wf dims [c] := by
    intro d hd
    obtain rfl := List.mem_singleton.1 hd
    exact ⟨hl, hne⟩
  obtain ⟨hwf, hpoints⟩ := restSet_spec hw hc
  have hself : HypercubeSet.points [c] = points c := by
    ext p
    simp
  rw [isFullyCovered, decide_eq_true_eq, ← HypercubeSet.points_eq_empty_iff hwf, hpoints,
    Set.sdiff_eq_empty, hself]

end Covered

section Matrix

variable {i j k : ℕ} {a b c : Hypercube} {p : List ℤ} {selected : List Bool}

theorem mem_makeIntersection (h : a.length = b.length) :
    (∃ d, makeIntersection a b = some d ∧ p ∈ points d) ↔ p ∈ points a ∧ p ∈ points b := by
  rw [← mem_points_zipWith_intersection h]
  constructor
  · rintro ⟨d, hd, hp⟩
    exact ((makeIntersection_eq_some_iff h).1 hd).2 ▸ hp
  · intro hp
    have hab := (mem_points_zipWith_intersection h).1 hp
    exact ⟨_, (makeIntersection_eq_some_iff h).2 ⟨(doesIntersect_iff h).2 ⟨p, hab⟩, rfl⟩, hp⟩

theorem mem_entry (h : a.length = b.length) :
    (∃ d, entry i j a b = some d ∧ p ∈ points d) ↔ i ≠ j ∧ p ∈ points a ∧ p ∈ points b := by
  unfold entry
  by_cases hij : i = j
  · simp [hij]
  rw [if_neg hij]
  by_cases hlt : i < j
  · simp only [if_pos hlt, mem_makeIntersection h, ne_eq, hij, not_false_eq_true, true_and]
  · simp only [if_neg hlt, mem_makeIntersection h.symm, ne_eq, hij, not_false_eq_true, true_and,
      and_comm]

theorem length_entry (h : a.length = b.length) {d : Hypercube} (hd : entry i j a b = some d) :
    d.length = a.length := by
  unfold entry at hd
  split_ifs at hd
  · rw [((makeIntersection_eq_some_iff h).1 hd).2, List.length_zipWith, h, min_self]
  · rw [((makeIntersection_eq_some_iff h.symm).1 hd).2, List.length_zipWith, h, min_self]

/-- The points of the cube at an index. -/
def cubePoints (cubes : List Hypercube) (i : ℕ) : Set (List ℤ) :=
  {p | ∃ c, cubes[i]? = some c ∧ p ∈ points c}

/-- The indices that are marked. -/
def marked (l : List Bool) : Set ℕ := {i | l[i]? = some true}

theorem mem_marked {l : List Bool} : i ∈ marked l ↔ l[i]? = some true := .rfl

theorem marked_set_false (l : List Bool) (k : ℕ) : marked (l.set k false) = marked l \ {k} := by
  ext i
  rw [Set.mem_sdiff, mem_marked, mem_marked, List.getElem?_set]
  by_cases hik : k = i
  · rw [if_pos hik]
    split_ifs <;> simp [hik]
  · simp [hik, Ne.symm hik]

theorem marked_set_true {l : List Bool} (hk : k < l.length) :
    marked (l.set k true) = insert k (marked l) := by
  ext i
  rw [Set.mem_insert_iff, mem_marked, mem_marked, List.getElem?_set]
  by_cases hik : k = i
  · simp [hik, hik ▸ hk]
  · simp [hik, Ne.symm hik]

/-- A row of the matrix, with the cubes that are left. -/
def reducedRow (cubes : List Hypercube) (selected : List Bool) (i : ℕ) (a : Hypercube) :
    List (Option Hypercube) :=
  cubes.mapIdx fun j b =>
    if selected[i]? = some true ∧ selected[j]? = some true then entry i j a b else none

theorem dropCube_reduced (k : ℕ) : dropCube k (cubes.mapIdx (reducedRow cubes selected))
    = cubes.mapIdx (reducedRow cubes (selected.set k false)) := by
  have hset : ∀ i, (selected.set k false)[i]? = some true ↔ selected[i]? = some true ∧ i ≠ k :=
    fun i => Set.ext_iff.1 (marked_set_false selected k) i
  rw [dropCube, List.mapIdx_mapIdx, List.mapIdx_eq_mapIdx_iff]
  intro i hi
  simp only [Function.comp_apply, reducedRow]
  rw [List.mapIdx_mapIdx, List.mapIdx_eq_mapIdx_iff]
  intro j hj
  simp only [Function.comp_apply, hset]
  by_cases hik : i = k
  · simp [hik]
  by_cases hjk : j = k
  · simp [hjk]
  · simp [hik, hjk]

theorem reducedRow_replicate (hi : i < cubes.length) (a : Hypercube) :
    reducedRow cubes (List.replicate cubes.length true) i a = intersections cubes i a := by
  rw [reducedRow, intersections, List.mapIdx_eq_mapIdx_iff]
  intro j hj
  simp [hi, hj]

theorem mem_reducedRow {d : Hypercube} : d ∈ (reducedRow cubes selected k c).filterMap id
    ↔ ∃ j b, cubes[j]? = some b ∧ k ∈ marked selected ∧ j ∈ marked selected
      ∧ entry k j c b = some d := by
  rw [List.mem_filterMap]
  simp only [id_eq, exists_eq_right, reducedRow, List.mem_mapIdx]
  constructor
  · rintro ⟨j, hj, h⟩
    split_ifs at h with hs
    exact ⟨j, cubes[j], List.getElem?_eq_getElem hj, hs.1, hs.2, h⟩
  · rintro ⟨j, b, hb, hk, hj, h⟩
    obtain ⟨hlt, rfl⟩ := List.getElem?_eq_some_iff.1 hb
    exact ⟨j, hlt, by rw [if_pos ⟨hk, hj⟩, h]⟩

section Row

variable (hw : HypercubeSet.Wf dims cubes) (hk : cubes[k]? = some c) (hs : k ∈ marked selected)

include hw hk

theorem length_of_mem_reducedRow {d : Hypercube}
    (hd : d ∈ (reducedRow cubes selected k c).filterMap id) : d.length = dims := by
  obtain ⟨j, b, hb, -, -, hd⟩ := mem_reducedRow.1 hd
  have hc := (hw c (List.mem_of_getElem? hk)).1
  rw [length_entry (hc.trans (hw b (List.mem_of_getElem? hb)).1.symm) hd, hc]

include hs

theorem mem_points_reducedRow :
    p ∈ HypercubeSet.points ((reducedRow cubes selected k c).filterMap id)
    ↔ p ∈ points c ∧ p ∈ Cover.union (cubePoints cubes) (marked selected \ {k}) := by
  have hlen : ∀ {j : ℕ} {b : Hypercube}, cubes[j]? = some b → c.length = b.length := fun hb =>
    (hw c (List.mem_of_getElem? hk)).1.trans (hw _ (List.mem_of_getElem? hb)).1.symm
  rw [HypercubeSet.mem_points, Cover.mem_union]
  simp only [mem_reducedRow]
  constructor
  · rintro ⟨d, ⟨j, b, hb, -, hj, hd⟩, hp⟩
    obtain ⟨hkj, hpc, hpb⟩ := (mem_entry (hlen hb)).1 ⟨d, hd, hp⟩
    exact ⟨hpc, j, ⟨hj, Ne.symm hkj⟩, b, hb, hpb⟩
  · rintro ⟨hpc, j, ⟨hj, hjk⟩, b, hb, hpb⟩
    obtain ⟨d, hd, hp⟩ := (mem_entry (hlen hb)).2 ⟨Ne.symm hjk, hpc, hpb⟩
    exact ⟨d, ⟨j, b, hb, hs, hj, hd⟩, hp⟩

theorem covered_iff_redundant :
    points c ⊆ HypercubeSet.points ((reducedRow cubes selected k c).filterMap id)
      ↔ Cover.Redundant (cubePoints cubes) (marked selected) k := by
  have hself : cubePoints cubes k = points c := by
    ext p
    simp [cubePoints, hk]
  rw [Cover.Redundant, hself]
  simp only [Set.subset_def, mem_points_reducedRow hw hk hs]
  exact forall₂_congr fun p hp => and_iff_right hp

/-- A cube is found to be covered exactly if the others that are left cover it. -/
theorem isFullyCovered_reducedRow : isFullyCovered c (reducedRow cubes selected k c) = true
    ↔ Cover.Redundant (cubePoints cubes) (marked selected) k := by
  obtain ⟨hl, hne⟩ := hw c (List.mem_of_getElem? hk)
  rw [isFullyCovered_iff hl hne, covered_iff_redundant hw hk hs]
  intro d hd
  exact length_of_mem_reducedRow hw hk (List.mem_filterMap.2 ⟨some d, hd, rfl⟩)

end Row

end Matrix

section Required

theorem sum_mapIdx_elim (f : ℕ → Hypercube → Option Hypercube) (l : List Hypercube) :
    (l.mapIdx fun j b => (f j b).elim 0 size).sum = (((l.mapIdx f).filterMap id).map size).sum := by
  induction l generalizing f with
  | nil => rfl
  | cons b l ih =>
    rw [List.mapIdx_cons, List.mapIdx_cons, List.sum_cons, ih]
    rcases h : f 0 b with _ | d <;> simp

/-- The sum over a row of sizes is that of the cube itself and those of its intersections. -/
theorem sum_mapIdx_self (x : ℤ) (f : ℕ → Hypercube → Option Hypercube) {l : List Hypercube} {i : ℕ}
    (hi : i < l.length) (hf : ∀ b, f i b = none) :
    (l.mapIdx fun j b => if i = j then x else (f j b).elim 0 size).sum
      = x + (((l.mapIdx f).filterMap id).map size).sum := by
  induction l generalizing f i with
  | nil => cases hi
  | cons b l ih =>
    rw [List.mapIdx_cons, List.mapIdx_cons, List.sum_cons]
    rcases i with _ | i
    · simpa [hf] using sum_mapIdx_elim (fun j => f (j + 1)) l
    · have := ih (fun j => f (j + 1)) (by simpa using hi) fun b => hf b
      simp only [Nat.add_right_cancel_iff, Nat.add_eq_zero_iff, one_ne_zero, and_false,
        if_false] at this ⊢
      rw [this]
      rcases h : f 0 b with _ | d
      · simp
      · simp
        omega

/-- A cube that is required is not covered by all others. -/
theorem not_redundant_of_required (hw : HypercubeSet.Wf dims cubes) {i : ℕ}
    (h : i ∈ marked (requiredCubes cubes)) :
    ¬ Cover.Redundant (cubePoints cubes) (marked (List.replicate cubes.length true)) i := by
  rw [mem_marked, requiredCubes, List.getElem?_mapIdx] at h
  obtain ⟨a, ha, h⟩ := Option.map_eq_some_iff.1 h
  have hi := (List.getElem?_eq_some_iff.1 ha).1
  have hs : i ∈ marked (List.replicate cubes.length true) := by simp [mem_marked, hi]
  have hrow := reducedRow_replicate hi a
  split_ifs at h with hsum
  · rw [← covered_iff_redundant hw ha hs, hrow]
    intro hcov
    have hle := size_le_of_covered hcov
    have hself := sum_mapIdx_self (size a) (fun j b => entry i j a b) hi fun b => by simp [entry]
    unfold intersectionSizes at hsum
    unfold intersections at hle
    omega
  · rw [← isFullyCovered_reducedRow hw ha hs, hrow]
    simpa using h

end Required

section Select

theorem selectIndex_spec : ∀ {checked : List Bool} {selector : ℕ} (i : ℕ),
    selector < checked.countP (fun c => !c) →
    ∃ k, selectIndex checked selector i = .ok (i + k) ∧ checked[k]? = some false
  | true :: checked, selector, i, h => by
    obtain ⟨k, hk, hc⟩ := @selectIndex_spec checked selector (i + 1) (by simpa using h)
    refine ⟨k + 1, ?_, by simpa using hc⟩
    rw [selectIndex, hk]
    congr 1
    omega
  | false :: checked, 0, i, _ => ⟨0, rfl, rfl⟩
  | false :: checked, selector + 1, i, h => by
    obtain ⟨k, hk, hc⟩ := @selectIndex_spec checked selector (i + 1) (by simpa using h)
    refine ⟨k + 1, ?_, by simpa using hc⟩
    rw [selectIndex, hk]
    congr 1
    omega

/-- Any random number stands for a cube that has not been checked. -/
theorem checkIndex_spec {checked : List Bool} (value : Fin (randMax + 1))
    (h : 0 < checked.countP fun c => !c) :
    ∃ k, checkIndex value (checked.countP fun c => !c) checked = .ok k
      ∧ checked[k]? = some false := by
  have hlt : value * checked.countP (fun c => !c) / (randMax + 1) < checked.countP fun c => !c := by
    rw [Nat.div_lt_iff_lt_mul (Nat.succ_pos _), mul_comm]
    exact Nat.mul_lt_mul_of_pos_left value.isLt h
  obtain ⟨k, hk, hc⟩ := selectIndex_spec 0 hlt
  exact ⟨k, by rw [checkIndex, hk, Nat.zero_add], hc⟩

end Select

section Search

variable {s : SubsetSearch} {k : ℕ}

/-- The state of the search: the cubes that have not been checked are all selected, and the matrix
has the intersections of those that are. -/
structure Searching (cubes : List Hypercube) (s : SubsetSearch) : Prop where
  selected : s.selected.length = cubes.length
  checked : s.checked.length = cubes.length
  unchecked : ∀ i, s.checked[i]? = some false → i ∈ marked s.selected
  matrix : s.matrix = cubes.mapIdx (reducedRow cubes s.selected)
  search : Cover.Search (cubePoints cubes) (marked s.checked) (marked s.selected)

theorem searching_init (hw : HypercubeSet.Wf dims cubes) :
    Searching cubes ⟨List.replicate cubes.length true, requiredCubes cubes,
      makeIntersectionMatrix cubes⟩ := by
  have hmem : ∀ {i : ℕ}, i < cubes.length → i ∈ marked (List.replicate cubes.length true) :=
    fun hi => by simp [mem_marked, hi]
  refine ⟨by simp, by simp [requiredCubes], fun i hi => ?_, ?_, ?_, fun i hi _ => ?_⟩
  · have := (List.getElem?_eq_some_iff.1 hi).1
    exact hmem (by simpa [requiredCubes] using this)
  · rw [makeIntersectionMatrix, List.mapIdx_eq_mapIdx_iff]
    exact fun i hi => (reducedRow_replicate hi _).symm
  · refine (Cover.union_mono (Set.subset_univ _)).antisymm fun p hp => ?_
    obtain ⟨i, -, c, hc, hp⟩ := Cover.mem_union.1 hp
    exact Cover.mem_union.2 ⟨i, hmem (List.getElem?_eq_some_iff.1 hc).1, c, hc, hp⟩
  · exact not_redundant_of_required hw hi

/-- One round: the cube is dropped exactly if the others that are left cover it. -/
theorem checkCube_spec (hw : HypercubeSet.Wf dims cubes) (h : Searching cubes s)
    (hk : s.checked[k]? = some false) : ∃ s', checkCube cubes k s = .ok s' ∧ Searching cubes s'
      ∧ s'.checked = s.checked.set k true := by
  have hlt := (List.getElem?_eq_some_iff.1 hk).1
  have hlt' : k < cubes.length := h.checked ▸ hlt
  have hsel := h.unchecked k hk
  have hc := List.getElem?_eq_getElem hlt'
  have hrow : s.matrix[k]? = some (reducedRow cubes s.selected k cubes[k]) := by
    rw [h.matrix, List.getElem?_mapIdx, hc]
    rfl
  have hcov := isFullyCovered_reducedRow hw hc hsel
  have hunchecked : ∀ i, (s.checked.set k true)[i]? = some false → i ≠ k
    ∧ i ∈ marked s.selected := by
    intro i hi
    rw [List.getElem?_set] at hi
    by_cases hik : k = i
    · simp [hik, hik ▸ hlt] at hi
    · rw [if_neg hik] at hi
      exact ⟨Ne.symm hik, h.unchecked i hi⟩
  refine ⟨_, by rw [checkCube, hc, hrow]; rfl, ?_, rfl⟩
  by_cases hr : Cover.Redundant (cubePoints cubes) (marked s.selected) k
  · rw [hcov.2 hr]
    refine ⟨by simp [h.selected], by simp [h.checked], fun i hi => ?_, ?_, ?_⟩
    · have := hunchecked i hi
      simpa [marked_set_false] using this.symm
    · simp [h.matrix, dropCube_reduced]
    · simpa [marked_set_false, marked_set_true hlt] using h.search.drop hr
  · rw [Bool.eq_false_iff.2 (mt hcov.1 hr)]
    have hset : s.selected.set k true = s.selected := by
      obtain ⟨hi, hget⟩ := List.getElem?_eq_some_iff.1 (mem_marked.1 hsel)
      rw [← hget, List.set_getElem_self hi]
    refine ⟨by simp [h.selected], by simp [h.checked], fun i hi => ?_, ?_, ?_⟩
    · simpa [hset] using (hunchecked i hi).2
    · simp [h.matrix, hset]
    · simpa [hset, marked_set_true hlt] using h.search.keep hr

/-- The rounds end with all cubes checked. -/
theorem checkCubes_spec (hw : HypercubeSet.Wf dims cubes) (random : RandomNumbers) :
    ∀ (unchecked next : ℕ) {s : SubsetSearch},
    Searching cubes s → s.checked.countP (fun c => !c) = unchecked →
    ∃ s', checkCubes cubes random unchecked next s = .ok s' ∧ Searching cubes s'
      ∧ s'.checked.countP (fun c => !c) = 0
  | 0, next, s, h, hn => ⟨s, rfl, h, hn⟩
  | unchecked + 1, next, s, h, hn => by
    obtain ⟨k, hk, hck⟩ := checkIndex_spec (random next) (show 0 < s.checked.countP _ by omega)
    obtain ⟨s', hs', h', hchecked⟩ := checkCube_spec hw h hck
    obtain ⟨hlt, hget⟩ := List.getElem?_eq_some_iff.1 hck
    have hn' : s'.checked.countP (fun c => !c) = unchecked := by
      rw [hchecked, List.countP_set hlt, hget, hn]
      simp
    obtain ⟨s'', hs'', hdone⟩ := checkCubes_spec hw random unchecked (next + 1) h' hn'
    refine ⟨s'', ?_, hdone⟩
    rw [checkCubes, ← hn, hk, Outcome.ok_bind, hs', Outcome.ok_bind, hs'']

/-- The selected cubes have the points of all, and none is covered by the other selected ones. -/
structure MinimalCover (cubes : List Hypercube) (subset : List Bool) : Prop where
  length : subset.length = cubes.length
  points_eq : Cover.union (cubePoints cubes) (marked subset) = HypercubeSet.points cubes
  irredundant : ∀ k ∈ marked subset, ¬ Cover.Redundant (cubePoints cubes) (marked subset) k

theorem Searching.minimalCover (h : Searching cubes s)
    (hdone : s.checked.countP (fun c => !c) = 0) : MinimalCover cubes s.selected := by
  refine ⟨h.selected, h.search.union_eq.trans ?_, fun k hk => h.search.irredundant k ?_ hk⟩
  · ext p
    rw [Cover.mem_union, HypercubeSet.mem_points]
    constructor
    · rintro ⟨i, -, c, hc, hp⟩
      exact ⟨c, List.mem_of_getElem? hc, hp⟩
    · rintro ⟨c, hc, hp⟩
      obtain ⟨i, hi⟩ := List.mem_iff_getElem?.1 hc
      exact ⟨i, trivial, c, hi, hp⟩
  · have hlt : k < s.checked.length := by
      have := (List.getElem?_eq_some_iff.1 (mem_marked.1 hk)).1
      rw [h.checked, ← h.selected]
      exact this
    have := List.countP_eq_zero.1 hdone _ (List.getElem_mem hlt)
    rw [mem_marked, List.getElem?_eq_getElem hlt]
    simpa using this

theorem findMinimalSubset_spec (hw : HypercubeSet.Wf dims cubes) (random : RandomNumbers)
    (next : ℕ) :
    ∃ next' subset, findMinimalSubset cubes random next = .ok (next', subset)
      ∧ MinimalCover cubes subset := by
  obtain ⟨s, hs, h, hdone⟩ := checkCubes_spec hw random _ next (searching_init hw) rfl
  refine ⟨next + (requiredCubes cubes).countP fun r => !r, s.selected, ?_, h.minimalCover hdone⟩
  unfold findMinimalSubset
  dsimp only at hs ⊢
  rw [hs]
  rfl

theorem minimalSubsets_spec (hw : HypercubeSet.Wf dims cubes) (random : RandomNumbers) :
    ∀ (setCount next : ℕ),
    ∃ subsets, minimalSubsets cubes random setCount next = .ok subsets
      ∧ subsets.length = setCount ∧ ∀ subset ∈ subsets, MinimalCover cubes subset
  | 0, next => ⟨[], rfl, rfl, by simp⟩
  | setCount + 1, next => by
    obtain ⟨next', subset, hs, hmin⟩ := findMinimalSubset_spec hw random next
    obtain ⟨subsets, hss, hlen, hall⟩ := minimalSubsets_spec hw random setCount next'
    refine ⟨subset :: subsets, ?_, by simp [hlen], List.forall_mem_cons.2 ⟨hmin, hall⟩⟩
    rw [minimalSubsets, hs, Outcome.ok_bind]
    dsimp only
    rw [hss]
    rfl

end Search

end Hypercube

end Esdm
