import Mathlib.Algebra.Order.BigOperators.GroupWithZero.List
import Esdm.Config
import Esdm.Fragment
import Esdm.Proofs.Split

/-!
# Splits are partitions

Both splitters cut a dataspace into hypercubes that are not empty, share no point and have all its
points together.  A balanced split does so for every positive edge length
(`balancedDims_partitions`), a contiguous one if a fragment may hold an element
(`contiguousFragments_partitions`).
-/

namespace Esdm

namespace HypercubeSet

/-- The hypercubes are not empty, share no point, and have the points of `c` together. -/
structure Partitions (s : HypercubeSet) (c : Hypercube) : Prop where
  nonempty : ∀ k ∈ s, ¬ Hypercube.isEmpty k
  disjoint : PairwiseDisjoint s
  points_eq : points s = Hypercube.points c

theorem partitions_singleton {c : Hypercube} (h : ¬ Hypercube.isEmpty c) : Partitions [c] c :=
  ⟨by simpa using h, List.pairwise_singleton .., by ext; simp⟩

theorem Partitions.nodup {s : HypercubeSet} {c : Hypercube} (h : Partitions s c) : s.Nodup := by
  refine List.Pairwise.imp_of_mem (fun {a b} ha _ hd hab => ?_) h.disjoint
  obtain ⟨p, hp⟩ := Hypercube.points_nonempty_iff.2 (h.nonempty a ha)
  exact Set.disjoint_left.1 hd hp (hab ▸ hp)

/-- A family of hypercubes that has exactly one for each point. -/
theorem partitions_map {α : Type*} {l : List α} (hn : l.Nodup) {f : α → Hypercube} {c : Hypercube}
    (hne : ∀ a ∈ l, ¬ Hypercube.isEmpty (f a))
    (hsub : ∀ a ∈ l, Hypercube.points (f a) ⊆ Hypercube.points c)
    (hcov : ∀ p ∈ Hypercube.points c, ∃ a ∈ l, p ∈ Hypercube.points (f a))
    (huniq : ∀ a ∈ l, ∀ b ∈ l, ∀ p, p ∈ Hypercube.points (f a) → p ∈ Hypercube.points (f b) →
      a = b) : Partitions (l.map f) c := by
  refine ⟨by simpa using hne, ?_, ?_⟩
  · rw [PairwiseDisjoint, List.pairwise_map]
    refine hn.imp_of_mem fun {a b} ha hb hab => Set.disjoint_left.2 fun p hp hp' => ?_
    exact hab (huniq a ha b hb p hp hp')
  · ext p
    simp only [mem_points, List.mem_map, exists_exists_and_eq_and]
    exact ⟨fun ⟨a, ha, hp⟩ => hsub a ha hp, hcov p⟩

end HypercubeSet

section Slices

variable {x n f t : ℤ}

theorem slice_unique (hn : 0 ≤ n) (hf : 0 < f) {c c' : ℕ} (h : Range.Mem x (slice n f c))
    (h' : Range.Mem x (slice n f c')) : c = c' := by
  have hle : ∀ {i j : ℕ}, Range.Mem x (slice n f i) → Range.Mem x (slice n f j) → ¬ i < j := by
    intro i j hi hj hij
    rw [slice_eq hn] at hi hj
    have hmul : ((i : ℤ) + 1) * n ≤ j * n := Int.mul_le_mul_of_nonneg_right (by omega) hn
    exact absurd (hj.1.trans_lt hi.2) (not_lt.2 (Int.ediv_le_ediv hf hmul))
  exact le_antisymm (not_lt.1 (hle h' h)) (not_lt.1 (hle h h'))

/-- The slices are not thicker than `t` if `f` slices of thickness `t` are enough. -/
theorem slice_size_le (hn : 0 ≤ n) (hf : 0 < f) (ht : n ≤ f * t) (c : ℕ) :
    (slice n f c).stop - (slice n f c).start ≤ t := by
  rw [slice_eq hn]
  have h : ((c : ℤ) + 1) * n / f ≤ c * n / f + t := by
    rw [← Int.add_mul_ediv_left _ _ hf.ne']
    exact Int.ediv_le_ediv hf (by linarith)
  dsimp only
  omega

end Slices

section Balanced

variable {edge : ℤ} {space : Dataspace} {d : Dim}

theorem splitFactor_bounds (he : 1 ≤ edge) (hd : 0 < d.size) :
    1 ≤ splitFactor edge d ∧ splitFactor edge d ≤ d.size ∧ d.size ≤ splitFactor edge d * edge := by
  unfold splitFactor
  have h1 : -d.size / edge < 0 := Int.ediv_neg_of_neg_of_pos (by omega) (by omega)
  have h2 : -d.size ≤ -d.size / edge := by
    refine Int.le_ediv_of_mul_le (by omega) ?_
    nlinarith
  have h3 : -d.size / edge * edge ≤ -d.size := Int.ediv_mul_le _ (by omega)
  refine ⟨by omega, by omega, ?_⟩
  rw [Int.neg_mul]
  omega

variable {dim : List Dim} {factors : List ℤ} {coords coords' : List ℕ} {p : List ℤ}

theorem balancedCube_unique (hf : List.Forall₂ (fun d f => 1 ≤ f ∧ f ≤ d.size) dim factors)
    (hl : coords.length = dim.length) (hl' : coords'.length = dim.length)
    (hp : p ∈ Hypercube.points (balancedCube dim factors coords))
    (hp' : p ∈ Hypercube.points (balancedCube dim factors coords')) : coords = coords' := by
  induction hf generalizing coords coords' p with
  | nil => rw [List.length_eq_zero_iff.1 hl, List.length_eq_zero_iff.1 hl']
  | @cons d f dim factors hdf _ ih =>
    rcases coords with _ | ⟨c, coords⟩
    · simp at hl
    rcases coords' with _ | ⟨c', coords'⟩
    · simp at hl'
    obtain ⟨x, q, rfl, hx, hq⟩ := Hypercube.mem_points_cons_iff.1 hp
    obtain ⟨hx', hq'⟩ := Hypercube.mem_points_cons.1 hp'
    have hshift : ∀ {k : ℕ}, Range.Mem x ⟨d.offset + ((k : ℤ) * d.size).tdiv f,
        d.offset + (((k : ℤ) + 1) * d.size).tdiv f⟩
          → Range.Mem (x - d.offset) (slice d.size f k) := by
      intro k hk
      simp only [Range.Mem, slice] at hk ⊢
      omega
    rw [slice_unique (by omega) (by omega) (hshift hx) (hshift hx'),
      ih (by simpa using hl) (by simpa using hl') hq hq']

/-- The edges of a cube are not longer than the target, nor than the dimensions they are cut from.
-/
theorem balancedCube_edges (he : 1 ≤ edge) (hs : ∀ d ∈ dim, 0 < d.size)
    (hc : List.Forall₂ (· < ·) coords ((dim.map (splitFactor edge)).map Int.toNat)) :
    List.Forall₂ (fun (r : Range) (d : Dim) => r.size ≤ edge ∧ r.size ≤ d.size)
      (balancedCube dim (dim.map (splitFactor edge)) coords) dim := by
  induction dim generalizing coords with
  | nil => exact .nil
  | cons d dim ih =>
    rw [List.map_cons, List.map_cons] at hc
    obtain ⟨c, cs, hc, hcs, rfl⟩ := List.forall₂_cons_right_iff.1 hc
    have hd := hs d (by simp)
    obtain ⟨h1, h2, h3⟩ := splitFactor_bounds he hd
    have hle := slice_size_le hd.le (show 0 < splitFactor edge d by omega) h3 c
    have hw := slice_within hd.le (show 0 < splitFactor edge d by omega)
      (show (c : ℤ) < splitFactor edge d by omega)
    refine .cons ?_ (ih (fun e he => hs e (List.mem_cons_of_mem _ he)) hcs)
    simp only [slice] at hle hw
    simp only [Range.size]
    split_ifs <;> omega

/-- A cube of bounded edges has at most this many points, dimensions of a single element apart. -/
theorem size_le_pow {cube : Hypercube} (he : 1 ≤ edge)
    (h : List.Forall₂ (fun (r : Range) (d : Dim) => r.size ≤ edge ∧ r.size ≤ d.size) cube dim) :
    Hypercube.size cube ≤ edge ^ dim.countP fun d => 1 < d.size := by
  induction h with
  | nil => simp [Hypercube.size]
  | @cons r d cube dim hr _ ih =>
    have hpow : 0 ≤ edge ^ dim.countP fun d => 1 < d.size := Int.pow_nonneg (by omega)
    have hrn := Range.size_nonneg r
    simp only [Hypercube.size] at ih ⊢
    rw [List.map_cons, List.prod_cons, List.countP_cons]
    by_cases hd : 1 < d.size
    · rw [if_pos (by simpa using hd), pow_succ, mul_comm (edge ^ _)]
      exact Int.mul_le_mul hr.1 ih (List.prod_nonneg (by simp [Range.size_nonneg])) (by omega)
    · rw [if_neg (by simpa using hd), Nat.add_zero]
      calc r.size * (cube.map Range.size).prod
          ≤ 1 * (edge ^ dim.countP fun d => 1 < d.size) :=
            Int.mul_le_mul (by omega) ih (List.prod_nonneg (by simp [Range.size_nonneg])) (by omega)
        _ = _ := one_mul _

theorem getExtends_edges (he : 1 ≤ edge) (hs : ∀ d ∈ space.dim, 0 < d.size)
    (hone : ∀ d ∈ space.dim, ¬ d.size > 1) :
    List.Forall₂ (fun (r : Range) (d : Dim) => r.size ≤ edge ∧ r.size ≤ d.size)
      space.getExtends space.dim := by
  rw [Dataspace.getExtends, List.forall₂_map_left_iff]
  refine List.forall₂_same.2 fun d hd => ?_
  have := hs d hd
  have := hone d hd
  simp only [Range.size]
  split_ifs <;> omega

theorem forall₂_splitFactor (he : 1 ≤ edge) (hs : ∀ d ∈ space.dim, 0 < d.size) :
    List.Forall₂ (fun d f => 1 ≤ f ∧ f ≤ d.size) space.dim (space.dim.map (splitFactor edge)) := by
  rw [List.forall₂_map_right_iff]
  refine List.forall₂_same.2 fun d hd => ?_
  have := splitFactor_bounds he (hs d hd)
  exact ⟨this.1, this.2.1⟩

theorem balancedDims_of_one (hone : ∀ d ∈ space.dim, ¬ d.size > 1) :
    balancedDims edge space = .ok [space.getExtends] := by
  unfold balancedDims
  rw [if_pos (by simpa using hone)]
  rfl

theorem balancedDims_of_pos (he : 1 ≤ edge) (hs : ∀ d ∈ space.dim, 0 < d.size)
    (hone : ¬ ∀ d ∈ space.dim, ¬ d.size > 1) :
    balancedDims edge space
      = .ok ((Odometer.tuples ((space.dim.map (splitFactor edge)).map Int.toNat)).map
        (balancedCube space.dim (space.dim.map (splitFactor edge)))) := by
  have hpos : ∀ n ∈ (space.dim.map (splitFactor edge)).map Int.toNat, 0 < n := by
    simp only [List.mem_map, exists_exists_and_eq_and, forall_exists_index, and_imp,
      forall_apply_eq_imp_iff₂]
    intro d hd
    have := (splitFactor_bounds he (hs d hd)).1
    omega
  have hf := List.forall₂_iff_zip.1 (forall₂_splitFactor he hs)
  unfold balancedDims
  rw [if_neg (by simpa using hone), if_neg (by omega)]
  dsimp only
  rw [eassert_of fun q hq => hf.2 hq, Outcome.ok_bind, Odometer.all_of_pos hpos]
  rfl

/-- The cubes of any factors that do not exceed the sizes. -/
theorem balancedCubes_partitions
    (hf : List.Forall₂ (fun d f => 1 ≤ f ∧ f ≤ d.size) space.dim factors) :
    HypercubeSet.Partitions ((Odometer.tuples (factors.map Int.toNat)).map
      (balancedCube space.dim factors)) space.getExtends := by
  have hlen : ∀ {coords : List ℕ}, coords ∈ Odometer.tuples (factors.map Int.toNat) →
      coords.length = space.dim.length := by
    intro coords hc
    rw [Odometer.length_of_mem_tuples hc, List.length_map, hf.length_eq]
  refine HypercubeSet.partitions_map (Odometer.nodup_tuples _) ?_ ?_ ?_ ?_
  · exact fun coords hc => (balancedCube_within hf (Odometer.mem_tuples.1 hc)).2
  · exact fun coords hc => (balancedCube_within hf (Odometer.mem_tuples.1 hc)).1.points_subset
  · intro p hp
    obtain ⟨coords, hc, hm⟩ := exists_mem_balancedCube hf hp
    exact ⟨coords, Odometer.mem_tuples.2 hc, hm⟩
  · exact fun a ha b hb p => balancedCube_unique hf (hlen ha) (hlen hb)

/-- A balanced split fails no assertion, and comes to an end with a partition of the dataspace whose
edges are not longer than the target. -/
theorem balancedDims_partitions (he : 1 ≤ edge) (hs : ∀ d ∈ space.dim, 0 < d.size) :
    ∃ cubes, balancedDims edge space = .ok cubes ∧ cubes.Partitions space.getExtends
      ∧ Odometer.Ends ((space.dim.map (splitFactor edge)).map Int.toNat)
      ∧ ∀ c ∈ cubes, (∀ r ∈ c, r.size ≤ edge)
        ∧ Hypercube.size c ≤ edge ^ space.dim.countP fun d => 1 < d.size := by
  have hedges : ∀ {c : Hypercube}, List.Forall₂ (fun (r : Range) (d : Dim) => r.size ≤ edge
      ∧ r.size ≤ d.size) c space.dim → (∀ r ∈ c, r.size ≤ edge)
        ∧ Hypercube.size c ≤ edge ^ space.dim.countP fun d => 1 < d.size := by
    intro c hc
    refine ⟨fun r hr => ?_, size_le_pow he hc⟩
    obtain ⟨i, hi, rfl⟩ := List.getElem_of_mem hr
    exact (hc.get hi (hc.length_eq ▸ hi)).1
  by_cases hone : ∀ d ∈ space.dim, ¬ d.size > 1
  · refine ⟨_, balancedDims_of_one hone,
      HypercubeSet.partitions_singleton (Dataspace.getExtends_not_isEmpty hs), Odometer.ends _, ?_⟩
    intro c hc
    obtain rfl := List.mem_singleton.1 hc
    exact hedges (getExtends_edges he hs hone)
  · refine ⟨_, balancedDims_of_pos he hs hone, balancedCubes_partitions (forall₂_splitFactor he hs),
      Odometer.ends _, ?_⟩
    intro c hc
    obtain ⟨coords, hco, rfl⟩ := List.mem_map.1 hc
    exact hedges (balancedCube_edges he hs (Odometer.mem_tuples.1 hco))

theorem balancedDims_partitions_rectangle :
    ∃ cubes, balancedDims 2 ⟨.basic .int8, [⟨0, 3⟩, ⟨1, 1⟩, ⟨-2, 4⟩], none, by simp⟩ = .ok cubes
      ∧ cubes.length = 4 ∧ cubes.Partitions [⟨0, 3⟩, ⟨1, 2⟩, ⟨-2, 2⟩] := by
  obtain ⟨cubes, hok, hpart, -⟩ := @balancedDims_partitions 2
    ⟨.basic .int8, [⟨0, 3⟩, ⟨1, 1⟩, ⟨-2, 4⟩], none, by simp⟩ (by decide) (by decide)
  refine ⟨cubes, hok, ?_, hpart⟩
  rw [← Except.ok.inj hok]
  decide

end Balanced

section Contiguous

variable {ext cube : Hypercube} {infos before rest : List DimInfo} {split : DimInfo} {slices : ℤ}
  {coords coords' : List ℕ} {p : List ℤ}

theorem dimInfos_map_dimension : ∀ {i : ℕ} {dim : List Dim} {stride : List ℤ},
    stride.length = dim.length →
    (dimInfos i dim stride).map DimInfo.dimension = List.range' i dim.length
  | _, [], [], _ => rfl
  | i, d :: dim, s :: stride, h => by
    rw [dimInfos, List.map_cons, dimInfos_map_dimension (by simpa using h), List.length_cons,
      List.range'_succ]

/-- The entries stand for the dimensions of the hypercube, each for another one. -/
structure DimsOf (ext : Hypercube) (infos : List DimInfo) : Prop where
  fits : ∀ d ∈ infos, d.Fits ext
  perm : (infos.map DimInfo.dimension).Perm (List.range ext.length)

/-- The dimensions of a dataspace as a contiguous split sorts them. -/
def sortedDims (env : SplitEnv) (space : Dataspace) : List DimInfo :=
  env.qsort (dimInfos 0 (space.getExtends.map fun r => ⟨r.start, r.size⟩) space.getEffectiveStride)

theorem sortedDims_dimsOf (env : SplitEnv) {space : Dataspace} (hs : ∀ d ∈ space.dim, 0 < d.size) :
    DimsOf space.getExtends (sortedDims env space) := by
  have hperm := env.qsort_perm
    (dimInfos 0 (space.getExtends.map fun r => ⟨r.start, r.size⟩) space.getEffectiveStride)
  refine ⟨fun d hd => fits_of_mem_dimInfos hs (hperm.mem_iff.1 hd), ?_⟩
  refine (hperm.map DimInfo.dimension).trans (.of_eq ?_)
  rw [dimInfos_map_dimension (by simp), List.length_map, List.range_eq_range']

theorem DimsOf.nodup (h : DimsOf ext infos) : (infos.map DimInfo.dimension).Nodup :=
  h.perm.nodup_iff.2 List.nodup_range

theorem getD_size_of_getElem? {i : ℕ} {a b : ℤ} (h : cube[i]? = some ⟨a, b⟩) (hab : a < b) :
    ((cube[i]?).map Range.size).getD 1 = b - a := by
  rw [h]
  exact Range.size_of_not_isEmpty (not_le.2 hab)

/-- The size of a hypercube, by the entries for its dimensions. -/
theorem size_eq_prod (h : (infos.map DimInfo.dimension).Perm (List.range cube.length)) :
    Hypercube.size cube
      = (infos.map fun d => ((cube[d.dimension]?).map Range.size).getD 1).prod := by
  have hall : (List.range cube.length).map (fun i => ((cube[i]?).map Range.size).getD 1)
      = cube.map Range.size := by
    refine List.ext_getElem? fun i => ?_
    rw [List.getElem?_map, List.getElem?_map]
    rcases lt_or_ge i cube.length with hi | hi
    · simp [hi]
    · simp [hi]
  rw [Hypercube.size, ← hall, ← (h.map _).prod_eq, List.map_map]
  rfl

theorem DimsOf.size_eq (h : DimsOf ext infos) :
    Hypercube.size ext = (infos.map fun d => d.dim.size).prod := by
  rw [size_eq_prod h.perm]
  congr 1
  refine List.map_congr_left fun d hd => ?_
  obtain ⟨hpos, hfit⟩ := h.fits d hd
  rw [getD_size_of_getElem? hfit (by omega), add_sub_cancel_left]

/-- Where the search stops, the dimensions before are complete in a fragment. -/
theorem findSplitDim_eq_append {maxFragmentSize size size' : ℤ}
    (h : findSplitDim maxFragmentSize size infos = some (split, rest, size')) :
    ∃ before, infos = before ++ split :: rest
      ∧ size' = size * (before.map fun d => d.dim.size).prod := by
  induction infos generalizing size with
  | nil => cases h
  | cons d infos ih =>
    rw [findSplitDim] at h
    split_ifs at h
    · simp only [Option.some.injEq, Prod.mk.injEq] at h
      obtain ⟨rfl, rfl, rfl⟩ := h
      exact ⟨[], rfl, by simp⟩
    · obtain ⟨before, rfl, rfl⟩ := ih h
      refine ⟨d :: before, rfl, ?_⟩
      rw [List.map_cons, List.prod_cons, mul_assoc]

theorem setSlices_length : ∀ (cube : Hypercube) (rest : List DimInfo) (coords : List ℕ),
    (setSlices cube rest coords).length = cube.length
  | _, [], _ => rfl
  | _, _ :: _, [] => rfl
  | cube, d :: rest, c :: coords => by
    rw [setSlices, setSlices_length, List.length_set]

theorem getElem?_setSlices_of_ne {j : ℕ} : ∀ {cube : Hypercube} {rest : List DimInfo}
    {coords : List ℕ}, (∀ d ∈ rest, d.dimension ≠ j) →
    (setSlices cube rest coords)[j]? = cube[j]?
  | _, [], _, _ => rfl
  | _, _ :: _, [], _ => rfl
  | cube, d :: rest, c :: coords, h => by
    rw [setSlices, getElem?_setSlices_of_ne fun e he => h e (List.mem_cons_of_mem _ he),
      List.getElem?_set_ne (h d (by simp))]

/-- The dimensions behind the split have one coordinate each. -/
theorem getElem?_setSlices (hn : (rest.map DimInfo.dimension).Nodup)
    (hlt : ∀ d ∈ rest, d.dimension < cube.length) (hl : coords.length = rest.length) :
    List.Forall₂ (fun (c : ℕ) (d : DimInfo) => (setSlices cube rest coords)[d.dimension]?
      = some ⟨d.dim.offset + c, d.dim.offset + c + 1⟩) coords rest := by
  induction rest generalizing cube coords with
  | nil =>
    rw [List.length_eq_zero_iff.1 hl]
    exact .nil
  | cons d rest ih =>
    rcases coords with _ | ⟨c, coords⟩
    · simp at hl
    rw [List.map_cons, List.nodup_cons] at hn
    refine .cons ?_ (ih hn.2 (fun e he => ?_) (by simpa using hl))
    · rw [setSlices, getElem?_setSlices_of_ne, List.getElem?_set_self (hlt d (by simp))]
      exact fun e he heq => hn.1 (heq ▸ List.mem_map_of_mem he)
    · rw [List.length_set]
      exact hlt e (List.mem_cons_of_mem _ he)

/-- The ranges of a fragment: all of the dimensions before the split, a slice of the one that is
split, one coordinate of those behind. -/
structure Sliced (ext : Hypercube) (before : List DimInfo) (split : DimInfo) (slices : ℤ)
    (rest : List DimInfo) (c : ℕ) (coords : List ℕ) (cube : Hypercube) : Prop where
  length : cube.length = ext.length
  before : ∀ d ∈ before, cube[d.dimension]? = ext[d.dimension]?
  split : cube[split.dimension]? = some ⟨split.dim.offset + (slice split.dim.size slices c).start,
    split.dim.offset + (slice split.dim.size slices c).stop⟩
  rest : List.Forall₂ (fun (c : ℕ) (d : DimInfo) => cube[d.dimension]?
    = some ⟨d.dim.offset + c, d.dim.offset + c + 1⟩) coords rest

theorem contiguousCube_sliced (h : DimsOf ext (before ++ split :: rest)) (slices : ℤ) (c : ℕ)
    (hl : coords.length = rest.length) :
    Sliced ext before split slices rest c coords
      (contiguousCube ext split slices rest (c :: coords)) := by
  have hn := h.nodup
  rw [List.map_append, List.map_cons, List.nodup_append, List.nodup_cons] at hn
  obtain ⟨-, ⟨hsplit, hrest⟩, hdis⟩ := hn
  have hlt : ∀ d ∈ before ++ split :: rest, d.dimension < ext.length := fun d hd =>
    List.mem_range.1 (h.perm.mem_iff.1 (List.mem_map_of_mem hd))
  refine ⟨?_, fun d hd => ?_, ?_, ?_⟩
  · rw [contiguousCube, setSlices_length, List.length_set]
  · have hd' := List.mem_map_of_mem (f := DimInfo.dimension) hd
    rw [contiguousCube, getElem?_setSlices_of_ne, List.getElem?_set_ne]
    · exact fun heq => hdis _ hd' _ (List.mem_cons_self ..) heq.symm
    · exact fun e he heq => hdis _ hd' _ (List.mem_cons_of_mem _ (List.mem_map_of_mem he)) heq.symm
  · rw [contiguousCube, getElem?_setSlices_of_ne, List.getElem?_set_self (hlt split (by simp))]
    · rfl
    · exact fun e he heq => hsplit (heq ▸ List.mem_map_of_mem he)
  · refine getElem?_setSlices hrest (fun d hd => ?_) hl
    rw [List.length_set]
    exact hlt d (by simp [hd])

/-- A point is in the fragment of one choice of coordinates only. -/
theorem contiguousCube_unique (h : DimsOf ext (before ++ split :: rest)) (hsl : 0 < slices)
    (hc : SliceCoords slices rest coords) (hc' : SliceCoords slices rest coords')
    (hp : p ∈ Hypercube.points (contiguousCube ext split slices rest coords))
    (hp' : p ∈ Hypercube.points (contiguousCube ext split slices rest coords')) :
    coords = coords' := by
  rcases coords with _ | ⟨c, coords⟩
  · exact hc.elim
  rcases coords' with _ | ⟨c', coords'⟩
  · exact hc'.elim
  have hs := contiguousCube_sliced h slices c hc.2.length_eq
  have hs' := contiguousCube_sliced h slices c' hc'.2.length_eq
  have hat : ∀ {cube : Hypercube} {i : ℕ} {r : Range}, p ∈ Hypercube.points cube →
      cube[i]? = some r → ∃ x, p[i]? = some x ∧ Range.Mem x r := by
    intro cube i r hp hr
    have hi : i < p.length := by
      rw [Hypercube.length_of_mem_points hp]
      exact (List.getElem?_eq_some_iff.1 hr).1
    exact ⟨p[i], List.getElem?_eq_getElem hi,
      Hypercube.mem_of_getElem? hp (List.getElem?_eq_getElem hi) hr⟩
  have hpos := (h.fits split (by simp)).1
  obtain ⟨x, hx, hxm⟩ := hat hp hs.split
  obtain ⟨x', hx', hxm'⟩ := hat hp' hs'.split
  obtain rfl : x = x' := Option.some.inj (hx.symm.trans hx')
  have hshift : ∀ {k : ℕ}, Range.Mem x ⟨split.dim.offset + (slice split.dim.size slices k).start,
      split.dim.offset + (slice split.dim.size slices k).stop⟩ →
      Range.Mem (x - split.dim.offset) (slice split.dim.size slices k) := by
    intro k hk
    simp only [Range.Mem] at hk ⊢
    omega
  rw [slice_unique hpos.le hsl (hshift hxm) (hshift hxm')]
  congr 1
  refine List.ext_getElem (hc.2.length_eq.trans hc'.2.length_eq.symm) fun i hi hi' => ?_
  have hir : i < rest.length := hc.2.length_eq ▸ hi
  obtain ⟨y, hy, hym⟩ := hat hp (hs.rest.get hi hir)
  obtain ⟨y', hy', hym'⟩ := hat hp' (hs'.rest.get hi' hir)
  obtain rfl : y = y' := Option.some.inj (hy.symm.trans hy')
  simp only [Range.Mem, List.get_eq_getElem] at hym hym'
  omega

/-- The bytes of a fragment are those of a slice of the dimension that is split. -/
theorem Sliced.size_eq (h : DimsOf ext (before ++ split :: rest)) {c : ℕ}
    (hs : Sliced ext before split slices rest c coords cube) (hsl : 0 < slices)
    (hle : slices ≤ split.dim.size) :
    Hypercube.size cube = (before.map fun d => d.dim.size).prod
      * ((slice split.dim.size slices c).stop - (slice split.dim.size slices c).start) := by
  have hne := slice_not_isEmpty hsl hle c
  simp only [Range.isEmpty, ge_iff_le, not_le] at hne
  rw [size_eq_prod (hs.length.symm ▸ h.perm), List.map_append, List.prod_append, List.map_cons,
    List.prod_cons]
  have hbefore : (before.map fun d => ((cube[d.dimension]?).map Range.size).getD 1)
      = before.map fun d => d.dim.size := by
    refine List.map_congr_left fun d hd => ?_
    obtain ⟨hpos, hfit⟩ := h.fits d (by simp [hd])
    rw [getD_size_of_getElem? ((hs.before d hd).trans hfit) (by omega), add_sub_cancel_left]
  have hrest : (rest.map fun d => ((cube[d.dimension]?).map Range.size).getD 1).prod = 1 := by
    refine List.prod_eq_one fun y hy => ?_
    obtain ⟨d, hd, rfl⟩ := List.mem_map.1 hy
    obtain ⟨i, hi, rfl⟩ := List.getElem_of_mem hd
    have hget := hs.rest.get (hs.rest.length_eq ▸ hi) hi
    rw [List.get_eq_getElem, List.get_eq_getElem] at hget
    rw [getD_size_of_getElem? hget (by omega), add_sub_cancel_left]
  rw [hbefore, hrest, mul_one, getD_size_of_getElem? hs.split (by omega), add_sub_add_left_eq_sub]

/-- The cubes at all fragment coordinates. -/
theorem contiguousCubes_partitions (he : ¬ Hypercube.isEmpty ext)
    (h : DimsOf ext (before ++ split :: rest)) (hsl : 0 < slices) (hle : slices ≤ split.dim.size) :
    HypercubeSet.Partitions ((Odometer.all (slices.toNat :: rest.map fun d => d.dim.size.toNat)).map
      (contiguousCube ext split slices rest)) ext := by
  have hsplit := h.fits split (by simp)
  have hrest : ∀ d ∈ rest, DimInfo.Fits ext d := fun d hd => h.fits d (by simp [hd])
  have hmem := fun {coords : List ℕ} => @sliceCoords_iff rest ext slices coords hrest hsl
  refine HypercubeSet.partitions_map ?_ ?_ ?_ ?_ ?_
  · rw [Odometer.all_eq_tuples]
    exact Odometer.nodup_tuples _
  · exact fun coords _ => contiguousCube_not_isEmpty he hsl hle coords
  · exact fun coords hc => (contiguousCube_within hsplit hrest hsl (hmem.1 hc)).points_subset
  · intro p hp
    obtain ⟨coords, hc, hm⟩ := exists_mem_contiguousCube hsplit hrest hsl hp
    exact ⟨coords, hmem.2 hc, hm⟩
  · exact fun a ha b hb p => contiguousCube_unique h hsl (hmem.1 ha) (hmem.1 hb)

variable {env : SplitEnv} {space : Dataspace} {maxFragmentSize size : ℤ}

/-- The slices a contiguous split makes of a dimension of `n` elements, if a fragment has `size`
bytes per coordinate of it. -/
def splitSlices (maxFragmentSize size n : ℤ) : ℤ :=
  (n + maxFragmentSize.tdiv size - 1).tdiv (maxFragmentSize.tdiv size)

theorem contiguousFragments_fits (h : maxFragmentSize > 0 ∧ space.totalBytes < maxFragmentSize) :
    contiguousFragments env.qsort maxFragmentSize space = .ok [space.getExtends] := by
  unfold contiguousFragments
  rw [if_pos h]
  rfl

/-- A contiguous split once it has found its dimension. -/
theorem contiguousFragments_split
    (hfit : ¬ (maxFragmentSize > 0 ∧ space.totalBytes < maxFragmentSize))
    (hfind : findSplitDim maxFragmentSize space.type.sizeof (sortedDims env space)
      = some (split, rest, size)) (h0 : size ≠ 0) :
    contiguousFragments env.qsort maxFragmentSize space
      = if maxFragmentSize.tdiv size = 0 then .error .undefined
        else if splitSlices maxFragmentSize size split.dim.size ≤ 0 then .ok []
        else .ok ((Odometer.all ((splitSlices maxFragmentSize size split.dim.size).toNat ::
          rest.map fun d => d.dim.size.toNat)).map (contiguousCube space.getExtends split
            (splitSlices maxFragmentSize size split.dim.size) rest)) := by
  unfold contiguousFragments
  rw [if_neg hfit]
  unfold sortedDims at hfind
  simp only [hfind, if_neg h0]
  rfl

/-- A dimension is found, and the bytes per coordinate of it do not exceed the limit. -/
theorem exists_findSplitDim (hd : 0 < space.dims) (hs : ∀ d ∈ space.dim, 0 < d.size)
    (hm : space.type.sizeof ≤ maxFragmentSize) (hfit : maxFragmentSize ≤ space.totalBytes) :
    ∃ before split rest size,
      findSplitDim maxFragmentSize space.type.sizeof (sortedDims env space)
        = some (split, rest, size)
      ∧ sortedDims env space = before ++ split :: rest
      ∧ size = space.type.sizeof * (before.map fun d => d.dim.size).prod
      ∧ 0 < size ∧ size ≤ maxFragmentSize := by
  have hdims := sortedDims_dimsOf env hs
  have hne : sortedDims env space ≠ [] := by
    intro hnil
    have := hdims.perm.length_eq
    rw [hnil, List.length_range, Dataspace.getExtends_length] at this
    exact hd.ne this
  rcases hfind : findSplitDim maxFragmentSize space.type.sizeof (sortedDims env space) with
    _ | ⟨split, rest, size⟩
  · have := findSplitDim_eq_none hfind hne
    rw [← hdims.size_eq, ← Dataspace.elementCount_eq_size hs, mul_comm] at this
    exact absurd hfit (not_le.2 this)
  · obtain ⟨before, happ, hsize⟩ := findSplitDim_eq_append hfind
    obtain ⟨-, -, hbounds⟩ := findSplitDim_eq_some hfind
    obtain ⟨h0, hle⟩ := hbounds hm (fun d hd => (hdims.fits d hd).1) space.type.sizeof_pos
    exact ⟨before, split, rest, size, rfl, happ, hsize, h0, hle⟩

theorem tdiv_pos (h0 : 0 < size) (hle : size ≤ maxFragmentSize) :
    0 < maxFragmentSize.tdiv size := by
  rw [Int.tdiv_eq_ediv_of_nonneg (by omega)]
  exact Int.le_ediv_of_mul_le h0 (by omega)

/-- As many slices of the maximal thickness have room for the whole dimension. -/
theorem le_splitSlices_mul {n : ℤ} (hn : 0 < n) (h0 : 0 < size) (hle : size ≤ maxFragmentSize) :
    n ≤ splitSlices maxFragmentSize size n * maxFragmentSize.tdiv size := by
  have ht := tdiv_pos h0 hle
  unfold splitSlices
  generalize maxFragmentSize.tdiv size = t at ht
  rw [Int.tdiv_eq_ediv_of_nonneg (by omega)]
  have hmod := Int.emod_lt_of_pos (n + t - 1) ht
  have hdiv := Int.mul_ediv_add_emod (n + t - 1) t
  rw [mul_comm]
  omega

/-- A contiguous split with room for an element in a fragment: all in one, or sliced. -/
theorem contiguousFragments_cases (env : SplitEnv) (hd : 0 < space.dims)
    (hs : ∀ d ∈ space.dim, 0 < d.size) (hm : space.type.sizeof ≤ maxFragmentSize) :
    (contiguousFragments env.qsort maxFragmentSize space = .ok [space.getExtends]
      ∧ space.totalBytes < maxFragmentSize)
    ∨ ∃ before split rest size slices, sortedDims env space = before ++ split :: rest
      ∧ size = space.type.sizeof * (before.map fun d => d.dim.size).prod
      ∧ 0 < size ∧ size ≤ maxFragmentSize
      ∧ slices = splitSlices maxFragmentSize size split.dim.size
      ∧ 0 < slices ∧ slices ≤ split.dim.size
      ∧ contiguousFragments env.qsort maxFragmentSize space
        = .ok ((Odometer.all (Int.toNat slices :: rest.map fun d => d.dim.size.toNat)).map
          (contiguousCube space.getExtends split slices rest)) := by
  have hsz := space.type.sizeof_pos
  by_cases hfit : maxFragmentSize > 0 ∧ space.totalBytes < maxFragmentSize
  · exact .inl ⟨contiguousFragments_fits hfit, hfit.2⟩
  obtain ⟨before, split, rest, size, hfind, happ, hsize, h0, hle⟩ :=
    @exists_findSplitDim env space maxFragmentSize hd hs hm
      (not_lt.1 fun h => hfit ⟨by omega, h⟩)
  have hsplit := (sortedDims_dimsOf env hs).fits split (by simp [happ])
  obtain ⟨hsl, hsn⟩ : 0 < splitSlices maxFragmentSize size split.dim.size ∧ _ :=
    splitSlices_bounds hsplit.1 h0 hle
  refine .inr ⟨before, split, rest, size, _, happ, hsize, h0, hle, rfl, hsl, hsn, ?_⟩
  rw [contiguousFragments_split hfit hfind h0.ne', if_neg (tdiv_pos h0 hle).ne',
    if_neg (not_le.2 hsl)]

/-- A contiguous split with room for an element in a fragment comes to an end with a partition of
the dataspace, whose hypercubes keep to the maximal size.  They are complete in the dimensions
sorted before the one that is split, and one coordinate wide in those behind it. -/
theorem contiguousFragments_partitions (env : SplitEnv) (hd : 0 < space.dims)
    (hs : ∀ d ∈ space.dim, 0 < d.size) (hm : space.type.sizeof ≤ maxFragmentSize) :
    ∃ cubes, contiguousFragments env.qsort maxFragmentSize space = .ok cubes
      ∧ cubes.Partitions space.getExtends
      ∧ (∀ c ∈ cubes, Hypercube.size c * space.type.sizeof ≤ maxFragmentSize)
      ∧ (cubes = [space.getExtends]
        ∨ ∃ before split after slices, sortedDims env space = before ++ split :: after
          ∧ Odometer.Ends (Int.toNat slices :: after.map fun d => d.dim.size.toNat)
          ∧ cubes = (Odometer.all (slices.toNat :: after.map fun d => d.dim.size.toNat)).map
            (contiguousCube space.getExtends split slices after)
          ∧ ∀ cube ∈ cubes, (∀ d ∈ before, cube[d.dimension]? = space.getExtends[d.dimension]?)
            ∧ ∀ d ∈ after, ∃ x, cube[d.dimension]? = some ⟨x, x + 1⟩) := by
  have he := Dataspace.getExtends_not_isEmpty hs
  obtain ⟨hok, hlt⟩ | ⟨before, split, rest, size, slices, happ, hsize, h0, hle, hslices, hsl, hsn,
      hok⟩ := contiguousFragments_cases env hd hs hm
  · refine ⟨_, hok, HypercubeSet.partitions_singleton he, ?_, .inl rfl⟩
    intro c hc
    rw [List.mem_singleton.1 hc, ← Dataspace.elementCount_eq_size hs]
    exact hlt.le
  have hdims := sortedDims_dimsOf env hs
  rw [happ] at hdims
  have hsplit := hdims.fits split (by simp)
  have hmem : ∀ coords ∈ Odometer.all (slices.toNat :: rest.map fun d => d.dim.size.toNat),
      ∃ c cs, coords = c :: cs ∧ cs.length = rest.length := by
    intro coords hc
    have hc := (sliceCoords_iff (fun d hd => hdims.fits d (by simp [hd])) hsl).1 hc
    rcases coords with _ | ⟨c, cs⟩
    · exact hc.elim
    · exact ⟨c, cs, rfl, hc.2.length_eq⟩
  refine ⟨_, hok, contiguousCubes_partitions he hdims hsl hsn, ?_,
    .inr ⟨before, split, rest, _, happ, Odometer.ends _, rfl, ?_⟩⟩
  · intro cube hcube
    obtain ⟨coords, hc, rfl⟩ := List.mem_map.1 hcube
    obtain ⟨c, cs, rfl, hl⟩ := hmem coords hc
    rw [(contiguousCube_sliced hdims _ c hl).size_eq hdims hsl hsn, mul_comm, ← mul_assoc, ← hsize]
    have hroom := le_splitSlices_mul hsplit.1 h0 hle
    rw [← hslices] at hroom
    have hthick := slice_size_le hsplit.1.le hsl hroom c
    refine (Int.mul_le_mul_of_nonneg_left hthick h0.le).trans ?_
    rw [Int.tdiv_eq_ediv_of_nonneg (by omega)]
    exact Int.mul_ediv_self_le h0.ne'
  · intro cube hcube
    obtain ⟨coords, hc, rfl⟩ := List.mem_map.1 hcube
    obtain ⟨c, cs, rfl, hl⟩ := hmem coords hc
    have hsliced := contiguousCube_sliced hdims slices c hl
    refine ⟨hsliced.before, fun d hd => ?_⟩
    obtain ⟨i, hi, rfl⟩ := List.getElem_of_mem hd
    exact ⟨_, hsliced.rest.get (hl ▸ hi) hi⟩

/-- Two backends of which the first gets nothing of a dimension that starts at zero, and edges of
one element for as long as a fragment has room for it. -/
def plainEnv : SplitEnv :=
  { (Env.calm ()).toSplitEnv with
    backends := [⟨"a", 8, .contiguous⟩, ⟨"b", 8, .equalized⟩]
    targetEdgeLength := fun space maxFragmentSize =>
      if space.type.sizeof ≤ maxFragmentSize then 1 else 0 }

/-- Two rows of three elements of two bytes, in column order. -/
def columns : Dataspace := ⟨.basic .int16, [⟨0, 2⟩, ⟨5, 3⟩], some [1, 2], by simp⟩

theorem contiguousFragments_partitions_columns :
    ∃ cubes, contiguousFragments plainEnv.qsort 5 columns = .ok cubes
      ∧ cubes = [[⟨0, 2⟩, ⟨5, 6⟩], [⟨0, 2⟩, ⟨6, 7⟩], [⟨0, 2⟩, ⟨7, 8⟩]]
      ∧ cubes.Partitions columns.getExtends := by
  obtain ⟨cubes, hok, hpart, -⟩ := @contiguousFragments_partitions columns 5 plainEnv (by decide)
    (by decide) (by decide)
  refine ⟨cubes, hok, ?_, hpart⟩
  rw [← Except.ok.inj hok]
  decide

end Contiguous

section Total

variable {env : SplitEnv} {space : Dataspace} {backend : Backend} {maxFragmentSize : ℤ}

/-- The power a balanced split takes its edge from is exact enough: the edge has an element exactly
if a fragment has room for one. -/
def SplitEnv.EdgeExact (env : SplitEnv) : Prop :=
  ∀ space maxFragmentSize, 1 ≤ env.targetEdgeLength space maxFragmentSize
    ↔ space.type.sizeof ≤ maxFragmentSize

/-- The dataspaces a backend's splitter can deal with.  Without room for an element a balanced split
leaves only the single elements whole.  A contiguous split divides by zero, or takes the quotient of
two negative numbers for its slices, which is one for a dimension of one element. -/
def Backend.Splits (env : SplitEnv) (space : Dataspace) (backend : Backend) : Prop :=
  space.type.sizeof ≤ backend.maxFragmentSize
    ∨ (backend.fragmentationMethod = .equalized ∧ ∀ d ∈ space.dim, d.size = 1)
    ∨ (backend.fragmentationMethod = .contiguous ∧ backend.maxFragmentSize ≤ -space.type.sizeof
      ∧ ∃ d rest, sortedDims env space = d :: rest ∧ d.dim.size = 1)

theorem not_partitions_nil (hs : ∀ d ∈ space.dim, 0 < d.size) :
    ¬ HypercubeSet.Partitions [] space.getExtends := by
  intro h
  obtain ⟨p, hp⟩ := Hypercube.points_nonempty_iff.2 (Dataspace.getExtends_not_isEmpty hs)
  rw [← h.points_eq] at hp
  obtain ⟨c, hc, -⟩ := hp
  cases hc

theorem splitFactor_of_neg {edge : ℤ} {d : Dim} (he : edge < 0) (hd : 0 < d.size) :
    splitFactor edge d < 1 := by
  have h : 0 ≤ -d.size / edge := Int.ediv_nonneg_of_nonpos_of_nonpos (by omega) he.le
  unfold splitFactor
  omega

theorem balancedDims_total_iff {edge : ℤ} (hs : ∀ d ∈ space.dim, 0 < d.size) :
    (∃ cubes, balancedDims edge space = .ok cubes ∧ cubes.Partitions space.getExtends)
      ↔ 1 ≤ edge ∨ ∀ d ∈ space.dim, d.size = 1 := by
  by_cases hone : ∀ d ∈ space.dim, ¬ d.size > 1
  · refine iff_of_true ⟨_, balancedDims_of_one hone, HypercubeSet.partitions_singleton
      (Dataspace.getExtends_not_isEmpty hs)⟩ (.inr fun d hd => ?_)
    have := hs d hd
    have := hone d hd
    omega
  constructor
  · rintro ⟨cubes, hok, -⟩
    refine .inl (not_lt.1 fun he => ?_)
    unfold balancedDims at hok
    rw [if_neg (by simpa using hone)] at hok
    split_ifs at hok with h0
    obtain ⟨_, hf, -⟩ := Outcome.bind_eq_ok.1 hok
    push Not at hone
    obtain ⟨d, hd, -⟩ := hone
    have hmem : (d, splitFactor edge d) ∈ space.dim.zip (space.dim.map (splitFactor edge)) := by
      rw [← List.map_prod_left_eq_zip]
      exact List.mem_map_of_mem hd
    have hneg : edge < 0 := by omega
    exact absurd (eassert_eq_ok.1 hf _ hmem).1 (not_le.2 (splitFactor_of_neg hneg (hs d hd)))
  · rintro (he | h)
    · exact ⟨_, balancedDims_of_pos he hs hone,
        balancedCubes_partitions (forall₂_splitFactor he hs)⟩
    · exact absurd (fun d hd => by rw [h d hd]; omega) hone

/-- The slices without room for an element. -/
theorem splitSlices_of_lt {n size : ℤ} (hn : 0 < n) (h0 : 0 < size) (hm : maxFragmentSize ≤ -size) :
    maxFragmentSize.tdiv size < 0
      ∧ if n = 1 then splitSlices maxFragmentSize size n = 1
        else splitSlices maxFragmentSize size n ≤ 0 := by
  obtain ⟨m, rfl⟩ : ∃ m, maxFragmentSize = -m := ⟨-maxFragmentSize, by omega⟩
  have ht := tdiv_pos h0 (show size ≤ m by omega)
  unfold splitSlices
  rw [Int.neg_tdiv]
  generalize m.tdiv size = t at ht
  refine ⟨by omega, ?_⟩
  rw [Int.tdiv_neg]
  split_ifs with h1
  · subst h1
    rw [show (1 : ℤ) + -t - 1 = -t by omega, Int.neg_tdiv, Int.tdiv_self ht.ne', neg_neg]
  · rcases le_or_gt 0 (n + -t - 1) with h | h
    · have := Int.tdiv_nonneg h ht.le
      omega
    · obtain ⟨k, hk⟩ : ∃ k, n + -t - 1 = -k := ⟨-(n + -t - 1), by omega⟩
      rw [hk, Int.neg_tdiv, neg_neg, Int.tdiv_eq_zero_of_lt (by omega) (by omega)]

theorem contiguousFragments_total_iff (hd : 0 < space.dims) (hs : ∀ d ∈ space.dim, 0 < d.size)
    (hm : maxFragmentSize < space.type.sizeof) :
    (∃ cubes, contiguousFragments env.qsort maxFragmentSize space = .ok cubes
        ∧ cubes.Partitions space.getExtends)
      ↔ maxFragmentSize ≤ -space.type.sizeof
        ∧ ∃ d rest, sortedDims env space = d :: rest ∧ d.dim.size = 1 := by
  have hsz := space.type.sizeof_pos
  have he := Dataspace.getExtends_not_isEmpty hs
  have hdims := sortedDims_dimsOf env hs
  obtain ⟨d, rest, hsort⟩ : ∃ d rest, sortedDims env space = d :: rest := by
    refine List.exists_cons_of_length_pos ?_
    rw [← List.length_map (f := DimInfo.dimension), hdims.perm.length_eq]
    simpa using hd
  rw [hsort] at hdims
  have hn := (hdims.fits d (by simp)).1
  -- the first dimension already exceeds the limit
  have hge : space.type.sizeof ≤ space.type.sizeof * d.dim.size := by nlinarith
  have hfind : findSplitDim maxFragmentSize space.type.sizeof (sortedDims env space)
      = some (d, rest, (space.type.sizeof : ℤ)) := by
    rw [hsort, findSplitDim, if_pos (by omega)]
  have hfit : ¬ (maxFragmentSize > 0 ∧ space.totalBytes < maxFragmentSize) := by
    have hpos := Hypercube.size_pos_of_nonempty he
    rw [← Dataspace.elementCount_eq_size hs] at hpos
    have : (space.type.sizeof : ℤ) ≤ space.totalBytes := by
      unfold Dataspace.totalBytes
      nlinarith
    omega
  rw [contiguousFragments_split hfit hfind (by omega)]
  by_cases hneg : maxFragmentSize ≤ -space.type.sizeof
  · obtain ⟨ht, hsl⟩ := splitSlices_of_lt hn (by omega) hneg
    rw [if_neg ht.ne]
    by_cases h1 : d.dim.size = 1
    · rw [if_pos h1] at hsl
      rw [hsl, if_neg (by omega)]
      exact iff_of_true ⟨_, rfl, @contiguousCubes_partitions _ [] rest d 1 he hdims (by omega)
        (by omega)⟩ ⟨hneg, d, rest, hsort, h1⟩
    · rw [if_neg h1] at hsl
      rw [if_pos hsl]
      refine iff_of_false ?_ ?_
      · rintro ⟨cubes, hok, hpart⟩
        obtain rfl := Except.ok.inj hok
        exact not_partitions_nil hs hpart
      · rintro ⟨-, e, rest', he', h1'⟩
        rw [hsort] at he'
        exact h1 ((List.cons.inj he').1 ▸ h1')
  · have ht : maxFragmentSize.tdiv space.type.sizeof = 0 := by
      rcases le_or_gt 0 maxFragmentSize with h | h
      · exact Int.tdiv_eq_zero_of_lt h (by omega)
      · obtain ⟨k, rfl⟩ : ∃ k, maxFragmentSize = -k := ⟨-maxFragmentSize, by omega⟩
        rw [Int.neg_tdiv, Int.tdiv_eq_zero_of_lt (by omega) (by omega), neg_zero]
    rw [if_pos ht]
    exact iff_of_false (by rintro ⟨cubes, hok, -⟩; cases hok) fun h => hneg h.1

/-- A configuration with a backend of each method. -/
def sizedConfig (maxFragmentSize : ℤ) : Json :=
  let backend (id method : String) : Json := .obj [("type", .str "POSIX"), ("id", .str id),
    ("target", .str "/tmp"), ("max-fragment-size", .int maxFragmentSize),
    ("fragmentation-method", .str method)]
  .obj [("esdm", .obj [("backends", .arr [backend "a" "contiguous", backend "b" "equalized"])])]

/-- The configuration takes every integer for the maximal fragment size. -/
theorem getBackends_sizedConfig (maxFragmentSize : ℤ) :
    Config.getBackends (sizedConfig maxFragmentSize)
      = .ok [⟨"a", maxFragmentSize, .contiguous⟩, ⟨"b", maxFragmentSize, .equalized⟩] := by
  simp [Config.getBackends, sizedConfig, Config.required, Config.getBackend, Config.accessibility,
    Config.fragmentationMethod, Config.integer]

end Total

section Distribution

variable {env : SplitEnv} {space : Dataspace} {ext : Hypercube} {i : ℕ}

/-- The dimension `splitToBackends` splits, if any has more than one element. -/
def backendDim (space : Dataspace) : Option ℕ := bestDim 0 space.dim space.getEffectiveStride none 0

def Slot.cube? : Slot → Option Hypercube
  | .cube c => some c
  | _ => none

/-- The slots have all points of the dataspace, each in the hypercube of exactly one backend. -/
structure Distributed (env : SplitEnv) (space : Dataspace) (slots : List Slot) : Prop where
  length : slots.length = env.backends.length
  initialized : Slot.uninitialized ∉ slots
  null_iff : ∀ i r, backendDim space = some i → space.getExtends[i]? = some r →
    ∀ (k : ℕ) (a b : ℤ), (backendBounds env space r)[k]? = some a →
      (backendBounds env space r)[k + 1]? = some b → (slots[k]? = some .null ↔ a = b)
  partitions : HypercubeSet.Partitions (slots.filterMap Slot.cube?) space.getExtends
  unique : ∀ p ∈ Hypercube.points space.getExtends,
    ∃! k : ℕ, ∃ c, slots[k]? = some (Slot.cube c) ∧ p ∈ Hypercube.points c

/-- A range without elements leaves its entry uninitialised, and there is no entry to write to
behind it. -/
theorem backendSlots_initialized_iff : ∀ {a : ℤ} {bounds : List ℤ},
    (∃ slots, backendSlots ext i true (a :: bounds) = .ok slots ∧ .uninitialized ∉ slots)
      ↔ (a :: bounds).IsChain (· < ·)
  | a, [] => by simp [backendSlots]
  | a, b :: bounds => by
    rw [List.isChain_cons_cons, ← @backendSlots_initialized_iff b bounds, backendSlots]
    constructor
    · rintro ⟨slots, h, hu⟩
      obtain ⟨_, hab, h⟩ := Outcome.bind_eq_ok.1 h
      have hab := eassert_eq_ok.1 hab
      split_ifs at h with heq
      · obtain ⟨rest, -, h⟩ := Outcome.bind_eq_ok.1 h
        obtain rfl := Except.ok.inj h
        simp at hu
      · obtain ⟨rest, hr, h⟩ := Outcome.bind_eq_ok.1 h
        obtain rfl := Except.ok.inj h
        exact ⟨by omega, rest, hr, by simpa using hu⟩
    · rintro ⟨hlt, rest, hr, hu⟩
      rw [eassert_of hlt.le, Outcome.ok_bind, if_neg hlt.ne, if_pos rfl, hr]
      exact ⟨_, rfl, by simpa using hu⟩

theorem not_null_of_backendSlots {valid : Bool} {bounds : List ℤ} {slots : List Slot}
    (h : backendSlots ext i valid bounds = .ok slots) : Slot.null ∉ slots := by
  induction bounds generalizing valid slots with
  | nil =>
    obtain rfl := Except.ok.inj h
    simp
  | cons a bounds ih =>
    rcases bounds with _ | ⟨b, bounds⟩
    · obtain rfl := Except.ok.inj h
      simp
    rw [backendSlots] at h
    obtain ⟨_, -, h⟩ := Outcome.bind_eq_ok.1 h
    split_ifs at h
    all_goals
      obtain ⟨rest, hr, h⟩ := Outcome.bind_eq_ok.1 h
      obtain rfl := Except.ok.inj h
      simpa using ih hr

/-- Different slots have no point in common. -/
def Slot.Apart (s t : Slot) : Prop :=
  ∀ c d, s = .cube c → t = .cube d → Disjoint (Hypercube.points c) (Hypercube.points d)

theorem backendSlots_pairwise (hi : i < ext.length) :
    ∀ {bounds : List ℤ} {valid : Bool} {slots : List Slot} {a z : ℤ},
    backendSlots ext i valid (a :: bounds) = .ok slots → (a :: bounds).getLast? = some z →
    slots.Pairwise Slot.Apart
  | [], _, slots, _, _, h, _ => by
    obtain rfl := Except.ok.inj h
    exact .nil
  | b :: bounds, valid, slots, a, z, h, hz => by
    rw [backendSlots] at h
    obtain ⟨_, hab, h⟩ := Outcome.bind_eq_ok.1 h
    rw [List.getLast?_cons_cons] at hz
    split_ifs at h with heq hv
    · obtain ⟨rest, hr, h⟩ := Outcome.bind_eq_ok.1 h
      obtain rfl := Except.ok.inj h
      exact .cons (fun t _ c d hc => by cases hc) (backendSlots_pairwise hi hr hz)
    · obtain ⟨rest, hr, h⟩ := Outcome.bind_eq_ok.1 h
      obtain rfl := Except.ok.inj h
      obtain ⟨-, -, hcube, -⟩ := backendSlots_eq_ok hr hz
      refine .cons ?_ (backendSlots_pairwise hi hr hz)
      -- the ranges behind start at `b` or later
      rintro t ht c d hc rfl
      obtain rfl := Slot.cube.inj hc
      obtain ⟨x, y, hx, -, -, rfl⟩ := hcube d ht
      refine HypercubeSet.disjoint_points_of_getElem? (i := i) (fun p q v hp hq hv hv' => ?_)
        (by simpa using hi)
      have hlow := (Hypercube.mem_of_getElem? hp hv (List.getElem?_set_self hi)).2
      have hhigh := (Hypercube.mem_of_getElem? hq hv' (List.getElem?_set_self hi)).1
      dsimp only at hlow hhigh
      omega

theorem pairwise_replicate_set (n k : ℕ) (c : Hypercube) :
    ((List.replicate n Slot.null).set k (.cube c)).Pairwise Slot.Apart := by
  induction n generalizing k with
  | zero => exact .nil
  | succ n ih =>
    rw [List.replicate_succ]
    rcases k with _ | k
    · refine .cons (fun t ht c d _ hd => ?_) ?_
      · rw [List.eq_of_mem_replicate ht] at hd
        cases hd
      · exact List.pairwise_replicate.2 (.inr fun c d hc => by cases hc)
    · exact .cons (fun t _ c d hc => by cases hc) (ih k)

/-- What makes slots that are all set a distribution. -/
theorem distributed_of_pairwise (hs : ∀ d ∈ space.dim, 0 < d.size) {slots : List Slot}
    (h : splitToBackends env space = .ok slots) (hu : .uninitialized ∉ slots)
    (hnull : ∀ i r, backendDim space = some i → space.getExtends[i]? = some r →
      ∀ (k : ℕ) (a b : ℤ), (backendBounds env space r)[k]? = some a →
        (backendBounds env space r)[k + 1]? = some b → (slots[k]? = some .null ↔ a = b))
    (hpair : slots.Pairwise Slot.Apart) : Distributed env space slots := by
  obtain ⟨hlen, hwithin, hcov⟩ := splitToBackends_eq_ok hs h
  have hcube? : ∀ {c : Hypercube}, c ∈ slots.filterMap Slot.cube? ↔ Slot.cube c ∈ slots := by
    intro c
    rw [List.mem_filterMap]
    refine ⟨fun ⟨s, hs, hc⟩ => ?_, fun hc => ⟨_, hc, rfl⟩⟩
    cases s <;> simp_all [Slot.cube?]
  refine ⟨hlen, hu, hnull, ⟨?_, ?_, ?_⟩, ?_⟩
  · exact fun c hc => (hwithin c (hcube?.1 hc)).2
  · refine List.Pairwise.filterMap _ ?_ hpair
    intro s t hst c hc d hd
    refine hst c d ?_ ?_
    · cases s <;> simp_all [Slot.cube?]
    · cases t <;> simp_all [Slot.cube?]
  · ext p
    refine ⟨fun ⟨c, hc, hp⟩ => (hwithin c (hcube?.1 hc)).1.points_subset hp, fun hp => ?_⟩
    obtain ⟨c, hc, hp⟩ := hcov hu p hp
    exact ⟨c, hcube?.2 hc, hp⟩
  · intro p hp
    obtain ⟨c, hc, hpc⟩ := hcov hu p hp
    obtain ⟨k, hk⟩ := List.mem_iff_getElem?.1 hc
    refine ⟨k, ⟨c, hk, hpc⟩, ?_⟩
    rintro j ⟨d, hj, hpd⟩
    obtain ⟨hk', hk⟩ := List.getElem?_eq_some_iff.1 hk
    obtain ⟨hj', hj⟩ := List.getElem?_eq_some_iff.1 hj
    have hlt := List.pairwise_iff_getElem.1 hpair
    rcases lt_trichotomy j k with h | h | h
    · exact absurd hpc (Set.disjoint_left.1 (hlt j k hj' hk' h d c hj hk) hpd)
    · exact h
    · exact absurd hpd (Set.disjoint_left.1 (hlt k j hk' hj' h c d hk hj) hpc)

theorem bestDim_lt : ∀ {k : ℕ} {dim : List Dim} {stride : List ℤ} {best : Option ℕ} {s : ℤ},
    (∀ j, best = some j → j < k + dim.length) → bestDim k dim stride best s = some i →
    i < k + dim.length
  | _, [], _, _, _, hb, h => hb i (by simpa [bestDim] using h)
  | _, _ :: _, [], _, _, hb, h => hb i (by simpa [bestDim] using h)
  | k, d :: dim, t :: stride, best, s, hb, h => by
    rw [bestDim] at h
    simp only [List.length_cons, ← Nat.add_assoc, Nat.add_right_comm k _ 1] at hb ⊢
    split_ifs at h
    · refine bestDim_lt (fun j hj => ?_) h
      obtain rfl := Option.some.inj hj
      omega
    · exact bestDim_lt hb h

theorem exists_of_backendDim (h : backendDim space = some i) :
    ∃ r, space.getExtends[i]? = some r := by
  have hlt := bestDim_lt (by simp) h
  rw [Nat.zero_add] at hlt
  exact ⟨_, List.getElem?_eq_getElem (by simpa [Dataspace.dims] using hlt)⟩

theorem splitToBackends_of_some (hn : 0 < env.backends.length) (h : backendDim space = some i)
    {r : Range} (hr : space.getExtends[i]? = some r) :
    splitToBackends env space
      = backendSlots space.getExtends i true (backendBounds env space r) := by
  unfold splitToBackends
  unfold backendDim at h
  rw [eassert_of hn, Outcome.ok_bind]
  simp only [h, hr, access_some, Outcome.ok_bind]

theorem splitToBackends_of_none (hn : 0 < env.backends.length)
    (hb : env.bestBackend space < env.backends.length) (h : backendDim space = none) :
    splitToBackends env space = .ok ((List.replicate env.backends.length .null).set
      (env.bestBackend space) (.cube space.getExtends)) := by
  unfold splitToBackends
  unfold backendDim at h
  rw [eassert_of hn, Outcome.ok_bind]
  simp only [h, eassert_of hb, Outcome.ok_bind]
  rfl

/-- The dataspace is distributed exactly if no backend's range is empty: either no dimension is
split at all, or the bounds between the ranges increase. -/
theorem splitToBackends_distributed_iff (hs : ∀ d ∈ space.dim, 0 < d.size)
    (hn : 0 < env.backends.length) (hb : env.bestBackend space < env.backends.length) :
    (∃ slots, splitToBackends env space = .ok slots ∧ Distributed env space slots)
      ↔ ∀ i r, backendDim space = some i → space.getExtends[i]? = some r →
        (backendBounds env space r).Pairwise (· < ·) := by
  rcases hdim : backendDim space with _ | i
  · refine iff_of_true ⟨_, splitToBackends_of_none hn hb hdim, distributed_of_pairwise hs
      (splitToBackends_of_none hn hb hdim) ?_ ?_ (pairwise_replicate_set ..)⟩ (by simp)
    · intro hu
      rcases List.mem_or_eq_of_mem_set hu with hu | hu
      · cases List.eq_of_mem_replicate hu
      · cases hu
    · intro i r hi
      rw [hdim] at hi
      cases hi
  obtain ⟨r, hr⟩ := exists_of_backendDim hdim
  have heq := splitToBackends_of_some hn hdim hr
  have hiff := @backendSlots_initialized_iff space.getExtends i r.start
    ((List.range' 1 (env.backends.length - 1)).map (env.cut space) ++ [r.stop])
  rw [List.isChain_iff_pairwise] at hiff
  have hcond : (∀ j s, some i = some j → space.getExtends[j]? = some s →
      (backendBounds env space s).Pairwise (· < ·))
        ↔ (backendBounds env space r).Pairwise (· < ·) := by
    refine ⟨fun h => h i r rfl hr, fun h j s hj hs => ?_⟩
    obtain rfl := Option.some.inj hj
    obtain rfl := Option.some.inj (hr.symm.trans hs)
    exact h
  rw [hcond]
  constructor
  · rintro ⟨slots, hok, hdist⟩
    exact hiff.1 ⟨slots, heq.symm.trans hok, hdist.initialized⟩
  · intro hlt
    obtain ⟨slots, hok, hu⟩ := hiff.2 hlt
    have hi : i < space.getExtends.length := (List.getElem?_eq_some_iff.1 hr).1
    refine ⟨slots, heq.trans hok, distributed_of_pairwise hs (heq.trans hok) hu ?_
      (backendSlots_pairwise hi hok (backendBounds_getLast? r))⟩
    intro j s hj hs k a b ha hb
    obtain rfl := Option.some.inj (hdim.symm.trans hj)
    obtain rfl := Option.some.inj (hr.symm.trans hs)
    obtain ⟨hk, rfl⟩ := List.getElem?_eq_some_iff.1 ha
    obtain ⟨hk', rfl⟩ := List.getElem?_eq_some_iff.1 hb
    refine iff_of_false (fun hnull => ?_) ?_
    · exact not_null_of_backendSlots hok (List.mem_of_getElem? hnull)
    · exact (List.pairwise_iff_getElem.1 hlt k (k + 1) hk hk' (by omega)).ne

theorem splitToBackends_distributed_iff_columns :
    ∃ slots, splitToBackends { plainEnv with cut := fun _ _ => 6 } columns = .ok slots
      ∧ slots = [.cube [⟨0, 2⟩, ⟨5, 6⟩], .cube [⟨0, 2⟩, ⟨6, 8⟩]]
      ∧ Distributed { plainEnv with cut := fun _ _ => 6 } columns slots := by
  obtain ⟨slots, hok, hdist⟩ := (@splitToBackends_distributed_iff
    { plainEnv with cut := fun _ _ => 6 } columns (by decide) (by decide) (by decide)).2 (by
      intro i r hi hr
      obtain rfl : 1 = i :=
        Option.some.inj ((by decide : backendDim columns = some 1).symm.trans hi)
      obtain rfl : (⟨5, 8⟩ : Range) = r := Option.some.inj hr
      decide)
  refine ⟨slots, hok, ?_, hdist⟩
  rw [← Except.ok.inj hok]
  rfl

/-- With the first backend's range empty there is no array left to write the second one's to. -/
theorem splitToBackends_emptyRange :
    splitToBackends { plainEnv with cut := fun _ _ => 5 } columns = .error .undefined
      ∧ (backendBounds { plainEnv with cut := fun _ _ => 5 } columns ⟨5, 8⟩).Pairwise (· ≤ ·) := by
  decide

end Distribution

end Esdm
