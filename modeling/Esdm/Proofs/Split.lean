import Mathlib.Tactic.Ring
import Mathlib.Tactic.Linarith
import Esdm.Proofs.Hypercube
import Esdm.Split

/-!
# What a split is made of

Whatever the environment answers, the hypercubes of a split lie inside the space that is split
(`makeSplitRecommendation_within`, `splitToBackends_eq_ok`).  They cover it, except that a maximal
fragment size below that of one element can make a contiguous split come out empty
(`makeSplitRecommendation_covers`, `splitToBackends_eq_ok`).
-/

namespace Esdm

theorem ElemType.sizeof_pos : ∀ t : ElemType, 0 < t.sizeof
  | .basic b => by cases b <;> decide
  | .derived _ n => by
    have := n.pos
    simp only [ElemType.sizeof]
    omega

section Slices

variable {x n f : ℤ}

/-- The `c`-th of `f` slices of `n` elements. -/
def slice (n f : ℤ) (c : ℕ) : Range := ⟨((c : ℤ) * n).tdiv f, (((c : ℤ) + 1) * n).tdiv f⟩

theorem slice_eq (hs : 0 ≤ n) (c : ℕ) :
    slice n f c = ⟨(c * n) / f, ((c + 1) * n) / f⟩ := by
  have h0 : 0 ≤ (c : ℤ) * n := Int.mul_nonneg (by omega) hs
  have h1 : 0 ≤ ((c : ℤ) + 1) * n := Int.mul_nonneg (by omega) hs
  rw [slice, Int.tdiv_eq_ediv_of_nonneg h0, Int.tdiv_eq_ediv_of_nonneg h1]

theorem slice_within (hs : 0 ≤ n) (hf : 0 < f) {c : ℕ} (hc : (c : ℤ) < f) :
    0 ≤ (slice n f c).start ∧ (slice n f c).stop ≤ n := by
  rw [slice_eq hs]
  refine ⟨Int.ediv_nonneg (Int.mul_nonneg (by omega) hs) hf.le, ?_⟩
  have h : ((c : ℤ) + 1) * n ≤ f * n := Int.mul_le_mul_of_nonneg_right (by omega) hs
  calc ((c : ℤ) + 1) * n / f ≤ f * n / f := Int.ediv_le_ediv hf h
    _ = n := Int.mul_ediv_cancel_left _ hf.ne'

theorem slice_not_isEmpty (hf : 0 < f) (hfs : f ≤ n) (c : ℕ) : ¬ (slice n f c).isEmpty := by
  rw [slice_eq (by omega), Range.isEmpty]
  have h : (c : ℤ) * n / f + 1 ≤ ((c : ℤ) + 1) * n / f := by
    rw [← Int.add_mul_ediv_right _ _ hf.ne', one_mul]
    exact Int.ediv_le_ediv hf (by linarith)
  dsimp only
  omega

/-- Every element lies in one of the slices. -/
theorem exists_mem_slice (hf : 0 < f) (h0 : 0 ≤ x) (hx : x < n) :
    ∃ c : ℕ, (c : ℤ) < f ∧ Range.Mem x (slice n f c) := by
  have hs : 0 < n := by omega
  have hp : 0 ≤ (x + 1) * f - 1 := by nlinarith
  obtain ⟨c, hc⟩ := Int.eq_ofNat_of_zero_le (Int.ediv_nonneg hp hs.le)
  have hlo : (c : ℤ) * n ≤ (x + 1) * f - 1 := by rw [← hc]; exact Int.ediv_mul_le _ hs.ne'
  have hhi : (x + 1) * f - 1 < ((c : ℤ) + 1) * n := by
    rw [← hc]
    exact Int.lt_ediv_add_one_mul_self _ hs
  refine ⟨c, by nlinarith, ?_⟩
  rw [slice_eq hs.le, Range.Mem]
  constructor
  · have : (c : ℤ) * n / f < x + 1 := Int.ediv_lt_of_lt_mul hf (by linarith)
    dsimp only
    omega
  · have : x + 1 ≤ ((c : ℤ) + 1) * n / f := Int.le_ediv_of_mul_le hf (by linarith)
    dsimp only
    omega

end Slices

namespace Hypercube

/-- The hypercube lies inside another one, dimension by dimension. -/
def Within (c e : Hypercube) : Prop :=
  List.Forall₂ (fun r s : Range => s.start ≤ r.start ∧ r.stop ≤ s.stop) c e

variable {c d e : Hypercube} {p : List ℤ} {i : ℕ} {r s : Range}

theorem Within.refl (c : Hypercube) : Within c c :=
  List.forall₂_same.2 fun _ _ => ⟨le_rfl, le_rfl⟩

theorem Within.length_eq (h : Within c e) : c.length = e.length := List.Forall₂.length_eq h

theorem Within.trans (h : Within c d) (h' : Within d e) : Within c e := by
  induction h generalizing e with
  | nil => exact h'
  | cons hr _ ih =>
    obtain ⟨s, t, hs, ht, rfl⟩ := List.forall₂_cons_left_iff.1 h'
    exact .cons ⟨hs.1.trans hr.1, hr.2.trans hs.2⟩ (ih ht)

theorem Within.points_subset (h : Within c e) : points c ⊆ points e := by
  induction h with
  | nil => exact fun _ h => h
  | cons hr _ ih =>
    intro p hp
    obtain ⟨x, q, rfl, hx, hq⟩ := mem_points_cons_iff.1 hp
    exact mem_points_cons.2 ⟨⟨hr.1.trans hx.1, hx.2.trans_le hr.2⟩, ih hq⟩

theorem Within.set (h : Within c e) (hi : e[i]? = some s) (h1 : s.start ≤ r.start)
    (h2 : r.stop ≤ s.stop) : Within (c.set i r) e := by
  induction h generalizing i with
  | nil => simp at hi
  | cons hr ht ih =>
    cases i with
    | zero =>
      obtain rfl := Option.some.inj hi
      exact .cons ⟨h1, h2⟩ ht
    | succ i => exact .cons hr (ih hi)

theorem mem_points_set (h : p ∈ points c) (hi : ∀ x, p[i]? = some x → Range.Mem x r) :
    p ∈ points (c.set i r) := by
  induction h generalizing i with
  | nil => exact mem_points_nil.2 rfl
  | cons hx ht ih =>
    cases i with
    | zero => exact .cons (hi _ rfl) ht
    | succ i => exact .cons hx (ih fun x hx => hi x hx)

theorem not_isEmpty_set (h : ¬ isEmpty c) (hr : ¬ r.isEmpty) : ¬ isEmpty (c.set i r) := by
  rintro ⟨t, ht, he⟩
  rcases List.mem_or_eq_of_mem_set ht with ht | rfl
  · exact h ⟨t, ht, he⟩
  · exact hr he

theorem mem_of_getElem? {cube : Hypercube} (h : p ∈ points cube) {x : ℤ} (hx : p[i]? = some x)
    (hr : cube[i]? = some r) : Range.Mem x r := by
  induction h generalizing i with
  | nil => simp at hx
  | cons hx' _ ih =>
    cases i with
    | zero =>
      obtain rfl := Option.some.inj hx
      obtain rfl := Option.some.inj hr
      exact hx'
    | succ i => exact ih hx hr

end Hypercube

namespace Dataspace

variable {space : Dataspace}

@[simp] theorem getExtends_length (space : Dataspace) : space.getExtends.length = space.dims :=
  List.length_map _

theorem getExtends_not_isEmpty (hs : ∀ d ∈ space.dim, 0 < d.size) :
    ¬ Hypercube.isEmpty space.getExtends := by
  rintro ⟨r, hr, he⟩
  obtain ⟨d, hd, rfl⟩ := List.mem_map.1 hr
  have := hs d hd
  simp only [Range.isEmpty] at he
  omega

theorem elementCount_eq_size (hs : ∀ d ∈ space.dim, 0 < d.size) :
    space.elementCount = Hypercube.size space.getExtends := by
  rw [elementCount, Hypercube.size, getExtends, List.map_map]
  congr 1
  refine List.map_congr_left fun d hd => ?_
  have hlt : d.offset < d.offset + d.size := by
    have := hs d hd
    omega
  rw [Function.comp, Range.size_of_not_isEmpty (not_le.2 hlt), add_sub_cancel_left]

theorem size_pos_of_mem_points {p : List ℤ} (h : p ∈ Hypercube.points space.getExtends) :
    ∀ d ∈ space.dim, 0 < d.size := by
  intro d hd
  have hne := Hypercube.points_nonempty_iff.1 ⟨p, h⟩
  by_contra hs
  exact hne ⟨_, List.mem_map_of_mem hd, show d.offset ≥ d.offset + d.size by omega⟩

end Dataspace

section Balanced

variable {edge : ℤ} {space : Dataspace} {cubes : HypercubeSet}

theorem balancedDims_eq_ok (h : balancedDims edge space = .ok cubes) :
    cubes = [space.getExtends]
      ∨ ∃ factors : List ℤ, List.Forall₂ (fun d f => 1 ≤ f ∧ f ≤ d.size) space.dim factors
        ∧ cubes = (Odometer.tuples (factors.map Int.toNat)).map
          (balancedCube space.dim factors) := by
  unfold balancedDims at h
  split_ifs at h
  · exact .inl (Except.ok.inj h).symm
  · obtain ⟨_, hf, h⟩ := Outcome.bind_eq_ok.1 h
    have hf := eassert_eq_ok.1 hf
    refine .inr ⟨space.dim.map (splitFactor edge), List.forall₂_iff_zip.2 ⟨by simp, ?_⟩, ?_⟩
    · exact fun {d f} hq => hf (d, f) hq
    · rw [← Except.ok.inj h, Odometer.all_of_pos]
      intro n hn
      obtain ⟨f, hf', rfl⟩ := List.mem_map.1 hn
      obtain ⟨d, hd, rfl⟩ := List.mem_map.1 hf'
      have := hf (d, splitFactor edge d) (by
        rw [← List.map_prod_left_eq_zip]
        exact List.mem_map_of_mem hd)
      omega

theorem balancedCube_within {dim : List Dim} {factors : List ℤ} {coords : List ℕ}
    (hf : List.Forall₂ (fun d f => 1 ≤ f ∧ f ≤ d.size) dim factors)
    (hc : List.Forall₂ (· < ·) coords (factors.map Int.toNat)) :
    Hypercube.Within (balancedCube dim factors coords)
        (dim.map fun d => ⟨d.offset, d.offset + d.size⟩)
      ∧ ¬ Hypercube.isEmpty (balancedCube dim factors coords) := by
  induction hf generalizing coords with
  | nil => simp [balancedCube, Hypercube.Within, Hypercube.isEmpty]
  | @cons d f dim factors hdf _ ih =>
    obtain ⟨c, cs, hc, hcs, rfl⟩ := List.forall₂_cons_right_iff.1 hc
    obtain ⟨ihw, ihe⟩ := ih hcs
    have hw := slice_within (n := d.size) (c := c) (by omega) (show 0 < f by omega) (by omega)
    have hne := slice_not_isEmpty (show 0 < f by omega) hdf.2 c
    simp only [slice, Range.isEmpty] at hw hne
    refine ⟨.cons ⟨?_, ?_⟩ ihw, ?_⟩
    · dsimp only
      omega
    · dsimp only
      omega
    · simp only [balancedCube, Hypercube.isEmpty, List.mem_cons, exists_eq_or_imp, not_or]
      refine ⟨?_, ihe⟩
      simp only [Range.isEmpty]
      omega

theorem exists_mem_balancedCube {dim : List Dim} {factors : List ℤ} {p : List ℤ}
    (hf : List.Forall₂ (fun d f => 1 ≤ f ∧ f ≤ d.size) dim factors)
    (hp : p ∈ Hypercube.points (dim.map fun d => ⟨d.offset, d.offset + d.size⟩)) :
    ∃ coords, List.Forall₂ (· < ·) coords (factors.map Int.toNat)
      ∧ p ∈ Hypercube.points (balancedCube dim factors coords) := by
  induction hf generalizing p with
  | nil => exact ⟨[], .nil, hp⟩
  | @cons d f dim factors hdf _ ih =>
    obtain ⟨x, q, rfl, hx, hq⟩ := Hypercube.mem_points_cons_iff.1 hp
    obtain ⟨cs, hcs, hq⟩ := ih hq
    simp only [Range.Mem] at hx
    obtain ⟨c, hc, hx'⟩ := exists_mem_slice (x := x - d.offset) (n := d.size) (f := f)
      (by omega) (by omega) (by omega)
    simp only [slice, Range.Mem] at hx'
    refine ⟨c :: cs, .cons (by omega) hcs, Hypercube.mem_points_cons.2 ⟨?_, hq⟩⟩
    constructor
    · dsimp only
      omega
    · dsimp only
      omega

end Balanced

section Contiguous

variable {dim : List Dim} {stride : List ℤ} {infos rest : List DimInfo} {split : DimInfo}

theorem getElem?_of_mem_dimInfos {i : ℕ} {d : DimInfo} (h : d ∈ dimInfos i dim stride) :
    i ≤ d.dimension ∧ dim[d.dimension - i]? = some d.dim := by
  induction dim generalizing i stride with
  | nil => simp [dimInfos] at h
  | cons e dim ih =>
    rcases stride with _ | ⟨s, stride⟩
    · simp [dimInfos] at h
    · rcases List.mem_cons.1 h with rfl | h
      · simp
      · obtain ⟨h1, h2⟩ := ih h
        refine ⟨by omega, ?_⟩
        rw [show d.dimension - i = d.dimension - (i + 1) + 1 by omega]
        simpa using h2

/-- The entry stands for a dimension of the hypercube. -/
def DimInfo.Fits (ext : Hypercube) (d : DimInfo) : Prop :=
  0 < d.dim.size ∧ ext[d.dimension]? = some ⟨d.dim.offset, d.dim.offset + d.dim.size⟩

theorem fits_of_mem_dimInfos {space : Dataspace} (hs : ∀ d ∈ space.dim, 0 < d.size) {d : DimInfo}
    (h : d ∈ dimInfos 0 (space.getExtends.map fun r => (⟨r.start, r.size⟩ : Dim)) stride) :
    d.Fits space.getExtends := by
  obtain ⟨-, h⟩ := getElem?_of_mem_dimInfos h
  rw [Nat.sub_zero, List.getElem?_map] at h
  obtain ⟨r, hr, hd⟩ := Option.map_eq_some_iff.1 h
  have hr' := List.mem_of_getElem? hr
  have hne : ¬ r.isEmpty := fun he => Dataspace.getExtends_not_isEmpty hs ⟨r, hr', he⟩
  have hsize := Range.size_of_not_isEmpty hne
  rw [DimInfo.Fits, ← hd]
  refine ⟨Range.size_pos_iff.2 hne, ?_⟩
  rw [hr, hsize, add_sub_cancel]

theorem findSplitDim_eq_some {maxFragmentSize size size' : ℤ}
    (h : findSplitDim maxFragmentSize size infos = some (split, rest, size')) :
    split ∈ infos ∧ (∀ d ∈ rest, d ∈ infos)
      ∧ (size ≤ maxFragmentSize → (∀ d ∈ infos, 0 < d.dim.size) → 0 < size →
        0 < size' ∧ size' ≤ maxFragmentSize) := by
  induction infos generalizing size with
  | nil => simp [findSplitDim] at h
  | cons d infos ih =>
    rw [findSplitDim] at h
    split_ifs at h with hd
    · simp only [Option.some.injEq, Prod.mk.injEq] at h
      obtain ⟨rfl, rfl, rfl⟩ := h
      exact ⟨by simp, fun _ h => List.mem_cons_of_mem _ h, fun h1 _ h2 => ⟨h2, h1⟩⟩
    · obtain ⟨h1, h2, h3⟩ := ih h
      refine ⟨List.mem_cons_of_mem _ h1, fun e he => List.mem_cons_of_mem _ (h2 e he), ?_⟩
      intro _ hpos h0
      have := Int.mul_pos h0 (hpos d (by simp))
      exact h3 (by omega) (fun e he => hpos e (List.mem_cons_of_mem _ he)) this

theorem findSplitDim_eq_none {maxFragmentSize size : ℤ}
    (h : findSplitDim maxFragmentSize size infos = none) (hne : infos ≠ []) :
    size * (infos.map fun d => d.dim.size).prod < maxFragmentSize := by
  induction infos generalizing size with
  | nil => exact absurd rfl hne
  | cons d infos ih =>
    rw [findSplitDim] at h
    split_ifs at h with hd
    rcases infos with _ | ⟨e, infos⟩
    · simp only [List.map_cons, List.map_nil, List.prod_cons, List.prod_nil]
      linarith
    · have := ih h (by simp)
      rw [List.map_cons, List.prod_cons, ← mul_assoc]
      exact this

theorem setSlices_within {ext cube : Hypercube} {coords : List ℕ} (hw : Hypercube.Within cube ext)
    (hr : ∀ d ∈ rest, d.Fits ext)
    (hc : List.Forall₂ (fun c (d : DimInfo) => c < d.dim.size.toNat) coords rest) :
    Hypercube.Within (setSlices cube rest coords) ext := by
  induction hc generalizing cube with
  | nil => exact hw
  | @cons c d cs ds hcd _ ih =>
    obtain ⟨-, hd⟩ := hr d (by simp)
    refine ih (hw.set hd ?_ ?_) fun e he => hr e (by simp [he])
    · dsimp only
      omega
    · dsimp only
      omega

theorem setSlices_not_isEmpty : ∀ {cube : Hypercube} (rest : List DimInfo) (coords : List ℕ),
    ¬ Hypercube.isEmpty cube → ¬ Hypercube.isEmpty (setSlices cube rest coords)
  | _, [], _, h => h
  | _, _ :: _, [], h => h
  | _, d :: ds, c :: cs, h =>
    setSlices_not_isEmpty ds cs (Hypercube.not_isEmpty_set h (by simp only [Range.isEmpty]; omega))

theorem mem_points_setSlices {cube : Hypercube} {p : List ℤ} {coords : List ℕ}
    (hp : p ∈ Hypercube.points cube)
    (hc : List.Forall₂ (fun (c : ℕ) (d : DimInfo) => ∀ x, p[d.dimension]? = some x →
      x = d.dim.offset + c) coords rest) :
    p ∈ Hypercube.points (setSlices cube rest coords) := by
  induction hc generalizing cube with
  | nil => exact hp
  | cons hcd _ ih =>
    refine ih (Hypercube.mem_points_set hp fun x hx => ?_)
    rw [Range.Mem, hcd x hx]
    dsimp only
    omega

/-- The fragment coordinates of a contiguous split. -/
def SliceCoords (slices : ℤ) (rest : List DimInfo) : List ℕ → Prop
  | c :: coords => (c : ℤ) < slices
    ∧ List.Forall₂ (fun c (d : DimInfo) => c < d.dim.size.toNat) coords rest
  | [] => False

variable {ext : Hypercube} {slices : ℤ} {coords : List ℕ}

theorem contiguousCube_within (hs : split.Fits ext) (hr : ∀ d ∈ rest, d.Fits ext)
    (hsl : 0 < slices) (hc : SliceCoords slices rest coords) :
    Hypercube.Within (contiguousCube ext split slices rest coords) ext := by
  rcases coords with _ | ⟨c, coords⟩
  · exact hc.elim
  · have hw := slice_within (n := split.dim.size) (by have := hs.1; omega) hsl hc.1
    simp only [slice] at hw
    refine setSlices_within ((Hypercube.Within.refl ext).set hs.2 ?_ ?_) hr hc.2
    · dsimp only
      omega
    · dsimp only
      omega

theorem contiguousCube_not_isEmpty (he : ¬ Hypercube.isEmpty ext) (hsl : 0 < slices)
    (hle : slices ≤ split.dim.size) (coords : List ℕ) :
    ¬ Hypercube.isEmpty (contiguousCube ext split slices rest coords) := by
  rcases coords with _ | ⟨c, coords⟩
  · exact he
  · refine setSlices_not_isEmpty _ _ (Hypercube.not_isEmpty_set he ?_)
    have := slice_not_isEmpty hsl hle c
    simp only [slice, Range.isEmpty] at this ⊢
    omega

theorem exists_mem_contiguousCube (hs : split.Fits ext) (hr : ∀ d ∈ rest, d.Fits ext)
    (hsl : 0 < slices) {p : List ℤ} (hp : p ∈ Hypercube.points ext) :
    ∃ coords, SliceCoords slices rest coords
      ∧ p ∈ Hypercube.points (contiguousCube ext split slices rest coords) := by
  have hat : ∀ d : DimInfo, d.Fits ext → ∃ x, p[d.dimension]? = some x
      ∧ d.dim.offset ≤ x ∧ x < d.dim.offset + d.dim.size := by
    intro d hd
    have hlt : d.dimension < p.length := by
      rw [Hypercube.length_of_mem_points hp]
      exact (List.getElem?_eq_some_iff.1 hd.2).1
    exact ⟨p[d.dimension], List.getElem?_eq_getElem hlt,
      Hypercube.mem_of_getElem? hp (List.getElem?_eq_getElem hlt) hd.2⟩
  obtain ⟨x, hx, hx0, hx1⟩ := hat split hs
  obtain ⟨c, hc, hxc⟩ := exists_mem_slice (x := x - split.dim.offset) hsl (by omega)
    (show _ < split.dim.size by omega)
  simp only [slice, Range.Mem] at hxc
  refine ⟨c :: rest.map fun d => (p.getD d.dimension 0 - d.dim.offset).toNat, ⟨hc, ?_⟩,
    mem_points_setSlices (Hypercube.mem_points_set hp fun y hy => ?_) ?_⟩
  · rw [List.forall₂_map_left_iff]
    refine List.forall₂_same.2 fun d hd => ?_
    obtain ⟨y, hy, hy0, hy1⟩ := hat d (hr d hd)
    rw [List.getD_eq_getElem?_getD, hy, Option.getD_some]
    omega
  · obtain rfl : x = y := Option.some.inj (hx.symm.trans hy)
    simp only [Range.Mem]
    omega
  · rw [List.forall₂_map_left_iff]
    refine List.forall₂_same.2 fun d hd y hy => ?_
    obtain ⟨y', hy', hy0, -⟩ := hat d (hr d hd)
    obtain rfl : y' = y := Option.some.inj (hy'.symm.trans hy)
    rw [List.getD_eq_getElem?_getD, hy, Option.getD_some]
    omega

theorem sliceCoords_iff (hr : ∀ d ∈ rest, DimInfo.Fits ext d) (hsl : 0 < slices) :
    coords ∈ Odometer.all (slices.toNat :: rest.map fun d => d.dim.size.toNat)
      ↔ SliceCoords slices rest coords := by
  rw [Odometer.mem_all_of_pos]
  · rcases coords with _ | ⟨c, coords⟩
    · simp [SliceCoords]
    · rw [List.forall₂_cons, List.forall₂_map_right_iff, SliceCoords]
      exact and_congr_left fun _ => by omega
  · simp only [List.mem_cons, List.mem_map, forall_eq_or_imp, forall_exists_index, and_imp,
      forall_apply_eq_imp_iff₂]
    refine ⟨by omega, fun d hd => ?_⟩
    have := (hr d hd).1
    omega

/-- A maximal fragment size of an element or more leaves slices that are not thinner than one. -/
theorem splitSlices_bounds {n size maxFragmentSize : ℤ} (hn : 0 < n) (h0 : 0 < size)
    (hle : size ≤ maxFragmentSize) :
    0 < (n + maxFragmentSize.tdiv size - 1).tdiv (maxFragmentSize.tdiv size)
      ∧ (n + maxFragmentSize.tdiv size - 1).tdiv (maxFragmentSize.tdiv size) ≤ n := by
  have ht : 0 < maxFragmentSize.tdiv size := by
    rw [Int.tdiv_eq_ediv_of_nonneg (by omega)]
    exact Int.le_ediv_of_mul_le h0 (by omega)
  generalize maxFragmentSize.tdiv size = t at ht
  rw [Int.tdiv_eq_ediv_of_nonneg (by omega)]
  constructor
  · exact Int.le_ediv_of_mul_le ht (by omega)
  · have : (n + t - 1) / t < n + 1 := Int.ediv_lt_of_lt_mul ht (by nlinarith)
    omega

/-- The sizes of a contiguous split, where it has any cubes: a dimension that is cut into slices,
and those behind it, of which each cube has a single coordinate. -/
theorem contiguousFragments_eq_ok {env : SplitEnv} {maxFragmentSize : ℤ} {space : Dataspace}
    {cubes : HypercubeSet} (hs : ∀ d ∈ space.dim, 0 < d.size)
    (h : contiguousFragments env.qsort maxFragmentSize space = .ok cubes) :
    cubes = [space.getExtends]
      ∨ (maxFragmentSize < space.type.sizeof ∧ cubes = [])
      ∨ ∃ split rest slices, split.Fits space.getExtends
        ∧ (∀ d ∈ rest, DimInfo.Fits space.getExtends d) ∧ 0 < slices
        ∧ (space.type.sizeof ≤ maxFragmentSize → slices ≤ split.dim.size)
        ∧ (∀ c, c ∈ cubes ↔ ∃ coords, SliceCoords slices rest coords
          ∧ c = contiguousCube space.getExtends split slices rest coords) := by
  unfold contiguousFragments at h
  by_cases hfit : maxFragmentSize > 0 ∧ space.totalBytes < maxFragmentSize
  · rw [if_pos hfit] at h
    exact .inl (Except.ok.inj h).symm
  rw [if_neg hfit] at h
  right
  dsimp only at h
  split at h
  · cases h
  · rename_i split rest size hfind
    obtain ⟨hsplit, hrest, hsize⟩ := findSplitDim_eq_some hfind
    have hfits :
      ∀ d ∈ env.qsort (dimInfos 0 (space.getExtends.map fun r => (⟨r.start, r.size⟩ : Dim))
        space.getEffectiveStride), d.Fits space.getExtends := fun d hd =>
      fits_of_mem_dimInfos hs ((env.qsort_perm _).mem_iff.1 hd)
    have hb : space.type.sizeof ≤ maxFragmentSize → _ := fun hle =>
      have hle' := hsize hle (fun d hd => (hfits d hd).1) space.type.sizeof_pos
      splitSlices_bounds (hfits split hsplit).1 hle'.1 hle'.2
    split_ifs at h with h1 h2 h3
    · refine .inl ⟨?_, (Except.ok.inj h).symm⟩
      by_contra hle
      have := (hb (by omega)).1
      omega
    · refine .inr ⟨split, rest, _, hfits split hsplit, fun d hd => hfits d (hrest d hd),
        not_le.1 h3, fun hle => (hb hle).2, fun c => ?_⟩
      rw [← Except.ok.inj h, List.mem_map]
      refine exists_congr fun coords => and_congr ?_ eq_comm
      exact sliceCoords_iff (fun d hd => hfits d (hrest d hd)) (not_le.1 h3)

end Contiguous

section Recommendation

variable {env : SplitEnv} {space : Dataspace} {backend : Backend} {cubes : HypercubeSet}

theorem makeSplitRecommendation_within (hs : ∀ d ∈ space.dim, 0 < d.size)
    (h : makeSplitRecommendation env space backend = .ok cubes) :
    ∀ c ∈ cubes, Hypercube.Within c space.getExtends := by
  intro c hc
  unfold makeSplitRecommendation at h
  split at h
  · obtain rfl | ⟨factors, hf, rfl⟩ := balancedDims_eq_ok h
    · obtain rfl := List.mem_singleton.1 hc
      exact .refl _
    · obtain ⟨coords, hco, rfl⟩ := List.mem_map.1 hc
      exact (balancedCube_within hf (Odometer.mem_tuples.1 hco)).1
  · obtain rfl | ⟨-, rfl⟩ | ⟨split, rest, slices, hsf, hrf, hsl, -, hmem⟩ :=
      contiguousFragments_eq_ok hs h
    · obtain rfl := List.mem_singleton.1 hc
      exact .refl _
    · cases hc
    · obtain ⟨coords, hco, rfl⟩ := (hmem c).1 hc
      exact contiguousCube_within hsf hrf hsl hco

theorem makeSplitRecommendation_covers (hs : ∀ d ∈ space.dim, 0 < d.size)
    (hm : space.type.sizeof ≤ backend.maxFragmentSize)
    (h : makeSplitRecommendation env space backend = .ok cubes) :
    ∀ p ∈ Hypercube.points space.getExtends, p ∈ HypercubeSet.points cubes := by
  intro p hp
  unfold makeSplitRecommendation at h
  split at h
  · obtain rfl | ⟨factors, hf, rfl⟩ := balancedDims_eq_ok h
    · exact ⟨_, List.mem_singleton_self _, hp⟩
    · obtain ⟨coords, hco, hpc⟩ := exists_mem_balancedCube hf hp
      exact ⟨_, List.mem_map_of_mem (Odometer.mem_tuples.2 hco), hpc⟩
  · obtain rfl | ⟨hlt, -⟩ | ⟨split, rest, slices, hsf, hrf, hsl, -, hmem⟩ :=
      contiguousFragments_eq_ok hs h
    · exact ⟨_, List.mem_singleton_self _, hp⟩
    · omega
    · obtain ⟨coords, hco, hpc⟩ := exists_mem_contiguousCube hsf hrf hsl hp
      exact ⟨_, (hmem _).2 ⟨coords, hco, rfl⟩, hpc⟩

theorem makeSplitRecommendation_not_isEmpty (hs : ∀ d ∈ space.dim, 0 < d.size)
    (hm : space.type.sizeof ≤ backend.maxFragmentSize)
    (h : makeSplitRecommendation env space backend = .ok cubes) :
    ∀ c ∈ cubes, ¬ Hypercube.isEmpty c := by
  intro c hc
  have he := Dataspace.getExtends_not_isEmpty hs
  unfold makeSplitRecommendation at h
  split at h
  · obtain rfl | ⟨factors, hf, rfl⟩ := balancedDims_eq_ok h
    · obtain rfl := List.mem_singleton.1 hc
      exact he
    · obtain ⟨coords, hco, rfl⟩ := List.mem_map.1 hc
      exact (balancedCube_within hf (Odometer.mem_tuples.1 hco)).2
  · obtain rfl | ⟨-, rfl⟩ | ⟨split, rest, slices, -, -, hsl, hle, hmem⟩ :=
      contiguousFragments_eq_ok hs h
    · obtain rfl := List.mem_singleton.1 hc
      exact he
    · cases hc
    · obtain ⟨coords, -, rfl⟩ := (hmem c).1 hc
      exact contiguousCube_not_isEmpty he hsl (hle hm) coords

end Recommendation

section Backends

variable {ext : Hypercube} {i : ℕ} {slots : List Slot}

/-- What the slots between the bounds are: each has its range, within the first and the last bound,
and every element between these is in a range unless some slot has been left uninitialised. -/
theorem backendSlots_eq_ok : ∀ {bounds : List ℤ} {valid : Bool} {slots : List Slot} {a z : ℤ},
    backendSlots ext i valid (a :: bounds) = .ok slots → (a :: bounds).getLast? = some z →
    a ≤ z ∧ slots.length = bounds.length
      ∧ (∀ c, Slot.cube c ∈ slots → ∃ x y, a ≤ x ∧ x < y ∧ y ≤ z ∧ c = ext.set i ⟨x, y⟩)
      ∧ (.uninitialized ∉ slots → ∀ x, a ≤ x → x < z →
        ∃ r, Range.Mem x r ∧ Slot.cube (ext.set i r) ∈ slots)
  | [], valid, slots, a, z, h, hz => by
    obtain rfl := Except.ok.inj h
    obtain rfl : a = z := by simpa using hz
    exact ⟨le_rfl, rfl, by simp, fun _ x h1 h2 => by omega⟩
  | b :: bounds, valid, slots, a, z, h, hz => by
    rw [backendSlots] at h
    obtain ⟨_, hab, h⟩ := Outcome.bind_eq_ok.1 h
    have hab := eassert_eq_ok.1 hab
    rw [List.getLast?_cons_cons] at hz
    split_ifs at h with heq hv
    · obtain ⟨rest, hr, h⟩ := Outcome.bind_eq_ok.1 h
      obtain rfl := Except.ok.inj h
      obtain ⟨hle, hlen, hcube, -⟩ := backendSlots_eq_ok hr hz
      subst heq
      refine ⟨hle, by simp [hlen], ?_, by simp⟩
      intro c hc
      exact hcube c (by simpa using hc)
    · obtain ⟨rest, hr, h⟩ := Outcome.bind_eq_ok.1 h
      obtain rfl := Except.ok.inj h
      obtain ⟨hle, hlen, hcube, hcov⟩ := backendSlots_eq_ok hr hz
      refine ⟨by omega, by simp [hlen], ?_, ?_⟩
      · intro c hc
        rcases List.mem_cons.1 hc with hc | hc
        · exact ⟨a, b, le_rfl, by omega, hle, Slot.cube.inj hc⟩
        · obtain ⟨x, y, h1, h2, h3, h4⟩ := hcube c hc
          exact ⟨x, y, by omega, h2, h3, h4⟩
      · intro hu x h1 h2
        by_cases hxb : x < b
        · exact ⟨⟨a, b⟩, ⟨h1, hxb⟩, by simp⟩
        · obtain ⟨r, hr, hm⟩ := hcov (by simpa using hu) x (by omega) h2
          exact ⟨r, hr, List.mem_cons_of_mem _ hm⟩

variable {env : SplitEnv} {space : Dataspace}

theorem backendBounds_getLast? (r : Range) :
    (backendBounds env space r).getLast? = some r.stop := by
  unfold backendBounds
  rw [← List.cons_append, List.getLast?_concat]

/-- What `splitToBackends` leaves in the slots, whatever the bounds between the backends are. -/
theorem splitToBackends_eq_ok (hs : ∀ d ∈ space.dim, 0 < d.size)
    (h : splitToBackends env space = .ok slots) :
    slots.length = env.backends.length
      ∧ (∀ c, Slot.cube c ∈ slots →
        Hypercube.Within c space.getExtends ∧ ¬ Hypercube.isEmpty c)
      ∧ (.uninitialized ∉ slots → ∀ p ∈ Hypercube.points space.getExtends,
        ∃ c, Slot.cube c ∈ slots ∧ p ∈ Hypercube.points c) := by
  have he := Dataspace.getExtends_not_isEmpty hs
  unfold splitToBackends at h
  obtain ⟨_, hn, h⟩ := Outcome.bind_eq_ok.1 h
  have hn := eassert_eq_ok.1 hn
  split at h
  · rename_i i _
    obtain ⟨r, hr, h⟩ := Outcome.bind_eq_ok.1 h
    have hr := access_eq_ok.1 hr
    obtain ⟨-, hlen, hcube, hcov⟩ := backendSlots_eq_ok h (backendBounds_getLast? r)
    refine ⟨?_, ?_, ?_⟩
    · rw [hlen, List.length_append, List.length_map, List.length_range', List.length_singleton]
      omega
    · intro c hc
      obtain ⟨x, y, h1, h2, h3, rfl⟩ := hcube c hc
      refine ⟨(Hypercube.Within.refl _).set hr h1 h3, Hypercube.not_isEmpty_set he ?_⟩
      simp only [Range.isEmpty]
      omega
    · intro hu p hp
      have hlt : i < p.length := by
        rw [Hypercube.length_of_mem_points hp]
        exact (List.getElem?_eq_some_iff.1 hr).1
      have hm := Hypercube.mem_of_getElem? hp (List.getElem?_eq_getElem hlt) hr
      obtain ⟨s, hs, hmem⟩ := hcov hu _ hm.1 hm.2
      refine ⟨_, hmem, Hypercube.mem_points_set hp fun x hx => ?_⟩
      rw [List.getElem?_eq_getElem hlt] at hx
      rwa [← Option.some.inj hx]
  · obtain ⟨_, hb, h⟩ := Outcome.bind_eq_ok.1 h
    have hb := eassert_eq_ok.1 hb
    obtain rfl := Except.ok.inj h
    refine ⟨by simp, ?_, ?_⟩
    · intro c hc
      rcases List.mem_or_eq_of_mem_set hc with hc | hc
      · simp at hc
      · obtain rfl := Slot.cube.inj hc
        exact ⟨.refl _, he⟩
    · intro _ p hp
      exact ⟨_, List.mem_set (by simpa using hb) _, hp⟩

end Backends

end Esdm
