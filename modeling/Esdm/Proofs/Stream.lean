import Esdm.Stream
import Esdm.Proofs.Partition

/-!
# Subdivisions of a stream's region

Whatever the counts are, as long as they lie between one and the sizes, the objects of a subdivision
are the cubes of a balanced split with these factors, in their order (`objectBounds_eq`), and so
they partition the region.  `initCounts` finds such counts wherever it does not divide by zero, but
the size of a slice that it works with is that of the dimensions from the current to the last but
one, not of those behind the current one (`initCounts_subdivides_iff`).
-/

namespace Esdm

namespace Stream

section Bounds

variable {space : Dataspace} {counts : List ℤ}

theorem cumulativeCounts_headD : ∀ counts : List ℤ, (cumulativeCounts counts).headD 1 = counts.prod
  | [] => rfl
  | n :: counts => by
    rw [cumulativeCounts, List.headD_cons, cumulativeCounts_headD counts, List.prod_cons]

theorem cumulativeCounts_getElem? : ∀ {counts : List ℤ} {i : ℕ}, i ≤ counts.length →
    (cumulativeCounts counts)[i]? = some (counts.drop i).prod
  | [], i, h => by
    rw [List.length_nil, Nat.le_zero] at h
    subst h
    rfl
  | n :: counts, 0, _ => by
    rw [cumulativeCounts, List.getElem?_cons_zero, cumulativeCounts_headD, List.drop_zero,
      List.prod_cons]
  | n :: counts, i + 1, h => by
    rw [cumulativeCounts, List.getElem?_cons_succ, cumulativeCounts_getElem? (by simpa using h),
      List.drop_succ_cons]

theorem digits_getElem? : ∀ (ns : List ℕ) (k i : ℕ),
    (Odometer.digits ns k)[i]? = ns[i]?.map fun n => k / (ns.drop (i + 1)).prod % n
  | [], _, _ => rfl
  | n :: ns, k, 0 => rfl
  | n :: ns, k, i + 1 => by
    rw [Odometer.digits, List.getElem?_cons_succ, List.getElem?_cons_succ, digits_getElem? ns k i,
      List.drop_succ_cons]

theorem balancedCube_getElem? : ∀ {dim : List Dim} {factors : List ℤ} {coords : List ℕ} {i : ℕ}
    {d : Dim} {f : ℤ} {c : ℕ}, dim[i]? = some d → factors[i]? = some f → coords[i]? = some c →
    (balancedCube dim factors coords)[i]? = some ⟨d.offset + ((c : ℤ) * d.size).tdiv f,
      d.offset + (((c : ℤ) + 1) * d.size).tdiv f⟩
  | _ :: _, _ :: _, _ :: _, 0, _, _, _, hd, hf, hc => by
    obtain rfl := Option.some.inj hd
    obtain rfl := Option.some.inj hf
    obtain rfl := Option.some.inj hc
    rfl
  | _ :: _, _ :: _, _ :: _, i + 1, _, _, _, hd, hf, hc => by
    rw [balancedCube, List.getElem?_cons_succ]
    exact balancedCube_getElem? hd hf hc

theorem prod_map_toNat : ∀ {l : List ℤ}, (∀ n ∈ l, 1 ≤ n) → ((l.map Int.toNat).prod : ℤ) = l.prod
  | [], _ => rfl
  | n :: l, h => by
    have hn := h n (by simp)
    rw [List.map_cons, List.prod_cons, List.prod_cons, Nat.cast_mul,
      prod_map_toNat fun m hm => h m (List.mem_cons_of_mem _ hm), Int.toNat_of_nonneg (by omega)]

theorem map_toNat_pos (h : ∀ n ∈ counts, 1 ≤ n) : ∀ n ∈ counts.map Int.toNat, 0 < n := by
  intro n hn
  obtain ⟨m, hm, rfl⟩ := List.mem_map.1 hn
  have := h m hm
  omega

theorem prod_drop_pos (h : ∀ n ∈ counts, 1 ≤ n) (i : ℕ) : 0 < (counts.drop i).prod := by
  refine List.prod_pos fun n hn => ?_
  have := h n (List.mem_of_mem_drop hn)
  omega

/-- An object's range in a dimension is the slice of its digit there. -/
theorem getBounds_eq (hl : counts.length = space.dims) (h : ∀ n ∈ counts, 1 ≤ n) {k i : ℕ}
    {d : Dim} {f : ℤ} (hd : space.dim[i]? = some d) (hf : counts[i]? = some f) :
    ∃ c : ℕ, (Odometer.digits (counts.map Int.toNat) k)[i]? = some c
      ∧ getBounds space i (cumulativeCounts counts) k
        = .ok ⟨d.offset + ((c : ℤ) * d.size).tdiv f,
          d.offset + (((c : ℤ) + 1) * d.size).tdiv f⟩ := by
  have hi : i < counts.length := (List.getElem?_eq_some_iff.1 hf).1
  have hdrop : counts.drop i = f :: counts.drop (i + 1) := by
    rw [List.drop_eq_getElem_cons hi, (List.getElem?_eq_some_iff.1 hf).2]
  have hinner := prod_drop_pos h (i + 1)
  have hf1 := h f (List.mem_of_getElem? hf)
  refine ⟨k / ((counts.map Int.toNat).drop (i + 1)).prod % f.toNat, ?_, ?_⟩
  · rw [digits_getElem?, List.getElem?_map, hf]
    rfl
  have hprod :
    ((((counts.map Int.toNat).drop (i + 1)).prod : ℕ) : ℤ) = (counts.drop (i + 1)).prod := by
    rw [← List.map_drop]
    exact prod_map_toNat fun n hn => h n (List.mem_of_mem_drop hn)
  have hindex : ((k : ℤ).tdiv (counts.drop (i + 1)).prod).tmod f
      = ((k / ((counts.map Int.toNat).drop (i + 1)).prod % f.toNat : ℕ) : ℤ) := by
    rw [← hprod, Int.tdiv_eq_ediv_of_nonneg (Int.natCast_nonneg k), ← Int.natCast_ediv,
      Int.tmod_eq_emod_of_nonneg (Int.natCast_nonneg _), Int.natCast_emod,
      Int.toNat_of_nonneg (by omega)]
  unfold getBounds
  rw [if_neg (by omega), hd, cumulativeCounts_getElem? hi.le, cumulativeCounts_getElem? hi]
  simp only [access_some, Outcome.ok_bind]
  rw [if_neg hinner.ne', hdrop, List.prod_cons, Int.mul_tdiv_cancel _ hinner.ne', if_neg (by omega),
    hindex]
  rfl

theorem mapM_range'_eq_ok {α : Type} {f : ℕ → Outcome α} : ∀ {l : List α} {start : ℕ},
    (∀ i a, l[i]? = some a → f (start + i) = .ok a) →
    (List.range' start l.length).mapM f = .ok l
  | [], _, _ => rfl
  | a :: l, start, h => by
    have ih := @mapM_range'_eq_ok α f l (start + 1) fun i b hb => by
      rw [Nat.add_assoc, Nat.add_comm 1]
      exact h (i + 1) b hb
    have hhead : f start = .ok a := h 0 a rfl
    rw [List.length_cons, List.range'_succ, List.mapM_cons, hhead, ih]
    rfl

theorem balancedCube_length : ∀ {dim : List Dim} {factors : List ℤ} {coords : List ℕ},
    factors.length = dim.length → coords.length = dim.length →
    (balancedCube dim factors coords).length = dim.length
  | [], _, _, _, _ => rfl
  | _ :: _, _ :: _, _ :: _, hf, hc => by
    rw [balancedCube, List.length_cons, List.length_cons,
      balancedCube_length (by simpa using hf) (by simpa using hc)]

/-- An object of a subdivision is a cube of a balanced split. -/
theorem objectBounds_eq (hl : counts.length = space.dims) (h : ∀ n ∈ counts, 1 ≤ n) (k : ℕ) :
    objectBounds space (cumulativeCounts counts) k
      = .ok (balancedCube space.dim counts (Odometer.digits (counts.map Int.toNat) k)) := by
  have hpos := map_toNat_pos h
  have hdig : (Odometer.digits (counts.map Int.toNat) k).length = space.dims := by
    rw [Odometer.length_of_mem_tuples (Odometer.digits_mem_tuples hpos k), List.length_map, hl]
  have hlen := balancedCube_length hl hdig
  have hdims : space.dims = (balancedCube space.dim counts
      (Odometer.digits (counts.map Int.toNat) k)).length := hlen.symm
  unfold objectBounds
  rw [List.range_eq_range', hdims]
  refine mapM_range'_eq_ok fun i a ha => ?_
  have hi : i < space.dim.length := hlen ▸ (List.getElem?_eq_some_iff.1 ha).1
  obtain ⟨c, hc, hok⟩ := @getBounds_eq space counts hl h k i _ _ (List.getElem?_eq_getElem hi)
    (List.getElem?_eq_getElem (hl.symm ▸ hi))
  rw [balancedCube_getElem? (List.getElem?_eq_getElem hi) (List.getElem?_eq_getElem (hl.symm ▸ hi))
    hc] at ha
  rw [Nat.zero_add, hok, ← Option.some.inj ha]

/-- The objects of a subdivision, in order. -/
def objects (space : Dataspace) (counts : List ℤ) : Outcome HypercubeSet :=
  (List.range ((cumulativeCounts counts).headD 1).toNat).mapM fun k : ℕ =>
    objectBounds space (cumulativeCounts counts) (k : ℤ)

theorem objects_eq (hl : counts.length = space.dims) (h : ∀ n ∈ counts, 1 ≤ n) :
    objects space counts = .ok ((Odometer.tuples (counts.map Int.toNat)).map
      (balancedCube space.dim counts)) := by
  have hpos := map_toNat_pos h
  have hcount : ((cumulativeCounts counts).headD 1).toNat = (counts.map Int.toNat).prod := by
    rw [cumulativeCounts_headD, ← prod_map_toNat h, Int.toNat_natCast]
  rw [objects, hcount, ← Odometer.map_digits_range hpos, List.map_map]
  exact Outcome.mapM_eq_ok_iff.2 (List.forall₂_map_right_iff.2
    (List.forall₂_same.2 fun k _ => objectBounds_eq hl h k))

end Bounds

section Counts

variable {elementSize maxObjectSize : ℤ}

/-- The size of a slice as the loop has it when it comes to the first of these dimensions, those
behind it having been passed. -/
def sliceSize (elementSize : ℤ) (sizes : List ℤ) : ℤ := elementSize * sizes.dropLast.prod

/-- The loop passes all of these dimensions. -/
def Passes (elementSize maxObjectSize : ℤ) : List ℤ → Prop
  | [] => True
  | n :: after => n ≤ maxObjectSize.tdiv (sliceSize elementSize (n :: after))
    ∧ Passes elementSize maxObjectSize after

theorem sliceSize_cons_cons (m n : ℤ) (after : List ℤ) :
    sliceSize elementSize (m :: n :: after) = sliceSize elementSize (n :: after) * m := by
  rw [sliceSize, sliceSize, List.dropLast_cons_cons, List.prod_cons]
  ring

theorem sliceSize_pos (he : 0 < elementSize) {sizes : List ℤ} (h : ∀ n ∈ sizes, 0 < n) :
    0 < sliceSize elementSize sizes :=
  mul_pos he (List.prod_pos fun n hn => h n (List.dropLast_subset _ hn))

/-- The loop splits the dimension of size `n`, of which `width` elements make an object. -/
structure Splits (elementSize maxObjectSize : ℤ) (sizes before : List ℤ) (n : ℤ) (after : List ℤ)
    (width : ℤ) : Prop where
  sizes_eq : sizes = before ++ n :: after
  passes : Passes elementSize maxObjectSize after
  width_eq : width = maxObjectSize.tdiv (sliceSize elementSize (n :: after))
  width_lt : width < n

/-- `(n + width - 1)/width` -/
def ceilCount (n width : ℤ) : ℤ := (n + width - 1).tdiv width

/-- What the loop results in: a dimension to split, or all dimensions passed. -/
def LoopResult (elementSize maxObjectSize : ℤ) (sizes : List ℤ) (r : Outcome InitCounts) : Prop :=
  (∃ before n after width, Splits elementSize maxObjectSize sizes before n after width
    ∧ r = if width = 0 then .error .undefined
      else .ok ⟨before ++ ceilCount n width :: after.map fun _ => 1, some (before.length, width),
        false⟩)
  ∨ (Passes elementSize maxObjectSize sizes ∧ r = .ok ⟨sizes.map fun _ => 1, none, true⟩)

theorem initLoop_result (he : 0 < elementSize) {sizes : List ℤ} (hs : ∀ m ∈ sizes, 0 < m) :
    ∀ {rest : List ℤ} {n : ℤ} {after : List ℤ}, sizes = rest.reverse ++ n :: after →
    Passes elementSize maxObjectSize after →
    LoopResult elementSize maxObjectSize sizes
      (initLoop maxObjectSize (sliceSize elementSize (n :: after)) (n :: rest)
        (after.map fun _ => 1)) := by
  intro rest
  induction rest with
  | nil =>
    intro n after heq hpass
    have hpos : 0 < sliceSize elementSize (n :: after) := sliceSize_pos he fun m hm =>
      hs m (by simp [heq, hm])
    rw [initLoop, if_neg hpos.ne']
    dsimp only
    by_cases hlt : maxObjectSize.tdiv (sliceSize elementSize (n :: after)) < n
    · rw [if_pos hlt]
      exact .inl ⟨[], n, after, _, ⟨heq, hpass, rfl, hlt⟩, rfl⟩
    · rw [if_neg hlt]
      refine .inr ⟨?_, ?_⟩
      · rw [heq]
        exact ⟨not_lt.1 hlt, hpass⟩
      · rw [heq]
        rfl
  | cons m rest ih =>
    intro n after heq hpass
    have hpos : 0 < sliceSize elementSize (n :: after) := sliceSize_pos he fun k hk =>
      hs k (heq ▸ List.mem_append_right _ hk)
    rw [initLoop, if_neg hpos.ne']
    dsimp only
    by_cases hlt : maxObjectSize.tdiv (sliceSize elementSize (n :: after)) < n
    · rw [if_pos hlt]
      refine .inl ⟨(m :: rest).reverse, n, after, _, ⟨heq, hpass, rfl, hlt⟩, ?_⟩
      rw [List.length_reverse]
      rfl
    · rw [if_neg hlt, List.headD_cons, ← sliceSize_cons_cons]
      have heq' : sizes = rest.reverse ++ m :: n :: after := by
        rw [heq, List.reverse_cons, List.append_assoc, List.singleton_append]
      exact ih heq' ⟨not_lt.1 hlt, hpass⟩

theorem initCounts_result (he : 0 < elementSize) {sizes : List ℤ} (hs : ∀ m ∈ sizes, 0 < m)
    (hne : sizes ≠ []) :
    LoopResult elementSize maxObjectSize sizes (initCounts elementSize maxObjectSize sizes) := by
  rw [initCounts, if_neg hne]
  rcases hrev : sizes.reverse with _ | ⟨n, rest⟩
  · exact absurd (List.reverse_eq_nil_iff.1 hrev) hne
  · have hsizes : sizes = rest.reverse ++ [n] := by
      rw [← List.reverse_reverse sizes, hrev, List.reverse_cons]
    have := @initLoop_result elementSize maxObjectSize he sizes hs rest n [] hsizes trivial
    rwa [sliceSize, List.dropLast_singleton, List.prod_nil, mul_one] at this

theorem Passes.of_append : ∀ {a b : List ℤ}, Passes elementSize maxObjectSize (a ++ b) →
    Passes elementSize maxObjectSize b
  | [], _, h => h
  | _ :: a, _, h => Passes.of_append (a := a) h.2

theorem Splits.not_passes {sizes before after : List ℤ} {n width : ℤ}
    (h : Splits elementSize maxObjectSize sizes before n after width) :
    ¬ Passes elementSize maxObjectSize (n :: after) :=
  fun hp => absurd h.width_lt (not_lt.2 (h.width_eq ▸ hp.1))

/-- There is only one dimension that the loop can split. -/
theorem Splits.unique {sizes before before' after after' : List ℤ} {n n' width width' : ℤ}
    (h : Splits elementSize maxObjectSize sizes before n after width)
    (h' : Splits elementSize maxObjectSize sizes before' n' after' width') :
    before = before' ∧ n = n' ∧ after = after' ∧ width = width' := by
  have heq := h.sizes_eq.symm.trans h'.sizes_eq
  -- the tail of the one is not a part of the other's, as all of these dimensions are passed
  obtain ⟨mid, hb, ht⟩ | ⟨mid, hb, ht⟩ := List.append_eq_append_iff.1 heq
  · rcases mid with _ | ⟨m, mid⟩
    · obtain ⟨rfl, rfl⟩ := List.cons.inj ht
      exact ⟨by simpa using hb.symm, rfl, rfl, h.width_eq.trans h'.width_eq.symm⟩
    · obtain ⟨-, rfl⟩ := List.cons.inj ht
      exact absurd h.passes.of_append h'.not_passes
  · rcases mid with _ | ⟨m, mid⟩
    · obtain ⟨rfl, rfl⟩ := List.cons.inj ht
      exact ⟨by simpa using hb, rfl, rfl, h.width_eq.trans h'.width_eq.symm⟩
    · obtain ⟨-, rfl⟩ := List.cons.inj ht
      exact absurd h'.passes.of_append h.not_passes

theorem initCounts_of_splits (he : 0 < elementSize) {sizes before after : List ℤ} {n width : ℤ}
    (hs : ∀ m ∈ sizes, 0 < m)
    (h : Splits elementSize maxObjectSize sizes before n after width) (hw : width ≠ 0) :
    initCounts elementSize maxObjectSize sizes
      = .ok ⟨before ++ ceilCount n width :: after.map fun _ => 1, some (before.length, width),
        false⟩ := by
  have hne : sizes ≠ [] := by
    rw [h.sizes_eq]
    simp
  obtain ⟨before', n', after', width', h', hr⟩ | ⟨hp, -⟩ :=
    @initCounts_result elementSize maxObjectSize he sizes hs hne
  · obtain ⟨rfl, rfl, rfl, rfl⟩ := h.unique h'
    rw [hr, if_neg hw]
  · rw [h.sizes_eq] at hp
    exact absurd hp.of_append h.not_passes

theorem ceilCount_bounds {n width : ℤ} (hw : 1 ≤ width) (hn : 0 < n) :
    1 ≤ ceilCount n width ∧ ceilCount n width ≤ n := by
  rw [ceilCount, Int.tdiv_eq_ediv_of_nonneg (by omega)]
  refine ⟨Int.le_ediv_of_mul_le (by omega) (by omega), ?_⟩
  have : (n + width - 1) / width < n + 1 := Int.ediv_lt_of_lt_mul (by omega) (by nlinarith)
  omega

end Counts

section Sizes

variable {before after : List Dim} {d : Dim} {c : ℤ} {coords : List ℕ}

theorem slice_self {n : ℤ} (hn : 0 < n) (k : ℕ) : slice n n k = ⟨k, k + 1⟩ := by
  rw [slice_eq hn.le, Int.mul_ediv_cancel _ hn.ne', Int.mul_ediv_cancel _ hn.ne']

theorem range_shift_size (a : ℤ) (r : Range) : Range.size ⟨a + r.start, a + r.stop⟩ = r.size := by
  unfold Range.size Range.isEmpty
  dsimp only
  split_ifs <;> omega

/-- The factors of a subdivision: every dimension before the one that is split is cut into single
elements, those behind it are not cut. -/
def splitCounts (before : List Dim) (c : ℤ) (after : List Dim) : List ℤ :=
  before.map Dim.size ++ c :: after.map fun _ => 1

theorem size_cons (r : Range) (cube : Hypercube) :
    Hypercube.size (r :: cube) = r.size * Hypercube.size cube := by
  rw [Hypercube.size, List.map_cons, List.prod_cons]
  rfl

theorem size_uncut (hc : List.Forall₂ (· < ·) coords ((after.map fun _ => (1 : ℤ)).map Int.toNat))
    (hs : ∀ d ∈ after, 0 < d.size) :
    Hypercube.size (balancedCube after (after.map fun _ => 1) coords)
      = (after.map Dim.size).prod := by
  induction after generalizing coords with
  | nil => rfl
  | cons e after ih =>
    obtain ⟨k, ks, hk, hks, rfl⟩ := List.forall₂_cons_right_iff.1 hc
    have hk0 : k = 0 := by
      have : k < 1 := hk
      omega
    have he := hs e (by simp)
    rw [List.map_cons, balancedCube, size_cons, ih hks fun d hd => hs d (List.mem_cons_of_mem _ hd),
      List.map_cons, List.prod_cons, hk0]
    congr 1
    unfold Range.size Range.isEmpty
    simp
    omega

/-- An object has a slice of the dimension that is split, and all of those behind it. -/
theorem size_object (hs : ∀ e ∈ before ++ d :: after, 0 < e.size)
    (hc : coords ∈ Odometer.tuples ((splitCounts before c after).map Int.toNat)) :
    coords.getD before.length 0 < c.toNat
      ∧ Hypercube.size (balancedCube (before ++ d :: after) (splitCounts before c after) coords)
        = (slice d.size c (coords.getD before.length 0)).size * (after.map Dim.size).prod := by
  rw [Odometer.mem_tuples] at hc
  unfold splitCounts at hc ⊢
  induction before generalizing coords with
  | nil =>
    obtain ⟨k, ks, hk, hks, rfl⟩ := List.forall₂_cons_right_iff.1 hc
    refine ⟨hk, ?_⟩
    rw [List.map_nil, List.nil_append, List.nil_append, balancedCube, size_cons,
      size_uncut hks fun e he => hs e (by simp [he])]
    congr 1
    exact range_shift_size d.offset (slice d.size c k)
  | cons e before ih =>
    obtain ⟨j, ks, hj, hks, rfl⟩ := List.forall₂_cons_right_iff.1 hc
    obtain ⟨hk, hsize⟩ := ih (fun e' he' => hs e' (List.mem_cons_of_mem _ he')) hks
    refine ⟨hk, ?_⟩
    have hone : Range.size ⟨e.offset + ((j : ℤ) * e.size).tdiv e.size,
        e.offset + (((j : ℤ) + 1) * e.size).tdiv e.size⟩ = 1 := by
      refine (range_shift_size e.offset (slice e.size e.size j)).trans ?_
      rw [slice_self (hs e (by simp))]
      unfold Range.size Range.isEmpty
      simp
    rw [List.map_cons, List.cons_append, List.cons_append, balancedCube, size_cons, hsize, hone,
      one_mul]
    rfl

theorem exists_object (hs : ∀ e ∈ before ++ d :: after, 0 < e.size) {k : ℕ} (hk : k < c.toNat) :
    ∃ coords ∈ Odometer.tuples ((splitCounts before c after).map Int.toNat),
      Hypercube.size (balancedCube (before ++ d :: after) (splitCounts before c after) coords)
        = (slice d.size c k).size * (after.map Dim.size).prod := by
  have hmem : List.replicate before.length 0 ++ k :: List.replicate after.length 0
      ∈ Odometer.tuples ((splitCounts before c after).map Int.toNat) := by
    rw [Odometer.mem_tuples, splitCounts, List.map_append, List.map_cons]
    refine List.rel_append ?_ (.cons hk ?_)
    · rw [List.map_map, ← List.map_const', List.forall₂_map_left_iff, List.forall₂_map_right_iff]
      refine List.forall₂_same.2 fun e he => ?_
      have := hs e (by simp [he])
      simp only [Function.comp]
      omega
    · rw [List.map_map, ← List.map_const', List.forall₂_map_left_iff, List.forall₂_map_right_iff]
      exact List.forall₂_same.2 fun e _ => Nat.one_pos
  refine ⟨_, hmem, ?_⟩
  have hget : (List.replicate before.length 0 ++ k :: List.replicate after.length 0).getD
      before.length 0 = k := by
    simp
  have := (size_object hs hmem).2
  rwa [hget] at this

theorem slice_start_succ (n f : ℤ) (k : ℕ) : (slice n f (k + 1)).start = (slice n f k).stop := by
  simp [slice]

/-- The slices keep to a width exactly if as many of that width have room for all. -/
theorem slice_size_le_iff {n f w : ℤ} (hn : 0 < n) (hf : 0 < f) (hfn : f ≤ n) :
    (∀ k : ℕ, k < f.toNat → (slice n f k).size ≤ w) ↔ n ≤ f * w := by
  have hsize : ∀ k : ℕ, (slice n f k).size = (slice n f k).stop - (slice n f k).start := fun k =>
    Range.size_of_not_isEmpty (slice_not_isEmpty hf hfn k)
  constructor
  · intro h
    have hsum : ∀ k : ℕ, k < f.toNat → (slice n f k).stop ≤ (k + 1) * w := by
      intro k
      induction k with
      | zero =>
        intro hk
        have := h 0 hk
        rw [hsize] at this
        simp [slice] at this ⊢
        omega
      | succ k ih =>
        intro hk
        have hw := h (k + 1) hk
        have ih := ih (by omega)
        rw [hsize, slice_start_succ] at hw
        push_cast
        linarith
    have hlast := hsum (f.toNat - 1) (by omega)
    have hcast : ((f.toNat - 1 : ℕ) : ℤ) + 1 = f := by omega
    rw [slice_eq hn.le, hcast, Int.mul_ediv_cancel_left _ hf.ne'] at hlast
    exact hlast
  · intro h k _
    rw [hsize]
    exact slice_size_le hn.le hf h k

end Sizes

section Subdivision

variable {space : Dataspace} {elementSize maxObjectSize : ℤ}

/-- The limit is kept by a subdivision that splits the dimension of size `n`: its count, taken from
the wrong slice size, leaves objects that are thin enough for the right one. -/
def Subdivides (elementSize maxObjectSize : ℤ) (sizes : List ℤ) : Prop :=
  ∃ before n after width, Splits elementSize maxObjectSize sizes before n after width ∧ 1 ≤ width
    ∧ n ≤ ceilCount n width * maxObjectSize.tdiv (elementSize * after.prod)

/-- What is expected of the counts: they stay within the sizes, and the objects partition the space
and keep to the limit. -/
structure WellDefined (space : Dataspace) (elementSize maxObjectSize : ℤ) (r : InitCounts) :
    Prop where
  noStray : r.strayRead = false
  bounds : List.Forall₂ (fun (d : Dim) (n : ℤ) => 1 ≤ n ∧ n ≤ d.size) space.dim r.objectCounts
  objects : ∃ cubes, objects space r.objectCounts = .ok cubes ∧ cubes.Partitions space.getExtends
    ∧ ∀ cube ∈ cubes, Hypercube.size cube * elementSize ≤ maxObjectSize

theorem one_le_of_forall₂ {dim : List Dim} {counts : List ℤ}
    (h : List.Forall₂ (fun (d : Dim) (n : ℤ) => 1 ≤ n ∧ n ≤ d.size) dim counts) :
    ∀ n ∈ counts, 1 ≤ n := by
  intro k hk
  obtain ⟨j, hj, rfl⟩ := List.getElem_of_mem hk
  exact (h.get (h.length_eq ▸ hj) hj).1

theorem splitCounts_bounds {before after : List Dim} {d : Dim} {c : ℤ}
    (hs : ∀ e ∈ before ++ d :: after, 0 < e.size) (hc : 1 ≤ c ∧ c ≤ d.size) :
    List.Forall₂ (fun (d : Dim) (n : ℤ) => 1 ≤ n ∧ n ≤ d.size) (before ++ d :: after)
      (splitCounts before c after) := by
  refine List.rel_append ?_ (.cons hc ?_)
  · rw [List.forall₂_map_right_iff]
    refine List.forall₂_same.2 fun e he => ⟨?_, le_rfl⟩
    have := hs e (by simp [he])
    omega
  · rw [List.forall₂_map_right_iff]
    refine List.forall₂_same.2 fun e he => ⟨le_rfl, ?_⟩
    have := hs e (by simp [he])
    omega

/-- The objects of a split keep to the limit exactly if the count is large enough. -/
theorem objects_le_iff {before after : List Dim} {d : Dim} {c : ℤ} (he : 1 ≤ elementSize)
    (hs : ∀ e ∈ before ++ d :: after, 0 < e.size) (hc : 1 ≤ c ∧ c ≤ d.size)
    (hm : 0 ≤ maxObjectSize) :
    (∀ cube ∈ (Odometer.tuples ((splitCounts before c after).map Int.toNat)).map
        (balancedCube (before ++ d :: after) (splitCounts before c after)),
        Hypercube.size cube * elementSize ≤ maxObjectSize)
      ↔ d.size ≤ c * maxObjectSize.tdiv (elementSize * (after.map Dim.size).prod) := by
  have hprod : 0 < (after.map Dim.size).prod := List.prod_pos fun n hn => by
    obtain ⟨e, he, rfl⟩ := List.mem_map.1 hn
    exact hs e (by simp [he])
  have hS : 0 < elementSize * (after.map Dim.size).prod := mul_pos (by omega) hprod
  rw [← slice_size_le_iff (hs d (by simp)) (by omega) hc.2]
  have hwidth : ∀ w : ℤ, w * (after.map Dim.size).prod * elementSize ≤ maxObjectSize
      ↔ w ≤ maxObjectSize.tdiv (elementSize * (after.map Dim.size).prod) := by
    intro w
    rw [Int.tdiv_eq_ediv_of_nonneg hm, Int.le_ediv_iff_mul_le hS, mul_assoc, mul_comm (List.prod _)]
  constructor
  · intro h k hk
    obtain ⟨coords, hcoords, hsize⟩ := exists_object hs hk
    have := h _ (List.mem_map_of_mem hcoords)
    rw [hsize] at this
    exact (hwidth _).1 this
  · intro h cube hcube
    obtain ⟨coords, hcoords, rfl⟩ := List.mem_map.1 hcube
    obtain ⟨hk, hsize⟩ := size_object hs hcoords
    rw [hsize]
    exact (hwidth _).2 (h _ hk)

theorem Splits.exists_dims {before after : List ℤ} {n width : ℤ}
    (h : Splits elementSize maxObjectSize (space.dim.map Dim.size) before n after width) :
    ∃ (dimBefore dimAfter : List Dim) (d : Dim), space.dim = dimBefore ++ d :: dimAfter
      ∧ before = dimBefore.map Dim.size ∧ n = d.size ∧ after = dimAfter.map Dim.size := by
  obtain ⟨dimBefore, rest, hdim, hb, hrest⟩ := List.map_eq_append_iff.1 h.sizes_eq
  obtain ⟨d, dimAfter, rfl, hn, ha⟩ := List.map_eq_cons_iff.1 hrest
  exact ⟨dimBefore, dimAfter, d, hdim, hb.symm, hn.symm, ha.symm⟩

/-- The counts of a split are well defined exactly if the count of the split dimension is large
enough. -/
theorem Splits.wellDefined_iff {before after : List ℤ} {n width : ℤ}
    (h : Splits elementSize maxObjectSize (space.dim.map Dim.size) before n after width)
    (hs : ∀ d ∈ space.dim, 0 < d.size) (he : 1 ≤ elementSize) (hm : 0 ≤ maxObjectSize)
    (hw : 1 ≤ width) (splitting : Option (ℕ × ℤ)) :
    WellDefined space elementSize maxObjectSize
        ⟨before ++ ceilCount n width :: after.map fun _ => 1, splitting, false⟩
      ↔ n ≤ ceilCount n width * maxObjectSize.tdiv (elementSize * after.prod) := by
  obtain ⟨dimBefore, dimAfter, d, hdim, rfl, rfl, rfl⟩ := h.exists_dims
  have hs' : ∀ e ∈ dimBefore ++ d :: dimAfter, 0 < e.size := hdim ▸ hs
  have hc := ceilCount_bounds hw (hs' d (by simp))
  have hcounts : dimBefore.map Dim.size ++ ceilCount d.size width ::
      (dimAfter.map Dim.size).map (fun _ => (1 : ℤ))
      = splitCounts dimBefore (ceilCount d.size width) dimAfter := by
    rw [List.map_map]
    rfl
  have hbounds := splitCounts_bounds hs' hc
  rw [← hdim] at hbounds
  have hlen : (splitCounts dimBefore (ceilCount d.size width) dimAfter).length = space.dims :=
    hbounds.length_eq.symm
  have hobj := objects_eq hlen (one_le_of_forall₂ hbounds)
  rw [← objects_le_iff he hs' hc hm, hcounts, ← hdim]
  constructor
  · rintro ⟨-, -, cubes, hok, -, hle⟩
    rwa [← Except.ok.inj (hobj.symm.trans hok)] at hle
  · exact fun hle => ⟨rfl, hbounds, _, hobj, balancedCubes_partitions hbounds, hle⟩

end Subdivision

end Stream

end Esdm
