import Esdm.Proofs.Io
import Esdm.Proofs.Stream

/-!
# Write streams

The fragments of a stream follow each other in the order of its elements: the points of the region,
in C order, are those of the first fragment, then those of the second one, and so on
(`cOrder_objects`).  So a stream that fills one fragment after the other, chunk by chunk, puts each
element where the fragment that has its point expects it (`streamAll_places`).
-/

namespace Esdm

namespace Hypercube

/-- The points in C order. -/
def cOrder : Hypercube → List (List ℤ)
  | [] => [[]]
  | r :: c => (List.range r.size.toNat).flatMap fun i : ℕ => (cOrder c).map ((r.start + i) :: ·)

end Hypercube

namespace Stream

open Hypercube

section Order

variable {before after : List Dim} {d : Dim} {c : ℤ}

/-- The slices of a range, one after the other, are the range. -/
theorem range_eq_slices {n f : ℤ} (hn : 0 < n) (hf : 0 < f) : ∀ k : ℕ, k ≤ f.toNat →
    List.range ((k : ℤ) * n / f).toNat = (List.range k).flatMap fun i =>
      (List.range (slice n f i).size.toNat).map ((slice n f i).start.toNat + ·)
  | 0, _ => by simp
  | k + 1, hk => by
    have hle : (k : ℤ) * n / f ≤ ((k : ℤ) + 1) * n / f := Int.ediv_le_ediv hf (by linarith)
    have hnn : 0 ≤ (k : ℤ) * n / f := Int.ediv_nonneg (by positivity) hf.le
    have hsize : (slice n f k).size.toNat
        = (((k : ℤ) + 1) * n / f).toNat - ((k : ℤ) * n / f).toNat := by
      rw [slice_eq hn.le]
      unfold Range.size Range.isEmpty
      dsimp only
      split_ifs <;> omega
    have hstart : (slice n f k).start.toNat = ((k : ℤ) * n / f).toNat := by rw [slice_eq hn.le]
    rw [List.range_succ, List.flatMap_append, List.flatMap_singleton,
      ← range_eq_slices hn hf k (by omega), hsize, hstart, Nat.cast_succ, ← List.range_add]
    congr 1
    omega

theorem tuples_ones : ∀ after : List Dim,
    Odometer.tuples ((after.map fun _ => (1 : ℤ)).map Int.toNat) = [List.replicate after.length 0]
  | [] => rfl
  | _ :: after => by
    rw [List.map_cons, List.map_cons, Odometer.tuples, tuples_ones after]
    rfl

theorem balancedCube_uncut : ∀ after : List Dim,
    balancedCube after (after.map fun _ => 1) (List.replicate after.length 0)
      = after.map fun d => ⟨d.offset, d.offset + d.size⟩
  | [] => rfl
  | e :: after => by
    rw [List.map_cons, List.length_cons, List.replicate_succ, balancedCube,
      balancedCube_uncut after]
    simp

/-- The points of a region in C order are those of its objects, one object after the other. -/
theorem cOrder_objects (hs : ∀ e ∈ before ++ d :: after, 0 < e.size) (hc : 1 ≤ c) :
    cOrder ((before ++ d :: after).map fun e => ⟨e.offset, e.offset + e.size⟩)
      = ((Odometer.tuples ((splitCounts before c after).map Int.toNat)).map
        (balancedCube (before ++ d :: after) (splitCounts before c after))).flatMap cOrder := by
  have hrange : ∀ a n : ℤ, Range.size ⟨a, a + n⟩ = (⟨0, n⟩ : Range).size := fun a n => by
    have := range_shift_size a ⟨0, n⟩
    rwa [add_zero] at this
  unfold splitCounts
  induction before with
  | nil =>
    have hd := hs d (by simp)
    have hn : (⟨0, d.size⟩ : Range).size = d.size := by
      rw [Range.size_of_not_isEmpty (not_le.2 hd), sub_zero]
    have hsl := range_eq_slices hd (show 0 < c by omega) c.toNat le_rfl
    rw [Int.toNat_of_nonneg (by omega), Int.mul_ediv_cancel_left _ (by omega)] at hsl
    simp only [List.map_nil, List.nil_append, List.map_cons, Odometer.tuples, tuples_ones,
      List.map_flatMap, List.flatMap_assoc, List.map_nil, List.flatMap_cons, List.flatMap_nil,
      List.append_nil, balancedCube, balancedCube_uncut]
    rw [cOrder, hrange, hn, hsl, List.flatMap_assoc]
    refine List.flatMap_congr fun i hi => ?_
    rw [cOrder, List.flatMap_map]
    have := range_shift_size d.offset (slice d.size c i)
    rw [slice] at this
    rw [this]
    refine List.flatMap_congr fun j _ => ?_
    have hnn : 0 ≤ (slice d.size c i).start := by
      rw [slice_eq hd.le]
      exact Int.ediv_nonneg (by positivity) (by omega)
    rw [Nat.cast_add, Int.toNat_of_nonneg hnn, slice, add_assoc]
  | cons e before ih =>
    have he := hs e (by simp)
    have ih := ih fun e' he' => hs e' (List.mem_cons_of_mem _ he')
    have hn : (⟨0, e.size⟩ : Range).size = e.size := by
      rw [Range.size_of_not_isEmpty (not_le.2 he), sub_zero]
    rw [List.cons_append, List.map_cons, cOrder, hrange, hn, ih, List.map_cons, List.cons_append,
      List.map_cons, Odometer.tuples, List.map_flatMap, List.flatMap_assoc]
    refine List.flatMap_congr fun i hi => ?_
    rw [List.map_map, List.map_flatMap, List.flatMap_map, List.flatMap_map]
    refine List.flatMap_congr fun coords _ => ?_
    have hone := slice_self he i
    rw [slice] at hone
    obtain ⟨h1, h2⟩ := Range.mk.inj hone
    have hsize : Range.size ⟨e.offset + (i : ℤ), e.offset + ((i : ℤ) + 1)⟩ = 1 := by
      unfold Range.size Range.isEmpty
      simp
    rw [Function.comp_apply, balancedCube, cOrder, h1, h2, hsize]
    simp

end Order

section Places

theorem range_mul (m : ℕ) : ∀ n : ℕ,
    List.range (n * m) = (List.range n).flatMap fun i => (List.range m).map (i * m + ·)
  | 0 => by simp
  | n + 1 => by
    rw [Nat.succ_mul, List.range_add, range_mul m n, List.range_succ, List.flatMap_append,
      List.flatMap_singleton]

theorem size_nonneg (cube : Hypercube) : 0 ≤ Hypercube.size cube :=
  List.prod_nonneg fun n hn => by
    obtain ⟨r, -, rfl⟩ := List.mem_map.1 hn
    unfold Range.size Range.isEmpty
    split_ifs <;> omega

theorem mem_points_of_mem_cOrder : ∀ {cube : Hypercube} {p : List ℤ}, p ∈ cOrder cube →
    p ∈ Hypercube.points cube
  | [], p, h => by
    rw [cOrder, List.mem_singleton] at h
    rw [h]
    exact .nil
  | r :: cube, p, h => by
    rw [cOrder, List.mem_flatMap] at h
    obtain ⟨i, hi, h⟩ := h
    obtain ⟨q, hq, rfl⟩ := List.mem_map.1 h
    refine Hypercube.mem_points_cons.2 ⟨?_, mem_points_of_mem_cOrder hq⟩
    rw [List.mem_range] at hi
    unfold Range.size Range.isEmpty at hi
    unfold Range.Mem
    split_ifs at hi <;> omega

/-- The points in C order lie one behind the other. -/
theorem cOrder_map_elementIndex (type : ElemType) : ∀ cube : Hypercube,
    (cOrder cube).map (Dataspace.createFromHypercube cube type).elementIndex
      = (List.range (Hypercube.size cube).toNat).map Nat.cast
  | [] => rfl
  | r :: cube => by
    have ih := cOrder_map_elementIndex type cube
    have hsize : ((cube.map fun r => (⟨r.start, r.size⟩ : Dim)).map Dim.size).prod
        = Hypercube.size cube := by
      rw [List.map_map]
      rfl
    have hindex : ∀ (i : ℕ) (p : List ℤ),
        (Dataspace.createFromHypercube (r :: cube) type).elementIndex ((r.start + i) :: p)
          = ((i * (Hypercube.size cube).toNat : ℕ) : ℤ)
            + (Dataspace.createFromHypercube cube type).elementIndex p := by
      intro i p
      rw [Nat.cast_mul, Int.toNat_of_nonneg (size_nonneg cube), ← hsize, Dataspace.elementIndex,
        Dataspace.getEffectiveStride]
      simp only [Dataspace.createFromHypercube, Option.getD_none, List.map_cons,
        Dataspace.contiguousStride_cons, Dataspace.linearIndex, Dataspace.elementIndex,
        Dataspace.getEffectiveStride, add_sub_cancel_left]
    have hr : 0 ≤ r.size := by
      unfold Range.size Range.isEmpty
      split_ifs <;> omega
    rw [cOrder, size_cons, Int.toNat_mul hr (size_nonneg cube), range_mul, List.map_flatMap,
      List.map_flatMap]
    refine List.flatMap_congr fun i _ => ?_
    have hcomp :
      (Dataspace.createFromHypercube (r :: cube) type).elementIndex ∘ ((r.start + i) :: ·)
        = (((i * (Hypercube.size cube).toNat : ℕ) : ℤ) + ·)
          ∘ (Dataspace.createFromHypercube cube type).elementIndex := funext (hindex i)
    rw [List.map_map, hcomp, ← List.map_map, ih, List.map_map, List.map_map]
    refine List.map_congr_left fun j _ => ?_
    simp

/-- The byte positions of the elements of the given fragments, one fragment after the other. -/
def places (elementSize : ℤ) : ℕ → HypercubeSet → List (ℕ × ℤ)
  | _, [] => []
  | r, cube :: cubes =>
    (List.range (Hypercube.size cube).toNat).map (fun j : ℕ => (r, j * elementSize))
    ++ places elementSize (r + 1) cubes

/-- The byte positions that the elements of a stream are written to. -/
def written (elementSize : ℤ) (out : List (ℤ × Write)) : List (ℕ × ℤ) :=
  out.flatMap fun e => (List.range e.1.toNat).map fun j : ℕ =>
    (e.2.fragment, e.2.offset + j * elementSize)

end Places

section Run

variable {V : Type} {ds₀ ds : Dataset V} {w : Wstream} {cubes rest : HypercubeSet}
  {cube : Hypercube} {k next p : ℕ} {n : ℤ}

/-- The fragment that a stream creates for a cube. -/
def fragmentOf (w : Wstream) (cube : Hypercube) : Fragment V :=
  { Dataset.newFragment (.createFromHypercube cube w.dataspace.type) none with
    backend := some w.backend }

theorem createFull_bounds (h : ¬ Hypercube.isEmpty cube) (type : ElemType) :
    Dataspace.createFull (cube.map fun r => ⟨r.start, r.stop - r.start⟩) type
      = .createFromHypercube cube type := by
  have hdim : (cube.map fun r => (⟨r.start, r.stop - r.start⟩ : Dim))
      = cube.map fun r => ⟨r.start, r.size⟩ :=
    List.map_congr_left fun r hr => by rw [Range.size_of_not_isEmpty fun he => h ⟨r, hr, he⟩]
  unfold Dataspace.createFull Dataspace.createFromHypercube
  congr

theorem elementCount_createFromHypercube (cube : Hypercube) (type : ElemType) :
    (Dataspace.createFromHypercube cube type).elementCount = Hypercube.size cube := by
  simp only [Dataspace.elementCount, Dataspace.createFromHypercube, List.map_map]
  rfl

/-- What a stream needs of the dataset to create a fragment for the cube. -/
structure Creatable (ds : Dataset V) (type : ElemType) (cube : Hypercube) : Prop where
  nonempty : ¬ Hypercube.isEmpty cube
  absent : cube ∉ ds.shapes
  fits : Dataset.fragmentChecks ds.dataspace.dim (Dataspace.createFromHypercube cube type).dim
    = .ok ()

theorem createNewFragment_eq_ok (hc : Creatable ds w.dataspace.type cube)
    (hb : objectBounds w.dataspace w.cumulativeFragmentCounts (w.curFragment + 1) = .ok cube) :
    ∃ ds', createNewFragment ds w = .ok ({ w with
        curFragment := w.curFragment + 1
        fragCapacityRemaining := Hypercube.size cube * w.dataspace.type.sizeof
        chunkOffset := 0
        fragment := ds.fragments.length }, ds')
      ∧ ds'.fragments = ds.fragments ++ [fragmentOf w cube]
      ∧ ds'.table = ds.table ++ [(cube, ds.fragments.length)] ∧ ds'.dataspace = ds.dataspace := by
  have hext := Dataset.createFromHypercube_getExtends hc.nonempty w.dataspace.type
  have hcreate := Dataset.createFragment_of_notMem (hext.symm ▸ hc.absent) hc.fits none
  refine ⟨((ds.created (.createFromHypercube cube w.dataspace.type) none).setFragment
    ds.fragments.length (fragmentOf w cube)), ?_, ?_, ?_, rfl⟩
  · unfold createNewFragment
    simp only [hb, Outcome.ok_bind]
    rw [createFull_bounds hc.nonempty, hcreate]
    simp only [Outcome.ok_bind, eassert_of, Dataset.created_fragment, Outcome.pure_eq,
      Dataspace.totalBytes, elementCount_createFromHypercube]
    rfl
  · simp [Dataset.setFragment, Dataset.created, Dataset.addFragment, Dataset.updateActualSize]
  · simp only [Dataset.setFragment, Dataset.created, Dataset.addFragment, Dataset.updateActualSize]
    congr

/-- What a stream is to do: the fragments, and chunks that are not empty and not too large. -/
structure Plan (w : Wstream) (cubes : HypercubeSet) : Prop where
  bounds : ∀ (i : ℕ) (cube : Hypercube), cubes[i]? = some cube →
    objectBounds w.dataspace w.cumulativeFragmentCounts i = .ok cube
  count : w.cumulativeFragmentCounts.head? = some (cubes.length : ℤ)
  chunks : ∀ i : ℕ, ∃ chunk, objectBounds w.dataspace w.cumulativeChunkCounts i = .ok chunk
    ∧ 1 ≤ Hypercube.size chunk ∧ Hypercube.size chunk ≤ maxChunkSize w

/-- The stream when `p` elements of the fragment with index `k`, of the given size, have been
written, and the first fragment of the stream is number `base`. -/
def Wstream.at (w : Wstream) (base k next p : ℕ) (size : ℤ) : Wstream :=
  { w with
    fragCapacityRemaining := (size - p) * w.dataspace.type.sizeof
    curFragment := k
    nextChunk := next
    chunkOffset := p * w.dataspace.type.sizeof
    fragment := base + k }

theorem isFinished_at (hplan : Plan w cubes) (base : ℕ) {size : ℤ} :
    isFinished (w.at base k next p size) ↔ (p : ℤ) = size ∧ k + 1 = cubes.length := by
  have hE := w.dataspace.type.sizeof_pos
  unfold isFinished
  refine and_congr ?_ ?_
  · show (size - p) * w.dataspace.type.sizeof = 0 ↔ _
    rw [Int.mul_eq_zero, sub_eq_zero, or_iff_left hE.ne', eq_comm]
  · show some ((k : ℤ) + 1) = w.cumulativeFragmentCounts.head? ↔ _
    rw [hplan.count, Option.some.injEq]
    omega

theorem nextChunkSize_at (hplan : Plan w cubes) (base : ℕ) {size : ℤ} (hp : (p : ℤ) < size) :
    ∃ n, nextChunkSize (w.at base k next p size) = .ok n ∧ 1 ≤ n ∧ n ≤ maxChunkSize w
      ∧ n ≤ size - p := by
  have hE := w.dataspace.type.sizeof_pos
  obtain ⟨chunk, hchunk, hpos, hmax⟩ := hplan.chunks next
  have hopen : ¬ isFinished (w.at base k next p size) := by
    rw [isFinished_at hplan]
    omega
  have hbounds : objectBounds (w.at base k next p size).dataspace
      (w.at base k next p size).cumulativeChunkCounts (w.at base k next p size).nextChunk
        = .ok chunk := hchunk
  have hrem : (w.at base k next p size).fragCapacityRemaining.tdiv
      (w.at base k next p size).dataspace.type.sizeof = size - p :=
    Int.mul_tdiv_cancel _ hE.ne'
  unfold nextChunkSize
  rw [if_neg hopen, hbounds, Outcome.ok_bind, hrem]
  refine ⟨_, rfl, ?_⟩
  split_ifs <;> omega

/-- Where the stream stands: the fragments up to the current one have been created, and the current
one is full only if it is the last one. -/
structure Streaming (ds₀ : Dataset V) (w : Wstream) (cubes done : HypercubeSet) (cube : Hypercube)
    (rest : HypercubeSet) (p : ℕ) (ds : Dataset V) : Prop where
  cubes_eq : done ++ cube :: rest = cubes
  heap : ds.fragments = ds₀.fragments ++ (done ++ [cube]).map (fragmentOf w)
  table : ds.table = ds₀.table ++ (done ++ [cube]).zipIdx ds₀.fragments.length
  dataspace : ds.dataspace = ds₀.dataspace
  le : (p : ℤ) ≤ Hypercube.size cube
  lt : rest ≠ [] → (p : ℤ) < Hypercube.size cube

variable {done : HypercubeSet}

theorem Streaming.creatable {cube' : Hypercube}
    (h : Streaming ds₀ w cubes done cube (cube' :: rest) p ds) (hn : cubes.Nodup)
    (hc : Creatable ds₀ w.dataspace.type cube') : Creatable ds w.dataspace.type cube' := by
  refine ⟨hc.nonempty, ?_, h.dataspace ▸ hc.fits⟩
  have hnew : cube' ∉ done ++ [cube] := by
    rw [← h.cubes_eq, List.append_cons] at hn
    exact fun hm => (List.nodup_append.1 hn).2.2 _ hm _ (by simp) rfl
  have hshapes : ds.shapes = ds₀.shapes ++ (done ++ [cube]) := by
    rw [Dataset.shapes, h.table, List.map_append, List.zipIdx_map_fst]
    rfl
  rw [hshapes, List.mem_append, not_or]
  exact ⟨hc.absent, hnew⟩

theorem advance_at (w : Wstream) (base k next p : ℕ) {size : ℤ} (hn : 0 ≤ n) :
    { w.at base k next p size with
      chunkOffset := p * w.dataspace.type.sizeof + n * w.dataspace.type.sizeof
      nextChunk := (next : ℤ) + 1
      fragCapacityRemaining := (size - p) * w.dataspace.type.sizeof - n * w.dataspace.type.sizeof }
      = w.at base k (next + 1) (p + n.toNat) size := by
  unfold Wstream.at
  rw [Nat.cast_add, Int.toNat_of_nonneg hn, Nat.cast_succ, ← sub_mul, ← add_mul, sub_sub]

/-- A flush writes behind what has been written, and then sees whether it needs a new fragment. -/
theorem flush_at (hplan : Plan w cubes) {base : ℕ} {size : ℤ} (hp : (p : ℤ) < size)
    (hn : 0 ≤ n ∧ n ≤ size - p) :
    flush ds (w.at base k next p size) (n * w.dataspace.type.sizeof)
      = if (w.at base k (next + 1) (p + n.toNat) size).fragCapacityRemaining = 0
          ∧ ¬ isFinished (w.at base k (next + 1) (p + n.toNat) size) then do
          let (w', ds') ← createNewFragment ds (w.at base k (next + 1) (p + n.toNat) size)
          return (⟨base + k, p * w.dataspace.type.sizeof, n * w.dataspace.type.sizeof⟩, w', ds')
        else .ok (⟨base + k, p * w.dataspace.type.sizeof, n * w.dataspace.type.sizeof⟩,
          w.at base k (next + 1) (p + n.toNat) size, ds) := by
  have hE := w.dataspace.type.sizeof_pos
  have hopen : ¬ isFinished (w.at base k next p size) := by
    rw [isFinished_at hplan]
    omega
  have hcap : (w.at base k next p size).fragCapacityRemaining ≥ n * w.dataspace.type.sizeof :=
    Int.mul_le_mul_of_nonneg_right hn.2 hE.le
  rw [← advance_at w base k next p hn.1]
  unfold flush
  rw [eassert_of hopen, Outcome.ok_bind, eassert_of hcap, Outcome.ok_bind]
  rfl

theorem flush_at_inside (hplan : Plan w cubes) {base : ℕ} {size : ℤ} (hp : (p : ℤ) < size)
    (hn : 0 ≤ n ∧ n ≤ size - p) (hin : p + n < size ∨ k + 1 = cubes.length) :
    flush ds (w.at base k next p size) (n * w.dataspace.type.sizeof)
      = .ok (⟨base + k, p * w.dataspace.type.sizeof, n * w.dataspace.type.sizeof⟩,
        w.at base k (next + 1) (p + n.toNat) size, ds) := by
  have hE := w.dataspace.type.sizeof_pos
  rw [flush_at hplan hp hn, if_neg]
  rintro ⟨hrem, hopen⟩
  have hfull : size - (p + n.toNat : ℕ) = 0 := (Int.mul_eq_zero.1 hrem).resolve_right hE.ne'
  rw [isFinished_at hplan] at hopen
  omega

/-- With the last element of a fragment that is not the last one, the next one is created. -/
theorem flush_at_end (hplan : Plan w cubes) {cube' : Hypercube}
    (h : Streaming ds₀ w cubes done cube (cube' :: rest) p ds) (hn : cubes.Nodup)
    (hc : Creatable ds₀ w.dataspace.type cube') :
    ∃ ds', flush ds (w.at ds₀.fragments.length done.length next p (Hypercube.size cube))
        ((Hypercube.size cube - p) * w.dataspace.type.sizeof)
      = .ok (⟨ds₀.fragments.length + done.length, p * w.dataspace.type.sizeof,
          (Hypercube.size cube - p) * w.dataspace.type.sizeof⟩,
        w.at ds₀.fragments.length (done.length + 1) (next + 1) 0 (Hypercube.size cube'), ds')
      ∧ Streaming ds₀ w cubes (done ++ [cube]) cube' rest 0 ds' := by
  have hp := h.lt (by simp)
  have hfull : ((p + (Hypercube.size cube - p).toNat : ℕ) : ℤ) = Hypercube.size cube := by omega
  have hlen : done.length + 1 < cubes.length := by
    rw [← h.cubes_eq]
    simp
  rw [flush_at hplan hp ⟨by omega, le_rfl⟩, if_pos]
  swap
  · rw [isFinished_at hplan]
    refine ⟨?_, by omega⟩
    show (_ - ((p + (Hypercube.size cube - p).toNat : ℕ) : ℤ)) * _ = (0 : ℤ)
    rw [hfull, sub_self, zero_mul]
  have hget : cubes[done.length + 1]? = some cube' := by
    rw [← h.cubes_eq, List.append_cons, List.getElem?_append_right (by simp)]
    simp
  obtain ⟨ds', hds', hheap, htable, hspace⟩ := @createNewFragment_eq_ok V ds
    (w.at ds₀.fragments.length done.length (next + 1) (p + (Hypercube.size cube - p).toNat)
      (Hypercube.size cube)) cube' (h.creatable hn hc) (hplan.bounds _ _ hget)
  have hfl : ds.fragments.length = ds₀.fragments.length + (done.length + 1) := by
    rw [h.heap]
    simp
  refine ⟨ds', ?_, ?_⟩
  · rw [hds', Outcome.ok_bind]
    unfold Wstream.at
    simp only [Outcome.pure_eq, hfl, Nat.cast_zero, sub_zero, zero_mul, Nat.cast_succ]
  · have hpos := Hypercube.size_pos_of_nonempty hc.nonempty
    refine ⟨?_, ?_, ?_, hspace.trans h.dataspace, ?_, fun _ => ?_⟩
    · rw [← h.cubes_eq, ← List.append_cons]
    · rw [hheap, h.heap, List.append_assoc, @List.map_append _ _ _ (done ++ [cube])]
      rfl
    · rw [htable, h.table, List.append_assoc, @List.zipIdx_append _ (done ++ [cube]), hfl]
      simp
    · simpa using hpos.le
    · simpa using hpos

/-- What has happened when the stream has come to its end. -/
structure Ended (ds₀ : Dataset V) (w : Wstream) (cubes : HypercubeSet) (positions : List (ℕ × ℤ))
    (out : List (ℤ × Write)) (w' : Wstream) (ds' : Dataset V) : Prop where
  announced : ∀ e ∈ out, 1 ≤ e.1 ∧ e.1 ≤ maxChunkSize w
    ∧ e.2.bytes = e.1 * w.dataspace.type.sizeof
  written_eq : written w.dataspace.type.sizeof out = positions
  heap : ds'.fragments = ds₀.fragments ++ cubes.map (fragmentOf w)
  finished : nextChunkSize w' = .ok 0

/-- The positions from the given one of the current fragment on. -/
def placesFrom (elementSize : ℤ) (r p : ℕ) (cube : Hypercube) (rest : HypercubeSet) :
    List (ℕ × ℤ) :=
  ((List.range (Hypercube.size cube).toNat).drop p).map (fun j : ℕ => (r, j * elementSize))
    ++ places elementSize (r + 1) rest

/-- The number of elements still to come. -/
def remaining (p : ℕ) (cube : Hypercube) (rest : HypercubeSet) : ℕ :=
  (Hypercube.size cube - p).toNat + (rest.map fun c => (Hypercube.size c).toNat).sum

theorem placesFrom_add (elementSize : ℤ) (r : ℕ) {m : ℕ}
    (h : ((p + m : ℕ) : ℤ) ≤ Hypercube.size cube) :
    placesFrom elementSize r p cube rest
      = (List.range m).map (fun j : ℕ => (r, p * elementSize + j * elementSize))
        ++ placesFrom elementSize r (p + m) cube rest := by
  have hsplit : (List.range (Hypercube.size cube).toNat).drop p
      = (List.range m).map (p + ·) ++ (List.range (Hypercube.size cube).toNat).drop (p + m) := by
    obtain ⟨t, ht⟩ := Nat.exists_eq_add_of_le (show p + m ≤ (Hypercube.size cube).toNat by omega)
    rw [ht, List.range_add, List.range_add, List.append_assoc, List.drop_left' List.length_range,
      ← List.append_assoc, List.drop_left' (by simp)]
  rw [placesFrom, hsplit, List.map_append, List.append_assoc, List.map_map]
  congr 1
  refine List.map_congr_left fun j _ => ?_
  simp [add_mul]

theorem drop_of_full (h : (p : ℤ) = Hypercube.size cube) :
    (List.range (Hypercube.size cube).toNat).drop p = [] :=
  List.drop_eq_nil_of_le (by rw [List.length_range]; omega)

theorem placesFrom_full (elementSize : ℤ) (r : ℕ) {cube' : Hypercube}
    (h : (p : ℤ) = Hypercube.size cube) :
    placesFrom elementSize r p cube (cube' :: rest)
      = placesFrom elementSize (r + 1) 0 cube' rest := by
  rw [placesFrom, drop_of_full h, places, placesFrom, List.drop_zero]
  rfl

theorem Ended.cons {positions : List (ℕ × ℤ)} {out : List (ℤ × Write)} {w' : Wstream}
    {ds' : Dataset V} (h : Ended ds₀ w cubes positions out w' ds') {r : ℕ} {offset : ℤ}
    (hn : 1 ≤ n ∧ n ≤ maxChunkSize w) :
    Ended ds₀ w cubes
      ((List.range n.toNat).map (fun j : ℕ => (r, offset + j * w.dataspace.type.sizeof))
        ++ positions)
      ((n, ⟨r, offset, n * w.dataspace.type.sizeof⟩) :: out) w' ds' := by
  refine ⟨?_, ?_, h.heap, h.finished⟩
  · intro e he
    rcases List.mem_cons.1 he with rfl | he
    · exact ⟨hn.1, hn.2, rfl⟩
    · exact h.announced e he
  · rw [written, List.flatMap_cons, ← h.written_eq]
    rfl

theorem streamAll_cons {fuel : ℕ} {ds' ds'' : Dataset V} {w' w'' : Wstream} {write : Write}
    {out : List (ℤ × Write)} (hnext : nextChunkSize w = .ok n) (hn : n ≠ 0)
    (hflush : flush ds w (n * w.dataspace.type.sizeof) = .ok (write, w', ds'))
    (h : streamAll fuel ds' w' = .ok (out, w'', ds'')) :
    streamAll (fuel + 1) ds w = .ok ((n, write) :: out, w'', ds'') := by
  rw [streamAll, hnext, Outcome.ok_bind, if_neg hn, hflush, Outcome.ok_bind]
  simp only [h, Outcome.ok_bind]
  rfl

theorem streamAll_ends (hplan : Plan w cubes) (hn : cubes.Nodup)
    (hc : ∀ cube ∈ cubes, Creatable ds₀ w.dataspace.type cube) :
    ∀ {fuel : ℕ} {done : HypercubeSet} {cube : Hypercube} {rest : HypercubeSet} {next p : ℕ}
      {ds : Dataset V}, Streaming ds₀ w cubes done cube rest p ds → remaining p cube rest < fuel →
      ∃ out w' ds', streamAll fuel ds
          (w.at ds₀.fragments.length done.length next p (Hypercube.size cube)) = .ok (out, w', ds')
        ∧ Ended ds₀ w cubes (placesFrom w.dataspace.type.sizeof (ds₀.fragments.length + done.length)
          p cube rest) out w' ds' := by
  intro fuel
  induction fuel with
  | zero => exact fun _ h => absurd h (Nat.not_lt_zero _)
  | succ fuel ih =>
    intro done cube rest next p ds h hfuel
    rcases h.le.eq_or_lt with hp | hp
    · obtain rfl : rest = [] := by
        by_contra hne
        exact absurd hp (h.lt hne).ne
      have hfin :
        isFinished (w.at ds₀.fragments.length done.length next p (Hypercube.size cube)) := by
        rw [isFinished_at hplan, ← h.cubes_eq]
        exact ⟨hp, by simp⟩
      have hnext : nextChunkSize
          (w.at ds₀.fragments.length done.length next p (Hypercube.size cube)) = .ok 0 := by
        unfold nextChunkSize
        rw [if_pos hfin]
        rfl
      refine ⟨[], _, ds, ?_, by simp, ?_, ?_, hnext⟩
      · rw [streamAll, hnext, Outcome.ok_bind, if_pos rfl]
        rfl
      · rw [placesFrom, drop_of_full hp]
        rfl
      · rw [h.heap, h.cubes_eq]
    · obtain ⟨n, hnext, hn1, hmax, hle⟩ := @nextChunkSize_at w cubes done.length next p hplan
        ds₀.fragments.length (Hypercube.size cube) hp
      have hsum : ((p + n.toNat : ℕ) : ℤ) ≤ Hypercube.size cube := by omega
      rw [placesFrom_add _ _ hsum]
      by_cases hin : p + n < Hypercube.size cube ∨ rest = []
      · have hlast : p + n < Hypercube.size cube ∨ done.length + 1 = cubes.length := by
          refine hin.imp_right fun hr => ?_
          rw [← h.cubes_eq, hr]
          simp
        have h' : Streaming ds₀ w cubes done cube rest (p + n.toNat) ds :=
          ⟨h.cubes_eq, h.heap, h.table, h.dataspace, hsum, fun hr => by
            have := hin.resolve_right hr
            omega⟩
        obtain ⟨out, w', ds', hrun, hend⟩ := @ih done cube rest (next + 1) _ ds h' (by
          unfold remaining at hfuel ⊢
          omega)
        exact ⟨_, w', ds', streamAll_cons hnext (by omega)
          (flush_at_inside hplan hp ⟨by omega, hle⟩ hlast) hrun, hend.cons ⟨hn1, hmax⟩⟩
      · obtain ⟨hfull, hne⟩ := not_or.1 hin
        obtain ⟨cube', rest, rfl⟩ := List.exists_cons_of_ne_nil hne
        obtain rfl : n = Hypercube.size cube - p := by omega
        obtain ⟨ds', hflush, h'⟩ := flush_at_end hplan h hn (hc cube' (by
          rw [← h.cubes_eq]
          simp))
        obtain ⟨out, w', ds'', hrun, hend⟩ :=
          @ih (done ++ [cube]) cube' rest (next + 1) 0 ds' h' (by
          unfold remaining at hfuel ⊢
          rw [List.map_cons, List.sum_cons] at hfuel
          omega)
        rw [List.length_append, List.length_singleton] at hrun hend
        rw [placesFrom_full _ _ (by omega)]
        exact ⟨_, w', ds'', streamAll_cons hnext (by omega) hflush hrun, hend.cons ⟨hn1, hmax⟩⟩

/-- The byte of the place is where the point's element is stored. -/
def Holds (ds : Dataset V) (c : List ℤ) (place : ℕ × ℤ) : Prop :=
  ∃ f, ds.fragments[place.1]? = some f ∧ c ∈ Hypercube.points f.shape
    ∧ f.dataspace.elementOffset c = place.2

theorem places_hold : ∀ {cubes : HypercubeSet} {r : ℕ},
    (∀ (i : ℕ) (cube : Hypercube), cubes[i]? = some cube →
      ds.fragments[r + i]? = some (fragmentOf w cube)) →
    (∀ cube ∈ cubes, ¬ Hypercube.isEmpty cube) →
    List.Forall₂ (Holds ds) (cubes.flatMap cOrder) (places w.dataspace.type.sizeof r cubes)
  | [], _, _, _ => .nil
  | cube :: cubes, r, hget, hne => by
    have hcube := hne cube (by simp)
    rw [List.flatMap_cons, places]
    refine List.rel_append ?_ (places_hold (fun i c hc => ?_) fun c hc =>
      hne c (List.mem_cons_of_mem _ hc))
    · have hindex := cOrder_map_elementIndex w.dataspace.type cube
      rw [← List.forall₂_eq_eq_eq, List.forall₂_map_left_iff, List.forall₂_map_right_iff] at hindex
      rw [List.forall₂_map_right_iff]
      refine (List.forall₂_and_left _ _ |>.2
        ⟨fun c => mem_points_of_mem_cOrder, hindex⟩).imp fun c j hcj => ?_
      refine ⟨fragmentOf w cube, hget 0 cube rfl, ?_, ?_⟩
      · have hshape : (fragmentOf w cube : Fragment V).shape = cube :=
          Dataset.createFromHypercube_getExtends hcube _
        rw [hshape]
        exact hcj.1
      · show (Dataspace.createFromHypercube cube w.dataspace.type).elementIndex c * _ = _
        rw [hcj.2]
        rfl
    · rw [Nat.add_assoc, Nat.add_comm 1]
      exact hget (i + 1) c hc

theorem length_cOrder (cube : Hypercube) : (cOrder cube).length = (Hypercube.size cube).toNat := by
  have := congrArg List.length (cOrder_map_elementIndex (.basic .int8) cube)
  rwa [List.length_map, List.length_map, List.length_range] at this

theorem length_written {elementSize : ℤ} : ∀ {out : List (ℤ × Write)}, (∀ e ∈ out, 1 ≤ e.1) →
    ((written elementSize out).length : ℤ) = (out.map Prod.fst).sum
  | [], _ => rfl
  | e :: out, h => by
    have he := h e (by simp)
    have ih := @length_written elementSize out fun e' he' => h e' (List.mem_cons_of_mem _ he')
    rw [written] at ih ⊢
    rw [List.flatMap_cons, List.length_append, List.length_map, List.length_range, Nat.cast_add, ih,
      Int.toNat_of_nonneg (by omega), List.map_cons, List.sum_cons]

/-- What a whole stream leaves behind. -/
structure Streamed (ds : Dataset V) (space : Dataspace) (limit : ℤ) (out : List (ℤ × Write))
    (ds' : Dataset V) : Prop where
  announced : ∀ e ∈ out, 1 ≤ e.1 ∧ e.1 ≤ limit ∧ e.2.bytes = e.1 * space.type.sizeof
  total : (out.map Prod.fst).sum = space.elementCount
  created : ∃ fragments, ds'.fragments = ds.fragments ++ fragments
    ∧ HypercubeSet.Partitions (fragments.map Fragment.shape) space.getExtends
  places : List.Forall₂ (Holds ds') (cOrder space.getExtends) (written space.type.sizeof out)

theorem Ended.streamed {out : List (ℤ × Write)} {w' : Wstream}
    (h : Ended ds₀ w cubes (places w.dataspace.type.sizeof ds₀.fragments.length cubes) out w' ds)
    (hpart : cubes.Partitions w.dataspace.getExtends)
    (horder : cOrder w.dataspace.getExtends = cubes.flatMap cOrder)
    (hs : ∀ d ∈ w.dataspace.dim, 0 < d.size) :
    Streamed ds₀ w.dataspace (maxChunkSize w) out ds := by
  have hplaces : List.Forall₂ (Holds ds) (cOrder w.dataspace.getExtends)
      (written w.dataspace.type.sizeof out) := by
    rw [horder, h.written_eq]
    refine places_hold (fun i cube hi => ?_) hpart.nonempty
    rw [h.heap, List.getElem?_append_right (Nat.le_add_right _ _), Nat.add_sub_cancel_left,
      List.getElem?_map, hi]
    rfl
  have hshapes : (cubes.map (fragmentOf w : Hypercube → Fragment V)).map Fragment.shape
    = cubes := by
    rw [List.map_map]
    refine (List.map_congr_left fun cube hcube => ?_).trans (List.map_id cubes)
    exact Dataset.createFromHypercube_getExtends (hpart.nonempty cube hcube) _
  refine ⟨h.announced, ?_, ⟨_, h.heap, by rwa [hshapes]⟩, hplaces⟩
  rw [← length_written fun e he => (h.announced e he).1, ← hplaces.length_eq, length_cOrder,
    Int.toNat_of_nonneg (size_nonneg _), Dataspace.elementCount_eq_size hs]

/-- A stream starts with its first fragment. -/
theorem createNewFragment_first (hplan : Plan w (cube :: rest)) (hcur : w.curFragment = -1)
    (hnext : w.nextChunk = 0) (hc : Creatable ds₀ w.dataspace.type cube) :
    ∃ ds, createNewFragment ds₀ w
        = .ok (w.at ds₀.fragments.length 0 0 0 (Hypercube.size cube), ds)
      ∧ Streaming ds₀ w (cube :: rest) [] cube rest 0 ds := by
  have hpos := Hypercube.size_pos_of_nonempty hc.nonempty
  have hb := hplan.bounds 0 cube rfl
  obtain ⟨ds, hds, hheap, htable, hspace⟩ := createNewFragment_eq_ok hc (by rwa [hcur])
  refine ⟨ds, ?_, rfl, hheap, htable, hspace, by simpa using hpos.le, fun _ => by simpa using hpos⟩
  rw [hds, hcur]
  unfold Wstream.at
  simp [hnext]

end Run

section Open

variable {V : Type} {elementSize maxObjectSize : ℤ} {dim : List Dim} {r : InitCounts}

/-- The counts computed, with an object at least one slice wide. -/
structure Computes (elementSize maxObjectSize : ℤ) (dim : List Dim) (r : InitCounts) : Prop where
  ok : initCounts elementSize maxObjectSize (dim.map Dim.size) = .ok r
  wide : ∀ s ∈ r.splitting, 1 ≤ s.2

/-- What such counts are like: one dimension is split, if need be into a single part. -/
structure Counted (dim : List Dim) (r : InitCounts) (before : List Dim) (d : Dim)
    (after : List Dim) (c : ℤ) : Prop where
  dim_eq : dim = before ++ d :: after
  counts_eq : r.objectCounts = splitCounts before c after
  bounds : 1 ≤ c ∧ c ≤ d.size
  splitting : (r.splitting = none ∧ before = [])
    ∨ ∃ width, r.splitting = some (before.length, width) ∧ 1 ≤ width

theorem Computes.counted (h : Computes elementSize maxObjectSize dim r) (he : 0 < elementSize)
    (hne : dim ≠ []) (hs : ∀ d ∈ dim, 0 < d.size) :
    ∃ before d after c, Counted dim r before d after c := by
  have hsizes : ∀ n ∈ dim.map Dim.size, 0 < n := by simpa using hs
  obtain ⟨before, n, after, width, hsplit, hr⟩ | ⟨-, hr⟩ :=
    @initCounts_result elementSize maxObjectSize he _ hsizes (by simpa using hne)
  · have hw : width ≠ 0 := by
      rintro rfl
      rw [h.ok, if_pos rfl] at hr
      cases hr
    rw [h.ok, if_neg hw] at hr
    obtain rfl := Except.ok.inj hr
    have hw1 := h.wide _ rfl
    obtain ⟨dimBefore, dimAfter, d, hdim, rfl, rfl, rfl⟩ :=
      @Splits.exists_dims (.createFull dim (.basic .int8)) _ _ _ _ _ _ hsplit
    refine ⟨dimBefore, d, dimAfter, _, hdim, ?_, ceilCount_bounds hw1 (hs d ?_),
      .inr ⟨width, ?_, hw1⟩⟩
    · rw [splitCounts, List.map_map]
      rfl
    · have : dim = dimBefore ++ d :: dimAfter := hdim
      simp [this]
    · rw [List.length_map]
  · obtain rfl := Except.ok.inj (h.ok.symm.trans hr)
    obtain ⟨d, after, rfl⟩ := List.exists_cons_of_ne_nil hne
    have hd := hs d (by simp)
    refine ⟨[], d, after, 1, rfl, ?_, ⟨le_rfl, by omega⟩, .inl ⟨rfl, rfl⟩⟩
    rw [List.map_map]
    rfl

theorem Counted.forall₂ {before after : List Dim} {d : Dim} {c : ℤ}
    (h : Counted dim r before d after c) (hs : ∀ d ∈ dim, 0 < d.size) :
    List.Forall₂ (fun (d : Dim) (n : ℤ) => 1 ≤ n ∧ n ≤ d.size) dim r.objectCounts := by
  rw [h.counts_eq, h.dim_eq]
  exact splitCounts_bounds (h.dim_eq ▸ hs) h.bounds

/-- The objects partition the region, and follow each other in C order. -/
theorem Counted.exists_objects {before after : List Dim} {d : Dim} {c : ℤ}
    (h : Counted dim r before d after c) (hs : ∀ d ∈ dim, 0 < d.size) (type : ElemType) :
    ∃ cubes, objects (.createFull dim type) r.objectCounts = .ok cubes
      ∧ cubes.Partitions (Dataspace.createFull dim type).getExtends
      ∧ cOrder (Dataspace.createFull dim type).getExtends = cubes.flatMap cOrder
      ∧ ∀ cube ∈ cubes, Hypercube.Within cube (Dataspace.createFull dim type).getExtends := by
  have hbounds := h.forall₂ hs
  refine ⟨_, objects_eq hbounds.length_eq.symm (one_le_of_forall₂ hbounds),
    @balancedCubes_partitions (.createFull dim type) _ hbounds, ?_, ?_⟩
  · unfold Dataspace.getExtends Dataspace.createFull
    rw [h.counts_eq, h.dim_eq]
    exact cOrder_objects (h.dim_eq ▸ hs) h.bounds.1
  · intro cube hcube
    obtain ⟨coords, hcoords, rfl⟩ := List.mem_map.1 hcube
    exact (balancedCube_within hbounds (Odometer.mem_tuples.1 hcoords)).1

/-- No chunk is larger than the buffer that the caller is told to provide. -/
theorem Counted.chunk_size {before after : List Dim} {d : Dim} {c : ℤ}
    (h : Counted dim r before d after c) (hs : ∀ d ∈ dim, 0 < d.size) (type : ElemType) (k : ℕ) :
    ∃ chunk, objectBounds (.createFull dim type) (cumulativeCounts r.objectCounts) k = .ok chunk
      ∧ 1 ≤ Hypercube.size chunk
      ∧ Hypercube.size chunk ≤ (r.splitting.map Prod.snd).getD ((dim.map Dim.size).headD 1)
        * ((dim.drop ((r.splitting.map Prod.fst).getD 0)).map Dim.size).prod := by
  have hone := one_le_of_forall₂ (h.forall₂ hs)
  have hs' : ∀ e ∈ before ++ d :: after, 0 < e.size := h.dim_eq ▸ hs
  have hprod : 0 < (after.map Dim.size).prod := List.prod_pos fun n hn => by
    obtain ⟨e, he, rfl⟩ := List.mem_map.1 hn
    exact hs' e (by simp [he])
  refine ⟨_, objectBounds_eq (h.forall₂ hs).length_eq.symm hone k, ?_⟩
  have hmem := Odometer.digits_mem_tuples (map_toNat_pos hone) k
  rw [h.counts_eq] at hmem ⊢
  show 1 ≤ Hypercube.size (balancedCube dim _ _) ∧ Hypercube.size (balancedCube dim _ _) ≤ _
  obtain ⟨hlt, hsize⟩ := size_object hs' hmem
  rw [h.dim_eq, hsize]
  have hd := hs' d (by simp)
  have hslice := slice_not_isEmpty (show 0 < c by have := h.bounds; omega) h.bounds.2
    ((Odometer.digits ((splitCounts before c after).map Int.toNat) k).getD before.length 0)
  have hle := slice_size_le hd.le (show 0 < c by have := h.bounds; omega)
    (show d.size ≤ c * d.size by have := h.bounds; nlinarith)
    ((Odometer.digits ((splitCounts before c after).map Int.toNat) k).getD before.length 0)
  rw [← Range.size_of_not_isEmpty hslice] at hle
  have hge := Range.size_pos_iff.2 hslice
  refine ⟨by nlinarith, (Int.mul_le_mul_of_nonneg_right hle hprod.le).trans ?_⟩
  have hall : 0 < d.size * (after.map Dim.size).prod := mul_pos hd hprod
  rcases h.splitting with ⟨hnone, rfl⟩ | ⟨width, hsome, hw⟩
  · rw [hnone]
    show _ ≤ d.size * (d.size * (after.map Dim.size).prod)
    nlinarith
  · rw [hsome]
    show _ ≤ width * (((before ++ d :: after).drop before.length).map Dim.size).prod
    rw [List.drop_left, List.map_cons, List.prod_cons]
    nlinarith

/-- The stream that is opened, before its first fragment is created. -/
def opened (backend : Backend) (dim : List Dim) (type : ElemType) (chunks fragments : InitCounts) :
    Wstream where
  dataspace := .createFull dim type
  backend := backend
  chunkingDim := (chunks.splitting.map Prod.fst).getD 0
  maxChunkWidth := (chunks.splitting.map Prod.snd).getD ((dim.map Dim.size).headD 1)
  cumulativeFragmentCounts := cumulativeCounts fragments.objectCounts
  cumulativeChunkCounts := cumulativeCounts chunks.objectCounts
  fragCapacityRemaining := 0
  curFragment := -1
  nextChunk := 0
  chunkOffset := 0
  fragment := 0

theorem metadataCreate_eq {ds : Dataset V} {backend : Backend} {maxChunkSize : ℤ} {type : ElemType}
    {chunks fragments : InitCounts} (hd : ds.dims = dim.length)
    (hc : initCounts type.sizeof maxChunkSize (dim.map Dim.size) = .ok chunks)
    (hf : initCounts type.sizeof backend.maxFragmentSize (dim.map Dim.size) = .ok fragments) :
    metadataCreate ds backend maxChunkSize dim type
      = createNewFragment ds (opened backend dim type chunks fragments) := by
  unfold metadataCreate
  simp only [eassert_of hd, Outcome.ok_bind, hc, hf]
  rfl

theorem plan_opened {backend : Backend} {type : ElemType} {chunks fragments : InitCounts}
    {cubes : HypercubeSet} {before after : List Dim} {d : Dim} {c : ℤ}
    (hs : ∀ d ∈ dim, 0 < d.size) (hc : Counted dim chunks before d after c)
    (hf : List.Forall₂ (fun (d : Dim) (n : ℤ) => 1 ≤ n ∧ n ≤ d.size) dim fragments.objectCounts)
    (hcubes : objects (.createFull dim type) fragments.objectCounts = .ok cubes) :
    Plan (opened backend dim type chunks fragments) cubes := by
  have hone := one_le_of_forall₂ hf
  have hlen : fragments.objectCounts.length = (Dataspace.createFull dim type).dims :=
    hf.length_eq.symm
  obtain rfl := Except.ok.inj (hcubes.symm.trans (objects_eq hlen hone))
  refine ⟨?_, ?_, fun k => hc.chunk_size hs type k⟩
  · intro i cube hi
    rw [← Odometer.map_digits_range (map_toNat_pos hone), List.map_map, List.getElem?_map] at hi
    obtain ⟨k, hk, rfl⟩ := Option.map_eq_some_iff.1 hi
    obtain ⟨-, rfl⟩ := List.getElem?_eq_some_iff.1 hk
    rw [List.getElem_range]
    exact objectBounds_eq hlen hone i
  · rw [List.length_map, Odometer.length_tuples, prod_map_toNat hone, List.head?_eq_getElem?]
    exact cumulativeCounts_getElem? (Nat.zero_le _)

theorem creatable_of_within {ds : Dataset V} {type : ElemType} {cube : Hypercube}
    (hin : List.Forall₂ (fun d s : Dim => d.size = 0 ∨ s.size + s.offset ≤ d.size)
      ds.dataspace.dim dim)
    (hw : Hypercube.Within cube (Dataspace.createFull dim type).getExtends)
    (hne : ¬ Hypercube.isEmpty cube) (hnew : ds.lookupForShape cube = none) :
    Creatable ds type cube := by
  refine ⟨hne, Dataset.lookupForShape_eq_none.1 hnew, Dataset.fragmentChecks_of_fits ?_⟩
  unfold Dataspace.createFromHypercube
  unfold Hypercube.Within Dataspace.getExtends Dataspace.createFull at hw
  dsimp only at hw ⊢
  generalize ds.dataspace.dim = outer at hin ⊢
  clear hnew
  induction hin generalizing cube with
  | nil =>
    rw [List.forall₂_nil_right_iff.1 hw]
    exact .nil
  | @cons d s outer dim hds _ ih =>
    obtain ⟨r, cube, hr, hcube, rfl⟩ := List.forall₂_cons_right_iff.1 hw
    have hr0 : ¬ r.isEmpty := fun he => hne ⟨r, by simp, he⟩
    refine .cons ?_ (ih hcube fun ⟨q, hq, he⟩ => hne ⟨q, List.mem_cons_of_mem _ hq, he⟩)
    refine ⟨Range.size_pos_iff.2 hr0, hds.imp_right fun hle => ?_⟩
    have hsize := Range.size_of_not_isEmpty hr0
    have hstop := hr.2
    dsimp only at hstop ⊢
    omega

end Open

end Stream

end Esdm
