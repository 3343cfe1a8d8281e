import Mathlib.Algebra.Group.Prod
import Esdm.Lib.Strided
import Esdm.Proofs.Dataspace

/-!
# The strided copy

With one pointer into each buffer, the positions of a copy are pairs.  What the dimensions of the
overlap span is a box in ℤ × ℤ.  Fusing dimensions into a chunk keeps the box (`fuseDims_box`), and
so does the order of the loops; the relative strides lead the two pointers through it
(`advance_relativeStrides`).
-/

namespace Esdm

open Pointwise Strided

namespace CopyDim

/-- How the two pointers move along a dimension. -/
def step (d : CopyDim) : ℤ × (ℤ × ℤ) := (d.overlapSize, (d.sourceStride, d.destStride))

end CopyDim

section Fuse

variable {ds rest : List CopyDim} {d : CopyDim} {chunkSize offset : ℤ}

theorem findFused_eq_some (h : findFused chunkSize ds = some (d, rest)) :
    ds.Perm (d :: rest) ∧ d.sourceStride = d.destStride ∧ absInt64 d.sourceStride = chunkSize := by
  induction ds generalizing rest with
  | nil => cases h
  | cons e ds ih =>
    rw [findFused] at h
    split at h
    · rename_i f rest' hf
      simp only [Option.some.injEq, Prod.mk.injEq] at h
      obtain ⟨rfl, rfl⟩ := h
      obtain ⟨hp, hs⟩ := ih hf
      exact ⟨(hp.cons e).trans (.swap ..), hs⟩
    · split_ifs at h with hs
      simp only [Option.some.injEq, Prod.mk.injEq] at h
      obtain ⟨rfl, rfl⟩ := h
      exact ⟨.refl _, hs⟩

/-- A chunk, from its first element: both pointers move together. -/
def chunk (offset chunkSize : ℤ) : Set (ℤ × ℤ) :=
  {(-offset) • (1, 1)} + progression chunkSize (1, 1)

/-- A dimension that both pointers walk in steps of the chunk makes it longer. -/
theorem chunk_add_step (hc : 0 < chunkSize) (hs : d.sourceStride = d.destStride)
    (ha : absInt64 d.sourceStride = chunkSize) :
    chunk offset chunkSize + progression d.overlapSize (d.sourceStride, d.destStride)
      = chunk (if d.sourceStride < 0 then offset + chunkSize * (d.overlapSize - 1) else offset)
        (chunkSize * d.overlapSize) := by
  unfold absInt64 at ha
  unfold chunk
  rw [add_assoc]
  rcases lt_or_ge d.sourceStride 0 with hneg | hnn
  · rw [if_neg (by omega)] at ha
    have hv : (d.sourceStride, d.destStride) = -(chunkSize • ((1, 1) : ℤ × ℤ)) := by
      rw [← hs, ← ha]
      simp
    rw [if_pos hneg, hv, progression_add_neg hc, ← add_assoc, Set.singleton_add_singleton,
      ← add_smul]
    congr 3
    ring
  · have hv : (d.sourceStride, d.destStride) = chunkSize • ((1, 1) : ℤ × ℤ) := by
      rw [← hs, ← ha]
      split_ifs
      · simp
      · simp
        omega
    rw [if_neg (by omega), hv, progression_add hc]

/-- Fusing keeps what the chunk and the other dimensions span together. -/
theorem fuseDims_box {fuel : ℕ} {chunkSize' offset' : ℤ} (hc : 0 < chunkSize)
    (hpos : ∀ d ∈ ds, 0 < d.overlapSize)
    (h : fuseDims fuel chunkSize offset ds = (chunkSize', offset', rest)) :
    0 < chunkSize' ∧ (∀ d ∈ rest, 0 < d.overlapSize)
      ∧ chunk offset' chunkSize' + box (rest.map CopyDim.step)
        = chunk offset chunkSize + box (ds.map CopyDim.step) := by
  induction fuel generalizing chunkSize offset ds with
  | zero =>
    simp only [fuseDims, Prod.mk.injEq] at h
    obtain ⟨rfl, rfl, rfl⟩ := h
    exact ⟨hc, hpos, rfl⟩
  | succ fuel ih =>
    rw [fuseDims] at h
    split at h
    · simp only [Prod.mk.injEq] at h
      obtain ⟨rfl, rfl, rfl⟩ := h
      exact ⟨hc, hpos, rfl⟩
    · rename_i d rest' hf
      obtain ⟨hp, hs, ha⟩ := findFused_eq_some hf
      have hd := hpos d (hp.mem_iff.2 (by simp))
      have hpos' : ∀ e ∈ rest', 0 < e.overlapSize :=
        fun e he => hpos e (hp.mem_iff.2 (by simp [he]))
      have hbox :
        chunk (if d.sourceStride < 0 then offset + chunkSize * (d.overlapSize - 1) else offset)
          (chunkSize * d.overlapSize) + box (rest'.map CopyDim.step)
          = chunk offset chunkSize + box (ds.map CopyDim.step) := by
        rw [box_perm (hp.map _), List.map_cons, box_cons, ← add_assoc, ← chunk_add_step hc hs ha]
        rfl
      dsimp only at h
      by_cases hfull : d.overlapSize ≠ d.source.size ∨ d.overlapSize ≠ d.dest.size
      · rw [if_pos hfull] at h
        simp only [Prod.mk.injEq] at h
        obtain ⟨rfl, rfl, rfl⟩ := h
        exact ⟨mul_pos hc hd, hpos', hbox⟩
      · rw [if_neg hfull] at h
        obtain ⟨h1, h2, h3⟩ := ih (mul_pos hc hd) hpos' h
        exact ⟨h1, h2, h3.trans hbox⟩

end Fuse

section Order

variable {ds rest : List CopyDim} {d : CopyDim}

theorem takeBest_eq_none (h : takeBest ds = none) : ds = [] := by
  rcases ds with _ | ⟨d, ds⟩
  · rfl
  · rw [takeBest] at h
    split at h
    · cases h
    · split_ifs at h

theorem takeBest_eq_some (h : takeBest ds = some (d, rest)) : ds.Perm (d :: rest) := by
  induction ds generalizing rest with
  | nil => cases h
  | cons e ds ih =>
    rw [takeBest] at h
    split at h
    · simp only [Option.some.injEq, Prod.mk.injEq] at h
      obtain ⟨rfl, rfl⟩ := h
      exact .refl _
    · rename_i f rest' hf
      split_ifs at h
      all_goals
        simp only [Option.some.injEq, Prod.mk.injEq] at h
        obtain ⟨rfl, rfl⟩ := h
      · exact ((ih hf).cons e).trans (.swap ..)
      · exact .refl _

theorem orderDims_perm : ∀ {n : ℕ} {ds : List CopyDim}, n = ds.length → (orderDims n ds).Perm ds
  | 0, _, h => by rw [List.length_eq_zero_iff.1 h.symm]; exact .refl _
  | n + 1, ds, h => by
    rw [orderDims]
    split
    · rename_i hb
      rw [takeBest_eq_none hb]
    · rename_i d rest hb
      have hp := takeBest_eq_some hb
      have hl := hp.length_eq
      rw [List.length_cons] at hl
      exact ((orderDims_perm (by omega)).cons d).trans hp.symm

end Order

section Loops

/-- How far the outermost loop moves the pointers in all its rounds. -/
def carry : List CopyDim → ℤ × ℤ
  | [] => 0
  | d :: _ => d.overlapSize • (d.sourceStride, d.destStride)

theorem relativeStrides_cons (d : CopyDim) (ds : List CopyDim) :
    relativeStrides (d :: ds) = ⟨d.overlapSize, d.sourceStride - (carry ds).1,
      d.destStride - (carry ds).2⟩ :: relativeStrides ds := by
  rcases ds with _ | ⟨e, ds⟩
  · simp [relativeStrides, carry]
  · simp [relativeStrides, carry]

/-- The counters' ranges. -/
def loopSizes (ds : List CopyDim) : List ℕ := ds.map fun d => d.overlapSize.toNat

/-- The pointers with the given counters, relative to those with all counters zero. -/
def loopPointers (ds : List CopyDim) (counters : List ℕ) : ℤ × ℤ :=
  position (ds.map CopyDim.step) counters

theorem relativeStrides_loopSizes : ∀ ds : List CopyDim,
    (relativeStrides ds).map (fun l => l.size.toNat) = loopSizes ds
  | [] => rfl
  | d :: ds => by rw [relativeStrides_cons, List.map_cons, relativeStrides_loopSizes ds]; rfl

/-- The counters move as an odometer does and the pointers move with them.  When the outermost loop
is through, they are where its next round would be. -/
theorem advance_relativeStrides {ds : List CopyDim} {counters : List ℕ}
    (hc : counters ∈ Odometer.tuples (loopSizes ds)) (base : ℤ × ℤ) :
    (∀ counters', Odometer.next (loopSizes ds) counters = some counters' →
      advance (relativeStrides ds) counters (base + loopPointers ds counters)
        = (false, counters', base + loopPointers ds counters'))
    ∧ (Odometer.next (loopSizes ds) counters = none →
      advance (relativeStrides ds) counters (base + loopPointers ds counters)
        = (true, List.replicate ds.length 0, base + carry ds)) := by
  induction ds generalizing counters base with
  | nil =>
    obtain rfl : counters = [] := by simpa [loopSizes, Odometer.tuples] using hc
    exact ⟨fun _ h => (by cases h), fun _ => rfl⟩
  | cons d ds ih =>
    rw [Odometer.mem_tuples] at hc
    obtain ⟨c, cs, hlt, hcs, rfl⟩ := List.forall₂_cons_right_iff.1 hc
    have hlt : c < d.overlapSize.toNat := hlt
    obtain ⟨ihs, ihn⟩ := ih (Odometer.mem_tuples.2 hcs)
      (base + (c : ℤ) • (d.sourceStride, d.destStride))
    have hsplit : ∀ (k : ℕ) ks, base + loopPointers (d :: ds) (k :: ks)
        = base + (k : ℤ) • (d.sourceStride, d.destStride) + loopPointers ds ks := by
      intro k ks
      rw [add_assoc]
      rfl
    have hsizes : loopSizes (d :: ds) = d.overlapSize.toNat :: loopSizes ds := rfl
    rw [relativeStrides_cons, hsplit, hsizes]
    rcases hnext : Odometer.next (loopSizes ds) cs with _ | cs'
    · rw [Odometer.next_cons_none hnext, advance, ihn hnext]
      -- the loops inside are through, and the relative stride takes back what they have moved
      have hmove : ((base + (c : ℤ) • (d.sourceStride, d.destStride) + carry ds).1
            + (d.sourceStride - (carry ds).1),
          (base + (c : ℤ) • (d.sourceStride, d.destStride) + carry ds).2
            + (d.destStride - (carry ds).2))
          = base + ((c + 1 : ℕ) : ℤ) • (d.sourceStride, d.destStride) := by
        ext
        · simp
          ring
        · simp
          ring
      have hlen : (loopSizes ds).length = ds.length := List.length_map _
      dsimp only
      rw [hmove, hlen]
      by_cases hc1 : c + 1 < d.overlapSize.toNat
      · rw [if_pos hc1, if_pos (by omega)]
        refine ⟨fun counters' h => ?_, fun h => by cases h⟩
        obtain rfl := Option.some.inj h
        rw [hsplit, loopPointers, position_zero, add_zero]
      · rw [if_neg hc1, if_neg (by omega)]
        refine ⟨fun _ h => (by cases h), fun _ => ?_⟩
        rw [List.length_cons, List.replicate_succ, carry,
          show ((c + 1 : ℕ) : ℤ) = d.overlapSize by omega]
    · rw [Odometer.next_cons_some hnext, advance, ihs cs' hnext]
      refine ⟨fun counters' h => ?_, fun h => by cases h⟩
      obtain rfl := Option.some.inj h
      rw [hsplit]

variable {V : Type} {convert : V → V} {chunkSize : ℤ} {source dest : Mem V} {ds : List CopyDim}

/-- The chunks at all these pointers, one after the other. -/
def memcpyAll (convert : V → V) (chunkSize : ℤ) (source : Mem V) (l : List (ℤ × ℤ)) (dest : Mem V) :
    Mem V :=
  l.foldl (fun m p => memcpy convert m p.2 source p.1 chunkSize) dest

theorem copyChunks_of_chain {base : ℤ × ℤ} : ∀ {l : List (List ℕ)} {c : List ℕ} {dest : Mem V},
    Odometer.Chain (Odometer.next (loopSizes ds)) none (c :: l) →
    (∀ k ∈ c :: l, k ∈ Odometer.tuples (loopSizes ds)) →
    copyChunks convert (relativeStrides ds) chunkSize source (l.length + 1) c
      (base + loopPointers ds c)
        dest
      = .ok (memcpyAll convert chunkSize source
        ((c :: l).map fun k => base + loopPointers ds k) dest)
    ∧ chunkPointers (relativeStrides ds) (l.length + 1) c (base + loopPointers ds c)
      = (c :: l).map fun k => base + loopPointers ds k
  | [], c, dest, hch, hm => by
    have hadv := (advance_relativeStrides (hm c (by simp)) base).2 hch
    rw [List.length_nil, copyChunks, chunkPointers, hadv]
    exact ⟨rfl, rfl⟩
  | k :: l, c, dest, hch, hm => by
    have hadv := (advance_relativeStrides (hm c (by simp)) base).1 k hch.1
    have hm' : ∀ j ∈ k :: l, j ∈ Odometer.tuples (loopSizes ds) := fun j hj => hm j (by simp [hj])
    rw [List.length_cons, copyChunks, chunkPointers, hadv]
    obtain ⟨ih1, ih2⟩ := @copyChunks_of_chain base l k
      (memcpy convert dest (base + loopPointers ds c).2 source
        (base + loopPointers ds c).1 chunkSize)
      hch.2 hm'
    dsimp only
    rw [ih1, ih2]
    exact ⟨rfl, rfl⟩

/-- The loop passes all counters once, and ends. -/
theorem copyChunks_relativeStrides (hpos : ∀ d ∈ ds, 0 < d.overlapSize) (base : ℤ × ℤ) :
    let loops := relativeStrides ds
    let fuel := Odometer.count (loops.map fun l => l.size.toNat)
    copyChunks convert loops chunkSize source fuel (List.replicate loops.length 0) base dest
      = .ok (memcpyAll convert chunkSize source
        ((Odometer.tuples (loopSizes ds)).map fun k => base + loopPointers ds k) dest)
    ∧ chunkPointers loops fuel (List.replicate loops.length 0) base
      = (Odometer.tuples (loopSizes ds)).map fun k => base + loopPointers ds k := by
  intro loops fuel
  have hsz : ∀ n ∈ loopSizes ds, 0 < n := by
    intro n hn
    obtain ⟨d, hd, rfl⟩ := List.mem_map.1 hn
    have := hpos d hd
    omega
  have hloops : loops.length = (loopSizes ds).length := by
    rw [← relativeStrides_loopSizes ds, List.length_map]
  have hfuel : fuel = (Odometer.tuples (loopSizes ds)).length := by
    rw [← Odometer.count_of_pos hsz, ← relativeStrides_loopSizes ds]
  obtain ⟨l, hl⟩ := Odometer.tuples_head hsz
  have hch := Odometer.chain_tuples hsz
  have hm : ∀ k ∈ Odometer.tuples (loopSizes ds), k ∈ Odometer.tuples (loopSizes ds) := fun _ h => h
  have hzero : loopPointers ds (List.replicate (loopSizes ds).length 0) = 0 := position_zero ..
  rw [hl] at hch hfuel
  nth_rewrite 1 [hl] at hm
  rw [hloops, hfuel, hl]
  have := @copyChunks_of_chain V convert chunkSize source ds base l _ dest hch hm
  rwa [hzero, add_zero] at this

end Loops

section Moved

variable {V : Type} {convert : V → V} {n q : ℤ} {source : Mem V} {v : V}

/-- What the chunks leave at a position, if all of them that reach it bring the same value. -/
theorem memcpyAll_apply {l : List (ℤ × ℤ)} {dest : Mem V}
    (hv : ∀ p ∈ l, p.2 ≤ q → q < p.2 + n → source (p.1 + (q - p.2)) = v) :
    memcpyAll convert n source l dest q
      = if ∃ p ∈ l, p.2 ≤ q ∧ q < p.2 + n then convert v else dest q := by
  induction l generalizing dest with
  | nil => simp [memcpyAll]
  | cons p l ih =>
    have hcons : memcpyAll convert n source (p :: l) dest
        = memcpyAll convert n source l (memcpy convert dest p.2 source p.1 n) := rfl
    rw [hcons, ih fun r hr => hv r (List.mem_cons_of_mem _ hr), memcpy]
    simp only [List.mem_cons, exists_eq_or_imp]
    by_cases hl : ∃ r ∈ l, r.2 ≤ q ∧ q < r.2 + n
    · rw [if_pos hl, if_pos (.inr hl)]
    · rw [if_neg hl]
      by_cases hp : p.2 ≤ q ∧ q < p.2 + n
      · rw [if_pos hp, if_pos (.inl hp), hv p (by simp) hp.1 hp.2]
      · rw [if_neg hp, if_neg (not_or.2 ⟨hp, hl⟩)]

/-- The pairs of positions between which the chunks move data. -/
def moved (l : List (ℤ × ℤ)) (n : ℤ) : Set (ℤ × ℤ) :=
  {x | ∃ p ∈ l, ∃ j, 0 ≤ j ∧ j < n ∧ p + (j, j) = x}

theorem moved_eq (ds : List CopyDim) (base : ℤ × ℤ) :
    moved ((Odometer.tuples (loopSizes ds)).map fun k => base + loopPointers ds k) n
      = {base} + (progression n (1, 1) + box (ds.map CopyDim.step)) := by
  ext x
  rw [Set.singleton_add, Set.mem_image]
  have hsizes : (ds.map CopyDim.step).map (fun d => d.1.toNat) = loopSizes ds := by
    rw [List.map_map]
    rfl
  constructor
  · rintro ⟨_, hp, j, hj0, hj, rfl⟩
    obtain ⟨k, hk, rfl⟩ := List.mem_map.1 hp
    refine ⟨(j, j) + loopPointers ds k, Set.add_mem_add ⟨j, hj0, hj, by simp⟩ ?_, by abel⟩
    exact mem_box.2 ⟨k, hsizes ▸ hk, rfl⟩
  · rintro ⟨_, ⟨_, ⟨j, hj0, hj, rfl⟩, y, hy, rfl⟩, rfl⟩
    obtain ⟨k, hk, rfl⟩ := mem_box.1 hy
    refine ⟨_, List.mem_map_of_mem (hsizes ▸ hk), j, hj0, hj, ?_⟩
    have hj : (j, j) = j • ((1, 1) : ℤ × ℤ) := by simp
    rw [hj, add_assoc, add_comm (loopPointers ds k)]
    rfl

end Moved

section Plan

theorem Range.mem_of_lt_size {r : Range} {k : ℤ} (h0 : 0 ≤ k) (h : k < r.size) :
    Range.Mem (r.start + k) r := by
  unfold Range.size Range.isEmpty at h
  unfold Range.Mem
  split_ifs at h <;> omega

theorem Range.sub_lt_size {r : Range} {x : ℤ} (h : Range.Mem x r) : x - r.start < r.size := by
  unfold Range.Mem at h
  unfold Range.size Range.isEmpty
  split_ifs <;> omega

/-- From the first point of the overlap to any other one, in both spaces at once. -/
theorem copyDims_box : ∀ {overlap : Hypercube} {source dest : List Dim} {u v : List ℤ},
    source.length = overlap.length → dest.length = overlap.length → u.length = overlap.length →
    v.length = overlap.length →
    {(((copyDims overlap source u dest v).map fun d =>
        (d.overlap.start - d.source.offset) * d.sourceStride).sum,
      ((copyDims overlap source u dest v).map fun d =>
        (d.overlap.start - d.dest.offset) * d.destStride).sum)}
      + box ((copyDims overlap source u dest v).map CopyDim.step)
    = {x | ∃ c ∈ Hypercube.points overlap, (Dataspace.linearIndex source u c,
        Dataspace.linearIndex dest v c) = x}
  | [], [], [], [], [], _, _, _, _ => by
    ext x
    simp [copyDims, Dataspace.linearIndex, Hypercube.mem_points_nil, eq_comm]
  | r :: overlap, s :: source, d :: dest, a :: u, b :: v, h1, h2, h3, h4 => by
    have ih := @copyDims_box overlap source dest u v (by simpa using h1) (by simpa using h2)
      (by simpa using h3) (by simpa using h4)
    simp only [copyDims, List.map_cons, List.sum_cons, box_cons, CopyDim.step]
    rw [← Prod.mk_add_mk, ← Set.singleton_add_singleton, add_add_add_comm, ih]
    ext x
    constructor
    · rintro ⟨_, ⟨_, rfl, _, ⟨k, hk0, hk, rfl⟩, rfl⟩, _, ⟨c, hc, rfl⟩, rfl⟩
      refine ⟨(r.start + k) :: c, Hypercube.mem_points_cons.2 ⟨?_, hc⟩, ?_⟩
      · exact Range.mem_of_lt_size hk0 hk
      · simp only [Dataspace.linearIndex, Prod.smul_mk, Prod.mk_add_mk, smul_eq_mul, Prod.mk.injEq]
        exact ⟨by ring, by ring⟩
    · rintro ⟨p, hp, rfl⟩
      obtain ⟨y, c, rfl, hy, hc⟩ := Hypercube.mem_points_cons_iff.1 hp
      refine Set.mem_add.2 ⟨_, Set.add_mem_add rfl ⟨y - r.start, ?_, ?_, rfl⟩, _, ⟨c, hc, rfl⟩, ?_⟩
      · have := hy.1
        omega
      · exact Range.sub_lt_size hy
      · simp only [Dataspace.linearIndex, Prod.smul_mk, Prod.mk_add_mk, smul_eq_mul, Prod.mk.injEq]
        exact ⟨by ring, by ring⟩

variable {sourceSpace destSpace : Dataspace} {i : CopyInstructions} {overlap : Hypercube}

/-- The coordinates that both spaces have. -/
def commonPoints (sourceSpace destSpace : Dataspace) : Set (List ℤ) :=
  Hypercube.points sourceSpace.getExtends ∩ Hypercube.points destSpace.getExtends

theorem makeIntersection_points (hd : sourceSpace.dims = destSpace.dims)
    (h : Hypercube.makeIntersection sourceSpace.getExtends destSpace.getExtends = some overlap) :
    overlap.length = sourceSpace.dims ∧ ¬ Hypercube.isEmpty overlap
      ∧ Hypercube.points overlap = commonPoints sourceSpace destSpace := by
  have hl : sourceSpace.getExtends.length = destSpace.getExtends.length := by simpa using hd
  obtain ⟨hint, rfl⟩ := (Hypercube.makeIntersection_eq_some_iff hl).1 h
  have hpts : Hypercube.points (List.zipWith Range.intersection sourceSpace.getExtends
      destSpace.getExtends) = commonPoints sourceSpace destSpace :=
    Set.ext fun p => Hypercube.mem_points_zipWith_intersection hl
  refine ⟨by simp [hd], Hypercube.points_nonempty_iff.1 ?_, hpts⟩
  rw [hpts]
  exact (Hypercube.doesIntersect_iff hl).1 hint

theorem makeIntersection_of_nonempty (hd : sourceSpace.dims = destSpace.dims)
    (h : (commonPoints sourceSpace destSpace).Nonempty) :
    ∃ overlap, Hypercube.makeIntersection sourceSpace.getExtends destSpace.getExtends
      = some overlap := by
  have hl : sourceSpace.getExtends.length = destSpace.getExtends.length := by simpa using hd
  exact ⟨_, (Hypercube.makeIntersection_eq_some_iff hl).2
    ⟨(Hypercube.doesIntersect_iff hl).2 h, rfl⟩⟩

/-- The dimensions of the overlap. -/
def overlapDims (sourceSpace destSpace : Dataspace) (overlap : Hypercube) : List CopyDim :=
  copyDims overlap sourceSpace.dim sourceSpace.getEffectiveStride destSpace.dim
    destSpace.getEffectiveStride

theorem copyInstructions_of_some (hd : sourceSpace.dims = destSpace.dims)
    (h : Hypercube.makeIntersection sourceSpace.getExtends destSpace.getExtends = some overlap) :
    ∃ i offset rest, copyInstructions sourceSpace destSpace = .ok (some i)
      ∧ fuseDims (overlapDims sourceSpace destSpace overlap).length 1 0
        (overlapDims sourceSpace destSpace overlap) = (i.chunkSize, offset, rest)
      ∧ i.loops = relativeStrides (orderDims rest.length rest)
      ∧ i.sourceOffset = ((overlapDims sourceSpace destSpace overlap).map fun d =>
        (d.overlap.start - d.source.offset) * d.sourceStride).sum - offset
      ∧ i.destOffset = ((overlapDims sourceSpace destSpace overlap).map fun d =>
        (d.overlap.start - d.dest.offset) * d.destStride).sum - offset := by
  unfold copyInstructions
  rw [eassert_of hd, Outcome.ok_bind, h]
  exact ⟨_, _, _, rfl, rfl, rfl, rfl, rfl⟩

theorem copyDims_overlap {source dest : List Dim} {u v : List ℤ} {d : CopyDim}
    (h : d ∈ copyDims overlap source u dest v) : d.overlap ∈ overlap := by
  fun_induction copyDims overlap source u dest v with
  | case1 r overlap s source a u t dest b v ih =>
    rcases List.mem_cons.1 h with rfl | h
    · exact List.mem_cons_self ..
    · exact List.mem_cons_of_mem _ (ih h)
  | case2 => cases h

/-- What the plan moves: from each point of the overlap in the source to the same point in the
destination, and nothing else. -/
theorem copyInstructions_moved (hd : sourceSpace.dims = destSpace.dims)
    (hov : (commonPoints sourceSpace destSpace).Nonempty) :
    ∃ i ds, copyInstructions sourceSpace destSpace = .ok (some i) ∧ i.loops = relativeStrides ds
      ∧ (∀ d ∈ ds, 0 < d.overlapSize)
      ∧ moved ((Odometer.tuples (loopSizes ds)).map fun k => (i.sourceOffset, i.destOffset)
          + loopPointers ds k) i.chunkSize
        = {x | ∃ c ∈ commonPoints sourceSpace destSpace,
          (sourceSpace.elementIndex c, destSpace.elementIndex c) = x} := by
  obtain ⟨overlap, hint⟩ := makeIntersection_of_nonempty hd hov
  obtain ⟨hlen, hne, hpts⟩ := makeIntersection_points hd hint
  obtain ⟨i, offset, rest, hi, hfuse, hloops, hsrc, hdst⟩ := copyInstructions_of_some hd hint
  have hpos : ∀ d ∈ overlapDims sourceSpace destSpace overlap, 0 < d.overlapSize := fun d hm =>
    Range.size_pos_iff.2 fun he => hne ⟨_, copyDims_overlap hm, he⟩
  obtain ⟨hchunk, hrest, hbox⟩ := fuseDims_box one_pos hpos hfuse
  have hperm : (orderDims rest.length rest).Perm rest := orderDims_perm rfl
  refine ⟨i, _, hi, hloops, fun d hm => hrest d (hperm.mem_iff.1 hm), ?_⟩
  have hone : chunk 0 1 = 0 := by
    rw [chunk, progression_one, neg_zero, zero_smul, add_zero]
    rfl
  have hbase : ((i.sourceOffset, i.destOffset) : ℤ × ℤ)
      = (((overlapDims sourceSpace destSpace overlap).map fun d =>
          (d.overlap.start - d.source.offset) * d.sourceStride).sum,
        ((overlapDims sourceSpace destSpace overlap).map fun d =>
          (d.overlap.start - d.dest.offset) * d.destStride).sum) + (-offset) •
            ((1, 1) : ℤ × ℤ) := by
    rw [hsrc, hdst]
    simp [sub_eq_add_neg]
  rw [hone, zero_add] at hbox
  rw [moved_eq, box_perm (hperm.map _), hbase, ← Set.singleton_add_singleton, add_assoc,
    ← add_assoc {_ • _}]
  have hsets := @copyDims_box overlap sourceSpace.dim destSpace.dim sourceSpace.getEffectiveStride
    destSpace.getEffectiveStride hlen.symm (hd.symm.trans hlen.symm) (by simp [hlen])
      (by simp [hlen, hd])
  rw [hpts] at hsets
  exact (congrArg _ hbox).trans hsets

end Plan

section Copy

variable {V : Type} {cast : BasicType → BasicType → V → V} {convert : V → V}
  {sourceSpace destSpace : Dataspace} {source dest : Mem V}

/-- A chunk over a position of the destination comes from the same point of the source. -/
theorem exists_of_mem_chunk {l : List (ℤ × ℤ)} {n q : ℤ} {p : ℤ × ℤ}
    (h : moved l n = {x | ∃ c ∈ commonPoints sourceSpace destSpace,
      (sourceSpace.elementIndex c, destSpace.elementIndex c) = x})
    (hp : p ∈ l) (h1 : p.2 ≤ q) (h2 : q < p.2 + n) :
    ∃ c ∈ commonPoints sourceSpace destSpace, sourceSpace.elementIndex c = p.1 + (q - p.2)
      ∧ destSpace.elementIndex c = q := by
  have hmem : (p.1 + (q - p.2), q) ∈ moved l n :=
    ⟨p, hp, q - p.2, by omega, by omega, by ext <;> simp⟩
  rw [h] at hmem
  obtain ⟨c, hc, heq⟩ := hmem
  exact ⟨c, hc, congrArg Prod.fst heq, congrArg Prod.snd heq⟩

theorem exists_chunk {l : List (ℤ × ℤ)} {n : ℤ} {c : List ℤ}
    (h : moved l n = {x | ∃ c ∈ commonPoints sourceSpace destSpace,
      (sourceSpace.elementIndex c, destSpace.elementIndex c) = x})
    (hc : c ∈ commonPoints sourceSpace destSpace) :
    ∃ p ∈ l, ∃ j, 0 ≤ j ∧ j < n ∧ p.1 + j = sourceSpace.elementIndex c
      ∧ p.2 + j = destSpace.elementIndex c := by
  have hmem : (sourceSpace.elementIndex c, destSpace.elementIndex c) ∈ moved l n := by
    rw [h]
    exact ⟨c, hc, rfl⟩
  obtain ⟨p, hp, j, h0, hj, heq⟩ := hmem
  exact ⟨p, hp, j, h0, hj, congrArg Prod.fst heq, congrArg Prod.snd heq⟩

/-- The destination after a copy: the common points are converted, the rest is as before. -/
structure Copied (convert : V → V) (sourceSpace : Dataspace) (source : Mem V)
    (destSpace : Dataspace) (dest dest' : Mem V) : Prop where
  common : ∀ c ∈ commonPoints sourceSpace destSpace,
    dest' (destSpace.elementIndex c) = convert (source (sourceSpace.elementIndex c))
  frame : ∀ q, (∀ c ∈ commonPoints sourceSpace destSpace, destSpace.elementIndex c ≠ q) →
    dest' q = dest q

theorem copyData_copied (hd : sourceSpace.dims = destSpace.dims)
    (hconv : converterForTypes cast destSpace.type sourceSpace.type = some convert)
    (hov : (commonPoints sourceSpace destSpace).Nonempty)
    (hinj : Set.InjOn destSpace.elementIndex (commonPoints sourceSpace destSpace)) :
    ∃ dest', copyData cast sourceSpace source destSpace dest = .ok (.success, dest')
      ∧ Copied convert sourceSpace source destSpace dest dest' := by
  obtain ⟨i, ds, hi, hloops, hpos, hmoved⟩ := copyInstructions_moved hd hov
  obtain ⟨hrun, -⟩ := @copyChunks_relativeStrides V convert i.chunkSize source dest ds hpos
    (i.sourceOffset, i.destOffset)
  rw [← hloops] at hrun
  generalize (Odometer.tuples (loopSizes ds)).map (fun k => (i.sourceOffset, i.destOffset)
    + loopPointers ds k) = l at hmoved hrun
  refine ⟨memcpyAll convert i.chunkSize source l dest, ?_, ⟨fun c hc => ?_, fun q hq => ?_⟩⟩
  · unfold copyData
    rw [eassert_of hd, Outcome.ok_bind, hconv]
    simp only [hi, Outcome.ok_bind]
    rw [hrun]
    rfl
  · rw [memcpyAll_apply (v := source (sourceSpace.elementIndex c)), if_pos]
    · obtain ⟨p, hp, j, hj0, hj, -, heq⟩ := exists_chunk hmoved hc
      exact ⟨p, hp, by omega, by omega⟩
    · intro p hp h1 h2
      obtain ⟨c', hc', hsrc, hdst⟩ := exists_of_mem_chunk hmoved hp h1 h2
      obtain rfl := hinj hc' hc hdst
      rw [hsrc]
  · have hnone : ∀ p ∈ l, ¬ (p.2 ≤ q ∧ q < p.2 + i.chunkSize) := by
      rintro p hp ⟨h1, h2⟩
      obtain ⟨c, hc, -, hdst⟩ := exists_of_mem_chunk hmoved hp h1 h2
      exact hq c hc hdst
    rw [memcpyAll_apply (v := source 0) fun p hp h1 h2 => absurd ⟨h1, h2⟩ (hnone p hp), if_neg]
    rintro ⟨p, hp, h⟩
    exact hnone p hp h

/-- The source elements that the loop of `esdm_dataspace_copy_data` reads. -/
def copyReads (i : CopyInstructions) : Set ℤ :=
  {q | ∃ p ∈ chunkPointers i.loops (Odometer.count (i.loops.map fun l => l.size.toNat))
    (List.replicate i.loops.length 0) (i.sourceOffset, i.destOffset),
      p.1 ≤ q ∧ q < p.1 + i.chunkSize}

theorem copyInstructions_reads (hd : sourceSpace.dims = destSpace.dims)
    (hov : (commonPoints sourceSpace destSpace).Nonempty) :
    ∃ i, copyInstructions sourceSpace destSpace = .ok (some i)
      ∧ copyReads i = sourceSpace.elementIndex '' commonPoints sourceSpace destSpace := by
  obtain ⟨i, ds, hi, hloops, hpos, hmoved⟩ := copyInstructions_moved hd hov
  obtain ⟨-, hptr⟩ :=
    @copyChunks_relativeStrides ℤ id 0 id id ds hpos (i.sourceOffset, i.destOffset)
  rw [← hloops] at hptr
  refine ⟨i, hi, Set.ext fun q => ?_⟩
  rw [copyReads, hptr]
  constructor
  · rintro ⟨p, hp, h1, h2⟩
    obtain ⟨c, hc, hsrc, -⟩ := exists_of_mem_chunk hmoved hp (q := p.2 + (q - p.1)) (by omega)
      (by omega)
    exact ⟨c, hc, hsrc.trans (by omega)⟩
  · rintro ⟨c, hc, rfl⟩
    obtain ⟨p, hp, j, hj0, hj, heq, -⟩ := exists_chunk hmoved hc
    exact ⟨p, hp, by omega, by omega⟩

/-- The strided copy is exact: the points that both spaces have are converted and copied, and
nothing else is read or written. -/
theorem copyData_exact (hd : sourceSpace.dims = destSpace.dims)
    (hconv : converterForTypes cast destSpace.type sourceSpace.type = some convert)
    (hov : (commonPoints sourceSpace destSpace).Nonempty)
    (hinj : Set.InjOn destSpace.elementIndex (commonPoints sourceSpace destSpace)) :
    (∃ dest', copyData cast sourceSpace source destSpace dest = .ok (.success, dest')
      ∧ (∀ c ∈ commonPoints sourceSpace destSpace,
        dest' (destSpace.elementIndex c) = convert (source (sourceSpace.elementIndex c)))
      ∧ ∀ q, (∀ c ∈ commonPoints sourceSpace destSpace, destSpace.elementIndex c ≠ q) →
        dest' q = dest q)
      ∧ ∃ i, copyInstructions sourceSpace destSpace = .ok (some i)
        ∧ copyReads i = sourceSpace.elementIndex '' commonPoints sourceSpace destSpace := by
  obtain ⟨dest', hok, hcopied⟩ := @copyData_copied V cast convert sourceSpace destSpace source dest
    hd hconv hov hinj
  exact ⟨⟨dest', hok, hcopied.common, hcopied.frame⟩, copyInstructions_reads hd hov⟩

/-- Three columns that are stored backwards, two of which are copied into rows. -/
theorem copyData_exact_transposed :
    let columns : Dataspace := ⟨.basic .int8, [⟨0, 2⟩, ⟨0, 3⟩], some [-1, 2], by simp⟩
    let rows : Dataspace := ⟨.basic .int16, [⟨0, 2⟩, ⟨1, 4⟩], none, by simp⟩
    ∃ dest' : Mem ℤ, copyData (fun _ _ v => v) columns (fun q => 10 * q) rows (fun _ => 7)
        = .ok (.success, dest')
      ∧ dest' 0 = 20 ∧ dest' 5 = 30 ∧ dest' 2 = 7 := by
  intro columns rows
  have hcommon : ∀ {a b : ℤ}, 0 ≤ a ∧ a < 2 → 1 ≤ b ∧ b < 3 →
      [a, b] ∈ commonPoints columns rows := fun ha hb =>
    ⟨.cons ha (.cons ⟨zero_le_one.trans hb.1, hb.2⟩ .nil),
      .cons ha (.cons ⟨hb.1, hb.2.trans (by decide)⟩ .nil)⟩
  obtain ⟨⟨dest', hok, hcopy, hframe⟩, -⟩ := @copyData_exact ℤ (fun _ _ v => v) (fun v => v)
    columns rows (fun q => 10 * q) (fun _ => 7) rfl rfl
    ⟨[0, 1], hcommon ⟨by omega, by omega⟩ ⟨by omega, by omega⟩⟩
    ((Dataspace.elementIndex_injOn rfl).mono Set.inter_subset_right)
  refine ⟨dest', hok, hcopy [0, 1] (hcommon ⟨by omega, by omega⟩ ⟨by omega, by omega⟩),
    hcopy [1, 2] (hcommon ⟨by omega, by omega⟩ ⟨by omega, by omega⟩), hframe 2 ?_⟩
  rintro c ⟨hc, hc'⟩ heq
  obtain ⟨a, c, rfl, ha, hc⟩ := Hypercube.mem_points_cons_iff.1 hc
  obtain ⟨b, c, rfl, hb, hc⟩ := Hypercube.mem_points_cons_iff.1 hc
  have hb' := (Hypercube.mem_points_cons.1 (Hypercube.mem_points_cons.1 hc').2).1
  have hidx : rows.elementIndex (a :: b :: c) = (a - 0) * 4 + ((b - 1) * 1 + 0) := rfl
  simp only [Range.Mem] at ha hb hb'
  omega

end Copy

end Esdm
