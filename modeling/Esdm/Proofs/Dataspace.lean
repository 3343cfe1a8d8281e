import Mathlib.Data.Set.Function
import Esdm.Lib.Radix
import Esdm.Proofs.Split

/-!
# Where the elements of a part lie

A part of a dataspace that takes over the layout of the whole has the effective strides of the
whole, whether these are written down or follow from the sizes.  So an element of the part lies
where the whole has it, relative to the part's first element (`elementOffset_cut`).
-/

namespace Esdm

namespace Dataspace

variable {space source result : Dataspace}

theorem contiguousStride_congr : ∀ {dim dim' : List Dim}, dim.map Dim.size = dim'.map Dim.size →
    contiguousStride dim = contiguousStride dim'
  | [], [], _ => rfl
  | d :: dim, d' :: dim', h => by
    simp only [List.map_cons, List.cons.injEq] at h
    rw [contiguousStride_cons, contiguousStride_cons, h.2, contiguousStride_congr h.2]

/-- The size of the first dimension does not matter for the strides of C order. -/
theorem contiguousStride_congr_tail {dim dim' : List Dim} (hl : dim.length = dim'.length)
    (h : dim.tail.map Dim.size = dim'.tail.map Dim.size) :
    contiguousStride dim = contiguousStride dim' := by
  rcases dim with _ | ⟨d, dim⟩ <;> rcases dim' with _ | ⟨d', dim'⟩
  · rfl
  · simp at hl
  · simp at hl
  · rw [List.tail_cons, List.tail_cons] at h
    rw [contiguousStride_cons, contiguousStride_cons, h, contiguousStride_congr h]

/-- What `esdm_dataspace_copyDatalayout` gives a space: the effective strides of the source. -/
theorem copyDatalayout_eq_ok (h : space.copyDatalayout source = .ok result) :
    space.dims = source.dims ∧ result.type = space.type ∧ result.dim = space.dim
      ∧ result.getEffectiveStride = source.getEffectiveStride := by
  unfold copyDatalayout at h
  split_ifs at h with hd hs
  · obtain rfl := Except.ok.inj h
    refine ⟨hd, rfl, rfl, ?_⟩
    rw [getEffectiveStride, getEffectiveStride, hs.1]
    exact contiguousStride_congr_tail hd hs.2
  · obtain rfl := Except.ok.inj h
    exact ⟨hd, rfl, rfl, rfl⟩

theorem exists_copyDatalayout (h : space.dims = source.dims) :
    ∃ result, space.copyDatalayout source = .ok result := by
  unfold copyDatalayout
  rw [dif_pos h]
  split_ifs
  · exact ⟨_, rfl⟩
  · exact ⟨_, rfl⟩

theorem createFromHypercube_dims (cube : Hypercube) (type : ElemType) :
    (createFromHypercube cube type).dims = cube.length := List.length_map _

/-- From the first element of the whole to that of a part, and from there to any other one. -/
theorem linearIndex_add {dim : List Dim} {stride : List ℤ} {cube : Hypercube} {p : List ℤ}
    (hc : cube.length = dim.length) (hp : p.length = dim.length) :
    linearIndex dim stride (cube.map Range.start)
        + linearIndex (cube.map fun r => ⟨r.start, r.size⟩) stride p
          = linearIndex dim stride p := by
  induction dim generalizing stride cube p with
  | nil =>
    obtain rfl := List.length_eq_zero_iff.1 hc
    rfl
  | cons d dim ih =>
    rcases cube with _ | ⟨r, cube⟩
    · simp at hc
    rcases p with _ | ⟨x, p⟩
    · simp at hp
    rcases stride with _ | ⟨s, stride⟩
    · rfl
    have h := @ih stride cube p (by simpa using hc) (by simpa using hp)
    simp only [List.map_cons, linearIndex]
    rw [← h]
    ring

/-- A part that a hypercube cuts out of a space, with the layout of the space. -/
theorem elementIndex_cut {cube : Hypercube} {p : List ℤ}
    (h : (createFromHypercube cube space.type).copyDatalayout space = .ok result)
    (hp : p ∈ Hypercube.points cube) :
    space.elementIndex (cube.map Range.start) + result.elementIndex p = space.elementIndex p := by
  obtain ⟨hd, -, hdim, hstride⟩ := copyDatalayout_eq_ok h
  rw [createFromHypercube_dims] at hd
  unfold elementIndex
  rw [hdim, hstride]
  exact linearIndex_add hd ((Hypercube.length_of_mem_points hp).trans hd)

theorem elementOffset_cut_eq {cube : Hypercube} {p : List ℤ}
    (h : (createFromHypercube cube space.type).copyDatalayout space = .ok result)
    (hp : p ∈ Hypercube.points cube) :
    space.elementOffset (cube.map Range.start) + result.elementOffset p
      = space.elementOffset p := by
  unfold elementOffset
  rw [(copyDatalayout_eq_ok h).2.1, ← elementIndex_cut h hp, Int.add_mul]
  rfl

/-- An element of a part lies where the whole has it.  The part may have been cut out of the whole
at once, or out of a part of it. -/
theorem elementOffset_cut {cube : Hypercube} (hc : Hypercube.Within cube space.getExtends) :
    ∃ part, (createFromHypercube cube space.type).copyDatalayout space = .ok part
      ∧ (∀ p ∈ Hypercube.points cube, space.elementOffset (cube.map Range.start)
        + part.elementOffset p = space.elementOffset p)
      ∧ ∀ inner, Hypercube.Within inner cube → ∃ fragment fragment',
        (createFromHypercube inner space.type).copyDatalayout space = .ok fragment
          ∧ (createFromHypercube inner part.type).copyDatalayout part = .ok fragment'
          ∧ ∀ p ∈ Hypercube.points inner,
            space.elementOffset (inner.map Range.start) + fragment.elementOffset p
                = space.elementOffset p
              ∧ space.elementOffset (cube.map Range.start)
                + (part.elementOffset (inner.map Range.start) + fragment'.elementOffset p)
                = space.elementOffset p := by
  have hlen : cube.length = space.dims := hc.length_eq.trans (getExtends_length space)
  obtain ⟨part, hpart⟩ := @exists_copyDatalayout (createFromHypercube cube space.type) space
    ((createFromHypercube_dims ..).trans hlen)
  have hdims : part.dims = cube.length := by
    rw [dims, (copyDatalayout_eq_ok hpart).2.2.1]
    exact createFromHypercube_dims ..
  refine ⟨part, hpart, fun p hp => elementOffset_cut_eq hpart hp, fun inner hi => ?_⟩
  obtain ⟨fragment, hf⟩ := @exists_copyDatalayout (createFromHypercube inner space.type) space
    ((createFromHypercube_dims ..).trans (hi.length_eq.trans hlen))
  obtain ⟨fragment', hf'⟩ := @exists_copyDatalayout (createFromHypercube inner part.type) part
    ((createFromHypercube_dims ..).trans (hi.length_eq.trans hdims.symm))
  refine ⟨fragment, fragment', hf, hf', fun p hp => ⟨elementOffset_cut_eq hf hp, ?_⟩⟩
  rw [elementOffset_cut_eq hf' hp, elementOffset_cut_eq hpart (hi.points_subset hp)]

theorem elementOffset_cut_rectangle :
    let space : Dataspace := ⟨.basic .int32, [⟨2, 3⟩, ⟨-1, 5⟩], none, by simp⟩
    Hypercube.Within [⟨3, 5⟩, ⟨0, 2⟩] space.getExtends
      ∧ ∃ part, (createFromHypercube [⟨3, 5⟩, ⟨0, 2⟩] space.type).copyDatalayout space = .ok part
        ∧ part.stride = some [5, 1] ∧ space.elementOffset [3, 0] + part.elementOffset [4, 1]
          = space.elementOffset [4, 1] := by
  intro space
  have hw : Hypercube.Within [⟨3, 5⟩, ⟨0, 2⟩] space.getExtends :=
    .cons ⟨by decide, by decide⟩ (.cons ⟨by decide, by decide⟩ .nil)
  obtain ⟨part, hpart, hcut, -⟩ := elementOffset_cut hw
  refine ⟨hw, part, hpart, ?_, hcut [4, 1] (.cons ⟨by decide, by decide⟩
    (.cons ⟨by decide, by decide⟩ .nil))⟩
  rw [← Except.ok.inj hpart]
  rfl

/-- The coordinates of a point relative to the first one. -/
def relative (dim : List Dim) (c : List ℤ) : List ℤ := List.zipWith (fun d x => x - d.offset) dim c

theorem linearIndex_contiguous : ∀ (dim : List Dim) (c : List ℤ),
    linearIndex dim (contiguousStride dim) c = Radix.value (dim.map Dim.size) (relative dim c)
  | [], _ => rfl
  | _ :: _, [] => by rw [contiguousStride_cons]; rfl
  | d :: dim, x :: c => by
    rw [contiguousStride_cons, linearIndex, linearIndex_contiguous dim c]
    rfl

theorem digits_relative {dim : List Dim} {c : List ℤ}
    (h : c ∈ Hypercube.points (dim.map fun d => ⟨d.offset, d.offset + d.size⟩)) :
    Radix.Digits (relative dim c) (dim.map Dim.size) := by
  induction dim generalizing c with
  | nil => exact .nil
  | cons d dim ih =>
    obtain ⟨x, c, rfl, hx, hc⟩ := Hypercube.mem_points_cons_iff.1 h
    simp only [Range.Mem] at hx
    exact .cons ⟨Int.sub_nonneg.2 hx.1, Int.sub_left_lt_of_lt_add hx.2⟩ (ih hc)

theorem relative_inj : ∀ {dim : List Dim} {c c' : List ℤ}, c.length = dim.length →
    c'.length = dim.length → relative dim c = relative dim c' → c = c'
  | [], c, c', h, h', _ => by rw [List.length_eq_zero_iff.1 h, List.length_eq_zero_iff.1 h']
  | d :: dim, x :: c, x' :: c', h, h', heq => by
    simp only [relative, List.zipWith_cons_cons, List.cons.injEq] at heq
    rw [relative_inj (by simpa using h) (by simpa using h') heq.2, show x = x' by omega]

/-- Without strides, different points lie at different places. -/
theorem elementIndex_injOn (h : space.stride = none) :
    Set.InjOn space.elementIndex (Hypercube.points space.getExtends) := by
  intro c hc c' hc' heq
  have hlen : ∀ {p}, p ∈ Hypercube.points space.getExtends → p.length = space.dim.length :=
    fun hp => (Hypercube.length_of_mem_points hp).trans (getExtends_length space)
  rw [elementIndex, elementIndex, getEffectiveStride, h, Option.getD_none, linearIndex_contiguous,
    linearIndex_contiguous] at heq
  exact relative_inj (hlen hc) (hlen hc')
    (Radix.value_inj (digits_relative hc) (digits_relative hc') heq)

end Dataspace

end Esdm
