import Esdm.Scheduler
import Esdm.Proofs.Copy
import Esdm.Proofs.Fragment

/-!
# Copies of nothing, and reads without a copy

Dataspaces without a common point leave the planner's output variables as they are, so what happens
then depends on what they held before (`copiesNothing_iff`).

A fragment that one `memcpy()` could move as a whole is read straight into the user's buffer.  If it
gets that far, the data ends up where the copy would have put it; the assertion that guards it fails
for a fragment that is stored backwards (`tryDirectIo_exact_iff`).
-/

namespace Esdm

open Pointwise Strided

namespace Dataset

section Nothing

variable {V : Type} {cast : BasicType → BasicType → V → V} {sourceSpace destSpace : Dataspace}
  {vars : CopyVariables} {f : Fragment V} {source dest : Mem V}

theorem copyInstructions_of_disjoint (hd : sourceSpace.dims = destSpace.dims)
    (hdis : commonPoints sourceSpace destSpace = ∅) :
    copyInstructions sourceSpace destSpace = .ok none := by
  rcases h : Hypercube.makeIntersection sourceSpace.getExtends destSpace.getExtends with _ | overlap
  · unfold copyInstructions
    rw [eassert_of hd, Outcome.ok_bind, h]
    rfl
  · obtain ⟨-, hne, hpts⟩ := makeIntersection_points hd h
    rw [hdis] at hpts
    exact absurd (Hypercube.points_nonempty_iff.2 hne) (by rw [hpts]; exact Set.not_nonempty_empty)

/-- With a common point the variables are all set, and the earlier contents do not matter. -/
theorem copyDataFrom_eq (hd : sourceSpace.dims = destSpace.dims)
    (hov : (commonPoints sourceSpace destSpace).Nonempty) :
    copyDataFrom vars cast sourceSpace source destSpace dest
      = copyData cast sourceSpace source destSpace dest := by
  obtain ⟨i, -, hi, -⟩ := copyInstructions_moved hd hov
  unfold copyDataFrom copyData copyInstructionsInto
  rw [eassert_of hd, Outcome.ok_bind, Outcome.ok_bind]
  rcases converterForTypes cast destSpace.type sourceSpace.type with _ | convert
  · rfl
  · have hact : (i.loops ++ vars.loops.drop i.loops.length).take (i.loops.length : ℤ).toNat
        = i.loops := by simp
    have hlen : ¬ ((i.loops ++ vars.loops.drop i.loops.length).length : ℤ) < i.loops.length := by
      rw [List.length_append]
      omega
    simp only [hi, Outcome.ok_bind, pure, Except.pure, CopyVariables.activeLoops, hact]
    rw [if_neg (by omega), if_neg hlen]

theorem tryDirectIoFrom_eq (hd : f.dataspace.dims = destSpace.dims)
    (hov : (commonPoints f.dataspace destSpace).Nonempty) :
    tryDirectIoFrom vars f destSpace = tryDirectIo f destSpace := by
  obtain ⟨i, -, hi, -⟩ := copyInstructions_moved hd hov
  unfold tryDirectIoFrom tryDirectIo copyInstructionsInto
  simp only [hi, Outcome.ok_bind, pure, Except.pure]
  rcases hl : i.loops with _ | ⟨l, ls⟩
  · simp
  · simp
    omega

/-- Nothing is copied: the planner says so, the copy succeeds without a call of the converter, and
the fragment's buffer stays what it is. -/
structure CopiesNothing (cast : BasicType → BasicType → V → V) (vars : CopyVariables)
    (f : Fragment V) (source : Mem V) (destSpace : Dataspace) (dest : Mem V) : Prop where
  planned : ∃ vars', copyInstructionsInto f.dataspace destSpace vars = .ok vars'
    ∧ vars'.instructionDims = -1 ∧ vars'.calls = []
  copied : copyDataFrom vars cast f.dataspace source destSpace dest = .ok (.success, dest)
  direct : ∃ direct f', tryDirectIoFrom vars f destSpace = .ok (direct, f') ∧ f'.buf = f.buf

/-- Without a common point nothing is copied exactly if the variable for the number of loops happens
to hold the value that says so, and the types can be converted. -/
theorem copiesNothing_iff (hd : f.dataspace.dims = destSpace.dims)
    (hdis : commonPoints f.dataspace destSpace = ∅) :
    CopiesNothing cast vars f source destSpace dest
      ↔ (converterForTypes cast destSpace.type f.dataspace.type).isSome
        ∧ vars.instructionDims = -1 := by
  have hplan : copyInstructionsInto f.dataspace destSpace vars = .ok vars := by
    unfold copyInstructionsInto
    rw [copyInstructions_of_disjoint hd hdis]
    rfl
  constructor
  · rintro ⟨⟨vars', hvars, hdims, -⟩, hcopy, -⟩
    obtain rfl := Except.ok.inj (hplan.symm.trans hvars)
    refine ⟨?_, hdims⟩
    unfold copyDataFrom at hcopy
    rw [eassert_of hd, Outcome.ok_bind] at hcopy
    rcases hc : converterForTypes cast destSpace.type f.dataspace.type with _ | convert
    · rw [hc] at hcopy
      cases hcopy
    · rfl
  · rintro ⟨hconv, hdims⟩
    obtain ⟨convert, hconv⟩ := Option.isSome_iff_exists.1 hconv
    refine ⟨⟨vars, hplan, hdims, ?_⟩, ?_, ?_⟩
    · rw [CopyVariables.calls, hdims]
      rfl
    · unfold copyDataFrom
      rw [eassert_of hd, Outcome.ok_bind, hconv]
      simp only [hplan, Outcome.ok_bind]
      rw [if_pos (by omega)]
      rfl
    · unfold tryDirectIoFrom
      by_cases ht : f.dataspace.type ≠ destSpace.type
      · rw [if_pos ht]
        exact ⟨false, f, rfl, rfl⟩
      · rw [if_neg ht, hplan, Outcome.ok_bind, if_pos (by omega)]
        exact ⟨true, f, rfl, rfl⟩

/-- A line of `n` elements of one byte. -/
def byteLine (offset n : ℤ) : Dataspace := ⟨.basic .int8, [⟨offset, n⟩], none, by simp⟩

theorem byteLine_disjoint : commonPoints (byteLine 0 1) (byteLine 5 1) = ∅ := by
  ext c
  refine ⟨fun ⟨hc, hc'⟩ => ?_, fun h => h.elim⟩
  obtain ⟨x, c, rfl, hx, -⟩ := Hypercube.mem_points_cons_iff.1 hc
  have hx' := (Hypercube.mem_points_cons.1 hc').1
  simp only [Range.Mem] at hx hx'
  omega

theorem copiesNothing_iff_lines :
    CopiesNothing (fun _ _ v => v) ⟨-1, 1, 0, 0, []⟩ (newFragment (byteLine 0 1) none)
      (fun _ => (1 : ℤ)) (byteLine 5 1) fun _ => 0 :=
  (@copiesNothing_iff ℤ _ (byteLine 5 1) _ (newFragment (byteLine 0 1) none) _ _ rfl
    byteLine_disjoint).2 ⟨rfl, rfl⟩

/-- A zero in the variable makes one chunk of whatever the other variables hold. -/
theorem copyDataFrom_zero :
    commonPoints (byteLine 0 1) (byteLine 5 1) = ∅
      ∧ (∃ dest' : Mem ℤ, copyDataFrom ⟨0, 1, 0, 0, []⟩ (fun _ _ v => v) (byteLine 0 1) (fun _ => 1)
          (byteLine 5 1) (fun _ => 0) = .ok (.success, dest') ∧ dest' 0 = 1)
      ∧ ∃ f' : Fragment ℤ, tryDirectIoFrom ⟨0, 1, 0, 0, []⟩ (newFragment (byteLine 0 1) none)
        (byteLine 5 1) = .ok (true, f') ∧ f'.buf.isSome :=
  ⟨byteLine_disjoint, ⟨_, rfl, rfl⟩, _, rfl, rfl⟩

end Nothing

section Direct

variable {ds rest : List CopyDim} {chunkSize offset chunkSize' offset' : ℤ} {fuel : ℕ}

/-- The chunk and the other dimensions together always have the overlap's elements. -/
theorem fuseDims_prod (h : fuseDims fuel chunkSize offset ds = (chunkSize', offset', rest)) :
    chunkSize' * (rest.map CopyDim.overlapSize).prod
      = chunkSize * (ds.map CopyDim.overlapSize).prod := by
  induction fuel generalizing chunkSize offset ds with
  | zero =>
    simp only [fuseDims, Prod.mk.injEq] at h
    obtain ⟨rfl, rfl, rfl⟩ := h
    rfl
  | succ fuel ih =>
    rw [fuseDims] at h
    split at h
    · simp only [Prod.mk.injEq] at h
      obtain ⟨rfl, rfl, rfl⟩ := h
      rfl
    · rename_i d rest' hf
      have hprod : (ds.map CopyDim.overlapSize).prod
          = d.overlapSize * (rest'.map CopyDim.overlapSize).prod := by
        rw [((findFused_eq_some hf).1.map _).prod_eq, List.map_cons, List.prod_cons]
      dsimp only at h
      rw [hprod, ← mul_assoc]
      by_cases hfull : d.overlapSize ≠ d.source.size ∨ d.overlapSize ≠ d.dest.size
      · rw [if_pos hfull] at h
        simp only [Prod.mk.injEq] at h
        obtain ⟨rfl, rfl, rfl⟩ := h
        rfl
      · rw [if_neg hfull] at h
        exact ih h

/-- The chunk starts before the first point of the overlap for every dimension that is stored
backwards. -/
theorem fuseDims_offset (hc : 0 < chunkSize) (hpos : ∀ d ∈ ds, 0 < d.overlapSize)
    (h : fuseDims fuel chunkSize offset ds = (chunkSize', offset', [])) :
    offset ≤ offset' ∧ (offset' = offset ↔ ∀ d ∈ ds, d.sourceStride < 0 → d.overlapSize = 1) := by
  induction fuel generalizing chunkSize offset ds with
  | zero =>
    simp only [fuseDims, Prod.mk.injEq] at h
    obtain ⟨rfl, rfl, rfl⟩ := h
    simp
  | succ fuel ih =>
    rw [fuseDims] at h
    split at h
    · simp only [Prod.mk.injEq] at h
      obtain ⟨rfl, rfl, rfl⟩ := h
      simp
    · rename_i d rest' hf
      have hp := (findFused_eq_some hf).1
      have hd := hpos d (hp.mem_iff.2 (by simp))
      have hpos' : ∀ e ∈ rest', 0 < e.overlapSize :=
        fun e he => hpos e (hp.mem_iff.2 (by simp [he]))
      have hall : (∀ e ∈ ds, e.sourceStride < 0 → e.overlapSize = 1)
          ↔ (d.sourceStride < 0 → d.overlapSize = 1)
            ∧ ∀ e ∈ rest', e.sourceStride < 0 → e.overlapSize = 1 := by
        simp only [hp.mem_iff, List.mem_cons, forall_eq_or_imp]
      obtain ⟨offset₁, hoffset₁⟩ : ∃ o, o = if d.sourceStride < 0
          then offset + chunkSize * (d.overlapSize - 1) else offset := ⟨_, rfl⟩
      have hstep :
        offset ≤ offset₁ ∧ (offset₁ = offset ↔ (d.sourceStride < 0 → d.overlapSize = 1)) := by
        have hnn : 0 ≤ chunkSize * (d.overlapSize - 1) := Int.mul_nonneg hc.le (by omega)
        have hzero : chunkSize * (d.overlapSize - 1) = 0 ↔ d.overlapSize = 1 := by
          rw [Int.mul_eq_zero]
          omega
        rw [hoffset₁]
        split_ifs with hneg
        · simp only [hneg, true_imp_iff, ← hzero]
          omega
        · simp [hneg]
      dsimp only at h
      rw [← hoffset₁] at h
      rw [hall]
      by_cases hfull : d.overlapSize ≠ d.source.size ∨ d.overlapSize ≠ d.dest.size
      · rw [if_pos hfull] at h
        simp only [Prod.mk.injEq] at h
        obtain ⟨-, rfl, rfl⟩ := h
        simpa using hstep
      · rw [if_neg hfull] at h
        obtain ⟨hle, hiff⟩ := ih (mul_pos hc hd) hpos' h
        refine ⟨hstep.1.trans hle, ?_⟩
        rw [← hiff, ← hstep.2]
        omega

theorem size_le_of_within {c e : Hypercube} (hw : Hypercube.Within c e)
    (hne : ¬ Hypercube.isEmpty c) : Hypercube.size c ≤ Hypercube.size e
      ∧ (Hypercube.size c = Hypercube.size e → c = e) := by
  induction hw with
  | nil => exact ⟨le_rfl, fun _ => rfl⟩
  | @cons r s c e hr _ ih =>
    have hne' : ¬ r.isEmpty ∧ ¬ Hypercube.isEmpty c := by simpa [Hypercube.isEmpty] using hne
    obtain ⟨ihle, iheq⟩ := ih hne'.2
    have hpos := Hypercube.size_pos_of_nonempty hne'.2
    have hlt : r.start < r.stop := not_le.1 hne'.1
    have hrs : r.size = r.stop - r.start := Range.size_of_not_isEmpty hne'.1
    have hss : s.size = s.stop - s.start := Range.size_of_not_isEmpty (not_le.2 (by omega))
    have hcons : ∀ (t : Range) (k : Hypercube),
      Hypercube.size (t :: k) = t.size * Hypercube.size k :=
      fun t k => by simp [Hypercube.size]
    rw [hcons, hcons]
    refine ⟨Int.mul_le_mul (by omega) ihle hpos.le (by omega), fun h => ?_⟩
    have h1 : r.size * Hypercube.size c ≤ r.size * Hypercube.size e :=
      Int.mul_le_mul_of_nonneg_left ihle (by omega)
    have hsize : r.size = s.size := by
      by_contra hne
      have : (r.size + 1) * Hypercube.size e ≤ s.size * Hypercube.size e :=
        Int.mul_le_mul_of_nonneg_right (by omega) (by omega)
      linarith
    rw [hsize] at h
    rw [iheq (Int.eq_of_mul_eq_mul_left (by omega) h)]
    obtain ⟨a, b⟩ := r
    obtain ⟨a', b'⟩ := s
    dsimp only at *
    rw [show a = a' by omega, show b = b' by omega]

theorem zipWith_intersection_within : ∀ {a b : Hypercube}, a.length = b.length →
    Hypercube.Within (List.zipWith Range.intersection a b) a
  | [], [], _ => .nil
  | r :: a, s :: b, h => by
    refine .cons ?_ (zipWith_intersection_within (by simpa using h))
    unfold Range.intersection
    dsimp only
    omega

variable {source dest : Dataspace} {overlap : Hypercube} {i : CopyInstructions}

/-- A plan of a single chunk with as many elements as the source moves all of the source. -/
theorem overlap_of_single (hd : source.dims = dest.dims)
    (hint : Hypercube.makeIntersection source.getExtends dest.getExtends = some overlap)
    (hs : ∀ d ∈ source.dim, 0 < d.size) (hsize : Hypercube.size overlap = source.elementCount) :
    overlap = source.getExtends := by
  have hl : source.getExtends.length = dest.getExtends.length := by simpa using hd
  obtain ⟨-, hne, -⟩ := makeIntersection_points hd hint
  obtain ⟨-, rfl⟩ := (Hypercube.makeIntersection_eq_some_iff hl).1 hint
  exact (size_le_of_within (zipWith_intersection_within hl) hne).2
    (hsize.trans (Dataspace.elementCount_eq_size hs))

theorem copyDims_map_overlap : ∀ {overlap : Hypercube} {source dest : List Dim} {u v : List ℤ},
    source.length = overlap.length → dest.length = overlap.length → u.length = overlap.length →
    v.length = overlap.length → (copyDims overlap source u dest v).map CopyDim.overlap = overlap
  | [], [], [], [], [], _, _, _, _ => rfl
  | r :: overlap, s :: source, d :: dest, a :: u, b :: v, h1, h2, h3, h4 => by
    rw [copyDims, List.map_cons, copyDims_map_overlap (by simpa using h1) (by simpa using h2)
      (by simpa using h3) (by simpa using h4)]

theorem copyDims_map_source : ∀ {overlap : Hypercube} {source dest : List Dim} {u v : List ℤ},
    source.length = overlap.length → dest.length = overlap.length → u.length = overlap.length →
    v.length = overlap.length →
    (copyDims overlap source u dest v).map (fun d => (d.source, d.sourceStride)) = source.zip u
  | [], [], [], [], [], _, _, _, _ => rfl
  | r :: overlap, s :: source, d :: dest, a :: u, b :: v, h1, h2, h3, h4 => by
    rw [copyDims, List.map_cons, copyDims_map_source (by simpa using h1) (by simpa using h2)
      (by simpa using h3) (by simpa using h4), List.zip_cons_cons]

theorem overlap_of_mem_copyDims {source : List Dim} {dest : List Dim} {u v : List ℤ} {d : CopyDim}
    (h : d ∈ copyDims (source.map fun d => ⟨d.offset, d.offset + d.size⟩) source u dest v) :
    d.overlap = ⟨d.source.offset, d.source.offset + d.source.size⟩ := by
  induction source generalizing dest u v with
  | nil => simp [copyDims] at h
  | cons s source ih =>
    rcases dest with _ | ⟨t, dest⟩
    · simp [copyDims] at h
    rcases u with _ | ⟨a, u⟩
    · simp [copyDims] at h
    rcases v with _ | ⟨b, v⟩
    · simp [copyDims] at h
    rw [List.map_cons, copyDims] at h
    rcases List.mem_cons.1 h with rfl | h
    · rfl
    · exact ih h

/-- A dimension of more than one element is stored backwards. -/
def Backwards (space : Dataspace) : Prop :=
  ∃ q ∈ space.dim.zip space.getEffectiveStride, 1 < q.1.size ∧ q.2 < 0

/-- One `memcpy()` moves all of the source. -/
def SingleChunk (source dest : Dataspace) (i : CopyInstructions) : Prop :=
  copyInstructions source dest = .ok (some i) ∧ i.loops = [] ∧ source.elementCount = i.chunkSize

theorem relativeStrides_eq_nil {ds : List CopyDim} (h : relativeStrides ds = []) : ds = [] := by
  rcases ds with _ | ⟨d, ds⟩
  · rfl
  · rw [relativeStrides_cons] at h
    cases h

/-- A single chunk has all points of the source, at the same distances on both sides.  It starts at
the source's first point unless the source is stored backwards. -/
theorem SingleChunk.spec (h : SingleChunk source dest i) (hd : source.dims = dest.dims)
    (hov : (commonPoints source dest).Nonempty) :
    (i.sourceOffset = 0 ↔ ¬ Backwards source)
      ∧ ∀ c ∈ Hypercube.points source.getExtends, c ∈ Hypercube.points dest.getExtends
        ∧ dest.elementIndex c - i.destOffset = source.elementIndex c - i.sourceOffset := by
  obtain ⟨hi, hloops, hcount⟩ := h
  obtain ⟨p, hp⟩ := id hov
  have hs := Dataspace.size_pos_of_mem_points hp.1
  obtain ⟨overlap, hint⟩ := makeIntersection_of_nonempty hd hov
  obtain ⟨hlen, hne, hpts⟩ := makeIntersection_points hd hint
  obtain ⟨i', offset, rest, hi', hfuse, hloops', hsrc, -⟩ := copyInstructions_of_some hd hint
  obtain rfl := Option.some.inj (Except.ok.inj (hi.symm.trans hi'))
  have hrest : rest = [] := by
    rw [hloops] at hloops'
    have hnil := relativeStrides_eq_nil hloops'.symm
    have hperm : (orderDims rest.length rest).Perm rest := orderDims_perm rfl
    rw [hnil] at hperm
    exact hperm.symm.eq_nil
  subst hrest
  have hl : source.dim.length = overlap.length ∧ dest.dim.length = overlap.length
      ∧ source.getEffectiveStride.length = overlap.length
      ∧ dest.getEffectiveStride.length = overlap.length :=
    ⟨hlen.symm, hd.symm.trans hlen.symm, by simp [hlen], by simp [hlen, hd]⟩
  have hsize : Hypercube.size overlap = source.elementCount := by
    have hprod := fuseDims_prod hfuse
    rw [List.map_nil, List.prod_nil, mul_one, one_mul] at hprod
    rw [hcount, hprod, Hypercube.size]
    nth_rewrite 1 [← copyDims_map_overlap hl.1 hl.2.1 hl.2.2.1 hl.2.2.2, List.map_map]
    rfl
  obtain rfl := overlap_of_single hd hint hs hsize
  have hall : Hypercube.points source.getExtends = commonPoints source dest := hpts
  constructor
  · have hzero : ((overlapDims source dest source.getExtends).map fun d =>
        (d.overlap.start - d.source.offset) * d.sourceStride).sum = 0 := by
      refine List.sum_eq_zero fun x hx => ?_
      obtain ⟨d, hm, rfl⟩ := List.mem_map.1 hx
      rw [overlap_of_mem_copyDims hm, sub_self, zero_mul]
    have hpos : ∀ d ∈ overlapDims source dest source.getExtends, 0 < d.overlapSize := fun d hm =>
      Range.size_pos_iff.2 fun he => hne ⟨_, copyDims_overlap hm, he⟩
    have hoff := (fuseDims_offset one_pos hpos hfuse).2
    rw [hsrc, hzero, zero_sub, neg_eq_zero, hoff, Backwards,
      ← copyDims_map_source hl.1 hl.2.1 hl.2.2.1 hl.2.2.2]
    simp only [List.mem_map, exists_exists_and_eq_and, not_exists, not_and, not_lt]
    refine forall₂_congr fun d hm => ?_
    have hd := hpos d hm
    have hrange : d.overlapSize = d.source.size := by
      have ho := overlap_of_mem_copyDims hm
      have hlt : d.overlap.start < d.overlap.stop := not_le.1 (Range.size_pos_iff.1 hd)
      rw [CopyDim.overlapSize, Range.size_of_not_isEmpty (not_le.2 hlt), ho, add_sub_cancel_left]
    rw [← hrange]
    omega
  · intro c hc
    rw [hall] at hc
    obtain ⟨i', ds, hi', hloops', -, hmoved⟩ := copyInstructions_moved hd hov
    obtain rfl := Option.some.inj (Except.ok.inj (hi.symm.trans hi'))
    rw [hloops] at hloops'
    obtain rfl := relativeStrides_eq_nil hloops'.symm
    obtain ⟨p, hp, j, -, -, h1, h2⟩ := exists_chunk hmoved hc
    obtain rfl : p = (i.sourceOffset, i.destOffset) := by
      simpa [loopSizes, Odometer.tuples, loopPointers, position] using hp
    refine ⟨hc.2, ?_⟩
    dsimp only at h1 h2
    omega

variable {V : Type} {env : Env V} {f f' : Fragment V} {space : Dataspace}

/-- A fragment's data is put at a position of a buffer, laid out as the fragment's dataspace says.
-/
structure Placed (space : Dataspace) (position : ℤ) (data : List ℤ → V) (user user' : Mem V) :
    Prop where
  points : ∀ c ∈ Hypercube.points space.getExtends,
    user' (position + space.elementIndex c) = data c
  frame : ∀ q, (∀ c ∈ Hypercube.points space.getExtends, position + space.elementIndex c ≠ q) →
    user' q = user q

/-- Placing a fragment's data in the user's buffer has the same result as a load into a buffer of
the fragment's own and a copy from there, and changes nothing outside of the memspace. -/
def DirectAgrees (env : Env V) (f : Fragment V) (space : Dataspace) (position : ℤ) : Prop :=
  ∀ (data : List ℤ → V) (user own : Mem V) (g : Fragment V), f.allocate env = .ok g →
    (∀ c ∈ Hypercube.points f.shape, own (g.dataspace.elementIndex c) = data c) →
    ∃ user', copyData env.cast g.dataspace own space user = .ok (.success, user')
      ∧ (∀ placed, Placed f.dataspace position data user placed ↔ placed = user')
      ∧ ∀ q, (∀ c ∈ Hypercube.points space.getExtends, space.elementIndex c ≠ q) →
        user' q = user q

theorem allocate_dataspace {g : Fragment V} (hbuf : f.buf = none) (h : f.allocate env = .ok g) :
    g.dataspace.type = f.dataspace.type ∧ g.dataspace.dim = f.dataspace.dim := by
  unfold Fragment.allocate at h
  rw [hbuf] at h
  dsimp only at h
  split at h
  · cases h
  · rename_i contiguous hc
    obtain rfl := Except.ok.inj h
    split_ifs at hc
    · obtain rfl := Except.ok.inj hc
      exact ⟨rfl, rfl⟩
    · unfold Dataspace.makeContiguous Dataspace.subspace at hc
      split_ifs at hc
      obtain rfl := Except.ok.inj hc
      exact ⟨rfl, rfl⟩

theorem directAgrees_of_eq {position : ℤ} (hbuf : f.buf = none)
    (ht : f.dataspace.type = space.type) (hd : f.dataspace.dims = space.dims)
    (hov : (commonPoints f.dataspace space).Nonempty)
    (hinj : Set.InjOn space.elementIndex (Hypercube.points space.getExtends))
    (h : ∀ c ∈ Hypercube.points f.shape, c ∈ Hypercube.points space.getExtends
      ∧ position + f.dataspace.elementIndex c = space.elementIndex c) :
    DirectAgrees env f space position := by
  intro data user own g hg hown
  obtain ⟨hgt, hgd⟩ := allocate_dataspace hbuf hg
  have hext : g.dataspace.getExtends = f.dataspace.getExtends := by
    rw [Dataspace.getExtends, hgd]
    rfl
  have hcommon : commonPoints g.dataspace space = Hypercube.points f.shape := by
    rw [commonPoints, hext]
    exact Set.inter_eq_left.2 fun c hc => (h c hc).1
  have hconv : converterForTypes env.cast space.type g.dataspace.type = some id :=
    if_pos (ht.symm.trans hgt.symm)
  obtain ⟨user', hok, hcopied⟩ := @copyData_copied V env.cast id g.dataspace space own user
    ((congrArg List.length hgd).trans hd) hconv (by rw [commonPoints, hext]; exact hov)
    (hinj.mono Set.inter_subset_right)
  have hpoints : ∀ c ∈ Hypercube.points f.shape, user' (space.elementIndex c) = data c := by
    intro c hc
    rw [hcopied.common c (hcommon ▸ hc), id, hown c hc]
  refine ⟨user', hok, fun placed => ⟨fun hp => ?_, ?_⟩, fun q hq => ?_⟩
  · funext q
    by_cases hq : ∃ c ∈ Hypercube.points f.shape, position + f.dataspace.elementIndex c = q
    · obtain ⟨c, hc, rfl⟩ := hq
      rw [hp.points c hc, (h c hc).2, hpoints c hc]
    · push Not at hq
      rw [hp.frame q hq, hcopied.frame q]
      intro c hc
      rw [hcommon] at hc
      rw [← (h c hc).2]
      exact hq c hc
  · rintro rfl
    refine ⟨fun c hc => ?_, fun q hq => hcopied.frame q fun c hc => ?_⟩
    · rw [(h c hc).2]
      exact hpoints c hc
    · rw [hcommon] at hc
      rw [← (h c hc).2]
      exact hq c hc
  · exact hcopied.frame q fun c hc => hq c hc.2

theorem tryDirectIo_of_single (hbuf : f.buf = none) (ht : f.dataspace.type = space.type)
    {i : CopyInstructions} (hi : SingleChunk f.dataspace space i) :
    tryDirectIo f space = do
      eassert .directOffset (i.sourceOffset = 0)
      return (true, { f with buf := some (.user i.destOffset) }) := by
  obtain ⟨hi, hloops, hcount⟩ := hi
  unfold tryDirectIo
  rw [if_neg (not_not.2 ht), hi, Outcome.ok_bind]
  dsimp only
  rw [if_neg (not_not.2 hloops), if_neg (not_not.2 hcount), if_neg (by simp [hbuf])]

theorem tryDirectIo_of_not_single (ht : f.dataspace.type = space.type)
    (hd : f.dataspace.dims = space.dims) (hov : (commonPoints f.dataspace space).Nonempty)
    (h : ∀ i, ¬ SingleChunk f.dataspace space i) : tryDirectIo f space = .ok (false, f) := by
  obtain ⟨i, -, hi, -⟩ := copyInstructions_moved hd hov
  unfold tryDirectIo
  rw [if_neg (not_not.2 ht), hi, Outcome.ok_bind]
  dsimp only
  by_cases hloops : i.loops = []
  · rw [if_neg (not_not.2 hloops), if_pos fun hcount => h i ⟨hi, hloops, hcount⟩]
    rfl
  · rw [if_pos hloops]
    rfl

/-- For a fragment without a buffer, direct I/O fails no assertion and has the result of a load and
a copy wherever it is accepted, unless the fragment could be moved as one chunk and is stored
backwards: there it runs into its assertion. -/
theorem tryDirectIo_exact_iff (hbuf : f.buf = none) (ht : f.dataspace.type = space.type)
    (hd : f.dataspace.dims = space.dims) (hov : (commonPoints f.dataspace space).Nonempty)
    (hinj : Set.InjOn space.elementIndex (Hypercube.points space.getExtends)) :
    (∃ direct f', tryDirectIo f space = .ok (direct, f')
        ∧ (direct = true → ∃ position, f'.buf = some (.user position)
          ∧ DirectAgrees env f space position))
      ↔ ¬ ((∃ i, SingleChunk f.dataspace space i) ∧ Backwards f.dataspace) := by
  by_cases hsingle : ∃ i, SingleChunk f.dataspace space i
  · obtain ⟨i, hi⟩ := hsingle
    obtain ⟨hoff, hpts⟩ := hi.spec hd hov
    rw [tryDirectIo_of_single hbuf ht hi]
    constructor
    · rintro ⟨direct, f', h, -⟩ ⟨-, hback⟩
      obtain ⟨_, ho, -⟩ := Outcome.bind_eq_ok.1 h
      exact hoff.1 (eassert_eq_ok.1 ho) hback
    · intro hback
      have hzero := hoff.2 fun hb => hback ⟨⟨i, hi⟩, hb⟩
      rw [eassert_of hzero, Outcome.ok_bind]
      refine ⟨true, _, rfl, fun _ => ⟨i.destOffset, rfl, ?_⟩⟩
      refine directAgrees_of_eq hbuf ht hd hov hinj fun c hc => ⟨(hpts c hc).1, ?_⟩
      have := (hpts c hc).2
      omega
  · refine iff_of_true ⟨false, f, ?_, by simp⟩ fun h => hsingle h.1
    exact tryDirectIo_of_not_single ht hd hov (not_exists.1 hsingle)

theorem tryDirectIo_exact_iff_line :
    ∃ f' : Fragment ℤ,
      tryDirectIo (newFragment (byteLine 1 2) none) (byteLine 0 4) = .ok (true, f')
      ∧ ∃ position, f'.buf = some (.user position)
        ∧ DirectAgrees (Env.calm (0 : ℤ)) (newFragment (byteLine 1 2) none) (byteLine 0 4)
          position := by
  have hov : (commonPoints (byteLine 1 2) (byteLine 0 4)).Nonempty :=
    ⟨[1], .cons ⟨by decide, by decide⟩ .nil, .cons ⟨by decide, by decide⟩ .nil⟩
  obtain ⟨direct, f', h, hdirect⟩ := (@tryDirectIo_exact_iff ℤ (Env.calm 0)
    (newFragment (byteLine 1 2) none) (byteLine 0 4) rfl rfl rfl hov
    (Dataspace.elementIndex_injOn rfl)).2 (by
      rintro ⟨-, q, hq, -, hneg⟩
      obtain rfl := List.mem_singleton.1 (show q ∈ [((⟨1, 2⟩ : Dim), (1 : ℤ))] from hq)
      exact absurd hneg (by decide))
  have hok : tryDirectIo (newFragment (byteLine 1 2) none) (byteLine 0 4)
      = .ok (true, { newFragment (byteLine 1 2) none with buf := some (Buf.user 1 : Buf ℤ) }) := rfl
  obtain ⟨rfl, rfl⟩ := Prod.mk.inj (Except.ok.inj (hok.symm.trans h))
  exact ⟨_, h, hdirect rfl⟩

/-- Two bytes that are stored backwards, on both sides. -/
theorem tryDirectIo_backwards :
    tryDirectIo (newFragment ⟨.basic .int8, [⟨0, 2⟩], some [-1], by simp⟩ none : Fragment ℤ)
      ⟨.basic .int8, [⟨0, 2⟩], some [-1], by simp⟩ = .error (.assertion .directOffset) := rfl

end Direct

end Dataset

end Esdm
