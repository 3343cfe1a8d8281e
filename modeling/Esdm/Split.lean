import Mathlib.Data.List.Sort
import Esdm.Copy

/-!
# How a write is split

`esdm-scheduler.c` distributes a written dataspace over the backends and cuts each backend's part
into fragments.  What it computes in floating point comes from outside: the bounds between the
backends' ranges and the fastest backend, which the throughput estimates decide, and the edge
length `floor(pow(maxFragmentSize/sizeof, 1/splitDims))` of a balanced split.
-/

namespace Esdm

/-- `esdmI_fragmentation_method_t` -/
inductive FragmentationMethod
  | contiguous
  | equalized
  deriving DecidableEq, Repr

/-- What the scheduler reads of a backend's configuration. -/
structure Backend where
  id : String
  maxFragmentSize : ℤ
  fragmentationMethod : FragmentationMethod
  deriving DecidableEq, Repr

/-- `struct dimInfo_t`, with the extent of the dimension it stands for. -/
structure DimInfo where
  dimension : ℕ
  absStride : ℤ
  dim : Dim
  deriving DecidableEq, Repr

/-- What a split takes from outside the modelled code. -/
structure SplitEnv where
  backends : List Backend
  /-- `bounds[i]` of `splitToBackends`, for an `i` that is neither the first nor the last -/
  cut : Dataspace → ℕ → ℤ
  /-- the backend with the largest weight -/
  bestBackend : Dataspace → ℕ
  /-- `targetEdgeLength` of a balanced split with the given maximal fragment size, zero also where
  the power is not a number -/
  targetEdgeLength : Dataspace → ℤ → ℤ
  /-- `qsort()` with `compare_dimInfo` -/
  qsort : List DimInfo → List DimInfo
  qsort_perm : ∀ l, (qsort l).Perm l
  qsort_sorted : ∀ l, (qsort l).Pairwise fun a b => a.absStride ≤ b.absStride

section Balanced

/-- `(int64_t)ceil(size/targetEdgeLength)` -/
def splitFactor (edge : ℤ) (d : Dim) : ℤ := -((-d.size) / edge)

/-- The hypercube at the given split coordinates. -/
def balancedCube : List Dim → List ℤ → List ℕ → Hypercube
  | d :: dim, f :: factors, c :: coords =>
    ⟨d.offset + ((c : ℤ) * d.size).tdiv f, d.offset + (((c : ℤ) + 1) * d.size).tdiv f⟩ ::
      balancedCube dim factors coords
  | _, _, _ => []

/-- `makeSplitRecommendation_balancedDims` -/
def balancedDims (edge : ℤ) (space : Dataspace) : Outcome HypercubeSet := do
  if space.dim.all fun d => ¬ d.size > 1 then
    return [space.getExtends]
  else if edge = 0 then
    -- the quotient does not fit an integer
    .error .undefined
  else
    let factors := space.dim.map (splitFactor edge)
    eassert .splitFactors (∀ q ∈ space.dim.zip factors, 1 ≤ q.2 ∧ q.2 ≤ q.1.size)
    return (Odometer.all (factors.map Int.toNat)).map (balancedCube space.dim factors)

end Balanced

section Contiguous

/-- The dimensions with their absolute strides, in order. -/
def dimInfos : ℕ → List Dim → List ℤ → List DimInfo
  | i, d :: dim, s :: stride => ⟨i, absInt64 s, d⟩ :: dimInfos (i + 1) dim stride
  | _, _, _ => []

/-- The first dimension that exceeds the maximal fragment size, the dimensions behind it, and the
bytes of a fragment that is one element thick in these. -/
def findSplitDim (maxFragmentSize : ℤ) : ℤ → List DimInfo → Option (DimInfo × List DimInfo × ℤ)
  | _, [] => none
  | fragmentSize, d :: ds =>
    if fragmentSize * d.dim.size ≥ maxFragmentSize then some (d, ds, fragmentSize)
    else findSplitDim maxFragmentSize (fragmentSize * d.dim.size) ds

/-- Reduce each dimension to the single coordinate. -/
def setSlices (cube : Hypercube) : List DimInfo → List ℕ → Hypercube
  | d :: ds, c :: coords =>
    setSlices (cube.set d.dimension ⟨d.dim.offset + c, d.dim.offset + c + 1⟩) ds coords
  | _, _ => cube

/-- The hypercube at the given fragment coordinates. -/
def contiguousCube (extends_ : Hypercube) (split : DimInfo) (slices : ℤ) (rest : List DimInfo) :
    List ℕ → Hypercube
  | c :: coords =>
    setSlices (extends_.set split.dimension
      ⟨split.dim.offset + ((c : ℤ) * split.dim.size).tdiv slices,
        split.dim.offset + (((c : ℤ) + 1) * split.dim.size).tdiv slices⟩) rest coords
  | [] => extends_

/-- `makeSplitRecommendation_contiguousFragments` -/
def contiguousFragments (qsort : List DimInfo → List DimInfo) (maxFragmentSize : ℤ)
    (space : Dataspace) : Outcome HypercubeSet := do
  if maxFragmentSize > 0 ∧ space.totalBytes < maxFragmentSize then
    return [space.getExtends]
  else
    let extent := space.getExtends.map fun r => (⟨r.start, r.size⟩ : Dim)
    let dimInfo := qsort (dimInfos 0 extent space.getEffectiveStride)
    match findSplitDim maxFragmentSize space.type.sizeof dimInfo with
    | none => .error (.assertion .splitDim)
    | some (split, rest, fragmentSize) =>
      if fragmentSize = 0 then .error .undefined
      else
        let maxSliceThickness := maxFragmentSize.tdiv fragmentSize
        if maxSliceThickness = 0 then .error .undefined
        else
          let splitSlices := (split.dim.size + maxSliceThickness - 1).tdiv maxSliceThickness
          if splitSlices ≤ 0 then return []
          else
            let sizes := splitSlices.toNat :: rest.map fun d => d.dim.size.toNat
            return (Odometer.all sizes).map
              (contiguousCube space.getExtends split splitSlices rest)

end Contiguous

/-- `esdm_scheduler_makeSplitRecommendation` -/
def makeSplitRecommendation (env : SplitEnv) (space : Dataspace) (backend : Backend) :
    Outcome HypercubeSet :=
  match backend.fragmentationMethod with
  | .equalized => balancedDims (env.targetEdgeLength space backend.maxFragmentSize) space
  | .contiguous => contiguousFragments env.qsort backend.maxFragmentSize space

section Backends

/-- An entry of `out_backendExtends`. -/
inductive Slot
  | uninitialized
  | null
  | cube (c : Hypercube)
  deriving DecidableEq, Repr

/-- The dimension to split over the backends: the last one of those with the largest stride, among
the dimensions with more than one element. -/
def bestDim : ℕ → List Dim → List ℤ → Option ℕ → ℤ → Option ℕ
  | i, d :: dim, s :: stride, best, bestStride =>
    if absInt64 s ≥ bestStride ∧ d.size > 1 then bestDim (i + 1) dim stride (some i) (absInt64 s)
    else bestDim (i + 1) dim stride best bestStride
  | _, _, _, best, _ => best

/-- The entries for the ranges between consecutive bounds.  A range without elements sets the
pointer to the output array to null instead of the entry, after which there is no array left to
write to. -/
def backendSlots (extends_ : Hypercube) (dimension : ℕ) : Bool → List ℤ → Outcome (List Slot)
  | valid, a :: b :: bounds => do
    eassert .backendBounds (a ≤ b)
    if a = b then
      let slots ← backendSlots extends_ dimension false (b :: bounds)
      return .uninitialized :: slots
    else if valid then
      let slots ← backendSlots extends_ dimension valid (b :: bounds)
      return .cube (extends_.set dimension ⟨a, b⟩) :: slots
    else .error .undefined
  | _, _ => .ok []

/-- The bounds of the backends' ranges in the dimension that is split. -/
def backendBounds (env : SplitEnv) (space : Dataspace) (r : Range) : List ℤ :=
  r.start :: ((List.range' 1 (env.backends.length - 1)).map (env.cut space) ++ [r.stop])

/-- `splitToBackends` -/
def splitToBackends (env : SplitEnv) (space : Dataspace) : Outcome (List Slot) := do
  eassert .backendCount (0 < env.backends.length)
  match bestDim 0 space.dim space.getEffectiveStride none 0 with
  | some i =>
    let r ← access (space.getExtends)[i]?
    backendSlots space.getExtends i true (backendBounds env space r)
  | none =>
    eassert .bestBackend (env.bestBackend space < env.backends.length)
    return (List.replicate env.backends.length .null).set (env.bestBackend space)
      (.cube space.getExtends)

end Backends

end Esdm
