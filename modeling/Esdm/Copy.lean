import Esdm.Lib.Odometer
import Esdm.Dataspace

/-!
# Copying between dataspaces

`esdmI_dataspace_copy_instructions` and `esdm_dataspace_copy_data` of `esdm-scheduler.c`: the
overlap of two dataspaces is cut into chunks that lie without gaps on both sides, and a nest of
loops walks over the chunks with one pointer into each buffer.

Where there is no overlap the plan is never written down, and what follows depends on what the
caller's variables held before.  `copyData` calls this undefined; `copyDataFrom` has the variables.
-/

namespace Esdm

/-- `abs_int64` -/
def absInt64 (a : ℤ) : ℤ := if a > 0 then a else -a

/-- `min_int64` -/
def minInt64 (a b : ℤ) : ℤ := if a < b then a else b

/-- What the copy knows about one dimension. -/
structure CopyDim where
  source : Dim
  dest : Dim
  overlap : Range
  sourceStride : ℤ
  destStride : ℤ
  deriving DecidableEq, Repr

namespace CopyDim

def overlapSize (d : CopyDim) : ℤ := d.overlap.size

/-- How far a step in this dimension jumps, at least. -/
def jumpFactor (d : CopyDim) : ℤ := minInt64 (absInt64 d.sourceStride) (absInt64 d.destStride)

end CopyDim

/-- One of the loops around the `memcpy()`. -/
structure CopyLoop where
  size : ℤ
  relSourceStride : ℤ
  relDestStride : ℤ
  deriving DecidableEq, Repr

/-- The outputs of `esdmI_dataspace_copy_instructions`, the outermost loop first. -/
structure CopyInstructions where
  loops : List CopyLoop
  chunkSize : ℤ
  sourceOffset : ℤ
  destOffset : ℤ
  deriving DecidableEq, Repr

/-- The dimensions with all that is known about them, side by side. -/
def copyDims : Hypercube → List Dim → List ℤ → List Dim → List ℤ → List CopyDim
  | r :: overlap, s :: source, u :: sourceStride, d :: dest, v :: destStride =>
    ⟨s, d, r, u, v⟩ :: copyDims overlap source sourceStride dest destStride
  | _, _, _, _, _ => []

/-- The last dimension with the stride `chunkSize` on both sides, and the others. -/
def findFused (chunkSize : ℤ) : List CopyDim → Option (CopyDim × List CopyDim)
  | [] => none
  | d :: ds =>
    match findFused chunkSize ds with
    | some (e, rest) => some (e, d :: rest)
    | none =>
      if d.sourceStride = d.destStride ∧ absInt64 d.sourceStride = chunkSize then some (d, ds)
      else none

/-- The chunk that one `memcpy()` can move: its size, how far before the first point it starts,
and the dimensions that are left over. -/
def fuseDims : ℕ → ℤ → ℤ → List CopyDim → ℤ × ℤ × List CopyDim
  | 0, chunkSize, dataPointerOffset, ds => (chunkSize, dataPointerOffset, ds)
  | fuel + 1, chunkSize, dataPointerOffset, ds =>
    match findFused chunkSize ds with
    | none => (chunkSize, dataPointerOffset, ds)
    | some (d, rest) =>
      let dataPointerOffset :=
        if d.sourceStride < 0 then dataPointerOffset + chunkSize * (d.overlapSize - 1)
        else dataPointerOffset
      let chunkSize := chunkSize * d.overlapSize
      if d.overlapSize ≠ d.source.size ∨ d.overlapSize ≠ d.dest.size then
        (chunkSize, dataPointerOffset, rest)
      else fuseDims fuel chunkSize dataPointerOffset rest

/-- The first dimension with the largest jump, and the others. -/
def takeBest : List CopyDim → Option (CopyDim × List CopyDim)
  | [] => none
  | d :: ds =>
    match takeBest ds with
    | none => some (d, ds)
    | some (e, rest) => if d.jumpFactor < e.jumpFactor then some (e, d :: rest) else some (d, ds)

/-- The order of the loops: the dimension with the largest jump is the outermost. -/
def orderDims : ℕ → List CopyDim → List CopyDim
  | 0, _ => []
  | fuel + 1, ds =>
    match takeBest ds with
    | none => []
    | some (d, rest) => d :: orderDims fuel rest

/-- Each loop's strides, less what the loop inside it has moved. -/
def relativeStrides : List CopyDim → List CopyLoop
  | [] => []
  | [d] => [⟨d.overlapSize, d.sourceStride, d.destStride⟩]
  | d :: e :: ds =>
    ⟨d.overlapSize, d.sourceStride - e.overlapSize * e.sourceStride,
      d.destStride - e.overlapSize * e.destStride⟩ :: relativeStrides (e :: ds)

/-- `esdmI_dataspace_copy_instructions`.  `none`: the overlap is empty, and the function returns
before it has written to any of its output variables. -/
def copyInstructions (source dest : Dataspace) : Outcome (Option CopyInstructions) := do
  eassert .dims (source.dims = dest.dims)
  match Hypercube.makeIntersection source.getExtends dest.getExtends with
  | none => return none
  | some overlap =>
    let ds := copyDims overlap source.dim source.getEffectiveStride dest.dim
      dest.getEffectiveStride
    let (chunkSize, dataPointerOffset, rest) := fuseDims ds.length 1 0 ds
    let sourceIndex := (ds.map fun d => (d.overlap.start - d.source.offset) * d.sourceStride).sum
    let destIndex := (ds.map fun d => (d.overlap.start - d.dest.offset) * d.destStride).sum
    return some {
      loops := relativeStrides (orderDims rest.length rest)
      chunkSize := chunkSize
      sourceOffset := sourceIndex - dataPointerOffset
      destOffset := destIndex - dataPointerOffset }

section Execute

variable {V : Type}

/-- `ea_converter_for_types`: the identity for equal types, a cast between the types it knows.
`cast` is the C cast. -/
def converterForTypes (cast : BasicType → BasicType → V → V) (dest source : ElemType) :
    Option (V → V) :=
  if dest = source then some id
  else match dest, source with
    | .basic d, .basic s => some (cast d s)
    | _, _ => none

/-- `memcpy()` of `n` elements, through a converter. -/
def memcpy (convert : V → V) (dest : Mem V) (d : ℤ) (source : Mem V) (s n : ℤ) : Mem V :=
  fun q => if d ≤ q ∧ q < d + n then convert (source (s + (q - d))) else dest q

/-- Move the counters and the two pointers to the next chunk.  The flag says that the outermost
loop is through. -/
def advance : List CopyLoop → List ℕ → ℤ × ℤ → Bool × List ℕ × ℤ × ℤ
  | l :: ls, c :: cs, p =>
    match advance ls cs p with
    | (false, cs', p') => (false, c :: cs', p')
    | (true, cs', p') =>
      let p'' := (p'.1 + l.relSourceStride, p'.2 + l.relDestStride)
      if ((c + 1 : ℕ) : ℤ) < l.size then (false, (c + 1) :: cs', p'') else (true, 0 :: cs', p'')
  | _, cs, p => (true, cs, p)

/-- The loop of `esdm_dataspace_copy_data`. -/
def copyChunks (convert : V → V) (loops : List CopyLoop) (chunkSize : ℤ) (source : Mem V) :
    ℕ → List ℕ → ℤ × ℤ → Mem V → Outcome (Mem V)
  | 0, _, _, _ => .error .fuel
  | fuel + 1, counters, p, dest =>
    let dest := memcpy convert dest p.2 source p.1 chunkSize
    match advance loops counters p with
    | (true, _, _) => .ok dest
    | (false, counters, p) => copyChunks convert loops chunkSize source fuel counters p dest

/-- The two pointers at every call of the converter in that loop. -/
def chunkPointers (loops : List CopyLoop) : ℕ → List ℕ → ℤ × ℤ → List (ℤ × ℤ)
  | 0, _, _ => []
  | fuel + 1, counters, p =>
    p :: match advance loops counters p with
      | (true, _, _) => []
      | (false, counters, p) => chunkPointers loops fuel counters p

/-- `esdm_dataspace_copy_data`: the status, and what the destination buffer holds afterwards. -/
def copyData (cast : BasicType → BasicType → V → V) (sourceSpace : Dataspace) (source : Mem V)
    (destSpace : Dataspace) (dest : Mem V) : Outcome (Status × Mem V) := do
  eassert .dims (sourceSpace.dims = destSpace.dims)
  match converterForTypes cast destSpace.type sourceSpace.type with
  | none => return (.error, dest)
  | some convert =>
    match ← copyInstructions sourceSpace destSpace with
    | none => .error .undefined
    | some i =>
      let dest ← copyChunks convert i.loops i.chunkSize source
        (Odometer.count (i.loops.map fun l => l.size.toNat)) (List.replicate i.loops.length 0)
        (i.sourceOffset, i.destOffset) dest
      return (.success, dest)

end Execute

section Variables

/-- The variables that a caller of `esdmI_dataspace_copy_instructions` declares for its outputs and
does not initialise.  The arrays have an element for each dimension. -/
structure CopyVariables where
  instructionDims : ℤ
  chunkSize : ℤ
  sourceOffset : ℤ
  destOffset : ℤ
  loops : List CopyLoop
  deriving DecidableEq, Repr

/-- `esdmI_dataspace_copy_instructions` with what the output variables hold before and after. -/
def copyInstructionsInto (sourceSpace destSpace : Dataspace) (vars : CopyVariables) :
    Outcome CopyVariables := do
  match ← copyInstructions sourceSpace destSpace with
  | none => return vars
  | some i =>
    return {
      instructionDims := i.loops.length
      chunkSize := i.chunkSize
      sourceOffset := i.sourceOffset
      destOffset := i.destOffset
      loops := i.loops ++ vars.loops.drop i.loops.length }

/-- The loops that `esdm_dataspace_copy_data` executes. -/
def CopyVariables.activeLoops (vars : CopyVariables) : List CopyLoop :=
  vars.loops.take vars.instructionDims.toNat

/-- The two pointers at every call of the converter in `esdm_dataspace_copy_data`. -/
def CopyVariables.calls (vars : CopyVariables) : List (ℤ × ℤ) :=
  if vars.instructionDims < 0 then []
  else chunkPointers vars.activeLoops (Odometer.count (vars.activeLoops.map fun l => l.size.toNat))
    (List.replicate vars.activeLoops.length 0) (vars.sourceOffset, vars.destOffset)

/-- `esdm_dataspace_copy_data` with what its local variables hold before they are set. -/
def copyDataFrom {V : Type} (vars : CopyVariables) (cast : BasicType → BasicType → V → V)
    (sourceSpace : Dataspace) (source : Mem V) (destSpace : Dataspace) (dest : Mem V) :
    Outcome (Status × Mem V) := do
  eassert .dims (sourceSpace.dims = destSpace.dims)
  match converterForTypes cast destSpace.type sourceSpace.type with
  | none => return (.error, dest)
  | some convert =>
    let vars ← copyInstructionsInto sourceSpace destSpace vars
    if vars.instructionDims < 0 then return (.success, dest)
    else if vars.loops.length < vars.instructionDims then .error .undefined
    else
      let dest ← copyChunks convert vars.activeLoops vars.chunkSize source
        (Odometer.count (vars.activeLoops.map fun l => l.size.toNat))
        (List.replicate vars.activeLoops.length 0) (vars.sourceOffset, vars.destOffset) dest
      return (.success, dest)

end Variables

end Esdm
