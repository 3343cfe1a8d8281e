import Esdm.Dataset

/-!
# Write streams

`esdm-stream.c`.  A region of a dataset is written element by element, in C order.  `initCounts`
divides it twice, into fragments and into chunks; a chunk is what the caller's buffer collects
before it is handed to the backend.

The backend that a stream writes to is chosen at random, and its writes are taken to succeed: an
error of the backend aborts the process.
-/

namespace Esdm

namespace Stream

section Counts

/-- The outputs of `initCounts`, except for the cumulative counts. -/
structure InitCounts where
  objectCounts : List ℤ
  /-- `*out_splittingDim` and `*out_maxWidth`, if they have been written -/
  splitting : Option (ℕ × ℤ)
  /-- whether `dataspaceSize[-1]` has been read -/
  strayRead : Bool
  deriving DecidableEq, Repr

/-- The loop of `initCounts`, from dimension to dimension towards the first one.  The slice size is
multiplied after the dimension has been decremented, also when there is none left. -/
def initLoop (maxObjectSize : ℤ) : ℤ → List ℤ → List ℤ → Outcome InitCounts
  | _, [], objectCounts => .ok ⟨objectCounts, none, true⟩
  | sliceSize, n :: sizes, objectCounts =>
    if sliceSize = 0 then .error .undefined
    else
      let maxSlices := maxObjectSize.tdiv sliceSize
      if maxSlices < n then
        if maxSlices = 0 then .error .undefined
        else
          .ok ⟨sizes.reverse ++ (n + maxSlices - 1).tdiv maxSlices :: objectCounts,
            some (sizes.length, maxSlices), false⟩
      else initLoop maxObjectSize (sliceSize * sizes.headD 0) sizes (1 :: objectCounts)

/-- `initCounts` -/
def initCounts (elementSize maxObjectSize : ℤ) (sizes : List ℤ) : Outcome InitCounts :=
  if sizes = [] then .ok ⟨[], none, false⟩
  else initLoop maxObjectSize elementSize sizes.reverse []

/-- Each entry is the product of the counts from its dimension on. -/
def cumulativeCounts : List ℤ → List ℤ
  | [] => [1]
  | n :: counts => n * (cumulativeCounts counts).headD 1 :: cumulativeCounts counts

/-- `getBounds` -/
def getBounds (space : Dataspace) (dim : ℕ) (cumulative : List ℤ) (objectIndex : ℤ) :
    Outcome Range := do
  if space.dims = 0 then return ⟨0, 1⟩
  else
    let d ← access space.dim[dim]?
    let count ← access cumulative[dim]?
    let inner ← access cumulative[dim + 1]?
    if inner = 0 then .error .undefined
    else
      let dimSize := count.tdiv inner
      if dimSize = 0 then .error .undefined
      else
        let index := (objectIndex.tdiv inner).tmod dimSize
        return ⟨d.offset + (index * d.size).tdiv dimSize,
          d.offset + ((index + 1) * d.size).tdiv dimSize⟩

/-- The bounds of an object in all dimensions. -/
def objectBounds (space : Dataspace) (cumulative : List ℤ) (objectIndex : ℤ) : Outcome Hypercube :=
  (List.range space.dims).mapM fun dim => getBounds space dim cumulative objectIndex

end Counts

/-- `esdm_wstream_metadata_t` -/
structure Wstream where
  dataspace : Dataspace
  backend : Backend
  chunkingDim : ℕ
  maxChunkWidth : ℤ
  cumulativeFragmentCounts : List ℤ
  cumulativeChunkCounts : List ℤ
  fragCapacityRemaining : ℤ
  curFragment : ℤ
  nextChunk : ℤ
  chunkOffset : ℤ
  /-- `backendState.fragment` -/
  fragment : ℕ

/-- A call of the backend's `fragment_write_stream_blocksize`. -/
structure Write where
  fragment : ℕ
  offset : ℤ
  bytes : ℤ
  deriving DecidableEq, Repr

variable {V : Type}

/-- `wstream_create_newFragment` -/
def createNewFragment (ds : Dataset V) (w : Wstream) : Outcome (Wstream × Dataset V) := do
  let curFragment := w.curFragment + 1
  let bounds ← objectBounds w.dataspace w.cumulativeFragmentCounts curFragment
  let memspace := Dataspace.createFull (bounds.map fun r => ⟨r.start, r.stop - r.start⟩)
    w.dataspace.type
  let (ds, r, isNew) ← ds.createFragment memspace none
  eassert .newFragment isNew
  let f ← ds.fragment r
  return ({ w with
      curFragment := curFragment
      fragCapacityRemaining := memspace.totalBytes
      chunkOffset := 0
      fragment := r },
    ds.setFragment r { f with backend := some w.backend })

/-- `esdm_wstream_metadata_create`, for the given backend and maximal chunk size. -/
def metadataCreate (ds : Dataset V) (backend : Backend) (maxChunkSize : ℤ) (dim : List Dim)
    (type : ElemType) : Outcome (Wstream × Dataset V) := do
  eassert .dims (ds.dims = dim.length)
  let sizes := dim.map Dim.size
  let chunks ← initCounts type.sizeof maxChunkSize sizes
  let fragments ← initCounts type.sizeof backend.maxFragmentSize sizes
  createNewFragment ds {
    dataspace := .createFull dim type
    backend := backend
    chunkingDim := (chunks.splitting.map Prod.fst).getD 0
    maxChunkWidth := (chunks.splitting.map Prod.snd).getD (sizes.headD 1)
    cumulativeFragmentCounts := cumulativeCounts fragments.objectCounts
    cumulativeChunkCounts := cumulativeCounts chunks.objectCounts
    fragCapacityRemaining := 0
    curFragment := -1
    nextChunk := 0
    chunkOffset := 0
    fragment := 0 }

/-- `esdm_wstream_metadata_max_chunk_size` -/
def maxChunkSize (w : Wstream) : ℤ :=
  w.maxChunkWidth * ((w.dataspace.dim.drop w.chunkingDim).map Dim.size).prod

/-- `isFinished` -/
def isFinished (w : Wstream) : Prop :=
  w.fragCapacityRemaining = 0 ∧ some (w.curFragment + 1) = w.cumulativeFragmentCounts.head?

instance (w : Wstream) : Decidable (isFinished w) := inferInstanceAs (Decidable (_ ∧ _))

/-- `esdm_wstream_metadata_next_chunk_size` -/
def nextChunkSize (w : Wstream) : Outcome ℤ := do
  if isFinished w then return 0
  else
    let bounds ← objectBounds w.dataspace w.cumulativeChunkCounts w.nextChunk
    let chunkSize := Hypercube.size bounds
    let remaining := w.fragCapacityRemaining.tdiv w.dataspace.type.sizeof
    return if chunkSize > remaining then remaining else chunkSize

/-- `esdm_wstream_flush` with a buffer of the given number of bytes. -/
def flush (ds : Dataset V) (w : Wstream) (bytes : ℤ) : Outcome (Write × Wstream × Dataset V) := do
  eassert .streamOpen (¬ isFinished w)
  eassert .streamCapacity (w.fragCapacityRemaining ≥ bytes)
  let write : Write := ⟨w.fragment, w.chunkOffset, bytes⟩
  let w := { w with
    chunkOffset := w.chunkOffset + bytes
    nextChunk := w.nextChunk + 1
    fragCapacityRemaining := w.fragCapacityRemaining - bytes }
  if w.fragCapacityRemaining = 0 ∧ ¬ isFinished w then
    let (w, ds) ← createNewFragment ds w
    return (write, w, ds)
  else return (write, w, ds)

/-- Announce and flush until nothing more is expected: the sizes that have been announced and the
writes, in order. -/
def streamAll : ℕ → Dataset V → Wstream → Outcome (List (ℤ × Write) × Wstream × Dataset V)
  | 0, _, _ => .error .fuel
  | fuel + 1, ds, w => do
    let n ← nextChunkSize w
    if n = 0 then return ([], w, ds)
    else
      let (write, w, ds) ← flush ds w (n * w.dataspace.type.sizeof)
      let (rest, w, ds) ← streamAll fuel ds w
      return ((n, write) :: rest, w, ds)

end Stream

end Esdm
