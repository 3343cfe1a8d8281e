import Esdm.Coverage

/-!
# The scheduler

The writes and reads of `esdm-scheduler.c`.  A task runs when it is enqueued, as it does for a
backend without threads of its own; the `esdm_status` that is passed along is the request's
`return_code`.  A call works on the buffer of its user, which a read changes.
-/

namespace Esdm

variable {V : Type}

namespace Dataset

section Write

/-- `esdmI_scheduler_writeFragmentNonblocking`, with the task in `backend_thread` and
`buffer_cleanup_callback` -/
def writeFragmentNonblocking (env : Env V) (ds : Dataset V) (r : ℕ) (user : Mem V)
    (status : Status) : Outcome (Status × Dataset V) := do
  let f ← ds.fragment r
  let f := { f with backend := some (f.backend.getD env.fastestBackend) }
  match ← f.commit env user with
  | (.success, f) =>
    let (_, f) ← f.unload env user
    return (status, ds.setFragment r f)
  | (ret, f) => return (ret, ds.setFragment r f)

/-- `esdmI_scheduler_writeFragmentBlocking` -/
def writeFragmentBlocking (env : Env V) (ds : Dataset V) (r : ℕ) (user : Mem V) :
    Outcome (Status × Dataset V) :=
  ds.writeFragmentNonblocking env r user .success

/-- The part of a written space that a hypercube stands for, with the layout of the whole. -/
def subspaceOf (cube : Hypercube) (space : Dataspace) : Outcome Dataspace :=
  (Dataspace.createFromHypercube cube space.type).copyDatalayout space

/-- Create and write a fragment for each of the hypercubes, unless it exists already. -/
def writeCubes (env : Env V) (space : Dataspace) (user : Mem V) (backend : Backend) :
    HypercubeSet → Status → Dataset V → Outcome (Status × Dataset V)
  | [], status, ds => .ok (status, ds)
  | cube :: cubes, status, ds => do
    let subspace ← subspaceOf cube space
    let index := space.elementIndex (cube.map Range.start)
    let (ds, r, isNewFragment) ← ds.createFragment subspace (some (.user index))
    if isNewFragment then
      let f ← ds.fragment r
      let ds := ds.setFragment r { f with backend := some backend }
      let (status, ds) ← ds.writeFragmentNonblocking env r user status
      writeCubes env space user backend cubes status ds
    else writeCubes env space user backend cubes status ds

/-- One round for each of the backends, with the range it has been given. -/
def writeSlots (env : Env V) (space : Dataspace) (user : Mem V) :
    List (Backend × Slot) → Status → Dataset V → Outcome (Status × Dataset V)
  | [], status, ds => .ok (status, ds)
  | (_, .uninitialized) :: _, _, _ => .error .undefined
  | (_, .null) :: slots, status, ds => writeSlots env space user slots status ds
  | (backend, .cube c) :: slots, status, ds => do
    let backendSpace ← subspaceOf c space
    let cubes ← makeSplitRecommendation env.toSplitEnv backendSpace backend
    let (status, ds) ← writeCubes env space user backend cubes status ds
    writeSlots env space user slots status ds

/-- `esdm_scheduler_enqueue_write` -/
def enqueueWrite (env : Env V) (ds : Dataset V) (user : Mem V) (space : Dataspace)
    (status : Status) : Outcome (Status × Dataset V) := do
  let slots ← splitToBackends env.toSplitEnv space
  writeSlots env space user (env.backends.zip slots) status ds

/-- `esdm_scheduler_write_blocking` -/
def writeBlocking (env : Env V) (ds : Dataset V) (user : Mem V) (space : Dataspace) :
    Outcome (Status × Dataset V) :=
  ds.enqueueWrite env user space .success

end Write

section Read

/-- `esdmI_scheduler_try_direct_io`: whether the backend can read straight into the user's buffer,
and the fragment that does so. -/
def tryDirectIo (f : Fragment V) (space : Dataspace) : Outcome (Bool × Fragment V) := do
  if f.dataspace.type ≠ space.type then return (false, f)
  else
    match ← copyInstructions f.dataspace space with
    | none => .error .undefined
    | some i =>
      if i.loops ≠ [] then return (false, f)
      else if f.dataspace.elementCount ≠ i.chunkSize then return (false, f)
      else if f.buf.isSome then return (false, f)
      else
        eassert .directOffset (i.sourceOffset = 0)
        return (true, { f with buf := some (.user i.destOffset) })

/-- `esdmI_scheduler_try_direct_io` with what its local variables hold before they are set. -/
def tryDirectIoFrom (vars : CopyVariables) (f : Fragment V) (space : Dataspace) :
    Outcome (Bool × Fragment V) := do
  if f.dataspace.type ≠ space.type then return (false, f)
  else
    let vars ← copyInstructionsInto f.dataspace space vars
    if vars.instructionDims < 0 then return (true, f)
    else if vars.instructionDims > 0 then return (false, f)
    else if f.dataspace.elementCount ≠ vars.chunkSize then return (false, f)
    else if f.buf.isSome then return (false, f)
    else
      eassert .directOffset (vars.sourceOffset = 0)
      return (true, { f with buf := some (.user vars.destOffset) })

/-- A task of `esdm_scheduler_enqueue_read`, with `read_copy_callback` or
`buffer_cleanup_callback` -/
def readFragment (env : Env V) (f : Fragment V) (user : Mem V) (space : Dataspace) :
    Outcome (Status × Fragment V × Mem V) := do
  let (direct, f) ← tryDirectIo f space
  let _ ← access f.backend
  match ← f.load env user with
  | (.success, f, user) =>
    if direct then
      let (_, f) ← f.unload env user
      return (.success, f, user)
    else
      let data ← access (f.view env user)
      let (_, user) ← copyData env.cast f.dataspace data space user
      return (.success, f, user)
  | (ret, f, user) => return (ret, f, user)

/-- `esdm_scheduler_enqueue_read` -/
def enqueueRead (env : Env V) (space : Dataspace) :
    List ℕ → Status → Mem V → Dataset V → Outcome (Status × Mem V × Dataset V)
  | [], status, user, ds => .ok (status, user, ds)
  | r :: fragments, status, user, ds => do
    let f ← ds.fragment r
    let (ret, f, user) ← readFragment env f user space
    enqueueRead env space fragments (if ret = .success then status else ret) user
      (ds.setFragment r f)

/-- `esdmI_scheduler_readSingleFragmentBlocking` -/
def readSingleFragmentBlocking (env : Env V) (ds : Dataset V) (user : Mem V) (space : Dataspace)
    (r : ℕ) : Outcome (Status × Mem V × Dataset V) :=
  enqueueRead env space [r] .success user ds

/-- The source space of a fill: all of the hypercube's elements are the one fill value. -/
def fillSpace (type : ElemType) (cube : Hypercube) : Dataspace where
  type := type
  dim := cube.map fun r => ⟨r.start, r.size⟩
  stride := some (List.replicate cube.length 0)
  stride_length := by simp

/-- `esdm_scheduler_enqueue_fill` -/
def enqueueFill (env : Env V) (fillValue : V) (space : Dataspace) :
    HypercubeSet → Mem V → Outcome (Mem V)
  | [], user => .ok user
  | cube :: fillRegion, user => do
    eassert .dims (cube.length = space.dims)
    let (_, user) ← copyData env.cast (fillSpace space.type cube) (fun _ => fillValue) space user
    enqueueFill env fillValue space fillRegion user

/-- The bytes of the fragments a read has touched. -/
def ioBytes (ds : Dataset V) : List ℕ → Outcome ℤ
  | [] => .ok 0
  | r :: fragments => do
    let f ← ds.fragment r
    let bytes ← ds.ioBytes fragments
    return f.dataspace.totalBytes + bytes

/-- Paint the holes of a read with the fill value, if there are any; `ESDM_INCOMPLETE_DATA` if
there are and no fill value is set. -/
def fillHoles (env : Env V) (ds : Dataset V) (user : Mem V) (space : Dataspace)
    (covering : Covering) : Outcome (Status × Mem V) := do
  if covering.fullyCovered then return (.success, user)
  else
    eassert .readType (space.type = ds.dataspace.type)
    match ds.fillValue with
    | none => return (.incompleteData, user)
    | some v =>
      let user ← enqueueFill env v space covering.uncovered user
      return (.success, user)

/-- `esdm_scheduler_read_blocking` -/
def readBlocking (env : Env V) (ds : Dataset V) (user : Mem V) (space : Dataspace)
    (allowWriteback : Bool) : Outcome (Status × Mem V × Dataset V) := do
  let covering ← ds.fragmentsCoveringRegion env space.getExtends
  match ← ds.fillHoles env user space covering with
  | (.success, user) =>
    let (ret, user, ds) ← enqueueRead env space covering.fragments .success user ds
    let ioBytes ← ds.ioBytes covering.fragments
    if allowWriteback ∧ ret = .success ∧ covering.fullyCovered ∧ ioBytes ≥ 8 * space.totalBytes then
      let (_, ds) ← ds.writeBlocking env user space
      return (ret, user, ds)
    else return (ret, user, ds)
  | (ret, user) => return (ret, user, ds)

end Read

end Dataset

end Esdm
