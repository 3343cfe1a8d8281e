import Esdm.Split

/-!
# Fragments and the backends that store them

The life of a fragment in `esdm-datatypes.c`, and how `estream.c` brings its data into the
contiguous form a backend stores and back (without SCIL, which compresses).

The backends are outside: the `Env` of a call says what they return during that call, and a
fragment's `stored` is what the last successful `fragment_update` handed over.
-/

namespace Esdm

variable {V : Type}

/-- Where a fragment's `buf` points. -/
inductive Buf (V : Type)
  /-- into the buffer of the user's call that is running, at the given element -/
  | user (index : ℤ)
  /-- to memory of the fragment's own -/
  | owned (data : Mem V)
  /-- into the buffer of a call that has returned -/
  | stale

/-- `esdm_fragment_t` -/
structure Fragment (V : Type) where
  id : Option String
  dataspace : Dataspace
  backend : Option Backend
  buf : Option (Buf V)
  ownsBuf : Bool
  elements : ℤ
  bytes : ℤ
  actualBytes : ℤ
  status : DataStatus
  /-- what the backend holds for the fragment, if an update has succeeded -/
  stored : Option (Mem V)
  /-- `esdm_fragment_destroy()` has been called -/
  freed : Bool

/-- Everything a call takes from outside the modelled code. -/
structure Env (V : Type) extends SplitEnv where
  /-- the C casts between the basic types -/
  cast : BasicType → BasicType → V → V
  /-- what memory holds that is not, or not any more, the library's -/
  garbage : Mem V
  /-- the order in which GLib visits the entries of a hash table -/
  order : List (Hypercube × ℕ) → List (Hypercube × ℕ)
  order_perm : ∀ l, (order l).Perm l
  /-- `esdm_modules_fastestBackend` -/
  fastestBackend : Backend
  fastestBackend_mem : fastestBackend ∈ backends
  /-- what `fragment_update` returns for the fragment of a shape -/
  update : Hypercube → Status
  /-- what `fragment_retrieve` returns for the fragment of a shape -/
  retrieve : Hypercube → Status
  /-- the id a backend gives to a fragment that it stores for the first time -/
  fragmentId : Hypercube → String
  /-- the same, where the update fails -/
  failedId : Hypercube → Option String
  /-- what the backends hold under an id -/
  storage : String → Mem V
  /-- `ea_make_id`, for the grid at an address -/
  gridId : ℕ → String

/-- An environment in which nothing goes wrong: one backend for everything, and a split into single
elements where one is needed. -/
def Env.calm (v : V) : Env V where
  backends := [⟨"b", 8, .equalized⟩]
  cut := fun _ _ => 0
  bestBackend := fun _ => 0
  targetEdgeLength := fun _ _ => 1
  qsort := List.insertionSort fun a b => a.absStride ≤ b.absStride
  qsort_perm := fun l => List.perm_insertionSort _ l
  qsort_sorted := fun l => List.pairwise_insertionSort _ l
  cast := fun _ _ v => v
  garbage := fun _ => v
  order := fun l => l
  order_perm := fun l => .refl l
  fastestBackend := ⟨"b", 8, .equalized⟩
  fastestBackend_mem := by simp
  update := fun _ => .success
  retrieve := fun _ => .success
  fragmentId := fun _ => "f"
  failedId := fun _ => none
  storage := fun _ _ => v
  gridId := fun _ => "g"

namespace Fragment

def shape (f : Fragment V) : Hypercube := f.dataspace.getExtends

/-- What the fragment's `buf` shows, given the user's buffer. -/
def view (env : Env V) (f : Fragment V) (user : Mem V) : Option (Mem V) :=
  match f.buf with
  | none => none
  | some (.user i) => some fun q => user (i + q)
  | some (.owned data) => some data
  | some .stale => some env.garbage

/-- Put new data behind the fragment's `buf`. -/
def setView (f : Fragment V) (user data : Mem V) : Fragment V × Mem V :=
  match f.buf with
  | none => (f, user)
  | some (.user i) => (f, fun q => data (q - i))
  | some (.owned _) => ({ f with buf := some (.owned data) }, user)
  | some .stale => (f, user)

/-- `estream_mem_pack_fragment`: the data in the form the backend stores. -/
def pack (env : Env V) (f : Fragment V) (user : Mem V) : Outcome (Mem V) := do
  let data ← access (f.view env user)
  if f.dataspace.stride = none then return data
  else
    match f.dataspace.makeContiguous with
    | .error _ => .error .undefined
    | .ok contiguous =>
      let (_, packed) ← copyData env.cast f.dataspace data contiguous env.garbage
      return packed

/-- `estream_mem_unpack_fragment_param`, the backend's read, and `estream_mem_unpack_fragment`:
what the fragment's `buf` shows after a retrieve. -/
def unpack (env : Env V) (f : Fragment V) (user stored : Mem V) : Outcome (Fragment V × Mem V) := do
  let data ← access (f.view env user)
  if f.dataspace.stride = none then
    return f.setView user (memcpy (fun v => v) data 0 stored 0 f.elements)
  else
    match f.dataspace.makeContiguous with
    | .error _ => .error .undefined
    | .ok contiguous =>
      let (_, data) ← copyData env.cast contiguous stored f.dataspace data
      return f.setView user data

/-- `esdm_fragment_commit` with the backend's `fragment_update` -/
def commit (env : Env V) (f : Fragment V) (user : Mem V) : Outcome (Status × Fragment V) := do
  let packed ← f.pack env user
  match env.update f.shape with
  | .success =>
    return (.success,
      { f with
        status := .persistent
        stored := some packed
        id := some (f.id.getD (env.fragmentId f.shape)) })
  | status => return (status, { f with id := f.id.or (env.failedId f.shape) })

/-- Memory for an unloaded fragment without a buffer; from here on its data is contiguous. -/
def allocate (env : Env V) (f : Fragment V) : Except Status (Fragment V) :=
  match f.buf with
  | some _ => .ok f
  | none =>
    match if f.dataspace.stride = none then .ok f.dataspace else f.dataspace.makeContiguous with
    | .error status => .error status
    | .ok space =>
      .ok { f with dataspace := space, buf := some (.owned env.garbage), ownsBuf := true }

/-- `esdm_fragment_retrieve`.  An `actual_bytes` other than -1 means compressed data, which
`estream_mem_unpack_fragment` refuses. -/
def retrieve (env : Env V) (f : Fragment V) (user : Mem V) :
    Outcome (Status × Fragment V × Mem V) := do
  match f.status with
  | .persistent => return (.success, f, user)
  | .dirty => return (.dirtyDataError, f, user)
  | .deleted => return (.deletedDataError, f, user)
  | .notLoaded =>
    match f.allocate env with
    | .error status => return (status, f, user)
    | .ok f =>
      match f.stored, env.retrieve f.shape with
      | some stored, .success =>
        if f.actualBytes ≠ -1 then return (.error, f, user)
        else
          let (f, user) ← f.unpack env user stored
          return (.success, { f with status := .persistent }, user)
      | none, .success => return (.error, f, user)
      | _, status => return (status, f, user)

/-- `esdm_fragment_load` -/
def load (env : Env V) (f : Fragment V) (user : Mem V) : Outcome (Status × Fragment V × Mem V) :=
  if f.status = .dirty then .ok (.success, f, user) else f.retrieve env user

/-- `esdm_fragment_unload` -/
def unload (env : Env V) (f : Fragment V) (user : Mem V) : Outcome (Status × Fragment V) := do
  match f.status with
  | .notLoaded | .deleted => return (.success, f)
  | .persistent =>
    return (.success, { f with buf := none, ownsBuf := false, status := .notLoaded })
  | .dirty =>
    match ← f.commit env user with
    | (.success, f) =>
      return (.success, { f with buf := none, ownsBuf := false, status := .notLoaded })
    | (status, f) => return (status, f)

end Fragment

end Esdm
