import Esdm.Lib.Json
import Esdm.GridIo

/-!
# The metadata of fragments

How `esdm-datatypes.c` describes dataspaces and fragments in JSON, and re-creates them from a
description.  The texts are modelled by the JSON values they denote.  A description has no element
type, and the re-created dataspace takes the dataset's.
-/

namespace Esdm

variable {V : Type}

namespace Dataspace

/-- `esdm_dataspace_serialize` -/
def serialize (space : Dataspace) : Json :=
  .obj ([("size", .ints (space.dim.map Dim.size)), ("offset", .ints (space.dim.map Dim.offset))]
    ++ (space.stride.map fun s => ("stride", .ints s)).toList)

/-- `esdmI_dataspace_createFromJson`, `none` for `ESDM_INVALID_DATA_ERROR`.  `dataspace` is the
dataset's. -/
def createFromJson (dataspace : Dataspace) (json : Json) : Option Dataspace := do
  let size ← json.get "size" >>= Json.ints?
  let offset ← json.get "offset" >>= Json.ints?
  let dim := List.zipWith (fun o s => (⟨o, s⟩ : Dim)) offset size
  if size.length = dataspace.dims ∧ offset.length = dataspace.dims then
    match json.get "stride" with
    | none => some ⟨dataspace.type, dim, none, by simp⟩
    | some json =>
      let stride ← json.ints?
      if h : stride.length = dim.length then
        some ⟨dataspace.type, dim, some stride, by simpa using h⟩
      else none
  else none

end Dataspace

/-- `esdm_fragment_metadata_create` -/
def Fragment.metadataCreate (f : Fragment V) : Outcome Json := do
  let backend ← access f.backend
  match f.id with
  | none => .error (.assertion .fragmentId)
  | some id =>
    return .obj [("id", .str id), ("pid", .str backend.id), ("act-size", .int f.actualBytes),
      ("space", f.dataspace.serialize)]

/-- `esdmI_get_backend` -/
def getBackend (env : Env V) (pluginId : String) : Option Backend :=
  env.backends.find? fun b => b.id = pluginId

/-- What a fragment's description says. -/
structure FragmentDescription where
  id : String
  pid : String
  actualBytes : ℤ
  space : Dataspace

/-- The checks of `esdmI_create_fragment_from_metadata`. -/
def FragmentDescription.parse (dataspace : Dataspace) (json : Json) :
    Option FragmentDescription := do
  let pid ← json.get "pid" >>= Json.str?
  let id ← json.get "id" >>= Json.str?
  let actualBytes ← json.get "act-size" >>= Json.int?
  let space ← json.get "space" >>= dataspace.createFromJson
  return ⟨id, pid, actualBytes, space⟩

/-- A description from which a fragment can be made. -/
def FragmentDescription.WellFormed (env : Env V) (dataspace : Dataspace) (json : Json) : Prop :=
  ∃ d, parse dataspace json = some d ∧ getBackend env d.pid ≠ none

/-- The shapes that the descriptions of a list describe. -/
def FragmentDescription.shapes (dataspace : Dataspace) (list : List Json) : List Hypercube :=
  list.filterMap fun json => (parse dataspace json).map fun d => d.space.getExtends

/-- The fragment that is made from a description, on the given backend. -/
def FragmentDescription.fragment (env : Env V) (d : FragmentDescription) (backend : Backend) :
    Fragment V where
  id := some d.id
  dataspace := d.space
  backend := some backend
  buf := none
  ownsBuf := false
  elements := d.space.elementCount
  bytes := d.space.totalBytes
  actualBytes := d.actualBytes
  status := .notLoaded
  stored := some (env.storage d.id)
  freed := false

namespace Dataset

/-- `esdmI_create_fragment_from_metadata`: the fragment of the described shape, which may be one
that the table has already.  `none` for `ESDM_INVALID_DATA_ERROR`. -/
def createFragmentFromMetadata (env : Env V) (ds : Dataset V) (json : Json) :
    Dataset V × Option ℕ :=
  match FragmentDescription.parse ds.dataspace json with
  | none => (ds, none)
  | some d =>
    match ds.lookupFragmentForShape d.space with
    | some r => (ds, some r)
    | none =>
      match getBackend env d.pid with
      | none => (ds, none)
      | some backend =>
        ({ ds with fragments := ds.fragments ++ [d.fragment env backend] },
          some ds.fragments.length)

/-- `esdm_fragment_destroy` -/
def fragmentDestroy (ds : Dataset V) (r : ℕ) : Outcome (Dataset V) := do
  let f ← ds.fragment r
  return ds.setFragment r { f with freed := true }

/-- Describe the fragments at the given entries of the table. -/
def describe (ds : Dataset V) : List (Hypercube × ℕ) → Outcome (List Json)
  | [] => .ok []
  | (_, r) :: entries => do
    let f ← ds.fragment r
    let json ← f.metadataCreate
    let rest ← ds.describe entries
    return json :: rest

/-- `esdmI_fragments_metadata_create` -/
def fragmentsMetadataCreate (env : Env V) (ds : Dataset V) : Outcome (List Json) :=
  ds.describe (env.order ds.table)

/-- The loop that both readers of fragment lists have: create the fragment, add it to the table,
and destroy it if the table has one of its shape already.  `accept` and `reject` are what they do
about a new fragment and about a description that is not well formed. -/
def absorbFragments (env : Env V) (accept : Dataset V → Fragment V → Dataset V)
    (reject : Dataset V → Outcome (Dataset V)) : List Json → Dataset V → Outcome (Dataset V)
  | [], ds => .ok ds
  | json :: rest, ds =>
    match ds.createFragmentFromMetadata env json with
    | (ds, none) => do
      let ds ← reject ds
      absorbFragments env accept reject rest ds
    | (ds, some r) => do
      let (status, ds) ← ds.fragmentsAdd r
      if status = .invalidStateError then
        let ds ← ds.fragmentDestroy r
        absorbFragments env accept reject rest ds
      else
        let f ← ds.fragment r
        absorbFragments env accept reject rest (accept ds f)

/-- The loop over the fragments in `esdm_dataset_open_md_parse`: a description that is not well
formed is skipped. -/
def openFragments (env : Env V) : List Json → Dataset V → Outcome (Dataset V) :=
  absorbFragments env (fun ds f => ds.updateActualSize f.dataspace) fun ds => .ok ds

/-- The loop over a rank's fragments in `esdm_mpi_dataset_commit`: a description that is not well
formed ends in `MPI_Abort()`. -/
def receiveFragments (env : Env V) : List Json → Dataset V → Outcome (Dataset V) :=
  absorbFragments env (fun ds _ => ds) fun _ => .error .abort

end Dataset

end Esdm
