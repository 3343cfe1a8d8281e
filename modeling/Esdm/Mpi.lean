import Esdm.GridJson

/-!
# Collective commits

`esdm_mpi_dataset_commit` and `esdm_mpi_grid_commit`, as rank 0 sees them: what the other ranks
send arrives in some order.  The dataset's metadata is modelled by the part that describes its
fragments and grids.
-/

namespace Esdm

variable {V : Type}

/-- What the metadata backend stores for a dataset. -/
structure Metadata where
  fragments : List Json
  grids : List Json

namespace Dataset

/-- Describe the grids one after another. -/
def serializeGrids (env : Env V) : List ℕ → Dataset V → Outcome (Dataset V × List Json)
  | [], ds => .ok (ds, [])
  | g :: grids, ds => do
    let (ds, json) ← gridSerialize env ds.gridHeap.length g ds
    let (ds, rest) ← serializeGrids env grids ds
    return (ds, json :: rest)

/-- `esdmI_dataset_metadata_create` -/
def metadataCreate (env : Env V) (ds : Dataset V) : Outcome (Dataset V × Metadata) := do
  let fragments ← ds.fragmentsMetadataCreate env
  let (ds, grids) ← serializeGrids env (ds.grids.take ds.gridCount) ds
  return (ds, ⟨fragments, grids⟩)

/-- `esdm_dataset_commit`, with what is stored before and after. -/
def commit (env : Env V) (ds : Dataset V) (stored : Option Metadata) :
    Outcome (Dataset V × Option Metadata) := do
  if ds.status ≠ .dirty then return (ds, stored)
  else
    let (ds, metadata) ← { ds with status := .persistent }.metadataCreate env
    return (ds, some metadata)

/-- The loop over the ranks in `esdm_mpi_dataset_commit`, in the order of arrival. -/
def receiveRanks (env : Env V) : List (List Json) → Dataset V → Outcome (Dataset V)
  | [], ds => .ok ds
  | fragments :: ranks, ds => do
    let ds ← receiveFragments env fragments ds
    receiveRanks env ranks ds

/-- `esdm_mpi_dataset_commit` on rank 0 -/
def mpiDatasetCommit (env : Env V) (ds : Dataset V) (ranks : List (List Json))
    (stored : Option Metadata) : Outcome (Dataset V × Option Metadata) := do
  let ds ← receiveRanks env ranks ds
  ds.commit env stored

/-- `esdm_mpi_grid_commit` on rank 0 -/
def mpiGridCommit (env : Env V) (g : ℕ) : List Json → Dataset V → Outcome (Status × Dataset V)
  | [], ds => .ok (.success, ds)
  | json :: ranks, ds => do
    match ← gridMergeWithString env g json ds with
    | (.success, ds) => mpiGridCommit env g ranks ds
    | (status, ds) => return (status, ds)

/-- The grids of a dataset that is opened, from the given index on, and whether all of them could be
re-created.  Each is registered as it is re-created, and then put at its index once more. -/
def openGrids (env : Env V) : ℕ → List Json → Dataset V → Outcome (Dataset V × Bool)
  | _, [], ds => .ok (ds, true)
  | i, json :: grids, ds => do
    match ← gridCreateFromString env json ds with
    | (ds, none) => return (ds, false)
    | (ds, some g) => openGrids env (i + 1) grids { ds with grids := ds.grids.set i g }

/-- `esdm_dataset_open_md_parse`, for a dataset with the given dataspace and fill value. -/
def openMdParse (env : Env V) (dataspace : Dataspace) (fillValue : Option V)
    (metadata : Metadata) : Outcome (Option (Dataset V)) := do
  let ds ← openFragments env metadata.fragments (init dataspace fillValue)
  match ← openGrids env 0 metadata.grids ds with
  | (_, false) => return none
  | (ds, true) => return some { ds with status := .persistent }

end Dataset

end Esdm
