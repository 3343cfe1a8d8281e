import Esdm.Container
import Esdm.Stream
import Esdm.System

/-!
# The work of a process on a container

A process creates a container or opens one, and then creates, opens and closes datasets in it, calls
the API on the open ones, has write streams on them and, as rank 0, collects the fragments of the
other ranks.
-/

namespace Esdm

variable {V A : Type}

/-- `esdm_dataset_get_actual_size`: the sizes of the dimensions, in the array that it returns. -/
def Dataset.getActualSize (ds : Dataset V) : List ℤ :=
  (ds.actualSize.getD (ds.dataspace.dim.map Dim.size)).take ds.dims

/-- `esdmI_create_dataset_from_metadata`: there is no dataspace until the dataset is opened. -/
def DatasetObject.unloaded (id : String) : DatasetObject V A :=
  { init (.createFull [] (.basic .int64)) id with status := .notLoaded }

/-- `esdm_container_open_md_parse`, of the names and the ids of the datasets. -/
def Container.openMdParse (references : List (String × String)) : Container V A where
  status := .persistent
  refcount := 1
  members := references.map fun (name, id) => ⟨.unloaded id, name, 0, false, false⟩
  dsets := List.range references.length
  freed := false

/-- A container, and the write streams with the datasets that they write to. -/
structure Session (V A : Type) where
  container : Container V A
  streams : List (ℕ × Stream.Wstream)

namespace Session

/-- The container is new, or stored with references to its datasets. -/
def start : Option (List (String × String)) → Session V A
  | none => ⟨.init, []⟩
  | some references => ⟨.openMdParse references, []⟩

/-- The calls, with what the backends return. -/
inductive Op (V A : Type)
  | create (name : String) (dataspace : Dataspace) (created : Status) (id : String)
  | open (env : Env V) (name : String) (retrieved : Status) (description : Description V A)
  | close (env : Env V) (d : ℕ)
  | call (d : ℕ) (call : Call V)
  | streamCreate (d : ℕ) (backend : Backend) (maxChunkSize : ℤ) (dim : List Dim) (type : ElemType)
  | streamFlush (i : ℕ) (bytes : ℤ)
  | mpiDatasetCommit (env : Env V) (d : ℕ) (ranks : List (List Json))

/-- A dataset is used, which has been opened. -/
def dataset (s : Session V A) (d : ℕ) : Except Failure (Member V A) := do
  let m ← s.container.member d
  Container.checkTable d m
  if m.status = .notLoaded then .error (.fault .undefined) else return m

def setDataset (s : Session V A) (d : ℕ) (m : Member V A) (ds : Dataset V) : Session V A :=
  { s with container := s.container.setMember d { m with toDataset := ds } }

/-- One call.  A stream on a dataset that has come to have another rank would overrun its arrays. -/
def step (s : Session V A) : Op V A → Except Failure (Session V A)
  | .create name dataspace created id => do
    let (_, container) ← s.container.datasetCreate name dataspace created id
    return { s with container := container }
  | .open env name retrieved description => do
    let (_, container) ← s.container.datasetOpen env name retrieved description
    return { s with container := container }
  | .close env d => do
    let (_, container) ← s.container.datasetClose env d
    return { s with container := container }
  | .call d call => do
    let m ← s.dataset d
    let result ← (m.toDataset.step call).within
    return s.setDataset d m result.dataset
  | .streamCreate d backend maxChunkSize dim type => do
    let m ← s.dataset d
    let (w, ds) ← (Stream.metadataCreate m.toDataset backend maxChunkSize dim type).within
    return { s.setDataset d m ds with streams := s.streams ++ [(d, w)] }
  | .streamFlush i bytes => do
    let (d, w) ← (access s.streams[i]?).within
    let m ← s.dataset d
    if w.dataspace.dims ≠ m.dims then .error (.fault .undefined)
    else
      let (_, w, ds) ← (Stream.flush m.toDataset w bytes).within
      return { s.setDataset d m ds with streams := s.streams.set i (d, w) }
  | .mpiDatasetCommit env d ranks => do
    let m ← s.dataset d
    let (ds, _) ← (m.toDataset.mpiDatasetCommit env ranks none).within
    return s.setDataset d m ds

def machine : Machine (Session V A) (Op V A) (Session V A) Failure := ⟨step, id⟩

end Session

end Esdm
