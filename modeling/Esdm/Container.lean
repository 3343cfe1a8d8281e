import Esdm.Lib.Machine
import Esdm.Description

/-!
# Containers

The container of `esdm-datatypes.c`: the list of its datasets, which are found by their names, and
the reference counts of the datasets and of the container.  Datasets are the entries of a heap that
only grows, and the handles of the user are indices into it.

A fragment table can be destructed while its dataset lives on.  To use it after that is a failure of
its own, which says whose table it is.
-/

namespace Esdm

/-- Why a call does not return, where tables may be gone. -/
inductive Failure
  | fault (f : Fault)
  /-- GLib is handed the table of this dataset after `g_hash_table_destroy()` -/
  | destructedTable (d : ℕ)
  deriving DecidableEq, Repr

/-- What does not use a table of which it matters whether it is there. -/
def Outcome.within {α : Type} (x : Outcome α) : Except Failure α := x.mapError .fault

variable {V A : Type}

/-- `esdm_dataset_t`, as its container knows it -/
structure Member (V A : Type) extends DatasetObject V A where
  name : String
  refcount : ℕ
  /-- `esdmI_fragments_destruct()` has been called -/
  destructed : Bool
  /-- `esdmI_dataset_destroy()` has been called -/
  freed : Bool

/-- `esdm_container_t` -/
structure Container (V A : Type) where
  status : DataStatus
  refcount : ℕ
  /-- the datasets that have been allocated -/
  members : List (Member V A)
  /-- `dsets` -/
  dsets : List ℕ
  /-- `esdmI_container_destroy()` has been called -/
  freed : Bool

section Fragments

namespace Dataset

/-- What GLib does about the values that leave the table, `esdmI_fragments_deallocateValue`. -/
def destroyFragments : List (Hypercube × ℕ) → Dataset V → Outcome (Dataset V)
  | [], ds => .ok ds
  | (_, r) :: entries, ds => do
    let f ← ds.fragment r
    let ds ← ds.fragmentDestroy r
    eassert .fragmentClean (f.status ≠ .dirty)
    destroyFragments entries ds

/-- The table is emptied. -/
def removeFragments (env : Env V) (ds : Dataset V) : Outcome (Dataset V) := do
  let ds ← ds.destroyFragments (env.order ds.table)
  return { ds with table := [] }

/-- The loop of `esdmI_fragments_deleteAll`: each fragment is deleted by its backend, which returns
the given status, and leaves the table if that is a success.  The first failure is returned. -/
def deleteFragments (deleted : Hypercube → Status) :
    List (Hypercube × ℕ) → Dataset V → Outcome (Status × Dataset V)
  | [], ds => .ok (.success, ds)
  | (shape, r) :: entries, ds => do
    let f ← ds.fragment r
    let _ ← access f.backend
    if deleted shape = .success then
      let ds ← ds.destroyFragments [(shape, r)]
      deleteFragments deleted entries { ds with table := ds.table.erase (shape, r) }
    else
      let (_, ds) ← deleteFragments deleted entries ds
      return (deleted shape, ds)

/-- `esdmI_fragments_deleteAll` -/
def deleteAll (env : Env V) (deleted : Hypercube → Status) (ds : Dataset V) :
    Outcome (Status × Dataset V) :=
  ds.deleteFragments deleted (env.order ds.table)

end Dataset

end Fragments

namespace Container

/-- `esdmI_container_init` -/
def init : Container V A where
  status := .dirty
  refcount := 1
  members := []
  dsets := []
  freed := false

/-- Follow a pointer to a dataset. -/
def member (c : Container V A) (d : ℕ) : Except Failure (Member V A) := do
  let m ← (access c.members[d]?).within
  if m.freed then .error (.fault .undefined) else return m

def setMember (c : Container V A) (d : ℕ) (m : Member V A) : Container V A :=
  { c with members := c.members.set d m }

section Names

/-- The first of the datasets that has the name. -/
def findName (c : Container V A) (name : String) : List ℕ → Except Failure (Option ℕ)
  | [] => .ok none
  | d :: dsets => do
    let m ← c.member d
    if m.name = name then return some d else c.findName name dsets

/-- `esdm_container_dataset_exists` -/
def datasetExists (c : Container V A) (name : String) : Except Failure Bool := do
  let d ← c.findName name c.dsets
  return d.isSome

/-- `esdm_dataset_by_name` -/
def datasetByName (c : Container V A) (name : String) : Except Failure (Status × Option ℕ) := do
  if name = "" then return (.invalidArgumentError, none)
  else
    match ← c.findName name c.dsets with
    | none => return (.error, none)
    | some d => return (.success, some d)

/-- `esdm_dataset_create`; the metadata backend's `dataset_create` returns the given status, and
gives the dataset its id. -/
def datasetCreate (c : Container V A) (name : String) (dataspace : Dataspace) (created : Status)
    (id : String) : Except Failure (Status × Container V A) := do
  (eassert .datasetName (name ≠ "")).within
  if isValidDatasetName name = false then return (.error, c)
  else if ← c.datasetExists name then return (.error, c)
  else if created ≠ .success then return (created, c)
  else
    let m : Member V A := ⟨.init dataspace id, name, 1, false, false⟩
    return (.success, { c with
      members := c.members ++ [m], dsets := c.dsets ++ [c.members.length], status := .dirty })

/-- `esdm_dataset_rename` -/
def datasetRename (c : Container V A) (d : ℕ) (name : String) :
    Except Failure (Status × Container V A) := do
  if ← c.datasetExists name then return (.error, c)
  else
    let m ← c.member d
    return (.success, { c.setMember d { m with name := name } with status := .dirty })

/-- `esdm_dataset_change_name` -/
def datasetChangeName (c : Container V A) (d : ℕ) (name : String) :
    Except Failure (Status × Container V A) := do
  let m ← c.member d
  return (.success, c.setMember d { m with name := name, status := .dirty })

/-- What `esdmI_datasets_reference_metadata_create` says about the datasets: their names and ids. -/
def references (c : Container V A) : List ℕ → Except Failure (List (String × String))
  | [] => .ok []
  | d :: dsets => do
    let m ← c.member d
    let rest ← c.references dsets
    return (m.name, m.id) :: rest

/-- How it prints a name and an id, which are not escaped. -/
def printReference (reference : String × String) : String :=
  "\x7b\"name\":\"" ++ reference.1 ++ "\",\"id\":\"" ++ reference.2 ++ "\"\x7d"

/-- `esdmI_datasets_reference_metadata_create` -/
def referenceMetadataCreate (c : Container V A) : Except Failure String := do
  let list ← c.references c.dsets
  return "[" ++ ",\n".intercalate (list.map printReference) ++ "]"

end Names

section References

/-- The table of a dataset is used. -/
def checkTable (d : ℕ) (m : Member V A) : Except Failure Unit :=
  if m.destructed then .error (.destructedTable d) else .ok ()

/-- `esdm_dataset_ref`; the metadata backend's `dataset_retrieve` returns the given status, and the
description if that is a success. -/
def datasetRef (env : Env V) (c : Container V A) (d : ℕ) (retrieved : Status)
    (description : Description V A) : Except Failure (Status × Container V A) := do
  let m ← c.member d
  if m.status ≠ .notLoaded then
    return (.success, c.setMember d { m with refcount := m.refcount + 1 })
  else if retrieved ≠ .success then return (retrieved, c)
  else
    checkTable d m
    let (status, object, marked) ← (m.toDatasetObject.openMdParse env description).within
    let c := { c with status := if marked then .dirty else c.status }
    if status = .success then
      return (status, c.setMember d { m with
        toDatasetObject := object, refcount := m.refcount + 1 })
    else return (status, c.setMember d { m with toDatasetObject := object })

/-- `esdm_dataset_open` -/
def datasetOpen (env : Env V) (c : Container V A) (name : String) (retrieved : Status)
    (description : Description V A) : Except Failure (Status × Container V A) := do
  match ← c.datasetByName name with
  | (.success, some d) => c.datasetRef env d retrieved description
  | (status, _) => return (status, c)

/-- `esdmI_fragments_purge` -/
def purge (env : Env V) (d : ℕ) (m : Member V A) : Except Failure (Member V A) := do
  checkTable d m
  let ds ← (m.removeFragments env).within
  return { m with toDataset := ds }

/-- `esdmI_fragments_destruct` -/
def destruct (env : Env V) (d : ℕ) (m : Member V A) : Except Failure (Member V A) := do
  let m ← purge env d m
  return { m with destructed := true }

/-- `esdm_dataset_close` -/
def datasetClose (env : Env V) (c : Container V A) (d : ℕ) :
    Except Failure (Status × Container V A) := do
  let m ← c.member d
  (eassert .datasetLoaded (m.status ≠ .notLoaded)).within
  (eassert .datasetRefcount (m.refcount > 0)).within
  let m := { m with refcount := m.refcount - 1 }
  if m.refcount ≠ 0 ∨ m.status = .dirty then return (.success, c.setMember d m)
  else
    let m ← purge env d { m with status := .notLoaded, attr := none }
    return (.success, c.setMember d m)

/-- `esdmI_dataset_destroy` -/
def datasetDestroy (env : Env V) (c : Container V A) (d : ℕ) :
    Except Failure (Container V A) := do
  let m ← c.member d
  let m ← destruct env d m
  return c.setMember d { m with freed := true }

/-- What the backends return when a dataset is deleted. -/
structure Deletion (V A : Type) where
  /-- `dataset_retrieve`, of a dataset that is not loaded -/
  retrieved : Status
  description : Description V A
  /-- `fragment_delete`, by the shape of the fragment -/
  deleted : Hypercube → Status
  /-- `dataset_remove` -/
  removed : Status

/-- The part of `esdm_dataset_delete` for which the dataset is loaded. -/
def deleteLoaded (env : Env V) (c : Container V A) (d : ℕ) (answers : Deletion V A) :
    Except Failure (Status × Container V A) := do
  let m ← c.member d
  checkTable d m
  let (status, ds) ← (m.deleteAll env answers.deleted).within
  let m := { m with toDataset := ds }
  if status ≠ .success then return (status, c.setMember d m)
  else
    let m ← destruct env d m
    let (_, c) ← (c.setMember d { m with status := .deleted }).datasetClose env d
    return (answers.removed, c)

/-- `esdm_dataset_delete` -/
def datasetDelete (env : Env V) (c : Container V A) (d : ℕ) (answers : Deletion V A) :
    Except Failure (Status × Container V A) := do
  let m ← c.member d
  (eassert .datasetDeleted (m.status ≠ .deleted)).within
  if m.status = .notLoaded then
    let (status, c) ← c.datasetRef env d answers.retrieved answers.description
    if status ≠ .success then return (status, c) else c.deleteLoaded env d answers
  else c.deleteLoaded env d answers

end References

section Containers

/-- `esdm_dataset_commit`, of each of the datasets; the backend returns the given status. -/
def commitDatasets (env : Env V) (committed : ℕ → Status) :
    List ℕ → Container V A → Except Failure (Container V A)
  | [], c => .ok c
  | d :: dsets, c => do
    let m ← c.member d
    if m.status = .dirty then
      checkTable d m
      let (_, object, _) ← (m.toDatasetObject.commit env (committed d) none).within
      commitDatasets env committed dsets (c.setMember d { m with toDatasetObject := object })
    else commitDatasets env committed dsets c

/-- A pointer to the container is used. -/
def checkContainer (c : Container V A) : Except Failure Unit :=
  if c.freed then .error (.fault .undefined) else .ok ()

/-- `esdm_container_commit`; the backend's `container_commit` returns the given status. -/
def commit (env : Env V) (c : Container V A) (ret : Status) (committed : ℕ → Status) :
    Except Failure (Status × Container V A) := do
  c.checkContainer
  if c.status ≠ .dirty then return (.success, c)
  else
    let c := { c with status := .persistent }
    let _ ← c.referenceMetadataCreate
    let c ← commitDatasets env committed c.dsets c
    return (ret, c)

/-- The datasets that are destroyed with their container. -/
def destroyDatasets (env : Env V) : List ℕ → Container V A → Except Failure (Container V A)
  | [], c => .ok c
  | d :: dsets, c => do
    let m ← c.member d
    if m.refcount ≤ 1 then
      let c ← c.datasetDestroy env d
      destroyDatasets env dsets c
    else destroyDatasets env dsets c

/-- Whether a dataset is still open. -/
def anyOpen (c : Container V A) : List ℕ → Except Failure Bool
  | [] => .ok false
  | d :: dsets => do
    let m ← c.member d
    let rest ← c.anyOpen dsets
    return m.refcount ≠ 0 || rest

/-- `esdm_container_close` -/
def close (env : Env V) (c : Container V A) : Except Failure (Status × Container V A) := do
  c.checkContainer
  if c.status = .notLoaded then return (.success, c)
  else
    (eassert .containerRefcount (c.refcount > 0)).within
    let c := { c with refcount := c.refcount - 1 }
    if c.refcount > 0 then return (.success, c)
    else if ← c.anyOpen c.dsets then return (.error, c)
    else
      let c ← destroyDatasets env c.dsets { c with status := .notLoaded }
      return (.success, { c with freed := true })

end Containers

section Calls

/-- The calls of one process on a container, with what the metadata backend returns. -/
inductive Op (V A : Type)
  | create (name : String) (dataspace : Dataspace) (created : Status) (id : String)
  | rename (d : ℕ) (name : String)
  | changeName (d : ℕ) (name : String)
  | open (name : String) (retrieved : Status) (description : Description V A)
  | close (d : ℕ)

/-- A call, with the rest that it takes from outside. -/
structure Call (V A : Type) where
  env : Env V
  op : Op V A

/-- One call. -/
def step (c : Container V A) (call : Call V A) : Except Failure (Status × Container V A) :=
  match call.op with
  | .create name dataspace created id => c.datasetCreate name dataspace created id
  | .rename d name => c.datasetRename d name
  | .changeName d name => c.datasetChangeName d name
  | .open name retrieved description => c.datasetOpen call.env name retrieved description
  | .close d => c.datasetClose call.env d

def machine : Machine (Container V A) (Call V A) (Status × Container V A) Failure :=
  ⟨step, Prod.snd⟩

/-- The calls that end the use of a container and its datasets. -/
inductive Ending
  | datasetClose (d : ℕ)
  | commit (ret : Status) (committed : ℕ → Status)
  | close

def stepEnding (c : Container V A) (call : Env V × Ending) :
    Except Failure (Status × Container V A) :=
  match call.2 with
  | .datasetClose d => c.datasetClose call.1 d
  | .commit ret committed => c.commit call.1 ret committed
  | .close => c.close call.1

def endings : Machine (Container V A) (Env V × Ending) (Status × Container V A) Failure :=
  ⟨stepEnding, Prod.snd⟩

end Calls

end Container

end Esdm
