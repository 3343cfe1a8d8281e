import Esdm.Session

/-!
# The handles of a process

A process gets handles of containers and of the datasets in them, and gives them back.  Beside each
container is the account of that: whether the container's own handle has been released, and how
often the handle of each dataset has been obtained and not been released.
-/

namespace Esdm

variable {V A : Type}

structure Handles (V A : Type) where
  container : Container V A
  /-- the container's handle has not been released -/
  isOpen : Bool
  /-- the handles of the datasets that have not been released -/
  held : ℕ → ℕ

namespace Handles

/-- The calls on a container and its datasets, with what the metadata backend returns. -/
inductive Call (V A : Type)
  | close
  | datasetCreate (name : String) (dataspace : Dataspace) (created : Status) (id : String)
  | datasetOpen (name : String) (retrieved : Status) (description : Description V A)
  | datasetRef (d : ℕ) (retrieved : Status) (description : Description V A)
  | datasetClose (d : ℕ)

/-- The account after a call that yields a handle of the dataset, if it succeeds. -/
def obtained (h : Handles V A) (status : Status) (d : ℕ) (c : Container V A) : Handles V A :=
  { h with
    container := c
    held := if status = .success then Function.update h.held d (h.held d + 1) else h.held }

/-- One call, with the account. -/
def step (h : Handles V A) (env : Env V) : Call V A → Except Failure (Status × Handles V A)
  | .close => do
    let (status, c) ← h.container.close env
    return (status, { h with container := c, isOpen := status ≠ .success })
  | .datasetCreate name dataspace created id => do
    let (status, c) ← h.container.datasetCreate name dataspace created id
    return (status, h.obtained status h.container.members.length c)
  | .datasetOpen name retrieved description => do
    let (_, d) ← h.container.datasetByName name
    let (status, c) ← h.container.datasetOpen env name retrieved description
    return (status, h.obtained status (d.getD 0) c)
  | .datasetRef d retrieved description => do
    let (status, c) ← h.container.datasetRef env d retrieved description
    return (status, h.obtained status d c)
  | .datasetClose d => do
    let (status, c) ← h.container.datasetClose env d
    return (status, { h with container := c, held := Function.update h.held d (h.held d - 1) })

/-- A container that has been created or opened. -/
def new (c : Container V A) : Handles V A := ⟨c, true, fun _ => 0⟩

end Handles

/-- The containers that a process has created or opened. -/
abbrev Process (V A : Type) := List (Handles V A)

namespace Process

/-- The calls of a process.  A container that is opened has the given references to datasets. -/
inductive Op (V A : Type)
  | containerCreate (created : Status)
  | containerOpen (retrieved : Status) (references : List (String × String))
  | call (i : ℕ) (env : Env V) (call : Handles.Call V A)

/-- `esdm_container_create` and `esdm_container_open` yield a container if they succeed. -/
def step (p : Process V A) : Op V A → Except Failure (Status × Process V A)
  | .containerCreate created =>
    .ok (created, if created = .success then p ++ [.new .init] else p)
  | .containerOpen retrieved references =>
    .ok (retrieved, if retrieved = .success then p ++ [.new (.openMdParse references)] else p)
  | .call i env call => do
    let h ← (access p[i]?).within
    let (status, h) ← h.step env call
    return (status, p.set i h)

def machine : Machine (Process V A) (Op V A) (Status × Process V A) Failure := ⟨step, Prod.snd⟩

end Process

end Esdm
