import Esdm.Description
import Esdm.Lib.Machine
import Esdm.System

/-!
# Dirty tracking

A loaded dataset, and its description as the metadata backend has stored it last.  The calls change
what would be stored now; whether the dataset's status says so is what decides if
`esdm_dataset_commit` stores it.
-/

namespace Esdm

variable {V A : Type}

/-- A dataset, and what the metadata backend has stored for it. -/
structure Tracked (V A : Type) where
  object : DatasetObject V A
  stored : Option (Description V A)

namespace Tracked

/-- The calls, with what the backends do during a call that moves data, and with what the metadata
backend's `dataset_commit` returns. -/
inductive Op (V A : Type)
  | write (env : Env V) (space : Memspace) (buf : Mem V)
  | writeGrid (env : Env V) (g : ℕ) (space : Memspace) (buf : Mem V)
  | readGrid (env : Env V) (g : ℕ) (space : Memspace) (buf : Mem V)
  | linkAttribute (overwrite : Bool) (name : String) (value : A)
  | deleteAttribute (name : String)
  | setFillValue (value : Option V)
  | nameDims (names : List (Option String))
  | renameDim (name : String) (i : ℕ)
  | commit (ret : Status)

/-- A call that moves data. -/
def call (s : Tracked V A) (c : Call V) : Outcome (Status × Tracked V A) := do
  let result ← s.object.toDataset.step c
  return (result.status, { s with object := { s.object with toDataset := result.dataset } })

/-- A call that stores nothing. -/
def change (s : Tracked V A) (x : Outcome (Status × DatasetObject V A)) :
    Outcome (Status × Tracked V A) := do
  let (status, object) ← x
  return (status, { s with object := object })

/-- One call.  `env` says in which order the hash table has its entries. -/
def step (env : Env V) (s : Tracked V A) : Op V A → Outcome (Status × Tracked V A)
  | .write env' space buf => s.call ⟨env', .write space buf⟩
  | .writeGrid env' g space buf => s.call ⟨env', .writeGrid g space buf⟩
  | .readGrid env' g space buf => s.call ⟨env', .readGrid g space buf⟩
  | .linkAttribute overwrite name value => s.change (s.object.linkAttribute overwrite name value)
  | .deleteAttribute name => s.change (s.object.deleteAttribute name)
  | .setFillValue value => s.change (.ok (.success, s.object.setFillValue value))
  | .nameDims names => s.change (s.object.nameDims names)
  | .renameDim name i => s.change (s.object.renameDim name i)
  | .commit ret => do
    let (status, object, stored) ← s.object.commit env ret s.stored
    return (status, ⟨object, stored⟩)

def machine (env : Env V) : Machine (Tracked V A) (Op V A) (Status × Tracked V A) Fault :=
  ⟨step env, Prod.snd⟩

end Tracked

end Esdm
