import Esdm.Mpi

/-!
# The calls of one process

A dataset with its grids as a state machine: each call of the API takes it from one state to the
next, in the environment of the call.  When a call returns, its user's buffer is no longer the
library's to use.
-/

namespace Esdm

variable {V : Type}

/-- The calls, with their arguments. -/
inductive Op (V : Type)
  | write (space : Memspace) (buf : Mem V)
  | read (space : Memspace) (buf : Mem V)
  | setFillValue (value : Option V)
  | gridCreate (dim : List Dim)
  | gridCreateSubgrid (g : ℕ) (index : List ℤ)
  | gridSubdivideFixed (g : ℕ) (dim size : ℤ) (allowIncomplete : Bool)
  | gridSubdivideFlexible (g : ℕ) (dim count : ℤ)
  | gridSubdivide (g : ℕ) (dim : ℤ) (bounds : List ℤ)
  | gridSerialize (g : ℕ)
  | writeGrid (g : ℕ) (space : Memspace) (buf : Mem V)
  | readGrid (g : ℕ) (space : Memspace) (buf : Mem V)

/-- A call, with all that it takes from outside. -/
structure Call (V : Type) where
  env : Env V
  op : Op V

/-- What a call returns: its status, what it has put into its user's buffer if it reads, and the
dataset. -/
structure Result (V : Type) where
  status : Status
  buffer : Option (Mem V)
  dataset : Dataset V

/-- The user's buffer stays behind. -/
def Fragment.leave (f : Fragment V) : Fragment V :=
  match f.buf with
  | some (.user _) => { f with buf := some .stale }
  | _ => f

namespace Dataset

/-- The call returns. -/
def leave (ds : Dataset V) : Dataset V := { ds with fragments := ds.fragments.map Fragment.leave }

/-- The end of a call that does not read. -/
def returns (x : Outcome (Status × Dataset V)) : Outcome (Result V) := do
  let (status, ds) ← x
  return ⟨status, none, ds.leave⟩

/-- The end of a call that reads. -/
def returnsBuffer (x : Outcome (Status × Mem V × Dataset V)) : Outcome (Result V) := do
  let (status, buffer, ds) ← x
  return ⟨status, some buffer, ds.leave⟩

/-- One call.  Memspaces and indices have the dataset's rank. -/
def step (ds : Dataset V) (c : Call V) : Outcome (Result V) :=
  match c.op with
  | .write space buf => do
    eassert .dims (space.dims = ds.dims)
    returns (ds.writeBlocking c.env buf space.toDataspace)
  | .read space buf => do
    eassert .dims (space.dims = ds.dims)
    returnsBuffer (ds.readBlocking c.env buf space.toDataspace true)
  | .setFillValue value => returns (.ok (.success, { ds with fillValue := value }))
  | .gridCreate dim => returns (ds.gridCreate dim)
  | .gridCreateSubgrid g index => do
    eassert .dims (index.length = ds.dims)
    returns (ds.gridCreateSubgrid g index)
  | .gridSubdivideFixed g dim size allowIncomplete =>
    returns (ds.gridSubdivideFixed g dim size allowIncomplete)
  | .gridSubdivideFlexible g dim count => returns (ds.gridSubdivideFlexible g dim count)
  | .gridSubdivide g dim bounds => returns (ds.gridSubdivide g dim bounds)
  | .gridSerialize g => do
    let (ds, _) ← gridSerialize c.env ds.gridHeap.length g ds
    returns (.ok (.success, ds))
  | .writeGrid g space buf => do
    eassert .dims (space.dims = ds.dims)
    returns (ds.writeGrid c.env g buf space.toDataspace)
  | .readGrid g space buf => do
    eassert .dims (space.dims = ds.dims)
    returnsBuffer (ds.readGrid c.env g buf space.toDataspace)

/-- One call after another, as long as they return. -/
def run : Dataset V → List (Call V) → Outcome (Dataset V)
  | ds, [] => .ok ds
  | ds, c :: calls => do
    let result ← ds.step c
    run result.dataset calls

/-- Something holds of each of the calls, as long as they return. -/
def EachStep (Q : Dataset V → Call V → Result V → Prop) : Dataset V → List (Call V) → Prop
  | _, [] => True
  | ds, c :: calls => ∀ result, ds.step c = .ok result → Q ds c result ∧
    EachStep Q result.dataset calls

end Dataset

end Esdm
