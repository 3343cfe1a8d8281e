import Mathlib.Data.List.Forall2
import Mathlib.Tactic.Common

/-!
# Return codes, and the calls that do not return

A call of the library ends in one of three ways: it returns an `esdm_status`, it aborts in a
failed `eassert`, or it does something the language leaves undefined.  The last two are faults;
what a fault leaves behind is not part of the model.
-/

namespace Esdm

/-- `esdm_status` -/
inductive Status
  | success
  | error
  | invalidArgumentError
  | invalidStateError
  | invalidDataError
  | invalidPermissions
  | incompleteData
  | dirtyDataError
  | deletedDataError
  deriving DecidableEq, Repr

/-- `esdm_data_status_e` -/
inductive DataStatus
  | notLoaded
  | dirty
  | persistent
  | deleted
  deriving DecidableEq, Repr

/-- The `eassert`s a caller of the modelled functions can run into. -/
inductive Assertion
  /-- two ranks that must agree -/
  | dims
  /-- `sspace->size[i] > 0` in `esdmI_fragment_create` -/
  | fragmentSize
  /-- the fragment must end inside the dataset's dataspace -/
  | fragmentBounds
  /-- a fragment just looked up and not found must be new to the table -/
  | registerFragment
  /-- the memspace of an incomplete read must have the dataset's type -/
  | readType
  /-- a read straight into the user's buffer starts at the fragment's first element -/
  | directOffset
  /-- the factors of a balanced split lie between one and the size -/
  | splitFactors
  /-- some dimension exceeds the maximal fragment size -/
  | splitDim
  /-- there is a backend -/
  | backendCount
  /-- the bounds of the backends' ranges do not decrease -/
  | backendBounds
  /-- some backend has the largest weight -/
  | bestBackend
  /-- `grid->emptyCells > 0` in `esdmI_grid_registerCompletedCell` -/
  | emptyCells
  /-- a completed grid must be among the incomplete ones -/
  | registerCompletion
  /-- the guess of the interpolation search stays between its bounds -/
  | midIndex
  /-- the search ends with a single interval -/
  | singleInterval
  /-- a matching cell has a valid index -/
  | cellIndex
  /-- the axes enclose the region -/
  | regionInterval
  /-- `count > 0` in `esdm_grid_subdivide` -/
  | subdivideCount
  /-- `dimCount > 0` -/
  | gridDims
  /-- `grid->grid` -/
  | gridAllocated
  /-- an iterator has not been advanced past the last cell -/
  | iterator
  /-- `grid->id` -/
  | gridId
  /-- a stored fragment has an id and a backend -/
  | fragmentId
  /-- a cell holds at most one of a subgrid and a fragment -/
  | cellEntry
  /-- a child is inserted together with the child it was split from -/
  | insertChild
  /-- both of these children have the node they are inserted into as their parent -/
  | childParent
  /-- the index of a hypercube is below their number -/
  | neighbourIndex
  /-- `pendings >= 1` in `backend_thread` -/
  | pendingOps
  /-- a child is found in its parent -/
  | childPosition
  /-- a stream's fragment does not exist yet -/
  | newFragment
  /-- a stream that is flushed is not finished -/
  | streamOpen
  /-- what is flushed fits into the current fragment -/
  | streamCapacity
  /-- the dimension that is renamed is one of the dataset's -/
  | dimIndex
  /-- a dataset's name is not empty -/
  | datasetName
  /-- a dataset that is closed is loaded -/
  | datasetLoaded
  /-- `refcount > 0`, of a dataset -/
  | datasetRefcount
  /-- a dataset is deleted once -/
  | datasetDeleted
  /-- a fragment that leaves the table is not dirty -/
  | fragmentClean
  /-- a container's `refcount > 0` -/
  | containerRefcount
  /-- `cube->dims > 0` in `esdmI_hypercube_size` -/
  | cubeDims
  /-- an identifier has at least 128 random bits -/
  | randomBits
  /-- `usedRandomBytes < randomByteCount` in `ea_generate_id` -/
  | randomBytes
  deriving DecidableEq, Repr

/-- Why a call does not return. -/
inductive Fault
  | assertion (a : Assertion)
  /-- a null or dangling pointer, an index out of range, an uninitialised variable, a division by
  zero, an overflow -/
  | undefined
  /-- `malloc()` of a negative size -/
  | outOfMemory
  /-- `MPI_Abort()`, `abort()` or `exit()` -/
  | abort
  /-- the model's bound on the rounds of a loop is used up -/
  | fuel
  deriving DecidableEq, Repr

abbrev Outcome (α : Type) := Except Fault α

def eassert (a : Assertion) (p : Prop) [Decidable p] : Outcome Unit :=
  if p then .ok () else .error (.assertion a)

/-- A memory access: a fault where there is nothing to read. -/
def access {α : Type} (o : Option α) : Outcome α :=
  o.elim (.error .undefined) .ok

section Outcome

variable {α β : Type}

@[simp] theorem eassert_eq_ok {a : Assertion} {p : Prop} [Decidable p] {u : Unit} :
    eassert a p = .ok u ↔ p := by
  unfold eassert
  split_ifs with h <;> simp [h]

theorem eassert_of {a : Assertion} {p : Prop} [Decidable p] (h : p) : eassert a p = .ok () :=
  if_pos h

@[simp] theorem access_some (a : α) : access (some a) = .ok a := rfl

@[simp] theorem access_none : access (none : Option α) = .error .undefined := rfl

@[simp] theorem access_eq_ok {o : Option α} {a : α} : access o = .ok a ↔ o = some a := by
  cases o <;> simp [access]

@[simp] theorem Outcome.ok_bind (a : α) (f : α → Outcome β) : (Except.ok a >>= f) = f a := rfl

@[simp] theorem Outcome.error_bind (e : Fault) (f : α → Outcome β) :
    (Except.error e >>= f) = .error e := rfl

@[simp] theorem Outcome.pure_eq (a : α) : (pure a : Outcome α) = .ok a := rfl

/-- A sequence returns when both halves do. -/
theorem Outcome.bind_eq_ok {x : Outcome α} {f : α → Outcome β} {b : β} :
    (x >>= f) = .ok b ↔ ∃ a, x = .ok a ∧ f a = .ok b := by
  cases x with
  | error e => simp
  | ok a => simp

/-- A list is computed element by element. -/
theorem Outcome.mapM_eq_ok_iff {f : α → Outcome β} : ∀ {l : List α} {l' : List β},
    l.mapM f = .ok l' ↔ List.Forall₂ (fun a b => f a = .ok b) l l'
  | [], l' => by
    rw [List.mapM_nil, List.forall₂_nil_left_iff]
    exact ⟨fun h => (Except.ok.inj h).symm, fun h => h ▸ rfl⟩
  | a :: l, l' => by
    rw [List.mapM_cons, List.forall₂_cons_left_iff]
    simp only [Outcome.bind_eq_ok, ← mapM_eq_ok_iff]
    constructor
    · rintro ⟨b, hb, bs, hbs, h⟩
      exact ⟨b, bs, hb, hbs, (Except.ok.inj h).symm⟩
    · rintro ⟨b, bs, hb, hbs, rfl⟩
      exact ⟨b, hb, bs, hbs, rfl⟩

end Outcome

end Esdm
