import Esdm.Lib.Heap
import Esdm.Description

/-!
# The memory of the dimension names

`dims_dset_id` is one block of memory: an array of pointers, and behind it the strings to which they
point.  `esdm_dataset_rename_dim` writes the pointer that it is given into the array and passes the
array to `esdm_dataset_name_dims`, which reads the names through it and replaces it.  So what
becomes of the names depends on where the pointers point to, which `DatasetObject` leaves out.
-/

namespace Esdm

/-- Where a string is: the block, and which of its strings. -/
structure StrPtr where
  block : ℕ
  place : ℕ
  deriving DecidableEq

/-- A block of memory: pointers at its start, strings behind them.  A block of the caller may have
no pointers. -/
structure NameBlock where
  ptrs : List StrPtr
  strs : List String

/-- The string that a pointer points to. -/
def readString (heap : Heap NameBlock) (p : StrPtr) : Option String :=
  (heap.get? p.block).bind fun block => block.strs[p.place]?

/-- A pointer of an array. -/
def readPtr (heap : Heap NameBlock) (names i : ℕ) : Option StrPtr :=
  (heap.get? names).bind fun block => block.ptrs[i]?

/-- `free()` -/
def freeBlock (heap : Heap NameBlock) (b : ℕ) : Outcome (Heap NameBlock) := do
  let _ ← access (heap.get? b)
  return heap.free b

/-- `esdm_dataset_t` and the memory in which the names of its dimensions are. -/
structure NamedDataset (V : Type) extends Dataset V where
  heap : Heap NameBlock
  dimsDsetId : Option ℕ

namespace NamedDataset

variable {V : Type}

/-- The block in which `esdm_dataset_name_dims` puts the given names: `posVar` is at one of the
strings after the other. -/
def ownBlock (heap : Heap NameBlock) (names : List String) : NameBlock :=
  ⟨(List.range names.length).map (StrPtr.mk heap.fresh), names⟩

/-- `esdm_dataset_name_dims`.  The second loop reads the strings that the first one has read, as the
new block is none of theirs; the old block is freed after that. -/
def nameDims (d : NamedDataset V) (names : ℕ) : Outcome (Status × NamedDataset V) := do
  let strings := (List.range d.dims).map fun i => readPtr d.heap names i >>= readString d.heap
  match ← validNames strings with
  | none => return (.error, d)
  | some strings =>
    let heap := d.heap.alloc (ownBlock d.heap strings)
    let heap ← match d.dimsDsetId with
      | none => .ok heap
      | some old => freeBlock heap old
    return (.success, { d with heap, dimsDsetId := some d.heap.fresh, status := .dirty })

/-- `esdm_dataset_rename_dim` -/
def renameDim (d : NamedDataset V) (name : StrPtr) (i : ℕ) :
    Outcome (Status × NamedDataset V) := do
  eassert .dimIndex (i < d.dims)
  let names ← access d.dimsDsetId
  let block ← access (d.heap.get? names)
  let _ ← access block.ptrs[i]?
  nameDims { d with heap := d.heap.set names { block with ptrs := block.ptrs.set i name } } names

end NamedDataset

end Esdm
