import Mathlib.Data.PNat.Basic
import Esdm.Hypercube

/-!
# Dataspaces

The dataspace functions of `esdm-datatypes.c`.  A dataspace's `size` and `offset` arrays are one
list of dimensions, so they have the same length; its `stride` array may be absent, which means
that the elements lie in C order without gaps.

Positions in a buffer are counted in elements.  The source counts bytes, which is the same number
times `esdm_sizeof` of the space that describes the buffer.
-/

namespace Esdm

/-- The types `ea_converter_for_types` knows. -/
inductive BasicType
  | int8 | int16 | int32 | int64
  | uint8 | uint16 | uint32 | uint64
  | float | double
  deriving DecidableEq, Repr

def BasicType.size : BasicType → ℕ
  | int8 | uint8 => 1
  | int16 | uint16 => 2
  | int32 | uint32 | float => 4
  | int64 | uint64 | double => 8

/-- `esdm_type_t`.  Types are compared by their address, which `tag` stands for. -/
inductive ElemType
  | basic (b : BasicType)
  | derived (tag : ℕ) (size : ℕ+)
  deriving DecidableEq

/-- `esdm_sizeof` -/
def ElemType.sizeof : ElemType → ℤ
  | basic b => b.size
  | derived _ n => (n : ℕ)

/-- What a buffer holds, by element. -/
abbrev Mem (V : Type) := ℤ → V

/-- The extent of a dataspace in one dimension. -/
structure Dim where
  offset : ℤ
  size : ℤ
  deriving DecidableEq, Repr

/-- `esdm_dataspace_t` -/
structure Dataspace where
  type : ElemType
  dim : List Dim
  stride : Option (List ℤ)
  stride_length : ∀ s ∈ stride, s.length = dim.length
  deriving DecidableEq

namespace Dataspace

def dims (space : Dataspace) : ℕ := space.dim.length

/-- `esdmI_dataspace_getExtends` -/
def getExtends (space : Dataspace) : Hypercube :=
  space.dim.map fun d => ⟨d.offset, d.offset + d.size⟩

/-- `esdm_dataspace_create_full` -/
def createFull (dim : List Dim) (type : ElemType) : Dataspace where
  type := type
  dim := dim
  stride := none
  stride_length := by simp

/-- `esdmI_dataspace_createFromHypercube` -/
def createFromHypercube (cube : Hypercube) (type : ElemType) : Dataspace where
  type := type
  dim := cube.map fun r => ⟨r.start, r.size⟩
  stride := none
  stride_length := by simp

/-- `esdm_dataspace_element_count` -/
def elementCount (space : Dataspace) : ℤ := (space.dim.map Dim.size).prod

/-- `esdm_dataspace_total_bytes` -/
def totalBytes (space : Dataspace) : ℤ := space.elementCount * space.type.sizeof

/-- The strides of C order, from the last dimension to the first. -/
def contiguousStride (dim : List Dim) : List ℤ :=
  (dim.foldr (fun d (acc : List ℤ × ℤ) => (acc.2 :: acc.1, acc.2 * d.size)) ([], 1)).1

/-- `esdm_dataspace_getEffectiveStride` -/
def getEffectiveStride (space : Dataspace) : List ℤ :=
  space.stride.getD (contiguousStride space.dim)

/-- The position of a point relative to the first one. -/
def linearIndex : List Dim → List ℤ → List ℤ → ℤ
  | d :: dim, s :: stride, c :: coords => (c - d.offset) * s + linearIndex dim stride coords
  | _, _, _ => 0

/-- `esdm_dataspace_elementOffset`, in elements. -/
def elementIndex (space : Dataspace) (coords : List ℤ) : ℤ :=
  linearIndex space.dim space.getEffectiveStride coords

/-- `esdm_dataspace_elementOffset` -/
def elementOffset (space : Dataspace) (coords : List ℤ) : ℤ :=
  space.elementIndex coords * space.type.sizeof

theorem contiguousStride_cons (d : Dim) (dim : List Dim) :
    contiguousStride (d :: dim) = (dim.map Dim.size).prod :: contiguousStride dim := by
  have h : ∀ l : List Dim, (l.foldr (fun d (acc : List ℤ × ℤ) => (acc.2 :: acc.1, acc.2 * d.size))
      ([], 1)).2 = (l.map Dim.size).prod := by
    intro l
    induction l with
    | nil => rfl
    | cons e l ih => rw [List.foldr_cons, ih, List.map_cons, List.prod_cons, mul_comm]
  simp only [contiguousStride, List.foldr_cons, h]

@[simp] theorem contiguousStride_nil : contiguousStride [] = [] := rfl

@[simp] theorem contiguousStride_length : ∀ dim : List Dim,
    (contiguousStride dim).length = dim.length
  | [] => rfl
  | d :: dim => by rw [contiguousStride_cons, List.length_cons, contiguousStride_length dim,
      List.length_cons]

@[simp] theorem getEffectiveStride_length (space : Dataspace) :
    space.getEffectiveStride.length = space.dims := by
  unfold getEffectiveStride
  rcases h : space.stride with _ | s
  · simp [dims]
  · exact space.stride_length s h

/-- `esdm_dataspace_copyDatalayout`: give `space` the strides of `source`. -/
def copyDatalayout (space source : Dataspace) : Outcome Dataspace :=
  if h : space.dims = source.dims then
    if source.stride = none ∧ space.dim.tail.map Dim.size = source.dim.tail.map Dim.size then
      .ok { space with stride := none, stride_length := by simp }
    else
      .ok { space with
        stride := some source.getEffectiveStride
        stride_length := by
          rintro s ⟨⟩
          exact (getEffectiveStride_length source).trans h.symm }
  else .error (.assertion .dims)

/-- The checks of `esdm_dataspace_subspace` in one dimension. -/
def subspaceDim (d sub : Dim) : Prop :=
  ¬ sub.size ≤ 0 ∧ ¬ sub.offset < 0 ∧ ¬ sub.offset < d.offset
    ∧ ¬ (d.size ≠ 0 ∧ sub.offset + sub.size > d.offset + d.size)

instance (d sub : Dim) : Decidable (subspaceDim d sub) := inferInstanceAs (Decidable (_ ∧ _))

/-- `esdm_dataspace_subspace` -/
def subspace (space : Dataspace) (dim : List Dim) : Except Status Dataspace :=
  if dim.length = space.dims ∧ ∀ q ∈ space.dim.zip dim, subspaceDim q.1 q.2 then
    .ok { type := space.type, dim := dim, stride := none, stride_length := by simp }
  else .error .invalidArgumentError

/-- `esdm_dataspace_makeContiguous` -/
def makeContiguous (space : Dataspace) : Except Status Dataspace := space.subspace space.dim

end Dataspace

/-- A dataspace a buffer is read or written through: no dimension is empty, as
`esdm_dataspace_subspace` checks. -/
structure Memspace extends Dataspace where
  size_pos : ∀ d ∈ dim, 0 < d.size

end Esdm
