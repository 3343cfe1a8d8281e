import Esdm.BoundList
import Esdm.Hypercube

/-!
# The neighbour manager

`hypercube-neighbour-manager.c` collects hypercubes, and keeps for each of them the list of those
that it touches.  When a hypercube is added, its neighbours are found by their bounds: in each
dimension one list has the bounds of all the hypercubes that were added before.
-/

namespace Esdm

/-- `esdmI_hypercubeNeighbourManager_t`, over either implementation of bound lists.  There is one
bound list for each dimension. -/
structure NeighbourManager (vtable : BoundListVtable ℕ) where
  cubes : List Hypercube
  neighbourLists : List (List ℕ)
  boundLists : List vtable.Store

namespace NeighbourManager

variable {vtable : BoundListVtable ℕ}

/-- `esdmI_hypercubeNeighbourManager_make` -/
def make (vtable : BoundListVtable ℕ) (dimensions : ℕ) : NeighbourManager vtable :=
  ⟨[], [], List.replicate dimensions vtable.create⟩

/-- `neighbourList_add`, for the list of hypercube `i` -/
def neighbourListAdd (lists : List (List ℕ)) (i neighbour : ℕ) : Outcome (List (List ℕ)) := do
  let list ← access lists[i]?
  return lists.set i (list ++ [neighbour])

/-- The body of the two loops over the entries of a bound list, for all the entries. -/
def record (cubes : List Hypercube) (cube : Hypercube) (cubeIndex : ℕ) :
    List ℕ → List (List ℕ) → Outcome (List (List ℕ))
  | [], lists => .ok lists
  | j :: entries, lists => do
    let other ← access cubes[j]?
    eassert .dims (cube.length = other.length)
    if cube.touches other then
      let lists ← neighbourListAdd lists cubeIndex j
      let lists ← neighbourListAdd lists j cubeIndex
      record cubes cube cubeIndex entries lists
    else record cubes cube cubeIndex entries lists

/-- The loop of `esdmI_hypercubeNeighbourManager_pushBack` over the dimensions.  A bound list has at
most two entries for a hypercube. -/
def pushBounds (cubes : List Hypercube) (cube : Hypercube) (cubeIndex : ℕ) :
    List (Range × vtable.Store) → List (List ℕ) → Outcome (List (List ℕ) × List vtable.Store)
  | [], lists => .ok (lists, [])
  | (range, boundList) :: rest, lists => do
    let ends ← vtable.enumerate (2 * cubes.length) boundList range.start false
    let lists ← record cubes cube cubeIndex ends lists
    let boundList ← vtable.add boundList range.start true cubeIndex
    let starts ← vtable.enumerate (2 * cubes.length) boundList range.stop true
    let lists ← record cubes cube cubeIndex starts lists
    let boundList ← vtable.add boundList range.stop false cubeIndex
    let (lists, boundLists) ← pushBounds cubes cube cubeIndex rest lists
    return (lists, boundList :: boundLists)

/-- `esdmI_hypercubeNeighbourManager_pushBack` -/
def pushBack (me : NeighbourManager vtable) (cube : Hypercube) :
    Outcome (NeighbourManager vtable) := do
  eassert .dims (cube.length = me.boundLists.length)
  let cubeIndex := me.cubes.length
  let cubes := me.cubes ++ [cube]
  let (lists, boundLists) ←
    pushBounds cubes cube cubeIndex (cube.zip me.boundLists) (me.neighbourLists ++ [[]])
  return ⟨cubes, lists, boundLists⟩

/-- A sequence of `esdmI_hypercubeNeighbourManager_pushBack` calls. -/
def pushAll : List Hypercube → NeighbourManager vtable → Outcome (NeighbourManager vtable)
  | [], me => .ok me
  | cube :: cubes, me => do
    let me ← me.pushBack cube
    pushAll cubes me

/-- `esdmI_hypercubeNeighbourManager_getNeighbours` -/
def getNeighbours (me : NeighbourManager vtable) (index : ℕ) : Outcome (List ℕ) := do
  eassert .neighbourIndex (index < me.cubes.length)
  access me.neighbourLists[index]?

end NeighbourManager

end Esdm
