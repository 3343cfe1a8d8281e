import Mathlib.Algebra.Ring.Int.Defs
import Esdm.Lib.BTree
import Esdm.Status

/-!
# Bound lists

`hypercube-neighbour-manager.c` keeps the bounds of hypercubes in one dimension in a sorted array or
in a B-tree, behind one table of functions.  An entry has its bound and its kind baked into one
number.  The index that comes with it is only carried along, so its type is a parameter.
-/

namespace Esdm

variable {ι : Type}

/-- A computation with `int64_t`; an overflow is undefined. -/
def int64 (x : ℤ) : Outcome ℤ := if -2 ^ 63 ≤ x ∧ x < 2 ^ 63 then .ok x else .error .undefined

/-- `esdmI_boundListEntry_t` -/
structure BoundListEntry (ι : Type) where
  bakedBound : ℤ
  cubeIndex : ι

/-- `bakeBound` -/
def bakeBound (bound : ℤ) (isStart : Bool) : Outcome ℤ :=
  int64 (2 * bound + if isStart then 1 else 0)

/-- `esdmI_boundList_vtable_t`: what an implementation offers.  `none` is the null pointer; an entry
comes with the iterator that stands on it. -/
structure BoundListVtable (ι : Type) where
  Store : Type
  Iterator : Type
  create : Store
  add : Store → ℤ → Bool → ι → Outcome Store
  findFirst : Store → ℤ → Bool → Outcome (Option (BoundListEntry ι × Iterator))
  nextEntry : Store → Iterator → Outcome (Option (BoundListEntry ι × Iterator))

namespace BoundArray

/-- The loop of `boundArray_lookup`. -/
def lookupLoop (entries : List (BoundListEntry ι)) (bakedBound : ℤ) : ℕ → ℕ → ℕ → Outcome ℕ
  | 0, low, high => if low < high then .error .fuel else .ok high
  | fuel + 1, low, high =>
    if low < high then do
      let mid := (low + high) / 2
      let entry ← access entries[mid]?
      if entry.bakedBound < bakedBound then lookupLoop entries bakedBound fuel (mid + 1) high
      else lookupLoop entries bakedBound fuel low mid
    else .ok high

/-- `boundArray_lookup`: the position of the first entry that is not below the given bound. -/
def lookup (entries : List (BoundListEntry ι)) (bakedBound : ℤ) : Outcome ℕ :=
  lookupLoop entries bakedBound entries.length 0 entries.length

/-- `boundArray_add` -/
def add (entries : List (BoundListEntry ι)) (bound : ℤ) (isStart : Bool) (cubeIndex : ι) :
    Outcome (List (BoundListEntry ι)) := do
  let bakedBound ← bakeBound bound isStart
  let position ← lookup entries bakedBound
  return entries.insertIdx position ⟨bakedBound, cubeIndex⟩

/-- `boundArray_findFirst` -/
def findFirst (entries : List (BoundListEntry ι)) (bound : ℤ) (isStart : Bool) :
    Outcome (Option (BoundListEntry ι × ℕ)) := do
  let bakedBound ← bakeBound bound isStart
  let position ← lookup entries bakedBound
  if position ≥ entries.length then return none
  else
    let entry ← access entries[position]?
    if entry.bakedBound ≠ bakedBound then return none
    else return some (entry, position)

/-- `boundArray_nextEntry` -/
def nextEntry (entries : List (BoundListEntry ι)) (iterator : ℕ) :
    Outcome (Option (BoundListEntry ι × ℕ)) := do
  let nextIndex := iterator + 1
  if nextIndex ≥ entries.length then return none
  else
    let next ← access entries[nextIndex]?
    let entry ← access entries[iterator]?
    if next.bakedBound ≠ entry.bakedBound then return none
    else return some (next, nextIndex)

end BoundArray

/-- `boundArray_vtable` -/
def boundArray (ι : Type) : BoundListVtable ι where
  Store := List (BoundListEntry ι)
  Iterator := ℕ
  create := []
  add := BoundArray.add
  findFirst := BoundArray.findFirst
  nextEntry := BoundArray.nextEntry

namespace BoundTree

/-- `esdmI_boundTree_t`; nodes refer to each other by their index. -/
abbrev Node (ι : Type) := BTree.Cell (BoundListEntry ι)

/-- `BOUND_TREE_MAX_ENTRY_COUNT` -/
def maxEntryCount : ℕ := 20

/-- All nodes.  The root is the first one: it never moves. -/
abbrev Heap (ι : Type) := List (Node ι)

/-- `boundTree_fixRelations`, for the given children -/
def fixRelations (me : ℕ) : List (Option ℕ) → Heap ι → Outcome (Heap ι)
  | [], heap => .ok heap
  | none :: children, heap => fixRelations me children heap
  | some child :: children, heap => do
    let node ← access heap[child]?
    fixRelations me children (heap.set child { node with parent := some me })

/-- `boundTree_findBoundPosition`: the position of the first entry that is greater. -/
def findBoundPosition (bakedBound : ℤ) (node : Node ι) : ℕ :=
  (node.bounds.takeWhile fun entry => decide (entry.bakedBound ≤ bakedBound)).length

/-- `boundTree_findChildPosition` -/
def findChildPosition (parent : Node ι) (child : ℕ) : Outcome ℕ :=
  match parent.children.findIdx? (· == some child) with
  | some i => .ok i
  | none => .error .abort

/-- The position at which `boundTree_insert` inserts. -/
def insertPosition (node : Node ι) (newEntry : BoundListEntry ι) : Option ℕ → Outcome ℕ
  | some splittedChild => findChildPosition node splittedChild
  | none => .ok (findBoundPosition newEntry.bakedBound node)

/-- A child that is handed to `boundTree_insert` has the node as its parent. -/
def checkParent (heap : Heap ι) (me : ℕ) : Option ℕ → Outcome Unit
  | none => .ok ()
  | some child => do
    let node ← access heap[child]?
    eassert .childParent (node.parent = some me)

/-- The end of `boundTree_insert` if the root was split into the cell `left` and itself: what is
left in the root moves to a new cell. -/
def splitRoot (heap : Heap ι) (me left : ℕ) (entry : BoundListEntry ι) : Outcome (Heap ι) := do
  let node ← access heap[me]?
  let right := heap.length
  let heap ← fixRelations right node.children (heap ++ [node])
  fixRelations me [some left, some right] (heap.set me ⟨[entry], [some left, some right], none⟩)

/-- `boundTree_insert`, with a bound on the number of levels. -/
def insert : ℕ → Heap ι → ℕ → BoundListEntry ι → Option ℕ → Option ℕ → Outcome (Heap ι)
  | 0, _, _, _, _, _ => .error .fuel
  | fuel + 1, heap, me, newEntry, insertChild, splittedChild => do
    eassert .insertChild (insertChild.isSome = splittedChild.isSome)
    checkParent heap me insertChild
    checkParent heap me splittedChild
    let node ← access heap[me]?
    let childIndex ← insertPosition node newEntry splittedChild
    let bounds := node.bounds.insertIdx childIndex newEntry
    let children := node.children.insertIdx childIndex insertChild
    if node.bounds.length < maxEntryCount then
      return heap.set me { node with bounds := bounds, children := children }
    else
      let splitIndex := maxEntryCount / 2
      let left := heap.length
      let heap ← fixRelations left (children.take (splitIndex + 1))
        (heap ++ [⟨bounds.take splitIndex, children.take (splitIndex + 1), node.parent⟩])
      let heap := heap.set me
        { node with
          bounds := bounds.drop (splitIndex + 1), children := children.drop (splitIndex + 1) }
      let entry ← access bounds[splitIndex]?
      match node.parent with
      | some parent => insert fuel heap parent entry (some left) (some me)
      | none => splitRoot heap me left entry

/-- Follow the children down to a leaf; at each node on the way the position gives the child. -/
def walkDown (heap : Heap ι) (position : Node ι → ℕ) : ℕ → ℕ → ℕ → Outcome (ℕ × ℕ)
  | 0, _, _ => .error .fuel
  | fuel + 1, me, childIndex => do
    let node ← access heap[me]?
    match ← access node.children[childIndex]? with
    | none => return (me, childIndex)
    | some child =>
      let node ← access heap[child]?
      walkDown heap position fuel child (position node)

/-- `boundTree_findPositionInParent`, `none` at the root -/
def findPositionInParent (heap : Heap ι) (me : ℕ) : Outcome (Option (ℕ × ℕ)) := do
  let node ← access heap[me]?
  match node.parent with
  | none => return none
  | some parent =>
    let parentNode ← access heap[parent]?
    match parentNode.children.findIdx? (· == some me) with
    | some i => return some (parent, i)
    | none => .error (.assertion .childPosition)

/-- Go up while the position is behind the last entry of its node. -/
def walkUp (heap : Heap ι) : ℕ → ℕ → ℕ → Outcome (Option (ℕ × ℕ))
  | 0, _, _ => .error .fuel
  | fuel + 1, me, childIndex => do
    let node ← access heap[me]?
    if childIndex = node.bounds.length then
      match ← findPositionInParent heap me with
      | none => return none
      | some (parent, i) => walkUp heap fuel parent i
    else return some (me, childIndex)

/-- The entry at a position, if there is one and it has the given bound. -/
def entryAt (heap : Heap ι) (bakedBound : ℤ) :
    Option (ℕ × ℕ) → Outcome (Option (BoundListEntry ι × ℕ × ℕ))
  | none => .ok none
  | some (me, position) => do
    let node ← access heap[me]?
    let entry ← access node.bounds[position]?
    if entry.bakedBound = bakedBound then return some (entry, me, position) else return none

/-- `boundTree_add` -/
def add (heap : Heap ι) (bound : ℤ) (isStart : Bool) (cubeIndex : ι) : Outcome (Heap ι) := do
  let bakedBound ← bakeBound bound isStart
  let root ← access heap[0]?
  let (leaf, _) ← walkDown heap (findBoundPosition bakedBound) (heap.length + 1) 0
    (findBoundPosition bakedBound root)
  insert (heap.length + 1) heap leaf ⟨bakedBound, cubeIndex⟩ none none

/-- `boundTree_findFirst` -/
def findFirst (heap : Heap ι) (bound : ℤ) (isStart : Bool) :
    Outcome (Option (BoundListEntry ι × ℕ × ℕ)) := do
  let bakedBound ← bakeBound bound isStart
  let below ← int64 (bakedBound - 1)
  let root ← access heap[0]?
  let (leaf, childIndex) ← walkDown heap (findBoundPosition below) (heap.length + 1) 0
    (findBoundPosition below root)
  entryAt heap bakedBound (← walkUp heap (heap.length + 1) leaf childIndex)

/-- `boundTree_nextEntry` -/
def nextEntry (heap : Heap ι) (iterator : ℕ × ℕ) :
    Outcome (Option (BoundListEntry ι × ℕ × ℕ)) := do
  let node ← access heap[iterator.1]?
  let entry ← access node.bounds[iterator.2]?
  let (leaf, position) ← walkDown heap (fun _ => 0) (heap.length + 1) iterator.1 (iterator.2 + 1)
  entryAt heap entry.bakedBound (← walkUp heap (heap.length + 1) leaf position)

end BoundTree

/-- `boundTree_vtable` -/
def boundTree (ι : Type) : BoundListVtable ι where
  Store := BoundTree.Heap ι
  Iterator := ℕ × ℕ
  create := [⟨[], [none], none⟩]
  add := BoundTree.add
  findFirst := BoundTree.findFirst
  nextEntry := BoundTree.nextEntry

namespace BoundListVtable

/-- Call `nextEntry` until it returns the null pointer. -/
def entriesFrom (vtable : BoundListVtable ι) (list : vtable.Store) :
    ℕ → Option (BoundListEntry ι × vtable.Iterator) → Outcome (List ι)
  | _, none => .ok []
  | 0, some _ => .error .fuel
  | fuel + 1, some (entry, iterator) => do
    let next ← vtable.nextEntry list iterator
    let rest ← vtable.entriesFrom list fuel next
    return entry.cubeIndex :: rest

/-- The indices that come with a bound, found by `findFirst` and `nextEntry`, with a bound on how
many there are. -/
def enumerate (vtable : BoundListVtable ι) (fuel : ℕ) (list : vtable.Store) (bound : ℤ)
    (isStart : Bool) : Outcome (List ι) := do
  vtable.entriesFrom list fuel (← vtable.findFirst list bound isStart)

end BoundListVtable

end Esdm
