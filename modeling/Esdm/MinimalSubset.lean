import Mathlib.Data.List.Indexes
import Esdm.Hypercube

/-!
# Minimal subsets

`esdmI_hypercubeList_nonredundantSubsets` of `hypercube.c`: subsets of a list of hypercubes that
have the points of the whole list.  The cubes are looked at in a random order, and dropped if the
others that are left cover them.
-/

namespace Esdm

namespace Hypercube

/-- The entry at `i` and `j` of the symmetric matrix that `makeIntersectionMatrix_internal` fills
above the diagonal. -/
def entry (i j : ℕ) (a b : Hypercube) : Option Hypercube :=
  if i = j then none else if i < j then makeIntersection a b else makeIntersection b a

/-- A row of `intersectionMatrix`, that of the cube `a` at `i`. -/
def intersections (cubes : List Hypercube) (i : ℕ) (a : Hypercube) : List (Option Hypercube) :=
  cubes.mapIdx fun j b => entry i j a b

/-- A row of `intersectionSizes`. -/
def intersectionSizes (cubes : List Hypercube) (i : ℕ) (a : Hypercube) : List ℤ :=
  cubes.mapIdx fun j b => if i = j then size a else (entry i j a b).elim 0 size

/-- `makeIntersectionMatrix_internal` -/
def makeIntersectionMatrix (cubes : List Hypercube) : List (List (Option Hypercube)) :=
  cubes.mapIdx (intersections cubes)

/-- The loop of `hypercubeIsFullyCovered`. -/
def restSet : HypercubeSet → List (Option Hypercube) → HypercubeSet
  | rest, [] => rest
  | rest, none :: covering => restSet rest covering
  | rest, some c :: covering =>
    let rest := rest.subtract c
    if rest = [] then rest else restSet rest covering

/-- `hypercubeIsFullyCovered` -/
def isFullyCovered (cube : Hypercube) (covering : List (Option Hypercube)) : Bool :=
  decide (restSet [cube] covering = [])

/-- The cubes that are needed unconditionally. -/
def requiredCubes (cubes : List Hypercube) : List Bool :=
  cubes.mapIdx fun i a =>
    if (intersectionSizes cubes i a).sum < 2 * size a then true
    else !isFullyCovered a (intersections cubes i a)

/-- `RAND_MAX` -/
def randMax : ℕ := 2147483647

/-- The numbers that `rand_r` returns. -/
abbrev RandomNumbers := ℕ → Fin (randMax + 1)

/-- What `findMinimalSubset_internal` keeps. -/
structure SubsetSearch where
  selected : List Bool
  checked : List Bool
  matrix : List (List (Option Hypercube))

/-- Turn the selector into the index of a cube that has not been checked.  The source has no bound
on the index. -/
def selectIndex : List Bool → ℕ → ℕ → Outcome ℕ
  | [], _, _ => .error .undefined
  | true :: checked, selector, i => selectIndex checked selector (i + 1)
  | false :: _, 0, i => .ok i
  | false :: checked, selector + 1, i => selectIndex checked selector (i + 1)

/-- Remove a dropped cube from the matrix. -/
def dropCube (k : ℕ) (matrix : List (List (Option Hypercube))) : List (List (Option Hypercube)) :=
  matrix.mapIdx fun i row => row.mapIdx fun j e => if i = k ∨ j = k then none else e

/-- The index that a random number stands for. -/
def checkIndex (value unchecked : ℕ) (checked : List Bool) : Outcome ℕ :=
  selectIndex checked (value * unchecked / (randMax + 1)) 0

/-- Determine whether a cube can be dropped. -/
def checkCube (cubes : List Hypercube) (k : ℕ) (s : SubsetSearch) : Outcome SubsetSearch := do
  let cube ← access cubes[k]?
  let row ← access s.matrix[k]?
  let covered := isFullyCovered cube row
  return ⟨s.selected.set k !covered, s.checked.set k true,
    if covered then dropCube k s.matrix else s.matrix⟩

/-- The rounds of `findMinimalSubset_internal`, of which each takes the next random number. -/
def checkCubes (cubes : List Hypercube) (random : RandomNumbers) :
    ℕ → ℕ → SubsetSearch → Outcome SubsetSearch
  | 0, _, s => .ok s
  | unchecked + 1, next, s => do
    let k ← checkIndex (random next) (unchecked + 1) s.checked
    let s ← checkCube cubes k s
    checkCubes cubes random unchecked (next + 1) s

/-- `findMinimalSubset_internal`, with how many random numbers it takes. -/
def findMinimalSubset (cubes : List Hypercube) (random : RandomNumbers) (next : ℕ) :
    Outcome (ℕ × List Bool) := do
  let required := requiredCubes cubes
  let unchecked := required.countP fun r => !r
  let s ← checkCubes cubes random unchecked next
    ⟨List.replicate cubes.length true, required, makeIntersectionMatrix cubes⟩
  return (next + unchecked, s.selected)

/-- The loop of `esdmI_hypercubeList_nonredundantSubsets_internal`.  The seed of the random numbers
is static, so each subset goes on where the last one ended. -/
def minimalSubsets (cubes : List Hypercube) (random : RandomNumbers) :
    ℕ → ℕ → Outcome (List (List Bool))
  | 0, _ => .ok []
  | setCount + 1, next => do
    let (next, subset) ← findMinimalSubset cubes random next
    let subsets ← minimalSubsets cubes random setCount next
    return subset :: subsets

/-- `esdmI_hypercubeList_nonredundantSubsets_internal` -/
def nonredundantSubsets (cubes : List Hypercube) (random : RandomNumbers) (setCount next : ℕ) :
    Outcome (List (List Bool)) := do
  eassert .cubeDims (∀ c ∈ cubes, 0 < c.length)
  minimalSubsets cubes random setCount next

end Hypercube

end Esdm
