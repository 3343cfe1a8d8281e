import Mathlib.Algebra.BigOperators.Group.List.Basic
import Mathlib.Algebra.Ring.Int.Defs
import Mathlib.Data.List.Forall2
import Mathlib.Data.Set.Basic
import Esdm.Status

/-!
# Hypercubes

`hypercube.c`: half-open ranges, hypercubes and sets of hypercubes.  A hypercube is the list of
its ranges, one for each dimension; functions of two hypercubes are called with equal ranks only
(the source asserts it), and pair the ranges up.
-/

namespace Esdm

/-- `esdmI_range_t`: the integers from `start` up to, not including, `stop`. -/
structure Range where
  start : ℤ
  stop : ℤ
  deriving DecidableEq, Repr

namespace Range

/-- `esdmI_range_intersection` -/
def intersection (a b : Range) : Range where
  start := if a.start > b.start then a.start else b.start
  stop := if a.stop < b.stop then a.stop else b.stop

/-- `esdmI_range_isEmpty` -/
def isEmpty (r : Range) : Prop := r.start ≥ r.stop

instance (r : Range) : Decidable r.isEmpty := inferInstanceAs (Decidable (_ ≥ _))

/-- `esdmI_range_size` -/
def size (r : Range) : ℤ := if r.isEmpty then 0 else r.stop - r.start

/-- The integers of the range. -/
def Mem (x : ℤ) (r : Range) : Prop := r.start ≤ x ∧ x < r.stop

instance (x : ℤ) (r : Range) : Decidable (Mem x r) := inferInstanceAs (Decidable (_ ∧ _))

end Range

/-- `esdmI_hypercube_t` -/
abbrev Hypercube := List Range

namespace Hypercube

/-- `esdmI_hypercube_makeIntersection`, `none` for the null pointer of an empty intersection. -/
def makeIntersection : Hypercube → Hypercube → Option Hypercube
  | r :: a, s :: b =>
    if (r.intersection s).isEmpty then none
    else (makeIntersection a b).map (r.intersection s :: ·)
  | _, _ => some []

/-- `esdmI_hypercube_isEmpty` -/
def isEmpty (c : Hypercube) : Prop := ∃ r ∈ c, r.isEmpty

instance (c : Hypercube) : Decidable (isEmpty c) := inferInstanceAs (Decidable (∃ r ∈ c, _))

/-- `esdmI_hypercube_doesIntersect` -/
def doesIntersect : Hypercube → Hypercube → Prop
  | r :: a, s :: b => ¬ (r.intersection s).isEmpty ∧ doesIntersect a b
  | _, _ => True

instance decidableDoesIntersect : ∀ a b : Hypercube, Decidable (doesIntersect a b)
  | [], _ => inferInstanceAs (Decidable True)
  | _ :: _, [] => inferInstanceAs (Decidable True)
  | r :: a, s :: b =>
    haveI := decidableDoesIntersect a b
    inferInstanceAs (Decidable (¬ (r.intersection s).isEmpty ∧ doesIntersect a b))

/-- The first loop of `esdmI_hypercube_touches`, from dimension `i` on: the only dimension in which
one of the two ranges ends where the other one starts. -/
def boundDim (i : ℕ) (found : Option ℕ) : Hypercube → Hypercube → Option ℕ
  | r :: a, s :: b =>
    if r.start = s.stop ∨ r.stop = s.start then
      if found.isSome then none else boundDim (i + 1) (some i) a b
    else boundDim (i + 1) found a b
  | _, _ => found

/-- The second loop of `esdmI_hypercube_touches`: the ranges overlap in the other dimensions. -/
def overlapElsewhere (boundDim i : ℕ) : Hypercube → Hypercube → Bool
  | r :: a, s :: b =>
    if i ≠ boundDim ∧ (r.intersection s).isEmpty then false
    else overlapElsewhere boundDim (i + 1) a b
  | _, _ => true

/-- `esdmI_hypercube_touches` -/
def touches (a b : Hypercube) : Bool :=
  (boundDim 0 none a b).any fun dim => overlapElsewhere dim 0 a b

/-- `esdmI_hypercube_overlap`: how many points two hypercubes share. -/
def overlap (a b : Hypercube) : ℤ := (List.zipWith (fun r s => (r.intersection s).size) a b).prod

/-- `esdmI_hypercube_size` -/
def size (c : Hypercube) : ℤ := (c.map Range.size).prod

/-- The points of a hypercube. -/
def points (c : Hypercube) : Set (List ℤ) := {p | List.Forall₂ Range.Mem p c}

end Hypercube

/-- `esdmI_hypercubeSet_t`, the cubes in the order of its array. -/
abbrev HypercubeSet := List Hypercube

namespace HypercubeSet

/-- Take an entry out of an array by moving the last entry into its place. -/
def swapRemove {α : Type*} (l : List α) (i : ℕ) : List α :=
  match l.getLast? with
  | none => []
  | some z => (l.set i z).dropLast

/-- `esdmI_hypercubeSet_isEmpty`: drops the empty cubes at the end of the array until it meets one
that is not empty. -/
def isEmpty (s : HypercubeSet) : Bool × HypercubeSet :=
  let rest := (s.reverse.dropWhile fun c => decide (Hypercube.isEmpty c)).reverse
  (rest.isEmpty, rest)

/-- The parts of the minuend's range before and behind the subtrahend's. -/
def splitRange (m s : Range) : List Range :=
  let copy := if m.start < s.start ∧ m.stop > s.start then ⟨m.start, s.start⟩ else m
  (if m.start < s.start then [copy] else []) ++
    (if m.stop > s.stop then [if copy.start < s.stop then ⟨s.stop, m.stop⟩ else copy] else [])

/-- The cubes `esdmI_hypercubeSet_subtract` readds for one minuend.  `done` are the ranges of the
dimensions it is through with, already reduced to the intersection. -/
def remainders (done : List Range) : Hypercube → Hypercube → HypercubeSet
  | m :: ms, s :: ss =>
    (splitRange m s).map (fun r => done ++ r :: ms) ++ remainders (done ++ [m.intersection s]) ms ss
  | _, _ => []

/-- One round of `esdmI_hypercubeSet_subtract`. -/
def subtractAt (subtrahend : Hypercube) (set : HypercubeSet) (i : ℕ) : HypercubeSet :=
  match set[i]? with
  | none => set
  | some minuend =>
    if Hypercube.doesIntersect minuend subtrahend then
      swapRemove set i ++ remainders [] minuend subtrahend
    else set

/-- `esdmI_hypercubeSet_subtract`, from the end of the array to its start. -/
def subtract (set : HypercubeSet) (subtrahend : Hypercube) : HypercubeSet :=
  (List.range set.length).reverse.foldl (subtractAt subtrahend) set

/-- The points of a set of hypercubes. -/
def points (s : HypercubeSet) : Set (List ℤ) := {p | ∃ c ∈ s, p ∈ Hypercube.points c}

end HypercubeSet

end Esdm
