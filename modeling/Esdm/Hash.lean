import Esdm.BoundList
import Esdm.Dataspace

/-!
# The hash of a hypercube

`hypercube.c` has two functions for it, one for a hypercube and one for the offset and the size from
which it is made.  Both count each coordinate with a factor of its own, modulo `2^32`.  Where a
32-bit factor meets a coordinate, C computes with `int64_t`, unless the coordinate is cast before.
-/

namespace Esdm.Hypercube

/-- `kRandomPrime` -/
def kRandomPrime : BitVec 32 := 2146462999#32

/-- `esdmI_hypercube_make` -/
def make : List Dim → Outcome Hypercube
  | [] => .ok []
  | d :: dim => do
    let stop ← int64 (d.offset + d.size)
    let ranges ← make dim
    return ⟨d.offset, stop⟩ :: ranges

/-- `dims*factor`, with which both functions start. -/
def hashStart (dims : ℕ) : Outcome (BitVec 32) := do
  let product ← int64 (dims * kRandomPrime.toNat)
  return BitVec.ofInt 32 product

/-- `result += (factor *= kRandomPrime)*x`, in `esdmI_hypercube_hash`; the factor and the result
afterwards. -/
def hashTerm (factor result : BitVec 32) (x : ℤ) : Outcome (BitVec 32 × BitVec 32) := do
  let factor := factor * kRandomPrime
  let product ← int64 (factor.toNat * x)
  let sum ← int64 (result.toNat + product)
  return (factor, BitVec.ofInt 32 sum)

/-- The loop of `esdmI_hypercube_hash`. -/
def hashLoop : Hypercube → BitVec 32 → BitVec 32 → Outcome (BitVec 32)
  | [], _, result => .ok result
  | r :: ranges, factor, result => do
    let (factor, result) ← hashTerm factor result r.start
    let (factor, result) ← hashTerm factor result r.stop
    hashLoop ranges factor result

/-- `esdmI_hypercube_hash` -/
def hash (me : Hypercube) : Outcome (BitVec 32) := do
  let result ← hashStart me.length
  hashLoop me kRandomPrime result

/-- The loop of `esdmI_hypercube_hashOffsetSize`: the casts leave 32-bit numbers to compute with. -/
def hashOffsetSizeLoop : List Dim → BitVec 32 → BitVec 32 → Outcome (BitVec 32)
  | [], _, result => .ok result
  | d :: dim, factor, result => do
    let factor := factor * kRandomPrime
    let result := result + factor * BitVec.ofInt 32 d.offset
    let stop ← int64 (d.offset + d.size)
    let factor := factor * kRandomPrime
    let result := result + factor * BitVec.ofInt 32 stop
    hashOffsetSizeLoop dim factor result

/-- `esdmI_hypercube_hashOffsetSize` -/
def hashOffsetSize (dim : List Dim) : Outcome (BitVec 32) := do
  let result ← hashStart dim.length
  hashOffsetSizeLoop dim kRandomPrime result

end Esdm.Hypercube
