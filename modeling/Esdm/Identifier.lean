import Esdm.Status
import Mathlib.Data.Vector.Basic

/-!
# Random identifiers

`ea_generate_id` spells random bytes with an alphabet of 64 characters.  The bytes go through a
cache, into which they are shifted eight bits at a time and out of which the characters' indices are
taken six bits at a time, at the same end.
-/

namespace Esdm.Identifier

/-- `kCharset` -/
def kCharset : List Char :=
  "abcdefghijklmnopqrstuvwxyzABCDEFGHIJKLMNOPQRSTUVWXYZ0123456789_-".toList

def kCharsetBits : ℕ := 6

/-- The random bits that have not been used: `cachedBits` of them in `bitCache`, and the bytes from
`usedRandomBytes` on. -/
structure Source where
  bitCache : BitVec 64
  cachedBits : ℕ
  unused : List (BitVec 8)

/-- The inner loop, which loads enough bits into the cache. -/
def load (bitCache : BitVec 64) (cachedBits : ℕ) : List (BitVec 8) → Outcome Source
  | [] =>
    if cachedBits < kCharsetBits then .error (.assertion .randomBytes)
    else .ok ⟨bitCache, cachedBits, []⟩
  | byte :: unused =>
    if cachedBits < kCharsetBits then
      load (bitCache <<< 8 ||| byte.setWidth 64) (cachedBits + 8) unused
    else .ok ⟨bitCache, cachedBits, byte :: unused⟩

/-- The outer loop, for so many more characters. -/
def spell : ℕ → Source → Outcome (List Char × Source)
  | 0, source => .ok ([], source)
  | n + 1, source => do
    let source ← load source.bitCache source.cachedBits source.unused
    let index := source.bitCache &&& (1#64 <<< kCharsetBits - 1#64)
    let char ← access kCharset[index.toNat]?
    let (chars, rest) ← spell n ⟨source.bitCache >>> kCharsetBits,
      source.cachedBits - kCharsetBits, source.unused⟩
    return (char :: chars, rest)

variable (w length : ℕ)

/-- `length*kCharsetBits`, where `size_t` has `w` bits. -/
def randomBitCount : ℕ := length * kCharsetBits % 2 ^ w

/-- `(randomBitCount + 7)/8` -/
def randomByteCount : ℕ := (randomBitCount w length + 7) % 2 ^ w / 8

/-- `ea_generate_id`, with the bytes that `getRandom` has read: the string, and the random bits that
it has not used. -/
def generateId (randomBytes : List.Vector (BitVec 8) (randomByteCount w length)) :
    Outcome (String × Source) := do
  eassert .randomBits (128 ≤ randomBitCount w length)
  let (chars, source) ← spell length ⟨0, 0, randomBytes.toList⟩
  return (String.ofList chars, source)

end Esdm.Identifier
