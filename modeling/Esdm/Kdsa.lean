import Mathlib.Data.Nat.Notation
import Mathlib.Data.Vector.Defs
import Esdm.Lib.Client

/-!
# Block allocation of the KDSA backend

The clients of a volume share a map with one bit for each block, in words of 64 bits behind the
header.  A client looks for a free block in its own copy of the map, which may be stale, and takes
the block with `kdsa_compare_and_swap`; if another client was faster, its copy has the word found on
the volume and the search goes on.

64-bit overflow is not modelled: numbers and offsets are natural numbers.
-/

namespace Esdm.Kdsa

/-- A word of the block map; a set bit is a block in use. -/
abbrev Word := BitVec 64

/-- `sizeof(kdsa_persistent_header_t)` -/
def headerSize : ℕ := 32

/-- `calc_block_map_size` -/
def calcBlockMapSize (blocks : ℕ) : ℕ := (blocks + 63) / 64

/-- `calc_block_count` -/
def calcBlockCount (blocksize volumeSize : ℕ) : ℕ :=
  if volumeSize ≤ headerSize then 0
  else 64 * (volumeSize - headerSize) / (1 + 64 * blocksize)

/-- `kdsa_persistent_header_t`, of a volume that is in use. -/
structure Header where
  blocksize : ℕ
  blockcount : ℕ
  offsetToData : ℕ
  blocksize_pos : 0 < blocksize
  blockcount_pos : 0 < blockcount
  offsetToData_pos : 0 < offsetToData

/-- The words of a volume, by their offset in bytes. -/
abbrev Volume := ℕ → Word

/-- The offset of a word of the block map. -/
def mapOffset (pos : ℕ) : ℕ := pos * 8 + headerSize

/-- `kdsa_compare_and_swap`: the word found, and the volume afterwards. -/
def kdsaCompareAndSwap (volume : Volume) (offset : ℕ) (compare swap : Word) : Word × Volume :=
  (volume offset, if volume offset = compare then Function.update volume offset swap else volume)

section Format

/-- The header that `mkfs` writes. -/
def mkfsHeader (blocksize volumeSize : ℕ) (hsize : 0 < blocksize)
    (hcount : 0 < calcBlockCount blocksize volumeSize) : Header where
  blocksize := blocksize
  blockcount := calcBlockCount blocksize volumeSize
  offsetToData :=
    (headerSize + calcBlockMapSize (calcBlockCount blocksize volumeSize) * 8 + 63) / 64 * 64
  blocksize_pos := hsize
  blockcount_pos := hcount
  offsetToData_pos := by simp only [headerSize]; omega

/-- The loop in `mkfs` that sets the largest bits of a word. -/
def occupy : ℕ → Word → Word
  | 0, val => val
  | n + 1, val => occupy n (val >>> 1 ||| 1#64 <<< 63)

/-- The block map that `mkfs` writes: what the last word has beyond the last block is in use. -/
def mkfsBlockMap (blocks pos : ℕ) : Word :=
  if pos + 1 = calcBlockMapSize blocks then occupy (64 - blocks % 64) 0 else 0

/-- The block map as `mkfs` allocates and fills it.  Without a block there is no last word: the
index `blockmap_size-1` wraps around, and the store is out of bounds. -/
def mkfsWords (blocks : ℕ) : Option (List Word) :=
  if calcBlockMapSize blocks = 0 then none
  else some ((List.range (calcBlockMapSize blocks)).map (mkfsBlockMap blocks))

end Format

section Backend

variable (h : Header)

/-- `kdsa_backend_data_t`: a client's own copy of the block map. -/
structure Backend where
  blockMap : Vector Word (calcBlockMapSize h.blockcount)
  freeBlocksEstimate : ℕ

/-- What a client asks while it looks for a block. -/
inductive Request where
  | rand
  | readBlockMap
  | compareAndSwap (offset : ℕ) (compare swap : Word)

/-- A read may fail. -/
abbrev Response : Request → Type
  | .rand => ℕ
  | .readBlockMap => Option (Vector Word (calcBlockMapSize h.blockcount))
  | .compareAndSwap _ _ _ => Word

/-- Numbers are drawn at random, and a read of the block map is not atomic: it may return any
words. -/
def serve (volume : Volume) : (q : Request) → Response h q → Volume → Prop
  | .rand, _, volume' => volume' = volume
  | .readBlockMap, _, volume' => volume' = volume
  | .compareAndSwap offset compare swap, found, volume' =>
    (found, volume') = kdsaCompareAndSwap volume offset compare swap

variable {h}

/-- The number of bits set among the lowest `n`. -/
def countBits : ℕ → Word → ℕ
  | 0, _ => 0
  | n + 1, val => (if val &&& 1 ≠ 0 then 1 else 0) + countBits n (val >>> 1)

/-- `load_block_bitmap`, with what the read returns; `false` for an error. -/
def loadBlockBitmap (data : Backend h) :
    Option (Vector Word (calcBlockMapSize h.blockcount)) → Bool × Backend h
  | none => (false, { data with freeBlocksEstimate := 0 })
  | some blockMap =>
    (true, ⟨blockMap, blockMap.toList.foldl (fun n w => n + countBits 64 (~~~w)) 0⟩)

/-- The loop over the bits of a word in `try_to_use_block`, for the bits that are left. -/
def tryBits (pos : Fin (calcBlockMapSize h.blockcount)) :
    List ℕ → Backend h → Client (Response h) (ℕ × Backend h)
  | [], data => pure (0, data)
  | b :: bits, data =>
    let expected := data.blockMap.get pos
    if expected = BitVec.allOnes 64 then pure (0, data)
    else if ~~~expected &&& 1#64 <<< b ≠ 0 then do
      let swap := expected ||| 1#64 <<< b
      let found ← Client.request (.compareAndSwap (mapOffset pos) expected swap)
      if found = expected then
        return ((b + 64 * pos) * h.blocksize + h.offsetToData,
          { data with blockMap := data.blockMap.set pos swap })
      else tryBits pos bits { data with blockMap := data.blockMap.set pos found }
    else tryBits pos bits data

/-- `try_to_use_block`: the offset of the block, or 0 -/
def tryToUseBlock (data : Backend h) (pos : Fin (calcBlockMapSize h.blockcount)) :
    Client (Response h) (ℕ × Backend h) :=
  tryBits pos (List.range 64) data

theorem calcBlockMapSize_pos (h : Header) : 0 < calcBlockMapSize h.blockcount := by
  have := h.blockcount_pos
  rw [calcBlockMapSize]
  omega

/-- The position `n % blockmap_size` in the block map. -/
def bitmapPos (h : Header) (n : ℕ) : Fin (calcBlockMapSize h.blockcount) :=
  ⟨n % calcBlockMapSize h.blockcount, Nat.mod_lt _ (calcBlockMapSize_pos h)⟩

/-- The given number of attempts at random positions. -/
def probe : ℕ → Backend h → Client (Response h) (ℕ × Backend h)
  | 0, data => pure (0, data)
  | n + 1, data => do
    let pos ← Client.request .rand
    let (offset, data) ← tryToUseBlock data (bitmapPos h pos)
    if offset ≠ 0 then return (offset, data) else probe n data

/-- Attempts at consecutive positions. -/
def sweep (start : ℕ) : List ℕ → Backend h → Client (Response h) (ℕ × Backend h)
  | [], data => pure (0, data)
  | i :: is, data => do
    let (offset, data) ← tryToUseBlock data (bitmapPos h (i + start))
    if offset ≠ 0 then return (offset, data) else sweep start is data

/-- A block at a random position or, after 30 attempts, at any position. -/
def findBlock (data : Backend h) : Client (Response h) (ℕ × Backend h) := do
  let (offset, data) ← probe 30 data
  if offset = 0 then
    let start ← Client.request .rand
    sweep (start % calcBlockMapSize h.blockcount) (List.range (calcBlockMapSize h.blockcount)) data
  else return (offset, data)

/-- The search in `find_offset_to_store_fragment`, with the estimate kept up to date. -/
def search (data : Backend h) : Client (Response h) (ℕ × Backend h) := do
  let (offset, data) ← findBlock data
  if offset ≠ 0 then
    return (offset, { data with freeBlocksEstimate := data.freeBlocksEstimate - 1 })
  else return (offset, data)

/-- `find_offset_to_store_fragment`, which runs under the client's lock: the offset of a block that
is now the caller's, or 0. -/
def findOffsetToStoreFragment (data : Backend h) : Client (Response h) (ℕ × Backend h) := do
  if data.freeBlocksEstimate * 100 / h.blockcount ≤ 3 then
    let read ← Client.request .readBlockMap
    let (success, data) := loadBlockBitmap data read
    if ¬ success ∨ data.freeBlocksEstimate = 0 then return (0, data)
    else search data
  else search data

section Delete

/-- The mask that `fragment_delete` keeps in an `int`: of the 64 bits the lowest 32 are left, and
they are extended with their sign when the mask is applied. -/
def deleteMask (pos : ℕ) : Word := ((~~~(1#64 <<< (pos % 64))).truncate 32).signExtend 64

/-- The number of the block that a fragment has been stored in. -/
def deletePos (h : Header) (offset : ℕ) : ℕ := (offset - h.offsetToData) / h.blocksize

/-- The copy with the word that is on the volume. -/
def refresh (volume : Volume) (data : Backend h) (pos : Fin (calcBlockMapSize h.blockcount)) :
    Backend h :=
  { data with blockMap := data.blockMap.set pos (volume (mapOffset pos)) }

/-- One round of the loop in `fragment_delete`: whether the swap has succeeded, the client's data
and the volume afterwards. -/
def deleteRound (data : Backend h) (bitmapPos : Fin (calcBlockMapSize h.blockcount)) (bit : Word)
    (volume : Volume) : Bool × Backend h × Volume :=
  let expected := data.blockMap.get bitmapPos
  let swap := expected &&& bit
  let (found, volume) := kdsaCompareAndSwap volume (mapOffset bitmapPos) expected swap
  if found = expected then (true, { data with blockMap := data.blockMap.set bitmapPos swap },
    volume)
  else (false, { data with blockMap := data.blockMap.set bitmapPos found }, volume)

/-- A `kdsa_compare_and_swap` of another client. -/
structure Swap where
  offset : ℕ
  compare : Word
  swap : Word

/-- The volume after it. -/
def Swap.apply (s : Swap) (volume : Volume) : Volume :=
  (kdsaCompareAndSwap volume s.offset s.compare s.swap).2

/-- `fragment_delete` of the fragment at the given offset, while other clients take the given steps
between its rounds.  It starts with `data` and `volume`; its last swap finds the volume `before` and
leaves `after`, with the client's data `data'`. -/
inductive FragmentDelete (h : Header) (offset : ℕ) :
    List Swap → Backend h → Volume → Volume → Volume → Backend h → Prop
  | swap {data data' : Backend h} {volume after : Volume}
      {bitmapPos : Fin (calcBlockMapSize h.blockcount)} (hpos : bitmapPos = deletePos h offset / 64)
      (hround : deleteRound data bitmapPos (deleteMask (deletePos h offset)) volume
        = (true, data', after)) :
      FragmentDelete h offset [] data volume volume after data'
  | retry {others : List Swap} {data data₁ data' : Backend h} {volume volume₁ before after : Volume}
      {bitmapPos : Fin (calcBlockMapSize h.blockcount)} (hpos : bitmapPos = deletePos h offset / 64)
      (hround : deleteRound data bitmapPos (deleteMask (deletePos h offset)) volume
        = (false, data₁, volume₁))
      (hrest : FragmentDelete h offset others data₁ volume₁ before after data') :
      FragmentDelete h offset others data volume before after data'
  | other {others : List Swap} {data data' : Backend h} {volume before after : Volume} (s : Swap)
      (hrest : FragmentDelete h offset others data (s.apply volume) before after data') :
      FragmentDelete h offset (s :: others) data volume before after data'

end Delete

section Quiet

/-- A volume that no other client uses, and the numbers that `rand()` is going to return. -/
structure Quiet where
  volume : Volume
  rands : ℕ → ℕ

/-- What a client is told then: a read returns the words of the block map. -/
def Quiet.answer (s : Quiet) : (q : Request) → Response h q × Quiet
  | .rand => (s.rands 0, { s with rands := fun n => s.rands (n + 1) })
  | .readBlockMap => (some (Vector.ofFn fun pos => s.volume (mapOffset pos)), s)
  | .compareAndSwap offset compare swap =>
    let (found, volume) := kdsaCompareAndSwap s.volume offset compare swap
    (found, { s with volume := volume })

end Quiet

end Backend

/-- Clients that allocate blocks of one volume. -/
abbrev Pool (h : Header) (ι : Type) := Client.Pool ι Volume (Response h) ℕ (Backend h)

/-- A step of one of the clients; with the offset that `find_offset_to_store_fragment` returns by
it. -/
abbrev Step (h : Header) {ι : Type} [DecidableEq ι] :
    Pool h ι → Option ℕ → Pool h ι → Prop :=
  Client.Pool.Step (serve h) findOffsetToStoreFragment

/-- Any interleaving of the clients' calls, with the offsets they return. -/
abbrev Run (h : Header) {ι : Type} [DecidableEq ι] : Pool h ι → List ℕ → Pool h ι → Prop :=
  Client.Pool.Run (serve h) findOffsetToStoreFragment

end Esdm.Kdsa
