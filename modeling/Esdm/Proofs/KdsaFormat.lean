import Mathlib.Algebra.BigOperators.Group.List.Basic
import Mathlib.Data.List.Range
import Esdm.Proofs.Kdsa

/-!
# What `mkfs` writes

The number of blocks comes from a formula that counts a 64th of a byte for a block's bit in the map,
where an eighth is used, and leaves out both roundings.  So the blocks fit on the volume only if the
division has left enough over (`mkfsHeader_fits_iff`).

The block map is right unless the number of blocks is a multiple of 64: the last word is then full
of blocks, and all of them are marked as used (`mkfsWords_initial_iff`).
-/

namespace Esdm.Kdsa

variable {h : Header}

section Geometry

variable {blocksize volumeSize : ℕ}

/-- The layout fits on a volume of the given size: the block map is between the header and the data,
which is aligned, and neither a block nor an offset that clients are given reaches beyond the end.
-/
structure Fits (h : Header) (volumeSize : ℕ) : Prop where
  map : headerSize + calcBlockMapSize h.blockcount * 8 ≤ h.offsetToData
  aligned : 64 ∣ h.offsetToData
  blocks : ∀ block < h.blockcount, blockOffset h block + h.blocksize ≤ volumeSize
  offsets : ∀ {ι : Type} [DecidableEq ι] {p p' : Pool h ι} {offsets : List ℕ}, Reserved h p.store →
    Idle p → Run h p offsets p' → ∀ offset ∈ offsets, offset ≠ 0 → offset + h.blocksize ≤ volumeSize

/-- The offsets that a run returns are those of the volume's blocks. -/
theorem Run.offset_of_mem {ι : Type} [DecidableEq ι] {p p' : Pool h ι} {offsets : List ℕ}
    (hr : Run h p offsets p') (hp : Sound p) :
    ∀ offset ∈ offsets, offset ≠ 0 → ∃ block < h.blockcount, offset = blockOffset h block := by
  induction hr with
  | nil => simp
  | snoc hr hs ih =>
    intro offset hmem hne
    rcases List.mem_append.1 hmem with hmem | hmem
    · exact ih offset hmem hne
    · have ht := Step.takesBlock hs (Run.sound hr hp)
      obtain ⟨block, hlt, heq, -⟩ := ht.1 offset (by simpa using hmem) hne
      exact ⟨block, hlt, heq⟩

/-- What the division in `calc_block_count` leaves over. -/
def remainder (blocksize volumeSize : ℕ) : ℕ :=
  64 * (volumeSize - headerSize) % (1 + 64 * blocksize)

theorem calcBlockCount_eq (hcount : 0 < calcBlockCount blocksize volumeSize) :
    64 * volumeSize = 64 * headerSize + calcBlockCount blocksize volumeSize
      + 64 * (calcBlockCount blocksize volumeSize * blocksize)
        + remainder blocksize volumeSize := by
  have hbig : ¬ volumeSize ≤ headerSize := by
    intro hsmall
    simp [calcBlockCount, hsmall] at hcount
  rw [calcBlockCount, if_neg hbig]
  have hdiv := Nat.div_add_mod (64 * (volumeSize - headerSize)) (1 + 64 * blocksize)
  unfold remainder
  set n := 64 * (volumeSize - headerSize) / (1 + 64 * blocksize)
  have hmul : (1 + 64 * blocksize) * n = n + 64 * (n * blocksize) := by ring
  omega

theorem blocks_le_iff (h : Header) (volumeSize : ℕ) :
    (∀ block < h.blockcount, blockOffset h block + h.blocksize ≤ volumeSize)
      ↔ h.offsetToData + h.blockcount * h.blocksize ≤ volumeSize := by
  have hpos := h.blockcount_pos
  constructor
  · intro hall
    have hlast := hall (h.blockcount - 1) (by omega)
    have hsplit : h.blockcount * h.blocksize = (h.blockcount - 1) * h.blocksize + h.blocksize := by
      rw [← Nat.succ_mul]
      congr 1
      omega
    unfold blockOffset at hlast
    omega
  · intro hle block hlt
    have hmul : (block + 1) * h.blocksize ≤ h.blockcount * h.blocksize :=
      Nat.mul_le_mul_right _ hlt
    rw [Nat.succ_mul] at hmul
    unfold blockOffset
    omega

/-- The layout that `mkfs` writes fits on its volume exactly if the blocks' 64ths of a byte and what
the division has left over make up for the block map and the alignment. -/
theorem mkfsHeader_fits_iff (hsize : 0 < blocksize)
    (hcount : 0 < calcBlockCount blocksize volumeSize) :
    Fits (mkfsHeader blocksize volumeSize hsize hcount) volumeSize
      ↔ 64 * ((mkfsHeader blocksize volumeSize hsize hcount).offsetToData - headerSize)
        ≤ calcBlockCount blocksize volumeSize + remainder blocksize volumeSize := by
  have heq := calcBlockCount_eq hcount
  have hle := blocks_le_iff (mkfsHeader blocksize volumeSize hsize hcount) volumeSize
  have hmap : headerSize + calcBlockMapSize (calcBlockCount blocksize volumeSize) * 8
      ≤ (mkfsHeader blocksize volumeSize hsize hcount).offsetToData := by
    simp only [mkfsHeader]
    omega
  -- both sides say that the last block ends in front of the volume's end
  have hiff : (∀ block < calcBlockCount blocksize volumeSize,
      blockOffset (mkfsHeader blocksize volumeSize hsize hcount) block + blocksize ≤ volumeSize)
        ↔ 64 * ((mkfsHeader blocksize volumeSize hsize hcount).offsetToData - headerSize)
          ≤ calcBlockCount blocksize volumeSize + remainder blocksize volumeSize := by
    refine hle.trans ?_
    generalize (mkfsHeader blocksize volumeSize hsize hcount).offsetToData = offset at hmap
    simp only [mkfsHeader]
    omega
  rw [← hiff]
  refine ⟨fun hfits => hfits.blocks, fun hblocks => ⟨hmap, ⟨_, Nat.mul_comm _ _⟩, hblocks, ?_⟩⟩
  intro ι _ p p' offsets hres hidle hr offset hmem hne
  obtain ⟨block, hlt, rfl⟩ := Run.offset_of_mem hr (hidle.sound hres) offset hmem hne
  exact hblocks block hlt

/-- On a volume of 1 MiB with blocks of 16 KiB the division leaves more than 64 bytes over. -/
theorem mkfsHeader_fits_iff_mib : ∃ hsize hcount,
    Fits (mkfsHeader (2 ^ 14) (2 ^ 20) hsize hcount) (2 ^ 20) :=
  ⟨by decide, by decide, (mkfsHeader_fits_iff (by decide) (by decide)).2 (by decide)⟩

/-- A volume of 1 GiB with blocks of 4 KiB: the last of its 262142 blocks ends behind the volume. -/
theorem mkfsHeader_not_fits : ∃ hsize hcount,
    (mkfsHeader 4096 (2 ^ 30) hsize hcount).blockcount = 262142
      ∧ blockOffset (mkfsHeader 4096 (2 ^ 30) hsize hcount) 262141 + 4096 = 2 ^ 30 + 24640
      ∧ ¬ Fits (mkfsHeader 4096 (2 ^ 30) hsize hcount) (2 ^ 30) := by
  refine ⟨by decide, by decide, rfl, rfl, fun hfits => ?_⟩
  have hlast := hfits.blocks 262141 (by decide)
  revert hlast
  decide

end Geometry

section BlockMap

variable {blocks : ℕ} {words : List Word}

/-- The bit of a block in a list of words. -/
def wordsBit (words : List Word) (i : ℕ) : Bool := (words.getD (i / 64) 0).getLsbD (i % 64)

/-- The block map says of each block that it is free, and of what is behind the last block that it
is in use; a client that loads it counts all blocks. -/
structure InitialMap (blocks : ℕ) (words : List Word) : Prop where
  length : words.length = calcBlockMapSize blocks
  bits : ∀ i < 64 * words.length, wordsBit words i = decide (blocks ≤ i)
  estimate : ∀ (h : Header) (data : Backend h) (read : Vector Word (calcBlockMapSize h.blockcount)),
    h.blockcount = blocks → read.toList = words →
      (loadBlockBitmap data (some read)).2.freeBlocksEstimate = blocks

theorem countBits_eq (n : ℕ) (w : Word) :
    countBits n w = (List.range n).countP fun i => w.getLsbD i := by
  induction n generalizing w with
  | zero => rfl
  | succ n ih =>
    have hone : w &&& 1 ≠ 0 ↔ w.getLsbD 0 = true :=
      @and_one_shiftLeft_ne_zero w 0 (by omega)
    rw [countBits, ih, List.range_succ_eq_map, List.countP_cons, List.countP_map]
    simp only [hone, BitVec.getLsbD_ushiftRight, Function.comp_def, Nat.succ_eq_add_one,
      Nat.add_comm]

theorem wordsBit_cons_of_lt {w : Word} {i : ℕ} (hi : i < 64) :
    wordsBit (w :: words) i = w.getLsbD i := by
  simp [wordsBit, Nat.div_eq_of_lt hi, Nat.mod_eq_of_lt hi]

theorem wordsBit_cons_add (w : Word) (i : ℕ) :
    wordsBit (w :: words) (64 + i) = wordsBit words i := by
  simp [wordsBit, Nat.add_div_left]

/-- `load_block_bitmap` counts the bits that are clear. -/
theorem foldl_countBits (words : List Word) (n : ℕ) :
    words.foldl (fun n w => n + countBits 64 (~~~w)) n
      = n + (List.range (64 * words.length)).countP fun i => !wordsBit words i := by
  induction words generalizing n with
  | nil => rfl
  | cons w words ih =>
    have hfirst : (List.range 64).countP (fun i => !wordsBit (w :: words) i)
        = (List.range 64).countP fun i => (~~~w).getLsbD i := by
      refine List.countP_congr fun i hi => ?_
      rw [List.mem_range] at hi
      simp [wordsBit_cons_of_lt hi, hi]
    rw [List.foldl_cons, ih, countBits_eq, List.length_cons, Nat.mul_succ, Nat.add_comm _ 64,
      List.range_add, List.countP_append, List.countP_map, hfirst]
    simp only [Function.comp_def, wordsBit_cons_add]
    omega

theorem loadBlockBitmap_estimate (data : Backend h)
    (read : Vector Word (calcBlockMapSize h.blockcount)) :
    (loadBlockBitmap data (some read)).2.freeBlocksEstimate
      = (List.range (64 * read.toList.length)).countP fun i => !wordsBit read.toList i := by
  exact (foldl_countBits read.toList 0).trans (Nat.zero_add _)

theorem wordsBit_mkfs {i : ℕ} (hi : i < 64 * calcBlockMapSize blocks) :
    wordsBit ((List.range (calcBlockMapSize blocks)).map (mkfsBlockMap blocks)) i
      = decide (64 * (calcBlockMapSize blocks - 1) + blocks % 64 ≤ i) := by
  have hpos : i / 64 < calcBlockMapSize blocks := by omega
  rw [wordsBit, List.getD_eq_getElem?_getD, List.getElem?_map, List.getElem?_range hpos,
    Option.map_some, Option.getD_some, mkfsBlockMap]
  split_ifs with hlast
  · rw [getLsbD_occupy (by omega)]
    simp only [BitVec.ofNat_eq_ofNat, BitVec.getLsbD_zero, Bool.or_false, decide_eq_decide]
    omega
  · simp only [BitVec.ofNat_eq_ofNat, BitVec.getLsbD_zero]
    rw [eq_comm, decide_eq_false_iff_not]
    omega

theorem countP_range_lt (m n : ℕ) : (List.range n).countP (fun i => decide (i < m)) = min m n := by
  induction n with
  | zero => simp
  | succ n ih =>
    rw [List.range_succ, List.countP_append, ih]
    by_cases hn : n < m
    · simp only [List.countP_singleton, hn, decide_true, if_true]
      omega
    · simp only [List.countP_singleton, hn, decide_false, Bool.false_eq_true, if_false]
      omega

theorem initialMap_of_bits (hlen : words.length = calcBlockMapSize blocks)
    (hbits : ∀ i < 64 * words.length, wordsBit words i = decide (blocks ≤ i)) :
    InitialMap blocks words := by
  refine ⟨hlen, hbits, fun h data read hcount hread => ?_⟩
  have hcongr : (List.range (64 * words.length)).countP (fun i => !wordsBit words i)
      = (List.range (64 * words.length)).countP fun i => decide (i < blocks) := by
    refine List.countP_congr fun i hi => ?_
    rw [hbits i (List.mem_range.1 hi)]
    simp
  have hle : blocks ≤ 64 * words.length := by
    rw [hlen, calcBlockMapSize]
    omega
  rw [loadBlockBitmap_estimate, hread, hcongr, countP_range_lt]
  omega

/-- For every number of blocks that `mkfs` computes, the block map that it writes is right exactly
if the number is not a multiple of 64. -/
theorem mkfsWords_initial_iff (blocksize volumeSize : ℕ) :
    (∃ words, mkfsWords (calcBlockCount blocksize volumeSize) = some words
        ∧ InitialMap (calcBlockCount blocksize volumeSize) words)
      ↔ calcBlockCount blocksize volumeSize % 64 ≠ 0 := by
  generalize calcBlockCount blocksize volumeSize = blocks
  unfold mkfsWords
  have hlength : ((List.range (calcBlockMapSize blocks)).map (mkfsBlockMap blocks)).length
      = calcBlockMapSize blocks := by simp
  constructor
  · rintro ⟨words, heq, hinit⟩ hzero
    split_ifs at heq with hsize
    obtain rfl := Option.some.inj heq
    -- the last block, which is free, has its bit in the word that is all used
    have hbits := hinit.bits (blocks - 1)
    rw [hlength] at hbits
    unfold calcBlockMapSize at hsize hbits
    have hlast := hbits (by omega)
    rw [← calcBlockMapSize, wordsBit_mkfs (by unfold calcBlockMapSize; omega), decide_eq_decide,
      calcBlockMapSize] at hlast
    omega
  · intro hne
    have hsize : calcBlockMapSize blocks ≠ 0 := by
      unfold calcBlockMapSize
      omega
    rw [if_neg hsize]
    refine ⟨_, rfl, initialMap_of_bits hlength fun i hi => ?_⟩
    rw [hlength] at hi
    rw [wordsBit_mkfs hi, decide_eq_decide]
    unfold calcBlockMapSize
    omega

/-- A volume with 64 blocks of one byte: the block map that `mkfs` writes has no free block, and a
client that loads it finds none. -/
theorem mkfsWords_not_initial : calcBlockCount 1 97 = 64
    ∧ mkfsWords (calcBlockCount 1 97) = some [0xFFFFFFFFFFFFFFFF#64]
    ∧ ¬ ∃ words, mkfsWords (calcBlockCount 1 97) = some words
      ∧ InitialMap (calcBlockCount 1 97) words := by
  have hwords : mkfsWords (calcBlockCount 1 97) = some [0xFFFFFFFFFFFFFFFF#64] := by decide +kernel
  refine ⟨by decide, hwords, ?_⟩
  rintro ⟨words, heq, hinit⟩
  obtain rfl := Option.some.inj (hwords.symm.trans heq)
  have hbit := hinit.bits 0 (by decide)
  revert hbit
  decide

end BlockMap

end Esdm.Kdsa
