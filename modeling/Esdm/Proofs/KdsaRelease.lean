import Esdm.Proofs.KdsaSearch

/-!
# The release of a block

`fragment_delete` swaps the word of its block until it has found the word it expected; the rounds
before leave the volume alone, so the last one decides.  Its mask has been through an `int`.  For
the lowest 31 blocks of a word it is right, for the next one it has all higher bits clear, and for
the others it has none clear (`fragmentDelete_releases_iff`).
-/

namespace Esdm.Kdsa

variable {h : Header} {block : ℕ}

section Mask

theorem getLsbD_not_one_shiftLeft {b i : ℕ} (hi : i < 64) :
    (~~~(1#64 <<< b)).getLsbD i = decide (i ≠ b) := by
  simp only [BitVec.getLsbD_not, BitVec.getLsbD_shiftLeft, BitVec.getLsbD_one]
  rw [Bool.eq_iff_iff]
  simp [hi]
  omega

/-- The bits from the 31st on are one bit of the `int`. -/
theorem getLsbD_deleteMask {i : ℕ} (hi : i < 64) :
    (deleteMask block).getLsbD i = decide (min i 31 ≠ block % 64) := by
  rw [deleteMask, BitVec.getLsbD_signExtend, decide_eq_true hi, Bool.true_and,
    BitVec.msb_eq_getLsbD_last]
  split_ifs with hlow
  · rw [BitVec.truncate_eq_setWidth, BitVec.getLsbD_setWidth, decide_eq_true hlow, Bool.true_and,
      getLsbD_not_one_shiftLeft hi, Nat.min_eq_left (by omega)]
  · rw [BitVec.truncate_eq_setWidth, BitVec.getLsbD_setWidth, getLsbD_not_one_shiftLeft (by omega),
      Nat.min_eq_right (by omega)]
    simp

theorem deletePos_blockOffset (block : ℕ) : deletePos h (blockOffset h block) = block := by
  rw [deletePos, blockOffset, Nat.add_sub_cancel, Nat.mul_div_cancel _ h.blocksize_pos]

end Mask

section Rounds

variable {offset : ℕ} {others : List Swap} {data data' : Backend h} {volume before after : Volume}
  {pos : Fin (calcBlockMapSize h.blockcount)} {mask : Word}

theorem deleteRound_of_eq (heq : data.blockMap.get pos = volume (mapOffset pos)) :
    deleteRound data pos mask volume
      = (true,
        { data with blockMap := data.blockMap.set pos (volume (mapOffset pos) &&& mask) pos.isLt },
        Function.update volume (mapOffset pos) (volume (mapOffset pos) &&& mask)) := by
  simp [deleteRound, kdsaCompareAndSwap, heq]

theorem deleteRound_of_ne (hne : data.blockMap.get pos ≠ volume (mapOffset pos)) :
    deleteRound data pos mask volume = (false, refresh volume data pos, volume) := by
  simp [deleteRound, kdsaCompareAndSwap, Ne.symm hne, refresh]

/-- Until its last swap the call leaves the volume to the other clients. -/
theorem FragmentDelete.spec (hd : FragmentDelete h offset others data volume before after data') :
    before = others.foldl (fun volume s => s.apply volume) volume
      ∧ after = Function.update before (mapOffset (deletePos h offset / 64))
        (before (mapOffset (deletePos h offset / 64)) &&& deleteMask (deletePos h offset)) := by
  induction hd with
  | @swap data data' volume after pos hpos hround =>
    by_cases heq : data.blockMap.get pos = volume (mapOffset pos)
    · rw [deleteRound_of_eq heq, Prod.mk.injEq, Prod.mk.injEq] at hround
      rw [← hpos]
      exact ⟨rfl, hround.2.2.symm⟩
    · rw [deleteRound_of_ne heq] at hround
      cases hround
  | @retry others data data₁ data' volume volume₁ before after pos hpos hround hrest ih =>
    by_cases heq : data.blockMap.get pos = volume (mapOffset pos)
    · rw [deleteRound_of_eq heq] at hround
      cases hround
    · rw [deleteRound_of_ne heq] at hround
      cases hround
      exact ih
  | other s hrest ih => exact ih

/-- Whatever the other clients do before, two rounds are enough. -/
theorem FragmentDelete.exists_of_lt (hlt : deletePos h offset / 64 < calcBlockMapSize h.blockcount)
    (others : List Swap) (data : Backend h) (volume : Volume) :
    ∃ before after data', FragmentDelete h offset others data volume before after data' := by
  have hpos : ((⟨_, hlt⟩ : Fin (calcBlockMapSize h.blockcount)) : ℕ) = deletePos h offset / 64 :=
    rfl
  induction others generalizing volume with
  | nil =>
    by_cases heq : data.blockMap.get ⟨_, hlt⟩ = volume (mapOffset (deletePos h offset / 64))
    · exact ⟨_, _, _, .swap hpos (deleteRound_of_eq heq)⟩
    · exact ⟨_, _, _, .retry hpos (deleteRound_of_ne heq)
        (.swap hpos (deleteRound_of_eq (refresh_get_self _)))⟩
  | cons s others ih =>
    obtain ⟨before, after, data', hd⟩ := ih (s.apply volume)
    exact ⟨before, after, data', .other s hd⟩

end Rounds

section Release

variable {before after : Volume}

/-- The bits that the last swap leaves. -/
theorem bit_release (hafter : after = Function.update before (mapOffset (block / 64))
    (before (mapOffset (block / 64)) &&& deleteMask block)) (other : ℕ) :
    bit after other
      = (bit before other && !decide (other / 64 = block / 64
        ∧ min (other % 64) 31 = block % 64)) := by
  subst hafter
  rw [bit, bit]
  by_cases hpos : other / 64 = block / 64
  · rw [hpos, Function.update_self, BitVec.getLsbD_and, getLsbD_deleteMask (by omega)]
    simp
  · rw [Function.update_of_ne (by simp only [mapOffset]; omega)]
    simp [hpos]

/-- A block that is free can be taken: there is a copy of the map with which a client comes to it.
-/
theorem exists_tryToUseBlock (hlt : block < h.blockcount) (hclear : bit after block = false)
    (rands : ℕ → ℕ) : ∃ (data : Backend h) (pos : Fin (calcBlockMapSize h.blockcount)),
      ((tryToUseBlock data pos).eval Quiet.answer ⟨after, rands⟩).1.1 = blockOffset h block := by
  have hpos : block / 64 < calcBlockMapSize h.blockcount := by
    rw [calcBlockMapSize]
    omega
  have hsplit : block % 64 + 64 * (block / 64) = block := by omega
  have hget : ∀ w : Word, (Vector.replicate (calcBlockMapSize h.blockcount) w).get ⟨_, hpos⟩
    = w := by
    intro w
    simp [vector_get_eq]
  rcases Nat.eq_zero_or_pos (block % 64) with hzero | hpos0
  · -- the first block of its word, in a copy that is right
    refine ⟨⟨Vector.replicate _ (after (mapOffset (block / 64))), 0⟩, ⟨_, hpos⟩, ?_⟩
    rw [tryToUseBlock, show List.range 64 = 0 :: List.range' 1 63 from rfl,
      (eval_tryBits_of_clear (by omega) (by rw [hget, ← hclear, bit, hzero])).1 (hget _)]
    exact congrArg (blockOffset h) ((congrArg (· + _) hzero.symm).trans hsplit)
  · -- the copy says that only the block in front of it is free, and the attempt goes on behind that
    obtain ⟨m, hm⟩ : ∃ m, block % 64 = m + 1 := ⟨block % 64 - 1, by omega⟩
    have hmask : ∀ i < 64, (~~~(1#64 <<< m)).getLsbD i = decide (i ≠ m) := fun i hi =>
      getLsbD_not_one_shiftLeft hi
    have hrange :
      List.range 64 = List.range' 0 m ++ m :: (m + 1) :: List.range' (m + 2) (62 - m) := by
      have hsplit := @List.range'_append_1 0 m (62 - m + 1 + 1)
      rw [Nat.zero_add, show m + (62 - m + 1 + 1) = 64 by omega] at hsplit
      rw [List.range_eq_range', ← hsplit, List.range'_succ, List.range'_succ]
    have hne : ~~~(1#64 <<< m) ≠ after (mapOffset (block / 64)) := by
      intro heq
      rw [bit, ← heq, hm, hmask _ (by omega)] at hclear
      simp at hclear
    refine ⟨⟨Vector.replicate _ (~~~(1#64 <<< m)), 0⟩, ⟨_, hpos⟩, ?_⟩
    rw [tryToUseBlock, hrange, eval_tryBits_stale (by rwa [hget])
      (by rw [hget, hmask m (by omega)]; simp) (by omega)
      (fun b hb => by rw [hget, hmask b (by omega)]; simp; omega) (Nat.zero_add m)]
    rw [(eval_tryBits_of_clear (by omega) (by rw [refresh_get_self, ← hclear, bit, hm])).1
      (refresh_get_self _)]
    exact congrArg (blockOffset h) ((congrArg (· + _) hm.symm).trans hsplit)

/-- What the last swap of a deletion is meant to do to the map: the block is free, no other bit has
changed, the block can be taken again, and after the step that has taken it the map is what it was
before that step. -/
structure Releases (h : Header) (block : ℕ) (before after : Volume) : Prop where
  cleared : bit after block = false
  kept : ∀ other, other ≠ block → bit after other = bit before other
  again : ∀ rands, ∃ (data : Backend h) (pos : Fin (calcBlockMapSize h.blockcount)),
    ((tryToUseBlock data pos).eval Quiet.answer ⟨after, rands⟩).1.1 = blockOffset h block
  restores : ∀ volume, TakesBlock h (some (blockOffset h block)) volume before →
    ∀ other, bit after other = bit volume other

theorem releases_of_bits (hlt : block < h.blockcount) (hcleared : bit after block = false)
    (hkept : ∀ other, other ≠ block → bit after other = bit before other) :
    Releases h block before after := by
  refine ⟨hcleared, hkept, exists_tryToUseBlock hlt hcleared, fun volume ht other => ?_⟩
  obtain ⟨block', -, heq, hfree, -, hother⟩ := ht.1 _ rfl (blockOffset_ne_zero block)
  obtain rfl := blockOffset_inj heq
  by_cases hb : other = block
  · rw [hb, hcleared, hfree]
  · rw [hkept other hb, hother other hb]

/-- The last swap releases the block if the mask clears its bit, or it is clear already, and the
other bits that the mask clears are clear. -/
theorem releases_iff_bits (hlt : block < h.blockcount)
    (hafter : after = Function.update before (mapOffset (block / 64))
      (before (mapOffset (block / 64)) &&& deleteMask block)) :
    Releases h block before after
      ↔ (block % 64 ≤ 31 ∨ bit before block = false)
        ∧ ∀ other, other ≠ block → other / 64 = block / 64 → min (other % 64) 31 = block % 64 →
          bit before other = false := by
  have hbit := bit_release hafter
  have hself : bit after block = (bit before block && !decide (block % 64 ≤ 31)) := by
    rw [hbit, decide_eq_decide.2 (show _ ↔ block % 64 ≤ 31 by omega)]
  constructor
  · intro hrel
    refine ⟨?_, fun other hne hpos hmin => ?_⟩
    · rw [hrel.cleared] at hself
      by_contra! hno
      rw [decide_eq_false (Nat.not_le.2 hno.1)] at hself
      exact hno.2 (by simpa using hself.symm)
    · rw [← hrel.kept other hne, hbit, decide_eq_true ⟨hpos, hmin⟩]
      simp
  · rintro ⟨hclears, hothers⟩
    refine releases_of_bits hlt ?_ fun other hne => ?_
    · rw [hself]
      rcases hclears with hle | hfree
      · simp [hle]
      · simp [hfree]
    · rw [hbit]
      by_cases hhit : other / 64 = block / 64 ∧ min (other % 64) 31 = block % 64
      · rw [hothers other hne hhit.1 hhit.2, Bool.false_and]
      · simp [hhit]

/-- `fragment_delete` of any block returns, and its last swap releases the block exactly if the
block is one of the lowest 31 of its word, or the next one and no higher one of the word is in use,
or a higher one that has been released already. -/
theorem fragmentDelete_releases_iff (hlt : block < h.blockcount) (others : List Swap)
    (data : Backend h) (volume : Volume) :
    (∃ before after data',
      FragmentDelete h (blockOffset h block) others data volume before after data')
      ∧ ∀ before after data',
        FragmentDelete h (blockOffset h block) others data volume before after data' →
          (Releases h block before after
            ↔ block % 64 < 31
              ∨ (block % 64 = 31
                ∧ ∀ b, 31 < b → b < 64 → bit before (b + 64 * (block / 64)) = false)
              ∨ (31 < block % 64 ∧ bit before block = false)) := by
  refine ⟨FragmentDelete.exists_of_lt ?_ others data volume, fun before after data' hd => ?_⟩
  · rw [deletePos_blockOffset, calcBlockMapSize]
    omega
  have hafter := hd.spec.2
  rw [deletePos_blockOffset] at hafter
  rw [releases_iff_bits hlt hafter]
  constructor
  · rintro ⟨hclears, hothers⟩
    rcases Nat.lt_trichotomy (block % 64) 31 with hlow | hmid | hhigh
    · exact .inl hlow
    · refine .inr (.inl ⟨hmid, fun b hb hb' => ?_⟩)
      exact hothers (b + 64 * (block / 64)) (by omega) (by omega) (by omega)
    · exact .inr (.inr ⟨hhigh, hclears.resolve_left (by omega)⟩)
  · rintro (hlow | ⟨hmid, hfree⟩ | ⟨hhigh, hfree⟩)
    · exact ⟨.inl (by omega), fun other hne hpos hmin => absurd hmin (by omega)⟩
    · refine ⟨.inl (by omega), fun other hne hpos hmin => ?_⟩
      have hother : other % 64 + 64 * (block / 64) = other := by omega
      exact hother ▸ hfree (other % 64) (by omega) (by omega)
    · exact ⟨.inr hfree, fun other hne hpos hmin => absurd hmin (by omega)⟩

/-- The two blocks of a small volume are both in use; the second one is released. -/
theorem fragmentDelete_releases_iff_pair : ∃ before after data',
    FragmentDelete pairHeader (blockOffset pairHeader 1) [] ⟨#v[0xFFFFFFFFFFFFFFFF#64], 0⟩
        (fun _ => 0xFFFFFFFFFFFFFFFF#64) before after data'
      ∧ Releases pairHeader 1 before after := by
  obtain ⟨⟨before, after, data', hd⟩, hrel⟩ :=
    @fragmentDelete_releases_iff pairHeader 1 (by decide) []
    ⟨#v[0xFFFFFFFFFFFFFFFF#64], 0⟩ fun _ => 0xFFFFFFFFFFFFFFFF#64
  exact ⟨before, after, data', hd, (hrel before after data' hd).2 (.inl (by decide))⟩

/-- A volume of 65 blocks which are all in use, and a client that knows it.  The fragment in block
32 is deleted and the block stays in use.  The fragment in block 31 is deleted, and block 40 is
free. -/
theorem fragmentDelete_not_releases :
    (∃ after data', FragmentDelete wideHeader (blockOffset wideHeader 32) []
        ⟨#v[BitVec.allOnes 64, BitVec.allOnes 64], 0⟩ (fun _ => BitVec.allOnes 64)
        (fun _ => BitVec.allOnes 64) after data'
      ∧ bit after 32 = true ∧ ¬ Releases wideHeader 32 (fun _ => BitVec.allOnes 64) after)
    ∧ ∃ after data', FragmentDelete wideHeader (blockOffset wideHeader 31) []
        ⟨#v[BitVec.allOnes 64, BitVec.allOnes 64], 0⟩ (fun _ => BitVec.allOnes 64)
        (fun _ => BitVec.allOnes 64) after data'
      ∧ bit after 40 = false ∧ ¬ Releases wideHeader 31 (fun _ => BitVec.allOnes 64) after := by
  have hpos : ((⟨0, by decide⟩ : Fin (calcBlockMapSize wideHeader.blockcount)) : ℕ) = 0 := rfl
  refine ⟨⟨_, _, .swap hpos rfl, ?_⟩, ⟨_, _, .swap hpos rfl, ?_⟩⟩
  · refine ⟨by decide, fun hrel => ?_⟩
    have := hrel.cleared
    revert this
    decide
  · refine ⟨by decide, fun hrel => ?_⟩
    have := hrel.kept 40 (by decide)
    revert this
    decide

end Release

end Esdm.Kdsa
