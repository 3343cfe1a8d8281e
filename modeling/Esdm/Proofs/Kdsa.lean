import Mathlib.Data.List.Nodup
import Mathlib.Tactic.Ring
import Esdm.Kdsa

/-!
# Blocks are allocated once

A call of `find_offset_to_store_fragment` changes at most one bit of the shared map: the bit of the
block it returns, by its last swap.  A swap that succeeds has found the word it expected, so the
client's stale copy was right about the bit.  Bits are never cleared, so no block is returned twice.
-/

namespace Esdm.Kdsa

variable {h : Header}

section Words

theorem and_one_shiftLeft_ne_zero {w : Word} {b : ℕ} (hb : b < 64) :
    w &&& 1#64 <<< b ≠ 0 ↔ w.getLsbD b = true := by
  constructor
  · intro hne
    by_contra hw
    refine hne (BitVec.eq_of_getLsbD_eq fun i hi => ?_)
    have hib : w.getLsbD i = true → i ≠ b := by
      rintro hi rfl
      exact hw hi
    simp only [BitVec.getLsbD_and, BitVec.getLsbD_shiftLeft, BitVec.getLsbD_one,
      BitVec.ofNat_eq_ofNat, BitVec.getLsbD_zero]
    grind
  · intro hw h0
    have := congrArg (fun v : Word => v.getLsbD b) h0
    simp only [BitVec.getLsbD_and, BitVec.getLsbD_shiftLeft, BitVec.getLsbD_one, hw] at this
    simp [hb] at this

theorem getLsbD_or_one_shiftLeft {w : Word} {b i : ℕ} (hb : b < 64) :
    (w ||| 1#64 <<< b).getLsbD i = (w.getLsbD i || i == b) := by
  simp only [BitVec.getLsbD_or, BitVec.getLsbD_shiftLeft, BitVec.getLsbD_one]
  grind

end Words

/-- Whether the block with the given number is in use. -/
def bit (volume : Volume) (block : ℕ) : Bool :=
  (volume (mapOffset (block / 64))).getLsbD (block % 64)

/-- The offset of a block's data. -/
def blockOffset (h : Header) (block : ℕ) : ℕ := block * h.blocksize + h.offsetToData

theorem blockOffset_ne_zero (block : ℕ) : blockOffset h block ≠ 0 := by
  have := h.offsetToData_pos
  rw [blockOffset]
  omega

theorem blockOffset_inj {i j : ℕ} (heq : blockOffset h i = blockOffset h j) : i = j :=
  Nat.eq_of_mul_eq_mul_right h.blocksize_pos (Nat.add_right_cancel heq)

theorem bit_update {volume : Volume} {pos b : ℕ} (hb : b < 64) (block : ℕ) :
    bit (Function.update volume (mapOffset pos) (volume (mapOffset pos) ||| 1#64 <<< b)) block
      = (bit volume block || block == b + 64 * pos) := by
  rw [bit, bit]
  by_cases hpos : block / 64 = pos
  · subst hpos
    rw [Function.update_self, getLsbD_or_one_shiftLeft hb]
    congr 1
    rw [Bool.eq_iff_iff, beq_iff_eq, beq_iff_eq]
    omega
  · rw [Function.update_of_ne (by simp only [mapOffset]; omega)]
    have : block ≠ b + 64 * pos := by omega
    simp [this]

section Program

/-- What a call does: until it has a block it may ask for anything, but it swaps only to set a bit
that was clear.  With the block it asks no more. -/
def Takes (h : Header) : Client.Protocol (Option ℕ) (Response h)
  | none, .compareAndSwap offset expected swap, after => ∃ pos b,
    pos < calcBlockMapSize h.blockcount
      ∧ b < 64 ∧ offset = mapOffset pos ∧ expected.getLsbD b = false
        ∧ swap = expected ||| 1#64 <<< b
      ∧ after = fun found => if found = expected then some (b + 64 * pos) else none
  | none, _, after => after = fun _ => none
  | some _, _, _ => False

/-- The result is the offset of the block that was taken, or 0. -/
def Taken (h : Header) (block : Option ℕ) (result : ℕ × Backend h) : Prop :=
  result.1 = block.elim 0 (blockOffset h)

theorem Taken.eq_none {block : Option ℕ} {result : ℕ × Backend h} (ht : Taken h block result)
    (h0 : result.1 = 0) : block = none := by
  rcases block with _ | block
  · rfl
  · exact absurd (ht.symm.trans h0) (blockOffset_ne_zero block)

/-- A program that takes a block or none. -/
abbrev Allocates (c : Client (Response h) (ℕ × Backend h)) : Prop :=
  Client.Follows (Takes h) (Taken h) none c

theorem allocates_fail (data : Backend h) : Allocates (pure (0, data)) := rfl

theorem tryBits_allocates (pos : Fin (calcBlockMapSize h.blockcount)) {bits : List ℕ}
    (hbits : ∀ b ∈ bits, b < 64) (data : Backend h) : Allocates (tryBits pos bits data) := by
  induction bits generalizing data with
  | nil => exact allocates_fail data
  | cons b bits ih =>
    have hb := hbits b List.mem_cons_self
    have ih := ih fun b hb => hbits b (List.mem_cons_of_mem _ hb)
    rw [tryBits]
    dsimp only
    split
    · exact allocates_fail data
    split
    · rename_i hclear
      rw [and_one_shiftLeft_ne_zero hb, BitVec.getLsbD_not, Bool.and_eq_true,
        Bool.not_eq_true'] at hclear
      refine Client.Follows.request ⟨pos, b, pos.2, hb, rfl, hclear.2, rfl, rfl⟩ fun found => ?_
      split
      · rfl
      · exact ih _
    · exact ih _

theorem tryToUseBlock_allocates (data : Backend h) (pos : Fin (calcBlockMapSize h.blockcount)) :
    Allocates (tryToUseBlock data pos) :=
  tryBits_allocates pos (fun _ hb => List.mem_range.1 hb) data

/-- Go on with another attempt if there is no block yet. -/
theorem Allocates.orElse {x : Client (Response h) (ℕ × Backend h)}
    {f : ℕ × Backend h → Client (Response h) (ℕ × Backend h)} (hx : Allocates x)
    (hnone : ∀ data, Allocates (f (0, data)))
    (hsome : ∀ block data, Client.Follows (Takes h) (Taken h) (some block)
      (f (blockOffset h block, data))) : Allocates (x >>= f) := by
  refine hx.bind fun block result ht => ?_
  obtain ⟨offset, data⟩ := result
  obtain rfl : offset = block.elim 0 (blockOffset h) := ht
  rcases block with _ | block
  · exact hnone data
  · exact hsome block data

theorem probe_allocates (n : ℕ) (data : Backend h) : Allocates (probe n data) := by
  induction n generalizing data with
  | zero => exact allocates_fail data
  | succ n ih =>
    refine Client.Follows.request rfl fun pos => (tryToUseBlock_allocates _ _).orElse ?_ ?_
    · exact fun data => ih data
    · intro block data
      simp only [ne_eq, blockOffset_ne_zero, not_false_eq_true, if_true]
      rfl

theorem sweep_allocates (start : ℕ) (is : List ℕ) (data : Backend h) :
    Allocates (sweep start is data) := by
  induction is generalizing data with
  | nil => exact allocates_fail data
  | cons i is ih =>
    refine (tryToUseBlock_allocates _ _).orElse ?_ ?_
    · exact fun data => ih data
    · intro block data
      simp only [ne_eq, blockOffset_ne_zero, not_false_eq_true, if_true]
      rfl

theorem findBlock_allocates (data : Backend h) : Allocates (findBlock data) := by
  refine (probe_allocates 30 data).orElse (fun data => ?_) fun block data => ?_
  · exact Client.Follows.request rfl fun start => sweep_allocates _ _ _
  · simp only [blockOffset_ne_zero, if_false]
    rfl

theorem search_allocates (data : Backend h) : Allocates (search data) := by
  refine (findBlock_allocates data).orElse (fun data => allocates_fail data) fun block data => ?_
  simp only [ne_eq, blockOffset_ne_zero, not_false_eq_true, if_true]
  rfl

theorem findOffsetToStoreFragment_allocates (data : Backend h) :
    Allocates (findOffsetToStoreFragment data) := by
  rw [findOffsetToStoreFragment]
  split
  · refine Client.Follows.request rfl fun read => ?_
    dsimp only
    split
    · exact allocates_fail _
    · exact search_allocates _
  · exact search_allocates _

end Program

section Exclusive

variable {ι : Type} [DecidableEq ι] {p p' p'' : Pool h ι}

/-- The bits behind the last block are set. -/
def Reserved (h : Header) (volume : Volume) : Prop :=
  ∀ block, h.blockcount ≤ block → block < 64 * calcBlockMapSize h.blockcount →
    bit volume block = true

/-- A step by which a call returns an offset has taken its block: the bit of the block was clear, it
is set, and all others are as before.  No other step changes the map. -/
def TakesBlock (h : Header) (returned : Option ℕ) (volume volume' : Volume) : Prop :=
  (∀ offset, returned = some offset → offset ≠ 0 → ∃ block < h.blockcount,
      offset = blockOffset h block ∧ bit volume block = false ∧ bit volume' block = true
        ∧ ∀ other, other ≠ block → bit volume' other = bit volume other)
    ∧ ((∀ offset, returned = some offset → offset = 0) → ∀ block,
      bit volume' block = bit volume block)

/-- No client is in the middle of a call. -/
def Idle (p : Pool h ι) : Prop := ∀ i, ∃ data, p.clients i = .idle data

/-- What is kept over a run: each client goes on as its program says, and the map is sound. -/
structure Sound (p : Pool h ι) : Prop where
  follows : p.Follows (Takes h) (Taken h)
  reserved : Reserved h p.store

/-- A step that takes no block. -/
theorem takesBlock_none {returned : Option ℕ} {volume : Volume}
    (h0 : ∀ offset, returned = some offset → offset = 0) : TakesBlock h returned volume volume :=
  ⟨fun offset heq hne => absurd (h0 offset heq) hne, fun _ _ => rfl⟩

theorem takesBlock_swap {volume : Volume} {pos b : ℕ} (hres : Reserved h volume) (hb : b < 64)
    (hpos : pos < calcBlockMapSize h.blockcount)
    (hclear : (volume (mapOffset pos)).getLsbD b = false) :
    TakesBlock h (some (blockOffset h (b + 64 * pos))) volume
      (Function.update volume (mapOffset pos) (volume (mapOffset pos) ||| 1#64 <<< b)) := by
  have hbit : bit volume (b + 64 * pos) = false := by
    rw [bit, show (b + 64 * pos) / 64 = pos by omega, show (b + 64 * pos) % 64 = b by omega, hclear]
  refine ⟨?_, fun h0 => absurd (h0 _ rfl) (blockOffset_ne_zero _)⟩
  rintro offset heq -
  obtain rfl := Option.some.inj heq
  refine ⟨b + 64 * pos, ?_, rfl, hbit, ?_, fun other hne => ?_⟩
  · by_contra hle
    have := hres (b + 64 * pos) (by omega) (by omega)
    rw [hbit] at this
    cases this
  · rw [bit_update hb, beq_self_eq_true, Bool.or_true]
  · rw [bit_update hb, beq_eq_false_iff_ne.2 hne, Bool.or_false]

theorem Step.takesBlock {returned : Option ℕ} (hs : Step h p returned p') (hp : Sound p) :
    TakesBlock h returned p.store p'.store := by
  obtain ⟨m, hm, hend⟩ := hs.spec hp.follows findOffsetToStoreFragment_allocates
  -- a call without a block returns 0 if it returns
  have hnone : m = none → p'.store = p.store → TakesBlock h returned p.store p'.store := by
    rintro rfl heq
    rw [heq]
    refine takesBlock_none fun offset hoff => ?_
    rcases hend with ⟨a, d, ha, ht⟩ | ⟨hr, -⟩
    · obtain rfl := Option.some.inj (hoff.symm.trans ha)
      exact ht
    · rw [hr] at hoff
      cases hoff
  rcases hm with ⟨rfl, heq⟩ | ⟨m₁, q, after, a, hP, hserve, rfl⟩
  · exact hnone rfl heq
  rcases m₁ with _ | _
  · rcases q with _ | _ | ⟨offset, expected, swap⟩
    · obtain rfl := hP
      exact hnone rfl hserve
    · obtain rfl := hP
      exact hnone rfl hserve
    · obtain ⟨pos, b, hpos, hb, rfl, hclear, rfl, rfl⟩ := hP
      obtain ⟨rfl, hstore⟩ := Prod.mk.inj hserve
      by_cases hfound : p.store (mapOffset pos) = expected
      · -- the copy was right about the word: the swap has set the bit, and the call returns
        subst hfound
        beta_reduce at hend
        rw [if_pos rfl] at hstore hend
        rcases hend with ⟨a, d, rfl, ht⟩ | ⟨-, q, after, hq⟩
        · obtain rfl : a = blockOffset h (b + 64 * pos) := ht
          rw [hstore]
          exact takesBlock_swap hp.reserved hb hpos hclear
        · exact hq.elim
      · rw [if_neg hfound] at hstore
        exact hnone (if_neg hfound) hstore
  · exact hP.elim

theorem TakesBlock.mono {returned : Option ℕ} {volume volume' : Volume}
    (ht : TakesBlock h returned volume volume') {block : ℕ} (hb : bit volume block = true) :
    bit volume' block = true := by
  by_cases h0 : ∀ offset, returned = some offset → offset = 0
  · rw [ht.2 h0, hb]
  · push Not at h0
    obtain ⟨offset, heq, hne⟩ := h0
    obtain ⟨block', -, -, -, hset, hother⟩ := ht.1 offset heq hne
    by_cases hbb : block = block'
    · rw [hbb, hset]
    · rw [hother block hbb, hb]

theorem Step.sound {returned : Option ℕ} (hs : Step h p returned p') (hp : Sound p) : Sound p' where
  follows := hs.follows hp.follows findOffsetToStoreFragment_allocates
  reserved := fun block hle hlt => (hs.takesBlock hp).mono (hp.reserved block hle hlt)

theorem Run.sound {offsets : List ℕ} (hr : Run h p offsets p') (hp : Sound p) : Sound p' := by
  induction hr with
  | nil => exact hp
  | snoc _ hs ih => exact Step.sound hs ih

/-- The blocks returned so far are in use. -/
theorem Run.bit_of_mem {offsets : List ℕ} (hr : Run h p offsets p') (hp : Sound p) :
    ∀ offset ∈ offsets, offset ≠ 0 → ∃ block, offset = blockOffset h block
      ∧ bit p'.store block = true := by
  induction hr with
  | nil => simp
  | snoc hr hs ih =>
    intro offset hmem hne
    have ht := Step.takesBlock hs (Run.sound hr hp)
    rcases List.mem_append.1 hmem with hmem | hmem
    · obtain ⟨block, rfl, hbit⟩ := ih offset hmem hne
      exact ⟨block, rfl, ht.mono hbit⟩
    · obtain ⟨block, -, rfl, -, hset, -⟩ := ht.1 offset (by simpa using hmem) hne
      exact ⟨block, rfl, hset⟩

theorem Run.nodup {offsets : List ℕ} (hr : Run h p offsets p') (hp : Sound p) :
    (offsets.filter (· ≠ 0)).Nodup := by
  induction hr with
  | nil => simp
  | @snoc _ _ _ returned hr hs ih =>
    have ht := Step.takesBlock hs (Run.sound hr hp)
    rw [List.filter_append, List.nodup_append']
    refine ⟨ih, List.Nodup.filter _ ?_, ?_⟩
    · rcases returned <;> simp
    · intro offset hmem hmem'
      rw [List.mem_filter, decide_eq_true_eq] at hmem hmem'
      obtain ⟨block, -, heq, hclear, -⟩ := ht.1 offset (by simpa using hmem'.1) hmem'.2
      obtain ⟨block', heq', hset⟩ := Run.bit_of_mem hr hp offset hmem.1 hmem.2
      obtain rfl := blockOffset_inj (heq.symm.trans heq')
      rw [hclear] at hset
      cases hset

theorem Idle.sound {ι : Type} [DecidableEq ι] {p : Pool h ι} (hidle : Idle p)
    (hres : Reserved h p.store) : Sound p := by
  refine ⟨fun i q next hi => ?_, hres⟩
  obtain ⟨data, hdata⟩ := hidle i
  rw [hdata] at hi
  cases hi

/-- Any number of clients with any copies of the block map: no block is returned twice, and a step
changes the shared map only if it returns a block, by the bit of that block. -/
theorem run_allocatesOnce (hres : Reserved h p.store) (hidle : Idle p) {offsets : List ℕ}
    (hr : Run h p offsets p') :
    (offsets.filter (· ≠ 0)).Nodup
      ∧ ∀ returned p'', Step h p' returned p'' → TakesBlock h returned p'.store p''.store := by
  have hp := hidle.sound hres
  exact ⟨hr.nodup hp, fun returned p'' hs => hs.takesBlock (hr.sound hp)⟩

end Exclusive

section Format

theorem getLsbD_occupy {n j : ℕ} (hj : j < 64) (val : Word) :
    (occupy n val).getLsbD j = (decide (64 ≤ j + n) || val.getLsbD (j + n)) := by
  induction n generalizing val with
  | zero => simp [occupy, hj]
  | succ n ih =>
    rw [occupy, ih, getLsbD_or_one_shiftLeft (by omega), BitVec.getLsbD_ushiftRight]
    rw [Bool.eq_iff_iff]
    simp only [Bool.or_eq_true, decide_eq_true_eq, beq_iff_eq,
      show 1 + (j + n) = j + (n + 1) by omega]
    grind

/-- A volume that has been formatted reserves what is behind its last block. -/
theorem reserved_of_mkfs {volume : Volume} (hv : ∀ pos < calcBlockMapSize h.blockcount,
    volume (mapOffset pos) = mkfsBlockMap h.blockcount pos) : Reserved h volume := by
  intro block hle hlt
  have hpos := h.blockcount_pos
  have hlast : block / 64 + 1 = calcBlockMapSize h.blockcount := by
    rw [calcBlockMapSize] at hlt ⊢
    omega
  rw [bit, hv _ (by omega), mkfsBlockMap, if_pos hlast, getLsbD_occupy (by omega)]
  rw [calcBlockMapSize] at hlast
  simp only [Bool.or_eq_true, decide_eq_true_eq]
  omega

end Format

section Sample

/-- A volume of two blocks of one byte. -/
def pairHeader : Header := ⟨1, 2, 64, by decide, by decide, by decide⟩

/-- Two clients of the formatted volume. -/
def pairPool : Pool pairHeader Bool :=
  ⟨fun _ => 0xFFFFFFFFFFFFFFFC#64, fun _ => .idle ⟨#v[0xFFFFFFFFFFFFFFFC#64], 2⟩⟩

theorem Step.rand {p : Pool pairHeader Bool} {i : Bool} {next : ℕ → _} (n : ℕ)
    (hi : p.clients i = .waiting .rand next) : Step pairHeader p (next n).returned
      ⟨p.store, Function.update p.clients i (next n).phase⟩ :=
  .answer hi rfl

theorem Step.swap {p : Pool pairHeader Bool} {i : Bool} {offset : ℕ} {expected swap : Word}
    {next : Word → _} (hi : p.clients i = .waiting (.compareAndSwap offset expected swap) next) :
    Step pairHeader p (next (p.store offset)).returned
      ⟨(kdsaCompareAndSwap p.store offset expected swap).2,
        Function.update p.clients i (next (p.store offset)).phase⟩ :=
  .answer hi rfl

/-- Both clients go for the first block; the one that is late takes the second. -/
theorem run_pairPool : ∃ p', Run pairHeader pairPool [64, 65] p' := by
  have h₁ : Run pairHeader pairPool _ _ := .snoc .nil (.call (i := true) rfl)
  have h₂ := h₁.snoc (.call (i := false) rfl)
  have h₃ := h₂.snoc (Step.rand (i := true) 0 rfl)
  have h₄ := h₃.snoc (Step.rand (i := false) 0 rfl)
  have h₅ := h₄.snoc (Step.swap (i := true) rfl)
  have h₆ := h₅.snoc (Step.swap (i := false) rfl)
  have h₇ := h₆.snoc (Step.swap (i := false) rfl)
  exact ⟨_, h₇⟩

theorem run_allocatesOnce_pair : ∃ p', Run pairHeader pairPool [64, 65] p'
    ∧ ([64, 65].filter (· ≠ 0)).Nodup
    ∧ ∀ returned p'', Step pairHeader p' returned p'' →
      TakesBlock pairHeader returned p'.store p''.store := by
  obtain ⟨p', hr⟩ := run_pairPool
  have hres : Reserved pairHeader pairPool.store := by
    refine reserved_of_mkfs fun pos hpos => ?_
    obtain rfl : pos = 0 := Nat.lt_one_iff.1 hpos
    decide +kernel
  exact ⟨p', hr, run_allocatesOnce hres (fun _ => ⟨_, rfl⟩) hr⟩

end Sample

end Esdm.Kdsa
