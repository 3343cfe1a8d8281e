import Mathlib.Data.Fintype.Card
import Mathlib.Data.Nat.ModEq
import Esdm.Proofs.KdsaFormat

/-!
# The search for a free block

A client that is alone on the volume looks for a block in its own copy of the map.  Where the copy
is stale, the first swap fails: the copy gets the word that is on the volume, and the scan goes on
behind the bit it has just tried.  So an attempt misses a block that is the only free one of its
word, if it is the first one that the copy says to be free (`Reaches`).  A second attempt at the
word finds it; but the positions of the first attempts are random, and each word has one more
(`findOffset_complete_iff`).
-/

namespace Esdm.Kdsa

variable {h : Header} {data : Backend h} {pos : Fin (calcBlockMapSize h.blockcount)} {s : Quiet}

/-- Each block that the copy says to be in use is in use. -/
def Stale (data : Backend h) (volume : Volume) : Prop :=
  ∀ pos b, (data.blockMap.get pos).getLsbD b = true → (volume (mapOffset pos)).getLsbD b = true

/-- An attempt at a word that is `w` on the volume and `c` in the copy finds a block. -/
def Reaches (c w : Word) : Prop :=
  (c = w ∧ ∃ b < 64, w.getLsbD b = false)
    ∨ (c ≠ w ∧ ∃ i j, i < j ∧ j < 64 ∧ c.getLsbD i = false ∧ w.getLsbD j = false)

section Attempt

theorem eq_allOnes_iff {w : Word} : w = BitVec.allOnes 64 ↔ ∀ b < 64, w.getLsbD b = true := by
  constructor
  · rintro rfl b hb
    rw [BitVec.getLsbD_allOnes, decide_eq_true hb]
  · intro hall
    refine BitVec.eq_of_getLsbD_eq fun b hb => ?_
    rw [hall b hb, BitVec.getLsbD_allOnes, decide_eq_true hb]

theorem exists_clear_of_ne {c w : Word} (hsub : ∀ b, c.getLsbD b = true → w.getLsbD b = true)
    (hne : c ≠ w) : ∃ b < 64, c.getLsbD b = false := by
  by_contra hall
  push Not at hall
  refine hne (BitVec.eq_of_getLsbD_eq fun b hb => ?_)
  have hc : c.getLsbD b = true := by simpa using hall b hb
  rw [hc, hsub b hc]

theorem vector_get_eq {n : ℕ} (words : Vector Word n) (i : Fin n) :
    words.get i = words[(i : ℕ)] := rfl

theorem refresh_of_eq {volume : Volume} (heq : data.blockMap.get pos = volume (mapOffset pos)) :
    refresh volume data pos = data := by
  rw [refresh, ← heq]
  simp [vector_get_eq]

@[simp] theorem refresh_get_self (volume : Volume) :
    (refresh volume data pos).blockMap.get pos = volume (mapOffset pos) := by
  simp [refresh, vector_get_eq]

theorem refresh_get_of_ne {volume : Volume} {pos' : Fin (calcBlockMapSize h.blockcount)}
    (hne : pos' ≠ pos) : (refresh volume data pos).blockMap.get pos' = data.blockMap.get pos' := by
  have hval : (pos : ℕ) ≠ pos' := fun heq => hne (Fin.ext heq.symm)
  simp [refresh, vector_get_eq, Vector.getElem_set_ne _ _ hval]

theorem Stale.refresh {volume : Volume} (hstale : Stale data volume) :
    Stale (refresh volume data pos) volume := by
  intro pos' b hb
  by_cases heq : pos' = pos
  · subst heq
    rwa [refresh_get_self] at hb
  · rw [refresh_get_of_ne heq] at hb
    exact hstale pos' b hb

theorem eval_swap {α : Type} (offset : ℕ) (expected swap : Word)
    (f : Word → Client (Response h) α) :
    (Client.request (.compareAndSwap offset expected swap) >>= f).eval Quiet.answer s
      = (f (s.volume offset)).eval Quiet.answer
        ⟨(kdsaCompareAndSwap s.volume offset expected swap).2, s.rands⟩ := rfl

/-- What a client is told on a volume of its own it can be told on a shared one. -/
theorem answer_serve (s : Quiet) (q : Request) :
    serve h s.volume q (@Quiet.answer h s q).1 (@Quiet.answer h s q).2.volume := by
  cases q <;> rfl

/-- A bit that the copy says to be in use is passed over. -/
theorem eval_tryBits_of_set {b : ℕ} {bits : List ℕ} (hb : b < 64)
    (hset : (data.blockMap.get pos).getLsbD b = true)
    (hne : data.blockMap.get pos ≠ BitVec.allOnes 64) :
    (tryBits pos (b :: bits) data).eval Quiet.answer s
      = (tryBits pos bits data).eval Quiet.answer s := by
  have hclear : ¬ ~~~(data.blockMap.get pos) &&& 1#64 <<< b ≠ 0 := by
    rw [and_one_shiftLeft_ne_zero hb, BitVec.getLsbD_not, hset]
    simp
  rw [tryBits]
  dsimp only
  rw [if_neg hne, if_neg hclear]

/-- A bit that the copy says to be free is tried. -/
theorem eval_tryBits_of_clear {b : ℕ} {bits : List ℕ} (hb : b < 64)
    (hclear : (data.blockMap.get pos).getLsbD b = false) :
    (data.blockMap.get pos = s.volume (mapOffset pos) →
        ((tryBits pos (b :: bits) data).eval Quiet.answer s).1.1 = blockOffset h (b + 64 * pos))
      ∧ (data.blockMap.get pos ≠ s.volume (mapOffset pos) →
        (tryBits pos (b :: bits) data).eval Quiet.answer s
          = (tryBits pos bits (refresh s.volume data pos)).eval Quiet.answer s) := by
  have hne : data.blockMap.get pos ≠ BitVec.allOnes 64 := by
    intro heq
    rw [eq_allOnes_iff.1 heq b hb] at hclear
    cases hclear
  have htry : ~~~(data.blockMap.get pos) &&& 1#64 <<< b ≠ 0 := by
    rw [and_one_shiftLeft_ne_zero hb, BitVec.getLsbD_not, hclear]
    simp [hb]
  rw [tryBits]
  dsimp only
  rw [if_neg hne, if_pos htry, eval_swap]
  unfold kdsaCompareAndSwap
  refine ⟨fun heq => ?_, fun heq => ?_⟩
  · rw [if_pos heq.symm]
    rfl
  · rw [if_neg (Ne.symm heq), if_neg (Ne.symm heq)]
    rfl

/-- What an attempt does with a word that the copy has right. -/
theorem eval_tryBits_exact {bits : List ℕ} (hbits : ∀ b ∈ bits, b < 64)
    (heq : data.blockMap.get pos = s.volume (mapOffset pos)) :
    ((∃ b ∈ bits, (data.blockMap.get pos).getLsbD b = false) →
        ((tryBits pos bits data).eval Quiet.answer s).1.1 ≠ 0)
      ∧ ((∀ b ∈ bits, (data.blockMap.get pos).getLsbD b = true) →
        (tryBits pos bits data).eval Quiet.answer s = ((0, data), s)) := by
  induction bits with
  | nil => exact ⟨by simp, fun _ => rfl⟩
  | cons b bits ih =>
    have hb := hbits b List.mem_cons_self
    obtain ⟨ihfree, ihfull⟩ := ih fun b hb => hbits b (List.mem_cons_of_mem _ hb)
    by_cases hones : data.blockMap.get pos = BitVec.allOnes 64
    · have hall : ∀ b' ∈ b :: bits, (data.blockMap.get pos).getLsbD b' = true := fun b' hb' =>
        eq_allOnes_iff.1 hones b' (hbits b' hb')
      refine ⟨?_, fun _ => ?_⟩
      · rintro ⟨b', hb', hclear⟩
        rw [hall b' hb'] at hclear
        cases hclear
      · rw [tryBits]
        dsimp only
        rw [if_pos hones]
        rfl
    cases hc : (data.blockMap.get pos).getLsbD b with
    | false =>
      refine ⟨fun _ => ?_, fun hall => ?_⟩
      · rw [(eval_tryBits_of_clear hb hc).1 heq]
        exact blockOffset_ne_zero _
      · rw [hall b List.mem_cons_self] at hc
        cases hc
    | true =>
      rw [eval_tryBits_of_set hb hc hones]
      refine ⟨?_, fun hall => ihfull fun b hb => hall b (List.mem_cons_of_mem _ hb)⟩
      rintro ⟨b', hb', hclear⟩
      rcases List.mem_cons.1 hb' with rfl | hb'
      · rw [hc] at hclear
        cases hclear
      · exact ihfree ⟨b', hb', hclear⟩

/-- In a stale copy the bits up to the first one that is free there are passed over; then the copy
has the word that is on the volume. -/
theorem eval_tryBits_stale {m : ℕ} (hne : data.blockMap.get pos ≠ s.volume (mapOffset pos))
    (hclear : (data.blockMap.get pos).getLsbD m = false) (hm : m < 64)
    (hmin : ∀ b < m, (data.blockMap.get pos).getLsbD b = true) {n k : ℕ} (hn : n + k = m)
    (rest : List ℕ) :
    (tryBits pos (List.range' n k ++ m :: rest) data).eval Quiet.answer s
      = (tryBits pos rest (refresh s.volume data pos)).eval Quiet.answer s := by
  have hones : data.blockMap.get pos ≠ BitVec.allOnes 64 := by
    intro heq
    rw [eq_allOnes_iff.1 heq m hm] at hclear
    cases hclear
  induction k generalizing n with
  | zero => exact (eval_tryBits_of_clear hm hclear).2 hne
  | succ k ih =>
    rw [List.range'_succ, List.cons_append,
      eval_tryBits_of_set (by omega) (hmin n (by omega)) hones]
    exact ih (by omega)

theorem eval_tryToUseBlock (hsub : ∀ b, (data.blockMap.get pos).getLsbD b = true →
    (s.volume (mapOffset pos)).getLsbD b = true) :
    (Reaches (data.blockMap.get pos) (s.volume (mapOffset pos)) →
        ((tryToUseBlock data pos).eval Quiet.answer s).1.1 ≠ 0)
      ∧ (¬ Reaches (data.blockMap.get pos) (s.volume (mapOffset pos)) →
        (tryToUseBlock data pos).eval Quiet.answer s = ((0, refresh s.volume data pos), s)) := by
  unfold tryToUseBlock Reaches
  by_cases heq : data.blockMap.get pos = s.volume (mapOffset pos)
  · have hbits : ∀ b ∈ List.range 64, b < 64 := fun b hb => List.mem_range.1 hb
    have hexact := eval_tryBits_exact hbits heq
    rw [refresh_of_eq heq]
    simp only [heq, true_and, ne_eq, not_true_eq_false, false_and, or_false,
      List.mem_range] at hexact ⊢
    refine ⟨hexact.1, fun hnone => hexact.2 fun b hb => ?_⟩
    by_contra hclear
    exact hnone ⟨b, hb, by simpa using hclear⟩
  · have hex := exists_clear_of_ne hsub heq
    -- the first bit that is free in the copy
    obtain ⟨m, ⟨hm, hmclear⟩, hmin⟩ : ∃ m, (m < 64 ∧ (data.blockMap.get pos).getLsbD m = false)
        ∧ ∀ b < m, ¬ (b < 64 ∧ (data.blockMap.get pos).getLsbD b = false) :=
      ⟨Nat.find hex, Nat.find_spec hex, fun b => Nat.find_min hex⟩
    have hset : ∀ b < m, (data.blockMap.get pos).getLsbD b = true := fun b hb => by
      simpa [show b < 64 by omega] using hmin b hb
    have hrange : List.range 64 = List.range' 0 m ++ m :: List.range' (m + 1) (63 - m) := by
      have hsplit := @List.range'_append_1 0 m (63 - m + 1)
      rw [Nat.zero_add, show m + (63 - m + 1) = 64 by omega] at hsplit
      rw [List.range_eq_range', ← hsplit, List.range'_succ]
    rw [hrange, eval_tryBits_stale heq hmclear hm hset (Nat.zero_add m)]
    have hexact := @eval_tryBits_exact h (refresh s.volume data pos) pos s
      (List.range' (m + 1) (63 - m)) (fun b hb => by rw [List.mem_range'_1] at hb; omega)
      (refresh_get_self _)
    simp only [refresh_get_self, List.mem_range'_1] at hexact
    simp only [heq, false_and, ne_eq, not_false_eq_true, true_and, false_or]
    refine ⟨?_, fun hnone => hexact.2 fun b hb => ?_⟩
    · rintro ⟨i, j, hij, hj, hi, hjclear⟩
      have hmi : ¬ i < m := fun hlt => by
        rw [hset i hlt] at hi
        cases hi
      exact hexact.1 ⟨j, ⟨by omega, by omega⟩, hjclear⟩
    · by_contra hbclear
      exact hnone ⟨m, b, by omega, by omega, hmclear, by simpa using hbclear⟩

end Attempt

section Attempts

/-- One attempt after another at the given positions, and none of them finds a block. -/
def Misses (volume : Volume) : List (Fin (calcBlockMapSize h.blockcount)) → Backend h → Prop
  | [], _ => True
  | pos :: ps, data => ¬ Reaches (data.blockMap.get pos) (volume (mapOffset pos))
      ∧ Misses volume ps (refresh volume data pos)

variable {ps : List (Fin (calcBlockMapSize h.blockcount))} {volume : Volume}

theorem misses_append {qs : List (Fin (calcBlockMapSize h.blockcount))} :
    Misses volume (ps ++ qs) data
      ↔ Misses volume ps data ∧ Misses volume qs (ps.foldl (refresh volume) data) := by
  induction ps generalizing data with
  | nil => simp [Misses]
  | cons pos ps ih => simp [Misses, ih, and_assoc]

theorem Stale.foldl_refresh (hstale : Stale data volume) :
    Stale (ps.foldl (Kdsa.refresh volume) data) volume := by
  induction ps generalizing data with
  | nil => exact hstale
  | cons pos ps ih => exact ih hstale.refresh

theorem reaches_self_iff {w : Word} : Reaches w w ↔ w ≠ BitVec.allOnes 64 := by
  rw [ne_eq, eq_allOnes_iff]
  simp [Reaches]

theorem misses_of_nodup (hnodup : ps.Nodup) : Misses volume ps data
    ↔ ∀ pos ∈ ps, ¬ Reaches (data.blockMap.get pos) (volume (mapOffset pos)) := by
  induction ps generalizing data with
  | nil => simp [Misses]
  | cons pos ps ih =>
    obtain ⟨hpos, hnodup⟩ := List.nodup_cons.1 hnodup
    rw [Misses, ih hnodup, List.forall_mem_cons]
    refine and_congr_right fun _ => forall₂_congr fun pos' hmem => ?_
    rw [refresh_get_of_ne]
    rintro rfl
    exact hpos hmem

/-- After some attempts there is one at each position: all of them miss exactly if none of them
would find a block as the first one, and the words that are tried twice have none. -/
theorem misses_append_iff {qs : List (Fin (calcBlockMapSize h.blockcount))} (hnodup : qs.Nodup)
    (hall : ∀ pos, pos ∈ qs) : Misses volume (ps ++ qs) data
      ↔ (∀ pos, ¬ Reaches (data.blockMap.get pos) (volume (mapOffset pos)))
        ∧ ∀ pos ∈ ps, volume (mapOffset pos) = BitVec.allOnes 64 := by
  induction ps generalizing data with
  | nil => simp [misses_of_nodup hnodup, hall]
  | cons pos ps ih =>
    rw [List.cons_append, Misses, ih, List.forall_mem_cons]
    constructor
    · rintro ⟨hpos, hrest, hfull⟩
      have hself := hrest pos
      rw [refresh_get_self, reaches_self_iff, ne_eq, not_not] at hself
      refine ⟨fun pos' => ?_, hself, hfull⟩
      by_cases heq : pos' = pos
      · exact heq ▸ hpos
      · have := hrest pos'
        rwa [refresh_get_of_ne heq] at this
    · rintro ⟨hall, hself, hfull⟩
      refine ⟨hall pos, fun pos' => ?_, hfull⟩
      by_cases heq : pos' = pos
      · subst heq
        rw [refresh_get_self, reaches_self_iff, hself]
        simp
      · rw [refresh_get_of_ne heq]
        exact hall pos'

/-- A loop that returns with the first block it finds. -/
theorem eval_attempt {rest : Backend h → Client (Response h) (ℕ × Backend h)}
    (hstale : Stale data s.volume) :
    (Reaches (data.blockMap.get pos) (s.volume (mapOffset pos)) →
        ((tryToUseBlock data pos >>= fun r => if r.1 ≠ 0 then pure (r.1, r.2) else rest r.2).eval
          Quiet.answer s).1.1 ≠ 0)
      ∧ (¬ Reaches (data.blockMap.get pos) (s.volume (mapOffset pos)) →
        (tryToUseBlock data pos >>= fun r => if r.1 ≠ 0 then pure (r.1, r.2) else rest r.2).eval
          Quiet.answer s = (rest (refresh s.volume data pos)).eval Quiet.answer s) := by
  obtain ⟨hfind, hmiss⟩ := eval_tryToUseBlock (hstale pos)
  rw [Client.eval_bind]
  refine ⟨fun hr => ?_, fun hr => ?_⟩
  · rw [if_pos (hfind hr), Client.eval_pure]
    exact hfind hr
  · rw [hmiss hr]
    rfl

theorem eval_probe (n : ℕ) (hstale : Stale data s.volume) :
    (¬ Misses s.volume ((List.range n).map fun k => bitmapPos h (s.rands k)) data →
        ((probe n data).eval Quiet.answer s).1.1 ≠ 0)
      ∧ (Misses s.volume ((List.range n).map fun k => bitmapPos h (s.rands k)) data →
        (probe n data).eval Quiet.answer s
          = ((0, ((List.range n).map fun k => bitmapPos h (s.rands k)).foldl
            (refresh s.volume) data), ⟨s.volume, fun k => s.rands (k + n)⟩)) := by
  induction n generalizing data s with
  | zero => exact ⟨fun hm => absurd trivial hm, fun _ => rfl⟩
  | succ n ih =>
    have hrands : (List.range (n + 1)).map (fun k => bitmapPos h (s.rands k))
        = bitmapPos h (s.rands 0) :: (List.range n).map fun k => bitmapPos h (s.rands (k + 1)) := by
      rw [List.range_succ_eq_map, List.map_cons, List.map_map]
      rfl
    have hprobe : (probe (n + 1) data).eval Quiet.answer s
        = (tryToUseBlock data (bitmapPos h (s.rands 0)) >>= fun r =>
          if r.1 ≠ 0 then pure (r.1, r.2) else probe n r.2).eval Quiet.answer
            ⟨s.volume, fun k => s.rands (k + 1)⟩ := rfl
    obtain ⟨hfind, hmiss⟩ := @eval_attempt h data (bitmapPos h (s.rands 0))
      ⟨s.volume, fun k => s.rands (k + 1)⟩ (probe n) hstale
    obtain ⟨ihfind, ihmiss⟩ := @ih (refresh s.volume data (bitmapPos h (s.rands 0)))
      ⟨s.volume, fun k => s.rands (k + 1)⟩ hstale.refresh
    rw [hrands, hprobe, Misses, List.foldl_cons]
    by_cases hr : Reaches (data.blockMap.get (bitmapPos h (s.rands 0)))
        (s.volume (mapOffset (bitmapPos h (s.rands 0))))
    · exact ⟨fun _ => hfind hr, fun hm => absurd hr hm.1⟩
    · rw [hmiss hr]
      exact ⟨fun hm => ihfind fun hrest => hm ⟨hr, hrest⟩, fun hm => ihmiss hm.2⟩

theorem eval_sweep (start : ℕ) (is : List ℕ) (hstale : Stale data s.volume) :
    ((sweep start is data).eval Quiet.answer s).1.1 = 0
      ↔ Misses s.volume (is.map fun i => bitmapPos h (i + start)) data := by
  induction is generalizing data with
  | nil => exact ⟨fun _ => trivial, fun _ => rfl⟩
  | cons i is ih =>
    have hsweep : sweep start (i :: is) data
        = tryToUseBlock data (bitmapPos h (i + start)) >>= fun r =>
          if r.1 ≠ 0 then pure (r.1, r.2) else sweep start is r.2 := rfl
    obtain ⟨hfind, hmiss⟩ :=
      @eval_attempt h data (bitmapPos h (i + start)) s (sweep start is) hstale
    rw [hsweep, List.map_cons, Misses]
    by_cases hr : Reaches (data.blockMap.get (bitmapPos h (i + start)))
        (s.volume (mapOffset (bitmapPos h (i + start))))
    · exact iff_of_false (hfind hr) fun hm => hm.1 hr
    · rw [hmiss hr, ih hstale.refresh]
      exact (and_iff_right hr).symm

end Attempts

section Search

variable {volume : Volume} {rands : ℕ → ℕ}

/-- The sweep comes to each position once. -/
theorem sweep_positions (start : ℕ) :
    ((List.range (calcBlockMapSize h.blockcount)).map fun i => bitmapPos h (i + start)).Nodup
      ∧ ∀ pos, pos ∈ (List.range (calcBlockMapSize h.blockcount)).map fun i =>
        bitmapPos h (i + start) := by
  have hinj : ((List.range (calcBlockMapSize h.blockcount)).map fun i =>
      bitmapPos h (i + start)).Nodup := by
    refine List.Nodup.map_on (fun i hi j hj heq => ?_) List.nodup_range
    rw [List.mem_range] at hi hj
    have hmod : i ≡ j [MOD calcBlockMapSize h.blockcount] :=
      Nat.ModEq.add_right_cancel' start (Fin.val_eq_of_eq heq)
    exact hmod.eq_of_lt_of_lt hi hj
  refine ⟨hinj, fun pos => ?_⟩
  have huniv : ((List.range (calcBlockMapSize h.blockcount)).map fun i =>
      bitmapPos h (i + start)).toFinset = Finset.univ := by
    refine Finset.eq_univ_of_card _ ?_
    rw [List.toFinset_card_of_nodup hinj]
    simp
  rw [← List.mem_toFinset, huniv]
  exact Finset.mem_univ pos

/-- Attempts at random positions, and then one at each position. -/
theorem eval_probe_sweep (n : ℕ) (hstale : Stale data volume) :
    ((probe n data >>= fun r =>
        if r.1 = 0 then Client.request .rand >>= fun start =>
          sweep (start % calcBlockMapSize h.blockcount)
            (List.range (calcBlockMapSize h.blockcount)) r.2
        else pure (r.1, r.2)).eval Quiet.answer ⟨volume, rands⟩).1.1 = 0
      ↔ (∀ pos : Fin (calcBlockMapSize h.blockcount),
          ¬ Reaches (data.blockMap.get pos) (volume (mapOffset pos)))
        ∧ ∀ k < n, volume (mapOffset (bitmapPos h (rands k))) = BitVec.allOnes 64 := by
  obtain ⟨hfind, hmiss⟩ := @eval_probe h data ⟨volume, rands⟩ n hstale
  obtain ⟨hnodup, hall⟩ := @sweep_positions h (rands n % calcBlockMapSize h.blockcount)
  have hiff := @misses_append_iff h data ((List.range n).map fun k => bitmapPos h (rands k)) volume
    _ hnodup hall
  rw [misses_append] at hiff
  simp only [List.forall_mem_map, List.mem_range] at hiff
  rw [← hiff, Client.eval_bind]
  by_cases hm : Misses volume ((List.range n).map fun k => bitmapPos h (rands k)) data
  · rw [hmiss hm, and_iff_right hm, if_pos rfl, Client.eval_request_bind]
    have hsweep := @eval_sweep h _ ⟨volume, fun k => rands (k + 1 + n)⟩
      (rands n % calcBlockMapSize h.blockcount) (List.range (calcBlockMapSize h.blockcount))
      (@Stale.foldl_refresh h data ((List.range n).map fun k => bitmapPos h (rands k)) volume
        hstale)
    rw [← hsweep]
    simp only [Quiet.answer, Nat.zero_add]
  · have hne := hfind hm
    refine iff_of_false ?_ fun hboth => hm hboth.1
    rw [if_neg hne]
    exact hne

theorem eval_findBlock (hstale : Stale data volume) :
    ((findBlock data).eval Quiet.answer ⟨volume, rands⟩).1.1 = 0
      ↔ (∀ pos : Fin (calcBlockMapSize h.blockcount),
          ¬ Reaches (data.blockMap.get pos) (volume (mapOffset pos)))
        ∧ ∀ k < 30, volume (mapOffset (bitmapPos h (rands k))) = BitVec.allOnes 64 :=
  eval_probe_sweep 30 hstale

theorem eval_search (s : Quiet) : ((search data).eval Quiet.answer s).1.1 = 0
    ↔ ((findBlock data).eval Quiet.answer s).1.1 = 0 := by
  unfold search
  rw [Client.eval_bind]
  generalize (findBlock data).eval Quiet.answer s = r
  obtain ⟨⟨offset, data'⟩, s'⟩ := r
  dsimp only
  split
  · rfl
  · rfl

/-- No block of the volume is free. -/
def Full (h : Header) (volume : Volume) : Prop := ∀ block < h.blockcount, bit volume block = true

theorem full_iff (hres : Reserved h volume) : Full h volume
    ↔ ∀ pos : Fin (calcBlockMapSize h.blockcount), volume (mapOffset pos) = BitVec.allOnes 64 := by
  constructor
  · intro hfull pos
    rw [eq_allOnes_iff]
    intro b hb
    have hbit : bit volume (b + 64 * pos) = (volume (mapOffset pos)).getLsbD b := by
      rw [bit, show (b + 64 * pos) / 64 = (pos : ℕ) by omega, show (b + 64 * pos) % 64 = b by omega]
    rw [← hbit]
    by_cases hlt : b + 64 * pos < h.blockcount
    · exact hfull _ hlt
    · have := pos.2
      exact hres _ (by omega) (by omega)
  · intro hall block hlt
    have hpos : block / 64 < calcBlockMapSize h.blockcount := by
      rw [calcBlockMapSize]
      omega
    rw [bit, hall ⟨block / 64, hpos⟩, BitVec.getLsbD_allOnes]
    exact decide_eq_true (by omega)

/-- What `load_block_bitmap` reads when the client is alone. -/
def loaded (data : Backend h) (volume : Volume) : Backend h :=
  (loadBlockBitmap data (some (Vector.ofFn fun pos => volume (mapOffset pos)))).2

theorem loaded_get (pos : Fin (calcBlockMapSize h.blockcount)) :
    (loaded data volume).blockMap.get pos = volume (mapOffset pos) := by
  simp [loaded, loadBlockBitmap, vector_get_eq]

theorem loaded_estimate (hzero : (loaded data volume).freeBlocksEstimate = 0)
    (pos : Fin (calcBlockMapSize h.blockcount)) : volume (mapOffset pos) = BitVec.allOnes 64 := by
  rw [loaded, loadBlockBitmap_estimate, List.countP_eq_zero] at hzero
  rw [eq_allOnes_iff]
  intro b hb
  have hpos := pos.2
  have hbit := hzero (b + 64 * pos) (by simp; omega)
  simpa [wordsBit, show (b + 64 * (pos : ℕ)) / 64 = pos by omega,
    show (b + 64 * (pos : ℕ)) % 64 = b by omega] using hbit

theorem eval_findOffset (hstale : Stale data volume) :
    ((findOffsetToStoreFragment data).eval Quiet.answer ⟨volume, rands⟩).1.1 = 0
      ↔ if data.freeBlocksEstimate * 100 / h.blockcount ≤ 3
        then ∀ pos : Fin (calcBlockMapSize h.blockcount), volume (mapOffset pos) = BitVec.allOnes 64
        else (∀ pos : Fin (calcBlockMapSize h.blockcount),
            ¬ Reaches (data.blockMap.get pos) (volume (mapOffset pos)))
          ∧ ∀ k < 30, volume (mapOffset (bitmapPos h (rands k))) = BitVec.allOnes 64 := by
  unfold findOffsetToStoreFragment
  split_ifs with hlow
  · have hread : ∀ f : _ → Client (Response h) (ℕ × Backend h),
        (Client.request .readBlockMap >>= f).eval Quiet.answer ⟨volume, rands⟩
          = (f (some (Vector.ofFn fun pos => volume (mapOffset pos)))).eval Quiet.answer
            ⟨volume, rands⟩ := fun _ => rfl
    rw [hread]
    change (Client.eval Quiet.answer (if ¬ true = true ∨ (loaded data volume).freeBlocksEstimate = 0
      then pure (0, loaded data volume) else search (loaded data volume)) ⟨volume, rands⟩).1.1
        = 0 ↔ _
    split
    · rename_i hzero
      exact iff_of_true rfl (loaded_estimate (hzero.resolve_left (by simp)))
    · -- the copy is right now, so the first attempt at a word with a free block finds it
      have hexact : Stale (loaded data volume) volume := fun pos b hb => by rwa [loaded_get] at hb
      rw [eval_search, eval_findBlock hexact]
      simp only [loaded_get, reaches_self_iff, ne_eq, not_not]
      exact ⟨fun hall => hall.1, fun hall => ⟨hall, fun k _ => hall _⟩⟩
  · rw [eval_search, eval_findBlock hstale]

/-- A client that is alone on the volume is told that there is no block only if there is none,
exactly if it loads the block map first, or there is none, or an attempt at some word would find a
block at once, or one of the first 30 attempts is at a word with a free block. -/
theorem findOffset_complete_iff (hres : Reserved h volume) (hstale : Stale data volume)
    (rands : ℕ → ℕ) :
    (((findOffsetToStoreFragment data).eval Quiet.answer ⟨volume, rands⟩).1.1 = 0 → Full h volume)
      ↔ data.freeBlocksEstimate * 100 / h.blockcount ≤ 3 ∨ Full h volume
        ∨ (∃ pos : Fin (calcBlockMapSize h.blockcount),
          Reaches (data.blockMap.get pos) (volume (mapOffset pos)))
        ∨ ∃ k < 30, volume (mapOffset (bitmapPos h (rands k))) ≠ BitVec.allOnes 64 := by
  rw [eval_findOffset hstale, full_iff hres]
  split_ifs with hlow
  · simp [hlow]
  · have hnot : ((∀ pos : Fin (calcBlockMapSize h.blockcount),
        ¬ Reaches (data.blockMap.get pos) (volume (mapOffset pos)))
          ∧ ∀ k < 30, volume (mapOffset (bitmapPos h (rands k))) = BitVec.allOnes 64)
        ↔ ¬ ((∃ pos : Fin (calcBlockMapSize h.blockcount),
            Reaches (data.blockMap.get pos) (volume (mapOffset pos)))
          ∨ ∃ k < 30, volume (mapOffset (bitmapPos h (rands k))) ≠ BitVec.allOnes 64) := by
      push Not
      rfl
    rw [hnot, ← or_iff_not_imp_left, or_iff_right hlow]
    exact or_comm

/-- A volume of 65 blocks. -/
def wideHeader : Header := ⟨1, 65, 64, Nat.succ_pos 0, Nat.succ_pos 64, Nat.succ_pos 63⟩

/-- Only its first block is free. -/
def nearlyFull : Volume := fun offset =>
  if offset = mapOffset 0 then 0xFFFFFFFFFFFFFFFE#64 else BitVec.allOnes 64

/-- A copy of the block map from the time when none of the first 64 blocks was in use. -/
def early : Backend wideHeader := ⟨#v[0#64, BitVec.allOnes 64], 64⟩

theorem reserved_nearlyFull : Reserved wideHeader nearlyFull := by
  intro block hle hlt
  change 65 ≤ block at hle
  change block < 128 at hlt
  rw [bit, nearlyFull, if_neg (by simp only [mapOffset]; omega), BitVec.getLsbD_allOnes]
  exact decide_eq_true (by omega)

theorem stale_early : Stale early nearlyFull := by
  intro pos b hb
  rcases pos with ⟨_ | _ | pos, hpos⟩
  · change (0#64).getLsbD b = true at hb
    rw [BitVec.getLsbD_zero] at hb
    cases hb
  · exact hb
  · change pos + 1 + 1 < 2 at hpos
    omega

theorem findOffset_complete_iff_early : Reserved wideHeader nearlyFull ∧ Stale early nearlyFull
    ∧ (((findOffsetToStoreFragment early).eval Quiet.answer ⟨nearlyFull, fun _ => 0⟩).1.1 = 0 →
      Full wideHeader nearlyFull) :=
  ⟨reserved_nearlyFull, stale_early,
    (findOffset_complete_iff reserved_nearlyFull stale_early fun _ => 0).2
      (.inr (.inr (.inr ⟨0, by decide, by decide⟩)))⟩

/-- All numbers that are drawn lead to the second word.  The only attempt at the first word tries
the first block with the stale word and goes on behind it: no block is found, and the first one is
free. -/
theorem findOffset_not_complete : Reserved wideHeader nearlyFull ∧ Stale early nearlyFull
    ∧ early.freeBlocksEstimate = (loadBlockBitmap early (some early.blockMap)).2.freeBlocksEstimate
    ∧ ((findOffsetToStoreFragment early).eval Quiet.answer ⟨nearlyFull, fun _ => 1⟩).1.1 = 0
    ∧ bit nearlyFull 0 = false
    ∧ ¬ (((findOffsetToStoreFragment early).eval Quiet.answer ⟨nearlyFull, fun _ => 1⟩).1.1 = 0 →
      Full wideHeader nearlyFull) := by
  have hzero : ((findOffsetToStoreFragment early).eval Quiet.answer
      ⟨nearlyFull, fun _ => 1⟩).1.1 = 0 := by decide +kernel
  have hfree : bit nearlyFull 0 = false := by decide
  refine ⟨reserved_nearlyFull, stale_early, by decide +kernel, hzero, hfree, fun hfull => ?_⟩
  have := hfull hzero 0 (by decide)
  rw [hfree] at this
  cases this

end Search

end Esdm.Kdsa
