import Esdm.Proofs.GridIterator

/-!
# Which grids can be iterated

`esdm_gridIterator_create` looks at the counter of empty cells, which is zero also before the cells
are allocated.  An iterator that it gives out for an allocated grid never reads what is not there
(`advanceAll_sound`); the counter tells whether all leaf cells are filled, except for grids that are
not allocated or have subgrids without cells (`iteratesFilled_iff`).
-/

namespace Esdm

variable {V : Type}

namespace Dataset

open Grid

variable {ds : Dataset V} {dims g : ℕ} {grid : Grid}

section Accept

/-- Advancing by each of the increments, until the end has been passed. -/
def advanceAll (ds : Dataset V) (fuel : ℕ) : GridIterator → List ℤ → Outcome GridIterator
  | iterator, [] => .ok iterator
  | iterator, a :: increments =>
    if iterator = [] then .ok []
    else ds.gridIteratorAdvance fuel a iterator >>= fun iterator =>
      ds.advanceAll fuel iterator increments

/-- An iterator is given out for a grid all of whose leaf cells have a fragment, and for no other,
and nothing that is not allocated is read when it is advanced. -/
def IteratesFilled (ds : Dataset V) (g : ℕ) : Prop :=
  ∃ status iterator, ds.gridIteratorCreate g = .ok (status, iterator)
    ∧ (status = .success ↔ Filled ds.gridHeap g)
    ∧ (status ≠ .success → status = .invalidStateError)
    ∧ (status = .success → ∀ fuel increments,
      ds.advanceAll fuel iterator increments ≠ .error .undefined)

/-- What an iterator must not forget: the cells it has still to look at are there. -/
def Sound (ds : Dataset V) (level : IteratorLevel) : Prop :=
  -1 ≤ level.lastIndex ∧ (level.cellCount ≤ 0 ∨ ∃ grid, ds.gridHeap[level.grid]? = some grid
    ∧ level.cellCount = grid.cellCount
    ∧ Nested (fun sub => ∃ cs, sub.cells = some cs ∧ (cs.length : ℤ) = sub.cellCount
      ∧ ∀ c ∈ cs, ∀ h, c.subgrid = some h → h < ds.gridHeap.length) ds.gridHeap level.grid)

theorem iteratorRound_sound {level : IteratorLevel} {parents : GridIterator}
    (hl : Sound ds level) (hp : ∀ level ∈ parents, Sound ds level) :
    ∃ r, ds.iteratorRound level parents = .ok r
      ∧ ∀ d next, r = some (d, next) → ∀ level ∈ next, Sound ds level := by
  obtain ⟨hlast, hcells⟩ := hl
  unfold iteratorRound
  by_cases hend : level.lastIndex + 1 ≥ level.cellCount
  · rw [if_pos hend]
    refine ⟨_, rfl, fun d next h => ?_⟩
    by_cases hnil : parents = []
    · rw [if_pos hnil] at h
      cases h
    · rw [if_neg hnil] at h
      obtain ⟨-, rfl⟩ := Prod.mk.inj (Option.some.inj h)
      exact hp
  rw [if_neg hend]
  obtain hle | ⟨grid, hg, hcount, hn⟩ := hcells
  · omega
  obtain ⟨⟨cs, hcs, hlen, hlt⟩, hsub⟩ := (nested_iff hg).1 hn
  have hget := List.getElem?_eq_getElem (show (level.lastIndex + 1).toNat < cs.length by omega)
  rw [grid_eq_ok.2 hg, Outcome.ok_bind, cell_eq_ok.2 ⟨by omega, cs, hcs, hget⟩, Outcome.ok_bind]
  have hnext : ∀ l ∈ ({ level with lastIndex := level.lastIndex + 1 } : IteratorLevel) :: parents,
      Sound ds l := by
    intro l hl
    obtain rfl | hl := List.mem_cons.1 hl
    · exact ⟨by dsimp only; omega, .inr ⟨grid, hg, hcount, hn⟩⟩
    · exact hp l hl
  generalize cs[(level.lastIndex + 1).toNat] = e at hget
  dsimp only
  rcases hs : e.subgrid with _ | h
  · refine ⟨_, rfl, fun d next heq => ?_⟩
    obtain ⟨-, rfl⟩ := Prod.mk.inj (Option.some.inj heq)
    exact hnext
  · dsimp only
    have hmem := List.mem_of_getElem? hget
    have hk := List.getElem?_eq_getElem (hlt e hmem h hs)
    rw [gridIteratorCreateInternal, grid_eq_ok.2 hk]
    refine ⟨_, rfl, fun d next heq => ?_⟩
    obtain ⟨-, rfl⟩ := Prod.mk.inj (Option.some.inj heq)
    intro l hl
    obtain rfl | hl := List.mem_cons.1 hl
    · exact ⟨le_rfl, .inr ⟨_, hk, rfl, hsub h (mem_subgrids.2 ⟨cs, hcs, e, hmem, hs⟩)⟩⟩
    · exact hnext l hl

theorem gridIteratorAdvance_sound : ∀ {fuel : ℕ} {a : ℤ} {iterator : GridIterator}, iterator ≠ [] →
    (∀ level ∈ iterator, Sound ds level) → ds.gridIteratorAdvance fuel a iterator = .error .fuel
      ∨ ∃ next, ds.gridIteratorAdvance fuel a iterator = .ok next ∧ ∀ level ∈ next, Sound ds level
  | 0, _, _, _, _ => .inl (by rw [gridIteratorAdvance])
  | fuel + 1, a, iterator, hne, h => by
    by_cases ha : a = 0
    · subst ha
      exact .inr ⟨iterator, gridIteratorAdvance_zero, h⟩
    rcases iterator with _ | ⟨level, parents⟩
    · exact absurd rfl hne
    obtain ⟨r, hr, hsound⟩ := iteratorRound_sound (h level (by simp))
      fun l hl => h l (List.mem_cons_of_mem level hl)
    rcases r with _ | ⟨d, next⟩
    · exact .inr ⟨[], gridIteratorAdvance_of_end ha hr, by simp⟩
    · rw [gridIteratorAdvance_of_round ha hr]
      exact gridIteratorAdvance_sound (iteratorRound_eq_some hr).1 (hsound d next rfl)

theorem advanceAll_sound (fuel : ℕ) : ∀ {increments : List ℤ} {iterator : GridIterator},
    (∀ level ∈ iterator, Sound ds level) →
    ds.advanceAll fuel iterator increments ≠ .error .undefined
  | [], _, _ => by simp [advanceAll]
  | a :: increments, iterator, h => by
    rw [advanceAll]
    by_cases hne : iterator = []
    · rw [if_pos hne]
      simp
    · rw [if_neg hne]
      obtain herr | ⟨next, hnext, hsound⟩ := gridIteratorAdvance_sound hne h
      · rw [herr, Outcome.error_bind]
        simp
      · rw [hnext, Outcome.ok_bind]
        exact advanceAll_sound fuel hsound

end Accept

section Counters

variable {cs : List GridEntry} (hF : Forest dims none ds.gridHeap)

include hF

/-- Nothing is counted as empty in a grid whose leaf cells have fragments, if its subgrids are
done. -/
theorem emptyCells_of_filled (hg : ds.gridHeap[g]? = some grid) (hcs : grid.cells = some cs)
    (hf : Filled ds.gridHeap g)
    (hd : ∀ k ∈ grid.subgrids, ∀ sub, ds.gridHeap[k]? = some sub → sub.done = true) :
    grid.emptyCells = 0 := by
  have hlen := (hF.node hg).length cs hcs
  have hopen : openCells ds.gridHeap cs = 0 := openCells_eq_zero.2 fun c hc => cellDone_iff.2 ?_
  · rw [hF.count hg hcs, hopen]
    rfl
  obtain ⟨i, hi⟩ := List.mem_iff_getElem?.1 hc
  have hlt := (List.getElem?_eq_some_iff.1 hi).1
  rcases hs : c.subgrid with _ | k
  · refine .inl ?_
    have := hf (g, i) (.cell hg (by omega) (by simp [subgridAt, hcs, hi, hs]))
    simpa [fragmentIn, fragmentAt, hg, hcs, hi] using this
  · have hk : k ∈ grid.subgrids := mem_subgrids.2 ⟨cs, hcs, c, hc, hs⟩
    obtain ⟨-, sub, hsub, -⟩ := hF.child hg hk
    exact .inr ⟨k, sub, rfl, hsub, hd k hk sub hsub⟩

theorem done_of_filled : ∀ (n g : ℕ) {grid : Grid}, ds.gridHeap.length - g ≤ n →
    ds.gridHeap[g]? = some grid → Filled ds.gridHeap g →
    Nested (fun sub => 0 < sub.cellCount) ds.gridHeap g → grid.done = true
  | 0, g, grid, hn, hg, _, _ => by
    have := (List.getElem?_eq_some_iff.1 hg).1
    omega
  | n + 1, g, grid, hn, hg, hf, hpos => by
    obtain ⟨hcount, hsub⟩ := (nested_iff hg).1 hpos
    rcases hcs : grid.cells with _ | cs
    · -- without cells, the first one has no fragment
      have := hf (g, 0) (.cell hg hcount (by simp [subgridAt, hcs]))
      simp [fragmentIn, fragmentAt, hg, hcs] at this
    · have hlen := (hF.node hg).length cs hcs
      refine done_iff.2 ⟨cs, hcs, by rintro rfl; simp at hlen; omega, ?_⟩
      refine emptyCells_of_filled hF hg hcs hf fun k hk sub hks => ?_
      obtain ⟨hlt, -⟩ := hF.child hg hk
      obtain ⟨cs', hcs', c, hc, hck⟩ := mem_subgrids.1 hk
      obtain ⟨i, hi⟩ := List.mem_iff_getElem?.1 hc
      exact done_of_filled n k (by omega) hks
        (hf.sub hg (subgridAt_eq_some.2 ⟨cs', c, hcs', hi, hck⟩)) (hsub k hk)

theorem filled_of_emptyCells (hg : ds.gridHeap[g]? = some grid) (hcs : grid.cells = some cs)
    (h : grid.emptyCells = 0) : Filled ds.gridHeap g := by
  by_cases hnil : cs = []
  · subst hnil
    have hlen := (hF.node hg).length [] hcs
    intro c hleaf
    cases hleaf with
    | cell hg' hi _ =>
      obtain rfl := Option.some.inj (hg.symm.trans hg')
      simp at hlen
      omega
    | sub hg' hs _ =>
      obtain rfl := Option.some.inj (hg.symm.trans hg')
      simp [subgridAt, hcs] at hs
  · exact hF.filled (hF.leavesFilled_of_done hg (done_iff.2 ⟨cs, hcs, hnil, h⟩))

/-- In a grid that counts nothing as empty, the subgrids are done. -/
theorem nested_done_of_emptyCells (hg : ds.gridHeap[g]? = some grid) (hcs : grid.cells = some cs)
    (h : grid.emptyCells = 0) {k : ℕ} (hk : k ∈ grid.subgrids) :
    Nested (fun sub => sub.done = true) ds.gridHeap k := by
  have hnil : cs ≠ [] := by
    rintro rfl
    simp [subgrids, hcs] at hk
  exact ((nested_iff hg).1 (hF.nested_done ds.gridHeap.length g (Nat.sub_le _ g) hg
    (done_iff.2 ⟨cs, hcs, hnil, h⟩))).2 k hk

theorem sound_of_emptyCells (hg : ds.gridHeap[g]? = some grid) (hcs : grid.cells = some cs)
    (h : grid.emptyCells = 0) : Sound ds ⟨g, -1, grid.cellCount⟩ := by
  have hone : ∀ {k : ℕ} {sub : Grid} {cs : List GridEntry}, ds.gridHeap[k]? = some sub →
      sub.cells = some cs → ∃ cs, sub.cells = some cs ∧ (cs.length : ℤ) = sub.cellCount
        ∧ ∀ c ∈ cs, ∀ h, c.subgrid = some h → h < ds.gridHeap.length := by
    intro k sub cs hk hcs
    refine ⟨cs, hcs, (hF.node hk).length cs hcs, fun c hc h hs => ?_⟩
    obtain ⟨-, kid, hkid, -⟩ := hF.child hk (mem_subgrids.2 ⟨cs, hcs, c, hc, hs⟩)
    exact (List.getElem?_eq_some_iff.1 hkid).1
  refine ⟨le_rfl, .inr ⟨grid, hg, rfl, (nested_iff hg).2 ⟨hone hg hcs, fun k hk => ?_⟩⟩⟩
  intro j sub hreach hsub
  obtain ⟨cs', hcs', -⟩ := done_iff.1 (nested_done_of_emptyCells hF hg hcs h hk j sub hreach hsub)
  exact hone hsub hcs'

omit hF in
theorem gridIteratorCreate_eq (hg : ds.gridHeap[g]? = some grid) :
    ds.gridIteratorCreate g = .ok (if grid.emptyCells = 0 then
      (.success, [⟨g, -1, grid.cellCount⟩]) else (.invalidStateError, [])) := by
  rw [gridIteratorCreate, grid_eq_ok.2 hg, Outcome.ok_bind, gridIteratorCreateInternal,
    grid_eq_ok.2 hg]
  by_cases h : grid.emptyCells = 0
  · rw [if_neg (not_not.2 h), if_pos h]
    rfl
  · rw [if_pos h, if_neg h]
    rfl

omit hF in
/-- The decision is the counter's. -/
theorem iteratesFilled_of_counter (hg : ds.gridHeap[g]? = some grid) : IteratesFilled ds g
    ↔ (grid.emptyCells = 0 ↔ Filled ds.gridHeap g) ∧ (grid.emptyCells = 0 → ∀ fuel increments,
      ds.advanceAll fuel [⟨g, -1, grid.cellCount⟩] increments ≠ .error .undefined) := by
  unfold IteratesFilled
  rw [gridIteratorCreate_eq hg]
  by_cases h : grid.emptyCells = 0
  · rw [if_pos h]
    constructor
    · rintro ⟨status, iterator, heq, hiff, -, hsafe⟩
      obtain ⟨rfl, rfl⟩ := Prod.mk.inj (Except.ok.inj heq)
      exact ⟨iff_of_true h (hiff.1 rfl), fun _ => hsafe rfl⟩
    · rintro ⟨hiff, hsafe⟩
      exact ⟨_, _, rfl, iff_of_true rfl (hiff.1 h), fun hne => absurd rfl hne, fun _ => hsafe h⟩
  · rw [if_neg h]
    constructor
    · rintro ⟨status, iterator, heq, hiff, -⟩
      obtain ⟨rfl, rfl⟩ := Prod.mk.inj (Except.ok.inj heq)
      exact ⟨iff_of_false h fun hf => (by cases hiff.2 hf), fun h' => absurd h' h⟩
    · rintro ⟨hiff, -⟩
      exact ⟨_, _, rfl, iff_of_false (by simp) fun hf => h (hiff.2 hf), fun _ => rfl,
        fun h' => by cases h'⟩

omit hF in
/-- The leaf cells of a grid that is not allocated have no fragments. -/
theorem filled_iff_of_unallocated (hg : ds.gridHeap[g]? = some grid) (hcs : grid.cells = none) :
    Filled ds.gridHeap g ↔ grid.cellCount ≤ 0 := by
  constructor
  · intro hf
    by_contra hpos
    have := hf (g, 0) (.cell hg (not_le.1 hpos) (by simp [subgridAt, hcs]))
    simp [fragmentIn, fragmentAt, hg, hcs] at this
  · intro hle c hleaf
    cases hleaf with
    | cell hg' hi _ =>
      obtain rfl := Option.some.inj (hg.symm.trans hg')
      omega
    | sub hg' hs _ =>
      obtain rfl := Option.some.inj (hg.symm.trans hg')
      simp [subgridAt, hcs] at hs

theorem iteratesFilled_iff (hg : ds.gridHeap[g]? = some grid) : IteratesFilled ds g
    ↔ (grid.cells = none → grid.cellCount ≤ 0) ∧ (Filled ds.gridHeap g →
      ∀ k ∈ grid.subgrids, Nested (fun sub => 0 < sub.cellCount) ds.gridHeap k) := by
  rw [iteratesFilled_of_counter hg]
  rcases hcs : grid.cells with _ | cs
  · have h0 : grid.emptyCells = 0 := (hF.node hg).unallocated hcs
    have hsub : ∀ k, k ∉ grid.subgrids := by simp [subgrids, hcs]
    rw [filled_iff_of_unallocated hg hcs]
    refine ⟨fun h => ⟨fun _ => h.1.1 h0, fun _ k hk => absurd hk (hsub k)⟩, fun h => ?_⟩
    refine ⟨iff_of_true h0 (h.1 rfl), fun _ fuel increments => advanceAll_sound fuel ?_⟩
    simpa using ⟨le_rfl, .inl (h.1 rfl)⟩
  · refine ⟨fun h => ⟨by simp, fun hf k hk j sub hreach hsub => ?_⟩,
      fun h => ⟨⟨?_, fun hf => ?_⟩, ?_⟩⟩
    · have hdone := nested_done_of_emptyCells hF hg hcs (h.1.2 hf) hk j sub hreach hsub
      obtain ⟨cs', hcs', hne, -⟩ := done_iff.1 hdone
      have hlen := (hF.node hsub).length cs' hcs'
      have := List.length_pos_of_ne_nil hne
      omega
    · exact filled_of_emptyCells hF hg hcs
    · refine emptyCells_of_filled hF hg hcs hf fun k hk sub hks => ?_
      obtain ⟨cs', hcs', c, hc, hck⟩ := mem_subgrids.1 hk
      obtain ⟨i, hi⟩ := List.mem_iff_getElem?.1 hc
      exact done_of_filled hF ds.gridHeap.length k (Nat.sub_le _ k) hks
        (hf.sub hg (subgridAt_eq_some.2 ⟨cs', c, hcs', hi, hck⟩)) (h.2 hf k hk)
    · intro h0 fuel increments
      exact advanceAll_sound fuel (by simpa using sound_of_emptyCells hF hg hcs h0)

end Counters

section Reachable

end Reachable

end Dataset

end Esdm
