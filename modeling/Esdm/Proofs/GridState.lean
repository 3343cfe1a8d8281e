import Esdm.Proofs.Forest
import Esdm.GridIo

/-!
# The grids of a dataset

On top of the forest, the dataset lists its top-level grids, the complete ones first.  A fragment
that is put into an empty cell is counted up the chain of parents, and the walk never meets a
counter of zero (`fillCell_spec`).
-/

namespace Esdm

variable {V : Type}

/-- The grid without its counter. -/
def Grid.uncounted (grid : Grid) : Grid := { grid with emptyCells := 0 }

/-- Two heaps that differ in their counters have the same grids otherwise. -/
theorem Grid.getElem?_of_uncounted {heap heap' : List Grid}
    (hu : heap'.map uncounted = heap.map uncounted) {g : ℕ} {grid' : Grid}
    (hg : heap'[g]? = some grid') :
    ∃ grid, heap[g]? = some grid ∧ grid'.axes = grid.axes ∧ grid'.cells = grid.cells := by
  have hmap : (heap[g]?).map uncounted = some grid'.uncounted := by
    rw [← List.getElem?_map, ← hu, List.getElem?_map, hg]
    rfl
  obtain ⟨grid, hg', hgu⟩ := Option.map_eq_some_iff.1 hmap
  have haxes : grid.uncounted.axes = grid'.uncounted.axes := by rw [hgu]
  have hcells : grid.uncounted.cells = grid'.uncounted.cells := by rw [hgu]
  exact ⟨grid, hg', haxes.symm, hcells.symm⟩

theorem Grid.cell_eq_ok {grid : Grid} {i : ℤ} {c : GridEntry} :
    grid.cell i = .ok c ↔ 0 ≤ i ∧ ∃ cs, grid.cells = some cs ∧ cs[i.toNat]? = some c := by
  unfold Grid.cell
  rcases grid.cells with _ | cs
  · simp
  · by_cases hi : i < 0
    · simp [hi]
    · simp [hi, not_lt.1 hi]

namespace Dataset

variable {ds ds' : Dataset V} {owed : Option ℕ} {g : ℕ} {grid : Grid}

/-- How the dataset lists its top-level grids. -/
structure Listed (ds : Dataset V) : Prop where
  top : ∀ {g : ℕ} {grid : Grid}, ds.gridHeap[g]? = some grid → (grid.parent = none ↔ g ∈ ds.grids)
  valid : ∀ g ∈ ds.grids, g < ds.gridHeap.length
  nodup : ds.grids.Nodup
  length : ds.grids.length = ds.gridCount + ds.incompleteGridCount
  complete : ∀ {g : ℕ} {grid : Grid}, ds.gridHeap[g]? = some grid → g ∈ ds.grids →
    (g ∈ ds.grids.take ds.gridCount ↔ grid.done = true)

/-- The invariant of the grids.  `owed` is the grid whose counter is one too high. -/
structure GridInv (owed : Option ℕ) (ds : Dataset V) : Prop where
  forest : Grid.Forest ds.dims owed ds.gridHeap
  listed : Listed ds

theorem init_gridInv (dataspace : Dataspace) (fillValue : Option V) :
    GridInv none (init dataspace fillValue) := by
  refine ⟨⟨?_, ?_, ?_, ?_⟩, ⟨?_, ?_, ?_, ?_, ?_⟩⟩ <;> simp [init]

theorem grid_eq_ok : ds.grid g = .ok grid ↔ ds.gridHeap[g]? = some grid := access_eq_ok

section Listed

theorem Listed.set (hL : Listed ds) (hg : ds.gridHeap[g]? = some grid) {grid' : Grid}
    (hp : grid'.parent = grid.parent) (hd : grid.parent = none → grid'.done = grid.done) :
    Listed (ds.setGrid g grid') := by
  have hget := Grid.getElem?_set_of_some hg grid'
  refine ⟨?_, ?_, hL.nodup, hL.length, ?_⟩
  · intro h sub hh
    simp only [setGrid, hget] at hh ⊢
    split_ifs at hh with he
    · rw [← Option.some.inj hh, hp, he]
      exact hL.top hg
    · exact hL.top hh
  · simpa [setGrid] using hL.valid
  · intro h sub hh hm
    simp only [setGrid, hget] at hh hm ⊢
    split_ifs at hh with he
    · subst he
      rw [← Option.some.inj hh, hd ((hL.top hg).2 hm)]
      exact hL.complete hg hm
    · exact hL.complete hh hm

/-- A new subgrid is not listed. -/
theorem Listed.push (hL : Listed ds) {new : Grid} (hp : new.parent ≠ none) :
    Listed { ds with gridHeap := ds.gridHeap ++ [new] } := by
  have hget := Grid.getElem?_push ds.gridHeap new
  refine ⟨?_, ?_, hL.nodup, hL.length, ?_⟩
  · intro h sub hh
    rw [hget] at hh
    split_ifs at hh with he
    · obtain rfl := Option.some.inj hh
      refine iff_of_false hp fun hm => ?_
      have := hL.valid h hm
      omega
    · exact hL.top hh
  · intro h hm
    have := hL.valid h hm
    rw [List.length_append]
    omega
  · intro h sub hh hm
    rw [hget] at hh
    have := hL.valid h hm
    rw [if_neg (by omega)] at hh
    exact hL.complete hh hm

/-- A new top-level grid is the last one of those that are incomplete. -/
theorem Listed.pushTop (hL : Listed ds) {new : Grid} (hp : new.parent = none)
    (hd : new.done = false) :
    Listed (registerGrid { ds with gridHeap := ds.gridHeap ++ [new] } ds.gridHeap.length) := by
  have hget := Grid.getElem?_push ds.gridHeap new
  have hfresh : ds.gridHeap.length ∉ ds.grids := fun hm => lt_irrefl _ (hL.valid _ hm)
  have htake : (ds.grids ++ [ds.gridHeap.length]).take ds.gridCount
      = ds.grids.take ds.gridCount := by
    rw [List.take_append_of_le_length]
    have := hL.length
    omega
  refine ⟨?_, ?_, ?_, ?_, ?_⟩
  · intro h sub hh
    simp only [registerGrid, hget, List.mem_append, List.mem_singleton] at hh ⊢
    split_ifs at hh with he
    · exact iff_of_true (Option.some.inj hh ▸ hp) (.inr he)
    · rw [hL.top hh]
      exact ⟨.inl, fun h => h.resolve_right he⟩
  · intro h hm
    simp only [registerGrid, List.mem_append, List.mem_singleton, List.length_append,
      List.length_singleton] at hm ⊢
    rcases hm with hm | rfl
    · have := hL.valid h hm
      omega
    · omega
  · simp only [registerGrid]
    exact (List.perm_append_singleton _ _).nodup_iff.2 (List.nodup_cons.2 ⟨hfresh, hL.nodup⟩)
  · simp only [registerGrid, List.length_append, List.length_singleton, hL.length]
    omega
  · intro h sub hh hm
    simp only [registerGrid, hget, List.mem_append, List.mem_singleton, htake] at hh hm ⊢
    split_ifs at hh with he
    · obtain rfl := Option.some.inj hh
      rw [hd, he]
      simpa using fun h => hfresh (List.mem_of_mem_take h)
    · exact hL.complete hh (hm.resolve_right he)

end Listed

section Completion

theorem perm_cons_set {α : Type*} {l : List α} {k : ℕ} {x : α} (h : l[k]? = some x) (y : α) :
    (x :: l.set k y).Perm (y :: l) := by
  obtain ⟨hk, rfl⟩ := List.getElem?_eq_some_iff.1 h
  have hl : l = l.take k ++ l[k] :: l.drop (k + 1) := by
    rw [List.cons_getElem_drop_succ, List.take_append_drop]
  rw [List.set_eq_take_append_cons_drop, if_pos hk]
  refine ((List.perm_middle.cons _).trans (.swap ..)).trans (List.Perm.cons _ ?_)
  conv_rhs => rw [hl]
  exact List.perm_middle.symm

/-- A grid that is not in the front of the list is moved to the front's end. -/
theorem registerGridCompletion_eq
    (hl : ds.grids.length = ds.gridCount + ds.incompleteGridCount) (hg : g ∈ ds.grids)
    (hn : g ∉ ds.grids.take ds.gridCount) :
    ∃ grids, ds.registerGridCompletion g = .ok { ds with
        grids := grids
        gridCount := ds.gridCount + 1
        incompleteGridCount := ds.incompleteGridCount - 1 }
      ∧ grids.Perm ds.grids ∧ grids.take (ds.gridCount + 1) = ds.grids.take ds.gridCount ++ [g]
      ∧ 0 < ds.incompleteGridCount := by
  have hlen : (ds.grids.take ds.gridCount).length = ds.gridCount := by
    rw [List.length_take]
    omega
  have hdrop : g ∈ ds.grids.drop ds.gridCount := by
    rw [← List.take_append_drop ds.gridCount ds.grids, List.mem_append] at hg
    exact hg.resolve_left hn
  rcases hb : ds.grids.drop ds.gridCount with _ | ⟨b, rest⟩
  · rw [hb] at hdrop
    cases hdrop
  have hrest : rest.length + 1 = ds.incompleteGridCount := by
    have := congrArg List.length hb
    rw [List.length_drop, List.length_cons] at this
    omega
  have hsplit :
    ds.grids = ds.grids.take ds.gridCount ++ b :: rest := by rw [← hb, List.take_append_drop]
  obtain ⟨rest', hset, hperm⟩ : ∃ rest', ((b :: rest).set ((b :: rest).idxOf g) b).set 0 g
      = g :: rest' ∧ (g :: rest').Perm (b :: rest) := by
    rw [hb] at hdrop
    by_cases hbg : b = g
    · exact ⟨rest, by simp [hbg], by rw [hbg]⟩
    · have hm := (List.mem_cons.1 hdrop).resolve_left (Ne.symm hbg)
      refine ⟨rest.set (rest.idxOf g) b, by simp [List.idxOf_cons_ne _ hbg], ?_⟩
      exact perm_cons_set (List.getElem?_idxOf hm) b
  have hidx : (b :: rest).idxOf g < ds.incompleteGridCount := by
    rw [← hrest, ← List.length_cons (a := b)]
    exact List.idxOf_lt_length_of_mem (hb ▸ hdrop)
  refine ⟨ds.grids.take ds.gridCount ++ g :: rest', ?_, ?_, ?_, by omega⟩
  · have hfirst : ds.grids[ds.gridCount]? = some b := by
      rw [hsplit, List.getElem?_append_right (by omega), hlen]
      simp
    unfold registerGridCompletion
    rw [hb, hfirst]
    simp only [access_some, Outcome.ok_bind, Outcome.pure_eq]
    rw [eassert_of (by omega), eassert_of (by omega)]
    simp only [Outcome.ok_bind]
    congr 2
    conv_lhs => rw [hsplit]
    rw [List.set_append_right _ _ (by omega), List.set_append_right _ _ (by omega), hlen,
      Nat.add_sub_cancel_left, Nat.sub_self, hset]
  · conv_rhs => rw [hsplit]
    exact hperm.append_left _
  · rw [List.take_append, hlen, List.take_of_length_le (by omega)]
    simp

/-- Only the counters and the list of the top-level grids have changed. -/
def Recounted (ds ds' : Dataset V) : Prop :=
  ∃ heap grids n k, ds' = { ds with
      gridHeap := heap
      grids := grids
      gridCount := n
      incompleteGridCount := k }
    ∧ heap.map Grid.uncounted = ds.gridHeap.map Grid.uncounted

theorem Recounted.trans {ds₁ ds₂ ds₃ : Dataset V} (h : Recounted ds₁ ds₂)
    (h' : Recounted ds₂ ds₃) : Recounted ds₁ ds₃ := by
  obtain ⟨_, _, _, _, rfl, hh⟩ := h
  obtain ⟨_, _, _, _, rfl, hh'⟩ := h'
  exact ⟨_, _, _, _, rfl, hh'.trans hh⟩

theorem recounted_setGrid (hg : ds.gridHeap[g]? = some grid) (n : ℤ) :
    Recounted ds (ds.setGrid g { grid with emptyCells := n }) := by
  refine ⟨_, _, _, _, rfl, List.ext_getElem? fun h => ?_⟩
  rw [List.getElem?_map, Grid.getElem?_set_of_some hg, List.getElem?_map]
  split_ifs with he
  · rw [he, hg]
    rfl
  · rfl

/-- The last cell of a top-level grid has been counted, and the grid is moved to the complete
ones. -/
theorem Listed.registerGridCompletion (hL : Listed ds) (hg : ds.gridHeap[g]? = some grid)
    (hp : grid.parent = none) (hd : grid.done = false) {grid' : Grid}
    (hp' : grid'.parent = none) (hd' : grid'.done = true) :
    ∃ grids n k, (ds.setGrid g grid').registerGridCompletion g = .ok { ds.setGrid g grid' with
        grids := grids
        gridCount := n
        incompleteGridCount := k }
      ∧ Listed { ds.setGrid g grid' with
        grids := grids
        gridCount := n
        incompleteGridCount := k } := by
  have hget := Grid.getElem?_set_of_some hg grid'
  have hm : g ∈ ds.grids := (hL.top hg).1 hp
  have hn : g ∉ ds.grids.take ds.gridCount := fun h => by
    rw [hL.complete hg hm, hd] at h
    cases h
  obtain ⟨grids, heq, hperm, htake, hk⟩ :=
    @registerGridCompletion_eq V (ds.setGrid g grid') g hL.length hm hn
  simp only [setGrid] at heq hperm htake hk
  refine ⟨grids, _, _, heq, ?_, ?_, ?_, ?_, ?_⟩
  · intro h sub hh
    simp only [setGrid, hget, hperm.mem_iff] at hh ⊢
    split_ifs at hh with he
    · rw [← Option.some.inj hh, hp', he]
      exact iff_of_true rfl hm
    · exact hL.top hh
  · intro h hh
    simpa [setGrid] using hL.valid h (hperm.mem_iff.1 hh)
  · exact hperm.nodup_iff.2 hL.nodup
  · have := hL.length
    simp only [hperm.length_eq]
    omega
  · intro h sub hh hmem
    simp only [setGrid, hget, htake, List.mem_append, List.mem_singleton] at hh hmem ⊢
    split_ifs at hh with he
    · rw [← Option.some.inj hh]
      exact iff_of_true (.inr he) hd'
    · rw [or_iff_left he]
      exact hL.complete hh (hperm.mem_iff.1 hmem)

/-- `esdmI_grid_registerCompletedCell` counts a cell that has just been filled, in its grid and in
all parents it completes, and does not run into an assertion. -/
theorem registerCompletedCell_spec : ∀ {fuel g : ℕ} {ds : Dataset V} {grid : Grid}
    {cs : List GridEntry}, GridInv (some g) ds → ds.gridHeap[g]? = some grid →
    grid.cells = some cs → cs ≠ [] → g < fuel →
    ∃ ds', registerCompletedCell fuel ds g = .ok ds' ∧ GridInv none ds' ∧ Recounted ds ds'
  | 0, _, _, _, _, _, _, _, _, hf => absurd hf (Nat.not_lt_zero _)
  | fuel + 1, g, ds, grid, cs, hI, hg, hcs, hne, hf => by
    have hcount := hI.forest.count hg hcs
    rw [if_pos rfl] at hcount
    have hpos : grid.emptyCells > 0 := by omega
    have hd : grid.done = false := Grid.not_done_of_emptyCells (by omega)
    rw [registerCompletedCell, grid_eq_ok.2 hg]
    simp only [Outcome.ok_bind, eassert_of hpos]
    by_cases h1 : grid.emptyCells = 1
    · have hF := hI.forest.decrement_last hg hcs hne h1
      have hd' : Grid.done { grid with emptyCells := 0 } = true :=
        Grid.done_iff.2 ⟨cs, hcs, hne, rfl⟩
      have hr := recounted_setGrid hg 0
      rw [if_pos h1, show grid.emptyCells - 1 = 0 by omega]
      have hp' : Grid.parent { grid with emptyCells := 0 } = grid.parent := rfl
      generalize { grid with emptyCells := 0 } = grid' at hF hd' hr hp' ⊢
      rcases hp : grid.parent with _ | p <;> rw [hp] at hF hp'
      · obtain ⟨grids, n, k, heq, hL⟩ := hI.listed.registerGridCompletion hg hp hd hp' hd'
        obtain ⟨_, _, _, _, h', hh⟩ := hr
        exact ⟨_, heq, ⟨hF, hL⟩, _, _, _, _, rfl, by rw [h']; exact hh⟩
      · have hI' : GridInv (some p) (ds.setGrid g grid') :=
          ⟨hF, hI.listed.set hg (hp'.trans hp.symm) fun h => by simp [hp] at h⟩
        -- the subgrid keeps the parent's cells from being empty
        have hg' : (ds.gridHeap.set g grid')[g]? = some grid' := by
          rw [Grid.getElem?_set_of_some hg, if_pos rfl]
        obtain ⟨par, hpar, hm⟩ := hF.parent hg' hp'
        obtain ⟨cs', hcs', c, hc, -⟩ := Grid.mem_subgrids.1 hm
        have hlt := (hF.child hpar hm).1
        obtain ⟨ds', heq, hI'', hr'⟩ := registerCompletedCell_spec hI' hpar hcs'
          (List.ne_nil_of_mem hc) (by omega : p < fuel)
        exact ⟨ds', heq, hI'', hr.trans hr'⟩
    · rw [if_neg h1]
      refine ⟨_, rfl, ⟨hI.forest.decrement hg hcs h1, hI.listed.set hg rfl fun _ => ?_⟩,
        recounted_setGrid hg _⟩
      exact Grid.done_eq_of_emptyCells (by omega) (by dsimp only; omega)

/-- A fragment in an empty cell. -/
def setCell (ds : Dataset V) (g : ℕ) (grid : Grid) (cs : List GridEntry) (i r : ℕ) : Dataset V :=
  ds.setGrid g { grid with cells := some (cs.set i ⟨none, some r⟩) }

/-- An empty cell can always be filled. -/
theorem fillCell_spec (hI : GridInv none ds) (hg : ds.gridHeap[g]? = some grid)
    {cs : List GridEntry} (hcs : grid.cells = some cs) {i : ℕ} (hc : cs[i]? = some ⟨none, none⟩)
    (r : ℕ) :
    ∃ ds', ds.fillCell g i r = .ok ds' ∧ GridInv none ds'
      ∧ Recounted (ds.setCell g grid cs i r) ds' := by
  have hset : ds.setCellFragment g i r = .ok (ds.setCell g grid cs i r) := by
    have hcell : grid.cell i = .ok ⟨none, none⟩ := Grid.cell_eq_ok.2 ⟨by omega, cs, hcs, hc⟩
    simp [setCellFragment, grid_eq_ok.2 hg, hcell, Grid.setCell, setCell, hcs]
  have hlt := (List.getElem?_eq_some_iff.1 hg).1
  have hI' : GridInv (some g) (ds.setCell g grid cs i r) := by
    refine ⟨hI.forest.setFragment hg hcs hc rfl rfl r, hI.listed.set hg rfl fun _ => ?_⟩
    have hne := (hI.forest.emptyCells_pos hg hcs hc rfl rfl).ne'
    exact Grid.done_eq_of_emptyCells hne hne
  have hg' : (ds.setCell g grid cs i r).gridHeap[g]?
      = some { grid with cells := some (cs.set i ⟨none, some r⟩) } := by
    rw [setCell, setGrid, Grid.getElem?_set_of_some hg, if_pos rfl]
  have hne : cs.set i ⟨none, some r⟩ ≠ [] := by
    have := (List.getElem?_eq_some_iff.1 hc).1
    exact List.ne_nil_of_length_pos (by rw [List.length_set]; omega)
  obtain ⟨ds', heq, hI'', hr⟩ := registerCompletedCell_spec hI' hg' rfl hne
    (show g < (ds.setCell g grid cs i r).gridHeap.length by simpa [setCell, setGrid] using hlt)
  refine ⟨ds', ?_, hI'', hr⟩
  rw [fillCell, hset]
  exact heq

end Completion

end Dataset

end Esdm
