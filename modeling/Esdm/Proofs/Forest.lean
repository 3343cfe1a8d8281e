import Mathlib.Data.List.Nodup
import Esdm.Grid

/-!
# Grids and their subgrids

The grids of a dataset form a forest: a subgrid stands in one cell of its parent, and behind it in
the heap.  Each allocated grid counts the cells that are not done, where a cell is done if it has a
fragment or a subgrid all of whose cells are done.

Filling a cell leaves the counter of its grid one too high; the invariant carries the grid that is
in this state, if there is one.  `esdmI_grid_registerCompletedCell` moves it up to the parent or
gets rid of it.
-/

namespace Esdm

namespace Grid

/-- The subgrids a grid has in its cells. -/
def subgrids (grid : Grid) : List ℕ := (grid.cells.getD []).filterMap GridEntry.subgrid

/-- The grid has cells, and none of them counts as empty. -/
def done (grid : Grid) : Bool :=
  match grid.cells with
  | some (_ :: _) => grid.emptyCells = 0
  | _ => false

/-- A cell with a fragment, or with a subgrid that is done. -/
def cellDone (heap : List Grid) (c : GridEntry) : Bool :=
  c.fragment.isSome || (c.subgrid.bind fun h => heap[h]?).any done

/-- How many of the cells are not done. -/
def openCells (heap : List Grid) (cs : List GridEntry) : ℕ := cs.countP fun c => !cellDone heap c

theorem done_iff {grid : Grid} :
    grid.done = true ↔ ∃ cs, grid.cells = some cs ∧ cs ≠ [] ∧ grid.emptyCells = 0 := by
  unfold done
  rcases h : grid.cells with _ | _ | ⟨c, cs⟩ <;> simp

theorem mem_subgrids {grid : Grid} {h : ℕ} :
    h ∈ grid.subgrids ↔ ∃ cs, grid.cells = some cs ∧ ∃ c ∈ cs, c.subgrid = some h := by
  unfold subgrids
  rcases grid.cells with _ | cs <;> simp

/-- What holds of each grid by itself. -/
structure NodeWf (dims : ℕ) (grid : Grid) : Prop where
  axes : grid.axes.length = dims
  unallocated : grid.cells = none → grid.emptyCells = 0
  length : ∀ cs, grid.cells = some cs → (cs.length : ℤ) = grid.cellCount
  exclusive : ∀ cs, grid.cells = some cs → ∀ c ∈ cs, c.subgrid = none ∨ c.fragment = none
  nodup : grid.subgrids.Nodup
  pos : 0 < dims

/-- The invariant of the grids' heap.  `owed` is the grid whose counter is one too high. -/
structure Forest (dims : ℕ) (owed : Option ℕ) (heap : List Grid) : Prop where
  node : ∀ {g : ℕ} {grid : Grid}, heap[g]? = some grid → NodeWf dims grid
  child : ∀ {g : ℕ} {grid : Grid} {h : ℕ}, heap[g]? = some grid → h ∈ grid.subgrids →
    g < h ∧ ∃ sub, heap[h]? = some sub ∧ sub.parent = some g
  parent : ∀ {h : ℕ} {sub : Grid} {g : ℕ}, heap[h]? = some sub → sub.parent = some g →
    ∃ grid, heap[g]? = some grid ∧ h ∈ grid.subgrids
  count : ∀ {g : ℕ} {grid : Grid} {cs : List GridEntry}, heap[g]? = some grid →
    grid.cells = some cs → grid.emptyCells = openCells heap cs + if owed = some g then 1 else 0

section Count

variable {heap heap' : List Grid}

theorem cellDone_congr {c : GridEntry}
    (h : ∀ s, c.subgrid = some s → (heap'[s]?).any done = (heap[s]?).any done) :
    cellDone heap' c = cellDone heap c := by
  unfold cellDone
  rcases hs : c.subgrid with _ | s
  · rfl
  · simp [h s hs]

theorem openCells_congr {cs : List GridEntry}
    (h : ∀ c ∈ cs, ∀ s, c.subgrid = some s → (heap'[s]?).any done = (heap[s]?).any done) :
    openCells heap' cs = openCells heap cs :=
  List.countP_congr fun c hc => by rw [cellDone_congr (h c hc)]

/-- When one subgrid gets done, one cell of its parent does. -/
theorem openCells_of_done {h : ℕ} (hd : (heap[h]?).any done = false)
    (hd' : (heap'[h]?).any done = true)
    (ho : ∀ s, s ≠ h → (heap'[s]?).any done = (heap[s]?).any done) :
    ∀ {cs : List GridEntry}, (∀ c ∈ cs, c.subgrid = none ∨ c.fragment = none) →
      (cs.filterMap GridEntry.subgrid).Nodup → h ∈ cs.filterMap GridEntry.subgrid →
      openCells heap cs = openCells heap' cs + 1
  | [], _, _, hm => by simp at hm
  | c :: cs, hx, hn, hm => by
    unfold openCells at *
    rcases hs : c.subgrid with _ | s
    · rw [List.filterMap_cons_none hs] at hn hm
      have ih := openCells_of_done hd hd' ho (fun c hc => hx c (by simp [hc])) hn hm
      have hc : cellDone heap' c = cellDone heap c := cellDone_congr (by simp [hs])
      unfold openCells at ih
      simp only [List.countP_cons, hc, ih]
      omega
    · rw [List.filterMap_cons_some hs] at hn hm
      rw [List.nodup_cons] at hn
      by_cases hsh : s = h
      · subst hsh
        have hf : c.fragment = none := (hx c (by simp)).resolve_left (by simp [hs])
        have h1 : cellDone heap c = false := by simpa [cellDone, hf, hs] using hd
        have h2 : cellDone heap' c = true := by simpa [cellDone, hf, hs] using hd'
        have h3 : openCells heap' cs = openCells heap cs := openCells_congr fun c' hc' t ht =>
          ho t fun e => hn.1 (List.mem_filterMap.2 ⟨c', hc', e ▸ ht⟩)
        unfold openCells at h3
        simp [h1, h2, h3]
      · have hm' := (List.mem_cons.1 hm).resolve_left (fun e => hsh e.symm)
        have ih := openCells_of_done hd hd' ho (fun c hc => hx c (by simp [hc])) hn.2 hm'
        have hc : cellDone heap' c = cellDone heap c := cellDone_congr fun t ht => ho t fun e => by
          rw [hs] at ht
          exact hsh ((Option.some.inj ht).trans e)
        unfold openCells at ih
        simp only [List.countP_cons, hc, ih]
        omega

end Count

section Set

variable {dims : ℕ} {heap : List Grid} {owed owed' : Option ℕ} {g : ℕ} {grid grid' : Grid}

theorem getElem?_set_of_some (hg : heap[g]? = some grid) (grid' : Grid) (h : ℕ) :
    (heap.set g grid')[h]? = if h = g then some grid' else heap[h]? := by
  by_cases he : h = g
  · rw [if_pos he, he, List.getElem?_set_self (List.getElem?_eq_some_iff.1 hg).1]
  · rw [if_neg he, List.getElem?_set_ne (Ne.symm he)]

/-- Replace a grid by one with the same place in the forest. -/
theorem Forest.set (hF : Forest dims owed heap) (hg : heap[g]? = some grid)
    (hp : grid'.parent = grid.parent) (hs : grid'.subgrids = grid.subgrids)
    (hn : NodeWf dims grid')
    (hc : ∀ {h : ℕ} {sub : Grid} {cs : List GridEntry}, (heap.set g grid')[h]? = some sub →
      sub.cells = some cs →
      sub.emptyCells = openCells (heap.set g grid') cs + if owed' = some h then 1 else 0) :
    Forest dims owed' (heap.set g grid') := by
  have hget := getElem?_set_of_some hg grid'
  refine ⟨?_, ?_, ?_, hc⟩
  · intro h sub hh
    rw [hget] at hh
    split_ifs at hh
    · exact Option.some.inj hh ▸ hn
    · exact hF.node hh
  · intro h sub k hh hk
    have : ∃ sub', heap[h]? = some sub' ∧ k ∈ sub'.subgrids := by
      rw [hget] at hh
      split_ifs at hh with he
      · exact ⟨grid, he ▸ hg, hs ▸ Option.some.inj hh ▸ hk⟩
      · exact ⟨sub, hh, hk⟩
    obtain ⟨sub', hh', hk'⟩ := this
    obtain ⟨hlt, kid, hkid, hpar⟩ := hF.child hh' hk'
    refine ⟨hlt, ?_⟩
    rw [hget]
    split_ifs with he
    · subst he
      rw [hg] at hkid
      exact ⟨grid', rfl, by rw [hp, Option.some.inj hkid, hpar]⟩
    · exact ⟨kid, hkid, hpar⟩
  · intro h sub k hh hk
    have : ∃ sub', heap[h]? = some sub' ∧ sub'.parent = some k := by
      rw [hget] at hh
      split_ifs at hh with he
      · exact ⟨grid, he ▸ hg, hp ▸ Option.some.inj hh ▸ hk⟩
      · exact ⟨sub, hh, hk⟩
    obtain ⟨sub', hh', hk'⟩ := this
    obtain ⟨par, hpar, hmem⟩ := hF.parent hh' hk'
    rw [hget]
    split_ifs with he
    · subst he
      rw [hg] at hpar
      exact ⟨grid', rfl, by rw [hs, Option.some.inj hpar]; exact hmem⟩
    · exact ⟨par, hpar, hmem⟩

/-- Replace a grid by one that is done exactly if the old one was: the other counters stay
right. -/
theorem Forest.set_of_done_eq (hF : Forest dims owed heap) (hg : heap[g]? = some grid)
    (hp : grid'.parent = grid.parent) (hs : grid'.subgrids = grid.subgrids)
    (hn : NodeWf dims grid') (hd : grid'.done = grid.done)
    (ho : ∀ h, h ≠ g → (owed' = some h ↔ owed = some h))
    (hc : ∀ cs, grid'.cells = some cs →
      grid'.emptyCells = openCells heap cs + if owed' = some g then 1 else 0) :
    Forest dims owed' (heap.set g grid') := by
  have hget := getElem?_set_of_some hg grid'
  have hany : ∀ s : ℕ, ((heap.set g grid')[s]?).any done = (heap[s]?).any done := by
    intro s
    rw [hget]
    split_ifs with he
    · rw [he, hg]
      exact hd
    · rfl
  have hopen : ∀ cs, openCells (heap.set g grid') cs = openCells heap cs := fun cs =>
    openCells_congr fun _ _ s _ => hany s
  refine hF.set hg hp hs hn fun {h sub cs} hh hcs => ?_
  rw [hopen]
  rw [hget] at hh
  split_ifs at hh with he
  · subst he
    obtain rfl := Option.some.inj hh
    exact hc cs hcs
  · rw [hF.count hh hcs]
    simp only [ho h he]

end Set

section Steps

variable {dims : ℕ} {heap : List Grid} {owed : Option ℕ} {g : ℕ} {grid grid' : Grid}

theorem ensureGrid_eq_ok (h : grid.ensureGrid = .ok grid') :
    (grid.cells ≠ none ∧ grid' = grid)
      ∨ (grid.cells = none ∧ 0 ≤ grid.cellCount ∧ grid' = { grid with
        emptyCells := grid.cellCount
        cells := some (List.replicate grid.cellCount.toNat ⟨none, none⟩) }) := by
  unfold ensureGrid at h
  split at h
  · rename_i h'
    exact .inl ⟨by simp [h'], (Except.ok.inj h).symm⟩
  · rename_i h'
    split_ifs at h with hc
    exact .inr ⟨h', by omega, (Except.ok.inj h).symm⟩

theorem openCells_replicate (n : ℕ) : openCells heap (List.replicate n ⟨none, none⟩) = n := by
  simp [openCells, List.countP_replicate, cellDone]

/-- A grid whose cells have just been allocated is not done. -/
theorem done_ensureGrid (h : grid.ensureGrid = .ok grid') : grid'.done = grid.done := by
  obtain ⟨-, rfl⟩ | ⟨hcells, -, rfl⟩ := ensureGrid_eq_ok h
  · rfl
  · rw [Bool.eq_iff_iff, done_iff, done_iff]
    simp only [hcells, reduceCtorEq, false_and, exists_false, iff_false]
    rintro ⟨cs, ⟨⟩, hne, h0⟩
    simp only [h0, Int.toNat_zero, List.replicate_zero, ne_eq, not_true_eq_false] at hne

/-- Allocating the cells of a grid. -/
theorem Forest.ensureGrid (hF : Forest dims none heap) (hg : heap[g]? = some grid)
    (h : grid.ensureGrid = .ok grid') : Forest dims none (heap.set g grid') := by
  have hw := hF.node hg
  have hd := done_ensureGrid h
  obtain ⟨-, rfl⟩ | ⟨hcells, hpos, rfl⟩ := ensureGrid_eq_ok h
  · exact hF.set_of_done_eq hg rfl rfl hw rfl (fun _ _ => .rfl) fun cs hcs => hF.count hg hcs
  · refine hF.set_of_done_eq hg rfl ?_ ?_ hd (fun _ _ => .rfl) ?_
    · simp [subgrids, hcells]
    · refine ⟨hw.axes, by simp, ?_, ?_, ?_, hw.pos⟩
      · rintro cs ⟨⟩
        simp only [List.length_replicate]
        exact Int.toNat_of_nonneg hpos
      · rintro cs ⟨⟩ c hc
        exact .inl (by rw [List.eq_of_mem_replicate hc])
      · simp [subgrids]
    · rintro cs ⟨⟩
      rw [openCells_replicate, Int.toNat_of_nonneg hpos]
      simp

/-- Giving a grid an id. -/
theorem Forest.setId (hF : Forest dims none heap) (hg : heap[g]? = some grid)
    (id : Option String) : Forest dims none (heap.set g { grid with id := id }) := by
  have hw := hF.node hg
  exact hF.set_of_done_eq hg rfl rfl
    ⟨hw.axes, hw.unallocated, hw.length, hw.exclusive, hw.nodup, hw.pos⟩ rfl
      (fun _ _ => .rfl) fun cs hcs => @hF.count g grid cs hg hcs

/-- Subdividing an axis of a grid that has no cells yet. -/
theorem Forest.setAxes (hF : Forest dims none heap) (hg : heap[g]? = some grid)
    (hcells : grid.cells = none) {axes : List Axis} (hl : axes.length = grid.axes.length) :
    Forest dims none (heap.set g { grid with axes := axes }) := by
  have hw := hF.node hg
  refine hF.set_of_done_eq hg rfl rfl ?_ rfl (fun _ _ => .rfl) ?_
  · exact ⟨hl.trans hw.axes, hw.unallocated, by simp [hcells], hw.exclusive, hw.nodup, hw.pos⟩
  · simp [hcells]

theorem map_subgrid_set {cs : List GridEntry} {i : ℕ} {c : GridEntry} (hc : cs[i]? = some c)
    (c' : GridEntry) (hs : c'.subgrid = c.subgrid) :
    (cs.set i c').map GridEntry.subgrid = cs.map GridEntry.subgrid := by
  rw [List.map_set, hs]
  refine List.ext_getElem? fun j => ?_
  rw [List.getElem?_set]
  split_ifs with hij hlt
  · subst hij
    simp [hc]
  · subst hij
    simpa using hlt
  · rfl

theorem filterMap_set_of_eq {cs : List GridEntry} {i : ℕ} {c : GridEntry}
    (hc : cs[i]? = some c) (c' : GridEntry) (hs : c'.subgrid = c.subgrid) :
    (cs.set i c').filterMap GridEntry.subgrid = cs.filterMap GridEntry.subgrid := by
  have hid : ∀ l : List GridEntry,
      l.filterMap GridEntry.subgrid = (l.map GridEntry.subgrid).filterMap fun o => o := fun l => by
    simp [List.filterMap_map]
  rw [hid, hid, map_subgrid_set hc c' hs]

/-- An empty cell is counted. -/
theorem Forest.emptyCells_pos (hF : Forest dims none heap) (hg : heap[g]? = some grid)
    {cs : List GridEntry} (hcs : grid.cells = some cs) {i : ℕ} {c : GridEntry}
    (hc : cs[i]? = some c) (hsub : c.subgrid = none) (hfrag : c.fragment = none) :
    0 < grid.emptyCells := by
  have hcount := hF.count hg hcs
  have : 0 < openCells heap cs :=
    List.countP_pos_iff.2 ⟨c, List.mem_of_getElem? hc, by simp [cellDone, hsub, hfrag]⟩
  simp only [reduceCtorEq, if_false] at hcount
  omega

theorem not_done_of_emptyCells (h : grid.emptyCells ≠ 0) : grid.done = false := by
  rw [Bool.eq_false_iff, ne_eq, done_iff]
  rintro ⟨_, _, _, h0⟩
  exact h h0

theorem done_eq_of_emptyCells (h : grid.emptyCells ≠ 0) (h' : grid'.emptyCells ≠ 0) :
    grid'.done = grid.done := by
  rw [not_done_of_emptyCells h, not_done_of_emptyCells h']

/-- Putting a fragment into an empty cell: the grid's counter is one too high then. -/
theorem Forest.setFragment (hF : Forest dims none heap) (hg : heap[g]? = some grid)
    {cs : List GridEntry} (hcs : grid.cells = some cs) {i : ℕ} {c : GridEntry}
    (hc : cs[i]? = some c) (hsub : c.subgrid = none) (hfrag : c.fragment = none) (r : ℕ) :
    Forest dims (some g) (heap.set g { grid with
      cells := some (cs.set i { c with fragment := some r }) }) := by
  have hw := hF.node hg
  obtain ⟨hi, hget⟩ := List.getElem?_eq_some_iff.1 hc
  have hcount := hF.count hg hcs
  simp only [reduceCtorEq, if_false, add_zero] at hcount
  have hopen : openCells heap cs
      = openCells heap (cs.set i { c with fragment := some r }) + 1 := by
    have hp : 0 < openCells heap cs :=
      List.countP_pos_iff.2 ⟨c, List.mem_of_getElem? hc, by simp [cellDone, hsub, hfrag]⟩
    unfold openCells at hp ⊢
    rw [List.countP_set hi, hget]
    simp only [cellDone, hsub, hfrag, Option.isSome_none, Option.isSome_some, Option.bind_none,
      Option.any_none, Bool.or_false, Bool.not_false, Bool.not_true, if_true, Bool.false_eq_true,
      if_false] at hp ⊢
    omega
  have hne : grid.emptyCells ≠ 0 := by omega
  refine hF.set_of_done_eq hg rfl ?_ ?_ ?_ ?_ ?_
  · simp [subgrids, hcs, filterMap_set_of_eq hc { c with fragment := some r } rfl]
  · refine ⟨hw.axes, by simp, ?_, ?_, ?_, hw.pos⟩
    · rintro cs' ⟨⟩
      rw [List.length_set]
      exact hw.length cs hcs
    · rintro cs' ⟨⟩ c' hc'
      rcases List.mem_or_eq_of_mem_set hc' with h | rfl
      · exact hw.exclusive cs hcs c' h
      · exact .inl hsub
    · have := hw.nodup
      rw [subgrids, hcs] at this
      simpa [subgrids, filterMap_set_of_eq hc { c with fragment := some r } rfl] using this
  · exact done_eq_of_emptyCells hne hne
  · intro h hh
    simp [Ne.symm hh]
  · rintro cs' ⟨⟩
    rw [if_pos rfl, hcount, hopen]
    push_cast
    rfl

/-- Counting a cell of a grid that has other empty cells. -/
theorem Forest.decrement (hF : Forest dims (some g) heap) (hg : heap[g]? = some grid)
    {cs : List GridEntry} (hcs : grid.cells = some cs) (h1 : grid.emptyCells ≠ 1) :
    Forest dims none (heap.set g { grid with emptyCells := grid.emptyCells - 1 }) := by
  have hw := hF.node hg
  have hcount := hF.count hg hcs
  rw [if_pos rfl] at hcount
  refine hF.set_of_done_eq hg rfl rfl ?_ ?_ ?_ ?_
  · exact ⟨hw.axes, by simp [hcs], hw.length, hw.exclusive, hw.nodup, hw.pos⟩
  · exact done_eq_of_emptyCells (by omega) (by dsimp only; omega)
  · intro h hh
    simp [Ne.symm hh]
  · intro cs' hcs'
    obtain rfl : cs = cs' := Option.some.inj (hcs.symm.trans hcs')
    simp only [reduceCtorEq, if_false]
    omega

/-- Counting the last cell of a grid: it is done now, and so is its cell in the parent, whose
counter has not been told yet. -/
theorem Forest.decrement_last (hF : Forest dims (some g) heap) (hg : heap[g]? = some grid)
    {cs : List GridEntry} (hcs : grid.cells = some cs) (hne : cs ≠ [])
    (h1 : grid.emptyCells = 1) :
    Forest dims grid.parent (heap.set g { grid with emptyCells := 0 }) := by
  set grid' : Grid := { grid with emptyCells := 0 } with hgrid'
  have hget := getElem?_set_of_some hg grid'
  have hw := hF.node hg
  have hcount := hF.count hg hcs
  rw [if_pos rfl] at hcount
  have hd : grid.done = false := not_done_of_emptyCells (by omega)
  have hd' : grid'.done = true := done_iff.2 ⟨cs, hcs, hne, rfl⟩
  have ho : ∀ s, s ≠ g → ((heap.set g grid')[s]?).any done = (heap[s]?).any done := by
    intro s hs
    rw [hget, if_neg hs]
  have hleaf : ∀ {sub : Grid} {cs'}, sub.cells = some cs' → g ∉ sub.subgrids →
      openCells (heap.set g grid') cs' = openCells heap cs' := by
    intro sub cs' hcs' hn
    refine openCells_congr fun c hc s hs => ho s fun e => hn ?_
    exact mem_subgrids.2 ⟨cs', hcs', c, hc, e ▸ hs⟩
  refine hF.set hg rfl rfl ?_ ?_
  · exact ⟨hw.axes, fun _ => rfl, hw.length, hw.exclusive, hw.nodup, hw.pos⟩
  · intro h sub cs' hh hcs'
    rw [hget] at hh
    split_ifs at hh with he
    · subst he
      obtain rfl := Option.some.inj hh
      obtain rfl : cs = cs' := Option.some.inj (hcs.symm.trans hcs')
      have hself : h ∉ grid.subgrids := fun hm => absurd (hF.child hg hm).1 (lt_irrefl h)
      have hpar : grid.parent ≠ some h := fun hp => by
        obtain ⟨par, hpar, hm⟩ := hF.parent hg hp
        exact absurd (hF.child hpar hm).1 (lt_irrefl h)
      rw [hleaf hcs hself, if_neg hpar]
      simp only [hgrid']
      omega
    · by_cases hm : g ∈ sub.subgrids
      · obtain ⟨kid, hkid, hp⟩ := (hF.child hh hm).2
        obtain rfl : grid = kid := Option.some.inj (hg.symm.trans hkid)
        have hx := hF.node hh
        have hm' := hm
        have hnd := hx.nodup
        simp only [subgrids, hcs', Option.getD_some] at hm' hnd
        have hdg : (heap[g]?).any done = false := by simpa [hg] using hd
        have hdg' : ((heap.set g grid')[g]?).any done = true := by simpa [hget] using hd'
        have := openCells_of_done hdg hdg' ho (hx.exclusive cs' hcs') hnd hm'
        rw [hF.count hh hcs', if_pos hp, if_neg (by simpa using Ne.symm he), this]
        push_cast
        omega
      · have hp : grid.parent ≠ some h := fun hp => by
          obtain ⟨par, hpar, hm'⟩ := hF.parent hg hp
          obtain rfl : sub = par := Option.some.inj (hh.symm.trans hpar)
          exact hm hm'
        rw [hleaf hcs' hm, hF.count hh hcs', if_neg hp, if_neg (by simpa using Ne.symm he)]

theorem getElem?_push (heap : List Grid) (new : Grid) (h : ℕ) :
    (heap ++ [new])[h]? = if h = heap.length then some new else heap[h]? := by
  by_cases he : h = heap.length
  · simp [he]
  · rw [if_neg he]
    rcases lt_or_ge h heap.length with hlt | hge
    · rw [List.getElem?_append_left hlt]
    · rw [List.getElem?_eq_none (by simp; omega), List.getElem?_eq_none hge]

theorem Forest.subgrid_lt (hF : Forest dims owed heap) (hg : heap[g]? = some grid) {h : ℕ}
    (hm : h ∈ grid.subgrids) : h < heap.length := by
  obtain ⟨-, sub, hs, -⟩ := hF.child hg hm
  exact (List.getElem?_eq_some_iff.1 hs).1

/-- The counters do not see a grid that no cell refers to. -/
theorem Forest.openCells_push (hF : Forest dims owed heap) (hg : heap[g]? = some grid)
    {cs : List GridEntry} (hcs : grid.cells = some cs) {heap' : List Grid}
    (hd : ∀ h < heap.length, (heap'[h]?).any done = (heap[h]?).any done) :
    openCells heap' cs = openCells heap cs :=
  openCells_congr fun c hc s hs =>
    hd s (hF.subgrid_lt hg (mem_subgrids.2 ⟨cs, hcs, c, hc, hs⟩))

/-- A new grid at the top level. -/
theorem Forest.push (hF : Forest dims none heap) {new : Grid} (hn : NodeWf dims new)
    (hp : new.parent = none) (hcells : new.cells = none) : Forest dims none (heap ++ [new]) := by
  have hget := getElem?_push heap new
  have hdone : ∀ h < heap.length, ((heap ++ [new])[h]?).any done = (heap[h]?).any done := by
    intro h hlt
    rw [List.getElem?_append_left hlt]
  have hold : ∀ {h : ℕ} {sub : Grid}, heap[h]? = some sub → (heap ++ [new])[h]? = some sub := by
    intro h sub hs
    rw [List.getElem?_append_left (List.getElem?_eq_some_iff.1 hs).1, hs]
  refine ⟨?_, ?_, ?_, ?_⟩
  · intro h sub hh
    rw [hget] at hh
    split_ifs at hh
    · exact Option.some.inj hh ▸ hn
    · exact hF.node hh
  · intro h sub k hh hk
    rw [hget] at hh
    split_ifs at hh
    · obtain rfl := Option.some.inj hh
      simp [subgrids, hcells] at hk
    · obtain ⟨hlt, kid, hkid, hpar⟩ := hF.child hh hk
      exact ⟨hlt, kid, hold hkid, hpar⟩
  · intro h sub k hh hk
    rw [hget] at hh
    split_ifs at hh
    · obtain rfl := Option.some.inj hh
      simp [hp] at hk
    · obtain ⟨par, hpar, hm⟩ := hF.parent hh hk
      exact ⟨par, hold hpar, hm⟩
  · intro h sub cs hh hcs
    rw [hget] at hh
    split_ifs at hh
    · obtain rfl := Option.some.inj hh
      simp [hcells] at hcs
    · rw [hF.openCells_push hh hcs hdone]
      exact hF.count hh hcs

section Child

variable {cs : List GridEntry} {i : ℕ} {c : GridEntry}

/-- A subgrid in a cell without one is added to the subgrids. -/
theorem filterMap_set_perm (hc : cs[i]? = some c) (hsub : c.subgrid = none) (h : ℕ) :
    ((cs.set i { c with subgrid := some h }).filterMap GridEntry.subgrid).Perm
      (h :: cs.filterMap GridEntry.subgrid) := by
  obtain ⟨hi, hci⟩ := List.getElem?_eq_some_iff.1 hc
  have hsplit : cs = cs.take i ++ c :: cs.drop (i + 1) := by
    rw [← hci, List.cons_getElem_drop_succ, List.take_append_drop]
  have hold : cs.filterMap GridEntry.subgrid = (cs.take i).filterMap GridEntry.subgrid
      ++ (cs.drop (i + 1)).filterMap GridEntry.subgrid := by
    conv_lhs => rw [hsplit]
    rw [List.filterMap_append, List.filterMap_cons_none hsub]
  rw [hold, List.set_eq_take_append_cons_drop, if_pos hi, List.filterMap_append,
    List.filterMap_cons_some (f := GridEntry.subgrid) (a := { c with subgrid := some h }) rfl]
  exact List.perm_middle

/-- A cell with a subgrid that is not done is as open as an empty one. -/
theorem openCells_set (hc : cs[i]? = some c) (hsub : c.subgrid = none) (hfrag : c.fragment = none)
    {h : ℕ} (hd : (heap[h]?).any done = false) :
    openCells heap (cs.set i { c with subgrid := some h }) = openCells heap cs := by
  obtain ⟨hi, hci⟩ := List.getElem?_eq_some_iff.1 hc
  have hp : 0 < openCells heap cs :=
    List.countP_pos_iff.2 ⟨c, List.mem_of_getElem? hc, by simp [cellDone, hsub, hfrag]⟩
  unfold openCells at hp ⊢
  rw [List.countP_set hi, hci]
  simp only [cellDone, hsub, hfrag, hd, Option.isSome_none, Option.bind_none, Option.bind_some,
    Option.any_none, Bool.or_false, Bool.not_false, if_true] at hp ⊢
  omega

theorem NodeWf.setSubgrid (hw : NodeWf dims grid) (hcs : grid.cells = some cs)
    (hc : cs[i]? = some c) (hsub : c.subgrid = none) (hfrag : c.fragment = none) {h : ℕ}
    (hfresh : h ∉ grid.subgrids) :
    NodeWf dims { grid with cells := some (cs.set i { c with subgrid := some h }) } := by
  refine ⟨hw.axes, by simp, ?_, ?_, ?_, hw.pos⟩
  · rintro cs' ⟨⟩
    rw [List.length_set]
    exact hw.length cs hcs
  · rintro cs' ⟨⟩ d hd
    rcases List.mem_or_eq_of_mem_set hd with hd | rfl
    · exact hw.exclusive cs hcs d hd
    · exact .inr hfrag
  · have hnd := hw.nodup
    simp only [subgrids, hcs, Option.getD_some] at hnd hfresh ⊢
    exact (filterMap_set_perm hc hsub h).nodup_iff.2 (List.nodup_cons.2 ⟨hfresh, hnd⟩)

/-- A new grid in an empty cell of another. -/
theorem Forest.pushChild (hF : Forest dims none heap) (hg : heap[g]? = some grid)
    (hcs : grid.cells = some cs) (hc : cs[i]? = some c) (hsub : c.subgrid = none)
    (hfrag : c.fragment = none) {new : Grid} (hn : NodeWf dims new) (hp : new.parent = some g)
    (hcells : new.cells = none) :
    Forest dims none ((heap ++ [new]).set g { grid with
      cells := some (cs.set i { c with subgrid := some heap.length }) }) := by
  set grid' : Grid :=
    { grid with cells := some (cs.set i { c with subgrid := some heap.length }) } with hgrid'
  have hlt := (List.getElem?_eq_some_iff.1 hg).1
  have hget : ∀ h : ℕ, ((heap ++ [new]).set g grid')[h]?
      = if h = g then some grid' else if h = heap.length then some new else heap[h]? := by
    intro h
    have hg' : (heap ++ [new])[g]? = some grid := by rw [List.getElem?_append_left hlt, hg]
    rw [getElem?_set_of_some hg', getElem?_push]
  have hne : grid.emptyCells ≠ 0 := (hF.emptyCells_pos hg hcs hc hsub hfrag).ne'
  have hdone : ∀ h < heap.length,
      (((heap ++ [new]).set g grid')[h]?).any done = (heap[h]?).any done := by
    intro h hh
    rw [hget]
    split_ifs with h1 h2
    · rw [h1, hg]
      exact done_eq_of_emptyCells hne hne
    · omega
    · rfl
  have hsubs : ∀ h, h ∈ grid'.subgrids ↔ h = heap.length ∨ h ∈ grid.subgrids := by
    intro h
    simp only [subgrids, hgrid', hcs, Option.getD_some]
    rw [(filterMap_set_perm hc hsub heap.length).mem_iff, List.mem_cons]
  have hfresh : heap.length ∉ grid.subgrids := fun hm => by
    have := hF.subgrid_lt hg hm
    omega
  refine ⟨?_, ?_, ?_, ?_⟩
  · intro h sub hh
    rw [hget] at hh
    split_ifs at hh
    · exact Option.some.inj hh ▸ (hF.node hg).setSubgrid hcs hc hsub hfrag hfresh
    · exact Option.some.inj hh ▸ hn
    · exact hF.node hh
  · intro h sub k hh hk
    have hcases : (h = g ∧ k = heap.length) ∨ ∃ sub', heap[h]? = some sub' ∧ k ∈ sub'.subgrids := by
      rw [hget] at hh
      split_ifs at hh with h1 h2
      · obtain rfl := Option.some.inj hh
        rcases (hsubs k).1 hk with hk | hk
        · exact .inl ⟨h1, hk⟩
        · exact .inr ⟨grid, h1 ▸ hg, hk⟩
      · obtain rfl := Option.some.inj hh
        simp [subgrids, hcells] at hk
      · exact .inr ⟨sub, hh, hk⟩
    rcases hcases with ⟨rfl, rfl⟩ | ⟨sub', hh', hk'⟩
    · refine ⟨hlt, new, ?_, hp⟩
      rw [hget, if_neg (by omega), if_pos rfl]
    · obtain ⟨hlt', kid, hkid, hpar⟩ := hF.child hh' hk'
      have hklt := (List.getElem?_eq_some_iff.1 hkid).1
      refine ⟨hlt', ?_⟩
      rw [hget]
      split_ifs with h1 h2
      · subst h1
        obtain rfl : grid = kid := Option.some.inj (hg.symm.trans hkid)
        exact ⟨grid', rfl, hpar⟩
      · omega
      · exact ⟨kid, hkid, hpar⟩
  · intro h sub k hh hk
    have hcases : (h = heap.length ∧ k = g)
        ∨ ∃ sub', heap[h]? = some sub' ∧ sub'.parent = some k := by
      rw [hget] at hh
      split_ifs at hh with h1 h2
      · obtain rfl := Option.some.inj hh
        exact .inr ⟨grid, h1 ▸ hg, hk⟩
      · obtain rfl := Option.some.inj hh
        exact .inl ⟨h2, (Option.some.inj (hp.symm.trans hk)).symm⟩
      · exact .inr ⟨sub, hh, hk⟩
    rcases hcases with ⟨rfl, rfl⟩ | ⟨sub', hh', hk'⟩
    · exact ⟨grid', by rw [hget, if_pos rfl], (hsubs _).2 (.inl rfl)⟩
    · obtain ⟨par, hpar, hm⟩ := hF.parent hh' hk'
      have hklt := (List.getElem?_eq_some_iff.1 hpar).1
      rw [hget]
      split_ifs with h1 h2
      · subst h1
        obtain rfl : grid = par := Option.some.inj (hg.symm.trans hpar)
        exact ⟨grid', rfl, (hsubs h).2 (.inr hm)⟩
      · omega
      · exact ⟨par, hpar, hm⟩
  · intro h sub cs' hh hcs'
    rw [hget] at hh
    split_ifs at hh with h1 h2
    · subst h1
      obtain rfl := Option.some.inj hh
      obtain rfl := Option.some.inj hcs'
      rw [openCells_set hc hsub hfrag, hF.openCells_push hg hcs hdone]
      · exact @hF.count h grid cs hg hcs
      · rw [hget, if_neg (by omega), if_pos rfl]
        simp [done, hcells]
    · obtain rfl := Option.some.inj hh
      simp [hcells] at hcs'
    · rw [hF.openCells_push hh hcs' hdone]
      exact hF.count hh hcs'

end Child

end Steps

section Done

variable {heap : List Grid} {dims g : ℕ} {grid : Grid}

theorem Forest.cellDone_of_done (hF : Forest dims none heap) (hg : heap[g]? = some grid)
    (hd : grid.done = true) : ∃ cs, grid.cells = some cs ∧ cs ≠ []
      ∧ ∀ c ∈ cs, cellDone heap c = true := by
  obtain ⟨cs, hcs, hne, h0⟩ := done_iff.1 hd
  have hcount := hF.count hg hcs
  rw [h0, if_neg (by simp)] at hcount
  have hall : openCells heap cs = 0 := by omega
  exact ⟨cs, hcs, hne, by simpa [openCells, List.countP_eq_zero] using hall⟩

/-- A cell that is done has either a fragment or a subgrid that is done. -/
theorem Forest.cellDone_cases (hF : Forest dims none heap) (hg : heap[g]? = some grid)
    {cs : List GridEntry} (hcs : grid.cells = some cs) {c : GridEntry} (hc : c ∈ cs)
    (hd : cellDone heap c = true) : (∃ r, c.fragment = some r)
      ∨ (c.fragment = none ∧ ∃ h sub, c.subgrid = some h ∧ g < h ∧ heap[h]? = some sub
        ∧ sub.done = true) := by
  rcases hf : c.fragment with _ | r
  · rcases hs : c.subgrid with _ | h
    · simp [cellDone, hf, hs] at hd
    · obtain ⟨hlt, sub, hsub, -⟩ := hF.child hg (mem_subgrids.2 ⟨cs, hcs, c, hc, hs⟩)
      exact .inr ⟨rfl, h, sub, rfl, hlt, hsub, by simpa [cellDone, hf, hs, hsub] using hd⟩
  · exact .inl ⟨r, rfl⟩

end Done

end Grid

end Esdm
