import Esdm.Proofs.Faults

/-!
# Grid completeness

In every run whose subdivisions have positive arguments the counters say what they should: a grid's
`emptyCells` counts the cells with neither a fragment nor a complete subgrid, and the dataset's list
starts with the top-level grids all of whose leaf cells hold a fragment (`run_gridAccounting`).
-/

namespace Esdm

variable {V : Type}

namespace Grid

/-- The cells are allocated, and the counter is zero. -/
def Complete (grid : Grid) : Prop := grid.cells ≠ none ∧ grid.emptyCells = 0

instance (grid : Grid) : Decidable grid.Complete := inferInstanceAs (Decidable (_ ∧ _))

/-- How many cells hold neither a fragment nor a complete subgrid. -/
def emptyCellCount (heap : List Grid) (cs : List GridEntry) : ℕ :=
  cs.countP fun c => c.fragment = none ∧ ∀ sub ∈ c.subgrid.bind fun h => heap[h]?, ¬ sub.Complete

/-- A grid and one of its subgrids. -/
def Subgrid (heap : List Grid) (g h : ℕ) : Prop := ∃ grid, heap[g]? = some grid ∧ h ∈ grid.subgrids

/-- Something holds of a grid and of all grids nested in it. -/
def Nested (Q : Grid → Prop) (heap : List Grid) (g : ℕ) : Prop :=
  ∀ h grid, Relation.ReflTransGen (Subgrid heap) g h → heap[h]? = some grid → Q grid

/-- All leaf cells of the grid and the grids nested in it hold a fragment.  The cells of a grid that
has not been allocated are empty. -/
def LeavesFilled (heap : List Grid) (g : ℕ) : Prop :=
  Nested (fun grid => ∃ cs, grid.cells = some cs ∧ ∀ c ∈ cs, c.subgrid = none → c.fragment ≠ none)
    heap g

variable {heap : List Grid} {dims g : ℕ} {grid : Grid} {Q : Grid → Prop}

theorem nested_iff (hg : heap[g]? = some grid) :
    Nested Q heap g ↔ Q grid ∧ ∀ k ∈ grid.subgrids, Nested Q heap k := by
  constructor
  · intro h
    exact ⟨h g grid .refl hg, fun k hk j sub hj => h j sub (.head ⟨grid, hg, hk⟩ hj)⟩
  · rintro ⟨hQ, hsub⟩ j sub hj hjs
    rcases Relation.ReflTransGen.cases_head hj with rfl | ⟨k, ⟨grid', hg', hk⟩, hkj⟩
    · exact Option.some.inj (hg.symm.trans hjs) ▸ hQ
    · obtain rfl : grid = grid' := Option.some.inj (hg.symm.trans hg')
      exact hsub k hk j sub hkj hjs

theorem nested_of_forall (h : ∀ grid ∈ heap, Q grid) : Nested Q heap g :=
  fun _ grid _ hg => h grid (List.mem_of_getElem? hg)

theorem cellDone_iff {c : GridEntry} : cellDone heap c = true ↔
    c.fragment ≠ none ∨ ∃ h sub, c.subgrid = some h ∧ heap[h]? = some sub ∧ sub.done = true := by
  unfold cellDone
  rw [Bool.or_eq_true, Option.isSome_iff_ne_none]
  refine or_congr .rfl ?_
  rcases c.subgrid with _ | h
  · simp
  · rcases hh : heap[h]? with _ | sub <;> simp [hh]

theorem openCells_eq_zero {cs : List GridEntry} :
    openCells heap cs = 0 ↔ ∀ c ∈ cs, cellDone heap c = true := by
  simp [openCells, List.countP_eq_zero]

/-- Every axis of every grid has an interval. -/
def AxesPos (heap : List Grid) : Prop :=
  ∀ (g : ℕ) (grid : Grid), heap[g]? = some grid → ∀ a ∈ grid.axes, 1 ≤ a.intervals

theorem AxesPos.set (hp : AxesPos heap) (hg : heap[g]? = some grid) {grid' : Grid}
    (ha : ∀ a ∈ grid'.axes, 1 ≤ a.intervals) : AxesPos (heap.set g grid') := by
  intro h sub hh
  rw [getElem?_set_of_some hg] at hh
  split_ifs at hh
  · exact Option.some.inj hh ▸ ha
  · exact hp h sub hh

theorem AxesPos.push (hp : AxesPos heap) {new : Grid} (ha : ∀ a ∈ new.axes, 1 ≤ a.intervals) :
    AxesPos (heap ++ [new]) := by
  intro h sub hh
  rw [getElem?_push] at hh
  split_ifs at hh
  · exact Option.some.inj hh ▸ ha
  · exact hp h sub hh

theorem fresh_axes_pos (parent : Option ℕ) (dim : List Dim) :
    ∀ a ∈ (fresh parent dim).axes, 1 ≤ a.intervals := by
  intro a ha
  obtain ⟨d, -, rfl⟩ := List.mem_map.1 ha
  exact le_rfl

theorem cellCount_pos (h : ∀ a ∈ grid.axes, 1 ≤ a.intervals) : 0 < grid.cellCount := by
  unfold cellCount
  generalize grid.axes = axes at h
  induction axes with
  | nil => simp
  | cons a axes ih =>
    rw [List.map_cons, List.prod_cons]
    have := h a (by simp)
    exact Int.mul_pos (by omega) (ih fun b hb => h b (by simp [hb]))

/-- The cells of a grid with positive axes are not empty. -/
theorem NodeWf.cells_ne_nil (hw : NodeWf dims grid) (hp : ∀ a ∈ grid.axes, 1 ≤ a.intervals)
    {cs : List GridEntry} (hcs : grid.cells = some cs) : cs ≠ [] := by
  rintro rfl
  have hlen := hw.length [] hcs
  have hpos := cellCount_pos hp
  rw [List.length_nil] at hlen
  omega

/-- The grids nested in a grid that is done are done. -/
theorem Forest.nested_done (hF : Forest dims none heap) : ∀ (n g : ℕ) {grid : Grid},
    heap.length - g ≤ n → heap[g]? = some grid → grid.done = true →
    Nested (fun sub => sub.done = true) heap g
  | 0, g, grid, hn, hg, _ => by
    have := (List.getElem?_eq_some_iff.1 hg).1
    omega
  | n + 1, g, grid, hn, hg, hd => by
    obtain ⟨cs, hcs, -, hall⟩ := hF.cellDone_of_done hg hd
    refine (nested_iff hg).2 ⟨hd, fun k hk => ?_⟩
    obtain ⟨cs', hcs', c, hc, hck⟩ := mem_subgrids.1 hk
    obtain rfl : cs = cs' := Option.some.inj (hcs.symm.trans hcs')
    obtain ⟨r, hr⟩ | ⟨-, h, sub, hs, hlt, hsub, hdsub⟩ := hF.cellDone_cases hg hcs hc (hall c hc)
    · have := (hF.node hg).exclusive cs hcs c hc
      simp [hck, hr] at this
    · obtain rfl : k = h := Option.some.inj (hck.symm.trans hs)
      exact hF.nested_done n k (by omega) hsub hdsub

/-- The leaf cells of a grid that is done are filled. -/
theorem Forest.leavesFilled_of_done (hF : Forest dims none heap) (hg : heap[g]? = some grid)
    (hd : grid.done = true) : LeavesFilled heap g := by
  intro h sub hreach hsub
  obtain ⟨cs, hcs, -, hall⟩ := hF.cellDone_of_done hsub
    (hF.nested_done heap.length g (Nat.sub_le _ g) hg hd h sub hreach hsub)
  refine ⟨cs, hcs, fun c hc hleaf => ?_⟩
  obtain ⟨r, hr⟩ | ⟨-, h, sub, hs, -⟩ := hF.cellDone_cases hsub hcs hc (hall c hc)
  · simp [hr]
  · simp [hleaf] at hs

/-- The counters find out which grids are filled. -/
theorem Forest.done_iff_leavesFilled (hF : Forest dims none heap) :
    ∀ (n g : ℕ) {grid : Grid}, heap.length - g ≤ n → heap[g]? = some grid →
      Nested (fun sub => ∀ a ∈ sub.axes, 1 ≤ a.intervals) heap g →
      (grid.done = true ↔ LeavesFilled heap g)
  | 0, g, grid, hn, hg, _ => by
    have := (List.getElem?_eq_some_iff.1 hg).1
    omega
  | n + 1, g, grid, hn, hg, hp => by
    obtain ⟨hpos, hps⟩ := (nested_iff hg).1 hp
    refine ⟨hF.leavesFilled_of_done hg, fun hfill => ?_⟩
    obtain ⟨⟨cs, hcs, hleaf⟩, hsub⟩ := (nested_iff hg).1 hfill
    refine done_iff.2 ⟨cs, hcs, (hF.node hg).cells_ne_nil hpos hcs, ?_⟩
    have h0 : openCells heap cs = 0 := openCells_eq_zero.2 fun c hc => cellDone_iff.2 ?_
    · rw [hF.count hg hcs, h0]
      simp
    · rcases hs : c.subgrid with _ | k
      · exact .inl (hleaf c hc hs)
      · have hk : k ∈ grid.subgrids := mem_subgrids.2 ⟨cs, hcs, c, hc, hs⟩
        obtain ⟨hlt, sub, hsub', -⟩ := hF.child hg hk
        exact .inr ⟨k, sub, rfl, hsub',
          (hF.done_iff_leavesFilled n k (by omega) hsub' (hps k hk)).2 (hsub k hk)⟩

/-- Where a grid has cells at all, being done is being complete. -/
theorem done_iff_complete (h : grid.cells ≠ some []) : grid.done = true ↔ grid.Complete := by
  rw [done_iff, Complete]
  constructor
  · rintro ⟨cs, hcs, -, h0⟩
    exact ⟨by simp [hcs], h0⟩
  · rintro ⟨hcs, h0⟩
    obtain ⟨cs, hcs⟩ := Option.ne_none_iff_exists'.1 hcs
    exact ⟨cs, hcs, fun hnil => h (hnil ▸ hcs), h0⟩

theorem NodeWf.done_iff_complete (hw : NodeWf dims grid) (hp : ∀ a ∈ grid.axes, 1 ≤ a.intervals) :
    grid.done = true ↔ grid.Complete :=
  Grid.done_iff_complete fun h => hw.cells_ne_nil hp h rfl

theorem openCells_eq_emptyCellCount {cs : List GridEntry}
    (h : ∀ c ∈ cs, ∀ k sub, c.subgrid = some k → heap[k]? = some sub → sub.cells ≠ some []) :
    openCells heap cs = emptyCellCount heap cs := by
  refine List.countP_congr fun c hc => ?_
  rw [Bool.not_eq_true', Bool.eq_false_iff, ne_eq, cellDone_iff, not_or, decide_eq_true_iff,
    not_not]
  refine and_congr .rfl ⟨fun hno sub hsub hcomplete => ?_, ?_⟩
  · obtain ⟨k, hk, hsub⟩ := Option.bind_eq_some_iff.1 hsub
    exact hno ⟨k, sub, hk, hsub, (done_iff_complete (h c hc k sub hk hsub)).2 hcomplete⟩
  · rintro hno ⟨k, sub, hk, hsub, hd⟩
    exact hno sub (by simp [hk, hsub]) ((done_iff_complete (h c hc k sub hk hsub)).1 hd)

end Grid

/-- The arguments of a subdivision are positive. -/
def Op.Positive : Op V → Prop
  | .gridSubdivideFixed _ _ size _ => 0 < size
  | .gridSubdivideFlexible _ _ count => 0 < count
  | _ => True

theorem Op.Subdivides.intervals_pos {op : Op V} (hp : op.Positive) {axis axis' : Axis}
    (h : op.Subdivides axis axis') (ha : 1 ≤ axis.intervals) : 1 ≤ axis'.intervals := by
  cases op with
  | gridSubdivideFixed g dim size allowIncomplete =>
    obtain ⟨status, h⟩ := h
    have hp : 0 < size := hp
    unfold Axis.subdivideFixed at h
    dsimp only at h
    by_cases hlt : axis.outerStop - axis.outerStart < size
    · rw [if_pos hlt] at h
      obtain ⟨-, rfl⟩ := Prod.mk.inj (Except.ok.inj h)
      exact ha
    have hq : 1 ≤ (axis.outerStop - axis.outerStart + size - 1).tdiv size := by
      rw [Int.tdiv_eq_ediv_of_nonneg (by omega)]
      exact Int.le_ediv_of_mul_le hp (by omega)
    rw [if_neg hlt, if_neg (by omega)] at h
    by_cases hrem : ¬ allowIncomplete = true ∧ (axis.outerStop - axis.outerStart).tmod size ≠ 0
    · rw [if_pos hrem] at h
      obtain ⟨-, rfl⟩ := Prod.mk.inj (Except.ok.inj h)
      exact ha
    rw [if_neg hrem, if_neg (by omega)] at h
    by_cases h1 : (axis.outerStop - axis.outerStart + size - 1).tdiv size = 1
    · rw [if_pos h1] at h
      obtain ⟨-, rfl⟩ := Prod.mk.inj (Except.ok.inj h)
      exact le_rfl
    · rw [if_neg h1] at h
      obtain ⟨-, rfl⟩ := Prod.mk.inj (Except.ok.inj h)
      exact hq
  | gridSubdivideFlexible g dim count =>
    obtain ⟨status, h⟩ := h
    have hp : 0 < count := hp
    unfold Axis.subdivideFlexible at h
    dsimp only at h
    split_ifs at h
    · obtain ⟨-, rfl⟩ := Prod.mk.inj (Except.ok.inj h)
      exact ha
    · obtain ⟨-, rfl⟩ := Prod.mk.inj (Except.ok.inj h)
      exact hp
  | gridSubdivide g dim bounds =>
    obtain ⟨status, h⟩ := h
    unfold Axis.subdivide at h
    obtain ⟨_, hb, h⟩ := Outcome.bind_eq_ok.1 h
    have hb := eassert_eq_ok.1 hb
    split_ifs at h
    all_goals obtain ⟨-, rfl⟩ := Prod.mk.inj (Except.ok.inj h)
    · exact ha
    · exact ha
    · exact ha
    · dsimp only
      omega
  | _ => exact h.elim

namespace Dataset

variable {ds ds' : Dataset V} {P : Dataspace → Prop} {S : Axis → Axis → Prop}

theorem Recounted.axesPos (h : Recounted ds ds') (hp : Grid.AxesPos ds.gridHeap) :
    Grid.AxesPos ds'.gridHeap := by
  obtain ⟨_, _, _, _, rfl, hu⟩ := h
  intro g grid' hg
  obtain ⟨grid, hg', haxes, -⟩ := Grid.getElem?_of_uncounted hu hg
  rw [haxes]
  exact hp g grid hg'

theorem GridStep.axesPos (hS : ∀ a a', S a a' → 1 ≤ a.intervals → 1 ≤ a'.intervals)
    (h : GridStep P S ds ds') (hI : GridInv none ds) (hp : Grid.AxesPos ds.gridHeap) :
    Grid.AxesPos ds'.gridHeap := by
  cases h with
  | create hd => exact hp.push (Grid.fresh_axes_pos _ _)
  | @subgrid g grid cs index i dim hg hcs hi hl hc hs hd =>
    have hg' : (ds.gridHeap ++ [Grid.fresh (some g) dim])[g]? = some grid := by
      rw [List.getElem?_append_left (List.getElem?_eq_some_iff.1 hg).1, hg]
    exact (hp.push (Grid.fresh_axes_pos _ _)).set hg' (hp g grid hg)
  | @axis g grid i axis axis' hg hcs ha hS' =>
    refine hp.set hg fun a hmem => ?_
    rcases List.mem_or_eq_of_mem_set hmem with hmem | rfl
    · exact hp g grid hg a hmem
    · exact hS axis a hS' (hp g grid hg axis (List.mem_of_getElem? ha))
  | allocate hg h => exact hp.set hg ((ensureGrid_axes h).1 ▸ hp _ _ hg)
  | @id g grid id hg => exact hp.set hg (hp g grid hg)
  | @fill ds' g grid cs index i space r _ hg hcs hf hi hd hc hr h =>
    obtain ⟨ds₁, heq, -, hrec⟩ := fillCell_spec hI hg hcs hc r
    obtain rfl : ds₁ = ds' := Except.ok.inj (heq.symm.trans h)
    exact hrec.axesPos (hp.set hg (hp g grid hg))

theorem step_axesPos {c : Call V} {result : Result V} (hc : c.op.Positive) (hI : Inv ds)
    (hp : Grid.AxesPos ds.gridHeap) (h : ds.step c = .ok result) :
    Grid.AxesPos result.dataset.gridHeap := by
  have hsteps := step_steps h
  generalize result.dataset = ds' at hsteps
  suffices hboth : Inv ds' ∧ ds'.dims = ds.dims ∧ Grid.AxesPos ds'.gridHeap from hboth.2.2
  induction hsteps with
  | refl => exact ⟨hI, rfl, hp⟩
  | tail _ hs ih =>
    obtain ⟨hI', hd, hp'⟩ := ih
    refine ⟨hs.inv (fun sub hw => hd ▸ Op.Writes.dims hw) hI', hs.dims.trans hd, ?_⟩
    cases hs with
    | io h => rwa [h.sameGrids.gridHeap]
    | grid h => exact h.axesPos (fun _ _ h => h.intervals_pos hc) hI'.grids hp'
    | fillValue | leave => exact hp'

/-- A top-level grid of the dataset. -/
def TopLevel (ds : Dataset V) (g : ℕ) : Prop :=
  ∃ grid, ds.gridHeap[g]? = some grid ∧ grid.parent = none

/-- The counters of the grids and the dataset's list of them say what they should. -/
structure GridAccounting (ds : Dataset V) : Prop where
  emptyCells : ∀ {g : ℕ} {grid : Grid} {cs : List GridEntry}, ds.gridHeap[g]? = some grid →
    grid.cells = some cs → grid.emptyCells = Grid.emptyCellCount ds.gridHeap cs
  exclusive : ∀ {g : ℕ} {grid : Grid} {cs : List GridEntry}, ds.gridHeap[g]? = some grid →
    grid.cells = some cs → ∀ c ∈ cs, ¬ (c.subgrid ≠ none ∧ c.fragment ≠ none)
  complete : ∀ g, g ∈ ds.grids.take ds.gridCount
    ↔ TopLevel ds g ∧ Grid.LeavesFilled ds.gridHeap g
  incomplete : ∀ g, g ∈ (ds.grids.drop ds.gridCount).take ds.incompleteGridCount
    ↔ TopLevel ds g ∧ ¬ Grid.LeavesFilled ds.gridHeap g
  nodup : ds.grids.Nodup
  length : ds.grids.length = ds.gridCount + ds.incompleteGridCount

theorem Inv.gridAccounting (hI : Inv ds) (hp : Grid.AxesPos ds.gridHeap) : GridAccounting ds := by
  obtain ⟨hF, hL⟩ := hI.grids
  have htop : ∀ g, g ∈ ds.grids ↔ TopLevel ds g := by
    intro g
    constructor
    · intro hm
      have hg := List.getElem?_eq_getElem (hL.valid g hm)
      exact ⟨_, hg, (hL.top hg).2 hm⟩
    · rintro ⟨grid, hg, hpar⟩
      exact (hL.top hg).1 hpar
  have hcomplete : ∀ g, g ∈ ds.grids.take ds.gridCount
      ↔ TopLevel ds g ∧ Grid.LeavesFilled ds.gridHeap g := by
    intro g
    constructor
    · intro hm
      have hm' := List.mem_of_mem_take hm
      obtain ⟨grid, hg, hpar⟩ := (htop g).1 hm'
      exact ⟨⟨grid, hg, hpar⟩,
        (hF.done_iff_leavesFilled _ g le_rfl hg fun h sub _ => hp h sub).1
        ((hL.complete hg hm').1 hm)⟩
    · rintro ⟨⟨grid, hg, hpar⟩, hfill⟩
      exact (hL.complete hg ((hL.top hg).1 hpar)).2
        ((hF.done_iff_leavesFilled _ g le_rfl hg fun h sub _ => hp h sub).2 hfill)
  refine ⟨fun {g grid cs} hg hcs => ?_, fun {g grid cs} hg hcs c hc hboth => ?_, hcomplete,
    fun g => ?_, hL.nodup, hL.length⟩
  · rw [hF.count hg hcs, Grid.openCells_eq_emptyCellCount fun c _ k sub _ hsub hnil =>
      (hF.node hsub).cells_ne_nil (hp k sub hsub) hnil rfl]
    simp
  · exact ((hF.node hg).exclusive cs hcs c hc).elim hboth.1 hboth.2
  · rw [List.take_of_length_le (by rw [List.length_drop, hL.length]; omega)]
    have hnd := hL.nodup
    rw [← List.take_append_drop ds.gridCount ds.grids, List.nodup_append] at hnd
    have hmem : g ∈ ds.grids ↔ g ∈ ds.grids.take ds.gridCount ∨ g ∈ ds.grids.drop ds.gridCount := by
      rw [← List.mem_append, List.take_append_drop]
    constructor
    · intro hd
      have htop' := (htop g).1 (hmem.2 (.inr hd))
      exact ⟨htop', fun hfill => hnd.2.2 g ((hcomplete g).2 ⟨htop', hfill⟩) g hd rfl⟩
    · rintro ⟨htop', hn⟩
      exact (hmem.1 ((htop g).2 htop')).resolve_left fun ht => hn ((hcomplete g).1 ht).2

/-- A line of two elements. -/
def pairSpace : Dataspace := ⟨.basic .int64, [⟨0, 2⟩], none, by simp⟩

/-- One of the elements. -/
def pairElement (i : ℤ) : Memspace := ⟨⟨.basic .int64, [⟨i, 1⟩], none, by simp⟩, by simp⟩

/-- A grid of two cells over the line, the first with a subgrid, both of which get filled. -/
def pairGridCalls : List (Call ℕ) :=
  [.gridCreate [⟨0, 2⟩], .gridSubdivideFixed 0 0 1 false, .gridCreateSubgrid 0 [0],
    .writeGrid 0 (pairElement 1) fun _ => 7, .readGrid 0 (pairElement 0) fun _ => 0,
    .writeGrid 1 (pairElement 0) fun _ => 8].map fun op => ⟨Env.calm 0, op⟩

/-- The grids of the sample run: one with two cells, and one in the first of them. -/
def pairGrids (top sub : ℤ) (r : Option ℕ) : List Grid :=
  [⟨none, none, top, some [⟨some 1, none⟩, ⟨none, some 0⟩], [⟨2, 0, 2, [0, 1, 2]⟩]⟩,
    ⟨some 0, none, sub, some [⟨none, r⟩], [⟨1, 0, 1, [0, 1]⟩]⟩]

end Dataset

end Esdm
