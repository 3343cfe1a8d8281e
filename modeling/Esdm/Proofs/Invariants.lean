import Esdm.Proofs.Steps

/-!
# The invariants of a run

Whatever is called, the fragment table, the shapes in it and the accounting of the grids stay as
they should be (`run_inv`).
-/

namespace Esdm

variable {V : Type}

theorem Fragment.leave_keeps (f : Fragment V) : f.Keeps f.leave := by
  unfold Fragment.leave
  split
  · exact ⟨rfl, rfl, rfl, rfl, rfl, fun h => h, fun _ h => h, fun _ h => h⟩
  · exact .refl f

namespace Dataset

variable {ds ds' : Dataset V} {P : Dataspace → Prop} {S : Axis → Axis → Prop}

/-- What holds in every state. -/
structure Inv (ds : Dataset V) : Prop where
  table : TableWf ds
  shapes : HypercubeSet.Wf ds.dims ds.shapes
  grids : GridInv none ds

theorem init_inv (dataspace : Dataspace) (fillValue : Option V) : Inv (init dataspace fillValue) :=
  ⟨init_tableWf .., by simp [HypercubeSet.Wf, Dataset.shapes, init], init_gridInv ..⟩

section Io

theorem TableWf.setFragment (hw : TableWf ds) {r : ℕ} {f f' : Fragment V}
    (hf : ds.fragment r = .ok f) (hk : f.Keeps f') : TableWf (ds.setFragment r f') := by
  obtain ⟨hf, hfr⟩ := fragment_eq_ok.1 hf
  refine ⟨hw.nodup, fun e he => ?_⟩
  obtain ⟨f₁, hf₁, hfr₁, hs₁⟩ := hw.live e he
  by_cases her : e.2 = r
  · subst her
    obtain rfl : f = f₁ := Option.some.inj (hf.symm.trans hf₁)
    refine ⟨f', ?_, hk.freed.trans hfr, hk.shape.trans hs₁⟩
    rw [Dataset.setFragment, List.getElem?_set_self (List.getElem?_eq_some_iff.1 hf).1]
  · refine ⟨f₁, ?_, hfr₁, hs₁⟩
    rw [Dataset.setFragment, List.getElem?_set_ne (Ne.symm her), hf₁]

theorem TableWf.created (hw : TableWf ds) {space : Dataspace} (hs : space.getExtends ∉ ds.shapes)
    (buf : Option (Buf V)) : TableWf (ds.created space buf) :=
  have hw' : TableWf (ds.updateActualSize space) := hw.congr rfl rfl
  (hw'.addFragment (f := newFragment space buf) hs rfl).congr rfl rfl

theorem created_shapes (ds : Dataset V) (space : Dataspace) (buf : Option (Buf V)) :
    (ds.created space buf).shapes = ds.shapes ++ [space.getExtends] :=
  @addFragment_shapes V (ds.updateActualSize space) (newFragment space buf)

/-- The space of a fragment is not empty. -/
theorem size_pos_of_fragmentChecks : ∀ {dim sdim : List Dim}, dim.length = sdim.length →
    fragmentChecks dim sdim = .ok () → ∀ d ∈ sdim, 0 < d.size
  | [], [], _, _ => by simp
  | d :: dim, s :: sdim, hl, h => by
    obtain ⟨_, hs, h⟩ := Outcome.bind_eq_ok.1 h
    obtain ⟨_, -, h⟩ := Outcome.bind_eq_ok.1 h
    have hs := eassert_eq_ok.1 hs
    have ih := size_pos_of_fragmentChecks (by simpa using hl) h
    simpa using ⟨hs, ih⟩

theorem GridInv.congr (hI : GridInv none ds) (h : SameGrids ds ds') : GridInv none ds' := by
  obtain ⟨hF, hL⟩ := hI
  refine ⟨?_, ⟨?_, ?_, ?_, ?_, ?_⟩⟩
  · rw [dims, h.dataspace, h.gridHeap]
    exact hF
  · rw [h.gridHeap, h.grids]
    exact hL.top
  · rw [h.gridHeap, h.grids]
    exact hL.valid
  · rw [h.grids]
    exact hL.nodup
  · rw [h.grids, h.gridCount, h.incompleteGridCount]
    exact hL.length
  · rw [h.gridHeap, h.grids, h.gridCount]
    exact hL.complete

theorem IoStep.inv (hP : ∀ sub, P sub → sub.dims = ds.dims) (h : IoStep P ds ds') (hI : Inv ds) :
    Inv ds' := by
  have hgrids := hI.grids.congr h.sameGrids
  cases h with
  | update hf hk => exact ⟨hI.table.setFragment hf hk, hI.shapes, hgrids⟩
  | @create space buf hp hs hc =>
    refine ⟨hI.table.created hs buf, ?_, hgrids⟩
    rw [created_shapes]
    intro s hmem
    rcases List.mem_append.1 hmem with hmem | hmem
    · exact hI.shapes s hmem
    · obtain rfl := List.mem_singleton.1 hmem
      have hd : space.dims = ds.dims := hP space hp
      exact ⟨(Dataspace.getExtends_length space).trans hd,
        Dataspace.getExtends_not_isEmpty (size_pos_of_fragmentChecks hd.symm hc)⟩

end Io

section Grids

theorem fresh_nodeWf {dims : ℕ} (parent : Option ℕ) {dim : List Dim} (hd : dims = dim.length)
    (hpos : 0 < dims) : Grid.NodeWf dims (Grid.fresh parent dim) :=
  ⟨by simp [Grid.fresh, hd], fun _ => rfl, by simp [Grid.fresh], by simp [Grid.fresh],
    by simp [Grid.subgrids, Grid.fresh], hpos⟩

theorem GridStep.gridInv (h : GridStep P S ds ds') (hI : GridInv none ds) : GridInv none ds' := by
  obtain ⟨hF, hL⟩ := hI
  cases h with
  | create hd hpos => exact ⟨hF.push (fresh_nodeWf none hd (hd ▸ hpos)) rfl rfl, hL.pushTop rfl rfl⟩
  | @subgrid g grid cs index i dim hg hcs hi hl hc hs hd =>
    refine ⟨hF.pushChild hg hcs hc rfl rfl (fresh_nodeWf (some g) hd (hF.node hg).pos) rfl rfl, ?_⟩
    have hg' : (ds.gridHeap ++ [Grid.fresh (some g) dim])[g]? = some grid := by
      rw [List.getElem?_append_left (List.getElem?_eq_some_iff.1 hg).1, hg]
    have hne := (hF.emptyCells_pos hg hcs hc rfl rfl).ne'
    have hL' : Listed { ds with gridHeap := ds.gridHeap ++ [Grid.fresh (some g) dim] } :=
      hL.push (by simp [Grid.fresh])
    exact hL'.set hg' rfl fun _ => Grid.done_eq_of_emptyCells hne hne
  | axis hg hcs ha hS =>
    exact ⟨hF.setAxes hg hcs (List.length_set ..), hL.set hg rfl fun _ => rfl⟩
  | allocate hg h =>
    refine ⟨hF.ensureGrid hg h, hL.set hg ?_ fun _ => Grid.done_ensureGrid h⟩
    obtain ⟨-, rfl⟩ | ⟨-, -, rfl⟩ := Grid.ensureGrid_eq_ok h <;> rfl
  | id hg => exact ⟨hF.setId hg _, hL.set hg rfl fun _ => rfl⟩
  | @fill ds' g grid cs index i space r _ hg hcs hf hi hd hc hr h =>
    obtain ⟨ds₁, heq, hI₁, -⟩ := fillCell_spec ⟨hF, hL⟩ hg hcs hc r
    obtain rfl : ds₁ = ds' := Except.ok.inj (heq.symm.trans h)
    exact hI₁

/-- The steps of grids leave all else alone. -/
structure SameTable (ds ds' : Dataset V) : Prop where
  dataspace : ds'.dataspace = ds.dataspace
  fillValue : ds'.fillValue = ds.fillValue
  actualSize : ds'.actualSize = ds.actualSize
  status : ds'.status = ds.status
  fragments : ds'.fragments = ds.fragments
  table : ds'.table = ds.table

theorem SameTable.trans {ds₁ ds₂ ds₃ : Dataset V} (h : SameTable ds₁ ds₂) (h' : SameTable ds₂ ds₃) :
    SameTable ds₁ ds₃ :=
  ⟨h'.dataspace.trans h.dataspace, h'.fillValue.trans h.fillValue, h'.actualSize.trans h.actualSize,
    h'.status.trans h.status, h'.fragments.trans h.fragments, h'.table.trans h.table⟩

theorem setGrid_sameTable (ds : Dataset V) (g : ℕ) (grid : Grid) :
    SameTable ds (ds.setGrid g grid) :=
  ⟨rfl, rfl, rfl, rfl, rfl, rfl⟩

theorem registerGridCompletion_sameTable {g : ℕ} (h : ds.registerGridCompletion g = .ok ds') :
    SameTable ds ds' := by
  unfold registerGridCompletion at h
  obtain ⟨_, -, h⟩ := Outcome.bind_eq_ok.1 h
  obtain ⟨_, -, h⟩ := Outcome.bind_eq_ok.1 h
  obtain ⟨first, -, h⟩ := Outcome.bind_eq_ok.1 h
  obtain rfl := Except.ok.inj h
  exact ⟨rfl, rfl, rfl, rfl, rfl, rfl⟩

theorem registerCompletedCell_sameTable : ∀ {fuel : ℕ} {ds : Dataset V} {g : ℕ},
    registerCompletedCell fuel ds g = .ok ds' → SameTable ds ds'
  | 0, _, _, h => by cases h
  | fuel + 1, ds, g, h => by
    rw [registerCompletedCell] at h
    obtain ⟨grid, -, h⟩ := Outcome.bind_eq_ok.1 h
    obtain ⟨_, -, h⟩ := Outcome.bind_eq_ok.1 h
    refine (setGrid_sameTable ds g { grid with emptyCells := grid.emptyCells - 1 }).trans ?_
    dsimp only at h
    split_ifs at h
    · split at h
      · exact registerCompletedCell_sameTable h
      · exact registerGridCompletion_sameTable h
    · obtain rfl := Except.ok.inj h
      exact ⟨rfl, rfl, rfl, rfl, rfl, rfl⟩

theorem fillCell_sameTable {g r : ℕ} {i : ℤ} (h : ds.fillCell g i r = .ok ds') :
    SameTable ds ds' := by
  obtain ⟨ds₁, hset, h⟩ := Outcome.bind_eq_ok.1 h
  obtain ⟨grid, -, hset⟩ := Outcome.bind_eq_ok.1 hset
  obtain ⟨cell, -, hset⟩ := Outcome.bind_eq_ok.1 hset
  obtain rfl := Except.ok.inj hset
  exact (setGrid_sameTable ..).trans (registerCompletedCell_sameTable h)

theorem GridStep.sameTable (h : GridStep P S ds ds') : SameTable ds ds' := by
  cases h with
  | create | subgrid | axis | allocate | id => exact ⟨rfl, rfl, rfl, rfl, rfl, rfl⟩
  | fill _ _ _ _ _ _ _ _ h => exact fillCell_sameTable h

theorem GridSteps.sameTable (h : GridSteps P S ds ds') : SameTable ds ds' := by
  induction h with
  | refl => exact ⟨rfl, rfl, rfl, rfl, rfl, rfl⟩
  | tail _ hs ih => exact ih.trans hs.sameTable

end Grids

section Leave

theorem leave_getElem? (r : ℕ) : ds.leave.fragments[r]? = (ds.fragments[r]?).map Fragment.leave :=
  List.getElem?_map ..

theorem TableWf.leave (hw : TableWf ds) : TableWf ds.leave := by
  refine ⟨hw.nodup, fun e he => ?_⟩
  obtain ⟨f, hf, hfr, hs⟩ := hw.live e he
  have hk := Fragment.leave_keeps f
  exact ⟨f.leave, by rw [leave_getElem?, hf]; rfl, hk.freed.trans hfr, hk.shape.trans hs⟩

end Leave

theorem Step.dataspace (h : Step P S ds ds') : ds'.dataspace = ds.dataspace := by
  cases h with
  | io h => exact h.sameGrids.dataspace
  | grid h => exact h.sameTable.dataspace
  | fillValue | leave => rfl

theorem Step.dims (h : Step P S ds ds') : ds'.dims = ds.dims := congrArg Dataspace.dims h.dataspace

theorem Step.inv (hP : ∀ sub, P sub → sub.dims = ds.dims) (h : Step P S ds ds') (hI : Inv ds) :
    Inv ds' := by
  cases h with
  | io h => exact h.inv hP hI
  | grid h =>
    have hsame := h.sameTable
    refine ⟨hI.table.congr hsame.table hsame.fragments, ?_, h.gridInv hI.grids⟩
    rw [Dataset.dims, hsame.dataspace, Dataset.shapes, hsame.table]
    exact hI.shapes
  | fillValue v =>
    exact ⟨hI.table.congr rfl rfl, hI.shapes, hI.grids.congr ⟨rfl, rfl, rfl, rfl, rfl⟩⟩
  | leave =>
    exact ⟨hI.table.leave, hI.shapes, hI.grids.congr ⟨rfl, rfl, rfl, rfl, rfl⟩⟩

/-- The rule for what a sequence of steps preserves, given the invariants. -/
theorem Steps.induct {C : Dataset V → Prop} (hP : ∀ sub, P sub → sub.dims = ds.dims)
    (h : Steps P S ds ds') (hI : Inv ds) (h₀ : C ds)
    (hstep : ∀ {ds₁ ds₂ : Dataset V}, Inv ds₁ → ds₁.dims = ds.dims → Step P S ds₁ ds₂ → C ds₁ →
      C ds₂) : Inv ds' ∧ ds'.dims = ds.dims ∧ C ds' := by
  induction h with
  | refl => exact ⟨hI, rfl, h₀⟩
  | tail _ hs ih =>
    obtain ⟨hI', hd, hC⟩ := ih
    exact ⟨hs.inv (hd ▸ hP) hI', hs.dims.trans hd, hstep hI' hd hs hC⟩

theorem Steps.inv (hP : ∀ sub, P sub → sub.dims = ds.dims) (h : Steps P S ds ds') (hI : Inv ds) :
    Inv ds' ∧ ds'.dims = ds.dims := by
  obtain ⟨hI', hd, -⟩ := h.induct (C := fun _ => True) hP hI trivial fun _ _ _ _ => trivial
  exact ⟨hI', hd⟩

end Dataset

theorem Op.Writes.dims {n : ℕ} {op : Op V} {sub : Dataspace} (h : op.Writes n sub) :
    sub.dims = n := by
  cases op with
  | write | read | writeGrid | readGrid => exact h.2
  | _ => exact h.elim

namespace Dataset

variable {ds ds' : Dataset V}

theorem step_inv {c : Call V} {result : Result V} (hI : Inv ds) (h : ds.step c = .ok result) :
    Inv result.dataset ∧ result.dataset.dims = ds.dims :=
  (step_steps h).inv (fun _ => Op.Writes.dims) hI

theorem run_inv {calls : List (Call V)} (hI : Inv ds) (h : ds.run calls = .ok ds') : Inv ds' :=
  run_induction (fun _ hI h => (step_inv hI h).1) hI h

end Dataset

end Esdm
