import Esdm.Proofs.Buffers

/-!
# What happens to a dataset that is not marked as dirty

The calls that move data mark a dataset as dirty when they create a fragment.  Without that they
may still complete a grid, by a fragment that exists (`Completing`), and make a fragment contiguous
that they load (`Unpacks`).  All that the dataset's description is made of stays as it is otherwise.
-/

namespace Esdm

variable {V : Type}

namespace Fragment

variable {f f' : Fragment V} {env : Env V} {user user' : Mem V} {ret : Status}

theorem leave_stride (f : Fragment V) : f.leave.dataspace.stride = f.dataspace.stride := by
  unfold leave
  split <;> rfl

theorem setView_dataspace (f : Fragment V) (user data : Mem V) :
    (f.setView user data).1.dataspace = f.dataspace := by
  unfold setView
  split <;> rfl

theorem unpack_dataspace {stored : Mem V} (h : f.unpack env user stored = .ok (f', user')) :
    f'.dataspace = f.dataspace := by
  unfold unpack at h
  obtain ⟨data, -, h⟩ := Outcome.bind_eq_ok.1 h
  split_ifs at h
  · have := setView_dataspace f user (memcpy (fun v => v) data 0 stored 0 f.elements)
    rwa [Except.ok.inj h] at this
  · split at h
    · cases h
    · obtain ⟨⟨status, data'⟩, -, h⟩ := Outcome.bind_eq_ok.1 h
      have := setView_dataspace f user data'
      rwa [Except.ok.inj h] at this

/-- A fragment that gets memory of its own becomes contiguous. -/
theorem allocate_dataspace (h : f.allocate env = .ok f') :
    f'.dataspace = f.dataspace ∨ (f.buf = none ∧ f.dataspace.stride ≠ none) := by
  unfold allocate at h
  split at h
  · obtain rfl := Except.ok.inj h
    exact .inl rfl
  · rename_i hbuf
    split at h
    · cases h
    · rename_i space hs
      obtain rfl := Except.ok.inj h
      split_ifs at hs with hstride
      · exact .inl (Except.ok.inj hs).symm
      · exact .inr ⟨hbuf, hstride⟩

theorem retrieve_dataspace (h : f.retrieve env user = .ok (ret, f', user')) :
    f'.dataspace = f.dataspace
      ∨ (f.status = .notLoaded ∧ f.buf = none ∧ f.dataspace.stride ≠ none) := by
  unfold retrieve at h
  split at h
  · obtain ⟨-, rfl, -⟩ := Prod.mk.inj (Except.ok.inj h)
    exact .inl rfl
  · obtain ⟨-, rfl, -⟩ := Prod.mk.inj (Except.ok.inj h)
    exact .inl rfl
  · obtain ⟨-, rfl, -⟩ := Prod.mk.inj (Except.ok.inj h)
    exact .inl rfl
  · rename_i hst
    split at h
    · obtain ⟨-, rfl, -⟩ := Prod.mk.inj (Except.ok.inj h)
      exact .inl rfl
    · rename_i f₁ ha
      have hf₁ := (allocate_dataspace ha).imp_right fun hbuf => And.intro hst hbuf
      split at h
      · split_ifs at h
        · obtain ⟨-, rfl, -⟩ := Prod.mk.inj (Except.ok.inj h)
          exact hf₁
        · obtain ⟨⟨f₂, user₂⟩, hu, h⟩ := Outcome.bind_eq_ok.1 h
          obtain ⟨-, rfl, -⟩ := Prod.mk.inj (Except.ok.inj h)
          exact hf₁.imp_left (unpack_dataspace hu).trans
      · obtain ⟨-, rfl, -⟩ := Prod.mk.inj (Except.ok.inj h)
        exact hf₁
      · obtain ⟨-, rfl, -⟩ := Prod.mk.inj (Except.ok.inj h)
        exact hf₁

theorem load_dataspace (h : f.load env user = .ok (ret, f', user')) :
    f'.dataspace = f.dataspace
      ∨ (f.status = .notLoaded ∧ f.buf = none ∧ f.dataspace.stride ≠ none) := by
  unfold load at h
  split_ifs at h
  · obtain ⟨-, rfl, -⟩ := Prod.mk.inj (Except.ok.inj h)
    exact .inl rfl
  · exact retrieve_dataspace h

theorem unload_dataspace (h : f.unload env user = .ok (ret, f')) :
    f'.dataspace = f.dataspace := by
  unfold unload at h
  split at h
  · obtain ⟨-, rfl⟩ := Prod.mk.inj (Except.ok.inj h)
    rfl
  · obtain ⟨-, rfl⟩ := Prod.mk.inj (Except.ok.inj h)
    rfl
  · obtain ⟨-, rfl⟩ := Prod.mk.inj (Except.ok.inj h)
    rfl
  · obtain ⟨⟨status, f₁⟩, hc, h⟩ := Outcome.bind_eq_ok.1 h
    obtain ⟨-, -, -, hspace, -⟩ := commit_eq_ok hc
    split at h
    · rename_i heq
      obtain ⟨-, rfl⟩ := Prod.mk.inj heq
      obtain ⟨-, rfl⟩ := Prod.mk.inj (Except.ok.inj h)
      exact hspace
    · rename_i heq
      obtain ⟨-, rfl⟩ := Prod.mk.inj heq
      obtain ⟨-, rfl⟩ := Prod.mk.inj (Except.ok.inj h)
      exact hspace

end Fragment

namespace Dataset

variable {ds ds' : Dataset V} {env : Env V} {g r : ℕ} {grid : Grid} {space : Dataspace}

section Moves

/-- What a call does that does not mark the dataset as dirty: the table keeps its entries, the
fragments keep what they have got, and the grids that are done stay as they are. -/
structure Moves (ds ds' : Dataset V) : Prop where
  dataspace : ds'.dataspace = ds.dataspace
  fillValue : ds'.fillValue = ds.fillValue
  status : ds'.status = ds.status
  table : ds'.table = ds.table
  fragment : ∀ r f, ds.fragment r = .ok f → ∃ f', ds'.fragment r = .ok f' ∧ f.Keeps f'
  length : ds'.gridHeap.length = ds.gridHeap.length
  heap : ∀ (k : ℕ) (grid : Grid), ds.gridHeap[k]? = some grid → grid.done = true →
    ds'.gridHeap[k]? = some grid
  grids : (ds'.grids = ds.grids ∧ ds'.gridCount = ds.gridCount) ∨ ds.gridCount < ds'.gridCount

namespace Moves

theorem refl (ds : Dataset V) : Moves ds ds :=
  ⟨rfl, rfl, rfl, rfl, fun _ f hf => ⟨f, hf, .refl f⟩, rfl, fun _ _ hg _ => hg, .inl ⟨rfl, rfl⟩⟩

theorem trans {ds₁ ds₂ ds₃ : Dataset V} (h : Moves ds₁ ds₂) (h' : Moves ds₂ ds₃) :
    Moves ds₁ ds₃ where
  dataspace := h'.dataspace.trans h.dataspace
  fillValue := h'.fillValue.trans h.fillValue
  status := h'.status.trans h.status
  table := h'.table.trans h.table
  fragment r f hf := by
    obtain ⟨f₂, hf₂, hk⟩ := h.fragment r f hf
    obtain ⟨f₃, hf₃, hk'⟩ := h'.fragment r f₂ hf₂
    exact ⟨f₃, hf₃, hk.trans hk'⟩
  length := h'.length.trans h.length
  heap k grid hg hd := h'.heap k grid (h.heap k grid hg hd) hd
  grids := by
    rcases h.grids with ⟨hgrids, hcount⟩ | hlt
    · rw [← hgrids, ← hcount]
      exact h'.grids
    · rcases h'.grids with ⟨-, hcount⟩ | hlt'
      · exact .inr (hcount ▸ hlt)
      · exact .inr (hlt.trans hlt')

/-- A grid that is not done changes. -/
theorem setGrid (hg : ds.gridHeap[g]? = some grid) (hd : grid.done = false) (grid' : Grid) :
    Moves ds (ds.setGrid g grid') := by
  refine ⟨rfl, rfl, rfl, rfl, fun _ f hf => ⟨f, hf, .refl f⟩, ?_, fun k sub hk hdone => ?_,
    .inl ⟨rfl, rfl⟩⟩
  · simp [Dataset.setGrid]
  · have hne : g ≠ k := by
      rintro rfl
      obtain rfl := Option.some.inj (hg.symm.trans hk)
      simp [hd] at hdone
    rw [Dataset.setGrid, List.getElem?_set_ne hne, hk]

theorem setFragment {f f' : Fragment V} (hf : ds.fragment r = .ok f) (hk : f.Keeps f') :
    Moves ds (ds.setFragment r f') := by
  refine ⟨rfl, rfl, rfl, rfl, fun q fq hq => ?_, rfl, fun _ _ hg _ => hg, .inl ⟨rfl, rfl⟩⟩
  by_cases hqr : r = q
  · subst hqr
    obtain rfl := Except.ok.inj (hf.symm.trans hq)
    exact ⟨f', fragment_setFragment_self hf hk.freed, hk⟩
  · exact ⟨fq, (fragment_setFragment_of_ne hqr f').trans hq, .refl fq⟩

theorem leave (ds : Dataset V) : Moves ds ds.leave := by
  refine ⟨rfl, rfl, rfl, rfl, fun r f hf => ?_, rfl, fun _ _ hg _ => hg, .inl ⟨rfl, rfl⟩⟩
  obtain ⟨hget, hlive⟩ := fragment_eq_ok.1 hf
  refine ⟨f.leave, fragment_eq_ok.2 ⟨?_, f.leave_keeps.freed.trans hlive⟩, f.leave_keeps⟩
  rw [leave_getElem?, hget, Option.map_some]

end Moves

theorem registerGridCompletion_moves (h : ds.registerGridCompletion g = .ok ds') :
    Moves ds ds' := by
  unfold registerGridCompletion at h
  obtain ⟨_, -, h⟩ := Outcome.bind_eq_ok.1 h
  obtain ⟨_, -, h⟩ := Outcome.bind_eq_ok.1 h
  obtain ⟨first, -, h⟩ := Outcome.bind_eq_ok.1 h
  obtain rfl := Except.ok.inj h
  exact ⟨rfl, rfl, rfl, rfl, fun _ f hf => ⟨f, hf, .refl f⟩, rfl, fun _ _ hg _ => hg,
    .inr (Nat.lt_succ_self _)⟩

/-- Only grids that have empty cells are counted down. -/
theorem registerCompletedCell_moves : ∀ {fuel : ℕ} {ds : Dataset V} {g : ℕ},
    registerCompletedCell fuel ds g = .ok ds' → Moves ds ds'
  | 0, _, _, h => by cases h
  | fuel + 1, ds, g, h => by
    rw [registerCompletedCell] at h
    obtain ⟨grid, hg, h⟩ := Outcome.bind_eq_ok.1 h
    obtain ⟨_, hpos, h⟩ := Outcome.bind_eq_ok.1 h
    rw [eassert_eq_ok] at hpos
    have hset := Moves.setGrid (grid_eq_ok.1 hg) (Grid.not_done_of_emptyCells (by omega))
      { grid with emptyCells := grid.emptyCells - 1 }
    dsimp only at h
    split at h
    · split at h
      · exact hset.trans (registerCompletedCell_moves h)
      · exact hset.trans (registerGridCompletion_moves h)
    · obtain rfl := Except.ok.inj h
      exact hset

theorem Fits.fillCell_moves {i : ℕ} {cs : List GridEntry} {index : List ℤ}
    (hF : Fits ds space g i grid cs ⟨none, none⟩ index) (hI : GridInv none ds)
    (h : ds.fillCell g i r = .ok ds') : Moves ds ds' := by
  have hpos := hI.forest.emptyCells_pos hF.heap hF.cells hF.cell rfl rfl
  obtain ⟨ds₁, hset, h⟩ := Outcome.bind_eq_ok.1 h
  obtain ⟨grid', hg', hset⟩ := Outcome.bind_eq_ok.1 hset
  obtain ⟨cell, -, hset⟩ := Outcome.bind_eq_ok.1 hset
  obtain rfl := Except.ok.inj hset
  obtain rfl := Option.some.inj (hF.heap.symm.trans (grid_eq_ok.1 hg'))
  exact (Moves.setGrid hF.heap (Grid.not_done_of_emptyCells hpos.ne') _).trans
    (registerCompletedCell_moves h)

theorem Allocates.moves (h : Relation.ReflTransGen Allocates ds ds') : Moves ds ds' := by
  induction h with
  | refl => exact .refl ds
  | tail _ hs ih =>
    obtain ⟨g, grid, grid', hg, hensure, rfl⟩ := hs
    refine ih.trans ?_
    rcases Grid.ensureGrid_eq_ok hensure with ⟨-, rfl⟩ | ⟨hcells, -, -⟩
    · rw [setGrid_self hg]
      exact .refl _
    · refine .setGrid hg ?_ grid'
      simp [Grid.done, hcells]

end Moves

section Changes

/-- What the calls do to a dataset: they mark it as dirty, or only move data about. -/
def Changes (ds ds' : Dataset V) : Prop := Moves ds ds' ∨ ds'.status = .dirty

theorem Changes.trans {ds₁ ds₂ ds₃ : Dataset V} (h : Changes ds₁ ds₂) (h' : Changes ds₂ ds₃) :
    Changes ds₁ ds₃ := by
  rcases h' with h' | h'
  · rcases h with h | h
    · exact .inl (h.trans h')
    · exact .inr (h'.status.trans h)
  · exact .inr h'

theorem IoSteps.changes {P : Dataspace → Prop} (h : IoSteps P ds ds') : Changes ds ds' := by
  induction h with
  | refl => exact .inl (.refl ds)
  | tail _ hs ih =>
    cases hs with
    | update hf hk => exact ih.trans (.inl (.setFragment hf hk))
    | create _ _ _ => exact .inr rfl

theorem Changes.dirty (h : Changes ds ds') (hd : ds.status = .dirty) : ds'.status = .dirty :=
  h.elim (fun hm => hm.status.trans hd) fun hd' => hd'

/-- A fragment is created and written. -/
theorem created_dirty {ds₁ : Dataset V} {buf : Option (Buf V)} {user : Mem V} {k q : ℕ} {i : ℤ}
    {status : Status} (hfill : (ds.created space buf).fillCell k i q = .ok ds₁)
    (hw : ds₁.writeFragmentBlocking env r user = .ok (status, ds')) : ds'.status = .dirty := by
  have hstep : IoStep (fun _ => False) ds₁ ds' := writeFragmentNonblocking_steps hw
  exact (IoSteps.changes (.single hstep)).dirty (fillCell_sameTable hfill).status

end Changes

section Strides

variable {user user' : Mem V} {status status' : Status} {f f' : Fragment V}

/-- The fragment is loaded into memory of its own, where it is contiguous. -/
def Unpacks (f : Fragment V) (space : Dataspace) : Prop :=
  f.status = .notLoaded ∧ f.buf = none ∧ f.dataspace.stride ≠ none ∧ ¬ Direct f space

/-- The fragments have the strides that they had, except for those that are unpacked. -/
def Restrides (space : Dataspace) (R : ℕ → Prop) (ds ds' : Dataset V) : Prop :=
  ∀ q f f', ds.fragment q = .ok f → ds'.fragment q = .ok f' →
    f'.dataspace.stride = f.dataspace.stride ∨ (R q ∧ Unpacks f space)

theorem readFragment_stride (h : readFragment env f user space = .ok (status, f', user')) :
    f'.dataspace.stride = f.dataspace.stride ∨ Unpacks f space := by
  obtain ⟨direct, f₁, f₂, user₂, hd, hl, hrest⟩ := readFragment_eq_ok h
  have hf' : f'.dataspace = f₂.dataspace := by
    rcases hrest with ⟨-, -, _, hu⟩ | ⟨-, rfl⟩
    · exact Fragment.unload_dataspace hu
    · rfl
  rw [hf']
  rcases tryDirectIo_eq_ok hd with ⟨rfl, rfl⟩ | ⟨-, -, -, i, -, -, -, -, rfl⟩
  · have hnot : ¬ Direct f₁ space := by
      rintro ⟨f₃, hd'⟩
      exact absurd (Prod.mk.inj (Except.ok.inj (hd.symm.trans hd'))).1 Bool.false_ne_true
    rcases Fragment.load_dataspace hl with heq | ⟨hst, hbuf, hstride⟩
    · exact .inl (congrArg _ heq)
    · exact .inr ⟨hst, hbuf, hstride, hnot⟩
  · rcases Fragment.load_dataspace hl with heq | ⟨-, hbuf, -⟩
    · exact .inl (congrArg Dataspace.stride heq)
    · exact absurd hbuf nofun

theorem enqueueRead_restrides {fragments : List ℕ} (hn : fragments.Nodup)
    (h : enqueueRead env space fragments status user ds = .ok (status', user', ds')) :
    Restrides space (· ∈ fragments) ds ds' := by
  induction fragments generalizing status user ds with
  | nil =>
    obtain ⟨-, -, rfl⟩ := Prod.mk.inj (Except.ok.inj h)
    intro q f f' hf hf'
    obtain rfl := Except.ok.inj (hf.symm.trans hf')
    exact .inl rfl
  | cons r fragments ih =>
    obtain ⟨hnot, hn⟩ := List.nodup_cons.1 hn
    obtain ⟨f₀, hf₀, h⟩ := Outcome.bind_eq_ok.1 h
    obtain ⟨⟨ret, f₁, user₁⟩, hread, h⟩ := Outcome.bind_eq_ok.1 h
    have hrest := ih hn h
    intro q f f' hf hf'
    by_cases hqr : r = q
    · subst hqr
      obtain rfl := Except.ok.inj (hf₀.symm.trans hf)
      have hf₁ := fragment_setFragment_self hf (readFragment_keeps hread).freed
      rcases readFragment_stride hread with hstride | hunpacks
      · rcases hrest r f₁ f' hf₁ hf' with hstride' | ⟨hr, -⟩
        · exact .inl (hstride'.trans hstride)
        · exact absurd hr hnot
      · exact .inr ⟨List.mem_cons_self, hunpacks⟩
    · rw [← fragment_setFragment_of_ne hqr f₁] at hf
      exact (hrest q f f' hf hf').imp_right fun hq => ⟨List.mem_cons_of_mem r hq.1, hq.2⟩

theorem readBlocking_restrides (hI : Inv ds) (hG : Grid.Geometry ds.table ds.gridHeap)
    (hs : ∀ d ∈ space.dim, 0 < d.size) (hd : space.dims = ds.dims)
    (h : ds.readBlocking env user space false = .ok (status, user', ds')) :
    Restrides space (Reading env ds space) ds ds' := by
  obtain ⟨c, hc, hcov⟩ := fragmentsCoveringRegion_spec env hI hG
    ((Dataspace.getExtends_length space).trans hd) (Dataspace.getExtends_not_isEmpty hs)
  unfold readBlocking at h
  rw [hc, Outcome.ok_bind] at h
  obtain ⟨⟨ret, user₁⟩, hfill, h⟩ := Outcome.bind_eq_ok.1 h
  have hfill := fillHoles_eq_ok hfill
  split at h
  · rename_i heq
    obtain ⟨rfl, rfl⟩ := Prod.mk.inj heq
    obtain ⟨⟨ret₁, user₂, ds₁⟩, he, h⟩ := Outcome.bind_eq_ok.1 h
    obtain ⟨bytes, -, h⟩ := Outcome.bind_eq_ok.1 h
    rw [if_neg (by simp)] at h
    obtain ⟨-, -, rfl⟩ := Prod.mk.inj (Except.ok.inj h)
    intro q f f' hf hf'
    exact (enqueueRead_restrides hcov.nodup he q f f' hf hf').imp_right fun hq =>
      ⟨⟨c, hc, hfill.1 rfl, hq.1⟩, hq.2⟩
  · obtain ⟨-, -, rfl⟩ := Prod.mk.inj (Except.ok.inj h)
    intro q f f' hf hf'
    obtain rfl := Except.ok.inj (hf.symm.trans hf')
    exact .inl rfl

theorem Restrides.congr {R R' : ℕ → Prop} {ds₁ : Dataset V} (h : Restrides space R ds₁ ds')
    (hf : ds₁.fragments = ds.fragments) (hR : ∀ q, R q → R' q) : Restrides space R' ds ds' := by
  intro q f f' hq hq'
  have hq₁ : ds₁.fragment q = .ok f := by rwa [fragment, hf, ← fragment]
  exact (h q f f' hq₁ hq').imp_right fun hr => ⟨hR q hr.1, hr.2⟩

end Strides

section Completes

/-- One more cell of the grid, and the whole of the grid that it is a part of is complete. -/
inductive Completes (heap : List Grid) : ℕ → Prop
  | root {g : ℕ} {grid : Grid} (hg : heap[g]? = some grid) (he : grid.emptyCells = 1)
    (hp : grid.parent = none) : Completes heap g
  | sub {g p : ℕ} {grid : Grid} (hg : heap[g]? = some grid) (he : grid.emptyCells = 1)
    (hp : grid.parent = some p) (h : Completes heap p) : Completes heap g

/-- The space fits an empty cell that is the last one of a grid, and there is a fragment for it. -/
def Completing (ds : Dataset V) (g : ℕ) (space : Dataspace) : Prop :=
  space.getExtends ∈ ds.shapes ∧ ∃ ds₁ k i grid,
    findCellInHierarchy space ds.gridHeap.length g ds = .ok (ds₁, some (k, i))
      ∧ ds₁.gridHeap[k]? = some grid ∧ grid.cell i = .ok ⟨none, none⟩ ∧ Completes ds₁.gridHeap k

theorem Completes.mono {heap heap' : List Grid} (hh : ∀ (k : ℕ) (sub : Grid),
    heap'[k]? = some sub → sub.emptyCells = 1 → ∃ sub₀, heap[k]? = some sub₀
      ∧ sub₀.emptyCells = 1 ∧ sub₀.parent = sub.parent)
    (h : Completes heap' g) : Completes heap g := by
  induction h with
  | root hg he hp =>
    obtain ⟨sub, hsub, he', hp'⟩ := hh _ _ hg he
    exact .root hsub he' (hp'.trans hp)
  | sub hg he hp _ ih =>
    obtain ⟨sub, hsub, he', hp'⟩ := hh _ _ hg he
    exact .sub hsub he' (hp'.trans hp) ih

theorem registerCompletedCell_gridCount : ∀ {fuel : ℕ} {ds : Dataset V} {g : ℕ},
    registerCompletedCell fuel ds g = .ok ds' →
    ds'.gridCount = ds.gridCount ∨ Completes ds.gridHeap g
  | 0, _, _, h => by cases h
  | fuel + 1, ds, g, h => by
    rw [registerCompletedCell] at h
    obtain ⟨grid, hg, h⟩ := Outcome.bind_eq_ok.1 h
    obtain ⟨_, -, h⟩ := Outcome.bind_eq_ok.1 h
    have hg := grid_eq_ok.1 hg
    dsimp only at h
    split at h
    · rename_i hone
      split at h
      · rename_i p hp
        rcases registerCompletedCell_gridCount h with hcount | hcompletes
        · exact .inl hcount
        · -- the grid itself has no empty cell any more, so it is not met again
          refine .inr (.sub hg hone hp (hcompletes.mono fun k sub hk he => ⟨sub, ?_, he, rfl⟩))
          have hne : g ≠ k := by
            rintro rfl
            rw [setGrid_getElem?_self hg] at hk
            obtain rfl := Option.some.inj hk
            simp [hone] at he
          rwa [setGrid, List.getElem?_set_ne hne] at hk
      · rename_i hp
        exact .inr (.root hg hone hp)
    · obtain rfl := Except.ok.inj h
      exact .inl rfl

theorem fillCell_gridCount {i : ℤ} (h : ds.fillCell g i r = .ok ds') :
    ds'.gridCount = ds.gridCount ∨ Completes ds.gridHeap g := by
  obtain ⟨ds₁, hset, h⟩ := Outcome.bind_eq_ok.1 h
  obtain ⟨grid, hg, hset⟩ := Outcome.bind_eq_ok.1 hset
  obtain ⟨cell, -, hset⟩ := Outcome.bind_eq_ok.1 hset
  obtain rfl := Except.ok.inj hset
  have hg := grid_eq_ok.1 hg
  refine (registerCompletedCell_gridCount h).imp_right fun hc => hc.mono fun k sub hk he => ?_
  by_cases hkg : g = k
  · subst hkg
    rw [setGrid_getElem?_self hg] at hk
    obtain rfl := Option.some.inj hk
    exact ⟨grid, hg, he, rfl⟩
  · rw [setGrid, List.getElem?_set_ne hkg] at hk
    exact ⟨sub, hk, he, rfl⟩

theorem Fits.completing {ds₁ : Dataset V} {k i : ℕ} {cs : List GridEntry} {index : List ℤ}
    (hF : Fits ds₁ space k i grid cs ⟨none, none⟩ index)
    (hfind : findCellInHierarchy space ds.gridHeap.length g ds = .ok (ds₁, some (k, (i : ℤ))))
    (hshapes : ds₁.shapes = ds.shapes) (hr : ds₁.lookupForShape space.getExtends = some r)
    (hc : Completes ds₁.gridHeap k) : Completing ds g space :=
  ⟨hshapes ▸ mem_shapes.2 ⟨r, mem_of_lookupForShape hr⟩, ds₁, k, i, grid, hfind, hF.heap,
    Grid.cell_eq_ok.2 ⟨by omega, cs, hF.cells, hF.cell⟩, hc⟩

theorem Allocates.gridCount (h : Relation.ReflTransGen Allocates ds ds') :
    ds'.gridCount = ds.gridCount := by
  induction h with
  | refl => rfl
  | tail _ hs ih =>
    obtain ⟨_, _, _, -, -, rfl⟩ := hs
    exact ih

end Completes

section Calls

variable {user user' : Mem V} {status status' : Status}

/-- `esdm_write` changes nothing, or it creates a fragment. -/
theorem writeCubes_eq_or_dirty {backend : Backend} : ∀ {cubes : HypercubeSet} {status : Status}
    {ds : Dataset V}, writeCubes env space user backend cubes status ds = .ok (status', ds') →
    ds' = ds ∨ ds'.status = .dirty
  | [], _, _, h => .inl (Prod.mk.inj (Except.ok.inj h)).2.symm
  | cube :: cubes, status, ds, h => by
    obtain ⟨sub, -, ⟨r, -, h⟩ | ⟨f, ds₁, status₁, -, -, -, hw, h⟩⟩ := writeCubes_cons_eq_ok h
    · exact writeCubes_eq_or_dirty h
    · obtain ⟨-, f', -, -, rfl, -⟩ := writeFragmentNonblocking_eq_ok hw
      rcases writeCubes_eq_or_dirty h with rfl | hdirty
      · exact .inr rfl
      · exact .inr hdirty

theorem writeSlots_eq_or_dirty : ∀ {slots : List (Backend × Slot)} {status : Status}
    {ds : Dataset V}, writeSlots env space user slots status ds = .ok (status', ds') →
    ds' = ds ∨ ds'.status = .dirty
  | [], _, _, h => .inl (Prod.mk.inj (Except.ok.inj h)).2.symm
  | (_, .uninitialized) :: _, _, _, h => by cases h
  | (_, .null) :: slots, _, _, h => by
    rw [writeSlots] at h
    exact writeSlots_eq_or_dirty h
  | (backend, .cube c) :: slots, status, ds, h => by
    rw [writeSlots] at h
    obtain ⟨backendSpace, -, h⟩ := Outcome.bind_eq_ok.1 h
    obtain ⟨cubes, -, h⟩ := Outcome.bind_eq_ok.1 h
    obtain ⟨⟨status₁, ds₁⟩, hcubes, hslots⟩ := Outcome.bind_eq_ok.1 h
    rcases writeCubes_eq_or_dirty hcubes with rfl | hdirty
    · exact writeSlots_eq_or_dirty hslots
    · rcases writeSlots_eq_or_dirty hslots with rfl | hdirty'
      · exact .inr hdirty
      · exact .inr hdirty'

theorem writeBlocking_eq_or_dirty (h : ds.writeBlocking env user space = .ok (status, ds')) :
    ds' = ds ∨ ds'.status = .dirty := by
  obtain ⟨slots, -, h⟩ := Outcome.bind_eq_ok.1 h
  exact writeSlots_eq_or_dirty h

/-- `esdm_write_grid` creates a fragment, or it leaves all fragments as they are. -/
theorem writeGrid_changes (hI : GridInv none ds)
    (h : ds.writeGrid env g user space = .ok (status, ds')) :
    ds'.status = .dirty ∨ (Moves ds ds' ∧ ds'.fragments = ds.fragments
      ∧ (ds'.gridCount = ds.gridCount ∨ Completing ds g space)) := by
  obtain ⟨ds₁, hal, hrest⟩ := writeGrid_eq_ok h
  have hmoves := Allocates.moves hal
  have hsame := Allocates.sameTable hal
  have hcount := Allocates.gridCount hal
  obtain ⟨-, rfl⟩ | ⟨k, i, grid, cs, c, index, hfind, hF, hc⟩ := hrest
  · exact .inr ⟨hmoves, hsame.fragments, .inl hcount⟩
  obtain ⟨-, -, rfl⟩ | ⟨rfl, r, hr, -, hfill⟩ | ⟨rfl, -, -, ds₂, hfill, hw⟩ := hc
  · exact .inr ⟨hmoves, hsame.fragments, .inl hcount⟩
  · refine .inr ⟨hmoves.trans (hF.fillCell_moves (allocates_gridInv hal hI) hfill),
      (fillCell_sameTable hfill).fragments.trans hsame.fragments, ?_⟩
    exact (fillCell_gridCount hfill).imp (·.trans hcount)
      (hF.completing hfind (shapes_congr hsame.table) hr)
  · exact .inl (created_dirty hfill hw)

/-- `esdm_read_grid` creates a fragment, or it loads fragments and fills at most a cell. -/
theorem readGrid_changes (hI : Inv ds) (hG : Grid.Geometry ds.table ds.gridHeap)
    (hs : ∀ d ∈ space.dim, 0 < d.size) (hd : space.dims = ds.dims)
    (h : ds.readGrid env g user space = .ok (status, user', ds')) :
    ds'.status = .dirty ∨ (Moves ds ds' ∧ Restrides space (ReadingGrid env ds g space) ds ds'
      ∧ (ds'.gridCount = ds.gridCount ∨ Completing ds g space)) := by
  obtain ⟨ds₁, hal, hrest⟩ := readGrid_eq_ok h
  have hmoves := Allocates.moves hal
  have hsame := Allocates.sameTable hal
  have hcount := Allocates.gridCount hal
  have hd₁ := hd.trans (Allocates.dims hal).symm
  have hsteps : Steps (fun _ => False) (fun _ _ => False) ds ds₁ := allocates_steps hal
  obtain ⟨hI₁, -⟩ := hsteps.inv (fun _ h => h.elim) hI
  have hG₁ := hsteps.geometry (fun _ _ h => h.elim) (fun _ h => h.elim) hI hG
  obtain ⟨-, -, -, rfl⟩ | ⟨k, i, grid, cs, c, index, hfind, hF, hc⟩ := hrest
  · refine .inr ⟨hmoves, fun q f f' hf hf' => .inl ?_, .inl hcount⟩
    rw [fragment, hsame.fragments, ← fragment] at hf'
    rw [Except.ok.inj (hf'.symm.trans hf)]
  have hsingle : ∀ {ds₂ : Dataset V} {r : ℕ}, ds₂.fragments = ds₁.fragments →
      (space.getExtends, r) ∈ ds₁.table →
      ds₂.readSingleFragmentBlocking env user space r = .ok (status, user', ds') →
      Restrides space (ReadingGrid env ds g space) ds ds' := by
    intro ds₂ r hf hr hread
    refine (enqueueRead_restrides (List.nodup_singleton r) hread).congr
      (hf.trans hsame.fragments) fun q hq => ?_
    obtain rfl := List.mem_singleton.1 hq
    exact ⟨ds₁, _, hfind, .inl (hsame.table ▸ hr)⟩
  obtain ⟨r, hr, hread⟩ | ⟨rfl, r, ds₂, hr, hfill, hread⟩ | ⟨rfl, hnew, hread⟩ := hc
  · have hl : space.dims = grid.axes.length :=
      hd₁.trans (hI₁.grids.forest.node hF.heap).axes.symm
    have hio : IoSteps (fun _ => False) ds₁ ds' := enqueueRead_steps hread
    rcases hio.changes with hm | hdirty
    · exact .inr ⟨hmoves.trans hm, hsingle rfl (hF.mem_table hG₁ hl hr) hread,
        .inl (hio.sameGrids.gridCount.trans hcount)⟩
    · exact .inl hdirty
  · have hm₂ := hF.fillCell_moves hI₁.grids hfill
    have hio : IoSteps (fun _ => False) ds₂ ds' := enqueueRead_steps hread
    rcases hio.changes with hm | hdirty
    · refine .inr ⟨hmoves.trans (hm₂.trans hm), hsingle (fillCell_sameTable hfill).fragments
        (mem_of_lookupForShape hr) hread, ?_⟩
      rw [hio.sameGrids.gridCount]
      exact (fillCell_gridCount hfill).imp (·.trans hcount)
        (hF.completing hfind (shapes_congr hsame.table) hr)
    · exact .inl hdirty
  · obtain ⟨ret, ds₂, hblock, hio, -, ⟨-, rfl⟩ | ⟨-, -, -, ds₃, status₂, hfill, hw⟩⟩ :=
      readEmptyCell_eq_ok hs hnew hread
    · rcases hio.changes with hm | hdirty
      · refine .inr ⟨hmoves.trans hm, ?_, .inl (hio.sameGrids.gridCount.trans hcount)⟩
        refine (readBlocking_restrides hI₁ hG₁ hs hd₁ hblock).congr hsame.fragments fun q hq => ?_
        exact ⟨ds₁, _, hfind, .inr ⟨shapes_congr hsame.table ▸ hnew, hq⟩⟩
      · exact .inl hdirty
    · exact .inl (created_dirty hfill hw)

end Calls

end Dataset

end Esdm
