import Esdm.Proofs.Reads

/-!
# Writes that store

A write that returns `ESDM_SUCCESS` should have left its data with a backend.  A fragment is entered
into the table, and counted in its grid cell, before its data is written; when that fails, the entry
stays, and whoever writes the shape again is told that the data is there already.  Runs in which no
such fragment is met again store what they say they store (`run_storesData`).
-/

namespace Esdm

variable {V : Type}

/-- The points a call writes. -/
def Op.region : Op V → Set (List ℤ)
  | .write space _ | .writeGrid _ space _ => Hypercube.points space.getExtends
  | _ => ∅

namespace Dataset

variable {ds ds' : Dataset V} {env : Env V} {user user' : Mem V} {space : Dataspace} {g : ℕ}
  {P : Dataspace → Prop} {S : Axis → Axis → Prop} {r : ℕ}

/-- A backend has stored the fragment's data. -/
def Stored (ds : Dataset V) (r : ℕ) : Prop := ∃ f, ds.fragment r = .ok f ∧ f.stored ≠ none

/-- The points of the fragments whose data a backend has stored. -/
def storedPoints (ds : Dataset V) : Set (List ℤ) :=
  {p | ∃ e ∈ ds.table, Stored ds e.2 ∧ p ∈ Hypercube.points e.1}

/-- All leaf cells of the grid and the grids nested in it hold a fragment that has been stored. -/
def LeavesStored (ds : Dataset V) (g : ℕ) : Prop :=
  Grid.Nested (fun grid => ∃ cs, grid.cells = some cs ∧ ∀ c ∈ cs, c.subgrid = none →
    ∃ r, c.fragment = some r ∧ Stored ds r) ds.gridHeap g

/-- What a call that writes promises. -/
structure StoresData (op : Op V) (result : Result V) : Prop where
  success : result.status = .success → op.region ⊆ result.dataset.storedPoints
  complete : ∀ g ∈ result.dataset.grids.take result.dataset.gridCount,
    LeavesStored result.dataset g

/-- One of the hypercubes a write is split into. -/
def SplitCube (env : Env V) (space : Dataspace) (cube : Hypercube) : Prop :=
  ∃ slots backend c sub cubes, splitToBackends env.toSplitEnv space = .ok slots
    ∧ (backend, .cube c) ∈ env.backends.zip slots ∧ subspaceOf c space = .ok sub
    ∧ makeSplitRecommendation env.toSplitEnv sub backend = .ok cubes ∧ cube ∈ cubes

/-- The call does not meet a fragment that has not been stored, and `esdm_write_grid` does not
leave one behind.  No backend has a maximal fragment size of less than an element. -/
def MeetsStored (ds : Dataset V) (c : Call V) : Prop :=
  match c.op with
  | .write space _ => (∀ b ∈ c.env.backends, space.type.sizeof ≤ b.maxFragmentSize)
    ∧ ∀ e ∈ ds.table, SplitCube c.env space.toDataspace e.1 → Stored ds e.2
  | .writeGrid _ space _ => (∀ e ∈ ds.table, e.1 = space.getExtends → Stored ds e.2)
    ∧ (space.getExtends ∉ ds.shapes → c.env.update space.getExtends = .success)
  | _ => True

section Keep

theorem IoStep.stored (h : IoStep P ds ds') (hr : Stored ds r) : Stored ds' r := by
  obtain ⟨f, hf, hst⟩ := hr
  obtain ⟨hf, hfr⟩ := fragment_eq_ok.1 hf
  have hlt := (List.getElem?_eq_some_iff.1 hf).1
  cases h with
  | @update r' f₁ f₁' hf₁ hk =>
    obtain ⟨hf₁, -⟩ := fragment_eq_ok.1 hf₁
    by_cases he : r' = r
    · subst he
      obtain rfl : f = f₁ := Option.some.inj (hf.symm.trans hf₁)
      refine ⟨f₁', fragment_eq_ok.2 ⟨?_, hk.freed.trans hfr⟩, hk.stored hst⟩
      rw [setFragment, List.getElem?_set_self hlt]
    · exact ⟨f, fragment_eq_ok.2 ⟨by rw [setFragment, List.getElem?_set_ne he, hf], hfr⟩, hst⟩
  | create =>
    refine ⟨f, fragment_eq_ok.2 ⟨?_, hfr⟩, hst⟩
    exact (List.getElem?_append_left hlt).trans hf

theorem IoSteps.stored (h : IoSteps P ds ds') (hr : Stored ds r) : Stored ds' r := by
  induction h with
  | refl => exact hr
  | tail _ hs ih => exact hs.stored ih

theorem Stored.congr (hr : Stored ds r) (hf : ds'.fragments = ds.fragments) : Stored ds' r := by
  obtain ⟨f, h, hst⟩ := hr
  exact ⟨f, by rw [fragment, hf]; exact h, hst⟩

theorem Stored.leave (hr : Stored ds r) : Stored ds.leave r := by
  obtain ⟨f, hf, hst⟩ := hr
  obtain ⟨hf, hfr⟩ := fragment_eq_ok.1 hf
  have hk := Fragment.leave_keeps f
  exact ⟨f.leave, fragment_eq_ok.2 ⟨by rw [leave_getElem?, hf]; rfl, hk.freed.trans hfr⟩,
    hk.stored hst⟩

end Keep

section Cells

/-- The fragment is in a grid's cell. -/
def InCell (ds : Dataset V) (r : ℕ) : Prop :=
  ∃ (g : ℕ) (grid : Grid) (cs : List GridEntry) (c : GridEntry), ds.gridHeap[g]? = some grid
    ∧ grid.cells = some cs ∧ c ∈ cs ∧ c.fragment = some r

/-- What is in the cells has been stored. -/
def CellsStored (ds : Dataset V) : Prop := ∀ r, InCell ds r → Stored ds r

theorem InCell.congr (h : InCell ds' r) (hh : ds'.gridHeap = ds.gridHeap) : InCell ds r := by
  rwa [InCell, hh] at h

theorem inCell_setGrid {grid' : Grid} {X : Prop}
    (hnew : ∀ cs c, grid'.cells = some cs → c ∈ cs → c.fragment = some r → InCell ds r ∨ X)
    (h : InCell (ds.setGrid g grid') r) : InCell ds r ∨ X := by
  obtain ⟨k, grid, cs, c, hk, hcs, hc, hr⟩ := h
  rw [setGrid, List.getElem?_set] at hk
  split_ifs at hk
  · obtain rfl := Option.some.inj hk
    exact hnew cs c hcs hc hr
  · exact .inl ⟨k, grid, cs, c, hk, hcs, hc, hr⟩

theorem inCell_push {new : Grid} (hnew : new.cells = none)
    (h : InCell { ds with gridHeap := ds.gridHeap ++ [new] } r) : InCell ds r := by
  obtain ⟨k, grid, cs, c, hk, hcs, hc, hr⟩ := h
  rw [Grid.getElem?_push] at hk
  split_ifs at hk
  · obtain rfl := Option.some.inj hk
    simp [hnew] at hcs
  · exact ⟨k, grid, cs, c, hk, hcs, hc, hr⟩

/-- Cells get only fragments of the spaces they fit. -/
theorem GridStep.inCell (h : GridStep P S ds ds') (hI : GridInv none ds) (hr : InCell ds' r) :
    InCell ds r ∨ ∃ space, P space ∧ (space.getExtends, r) ∈ ds.table := by
  cases h with
  | create => exact .inl (inCell_push rfl hr)
  | @subgrid g grid cs index i dim hg hcs hi hl hc hs hd =>
    have hr' :
      InCell (setGrid { ds with gridHeap := ds.gridHeap ++ [.fresh (some g) dim] } g _) r :=
      hr
    refine (inCell_setGrid ?_ hr').imp_left (inCell_push rfl)
    rintro cs' c ⟨⟩ hm hcr
    rcases List.mem_or_eq_of_mem_set hm with hm | rfl
    · refine .inl ⟨g, grid, cs, c, ?_, hcs, hm, hcr⟩
      exact (List.getElem?_append_left (List.getElem?_eq_some_iff.1 hg).1).trans hg
    · cases hcr
  | axis hg hcs =>
    exact inCell_setGrid (fun cs c h => by simp [hcs] at h) hr
  | @allocate g grid grid' hg he =>
    refine inCell_setGrid (fun cs c hcs hc hcr => ?_) hr
    obtain ⟨-, rfl⟩ | ⟨-, -, rfl⟩ := Grid.ensureGrid_eq_ok he
    · exact .inl ⟨g, grid', cs, c, hg, hcs, hc, hcr⟩
    · obtain rfl := Option.some.inj hcs
      rw [List.eq_of_mem_replicate hc] at hcr
      cases hcr
  | @id g grid id hg =>
    refine inCell_setGrid ?_ hr
    exact fun cs c hcs hc hcr => .inl ⟨g, grid, cs, c, hg, hcs, hc, hcr⟩
  | @fill ds' g grid cs index i space r' hP hg hcs hf hi hd hc hr' h =>
    obtain ⟨ds₁, heq, -, _, _, _, _, rfl, hu⟩ := fillCell_spec hI hg hcs hc r'
    obtain rfl := Except.ok.inj (heq.symm.trans h)
    obtain ⟨k, sub, cs', c, hk, hcs', hc', hcr⟩ := hr
    obtain ⟨sub', hk', -, hcells⟩ := Grid.getElem?_of_uncounted hu hk
    have hset : InCell (ds.setCell g grid cs i r') r :=
      ⟨k, sub', cs', c, hk', hcells ▸ hcs', hc', hcr⟩
    refine inCell_setGrid ?_ hset
    rintro cs' c ⟨⟩ hm hcr
    rcases List.mem_or_eq_of_mem_set hm with hm | rfl
    · exact .inl ⟨g, grid, cs, c, hg, hcs, hm, hcr⟩
    · obtain rfl := Option.some.inj hcr
      exact .inr ⟨space, hP, hr'⟩

theorem Step.table_subset (h : Step P S ds ds') : ∀ e ∈ ds.table, e ∈ ds'.table := by
  cases h with
  | io h => exact h.table_subset
  | grid h => rw [h.sameTable.table]; exact fun _ h => h
  | fillValue | leave => exact fun _ h => h

theorem Step.stored (h : Step P S ds ds') (hr : Stored ds r) : Stored ds' r := by
  cases h with
  | io h => exact h.stored hr
  | grid h => exact hr.congr h.sameTable.fragments
  | fillValue => exact hr.congr rfl
  | leave => exact hr.leave

theorem Steps.table_subset (h : Steps P S ds ds') : ∀ e ∈ ds.table, e ∈ ds'.table := fun e he => by
  induction h with
  | refl => exact he
  | tail _ hs ih => exact hs.table_subset e ih

theorem Steps.stored (h : Steps P S ds ds') (hr : Stored ds r) : Stored ds' r := by
  induction h with
  | refl => exact hr
  | tail _ hs ih => exact hs.stored ih

/-- After some steps, cells have the fragments they had before, and those of the spaces that they
have been filled for. -/
theorem Steps.inCell (hP : ∀ sub, P sub → sub.dims = ds.dims) (h : Steps P S ds ds') (hI : Inv ds)
    (hr : InCell ds' r) : InCell ds r ∨ ∃ space, P space ∧ (space.getExtends, r) ∈ ds'.table := by
  refine (h.induct (C := fun ds' => InCell ds' r → InCell ds r
    ∨ ∃ space, P space ∧ (space.getExtends, r) ∈ ds'.table) hP hI .inl ?_).2.2 hr
  intro ds₁ ds₂ hI₁ _ hs ih hr
  have hsub := hs.table_subset
  suffices hcase : InCell ds₁ r ∨ ∃ space, P space ∧ (space.getExtends, r) ∈ ds₁.table by
    rcases hcase with hr | ⟨space, hp, hm⟩
    · exact (ih hr).imp_right fun ⟨space, hp, hm⟩ => ⟨space, hp, hsub _ hm⟩
    · exact .inr ⟨space, hp, hsub _ hm⟩
  cases hs with
  | io h => exact .inl (hr.congr h.sameGrids.gridHeap)
  | grid h => exact h.inCell hI₁.grids hr
  | fillValue | leave => exact .inl hr

end Cells

section Write

theorem IoSteps.shapes_subset (h : IoSteps P ds ds') : ds.shapes ⊆ ds'.shapes := by
  intro s hs
  obtain ⟨r, hr⟩ := mem_shapes.1 hs
  refine mem_shapes.2 ⟨r, ?_⟩
  induction h with
  | refl => exact hr
  | tail _ hs ih => exact hs.table_subset _ ih

/-- A fragment that has been created and written with success has been stored. -/
theorem stored_of_writeFragmentNonblocking {status status' : Status}
    (h : ds.writeFragmentNonblocking env r user status = .ok (status', ds'))
    (hs : status' = .success) : status = .success ∧ Stored ds' r := by
  obtain ⟨f, f', hf, hk, rfl, -, hok, hfail⟩ := writeFragmentNonblocking_eq_ok h
  have hu : env.update f.shape = .success := by
    by_contra hne
    exact hne ((hfail hne).symm.trans hs)
  obtain ⟨rfl, hst, -⟩ := hok hu
  obtain ⟨hf, hfr⟩ := fragment_eq_ok.1 hf
  refine ⟨hs, f', fragment_eq_ok.2 ⟨?_, hk.freed.trans hfr⟩, hst⟩
  rw [setFragment, List.getElem?_set_self (List.getElem?_eq_some_iff.1 hf).1]

/-- All of the hypercubes are in the table in the end; those that are new have been stored, if the
status is still that of success. -/
theorem writeCubes_stored {backend : Backend} {cubes : HypercubeSet} {status status' : Status}
    (hw : ∀ c ∈ cubes, Hypercube.points c ⊆ Hypercube.points space.getExtends)
    (hne : ∀ c ∈ cubes, ¬ Hypercube.isEmpty c)
    (h : writeCubes env space user backend cubes status ds = .ok (status', ds')) :
    (∀ c ∈ cubes, c ∈ ds'.shapes) ∧ (status' = .success →
      status = .success ∧ ∀ e ∈ ds'.table, e ∈ ds.table ∨ Stored ds' e.2) := by
  induction cubes generalizing status ds with
  | nil =>
    obtain ⟨rfl, rfl⟩ := Prod.mk.inj (Except.ok.inj h)
    exact ⟨by simp, fun hs => ⟨hs, fun e he => .inl he⟩⟩
  | cons cube cubes ih =>
    have hw' := fun c hc => hw c (List.mem_cons_of_mem _ hc)
    have ih := fun {status ds} => @ih status ds hw' fun c hc => hne c (List.mem_cons_of_mem _ hc)
    obtain ⟨sub, hsub, ⟨r, hr, h⟩ | ⟨f, ds₁, status₁, hs, hch, rfl, hwr, h⟩⟩ :=
      writeCubes_cons_eq_ok h
    · obtain ⟨hshapes, hst⟩ := ih h
      rw [(subspaceOf_getExtends hsub (hne cube (by simp))).1] at hr
      have hm := (writeCubes_steps hw' h).shapes_subset (mem_shapes.2 ⟨r, hr⟩)
      exact ⟨by simpa using ⟨hm, hshapes⟩, hst⟩
    · obtain ⟨hshapes, hst⟩ := ih h
      have hsteps := writeCubes_steps hw' h
      have htable : ds₁.table = ds.table ++ [(cube, ds.fragments.length)] := by
        obtain ⟨f, f', -, -, rfl, -⟩ := writeFragmentNonblocking_eq_ok hwr
        rw [← (subspaceOf_getExtends hsub (hne cube (by simp))).1]
        rfl
      refine ⟨?_, fun hok => ?_⟩
      · have hm : cube ∈ ds₁.shapes := mem_shapes.2 ⟨ds.fragments.length, by simp [htable]⟩
        simpa using ⟨hsteps.shapes_subset hm, hshapes⟩
      · obtain ⟨hok₁, hold⟩ := hst hok
        obtain ⟨hok₀, hnew⟩ := stored_of_writeFragmentNonblocking hwr hok₁
        refine ⟨hok₀, fun e he => ?_⟩
        rcases hold e he with he | he
        · rw [htable] at he
          rcases List.mem_append.1 he with he | he
          · exact .inl he
          · obtain rfl := List.mem_singleton.1 he
            exact .inr (hsteps.stored hnew)
        · exact .inr he

/-- The same for the slots of the backends. -/
theorem writeSlots_stored {slots : List (Backend × Slot)} {status status' : Status}
    (hc : ∀ q ∈ slots, ∀ c, q.2 = .cube c →
      Hypercube.Within c space.getExtends ∧ ¬ Hypercube.isEmpty c)
    (hm : ∀ q ∈ slots, space.type.sizeof ≤ q.1.maxFragmentSize)
    (h : writeSlots env space user slots status ds = .ok (status', ds')) :
    (∀ backend c, (backend, Slot.cube c) ∈ slots → ∃ sub cubes, subspaceOf c space = .ok sub
      ∧ makeSplitRecommendation env.toSplitEnv sub backend = .ok cubes
      ∧ (∀ p ∈ Hypercube.points c, p ∈ HypercubeSet.points cubes) ∧ ∀ k ∈ cubes, k ∈ ds'.shapes)
    ∧ (status' = .success →
      status = .success ∧ ∀ e ∈ ds'.table, e ∈ ds.table ∨ Stored ds' e.2) := by
  induction slots generalizing status ds with
  | nil =>
    obtain ⟨rfl, rfl⟩ := Prod.mk.inj (Except.ok.inj h)
    exact ⟨by simp, fun hs => ⟨hs, fun e he => .inl he⟩⟩
  | cons q slots ih =>
    have hc' := fun q hq => hc q (List.mem_cons_of_mem _ hq)
    have ih := fun {status ds} => @ih status ds hc' fun q hq => hm q (List.mem_cons_of_mem _ hq)
    rcases q with ⟨backend, _ | _ | c⟩
    · cases h
    · obtain ⟨hcubes, hst⟩ := ih h
      refine ⟨fun b c hbc => hcubes b c ?_, hst⟩
      simpa using hbc
    · rw [writeSlots] at h
      obtain ⟨sub, hb, h⟩ := Outcome.bind_eq_ok.1 h
      obtain ⟨cubes, hcu, h⟩ := Outcome.bind_eq_ok.1 h
      obtain ⟨⟨status₁, ds₁⟩, hw, h⟩ := Outcome.bind_eq_ok.1 h
      obtain ⟨hcw, hce⟩ := hc _ (List.mem_cons_self ..) c rfl
      obtain ⟨hbe, hbs⟩ := subspaceOf_getExtends hb hce
      have hmax : sub.type.sizeof ≤ backend.maxFragmentSize := by
        rw [(subspaceOf_eq_ok hb).2.1]
        exact hm _ (List.mem_cons_self ..)
      have hsub : ∀ k ∈ cubes, Hypercube.points k ⊆ Hypercube.points space.getExtends := by
        intro k hk
        have := makeSplitRecommendation_within hbs hcu k hk
        rw [hbe] at this
        exact (this.trans hcw).points_subset
      obtain ⟨hshapes, hst₁⟩ := writeCubes_stored hsub
        (makeSplitRecommendation_not_isEmpty hbs hmax hcu) hw
      obtain ⟨hcubes, hst⟩ := ih h
      have hsteps := writeSlots_steps hc' h
      refine ⟨fun b k hbk => ?_, fun hok => ?_⟩
      · rcases List.mem_cons.1 hbk with heq | hbk
        · obtain ⟨rfl, hk⟩ := Prod.mk.inj heq
          obtain rfl := Slot.cube.inj hk
          refine ⟨sub, cubes, hb, hcu, fun p hp => ?_, fun k hk =>
            hsteps.shapes_subset (hshapes k hk)⟩
          exact makeSplitRecommendation_covers hbs hmax hcu p (hbe ▸ hp)
        · exact hcubes b k hbk
      · obtain ⟨hok₁, hold⟩ := hst hok
        obtain ⟨hok₀, hold₁⟩ := hst₁ hok₁
        refine ⟨hok₀, fun e he => ?_⟩
        rcases hold e he with he | he
        · exact (hold₁ e he).imp_right hsteps.stored
        · exact .inr he

theorem writeSlots_initialized {slots : List (Backend × Slot)} {status status' : Status}
    (h : writeSlots env space user slots status ds = .ok (status', ds')) :
    ∀ q ∈ slots, q.2 ≠ .uninitialized := by
  induction slots generalizing status ds with
  | nil => simp
  | cons q slots ih =>
    rcases q with ⟨backend, _ | _ | c⟩
    · cases h
    · simpa using ih h
    · rw [writeSlots] at h
      obtain ⟨sub, -, h⟩ := Outcome.bind_eq_ok.1 h
      obtain ⟨cubes, -, h⟩ := Outcome.bind_eq_ok.1 h
      obtain ⟨⟨status₁, ds₁⟩, -, h⟩ := Outcome.bind_eq_ok.1 h
      simpa using ih h

/-- `esdm_write` stores its data if it does not meet a fragment that has not been stored. -/
theorem writeBlocking_stored (hs : ∀ d ∈ space.dim, 0 < d.size)
    (hm : ∀ b ∈ env.backends, space.type.sizeof ≤ b.maxFragmentSize)
    (hold : ∀ e ∈ ds.table, SplitCube env space e.1 → Stored ds e.2)
    (h : ds.writeBlocking env user space = .ok (.success, ds')) :
    Hypercube.points space.getExtends ⊆ ds'.storedPoints := by
  have hsteps := writeBlocking_steps hs h
  unfold writeBlocking enqueueWrite at h
  obtain ⟨slots, hsl, h⟩ := Outcome.bind_eq_ok.1 h
  obtain ⟨hlen, hcube, hcov⟩ := splitToBackends_eq_ok hs hsl
  have hsnd : (env.backends.zip slots).map Prod.snd = slots :=
    List.map_snd_zip hlen.le
  have hinit : Slot.uninitialized ∉ slots := by
    intro hu
    rw [← hsnd] at hu
    obtain ⟨q, hq, hu⟩ := List.mem_map.1 hu
    exact writeSlots_initialized h q hq hu
  obtain ⟨hcubes, hst⟩ := writeSlots_stored
    (fun q hq c hqc => hcube c (hqc ▸ (List.of_mem_zip hq).2))
    (fun q hq => hm _ (List.of_mem_zip hq).1) h
  intro p hp
  obtain ⟨c, hc, hpc⟩ := hcov hinit p hp
  rw [← hsnd] at hc
  obtain ⟨⟨backend, _⟩, hq, rfl⟩ := List.mem_map.1 hc
  obtain ⟨sub, cubes, hsub, hcu, hpcubes, hshapes⟩ := hcubes backend c hq
  obtain ⟨k, hk, hpk⟩ := hpcubes p hpc
  obtain ⟨r, hr⟩ := mem_shapes.1 (hshapes k hk)
  refine ⟨_, hr, ?_, hpk⟩
  rcases (hst rfl).2 _ hr with hr | hr
  · exact hsteps.stored (hold _ hr ⟨slots, backend, c, sub, cubes, hsl, hq, hsub, hcu, hk⟩)
  · exact hr

/-- The fragment that `esdm_write_grid` leaves in its cell has been stored if it does not meet one
that has not been, and the update succeeds. -/
theorem writeGrid_stored (hI : Inv ds) (hG : Grid.Geometry ds.table ds.gridHeap)
    (hd : space.dims = ds.dims) (hold : ∀ e ∈ ds.table, e.1 = space.getExtends → Stored ds e.2)
    (hnew : space.getExtends ∉ ds.shapes → env.update space.getExtends = .success)
    {status : Status} (h : ds.writeGrid env g user space = .ok (status, ds')) :
    (∀ r, (space.getExtends, r) ∈ ds'.table → Stored ds' r)
      ∧ (status = .success → space.getExtends ∈ ds'.shapes) := by
  have hsteps : Steps (fun sub => sub = space) (fun _ _ => False) ds ds' :=
    writeGrid_steps rfl hd h
  have hP : ∀ sub, sub = space → sub.dims = ds.dims := fun _ h => h ▸ hd
  have hw' := (hsteps.inv hP hI).1.table
  -- the table has one fragment of the shape
  have hone : ∀ r, (space.getExtends, r) ∈ ds'.table → Stored ds' r →
      (∀ r, (space.getExtends, r) ∈ ds'.table → Stored ds' r)
        ∧ (status = .success → space.getExtends ∈ ds'.shapes) := by
    refine fun r hr hst => ⟨fun r' hr' => ?_, fun _ => mem_shapes.2 ⟨r, hr⟩⟩
    have heq := (hw'.lookup_eq_some_iff.2 hr).symm.trans (hw'.lookup_eq_some_iff.2 hr')
    rwa [← Option.some.inj heq]
  by_cases hex : space.getExtends ∈ ds.shapes
  · obtain ⟨r, hr⟩ := mem_shapes.1 hex
    exact hone r (hsteps.table_subset _ hr) (hsteps.stored (hold _ hr rfl))
  obtain ⟨ds₁, hal, hrest⟩ := writeGrid_eq_ok h
  have hex₁ : space.getExtends ∉ ds₁.shapes := by rwa [shapes, (Allocates.sameTable hal).table]
  obtain ⟨rfl, rfl⟩ | ⟨k, i, grid, cs, c, index, -, hF, hc⟩ := hrest
  · exact ⟨fun r hr => absurd (mem_shapes.2 ⟨r, hr⟩) hex₁, fun h => by cases h⟩
  have hal' : Steps (fun _ => False) (fun _ _ => False) ds ds₁ := allocates_steps hal
  obtain ⟨hI₁, hd₁⟩ := hal'.inv (fun _ h => h.elim) hI
  have hG₁ := hal'.geometry (fun _ _ h => h.elim) (fun _ h => h.elim) hI hG
  obtain ⟨hc, -⟩ | ⟨-, r, hr, -⟩ | ⟨rfl, -, hch, ds₂, hfill, hwr⟩ := hc
  · obtain ⟨r, hr⟩ := Option.ne_none_iff_exists'.1 hc
    have hl : space.dims = grid.axes.length :=
      (hd.trans hd₁.symm).trans (hI₁.grids.forest.node hF.heap).axes.symm
    exact absurd (mem_shapes.2 ⟨r, hF.mem_table hG₁ hl hr⟩) hex₁
  · exact absurd (mem_shapes.2 ⟨r, mem_of_lookupForShape hr⟩) hex₁
  · have hsame := fillCell_sameTable hfill
    have hf : ds₂.fragment ds₁.fragments.length = .ok (newFragment space (some (.user 0))) := by
      rw [fragment, hsame.fragments]
      exact created_fragment ..
    obtain ⟨f, f', hf', -, hds', -, hok, -⟩ := writeFragmentNonblocking_eq_ok hwr
    obtain rfl := Except.ok.inj (hf.symm.trans hf')
    obtain ⟨rfl, -⟩ := hok (hnew hex)
    refine hone ds₁.fragments.length ?_ (stored_of_writeFragmentNonblocking hwr rfl).2
    rw [hds', setFragment, hsame.table]
    exact mem_created_table ..

/-- What holds between the calls. -/
structure StoredInv (ds : Dataset V) : Prop where
  inv : Inv ds
  geometry : Grid.Geometry ds.table ds.gridHeap
  cells : CellsStored ds

theorem StoredInv.leavesStored (hS : StoredInv ds) :
    ∀ g ∈ ds.grids.take ds.gridCount, LeavesStored ds g := by
  intro g hg h sub hh hsub
  have hL := hS.inv.grids.listed
  have hm := List.mem_of_mem_take hg
  have hget := List.getElem?_eq_getElem (hL.valid g hm)
  have hfill := hS.inv.grids.forest.leavesFilled_of_done hget
    ((hL.complete hget hm).1 hg)
  obtain ⟨cs, hcs, hleaf⟩ := hfill h sub hh hsub
  refine ⟨cs, hcs, fun c hc hnone => ?_⟩
  obtain ⟨r, hr⟩ := Option.ne_none_iff_exists'.1 (hleaf c hc hnone)
  exact ⟨r, hr, hS.cells r ⟨h, sub, cs, c, hsub, hcs, hc, hr⟩⟩

theorem storedPoints_leave : ds.storedPoints ⊆ ds.leave.storedPoints :=
  fun _ ⟨e, he, hst, hp⟩ => ⟨e, he, hst.leave, hp⟩

/-- One call keeps its promise. -/
theorem step_storesData {c : Call V} {result : Result V} (hS : StoredInv ds) (hr : ¬ c.op.IsRead)
    (hmeets : MeetsStored ds c) (h : ds.step c = .ok result) :
    StoredInv result.dataset ∧ StoresData c.op result := by
  obtain ⟨hI, hG, hcells⟩ := hS
  have hI' := (step_inv hI h).1
  have hG' := step_geometry hI hG h
  have hsteps := step_steps h
  have hstored : ∀ r, Stored ds r → Stored result.dataset r := fun r =>
    hsteps.stored
  -- what is left to show is about the new fragments in cells, and about the region
  suffices hrest : CellsStored result.dataset ∧ (result.status = .success →
      c.op.region ⊆ result.dataset.storedPoints) by
    have hS' : StoredInv result.dataset := ⟨hI', hG', hrest.1⟩
    exact ⟨hS', hrest.2, hS'.leavesStored⟩
  have hnone : (∀ sub, ¬ c.op.Writes ds.dims sub) → CellsStored result.dataset := by
    intro hno r hr
    rcases hsteps.inCell (fun _ => Op.Writes.dims) hI hr with hr | ⟨sub, hsub, -⟩
    · exact hstored r (hcells r hr)
    · exact absurd hsub (hno sub)
  obtain ⟨env, op⟩ := c
  cases op with
  | read | readGrid => exact absurd trivial hr
  | write space buf =>
    obtain ⟨_, -, h⟩ := Outcome.bind_eq_ok.1 h
    obtain ⟨ds', hx, hres⟩ := returns_eq_ok h
    have hgrids := (writeBlocking_steps space.size_pos hx).sameGrids
    refine ⟨fun r hr => hstored r (hcells r (hr.congr ?_)), fun hok => ?_⟩
    · rw [hres]
      exact hgrids.gridHeap
    · rw [hok] at hx
      rw [hres]
      exact (writeBlocking_stored space.size_pos hmeets.1 hmeets.2 hx).trans storedPoints_leave
  | writeGrid g space buf =>
    obtain ⟨_, hd, h⟩ := Outcome.bind_eq_ok.1 h
    obtain ⟨ds', hx, hres⟩ := returns_eq_ok h
    have hd := eassert_eq_ok.1 hd
    obtain ⟨hst, hshape⟩ := writeGrid_stored hI hG hd hmeets.1 hmeets.2 hx
    have hgs : Steps (fun sub => sub = space.toDataspace) (fun _ _ => False) ds ds' :=
      writeGrid_steps rfl hd hx
    have hP : ∀ sub, sub = space.toDataspace → sub.dims = ds.dims := fun _ h => h ▸ hd
    rw [hres]
    refine ⟨fun r hr => ?_, fun hok => ?_⟩
    · have hr' : InCell ds' r := hr
      rcases hgs.inCell hP hI hr' with hr' | ⟨_, rfl, hm⟩
      · exact (hgs.stored (hcells r hr')).leave
      · exact (hst r hm).leave
    · obtain ⟨r, hr⟩ := mem_shapes.1 (hshape hok)
      exact fun p hp => ⟨_, hr, (hst r hr).leave, hp⟩
  | _ => exact ⟨hnone fun _ h => h, fun _ => Set.empty_subset _⟩

/-- In a run of writes that never meet a fragment which has not been stored, every write that
returns `ESDM_SUCCESS` has stored its data, and the complete grids have been stored. -/
theorem run_storesData (dataspace : Dataspace) (fillValue : Option V) {calls : List (Call V)}
    (hr : ∀ c ∈ calls, ¬ c.op.IsRead)
    (hmeets : EachStep (fun ds c _ => MeetsStored ds c) (init dataspace fillValue) calls) :
    EachStep (fun _ c result => StoresData c.op result) (init dataspace fillValue) calls := by
  refine hmeets.of_invariant (I := StoredInv)
    (fun hc hS hm h => step_storesData hS (hr _ hc) hm h) ⟨init_inv .., ⟨?_, ?_⟩, ?_⟩
  · simp [init]
  · simp [init]
  · rintro r ⟨g, grid, cs, c, hg, -⟩
    simp [init] at hg

/-- A write of an element of the line, in a backend that stores it or not. -/
def pairWrite (i : ℤ) (update : Status) : Call ℕ :=
  ⟨{ Env.calm 0 with update := fun _ => update }, .write (pairElement i) fun _ => 7⟩

theorem splitCube_pairWrite {cube : Hypercube}
    (h : SplitCube (pairWrite 1 .success).env (pairElement 1).toDataspace cube) :
    cube = [⟨1, 2⟩] := by
  obtain ⟨slots, backend, c, sub, cubes, hsl, hq, hsub, hcu, hk⟩ := h
  obtain rfl := Except.ok.inj hsl
  obtain ⟨rfl, hc⟩ := Prod.mk.inj (List.mem_singleton.1 hq)
  obtain rfl := Slot.cube.inj hc
  obtain rfl := Except.ok.inj hsub
  obtain rfl := Except.ok.inj hcu
  exact List.mem_singleton.1 hk

/-- After a failure, the other element is stored. -/
theorem run_storesData_pair : ∃ ds : Dataset ℕ,
    (init pairSpace none).run [pairWrite 0 .error, pairWrite 1 .success] = .ok ds
      ∧ EachStep (fun _ c result => StoresData c.op result) (init pairSpace none)
        [pairWrite 0 .error, pairWrite 1 .success] := by
  refine ⟨_, rfl, run_storesData pairSpace none ?_ ?_⟩
  · simp [pairWrite, Op.IsRead]
  · intro result h
    obtain rfl := Except.ok.inj h
    refine ⟨⟨by decide, by simp [init]⟩, fun result h => ⟨⟨by decide, fun e he hsplit => ?_⟩, ?_⟩⟩
    · obtain rfl := List.mem_singleton.1 he
      exact absurd (splitCube_pairWrite hsplit) (by decide)
    · trivial

/-- The element that has not been stored is not stored by a second write, which returns
`ESDM_SUCCESS`. -/
theorem run_not_storesData : ∃ (ds : Dataset ℕ) (result : Result ℕ),
    (init pairSpace none).run [pairWrite 0 .error] = .ok ds
      ∧ ds.step (pairWrite 0 .success) = .ok result ∧ result.status = .success
      ∧ ¬ StoresData (pairWrite 0 .success).op result := by
  refine ⟨_, _, rfl, rfl, rfl, fun h => ?_⟩
  have hregion : [0] ∈ Hypercube.points [⟨0, 1⟩] := by simp [Range.Mem]
  obtain ⟨e, he, ⟨f, hf, hst⟩, -⟩ := h.success rfl hregion
  obtain rfl := List.mem_singleton.1 he
  obtain rfl := Except.ok.inj hf
  exact hst rfl

end Write

end Dataset

end Esdm
