import Esdm.Proofs.Container
import Esdm.Proofs.Invariants
import Esdm.Proofs.MpiCommit
import Esdm.Session

/-!
# The actual size of unlimited dimensions

The actual size is kept up to date where fragments are created and where the list of fragments of a
stored dataset is read.  `esdm_mpi_dataset_commit` puts the fragments of the other ranks into the
table without that, so it has to be lucky: no fragment that it merges may reach beyond those that
the table has (`run_exact_iff`).
-/

namespace Esdm

section Extent

variable {dim : List Dim} {shapes shapes' : List Hypercube} {sizes : List ℤ} {i : ℕ}

/-- Where the shapes end in a dimension. -/
def ends (shapes : List Hypercube) (i : ℕ) : List ℤ :=
  shapes.filterMap fun shape => shape[i]?.map Range.stop

/-- The farthest end in a dimension. -/
def reach (shapes : List Hypercube) (i : ℕ) : ℤ := (ends shapes i).foldl max 0

/-- The sizes of the dimensions, where the unlimited ones extend as far as the shapes do. -/
def extent (dim : List Dim) (shapes : List Hypercube) : List ℤ :=
  dim.mapIdx fun i d => if d.size = 0 then reach shapes i else d.size

/-- The sizes, raised to the ends of the shapes in unlimited dimensions. -/
def raise (dim : List Dim) (shapes : List Hypercube) (sizes : List ℤ) : List ℤ :=
  (dim.zip sizes).mapIdx fun i x => if x.1.size = 0 then (ends shapes i).foldl max x.2 else x.2

theorem foldl_max_le_iff {α : Type} [LinearOrder α] {l : List α} {a b : α} :
    l.foldl max a ≤ b ↔ a ≤ b ∧ ∀ x ∈ l, x ≤ b := by
  rw [← List.forall_mem_cons (p := (· ≤ b))]
  exact List.max?_le_iff List.max?_cons'

theorem reach_le_iff {n : ℤ} : reach shapes i ≤ n
    ↔ 0 ≤ n ∧ ∀ shape ∈ shapes, ∀ r, shape[i]? = some r → r.stop ≤ n := by
  unfold reach ends
  rw [foldl_max_le_iff]
  refine and_congr_right' ⟨fun h shape hs r hr => ?_, fun h x hx => ?_⟩
  · exact h _ (List.mem_filterMap.2 ⟨shape, hs, by rw [hr]; rfl⟩)
  · obtain ⟨shape, hs, hx⟩ := List.mem_filterMap.1 hx
    obtain ⟨r, hr, rfl⟩ := Option.map_eq_some_iff.1 hx
    exact h shape hs r hr

theorem reach_append : reach (shapes ++ shapes') i = max (reach shapes i) (reach shapes' i) := by
  refine eq_of_forall_ge_iff fun n => ?_
  simp only [max_le_iff, reach_le_iff, List.forall_mem_append]
  tauto

theorem extent_getElem? : (extent dim shapes)[i]?
    = dim[i]?.map fun d => if d.size = 0 then reach shapes i else d.size := List.getElem?_mapIdx

theorem raise_getElem? : (raise dim shapes sizes)[i]? = dim[i]?.bind fun d => sizes[i]?.map fun n =>
    if d.size = 0 then (ends shapes i).foldl max n else n := by
  unfold raise
  rw [List.getElem?_mapIdx, List.zip, List.getElem?_zipWith]
  cases dim[i]? <;> cases sizes[i]? <;> rfl

theorem extent_eq_raise : extent dim shapes = raise dim shapes (dim.map Dim.size) := by
  refine List.ext_getElem? fun i => ?_
  rw [extent_getElem?, raise_getElem?, List.getElem?_map]
  cases dim[i]? with
  | none => rfl
  | some d =>
    by_cases hd : d.size = 0 <;> simp [hd, reach]

theorem raise_nil : raise dim [] sizes = sizes.take dim.length := by
  refine List.ext_getElem? fun i => ?_
  rw [raise_getElem?, List.getElem?_take]
  rcases lt_or_ge i dim.length with hi | hi
  · simp [hi, ends]
  · simp [not_lt.2 hi]

theorem extent_nil : extent dim [] = dim.map Dim.size := by
  rw [extent_eq_raise, raise_nil]
  exact List.take_of_length_le (List.length_map _).le

theorem raise_append : raise dim (shapes ++ shapes') sizes
    = raise dim shapes' (raise dim shapes sizes) := by
  refine List.ext_getElem? fun i => ?_
  simp only [raise_getElem?, ends, List.filterMap_append, List.foldl_append]
  cases dim[i]? with
  | none => rfl
  | some d =>
    cases sizes[i]? with
    | none => rfl
    | some n => by_cases hd : d.size = 0 <;> simp [hd]

theorem take_raise : (raise dim shapes sizes).take dim.length = raise dim shapes sizes := by
  rw [← raise_nil, ← raise_append, List.append_nil]

theorem raise_take : raise dim shapes (sizes.take dim.length) = raise dim shapes sizes := by
  rw [← raise_nil, ← raise_append, List.nil_append]

/-- What `esdmI_dataset_update_actual_size` computes. -/
theorem updated_eq_raise {space : Dataspace} (h : space.dims = dim.length) :
    (dim.zip (space.dim.zip sizes)).map (fun (d, s, a) =>
      if d.size = 0 ∧ s.size + s.offset > a then s.size + s.offset else a)
      = raise dim [space.getExtends] sizes := by
  refine List.ext_getElem? fun i => ?_
  rw [raise_getElem?, List.getElem?_map, List.zip, List.zip, List.getElem?_zipWith,
    List.getElem?_zipWith]
  rcases lt_or_ge i dim.length with hi | hi
  · obtain ⟨d, hdim⟩ : ∃ d, dim[i]? = some d := ⟨_, List.getElem?_eq_getElem hi⟩
    obtain ⟨e, hspace⟩ : ∃ e, space.dim[i]? = some e :=
      ⟨_, List.getElem?_eq_getElem (show i < space.dims from h ▸ hi)⟩
    have hends : ends [space.getExtends] i = [e.offset + e.size] := by
      simp [ends, Dataspace.getExtends, hspace]
    rw [hdim, hspace, hends]
    cases sizes[i]? with
    | none => rfl
    | some n =>
      have hmax : (if e.size + e.offset > n then e.size + e.offset else n)
          = max n (e.offset + e.size) := by
        split_ifs <;> omega
      by_cases h0 : d.size = 0
      · simpa [h0] using hmax
      · simp [h0]
  · rw [List.getElem?_eq_none hi]
    rfl

theorem raise_of_limited (h : ∀ d ∈ dim, d.size ≠ 0) :
    raise dim shapes sizes = sizes.take dim.length := by
  rw [← raise_nil]
  refine List.ext_getElem? fun i => ?_
  rw [raise_getElem?, raise_getElem?]
  cases hd : dim[i]? with
  | none => rfl
  | some d => simp [h d (List.mem_of_getElem? hd)]

theorem extent_of_limited (h : ∀ d ∈ dim, d.size ≠ 0) : extent dim shapes = dim.map Dim.size := by
  rw [← extent_nil, extent_eq_raise, extent_eq_raise, raise_of_limited h, raise_nil]

theorem raise_extent : raise dim shapes' (extent dim shapes) = extent dim (shapes ++ shapes') := by
  rw [extent_eq_raise, extent_eq_raise, raise_append]

theorem extent_append_comm : extent dim (shapes ++ shapes') = extent dim (shapes' ++ shapes) := by
  refine List.ext_getElem? fun i => ?_
  rw [extent_getElem?, extent_getElem?, reach_append, reach_append, max_comm]

/-- More shapes make no difference if they do not reach farther. -/
theorem extent_append_eq_iff : extent dim (shapes ++ shapes') = extent dim shapes
    ↔ ∀ i d, dim[i]? = some d → d.size = 0 → reach shapes' i ≤ reach shapes i := by
  rw [List.ext_getElem?_iff]
  refine forall_congr' fun i => ?_
  rw [extent_getElem?, extent_getElem?]
  cases dim[i]? with
  | none => simp
  | some d => by_cases hd : d.size = 0 <;> simp [hd, reach_append]

end Extent

namespace Dataset

variable {V : Type} {ds ds' ds₁ ds₂ ds₃ : Dataset V} {env : Env V} {space : Dataspace}
  {added counted added' counted' : List Hypercube}

/-- The reported sizes are those that the fragments of the table give. -/
def SizeExact (ds : Dataset V) : Prop := ds.getActualSize = extent ds.dataspace.dim ds.shapes

section Adds

/-- The actual size, as far as it is reported. -/
def reported (ds : Dataset V) : Option (List ℤ) := ds.actualSize.map (List.take ds.dims)

theorem getActualSize_eq : ds.getActualSize = ds.reported.getD (ds.dataspace.dim.map Dim.size) := by
  unfold getActualSize reported
  cases ds.actualSize with
  | none => exact List.take_of_length_le (List.length_map _).le
  | some sizes => rfl

/-- Each entry of the table leads to a fragment of its shape, which may have been destroyed. -/
def Leads (ds : Dataset V) : Prop :=
  ∀ e ∈ ds.table, ∃ f, ds.fragments[e.2]? = some f ∧ f.shape = e.1

/-- The table has got some shapes, and the actual size counts some. -/
structure Adds (ds ds' : Dataset V) (added counted : List Hypercube) : Prop where
  dataspace : ds'.dataspace = ds.dataspace
  shapes : ds'.shapes = ds.shapes ++ added
  reported : ds'.reported = ds.reported.map (raise ds.dataspace.dim counted)
  leads : Leads ds → Leads ds'

namespace Adds

theorem trans (h : Adds ds₁ ds₂ added counted) (h' : Adds ds₂ ds₃ added' counted') :
    Adds ds₁ ds₃ (added ++ added') (counted ++ counted') := by
  refine ⟨h'.dataspace.trans h.dataspace, ?_, ?_, fun hl => h'.leads (h.leads hl)⟩
  · rw [h'.shapes, h.shapes, List.append_assoc]
  · rw [h'.reported, h.reported, h.dataspace, Option.map_map]
    exact congrArg (Option.map · _) (funext fun _ => raise_append.symm)

theorem after (h' : Adds ds₂ ds₃ added counted) (h : Adds ds₁ ds₂ [] []) :
    Adds ds₁ ds₃ added counted := h.trans h'

theorem actualSize_eq_none (h : Adds ds ds' added counted) (hnone : ds.actualSize = none) :
    ds'.actualSize = none := by
  have hrep := h.reported
  rwa [Dataset.reported, Dataset.reported, hnone, Option.map_none, Option.map_none,
    Option.map_eq_none_iff] at hrep

/-- The table and the actual size stay as they are. -/
theorem of_table (hd : ds'.dataspace = ds.dataspace) (ht : ds'.table = ds.table)
    (ha : ds'.actualSize = ds.actualSize)
    (hf : ∀ (r : ℕ) (f : Fragment V), ds.fragments[r]? = some f →
      ∃ f', ds'.fragments[r]? = some f' ∧ f'.shape = f.shape) :
    Adds ds ds' [] [] := by
  refine ⟨hd, ?_, ?_, fun hl e he => ?_⟩
  · rw [Dataset.shapes, ht, List.append_nil, Dataset.shapes]
  · unfold Dataset.reported
    rw [ha, dims, hd, ← dims, Option.map_map]
    refine congrArg (Option.map · _) (funext fun sizes => ?_)
    rw [Function.comp_apply, raise_nil, List.take_take]
    exact congrArg (List.take · sizes) (min_self _).symm
  · obtain ⟨f, hget, hs⟩ := hl e (ht ▸ he)
    obtain ⟨f', hget', hs'⟩ := hf _ f hget
    exact ⟨f', hget', hs'.trans hs⟩

theorem of_fragments (hd : ds'.dataspace = ds.dataspace) (ht : ds'.table = ds.table)
    (ha : ds'.actualSize = ds.actualSize) (hf : ds'.fragments = ds.fragments) : Adds ds ds' [] [] :=
  of_table hd ht ha fun _ f h => ⟨f, by rw [hf, h], rfl⟩

theorem refl (ds : Dataset V) : Adds ds ds [] [] := of_fragments rfl rfl rfl rfl

theorem setFragment {r : ℕ} {f f' : Fragment V} (hf : ds.fragment r = .ok f)
    (hs : f'.shape = f.shape) : Adds ds (ds.setFragment r f') [] [] := by
  refine of_table rfl rfl rfl fun q g hq => ?_
  have hf := (fragment_eq_ok.1 hf).1
  rcases eq_or_ne r q with rfl | hne
  · obtain rfl := Option.some.inj (hf.symm.trans hq)
    exact ⟨f', List.getElem?_set_self (List.getElem?_eq_some_iff.1 hf).1, hs⟩
  · exact ⟨g, (List.getElem?_set_ne hne).trans hq, rfl⟩

theorem append (ds : Dataset V) (f : Fragment V) :
    Adds ds { ds with fragments := ds.fragments ++ [f] } [] [] :=
  of_table rfl rfl rfl fun _ g hg =>
    ⟨g, (List.getElem?_append_left (List.getElem?_eq_some_iff.1 hg).1).trans hg, rfl⟩

end Adds

theorem updateActualSize_adds (hd : space.dims = ds.dims) :
    Adds ds (ds.updateActualSize space) [] [space.getExtends] := by
  refine ⟨rfl, (List.append_nil _).symm, ?_, fun h => h⟩
  unfold reported updateActualSize
  rw [Option.map_map, Option.map_map]
  refine congrArg (Option.map · _) (funext fun sizes => ?_)
  rw [Function.comp_apply, Function.comp_apply, updated_eq_raise hd]
  exact take_raise.trans raise_take.symm

theorem addFragment_adds (ds : Dataset V) (f : Fragment V) :
    Adds ds (ds.addFragment f) [f.shape] [] := by
  have happend := Adds.append ds f
  refine ⟨rfl, addFragment_shapes f, happend.reported, fun hl e he => ?_⟩
  rcases List.mem_append.1 he with he | he
  · exact happend.leads hl e he
  · obtain rfl := List.mem_singleton.1 he
    exact ⟨f, List.getElem?_concat_length .., rfl⟩

theorem created_adds (hd : space.dims = ds.dims) (buf : Option (Buf V)) :
    Adds ds (ds.created space buf) [space.getExtends] [space.getExtends] := by
  have h := (updateActualSize_adds hd).trans
    (addFragment_adds (ds.updateActualSize space) (newFragment space buf))
  exact h.trans (.of_fragments rfl rfl rfl rfl)

theorem SameTable.adds (h : SameTable ds ds') : Adds ds ds' [] [] :=
  .of_fragments h.dataspace h.table h.actualSize h.fragments

end Adds

section Calls

variable {P : Dataspace → Prop} {S : Axis → Axis → Prop}

theorem Step.adds (hP : ∀ sub, P sub → sub.dims = ds.dims) (h : Step P S ds ds') :
    ∃ added, Adds ds ds' added added := by
  cases h with
  | io h =>
    cases h with
    | update hf hk => exact ⟨_, .setFragment hf hk.shape⟩
    | create hp _ _ => exact ⟨_, created_adds (hP _ hp) _⟩
  | grid h => exact ⟨_, h.sameTable.adds⟩
  | fillValue => exact ⟨_, .of_fragments rfl rfl rfl rfl⟩
  | leave =>
    refine ⟨_, .of_table rfl rfl rfl fun r f hf => ⟨f.leave, ?_, (Fragment.leave_keeps f).shape⟩⟩
    rw [leave_getElem?, hf]
    rfl

/-- A call counts the fragments that it creates. -/
theorem Steps.adds (hP : ∀ sub, P sub → sub.dims = ds.dims) (h : Steps P S ds ds') :
    ∃ added, Adds ds ds' added added := by
  induction h with
  | refl => exact ⟨_, .refl ds⟩
  | tail _ hs ih =>
    obtain ⟨added, hadds⟩ := ih
    have hdims := congrArg Dataspace.dims hadds.dataspace
    obtain ⟨added', hadds'⟩ := hs.adds fun sub hp => (hP sub hp).trans hdims.symm
    exact ⟨_, hadds.trans hadds'⟩

theorem createNewFragment_adds {w w' : Stream.Wstream} (hd : w.dataspace.dims = ds.dims)
    (h : Stream.createNewFragment ds w = .ok (w', ds')) : ∃ added, Adds ds ds' added added := by
  obtain ⟨bounds, hbounds, h⟩ := Outcome.bind_eq_ok.1 h
  obtain ⟨⟨ds₁, r, isNew⟩, hcreate, h⟩ := Outcome.bind_eq_ok.1 h
  obtain ⟨_, -, h⟩ := Outcome.bind_eq_ok.1 h
  obtain ⟨f, hf, h⟩ := Outcome.bind_eq_ok.1 h
  obtain ⟨-, rfl⟩ := Prod.mk.inj (Except.ok.inj h)
  have hset : Adds ds₁ (ds₁.setFragment r { f with backend := some w.backend }) [] [] :=
    .setFragment hf rfl
  obtain ⟨-, rfl, -⟩ | ⟨-, rfl, -⟩ := createFragment_eq_ok hcreate
  · exact ⟨_, hset⟩
  · refine ⟨_, (created_adds ?_ none).trans hset⟩
    have hlen : bounds.length = w.dataspace.dims := by
      rw [← (Outcome.mapM_eq_ok_iff.1 hbounds).length_eq, List.length_range]
    simpa [Dataspace.createFull, Dataspace.dims, hlen] using hd

theorem flush_adds {w w' : Stream.Wstream} {bytes : ℤ} {write : Stream.Write}
    (hd : w.dataspace.dims = ds.dims) (h : Stream.flush ds w bytes = .ok (write, w', ds')) :
    ∃ added, Adds ds ds' added added := by
  obtain ⟨_, -, h⟩ := Outcome.bind_eq_ok.1 h
  obtain ⟨_, -, h⟩ := Outcome.bind_eq_ok.1 h
  dsimp only at h
  split_ifs at h
  · obtain ⟨⟨w₁, ds₁⟩, hnew, h⟩ := Outcome.bind_eq_ok.1 h
    obtain ⟨-, -, rfl⟩ := Prod.mk.inj (Except.ok.inj h)
    refine createNewFragment_adds ?_ hnew
    exact hd
  · obtain ⟨-, -, rfl⟩ := Prod.mk.inj (Except.ok.inj h)
    exact ⟨_, .refl ds⟩

theorem streamCreate_adds {w : Stream.Wstream} {backend : Backend} {maxChunkSize : ℤ}
    {dim : List Dim} {type : ElemType}
    (h : Stream.metadataCreate ds backend maxChunkSize dim type = .ok (w, ds')) :
    ∃ added, Adds ds ds' added added := by
  obtain ⟨_, hd, h⟩ := Outcome.bind_eq_ok.1 h
  obtain ⟨chunks, -, h⟩ := Outcome.bind_eq_ok.1 h
  obtain ⟨fragments, -, h⟩ := Outcome.bind_eq_ok.1 h
  refine createNewFragment_adds ?_ h
  exact (eassert_eq_ok.1 hd).symm

end Calls

section Absorb

variable {accept : Dataset V → Fragment V → Dataset V} {reject : Dataset V → Outcome (Dataset V)}

/-- What both readers of fragment lists do about one description: nothing, or the fragment of the
table that has its shape is destroyed, or a fragment is added. -/
theorem absorbFragments_cons (hr : Rejects reject) (hl : Leads ds) {json : Json} {rest : List Json}
    (h : absorbFragments env accept reject (json :: rest) ds = .ok ds') :
    ∃ ds₁, absorbFragments env accept reject rest ds₁ = .ok ds' ∧ (ds₁ = ds
      ∨ (∃ r f, ds.fragment r = .ok f ∧ ds₁ = ds.setFragment r { f with freed := true })
      ∨ ∃ f : Fragment V, f.status = .notLoaded ∧ f.shape ∉ ds.shapes
        ∧ f.dataspace.dims = ds.dims ∧ ds₁ = accept (ds.addFragment f) f) := by
  rw [absorbFragments] at h
  obtain heq | ⟨s, r, hmem, heq⟩ | ⟨d, b, hparse, -, hnew, heq⟩ :=
    createFragmentFromMetadata_inv env ds json <;> rw [heq] at h
  · obtain ⟨ds₁, hrej, hrest⟩ := Outcome.bind_eq_ok.1 h
    rw [hr _ _ hrej] at hrest
    exact ⟨ds, hrest, .inl rfl⟩
  · -- the table leads to the fragment of the shape, which is destroyed
    obtain ⟨f, hf, hshape⟩ := hl _ hmem
    obtain ⟨⟨status, ds₁⟩, hadd, hdestroy⟩ := Outcome.bind_eq_ok.1 h
    obtain ⟨f', hf', -⟩ := fragmentsAdd_eq_ok hadd
    obtain rfl := Option.some.inj (hf.symm.trans (fragment_eq_ok.1 hf').1)
    rw [fragmentsAdd_of_mem hf' (hshape ▸ mem_shapes.2 ⟨r, hmem⟩)] at hadd
    obtain ⟨rfl, rfl⟩ := Prod.mk.inj (Except.ok.inj hadd)
    dsimp only at hdestroy
    rw [if_pos rfl, fragmentDestroy, hf'] at hdestroy
    exact ⟨_, hdestroy, .inr (.inl ⟨r, f, hf', rfl⟩)⟩
  · have hf : fragment { ds with fragments := ds.fragments ++ [d.fragment env b] }
        ds.fragments.length = .ok (d.fragment env b) :=
      fragment_eq_ok.2 ⟨List.getElem?_concat_length .., rfl⟩
    dsimp only at h
    rw [fragmentsAdd_of_notMem hf hnew, Outcome.ok_bind] at h
    dsimp only at h
    rw [if_neg (by simp)] at h
    obtain ⟨f', hf', h⟩ := Outcome.bind_eq_ok.1 h
    obtain rfl := Except.ok.inj (hf.symm.trans hf')
    exact ⟨_, h, .inr (.inr ⟨d.fragment env b, rfl, hnew, FragmentDescription.parse_dims hparse,
      rfl⟩)⟩

/-- What both readers of fragment lists put into the table, and what they count of it. -/
theorem absorbFragments_adds {counts : Hypercube → List Hypercube}
    (ha : ∀ (ds : Dataset V) (f : Fragment V), f.dataspace.dims = ds.dims →
      Adds ds (accept ds f) [] (counts f.shape)) (hr : Rejects reject) :
    ∀ {list : List Json} {ds : Dataset V}, Leads ds →
      absorbFragments env accept reject list ds = .ok ds' →
      ∃ added, Adds ds ds' added (added.flatMap counts)
  | [], ds, _, h => by
    obtain rfl := Except.ok.inj h
    exact ⟨_, .refl ds⟩
  | json :: rest, ds, hl, h => by
    obtain ⟨ds₁, h, hds₁ | ⟨r, f, hf, rfl⟩ | ⟨f, -, -, hdims, rfl⟩⟩ := absorbFragments_cons hr hl h
    · rw [hds₁] at h
      exact absorbFragments_adds ha hr hl h
    · have hset : Adds ds (ds.setFragment r { f with freed := true }) [] [] := .setFragment hf rfl
      obtain ⟨added, hadds⟩ := absorbFragments_adds ha hr (hset.leads hl) h
      exact ⟨added, hset.trans hadds⟩
    · have hone : Adds ds (accept (ds.addFragment f) f) [f.shape] (counts f.shape) :=
        (addFragment_adds ds f).trans (ha _ f hdims)
      obtain ⟨added, hadds⟩ := absorbFragments_adds ha hr (hone.leads hl) h
      exact ⟨f.shape :: added, hone.trans hadds⟩

theorem openFragments_adds {list : List Json} (hl : Leads ds)
    (h : openFragments env list ds = .ok ds') : ∃ added, Adds ds ds' added added := by
  obtain ⟨added, hadds⟩ : ∃ added, Adds ds ds' added (added.flatMap fun s => [s]) :=
    absorbFragments_adds (fun ds f hd => updateActualSize_adds hd) openFragments_rejects hl h
  exact ⟨added, by rwa [List.flatMap_singleton'] at hadds⟩

theorem receiveFragments_adds {list : List Json} (hl : Leads ds)
    (h : receiveFragments env list ds = .ok ds') : ∃ added, Adds ds ds' added [] := by
  obtain ⟨added, hadds⟩ : ∃ added, Adds ds ds' added (added.flatMap fun _ => []) :=
    absorbFragments_adds (fun ds _ _ => .refl ds) receiveFragments_rejects hl h
  exact ⟨added, by rwa [List.flatMap_eq_nil_iff.2 fun _ _ => rfl] at hadds⟩

end Absorb

section Grids

variable {nested : Json → Dataset V → Outcome (Dataset V × Option ℕ)}

/-- There are more fragments, none of which is dirty, and the table has none of their shapes. -/
structure Appends (ds ds' : Dataset V) : Prop where
  dataspace : ds'.dataspace = ds.dataspace
  table : ds'.table = ds.table
  actualSize : ds'.actualSize = ds.actualSize
  fragments : ∃ more, ds'.fragments = ds.fragments ++ more
    ∧ ∀ f ∈ more, f.status ≠ .dirty ∧ f.shape ∉ ds.shapes

namespace Appends

theorem of_fragments (hd : ds'.dataspace = ds.dataspace) (ht : ds'.table = ds.table)
    (ha : ds'.actualSize = ds.actualSize) (hf : ds'.fragments = ds.fragments) : Appends ds ds' :=
  ⟨hd, ht, ha, [], by rw [hf, List.append_nil], by simp⟩

theorem refl (ds : Dataset V) : Appends ds ds := of_fragments rfl rfl rfl rfl

theorem shapes (h : Appends ds ds') : ds'.shapes = ds.shapes := congrArg (List.map Prod.fst) h.table

theorem trans (h : Appends ds₁ ds₂) (h' : Appends ds₂ ds₃) : Appends ds₁ ds₃ := by
  obtain ⟨more, hmore, hclean⟩ := h.fragments
  obtain ⟨more', hmore', hclean'⟩ := h'.fragments
  rw [h.shapes] at hclean'
  refine ⟨h'.dataspace.trans h.dataspace, h'.table.trans h.table,
    h'.actualSize.trans h.actualSize, more ++ more', ?_, ?_⟩
  · rw [hmore', hmore, List.append_assoc]
  · exact List.forall_mem_append.2 ⟨hclean, hclean'⟩

theorem after (h' : Appends ds₂ ds₃) (h : Appends ds₁ ds₂) : Appends ds₁ ds₃ := h.trans h'

theorem adds (h : Appends ds ds') : Adds ds ds' [] [] := by
  obtain ⟨more, hmore, -⟩ := h.fragments
  refine .of_table h.dataspace h.table h.actualSize fun r f hf => ⟨f, ?_, rfl⟩
  rw [hmore, List.getElem?_append_left (List.getElem?_eq_some_iff.1 hf).1, hf]

end Appends

theorem SameTable.appends (h : SameTable ds ds') : Appends ds ds' :=
  .of_fragments h.dataspace h.table h.actualSize h.fragments

theorem createFragmentFromMetadata_appends (env : Env V) (ds : Dataset V) (json : Json) :
    Appends ds (ds.createFragmentFromMetadata env json).1 := by
  obtain h | ⟨s, r, -, h⟩ | ⟨d, b, -, -, hs, h⟩ := createFragmentFromMetadata_inv env ds json
  · rw [h]
    exact .refl ds
  · rw [h]
    exact .refl ds
  · rw [h]
    exact ⟨rfl, rfl, rfl, [d.fragment env b], rfl, List.forall_mem_singleton.2 ⟨nofun, hs⟩⟩

theorem createCell_appends {cell : Option GridEntry} {json : Json}
    (hn : ∀ {json ds ds' h}, nested json ds = .ok (ds', h) → Appends ds ds')
    (h : createCell env nested json ds = .ok (ds', cell)) : Appends ds ds' := by
  unfold createCell at h
  split at h
  · obtain ⟨rfl, -⟩ := Prod.mk.inj (Except.ok.inj h)
    exact .refl ds
  · obtain ⟨rfl, -⟩ := Prod.mk.inj (Except.ok.inj h)
    exact .refl ds
  · obtain ⟨⟨ds₁, g⟩, hnested, h⟩ := Outcome.bind_eq_ok.1 h
    obtain ⟨rfl, -⟩ := Prod.mk.inj (Except.ok.inj h)
    exact hn hnested
  · split at h
    · obtain ⟨rfl, -⟩ := Prod.mk.inj (Except.ok.inj h)
      exact .refl ds
    · obtain ⟨rfl, -⟩ := Prod.mk.inj (Except.ok.inj h)
      exact createFragmentFromMetadata_appends ..
  · obtain ⟨rfl, -⟩ := Prod.mk.inj (Except.ok.inj h)
    exact .refl ds

theorem createCells_appends
    (hn : ∀ {json ds ds' h}, nested json ds = .ok (ds', h) → Appends ds ds') :
    ∀ {list : List Json} {ds ds' : Dataset V} {cells : Option (List GridEntry)},
      createCells env nested list ds = .ok (ds', cells) → Appends ds ds'
  | [], ds, _, _, h => by
    obtain ⟨rfl, -⟩ := Prod.mk.inj (Except.ok.inj h)
    exact .refl ds
  | json :: rest, ds, _, _, h => by
    rw [createCells] at h
    obtain ⟨⟨ds₁, _ | cell⟩, hcell, h⟩ := Outcome.bind_eq_ok.1 h
    · obtain ⟨rfl, -⟩ := Prod.mk.inj (Except.ok.inj h)
      exact createCell_appends hn hcell
    · obtain ⟨⟨ds₂, cells₁⟩, hrest, h⟩ := Outcome.bind_eq_ok.1 h
      obtain ⟨rfl, -⟩ := Prod.mk.inj (Except.ok.inj h)
      exact (createCell_appends hn hcell).trans (createCells_appends hn hrest)

/-- A grid that is re-created brings fragments along, but enters none into the table. -/
theorem gridCreateFromJson_appends : ∀ {depth : ℕ} {parent : Option ℕ} {json : Json}
    {ds ds' : Dataset V} {g : Option ℕ},
    gridCreateFromJson env depth parent json ds = .ok (ds', g) → Appends ds ds'
  | 0, _, _, _, _, _, h => by cases h
  | depth + 1, parent, json, ds, ds', g, h => by
    rw [gridCreateFromJson] at h
    split at h
    · obtain ⟨rfl, -⟩ := Prod.mk.inj (Except.ok.inj h)
      exact .refl ds
    dsimp only at h
    obtain ⟨⟨ds₁, entries⟩, hcells, h⟩ := Outcome.bind_eq_ok.1 h
    have hds₁ : Appends ds ds₁ :=
      (createCells_appends gridCreateFromJson_appends hcells).after (.of_fragments rfl rfl rfl rfl)
    rcases entries with _ | entries
    · obtain ⟨rfl, -⟩ := Prod.mk.inj (Except.ok.inj h)
      exact hds₁.trans (.of_fragments rfl rfl rfl rfl)
    dsimp only at h
    split_ifs at h
    · obtain ⟨ds₂, hreg, h⟩ := Outcome.bind_eq_ok.1 h
      obtain ⟨rfl, -⟩ := Prod.mk.inj (Except.ok.inj h)
      exact hds₁.trans
        ((registerGridCompletion_sameTable hreg).appends.after (.of_fragments rfl rfl rfl rfl))
    all_goals
      obtain ⟨rfl, -⟩ := Prod.mk.inj (Except.ok.inj h)
      exact hds₁.trans (.of_fragments rfl rfl rfl rfl)

theorem openGrids_appends : ∀ {i : ℕ} {list : List Json} {ds ds' : Dataset V} {opened : Bool},
    openGrids env i list ds = .ok (ds', opened) → Appends ds ds'
  | _, [], ds, _, _, h => by
    obtain ⟨rfl, -⟩ := Prod.mk.inj (Except.ok.inj h)
    exact .refl ds
  | i, json :: list, ds, _, _, h => by
    rw [openGrids] at h
    obtain ⟨⟨ds₁, _ | g⟩, hcreate, h⟩ := Outcome.bind_eq_ok.1 h
    · obtain ⟨rfl, -⟩ := Prod.mk.inj (Except.ok.inj h)
      exact gridCreateFromJson_appends hcreate
    · exact (gridCreateFromJson_appends hcreate).trans
        ((openGrids_appends h).after (.of_fragments rfl rfl rfl rfl))

theorem serializeGrids_sameTable : ∀ {grids : List ℕ} {ds ds' : Dataset V} {json : List Json},
    serializeGrids env grids ds = .ok (ds', json) → SameTable ds ds'
  | [], ds, _, _, h => by
    obtain ⟨rfl, -⟩ := Prod.mk.inj (Except.ok.inj h)
    exact ⟨rfl, rfl, rfl, rfl, rfl, rfl⟩
  | g :: grids, ds, _, _, h => by
    rw [serializeGrids] at h
    obtain ⟨⟨ds₁, json⟩, hgrid, h⟩ := Outcome.bind_eq_ok.1 h
    obtain ⟨⟨ds₂, rest⟩, hrest, h⟩ := Outcome.bind_eq_ok.1 h
    obtain ⟨rfl, -⟩ := Prod.mk.inj (Except.ok.inj h)
    have hsteps : GridSteps (fun _ => True) (fun _ _ => True) ds ds₁ := gridSerialize_steps hgrid
    exact hsteps.sameTable.trans (serializeGrids_sameTable hrest)

theorem commit_adds {stored stored' : Option Metadata}
    (h : ds.commit env stored = .ok (ds', stored')) : Adds ds ds' [] [] := by
  unfold commit at h
  split_ifs at h
  · obtain ⟨rfl, -⟩ := Prod.mk.inj (Except.ok.inj h)
    exact .refl ds
  · obtain ⟨⟨ds₁, metadata⟩, hcreate, h⟩ := Outcome.bind_eq_ok.1 h
    obtain ⟨rfl, -⟩ := Prod.mk.inj (Except.ok.inj h)
    obtain ⟨fragments, -, hcreate⟩ := Outcome.bind_eq_ok.1 hcreate
    obtain ⟨⟨ds₂, grids⟩, hgrids, hcreate⟩ := Outcome.bind_eq_ok.1 hcreate
    obtain ⟨rfl, -⟩ := Prod.mk.inj (Except.ok.inj hcreate)
    exact (serializeGrids_sameTable hgrids).adds.after (.of_fragments rfl rfl rfl rfl)

/-- The fragments of the other ranks are not counted. -/
theorem mpiDatasetCommit_adds {ranks : List (List Json)} {stored stored' : Option Metadata}
    (hl : Leads ds) (h : ds.mpiDatasetCommit env ranks stored = .ok (ds', stored')) :
    ∃ added, Adds ds ds' added [] := by
  obtain ⟨ds₁, hreceive, hcommit⟩ := mpiDatasetCommit_eq_ok.1 h
  obtain ⟨added, hadds⟩ := receiveFragments_adds hl hreceive
  exact ⟨added, by simpa using hadds.trans (commit_adds hcommit)⟩

end Grids

section Sized

variable {sizes : List ℤ} {type : ElemType}

/-- The actual size counts the fragments of the table, if there is an unlimited dimension. -/
def Sized (ds : Dataset V) : Prop :=
  ds.reported = some (extent ds.dataspace.dim ds.shapes)
    ∨ ds.actualSize = none ∧ ∀ d ∈ ds.dataspace.dim, d.size ≠ 0

theorem Sized.exact (h : Sized ds) : SizeExact ds := by
  unfold SizeExact
  rw [getActualSize_eq]
  obtain h | ⟨hnone, hlimited⟩ := h
  · rw [h, Option.getD_some]
  · rw [extent_of_limited hlimited, reported, hnone]
    rfl

theorem Adds.sized (h : Adds ds ds' added added) (hs : Sized ds) : Sized ds' := by
  obtain hs | ⟨hnone, hlimited⟩ := hs
  · refine .inl ?_
    rw [h.reported, hs, h.dataspace, h.shapes, Option.map_some, raise_extent]
  · exact .inr ⟨h.actualSize_eq_none hnone, by rwa [h.dataspace]⟩

/-- No fragment that has come into the table reaches beyond those that it had. -/
def MergesWithin (ds ds' : Dataset V) : Prop :=
  ∀ i d, ds.dataspace.dim[i]? = some d → d.size = 0 → ∀ shape ∈ ds'.shapes, shape ∉ ds.shapes →
    ∀ r, shape[i]? = some r → r.stop ≤ reach ds.shapes i

theorem MergesWithin.refl (ds : Dataset V) : MergesWithin ds ds :=
  fun _ _ _ _ _ hs hn => absurd hs hn

theorem reach_nonneg (shapes : List Hypercube) (i : ℕ) : 0 ≤ reach shapes i :=
  (reach_le_iff.1 le_rfl).1

theorem Adds.mergesWithin_iff (h : Adds ds ds' added counted) : MergesWithin ds ds'
    ↔ extent ds.dataspace.dim ds'.shapes = extent ds.dataspace.dim ds.shapes := by
  rw [h.shapes, extent_append_eq_iff]
  unfold MergesWithin
  refine forall₄_congr fun i d hd h0 => ?_
  rw [reach_le_iff, and_iff_right (reach_nonneg ..), h.shapes]
  refine ⟨fun hm shape hs r hr => ?_, fun hm shape hs hn r hr => ?_⟩
  · by_cases hold : shape ∈ ds.shapes
    · exact (reach_le_iff.1 le_rfl).2 shape hold r hr
    · exact hm shape (List.mem_append_right _ hs) hold r hr
  · exact hm shape ((List.mem_append.1 hs).resolve_left hn) r hr

/-- Fragments that are not counted have to lie within what the others reach. -/
theorem Adds.merges (h : Adds ds ds' added []) (hs : Sized ds) :
    (SizeExact ds' ↔ MergesWithin ds ds') ∧ (SizeExact ds' → Sized ds') := by
  obtain hrep | ⟨hnone, hlimited⟩ := hs
  · have hrep' : ds'.reported = some (extent ds.dataspace.dim ds.shapes) := by
      rw [h.reported, hrep, Option.map_some, raise_extent, List.append_nil]
    have hexact : SizeExact ds'
        ↔ extent ds.dataspace.dim ds'.shapes = extent ds.dataspace.dim ds.shapes := by
      unfold SizeExact
      rw [getActualSize_eq, hrep', Option.getD_some, h.dataspace]
      exact eq_comm
    refine ⟨hexact.trans h.mergesWithin_iff.symm, fun hs => .inl ?_⟩
    rw [hrep', h.dataspace, hexact.1 hs]
  · have hsized : Sized ds' := .inr ⟨h.actualSize_eq_none hnone, by rwa [h.dataspace]⟩
    refine ⟨iff_of_true hsized.exact fun i d hd h0 => ?_, fun _ => hsized⟩
    exact absurd h0 (hlimited d (List.mem_of_getElem? hd))

/-- The dataset takes its sizes from a description. -/
def resized (ds : Dataset V) (sizes : List ℤ) (type : ElemType) : Dataset V :=
  { ds with
    dataspace := .createFull (sizes.map fun size => ⟨0, size⟩) type
    actualSize := if 0 ∈ sizes then some sizes else ds.actualSize }

/-- Nothing is left of an earlier attempt or an earlier use that the new actual size would have to
count, and nothing of an earlier actual size if there is no unlimited dimension any more. -/
structure OpensClean (ds ds' : Dataset V) : Prop where
  unlimited : ∀ i d, ds'.dataspace.dim[i]? = some d → d.size = 0 →
    reach ds.shapes i ≤ reach (ds'.shapes.drop ds.shapes.length) i
  limited : (∀ d ∈ ds'.dataspace.dim, d.size ≠ 0) →
    (ds.actualSize.getD (ds'.dataspace.dim.map Dim.size)).take ds'.dims
      = ds'.dataspace.dim.map Dim.size

theorem resized_sizes : (ds.resized sizes type).dataspace.dim.map Dim.size = sizes :=
  (List.map_map ..).trans (List.map_id sizes)

theorem resized_dims : (ds.resized sizes type).dims = sizes.length := List.length_map ..

/-- With an unlimited dimension, the fragments are counted from the start. -/
theorem Adds.opens_unlimited (h : Adds (ds.resized sizes type) ds' added added) (h0 : 0 ∈ sizes) :
    (SizeExact ds' ↔ OpensClean ds ds') ∧ (SizeExact ds' → Sized ds') := by
  have hshapes : ds'.shapes = ds.shapes ++ added := h.shapes
  have hrep : ds'.reported = some (extent ds'.dataspace.dim added) := by
    rw [h.reported, h.dataspace, extent_eq_raise, resized_sizes, Dataset.reported, resized_dims,
      show (ds.resized sizes type).actualSize = some sizes from if_pos h0, Option.map_some,
      List.take_length, Option.map_some]
  have hexact : SizeExact ds' ↔ ∀ i d, ds'.dataspace.dim[i]? = some d → d.size = 0 →
      reach ds.shapes i ≤ reach added i := by
    unfold SizeExact
    rw [getActualSize_eq, hrep, Option.getD_some, hshapes, extent_append_comm,
      ← extent_append_eq_iff]
    exact eq_comm
  refine ⟨?_, fun hs => .inl ?_⟩
  · have hdrop : ds'.shapes.drop ds.shapes.length = added := by rw [hshapes, List.drop_left]
    rw [hexact]
    refine ⟨fun hr => ⟨by rwa [hdrop], fun hlimited => ?_⟩, fun hc => hdrop ▸ hc.unlimited⟩
    have hdim : ds'.dataspace.dim.map Dim.size = sizes := by rw [h.dataspace, resized_sizes]
    obtain ⟨d, hd, hz⟩ := List.mem_map.1 (hdim ▸ h0)
    exact absurd hz (hlimited d hd)
  · rw [hrep, hshapes, extent_append_comm, extent_append_eq_iff.2 (hexact.1 hs)]

/-- Without one, what is left of an actual size is not touched. -/
theorem Adds.opens_limited (h : Adds (ds.resized sizes type) ds' added added) (h0 : 0 ∉ sizes) :
    (SizeExact ds' ↔ OpensClean ds ds') ∧ (SizeExact ds' → Sized ds') := by
  have hdim : ds'.dataspace.dim.map Dim.size = sizes := by rw [h.dataspace, resized_sizes]
  have hdims : ds'.dims = sizes.length := by rw [dims, h.dataspace, ← dims, resized_dims]
  have hlimited : ∀ d ∈ ds'.dataspace.dim, d.size ≠ 0 := fun d hd hz =>
    h0 (hdim ▸ hz ▸ List.mem_map_of_mem hd)
  have hactual : (ds.resized sizes type).actualSize = ds.actualSize := if_neg h0
  have hrep : ds'.reported = ds.actualSize.map (List.take ds'.dims) := by
    rw [h.reported, Dataset.reported, hactual, resized_dims, ← hdims, Option.map_map, ← h.dataspace]
    refine congrArg (Option.map · _) (funext fun a => ?_)
    rw [Function.comp_apply, raise_of_limited hlimited]
    exact List.take_take.trans (congrArg (List.take · a) (min_self _))
  have hextent : extent ds'.dataspace.dim ds'.shapes = ds'.dataspace.dim.map Dim.size :=
    extent_of_limited hlimited
  have hexact : SizeExact ds' ↔ (ds.actualSize.getD (ds'.dataspace.dim.map Dim.size)).take ds'.dims
      = ds'.dataspace.dim.map Dim.size := by
    unfold SizeExact
    rw [getActualSize_eq, hrep, hextent]
    cases ds.actualSize with
    | none =>
      refine iff_of_true rfl ?_
      exact List.take_of_length_le (List.length_map _).le
    | some a => exact Iff.rfl
  refine ⟨hexact.trans ⟨fun hs => ⟨fun i d hd hz => ?_, fun _ => hs⟩,
    fun hc => hc.limited hlimited⟩, fun hs => ?_⟩
  · exact absurd hz (hlimited d (List.mem_of_getElem? hd))
  · have hs := hexact.1 hs
    rcases ha : ds.actualSize with _ | a
    · exact .inr ⟨h.actualSize_eq_none (hactual.trans ha), hlimited⟩
    · refine .inl ?_
      rw [hrep, hextent, ← hs, ha]
      rfl

end Sized

end Dataset

variable {V A : Type}

namespace DatasetObject

open Dataset (Adds Leads)

variable {d d' : DatasetObject V A} {env : Env V} {description : Description V A}

theorem nameDims_adds {names : List (Option String)} {status : Status}
    (h : d.nameDims names = .ok (status, d')) : Adds d.toDataset d'.toDataset [] [] := by
  unfold nameDims at h
  obtain ⟨names, -, h⟩ := Outcome.bind_eq_ok.1 h
  rcases names with _ | names
  · obtain ⟨-, rfl⟩ := Prod.mk.inj (Except.ok.inj h)
    exact .refl _
  · obtain ⟨-, rfl⟩ := Prod.mk.inj (Except.ok.inj h)
    exact .of_fragments rfl rfl rfl rfl

/-- The part of `openMdParse` that comes after the names of the dimensions. -/
def openContents (env : Env V) (d : DatasetObject V A) (members : Json) (named : Bool) :
    Outcome (Status × DatasetObject V A × Bool) := do
  match members.get "fragments" with
  | none => return (.error, d, named)
  | some fragments =>
    let ds ← Dataset.openFragments env (fragments.elements?.getD []) d.toDataset
    match members.get "grids" >>= Json.elements? with
    | none => return (.error, { d with toDataset := ds }, named)
    | some grids =>
      let (ds, opened) ← Dataset.openGrids env 0 grids
        { ds with grids := [], gridCount := 0, incompleteGridCount := 0 }
      if opened then
        return (.success, { d with toDataset := { ds with status := .persistent } }, named)
      else return (.error, { d with toDataset := ds }, named)

/-- The part that comes after the sizes of the dimensions, of which there are `dims`. -/
def openNamed (env : Env V) (d : DatasetObject V A) (members : Json) (dims : ℤ) :
    Outcome (Status × DatasetObject V A × Bool) := do
  let names := members.get "dims_dset_id"
  let elements := (names >>= Json.elements?).getD []
  if names.isSome ∧ (elements.length : ℤ) ≠ dims then return (.error, d, false)
  else if names.isSome then
    let (named, d) ← d.nameDims (elements.map Json.str?)
    openContents env d members (decide (named = .success))
  else openContents env d members false

/-- The dataset takes its sizes, its id and what the metadata library reads from a description. -/
def described (d : DatasetObject V A) (description : Description V A) (id : String)
    (sizes : List ℤ) : DatasetObject V A :=
  { d with
    dataspace := .createFull (sizes.map fun size => ⟨0, size⟩) description.type
    fillValue := description.fillValue <|> d.fillValue
    actualSize := if 0 ∈ sizes then some sizes else d.actualSize
    id := id
    attr := some description.attr }

theorem openMdParse_of_sizes {id : String} {sizes : List ℤ} {dims : ℤ}
    (hid : (description.members.get "id" >>= Json.str?) = some id)
    (hdims : (description.members.get "dims" >>= Json.int?).getD 0 = dims)
    (hsizes : parseSizes description.members dims = .ok (some sizes)) :
    d.openMdParse env description
      = openNamed env (d.described description id sizes) description.members dims := by
  unfold openMdParse openNamed
  dsimp only
  rw [hid, access_some, Outcome.ok_bind, hdims, hsizes, Outcome.ok_bind]
  rfl

theorem openMdParse_eq_ok {status : Status} {named : Bool}
    (h : d.openMdParse env description = .ok (status, d', named)) :
    (status = .error ∧ d'.toDataset = { d.toDataset with fillValue := d'.fillValue })
      ∨ ∃ id sizes dims, openNamed env (d.described description id sizes) description.members dims
        = .ok (status, d', named) := by
  have heq := h
  unfold openMdParse at h
  obtain ⟨id, hid, h⟩ := Outcome.bind_eq_ok.1 h
  obtain ⟨sizes, hsizes, h⟩ := Outcome.bind_eq_ok.1 h
  rcases sizes with _ | sizes
  · cases h
    exact .inl ⟨rfl, rfl⟩
  · rw [openMdParse_of_sizes (access_eq_ok.1 hid) rfl hsizes] at heq
    exact .inr ⟨id, sizes, _, heq⟩

/-- The names are put into the dataset if there are any, and then come the contents. -/
theorem openNamed_eq_ok {members : Json} {dims : ℤ} {status : Status} {named : Bool}
    (h : openNamed env d members dims = .ok (status, d', named)) :
    (status = .error ∧ d' = d) ∨ ∃ x named₁, openContents env x members named₁
        = .ok (status, d', named)
      ∧ (x = d ∨ ∃ names status₁, d.nameDims names = .ok (status₁, x)) := by
  unfold openNamed at h
  dsimp only at h
  split_ifs at h
  · cases h
    exact .inl ⟨rfl, rfl⟩
  · obtain ⟨⟨status₁, x⟩, hnamed, h⟩ := Outcome.bind_eq_ok.1 h
    exact .inr ⟨x, _, h, .inr ⟨_, status₁, hnamed⟩⟩
  · exact .inr ⟨d, _, h, .inl rfl⟩

/-- The fragments are read, and then the grids; what has been read stays if one cannot be. -/
theorem openContents_eq_ok {members : Json} {status : Status} {named named' : Bool}
    (h : openContents env d members named = .ok (status, d', named')) :
    (status = .error ∧ d' = d) ∨ ∃ list ds, Dataset.openFragments env list d.toDataset = .ok ds
      ∧ ((status = .error ∧ d' = { d with toDataset := ds })
        ∨ ∃ grids ds' opened, Dataset.openGrids env 0 grids
            { ds with grids := [], gridCount := 0, incompleteGridCount := 0 } = .ok (ds', opened)
          ∧ ((status = .error ∧ d' = { d with toDataset := ds' })
            ∨ d' = { d with toDataset := { ds' with status := .persistent } })) := by
  unfold openContents at h
  split at h
  · cases h
    exact .inl ⟨rfl, rfl⟩
  obtain ⟨ds, hfragments, h⟩ := Outcome.bind_eq_ok.1 h
  refine .inr ⟨_, ds, hfragments, ?_⟩
  split at h
  · cases h
    exact .inl ⟨rfl, rfl⟩
  obtain ⟨⟨ds', opened⟩, hgrids, h⟩ := Outcome.bind_eq_ok.1 h
  refine .inr ⟨_, ds', opened, hgrids, ?_⟩
  dsimp only at h
  split_ifs at h
  · cases h
    exact .inr rfl
  · cases h
    exact .inl ⟨rfl, rfl⟩

theorem openContents_adds {members : Json} {status : Status} {named named' : Bool}
    (hl : Leads d.toDataset) (h : openContents env d members named = .ok (status, d', named')) :
    ∃ added, Adds d.toDataset d'.toDataset added added := by
  obtain ⟨-, rfl⟩ | ⟨list, ds, hfragments, h⟩ := openContents_eq_ok h
  · exact ⟨_, .refl _⟩
  obtain ⟨added, hadds⟩ := Dataset.openFragments_adds hl hfragments
  obtain ⟨-, rfl⟩ | ⟨grids, ds', opened, hgrids, h⟩ := h
  · exact ⟨_, hadds⟩
  have hgrids : Adds ds ds' [] [] :=
    (Dataset.openGrids_appends hgrids).adds.after (.of_fragments rfl rfl rfl rfl)
  have hds' : Adds d.toDataset ds' added added := by simpa using hadds.trans hgrids
  obtain ⟨-, rfl⟩ | rfl := h
  · exact ⟨_, hds'⟩
  · have hpersistent := hds'.trans (.of_fragments rfl rfl rfl rfl :
      Adds ds' { ds' with status := .persistent } [] [])
    exact ⟨added, by simpa using hpersistent⟩

/-- A description that has sizes is read into a dataset of these sizes, and what is read of its
fragments is counted. -/
theorem openMdParse_adds {status : Status} {named : Bool} (hl : Leads d.toDataset)
    (h : d.openMdParse env description = .ok (status, d', named)) :
    (Leads d'.toDataset ∧ d'.status = d.status)
      ∨ ∃ sizes added,
        Adds (d.toDataset.resized sizes description.type) d'.toDataset added added := by
  obtain ⟨-, heq⟩ | ⟨id, sizes, dims, h⟩ := openMdParse_eq_ok h
  · refine .inl ?_
    rw [heq]
    exact ⟨hl, rfl⟩
  refine .inr ⟨sizes, ?_⟩
  have hresized : Adds (d.toDataset.resized sizes description.type)
      (d.described description id sizes).toDataset [] [] := .of_fragments rfl rfl rfl rfl
  obtain ⟨-, rfl⟩ | ⟨x, named₁, h, hx⟩ := openNamed_eq_ok h
  · exact ⟨_, hresized⟩
  have hadds : Adds (d.toDataset.resized sizes description.type) x.toDataset [] [] := by
    obtain rfl | ⟨names, status₁, hnamed⟩ := hx
    · exact hresized
    · exact hresized.trans (nameDims_adds hnamed)
  obtain ⟨added, hx⟩ := openContents_adds (hadds.leads hl) h
  exact ⟨added, hx.after hadds⟩

end DatasetObject

theorem Dataset.destroyFragments_status {ds' : Dataset V} :
    ∀ {entries : List (Hypercube × ℕ)} {ds : Dataset V},
      ds.destroyFragments entries = .ok ds' → ds'.status = ds.status
  | [], _, h => by
    cases h
    rfl
  | (_, r) :: entries, ds, h => by
    unfold destroyFragments at h
    obtain ⟨f, -, h⟩ := Outcome.bind_eq_ok.1 h
    obtain ⟨ds₁, hd, h⟩ := Outcome.bind_eq_ok.1 h
    obtain ⟨_, -, h⟩ := Outcome.bind_eq_ok.1 h
    obtain ⟨f', -, rfl⟩ := fragmentDestroy_eq_ok hd
    exact (destroyFragments_status h).trans rfl

namespace Session

open Dataset (Adds Leads MergesWithin OpensClean SizeExact Sized)

variable {s s' : Session V A} {op : Op V A} {ds ds' : Dataset V} {d : ℕ} {m m' : Member V A}

/-- The sizes that are reported for the open datasets are those that their fragments give. -/
def Exact (s : Session V A) : Prop :=
  ∀ (d : ℕ) (m : Member V A), s.container.members[d]? = some m → m.status ≠ .notLoaded →
    SizeExact m.toDataset

/-- What has to be the case as a call does not see to it: fragments of other ranks lie within the
reach of rank 0's, and a dataset that is opened is as it was created or closed. -/
def Op.Counts : Op V A → Dataset V → Dataset V → Prop
  | .mpiDatasetCommit _ _ _, ds, ds' => MergesWithin ds ds'
  | .open _ _ _ _, ds, ds' => ds.status = .notLoaded → OpensClean ds ds'
  | _, _, _ => True

/-- This is the case for all datasets that are open after the call. -/
def Counts (s : Session V A) (op : Op V A) (s' : Session V A) : Prop :=
  ∀ (d : ℕ) (m m' : Member V A), s.container.members[d]? = some m →
    s'.container.members[d]? = some m' → m'.status ≠ .notLoaded →
    op.Counts m.toDataset m'.toDataset

/-- What holds between the calls. -/
def Tracks (ds : Dataset V) : Prop := Leads ds ∧ (ds.status ≠ .notLoaded → Sized ds)

/-- A call reports the sizes of a dataset exactly if what it does not see to is the case. -/
structure Keeps (op : Op V A) (ds ds' : Dataset V) : Prop where
  leads : Leads ds'
  exact_iff : ds'.status ≠ .notLoaded → (SizeExact ds' ↔ op.Counts ds ds')
  sized : ds'.status ≠ .notLoaded → SizeExact ds' → Sized ds'

theorem Tracks.refl (h : Tracks ds) (op : Op V A) : Keeps op ds ds := by
  refine ⟨h.1, fun hloaded => iff_of_true (h.2 hloaded).exact ?_, fun hloaded _ => h.2 hloaded⟩
  cases op with
  | mpiDatasetCommit => exact .refl ds
  | «open» => exact fun hstatus => absurd hstatus hloaded
  | _ => trivial

theorem Tracks.adds (h : Tracks ds) (hloaded : ds.status ≠ .notLoaded) {added : List Hypercube}
    (hadds : Adds ds ds' added added) (hop : op.Counts ds ds') : Keeps op ds ds' := by
  have hsized := hadds.sized (h.2 hloaded)
  exact ⟨hadds.leads h.1, fun _ => iff_of_true hsized.exact hop, fun _ _ => hsized⟩

/-- What a call does to the datasets: nothing, or it changes one or adds one. -/
inductive Effect (op : Op V A) (members : List (Member V A)) : List (Member V A) → Prop
  | same : Effect op members members
  | set {d : ℕ} {m m' : Member V A} (hm : members[d]? = some m)
      (h : Keeps op m.toDataset m'.toDataset) : Effect op members (members.set d m')
  | add {m : Member V A} (hl : Leads m.toDataset) (hs : Sized m.toDataset) :
      Effect op members (members ++ [m])

theorem Effect.keeps {members members' : List (Member V A)} (h : Effect op members members')
    (ht : ∀ m ∈ members, Tracks m.toDataset) (hm' : members'[d]? = some m') :
    (∃ m, members[d]? = some m ∧ Keeps op m.toDataset m'.toDataset)
      ∨ (members[d]? = none ∧ Leads m'.toDataset ∧ Sized m'.toDataset) := by
  cases h with
  | same => exact .inl ⟨m', hm', (ht m' (List.mem_of_getElem? hm')).refl op⟩
  | @set i m m₁ hm h =>
    rcases eq_or_ne i d with rfl | hne
    · rw [List.getElem?_set_self (List.getElem?_eq_some_iff.1 hm).1] at hm'
      obtain rfl := Option.some.inj hm'
      exact .inl ⟨m, hm, h⟩
    · rw [List.getElem?_set_ne hne] at hm'
      exact .inl ⟨m', hm', (ht m' (List.mem_of_getElem? hm')).refl op⟩
  | @add m hl hs =>
    rcases lt_or_ge d members.length with hlt | hge
    · rw [List.getElem?_append_left hlt] at hm'
      exact .inl ⟨m', hm', (ht m' (List.mem_of_getElem? hm')).refl op⟩
    · rw [List.getElem?_append_right hge] at hm'
      obtain rfl := List.mem_singleton.1 (List.mem_of_getElem? hm')
      exact .inr ⟨List.getElem?_eq_none hge, hl, hs⟩

/-- All datasets are as they should be between the calls. -/
def Tracked (s : Session V A) : Prop := ∀ m ∈ s.container.members, Tracks m.toDataset

theorem Effect.exact_iff (h : Effect op s.container.members s'.container.members)
    (ht : Tracked s) : (s'.Exact ↔ s.Counts op s') ∧ (s'.Exact → Tracked s') := by
  refine ⟨⟨fun he d m m' hm hm' hloaded => ?_, fun hc d m' hm' hloaded => ?_⟩, fun he m' hmem => ?_⟩
  · obtain ⟨m₁, hm₁, hk⟩ | ⟨hnone, -⟩ := h.keeps ht hm'
    · obtain rfl := Option.some.inj (hm.symm.trans hm₁)
      exact (hk.exact_iff hloaded).1 (he d m' hm' hloaded)
    · rw [hm] at hnone
      cases hnone
  · obtain ⟨m, hm, hk⟩ | ⟨-, -, hs⟩ := h.keeps ht hm'
    · exact (hk.exact_iff hloaded).2 (hc d m m' hm hm' hloaded)
    · exact hs.exact
  · obtain ⟨d, hm'⟩ := List.getElem?_of_mem hmem
    obtain ⟨m, hm, hk⟩ | ⟨-, hl, hs⟩ := h.keeps ht hm'
    · exact ⟨hk.leads, fun hloaded => hk.sized hloaded (he d m' hm' hloaded)⟩
    · exact ⟨hl, fun _ => hs⟩

section Effects

variable {c c' : Container V A} {env : Env V} {status : Status} {name : String}

theorem init_sized (dataspace : Dataspace) (fillValue : Option V) :
    Leads (.init dataspace fillValue : Dataset V)
      ∧ Sized (.init dataspace fillValue : Dataset V) := by
  refine ⟨fun e he => absurd he List.not_mem_nil, ?_⟩
  by_cases h : ∃ d ∈ dataspace.dim, d.size = 0
  · refine .inl ?_
    have hactual : (.init dataspace fillValue : Dataset V).actualSize
        = some (dataspace.dim.map Dim.size) := if_pos h
    rw [Dataset.reported, hactual, Option.map_some]
    exact congrArg some ((List.take_of_length_le (List.length_map _).le).trans extent_nil.symm)
  · exact .inr ⟨if_neg h, fun d hd h0 => h ⟨d, hd, h0⟩⟩

theorem datasetCreate_effect {dataspace : Dataspace} {created : Status} {id : String}
    (h : c.datasetCreate name dataspace created id = .ok (status, c')) (op : Op V A) :
    Effect op c.members c'.members := by
  unfold Container.datasetCreate at h
  obtain ⟨_, -, h⟩ := Except.bind_eq_ok.1 h
  split at h
  · cases h
    exact .same
  obtain ⟨found, -, h⟩ := Except.bind_eq_ok.1 h
  split_ifs at h
  · cases h
    exact .same
  · cases h
    exact .same
  · cases h
    obtain ⟨hl, hs⟩ : Leads (.init dataspace none : Dataset V) ∧ _ := init_sized dataspace none
    exact .add hl hs

theorem openMdParse_keeps {object object' : DatasetObject V A} {description : Description V A}
    {retrieved : Status} {named : Bool} (hl : Leads object.toDataset)
    (hstatus : object.status = .notLoaded)
    (h : object.openMdParse env description = .ok (status, object', named)) :
    Keeps (.open env name retrieved description) object.toDataset object'.toDataset := by
  obtain ⟨hl', hs⟩ | ⟨sizes, added, hadds⟩ := DatasetObject.openMdParse_adds hl h
  · exact ⟨hl', fun hloaded => absurd (hs.trans hstatus) hloaded,
      fun hloaded => absurd (hs.trans hstatus) hloaded⟩
  · have hopens : (SizeExact object'.toDataset ↔ OpensClean object.toDataset object'.toDataset)
        ∧ (SizeExact object'.toDataset → Sized object'.toDataset) := by
      by_cases h0 : 0 ∈ sizes
      · exact hadds.opens_unlimited h0
      · exact hadds.opens_limited h0
    refine ⟨hadds.leads hl, fun _ => hopens.1.trans ?_, fun _ => hopens.2⟩
    exact ⟨fun hc _ => hc, fun hc => hc hstatus⟩

theorem datasetOpen_effect {retrieved : Status} {description : Description V A}
    (ht : ∀ m ∈ c.members, Tracks m.toDataset)
    (h : c.datasetOpen env name retrieved description = .ok (status, c')) :
    Effect (.open env name retrieved description) c.members c'.members := by
  unfold Container.datasetOpen at h
  obtain ⟨found, -, h⟩ := Except.bind_eq_ok.1 h
  split at h
  · rename_i d
    unfold Container.datasetRef at h
    obtain ⟨m, hm, h⟩ := Except.bind_eq_ok.1 h
    have hm := (Container.member_eq_ok.1 hm).1
    have htracks := ht m (List.mem_of_getElem? hm)
    split_ifs at h with hloaded hretrieved
    · cases h
      exact .set hm (htracks.refl _)
    · cases h
      exact .same
    obtain ⟨_, -, h⟩ := Except.bind_eq_ok.1 h
    obtain ⟨⟨parsed, object, marked⟩, hparse, h⟩ := Except.bind_eq_ok.1 h
    have hk : Keeps (.open env name retrieved description) m.toDataset object.toDataset :=
      openMdParse_keeps htracks.1 (not_not.1 hloaded) (Outcome.within_eq_ok.1 hparse)
    dsimp only at h
    split_ifs at h
    all_goals
      cases h
      exact .set hm hk
  · cases h
    exact .same

theorem datasetClose_effect (ht : ∀ m ∈ c.members, Tracks m.toDataset)
    (h : c.datasetClose env d = .ok (status, c')) (op : Op V A) :
    Effect op c.members c'.members := by
  unfold Container.datasetClose at h
  obtain ⟨m, hm, h⟩ := Except.bind_eq_ok.1 h
  have hm := (Container.member_eq_ok.1 hm).1
  obtain ⟨_, -, h⟩ := Except.bind_eq_ok.1 h
  obtain ⟨_, -, h⟩ := Except.bind_eq_ok.1 h
  dsimp only at h
  split_ifs at h
  · cases h
    exact .set hm ((ht m (List.mem_of_getElem? hm)).refl op)
  · obtain ⟨m', hp, h⟩ := Except.bind_eq_ok.1 h
    cases h
    obtain ⟨-, ds, hremove, rfl⟩ := Container.purge_eq_ok hp
    obtain ⟨ds₁, hdestroy, hremove⟩ := Outcome.bind_eq_ok.1 hremove
    obtain rfl := Except.ok.inj hremove
    have hstatus := Dataset.destroyFragments_status hdestroy
    exact .set hm ⟨fun e he => absurd he List.not_mem_nil, fun hl => absurd hstatus hl,
      fun hl => absurd hstatus hl⟩

theorem dataset_eq_ok (h : s.dataset d = .ok m) :
    s.container.members[d]? = some m ∧ m.status ≠ .notLoaded := by
  obtain ⟨m₁, hm, h⟩ := Except.bind_eq_ok.1 h
  obtain ⟨_, -, h⟩ := Except.bind_eq_ok.1 h
  split_ifs at h with hs
  obtain rfl := Except.ok.inj h
  exact ⟨(Container.member_eq_ok.1 hm).1, hs⟩

end Effects

theorem step_effect (ht : Tracked s) (h : s.step op = .ok s') :
    Effect op s.container.members s'.container.members := by
  cases op with
  | create name dataspace created id =>
    obtain ⟨⟨status, c'⟩, hcreate, h⟩ := Except.bind_eq_ok.1 h
    obtain rfl := Except.ok.inj h
    exact datasetCreate_effect hcreate _
  | «open» env name retrieved description =>
    obtain ⟨⟨status, c'⟩, hopen, h⟩ := Except.bind_eq_ok.1 h
    obtain rfl := Except.ok.inj h
    exact datasetOpen_effect ht hopen
  | close env d =>
    obtain ⟨⟨status, c'⟩, hclose, h⟩ := Except.bind_eq_ok.1 h
    obtain rfl := Except.ok.inj h
    exact datasetClose_effect ht hclose _
  | call d call =>
    obtain ⟨m, hm, h⟩ := Except.bind_eq_ok.1 h
    obtain ⟨result, hstep, h⟩ := Except.bind_eq_ok.1 h
    obtain rfl := Except.ok.inj h
    obtain ⟨hm, hloaded⟩ := dataset_eq_ok hm
    obtain ⟨added, hadds⟩ := (Dataset.step_steps (Outcome.within_eq_ok.1 hstep)).adds
      fun _ => Op.Writes.dims
    exact .set hm ((ht m (List.mem_of_getElem? hm)).adds hloaded hadds trivial)
  | streamCreate d backend maxChunkSize dim type =>
    obtain ⟨m, hm, h⟩ := Except.bind_eq_ok.1 h
    obtain ⟨⟨w, ds⟩, hcreate, h⟩ := Except.bind_eq_ok.1 h
    obtain rfl := Except.ok.inj h
    obtain ⟨hm, hloaded⟩ := dataset_eq_ok hm
    obtain ⟨added, hadds⟩ := Dataset.streamCreate_adds (Outcome.within_eq_ok.1 hcreate)
    exact .set hm ((ht m (List.mem_of_getElem? hm)).adds hloaded hadds trivial)
  | streamFlush i bytes =>
    obtain ⟨⟨d, w⟩, -, h⟩ := Except.bind_eq_ok.1 h
    obtain ⟨m, hm, h⟩ := Except.bind_eq_ok.1 h
    dsimp only at h
    split_ifs at h with hdims
    obtain ⟨⟨write, w', ds⟩, hflush, h⟩ := Except.bind_eq_ok.1 h
    obtain rfl := Except.ok.inj h
    obtain ⟨hm, hloaded⟩ := dataset_eq_ok hm
    obtain ⟨added, hadds⟩ := Dataset.flush_adds (not_not.1 hdims) (Outcome.within_eq_ok.1 hflush)
    exact .set hm ((ht m (List.mem_of_getElem? hm)).adds hloaded hadds trivial)
  | mpiDatasetCommit env d ranks =>
    obtain ⟨m, hm, h⟩ := Except.bind_eq_ok.1 h
    obtain ⟨⟨ds, stored⟩, hcommit, h⟩ := Except.bind_eq_ok.1 h
    obtain rfl := Except.ok.inj h
    obtain ⟨hm, hloaded⟩ := dataset_eq_ok hm
    obtain ⟨hl, hs⟩ := ht m (List.mem_of_getElem? hm)
    obtain ⟨added, hadds⟩ := Dataset.mpiDatasetCommit_adds hl (Outcome.within_eq_ok.1 hcommit)
    obtain ⟨hiff, hsized⟩ := hadds.merges (hs hloaded)
    exact .set hm ⟨hadds.leads hl, fun _ => hiff, fun _ => hsized⟩

theorem start_tracked (stored : Option (List (String × String))) :
    Tracked (start stored : Session V A) := by
  cases stored with
  | none => exact fun m hm => absurd hm List.not_mem_nil
  | some references =>
    intro m hm
    obtain ⟨⟨name, id⟩, -, rfl⟩ := List.mem_map.1 hm
    exact ⟨fun e he => absurd he List.not_mem_nil, fun hloaded => absurd rfl hloaded⟩

theorem Tracked.exact (h : Tracked s) : s.Exact :=
  fun _ m hm hloaded => ((h m (List.mem_of_getElem? hm)).2 hloaded).exact

/-- In all states of a run the reported sizes are those that the fragments give, exactly if each
collective commit merges fragments that lie within the reach of those of rank 0, and each dataset
is opened as it was created or closed. -/
theorem run_exact_iff (stored : Option (List (String × String))) (ops : List (Op V A)) :
    ((start stored : Session V A).Exact
        ∧ machine.EachStep (fun _ _ s' => s'.Exact) (start stored) ops)
      ↔ machine.EachStep Counts (start stored : Session V A) ops := by
  have ht := start_tracked (V := V) (A := A) stored
  refine ⟨fun h => ?_, fun h => ⟨ht.exact, ?_⟩⟩
  · refine Machine.EachStep.of_invariant (I := Tracked) (fun ht hexact hstep => ?_) ht h.2
    obtain ⟨hiff, htracked⟩ := (step_effect ht hstep).exact_iff ht
    exact ⟨htracked hexact, hiff.1 hexact⟩
  · refine Machine.EachStep.of_invariant (I := Tracked) (fun ht hcounts hstep => ?_) ht h
    obtain ⟨hiff, htracked⟩ := (step_effect ht hstep).exact_iff ht
    exact ⟨htracked (hiff.2 hcounts), hiff.2 hcounts⟩

/-- Rank 0 has written nothing to the unlimited dimension, and commits an element of another
rank. -/
theorem run_not_exact : ∃ s : Session ℤ ℤ,
    machine.run (start none)
      [.create "d" (.createFull [⟨0, 0⟩] (.basic .int64)) .success "id",
        .mpiDatasetCommit (.calm 0) 0 [[Dataset.elementDescription 0]]] = .ok s
      ∧ ¬ s.Exact := by
  refine ⟨_, rfl, fun h => ?_⟩
  have h := h 0 _ rfl (by decide)
  revert h
  unfold SizeExact
  decide

end Session

end Esdm
