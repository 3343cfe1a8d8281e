import Esdm.Proofs.MpiCommit
import Esdm.Proofs.Moves
import Esdm.Tracking

/-!
# Dirty tracking

A commit stores the description of a dataset that is dirty, and nothing otherwise.  So the
description that is stored is the current one while each call that changes the description marks
the dataset as dirty, and no commit fails (`run_faithful`).  The fill value, an attribute that is
deleted, a name that is not valid, a grid that is completed by a fragment that exists and the stride
of a fragment that is unpacked are changed without the mark, and a commit takes the mark away before
it knows how it ends (`step_faithful_iff`).
-/

namespace Esdm

variable {V A : Type}

theorem Dataspace.serialize_eq_iff {space space' : Dataspace} (hd : space'.dim = space.dim) :
    space'.serialize = space.serialize ↔ space'.stride = space.stride := by
  have hget : ∀ space : Dataspace, space.serialize.get "stride" = space.stride.map Json.ints := by
    intro space
    rcases hs : space.stride with _ | stride <;> simp [serialize, hs]
  refine ⟨fun h => ?_, fun h => by rw [serialize, serialize, hd, h]⟩
  have hints : Function.Injective Json.ints := fun l l' hl => by
    simpa using congrArg Json.ints? hl
  exact Option.map_injective hints ((hget _).symm.trans ((congrArg (Json.get "stride") h).trans
    (hget _)))

/-- The description of a fragment changes only with its stride. -/
theorem Fragment.Keeps.metadataCreate_iff {f f' : Fragment V} (hk : f.Keeps f') {json : Json}
    (h : f.metadataCreate = .ok json) :
    f'.metadataCreate = .ok json ↔ f'.dataspace.stride = f.dataspace.stride := by
  obtain ⟨id, b, hid, hb, rfl⟩ := metadataCreate_eq_ok h
  rw [← Dataspace.serialize_eq_iff hk.dim]
  simp [metadataCreate, hk.id id hid, hk.backend b hb, hk.actualBytes]

namespace Dataset

variable {ds ds' y y' : Dataset V} {env : Env V} {md : Metadata}

section Describe

/-- Each fragment is described in its turn. -/
theorem describe_eq_ok_iff : ∀ {entries : List (Hypercube × ℕ)} {list : List Json},
    ds.describe entries = .ok list ↔ List.Forall₂ (fun e json =>
      ∃ f, ds.fragment e.2 = .ok f ∧ f.metadataCreate = .ok json) entries list
  | [], list => by
    rw [List.forall₂_nil_left_iff]
    exact ⟨fun h => (Except.ok.inj h).symm, fun h => h ▸ rfl⟩
  | (s, r) :: entries, list => by
    rw [List.forall₂_cons_left_iff, describe]
    simp only [Outcome.bind_eq_ok, ← describe_eq_ok_iff]
    constructor
    · rintro ⟨f, hf, json, hjson, rest, hrest, h⟩
      exact ⟨json, rest, ⟨f, hf, hjson⟩, hrest, (Except.ok.inj h).symm⟩
    · rintro ⟨json, rest, ⟨f, hf, hjson⟩, hrest, rfl⟩
      exact ⟨f, hf, json, hjson, rest, hrest, rfl⟩

/-- The fragments of the table have the strides that they had. -/
def SameStrides (ds ds' : Dataset V) : Prop :=
  ∀ e ∈ ds.table, ∀ f f', ds.fragment e.2 = .ok f → ds'.fragment e.2 = .ok f' →
    f'.dataspace.stride = f.dataspace.stride

/-- The table is described in the same way exactly if the strides are the same. -/
theorem Moves.describe_iff (hm : Moves ds ds') {list : List Json}
    (h : ds.fragmentsMetadataCreate env = .ok list) :
    ds'.fragmentsMetadataCreate env = .ok list ↔ SameStrides ds ds' := by
  have hperm := env.order_perm ds.table
  rw [fragmentsMetadataCreate, describe_eq_ok_iff] at h
  rw [fragmentsMetadataCreate, describe_eq_ok_iff, hm.table]
  have hiff : ∀ (e : Hypercube × ℕ) (json : Json),
      (∃ f, ds.fragment e.2 = .ok f ∧ f.metadataCreate = .ok json) →
      ((∃ f', ds'.fragment e.2 = .ok f' ∧ f'.metadataCreate = .ok json)
        ↔ ∀ f f', ds.fragment e.2 = .ok f → ds'.fragment e.2 = .ok f' →
          f'.dataspace.stride = f.dataspace.stride) := by
    rintro e json ⟨f, hf, hjson⟩
    obtain ⟨f', hf', hk⟩ := hm.fragment e.2 f hf
    simp only [hf, hf', Except.ok.injEq, exists_eq_left', hk.metadataCreate_iff hjson]
    exact ⟨fun h _ _ hf hf' => hf ▸ hf' ▸ h, fun h => h f f' rfl rfl⟩
  unfold SameStrides
  rw [← forall_congr' fun e => imp_congr_left hperm.mem_iff]
  clear hperm
  generalize env.order ds.table = entries at h ⊢
  induction h with
  | nil => simp
  | @cons e json entries list he _ ih =>
    rw [List.forall₂_cons, List.forall_mem_cons]
    exact and_congr (hiff e json he) ih

end Describe

section Grids

/-- The grids that are done, and the fragments of the table, which are all that they have. -/
theorem Moves.extends (hI : Inv ds) (hG : Grid.Geometry ds.table ds.gridHeap) (hm : Moves ds ds')
    (hs : SameStrides ds ds') :
    Extends {k | ∃ grid, ds.gridHeap[k]? = some grid ∧ grid.done = true}
      {r | ∃ s, (s, r) ∈ ds.table} ds ds' where
  length := hm.length
  heap := by
    rintro k ⟨grid, hk, hd⟩
    rw [hk, hm.heap k grid hk hd]
  nested := by
    rintro k ⟨grid, hk, hd⟩ grid' hk' h hh
    obtain rfl := Option.some.inj (hk.symm.trans hk')
    obtain ⟨cs, hcs, c, hc, hsub⟩ := Grid.mem_subgrids.1 hh
    obtain ⟨cs', hcs', -, hdone⟩ := hI.grids.forest.cellDone_of_done hk hd
    obtain rfl := Option.some.inj (hcs.symm.trans hcs')
    rcases hI.grids.forest.cellDone_cases hk hcs hc (hdone c hc) with
      ⟨r, hr⟩ | ⟨-, h', sub, hsub', -, hget, hsd⟩
    · have hexclusive := (hI.grids.forest.node hk).exclusive cs hcs c hc
      simp [hsub, hr] at hexclusive
    · obtain rfl := Option.some.inj (hsub.symm.trans hsub')
      exact ⟨sub, hget, hsd⟩
  cells := by
    rintro k - grid cs c r hk hcs hc hr
    obtain ⟨i, hi, rfl⟩ := List.getElem_of_mem hc
    obtain ⟨-, index, cube, -, -, hmem⟩ :=
      (hG.cells k grid cs i _ hk hcs (List.getElem?_eq_getElem hi)).fragment r hr
    exact ⟨cube, hmem⟩
  fragment := by
    rintro r ⟨s, hmem⟩ f json hf hjson
    obtain ⟨f', hf', hk⟩ := hm.fragment r f hf
    exact ⟨f', hf', (hk.metadataCreate_iff hjson).2 (hs _ hmem f f' hf hf')⟩

theorem serializeGrids_length : ∀ {grids : List ℕ} {ds y : Dataset V} {list : List Json},
    serializeGrids env grids ds = .ok (y, list) → list.length = grids.length
  | [], _, _, _, h => by
    obtain ⟨-, rfl⟩ := Prod.mk.inj (Except.ok.inj h)
    rfl
  | g :: grids, _, _, _, h => by
    rw [serializeGrids] at h
    obtain ⟨⟨z, j⟩, -, h⟩ := Outcome.bind_eq_ok.1 h
    obtain ⟨⟨u, js⟩, hu, h⟩ := Outcome.bind_eq_ok.1 h
    obtain ⟨-, rfl⟩ := Prod.mk.inj (Except.ok.inj h)
    rw [List.length_cons, List.length_cons, serializeGrids_length hu]

theorem metadataCreate_eq_ok : ds.metadataCreate env = .ok (y, md)
    ↔ ds.fragmentsMetadataCreate env = .ok md.fragments
      ∧ serializeGrids env (ds.grids.take ds.gridCount) ds = .ok (y, md.grids) := by
  unfold metadataCreate
  simp only [Outcome.bind_eq_ok]
  constructor
  · rintro ⟨fragments, hfragments, ⟨ds₁, grids⟩, hgrids, h⟩
    obtain ⟨rfl, rfl⟩ := Prod.mk.inj (Except.ok.inj h)
    exact ⟨hfragments, hgrids⟩
  · rintro ⟨hfragments, hgrids⟩
    exact ⟨_, hfragments, _, hgrids, rfl⟩

theorem Inv.length_take (hI : Inv ds) : (ds.grids.take ds.gridCount).length = ds.gridCount := by
  rw [List.length_take, hI.grids.listed.length]
  omega

/-- A dataset whose data has been moved about is described as before exactly if no grid has been
completed and no stride has changed. -/
theorem Moves.metadataCreate_iff (hI : Inv ds) (hI' : Inv ds')
    (hG : Grid.Geometry ds.table ds.gridHeap) (hm : Moves ds ds')
    (h : ds.metadataCreate env = .ok (y, md)) :
    (∃ y', ds'.metadataCreate env = .ok (y', md))
      ↔ ds'.gridCount = ds.gridCount ∧ SameStrides ds ds' := by
  obtain ⟨hfragments, hgrids⟩ := metadataCreate_eq_ok.1 h
  constructor
  · rintro ⟨y', h'⟩
    obtain ⟨hfragments', hgrids'⟩ := metadataCreate_eq_ok.1 h'
    refine ⟨?_, (hm.describe_iff hfragments).1 hfragments'⟩
    rw [← hI.length_take, ← hI'.length_take, ← serializeGrids_length hgrids,
      serializeGrids_length hgrids']
  · rintro ⟨hcount, hs⟩
    obtain ⟨hlist, -⟩ : ds'.grids = ds.grids ∧ ds'.gridCount = ds.gridCount :=
      hm.grids.resolve_right (by omega)
    have hdone : ∀ g ∈ ds.grids.take ds.gridCount,
        ∃ grid, ds.gridHeap[g]? = some grid ∧ grid.done = true := by
      intro g hg
      have hmem := List.mem_of_mem_take hg
      have hget := List.getElem?_eq_getElem (hI.grids.listed.valid g hmem)
      exact ⟨_, hget, (hI.grids.listed.complete hget hmem).1 hg⟩
    obtain ⟨y', hy', -⟩ := serializeGrids_stable env hdone hgrids (hm.extends hI hG hs)
    refine ⟨y', metadataCreate_eq_ok.2 ⟨(hm.describe_iff hfragments).2 hs, ?_⟩⟩
    rw [hlist, hcount]
    exact hy'

end Grids

section Returns

variable {result : Result V} {space : Memspace} {buf : Mem V} {g : ℕ}

theorem fragment_leave_stride {r : ℕ} {f f' : Fragment V} (hf : ds.fragment r = .ok f)
    (hf' : ds.leave.fragment r = .ok f') : f'.dataspace.stride = f.dataspace.stride := by
  obtain ⟨hget, -⟩ := fragment_eq_ok.1 hf
  obtain ⟨hget', -⟩ := fragment_eq_ok.1 hf'
  rw [leave_getElem?, hget, Option.map_some] at hget'
  obtain rfl := Option.some.inj hget'
  exact f.leave_stride

theorem sameStrides_leave (h : ds'.fragments = ds.fragments) : SameStrides ds ds'.leave := by
  intro e _ f f' hf hf'
  rw [fragment, ← h, ← fragment] at hf
  exact fragment_leave_stride hf hf'

theorem step_write_dirty_or (h : ds.step ⟨env, .write space buf⟩ = .ok result) :
    result.dataset.status = .dirty ∨ (Moves ds result.dataset
      ∧ result.dataset.gridCount = ds.gridCount ∧ SameStrides ds result.dataset) := by
  obtain ⟨_, -, h⟩ := Outcome.bind_eq_ok.1 h
  obtain ⟨ds', hx, hres⟩ := returns_eq_ok h
  rw [hres]
  rcases writeBlocking_eq_or_dirty hx with rfl | hd
  · exact .inr ⟨.leave _, rfl, sameStrides_leave rfl⟩
  · exact .inl hd

theorem step_writeGrid_dirty_or (hI : Inv ds)
    (h : ds.step ⟨env, .writeGrid g space buf⟩ = .ok result) :
    result.dataset.status = .dirty ∨ (Moves ds result.dataset ∧ SameStrides ds result.dataset
      ∧ (result.dataset.gridCount = ds.gridCount ∨ Completing ds g space.toDataspace)) := by
  obtain ⟨_, -, h⟩ := Outcome.bind_eq_ok.1 h
  obtain ⟨ds', hx, hres⟩ := returns_eq_ok h
  rw [hres]
  rcases writeGrid_changes hI.grids hx with hd | ⟨hm, hf, hcount⟩
  · exact .inl hd
  · exact .inr ⟨hm.trans (.leave _), sameStrides_leave hf, hcount⟩

theorem step_readGrid_dirty_or (hI : Inv ds) (hG : Grid.Geometry ds.table ds.gridHeap)
    (h : ds.step ⟨env, .readGrid g space buf⟩ = .ok result) :
    result.dataset.status = .dirty ∨ (Moves ds result.dataset
      ∧ (SameStrides ds result.dataset ∨ ∃ r f, ReadingGrid env ds g space.toDataspace r
        ∧ ds.fragment r = .ok f ∧ Unpacks f space.toDataspace)
      ∧ (result.dataset.gridCount = ds.gridCount ∨ Completing ds g space.toDataspace)) := by
  obtain ⟨_, hd, h⟩ := Outcome.bind_eq_ok.1 h
  obtain ⟨buffer, ds', hx, hres⟩ := returnsBuffer_eq_ok h
  rw [hres]
  rcases readGrid_changes hI hG space.size_pos (eassert_eq_ok.1 hd) hx with hd | ⟨hm, hs, hcount⟩
  · exact .inl hd
  refine .inr ⟨hm.trans (.leave _), ?_, hcount⟩
  by_cases hu : ∃ r f, ReadingGrid env ds g space.toDataspace r ∧ ds.fragment r = .ok f
      ∧ Unpacks f space.toDataspace
  · exact .inr hu
  · refine .inl fun e _ f f' hf hf' => ?_
    obtain ⟨f₁, hf₁, -⟩ := hm.fragment e.2 f hf
    rcases hs e.2 f f₁ hf hf₁ with hstride | ⟨hr, hunpacks⟩
    · exact (fragment_leave_stride hf₁ hf').trans hstride
    · exact absurd ⟨e.2, f, hr, hf, hunpacks⟩ hu

end Returns

section Again

theorem serializeCells_of_describes {nested : ℕ → Dataset V → Outcome (Dataset V × Json)}
    {D : ℕ → Json → Prop} (hn : ∀ h json, D h json → nested h ds = .ok (ds, json))
    {cs : List GridEntry} {cells : List Json} (h : List.Forall₂ (DescribesCell ds D) cs cells) :
    serializeCells nested cs ds = .ok (ds, cells) := by
  induction h with
  | nil => rfl
  | @cons c json cs cells hc _ ih =>
    have hcell : serializeCell nested c ds = .ok (ds, json) := by
      obtain ⟨h, j, rfl, hj, rfl⟩ | ⟨r, f, j, rfl, hf, hj, rfl⟩ | ⟨rfl, rfl⟩ := hc
      · simp [serializeCell, eassert_of, hn h j hj]
      · obtain ⟨id, _, hid, -⟩ := Fragment.metadataCreate_eq_ok hj
        simp [serializeCell, eassert_of, hf, hid, hj]
      · simp [serializeCell, eassert_of]
    rw [serializeCells, hcell, Outcome.ok_bind]
    dsimp only
    rw [ih]
    rfl

/-- A grid that has been written down is written down in the same way again. -/
theorem Describes.gridSerialize (hfull : CellsFull ds) : ∀ {n g : ℕ} {json : Json},
    Describes ds n g json → gridSerialize env n g ds = .ok (ds, json)
  | n + 1, g, json, ⟨grid, id, cs, cells, hg, hid, hcs, hjson, hcells⟩ => by
    have hfix : fixStructure env g grid = .ok grid := by
      obtain ⟨parent, _, emptyCells, _, axes⟩ := grid
      subst hid hcs
      rfl
    have htake : cs.take grid.cellCount.toNat = cs := by
      rw [← hfull g grid cs hg hcs, Int.toNat_natCast, List.take_length]
    have hnested : ∀ h j, Describes ds n h j → Dataset.gridSerialize env n h ds = .ok (ds, j) :=
      fun h j hj => hj.gridSerialize hfull
    rw [Dataset.gridSerialize, grid_eq_ok.2 hg, Outcome.ok_bind, hfix, Outcome.ok_bind]
    dsimp only
    rw [setGrid_self hg, hid, access_some, Outcome.ok_bind, hcs, access_some, Outcome.ok_bind,
      htake, serializeCells_of_describes hnested hcells, hjson]
    rfl

theorem serializeGrids_describes : ∀ {grids : List ℕ} {ds y : Dataset V} {list : List Json},
    CellsFull ds → serializeGrids env grids ds = .ok (y, list) →
    Fixes ds y ∧ List.Forall₂ (Describes y ds.gridHeap.length) grids list
  | [], ds, y, list, _, h => by
    obtain ⟨rfl, rfl⟩ := Prod.mk.inj (Except.ok.inj h)
    exact ⟨.refl ds, .nil⟩
  | g :: grids, ds, y, list, hfull, h => by
    rw [serializeGrids] at h
    obtain ⟨⟨z, j⟩, hz, h⟩ := Outcome.bind_eq_ok.1 h
    obtain ⟨⟨u, js⟩, hu, h⟩ := Outcome.bind_eq_ok.1 h
    obtain ⟨rfl, rfl⟩ := Prod.mk.inj (Except.ok.inj h)
    obtain ⟨hfix, hj⟩ := gridSerialize_describes hfull hz
    obtain ⟨hfix', hjs⟩ := serializeGrids_describes (hfull.fixes hfix) hu
    rw [hfix.length] at hjs
    exact ⟨hfix.trans hfix', .cons (hj.fixes hfix') hjs⟩

theorem serializeGrids_of_describes (hfull : CellsFull ds) {grids : List ℕ} {list : List Json}
    (h : List.Forall₂ (Describes ds ds.gridHeap.length) grids list) :
    serializeGrids env grids ds = .ok (ds, list) := by
  induction h with
  | nil => rfl
  | cons hj _ ih =>
    rw [serializeGrids, hj.gridSerialize hfull, Outcome.ok_bind]
    dsimp only
    rw [ih]
    rfl

/-- Neither the status nor the fill value matters. -/
theorem Inv.relabel (hI : Inv ds) (status : DataStatus) (fillValue : Option V) :
    Inv { ds with status, fillValue } := by
  have hL := hI.grids.listed
  exact ⟨⟨hI.table.nodup, hI.table.live⟩, hI.shapes, hI.grids.forest, hL.top, hL.valid, hL.nodup,
    hL.length, hL.complete⟩

theorem Inv.cellsFull (hI : Inv ds) : CellsFull ds := fun _ _ cs hk hcs =>
  (hI.grids.forest.node hk).length cs hcs

theorem metadataCreate_fixes (hI : Inv ds) (h : ds.metadataCreate env = .ok (y, md)) :
    Fixes ds y :=
  (serializeGrids_describes hI.cellsFull (metadataCreate_eq_ok.1 h).2).1

/-- A dataset that has been described is described in the same way again. -/
theorem metadataCreate_again (hI : Inv ds) (h : ds.metadataCreate env = .ok (y, md)) :
    y.metadataCreate env = .ok (y, md) := by
  obtain ⟨hfragments, hgrids⟩ := metadataCreate_eq_ok.1 h
  obtain ⟨hfix, hdescribes⟩ := serializeGrids_describes hI.cellsFull hgrids
  have heq := hfix.eq
  refine metadataCreate_eq_ok.2 ⟨?_, ?_⟩
  · have htable : y.table = ds.table := by rw [heq]
    rw [fragmentsMetadataCreate, describe_eq_ok_iff] at hfragments ⊢
    simpa only [htable, hfix.fragment] using hfragments
  · have hroots : y.grids.take y.gridCount = ds.grids.take ds.gridCount := by rw [heq]
    rw [hroots]
    exact serializeGrids_of_describes (hI.cellsFull.fixes hfix) (hfix.length ▸ hdescribes)

/-- Describing a dataset takes it through steps that change its grids only. -/
theorem metadataCreate_steps (h : ds.metadataCreate env = .ok (y, md)) :
    GridSteps (fun _ => False) (fun _ _ => False) ds y := by
  obtain ⟨-, hgrids⟩ := metadataCreate_eq_ok.1 h
  revert hgrids
  generalize ds.grids.take ds.gridCount = grids
  generalize md.grids = list
  clear h
  intro hgrids
  induction grids generalizing ds list with
  | nil =>
    obtain ⟨rfl, -⟩ := Prod.mk.inj (Except.ok.inj hgrids)
    exact .refl
  | cons g grids ih =>
    obtain ⟨⟨z, j⟩, hz, hgrids⟩ := Outcome.bind_eq_ok.1 hgrids
    obtain ⟨⟨u, js⟩, hu, hgrids⟩ := Outcome.bind_eq_ok.1 hgrids
    obtain ⟨rfl, -⟩ := Prod.mk.inj (Except.ok.inj hgrids)
    exact (gridSerialize_steps hz).trans (ih js hu)

end Again

end Dataset

namespace DatasetObject

open Dataset (Inv Moves SameStrides)

variable {env : Env V} {d d' d₁ : DatasetObject V A} {description : Description V A}

theorem metadataCreate_eq_ok : d.metadataCreate env = .ok (d', description)
    ↔ ∃ attr header y md, d.attr = some attr ∧ d.header = .ok header
      ∧ d.toDataset.metadataCreate env = .ok (y, md) ∧ d' = { d with toDataset := y }
      ∧ description = ⟨attr, d.fillValue, d.dataspace.type, .obj (header
        ++ [("fragments", .arr md.fragments), ("grids", .arr md.grids)])⟩ := by
  unfold metadataCreate
  simp only [Outcome.bind_eq_ok, access_eq_ok]
  constructor
  · rintro ⟨attr, hattr, header, hheader, ⟨y, md⟩, hmd, h⟩
    obtain ⟨rfl, rfl⟩ := Prod.mk.inj (Except.ok.inj h)
    exact ⟨attr, header, y, md, hattr, hheader, hmd, rfl, rfl⟩
  · rintro ⟨attr, header, y, md, hattr, hheader, hmd, rfl, rfl⟩
    exact ⟨attr, hattr, header, hheader, (y, md), hmd, rfl⟩

/-- The header of a dataset whose dimensions have names. -/
theorem header_eq_ok {names : List String} (hn : d.dimNames = some names)
    {header : List (String × Json)} : d.header = .ok header
      ↔ ∃ l, List.Forall₂ (fun i name => names[i]? = some name) (List.range d.dims) l
        ∧ header = [("id", .str d.id), ("dims", .int d.dims)]
          ++ (if d.dims = 0 then [] else [("size", .ints (d.dataspace.dim.map Dim.size))])
          ++ [("dims_dset_id", .arr (l.map .str))] := by
  unfold DatasetObject.header
  simp only [hn, Outcome.bind_eq_ok, Outcome.mapM_eq_ok_iff, access_eq_ok]
  constructor
  · rintro ⟨l, hl, _, hmember, h⟩
    obtain rfl := Except.ok.inj hmember
    exact ⟨l, hl, (Except.ok.inj h).symm⟩
  · rintro ⟨l, hl, rfl⟩
    exact ⟨l, hl, _, rfl, rfl⟩

/-- The data of the dataset has been moved about. -/
theorem metadataCreate_moves_iff {ds : Dataset V} (hI : Inv d.toDataset) (hI' : Inv ds)
    (hG : Grid.Geometry d.table d.gridHeap) (hm : Moves d.toDataset ds)
    (h : d.metadataCreate env = .ok (d₁, description)) :
    (∃ d₂, metadataCreate env { d with toDataset := ds } = .ok (d₂, description))
      ↔ ds.gridCount = d.gridCount ∧ SameStrides d.toDataset ds := by
  obtain ⟨attr, header, y, md, hattr, hheader, hmd, -, rfl⟩ := metadataCreate_eq_ok.1 h
  have hheader' : DatasetObject.header { d with toDataset := ds } = .ok header := by
    rw [← hheader]
    unfold DatasetObject.header Dataset.dims
    rw [hm.dataspace]
  rw [← hm.metadataCreate_iff hI hI' hG hmd]
  constructor
  · rintro ⟨d₂, h₂⟩
    obtain ⟨attr', header', y', md', -, hh, hmd', -, heq⟩ := metadataCreate_eq_ok.1 h₂
    obtain rfl := Except.ok.inj (hheader'.symm.trans hh)
    have hmembers := List.append_cancel_left (Json.obj.inj (Description.mk.inj heq).2.2.2)
    obtain ⟨fragments, grids⟩ := md
    obtain ⟨rfl, rfl⟩ : fragments = md'.fragments ∧ grids = md'.grids := by simpa using hmembers
    exact ⟨y', hmd'⟩
  · rintro ⟨y', hmd'⟩
    refine ⟨_, metadataCreate_eq_ok.2 ⟨attr, header, y', md, hattr, hheader', hmd', rfl, ?_⟩⟩
    simp only [hm.fillValue, hm.dataspace]

theorem metadataCreate_setFillValue_iff {value : Option V}
    (h : d.metadataCreate env = .ok (d₁, description)) :
    (∃ d₂, metadataCreate env (d.setFillValue value) = .ok (d₂, description))
      ↔ value = d.fillValue := by
  constructor
  · rintro ⟨d₂, h₂⟩
    obtain ⟨_, _, _, _, -, -, -, -, rfl⟩ := metadataCreate_eq_ok.1 h
    obtain ⟨_, _, _, _, -, -, -, -, heq⟩ := metadataCreate_eq_ok.1 h₂
    exact (Description.mk.inj heq).2.1.symm
  · rintro rfl
    exact ⟨d₁, h⟩

theorem metadataCreate_attr_iff {attr attr' : List (String × A)} (hattr : d.attr = some attr)
    (h : d.metadataCreate env = .ok (d₁, description)) :
    (∃ d₂, metadataCreate env { d with attr := some attr' } = .ok (d₂, description))
      ↔ attr' = attr := by
  constructor
  · rintro ⟨d₂, h₂⟩
    obtain ⟨_, _, _, _, ha, -, -, -, rfl⟩ := metadataCreate_eq_ok.1 h
    obtain ⟨_, _, _, _, ha₂, -, -, -, heq⟩ := metadataCreate_eq_ok.1 h₂
    obtain rfl := Option.some.inj (hattr.symm.trans ha)
    obtain rfl := Option.some.inj ha₂
    exact (Description.mk.inj heq).1.symm
  · rintro rfl
    rw [← hattr]
    exact ⟨d₁, h⟩

theorem metadataCreate_dimNames_iff {names : List String} {name : String} {i : ℕ}
    (hi : i < d.dims) (hn : d.dimNames = some names)
    (h : d.metadataCreate env = .ok (d₁, description)) :
    (∃ d₂, metadataCreate env { d with dimNames := some (names.set i name) }
        = .ok (d₂, description)) ↔ names[i]? = some name := by
  constructor
  · rintro ⟨d₂, h₂⟩
    obtain ⟨_, _, _, _, -, hh, -, -, rfl⟩ := metadataCreate_eq_ok.1 h
    obtain ⟨_, _, _, _, -, hh₂, -, -, heq⟩ := metadataCreate_eq_ok.1 h₂
    obtain ⟨l, hl, rfl⟩ := (header_eq_ok hn).1 hh
    obtain ⟨l₂, hl₂, rfl⟩ := (header_eq_ok rfl).1 hh₂
    have hheader := (List.append_inj' (Json.obj.inj (Description.mk.inj heq).2.2.2) rfl).1
    have hnames := List.append_cancel_left hheader
    obtain rfl : l = l₂ := by
      have hstr : Function.Injective Json.str := fun _ _ => Json.str.inj
      exact (List.map_injective_iff.2 hstr) (by simpa using hnames)
    have hlen : i < l.length := by rwa [← hl.length_eq, List.length_range]
    have hold : names[i]? = some (l.get ⟨i, hlen⟩) := by simpa using hl.get (by simpa) hlen
    have hnew : (names.set i name)[i]? = some (l.get ⟨i, hlen⟩) := by
      simpa using hl₂.get (by simpa) hlen
    obtain ⟨hlt, -⟩ := List.getElem?_eq_some_iff.1 hold
    rw [List.getElem?_set_self hlt] at hnew
    exact hold.trans hnew.symm
  · intro hname
    obtain ⟨hlt, rfl⟩ := List.getElem?_eq_some_iff.1 hname
    rw [List.set_getElem_self hlt, ← hn]
    exact ⟨d₁, h⟩

/-- A dataset that has been described is described in the same way again. -/
theorem metadataCreate_again (hI : Inv d.toDataset)
    (h : d.metadataCreate env = .ok (d', description)) :
    d'.status = d.status ∧ d'.metadataCreate env = .ok (d', description) := by
  obtain ⟨attr, header, y, md, hattr, hheader, hmd, rfl, rfl⟩ := metadataCreate_eq_ok.1 h
  have heq := (Dataset.metadataCreate_fixes hI hmd).eq
  have hspace : y.dataspace = d.dataspace := by rw [heq]
  have hfill : y.fillValue = d.fillValue := by rw [heq]
  refine ⟨by rw [heq], metadataCreate_eq_ok.2 ⟨attr, header, y, md, hattr, ?_,
    Dataset.metadataCreate_again hI hmd, rfl, ?_⟩⟩
  · rw [← hheader]
    unfold DatasetObject.header Dataset.dims
    rw [hspace]
  · rw [hspace, hfill]

/-- The check ends at a name that is not valid. -/
theorem exists_of_validNames_eq_none : ∀ {names : List (Option String)},
    validNames names = .ok none → ∃ name, some name ∈ names ∧ isValidDatasetName name = false
  | [], h => absurd (Except.ok.inj h) nofun
  | name :: names, h => by
    obtain ⟨text, htext, hcheck⟩ := Outcome.bind_eq_ok.1 h
    obtain rfl := access_eq_ok.1 htext
    split_ifs at hcheck with hvalid
    · obtain ⟨rest, hrest, hmap⟩ := Outcome.bind_eq_ok.1 hcheck
      have hnone : rest = none := Option.map_eq_none_iff.1 (Except.ok.inj hmap)
      obtain ⟨name, hmem, hname⟩ := exists_of_validNames_eq_none (hnone ▸ hrest)
      exact ⟨name, List.mem_cons_of_mem _ hmem, hname⟩
    · exact ⟨text, List.mem_cons_self, Bool.eq_false_of_not_eq_true hvalid⟩

theorem nameDims_eq_ok {names : List (Option String)} {status : Status}
    (h : d.nameDims names = .ok (status, d')) :
    (d' = d ∧ ∃ name, some name ∈ names ∧ isValidDatasetName name = false)
      ∨ ∃ names, d' = { d with dimNames := some names, status := .dirty } := by
  obtain ⟨valid, hvalid, h⟩ := Outcome.bind_eq_ok.1 h
  cases valid with
  | none =>
    obtain ⟨name, hmem, hname⟩ := exists_of_validNames_eq_none hvalid
    obtain ⟨i, -, hi⟩ := List.mem_map.1 hmem
    refine .inl ⟨(Prod.mk.inj (Except.ok.inj h)).2.symm, name, ?_, hname⟩
    exact List.mem_of_getElem? (Option.join_eq_some_iff.1 hi)
  | some names => exact .inr ⟨names, (Prod.mk.inj (Except.ok.inj h)).2.symm⟩

theorem renameDim_eq_ok {name : String} {i : ℕ} {status : Status}
    (h : d.renameDim name i = .ok (status, d')) : ∃ names, d.dimNames = some names ∧ i < d.dims
      ∧ ((d' = { d with dimNames := some (names.set i name) }
          ∧ ∃ n ∈ names.set i name, isValidDatasetName n = false)
        ∨ ∃ names, d' = { d with dimNames := some names, status := .dirty }) := by
  obtain ⟨_, hi, h⟩ := Outcome.bind_eq_ok.1 h
  obtain ⟨names, hnames, h⟩ := Outcome.bind_eq_ok.1 h
  refine ⟨names, access_eq_ok.1 hnames, eassert_eq_ok.1 hi, ?_⟩
  rcases nameDims_eq_ok h with ⟨hd', n, hmem, hn⟩ | hd'
  · obtain ⟨n', hn', heq⟩ := List.mem_map.1 hmem
    obtain rfl := Option.some.inj heq
    exact .inl ⟨hd', n', hn', hn⟩
  · exact .inr hd'

theorem linkAttribute_eq_ok {overwrite : Bool} {name : String} {value : A} {status : Status}
    (h : d.linkAttribute overwrite name value = .ok (status, d')) :
    ∃ attr, d' = { d with attr, status := .dirty } := by
  obtain ⟨attr, -, h⟩ := Outcome.bind_eq_ok.1 h
  split_ifs at h
  all_goals exact ⟨_, (Prod.mk.inj (Except.ok.inj h)).2.symm⟩

theorem deleteAttribute_eq_ok {name : String} {status : Status}
    (h : d.deleteAttribute name = .ok (status, d')) : ∃ attr, d.attr = some attr
      ∧ d' = { d with attr := some (attr.eraseP fun a => a.1 = name) } := by
  obtain ⟨attr, hattr, h⟩ := Outcome.bind_eq_ok.1 h
  refine ⟨attr, access_eq_ok.1 hattr, ?_⟩
  split_ifs at h with hany
  · exact (Prod.mk.inj (Except.ok.inj h)).2.symm
  · have hnone : ∀ a ∈ attr, ¬ decide (a.1 = name) = true := fun a ha hname =>
      hany (List.any_eq_true.2 ⟨a, ha, hname⟩)
    rw [List.eraseP_of_forall_not hnone, ← access_eq_ok.1 hattr]
    exact (Prod.mk.inj (Except.ok.inj h)).2.symm

end DatasetObject

namespace Tracked

open Dataset (Inv Moves SameStrides Completing ReadingGrid Unpacks)

variable {env : Env V} {s : Tracked V A} {op : Op V A} {r : Status × Tracked V A}

/-- What `esdmI_dataset_metadata_create` would produce now has been stored. -/
def Current (env : Env V) (s : Tracked V A) : Prop :=
  ∃ d description, s.object.metadataCreate env = .ok (d, description)
    ∧ s.stored = some description

/-- A dataset that is persistent has been stored as it is.  A commit that returns a success has
stored the dataset, and one that fails can be retried. -/
structure Faithful (env : Env V) (op : Op V A) (r : Status × Tracked V A) : Prop where
  current : r.2.object.status = .persistent → Current env r.2
  committed : ∀ ret, op = .commit ret → r.1 = .success → Current env r.2
  retried : ∀ ret, op = .commit ret → r.1 ≠ .success → r.2.object.status = .dirty

/-- The call marks the dataset as dirty, or it has changed nothing that is stored; and what a commit
stores does not fail. -/
def Tracks (s : Tracked V A) : Op V A → Status × Tracked V A → Prop
  | .writeGrid .., r =>
    r.2.object.status = .dirty ∨ r.2.object.gridCount = s.object.gridCount
  | .readGrid .., r => r.2.object.status = .dirty ∨ (r.2.object.gridCount = s.object.gridCount
      ∧ SameStrides s.object.toDataset r.2.object.toDataset)
  | .deleteAttribute name, r => r.2.object.status = .dirty
      ∨ ∀ attr, s.object.attr = some attr → ∀ a ∈ attr, a.1 ≠ name
  | .setFillValue value, r => r.2.object.status = .dirty ∨ value = s.object.fillValue
  | .renameDim name i, r => r.2.object.status = .dirty
      ∨ ∀ names, s.object.dimNames = some names → names[i]? = some name
  | .commit ret, _ => s.object.status = .dirty → ret = .success
  | .write .., _ | .linkAttribute .., _ | .nameDims .., _ => True

/-- What holds before a call that is noticed: the dataset is dirty already, or the call does nothing
that goes without the mark. -/
def Noticed (s : Tracked V A) : Op V A → Prop
  | .writeGrid _ g space _ => s.object.status = .dirty
      ∨ ¬ Completing s.object.toDataset g space.toDataspace
  | .readGrid env g space _ => s.object.status = .dirty
      ∨ (¬ Completing s.object.toDataset g space.toDataspace
        ∧ ∀ r f, ReadingGrid env s.object.toDataset g space.toDataspace r →
          s.object.fragment r = .ok f → ¬ Unpacks f space.toDataspace)
  | .deleteAttribute name => s.object.status = .dirty
      ∨ ∀ attr, s.object.attr = some attr → ∀ a ∈ attr, a.1 ≠ name
  | .setFillValue value => s.object.status = .dirty ∨ value = s.object.fillValue
  | .renameDim name i => s.object.status = .dirty
      ∨ ∀ names, s.object.dimNames = some names → names[i]? = some name
        ∨ ∀ n ∈ names.set i name, isValidDatasetName n = true
  | .commit ret => s.object.status = .dirty → ret = .success
  | .write .. | .linkAttribute .. | .nameDims .. => True

/-- A dataset that is loaded, with a table and grids that are as they should be. -/
structure Regular (s : Tracked V A) : Prop where
  inv : Inv s.object.toDataset
  geometry : Grid.Geometry s.object.table s.object.gridHeap
  loaded : s.object.status = .dirty ∨ s.object.status = .persistent

section Step

theorem call_eq_ok {c : Call V} (h : s.call c = .ok r) :
    ∃ result, s.object.toDataset.step c = .ok result
      ∧ r = (result.status, ⟨{ s.object with toDataset := result.dataset }, s.stored⟩) := by
  obtain ⟨result, hstep, h⟩ := Outcome.bind_eq_ok.1 h
  exact ⟨result, hstep, (Except.ok.inj h).symm⟩

theorem change_eq_ok {x : Outcome (Status × DatasetObject V A)} (h : s.change x = .ok r) :
    ∃ object, x = .ok (r.1, object) ∧ r = (r.1, ⟨object, s.stored⟩) := by
  obtain ⟨⟨status, object⟩, hx, h⟩ := Outcome.bind_eq_ok.1 h
  obtain rfl := Except.ok.inj h
  exact ⟨object, hx, rfl⟩

theorem commit_eq_ok {ret : Status} (h : s.step env (.commit ret) = .ok r) :
    (s.object.status ≠ .dirty ∧ r = (.success, s))
      ∨ ∃ d description, s.object.status = .dirty
        ∧ DatasetObject.metadataCreate env { s.object with status := .persistent }
          = .ok (d, description)
        ∧ r = (ret, ⟨d, if ret = .success then some description else s.stored⟩) := by
  obtain ⟨⟨status, object, stored⟩, hc, h⟩ := Outcome.bind_eq_ok.1 h
  obtain rfl := Except.ok.inj h
  unfold DatasetObject.commit at hc
  split at hc
  · rename_i hd
    obtain ⟨rfl, hpair⟩ := Prod.mk.inj (Except.ok.inj hc)
    obtain ⟨rfl, rfl⟩ := Prod.mk.inj hpair
    exact .inl ⟨hd, rfl⟩
  · rename_i hd
    obtain ⟨⟨d, description⟩, hmd, hc⟩ := Outcome.bind_eq_ok.1 hc
    obtain ⟨rfl, hpair⟩ := Prod.mk.inj (Except.ok.inj hc)
    obtain ⟨rfl, rfl⟩ := Prod.mk.inj hpair
    exact .inr ⟨d, description, not_not.1 hd, hmd, rfl⟩

theorem faithful_iff (hop : ∀ ret, op ≠ .commit ret) :
    Faithful env op r ↔ (r.2.object.status = .persistent → Current env r.2) :=
  ⟨fun h => h.current, fun h => ⟨h, fun ret hc => absurd hc (hop ret),
    fun ret hc => absurd hc (hop ret)⟩⟩

/-- A call that has changed the dataset, of which it is known when it is described as before. -/
theorem current_iff {x : DatasetObject V A} {P : Prop}
    (hl : s.object.status = .dirty ∨ s.object.status = .persistent)
    (hcur : s.object.status = .persistent → Current env s)
    (hx : x.status = .dirty ∨ (x.status = s.object.status ∧ ∀ d description,
      s.object.metadataCreate env = .ok (d, description) →
      ((∃ d', x.metadataCreate env = .ok (d', description)) ↔ P))) :
    (x.status = .persistent → Current env ⟨x, s.stored⟩) ↔ x.status = .dirty ∨ P := by
  rcases hx with hd | ⟨hst, hx⟩
  · simp [hd]
  rcases hl with hl | hl
  · simp [hst, hl]
  obtain ⟨d, description, hmd, hstored⟩ := hcur hl
  have hP : Current env ⟨x, s.stored⟩ ↔ P := by
    rw [← hx d description hmd]
    constructor
    · rintro ⟨d', description', hmd', hstored'⟩
      obtain rfl := Option.some.inj (hstored.symm.trans hstored')
      exact ⟨d', hmd'⟩
    · rintro ⟨d', hmd'⟩
      exact ⟨d', description, hmd', hstored⟩
  simp [hst, hl, hP]

/-- A call tracks what it does exactly if it is faithful. -/
theorem step_faithful_iff (hR : Regular s) (hcur : s.object.status = .persistent → Current env s)
    (h : s.step env op = .ok r) : Faithful env op r ↔ Tracks s op r := by
  cases op with
  | write env' space buf =>
    obtain ⟨result, hstep, rfl⟩ := call_eq_ok h
    refine Iff.trans (faithful_iff nofun) ?_
    refine iff_of_true ((current_iff (P := True) hR.loaded hcur ?_).2 (.inr trivial)) trivial
    rcases Dataset.step_write_dirty_or hstep with hd | ⟨hm, hcount, hs⟩
    · exact .inl hd
    · refine .inr ⟨hm.status, fun d description hmd => iff_of_true ?_ trivial⟩
      exact (DatasetObject.metadataCreate_moves_iff hR.inv (Dataset.step_inv hR.inv hstep).1
        hR.geometry hm hmd).2 ⟨hcount, hs⟩
  | writeGrid env' g space buf =>
    obtain ⟨result, hstep, rfl⟩ := call_eq_ok h
    refine Iff.trans (faithful_iff nofun) ?_
    refine current_iff hR.loaded hcur ?_
    rcases Dataset.step_writeGrid_dirty_or hR.inv hstep with hd | ⟨hm, hs, -⟩
    · exact .inl hd
    · refine .inr ⟨hm.status, fun d description hmd => ?_⟩
      exact (DatasetObject.metadataCreate_moves_iff hR.inv (Dataset.step_inv hR.inv hstep).1
        hR.geometry hm hmd).trans (and_iff_left hs)
  | readGrid env' g space buf =>
    obtain ⟨result, hstep, rfl⟩ := call_eq_ok h
    refine Iff.trans (faithful_iff nofun) ?_
    refine current_iff hR.loaded hcur ?_
    rcases Dataset.step_readGrid_dirty_or hR.inv hR.geometry hstep with hd | ⟨hm, -⟩
    · exact .inl hd
    · exact .inr ⟨hm.status, fun d description hmd => DatasetObject.metadataCreate_moves_iff hR.inv
        (Dataset.step_inv hR.inv hstep).1 hR.geometry hm hmd⟩
  | linkAttribute overwrite name value =>
    obtain ⟨object, hx, hr⟩ := change_eq_ok h
    obtain ⟨attr, rfl⟩ := DatasetObject.linkAttribute_eq_ok hx
    rw [hr]
    refine Iff.trans (faithful_iff nofun) ?_
    exact iff_of_true nofun trivial
  | deleteAttribute name =>
    obtain ⟨object, hx, hr⟩ := change_eq_ok h
    obtain ⟨attr, hattr, rfl⟩ := DatasetObject.deleteAttribute_eq_ok hx
    rw [hr]
    refine Iff.trans (faithful_iff nofun) ?_
    refine current_iff hR.loaded hcur (.inr ⟨rfl, fun d description hmd => ?_⟩)
    rw [DatasetObject.metadataCreate_attr_iff hattr hmd]
    simp only [hattr, Option.some.injEq, forall_eq']
    constructor
    · intro herase a ha hname
      have hlen := List.length_eraseP_of_mem (p := fun a => decide (a.1 = name)) ha
        (decide_eq_true hname)
      rw [herase] at hlen
      exact absurd (List.length_pos_of_mem ha) (by omega)
    · exact fun hnone => List.eraseP_of_forall_not fun a ha hname =>
        hnone a ha (of_decide_eq_true hname)
  | setFillValue value =>
    obtain ⟨object, hx, hr⟩ := change_eq_ok h
    obtain ⟨-, rfl⟩ := Prod.mk.inj (Except.ok.inj hx)
    rw [hr]
    refine Iff.trans (faithful_iff nofun) ?_
    exact current_iff hR.loaded hcur (.inr ⟨rfl, fun d description hmd =>
      DatasetObject.metadataCreate_setFillValue_iff hmd⟩)
  | nameDims names =>
    obtain ⟨object, hx, hr⟩ := change_eq_ok h
    rw [hr]
    refine Iff.trans (faithful_iff nofun) ?_
    rcases DatasetObject.nameDims_eq_ok hx with ⟨rfl, -⟩ | ⟨names, rfl⟩
    · exact iff_of_true hcur trivial
    · exact iff_of_true nofun trivial
  | renameDim name i =>
    obtain ⟨object, hx, hr⟩ := change_eq_ok h
    obtain ⟨names, hnames, hi, hobject⟩ := DatasetObject.renameDim_eq_ok hx
    rw [hr]
    refine Iff.trans (faithful_iff nofun) ?_
    refine current_iff hR.loaded hcur ?_
    rcases hobject with ⟨rfl, -⟩ | ⟨names', rfl⟩
    · refine .inr ⟨rfl, fun d description hmd => ?_⟩
      rw [DatasetObject.metadataCreate_dimNames_iff hi hnames hmd]
      simp [hnames]
    · exact .inl rfl
  | commit ret =>
    rcases commit_eq_ok h with ⟨hd, rfl⟩ | ⟨d, description, hd, hmd, rfl⟩
    · have hC := hcur (hR.loaded.resolve_left hd)
      exact iff_of_true ⟨fun _ => hC, fun _ _ _ => hC, fun _ _ hne => absurd rfl hne⟩
        fun h => absurd h hd
    · obtain ⟨hst, hmd'⟩ := DatasetObject.metadataCreate_again
        (hR.inv.relabel .persistent s.object.fillValue) hmd
      constructor
      · intro hF _
        by_contra hne
        exact absurd (hst.symm.trans (hF.retried ret rfl hne)) nofun
      · intro hret
        obtain rfl := hret hd
        have hC : Current env ⟨d, some description⟩ := ⟨d, description, hmd', rfl⟩
        exact ⟨fun _ => hC, fun _ _ _ => hC, fun _ _ hne => absurd rfl hne⟩

theorem Regular.relabel (hR : Regular s) {x : DatasetObject V A} {stored : Option (Description V A)}
    {status : DataStatus} {fillValue : Option V}
    (hx : x.toDataset = { s.object.toDataset with status, fillValue })
    (hst : status = .dirty ∨ status = s.object.status) : Regular ⟨x, stored⟩ := by
  refine ⟨hx ▸ hR.inv.relabel .., ?_, ?_⟩
  · rw [hx]
    exact hR.geometry
  · rw [hx]
    rcases hst with rfl | rfl
    · exact .inl rfl
    · exact hR.loaded

/-- The calls that move data keep what is regular. -/
theorem Regular.call (hR : Regular s) {c : Call V} {result : Result V}
    (hstep : s.object.toDataset.step c = .ok result)
    (hst : result.dataset.status = .dirty ∨ Moves s.object.toDataset result.dataset) :
    Regular ⟨{ s.object with toDataset := result.dataset }, s.stored⟩ := by
  refine ⟨(Dataset.step_inv hR.inv hstep).1, Dataset.step_geometry hR.inv hR.geometry hstep, ?_⟩
  rcases hst with hd | hm
  · exact .inl hd
  · rw [hm.status]
    exact hR.loaded

theorem step_regular (hR : Regular s) (h : s.step env op = .ok r) : Regular r.2 := by
  cases op with
  | write env' space buf =>
    obtain ⟨result, hstep, rfl⟩ := call_eq_ok h
    exact hR.call hstep ((Dataset.step_write_dirty_or hstep).imp_right And.left)
  | writeGrid env' g space buf =>
    obtain ⟨result, hstep, rfl⟩ := call_eq_ok h
    exact hR.call hstep ((Dataset.step_writeGrid_dirty_or hR.inv hstep).imp_right And.left)
  | readGrid env' g space buf =>
    obtain ⟨result, hstep, rfl⟩ := call_eq_ok h
    exact hR.call hstep
      ((Dataset.step_readGrid_dirty_or hR.inv hR.geometry hstep).imp_right And.left)
  | linkAttribute overwrite name value =>
    obtain ⟨object, hx, hr⟩ := change_eq_ok h
    obtain ⟨attr, rfl⟩ := DatasetObject.linkAttribute_eq_ok hx
    rw [hr]
    exact hR.relabel rfl (.inl rfl)
  | deleteAttribute name =>
    obtain ⟨object, hx, hr⟩ := change_eq_ok h
    obtain ⟨attr, -, rfl⟩ := DatasetObject.deleteAttribute_eq_ok hx
    rw [hr]
    exact hR.relabel rfl (.inr rfl)
  | setFillValue value =>
    obtain ⟨object, hx, hr⟩ := change_eq_ok h
    obtain ⟨-, rfl⟩ := Prod.mk.inj (Except.ok.inj hx)
    rw [hr]
    exact hR.relabel rfl (.inr rfl)
  | nameDims names =>
    obtain ⟨object, hx, hr⟩ := change_eq_ok h
    rw [hr]
    rcases DatasetObject.nameDims_eq_ok hx with ⟨rfl, -⟩ | ⟨names, rfl⟩
    · exact hR.relabel rfl (.inr rfl)
    · exact hR.relabel rfl (.inl rfl)
  | renameDim name i =>
    obtain ⟨object, hx, hr⟩ := change_eq_ok h
    obtain ⟨names, -, -, hobject⟩ := DatasetObject.renameDim_eq_ok hx
    rw [hr]
    rcases hobject with ⟨rfl, -⟩ | ⟨names', rfl⟩
    · exact hR.relabel rfl (.inr rfl)
    · exact hR.relabel rfl (.inl rfl)
  | commit ret =>
    rcases commit_eq_ok h with ⟨-, rfl⟩ | ⟨d, description, -, hmd, rfl⟩
    · exact hR
    · have hI := hR.inv.relabel .persistent s.object.fillValue
      obtain ⟨hst, -⟩ := DatasetObject.metadataCreate_again hI hmd
      obtain ⟨_, _, y, md, -, -, hy, rfl, -⟩ := DatasetObject.metadataCreate_eq_ok.1 hmd
      have hsteps := (Dataset.metadataCreate_steps hy).steps
      exact ⟨(hsteps.inv nofun hI).1, hsteps.geometry nofun nofun hI hR.geometry, .inr hst⟩

theorem Noticed.tracks (hR : Regular s) (hn : Noticed s op) (h : s.step env op = .ok r) :
    Tracks s op r := by
  cases op with
  | write env' space buf => trivial
  | writeGrid env' g space buf =>
    obtain ⟨result, hstep, rfl⟩ := call_eq_ok h
    rcases Dataset.step_writeGrid_dirty_or hR.inv hstep with hd | ⟨hm, -, hcount⟩
    · exact .inl hd
    · exact hn.imp hm.status.trans hcount.resolve_right
  | readGrid env' g space buf =>
    obtain ⟨result, hstep, rfl⟩ := call_eq_ok h
    rcases Dataset.step_readGrid_dirty_or hR.inv hR.geometry hstep with hd | ⟨hm, hs, hcount⟩
    · exact .inl hd
    · refine hn.imp hm.status.trans fun ⟨hnot, hkeep⟩ => ⟨hcount.resolve_right hnot, ?_⟩
      exact hs.resolve_right fun ⟨r, f, hr, hf, hu⟩ => hkeep r f hr hf hu
  | linkAttribute overwrite name value => trivial
  | deleteAttribute name =>
    obtain ⟨object, hx, hr⟩ := change_eq_ok h
    obtain ⟨attr, -, rfl⟩ := DatasetObject.deleteAttribute_eq_ok hx
    rw [hr]
    exact hn
  | setFillValue value =>
    obtain ⟨object, hx, hr⟩ := change_eq_ok h
    obtain ⟨-, rfl⟩ := Prod.mk.inj (Except.ok.inj hx)
    rw [hr]
    exact hn
  | nameDims names => trivial
  | renameDim name i =>
    obtain ⟨object, hx, hr⟩ := change_eq_ok h
    obtain ⟨names, hnames, -, hobject⟩ := DatasetObject.renameDim_eq_ok hx
    rw [hr]
    rcases hobject with ⟨rfl, n, hmem, hinvalid⟩ | ⟨names', rfl⟩
    · refine hn.imp_right fun hvalid names' hnames' => (hvalid names' hnames').resolve_right ?_
      obtain rfl := Option.some.inj (hnames.symm.trans hnames')
      exact fun hall => Bool.false_ne_true (hinvalid.symm.trans (hall n hmem))
    · exact .inl rfl
  | commit ret => exact hn

end Step

/-- In a run in which each call is noticed and no commit fails, a dataset that is persistent has
always been stored as it is. -/
theorem run_faithful (hR : Regular s) (hcur : s.object.status = .persistent → Current env s)
    {ops : List (Op V A)} (h : (machine env).EachCall Noticed s ops) :
    (machine env).EachStep (fun _ op r => Faithful env op r) s ops :=
  Machine.EachCall.eachStep
    (I := fun s => Regular s ∧ (s.object.status = .persistent → Current env s))
    (fun ⟨hR, hcur⟩ hn hr =>
      have hF := (step_faithful_iff hR hcur hr).2 (hn.tracks hR hr)
      ⟨⟨step_regular hR hr, hF.current⟩, hF⟩) ⟨hR, hcur⟩ h

section Sample

open Dataset (init pairSpace pairElement)

/-- A dataset that has just been created, with a grid over its first element. -/
def created : Tracked ℕ ℕ where
  object := { init pairSpace none with
    gridHeap := [⟨none, none, 0, none, [.make 0 1]⟩], grids := [0], incompleteGridCount := 1
    id := "t", attr := some [], dimNames := none }
  stored := none

theorem created_regular : Regular created := by
  have hrun : (init pairSpace none).run [⟨Env.calm 0, .gridCreate [⟨0, 1⟩]⟩]
      = .ok created.object.toDataset := rfl
  obtain ⟨hI, hG⟩ := Dataset.run_geometry hrun
  exact ⟨hI, hG, .inl rfl⟩

def FaithfulRun (ops : List (Op ℕ ℕ)) : Prop :=
  (machine (Env.calm 0)).EachStep (fun _ op r => Faithful (Env.calm 0) op r) created ops

def writeFirst : Op ℕ ℕ := .write (Env.calm 0) (pairElement 0) fun _ => 7

/-- An element is written, and the dimension is named. -/
theorem run_faithful_created : (∃ s, (machine (Env.calm 0)).run created
      [writeFirst, .commit .success, .nameDims [some "x"], .commit .success] = .ok s)
    ∧ FaithfulRun [writeFirst, .commit .success, .nameDims [some "x"], .commit .success] :=
  ⟨⟨_, rfl⟩, run_faithful created_regular nofun ⟨trivial, fun _ _ => ⟨fun _ => rfl, fun _ _ =>
    ⟨trivial, fun _ _ => ⟨fun _ => rfl, fun _ _ => trivial⟩⟩⟩⟩⟩

theorem Current.stored_eq (h : Current env s) {d : DatasetObject V A}
    {description : Description V A} (hmd : s.object.metadataCreate env = .ok (d, description)) :
    s.stored = some description := by
  obtain ⟨d', description', hmd', hstored⟩ := h
  obtain ⟨-, rfl⟩ := Prod.mk.inj (Except.ok.inj (hmd.symm.trans hmd'))
  exact hstored

/-- The grid is completed by a fragment that exists. -/
theorem steps_complete : ∃ r₁ r₂ r₃ : Status × Tracked ℕ ℕ,
    created.step (Env.calm 0) writeFirst = .ok r₁
      ∧ r₁.2.step (Env.calm 0) (.commit .success) = .ok r₂
      ∧ r₂.2.step (Env.calm 0) (.writeGrid (Env.calm 0) 0 (pairElement 0) fun _ => 7) = .ok r₃
      ∧ r₃.2.object.status = .persistent ∧ r₂.2.object.gridCount = 0
      ∧ r₃.2.object.gridCount = 1 :=
  ⟨_, _, _, rfl, rfl, rfl, rfl, rfl, rfl⟩

/-- A commit that fails, and three calls that the next commit does not notice. -/
theorem run_not_faithful : ¬ FaithfulRun [.commit .error]
    ∧ ¬ FaithfulRun [.commit .success, .setFillValue (some 1)]
    ∧ ¬ FaithfulRun [.linkAttribute true "a" 1, .commit .success, .deleteAttribute "a"]
    ∧ ¬ FaithfulRun [writeFirst, .commit .success,
      .writeGrid (Env.calm 0) 0 (pairElement 0) fun _ => 7] := by
  refine ⟨fun h => ?_, fun h => ?_, fun h => ?_, fun h => ?_⟩
  · obtain ⟨hF, -⟩ := h _ rfl
    exact absurd (hF.retried _ rfl (by decide)) (by decide)
  · obtain ⟨-, h⟩ := h _ rfl
    obtain ⟨hF, -⟩ := h _ rfl
    have hstored := (hF.current rfl).stored_eq rfl
    exact absurd (congrArg (Option.map Description.fillValue) hstored) (by decide)
  · obtain ⟨-, h⟩ := h _ rfl
    obtain ⟨-, h⟩ := h _ rfl
    obtain ⟨hF, -⟩ := h _ rfl
    have hstored := (hF.current rfl).stored_eq rfl
    exact absurd (congrArg (Option.map Description.attr) hstored) (by decide)
  · obtain ⟨r₁, r₂, r₃, hr₁, hr₂, hr₃, hst, hcount₂, hcount₃⟩ := steps_complete
    obtain ⟨-, h⟩ := h r₁ hr₁
    obtain ⟨hF₂, h⟩ := h r₂ hr₂
    obtain ⟨hF₃, -⟩ := h r₃ hr₃
    have hR := step_regular (step_regular created_regular hr₁) hr₂
    rcases (step_faithful_iff hR hF₂.current hr₃).1 hF₃ with hd | hcount
    · exact absurd (hst.symm.trans hd) nofun
    · exact absurd (hcount₃.symm.trans (hcount.trans hcount₂)) nofun

end Sample

end Tracked

end Esdm
