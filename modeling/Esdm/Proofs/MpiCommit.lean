import Esdm.Mpi
import Esdm.Proofs.Absorb
import Esdm.Proofs.GridJson

/-!
# Collective commits

Rank 0 adds the fragments of the other ranks to its own table and then commits.  The loop that adds
them destroys the fragment of the table where a shape comes up again, and it does not mark the
dataset as dirty.  So the commit lists all fragments exactly if the shapes are all different and
rank 0 has something to commit of its own, or if there is nothing new
(`mpiDatasetCommit_collects_iff`).
-/

namespace Esdm

theorem Dataspace.dims_of_createFromJson {dataspace space : Dataspace} {json : Json}
    (h : dataspace.createFromJson json = some space) : space.dims = dataspace.dims := by
  unfold createFromJson at h
  obtain ⟨size, -, h⟩ := Option.bind_eq_some_iff.1 h
  obtain ⟨offset, -, h⟩ := Option.bind_eq_some_iff.1 h
  dsimp only at h
  split_ifs at h with hl
  have hdim : (List.zipWith (fun o s => (⟨o, s⟩ : Dim)) offset size).length = dataspace.dims := by
    rw [List.length_zipWith, hl.1, hl.2, min_self]
  split at h
  · obtain rfl := Option.some.inj h
    exact hdim
  · obtain ⟨stride, -, h⟩ := Option.bind_eq_some_iff.1 h
    split_ifs at h
    obtain rfl := Option.some.inj h
    exact hdim

theorem FragmentDescription.parse_dims {dataspace : Dataspace} {json : Json}
    {d : FragmentDescription} (h : parse dataspace json = some d) :
    d.space.dims = dataspace.dims := by
  unfold parse at h
  obtain ⟨pid, -, h⟩ := Option.bind_eq_some_iff.1 h
  obtain ⟨id, -, h⟩ := Option.bind_eq_some_iff.1 h
  obtain ⟨actualBytes, -, h⟩ := Option.bind_eq_some_iff.1 h
  obtain ⟨space, hspace, h⟩ := Option.bind_eq_some_iff.1 h
  obtain rfl := Option.some.inj h
  obtain ⟨json, -, hspace⟩ := Option.bind_eq_some_iff.1 hspace
  exact Dataspace.dims_of_createFromJson hspace

namespace Dataset

variable {V : Type} {env : Env V} {ds ds' : Dataset V} {dataspace : Dataspace} {dims : ℕ}

section Describe

/-- The fragment of a table's entry has been stored, on a backend that is there. -/
def EntryStored (env : Env V) (dims : ℕ) (ds : Dataset V) (e : Hypercube × ℕ) : Prop :=
  ∃ f id b, ds.fragment e.2 = .ok f ∧ f.shape = e.1 ∧ f.dataspace.dims = dims ∧ f.id = some id
    ∧ f.backend = some b ∧ getBackend env b.id ≠ none

theorem describe_eq_ok (hd : dataspace.dims = dims) : ∀ {entries : List (Hypercube × ℕ)},
    (∀ e ∈ entries, EntryStored env dims ds e) →
    ∃ list, ds.describe entries = .ok list
      ∧ (∀ json ∈ list, FragmentDescription.WellFormed env dataspace json)
      ∧ FragmentDescription.shapes dataspace list = entries.map Prod.fst
  | [], _ => ⟨[], rfl, by simp, rfl⟩
  | (s, r) :: entries, h => by
    obtain ⟨f, id, b, hf, hs, hdims, hid, hb, hbackend⟩ := h (s, r) (by simp)
    obtain ⟨list, hlist, hwf, hshapes⟩ := describe_eq_ok hd fun e he =>
      h e (List.mem_cons_of_mem _ he)
    obtain ⟨json, hjson⟩ := Fragment.exists_metadataCreate hid hb
    obtain ⟨id', b', -, hb', hparse⟩ := Fragment.parse_metadataCreate (hdims.trans hd.symm) hjson
    obtain rfl := Option.some.inj (hb.symm.trans hb')
    refine ⟨json :: list, ?_, ?_, ?_⟩
    · rw [describe, hf, Outcome.ok_bind, hjson, Outcome.ok_bind, hlist]
      rfl
    · intro j hj
      rcases List.mem_cons.1 hj with rfl | hj
      · exact ⟨_, hparse, hbackend⟩
      · exact hwf j hj
    · rw [FragmentDescription.shapes_cons hparse, hshapes, List.map_cons]
      exact congrArg (· :: _) hs

/-- The fragments of the table have been stored. -/
def AllStored (env : Env V) (dims : ℕ) (ds : Dataset V) : Prop :=
  ∀ e ∈ ds.table, EntryStored env dims ds e

theorem fragmentsMetadataCreate_eq_ok (h : AllStored env dims ds) (hd : dataspace.dims = dims)
    (env' : Env V) :
    ∃ list, ds.fragmentsMetadataCreate env' = .ok list
      ∧ (∀ json ∈ list, FragmentDescription.WellFormed env dataspace json)
      ∧ (FragmentDescription.shapes dataspace list).Perm ds.shapes := by
  have hperm := env'.order_perm ds.table
  obtain ⟨list, hlist, hwf, hshapes⟩ := @describe_eq_ok V env ds dataspace dims hd
    (env'.order ds.table) fun e he => h e (hperm.subset he)
  exact ⟨list, hlist, hwf, hshapes ▸ hperm.map _⟩

theorem describe_of_freed {e : Hypercube × ℕ} {f : Fragment V} (hf : ds.fragments[e.2]? = some f)
    (hfreed : f.freed = true) : ∀ {entries : List (Hypercube × ℕ)} {list : List Json},
    e ∈ entries → ds.describe entries ≠ .ok list
  | (s, r) :: entries, list, he, hok => by
    rw [describe] at hok
    obtain ⟨f', hf', hok⟩ := Outcome.bind_eq_ok.1 hok
    obtain ⟨json, -, hok⟩ := Outcome.bind_eq_ok.1 hok
    obtain ⟨rest, hrest, -⟩ := Outcome.bind_eq_ok.1 hok
    rcases List.mem_cons.1 he with rfl | he
    · obtain ⟨hget, hlive⟩ := fragment_eq_ok.1 hf'
      obtain rfl := Option.some.inj (hf.symm.trans hget)
      simp [hfreed] at hlive
    · exact describe_of_freed hf hfreed he hrest

end Describe

section Grids

/-- Grids that are closed under nesting, and the fragments in their cells, are described in the same
way. -/
structure Extends (K R : Set ℕ) (ds ds' : Dataset V) : Prop where
  length : ds'.gridHeap.length = ds.gridHeap.length
  heap : ∀ k ∈ K, ds'.gridHeap[k]? = ds.gridHeap[k]?
  nested : ∀ k ∈ K, ∀ grid, ds.gridHeap[k]? = some grid → ∀ h ∈ grid.subgrids, h ∈ K
  cells : ∀ k ∈ K, ∀ grid cs c r, ds.gridHeap[k]? = some grid → grid.cells = some cs → c ∈ cs →
    c.fragment = some r → r ∈ R
  fragment : ∀ r ∈ R, ∀ f json, ds.fragment r = .ok f → f.metadataCreate = .ok json →
    ∃ f', ds'.fragment r = .ok f' ∧ f'.metadataCreate = .ok json

/-- No grid has changed, and no fragment has been lost. -/
theorem Extends.of_heap_eq (hheap : ds'.gridHeap = ds.gridHeap)
    (hfragment : ∀ r f, ds.fragment r = .ok f → ds'.fragment r = .ok f) :
    Extends Set.univ Set.univ ds ds' where
  length := congrArg List.length hheap
  heap k _ := by rw [hheap]
  nested _ _ _ _ _ _ := trivial
  cells _ _ _ _ _ _ _ _ _ _ := trivial
  fragment r _ f json hf hjson := ⟨f, hfragment r f hf, hjson⟩

section Stable

variable {K R : Set ℕ}

/-- What describes grids does not depend on the fragments and grids that they do not have. -/
def Stable (K R : Set ℕ) (m : Dataset V → Outcome (Dataset V × β)) : Prop :=
  ∀ {x x' y b}, m x = .ok (y, b) → Extends K R x x' → ∃ y', m x' = .ok (y', b) ∧ Extends K R y y'

theorem serializeCell_stable {nested : ℕ → Dataset V → Outcome (Dataset V × Json)}
    (hn : ∀ h ∈ K, Stable K R (nested h)) {cell : GridEntry}
    (hsub : ∀ h, cell.subgrid = some h → h ∈ K) (hfrag : ∀ r, cell.fragment = some r → r ∈ R) :
    Stable K R (serializeCell nested cell) := by
  intro x x' y json h hx
  unfold serializeCell at h ⊢
  obtain ⟨_, ha, h⟩ := Outcome.bind_eq_ok.1 h
  rw [ha, Outcome.ok_bind]
  rcases hs : cell.subgrid with _ | k
  · rcases hf : cell.fragment with _ | r <;> simp only [hs, hf] at h ⊢
    · obtain ⟨rfl, rfl⟩ := Prod.mk.inj (Except.ok.inj h)
      exact ⟨x', rfl, hx⟩
    · obtain ⟨f, hfr, h⟩ := Outcome.bind_eq_ok.1 h
      obtain ⟨_, -, h⟩ := Outcome.bind_eq_ok.1 h
      obtain ⟨j, hj, h⟩ := Outcome.bind_eq_ok.1 h
      obtain ⟨rfl, rfl⟩ := Prod.mk.inj (Except.ok.inj h)
      obtain ⟨f', hf', hj'⟩ := hx.fragment r (hfrag r hf) f j hfr hj
      obtain ⟨id, _, hid, -⟩ := Fragment.metadataCreate_eq_ok hj'
      rw [hf', Outcome.ok_bind, eassert_of (by simp [hid]), Outcome.ok_bind, hj', Outcome.ok_bind]
      exact ⟨x', rfl, hx⟩
  · simp only [hs] at h ⊢
    obtain ⟨⟨z, j⟩, hz, h⟩ := Outcome.bind_eq_ok.1 h
    obtain ⟨rfl, rfl⟩ := Prod.mk.inj (Except.ok.inj h)
    obtain ⟨z', hz', hzz⟩ := hn k (hsub k hs) hz hx
    exact ⟨z', by rw [hz']; rfl, hzz⟩

theorem serializeCells_stable {nested : ℕ → Dataset V → Outcome (Dataset V × Json)}
    (hn : ∀ h ∈ K, Stable K R (nested h)) : ∀ {cells : List GridEntry},
    (∀ c ∈ cells, ∀ h, c.subgrid = some h → h ∈ K) →
    (∀ c ∈ cells, ∀ r, c.fragment = some r → r ∈ R) → Stable K R (serializeCells nested cells)
  | [], _, _, x, x', y, json, h, hx => by
    obtain ⟨rfl, rfl⟩ := Prod.mk.inj (Except.ok.inj h)
    exact ⟨x', rfl, hx⟩
  | cell :: cells, hsub, hfrag, x, x', y, json, h, hx => by
    rw [List.forall_mem_cons] at hsub hfrag
    rw [serializeCells] at h ⊢
    obtain ⟨⟨z, j⟩, hz, h⟩ := Outcome.bind_eq_ok.1 h
    obtain ⟨⟨u, js⟩, hu, h⟩ := Outcome.bind_eq_ok.1 h
    obtain ⟨rfl, rfl⟩ := Prod.mk.inj (Except.ok.inj h)
    obtain ⟨z', hz', hzz⟩ := serializeCell_stable hn hsub.1 hfrag.1 hz hx
    obtain ⟨u', hu', huu⟩ := serializeCells_stable hn hsub.2 hfrag.2 hu hzz
    exact ⟨u', by simp only [hz', hu', Outcome.ok_bind]; rfl, huu⟩

/-- Replacing a grid by one that has been fixed. -/
theorem Extends.setGrid (hx : Extends K R ds ds') {g : ℕ} {grid grid' : Grid}
    (hg : ds.gridHeap[g]? = some grid) (hk : g ∈ K) (hfix : grid.FixesTo grid') :
    Extends K R (ds.setGrid g grid') (ds'.setGrid g grid') := by
  have hg' : ds'.gridHeap[g]? = some grid := (hx.heap g hk).trans hg
  have hget : ∀ k, (ds.setGrid g grid').gridHeap[k]?
      = if k = g then some grid' else ds.gridHeap[k]? := Grid.getElem?_set_of_some hg grid'
  have hget' : ∀ k, (ds'.setGrid g grid').gridHeap[k]?
      = if k = g then some grid' else ds'.gridHeap[k]? := Grid.getElem?_set_of_some hg' grid'
  refine ⟨?_, fun k hkK => ?_, fun k hkK sub hsub h hh => ?_,
    fun k hkK sub cs c r hsub hcs hc hr => ?_, hx.fragment⟩
  · simp [Dataset.setGrid, hx.length]
  · rw [hget, hget', hx.heap k hkK]
  · rw [hget] at hsub
    split_ifs at hsub
    · obtain rfl := Option.some.inj hsub
      exact hx.nested g hk grid hg h (hfix.subgrids ▸ hh)
    · exact hx.nested k hkK sub hsub h hh
  · rw [hget] at hsub
    split_ifs at hsub
    · obtain rfl := Option.some.inj hsub
      rcases hfix.cells with ⟨heq, -⟩ | ⟨-, heq, -⟩
      · exact hx.cells g hk grid cs c r hg (heq ▸ hcs) hc hr
      · rw [heq] at hcs
        obtain rfl := Option.some.inj hcs
        rw [List.eq_of_mem_replicate hc] at hr
        cases hr
    · exact hx.cells k hkK sub cs c r hsub hcs hc hr

theorem gridSerialize_stable (env : Env V) : ∀ n, ∀ g ∈ K, Stable K R (gridSerialize env n g)
  | 0, g, _, x, x', y, json, h, hx => by cases h
  | n + 1, g, hk, x, x', y, json, h, hx => by
    rw [gridSerialize] at h ⊢
    obtain ⟨grid, hg, h⟩ := Outcome.bind_eq_ok.1 h
    obtain ⟨grid₁, hfix, h⟩ := Outcome.bind_eq_ok.1 h
    obtain ⟨id, hid, h⟩ := Outcome.bind_eq_ok.1 h
    obtain ⟨cells, hcells, h⟩ := Outcome.bind_eq_ok.1 h
    obtain ⟨⟨z, js⟩, hz, h⟩ := Outcome.bind_eq_ok.1 h
    obtain ⟨rfl, rfl⟩ := Prod.mk.inj (Except.ok.inj h)
    have hg := grid_eq_ok.1 hg
    have hset := hx.setGrid hg hk (fixStructure_eq_ok hfix).1
    have hset_get : (x.setGrid g grid₁).gridHeap[g]? = some grid₁ := setGrid_getElem?_self hg grid₁
    have hcs : grid₁.cells = some cells := access_eq_ok.1 hcells
    have hsub : ∀ c ∈ cells.take grid₁.cellCount.toNat, ∀ h, c.subgrid = some h → h ∈ K :=
      fun c hc h hh => hset.nested g hk grid₁ hset_get h
        (Grid.mem_subgrids.2 ⟨cells, hcs, c, List.mem_of_mem_take hc, hh⟩)
    have hfrag : ∀ c ∈ cells.take grid₁.cellCount.toNat, ∀ r, c.fragment = some r → r ∈ R :=
      fun c hc r hr => hset.cells g hk grid₁ cells c r hset_get hcs (List.mem_of_mem_take hc) hr
    obtain ⟨z', hz', hzz⟩ := serializeCells_stable (gridSerialize_stable env n) hsub hfrag hz hset
    have hg' : x'.grid g = .ok grid := grid_eq_ok.2 ((hx.heap g hk).trans hg)
    exact ⟨z', by simp only [hg', hfix, hid, hcells, hz', Outcome.ok_bind]; rfl, hzz⟩

theorem serializeGrids_stable (env : Env V) : ∀ {grids : List ℕ}, (∀ g ∈ grids, g ∈ K) →
    Stable K R (serializeGrids env grids)
  | [], _, x, x', y, json, h, hx => by
    obtain ⟨rfl, rfl⟩ := Prod.mk.inj (Except.ok.inj h)
    exact ⟨x', rfl, hx⟩
  | g :: grids, hk, x, x', y, json, h, hx => by
    rw [List.forall_mem_cons] at hk
    rw [serializeGrids] at h ⊢
    obtain ⟨⟨z, j⟩, hz, h⟩ := Outcome.bind_eq_ok.1 h
    obtain ⟨⟨u, js⟩, hu, h⟩ := Outcome.bind_eq_ok.1 h
    obtain ⟨rfl, rfl⟩ := Prod.mk.inj (Except.ok.inj h)
    obtain ⟨z', hz', hzz⟩ := gridSerialize_stable env _ g hk.1 hz hx
    obtain ⟨u', hu', huu⟩ := serializeGrids_stable env hk.2 hu hzz
    exact ⟨u', by simp only [hx.length, hz', hu', Outcome.ok_bind]; rfl, huu⟩

end Stable

end Grids

section Receive

variable {accept : Dataset V → Fragment V → Dataset V} {reject : Dataset V → Outcome (Dataset V)}

theorem absorbFragments_append (l l' : List Json) : ∀ ds : Dataset V,
    absorbFragments env accept reject (l ++ l') ds
      = absorbFragments env accept reject l ds >>= absorbFragments env accept reject l' := by
  induction l with
  | nil => exact fun ds => rfl
  | cons json l ih =>
    intro ds
    rw [List.cons_append, absorbFragments, absorbFragments]
    rcases ds.createFragmentFromMetadata env json with ⟨ds₁, _ | r⟩
    · simp only [ih, bind_assoc]
    · simp only [bind_assoc]
      refine bind_congr fun x => ?_
      split_ifs <;> simp only [ih, bind_assoc]

theorem receiveRanks_eq : ∀ (ranks : List (List Json)) (ds : Dataset V),
    receiveRanks env ranks ds = receiveFragments env ranks.flatten ds
  | [], ds => rfl
  | fragments :: ranks, ds => by
    rw [receiveRanks, List.flatten_cons, receiveFragments, absorbFragments_append]
    exact bind_congr fun ds => receiveRanks_eq ranks ds

/-- The table is in order, except that fragments may have been destroyed. -/
structure Keyed (ds : Dataset V) : Prop where
  nodup : ds.shapes.Nodup
  inj : ∀ e ∈ ds.table, ∀ e' ∈ ds.table, e.2 = e'.2 → e = e'
  shape : ∀ e ∈ ds.table, ∀ f, ds.fragment e.2 = .ok f → f.shape = e.1

theorem TableWf.keyed (hw : TableWf ds) : Keyed ds := by
  refine ⟨hw.nodup, fun e he e' he' => hw.eq_of_ref_eq he he', fun e he f hf => ?_⟩
  obtain ⟨f', hf', hs⟩ := hw.fragment_eq he
  rwa [← Except.ok.inj (hf.symm.trans hf')] at hs

/-- Destroying a fragment makes that fragment inaccessible. -/
theorem fragment_destroyed {r q : ℕ} {f f' : Fragment V} (hr : ds.fragment r = .ok f) :
    (ds.setFragment r { f with freed := true }).fragment q = .ok f'
      ↔ q ≠ r ∧ ds.fragment q = .ok f' := by
  rw [fragment_eq_ok, fragment_eq_ok, setFragment]
  obtain ⟨hget, -⟩ := fragment_eq_ok.1 hr
  rcases eq_or_ne q r with rfl | hne
  · rw [List.getElem?_set_self (List.getElem?_eq_some_iff.1 hget).1]
    refine iff_of_false ?_ fun h => h.1 rfl
    rintro ⟨heq, hlive⟩
    rw [← Option.some.inj heq] at hlive
    cases hlive
  · rw [List.getElem?_set_ne hne.symm, and_iff_right hne]

/-- In a table that has the described shape, its fragment is destroyed. -/
theorem absorbFragments_cons_known (hk : Keyed ds) {json : Json} {rest : List Json}
    {d : FragmentDescription} {r : ℕ} (hp : FragmentDescription.parse ds.dataspace json = some d)
    (he : (d.space.getExtends, r) ∈ ds.table) :
    absorbFragments env accept reject (json :: rest) ds = ds.fragment r >>= fun f =>
      absorbFragments env accept reject rest (ds.setFragment r { f with freed := true }) := by
  have hl : ds.lookupForShape d.space.getExtends = some r := by
    rcases hl : ds.lookupForShape d.space.getExtends with _ | r'
    · exact absurd (mem_shapes.2 ⟨r, he⟩) (lookupForShape_eq_none.1 hl)
    · have := List.inj_on_of_nodup_map hk.nodup he (mem_of_lookupForShape hl) rfl
      rw [(Prod.mk.inj this).2]
  rw [absorbFragments, createFragmentFromMetadata_of_lookup hp hl]
  rcases hf : ds.fragment r with fault | f
  · simp [fragmentsAdd, hf]
  · have hm : f.shape ∈ ds.shapes := hk.shape _ he f hf ▸ mem_shapes.2 ⟨r, he⟩
    simp [fragmentsAdd_of_mem hf hm, fragmentDestroy, hf]

theorem Keyed.destroyed (hk : Keyed ds) {r : ℕ} {f : Fragment V} (hf : ds.fragment r = .ok f) :
    Keyed (ds.setFragment r { f with freed := true }) :=
  ⟨hk.nodup, hk.inj, fun e he f' hf' => hk.shape e he f' ((fragment_destroyed hf).1 hf').2⟩

/-- If the table has all shapes that are described, the loop gets through as long as it destroys no
fragment twice. -/
theorem absorbFragments_known_iff : ∀ {list : List Json} {ds : Dataset V}, Keyed ds →
    (∀ json ∈ list, FragmentDescription.WellFormed env ds.dataspace json) →
    FragmentDescription.shapes ds.dataspace list ⊆ ds.shapes →
    ((∃ ds', absorbFragments env accept reject list ds = .ok ds')
      ↔ (FragmentDescription.shapes ds.dataspace list).Nodup
        ∧ ∀ e ∈ ds.table, e.1 ∈ FragmentDescription.shapes ds.dataspace list →
          ∃ f, ds.fragment e.2 = .ok f)
  | [], ds, _, _, _ => by simp [absorbFragments, FragmentDescription.shapes]
  | json :: rest, ds, hk, hwf, hsub => by
    obtain ⟨d, hp, -⟩ := hwf json (by simp)
    rw [FragmentDescription.shapes_cons hp] at hsub ⊢
    obtain ⟨r, he⟩ := mem_shapes.1 (hsub List.mem_cons_self)
    rw [absorbFragments_cons_known hk hp he]
    rcases hf : ds.fragment r with fault | f
    · refine iff_of_false (by simp) fun h => ?_
      obtain ⟨f, hf'⟩ := h.2 _ he List.mem_cons_self
      exact absurd (hf.symm.trans hf') (by simp)
    · have ih := @absorbFragments_known_iff rest (ds.setFragment r { f with freed := true })
        (hk.destroyed hf) (fun j hj => hwf j (List.mem_cons_of_mem _ hj))
        fun s hs => hsub (List.mem_cons_of_mem _ hs)
      rw [Outcome.ok_bind, ih, List.nodup_cons]
      constructor
      · rintro ⟨hn, hlive⟩
        refine ⟨⟨fun hs => ?_, hn⟩, fun e hm hs => ?_⟩
        · obtain ⟨f', hf'⟩ := hlive _ he hs
          exact ((fragment_destroyed hf).1 hf').1 rfl
        · rcases List.mem_cons.1 hs with hs | hs
          · obtain rfl := List.inj_on_of_nodup_map hk.nodup hm he hs
            exact ⟨f, hf⟩
          · obtain ⟨f', hf'⟩ := hlive e hm hs
            exact ⟨f', ((fragment_destroyed hf).1 hf').2⟩
      · rintro ⟨⟨hs, hn⟩, hlive⟩
        refine ⟨hn, fun e hm hse => ?_⟩
        obtain ⟨f', hf'⟩ := hlive e hm (List.mem_cons_of_mem _ hse)
        refine ⟨f', (fragment_destroyed hf).2 ⟨fun hr => ?_, hf'⟩⟩
        obtain rfl := hk.inj e hm _ he hr
        exact hs hse

end Receive

section Commit

variable {stored : Option Metadata} {list : List Json}

theorem getBackend_id {pid : String} {b : Backend} (h : getBackend env pid = some b) :
    getBackend env b.id ≠ none := by
  have hid : b.id = pid := by simpa using List.find?_some h
  rw [hid, h]
  simp

/-- Fragments that are made from descriptions count as stored. -/
theorem AllStored.absorb (hs : AllStored env ds.dims ds) {new : List (Fragment V)}
    (hfragments : ds'.fragments = ds.fragments ++ new)
    (htable : ds'.table = ds.table ++ (new.map Fragment.shape).zipIdx ds.fragments.length)
    (hnew : ∀ f ∈ new, ∃ json ∈ list, ∃ d b, FragmentDescription.parse ds.dataspace json = some d
      ∧ getBackend env d.pid = some b ∧ f = FragmentDescription.fragment env d b) :
    AllStored env ds.dims ds' := by
  intro e he
  rw [htable, List.mem_append] at he
  rcases he with he | he
  · obtain ⟨f, id, b, hf, hrest⟩ := hs e he
    obtain ⟨hget, hlive⟩ := fragment_eq_ok.1 hf
    refine ⟨f, id, b, fragment_eq_ok.2 ⟨?_, hlive⟩, hrest⟩
    rw [hfragments, List.getElem?_append_left (List.getElem?_eq_some_iff.1 hget).1, hget]
  · obtain ⟨s, r⟩ := e
    obtain ⟨hle, hlt, hget⟩ := List.mem_zipIdx he
    rw [List.length_map] at hlt
    have hlt' : r - ds.fragments.length < new.length := by omega
    obtain ⟨json, -, d, b, hp, hb, hf⟩ := hnew _ (List.getElem_mem hlt')
    refine ⟨d.fragment env b, d.id, b, fragment_eq_ok.2 ⟨?_, rfl⟩, ?_,
      FragmentDescription.parse_dims hp, rfl, rfl, getBackend_id hb⟩
    · rw [hfragments, List.getElem?_append_right hle, List.getElem?_eq_getElem hlt', hf]
    · rw [hget, List.getElem_map, hf]

/-- Rank 0 commits what it has if it has changed. -/
theorem commit_of_dirty (hd : ds.status = .dirty) (hs : AllStored env ds.dims ds)
    (hg : ∃ out, serializeGrids env (ds.grids.take ds.gridCount) ds = .ok out) :
    ∃ ds' md, ds.commit env stored = .ok (ds', some md)
      ∧ (FragmentDescription.shapes ds.dataspace md.fragments).Perm ds.shapes := by
  obtain ⟨⟨y, json⟩, hg⟩ := hg
  have hextends : Extends Set.univ Set.univ ds { ds with status := .persistent } :=
    .of_heap_eq rfl fun _ _ h => h
  obtain ⟨y', hy, -⟩ := serializeGrids_stable env (fun _ _ => trivial) hg hextends
  obtain ⟨list, hlist, -, hperm⟩ := fragmentsMetadataCreate_eq_ok
    (show AllStored env ds.dims { ds with status := .persistent } from hs)
    (show ds.dataspace.dims = ds.dims from rfl) env
  refine ⟨y', ⟨list, json⟩, ?_, hperm⟩
  unfold commit metadataCreate
  rw [if_neg (not_not.2 hd), hlist, Outcome.ok_bind]
  simp only [hy, Outcome.ok_bind]
  rfl

theorem commit_of_freed {e : Hypercube × ℕ} {f : Fragment V} (hd : ds.status = .dirty)
    (he : e ∈ ds.table) (hf : ds.fragments[e.2]? = some f) (hfreed : f.freed = true)
    (out : Dataset V × Option Metadata) : ds.commit env stored ≠ .ok out := by
  intro h
  unfold commit metadataCreate at h
  rw [if_neg (not_not.2 hd)] at h
  obtain ⟨x, hx, -⟩ := Outcome.bind_eq_ok.1 h
  obtain ⟨list, hlist, -⟩ := Outcome.bind_eq_ok.1 hx
  exact @describe_of_freed V { ds with status := .persistent } e f hf hfreed _ list
    ((env.order_perm ds.table).mem_iff.2 he) hlist

/-- The shapes that the metadata lists. -/
def listed (dataspace : Dataspace) (stored : Option Metadata) : List Hypercube :=
  stored.elim [] fun md => FragmentDescription.shapes dataspace md.fragments

/-- The commit succeeds, and what is stored then lists each of the shapes once, and no others. -/
def Collects (env : Env V) (ds : Dataset V) (arrival : List (List Json))
    (stored : Option Metadata) (shapes : List Hypercube) : Prop :=
  ∃ ds' md, ds.mpiDatasetCommit env arrival stored = .ok (ds', some md)
    ∧ (listed ds.dataspace (some md)).Nodup
    ∧ ∀ s, s ∈ listed ds.dataspace (some md) ↔ s ∈ shapes

/-- What another rank sends, given its table and the order in which it visits the entries. -/
structure Sends (env : Env V) (dims : ℕ) (rank : Env V × Dataset V) (message : List Json) :
    Prop where
  wf : TableWf rank.2
  stored : AllStored env dims rank.2
  sent : rank.2.fragmentsMetadataCreate rank.1 = .ok message

/-- What it takes: all shapes are different, or rank 0 has nothing to commit and receives nothing
new, and no fragment twice. -/
def Mergeable (ds : Dataset V) (received : List Hypercube) : Prop :=
  if ds.status = .dirty then (ds.shapes ++ received).Nodup
  else received.Nodup ∧ received ⊆ ds.shapes

theorem sends_flatten {ranks : List (Env V × Dataset V)} {messages : List (List Json)}
    (h : List.Forall₂ (Sends env dims) ranks messages) (hd : dataspace.dims = dims) :
    (∀ json ∈ messages.flatten, FragmentDescription.WellFormed env dataspace json)
      ∧ (FragmentDescription.shapes dataspace messages.flatten).Perm
        (ranks.flatMap fun rank => rank.2.shapes) := by
  induction h with
  | nil => exact ⟨by simp, .refl _⟩
  | @cons rank message ranks messages hs _ ih =>
    obtain ⟨list, hlist, hwf, hperm⟩ := fragmentsMetadataCreate_eq_ok hs.stored hd rank.1
    obtain rfl := Except.ok.inj (hs.sent.symm.trans hlist)
    rw [List.flatten_cons, List.flatMap_cons, FragmentDescription.shapes, List.filterMap_append]
    refine ⟨fun json hj => ?_, hperm.append ih.2⟩
    rcases List.mem_append.1 hj with hj | hj
    · exact hwf json hj
    · exact ih.1 json hj

theorem mpiDatasetCommit_eq_ok {arrival : List (List Json)} {out : Dataset V × Option Metadata} :
    ds.mpiDatasetCommit env arrival stored = .ok out
      ↔ ∃ ds', receiveFragments env arrival.flatten ds = .ok ds'
        ∧ ds'.commit env stored = .ok out := by
  unfold mpiDatasetCommit
  rw [receiveRanks_eq, Outcome.bind_eq_ok]

theorem collects_of_dirty {arrival : List (List Json)} {shapes : List Hypercube} (hw : TableWf ds)
    (hs : AllStored env ds.dims ds)
    (hg : ∃ out, serializeGrids env (ds.grids.take ds.gridCount) ds = .ok out)
    (hwf : ∀ json ∈ arrival.flatten, FragmentDescription.WellFormed env ds.dataspace json)
    (hd : ds.status = .dirty)
    (hshapes : ∀ s, s ∈ shapes
      ↔ s ∈ ds.shapes ++ FragmentDescription.shapes ds.dataspace arrival.flatten) :
    Collects env ds arrival stored shapes
      ↔ (ds.shapes ++ FragmentDescription.shapes ds.dataspace arrival.flatten).Nodup := by
  constructor
  · rintro ⟨ds', md, hok, -⟩
    obtain ⟨ds₁, hrec, hcommit⟩ := mpiDatasetCommit_eq_ok.1 hok
    by_contra hn
    obtain ⟨e, he, f, hf, hfreed⟩ := exists_freed_of_not_nodup receiveFragments_accepts
      receiveFragments_rejects _ hw hwf hn hrec
    have hst := (absorbFragments_keeps receiveFragments_accepts receiveFragments_rejects _
      hrec).2.status
    exact commit_of_freed (hst.trans hd) he hf hfreed _ hcommit
  · intro hn
    obtain ⟨ds₁, hrec, -, halike, hsh, new, hnew, htable, hdesc⟩ :
        ∃ ds₁, receiveFragments env arrival.flatten ds = .ok ds₁ ∧ _ :=
      absorbFragments_of_nodup receiveFragments_accepts _ hw hwf hn
    have hext : Extends Set.univ Set.univ ds ds₁ := by
      refine .of_heap_eq halike.gridHeap fun r f hf => ?_
      obtain ⟨hget, hlive⟩ := fragment_eq_ok.1 hf
      refine fragment_eq_ok.2 ⟨?_, hlive⟩
      rw [hnew, List.getElem?_append_left (List.getElem?_eq_some_iff.1 hget).1, hget]
    obtain ⟨⟨y, json⟩, hg⟩ := hg
    obtain ⟨y', hy, -⟩ := serializeGrids_stable env (fun _ _ => trivial) hg hext
    rw [← halike.grids, ← halike.gridCount] at hy
    have hdims : ds₁.dims = ds.dims := congrArg Dataspace.dims halike.dataspace
    obtain ⟨ds', md, hcommit, hperm⟩ := @commit_of_dirty V env ds₁ stored
      (halike.status.trans hd) (hdims ▸ hs.absorb hnew htable hdesc) ⟨_, hy⟩
    rw [halike.dataspace, hsh] at hperm
    refine ⟨ds', md, mpiDatasetCommit_eq_ok.2 ⟨ds₁, hrec, hcommit⟩, hperm.nodup_iff.2 hn,
      fun s => ?_⟩
    rw [hshapes, ← hperm.mem_iff]
    rfl

theorem collects_of_not_dirty {arrival : List (List Json)} {shapes : List Hypercube}
    (hw : TableWf ds)
    (hwf : ∀ json ∈ arrival.flatten, FragmentDescription.WellFormed env ds.dataspace json)
    (hd : ds.status ≠ .dirty) (hne : stored ≠ none) (hn : (listed ds.dataspace stored).Nodup)
    (hl : ∀ s, s ∈ listed ds.dataspace stored ↔ s ∈ ds.shapes)
    (hshapes : ∀ s, s ∈ shapes
      ↔ s ∈ ds.shapes ++ FragmentDescription.shapes ds.dataspace arrival.flatten) :
    Collects env ds arrival stored shapes
      ↔ (FragmentDescription.shapes ds.dataspace arrival.flatten).Nodup
        ∧ FragmentDescription.shapes ds.dataspace arrival.flatten ⊆ ds.shapes := by
  have hcommit : ∀ {ds₁}, receiveFragments env arrival.flatten ds = .ok ds₁ →
      ds₁.commit env stored = .ok (ds₁, stored) := by
    intro ds₁ hrec
    have hst := (absorbFragments_keeps receiveFragments_accepts receiveFragments_rejects _
      hrec).2.status
    unfold commit
    rw [if_pos (hst ▸ hd)]
    rfl
  have hknown := @absorbFragments_known_iff V env (fun ds _ => ds) (fun _ => .error .abort)
    arrival.flatten ds hw.keyed hwf
  constructor
  · rintro ⟨ds', md, hok, -, hmem⟩
    obtain ⟨ds₁, hrec, hc⟩ := mpiDatasetCommit_eq_ok.1 hok
    obtain ⟨-, rfl⟩ := Prod.mk.inj (Except.ok.inj ((hcommit hrec).symm.trans hc))
    have hsub : FragmentDescription.shapes ds.dataspace arrival.flatten ⊆ ds.shapes := fun s h =>
      (hl s).1 ((hmem s).2 ((hshapes s).2 (List.mem_append_right _ h)))
    exact ⟨((hknown hsub).1 ⟨ds₁, hrec⟩).1, hsub⟩
  · rintro ⟨hnodup, hsub⟩
    obtain ⟨ds₁, hrec⟩ := (hknown hsub).2 ⟨hnodup, fun e he _ => by
      obtain ⟨f, hf, -⟩ := hw.fragment_eq he
      exact ⟨f, hf⟩⟩
    obtain ⟨md, rfl⟩ := Option.ne_none_iff_exists'.1 hne
    refine ⟨ds₁, md, mpiDatasetCommit_eq_ok.2 ⟨ds₁, hrec, hcommit hrec⟩, hn, fun s => ?_⟩
    rw [hl, hshapes, List.mem_append]
    exact ⟨.inl, fun h => h.elim id fun h => hsub h⟩

/-- Whatever the order of arrival, the commit lists all fragments of all ranks, and those that were
listed before, exactly if they can be merged. -/
theorem mpiDatasetCommit_collects_iff {ranks : List (Env V × Dataset V)}
    {messages arrival : List (List Json)} (hw : TableWf ds) (hs : AllStored env ds.dims ds)
    (hg : ∃ out, serializeGrids env (ds.grids.take ds.gridCount) ds = .ok out)
    (hload : listed ds.dataspace stored ⊆ ds.shapes)
    (hsync : ds.status ≠ .dirty → stored ≠ none ∧ (listed ds.dataspace stored).Nodup
      ∧ ds.shapes ⊆ listed ds.dataspace stored)
    (hr : List.Forall₂ (Sends env ds.dims) ranks messages) (ha : arrival.Perm messages) :
    Collects env ds arrival stored
        (ds.shapes ++ ranks.flatMap (fun rank => rank.2.shapes) ++ listed ds.dataspace stored)
      ↔ Mergeable ds (ranks.flatMap fun rank => rank.2.shapes) := by
  obtain ⟨hwf, hperm⟩ := sends_flatten hr (show ds.dataspace.dims = ds.dims from rfl)
  have hflat := ha.flatten
  have hperm' : (FragmentDescription.shapes ds.dataspace arrival.flatten).Perm
      (ranks.flatMap fun rank => rank.2.shapes) := (hflat.filterMap _).trans hperm
  have hwf' : ∀ json ∈ arrival.flatten, FragmentDescription.WellFormed env ds.dataspace json :=
    fun json hj => hwf json (hflat.mem_iff.1 hj)
  have hshapes : ∀ s, s ∈ ds.shapes ++ ranks.flatMap (fun rank => rank.2.shapes)
        ++ listed ds.dataspace stored
      ↔ s ∈ ds.shapes ++ FragmentDescription.shapes ds.dataspace arrival.flatten := by
    intro s
    rw [List.mem_append, List.mem_append, List.mem_append, hperm'.mem_iff]
    exact ⟨fun h => h.elim id fun h => .inl (hload h), .inl⟩
  unfold Mergeable
  by_cases hd : ds.status = .dirty
  · rw [if_pos hd, collects_of_dirty hw hs hg hwf' hd hshapes]
    exact (hperm'.append_left _).nodup_iff
  · obtain ⟨hne, hn, hsub⟩ := hsync hd
    rw [if_neg hd, collects_of_not_dirty hw hwf' hd hne hn (fun s => ⟨fun h => hload h,
      fun h => hsub h⟩) hshapes, hperm'.nodup_iff]
    exact and_congr_right fun _ => ⟨fun h s hs => h (hperm'.mem_iff.2 hs), fun h s hs =>
      h (hperm'.mem_iff.1 hs)⟩

/-- A rank that has stored one element of the line. -/
def elementRank (offset : ℤ) : Dataset ℤ :=
  (init lineSpace none).addFragment (FragmentDescription.fragment (Env.calm 0)
    ⟨"f", "b", -1, .createFull [⟨offset, 1⟩] lineSpace.type⟩ ⟨"b", 16, .contiguous⟩)

theorem elementRank_sends (offset : ℤ) : Sends (Env.calm 0) 1 (Env.calm 0, elementRank offset)
    [elementDescription offset] := by
  refine ⟨(init_tableWf _ _).addFragment (by simp [init, shapes]) rfl, fun e he => ?_, rfl⟩
  obtain rfl := List.mem_singleton.1 he
  exact ⟨_, _, _, rfl, rfl, rfl, rfl, rfl, by simp [getBackend, Env.calm]⟩

/-- Rank 0 has created the dataset and not committed it yet. -/
theorem mpiDatasetCommit_collects_iff_line :
    Collects (Env.calm (0 : ℤ)) (init lineSpace none)
      [[elementDescription 4], [elementDescription 3]] none [[⟨3, 4⟩], [⟨4, 5⟩]] := by
  have h := @mpiDatasetCommit_collects_iff ℤ (Env.calm 0) (init lineSpace none) none
    [(Env.calm 0, elementRank 3), (Env.calm 0, elementRank 4)]
    [[elementDescription 3], [elementDescription 4]] [[elementDescription 4],
      [elementDescription 3]]
    (init_tableWf _ _) (fun e he => absurd he (by simp [init])) ⟨_, rfl⟩ (by simp [listed])
    (fun h => absurd rfl h) (.cons (elementRank_sends 3) (.cons (elementRank_sends 4) .nil))
    (.swap _ _ _)
  refine h.2 ?_
  unfold Mergeable
  decide

/-- The dataset has been opened, and another rank has written a fragment: rank 0 adds it to its
table and stores nothing. -/
theorem mpiDatasetCommit_loses : ∃ ds ds' : Dataset ℤ,
    openMdParse (Env.calm 0) lineSpace none ⟨[], []⟩ = .ok (some ds)
      ∧ ds.mpiDatasetCommit (Env.calm 0) [[elementDescription 0]] (some ⟨[], []⟩)
        = .ok (ds', some ⟨[], []⟩)
      ∧ ds'.shapes = [[⟨0, 1⟩]] :=
  ⟨_, _, rfl, rfl, rfl⟩

end Commit

end Dataset

end Esdm
