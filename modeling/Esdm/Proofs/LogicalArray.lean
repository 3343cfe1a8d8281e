import Esdm.LogicalArray
import Esdm.Proofs.Contents
import Esdm.Proofs.Partition
import Esdm.Proofs.Reads

/-!
# A dataset is an array

As long as the calls keep to the rules of the array, the dataset answers as the array does
(`init_simulates`).  What carries the simulation is that all fragments of the table hold the array's
values: a write cuts its data into new fragments of this kind, and a read puts together what the
fragments hold and paints the rest with the fill value.
-/

namespace Esdm

variable {V : Type}

namespace HypercubeSet

theorem points_cons (cube : Hypercube) (cubes : HypercubeSet) :
    points (cube :: cubes) = Hypercube.points cube ∪ points cubes := by
  ext p
  simp [points]

end HypercubeSet

namespace Dataspace

variable {space dataspace : Dataspace}

/-- A space with all of its points in the domain lies inside, dimension by dimension. -/
theorem fits_of_subset_domain (hs : ∀ d ∈ space.dim, 0 < d.size)
    (h : Hypercube.points space.getExtends ⊆ dataspace.domain) :
    List.Forall₂ (fun s d : Dim => 0 < s.size ∧ 0 ≤ s.offset
      ∧ (d.size = 0 ∨ s.size + s.offset ≤ d.size)) space.dim dataspace.dim := by
  have hfirst : space.dim.map Dim.offset ∈ Hypercube.points space.getExtends := by
    refine List.forall₂_map_left_iff.2 (List.forall₂_map_right_iff.2 (List.forall₂_same.2 ?_))
    intro d hd
    have := hs d hd
    exact ⟨le_rfl, by dsimp only; omega⟩
  have hlast : space.dim.map (fun d => d.offset + d.size - 1)
      ∈ Hypercube.points space.getExtends := by
    refine List.forall₂_map_left_iff.2 (List.forall₂_map_right_iff.2 (List.forall₂_same.2 ?_))
    intro d hd
    have := hs d hd
    exact ⟨by dsimp only; omega, by dsimp only; omega⟩
  have h1 := List.forall₂_map_left_iff.1 (h hfirst)
  have h2 := List.forall₂_map_left_iff.1 (h hlast)
  refine (List.forall₂_and_left _ _).2 ⟨hs, List.Forall₂.mp (fun s d h h' => ?_) h1 h2⟩
  omega

theorem dim_of_subset_domain (hs : ∀ d ∈ space.dim, 0 < d.size)
    (h : Hypercube.points space.getExtends ⊆ dataspace.domain) :
    ∀ d ∈ space.dim, 0 < d.size ∧ 0 ≤ d.offset := by
  have hfits : List.Forall₂ (fun s _ : Dim => (0 < s.size ∧ 0 ≤ s.offset) ∧ True) space.dim
      dataspace.dim := (fits_of_subset_domain hs h).imp fun s d h => ⟨⟨h.1, h.2.1⟩, trivial⟩
  exact ((List.forall₂_and_left _ _).1 hfits).1

end Dataspace

namespace Fragment

theorem Carries.congr {A A' : List ℤ → Option V} {type : ElemType} {f : Fragment V}
    (h : f.Carries A type) (hA : ∀ p ∈ Hypercube.points f.shape, A' p = A p) :
    f.Carries A' type where
  type := h.type
  dim := h.dim
  stride := h.stride
  backend := h.backend
  elements := h.elements
  actualBytes := h.actualBytes
  stored := by
    obtain ⟨stored, hs, hvalues⟩ := h.stored
    exact ⟨stored, hs, fun p hp => (hA p hp).trans (hvalues p hp)⟩
  loaded := by
    obtain hn | ⟨hs, data, hb, hdata⟩ := h.loaded
    · exact .inl hn
    · exact .inr ⟨hs, data, hb, fun p hp => (hA p hp).trans (hdata p hp)⟩

theorem Carries.leave {A : List ℤ → Option V} {type : ElemType} {f : Fragment V}
    (h : f.Carries A type) : f.leave = f := by
  obtain ⟨-, hb⟩ | ⟨-, data, hb, -⟩ := h.loaded
  · rw [Fragment.leave, hb]
  · rw [Fragment.leave, hb]

end Fragment

namespace LogicalArray.Delivers

theorem lookup {a : LogicalArray V} {space : Dataspace} {user user' : Mem V}
    (h : a.Delivers space user .success user') :
    ∀ p ∈ Hypercube.points space.getExtends, a.lookup p = some (user' (space.elementIndex p)) := by
  refine (h.shown fun p hp hnone => ?_).2
  have := (h.hidden ⟨p, hp, hnone⟩).1
  cases this

end LogicalArray.Delivers

namespace Dataset

variable {ds ds' ds₁ ds₂ : Dataset V} {A A' : List ℤ → Option V} {pending : Option ℕ} {r : ℕ}

/-- The fragments of the table hold the values of `A`, but for one that is yet to be written. -/
structure Holds (A : List ℤ → Option V) (pending : Option ℕ) (ds : Dataset V) : Prop where
  table : TableWf ds
  bounded : ds.covered ⊆ ds.dataspace.domain
  carries : ∀ e ∈ ds.table, pending ≠ some e.2 →
    ∃ f, ds.fragment e.2 = .ok f ∧ f.Carries A ds.dataspace.type

namespace Holds

theorem fragment (h : Holds A none ds) {s : Hypercube} (he : (s, r) ∈ ds.table) :
    ∃ f, ds.fragment r = .ok f ∧ f.shape = s ∧ f.Carries A ds.dataspace.type := by
  obtain ⟨f, hf, hc⟩ := h.carries _ he (by simp)
  obtain ⟨f', hf', hs⟩ := h.table.fragment_eq he
  obtain rfl := Except.ok.inj (hf.symm.trans hf')
  exact ⟨f, hf, hs, hc⟩

theorem ne_none (h : Holds A none ds) {p : List ℤ} (hp : p ∈ ds.covered) : A p ≠ none := by
  obtain ⟨⟨s, r⟩, he, hp⟩ := hp
  obtain ⟨f, -, rfl, hc⟩ := h.fragment he
  obtain ⟨stored, -, hvalues⟩ := hc.stored
  simp [hvalues p hp]

theorem congr (h : Holds A none ds) (hA : ∀ p ∈ ds.covered, A' p = A p) : Holds A' none ds := by
  refine ⟨h.table, h.bounded, fun e he _ => ?_⟩
  obtain ⟨f, hf, hs, hc⟩ := h.fragment he
  exact ⟨f, hf, hc.congr fun p hp => hA p ⟨e, he, hs ▸ hp⟩⟩

theorem of_same (h : Holds A pending ds) (hs : SameTable ds ds') : Holds A pending ds' := by
  refine ⟨h.table.congr hs.table hs.fragments, ?_, fun e he hp => ?_⟩
  · rw [covered_congr hs.table, hs.dataspace]
    exact h.bounded
  · obtain ⟨f, hf, hc⟩ := h.carries e (hs.table ▸ he) hp
    refine ⟨f, ?_, hs.dataspace ▸ hc⟩
    rw [Dataset.fragment, hs.fragments]
    exact hf

theorem leave (h : Holds A none ds) : Holds A none ds.leave := by
  refine ⟨h.table.leave, h.bounded, fun e he hp => ?_⟩
  obtain ⟨f, hf, hc⟩ := h.carries e he hp
  obtain ⟨hget, hfreed⟩ := fragment_eq_ok.1 hf
  refine ⟨f, fragment_eq_ok.2 ⟨?_, hfreed⟩, hc⟩
  rw [leave_getElem?, hget, Option.map_some, hc.leave]

theorem created (h : Holds A none ds) {space : Dataspace} (hs : space.getExtends ∉ ds.shapes)
    (hd : Hypercube.points space.getExtends ⊆ ds.dataspace.domain) (buf : Option (Buf V)) :
    Holds A (some ds.fragments.length) (ds.created space buf) := by
  refine ⟨h.table.created hs buf, ?_, fun e he hp => ?_⟩
  · rw [covered_created]
    exact Set.union_subset h.bounded hd
  · obtain he | he := List.mem_append.1 he
    · obtain ⟨f, hf, hc⟩ := h.carries e he (by simp)
      obtain ⟨hget, hfreed⟩ := fragment_eq_ok.1 hf
      refine ⟨f, fragment_eq_ok.2 ⟨?_, hfreed⟩, hc⟩
      exact (List.getElem?_append_left (h.table.lt_length he)).trans hget
    · rw [List.mem_singleton.1 he] at hp
      exact absurd rfl hp

theorem setFragment (h : Holds A pending ds) (hpending : pending = none ∨ pending = some r)
    {f f' : Fragment V} (hf : ds.fragment r = .ok f) (hk : f.Keeps f') :
    Holds A (some r) (ds.setFragment r f') := by
  refine ⟨h.table.setFragment hf hk, h.bounded, fun e he her => ?_⟩
  have hne : r ≠ e.2 := fun heq => her (congrArg some heq)
  obtain ⟨g, hg, hc⟩ := h.carries e he (by
    rcases hpending with hp | hp
    · simp [hp]
    · rwa [hp])
  exact ⟨g, (fragment_setFragment_of_ne hne f').trans hg, hc⟩

/-- The fragment that was yet to be written holds its values. -/
theorem finish (h : Holds A (some r) ds) {f : Fragment V} (hf : ds.fragment r = .ok f)
    (hc : f.Carries A ds.dataspace.type) : Holds A none ds := by
  refine ⟨h.table, h.bounded, fun e he _ => ?_⟩
  by_cases her : e.2 = r
  · exact ⟨f, her ▸ hf, hc⟩
  · exact h.carries e he fun heq => her (Option.some.inj heq).symm

end Holds

/-- Fragments for the points of a set have been added. -/
structure Gains (A : List ℤ → Option V) (s : Set (List ℤ)) (ds ds' : Dataset V) : Prop where
  holds : Holds A none ds'
  dataspace : ds'.dataspace = ds.dataspace
  fillValue : ds'.fillValue = ds.fillValue
  covered : ds'.covered = ds.covered ∪ s

namespace Gains

variable {s t : Set (List ℤ)}

theorem trans (h : Gains A s ds ds₁) (h' : Gains A t ds₁ ds₂) : Gains A (s ∪ t) ds ds₂ where
  holds := h'.holds
  dataspace := h'.dataspace.trans h.dataspace
  fillValue := h'.fillValue.trans h.fillValue
  covered := by rw [h'.covered, h.covered, Set.union_assoc]

theorem of_subset (h : Holds A none ds) (hs : s ⊆ ds.covered) : Gains A s ds ds :=
  ⟨h, rfl, rfl, (Set.union_eq_left.2 hs).symm⟩

theorem congr (h : Gains A s ds ds₁) (hA : ∀ p ∈ ds₁.covered, A' p = A p) : Gains A' s ds ds₁ :=
  ⟨h.holds.congr hA, h.dataspace, h.fillValue, h.covered⟩

end Gains

section Write

variable {env : Env V} {user : Mem V} {space : Dataspace} {dataspace : Dataspace}

/-- What the data of a write is: the values of `A`, at regular places. -/
structure Writable (dataspace : Dataspace) (A : List ℤ → Option V) (env : Env V) (space : Dataspace)
    (user : Mem V) : Prop where
  update : ∀ s, env.update s = .success
  type : space.type = dataspace.type
  size : ∀ d ∈ space.dim, 0 < d.size
  stride : ∀ s ∈ space.getEffectiveStride, 0 < s
  inside : Hypercube.points space.getExtends ⊆ dataspace.domain
  data : ∀ p ∈ Hypercube.points space.getExtends, A p = some (user (space.elementIndex p))

/-- The new fragment is written. -/
theorem Holds.exists_write (h : Holds A (some r) ds) {i : ℤ}
    (hw : Writable ds.dataspace A env space fun q => user (i + q)) {backend : Option Backend}
    (hf : ds.fragment r = .ok { newFragment space (some (.user i)) with backend := backend })
    (status : Status) :
    ∃ f', ds.writeFragmentNonblocking env r user status = .ok (status, ds.setFragment r f')
      ∧ Holds A none (ds.setFragment r f') := by
  obtain ⟨f', hok, hc, hk⟩ := exists_writeFragmentNonblocking hw.update
    (Dataspace.dim_of_subset_domain hw.size hw.inside) hw.stride hw.data hf status
  exact ⟨f', hok, (h.setFragment (.inr rfl) hf hk).finish
    (fragment_setFragment_self hf hk.freed) (hw.type ▸ hc)⟩

theorem exists_subspaceOf {cube : Hypercube} (h : cube.length = space.dims) :
    ∃ sub, subspaceOf cube space = .ok sub :=
  Dataspace.exists_copyDatalayout ((Dataspace.createFromHypercube_dims ..).trans h)

/-- A part of the written space, with its data where the whole has it. -/
theorem Writable.part (hw : Writable dataspace A env space user) {cube : Hypercube}
    (hc : Hypercube.Within cube space.getExtends) (hne : ¬ Hypercube.isEmpty cube)
    {sub : Dataspace} (hsub : subspaceOf cube space = .ok sub) :
    Writable dataspace A env sub
      fun q => user (space.elementIndex (cube.map Range.start) + q) := by
  obtain ⟨hext, hsize⟩ := subspaceOf_getExtends hsub hne
  obtain ⟨-, htype, -, hstride⟩ := Dataspace.copyDatalayout_eq_ok hsub
  refine ⟨hw.update, htype.trans hw.type, hsize, hstride ▸ hw.stride, ?_, fun p hp => ?_⟩
  · rw [hext]
    exact hc.points_subset.trans hw.inside
  · rw [hext] at hp
    rw [Dataspace.elementIndex_cut hsub hp]
    exact hw.data p (hc.points_subset hp)

theorem fragmentChecks_of_subset (hs : ∀ d ∈ space.dim, 0 < d.size)
    (h : Hypercube.points space.getExtends ⊆ dataspace.domain) :
    fragmentChecks dataspace.dim space.dim = .ok () :=
  fragmentChecks_of_fits ((Dataspace.fits_of_subset_domain hs h).flip.imp
    fun _ _ h => ⟨h.1, h.2.2⟩)

theorem exists_writeCubes (hw : Writable dataspace A env space user) (backend : Backend) :
    ∀ {cubes : HypercubeSet} {ds : Dataset V}, ds.dataspace = dataspace → Holds A none ds →
      (∀ c ∈ cubes, Hypercube.Within c space.getExtends ∧ ¬ Hypercube.isEmpty c) →
      ∀ status, ∃ ds', writeCubes env space user backend cubes status ds = .ok (status, ds')
        ∧ Gains A (HypercubeSet.points cubes) ds ds'
  | [], ds, _, h, _, status => ⟨ds, rfl, .of_subset h (by simp)⟩
  | cube :: cubes, ds, hds, h, hcubes, status => by
    obtain ⟨hc, hne⟩ := hcubes cube (by simp)
    have hrest : ∀ c ∈ cubes, Hypercube.Within c space.getExtends ∧ ¬ Hypercube.isEmpty c :=
      fun c hc => hcubes c (by simp [hc])
    obtain ⟨sub, hsub⟩ := exists_subspaceOf (hc.length_eq.trans (Dataspace.getExtends_length space))
    have hpart := hw.part hc hne hsub
    have hext := (subspaceOf_getExtends hsub hne).1
    rw [writeCubes, hsub, Outcome.ok_bind, HypercubeSet.points_cons]
    dsimp only
    generalize space.elementIndex (cube.map Range.start) = i at hpart ⊢
    by_cases hmem : sub.getExtends ∈ ds.shapes
    · obtain ⟨r, hr⟩ := mem_shapes.1 hmem
      rw [createFragment_of_mem h.table hr, Outcome.ok_bind]
      obtain ⟨ds', hok, hg⟩ := exists_writeCubes hw backend hds h hrest status
      exact ⟨ds', hok, (Gains.of_subset h (hext ▸ subset_covered hmem)).trans hg⟩
    · have hinside : Hypercube.points sub.getExtends ⊆ ds.dataspace.domain := hds ▸ hpart.inside
      rw [createFragment_of_notMem hmem (fragmentChecks_of_subset hpart.size hinside),
        Outcome.ok_bind]
      dsimp only
      rw [if_pos rfl, created_fragment, Outcome.ok_bind]
      have hnew := created_fragment ds sub (some (.user i))
      have hk : (newFragment sub (some (.user i)) : Fragment V).Keeps
          { newFragment sub (some (.user i)) with backend := some backend } :=
        ⟨rfl, rfl, rfl, rfl, rfl, fun h => h, fun _ h => h, fun b hb => by simp [newFragment] at hb⟩
      obtain ⟨f', hok, h'⟩ :=
        ((h.created hmem hinside _).setFragment (.inr rfl) hnew hk).exists_write
          (hds.symm ▸ hpart) (fragment_setFragment_self hnew hk.freed) status
      have hg : Gains A (Hypercube.points cube) ds _ :=
        ⟨h', rfl, rfl, hext ▸ covered_created ds sub _⟩
      obtain ⟨ds', hok', hg'⟩ :=
        exists_writeCubes hw backend (hg.dataspace.trans hds) h' hrest status
      rw [hok, Outcome.ok_bind]
      exact ⟨ds', hok', hg.trans hg'⟩

theorem exists_makeSplitRecommendation (hs : ∀ d ∈ space.dim, 0 < d.size) (hd : 0 < space.dims)
    {env : SplitEnv} {backend : Backend} (hroom : space.type.sizeof ≤ backend.maxFragmentSize)
    (hedge : 1 ≤ env.targetEdgeLength space backend.maxFragmentSize) :
    ∃ cubes, makeSplitRecommendation env space backend = .ok cubes := by
  unfold makeSplitRecommendation
  cases backend.fragmentationMethod with
  | contiguous =>
    obtain ⟨hok, -⟩ | ⟨before, split, rest, size, slices, -, -, -, -, -, -, -, hok⟩ :=
      contiguousFragments_cases env hd hs hroom
    · exact ⟨_, hok⟩
    · exact ⟨_, hok⟩
  | equalized =>
    obtain ⟨cubes, hok, -⟩ := (balancedDims_total_iff hs).2 (.inl hedge)
    exact ⟨cubes, hok⟩

theorem exists_writeSlots (hw : Writable dataspace A env space user) (hd : 0 < space.dims)
    (hsuits : env.toSplitEnv.Suits space) :
    ∀ {slots : List (Backend × Slot)} {ds : Dataset V}, ds.dataspace = dataspace →
      Holds A none ds → (∀ q ∈ slots, q.1 ∈ env.backends ∧ q.2 ≠ .uninitialized
        ∧ ∀ c, q.2 = .cube c → Hypercube.Within c space.getExtends ∧ ¬ Hypercube.isEmpty c) →
      ∀ status, ∃ ds', writeSlots env space user slots status ds = .ok (status, ds')
        ∧ Gains A {p | ∃ q ∈ slots, ∃ c, q.2 = .cube c ∧ p ∈ Hypercube.points c} ds ds'
  | [], ds, _, h, _, status => ⟨ds, rfl, .of_subset h (by simp)⟩
  | (backend, slot) :: slots, ds, hds, h, hslots, status => by
    obtain ⟨hb, hinit, hcube⟩ := hslots _ (List.mem_cons_self ..)
    have hrest := fun q hq => hslots q (List.mem_cons_of_mem _ hq)
    cases slot with
    | uninitialized => exact absurd rfl hinit
    | null =>
      obtain ⟨ds', hok, hg⟩ := exists_writeSlots hw hd hsuits hds h hrest status
      refine ⟨ds', hok, ?_⟩
      simpa using hg
    | cube c =>
      obtain ⟨hc, hne⟩ := hcube c rfl
      obtain ⟨sub, hsub⟩ :=
        exists_subspaceOf (hc.length_eq.trans (Dataspace.getExtends_length space))
      obtain ⟨hext, hsize⟩ := subspaceOf_getExtends hsub hne
      obtain ⟨hlen, htype, -⟩ := subspaceOf_eq_ok hsub
      have hdims : sub.dims = space.dims := by
        rw [← Dataspace.getExtends_length, hext, hlen]
      have hroom : sub.type.sizeof ≤ backend.maxFragmentSize := htype ▸ hsuits.room backend hb
      obtain ⟨cubes, hcubes⟩ := exists_makeSplitRecommendation hsize (hdims ▸ hd) hroom
        (hsuits.edge backend hb sub htype)
      have hwithin : ∀ k ∈ cubes, Hypercube.Within k space.getExtends
          ∧ ¬ Hypercube.isEmpty k := by
        intro k hk
        have hkc := makeSplitRecommendation_within hsize hcubes k hk
        rw [hext] at hkc
        exact ⟨hkc.trans hc, makeSplitRecommendation_not_isEmpty hsize hroom hcubes k hk⟩
      obtain ⟨ds₁, hok₁, hg₁⟩ := exists_writeCubes hw backend hds h hwithin status
      obtain ⟨ds', hok, hg⟩ := exists_writeSlots hw hd hsuits (hg₁.dataspace.trans hds) hg₁.holds
        hrest status
      refine ⟨ds', ?_, ?_⟩
      · rw [writeSlots, hsub, Outcome.ok_bind, hcubes, Outcome.ok_bind, hok₁, Outcome.ok_bind]
        exact hok
      · have hpoints : HypercubeSet.points cubes = Hypercube.points c := by
          refine Set.Subset.antisymm (fun p hp => ?_) fun p hp => ?_
          · obtain ⟨k, hk, hpk⟩ := hp
            have hkc := makeSplitRecommendation_within hsize hcubes k hk
            rw [hext] at hkc
            exact hkc.points_subset hpk
          · exact makeSplitRecommendation_covers hsize hroom hcubes p (hext ▸ hp)
        have hset : {p | ∃ q ∈ (backend, Slot.cube c) :: slots, ∃ c, q.2 = .cube c
            ∧ p ∈ Hypercube.points c} = HypercubeSet.points cubes
              ∪ {p | ∃ q ∈ slots, ∃ c, q.2 = .cube c ∧ p ∈ Hypercube.points c} := by
          ext p
          simp [hpoints]
        rw [hset]
        exact hg₁.trans hg

/-- A write adds fragments for the points that it writes. -/
theorem exists_writeBlocking (hw : Writable ds.dataspace A env space user) (hd : 0 < space.dims)
    (hsuits : env.toSplitEnv.Suits space) (h : Holds A none ds) :
    ∃ ds', ds.writeBlocking env user space = .ok (.success, ds')
      ∧ Gains A (Hypercube.points space.getExtends) ds ds' := by
  have hn : 0 < env.backends.length := List.length_pos_of_mem env.fastestBackend_mem
  obtain ⟨slots, hok, hu⟩ : ∃ slots, splitToBackends env.toSplitEnv space = .ok slots
      ∧ Slot.uninitialized ∉ slots := by
    rcases hdim : backendDim space with _ | i
    · rw [splitToBackends_of_none hn hsuits.bestBackend hdim]
      refine ⟨_, rfl, fun hmem => ?_⟩
      rcases List.mem_or_eq_of_mem_set hmem with hm | hm
      · cases List.eq_of_mem_replicate hm
      · cases hm
    · obtain ⟨r, hr⟩ := exists_of_backendDim hdim
      rw [splitToBackends_of_some hn hdim hr]
      exact backendSlots_initialized_iff.2 (hsuits.bounds i r hdim hr).isChain
  obtain ⟨hlen, hcube, hcover⟩ := splitToBackends_eq_ok hw.size hok
  have hslots : ∀ q ∈ env.backends.zip slots, q.1 ∈ env.backends ∧ q.2 ≠ .uninitialized
      ∧ ∀ c, q.2 = .cube c →
        Hypercube.Within c space.getExtends ∧ ¬ Hypercube.isEmpty c := by
    intro q hq
    obtain ⟨hb, hs⟩ := List.of_mem_zip hq
    exact ⟨hb, fun heq => hu (heq ▸ hs), fun c heq => hcube c (heq ▸ hs)⟩
  obtain ⟨ds', hok', hg⟩ := exists_writeSlots hw hd hsuits rfl h hslots .success
  refine ⟨ds', ?_, ?_⟩
  · rw [writeBlocking, enqueueWrite, hok, Outcome.ok_bind, hok']
  · convert hg using 1
    ext p
    constructor
    · intro hp
      obtain ⟨c, hc, hpc⟩ := hcover hu p hp
      rw [← @List.map_snd_zip _ _ env.backends slots hlen.le] at hc
      obtain ⟨q, hq, hqc⟩ := List.mem_map.1 hc
      exact ⟨q, hq, c, hqc, hpc⟩
    · rintro ⟨q, hq, c, hqc, hpc⟩
      exact (hslots q hq).2.2 c hqc |>.1.points_subset hpc

end Write

section Covering

variable {region : Hypercube} {env : Env V}

/-- A fragment of the table has a point in common with the region. -/
def Meets (ds : Dataset V) (region : Hypercube) (r : ℕ) : Prop :=
  ∃ s, (s, r) ∈ ds.table ∧ (Hypercube.points s ∩ Hypercube.points region).Nonempty

theorem makeSetCoveringRegion_meets (hs : HypercubeSet.Wf ds.dims ds.shapes)
    (hr : region.length = ds.dims) (he : ¬ Hypercube.isEmpty region) :
    ∀ r ∈ ds.makeSetCoveringRegion env region, ds.Meets region r := by
  unfold makeSetCoveringRegion
  rcases hl : ds.lookupForShape region with _ | r
  · intro r hr'
    obtain ⟨e, hm, rfl⟩ := List.mem_map.1 hr'
    obtain ⟨hmem, hov⟩ := List.mem_filter.1 hm
    have hmem := (env.order_perm ds.table).mem_iff.1 hmem
    have hlen : e.1.length = region.length := by
      rw [(hs _ (mem_shapes.2 ⟨e.2, hmem⟩)).1, hr]
    obtain ⟨p, hp, hp'⟩ := (Hypercube.doesIntersect_iff hlen).1
      (Hypercube.overlap_ne_zero_iff.1 (of_decide_eq_true hov))
    exact ⟨e.1, hmem, p, hp, hp'⟩
  · intro r' hr'
    obtain rfl := List.mem_singleton.1 hr'
    obtain ⟨p, hp⟩ := Hypercube.points_nonempty_iff.2 he
    exact ⟨region, mem_of_lookupForShape hl, p, hp, hp⟩

open Grid in
theorem fragmentsInRegionInternal_meets (hF : Forest ds.dims none ds.gridHeap)
    (hG : Geometry ds.table ds.gridHeap) (hr : region.length = ds.dims) {g : ℕ} {grid : Grid}
    {p : List ℤ} (hg : ds.gridHeap[g]? = some grid) (hd : grid.done = true)
    (hpr : p ∈ Hypercube.points region) (hpb : p ∈ Hypercube.points (box grid.axes)) :
    ∃ fragments, ds.fragmentsInRegionInternal region ds.gridHeap.length g
        = .ok (.success, fragments)
      ∧ ∀ r ∈ fragments, ds.Meets region r := by
  obtain ⟨fragments, heq, leaves, -, hm, hfr⟩ := fragmentsInRegionInternal_selects
    (hF.node hg).pos hr ds.gridHeap.length g (Nat.sub_le _ g) hg (hG.hierarchy_of_done hF hg hd)
    (hF.filled (hF.leavesFilled_of_done hg hd)) hpr hpb
  refine ⟨fragments, heq, fun r hr => ?_⟩
  obtain ⟨c, hc, hcr⟩ := List.mem_map.1 (hfr ▸ List.mem_map_of_mem hr)
  obtain ⟨-, cube, q, hext, hq, hqr⟩ := (hm c).1 hc
  exact ⟨cube, mem_table_of_leaf hG hcr hext, q, hq, hqr⟩

theorem fragmentsCoveringRegion_meets (hI : Inv ds) (hG : Grid.Geometry ds.table ds.gridHeap)
    (hr : region.length = ds.dims) (he : ¬ Hypercube.isEmpty region) {c : Covering}
    (h : ds.fragmentsCoveringRegion env region = .ok c) :
    ∀ r ∈ c.fragments, ds.Meets region r := by
  have hF := hI.grids.forest
  have hL := hI.grids.listed
  have hlisted : ∀ g ∈ ds.grids.take ds.gridCount,
      ∃ grid, ds.gridHeap[g]? = some grid ∧ grid.done = true := by
    intro g hg
    have hm := List.mem_of_mem_take hg
    have hget := List.getElem?_eq_getElem (hL.valid g hm)
    exact ⟨_, hget, (hL.complete hget hm).1 hg⟩
  obtain ⟨best, hbest, hcase⟩ := bestGrid_spec hF hG hr he _ none 0x7fffffffffffffff hlisted
  rw [fragmentsCoveringRegion, gridCoveringRegion, hbest, Outcome.ok_bind] at h
  obtain rfl | ⟨g, -, rfl, grid, hg, hd, hwithin⟩ := hcase
  · obtain ⟨⟨full, rest⟩, -, h⟩ := Outcome.bind_eq_ok.1 h
    obtain rfl := Except.ok.inj h
    exact makeSetCoveringRegion_meets hI.shapes hr he
  · obtain ⟨p, hp⟩ := Hypercube.points_nonempty_iff.2 he
    obtain ⟨fragments, heq, hmeets⟩ :=
      fragmentsInRegionInternal_meets hF hG hr hg hd hp (hwithin.points_subset hp)
    obtain ⟨cs, hcs, -⟩ := Grid.done_iff.1 hd
    dsimp only at h
    rw [fragmentsInRegion, grid_eq_ok.2 hg, Outcome.ok_bind,
      eassert_of (show grid.cells ≠ none by simp [hcs]), Outcome.ok_bind, heq,
      Outcome.ok_bind] at h
    obtain rfl := Except.ok.inj h
    exact hmeets

end Covering

section Read

variable {env : Env V} {user : Mem V} {space : Dataspace}

/-- What the buffer of a read is. -/
structure Receives (dataspace : Dataspace) (env : Env V) (space : Dataspace) : Prop where
  retrieve : ∀ s, env.retrieve s = .success
  type : space.type = dataspace.type
  size : ∀ d ∈ space.dim, 0 < d.size
  inj : Set.InjOn space.elementIndex (Hypercube.points space.getExtends)

/-- The points of a region that lie in the given fragments. -/
def within (ds : Dataset V) (region : Hypercube) (fragments : List ℕ) : Set (List ℤ) :=
  {p | p ∈ Hypercube.points region ∧ ∃ e ∈ ds.table, e.2 ∈ fragments ∧ p ∈ Hypercube.points e.1}

theorem within_cons (hw : TableWf ds) {s region : Hypercube} (he : (s, r) ∈ ds.table)
    (fragments : List ℕ) : ds.within region (r :: fragments)
      = (Hypercube.points s ∩ Hypercube.points region) ∪ ds.within region fragments := by
  ext p
  constructor
  · rintro ⟨hp, e, he', hm, hpe⟩
    rcases List.mem_cons.1 hm with hm | hm
    · obtain rfl := hw.eq_of_ref_eq he' he hm
      exact .inl ⟨hpe, hp⟩
    · exact .inr ⟨hp, e, he', hm, hpe⟩
  · rintro (⟨hps, hp⟩ | ⟨hp, e, he', hm, hpe⟩)
    · exact ⟨hp, _, he, List.mem_cons_self .., hps⟩
    · exact ⟨hp, e, he', List.mem_cons_of_mem _ hm, hpe⟩

theorem dims_of_common {f : Dataspace} (h : (commonPoints f space).Nonempty) :
    f.dims = space.dims := by
  obtain ⟨p, hp, hp'⟩ := h
  have h1 := Hypercube.length_of_mem_points hp
  have h2 := Hypercube.length_of_mem_points hp'
  rw [Dataspace.getExtends_length] at h1 h2
  exact h1.symm.trans h2

/-- The tasks of a read put the fragments' values into the user's buffer. -/
theorem exists_enqueueRead {dataspace : Dataspace} (hr : Receives dataspace env space) :
    ∀ {fragments : List ℕ} {ds : Dataset V} {user : Mem V}, ds.dataspace = dataspace →
      Holds A none ds → (∀ r ∈ fragments, ds.Meets space.getExtends r) → ∀ status,
      ∃ user' ds', enqueueRead env space fragments status user ds = .ok (status, user', ds')
        ∧ ds'.table = ds.table ∧ Gains A ∅ ds ds'
        ∧ Paints space.elementIndex A (ds.within space.getExtends fragments) user user'
  | [], ds, user, _, h, _, status => by
    refine ⟨user, ds, rfl, rfl, .of_subset h (Set.empty_subset _), ?_⟩
    have : ds.within space.getExtends [] = ∅ := by
      ext p
      simp [within]
    rw [this]
    exact .refl ..
  | r :: fragments, ds, user, hds, h, hmeets, status => by
    obtain ⟨s, he, hov⟩ := hmeets r (List.mem_cons_self ..)
    obtain ⟨f, hf, rfl, hc⟩ := h.fragment he
    have hlen := dims_of_common hov
    have htype : ds.dataspace.type = space.type := by rw [hds, hr.type]
    obtain ⟨f', user₁, hread, hc', hpaints⟩ :=
      exists_readFragment (htype ▸ hc) hlen hov hr.retrieve hr.inj user
    have hk := readFragment_keeps hread
    have h' : Holds A none (ds.setFragment r f') := (h.setFragment (.inl rfl) hf hk).finish
      (fragment_setFragment_self hf hk.freed) (htype ▸ hc')
    have hds' : (ds.setFragment r f').dataspace = dataspace := hds
    obtain ⟨user', ds', hok, ht, hg, hpaints'⟩ := @exists_enqueueRead dataspace hr fragments
      (ds.setFragment r f') user₁ hds' h' (fun q hq => hmeets q (List.mem_cons_of_mem _ hq)) status
    refine ⟨user', ds', ?_, ht, ⟨hg.holds, hg.dataspace, hg.fillValue, hg.covered⟩, ?_⟩
    · rw [enqueueRead, hf, Outcome.ok_bind, hread]
      exact hok
    · rw [within_cons h.table he]
      exact hpaints.trans hpaints' (hr.inj.mono
        (Set.union_subset Set.inter_subset_right fun p hp => hp.1))

theorem exists_enqueueFill (hd : space.dims = ds.dims)
    (hinj : Set.InjOn space.elementIndex (Hypercube.points space.getExtends)) (v : V) :
    ∀ {cubes : HypercubeSet} {user : Mem V}, HypercubeSet.Wf ds.dims cubes →
      HypercubeSet.points cubes ⊆ Hypercube.points space.getExtends →
      ∃ user', enqueueFill env v space cubes user = .ok user'
        ∧ Paints space.elementIndex (fun _ => some v) (HypercubeSet.points cubes) user user'
  | [], user, _, _ => ⟨user, rfl, by rw [HypercubeSet.points_nil]; exact .refl ..⟩
  | cube :: cubes, user, hwf, hsub => by
    obtain ⟨hlen, hne⟩ := hwf cube (List.mem_cons_self ..)
    rw [HypercubeSet.points_cons, Set.union_subset_iff] at hsub
    have hext : (fillSpace space.type cube).getExtends = cube :=
      createFromHypercube_getExtends hne space.type
    have hcommon : commonPoints (fillSpace space.type cube) space = Hypercube.points cube := by
      rw [commonPoints, hext]
      exact Set.inter_eq_left.2 hsub.1
    obtain ⟨user₁, hcopy, hpaints⟩ := @copyData_paints V env.cast (fillSpace space.type cube) space
      (fun _ => v) user (fun _ => some v)
      (by rw [Dataspace.dims, fillSpace, List.length_map, hlen, hd]) rfl
      (hcommon ▸ Hypercube.points_nonempty_iff.2 hne) (hinj.mono (hcommon ▸ hsub.1)) fun _ _ => rfl
    obtain ⟨user', hok, hpaints'⟩ := exists_enqueueFill hd hinj v
      (fun c hc => hwf c (List.mem_cons_of_mem _ hc)) hsub.2
    refine ⟨user', ?_, ?_⟩
    · rw [enqueueFill, eassert_of (hlen.trans hd.symm), Outcome.ok_bind, hcopy]
      exact hok
    · rw [HypercubeSet.points_cons, ← hcommon]
      exact hpaints.trans hpaints' (hinj.mono (hcommon ▸ Set.union_subset hsub.1 hsub.2))

theorem exists_ioBytes (hw : TableWf ds) : ∀ {fragments : List ℕ},
    (∀ r ∈ fragments, ∃ s, (s, r) ∈ ds.table) → ∃ n, ds.ioBytes fragments = .ok n
  | [], _ => ⟨0, rfl⟩
  | r :: fragments, h => by
    obtain ⟨s, hs⟩ := h r (List.mem_cons_self ..)
    obtain ⟨f, hf, -⟩ := hw.fragment_eq hs
    obtain ⟨n, hn⟩ := exists_ioBytes hw fun q hq => h q (List.mem_cons_of_mem _ hq)
    exact ⟨f.dataspace.totalBytes + n, by rw [ioBytes, hf, Outcome.ok_bind, hn]; rfl⟩

/-- The contents of the array are what the fragments hold. -/
structure Matches (a : LogicalArray V) (ds : Dataset V) : Prop where
  holds : Holds a.contents none ds
  rest : ∀ p ∉ ds.covered, a.contents p = none
  fillValue : ds.fillValue = a.fillValue

variable {a : LogicalArray V} {p : List ℤ}

theorem Holds.lookup (h : Holds a.contents none ds) (hp : p ∈ ds.covered) :
    a.lookup p = a.contents p := by
  obtain ⟨v, hv⟩ := Option.ne_none_iff_exists'.1 (h.ne_none hp)
  rw [LogicalArray.lookup, hv, Option.some_or]

theorem Matches.lookup_of_notMem (h : Matches a ds) (hp : p ∉ ds.covered) :
    a.lookup p = ds.fillValue := by
  rw [LogicalArray.lookup, h.rest p hp, Option.none_or, h.fillValue]

theorem Covers.within_eq {region : Hypercube} {c : Covering} (hw : TableWf ds)
    (h : Covers ds region c) :
    ds.within region c.fragments = Hypercube.points region ∩ ds.covered := by
  have hreg : ∀ r ∈ c.fragments, ∃ e ∈ ds.table, e.2 = r := fun r hr => by
    obtain ⟨f, -, he⟩ := h.registered r hr
    exact ⟨_, he, rfl⟩
  ext p
  constructor
  · rintro ⟨hp, e, he, -, hpe⟩
    exact ⟨hp, e, he, hpe⟩
  · rintro ⟨hp, hc⟩
    by_contra hno
    refine h.hole p ((h.uncovered p).2 ⟨hp, ?_⟩) hc
    exact (notMem_fragments_iff hw hreg).1 fun hex => hno ⟨hp, hex⟩

/-- What the two passes of a read leave in the user's buffer: first the holes are painted, then the
fragments are read. -/
theorem Matches.delivers (h : Matches a ds) {user₁ user₂ : Mem V}
    (hinj : Set.InjOn space.elementIndex (Hypercube.points space.getExtends))
    (hfill : Paints space.elementIndex (fun _ => ds.fillValue)
      (Hypercube.points space.getExtends \ ds.covered) user user₁)
    (hread : Paints space.elementIndex a.contents
      (Hypercube.points space.getExtends ∩ ds.covered) user₁ user₂) :
    a.Delivers space user .success user₂ := by
  have hshown : ∀ p ∈ Hypercube.points space.getExtends,
      a.lookup p = some (user₂ (space.elementIndex p)) := by
    intro p hp
    by_cases hc : p ∈ ds.covered
    · rw [h.holds.lookup hc, hread.painted p ⟨hp, hc⟩]
    · rw [h.lookup_of_notMem hc, hfill.painted p ⟨hp, hc⟩,
        hread.apply_of_notMem hinj Set.inter_subset_left hp fun hm => hc hm.2]
  refine ⟨fun _ => ⟨rfl, hshown⟩, ?_, fun q hq => ?_⟩
  · rintro ⟨p, hp, hnone⟩
    rw [hshown p hp] at hnone
    cases hnone
  · rw [hread.kept q fun p hp => hq p hp.1, hfill.kept q fun p hp => hq p hp.1]

theorem delivers_of_hidden (hp : p ∈ Hypercube.points space.getExtends) (h : a.lookup p = none)
    (user : Mem V) : a.Delivers space user .incompleteData user :=
  ⟨fun hall => absurd h (hall p hp), fun _ => ⟨rfl, rfl⟩, fun _ _ => rfl⟩

/-- The first pass: the holes are painted, unless there is nothing to paint them with. -/
theorem Matches.fillHoles (h : Matches a ds) {c : Covering} (hcov : Covers ds space.getExtends c)
    (hr : Receives ds.dataspace env space) (hd : space.dims = ds.dims) (user : Mem V) :
    (∃ user₁, ds.fillHoles env user space c = .ok (.success, user₁)
      ∧ Paints space.elementIndex (fun _ => ds.fillValue)
        (Hypercube.points space.getExtends \ ds.covered) user user₁)
    ∨ (ds.fillHoles env user space c = .ok (.incompleteData, user)
      ∧ ∃ p ∈ Hypercube.points space.getExtends, a.lookup p = none) := by
  by_cases hfull : c.fullyCovered = true
  · refine .inl ⟨user, by rw [Dataset.fillHoles, if_pos hfull]; rfl, ?_⟩
    rw [Set.sdiff_eq_empty.2 (hcov.fullyCovered.1 hfull)]
    exact .refl ..
  have htype : space.type = ds.dataspace.type := hr.type
  rcases hv : ds.fillValue with _ | v
  · obtain ⟨p, hp, hnot⟩ := Set.not_subset.1 (mt hcov.fullyCovered.2 hfull)
    refine .inr ⟨?_, p, hp, (h.lookup_of_notMem hnot).trans hv⟩
    rw [Dataset.fillHoles, if_neg hfull, eassert_of htype, hv]
    rfl
  · have hholes : HypercubeSet.points c.uncovered
        = Hypercube.points space.getExtends \ ds.covered := Set.ext fun p => hcov.mem_uncovered
    obtain ⟨user₁, hok, hpaints⟩ := @exists_enqueueFill V ds env space hd hr.inj v c.uncovered user
      hcov.wf (hholes ▸ Set.sdiff_subset)
    refine .inl ⟨user₁, ?_, hholes ▸ hpaints⟩
    rw [Dataset.fillHoles, if_neg hfull, eassert_of htype, hv, Outcome.ok_bind]
    dsimp only
    rw [hok]
    rfl

/-- A read shows the array. -/
theorem exists_readBlocking (h : Matches a ds) (hI : Inv ds)
    (hG : Grid.Geometry ds.table ds.gridHeap) (hr : Receives ds.dataspace env space)
    (hd : space.dims = ds.dims) {allowWriteback : Bool}
    (hback : allowWriteback = true → (∀ s, env.update s = .success) ∧ 0 < space.dims
      ∧ env.toSplitEnv.Suits space ∧ ∀ s ∈ space.getEffectiveStride, 0 < s) :
    ∃ status user' ds', ds.readBlocking env user space allowWriteback = .ok (status, user', ds')
      ∧ a.Delivers space user status user' ∧ Gains a.contents ∅ ds ds' := by
  have hlen : space.getExtends.length = ds.dims := (Dataspace.getExtends_length space).trans hd
  have hne := Dataspace.getExtends_not_isEmpty hr.size
  obtain ⟨c, hc, hcov⟩ := fragmentsCoveringRegion_spec env hI hG hlen hne
  have hmeets := fragmentsCoveringRegion_meets hI hG hlen hne hc
  unfold readBlocking
  rw [hc, Outcome.ok_bind]
  obtain ⟨user₁, hfill, hpaints⟩ | ⟨hfill, p, hp, hnone⟩ := h.fillHoles hcov hr hd user
  · rw [hfill, Outcome.ok_bind]
    obtain ⟨user₂, ds₁, hread, ht, hgains, hpaints₂⟩ := @exists_enqueueRead V a.contents env space
      ds.dataspace hr c.fragments ds user₁ rfl h.holds hmeets .success
    rw [hcov.within_eq h.holds.table] at hpaints₂
    have hdel := h.delivers hr.inj hpaints hpaints₂
    obtain ⟨n, hn⟩ := @exists_ioBytes V ds₁ hgains.holds.table c.fragments fun r hr => by
      obtain ⟨s, hs, -⟩ := hmeets r hr
      exact ⟨s, ht ▸ hs⟩
    dsimp only
    rw [hread, Outcome.ok_bind]
    dsimp only
    rw [hn, Outcome.ok_bind]
    split_ifs with hwb
    · -- what is written back has been in the fragments before
      obtain ⟨hallow, -, hfull, -⟩ := hwb
      obtain ⟨hupdate, hpos, hsuits, hstride⟩ := hback hallow
      have hsub := hcov.fullyCovered.1 hfull
      have hinside : Hypercube.points space.getExtends ⊆ ds.dataspace.domain :=
        hsub.trans h.holds.bounded
      have hdata := fun p hp => hpaints₂.painted p ⟨hp, hsub hp⟩
      obtain ⟨ds₂, hwrite, hgains₂⟩ := @exists_writeBlocking V ds₁ a.contents env user₂ space
        ⟨hupdate, hgains.dataspace.symm ▸ hr.type, hr.size, hstride,
          hgains.dataspace.symm ▸ hinside, hdata⟩ hpos hsuits hgains.holds
      rw [hwrite]
      refine ⟨_, _, _, rfl, hdel, hgains₂.holds, hgains₂.dataspace.trans hgains.dataspace,
        hgains₂.fillValue.trans hgains.fillValue, ?_⟩
      rw [hgains₂.covered, hgains.covered, Set.union_empty, Set.union_eq_left.2 hsub]
    · exact ⟨_, _, _, rfl, hdel, hgains⟩
  · rw [hfill]
    exact ⟨_, _, _, rfl, delivers_of_hidden hp hnone user,
      .of_subset h.holds (Set.empty_subset _)⟩

end Read

section Step

variable {a : LogicalArray V} {dataspace : Dataspace} {region : Hypercube}
  {new : List ℤ → Option V} {p : List ℤ} {env : Env V}

theorem Matches.of_same (h : Matches a ds) (hs : SameTable ds ds') : Matches a ds' := by
  refine ⟨h.holds.of_same hs, ?_, hs.fillValue.trans h.fillValue⟩
  rw [covered_congr hs.table]
  exact h.rest

theorem Matches.leave (h : Matches a ds) : Matches a ds.leave :=
  ⟨h.holds.leave, h.rest, h.fillValue⟩

theorem Matches.gains (h : Matches a ds) (hg : Gains a.contents ∅ ds ds') : Matches a ds' := by
  refine ⟨hg.holds, ?_, hg.fillValue.trans h.fillValue⟩
  rw [hg.covered, Set.union_empty]
  exact h.rest

/-- The region has got fragments, and its new contents. -/
theorem Matches.update (h : Matches a ds)
    (hg : Gains (a.update region new).contents (Hypercube.points region) ds ds') :
    Matches (a.update region new) ds' := by
  refine ⟨hg.holds, fun p hp => ?_, hg.fillValue.trans h.fillValue⟩
  rw [hg.covered] at hp
  exact (if_neg fun hr => hp (.inr hr)).trans (h.rest p fun hc => hp (.inl hc))

/-- The fragments hold the new contents of a region that are not new to them. -/
theorem update_contents (hnew : ∀ p ∈ Hypercube.points region, p ∈ ds.covered →
    new p = a.contents p) : ∀ p ∈ ds.covered, (a.update region new).contents p = a.contents p := by
  intro p hp
  by_cases hr : p ∈ Hypercube.points region
  · exact (if_pos hr).trans (hnew p hr hp)
  · exact if_neg hr

/-- The dataset stands for the array. -/
structure Represents (dataspace : Dataspace) (a : LogicalArray V) (ds : Dataset V) : Prop
    extends Matches a ds where
  dataspace : ds.dataspace = dataspace
  inv : Inv ds
  geometry : Grid.Geometry ds.table ds.gridHeap

theorem init_represents (dataspace : Dataspace) (fillValue : Option V) :
    Represents dataspace (.empty fillValue) (init dataspace fillValue) where
  holds := ⟨init_tableWf .., by simp [init, Dataset.covered], by simp [init]⟩
  rest _ _ := rfl
  fillValue := rfl
  dataspace := rfl
  inv := init_inv ..
  geometry := by
    refine ⟨?_, ?_⟩ <;> simp [init]

theorem steps_dataspace {P : Dataspace → Prop} {S : Axis → Axis → Prop} (h : Steps P S ds ds') :
    ds'.dataspace = ds.dataspace := by
  induction h with
  | refl => rfl
  | tail _ hs ih => exact hs.dataspace.trans ih

theorem Represents.step (h : Represents dataspace a ds) {a' : LogicalArray V} {c : Call V}
    {result : Result V} (hstep : ds.step c = .ok result)
    (hm : Matches a' result.dataset) : Represents dataspace a' result.dataset :=
  ⟨hm, (steps_dataspace (step_steps hstep)).trans h.dataspace, (step_inv h.inv hstep).1,
    step_geometry h.inv h.geometry hstep⟩

variable {c : Call V} {result : Result V} {space : Memspace} {user : Mem V} {g : ℕ}

/-- The data of a write, as contents of the array after it. -/
theorem writable_of_regular (hr : Call.Regular dataspace env space)
    (hin : Hypercube.points space.getExtends ⊆ dataspace.domain)
    (hdata : ∀ p ∈ Hypercube.points space.getExtends,
      new p = some (user (space.elementIndex p))) :
    Writable dataspace (a.update space.getExtends new).contents env space.toDataspace user :=
  ⟨hr.update, hr.type, space.size_pos,
    Dataspace.getEffectiveStride_pos space.size_pos hr.stride, hin,
    fun p hp => (if_pos hp).trans (hdata p hp)⟩

theorem Matches.accepts (h : Matches a ds) (hacc : a.Accepts space.toDataspace user) :
    ∀ p ∈ Hypercube.points space.getExtends, p ∈ ds.covered →
      some (user (space.elementIndex p)) = a.contents p := by
  intro p hp hc
  obtain ⟨v, hv⟩ := Option.ne_none_iff_exists'.1 (h.holds.ne_none hc)
  rw [hv, hacc p hp v hv]

theorem Represents.write (hpos : 0 < dataspace.dims) (h : Represents dataspace a ds)
    (hr : Call.Regular dataspace env space) (hacc : a.Accepts space.toDataspace user)
    (hin : Hypercube.points space.getExtends ⊆ dataspace.domain) :
    ∃ ds', ds.step ⟨env, .write space user⟩ = .ok ⟨.success, none, ds'⟩
      ∧ Represents dataspace
        (a.update space.getExtends fun p => some (user (space.elementIndex p))) ds' := by
  have hw := @writable_of_regular V a dataspace _ env space user hr hin fun _ _ => rfl
  obtain ⟨ds', hok, hg⟩ := exists_writeBlocking (h.dataspace.symm ▸ hw)
    (lt_of_lt_of_eq hpos hr.dims.symm) hr.suits
    (h.holds.congr (update_contents (h.accepts hacc)))
  have hd : space.dims = ds.dims := hr.dims.trans (congrArg Dataspace.dims h.dataspace).symm
  have hstep : ds.step ⟨env, .write space user⟩ = .ok ⟨.success, none, ds'.leave⟩ := by
    rw [Dataset.step]
    dsimp only
    rw [eassert_of hd, Outcome.ok_bind, hok]
    rfl
  exact ⟨ds'.leave, hstep, h.step hstep (h.update hg).leave⟩

theorem Represents.read (hpos : 0 < dataspace.dims) (h : Represents dataspace a ds)
    (hr : Call.Regular dataspace env space)
    (hinj : Set.InjOn space.elementIndex (Hypercube.points space.getExtends)) :
    ∃ status user' ds', ds.step ⟨env, .read space user⟩ = .ok ⟨status, some user', ds'⟩
      ∧ a.Delivers space.toDataspace user status user' ∧ Represents dataspace a ds' := by
  have hd : space.dims = ds.dims := hr.dims.trans (congrArg Dataspace.dims h.dataspace).symm
  obtain ⟨status, user', ds', hok, hdel, hg⟩ := @exists_readBlocking V ds env user
    space.toDataspace a h.toMatches h.inv h.geometry
    ⟨hr.retrieve, h.dataspace.symm ▸ hr.type, space.size_pos, hinj⟩ hd true fun _ =>
      ⟨hr.update, lt_of_lt_of_eq hpos hr.dims.symm, hr.suits,
        Dataspace.getEffectiveStride_pos space.size_pos hr.stride⟩
  have hstep : ds.step ⟨env, .read space user⟩ = .ok ⟨status, some user', ds'.leave⟩ := by
    rw [Dataset.step]
    dsimp only
    rw [eassert_of hd, Outcome.ok_bind, hok]
    rfl
  exact ⟨status, user', ds'.leave, hstep, hdel, h.step hstep (h.gains hg).leave⟩

/-- The state in which a cell has been looked for. -/
theorem Represents.allocated (h : Represents dataspace a ds)
    (hal : Relation.ReflTransGen Allocates ds ds₁) : Represents dataspace a ds₁ := by
  have hsteps : Steps (fun _ => False) (fun _ _ => False) ds ds₁ := allocates_steps hal
  have hsame := Allocates.sameTable hal
  exact ⟨h.of_same hsame, hsame.dataspace.trans h.dataspace,
    (hsteps.inv (fun _ h => h.elim) h.inv).1,
    hsteps.geometry (fun _ _ h => h.elim) (fun _ h => h.elim) h.inv h.geometry⟩

/-- A cell that has been found has its fragment in the table. -/
theorem Represents.mem_table_of_fits (h : Represents dataspace a ds) (hd : space.dims = ds.dims)
    (hal : Relation.ReflTransGen Allocates ds ds₁) {k i : ℕ} {grid : Grid} {cs : List GridEntry}
    {e : GridEntry} {index : List ℤ} (hF : Fits ds₁ space.toDataspace k i grid cs e index)
    (hr : e.fragment = some r) : (space.getExtends, r) ∈ ds₁.table := by
  have h₁ := h.allocated hal
  have hdims : ds₁.dims = ds.dims := congrArg Dataspace.dims (h₁.dataspace.trans h.dataspace.symm)
  exact hF.mem_table h₁.geometry
    (hd.trans (hdims.symm.trans (h₁.inv.grids.forest.node hF.heap).axes.symm)) hr

theorem exists_fill (h : Holds A none ds) (hw : Writable ds.dataspace A env space.toDataspace user)
    (hnew : space.getExtends ∉ ds.shapes) {i : ℕ}
    (hfill : (ds.created space.toDataspace (some (.user 0))).fillCell g i ds.fragments.length
      = .ok ds₁) :
    ∃ ds', ds₁.writeFragmentBlocking env ds.fragments.length user = .ok (.success, ds')
      ∧ Gains A (Hypercube.points space.getExtends) ds ds' := by
  have hsame := fillCell_sameTable hfill
  have hf : ds₁.fragment ds.fragments.length
      = .ok { newFragment space.toDataspace (some (.user 0)) with backend := none } := by
    rw [Dataset.fragment, hsame.fragments]
    exact created_fragment ds space.toDataspace _
  have hw' : Writable ds₁.dataspace A env space.toDataspace fun q => user (0 + q) := by
    have hd : ds₁.dataspace = ds.dataspace := hsame.dataspace
    simpa only [zero_add, hd] using hw
  obtain ⟨f', hok, h'⟩ :=
    ((h.created hnew hw.inside _).of_same hsame).exists_write hw' hf .success
  refine ⟨ds₁.setFragment ds.fragments.length f', hok, h', hsame.dataspace, hsame.fillValue, ?_⟩
  rw [← covered_created ds space.toDataspace (some (.user 0))]
  exact covered_congr hsame.table

theorem Represents.writeGrid (h : Represents dataspace a ds)
    (hr : Call.Regular dataspace env space) (hacc : a.Accepts space.toDataspace user)
    (hin : Hypercube.points space.getExtends ⊆ dataspace.domain)
    (hstep : ds.step ⟨env, .writeGrid g space user⟩ = .ok result) :
    (result.status = .success ∨ result.status = .invalidArgumentError)
      ∧ Represents dataspace (a.step (.writeGrid g space user) result.status) result.dataset := by
  obtain ⟨_, hd, hx⟩ := Outcome.bind_eq_ok.1 hstep
  obtain ⟨ds', hx, hres⟩ := returns_eq_ok hx
  obtain ⟨ds₁, hal, hrest⟩ := writeGrid_eq_ok hx
  have hsame := Allocates.sameTable hal
  have hm₁ := h.of_same hsame
  have hholds := hm₁.holds.congr (update_contents (hm₁.accepts hacc))
  have hdone : (result.status = .success
      ∧ Gains (a.update space.getExtends fun p => some (user (space.elementIndex p))).contents
        (Hypercube.points space.getExtends) ds₁ ds')
      ∨ (result.status = .invalidArgumentError ∧ ds' = ds₁) := by
    obtain ⟨hstatus, rfl⟩ | ⟨k, i, grid, cs, e, index, -, hF, hc⟩ := hrest
    · exact .inr ⟨hstatus, rfl⟩
    refine .inl ?_
    obtain ⟨hne, hstatus, rfl⟩ | ⟨-, r, hl, hstatus, hfill⟩ | ⟨-, hnew, -, ds₂, hfill, hwrite⟩ := hc
    · obtain ⟨r, hfr⟩ := Option.ne_none_iff_exists'.1 hne
      have hmem := h.mem_table_of_fits (eassert_eq_ok.1 hd) hal hF hfr
      exact ⟨hstatus, .of_subset hholds (subset_covered (mem_shapes.2 ⟨r, hmem⟩))⟩
    · have hmem := mem_of_lookupForShape hl
      have hsame₂ := fillCell_sameTable hfill
      refine ⟨hstatus, hholds.of_same hsame₂, hsame₂.dataspace, hsame₂.fillValue, ?_⟩
      rw [covered_congr hsame₂.table,
        Set.union_eq_left.2 (subset_covered (mem_shapes.2 ⟨r, hmem⟩))]
    · have hw := @writable_of_regular V a dataspace _ env space user hr hin fun _ _ => rfl
      rw [← h.dataspace, ← hsame.dataspace] at hw
      obtain ⟨ds₃, hok, hg⟩ := exists_fill hholds hw hnew hfill
      rw [hok] at hwrite
      obtain ⟨hstatus, rfl⟩ := Prod.mk.inj (Except.ok.inj hwrite)
      exact ⟨hstatus.symm, hg⟩
  have hdataset : result.dataset = ds'.leave := congrArg Result.dataset hres
  obtain ⟨hstatus, hg⟩ | ⟨hstatus, rfl⟩ := hdone
  · refine ⟨.inl hstatus, h.step hstep ?_⟩
    rw [hdataset, hstatus, LogicalArray.step, if_pos rfl]
    exact (hm₁.update hg).leave
  · refine ⟨.inr hstatus, h.step hstep ?_⟩
    rw [hdataset, hstatus, LogicalArray.step, if_neg (by decide)]
    exact hm₁.leave

/-- The read of a fragment that has the shape of the memspace. -/
theorem Matches.readSingle (hm : Matches a ds)
    (hr : Receives ds.dataspace env space.toDataspace) (hmem : (space.getExtends, r) ∈ ds.table)
    {status : Status} {user' : Mem V}
    (hread : ds.readSingleFragmentBlocking env user space.toDataspace r
      = .ok (status, user', ds')) :
    status = .success ∧ a.Delivers space.toDataspace user status user'
      ∧ Gains a.contents (Hypercube.points space.getExtends) ds ds' := by
  have hsub := subset_covered (mem_shapes.2 ⟨r, hmem⟩)
  obtain ⟨q, hq⟩ := Hypercube.points_nonempty_iff.2
    (Dataspace.getExtends_not_isEmpty space.size_pos)
  obtain ⟨user₁, ds₁, hok, -, hg, hpaints⟩ := @exists_enqueueRead V a.contents env
    space.toDataspace ds.dataspace hr [r] ds user rfl hm.holds
    (fun k hk => List.mem_singleton.1 hk ▸ ⟨_, hmem, q, hq, hq⟩) .success
  rw [readSingleFragmentBlocking, hok] at hread
  obtain ⟨rfl, rfl, rfl⟩ := Prod.mk.inj (Except.ok.inj hread)
  have hwithin : ds.within space.getExtends [r]
      = Hypercube.points space.getExtends ∩ ds.covered := by
    rw [within_cons hm.holds.table hmem, Set.inter_self, Set.inter_eq_left.2 hsub,
      Set.union_eq_left.2 fun p hp => hp.1]
  rw [hwithin] at hpaints
  have hnone : Paints space.elementIndex (fun _ => ds.fillValue)
      (Hypercube.points space.getExtends \ ds.covered) user user := by
    rw [Set.sdiff_eq_empty.2 hsub]
    exact .refl ..
  refine ⟨rfl, hm.delivers hr.inj hnone hpaints, hg.holds, hg.dataspace, hg.fillValue, ?_⟩
  rw [hg.covered, Set.union_empty, Set.union_eq_left.2 hsub]

/-- What a read has shown does not change what the fragments hold. -/
theorem Gains.shown {s : Set (List ℤ)} (hg : Gains a.contents s ds ds') (region : Hypercube) :
    Gains (a.update region a.lookup).contents s ds ds' :=
  hg.congr (update_contents fun _ _ hp => hg.holds.lookup hp)

/-- The read of a cell that has no fragment. -/
theorem Represents.readEmptyCell (h : Represents dataspace a ds)
    (hr : Call.Regular dataspace env space)
    (hinj : Set.InjOn space.elementIndex (Hypercube.points space.getExtends))
    (hin : Hypercube.points space.getExtends ⊆ dataspace.domain)
    (hnew : space.getExtends ∉ ds.shapes) {i : ℕ} {status : Status} {user' : Mem V}
    (hread : ds.readEmptyCell env g i user space.toDataspace = .ok (status, user', ds')) :
    a.Delivers space.toDataspace user status user'
      ∧ if status = .success then Gains (a.update space.getExtends a.lookup).contents
          (Hypercube.points space.getExtends) ds ds'
        else Gains a.contents ∅ ds ds' := by
  have hd : space.dims = ds.dims := hr.dims.trans (congrArg Dataspace.dims h.dataspace).symm
  obtain ⟨ret, ds₁, hblock, -, rfl, hend⟩ := readEmptyCell_eq_ok space.size_pos hnew hread
  obtain ⟨ret', user₁, ds₂, hok, hdel, hg⟩ := @exists_readBlocking V ds env user
    space.toDataspace a h.toMatches h.inv h.geometry
    ⟨hr.retrieve, h.dataspace.symm ▸ hr.type, space.size_pos, hinj⟩ hd false (by simp)
  rw [hok] at hblock
  obtain ⟨rfl, rfl, rfl⟩ := Prod.mk.inj (Except.ok.inj hblock)
  refine ⟨hdel, ?_⟩
  obtain ⟨hne, rfl⟩ | ⟨rfl, hnew₁, -, ds₃, status₂, hfill, hwrite⟩ := hend
  · rw [if_neg hne]
    exact hg
  · have hg' := hg.shown space.getExtends
    have hw := @writable_of_regular V a dataspace _ env space user' hr hin hdel.lookup
    rw [← h.dataspace, ← hg.dataspace] at hw
    obtain ⟨ds₄, hok₄, hg₄⟩ := exists_fill hg'.holds hw hnew₁ hfill
    rw [hok₄] at hwrite
    obtain ⟨-, rfl⟩ := Prod.mk.inj (Except.ok.inj hwrite)
    have := hg'.trans hg₄
    rwa [Set.empty_union] at this

theorem Represents.readGrid (h : Represents dataspace a ds)
    (hr : Call.Regular dataspace env space)
    (hinj : Set.InjOn space.elementIndex (Hypercube.points space.getExtends))
    (hin : Hypercube.points space.getExtends ⊆ dataspace.domain)
    (hstep : ds.step ⟨env, .readGrid g space user⟩ = .ok result) :
    (∃ user', result.buffer = some user' ∧ (a.Delivers space.toDataspace user result.status user'
        ∨ (result.status = .invalidArgumentError ∧ user' = user)))
      ∧ Represents dataspace (a.step (.readGrid g space user) result.status) result.dataset := by
  obtain ⟨_, hd, hx⟩ := Outcome.bind_eq_ok.1 hstep
  obtain ⟨user', ds', hx, hres⟩ := returnsBuffer_eq_ok hx
  obtain ⟨ds₁, hal, hrest⟩ := readGrid_eq_ok hx
  have hsame := Allocates.sameTable hal
  have hm₁ := h.of_same hsame
  have hread : Receives ds₁.dataspace env space.toDataspace :=
    ⟨hr.retrieve, hr.type.trans (by rw [hsame.dataspace, h.dataspace]), space.size_pos, hinj⟩
  have hdone : (a.Delivers space.toDataspace user result.status user'
      ∧ if result.status = .success then Gains (a.update space.getExtends a.lookup).contents
          (Hypercube.points space.getExtends) ds₁ ds'
        else Gains a.contents ∅ ds₁ ds')
      ∨ (result.status = .invalidArgumentError ∧ user' = user ∧ ds' = ds₁) := by
    obtain ⟨-, hstatus, rfl, rfl⟩ | ⟨k, i, grid, cs, e, index, -, hF, hc⟩ := hrest
    · exact .inr ⟨hstatus, rfl, rfl⟩
    refine .inl ?_
    obtain ⟨r, hfr, hx⟩ | ⟨-, r, ds₂, hl, hfill, hx⟩ | ⟨-, hnew, hx⟩ := hc
    · have hmem := h.mem_table_of_fits (eassert_eq_ok.1 hd) hal hF hfr
      obtain ⟨hstatus, hdel, hg⟩ := hm₁.readSingle hread hmem hx
      rw [if_pos hstatus]
      exact ⟨hdel, hg.shown _⟩
    · have hsame₂ := fillCell_sameTable hfill
      obtain ⟨hstatus, hdel, hg⟩ := (hm₁.of_same hsame₂).readSingle
        (hsame₂.dataspace.symm ▸ hread) (hsame₂.table.symm ▸ mem_of_lookupForShape hl) hx
      rw [if_pos hstatus]
      refine ⟨hdel, Gains.shown ⟨hg.holds, hg.dataspace.trans hsame₂.dataspace,
        hg.fillValue.trans hsame₂.fillValue, hg.covered.trans ?_⟩ _⟩
      rw [covered_congr hsame₂.table]
    · exact (h.allocated hal).readEmptyCell hr hinj hin hnew hx
  have hdataset : result.dataset = ds'.leave := congrArg Result.dataset hres
  have hbuffer : result.buffer = some user' := congrArg Result.buffer hres
  obtain ⟨hdel, hg⟩ | ⟨hstatus, rfl, rfl⟩ := hdone
  · refine ⟨⟨user', hbuffer, .inl hdel⟩, h.step hstep ?_⟩
    rw [hdataset, LogicalArray.step]
    split_ifs at hg ⊢
    · exact (hm₁.update hg).leave
    · exact (hm₁.gains hg).leave
  · refine ⟨⟨user', hbuffer, .inr ⟨hstatus, rfl⟩⟩, h.step hstep ?_⟩
    rw [hdataset, hstatus, LogicalArray.step, if_neg (by decide)]
    exact hm₁.leave

/-- The calls that only work on grids. -/
theorem Represents.gridSteps (h : Represents dataspace a ds)
    (hs : GridSteps (fun _ => False) (fun _ _ => True) ds ds') (hstep : ds.step c = .ok result)
    (hdataset : result.dataset = ds'.leave) : Represents dataspace a result.dataset := by
  refine h.step hstep ?_
  rw [hdataset]
  exact (h.of_same hs.sameTable).leave

/-- One call. -/
theorem Represents.simulates (hpos : 0 < dataspace.dims) (h : Represents dataspace a ds)
    (hc : c.Admissible dataspace a) :
    (c.op.IsPlain → ∃ result, ds.step c = .ok result) ∧ ∀ result, ds.step c = .ok result →
      a.Answers c.op result
        ∧ Represents dataspace (a.step c.op result.status) result.dataset := by
  obtain ⟨env, op⟩ := c
  cases op with
  | write space user =>
    obtain ⟨hr, hacc, hin⟩ := hc
    obtain ⟨ds', hok, h'⟩ := h.write hpos hr hacc hin
    refine ⟨fun _ => ⟨_, hok⟩, fun result hstep => ?_⟩
    obtain rfl := Except.ok.inj (hok.symm.trans hstep)
    refine ⟨rfl, ?_⟩
    rw [LogicalArray.step, if_pos rfl]
    exact h'
  | read space user =>
    obtain ⟨hr, hinj⟩ := hc
    obtain ⟨status, user', ds', hok, hdel, h'⟩ := h.read hpos hr hinj
    refine ⟨fun _ => ⟨_, hok⟩, fun result hstep => ?_⟩
    obtain rfl := Except.ok.inj (hok.symm.trans hstep)
    exact ⟨⟨user', rfl, hdel⟩, h'⟩
  | setFillValue value =>
    refine ⟨fun _ => ⟨_, rfl⟩, fun result hstep => ?_⟩
    obtain rfl := Except.ok.inj hstep
    have hm : Matches { a with fillValue := value } { ds with fillValue := value } :=
      ⟨⟨h.holds.table.congr rfl rfl, h.holds.bounded, h.holds.carries⟩, h.rest, rfl⟩
    exact ⟨rfl, h.step hstep hm.leave⟩
  | writeGrid g space user =>
    obtain ⟨hr, hacc, hin⟩ := hc
    exact ⟨False.elim, fun result hstep => h.writeGrid hr hacc hin hstep⟩
  | readGrid g space user =>
    obtain ⟨hr, hinj, hin⟩ := hc
    exact ⟨False.elim, fun result hstep => h.readGrid hr hinj hin hstep⟩
  | gridCreate dim =>
    refine ⟨False.elim, fun result hstep => ⟨trivial, ?_⟩⟩
    obtain ⟨ds', hx, hres⟩ := returns_eq_ok hstep
    exact h.gridSteps (gridCreate_steps hx) hstep (congrArg Result.dataset hres)
  | gridCreateSubgrid g index =>
    refine ⟨False.elim, fun result hstep => ⟨trivial, ?_⟩⟩
    obtain ⟨_, hd, hx⟩ := Outcome.bind_eq_ok.1 hstep
    obtain ⟨ds', hx, hres⟩ := returns_eq_ok hx
    exact h.gridSteps (gridCreateSubgrid_steps (eassert_eq_ok.1 hd) hx) hstep
      (congrArg Result.dataset hres)
  | gridSubdivideFixed g dim size allowIncomplete =>
    refine ⟨False.elim, fun result hstep => ⟨trivial, ?_⟩⟩
    obtain ⟨ds', hx, hres⟩ := returns_eq_ok hstep
    exact h.gridSteps (gridSubdivideWith_steps (fun _ _ _ _ => trivial) hx) hstep
      (congrArg Result.dataset hres)
  | gridSubdivideFlexible g dim count =>
    refine ⟨False.elim, fun result hstep => ⟨trivial, ?_⟩⟩
    obtain ⟨ds', hx, hres⟩ := returns_eq_ok hstep
    exact h.gridSteps (gridSubdivideWith_steps (fun _ _ _ _ => trivial) hx) hstep
      (congrArg Result.dataset hres)
  | gridSubdivide g dim bounds =>
    refine ⟨False.elim, fun result hstep => ⟨trivial, ?_⟩⟩
    obtain ⟨ds', hx, hres⟩ := returns_eq_ok hstep
    obtain ⟨_, -, hx⟩ := Outcome.bind_eq_ok.1 hx
    exact h.gridSteps (gridSubdivideWith_steps (fun _ _ _ _ => trivial) hx) hstep
      (congrArg Result.dataset hres)
  | gridSerialize g =>
    refine ⟨False.elim, fun result hstep => ⟨trivial, ?_⟩⟩
    obtain ⟨⟨ds', json⟩, hx, hres⟩ := Outcome.bind_eq_ok.1 hstep
    obtain rfl := Except.ok.inj hres
    exact h.gridSteps (gridSerialize_steps hx) hstep rfl

theorem Represents.run_simulates (hpos : 0 < dataspace.dims) :
    ∀ (calls : List (Call V)) {a : LogicalArray V} {ds : Dataset V}, Represents dataspace a ds →
      Simulates dataspace a ds calls
  | [], _, _, _ => trivial
  | c :: calls, a, ds, h => fun hc => by
    obtain ⟨hreturns, hstep⟩ := h.simulates hpos hc
    refine ⟨hreturns, fun result hok => ?_⟩
    obtain ⟨hanswers, h'⟩ := hstep result hok
    exact ⟨hanswers, run_simulates hpos calls h'⟩

/-- An element is written and read again. -/
def elementCalls : List (Call ℕ) :=
  [.write (pairElement 0) fun _ => 7, .read (pairElement 0) fun _ => 0].map fun op =>
    ⟨Env.calm 0, op⟩

/-- A process whose fragments get the given id. -/
def namingEnv (id : String) : Env ℕ := { Env.calm 0 with fragmentId := fun _ => id }

theorem regular_pairElement (id : String) {i : ℤ} (hi : i = 0 ∨ i = 1) :
    Call.Regular pairSpace (namingEnv id) (pairElement i) where
  update _ := rfl
  retrieve _ := rfl
  suits := by
    have hdim : bestDim 0 (pairElement i).dim (pairElement i).getEffectiveStride none 0 = none := by
      rcases hi with rfl | rfl <;> decide
    refine ⟨Nat.zero_lt_one, fun j r hj => ?_, ?_, fun _ _ _ _ => le_rfl⟩
    · rw [hdim] at hj
      cases hj
    intro b hb
    obtain rfl := List.mem_singleton.1 hb
    exact le_rfl
  type := rfl
  dims := rfl
  stride := by simp [pairElement]

theorem admissible_writeElement (id : String) {i : ℤ} (hi : i = 0 ∨ i = 1) (v : ℕ) :
    Call.Admissible pairSpace (.empty none)
      ⟨namingEnv id, .write (pairElement i) fun _ => v⟩ := by
  have hacc : (LogicalArray.empty none).Accepts (pairElement i).toDataspace fun _ => v := by
    intro p hp v hv
    cases hv
  refine ⟨regular_pairElement id hi, hacc, fun p hp => ?_⟩
  obtain ⟨x, rest, hx, hrest, rfl⟩ := List.forall₂_cons_right_iff.1 hp
  obtain rfl := List.forall₂_nil_right_iff.1 hrest
  have hx : i ≤ x ∧ x < i + 1 := hx
  refine .cons ⟨?_, .inr ?_⟩ .nil
  · omega
  · show x < 2
    omega

end Step

end Dataset

end Esdm
