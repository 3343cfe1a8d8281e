import Esdm.Proofs.LogicalArray
import Esdm.Proofs.Reopen

/-!
# Fragments that are read from their descriptions

A dataset takes over fragments that another one has stored: when it is opened, those of the dataset
that was committed, and in `esdm_mpi_dataset_commit` on rank 0, those of the other ranks as they
arrive.  Unless two fragments have the same shape, it then has the contents of both (`absorb`).
-/

namespace Esdm

variable {V A : Type}

namespace Dataset

variable {env env' : Env V} {ds ds' other : Dataset V} {dataspace : Dataspace}
  {a b : LogicalArray V} {fragments : List Json}

section Absorb

variable {accept : Dataset V → Fragment V → Dataset V} {reject : Dataset V → Outcome (Dataset V)}

/-- Reading a list of fragments changes the fragments, the table and the actual size. -/
theorem absorbFragments_eq (hr : Rejects reject)
    (ha : ∀ ds f, accept ds f = { ds with actualSize := (accept ds f).actualSize })
    (h : absorbFragments env accept reject fragments ds = .ok ds') :
    ds' = { ds with
      fragments := ds'.fragments, table := ds'.table, actualSize := ds'.actualSize } := by
  induction fragments generalizing ds with
  | nil =>
    obtain rfl := Except.ok.inj h
    rfl
  | cons json fragments ih =>
    have hcreate : (ds.createFragmentFromMetadata env json).1
        = { ds with fragments := (ds.createFragmentFromMetadata env json).1.fragments } := by
      obtain h | ⟨s, r, -, h⟩ | ⟨d, b, -, -, -, h⟩ := createFragmentFromMetadata_inv env ds json <;>
        rw [h]
    rw [absorbFragments] at h
    rcases hc : ds.createFragmentFromMetadata env json with ⟨ds₁, _ | r⟩ <;>
      rw [hc] at h hcreate <;> dsimp only at hcreate
    · obtain ⟨ds₂, hrej, hrest⟩ := Outcome.bind_eq_ok.1 h
      rw [ih hrest, hr _ _ hrej, hcreate]
    · obtain ⟨⟨status, ds₂⟩, hadd, h⟩ := Outcome.bind_eq_ok.1 h
      have hds₂ : ds₂ = { ds₁ with table := ds₂.table } := by
        obtain ⟨f, -, ⟨-, -, rfl⟩ | ⟨-, -, rfl⟩⟩ := fragmentsAdd_eq_ok hadd <;> rfl
      dsimp only at h
      split_ifs at h
      · obtain ⟨ds₃, hdestroy, h⟩ := Outcome.bind_eq_ok.1 h
        obtain ⟨f, -, rfl⟩ := fragmentDestroy_eq_ok hdestroy
        rw [ih h, setFragment, hds₂, hcreate]
      · obtain ⟨f, -, h⟩ := Outcome.bind_eq_ok.1 h
        rw [ih h, ha, hds₂, hcreate]

/-- A fragment that is read has the record of one that holds the contents of an array, and its
data. -/
theorem carries_of_record {B : List ℤ → Option V} {type : ElemType} {f : Fragment V}
    (hf : f.Carries B type) {d : FragmentDescription} {backend : Backend}
    (hrecord : (d.fragment env backend).record = f.record)
    (hstored : ∀ id, f.id = some id → f.stored = some (env.storage id)) :
    (d.fragment env backend).Carries B type := by
  obtain ⟨hid, hrest⟩ := Prod.mk.inj hrecord
  obtain ⟨hbackend, hrest⟩ := Prod.mk.inj hrest
  obtain ⟨hspace, hbytes⟩ := Prod.mk.inj hrest
  have hshape : (d.fragment env backend).shape = f.shape := congrArg Dataspace.getExtends hspace
  obtain ⟨stored, hst, hdata⟩ := hf.stored
  obtain rfl := Option.some.inj (hst.symm.trans (hstored d.id hid.symm))
  refine ⟨by rw [hspace]; exact hf.type, by rw [hspace]; exact hf.dim,
    by rw [hspace]; exact hf.stride, by rw [hbackend]; exact hf.backend, rfl,
    hbytes.trans hf.actualBytes, ⟨_, rfl, ?_⟩, .inl ⟨rfl, rfl⟩⟩
  rw [hspace, hshape]
  exact hdata

theorem Represents.relabel (h : Represents dataspace a ds) (status : DataStatus) :
    Represents dataspace a { ds with status := status } := by
  obtain ⟨htable, hbounded, hcarries⟩ := h.holds
  exact ⟨⟨⟨htable.congr rfl rfl, hbounded, hcarries⟩, h.rest, h.fillValue⟩, h.dataspace,
    h.inv.relabel status ds.fillValue, h.geometry⟩

theorem FoundBy.backed (hfound : ds.FoundBy env) (h : Represents dataspace a ds) :
    Backed env ds := by
  intro e he f hf
  obtain ⟨f', hf', hshape, hc⟩ := h.holds.fragment he
  obtain rfl := Except.ok.inj (hf.symm.trans hf')
  obtain ⟨id, b, hid, hb, hget, -⟩ := hfound e he f hf
  refine ⟨?_, hc.type, by simp [hid], b, hb, hget⟩
  rw [← Dataspace.getExtends_length]
  exact (h.inv.shapes f.shape (hshape ▸ mem_shapes.2 ⟨e.2, he⟩)).1

/-- What is read of the descriptions of fragments has their records. -/
theorem exists_record (hs : Backed env' other)
    (hlist : other.fragmentsMetadataCreate env = .ok fragments) {json : Json}
    (hjson : json ∈ fragments) {space : Dataspace} (hd : space.dims = other.dims)
    (ht : space.type = other.dataspace.type) {d : FragmentDescription}
    (hparse : FragmentDescription.parse space json = some d) {backend : Backend}
    (hb : getBackend env' d.pid = some backend) : ∃ e ∈ other.table, ∃ f,
      other.fragment e.2 = .ok f ∧ (d.fragment env' backend).record = f.record := by
  obtain ⟨i, hi⟩ := List.mem_iff_getElem?.1 hjson
  obtain ⟨e, hei, f, hf, hmeta⟩ := exists_of_forall₂ (describe_eq_ok_iff.1 hlist).flip hi
  have he : e ∈ other.table := (env.order_perm other.table).mem_iff.1 (List.mem_of_getElem? hei)
  exact ⟨e, he, f, hf, hs.record_eq he hf hmeta hd ht hparse hb⟩

theorem mem_covered_iff {p : List ℤ} :
    p ∈ ds.covered ↔ ∃ s ∈ ds.shapes, p ∈ Hypercube.points s := by
  simp [covered, shapes]

/-- The contents of each of two arrays that agree. -/
theorem join_contents (hagree : a.Agrees b) {p : List ℤ} :
    (a.contents p ≠ none → (a.join b).contents p = a.contents p)
      ∧ (b.contents p ≠ none → (a.join b).contents p = b.contents p) := by
  rcases ha : a.contents p with _ | v
  · simp [LogicalArray.join, ha]
  · rcases hb : b.contents p with _ | w
    · simp [LogicalArray.join, ha]
    · simp [LogicalArray.join, ha, hagree p v w ha hb]

/-- The fragments of another dataset are taken over. -/
theorem Represents.absorb (haccept : Accepts accept) (hreject : Rejects reject)
    (hsize : ∀ ds f, accept ds f = { ds with actualSize := (accept ds f).actualSize })
    (h : Represents dataspace a ds) (h' : Represents dataspace b other)
    (hagree : a.Agrees b) (hdisj : List.Disjoint ds.shapes other.shapes)
    (hfound : other.FoundBy env')
    (hlist : other.fragmentsMetadataCreate env = .ok fragments) :
    ∃ ds', absorbFragments env' accept reject fragments ds = .ok ds'
      ∧ Represents dataspace (a.join b) ds'
      ∧ (∀ s, s ∈ ds'.shapes ↔ s ∈ ds.shapes ∨ s ∈ other.shapes)
      ∧ (ds.FoundBy env' → ds'.FoundBy env')
      ∧ ds' = { ds with
        fragments := ds'.fragments, table := ds'.table, actualSize := ds'.actualSize } := by
  have hs := hfound.backed h'
  have hspaces : ds.dataspace = other.dataspace := h.dataspace.trans h'.dataspace.symm
  have hdims : ds.dataspace.dims = other.dims := congrArg Dataspace.dims hspaces
  have htype : ds.dataspace.type = other.dataspace.type := congrArg Dataspace.type hspaces
  obtain ⟨list, hlist', hwf, hperm⟩ :=
    @fragmentsMetadataCreate_eq_ok V env' other ds.dataspace _ (hs.allStored h'.inv.table) hdims env
  obtain rfl := Except.ok.inj (hlist.symm.trans hlist')
  have hnodup : (ds.shapes ++ FragmentDescription.shapes ds.dataspace fragments).Nodup :=
    h.inv.table.nodup.append (hperm.nodup_iff.2 h'.inv.table.nodup)
      fun s hs hs' => hdisj hs (hperm.mem_iff.1 hs')
  obtain ⟨ds', hok, hw, halike, hshapes, new, hnew, htable, hfrom⟩ :=
    @absorbFragments_of_nodup V env' _ reject haccept fragments ds h.inv.table hwf hnodup
  have heq := absorbFragments_eq hreject hsize hok
  have hmem : ∀ s, s ∈ ds'.shapes ↔ s ∈ ds.shapes ∨ s ∈ other.shapes := fun s => by
    rw [hshapes, List.mem_append, hperm.mem_iff]
  have hcovered : ∀ p, p ∈ ds'.covered ↔ p ∈ ds.covered ∨ p ∈ other.covered := by
    intro p
    simp only [mem_covered_iff, hmem, or_and_right, exists_or]
  -- an entry of the table is one that was there, or has a fragment that is made of a description
  have hold : ∀ {r : ℕ} {f : Fragment V}, ds.fragment r = .ok f → ds'.fragment r = .ok f := by
    intro r f hf
    rw [fragment_eq_ok] at hf ⊢
    rw [hnew, List.getElem?_append_left (List.getElem?_eq_some_iff.1 hf.1).1]
    exact hf
  have hentry : ∀ e ∈ ds'.table, e ∈ ds.table ∨ ∃ json ∈ fragments, ∃ d backend,
      FragmentDescription.parse ds.dataspace json = some d ∧ getBackend env' d.pid = some backend
      ∧ ds'.fragment e.2 = .ok (d.fragment env' backend) := by
    rintro ⟨s, r⟩ he
    rw [htable] at he
    rcases List.mem_append.1 he with he | he
    · exact .inl he
    · obtain ⟨hle, hget⟩ := List.mem_zipIdx_iff_le_and_getElem?_sub.1 he
      rw [List.getElem?_map] at hget
      obtain ⟨f', hf', -⟩ := Option.map_eq_some_iff.1 hget
      obtain ⟨json, hjson, d, backend, hparse, hback, rfl⟩ := hfrom f' (List.mem_of_getElem? hf')
      refine .inr ⟨json, hjson, d, backend, hparse, hback, fragment_eq_ok.2 ⟨?_, rfl⟩⟩
      rw [hnew, List.getElem?_append_right hle]
      exact hf'
  have hholds : Holds (a.join b).contents none ds' := by
    have ha := h.holds.congr fun p hp => (join_contents hagree).1 (h.holds.ne_none hp)
    have hb := h'.holds.congr fun p hp => (join_contents hagree).2 (h'.holds.ne_none hp)
    refine ⟨hw, fun p hp => ?_, fun e he _ => ?_⟩
    · rw [halike.dataspace]
      obtain hp | hp := (hcovered p).1 hp
      · exact ha.bounded hp
      · exact hspaces ▸ hb.bounded hp
    · rw [halike.dataspace]
      obtain he | ⟨json, hjson, d, backend, hparse, hback, hf'⟩ := hentry e he
      · obtain ⟨f, hf, hc⟩ := ha.carries e he (by simp)
        exact ⟨f, hold hf, hc⟩
      · obtain ⟨e₀, he₀, f, hf, hrecord⟩ := exists_record hs hlist hjson hdims htype hparse hback
        obtain ⟨f₀, hf₀, -, hcarries⟩ := hb.fragment he₀
        obtain rfl := Except.ok.inj (hf.symm.trans hf₀)
        obtain ⟨id, -, hid, -, -, hstored⟩ := hfound e₀ he₀ f hf
        refine ⟨_, hf', carries_of_record (hspaces ▸ hcarries) hrecord fun id' hid' => ?_⟩
        rw [hstored, Option.some.inj (hid.symm.trans hid')]
  refine ⟨ds', hok, ⟨⟨hholds, fun p hp => ?_, by rw [heq]; exact h.fillValue⟩,
    halike.dataspace.trans h.dataspace, ⟨hw, fun s hs => ?_, ?_⟩, ?_⟩, hmem,
    fun hfound₀ e he f hf => ?_, heq⟩
  · rw [hcovered, not_or] at hp
    simp [LogicalArray.join, h.rest p hp.1, h'.rest p hp.2]
  · have hd : ds'.dims = ds.dims := congrArg Dataspace.dims halike.dataspace
    rw [hd]
    obtain hs | hs := (hmem s).1 hs
    · exact h.inv.shapes s hs
    · have := h'.inv.shapes s hs
      rwa [← hdims] at this
  · rw [heq]
    have hL := h.inv.grids.listed
    exact ⟨h.inv.grids.forest, hL.top, hL.valid, hL.nodup, hL.length, hL.complete⟩
  · rw [halike.gridHeap]
    refine h.geometry.mono fun e he => ?_
    rw [htable]
    exact List.mem_append_left _ he
  · obtain he | ⟨json, hjson, d, backend, hparse, hback, hf'⟩ := hentry e he
    · obtain ⟨f₀, hf₀, -⟩ := h.inv.table.fragment_eq he
      obtain rfl := Except.ok.inj (hf.symm.trans (hold hf₀))
      exact hfound₀ e he f hf₀
    · obtain rfl := Except.ok.inj (hf.symm.trans hf')
      have hid : backend.id = d.pid := by simpa using List.find?_some hback
      exact ⟨d.id, backend, rfl, rfl, by rw [hid]; exact hback, rfl⟩

end Absorb

theorem agrees_refl (a : LogicalArray V) : a.Agrees a := by
  intro p v w hv hw
  exact Option.some.inj (hv.symm.trans hw)

theorem agrees_symm (h : a.Agrees b) : b.Agrees a := by
  intro p v w hv hw
  exact (h p w v hw hv).symm

instance : Std.Symm (LogicalArray.Agrees (V := V)) := ⟨fun _ _ => agrees_symm⟩

theorem agrees_join {c : LogicalArray V} (ha : a.Agrees c) (hb : b.Agrees c) :
    (a.join b).Agrees c := by
  intro p v w hv hw
  rcases hap : a.contents p with _ | u
  · refine hb p v w ?_ hw
    simpa [LogicalArray.join, hap] using hv
  · refine ha p v w ?_ hw
    simpa [LogicalArray.join, hap] using hv

theorem join_right_comm (hagree : a.Agrees b) (c : LogicalArray V) :
    (c.join a).join b = (c.join b).join a := by
  have hcontents : ((c.join a).join b).contents = ((c.join b).join a).contents := by
    funext p
    rcases ha : a.contents p with _ | v
    · simp [LogicalArray.join, ha]
    · rcases hb : b.contents p with _ | w
      · simp [LogicalArray.join, ha, hb]
      · simp [LogicalArray.join, ha, hb, hagree p v w ha hb]
  exact LogicalArray.ext hcontents rfl

/-- It does not matter in which order the contents of arrays that agree are put together. -/
theorem joinAll_perm {arrays arrays' : List (LogicalArray V)} (hperm : arrays.Perm arrays')
    (hagree : arrays.Pairwise LogicalArray.Agrees) (a : LogicalArray V) :
    a.joinAll arrays = a.joinAll arrays' := by
  refine hperm.foldl_eq' (fun b hb b' hb' c => ?_) a
  exact join_right_comm (hagree.forall_of_forall (fun x _ => agrees_refl x) hb hb') c

/-- The fragments of all ranks are taken over, in the order in which they arrive. -/
theorem Represents.receiveRanks {ranks : List (LogicalArray V × Dataset V)}
    {messages : List (List Json)} (h : Represents dataspace a ds) (hfound₀ : ds.FoundBy env')
    (hranks : ∀ r ∈ ranks, Represents dataspace r.1 r.2 ∧ r.2.FoundBy env')
    (hagree : (a :: ranks.map Prod.fst).Pairwise LogicalArray.Agrees)
    (hshapes : (ds :: ranks.map Prod.snd).Pairwise fun x y => List.Disjoint x.shapes y.shapes)
    (hsent : List.Forall₂
      (fun r message => ∃ env, r.2.fragmentsMetadataCreate env = .ok message) ranks messages) :
    ∃ ds', Dataset.receiveRanks env' messages ds = .ok ds'
      ∧ Represents dataspace (a.joinAll (ranks.map Prod.fst)) ds' ∧ ds'.FoundBy env'
      ∧ ds' = { ds with
        fragments := ds'.fragments, table := ds'.table, actualSize := ds'.actualSize } := by
  induction hsent generalizing a ds with
  | nil => exact ⟨ds, rfl, h, hfound₀, rfl⟩
  | @cons r message ranks messages hr _ ih =>
    obtain ⟨env, hr⟩ := hr
    obtain ⟨⟨h', hfound⟩, hrest⟩ := List.forall_mem_cons.1 hranks
    rw [List.map_cons, List.pairwise_cons, List.forall_mem_cons, List.pairwise_cons] at hagree
    rw [List.map_cons, List.pairwise_cons, List.forall_mem_cons, List.pairwise_cons] at hshapes
    obtain ⟨⟨hab, hall⟩, hrall, hpair⟩ := hagree
    obtain ⟨⟨hdisj, hdall⟩, hdrall, hdpair⟩ := hshapes
    obtain ⟨ds₁, hok, h₁, hshapes₁, hfound₁, heq₁⟩ := h.absorb receiveFragments_accepts
      receiveFragments_rejects (fun _ _ => rfl) h' hab hdisj hfound hr
    obtain ⟨ds₂, hok₂, h₂, hfound₂, heq₂⟩ := ih h₁ (hfound₁ hfound₀) hrest
      (List.pairwise_cons.2 ⟨fun c hc => agrees_join (hall c hc) (hrall c hc), hpair⟩)
      (List.pairwise_cons.2 ⟨fun y hy s hs hs' => by
        obtain hs | hs := (hshapes₁ s).1 hs
        · exact hdall y hy hs hs'
        · exact hdrall y hy hs hs', hdpair⟩)
    refine ⟨ds₂, ?_, h₂, hfound₂, ?_⟩
    · rw [Dataset.receiveRanks, receiveFragments, hok, Outcome.ok_bind, hok₂]
    · rw [heq₂, heq₁]

end Dataset

namespace DatasetObject

open Dataset

variable {dataspace : Dataspace} {a : LogicalArray V} {d : DatasetObject V A}

theorem join_empty (a : LogicalArray V) : (LogicalArray.empty a.fillValue).join a = a :=
  LogicalArray.ext (funext fun _ => Option.none_or) rfl

theorem createFull_self {space : Dataspace} (h : space.stride = none) :
    Dataspace.createFull space.dim space.type = space := by
  cases space
  cases h
  rfl

/-- A dataset that has been committed can be opened, and stands for the array that it stood for. -/
theorem Recovers.commits {env' : Env V} (hrec : d.Recovers env')
    (h : Represents dataspace a d.toDataset) (hdirty : d.status = .dirty) (env : Env V)
    (stored : Option (Description V A)) (id : String) :
    ∃ d₁ description d₂ named, d.commit env .success stored = .ok (.success, d₁, some description)
      ∧ (unloaded id).openMdParse env' description = .ok (.success, d₂, named)
      ∧ Represents dataspace a d₂.toDataset := by
  have h₁ := h.relabel .persistent
  have hfound : FoundBy env' { d.toDataset with status := .persistent } := hrec.found
  obtain ⟨attr, hattr⟩ := Option.ne_none_iff_exists'.1 hrec.loaded
  obtain ⟨list, hlist, -⟩ := @fragmentsMetadataCreate_eq_ok V env' _ dataspace _
    ((hfound.backed h₁).allStored h₁.inv.table) (congrArg Dataspace.dims h₁.dataspace.symm) env
  have hmd : ({ d.toDataset with status := .persistent } : Dataset V).metadataCreate env
      = .ok ({ d.toDataset with status := .persistent }, ⟨list, []⟩) := by
    refine Dataset.metadataCreate_eq_ok.2 ⟨hlist, ?_⟩
    rw [hrec.grids]
    rfl
  have hcreate := @metadataCreate_of_namesMatch V A env { d with status := .persistent } _
    hrec.names attr hattr _ hmd
  obtain ⟨x, named, hparse, hx, -⟩ := @openMdParse_members V A env' { d with status := .persistent }
    ⟨list, []⟩ hrec.names hrec.offset attr id
  -- the dataset starts empty, and takes over the fragments of the committed one
  have hinit : Represents dataspace (.empty a.fillValue) x.toDataset := by
    have := (init_represents dataspace a.fillValue).relabel x.status
    rw [hx]
    rwa [createFull_self hrec.stride, h.fillValue, h.dataspace]
  have hagree : (LogicalArray.empty a.fillValue).Agrees a := fun p v w hv => by cases hv
  have hdisj : List.Disjoint x.toDataset.shapes d.toDataset.shapes := by
    rw [hx]
    exact List.disjoint_nil_left _
  obtain ⟨w, hw, hrep, -, -, heq⟩ := hinit.absorb openFragments_accepts openFragments_rejects
    (fun _ _ => rfl) h₁ hagree hdisj hfound hlist
  rw [join_empty] at hrep
  have hgrids : openGrids env' 0 [] { w with grids := [], gridCount := 0, incompleteGridCount := 0 }
      = .ok (w, true) := by
    have hempty : { w with grids := [], gridCount := 0, incompleteGridCount := 0 } = w := by
      rw [heq, hx]
      rfl
    rw [hempty]
    rfl
  have hcommit : d.commit env .success stored = .ok (.success, { d with status := .persistent },
      some ⟨attr, d.fillValue, d.dataspace.type,
        members { d with status := .persistent } ⟨list, []⟩⟩) := by
    rw [commit, if_neg (not_not.2 hdirty), hcreate]
    rfl
  exact ⟨_, _, _, named, hcommit,
    hparse.trans (openContents_of_ok members_get_fragments members_get_grids hw hgrids),
    hrep.relabel .persistent⟩

end DatasetObject

namespace Dataset

variable {dataspace : Dataspace} {a : LogicalArray V}

theorem Reaches.represents (hpos : 0 < dataspace.dims) {ds : Dataset V}
    (h : Reaches dataspace a ds) : Represents dataspace a ds := by
  induction h with
  | init fillValue => exact init_represents dataspace fillValue
  | step _ hc hstep ih => exact ((ih.simulates hpos hc).2 _ hstep).2
  | @reopen _ _ d _ _ env env' id stored _ _ _ hrec hdirty hcommit hparse ih =>
    obtain ⟨d₁, description, d₂, named, hcommit', hparse', hrep⟩ :=
      hrec.commits ih hdirty env stored id
    obtain ⟨-, heq⟩ := Prod.mk.inj (Except.ok.inj (hcommit.symm.trans hcommit'))
    obtain ⟨-, heq⟩ := Prod.mk.inj heq
    obtain rfl := Option.some.inj heq
    obtain ⟨-, heq⟩ := Prod.mk.inj (Except.ok.inj (hparse.symm.trans hparse'))
    obtain ⟨rfl, -⟩ := Prod.mk.inj heq
    exact hrep
  | receive _ _ hagree hdisj hfound hlist hreceive ih ih' =>
    obtain ⟨ds', hok, hrep, -⟩ := ih.absorb receiveFragments_accepts receiveFragments_rejects
      (fun _ _ => rfl) ih' hagree hdisj hfound hlist
    obtain rfl := Except.ok.inj (hreceive.symm.trans hok)
    exact hrep

/-- One element has been written. -/
noncomputable def elementArray (i : ℤ) (v : ℕ) : LogicalArray ℕ :=
  (LogicalArray.empty none).step (.write (pairElement i) fun _ => v) .success

/-- A process that finds the given data. -/
def storingEnv (storage : String → Mem ℕ) : Env ℕ := { Env.calm 0 with storage := storage }

/-- A process has written one element, which is found where its fragment is stored. -/
theorem exists_writeElement (id : String) {i : ℤ} (hi : i = 0 ∨ i = 1) (v : ℕ) :
    ∃ (ds : Dataset ℕ) (data : Mem ℕ), Reaches pairSpace (elementArray i v) ds
      ∧ ds.shapes = [[⟨i, i + 1⟩]] ∧ ds.status = .dirty ∧ ds.dataspace = pairSpace
      ∧ ds.gridCount = 0
      ∧ ∀ storage : String → Mem ℕ, storage id = data → ds.FoundBy (storingEnv storage) := by
  obtain ⟨ds, f, data, hstep, htable, hstatus, hspace, hgrids, hf, hid, hbackend, hstored⟩ :
      ∃ (ds : Dataset ℕ) (f : Fragment ℕ) (data : Mem ℕ),
        (init pairSpace none).step ⟨namingEnv id, .write (pairElement i) fun _ => v⟩
            = .ok ⟨.success, none, ds⟩
          ∧ ds.table = [([⟨i, i + 1⟩], 0)] ∧ ds.status = .dirty ∧ ds.dataspace = pairSpace
          ∧ ds.gridCount = 0 ∧ ds.fragment 0 = .ok f ∧ f.id = some id
          ∧ f.backend = some ⟨"b", 8, .equalized⟩ ∧ f.stored = some data := by
    rcases hi with rfl | rfl
    · exact ⟨_, _, _, rfl, rfl, rfl, rfl, rfl, rfl, rfl, rfl, rfl⟩
    · exact ⟨_, _, _, rfl, rfl, rfl, rfl, rfl, rfl, rfl, rfl, rfl⟩
  refine ⟨ds, data, .step (.init none) (admissible_writeElement id hi v) hstep,
    by rw [shapes, htable]; rfl, hstatus, hspace, hgrids, fun storage hdata e he f' hf' => ?_⟩
  obtain rfl : e = ([⟨i, i + 1⟩], 0) := by
    rw [htable] at he
    exact List.mem_singleton.1 he
  obtain rfl := Except.ok.inj (hf.symm.trans hf')
  exact ⟨id, _, hid, hbackend, rfl, hstored.trans (congrArg some hdata.symm)⟩

theorem elementArray_contents (i : ℤ) (v : ℕ) (p : List ℤ) :
    (elementArray i v).contents p = if p = [i] then some v else none := by
  have hpoints : p ∈ Hypercube.points (pairElement i).getExtends ↔ p = [i] := by
    constructor
    · intro hp
      obtain ⟨x, rest, hx, hrest, rfl⟩ := List.forall₂_cons_right_iff.1 hp
      obtain rfl := List.forall₂_nil_right_iff.1 hrest
      have hx : i ≤ x ∧ x < i + 1 := hx
      obtain rfl : x = i := by omega
      rfl
    · rintro rfl
      exact .cons ⟨le_refl i, Int.lt_succ i⟩ .nil
  rw [elementArray, LogicalArray.step, if_pos rfl]
  simp [LogicalArray.update, LogicalArray.empty, hpoints]

theorem recovers_element {ds : Dataset ℕ} {env : Env ℕ} (hspace : ds.dataspace = pairSpace)
    (hgrids : ds.gridCount = 0) (hfound : ds.FoundBy env) :
    DatasetObject.Recovers env (⟨ds, "t", some [], none⟩ : DatasetObject ℕ ℕ) := by
  refine ⟨by simp, by simp, ?_, ?_, hgrids, hfound⟩
  · rw [hspace]
    decide
  · rw [hspace]
    rfl

end Dataset

end Esdm
