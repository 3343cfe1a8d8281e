import Mathlib.Logic.Relation
import Esdm.Proofs.Fragment
import Esdm.Proofs.Split
import Esdm.Proofs.Table

/-!
# What reading and writing does to a dataset

A write or a read does two things to the dataset, again and again (`IoStep`): it changes where a
fragment's data is, and it creates a fragment and enters it into the table.  Everything else stays
as it is, the grids included.
-/

namespace Esdm

variable {V : Type}

namespace Dataset

variable {ds ds' : Dataset V} {env : Env V} {user user' : Mem V} {space : Dataspace}

section Create

/-- The dataset with a new fragment for the space. -/
def created (ds : Dataset V) (space : Dataspace) (buf : Option (Buf V)) : Dataset V :=
  { (ds.updateActualSize space).addFragment (newFragment space buf) with status := .dirty }

@[simp] theorem created_fragment (ds : Dataset V) (space : Dataspace) (buf : Option (Buf V)) :
    (ds.created space buf).fragment ds.fragments.length = .ok (newFragment space buf) := by
  simp [created, addFragment, updateActualSize, newFragment]

theorem createFragment_of_mem (hw : TableWf ds) {r : ℕ} (h : (space.getExtends, r) ∈ ds.table)
    (buf : Option (Buf V)) : ds.createFragment space buf = .ok (ds, r, false) := by
  simp [createFragment, lookupFragmentForShape, hw.lookup_eq_some_iff.2 h]

theorem createFragment_of_notMem (hs : space.getExtends ∉ ds.shapes)
    (hc : fragmentChecks ds.dataspace.dim space.dim = .ok ()) (buf : Option (Buf V)) :
    ds.createFragment space buf = .ok (ds.created space buf, ds.fragments.length, true) := by
  have hf : fragment { ds.updateActualSize space with
      fragments := ds.fragments ++ [newFragment space buf] } ds.fragments.length
        = .ok (newFragment space buf) := by
    simp [newFragment]
  have hn : (newFragment space buf).shape ∉ ds.shapes := hs
  unfold createFragment lookupFragmentForShape
  rw [lookupForShape_eq_none.2 hs]
  simp only [fragmentCreate, hc, Outcome.ok_bind, Outcome.pure_eq]
  unfold registerFragment
  rw [fragmentsAdd_of_notMem hf hn]
  simp [created, addFragment, updateActualSize, eassert_of]

/-- A fragment is created exactly for the shapes that the table does not have. -/
theorem createFragment_eq_ok {buf : Option (Buf V)} {r : ℕ} {isNew : Bool}
    (h : ds.createFragment space buf = .ok (ds', r, isNew)) :
    (isNew = false ∧ ds' = ds ∧ (space.getExtends, r) ∈ ds.table)
      ∨ (isNew = true ∧ ds' = ds.created space buf ∧ r = ds.fragments.length
        ∧ space.getExtends ∉ ds.shapes
        ∧ fragmentChecks ds.dataspace.dim space.dim = .ok ()) := by
  rcases hl : ds.lookupFragmentForShape space with _ | k
  · have hs := lookupForShape_eq_none.1 hl
    have hc : fragmentChecks ds.dataspace.dim space.dim = .ok () := by
      rw [createFragment, hl] at h
      obtain ⟨_, hc, -⟩ := Outcome.bind_eq_ok.1 h
      exact (Outcome.bind_eq_ok.1 hc).choose_spec.1
    rw [createFragment_of_notMem hs hc] at h
    obtain ⟨rfl, hr⟩ := Prod.mk.inj (Except.ok.inj h)
    obtain ⟨rfl, rfl⟩ := Prod.mk.inj hr
    exact .inr ⟨rfl, rfl, rfl, hs, hc⟩
  · rw [createFragment, hl] at h
    obtain ⟨rfl, hr⟩ := Prod.mk.inj (Except.ok.inj h)
    obtain ⟨rfl, rfl⟩ := Prod.mk.inj hr
    exact .inl ⟨rfl, rfl, mem_of_lookupForShape hl⟩

theorem fragmentChecks_of_fits : ∀ {dim sdim : List Dim},
    List.Forall₂ (fun d s => 0 < s.size ∧ (d.size = 0 ∨ s.size + s.offset ≤ d.size)) dim sdim →
    fragmentChecks dim sdim = .ok ()
  | [], [], _ => rfl
  | _ :: _, _ :: _, .cons h hs => by
    rw [fragmentChecks, eassert_of h.1, Outcome.ok_bind, eassert_of h.2, Outcome.ok_bind,
      fragmentChecks_of_fits hs]

end Create

/-- One change of a read or a write: a fragment's data is moved about, or a fragment for a space
that satisfies `P` is created. -/
inductive IoStep (P : Dataspace → Prop) : Dataset V → Dataset V → Prop
  | update {ds : Dataset V} {r : ℕ} {f f' : Fragment V} (hf : ds.fragment r = .ok f)
      (hk : f.Keeps f') : IoStep P ds (ds.setFragment r f')
  | create {ds : Dataset V} {space : Dataspace} {buf : Option (Buf V)} (hp : P space)
      (hs : space.getExtends ∉ ds.shapes)
      (hc : fragmentChecks ds.dataspace.dim space.dim = .ok ()) :
      IoStep P ds (ds.created space buf)

/-- Some changes of a read or a write. -/
abbrev IoSteps (P : Dataspace → Prop) : Dataset V → Dataset V → Prop :=
  Relation.ReflTransGen (IoStep P)

theorem IoSteps.mono {P Q : Dataspace → Prop} (h : IoSteps P ds ds')
    (hPQ : ∀ space, P space → Q space) : IoSteps Q ds ds' := by
  refine Relation.ReflTransGen.mono (fun _ _ hs => ?_) _ _ h
  cases hs with
  | update hf hk => exact .update hf hk
  | create hp hs hc => exact .create (hPQ _ hp) hs hc

/-- Two datasets with the same grids. -/
structure SameGrids (ds ds' : Dataset V) : Prop where
  dataspace : ds'.dataspace = ds.dataspace
  gridHeap : ds'.gridHeap = ds.gridHeap
  grids : ds'.grids = ds.grids
  gridCount : ds'.gridCount = ds.gridCount
  incompleteGridCount : ds'.incompleteGridCount = ds.incompleteGridCount

theorem IoStep.sameGrids {P : Dataspace → Prop} (h : IoStep P ds ds') : SameGrids ds ds' := by
  cases h with
  | update => exact ⟨rfl, rfl, rfl, rfl, rfl⟩
  | create => exact ⟨rfl, rfl, rfl, rfl, rfl⟩

theorem SameGrids.trans {ds₁ ds₂ ds₃ : Dataset V} (h : SameGrids ds₁ ds₂)
    (h' : SameGrids ds₂ ds₃) : SameGrids ds₁ ds₃ :=
  ⟨h'.dataspace.trans h.dataspace, h'.gridHeap.trans h.gridHeap, h'.grids.trans h.grids,
    h'.gridCount.trans h.gridCount, h'.incompleteGridCount.trans h.incompleteGridCount⟩

theorem IoSteps.sameGrids {P : Dataspace → Prop} (h : IoSteps P ds ds') : SameGrids ds ds' := by
  induction h with
  | refl => exact ⟨rfl, rfl, rfl, rfl, rfl⟩
  | tail _ hs ih => exact ih.trans hs.sameGrids

theorem IoSteps.table_eq (h : IoSteps (fun _ => False) ds ds') : ds'.table = ds.table := by
  induction h with
  | refl => rfl
  | tail _ hs ih =>
    cases hs with
    | update => exact ih
    | create hp => exact hp.elim

section Write

variable {P : Dataspace → Prop}

/-- A task that writes: the fragment is stored, and unloaded if that has succeeded. -/
theorem writeFragmentNonblocking_cases {r : ℕ} {status status' : Status}
    (h : ds.writeFragmentNonblocking env r user status = .ok (status', ds')) :
    ∃ f f₁ ret, ds.fragment r = .ok f
      ∧ Fragment.commit env { f with backend := some (f.backend.getD env.fastestBackend) } user
        = .ok (ret, f₁)
      ∧ ((ret = .success ∧ status' = status
          ∧ ∃ ret₂ f₂, f₁.unload env user = .ok (ret₂, f₂) ∧ ds' = ds.setFragment r f₂)
        ∨ (ret ≠ .success ∧ status' = ret ∧ ds' = ds.setFragment r f₁)) := by
  unfold writeFragmentNonblocking at h
  obtain ⟨f, hf, h⟩ := Outcome.bind_eq_ok.1 h
  obtain ⟨⟨ret, f₁⟩, hc, h⟩ := Outcome.bind_eq_ok.1 h
  refine ⟨f, f₁, ret, hf, hc, ?_⟩
  split at h
  · rename_i heq
    obtain ⟨rfl, rfl⟩ := Prod.mk.inj heq
    obtain ⟨⟨ret₂, f₂⟩, hu, h⟩ := Outcome.bind_eq_ok.1 h
    obtain ⟨rfl, rfl⟩ := Prod.mk.inj (Except.ok.inj h)
    exact .inl ⟨rfl, rfl, ret₂, f₂, hu, rfl⟩
  · rename_i hne heq
    obtain ⟨rfl, rfl⟩ := Prod.mk.inj heq
    obtain ⟨rfl, rfl⟩ := Prod.mk.inj (Except.ok.inj h)
    exact .inr ⟨hne, rfl, rfl⟩

theorem writeFragmentNonblocking_eq_ok {r : ℕ} {status status' : Status}
    (h : ds.writeFragmentNonblocking env r user status = .ok (status', ds')) :
    ∃ f f', ds.fragment r = .ok f ∧ f.Keeps f' ∧ ds' = ds.setFragment r f'
      ∧ f'.backend = some (f.backend.getD env.fastestBackend)
      ∧ (env.update f.shape = .success → status' = status ∧ f'.stored ≠ none ∧ f'.id ≠ none)
      ∧ (env.update f.shape ≠ .success → status' = env.update f.shape) := by
  obtain ⟨f, f₁, ret, hf, hc, hrest⟩ := writeFragmentNonblocking_cases h
  obtain ⟨hret, hk, -, -, hok, -⟩ := Fragment.commit_eq_ok hc
  have hk₀ : f.Keeps { f with backend := some (f.backend.getD env.fastestBackend) } :=
    ⟨rfl, rfl, rfl, rfl, rfl, fun h => h, fun _ h => h, fun b hb => by simp [hb]⟩
  change ret = env.update f.shape at hret
  obtain ⟨rfl, rfl, ret₂, f₂, hu, rfl⟩ | ⟨hne, rfl, rfl⟩ := hrest
  · have hku := Fragment.unload_keeps hu
    obtain ⟨packed, -, -, hst, hid⟩ := hok rfl
    refine ⟨f, f₂, hf, hk₀.trans (hk.trans hku), rfl, hku.backend _ (hk.backend _ rfl), ?_, ?_⟩
    · intro _
      obtain ⟨i, hi⟩ := Option.ne_none_iff_exists'.1 hid
      exact ⟨rfl, hku.stored (by simp [hst]), by simp [hku.id i hi]⟩
    · exact fun hne => absurd hret.symm hne
  · exact ⟨f, f₁, hf, hk₀.trans hk, rfl, hk.backend _ rfl,
      fun hs => absurd (hret.trans hs) hne, fun _ => hret⟩

theorem writeFragmentNonblocking_steps {r : ℕ} {status status' : Status}
    (h : ds.writeFragmentNonblocking env r user status = .ok (status', ds')) :
    IoStep P ds ds' := by
  obtain ⟨f, f', hf, hk, rfl, -⟩ := writeFragmentNonblocking_eq_ok h
  exact .update hf hk

/-- The space is a part of another one. -/
def PartOf (space sub : Dataspace) : Prop :=
  sub.type = space.type ∧ sub.dims = space.dims
    ∧ Hypercube.points sub.getExtends ⊆ Hypercube.points space.getExtends

/-- The extent of a dataspace that is made from a hypercube has the hypercube's points. -/
theorem mem_points_createFromHypercube {cube : Hypercube} {type : ElemType} {p : List ℤ} :
    p ∈ Hypercube.points (Dataspace.createFromHypercube cube type).getExtends
      ↔ p ∈ Hypercube.points cube := by
  have hmem : ∀ (x : ℤ) (r : Range), Range.Mem x ⟨r.start, r.start + r.size⟩ ↔ Range.Mem x r := by
    intro x r
    unfold Range.Mem Range.size Range.isEmpty
    split_ifs <;> dsimp only <;> omega
  unfold Dataspace.getExtends Dataspace.createFromHypercube
  rw [List.map_map]
  exact List.forall₂_map_right_iff.trans
    ⟨fun h => h.imp fun x r => (hmem x r).1, fun h => h.imp fun x r => (hmem x r).2⟩

theorem createFromHypercube_getExtends {cube : Hypercube} (h : ¬ Hypercube.isEmpty cube)
    (type : ElemType) : (Dataspace.createFromHypercube cube type).getExtends = cube := by
  unfold Dataspace.getExtends Dataspace.createFromHypercube
  rw [List.map_map]
  refine (List.map_congr_left fun r hr => ?_).trans (List.map_id cube)
  have : ¬ r.isEmpty := fun he => h ⟨r, hr, he⟩
  simp [Range.size_of_not_isEmpty this]

theorem subspaceOf_eq_ok {cube : Hypercube} {sub : Dataspace}
    (h : subspaceOf cube space = .ok sub) :
    cube.length = space.dims ∧ sub.type = space.type
      ∧ sub.dim = (Dataspace.createFromHypercube cube space.type).dim := by
  unfold subspaceOf Dataspace.copyDatalayout at h
  split_ifs at h with hl
  all_goals
    obtain rfl := Except.ok.inj h
    exact ⟨by simpa [Dataspace.dims, Dataspace.createFromHypercube] using hl, rfl, rfl⟩

theorem subspaceOf_partOf {cube : Hypercube} {sub : Dataspace}
    (h : subspaceOf cube space = .ok sub)
    (hc : Hypercube.points cube ⊆ Hypercube.points space.getExtends) : PartOf space sub := by
  obtain ⟨hl, ht, hd⟩ := subspaceOf_eq_ok h
  refine ⟨ht, ?_, fun p hp => ?_⟩
  · rw [Dataspace.dims, hd, Dataspace.createFromHypercube, List.length_map, hl]
  · rw [Dataspace.getExtends, hd] at hp
    exact hc (mem_points_createFromHypercube.1 hp)

theorem subspaceOf_getExtends {cube : Hypercube} {sub : Dataspace}
    (h : subspaceOf cube space = .ok sub) (hc : ¬ Hypercube.isEmpty cube) :
    sub.getExtends = cube ∧ ∀ d ∈ sub.dim, 0 < d.size := by
  obtain ⟨-, -, hd⟩ := subspaceOf_eq_ok h
  constructor
  · rw [Dataspace.getExtends, hd]
    exact createFromHypercube_getExtends hc space.type
  · rw [hd]
    intro d hd
    obtain ⟨r, hr, rfl⟩ := List.mem_map.1 hd
    exact Range.size_pos_iff.2 fun he => hc ⟨r, hr, he⟩

/-- One round of `writeCubes`: the fragment exists already, or it is created and written. -/
theorem writeCubes_cons_eq_ok {backend : Backend} {cube : Hypercube} {cubes : HypercubeSet}
    {status status' : Status}
    (h : writeCubes env space user backend (cube :: cubes) status ds = .ok (status', ds')) :
    ∃ sub, subspaceOf cube space = .ok sub
      ∧ ((∃ r, (sub.getExtends, r) ∈ ds.table
          ∧ writeCubes env space user backend cubes status ds = .ok (status', ds'))
        ∨ ∃ f ds₁ status₁,
          sub.getExtends ∉ ds.shapes ∧ fragmentChecks ds.dataspace.dim sub.dim = .ok ()
          ∧ f = { newFragment sub (some (.user (space.elementIndex (cube.map Range.start)))) with
              backend := some backend }
          ∧ writeFragmentNonblocking env ((ds.created sub
              (some (.user (space.elementIndex (cube.map Range.start))))).setFragment
                ds.fragments.length f) ds.fragments.length user status = .ok (status₁, ds₁)
          ∧ writeCubes env space user backend cubes status₁ ds₁ = .ok (status', ds')) := by
  rw [writeCubes] at h
  obtain ⟨sub, hsub, h₁⟩ := Outcome.bind_eq_ok.1 h
  obtain ⟨⟨ds₀, r, isNew⟩, hc, h₂⟩ := Outcome.bind_eq_ok.1 h₁
  refine ⟨sub, hsub, ?_⟩
  obtain ⟨rfl, rfl, hr⟩ | ⟨rfl, rfl, rfl, hs, hch⟩ := createFragment_eq_ok hc
  · exact .inl ⟨r, hr, h₂⟩
  · obtain ⟨f, hf, h₃⟩ := Outcome.bind_eq_ok.1 h₂
    obtain ⟨⟨status₁, ds₁⟩, hw, h₄⟩ := Outcome.bind_eq_ok.1 h₃
    rw [created_fragment] at hf
    obtain rfl := Except.ok.inj hf
    exact .inr ⟨_, ds₁, status₁, hs, hch, rfl, hw, h₄⟩

theorem writeCubes_steps {backend : Backend} {cubes : HypercubeSet} {status status' : Status}
    (hc : ∀ c ∈ cubes, Hypercube.points c ⊆ Hypercube.points space.getExtends)
    (h : writeCubes env space user backend cubes status ds = .ok (status', ds')) :
    IoSteps (PartOf space) ds ds' := by
  induction cubes generalizing status ds with
  | nil =>
    obtain ⟨-, rfl⟩ := Prod.mk.inj (Except.ok.inj h)
    exact .refl
  | cons cube cubes ih =>
    have ih := fun {status ds} => @ih status ds fun c hcm => hc c (List.mem_cons_of_mem _ hcm)
    obtain ⟨sub, hsub, ⟨r, -, h⟩ | ⟨f, ds₁, status₁, hs, hch, rfl, hw, h⟩⟩ :=
      writeCubes_cons_eq_ok h
    · exact ih h
    · have hp := subspaceOf_partOf hsub (hc cube (by simp))
      refine .head (.create hp hs hch) (.head (.update (created_fragment ..) ?_)
        (.head (writeFragmentNonblocking_steps hw) (ih h)))
      exact ⟨rfl, rfl, rfl, rfl, rfl, fun h => h, fun _ h => h, fun b hb => by cases hb⟩

theorem writeSlots_steps {slots : List (Backend × Slot)}
    {status status' : Status}
    (hc : ∀ q ∈ slots, ∀ c, q.2 = .cube c →
      Hypercube.Within c space.getExtends ∧ ¬ Hypercube.isEmpty c)
    (h : writeSlots env space user slots status ds = .ok (status', ds')) :
    IoSteps (PartOf space) ds ds' := by
  induction slots generalizing status ds with
  | nil =>
    obtain ⟨-, rfl⟩ := Prod.mk.inj (Except.ok.inj h)
    exact .refl
  | cons q slots ih =>
    have ih := fun {status ds} => @ih status ds fun q hq => hc q (List.mem_cons_of_mem _ hq)
    rcases q with ⟨backend, _ | _ | c⟩
    · cases h
    · exact ih h
    · rw [writeSlots] at h
      obtain ⟨backendSpace, hb, h⟩ := Outcome.bind_eq_ok.1 h
      obtain ⟨cubes, hcu, h⟩ := Outcome.bind_eq_ok.1 h
      obtain ⟨⟨status₁, ds₁⟩, hw, h⟩ := Outcome.bind_eq_ok.1 h
      obtain ⟨hcw, hce⟩ := hc _ (List.mem_cons_self ..) c rfl
      obtain ⟨hbe, hbs⟩ := subspaceOf_getExtends hb hce
      refine (writeCubes_steps (fun k hk => ?_) hw).trans (ih h)
      have := makeSplitRecommendation_within hbs hcu k hk
      rw [hbe] at this
      exact (this.trans hcw).points_subset

theorem writeBlocking_steps (hs : ∀ d ∈ space.dim, 0 < d.size) {status : Status}
    (h : ds.writeBlocking env user space = .ok (status, ds')) :
    IoSteps (PartOf space) ds ds' := by
  unfold writeBlocking enqueueWrite at h
  obtain ⟨slots, hsl, h⟩ := Outcome.bind_eq_ok.1 h
  obtain ⟨-, hcube, -⟩ := splitToBackends_eq_ok hs hsl
  refine writeSlots_steps (fun q hq c hqc => hcube c ?_) h
  rw [← hqc]
  exact (List.of_mem_zip hq).2

end Write

section Read

variable {P : Dataspace → Prop}

theorem enqueueRead_steps {fragments : List ℕ} {status status' : Status}
    (h : enqueueRead env space fragments status user ds = .ok (status', user', ds')) :
    IoSteps P ds ds' := by
  induction fragments generalizing status user ds with
  | nil =>
    obtain ⟨-, -, rfl⟩ := Prod.mk.inj (Except.ok.inj h)
    exact .refl
  | cons r fragments ih =>
    rw [enqueueRead] at h
    obtain ⟨f, hf, h⟩ := Outcome.bind_eq_ok.1 h
    obtain ⟨⟨ret, f', user₁⟩, hr, h⟩ := Outcome.bind_eq_ok.1 h
    exact .head (.update hf (readFragment_keeps hr)) (ih h)

/-- A read creates fragments only when it writes back what is covered by fragments already. -/
theorem readBlocking_steps (hs : ∀ d ∈ space.dim, 0 < d.size) {allowWriteback : Bool}
    {ret : Status} (h : ds.readBlocking env user space allowWriteback = .ok (ret, user', ds')) :
    ∃ covering, ds.fragmentsCoveringRegion env space.getExtends = .ok covering
      ∧ IoSteps (fun sub => allowWriteback = true ∧ covering.fullyCovered = true
        ∧ PartOf space sub) ds ds' := by
  unfold readBlocking at h
  obtain ⟨covering, hc, h⟩ := Outcome.bind_eq_ok.1 h
  refine ⟨covering, hc, ?_⟩
  obtain ⟨⟨status, user₁⟩, -, h⟩ := Outcome.bind_eq_ok.1 h
  split at h
  · obtain ⟨⟨ret₁, user₂, ds₁⟩, he, h⟩ := Outcome.bind_eq_ok.1 h
    obtain ⟨bytes, -, h⟩ := Outcome.bind_eq_ok.1 h
    dsimp only at h
    split_ifs at h with hw
    · obtain ⟨⟨_, ds₂⟩, hwr, h⟩ := Outcome.bind_eq_ok.1 h
      obtain ⟨-, -, rfl⟩ := Prod.mk.inj (Except.ok.inj h)
      exact (enqueueRead_steps he).trans
        ((writeBlocking_steps hs hwr).mono fun _ hp => ⟨hw.1, hw.2.2.1, hp⟩)
    · obtain ⟨-, -, rfl⟩ := Prod.mk.inj (Except.ok.inj h)
      exact enqueueRead_steps he
  · obtain ⟨-, -, rfl⟩ := Prod.mk.inj (Except.ok.inj h)
    exact .refl

end Read

end Dataset

end Esdm
