import Esdm.Handles
import Esdm.Proofs.Tidy

/-!
# The handle protocol

As long as a process releases its handles at most as often as it has obtained them, the reference
counts are the numbers of its handles.  `esdm_container_close` takes its own count down before it
looks for open datasets, so when it fails the container has lost its only reference
(`run_respects_iff`).
-/

namespace Esdm

variable {V A : Type}

section Faults

/-- A failed assertion about a reference count. -/
def Fault.OnRefcount (f : Fault) : Prop :=
  f = .assertion .containerRefcount ∨ f = .assertion .datasetRefcount

def Failure.OnRefcount : Failure → Prop
  | .fault f => f.OnRefcount
  | .destructedTable _ => False

instance (f : Fault) : Decidable f.OnRefcount := inferInstanceAs (Decidable (_ ∨ _))

/-- The outcome is not a failed assertion about a reference count. -/
abbrev Outcome.Spares {α : Type} (x : Outcome α) : Prop := Except.Avoids Fault.OnRefcount x

open Outcome

variable {α : Type}

@[simp] theorem avoids_within {x : Outcome α} :
    Except.Avoids Failure.OnRefcount x.within ↔ Spares x := by
  cases x <;> simp [Failure.OnRefcount]

@[simp] theorem spares_eassert {a : Assertion} {p : Prop} [Decidable p] :
    Spares (eassert a p) ↔ (Fault.OnRefcount (.assertion a) → p) := by
  unfold eassert
  split_ifs with h
  · simp [h]
  · simp [h]

@[simp] theorem not_onRefcount_undefined : ¬ Fault.OnRefcount .undefined := by decide

@[simp] theorem spares_access {o : Option α} : Spares (access o) := by
  cases o <;> simp

namespace Dataset

variable {env : Env V}

@[simp] theorem fragment_spares (ds : Dataset V) (r : ℕ) : Spares (ds.fragment r) := by
  unfold fragment
  simp

@[simp] theorem fragmentsAdd_spares (ds : Dataset V) (r : ℕ) : Spares (ds.fragmentsAdd r) := by
  unfold fragmentsAdd
  refine Except.avoids_bind.2 ⟨by simp, fun f _ => ?_⟩
  split <;> simp

@[simp] theorem fragmentDestroy_spares (ds : Dataset V) (r : ℕ) :
    Spares (ds.fragmentDestroy r) := by
  simp [fragmentDestroy]

theorem destroyFragments_spares : ∀ (entries : List (Hypercube × ℕ)) (ds : Dataset V),
    Spares (ds.destroyFragments entries)
  | [], ds => by simp [destroyFragments]
  | (shape, r) :: entries, ds => by
    have hclean : ¬ Fault.OnRefcount (.assertion .fragmentClean) := by decide
    simp [destroyFragments, hclean, destroyFragments_spares entries]

@[simp] theorem removeFragments_spares (ds : Dataset V) : Spares (ds.removeFragments env) := by
  simp [removeFragments, destroyFragments_spares]

theorem openFragments_spares : ∀ (list : List Json) (ds : Dataset V),
    Spares (openFragments env list ds)
  | [], ds => by simp [openFragments, absorbFragments]
  | json :: rest, ds => by
    unfold openFragments absorbFragments
    split
    · exact openFragments_spares rest _
    · refine Except.avoids_bind.2 ⟨by simp, fun r _ => ?_⟩
      refine Except.avoids_ite.2 ⟨fun _ => ?_, fun _ => ?_⟩
      · exact Except.avoids_bind.2 ⟨by simp, fun ds' _ => openFragments_spares rest ds'⟩
      · exact Except.avoids_bind.2 ⟨by simp, fun f _ => openFragments_spares rest _⟩

theorem createCells_spares {nested : Json → Dataset V → Outcome (Dataset V × Option ℕ)}
    (hn : ∀ json ds, Spares (nested json ds)) : ∀ (list : List Json) (ds : Dataset V),
    Spares (createCells env nested list ds)
  | [], ds => by simp [createCells]
  | json :: rest, ds => by
    have hcell : Spares (createCell env nested json ds) := by
      unfold createCell
      split
      · simp
      · simp
      · simp [hn]
      · split <;> simp
      · simp
    unfold createCells
    refine Except.avoids_bind.2 ⟨hcell, fun r _ => ?_⟩
    split
    · simp
    · simp [createCells_spares hn rest]

@[simp] theorem registerGridCompletion_spares (ds : Dataset V) (g : ℕ) :
    Spares (ds.registerGridCompletion g) := by
  have hcompletion : ¬ Fault.OnRefcount (.assertion .registerCompletion) := by decide
  simp [registerGridCompletion, hcompletion]

theorem gridCreateFromJson_spares : ∀ (depth : ℕ) (parent : Option ℕ) (json : Json)
    (ds : Dataset V), Spares (gridCreateFromJson env depth parent json ds)
  | 0, parent, json, ds => by
    have hfuel : ¬ Fault.OnRefcount .fuel := by decide
    simp [gridCreateFromJson, hfuel]
  | depth + 1, parent, json, ds => by
    unfold gridCreateFromJson
    split
    · simp
    · refine Except.avoids_bind.2 ⟨createCells_spares ?_ _ _, fun r _ => ?_⟩
      · exact fun json ds => gridCreateFromJson_spares depth _ json ds
      · split <;> simp

theorem openGrids_spares : ∀ (i : ℕ) (list : List Json) (ds : Dataset V),
    Spares (openGrids env i list ds)
  | i, [], ds => by simp [openGrids]
  | i, json :: list, ds => by
    unfold openGrids gridCreateFromString
    refine Except.avoids_bind.2 ⟨gridCreateFromJson_spares _ _ _ _, fun r _ => ?_⟩
    split
    · simp
    · exact openGrids_spares (i + 1) list _

end Dataset

namespace DatasetObject

theorem validNames_spares : ∀ names : List (Option String), Spares (validNames names)
  | [] => by simp [validNames]
  | name :: names => by simp [validNames, validNames_spares names]

@[simp] theorem nameDims_spares (d : DatasetObject V A) (names : List (Option String)) :
    Spares (d.nameDims names) := by
  unfold nameDims
  refine Except.avoids_bind.2 ⟨validNames_spares _, fun r _ => ?_⟩
  split <;> simp

theorem openContents_spares (env : Env V) (d : DatasetObject V A) (members : Json) (named : Bool) :
    Spares (openContents env d members named) := by
  unfold openContents
  split
  · simp
  · refine Except.avoids_bind.2 ⟨Dataset.openFragments_spares _ _, fun ds _ => ?_⟩
    split
    · simp
    · simp [Dataset.openGrids_spares]

@[simp] theorem openMdParse_spares (env : Env V) (d : DatasetObject V A)
    (description : Description V A) : Spares (d.openMdParse env description) := by
  unfold openMdParse
  refine Except.avoids_bind.2 ⟨by simp, fun id _ => ?_⟩
  refine Except.avoids_bind.2 ⟨?_, fun sizes _ => ?_⟩
  · unfold parseSizes
    simp only [Except.avoids_ite]
    refine ⟨by simp, fun _ => ?_⟩
    split <;> simp
  · split
    · simp
    · refine Except.avoids_ite.2 ⟨fun _ => Except.avoids_ok _, fun _ => ?_⟩
      refine Except.avoids_ite.2 ⟨fun _ => ?_, fun _ => ?_⟩
      · exact Except.avoids_bind.2 ⟨nameDims_spares _ _, fun r _ => openContents_spares _ _ _ _⟩
      · exact openContents_spares _ _ _ _

end DatasetObject

namespace Container

variable {env : Env V} {c : Container V A} {d : ℕ}

@[simp] theorem member_avoids : Except.Avoids Failure.OnRefcount (c.member d) := by
  unfold member
  simp [Failure.OnRefcount]

theorem findName_avoids {name : String} : ∀ dsets : List ℕ,
    Except.Avoids Failure.OnRefcount (c.findName name dsets)
  | [] => by simp [findName]
  | d :: dsets => by simp [findName, findName_avoids dsets]

@[simp] theorem datasetByName_avoids {name : String} :
    Except.Avoids Failure.OnRefcount (c.datasetByName name) := by
  unfold datasetByName
  refine Except.avoids_ite.2 ⟨fun _ => by simp, fun _ => ?_⟩
  refine Except.avoids_bind.2 ⟨findName_avoids _, fun r _ => ?_⟩
  split <;> simp

theorem datasetCreate_avoids {name id : String} {dataspace : Dataspace} {created : Status} :
    Except.Avoids Failure.OnRefcount (c.datasetCreate name dataspace created id) := by
  have hname : ¬ Fault.OnRefcount (.assertion .datasetName) := by decide
  simp [datasetCreate, datasetExists, hname, findName_avoids]

@[simp] theorem checkTable_avoids {m : Member V A} :
    Except.Avoids Failure.OnRefcount (checkTable d m) := by
  simp [checkTable, Failure.OnRefcount]

@[simp] theorem datasetRef_avoids {retrieved : Status} {description : Description V A} :
    Except.Avoids Failure.OnRefcount (c.datasetRef env d retrieved description) := by
  simp [datasetRef]

theorem datasetOpen_avoids {name : String} {retrieved : Status} {description : Description V A} :
    Except.Avoids Failure.OnRefcount (c.datasetOpen env name retrieved description) := by
  unfold datasetOpen
  refine Except.avoids_bind.2 ⟨by simp, fun r _ => ?_⟩
  split <;> simp

@[simp] theorem purge_avoids {m : Member V A} :
    Except.Avoids Failure.OnRefcount (purge env d m) := by
  simp [purge]

theorem destroyDatasets_avoids : ∀ (dsets : List ℕ) (c : Container V A),
    Except.Avoids Failure.OnRefcount (destroyDatasets env dsets c)
  | [], c => by simp [destroyDatasets]
  | d :: dsets, c => by
    simp [destroyDatasets, datasetDestroy, destruct, destroyDatasets_avoids dsets]

end Container

end Faults

namespace Container

open Dataset (AllLive Tidy)

variable {env : Env V} {c c' : Container V A} {d : ℕ} {m : Member V A} {status : Status}

section Inversion

theorem datasetByName_eq_ok {name : String} {found : Option ℕ}
    (h : c.datasetByName name = .ok (status, found)) : status = .success ↔ found.isSome := by
  unfold datasetByName at h
  split_ifs at h
  · cases h
    simp
  · obtain ⟨o, -, h⟩ := Except.bind_eq_ok.1 h
    cases o with
    | none =>
      cases h
      simp
    | some d =>
      cases h
      simp

end Inversion

section Destroy

/-- What a dataset is like that is destroyed with its container. -/
structure Unused (m : Member V A) : Prop where
  freed : m.freed = false
  refcount : m.refcount = 0
  destructed : m.destructed = false
  tidy : Tidy m.toDataset

theorem datasetDestroy_eq_ok (hm : c.members[d]? = some m) (hu : Unused m) :
    c.datasetDestroy env d = .ok c' ↔ ∃ ds, m.toDataset.removeFragments env = .ok ds
      ∧ c' = c.setMember d { m with toDataset := ds, destructed := true, freed := true } := by
  unfold datasetDestroy destruct purge checkTable
  rw [member_eq_ok.2 ⟨hm, hu.freed⟩]
  simp only [Except.ok_bind, hu.destructed, Bool.false_eq_true, if_false]
  cases hds : m.toDataset.removeFragments env with
  | error e => simp
  | ok ds => simp [eq_comm]

theorem members_setMember_of_ne {e : ℕ} {m' : Member V A} (hne : d ≠ e) :
    (c.setMember d m').members[e]? = c.members[e]? := List.getElem?_set_ne hne

theorem destroyDatasets_cons {dsets : List ℕ} (hm : c.members[d]? = some m) (hu : Unused m) :
    destroyDatasets env (d :: dsets) c = .ok c'
      ↔ ∃ ds, m.toDataset.removeFragments env = .ok ds ∧ destroyDatasets env dsets
        (c.setMember d { m with toDataset := ds, destructed := true, freed := true }) = .ok c' := by
  have hle : m.refcount ≤ 1 := by rw [hu.refcount]; exact Nat.zero_le 1
  rw [destroyDatasets, member_eq_ok.2 ⟨hm, hu.freed⟩, Except.ok_bind, if_pos hle,
    Except.bind_eq_ok]
  constructor
  · rintro ⟨c₁, h₁, h⟩
    obtain ⟨ds, hds, rfl⟩ := (datasetDestroy_eq_ok hm hu).1 h₁
    exact ⟨ds, hds, h⟩
  · rintro ⟨ds, hds, h⟩
    exact ⟨_, (datasetDestroy_eq_ok hm hu).2 ⟨ds, hds, rfl⟩, h⟩

/-- Datasets can be destroyed if none of their tables has a fragment that has been destroyed. -/
theorem destroyDatasets_returns_iff : ∀ {dsets : List ℕ} {c : Container V A}, dsets.Nodup →
    (∀ d ∈ dsets, ∃ m, c.members[d]? = some m ∧ Unused m) →
    ((∃ c', destroyDatasets env dsets c = .ok c')
      ↔ ∀ d ∈ dsets, ∀ m, c.members[d]? = some m → AllLive m.toDataset)
  | [], c, _, _ => by simp [destroyDatasets]
  | d :: dsets, c, hnodup, hunused => by
    obtain ⟨hnot, hnodup⟩ := List.nodup_cons.1 hnodup
    obtain ⟨⟨m, hm, hu⟩, hrest⟩ := List.forall_mem_cons.1 hunused
    have hne : ∀ e ∈ dsets, d ≠ e := fun e he h => hnot (h ▸ he)
    have hsame : ∀ m' : Member V A, ∀ e ∈ dsets,
        (c.setMember d m').members[e]? = c.members[e]? :=
      fun m' e he => members_setMember_of_ne (hne e he)
    have hunused' : ∀ m' : Member V A, ∀ e ∈ dsets,
        ∃ m, (c.setMember d m').members[e]? = some m ∧ Unused m := fun m' e he => by
      rw [hsame m' e he]
      exact hrest e he
    rw [List.forall_mem_cons]
    constructor
    · rintro ⟨c', h⟩
      obtain ⟨ds, hds, h⟩ := (destroyDatasets_cons hm hu).1 h
      refine ⟨fun m' hm' => ?_, fun e he m' hm' => ?_⟩
      · obtain rfl := Option.some.inj (hm.symm.trans hm')
        exact hu.tidy.removeFragments_returns_iff.1 ⟨ds, hds⟩
      · rw [← hsame _ e he] at hm'
        exact (destroyDatasets_returns_iff hnodup (hunused' _)).1 ⟨c', h⟩ e he m' hm'
    · rintro ⟨hlive, hall⟩
      obtain ⟨ds, hds⟩ : ∃ ds, m.toDataset.removeFragments env = .ok ds :=
        hu.tidy.removeFragments_returns_iff.2 (hlive m hm)
      obtain ⟨c', h⟩ := (destroyDatasets_returns_iff hnodup (hunused' _)).2 fun e he m' hm' =>
        hall e he m' (hsame _ e he ▸ hm')
      exact ⟨c', (destroyDatasets_cons hm hu).2 ⟨ds, hds, h⟩⟩

/-- There are as many datasets as before, and those that are destroyed are freed. -/
theorem destroyDatasets_freed : ∀ {dsets : List ℕ} {c : Container V A}, dsets.Nodup →
    (∀ d ∈ dsets, ∃ m, c.members[d]? = some m ∧ Unused m) →
    destroyDatasets env dsets c = .ok c' → c'.members.length = c.members.length
      ∧ ∀ e m', c'.members[e]? = some m' →
        (e ∈ dsets ∨ ∃ m, c.members[e]? = some m ∧ m.freed = true) → m'.freed = true
  | [], c, _, _, h => by
    obtain rfl := Except.ok.inj h
    refine ⟨rfl, ?_⟩
    rintro e m' hm' (he | ⟨m, hm, hfreed⟩)
    · exact nomatch he
    · rw [hm] at hm'
      obtain rfl := Option.some.inj hm'
      exact hfreed
  | d :: dsets, c, hnodup, hunused, h => by
    obtain ⟨hnot, hnodup⟩ := List.nodup_cons.1 hnodup
    obtain ⟨⟨m, hm, hu⟩, hrest⟩ := List.forall_mem_cons.1 hunused
    have hne : ∀ e ∈ dsets, d ≠ e := fun e he h => hnot (h ▸ he)
    obtain ⟨ds, -, h⟩ := (destroyDatasets_cons hm hu).1 h
    obtain ⟨hlen, hfreed⟩ := destroyDatasets_freed hnodup (fun e he => by
      rw [members_setMember_of_ne (hne e he)]
      exact hrest e he) h
    refine ⟨hlen.trans (List.length_set ..), fun e m' hm' he => hfreed e m' hm' ?_⟩
    by_cases hde : d = e
    · subst hde
      exact .inr ⟨_, List.getElem?_set_self (List.getElem?_eq_some_iff.1 hm).1, rfl⟩
    · rw [members_setMember_of_ne hde]
      exact he.imp_left fun he => (List.mem_cons.1 he).resolve_left (Ne.symm hde)

end Destroy

section Close

theorem anyOpen_eq_ok : ∀ {dsets : List ℕ}, (∀ d ∈ dsets, ∃ m, c.member d = .ok m) →
    ∃ b, c.anyOpen dsets = .ok b
      ∧ (b = true ↔ ∃ d ∈ dsets, ∃ m, c.members[d]? = some m ∧ m.refcount ≠ 0)
  | [], _ => ⟨false, rfl, by simp⟩
  | d :: dsets, hdsets => by
    obtain ⟨⟨m, hm⟩, hrest⟩ := List.forall_mem_cons.1 hdsets
    obtain ⟨b, hb, hiff⟩ := anyOpen_eq_ok hrest
    refine ⟨m.refcount ≠ 0 || b, by rw [anyOpen, hm, Except.ok_bind, hb]; rfl, ?_⟩
    rw [Bool.or_eq_true, hiff, decide_eq_true_eq, List.exists_mem_cons_iff]
    simp [(member_eq_ok.1 hm).1]

end Close

end Container

namespace Handles

open Dataset (AllLive Tidy)

variable {c c' : Container V A} {held : ℕ → ℕ} {h h' : Handles V A} {env : Env V} {d : ℕ}
  {m m' : Member V A} {status : Status}

section Sound

/-- What holds of a dataset of which the process has the given number of handles. -/
structure Kept (held : ℕ) (m : Member V A) : Prop where
  refcount : m.refcount = held
  loaded : 0 < held → m.status ≠ .notLoaded
  destructed : m.destructed = false
  tidy : Tidy m.toDataset

/-- What holds of a container while the process has its handle: the reference counts are the numbers
of handles. -/
structure Sound (c : Container V A) (held : ℕ → ℕ) : Prop where
  refcount : c.refcount = 1
  status : c.status ≠ .notLoaded
  freed : c.freed = false
  listed : c.Listed
  kept : ∀ d m, c.members[d]? = some m → Kept (held d) m
  beyond : ∀ d, c.members.length ≤ d → held d = 0

theorem sound_init : Sound (.init : Container V A) fun _ => 0 where
  refcount := rfl
  status := nofun
  freed := rfl
  listed := ⟨rfl, by simp [Container.init]⟩
  kept := by simp [Container.init]
  beyond := fun _ _ => rfl

theorem sound_openMdParse (references : List (String × String)) :
    Sound (.openMdParse references : Container V A) fun _ => 0 := by
  have hmember : ∀ m ∈ (.openMdParse references : Container V A).members,
      m.freed = false ∧ Kept 0 m := by
    intro m hm
    obtain ⟨⟨name, id⟩, -, rfl⟩ := List.mem_map.1 hm
    have htidy : Tidy (.init (.createFull [] (.basic .int64)) none : Dataset V) :=
      Dataset.init_tidy _ _
    exact ⟨rfl, rfl, nofun, rfl, htidy.congr rfl rfl⟩
  exact {
    refcount := rfl
    status := nofun
    freed := rfl
    listed := ⟨by simp [Container.openMdParse], fun m hm => (hmember m hm).1⟩
    kept := fun d m hm => (hmember m (List.mem_of_getElem? hm)).2
    beyond := fun _ _ => rfl }

/-- A dataset changes, and so does the number of its handles. -/
theorem Sound.setMember (hs : Sound c held) {n : ℕ} {dataStatus : DataStatus}
    (hm : c.members[d]? = some m) (hk : Kept n m') (hf : m'.freed = m.freed)
    (hstatus : dataStatus ≠ .notLoaded) :
    Sound { c.setMember d m' with status := dataStatus } (Function.update held d n) := by
  have hlt : d < c.members.length := (List.getElem?_eq_some_iff.1 hm).1
  have hfreed := hf.trans (hs.listed.alive m (List.mem_of_getElem? hm))
  refine ⟨hs.refcount, hstatus, hs.freed, (hs.listed.setMember hfreed).1.mark _, ?_, ?_⟩
  · intro e m₁ hm₁
    by_cases hde : d = e
    · subst hde
      rw [Function.update_self]
      obtain rfl := Option.some.inj ((List.getElem?_set_self hlt).symm.trans hm₁)
      exact hk
    · rw [Function.update_of_ne (Ne.symm hde)]
      exact hs.kept e m₁ ((Container.members_setMember_of_ne hde).symm.trans hm₁)
  · intro e he
    have he : c.members.length ≤ e := by simpa [Container.setMember] using he
    rw [Function.update_of_ne (by omega)]
    exact hs.beyond e he

theorem Sound.datasetCreate (hs : Sound c held) {name id : String} {dataspace : Dataspace}
    {created : Status} (h : c.datasetCreate name dataspace created id = .ok (status, c')) :
    Sound c' (if status = .success then
      Function.update held c.members.length (held c.members.length + 1) else held) := by
  have hlisted := (hs.listed.datasetCreate h).1
  obtain ⟨hstatus, rfl⟩ | ⟨rfl, -, -, rfl⟩ := Container.datasetCreate_eq_ok h
  · rw [if_neg hstatus]
    exact hs
  rw [if_pos rfl]
  refine ⟨hs.refcount, nofun, hs.freed, hlisted, ?_, ?_⟩
  · intro e m hm
    by_cases he : e = c.members.length
    · subst he
      rw [Function.update_self, hs.beyond _ le_rfl]
      obtain rfl := Option.some.inj ((List.getElem?_concat_length ..).symm.trans hm)
      exact ⟨rfl, fun _ => nofun, rfl, Dataset.init_tidy _ _⟩
    · rw [Function.update_of_ne he]
      have hlt : e < c.members.length := by
        have := (List.getElem?_eq_some_iff.1 hm).1
        simp only [List.length_append, List.length_singleton] at this
        omega
      exact hs.kept e m ((List.getElem?_append_left hlt).symm.trans hm)
  · intro e he
    simp only [List.length_append, List.length_singleton] at he
    rw [Function.update_of_ne (by omega)]
    exact hs.beyond e (by omega)

theorem Sound.datasetRef (hs : Sound c held) {retrieved : Status} {description : Description V A}
    (h : c.datasetRef env d retrieved description = .ok (status, c')) :
    Sound c' (if status = .success then Function.update held d (held d + 1) else held) := by
  obtain ⟨m, hm, ⟨hloaded, rfl, rfl⟩ | ⟨hstatus, rfl⟩ | ⟨object, marked, hunloaded, hparse, rfl⟩⟩ :=
    Container.datasetRef_eq_ok h
  · have hk := hs.kept d m hm
    rw [if_pos rfl]
    have hk' : Kept (held d + 1) { m with refcount := m.refcount + 1 } :=
      ⟨congrArg (· + 1) hk.refcount, fun _ => hloaded, hk.destructed, hk.tidy⟩
    exact hs.setMember hm hk' rfl hs.status
  · rw [if_neg hstatus]
    exact hs
  · have hk := hs.kept d m hm
    have hnone : held d = 0 := Nat.eq_zero_of_not_pos fun hpos => hk.loaded hpos hunloaded
    obtain ⟨htidy, hpersistent⟩ := DatasetObject.openMdParse_tidy hk.tidy hparse
    have hmark : (if marked then .dirty else c.status) ≠ DataStatus.notLoaded := by
      split_ifs
      · nofun
      · exact hs.status
    by_cases hstatus : status = .success
    · rw [if_pos hstatus, if_pos hstatus]
      have hk' : Kept (held d + 1)
          { m with toDatasetObject := object, refcount := m.refcount + 1 } :=
        ⟨congrArg (· + 1) hk.refcount, fun _ => by rw [hpersistent hstatus]; nofun,
          hk.destructed, htidy⟩
      exact hs.setMember hm hk' rfl hmark
    · rw [if_neg hstatus, if_neg hstatus]
      have hk' : Kept (held d) { m with toDatasetObject := object } :=
        ⟨hk.refcount, fun hpos => absurd hnone hpos.ne', hk.destructed, htidy⟩
      have hsound := hs.setMember hm hk' rfl hmark
      rwa [Function.update_eq_self] at hsound

theorem Sound.datasetOpen (hs : Sound c held) {name : String} {retrieved found : Status}
    {description : Description V A} {o : Option ℕ} (hfound : c.datasetByName name = .ok (found, o))
    (h : c.datasetOpen env name retrieved description = .ok (status, c')) :
    Sound c' (if status = .success then
      Function.update held (o.getD 0) (held (o.getD 0) + 1) else held) := by
  have hiff := Container.datasetByName_eq_ok hfound
  unfold Container.datasetOpen at h
  rw [hfound, Except.ok_bind] at h
  split at h
  · next d heq =>
    obtain ⟨rfl, rfl⟩ := Prod.mk.inj heq
    exact hs.datasetRef h
  · next status' o' hne heq =>
    obtain ⟨rfl, rfl⟩ := Prod.mk.inj heq
    obtain ⟨rfl, rfl⟩ := Prod.mk.inj (Except.ok.inj h)
    have hstatus : found ≠ .success := fun hsuccess => by
      obtain ⟨d, hd⟩ := Option.isSome_iff_exists.1 (hiff.1 hsuccess)
      exact hne d hsuccess hd
    rw [if_neg hstatus]
    exact hs

theorem Sound.datasetClose (hs : Sound c held) (h : c.datasetClose env d = .ok (status, c')) :
    Sound c' (Function.update held d (held d - 1)) := by
  obtain ⟨-, m, hm, hpos, rfl | ⟨hzero, ds, hds, rfl⟩⟩ := Container.datasetClose_eq_ok h
  · have hk := hs.kept d m hm
    have hk' : Kept (held d - 1) { m with refcount := m.refcount - 1 } :=
      ⟨congrArg (· - 1) hk.refcount, fun hd => hk.loaded (by omega), hk.destructed, hk.tidy⟩
    exact hs.setMember hm hk' rfl hs.status
  · have hk := hs.kept d m hm
    have hzero' : held d - 1 = 0 := hk.refcount ▸ hzero
    have htidy₁ : Tidy { m.toDataset with status := .notLoaded } := hk.tidy.congr rfl rfl
    have htidy : Tidy ds := htidy₁.removeFragments hds
    have hk' : Kept (held d - 1)
        ({ m with refcount := m.refcount - 1, attr := none, toDataset := ds } : Member V A) :=
      ⟨congrArg (· - 1) hk.refcount, fun hd => absurd hzero' hd.ne', hk.destructed, htidy⟩
    exact hs.setMember hm hk' rfl hs.status

end Sound

section Close

/-- No dataset is open, and no table has a fragment that has been destroyed. -/
def Closable (h : Handles V A) : Prop :=
  (∀ d, h.held d = 0) ∧ ∀ m ∈ h.container.members, AllLive m.toDataset

theorem Sound.dsets (hs : Sound c held) (hd : d ∈ c.dsets) : ∃ m, c.members[d]? = some m := by
  rw [hs.listed.dsets, List.mem_range] at hd
  exact ⟨_, List.getElem?_eq_getElem hd⟩

theorem Sound.anyOpen (hs : Sound c held) {n : ℕ} : ∃ b,
    ({ c with refcount := n } : Container V A).anyOpen c.dsets = .ok b
      ∧ (b = true ↔ ∃ d, held d ≠ 0) := by
  have hdsets : ∀ d ∈ c.dsets, ∃ m, ({ c with refcount := n } : Container V A).member d = .ok m :=
    fun d hd => hs.listed.member hd
  obtain ⟨b, hb, hiff⟩ := Container.anyOpen_eq_ok hdsets
  refine ⟨b, hb, hiff.trans ?_⟩
  constructor
  · rintro ⟨d, -, m, hm, hrefcount⟩
    exact ⟨d, (hs.kept d m hm).refcount ▸ hrefcount⟩
  · rintro ⟨d, hd⟩
    have hlt : d < c.members.length := Nat.lt_of_not_le fun hle => hd (hs.beyond d hle)
    have hm := List.getElem?_eq_getElem hlt
    refine ⟨d, by rwa [hs.listed.dsets, List.mem_range], _, hm, ?_⟩
    rw [(hs.kept d _ hm).refcount]
    exact hd

/-- With an open dataset the container is not closed, but its reference is gone. -/
theorem Sound.close_of_held (hs : Sound c held) (hd : held d ≠ 0) :
    c.close env = .ok (.error, { c with refcount := 0 }) := by
  obtain ⟨b, hb, hiff⟩ := @Sound.anyOpen V A c held hs 0
  rw [hiff.2 ⟨d, hd⟩, hs.freed] at hb
  unfold Container.close Container.checkContainer
  simp [hs.freed, hs.status, hs.refcount, eassert, hb]

theorem Sound.close_of_released (hs : Sound c held) (hall : ∀ d, held d = 0) :
    c.close env
      = (Container.destroyDatasets env c.dsets { c with refcount := 0, status := .notLoaded }
      >>= fun c => .ok (.success, { c with freed := true })) := by
  obtain ⟨b, hb, hiff⟩ := @Sound.anyOpen V A c held hs 0
  have hfalse : b = false := Bool.eq_false_iff.2 fun h => by
    obtain ⟨d, hd⟩ := hiff.1 h
    exact hd (hall d)
  rw [hfalse, hs.freed] at hb
  unfold Container.close Container.checkContainer
  simp [hs.freed, hs.status, hs.refcount, eassert, hb]

theorem Sound.unused (hs : Sound c held) (hall : ∀ d, held d = 0) (hd : d ∈ c.dsets) :
    ∃ m, c.members[d]? = some m ∧ Container.Unused m := by
  obtain ⟨m, hm⟩ := hs.dsets hd
  have hk := hs.kept d m hm
  exact ⟨m, hm, hs.listed.alive m (List.mem_of_getElem? hm), hk.refcount.trans (hall d),
    hk.destructed, hk.tidy⟩

/-- The container and all its datasets have been destroyed. -/
def Destroyed (c : Container V A) : Prop := c.freed = true ∧ ∀ m ∈ c.members, m.freed = true

/-- A container close does what it should: when it returns `ESDM_ERROR` the container and its
datasets are as before, and when no dataset is open it succeeds and destroys the container, which it
was not before. -/
def ClosesWell (h : Handles V A) (env : Env V) : Prop :=
  (∀ c', h.container.close env = .ok (.error, c') →
    c'.refcount = h.container.refcount ∧ c'.members = h.container.members
      ∧ c'.dsets = h.container.dsets)
  ∧ ((∀ d, h.held d = 0) → h.container.freed = false
    ∧ ∃ c', h.container.close env = .ok (.success, c') ∧ Destroyed c')

theorem Sound.closesWell_iff (hs : Sound h.container h.held) : ClosesWell h env ↔ Closable h := by
  by_cases hall : ∀ d, h.held d = 0
  swap
  · obtain ⟨d, hd⟩ := not_forall.1 hall
    refine iff_of_false (fun hwell => ?_) fun hclosable => hall hclosable.1
    have hrefcount := (hwell.1 _ (hs.close_of_held hd)).1
    exact Nat.zero_ne_one (hrefcount.trans hs.refcount)
  have hclose := @Sound.close_of_released V A h.container h.held env hs hall
  have hnodup : h.container.dsets.Nodup := hs.listed.dsets ▸ List.nodup_range
  have hunused : ∀ d ∈ h.container.dsets, ∃ m,
      ({ h.container with refcount := 0, status := .notLoaded } : Container V A).members[d]?
        = some m
        ∧ Container.Unused m := fun d hd => hs.unused hall hd
  have hdestroy := @Container.destroyDatasets_returns_iff V A env _ _ hnodup hunused
  constructor
  · rintro ⟨-, hsuccess⟩
    obtain ⟨-, c', hc', -⟩ := hsuccess hall
    obtain ⟨c₁, hc₁, -⟩ := Except.bind_eq_ok.1 (hclose.symm.trans hc')
    refine ⟨hall, fun m hm => ?_⟩
    obtain ⟨d, hd⟩ := List.mem_iff_getElem?.1 hm
    have hlt := (List.getElem?_eq_some_iff.1 hd).1
    exact hdestroy.1 ⟨c₁, hc₁⟩ d (by rwa [hs.listed.dsets, List.mem_range]) m hd
  · rintro ⟨-, hlive⟩
    obtain ⟨c₁, hc₁⟩ := hdestroy.2 fun d _ m hm => hlive m (List.mem_of_getElem? hm)
    have hc₁' := hclose.trans (by rw [hc₁, Except.ok_bind])
    refine ⟨fun c' hc' => ?_, fun _ => ⟨hs.freed, _, hc₁', rfl, fun m hm => ?_⟩⟩
    · exact nomatch hc₁'.symm.trans hc'
    · obtain ⟨d, hd⟩ := List.mem_iff_getElem?.1 hm
      obtain ⟨hlen, hfreed⟩ := Container.destroyDatasets_freed hnodup hunused hc₁
      have hlt : d < h.container.members.length := hlen ▸ (List.getElem?_eq_some_iff.1 hd).1
      exact hfreed d m hd (.inl (by rwa [hs.listed.dsets, List.mem_range]))

end Close

section Step

variable {call : Call V A}

/-- The process has the container's handle, and a handle of a dataset that it releases. -/
def Permits (h : Handles V A) : Call V A → Prop
  | .datasetClose d => h.isOpen = true ∧ 0 < h.held d
  | _ => h.isOpen = true

theorem Permits.isOpen (hp : h.Permits call) : h.isOpen = true := by
  cases call with
  | datasetClose d => exact hp.1
  | _ => exact hp

/-- No call fails on a reference count. -/
theorem Sound.step_avoids (hs : Sound h.container h.held) (hp : h.Permits call) :
    (h.step env call).Avoids Failure.OnRefcount := by
  cases call with
  | close =>
    refine Except.avoids_bind.2 ⟨?_, fun r _ => Except.avoids_ok _⟩
    by_cases hall : ∀ d, h.held d = 0
    · rw [hs.close_of_released hall]
      simp [Container.destroyDatasets_avoids]
    · obtain ⟨d, hd⟩ := not_forall.1 hall
      rw [hs.close_of_held hd]
      simp
  | datasetCreate name dataspace created id =>
    exact Except.avoids_bind.2 ⟨Container.datasetCreate_avoids, fun r _ => Except.avoids_ok _⟩
  | datasetOpen name retrieved description =>
    refine Except.avoids_bind.2 ⟨Container.datasetByName_avoids, fun r _ => ?_⟩
    exact Except.avoids_bind.2 ⟨Container.datasetOpen_avoids, fun r _ => Except.avoids_ok _⟩
  | datasetRef d retrieved description =>
    exact Except.avoids_bind.2 ⟨Container.datasetRef_avoids, fun r _ => Except.avoids_ok _⟩
  | datasetClose d =>
    refine Except.avoids_bind.2 ⟨?_, fun r _ => Except.avoids_ok _⟩
    have hloaded : ¬ Fault.OnRefcount (.assertion .datasetLoaded) := by decide
    have hrefcount : ∀ m, h.container.members[d]? = some m → 0 < m.refcount := fun m hm => by
      rw [(hs.kept d m hm).refcount]
      exact hp.2
    unfold Container.datasetClose
    refine Except.avoids_bind.2 ⟨by simp, fun m hm => ?_⟩
    have hpos := hrefcount m (Container.member_eq_ok.1 hm).1
    simp [hloaded, hpos]

/-- A call that is permitted keeps the account, if a container is closed only when it can be. -/
theorem Sound.step (hs : Sound h.container h.held) (hclose : call = .close → Closable h)
    (hstep : h.step env call = .ok (status, h')) (hopen : h'.isOpen = true) :
    Sound h'.container h'.held := by
  cases call with
  | close =>
    exfalso
    obtain ⟨⟨status', c'⟩, hc', hstep⟩ := Except.bind_eq_ok.1 hstep
    obtain ⟨-, rfl⟩ := Prod.mk.inj (Except.ok.inj hstep)
    obtain ⟨-, c'', hc'', -⟩ := (hs.closesWell_iff.2 (hclose rfl)).2 (hclose rfl).1
    obtain ⟨rfl, -⟩ := Prod.mk.inj (Except.ok.inj (hc'.symm.trans hc''))
    simp at hopen
  | datasetCreate name dataspace created id =>
    obtain ⟨⟨status', c'⟩, hc', hstep⟩ := Except.bind_eq_ok.1 hstep
    obtain ⟨-, rfl⟩ := Prod.mk.inj (Except.ok.inj hstep)
    exact hs.datasetCreate hc'
  | datasetOpen name retrieved description =>
    obtain ⟨⟨found, o⟩, hfound, hstep⟩ := Except.bind_eq_ok.1 hstep
    obtain ⟨⟨status', c'⟩, hc', hstep⟩ := Except.bind_eq_ok.1 hstep
    obtain ⟨-, rfl⟩ := Prod.mk.inj (Except.ok.inj hstep)
    exact hs.datasetOpen hfound hc'
  | datasetRef d retrieved description =>
    obtain ⟨⟨status', c'⟩, hc', hstep⟩ := Except.bind_eq_ok.1 hstep
    obtain ⟨-, rfl⟩ := Prod.mk.inj (Except.ok.inj hstep)
    exact hs.datasetRef hc'
  | datasetClose d =>
    obtain ⟨⟨status', c'⟩, hc', hstep⟩ := Except.bind_eq_ok.1 hstep
    obtain ⟨-, rfl⟩ := Prod.mk.inj (Except.ok.inj hstep)
    exact hs.datasetClose hc'

end Step

end Handles

namespace Process

open Handles (Sound)

variable {p : Process V A} {op : Op V A}

/-- The process uses no handle that it has released, and releases none more often than it has
obtained it. -/
def Permits (p : Process V A) : Op V A → Prop
  | .call i _ call => ∃ h, p[i]? = some h ∧ h.Permits call
  | _ => True

/-- The call does not fail on a reference count, and if it closes a container it does so well. -/
def Respects (p : Process V A) (op : Op V A) : Prop :=
  (p.step op).Avoids Failure.OnRefcount
    ∧ ∀ i env h, op = .call i env .close → p[i]? = some h → h.ClosesWell env

/-- A container that is closed can be closed. -/
def Closes (p : Process V A) (op : Op V A) : Prop :=
  ∀ i env h, op = .call i env .close → p[i]? = some h → h.Closable

/-- What holds of the containers whose handles the process has. -/
def AllSound (p : Process V A) : Prop :=
  ∀ h ∈ p, h.isOpen = true → Sound h.container h.held

theorem step_call {i : ℕ} {env : Env V} {call : Handles.Call V A} {h : Handles V A}
    (hh : p[i]? = some h) : p.step (.call i env call)
      = (h.step env call >>= fun r => .ok (r.1, p.set i r.2)) := by
  unfold step
  dsimp only
  rw [hh]
  rfl

theorem AllSound.respects_iff (hs : AllSound p) (hp : p.Permits op) :
    p.Respects op ↔ p.Closes op := by
  have hsound : ∀ i env h, op = .call i env .close → p[i]? = some h →
      Sound h.container h.held := by
    rintro i env h rfl hh
    obtain ⟨h', hh', hopen⟩ := hp
    obtain rfl := Option.some.inj (hh.symm.trans hh')
    exact hs h (List.mem_of_getElem? hh) hopen
  have havoids : (p.step op).Avoids Failure.OnRefcount := by
    cases op with
    | containerCreate created => exact Except.avoids_ok _
    | containerOpen retrieved references => exact Except.avoids_ok _
    | call i env call =>
      obtain ⟨h, hh, hp⟩ := hp
      have hsound := hs h (List.mem_of_getElem? hh) hp.isOpen
      rw [step_call hh]
      exact Except.avoids_bind.2 ⟨hsound.step_avoids hp, fun r _ => Except.avoids_ok _⟩
  constructor
  · rintro ⟨-, hwell⟩ i env h hop hh
    exact (hsound i env h hop hh).closesWell_iff.1 (hwell i env h hop hh)
  · intro hcloses
    exact ⟨havoids, fun i env h hop hh =>
      (hsound i env h hop hh).closesWell_iff.2 (hcloses i env h hop hh)⟩

theorem AllSound.step (hs : AllSound p) (hp : p.Permits op) (hc : p.Closes op)
    {r : Status × Process V A} (hr : p.step op = .ok r) : AllSound r.2 := by
  have happend : ∀ c : Container V A, Sound c (fun _ => 0) → AllSound (p ++ [.new c]) :=
    fun c hc => List.forall_mem_append.2 ⟨hs, List.forall_mem_singleton.2 fun _ => hc⟩
  cases op with
  | containerCreate created =>
    obtain rfl := Except.ok.inj hr
    dsimp only
    split_ifs
    · exact happend _ Handles.sound_init
    · exact hs
  | containerOpen retrieved references =>
    obtain rfl := Except.ok.inj hr
    dsimp only
    split_ifs
    · exact happend _ (Handles.sound_openMdParse references)
    · exact hs
  | call i env call =>
    obtain ⟨h, hh, hp⟩ := hp
    rw [step_call hh] at hr
    obtain ⟨⟨status, h'⟩, hstep, hr⟩ := Except.bind_eq_ok.1 hr
    obtain rfl := Except.ok.inj hr
    have hsound := hs h (List.mem_of_getElem? hh) hp.isOpen
    intro h₁ hh₁ hopen
    rcases List.mem_or_eq_of_mem_set hh₁ with hmem | rfl
    · exact hs h₁ hmem hopen
    · exact hsound.step (fun hclose => hc i env h (by rw [hclose]) hh) hstep hopen

/-- For every sequence of calls in which the process releases its handles at most as often as it has
obtained them: all calls respect the reference counts exactly if no container is closed while one of
its datasets is open, or while a table of a dataset has a fragment that has been destroyed. -/
theorem run_respects_iff {ops : List (Op V A)} (hp : machine.EachCall Permits [] ops) :
    machine.EachCall Respects ([] : Process V A) ops ↔ machine.EachCall Closes [] ops := by
  have hiff := @Machine.EachCall.congr _ _ _ _ machine
    (fun (p : Process V A) op => p.Permits op ∧ p.Respects op)
    (fun p op => p.Permits op ∧ p.Closes op) AllSound ops []
    (fun _ hs => and_congr_right fun hp => hs.respects_iff hp)
    (fun _ hs hpr hr => hs.step hpr.1 ((hs.respects_iff hpr.1).1 hpr.2) hr) nofun
  rw [Machine.EachCall.and_iff, Machine.EachCall.and_iff] at hiff
  exact ⟨fun h => (hiff.1 ⟨hp, h⟩).2, fun h => (hiff.2 ⟨hp, h⟩).2⟩

/-- A container with a dataset. -/
def sampleOps : List (Op ℤ ℤ) :=
  [.containerCreate .success,
    .call 0 (.calm 0) (.datasetCreate "d" (.createFull [⟨0, 2⟩] (.basic .int64)) .success "id")]

def close : Op ℤ ℤ := .call 0 (.calm 0) .close

def datasetClose : Op ℤ ℤ := .call 0 (.calm 0) (.datasetClose 0)

/-- The dataset is closed before the container. -/
theorem run_respects_iff_ordered :
    machine.EachCall Permits ([] : Process ℤ ℤ) (sampleOps ++ [datasetClose, close])
      ∧ machine.EachCall Respects ([] : Process ℤ ℤ) (sampleOps ++ [datasetClose, close]) := by
  have hpermits :
    machine.EachCall Permits ([] : Process ℤ ℤ) (sampleOps ++ [datasetClose, close]) := by
    refine .cons_of_ok rfl trivial (.cons_of_ok rfl ⟨_, rfl, rfl⟩ ?_)
    exact .cons_of_ok rfl ⟨_, rfl, rfl, Nat.one_pos⟩ (.cons_of_ok rfl ⟨_, rfl, rfl⟩ trivial)
  refine ⟨hpermits, (run_respects_iff hpermits).2 ?_⟩
  refine .cons_of_ok rfl (fun _ _ _ hop => nomatch hop) ?_
  refine .cons_of_ok rfl (fun _ _ _ hop => nomatch hop) ?_
  refine .cons_of_ok rfl (fun _ _ _ hop => nomatch hop) ?_
  refine .cons_of_ok rfl ?_ trivial
  intro i env h hop hh
  obtain ⟨rfl, rfl, -⟩ := Op.call.inj hop
  obtain rfl := Option.some.inj hh
  refine ⟨fun d => ?_, List.forall_mem_singleton.2 fun e he => nomatch he⟩
  by_cases hd : d = 0
  · rw [hd]
    rfl
  · exact (Function.update_of_ne hd _ _).trans (Function.update_of_ne hd _ _)

/-- The container is closed before the dataset: it fails, and has lost its reference.  When the
dataset has been closed too, the container cannot be closed any more. -/
theorem run_not_respects : ∃ p₁ p₂ p₃ : Process ℤ ℤ,
    machine.EachCall Permits [] (sampleOps ++ [close, datasetClose, close])
      ∧ machine.run [] sampleOps = .ok p₁ ∧ p₁.map (·.container.refcount) = [1]
      ∧ p₁.step close = .ok (.error, p₂) ∧ p₂.map (·.container.refcount) = [0]
      ∧ p₂.step datasetClose = .ok (.success, p₃)
      ∧ p₃.step close = .error (.fault (.assertion .containerRefcount)) := by
  refine ⟨_, _, _, ?_, rfl, rfl, rfl, rfl, rfl, rfl⟩
  refine .cons_of_ok rfl trivial (.cons_of_ok rfl ⟨_, rfl, rfl⟩ (.cons_of_ok rfl ⟨_, rfl, rfl⟩ ?_))
  exact .cons_of_ok rfl ⟨_, rfl, rfl, Nat.one_pos⟩ ⟨⟨_, rfl, rfl⟩, nofun⟩

end Process

end Esdm
