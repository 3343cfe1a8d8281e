import Mathlib.Data.List.Induction
import Esdm.Container

/-!
# Names and deletions in a container

Datasets are found by the first match of their name.  So the names are keys as long as they are
distinct, and they can be printed as they are as long as they are valid.  `esdm_dataset_create` sees
to both, `esdm_dataset_rename` only to the one and `esdm_dataset_change_name` to neither
(`run_namesUsable_iff`).

A dataset that is deleted loses its fragment table, but neither its place in the container's list
nor the references to it (`datasetDelete_deletes_iff`).
-/

namespace Esdm

variable {V A : Type}

section Within

variable {α : Type} {x : Outcome α}

@[simp] theorem Outcome.within_ok (a : α) : Outcome.within (.ok a) = .ok a := rfl

@[simp] theorem Outcome.within_error (f : Fault) :
    (Outcome.within (.error f) : Except Failure α) = .error (.fault f) := rfl

@[simp] theorem Outcome.within_eq_ok {a : α} : x.within = .ok a ↔ x = .ok a := by
  cases x <;> simp

end Within

section Names

/-- The character stands for itself in a JSON string. -/
def PlainChar (c : Char) : Prop := c ≠ '"' ∧ c ≠ '\\' ∧ ' ' ≤ c

theorem plainChar_of_isNameChar {c : Char} (h : isNameChar c) : PlainChar c := by
  simp only [isNameChar, decide_eq_true_eq] at h
  refine ⟨?_, ?_, ?_⟩
  · rintro rfl
    revert h
    decide
  · rintro rfl
    revert h
    decide
  · rcases h with h | h | h | rfl | rfl | rfl
    · exact Char.le_trans (show ' ' ≤ 'a' by decide) h.1
    · exact Char.le_trans (show ' ' ≤ 'A' by decide) h.1
    · exact Char.le_trans (show ' ' ≤ '0' by decide) h.1
    all_goals decide

theorem plainChar_of_isValidFrom : ∀ {cs : List Char} {last : Option Char}, isValidFrom last cs →
    ∀ c ∈ cs, PlainChar c
  | ch :: cs, last, h, c, hc => by
    unfold isValidFrom at h
    split_ifs at h with hname hslash hlast
    · rcases List.mem_cons.1 hc with rfl | hc
      · exact plainChar_of_isNameChar hname
      · exact plainChar_of_isValidFrom h c hc
    · rcases List.mem_cons.1 hc with rfl | hc
      · rw [hslash]
        unfold PlainChar
        decide
      · exact plainChar_of_isValidFrom h c hc

theorem plainChar_of_isValidDatasetName {name : String} (h : isValidDatasetName name) :
    ∀ c ∈ name.toList, PlainChar c := by
  simp only [isValidDatasetName, decide_eq_true_eq] at h
  exact plainChar_of_isValidFrom h.2

end Names

namespace Dataset

variable {env : Env V} {ds ds' : Dataset V} {deleted : Hypercube → Status} {status : Status}

theorem destroyFragments_table : ∀ {entries : List (Hypercube × ℕ)} {ds : Dataset V},
    ds.destroyFragments entries = .ok ds' → ds'.table = ds.table
  | [], _, h => by
    cases h
    rfl
  | (_, r) :: entries, ds, h => by
    unfold destroyFragments at h
    obtain ⟨f, -, h⟩ := Outcome.bind_eq_ok.1 h
    obtain ⟨ds₁, hd, h⟩ := Outcome.bind_eq_ok.1 h
    obtain ⟨-, -, h⟩ := Outcome.bind_eq_ok.1 h
    unfold fragmentDestroy at hd
    obtain ⟨f', -, hd⟩ := Outcome.bind_eq_ok.1 hd
    cases hd
    exact (destroyFragments_table h).trans rfl

theorem deleteFragments_table : ∀ {entries : List (Hypercube × ℕ)} {ds : Dataset V},
    ds.deleteFragments deleted entries = .ok (.success, ds') → ds'.table = ds.table.diff entries
  | [], _, h => by
    cases h
    rfl
  | (shape, r) :: entries, ds, h => by
    unfold deleteFragments at h
    obtain ⟨f, -, h⟩ := Outcome.bind_eq_ok.1 h
    obtain ⟨-, -, h⟩ := Outcome.bind_eq_ok.1 h
    split_ifs at h with hs
    · obtain ⟨ds₁, hd, h⟩ := Outcome.bind_eq_ok.1 h
      rw [deleteFragments_table h, destroyFragments_table hd, List.diff_cons]
    · obtain ⟨⟨status, ds₁⟩, -, h⟩ := Outcome.bind_eq_ok.1 h
      exact absurd (congrArg Prod.fst (Except.ok.inj h)) hs

theorem diff_self {α : Type} [BEq α] [LawfulBEq α] : ∀ l : List α, l.diff l = []
  | [] => rfl
  | a :: l => by rw [List.diff_cons, List.erase_cons_head, diff_self l]

/-- If all fragments could be deleted, the table is empty. -/
theorem deleteAll_table (h : ds.deleteAll env deleted = .ok (.success, ds')) : ds'.table = [] := by
  rw [deleteFragments_table h, (env.order_perm ds.table).diff_left, diff_self]

theorem removeFragments_of_table (h : ds.table = []) : ds.removeFragments env = .ok ds := by
  have horder : env.order ds.table = [] := by
    have := env.order_perm ds.table
    rw [h] at this ⊢
    exact this.eq_nil
  unfold removeFragments
  rw [horder, destroyFragments, Outcome.ok_bind, Outcome.pure_eq, ← h]

end Dataset

namespace Container

variable {c c' : Container V A} {d : ℕ} {m m' : Member V A} {name : String}

section Lookup

/-- The names of the container's datasets. -/
def names (c : Container V A) : List String :=
  c.dsets.filterMap fun d => c.members[d]?.map Member.name

/-- All datasets that have been allocated are listed, and none has been destroyed. -/
structure Listed (c : Container V A) : Prop where
  dsets : c.dsets = List.range c.members.length
  alive : ∀ m ∈ c.members, m.freed = false

@[simp] theorem member_eq_ok : c.member d = .ok m ↔ c.members[d]? = some m ∧ m.freed = false := by
  unfold member
  rw [Except.bind_eq_ok]
  constructor
  · rintro ⟨m', hm, h⟩
    rw [Outcome.within_eq_ok, access_eq_ok] at hm
    split_ifs at h with hf
    cases h
    exact ⟨hm, by simpa using hf⟩
  · rintro ⟨hm, hf⟩
    exact ⟨m, by simp [hm], by simp [hf]⟩

theorem filterMap_range_getElem? {α β : Type} (f : α → β) (l : List α) :
    ((List.range l.length).filterMap fun i => l[i]?.map f) = l.map f := by
  induction l using List.reverseRecOn with
  | nil => rfl
  | append_singleton l a ih =>
    have h : ((List.range l.length).filterMap fun i => (l ++ [a])[i]?.map f)
        = (List.range l.length).filterMap fun i => l[i]?.map f :=
      List.filterMap_congr fun i hi => by rw [List.getElem?_append_left (List.mem_range.1 hi)]
    simp [List.range_succ, h, ih]

theorem Listed.names (h : Listed c) : c.names = c.members.map Member.name := by
  unfold Container.names
  rw [h.dsets, filterMap_range_getElem?]

theorem Listed.member (h : Listed c) (hd : d ∈ c.dsets) : ∃ m, c.member d = .ok m := by
  rw [h.dsets, List.mem_range] at hd
  exact ⟨c.members[d],
    member_eq_ok.2 ⟨List.getElem?_eq_getElem hd, h.alive _ (List.getElem_mem hd)⟩⟩

theorem findName_eq : ∀ {l : List ℕ}, (∀ d ∈ l, ∃ m, c.member d = .ok m) →
    c.findName name l = .ok (l.find? fun d => c.members[d]?.map Member.name = some name)
  | [], _ => rfl
  | d :: l, h => by
    obtain ⟨m, hm⟩ := h d (List.mem_cons_self ..)
    have ih := findName_eq fun d hd => h d (List.mem_cons_of_mem _ hd)
    unfold findName
    rw [hm, Except.ok_bind, List.find?_cons, (member_eq_ok.1 hm).1]
    by_cases hn : m.name = name
    · simp [hn]
    · simp [hn, ih]

theorem Listed.findName (h : Listed c) : c.findName name c.dsets
    = .ok (c.dsets.find? fun d => c.members[d]?.map Member.name = some name) :=
  findName_eq fun _ => h.member

theorem Listed.datasetExists (h : Listed c) :
    c.datasetExists name = .ok (decide (name ∈ c.names)) := by
  unfold Container.datasetExists
  rw [h.findName, Except.ok_bind, Except.pure_eq, Except.ok.injEq, Bool.eq_iff_iff,
    List.find?_isSome, decide_eq_true_eq]
  simp [Container.names]

/-- Among distinct names the first match is the only one. -/
theorem Listed.datasetByName (h : Listed c) (hnodup : c.names.Nodup) (hd : d ∈ c.dsets)
    (hm : c.members[d]? = some m) (hname : m.name ≠ "") :
    c.datasetByName m.name = .ok (.success, some d) := by
  have hfind : (c.dsets.find? fun d => c.members[d]?.map Member.name = some m.name) = some d := by
    cases hf : c.dsets.find? fun d => c.members[d]?.map Member.name = some m.name with
    | none => exact absurd (List.find?_eq_none.1 hf d hd) (by simp [hm])
    | some d' =>
      have hd' := List.find?_some hf
      have hlt : d' < (c.members.map Member.name).length := by
        simpa [h.dsets] using List.mem_of_find?_eq_some hf
      rw [h.names] at hnodup
      refine congrArg some ((List.getElem?_inj hlt hnodup).1 ?_)
      simpa [hm] using hd'
  unfold Container.datasetByName
  rw [if_neg hname, h.findName, Except.ok_bind, hfind]
  rfl

end Lookup

section Usable

/-- The names are keys: they are distinct and valid, the text that lists them is the JSON text it is
meant to be, and each of them leads back to its dataset. -/
structure NamesUsable (c : Container V A) : Prop where
  distinct : c.names.Nodup
  valid : ∀ name ∈ c.names, isValidDatasetName name
  plain : ∀ name ∈ c.names, ∀ ch ∈ name.toList, PlainChar ch
  resolves : ∀ d ∈ c.dsets, ∀ m, c.members[d]? = some m →
    c.datasetByName m.name = .ok (.success, some d)

theorem ne_empty_of_isValidDatasetName (h : isValidDatasetName name) : name ≠ "" := by
  simp only [isValidDatasetName, decide_eq_true_eq] at h
  exact h.1

theorem Listed.namesUsable_iff (h : Listed c) :
    NamesUsable c ↔ c.names.Nodup ∧ ∀ name ∈ c.names, isValidDatasetName name := by
  refine ⟨fun hc => ⟨hc.distinct, hc.valid⟩, fun ⟨hnodup, hvalid⟩ => ⟨hnodup, hvalid, ?_, ?_⟩⟩
  · exact fun name hname => plainChar_of_isValidDatasetName (hvalid name hname)
  · intro d hd m hm
    refine h.datasetByName hnodup hd hm (ne_empty_of_isValidDatasetName (hvalid _ ?_))
    rw [h.names]
    exact List.mem_map_of_mem (List.mem_of_getElem? hm)

end Usable

section Inversion

variable {env : Env V} {status : Status}

theorem datasetCreate_eq_ok {name id : String} {dataspace : Dataspace} {created : Status}
    (h : c.datasetCreate name dataspace created id = .ok (status, c')) :
    status ≠ .success ∧ c' = c
      ∨ status = .success ∧ isValidDatasetName name ∧ c.datasetExists name = .ok false
        ∧ c' = { c with
          members := c.members ++ [⟨.init dataspace id, name, 1, false, false⟩]
          dsets := c.dsets ++ [c.members.length], status := .dirty } := by
  unfold datasetCreate at h
  obtain ⟨_, -, h⟩ := Except.bind_eq_ok.1 h
  split at h
  · cases h
    exact .inl ⟨nofun, rfl⟩
  rename_i hvalid
  obtain ⟨found, hfound, h⟩ := Except.bind_eq_ok.1 h
  split_ifs at h with hexists hcreated
  · cases h
    exact .inl ⟨nofun, rfl⟩
  · cases h
    exact .inl ⟨hcreated, rfl⟩
  · cases h
    rw [Bool.not_eq_true] at hexists
    exact .inr ⟨rfl, by simpa using hvalid, hexists ▸ hfound, rfl⟩

theorem datasetRef_eq_ok {retrieved : Status} {description : Description V A}
    (h : c.datasetRef env d retrieved description = .ok (status, c')) :
    ∃ m, c.members[d]? = some m ∧ (
      (m.status ≠ .notLoaded ∧ status = .success
        ∧ c' = c.setMember d { m with refcount := m.refcount + 1 })
      ∨ (status ≠ .success ∧ c' = c)
      ∨ ∃ object marked, m.status = .notLoaded
        ∧ m.toDatasetObject.openMdParse env description = .ok (status, object, marked)
        ∧ c' = { c.setMember d { m with
          toDatasetObject := object
          refcount := if status = .success then m.refcount + 1 else m.refcount } with
            status := if marked then .dirty else c.status }) := by
  unfold datasetRef at h
  obtain ⟨m, hm, h⟩ := Except.bind_eq_ok.1 h
  refine ⟨m, (member_eq_ok.1 hm).1, ?_⟩
  split_ifs at h with hloaded hretrieved
  · cases h
    exact .inl ⟨hloaded, rfl, rfl⟩
  · cases h
    exact .inr (.inl ⟨hretrieved, rfl⟩)
  obtain ⟨_, -, h⟩ := Except.bind_eq_ok.1 h
  obtain ⟨⟨parsed, object, marked⟩, hparse, h⟩ := Except.bind_eq_ok.1 h
  rw [Outcome.within_eq_ok] at hparse
  dsimp only at h
  by_cases hsuccess : parsed = .success
  · rw [if_pos hsuccess] at h
    obtain ⟨rfl, rfl⟩ := Prod.mk.inj (Except.ok.inj h)
    exact .inr (.inr ⟨object, marked, not_not.1 hloaded, hparse, by rw [if_pos hsuccess]; rfl⟩)
  · rw [if_neg hsuccess] at h
    obtain ⟨rfl, rfl⟩ := Prod.mk.inj (Except.ok.inj h)
    exact .inr (.inr ⟨object, marked, not_not.1 hloaded, hparse, by rw [if_neg hsuccess]; rfl⟩)

theorem purge_eq_ok (hp : purge env d m = .ok m') :
    m.destructed = false ∧ ∃ ds, m.removeFragments env = .ok ds
      ∧ m' = { m with toDataset := ds } := by
  unfold purge at hp
  obtain ⟨_, hcheck, hp⟩ := Except.bind_eq_ok.1 hp
  obtain ⟨ds, hds, hp⟩ := Except.bind_eq_ok.1 hp
  cases hp
  refine ⟨?_, ds, Outcome.within_eq_ok.1 hds, rfl⟩
  unfold checkTable at hcheck
  split_ifs at hcheck with hd
  simpa using hd

theorem datasetClose_eq_ok (h : c.datasetClose env d = .ok (status, c')) :
    status = .success ∧ ∃ m, c.members[d]? = some m ∧ 0 < m.refcount ∧ (
      c' = c.setMember d { m with refcount := m.refcount - 1 }
      ∨ m.refcount - 1 = 0 ∧ ∃ ds,
        Dataset.removeFragments env { m.toDataset with status := .notLoaded } = .ok ds
          ∧ c' = c.setMember d
            { m with refcount := m.refcount - 1, attr := none, toDataset := ds }) := by
  unfold datasetClose at h
  obtain ⟨m, hm, h⟩ := Except.bind_eq_ok.1 h
  obtain ⟨_, -, h⟩ := Except.bind_eq_ok.1 h
  obtain ⟨_, hrefcount, h⟩ := Except.bind_eq_ok.1 h
  rw [Outcome.within_eq_ok, eassert_eq_ok] at hrefcount
  dsimp only at h
  split_ifs at h with hkept
  · cases h
    exact ⟨rfl, m, (member_eq_ok.1 hm).1, hrefcount, .inl rfl⟩
  · obtain ⟨m', hpurge, h⟩ := Except.bind_eq_ok.1 h
    cases h
    obtain ⟨-, ds, hds, rfl⟩ := purge_eq_ok hpurge
    have hzero : m.refcount - 1 = 0 := by tauto
    exact ⟨rfl, m, (member_eq_ok.1 hm).1, hrefcount, .inr ⟨hzero, ds, hds, rfl⟩⟩

end Inversion

section Effects

variable {env : Env V}

theorem Listed.setMember (h : Listed c) (hf : m'.freed = false) :
    Listed (c.setMember d m') ∧ (c.setMember d m').names = c.names.set d m'.name := by
  have hl : Listed (c.setMember d m') := by
    refine ⟨by simp [Container.setMember, h.dsets], fun x hx => ?_⟩
    rcases List.mem_or_eq_of_mem_set hx with hx | rfl
    · exact h.alive x hx
    · exact hf
  refine ⟨hl, ?_⟩
  rw [hl.names, h.names]
  simp [Container.setMember, List.map_set]

theorem names_set_self (h : Listed c) (hm : c.members[d]? = some m) :
    c.names.set d m.name = c.names := by
  rw [h.names]
  refine List.ext_getElem? fun i => ?_
  by_cases hi : d = i
  · subst hi
    obtain ⟨hd, rfl⟩ := List.getElem?_eq_some_iff.1 hm
    simp [hd]
  · simp [hi]

theorem Listed.mark (h : Listed c) (status : DataStatus) : Listed { c with status := status } :=
  ⟨h.dsets, h.alive⟩

/-- Another state of a dataset under the same name. -/
theorem Listed.setMember_same (h : Listed c) (hm : c.members[d]? = some m)
    (hname : m'.name = m.name) (hf : m'.freed = m.freed) :
    Listed (c.setMember d m') ∧ (c.setMember d m').names = c.names := by
  rw [← names_set_self h hm, ← hname]
  exact h.setMember (hf.trans (h.alive m (List.mem_of_getElem? hm)))

theorem Listed.datasetCreate (h : Listed c) {dataspace : Dataspace} {created status : Status}
    {id : String} (hc : c.datasetCreate name dataspace created id = .ok (status, c')) :
    Listed c' ∧ (c'.names = c.names
      ∨ isValidDatasetName name ∧ name ∉ c.names ∧ c'.names = c.names ++ [name]) := by
  obtain ⟨-, rfl⟩ | ⟨-, hvalid, hfound, rfl⟩ := datasetCreate_eq_ok hc
  · exact ⟨h, .inl rfl⟩
  have hl : Listed { c with
      members := c.members ++ [⟨.init dataspace id, name, 1, false, false⟩]
      dsets := c.dsets ++ [c.members.length], status := .dirty } := by
    refine ⟨by simp [h.dsets, List.range_succ], fun m hm => ?_⟩
    rcases List.mem_append.1 hm with hm | hm
    · exact h.alive m hm
    · rw [List.mem_singleton.1 hm]
  rw [h.datasetExists] at hfound
  refine ⟨hl, .inr ⟨hvalid, of_decide_eq_false (Except.ok.inj hfound), ?_⟩⟩
  rw [hl.names, h.names]
  simp

theorem Listed.datasetRename (h : Listed c) {status : Status}
    (hc : c.datasetRename d name = .ok (status, c')) :
    Listed c' ∧ (name ∈ c.names ∧ c'.names = c.names
      ∨ name ∉ c.names ∧ d < c.names.length ∧ c'.names = c.names.set d name) := by
  unfold Container.datasetRename at hc
  rw [h.datasetExists, Except.ok_bind] at hc
  split_ifs at hc with hmem
  · cases hc
    exact ⟨h, .inl ⟨by simpa using hmem, rfl⟩⟩
  · obtain ⟨m, hm, hc⟩ := Except.bind_eq_ok.1 hc
    rw [member_eq_ok] at hm
    cases hc
    obtain ⟨hl, hn⟩ := @Listed.setMember _ _ _ d { m with name := name } h hm.2
    refine ⟨hl.mark _, .inr ⟨by simpa using hmem, ?_, hn⟩⟩
    rw [h.names, List.length_map]
    exact (List.getElem?_eq_some_iff.1 hm.1).1

theorem Listed.datasetChangeName (h : Listed c) {status : Status}
    (hc : c.datasetChangeName d name = .ok (status, c')) :
    Listed c' ∧ d < c.names.length ∧ c'.names = c.names.set d name := by
  unfold Container.datasetChangeName at hc
  obtain ⟨m, hm, hc⟩ := Except.bind_eq_ok.1 hc
  rw [member_eq_ok] at hm
  cases hc
  obtain ⟨hl, hn⟩ := @Listed.setMember _ _ _ d { m with name := name, status := .dirty } h hm.2
  refine ⟨hl, ?_, hn⟩
  rw [h.names, List.length_map]
  exact (List.getElem?_eq_some_iff.1 hm.1).1

theorem Listed.datasetRef (h : Listed c) {retrieved status : Status}
    {description : Description V A}
    (hc : c.datasetRef env d retrieved description = .ok (status, c')) :
    Listed c' ∧ c'.names = c.names := by
  obtain ⟨m, hm, ⟨-, -, rfl⟩ | ⟨-, rfl⟩ | ⟨object, marked, -, -, rfl⟩⟩ := datasetRef_eq_ok hc
  · exact h.setMember_same hm rfl rfl
  · exact ⟨h, rfl⟩
  · exact (h.mark _).setMember_same hm rfl rfl

theorem Listed.datasetOpen (h : Listed c) {retrieved status : Status}
    {description : Description V A}
    (hc : c.datasetOpen env name retrieved description = .ok (status, c')) :
    Listed c' ∧ c'.names = c.names := by
  unfold Container.datasetOpen at hc
  obtain ⟨⟨found, d⟩, -, hc⟩ := Except.bind_eq_ok.1 hc
  split at hc
  · exact h.datasetRef hc
  · cases hc
    exact ⟨h, rfl⟩

theorem Listed.datasetClose (h : Listed c) {status : Status}
    (hc : c.datasetClose env d = .ok (status, c')) : Listed c' ∧ c'.names = c.names := by
  obtain ⟨-, m, hm, -, rfl | ⟨-, ds, -, rfl⟩⟩ := datasetClose_eq_ok hc
  · exact h.setMember_same hm rfl rfl
  · exact h.setMember_same hm rfl rfl

end Effects

section Runs

/-- The new name of a call leaves the names usable: a dataset gets a valid name, and
`esdm_dataset_change_name` does not give it the name of another one.  `esdm_dataset_rename` does
nothing if the name is in use. -/
def Admits (c : Container V A) : Op V A → Prop
  | .rename _ name => name ∈ c.names ∨ isValidDatasetName name
  | .changeName d name => isValidDatasetName name ∧ ∀ i, i ≠ d → c.names[i]? ≠ some name
  | _ => True

theorem nodup_set_iff {α : Type} {l : List α} (hl : l.Nodup) {i : ℕ} (hi : i < l.length) {a : α} :
    (l.set i a).Nodup ↔ ∀ j, j ≠ i → l[j]? ≠ some a := by
  have hset : (l.set i a)[i]? = some a := List.getElem?_set_self hi
  constructor
  · intro h j hj ha
    refine hj ((List.getElem?_inj ?_ h).1 ?_).symm
    · simpa using hi
    · rw [hset, List.getElem?_set_ne hj.symm, ha]
  · intro h
    rw [List.nodup_iff_getElem?_ne_getElem?] at hl ⊢
    intro j k hjk hk heq
    rw [List.length_set] at hk
    by_cases hj : i = j
    · subst hj
      rw [hset, List.getElem?_set_ne hjk.ne] at heq
      exact h k hjk.ne' heq.symm
    · by_cases hik : i = k
      · subst hik
        rw [hset, List.getElem?_set_ne hj] at heq
        exact h j (Ne.symm hj) heq
      · rw [List.getElem?_set_ne hj, List.getElem?_set_ne hik] at heq
        exact hl j k hjk hk heq

theorem valid_set_iff {l : List String} (hl : ∀ name ∈ l, isValidDatasetName name) {i : ℕ}
    (hi : i < l.length) :
    (∀ n ∈ l.set i name, isValidDatasetName n) ↔ isValidDatasetName name := by
  refine ⟨fun h => h name (List.mem_set hi name), fun h n hn => ?_⟩
  rcases List.mem_or_eq_of_mem_set hn with hn | rfl
  · exact hl n hn
  · exact h

theorem step_namesUsable_iff (h : Listed c) (hc : NamesUsable c) {call : Call V A}
    {r : Status × Container V A} (hr : c.step call = .ok r) :
    Listed r.2 ∧ (NamesUsable r.2 ↔ c.Admits call.op) := by
  obtain ⟨env, op⟩ := call
  obtain ⟨status, c'⟩ := r
  rw [h.namesUsable_iff] at hc
  cases op with
  | create name dataspace created id =>
    obtain ⟨h', hnames⟩ := h.datasetCreate hr
    refine ⟨h', iff_of_true (h'.namesUsable_iff.2 ?_) trivial⟩
    rcases hnames with hn | ⟨hvalid, hmem, hn⟩
    · rwa [hn]
    · rw [hn]
      refine ⟨List.nodup_append.2 ⟨hc.1, List.nodup_singleton _, ?_⟩, ?_⟩
      · rintro a ha b hb rfl
        exact hmem (List.mem_singleton.1 hb ▸ ha)
      · intro n hn
        rcases List.mem_append.1 hn with hn | hn
        · exact hc.2 n hn
        · rwa [List.mem_singleton.1 hn]
  | rename d name =>
    obtain ⟨h', hnames⟩ := h.datasetRename hr
    refine ⟨h', ?_⟩
    rw [h'.namesUsable_iff]
    rcases hnames with ⟨hmem, hn⟩ | ⟨hmem, hd, hn⟩
    · rw [hn]
      exact iff_of_true hc (.inl hmem)
    · rw [hn, nodup_set_iff hc.1 hd, valid_set_iff hc.2 hd]
      have hother : ∀ i, i ≠ d → c.names[i]? ≠ some name := fun i _ hi =>
        hmem (List.mem_of_getElem? hi)
      exact ⟨fun h => .inr h.2, fun h => ⟨hother, h.resolve_left hmem⟩⟩
  | changeName d name =>
    obtain ⟨h', hd, hn⟩ := h.datasetChangeName hr
    refine ⟨h', ?_⟩
    rw [h'.namesUsable_iff, hn, nodup_set_iff hc.1 hd, valid_set_iff hc.2 hd]
    exact and_comm
  | «open» name retrieved description =>
    obtain ⟨h', hn⟩ := h.datasetOpen hr
    exact ⟨h', iff_of_true (h'.namesUsable_iff.2 (by rwa [hn])) trivial⟩
  | close d =>
    obtain ⟨h', hn⟩ := h.datasetClose hr
    exact ⟨h', iff_of_true (h'.namesUsable_iff.2 (by rwa [hn])) trivial⟩

theorem init_namesUsable : Listed (init : Container V A) ∧ NamesUsable (init : Container V A) := by
  have h : Listed (init : Container V A) := ⟨rfl, by simp [init]⟩
  exact ⟨h, h.namesUsable_iff.2 (by simp [names, init])⟩

/-- After every call of a run that starts with a new container the names are usable, exactly if
every call that names a dataset gives it a name that leaves them so. -/
theorem run_namesUsable_iff (calls : List (Call V A)) :
    machine.EachStep (fun _ _ r => NamesUsable r.2) init calls
      ↔ machine.EachStep (fun c call _ => c.Admits call.op) init calls := by
  constructor
  · refine Machine.EachStep.of_invariant (I := fun c => Listed c ∧ NamesUsable c)
      (fun hI hused hr => ?_) init_namesUsable
    obtain ⟨hl, hiff⟩ := step_namesUsable_iff hI.1 hI.2 hr
    exact ⟨⟨hl, hused⟩, hiff.1 hused⟩
  · refine Machine.EachStep.of_invariant (I := fun c => Listed c ∧ NamesUsable c)
      (fun hI hadmits hr => ?_) init_namesUsable
    obtain ⟨hl, hiff⟩ := step_namesUsable_iff hI.1 hI.2 hr
    exact ⟨⟨hl, hiff.2 hadmits⟩, hiff.2 hadmits⟩

/-- A second dataset takes the name of the first one, and then no name leads to it. -/
theorem run_not_namesUsable : ∃ c : Container ℤ ℤ,
    machine.run init [⟨Env.calm 0, .create "a" (.createFull [] (.basic .int64)) .success "0"⟩,
        ⟨Env.calm 0, .create "b" (.createFull [] (.basic .int64)) .success "1"⟩,
        ⟨Env.calm 0, .changeName 1 "a"⟩] = .ok c
      ∧ c.datasetByName "a" = .ok (.success, some 0)
      ∧ c.datasetByName "b" = .ok (.error, none)
      ∧ ¬ NamesUsable c := by
  refine ⟨_, rfl, rfl, rfl, fun h => ?_⟩
  have := h.distinct
  revert this
  decide

end Runs

section Deletion

variable {env : Env V} {answers : Deletion V A}

/-- A dataset that the container lists and the user holds, with its data loaded. -/
structure IsLoaded (c : Container V A) (d : ℕ) (m : Member V A) : Prop where
  member : c.member d = .ok m
  listed : d ∈ c.dsets
  loaded : m.status ≠ .notLoaded
  notDeleted : m.status ≠ .deleted
  table : m.destructed = false
  referenced : 1 ≤ m.refcount

/-- What the end of a deletion is meant to be: nothing in the container refers to the dataset, and
however its use is ended, its table is not used any more. -/
structure Deletes (d : ℕ) (m : Member V A) (r : Except Failure (Status × Container V A)) :
    Prop where
  safe : r ≠ .error (.destructedTable d)
  unlisted : ∀ c, r = .ok (.success, c) → d ∉ c.dsets ∧ c.datasetExists m.name = .ok false
    ∧ ∀ list, c.references c.dsets = .ok list → (m.name, m.id) ∉ list
  safeAfter : ∀ c, r = .ok (.success, c) → ∀ calls,
    endings.run c calls ≠ .error (.destructedTable d)

theorem member_setMember (h : c.member d = .ok m) (hf : m'.freed = false) :
    (c.setMember d m').member d = .ok m' := by
  obtain ⟨hd, -⟩ := List.getElem?_eq_some_iff.1 (member_eq_ok.1 h).1
  exact member_eq_ok.2 ⟨List.getElem?_set_self hd, hf⟩

/-- The last close of a dataset that has been deleted hands its table to GLib once more. -/
theorem datasetClose_of_destructed (h : c.member d = .ok m) (hs : m.status = .deleted)
    (ht : m.destructed = true) (hr : m.refcount = 1) :
    c.datasetClose env d = .error (.destructedTable d) := by
  unfold datasetClose
  simp [h, hs, hr, purge, checkTable, ht, eassert]

theorem datasetClose_of_referenced (h : c.member d = .ok m) (hs : m.status ≠ .notLoaded)
    (hr : 2 ≤ m.refcount) :
    c.datasetClose env d = .ok (.success, c.setMember d { m with refcount := m.refcount - 1 }) := by
  have hpos : 0 < m.refcount := by omega
  have hne : m.refcount - 1 ≠ 0 := by omega
  unfold datasetClose
  simp [h, hs, hpos, hne, eassert]

theorem destruct_of_table (ht : m.destructed = false) (h : m.table = []) :
    destruct env d m = .ok { m with destructed := true } := by
  simp [destruct, purge, checkTable, ht, Dataset.removeFragments_of_table h]

theorem IsLoaded.datasetDelete (h : IsLoaded c d m) : c.datasetDelete env d answers
    = (m.deleteAll env answers.deleted).within >>= fun r =>
      if r.1 ≠ .success then .ok (r.1, c.setMember d { m with toDataset := r.2 })
      else
        destruct env d { m with toDataset := r.2 } >>= fun m =>
          (c.setMember d { m with status := .deleted }).datasetClose env d >>= fun r =>
            .ok (answers.removed, r.2) := by
  have hcheck : checkTable d m = .ok () := by simp [checkTable, h.table]
  unfold Container.datasetDelete
  rw [h.member, Except.ok_bind, eassert_of h.notDeleted, Outcome.within_ok, Except.ok_bind,
    if_neg h.loaded]
  unfold deleteLoaded
  rw [h.member, Except.ok_bind, hcheck, Except.ok_bind]
  rfl

theorem IsLoaded.deletes_of_fails (h : IsLoaded c d m)
    (hfail : ∀ ds, m.deleteAll env answers.deleted ≠ .ok (.success, ds)) :
    Deletes d m (c.datasetDelete env d answers) := by
  rw [h.datasetDelete]
  cases hd : m.deleteAll env answers.deleted with
  | error f => exact ⟨by simp, by simp, by simp⟩
  | ok r =>
    obtain ⟨status, ds⟩ := r
    have hs : status ≠ .success := by
      rintro rfl
      exact hfail ds hd
    simp only [Outcome.within_ok, Except.ok_bind, hs, ne_eq, not_false_eq_true, if_true]
    exact ⟨by simp, by simp [hs], by simp [hs]⟩

/-- The rest of a deletion, once all fragments are deleted. -/
theorem IsLoaded.datasetDelete_of_success (h : IsLoaded c d m) {ds : Dataset V}
    (hds : m.deleteAll env answers.deleted = .ok (.success, ds)) :
    c.datasetDelete env d answers
      = (c.setMember d { m with
          toDataset := { ds with status := .deleted }, destructed := true }).datasetClose env d >>=
        fun r => .ok (answers.removed, r.2) := by
  have hdestruct := @destruct_of_table V A d { m with toDataset := ds } env h.table
    (Dataset.deleteAll_table hds)
  rw [h.datasetDelete, hds, Outcome.within_ok, Except.ok_bind]
  simp only [ne_eq, not_true_eq_false, if_false, hdestruct, Except.ok_bind]

/-- A deletion is complete and safe exactly if it does not take place, or the metadata backend fails
and the user has another reference: it does not take the dataset off the list of the container, and
with the last reference it uses the table that it has just destructed. -/
theorem datasetDelete_deletes_iff (h : IsLoaded c d m) (env : Env V) (answers : Deletion V A) :
    Deletes d m (c.datasetDelete env d answers)
      ↔ (∀ ds, m.deleteAll env answers.deleted ≠ .ok (.success, ds))
        ∨ answers.removed ≠ .success ∧ 2 ≤ m.refcount := by
  by_cases hfail : ∀ ds, m.deleteAll env answers.deleted ≠ .ok (.success, ds)
  · exact iff_of_true (h.deletes_of_fails hfail) (.inl hfail)
  obtain ⟨ds, hds⟩ : ∃ ds, m.deleteAll env answers.deleted = .ok (.success, ds) := by
    simpa using hfail
  have hfreed := (member_eq_ok.1 h.member).2
  have hmember := @member_setMember V A c d m { m with
    toDataset := { ds with status := .deleted }, destructed := true } h.member hfreed
  rw [h.datasetDelete_of_success hds]
  by_cases href : 2 ≤ m.refcount
  · rw [datasetClose_of_referenced hmember (by simp) href, Except.ok_bind]
    constructor
    · intro hdel
      refine .inr ⟨fun hremoved => ?_, href⟩
      have hlist := (hdel.unlisted _ (by rw [hremoved])).1
      exact hlist h.listed
    · rintro (hnone | ⟨hremoved, -⟩)
      · exact absurd hnone hfail
      · exact ⟨by simp, by simp [hremoved], by simp [hremoved]⟩
  · have hone : m.refcount = 1 := by
      have := h.referenced
      omega
    rw [datasetClose_of_destructed hmember rfl rfl hone, Except.error_bind]
    refine iff_of_false (fun hdel => hdel.safe rfl) ?_
    rintro (hnone | ⟨-, h2⟩)
    · exact hfail hnone
    · exact href h2

/-- The metadata of a dataset is never asked for here. -/
def deletion (removed : Status) : Deletion ℤ ℤ where
  retrieved := .error
  description := ⟨[], none, .basic .int64, .null⟩
  deleted := fun _ => .success
  removed := removed

/-- A container with one dataset, which has no fragments and two references. -/
def shared : Container ℤ ℤ where
  status := .dirty
  refcount := 1
  members := [⟨.init (.createFull [] (.basic .int64)) "0", "a", 2, false, false⟩]
  dsets := [0]
  freed := false

theorem datasetDelete_deletes_iff_shared : ∃ m, IsLoaded shared 0 m
    ∧ Deletes 0 m (shared.datasetDelete (Env.calm 0) 0 (deletion .error)) := by
  have h : IsLoaded shared 0 ⟨.init (.createFull [] (.basic .int64)) "0", "a", 2, false, false⟩ :=
    ⟨rfl, by decide, by decide, by decide, rfl, by decide⟩
  exact ⟨_, h, (datasetDelete_deletes_iff h (Env.calm 0) (deletion .error)).2
    (.inr ⟨by decide, by decide⟩)⟩

/-- The dataset is created and opened once more, and deleted with success: it still exists, and the
last close uses its table.  With one reference the deletion does so itself. -/
theorem datasetDelete_not_deletes : ∃ c c' : Container ℤ ℤ,
    machine.run init [⟨Env.calm 0, .create "a" (.createFull [] (.basic .int64)) .success "0"⟩,
        ⟨Env.calm 0, .open "a" .error ⟨[], none, .basic .int64, .null⟩⟩] = .ok c
      ∧ c.datasetDelete (Env.calm 0) 0 (deletion .success) = .ok (.success, c')
      ∧ c'.datasetExists "a" = .ok true
      ∧ endings.run c' [(Env.calm 0, .datasetClose 0)] = .error (.destructedTable 0)
      ∧ (machine.run init
          [⟨Env.calm 0, .create "a" (.createFull [] (.basic .int64)) .success "0"⟩] >>=
        fun c : Container ℤ ℤ => c.datasetDelete (Env.calm 0) 0 (deletion .success))
          = .error (.destructedTable 0) :=
  ⟨_, _, rfl, rfl, rfl, rfl, rfl⟩

end Deletion

end Container

end Esdm
