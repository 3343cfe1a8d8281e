import Esdm.DimNames

/-!
# The names of the dimensions

`esdm_dataset_rename_dim` computes on the memory what the model of the description says
(`renameDim_represents`).  When the new name is not valid, the pointer to it stays in the array: the
call is all or nothing for valid names only (`renameDim_atomic_iff`).
-/

namespace Esdm

section Memory

variable {heap : Heap NameBlock} {b i : ℕ} {block block' : NameBlock}

/-- A write to the pointers of a block leaves all strings. -/
theorem readString_set (hb : heap.get? b = some block) (hstrs : block'.strs = block.strs)
    (p : StrPtr) : readString (heap.set b block') p = readString heap p := by
  unfold readString
  by_cases hp : b = p.block
  · rw [← hp, Heap.get?_set_self hb, hb, Option.bind_some, Option.bind_some, hstrs]
  · rw [Heap.get?_set_of_ne hp]

theorem readPtr_set (hb : heap.get? b = some block) :
    readPtr (heap.set b block') b i = block'.ptrs[i]? := by
  rw [readPtr, Heap.get?_set_self hb, Option.bind_some]

theorem validNames_map_some (names : List String) : validNames (names.map some)
    = .ok (if ∀ name ∈ names, isValidDatasetName name then some names else none) := by
  induction names with
  | nil => rfl
  | cons name names ih =>
    rw [List.map_cons, validNames, access_some, Outcome.ok_bind, ih]
    by_cases hname : isValidDatasetName name
    · simp only [hname, if_true, Outcome.ok_bind, List.forall_mem_cons, true_and]
      split_ifs
      · rfl
      · rfl
    · simp [hname]

end Memory

namespace NamedDataset

variable {V A : Type} {d : NamedDataset V} {o : DatasetObject V A} {old : List String}
  {name : StrPtr} {string : String} {i b : ℕ} {block : NameBlock}

/-- The pointer that the array has for a dimension. -/
def ptrAt (d : NamedDataset V) (i : ℕ) : Option StrPtr :=
  d.dimsDsetId >>= fun names => readPtr d.heap names i

/-- What is read as the names of the dimensions, `none` where a pointer points nowhere. -/
def names (d : NamedDataset V) : List (Option String) :=
  (List.range d.dims).map fun i => d.ptrAt i >>= readString d.heap

theorem names_eq_map_iff : d.names = old.map some
    ↔ old.length = d.dims ∧ ∀ i < d.dims, (d.ptrAt i >>= readString d.heap) = old[i]? := by
  constructor
  · intro h
    have hlen : old.length = d.dims := by simpa [names] using congrArg List.length h.symm
    refine ⟨hlen, fun i hi => ?_⟩
    have hget := congrArg (·[i]?) h
    simpa [names, hi, hlen] using hget
  · rintro ⟨hlen, hall⟩
    apply List.ext_getElem
    · simp [names, hlen]
    · intro i hi hi'
      have hi : i < d.dims := by simpa [names] using hi
      simpa [names] using (hall i hi).trans (List.getElem?_eq_getElem (hlen ▸ hi))

/-- The array that holds the names of a dataset whose dimensions have been named. -/
theorem exists_block (hnames : d.names = old.map some) (hi : i < d.dims) :
    ∃ b block, d.dimsDsetId = some b ∧ d.heap.get? b = some block ∧ i < block.ptrs.length := by
  obtain ⟨hlen, hall⟩ := names_eq_map_iff.1 hnames
  have hget := (hall i hi).trans (List.getElem?_eq_getElem (hlen ▸ hi))
  obtain ⟨p, hp, -⟩ := Option.bind_eq_some_iff.1 hget
  obtain ⟨b, hb, hp⟩ := Option.bind_eq_some_iff.1 hp
  obtain ⟨block, hblock, hp⟩ := Option.bind_eq_some_iff.1 hp
  exact ⟨b, block, hb, hblock, (List.getElem?_eq_some_iff.1 hp).1⟩

section Pointed

/-- The dataset with the caller's pointer in its array. -/
def pointed (d : NamedDataset V) (b : ℕ) (block : NameBlock) (name : StrPtr) (i : ℕ) :
    NamedDataset V :=
  { d with heap := d.heap.set b { block with ptrs := block.ptrs.set i name } }

theorem get?_pointed (hb : d.heap.get? b = some block) :
    (d.pointed b block name i).heap.get? b
      = some { block with ptrs := block.ptrs.set i name } :=
  Heap.get?_set_self hb

theorem ptrAt_pointed (hd : d.dimsDsetId = some b) (hb : d.heap.get? b = some block) (j : ℕ) :
    (d.pointed b block name i).ptrAt j = (block.ptrs.set i name)[j]? := by
  unfold ptrAt pointed
  rw [hd]
  exact readPtr_set hb

theorem names_pointed (hd : d.dimsDsetId = some b) (hb : d.heap.get? b = some block)
    (hi : i < block.ptrs.length) (hnames : d.names = old.map some)
    (hname : readString d.heap name = some string) :
    (d.pointed b block name i).names = (old.set i string).map some := by
  obtain ⟨hlen, hall⟩ := names_eq_map_iff.1 hnames
  have hread : readString (d.pointed b block name i).heap = readString d.heap :=
    funext (@readString_set d.heap b block { block with ptrs := block.ptrs.set i name } hb rfl)
  have hold : ∀ j, d.ptrAt j = block.ptrs[j]? := fun j => by simp [ptrAt, readPtr, hd, hb]
  refine names_eq_map_iff.2 ⟨by rwa [List.length_set], fun j hj => ?_⟩
  have hj : j < d.dims := hj
  rw [ptrAt_pointed hd hb, hread]
  by_cases hij : i = j
  · subst hij
    rw [List.getElem?_set_self hi, List.getElem?_set_self (hlen ▸ hj)]
    exact hname
  · rw [List.getElem?_set_ne hij, List.getElem?_set_ne hij, ← hold, hall j hj]

end Pointed

section Owning

/-- The dataset with a block of its own for the given names. -/
def owning (d : NamedDataset V) (b : ℕ) (names : List String) : NamedDataset V :=
  { d with
    heap := (d.heap.alloc (ownBlock d.heap names)).free b
    dimsDsetId := some d.heap.fresh
    status := .dirty }

variable {names : List String}

theorem get?_owning (hb : d.heap.get? b = some block) :
    (d.owning b names).heap.get? d.heap.fresh = some (ownBlock d.heap names) := by
  have hne : b ≠ d.heap.fresh := (Heap.lt_fresh hb).ne
  exact (Heap.get?_free_of_ne hne).trans Heap.get?_alloc_fresh

theorem ptrAt_owning (hb : d.heap.get? b = some block) (hi : i < names.length) :
    (d.owning b names).ptrAt i = some ⟨d.heap.fresh, i⟩ := by
  have hread : (d.owning b names).ptrAt i = (ownBlock d.heap names).ptrs[i]? := by
    change readPtr (d.owning b names).heap d.heap.fresh i = _
    rw [readPtr, get?_owning hb, Option.bind_some]
  rw [hread]
  simp [ownBlock, hi]

theorem names_owning (hb : d.heap.get? b = some block) (hlen : names.length = d.dims) :
    (d.owning b names).names = names.map some := by
  refine names_eq_map_iff.2 ⟨hlen, fun j hj => ?_⟩
  have hj : j < names.length := hlen ▸ hj
  rw [ptrAt_owning hb hj]
  change readString (d.owning b names).heap ⟨d.heap.fresh, j⟩ = _
  rw [readString, get?_owning hb, Option.bind_some]
  rfl

theorem nameDims_eq (hd : d.dimsDsetId = some b) (hb : d.heap.get? b = some block)
    (hnames : d.names = names.map some) : d.nameDims b
      = .ok (if ∀ name ∈ names, isValidDatasetName name then (.success, d.owning b names)
          else (.error, d)) := by
  have hread : (List.range d.dims).map (fun i => readPtr d.heap b i >>= readString d.heap)
      = names.map some := by
    rw [← hnames, NamedDataset.names]
    unfold ptrAt
    rw [hd]
    rfl
  have hfree : freeBlock (d.heap.alloc (ownBlock d.heap names)) b
      = .ok ((d.heap.alloc (ownBlock d.heap names)).free b) := by
    rw [freeBlock, Heap.get?_alloc_of_some hb]
    rfl
  unfold nameDims
  dsimp only
  rw [hread, validNames_map_some, Outcome.ok_bind]
  split_ifs with hvalid
  · dsimp only
    rw [hd]
    dsimp only
    rw [hfree]
    rfl
  · rfl

end Owning

/-- What `esdm_dataset_rename_dim` leaves behind. -/
theorem renameDim_eq (hd : d.dimsDsetId = some b) (hb : d.heap.get? b = some block)
    (hi : i < d.dims) (hptr : i < block.ptrs.length) (hnames : d.names = old.map some)
    (hname : readString d.heap name = some string) : d.renameDim name i
      = .ok (if ∀ name ∈ old.set i string, isValidDatasetName name then
          (.success, (d.pointed b block name i).owning b (old.set i string))
        else (.error, d.pointed b block name i)) := by
  have hset := names_pointed hd hb hptr hnames hname
  unfold renameDim
  rw [eassert_of hi, Outcome.ok_bind]
  refine (congrArg (access · >>= _) hd).trans ?_
  rw [access_some, Outcome.ok_bind, hb, access_some, Outcome.ok_bind,
    List.getElem?_eq_getElem hptr, access_some, Outcome.ok_bind]
  exact nameDims_eq (d := d.pointed b block name i) hd (get?_pointed hb) hset

section Represents

/-- The names that the description has are those that are in the memory. -/
structure Represents (d : NamedDataset V) (o : DatasetObject V A) : Prop where
  dataset : d.toDataset = o.toDataset
  names : ∀ old, o.dimNames = some old → d.names = old.map some

theorem objectRenameDim_eq (hnames : o.dimNames = some old) (hlen : old.length = o.dims)
    (hi : i < o.dims) : o.renameDim string i
      = .ok (if ∀ name ∈ old.set i string, isValidDatasetName name then
          (.success, { o with dimNames := some (old.set i string), status := .dirty })
        else (.error, { o with dimNames := some (old.set i string) })) := by
  have hread : (List.range o.dims).map (fun j => ((old.set i string).map some)[j]?.join)
      = (old.set i string).map some := by
    apply List.ext_getElem
    · simp [hlen]
    · intro j hj hj'
      rw [List.getElem_map, List.getElem_range, List.getElem?_eq_getElem hj']
      simp
  unfold DatasetObject.renameDim
  rw [eassert_of hi, Outcome.ok_bind, hnames, access_some, Outcome.ok_bind]
  unfold DatasetObject.nameDims
  refine (congrArg (validNames · >>= _) hread).trans ?_
  rw [validNames_map_some, Outcome.ok_bind]
  split_ifs
  · rfl
  · rfl

/-- Renaming a dimension in memory does what it does in the model of the description. -/
theorem renameDim_represents (h : d.Represents o) (hnames : o.dimNames = some old)
    (hi : i < d.dims) (hname : readString d.heap name = some string) :
    ∃ status d' o', d.renameDim name i = .ok (status, d')
      ∧ o.renameDim string i = .ok (status, o') ∧ d'.Represents o' := by
  have hold := h.names old hnames
  obtain ⟨b, block, hd, hb, hptr⟩ := exists_block hold hi
  have hlen : old.length = d.dims := (names_eq_map_iff.1 hold).1
  have hdims : d.dims = o.dims := congrArg Dataset.dims h.dataset
  have hmemory := renameDim_eq hd hb hi hptr hold hname
  have hobject := @objectRenameDim_eq V A o old string i hnames (hlen.trans hdims) (hdims ▸ hi)
  split_ifs at hmemory hobject with hvalid
  · have hdataset : ((d.pointed b block name i).owning b (old.set i string)).toDataset
        = { o.toDataset with status := .dirty } :=
      congrArg (fun d : Dataset V => { d with status := .dirty }) h.dataset
    refine ⟨_, _, _, hmemory, hobject, hdataset, ?_⟩
    intro new hnew
    obtain rfl := Option.some.inj hnew
    exact names_owning (get?_pointed hb) ((List.length_set ..).trans hlen)
  · refine ⟨_, _, _, hmemory, hobject, h.dataset, ?_⟩
    intro new hnew
    obtain rfl := Option.some.inj hnew
    exact names_pointed hd hb hptr hold hname

end Represents

section Atomic

/-- Renaming a dimension is all or nothing: after a success the array has a copy of the string in
memory that was not allocated before, and otherwise the names of before; if the string is not a
name, the names are those of before and none of them is the caller's. -/
def RenameAtomic (d : NamedDataset V) (name : StrPtr) (string : String) (i : ℕ) : Prop :=
  ∃ status d', d.renameDim name i = .ok (status, d')
    ∧ (status = .success → d'.names = d.names.set i (some string)
      ∧ ∃ p, d'.ptrAt i = some p ∧ d'.dimsDsetId = some p.block ∧ d.heap.get? p.block = none)
    ∧ (status = .error → isValidDatasetName string = false →
      d'.names = d.names ∧ ∀ j, d'.ptrAt j ≠ some name)

/-- For every dataset whose dimensions have been named, every dimension and every string, the call
is all or nothing exactly if the string is a valid name. -/
theorem renameDim_atomic_iff (hnames : d.names = old.map some) (hi : i < d.dims)
    (hname : readString d.heap name = some string) :
    RenameAtomic d name string i ↔ isValidDatasetName string := by
  obtain ⟨b, block, hd, hb, hptr⟩ := exists_block hnames hi
  have hlen : old.length = d.dims := (names_eq_map_iff.1 hnames).1
  have hrename := renameDim_eq hd hb hi hptr hnames hname
  constructor
  · rintro ⟨status, d', hd', -, herror⟩
    by_contra hvalid
    have hall : ¬∀ name ∈ old.set i string, isValidDatasetName name := fun hall =>
      hvalid (hall string (List.mem_set (hlen ▸ hi) string))
    rw [hrename, if_neg hall] at hd'
    obtain ⟨rfl, rfl⟩ := Prod.mk.inj (Except.ok.inj hd')
    refine (herror rfl (Bool.eq_false_iff.2 hvalid)).2 i ?_
    rw [ptrAt_pointed hd hb, List.getElem?_set_self hptr]
  · intro hvalid
    by_cases hall : ∀ name ∈ old.set i string, isValidDatasetName name
    · rw [if_pos hall] at hrename
      have hb' := @get?_pointed V d name i b block hb
      have hlen' : (old.set i string).length = d.dims := by rw [List.length_set, hlen]
      have hfresh : (d.pointed b block name i).heap.fresh = d.heap.fresh := Heap.fresh_set
      refine ⟨_, _, hrename, fun _ => ⟨?_, ⟨d.heap.fresh, i⟩, ?_, ?_, ?_⟩, nofun⟩
      · rw [names_owning hb' hlen', hnames, List.map_set]
      · rw [ptrAt_owning hb' (hlen' ▸ hi), hfresh]
      · exact congrArg some hfresh
      · exact Heap.get?_fresh
    · rw [if_neg hall] at hrename
      exact ⟨_, _, hrename, nofun, fun _ hinvalid => by simp [hvalid] at hinvalid⟩

/-- Two named dimensions, and a block of the caller with a name that is valid and one that is not.
-/
def sample : NamedDataset ℕ where
  toDataset := .init (.createFull [⟨0, 2⟩, ⟨0, 3⟩] (.basic .int64)) none
  heap := ⟨[some ⟨[], ["lon", "a b"]⟩, some ⟨[⟨1, 0⟩, ⟨1, 1⟩], ["time", "lat"]⟩]⟩
  dimsDsetId := some 1

theorem renameDim_atomic_iff_lon : RenameAtomic sample ⟨0, 0⟩ "lon" 1 :=
  (@renameDim_atomic_iff ℕ sample ["time", "lat"] _ _ _ rfl (by decide) rfl).2 (by decide)

/-- The call fails, and has put the caller's string among the names; when the caller frees it, the
pointer in the array is invalid. -/
theorem renameDim_not_atomic : ∃ d', sample.renameDim ⟨0, 1⟩ 0 = .ok (.error, d')
    ∧ sample.names = [some "time", some "lat"] ∧ d'.names = [some "a b", some "lat"]
    ∧ d'.ptrAt 0 = some ⟨0, 1⟩
    ∧ ({ d' with heap := d'.heap.free 0 } : NamedDataset ℕ).names = [none, some "lat"] := by
  refine ⟨_, rfl, ?_⟩
  decide

end Atomic

end NamedDataset

end Esdm
