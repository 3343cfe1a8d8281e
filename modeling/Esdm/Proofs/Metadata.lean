import Esdm.Proofs.Accounting

/-!
# Fragments and their descriptions

What a fragment's description says is what the fragment has, except for the element type, which is
the dataset's (`parse_metadataCreate`).  So a fragment survives in its description if it has the
dataset's type, as all fragments of a run have whose memspaces do (`run_typeInv`).
-/

namespace Esdm

variable {V : Type}

namespace Dataspace

theorem createFromJson_serialize {dataspace space : Dataspace} (h : space.dims = dataspace.dims) :
    dataspace.createFromJson space.serialize = some { space with type := dataspace.type } := by
  have hdim : List.zipWith (fun o s => (⟨o, s⟩ : Dim)) (space.dim.map Dim.offset)
      (space.dim.map Dim.size) = space.dim := by
    rw [List.zipWith_map, List.zipWith_self]
    exact List.map_id _
  obtain ⟨type, dim, stride, hstride⟩ := space
  dsimp only at hdim
  have hl : dim.length = dataspace.dims := h
  rcases stride with _ | stride
  · simp [createFromJson, serialize, hdim, hl]
  · have hs : stride.length = dim.length := hstride stride rfl
    simp [createFromJson, serialize, hdim, hl, hs]

end Dataspace

namespace Fragment

variable {env : Env V} {f f' : Fragment V}

/-- What a fragment's description says. -/
theorem metadataCreate_eq_ok {json : Json} (h : f.metadataCreate = .ok json) :
    ∃ id b, f.id = some id ∧ f.backend = some b
      ∧ json = .obj [("id", .str id), ("pid", .str b.id), ("act-size", .int f.actualBytes),
        ("space", f.dataspace.serialize)] := by
  unfold metadataCreate at h
  obtain ⟨b, hb, h⟩ := Outcome.bind_eq_ok.1 h
  split at h
  · cases h
  · rename_i id hid
    exact ⟨id, b, hid, access_eq_ok.1 hb, (Except.ok.inj h).symm⟩

theorem exists_metadataCreate {id : String} {b : Backend} (hid : f.id = some id)
    (hb : f.backend = some b) : ∃ json, f.metadataCreate = .ok json := by
  simp [metadataCreate, hb, hid]

theorem parse_metadataCreate {dataspace : Dataspace} (hd : f.dataspace.dims = dataspace.dims)
    {json : Json} (h : f.metadataCreate = .ok json) :
    ∃ id b, f.id = some id ∧ f.backend = some b
      ∧ FragmentDescription.parse dataspace json
        = some ⟨id, b.id, f.actualBytes, { f.dataspace with type := dataspace.type }⟩ := by
  obtain ⟨id, b, hid, hb, rfl⟩ := metadataCreate_eq_ok h
  refine ⟨id, b, hid, hb, ?_⟩
  simp [FragmentDescription.parse, Dataspace.createFromJson_serialize hd]

/-- The value that a backend has stored for a point of the fragment: the data is stored without
gaps. -/
def storedValue (f : Fragment V) (p : List ℤ) : Option V :=
  f.stored.map fun data =>
    data (Dataspace.linearIndex f.dataspace.dim (Dataspace.contiguousStride f.dataspace.dim) p)

/-- The fragment means what another one does. -/
structure SameContent (f f' : Fragment V) : Prop where
  type : f'.dataspace.type = f.dataspace.type
  bytes : f'.bytes = f.bytes
  value : ∀ p, f'.storedValue p = f.storedValue p

/-- The backends hold under the fragment's id what has been stored. -/
def Faithful (env : Env V) (f : Fragment V) : Prop :=
  ∀ id, f.id = some id → f.stored = some (env.storage id)

end Fragment

namespace Dataset

variable {ds ds' : Dataset V} {env : Env V} {T : ElemType} {P : Dataspace → Prop}
  {S : Axis → Axis → Prop}

/-- The fragments of the table have the dataset's type, and what is made from the description of
such a fragment means the same. -/
structure TypeInv (ds : Dataset V) : Prop where
  type : ∀ e ∈ ds.table, ∀ f, ds.fragment e.2 = .ok f → f.dataspace.type = ds.dataspace.type
  reopen : ∀ e ∈ ds.table, ∀ f, ds.fragment e.2 = .ok f → ∀ env json, f.Faithful env →
    f.metadataCreate = .ok json → ∃ d, FragmentDescription.parse ds.dataspace json = some d
      ∧ ∀ b, f.SameContent (d.fragment env b)

/-- The element type of a fragment, and its size in bytes. -/
def Typed (T : ElemType) (f : Fragment V) : Prop :=
  f.dataspace.type = T ∧ f.bytes = f.dataspace.totalBytes

theorem Typed.keeps {f f' : Fragment V} (h : Typed T f) (hk : f.Keeps f') : Typed T f' := by
  refine ⟨hk.type.trans h.1, hk.bytes.trans (h.2.trans ?_)⟩
  simp only [Dataspace.totalBytes, Dataspace.elementCount, hk.dim, hk.type]

theorem Step.typed (hP : ∀ sub, P sub → sub.type = T) (h : Step P S ds ds')
    (ht : ∀ f ∈ ds.fragments, Typed T f) : ∀ f ∈ ds'.fragments, Typed T f := by
  cases h with
  | io h =>
    cases h with
    | @update r f f' hf hk =>
      intro f₁ hf₁
      rcases List.mem_or_eq_of_mem_set hf₁ with hf₁ | rfl
      · exact ht f₁ hf₁
      · exact (ht f (List.mem_of_getElem? (fragment_eq_ok.1 hf).1)).keeps hk
    | @create space buf hp hs hc =>
      intro f hf
      rcases List.mem_append.1 hf with hf | hf
      · exact ht f hf
      · obtain rfl := List.mem_singleton.1 hf
        exact ⟨hP space hp, rfl⟩
  | grid h =>
    rw [h.sameTable.fragments]
    exact ht
  | fillValue => exact ht
  | leave =>
    intro f hf
    obtain ⟨f, hmem, rfl⟩ := List.mem_map.1 hf
    exact (ht f hmem).keeps (Fragment.leave_keeps f)

theorem Inv.fragment_dims (hI : Inv ds) {e : Hypercube × ℕ} (he : e ∈ ds.table) {f : Fragment V}
    (hf : ds.fragment e.2 = .ok f) : f.dataspace.dims = ds.dims := by
  obtain ⟨s, r⟩ := e
  obtain ⟨f', hf', hs⟩ := hI.table.fragment_eq he
  obtain rfl := Except.ok.inj (hf.symm.trans hf')
  have := (hI.shapes _ (mem_shapes.2 ⟨r, he⟩)).1
  rw [← hs] at this
  exact (Dataspace.getExtends_length _).symm.trans this

theorem typeInv_of_typed (hI : Inv ds) (ht : ∀ f ∈ ds.fragments, Typed ds.dataspace.type f) :
    TypeInv ds := by
  have htyped : ∀ e ∈ ds.table, ∀ f, ds.fragment e.2 = .ok f → Typed ds.dataspace.type f :=
    fun e _ f hf => ht f (List.mem_of_getElem? (fragment_eq_ok.1 hf).1)
  refine ⟨fun e he f hf => (htyped e he f hf).1, fun e he f hf env json hfaith hjson => ?_⟩
  obtain ⟨htype, hbytes⟩ := htyped e he f hf
  obtain ⟨id, b, hid, hb, hparse⟩ :=
    Fragment.parse_metadataCreate (hI.fragment_dims he hf) hjson
  refine ⟨_, hparse, fun b => ⟨htype.symm, ?_, fun p => ?_⟩⟩
  · rw [hbytes, FragmentDescription.fragment]
    simp only [Dataspace.totalBytes, Dataspace.elementCount, htype]
  · simp [Fragment.storedValue, FragmentDescription.fragment, hfaith id hid]

end Dataset

/-- The memspace of a call has the given type. -/
def Op.HasType (T : ElemType) : Op V → Prop
  | .write space _ | .read space _ | .writeGrid _ space _ | .readGrid _ space _ => space.type = T
  | _ => True

theorem Op.Writes.type {n : ℕ} {T : ElemType} {op : Op V} (hT : op.HasType T) {sub : Dataspace}
    (h : op.Writes n sub) : sub.type = T := by
  cases op with
  | write | read | writeGrid | readGrid => exact h.1.1.trans hT
  | _ => exact h.elim

namespace Dataset

variable {ds : Dataset V}

/-- If all memspaces have the dataset's type, so do all fragments. -/
theorem run_typeInv {dataspace : Dataspace} {fillValue : Option V} {calls : List (Call V)}
    (hT : ∀ c ∈ calls, c.op.HasType dataspace.type)
    (h : (init dataspace fillValue).run calls = .ok ds) : TypeInv ds := by
  have hinv : Inv ds ∧ ds.dataspace = dataspace ∧ ∀ f ∈ ds.fragments, Typed dataspace.type f := by
    refine run_induction (I := fun ds => Inv ds ∧ ds.dataspace = dataspace
      ∧ ∀ f ∈ ds.fragments, Typed dataspace.type f) ?_ ⟨init_inv .., rfl, by simp [init]⟩ h
    rintro ds c result hc ⟨hI, hds, ht⟩ hstep
    obtain ⟨hI', -, hC⟩ := (step_steps hstep).induct (C := fun ds => ds.dataspace = dataspace
        ∧ ∀ f ∈ ds.fragments, Typed dataspace.type f) (fun _ => Op.Writes.dims) hI ⟨hds, ht⟩
      fun _ _ hs hC => ⟨hs.dataspace.trans hC.1,
        hs.typed (fun _ => Op.Writes.type (hT c hc)) hC.2⟩
    exact ⟨hI', hC⟩
  obtain ⟨hI, rfl, ht⟩ := hinv
  exact typeInv_of_typed hI ht

/-- An element of the line, in another type than the dataset's. -/
def narrowElement : Memspace := ⟨.createFull [⟨0, 1⟩] (.basic .int32), by decide⟩

theorem run_typeInv_pair : ∃ ds : Dataset ℕ,
    (init pairSpace none).run pairGridCalls = .ok ds ∧ TypeInv ds :=
  ⟨_, rfl, run_typeInv (by simp [pairGridCalls, Op.HasType, pairElement, pairSpace])
    (show (init pairSpace none).run pairGridCalls = .ok _ from rfl)⟩

/-- A fragment that is written with a memspace of another type has that type. -/
theorem run_not_typeInv : ∃ result : Result ℕ,
    (init pairSpace none).step ⟨Env.calm 0, .write narrowElement fun _ => 7⟩ = .ok result
      ∧ result.status = .success ∧ ¬ TypeInv result.dataset := by
  refine ⟨_, rfl, rfl, fun h => ?_⟩
  have := h.type ([⟨0, 1⟩], 0) (List.mem_singleton_self _) _ rfl
  exact absurd this (by decide)

end Dataset

end Esdm
