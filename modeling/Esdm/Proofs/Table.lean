import Esdm.Dataset

/-!
# The fragment table

The table has one entry for each shape, and an entry leads to a fragment of its shape that has not
been destroyed.
-/

namespace Esdm

namespace Dataset

variable {V : Type} {ds : Dataset V}

@[simp] theorem fragment_eq_ok {r : ℕ} {f : Fragment V} :
    ds.fragment r = .ok f ↔ ds.fragments[r]? = some f ∧ f.freed = false := by
  unfold fragment
  rcases h : ds.fragments[r]? with _ | f'
  · simp
  · simp only [access_some, Outcome.ok_bind, Option.some.injEq]
    cases hf : f'.freed
    · simp only [Bool.false_eq_true, if_false, Outcome.pure_eq, Except.ok.injEq]
      exact ⟨fun h => ⟨h, h ▸ hf⟩, And.left⟩
    · simp only [if_true, reduceCtorEq, false_iff, not_and]
      rintro rfl
      simp [hf]

theorem fragment_setFragment_self {r : ℕ} {f f' : Fragment V} (hf : ds.fragment r = .ok f)
    (hfreed : f'.freed = f.freed) : (ds.setFragment r f').fragment r = .ok f' := by
  obtain ⟨hget, hlive⟩ := fragment_eq_ok.1 hf
  refine fragment_eq_ok.2 ⟨?_, hfreed.trans hlive⟩
  rw [setFragment, List.getElem?_set, if_pos rfl, if_pos (List.getElem?_eq_some_iff.1 hget).1]

theorem fragment_setFragment_of_ne {r q : ℕ} (hne : r ≠ q) (f : Fragment V) :
    (ds.setFragment r f).fragment q = ds.fragment q := by
  rw [fragment, setFragment, List.getElem?_set_ne hne, fragment]

theorem mem_shapes {s : Hypercube} : s ∈ ds.shapes ↔ ∃ r, (s, r) ∈ ds.table := by
  simp [shapes]

theorem mem_of_lookupForShape {s : Hypercube} {r : ℕ} (h : ds.lookupForShape s = some r) :
    (s, r) ∈ ds.table := by
  obtain ⟨a, b, h, -⟩ := List.lookup_eq_some_iff.1 h
  simp [h]

theorem lookupForShape_eq_none {s : Hypercube} : ds.lookupForShape s = none ↔ s ∉ ds.shapes := by
  unfold lookupForShape
  rw [List.lookup_eq_none_iff, mem_shapes]
  simp only [bne_iff_ne, ne_eq, Prod.forall]
  exact ⟨fun h ⟨r, hr⟩ => h s r hr rfl, fun h s' r hr e => h ⟨r, e ▸ hr⟩⟩

/-- What holds of the fragment table in every state. -/
structure TableWf (ds : Dataset V) : Prop where
  nodup : ds.shapes.Nodup
  live : ∀ e ∈ ds.table, ∃ f, ds.fragments[e.2]? = some f ∧ f.freed = false ∧ f.shape = e.1

theorem init_tableWf (dataspace : Dataspace) (fillValue : Option V) :
    TableWf (init dataspace fillValue) :=
  ⟨List.nodup_nil, by simp [init]⟩

namespace TableWf

theorem lookup_eq_some_iff (hw : TableWf ds) {s : Hypercube} {r : ℕ} :
    ds.lookupForShape s = some r ↔ (s, r) ∈ ds.table := by
  refine ⟨mem_of_lookupForShape, fun h => ?_⟩
  rcases hl : ds.lookupForShape s with _ | r'
  · exact absurd (mem_shapes.2 ⟨r, h⟩) (lookupForShape_eq_none.1 hl)
  · have h' := List.inj_on_of_nodup_map hw.nodup h (mem_of_lookupForShape hl) rfl
    simp only [Prod.mk.injEq, true_and] at h'
    rw [h']

theorem lt_length (hw : TableWf ds) {e : Hypercube × ℕ} (he : e ∈ ds.table) :
    e.2 < ds.fragments.length := by
  obtain ⟨f, hf, -⟩ := hw.live e he
  exact (List.getElem?_eq_some_iff.1 hf).1

/-- Different entries lead to different fragments. -/
theorem eq_of_ref_eq (hw : TableWf ds) {e e' : Hypercube × ℕ} (he : e ∈ ds.table)
    (he' : e' ∈ ds.table) (h : e.2 = e'.2) : e = e' := by
  obtain ⟨f, hf, -, hs⟩ := hw.live e he
  obtain ⟨f', hf', -, hs'⟩ := hw.live e' he'
  rw [h, hf'] at hf
  obtain rfl := Option.some.inj hf
  exact Prod.ext (hs.symm.trans hs') h

theorem fragment_eq (hw : TableWf ds) {s : Hypercube} {r : ℕ} (he : (s, r) ∈ ds.table) :
    ∃ f, ds.fragment r = .ok f ∧ f.shape = s := by
  obtain ⟨f, hf, hfr, hs⟩ := hw.live _ he
  exact ⟨f, fragment_eq_ok.2 ⟨hf, hfr⟩, hs⟩

end TableWf

theorem TableWf.congr {ds' : Dataset V} (hw : TableWf ds) (ht : ds'.table = ds.table)
    (hf : ds'.fragments = ds.fragments) : TableWf ds' := by
  refine ⟨?_, ?_⟩
  · rw [shapes, ht]
    exact hw.nodup
  · rw [ht, hf]
    exact hw.live

/-- A new fragment, with its entry in the table. -/
def addFragment (ds : Dataset V) (f : Fragment V) : Dataset V :=
  { ds with
    fragments := ds.fragments ++ [f]
    table := ds.table ++ [(f.shape, ds.fragments.length)] }

@[simp] theorem addFragment_shapes (f : Fragment V) :
    (ds.addFragment f).shapes = ds.shapes ++ [f.shape] := by
  simp [shapes, addFragment]

theorem TableWf.addFragment (hw : TableWf ds) {f : Fragment V} (hs : f.shape ∉ ds.shapes)
    (hf : f.freed = false) : TableWf (ds.addFragment f) := by
  refine ⟨?_, fun e he => ?_⟩
  · rw [addFragment_shapes]
    exact List.nodup_append.2 ⟨hw.nodup, List.nodup_singleton _, fun s h s' h' e => by
      obtain rfl := List.mem_singleton.1 h'
      exact hs (e ▸ h)⟩
  · rcases List.mem_append.1 he with he | he
    · obtain ⟨f', hf', hl⟩ := hw.live e he
      refine ⟨f', ?_, hl⟩
      rw [Dataset.addFragment, List.getElem?_append_left (List.getElem?_eq_some_iff.1 hf').1, hf']
    · obtain rfl := List.mem_singleton.1 he
      exact ⟨f, by simp [Dataset.addFragment], hf, rfl⟩

/-- Adding a fragment fails if the table has its shape, and appends an entry otherwise. -/
theorem fragmentsAdd_eq_ok {ds' : Dataset V} {r : ℕ} {status : Status}
    (h : ds.fragmentsAdd r = .ok (status, ds')) :
    ∃ f, ds.fragment r = .ok f ∧
      ((f.shape ∈ ds.shapes ∧ status = .invalidStateError ∧ ds' = ds)
        ∨ (f.shape ∉ ds.shapes ∧ status = .success
          ∧ ds' = { ds with table := ds.table ++ [(f.shape, r)] })) := by
  unfold fragmentsAdd at h
  obtain ⟨f, hf, h⟩ := Outcome.bind_eq_ok.1 h
  refine ⟨f, hf, ?_⟩
  rcases hl : ds.lookupForShape f.shape with _ | k <;> rw [hl] at h
  · obtain ⟨rfl, rfl⟩ := Prod.mk.inj (Except.ok.inj h)
    exact .inr ⟨lookupForShape_eq_none.1 hl, rfl, rfl⟩
  · obtain ⟨rfl, rfl⟩ := Prod.mk.inj (Except.ok.inj h)
    exact .inl ⟨mem_shapes.2 ⟨k, mem_of_lookupForShape hl⟩, rfl, rfl⟩

theorem fragmentsAdd_of_mem {r : ℕ} {f : Fragment V} (hf : ds.fragment r = .ok f)
    (hs : f.shape ∈ ds.shapes) : ds.fragmentsAdd r = .ok (.invalidStateError, ds) := by
  obtain ⟨k, hk⟩ := Option.ne_none_iff_exists'.1 (mt lookupForShape_eq_none.1 (not_not.2 hs))
  simp [fragmentsAdd, hf, hk]

theorem fragmentsAdd_of_notMem {r : ℕ} {f : Fragment V} (hf : ds.fragment r = .ok f)
    (hs : f.shape ∉ ds.shapes) :
    ds.fragmentsAdd r = .ok (.success, { ds with table := ds.table ++ [(f.shape, r)] }) := by
  simp [fragmentsAdd, hf, lookupForShape_eq_none.2 hs]

end Dataset

end Esdm
