import Esdm.Metadata
import Esdm.Proofs.Table

/-!
# Reading a list of fragments

`esdmI_create_fragment_from_metadata` hands back the fragment of the table if there is one of the
described shape, `esdmI_fragments_add` rejects it, and the caller destroys it.  So the loop keeps
the table intact as long as no shape comes up twice, and otherwise leaves an entry behind whose
fragment has been freed.
-/

namespace Esdm

namespace Dataset

variable {V : Type} {env : Env V} {ds : Dataset V}

/-- The outcome of reading a list: the table has exactly one fragment for each shape that is old or
listed, and none of its fragments has been destroyed. -/
def Intact (old listed : List Hypercube) (x : Outcome (Dataset V)) : Prop :=
  ∃ ds, x = .ok ds ∧ TableWf ds ∧ ∀ s, s ∈ ds.shapes ↔ s ∈ old ∨ s ∈ listed

section Create

variable {json : Json} {d : FragmentDescription}

theorem createFragmentFromMetadata_of_notMem {b : Backend}
    (hp : FragmentDescription.parse ds.dataspace json = some d)
    (hb : getBackend env d.pid = some b) (hs : d.space.getExtends ∉ ds.shapes) :
    ds.createFragmentFromMetadata env json
      = ({ ds with fragments := ds.fragments ++ [d.fragment env b] },
        some ds.fragments.length) := by
  simp [createFragmentFromMetadata, hp, lookupFragmentForShape, lookupForShape_eq_none.2 hs, hb]

theorem createFragmentFromMetadata_of_lookup {r : ℕ}
    (hp : FragmentDescription.parse ds.dataspace json = some d)
    (hl : ds.lookupForShape d.space.getExtends = some r) :
    ds.createFragmentFromMetadata env json = (ds, some r) := by
  simp [createFragmentFromMetadata, hp, lookupFragmentForShape, hl]

/-- Whatever the description, the heap stays as it is or gets the fragment that is described. -/
theorem createFragmentFromMetadata_inv (env : Env V) (ds : Dataset V) (json : Json) :
    ds.createFragmentFromMetadata env json = (ds, none)
      ∨ (∃ s r, (s, r) ∈ ds.table ∧ ds.createFragmentFromMetadata env json = (ds, some r))
      ∨ ∃ d b, FragmentDescription.parse ds.dataspace json = some d
        ∧ getBackend env d.pid = some b ∧ d.space.getExtends ∉ ds.shapes
        ∧ ds.createFragmentFromMetadata env json
          = ({ ds with fragments := ds.fragments ++ [d.fragment env b] },
            some ds.fragments.length) := by
  rcases hp : FragmentDescription.parse ds.dataspace json with _ | d
  · exact .inl (by simp [createFragmentFromMetadata, hp])
  rcases hl : ds.lookupForShape d.space.getExtends with _ | r
  · have hs := lookupForShape_eq_none.1 hl
    rcases hb : getBackend env d.pid with _ | b
    · exact .inl (by simp [createFragmentFromMetadata, hp, lookupFragmentForShape, hl, hb])
    · exact .inr (.inr ⟨d, b, rfl, hb, hs, createFragmentFromMetadata_of_notMem hp hb hs⟩)
  · exact .inr (.inl ⟨_, r, mem_of_lookupForShape hl, createFragmentFromMetadata_of_lookup hp hl⟩)

end Create

section Older

/-- The table grows, and a fragment that has been freed stays so. -/
structure Older (ds ds' : Dataset V) : Prop where
  table : ∀ e ∈ ds.table, e ∈ ds'.table
  freed : ∀ (r : ℕ) (f : Fragment V), ds.fragments[r]? = some f → f.freed = true →
    ∃ f' : Fragment V, ds'.fragments[r]? = some f' ∧ f'.freed = true

theorem Older.refl (ds : Dataset V) : Older ds ds := ⟨fun _ h => h, fun _ f h hf => ⟨f, h, hf⟩⟩

theorem Older.trans {ds₁ ds₂ ds₃ : Dataset V} (h : Older ds₁ ds₂) (h' : Older ds₂ ds₃) :
    Older ds₁ ds₃ := by
  refine ⟨fun e he => h'.table e (h.table e he), fun r f hf hfr => ?_⟩
  obtain ⟨f', hf', hfr'⟩ := h.freed r f hf hfr
  exact h'.freed r f' hf' hfr'

theorem older_create (env : Env V) (ds : Dataset V) (json : Json) :
    Older ds (ds.createFragmentFromMetadata env json).1 := by
  rcases createFragmentFromMetadata_inv env ds json with h | ⟨s, r, -, h⟩ | ⟨d, b, -, -, -, h⟩ <;>
    rw [h]
  · exact .refl ds
  · exact .refl ds
  · refine ⟨fun _ h => h, fun r f' hf' hfr => ⟨f', ?_, hfr⟩⟩
    rw [List.getElem?_append_left (List.getElem?_eq_some_iff.1 hf').1, hf']

theorem older_fragmentsAdd {ds' : Dataset V} {r : ℕ} {status : Status}
    (h : ds.fragmentsAdd r = .ok (status, ds')) : Older ds ds' := by
  obtain ⟨f, -, ⟨-, -, rfl⟩ | ⟨-, -, rfl⟩⟩ := fragmentsAdd_eq_ok h
  · exact .refl ds'
  · exact ⟨fun e he => List.mem_append_left _ he, fun r f h hf => ⟨f, h, hf⟩⟩

theorem fragmentDestroy_eq_ok {ds' : Dataset V} {r : ℕ} (h : ds.fragmentDestroy r = .ok ds') :
    ∃ f, ds.fragment r = .ok f ∧ ds' = ds.setFragment r { f with freed := true } := by
  obtain ⟨f, hf, h⟩ := Outcome.bind_eq_ok.1 h
  exact ⟨f, hf, (Except.ok.inj h).symm⟩

theorem older_fragmentDestroy {ds' : Dataset V} {r : ℕ} (h : ds.fragmentDestroy r = .ok ds') :
    Older ds ds' := by
  obtain ⟨f, hf, rfl⟩ := fragmentDestroy_eq_ok h
  refine ⟨fun _ h => h, fun q f' hf' hfr => ?_⟩
  have hne : r ≠ q := by
    rintro rfl
    rw [(fragment_eq_ok.1 hf).1] at hf'
    obtain rfl := Option.some.inj hf'
    exact absurd hfr (by simp [(fragment_eq_ok.1 hf).2])
  exact ⟨f', by simpa [setFragment, List.getElem?_set_ne hne] using hf', hfr⟩

end Older

section Absorb

variable {accept : Dataset V → Fragment V → Dataset V} {reject : Dataset V → Outcome (Dataset V)}

/-- Two datasets that differ in the fragments, the table and the actual size only. -/
structure Alike (ds ds' : Dataset V) : Prop where
  dataspace : ds'.dataspace = ds.dataspace
  status : ds'.status = ds.status
  gridHeap : ds'.gridHeap = ds.gridHeap
  grids : ds'.grids = ds.grids
  gridCount : ds'.gridCount = ds.gridCount

theorem Alike.refl (ds : Dataset V) : Alike ds ds := ⟨rfl, rfl, rfl, rfl, rfl⟩

theorem Alike.trans {ds₁ ds₂ ds₃ : Dataset V} (h : Alike ds₁ ds₂) (h' : Alike ds₂ ds₃) :
    Alike ds₁ ds₃ :=
  ⟨h'.dataspace.trans h.dataspace, h'.status.trans h.status, h'.gridHeap.trans h.gridHeap,
    h'.grids.trans h.grids, h'.gridCount.trans h.gridCount⟩

/-- What the two loops do about a new fragment concerns the dataset's actual size only. -/
structure Accepts (accept : Dataset V → Fragment V → Dataset V) : Prop where
  alike : ∀ ds f, Alike ds (accept ds f)
  table : ∀ ds f, (accept ds f).table = ds.table
  fragments : ∀ ds f, (accept ds f).fragments = ds.fragments

/-- What they do about a description that is not well formed changes nothing, if they go on. -/
def Rejects (reject : Dataset V → Outcome (Dataset V)) : Prop :=
  ∀ ds ds', reject ds = .ok ds' → ds' = ds

theorem Accepts.tableWf (ha : Accepts accept) {f : Fragment V} (hw : TableWf ds) :
    TableWf (accept ds f) := hw.congr (ha.table ds f) (ha.fragments ds f)

theorem Accepts.shapes (ha : Accepts accept) (f : Fragment V) :
    (accept ds f).shapes = ds.shapes := by
  rw [Dataset.shapes, ha.table]
  rfl

theorem alike_create (env : Env V) (ds : Dataset V) (json : Json) :
    Alike ds (ds.createFragmentFromMetadata env json).1 := by
  rcases createFragmentFromMetadata_inv env ds json with h | ⟨s, r, -, h⟩ | ⟨d, b, -, -, -, h⟩ <;>
    rw [h]
  · exact .refl ds
  · exact .refl ds
  · exact ⟨rfl, rfl, rfl, rfl, rfl⟩

theorem absorbFragments_keeps (ha : Accepts accept) (hr : Rejects reject) :
    ∀ (list : List Json) {ds ds' : Dataset V},
      absorbFragments env accept reject list ds = .ok ds' → Older ds ds' ∧ Alike ds ds'
  | [], ds, ds', h => by
    obtain rfl := Except.ok.inj h
    exact ⟨.refl ds, .refl ds⟩
  | json :: rest, ds, ds', h => by
    have hc := older_create env ds json
    have hc' := alike_create env ds json
    rw [absorbFragments] at h
    rcases hx : ds.createFragmentFromMetadata env json with ⟨ds₁, _ | r⟩ <;> rw [hx] at h hc hc'
    · obtain ⟨ds₂, h₂, h'⟩ := Outcome.bind_eq_ok.1 h
      obtain rfl := hr _ _ h₂
      obtain ⟨ho, hl⟩ := absorbFragments_keeps ha hr rest h'
      exact ⟨hc.trans ho, hc'.trans hl⟩
    · obtain ⟨⟨status, ds₂⟩, h₂, h'⟩ := Outcome.bind_eq_ok.1 h
      have hadd : Alike ds₁ ds₂ := by
        obtain ⟨f, -, ⟨-, -, rfl⟩ | ⟨-, -, rfl⟩⟩ := fragmentsAdd_eq_ok h₂ <;>
          exact ⟨rfl, rfl, rfl, rfl, rfl⟩
      dsimp only at h'
      split at h'
      · obtain ⟨ds₃, h₃, h''⟩ := Outcome.bind_eq_ok.1 h'
        obtain ⟨ho, hl⟩ := absorbFragments_keeps ha hr rest h''
        have hdestroy : Alike ds₂ ds₃ := by
          obtain ⟨f, -, rfl⟩ := fragmentDestroy_eq_ok h₃
          exact ⟨rfl, rfl, rfl, rfl, rfl⟩
        exact ⟨hc.trans ((older_fragmentsAdd h₂).trans ((older_fragmentDestroy h₃).trans ho)),
          hc'.trans (hadd.trans (hdestroy.trans hl))⟩
      · obtain ⟨f, -, h''⟩ := Outcome.bind_eq_ok.1 h'
        obtain ⟨ho, hl⟩ := absorbFragments_keeps ha hr rest h''
        have hacc : Older ds₂ ds' := ⟨ha.table ds₂ f ▸ ho.table, ha.fragments ds₂ f ▸ ho.freed⟩
        exact ⟨hc.trans ((older_fragmentsAdd h₂).trans hacc),
          hc'.trans (hadd.trans ((ha.alike ds₂ f).trans hl))⟩

section Cons

variable {json : Json} {rest : List Json} {d : FragmentDescription}

/-- A well-formed description of a new shape adds a fragment. -/
theorem absorbFragments_cons_of_notMem {b : Backend}
    (hp : FragmentDescription.parse ds.dataspace json = some d)
    (hb : getBackend env d.pid = some b) (hs : d.space.getExtends ∉ ds.shapes) :
    absorbFragments env accept reject (json :: rest) ds
      = absorbFragments env accept reject rest
        (accept (ds.addFragment (d.fragment env b)) (d.fragment env b)) := by
  have hf : (ds.addFragment (d.fragment env b)).fragment ds.fragments.length
      = .ok (d.fragment env b) := by
    simp [addFragment, FragmentDescription.fragment]
  have hadd : fragmentsAdd { ds with fragments := ds.fragments ++ [d.fragment env b] }
      ds.fragments.length = .ok (.success, ds.addFragment (d.fragment env b)) :=
    fragmentsAdd_of_notMem (by simp [FragmentDescription.fragment]) hs
  rw [absorbFragments, createFragmentFromMetadata_of_notMem hp hb hs]
  simp only [hadd, Outcome.ok_bind, reduceCtorEq, if_false, hf]

/-- A description of a shape that the table has destroys the fragment of the table. -/
theorem absorbFragments_cons_of_mem (hw : TableWf ds) {r : ℕ}
    (hp : FragmentDescription.parse ds.dataspace json = some d)
    (he : (d.space.getExtends, r) ∈ ds.table) :
    ∃ f : Fragment V, absorbFragments env accept reject (json :: rest) ds
      = absorbFragments env accept reject rest (ds.setFragment r { f with freed := true }) := by
  obtain ⟨f, hf, hs⟩ := hw.fragment_eq he
  have hm : f.shape ∈ ds.shapes := hs ▸ mem_shapes.2 ⟨r, he⟩
  refine ⟨f, ?_⟩
  rw [absorbFragments, createFragmentFromMetadata_of_lookup hp (hw.lookup_eq_some_iff.2 he)]
  simp [fragmentsAdd_of_mem hf hm, fragmentDestroy, hf]

theorem FragmentDescription.shapes_cons {dataspace : Dataspace}
    (hp : FragmentDescription.parse dataspace json = some d) :
    FragmentDescription.shapes dataspace (json :: rest)
      = d.space.getExtends :: FragmentDescription.shapes dataspace rest := by
  simp [FragmentDescription.shapes, hp]

end Cons

/-- As long as no shape comes up twice, all fragments of the list are added. -/
theorem absorbFragments_of_nodup (ha : Accepts accept) : ∀ (list : List Json) {ds : Dataset V},
    TableWf ds → (∀ json ∈ list, FragmentDescription.WellFormed env ds.dataspace json) →
    (ds.shapes ++ FragmentDescription.shapes ds.dataspace list).Nodup →
    ∃ ds', absorbFragments env accept reject list ds = .ok ds' ∧ TableWf ds' ∧ Alike ds ds'
      ∧ ds'.shapes = ds.shapes ++ FragmentDescription.shapes ds.dataspace list
      ∧ ∃ new, ds'.fragments = ds.fragments ++ new
        ∧ ds'.table = ds.table ++ (new.map Fragment.shape).zipIdx ds.fragments.length
        ∧ ∀ f ∈ new, ∃ json ∈ list, ∃ d b, FragmentDescription.parse ds.dataspace json = some d
          ∧ getBackend env d.pid = some b ∧ f = FragmentDescription.fragment env d b
  | [], ds, hw, _, _ =>
    ⟨ds, rfl, hw, ⟨rfl, rfl, rfl, rfl, rfl⟩, by simp [FragmentDescription.shapes], [], by simp⟩
  | json :: rest, ds, hw, hwf, hn => by
    obtain ⟨d, hp, hb⟩ := hwf json (by simp)
    obtain ⟨b, hb⟩ := Option.ne_none_iff_exists'.1 hb
    rw [FragmentDescription.shapes_cons hp] at hn ⊢
    have hs : d.space.getExtends ∉ ds.shapes := fun h =>
      (List.nodup_append.1 hn).2.2 _ h _ (by simp) rfl
    rw [absorbFragments_cons_of_notMem hp hb hs]
    set f := d.fragment env b with hfdef
    set ds₁ := accept (ds.addFragment f) f with hds₁
    have hshapes : ds₁.shapes = ds.shapes ++ [d.space.getExtends] := by
      rw [hds₁, ha.shapes, addFragment_shapes]
      rfl
    have halike : Alike ds ds₁ :=
      (show Alike ds (ds.addFragment f) from ⟨rfl, rfl, rfl, rfl, rfl⟩).trans (ha.alike _ f)
    obtain ⟨ds', heq, hw', halike', hsh, new, hnew, htable, hdesc⟩ :=
      absorbFragments_of_nodup ha rest
      (show TableWf ds₁ from ha.tableWf (hw.addFragment (f := f) hs rfl))
      (fun j hj => halike.dataspace ▸ hwf j (by simp [hj]))
      (by rw [hshapes, halike.dataspace]; simpa using hn)
    refine ⟨ds', heq, hw', halike.trans halike', ?_, f :: new, ?_, ?_, ?_⟩
    · rw [hsh, hshapes, halike.dataspace]
      simp
    · rw [hnew, hds₁, ha.fragments]
      simp [addFragment]
    · rw [htable, hds₁, ha.fragments, ha.table]
      simp [addFragment]
    · intro f' hf'
      rcases List.mem_cons.1 hf' with rfl | hf'
      · exact ⟨json, by simp, d, b, hp, hb, hfdef⟩
      · obtain ⟨j, hj, d', b', hp', hb', heq'⟩ := hdesc f' hf'
        exact ⟨j, List.mem_cons_of_mem _ hj, d', b', halike.dataspace ▸ hp', hb', heq'⟩

/-- If a shape comes up twice, the table ends up with a fragment that has been destroyed. -/
theorem exists_freed_of_not_nodup (ha : Accepts accept) (hr : Rejects reject) :
    ∀ (list : List Json) {ds ds' : Dataset V}, TableWf ds →
    (∀ json ∈ list, FragmentDescription.WellFormed env ds.dataspace json) →
    ¬ (ds.shapes ++ FragmentDescription.shapes ds.dataspace list).Nodup →
    absorbFragments env accept reject list ds = .ok ds' →
    ∃ e ∈ ds'.table, ∃ f : Fragment V, ds'.fragments[e.2]? = some f ∧ f.freed = true
  | [], ds, _, hw, _, hn, _ => absurd hw.nodup (by simpa [FragmentDescription.shapes] using hn)
  | json :: rest, ds, ds', hw, hwf, hn, hok => by
    obtain ⟨d, hp, hb⟩ := hwf json (by simp)
    obtain ⟨b, hb⟩ := Option.ne_none_iff_exists'.1 hb
    rw [FragmentDescription.shapes_cons hp] at hn
    by_cases hs : d.space.getExtends ∈ ds.shapes
    · obtain ⟨r, he⟩ := mem_shapes.1 hs
      obtain ⟨f, heq⟩ : ∃ f : Fragment V, absorbFragments env accept reject (json :: rest) ds
          = absorbFragments env accept reject rest (ds.setFragment r { f with freed := true }) :=
        absorbFragments_cons_of_mem hw hp he
      rw [heq] at hok
      have hold := (absorbFragments_keeps ha hr rest hok).1
      exact ⟨_, hold.table _ he, hold.freed r { f with freed := true }
        (by simp [setFragment, List.getElem?_set_self (hw.lt_length he)]) rfl⟩
    · rw [absorbFragments_cons_of_notMem hp hb hs] at hok
      have hd := (ha.alike (ds.addFragment (d.fragment env b)) (d.fragment env b)).dataspace
      refine exists_freed_of_not_nodup ha hr rest
        (ha.tableWf (hw.addFragment (f := d.fragment env b) hs rfl))
        (fun j hj => hd ▸ hwf j (by simp [hj])) ?_ hok
      rw [ha.shapes, addFragment_shapes, hd]
      show ¬ (ds.shapes ++ [d.space.getExtends]
        ++ FragmentDescription.shapes ds.dataspace rest).Nodup
      simpa using hn

theorem not_intact_absorbFragments (ha : Accepts accept) (hr : Rejects reject)
    {old listed : List Hypercube} {list : List Json} (hw : TableWf ds)
    (hwf : ∀ json ∈ list, FragmentDescription.WellFormed env ds.dataspace json)
    (hn : ¬ (ds.shapes ++ FragmentDescription.shapes ds.dataspace list).Nodup) :
    ¬ Intact old listed (absorbFragments env accept reject list ds) := by
  rintro ⟨ds', hok, hw', -⟩
  obtain ⟨e, he, f, hf, hfreed⟩ := exists_freed_of_not_nodup ha hr list hw hwf hn hok
  obtain ⟨f', hf', hlive, -⟩ := hw'.live e he
  obtain rfl := Option.some.inj (hf.symm.trans hf')
  simp [hfreed] at hlive

/-- Reading a list keeps the table intact exactly if no shape comes up twice. -/
theorem intact_absorbFragments_iff (ha : Accepts accept) (hr : Rejects reject)
    {list : List Json} (hw : TableWf ds)
    (hwf : ∀ json ∈ list, FragmentDescription.WellFormed env ds.dataspace json) :
    Intact ds.shapes (FragmentDescription.shapes ds.dataspace list)
        (absorbFragments env accept reject list ds)
      ↔ (ds.shapes ++ FragmentDescription.shapes ds.dataspace list).Nodup := by
  constructor
  · intro h
    by_contra hn
    exact not_intact_absorbFragments ha hr hw hwf hn h
  · intro hn
    obtain ⟨ds', heq, hw', -, hsh, -⟩ :
        ∃ ds', absorbFragments env accept reject list ds = .ok ds' ∧ _ :=
      absorbFragments_of_nodup ha list hw hwf hn
    refine ⟨ds', heq, hw', fun s => ?_⟩
    rw [hsh, List.mem_append]

end Absorb

theorem openFragments_accepts :
    Accepts fun (ds : Dataset V) f => ds.updateActualSize f.dataspace :=
  ⟨fun _ _ => ⟨rfl, rfl, rfl, rfl, rfl⟩, fun _ _ => rfl, fun _ _ => rfl⟩

theorem openFragments_rejects : Rejects fun (ds : Dataset V) => .ok ds :=
  fun _ _ h => (Except.ok.inj h).symm

theorem receiveFragments_accepts : Accepts fun (ds : Dataset V) (_ : Fragment V) => ds :=
  ⟨fun _ _ => ⟨rfl, rfl, rfl, rfl, rfl⟩, fun _ _ => rfl, fun _ _ => rfl⟩

theorem receiveFragments_rejects : Rejects fun (_ : Dataset V) => .error .abort :=
  fun _ _ h => absurd h (by simp)

/-- Opening a dataset and collecting the fragments of a rank keep the table intact exactly if all
shapes, those of the table and those of the list, are different. -/
theorem fragmentLists_intact_iff {list : List Json} (hw : TableWf ds)
    (hwf : ∀ json ∈ list, FragmentDescription.WellFormed env ds.dataspace json) :
    (Intact ds.shapes (FragmentDescription.shapes ds.dataspace list) (openFragments env list ds)
        ↔ (ds.shapes ++ FragmentDescription.shapes ds.dataspace list).Nodup)
      ∧ (Intact ds.shapes (FragmentDescription.shapes ds.dataspace list)
          (receiveFragments env list ds)
        ↔ (ds.shapes ++ FragmentDescription.shapes ds.dataspace list).Nodup) :=
  ⟨intact_absorbFragments_iff openFragments_accepts openFragments_rejects hw hwf,
    intact_absorbFragments_iff receiveFragments_accepts receiveFragments_rejects hw hwf⟩

section Sample

/-- A dataset of one dimension with eight elements. -/
def lineSpace : Dataspace := ⟨.basic .int64, [⟨0, 8⟩], none, by simp⟩

/-- A fragment that is one element long. -/
def elementDescription (offset : ℤ) : Json :=
  .obj [("id", .str "f"), ("pid", .str "b"), ("act-size", .int (-1)),
    ("space", .obj [("size", .ints [1]), ("offset", .ints [offset])])]

theorem elementDescription_wellFormed (offset : ℤ) : FragmentDescription.WellFormed
    (Env.calm (0 : ℤ)) lineSpace (elementDescription offset) :=
  ⟨⟨"f", "b", -1, lineSpace.type, [⟨offset, 1⟩], none, by simp⟩, rfl,
    by simp [getBackend, Env.calm]⟩

/-- Two different fragments are both added. -/
theorem fragmentLists_intact_line :
    Intact (init lineSpace (none : Option ℤ)).shapes
      (FragmentDescription.shapes lineSpace [elementDescription 0, elementDescription 1])
      (openFragments (Env.calm 0) [elementDescription 0, elementDescription 1]
        (init lineSpace none)) := by
  refine (fragmentLists_intact_iff (init_tableWf _ _) fun json hj => ?_).1.2 (by decide)
  simp only [List.mem_cons, List.not_mem_nil, or_false] at hj
  rcases hj with rfl | rfl <;> exact elementDescription_wellFormed _

/-- The same fragment twice is destroyed while the table still has it. -/
theorem fragmentLists_not_intact :
    ¬ Intact (init lineSpace (none : Option ℤ)).shapes
      (FragmentDescription.shapes lineSpace [elementDescription 0, elementDescription 0])
      (openFragments (Env.calm 0) [elementDescription 0, elementDescription 0]
        (init lineSpace none)) := by
  refine not_intact_absorbFragments openFragments_accepts openFragments_rejects
    (init_tableWf _ _) (fun json hj => ?_) (by decide)
  simp only [List.mem_cons, List.not_mem_nil, or_false, or_self] at hj
  rw [hj]
  exact elementDescription_wellFormed 0

end Sample

end Dataset

end Esdm
