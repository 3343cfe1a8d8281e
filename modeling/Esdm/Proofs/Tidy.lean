import Esdm.Proofs.ActualSize

/-!
# Tables that can be emptied

Whatever a dataset is opened from, its table has each shape once and leads to fragments that are not
dirty (`openMdParse_tidy`).  Such a table can be emptied as long as none of its fragments has been
destroyed (`removeFragments_returns_iff`), as happens when a description has a shape twice.
-/

namespace Esdm

variable {V A : Type}

namespace Dataset

variable {env : Env V} {ds ds' : Dataset V} {r : ℕ} {f : Fragment V}

/-- What holds of a table that comes from descriptions only. -/
structure Tidy (ds : Dataset V) : Prop where
  nodup : ds.shapes.Nodup
  leads : Leads ds
  clean : ∀ f ∈ ds.fragments, f.status ≠ .dirty

/-- No fragment of the table has been destroyed. -/
def AllLive (ds : Dataset V) : Prop := ∀ e ∈ ds.table, ∃ f, ds.fragment e.2 = .ok f

section Tidy

theorem Tidy.congr (h : Tidy ds) (ht : ds'.table = ds.table) (hf : ds'.fragments = ds.fragments) :
    Tidy ds' := by
  refine ⟨?_, ?_, hf ▸ h.clean⟩
  · rw [shapes, ht]
    exact h.nodup
  · unfold Leads
    rw [ht, hf]
    exact h.leads

theorem init_tidy (dataspace : Dataspace) (fillValue : Option V) :
    Tidy (init dataspace fillValue) :=
  ⟨List.nodup_nil, by simp [Leads, init], by simp [init]⟩

theorem clean_setFragment (hclean : ∀ f ∈ ds.fragments, f.status ≠ .dirty)
    (hf : ds.fragment r = .ok f) :
    ∀ g ∈ (ds.setFragment r { f with freed := true }).fragments, g.status ≠ .dirty := by
  intro g hg
  rcases List.mem_or_eq_of_mem_set hg with hg | rfl
  · exact hclean g hg
  · exact hclean f (List.mem_of_getElem? (fragment_eq_ok.1 hf).1)

theorem Tidy.setFragment (h : Tidy ds) (hf : ds.fragment r = .ok f) :
    Tidy (ds.setFragment r { f with freed := true }) := by
  have hadds : Adds ds (ds.setFragment r { f with freed := true }) [] [] := .setFragment hf rfl
  exact ⟨h.nodup, hadds.leads h.leads, clean_setFragment h.clean hf⟩

theorem Tidy.addFragment (h : Tidy ds) (hs : f.shape ∉ ds.shapes) (hf : f.status ≠ .dirty) :
    Tidy (ds.addFragment f) := by
  refine ⟨?_, (addFragment_adds ds f).leads h.leads, ?_⟩
  · rw [addFragment_shapes]
    exact List.nodup_append_comm.1 (List.nodup_cons.2 ⟨hs, h.nodup⟩)
  · exact List.forall_mem_append.2 ⟨h.clean, List.forall_mem_singleton.2 hf⟩

theorem Appends.tidy (h : Appends ds ds') (ht : Tidy ds) : Tidy ds' := by
  obtain ⟨more, hmore, hclean⟩ := h.fragments
  refine ⟨h.shapes ▸ ht.nodup, h.adds.leads ht.leads, ?_⟩
  rw [hmore]
  exact List.forall_mem_append.2 ⟨ht.clean, fun f hf => (hclean f hf).1⟩

theorem openFragments_tidy : ∀ {list : List Json} {ds : Dataset V}, Tidy ds →
    openFragments env list ds = .ok ds' → Tidy ds'
  | [], ds, ht, h => by
    obtain rfl := Except.ok.inj h
    exact ht
  | json :: rest, ds, ht, h => by
    obtain ⟨ds₁, h, hds₁ | ⟨r, f, hf, rfl⟩ | ⟨f, hstatus, hs, -, rfl⟩⟩ :=
      absorbFragments_cons openFragments_rejects ht.leads h
    · rw [hds₁] at h
      exact openFragments_tidy ht h
    · exact openFragments_tidy (ht.setFragment hf) h
    · have hadd : Tidy ((ds.addFragment f).updateActualSize f.dataspace) :=
        (ht.addFragment hs (by simp [hstatus])).congr rfl rfl
      exact openFragments_tidy hadd h

end Tidy

section Remove

/-- Different entries of a tidy table lead to different fragments. -/
theorem Tidy.refs_nodup (h : Tidy ds) : (ds.table.map Prod.snd).Nodup := by
  refine (List.Nodup.of_map _ h.nodup).map_on fun e he e' he' heq => ?_
  obtain ⟨f, hf, hs⟩ := h.leads e he
  obtain ⟨f', hf', hs'⟩ := h.leads e' he'
  rw [heq, hf'] at hf
  obtain rfl := Option.some.inj hf
  exact Prod.ext (hs.symm.trans hs') heq

theorem destroyFragments_cons (hclean : ∀ f ∈ ds.fragments, f.status ≠ .dirty) {shape : Hypercube}
    {entries : List (Hypercube × ℕ)} : ds.destroyFragments ((shape, r) :: entries) = .ok ds'
      ↔ ∃ f, ds.fragment r = .ok f
        ∧ (ds.setFragment r { f with freed := true }).destroyFragments entries = .ok ds' := by
  rw [destroyFragments, Outcome.bind_eq_ok]
  refine exists_congr fun f => and_congr_right fun hf => ?_
  have hstatus : f.status ≠ .dirty := hclean f (List.mem_of_getElem? (fragment_eq_ok.1 hf).1)
  rw [fragmentDestroy, hf, Outcome.ok_bind, Outcome.pure_eq, Outcome.ok_bind, eassert_of hstatus,
    Outcome.ok_bind]

/-- Fragments can be destroyed if none of them has been destroyed before. -/
theorem destroyFragments_returns_iff : ∀ {entries : List (Hypercube × ℕ)} {ds : Dataset V},
    (entries.map Prod.snd).Nodup → (∀ f ∈ ds.fragments, f.status ≠ .dirty) →
    ((∃ ds', ds.destroyFragments entries = .ok ds')
      ↔ ∀ e ∈ entries, ∃ f, ds.fragment e.2 = .ok f)
  | [], ds, _, _ => by simp [destroyFragments]
  | (shape, r) :: entries, ds, hnodup, hclean => by
    obtain ⟨hnot, hnodup⟩ := List.nodup_cons.1 hnodup
    have hrest : ∀ f : Fragment V, ∀ e ∈ entries,
        (ds.setFragment r f).fragment e.2 = ds.fragment e.2 := by
      intro f e he
      have hne : r ≠ e.2 := fun h => hnot (List.mem_map.2 ⟨e, he, h.symm⟩)
      unfold fragment Dataset.setFragment
      rw [List.getElem?_set_ne hne]
    rw [List.forall_mem_cons]
    constructor
    · rintro ⟨ds', h⟩
      obtain ⟨f, hf, h⟩ := (destroyFragments_cons hclean).1 h
      refine ⟨⟨f, hf⟩, fun e he => ?_⟩
      rw [← hrest { f with freed := true } e he]
      exact (destroyFragments_returns_iff hnodup (clean_setFragment hclean hf)).1 ⟨ds', h⟩ e he
    · rintro ⟨⟨f, hf⟩, hall⟩
      obtain ⟨ds', h⟩ :=
        (destroyFragments_returns_iff hnodup (clean_setFragment hclean hf)).2 fun e he => by
        rw [hrest { f with freed := true } e he]
        exact hall e he
      exact ⟨ds', (destroyFragments_cons hclean).2 ⟨f, hf, h⟩⟩

/-- A tidy table can be emptied exactly if none of its fragments has been destroyed. -/
theorem Tidy.removeFragments_returns_iff (h : Tidy ds) :
    (∃ ds', ds.removeFragments env = .ok ds') ↔ AllLive ds := by
  have hperm := env.order_perm ds.table
  have hdestroy := @destroyFragments_returns_iff V (env.order ds.table) ds
    ((hperm.map Prod.snd).nodup_iff.2 h.refs_nodup) h.clean
  unfold Dataset.removeFragments AllLive
  constructor
  · rintro ⟨ds', hds'⟩
    obtain ⟨ds₁, h₁, -⟩ := Outcome.bind_eq_ok.1 hds'
    exact fun e he => hdestroy.1 ⟨ds₁, h₁⟩ e (hperm.mem_iff.2 he)
  · intro hall
    obtain ⟨ds₁, h₁⟩ := hdestroy.2 fun e he => hall e (hperm.mem_iff.1 he)
    exact ⟨_, Outcome.bind_eq_ok.2 ⟨ds₁, h₁, rfl⟩⟩

theorem destroyFragments_clean : ∀ {entries : List (Hypercube × ℕ)} {ds : Dataset V},
    (∀ f ∈ ds.fragments, f.status ≠ .dirty) → ds.destroyFragments entries = .ok ds' →
    ∀ f ∈ ds'.fragments, f.status ≠ .dirty
  | [], ds, hclean, h => by
    obtain rfl := Except.ok.inj h
    exact hclean
  | (shape, r) :: entries, ds, hclean, h => by
    obtain ⟨f, hf, h⟩ := (destroyFragments_cons hclean).1 h
    exact destroyFragments_clean (clean_setFragment hclean hf) h

theorem Tidy.removeFragments (h : Tidy ds) (hr : ds.removeFragments env = .ok ds') : Tidy ds' := by
  obtain ⟨ds₁, h₁, hr⟩ := Outcome.bind_eq_ok.1 hr
  have hclean := destroyFragments_clean h.clean h₁
  obtain rfl := Except.ok.inj hr
  exact ⟨List.nodup_nil, by simp [Leads], hclean⟩

end Remove

end Dataset

namespace DatasetObject

open Dataset (Tidy)

variable {env : Env V} {d d' : DatasetObject V A} {description : Description V A}

theorem nameDims_tidy {names : List (Option String)} {status : Status} (ht : Tidy d.toDataset)
    (h : d.nameDims names = .ok (status, d')) : Tidy d'.toDataset := by
  unfold nameDims at h
  obtain ⟨names, -, h⟩ := Outcome.bind_eq_ok.1 h
  rcases names with _ | names
  · obtain ⟨-, rfl⟩ := Prod.mk.inj (Except.ok.inj h)
    exact ht
  · obtain ⟨-, rfl⟩ := Prod.mk.inj (Except.ok.inj h)
    exact ht.congr rfl rfl

theorem openContents_tidy {members : Json} {status : Status} {named named' : Bool}
    (ht : Tidy d.toDataset) (h : openContents env d members named = .ok (status, d', named')) :
    Tidy d'.toDataset ∧ (status = .success → d'.status = .persistent) := by
  obtain ⟨rfl, rfl⟩ | ⟨list, ds, hfragments, h⟩ := openContents_eq_ok h
  · exact ⟨ht, nofun⟩
  have hds := Dataset.openFragments_tidy ht hfragments
  obtain ⟨rfl, rfl⟩ | ⟨grids, ds', opened, hgrids, h⟩ := h
  · exact ⟨hds, nofun⟩
  have hds' : Tidy ds' := (Dataset.openGrids_appends hgrids).tidy (hds.congr rfl rfl)
  obtain ⟨rfl, rfl⟩ | rfl := h
  · exact ⟨hds', nofun⟩
  · exact ⟨hds'.congr rfl rfl, fun _ => rfl⟩

/-- The table of a dataset that is opened is tidy, also if the description cannot be read. -/
theorem openMdParse_tidy {status : Status} {named : Bool} (ht : Tidy d.toDataset)
    (h : d.openMdParse env description = .ok (status, d', named)) :
    Tidy d'.toDataset ∧ (status = .success → d'.status = .persistent) := by
  obtain ⟨rfl, heq⟩ | ⟨id, sizes, dims, h⟩ := openMdParse_eq_ok h
  · rw [heq]
    exact ⟨ht.congr rfl rfl, nofun⟩
  have hd₁ : Tidy (d.described description id sizes).toDataset := ht.congr rfl rfl
  obtain ⟨rfl, rfl⟩ | ⟨x, named₁, h, hx⟩ := openNamed_eq_ok h
  · exact ⟨hd₁, nofun⟩
  obtain rfl | ⟨names, status₁, hnamed⟩ := hx
  · exact openContents_tidy hd₁ h
  · exact openContents_tidy (nameDims_tidy hd₁ hnamed) h

end DatasetObject

end Esdm
