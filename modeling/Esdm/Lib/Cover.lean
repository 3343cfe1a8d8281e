import Mathlib.Data.Set.Lattice

/-!
# Covers

A family of sets, and the subfamilies with the same union.  Members are looked at one after another
and dropped if the others that are left cover them.  In any order this keeps the union, and in the
end no member is covered by the others.
-/

namespace Cover

variable {ι α : Type*} {A : ι → Set α} {s t checked : Set ι} {k : ι}

/-- The union of a subfamily. -/
def union (A : ι → Set α) (s : Set ι) : Set α := ⋃ i ∈ s, A i

/-- The other members of the subfamily cover this one. -/
def Redundant (A : ι → Set α) (s : Set ι) (k : ι) : Prop := A k ⊆ union A (s \ {k})

theorem mem_union {p : α} : p ∈ union A s ↔ ∃ i ∈ s, p ∈ A i := by simp [union]

theorem union_mono (h : s ⊆ t) : union A s ⊆ union A t := Set.biUnion_subset_biUnion_left h

theorem Redundant.mono (h : Redundant A s k) (hst : s ⊆ t) : Redundant A t k :=
  h.trans (union_mono (Set.sdiff_subset_sdiff_left hst))

theorem Redundant.union_eq (h : Redundant A s k) : union A (s \ {k}) = union A s := by
  refine (union_mono Set.sdiff_subset).antisymm fun p hp => ?_
  obtain ⟨i, hi, hpi⟩ := mem_union.1 hp
  by_cases hik : i = k
  · exact h (hik ▸ hpi)
  · exact mem_union.2 ⟨i, ⟨hi, hik⟩, hpi⟩

/-- How far the search is: the subfamily has the union of the whole family, and no member that has
been looked at is covered by the others. -/
structure Search (A : ι → Set α) (checked s : Set ι) : Prop where
  union_eq : union A s = union A Set.univ
  irredundant : ∀ i ∈ checked, i ∈ s → ¬ Redundant A s i

theorem Search.drop (h : Search A checked s) (hk : Redundant A s k) :
    Search A (insert k checked) (s \ {k}) := by
  refine ⟨hk.union_eq.trans h.union_eq, ?_⟩
  rintro i (rfl | hi) ⟨his, hik⟩
  · exact absurd rfl hik
  · exact fun hr => h.irredundant i hi his (hr.mono Set.sdiff_subset)

theorem Search.keep (h : Search A checked s) (hk : ¬ Redundant A s k) :
    Search A (insert k checked) s := by
  refine ⟨h.union_eq, ?_⟩
  rintro i (rfl | hi) his
  · exact hk
  · exact h.irredundant i hi his

end Cover
