import Mathlib.Data.Set.Function

/-!
# Painting parts of a memory

The things of a set have their values put at their places, and all other places stay as they are.
Where different things have different places, one set can be painted after another.
-/

/-- The places of `s` have the things' values, the others are as before. -/
structure Paints {α ι V : Type*} (place : α → ι) (value : α → Option V) (s : Set α)
    (m m' : ι → V) : Prop where
  painted : ∀ a ∈ s, value a = some (m' (place a))
  kept : ∀ i, (∀ a ∈ s, place a ≠ i) → m' i = m i

namespace Paints

variable {α ι V : Type*} {place : α → ι} {value : α → Option V} {r s t : Set α}
  {m m₁ m₂ m₃ : ι → V}

theorem refl (place : α → ι) (value : α → Option V) (m : ι → V) : Paints place value ∅ m m :=
  ⟨fun _ ha => ha.elim, fun _ _ => rfl⟩

theorem apply_of_notMem (h : Paints place value s m₁ m₂) (hinj : Set.InjOn place r) (hs : s ⊆ r)
    {a : α} (ha : a ∈ r) (hn : a ∉ s) : m₂ (place a) = m₁ (place a) :=
  h.kept _ fun _ hb he => hn (hinj (hs hb) ha he ▸ hb)

theorem trans (h : Paints place value s m₁ m₂) (h' : Paints place value t m₂ m₃)
    (hinj : Set.InjOn place (s ∪ t)) : Paints place value (s ∪ t) m₁ m₃ where
  painted a ha := by
    by_cases ht : a ∈ t
    · exact h'.painted a ht
    · rw [h'.apply_of_notMem hinj Set.subset_union_right ha ht]
      exact h.painted a (ha.resolve_right ht)
  kept i hi := by
    rw [h'.kept i fun a ha => hi a (.inr ha)]
    exact h.kept i fun a ha => hi a (.inl ha)

end Paints
