import Mathlib.Data.List.Nodup

/-!
# Lists of records, one of which is replaced

When no two records have the same key and a record is replaced by one of its key, the others are
those with other keys.
-/

namespace List

variable {α κ : Type*} {key : α → κ} {l : List α} {i : ℕ} {a a' : α}

theorem map_set_of_key_eq (ha : l[i]? = some a) (hkey : key a' = key a) :
    (l.set i a').map key = l.map key := by
  have hget : (l.map key)[i]? = some (key a) := by simp [ha]
  obtain ⟨hi, hself⟩ := getElem?_eq_some_iff.1 hget
  rw [map_set, hkey, ← hself, set_getElem_self hi]

variable (hn : (l.map key).Nodup) (ha : l[i]? = some a)

include hn ha

theorem eq_of_key_eq {b : α} (hb : b ∈ l) (hkey : key b = key a) : b = a :=
  inj_on_of_nodup_map hn hb (mem_of_getElem? ha) hkey

theorem mem_set_iff_of_nodup_key {b : α} :
    b ∈ l.set i a' ↔ b = a' ∨ (b ∈ l ∧ key b ≠ key a) := by
  have hi := (getElem?_eq_some_iff.1 ha).1
  have hget : (l.map key)[i]? = some (key a) := by simp [ha]
  constructor
  · intro hm
    obtain ⟨j, hj⟩ := mem_iff_getElem?.1 hm
    by_cases hji : j = i
    · rw [hji, getElem?_set_self hi] at hj
      exact .inl (Option.some.inj hj).symm
    · rw [getElem?_set_ne (Ne.symm hji)] at hj
      refine .inr ⟨mem_of_getElem? hj, fun heq => hji ?_⟩
      have hlt : j < (l.map key).length := by
        rw [length_map]
        exact (getElem?_eq_some_iff.1 hj).1
      refine (getElem?_inj hlt hn).1 ?_
      rw [hget, getElem?_map, hj, Option.map_some, heq]
  · rintro (rfl | ⟨hm, hne⟩)
    · exact mem_set hi _
    · obtain ⟨j, hj⟩ := mem_iff_getElem?.1 hm
      have hji : i ≠ j := by
        rintro rfl
        exact hne (congrArg key (Option.some.inj (hj.symm.trans ha)))
      refine mem_of_getElem? (i := j) ?_
      rw [getElem?_set_ne hji, hj]

end List
