import Mathlib.Data.List.Pairwise
import Mathlib.Data.List.TakeWhile
import Mathlib.Algebra.Order.Group.Unbundled.Abs
import Mathlib.Tactic.Linarith
import Esdm.BoundList

/-!
# What a bound list holds

An implementation of bound lists is right if each of its states stands for a sorted list of entries:
adding puts an entry into the list, and the enumeration finds the entries with the bound it looks
for, one after another.  The sorted array is right.
-/

namespace Esdm

variable {ι : Type}

section Baked

/-- Bounds whose baked form does not overflow. -/
def InBounds (bound : ℤ) : Prop := |bound| < 2 ^ 62 - 1

instance (bound : ℤ) : Decidable (InBounds bound) := inferInstanceAs (Decidable (_ < _))

/-- The baked form of a bound. -/
def baked (bound : ℤ) (isStart : Bool) : ℤ := 2 * bound + if isStart then 1 else 0

theorem baked_inj {b b' : ℤ} {s s' : Bool} : baked b s = baked b' s' ↔ b = b' ∧ s = s' := by
  rcases s <;> rcases s' <;> simp [baked] <;> omega

theorem bakeBound_eq {bound : ℤ} (h : InBounds bound) (isStart : Bool) :
    bakeBound bound isStart = .ok (baked bound isStart) := by
  rw [InBounds, abs_lt] at h
  exact if_pos (by rcases isStart <;> simp <;> omega)

theorem int64_baked_sub_one {bound : ℤ} (h : InBounds bound) (isStart : Bool) :
    int64 (baked bound isStart - 1) = .ok (baked bound isStart - 1) := by
  rw [InBounds, abs_lt] at h
  exact if_pos (by rcases isStart <;> simp [baked] <;> omega)

end Baked

section Sorted

/-- Entries in the order of their bounds. -/
abbrev Sorted (l : List (BoundListEntry ι)) : Prop :=
  l.Pairwise fun x y => x.bakedBound ≤ y.bakedBound

/-- The entries with the given bound. -/
def withBound (b : ℤ) (l : List (BoundListEntry ι)) : List (BoundListEntry ι) :=
  l.filter fun x => x.bakedBound = b

/-- In a sorted list the entries with a bound follow those with smaller bounds, without a gap. -/
theorem withBound_append {b : ℤ} {A B : List (BoundListEntry ι)} (hA : ∀ x ∈ A, x.bakedBound < b)
    (hB : ∀ x ∈ B, ¬ x.bakedBound < b) (hsorted : Sorted B) :
    withBound b (A ++ B) = B.takeWhile fun x => x.bakedBound = b := by
  have hnil : withBound b A = [] := by
    refine List.filter_eq_nil_iff.2 fun x hx => ?_
    have := hA x hx
    simp
    omega
  rw [withBound, List.filter_append, ← withBound, hnil, List.nil_append]
  clear hA hnil
  induction B with
  | nil => rfl
  | cons x B ih =>
    have hrest := ih (fun y hy => hB y (List.mem_cons_of_mem _ hy)) hsorted.of_cons
    by_cases hx : x.bakedBound = b
    · simp [hx, hrest]
    · rw [List.takeWhile_cons_of_neg (by simpa using hx), List.filter_eq_nil_iff]
      intro y hy
      have := hB x List.mem_cons_self
      rcases List.mem_cons.1 hy with rfl | hy
      · simpa using hx
      · have := (List.pairwise_cons.1 hsorted).1 y hy
        simp
        omega

theorem withBound_perm {b : ℤ} {l l' : List (BoundListEntry ι)} (h : l.Perm l') :
    (withBound b l).Perm (withBound b l') := h.filter _

theorem length_withBound_le (b : ℤ) (l : List (BoundListEntry ι)) :
    (withBound b l).length ≤ l.length := List.length_filter_le _ l

end Sorted

namespace BoundListVtable

/-- A state of the implementation stands for a list of entries. -/
structure Implements (vtable : BoundListVtable ι)
    (Rep : vtable.Store → List (BoundListEntry ι) → Prop) : Prop where
  create : Rep vtable.create []
  add : ∀ {s l}, Rep s l → ∀ {bound}, InBounds bound → ∀ isStart i, ∃ s' l',
    vtable.add s bound isStart i = .ok s' ∧ Rep s' l' ∧ l'.Perm (⟨baked bound isStart, i⟩ :: l)
  enumerate : ∀ {s l}, Rep s l → ∀ {bound}, InBounds bound → ∀ isStart,
    (∀ fuel, (withBound (baked bound isStart) l).length ≤ fuel →
      vtable.enumerate fuel s bound isStart
        = .ok ((withBound (baked bound isStart) l).map BoundListEntry.cubeIndex))
    ∧ (vtable.findFirst s bound isStart = .ok none ↔ withBound (baked bound isStart) l = [])

/-- What a step of the enumeration finds: the next entry of the list, if it has the same bound. -/
def Found (vtable : BoundListVtable ι)
    (Points : vtable.Iterator → BoundListEntry ι → List (BoundListEntry ι) → Prop) (b : ℤ)
    (l : List (BoundListEntry ι)) (r : Option (BoundListEntry ι × vtable.Iterator)) : Prop :=
  (r = none ∧ ∀ x ∈ l.head?, x.bakedBound ≠ b)
    ∨ ∃ x l' it, l = x :: l' ∧ x.bakedBound = b ∧ r = some (x, it) ∧ Points it x l'

variable {vtable : BoundListVtable ι} {s : vtable.Store} {b : ℤ}
  {Points : vtable.Iterator → BoundListEntry ι → List (BoundListEntry ι) → Prop}

/-- If each iterator stands on an entry in front of the rest of the list, the enumeration goes
through the list as long as the bound stays. -/
theorem Found.entriesFrom {l : List (BoundListEntry ι)}
    {r : Option (BoundListEntry ι × vtable.Iterator)} (hr : Found vtable Points b l r)
    (hnext : ∀ it x l, Points it x l → ∃ r, vtable.nextEntry s it = .ok r
      ∧ Found vtable Points x.bakedBound l r) {fuel : ℕ}
    (hfuel : (l.takeWhile fun x => x.bakedBound = b).length ≤ fuel) :
    vtable.entriesFrom s fuel r
      = .ok ((l.takeWhile fun x => x.bakedBound = b).map BoundListEntry.cubeIndex) := by
  induction l generalizing fuel r with
  | nil =>
    rcases hr with ⟨rfl, -⟩ | ⟨x, l', it, hl, -⟩
    · rcases fuel <;> rfl
    · cases hl
  | cons x l ih =>
    rcases hr with ⟨rfl, hx⟩ | ⟨y, l', it, hl, hy, rfl, hp⟩
    · rw [List.takeWhile_cons_of_neg (by simpa using hx x rfl)]
      rcases fuel <;> rfl
    · obtain ⟨rfl, rfl⟩ := List.cons.inj hl
      rw [List.takeWhile_cons_of_pos (by simpa using hy)] at hfuel ⊢
      rcases fuel with _ | fuel
      · simp at hfuel
      obtain ⟨r, hr, hfound⟩ := hnext it x l hp
      rw [hy] at hfound
      rw [BoundListVtable.entriesFrom, hr, Outcome.ok_bind, ih hfound (by simpa using hfuel)]
      rfl

theorem enumerate_spec {l : List (BoundListEntry ι)} (hsorted : Sorted l) {bound : ℤ}
    {isStart : Bool} (hfind : ∃ A B r, l = A ++ B ∧ (∀ x ∈ A, x.bakedBound < baked bound isStart)
      ∧ (∀ x ∈ B, ¬ x.bakedBound < baked bound isStart) ∧ vtable.findFirst s bound isStart = .ok r
      ∧ Found vtable Points (baked bound isStart) B r)
    (hnext : ∀ it x l, Points it x l → ∃ r, vtable.nextEntry s it = .ok r
      ∧ Found vtable Points x.bakedBound l r) :
    (∀ fuel, (withBound (baked bound isStart) l).length ≤ fuel →
      vtable.enumerate fuel s bound isStart
        = .ok ((withBound (baked bound isStart) l).map BoundListEntry.cubeIndex))
    ∧ (vtable.findFirst s bound isStart = .ok none ↔ withBound (baked bound isStart) l = []) := by
  obtain ⟨A, B, r, rfl, hA, hB, hr, hfound⟩ := hfind
  rw [withBound_append hA hB (List.pairwise_append.1 hsorted).2.1]
  refine ⟨fun fuel hfuel => ?_, ?_⟩
  · rw [enumerate, hr, Outcome.ok_bind]
    exact hfound.entriesFrom hnext hfuel
  · rw [hr, Except.ok.injEq]
    rcases hfound with ⟨rfl, hx⟩ | ⟨x, l', it, rfl, hx, rfl, -⟩
    · rcases B with _ | ⟨x, B⟩
      · simp
      · simp [List.takeWhile_cons_of_neg, hx x rfl]
    · simp [hx]

end BoundListVtable

namespace BoundArray

variable {entries : List (BoundListEntry ι)} {b : ℤ}

theorem exists_split {M : List (BoundListEntry ι)} {i : ℕ} (h : i < M.length) :
    ∃ M₁ x M₂, M = M₁ ++ x :: M₂ ∧ M₁.length = i :=
  ⟨M.take i, M[i], M.drop (i + 1), by simp, by simp; omega⟩

/-- The search narrows the part `M` in which the first entry that is not below the bound is. -/
theorem lookupLoop_spec (hsorted : Sorted entries) {fuel : ℕ} {A M B : List (BoundListEntry ι)}
    (heq : entries = A ++ (M ++ B)) (hA : ∀ x ∈ A, x.bakedBound < b)
    (hB : ∀ x ∈ B, ¬ x.bakedBound < b) (hfuel : M.length ≤ fuel) :
    ∃ A' B', entries = A' ++ B'
      ∧ lookupLoop entries b fuel A.length (A.length + M.length) = .ok A'.length
      ∧ (∀ x ∈ A', x.bakedBound < b) ∧ ∀ x ∈ B', ¬ x.bakedBound < b := by
  induction fuel generalizing A M B with
  | zero =>
    obtain rfl : M = [] := List.eq_nil_of_length_eq_zero (by omega)
    exact ⟨A, B, heq, by simp [lookupLoop], hA, hB⟩
  | succ fuel ih =>
    rw [lookupLoop]
    by_cases hlt : A.length < A.length + M.length
    · obtain ⟨M₁, x, M₂, rfl, hlen⟩ :=
        exists_split (show (A.length + (A.length + M.length)) / 2 - A.length < M.length by omega)
      have hmid : (A.length + (A.length + (M₁ ++ x :: M₂).length)) / 2 = A.length + M₁.length := by
        omega
      have hx : entries[A.length + M₁.length]? = some x := by
        rw [heq, List.getElem?_append_right (by omega)]
        simp
      have hM : Sorted (M₁ ++ x :: M₂) := by
        rw [heq] at hsorted
        exact (List.pairwise_append.1 (List.pairwise_append.1 hsorted).2.1).1
      rw [List.length_append, List.length_cons] at hfuel
      rw [if_pos hlt, hmid]
      dsimp only
      rw [hx, access_some, Outcome.ok_bind]
      split
      · -- the entry and all in front of it are below the bound
        rename_i hxb
        have hend : A.length + (M₁ ++ x :: M₂).length = (A ++ (M₁ ++ [x])).length + M₂.length := by
          simp only [List.length_append, List.length_cons, List.length_nil]
          omega
        have hstart : A.length + M₁.length + 1 = (A ++ (M₁ ++ [x])).length := by
          simp only [List.length_append, List.length_cons, List.length_nil]
          omega
        rw [hend, hstart]
        refine ih (B := B) (by rw [heq]; simp) (fun y hy => ?_) hB (by omega)
        rcases List.mem_append.1 hy with hy | hy
        · exact hA y hy
        · rcases List.mem_append.1 hy with hy | hy
          · have := (List.pairwise_append.1 hM).2.2 y hy x List.mem_cons_self
            omega
          · exact List.mem_singleton.1 hy ▸ hxb
      · -- the entry and all behind it are not
        rename_i hxb
        refine ih (B := x :: M₂ ++ B) (by rw [heq]; simp) hA (fun y hy => ?_) (by omega)
        rcases List.mem_append.1 hy with hy | hy
        · rcases List.mem_cons.1 hy with rfl | hy
          · exact hxb
          · have := (List.pairwise_cons.1 (List.pairwise_append.1 hM).2.1).1 y hy
            omega
        · exact hB y hy
    · obtain rfl : M = [] := List.eq_nil_of_length_eq_zero (by omega)
      exact ⟨A, B, heq, by rw [if_neg hlt, List.length_nil, Nat.add_zero], hA, hB⟩

theorem lookup_spec (hsorted : Sorted entries) (b : ℤ) : ∃ A B, entries = A ++ B
    ∧ lookup entries b = .ok A.length
    ∧ (∀ x ∈ A, x.bakedBound < b) ∧ ∀ x ∈ B, ¬ x.bakedBound < b := by
  have := @lookupLoop_spec _ entries b hsorted entries.length [] entries [] (by simp) (by simp)
    (by simp) le_rfl
  simpa [lookup] using this

/-- The iterator is at an entry of the array. -/
def Points (entries : List (BoundListEntry ι)) (it : ℕ) (x : BoundListEntry ι)
    (l : List (BoundListEntry ι)) : Prop :=
  ∃ A, entries = A ++ x :: l ∧ it = A.length

theorem nextEntry_spec {it : ℕ} {x : BoundListEntry ι} {l : List (BoundListEntry ι)}
    (h : Points entries it x l) : ∃ r, nextEntry entries it = .ok r
      ∧ (boundArray ι).Found (Points entries) x.bakedBound l r := by
  obtain ⟨A, rfl, rfl⟩ := h
  rw [nextEntry]
  rcases l with _ | ⟨y, l⟩
  · exact ⟨none, if_pos (by simp), .inl ⟨rfl, by simp⟩⟩
  · have hx : (A ++ x :: y :: l)[A.length]? = some x := by simp
    have hy : (A ++ x :: y :: l)[A.length + 1]? = some y := by simp
    rw [if_neg (by simp), hx, hy, access_some, Outcome.ok_bind, access_some, Outcome.ok_bind]
    by_cases hxy : y.bakedBound = x.bakedBound
    · rw [if_neg (not_not_intro hxy)]
      exact ⟨_, rfl, .inr ⟨y, l, A.length + 1, rfl, hxy, rfl, A ++ [x], by simp, by simp⟩⟩
    · exact ⟨none, if_pos hxy, .inl ⟨rfl, by simpa using hxy⟩⟩

theorem findFirst_spec (hsorted : Sorted entries) {bound : ℤ} (hb : InBounds bound)
    (isStart : Bool) : ∃ A B r, entries = A ++ B
      ∧ (∀ x ∈ A, x.bakedBound < baked bound isStart)
      ∧ (∀ x ∈ B, ¬ x.bakedBound < baked bound isStart)
      ∧ findFirst entries bound isStart = .ok r
      ∧ (boundArray ι).Found (Points entries) (baked bound isStart) B r := by
  obtain ⟨A, B, heq, hlookup, hA, hB⟩ := lookup_spec hsorted (baked bound isStart)
  rw [findFirst, bakeBound_eq hb, Outcome.ok_bind, hlookup, Outcome.ok_bind]
  rcases B with _ | ⟨x, B⟩
  · exact ⟨A, [], none, heq, hA, hB, if_pos (by simp [heq]), .inl ⟨rfl, by simp⟩⟩
  · have hx : entries[A.length]? = some x := by simp [heq]
    rw [if_neg (by simp [heq]), hx, access_some, Outcome.ok_bind]
    by_cases hxb : x.bakedBound = baked bound isStart
    · rw [if_neg (not_not_intro hxb)]
      exact ⟨A, x :: B, _, heq, hA, hB, rfl, .inr ⟨x, B, A.length, rfl, hxb, rfl, A, heq, rfl⟩⟩
    · exact ⟨A, x :: B, none, heq, hA, hB, if_pos hxb, .inl ⟨rfl, by simpa using hxb⟩⟩

theorem insertIdx_length_append {α : Type} (A B : List α) (x : α) :
    (A ++ B).insertIdx A.length x = A ++ x :: B := by
  induction A with
  | nil => rfl
  | cons a A ih => simp [ih]

theorem add_spec (hsorted : Sorted entries) {bound : ℤ} (hb : InBounds bound) (isStart : Bool)
    (i : ι) : ∃ entries', add entries bound isStart i = .ok entries' ∧ Sorted entries'
      ∧ entries'.Perm (⟨baked bound isStart, i⟩ :: entries) := by
  obtain ⟨A, B, rfl, hlookup, hA, hB⟩ := lookup_spec hsorted (baked bound isStart)
  refine ⟨A ++ ⟨baked bound isStart, i⟩ :: B, ?_, ?_, List.perm_middle⟩
  · rw [add, bakeBound_eq hb, Outcome.ok_bind, hlookup, Outcome.ok_bind, insertIdx_length_append]
    rfl
  · obtain ⟨hsA, hsB, hAB⟩ := List.pairwise_append.1 hsorted
    refine List.pairwise_append.2
      ⟨hsA, List.pairwise_cons.2 ⟨fun y hy => not_lt.1 (hB y hy), hsB⟩, ?_⟩
    intro x hx y hy
    rcases List.mem_cons.1 hy with rfl | hy
    · exact (hA x hx).le
    · exact hAB x hx y hy

/-- The array is the sorted list. -/
def Rep (s l : List (BoundListEntry ι)) : Prop := s = l ∧ Sorted l

theorem implements : (boundArray ι).Implements Rep where
  create := ⟨rfl, List.Pairwise.nil⟩
  add := by
    rintro s l ⟨rfl, hsorted⟩ bound hb isStart i
    obtain ⟨s', heq, hsorted', hperm⟩ := add_spec hsorted hb isStart i
    exact ⟨s', s', heq, ⟨rfl, hsorted'⟩, hperm⟩
  enumerate := by
    rintro s l ⟨rfl, hsorted⟩ bound hb isStart
    exact BoundListVtable.enumerate_spec hsorted (findFirst_spec hsorted hb isStart)
      fun it x l h => nextEntry_spec h

end BoundArray

end Esdm
