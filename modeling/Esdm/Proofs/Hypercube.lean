import Mathlib.Data.List.Induction
import Mathlib.Data.Set.Lattice
import Mathlib.Order.CompletePartialOrder
import Esdm.Hypercube

/-!
# The points of hypercubes

The operations of `hypercube.c` in terms of points: intersection, overlap and subtraction do to the
arrays of ranges what their names say about the sets of points.
-/

namespace Esdm

namespace Range

theorem mem_intersection {x : ℤ} {r s : Range} :
    Mem x (r.intersection s) ↔ Mem x r ∧ Mem x s := by
  unfold Mem intersection
  dsimp only
  split_ifs <;> omega

theorem isEmpty_iff {r : Range} : r.isEmpty ↔ ∀ x, ¬ Mem x r := by
  unfold isEmpty Mem
  constructor
  · intro h x
    omega
  · intro h
    have := h r.start
    omega

theorem size_pos_iff {r : Range} : 0 < r.size ↔ ¬ r.isEmpty := by
  unfold size isEmpty
  split_ifs with h <;> omega

theorem size_nonneg (r : Range) : 0 ≤ r.size := by
  unfold size isEmpty
  split_ifs <;> omega

theorem size_of_not_isEmpty {r : Range} (h : ¬ r.isEmpty) : r.size = r.stop - r.start := if_neg h

end Range

namespace Hypercube

@[simp] theorem mem_points_nil {p : List ℤ} : p ∈ points [] ↔ p = [] := List.forall₂_nil_right_iff

@[simp] theorem mem_points_cons {x : ℤ} {p : List ℤ} {r : Range} {c : Hypercube} :
    x :: p ∈ points (r :: c) ↔ Range.Mem x r ∧ p ∈ points c := List.forall₂_cons

theorem mem_points_cons_iff {p : List ℤ} {r : Range} {c : Hypercube} :
    p ∈ points (r :: c) ↔ ∃ x q, p = x :: q ∧ Range.Mem x r ∧ q ∈ points c := by
  rcases p with _ | ⟨x, p⟩
  · constructor
    · rintro ⟨⟩
    · rintro ⟨x, q, ⟨⟩, -⟩
  · rw [mem_points_cons]
    constructor
    · rintro ⟨hx, hp⟩
      exact ⟨x, p, rfl, hx, hp⟩
    · rintro ⟨_, _, ⟨rfl, rfl⟩, hx, hp⟩
      exact ⟨hx, hp⟩

theorem length_of_mem_points {p : List ℤ} {c : Hypercube} (h : p ∈ points c) :
    p.length = c.length := List.Forall₂.length_eq h

theorem mem_points_append {p : List ℤ} {a b : Hypercube} :
    p ∈ points (a ++ b) ↔ ∃ d q, p = d ++ q ∧ d ∈ points a ∧ q ∈ points b := by
  constructor
  · intro h
    refine ⟨p.take a.length, p.drop a.length, (List.take_append_drop _ _).symm, ?_, ?_⟩
    · exact List.forall₂_take_append p a b h
    · exact List.forall₂_drop_append p a b h
  · rintro ⟨d, q, rfl, hd, hq⟩
    exact List.rel_append hd hq

theorem points_nonempty_iff : ∀ {c : Hypercube}, (points c).Nonempty ↔ ¬ isEmpty c
  | [] => by simp [isEmpty, Set.Nonempty]
  | r :: c => by
    have ih := points_nonempty_iff (c := c)
    have h : isEmpty (r :: c) ↔ r.isEmpty ∨ isEmpty c := by simp [isEmpty]
    rw [h, not_or, ← ih]
    constructor
    · rintro ⟨p, hp⟩
      obtain ⟨x, q, rfl, hx, hq⟩ := mem_points_cons_iff.1 hp
      exact ⟨fun he => Range.isEmpty_iff.1 he x hx, q, hq⟩
    · rintro ⟨hr, q, hq⟩
      rw [Range.isEmpty_iff] at hr
      push Not at hr
      obtain ⟨x, hx⟩ := hr
      exact ⟨x :: q, mem_points_cons.2 ⟨hx, hq⟩⟩

theorem doesIntersect_iff : ∀ {a b : Hypercube}, a.length = b.length →
    (doesIntersect a b ↔ (points a ∩ points b).Nonempty)
  | [], [], _ => by simp [doesIntersect, Set.Nonempty]
  | r :: a, s :: b, h => by
    have ih := doesIntersect_iff (a := a) (b := b) (by simpa using h)
    have hr : ¬ (r.intersection s).isEmpty ↔ ∃ x, Range.Mem x r ∧ Range.Mem x s := by
      rw [Range.isEmpty_iff]
      push Not
      simp only [Range.mem_intersection]
    rw [doesIntersect, ih, hr]
    constructor
    · rintro ⟨⟨x, hx⟩, p, hp⟩
      exact ⟨x :: p, mem_points_cons.2 ⟨hx.1, hp.1⟩, mem_points_cons.2 ⟨hx.2, hp.2⟩⟩
    · rintro ⟨p, hpa, hpb⟩
      obtain ⟨x, q, rfl, hx, hq⟩ := mem_points_cons_iff.1 hpa
      rw [mem_points_cons] at hpb
      exact ⟨⟨x, hx, hpb.1⟩, q, hq, hpb.2⟩

theorem not_doesIntersect_iff {a b : Hypercube} (h : a.length = b.length) :
    ¬ doesIntersect a b ↔ ∀ p ∈ points a, p ∉ points b := by
  rw [doesIntersect_iff h, Set.not_nonempty_iff_eq_empty, Set.eq_empty_iff_forall_notMem]
  exact ⟨fun h p ha hb => h p ⟨ha, hb⟩, fun h p hp => h p hp.1 hp.2⟩

theorem overlap_ne_zero_iff : ∀ {a b : Hypercube}, overlap a b ≠ 0 ↔ doesIntersect a b
  | [], _ => by simp [overlap, doesIntersect]
  | _ :: _, [] => by simp [overlap, doesIntersect]
  | r :: a, s :: b => by
    have ih := overlap_ne_zero_iff (a := a) (b := b)
    have hs : (r.intersection s).size ≠ 0 ↔ ¬ (r.intersection s).isEmpty := by
      rw [← Range.size_pos_iff]
      have := Range.size_nonneg (r.intersection s)
      omega
    unfold overlap at ih ⊢
    rw [List.zipWith_cons_cons, List.prod_cons, ne_eq, Int.mul_eq_zero, not_or, doesIntersect, ← ih,
      ← hs]

theorem makeIntersection_eq_some_iff : ∀ {a b c : Hypercube}, a.length = b.length →
    (makeIntersection a b = some c ↔
      doesIntersect a b ∧ c = List.zipWith Range.intersection a b)
  | [], [], c, _ => by simp [makeIntersection, doesIntersect, eq_comm]
  | r :: a, s :: b, c, h => by
    have ih := fun c => makeIntersection_eq_some_iff (a := a) (b := b) (c := c) (by simpa using h)
    rw [makeIntersection, doesIntersect]
    split_ifs with he
    · simp [he]
    · simp only [Option.map_eq_some_iff, ih, he, not_false_eq_true, true_and,
        List.zipWith_cons_cons]
      constructor
      · rintro ⟨c', ⟨hd, rfl⟩, rfl⟩
        exact ⟨hd, rfl⟩
      · rintro ⟨hd, rfl⟩
        exact ⟨_, ⟨hd, rfl⟩, rfl⟩

theorem mem_points_zipWith_intersection : ∀ {a b : Hypercube} {p : List ℤ}, a.length = b.length →
    (p ∈ points (List.zipWith Range.intersection a b) ↔ p ∈ points a ∧ p ∈ points b)
  | [], [], p, _ => by simp
  | r :: a, s :: b, p, h => by
    rcases p with _ | ⟨x, p⟩
    · simp [mem_points_cons_iff]
    · have ih := mem_points_zipWith_intersection (a := a) (b := b) (p := p) (by simpa using h)
      rw [List.zipWith_cons_cons, mem_points_cons, mem_points_cons, mem_points_cons, ih,
        Range.mem_intersection]
      tauto

theorem size_pos_of_nonempty : ∀ {c : Hypercube}, ¬ isEmpty c → 0 < size c
  | [], _ => by simp [size]
  | r :: c, h => by
    have h' : ¬ r.isEmpty ∧ ¬ isEmpty c := by simpa [isEmpty, not_or] using h
    have ih := size_pos_of_nonempty h'.2
    unfold size at ih ⊢
    rw [List.map_cons, List.prod_cons]
    exact Int.mul_pos (Range.size_pos_iff.2 h'.1) ih

end Hypercube

namespace HypercubeSet

theorem mem_points {s : HypercubeSet} {p : List ℤ} :
    p ∈ points s ↔ ∃ c ∈ s, p ∈ Hypercube.points c := Iff.rfl

@[simp] theorem mem_points_append {s t : HypercubeSet} {p : List ℤ} :
    p ∈ points (s ++ t) ↔ p ∈ points s ∨ p ∈ points t := by
  simp only [mem_points, List.mem_append, or_and_right, exists_or]

@[simp] theorem mem_points_cons {c : Hypercube} {s : HypercubeSet} {p : List ℤ} :
    p ∈ points (c :: s) ↔ p ∈ Hypercube.points c ∨ p ∈ points s := by
  simp only [mem_points, List.mem_cons, exists_eq_or_imp]

@[simp] theorem points_nil : points [] = ∅ := by simp [points]

theorem points_perm {s t : HypercubeSet} (h : s.Perm t) : points s = points t := by
  simp only [points, h.mem_iff]

section Subtract

theorem mem_splitRange {m s : Range} (h : ¬ (m.intersection s).isEmpty) {x : ℤ} :
    (∃ r ∈ splitRange m s, Range.Mem x r) ↔ Range.Mem x m ∧ ¬ Range.Mem x s := by
  unfold Range.isEmpty Range.intersection at h
  unfold splitRange Range.Mem
  dsimp only at h ⊢
  split_ifs at h ⊢ <;> simp_all <;> omega

theorem splitRange_not_isEmpty {m s : Range} (h : ¬ (m.intersection s).isEmpty) :
    ∀ r ∈ splitRange m s, ¬ r.isEmpty := by
  unfold Range.isEmpty Range.intersection at h
  unfold splitRange Range.isEmpty
  dsimp only at h ⊢
  split_ifs at h ⊢ <;> simp <;> omega

/-- The cubes that are added again are what is left of the minuend. -/
theorem mem_points_remainders : ∀ {done m s : Hypercube} {p : List ℤ}, m.length = s.length →
    Hypercube.doesIntersect m s → (p ∈ points (remainders done m s) ↔
      ∃ d q, p = d ++ q ∧ d ∈ Hypercube.points done ∧ q ∈ Hypercube.points m
        ∧ q ∉ Hypercube.points s)
  | done, [], [], p, _, _ => by simp [remainders]
  | done, m :: ms, s :: ss, p, hl, hi => by
    have ih := @mem_points_remainders (done ++ [m.intersection s]) ms ss p (by simpa using hl) hi.2
    have hsplit := fun x => mem_splitRange (x := x) hi.1
    rw [remainders, mem_points_append, ih]
    constructor
    · rintro (⟨c, hc, hp⟩ | ⟨d, q, rfl, hd, hq, hn⟩)
      · obtain ⟨r, hr, rfl⟩ := List.mem_map.1 hc
        obtain ⟨d, q, rfl, hd, hq⟩ := Hypercube.mem_points_append.1 hp
        obtain ⟨x, q, rfl, hx, hq⟩ := Hypercube.mem_points_cons_iff.1 hq
        have hxm := (hsplit x).1 ⟨r, hr, hx⟩
        refine ⟨d, x :: q, rfl, hd, Hypercube.mem_points_cons.2 ⟨hxm.1, hq⟩, fun h => ?_⟩
        exact hxm.2 (Hypercube.mem_points_cons.1 h).1
      · obtain ⟨d', x', rfl, hd', hx'⟩ := Hypercube.mem_points_append.1 hd
        obtain ⟨x, y, rfl, hx, hy⟩ := Hypercube.mem_points_cons_iff.1 hx'
        obtain rfl := Hypercube.mem_points_nil.1 hy
        refine ⟨d', x :: q, by simp, hd', Hypercube.mem_points_cons.2
          ⟨(Range.mem_intersection.1 hx).1, hq⟩, fun h => ?_⟩
        exact hn (Hypercube.mem_points_cons.1 h).2
    · rintro ⟨d, q, rfl, hd, hq, hn⟩
      obtain ⟨x, q, rfl, hx, hq⟩ := Hypercube.mem_points_cons_iff.1 hq
      by_cases hxs : Range.Mem x s
      · refine .inr ⟨d ++ [x], q, by simp, Hypercube.mem_points_append.2
          ⟨d, [x], rfl, hd, ?_⟩, hq, fun h => hn (Hypercube.mem_points_cons.2 ⟨hxs, h⟩)⟩
        exact Hypercube.mem_points_cons.2 ⟨Range.mem_intersection.2 ⟨hx, hxs⟩, by simp⟩
      · obtain ⟨r, hr, hxr⟩ := (hsplit x).2 ⟨hx, hxs⟩
        refine .inl ⟨done ++ r :: ms, List.mem_map_of_mem hr, Hypercube.mem_points_append.2
          ⟨d, x :: q, rfl, hd, Hypercube.mem_points_cons.2 ⟨hxr, hq⟩⟩⟩

theorem remainders_length : ∀ {done m s c : Hypercube}, m.length = s.length →
    c ∈ remainders done m s → c.length = done.length + m.length
  | done, [], [], c, _, hc => by simp [remainders] at hc
  | done, m :: ms, s :: ss, c, hl, hc => by
    rw [remainders, List.mem_append, List.mem_map] at hc
    rcases hc with ⟨r, -, rfl⟩ | hc
    · simp
    · have := remainders_length (by simpa using hl) hc
      simp at this ⊢
      omega

theorem remainders_not_isEmpty : ∀ {done m s c : Hypercube}, m.length = s.length →
    Hypercube.doesIntersect m s → ¬ Hypercube.isEmpty done → ¬ Hypercube.isEmpty m →
    c ∈ remainders done m s → ¬ Hypercube.isEmpty c
  | done, [], [], c, _, _, _, _, hc => by simp [remainders] at hc
  | done, m :: ms, s :: ss, c, hl, hi, hd, hm, hc => by
    simp only [Hypercube.isEmpty, List.mem_cons, exists_eq_or_imp, not_or] at hm
    rw [remainders, List.mem_append, List.mem_map] at hc
    rcases hc with ⟨r, hr, rfl⟩ | hc
    · rintro ⟨t, ht, he⟩
      rcases List.mem_append.1 ht with ht | ht
      · exact hd ⟨t, ht, he⟩
      · rcases List.mem_cons.1 ht with rfl | ht
        · exact splitRange_not_isEmpty hi.1 t hr he
        · exact hm.2 ⟨t, ht, he⟩
    · refine remainders_not_isEmpty (by simpa using hl) hi.2 ?_ hm.2 hc
      rintro ⟨t, ht, he⟩
      rcases List.mem_append.1 ht with ht | ht
      · exact hd ⟨t, ht, he⟩
      · obtain rfl := List.mem_singleton.1 ht
        exact hi.1 he

/-- The last entry takes the place of the one that is removed. -/
theorem swapRemove_append_cons {α : Type*} (a : List α) (x : α) (b : List α) :
    ∃ t, swapRemove (a ++ x :: b) a.length = a ++ t ∧ t.Perm b := by
  rcases List.eq_nil_or_concat' b with rfl | ⟨b, z, rfl⟩
  · exact ⟨[], by simp [swapRemove], .refl _⟩
  · refine ⟨z :: b, ?_, (List.perm_append_singleton z b).symm⟩
    have h : (a ++ x :: (b ++ [z])).getLast? = some z := by
      rw [show a ++ x :: (b ++ [z]) = (a ++ x :: b) ++ [z] by simp, List.getLast?_concat]
    rw [swapRemove, h]
    simp only [List.set_append_right _ _ le_rfl, Nat.sub_self, List.set_cons_zero]
    rw [show a ++ z :: (b ++ [z]) = (a ++ z :: b) ++ [z] by simp, List.dropLast_concat]

/-- What a subtraction leaves of one cube. -/
def pieces (c m : Hypercube) : HypercubeSet :=
  if Hypercube.doesIntersect m c then remainders [] m c else [m]

/-- One round replaces an entry by its pieces, and leaves those before it alone. -/
theorem subtractAt_append_cons (c : Hypercube) (a : HypercubeSet) (x : Hypercube)
    (t : HypercubeSet) :
    ∃ t', subtractAt c (a ++ x :: t) a.length = a ++ t' ∧ t'.Perm (pieces c x ++ t) := by
  have hget : (a ++ x :: t)[a.length]? = some x := by simp
  rw [subtractAt, hget]
  dsimp only
  unfold pieces
  split_ifs
  · obtain ⟨t', ht', hperm⟩ := swapRemove_append_cons a x t
    refine ⟨t' ++ remainders [] x c, by rw [ht', List.append_assoc], ?_⟩
    exact List.perm_append_comm.trans (hperm.append_left _)
  · exact ⟨x :: t, rfl, .refl _⟩

/-- What the loop has reached when the entries of `t` are through and those of `a` are not. -/
theorem subtract_loop (c : Hypercube) (a t : HypercubeSet) :
    ((List.range a.length).reverse.foldl (subtractAt c) (a ++ t)).Perm
      (a.flatMap (pieces c) ++ t) := by
  induction a using List.reverseRecOn generalizing t with
  | nil => exact .refl _
  | append_singleton a x ih =>
    obtain ⟨t', ht', hperm⟩ := subtractAt_append_cons c a x t
    simp only [List.length_append, List.length_singleton, List.range_succ, List.reverse_append,
      List.reverse_singleton, List.singleton_append, List.foldl_cons, List.append_assoc, ht']
    rw [List.flatMap_append, List.flatMap_singleton, List.append_assoc]
    exact (ih t').trans (hperm.append_left _)

/-- Although the loop appends to the array and shrinks it as it goes, each entry is replaced by its
pieces. -/
theorem subtract_perm (s : HypercubeSet) (c : Hypercube) :
    (subtract s c).Perm (s.flatMap (pieces c)) := by
  have h := subtract_loop c s []
  rwa [List.append_nil, List.append_nil] at h

/-- The entry that a round looks at has not been touched before. -/
theorem getElem?_rounds (c : Hypercube) (a : HypercubeSet) (x : Hypercube) (t : HypercubeSet) :
    (((List.range' (a.length + 1) t.length).reverse.foldl (subtractAt c) (a ++ x :: t)))[a.length]?
      = some x := by
  suffices h : ∀ (b u : HypercubeSet), ∃ u', ((List.range' (a.length + 1) b.length).reverse.foldl
      (subtractAt c) (a ++ x :: (b ++ u))) = a ++ x :: u' by
    obtain ⟨u', hu'⟩ := h t []
    rw [List.append_nil] at hu'
    simp [hu']
  intro b
  induction b using List.reverseRecOn with
  | nil => exact fun u => ⟨u, rfl⟩
  | append_singleton b y ih =>
    intro u
    obtain ⟨u', hu', -⟩ := subtractAt_append_cons c (a ++ x :: b) y u
    obtain ⟨v, hv⟩ := ih u'
    refine ⟨v, ?_⟩
    simp only [List.append_assoc, List.cons_append, List.length_append, List.length_cons] at hu'
    rw [List.length_append, List.length_singleton, List.range'_concat, List.reverse_append,
      List.reverse_singleton, List.singleton_append, List.foldl_cons, List.append_assoc,
      List.singleton_append, one_mul, Nat.add_right_comm, Nat.add_assoc, hu', hv]

/-- A set of hypercubes of one rank, none of them empty. -/
def Wf (dims : ℕ) (s : HypercubeSet) : Prop := ∀ k ∈ s, k.length = dims ∧ ¬ Hypercube.isEmpty k

/-- No two of the hypercubes share a point. -/
def PairwiseDisjoint (s : HypercubeSet) : Prop :=
  s.Pairwise fun a b => Disjoint (Hypercube.points a) (Hypercube.points b)

theorem PairwiseDisjoint.perm {s t : HypercubeSet} (h : PairwiseDisjoint s) (hp : s.Perm t) :
    PairwiseDisjoint t :=
  (hp.pairwise_iff fun hd => hd.symm).1 h

/-- The parts before and behind the subtrahend do not meet. -/
theorem splitRange_pairwise {m s : Range} (h : ¬ (m.intersection s).isEmpty) :
    (splitRange m s).Pairwise fun r r' => ∀ x, Range.Mem x r → ¬ Range.Mem x r' := by
  unfold Range.isEmpty Range.intersection at h
  unfold splitRange Range.Mem
  dsimp only at h ⊢
  split_ifs at h ⊢ <;> simp_all <;> omega

/-- A coordinate in which the points of two hypercubes differ keeps the hypercubes apart. -/
theorem disjoint_points_of_getElem? {a b : Hypercube} {i : ℕ}
    (h : ∀ p q x, p ∈ Hypercube.points a → q ∈ Hypercube.points b → p[i]? = some x →
      q[i]? = some x → False) (ha : i < a.length) :
    Disjoint (Hypercube.points a) (Hypercube.points b) := by
  rw [Set.disjoint_left]
  intro p hp hq
  have hlt : i < p.length := by rwa [Hypercube.length_of_mem_points hp]
  exact h p p p[i] hp hq (List.getElem?_eq_getElem hlt) (List.getElem?_eq_getElem hlt)

theorem remainders_pairwiseDisjoint : ∀ {done m s : Hypercube}, m.length = s.length →
    Hypercube.doesIntersect m s → PairwiseDisjoint (remainders done m s)
  | done, [], [], _, _ => .nil
  | done, m :: ms, s :: ss, hl, hi => by
    -- the coordinate of a point in the dimension that is cut
    have hat : ∀ {e : Hypercube} {r : Range} {p : List ℤ} {x : ℤ},
        p ∈ Hypercube.points (done ++ r :: e) → p[done.length]? = some x → Range.Mem x r := by
      intro e r p x hp hx
      obtain ⟨d, q, rfl, hd, hq⟩ := Hypercube.mem_points_append.1 hp
      obtain ⟨y, q, rfl, hy, -⟩ := Hypercube.mem_points_cons_iff.1 hq
      rw [← Hypercube.length_of_mem_points hd, List.getElem?_append_right le_rfl, Nat.sub_self,
        List.getElem?_cons_zero] at hx
      exact Option.some.inj hx ▸ hy
    rw [remainders]
    refine List.pairwise_append.2 ⟨?_, remainders_pairwiseDisjoint (by simpa using hl) hi.2, ?_⟩
    · rw [List.pairwise_map]
      refine (splitRange_pairwise hi.1).imp fun hr => ?_
      refine disjoint_points_of_getElem? (i := done.length) (fun p q x hp hq hx hx' => ?_) (by simp)
      exact hr x (hat hp hx) (hat hq hx')
    · intro a ha b hb
      obtain ⟨r, hr, rfl⟩ := List.mem_map.1 ha
      refine disjoint_points_of_getElem? (i := done.length) (fun p q x hp hq hx hx' => ?_) (by simp)
      obtain ⟨d, q, rfl, hd, -, -⟩ :=
        (mem_points_remainders (by simpa using hl) hi.2).1 ⟨b, hb, hq⟩
      have hlen : done.length < d.length := by rw [Hypercube.length_of_mem_points hd]; simp
      rw [List.getElem?_append_left hlen] at hx'
      have hs := Range.mem_intersection.1 (hat (e := []) hd hx')
      exact ((mem_splitRange hi.1).1 ⟨r, hr, hat hp hx⟩).2 hs.2

section Pieces

variable {c m : Hypercube}

theorem pieces_wf (hl : m.length = c.length) (hm : ¬ Hypercube.isEmpty m) :
    Wf c.length (pieces c m) := by
  unfold pieces
  split_ifs with hi
  · intro k hk
    refine ⟨?_, remainders_not_isEmpty hl hi (by simp [Hypercube.isEmpty]) hm hk⟩
    rw [remainders_length hl hk]
    simpa using hl
  · intro k hk
    obtain rfl := List.mem_singleton.1 hk
    exact ⟨hl, hm⟩

theorem mem_points_pieces (hl : m.length = c.length) {p : List ℤ} :
    p ∈ points (pieces c m) ↔ p ∈ Hypercube.points m ∧ p ∉ Hypercube.points c := by
  unfold pieces
  split_ifs with hi
  · simp [mem_points_remainders hl hi]
  · have hd := (Hypercube.not_doesIntersect_iff hl).1 hi p
    simp only [mem_points_cons, points_nil, Set.mem_empty_iff_false, or_false]
    exact ⟨fun h => ⟨h, hd h⟩, And.left⟩

theorem pieces_pairwiseDisjoint (hl : m.length = c.length) : PairwiseDisjoint (pieces c m) := by
  unfold pieces
  split_ifs with hi
  · exact remainders_pairwiseDisjoint hl hi
  · exact List.pairwise_singleton ..

end Pieces

theorem subtract_spec {dims : ℕ} {s : HypercubeSet} {c : Hypercube} (hs : Wf dims s)
    (hc : c.length = dims) : Wf dims (subtract s c)
      ∧ points (subtract s c) = points s \ Hypercube.points c := by
  subst hc
  have hperm := subtract_perm s c
  constructor
  · intro k hk
    obtain ⟨m, hm, hk⟩ := List.mem_flatMap.1 (hperm.mem_iff.1 hk)
    exact pieces_wf (hs m hm).1 (hs m hm).2 k hk
  · rw [points_perm hperm]
    ext p
    simp only [mem_points, List.mem_flatMap, Set.mem_sdiff]
    constructor
    · rintro ⟨k, ⟨m, hm, hk⟩, hp⟩
      have h := (mem_points_pieces (hs m hm).1).1 ⟨k, hk, hp⟩
      exact ⟨⟨m, hm, h.1⟩, h.2⟩
    · rintro ⟨⟨m, hm, hp⟩, hn⟩
      obtain ⟨k, hk, hp⟩ := (mem_points_pieces (hs m hm).1).2 ⟨hp, hn⟩
      exact ⟨k, ⟨m, hm, hk⟩, hp⟩

theorem subtract_pairwiseDisjoint {dims : ℕ} {s : HypercubeSet} {c : Hypercube} (hs : Wf dims s)
    (hc : c.length = dims) (hd : PairwiseDisjoint s) : PairwiseDisjoint (subtract s c) := by
  subst hc
  refine PairwiseDisjoint.perm (List.pairwise_flatMap.2 ⟨fun m hm => ?_, ?_⟩)
    (subtract_perm s c).symm
  · exact pieces_pairwiseDisjoint (hs m hm).1
  · refine hd.imp_of_mem fun {m m'} hm hm' hdis k hk k' hk' => ?_
    rw [Set.disjoint_left] at hdis ⊢
    intro p hp hp'
    exact hdis ((mem_points_pieces (hs m hm).1).1 ⟨k, hk, hp⟩).1
      ((mem_points_pieces (hs m' hm').1).1 ⟨k', hk', hp'⟩).1

/-- The subtraction is the set difference.  It leaves no empty cubes, keeps disjoint cubes disjoint,
and never looks past the end of the array. -/
theorem subtract_correct {dims : ℕ} {s : HypercubeSet} {c : Hypercube} (hs : Wf dims s)
    (hc : c.length = dims) :
    points (subtract s c) = points s \ Hypercube.points c ∧ Wf dims (subtract s c)
      ∧ (PairwiseDisjoint s → PairwiseDisjoint (subtract s c))
      ∧ ∀ a x t, s = a ++ x :: t →
        ((List.range' (a.length + 1) t.length).reverse.foldl (subtractAt c) s)[a.length]?
          = some x := by
  obtain ⟨hwf, hpoints⟩ := subtract_spec hs hc
  refine ⟨hpoints, hwf, subtract_pairwiseDisjoint hs hc, ?_⟩
  rintro a x t rfl
  exact getElem?_rounds c a x t

theorem subtract_correct_square :
    points (subtract [[⟨0, 3⟩, ⟨0, 3⟩]] [⟨1, 2⟩, ⟨1, 2⟩])
        = points [[⟨0, 3⟩, ⟨0, 3⟩]] \ Hypercube.points [⟨1, 2⟩, ⟨1, 2⟩]
      ∧ subtract [[⟨0, 3⟩, ⟨0, 3⟩]] [⟨1, 2⟩, ⟨1, 2⟩]
        = [[⟨0, 1⟩, ⟨0, 3⟩], [⟨2, 3⟩, ⟨0, 3⟩], [⟨1, 2⟩, ⟨0, 1⟩], [⟨1, 2⟩, ⟨2, 3⟩]] :=
  ⟨(@subtract_correct 2 _ _ (by simp only [Wf]; decide) rfl).1, by decide⟩

end Subtract

/-- Without empty cubes the test for emptiness is exact, and leaves the set alone. -/
theorem isEmpty_eq {dims : ℕ} {s : HypercubeSet} (hs : Wf dims s) :
    isEmpty s = (decide (s = []), s) := by
  have h : s.reverse.dropWhile (fun c => decide (Hypercube.isEmpty c)) = s.reverse := by
    rcases hr : s.reverse with _ | ⟨c, t⟩
    · rfl
    · have hc : c ∈ s := by rw [← List.mem_reverse, hr]; simp
      rw [List.dropWhile_cons_of_neg (by simpa using (hs c hc).2)]
  unfold isEmpty
  rw [h, List.reverse_reverse]
  rcases s with _ | ⟨c, t⟩ <;> simp

theorem points_eq_empty_iff {dims : ℕ} {s : HypercubeSet} (hs : Wf dims s) :
    points s = ∅ ↔ s = [] := by
  constructor
  · intro h
    rcases s with _ | ⟨c, s⟩
    · rfl
    · obtain ⟨p, hp⟩ := Hypercube.points_nonempty_iff.2 (hs c (by simp)).2
      exact absurd (show p ∈ points (c :: s) from ⟨c, by simp, hp⟩) (by simp [h])
  · rintro rfl
    simp

end HypercubeSet

end Esdm
