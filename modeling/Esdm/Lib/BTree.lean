import Mathlib.Data.List.Flatten
import Mathlib.Data.List.Nodup
import Mathlib.Data.List.Pairwise
import Mathlib.Data.List.Perm.Subperm
import Mathlib.Data.List.TakeWhile

/-!
# B-trees in an arena

The nodes of a tree are cells of an arena; a node refers to its children and to its parent by their
index.  A place in such a tree is a subtree with the context it stands in.  All leaves have the same
height, so subtrees are indexed by their height and everything about them goes by induction on it.
-/

namespace BTree

/-- A node: its entries in order, its children (one more, all null in a leaf), and its parent. -/
structure Cell (α : Type) where
  bounds : List α
  children : List (Option ℕ)
  parent : Option ℕ

/-- A node with its address in the arena. -/
structure Node (κ α : Type) where
  addr : ℕ
  kids : List κ
  bounds : List α

/-- A subtree of the given height: the null pointer at height 0, and then a node. -/
def Subtree (α : Type) : ℕ → Type
  | 0 => Unit
  | n + 1 => Node (Subtree α n) α

/-- The place of a subtree: the parent's address, the subtrees and entries before and after. -/
inductive Place (α : Type) : ℕ → Type
  | top {n : ℕ} : Place α n
  | under {n : ℕ} (addr : ℕ) (before : List (Subtree α n × α)) (after : List (α × Subtree α n))
      (up : Place α (n + 1)) : Place α n

variable {α : Type}

section Weave

/-- Lists with single entries between them, in one list. -/
def weave : List (List α) → List α → List α
  | k :: ks, e :: es => k ++ e :: weave ks es
  | k :: _, [] => k
  | [], _ => []

theorem weave_slot {κ : Type} (f : κ → List α) (before : List (κ × α)) (k : κ)
    (after : List (α × κ)) :
    weave ((before.map Prod.fst ++ k :: after.map Prod.snd).map f)
        (before.map Prod.snd ++ after.map Prod.fst)
      = before.flatMap (fun p => f p.1 ++ [p.2]) ++ f k ++ after.flatMap fun p => p.1 :: f p.2 := by
  induction before with
  | nil =>
    induction after generalizing k with
    | nil => simp [weave]
    | cons p after ih => simpa [weave] using ih p.2
  | cons p before ih => simpa [weave] using ih

theorem weave_append {ks ks' : List (List α)} {es es' : List α} {e : α}
    (h : ks.length = es.length + 1) :
    weave (ks ++ ks') (es ++ e :: es') = weave ks es ++ e :: weave ks' es' := by
  induction es generalizing ks with
  | nil =>
    obtain ⟨k, rfl⟩ := List.length_eq_one_iff.1 h
    simp [weave]
  | cons e' es ih =>
    rcases ks with _ | ⟨k, ks⟩
    · simp at h
    · simp only [List.length_cons] at h
      simp [weave, ih (by omega : ks.length = es.length + 1)]

end Weave

namespace Subtree

@[match_pattern] def node {n : ℕ} (addr : ℕ) (kids : List (Subtree α n)) (bounds : List α) :
    Subtree α (n + 1) :=
  (⟨addr, kids, bounds⟩ : Node (Subtree α n) α)

/-- The pointer to a subtree. -/
def ptr : {n : ℕ} → Subtree α n → Option ℕ
  | 0, _ => none
  | _ + 1, node addr _ _ => some addr

/-- The entries in order. -/
def entries : (n : ℕ) → Subtree α n → List α
  | 0, _ => []
  | n + 1, node _ kids bounds => weave (kids.map (entries n)) bounds

/-- The addresses of the nodes. -/
def addrs : (n : ℕ) → Subtree α n → List ℕ
  | 0, _ => []
  | n + 1, node addr kids _ => addr :: kids.flatMap (addrs n)

/-- The node with a subtree at a place. -/
def ofSlot {n : ℕ} (addr : ℕ) (before : List (Subtree α n × α)) (k : Subtree α n)
    (after : List (α × Subtree α n)) : Subtree α (n + 1) :=
  node addr (before.map Prod.fst ++ k :: after.map Prod.snd)
    (before.map Prod.snd ++ after.map Prod.fst)

theorem entries_ofSlot {n : ℕ} (addr : ℕ) (before : List (Subtree α n × α)) (k : Subtree α n)
    (after : List (α × Subtree α n)) :
    (ofSlot addr before k after).entries (n + 1)
      = before.flatMap (fun p => p.1.entries n ++ [p.2]) ++ k.entries n
        ++ after.flatMap fun p => p.1 :: p.2.entries n :=
  weave_slot _ _ _ _

/-- The entries of a node that is split, with the entry that goes up between the halves. -/
theorem entries_halves {n : ℕ} (addr left right : ℕ) {ks₁ ks₂ : List (Subtree α n)}
    {es₁ es₂ : List α} {e : α} (h : ks₁.length = es₁.length + 1) :
    (node left ks₁ es₁).entries (n + 1) ++ e :: (node right ks₂ es₂).entries (n + 1)
      = (node addr (ks₁ ++ ks₂) (es₁ ++ e :: es₂)).entries (n + 1) := by
  refine (weave_append ?_).symm.trans (congrArg (weave · _) List.map_append.symm)
  rw [List.length_map]
  exact h

/-- Each child of a node is at some place. -/
theorem exists_ofSlot {n : ℕ} (addr : ℕ) {kids : List (Subtree α n)} {bounds : List α}
    (h : kids.length = bounds.length + 1) {i : ℕ} (hi : i ≤ bounds.length) :
    ∃ before k after, before.length = i ∧ node addr kids bounds = ofSlot addr before k after := by
  suffices ∃ (before : List (Subtree α n × α)) (k : Subtree α n) (after : List (α × Subtree α n)),
      before.length = i ∧ kids = before.map Prod.fst ++ k :: after.map Prod.snd
        ∧ bounds = before.map Prod.snd ++ after.map Prod.fst by
    obtain ⟨before, k, after, hlen, rfl, rfl⟩ := this
    exact ⟨before, k, after, hlen, rfl⟩
  induction i generalizing kids bounds with
  | zero =>
    rcases kids with _ | ⟨k, kids⟩
    · simp at h
    · have hlen : bounds.length = kids.length := by simpa using h.symm
      exact ⟨[], k, bounds.zip kids, rfl, by simp [List.map_snd_zip, hlen],
        by simp [List.map_fst_zip, hlen]⟩
  | succ i ih =>
    rcases bounds with _ | ⟨e, bounds⟩
    · simp at hi
    rcases kids with _ | ⟨k, kids⟩
    · simp at h
    obtain ⟨before, k', after, hlen, rfl, rfl⟩ := ih (by simpa using h) (by simpa using hi)
    exact ⟨(k, e) :: before, k', after, by simp [hlen], rfl, rfl⟩

end Subtree

namespace Place

/-- The parent's address. -/
def parent : {n : ℕ} → Place α n → Option ℕ
  | _, top => none
  | _, under addr _ _ _ => some addr

def depth : {n : ℕ} → Place α n → ℕ
  | _, top => 0
  | _, under _ _ _ up => up.depth + 1

/-- The entries in front of the place. -/
def left : {n : ℕ} → Place α n → List α
  | _, top => []
  | n, under _ before _ up => up.left ++ before.flatMap fun p => p.1.entries n ++ [p.2]

/-- The entries behind the place. -/
def right : {n : ℕ} → Place α n → List α
  | _, top => []
  | n, under _ _ after up => (after.flatMap fun p => p.1 :: p.2.entries n) ++ up.right

/-- The addresses of the nodes around the place. -/
def addrs : {n : ℕ} → Place α n → List ℕ
  | _, top => []
  | n, under addr before after up => addr :: ((before.map Prod.fst).flatMap (Subtree.addrs n)
      ++ (after.map Prod.snd).flatMap (Subtree.addrs n) ++ up.addrs)

end Place

section Filled

/-- Every node has at least `least` entries, the root of the subtree apart if the flag is set. -/
def Subtree.Filled (least : ℕ) : (n : ℕ) → Bool → Subtree α n → Prop
  | 0, _, _ => True
  | n + 1, root, .node _ kids bounds =>
    (root = false → least ≤ bounds.length) ∧ ∀ k ∈ kids, Filled least n false k

/-- Whether the place is that of the whole tree. -/
def Place.isTop : {n : ℕ} → Place α n → Bool
  | _, .top => true
  | _, .under _ _ _ _ => false

/-- The nodes around a place have at least `least` entries, the root of the tree apart. -/
def Place.Filled (least : ℕ) : {n : ℕ} → Place α n → Prop
  | _, .top => True
  | n, .under _ before after up => (up.isTop = false → least ≤ before.length + after.length)
      ∧ (∀ q ∈ before, q.1.Filled least n false) ∧ (∀ q ∈ after, q.2.Filled least n false)
      ∧ up.Filled least

theorem filled_under_iff {least n addr : ℕ} {before : List (Subtree α n × α)} {k : Subtree α n}
    {after : List (α × Subtree α n)} {c : Place α (n + 1)} :
    (Place.under addr before after c).Filled least ∧ k.Filled least n false
      ↔ c.Filled least ∧ (Subtree.ofSlot addr before k after).Filled least (n + 1) c.isTop := by
  simp only [Place.Filled, Subtree.ofSlot, Subtree.node, Subtree.Filled, List.length_append,
    List.length_map, List.forall_mem_append, List.forall_mem_cons, List.forall_mem_map]
  tauto

end Filled

section Arena

variable {capacity root : ℕ} {H H' : List (Cell α)}

/-- The arena holds a subtree whose root has the given parent, and no node has more entries than its
capacity. -/
def Rep (capacity : ℕ) (H : List (Cell α)) : (n : ℕ) → Option ℕ → Subtree α n → Prop
  | 0, _, _ => True
  | n + 1, parent, .node addr kids bounds =>
    H[addr]? = some ⟨bounds, kids.map Subtree.ptr, parent⟩ ∧ kids.length = bounds.length + 1
      ∧ bounds.length ≤ capacity ∧ ∀ k ∈ kids, Rep capacity H n (some addr) k

/-- The arena holds the nodes around a place at which the given pointer stands. -/
def RepPlace (capacity root : ℕ) (H : List (Cell α)) :
    {n : ℕ} → Place α n → Option ℕ → Prop
  | _, .top, p => p = some root
  | n, .under addr before after up, p =>
    H[addr]? = some ⟨before.map Prod.snd ++ after.map Prod.fst,
        (before.map Prod.fst).map Subtree.ptr ++ p :: (after.map Prod.snd).map Subtree.ptr,
          up.parent⟩
      ∧ before.length + after.length ≤ capacity
      ∧ (∀ q ∈ before, Rep capacity H n (some addr) q.1)
      ∧ (∀ q ∈ after, Rep capacity H n (some addr) q.2)
      ∧ RepPlace capacity root H up (some addr)

/-- A subtree at its place in the arena. -/
structure At (capacity root : ℕ) (H : List (Cell α)) {n : ℕ} (c : Place α n) (t : Subtree α n) :
    Prop where
  tree : Rep capacity H n c.parent t
  context : RepPlace capacity root H c t.ptr
  nodup : (t.addrs n ++ c.addrs).Nodup

theorem getElem?_concat_of_ne {a : ℕ} {cell : Cell α} (h : a ≠ H.length) :
    (H ++ [cell])[a]? = H[a]? := by
  rcases Nat.lt_or_gt_of_ne h with h | h
  · exact List.getElem?_append_left h
  · rw [List.getElem?_eq_none (by simp; omega), List.getElem?_eq_none (by omega)]

theorem Rep.congr {n : ℕ} {p : Option ℕ} {t : Subtree α n} (h : Rep capacity H n p t)
    (hH : ∀ a ∈ t.addrs n, H'[a]? = H[a]?) : Rep capacity H' n p t := by
  induction n generalizing p with
  | zero => trivial
  | succ n ih =>
    obtain ⟨addr, kids, bounds⟩ := t
    obtain ⟨hcell, hlen, hcap, hkids⟩ := h
    refine ⟨(hH addr List.mem_cons_self).trans hcell, hlen, hcap, fun k hk => ?_⟩
    exact ih (hkids k hk) fun a ha => hH a (List.mem_cons_of_mem _ (List.mem_flatMap.2 ⟨k, hk, ha⟩))

theorem Rep.lt_length {n : ℕ} {p : Option ℕ} {t : Subtree α n} (h : Rep capacity H n p t) :
    ∀ a ∈ t.addrs n, a < H.length := by
  induction n generalizing p with
  | zero => simp [Subtree.addrs]
  | succ n ih =>
    obtain ⟨addr, kids, bounds⟩ := t
    obtain ⟨hcell, -, -, hkids⟩ := h
    intro a ha
    rcases List.mem_cons.1 ha with rfl | ha
    · exact (List.getElem?_eq_some_iff.1 hcell).1
    · obtain ⟨k, hk, ha⟩ := List.mem_flatMap.1 ha
      exact ih (hkids k hk) a ha

theorem RepPlace.congr {n : ℕ} {c : Place α n} {p : Option ℕ}
    (h : RepPlace capacity root H c p) (hH : ∀ a ∈ c.addrs, H'[a]? = H[a]?) :
    RepPlace capacity root H' c p := by
  induction c generalizing p with
  | top => exact h
  | @under n addr before after up ih =>
    obtain ⟨hcell, hcap, hbefore, hafter, hup⟩ := h
    simp only [Place.addrs, List.mem_cons, List.mem_append, List.mem_flatMap, List.mem_map] at hH
    refine ⟨(hH addr (.inl rfl)).trans hcell, hcap, fun q hq => ?_, fun q hq => ?_, ?_⟩
    · exact (hbefore q hq).congr fun a ha => hH a (.inr (.inl (.inl ⟨q.1, ⟨q, hq, rfl⟩, ha⟩)))
    · exact (hafter q hq).congr fun a ha => hH a (.inr (.inl (.inr ⟨q.2, ⟨q, hq, rfl⟩, ha⟩)))
    · exact ih hup fun a ha => hH a (.inr (.inr ha))

theorem RepPlace.lt_length {n : ℕ} {c : Place α n} {p : Option ℕ}
    (h : RepPlace capacity root H c p) : ∀ a ∈ c.addrs, a < H.length := by
  induction c generalizing p with
  | top => simp [Place.addrs]
  | @under n addr before after up ih =>
    obtain ⟨hcell, -, hbefore, hafter, hup⟩ := h
    intro a ha
    simp only [Place.addrs, List.mem_cons, List.mem_append, List.mem_flatMap, List.mem_map] at ha
    rcases ha with rfl | (⟨_, ⟨q, hq, rfl⟩, ha⟩ | ⟨_, ⟨q, hq, rfl⟩, ha⟩) | ha
    · exact (List.getElem?_eq_some_iff.1 hcell).1
    · exact (hbefore q hq).lt_length a ha
    · exact (hafter q hq).lt_length a ha
    · exact ih hup a ha

theorem addrs_ofSlot_perm {n : ℕ} (addr : ℕ) (before : List (Subtree α n × α)) (k : Subtree α n)
    (after : List (α × Subtree α n)) (c : Place α (n + 1)) :
    List.Perm ((Subtree.ofSlot addr before k after).addrs (n + 1) ++ c.addrs)
      (k.addrs n ++ (Place.under addr before after c).addrs) := by
  refine List.perm_iff_count.2 fun a => ?_
  simp only [Subtree.ofSlot, Subtree.node, Subtree.addrs, Place.addrs, List.flatMap_append,
    List.flatMap_cons, List.cons_append, List.count_cons, List.count_append]
  omega

/-- Going down to a child, and up again. -/
theorem at_under_iff {n : ℕ} {addr : ℕ} {before : List (Subtree α n × α)} {k : Subtree α n}
    {after : List (α × Subtree α n)} {c : Place α (n + 1)} :
    At capacity root H (.under addr before after c) k
      ↔ At capacity root H c (Subtree.ofSlot addr before k after) := by
  have hperm := (addrs_ofSlot_perm addr before k after c).nodup_iff
  constructor
  · rintro ⟨htree, ⟨hcell, hcap, hbefore, hafter, hup⟩, hnodup⟩
    refine ⟨⟨?_, ?_, ?_, fun k' hk' => ?_⟩, hup, hperm.2 hnodup⟩
    · simpa only [List.map_append, List.map_cons] using hcell
    · simp only [List.length_append, List.length_cons, List.length_map]
      omega
    · simpa only [List.length_append, List.length_map] using hcap
    · simp only [List.mem_append, List.mem_cons, List.mem_map] at hk'
      rcases hk' with ⟨q, hq, rfl⟩ | rfl | ⟨q, hq, rfl⟩
      · exact hbefore q hq
      · exact htree
      · exact hafter q hq
  · rintro ⟨⟨hcell, -, hcap, hkids⟩, hup, hnodup⟩
    refine ⟨hkids k (by simp), ⟨?_, ?_, fun q hq => ?_, fun q hq => ?_, hup⟩, hperm.1 hnodup⟩
    · simpa only [List.map_append, List.map_cons] using hcell
    · simpa only [List.length_append, List.length_map] using hcap
    · exact hkids q.1 (List.mem_append_left _ (List.mem_map_of_mem hq))
    · exact hkids q.2 (List.mem_append_right _ (List.mem_cons_of_mem _ (List.mem_map_of_mem hq)))

/-- The cell of the parent at a place. -/
theorem At.cell {n : ℕ} {addr : ℕ} {before : List (Subtree α n × α)} {k : Subtree α n}
    {after : List (α × Subtree α n)} {c : Place α (n + 1)}
    (h : At capacity root H (.under addr before after c) k) :
    H[addr]? = some ⟨before.map Prod.snd ++ after.map Prod.fst,
      (before.map Prod.fst).map Subtree.ptr ++ k.ptr :: (after.map Prod.snd).map Subtree.ptr,
        c.parent⟩ :=
  h.context.1

/-- No node is the child of another one twice, so a child's pointer has one position. -/
theorem At.ptr_notMem {n : ℕ} {addr : ℕ} {before : List (Subtree α n × α)} {k : Subtree α n}
    {after : List (α × Subtree α n)} {c : Place α (n + 1)}
    (h : At capacity root H (.under addr before after c) k) {a : ℕ} (ha : k.ptr = some a) :
    some a ∉ (before.map Prod.fst).map Subtree.ptr := by
  rcases n with _ | n
  · cases ha
  obtain ⟨a', kids, bounds⟩ := k
  obtain rfl : a' = a := Option.some.inj ha
  intro hmem
  obtain ⟨k', hk', hptr⟩ := List.mem_map.1 hmem
  obtain ⟨a'', kids', bounds'⟩ := k'
  obtain rfl : a'' = a' := Option.some.inj hptr
  refine List.disjoint_of_nodup_append h.nodup List.mem_cons_self (List.mem_cons_of_mem _ ?_)
  exact List.mem_append_left _
    (List.mem_append_left _ (List.mem_flatMap.2 ⟨_, hk', List.mem_cons_self⟩))

section Height

theorem Subtree.height_le_addrs {n : ℕ} {p : Option ℕ} {t : Subtree α n}
    (h : Rep capacity H n p t) :
    n ≤ (t.addrs n).length := by
  induction n generalizing p with
  | zero => omega
  | succ n ih =>
    obtain ⟨addr, kids, bounds⟩ := t
    obtain ⟨-, hlen, -, hkids⟩ := h
    rcases kids with _ | ⟨k, kids⟩
    · simp at hlen
    · have := ih (hkids k List.mem_cons_self)
      simp only [Subtree.addrs, List.flatMap_cons, List.length_cons, List.length_append]
      omega

theorem Place.depth_le_addrs {n : ℕ} (c : Place α n) : c.depth ≤ c.addrs.length := by
  induction c with
  | top => simp [depth]
  | under addr before after up ih =>
    simp only [depth, addrs, List.length_cons, List.length_append]
    omega

/-- No path from the root to a leaf is longer than the arena. -/
theorem At.height_add_depth_le {n : ℕ} {c : Place α n} {t : Subtree α n}
    (h : At capacity root H c t) : n + c.depth ≤ H.length := by
  have hsub : (t.addrs n ++ c.addrs).length ≤ H.length := by
    rw [← List.length_range (n := H.length)]
    refine (List.subperm_of_subset h.nodup fun a ha => List.mem_range.2 ?_).length_le
    exact (List.mem_append.1 ha).elim (h.tree.lt_length a) (h.context.lt_length a)
  have := Subtree.height_le_addrs h.tree
  have := c.depth_le_addrs
  rw [List.length_append] at hsub
  omega

end Height

section Places

variable {R : α → α → Prop} {p : α → Bool}

/-- The place separates the entries that satisfy `p` from those that do not. -/
def Place.Cut {n : ℕ} (p : α → Bool) (c : Place α n) : Prop :=
  (∀ x ∈ c.left, p x) ∧ ∀ x ∈ c.right, ¬ p x

theorem At.down {n : ℕ} {c : Place α (n + 1)} {addr : ℕ} {kids : List (Subtree α n)}
    {bounds : List α} (h : At capacity root H c (.node addr kids bounds)) {i : ℕ}
    (hi : i ≤ bounds.length) :
    ∃ before k after, before.length = i
      ∧ Subtree.node addr kids bounds = .ofSlot addr before k after
      ∧ At capacity root H (.under addr before after c) k := by
  obtain ⟨before, k, after, hlen, heq⟩ := Subtree.exists_ofSlot addr h.tree.2.1 hi
  exact ⟨before, k, after, hlen, heq, at_under_iff.2 (heq ▸ h)⟩

theorem entries_under {n : ℕ} (addr : ℕ) (before : List (Subtree α n × α)) (k : Subtree α n)
    (after : List (α × Subtree α n)) (c : Place α (n + 1)) :
    (Place.under addr before after c).left ++ k.entries n
        ++ (Place.under addr before after c).right
      = c.left ++ (Subtree.ofSlot addr before k after).entries (n + 1) ++ c.right := by
  simp [Place.left, Place.right, Subtree.entries_ofSlot, List.append_assoc]

/-- The whole tree around a place. -/
theorem At.whole {n : ℕ} {c : Place α (n + 1)} {t : Subtree α (n + 1)}
    (h : At capacity root H c t) : ∃ m kids bounds,
      At capacity root H .top (.node root kids bounds : Subtree α (m + 1))
        ∧ (Subtree.node root kids bounds).entries (m + 1) = c.left ++ t.entries (n + 1) ++ c.right
        ∧ ∀ least, c.Filled least → t.Filled least (n + 1) c.isTop →
          (Subtree.node root kids bounds).Filled least (m + 1) true := by
  generalize hn : n + 1 = n' at c t h
  induction c generalizing n with
  | top =>
    subst hn
    obtain ⟨addr, kids, bounds⟩ := t
    obtain rfl : addr = root := Option.some.inj h.context
    refine ⟨n, kids, bounds, h, ?_, fun _ _ hfilled => hfilled⟩
    rw [Place.left, Place.right, List.nil_append, List.append_nil]
    rfl
  | under addr before after up ih =>
    obtain ⟨m, kids, bounds, htop, heq, hfilled⟩ := ih rfl (at_under_iff.1 h)
    refine ⟨m, kids, bounds, htop, heq.trans (entries_under addr before t after up).symm, ?_⟩
    intro least hc ht
    have hup := filled_under_iff.1 ⟨hc, ht⟩
    exact hfilled least hup.1 hup.2

theorem takeWhile_append_of_length {l l' : List α} (h : l.length = ((l ++ l').takeWhile p).length) :
    (∀ x ∈ l, p x) ∧ ∀ x ∈ l'.head?, ¬ p x := by
  have heq : (l ++ l').takeWhile p = l :=
    (List.prefix_of_prefix_length_le (List.takeWhile_prefix p) (List.prefix_append l l')
      h.ge).eq_of_length h.symm
  constructor
  · rw [← heq]
    exact fun x hx => List.mem_takeWhile_imp hx
  · have hdrop : (l ++ l').dropWhile p = l' := by
      have := List.takeWhile_append_dropWhile (p := p) (l := l ++ l')
      rw [heq] at this
      exact List.append_cancel_left this
    rw [← hdrop]
    intro x hx
    have := List.head?_dropWhile_not p (l ++ l')
    rw [hx] at this
    simpa using this

/-- In a tree that is sorted, the child to go on with is behind the entries that satisfy `p`. -/
theorem Place.Cut.under {n : ℕ} {c : Place α (n + 1)} {addr : ℕ}
    {before : List (Subtree α n × α)} {k : Subtree α n} {after : List (α × Subtree α n)}
    (hmono : ∀ x y, R x y → p y → p x)
    (hsorted : (c.left ++ (Subtree.ofSlot addr before k after).entries (n + 1)
      ++ c.right).Pairwise R)
    (hcut : c.Cut p) (hlen : before.length
      = ((before.map Prod.snd ++ after.map Prod.fst).takeWhile p).length) :
    (Place.under addr before after c).Cut p := by
  rw [← entries_under] at hsorted
  have hleft := (List.pairwise_append.1 (List.pairwise_append.1 hsorted).1).1
  have hright := (List.pairwise_append.1 hsorted).2.1
  obtain ⟨hbefore, hafter⟩ :=
    takeWhile_append_of_length ((List.length_map Prod.snd).trans hlen)
  constructor
  · rcases List.eq_nil_or_concat before with rfl | ⟨before, ⟨k₀, e⟩, rfl⟩
    · simpa [left] using hcut.1
    · -- all that stands in front of the last entry is not greater than it
      have he : p e := hbefore e (by simp)
      have hpre : (Place.under addr (before ++ [(k₀, e)]) after c).left
          = (c.left ++ (before.flatMap fun q => q.1.entries n ++ [q.2]) ++ k₀.entries n)
            ++ [e] := by
        simp [left]
      rw [List.concat_eq_append, hpre] at hleft ⊢
      intro x hx
      rcases List.mem_append.1 hx with hx | hx
      · exact hmono x e ((List.pairwise_append.1 hleft).2.2 x hx e List.mem_cons_self) he
      · exact List.mem_singleton.1 hx ▸ he
  · rcases after with _ | ⟨⟨e, k₀⟩, after⟩
    · simpa [right] using hcut.2
    · have he : ¬ p e := hafter e (by simp)
      have hpost : (Place.under addr before ((e, k₀) :: after) c).right
          = e :: (k₀.entries n ++ (after.flatMap fun q => q.1 :: q.2.entries n) ++ c.right) := by
        simp [right]
      rw [hpost] at hright ⊢
      intro x hx hpx
      rcases List.mem_cons.1 hx with rfl | hx
      · exact he hpx
      · exact he (hmono e x ((List.pairwise_cons.1 hright).1 x hx) hpx)

end Places

section Insert

/-- The subtree at a place has been split: `r` still stands there, and `l` belongs in front of it.
-/
structure Pending (capacity root : ℕ) (H : List (Cell α)) {n : ℕ} (c : Place α n)
    (l r : Subtree α n) : Prop where
  left : Rep capacity H n c.parent l
  right : Rep capacity H n c.parent r
  context : RepPlace capacity root H c r.ptr
  nodup : (l.addrs n ++ r.addrs n ++ c.addrs).Nodup

/-- All the given pointers have got the parent `me`. -/
def Adopted (H H' : List (Cell α)) (me : ℕ) (ptrs : List (Option ℕ)) : Prop :=
  ∀ a, H'[a]? = if some a ∈ ptrs then H[a]?.map fun cell => { cell with parent := some me }
    else H[a]?

theorem Subtree.ptr_mem_addrs {n : ℕ} {t : Subtree α n} {a : ℕ} (h : t.ptr = some a) :
    a ∈ t.addrs n := by
  rcases n with _ | n
  · cases h
  · obtain ⟨a', kids, bounds⟩ := t
    obtain rfl : a' = a := Option.some.inj h
    exact List.mem_cons_self

/-- Below the roots of disjoint subtrees there is none of these roots. -/
theorem ptr_notMem_of_below {n : ℕ} {ks : List (Subtree α (n + 1))}
    (hnodup : (ks.flatMap (Subtree.addrs (n + 1))).Nodup) {addr : ℕ} {kids : List (Subtree α n)}
    {bounds : List α} (hk : Subtree.node addr kids bounds ∈ ks) {a : ℕ}
    (ha : a ∈ kids.flatMap (Subtree.addrs n)) : some a ∉ ks.map Subtree.ptr := by
  obtain ⟨hnd, hdisj⟩ := List.nodup_flatMap.1 hnodup
  intro hmem
  obtain ⟨k', hk', hptr⟩ := List.mem_map.1 hmem
  by_cases heq : k' = Subtree.node addr kids bounds
  · subst heq
    obtain rfl : addr = a := Option.some.inj hptr
    exact (List.nodup_cons.1 (hnd _ hk)).1 ha
  · have : Std.Symm (Function.onFun List.Disjoint (@Subtree.addrs α (n + 1))) :=
      ⟨fun _ _ h _ ha hb => h hb ha⟩
    have hdis := hdisj.forall hk' hk heq
    exact hdis (Subtree.ptr_mem_addrs hptr) (List.mem_cons_of_mem _ ha)

theorem Rep.adopted {n : ℕ} {ks : List (Subtree α n)} {me : ℕ} {p : Subtree α n → Option ℕ}
    (h : ∀ k ∈ ks, Rep capacity H n (p k) k) (hnodup : (ks.flatMap (Subtree.addrs n)).Nodup)
    (hH : ∀ a ∈ ks.flatMap (Subtree.addrs n), H'[a]? = if some a ∈ ks.map Subtree.ptr
      then H[a]?.map fun cell => { cell with parent := some me } else H[a]?) :
    ∀ k ∈ ks, Rep capacity H' n (some me) k := by
  intro k hk
  rcases n with _ | n
  · trivial
  obtain ⟨addr, kids, bounds⟩ := k
  obtain ⟨hcell, hlen, hcap, hkids⟩ := h _ hk
  have hmem : ∀ a ∈ addr :: kids.flatMap (Subtree.addrs n),
    a ∈ ks.flatMap (Subtree.addrs (n + 1)) :=
    fun a ha => List.mem_flatMap.2 ⟨_, hk, ha⟩
  have hroot : some addr ∈ ks.map Subtree.ptr := List.mem_map.2 ⟨_, hk, rfl⟩
  refine ⟨?_, hlen, hcap, fun k' hk' => (hkids k' hk').congr fun a ha => ?_⟩
  · rw [hH addr (hmem addr List.mem_cons_self), if_pos hroot, hcell]
    rfl
  · have ha' : a ∈ kids.flatMap (Subtree.addrs n) := List.mem_flatMap.2 ⟨k', hk', ha⟩
    rw [hH a (hmem a (List.mem_cons_of_mem _ ha')), if_neg (ptr_notMem_of_below hnodup hk ha')]

variable {n : ℕ} {addr : ℕ} {before : List (Subtree α n × α)} {after : List (α × Subtree α n)}
  {c : Place α (n + 1)} {l r : Subtree α n} {e : α}

/-- The subtrees of a node that has got the entry `e` and the subtree `l` in front of `r`. -/
def newKids (before : List (Subtree α n × α)) (l r : Subtree α n) (after : List (α × Subtree α n)) :
    List (Subtree α n) :=
  before.map Prod.fst ++ l :: r :: after.map Prod.snd

/-- The entries of such a node. -/
def newBounds (before : List (Subtree α n × α)) (e : α) (after : List (α × Subtree α n)) : List α :=
  before.map Prod.snd ++ e :: after.map Prod.fst

theorem length_newKids :
    (newKids before l r after).length = (newBounds before e after).length + 1 := by
  simp [newKids, newBounds]
  omega

theorem entries_new :
    (Subtree.node addr (newKids before l r after) (newBounds before e after)).entries (n + 1)
      = (before.flatMap fun p => p.1.entries n ++ [p.2]) ++ l.entries n ++ e :: r.entries n
        ++ after.flatMap fun p => p.1 :: p.2.entries n := by
  have := Subtree.entries_ofSlot addr before l ((e, r) :: after)
  simpa [Subtree.ofSlot, newKids, newBounds] using this

theorem Pending.rep_kids (h : Pending capacity root H (.under addr before after c) l r) :
    ∀ k ∈ newKids before l r after, Rep capacity H n (some addr) k := by
  obtain ⟨-, -, hbefore, hafter, -⟩ := h.context
  intro k hk
  simp only [newKids, List.mem_append, List.mem_cons, List.mem_map] at hk
  rcases hk with ⟨q, hq, rfl⟩ | rfl | rfl | ⟨q, hq, rfl⟩
  · exact hbefore q hq
  · exact h.left
  · exact h.right
  · exact hafter q hq

theorem filled_newKids {least : ℕ} (hc : (Place.under addr before after c).Filled least)
    (hl : l.Filled least n false) (hr : r.Filled least n false) :
    ∀ k ∈ newKids before l r after, k.Filled least n false := by
  obtain ⟨-, hbefore, hafter, -⟩ := hc
  simp only [newKids, List.forall_mem_append, List.forall_mem_cons, List.forall_mem_map]
  exact ⟨hbefore, hl, hr, hafter⟩

theorem Pending.nodup_kids (h : Pending capacity root H (.under addr before after c) l r) :
    (addr :: (newKids before l r after).flatMap (Subtree.addrs n) ++ c.addrs).Nodup := by
  refine (List.Perm.nodup_iff (List.perm_iff_count.2 fun a => ?_)).1 h.nodup
  simp only [newKids, Place.addrs, List.flatMap_append, List.flatMap_cons,
    List.cons_append, List.count_cons, List.count_append]
  omega

/-- The node has room for the entry. -/
theorem Pending.store (h : Pending capacity root H (.under addr before after c) l r)
    (hroom : before.length + after.length < capacity)
    (hcell : H'[addr]? = some ⟨newBounds before e after,
      (newKids before l r after).map Subtree.ptr, c.parent⟩)
    (hH : ∀ a, a ≠ addr → H'[a]? = H[a]?) :
    At capacity root H' c (.node addr (newKids before l r after) (newBounds before e after)) := by
  have hnodup := h.nodup_kids
  refine ⟨⟨hcell, length_newKids, ?_, fun k hk => (h.rep_kids k hk).congr fun a ha => hH a ?_⟩,
    h.context.2.2.2.2.congr fun a ha => hH a ?_, hnodup⟩
  · simp [newBounds]
    omega
  · rintro rfl
    rw [List.cons_append, List.nodup_cons, List.mem_append] at hnodup
    exact hnodup.1 (.inl (List.mem_flatMap.2 ⟨k, hk, ha⟩))
  · rintro rfl
    rw [List.cons_append, List.nodup_cons, List.mem_append] at hnodup
    exact hnodup.1 (.inr ha)

theorem ptr_mem_flatMap {ks : List (Subtree α n)} {a : ℕ} (h : some a ∈ ks.map Subtree.ptr) :
    a ∈ ks.flatMap (Subtree.addrs n) := by
  obtain ⟨k, hk, hptr⟩ := List.mem_map.1 h
  exact List.mem_flatMap.2 ⟨k, hk, Subtree.ptr_mem_addrs hptr⟩

/-- The node has no room and is split; the left half is a new cell. -/
theorem Pending.split {fresh : ℕ} (h : Pending capacity root H (.under addr before after c) l r)
    (hfresh : H.length ≤ fresh) {ks₁ ks₂ : List (Subtree α n)} {es₁ es₂ : List α} {e' : α}
    (hk : newKids before l r after = ks₁ ++ ks₂) (hb : newBounds before e after = es₁ ++ e' :: es₂)
    (hlen : ks₁.length = es₁.length + 1)
    (hleft : H'[fresh]? = some ⟨es₁, ks₁.map Subtree.ptr, c.parent⟩)
    (hright : H'[addr]? = some ⟨es₂, ks₂.map Subtree.ptr, c.parent⟩)
    (hH : ∀ a, a ≠ fresh → a ≠ addr → H'[a]? = if some a ∈ ks₁.map Subtree.ptr
      then H[a]?.map fun cell => { cell with parent := some fresh } else H[a]?) :
    Pending capacity root H' c (.node fresh ks₁ es₁) (.node addr ks₂ es₂) := by
  have hrep := h.rep_kids
  have hnodup := h.nodup_kids
  have hlen' := congrArg List.length hk
  have hlenb := congrArg List.length hb
  rw [length_newKids (e := e), hb] at hlen'
  have hcap := h.context.2.1
  simp only [newBounds, List.length_append, List.length_cons, List.length_map] at hlen' hlenb
  rw [hk] at hrep hnodup
  have hlt : ∀ a ∈ addr :: (ks₁ ++ ks₂).flatMap (Subtree.addrs n) ++ c.addrs, a ≠ fresh := by
    intro a ha
    have : a < H.length := by
      rcases List.mem_append.1 ha with ha | ha
      · rcases List.mem_cons.1 ha with rfl | ha
        · exact (List.getElem?_eq_some_iff.1 h.context.1).1
        · obtain ⟨k, hk, ha⟩ := List.mem_flatMap.1 ha
          exact (hrep k hk).lt_length a ha
      · exact h.context.2.2.2.2.lt_length a ha
    omega
  -- the addresses apart from those of the left half are neither new nor children of it
  have hsame : ∀ a ∈ ks₂.flatMap (Subtree.addrs n) ++ c.addrs, H'[a]? = H[a]? := by
    intro a ha
    have hmem : a ∈ addr :: (ks₁ ++ ks₂).flatMap (Subtree.addrs n) ++ c.addrs := by
      rw [List.flatMap_append]
      grind
    rw [List.flatMap_append] at hnodup
    rw [hH a (hlt a hmem) (by grind), if_neg]
    intro hptr
    have := ptr_mem_flatMap hptr
    grind
  refine ⟨⟨hleft, hlen, by omega, ?_⟩, ⟨hright, by omega, by omega, ?_⟩,
    h.context.2.2.2.2.congr fun a ha => hsame a (List.mem_append_right _ ha), ?_⟩
  · refine Rep.adopted (p := fun _ => some addr)
      (fun k hk => hrep k (List.mem_append_left _ hk)) ?_ ?_
    · rw [List.flatMap_append] at hnodup
      grind
    · intro a ha
      rw [List.flatMap_append] at hnodup hlt
      exact hH a (hlt a (by grind)) (by grind)
  · intro k hk
    refine (hrep k (List.mem_append_right _ hk)).congr fun a ha => hsame a ?_
    exact List.mem_append_left _ (List.mem_flatMap.2 ⟨k, hk, ha⟩)
  · refine (List.Perm.nodup_iff (List.perm_iff_count.2 fun a => ?_)).1
      (List.nodup_cons.2 ⟨fun hmem => hlt fresh hmem rfl, hnodup⟩)
    simp only [Subtree.addrs, List.flatMap_append, List.cons_append, List.count_cons,
      List.count_append]
    omega

/-- The root has been split.  Its right half moves to a new cell, and the root gets the two halves
as its children. -/
theorem Pending.newRoot {left fresh : ℕ} {ks₁ ks₂ : List (Subtree α n)} {es₁ es₂ : List α}
    (h : Pending capacity root H .top (.node left ks₁ es₁) (.node root ks₂ es₂))
    (hcap : 0 < capacity) (hfresh : H.length ≤ fresh)
    (hroot : H'[root]? = some ⟨[e], [some left, some fresh], none⟩)
    (hleft : H'[left]? = some ⟨es₁, ks₁.map Subtree.ptr, some root⟩)
    (hright : H'[fresh]? = some ⟨es₂, ks₂.map Subtree.ptr, some root⟩)
    (hH : ∀ a, a ≠ root → a ≠ left → a ≠ fresh → H'[a]? = if some a ∈ ks₂.map Subtree.ptr
      then H[a]?.map fun cell => { cell with parent := some fresh } else H[a]?) :
    At capacity root H' .top (.node root [.node left ks₁ es₁, .node fresh ks₂ es₂] [e]) := by
  obtain ⟨h₁, h₂, -, hnodup⟩ := h
  have hlt₁ := h₁.lt_length
  have hlt₂ := h₂.lt_length
  obtain ⟨-, hlen₁, hcap₁, hkids₁⟩ := h₁
  obtain ⟨-, hlen₂, hcap₂, hkids₂⟩ := h₂
  simp only [Subtree.addrs, Place.addrs, List.append_nil] at hnodup hlt₁ hlt₂
  refine ⟨⟨hroot, rfl, hcap, fun k hk => ?_⟩, rfl, ?_⟩
  · rcases List.mem_pair.1 hk with rfl | rfl
    · refine ⟨hleft, hlen₁, hcap₁, fun k hk => (hkids₁ k hk).congr fun a ha => ?_⟩
      have ha : a ∈ ks₁.flatMap (Subtree.addrs n) := List.mem_flatMap.2 ⟨k, hk, ha⟩
      have := hlt₁ a (List.mem_cons_of_mem _ ha)
      rw [hH a (by grind) (by grind) (by omega), if_neg]
      intro hptr
      have := ptr_mem_flatMap hptr
      grind
    · refine ⟨hright, hlen₂, hcap₂, Rep.adopted hkids₂ (by grind) fun a ha => ?_⟩
      have := hlt₂ a (List.mem_cons_of_mem _ ha)
      exact hH a (by grind) (by grind) (by omega)
  · have hnotin :
      fresh ∉ (left :: ks₁.flatMap (Subtree.addrs n)) ++ root :: ks₂.flatMap (Subtree.addrs n) := by
      intro hmem
      have : fresh < H.length := (List.mem_append.1 hmem).elim (hlt₁ fresh) (hlt₂ fresh)
      omega
    refine (List.Perm.nodup_iff (List.perm_iff_count.2 fun a => ?_)).1
      (List.nodup_cons.2 ⟨hnotin, hnodup⟩)
    simp only [Subtree.addrs, Place.addrs, List.flatMap_cons, List.flatMap_nil, List.append_nil,
      List.cons_append, List.count_cons, List.count_append]
    omega

end Insert

end Arena

end BTree
