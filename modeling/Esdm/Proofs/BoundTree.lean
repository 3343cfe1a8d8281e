import Esdm.Proofs.BoundList

/-!
# The B-tree of bounds

The cells of the heap are a B-tree whose entries, in order, are sorted.  A search goes down to the
place in a leaf that separates the smaller entries from the others, and up to the next entry; a
split hands the middle entry up until a node has room for it.  Parent pointers lead back along the
same places.
-/

namespace Esdm.BoundTree

open BTree

variable {ι : Type} {heap heap' : Heap ι} {n : ℕ}

abbrev EntryTree (ι : Type) (n : ℕ) := Subtree (BoundListEntry ι) n

abbrev EntryPlace (ι : Type) (n : ℕ) := Place (BoundListEntry ι) n

/-- A subtree at its place in the heap. -/
abbrev Placed (heap : Heap ι) (c : EntryPlace ι n) (t : EntryTree ι n) : Prop :=
  At maxEntryCount 0 heap c t

section Relations

theorem fixRelations_spec {me : ℕ} {children : List (Option ℕ)}
    (h : ∀ a, some a ∈ children → a < heap.length) :
    ∃ heap', fixRelations me children heap = .ok heap' ∧ heap'.length = heap.length
      ∧ Adopted heap heap' me children := by
  induction children generalizing heap with
  | nil => exact ⟨heap, rfl, rfl, fun a => by simp⟩
  | cons child children ih =>
    rcases child with _ | child
    · obtain ⟨heap', heq, hlen, hadopt⟩ := ih fun a ha => h a (List.mem_cons_of_mem _ ha)
      refine ⟨heap', heq, hlen, fun a => ?_⟩
      rw [hadopt a]
      simp
    · have hlt := h child List.mem_cons_self
      obtain ⟨heap', heq, hlen, hadopt⟩ :=
        @ih (heap.set child { heap[child] with parent := some me }) fun a ha => by
          rw [List.length_set]
          exact h a (List.mem_cons_of_mem _ ha)
      refine ⟨heap', ?_, hlen.trans List.length_set, fun a => ?_⟩
      · rw [fixRelations, List.getElem?_eq_getElem hlt, access_some, Outcome.ok_bind, heq]
      · rw [hadopt a]
        by_cases ha : a = child
        · subst ha
          simp [hlt]
        · simp [ha, List.getElem?_set_ne (Ne.symm ha)]

theorem findIdx?_children {ps qs : List (Option ℕ)} {a : ℕ} (h : some a ∉ ps) :
    (ps ++ some a :: qs).findIdx? (· == some a) = some ps.length := by
  induction ps with
  | nil => simp [List.findIdx?_cons]
  | cons p ps ih =>
    have hp : p ≠ some a := fun heq => h (heq ▸ List.mem_cons_self)
    simp [List.findIdx?_cons, hp, ih fun hm => h (List.mem_cons_of_mem _ hm)]

end Relations

section Walk

variable {addr : ℕ} {before : List (EntryTree ι n × BoundListEntry ι)} {k : EntryTree ι n}
  {after : List (BoundListEntry ι × EntryTree ι n)} {c : EntryPlace ι (n + 1)}

theorem walkDown_succ {position : Node ι → ℕ} (h : Placed heap (.under addr before after c) k)
    (fuel : ℕ) :
    (k.ptr = none → walkDown heap position (fuel + 1) addr before.length
      = .ok (addr, before.length))
      ∧ ∀ child node, k.ptr = some child → heap[child]? = some node →
        walkDown heap position (fuel + 1) addr before.length
          = walkDown heap position fuel child (position node) := by
  have hchild : ((before.map Prod.fst).map Subtree.ptr
      ++ k.ptr :: (after.map Prod.snd).map Subtree.ptr)[before.length]? = some k.ptr := by
    simp
  rw [walkDown, h.cell, access_some, Outcome.ok_bind]
  dsimp only
  rw [hchild, access_some, Outcome.ok_bind]
  constructor
  · intro hk
    rw [hk]
    rfl
  · intro child node hk hnode
    rw [hk]
    dsimp only
    rw [hnode, access_some, Outcome.ok_bind]

/-- A walk down from a place keeps what holds of every place on the way. -/
theorem walkDown_spec {position : Node ι → ℕ} (Q : (n : ℕ) → EntryPlace ι n → EntryTree ι n → Prop)
    (hle : ∀ node, position node ≤ node.bounds.length)
    (hstep : ∀ n addr before k after c children parent,
      Q (n + 1) c (Subtree.ofSlot addr before k after) →
      before.length = position ⟨before.map Prod.snd ++ after.map Prod.fst, children, parent⟩ →
      Q n (.under addr before after c) k)
    {fuel : ℕ} (h : Placed heap (.under addr before after c) k)
    (hQ : Q n (.under addr before after c) k) (hfuel : n < fuel) :
    ∃ addr' before' after' c', walkDown heap position fuel addr before.length
        = .ok (addr', before'.length)
      ∧ @Placed ι 0 heap (.under addr' before' after' c') ()
      ∧ Q 0 (.under addr' before' after' c') () := by
  induction n generalizing fuel addr with
  | zero =>
    obtain ⟨fuel, rfl⟩ := Nat.exists_eq_succ_of_ne_zero (by omega : fuel ≠ 0)
    exact ⟨addr, before, after, c, (walkDown_succ h fuel).1 rfl, h, hQ⟩
  | succ n ih =>
    obtain ⟨fuel, rfl⟩ := Nat.exists_eq_succ_of_ne_zero (by omega : fuel ≠ 0)
    obtain ⟨a, kids, bounds⟩ := k
    obtain ⟨before', k', after', hlen, heq, h'⟩ :=
      h.down (hle ⟨bounds, kids.map Subtree.ptr, some addr⟩)
    obtain ⟨-, rfl, rfl⟩ := BTree.Node.mk.inj heq
    have hQ' := hstep n a before' k' after' _ _ _ hQ hlen
    obtain ⟨addr', before'', after'', c', hwalk, hrest⟩ := ih h' hQ' (by omega : n < fuel)
    refine ⟨addr', before'', after'', c', ?_, hrest⟩
    exact ((walkDown_succ h fuel).2 a _ rfl h.tree.1).trans
      ((congrArg (walkDown heap position fuel a) hlen.symm).trans hwalk)

/-- The place separates the entries that satisfy `p` from the others, in a tree with the given
entries. -/
def Separates (p : BoundListEntry ι → Bool) (l : List (BoundListEntry ι)) (n : ℕ)
    (c : EntryPlace ι n)
    (t : EntryTree ι n) : Prop :=
  c.Cut p ∧ c.left ++ t.entries n ++ c.right = l

theorem Separates.under {p : BoundListEntry ι → Bool} {l : List (BoundListEntry ι)}
    (hmono : ∀ x y, x.bakedBound ≤ y.bakedBound → p y → p x) (hsorted : Sorted l)
    (h : Separates p l (n + 1) c (Subtree.ofSlot addr before k after))
    (hlen : before.length = ((before.map Prod.snd ++ after.map Prod.fst).takeWhile p).length) :
    Separates p l n (.under addr before after c) k := by
  obtain ⟨hcut, rfl⟩ := h
  exact ⟨hcut.under hmono hsorted hlen, entries_under addr before k after c⟩

/-- Down to the place that separates the entries that satisfy `p` from the others. -/
theorem walkDown_cut {p : BoundListEntry ι → Bool}
    (hmono : ∀ x y, x.bakedBound ≤ y.bakedBound → p y → p x) {kids : List (EntryTree ι n)}
    {bounds l : List (BoundListEntry ι)} (hroot : Placed heap .top (.node 0 kids bounds))
    (hl : (Subtree.node 0 kids bounds).entries (n + 1) = l) (hsorted : Sorted l) :
    ∃ addr before after c, walkDown heap (fun node => (node.bounds.takeWhile p).length)
        (heap.length + 1) 0 (bounds.takeWhile p).length = .ok (addr, before.length)
      ∧ @Placed ι 0 heap (.under addr before after c) ()
      ∧ Separates p l 0 (.under addr before after c) ()
      ∧ ∀ least, (Subtree.node 0 kids bounds).Filled least (n + 1) true →
        (Place.under addr before after c).Filled least := by
  obtain ⟨before, k, after, hlen, heq, h⟩ := hroot.down (List.takeWhile_prefix p).length_le
  obtain ⟨-, rfl, rfl⟩ := BTree.Node.mk.inj heq
  have hheight := hroot.height_add_depth_le
  have htop : Separates p l (n + 1) .top (Subtree.ofSlot 0 before k after) := by
    refine ⟨⟨by simp [Place.left], by simp [Place.right]⟩, ?_⟩
    rw [Place.left, Place.right, List.nil_append, List.append_nil]
    exact hl
  rw [← hlen]
  obtain ⟨addr', before', after', c', hwalk, hleaf, hsep, hfilled⟩ := walkDown_spec
    (fun m c t => Separates p l m c t ∧ ∀ least,
      (Subtree.ofSlot 0 before k after).Filled least (n + 1) true →
        c.Filled least ∧ t.Filled least m c.isTop)
    (fun node => (List.takeWhile_prefix p).length_le)
    (fun n addr before k after c _ _ hQ hlen => ⟨hQ.1.under hmono hsorted hlen, fun least hroot =>
      filled_under_iff.2 (hQ.2 least hroot)⟩) h
    ⟨htop.under hmono hsorted hlen, fun least hroot => filled_under_iff.2 ⟨trivial, hroot⟩⟩
    (show n < heap.length + 1 by omega)
  exact ⟨addr', before', after', c', hwalk, hleaf, hsep, fun least hroot => (hfilled least hroot).1⟩

/-- Down to the first place in a subtree. -/
theorem walkDown_left {fuel : ℕ} (h : Placed heap (.under addr before after c) k)
    (hfuel : n < fuel) :
    ∃ addr' before' after' c', walkDown heap (fun _ => 0) fuel addr before.length
        = .ok (addr', before'.length)
      ∧ @Placed ι 0 heap (.under addr' before' after' c') ()
      ∧ (Place.under addr' before' after' c').left = (Place.under addr before after c).left
      ∧ (Place.under addr' before' after' c').right
        = k.entries n ++ (Place.under addr before after c).right := by
  refine walkDown_spec (fun n c' t => c'.left = (Place.under addr before after c).left
      ∧ t.entries n ++ c'.right = k.entries _ ++ (Place.under addr before after c).right)
    (fun _ => Nat.zero_le _) ?_ h ⟨rfl, rfl⟩ hfuel
  rintro n addr' before' k' after' c' children parent ⟨hleft, hright⟩ hlen
  obtain rfl := List.eq_nil_of_length_eq_zero hlen
  refine ⟨by simpa [Place.left] using hleft, ?_⟩
  rw [← hright, Subtree.entries_ofSlot]
  simp [Place.right]

theorem findPositionInParent_top (h : Placed heap (.under addr before after .top) k) :
    findPositionInParent heap addr = .ok none := by
  rw [findPositionInParent, h.cell, access_some, Outcome.ok_bind]
  rfl

/-- The parent pointer leads back to the place of the node. -/
theorem findPositionInParent_under {addr' : ℕ}
    {before' : List (EntryTree ι (n + 1) × BoundListEntry ι)}
    {after' : List (BoundListEntry ι × EntryTree ι (n + 1))} {c' : EntryPlace ι (n + 2)}
    (h : Placed heap (.under addr before after (.under addr' before' after' c')) k) :
    findPositionInParent heap addr = .ok (some (addr', before'.length)) := by
  have hup := at_under_iff.1 h
  have hpos :=
    @findIdx?_children _ ((after'.map Prod.snd).map Subtree.ptr) addr (hup.ptr_notMem rfl)
  rw [List.length_map, List.length_map] at hpos
  have hcell := hup.cell
  rw [show (Subtree.ofSlot addr before k after).ptr = some addr from rfl] at hcell
  rw [findPositionInParent, h.cell, access_some, Outcome.ok_bind]
  simp only [Place.parent]
  rw [hcell, access_some, Outcome.ok_bind, hpos]
  rfl

/-- From a place up to the entry behind it. -/
theorem walkUp_spec {fuel : ℕ} (h : Placed heap (.under addr before after c) k)
    (hfuel : c.depth < fuel) : ∃ r, walkUp heap fuel addr before.length = .ok r
      ∧ ((r = none ∧ (Place.under addr before after c).right = [])
        ∨ ∃ (m addr' : ℕ) (before' : List (EntryTree ι m × BoundListEntry ι))
          (k' k'' : EntryTree ι m)
            (e : BoundListEntry ι) (after' : List (BoundListEntry ι × EntryTree ι m))
            (c' : EntryPlace ι (m + 1)),
          r = some (addr', before'.length)
            ∧ Placed heap (.under addr' before' ((e, k'') :: after') c') k'
            ∧ (Place.under addr' before' ((e, k'') :: after') c').right
              = (Place.under addr before after c).right) := by
  induction fuel generalizing n addr with
  | zero => omega
  | succ fuel ih =>
    rw [walkUp, h.cell, access_some, Outcome.ok_bind]
    rcases after with _ | ⟨⟨e, k''⟩, after⟩
    · rw [if_pos (by simp)]
      rcases c with _ | ⟨addr', before', after', c'⟩
      · rw [findPositionInParent_top h, Outcome.ok_bind]
        exact ⟨none, rfl, .inl ⟨rfl, rfl⟩⟩
      · rw [findPositionInParent_under h, Outcome.ok_bind]
        exact ih (at_under_iff.1 h) (Nat.lt_of_succ_lt_succ hfuel)
    · rw [if_neg (by simp)]
      exact ⟨_, rfl, .inr ⟨n, addr, before, k, k'', e, after, c, rfl, h, rfl⟩⟩

end Walk

section Iterate

/-- The iterator is at an entry of a node, and the entries behind it are given. -/
def Points (heap : Heap ι) (it : ℕ × ℕ) (e : BoundListEntry ι) (l : List (BoundListEntry ι)) :
    Prop :=
  ∃ (m addr : ℕ) (before : List (EntryTree ι m × BoundListEntry ι)) (k k' : EntryTree ι m)
    (after : List (BoundListEntry ι × EntryTree ι m)) (c : EntryPlace ι (m + 1)),
    it = (addr, before.length) ∧ Placed heap (.under addr before ((e, k') :: after) c) k
      ∧ (Place.under addr before ((e, k') :: after) c).right = e :: l

/-- The entry behind a place in a leaf, if it has the bound. -/
theorem entryAt_walkUp {addr : ℕ} {before : List (EntryTree ι 0 × BoundListEntry ι)}
    {after : List (BoundListEntry ι × EntryTree ι 0)} {c : EntryPlace ι 1}
    (h : @Placed ι 0 heap (.under addr before after c) ()) (b : ℤ) :
    ∃ r, (do entryAt heap b (← walkUp heap (heap.length + 1) addr before.length)) = .ok r
      ∧ (boundTree ι).Found (Points heap) b (Place.under addr before after c).right r := by
  have hdepth := (at_under_iff.1 h).height_add_depth_le
  obtain ⟨r, hr, hcases⟩ := walkUp_spec h (show c.depth < heap.length + 1 by omega)
  rw [hr, Outcome.ok_bind]
  rcases hcases with ⟨rfl, hnil⟩ | ⟨m, addr', before', k', k'', e, after', c', rfl, hplaced, heq⟩
  · exact ⟨none, rfl, .inl ⟨rfl, by simp [hnil]⟩⟩
  · have hright : ∃ l, (Place.under addr' before' ((e, k'') :: after') c').right = e :: l :=
      ⟨_, rfl⟩
    obtain ⟨l, hl⟩ := hright
    rw [entryAt, hplaced.cell, access_some, Outcome.ok_bind]
    dsimp only
    rw [show (before'.map Prod.snd ++ ((e, k'') :: after').map Prod.fst)[before'.length]?
      = some e by
      simp, access_some, Outcome.ok_bind]
    rw [← heq, hl]
    by_cases he : e.bakedBound = b
    · rw [if_pos he]
      exact ⟨_, rfl, .inr ⟨e, l, _, rfl, he, rfl, m, addr', before', k', k'', after', c', rfl,
        hplaced, hl⟩⟩
    · exact ⟨none, if_neg he, .inl ⟨rfl, by simpa using he⟩⟩

theorem nextEntry_spec {it : ℕ × ℕ} {e : BoundListEntry ι} {l : List (BoundListEntry ι)}
    (h : Points heap it e l) : ∃ r, nextEntry heap it = .ok r
      ∧ (boundTree ι).Found (Points heap) e.bakedBound l r := by
  obtain ⟨m, addr, before, k, k', after, c, rfl, hplaced, hright⟩ := h
  -- the next place in the node is behind the entry
  have hnext : Placed heap (.under addr (before ++ [(k, e)]) after c) k' := by
    rw [Placed, at_under_iff] at hplaced ⊢
    simpa [Subtree.ofSlot] using hplaced
  have hheight := hnext.height_add_depth_le
  obtain ⟨addr', before', after', c', hwalk, hleaf, -, hrest⟩ :=
    walkDown_left hnext (show m < heap.length + 1 by omega)
  have hl : (Place.under addr' before' after' c').right = l := by
    rw [hrest]
    simpa [Place.right] using hright
  rw [nextEntry, hplaced.cell, access_some, Outcome.ok_bind]
  dsimp only
  rw [show (before.map Prod.snd ++ ((e, k') :: after).map Prod.fst)[before.length]? = some e by
    simp, access_some, Outcome.ok_bind]
  rw [List.length_append, List.length_singleton] at hwalk
  rw [hwalk, Outcome.ok_bind, ← hl]
  exact entryAt_walkUp hleaf e.bakedBound

/-- The heap is a B-tree with the given entries, in order. -/
def Rep (heap : Heap ι) (l : List (BoundListEntry ι)) : Prop :=
  Sorted l ∧ ∃ (n : ℕ) (kids : List (EntryTree ι n)) (bounds : List (BoundListEntry ι)),
    Placed heap .top (.node 0 kids bounds) ∧ (Subtree.node 0 kids bounds).entries (n + 1) = l

theorem findFirst_spec {l : List (BoundListEntry ι)} (h : Rep heap l) {bound : ℤ}
    (hb : InBounds bound) (isStart : Bool) : ∃ A B r, l = A ++ B
      ∧ (∀ x ∈ A, x.bakedBound < baked bound isStart)
      ∧ (∀ x ∈ B, ¬ x.bakedBound < baked bound isStart)
      ∧ findFirst heap bound isStart = .ok r
      ∧ (boundTree ι).Found (Points heap) (baked bound isStart) B r := by
  obtain ⟨hsorted, n, kids, bounds, hroot, hl⟩ := h
  obtain ⟨addr, before, after, c, hwalk, hleaf, ⟨hcut, heq⟩, -⟩ := walkDown_cut
    (p := fun x => decide (x.bakedBound ≤ baked bound isStart - 1))
    (fun x y hxy hy => by simp at hy ⊢; omega) hroot hl hsorted
  obtain ⟨r, hr, hfound⟩ := entryAt_walkUp hleaf (baked bound isStart)
  refine ⟨_, _, r, heq.symm.trans (congrArg (· ++ _) (List.append_nil _)), fun x hx => ?_,
    fun x hx => ?_, ?_, hfound⟩
  · have := hcut.1 x hx
    simp at this
    omega
  · have := hcut.2 x hx
    simp at this
    omega
  · rw [findFirst, bakeBound_eq hb, Outcome.ok_bind, int64_baked_sub_one hb, Outcome.ok_bind,
      hroot.tree.1, access_some, Outcome.ok_bind]
    exact (congrArg (· >>= _) hwalk).trans hr

end Iterate

section Insert

variable {addr : ℕ} {before : List (EntryTree ι n × BoundListEntry ι)} {l r : EntryTree ι n}
  {after : List (BoundListEntry ι × EntryTree ι n)} {c : EntryPlace ι (n + 1)}
  {e : BoundListEntry ι}

/-- A subtree has been split at a place, and the left half is still to be inserted. -/
abbrev Split (heap : Heap ι) (c : EntryPlace ι n) (l r : EntryTree ι n) : Prop :=
  Pending maxEntryCount 0 heap c l r

theorem checkParent_eq {t : EntryTree ι n} (h : BTree.Rep maxEntryCount heap n (some addr) t) :
    checkParent heap addr t.ptr = .ok () := by
  rcases n with _ | n
  · rfl
  · obtain ⟨a, kids, bounds⟩ := t
    exact (congrArg (· >>= _) (congrArg access h.1)).trans (eassert_of rfl)

/-- The position at which `boundTree_insert` inserts is the place of the subtree that was split. -/
theorem insertPosition_eq (h : Split heap (.under addr before after c) l r) {node : Node ι}
    (hnode : node.children
      = (before.map Prod.fst).map Subtree.ptr ++ r.ptr :: (after.map Prod.snd).map Subtree.ptr)
    (hpos : n = 0 → findBoundPosition e.bakedBound node = before.length) :
    insertPosition node e r.ptr = .ok before.length := by
  rcases n with _ | n
  · exact congrArg _ (hpos rfl)
  · obtain ⟨a, kids, bounds⟩ := r
    have hnotin : some a ∉ (before.map Prod.fst).map Subtree.ptr := by
      have hnodup := h.nodup
      intro hmem
      have := ptr_mem_flatMap hmem
      simp only [Subtree.addrs, Place.addrs] at hnodup
      grind
    have hidx := @findIdx?_children _ ((after.map Prod.snd).map Subtree.ptr) a hnotin
    rw [List.length_map, List.length_map] at hidx
    have hchildren : node.children = (before.map Prod.fst).map Subtree.ptr
      ++ some a :: (after.map Prod.snd).map Subtree.ptr := hnode
    change findChildPosition node a = _
    rw [findChildPosition, hchildren, hidx]

/-- The root is split. -/
theorem splitRoot_spec {left : ℕ} {ks₁ ks₂ : List (EntryTree ι n)}
    {es₁ es₂ : List (BoundListEntry ι)}
    (h : Split heap .top (.node left ks₁ es₁) (.node 0 ks₂ es₂)) (e : BoundListEntry ι) :
    ∃ heap' right, splitRoot heap 0 left e = .ok heap'
      ∧ Placed heap' .top (.node 0 [.node left ks₁ es₁, .node right ks₂ es₂] [e]) := by
  have hlt₁ := h.left.lt_length
  have hlt₂ := h.right.lt_length
  have hnodup := h.nodup
  simp only [Subtree.addrs, Place.addrs, List.append_nil] at hnodup hlt₁ hlt₂
  have hcell₁ : heap[left]? = some ⟨es₁, ks₁.map Subtree.ptr, none⟩ := h.left.1
  have hcell₂ : heap[0]? = some ⟨es₂, ks₂.map Subtree.ptr, none⟩ := h.right.1
  have hleft := hlt₁ left List.mem_cons_self
  have h0 := hlt₂ 0 List.mem_cons_self
  have hptr : ∀ a, some a ∈ ks₂.map Subtree.ptr → a < heap.length ∧ a ≠ left ∧ a ≠ 0 := by
    intro a ha
    have ha := ptr_mem_flatMap ha
    exact ⟨hlt₂ a (List.mem_cons_of_mem _ ha), by grind, by grind⟩
  have hne : left ≠ 0 := by grind
  -- the right half in its new cell adopts the children
  obtain ⟨heap₁, heq₁, hlen₁, hadopt₁⟩ := @fixRelations_spec _
    (heap ++ [⟨es₂, ks₂.map Subtree.ptr, none⟩]) heap.length (ks₂.map Subtree.ptr) fun a ha => by
      have := (hptr a ha).1
      rw [List.length_append]
      omega
  rw [List.length_append, List.length_singleton] at hlen₁
  -- and the root adopts both halves
  obtain ⟨heap₂, heq₂, -, hadopt₂⟩ := @fixRelations_spec _
    (heap₁.set 0 ⟨[e], [some left, some heap.length], none⟩) 0 [some left, some heap.length]
    fun a ha => by
      rw [List.length_set, hlen₁]
      rcases List.mem_pair.1 ha with ha | ha <;> cases ha <;> omega
  refine ⟨heap₂, heap.length, ?_, h.newRoot (by decide) le_rfl ?_ ?_ ?_ fun a hr hl hf => ?_⟩
  · rw [splitRoot, hcell₂, access_some, Outcome.ok_bind]
    dsimp only
    rw [heq₁, Outcome.ok_bind, heq₂]
  · rw [hadopt₂, if_neg (by simp; omega), List.getElem?_set_self (by omega)]
  · rw [hadopt₂, if_pos (by simp), List.getElem?_set_ne (Ne.symm hne), hadopt₁,
      if_neg fun hm => (hptr left hm).2.1 rfl, getElem?_concat_of_ne (by omega), hcell₁]
    rfl
  · rw [hadopt₂, if_pos (by simp), List.getElem?_set_ne (by omega), hadopt₁,
      if_neg fun hm => (hptr _ hm).1.ne rfl, List.getElem?_concat_length]
    rfl
  · rw [hadopt₂, if_neg (by simp; omega), List.getElem?_set_ne (Ne.symm hr), hadopt₁,
      getElem?_concat_of_ne hf]

/-- A full node is split: its left half is a new cell. -/
theorem splitNode_spec (h : Split heap (.under addr before after c) l r)
    {ks₁ ks₂ : List (EntryTree ι n)} {es₁ es₂ : List (BoundListEntry ι)} {e' : BoundListEntry ι}
    (hk : newKids before l r after = ks₁ ++ ks₂) (hb : newBounds before e after = es₁ ++ e' :: es₂)
    (hlen : ks₁.length = es₁.length + 1) :
    ∃ heap', fixRelations heap.length (ks₁.map Subtree.ptr)
        (heap ++ [⟨es₁, ks₁.map Subtree.ptr, c.parent⟩]) = .ok heap'
      ∧ Split (heap'.set addr ⟨es₂, ks₂.map Subtree.ptr, c.parent⟩) c (.node heap.length ks₁ es₁)
        (.node addr ks₂ es₂) := by
  have haddr : addr < heap.length := (List.getElem?_eq_some_iff.1 h.context.1).1
  have hnodup := h.nodup_kids
  rw [hk, List.flatMap_append] at hnodup
  have hptr : ∀ a, some a ∈ ks₁.map Subtree.ptr → a < heap.length ∧ a ≠ addr := by
    intro a ha
    have ha := ptr_mem_flatMap ha
    obtain ⟨k, hk₁, hak⟩ := List.mem_flatMap.1 ha
    have hk₁ : k ∈ newKids before l r after := by
      rw [hk]
      exact List.mem_append_left _ hk₁
    exact ⟨(h.rep_kids k hk₁).lt_length a hak, by grind⟩
  obtain ⟨heap', heq, hlen', hadopt⟩ := @fixRelations_spec _
    (heap ++ [⟨es₁, ks₁.map Subtree.ptr, c.parent⟩]) heap.length
    (ks₁.map Subtree.ptr) fun a ha => by
      have := (hptr a ha).1
      rw [List.length_append]
      omega
  rw [List.length_append, List.length_singleton] at hlen'
  refine ⟨heap', heq, h.split le_rfl hk hb hlen ?_ ?_ fun a hf ha => ?_⟩
  · rw [List.getElem?_set_ne (by omega), hadopt, if_neg fun hm => (hptr _ hm).1.ne rfl,
      List.getElem?_concat_length]
  · rw [List.getElem?_set_self (by omega)]
  · rw [List.getElem?_set_ne (Ne.symm ha), hadopt, getElem?_concat_of_ne hf]

theorem insertIdx_bounds : (before.map Prod.snd ++ after.map Prod.fst).insertIdx before.length e
    = newBounds before e after := by
  have := BoundArray.insertIdx_length_append (before.map Prod.snd) (after.map Prod.fst) e
  rwa [List.length_map] at this

theorem insertIdx_children : ((before.map Prod.fst).map Subtree.ptr
      ++ r.ptr :: (after.map Prod.snd).map Subtree.ptr).insertIdx before.length l.ptr
    = (newKids before l r after).map Subtree.ptr := by
  have := BoundArray.insertIdx_length_append ((before.map Prod.fst).map Subtree.ptr)
    (r.ptr :: (after.map Prod.snd).map Subtree.ptr) l.ptr
  rw [List.length_map, List.length_map] at this
  rw [this, newKids, List.map_append, List.map_cons, List.map_cons]

/-- The entries of the whole tree, seen from a place at which a subtree was split. -/
def around (c : EntryPlace ι n) (l : EntryTree ι n) (e : BoundListEntry ι) (r : EntryTree ι n) :
    List (BoundListEntry ι) :=
  c.left ++ l.entries n ++ e :: r.entries n ++ c.right

theorem around_under : around (.under addr before after c) l e r
    = c.left ++ (Subtree.node addr (newKids before l r after) (newBounds before e after)).entries
      (n + 1)
      ++ c.right := by
  rw [around, entries_new, Place.left, Place.right]
  simp only [List.append_assoc, List.cons_append]

/-- The same entries, seen from the place of a node that was split in turn. -/
theorem around_halves {left : ℕ} {ks₁ ks₂ : List (EntryTree ι n)}
    {es₁ es₂ : List (BoundListEntry ι)}
    {e' : BoundListEntry ι} (hk : newKids before l r after = ks₁ ++ ks₂)
    (hb : newBounds before e after = es₁ ++ e' :: es₂) (hlen : ks₁.length = es₁.length + 1) :
    around (.under addr before after c) l e r
      = around c (.node left ks₁ es₁) e' (.node addr ks₂ es₂) := by
  rw [around_under, hk, hb, ← Subtree.entries_halves addr left addr hlen, around]
  simp only [List.append_assoc]

/-- `boundTree_insert` puts the entry between the two halves of the subtree that was split. -/
theorem insert_spec {fuel : ℕ} (h : Split heap (.under addr before after c) l r)
    (hpos : n = 0 → ∀ node, heap[addr]? = some node →
      findBoundPosition e.bakedBound node = before.length) (hfuel : c.depth < fuel) :
    ∃ heap' m kids bounds, insert fuel heap addr e l.ptr r.ptr = .ok heap'
      ∧ Placed heap' .top (.node 0 kids bounds : EntryTree ι (m + 1))
      ∧ (Subtree.node 0 kids bounds).entries (m + 1) = around (.under addr before after c) l e r
      ∧ ∀ least ≤ maxEntryCount / 2, (Place.under addr before after c).Filled least →
        l.Filled least n false → r.Filled least n false →
        (Subtree.node 0 kids bounds).Filled least (m + 1) true := by
  induction fuel generalizing n heap addr e with
  | zero => omega
  | succ fuel ih =>
    have hcell := h.context.1
    have hlt : addr < heap.length := (List.getElem?_eq_some_iff.1 hcell).1
    have hsome : l.ptr.isSome = r.ptr.isSome := by
      rcases n with _ | n <;> rfl
    rw [insert, eassert_of hsome, Outcome.ok_bind, checkParent_eq h.left, Outcome.ok_bind,
      checkParent_eq h.right, Outcome.ok_bind, hcell, access_some, Outcome.ok_bind,
      insertPosition_eq h rfl fun hn => hpos hn _ hcell, Outcome.ok_bind]
    dsimp only
    rw [insertIdx_bounds, insertIdx_children]
    split
    · rename_i hroom
      rw [List.length_append, List.length_map, List.length_map] at hroom
      have hstore : (heap.set addr ⟨newBounds before e after,
          (newKids before l r after).map Subtree.ptr, c.parent⟩)[addr]? = some _ :=
        List.getElem?_set_self hlt
      have hstored := h.store hroom hstore fun a ha => List.getElem?_set_ne (Ne.symm ha)
      obtain ⟨m, kids, bounds, htop, heq, hfilled⟩ := hstored.whole
      refine ⟨_, m, kids, bounds, rfl, htop, heq.trans around_under.symm,
        fun least _ hc hl hr => ?_⟩
      refine hfilled least hc.2.2.2 ⟨fun hroot => ?_, filled_newKids hc hl hr⟩
      have := hc.1 hroot
      simp only [newBounds, List.length_append, List.length_cons, List.length_map]
      omega
    · rename_i hfull
      -- the node is split in the middle, and the entry there goes up
      have hmid : maxEntryCount / 2 < (newBounds before e after).length := by
        simp only [newBounds, List.length_append, List.length_cons, List.length_map] at hfull ⊢
        omega
      obtain ⟨es₁, e', es₂, hb, hlen₁⟩ := BoundArray.exists_split hmid
      obtain ⟨ks₁, ks₂, hk, hlen⟩ : ∃ ks₁ ks₂, newKids before l r after = ks₁ ++ ks₂
          ∧ ks₁.length = es₁.length + 1 := by
        refine ⟨_, _, (List.take_append_drop (maxEntryCount / 2 + 1) _).symm, ?_⟩
        rw [List.length_take, @length_newKids _ n before after l r e]
        omega
      obtain ⟨heap', hfix, hsplit⟩ := splitNode_spec h hk hb hlen
      have htake : ((newKids before l r after).map Subtree.ptr).take (maxEntryCount / 2 + 1)
          = ks₁.map Subtree.ptr := by
        rw [hk, List.map_append, ← hlen₁, ← hlen, List.take_left' (List.length_map _)]
      have hdrop : ((newKids before l r after).map Subtree.ptr).drop (maxEntryCount / 2 + 1)
          = ks₂.map Subtree.ptr := by
        rw [hk, List.map_append, ← hlen₁, ← hlen, List.drop_left' (List.length_map _)]
      rw [around_halves hk hb hlen, htake, hdrop, hb, ← hlen₁]
      simp only [List.take_left', List.drop_length_add_append, List.drop_one,
        List.tail_cons, List.getElem?_append_right, le_refl, Nat.sub_self, List.getElem?_cons_zero]
      rw [hfix, Outcome.ok_bind, access_some, Outcome.ok_bind]
      -- both halves have half of the entries
      have hhalves : ∀ least ≤ maxEntryCount / 2, (Place.under addr before after c).Filled least →
          l.Filled least n false → r.Filled least n false → ∀ left,
            (Subtree.node left ks₁ es₁).Filled least (n + 1) false
              ∧ ∀ right, (Subtree.node right ks₂ es₂).Filled least (n + 1) false := by
        intro least hleast hc hl hr left
        have hkids := filled_newKids hc hl hr
        rw [hk, List.forall_mem_append] at hkids
        have hlenb := congrArg List.length hb
        simp only [newBounds, List.length_append, List.length_cons, List.length_map] at hlenb hfull
        exact ⟨⟨fun _ => by omega, hkids.1⟩, fun right => ⟨fun _ => by omega, hkids.2⟩⟩
      rcases c with _ | ⟨p, before', after', c'⟩
      · obtain rfl : addr = 0 := Option.some.inj h.context.2.2.2.2
        obtain ⟨heap'', right, heq, htop⟩ := splitRoot_spec hsplit e'
        refine ⟨heap'', n + 1, _, _, heq, htop, ?_, fun least hleast hc hl hr => ?_⟩
        · rw [around, Place.left, Place.right, List.nil_append, List.append_nil]
          rfl
        · obtain ⟨hleft, hright⟩ := hhalves least (hleast.trans_eq hlen₁) hc hl hr heap.length
          refine ⟨fun hroot => Bool.noConfusion hroot, ?_⟩
          exact List.forall_mem_cons.2 ⟨hleft, List.forall_mem_singleton.2 (hright right)⟩
      · obtain ⟨heap'', m, kids, bounds, heq, htop, hentries, hfilled⟩ :=
          ih hsplit (fun hn => absurd hn (Nat.succ_ne_zero n)) (Nat.lt_of_succ_lt_succ hfuel)
        refine ⟨heap'', m, kids, bounds, heq, htop, hentries, fun least hleast hc hl hr => ?_⟩
        have hleast := hleast.trans_eq hlen₁
        obtain ⟨hleft, hright⟩ := hhalves least hleast hc hl hr heap.length
        exact hfilled least hleast hc.2.2.2 hleft (hright addr)

/-- The place in a leaf at which an entry is added is where `boundTree_insert` puts it. -/
theorem Separates.findBoundPosition_eq {b : ℤ} {entries : List (BoundListEntry ι)} {addr : ℕ}
    {before : List (EntryTree ι 0 × BoundListEntry ι)}
    {after : List (BoundListEntry ι × EntryTree ι 0)} {c : EntryPlace ι 1}
    (h : Separates (fun x => decide (x.bakedBound ≤ b)) entries 0 (.under addr before after c) ())
    {node : Node ι} (hnode : node.bounds = before.map Prod.snd ++ after.map Prod.fst) :
    findBoundPosition b node = before.length := by
  obtain ⟨⟨hleft, hright⟩, -⟩ := h
  have hall : ∀ x ∈ before.map Prod.snd, decide (x.bakedBound ≤ b) = true := by
    intro x hx
    obtain ⟨q, hq, rfl⟩ := List.mem_map.1 hx
    refine hleft q.2 (List.mem_append_right _ (List.mem_flatMap.2 ⟨q, hq, ?_⟩))
    exact List.mem_append_right _ List.mem_cons_self
  rw [findBoundPosition, hnode, List.takeWhile_append_of_pos hall]
  rcases after with _ | ⟨q, after⟩
  · simp
  · have hq : ¬ decide (q.1.bakedBound ≤ b) :=
      hright q.1 (List.mem_append_left _ List.mem_cons_self)
    simp only [List.map_cons, List.takeWhile_cons, hq, Bool.false_eq_true, if_false,
      List.append_nil, List.length_map]

/-- `boundTree_add` puts the entry behind all entries that are not greater. -/
theorem add_tree {kids : List (EntryTree ι n)} {bounds : List (BoundListEntry ι)}
    (hroot : Placed heap .top (.node 0 kids bounds))
    (hsorted : Sorted ((Subtree.node 0 kids bounds).entries (n + 1))) {bound : ℤ} {isStart : Bool}
    (hb : bakeBound bound isStart = .ok (baked bound isStart)) (i : ι) :
    ∃ heap' m kids' bounds', add heap bound isStart i = .ok heap'
      ∧ Placed heap' .top (.node 0 kids' bounds' : EntryTree ι (m + 1))
      ∧ Sorted ((Subtree.node 0 kids' bounds').entries (m + 1))
      ∧ ((Subtree.node 0 kids' bounds').entries (m + 1)).Perm
        (⟨baked bound isStart, i⟩ :: (Subtree.node 0 kids bounds).entries (n + 1))
      ∧ ∀ least ≤ maxEntryCount / 2, (Subtree.node 0 kids bounds).Filled least (n + 1) true →
        (Subtree.node 0 kids' bounds').Filled least (m + 1) true := by
  obtain ⟨addr, before, after, c, hwalk, hleaf, hsep, hplace⟩ := walkDown_cut
    (p := fun x => decide (x.bakedBound ≤ baked bound isStart))
    (fun x y hxy hy => by simp at hy ⊢; omega) hroot rfl hsorted
  have hdepth := (at_under_iff.1 hleaf).height_add_depth_le
  have hsplit : @Split ι 0 heap (.under addr before after c) () () :=
    ⟨trivial, trivial, hleaf.context, hleaf.nodup⟩
  obtain ⟨heap', m, kids', bounds', hinsert, htop, hentries, hfilled⟩ :=
    insert_spec (e := ⟨baked bound isStart, i⟩) hsplit
      (fun _ node hnode => hsep.findBoundPosition_eq
        (congrArg Cell.bounds (Option.some.inj (hnode.symm.trans hleaf.cell))))
      (show c.depth < heap.length + 1 by omega)
  obtain ⟨⟨hleft, hright⟩, heq⟩ := hsep
  rw [show Subtree.entries 0 (() : EntryTree ι 0) = [] from rfl, List.append_nil] at heq
  have hnew :
    (Subtree.node 0 kids' bounds').entries (m + 1) = (Place.under addr before after c).left
      ++ ⟨baked bound isStart, i⟩ :: (Place.under addr before after c).right :=
    hentries.trans (by simp [around, Subtree.entries])
  refine ⟨heap', m, kids', bounds', ?_, htop, ?_, ?_, fun least hleast hold =>
    hfilled least hleast (hplace least hold) trivial trivial⟩
  · rw [add, hb, Outcome.ok_bind, hroot.tree.1, access_some, Outcome.ok_bind]
    exact (congrArg (· >>= _) hwalk).trans hinsert
  · rw [← heq] at hsorted
    rw [hnew]
    obtain ⟨hsl, hsr, hlr⟩ := List.pairwise_append.1 hsorted
    refine List.pairwise_append.2 ⟨hsl, List.pairwise_cons.2 ⟨fun y hy => ?_, hsr⟩,
      fun x hx y hy => ?_⟩
    · have := hright y hy
      simp at this
      exact this.le
    · rcases List.mem_cons.1 hy with rfl | hy
      · simpa using hleft x hx
      · exact hlr x hx y hy
  · rw [hnew, ← heq]
    exact List.perm_middle

theorem add_spec {entries : List (BoundListEntry ι)} (h : Rep heap entries) {bound : ℤ}
    (hb : InBounds bound) (isStart : Bool) (i : ι) : ∃ heap' entries',
      add heap bound isStart i = .ok heap' ∧ Rep heap' entries'
        ∧ entries'.Perm (⟨baked bound isStart, i⟩ :: entries) := by
  obtain ⟨hsorted, n, kids, bounds, hroot, rfl⟩ := h
  obtain ⟨heap', m, kids', bounds', hadd, htop, hsorted', hperm, -⟩ :=
    add_tree hroot hsorted (bakeBound_eq hb isStart) i
  exact ⟨heap', _, hadd, ⟨hsorted', m, kids', bounds', htop, rfl⟩, hperm⟩

end Insert

theorem implements : (boundTree ι).Implements Rep where
  create := by
    refine ⟨List.Pairwise.nil, 0, [()], [],
      ⟨⟨rfl, rfl, Nat.zero_le _, fun _ _ => trivial⟩, rfl, ?_⟩, rfl⟩
    exact List.nodup_singleton 0
  add h bound hb isStart i := add_spec h hb isStart i
  enumerate h bound hb isStart :=
    BoundListVtable.enumerate_spec h.1 (findFirst_spec h hb isStart) fun it x l h =>
      nextEntry_spec h

end Esdm.BoundTree

namespace Esdm.BoundListVtable

variable {ι : Type} {vtable : BoundListVtable ι}
  {Rep : vtable.Store → List (BoundListEntry ι) → Prop}

/-- An `add` call: the bound, its kind and the index. -/
abbrev Added (ι : Type) := ℤ × Bool × ι

/-- A sequence of `add` calls. -/
def addAll (vtable : BoundListVtable ι) : List (Added ι) → vtable.Store → Outcome vtable.Store
  | [], list => .ok list
  | (bound, isStart, cubeIndex) :: calls, list => do
    let list ← vtable.add list bound isStart cubeIndex
    vtable.addAll calls list

/-- The indices that were added with the bound and the kind. -/
def added (calls : List (Added ι)) (bound : ℤ) (isStart : Bool) : List ι :=
  (calls.filter fun call => decide (call.1 = bound ∧ call.2.1 = isStart)).map fun call => call.2.2

/-- After the calls, the enumeration of a bound comes to an end, with the indices that were added
with it, each as often as it was added; and there is a first one if there is one. -/
def Agrees (vtable : BoundListVtable ι) (calls : List (Added ι)) (bound : ℤ) (isStart : Bool) :
    Prop :=
  ∃ list, vtable.addAll calls vtable.create = .ok list
    ∧ (∃ indices, (∀ fuel, indices.length ≤ fuel →
          vtable.enumerate fuel list bound isStart = .ok indices)
        ∧ indices.Perm (added calls bound isStart))
    ∧ (vtable.findFirst list bound isStart = .ok none ↔ added calls bound isStart = [])

theorem Implements.addAll (h : vtable.Implements Rep) {calls : List (Added ι)}
    (hcalls : ∀ call ∈ calls, InBounds call.1) {s : vtable.Store} {l : List (BoundListEntry ι)}
    (hs : Rep s l) : ∃ s' l', vtable.addAll calls s = .ok s' ∧ Rep s' l'
      ∧ l'.Perm (calls.map (fun call => ⟨baked call.1 call.2.1, call.2.2⟩) ++ l) := by
  induction calls generalizing s l with
  | nil => exact ⟨s, l, rfl, hs, .refl l⟩
  | cons call calls ih =>
    obtain ⟨bound, isStart, i⟩ := call
    obtain ⟨s₁, l₁, hadd, hs₁, hperm₁⟩ := h.add hs (hcalls _ List.mem_cons_self) isStart i
    obtain ⟨s', l', hrest, hs', hperm⟩ :=
      ih (fun call hc => hcalls call (List.mem_cons_of_mem _ hc)) hs₁
    refine ⟨s', l', ?_, hs', hperm.trans ((hperm₁.append_left _).trans List.perm_middle)⟩
    rw [BoundListVtable.addAll, hadd, Outcome.ok_bind, hrest]

theorem withBound_calls (calls : List (Added ι)) (bound : ℤ) (isStart : Bool) :
    (withBound (baked bound isStart)
        (calls.map fun call => ⟨baked call.1 call.2.1, call.2.2⟩)).map BoundListEntry.cubeIndex
      = added calls bound isStart := by
  simp only [withBound, List.filter_map, List.map_map, added, Function.comp_def, baked_inj]

theorem Implements.agrees (h : vtable.Implements Rep) {calls : List (Added ι)}
    (hcalls : ∀ call ∈ calls, InBounds call.1) {bound : ℤ} (hb : InBounds bound) (isStart : Bool) :
    vtable.Agrees calls bound isStart := by
  obtain ⟨s, l, hadd, hs, hperm⟩ := h.addAll hcalls h.create
  rw [List.append_nil] at hperm
  obtain ⟨henum, hfirst⟩ := h.enumerate hs hb isStart
  have hfound := (withBound_perm hperm (b := baked bound isStart)).map BoundListEntry.cubeIndex
  rw [withBound_calls] at hfound
  refine ⟨s, hadd, ⟨_, fun fuel hfuel => henum fuel (by simpa using hfuel), hfound⟩, ?_⟩
  rw [hfirst, ← List.length_eq_zero_iff, ← List.length_eq_zero_iff, ← hfound.length_eq,
    List.length_map]

/-- The sorted array and the B-tree hold the same multisets. -/
theorem boundLists_agree {calls : List (Added ι)} (hcalls : ∀ call ∈ calls, InBounds call.1)
    {bound : ℤ} (hb : InBounds bound) (isStart : Bool) :
    (boundArray ι).Agrees calls bound isStart ∧ (boundTree ι).Agrees calls bound isStart :=
  ⟨BoundArray.implements.agrees hcalls hb isStart, BoundTree.implements.agrees hcalls hb isStart⟩

/-- Two hypercubes start where a third one ends. -/
theorem boundLists_agree_three :
    let calls := [(0, true, 1), (0, false, 2), (0, true, 3)]
    added calls 0 true = [1, 3] ∧ (boundArray ℕ).Agrees calls 0 true
      ∧ (boundTree ℕ).Agrees calls 0 true :=
  ⟨by decide, boundLists_agree (by decide) (by decide) true⟩

end Esdm.BoundListVtable
