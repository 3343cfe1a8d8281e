import Esdm.Proofs.BoundTree

/-!
# The shape of the B-tree

What `boundTree_add` keeps of the nodes that are reached from the root, which stays where it is: how
many entries and children they have, that all leaves are at the same depth, and that the parent
pointers lead back.
-/

namespace Esdm.BoundTree

open BTree

variable {ι : Type} {heap : Heap ι} {n : ℕ}

/-- The nodes that are reached from the root, with their depth. -/
inductive InTree (heap : Heap ι) : ℕ → ℕ → Prop
  | root : InTree heap 0 0
  | child {depth me child : ℕ} {node : Node ι} (h : InTree heap depth me)
      (hnode : heap[me]? = some node) (hchild : some child ∈ node.children) :
      InTree heap (depth + 1) child

/-- The entries below a pointer in order, with a bound on the number of levels. -/
def inorder (heap : Heap ι) : ℕ → Option ℕ → List (BoundListEntry ι)
  | fuel + 1, some me =>
    (heap[me]?.map fun node => weave (node.children.map (inorder heap fuel)) node.bounds).getD []
  | _, _ => []

/-- The tree holds the given entries, its nodes are filled at least to the half, all its leaves are
at the same depth, and the children of a node have the node as their parent. -/
structure Balanced (heap : Heap ι) (added : List (BoundListEntry ι)) : Prop where
  sorted : Sorted (inorder heap heap.length (some 0))
  perm : (inorder heap heap.length (some 0)).Perm added
  root : ∃ node, heap[0]? = some node ∧ node.parent = none
  entryCount : ∀ depth me, InTree heap depth me → ∃ node, heap[me]? = some node
    ∧ node.bounds.length ≤ maxEntryCount ∧ (0 < depth → maxEntryCount / 2 ≤ node.bounds.length)
    ∧ node.children.length = node.bounds.length + 1
  parents : ∀ depth me node, InTree heap depth me → heap[me]? = some node →
    ∀ child, some child ∈ node.children → ∃ childNode, heap[child]? = some childNode
      ∧ childNode.parent = some me
  leaves : ∃ height, ∀ depth me node, InTree heap depth me → heap[me]? = some node →
    (depth < height ∧ ∀ child ∈ node.children, child ≠ none)
      ∨ (depth = height ∧ ∀ child ∈ node.children, child = none)

section Shape

variable {parent : Option ℕ}

theorem inorder_eq {t : EntryTree ι n} (h : BTree.Rep maxEntryCount heap n parent t) {fuel : ℕ}
    (hfuel : n ≤ fuel) : inorder heap fuel t.ptr = t.entries n := by
  induction n generalizing parent fuel with
  | zero => cases fuel <;> rfl
  | succ n ih =>
    obtain ⟨fuel, rfl⟩ := Nat.exists_eq_succ_of_ne_zero (by omega : fuel ≠ 0)
    obtain ⟨addr, kids, bounds⟩ := t
    obtain ⟨hcell, -, -, hkids⟩ := h
    have hmap : (kids.map Subtree.ptr).map (inorder heap fuel) = kids.map (Subtree.entries n) := by
      rw [List.map_map]
      exact List.map_congr_left fun k hk => ih (hkids k hk) (by omega)
    change (heap[addr]?.map fun node => weave (node.children.map (inorder heap fuel))
      node.bounds).getD [] = weave (kids.map (Subtree.entries n)) bounds
    rw [hcell, ← hmap]
    rfl

/-- Each node of the tree is the root of a subtree. -/
theorem InTree.subtree {height : ℕ} {kids₀ : List (EntryTree ι height)}
    {bounds₀ : List (BoundListEntry ι)} {least : ℕ}
    (hroot : Placed heap .top (.node 0 kids₀ bounds₀))
    (hfilled : (Subtree.node 0 kids₀ bounds₀).Filled least (height + 1) true) {depth me : ℕ}
    (h : InTree heap depth me) : ∃ n parent kids bounds, depth + n = height
      ∧ BTree.Rep maxEntryCount heap (n + 1) parent (.node me kids bounds : EntryTree ι (n + 1))
      ∧ (Subtree.node me kids bounds).Filled least (n + 1) (decide (depth = 0)) := by
  induction h with
  | root => exact ⟨height, none, kids₀, bounds₀, Nat.zero_add _, hroot.tree, hfilled⟩
  | @child depth me child node h hnode hchild ih =>
    obtain ⟨n, parent, kids, bounds, hdepth, ⟨hcell, -, -, hkids⟩, -, hfilled⟩ := ih
    obtain rfl := Option.some.inj (hcell.symm.trans hnode)
    obtain ⟨k, hk, hptr⟩ := List.mem_map.1 hchild
    rcases n with _ | n
    · cases hptr
    · obtain ⟨addr, kids', bounds'⟩ := k
      obtain rfl : addr = child := Option.some.inj hptr
      exact ⟨n, some me, kids', bounds', by omega, hkids _ hk, hfilled _ hk⟩

theorem balanced_of_tree {kids : List (EntryTree ι n)} {bounds added : List (BoundListEntry ι)}
    (hroot : Placed heap .top (.node 0 kids bounds))
    (hsorted : Sorted ((Subtree.node 0 kids bounds).entries (n + 1)))
    (hfilled : (Subtree.node 0 kids bounds).Filled (maxEntryCount / 2) (n + 1) true)
    (hperm : ((Subtree.node 0 kids bounds).entries (n + 1)).Perm added) : Balanced heap added := by
  have hheight := hroot.height_add_depth_le
  have horder : inorder heap heap.length (some 0) = (Subtree.node 0 kids bounds).entries (n + 1) :=
    inorder_eq hroot.tree hheight
  refine ⟨horder ▸ hsorted, horder ▸ hperm, ⟨_, hroot.tree.1, rfl⟩, ?_, ?_, n, ?_⟩
  · intro depth me h
    obtain ⟨m, parent, kids, bounds, -, ⟨hcell, hlen, hcap, -⟩, hleast, -⟩ :=
      h.subtree hroot hfilled
    refine ⟨_, hcell, hcap, fun hpos => hleast (decide_eq_false (by omega)), ?_⟩
    rw [List.length_map, hlen]
  · intro depth me node h hnode child hchild
    obtain ⟨m, parent, kids, bounds, -, ⟨hcell, -, -, hkids⟩, -⟩ := h.subtree hroot hfilled
    obtain rfl := Option.some.inj (hcell.symm.trans hnode)
    obtain ⟨k, hk, hptr⟩ := List.mem_map.1 hchild
    rcases m with _ | m
    · cases hptr
    · obtain ⟨addr, kids', bounds'⟩ := k
      obtain rfl : addr = child := Option.some.inj hptr
      exact ⟨_, (hkids _ hk).1, rfl⟩
  · intro depth me node h hnode
    obtain ⟨m, parent, kids, bounds, hdepth, ⟨hcell, -, -, -⟩, -⟩ := h.subtree hroot hfilled
    obtain rfl := Option.some.inj (hcell.symm.trans hnode)
    rcases m with _ | m
    · refine .inr ⟨hdepth, List.forall_mem_map.2 fun k _ => rfl⟩
    · refine .inl ⟨by omega, List.forall_mem_map.2 fun k _ => ?_⟩
      exact Option.some_ne_none _

end Shape

section Calls

open BoundListVtable

/-- The entry of a call. -/
def entryOf (call : Added ι) : BoundListEntry ι := ⟨baked call.1 call.2.1, call.2.2⟩

theorem bakeBound_of_ok {bound b : ℤ} {isStart : Bool} (h : bakeBound bound isStart = .ok b) :
    bakeBound bound isStart = .ok (baked bound isStart) := by
  change int64 (baked bound isStart) = .ok b at h
  change int64 (baked bound isStart) = .ok (baked bound isStart)
  unfold int64 at h ⊢
  split_ifs at h ⊢
  rfl

theorem addAll_of_tree {calls : List (Added ι)}
    (hcalls : ∀ call ∈ calls, ∃ b, bakeBound call.1 call.2.1 = .ok b) {kids : List (EntryTree ι n)}
    {bounds added : List (BoundListEntry ι)} (hroot : Placed heap .top (.node 0 kids bounds))
    (hsorted : Sorted ((Subtree.node 0 kids bounds).entries (n + 1)))
    (hfilled : (Subtree.node 0 kids bounds).Filled (maxEntryCount / 2) (n + 1) true)
    (hperm : ((Subtree.node 0 kids bounds).entries (n + 1)).Perm added) :
    ∃ heap', (boundTree ι).addAll calls heap = .ok heap'
      ∧ Balanced heap' (calls.map entryOf ++ added) := by
  induction calls generalizing heap n bounds added with
  | nil => exact ⟨heap, rfl, balanced_of_tree hroot hsorted hfilled hperm⟩
  | cons call calls ih =>
    obtain ⟨bound, isStart, i⟩ := call
    obtain ⟨b, hb⟩ := hcalls _ List.mem_cons_self
    obtain ⟨heap₁, m, kids₁, bounds₁, hadd, hroot₁, hsorted₁, hperm₁, hfilled₁⟩ :=
      add_tree hroot hsorted (bakeBound_of_ok hb) i
    obtain ⟨heap', hrest, hbalanced⟩ := ih (fun call hc => hcalls call (List.mem_cons_of_mem _ hc))
      hroot₁ hsorted₁ (hfilled₁ _ le_rfl hfilled) (hperm₁.trans (hperm.cons _))
    refine ⟨heap', ?_, ?_⟩
    · exact (congrArg (· >>= (boundTree ι).addAll calls) hadd).trans hrest
    · have hmiddle : (calls.map entryOf ++ entryOf (bound, isStart, i) :: added).Perm
          ((((bound, isStart, i) :: calls).map entryOf) ++ added) := List.perm_middle
      exact { hbalanced with perm := hbalanced.perm.trans hmiddle }

theorem bakeBound_of_addAll {calls : List (Added ι)} {heap heap' : Heap ι}
    (h : (boundTree ι).addAll calls heap = .ok heap') :
    ∀ call ∈ calls, ∃ b, bakeBound call.1 call.2.1 = .ok b := by
  induction calls generalizing heap with
  | nil => simp
  | cons call calls ih =>
    obtain ⟨bound, isStart, i⟩ := call
    obtain ⟨heap₁, hadd, hrest⟩ := Outcome.bind_eq_ok.1 h
    obtain ⟨b, hb, -⟩ := Outcome.bind_eq_ok.1 hadd
    exact List.forall_mem_cons.2 ⟨⟨b, hb⟩, ih hrest⟩

/-- Every sequence of `boundTree_add` calls returns unless a bound overflows when it is baked, and
then the tree is balanced and holds the entries that were added. -/
theorem addAll_balanced (calls : List (Added ι)) :
    ((∀ call ∈ calls, ∃ b, bakeBound call.1 call.2.1 = .ok b) →
        ∃ heap, (boundTree ι).addAll calls (boundTree ι).create = .ok heap)
      ∧ ∀ heap, (boundTree ι).addAll calls (boundTree ι).create = .ok heap →
        Balanced heap (calls.map entryOf) := by
  have hroot : @Placed ι 1 (boundTree ι).create .top (.node 0 [()] []) :=
    ⟨⟨rfl, rfl, Nat.zero_le _, fun _ _ => trivial⟩, rfl, List.nodup_singleton 0⟩
  have hrun : ∀ {calls : List (Added ι)}, (∀ call ∈ calls, ∃ b, bakeBound call.1 call.2.1 = .ok b) →
      ∃ heap, (boundTree ι).addAll calls (boundTree ι).create = .ok heap
        ∧ Balanced heap (calls.map entryOf ++ []) := fun hcalls =>
    addAll_of_tree hcalls hroot List.Pairwise.nil ⟨nofun, fun _ _ => trivial⟩ List.Perm.nil
  refine ⟨fun hcalls => ?_, fun heap h => ?_⟩
  · obtain ⟨heap, heq, -⟩ := hrun hcalls
    exact ⟨heap, heq⟩
  · obtain ⟨heap', heq, hbalanced⟩ := hrun (bakeBound_of_addAll h)
    obtain rfl := Except.ok.inj (heq.symm.trans h)
    rwa [List.append_nil] at hbalanced

end Calls

end Esdm.BoundTree
