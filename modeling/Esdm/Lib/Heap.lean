import Mathlib.Tactic.Common

/-!
# Memory in blocks

Each allocation makes a block with a number that no block has had before, so that a pointer to a
block that has been freed stays invalid.
-/

/-- The blocks that have been allocated, `none` for those that have been freed. -/
structure Heap (B : Type) where
  blocks : List (Option B)

namespace Heap

variable {B : Type} (h : Heap B) {b c : ℕ} {x y : B}

def get? (b : ℕ) : Option B := h.blocks[b]?.join

/-- The number of the next block. -/
def fresh : ℕ := h.blocks.length

def alloc (x : B) : Heap B := ⟨h.blocks ++ [some x]⟩

def free (b : ℕ) : Heap B := ⟨h.blocks.set b none⟩

/-- Something else is written to a block. -/
def set (b : ℕ) (x : B) : Heap B := ⟨h.blocks.set b (some x)⟩

variable {h}

theorem lt_fresh (hb : h.get? b = some x) : b < h.fresh := by
  have hblock : h.blocks[b]? = some (some x) := Option.join_eq_some_iff.1 hb
  exact (List.getElem?_eq_some_iff.1 hblock).1

@[simp] theorem get?_fresh : h.get? h.fresh = none := by
  simp [get?, fresh]

@[simp] theorem fresh_set : (h.set b x).fresh = h.fresh := by
  simp [set, fresh]

@[simp] theorem get?_alloc_fresh : (h.alloc x).get? h.fresh = some x := by
  simp [get?, alloc, fresh]

theorem get?_alloc_of_some (hb : h.get? b = some y) : (h.alloc x).get? b = some y := by
  have hlt : b < h.blocks.length := lt_fresh hb
  rw [← hb, get?, alloc, List.getElem?_append_left hlt, get?]

theorem get?_free_of_ne (hne : b ≠ c) : (h.free b).get? c = h.get? c := by
  rw [get?, free, List.getElem?_set_ne hne, get?]

theorem get?_set_self (hb : h.get? b = some y) : (h.set b x).get? b = some x := by
  have hlt : b < h.blocks.length := lt_fresh hb
  rw [get?, set, List.getElem?_set_self hlt, Option.join_some]

theorem get?_set_of_ne (hne : b ≠ c) : (h.set b x).get? c = h.get? c := by
  rw [get?, set, List.getElem?_set_ne hne, get?]

end Heap
