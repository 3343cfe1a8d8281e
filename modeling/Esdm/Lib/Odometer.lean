import Mathlib.Algebra.BigOperators.Group.List.Basic
import Mathlib.Data.List.Forall2
import Mathlib.Data.List.Nodup
import Mathlib.Tactic.Common

/-!
# Odometers

A vector of digits below their sizes, the last digit moving first, visits every vector below the
sizes exactly once, in lexicographic order (`all_eq_tuples`).  The loop tests a digit only after
it has moved, so a size of zero counts as one.

A loop `x := f x` until `f` gives nothing follows a chain (`Chain`), and a chain that covers the
values in some order is the loop's whole trace (`trace_eq_of_chain`).
-/

namespace Odometer

variable {α β : Type*}

section Trace

/-- The values a loop `x := f x` passes through, from `a`, in at most `fuel` rounds. -/
def trace (f : α → Option α) : ℕ → α → List α
  | 0, _ => []
  | fuel + 1, a =>
    a :: match f a with
      | none => []
      | some b => trace f fuel b

/-- `f` leads from each element of the list to the next, and from the last one to `e`. -/
def Chain (f : α → Option α) (e : Option α) : List α → Prop
  | [] => False
  | [a] => f a = e
  | a :: b :: l => f a = some b ∧ Chain f e (b :: l)

theorem trace_eq_of_chain (f : α → Option α) (k : ℕ) :
    ∀ (l : List α) (a : α), Chain f none (a :: l) → trace f (l.length + 1 + k) a = a :: l
  | [], a, h => by
    simp only [Chain] at h
    rw [List.length_nil, Nat.zero_add, Nat.add_comm, trace, h]
  | b :: l, a, h => by
    obtain ⟨h1, h2⟩ := h
    have ih := trace_eq_of_chain f k l b h2
    rw [List.length_cons, Nat.add_right_comm, trace, h1]
    simp only [ih]

theorem Chain.append {f : α → Option α} {e : Option α} {a : α} {l₂ : List α} :
    ∀ {l₁ : List α}, Chain f (some a) l₁ → Chain f e (a :: l₂) → Chain f e (l₁ ++ a :: l₂)
  | [], h, _ => h.elim
  | [_], h, h' => ⟨h, h'⟩
  | _ :: _ :: _, h, h' => ⟨h.1, h.2.append h'⟩

/-- A map that follows `f` along the list carries its chain over. -/
theorem Chain.map {f : α → Option α} {g : β → Option β} {e' : Option β} {m : α → β} :
    ∀ {l : List α}, (∀ a ∈ l, ∀ b, f a = some b → g (m a) = some (m b)) →
      (∀ a ∈ l, f a = none → g (m a) = e') → Chain f none l → Chain g e' (l.map m)
  | [], _, _, h => h.elim
  | [a], _, he, h => he a (by simp) h
  | a :: b :: _, hm, he, h =>
    ⟨hm a (by simp) b h.1, h.2.map (fun c hc => hm c (List.mem_cons_of_mem _ hc))
      fun c hc => he c (List.mem_cons_of_mem _ hc)⟩

end Trace

/-- One move: the last digit first, a digit that reaches its size going back to zero and carrying
over.  `none` once the first digit carries. -/
def next : List ℕ → List ℕ → Option (List ℕ)
  | n :: ns, c :: cs =>
    match next ns cs with
    | some cs' => some (c :: cs')
    | none => if c + 1 < n then some ((c + 1) :: List.replicate ns.length 0) else none
  | _, _ => none

/-- How many vectors the odometer visits. -/
def count (ns : List ℕ) : ℕ := (ns.map (max 1)).prod

/-- The vectors a do-while loop over the odometer passes through, from all zeros. -/
def all (ns : List ℕ) : List (List ℕ) := trace (next ns) (count ns) (List.replicate ns.length 0)

/-- The vectors below the sizes, in lexicographic order. -/
def tuples : List ℕ → List (List ℕ)
  | [] => [[]]
  | n :: ns => (List.range n).flatMap fun i => (tuples ns).map (i :: ·)

theorem mem_tuples : ∀ {ns c : List ℕ}, c ∈ tuples ns ↔ List.Forall₂ (· < ·) c ns
  | [], c => by simp [tuples]
  | n :: ns, c => by
    simp only [tuples, List.mem_flatMap, List.mem_range, List.mem_map]
    constructor
    · rintro ⟨i, hi, cs, hcs, rfl⟩
      exact .cons hi (mem_tuples.1 hcs)
    · rintro (_ | ⟨hi, hcs⟩)
      exact ⟨_, hi, _, mem_tuples.2 hcs, rfl⟩

theorem nodup_tuples : ∀ ns : List ℕ, (tuples ns).Nodup
  | [] => by simp [tuples]
  | n :: ns => by
    rw [tuples, List.nodup_flatMap]
    refine ⟨fun i _ => (nodup_tuples ns).map (List.cons_injective), ?_⟩
    refine List.nodup_range.imp ?_
    intro i j hij l hi hj
    obtain ⟨a, -, rfl⟩ := List.mem_map.1 hi
    obtain ⟨b, -, hb⟩ := List.mem_map.1 hj
    exact hij (List.cons.inj hb).1.symm

theorem length_tuples : ∀ ns : List ℕ, (tuples ns).length = ns.prod
  | [] => by simp [tuples]
  | n :: ns => by
    simp [tuples, List.length_flatMap, length_tuples ns]

theorem length_of_mem_tuples {ns c : List ℕ} (h : c ∈ tuples ns) : c.length = ns.length :=
  (mem_tuples.1 h).length_eq

/-- The blocks of leading digit `i, i + 1, …, n - 1`. -/
def blocks (t : List (List ℕ)) (i n : ℕ) : List (List ℕ) :=
  (List.range' i (n - i)).flatMap fun j => t.map (j :: ·)

theorem blocks_self {t : List (List ℕ)} {n : ℕ} : blocks t n n = [] := by simp [blocks]

theorem blocks_succ {t : List (List ℕ)} {i n : ℕ} (h : i < n) :
    blocks t i n = t.map (i :: ·) ++ blocks t (i + 1) n := by
  obtain ⟨k, rfl⟩ : ∃ k, n = i + (k + 1) := ⟨n - i - 1, by omega⟩
  have h1 : i + (k + 1) - i = k + 1 := by omega
  have h2 : i + (k + 1) - (i + 1) = k := by omega
  rw [blocks, blocks, h1, h2, List.range'_succ, List.flatMap_cons]

theorem next_cons_some {n c : ℕ} {ns cs cs' : List ℕ} (h : next ns cs = some cs') :
    next (n :: ns) (c :: cs) = some (c :: cs') := by
  simp [next, h]

theorem next_cons_none {n c : ℕ} {ns cs : List ℕ} (h : next ns cs = none) :
    next (n :: ns) (c :: cs) =
      if c + 1 < n then some ((c + 1) :: List.replicate ns.length 0) else none := by
  simp [next, h]

theorem tuples_head : ∀ {ns : List ℕ}, (∀ n ∈ ns, 0 < n) →
    ∃ l, tuples ns = List.replicate ns.length 0 :: l
  | [], _ => ⟨[], rfl⟩
  | n :: ns, h => by
    obtain ⟨l, hl⟩ := tuples_head fun m hm => h m (List.mem_cons_of_mem _ hm)
    obtain ⟨k, rfl⟩ : ∃ k, n = k + 1 := ⟨n - 1, by have := h n (by simp); omega⟩
    rw [tuples, List.range_succ_eq_map, List.flatMap_cons, hl, List.map_cons, List.cons_append]
    exact ⟨_, rfl⟩

theorem tuples_eq_blocks (n : ℕ) (ns : List ℕ) : tuples (n :: ns) = blocks (tuples ns) 0 n := by
  rw [tuples, blocks, Nat.sub_zero, List.range_eq_range']

theorem chain_blocks {n : ℕ} {ns : List ℕ} (h : ∀ m ∈ ns, 0 < m)
    (hc : Chain (next ns) none (tuples ns)) :
    ∀ (k i : ℕ), i + (k + 1) = n → Chain (next (n :: ns)) none (blocks (tuples ns) i n)
  | 0, i, hi => by
    rw [blocks_succ (show i < n by omega), show i + 1 = n by omega, blocks_self, List.append_nil]
    refine hc.map (fun a _ b hab => next_cons_some hab) fun a _ ha => ?_
    rw [next_cons_none ha, if_neg (show ¬ i + 1 < n by omega)]
  | k + 1, i, hi => by
    have ih := chain_blocks (n := n) h hc k (i + 1) (by omega)
    obtain ⟨l, hl⟩ := tuples_head h
    rw [blocks_succ (show i + 1 < n by omega), hl, List.map_cons, List.cons_append, ← hl] at ih
    rw [blocks_succ (show i < n by omega), blocks_succ (show i + 1 < n by omega)]
    nth_rewrite 2 [hl]
    refine Chain.append ?_ ih
    refine hc.map (fun a _ b hab => next_cons_some hab) fun a _ ha => ?_
    rw [next_cons_none ha, if_pos (show i + 1 < n by omega)]

theorem chain_tuples : ∀ {ns : List ℕ}, (∀ n ∈ ns, 0 < n) → Chain (next ns) none (tuples ns)
  | [], _ => rfl
  | n :: ns, h => by
    have hns : ∀ m ∈ ns, 0 < m := fun m hm => h m (List.mem_cons_of_mem _ hm)
    have hn := h n (by simp)
    rw [tuples_eq_blocks]
    exact chain_blocks hns (chain_tuples hns) (n - 1) 0 (by omega)

theorem next_map_max : ∀ ns cs : List ℕ, next (ns.map (max 1)) cs = next ns cs
  | [], _ => rfl
  | _ :: _, [] => rfl
  | n :: ns, c :: cs => by
    have hlt : c + 1 < max 1 n ↔ c + 1 < n := by omega
    simp only [List.map_cons, next, next_map_max ns cs, hlt, List.length_map]

theorem trace_count_add (ns : List ℕ) (k : ℕ) :
    trace (next ns) (count ns + k) (List.replicate ns.length 0) = tuples (ns.map (max 1)) := by
  have hpos : ∀ n ∈ ns.map (max 1), 0 < n := by
    intro n hn
    obtain ⟨m, -, rfl⟩ := List.mem_map.1 hn
    omega
  obtain ⟨l, hl⟩ := tuples_head hpos
  have hc := chain_tuples hpos
  have hlen := length_tuples (ns.map (max 1))
  rw [hl, List.length_cons] at hlen
  rw [hl] at hc ⊢
  have hnext : next (ns.map (max 1)) = next ns := funext (next_map_max ns)
  rw [hnext, List.length_map] at hc
  rw [count, ← hlen, trace_eq_of_chain _ k _ _ hc, List.length_map]

/-- The odometer visits the vectors below the sizes, each once, in lexicographic order. -/
theorem all_eq_tuples (ns : List ℕ) : all ns = tuples (ns.map (max 1)) := trace_count_add ns 0

/-- The loop over the odometer comes to its end: further rounds would add nothing. -/
def Ends (ns : List ℕ) : Prop :=
  ∀ k, trace (next ns) (count ns + k) (List.replicate ns.length 0) = all ns

theorem ends (ns : List ℕ) : Ends ns :=
  fun k => (trace_count_add ns k).trans (all_eq_tuples ns).symm

theorem map_max_of_pos {ns : List ℕ} (h : ∀ n ∈ ns, 0 < n) : ns.map (max 1) = ns := by
  conv_rhs => rw [← List.map_id ns]
  refine List.map_congr_left fun n hn => ?_
  have := h n hn
  simp only [id]
  omega

theorem count_of_pos {ns : List ℕ} (h : ∀ n ∈ ns, 0 < n) : count ns = (tuples ns).length := by
  rw [count, map_max_of_pos h, length_tuples]

theorem all_of_pos {ns : List ℕ} (h : ∀ n ∈ ns, 0 < n) : all ns = tuples ns := by
  rw [all_eq_tuples, map_max_of_pos h]

theorem mem_all_of_pos {ns c : List ℕ} (h : ∀ n ∈ ns, 0 < n) :
    c ∈ all ns ↔ List.Forall₂ (· < ·) c ns := by
  rw [all_of_pos h, mem_tuples]

section Digits

/-- The digits of a number, of which the last one counts the units. -/
def digits : List ℕ → ℕ → List ℕ
  | [], _ => []
  | n :: ns, k => k / ns.prod % n :: digits ns k

theorem prod_pos {ns : List ℕ} (h : ∀ n ∈ ns, 0 < n) : 0 < ns.prod := by
  obtain ⟨l, hl⟩ := tuples_head h
  rw [← length_tuples, hl]
  exact Nat.succ_pos _

theorem digits_add_mul : ∀ (ns : List ℕ) (k q : ℕ), (∀ n ∈ ns, 0 < n) →
    digits ns (q * ns.prod + k) = digits ns k
  | [], _, _, _ => rfl
  | n :: ns, k, q, h => by
    have hns : ∀ m ∈ ns, 0 < m := fun m hm => h m (List.mem_cons_of_mem _ hm)
    have hpos := prod_pos hns
    rw [List.prod_cons, ← mul_assoc, digits, digits, digits_add_mul ns k (q * n) hns,
      Nat.mul_comm (q * n), Nat.mul_add_div hpos, Nat.mul_comm q, Nat.mul_add_mod]

theorem digits_mem_tuples : ∀ {ns : List ℕ}, (∀ n ∈ ns, 0 < n) → ∀ k, digits ns k ∈ tuples ns
  | [], _, _ => by simp [digits, tuples]
  | n :: ns, h, k => by
    rw [mem_tuples]
    exact .cons (Nat.mod_lt _ (h n (by simp)))
      (mem_tuples.1 (digits_mem_tuples (fun m hm => h m (List.mem_cons_of_mem _ hm)) k))

/-- Counting up runs through the vectors below the sizes in their order. -/
theorem map_digits_range : ∀ {ns : List ℕ}, (∀ n ∈ ns, 0 < n) →
    (List.range ns.prod).map (digits ns) = tuples ns
  | [], _ => rfl
  | n :: ns, h => by
    have hns : ∀ m ∈ ns, 0 < m := fun m hm => h m (List.mem_cons_of_mem _ hm)
    have hpos := prod_pos hns
    have ih := map_digits_range hns
    -- the numbers with a leading digit below `m`
    have hlead : ∀ m ≤ n, (List.range (m * ns.prod)).map (digits (n :: ns))
        = (List.range m).flatMap fun i => (tuples ns).map (i :: ·) := by
      intro m hm
      induction m with
      | zero => simp
      | succ m ihm =>
        rw [Nat.succ_mul, List.range_add, List.map_append, ihm (by omega), List.range_succ,
          List.flatMap_append, List.flatMap_singleton, ← ih, List.map_map, List.map_map]
        congr 1
        refine List.map_congr_left fun r hr => ?_
        have hr := List.mem_range.1 hr
        simp only [Function.comp, digits]
        rw [digits_add_mul ns r m hns, Nat.mul_comm m, Nat.mul_add_div hpos, Nat.div_eq_of_lt hr,
          Nat.add_zero, Nat.mod_eq_of_lt (by omega)]
    exact hlead n (Nat.le_refl n)

end Digits

end Odometer
