import Mathlib.Tactic.Linarith
import Mathlib.Tactic.Ring
import Esdm.Hash

/-!
# The two hashes

Both functions compute a polynomial in the prime, whose coefficients are the number of dimensions
and the coordinates.  `esdmI_hypercube_hashOffsetSize` computes it modulo `2^32` from the start;
`esdmI_hypercube_hash` multiplies the coordinates as they are, and the products may overflow
(`hash_agree_iff`).
-/

namespace Esdm.Hypercube

/-- The numbers that `int64_t` has. -/
def InInt64 (x : ℤ) : Prop := -2 ^ 63 ≤ x ∧ x < 2 ^ 63

instance (x : ℤ) : Decidable (InInt64 x) := inferInstanceAs (Decidable (_ ∧ _))

theorem int64_eq_ok {x y : ℤ} : int64 x = .ok y ↔ InInt64 x ∧ y = x := by
  unfold int64 InInt64
  split_ifs with h
  · simp only [Except.ok.injEq, h, true_and, and_self, eq_comm]
  · simp only [h, false_and]

section Polynomial

/-- `kRandomPrime` as a number -/
def prime : ℤ := 2146462999

/-- The polynomial without constant term that has the given coefficients, at the prime. -/
def weigh : List ℤ → ℤ
  | [] => 0
  | x :: xs => prime * (x + weigh xs)

/-- What is hashed. -/
def hashed (dim : List Dim) : List ℤ :=
  (dim.length : ℤ) :: dim.flatMap fun d => [d.offset, d.offset + d.size]

/-- The products and sums of `esdmI_hypercube_hash` stay in `int64_t`, when the last factor was `f`
and the result is `s`. -/
def Fits (f s : ℤ) : List ℤ → Prop
  | [] => True
  | x :: xs => InInt64 (f * prime % 2 ^ 32 * x) ∧ InInt64 (s % 2 ^ 32 + f * prime % 2 ^ 32 * x)
      ∧ Fits (f * prime) (s + f * prime * x) xs

theorem fits_iff {f s : ℤ} {xs : List ℤ} : Fits f s xs ↔ ∀ i x, xs[i]? = some x →
    InInt64 (f * prime ^ (i + 1) % 2 ^ 32 * x)
      ∧ InInt64 ((s + f * weigh (xs.take i)) % 2 ^ 32 + f * prime ^ (i + 1) % 2 ^ 32 * x) := by
  induction xs generalizing f s with
  | nil => simp [Fits]
  | cons x xs ih =>
    rw [Fits, ih]
    have hpow : ∀ i, f * prime * prime ^ (i + 1) = f * prime ^ (i + 1 + 1) := fun i => by ring
    have hsum : ∀ i, s + f * prime * x + f * prime * weigh (xs.take i)
        = s + f * weigh ((x :: xs).take (i + 1)) := fun i => by
      rw [List.take_succ_cons, weigh]
      ring
    simp only [hpow, hsum]
    constructor
    · rintro ⟨hproduct, hresult, hrest⟩ i y hy
      rcases i with _ | i
      · obtain rfl := Option.some.inj hy
        simpa [weigh] using ⟨hproduct, hresult⟩
      · exact hrest i y hy
    · intro hall
      have hfirst := hall 0 x rfl
      simp only [Nat.zero_add, pow_one, List.take_zero, weigh, mul_zero, add_zero] at hfirst
      exact ⟨hfirst.1, hfirst.2, fun i y hy => hall (i + 1) y hy⟩

end Polynomial

section Loops

variable {f s : ℤ}

theorem kRandomPrime_eq : kRandomPrime = BitVec.ofInt 32 prime := by decide

theorem factor_eq : BitVec.ofInt 32 f * kRandomPrime = BitVec.ofInt 32 (f * prime) := by
  rw [kRandomPrime_eq, BitVec.ofInt_mul]

theorem toNat_ofInt_eq : ((BitVec.ofInt 32 f).toNat : ℤ) = f % 2 ^ 32 := by
  rw [BitVec.toNat_ofInt, Int.toNat_of_nonneg (Int.emod_nonneg f (by decide))]
  rfl

theorem ofInt_emod (x : ℤ) : BitVec.ofInt 32 (x % 2 ^ 32) = BitVec.ofInt 32 x := by
  apply BitVec.eq_of_toNat_eq
  rw [BitVec.toNat_ofInt, BitVec.toNat_ofInt]
  congr 1
  exact Int.emod_emod_of_dvd x (dvd_refl _)

theorem hashTerm_eq_ok {x : ℤ} {r : BitVec 32 × BitVec 32} :
    hashTerm (BitVec.ofInt 32 f) (BitVec.ofInt 32 s) x = .ok r
      ↔ (InInt64 (f * prime % 2 ^ 32 * x) ∧ InInt64 (s % 2 ^ 32 + f * prime % 2 ^ 32 * x))
        ∧ r = (BitVec.ofInt 32 (f * prime), BitVec.ofInt 32 (s + f * prime * x)) := by
  have hvalue : BitVec.ofInt 32 (s % 2 ^ 32 + f * prime % 2 ^ 32 * x)
      = BitVec.ofInt 32 (s + f * prime * x) := by
    simp only [BitVec.ofInt_add, BitVec.ofInt_mul _ x, ofInt_emod]
  unfold hashTerm
  simp only [factor_eq, toNat_ofInt_eq, Outcome.bind_eq_ok, int64_eq_ok]
  constructor
  · rintro ⟨product, ⟨hproduct, rfl⟩, sum, ⟨hsum, rfl⟩, hr⟩
    rw [hvalue] at hr
    exact ⟨⟨hproduct, hsum⟩, (Except.ok.inj hr).symm⟩
  · rintro ⟨⟨hproduct, hsum⟩, rfl⟩
    refine ⟨_, ⟨hproduct, rfl⟩, _, ⟨hsum, rfl⟩, ?_⟩
    rw [hvalue]
    rfl

/-- The ranges that are made from offsets and sizes. -/
def rangesOf (dim : List Dim) : Hypercube := dim.map fun d => ⟨d.offset, d.offset + d.size⟩

theorem make_eq {dim : List Dim} (hsum : ∀ d ∈ dim, InInt64 (d.offset + d.size)) :
    make dim = .ok (rangesOf dim) := by
  induction dim with
  | nil => rfl
  | cons d dim ih =>
    have hstop := int64_eq_ok.2 ⟨hsum d List.mem_cons_self, rfl⟩
    rw [make, hstop, Outcome.ok_bind, ih fun d hd => hsum d (List.mem_cons_of_mem _ hd)]
    rfl

theorem hashLoop_eq_ok {dim : List Dim} {v : BitVec 32} :
    hashLoop (rangesOf dim) (BitVec.ofInt 32 f) (BitVec.ofInt 32 s) = .ok v
      ↔ Fits f s (dim.flatMap fun d => [d.offset, d.offset + d.size])
        ∧ v = BitVec.ofInt 32
          (s + f * weigh (dim.flatMap fun d => [d.offset, d.offset + d.size])) := by
  induction dim generalizing f s with
  | nil => simp [rangesOf, hashLoop, Fits, weigh, eq_comm]
  | cons d dim ih =>
    have hsum : ∀ w, s + f * prime * d.offset + f * prime * prime * (d.offset + d.size)
        + f * prime * prime * w
          = s + f * (prime * (d.offset + prime * (d.offset + d.size + w))) := fun w => by ring
    rw [rangesOf, List.map_cons, ← rangesOf, hashLoop]
    simp only [List.flatMap_cons, List.cons_append, List.nil_append, Fits, weigh]
    constructor
    · intro hloop
      obtain ⟨_, hstart, hrest⟩ := Outcome.bind_eq_ok.1 hloop
      obtain ⟨⟨h₁, h₂⟩, rfl⟩ := hashTerm_eq_ok.1 hstart
      obtain ⟨_, hstop, hrest⟩ := Outcome.bind_eq_ok.1 hrest
      obtain ⟨⟨h₃, h₄⟩, rfl⟩ := hashTerm_eq_ok.1 hstop
      obtain ⟨hfits, rfl⟩ := ih.1 hrest
      exact ⟨⟨h₁, h₂, h₃, h₄, hfits⟩, by rw [hsum]⟩
    · rintro ⟨⟨h₁, h₂, h₃, h₄, hfits⟩, rfl⟩
      refine Outcome.bind_eq_ok.2 ⟨_, hashTerm_eq_ok.2 ⟨⟨h₁, h₂⟩, rfl⟩, ?_⟩
      refine Outcome.bind_eq_ok.2 ⟨_, hashTerm_eq_ok.2 ⟨⟨h₃, h₄⟩, rfl⟩, ?_⟩
      exact ih.2 ⟨hfits, by rw [hsum]⟩

theorem hashOffsetSizeLoop_eq {dim : List Dim} (hsum : ∀ d ∈ dim, InInt64 (d.offset + d.size)) :
    hashOffsetSizeLoop dim (BitVec.ofInt 32 f) (BitVec.ofInt 32 s)
      = .ok (BitVec.ofInt 32
        (s + f * weigh (dim.flatMap fun d => [d.offset, d.offset + d.size]))) := by
  induction dim generalizing f s with
  | nil => simp [hashOffsetSizeLoop, weigh]
  | cons d dim ih =>
    have hstop := int64_eq_ok.2 ⟨hsum d List.mem_cons_self, rfl⟩
    rw [hashOffsetSizeLoop]
    dsimp only
    rw [hstop, Outcome.ok_bind, factor_eq, factor_eq, ← BitVec.ofInt_mul, ← BitVec.ofInt_add,
      ← BitVec.ofInt_mul, ← BitVec.ofInt_add, ih fun d hd => hsum d (List.mem_cons_of_mem _ hd),
      List.flatMap_cons, List.cons_append, List.cons_append, List.nil_append, weigh, weigh]
    congr 2
    ring

theorem hashStart_eq_ok {dims : ℕ} {v : BitVec 32} :
    hashStart dims = .ok v ↔ InInt64 (prime * dims) ∧ v = BitVec.ofInt 32 (prime * dims) := by
  have hprime : (dims : ℤ) * kRandomPrime.toNat = prime * dims := Int.mul_comm _ _
  unfold hashStart
  rw [Outcome.bind_eq_ok, hprime]
  simp only [int64_eq_ok]
  constructor
  · rintro ⟨product, ⟨hfit, rfl⟩, hv⟩
    exact ⟨hfit, (Except.ok.inj hv).symm⟩
  · rintro ⟨hfit, rfl⟩
    exact ⟨_, ⟨hfit, rfl⟩, rfl⟩

end Loops

section Agree

variable {dim : List Dim}

/-- All products and sums on the way fit: each coefficient times the power of the prime that it is
counted with, modulo `2^32`, and that added to the polynomial so far, modulo `2^32`. -/
def ProductsFit (xs : List ℤ) : Prop :=
  ∀ i x, xs[i]? = some x → InInt64 (prime ^ (i + 1) % 2 ^ 32 * x)
    ∧ InInt64 (weigh (xs.take i) % 2 ^ 32 + prime ^ (i + 1) % 2 ^ 32 * x)

theorem productsFit_hashed : ProductsFit (hashed dim) ↔ InInt64 (prime * dim.length)
    ∧ Fits prime (prime * dim.length) (dim.flatMap fun d => [d.offset, d.offset + d.size]) := by
  have hfits := @fits_iff 1 0 (hashed dim)
  simp only [one_mul, zero_add] at hfits
  rw [ProductsFit, ← hfits, hashed, Fits, one_mul, Int.zero_emod, zero_add, zero_add,
    show prime % 2 ^ 32 = prime by decide]
  tauto

theorem hashOffsetSize_eq_ok (hsum : ∀ d ∈ dim, InInt64 (d.offset + d.size)) {v : BitVec 32} :
    hashOffsetSize dim = .ok v
      ↔ InInt64 (prime * dim.length) ∧ v = BitVec.ofInt 32 (weigh (hashed dim)) := by
  unfold hashOffsetSize
  simp only [Outcome.bind_eq_ok, hashStart_eq_ok, kRandomPrime_eq]
  have hloop := @hashOffsetSizeLoop_eq prime (prime * dim.length) dim hsum
  rw [← mul_add] at hloop
  constructor
  · rintro ⟨_, ⟨hfit, rfl⟩, hrest⟩
    rw [hloop] at hrest
    exact ⟨hfit, (Except.ok.inj hrest).symm⟩
  · rintro ⟨hfit, rfl⟩
    exact ⟨_, ⟨hfit, rfl⟩, hloop⟩

theorem hash_eq_ok {v : BitVec 32} : hash (rangesOf dim) = .ok v
    ↔ ProductsFit (hashed dim) ∧ v = BitVec.ofInt 32 (weigh (hashed dim)) := by
  unfold hash
  rw [productsFit_hashed, hashed, weigh, mul_add]
  simp only [Outcome.bind_eq_ok, hashStart_eq_ok, kRandomPrime_eq, rangesOf, List.length_map]
  constructor
  · rintro ⟨_, ⟨hfit, rfl⟩, hrest⟩
    obtain ⟨hfits, rfl⟩ := hashLoop_eq_ok.1 hrest
    exact ⟨⟨hfit, hfits⟩, rfl⟩
  · rintro ⟨⟨hfit, hfits⟩, rfl⟩
    exact ⟨_, ⟨hfit, rfl⟩, hashLoop_eq_ok.2 ⟨hfits, rfl⟩⟩

/-- For all offsets and sizes whose sums can be represented, the two functions return the same hash
without an overflow exactly if all products and sums of `esdmI_hypercube_hash` can be represented.
-/
theorem hash_agree_iff (hsum : ∀ d ∈ dim, InInt64 (d.offset + d.size)) :
    (∃ v, (make dim >>= hash) = .ok v ∧ hashOffsetSize dim = .ok v) ↔ ProductsFit (hashed dim) := by
  rw [make_eq hsum, Outcome.ok_bind]
  simp only [hash_eq_ok, hashOffsetSize_eq_ok hsum]
  constructor
  · rintro ⟨v, ⟨hfit, -⟩, -⟩
    exact hfit
  · intro hfit
    exact ⟨_, ⟨hfit, rfl⟩, (productsFit_hashed.1 hfit).1, rfl⟩

/-- Coordinates of 31 bits are small enough. -/
theorem productsFit_of_small {xs : List ℤ} (hxs : ∀ x ∈ xs, |x| < 2 ^ 31) : ProductsFit xs := by
  intro i x hi
  have hx := abs_lt.1 (hxs x (List.mem_of_getElem? hi))
  have hf0 : 0 ≤ prime ^ (i + 1) % 2 ^ 32 := Int.emod_nonneg _ (by decide)
  have hf1 : prime ^ (i + 1) % 2 ^ 32 < 2 ^ 32 := Int.emod_lt_of_pos _ (by decide)
  have hs0 : 0 ≤ weigh (xs.take i) % 2 ^ 32 := Int.emod_nonneg _ (by decide)
  have hs1 : weigh (xs.take i) % 2 ^ 32 < 2 ^ 32 := Int.emod_lt_of_pos _ (by decide)
  generalize prime ^ (i + 1) % 2 ^ 32 = f at hf0 hf1
  generalize weigh (xs.take i) % 2 ^ 32 = s at hs0 hs1
  unfold InInt64
  constructor
  · constructor <;> nlinarith
  · constructor <;> nlinarith

theorem hash_agree_iff_small : ∃ v, (make [⟨-4, 8⟩, ⟨-3, 6⟩, ⟨0, 4⟩] >>= hash) = .ok v
    ∧ hashOffsetSize [⟨-4, 8⟩, ⟨-3, 6⟩, ⟨0, 4⟩] = .ok v :=
  (hash_agree_iff (by decide)).2 (productsFit_of_small (by decide))

/-- A one-dimensional hypercube at the offset `2^32`: the first product does not fit. -/
theorem hash_not_agree : (make [⟨2 ^ 32, 0⟩] >>= hash) = .error .undefined
    ∧ hashOffsetSize [⟨2 ^ 32, 0⟩] = .ok 2146462999#32 := by
  decide +kernel

end Agree

end Esdm.Hypercube
