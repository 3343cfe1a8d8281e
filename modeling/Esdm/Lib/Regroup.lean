import Mathlib.Algebra.Order.Ring.Nat
import Mathlib.Tactic.Linarith
import Mathlib.Tactic.Ring

/-!
# Regrouping bits

Digits of `a` bits go into a cache and digits of `b` bits are taken out of it, both at its low end.
As many digits can be taken as there are bits for, and what comes out determines, together with what
stays behind, what went in.
-/

namespace Regroup

variable {a b : ℕ}

/-- Some bits, as a number. -/
@[ext] structure Cache where
  value : ℕ
  bits : ℕ
  lt : value < 2 ^ bits

namespace Cache

variable {c c' : Cache}

def empty : Cache := ⟨0, 0, Nat.one_pos⟩

/-- A digit goes in. -/
def push (c : Cache) (x : BitVec a) : Cache where
  value := c.value * 2 ^ a + x.toNat
  bits := c.bits + a
  lt := by
    have hx := x.isLt
    calc c.value * 2 ^ a + x.toNat
        < c.value * 2 ^ a + 2 ^ a := by omega
      _ = (c.value + 1) * 2 ^ a := by ring
      _ ≤ 2 ^ c.bits * 2 ^ a := Nat.mul_le_mul_right _ c.lt
      _ = 2 ^ (c.bits + a) := (pow_add ..).symm

theorem div_lt (c : Cache) (b : ℕ) : c.value / 2 ^ b < 2 ^ (c.bits - b) := by
  rcases Nat.le_total b c.bits with hb | hb
  · rw [Nat.div_lt_iff_lt_mul (Nat.two_pow_pos b), ← pow_add, Nat.sub_add_cancel hb]
    exact c.lt
  · rw [Nat.div_eq_of_lt (c.lt.trans_le (Nat.pow_le_pow_right Nat.two_pos hb))]
    exact Nat.two_pow_pos _

/-- A digit is taken out. -/
def pop (b : ℕ) (c : Cache) : BitVec b × Cache :=
  (BitVec.ofNat b c.value, ⟨c.value / 2 ^ b, c.bits - b, c.div_lt b⟩)

theorem push_inj {x x' : BitVec a} (h : c.push x = c'.push x') : c = c' ∧ x = x' := by
  have hvalue : c.value * 2 ^ a + x.toNat = c'.value * 2 ^ a + x'.toNat := congrArg value h
  have hbits : c.bits + a = c'.bits + a := congrArg bits h
  have hdiv : ∀ (v : ℕ) (y : BitVec a), (v * 2 ^ a + y.toNat) / 2 ^ a = v := fun v y => by
    rw [Nat.add_comm, Nat.add_mul_div_right _ _ (Nat.two_pow_pos a), Nat.div_eq_of_lt y.isLt,
      Nat.zero_add]
  have hv : c.value = c'.value := by rw [← hdiv c.value x, hvalue, hdiv]
  refine ⟨Cache.ext hv (Nat.add_right_cancel hbits), BitVec.eq_of_toNat_eq ?_⟩
  rw [hv] at hvalue
  exact Nat.add_left_cancel hvalue

theorem pop_inj (hb : b ≤ c.bits) (hb' : b ≤ c'.bits) (h : c.pop b = c'.pop b) : c = c' := by
  obtain ⟨hdigit, hcache⟩ := Prod.mk.inj h
  have hmod : c.value % 2 ^ b = c'.value % 2 ^ b := by
    simpa only [BitVec.toNat_ofNat] using congrArg BitVec.toNat hdigit
  have hdiv : c.value / 2 ^ b = c'.value / 2 ^ b := congrArg value hcache
  have hbits : c.bits - b = c'.bits - b := congrArg bits hcache
  refine Cache.ext ?_ (by omega)
  rw [← Nat.div_add_mod c.value (2 ^ b), hdiv, hmod, Nat.div_add_mod]

end Cache

/-- Digits go in until one can be taken out. -/
def refill (b : ℕ) : List (BitVec a) → Cache → Option (List (BitVec a) × Cache)
  | [], c => if c.bits < b then none else some ([], c)
  | x :: xs, c => if c.bits < b then refill b xs (c.push x) else some (x :: xs, c)

/-- So many digits are taken out: these, the digits that have not been used, and the cache. -/
def regroup (b : ℕ) : ℕ → List (BitVec a) → Cache →
    Option (List (BitVec b) × List (BitVec a) × Cache)
  | 0, xs, c => some ([], xs, c)
  | n + 1, xs, c => do
    let (xs, c) ← refill b xs c
    let (ys, rest) ← regroup b n xs (c.pop b).2
    return ((c.pop b).1 :: ys, rest)

section Refill

variable {xs xs' : List (BitVec a)} {c c' : Cache}

theorem refill_of_lt (hb : c.bits < b) {x : BitVec a} :
    refill b (x :: xs) c = refill b xs (c.push x) := by
  rw [refill, if_pos hb]

theorem refill_of_le (hb : b ≤ c.bits) : refill b xs c = some (xs, c) := by
  cases xs with
  | nil => rw [refill, if_neg (by omega)]
  | cons x xs => rw [refill, if_neg (by omega)]

/-- Digits are used as long as there are too few bits. -/
theorem refill_eq_some {r : List (BitVec a) × Cache} (h : refill b xs c = some r) :
    (b ≤ c.bits ∧ r = (xs, c))
      ∨ ∃ x xs', c.bits < b ∧ xs = x :: xs' ∧ refill b xs' (c.push x) = some r := by
  rcases Nat.lt_or_ge c.bits b with hb | hb
  · cases xs with
    | nil =>
      rw [refill, if_pos hb] at h
      exact absurd h nofun
    | cons x xs => exact .inr ⟨x, xs, hb, rfl, refill_of_lt hb ▸ h⟩
  · rw [refill_of_le hb] at h
    exact .inl ⟨hb, (Option.some.inj h).symm⟩

theorem refill_isSome : ∀ {xs : List (BitVec a)} {c : Cache},
    (∃ r, refill b xs c = some r) ↔ b ≤ c.bits + a * xs.length
  | [], c => by
    rw [refill, List.length_nil, Nat.mul_zero, Nat.add_zero]
    split_ifs with hb
    · exact iff_of_false nofun (by omega)
    · exact iff_of_true ⟨_, rfl⟩ (by omega)
  | x :: xs, c => by
    rw [refill, List.length_cons, Nat.mul_succ]
    split_ifs with hb
    · rw [refill_isSome]
      simp only [Cache.push]
      omega
    · exact iff_of_true ⟨_, rfl⟩ (by omega)

/-- No bit is lost. -/
theorem refill_bits (h : refill b xs c = some (xs', c')) : b ≤ c'.bits
    ∧ c'.bits + a * xs'.length = c.bits + a * xs.length
    ∧ (c.bits < a + b → c'.bits < a + b) := by
  induction xs generalizing c with
  | nil =>
    obtain ⟨hb, heq⟩ | ⟨_, _, -, hcons, -⟩ := refill_eq_some h
    · obtain ⟨rfl, rfl⟩ := Prod.mk.inj heq
      exact ⟨hb, rfl, fun hlt => hlt⟩
    · exact absurd hcons nofun
  | cons x xs ih =>
    obtain ⟨hb, heq⟩ | ⟨_, _, hb, hcons, h⟩ := refill_eq_some h
    · obtain ⟨rfl, rfl⟩ := Prod.mk.inj heq
      exact ⟨hb, rfl, fun hlt => hlt⟩
    · obtain ⟨rfl, rfl⟩ := List.cons.inj hcons
      obtain ⟨hle, hbits, hlt⟩ := ih h
      simp only [Cache.push] at hbits hlt
      rw [List.length_cons, Nat.mul_succ]
      exact ⟨hle, by omega, fun _ => hlt (by omega)⟩

/-- Two caches with as many bits are loaded with as many bits, and stay different. -/
theorem refill_congr {ys ys' : List (BitVec a)} {d d' : Cache} (hbits : c.bits = c'.bits)
    (h : refill b xs c = some (ys, d)) (h' : refill b xs' c' = some (ys', d')) :
    d.bits = d'.bits ∧ (ys = ys' → d = d' → xs = xs' ∧ c = c') := by
  induction xs generalizing xs' c c' with
  | nil =>
    obtain ⟨hb, heq⟩ | ⟨_, _, -, hcons, -⟩ := refill_eq_some h
    · rw [refill_of_le (hbits ▸ hb)] at h'
      obtain ⟨rfl, rfl⟩ := Prod.mk.inj heq
      obtain ⟨rfl, rfl⟩ := Prod.mk.inj (Option.some.inj h')
      exact ⟨hbits, fun hys hd => ⟨hys, hd⟩⟩
    · exact absurd hcons nofun
  | cons x xs ih =>
    obtain ⟨hb, heq⟩ | ⟨_, _, hb, hcons, h⟩ := refill_eq_some h
    · rw [refill_of_le (hbits ▸ hb)] at h'
      obtain ⟨rfl, rfl⟩ := Prod.mk.inj heq
      obtain ⟨rfl, rfl⟩ := Prod.mk.inj (Option.some.inj h')
      exact ⟨hbits, fun hys hd => ⟨hys, hd⟩⟩
    · obtain ⟨rfl, rfl⟩ := List.cons.inj hcons
      obtain ⟨hb', -⟩ | ⟨x', xs'', -, rfl, hrest'⟩ := refill_eq_some h'
      · omega
      · have hpush : (c.push x).bits = (c'.push x').bits := congrArg (· + a) hbits
        obtain ⟨hd, hinj⟩ := ih hpush h hrest'
        refine ⟨hd, fun hys hdd => ?_⟩
        obtain ⟨rfl, hc⟩ := hinj hys hdd
        obtain ⟨rfl, rfl⟩ := Cache.push_inj hc
        exact ⟨rfl, rfl⟩

end Refill

section Regroup

variable {n : ℕ} {xs xs' : List (BitVec a)} {c c' : Cache} {ys : List (BitVec b)}

theorem regroup_succ_eq_some {r : List (BitVec b) × List (BitVec a) × Cache} :
    regroup b (n + 1) xs c = some r ↔ ∃ xs₁ c₁ ys rest, refill b xs c = some (xs₁, c₁)
      ∧ regroup b n xs₁ (c₁.pop b).2 = some (ys, rest) ∧ r = ((c₁.pop b).1 :: ys, rest) := by
  rw [regroup]
  simp only [Option.bind_eq_bind, Option.bind_eq_some_iff]
  constructor
  · rintro ⟨⟨xs₁, c₁⟩, hrefill, ⟨ys, rest⟩, hrest, h⟩
    exact ⟨xs₁, c₁, ys, rest, hrefill, hrest, (Option.some.inj h).symm⟩
  · rintro ⟨xs₁, c₁, ys, rest, hrefill, hrest, rfl⟩
    exact ⟨(xs₁, c₁), hrefill, (ys, rest), hrest, rfl⟩

/-- The digits can be taken exactly if there are enough bits. -/
theorem regroup_isSome :
    (∃ r, regroup b n xs c = some r) ↔ b * n ≤ c.bits + a * xs.length := by
  induction n generalizing xs c with
  | zero => exact iff_of_true ⟨_, rfl⟩ (Nat.zero_le _)
  | succ n ih =>
    rw [Nat.mul_succ]
    constructor
    · rintro ⟨r, h⟩
      obtain ⟨xs₁, c₁, ys, rest, hrefill, hrest, -⟩ := regroup_succ_eq_some.1 h
      obtain ⟨hle, hbits, -⟩ := refill_bits hrefill
      have := ih.1 ⟨_, hrest⟩
      simp only [Cache.pop] at this
      omega
    · intro h
      obtain ⟨⟨xs₁, c₁⟩, hrefill⟩ := refill_isSome.2 (show b ≤ c.bits + a * xs.length by omega)
      obtain ⟨hle, hbits, -⟩ := refill_bits hrefill
      obtain ⟨⟨ys, rest⟩, hrest⟩ := ih.2
        (show b * n ≤ (c₁.pop b).2.bits + a * xs₁.length by simp only [Cache.pop]; omega)
      exact ⟨_, regroup_succ_eq_some.2 ⟨xs₁, c₁, ys, rest, hrefill, hrest, rfl⟩⟩

/-- No bit is lost, and fewer bits than a digit has stay behind. -/
theorem regroup_bits (h : regroup b n xs c = some (ys, xs', c')) : ys.length = n
    ∧ c'.bits + a * xs'.length + b * n = c.bits + a * xs.length
    ∧ (c.bits < a → c'.bits < a) := by
  induction n generalizing xs c ys with
  | zero =>
    obtain ⟨rfl, hrest⟩ := Prod.mk.inj (Option.some.inj h)
    obtain ⟨rfl, rfl⟩ := Prod.mk.inj hrest
    exact ⟨rfl, rfl, fun hlt => hlt⟩
  | succ n ih =>
    obtain ⟨xs₁, c₁, ys', rest, hrefill, hrest, heq⟩ := regroup_succ_eq_some.1 h
    obtain ⟨rfl, rfl⟩ := Prod.mk.inj heq
    obtain ⟨hle, hbits, hlt⟩ := refill_bits hrefill
    obtain ⟨hlen, hbits', hlt'⟩ := ih hrest
    simp only [Cache.pop] at hbits' hlt'
    rw [List.length_cons, Nat.mul_succ]
    exact ⟨by omega, by omega, fun _ => hlt' (by omega)⟩

/-- What comes out and what stays behind determine what went in. -/
theorem regroup_inj {r : List (BitVec b) × List (BitVec a) × Cache} (hbits : c.bits = c'.bits)
    (h : regroup b n xs c = some r) (h' : regroup b n xs' c' = some r) : xs = xs' ∧ c = c' := by
  induction n generalizing xs xs' c c' r with
  | zero =>
    obtain rfl := Option.some.inj h
    exact (Prod.mk.inj (Prod.mk.inj (Option.some.inj h')).2).imp Eq.symm Eq.symm
  | succ n ih =>
    obtain ⟨xs₁, c₁, ys, rest, hrefill, hrest, rfl⟩ := regroup_succ_eq_some.1 h
    obtain ⟨xs₁', c₁', ys', rest', hrefill', hrest', heq⟩ := regroup_succ_eq_some.1 h'
    obtain ⟨hcons, rfl⟩ := Prod.mk.inj heq
    obtain ⟨hdigit, rfl⟩ := List.cons.inj hcons
    obtain ⟨hbits₁, hinj⟩ := refill_congr hbits hrefill hrefill'
    have hpop : (c₁.pop b).2.bits = (c₁'.pop b).2.bits := congrArg (· - b) hbits₁
    obtain ⟨hxs, hcache⟩ := ih hpop hrest hrest'
    have hc := Cache.pop_inj (refill_bits hrefill).1 (refill_bits hrefill').1
      (Prod.ext hdigit hcache)
    exact hinj hxs hc

end Regroup

end Regroup
