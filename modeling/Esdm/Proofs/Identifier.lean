import Esdm.Identifier
import Esdm.Lib.Regroup
import Esdm.Lib.Uniform
import Mathlib.Data.FinEnum
import Mathlib.Data.Fintype.BigOperators

/-!
# The bits of an identifier

The cache never holds more bits than its 64, so the loops regroup the random bits: into digits of
six bits, each of which is a letter, and the few bits that stay behind.
-/

namespace Esdm.Identifier

open Regroup

section Letters

theorem kCharset_length : kCharset.length = 2 ^ kCharsetBits := by decide

theorem kCharset_nodup : kCharset.Nodup := by decide

abbrev Letter := {c : Char // c ∈ kCharset}

/-- The letter with an index. -/
def letter (y : BitVec 6) : Letter :=
  ⟨kCharset.get ⟨y.toNat, kCharset_length ▸ y.isLt⟩, List.get_mem ..⟩

theorem getElem?_toNat (y : BitVec 6) : kCharset[y.toNat]? = some (letter y).1 :=
  List.getElem?_eq_getElem _

theorem letter_bijective : Function.Bijective letter := by
  constructor
  · intro y y' h
    have hget : kCharset.get _ = kCharset.get _ := congrArg Subtype.val h
    exact BitVec.eq_of_toNat_eq (congrArg Fin.val (kCharset_nodup.injective_get hget))
  · rintro ⟨c, hc⟩
    obtain ⟨i, rfl⟩ := List.get_of_mem hc
    exact ⟨BitVec.ofNatLT i.1 (kCharset_length ▸ i.2), rfl⟩

instance : Inhabited Letter := ⟨letter 0⟩

theorem card_bitVec (n : ℕ) : Fintype.card (BitVec n) = 2 ^ n := FinEnum.card_eq_fintypeCard.symm

theorem card_letter : Fintype.card Letter = 2 ^ 6 :=
  (Fintype.card_of_bijective letter_bijective).symm.trans (card_bitVec 6)

end Letters

section Cache

/-- The bits of a cache in `bitCache`. -/
def Source.ofCache (c : Cache) (unused : List (BitVec 8)) : Source :=
  ⟨BitVec.ofNat 64 c.value, c.bits, unused⟩

theorem bitCache_load {v : ℕ} (hv : v < 2 ^ 6) (byte : BitVec 8) :
    BitVec.ofNat 64 v <<< 8 ||| byte.setWidth 64 = BitVec.ofNat 64 (v * 2 ^ 8 + byte.toNat) := by
  have hbyte := byte.isLt
  apply BitVec.eq_of_toNat_eq
  simp only [BitVec.toNat_or, BitVec.toNat_shiftLeft, BitVec.toNat_setWidth, BitVec.toNat_ofNat]
  rw [Nat.mod_eq_of_lt (by omega : v < 2 ^ 64), Nat.shiftLeft_eq,
    Nat.mod_eq_of_lt (by omega : v * 2 ^ 8 < 2 ^ 64),
    Nat.mod_eq_of_lt (by omega : byte.toNat < 2 ^ 64),
    Nat.mod_eq_of_lt (by omega : v * 2 ^ 8 + byte.toNat < 2 ^ 64), ← Nat.shiftLeft_eq,
    Nat.shiftLeft_add_eq_or_of_lt hbyte]

theorem bitCache_index {v : ℕ} (hv : v < 2 ^ 64) :
    (BitVec.ofNat 64 v &&& (1#64 <<< kCharsetBits - 1#64)).toNat = (BitVec.ofNat 6 v).toNat := by
  have hmask : (1#64 <<< kCharsetBits - 1#64).toNat = 2 ^ 6 - 1 := rfl
  rw [BitVec.toNat_and, hmask, Nat.and_two_pow_sub_one_eq_mod, BitVec.toNat_ofNat,
    BitVec.toNat_ofNat, Nat.mod_eq_of_lt hv]

theorem bitCache_drop {v : ℕ} (hv : v < 2 ^ 64) :
    BitVec.ofNat 64 v >>> kCharsetBits = BitVec.ofNat 64 (v / 2 ^ 6) := by
  apply BitVec.eq_of_toNat_eq
  rw [BitVec.toNat_ushiftRight, BitVec.toNat_ofNat, BitVec.toNat_ofNat, Nat.mod_eq_of_lt hv,
    Nat.mod_eq_of_lt ((Nat.div_le_self ..).trans_lt hv), Nat.shiftRight_eq_div_pow]
  rfl

variable {c : Cache}

theorem value_lt {n : ℕ} (hc : c.bits ≤ n) : c.value < 2 ^ n :=
  c.lt.trans_le (Nat.pow_le_pow_right Nat.two_pos hc)

theorem ofCache_inj {c' : Cache} {unused unused' : List (BitVec 8)} (hc : c.bits < 64)
    (h : Source.ofCache c unused = Source.ofCache c' unused') : c = c' ∧ unused = unused' := by
  obtain ⟨hvalue, hbits, hunused⟩ := Source.mk.inj h
  refine ⟨Cache.ext ?_ hbits, hunused⟩
  have hmod := congrArg BitVec.toNat hvalue
  rwa [BitVec.toNat_ofNat, BitVec.toNat_ofNat, Nat.mod_eq_of_lt (value_lt hc.le),
    Nat.mod_eq_of_lt (value_lt (hbits ▸ hc.le))] at hmod

/-- The inner loop, as long as the cache has room. -/
theorem load_eq : ∀ {unused : List (BitVec 8)} {c : Cache}, c.bits < 14 →
    load (BitVec.ofNat 64 c.value) c.bits unused
      = (refill 6 unused c).elim (.error (.assertion .randomBytes)) fun r => .ok (.ofCache r.2 r.1)
  | [], c, _ => by
    unfold load refill kCharsetBits
    split_ifs
    · rfl
    · rfl
  | byte :: unused, c, _ => by
    unfold load refill kCharsetBits
    split_ifs with hbits
    · rw [bitCache_load (value_lt hbits.le)]
      exact load_eq (c := c.push byte) (show c.bits + 8 < 14 by omega)
    · rfl

/-- The outer loop. -/
theorem spell_eq {n : ℕ} {unused : List (BitVec 8)} (hc : c.bits < 8) :
    spell n (.ofCache c unused) = (regroup 6 n unused c).elim (.error (.assertion .randomBytes))
      fun r => .ok (r.1.map fun y => (letter y).1, .ofCache r.2.2 r.2.1) := by
  induction n generalizing unused c with
  | zero => rfl
  | succ n ih =>
    unfold spell regroup
    dsimp only [Source.ofCache]
    rw [load_eq (by omega)]
    cases hrefill : refill 6 unused c with
    | none => rfl
    | some r =>
      obtain ⟨unused₁, c₁⟩ := r
      obtain ⟨hle, -, hlt⟩ := refill_bits hrefill
      have hlt₁ := hlt (by omega)
      have hvalue : c₁.value < 2 ^ 64 := value_lt (by omega)
      have hrest : spell n ⟨BitVec.ofNat 64 (c₁.value / 2 ^ 6), c₁.bits - kCharsetBits, unused₁⟩
          = _ := ih (c := (c₁.pop 6).2) (show c₁.bits - 6 < 8 by omega)
      simp only [Option.elim_some, Outcome.ok_bind, Source.ofCache, bitCache_index hvalue,
        bitCache_drop hvalue, getElem?_toNat, access_some, Option.bind_eq_bind, Option.bind_some]
      rw [hrest]
      cases regroup 6 n unused₁ (c₁.pop 6).2 with
      | none => rfl
      | some r => rfl

end Cache

section Generate

variable {w length : ℕ}

/-- An identifier as a string. -/
def text (id : List.Vector Letter length) : String := String.ofList (id.toList.map Subtype.val)

variable (w length) in
/-- `ea_generate_id` returns, and it maps the random bytes to the identifiers and the bits that it
leaves, each pair of which it reaches once.  So all identifiers are equally likely. -/
structure KeepsBits (f : List.Vector (BitVec 8) (randomByteCount w length) →
    List.Vector Letter length × BitVec (8 * randomByteCount w length - 6 * length)) : Prop where
  returns : ∀ bytes, generateId w length bytes = .ok (text (f bytes).1,
    ⟨(f bytes).2.setWidth 64, 8 * randomByteCount w length - 6 * length, []⟩)
  bijective : f.Bijective
  uniform : (PMF.uniformOfFintype _).map (fun bytes => (f bytes).1) = PMF.uniformOfFintype _

theorem generateId_eq (h : 128 ≤ randomBitCount w length)
    (bytes : List.Vector (BitVec 8) (randomByteCount w length)) :
    generateId w length bytes = (regroup 6 length bytes.toList .empty).elim
      (.error (.assertion .randomBytes)) fun r =>
        .ok (String.ofList (r.1.map fun y => (letter y).1), .ofCache r.2.2 r.2.1) := by
  unfold generateId
  rw [eassert_of h]
  have hspell : spell length ⟨0, 0, bytes.toList⟩ = _ := spell_eq (c := .empty) (by decide)
  rw [Outcome.ok_bind, hspell]
  cases regroup 6 length bytes.toList .empty with
  | none => rfl
  | some r => rfl

theorem generateId_eq_ok {bytes : List.Vector (BitVec 8) (randomByteCount w length)}
    {r : String × Source} (h : generateId w length bytes = .ok r) :
    ∃ ys unused c, regroup 6 length bytes.toList .empty = some (ys, unused, c)
      ∧ r = (String.ofList (ys.map fun y => (letter y).1), .ofCache c unused) := by
  have hassert : 128 ≤ randomBitCount w length := by
    obtain ⟨_, hassert, -⟩ := Outcome.bind_eq_ok.1 h
    exact eassert_eq_ok.1 hassert
  rw [generateId_eq hassert] at h
  rcases hr : regroup 6 length bytes.toList .empty with _ | ⟨ys, unused, c⟩
  · rw [hr] at h
    exact absurd h nofun
  · rw [hr] at h
    exact ⟨ys, unused, c, rfl, (Except.ok.inj h).symm⟩

/-- An identifier that is returned has found enough bits. -/
theorem le_of_generateId {bytes : List.Vector (BitVec 8) (randomByteCount w length)}
    {r : String × Source} (h : generateId w length bytes = .ok r) :
    6 * length ≤ 8 * randomByteCount w length := by
  obtain ⟨ys, unused, c, hr, -⟩ := generateId_eq_ok h
  have henough := regroup_isSome.1 ⟨_, hr⟩
  rwa [bytes.toList_length, show Cache.empty.bits = 0 from rfl, Nat.zero_add] at henough

/-- With too few bytes the assertion of the inner loop fails. -/
theorem generateId_fails (h : 128 ≤ randomBitCount w length)
    (hfew : 8 * randomByteCount w length < 6 * length)
    (bytes : List.Vector (BitVec 8) (randomByteCount w length)) :
    generateId w length bytes = .error (.assertion .randomBytes) := by
  rw [generateId_eq h]
  rcases hr : regroup 6 length bytes.toList .empty with _ | r
  · rfl
  · have henough := regroup_isSome.1 ⟨r, hr⟩
    rw [bytes.toList_length, show Cache.empty.bits = 0 from rfl] at henough
    omega

/-- Different bytes give different identifiers, or leave different bits. -/
theorem generateId_inj {bytes bytes' : List.Vector (BitVec 8) (randomByteCount w length)}
    {r : String × Source} (h : generateId w length bytes = .ok r)
    (h' : generateId w length bytes' = .ok r) : bytes = bytes' := by
  obtain ⟨ys, unused, c, hr, rfl⟩ := generateId_eq_ok h
  obtain ⟨ys', unused', c', hr', heq⟩ := generateId_eq_ok h'
  obtain ⟨htext, hsource⟩ := Prod.mk.inj heq
  obtain ⟨-, -, hlt⟩ := regroup_bits hr
  obtain ⟨rfl, rfl⟩ := ofCache_inj (Nat.lt_of_lt_of_le (hlt (by decide)) (by decide)) hsource
  have hletter : Function.Injective fun y => (letter y).1 :=
    Subtype.val_injective.comp letter_bijective.1
  obtain rfl := hletter.list_map (String.ofList_injective htext)
  exact List.Vector.toList_injective (regroup_inj rfl hr hr').1

/-- If the number of bits does not fit into a `size_t`, too few bytes are read. -/
theorem randomByteCount_of_overflow (h : 128 ≤ 6 * length) (hw : 2 ^ w ≤ 6 * length + 7) :
    8 * randomByteCount w length < 6 * length := by
  have hlt := Nat.mod_lt (randomBitCount w length + 7) (Nat.two_pow_pos w)
  have hle : 8 * randomByteCount w length ≤ (randomBitCount w length + 7) % 2 ^ w :=
    Nat.mul_div_le ..
  rcases Nat.lt_or_ge (6 * length) (2 ^ w) with hfit | hfit
  · -- the product fits, and the sum starts again from zero
    have hbits : randomBitCount w length = 6 * length := by
      rw [randomBitCount, kCharsetBits, Nat.mul_comm, Nat.mod_eq_of_lt hfit]
    rw [hbits, Nat.mod_eq_sub_mod hw, Nat.mod_eq_of_lt (by omega)] at hle
    omega
  · omega

theorem randomByteCount_of_fits (hw : 6 * length + 7 < 2 ^ w) :
    randomBitCount w length = 6 * length ∧ randomByteCount w length = (6 * length + 7) / 8 := by
  have hbits : randomBitCount w length = 6 * length := by
    rw [randomBitCount, kCharsetBits, Nat.mul_comm, Nat.mod_eq_of_lt (by omega)]
  exact ⟨hbits, by rw [randomByteCount, hbits, Nat.mod_eq_of_lt hw]⟩

/-- All bytes are used, and all bits that are not in the identifier stay in the cache. -/
theorem generateId_returns (h : 128 ≤ 6 * length) (hw : 6 * length + 7 < 2 ^ w)
    (bytes : List.Vector (BitVec 8) (randomByteCount w length)) :
    ∃ r : List.Vector Letter length × BitVec (8 * randomByteCount w length - 6 * length),
      generateId w length bytes = .ok (text r.1,
        ⟨r.2.setWidth 64, 8 * randomByteCount w length - 6 * length, []⟩) := by
  obtain ⟨hbits, hcount⟩ := randomByteCount_of_fits hw
  have henough : 6 * length ≤ Cache.empty.bits + 8 * bytes.toList.length := by
    rw [bytes.toList_length, hcount]
    exact (show 6 * length ≤ 8 * ((6 * length + 7) / 8) by omega).trans (Nat.le_add_left ..)
  obtain ⟨⟨ys, unused, c⟩, hr⟩ := regroup_isSome.2 henough
  obtain ⟨hlength, hkept, hlt⟩ := regroup_bits hr
  have hlt := hlt (show 0 < 8 by decide)
  rw [bytes.toList_length, show Cache.empty.bits = 0 from rfl] at hkept
  -- less than a byte stays behind, so no byte does
  have hnil : unused.length = 0 := by omega
  have hc : c.bits = 8 * randomByteCount w length - 6 * length := by omega
  refine ⟨(⟨ys.map letter, by rw [List.length_map, hlength]⟩, BitVec.ofNat _ c.value), ?_⟩
  have hcache : (BitVec.ofNat (8 * randomByteCount w length - 6 * length) c.value).setWidth 64
      = BitVec.ofNat 64 c.value := by
    apply BitVec.eq_of_toNat_eq
    rw [BitVec.toNat_setWidth, BitVec.toNat_ofNat, BitVec.toNat_ofNat, ← hc,
      Nat.mod_eq_of_lt c.lt]
  rw [generateId_eq (hbits ▸ h), hr, List.length_eq_zero_iff.1 hnil, hcache, ← hc]
  simp only [Option.elim_some, Source.ofCache, text, List.Vector.toList_mk, List.map_map]
  rfl

end Generate

/-- The identifiers keep all random bits exactly if the number of their bits fits into a `size_t`,
rounded up to bytes. -/
theorem generateId_keepsBits_iff {w length : ℕ} (h : 128 ≤ 6 * length) :
    (∃ f, KeepsBits w length f) ↔ 6 * length + 7 < 2 ^ w := by
  constructor
  · rintro ⟨f, hf⟩
    by_contra hw
    have henough := le_of_generateId (hf.returns (List.Vector.replicate _ 0))
    exact absurd henough (randomByteCount_of_overflow h (Nat.le_of_not_lt hw)).not_ge
  · intro hw
    choose f hf using generateId_returns h hw
    have hinj : f.Injective := fun bytes bytes' heq =>
      generateId_inj (hf bytes) (heq ▸ hf bytes')
    have hbij : f.Bijective := by
      refine (Fintype.bijective_iff_injective_and_card f).2 ⟨hinj, ?_⟩
      have henough := le_of_generateId (hf (List.Vector.replicate _ 0))
      rw [Fintype.card_prod, card_vector, card_vector, card_bitVec, card_bitVec, card_letter,
        ← pow_mul, ← pow_mul, ← pow_add, Nat.add_sub_cancel' henough]
    exact ⟨f, hf, hbij, Uniform.map_fst_of_bijective hbij⟩

/-- The length that the identifiers have. -/
theorem generateId_keepsBits_iff_id : ∃ f, KeepsBits 64 23 f :=
  (generateId_keepsBits_iff (by decide)).2 (by decide)

/-- With the longest identifiers whose bits 32 or 64 bits can count, no byte is read at all. -/
theorem generateId_not_keepsBits :
    (∀ bytes, generateId 32 715827882 bytes = .error (.assertion .randomBytes))
      ∧ (∀ bytes, generateId 64 3074457345618258602 bytes = .error (.assertion .randomBytes))
      ∧ (¬ ∃ f, KeepsBits 32 715827882 f) ∧ ¬ ∃ f, KeepsBits 64 3074457345618258602 f := by
  have h32 : ∀ bytes, generateId 32 715827882 bytes = .error (.assertion .randomBytes) :=
    generateId_fails (by decide) (by decide)
  have h64 : ∀ bytes, generateId 64 3074457345618258602 bytes = .error (.assertion .randomBytes) :=
    generateId_fails (by decide) (by decide)
  refine ⟨h32, h64, ?_, ?_⟩
  · rintro ⟨f, hf⟩
    exact absurd ((h32 _).symm.trans (hf.returns (List.Vector.replicate _ 0))) nofun
  · rintro ⟨f, hf⟩
    exact absurd ((h64 _).symm.trans (hf.returns (List.Vector.replicate _ 0))) nofun

end Esdm.Identifier
