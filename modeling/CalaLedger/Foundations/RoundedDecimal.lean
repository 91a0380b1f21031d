import CalaLedger.Foundations.FixedDecimal
import Mathlib.Algebra.Group.Defs
import Mathlib.Data.Nat.Cast.Defs
import Mathlib.Order.Basic

/-! # Arithmetic of decimals that round

A decimal by what it is worth: `1.0` and `1.00` are one number. A sum is the exact sum, rounded to as
many digits as the mantissa holds (`RoundedDecimal.add_ofFixed`: as the addition of digits rounds
it). Zero is neutral and addition commutes, but it does not associate; where the exact sum can be
written down, it is the sum (`RoundedDecimal.value_add`). -/

namespace Foundations

namespace FixedDecimal

variable {maxMantissa maxScale : ℕ}

/-- A sum that can be written down is written down. -/
theorem exists_fit (rounding : Rounding) {sum : ℤ} {scale : ℕ} (hscale : scale ≤ maxScale)
    (hsum : Representable maxMantissa maxScale (sum / 10 ^ scale)) :
    ∃ c : FixedDecimal maxMantissa maxScale, fit rounding sum scale hscale = some c := by
  unfold fit
  split
  · exact ⟨_, rfl⟩
  · rename_i hbig
    obtain ⟨r, hr⟩ := hsum
    obtain ⟨hscale', hsum⟩ := eq_aligned_of_value hr (Nat.not_le.mp hbig)
    have habs : sum.natAbs = r.mantissa.natAbs * 10 ^ (scale - r.scale) := by
      rw [hsum, aligned, Int.natAbs_mul, Int.natAbs_pow]
      rfl
    -- dropping the zeros suffices
    have hdrop : rounding.drop (scale - r.scale - 1 + 1) sum.natAbs ≤ maxMantissa := by
      rw [Nat.sub_add_cancel (by omega), habs, rounding.drop_mul]
      exact r.mantissa_le
    have hsome : ((List.range scale).find? (fun d =>
        rounding.drop (d + 1) sum.natAbs ≤ maxMantissa)).isSome := by
      rw [List.find?_isSome]
      exact ⟨scale - r.scale - 1, List.mem_range.mpr (by omega), decide_eq_true hdrop⟩
    obtain ⟨d, hfind⟩ := Option.isSome_iff_exists.mp hsome
    have hd : rounding.drop (d + 1) sum.natAbs ≤ maxMantissa := by
      simpa using List.find?_some hfind
    exact ⟨_, by rw [hfind, Option.bind_some, dif_pos hd]⟩

end FixedDecimal

open FixedDecimal (Representable)

/-- A number that can be written down. -/
@[ext] structure RoundedDecimal (maxMantissa maxScale : ℕ) where
  value : ℚ
  fits : Representable maxMantissa maxScale value

namespace RoundedDecimal

variable {maxMantissa maxScale : ℕ}

instance : DecidableEq (RoundedDecimal maxMantissa maxScale) :=
  fun _ _ => decidable_of_iff _ RoundedDecimal.ext_iff.symm

theorem value_injective :
    Function.Injective (value : RoundedDecimal maxMantissa maxScale → ℚ) :=
  fun _ _ => RoundedDecimal.ext

instance : LinearOrder (RoundedDecimal maxMantissa maxScale) :=
  LinearOrder.lift' value value_injective

/-- What digits are worth. -/
def ofFixed (d : FixedDecimal maxMantissa maxScale) : RoundedDecimal maxMantissa maxScale :=
  ⟨d.value, d, rfl⟩

/-- A multiple of the last digit, written down with as many digits as fit, halves to the even digit.
A number that does not fit without its fractional digits has no decimal near it; in its place stands
the largest one of its sign. -/
def round (maxMantissa maxScale : ℕ) (q : ℚ) : RoundedDecimal maxMantissa maxScale :=
  match FixedDecimal.fit .halfEven (q * 10 ^ maxScale).num maxScale le_rfl with
  | some d => ofFixed d
  | none => ofFixed ⟨withSign q.num maxMantissa, 0, (natAbs_withSign _ _).le, Nat.zero_le _⟩

/-- The numbers that can be written down are multiples of the last digit. -/
theorem num_div_of_representable {q : ℚ} (h : Representable maxMantissa maxScale q) :
    ((q * 10 ^ maxScale).num : ℚ) / 10 ^ maxScale = q := by
  obtain ⟨d, rfl⟩ := h
  have hinteger : d.value * 10 ^ maxScale = ((d.aligned maxScale : ℤ) : ℚ) := by
    rw [← FixedDecimal.aligned_value d d.scale_le, div_mul_cancel₀]
    exact pow_ne_zero _ (by norm_num)
  rw [hinteger, Rat.num_intCast]
  exact FixedDecimal.aligned_value d d.scale_le

/-- **Rounding keeps what can be written down.** -/
theorem value_round {q : ℚ} (h : Representable maxMantissa maxScale q) :
    (round maxMantissa maxScale q).value = q := by
  have hq := num_div_of_representable h
  have hsum : Representable maxMantissa maxScale
      (((q * 10 ^ maxScale).num : ℚ) / 10 ^ maxScale) := hq.symm ▸ h
  obtain ⟨c, hc⟩ := FixedDecimal.exists_fit .halfEven le_rfl hsum
  rw [round, hc]
  exact (FixedDecimal.fit_value hc hsum).trans hq

theorem round_value (a : RoundedDecimal maxMantissa maxScale) :
    round maxMantissa maxScale a.value = a :=
  RoundedDecimal.ext (value_round a.fits)

/-! ## Operations -/

instance : Zero (RoundedDecimal maxMantissa maxScale) := ⟨ofFixed FixedDecimal.zero⟩

instance (n : ℕ) : OfNat (RoundedDecimal maxMantissa maxScale) (n + 1) :=
  ⟨round maxMantissa maxScale (n + 1 : ℕ)⟩

instance : Neg (RoundedDecimal maxMantissa maxScale) :=
  ⟨fun a => ⟨-a.value, by obtain ⟨d, hd⟩ := a.fits; exact ⟨d.neg, by rw [d.value_neg, hd]⟩⟩⟩

instance : Add (RoundedDecimal maxMantissa maxScale) :=
  ⟨fun a b => round maxMantissa maxScale (a.value + b.value)⟩

instance : Sub (RoundedDecimal maxMantissa maxScale) :=
  ⟨fun a b => round maxMantissa maxScale (a.value - b.value)⟩

@[simp] theorem value_zero : (0 : RoundedDecimal maxMantissa maxScale).value = 0 :=
  FixedDecimal.value_zero

@[simp] theorem value_neg (a : RoundedDecimal maxMantissa maxScale) : (-a).value = -a.value := rfl

theorem add_def (a b : RoundedDecimal maxMantissa maxScale) :
    a + b = round maxMantissa maxScale (a.value + b.value) := rfl

theorem sub_eq_add_neg (a b : RoundedDecimal maxMantissa maxScale) : a - b = a + -b := by
  rw [add_def, value_neg, ← Rat.sub_eq_add_neg]
  rfl

/-- **An addition is exact if its result can be written down.** -/
theorem value_add {a b : RoundedDecimal maxMantissa maxScale}
    (h : Representable maxMantissa maxScale (a.value + b.value)) :
    (a + b).value = a.value + b.value :=
  value_round h

/-- Zero is neutral. -/
instance : AddZeroClass (RoundedDecimal maxMantissa maxScale) where
  zero_add a := by rw [add_def, value_zero, zero_add, round_value]
  add_zero a := by rw [add_def, value_zero, add_zero, round_value]

theorem sub_zero (a : RoundedDecimal maxMantissa maxScale) : a - 0 = a := by
  have hneg : -(0 : RoundedDecimal maxMantissa maxScale) = 0 :=
    RoundedDecimal.ext (by rw [value_neg, value_zero, neg_zero])
  rw [sub_eq_add_neg, hneg, add_zero]

/-! ## Digits -/

/-- Zeros behind the digits to drop do not matter to a half. -/
theorem halfEven_drop_zeros (digits zeros magnitude : ℕ) :
    Rounding.halfEven.drop (digits + zeros) (magnitude * 10 ^ zeros)
      = Rounding.halfEven.drop digits magnitude := by
  have hpos : 0 < 10 ^ zeros := Nat.pow_pos (by decide)
  have hquotient : magnitude * 10 ^ zeros / 10 ^ (digits + zeros) = magnitude / 10 ^ digits := by
    rw [pow_add]
    exact Nat.mul_div_mul_right _ _ hpos
  have hrest : 2 * (magnitude * 10 ^ zeros % 10 ^ (digits + zeros))
      = 2 * (magnitude % 10 ^ digits) * 10 ^ zeros := by
    rw [pow_add, Nat.mul_mod_mul_right, mul_assoc]
  have hmore : 10 ^ digits * 10 ^ zeros < 2 * (magnitude % 10 ^ digits) * 10 ^ zeros
      ↔ 10 ^ digits < 2 * (magnitude % 10 ^ digits) := Nat.mul_lt_mul_right hpos
  have hhalf : 10 ^ digits * 10 ^ zeros = 2 * (magnitude % 10 ^ digits) * 10 ^ zeros
      ↔ 10 ^ digits = 2 * (magnitude % 10 ^ digits) := Nat.mul_left_inj hpos.ne'
  simp only [Rounding.halfEven, hquotient, hrest]
  simp only [pow_add, hmore, hhalf]

/-- Zeros are the first digits to be dropped. -/
theorem find?_drop_zeros {magnitude scale d : ℕ} (hbig : ¬ magnitude ≤ maxMantissa)
    (h : (List.range scale).find? (fun d =>
      Rounding.halfEven.drop (d + 1) magnitude ≤ maxMantissa) = some d) (zeros : ℕ) :
    (List.range (zeros + scale)).find? (fun d =>
        Rounding.halfEven.drop (d + 1) (magnitude * 10 ^ zeros) ≤ maxMantissa)
      = some (zeros + d) := by
  obtain ⟨hdrop, hd, hleast⟩ := List.find?_range_eq_some.mp h
  rw [List.mem_range] at hd
  refine List.find?_range_eq_some.mpr ⟨?_, List.mem_range.mpr (by omega), fun i hi => ?_⟩
  · rw [show zeros + d + 1 = d + 1 + zeros by omega, halfEven_drop_zeros]
    exact hdrop
  · rw [Bool.not_eq_true', decide_eq_false_iff_not, Nat.not_le]
    rcases Nat.lt_or_ge i zeros with hlt | hge
    · have hsplit : 10 ^ zeros = 10 ^ (zeros - (i + 1)) * 10 ^ (i + 1) := by
        rw [← pow_add, Nat.sub_add_cancel hlt]
      rw [hsplit, ← mul_assoc, Rounding.drop_mul]
      exact (Nat.not_le.mp hbig).trans_le (Nat.le_mul_of_pos_right _ (Nat.pow_pos (by decide)))
    · have hearlier := hleast (i - zeros) (by omega)
      rw [Bool.not_eq_true', decide_eq_false_iff_not, Nat.not_le] at hearlier
      rwa [show i + 1 = i - zeros + 1 + zeros by omega, halfEven_drop_zeros]

theorem withSign_mul_of_pos (n : ℤ) {factor : ℤ} (hpos : 0 < factor) :
    withSign (n * factor) = withSign n := by
  funext magnitude
  refine if_congr ⟨fun hneg => ?_, fun hneg => mul_neg_of_neg_of_pos hneg hpos⟩ rfl rfl
  exact neg_of_mul_neg_left hneg hpos.le

/-- A sum is written down the same at a larger scale. -/
theorem fit_zeros {sum : ℤ} {scale : ℕ} {hscale : scale ≤ maxScale}
    {c : FixedDecimal maxMantissa maxScale}
    (h : FixedDecimal.fit .halfEven sum scale hscale = some c) :
    ∃ c' : FixedDecimal maxMantissa maxScale,
      FixedDecimal.fit .halfEven (sum * 10 ^ (maxScale - scale)) maxScale le_rfl = some c'
        ∧ c'.value = c.value := by
  obtain ⟨zeros, rfl⟩ := Nat.exists_eq_add_of_le' hscale
  rw [Nat.add_sub_cancel]
  by_cases hsmall : sum.natAbs ≤ maxMantissa
  · -- nothing is dropped, or only the zeros
    rw [FixedDecimal.fit, dif_pos hsmall] at h
    cases h
    have hexact : ((sum * 10 ^ zeros : ℤ) : ℚ) / 10 ^ (zeros + scale) = sum / 10 ^ scale := by
      rw [pow_add]
      push_cast
      field_simp
    have hsum : Representable maxMantissa (zeros + scale)
        (((sum * 10 ^ zeros : ℤ) : ℚ) / 10 ^ (zeros + scale)) :=
      ⟨⟨sum, scale, hsmall, hscale⟩, hexact.symm⟩
    obtain ⟨c', hc'⟩ := FixedDecimal.exists_fit .halfEven le_rfl hsum
    exact ⟨c', hc', (FixedDecimal.fit_value hc' hsum).trans hexact⟩
  · rw [FixedDecimal.fit, dif_neg hsmall] at h
    obtain ⟨d, hfind, h⟩ := Option.bind_eq_some_iff.mp h
    have hdrop : Rounding.halfEven.drop (d + 1) sum.natAbs ≤ maxMantissa := by
      simpa using List.find?_some hfind
    rw [dif_pos hdrop] at h
    have habs : (sum * 10 ^ zeros).natAbs = sum.natAbs * 10 ^ zeros := by
      rw [Int.natAbs_mul, Int.natAbs_pow]
      rfl
    have hbig : ¬ sum.natAbs * 10 ^ zeros ≤ maxMantissa := fun hle =>
      hsmall ((Nat.le_mul_of_pos_right _ (Nat.pow_pos (by decide))).trans hle)
    have hdrop' : Rounding.halfEven.drop (zeros + d + 1) (sum.natAbs * 10 ^ zeros)
        = Rounding.halfEven.drop (d + 1) sum.natAbs := by
      rw [show zeros + d + 1 = d + 1 + zeros by omega, halfEven_drop_zeros]
    have hsign : withSign (sum * 10 ^ zeros) = withSign sum :=
      withSign_mul_of_pos sum (pow_pos (by norm_num) zeros)
    have hleft : zeros + scale - (zeros + d + 1) = scale - (d + 1) := by omega
    refine ⟨c, ?_, rfl⟩
    unfold FixedDecimal.fit
    simp only [habs]
    rw [dif_neg hbig, find?_drop_zeros hsmall hfind, Option.bind_some,
      dif_pos (hdrop'.trans_le hdrop), ← h]
    simp only [hdrop', hsign, hleft]

/-- **A sum is the sum of the digits**, wherever that does not overflow. -/
theorem add_ofFixed {a b c : FixedDecimal maxMantissa maxScale}
    (h : FixedDecimal.add .halfEven a b = some c) : ofFixed a + ofFixed b = ofFixed c := by
  unfold FixedDecimal.add at h
  split at h
  · rename_i hzero
    cases h
    have hvalue : ofFixed a = 0 := RoundedDecimal.ext (by
      rw [value_zero]
      exact FixedDecimal.value_eq_zero.mpr hzero)
    rw [hvalue, zero_add]
  · split at h
    · rename_i hzero
      cases h
      have hvalue : ofFixed b = 0 := RoundedDecimal.ext (by
        rw [value_zero]
        exact FixedDecimal.value_eq_zero.mpr hzero)
      rw [hvalue, add_zero]
    · obtain ⟨c', hfit, hvalue⟩ := fit_zeros h
      have hscale : max a.scale b.scale ≤ maxScale := max_le a.scale_le b.scale_le
      have hnum : ((a.value + b.value) * 10 ^ maxScale).num
          = (a.aligned (max a.scale b.scale) + b.aligned (max a.scale b.scale))
            * 10 ^ (maxScale - max a.scale b.scale) := by
        have hpow : (10 : ℚ) ^ maxScale
            = 10 ^ max a.scale b.scale * 10 ^ (maxScale - max a.scale b.scale) := by
          rw [← pow_add, Nat.add_sub_cancel' hscale]
        rw [← FixedDecimal.aligned_add_value, hpow, ← mul_assoc,
          div_mul_cancel₀ _ (pow_ne_zero _ (by norm_num))]
        exact_mod_cast Rat.num_intCast _
      rw [add_def]
      show round maxMantissa maxScale (a.value + b.value) = _
      rw [round, hnum, hfit]
      exact RoundedDecimal.ext hvalue

/-- So are many, one after the other. -/
theorem foldl_ofFixed {terms : List (FixedDecimal maxMantissa maxScale)}
    {total result : FixedDecimal maxMantissa maxScale}
    (h : FixedDecimal.addAll .halfEven total terms = some result) :
    (terms.map ofFixed).foldl (· + ·) (ofFixed total) = ofFixed result := by
  induction terms generalizing total with
  | nil => exact congrArg ofFixed (Option.some.inj h)
  | cons term terms ih =>
      obtain ⟨next, hnext, hrest⟩ := FixedDecimal.addAll_cons.mp h
      rw [List.map_cons, List.foldl_cons, add_ofFixed hnext, ih hrest]

end RoundedDecimal

end Foundations
