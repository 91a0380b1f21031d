import Mathlib.Algebra.Order.Field.Rat
import Mathlib.Data.Int.Order.Lemmas
import Mathlib.Data.List.Infix
import Mathlib.Tactic.FieldSimp
import Mathlib.Tactic.Ring

/-! # Decimals of finite precision

A decimal is an integer mantissa and a number of fractional digits, both bounded. Addition brings
the operands to the larger scale; a sum that does not fit there loses as few digits as needed, by a
rule that rounds to a neighbour, and one that does not fit without its fractional digits is an
overflow. An addition whose exact result can be written down at all is exact (`add_value`). Adding
up many terms, no addition rounds if and only if every partial sum can be written down
(`addAll_exact_iff`). -/

namespace Foundations

/-- `mantissa / 10 ^ scale`. -/
structure FixedDecimal (maxMantissa maxScale : ℕ) where
  mantissa : ℤ
  scale : ℕ
  mantissa_le : mantissa.natAbs ≤ maxMantissa
  scale_le : scale ≤ maxScale
  deriving DecidableEq

/-- How many digits of a magnitude are dropped: to the multiple below or the one above, and without
an error where the dropped digits are zeros. -/
structure Rounding where
  drop : ℕ → ℕ → ℕ
  lower : ∀ digits magnitude, magnitude < drop digits magnitude * 10 ^ digits + 10 ^ digits
  upper : ∀ digits magnitude, drop digits magnitude * 10 ^ digits < magnitude + 10 ^ digits

theorem Rounding.drop_mul (rounding : Rounding) (digits kept : ℕ) :
    rounding.drop digits (kept * 10 ^ digits) = kept := by
  have hpos : 0 < 10 ^ digits := Nat.pow_pos (by decide)
  have hlower := rounding.lower digits (kept * 10 ^ digits)
  have hupper := rounding.upper digits (kept * 10 ^ digits)
  rw [← Nat.succ_mul] at hlower hupper
  have hle := Nat.lt_of_mul_lt_mul_right hlower
  have hge := Nat.lt_of_mul_lt_mul_right hupper
  omega

/-- To the nearest multiple, in the middle to the even one. -/
def Rounding.halfEven : Rounding where
  drop digits magnitude :=
    let quotient := magnitude / 10 ^ digits
    let rest := 2 * (magnitude % 10 ^ digits)
    if 10 ^ digits < rest ∨ 10 ^ digits = rest ∧ quotient % 2 = 1 then quotient + 1 else quotient
  lower digits magnitude := by
    have hmod := Nat.mod_lt magnitude (Nat.pow_pos (n := digits) (by decide : 0 < 10))
    have hdiv := Nat.div_add_mod' magnitude (10 ^ digits)
    dsimp only
    split
    · rw [Nat.succ_mul]
      omega
    · omega
  upper digits magnitude := by
    have hmod := Nat.mod_lt magnitude (Nat.pow_pos (n := digits) (by decide : 0 < 10))
    have hdiv := Nat.div_add_mod' magnitude (10 ^ digits)
    dsimp only
    split
    · rw [Nat.succ_mul]
      omega
    · omega

/-- A magnitude with the sign of an integer. -/
def withSign (n : ℤ) (magnitude : ℕ) : ℤ := if n < 0 then -magnitude else magnitude

@[simp] theorem natAbs_withSign (n : ℤ) (magnitude : ℕ) :
    (withSign n magnitude).natAbs = magnitude := by
  unfold withSign
  split <;> simp

theorem withSign_mul (n : ℤ) (magnitude factor : ℕ) :
    withSign n (magnitude * factor) = withSign n magnitude * factor := by
  unfold withSign
  split <;> push_cast <;> ring

@[simp] theorem withSign_natAbs (n : ℤ) : withSign n n.natAbs = n := by
  unfold withSign
  split <;> omega

namespace FixedDecimal

variable {maxMantissa maxScale : ℕ}

def value (d : FixedDecimal maxMantissa maxScale) : ℚ := d.mantissa / 10 ^ d.scale

def zero : FixedDecimal maxMantissa maxScale := ⟨0, 0, Nat.zero_le _, Nat.zero_le _⟩

@[simp] theorem value_zero : (zero : FixedDecimal maxMantissa maxScale).value = 0 := by
  simp [value, zero]

def neg (d : FixedDecimal maxMantissa maxScale) : FixedDecimal maxMantissa maxScale :=
  ⟨-d.mantissa, d.scale, by rw [Int.natAbs_neg]; exact d.mantissa_le, d.scale_le⟩

@[simp] theorem value_neg (d : FixedDecimal maxMantissa maxScale) : d.neg.value = -d.value := by
  simp [value, neg, neg_div]

theorem value_eq_zero {d : FixedDecimal maxMantissa maxScale} : d.value = 0 ↔ d.mantissa = 0 := by
  simp [value]

/-- The mantissa of a decimal at a larger scale. -/
def aligned (d : FixedDecimal maxMantissa maxScale) (scale : ℕ) : ℤ :=
  d.mantissa * 10 ^ (scale - d.scale)

theorem aligned_value (d : FixedDecimal maxMantissa maxScale) {scale : ℕ} (h : d.scale ≤ scale) :
    (d.aligned scale : ℚ) / 10 ^ scale = d.value := by
  have hpow : (10 : ℚ) ^ scale = 10 ^ (scale - d.scale) * 10 ^ d.scale := by
    rw [← pow_add, Nat.sub_add_cancel h]
  rw [aligned, value, hpow]
  push_cast
  field_simp

/-- A sum written down at its scale, or with as few digits dropped as needed. -/
def fit (rounding : Rounding) (sum : ℤ) (scale : ℕ) (hscale : scale ≤ maxScale) :
    Option (FixedDecimal maxMantissa maxScale) :=
  if h : sum.natAbs ≤ maxMantissa then some ⟨sum, scale, h, hscale⟩
  else
    ((List.range scale).find? (fun d => rounding.drop (d + 1) sum.natAbs ≤ maxMantissa)).bind
      (fun d =>
        if h : rounding.drop (d + 1) sum.natAbs ≤ maxMantissa then
          some ⟨withSign sum (rounding.drop (d + 1) sum.natAbs), scale - (d + 1),
            by rwa [natAbs_withSign], (Nat.sub_le ..).trans hscale⟩
        else none)

/-- Addition; `none` is an overflow. -/
def add (rounding : Rounding) (a b : FixedDecimal maxMantissa maxScale) :
    Option (FixedDecimal maxMantissa maxScale) :=
  if a.mantissa = 0 then some b
  else if b.mantissa = 0 then some a
  else
    fit rounding (a.aligned (max a.scale b.scale) + b.aligned (max a.scale b.scale))
      (max a.scale b.scale) (max_le a.scale_le b.scale_le)

/-- A rational that can be written down. -/
def Representable (maxMantissa maxScale : ℕ) (q : ℚ) : Prop :=
  ∃ d : FixedDecimal maxMantissa maxScale, d.value = q

theorem mantissa_mul_of_value {d : FixedDecimal maxMantissa maxScale} {sum : ℤ} {scale : ℕ}
    (h : d.value = sum / 10 ^ scale) : d.mantissa * 10 ^ scale = sum * 10 ^ d.scale := by
  rw [value, div_eq_div_iff (pow_ne_zero _ (by norm_num)) (pow_ne_zero _ (by norm_num))] at h
  exact_mod_cast h

/-- A sum that is too large at its scale is written down at a smaller one only. -/
theorem eq_aligned_of_value {d : FixedDecimal maxMantissa maxScale} {sum : ℤ} {scale : ℕ}
    (h : d.value = sum / 10 ^ scale) (hbig : maxMantissa < sum.natAbs) :
    d.scale < scale ∧ sum = d.aligned scale := by
  have hmul := mantissa_mul_of_value h
  have hten : ∀ n, (10 : ℤ) ^ n ≠ 0 := fun n => pow_ne_zero _ (by norm_num)
  rcases Nat.lt_or_ge d.scale scale with hlt | hge
  · refine ⟨hlt, mul_right_cancel₀ (hten d.scale) ?_⟩
    rw [← hmul, aligned, mul_assoc, ← pow_add, Nat.sub_add_cancel hlt.le]
  · have hmantissa : d.mantissa = sum * 10 ^ (d.scale - scale) := by
      refine mul_right_cancel₀ (hten scale) ?_
      rw [hmul, mul_assoc, ← pow_add, Nat.sub_add_cancel hge]
    have hle : sum.natAbs ≤ d.mantissa.natAbs := by
      rw [hmantissa, Int.natAbs_mul]
      exact Nat.le_mul_of_pos_right _ (Int.natAbs_pos.mpr (hten _))
    exact absurd (hle.trans d.mantissa_le) (Nat.not_le.mpr hbig)

/-- What is written down for a sum is the sum, if the sum can be written down. -/
theorem fit_value {rounding : Rounding} {sum : ℤ} {scale : ℕ} {hscale : scale ≤ maxScale}
    {c : FixedDecimal maxMantissa maxScale} (h : fit rounding sum scale hscale = some c)
    (hsum : Representable maxMantissa maxScale (sum / 10 ^ scale)) :
    c.value = sum / 10 ^ scale := by
  unfold fit at h
  split at h
  · cases h
    rfl
  · rename_i hbig
    obtain ⟨d, hfind, h⟩ := Option.bind_eq_some_iff.mp h
    obtain ⟨-, hd, hleast⟩ := List.find?_range_eq_some.mp hfind
    rw [List.mem_range] at hd
    split at h
    · cases h
      obtain ⟨r, hr⟩ := hsum
      obtain ⟨hscale', hsum⟩ := eq_aligned_of_value hr (Nat.not_le.mp hbig)
      have habs : sum.natAbs = r.mantissa.natAbs * 10 ^ (scale - r.scale) := by
        rw [hsum, aligned, Int.natAbs_mul, Int.natAbs_pow]
        rfl
      -- the number written down drops no fewer digits
      have hmore : d + 1 ≤ scale - r.scale := by
        by_contra hless
        have hdrop := hleast (scale - r.scale - 1) (by omega)
        rw [Nat.sub_add_cancel (by omega), habs, rounding.drop_mul] at hdrop
        simp [r.mantissa_le] at hdrop
      have hdropped : rounding.drop (d + 1) sum.natAbs * 10 ^ (d + 1) = sum.natAbs := by
        rw [habs, ← Nat.sub_add_cancel hmore, pow_add, ← mul_assoc, rounding.drop_mul]
      have hsign := withSign_mul sum (rounding.drop (d + 1) sum.natAbs) (10 ^ (d + 1))
      rw [hdropped, withSign_natAbs] at hsign
      have hpow : (10 : ℚ) ^ scale = 10 ^ (d + 1) * 10 ^ (scale - (d + 1)) := by
        rw [← pow_add, Nat.add_sub_cancel' (by omega)]
      show (withSign sum (rounding.drop (d + 1) sum.natAbs) : ℚ) / 10 ^ (scale - (d + 1)) = _
      rw [hpow]
      conv_rhs => rw [hsign]
      push_cast
      field_simp
    · cases h

theorem aligned_add_value (a b : FixedDecimal maxMantissa maxScale) :
    ((a.aligned (max a.scale b.scale) + b.aligned (max a.scale b.scale) : ℤ) : ℚ)
      / 10 ^ max a.scale b.scale = a.value + b.value := by
  rw [Int.cast_add, add_div, aligned_value a (le_max_left _ _), aligned_value b (le_max_right _ _)]

/-- **An addition is exact if its result can be written down.** -/
theorem add_value {rounding : Rounding} {a b c : FixedDecimal maxMantissa maxScale}
    (h : add rounding a b = some c)
    (hsum : Representable maxMantissa maxScale (a.value + b.value)) :
    c.value = a.value + b.value := by
  unfold add at h
  split at h
  · rename_i hzero
    cases h
    rw [value_eq_zero.mpr hzero, zero_add]
  · split at h
    · rename_i hzero
      cases h
      rw [value_eq_zero.mpr hzero, add_zero]
    · rw [← aligned_add_value] at hsum ⊢
      exact fit_value h hsum

/-- Add many terms to a total, one after the other. -/
def addAll (rounding : Rounding) (total : FixedDecimal maxMantissa maxScale)
    (terms : List (FixedDecimal maxMantissa maxScale)) :
    Option (FixedDecimal maxMantissa maxScale) :=
  terms.foldlM (add rounding) total

/-- The values of terms, added up exactly. -/
def exactSum (terms : List (FixedDecimal maxMantissa maxScale)) : ℚ := (terms.map value).sum

@[simp] theorem exactSum_nil : exactSum ([] : List (FixedDecimal maxMantissa maxScale)) = 0 := rfl

@[simp] theorem exactSum_cons (term : FixedDecimal maxMantissa maxScale)
    (terms : List (FixedDecimal maxMantissa maxScale)) :
    exactSum (term :: terms) = term.value + exactSum terms :=
  List.sum_cons

theorem addAll_cons {rounding : Rounding} {total term result : FixedDecimal maxMantissa maxScale}
    {terms : List (FixedDecimal maxMantissa maxScale)} :
    addAll rounding total (term :: terms) = some result
      ↔ ∃ next, add rounding total term = some next ∧ addAll rounding next terms = some result := by
  rw [addAll, List.foldlM_cons]
  exact Option.bind_eq_some_iff

/-- Where no addition overflows, none of the first ones does. -/
theorem addAll_prefix {rounding : Rounding} {terms front : List (FixedDecimal maxMantissa maxScale)}
    {total result : FixedDecimal maxMantissa maxScale}
    (h : addAll rounding total terms = some result) (hfront : front <+: terms) :
    ∃ partialSum, addAll rounding total front = some partialSum := by
  obtain ⟨back, rfl⟩ := hfront
  rw [addAll, List.foldlM_append] at h
  obtain ⟨partialSum, hpartial, -⟩ := Option.bind_eq_some_iff.mp h
  exact ⟨partialSum, hpartial⟩

/-- A sum is exact if every partial sum can be written down. -/
theorem addAll_value {rounding : Rounding} {terms : List (FixedDecimal maxMantissa maxScale)}
    {total result : FixedDecimal maxMantissa maxScale}
    (h : addAll rounding total terms = some result)
    (hfronts : ∀ front, front <+: terms →
      Representable maxMantissa maxScale (total.value + exactSum front)) :
    result.value = total.value + exactSum terms := by
  induction terms generalizing total with
  | nil =>
      cases h
      simp
  | cons term terms ih =>
      obtain ⟨next, hnext, hrest⟩ := addAll_cons.mp h
      have hfirst := hfronts [term] ⟨terms, rfl⟩
      rw [exactSum_cons, exactSum_nil, add_zero] at hfirst
      have hvalue := add_value hnext hfirst
      have hlater : ∀ front, front <+: terms →
          Representable maxMantissa maxScale (next.value + exactSum front) := by
        intro front hfront
        have hmore := hfronts (term :: front) (List.cons_prefix_cons.mpr ⟨rfl, hfront⟩)
        rwa [exactSum_cons, ← add_assoc, ← hvalue] at hmore
      rw [ih hrest hlater, exactSum_cons, hvalue, add_assoc]

/-- **No addition rounds** if and only if every partial sum can be written down. -/
theorem addAll_exact_iff {rounding : Rounding} {terms : List (FixedDecimal maxMantissa maxScale)}
    {total result : FixedDecimal maxMantissa maxScale}
    (h : addAll rounding total terms = some result) :
    (∀ front, front <+: terms → Representable maxMantissa maxScale (total.value + exactSum front))
      ↔ ∀ front, front <+: terms → ∃ partialSum,
          addAll rounding total front = some partialSum
            ∧ partialSum.value = total.value + exactSum front := by
  constructor
  · intro hfronts front hfront
    obtain ⟨partialSum, hpartial⟩ := addAll_prefix h hfront
    exact ⟨partialSum, hpartial,
      addAll_value hpartial (fun front' hfront' => hfronts front' (hfront'.trans hfront))⟩
  · intro hexact front hfront
    obtain ⟨partialSum, -, hvalue⟩ := hexact front hfront
    exact ⟨partialSum, hvalue⟩

end FixedDecimal

end Foundations
