import CalaLedger.Foundations.HashMap
import CalaLedger.TxTemplate

/-! # Entry totals in finite precision

The balance check of `prep_entries` as it is run: one running total for each currency and layer, in
a decimal of 96 bits and at most 28 fractional digits whose additions round when the sum does not
fit. What the check misses is the rounding: a list that it accepts balances exactly as long as every
partial sum of a currency and layer can be written down, which is when no addition rounds. -/

namespace CalaLedger

open Foundations

/-- `rust_decimal::Decimal`. -/
abbrev RustDecimal := FixedDecimal (2 ^ 96 - 1) 28

/-- The evaluated expressions of one template entry, the units as they are written down. -/
structure EvaluatedEntry where
  entry : EntryValues
  units : RustDecimal
  units_eq : entry.units = RoundedDecimal.ofFixed units

/-- `*total -= units` for a debit, `*total += units` for a credit; `none` is an overflow. -/
def addUnits (rounding : Rounding) (total : RustDecimal) (evaluated : EvaluatedEntry) :
    Option RustDecimal :=
  match evaluated.entry.direction with
  | .debit => total.add rounding evaluated.units.neg
  | .credit => total.add rounding evaluated.units

/-- The running totals of the loop. -/
abbrev EntryTotals := HashMap (Currency × Layer) RustDecimal

/-- One round of the loop. -/
def addEntry (rounding : Rounding) (totals : EntryTotals) (evaluated : EvaluatedEntry) :
    Option EntryTotals :=
  let key := (evaluated.entry.currency, evaluated.entry.layer)
  (addUnits rounding ((totals.lookup key).getD FixedDecimal.zero) evaluated).map (totals.insert key)

/-- The check after the loop, over the totals in some order. -/
def checkTotals (iteration : IterationOrder (Currency × Layer)) (totals : EntryTotals) :
    Except TxTemplateError Unit :=
  match (iteration.arrange totals.keys).find? (fun key =>
      ((totals.lookup key).getD FixedDecimal.zero).mantissa ≠ 0) with
  | some key =>
      .error (.unbalancedTransaction key.1 key.2
        (RoundedDecimal.ofFixed ((totals.lookup key).getD FixedDecimal.zero)))
  | none => .ok ()

/-- `prep_entries`, on evaluated entries; `none` is a panic. -/
def prepEvaluatedEntries (rounding : Rounding) (iteration : IterationOrder (Currency × Layer))
    (evaluated : List EvaluatedEntry) : Option (Except TxTemplateError (List EntryValues)) := do
  let totals ← evaluated.foldlM (addEntry rounding) ∅
  pure ((checkTotals iteration totals).map (fun _ => evaluated.map EvaluatedEntry.entry))

/-! ## The exact totals -/

/-- The units of one direction of a currency and layer, added up exactly. -/
def exactTotal (evaluated : List EvaluatedEntry) (currency : Currency) (layer : Layer)
    (direction : DebitOrCredit) : ℚ :=
  ((evaluated.filter (fun e => e.entry.currency = currency ∧ e.entry.layer = layer
    ∧ e.entry.direction = direction)).map (fun e => e.units.value)).sum

/-- The units of an entry as they enter the running total. -/
def EvaluatedEntry.signedUnits (evaluated : EvaluatedEntry) : RustDecimal :=
  match evaluated.entry.direction with
  | .debit => evaluated.units.neg
  | .credit => evaluated.units

/-- What is added to the running total of a currency and layer, in order. -/
def signedUnitsOf (evaluated : List EvaluatedEntry) (key : Currency × Layer) : List RustDecimal :=
  (evaluated.filter (fun e => (e.entry.currency, e.entry.layer) = key)).map
    EvaluatedEntry.signedUnits

/-- Every exact partial sum of the units of a currency and layer can be written down in 96 bits and
28 fractional digits. -/
def PartialSumsRepresentable (evaluated : List EvaluatedEntry) : Prop :=
  ∀ currency layer front, front <+: signedUnitsOf evaluated (currency, layer) →
    Representable (FixedDecimal.exactSum front)

theorem addUnits_eq (rounding : Rounding) (total : RustDecimal) (evaluated : EvaluatedEntry) :
    addUnits rounding total evaluated = total.add rounding evaluated.signedUnits := by
  unfold addUnits EvaluatedEntry.signedUnits
  cases evaluated.entry.direction <;> rfl

theorem EvaluatedEntry.value_signedUnits (evaluated : EvaluatedEntry) :
    evaluated.signedUnits.value
      = (if evaluated.entry.direction = .credit then evaluated.units.value else 0)
        - if evaluated.entry.direction = .debit then evaluated.units.value else 0 := by
  unfold EvaluatedEntry.signedUnits
  cases evaluated.entry.direction <;> simp

theorem exactTotal_cons (e : EvaluatedEntry) (evaluated : List EvaluatedEntry)
    (key : Currency × Layer)
    (direction : DebitOrCredit) :
    exactTotal (e :: evaluated) key.1 key.2 direction
      = (if (e.entry.currency, e.entry.layer) = key ∧ e.entry.direction = direction
          then e.units.value else 0)
        + exactTotal evaluated key.1 key.2 direction := by
  unfold exactTotal
  by_cases hkey : (e.entry.currency, e.entry.layer) = key ∧ e.entry.direction = direction
  · obtain ⟨rfl, hdirection⟩ := hkey
    rw [if_pos ⟨rfl, hdirection⟩, List.filter_cons_of_pos (by simp [hdirection]), List.map_cons,
      List.sum_cons]
  · rw [if_neg hkey, zero_add, List.filter_cons_of_neg]
    rw [decide_eq_true_eq]
    rintro ⟨hcurrency, hlayer, hdirection⟩
    exact hkey ⟨Prod.ext hcurrency hlayer, hdirection⟩

/-- Credits less debits. -/
theorem exactSum_signedUnitsOf (evaluated : List EvaluatedEntry) (key : Currency × Layer) :
    FixedDecimal.exactSum (signedUnitsOf evaluated key)
      = exactTotal evaluated key.1 key.2 .credit - exactTotal evaluated key.1 key.2 .debit := by
  induction evaluated with
  | nil => simp [signedUnitsOf, exactTotal]
  | cons e evaluated ih =>
      rw [exactTotal_cons, exactTotal_cons]
      by_cases hkey : (e.entry.currency, e.entry.layer) = key
      · rw [signedUnitsOf, List.filter_cons_of_pos (by simpa using hkey), List.map_cons,
          FixedDecimal.exactSum_cons, e.value_signedUnits]
        rw [signedUnitsOf] at ih
        rw [ih]
        simp only [hkey, true_and]
        ring
      · rw [signedUnitsOf, List.filter_cons_of_neg (by simpa using hkey)]
        rw [signedUnitsOf] at ih
        simp only [hkey, false_and, if_false, zero_add]
        exact ih

/-- The running total of one currency and layer. -/
theorem addEntries_at {rounding : Rounding} {evaluated : List EvaluatedEntry}
    {totals totals' : EntryTotals} (h : evaluated.foldlM (addEntry rounding) totals = some totals')
    (key : Currency × Layer) :
    FixedDecimal.addAll rounding ((totals.lookup key).getD FixedDecimal.zero)
        (signedUnitsOf evaluated key)
      = some ((totals'.lookup key).getD FixedDecimal.zero) := by
  induction evaluated generalizing totals with
  | nil =>
      cases h
      rfl
  | cons e evaluated ih =>
      rw [List.foldlM_cons] at h
      obtain ⟨next, hnext, hrest⟩ := Option.bind_eq_some_iff.mp h
      obtain ⟨total, htotal, rfl⟩ := Option.map_eq_some_iff.mp hnext
      rw [addUnits_eq] at htotal
      have hlater := ih hrest
      by_cases hkey : (e.entry.currency, e.entry.layer) = key
      · subst hkey
        rw [AList.lookup_insert, Option.getD_some] at hlater
        rw [signedUnitsOf, List.filter_cons_of_pos (by simp), List.map_cons]
        exact FixedDecimal.addAll_cons.mpr ⟨total, htotal, hlater⟩
      · rw [AList.lookup_insert_ne (Ne.symm hkey)] at hlater
        rw [signedUnitsOf, List.filter_cons_of_neg (by simpa using hkey)]
        exact hlater

/-- A list is accepted when every running total ends at zero. -/
theorem accepted_totals {rounding : Rounding} {iteration : IterationOrder (Currency × Layer)}
    {evaluated : List EvaluatedEntry} {newEntries : List EntryValues}
    (h : prepEvaluatedEntries rounding iteration evaluated = some (.ok newEntries))
    (key : Currency × Layer) :
    ∃ total : RustDecimal, total.value = 0
      ∧ FixedDecimal.addAll rounding FixedDecimal.zero (signedUnitsOf evaluated key)
        = some total := by
  obtain ⟨totals, htotals, hcheck⟩ := Option.bind_eq_some_iff.mp h
  have hat := addEntries_at htotals key
  rw [AList.lookup_empty, Option.getD_none] at hat
  refine ⟨_, ?_, hat⟩
  rw [FixedDecimal.value_eq_zero]
  cases hlookup : totals.lookup key with
  | none => rfl
  | some total =>
      have hmem : key ∈ iteration.arrange totals.keys := by
        rw [iteration.mem_arrange]
        exact AList.mem_keys.mp (AList.lookup_isSome.mp (by rw [hlookup]; rfl))
      have hnone : (iteration.arrange totals.keys).find? (fun key =>
          ((totals.lookup key).getD FixedDecimal.zero).mantissa ≠ 0) = none := by
        cases hfind : (iteration.arrange totals.keys).find? (fun key =>
            ((totals.lookup key).getD FixedDecimal.zero).mantissa ≠ 0) with
        | none => rfl
        | some found =>
            rw [checkTotals, hfind] at hcheck
            cases hcheck
      have hzero := List.find?_eq_none.mp hnone key hmem
      rw [hlookup] at hzero
      simpa using hzero

theorem EvaluatedEntry.signedUnits_entry (evaluated : EvaluatedEntry) :
    evaluated.entry.signedUnits = RoundedDecimal.ofFixed evaluated.signedUnits := by
  unfold EntryValues.signedUnits EvaluatedEntry.signedUnits
  rw [evaluated.units_eq]
  cases evaluated.entry.direction with
  | debit => exact RoundedDecimal.ext (FixedDecimal.value_neg _).symm
  | credit => rfl

/-- **Digits and values agree**: what the check accepts digit by digit has totals of zero. -/
theorem accepted_entryTotal {iteration : IterationOrder (Currency × Layer)}
    {evaluated : List EvaluatedEntry} {newEntries : List EntryValues}
    (h : prepEvaluatedEntries .halfEven iteration evaluated = some (.ok newEntries))
    (currency : Currency) (layer : Layer) :
    entryTotal (evaluated.map EvaluatedEntry.entry) currency layer = 0 := by
  obtain ⟨total, hzero, hadd⟩ := accepted_totals h (currency, layer)
  have hterms : ((evaluated.map EvaluatedEntry.entry).filter (fun entry =>
        entry.currency = currency ∧ entry.layer = layer)).map EntryValues.signedUnits
      = (signedUnitsOf evaluated (currency, layer)).map RoundedDecimal.ofFixed := by
    rw [signedUnitsOf, List.filter_map, List.map_map, List.map_map]
    simp only [Function.comp_def, EvaluatedEntry.signedUnits_entry, Prod.mk.injEq]
  rw [entryTotal, hterms]
  refine (RoundedDecimal.foldl_ofFixed hadd).trans (RoundedDecimal.ext ?_)
  rw [RoundedDecimal.value_zero]
  exact hzero

/-- **What a list accepted as balanced is worth**: it balances exactly on every currency and layer
whose exact partial sums can all be written down, which is to say when every running total is the
exact sum so far. -/
theorem balanced_exactly_of_representable (rounding : Rounding)
    (iteration : IterationOrder (Currency × Layer)) (evaluated : List EvaluatedEntry)
    (newEntries : List EntryValues)
    (h : prepEvaluatedEntries rounding iteration evaluated = some (.ok newEntries)) :
    (PartialSumsRepresentable evaluated → ∀ currency layer,
        exactTotal evaluated currency layer .credit = exactTotal evaluated currency layer .debit)
    ∧ (PartialSumsRepresentable evaluated
        ↔ ∀ currency layer front, front <+: signedUnitsOf evaluated (currency, layer) →
          ∃ total, FixedDecimal.addAll rounding FixedDecimal.zero front = some total
            ∧ total.value = FixedDecimal.exactSum front) := by
  constructor
  · intro hfronts currency layer
    obtain ⟨total, hzero, hadd⟩ := accepted_totals h (currency, layer)
    have hvalue := FixedDecimal.addAll_value hadd (fun front hfront => by
      rw [FixedDecimal.value_zero, zero_add]
      exact hfronts currency layer front hfront)
    rw [hzero, FixedDecimal.value_zero, zero_add, exactSum_signedUnitsOf] at hvalue
    exact sub_eq_zero.mp hvalue.symm
  · refine forall₂_congr (fun currency layer => ?_)
    obtain ⟨total, -, hadd⟩ := accepted_totals h (currency, layer)
    have hexact := FixedDecimal.addAll_exact_iff hadd
    simp only [FixedDecimal.value_zero, zero_add] at hexact
    exact hexact

/-- An entry of the given direction and units. -/
def evaluatedEntry (direction : DebitOrCredit) (units : RustDecimal) : EvaluatedEntry where
  entry :=
    { id := ⟨1⟩
      transactionId := ⟨1⟩
      journalId := ⟨1⟩
      accountId := ⟨1⟩
      entryType := "ENTRY"
      sequence := 1
      layer := .settled
      units := RoundedDecimal.ofFixed units
      currency := ⟨"USD"⟩
      direction := direction
      description := none
      metadata := none }
  units := units
  units_eq := rfl

def tenUnits : RustDecimal := ⟨10, 0, by decide, by decide⟩

/-- One in the last of 28 digits. -/
def tinyUnits : RustDecimal := ⟨1, 28, by decide, by decide⟩

/-- Ten units and a tiny one on the credit side, ten on the debit side. -/
def roundedEntries : List EvaluatedEntry :=
  [evaluatedEntry .credit tenUnits, evaluatedEntry .credit tinyUnits,
    evaluatedEntry .debit tenUnits]

/-- The tiny credit is rounded away, and the list is accepted although it does not balance. -/
theorem unbalanced_accepted :
    prepEvaluatedEntries .halfEven (.asStored _) roundedEntries
        = some (.ok (roundedEntries.map EvaluatedEntry.entry))
      ∧ exactTotal roundedEntries ⟨"USD"⟩ .settled .credit
        ≠ exactTotal roundedEntries ⟨"USD"⟩ .settled .debit := by
  constructor
  · rfl
  · decide +kernel

/-- Ten units on both sides. -/
def plainEntries : List EvaluatedEntry :=
  [evaluatedEntry .credit tenUnits, evaluatedEntry .debit tenUnits]

theorem partialSumsRepresentable_plainEntries : PartialSumsRepresentable plainEntries := by
  intro currency layer front hfront
  by_cases hkey : (currency, layer) = (⟨"USD"⟩, .settled)
  · cases hkey
    have hmem : front ∈ [tenUnits, tenUnits.neg].inits := (List.mem_inits _ _).mpr hfront
    have hcases : front = [] ∨ front = [tenUnits] ∨ front = [tenUnits, tenUnits.neg] := by
      simpa using hmem
    rcases hcases with rfl | rfl | rfl
    · exact ⟨FixedDecimal.zero, by simp⟩
    · exact ⟨tenUnits, by simp⟩
    · exact ⟨FixedDecimal.zero, by simp⟩
  · have hnone : signedUnitsOf plainEntries (currency, layer) = [] := by
      simp only [signedUnitsOf, List.map_eq_nil_iff, List.filter_eq_nil_iff, decide_eq_true_eq]
      intro e he hown
      rcases List.mem_pair.mp he with rfl | rfl
      · exact hkey hown.symm
      · exact hkey hown.symm
    rw [hnone, List.prefix_nil] at hfront
    subst hfront
    exact ⟨FixedDecimal.zero, by simp⟩

theorem balanced_exactly_of_representable_plain :
    exactTotal plainEntries ⟨"USD"⟩ .settled .credit
      = exactTotal plainEntries ⟨"USD"⟩ .settled .debit :=
  (balanced_exactly_of_representable .halfEven (.asStored _) plainEntries _ rfl).1
    partialSumsRepresentable_plainEntries _ _

/-- Roundings may cancel: the tiny credit and the tiny debit are both rounded away. -/
example :
    prepEvaluatedEntries .halfEven (.asStored _)
        [evaluatedEntry .credit tenUnits, evaluatedEntry .credit tinyUnits,
          evaluatedEntry .debit tinyUnits, evaluatedEntry .debit tenUnits]
      = some (.ok ([evaluatedEntry .credit tenUnits, evaluatedEntry .credit tinyUnits,
          evaluatedEntry .debit tinyUnits, evaluatedEntry .debit tenUnits].map
            EvaluatedEntry.entry)) := rfl

end CalaLedger
