import CalaLedger.Balance.EffectiveReads

/-! # The bounds of a balance range

A range read subtracts the all-time version of the last row before the window from that of the last
row up to its end. Both versions count rows (`number_lastRow`), so the difference is the number of
rows in the window; it goes below zero when a row lies after the end of the window and before its
beginning (`u32Sub_counts`). Apart from that the range is exact (`isRange_rangeTo`). -/

namespace CalaLedger

open Foundations

/-! ## What a range says -/

/-- The cumulative balance of a history up to some day: that of its last row on these days, and zero
without one. -/
def IsBalanceOn (history : List EffectiveBalanceSnapshot) (days : NaiveDate → Prop)
    (balance : BalanceSnapshot) : Prop :=
  (∃ row ∈ history, days row.effective
      ∧ (∀ other ∈ history, days other.effective → other.position ≤ row.position)
      ∧ balance = row.values)
    ∨ (∀ row ∈ history, ¬ days row.effective)
      ∧ ∀ layer direction, (balance.layer layer).side direction = 0

/-- **An exact range**: the cumulative balances before the window and at its end, their difference
on every layer, and as version the number of rows in the window. -/
structure IsRange (ledger : EffectiveLedger) (key : BalanceKey) (fromDay endDay : NaiveDate)
    (range : BalanceRange) : Prop where
  filed : range.close.details.key = key
  opening : IsBalanceOn (ledger.history key) (· < fromDay) range.opening.details
  close : IsBalanceOn (ledger.history key) (· ≤ endDay) range.close.details
  period : ∀ layer direction, (range.period.details.layer layer).side direction
    = (range.close.details.layer layer).side direction
      - (range.opening.details.layer layer).side direction
  version : range.period.details.version
    = (ledger.history key).countP (fun row => fromDay ≤ row.effective ∧ row.effective ≤ endDay)
  kind : ledger.normalBalanceType key.accountId = some range.close.balanceType
    ∧ range.opening.balanceType = range.close.balanceType
    ∧ range.period.balanceType = range.close.balanceType

/-- No row lies after the end of a window and before its beginning. -/
def EffectiveLedger.NoneBetween (ledger : EffectiveLedger) (key : BalanceKey)
    (fromDay endDay : NaiveDate) : Prop :=
  ∀ row ∈ ledger.history key, ¬ (endDay < row.effective ∧ row.effective < fromDay)

instance (ledger : EffectiveLedger) (key : BalanceKey) (fromDay endDay : NaiveDate) :
    Decidable (ledger.NoneBetween key fromDay endDay) :=
  inferInstanceAs (Decidable (∀ row ∈ ledger.history key, _))

/-- Some row lies on or before the end of a window, and none after it and before its beginning. -/
def EffectiveLedger.Covered (ledger : EffectiveLedger) (key : BalanceKey)
    (fromDay endDay : NaiveDate) : Prop :=
  (∃ row ∈ ledger.history key, row.effective ≤ endDay) ∧ ledger.NoneBetween key fromDay endDay

/-! ## The last row of some days -/

namespace EffectiveLedger

variable {ledger : EffectiveLedger} {key : BalanceKey} {days : NaiveDate → Bool}
  {row : EffectiveBalanceSnapshot} {fromDay endDay : NaiveDate}

theorem key_of_mem_history (h : row ∈ ledger.history key) : row.key = key :=
  of_decide_eq_true (List.mem_filter.mp h).2

theorem lastRow_mem (h : ledger.lastRow key days = some row) :
    row ∈ ledger.history key ∧ days row.effective = true :=
  List.mem_filter.mp (List.argmax_mem h)

theorem lastRow_max (h : ledger.lastRow key days = some row) :
    ∀ other ∈ ledger.history key, days other.effective = true → other.position ≤ row.position :=
  fun _ hother hdays => List.le_of_mem_argmax (List.mem_filter.mpr ⟨hother, hdays⟩) h

theorem lastRow_eq_none :
    ledger.lastRow key days = none ↔ ∀ row ∈ ledger.history key, days row.effective = false := by
  rw [lastRow, List.argmax_eq_none, List.filter_eq_nil_iff]
  simp only [Bool.not_eq_true]

theorem lastRow_isSome : (ledger.lastRow key days).isSome
    ↔ ∃ row ∈ ledger.history key, days row.effective = true := by
  rw [Option.isSome_iff_ne_none, Ne, lastRow_eq_none]
  push Not
  simp only [Bool.not_eq_false]

/-- The last row is the cumulative balance of these days. -/
theorem isBalanceOn_lastRow (h : ledger.lastRow key days = some row) :
    IsBalanceOn (ledger.history key) (fun day => days day = true) row.values :=
  Or.inl ⟨row, (lastRow_mem h).1, (lastRow_mem h).2, lastRow_max h, rfl⟩

theorem isBalanceOn_none (h : ledger.lastRow key days = none) {balance : BalanceSnapshot}
    (hzero : ∀ layer direction, (balance.layer layer).side direction = 0) :
    IsBalanceOn (ledger.history key) (fun day => days day = true) balance :=
  Or.inr ⟨fun row hrow hdays => Bool.false_ne_true
    ((lastRow_eq_none.mp h row hrow).symm.trans hdays), hzero⟩

/-- **The version of the last row counts the rows up to it.** -/
theorem number_lastRow (hlower : ∀ a b, a ≤ b → days b = true → days a = true) :
    (ledger.lastRow key days).elim 0 EffectiveBalanceSnapshot.allTimeVersion
      = (ledger.history key).countP (fun row => days row.effective) := by
  apply (ledger.numbered key).number_argmax
  intro a _ b _ hle hb
  refine hlower _ _ ?_ hb
  rcases Prod.Lex.toLex_le_toLex.mp hle with hlt | ⟨heq, -⟩
  · exact hlt.le
  · exact heq.le

end EffectiveLedger

/-! ## Counting the rows of a window -/

/-- **The versions subtract to the number of rows in the window**, and underflow exactly when a row
lies between its end and its beginning. -/
theorem EffectiveLedger.u32Sub_counts (ledger : EffectiveLedger) (key : BalanceKey)
    (fromDay endDay : NaiveDate) :
    u32Sub ((ledger.history key).countP (fun row => row.effective ≤ endDay))
        ((ledger.history key).countP (fun row => row.effective < fromDay))
      = if ledger.NoneBetween key fromDay endDay then
          some ((ledger.history key).countP
            (fun row => fromDay ≤ row.effective ∧ row.effective ≤ endDay))
        else none := by
  rcases le_or_gt fromDay endDay with hle | hlt
  · have hsplit := countP_add_countP (l := ledger.history key)
      (p := fun row => row.effective ≤ endDay) (q := fun row => row.effective < fromDay)
      (r := fun row => decide (fromDay ≤ row.effective ∧ row.effective ≤ endDay))
      (fun row _ => by
        by_cases hday : row.effective < fromDay
        · simp [hday, (hday.trans_le hle).le]
        · simp [hday, not_lt.mp hday])
      (fun row _ h => by
        simp only [decide_eq_true_eq] at h
        exact absurd h.1 (not_lt.mpr h.2.1))
    have hnone : ledger.NoneBetween key fromDay endDay :=
      fun row _ h => absurd (h.1.trans h.2) (not_lt.mpr hle)
    rw [if_pos hnone, u32Sub, hsplit, if_pos (Nat.le_add_right _ _), Nat.add_sub_cancel_left]
  · have hsplit := countP_add_countP (l := ledger.history key)
      (p := fun row => row.effective < fromDay) (q := fun row => row.effective ≤ endDay)
      (r := fun row => decide (endDay < row.effective ∧ row.effective < fromDay))
      (fun row _ => by
        by_cases hday : row.effective ≤ endDay
        · simp [hday, hday.trans_lt hlt]
        · simp [hday, not_le.mp hday])
      (fun row _ h => by
        simp only [decide_eq_true_eq] at h
        exact absurd h.1 (not_le.mpr h.2.1))
    have hempty : (ledger.history key).countP
        (fun row => decide (fromDay ≤ row.effective ∧ row.effective ≤ endDay)) = 0 := by
      rw [List.countP_eq_zero]
      intro row _ h
      rw [decide_eq_true_eq] at h
      exact absurd (h.1.trans h.2) (not_le.mpr hlt)
    have hbetween : ledger.NoneBetween key fromDay endDay ↔ (ledger.history key).countP
        (fun row => decide (endDay < row.effective ∧ row.effective < fromDay)) = 0 := by
      rw [List.countP_eq_zero, EffectiveLedger.NoneBetween]
      simp only [decide_eq_true_eq]
    rw [hempty, u32Sub, hsplit]
    by_cases hnone : ledger.NoneBetween key fromDay endDay
    · rw [if_pos hnone, hbetween.mp hnone, Nat.add_zero, if_pos le_rfl, Nat.sub_self]
    · rw [if_neg hnone, if_neg]
      rw [hbetween] at hnone
      omega

/-! ## The bounds of one balance -/

/-- The row of one sub-query for one balance. -/
def EffectiveLedger.tagged (ledger : EffectiveLedger) (first : Bool) (days : NaiveDate → Bool)
    (key : BalanceKey) (kind : DebitOrCredit) : Option RangeRow :=
  (ledger.lastRow key days).map (fun row => ⟨first, row.values, kind, row.allTimeVersion⟩)

/-- Bounds read from at most one row of each sub-query. -/
def RangeBounds.of (opening closing : Option RangeRow) : RangeBounds :=
  { first := opening.map RangeRow.balance
    firstVersion := opening.elim 0 RangeRow.allTimeVersion
    last := closing.map RangeRow.balance
    lastVersion := closing.elim 0 RangeRow.allTimeVersion }

/-- Of the rows of one sub-query the loop keeps the last. -/
theorem RangeBounds.foldl_add (rows : List RangeRow) :
    ∀ opening closing, rows.foldl RangeBounds.add (.of opening closing)
      = .of ((rows.filter (·.first)).getLast?.or opening)
          ((rows.filter (!·.first)).getLast?.or closing) := by
  induction rows with
  | nil => exact fun _ _ => rfl
  | cons row rows ih =>
      intro opening closing
      have hlast : ∀ (l : List RangeRow) (a : RangeRow) (o : Option RangeRow),
          l.getLast?.or (some a) = ((a :: l).getLast?).or o := by
        intro l a o
        cases l with
        | nil => rfl
        | cons b l => rw [List.getLast?_cons_cons, List.getLast?_eq_some_getLast (by simp)]; rfl
      cases hrow : row.first with
      | true =>
          have hadd : (RangeBounds.of opening closing).add row = .of (some row) closing := by
            rw [RangeBounds.add, if_pos hrow]
            rfl
          rw [List.foldl_cons, hadd, ih, List.filter_cons_of_pos hrow,
            List.filter_cons_of_neg (by simp [hrow]), hlast _ _ opening]
      | false =>
          have hadd : (RangeBounds.of opening closing).add row = .of opening (some row) := by
            rw [RangeBounds.add, if_neg (by simp [hrow])]
            rfl
          rw [List.foldl_cons, hadd, ih, List.filter_cons_of_neg (by simp [hrow]),
            List.filter_cons_of_pos (by simp [hrow]), hlast _ _ closing]

/-- A list that holds one element only, however often. -/
theorem getLast?_eq_of_forall {α : Type*} {l : List α} {o : Option α}
    (h : ∀ a ∈ l, o = some a) (hne : o.isSome → l ≠ []) : l.getLast? = o := by
  cases hlast : l.getLast? with
  | some a => exact (h a (List.mem_of_getLast? hlast)).symm
  | none =>
      cases o with
      | none => rfl
      | some a => exact absurd (List.getLast?_eq_none_iff.mp hlast) (hne rfl)

namespace EffectiveLedger

variable {ledger : EffectiveLedger} {ids : List (BalanceKey × DebitOrCredit)} {key : BalanceKey}
  {kind : DebitOrCredit} {fromDay endDay : NaiveDate}

variable (ledger) in
/-- What a range read finds for one balance. -/
def boundsOf (key : BalanceKey) (kind : DebitOrCredit) (fromDay endDay : NaiveDate) : RangeBounds :=
  .of (ledger.tagged true (· < fromDay) key kind) (ledger.tagged false (· ≤ endDay) key kind)

theorem mem_rangeRows {row : RangeRow} :
    row ∈ ledger.rangeRows ids fromDay endDay ↔ ∃ id ∈ ids,
      ledger.tagged true (· < fromDay) id.1 id.2 = some row
        ∨ ledger.tagged false (· ≤ endDay) id.1 id.2 = some row := by
  simp only [rangeRows, tagged, List.mem_append, List.mem_filterMap]
  constructor
  · rintro (⟨id, hid, hrow⟩ | ⟨id, hid, hrow⟩)
    · exact ⟨id, hid, Or.inl hrow⟩
    · exact ⟨id, hid, Or.inr hrow⟩
  · rintro ⟨id, hid, hrow | hrow⟩
    · exact Or.inl ⟨id, hid, hrow⟩
    · exact Or.inr ⟨id, hid, hrow⟩

theorem tagged_spec {first : Bool} {days : NaiveDate → Bool} {row : RangeRow}
    (h : ledger.tagged first days key kind = some row) :
    row.first = first ∧ row.details.key = key := by
  obtain ⟨last, hlast, rfl⟩ := Option.map_eq_some_iff.mp h
  exact ⟨rfl, key_of_mem_history (lastRow_mem hlast).1⟩

/-- The rows of one balance fold to its bounds, in whatever order they come. -/
theorem foldl_add_eq_boundsOf {rows : List RangeRow}
    (hmem : ∀ row, row ∈ rows ↔ ledger.tagged true (· < fromDay) key kind = some row
      ∨ ledger.tagged false (· ≤ endDay) key kind = some row) :
    rows.foldl RangeBounds.add {} = ledger.boundsOf key kind fromDay endDay := by
  have hopening : (rows.filter (·.first)).getLast? = ledger.tagged true (· < fromDay) key kind := by
    apply getLast?_eq_of_forall
    · intro row hrow
      obtain ⟨hrow, hfirst⟩ := List.mem_filter.mp hrow
      rcases (hmem row).mp hrow with h | h
      · exact h
      · exact absurd ((tagged_spec h).1.symm.trans hfirst) Bool.false_ne_true
    · intro hsome
      obtain ⟨row, hrow⟩ := Option.isSome_iff_exists.mp hsome
      exact List.ne_nil_of_mem
        (List.mem_filter.mpr ⟨(hmem row).mpr (Or.inl hrow), (tagged_spec hrow).1⟩)
  have hclosing : (rows.filter (!·.first)).getLast?
      = ledger.tagged false (· ≤ endDay) key kind := by
    apply getLast?_eq_of_forall
    · intro row hrow
      obtain ⟨hrow, hfirst⟩ := List.mem_filter.mp hrow
      rcases (hmem row).mp hrow with h | h
      · rw [(tagged_spec h).1] at hfirst
        exact absurd hfirst Bool.false_ne_true
      · exact h
    · intro hsome
      obtain ⟨row, hrow⟩ := Option.isSome_iff_exists.mp hsome
      exact List.ne_nil_of_mem (List.mem_filter.mpr
        ⟨(hmem row).mpr (Or.inr hrow), by rw [(tagged_spec hrow).1]; rfl⟩)
  have hfold := RangeBounds.foldl_add rows none none
  rw [hopening, hclosing, Option.or_none, Option.or_none] at hfold
  exact hfold

variable (ledger) in
/-- Balances paired with the column their account has. -/
def Kinds (ids : List (BalanceKey × DebitOrCredit)) : Prop :=
  ∀ id ∈ ids, ledger.normalBalanceType id.1.accountId = some id.2

theorem kinds_joined (keys : List BalanceKey) : ledger.Kinds (ledger.joined keys) := by
  intro id hid
  obtain ⟨key, -, hkey⟩ := List.mem_filterMap.mp hid
  obtain ⟨kind, hkind, rfl⟩ := Option.map_eq_some_iff.mp hkey
  exact hkind

theorem mem_joined {keys : List BalanceKey} : (key, kind) ∈ ledger.joined keys
    ↔ key ∈ keys ∧ ledger.normalBalanceType key.accountId = some kind := by
  rw [joined, List.mem_filterMap]
  constructor
  · rintro ⟨key', hkey', h⟩
    obtain ⟨kind', hkind, heq⟩ := Option.map_eq_some_iff.mp h
    cases heq
    exact ⟨hkey', hkind⟩
  · exact fun ⟨hkey, hkind⟩ => ⟨key, hkey, by rw [hkind, Option.map_some]⟩

/-- Every balance with rows has an account. -/
theorem exists_kind {row : EffectiveBalanceSnapshot} (hrow : row ∈ ledger.history key) :
    ∃ kind, ledger.normalBalanceType key.accountId = some kind := by
  obtain ⟨account, haccount⟩ := Option.isSome_iff_exists.mp
    (ledger.hosted row (List.mem_of_mem_filter hrow))
  refine ⟨account.normalBalanceType, ?_⟩
  rw [← key_of_mem_history hrow]
  show (ledger.accounts row.accountId).map AccountRow.normalBalanceType = _
  rw [haccount, Option.map_some]

/-- **What a range query files under a balance**: its bounds, if the query asks for it and one of
them is there. -/
theorem lookup_collectRanges (scan : IterationOrder RangeRow) (hids : ledger.Kinds ids)
    {bounds : RangeBounds} :
    (collectRanges (scan.arrange (ledger.rangeRows ids fromDay endDay))).lookup key = some bounds
      ↔ ∃ kind, (key, kind) ∈ ids ∧ ((ledger.lastRow key (· < fromDay)).isSome
          ∨ (ledger.lastRow key (· ≤ endDay)).isSome)
        ∧ ledger.boundsOf key kind fromDay endDay = bounds := by
  have htagged : ∀ first days kind, (ledger.tagged first days key kind).isSome
      = (ledger.lastRow key days).isSome := fun first days kind => Option.isSome_map
  have hrows : ∀ row, row ∈ scan.arrange (ledger.rangeRows ids fromDay endDay)
      ∧ row.details.key = key ↔ ∃ kind, (key, kind) ∈ ids
        ∧ (ledger.tagged true (· < fromDay) key kind = some row
          ∨ ledger.tagged false (· ≤ endDay) key kind = some row) := by
    intro row
    rw [IterationOrder.mem_arrange, mem_rangeRows]
    constructor
    · rintro ⟨⟨⟨key', kind⟩, hid, hrow⟩, hkey⟩
      have hkey' : row.details.key = key' := hrow.elim (fun h => (tagged_spec h).2)
        (fun h => (tagged_spec h).2)
      obtain rfl : key' = key := hkey'.symm.trans hkey
      exact ⟨kind, hid, hrow⟩
    · rintro ⟨kind, hid, hrow⟩
      exact ⟨⟨(key, kind), hid, hrow⟩, hrow.elim (fun h => (tagged_spec h).2)
        (fun h => (tagged_spec h).2)⟩
  -- a balance comes with one column only
  have hfold : ∀ kind, (key, kind) ∈ ids →
      ((scan.arrange (ledger.rangeRows ids fromDay endDay)).filter
        (fun row => row.details.key = key)).foldl RangeBounds.add {}
          = ledger.boundsOf key kind fromDay endDay := by
    intro kind hid
    apply foldl_add_eq_boundsOf
    intro row
    rw [List.mem_filter, decide_eq_true_eq, hrows]
    constructor
    · rintro ⟨kind', hid', hrow⟩
      have hsame : some kind' = some kind := (hids _ hid').symm.trans (hids _ hid)
      cases hsame
      exact hrow
    · exact fun hrow => ⟨kind, hid, hrow⟩
  rw [collectRanges, lookup_foldl_upsert, AList.lookup_empty, Option.getD_none]
  split
  · rename_i hexists
    obtain ⟨row, hrow, hkey⟩ := hexists
    obtain ⟨kind, hid, hbound⟩ := (hrows row).mp ⟨hrow, hkey⟩
    have hsome : (ledger.lastRow key (· < fromDay)).isSome
        ∨ (ledger.lastRow key (· ≤ endDay)).isSome := by
      rw [← htagged true _ kind, ← htagged false _ kind]
      exact hbound.imp Option.isSome_of_eq_some Option.isSome_of_eq_some
    rw [hfold kind hid, Option.some.injEq]
    constructor
    · exact fun h => ⟨kind, hid, hsome, h⟩
    · rintro ⟨kind', hid', -, h⟩
      have hsame : some kind' = some kind := (hids _ hid').symm.trans (hids _ hid)
      cases hsame
      exact h
  · rename_i hnone
    refine iff_of_false nofun ?_
    rintro ⟨kind, hid, hsome, -⟩
    apply hnone
    rw [← htagged true _ kind, ← htagged false _ kind] at hsome
    rcases hsome with h | h
    · obtain ⟨row, hrow⟩ := Option.isSome_iff_exists.mp h
      exact ⟨row, (hrows row).mpr ⟨kind, hid, Or.inl hrow⟩⟩
    · obtain ⟨row, hrow⟩ := Option.isSome_iff_exists.mp h
      exact ⟨row, (hrows row).mpr ⟨kind, hid, Or.inr hrow⟩⟩

/-! ## The range of one balance -/

variable (ledger) in
/-- The range a read makes of a closing row. -/
def rangeTo (fromDay endDay : NaiveDate) (kind : DebitOrCredit) (row : EffectiveBalanceSnapshot) :
    BalanceRange :=
  BalanceRange.new
    ((ledger.lastRow row.key (· < fromDay)).map (fun start => ⟨kind, start.values⟩))
    ⟨kind, row.values⟩
    ((ledger.history row.key).countP
      (fun row => fromDay ≤ row.effective ∧ row.effective ≤ endDay))

/-- The versions of the bounds are the counts of rows. -/
theorem boundsOf_versions :
    (ledger.boundsOf key kind fromDay endDay).firstVersion
        = (ledger.history key).countP (fun row => row.effective < fromDay)
      ∧ (ledger.boundsOf key kind fromDay endDay).lastVersion
        = (ledger.history key).countP (fun row => row.effective ≤ endDay) := by
  have htagged : ∀ first days, (ledger.tagged first days key kind).elim 0 RangeRow.allTimeVersion
      = (ledger.lastRow key days).elim 0 EffectiveBalanceSnapshot.allTimeVersion := by
    intro first days
    rw [tagged]
    cases ledger.lastRow key days <;> rfl
  constructor
  · show (ledger.tagged true (· < fromDay) key kind).elim 0 RangeRow.allTimeVersion = _
    rw [htagged, number_lastRow]
    exact fun a b hab hb => decide_eq_true (lt_of_le_of_lt hab (of_decide_eq_true hb))
  · show (ledger.tagged false (· ≤ endDay) key kind).elim 0 RangeRow.allTimeVersion = _
    rw [htagged, number_lastRow]
    exact fun a b hab hb => decide_eq_true (le_trans hab (of_decide_eq_true hb))

theorem boundsOf_first : (ledger.boundsOf key kind fromDay endDay).first
    = (ledger.lastRow key (· < fromDay)).map (fun row => ⟨kind, row.values⟩) :=
  Option.map_map _ _ _

theorem boundsOf_last : (ledger.boundsOf key kind fromDay endDay).last
    = (ledger.lastRow key (· ≤ endDay)).map (fun row => ⟨kind, row.values⟩) :=
  Option.map_map _ _ _

/-- The bounds of a balance make its range, none without a closing row, and an underflow where a row
lies between. -/
theorem fromBounds_boundsOf : BalanceRange.fromBounds (ledger.boundsOf key kind fromDay endDay)
    = match ledger.lastRow key (· ≤ endDay) with
      | none => some none
      | some row =>
          if ledger.NoneBetween key fromDay endDay then
            some (some (ledger.rangeTo fromDay endDay kind row))
          else none := by
  rw [BalanceRange.fromBounds, boundsOf_last, boundsOf_first, boundsOf_versions.1,
    boundsOf_versions.2, u32Sub_counts]
  cases hlast : ledger.lastRow key (· ≤ endDay) with
  | none => rfl
  | some row =>
      have hkey : row.key = key := key_of_mem_history (lastRow_mem hlast).1
      dsimp only [Option.map_some]
      split
      · rw [Option.map_some, rangeTo, hkey]
      · rfl

/-- **The range is exact.** -/
theorem isRange_rangeTo {row : EffectiveBalanceSnapshot}
    (hlast : ledger.lastRow key (· ≤ endDay) = some row)
    (hkind : ledger.normalBalanceType key.accountId = some kind) :
    IsRange ledger key fromDay endDay (ledger.rangeTo fromDay endDay kind row) := by
  have hkey : row.key = key := key_of_mem_history (lastRow_mem hlast).1
  have hclose : IsBalanceOn (ledger.history key) (· ≤ endDay) row.values := by
    simpa only [decide_eq_true_eq] using isBalanceOn_lastRow hlast
  rw [rangeTo, hkey]
  cases hfirst : ledger.lastRow key (· < fromDay) with
  | some start =>
      have hopening : IsBalanceOn (ledger.history key) (· < fromDay) start.values := by
        simpa only [decide_eq_true_eq] using isBalanceOn_lastRow hfirst
      refine ⟨hkey, hopening, hclose, fun layer direction => ?_, rfl, hkind, rfl, rfl⟩
      cases layer <;> cases direction <;> rfl
  | none =>
      have hzero : ∀ layer direction, (((BalanceRange.zeroOpening ⟨kind, row.values⟩).details.layer
          layer).side direction) = 0 := by
        intro layer direction
        cases layer <;> cases direction <;> rfl
      have hopening : IsBalanceOn (ledger.history key) (· < fromDay)
          (BalanceRange.zeroOpening ⟨kind, row.values⟩).details := by
        simpa only [decide_eq_true_eq] using isBalanceOn_none hfirst hzero
      refine ⟨hkey, hopening, hclose, fun layer direction => ?_, rfl, hkind, rfl, rfl⟩
      show (row.values.layer layer).side direction = (row.values.layer layer).side direction
        - ((BalanceRange.zeroOpening ⟨kind, row.values⟩).details.layer layer).side direction
      rw [hzero, Foundations.RoundedDecimal.sub_zero]

/-- A range a read could give needs a closing row. -/
theorem covered_iff : ledger.Covered key fromDay endDay
    ↔ (ledger.lastRow key (· ≤ endDay)).isSome ∧ ledger.NoneBetween key fromDay endDay := by
  rw [Covered, lastRow_isSome]
  simp only [decide_eq_true_eq]

end EffectiveLedger

end CalaLedger
