import CalaLedger.Foundations.StableSort
import Mathlib.Algebra.BigOperators.Group.List.Basic

/-! # Running totals with insertions in the past

A list of running totals, each filed under a key, in the order of the keys. New amounts of one key go
behind the totals up to the key, each added to the total before it; every later total is shifted by
the sum of the new amounts (`insertTotals`). The additions may round. Where none does, the totals are
those of all amounts so far in the order of their keys (`ExactWhere.insertTotals`), so it does not
matter how the amounts of a key were split over insertions (`ExactWhere.insertAll_congr`). -/

namespace Foundations

variable {κ α M : Type*}

section Totals

variable [Add α]

/-- Amounts added to a total one after the other, with every total on the way. -/
def runningTotals (total : α) : List α → List α
  | [] => []
  | amount :: amounts => (total + amount) :: runningTotals (total + amount) amounts

variable [Zero α]

/-- The last of some totals; zero when there is none. -/
def lastTotal (rows : List (κ × α)) : α := (rows.getLast?.map Prod.snd).getD 0

variable [LinearOrder κ]

/-- Totals with amounts of one key put in. -/
def insertTotals (rows : List (κ × α)) (key : κ) (amounts : List α) : List (κ × α) :=
  rows.filter (fun row => row.1 ≤ key)
    ++ (runningTotals (lastTotal (rows.filter (fun row => row.1 ≤ key))) amounts).map
      (fun total => (key, total))
    ++ (rows.filter (fun row => key < row.1)).map
      (fun row => (row.1, row.2 + amounts.foldl (· + ·) 0))

/-- Amounts of several keys, put in one key after the other. -/
def insertAll (rows : List (κ × α)) (insertions : List (κ × List α)) : List (κ × α) :=
  insertions.foldl (fun rows insertion => insertTotals rows insertion.1 insertion.2) rows

theorem insertAll_append (rows : List (κ × α)) (front back : List (κ × List α)) :
    insertAll rows (front ++ back) = insertAll (insertAll rows front) back :=
  List.foldl_append

end Totals

/-- No amounts change nothing. -/
theorem insertTotals_nil [LinearOrder κ] [AddZeroClass α] {rows : List (κ × α)}
    (hsorted : SortedBy Prod.fst rows) (key : κ) : insertTotals rows key [] = rows := by
  simp only [insertTotals, runningTotals, List.map_nil, List.append_nil, List.foldl_nil, add_zero,
    Prod.mk.eta, List.map_id']
  exact (hsorted.split key).symm

section Exact

variable [AddCommMonoid M]

/-- The running totals of amounts filed under keys. -/
def cumulated (total : M) : List (κ × M) → List (κ × M)
  | [] => []
  | item :: items => (item.1, total + item.2) :: cumulated (total + item.2) items

theorem cumulated_append (total : M) (front back : List (κ × M)) :
    cumulated total (front ++ back)
      = cumulated total front ++ cumulated (total + (front.map Prod.snd).sum) back := by
  induction front generalizing total with
  | nil => simp [cumulated]
  | cons item front ih =>
      rw [List.cons_append, cumulated, ih, cumulated, List.cons_append, List.map_cons, List.sum_cons,
        add_assoc]

/-- Starting from more shifts every total. -/
theorem cumulated_add (total amount : M) (items : List (κ × M)) :
    cumulated (total + amount) items
      = (cumulated total items).map (fun row => (row.1, row.2 + amount)) := by
  induction items generalizing total with
  | nil => rfl
  | cons item items ih =>
      rw [cumulated, cumulated, List.map_cons, ← ih, add_right_comm]

theorem map_fst_cumulated (total : M) (items : List (κ × M)) :
    (cumulated total items).map Prod.fst = items.map Prod.fst := by
  induction items generalizing total with
  | nil => rfl
  | cons item items ih => rw [cumulated, List.map_cons, ih, List.map_cons]

/-- The last running total is the sum. -/
theorem getLast?_cumulated (total : M) (items : List (κ × M)) :
    (((cumulated total items).getLast?).map Prod.snd).getD total
      = total + (items.map Prod.snd).sum := by
  induction items using List.reverseRecOn with
  | nil => simp [cumulated]
  | append_singleton items item ih =>
      rw [cumulated_append, cumulated, cumulated, List.getLast?_concat]
      simp [add_assoc]

/-- Every running total is the sum of the first few amounts. -/
theorem mem_cumulated {total : M} {items : List (κ × M)} {row : κ × M}
    (h : row ∈ cumulated total items) :
    ∃ front, front <+: items ∧ row.2 = total + (front.map Prod.snd).sum := by
  induction items generalizing total with
  | nil => cases h
  | cons item items ih =>
      rcases List.mem_cons.mp h with rfl | h
      · exact ⟨[item], ⟨items, rfl⟩, by simp⟩
      · obtain ⟨front, ⟨back, hfront⟩, hrow⟩ := ih h
        refine ⟨item :: front, ⟨back, by rw [List.cons_append, hfront]⟩, ?_⟩
        rw [hrow, List.map_cons, List.sum_cons, add_assoc]

/-- Keeping the keys of a kind that comes first keeps the first totals. -/
theorem filter_cumulated {total : M} {items : List (κ × M)} {p : κ → Bool} {b : Bool}
    (h : ∀ item ∈ items, p item.1 = b) :
    (cumulated total items).filter (fun row => p row.1) = if b then cumulated total items else [] := by
  have hrow : ∀ row ∈ cumulated total items, p row.1 = b := by
    intro row hrow
    have hmem : row.1 ∈ (cumulated total items).map Prod.fst := List.mem_map_of_mem hrow
    rw [map_fst_cumulated] at hmem
    obtain ⟨item, hitem, hkey⟩ := List.mem_map.mp hmem
    rw [← hkey, h item hitem]
  cases b with
  | true => exact List.filter_eq_self.mpr hrow
  | false => exact List.filter_eq_nil_iff.mpr (fun row hmem => by simp [hrow row hmem])

variable [Add α] [Zero α] {value : α → M} {fits : M → Prop}

/-- A value of which additions are exact where their results fit. -/
structure ExactWhere (value : α → M) (fits : M → Prop) : Prop where
  zero : value 0 = 0
  add : ∀ a b, fits (value a + value b) → value (a + b) = value a + value b

/-- Sums that fit are exact. -/
theorem ExactWhere.foldl (h : ExactWhere value fits) {total : α} {amounts : List α}
    (hfits : ∀ front, front <+: amounts → fits (value total + (front.map value).sum)) :
    value (amounts.foldl (· + ·) total) = value total + (amounts.map value).sum := by
  induction amounts generalizing total with
  | nil => simp
  | cons amount amounts ih =>
      have hfirst := h.add total amount (by simpa using hfits [amount] ⟨amounts, rfl⟩)
      rw [List.foldl_cons, ih, hfirst, List.map_cons, List.sum_cons, add_assoc]
      intro front hfront
      have hmore := hfits (amount :: front) (List.cons_prefix_cons.mpr ⟨rfl, hfront⟩)
      rwa [hfirst, add_assoc, ← List.sum_cons, ← List.map_cons]

/-- Running totals that fit are exact. -/
theorem ExactWhere.runningTotals (h : ExactWhere value fits) (key : κ) {total : α} {amounts : List α}
    (hfits : ∀ front, front <+: amounts → fits (value total + (front.map value).sum)) :
    (runningTotals total amounts).map (fun total => (key, value total))
      = cumulated (value total) (amounts.map (fun amount => (key, value amount))) := by
  induction amounts generalizing total with
  | nil => rfl
  | cons amount amounts ih =>
      have hfirst := h.add total amount (by simpa using hfits [amount] ⟨amounts, rfl⟩)
      rw [Foundations.runningTotals, List.map_cons, List.map_cons, cumulated, ih, hfirst]
      intro front hfront
      have hmore := hfits (amount :: front) (List.cons_prefix_cons.mpr ⟨rfl, hfront⟩)
      rwa [hfirst, add_assoc, ← List.sum_cons, ← List.map_cons]

variable (value fits) in
/-- Amounts fit on rows if every sum of some of them does, on top of any total or of none. -/
def RoomFor (rows : List (κ × α)) (amounts : List α) : Prop :=
  ∀ total, total = 0 ∨ (∃ row ∈ rows, value row.2 = total) →
    ∀ chosen : List α, chosen.Subperm amounts → fits (total + (chosen.map value).sum)

omit [Add α] [Zero α] in
theorem RoomFor.subperm {rows : List (κ × α)} {amounts amounts' : List α}
    (h : RoomFor value fits rows amounts') (hsub : amounts.Subperm amounts') :
    RoomFor value fits rows amounts :=
  fun total htotal chosen hchosen => h total htotal chosen (hchosen.trans hsub)

/-- The sum that later totals are shifted by. -/
theorem ExactWhere.shift (h : ExactWhere value fits) {rows : List (κ × α)} {amounts : List α}
    (hroom : RoomFor value fits rows amounts) :
    value (amounts.foldl (· + ·) 0) = (amounts.map value).sum := by
  rw [h.foldl (fun front hfront => hroom _ (Or.inl h.zero) front hfront.sublist.subperm), h.zero,
    zero_add]

variable [LinearOrder κ]

/-- The totals up to a key are those of the amounts up to it. -/
theorem cumulated_upTo {items : List (κ × M)} (hsorted : SortedBy Prod.fst items) (key : κ) :
    (cumulated 0 items).filter (fun row => row.1 ≤ key)
      = cumulated 0 (items.filter (fun item => item.1 ≤ key)) := by
  conv_lhs => rw [hsorted.split key]
  rw [cumulated_append, List.filter_append,
    filter_cumulated (p := fun k => decide (k ≤ key)) (b := true) (fun item hitem => by
      simpa using (List.mem_filter.mp hitem).2),
    filter_cumulated (p := fun k => decide (k ≤ key)) (b := false) (fun item hitem => by
      simpa using (List.mem_filter.mp hitem).2)]
  exact List.append_nil _

/-- The later totals continue from there. -/
theorem cumulated_after {items : List (κ × M)} (hsorted : SortedBy Prod.fst items) (key : κ) :
    (cumulated 0 items).filter (fun row => key < row.1)
      = cumulated (((items.filter (fun item => item.1 ≤ key)).map Prod.snd).sum)
          (items.filter (fun item => key < item.1)) := by
  conv_lhs => rw [hsorted.split key]
  rw [cumulated_append, List.filter_append, zero_add,
    filter_cumulated (p := fun k => decide (key < k)) (b := false) (fun item hitem => by
      simpa using (List.mem_filter.mp hitem).2),
    filter_cumulated (p := fun k => decide (key < k)) (b := true) (fun item hitem => by
      simpa using (List.mem_filter.mp hitem).2)]
  exact List.nil_append _

/-- The total that new amounts of a key are added to. -/
theorem ExactWhere.lastTotal_filter (h : ExactWhere value fits) (rows : List (κ × α)) (key : κ) :
    value (lastTotal (rows.filter (fun row => row.1 ≤ key))) = 0
      ∨ ∃ row ∈ rows, value row.2 = value (lastTotal (rows.filter (fun row => row.1 ≤ key))) := by
  unfold lastTotal
  cases hget : (rows.filter (fun row => row.1 ≤ key)).getLast? with
  | none => exact Or.inl h.zero
  | some row => exact Or.inr ⟨row, (List.mem_filter.mp (List.mem_of_getLast? hget)).1, rfl⟩

/-- **An insertion is exact where its sums fit**: the totals are those of the amounts so far and the
new ones, by key. -/
theorem ExactWhere.insertTotals (h : ExactWhere value fits) {rows : List (κ × α)}
    {items : List (κ × M)} (hsorted : SortedBy Prod.fst items)
    (hrows : rows.map (fun row => (row.1, value row.2)) = cumulated 0 items) (key : κ)
    {amounts : List α} (hroom : RoomFor value fits rows amounts) :
    (insertTotals rows key amounts).map (fun row => (row.1, value row.2))
      = cumulated 0 (sortBy Prod.fst
          (items ++ amounts.map (fun amount => (key, value amount)))) := by
  set low := items.filter (fun item => item.1 ≤ key) with hlow
  set high := items.filter (fun item => key < item.1) with hhigh
  -- the rows up to the key, and the later ones
  have hkept : (rows.filter (fun row => row.1 ≤ key)).map (fun row => (row.1, value row.2))
      = cumulated 0 low := by
    rw [hlow, ← cumulated_upTo hsorted, ← hrows, List.filter_map]
    rfl
  have hlater : (rows.filter (fun row => key < row.1)).map (fun row => (row.1, value row.2))
      = cumulated ((low.map Prod.snd).sum) high := by
    rw [hlow, hhigh, ← cumulated_after hsorted, ← hrows, List.filter_map]
    rfl
  have hlast : value (lastTotal (rows.filter (fun row => row.1 ≤ key)))
      = (low.map Prod.snd).sum := by
    have htotal := getLast?_cumulated 0 low
    rw [← hkept, List.getLast?_map, zero_add, Option.map_map] at htotal
    rw [← htotal, lastTotal]
    cases (rows.filter (fun row => row.1 ≤ key)).getLast? with
    | none => exact h.zero
    | some row => rfl
  have hnew := h.runningTotals key (fun front hfront =>
    hroom _ (h.lastTotal_filter rows key) front hfront.sublist.subperm)
  have hdiff := h.shift hroom
  have hshift : ((rows.filter (fun row => key < row.1)).map
        (fun row => (row.1, row.2 + amounts.foldl (· + ·) 0))).map (fun row => (row.1, value row.2))
      = cumulated ((low.map Prod.snd).sum + (amounts.map value).sum) high := by
    rw [cumulated_add, ← hlater, List.map_map, List.map_map]
    refine List.map_congr_left (fun row hrow => ?_)
    have hsum := h.add row.2 (amounts.foldl (· + ·) 0) (by
      rw [hdiff]
      exact hroom _ (Or.inr ⟨row, (List.mem_filter.mp hrow).1, rfl⟩) amounts (List.Subperm.refl _))
    exact Prod.ext rfl (hsum.trans (congrArg (value row.2 + ·) hdiff))
  have hinserted : sortBy Prod.fst (items ++ amounts.map (fun amount => (key, value amount)))
      = low ++ amounts.map (fun amount => (key, value amount)) ++ high := by
    rw [sortBy_append_block (k := key), sortBy_eq_self.mpr hsorted]
    intro item hitem
    obtain ⟨amount, -, rfl⟩ := List.mem_map.mp hitem
    rfl
  have hsecond : (amounts.map (fun amount => (key, value amount))).map Prod.snd
      = amounts.map value := by rw [List.map_map]; rfl
  rw [hinserted, Foundations.insertTotals, List.map_append, List.map_append, List.map_map, hkept,
    hshift, cumulated_append, cumulated_append, List.map_append, List.sum_append, hsecond, zero_add,
    zero_add, ← hlast, ← hnew]
  rfl

/-- A total after an insertion is one from before, with some of the amounts. -/
theorem ExactWhere.mem_insertTotals (h : ExactWhere value fits) {rows : List (κ × α)} {key : κ}
    {amounts : List α} (hroom : RoomFor value fits rows amounts) {row : κ × α}
    (hrow : row ∈ Foundations.insertTotals rows key amounts) :
    ∃ total, (total = 0 ∨ ∃ row ∈ rows, value row.2 = total)
      ∧ ∃ chosen : List α, chosen.Sublist amounts
        ∧ value row.2 = total + (chosen.map value).sum := by
  unfold Foundations.insertTotals at hrow
  rw [List.mem_append, List.mem_append] at hrow
  rcases hrow with (hkept | hnew) | hlater
  · exact ⟨_, Or.inr ⟨row, (List.mem_filter.mp hkept).1, rfl⟩, [], List.nil_sublist _, by simp⟩
  · obtain ⟨total, htotal, rfl⟩ := List.mem_map.mp hnew
    have hexact := h.runningTotals key (fun front hfront =>
      hroom _ (h.lastTotal_filter rows key) front hfront.sublist.subperm)
    have hmem : (key, value total) ∈ (Foundations.runningTotals
        (lastTotal (rows.filter (fun row => row.1 ≤ key))) amounts).map
          (fun total => (key, value total)) := List.mem_map_of_mem htotal
    rw [hexact] at hmem
    obtain ⟨front, ⟨back, hfront⟩, hsum⟩ := mem_cumulated hmem
    obtain ⟨first, last, rfl, rfl, -⟩ := List.map_eq_append_iff.mp hfront.symm
    refine ⟨_, h.lastTotal_filter rows key, first, List.sublist_append_left _ _, ?_⟩
    rw [List.map_map] at hsum
    exact hsum
  · obtain ⟨old, hold, rfl⟩ := List.mem_map.mp hlater
    have hmem := (List.mem_filter.mp hold).1
    refine ⟨_, Or.inr ⟨old, hmem, rfl⟩, amounts, List.Sublist.refl _, ?_⟩
    rw [← h.shift hroom]
    refine h.add _ _ ?_
    rw [h.shift hroom]
    exact hroom _ (Or.inr ⟨old, hmem, rfl⟩) amounts (List.Subperm.refl _)

/-- Room for more is left by the first amounts. -/
theorem ExactWhere.room (h : ExactWhere value fits) {rows : List (κ × α)} {key : κ}
    {amounts more : List α} (hroom : RoomFor value fits rows (amounts ++ more)) :
    RoomFor value fits (Foundations.insertTotals rows key amounts) more := by
  have hfirst := hroom.subperm (List.sublist_append_left amounts more).subperm
  rintro total htotal chosen hchosen
  obtain ⟨old, hold, front, hfront, rfl⟩ : ∃ old, (old = 0 ∨ ∃ row ∈ rows, value row.2 = old)
      ∧ ∃ front : List α, front.Sublist amounts ∧ total = old + (front.map value).sum := by
    rcases htotal with rfl | ⟨row, hrow, rfl⟩
    · exact ⟨0, Or.inl rfl, [], List.nil_sublist _, by simp⟩
    · exact h.mem_insertTotals hfirst hrow
  rw [add_assoc, ← List.sum_append, ← List.map_append]
  refine hroom old hold _ ?_
  obtain ⟨kept, hperm, hkept⟩ := hchosen
  exact ⟨front ++ kept, hperm.append_left front, hfront.append hkept⟩

/-- **Many insertions are exact where their sums fit.** -/
theorem ExactWhere.insertAll (h : ExactWhere value fits) (insertions : List (κ × List α)) :
    ∀ {rows : List (κ × α)} {items : List (κ × M)}, SortedBy Prod.fst items →
      rows.map (fun row => (row.1, value row.2)) = cumulated 0 items →
      RoomFor value fits rows (insertions.flatMap Prod.snd) →
      (Foundations.insertAll rows insertions).map (fun row => (row.1, value row.2))
        = cumulated 0 (sortBy Prod.fst (items ++ insertions.flatMap (fun insertion =>
            insertion.2.map (fun amount => (insertion.1, value amount))))) := by
  induction insertions with
  | nil =>
      intro rows items hsorted hrows _
      rw [List.flatMap_nil, List.append_nil, sortBy_eq_self.mpr hsorted]
      exact hrows
  | cons insertion insertions ih =>
      intro rows items hsorted hrows hroom
      rw [List.flatMap_cons] at hroom
      have hfirst := h.insertTotals hsorted hrows insertion.1
        (hroom.subperm (List.sublist_append_left _ _).subperm)
      refine (ih (sortBy_sorted _ _) hfirst (h.room hroom)).trans ?_
      rw [sortBy_append_sortBy, List.flatMap_cons, List.append_assoc]

end Exact

section Group

variable [AddCommGroup M] [LinearOrder κ] [Add α] [Zero α] {value : α → M} {fits : M → Prop}

omit [LinearOrder κ] in
/-- Any totals are the running totals of their differences. -/
theorem exists_cumulated (total : M) (rows : List (κ × M)) :
    ∃ items, cumulated total items = rows := by
  induction rows generalizing total with
  | nil => exact ⟨[], rfl⟩
  | cons row rows ih =>
      obtain ⟨items, hitems⟩ := ih row.2
      exact ⟨(row.1, row.2 - total) :: items, by rw [cumulated, add_sub_cancel, hitems]⟩

/-- **How the amounts of a key are split over insertions does not matter** where their sums fit. -/
theorem ExactWhere.insertAll_congr (h : ExactWhere value fits) (hvalue : Function.Injective value)
    {rows : List (κ × α)} (hsorted : SortedBy Prod.fst rows) {front back : List (κ × List α)}
    (hsame : ∀ key,
      (front.flatMap (fun insertion => insertion.2.map (fun amount => (insertion.1, amount)))).filter
          (fun item => item.1 = key)
        = (back.flatMap (fun insertion => insertion.2.map (fun amount =>
            (insertion.1, amount)))).filter (fun item => item.1 = key))
    (hfront : RoomFor value fits rows (front.flatMap Prod.snd))
    (hback : RoomFor value fits rows (back.flatMap Prod.snd)) :
    Foundations.insertAll rows front = Foundations.insertAll rows back := by
  obtain ⟨items, hitems⟩ := exists_cumulated 0 (rows.map (fun row => (row.1, value row.2)))
  have hkeys : SortedBy Prod.fst items := by
    have hfst := map_fst_cumulated 0 items
    rw [hitems, List.map_map] at hfst
    rw [SortedBy, ← List.pairwise_map (f := Prod.fst) (R := (· ≤ ·))] at hsorted ⊢
    rw [← hfst]
    exact hsorted
  have hvalues : ∀ insertions : List (κ × List α), insertions.flatMap (fun insertion =>
        insertion.2.map (fun amount => (insertion.1, value amount)))
      = (insertions.flatMap (fun insertion => insertion.2.map (fun amount =>
          (insertion.1, amount)))).map (fun item => (item.1, value item.2)) := by
    intro insertions
    rw [List.map_flatMap]
    refine List.flatMap_congr (fun insertion _ => ?_)
    rw [List.map_map]
    rfl
  have hmap : (Foundations.insertAll rows front).map (fun row => (row.1, value row.2))
      = (Foundations.insertAll rows back).map (fun row => (row.1, value row.2)) := by
    rw [h.insertAll front hkeys hitems.symm hfront, h.insertAll back hkeys hitems.symm hback]
    refine congrArg (cumulated 0) (sortBy_eq_iff.mpr ⟨sortBy_sorted _ _, fun key => ?_⟩)
    rw [filter_sortBy, List.filter_append, List.filter_append, hvalues, hvalues, List.filter_map,
      List.filter_map]
    exact congrArg (_ ++ ·) (congrArg (List.map _) (hsame key).symm)
  refine List.map_injective_iff.mpr (fun a b hab => ?_) hmap
  obtain ⟨hkey, hab⟩ := Prod.mk.inj hab
  exact Prod.ext hkey (hvalue hab)

end Group

end Foundations
