import CalaLedger.Foundations.StableSort
import Mathlib.Data.Finset.Sort
import Mathlib.Data.List.MinMax

/-! # Keyset pagination

`SELECT DISTINCT ON (key) ... ORDER BY key, rank DESC` as `distinctOn`, and the pages of a query
whose cursor is the key of the last row seen. Pages taken one after the other, of whatever sizes,
are the whole query (`Listed.eq`), and every page size comes to an end (`exists_listed`). -/

namespace Foundations

variable {α κ ρ : Type*} [LinearOrder κ] [LinearOrder ρ]

/-- One row for each key, in ascending order: the one of greatest rank. -/
def distinctOn (key : α → κ) (rank : α → ρ) (rows : List α) : List α :=
  ((rows.map key).toFinset.sort (· ≤ ·)).filterMap
    (fun k => (rows.filter (fun row => key row = k)).argmax rank)

section DistinctOn

variable {key : α → κ} {rank : α → ρ} {rows : List α}

theorem mem_distinctOn {row : α} :
    row ∈ distinctOn key rank rows
      ↔ row ∈ (rows.filter (fun other => key other = key row)).argmax rank := by
  rw [distinctOn, List.mem_filterMap]
  constructor
  · rintro ⟨k, -, hrow⟩
    have hkey : key row = k := by simpa using (List.mem_filter.mp (List.argmax_mem hrow)).2
    rw [hkey]
    exact hrow
  · intro hrow
    refine ⟨key row, ?_, hrow⟩
    rw [Finset.mem_sort, List.mem_toFinset]
    exact List.mem_map_of_mem (List.mem_filter.mp (List.argmax_mem hrow)).1

variable (key rank rows) in
theorem distinctOn_ascending :
    (distinctOn key rank rows).Pairwise (fun a b => key a < key b) := by
  have hkey : ∀ {k : κ} {row : α},
      row ∈ (rows.filter (fun other => key other = k)).argmax rank → key row = k :=
    fun hrow => by simpa using (List.mem_filter.mp (List.argmax_mem hrow)).2
  refine List.Pairwise.filterMap _ (fun k k' hlt row hrow row' hrow' => ?_)
    (Finset.sortedLT_sort _).pairwise
  rw [hkey hrow, hkey hrow']
  exact hlt

/-- Rows in ascending order are determined by which they are. -/
theorem ascending_ext {l l' : List α} (hl : l.Pairwise (fun a b => key a < key b))
    (hl' : l'.Pairwise (fun a b => key a < key b)) (hmem : ∀ row, row ∈ l ↔ row ∈ l') :
    l = l' := by
  have hnodup : ∀ {l : List α}, l.Pairwise (fun a b => key a < key b) → l.Nodup :=
    fun h => h.imp (fun hlt heq => absurd (congrArg key heq) hlt.ne)
  exact ((List.perm_ext_iff_of_nodup (hnodup hl) (hnodup hl')).mpr hmem).eq_of_pairwise
    (fun a b _ _ hab hba => absurd hab hba.asymm) hl hl'

/-- Restricting to some keys before or after choosing the rows is the same. -/
theorem distinctOn_filter (p : κ → Bool) :
    distinctOn key rank (rows.filter (fun row => p (key row)))
      = (distinctOn key rank rows).filter (fun row => p (key row)) := by
  refine ascending_ext (distinctOn_ascending key rank _)
    ((distinctOn_ascending key rank rows).filter _) (fun row => ?_)
  rw [List.mem_filter, mem_distinctOn, mem_distinctOn, List.filter_filter]
  by_cases hrow : p (key row)
  · have hsame : rows.filter (fun other => decide (key other = key row) && p (key other))
        = rows.filter (fun other => key other = key row) := by
      refine List.filter_congr (fun other _ => ?_)
      by_cases hother : key other = key row
      · rw [hother, hrow, Bool.and_true]
      · simp [hother]
    rw [hsame]
    exact (and_iff_left hrow).symm
  · have hnone : rows.filter (fun other => decide (key other = key row) && p (key other)) = [] := by
      rw [List.filter_eq_nil_iff]
      intro other _ hother
      rw [Bool.and_eq_true, decide_eq_true_eq] at hother
      exact hrow (hother.1 ▸ hother.2)
    rw [hnone, List.argmax_nil]
    exact iff_of_false (Option.not_mem_none row) (fun h => hrow h.2)

/-- What is chosen under one key. -/
theorem distinctOn_filter_key (k : κ) :
    (distinctOn key rank rows).filter (fun row => key row = k)
      = ((rows.filter (fun row => key row = k)).argmax rank).toList := by
  have hkey : ∀ {row : α}, row ∈ (rows.filter (fun other => key other = k)).argmax rank →
      key row = k :=
    fun hrow => by simpa using (List.mem_filter.mp (List.argmax_mem hrow)).2
  refine ascending_ext ((distinctOn_ascending key rank rows).filter _) ?_ (fun row => ?_)
  · cases (rows.filter (fun row => key row = k)).argmax rank with
    | none => exact List.Pairwise.nil
    | some row => exact List.pairwise_singleton _ _
  · rw [List.mem_filter, mem_distinctOn, decide_eq_true_eq, Option.mem_toList]
    constructor
    · rintro ⟨hrow, rfl⟩
      exact hrow
    · intro hrow
      rw [hkey hrow]
      exact ⟨hrow, rfl⟩

end DistinctOn

/-! ## Pages -/

/-- One page of a listing. -/
structure Page (α κ : Type*) where
  entities : List α
  hasNextPage : Bool
  endCursor : Option κ

/-- The page of the rows after a cursor: one row more than wanted is fetched, to tell whether there
is a next page. -/
def pageOf (key : α → κ) (rows : List α) (first : ℕ) : Page α κ :=
  let fetched := rows.take (first + 1)
  { entities := fetched.take first
    hasNextPage := first < fetched.length
    endCursor := (fetched.take first).getLast?.map key }

/-- A key past a cursor; no cursor starts at the beginning. -/
def past (after : Option κ) (k : κ) : Bool := after.all (fun cursor => cursor < k)

/-- A listing read to its end: pages of positive sizes, each from the cursor of the one before. -/
inductive Listed (page : ℕ → Option κ → Page α κ) : Option κ → List α → Prop
  | last {after : Option κ} (first : ℕ) (hfirst : 0 < first)
      (hlast : (page first after).hasNextPage = false) :
      Listed page after (page first after).entities
  | next {after : Option κ} {rest : List α} (first : ℕ) (hfirst : 0 < first)
      (hnext : (page first after).hasNextPage = true)
      (hrest : Listed page (page first after).endCursor rest) :
      Listed page after ((page first after).entities ++ rest)

/-- A listing read to its end by pages of one size, each from the cursor of the one before. -/
inductive ReadBy (page : Option κ → Page α κ) : Option κ → List α → Prop
  | last {after : Option κ} (hlast : (page after).hasNextPage = false) :
      ReadBy page after (page after).entities
  | next {after : Option κ} {rest : List α} (hnext : (page after).hasNextPage = true)
      (hrest : ReadBy page (page after).endCursor rest) :
      ReadBy page after ((page after).entities ++ rest)

section Pages

variable {key : α → κ} {rows : List α} {first : ℕ}

omit [LinearOrder κ] in
theorem pageOf_hasNextPage : (pageOf key rows first).hasNextPage = true ↔ first < rows.length := by
  rw [pageOf, decide_eq_true_eq, List.length_take]
  omega

omit [LinearOrder κ] in
theorem pageOf_entities : (pageOf key rows first).entities = rows.take first := by
  rw [pageOf, List.take_take, min_eq_left (Nat.le_succ first)]

/-- A page with a next one ends at a row, and the rest of the rows are those past it. -/
theorem pageOf_next (hrows : rows.Pairwise (fun a b => key a < key b)) (hfirst : 0 < first)
    (hnext : (pageOf key rows first).hasNextPage = true) :
    ∃ row ∈ rows, (pageOf key rows first).endCursor = some (key row)
      ∧ rows.drop first = rows.filter (fun other => key row < key other) := by
  have hlength := pageOf_hasNextPage.mp hnext
  have hne : rows.take first ≠ [] := by
    rw [Ne, List.take_eq_nil_iff]
    rintro (rfl | rfl)
    · exact lt_irrefl _ hfirst
    · exact Nat.not_lt_zero _ hlength
  set row := (rows.take first).getLast hne with hrow
  refine ⟨row, List.mem_of_mem_take (List.getLast_mem hne), ?_, ?_⟩
  · show ((rows.take (first + 1)).take first).getLast?.map key = some (key row)
    rw [List.take_take, min_eq_left (Nat.le_succ first), List.getLast?_eq_some_getLast hne,
      Option.map_some]
  · have hsplit : rows = (rows.take first).dropLast ++ row :: rows.drop first := by
      calc rows = rows.take first ++ rows.drop first := (List.take_append_drop first rows).symm
        _ = ((rows.take first).dropLast ++ [row]) ++ rows.drop first := by
          rw [hrow, List.dropLast_append_getLast]
        _ = _ := by rw [List.append_assoc, List.singleton_append]
    rw [hsplit, List.pairwise_append, List.pairwise_cons] at hrows
    obtain ⟨-, ⟨hafter, -⟩, hbefore⟩ := hrows
    conv_rhs => rw [hsplit]
    have hfront : (rows.take first).dropLast.filter (fun other => key row < key other) = [] := by
      rw [List.filter_eq_nil_iff]
      intro other hother
      simpa using (hbefore other hother row List.mem_cons_self).le
    have hback : (rows.drop first).filter (fun other => key row < key other) = rows.drop first :=
      List.filter_eq_self.mpr (fun other hother => by simpa using hafter other hother)
    rw [List.filter_append, hfront, List.filter_cons_of_neg (by simp), hback, List.nil_append]

variable {page : ℕ → Option κ → Page α κ} {all : List α}

omit [LinearOrder κ] in
theorem ReadBy.listed (hfirst : 0 < first) {after : Option κ} {out : List α}
    (h : ReadBy (page first) after out) : Listed page after out := by
  induction h with
  | last hlast => exact Listed.last first hfirst hlast
  | next hnext _ ih => exact Listed.next first hfirst hnext ih

/-- Past the key of a row that is itself past a cursor. -/
theorem filter_past {after : Option κ} {row : α}
    (hrow : row ∈ all.filter (fun other => past after (key other))) :
    (all.filter (fun other => past after (key other))).filter (fun other => key row < key other)
      = all.filter (fun other => past (some (key row)) (key other)) := by
  rw [List.filter_filter]
  refine List.filter_congr (fun other _ => ?_)
  have hpast : past after (key row) = true := (List.mem_filter.mp hrow).2
  cases after with
  | none => simp [past]
  | some cursor =>
      simp only [past, Option.all_some, decide_eq_true_eq] at hpast ⊢
      by_cases hother : key row < key other
      · simp [hother, hpast.trans hother]
      · simp [hother]

variable (hall : all.Pairwise (fun a b => key a < key b))
  (hpage : ∀ first after,
    page first after = pageOf key (all.filter (fun row => past after (key row))) first)

include hall hpage

/-- **The pages of a listing are the rows past its first cursor**, each once and in order. -/
theorem Listed.eq {after : Option κ} {out : List α} (h : Listed page after out) :
    out = all.filter (fun row => past after (key row)) := by
  induction h with
  | @last after first hfirst hlast =>
      rw [hpage] at hlast ⊢
      have hlength : ¬ first < (all.filter (fun row => past after (key row))).length :=
        fun hlt => Bool.noConfusion (hlast.symm.trans (pageOf_hasNextPage.mpr hlt))
      rw [pageOf_entities, List.take_of_length_le (not_lt.mp hlength)]
  | @next after rest first hfirst hnext _ ih =>
      rw [hpage] at hnext ih ⊢
      obtain ⟨row, hrow, hcursor, hdrop⟩ := pageOf_next (hall.filter _) hfirst hnext
      rw [ih, hcursor, pageOf_entities, ← filter_past hrow, ← hdrop, List.take_append_drop]

/-- **Pages of one size come to an end, and are the rows past the first cursor**, each once and in
order. -/
theorem readBy_iff {first : ℕ} (hfirst : 0 < first) {after : Option κ} {out : List α} :
    ReadBy (page first) after out ↔ out = all.filter (fun row => past after (key row)) := by
  constructor
  · exact fun h => (h.listed hfirst).eq hall hpage
  · rintro rfl
    generalize hsize : (all.filter (fun row => past after (key row))).length = size
    induction size using Nat.strong_induction_on generalizing after with
    | _ size ih =>
        have hentities : (page first after).entities
            = (all.filter (fun row => past after (key row))).take first := by
          rw [hpage, pageOf_entities]
        by_cases hnext : (page first after).hasNextPage = true
        · have hnext' := hnext
          rw [hpage] at hnext'
          obtain ⟨row, hrow, hcursor, hdrop⟩ := pageOf_next (hall.filter _) hfirst hnext'
          have hlength := pageOf_hasNextPage.mp hnext'
          rw [filter_past hrow] at hdrop
          have hrest := ih _ (by
            rw [← hsize, ← hdrop, List.length_drop]
            omega) rfl
          rw [← hcursor, ← hpage] at hrest
          have hread := ReadBy.next hnext hrest
          rwa [hentities, hpage, hcursor, ← hdrop, List.take_append_drop] at hread
        · have hread : ReadBy (page first) after (page first after).entities :=
            ReadBy.last (Bool.not_eq_true _ ▸ hnext)
          rwa [hentities, List.take_of_length_le] at hread
          rw [hpage, pageOf_hasNextPage] at hnext
          omega

/-- **Every page size reads a listing to its end.** -/
theorem exists_listed {first : ℕ} (hfirst : 0 < first) (after : Option κ) :
    ∃ out, Listed page after out :=
  ⟨_, ((readBy_iff hall hpage hfirst).mpr rfl).listed hfirst⟩

omit hall hpage

/-- Rows with distinct keys may be chosen before they are sorted or after. -/
theorem sortBy_filter (hnodup : (all.map key).Nodup) (p : α → Bool) :
    sortBy key (all.filter p) = (sortBy key all).filter p := by
  have hchosen : (sortBy key (all.filter p)).Pairwise (fun a b => key a < key b) :=
    sortBy_strict ((List.filter_sublist.map key).nodup hnodup)
  refine ascending_ext hchosen ((sortBy_strict hnodup).filter _) (fun row => ?_)
  rw [mem_sortBy, List.mem_filter, List.mem_filter, mem_sortBy]

/-- **Pages of a sorted query** are its rows in order, each once. -/
theorem readBy_sorted (hnodup : (all.map key).Nodup)
    (hpage : ∀ first after, page first after
      = pageOf key (sortBy key (all.filter (fun row => past after (key row)))) first)
    {first : ℕ} (hfirst : 0 < first) {out : List α} :
    ReadBy (page first) none out ↔ out = sortBy key all := by
  have hsorted : ∀ first after, page first after
      = pageOf key ((sortBy key all).filter (fun row => past after (key row))) first := by
    intro first after
    rw [hpage, sortBy_filter hnodup]
  rw [readBy_iff (sortBy_strict hnodup) hsorted hfirst]
  have hall : (sortBy key all).filter (fun row => past none (key row)) = sortBy key all :=
    List.filter_eq_self.mpr (fun _ _ => rfl)
  rw [hall]

end Pages

end Foundations
