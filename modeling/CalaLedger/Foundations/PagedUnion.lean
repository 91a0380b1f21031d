import CalaLedger.Foundations.HashMap
import CalaLedger.Foundations.Keyset
import CalaLedger.Foundations.StableSort
import Mathlib.Data.List.Perm.Subperm

/-! # Pages over the union of two limited queries

Two scans are ordered and limited each by itself, united, then ordered and limited again. The page
made of the rows fetched keeps all but the last of them, and its cursor is that last row, kept or
not. Such a listing is complete exactly when its first page is all there is (`complete_iff`). -/

namespace Foundations

variable {α κ γ : Type*} [LinearOrder κ]

/-- `ORDER BY key LIMIT n`; rows with equal keys come as the scan finds them. -/
def orderedLimit (scan : IterationOrder α) (key : α → κ) (n : ℕ) (rows : List α) : List α :=
  (sortBy key (scan.arrange rows)).take n

/-- Both queries ordered and limited, then their union. -/
def limitedUnion (scan : IterationOrder α) (key : α → κ) (n : ℕ) (left right : List α) : List α :=
  orderedLimit scan key n (orderedLimit scan key n left ++ orderedLimit scan key n right)

section Queries

variable {scan : IterationOrder α} {key : α → κ} {n : ℕ} {rows left right : List α}

theorem length_orderedLimit : (orderedLimit scan key n rows).length = min n rows.length := by
  rw [orderedLimit, List.length_take, (sortBy_perm key _).length_eq, (scan.perm rows).length_eq]

theorem orderedLimit_subperm : List.Subperm (orderedLimit scan key n rows) rows :=
  (List.take_sublist n _).subperm.trans ((sortBy_perm key _).trans (scan.perm rows)).subperm

theorem orderedLimit_sorted : SortedBy key (orderedLimit scan key n rows) :=
  (sortBy_sorted key _).sublist (List.take_sublist n _)

theorem length_limitedUnion :
    (limitedUnion scan key n left right).length = min n (left ++ right).length := by
  simp only [limitedUnion, length_orderedLimit, List.length_append]
  omega

theorem limitedUnion_subperm : List.Subperm (limitedUnion scan key n left right) (left ++ right) :=
  orderedLimit_subperm.trans (orderedLimit_subperm.append orderedLimit_subperm)

/-- A limit that is not reached loses nothing. -/
theorem limitedUnion_perm (hlength : (left ++ right).length ≤ n) :
    (limitedUnion scan key n left right).Perm (left ++ right) := by
  apply limitedUnion_subperm.perm_of_length_le
  rw [length_limitedUnion]
  omega

end Queries

/-! ## Pages whose cursor is the last row fetched -/

/-- The page of the rows fetched: `first` of them, and the cursor of the last one. -/
def probedPage (cursor : α → γ) (fetched : List α) (first : ℕ) : Page α γ :=
  { entities := fetched.take first
    hasNextPage := first < fetched.length
    endCursor := fetched.getLast?.map cursor }

/-- The listing comes to an end and gives all of the rows, each once, in the order of their keys. -/
def CompleteListing (page : Option γ → Page α γ) (key : α → κ) (all : List α) : Prop :=
  ∃ out, ReadBy page none out ∧ out.Perm all ∧ SortedBy key out

/-- A row that no page from a cursor on gives is not in the listing. -/
theorem ReadBy.not_mem {page : Option γ → Page α γ} {row : α} (inv : Option γ → Prop)
    (hstep : ∀ {after}, inv after → row ∉ (page after).entities
      ∧ ((page after).hasNextPage = true → inv (page after).endCursor))
    {after : Option γ} {out : List α} (h : ReadBy page after out) (hinv : inv after) :
    row ∉ out := by
  induction h with
  | last _ => exact (hstep hinv).1
  | next hnext _ ih =>
      intro hmem
      rcases List.mem_append.mp hmem with hmem | hmem
      · exact (hstep hinv).1 hmem
      · exact ih ((hstep hinv).2 hnext) hmem

/-- A listing whose every page has a next one never ends. -/
theorem ReadBy.endless {page : Option γ → Page α γ} (inv : Option γ → Prop)
    (hstep : ∀ {after}, inv after →
      (page after).hasNextPage = true ∧ inv (page after).endCursor)
    {after : Option γ} {out : List α} (h : ReadBy page after out) : ¬ inv after := by
  induction h with
  | last hlast => exact fun hinv => Bool.noConfusion (hlast.symm.trans (hstep hinv).1)
  | next _ _ ih => exact fun hinv => ih (hstep hinv).2

/-- The page of the rows past a cursor. -/
def unionPage (scan : IterationOrder α) (key : α → κ) (cursor : α → γ)
    (past : Option γ → α → Bool) (left right : List α) (first : ℕ) (after : Option γ) : Page α γ :=
  probedPage cursor
    (limitedUnion scan key (first + 1) (left.filter (past after)) (right.filter (past after)))
    first

section Listings

variable {scan : IterationOrder α} {key : α → κ} {cursor : α → γ} {past : Option γ → α → Bool}
  {left right : List α} {first : ℕ}

/-- What a page gives, and the row of its cursor, is past the cursor before. -/
theorem past_of_mem_fetched {after : Option γ} {row : α}
    (hrow : row ∈ limitedUnion scan key (first + 1) (left.filter (past after))
      (right.filter (past after))) : past after row = true := by
  have hmem := limitedUnion_subperm.subset hrow
  rw [← List.filter_append] at hmem
  exact (List.mem_filter.mp hmem).2

theorem unionPage_entities {after : Option γ} {row : α}
    (hrow : row ∈ (unionPage scan key cursor past left right first after).entities) :
    past after row = true :=
  past_of_mem_fetched (List.mem_of_mem_take hrow)

theorem unionPage_next {after : Option γ}
    (hnext : (unionPage scan key cursor past left right first after).hasNextPage = true) :
    ∃ row, past after row = true
      ∧ (unionPage scan key cursor past left right first after).endCursor = some (cursor row) := by
  simp only [unionPage, probedPage, decide_eq_true_eq] at hnext ⊢
  have hne := List.ne_nil_of_length_pos ((Nat.zero_le first).trans_lt hnext)
  have hlast := List.getLast?_eq_some_getLast hne
  exact ⟨_, past_of_mem_fetched (List.getLast_mem hne), by rw [hlast, Option.map_some]⟩

/-- A cursor that every row is past starts over. -/
theorem unionPage_restart {after : Option γ} (hnone : ∀ row, past none row = true)
    (hall : ∀ row, past after row = true) :
    unionPage scan key cursor past left right first after
      = unionPage scan key cursor past left right first none := by
  have hsame : past after = past none := by
    funext row
    rw [hall row, hnone row]
  simp only [unionPage, hsame]

variable (scan key cursor) in
/-- The page from the beginning, when it is not the whole listing: there is a next one, and the
row of its cursor is left out. -/
theorem unionPage_probe (hnodup : (left ++ right).Nodup) (hnone : ∀ row, past none row = true)
    (hlength : first < (left ++ right).length) :
    ∃ probe ∈ left ++ right,
      (unionPage scan key cursor past left right first none).hasNextPage = true
      ∧ probe ∉ (unionPage scan key cursor past left right first none).entities
      ∧ (unionPage scan key cursor past left right first none).endCursor = some (cursor probe) := by
  have hwhole : ∀ rows : List α, rows.filter (past none) = rows :=
    fun rows => List.filter_eq_self.mpr (fun row _ => hnone row)
  simp only [unionPage, probedPage, hwhole]
  set fetched := limitedUnion scan key (first + 1) left right with hfetched
  have hfull : fetched.length = first + 1 := by
    rw [hfetched, length_limitedUnion]
    omega
  have hsub : List.Subperm fetched (left ++ right) := limitedUnion_subperm
  -- the rows fetched are those of the page, then the probe
  obtain ⟨probe, hlast⟩ : ∃ probe, fetched.drop first = [probe] := by
    rw [← List.length_eq_one_iff, List.length_drop, hfull]
    omega
  have hsplit : fetched = fetched.take first ++ [probe] := by
    rw [← hlast, List.take_append_drop]
  have hdistinct : (fetched.take first ++ [probe]).Nodup := by
    rw [← hsplit]
    obtain ⟨rows, hperm, hrows⟩ := hsub
    exact hperm.nodup_iff.mp (hrows.nodup hnodup)
  refine ⟨probe, hsub.subset ?_, ?_, ?_, ?_⟩
  · rw [hsplit]
    exact List.mem_append_right _ (List.mem_singleton_self probe)
  · rw [decide_eq_true_eq, hfull]
    exact Nat.lt_succ_self first
  · intro hmem
    exact (List.nodup_append.mp hdistinct).2.2 probe hmem probe (List.mem_singleton_self probe) rfl
  · rw [hsplit, List.getLast?_concat, Option.map_some]

/-- **A listing whose cursor is the last row fetched is complete exactly when one page is.** A
cursor may put every row past it, and the listing then starts over. -/
theorem complete_iff (hnodup : (left ++ right).Nodup) (hnone : ∀ row, past none row = true)
    (hcursor : ∀ row, (∀ other, past (some (cursor row)) other = true)
      ∨ ∀ other, past (some (cursor row)) other = true → key row < key other) :
    CompleteListing (unionPage scan key cursor past left right first) key (left ++ right)
      ↔ (left ++ right).length ≤ first := by
  constructor
  · rintro ⟨out, hread, hperm, -⟩
    by_contra hmore
    obtain ⟨probe, hprobe, -, hout, hend⟩ := unionPage_probe scan key cursor hnodup hnone
      (not_le.mp hmore)
    -- a cursor starts over, or lies at or behind the probe
    have hread' : probe ∉ out := by
      refine hread.not_mem (fun after => (∀ row, past after row = true)
        ∨ ∀ row, past after row = true → key probe < key row) (fun {after} hafter => ?_)
        (Or.inl hnone)
      rcases hafter with hall | hbehind
      · rw [unionPage_restart hnone hall, hend]
        exact ⟨hout, fun _ => hcursor probe⟩
      · refine ⟨fun hmem => lt_irrefl _ (hbehind probe (unionPage_entities hmem)), fun hnext => ?_⟩
        obtain ⟨row, hrow, hcursor'⟩ := unionPage_next hnext
        rw [hcursor']
        rcases hcursor row with hall | hstrict
        · exact Or.inl hall
        · exact Or.inr (fun other hother => (hbehind row hrow).trans (hstrict other hother))
    exact hread' (hperm.mem_iff.mpr hprobe)
  · intro hlength
    have hwhole : ∀ rows : List α, rows.filter (past none) = rows :=
      fun rows => List.filter_eq_self.mpr (fun row _ => hnone row)
    have hfetched : (limitedUnion scan key (first + 1) left right).length ≤ first := by
      rw [length_limitedUnion]
      omega
    have hentities : (unionPage scan key cursor past left right first none).entities
        = limitedUnion scan key (first + 1) left right := by
      simp only [unionPage, probedPage, hwhole]
      exact List.take_of_length_le hfetched
    have hlast : (unionPage scan key cursor past left right first none).hasNextPage = false := by
      simp only [unionPage, probedPage, hwhole, decide_eq_false_iff_not, not_lt]
      exact hfetched
    refine ⟨_, ReadBy.last hlast, ?_, ?_⟩
    · rw [hentities]
      exact limitedUnion_perm (hlength.trans (Nat.le_succ first))
    · rw [hentities]
      exact orderedLimit_sorted

/-- Where every cursor starts over, a listing of more than one page never ends. -/
theorem not_readBy_of_restart (hnodup : (left ++ right).Nodup)
    (hnone : ∀ row, past none row = true) (hlength : first < (left ++ right).length)
    (hrestart : ∀ row ∈ left ++ right, ∀ other, past (some (cursor row)) other = true)
    {out : List α} : ¬ ReadBy (unionPage scan key cursor past left right first) none out := by
  obtain ⟨probe, hprobe, hnext, -, hend⟩ := unionPage_probe scan key cursor hnodup hnone hlength
  refine fun hread => hread.endless (fun after => ∀ row, past after row = true)
    (fun {after} hall => ?_) hnone
  rw [unionPage_restart hnone hall, hend]
  exact ⟨hnext, hrestart probe hprobe⟩

end Listings

end Foundations
