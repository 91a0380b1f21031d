import Mathlib.Data.List.Sort
import Mathlib.Order.Defs.LinearOrder

/-! # Sorted maps

A map kept as the list of its pairs, keys ascending. Pairs with distinct keys, inserted in any
order, give the one list that is sorted (`collect_eq`). -/

namespace Foundations

variable {κ ν : Type*} [LinearOrder κ]

/-- The keys ascend strictly. -/
def SortedKeys (pairs : List (κ × ν)) : Prop := pairs.Pairwise (fun p q => p.1 < q.1)

/-- Put a value under a key, in its place. -/
def sortedInsert (key : κ) (value : ν) : List (κ × ν) → List (κ × ν)
  | [] => [(key, value)]
  | pair :: pairs =>
      if key < pair.1 then (key, value) :: pair :: pairs
      else if key = pair.1 then (key, value) :: pairs
      else pair :: sortedInsert key value pairs

/-- Insert pairs one after the other. -/
def collect (pairs : List (κ × ν)) : List (κ × ν) :=
  pairs.foldl (fun map pair => sortedInsert pair.1 pair.2 map) []

theorem sortedInsert_perm {key : κ} {value : ν} {pairs : List (κ × ν)}
    (hnew : key ∉ pairs.map Prod.fst) :
    (sortedInsert key value pairs).Perm ((key, value) :: pairs) := by
  induction pairs with
  | nil => exact List.Perm.refl _
  | cons pair pairs ih =>
      rw [List.map_cons, List.mem_cons, not_or] at hnew
      unfold sortedInsert
      split
      · exact List.Perm.refl _
      · rw [if_neg hnew.1]
        exact ((ih hnew.2).cons pair).trans (List.Perm.swap _ _ _)

theorem mem_sortedInsert {key : κ} {value : ν} {pairs : List (κ × ν)} {pair : κ × ν}
    (h : pair ∈ sortedInsert key value pairs) : pair = (key, value) ∨ pair ∈ pairs := by
  induction pairs with
  | nil => exact Or.inl (List.mem_singleton.mp h)
  | cons first pairs ih =>
      unfold sortedInsert at h
      split at h
      · exact List.mem_cons.mp h
      · split at h
        · exact (List.mem_cons.mp h).imp_right (List.mem_cons_of_mem _)
        · rcases List.mem_cons.mp h with rfl | h
          · exact Or.inr List.mem_cons_self
          · exact (ih h).imp_right (List.mem_cons_of_mem _)

theorem sortedKeys_sortedInsert {key : κ} {value : ν} {pairs : List (κ × ν)}
    (h : SortedKeys pairs) : SortedKeys (sortedInsert key value pairs) := by
  induction pairs with
  | nil => exact List.pairwise_singleton _ _
  | cons pair pairs ih =>
      obtain ⟨hfirst, hrest⟩ := List.pairwise_cons.mp h
      unfold sortedInsert
      split
      · rename_i hlt
        refine List.pairwise_cons.mpr ⟨fun q hq => ?_, h⟩
        rcases List.mem_cons.mp hq with rfl | hq
        · exact hlt
        · exact hlt.trans (hfirst q hq)
      · rename_i hnot
        split
        · rename_i heq
          exact List.pairwise_cons.mpr ⟨fun q hq => heq ▸ hfirst q hq, hrest⟩
        · rename_i hne
          refine List.pairwise_cons.mpr ⟨fun q hq => ?_, ih hrest⟩
          rcases mem_sortedInsert hq with rfl | hq
          · exact lt_of_le_of_ne (not_lt.mp hnot) (Ne.symm hne)
          · exact hfirst q hq

/-- Inserting new keys one by one only adds them. -/
theorem foldl_sortedInsert {pairs map : List (κ × ν)} (hsorted : SortedKeys map)
    (hnodup : ((map ++ pairs).map Prod.fst).Nodup) :
    SortedKeys (pairs.foldl (fun map pair => sortedInsert pair.1 pair.2 map) map)
      ∧ (pairs.foldl (fun map pair => sortedInsert pair.1 pair.2 map) map).Perm (map ++ pairs) := by
  induction pairs generalizing map with
  | nil => exact ⟨hsorted, by rw [List.append_nil]; exact List.Perm.refl _⟩
  | cons pair pairs ih =>
      have hnew : pair.1 ∉ map.map Prod.fst := by
        rw [List.map_append, List.map_cons] at hnodup
        intro hmem
        exact (List.nodup_append.mp hnodup).2.2 _ hmem _ List.mem_cons_self rfl
      have hperm : (sortedInsert pair.1 pair.2 map ++ pairs).Perm (map ++ pair :: pairs) :=
        ((sortedInsert_perm hnew).append_right pairs).trans List.perm_middle.symm
      obtain ⟨hsorted', hperm'⟩ := ih (sortedKeys_sortedInsert hsorted)
        ((hperm.map Prod.fst).nodup_iff.mpr hnodup)
      exact ⟨hsorted', hperm'.trans hperm⟩

/-- **A sorted map is recovered from its pairs in any order.** -/
theorem collect_eq {pairs sorted : List (κ × ν)} (hperm : pairs.Perm sorted)
    (hsorted : SortedKeys sorted) : collect pairs = sorted := by
  have hkeys : (sorted.map Prod.fst).Nodup :=
    List.pairwise_map.mpr (hsorted.imp (fun hlt => ne_of_lt hlt))
  have hnodup : (([] ++ pairs).map Prod.fst).Nodup := (hperm.map Prod.fst).nodup_iff.mpr hkeys
  obtain ⟨hcollected, hcollect⟩ := foldl_sortedInsert List.Pairwise.nil hnodup
  have hascending : (collect pairs).Pairwise (fun p q => p.1 < q.1) := hcollected
  refine List.Perm.eq_of_pairwise ?_ hascending hsorted (hcollect.trans hperm)
  exact fun p q _ _ hpq hqp => absurd hqp (lt_asymm hpq)

end Foundations
