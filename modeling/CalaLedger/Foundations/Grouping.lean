import Mathlib.Data.List.Dedup
import Mathlib.Data.List.Nodup
import Mathlib.Data.List.Perm.Lattice
import Mathlib.Data.List.Induction

/-! # Grouping in order of first appearance

Items are pushed into the group of their key, a new key opening a group at the end. The groups have
distinct keys (`keys_groupBy_nodup`) and each holds, in order, the items of its key
(`mem_groupBy`). -/

namespace Foundations

variable {α β κ : Type*} [DecidableEq κ]

/-- Push items into the group of a key. -/
def pushGroup (groups : List (κ × List β)) (key : κ) (items : List β) : List (κ × List β) :=
  match groups with
  | [] => [(key, items)]
  | (k, group) :: rest =>
      if k = key then (k, group ++ items) :: rest else (k, group) :: pushGroup rest key items

/-- Group the items of a list by key. -/
def groupBy (key : α → κ) (items : α → List β) (l : List α) : List (κ × List β) :=
  l.foldl (fun groups a => pushGroup groups (key a) (items a)) []

/-- The items of one key, in order. -/
def itemsOf (key : α → κ) (items : α → List β) (l : List α) (k : κ) : List β :=
  (l.filter (fun a => key a = k)).flatMap items

section GroupBy

variable {key : α → κ} {items : α → List β}

theorem itemsOf_append (front back : List α) (k : κ) :
    itemsOf key items (front ++ back) k = itemsOf key items front k ++ itemsOf key items back k := by
  rw [itemsOf, List.filter_append, List.flatMap_append]
  rfl

theorem itemsOf_eq_nil {l : List α} {k : κ} (h : ¬ ∃ a ∈ l, key a = k) :
    itemsOf key items l k = [] := by
  unfold itemsOf
  rw [List.filter_eq_nil_iff.mpr, List.flatMap_nil]
  intro a ha hkey
  exact h ⟨a, ha, by simpa using hkey⟩

theorem keys_pushGroup (groups : List (κ × List β)) (k : κ) (new : List β) :
    (pushGroup groups k new).map Prod.fst
      = if k ∈ groups.map Prod.fst then groups.map Prod.fst else groups.map Prod.fst ++ [k] := by
  induction groups with
  | nil => rfl
  | cons group groups ih =>
      obtain ⟨k', group⟩ := group
      unfold pushGroup
      by_cases hk : k' = k
      · simp [hk]
      · simp only [if_neg hk, List.map_cons, ih, List.mem_cons, Ne.symm hk, false_or]
        split <;> rfl

theorem mem_pushGroup {groups : List (κ × List β)} (hnodup : (groups.map Prod.fst).Nodup) {k : κ}
    {new : List β} {k' : κ} {group : List β} :
    (k', group) ∈ pushGroup groups k new
      ↔ if k' = k then
          (∃ old, (k, old) ∈ groups ∧ group = old ++ new)
            ∨ (k ∉ groups.map Prod.fst ∧ group = new)
        else (k', group) ∈ groups := by
  induction groups with
  | nil => by_cases hk : k' = k <;> simp [pushGroup, hk]
  | cons head groups ih =>
      obtain ⟨head, old⟩ := head
      rw [List.map_cons, List.nodup_cons] at hnodup
      obtain ⟨hhead, hnodup⟩ := hnodup
      have ih := ih hnodup
      unfold pushGroup
      by_cases hsame : head = k
      · subst hsame
        have hout : ∀ g, (head, g) ∉ groups := fun g hg => hhead (List.mem_map.mpr ⟨_, hg, rfl⟩)
        by_cases hk : k' = head
        · subst hk
          simp [hout]
        · simp [hk]
      · rw [if_neg hsame, List.mem_cons, ih]
        by_cases hk : k' = k
        · subst hk
          simp [Ne.symm hsame]
        · simp [hk]

/-- What grouping has done after `l`. -/
structure Grouped (key : α → κ) (items : α → List β) (l : List α) (groups : List (κ × List β)) :
    Prop where
  nodup : (groups.map Prod.fst).Nodup
  mem : ∀ k group, (k, group) ∈ groups ↔ (∃ a ∈ l, key a = k) ∧ group = itemsOf key items l k

theorem Grouped.push {l : List α} {groups : List (κ × List β)} (h : Grouped key items l groups)
    (a : α) : Grouped key items (l ++ [a]) (pushGroup groups (key a) (items a)) := by
  have hkeys : ∀ k, k ∈ groups.map Prod.fst ↔ ∃ b ∈ l, key b = k := by
    intro k
    rw [List.mem_map]
    constructor
    · rintro ⟨⟨k', group⟩, hmem, rfl⟩
      exact ((h.mem _ _).mp hmem).1
    · intro hb
      exact ⟨(k, itemsOf key items l k), (h.mem _ _).mpr ⟨hb, rfl⟩, rfl⟩
  have hitems : ∀ k, itemsOf key items (l ++ [a]) k
      = if k = key a then itemsOf key items l k ++ items a else itemsOf key items l k := by
    intro k
    rw [itemsOf_append]
    by_cases hk : k = key a
    · simp [itemsOf, hk]
    · simp [itemsOf, hk, Ne.symm hk]
  constructor
  · rw [keys_pushGroup]
    split
    · exact h.nodup
    · rename_i hnew
      rw [List.nodup_append]
      refine ⟨h.nodup, List.nodup_singleton _, ?_⟩
      rintro k hk k' hk' rfl
      rw [List.mem_singleton] at hk'
      exact hnew (hk' ▸ hk)
  · intro k group
    rw [mem_pushGroup h.nodup, hitems]
    by_cases hk : k = key a
    · subst hk
      simp only [if_true, h.mem, hkeys]
      constructor
      · rintro (⟨old, ⟨hb, rfl⟩, rfl⟩ | ⟨hnone, rfl⟩)
        · exact ⟨⟨a, by simp, rfl⟩, rfl⟩
        · exact ⟨⟨a, by simp, rfl⟩, by rw [itemsOf_eq_nil hnone, List.nil_append]⟩
      · rintro ⟨-, rfl⟩
        by_cases hold : ∃ b ∈ l, key b = key a
        · exact Or.inl ⟨_, ⟨hold, rfl⟩, rfl⟩
        · exact Or.inr ⟨hold, by rw [itemsOf_eq_nil hold, List.nil_append]⟩
    · rw [if_neg hk, if_neg hk, h.mem]
      simp [Ne.symm hk]

theorem grouped_groupBy (l : List α) : Grouped key items l (groupBy key items l) := by
  induction l using List.reverseRecOn with
  | nil => exact ⟨List.nodup_nil, by simp [groupBy]⟩
  | append_singleton l a ih =>
      rw [groupBy, List.foldl_append]
      exact ih.push a

theorem keys_groupBy_nodup (l : List α) : ((groupBy key items l).map Prod.fst).Nodup :=
  (grouped_groupBy l).nodup

/-- **A group holds the items of its key**, and every key that occurs has a group. -/
theorem mem_groupBy {l : List α} {k : κ} {group : List β} :
    (k, group) ∈ groupBy key items l
      ↔ (∃ a ∈ l, key a = k) ∧ group = itemsOf key items l k :=
  (grouped_groupBy l).mem k group

/-- The items of distinct keys, and those of the other keys, are all the items. -/
theorem perm_flatMap_filter_key (key : α → κ) {l : List α} {keys : List κ} (hnodup : keys.Nodup) :
    (keys.flatMap (fun k => l.filter (fun a => key a = k)) ++ l.filter (fun a => key a ∉ keys)).Perm
      l := by
  induction keys with
  | nil => simp
  | cons k keys ih =>
      obtain ⟨hk, hnodup⟩ := List.nodup_cons.mp hnodup
      have hsplit : (l.filter (fun a => key a ∉ keys)).Perm
          (l.filter (fun a => key a = k) ++ l.filter (fun a => key a ∉ k :: keys)) := by
        have hfrom : l.filter (fun a => key a = k)
            = (l.filter (fun a => key a ∉ keys)).filter (fun a => key a = k) := by
          rw [List.filter_filter]
          refine List.filter_congr (fun a _ => ?_)
          by_cases heq : key a = k <;> simp [heq, hk]
        have hrest : l.filter (fun a => key a ∉ k :: keys)
            = (l.filter (fun a => key a ∉ keys)).filter (fun a => !decide (key a = k)) := by
          rw [List.filter_filter]
          refine List.filter_congr (fun a _ => ?_)
          by_cases heq : key a = k <;> simp [heq]
        rw [hfrom, hrest]
        exact (List.filter_append_perm (fun a : α => decide (key a = k)) _).symm
      have hswap : ((k :: keys).flatMap (fun k => l.filter (fun a => key a = k))
            ++ l.filter (fun a => key a ∉ k :: keys)).Perm
          (keys.flatMap (fun k => l.filter (fun a => key a = k))
            ++ (l.filter (fun a => key a = k) ++ l.filter (fun a => key a ∉ k :: keys))) := by
        rw [List.flatMap_cons, ← List.append_assoc]
        exact List.perm_append_comm.append_right _
      exact hswap.trans ((hsplit.symm.append_left _).trans (ih hnodup))

/-- Under distinct keys a key selects its own group. -/
theorem filter_of_nodup_keys {groups : List (κ × List β)} (hnodup : (groups.map Prod.fst).Nodup)
    {k : κ} {group : List β} (hmem : (k, group) ∈ groups) :
    groups.filter (fun g => g.1 = k) = [(k, group)] := by
  induction groups with
  | nil => cases hmem
  | cons head groups ih =>
      rw [List.map_cons, List.nodup_cons] at hnodup
      have hnone : ∀ k', k' = head.1 → groups.filter (fun g => g.1 = k') = [] := by
        rintro k' rfl
        rw [List.filter_eq_nil_iff]
        intro g hg hkey
        exact hnodup.1 (List.mem_map.mpr ⟨g, hg, by simpa using hkey⟩)
      rcases List.mem_cons.mp hmem with rfl | hmem
      · rw [List.filter_cons_of_pos (by simp), hnone k rfl]
      · have hother : head.1 ≠ k := by
          rintro rfl
          exact hnodup.1 (List.mem_map.mpr ⟨_, hmem, rfl⟩)
        rw [List.filter_cons_of_neg (by simpa using hother), ih hnodup.2 hmem]

/-- **Reading one group off all of them**: what the groups, in any order, contribute to a key is what
its own group contributes. -/
theorem flatMap_of_perm_groupBy {γ : Type*} {f : List β → List γ} (hf : f [] = []) {l : List α}
    {groups : List (κ × List β)} (hperm : groups.Perm (groupBy key items l)) (k : κ) :
    groups.flatMap (fun group => if group.1 = k then f group.2 else [])
      = f (itemsOf key items l k) := by
  have hfilter : ∀ groups : List (κ × List β),
      groups.flatMap (fun group => if group.1 = k then f group.2 else [])
        = (groups.filter (fun g => g.1 = k)).flatMap (fun group => f group.2) := by
    intro groups
    induction groups with
    | nil => rfl
    | cons head groups ih =>
        by_cases hk : head.1 = k
        · rw [List.flatMap_cons, ih, List.filter_cons_of_pos (by simpa using hk), if_pos hk,
            List.flatMap_cons]
        · rw [List.flatMap_cons, ih, List.filter_cons_of_neg (by simpa using hk), if_neg hk,
            List.nil_append]
  rw [hfilter]
  by_cases hsome : ∃ a ∈ l, key a = k
  · have hnodup : (groups.map Prod.fst).Nodup :=
      (hperm.map Prod.fst).nodup_iff.mpr (keys_groupBy_nodup l)
    rw [filter_of_nodup_keys hnodup (hperm.mem_iff.mpr (mem_groupBy.mpr ⟨hsome, rfl⟩))]
    simp
  · have hnone : groups.filter (fun g => g.1 = k) = [] := by
      rw [List.filter_eq_nil_iff]
      rintro ⟨k', group⟩ hg hkey
      rw [decide_eq_true_eq] at hkey
      subst hkey
      exact hsome (mem_groupBy.mp (hperm.mem_iff.mp hg)).1
    rw [hnone, itemsOf_eq_nil hsome, hf, List.flatMap_nil]

theorem flatMap_groupBy {γ : Type*} {f : List β → List γ} (hf : f [] = []) (l : List α) (k : κ) :
    (groupBy key items l).flatMap (fun group => if group.1 = k then f group.2 else [])
      = f (itemsOf key items l k) :=
  flatMap_of_perm_groupBy hf (List.Perm.refl _) k

end GroupBy

section Filed

/-- Lists filed under keys, empty but for some keys, are the groups of one list. -/
theorem exists_filed {key : α → κ} {table : κ → List α} (keys : List κ)
    (hkeys : ∀ k, table k ≠ [] → k ∈ keys) (hfiled : ∀ k, ∀ a ∈ table k, key a = k) :
    ∃ items : List α, ∀ k, items.filter (fun a => key a = k) = table k := by
  refine ⟨keys.dedup.flatMap table, fun k => ?_⟩
  have hown : ∀ other, (table other).filter (fun a => key a = k)
      = if other = k then table other else [] := by
    intro other
    split
    · rename_i heq
      refine List.filter_eq_self.mpr (fun a ha => ?_)
      rw [decide_eq_true_eq, hfiled other a ha, heq]
    · rename_i hne
      refine List.filter_eq_nil_iff.mpr (fun a ha h => hne ?_)
      rw [decide_eq_true_eq] at h
      rw [← hfiled other a ha, h]
  rw [List.filter_flatMap]
  simp only [hown]
  by_cases hmem : k ∈ keys
  · obtain ⟨front, back, hsplit⟩ := List.append_of_mem (List.mem_dedup.mpr hmem)
    have hnodup := List.nodup_dedup keys
    rw [hsplit] at hnodup ⊢
    have hnone : ∀ part : List κ, k ∉ part →
        part.flatMap (fun other => if other = k then table other else []) = [] := by
      intro part hpart
      refine List.flatMap_eq_nil_iff.mpr (fun other hother => if_neg (fun heq => ?_))
      exact hpart (heq ▸ hother)
    rw [List.nodup_append, List.nodup_cons] at hnodup
    obtain ⟨-, ⟨hback, -⟩, hfront⟩ := hnodup
    rw [List.flatMap_append, List.flatMap_cons, if_pos rfl, hnone back hback,
      hnone front (fun h => hfront k h k List.mem_cons_self rfl), List.nil_append,
      List.append_nil]
  · have hempty : table k = [] := by
      by_contra hne
      exact hmem (hkeys k hne)
    rw [hempty]
    refine List.flatMap_eq_nil_iff.mpr (fun other _ => ?_)
    split
    · rename_i heq
      rw [heq, hempty]
    · rfl

end Filed

end Foundations
