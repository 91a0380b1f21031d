import Mathlib.Data.List.Dedup
import Mathlib.Data.List.Induction
import Mathlib.Data.List.MinMax
import Mathlib.Data.List.Sort

/-! # Stable sorting by a key

`sortBy key` sorts a list by a key and keeps the order of elements with equal keys. Two facts
characterise it: the result is sorted (`sortBy_sorted`), and restricted to any one key it is the
input restricted to that key (`filter_sortBy`). A sorted list is determined by these restrictions
(`sorted_ext`), so equations between sorted lists are proved one key at a time. -/

namespace Foundations

variable {α κ : Type*} [LinearOrder κ]

/-- Stable sort by a key. -/
def sortBy (key : α → κ) (l : List α) : List α := l.insertionSort (fun a b => key a ≤ key b)

/-- Sorted by a key, repetitions allowed. -/
def SortedBy (key : α → κ) (l : List α) : Prop := l.Pairwise (fun a b => key a ≤ key b)

section Sorting

variable (key : α → κ)

instance total_key : Std.Total (fun a b => key a ≤ key b) := ⟨fun a b => le_total (key a) (key b)⟩

instance isTrans_key : IsTrans α (fun a b => key a ≤ key b) := ⟨fun _ _ _ => le_trans⟩

@[simp] theorem sortBy_nil : sortBy key [] = [] := rfl

theorem sortBy_sorted (l : List α) : SortedBy key (sortBy key l) :=
  List.pairwise_insertionSort _ l

theorem sortBy_perm (l : List α) : (sortBy key l).Perm l := List.perm_insertionSort _ l

@[simp] theorem mem_sortBy {l : List α} {a : α} : a ∈ sortBy key l ↔ a ∈ l :=
  (sortBy_perm key l).mem_iff

@[simp] theorem sortBy_eq_nil {l : List α} : sortBy key l = [] ↔ l = [] := by
  rw [← List.length_eq_zero_iff, (sortBy_perm key l).length_eq, List.length_eq_zero_iff]

variable {key}

/-- Sorting changes nothing exactly when the list is sorted already. -/
theorem sortBy_eq_self {l : List α} : sortBy key l = l ↔ SortedBy key l := by
  constructor
  · intro h
    rw [← h]
    exact sortBy_sorted key l
  · exact List.Pairwise.insertionSort_eq

variable (key)

/-- Inserting an element in order leaves the elements of every other key as they were, and puts it
before those of its own key. -/
theorem filter_orderedInsert (k : κ) (a : α) (l : List α) :
    (l.orderedInsert (fun a b => key a ≤ key b) a).filter (fun x => key x = k)
      = (a :: l).filter (fun x => key x = k) := by
  induction l with
  | nil => rfl
  | cons b l ih =>
      rw [List.orderedInsert_cons]
      by_cases hle : key a ≤ key b
      · rw [if_pos hle]
      · rw [if_neg hle]
        by_cases ha : key a = k
        · have hb : key b ≠ k := fun hb => hle (ha.trans hb.symm).le
          rw [List.filter_cons_of_neg (by simpa using hb), ih]
          simp [ha, hb]
        · simp only [List.filter_cons, ha, decide_false] at ih ⊢
          simp [ih]

/-- **Stability**: the elements of one key keep their order. -/
theorem filter_sortBy (k : κ) (l : List α) :
    (sortBy key l).filter (fun x => key x = k) = l.filter (fun x => key x = k) := by
  induction l with
  | nil => rfl
  | cons a l ih =>
      rw [sortBy, List.insertionSort_cons, filter_orderedInsert, List.filter_cons,
        List.filter_cons]
      simp only [sortBy] at ih
      rw [ih]

/-- Sorting commutes with a map that keeps the order of keys. -/
theorem map_sortBy {β κ' : Type*} [LinearOrder κ'] (key' : β → κ') {f : α → β}
    (h : ∀ a b, key a ≤ key b ↔ key' (f a) ≤ key' (f b)) (l : List α) :
    (sortBy key l).map f = sortBy key' (l.map f) :=
  List.map_insertionSort (r := fun a b => key a ≤ key b) (fun a b => key' a ≤ key' b) f l
    (fun a _ b _ => h a b)

end Sorting

section Determined

variable {key : α → κ}

theorem SortedBy.tail {a : α} {l : List α} (h : SortedBy key (a :: l)) : SortedBy key l :=
  (List.pairwise_cons.mp h).2

theorem SortedBy.head_le {a b : α} {l : List α} (h : SortedBy key (a :: l)) (hb : b ∈ a :: l) :
    key a ≤ key b := by
  rcases List.mem_cons.mp hb with rfl | hb
  · exact le_rfl
  · exact (List.pairwise_cons.mp h).1 b hb

/-- Sorted distinct elements ascend strictly where the key tells them apart. -/
theorem SortedBy.strict {l : List α} (h : SortedBy key l) (hnodup : l.Nodup)
    (hkey : Function.Injective key) : l.Pairwise (fun a b => key a < key b) :=
  (h.and hnodup).imp (fun hab => lt_of_le_of_ne hab.1 (hkey.ne hab.2))

/-- Elements with distinct keys are sorted strictly. -/
theorem sortBy_strict {l : List α} (h : (l.map key).Nodup) :
    (sortBy key l).Pairwise (fun a b => key a < key b) := by
  have hne : (sortBy key l).Pairwise (fun a b => key a ≠ key b) := by
    rw [← List.pairwise_map (f := key) (R := (· ≠ ·))]
    exact ((sortBy_perm key l).map key).nodup_iff.mpr h
  have hsorted : SortedBy key (sortBy key l) := sortBy_sorted key l
  exact hsorted.imp₂ (fun _ _ hle hne => lt_of_le_of_ne hle hne) hne

/-- Deduplicating a sorted list. -/
theorem strict_dedup_sortBy [DecidableEq α] (hkey : Function.Injective key) (l : List α) :
    (sortBy key l).dedup.Pairwise (fun a b => key a < key b) :=
  SortedBy.strict ((sortBy_sorted key l).sublist (List.dedup_sublist _)) (List.nodup_dedup _) hkey

/-- Two strictly sorted lists with the same elements are the same. -/
theorem strict_ext {l l' : List α} (h : l.Pairwise (fun a b => key a < key b))
    (h' : l'.Pairwise (fun a b => key a < key b)) (hmem : ∀ a, a ∈ l ↔ a ∈ l') : l = l' := by
  have hnodup : ∀ {l : List α}, l.Pairwise (fun a b => key a < key b) → l.Nodup :=
    fun hstrict => hstrict.imp (fun hab hsame => (hsame ▸ hab).ne rfl)
  have hperm := (List.perm_ext_iff_of_nodup (hnodup h) (hnodup h')).mpr hmem
  exact hperm.eq_of_pairwise (fun a b _ _ hab hba => (lt_asymm hab hba).elim) h h'

/-- **A sorted list is determined by its restrictions to single keys.** -/
theorem sorted_ext {l₁ : List α} : ∀ {l₂ : List α}, SortedBy key l₁ → SortedBy key l₂ →
    (∀ k, l₁.filter (fun x => key x = k) = l₂.filter (fun x => key x = k)) → l₁ = l₂ := by
  induction l₁ with
  | nil =>
      intro l₂ _ _ h
      cases l₂ with
      | nil => rfl
      | cons b l₂ => simpa using h (key b)
  | cons a l₁ ih =>
      intro l₂ h₁ h₂ h
      cases l₂ with
      | nil => simpa using h (key a)
      | cons b l₂ =>
          have hmem : ∀ {x : α}, x ∈ a :: l₁ ↔ x ∈ b :: l₂ := by
            intro x
            have hx := congrArg (fun l => x ∈ l) (h (key x))
            simpa only [List.mem_filter, decide_true, and_true, eq_iff_iff] using hx
          have hkey : key a = key b :=
            le_antisymm (h₁.head_le (hmem.mpr List.mem_cons_self))
              (h₂.head_le (hmem.mp List.mem_cons_self))
          have hhead := h (key a)
          rw [List.filter_cons_of_pos (by simp), List.filter_cons_of_pos (by simp [hkey])] at hhead
          obtain ⟨rfl, -⟩ := List.cons.inj hhead
          refine congrArg (a :: ·) (ih h₁.tail h₂.tail (fun k => ?_))
          have hk := h k
          by_cases ha : key a = k
          · simpa [ha] using hk
          · simpa [ha] using hk

theorem sortBy_eq_iff {l sorted : List α} :
    sortBy key l = sorted ↔ SortedBy key sorted ∧
      ∀ k, sorted.filter (fun x => key x = k) = l.filter (fun x => key x = k) := by
  constructor
  · rintro rfl
    exact ⟨sortBy_sorted key l, fun k => filter_sortBy key k l⟩
  · rintro ⟨hsorted, hfilter⟩
    exact sorted_ext (sortBy_sorted key l) hsorted
      (fun k => by rw [filter_sortBy, hfilter])

/-- Sorting the front first changes nothing. -/
theorem sortBy_append_sortBy (key : α → κ) (front back : List α) :
    sortBy key (sortBy key front ++ back) = sortBy key (front ++ back) := by
  refine sortBy_eq_iff.mpr ⟨sortBy_sorted key _, fun k => ?_⟩
  rw [filter_sortBy, List.filter_append, List.filter_append, filter_sortBy]

/-- A list with strictly increasing keys is the sorted form of each of its permutations. -/
theorem sortBy_eq_of_perm {l sorted : List α} (hperm : l.Perm sorted)
    (hsorted : sorted.Pairwise (fun a b => key a < key b)) : sortBy key l = sorted := by
  have hnodup : (sorted.map key).Nodup := List.pairwise_map.mpr (hsorted.imp ne_of_lt)
  refine List.Perm.eq_of_pairwise ?_ (sortBy_sorted key l) (hsorted.imp le_of_lt)
    ((sortBy_perm key l).trans hperm)
  intro a b ha hb hab hba
  have ha' : a ∈ sorted := hperm.mem_iff.mp ((mem_sortBy key).mp ha)
  exact List.inj_on_of_nodup_map hnodup ha' hb (le_antisymm hab hba)

/-- Everything in `low` before everything in `high`: the two are sorted apart. -/
theorem sortBy_append_of_lt {high low : List α} (h : ∀ a ∈ low, ∀ b ∈ high, key a < key b) :
    sortBy key (high ++ low) = sortBy key low ++ sortBy key high := by
  refine sortBy_eq_iff.mpr ⟨List.pairwise_append.mpr ⟨sortBy_sorted key low,
    sortBy_sorted key high, fun a ha b hb => ?_⟩, fun k => ?_⟩
  · exact (h a ((mem_sortBy key).mp ha) b ((mem_sortBy key).mp hb)).le
  · rw [List.filter_append, filter_sortBy, filter_sortBy, List.filter_append]
    -- one of the two restrictions is empty
    by_cases hlow : ∃ a ∈ low, key a = k
    · obtain ⟨a, ha, rfl⟩ := hlow
      have hhigh : high.filter (fun x => key x = key a) = [] := by
        refine List.filter_eq_nil_iff.mpr (fun b hb => ?_)
        simpa using (h a ha b hb).ne'
      rw [hhigh, List.append_nil, List.nil_append]
    · have hnil : low.filter (fun x => key x = k) = [] := by
        refine List.filter_eq_nil_iff.mpr (fun a ha hk => hlow ⟨a, ha, by simpa using hk⟩)
      rw [hnil, List.append_nil, List.nil_append]

/-- **Adding a block of one key**: it goes after everything up to that key and before the rest. -/
theorem sortBy_append_block {l block : List α} {k : κ} (hblock : ∀ a ∈ block, key a = k) :
    sortBy key (l ++ block)
      = (sortBy key l).filter (fun x => key x ≤ k) ++ block
          ++ (sortBy key l).filter (fun x => k < key x) := by
  have hsorted := sortBy_sorted key l
  refine sortBy_eq_iff.mpr ⟨?_, fun k' => ?_⟩
  · refine List.pairwise_append.mpr ⟨List.pairwise_append.mpr
      ⟨hsorted.filter _, ?_, fun a ha b hb => ?_⟩, hsorted.filter _, fun a ha b hb => ?_⟩
    · exact List.pairwise_of_forall_mem_list
        (fun a ha b hb => ((hblock a ha).trans (hblock b hb).symm).le)
    · rw [hblock b hb]
      simpa using (List.mem_filter.mp ha).2
    · have hb' : k < key b := by simpa using (List.mem_filter.mp hb).2
      rcases List.mem_append.mp ha with ha | ha
      · have ha' : key a ≤ k := by simpa using (List.mem_filter.mp ha).2
        exact (ha'.trans_lt hb').le
      · exact (hblock a ha).le.trans hb'.le
  · rw [List.filter_append, List.filter_append, List.filter_filter, List.filter_filter,
      List.filter_append, ← filter_sortBy key k' l]
    rcases lt_trichotomy k' k with hlt | rfl | hgt
    · have hnone : block.filter (fun x => key x = k') = [] :=
        List.filter_eq_nil_iff.mpr (fun a ha => by simpa [hblock a ha] using hlt.ne')
      have hbelow : (sortBy key l).filter (fun x => decide (key x = k') && decide (key x ≤ k))
          = (sortBy key l).filter (fun x => key x = k') := by
        refine List.filter_congr (fun x _ => ?_)
        by_cases hx : key x = k' <;> simp [hx, hlt.le]
      have habove : (sortBy key l).filter (fun x => decide (key x = k') && decide (k < key x))
          = [] := by
        refine List.filter_eq_nil_iff.mpr (fun x _ => ?_)
        by_cases hx : key x = k' <;> simp [hx, hlt.le]
      rw [hbelow, habove, hnone]
      simp
    · have hbelow : (sortBy key l).filter (fun x => decide (key x = k') && decide (key x ≤ k'))
          = (sortBy key l).filter (fun x => key x = k') := by
        refine List.filter_congr (fun x _ => ?_)
        by_cases hx : key x = k' <;> simp [hx]
      have habove : (sortBy key l).filter (fun x => decide (key x = k') && decide (k' < key x))
          = [] := by
        refine List.filter_eq_nil_iff.mpr (fun x _ => ?_)
        by_cases hx : key x = k' <;> simp [hx]
      rw [hbelow, habove, List.append_nil]
    · have hnone : block.filter (fun x => key x = k') = [] :=
        List.filter_eq_nil_iff.mpr (fun a ha => by simpa [hblock a ha] using hgt.ne)
      have hbelow : (sortBy key l).filter (fun x => decide (key x = k') && decide (key x ≤ k))
          = [] := by
        refine List.filter_eq_nil_iff.mpr (fun x _ => ?_)
        by_cases hx : key x = k' <;> simp [hx, hgt]
      have habove : (sortBy key l).filter (fun x => decide (key x = k') && decide (k < key x))
          = (sortBy key l).filter (fun x => key x = k') := by
        refine List.filter_congr (fun x _ => ?_)
        by_cases hx : key x = k' <;> simp [hx, hgt]
      rw [hbelow, habove, hnone]
      simp

/-- A sorted list splits at any key. -/
theorem SortedBy.split {l : List α} (h : SortedBy key l) (k : κ) :
    l = l.filter (fun x => key x ≤ k) ++ l.filter (fun x => k < key x) := by
  have hblock : sortBy key (l ++ [])
      = (sortBy key l).filter (fun x => key x ≤ k) ++ []
          ++ (sortBy key l).filter (fun x => k < key x) :=
    sortBy_append_block (by simp)
  rwa [List.append_nil, List.append_nil, sortBy_eq_self.mpr h] at hblock

/-- Lists that are permutations of each other key by key are permutations. -/
theorem perm_of_filter_perm {α κ : Type*} [DecidableEq α] [DecidableEq κ] (key : α → κ)
    {l l' : List α}
    (h : ∀ k, (l.filter (fun a => key a = k)).Perm (l'.filter (fun a => key a = k))) : l.Perm l' := by
  rw [List.perm_iff_count]
  intro a
  have hcount : ∀ l : List α, l.count a = (l.filter (fun b => key b = key a)).count a :=
    fun l => (List.count_filter (by simp)).symm
  rw [hcount l, hcount l', (h (key a)).count_eq]

/-- In a list with strictly increasing keys the element of largest key is the last one. -/
theorem argmax_eq_getLast? {l : List α} (h : l.Pairwise (fun a b => key a < key b)) :
    l.argmax key = l.getLast? := by
  induction l using List.reverseRecOn with
  | nil => rfl
  | append_singleton l a ih =>
      obtain ⟨hl, -, hlast⟩ := List.pairwise_append.mp h
      rw [List.argmax_concat, List.getLast?_concat, ih hl]
      cases hb : l.getLast? with
      | none => rfl
      | some b => exact if_pos (hlast b (List.mem_of_getLast? hb) a (by simp))

end Determined

end Foundations
