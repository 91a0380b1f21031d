import CalaLedger.Foundations.StableSort

/-! # Rows numbered in their order

Rows carry a running number that follows the order of their positions. The number of the last row
of a beginning of that order is then the size of the beginning (`Numbered.number_argmax`), so the
numbers of two such rows differ by the rows between them. -/

namespace Foundations

variable {α κ : Type*} [LinearOrder κ]

/-- Positions are distinct, and the numbers run from one in their order. -/
structure Numbered (position : α → κ) (number : α → ℕ) (rows : List α) : Prop where
  distinct : (rows.map position).Nodup
  runs : (sortBy position rows).map number = List.range' 1 rows.length

variable {position : α → κ} {number : α → ℕ} {rows : List α}

/-- The number of a row counts the rows up to it. -/
theorem Numbered.number_eq (h : Numbered position number rows) {row : α} (hrow : row ∈ rows) :
    number row = rows.countP (fun other => position other ≤ position row) := by
  have hperm := sortBy_perm position rows
  obtain ⟨front, back, hsplit⟩ := List.append_of_mem (hperm.mem_iff.mpr hrow)
  have hstrict : (front ++ row :: back).Pairwise (fun a b => position a < position b) :=
    hsplit ▸ sortBy_strict h.distinct
  obtain ⟨-, hrest, hfront⟩ := List.pairwise_append.mp hstrict
  have hcount : (front ++ row :: back).countP (fun other => position other ≤ position row)
      = front.length + 1 := by
    rw [List.countP_append, List.countP_cons_of_pos (by simp),
      List.countP_eq_length.mpr (fun other hother => ?_),
      List.countP_eq_zero.mpr (fun other hother => ?_)]
    · simpa using (List.pairwise_cons.mp hrest).1 other hother
    · simpa using (hfront other hother row List.mem_cons_self).le
  have hnumber : ((front ++ row :: back).map number)[front.length]? = some (number row) := by
    simp
  have hlength : front.length < rows.length := by
    rw [← hperm.length_eq, hsplit, List.length_append, List.length_cons]
    omega
  rw [← hsplit, h.runs, List.getElem?_range' hlength, Option.some.injEq] at hnumber
  rw [← hnumber, ← hperm.countP_eq, hsplit, hcount]
  omega

/-- The number of the last row of a beginning is the number of rows in it; without a row, none. -/
theorem Numbered.number_argmax (h : Numbered position number rows) {p : α → Bool}
    (hlower : ∀ a ∈ rows, ∀ b ∈ rows, position a ≤ position b → p b = true → p a = true) :
    ((rows.filter p).argmax position).elim 0 number = rows.countP p := by
  cases hmax : (rows.filter p).argmax position with
  | none =>
      rw [List.argmax_eq_none] at hmax
      rw [List.countP_eq_length_filter, hmax]
      rfl
  | some row =>
      obtain ⟨hrow, hp⟩ := List.mem_filter.mp (List.argmax_mem hmax)
      show number row = rows.countP p
      rw [h.number_eq hrow]
      refine List.countP_congr (fun other hother => ?_)
      rw [decide_eq_true_eq]
      constructor
      · exact fun hle => hlower other hother row hrow hle hp
      · exact fun hother' => List.le_of_mem_argmax (List.mem_filter.mpr ⟨hother, hother'⟩) hmax

/-- Counting what splits in two. -/
theorem countP_add_countP {α : Type*} {p q r : α → Bool} {l : List α}
    (h : ∀ a ∈ l, p a = (q a || r a)) (hdisjoint : ∀ a ∈ l, ¬ (q a = true ∧ r a = true)) :
    l.countP p = l.countP q + l.countP r := by
  induction l with
  | nil => rfl
  | cons a l ih =>
      have hrest := ih (fun b hb => h b (List.mem_cons_of_mem _ hb))
        (fun b hb => hdisjoint b (List.mem_cons_of_mem _ hb))
      have ha := h a List.mem_cons_self
      have hd := hdisjoint a List.mem_cons_self
      rw [List.countP_cons, List.countP_cons, List.countP_cons, hrest, ha]
      cases hq : q a <;> cases hr : r a
      · simp
      · simp
        omega
      · simp
        omega
      · exact absurd ⟨hq, hr⟩ hd

end Foundations
