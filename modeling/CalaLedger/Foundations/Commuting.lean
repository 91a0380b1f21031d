import CalaLedger.Foundations.Grouping

/-! # Commuting steps

Partial steps whose items carry a key, such that items of different keys commute. A run then
depends only on the order of the items within each key (`foldlM_eq_of_filter_eq`); in particular it
may be done group by group (`foldlM_groupBy`). -/

namespace Foundations

variable {α κ σ : Type*} [DecidableEq κ]

/-- Items of different keys may be exchanged, failures included. -/
def Commuting (key : α → κ) (step : σ → α → Option σ) : Prop :=
  ∀ s a b, key a ≠ key b → (step s a).bind (step · b) = (step s b).bind (step · a)

section Commuting

variable {key : α → κ} {step : σ → α → Option σ}

omit [DecidableEq κ] in
/-- An item moves in front of items of other keys. -/
theorem foldlM_moveFront (hstep : Commuting key step) (a : α) (back : List α) (front : List α) :
    (∀ b ∈ front, key b ≠ key a) → ∀ s, (front ++ a :: back).foldlM step s
      = (a :: (front ++ back)).foldlM step s := by
  induction front with
  | nil => exact fun _ _ => rfl
  | cons b front ih =>
      intro hother s
      have hrest := ih (fun c hc => hother c (List.mem_cons_of_mem _ hc))
      have hswap := hstep s b a (hother b List.mem_cons_self)
      calc (b :: front ++ a :: back).foldlM step s
          = (step s b).bind (fun s => (a :: (front ++ back)).foldlM step s) := by
            rw [List.cons_append, List.foldlM_cons]
            exact congrArg _ (funext hrest)
        _ = ((step s b).bind (step · a)).bind (fun s => (front ++ back).foldlM step s) := by
            rw [Option.bind_assoc]
            rfl
        _ = ((step s a).bind (step · b)).bind (fun s => (front ++ back).foldlM step s) := by
            rw [hswap]
        _ = (a :: (b :: front ++ back)).foldlM step s := by
            rw [Option.bind_assoc]
            rfl

/-- **Only the order within a key matters.** -/
theorem foldlM_eq_of_filter_eq (hstep : Commuting key step) (l : List α) :
    ∀ {l' : List α}, (∀ k, l.filter (fun a => key a = k) = l'.filter (fun a => key a = k)) →
      ∀ s, l.foldlM step s = l'.foldlM step s := by
  induction l with
  | nil =>
      intro l' h s
      cases l' with
      | nil => rfl
      | cons a l' =>
          have ha := h (key a)
          rw [List.filter_cons_of_pos (by simp)] at ha
          cases ha
  | cons a l ih =>
      intro l' h s
      -- the first item of its key in the other list is the same item
      have hfirst := h (key a)
      rw [List.filter_cons_of_pos (by simp)] at hfirst
      obtain ⟨front, back, rfl, hfront, -, hback⟩ := List.filter_eq_cons_iff.mp hfirst.symm
      have hother : ∀ b ∈ front, key b ≠ key a := fun b hb => by simpa using hfront b hb
      rw [foldlM_moveFront hstep a back front hother, List.foldlM_cons, List.foldlM_cons]
      refine congrArg _ (funext (fun s => ih (fun k => ?_) s))
      have hk := h k
      by_cases hka : key a = k
      · subst hka
        have hnone : front.filter (fun b => key b = key a) = [] :=
          List.filter_eq_nil_iff.mpr (fun b hb => by simpa using hother b hb)
        rw [List.filter_append, hnone, hback, List.nil_append]
      · rw [List.filter_cons_of_neg (by simpa using hka), List.filter_append,
          List.filter_cons_of_neg (by simpa using hka), ← List.filter_append] at hk
        exact hk

/-- The items of one key among all groups, put one after the other. -/
theorem filter_flatMap_groupBy (l : List α) (k : κ) :
    ((groupBy key (fun a => [a]) l).flatMap Prod.snd).filter (fun a => key a = k)
      = l.filter (fun a => key a = k) := by
  have hitems : ∀ k, itemsOf key (fun a => [a]) l k = l.filter (fun a => key a = k) :=
    fun k => List.flatMap_singleton' _
  have hown : ∀ group ∈ groupBy key (fun a => [a]) l,
      group.2.filter (fun a => key a = k) = if group.1 = k then group.2 else [] := by
    rintro ⟨k', group⟩ hmem
    obtain ⟨-, rfl⟩ := mem_groupBy.mp hmem
    rw [hitems, List.filter_filter]
    by_cases hk : k' = k
    · subst hk
      rw [if_pos rfl]
      exact List.filter_congr (fun a _ => by simp)
    · rw [if_neg hk, List.filter_eq_nil_iff]
      intro a _ h
      simp only [Bool.and_eq_true, decide_eq_true_eq] at h
      exact hk (h.2.symm.trans h.1)
  rw [List.filter_flatMap, List.flatMap_congr hown, flatMap_groupBy (f := fun items => items) rfl,
    hitems]

/-- **A run may be done group by group.** -/
theorem foldlM_groupBy (hstep : Commuting key step) (l : List α) (s : σ) :
    (groupBy key (fun a => [a]) l).foldlM (fun s group => group.2.foldlM step s) s
      = l.foldlM step s := by
  have hflatten : ∀ (groups : List (κ × List α)) (s : σ),
      groups.foldlM (fun s group => group.2.foldlM step s) s
        = (groups.flatMap Prod.snd).foldlM step s := by
    intro groups
    induction groups with
    | nil => exact fun _ => rfl
    | cons group groups ih =>
        intro s
        rw [List.foldlM_cons, List.flatMap_cons, List.foldlM_append]
        exact congrArg _ (funext ih)
  rw [hflatten]
  exact foldlM_eq_of_filter_eq hstep _ (filter_flatMap_groupBy l) s

end Commuting

end Foundations
