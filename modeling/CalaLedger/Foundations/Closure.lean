import Mathlib.Data.List.Dedup
import Mathlib.Data.List.Flatten
import Mathlib.Data.List.Perm.Subperm
import Mathlib.Logic.Relation

/-! # Recursive union

The fixed point behind SQL's `WITH RECURSIVE ... UNION`: rows found in one round produce the rows
of the next, rows already known are dropped, and the walk ends when a round finds nothing new.
`recursiveUnion_spec` says that it computes reachability, whatever cycles the successor relation
has. With `UNION ALL` rows are not dropped (`recursiveUnionAll`), and the walk ends only when a round
finds nothing at all. -/

namespace Foundations

variable {α : Type*} [DecidableEq α]

/-- One round of a recursive union: the successors of the fresh rows that are not known yet. -/
def newRows (next : α → List α) (known fresh : List α) : List α :=
  (fresh.flatMap next).dedup.filter (· ∉ known)

/-- Rounds of a recursive union, at most `fuel` of them. -/
def recursiveUnionAux (next : α → List α) : ℕ → List α → List α → List α
  | 0, known, _ => known
  | fuel + 1, known, fresh =>
      if newRows next known fresh = [] then known
      else recursiveUnionAux next fuel (known ++ newRows next known fresh)
        (newRows next known fresh)

/-- The recursive union of `seeds` under `next`; `bound` is at least the number of rows it has. -/
def recursiveUnion (next : α → List α) (bound : ℕ) (seeds : List α) : List α :=
  recursiveUnionAux next bound seeds.dedup seeds.dedup

section RecursiveUnion

variable {next : α → List α}

theorem mem_newRows {known fresh : List α} {x : α} :
    x ∈ newRows next known fresh ↔ (∃ y ∈ fresh, x ∈ next y) ∧ x ∉ known := by
  simp [newRows]

/-- What a walk knows between two rounds: no row twice, every row reachable, and only the fresh
rows may have successors that are not known. -/
structure WalkInvariant (next : α → List α) (seeds rows known fresh : List α) : Prop where
  nodup : known.Nodup
  bounded : known ⊆ rows
  seeded : seeds ⊆ known
  pending : fresh ⊆ known
  reached : ∀ x ∈ known, ∃ s ∈ seeds, Relation.ReflTransGen (fun a b => b ∈ next a) s x
  closed : ∀ x ∈ known, x ∉ fresh → next x ⊆ known

/-- A universe of the walk: it holds the seeds and, with a row, its successors. -/
structure Universe (next : α → List α) (seeds rows : List α) : Prop where
  seeds : seeds ⊆ rows
  next : ∀ x ∈ rows, next x ⊆ rows

theorem WalkInvariant.initial {seeds rows : List α} (hu : Universe next seeds rows) :
    WalkInvariant next seeds rows seeds.dedup seeds.dedup where
  nodup := List.nodup_dedup _
  bounded := fun _ hx => hu.seeds (List.mem_dedup.mp hx)
  seeded := fun _ hx => List.mem_dedup.mpr hx
  pending := List.Subset.refl _
  reached := fun x hx => ⟨x, List.mem_dedup.mp hx, .refl⟩
  closed := fun _ hx hfresh => absurd hx hfresh

theorem WalkInvariant.round {seeds rows known fresh : List α}
    (hu : Universe next seeds rows) (h : WalkInvariant next seeds rows known fresh) :
    WalkInvariant next seeds rows (known ++ newRows next known fresh)
      (newRows next known fresh) where
  nodup := by
    refine List.nodup_append.mpr ⟨h.nodup, (List.nodup_dedup _).filter _, ?_⟩
    rintro x hx y hy rfl
    exact (mem_newRows.mp hy).2 hx
  bounded := by
    intro x hx
    rcases List.mem_append.mp hx with hx | hx
    · exact h.bounded hx
    · obtain ⟨⟨y, hy, hnext⟩, -⟩ := mem_newRows.mp hx
      exact hu.next y (h.bounded (h.pending hy)) hnext
  seeded := fun _ hx => List.mem_append_left _ (h.seeded hx)
  pending := fun _ hx => List.mem_append_right _ hx
  reached := by
    intro x hx
    rcases List.mem_append.mp hx with hx | hx
    · exact h.reached x hx
    · obtain ⟨⟨y, hy, hnext⟩, -⟩ := mem_newRows.mp hx
      obtain ⟨s, hs, hpath⟩ := h.reached y (h.pending hy)
      exact ⟨s, hs, hpath.tail hnext⟩
  closed := by
    intro x hx hfresh y hy
    rcases List.mem_append.mp hx with hx | hx
    · -- a row of an earlier round: its successors are known or found in this one
      by_cases hold : x ∈ fresh
      · by_cases hknown : y ∈ known
        · exact List.mem_append_left _ hknown
        · exact List.mem_append_right _ (mem_newRows.mpr ⟨⟨x, hold, hy⟩, hknown⟩)
      · exact List.mem_append_left _ (h.closed x hx hold hy)
    · exact absurd hx hfresh

/-- A walk that has stopped is closed under successors. -/
theorem closed_recursiveUnionAux {seeds rows : List α} (hu : Universe next seeds rows)
    (fuel : ℕ) : ∀ {known fresh : List α}, WalkInvariant next seeds rows known fresh →
      rows.length ≤ known.length + fuel →
      WalkInvariant next seeds rows (recursiveUnionAux next fuel known fresh) [] := by
  induction fuel with
  | zero =>
      intro known fresh h hfuel
      have hall : ∀ x ∈ rows, x ∈ known := by
        have hperm := (List.Nodup.subperm h.nodup h.bounded).perm_of_length_le hfuel
        exact fun x hx => hperm.mem_iff.mpr hx
      exact { h with
        pending := List.nil_subset _
        closed := fun x hx _ y hy => hall y (hu.next x (h.bounded hx) hy) }
  | succ fuel ih =>
      intro known fresh h hfuel
      rw [recursiveUnionAux]
      by_cases hnil : newRows next known fresh = []
      · rw [if_pos hnil]
        refine { h with pending := List.nil_subset _, closed := fun x hx _ y hy => ?_ }
        by_cases hfresh : x ∈ fresh
        · by_contra hknown
          have hnew : y ∈ newRows next known fresh := mem_newRows.mpr ⟨⟨x, hfresh, hy⟩, hknown⟩
          rw [hnil] at hnew
          cases hnew
        · exact h.closed x hx hfresh hy
      · rw [if_neg hnil]
        refine ih (h.round hu) ?_
        have hpos : 0 < (newRows next known fresh).length := List.length_pos_of_ne_nil hnil
        rw [List.length_append]
        omega

/-- **The walk computes reachability** and lists every row once. -/
theorem recursiveUnion_spec {seeds rows : List α} (hu : Universe next seeds rows)
    {bound : ℕ} (hbound : rows.length ≤ bound) :
    (recursiveUnion next bound seeds).Nodup
      ∧ ∀ x, x ∈ recursiveUnion next bound seeds
          ↔ ∃ s ∈ seeds, Relation.ReflTransGen (fun a b => b ∈ next a) s x := by
  have h := closed_recursiveUnionAux hu bound (WalkInvariant.initial hu)
    (Nat.le_trans hbound (Nat.le_add_left _ _))
  refine ⟨h.nodup, fun x => ⟨h.reached x, ?_⟩⟩
  rintro ⟨s, hs, hpath⟩
  induction hpath with
  | refl => exact h.seeded hs
  | tail _ hstep ih => exact h.closed _ ih List.not_mem_nil hstep

end RecursiveUnion

/-! ## Without dropping rows -/

section RecursiveUnionAll

variable {α : Type*}

/-- The recursive `UNION ALL` of a frontier; `none` when the rounds do not end within the fuel. -/
def recursiveUnionAll (next : α → List α) : ℕ → List α → Option (List α)
  | _, [] => some []
  | 0, _ :: _ => none
  | fuel + 1, x :: frontier =>
      (recursiveUnionAll next fuel ((x :: frontier).flatMap next)).map (x :: frontier ++ ·)

variable {next : α → List α}

@[simp] theorem recursiveUnionAll_nil (fuel : ℕ) : recursiveUnionAll next fuel [] = some [] := by
  cases fuel <;> rfl

theorem recursiveUnionAll_succ (fuel : ℕ) (frontier : List α) :
    recursiveUnionAll next (fuel + 1) frontier
      = (recursiveUnionAll next fuel (frontier.flatMap next)).map (frontier ++ ·) := by
  cases frontier with
  | nil => simp
  | cons x frontier => rfl

/-- More fuel finds the same rows. -/
theorem recursiveUnionAll_mono {fuel fuel' : ℕ} (hle : fuel ≤ fuel') {frontier rows : List α}
    (h : recursiveUnionAll next fuel frontier = some rows) :
    recursiveUnionAll next fuel' frontier = some rows := by
  induction fuel generalizing fuel' frontier rows with
  | zero =>
      cases frontier with
      | nil => simpa using h
      | cons x frontier => cases h
  | succ fuel ih =>
      obtain ⟨fuel', rfl⟩ : ∃ n, fuel' = n + 1 := ⟨fuel' - 1, by omega⟩
      rw [recursiveUnionAll_succ, Option.map_eq_some_iff] at h ⊢
      obtain ⟨rest, hrest, rfl⟩ := h
      exact ⟨rest, ih (by omega) hrest, rfl⟩

/-- The rounds end when chains of successors are bounded: `P n x` says that those from `x` are
shorter than `n`. -/
theorem recursiveUnionAll_ends {P : ℕ → α → Prop} (hzero : ∀ x, ¬ P 0 x)
    (hnext : ∀ n x, P (n + 1) x → ∀ y ∈ next x, P n y) :
    ∀ (fuel : ℕ) {frontier : List α}, (∀ x ∈ frontier, P fuel x) →
      ∃ rows, recursiveUnionAll next fuel frontier = some rows := by
  intro fuel
  induction fuel with
  | zero =>
      intro frontier h
      cases frontier with
      | nil => exact ⟨[], rfl⟩
      | cons x frontier => exact absurd (h x List.mem_cons_self) (hzero x)
  | succ fuel ih =>
      intro frontier h
      have hfrontier : ∀ y ∈ frontier.flatMap next, P fuel y := by
        intro y hy
        obtain ⟨x, hx, hy⟩ := List.mem_flatMap.mp hy
        exact hnext fuel x (h x hx) y hy
      obtain ⟨rest, hrest⟩ := ih hfrontier
      exact ⟨frontier ++ rest, by rw [recursiveUnionAll_succ, hrest]; rfl⟩

/-- **The rows are the seeds and the successors of the rows**, each as often as it is found. -/
theorem perm_of_recursiveUnionAll {fuel : ℕ} {frontier rows : List α}
    (h : recursiveUnionAll next fuel frontier = some rows) :
    rows.Perm (frontier ++ rows.flatMap next) := by
  induction fuel generalizing frontier rows with
  | zero =>
      cases frontier with
      | nil => cases h; exact List.Perm.refl _
      | cons x frontier => cases h
  | succ fuel ih =>
      rw [recursiveUnionAll_succ, Option.map_eq_some_iff] at h
      obtain ⟨rest, hrest, rfl⟩ := h
      rw [List.flatMap_append]
      exact (ih hrest).append_left _

/-- Rows are never more than those of a list that holds the seeds and the successors of its own
items. -/
theorem subperm_of_recursiveUnionAll {seeds all : List α}
    (hall : (seeds ++ all.flatMap next).Subperm all) {fuel : ℕ} :
    ∀ (found : List α) {frontier rows : List α}, (found ++ frontier).Perm (seeds ++ found.flatMap next) →
      (found ++ frontier).Subperm all → recursiveUnionAll next fuel frontier = some rows →
      (found ++ rows).Subperm all := by
  induction fuel with
  | zero =>
      intro found frontier rows _ hsub h
      cases frontier with
      | nil => cases h; exact hsub
      | cons x frontier => cases h
  | succ fuel ih =>
      intro found frontier rows hperm hsub h
      rw [recursiveUnionAll_succ, Option.map_eq_some_iff] at h
      obtain ⟨rest, hrest, rfl⟩ := h
      have hperm' : (found ++ frontier ++ frontier.flatMap next).Perm
          (seeds ++ (found ++ frontier).flatMap next) := by
        rw [List.flatMap_append, ← List.append_assoc]
        exact hperm.append_right _
      have hflat : ((found ++ frontier).flatMap next).Subperm (all.flatMap next) := by
        obtain ⟨l, hl, hsublist⟩ := hsub
        exact ⟨l.flatMap next, hl.flatMap_right _, hsublist.flatMap _⟩
      rw [← List.append_assoc]
      refine ih _ hperm' (hperm'.subperm.trans (List.Subperm.trans ?_ hall)) hrest
      exact List.Subperm.append (List.Subperm.refl _) hflat

end RecursiveUnionAll

end Foundations
