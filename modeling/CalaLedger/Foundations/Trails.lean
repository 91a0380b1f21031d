import Mathlib.Data.List.Forall2
import Mathlib.Data.List.Nodup
import Mathlib.Data.List.Pairwise
import Mathlib.Data.List.Perm.Lattice
import CalaLedger.Foundations.Grouping

/-! # Counting trails with a queue

A trail starts at an item of a list of seeds and goes on to a successor, again and again; it names
positions, so a seed or a successor that is listed twice makes two trails (`Trail`). Working off a
queue, each item giving way to its successors, meets every trail once (`Worked`): an item met twice
has two trails (`Worked.exists_trails`), and if nothing is met twice until the queue is empty, trails
are unique (`trail_unique`). -/

namespace Foundations

variable {V : Type*}

/-- A trail from a list of seeds, by positions. -/
inductive Trail (next : V → List V) : List V → List ℕ → V → Prop
  | here {seeds : List V} {i : ℕ} {v : V} (h : seeds[i]? = some v) : Trail next seeds [i] v
  | step {seeds : List V} {i : ℕ} {u : V} {is : List ℕ} {v : V} (h : seeds[i]? = some u)
      (rest : Trail next (next u) is v) : Trail next seeds (i :: is) v

variable {next : V → List V} {seeds : List V} {is js : List ℕ} {u v : V}

theorem Trail.ne_nil (h : Trail next seeds is v) : is ≠ [] := by
  cases h <;> exact List.cons_ne_nil _ _

theorem Trail.snoc {i : ℕ} (h : Trail next seeds is u) (hi : (next u)[i]? = some v) :
    Trail next seeds (is ++ [i]) v := by
  induction h with
  | here hj => exact Trail.step hj (Trail.here hi)
  | step hj _ ih => exact Trail.step hj (ih hi)

/-- The first step of a trail. -/
theorem Trail.uncons {i : ℕ} (h : Trail next seeds (i :: is) v) :
    (is = [] ∧ seeds[i]? = some v) ∨ ∃ u, seeds[i]? = some u ∧ Trail next (next u) is v := by
  cases h with
  | here hi => exact Or.inl ⟨rfl, hi⟩
  | step hi rest => exact Or.inr ⟨_, hi, rest⟩

/-- The last step of a trail. -/
theorem Trail.unsnoc {i : ℕ} (h : Trail next seeds (is ++ [i]) v) :
    (is = [] ∧ seeds[i]? = some v) ∨ ∃ u, Trail next seeds is u ∧ (next u)[i]? = some v := by
  induction is generalizing seeds with
  | nil =>
      rcases h.uncons with ⟨-, hi⟩ | ⟨_, -, rest⟩
      · exact Or.inl ⟨rfl, hi⟩
      · exact absurd rfl rest.ne_nil
  | cons j is ih =>
      rcases h.uncons with ⟨hnil, -⟩ | ⟨u, hj, rest⟩
      · simp at hnil
      · rcases ih rest with ⟨rfl, hi⟩ | ⟨w, hw, hi⟩
        · exact Or.inr ⟨_, Trail.here hj, hi⟩
        · exact Or.inr ⟨w, Trail.step hj hw, hi⟩

/-- The items of a list that holds the seeds and is closed under successors are where trails lead. -/
theorem Trail.mem_of_closed {all : List V} (hseeds : seeds ⊆ all) (hnext : ∀ u ∈ all, next u ⊆ all)
    (h : Trail next seeds is v) : v ∈ all := by
  induction h with
  | here hi => exact hseeds (List.mem_of_getElem? hi)
  | step hi _ ih => exact ih (hnext _ (hseeds (List.mem_of_getElem? hi)))

/-- **Trails are unique** in a list that is closed under successors and where the seeds and all the
successors together repeat nothing. -/
theorem trail_unique {all : List V} (hnodup : (seeds ++ all.flatMap next).Nodup)
    (hseeds : seeds ⊆ all) (hnext : ∀ u ∈ all, next u ⊆ all) :
    Trail next seeds is v → Trail next seeds js v → is = js := by
  obtain ⟨hseedsNodup, hnextNodup, hdisjoint⟩ := List.nodup_append.mp hnodup
  obtain ⟨hlists, hpairs⟩ := List.nodup_flatMap.mp hnextNodup
  have hseed : ∀ {u v : V} {i j : ℕ}, u ∈ all → seeds[i]? = some v → (next u)[j]? = some v →
      False := fun hu hi hj => hdisjoint _ (List.mem_of_getElem? hi) _
    (List.mem_flatMap.mpr ⟨_, hu, List.mem_of_getElem? hj⟩) rfl
  have hsame : ∀ {u u' v : V}, u ∈ all → u' ∈ all → v ∈ next u → v ∈ next u' → u = u' := by
    intro u u' v hu hu' hv hv'
    by_contra hne
    have hsymm : Std.Symm (Function.onFun List.Disjoint next) := ⟨fun _ _ h => h.symm⟩
    exact hpairs.forall hu hu' hne hv hv'
  induction is using List.reverseRecOn generalizing v js with
  | nil => exact fun h => absurd rfl h.ne_nil
  | append_singleton is i ih =>
      intro h h'
      induction js using List.reverseRecOn with
      | nil => exact absurd rfl h'.ne_nil
      | append_singleton js j _ =>
          rcases h.unsnoc with ⟨rfl, hi⟩ | ⟨u, hu, hi⟩
          · rcases h'.unsnoc with ⟨rfl, hj⟩ | ⟨u', hu', hj⟩
            · obtain ⟨hlt, -⟩ := List.getElem?_eq_some_iff.mp hi
              rw [(List.getElem?_inj hlt hseedsNodup).mp (hi.trans hj.symm)]
            · exact (hseed (hu'.mem_of_closed hseeds hnext) hi hj).elim
          · rcases h'.unsnoc with ⟨rfl, hj⟩ | ⟨u', hu', hj⟩
            · exact (hseed (hu.mem_of_closed hseeds hnext) hj hi).elim
            · -- the trails part at no earlier point, since they take the same last step
              have huall := hu.mem_of_closed hseeds hnext
              obtain rfl := hsame huall (hu'.mem_of_closed hseeds hnext)
                (List.mem_of_getElem? hi) (List.mem_of_getElem? hj)
              obtain ⟨hlt, -⟩ := List.getElem?_eq_some_iff.mp hi
              rw [ih hu hu', (List.getElem?_inj hlt (hlists u huall)).mp (hi.trans hj.symm)]

/-! ## Working off a queue -/

/-- A queue is worked off: its items are met one after the other, and their successors queue up. -/
inductive Worked (next : V → List V) (seeds : List V) : List V → List V → Prop
  | start : Worked next seeds [] seeds
  | step {met : List V} {v : V} {queue : List V} (h : Worked next seeds met (v :: queue)) :
      Worked next seeds (met ++ [v]) (queue ++ next v)

variable {met queue : List V}

/-- What has been met or waits are the seeds and the successors of what has been met. -/
theorem Worked.perm (h : Worked next seeds met queue) :
    (met ++ queue).Perm (seeds ++ met.flatMap next) := by
  induction h with
  | start => simp
  | step _ ih =>
      rename_i met v queue _
      have hleft : met ++ [v] ++ (queue ++ next v) = met ++ v :: queue ++ next v := by simp
      have hright : seeds ++ (met ++ [v]).flatMap next = seeds ++ met.flatMap next ++ next v := by
        simp
      rw [hleft, hright]
      exact ih.append_right _

/-- The trails a list extends to, one for each successor. -/
def extensions (next : V → List V) (is : List ℕ) (v : V) : List (List ℕ) :=
  (List.range (next v).length).map (fun i => is ++ [i])

theorem mem_extensions {is' : List ℕ} :
    is' ∈ extensions next is v ↔ ∃ i < (next v).length, is' = is ++ [i] := by
  simp only [extensions, List.mem_map, List.mem_range]
  exact exists_congr (fun i => and_congr_right' eq_comm)

/-- What is known of the trails while a queue is worked off: each item met or waiting has one of its
own, and a trail is extended only after its item has been met. -/
structure Traced (next : V → List V) (seeds met queue : List V) (old new : List (List ℕ)) :
    Prop where
  nodup : (old ++ new).Nodup
  met : List.Forall₂ (fun is v => Trail next seeds is v) old met
  waiting : List.Forall₂ (fun is v => Trail next seeds is v) new queue
  extended : ∀ is i, is ≠ [] → is ++ [i] ∈ old ++ new → is ∈ old

theorem Traced.start : Traced next seeds [] seeds [] ((List.range seeds.length).map ([·])) where
  nodup := by
    rw [List.nil_append]
    exact List.nodup_range.map (fun i j h => List.singleton_inj.mp h)
  met := List.Forall₂.nil
  waiting := by
    rw [List.forall₂_iff_get]
    refine ⟨by simp, fun i h₁ h₂ => ?_⟩
    simpa using Trail.here (List.getElem?_eq_getElem h₂)
  extended := by
    intro is i hne hmem
    rw [List.nil_append, List.mem_map] at hmem
    obtain ⟨j, -, heq⟩ := hmem
    have heq : [] ++ [j] = is ++ [i] := heq
    exact absurd (List.append_inj' heq rfl).1.symm hne

theorem Traced.step {is : List ℕ} {old new : List (List ℕ)}
    (h : Traced next seeds met (v :: queue) old (is :: new)) :
    Traced next seeds (met ++ [v]) (queue ++ next v) (old ++ [is])
      (new ++ extensions next is v) := by
  obtain ⟨htrail, hwaiting⟩ := List.forall₂_cons.mp h.waiting
  have hnodup := h.nodup
  have hsame : old ++ [is] ++ new = old ++ is :: new := by simp
  have his : is ∉ old := by
    intro hmem
    exact (List.nodup_append.mp hnodup).2.2 is hmem is List.mem_cons_self rfl
  refine ⟨?_, ?_, ?_, ?_⟩
  · rw [← List.append_assoc, hsame]
    refine List.nodup_append.mpr ⟨hnodup, ?_, ?_⟩
    · exact List.nodup_range.map (fun i j heq => List.singleton_inj.mp (List.append_cancel_left heq))
    · rintro a ha b hb rfl
      obtain ⟨i, -, rfl⟩ := mem_extensions.mp hb
      exact his (h.extended is i htrail.ne_nil ha)
  · exact List.rel_append h.met (List.Forall₂.cons htrail List.Forall₂.nil)
  · refine List.rel_append hwaiting ?_
    rw [List.forall₂_iff_get]
    refine ⟨by simp [extensions], fun i h₁ h₂ => ?_⟩
    simpa [extensions] using htrail.snoc (List.getElem?_eq_getElem h₂)
  · intro js i hne hmem
    rw [← List.append_assoc, hsame, List.mem_append] at hmem
    rcases hmem with hmem | hmem
    · exact List.mem_append_left _ (h.extended js i hne hmem)
    · obtain ⟨j, -, heq⟩ := mem_extensions.mp hmem
      obtain ⟨rfl, -⟩ := List.append_inj' heq rfl
      exact List.mem_append_right _ List.mem_cons_self

/-- **Every item met or waiting has a trail of its own.** -/
theorem Worked.traced (h : Worked next seeds met queue) :
    ∃ old new, Traced next seeds met queue old new := by
  induction h with
  | start => exact ⟨_, _, Traced.start⟩
  | step _ ih =>
      obtain ⟨old, new, htraced⟩ := ih
      obtain ⟨is, new', -, -, rfl⟩ := List.forall₂_cons_right_iff.mp htraced.waiting
      exact ⟨_, _, htraced.step⟩

/-- The trails of the items met or waiting, by position. -/
theorem Traced.trail {old new : List (List ℕ)} (h : Traced next seeds met queue old new) :
    (old ++ new).length = (met ++ queue).length ∧ ∀ (i : ℕ) is v, (old ++ new)[i]? = some is →
      (met ++ queue)[i]? = some v → Trail next seeds is v := by
  obtain ⟨hlength, htrails⟩ := List.forall₂_iff_get.mp (List.rel_append h.met h.waiting)
  refine ⟨hlength, fun i is v his hv => ?_⟩
  obtain ⟨hi, rfl⟩ := List.getElem?_eq_some_iff.mp his
  obtain ⟨hi', rfl⟩ := List.getElem?_eq_some_iff.mp hv
  exact htrails i hi hi'

/-- An item met or waiting has a trail. -/
theorem Worked.exists_trail (h : Worked next seeds met queue) (hv : v ∈ met ++ queue) :
    ∃ is, Trail next seeds is v := by
  obtain ⟨old, new, htraced⟩ := h.traced
  obtain ⟨hlength, htrail⟩ := htraced.trail
  obtain ⟨i, hi⟩ := List.getElem?_of_mem hv
  obtain ⟨hlt, -⟩ := List.getElem?_eq_some_iff.mp hi
  exact ⟨_, htrail i _ v (List.getElem?_eq_getElem (hlength ▸ hlt)) hi⟩

/-- **An item met or waiting twice has two trails.** -/
theorem Worked.exists_trails (h : Worked next seeds met queue) (htwice : ¬ (met ++ queue).Nodup) :
    ∃ v is js, is ≠ js ∧ Trail next seeds is v ∧ Trail next seeds js v := by
  obtain ⟨old, new, htraced⟩ := h.traced
  obtain ⟨hlength, htrail⟩ := htraced.trail
  by_contra hnone
  push Not at hnone
  refine htwice (List.pairwise_iff_getElem.mpr (fun i j hi hj hlt heq => ?_))
  have hi' := List.getElem?_eq_getElem (hlength ▸ hi)
  have hj' := List.getElem?_eq_getElem (hlength ▸ hj)
  have htrails := List.pairwise_iff_getElem.mp htraced.nodup i j (hlength ▸ hi) (hlength ▸ hj) hlt
  exact hnone _ _ _ htrails (htrail i _ _ hi' (List.getElem?_eq_getElem hi))
    (htrail j _ _ hj' (heq ▸ List.getElem?_eq_getElem hj))

/-- A queue worked off without meeting anything twice leaves trails unique. -/
theorem Worked.trail_unique (h : Worked next seeds met []) (hnodup : met.Nodup) :
    Trail next seeds is v → Trail next seeds js v → is = js := by
  have hperm := h.perm
  rw [List.append_nil] at hperm
  refine Foundations.trail_unique (hperm.nodup_iff.mp hnodup) (fun w hw => ?_) (fun u hu w hw => ?_)
  · exact hperm.mem_iff.mpr (List.mem_append_left _ hw)
  · exact hperm.mem_iff.mpr (List.mem_append_right _ (List.mem_flatMap.mpr ⟨u, hu, hw⟩))

/-- Distinct items met are bounded by the seeds and the arcs: `sources` names the items the arcs leave
from, each as often as it has successors. -/
theorem Worked.length_le [DecidableEq V] (h : Worked next seeds met queue) (hnodup : met.Nodup)
    {sources : List V} (hnext : ∀ v, (next v).length ≤ sources.count v) :
    met.length + queue.length ≤ seeds.length + sources.length := by
  have hlength := h.perm.length_eq
  rw [List.length_append, List.length_append] at hlength
  have hperm := perm_flatMap_filter_key id hnodup (l := sources)
  have harcs : ∀ met : List V, (met.flatMap next).length
      ≤ (met.flatMap (fun u => sources.filter (fun s => id s = u))).length := by
    intro met
    induction met with
    | nil => exact Nat.le_refl _
    | cons u met ih =>
        have hu : (next u).length ≤ (sources.filter (fun s => id s = u)).length := by
          refine Nat.le_trans (hnext u) (Nat.le_of_eq ?_)
          rw [← List.countP_eq_length_filter, List.count]
          exact List.countP_congr (fun s _ => by simp)
        rw [List.flatMap_cons, List.flatMap_cons, List.length_append, List.length_append]
        exact Nat.add_le_add hu ih
  have htotal := hperm.length_eq
  have harcs := harcs met
  rw [List.length_append] at htotal
  omega

end Foundations
