import CalaLedger.Foundations.Multigraph

/-! # Parts of a multigraph

A part of the nodes that no edge leaves or enters: walks stay on the side they start on
(`Walk.confined`), so that cycles, depth and merging links can be judged on the edges of each side
alone. Edges are added within the part (`Split`): what was acyclic, shallow or apart before is so
afterwards exactly when the part is. -/

namespace Foundations

open Arrow

variable {ε V : Type*} [Arrow ε V V]

/-- Edges that lead from inside a set of nodes to inside of it. -/
def Within (C : V → Prop) (edges : List ε) : Prop := ∀ e ∈ edges, C (src e) ∧ C (dst e)

theorem Within.append {C : V → Prop} {edges edges' : List ε} (h : Within C edges)
    (h' : Within C edges') : Within C (edges ++ edges') := by
  intro e he
  rcases List.mem_append.mp he with he | he
  · exact h e he
  · exact h' e he

/-- The edges of a multigraph on the two sides of a set of nodes. -/
structure Split (C : V → Prop) (edges inside outside : List ε) : Prop where
  perm : edges.Perm (inside ++ outside)
  inside : Within C inside
  outside : Within (fun v => ¬ C v) outside

variable {C : V → Prop} {edges inside outside : List ε} {u v : V} {is : List ℕ}

/-- Edges added inside. -/
theorem Split.append (h : Split C edges inside outside) {added : List ε} (hadded : Within C added) :
    Split C (edges ++ added) (inside ++ added) outside where
  perm := by
    have hswap : (inside ++ outside ++ added).Perm (inside ++ added ++ outside) := by
      rw [List.append_assoc, List.append_assoc]
      exact List.perm_append_comm.append_left _
    exact (h.perm.append_right _).trans hswap
  inside := h.inside.append hadded
  outside := h.outside

theorem Split.inside_subset (h : Split C edges inside outside) : inside ⊆ edges :=
  fun _ he => h.perm.mem_iff.mpr (List.mem_append_left _ he)

theorem Split.outside_subset (h : Split C edges inside outside) : outside ⊆ edges :=
  fun _ he => h.perm.mem_iff.mpr (List.mem_append_right _ he)

/-- **A walk stays on its side.** -/
theorem Walk.confined (h : Split C edges inside outside) (hwalk : Walk edges u is v) :
    (C u ∧ C v ∧ ∃ js, Walk inside u js v ∧ js.length = is.length)
      ∨ (¬ C u ∧ ¬ C v ∧ ∃ js, Walk outside u js v ∧ js.length = is.length) := by
  induction hwalk with
  | nil u =>
      by_cases hu : C u
      · exact Or.inl ⟨hu, hu, [], Walk.nil u, rfl⟩
      · exact Or.inr ⟨hu, hu, [], Walk.nil u, rfl⟩
  | cons he _ ih =>
      rcases List.mem_append.mp (h.perm.mem_iff.mp (List.mem_of_getElem? he)) with hmem | hmem
      · obtain ⟨hsrc, hdst⟩ := h.inside _ hmem
        obtain ⟨-, hv, js, hjs, hlength⟩ := ih.resolve_right (fun hout => hout.1 hdst)
        obtain ⟨j, hj⟩ := List.getElem?_of_mem hmem
        exact Or.inl ⟨hsrc, hv, j :: js, Walk.cons hj hjs, congrArg (· + 1) hlength⟩
      · obtain ⟨hsrc, hdst⟩ := h.outside _ hmem
        obtain ⟨-, hv, js, hjs, hlength⟩ := ih.resolve_left (fun hin => hdst hin.1)
        obtain ⟨j, hj⟩ := List.getElem?_of_mem hmem
        exact Or.inr ⟨hsrc, hv, j :: js, Walk.cons hj hjs, congrArg (· + 1) hlength⟩

theorem Reach.confined (h : Split C edges inside outside) (hreach : Reach edges u v) :
    (C u ∧ C v ∧ Reach inside u v) ∨ (¬ C u ∧ ¬ C v ∧ Reach outside u v) := by
  obtain ⟨is, hwalk⟩ := hreach.exists_walk
  exact (hwalk.confined h).imp (fun ⟨hu, hv, js, hjs, _⟩ => ⟨hu, hv, hjs.reach⟩)
    (fun ⟨hu, hv, js, hjs, _⟩ => ⟨hu, hv, hjs.reach⟩)

theorem Split.acyclic_iff (h : Split C edges inside outside) :
    Acyclic edges ↔ Acyclic inside ∧ Acyclic outside := by
  constructor
  · exact fun hall => ⟨hall.mono h.inside_subset, hall.mono h.outside_subset⟩
  · rintro ⟨hinside, houtside⟩ u is hwalk
    rcases hwalk.confined h with ⟨-, -, js, hjs, hlength⟩ | ⟨-, -, js, hjs, hlength⟩
    · rw [hinside u js hjs] at hlength
      exact List.length_eq_zero_iff.mp hlength.symm
    · rw [houtside u js hjs] at hlength
      exact List.length_eq_zero_iff.mp hlength.symm

theorem Split.depthAtMost_iff (h : Split C edges inside outside) {d : ℕ} :
    DepthAtMost edges d ↔ DepthAtMost inside d ∧ DepthAtMost outside d := by
  constructor
  · exact fun hall => ⟨hall.mono h.inside_subset, hall.mono h.outside_subset⟩
  · rintro ⟨hinside, houtside⟩ u is v hwalk
    rcases hwalk.confined h with ⟨-, -, js, hjs, hlength⟩ | ⟨-, -, js, hjs, hlength⟩
    · exact hlength ▸ hinside u js v hjs
    · exact hlength ▸ houtside u js v hjs

/-- Links merge on one side. -/
theorem Split.merges {μ W : Type*} [Arrow μ V W] (h : Split C edges inside outside) {x y : μ}
    (hmerge : Merges edges x y) :
    (C (src x) ∧ C (src y) ∧ Merges inside x y)
      ∨ (¬ C (src x) ∧ ¬ C (src y) ∧ Merges outside x y) := by
  obtain ⟨hdst, u, hx, hy⟩ := hmerge
  rcases hx.confined h with ⟨hu, hxC, hx⟩ | ⟨hu, hxC, hx⟩
  · rcases hy.confined h with ⟨-, hyC, hy⟩ | ⟨hnot, -⟩
    · exact Or.inl ⟨hxC, hyC, hdst, u, hx, hy⟩
    · exact absurd hu hnot
  · rcases hy.confined h with ⟨hC, -⟩ | ⟨-, hyC, hy⟩
    · exact absurd hC hu
    · exact Or.inr ⟨hxC, hyC, hdst, u, hx, hy⟩

theorem Split.apart_iff (h : Split C edges inside outside) :
    Apart edges edges ↔ Apart inside inside ∧ Apart outside outside := by
  rw [apart_perm (List.Subset.refl edges) (List.Subset.refl _) h.perm]
  constructor
  · exact fun hall => ⟨hall.mono h.inside_subset (List.sublist_append_left _ _),
      hall.mono h.outside_subset (List.sublist_append_right _ _)⟩
  · rintro ⟨hinside, houtside⟩
    refine List.pairwise_append.mpr ⟨hinside.imp_of_mem ?_, houtside.imp_of_mem ?_, ?_⟩
    · intro x y hx _ hapart hmerge
      rcases h.merges hmerge with ⟨-, -, hmerge⟩ | ⟨hnot, -⟩
      · exact hapart hmerge
      · exact hnot (h.inside x hx).1
    · intro x y hx _ hapart hmerge
      rcases h.merges hmerge with ⟨hC, -⟩ | ⟨-, -, hmerge⟩
      · exact (h.outside x hx).1 hC
      · exact hapart hmerge
    · rintro x hx y hy ⟨hdst, -⟩
      exact (h.outside y hy).2 (hdst ▸ (h.inside x hx).2)

end Foundations
