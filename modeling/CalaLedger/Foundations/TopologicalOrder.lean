import CalaLedger.Foundations.Multigraph

/-! # Topological orders

A list of nodes in which every edge into a listed node leaves a node listed before it. A multigraph
that has one listing every node an edge leads to is acyclic (`Topological.acyclic`); taken in such
an order, the edges out of a node come after all the edges into it
(`Topological.into_of_split`). -/

namespace Foundations

open Arrow

variable {ε V : Type*} [Arrow ε V V]

/-- Every edge into a listed node leaves a node listed before it. -/
def Topological (edges : List ε) (order : List V) : Prop :=
  ∀ front v back, order = front ++ v :: back → ∀ e ∈ edges, dst e = v → src e ∈ front

variable {edges : List ε} {order : List V}

theorem Topological.snoc (h : Topological edges order) {v : V}
    (hv : ∀ e ∈ edges, dst e = v → src e ∈ order) : Topological edges (order ++ [v]) := by
  intro front w back hsplit
  induction back using List.reverseRecOn with
  | nil =>
      obtain ⟨rfl, hlast⟩ := List.append_inj' hsplit rfl
      obtain rfl := List.singleton_inj.mp hlast
      exact hv
  | append_singleton back x _ =>
      rw [← List.cons_append, ← List.append_assoc] at hsplit
      exact h front w back (List.append_inj' hsplit rfl).1

theorem Topological.of_roots {roots : List V} (h : ∀ v ∈ roots, ∀ e ∈ edges, dst e ≠ v) :
    Topological edges roots := by
  rintro front v back rfl e he heq
  exact absurd heq (h v (by simp) e he)

/-- **A multigraph with a topological order is acyclic**: positions grow along the edges. -/
theorem Topological.acyclic (h : Topological edges order) (hall : ∀ e ∈ edges, dst e ∈ order) :
    Acyclic edges := by
  classical
  have hstep : ∀ e ∈ edges, order.idxOf (src e) < order.idxOf (dst e) := by
    intro e he
    obtain ⟨front, back, hsplit, hnew⟩ := List.eq_append_cons_of_mem (hall e he)
    have hsrc := h front _ back hsplit e he rfl
    rw [hsplit, List.idxOf_append_of_mem hsrc, List.idxOf_append_of_notMem hnew]
    have := List.idxOf_lt_length_of_mem hsrc
    omega
  have hreach : ∀ {u v}, Reach edges u v → order.idxOf u ≤ order.idxOf v := by
    intro u v hreach
    induction hreach with
    | refl => exact Nat.le_refl _
    | tail _ hlead ih =>
        obtain ⟨e, he, rfl, rfl⟩ := hlead
        exact Nat.le_trans ih (Nat.le_of_lt (hstep e he))
  refine acyclic_iff.mpr (fun e he hback => ?_)
  exact absurd (hreach hback) (Nat.not_le.mpr (hstep e he))

section Edges

variable [DecidableEq V]

/-- The edges out of the nodes of a complete order are all the edges. -/
theorem perm_edges_of_order (hnodup : order.Nodup) (hall : ∀ e ∈ edges, src e ∈ order) :
    (order.flatMap (edgesFrom edges)).Perm edges := by
  have hperm := perm_flatMap_edgesFrom edges hnodup
  rwa [List.filter_eq_nil_iff.mpr (fun e he => by simpa using hall e he), List.append_nil] at hperm

/-- When a node is reached in a topological order, every edge into it leaves a node before it. -/
theorem Topological.into_of_split (h : Topological edges order) {front back : List V} {v : V}
    (hsplit : order = front ++ v :: back) {e : ε} (he : e ∈ edges) (hdst : dst e = v) :
    e ∈ front.flatMap (edgesFrom edges) :=
  List.mem_flatMap.mpr ⟨src e, h front v back hsplit e he hdst, mem_edgesFrom.mpr ⟨he, rfl⟩⟩

end Edges

end Foundations
