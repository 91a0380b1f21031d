import CalaLedger.Foundations.Multigraph
import Mathlib.Data.List.Count

/-! # Exploring a graph from a stack

A stack of pending nodes and a set of visited ones: the node on top is dropped when it was visited
before, and its successors are pushed otherwise. The search may stop at a node it looks for. A graph
with finitely many arcs is explored in as many steps as there are nodes on the stack and arcs that
leave an unvisited node, and what has been visited then is what can be reached
(`explore_spec`; `explore_edges` along the edges of a multigraph). -/

namespace Foundations

variable {V : Type*}

/-- Explore from a stack, its top first; tells whether a node to stop at was met, and what was
visited. `none` when the fuel does not suffice. -/
def explore [DecidableEq V] (next : V → List V) (stop : V → Bool) :
    ℕ → List V → List V → Option (Bool × List V)
  | _, visited, [] => some (false, visited)
  | 0, _, _ :: _ => none
  | fuel + 1, visited, v :: pending =>
      if stop v then some (true, visited)
      else if v ∈ visited then explore next stop fuel visited pending
      else explore next stop fuel (v :: visited) ((next v).reverse ++ pending)

/-- A node can be reached from another. -/
def Reachable (next : V → List V) : V → V → Prop := Relation.ReflTransGen (fun a b => b ∈ next a)

section Explore

variable {next : V → List V} {visited pending : List V} {u v : V}

/-- What an exploration has visited or may still visit. -/
def InScope (next : V → List V) (visited pending : List V) (u : V) : Prop :=
  u ∈ visited ∨ ∃ s ∈ pending, Reachable next s u

/-- A visited node has its successors visited or pending. -/
def Closed (next : V → List V) (visited pending : List V) : Prop :=
  ∀ x ∈ visited, ∀ y ∈ next x, y ∈ visited ∨ y ∈ pending

theorem Closed.inScope (h : Closed next visited pending) (hv : v ∈ visited)
    (hreach : Reachable next v u) : InScope next visited pending u := by
  induction hreach with
  | refl => exact Or.inl hv
  | tail _ hstep ih =>
      rcases ih with hvisited | ⟨s, hs, hreach⟩
      · rcases h _ hvisited _ hstep with hvisited | hpending
        · exact Or.inl hvisited
        · exact Or.inr ⟨_, hpending, Relation.ReflTransGen.refl⟩
      · exact Or.inr ⟨s, hs, hreach.tail hstep⟩

/-- The order of the visited and of the pending nodes does not matter. -/
theorem inScope_congr {visited' pending' : List V} (hvisited : ∀ x, x ∈ visited' ↔ x ∈ visited)
    (hpending : ∀ x, x ∈ pending' ↔ x ∈ pending) :
    (Closed next visited' pending' ↔ Closed next visited pending)
      ∧ ∀ u, InScope next visited' pending' u ↔ InScope next visited pending u := by
  constructor
  · simp only [Closed, hvisited, hpending]
  · simp only [InScope, hvisited, hpending, implies_true]

/-- A node visited before is dropped. -/
theorem inScope_drop (h : Closed next visited (v :: pending)) (hv : v ∈ visited) :
    Closed next visited pending
      ∧ ∀ u, InScope next visited pending u ↔ InScope next visited (v :: pending) u := by
  have hclosed : Closed next visited pending := by
    intro x hx y hy
    rcases h x hx y hy with hvisited | hpending
    · exact Or.inl hvisited
    · rcases List.mem_cons.mp hpending with rfl | hpending
      · exact Or.inl hv
      · exact Or.inr hpending
  refine ⟨hclosed, fun u => ⟨?_, ?_⟩⟩
  · rintro (hvisited | ⟨s, hs, hreach⟩)
    · exact Or.inl hvisited
    · exact Or.inr ⟨s, List.mem_cons_of_mem _ hs, hreach⟩
  · rintro (hvisited | ⟨s, hs, hreach⟩)
    · exact Or.inl hvisited
    · rcases List.mem_cons.mp hs with rfl | hs
      · exact hclosed.inScope hv hreach
      · exact Or.inr ⟨s, hs, hreach⟩

/-- A new node is visited and its successors are pushed. -/
theorem inScope_visit (h : Closed next visited (v :: pending)) :
    Closed next (v :: visited) ((next v).reverse ++ pending)
      ∧ ∀ u, InScope next (v :: visited) ((next v).reverse ++ pending) u
          ↔ InScope next visited (v :: pending) u := by
  have hclosed : Closed next (v :: visited) ((next v).reverse ++ pending) := by
    intro x hx y hy
    rcases List.mem_cons.mp hx with rfl | hx
    · exact Or.inr (List.mem_append_left _ (List.mem_reverse.mpr hy))
    · rcases h x hx y hy with hvisited | hpending
      · exact Or.inl (List.mem_cons_of_mem _ hvisited)
      · rcases List.mem_cons.mp hpending with rfl | hpending
        · exact Or.inl List.mem_cons_self
        · exact Or.inr (List.mem_append_right _ hpending)
  refine ⟨hclosed, fun u => ⟨?_, ?_⟩⟩
  · rintro (hvisited | ⟨s, hs, hreach⟩)
    · rcases List.mem_cons.mp hvisited with rfl | hvisited
      · exact Or.inr ⟨_, List.mem_cons_self, Relation.ReflTransGen.refl⟩
      · exact Or.inl hvisited
    · rcases List.mem_append.mp hs with hs | hs
      · exact Or.inr ⟨v, List.mem_cons_self, hreach.head (List.mem_reverse.mp hs)⟩
      · exact Or.inr ⟨s, List.mem_cons_of_mem _ hs, hreach⟩
  · rintro (hvisited | ⟨s, hs, hreach⟩)
    · exact Or.inl (List.mem_cons_of_mem _ hvisited)
    · rcases List.mem_cons.mp hs with rfl | hs
      · exact hclosed.inScope List.mem_cons_self hreach
      · exact Or.inr ⟨s, List.mem_append_right _ hs, hreach⟩

variable [DecidableEq V]

/-- Visiting a node uses up the arcs that leave it. -/
theorem countP_visit (sources : List V) (hv : v ∉ visited) :
    sources.countP (· ∉ v :: visited) + sources.count v = sources.countP (· ∉ visited) := by
  induction sources with
  | nil => rfl
  | cons s sources ih =>
      simp only [List.countP_cons, List.count_cons, List.mem_cons, not_or, Bool.decide_and,
        decide_not] at ih ⊢
      by_cases hs : s = v
      · subst hs
        simp [hv]
        omega
      · simp [hs]
        omega

/-- **An exploration finds what can be reached.** `sources` names the nodes the arcs leave from, each
as often as it has successors. -/
theorem explore_spec {sources : List V} (hnext : ∀ v, (next v).length ≤ sources.count v)
    (stop : V → Bool) : ∀ (fuel : ℕ) (visited pending : List V),
      pending.length + sources.countP (· ∉ visited) ≤ fuel → Closed next visited pending →
      (∀ x ∈ visited, stop x = false) →
      ∃ found visited', explore next stop fuel visited pending = some (found, visited')
        ∧ (found = true ↔ ∃ u, InScope next visited pending u ∧ stop u = true)
        ∧ (found = false → ∀ u, u ∈ visited' ↔ InScope next visited pending u) := by
  intro fuel
  induction fuel with
  | zero =>
      intro visited pending hfuel _ hstop
      obtain rfl : pending = [] := List.length_eq_zero_iff.mp (by omega)
      refine ⟨false, visited, by rw [explore], ?_, fun _ u => by simp [InScope]⟩
      simpa [InScope] using hstop
  | succ fuel ih =>
      intro visited pending hfuel hclosed hstop
      cases pending with
      | nil =>
          refine ⟨false, visited, by rw [explore], ?_, fun _ u => by simp [InScope]⟩
          simpa [InScope] using hstop
      | cons v pending =>
          rw [explore]
          by_cases hv : stop v = true
          · rw [if_pos hv]
            refine ⟨true, visited, rfl, ⟨fun _ => ⟨v, Or.inr ⟨v, List.mem_cons_self, ?_⟩, hv⟩,
              fun _ => rfl⟩, nofun⟩
            exact Relation.ReflTransGen.refl
          · rw [if_neg hv]
            rw [List.length_cons] at hfuel
            by_cases hmem : v ∈ visited
            · rw [if_pos hmem]
              obtain ⟨hclosed, hscope⟩ := inScope_drop hclosed hmem
              simp only [← hscope]
              exact ih visited pending (by omega) hclosed hstop
            · rw [if_neg hmem]
              obtain ⟨hclosed, hscope⟩ := inScope_visit hclosed
              simp only [← hscope]
              refine ih _ _ ?_ hclosed (List.forall_mem_cons.mpr ⟨by simpa using hv, hstop⟩)
              have hcount := countP_visit sources hmem
              have := hnext v
              rw [List.length_append, List.length_reverse]
              omega

end Explore

/-- **An exploration along the edges of a multigraph.** -/
theorem explore_edges [DecidableEq V] {ε : Type*} [Arrow ε V V] {edges : List ε} {next : V → List V}
    (hnext : ∀ v, next v = (edgesFrom edges v).map Arrow.dst) (stop : V → Bool) (fuel : ℕ)
    (pending : List V) (hfuel : pending.length + edges.length ≤ fuel) :
    ∃ found visited, explore next stop fuel [] pending = some (found, visited)
      ∧ (found = true ↔ ∃ u, (∃ s ∈ pending, Reach edges s u) ∧ stop u = true)
      ∧ (found = false → ∀ u, u ∈ visited ↔ ∃ s ∈ pending, Reach edges s u) := by
  have hcount : ∀ v, (next v).length ≤ (edges.map Arrow.src).count v := by
    intro v
    rw [hnext, List.length_map, edgesFrom, ← List.countP_eq_length_filter, List.count,
      List.countP_map]
    refine Nat.le_of_eq (List.countP_congr (fun e _ => ?_))
    simp
  have hstep : (fun a b => b ∈ next a) = Leads edges := by
    funext a b
    rw [hnext, List.mem_map]
    simp only [mem_edgesFrom, Leads, and_assoc]
  obtain ⟨found, visited, hexplore, hfound, hvisited⟩ := explore_spec hcount stop fuel [] pending
    (by simpa using hfuel) (fun _ h => absurd h List.not_mem_nil)
    (fun _ h => absurd h List.not_mem_nil)
  unfold InScope Reachable at hfound hvisited
  rw [hstep] at hfound hvisited
  simp only [List.not_mem_nil, false_or] at hfound hvisited
  exact ⟨found, visited, hexplore, hfound, hvisited⟩

end Foundations
