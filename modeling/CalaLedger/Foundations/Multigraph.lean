import CalaLedger.Foundations.Grouping
import Mathlib.Data.List.Dedup
import Mathlib.Data.List.Perm.Subperm
import Mathlib.Logic.Relation
import Mathlib.Order.Bounds.Basic
import Mathlib.Order.WellFoundedSet

/-! # Finite multigraphs

A multigraph is its list of edges, so an edge may occur more than once. A walk names the positions of
the edges it takes (`Walk`), which tells two walks along parallel edges apart. Reachability, cycles
and depth depend on which edges occur only; whether walks are unique does not, and on an acyclic
multigraph it is a condition on pairs of edges (`uniqueWalks_iff`): no two of them merge, that is,
lead into one node from below a common one. Links from the graph to something outside of it are
counted alike (`uniqueRoutes_iff`). -/

namespace Foundations

/-- Arrows lead from the nodes of a graph, to its nodes or to something outside. -/
class Arrow (ε : Type*) (V W : outParam Type*) where
  src : ε → V
  dst : ε → W

open Arrow

variable {ε V : Type*} [Arrow ε V V]

/-! ## Walks -/

/-- A walk from a node to another, by the positions of its edges. -/
inductive Walk (edges : List ε) : V → List ℕ → V → Prop
  | nil (u : V) : Walk edges u [] u
  | cons {i : ℕ} {e : ε} {is : List ℕ} {v : V} (h : edges[i]? = some e)
      (rest : Walk edges (dst e) is v) : Walk edges (src e) (i :: is) v

/-- An edge leads from a node to another. -/
def Leads (edges : List ε) (u v : V) : Prop := ∃ e ∈ edges, src e = u ∧ dst e = v

/-- A node is above another, or the same. -/
def Reach (edges : List ε) : V → V → Prop := Relation.ReflTransGen (Leads edges)

variable {edges edges' : List ε} {u v w : V} {is js : List ℕ}

theorem leads_of_mem {e : ε} (h : e ∈ edges) : Leads edges (src e) (dst e) := ⟨e, h, rfl, rfl⟩

theorem Leads.mono (hsub : edges ⊆ edges') (h : Leads edges u v) : Leads edges' u v := by
  obtain ⟨e, he, hu, hv⟩ := h
  exact ⟨e, hsub he, hu, hv⟩

theorem Reach.mono (hsub : edges ⊆ edges') (h : Reach edges u v) : Reach edges' u v :=
  Relation.ReflTransGen.mono (fun _ _ => Leads.mono hsub) _ _ h

theorem Walk.append (h : Walk edges u is v) (h' : Walk edges v js w) :
    Walk edges u (is ++ js) w := by
  induction h with
  | nil _ => exact h'
  | cons he _ ih => exact Walk.cons he (ih h')

theorem Walk.single {i : ℕ} {e : ε} (h : edges[i]? = some e) : Walk edges (src e) [i] (dst e) :=
  Walk.cons h (Walk.nil _)

theorem Walk.snoc {i : ℕ} {e : ε} (h : Walk edges u is (src e)) (he : edges[i]? = some e) :
    Walk edges u (is ++ [i]) (dst e) :=
  h.append (Walk.single he)

theorem Walk.eq_of_nil (h : Walk edges u [] v) : u = v := by
  cases h
  rfl

/-- A walk split where its positions are. -/
theorem Walk.split {front back : List ℕ} :
    ∀ {u v : V}, Walk edges u (front ++ back) v →
      ∃ w, Walk edges u front w ∧ Walk edges w back v := by
  induction front with
  | nil => exact fun h => ⟨_, Walk.nil _, h⟩
  | cons i front ih =>
      intro u v h
      cases h with
      | cons he rest =>
          obtain ⟨w, hfront, hback⟩ := ih rest
          exact ⟨w, Walk.cons he hfront, hback⟩

/-- The last edge of a walk. -/
theorem Walk.unsnoc {i : ℕ} (h : Walk edges u (is ++ [i]) v) :
    ∃ e, edges[i]? = some e ∧ Walk edges u is (src e) ∧ dst e = v := by
  obtain ⟨w, hfront, hlast⟩ := h.split
  cases hlast with
  | cons he rest => exact ⟨_, he, hfront, rest.eq_of_nil⟩

theorem Walk.reach (h : Walk edges u is v) : Reach edges u v := by
  induction h with
  | nil _ => exact Relation.ReflTransGen.refl
  | cons he _ ih =>
      exact Relation.ReflTransGen.head (leads_of_mem (List.mem_of_getElem? he)) ih

theorem Reach.exists_walk (h : Reach edges u v) : ∃ is, Walk edges u is v := by
  induction h with
  | refl => exact ⟨[], Walk.nil _⟩
  | tail _ hstep ih =>
      obtain ⟨is, hwalk⟩ := ih
      obtain ⟨e, he, rfl, rfl⟩ := hstep
      obtain ⟨i, hi⟩ := List.getElem?_of_mem he
      exact ⟨is ++ [i], hwalk.snoc hi⟩

/-- A node is reached without any of the added edges, or through one of them. -/
theorem reach_append (h : Reach (edges ++ edges') u v) :
    Reach edges u v ∨ ∃ e ∈ edges', Reach (edges ++ edges') u (src e)
      ∧ Reach (edges ++ edges') (dst e) v := by
  induction h with
  | refl => exact Or.inl Relation.ReflTransGen.refl
  | tail hreach hlead ih =>
      rcases ih with hold | ⟨e, he, hsrc, hdst⟩
      · obtain ⟨e, he, rfl, rfl⟩ := hlead
        rcases List.mem_append.mp he with he | he
        · exact Or.inl (hold.tail (leads_of_mem he))
        · exact Or.inr ⟨e, he, hreach, Relation.ReflTransGen.refl⟩
      · exact Or.inr ⟨e, he, hsrc, hdst.tail hlead⟩

/-- The same walk where every edge occurs, maybe at another position. -/
theorem Walk.transfer (hsub : edges ⊆ edges') (h : Walk edges u is v) :
    ∃ js, Walk edges' u js v ∧ js.length = is.length := by
  induction h with
  | nil u => exact ⟨[], Walk.nil u, rfl⟩
  | cons he _ ih =>
      obtain ⟨js, hwalk, hlength⟩ := ih
      obtain ⟨j, hj⟩ := List.getElem?_of_mem (hsub (List.mem_of_getElem? he))
      exact ⟨j :: js, Walk.cons hj hwalk, by rw [List.length_cons, hlength, List.length_cons]⟩

/-! ## Cycles -/

/-- No walk comes back to where it started. -/
def Acyclic (edges : List ε) : Prop := ∀ u is, Walk edges u is u → is = []

theorem Acyclic.irrefl (h : Acyclic edges) (u : V) : ¬ Relation.TransGen (Leads edges) u u := by
  intro hcycle
  obtain ⟨v, ⟨e, he, rfl, rfl⟩, hrest⟩ := Relation.TransGen.head'_iff.mp hcycle
  obtain ⟨is, hwalk⟩ := Reach.exists_walk hrest
  obtain ⟨i, hi⟩ := List.getElem?_of_mem he
  exact absurd (h _ _ (Walk.cons hi hwalk)) (List.cons_ne_nil _ _)

theorem acyclic_iff : Acyclic edges ↔ ∀ e ∈ edges, ¬ Reach edges (dst e) (src e) := by
  constructor
  · intro h e he hreach
    exact h.irrefl _ (Relation.TransGen.head' (leads_of_mem he) hreach)
  · intro h u is hwalk
    cases hwalk with
    | nil _ => rfl
    | cons he rest => exact absurd rest.reach (h _ (List.mem_of_getElem? he))

theorem Acyclic.mono (hsub : edges ⊆ edges') (h : Acyclic edges') : Acyclic edges := by
  rw [acyclic_iff] at h ⊢
  exact fun e he hreach => h e (hsub he) (hreach.mono hsub)

/-- An edge added to an acyclic multigraph closes a cycle, if there is one. -/
theorem Acyclic.exists_closing (h : Acyclic edges) (hcycle : ¬ Acyclic (edges ++ edges')) :
    ∃ e ∈ edges', Reach (edges ++ edges') (dst e) (src e) := by
  rw [acyclic_iff] at hcycle
  push Not at hcycle
  obtain ⟨e, he, hback⟩ := hcycle
  rcases List.mem_append.mp he with hold | hnew
  · rcases reach_append hback with hreach | ⟨e', he', hsrc, hdst⟩
    · exact absurd hreach (acyclic_iff.mp h e hold)
    · exact ⟨e', he', (hdst.tail (leads_of_mem he)).trans hsrc⟩
  · exact ⟨e, hnew, hback⟩

/-- **Induction along the edges** of an acyclic multigraph: what holds of a node when it holds of
every node with an edge into it, holds of every node. -/
theorem Acyclic.induction (h : Acyclic edges) {P : V → Prop}
    (step : ∀ v, (∀ e ∈ edges, dst e = v → P (src e)) → P v) (v : V) : P v := by
  have hroot : ∀ v, v ∉ {v | ∃ e ∈ edges, dst e = v} → P v :=
    fun v hv => step v (fun e he heq => absurd ⟨e, he, heq⟩ hv)
  by_cases hv : v ∈ {v | ∃ e ∈ edges, dst e = v}
  · -- the nodes with an edge into them are finitely many, and strictly ordered by reachability
    have hfinite : {v : V | ∃ e ∈ edges, dst e = v}.Finite :=
      (List.finite_toSet (edges.map dst)).subset (fun v hv => List.mem_map.mpr hv)
    have horder : IsStrictOrder V (Relation.TransGen (Leads edges)) :=
      { irrefl := h.irrefl
        trans := fun _ _ _ => Relation.TransGen.trans }
    refine (hfinite.wellFoundedOn (r := Relation.TransGen (Leads edges))).induction hv ?_
    intro v _ ih
    refine step v (fun e he heq => ?_)
    by_cases hsrc : src e ∈ {v | ∃ e ∈ edges, dst e = v}
    · exact ih _ hsrc (Relation.TransGen.single (heq ▸ leads_of_mem he))
    · exact hroot _ hsrc
  · exact hroot v hv

/-- A walk of an acyclic multigraph takes no edge twice. -/
theorem Walk.nodup (h : Acyclic edges) (hwalk : Walk edges u is v) : is.Nodup := by
  induction hwalk with
  | nil _ => exact List.nodup_nil
  | cons he rest ih =>
      refine List.nodup_cons.mpr ⟨fun hmem => ?_, ih⟩
      obtain ⟨front, back, rfl⟩ := List.append_of_mem hmem
      obtain ⟨w, hfront, hback⟩ := rest.split
      cases hback with
      | cons he' _ =>
          obtain rfl := Option.some.inj (he.symm.trans he')
          exact absurd (h _ _ (Walk.cons he hfront)) (List.cons_ne_nil _ _)

/-! ## Depth -/

/-- No walk is longer than `d`. -/
def DepthAtMost (edges : List ε) (d : ℕ) : Prop := ∀ u is v, Walk edges u is v → is.length ≤ d

/-- The length of the longest walks. -/
def HasDepth (edges : List ε) (d : ℕ) : Prop := ∀ n, DepthAtMost edges n ↔ d ≤ n

theorem DepthAtMost.mono (hsub : edges ⊆ edges') {d : ℕ} (h : DepthAtMost edges' d) :
    DepthAtMost edges d := by
  intro u is v hwalk
  obtain ⟨js, hwalk', hlength⟩ := hwalk.transfer hsub
  exact hlength ▸ h u js v hwalk'

theorem HasDepth.le_iff {d n : ℕ} (h : HasDepth edges d) : d ≤ n ↔ DepthAtMost edges n := (h n).symm

/-- No edge leads to a root. -/
def IsRoot (edges : List ε) (u : V) : Prop := ∀ e ∈ edges, dst e ≠ u

/-- The lengths of the walks to a node from a root. -/
def chainLengths (edges : List ε) (v : V) : Set ℕ :=
  { n | ∃ u is, IsRoot edges u ∧ Walk edges u is v ∧ is.length = n }

/-- A longest walk starts at a root. -/
theorem Walk.isGreatest (hwalk : Walk edges u is v)
    (hlongest : ∀ u' js, Walk edges u' js v → js.length ≤ is.length) :
    IsGreatest (chainLengths edges v) is.length := by
  constructor
  · refine ⟨u, is, fun e he hdst => ?_, hwalk, rfl⟩
    subst hdst
    obtain ⟨i, hi⟩ := List.getElem?_of_mem he
    have hlonger := hlongest (src e) (i :: is) (Walk.cons hi hwalk)
    rw [List.length_cons] at hlonger
    omega
  · rintro n ⟨u', js, -, hwalk', rfl⟩
    exact hlongest u' js hwalk'

/-- A walk of an acyclic multigraph has at most as many steps as there are edges. -/
theorem Acyclic.depthAtMost (h : Acyclic edges) : DepthAtMost edges edges.length := by
  intro u is v hwalk
  have hbound : ∀ {u is v}, Walk edges u is v → is ⊆ List.range edges.length := by
    intro u is v hwalk
    induction hwalk with
    | nil _ => exact List.nil_subset _
    | cons he _ ih =>
        exact List.cons_subset.mpr
          ⟨List.mem_range.mpr (List.getElem?_eq_some_iff.mp he).1, ih⟩
  simpa using ((hwalk.nodup h).subperm (hbound hwalk)).length_le

/-! ## Unique walks -/

/-- At most one walk between two nodes. -/
def UniqueWalks (edges : List ε) : Prop :=
  ∀ u v is js, Walk edges u is v → Walk edges u js v → is = js

section Routes

variable {μ W : Type*} [Arrow μ V W] {links : List μ}

/-- A walk that ends with a link, by the positions of its edges and of the link. -/
def Route (edges : List ε) (links : List μ) (u : V) (path : List ℕ × ℕ) (w : W) : Prop :=
  ∃ x, links[path.2]? = some x ∧ Walk edges u path.1 (src x) ∧ dst x = w

/-- At most one route between a node and an end. -/
def UniqueRoutes (edges : List ε) (links : List μ) : Prop :=
  ∀ u w p q, Route edges links u p w → Route edges links u q w → p = q

/-- Two links lead to one end from below a common node. -/
def Merges (edges : List ε) (x y : μ) : Prop :=
  dst x = dst y ∧ ∃ u, Reach edges u (src x) ∧ Reach edges u (src y)

theorem Merges.symm {x y : μ} (h : Merges edges x y) : Merges edges y x := by
  obtain ⟨hdst, u, hx, hy⟩ := h
  exact ⟨hdst.symm, u, hy, hx⟩

theorem Merges.mono (hsub : edges ⊆ edges') {x y : μ} (h : Merges edges x y) :
    Merges edges' x y := by
  obtain ⟨hdst, u, hx, hy⟩ := h
  exact ⟨hdst, u, hx.mono hsub, hy.mono hsub⟩

/-- No two links of a list merge. -/
def Apart (edges : List ε) (links : List μ) : Prop :=
  links.Pairwise (fun x y => ¬ Merges edges x y)

theorem Apart.mono {links' : List μ} (hsub : edges ⊆ edges') (hlinks : links.Sublist links')
    (h : Apart edges' links') : Apart edges links :=
  (List.Pairwise.sublist hlinks h).imp (fun hxy hmerge => hxy (hmerge.mono hsub))

theorem apart_perm {links' : List μ} (hedges : edges ⊆ edges') (hedges' : edges' ⊆ edges)
    (hperm : links.Perm links') : Apart edges links ↔ Apart edges' links' := by
  have hsame : ∀ x y : μ, ¬ Merges edges x y ↔ ¬ Merges edges' x y := fun x y =>
    not_congr ⟨fun h => h.mono hedges, fun h => h.mono hedges'⟩
  unfold Apart
  simp only [hsame]
  exact hperm.pairwise_iff (fun {x y} hxy hmerge => hxy hmerge.symm)

theorem Apart.index_eq (h : Apart edges links) {i j : ℕ} {x y : μ} (hx : links[i]? = some x)
    (hy : links[j]? = some y) (hmerge : Merges edges x y) : i = j := by
  obtain ⟨hi, rfl⟩ := List.getElem?_eq_some_iff.mp hx
  obtain ⟨hj, rfl⟩ := List.getElem?_eq_some_iff.mp hy
  have hpair := List.pairwise_iff_getElem.mp h
  rcases Nat.lt_trichotomy i j with hlt | heq | hlt
  · exact absurd hmerge (hpair i j hi hj hlt)
  · exact heq
  · exact absurd hmerge.symm (hpair j i hj hi hlt)

theorem UniqueRoutes.apart (h : UniqueRoutes edges links) : Apart edges links := by
  refine List.pairwise_iff_getElem.mpr (fun i j hi hj hlt => ?_)
  rintro ⟨hdst, u, hx, hy⟩
  obtain ⟨is, his⟩ := hx.exists_walk
  obtain ⟨js, hjs⟩ := hy.exists_walk
  have heq := h u (dst links[j]) (is, i) (js, j) ⟨_, List.getElem?_eq_getElem hi, his, hdst⟩
    ⟨_, List.getElem?_eq_getElem hj, hjs, rfl⟩
  exact absurd (congrArg Prod.snd heq) (Nat.ne_of_lt hlt)

/-- **Routes are unique exactly when no two links merge**, on a graph with unique walks. -/
theorem uniqueRoutes_iff (hwalks : UniqueWalks edges) :
    UniqueRoutes edges links ↔ Apart edges links := by
  constructor
  · exact UniqueRoutes.apart
  · rintro h u w ⟨is, i⟩ ⟨js, j⟩ ⟨x, hx, hxwalk, hxw⟩ ⟨y, hy, hywalk, hyw⟩
    have hij : i = j := h.index_eq hx hy ⟨hxw.trans hyw.symm, u, hxwalk.reach, hywalk.reach⟩
    subst hij
    obtain rfl := Option.some.inj (hx.symm.trans hy)
    rw [hwalks u (src x) is js hxwalk hywalk]

end Routes

theorem UniqueWalks.apart (h : UniqueWalks edges) : Apart edges edges := by
  apply UniqueRoutes.apart
  rintro u w ⟨is, i⟩ ⟨js, j⟩ ⟨x, hx, hxwalk, hxw⟩ ⟨y, hy, hywalk, hyw⟩
  have heq := h u w (is ++ [i]) (js ++ [j]) (hxw ▸ hxwalk.snoc hx) (hyw ▸ hywalk.snoc hy)
  obtain ⟨rfl, hlast⟩ := List.append_inj' heq rfl
  rw [List.singleton_inj.mp hlast]

/-- **Walks are unique exactly when no two edges merge**, on an acyclic multigraph. -/
theorem uniqueWalks_iff (hacyclic : Acyclic edges) :
    UniqueWalks edges ↔ Apart edges edges := by
  constructor
  · exact UniqueWalks.apart
  · intro h u v is
    induction is using List.reverseRecOn generalizing v with
    | nil =>
        intro js hnil hjs
        obtain rfl := hnil.eq_of_nil
        exact (hacyclic u js hjs).symm
    | append_singleton is i ih =>
        intro js hisw hjsw
        obtain ⟨e, he, hise, rfl⟩ := hisw.unsnoc
        induction js using List.reverseRecOn with
        | nil =>
            obtain rfl := hjsw.eq_of_nil
            exact hacyclic _ _ hisw
        | append_singleton js j _ =>
            obtain ⟨e', he', hjse, hdst⟩ := hjsw.unsnoc
            have hij : i = j :=
              h.index_eq he he' ⟨hdst.symm, u, hise.reach, hjse.reach⟩
            subst hij
            obtain rfl := Option.some.inj (he.symm.trans he')
            rw [ih (src e) js hise hjse]

/-! ## The edges of a node -/

section Edges

variable [DecidableEq V]

/-- The edges out of a node. -/
def edgesFrom (edges : List ε) (v : V) : List ε := edges.filter (fun e => src e = v)

theorem mem_edgesFrom {e : ε} : e ∈ edgesFrom edges v ↔ e ∈ edges ∧ src e = v := by
  simp [edgesFrom]

/-- The edges out of distinct nodes, and those out of other nodes. -/
theorem perm_flatMap_edgesFrom (edges : List ε) {nodes : List V} (hnodup : nodes.Nodup) :
    (nodes.flatMap (edgesFrom edges) ++ edges.filter (fun e => src e ∉ nodes)).Perm edges :=
  perm_flatMap_filter_key src hnodup

end Edges

end Foundations
