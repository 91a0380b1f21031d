import CalaLedger.AccountSet.DoubleMembership
import CalaLedger.AccountSet.ScopedValidation

/-! # Accounts contained once

Memberships are valid when the graph of the sets is and no two sets of one account have a common
container (`validMemberships_iff_containedOnce`): what is said of every account apart, which an
operation can keep one account at a time.

What the checks of the memberships find is such a fact: the walk in memory
(`containedOnce_of_decided`), the query (`containedOnce_of_query`) and the validation of edges
(`containedOnce_of_validated`). -/

namespace CalaLedger

open Foundations Arrow

/-- No two of some sets have a common container, so that an account in them is contained at most
once in every set. -/
def ContainedOnce (edges : List SetMembership) (sets : List AccountSetId) : Prop :=
  sets.Pairwise (fun s t => ¬ ∃ u, Reach edges u s ∧ Reach edges u t)

section ContainedOnce

variable {edges edges' : List SetMembership} {sets sets' : List AccountSetId}

theorem ContainedOnce.mono (hedges : edges ⊆ edges') (hsets : sets.Sublist sets')
    (h : ContainedOnce edges' sets') : ContainedOnce edges sets := by
  refine (List.Pairwise.sublist hsets h).imp ?_
  rintro s t hapart ⟨u, hs, ht⟩
  exact hapart ⟨u, hs.mono hedges, ht.mono hedges⟩

theorem containedOnce_perm (h : sets.Perm sets') :
    ContainedOnce edges sets ↔ ContainedOnce edges sets' := by
  refine h.pairwise_iff ?_
  rintro s t hapart ⟨u, ht, hs⟩
  exact hapart ⟨u, hs, ht⟩

theorem containedOnce_of_length_le (h : sets.length ≤ 1) : ContainedOnce edges sets := by
  match sets, h with
  | [], _ => exact List.Pairwise.nil
  | [s], _ => exact List.pairwise_singleton _ s

/-- Memberships are apart when those of every account are. -/
theorem apart_iff_containedOnce {memberships : List AccountMembership} :
    Apart edges memberships
      ↔ ∀ accountId, ContainedOnce edges (SetGraphCache.seedSets memberships accountId) := by
  unfold Apart ContainedOnce SetGraphCache.seedSets
  simp only [List.pairwise_map]
  constructor
  · intro h accountId
    refine (h.filter _).imp_of_mem ?_
    rintro m m' hm hm' hapart hmerge
    have haccount : m.accountId = accountId := of_decide_eq_true (List.mem_filter.mp hm).2
    have haccount' : m'.accountId = accountId := of_decide_eq_true (List.mem_filter.mp hm').2
    exact hapart ⟨haccount.trans haccount'.symm, hmerge⟩
  · intro h
    induction memberships with
    | nil => exact List.Pairwise.nil
    | cons m memberships ih =>
        refine List.pairwise_cons.mpr ⟨fun m' hm' hmerge => ?_, ih (fun accountId => ?_)⟩
        · have hown := h m.accountId
          rw [List.filter_cons_of_pos (by simp)] at hown
          have haccount : m'.accountId = m.accountId := hmerge.1.symm
          exact (List.pairwise_cons.mp hown).1 m'
            (List.mem_filter.mpr ⟨hm', decide_eq_true haccount⟩) hmerge.2
        · exact (h accountId).sublist ((List.sublist_cons_self _ _).filter _)

theorem ValidGraph.mono (hsub : edges.Sublist edges') (h : ValidGraph edges') :
    ValidGraph edges := by
  have hacyclic := h.acyclic.mono hsub.subset
  exact ⟨hacyclic, (uniqueWalks_iff hacyclic).mpr (h.uniqueWalks.apart.mono hsub.subset hsub),
    h.depth.mono hsub.subset⟩

/-- A valid graph in which every account is contained at most once in every set. -/
theorem validMemberships_iff_containedOnce {memberships : List AccountMembership} :
    ValidMemberships edges memberships
      ↔ ValidGraph edges
        ∧ ∀ accountId, ContainedOnce edges (SetGraphCache.seedSets memberships accountId) := by
  rw [← apart_iff_containedOnce]
  constructor
  · exact fun h => ⟨h.toValidGraph, h.uniqueContainments.apart⟩
  · exact fun ⟨hgraph, hapart⟩ => ⟨hgraph, (uniqueRoutes_iff hgraph.uniqueWalks).mpr hapart⟩

end ContainedOnce

/-! ## What the walks find -/

section Walks

variable {edges : List SetMembership} (view : SetGraphView edges) {seeds : List AccountSetId}

/-- A container of a seed is at the end of a trail that begins there, while every set is known. -/
theorem SetGraphView.exists_trail
    (hknown : ∀ {is v}, Trail view.next seeds is v → (view.parentsOf v).isSome) {i : ℕ}
    {s u : AccountSetId} (hseed : seeds[i]? = some s) (hreach : Reach edges u s) :
    ∃ is, Trail view.next seeds (i :: is) u := by
  unfold Reach at hreach
  induction hreach using Relation.ReflTransGen.head_induction_on with
  | refl => exact ⟨[], Trail.here hseed⟩
  | @head v w hedge _ ih =>
      obtain ⟨is, htrail⟩ := ih
      obtain ⟨e, he, rfl, hdst⟩ := hedge
      obtain ⟨parents, hparents⟩ := Option.isSome_iff_exists.mp (hknown htrail)
      have hmem : src e ∈ view.next w := by
        rw [SetGraphView.next, hparents, Option.getD_some, (view.agrees w parents hparents).mem_iff]
        exact List.mem_map_of_mem (List.mem_filter.mpr ⟨he, decide_eq_true hdst⟩)
      obtain ⟨k, hk⟩ := List.getElem?_of_mem hmem
      exact ⟨is ++ [k], htrail.snoc hk⟩

/-- **Unique trails** through known sets contain an account once. -/
theorem SetGraphView.containedOnce
    (hknown : ∀ {is v}, Trail view.next seeds is v → (view.parentsOf v).isSome)
    (hunique : ∀ {is js v}, Trail view.next seeds is v → Trail view.next seeds js v → is = js) :
    ContainedOnce edges seeds := by
  refine List.pairwise_iff_getElem.mpr (fun i j hi hj hlt => ?_)
  rintro ⟨u, hs, ht⟩
  obtain ⟨is, his⟩ := view.exists_trail hknown (List.getElem?_eq_getElem hi) hs
  obtain ⟨js, hjs⟩ := view.exists_trail hknown (List.getElem?_eq_getElem hj) ht
  exact hlt.ne (List.cons.inj (hunique his hjs)).1

/-- **The walk in memory** that finds no duplicate. -/
theorem containedOnce_of_decided {memberships : List AccountMembership}
    (h : view.Decided memberships (some false)) (accountId : AccountId) :
    ContainedOnce edges (SetGraphCache.seedSets memberships accountId) := by
  obtain ⟨met, hworked, hnodup, hknown⟩ := h accountId
  have hperm := hworked.perm
  rw [List.append_nil] at hperm
  refine view.containedOnce (fun htrail => hknown _ ?_) (hworked.trail_unique hnodup)
  refine htrail.mem_of_closed (fun s hs => ?_) (fun u hu w hw => ?_)
  · exact hperm.mem_iff.mpr (List.mem_append_left _ hs)
  · exact hperm.mem_iff.mpr (List.mem_append_right _ (List.mem_flatMap.mpr ⟨u, hu, hw⟩))

variable {tables : MembershipTables}

/-- A table knows every set. -/
def MembershipTables.setGraphView (tables : MembershipTables) :
    SetGraphView tables.memberAccountSets where
  parentsOf := fun setId => some (tables.parents setId)
  agrees := by
    rintro setId parents ⟨⟩
    exact List.Perm.refl _

/-- **The query** that finds no duplicate. -/
theorem containedOnce_of_query {fuel : ℕ} {members : List AccountMembership}
    (h : tables.assertNoDoubleMembership fuel members = some (.ok ())) (accountId : AccountId) :
    ContainedOnce tables.memberAccountSets
      (SetGraphCache.seedSets (members ++ tables.existingMemberships members) accountId) := by
  obtain ⟨rows, hrows, hanswer⟩ := Option.map_eq_some_iff.mp h
  have hnone : ¬ ∃ m ∈ rows, 1 < rows.count m := by
    intro hconflict
    rw [if_pos hconflict] at hanswer
    cases hanswer
  have hnodup : (SetGraphCache.seedSets rows accountId).Nodup := by
    by_contra htwice
    exact hnone ((MembershipTables.conflict_iff rows).mpr ⟨accountId, htwice⟩)
  have haccount := perm_of_recursiveUnionAll (tables.recursiveUnionAll_account hrows accountId)
  exact tables.setGraphView.containedOnce (fun _ => rfl)
    (unique_of_query tables.setGraphView haccount hnodup (List.Perm.refl _))

end Walks

/-! ## What a validation finds -/

section Validated

variable {C : AccountSetId → Prop} {edges existing outside proposed : List SetMembership}
  {rows affected : List AccountMembership} {candidates : List AccountId}

theorem ValidGraph.of_split (h : ValidGraph edges) (hsplit : Split C edges existing outside) :
    ValidGraph existing := by
  have hacyclic := h.acyclic.mono hsplit.inside_subset
  exact ⟨hacyclic, (uniqueWalks_iff hacyclic).mpr (hsplit.apart_iff.mp h.uniqueWalks.apart).1,
    h.depth.mono hsplit.inside_subset⟩

/-- **A validation in scope** that accepts edges: with them the graph is valid, and every account is
contained once. -/
theorem containedOnce_of_validated {iteration : IterationOrder AccountSetId}
    (hvalid : ValidGraph edges) (hrows : ∀ accountId,
      ContainedOnce edges (SetGraphCache.seedSets rows accountId))
    (hsplit : Split C edges existing outside) (hproposed : Within C proposed)
    (haffected : affected.Perm (rows.filter (fun m => m.accountId ∈ candidates)))
    (hcandidates : ∀ accountId, accountId ∈ candidates
      ↔ ∃ m ∈ rows, m.accountId = accountId
        ∧ ∃ e ∈ proposed, Reach (existing ++ proposed) (dst e) (src m))
    (h : validateSetMemberships iteration existing proposed affected = some (.ok ())) :
    ValidGraph (edges ++ proposed) ∧ ∀ accountId,
      ContainedOnce (edges ++ proposed) (SetGraphCache.seedSets rows accountId) := by
  have hscoped := (validateSetMemberships_ok_iff iteration proposed affected
    (hvalid.of_split hsplit)).mp h
  have hbefore := validMemberships_iff_containedOnce.mpr ⟨hvalid, hrows⟩
  exact validMemberships_iff_containedOnce.mp ((validMemberships_scope_iff hbefore hsplit hproposed
    haffected hcandidates).mp hscoped)

end Validated

end CalaLedger
