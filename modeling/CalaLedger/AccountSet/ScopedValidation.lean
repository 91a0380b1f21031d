import CalaLedger.AccountSet.CommittedGraph
import CalaLedger.AccountSet.ValidMemberships
import CalaLedger.Foundations.Components

/-! # Scoped validation

A batch of set edges is validated against the part of the graph it touches: the edges of the
components of its sets (`edges_connected_to`), and the memberships of the accounts below one of its
members (`fetch_affected_account_memberships_in_op`). On a valid ledger that decides the same as
validating every edge and every membership (`scoped_validation_equivalent`). -/

namespace CalaLedger

open Foundations Arrow

/-! ## The scope -/

namespace SetGraphCache

section EdgesConnectedTo

variable (snapshot : GraphSnapshot)

/-- What is pushed when a set is visited: its parents, then its members. -/
def neighbours (accountSetId : AccountSetId) : List AccountSetId :=
  (snapshot.parents.lookup accountSetId).getD []
    ++ (snapshot.children.lookup accountSetId).getD []

/-- The edges collected when a set is visited. -/
def touching (accountSetId : AccountSetId) : List SetMembership :=
  ((snapshot.parents.lookup accountSetId).getD []).map (fun parentId => ⟨parentId, accountSetId⟩)
    ++ ((snapshot.children.lookup accountSetId).getD []).map
      (fun memberId => ⟨accountSetId, memberId⟩)

/-- `GraphSnapshot::edges_connected_to`, in the order the set of edges is iterated. -/
def edgesConnectedTo (iteration : IterationOrder SetMembership) (members : List SetMembership) :
    Option (List SetMembership) :=
  let pending := members.flatMap (fun edge => [edge.accountSetId, edge.memberAccountSetId])
  (explore (neighbours snapshot) (fun _ => false)
    (pending.length + (itemCount snapshot.parents + itemCount snapshot.children)) []
    pending.reverse).map (fun result =>
      iteration.arrange (result.2.flatMap (touching snapshot)).dedup)

end EdgesConnectedTo

end SetGraphCache

/-- The order of the rows of `fetch_affected_account_memberships_in_op`. -/
def membershipOrder (membership : AccountMembership) : AccountId ×ₗ AccountSetId :=
  toLex (membership.accountId, membership.accountSetId)

namespace MembershipTables

variable (tables : MembershipTables)

/-- The two queries of `fetch_affected_account_memberships_in_op`: the accounts attached to the
affected sets, and all their memberships. -/
def membershipsOfCandidates (affectedSetIds : List AccountSetId) : List AccountMembership :=
  let candidateAccountIds := (sortBy (id : AccountId → AccountId) ((tables.memberAccounts.filter
    (fun m => m.accountSetId ∈ affectedSetIds)).map AccountMembership.accountId)).dedup
  if candidateAccountIds = [] then []
  else sortBy membershipOrder (tables.memberAccounts.filter
    (fun m => m.accountId ∈ candidateAccountIds))

/-- `fetch_affected_account_memberships_in_op`; `none` when the walk has not ended. -/
def fetchAffectedAccountMemberships (existingEdges members : List SetMembership) :
    Option (List AccountMembership) :=
  let children : HashMap AccountSetId (List AccountSetId) :=
    (existingEdges ++ members).foldl (fun children edge =>
      upsert children edge.accountSetId [] (· ++ [edge.memberAccountSetId])) ∅
  (explore (fun setId => (children.lookup setId).getD []) (fun _ => false)
    (members.length + (existingEdges.length + members.length)) []
    (members.map SetMembership.memberAccountSetId).reverse).map (fun result =>
      tables.membershipsOfCandidates result.2)

end MembershipTables

/-! ## What the scope contains -/

/-- No edge of a valid graph occurs twice. -/
theorem nodup_of_apart {edges : List SetMembership} (h : Apart edges edges) : edges.Nodup :=
  h.imp (fun {e _} hapart heq => hapart
    ⟨congrArg dst heq, src e, Relation.ReflTransGen.refl, heq ▸ Relation.ReflTransGen.refl⟩)

namespace SetGraphCache

variable {snapshot : GraphSnapshot} {edges : List SetMembership}

theorem Reflects.mem_touching (h : Reflects snapshot edges) {v : AccountSetId} {e : SetMembership} :
    e ∈ touching snapshot v ↔ e ∈ edges ∧ (dst e = v ∨ src e = v) := by
  obtain ⟨parentId, memberId⟩ := e
  have hup : (⟨parentId, memberId⟩ : SetMembership)
        ∈ ((snapshot.parents.lookup v).getD []).map (fun parentId => ⟨parentId, v⟩)
      ↔ ⟨parentId, memberId⟩ ∈ edges ∧ memberId = v := by
    rw [List.mem_map]
    simp only [(h.parents v).mem_iff, List.mem_map, List.mem_filter, decide_eq_true_eq]
    constructor
    · rintro ⟨w, ⟨⟨p, m⟩, ⟨he, hm⟩, rfl⟩, heq⟩
      cases heq
      cases hm
      exact ⟨he, rfl⟩
    · rintro ⟨he, rfl⟩
      exact ⟨parentId, ⟨_, ⟨he, rfl⟩, rfl⟩, rfl⟩
  have hdown : (⟨parentId, memberId⟩ : SetMembership)
        ∈ ((snapshot.children.lookup v).getD []).map (fun memberId => ⟨v, memberId⟩)
      ↔ ⟨parentId, memberId⟩ ∈ edges ∧ parentId = v := by
    rw [List.mem_map]
    simp only [(h.children v).mem_iff, List.mem_map, List.mem_filter, decide_eq_true_eq]
    constructor
    · rintro ⟨w, ⟨⟨p, m⟩, ⟨he, hp⟩, rfl⟩, heq⟩
      cases heq
      cases hp
      exact ⟨he, rfl⟩
    · rintro ⟨he, rfl⟩
      exact ⟨memberId, ⟨_, ⟨he, rfl⟩, rfl⟩, rfl⟩
  rw [touching, List.mem_append, hup, hdown, ← and_or_left]
  rfl

theorem Reflects.mem_neighbours (h : Reflects snapshot edges) {v w : AccountSetId} :
    w ∈ neighbours snapshot v
      ↔ ∃ e ∈ edges, (dst e = v ∧ src e = w) ∨ (src e = v ∧ dst e = w) := by
  rw [neighbours, List.mem_append, (h.parents v).mem_iff, (h.children v).mem_iff, List.mem_map,
    List.mem_map]
  simp only [List.mem_filter, decide_eq_true_eq]
  constructor
  · rintro (⟨e, ⟨he, hv⟩, hw⟩ | ⟨e, ⟨he, hv⟩, hw⟩)
    · exact ⟨e, he, Or.inl ⟨hv, hw⟩⟩
    · exact ⟨e, he, Or.inr ⟨hv, hw⟩⟩
  · rintro ⟨e, he, ⟨hv, hw⟩ | ⟨hv, hw⟩⟩
    · exact Or.inl ⟨e, ⟨he, hv⟩, hw⟩
    · exact Or.inr ⟨e, ⟨he, hv⟩, hw⟩

/-- **The edges collected are those of the components of the proposed edges**: the sets visited are a
part of the graph that no edge leaves. -/
theorem edgesConnectedTo_spec (h : Reflects snapshot edges) (hnodup : edges.Nodup)
    (iteration : IterationOrder SetMembership) (members : List SetMembership) :
    ∃ (C : AccountSetId → Prop) (selected outside : List SetMembership),
      edgesConnectedTo snapshot iteration members = some selected
        ∧ Split C edges selected outside ∧ Within C members := by
  have hnext : ∀ v, (neighbours snapshot v).length
      ≤ (itemKeys snapshot.parents ++ itemKeys snapshot.children).count v := by
    intro v
    rw [neighbours, List.length_append, List.count_append, count_itemKeys, count_itemKeys]
  obtain ⟨found, visited, hexplore, hfound, hvisited⟩ := explore_spec hnext (fun _ => false)
    ((members.flatMap (fun e => [e.accountSetId, e.memberAccountSetId])).length
      + (itemCount snapshot.parents + itemCount snapshot.children)) []
    (members.flatMap (fun e => [e.accountSetId, e.memberAccountSetId])).reverse
    (by simp [length_itemKeys]) (fun _ h => absurd h List.not_mem_nil)
    (fun _ h => absurd h List.not_mem_nil)
  have hvisited := hvisited (by
    cases found with
    | false => rfl
    | true => obtain ⟨_, _, hstop⟩ := hfound.mp rfl; cases hstop)
  have hstep : ∀ {v w}, v ∈ visited → w ∈ neighbours snapshot v → w ∈ visited := by
    intro v w hv hw
    obtain ⟨s, hs, hreach⟩ := ((hvisited v).mp hv).resolve_left List.not_mem_nil
    exact (hvisited w).mpr (Or.inr ⟨s, hs, hreach.tail hw⟩)
  have hends : ∀ e ∈ edges, src e ∈ visited ↔ dst e ∈ visited := fun e he =>
    ⟨fun hv => hstep hv (h.mem_neighbours.mpr ⟨e, he, Or.inr ⟨rfl, rfl⟩⟩),
      fun hv => hstep hv (h.mem_neighbours.mpr ⟨e, he, Or.inl ⟨rfl, rfl⟩⟩)⟩
  have hselected : (iteration.arrange (visited.flatMap (touching snapshot)).dedup).Perm
      (edges.filter (fun e => src e ∈ visited)) := by
    refine (iteration.perm _).trans
      ((List.perm_ext_iff_of_nodup (List.nodup_dedup _) (hnodup.filter _)).mpr (fun e => ?_))
    rw [List.mem_dedup, List.mem_flatMap, List.mem_filter, decide_eq_true_eq]
    simp only [h.mem_touching]
    constructor
    · rintro ⟨v, hv, he, rfl | rfl⟩
      · exact ⟨he, (hends e he).mpr hv⟩
      · exact ⟨he, hv⟩
    · rintro ⟨he, hv⟩
      exact ⟨_, hv, he, Or.inr rfl⟩
  refine ⟨fun v => v ∈ visited, iteration.arrange (visited.flatMap (touching snapshot)).dedup,
    edges.filter (fun e => !decide (src e ∈ visited)), ?_,
    ⟨?_, fun e he => ?_, fun e he => ?_⟩, fun e he => ?_⟩
  · rw [edgesConnectedTo, hexplore]
    rfl
  · exact ((List.filter_append_perm (fun e : SetMembership => decide (src e ∈ visited))
      edges).symm).trans (hselected.symm.append_right _)
  · obtain ⟨he, hv⟩ := List.mem_filter.mp (hselected.mem_iff.mp he)
    rw [decide_eq_true_eq] at hv
    exact ⟨hv, (hends e he).mp hv⟩
  · obtain ⟨he, hv⟩ := List.mem_filter.mp he
    have hv : src e ∉ visited := by simpa using hv
    exact ⟨hv, fun hdst => hv ((hends e he).mpr hdst)⟩
  · have hseed : ∀ v ∈ [e.accountSetId, e.memberAccountSetId], v ∈ visited := fun v hv =>
      (hvisited v).mpr (Or.inr ⟨v, List.mem_reverse.mpr (List.mem_flatMap.mpr ⟨e, he, hv⟩),
        Relation.ReflTransGen.refl⟩)
    exact ⟨hseed _ List.mem_cons_self, hseed _ (List.mem_cons_of_mem _ List.mem_cons_self)⟩

end SetGraphCache

namespace MembershipTables

variable (tables : MembershipTables)

/-- The memberships fetched are those of the accounts with a membership in an affected set. -/
theorem membershipsOfCandidates_perm (affectedSetIds : List AccountSetId) :
    ∃ candidates : List AccountId,
      (tables.membershipsOfCandidates affectedSetIds).Perm
        (tables.memberAccounts.filter (fun m => m.accountId ∈ candidates))
        ∧ ∀ accountId, accountId ∈ candidates
            ↔ ∃ m ∈ tables.memberAccounts, m.accountId = accountId
              ∧ m.accountSetId ∈ affectedSetIds := by
  refine ⟨(sortBy (id : AccountId → AccountId) ((tables.memberAccounts.filter
    (fun m => m.accountSetId ∈ affectedSetIds)).map AccountMembership.accountId)).dedup, ?_,
    fun accountId => ?_⟩
  · unfold membershipsOfCandidates
    by_cases hempty : (sortBy (id : AccountId → AccountId) ((tables.memberAccounts.filter
        (fun m => m.accountSetId ∈ affectedSetIds)).map AccountMembership.accountId)).dedup = []
    · simp [hempty]
    · simp only [if_neg hempty]
      exact sortBy_perm membershipOrder _
  · rw [List.mem_dedup, mem_sortBy, List.mem_map]
    simp only [List.mem_filter, decide_eq_true_eq]
    exact exists_congr (fun m => ⟨fun ⟨⟨hm, hset⟩, hacc⟩ => ⟨hm, hacc, hset⟩,
      fun ⟨hm, hacc, hset⟩ => ⟨⟨hm, hset⟩, hacc⟩⟩)

/-- **The memberships fetched are those of the accounts below a proposed member.** -/
theorem fetchAffectedAccountMemberships_spec (existingEdges members : List SetMembership) :
    ∃ (affected : List AccountMembership) (candidates : List AccountId),
      tables.fetchAffectedAccountMemberships existingEdges members = some affected
        ∧ affected.Perm (tables.memberAccounts.filter (fun m => m.accountId ∈ candidates))
        ∧ ∀ accountId, accountId ∈ candidates
            ↔ ∃ m ∈ tables.memberAccounts, m.accountId = accountId
              ∧ ∃ e ∈ members, Reach (existingEdges ++ members) (dst e) (src m) := by
  have hchildren : ∀ v, ((((existingEdges ++ members).foldl (fun children edge =>
      upsert children edge.accountSetId [] (· ++ [edge.memberAccountSetId]))
        (∅ : HashMap AccountSetId (List AccountSetId))).lookup v).getD [])
      = (edgesFrom (existingEdges ++ members) v).map dst := by
    intro v
    rw [getD_lookup_foldl_push, AList.lookup_empty]
    rfl
  obtain ⟨found, visited, hexplore, hfound, hvisited⟩ := explore_edges hchildren (fun _ => false)
    (members.length + (existingEdges.length + members.length))
    (members.map SetMembership.memberAccountSetId).reverse (by simp)
  have hvisited := hvisited (by
    cases found with
    | false => rfl
    | true => obtain ⟨_, _, hstop⟩ := hfound.mp rfl; cases hstop)
  obtain ⟨candidates, hperm, hcandidates⟩ := tables.membershipsOfCandidates_perm visited
  refine ⟨_, candidates, ?_, hperm, fun accountId => ?_⟩
  · rw [fetchAffectedAccountMemberships, hexplore]
    rfl
  · rw [hcandidates]
    refine exists_congr (fun m => and_congr_right' (and_congr_right' ?_))
    rw [hvisited]
    constructor
    · rintro ⟨s, hs, hreach⟩
      obtain ⟨e, he, rfl⟩ := List.mem_map.mp (List.mem_reverse.mp hs)
      exact ⟨e, he, hreach⟩
    · rintro ⟨e, he, hreach⟩
      exact ⟨_, List.mem_reverse.mpr (List.mem_map.mpr ⟨e, he, rfl⟩), hreach⟩

end MembershipTables

/-! ## The equivalence -/

section Equivalence

variable {C : AccountSetId → Prop} {edges selected outside proposed : List SetMembership}
  {memberAccounts affected : List AccountMembership} {candidates : List AccountId}

/-- An account outside the scope has no path through a proposed edge. -/
theorem reach_of_not_candidate
    (hcandidates : ∀ accountId, accountId ∈ candidates
      ↔ ∃ m ∈ memberAccounts, m.accountId = accountId
        ∧ ∃ e ∈ proposed, Reach (selected ++ proposed) (dst e) (src m))
    (hsplit : Split C (edges ++ proposed) (selected ++ proposed) outside)
    (hproposed : Within C proposed) {m : AccountMembership} (hm : m ∈ memberAccounts)
    (hout : m.accountId ∉ candidates) {u : AccountSetId}
    (hreach : Reach (edges ++ proposed) u (src m)) : Reach edges u (src m) := by
  rcases reach_append hreach with hold | ⟨e, he, -, hbelow⟩
  · exact hold
  · refine absurd ((hcandidates _).mpr ⟨m, hm, rfl, e, he, ?_⟩) hout
    rcases hbelow.confined hsplit with ⟨-, -, hinside⟩ | ⟨hnot, -⟩
    · exact hinside
    · exact absurd (hproposed e he).2 hnot

/-- **The memberships of the affected accounts are enough.** -/
theorem apart_affected_iff (hedges : Apart edges memberAccounts)
    (hselected : Split C edges selected outside) (hproposed : Within C proposed)
    (haffected : affected.Perm (memberAccounts.filter (fun m => m.accountId ∈ candidates)))
    (hcandidates : ∀ accountId, accountId ∈ candidates
      ↔ ∃ m ∈ memberAccounts, m.accountId = accountId
        ∧ ∃ e ∈ proposed, Reach (selected ++ proposed) (dst e) (src m)) :
    Apart (selected ++ proposed) affected ↔ Apart (edges ++ proposed) memberAccounts := by
  have hsplit := hselected.append hproposed
  rw [apart_perm (List.Subset.refl (selected ++ proposed)) (List.Subset.refl _) haffected]
  constructor
  · intro hinside
    have hboth := hedges.and (List.pairwise_filter.mp hinside)
    refine hboth.imp_of_mem (fun {m m'} hm hm' hapart hmerge => ?_)
    have hsame : m.accountId = m'.accountId := hmerge.1
    rcases hsplit.merges hmerge with ⟨-, -, hin⟩ | ⟨-, -, hout⟩
    · by_cases hcandidate : m.accountId ∈ candidates
      · exact hapart.2 (decide_eq_true hcandidate) (decide_eq_true (hsame ▸ hcandidate)) hin
      · -- no path of this account takes a proposed edge
        obtain ⟨hdst, u, hu, hu'⟩ := hmerge
        exact hapart.1 ⟨hdst, u,
          reach_of_not_candidate hcandidates hsplit hproposed hm hcandidate hu,
          reach_of_not_candidate hcandidates hsplit hproposed hm' (hsame ▸ hcandidate) hu'⟩
    · exact hapart.1 (hout.mono hselected.outside_subset)
  · exact fun hall => hall.mono hsplit.inside_subset List.filter_sublist

/-- **Validity is decided in scope.** -/
theorem validMemberships_scope_iff (hvalid : ValidMemberships edges memberAccounts)
    (hselected : Split C edges selected outside) (hproposed : Within C proposed)
    (haffected : affected.Perm (memberAccounts.filter (fun m => m.accountId ∈ candidates)))
    (hcandidates : ∀ accountId, accountId ∈ candidates
      ↔ ∃ m ∈ memberAccounts, m.accountId = accountId
        ∧ ∃ e ∈ proposed, Reach (selected ++ proposed) (dst e) (src m)) :
    ValidMemberships (selected ++ proposed) affected
      ↔ ValidMemberships (edges ++ proposed) memberAccounts := by
  have hsplit := hselected.append hproposed
  rw [validMemberships_iff, validMemberships_iff, hsplit.acyclic_iff, hsplit.apart_iff,
    hsplit.depthAtMost_iff, apart_affected_iff hvalid.uniqueContainments.apart hselected hproposed
      haffected hcandidates]
  have hacyclic := hvalid.acyclic.mono hselected.outside_subset
  have hapart := (hselected.apart_iff.mp hvalid.uniqueWalks.apart).2
  have hdepth := hvalid.depth.mono hselected.outside_subset
  constructor
  · rintro ⟨h₁, h₂, h₃, h₄⟩
    exact ⟨⟨h₁, hacyclic⟩, ⟨h₂, hapart⟩, h₃, h₄, hdepth⟩
  · rintro ⟨⟨h₁, -⟩, ⟨h₂, -⟩, h₃, h₄, -⟩
    exact ⟨h₁, h₂, h₃, h₄⟩

end Equivalence

/-- **Scoped validation decides the same as validating everything.** On a valid ledger, whatever edges
are proposed: the edges of the snapshot that are connected to them, with the memberships of the
affected accounts, are accepted exactly when all edges with all memberships are. -/
theorem scoped_validation_equivalent (directory : LedgerDirectory) (setIds : List AccountSetId)
    (hsets : directory.HasSets setIds)
    (hvalid : ValidMemberships directory.memberships.memberAccountSets
      directory.memberships.memberAccounts)
    (nodes : List SetGraphNode) (hnodes : nodes.Perm (directory.setGraphNodes setIds))
    (proposed : List SetMembership) (collected : IterationOrder SetMembership)
    (iteration iteration' : IterationOrder AccountSetId) :
    ∃ existingEdges accountMembers,
      SetGraphCache.edgesConnectedTo
          { toIndexedNodes := SetGraphCache.indexNodes nodes
            epoch := directory.memberships.epoch } collected proposed = some existingEdges
        ∧ directory.memberships.fetchAffectedAccountMemberships existingEdges proposed
          = some accountMembers
        ∧ (validateSetMemberships iteration existingEdges proposed accountMembers = some (.ok ())
          ↔ validateSetMemberships iteration' directory.memberships.memberAccountSets proposed
            directory.memberships.memberAccounts = some (.ok ())) := by
  have hreflects := SetGraphCache.reflects_indexNodes
    ((hnodes.filterMap _).trans hsets.edgesOfNodes_perm) directory.memberships.epoch
  obtain ⟨C, existingEdges, outside, hedges, hsplit, hwithin⟩ :=
    SetGraphCache.edgesConnectedTo_spec hreflects (nodup_of_apart hvalid.uniqueWalks.apart)
      collected proposed
  obtain ⟨accountMembers, candidates, hmembers, haffected, hcandidates⟩ :=
    directory.memberships.fetchAffectedAccountMemberships_spec existingEdges proposed
  have hexisting : ValidGraph existingEdges :=
    { acyclic := hvalid.acyclic.mono hsplit.inside_subset
      uniqueWalks := (uniqueWalks_iff (hvalid.acyclic.mono hsplit.inside_subset)).mpr
        (hsplit.apart_iff.mp hvalid.uniqueWalks.apart).1
      depth := hvalid.depth.mono hsplit.inside_subset }
  refine ⟨existingEdges, accountMembers, hedges, hmembers, ?_⟩
  rw [validateSetMemberships_ok_iff iteration proposed accountMembers hexisting,
    validateSetMemberships_ok_iff iteration' proposed _ hvalid.toValidGraph]
  exact validMemberships_scope_iff hvalid hsplit hwithin haffected hcandidates

/-- Two components, and an account in a member of each. -/
def twoComponents : LedgerDirectory where
  accounts := fun accountId => some
    { normalBalanceType := .credit
      eventuallyConsistent := false
      isAccountSet := true
      velocityContextValues := ⟨accountId, "set", .credit, none, none⟩
      status := .active }
  journals := fun _ => none
  memberships :=
    { accountSets := fun _ => some ⟨0⟩
      memberAccounts := [⟨⟨2⟩, ⟨10⟩⟩, ⟨⟨4⟩, ⟨10⟩⟩]
      memberAccountSets := [⟨⟨1⟩, ⟨2⟩⟩, ⟨⟨3⟩, ⟨4⟩⟩]
      epoch := 1 }

/-- An edge that joins the components. -/
theorem scoped_validation_joins_components :
    ∃ existingEdges accountMembers,
      SetGraphCache.edgesConnectedTo
          { toIndexedNodes := SetGraphCache.indexNodes
              (twoComponents.setGraphNodes [⟨1⟩, ⟨2⟩, ⟨3⟩, ⟨4⟩])
            epoch := 1 } (.asStored _) [⟨⟨1⟩, ⟨3⟩⟩] = some existingEdges
        ∧ twoComponents.memberships.fetchAffectedAccountMemberships existingEdges [⟨⟨1⟩, ⟨3⟩⟩]
          = some accountMembers
        ∧ (validateSetMemberships (.asStored _) existingEdges [⟨⟨1⟩, ⟨3⟩⟩] accountMembers
            = some (.ok ())
          ↔ validateSetMemberships (.asStored _) twoComponents.memberships.memberAccountSets
            [⟨⟨1⟩, ⟨3⟩⟩] twoComponents.memberships.memberAccounts = some (.ok ())) :=
  scoped_validation_equivalent twoComponents [⟨1⟩, ⟨2⟩, ⟨3⟩, ⟨4⟩]
    ⟨by decide, by decide, by decide, by decide⟩
    ((validateSetMemberships_ok_iff (.asStored _) _ _ validGraph_nil).mp (by decide +kernel))
    _ (.refl _) _ _ _ _

end CalaLedger
