import CalaLedger.AccountSet.AncestorPass

/-! # Validation is exact

`validateSetMemberships` accepts proposed edges exactly when the edges together are a valid graph in
which every listed account is contained at most once in every set. When it rejects them it names a
condition that fails: a proposed edge on a cycle, a second path, or the first proposed edge with
which the graph becomes too deep and how deep it is then. -/

namespace CalaLedger

open Foundations Arrow

/-- A set graph as the ledger keeps it. -/
structure ValidGraph (edges : List SetMembership) : Prop where
  acyclic : Acyclic edges
  uniqueWalks : UniqueWalks edges
  depth : DepthAtMost edges MAX_MEMBERSHIP_DEPTH

/-- A set graph in which every account of a list is contained at most once in every set. -/
structure ValidMemberships (edges : List SetMembership) (accountMembers : List AccountMembership) :
    Prop extends ValidGraph edges where
  uniqueContainments : UniqueRoutes edges accountMembers

/-- What a rejection says of the existing and the proposed edges. -/
def Violates (existingEdges proposedEdges : List SetMembership)
    (accountMembers : List AccountMembership) : SetMembershipError → Prop
  | .membershipCycleDetected accountSetId memberAccountSetId =>
      ¬ Acyclic (existingEdges ++ proposedEdges)
        ∧ ⟨accountSetId, memberAccountSetId⟩ ∈ proposedEdges
        ∧ Reach (existingEdges ++ proposedEdges) memberAccountSetId accountSetId
  | .memberAlreadyAdded =>
      ¬ UniqueWalks (existingEdges ++ proposedEdges)
        ∨ ¬ UniqueRoutes (existingEdges ++ proposedEdges) accountMembers
  | .membershipDepthExceeded accountSetId memberAccountSetId depth max =>
      max = MAX_MEMBERSHIP_DEPTH ∧ max < depth
        ∧ ∃ index, proposedEdges[index]? = some ⟨accountSetId, memberAccountSetId⟩
          ∧ DepthAtMost (existingEdges ++ proposedEdges.take index) max
          ∧ HasDepth (existingEdges ++ proposedEdges.take (index + 1)) depth

/-- Validity as conditions on pairs, on an acyclic graph. -/
theorem validMemberships_iff {edges : List SetMembership}
    {accountMembers : List AccountMembership} :
    ValidMemberships edges accountMembers
      ↔ Acyclic edges ∧ Apart edges edges ∧ Apart edges accountMembers
        ∧ DepthAtMost edges MAX_MEMBERSHIP_DEPTH := by
  constructor
  · intro h
    exact ⟨h.acyclic, h.uniqueWalks.apart, h.uniqueContainments.apart, h.depth⟩
  · rintro ⟨hacyclic, hedges, hmembers, hdepth⟩
    have hwalks := (uniqueWalks_iff hacyclic).mpr hedges
    exact ⟨⟨hacyclic, hwalks, hdepth⟩, (uniqueRoutes_iff hwalks).mpr hmembers⟩

theorem take_subset {existingEdges proposedEdges : List SetMembership} (take : ℕ) :
    existingEdges ++ proposedEdges.take take ⊆ existingEdges ++ proposedEdges :=
  List.append_subset.mpr ⟨List.subset_append_left _ _,
    List.Subset.trans (List.take_subset _ _) (List.subset_append_right _ _)⟩

/-- What a result says. -/
def Verdict (existingEdges proposedEdges : List SetMembership)
    (accountMembers : List AccountMembership) : Except SetMembershipError Unit → Prop
  | .ok () => ValidMemberships (existingEdges ++ proposedEdges) accountMembers
  | .error error => Violates existingEdges proposedEdges accountMembers error

/-- A condition that is named fails. -/
theorem Violates.not_valid {existingEdges proposedEdges : List SetMembership}
    {accountMembers : List AccountMembership} {error : SetMembershipError}
    (h : Violates existingEdges proposedEdges accountMembers error) :
    ¬ ValidMemberships (existingEdges ++ proposedEdges) accountMembers := by
  intro hvalid
  cases error with
  | membershipCycleDetected accountSetId memberAccountSetId => exact h.1 hvalid.acyclic
  | memberAlreadyAdded =>
      exact h.elim (fun hwalks => hwalks hvalid.uniqueWalks)
        (fun hpaths => hpaths hvalid.uniqueContainments)
  | membershipDepthExceeded accountSetId memberAccountSetId depth max =>
      obtain ⟨rfl, hdeep, index, -, -, hdepth⟩ := h
      exact absurd (hdepth.le_iff.mpr (hvalid.depth.mono (take_subset _))) (Nat.not_le.mpr hdeep)

section Depth

variable (iteration : IterationOrder AccountSetId)
  {existingEdges proposedEdges : List SetMembership} {accountMembers : List AccountMembership}
  (hacyclic : Acyclic (existingEdges ++ proposedEdges))
include hacyclic

theorem prefixDepth_spec (take : ℕ) (htake : take ≤ proposedEdges.length) :
    ∃ depth, prefixDepth iteration existingEdges proposedEdges take = some depth
      ∧ HasDepth (existingEdges ++ proposedEdges.take take) depth := by
  obtain ⟨t, htraverse, hsorted⟩ := SetDag.traverse_spec iteration
    (SetDag.indexes_new (existingEdges ++ proposedEdges.take take))
  refine ⟨t.maxDepth, ?_, hsorted.hasDepth (hacyclic.mono (take_subset take))⟩
  rw [prefixDepth, if_pos htake, htraverse]
  rfl

/-- The binary search, between a prefix that is shallow enough and one that is not. -/
theorem searchOverflow_spec :
    ∀ (fuel low high : ℕ), high ≤ low + fuel → low ≤ high → high ≤ proposedEdges.length →
      DepthAtMost (existingEdges ++ proposedEdges.take (low - 1)) MAX_MEMBERSHIP_DEPTH →
      ¬ DepthAtMost (existingEdges ++ proposedEdges.take high) MAX_MEMBERSHIP_DEPTH →
      ∃ found, searchOverflow iteration existingEdges proposedEdges fuel low high = some found
        ∧ low ≤ found ∧ found ≤ high
        ∧ DepthAtMost (existingEdges ++ proposedEdges.take (found - 1)) MAX_MEMBERSHIP_DEPTH
        ∧ ¬ DepthAtMost (existingEdges ++ proposedEdges.take found) MAX_MEMBERSHIP_DEPTH := by
  intro fuel
  induction fuel with
  | zero =>
      intro low high hfuel hle _ hlow hhigh
      obtain rfl : low = high := by omega
      exact ⟨low, by rw [searchOverflow, if_neg (Nat.lt_irrefl _)], Nat.le_refl _, Nat.le_refl _,
        hlow, hhigh⟩
  | succ fuel ih =>
      intro low high hfuel hle hlength hlow hhigh
      rw [searchOverflow]
      by_cases hlt : low < high
      · rw [if_pos hlt]
        obtain ⟨depth, hdepth, hhas⟩ := prefixDepth_spec iteration hacyclic
          ((low + high) / 2) (by omega)
        rw [hdepth]
        show ∃ found, (if MAX_MEMBERSHIP_DEPTH < depth then _ else _) = some found ∧ _
        by_cases hdeep : MAX_MEMBERSHIP_DEPTH < depth
        · rw [if_pos hdeep]
          have hnot := (not_congr hhas.le_iff).mp (Nat.not_le.mpr hdeep)
          obtain ⟨found, hfound, hge, hle', hspec⟩ := ih low ((low + high) / 2)
            (by omega) (by omega) (by omega) hlow hnot
          exact ⟨found, hfound, hge, by omega, hspec⟩
        · rw [if_neg hdeep]
          have hshallow := hhas.le_iff.mp (Nat.not_lt.mp hdeep)
          obtain ⟨found, hfound, hge, hle', hspec⟩ := ih ((low + high) / 2 + 1)
            high (by omega) (by omega) hlength (by simpa using hshallow) hhigh
          exact ⟨found, hfound, by omega, hle', hspec⟩
      · rw [if_neg hlt]
        obtain rfl : low = high := by omega
        exact ⟨low, rfl, Nat.le_refl _, Nat.le_refl _, hlow, hhigh⟩

/-- The overflow search, run on a graph that is too deep: the first proposed edge with which it is,
and how deep it is then. -/
theorem firstDepthOverflow_spec (hexisting : DepthAtMost existingEdges MAX_MEMBERSHIP_DEPTH)
    (hdeep : ¬ DepthAtMost (existingEdges ++ proposedEdges) MAX_MEMBERSHIP_DEPTH) :
    ∃ index depth, firstDepthOverflow iteration existingEdges proposedEdges = some (index, depth)
      ∧ index < proposedEdges.length
      ∧ DepthAtMost (existingEdges ++ proposedEdges.take index) MAX_MEMBERSHIP_DEPTH
      ∧ ¬ DepthAtMost (existingEdges ++ proposedEdges.take (index + 1)) MAX_MEMBERSHIP_DEPTH
      ∧ HasDepth (existingEdges ++ proposedEdges.take (index + 1)) depth := by
  have hlength : 1 ≤ proposedEdges.length := by
    by_contra hzero
    obtain rfl : proposedEdges = [] := List.length_eq_zero_iff.mp (by omega)
    exact hdeep (by simpa using hexisting)
  obtain ⟨found, hsearch, hge, hle, hbefore, hafter⟩ := searchOverflow_spec iteration hacyclic
    proposedEdges.length 1 proposedEdges.length (Nat.le_add_left _ _) hlength (Nat.le_refl _)
    (by simpa using hexisting) (by simpa using hdeep)
  obtain ⟨depth, htaken, hhas⟩ := prefixDepth_spec iteration hacyclic found hle
  refine ⟨found - 1, depth, ?_, by omega, hbefore, ?_⟩
  · rw [firstDepthOverflow, hsearch]
    show (prefixDepth iteration existingEdges proposedEdges found).bind _ = _
    rw [htaken]
    rfl
  · rw [Nat.sub_add_cancel hge]
    exact ⟨hafter, hhas⟩

/-- **The depth check** rejects a graph that is too deep, naming the first proposed edge with which
it is. -/
theorem validateDepth_spec {traversal : Traversal}
    (hexisting : DepthAtMost existingEdges MAX_MEMBERSHIP_DEPTH)
    (hdepth : HasDepth (existingEdges ++ proposedEdges) traversal.maxDepth)
    (hvalid : DepthAtMost (existingEdges ++ proposedEdges) MAX_MEMBERSHIP_DEPTH →
      ValidMemberships (existingEdges ++ proposedEdges) accountMembers) :
    ∃ result, validateDepth iteration existingEdges proposedEdges traversal = some result
      ∧ Verdict existingEdges proposedEdges accountMembers result := by
  unfold validateDepth
  by_cases hdeep : MAX_MEMBERSHIP_DEPTH < traversal.maxDepth
  · rw [if_pos hdeep]
    have hnot := (not_congr hdepth.le_iff).mp (Nat.not_le.mpr hdeep)
    obtain ⟨index, depth, hfirst, hindex, hbefore, hafter, hhas⟩ :=
      firstDepthOverflow_spec iteration hacyclic hexisting hnot
    obtain ⟨edge, hedge⟩ : ∃ edge, proposedEdges[index]? = some edge :=
      ⟨_, List.getElem?_eq_getElem hindex⟩
    refine ⟨.error (.membershipDepthExceeded edge.accountSetId edge.memberAccountSetId depth
      MAX_MEMBERSHIP_DEPTH), ?_, rfl, ?_, index, hedge, hbefore, hhas⟩
    · rw [hfirst]
      show (proposedEdges[index]?).bind _ = _
      rw [hedge]
      rfl
    · exact Nat.not_le.mp (fun h => hafter (hhas.le_iff.mp h))
  · rw [if_neg hdeep]
    exact ⟨.ok (), rfl, hvalid (hdepth.le_iff.mp (Nat.not_lt.mp hdeep))⟩

end Depth

section CycleEdge

variable {existingEdges proposedEdges : List SetMembership} {dag : SetDag}

/-- `has_path` decides reachability, with enough fuel. -/
theorem hasPath_spec {edges : List SetMembership} (hdag : SetDag.Indexes dag edges) {fuel : ℕ}
    (hfuel : edges.length + 1 ≤ fuel) (source target : AccountSetId) :
    ∃ found, dag.hasPath fuel source target = some found
      ∧ (found = true ↔ Reach edges source target) := by
  obtain ⟨found, visited, hexplore, hfound, -⟩ := explore_edges hdag.children
    (fun v => decide (v = target)) fuel [source] (by simpa [Nat.add_comm] using hfuel)
  refine ⟨found, by rw [SetDag.hasPath, hexplore]; rfl, hfound.trans ?_⟩
  simp

/-- **A cycle is attributed to a proposed edge on one.** -/
theorem cycleEdge_spec (hdag : SetDag.Indexes dag (existingEdges ++ proposedEdges))
    (hexisting : Acyclic existingEdges) (hcycle : ¬ Acyclic (existingEdges ++ proposedEdges)) :
    ∃ edge ∈ proposedEdges, cycleEdge existingEdges proposedEdges dag = some edge
      ∧ Reach (existingEdges ++ proposedEdges) (dst edge) (src edge) := by
  have htest : ∀ edge : SetMembership, ∃ found,
      (if edge.accountSetId = edge.memberAccountSetId then some true
        else dag.hasPath (existingEdges.length + proposedEdges.length + 1) edge.memberAccountSetId
          edge.accountSetId) = some found
        ∧ (found = true ↔ Reach (existingEdges ++ proposedEdges) (dst edge) (src edge)) := by
    intro edge
    by_cases hself : edge.accountSetId = edge.memberAccountSetId
    · refine ⟨true, if_pos hself, iff_of_true rfl ?_⟩
      show Reach _ edge.memberAccountSetId edge.accountSetId
      rw [hself]
      exact Relation.ReflTransGen.refl
    · obtain ⟨found, hpath, hfound⟩ := hasPath_spec hdag (by rw [List.length_append])
        edge.memberAccountSetId edge.accountSetId
      exact ⟨found, (if_neg hself).trans hpath, hfound⟩
  choose onCycle htest honCycle using htest
  obtain ⟨closing, hclosing, hback⟩ := hexisting.exists_closing hcycle
  obtain ⟨edge, hedge⟩ := Option.isSome_iff_exists.mp
    (List.find?_isSome.mpr ⟨closing, hclosing, (honCycle closing).mpr hback⟩)
  refine ⟨edge, List.mem_of_find?_eq_some hedge, ?_, (honCycle edge).mp (List.find?_some hedge)⟩
  rw [cycleEdge, findM?_eq_some (fun edge _ => htest edge), hedge]
  rfl

end CycleEdge

/-! ## The whole validation -/

section Validate

variable (iteration : IterationOrder AccountSetId) {existingEdges : List SetMembership}
  (proposedEdges : List SetMembership) (accountMembers : List AccountMembership)

/-- **What `validateSetMemberships` returns** when the existing edges are a valid graph. -/
theorem validateSetMemberships_spec (hexisting : ValidGraph existingEdges) :
    ∃ result,
      validateSetMemberships iteration existingEdges proposedEdges accountMembers = some result
        ∧ Verdict existingEdges proposedEdges accountMembers result := by
  have hdag := SetDag.indexes_combinedDag existingEdges proposedEdges accountMembers
  obtain ⟨traversal, htraverse, hsorted⟩ := SetDag.traverse_spec iteration hdag
  unfold validateSetMemberships
  show ∃ result, (((combinedDag existingEdges proposedEdges accountMembers).traverse
    iteration).bind _) = some result ∧ _
  rw [htraverse]
  show ∃ result, (if traversal.order.length ≠ _ then _ else _) = some result ∧ _
  by_cases hacyclic : Acyclic (existingEdges ++ proposedEdges)
  · rw [if_neg (not_not.mpr (hsorted.complete_iff.mpr hacyclic))]
    have hancestors := SetDag.ancestors_spec hdag hsorted.topological hsorted.nodup
      (fun e he => hsorted.mem_of_acyclic hacyclic _ (hdag.src_mem e he))
    cases hpass : traversal.order.foldlM
        (combinedDag existingEdges proposedEdges accountMembers).passDown ∅ with
    | error error =>
        rw [hpass] at hancestors
        obtain ⟨rfl, hmerge⟩ := hancestors
        exact ⟨_, rfl, Or.inl (fun h => hmerge h.apart)⟩
    | ok ancestors =>
        rw [hpass] at hancestors
        obtain ⟨hapart, habove⟩ := hancestors
        have hpaths := SetDag.accountPaths_spec habove hacyclic iteration accountMembers
        dsimp only
        cases hinsert : accountMembers.foldlM (insertPaths iteration ancestors) [] with
        | error error =>
            rw [hinsert] at hpaths
            obtain ⟨rfl, hmerge⟩ := hpaths
            exact ⟨_, rfl, Or.inr (fun h => hmerge h.apart)⟩
        | ok accountPaths =>
            rw [hinsert] at hpaths
            exact validateDepth_spec iteration hacyclic hexisting.depth (hsorted.hasDepth hacyclic)
              (fun h => validMemberships_iff.mpr ⟨hacyclic, hapart, hpaths.1, h⟩)
  · rw [if_pos (fun h => hacyclic (hsorted.complete_iff.mp h))]
    obtain ⟨edge, hedge, hcycle, hback⟩ := cycleEdge_spec hdag hexisting.acyclic hacyclic
    rw [hcycle]
    exact ⟨_, rfl, hacyclic, hedge, hback⟩

/-- A validation ends, and accepts exactly what is valid. -/
theorem validateSetMemberships_ok_iff (hexisting : ValidGraph existingEdges) :
    validateSetMemberships iteration existingEdges proposedEdges accountMembers = some (.ok ())
      ↔ ValidMemberships (existingEdges ++ proposedEdges) accountMembers := by
  obtain ⟨result, hresult, hverdict⟩ := validateSetMemberships_spec iteration proposedEdges
    accountMembers hexisting
  rw [hresult]
  cases result with
  | error error => exact iff_of_false (by simp) (Violates.not_valid hverdict)
  | ok _ => exact iff_of_true rfl hverdict

end Validate

theorem validGraph_nil : ValidGraph [] := by
  have hwalk : ∀ {u is v}, Walk ([] : List SetMembership) u is v → is = [] := by
    intro u is v h
    cases h with
    | nil _ => rfl
    | cons he _ => simp at he
  refine ⟨fun u is h => hwalk h, fun u v is js h h' => ?_, fun u is v h => ?_⟩
  · rw [hwalk h, hwalk h']
  · rw [hwalk h]
    exact Nat.zero_le _

/-- Edges accepted on their own are a valid graph. -/
theorem validGraph_of_accepted {edges : List SetMembership}
    (h : validateSetMemberships (.asStored _) [] edges [] = some (.ok ())) : ValidGraph edges :=
  ((validateSetMemberships_ok_iff _ edges [] validGraph_nil).mp h).toValidGraph

/-- The depth of edges, from a Kahn pass that lists every set. -/
theorem hasDepth_of_traverse {edges : List SetMembership} {depth : ℕ}
    (h : ((SetDag.new edges).traverse (.asStored _)).map
      (fun t => (t.order.length, t.maxDepth)) = some ((SetDag.new edges).nodeCount, depth)) :
    HasDepth edges depth := by
  obtain ⟨t, htraverse, hsorted⟩ := SetDag.traverse_spec (.asStored _) (SetDag.indexes_new edges)
  rw [htraverse] at h
  obtain ⟨hcomplete, hdepth⟩ := Prod.mk.inj (Option.some.inj h)
  exact hdepth ▸ hsorted.hasDepth (hsorted.complete_iff.mp hcomplete)

/-- **Validation is exact.** For a valid existing graph, any proposed edges and any memberships of
accounts, `validateSetMemberships` returns; it accepts exactly when the combined graph is valid and
contains every listed account at most once in every set, and a rejection names a condition that
fails. -/
theorem set_memberships_validated_exactly (iteration : IterationOrder AccountSetId)
    (existingEdges proposedEdges : List SetMembership) (accountMembers : List AccountMembership)
    (hexisting : ValidGraph existingEdges) :
    ∃ result,
      validateSetMemberships iteration existingEdges proposedEdges accountMembers = some result
        ∧ (result = .ok ()
            ↔ ValidMemberships (existingEdges ++ proposedEdges) accountMembers)
        ∧ ∀ error, result = .error error →
            Violates existingEdges proposedEdges accountMembers error := by
  obtain ⟨result, hresult, hverdict⟩ := validateSetMemberships_spec iteration proposedEdges
    accountMembers hexisting
  refine ⟨result, hresult, ?_⟩
  cases result with
  | error error =>
      refine ⟨iff_of_false nofun (Violates.not_valid hverdict), ?_⟩
      rintro _ ⟨⟩
      exact hverdict
  | ok _ => exact ⟨iff_of_true rfl hverdict, nofun⟩

/-- A member under a container that holds it already through another set. -/
theorem set_memberships_validated_diamond :
    ValidGraph [⟨⟨1⟩, ⟨2⟩⟩, ⟨⟨2⟩, ⟨3⟩⟩]
      ∧ ∃ result, validateSetMemberships (.asStored _) [⟨⟨1⟩, ⟨2⟩⟩, ⟨⟨2⟩, ⟨3⟩⟩] [⟨⟨1⟩, ⟨3⟩⟩] []
          = some result
        ∧ (result = .ok ()
            ↔ ValidMemberships ([⟨⟨1⟩, ⟨2⟩⟩, ⟨⟨2⟩, ⟨3⟩⟩] ++ [⟨⟨1⟩, ⟨3⟩⟩]) [])
        ∧ ∀ error, result = .error error →
            Violates [⟨⟨1⟩, ⟨2⟩⟩, ⟨⟨2⟩, ⟨3⟩⟩] [⟨⟨1⟩, ⟨3⟩⟩] [] error :=
  have hvalid : ValidGraph [⟨⟨1⟩, ⟨2⟩⟩, ⟨⟨2⟩, ⟨3⟩⟩] := validGraph_of_accepted (by decide +kernel)
  ⟨hvalid, set_memberships_validated_exactly _ _ _ _ hvalid⟩

/-- A chain of sets, each a member of the one before. -/
def membershipChain (length : ℕ) : List SetMembership :=
  (List.range length).map (fun i => ⟨⟨i⟩, ⟨i + 1⟩⟩)

/-- The depth in a rejection is that of the edges up to the one named: eighteen proposed edges in a
chain are eighteen deep, and are rejected as seventeen deep. -/
theorem depth_error_of_chain :
    ValidGraph []
      ∧ validateSetMemberships (.asStored _) [] (membershipChain 18) []
          = some (.error (.membershipDepthExceeded ⟨16⟩ ⟨17⟩ 17 MAX_MEMBERSHIP_DEPTH))
      ∧ HasDepth ([] ++ membershipChain 18) 18
      ∧ ¬ HasDepth ([] ++ membershipChain 18) 17 := by
  have hdepth : HasDepth ([] ++ membershipChain 18) 18 :=
    hasDepth_of_traverse (by decide +kernel)
  refine ⟨validGraph_nil, by decide +kernel, hdepth, fun h => ?_⟩
  exact absurd (hdepth.le_iff.mpr (h.le_iff.mp (Nat.le_refl 17))) (by decide)

/-- The set is a node of the graph. -/
def IsNode (edges : List SetMembership) (v : AccountSetId) : Prop :=
  ∃ e ∈ edges, v = src e ∨ v = dst e

theorem isNode_iff {edges : List SetMembership} {v : AccountSetId} :
    IsNode edges v ↔ v ∈ (SetDag.new edges).indegree := by
  constructor
  · rintro ⟨e, he, rfl | rfl⟩
    · exact (SetDag.indexes_new edges).src_mem e he
    · exact (SetDag.indexes_new edges).dst_mem e he
  · induction edges using List.reverseRecOn with
    | nil => exact fun hv => absurd hv (AList.notMem_empty v)
    | append_singleton edges e ih =>
        intro hv
        rw [SetDag.new, List.foldl_append] at hv
        rcases mem_upsert.mp hv with rfl | hv
        · exact ⟨e, by simp, Or.inl rfl⟩
        · rcases mem_upsert.mp hv with rfl | hv
          · exact ⟨e, by simp, Or.inr rfl⟩
          · obtain ⟨e', he', hend⟩ := ih hv
            exact ⟨e', List.mem_append_left _ he', hend⟩

/-- **The traversal and the overflow search.** Over any edges, `traverse` ends, lists no set twice
and every set after its containers, and lists all of them exactly when there is no cycle; then it
notes for each the length of its longest chain from a root. When the existing edges are shallow
enough and all the edges are not, `firstDepthOverflow` finds the least index of a proposed edge with
which the graph is too deep, and its depth then. -/
theorem set_graph_traversed_and_searched (iteration : IterationOrder AccountSetId) :
    (∀ edges : List SetMembership, ∃ t, (SetDag.new edges).traverse iteration = some t
      ∧ (∀ v ∈ t.order, IsNode edges v) ∧ t.order.Nodup ∧ Topological edges t.order
      ∧ ((∀ v, IsNode edges v → v ∈ t.order) ↔ Acyclic edges)
      ∧ (Acyclic edges → ∀ v, IsNode edges v →
          IsGreatest (chainLengths edges v) ((t.depths.lookup v).getD 0)))
    ∧ ∀ existingEdges proposedEdges : List SetMembership,
        DepthAtMost existingEdges MAX_MEMBERSHIP_DEPTH → Acyclic (existingEdges ++ proposedEdges) →
        ¬ DepthAtMost (existingEdges ++ proposedEdges) MAX_MEMBERSHIP_DEPTH →
        ∃ index depth,
          firstDepthOverflow iteration existingEdges proposedEdges = some (index, depth)
          ∧ IsLeast { i | i < proposedEdges.length
              ∧ ¬ DepthAtMost (existingEdges ++ proposedEdges.take (i + 1)) MAX_MEMBERSHIP_DEPTH }
            index
          ∧ HasDepth (existingEdges ++ proposedEdges.take (index + 1)) depth := by
  constructor
  · intro edges
    have hdag := SetDag.indexes_new edges
    obtain ⟨t, htraverse, hsorted⟩ := SetDag.traverse_spec iteration hdag
    refine ⟨t, htraverse, ?_, hsorted.nodup, hsorted.topological, ⟨?_, ?_⟩, ?_⟩
    · exact fun v hv => isNode_iff.mpr (SetDag.mem_of_traverse iteration hdag htraverse hv)
    · exact fun hall => hsorted.topological.acyclic (fun e he => hall _ ⟨e, he, Or.inr rfl⟩)
    · exact fun hacyclic v hv => hsorted.mem_of_acyclic hacyclic v (isNode_iff.mp hv)
    · exact fun hacyclic v hv =>
        SetDag.traverse_depth iteration hdag htraverse hacyclic (isNode_iff.mp hv)
  · intro existingEdges proposedEdges hexisting hacyclic hdeep
    obtain ⟨index, depth, hfirst, hindex, hbefore, hafter, hhas⟩ :=
      firstDepthOverflow_spec iteration hacyclic hexisting hdeep
    refine ⟨index, depth, hfirst, ⟨⟨hindex, hafter⟩, ?_⟩, hhas⟩
    -- depth only grows with the prefix
    rintro i ⟨-, hi⟩
    by_contra hlt
    refine hi (hbefore.mono (List.append_subset.mpr ⟨List.subset_append_left _ _, ?_⟩))
    intro e he
    have htake : (proposedEdges.take index).take (i + 1) = proposedEdges.take (i + 1) := by
      rw [List.take_take, Nat.min_eq_left (by omega)]
    rw [← htake] at he
    exact List.mem_append_right _ (List.mem_of_mem_take he)

/-- A chain of eighteen proposed edges is too deep from its seventeenth edge on. -/
theorem set_graph_traversed_and_searched_chain :
    (DepthAtMost ([] : List SetMembership) MAX_MEMBERSHIP_DEPTH
      ∧ Acyclic ([] ++ membershipChain 18)
      ∧ ¬ DepthAtMost ([] ++ membershipChain 18) MAX_MEMBERSHIP_DEPTH)
    ∧ ∃ index depth, firstDepthOverflow (.asStored _) [] (membershipChain 18) = some (index, depth)
        ∧ IsLeast { i | i < (membershipChain 18).length
            ∧ ¬ DepthAtMost ([] ++ (membershipChain 18).take (i + 1)) MAX_MEMBERSHIP_DEPTH } index
        ∧ HasDepth ([] ++ (membershipChain 18).take (index + 1)) depth := by
  have hdepth : HasDepth ([] ++ membershipChain 18) 18 := hasDepth_of_traverse (by decide +kernel)
  have hdeep : ¬ DepthAtMost ([] ++ membershipChain 18) MAX_MEMBERSHIP_DEPTH :=
    fun h => absurd (hdepth.le_iff.mpr h) (by decide)
  have hacyclic : Acyclic ([] ++ membershipChain 18) := by
    obtain ⟨t, htraverse, hsorted⟩ := SetDag.traverse_spec (.asStored _)
      (SetDag.indexes_new ([] ++ membershipChain 18))
    refine hsorted.complete_iff.mp ?_
    have hlisted : ((SetDag.new ([] ++ membershipChain 18)).traverse (.asStored _)).map
        (fun t => t.order.length) = some (SetDag.new ([] ++ membershipChain 18)).nodeCount := by
      decide +kernel
    rw [htraverse] at hlisted
    exact Option.some.inj hlisted
  have hexisting := validGraph_nil.depth
  exact ⟨⟨hexisting, hacyclic, hdeep⟩,
    (set_graph_traversed_and_searched (.asStored _)).2 [] (membershipChain 18) hexisting hacyclic
      hdeep⟩

end CalaLedger
