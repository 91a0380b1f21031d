import CalaLedger.AccountSet.KahnTraversal

/-! # The ancestor pass

Once the sets are ordered, two passes look for a second containment path. The first unites the sets
above every set edge by edge and fails when two edges merge (`ancestors_spec`); the second inserts
the containments of the listed accounts one membership after the other and fails when two memberships
merge (`accountPaths_spec`). -/

namespace CalaLedger

open Foundations Arrow

namespace SetDag

variable {dag : SetDag} {edges : List SetMembership}

/-- What the ancestor pass knows: the sets above every set, along the edges followed. -/
structure Above (edges followed : List SetMembership)
    (ancestors : HashMap AccountSetId (List AccountSetId)) : Prop where
  nodup : ∀ v, ((ancestors.lookup v).getD []).Nodup
  mem : ∀ v u, u ∈ (ancestors.lookup v).getD []
    ↔ ∃ e ∈ followed, dst e = v ∧ Reach edges u (src e)

theorem Above.perm {followed followed' : List SetMembership} (hperm : followed.Perm followed')
    {ancestors : HashMap AccountSetId (List AccountSetId)} (h : Above edges followed ancestors) :
    Above edges followed' ancestors where
  nodup := h.nodup
  mem := by
    intro v u
    simp only [h.mem, hperm.mem_iff]

/-- A set is above another when it is the same or above the source of an edge into it. -/
theorem reach_iff_of_edge {u v : AccountSetId} :
    Reach edges u v ↔ u = v ∨ ∃ e ∈ edges, dst e = v ∧ Reach edges u (src e) := by
  constructor
  · intro h
    cases h with
    | refl => exact Or.inl rfl
    | tail hreach hlead =>
        obtain ⟨e, he, rfl, rfl⟩ := hlead
        exact Or.inr ⟨e, he, rfl, hreach⟩
  · rintro (rfl | ⟨e, he, rfl, hreach⟩)
    · exact Relation.ReflTransGen.refl
    · exact hreach.tail (leads_of_mem he)

/-- What a set contributes to its members: the sets that reach it. -/
theorem Above.mem_contribution {followed : List SetMembership}
    {ancestors : HashMap AccountSetId (List AccountSetId)} (h : Above edges followed ancestors)
    (hsub : followed ⊆ edges) {v : AccountSetId} (hinto : ∀ e ∈ edges, dst e = v → e ∈ followed)
    (u : AccountSetId) :
    u ∈ ((ancestors.lookup v).getD []).insert v ↔ Reach edges u v := by
  rw [List.mem_insert_iff, h.mem, reach_iff_of_edge]
  refine or_congr_right (exists_congr (fun e => ?_))
  exact ⟨fun ⟨he, hdst, hreach⟩ => ⟨hsub he, hdst, hreach⟩,
    fun ⟨he, hdst, hreach⟩ => ⟨hinto e he hdst, hdst, hreach⟩⟩

/-- **One edge**: the sets above its source must be new to its end. -/
theorem contribute_spec {contribution : List AccountSetId} {e : SetMembership}
    (hnodup : contribution.Nodup)
    (hcontribution : ∀ u, u ∈ contribution ↔ Reach edges u (src e))
    {followed : List SetMembership} {ancestors : HashMap AccountSetId (List AccountSetId)}
    (h : Above edges followed ancestors) :
    Decides .memberAlreadyAdded (∀ e' ∈ followed, ¬ Merges edges e' e)
      (Above edges (followed ++ [e])) (contribute contribution ancestors (dst e)) := by
  have hmerges : ((ancestors.lookup (dst e)).getD []).any (· ∈ contribution) = true
      ↔ ¬ ∀ e' ∈ followed, ¬ Merges edges e' e := by
    rw [List.any_eq_true]
    push Not
    constructor
    · rintro ⟨u, hu, hmem⟩
      obtain ⟨e', he', hdst, hreach⟩ := (h.mem _ u).mp hu
      exact ⟨e', he', hdst, u, hreach, (hcontribution u).mp (of_decide_eq_true hmem)⟩
    · rintro ⟨e', he', hdst, u, hreach, hreach'⟩
      exact ⟨u, (h.mem _ u).mpr ⟨e', he', hdst, hreach⟩,
        decide_eq_true ((hcontribution u).mpr hreach')⟩
  unfold contribute
  by_cases hany : ((ancestors.lookup (dst e)).getD []).any (· ∈ contribution) = true
  · rw [if_pos hany]
    exact ⟨rfl, hmerges.mp hany⟩
  · rw [if_neg hany]
    refine ⟨not_not.mp (fun hnot => hany (hmerges.mpr hnot)), ⟨fun v => ?_, fun v u => ?_⟩⟩
    · by_cases heq : v = dst e
      · rw [heq, AList.lookup_insert, Option.getD_some]
        exact hnodup.union _
      · rw [AList.lookup_insert_ne heq]
        exact h.nodup v
    · have hsplit : (∃ e' ∈ followed ++ [e], dst e' = v ∧ Reach edges u (src e'))
          ↔ (∃ e' ∈ followed, dst e' = v ∧ Reach edges u (src e'))
            ∨ dst e = v ∧ Reach edges u (src e) := by
        simp [or_and_right, exists_or]
      rw [hsplit, ← h.mem]
      by_cases heq : v = dst e
      · rw [heq, AList.lookup_insert, Option.getD_some, List.mem_union_iff, hcontribution]
        simp
      · rw [AList.lookup_insert_ne heq]
        simp [Ne.symm heq]

/-- **One set** in the ancestor pass. -/
theorem passDown_spec (hdag : Indexes dag edges) {followed : List SetMembership}
    {ancestors : HashMap AccountSetId (List AccountSetId)} (h : Above edges followed ancestors)
    (hsub : followed ⊆ edges) {v : AccountSetId} (hinto : ∀ e ∈ edges, dst e = v → e ∈ followed) :
    Decides .memberAlreadyAdded
      (Apart edges (edgesFrom edges v)
        ∧ ∀ e' ∈ followed, ∀ e ∈ edgesFrom edges v, ¬ Merges edges e' e)
      (Above edges (followed ++ edgesFrom edges v)) (dag.passDown ancestors v) := by
  rw [passDown, hdag.children, List.foldlM_map]
  refine decides_foldlM (I := Above edges) (fun e he done s hs => ?_) _ _ h
  refine contribute_spec ((h.nodup v).insert) (fun u => ?_) hs
  rw [h.mem_contribution hsub hinto, (mem_edgesFrom.mp he).2]

/-- **The ancestor pass** finds the sets above every set, and fails exactly when two edges merge. -/
theorem ancestors_spec (hdag : Indexes dag edges) {order : List AccountSetId}
    (htopological : Topological edges order) (hnodup : order.Nodup)
    (hall : ∀ e ∈ edges, src e ∈ order) :
    Decides .memberAlreadyAdded (Apart edges edges) (Above edges edges)
      (order.foldlM dag.passDown ∅) := by
  have hstart : Above edges [] ∅ := ⟨fun _ => List.nodup_nil, fun _ _ => by simp⟩
  have hperm := perm_edges_of_order hnodup hall
  have hrun : ∀ (back front : List AccountSetId) (ancestors), order = front ++ back →
      Above edges (front.flatMap (edgesFrom edges)) ancestors →
      Apart edges (front.flatMap (edgesFrom edges)) →
      Decides .memberAlreadyAdded (Apart edges ((front ++ back).flatMap (edgesFrom edges)))
        (Above edges ((front ++ back).flatMap (edgesFrom edges)))
        (back.foldlM dag.passDown ancestors) := by
    intro back
    induction back with
    | nil =>
        intro front ancestors _ h hapart
        rw [List.append_nil]
        exact ⟨hapart, h⟩
    | cons v back ih =>
        intro front ancestors hsplit h hapart
        have hsub : front.flatMap (edgesFrom edges) ⊆ edges := by
          intro e he
          obtain ⟨w, -, he⟩ := List.mem_flatMap.mp he
          exact (mem_edgesFrom.mp he).1
        have hassoc : front ++ v :: back = (front ++ [v]) ++ back := by simp
        have hfront : (front ++ [v]).flatMap (edgesFrom edges)
            = front.flatMap (edgesFrom edges) ++ edgesFrom edges v := by simp
        have hstep := passDown_spec hdag h hsub
          (fun e he hdst => htopological.into_of_split hsplit he hdst)
        have hrest : ∀ hQ s, Above edges (front.flatMap (edgesFrom edges) ++ edgesFrom edges v) s → _ :=
          fun (hQ : _ ∧ _) s hs => ih (front ++ [v]) s (hassoc ▸ hsplit) (hfront ▸ hs)
            (by rw [hfront]; exact List.pairwise_append.mpr ⟨hapart, hQ.1, hQ.2⟩)
        rw [List.foldlM_cons, hassoc]
        refine (hstep.bind hrest).imp ⟨And.right, fun hQ => ⟨?_, hQ⟩⟩ (fun _ => id)
        rw [List.flatMap_append, hfront] at hQ
        exact (List.pairwise_append.mp (List.pairwise_append.mp hQ).1).2
  have h := hrun order [] ∅ rfl hstart List.Pairwise.nil
  rw [List.nil_append] at h
  exact h.imp (apart_perm (List.Subset.refl _) (List.Subset.refl _) hperm)
    (fun _ => Above.perm hperm)

/-! ## Accounts -/

/-- One insertion into `account_paths`. -/
theorem insertPath_spec {done accountPaths : List AccountMembership}
    (h : ∀ p, p ∈ accountPaths ↔ p ∈ done) (path : AccountMembership) :
    Decides .memberAlreadyAdded (∀ p ∈ done, p ≠ path)
      (fun s : List AccountMembership => ∀ p, p ∈ s ↔ p ∈ done ++ [path])
      (insertPath accountPaths path) := by
  unfold insertPath
  by_cases hmem : path ∈ accountPaths
  · rw [if_pos hmem]
    exact ⟨rfl, fun hnew => hnew path ((h path).mp hmem) rfl⟩
  · rw [if_neg hmem]
    refine ⟨?_, fun p => ?_⟩
    · rintro p hp rfl
      exact hmem ((h p).mpr hp)
    · rw [List.mem_cons, h p, List.mem_append, List.mem_singleton, or_comm]

/-- The containments a membership adds: of its own set, and of every set above it. -/
def pathsOf (iteration : IterationOrder AccountSetId)
    (ancestors : HashMap AccountSetId (List AccountSetId)) (membership : AccountMembership) :
    List AccountMembership :=
  membership :: (iteration.arrange ((ancestors.lookup membership.accountSetId).getD [])).map
    (fun container => ⟨container, membership.accountId⟩)

theorem insertPaths_eq (iteration : IterationOrder AccountSetId)
    (ancestors : HashMap AccountSetId (List AccountSetId)) (accountPaths : List AccountMembership)
    (membership : AccountMembership) :
    insertPaths iteration ancestors accountPaths membership
      = (pathsOf iteration ancestors membership).foldlM insertPath accountPaths := by
  rw [pathsOf, List.foldlM_cons, insertPaths]
  simp only [List.foldlM_map]
  cases hlookup : ancestors.lookup membership.accountSetId with
  | none =>
      rw [Option.getD_none, (iteration.perm []).eq_nil]
      rfl
  | some containers => rfl

section AccountPaths

variable {ancestors : HashMap AccountSetId (List AccountSetId)}
  (habove : Above edges edges ancestors) (hacyclic : Acyclic edges)
  (iteration : IterationOrder AccountSetId)
include habove

theorem mem_pathsOf {membership path : AccountMembership} :
    path ∈ pathsOf iteration ancestors membership
      ↔ dst path = dst membership ∧ Reach edges (src path) (src membership) := by
  obtain ⟨container, accountId⟩ := path
  obtain ⟨setId, accountId'⟩ := membership
  rw [pathsOf, List.mem_cons, List.mem_map]
  simp only [iteration.mem_arrange, habove.mem, AccountMembership.mk.injEq]
  show (container = setId ∧ accountId = accountId') ∨ _
    ↔ accountId = accountId' ∧ Reach edges container setId
  rw [reach_iff_of_edge]
  constructor
  · rintro (⟨rfl, rfl⟩ | ⟨v, habove, rfl, rfl⟩)
    · exact ⟨rfl, Or.inl rfl⟩
    · exact ⟨rfl, Or.inr habove⟩
  · rintro ⟨rfl, rfl | habove⟩
    · exact Or.inl ⟨rfl, rfl⟩
    · exact Or.inr ⟨container, habove, rfl, rfl⟩

include hacyclic

theorem nodup_pathsOf (membership : AccountMembership) :
    (pathsOf iteration ancestors membership).Nodup := by
  refine List.nodup_cons.mpr ⟨fun hmem => ?_, ?_⟩
  · -- no set is strictly above itself
    obtain ⟨container, hcontainer, heq⟩ := List.mem_map.mp hmem
    rw [iteration.mem_arrange, habove.mem] at hcontainer
    obtain ⟨e, he, hdst, hreach⟩ := hcontainer
    refine acyclic_iff.mp hacyclic e he ?_
    rw [hdst, ← congrArg AccountMembership.accountSetId heq]
    exact hreach
  · refine List.Nodup.map (fun v w h => congrArg AccountMembership.accountSetId h) ?_
    exact (iteration.perm _).nodup_iff.mpr (habove.nodup _)

/-- **One membership**: its containments must be new. -/
theorem insertPaths_spec {done accountPaths : List AccountMembership}
    (h : ∀ p, p ∈ accountPaths ↔ ∃ m ∈ done, dst p = dst m ∧ Reach edges (src p) (src m))
    (membership : AccountMembership) :
    Decides .memberAlreadyAdded (∀ m ∈ done, ¬ Merges edges m membership)
      (fun s : List AccountMembership => ∀ p, p ∈ s
        ↔ ∃ m ∈ done ++ [membership], dst p = dst m ∧ Reach edges (src p) (src m))
      (insertPaths iteration ancestors accountPaths membership) := by
  rw [insertPaths_eq]
  refine (decides_foldlM (R := fun p q : AccountMembership => p ≠ q)
    (I := fun done s : List AccountMembership => ∀ p, p ∈ s ↔ p ∈ done)
    (fun p _ done s hs => insertPath_spec hs p) _ _ (fun p => Iff.rfl)).imp ?_ (fun s hs p => ?_)
  · constructor
    · rintro ⟨-, hnew⟩ m hm ⟨hdst, u, hu, hu'⟩
      refine hnew ⟨u, dst m⟩ ((h _).mpr ⟨m, hm, rfl, hu⟩) ⟨u, dst m⟩ ?_ rfl
      exact (mem_pathsOf habove iteration).mpr ⟨hdst, hu'⟩
    · intro hapart
      refine ⟨nodup_pathsOf habove hacyclic iteration membership, ?_⟩
      rintro p hp p' hp' rfl
      obtain ⟨m, hm, hdst, hreach⟩ := (h p).mp hp
      obtain ⟨hdst', hreach'⟩ := (mem_pathsOf habove iteration).mp hp'
      exact hapart m hm ⟨hdst.symm.trans hdst', src p, hreach, hreach'⟩
  · rw [hs, List.mem_append, h, mem_pathsOf habove iteration]
    simp [or_and_right, exists_or]

/-- **The account pass** fails exactly when two memberships merge. -/
theorem accountPaths_spec (accountMembers : List AccountMembership) :
    Decides .memberAlreadyAdded (Apart edges accountMembers) (fun _ => True)
      (accountMembers.foldlM (insertPaths iteration ancestors) []) := by
  refine (decides_foldlM (fun m _ done s hs =>
    insertPaths_spec habove hacyclic iteration hs m) [] _ (by simp)).imp ?_ (fun _ _ => trivial)
  exact ⟨And.left, fun h => ⟨h, nofun⟩⟩

end AccountPaths

end SetDag

end CalaLedger
