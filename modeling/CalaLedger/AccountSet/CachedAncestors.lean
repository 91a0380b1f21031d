import CalaLedger.AccountSet.CommittedGraph
import CalaLedger.Foundations.Exploration

/-! # Ancestors from a cached graph

What `expand` finds over a snapshot and an overlay that hold the sets of a directory is what the
recursive walk finds in that directory: the same ancestors of every probed account, and the same
pairs to lock (`expand_eq_walk`). It gives up only where it meets a set neither knows
(`expand_isSome`). -/

namespace CalaLedger

open Foundations (Closed InScope)

/-- A set, as it is cached. -/
def LedgerDirectory.setMeta (directory : LedgerDirectory) (setId : AccountSetId) : Option SetMeta :=
  (directory.memberships.accountSets setId).bind (fun journalId =>
    (directory.accounts (AccountId.ofSet setId)).map (fun row =>
      ⟨journalId, row.eventuallyConsistent⟩))

theorem LedgerDirectory.setMeta_eq_some {directory : LedgerDirectory} {setId : AccountSetId}
    {found : SetMeta} (h : directory.setMeta setId = some found) :
    directory.memberships.accountSets setId = some found.journalId
      ∧ directory.accounts.consistency found.eventuallyConsistent (AccountId.ofSet setId) := by
  obtain ⟨journalId, hjournal, hrow⟩ := Option.bind_eq_some_iff.mp h
  obtain ⟨row, hstored, rfl⟩ := Option.map_eq_some_iff.mp hrow
  refine ⟨hjournal, ?_⟩
  rw [AccountTable.consistency, hstored, Option.map_some]

/-- Edges and memberships name sets, and sets have accounts. -/
structure LedgerDirectory.Linked (directory : LedgerDirectory) : Prop where
  backed : directory.SetsBacked
  edges : ∀ edge ∈ directory.memberships.memberAccountSets,
    (directory.memberships.accountSets edge.accountSetId).isSome
      ∧ (directory.memberships.accountSets edge.memberAccountSetId).isSome
  members : ∀ row ∈ directory.memberships.memberAccounts,
    (directory.memberships.accountSets row.accountSetId).isSome

theorem LedgerDirectory.SetsBacked.isSome_setMeta {directory : LedgerDirectory}
    (h : directory.SetsBacked) {setId : AccountSetId}
    (hset : (directory.memberships.accountSets setId).isSome) :
    (directory.setMeta setId).isSome := by
  obtain ⟨journalId, hjournal⟩ := Option.isSome_iff_exists.mp hset
  obtain ⟨row, hrow, -⟩ := h setId journalId hjournal
  rw [setMeta, hjournal, Option.bind_some, hrow]
  rfl

/-- Everything above an account is a set. -/
theorem LedgerDirectory.Linked.isSome_of_mem_ancestors {directory : LedgerDirectory}
    (h : directory.Linked) {accountId : AccountId} {setId : AccountSetId}
    (hmem : setId ∈ directory.memberships.ancestors accountId) :
    (directory.memberships.accountSets setId).isSome := by
  obtain ⟨direct, hdirect, hreach⟩ := MembershipTables.mem_ancestors.mp hmem
  induction hreach with
  | refl => exact h.members _ hdirect
  | tail _ hedge _ => exact (h.edges _ hedge).1

/-- Indexed nodes hold sets of a directory, each with all of its parents; they may hold sets that
the directory does not have. -/
structure IndexedNodes.Holds (nodes : IndexedNodes) (directory : LedgerDirectory) : Prop where
  sets : ∀ setId found, nodes.sets.lookup setId = some found →
    ∀ stored ∈ directory.setMeta setId, stored = found
  keys : ∀ setId, (nodes.parents.lookup setId).isSome → (nodes.sets.lookup setId).isSome
  parents : ∀ setId parentId, parentId ∈ (nodes.parents.lookup setId).getD []
    ↔ (nodes.sets.lookup setId).isSome ∧ parentId ∈ directory.memberships.parents setId

namespace SetGraphCache

/-- Nothing is held. -/
theorem holds_cold (directory : LedgerDirectory) : cold.Holds directory := by
  constructor
  · rintro setId found ⟨⟩
  · rintro setId ⟨⟩
  · intro setId parentId
    constructor
    · exact fun hmem => (List.not_mem_nil hmem).elim
    · exact fun h => (Bool.false_ne_true h.1).elim

/-! ## Indexing -/

section Index

variable {directory : LedgerDirectory} {setIds : List AccountSetId}

/-- The rows that are read of a set. -/
theorem mem_setGraphNodes {node : SetGraphNode} :
    node ∈ directory.setGraphNodes setIds
      ↔ node.id ∈ setIds
        ∧ directory.setMeta node.id = some ⟨node.journalId, node.eventuallyConsistent⟩
        ∧ match node.parentId with
          | none => directory.memberships.parents node.id = []
          | some parentId => parentId ∈ directory.memberships.parents node.id := by
  obtain ⟨id, journalId, eventuallyConsistent, parentId⟩ := node
  unfold LedgerDirectory.setGraphNodes LedgerDirectory.setMeta
  rw [List.mem_flatMap]
  constructor
  · rintro ⟨setId, hset, hnode⟩
    cases hjournal : directory.memberships.accountSets setId with
    | none => simp [hjournal] at hnode
    | some journalId' =>
        cases hrow : directory.accounts (AccountId.ofSet setId) with
        | none => simp [hjournal, hrow] at hnode
        | some row =>
            simp only [hjournal, hrow, List.mem_map, SetGraphNode.mk.injEq] at hnode
            obtain ⟨parent, hparent, rfl, rfl, rfl, rfl⟩ := hnode
            refine ⟨hset, by simp [hjournal, hrow], ?_⟩
            by_cases hroot : directory.memberships.parents setId = []
            · rw [if_pos hroot, List.mem_singleton] at hparent
              rw [hparent]
              exact hroot
            · rw [if_neg hroot] at hparent
              obtain ⟨parentId, hmem, rfl⟩ := List.mem_map.mp hparent
              exact hmem
  · rintro ⟨hset, hmeta, hparent⟩
    obtain ⟨journalId', hjournal, hrow⟩ := Option.bind_eq_some_iff.mp hmeta
    obtain ⟨row, hstored, hsame⟩ := Option.map_eq_some_iff.mp hrow
    cases hsame
    refine ⟨id, hset, ?_⟩
    dsimp only at hjournal hstored
    simp only [hjournal, hstored, List.mem_map, SetGraphNode.mk.injEq, true_and, exists_eq_right]
    cases parentId with
    | none =>
        have hroot : directory.memberships.parents id = [] := hparent
        rw [if_pos hroot]
        exact List.mem_singleton_self none
    | some parentId =>
        have hmem : parentId ∈ directory.memberships.parents id := hparent
        rw [if_neg (List.ne_nil_of_mem hmem)]
        exact List.mem_map_of_mem hmem

/-- The sets of indexed nodes, exactly. -/
theorem isSome_lookup_indexNodes {nodes : List SetGraphNode} {setId : AccountSetId} :
    ((indexNodes nodes).sets.lookup setId).isSome ↔ ∃ node ∈ nodes, node.id = setId := by
  refine ⟨exists_of_lookup_indexNodes, ?_⟩
  rintro ⟨node, hnode, hid⟩
  have hsets := Foundations.lookup_foldl_store SetGraphNode.id
    (fun node => (⟨node.journalId, node.eventuallyConsistent⟩ : SetMeta)) setId nodes ∅
  rw [indexNodes, hsets, AList.lookup_empty, Option.or_none, Option.isSome_map,
    List.getLast?_isSome]
  exact List.ne_nil_of_mem (List.mem_filter.mpr ⟨hnode, decide_eq_true hid⟩)

/-- The parents of indexed nodes are pushed edge by edge. -/
theorem parents_indexNodes (nodes : List SetGraphNode) :
    (indexNodes nodes).parents = (edgesOfNodes nodes).foldl (fun m e =>
      Foundations.upsert m e.memberAccountSetId [] (· ++ [e.accountSetId])) ∅ := by
  rw [foldl_edgesOfNodes]
  rfl

theorem mem_edgesOfNodes {nodes : List SetGraphNode} {edge : SetMembership} :
    edge ∈ edgesOfNodes nodes
      ↔ ∃ node ∈ nodes, node.id = edge.memberAccountSetId ∧ node.parentId = some edge.accountSetId := by
  obtain ⟨parentId, memberId⟩ := edge
  simp only [edgesOfNodes, List.mem_filterMap, Option.map_eq_some_iff, SetMembership.mk.injEq]
  constructor
  · rintro ⟨node, hnode, parent, hparent, rfl, rfl⟩
    exact ⟨node, hnode, rfl, hparent⟩
  · rintro ⟨node, hnode, rfl, hparent⟩
    exact ⟨node, hnode, parentId, hparent, rfl, rfl⟩

/-- An indexed set is as it was read. -/
theorem setMeta_of_lookup_indexNodes {setId : AccountSetId} {found : SetMeta}
    (h : (indexNodes (directory.setGraphNodes setIds)).sets.lookup setId = some found) :
    directory.setMeta setId = some found := by
  have hlookup := Foundations.lookup_foldl_store SetGraphNode.id
    (fun node => (⟨node.journalId, node.eventuallyConsistent⟩ : SetMeta)) setId
    (directory.setGraphNodes setIds) ∅
  rw [indexNodes, hlookup, AList.lookup_empty, Option.or_none] at h
  obtain ⟨node, hnode, rfl⟩ := Option.map_eq_some_iff.mp h
  obtain ⟨hmem, hid⟩ := List.mem_filter.mp (List.mem_of_getLast? hnode)
  obtain rfl := of_decide_eq_true hid
  exact (mem_setGraphNodes.mp hmem).2.1

variable (directory setIds) in
/-- **What is read of some sets holds them.** -/
theorem holds_indexNodes : (indexNodes (directory.setGraphNodes setIds)).Holds directory := by
  constructor
  · intro setId found h
    rw [setMeta_of_lookup_indexNodes h]
    exact fun stored hstored => (Option.some.inj hstored).symm
  · intro setId hstored
    have hlookup := Foundations.lookup_foldl_upsert SetMembership.memberAccountSetId []
      (fun parents e => parents ++ [e.accountSetId]) setId
      (edgesOfNodes (directory.setGraphNodes setIds)) ∅
    rw [← parents_indexNodes, AList.lookup_empty] at hlookup
    rw [hlookup] at hstored
    split at hstored
    · rename_i hsome
      obtain ⟨edge, hedge, rfl⟩ := hsome
      obtain ⟨node, hnode, hid, -⟩ := mem_edgesOfNodes.mp hedge
      exact isSome_lookup_indexNodes.mpr ⟨node, hnode, hid⟩
    · cases hstored
  · intro setId parentId
    have hlookup := Foundations.getD_lookup_foldl_push SetMembership.memberAccountSetId
      SetMembership.accountSetId setId (edgesOfNodes (directory.setGraphNodes setIds)) ∅
    rw [← parents_indexNodes, AList.lookup_empty, Option.getD_none, List.nil_append] at hlookup
    rw [hlookup, isSome_lookup_indexNodes, List.mem_map]
    constructor
    · rintro ⟨edge, hedge, rfl⟩
      obtain ⟨hread, hmember⟩ := List.mem_filter.mp hedge
      obtain rfl := of_decide_eq_true hmember
      obtain ⟨node, hnode, hid, hparent⟩ := mem_edgesOfNodes.mp hread
      have hstored := (mem_setGraphNodes.mp hnode).2.2
      rw [hparent, hid] at hstored
      exact ⟨⟨node, hnode, hid⟩, hstored⟩
    · rintro ⟨⟨node, hnode, rfl⟩, hmem⟩
      -- another row of the same set names this parent
      obtain ⟨hset, hmeta, -⟩ := mem_setGraphNodes.mp hnode
      refine ⟨⟨parentId, node.id⟩, List.mem_filter.mpr ⟨mem_edgesOfNodes.mpr
        ⟨{ node with parentId := some parentId }, ?_, rfl, rfl⟩, decide_eq_true rfl⟩, rfl⟩
      exact mem_setGraphNodes.mpr ⟨hset, hmeta, hmem⟩

end Index

/-! ## Visiting -/

section Visit

variable {snapshot : GraphSnapshot} {overlay : Option IndexedNodes}

/-- **The loop visits what lies above its queue.** -/
theorem mem_visit (visited queue : List AccountSetId) :
    ∀ {found}, visit snapshot overlay visited queue = some found →
      Closed (parentsOf snapshot overlay) visited queue →
      ∀ setId, setId ∈ found ↔ InScope (parentsOf snapshot overlay) visited queue setId := by
  induction visited, queue using visit.induct snapshot overlay with
  | case1 visited =>
      intro found h _ setId
      rw [visit] at h
      obtain rfl := Option.some.inj h
      simp [InScope]
  | case2 visited setId queue hmem ih =>
      intro found h hclosed
      rw [visit, if_pos hmem] at h
      obtain ⟨hclosed, hscope⟩ := Foundations.inScope_drop hclosed hmem
      simp only [← hscope]
      exact ih h hclosed
  | case3 visited setId queue hnew hknown ih =>
      intro found h hclosed
      rw [visit, if_neg hnew, if_pos hknown] at h
      obtain ⟨hclosed, hscope⟩ := Foundations.inScope_visit hclosed
      -- the queue is a queue, and the order of what is pending does not matter
      have hvisited : ∀ x, x ∈ visited ++ [setId] ↔ x ∈ setId :: visited :=
        fun x => by simp [or_comm]
      have hpending : ∀ x, x ∈ queue ++ parentsOf snapshot overlay setId
          ↔ x ∈ (parentsOf snapshot overlay setId).reverse ++ queue :=
        fun x => by simp [or_comm]
      have hsame := @Foundations.inScope_congr _ (parentsOf snapshot overlay) _ _ _ _
        hvisited hpending
      simp only [← hscope, ← hsame.2]
      exact ih h (hsame.1.mpr hclosed)
  | case4 visited setId queue hnew hunknown =>
      intro found h
      rw [visit, if_neg hnew, if_neg hunknown] at h
      cases h

/-- Every set it visits is known. -/
theorem known_of_visit (visited queue : List AccountSetId) :
    ∀ {found}, visit snapshot overlay visited queue = some found →
      (∀ setId ∈ visited, (metaOf snapshot overlay setId).isSome) →
      ∀ setId ∈ found, (metaOf snapshot overlay setId).isSome := by
  induction visited, queue using visit.induct snapshot overlay with
  | case1 visited =>
      intro found h hvisited
      rw [visit] at h
      exact Option.some.inj h ▸ hvisited
  | case2 visited setId queue hmem ih =>
      intro found h
      rw [visit, if_pos hmem] at h
      exact ih h
  | case3 visited setId queue hnew hknown ih =>
      intro found h hvisited
      rw [visit, if_neg hnew, if_pos hknown] at h
      refine ih h (fun other hother => ?_)
      rcases List.mem_append.mp hother with hother | hother
      · exact hvisited other hother
      · rw [List.mem_singleton.mp hother]
        exact hknown
  | case4 visited setId queue hnew hunknown =>
      intro found h
      rw [visit, if_neg hnew, if_neg hunknown] at h
      cases h

/-- It ends, where the sets it starts from and the parents of known sets are known. -/
theorem visit_isSome (hparents : ∀ setId, (metaOf snapshot overlay setId).isSome →
      ∀ parentId ∈ parentsOf snapshot overlay setId, (metaOf snapshot overlay parentId).isSome)
    (visited queue : List AccountSetId) :
    (∀ setId ∈ queue, (metaOf snapshot overlay setId).isSome) →
      (visit snapshot overlay visited queue).isSome := by
  induction visited, queue using visit.induct snapshot overlay with
  | case1 visited =>
      intro _
      rw [visit]
      rfl
  | case2 visited setId queue hmem ih =>
      intro hqueue
      rw [visit, if_pos hmem]
      exact ih (fun other hother => hqueue other (List.mem_cons_of_mem _ hother))
  | case3 visited setId queue hnew hknown ih =>
      intro hqueue
      rw [visit, if_neg hnew, if_pos hknown]
      refine ih (fun other hother => ?_)
      rcases List.mem_append.mp hother with hother | hother
      · exact hqueue other (List.mem_cons_of_mem _ hother)
      · exact hparents setId hknown other hother
  | case4 visited setId queue hnew hunknown =>
      exact fun hqueue => (hunknown (hqueue setId List.mem_cons_self)).elim

end Visit

/-! ## Expanding -/

section Expand

variable {snapshot : GraphSnapshot} {overlay : Option IndexedNodes} {directory : LedgerDirectory}

/-- A snapshot and an overlay that hold the sets of a directory. -/
structure Agrees (snapshot : GraphSnapshot) (overlay : Option IndexedNodes)
    (directory : LedgerDirectory) : Prop where
  snapshot : snapshot.Holds directory
  overlay : ∀ nodes ∈ overlay, nodes.Holds directory

theorem Agrees.setMeta (h : Agrees snapshot overlay directory) (hlinked : directory.Linked)
    {setId : AccountSetId} (hset : (directory.memberships.accountSets setId).isSome)
    {found : SetMeta} (hfound : metaOf snapshot overlay setId = some found) :
    directory.setMeta setId = some found := by
  obtain ⟨stored, hstored⟩ := Option.isSome_iff_exists.mp (hlinked.backed.isSome_setMeta hset)
  rcases Option.or_eq_some_iff.mp hfound with hknown | ⟨-, hknown⟩
  · rw [hstored, h.snapshot.sets setId found hknown stored hstored]
  · obtain ⟨nodes, hnodes, hknown⟩ := Option.bind_eq_some_iff.mp hknown
    rw [hstored, (h.overlay nodes hnodes).sets setId found hknown stored hstored]

/-- A known set has its parents. -/
theorem Agrees.mem_parentsOf (h : Agrees snapshot overlay directory) {setId : AccountSetId}
    (hknown : (metaOf snapshot overlay setId).isSome) {parentId : AccountSetId} :
    parentId ∈ parentsOf snapshot overlay setId
      ↔ parentId ∈ directory.memberships.parents setId := by
  have hsnapshot := h.snapshot.parents setId parentId
  unfold parentsOf
  cases hstored : snapshot.parents.lookup setId with
  | some parents =>
      have hkeys := h.snapshot.keys setId (by rw [hstored]; rfl)
      rw [hstored, and_iff_right hkeys] at hsnapshot
      exact hsnapshot
  | none =>
      rw [hstored, Option.getD_none, iff_false_left List.not_mem_nil, not_and] at hsnapshot
      rw [Option.none_or]
      cases overlay with
      | none =>
          -- only the snapshot can know the set, and it stores no parent
          rw [metaOf, Option.bind_none, Option.or_none] at hknown
          exact iff_of_false List.not_mem_nil (hsnapshot hknown)
      | some nodes =>
          have hnodes := (h.overlay nodes rfl).parents setId parentId
          rw [Option.bind_some, hnodes, and_iff_right_iff_imp]
          intro hparent
          rw [metaOf, Option.bind_some, Option.isSome_or, Bool.or_eq_true] at hknown
          exact hknown.resolve_left (fun hheld => hsnapshot hheld hparent)

/-- **The sets above some sets**, in the graph of the directory. -/
theorem Agrees.mem_visit (h : Agrees snapshot overlay directory) {queue found : List AccountSetId}
    (hfound : visit snapshot overlay [] queue = some found) (setId : AccountSetId) :
    setId ∈ found
      ↔ ∃ first ∈ queue, Relation.ReflTransGen directory.memberships.Edge first setId := by
  have hclosed : Closed (parentsOf snapshot overlay) [] queue :=
    fun _ hmem => (List.not_mem_nil hmem).elim
  have hmem : ∀ setId, setId ∈ found
      ↔ ∃ first ∈ queue, Foundations.Reachable (parentsOf snapshot overlay) first setId := by
    intro setId
    rw [SetGraphCache.mem_visit [] queue hfound hclosed, InScope,
      or_iff_right List.not_mem_nil]
  have hknown := known_of_visit [] queue hfound (fun _ hmem => (List.not_mem_nil hmem).elim)
  have hstep : ∀ setId ∈ found, ∀ parentId, parentId ∈ parentsOf snapshot overlay setId
      ↔ directory.memberships.Edge setId parentId := fun setId hset parentId =>
    (h.mem_parentsOf (hknown setId hset)).trans MembershipTables.mem_parents
  constructor
  · intro hset
    obtain ⟨first, hfirst, hreach⟩ := (hmem setId).mp hset
    refine ⟨first, hfirst, ?_⟩
    clear hset
    induction hreach with
    | refl => exact Relation.ReflTransGen.refl
    | @tail member parentId hreach hparent ih =>
        have hmember := (hmem member).mpr ⟨first, hfirst, hreach⟩
        exact ih.tail ((hstep member hmember parentId).mp hparent)
  · rintro ⟨first, hfirst, hreach⟩
    induction hreach with
    | refl => exact (hmem first).mpr ⟨first, hfirst, Relation.ReflTransGen.refl⟩
    | @tail member parentId _ hedge hmember =>
        obtain ⟨first, hfirst, hreach⟩ := (hmem member).mp hmember
        exact (hmem parentId).mpr
          ⟨first, hfirst, hreach.tail ((hstep member hmember parentId).mpr hedge)⟩

/-- The seeds are the direct memberships of an account. -/
def Probes (memberships : MembershipTables) (seeds : List AccountMembership)
    (accountId : AccountId) : Prop :=
  ∀ setId, ⟨setId, accountId⟩ ∈ seeds ↔ ⟨setId, accountId⟩ ∈ memberships.memberAccounts

theorem mem_seedSets {seeds : List AccountMembership} {accountId : AccountId}
    {setId : AccountSetId} : setId ∈ seedSets seeds accountId ↔ ⟨setId, accountId⟩ ∈ seeds := by
  rw [seedSets, List.mem_map]
  constructor
  · rintro ⟨⟨set, account⟩, hmem, rfl⟩
    obtain ⟨hseed, haccount⟩ := List.mem_filter.mp hmem
    obtain rfl : account = accountId := of_decide_eq_true haccount
    exact hseed
  · exact fun hmem => ⟨_, List.mem_filter.mpr ⟨hmem, decide_eq_true rfl⟩, rfl⟩

variable {journalId : JournalId} {seeds : List AccountMembership} {accountId : AccountId}

/-- **The ancestors of a probed account** are those of the walk. -/
theorem Agrees.ancestorsIn_perm (h : Agrees snapshot overlay directory) (hlinked : directory.Linked)
    (hvisit : (visit snapshot overlay [] (seedSets seeds accountId)).isSome)
    (hprobes : Probes directory.memberships seeds accountId) :
    (ancestorsIn snapshot overlay journalId seeds accountId).Perm
      (directory.memberships.walkMappings journalId accountId) := by
  refine (List.perm_ext_iff_of_nodup (nodup_ancestorsIn journalId seeds accountId)
    (MembershipTables.nodup_walkMappings journalId accountId)).mpr (fun setId => ?_)
  obtain ⟨found, hfound⟩ := Option.isSome_iff_exists.mp hvisit
  have habove : setId ∈ found ↔ setId ∈ directory.memberships.ancestors accountId := by
    rw [h.mem_visit hfound, MembershipTables.mem_ancestors]
    refine exists_congr (fun first => and_congr_left' ?_)
    exact mem_seedSets.trans (hprobes first)
  rw [ancestorsIn, hfound, Option.getD_some, MembershipTables.walkMappings, List.mem_filter,
    List.mem_filter, habove]
  refine and_congr_right (fun hmem => ?_)
  have hknown := known_of_visit [] _ hfound (fun _ hmem => (List.not_mem_nil hmem).elim) setId
    (habove.mpr hmem)
  obtain ⟨found, hmeta⟩ := Option.isSome_iff_exists.mp hknown
  have hset := hlinked.isSome_of_mem_ancestors hmem
  rw [hmeta, (LedgerDirectory.setMeta_eq_some (h.setMeta hlinked hset hmeta)).1]
  simp

/-- **The ancestors whose balances a poster writes** are the non-EC ones of the walk. -/
theorem Agrees.mem_nonEcAncestors (h : Agrees snapshot overlay directory)
    (hlinked : directory.Linked)
    (hvisit : (visit snapshot overlay [] (seedSets seeds accountId)).isSome)
    (hprobes : Probes directory.memberships seeds accountId) {setId : AccountSetId} :
    setId ∈ nonEcAncestors snapshot overlay journalId seeds accountId
      ↔ setId ∈ directory.memberships.walkMappings journalId accountId
        ∧ directory.accounts.consistency false (AccountId.ofSet setId) := by
  have hperm : (ancestorsIn snapshot overlay journalId seeds accountId).Perm
      (directory.memberships.walkMappings journalId accountId) :=
    h.ancestorsIn_perm hlinked hvisit hprobes
  rw [nonEcAncestors, List.mem_filter, hperm.mem_iff]
  refine and_congr_right (fun hmem => ?_)
  obtain ⟨found, hmeta, -⟩ :=
    (Option.any_eq_true _ _).mp (List.mem_filter.mp (hperm.mem_iff.mpr hmem)).2
  have hset := hlinked.isSome_of_mem_ancestors (List.mem_filter.mp hmem).1
  have hmode := (LedgerDirectory.setMeta_eq_some (h.setMeta hlinked hset hmeta)).2
  rw [hmeta, Option.any_some, AccountTable.consistency, hmode]
  simp

/-- **Expanding is walking.** Where every entry account was probed, the mappings are those of the
walk, up to their order, and the pairs to lock are those the walk locks. -/
theorem Agrees.expand_eq_walk {db : LedgerDb}
    (h : Agrees snapshot overlay db.toLedgerDirectory) (hlinked : db.toLedgerDirectory.Linked)
    {entryPairs : List (AccountId × Currency)} {mappings : AccountSetMappings}
    {lockPairs : List (AccountSetId × Currency)}
    (hexpand : expand snapshot overlay journalId seeds entryPairs = some (mappings, lockPairs)) :
    (∀ accountId, Probes db.memberships seeds accountId →
        (mappings accountId).Perm (db.memberships.walkMappings journalId accountId))
      ∧ ((∀ pair ∈ entryPairs, Probes db.memberships seeds pair.1) →
        lockPairs = PostingStatement.walkLockPairs db journalId entryPairs) := by
  unfold expand at hexpand
  split at hexpand
  · rename_i hall
    obtain ⟨rfl, rfl⟩ := Prod.mk.inj (Option.some.inj hexpand)
    have hvisit : ∀ accountId, (visit snapshot overlay [] (seedSets seeds accountId)).isSome := by
      intro accountId
      cases hseeds : seeds.find? (fun seed => seed.accountId = accountId) with
      | some seed =>
          obtain rfl : seed.accountId = accountId := by simpa using List.find?_some hseeds
          exact List.all_eq_true.mp hall seed (List.mem_of_find?_eq_some hseeds)
      | none =>
          have hnone : seedSets seeds accountId = [] := by
            rw [seedSets, List.filter_eq_nil_iff.mpr (fun seed hseed => by
              simpa using List.find?_eq_none.mp hseeds seed hseed)]
            rfl
          rw [hnone, visit]
          rfl
    refine ⟨fun accountId hprobes => h.ancestorsIn_perm hlinked (hvisit accountId) hprobes,
      fun hprobed => ?_⟩
    refine Foundations.strict_ext (Foundations.strict_dedup_sortBy injective_pairOrder _)
      (Foundations.SortedBy.strict (Foundations.sortBy_sorted _ _)
        ((Foundations.sortBy_perm _ _).nodup_iff.mpr (List.nodup_dedup _)) injective_pairOrder)
      (fun pair => ?_)
    rw [PostingStatement.walkLockPairs, List.mem_dedup, Foundations.mem_sortBy,
      Foundations.mem_sortBy, List.mem_dedup, List.mem_flatMap, List.mem_flatMap]
    refine exists_congr (fun entry => and_congr_right (fun hentry => ?_))
    rw [List.mem_map, List.mem_map]
    refine exists_congr (fun setId => and_congr_left' ?_)
    rw [h.mem_nonEcAncestors hlinked (hvisit entry.1) (hprobed entry hentry), List.mem_filter,
      decide_eq_true_eq]
  · cases hexpand

/-- **Expanding does not give up** where the seeds and the parents of known sets are known. -/
theorem Agrees.expand_isSome (h : Agrees snapshot overlay directory)
    (hseeds : ∀ seed ∈ seeds, (metaOf snapshot overlay seed.accountSetId).isSome)
    (hparents : ∀ setId, (metaOf snapshot overlay setId).isSome →
      ∀ parentId ∈ directory.memberships.parents setId,
        (metaOf snapshot overlay parentId).isSome)
    (entryPairs : List (AccountId × Currency)) :
    (expand snapshot overlay journalId seeds entryPairs).isSome := by
  have hall : seeds.all (fun seed =>
      (visit snapshot overlay [] (seedSets seeds seed.accountId)).isSome) := by
    refine List.all_eq_true.mpr (fun seed _ => ?_)
    refine visit_isSome (fun setId hknown parentId hparent => ?_) [] _ (fun setId hset => ?_)
    · exact hparents setId hknown parentId ((h.mem_parentsOf hknown).mp hparent)
    · exact hseeds _ (mem_seedSets.mp hset)
  rw [expand, if_pos hall]
  rfl

end Expand

end SetGraphCache

end CalaLedger
