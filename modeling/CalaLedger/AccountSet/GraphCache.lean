import CalaLedger.AccountSet.Membership
import CalaLedger.Foundations.HashMap
import CalaLedger.Foundations.StableSort
import Mathlib.Data.Prod.Lex
import Mathlib.Data.String.Basic

/-! # The set-graph cache

`SetGraphCache`: a process keeps the edges between sets and the journal and consistency of every
set, validated by the epoch of the graph. Direct memberships are never cached. A reader expands the
direct memberships it has probed over the cached edges and over an overlay for sets the snapshot
does not know (`expand`), and gives up when it meets a set neither knows. -/

namespace CalaLedger

/-- What is cached of a set; it never changes. -/
structure SetMeta where
  journalId : JournalId
  eventuallyConsistent : Bool
  deriving DecidableEq

/-- A row of `fetch_set_graph_nodes_in_op`: a set with one of its parents, or with none. -/
structure SetGraphNode where
  id : AccountSetId
  journalId : JournalId
  eventuallyConsistent : Bool
  parentId : Option AccountSetId
  deriving DecidableEq

/-- Sets with their parents and their members, as `index_nodes` builds them. -/
structure IndexedNodes where
  parents : HashMap AccountSetId (List AccountSetId)
  children : HashMap AccountSetId (List AccountSetId)
  sets : HashMap AccountSetId SetMeta

/-- The shared snapshot of a process. -/
structure GraphSnapshot extends IndexedNodes where
  epoch : ℤ

/-- The database epoch starts at 0, so this matches none. -/
def COLD_EPOCH : ℤ := -1

namespace SetGraphCache

/-- `GraphSnapshot::cold`. -/
def cold : GraphSnapshot :=
  { parents := ∅
    children := ∅
    sets := ∅
    epoch := COLD_EPOCH }

/-- `SetGraphCache::index_nodes`. -/
def indexNodes (nodes : List SetGraphNode) : IndexedNodes :=
  { sets := nodes.foldl (fun sets node =>
      sets.insert node.id ⟨node.journalId, node.eventuallyConsistent⟩) ∅
    parents := nodes.foldl (fun parents node =>
      match node.parentId with
      | some parentId => parents.insert node.id ((parents.lookup node.id).getD [] ++ [parentId])
      | none => parents) ∅
    children := nodes.foldl (fun children node =>
      match node.parentId with
      | some parentId => children.insert parentId ((children.lookup parentId).getD [] ++ [node.id])
      | none => children) ∅ }

/-- What is indexed of a set is what one of its nodes says. -/
theorem node_of_lookup_indexNodes {nodes : List SetGraphNode} {setId : AccountSetId}
    {found : SetMeta} (h : (indexNodes nodes).sets.lookup setId = some found) :
    ∃ node ∈ nodes, node.id = setId ∧ found = ⟨node.journalId, node.eventuallyConsistent⟩ := by
  have hlookup := Foundations.lookup_foldl_store SetGraphNode.id
    (fun node => (⟨node.journalId, node.eventuallyConsistent⟩ : SetMeta)) setId nodes ∅
  rw [indexNodes, hlookup, AList.lookup_empty, Option.or_none] at h
  obtain ⟨node, hnode, rfl⟩ := Option.map_eq_some_iff.mp h
  obtain ⟨hmem, hid⟩ := List.mem_filter.mp (List.mem_of_getLast? hnode)
  exact ⟨node, hmem, of_decide_eq_true hid, rfl⟩

/-- The sets of indexed nodes. -/
theorem exists_of_lookup_indexNodes {nodes : List SetGraphNode} {setId : AccountSetId}
    (h : ((indexNodes nodes).sets.lookup setId).isSome) : ∃ node ∈ nodes, node.id = setId := by
  obtain ⟨found, hfound⟩ := Option.isSome_iff_exists.mp h
  obtain ⟨node, hnode, hid, -⟩ := node_of_lookup_indexNodes hfound
  exact ⟨node, hnode, hid⟩

section Expand

variable (snapshot : GraphSnapshot) (overlay : Option IndexedNodes)

/-- `meta_of`: a set of the snapshot, else of the overlay. -/
def metaOf (setId : AccountSetId) : Option SetMeta :=
  (snapshot.sets.lookup setId).or (overlay.bind (fun nodes => nodes.sets.lookup setId))

/-- `parents_of`. -/
def parentsOf (setId : AccountSetId) : List AccountSetId :=
  ((snapshot.parents.lookup setId).or
    (overlay.bind (fun nodes => nodes.parents.lookup setId))).getD []

/-- The sets the snapshot or the overlay knows. -/
def knownSets : List AccountSetId :=
  snapshot.sets.keys ++ (overlay.map (fun nodes => nodes.sets.keys)).getD []

theorem mem_knownSets {setId : AccountSetId} (h : (metaOf snapshot overlay setId).isSome) :
    setId ∈ knownSets snapshot overlay := by
  obtain ⟨found, hfound⟩ := Option.isSome_iff_exists.mp h
  rw [knownSets, List.mem_append]
  rcases Option.or_eq_some_iff.mp hfound with hsnapshot | ⟨-, hoverlay⟩
  · exact Or.inl (AList.mem_keys.mpr (AList.lookup_isSome.mp (by rw [hsnapshot]; rfl)))
  · obtain ⟨nodes, hnodes, hlookup⟩ := Option.bind_eq_some_iff.mp hoverlay
    rw [hnodes]
    exact Or.inr (AList.mem_keys.mpr (AList.lookup_isSome.mp (by rw [hlookup]; rfl)))

variable {snapshot} {overlay} in
/-- What holds of the sets the snapshot and the overlay know. -/
theorem of_metaOf {known : AccountSetId → Prop}
    (hsnapshot : ∀ setId, (snapshot.sets.lookup setId).isSome → known setId)
    (hoverlay : ∀ nodes ∈ overlay, ∀ setId, (nodes.sets.lookup setId).isSome → known setId)
    {setId : AccountSetId} (h : (metaOf snapshot overlay setId).isSome) : known setId := by
  obtain ⟨found, hfound⟩ := Option.isSome_iff_exists.mp h
  rcases Option.or_eq_some_iff.mp hfound with hknown | ⟨-, hknown⟩
  · exact hsnapshot setId (by rw [hknown]; rfl)
  · obtain ⟨nodes, hnodes, hlookup⟩ := Option.bind_eq_some_iff.mp hknown
    exact hoverlay nodes hnodes setId (by rw [hlookup]; rfl)

/-- The loop of `expand`: the sets above a queue, in the order they are visited; `none` when a set
is unknown. -/
def visit (visited : List AccountSetId) : List AccountSetId → Option (List AccountSetId)
  | [] => some visited
  | setId :: queue =>
      if setId ∈ visited then
        visit visited queue
      else if (metaOf snapshot overlay setId).isSome then
        visit (visited ++ [setId]) (queue ++ parentsOf snapshot overlay setId)
      else
        none
  termination_by queue => (((knownSets snapshot overlay).filter (· ∉ visited)).length, queue.length)
  decreasing_by
    · exact Prod.Lex.right _ (Nat.lt_succ_self _)
    · -- a set is visited once, and only known sets are
      rename_i hnew hknown
      refine Prod.Lex.left _ _ ?_
      have hsub : (knownSets snapshot overlay).filter (· ∉ visited ++ [setId])
          = ((knownSets snapshot overlay).filter (· ∉ visited)).filter (· ≠ setId) := by
        rw [List.filter_filter]
        refine List.filter_congr (fun other _ => ?_)
        simp [and_comm]
      rw [hsub]
      refine List.length_filter_lt_length_iff_exists.mpr ⟨setId, ?_, by simp⟩
      exact List.mem_filter.mpr ⟨mem_knownSets snapshot overlay hknown, decide_eq_true hnew⟩

variable {snapshot} {overlay} in
/-- No set is visited twice. -/
theorem nodup_visit (visited queue : List AccountSetId) :
    ∀ {found}, visit snapshot overlay visited queue = some found → visited.Nodup → found.Nodup := by
  induction visited, queue using visit.induct snapshot overlay with
  | case1 visited =>
      intro found h hnodup
      rw [visit] at h
      exact Option.some.inj h ▸ hnodup
  | case2 visited setId queue hmem ih =>
      intro found h hnodup
      rw [visit, if_pos hmem] at h
      exact ih h hnodup
  | case3 visited setId queue hnew hknown ih =>
      intro found h hnodup
      rw [visit, if_neg hnew, if_pos hknown] at h
      exact ih h (List.nodup_append_comm.mp (List.nodup_cons.mpr ⟨hnew, hnodup⟩))
  | case4 visited setId queue hnew hunknown =>
      intro found h
      rw [visit, if_neg hnew, if_neg hunknown] at h
      cases h

/-- The sets an account was probed to be a direct member of. -/
def seedSets (seeds : List AccountMembership) (accountId : AccountId) : List AccountSetId :=
  (seeds.filter (·.accountId = accountId)).map AccountMembership.accountSetId

/-- The ancestors of an account in a journal, from its probed memberships. -/
def ancestorsIn (journalId : JournalId) (seeds : List AccountMembership) (accountId : AccountId) :
    List AccountSetId :=
  ((visit snapshot overlay [] (seedSets seeds accountId)).getD []).filter (fun setId =>
    (metaOf snapshot overlay setId).any (·.journalId = journalId))

variable {snapshot} {overlay} in
theorem nodup_ancestorsIn (journalId : JournalId) (seeds : List AccountMembership)
    (accountId : AccountId) : (ancestorsIn snapshot overlay journalId seeds accountId).Nodup := by
  refine List.Nodup.filter _ ?_
  cases hvisit : visit snapshot overlay [] (seedSets seeds accountId) with
  | none => exact List.nodup_nil
  | some found => exact nodup_visit [] _ hvisit List.nodup_nil

/-- The ancestors whose balances a poster writes. -/
def nonEcAncestors (journalId : JournalId) (seeds : List AccountMembership)
    (accountId : AccountId) : List AccountSetId :=
  (ancestorsIn snapshot overlay journalId seeds accountId).filter (fun setId =>
    (metaOf snapshot overlay setId).any (fun found => !found.eventuallyConsistent))

/-- The order in which ancestor pairs are locked. -/
def pairOrder (pair : AccountSetId × Currency) : AccountSetId ×ₗ String :=
  toLex (pair.1, pair.2.code)

/-- `SetGraphCache::expand`: the mappings and the pairs to lock; `none` when some set is unknown. -/
def expand (journalId : JournalId) (seeds : List AccountMembership)
    (entryPairs : List (AccountId × Currency)) :
    Option ((AccountId → List AccountSetId) × List (AccountSetId × Currency)) :=
  if seeds.all (fun seed => (visit snapshot overlay [] (seedSets seeds seed.accountId)).isSome) then
    some
      (ancestorsIn snapshot overlay journalId seeds,
        (Foundations.sortBy pairOrder (entryPairs.flatMap (fun (pair : AccountId × Currency) =>
          (nonEcAncestors snapshot overlay journalId seeds pair.1).map (fun setId =>
            (setId, pair.2))))).dedup)
  else
    none

end Expand

/-- The seed sets the snapshot does not know. -/
def missing (snapshot : GraphSnapshot) (seeds : List AccountMembership) : List AccountSetId :=
  (Foundations.sortBy id ((seeds.map AccountMembership.accountSetId).filter
    (fun setId => (snapshot.sets.lookup setId).isNone))).dedup

end SetGraphCache

theorem injective_pairOrder : Function.Injective SetGraphCache.pairOrder := by
  rintro ⟨setId, ⟨code⟩⟩ ⟨setId', ⟨code'⟩⟩ h
  obtain ⟨rfl, rfl⟩ := Prod.mk.inj (toLex.injective h)
  rfl

end CalaLedger
