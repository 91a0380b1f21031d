import CalaLedger.AccountSet.GraphCache
import CalaLedger.AccountSet.GraphValidation
import CalaLedger.Posting.Statements

/-! # The committed set graph

What the cache holds of the edges between sets: a snapshot is indexed from the rows of the whole graph
(`fetch_set_graph`), an overlay from those of some sets. The rows hold every edge once
(`edgesOfNodes_perm`), so a snapshot indexed from them agrees with the table of edges
(`reflects_indexNodes`). -/

namespace CalaLedger

open Foundations Arrow

/-- The edges in the rows of a set graph. -/
def edgesOfNodes (nodes : List SetGraphNode) : List SetMembership :=
  nodes.filterMap (fun node => node.parentId.map (fun parentId => ⟨parentId, node.id⟩))

/-- Some ids are those of all the sets: edges have sets as members, and sets have accounts. -/
structure LedgerDirectory.HasSets (directory : LedgerDirectory) (setIds : List AccountSetId) :
    Prop where
  nodup : setIds.Nodup
  members : ∀ e ∈ directory.memberships.memberAccountSets, e.memberAccountSetId ∈ setIds
  accountSets : ∀ setId ∈ setIds, (directory.memberships.accountSets setId).isSome
  accounts : ∀ setId ∈ setIds, (directory.accounts (AccountId.ofSet setId)).isSome

/-- The rows of the whole graph hold every edge once. -/
theorem LedgerDirectory.HasSets.edgesOfNodes_perm {directory : LedgerDirectory}
    {setIds : List AccountSetId} (h : directory.HasSets setIds) :
    (edgesOfNodes (directory.setGraphNodes setIds)).Perm
      directory.memberships.memberAccountSets := by
  have hset : ∀ setId ∈ setIds, edgesOfNodes (directory.setGraphNodes [setId])
      = directory.memberships.memberAccountSets.filter (·.memberAccountSetId = setId) := by
    intro setId hmem
    obtain ⟨journalId, hjournal⟩ := Option.isSome_iff_exists.mp (h.accountSets setId hmem)
    obtain ⟨row, hrow⟩ := Option.isSome_iff_exists.mp (h.accounts setId hmem)
    have hback : (directory.memberships.parents setId).map
          (fun parentId => (⟨parentId, setId⟩ : SetMembership))
        = directory.memberships.memberAccountSets.filter (·.memberAccountSetId = setId) := by
      rw [MembershipTables.parents, List.map_map]
      refine (List.map_congr_left (fun e he => ?_)).trans (List.map_id _)
      obtain ⟨container, member⟩ := e
      rw [List.mem_filter, decide_eq_true_eq] at he
      exact congrArg _ he.2.symm
    rw [← hback]
    simp only [LedgerDirectory.setGraphNodes, List.flatMap_cons, List.flatMap_nil, hjournal, hrow,
      List.append_nil, edgesOfNodes, List.filterMap_map]
    by_cases hroot : directory.memberships.parents setId = []
    · simp [hroot]
    · simp [hroot, List.filterMap_map]
  have hall : edgesOfNodes (directory.setGraphNodes setIds)
      = setIds.flatMap (fun setId =>
        directory.memberships.memberAccountSets.filter (·.memberAccountSetId = setId)) := by
    have hsplit : ∀ ids : List AccountSetId, ids ⊆ setIds →
        edgesOfNodes (directory.setGraphNodes ids) = ids.flatMap (fun setId =>
          directory.memberships.memberAccountSets.filter (·.memberAccountSetId = setId)) := by
      intro ids
      induction ids with
      | nil => exact fun _ => rfl
      | cons setId ids ih =>
          intro hsub
          obtain ⟨hmem, hsub⟩ := List.cons_subset.mp hsub
          have hcons : directory.setGraphNodes (setId :: ids)
              = directory.setGraphNodes [setId] ++ directory.setGraphNodes ids := by
            simp [LedgerDirectory.setGraphNodes]
          rw [hcons, edgesOfNodes, List.filterMap_append, List.flatMap_cons, ← ih hsub,
            ← hset setId hmem]
          rfl
    exact hsplit setIds (List.Subset.refl _)
  have hperm := perm_flatMap_filter_key SetMembership.memberAccountSetId h.nodup
    (l := directory.memberships.memberAccountSets)
  rw [hall]
  rwa [List.filter_eq_nil_iff.mpr (fun e he => by simpa using h.members e he),
    List.append_nil] at hperm

namespace SetGraphCache

/-- A snapshot that agrees with a table of edges. -/
structure Reflects (snapshot : GraphSnapshot) (edges : List SetMembership) : Prop where
  parents : ∀ v, ((snapshot.parents.lookup v).getD []).Perm
    ((edges.filter (fun e => dst e = v)).map src)
  children : ∀ v, ((snapshot.children.lookup v).getD []).Perm
    ((edges.filter (fun e => src e = v)).map dst)

/-- Pushing the edges of rows into a map. -/
theorem foldl_edgesOfNodes {M : Type} (push : M → SetMembership → M) (nodes : List SetGraphNode) :
    ∀ m : M, (edgesOfNodes nodes).foldl push m = nodes.foldl (fun m node =>
      match node.parentId with
      | some parentId => push m ⟨parentId, node.id⟩
      | none => m) m := by
  induction nodes with
  | nil => exact fun _ => rfl
  | cons node nodes ih =>
      intro m
      rw [List.foldl_cons, ← ih, edgesOfNodes, List.filterMap_cons]
      cases hparent : node.parentId with
      | none => rfl
      | some parentId => rfl

/-- **A snapshot read from the rows of a set graph agrees with its edges.** -/
theorem reflects_indexNodes {nodes : List SetGraphNode} {edges : List SetMembership}
    (h : (edgesOfNodes nodes).Perm edges) (epoch : ℤ) :
    Reflects { toIndexedNodes := indexNodes nodes, epoch := epoch } edges where
  parents := by
    intro v
    have hfold : (indexNodes nodes).parents = (edgesOfNodes nodes).foldl (fun m e =>
        upsert m e.memberAccountSetId [] (· ++ [e.accountSetId])) ∅ := by
      rw [foldl_edgesOfNodes]
      rfl
    have hlookup := getD_lookup_foldl_push SetMembership.memberAccountSetId
      SetMembership.accountSetId v (edgesOfNodes nodes) ∅
    rw [← hfold, AList.lookup_empty, Option.getD_none, List.nil_append] at hlookup
    show (((indexNodes nodes).parents.lookup v).getD []).Perm _
    rw [hlookup]
    exact (h.filter _).map src
  children := by
    intro v
    have hfold : (indexNodes nodes).children = (edgesOfNodes nodes).foldl (fun m e =>
        upsert m e.accountSetId [] (· ++ [e.memberAccountSetId])) ∅ := by
      rw [foldl_edgesOfNodes]
      rfl
    have hlookup := getD_lookup_foldl_push SetMembership.accountSetId
      SetMembership.memberAccountSetId v (edgesOfNodes nodes) ∅
    rw [← hfold, AList.lookup_empty, Option.getD_none, List.nil_append] at hlookup
    show (((indexNodes nodes).children.lookup v).getD []).Perm _
    rw [hlookup]
    exact (h.filter _).map dst

end SetGraphCache

end CalaLedger
