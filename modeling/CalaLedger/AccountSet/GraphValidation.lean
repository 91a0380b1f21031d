import CalaLedger.AccountSet.Membership
import CalaLedger.Foundations.Exploration
import CalaLedger.Foundations.HashMap
import CalaLedger.Foundations.TopologicalOrder
import CalaLedger.Foundations.Traversal
import Mathlib.Data.List.MinMax

/-! # Validating set memberships

`validate_set_memberships`: proposed edges between sets are checked together with the existing ones.
One Kahn pass orders the sets, containers first, and measures depths; the sets above every set are
then united along that order, and the containments of the listed accounts are inserted one by
one. -/

namespace CalaLedger

open Foundations

/-- A container leads down to its member. -/
instance SetMembership.instArrow : Arrow SetMembership AccountSetId AccountSetId where
  src := SetMembership.accountSetId
  dst := SetMembership.memberAccountSetId

/-- A set leads down to an account that is a direct member. -/
instance AccountMembership.instArrow : Arrow AccountMembership AccountSetId AccountId where
  src := AccountMembership.accountSetId
  dst := AccountMembership.accountId

/-- Maximum depth, in edges between sets, of any membership chain. -/
def MAX_MEMBERSHIP_DEPTH : ℕ := 16

/-- The ways set memberships are rejected. -/
inductive SetMembershipError
  | membershipCycleDetected (accountSetId memberAccountSetId : AccountSetId)
  | memberAlreadyAdded
  | membershipDepthExceeded (accountSetId memberAccountSetId : AccountSetId) (depth max : ℕ)
  deriving DecidableEq, Repr

/-- The set graph, indexed once; its nodes are the keys of `indegree`. -/
structure SetDag where
  adjacency : HashMap AccountSetId (List AccountSetId)
  indegree : HashMap AccountSetId ℕ

/-- The result of one Kahn pass. -/
structure Traversal where
  order : List AccountSetId
  depths : HashMap AccountSetId ℕ

/-- `Traversal::max_depth`. -/
def Traversal.maxDepth (t : Traversal) : ℕ := (values t.depths).max?.getD 0

/-- The state of a Kahn pass between two children. -/
structure TraverseState where
  remaining : HashMap AccountSetId ℕ
  queue : List AccountSetId
  depths : HashMap AccountSetId ℕ

namespace SetDag

/-- `add_isolated`. -/
def addIsolated (dag : SetDag) (accountSetId : AccountSetId) : SetDag :=
  { dag with indegree := upsert dag.indegree accountSetId 0 id }

/-- One edge of `SetDag::new`. -/
def addEdge (dag : SetDag) (edge : SetMembership) : SetDag :=
  { adjacency := upsert dag.adjacency edge.accountSetId [] (· ++ [edge.memberAccountSetId])
    indegree := upsert (upsert dag.indegree edge.memberAccountSetId 0 (· + 1))
      edge.accountSetId 0 id }

/-- `SetDag::new`. -/
def new (edges : List SetMembership) : SetDag := edges.foldl addEdge ⟨∅, ∅⟩

def nodeCount (dag : SetDag) : ℕ := dag.indegree.keys.length

def children (dag : SetDag) (accountSetId : AccountSetId) : List AccountSetId :=
  (dag.adjacency.lookup accountSetId).getD []

/-- One child in the loop of `traverse`: its depth is raised and its indegree lowered. `none` is a
panic: a child without an indegree, or a subtraction that underflows. -/
def visitChild (parentDepth : ℕ) (s : TraverseState) (child : AccountSetId) :
    Option TraverseState :=
  match s.remaining.lookup child with
  | none => none
  | some 0 => none
  | some (degree + 1) =>
      some
        { remaining := s.remaining.insert child degree
          queue := if degree = 0 then s.queue ++ [child] else s.queue
          depths := s.depths.insert child
            (match s.depths.lookup child with
            | some depth => max depth (parentDepth + 1)
            | none => parentDepth + 1) }

/-- The loop of `traverse`, over `order`; `none` also when the fuel does not suffice. -/
def drain (dag : SetDag) : ℕ → List AccountSetId → TraverseState → Option Traversal
  | 0, order, s => if s.queue = [] then some ⟨order, s.depths⟩ else none
  | fuel + 1, order, s =>
      match s.queue with
      | [] => some ⟨order, s.depths⟩
      | accountSetId :: queue =>
          ((dag.children accountSetId).foldlM
            (visitChild ((s.depths.lookup accountSetId).getD 0)) { s with queue := queue }).bind
              (dag.drain fuel (order ++ [accountSetId]))

/-- `SetDag::traverse`: Kahn's algorithm, from the sets of indegree 0 in some order. -/
def traverse (iteration : IterationOrder AccountSetId) (dag : SetDag) : Option Traversal :=
  dag.drain dag.nodeCount []
    { remaining := dag.indegree
      queue := (iteration.arrange dag.indegree.keys).filter
        (fun accountSetId => dag.indegree.lookup accountSetId = some 0)
      depths := ∅ }

/-- `SetDag::has_path`; `none` when the fuel does not suffice. -/
def hasPath (dag : SetDag) (fuel : ℕ) (source target : AccountSetId) : Option Bool :=
  (explore dag.children (fun accountSetId => accountSetId = target) fuel [] [source]).map Prod.fst

/-- One child in the ancestor pass. -/
def contribute (contribution : List AccountSetId)
    (ancestors : HashMap AccountSetId (List AccountSetId)) (child : AccountSetId) :
    Except SetMembershipError (HashMap AccountSetId (List AccountSetId)) :=
  let childAncestors := (ancestors.lookup child).getD []
  if childAncestors.any (· ∈ contribution) then .error .memberAlreadyAdded
  else .ok (ancestors.insert child (childAncestors ∪ contribution))

/-- One set in the ancestor pass. -/
def passDown (dag : SetDag) (ancestors : HashMap AccountSetId (List AccountSetId))
    (accountSetId : AccountSetId) :
    Except SetMembershipError (HashMap AccountSetId (List AccountSetId)) :=
  (dag.children accountSetId).foldlM
    (contribute (((ancestors.lookup accountSetId).getD []).insert accountSetId)) ancestors

end SetDag

/-- An insertion into `account_paths`, which must be new. -/
def insertPath (accountPaths : List AccountMembership) (path : AccountMembership) :
    Except SetMembershipError (List AccountMembership) :=
  if path ∈ accountPaths then .error .memberAlreadyAdded else .ok (path :: accountPaths)

/-- One membership in the account pass: the set itself, and every set above it. -/
def insertPaths (iteration : IterationOrder AccountSetId)
    (ancestors : HashMap AccountSetId (List AccountSetId)) (accountPaths : List AccountMembership)
    (membership : AccountMembership) : Except SetMembershipError (List AccountMembership) := do
  let accountPaths ← insertPath accountPaths membership
  match ancestors.lookup membership.accountSetId with
  | some containers =>
      (iteration.arrange containers).foldlM (fun accountPaths container =>
        insertPath accountPaths ⟨container, membership.accountId⟩) accountPaths
  | none => pure accountPaths

section FirstDepthOverflow

variable (iteration : IterationOrder AccountSetId)
  (existingEdges proposedEdges : List SetMembership)

/-- `prefix_depth`; `none` where the slice is out of range. -/
def prefixDepth (take : ℕ) : Option ℕ :=
  if take ≤ proposedEdges.length then
    ((SetDag.new (existingEdges ++ proposedEdges.take take)).traverse iteration).map
      Traversal.maxDepth
  else
    none

/-- The binary search of `first_depth_overflow`. -/
def searchOverflow : ℕ → ℕ → ℕ → Option ℕ
  | 0, low, high => if low < high then none else some low
  | fuel + 1, low, high =>
      if low < high then do
        let depth ← prefixDepth iteration existingEdges proposedEdges ((low + high) / 2)
        if MAX_MEMBERSHIP_DEPTH < depth then
          searchOverflow fuel low ((low + high) / 2)
        else
          searchOverflow fuel ((low + high) / 2 + 1) high
      else
        some low

/-- `first_depth_overflow`: the index of a proposed edge and a depth. -/
def firstDepthOverflow : Option (ℕ × ℕ) := do
  let low ← searchOverflow iteration existingEdges proposedEdges proposedEdges.length 1
    proposedEdges.length
  let depth ← prefixDepth iteration existingEdges proposedEdges low
  pure (low - 1, depth)

/-- The edge a cycle is attributed to: the first proposed one on a cycle, else the first existing
one. -/
def cycleEdge (dag : SetDag) : Option SetMembership := do
  let found ← proposedEdges.findM? (fun edge =>
    if edge.accountSetId = edge.memberAccountSetId then some true
    else dag.hasPath (existingEdges.length + proposedEdges.length + 1) edge.memberAccountSetId
      edge.accountSetId)
  found.or existingEdges.head?

/-- The depth check, the last one. -/
def validateDepth (traversal : Traversal) : Option (Except SetMembershipError Unit) :=
  if MAX_MEMBERSHIP_DEPTH < traversal.maxDepth then do
    let (index, depth) ← firstDepthOverflow iteration existingEdges proposedEdges
    let edge ← proposedEdges[index]?
    pure (.error (.membershipDepthExceeded edge.accountSetId edge.memberAccountSetId depth
      MAX_MEMBERSHIP_DEPTH))
  else
    pure (.ok ())

/-- The graph of `validate_set_memberships`: all edges, and the sets of the listed memberships. -/
def combinedDag (accountMembers : List AccountMembership) : SetDag :=
  (accountMembers.map AccountMembership.accountSetId).foldl SetDag.addIsolated
    (SetDag.new (existingEdges ++ proposedEdges))

/-- `validate_set_memberships`; `none` is a panic or a walk that has not ended. -/
def validateSetMemberships (accountMembers : List AccountMembership) :
    Option (Except SetMembershipError Unit) := do
  let dag := combinedDag existingEdges proposedEdges accountMembers
  let traversal ← dag.traverse iteration
  if traversal.order.length ≠ dag.nodeCount then
    let edge ← cycleEdge existingEdges proposedEdges dag
    return .error (.membershipCycleDetected edge.accountSetId edge.memberAccountSetId)
  match traversal.order.foldlM dag.passDown ∅ with
  | .error error => return .error error
  | .ok ancestors =>
      match accountMembers.foldlM (insertPaths iteration ancestors) [] with
      | .error error => return .error error
      | .ok _ => validateDepth iteration existingEdges proposedEdges traversal

end FirstDepthOverflow

end CalaLedger
