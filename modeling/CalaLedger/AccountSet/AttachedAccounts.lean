import CalaLedger.AccountSet.CachedAncestors
import CalaLedger.AccountSet.OpenMemberships

/-! # Attached accounts

Under the shared lock on the graph and the locks on the members, the graph and the direct sets of
the members stay as they are (`lasting_attaching`). So what the checks of `add_member` and
`add_members` find is found of the memberships that the operation commits, although the probe, the
snapshot and the rows are read at different times: the walk in memory and the query both say that no
member is contained twice (`learns_assertNoDoubleMembershipInOp`). -/

namespace CalaLedger

open Foundations Arrow
open MembershipFlow.AccountSets
open SetGraphCache (Reflects seedSets indexNodes parentsOf)

/-! ## Snapshots -/

namespace SetGraphCache

variable {snapshot : GraphSnapshot} {edges : List SetMembership} {overlay : Option IndexedNodes}

/-- The parents that an overlay has are parents. -/
def OverlayWithin (edges : List SetMembership) (overlay : Option IndexedNodes) : Prop :=
  ∀ nodes ∈ overlay, ∀ setId, ∀ parentId ∈ (nodes.parents.lookup setId).getD [],
    ⟨parentId, setId⟩ ∈ edges

/-- A snapshot that agrees with some edges holds each of them once. -/
theorem Reflects.itemCount (h : Reflects snapshot edges) :
    itemCount snapshot.parents = edges.length := by
  have hperm : (itemKeys snapshot.parents).Perm (edges.map dst) := by
    refine List.perm_iff_count.mpr (fun setId => ?_)
    rw [count_itemKeys, (h.parents setId).length_eq, List.length_map,
      ← List.countP_eq_length_filter, List.count, List.countP_map]
    refine List.countP_congr (fun e _ => ?_)
    simp
  rw [← length_itemKeys, hperm.length_eq, List.length_map]

/-- The parents of a set, by the snapshot and an overlay. -/
theorem Reflects.parentsOf_perm (h : Reflects snapshot edges)
    (hoverlay : OverlayWithin edges overlay) (setId : AccountSetId) :
    (parentsOf snapshot overlay setId).Perm ((edges.filter (fun e => dst e = setId)).map src) := by
  have hparents := h.parents setId
  unfold parentsOf
  cases hlookup : snapshot.parents.lookup setId with
  | some parents =>
      rw [hlookup] at hparents
      exact hparents
  | none =>
      -- the snapshot has no edge into the set, and the overlay has none that is not there
      rw [hlookup, Option.getD_none] at hparents
      rw [Option.none_or]
      cases overlay with
      | none => exact hparents
      | some nodes =>
          show ((nodes.parents.lookup setId).getD []).Perm _
          have hnone : (nodes.parents.lookup setId).getD [] = [] := by
            refine List.eq_nil_iff_forall_not_mem.mpr (fun parentId hmem => ?_)
            have hedge := hoverlay nodes rfl setId parentId hmem
            have hempty := hparents.nil_eq
            have hin : parentId ∈ (edges.filter (fun e => dst e = setId)).map src :=
              List.mem_map.mpr ⟨_, List.mem_filter.mpr ⟨hedge, decide_eq_true rfl⟩, rfl⟩
            rw [← hempty] at hin
            exact List.not_mem_nil hin
          rw [hnone]
          exact hparents

/-- What a snapshot and an overlay answer. -/
def Reflects.setGraphView (h : Reflects snapshot edges) (hoverlay : OverlayWithin edges overlay) :
    SetGraphView edges where
  parentsOf := knownParents snapshot overlay
  agrees := by
    intro setId parents hparents
    unfold knownParents at hparents
    split at hparents
    · cases hparents
      exact h.parentsOf_perm hoverlay setId
    · cases hparents

/-- The parents of indexed rows. -/
theorem mem_parents_indexNodes {nodes : List SetGraphNode} {setId parentId : AccountSetId} :
    parentId ∈ ((indexNodes nodes).parents.lookup setId).getD []
      ↔ ⟨parentId, setId⟩ ∈ edgesOfNodes nodes := by
  have hlookup := getD_lookup_foldl_push SetMembership.memberAccountSetId
    SetMembership.accountSetId setId (edgesOfNodes nodes) ∅
  rw [← parents_indexNodes, AList.lookup_empty, Option.getD_none, List.nil_append] at hlookup
  rw [hlookup, List.mem_map]
  constructor
  · rintro ⟨⟨parent, member⟩, hedge, rfl⟩
    obtain ⟨hmem, hmember⟩ := List.mem_filter.mp hedge
    obtain rfl := of_decide_eq_true hmember
    exact hmem
  · exact fun hedge => ⟨_, List.mem_filter.mpr ⟨hedge, decide_eq_true rfl⟩, rfl⟩

end SetGraphCache

/-- A fetched graph agrees with the edges it was fetched from. -/
theorem LedgerDb.Fetched.reflects {db : LedgerDb} {snapshot : GraphSnapshot}
    (h : db.Fetched snapshot) (hkeys : db.ForeignKeys) :
    Reflects snapshot db.memberships.memberAccountSets := by
  obtain ⟨setIds, nodes, hnodup, hstored, hnodes, rfl⟩ := h
  have hsets : db.HasSets setIds :=
    { nodup := hnodup
      members := fun e he => (hstored _).mpr (hkeys.edges e he).2
      accountSets := fun setId hset => (hstored setId).mp hset
      accounts := fun setId hset => hkeys.backed setId ((hstored setId).mp hset) }
  exact SetGraphCache.reflects_indexNodes ((hnodes.filterMap _).trans hsets.edgesOfNodes_perm) _

/-- **A graph that was fetched at any time** is no newer than the committed one, and agrees with it
where it is as new. -/
theorem LedgerDb.SoundGraph.fetched {db earlier : LedgerDb} {past : List LedgerDb}
    (h : db.SoundGraph past) (hearlier : earlier ∈ db :: past) {snapshot : GraphSnapshot}
    (hfetched : earlier.Fetched snapshot) : snapshot.epoch ≤ db.memberships.epoch
      ∧ (snapshot.epoch = db.memberships.epoch →
          Reflects snapshot db.memberships.memberAccountSets) := by
  obtain ⟨hkeys, hle, hsame⟩ := h.past_cons le_rfl (fun _ => rfl) earlier hearlier
  have hsnapshot : snapshot.epoch = earlier.memberships.epoch := by
    obtain ⟨_, _, -, -, -, rfl⟩ := hfetched
    rfl
  rw [hsnapshot]
  refine ⟨hle, fun hepoch => ?_⟩
  rw [← hsame hepoch]
  exact hfetched.reflects hkeys

variable {hashtext : LockKey → BitVec 32}

/-- **A snapshot of the epoch the operation sees** agrees with the edges it sees. -/
theorem SettledSession.reflects {session : MembershipSession} (h : SettledSession hashtext session)
    {snapshot : GraphSnapshot}
    (hfound : snapshot = SetGraphCache.cold
      ∨ ∃ earlier ∈ session.committed :: session.past, earlier.Fetched snapshot)
    (hepoch : snapshot.epoch = session.epoch) : Reflects snapshot session.edges := by
  have hle : session.committed.memberships.epoch ≤ session.epoch :=
    MembershipStatement.le_epochAfter _ _
  rcases hfound with rfl | ⟨earlier, hearlier, hfetched⟩
  · -- the cold snapshot has an epoch that no graph has
    have hnonneg := h.committed.epoch
    have hcold : SetGraphCache.cold.epoch = -1 := rfl
    omega
  · obtain ⟨hpast, hsame⟩ := h.committed.fetched hearlier hfetched
    rcases h.bumped with ⟨hedges, -⟩ | ⟨-, hlater⟩
    · rw [MembershipSession.edges, hedges]
      exact hsame (le_antisymm hpast (hle.trans hepoch.ge))
    · -- an operation that has written edges sees an epoch that was never committed
      have hlt : session.committed.memberships.epoch < session.epoch := hlater _
      omega

/-! ## Memberships of some accounts -/

theorem seedSets_filter {accountIds : List AccountId} (rows : List AccountMembership)
    {accountId : AccountId} (h : accountId ∈ accountIds) :
    seedSets (rows.filter (fun m => m.accountId ∈ accountIds)) accountId
      = seedSets rows accountId := by
  unfold seedSets
  rw [List.filter_filter]
  congr 1
  refine List.filter_congr (fun m _ => ?_)
  by_cases hm : m.accountId = accountId
  · simp [hm, h]
  · simp [hm]

theorem seedSets_eq_nil {rows : List AccountMembership} {accountId : AccountId}
    (h : ∀ m ∈ rows, m.accountId ≠ accountId) : seedSets rows accountId = [] := by
  unfold seedSets
  rw [List.map_eq_nil_iff, List.filter_eq_nil_iff]
  exact fun m hm => by simpa using h m hm

/-- **Memberships of some accounts are written** under the lock on each of them: the graph is held
too, or they are its first. -/
theorem SettledSession.insertMembers {session : MembershipSession}
    (h : SettledSession hashtext session) {members : List AccountMembership}
    (hwritten : ∀ m ∈ members, HoldsAlone hashtext session.locks (.member m.accountId)
      ∧ (HoldsLock hashtext session.locks .graph
        ∨ session.committed.memberships.directSets m.accountId = []
          ∧ (session.sets m.accountId ++ seedSets members m.accountId).length ≤ 1))
    (hcontained : ∀ m ∈ members,
      ContainedOnce session.edges (session.sets m.accountId ++ seedSets members m.accountId)) :
    SettledSession hashtext
      { session with written := session.written ++ [.insertMemberAccounts members] } := by
  have hother : ∀ accountId, (¬ ∃ m ∈ members, m.accountId = accountId) → ∀ sets,
      MembershipStatement.setsAfter accountId sets (.insertMemberAccounts members) = sets := by
    intro accountId hnone sets
    rw [MembershipStatement.setsAfter, seedSets_eq_nil (fun m hm heq => hnone ⟨m, hm, heq⟩),
      List.append_nil]
  -- the accounts of the rows, and those that the statement does not touch
  refine h.write (fun _ => rfl) (fun _ => rfl) (fun accountId => ?_) (fun accountId => ?_)
  all_goals by_cases hmember : ∃ m ∈ members, m.accountId = accountId
  · obtain ⟨m, hm, rfl⟩ := hmember
    exact Or.inr (hwritten m hm)
  · exact Or.inl (hother accountId hmember)
  · obtain ⟨m, hm, rfl⟩ := hmember
    exact hcontained m hm
  · rw [hother accountId hmember]
    exact h.contained accountId

/-! ## Locks -/

/-- What a part of an operation finds while an assertion lasts. -/
abbrev LearnsMembership {α : Type} (hashtext : LockKey → BitVec 32)
    (assertion : MembershipSession → Prop) (d : MembershipFlow α) (fact : α → Prop) : Prop :=
  (membershipStore hashtext).Learns (LedgerDb.Leaves hashtext) LedgerDb.SoundGraph assertion d fact

/-- **A loaded snapshot**, where it is current, agrees with the edges the operation sees. -/
theorem LastingMembership.learns_loadSnapshot {assertion : MembershipSession → Prop}
    {edges : List SetMembership} {epoch : ℤ} (h : LastingMembership hashtext assertion)
    (hgraph : ∀ {session}, assertion session →
      SettledSession hashtext session ∧ session.edges = edges ∧ session.epoch = epoch) :
    LearnsMembership hashtext assertion (issue .loadSnapshot)
      (fun snapshot => snapshot.epoch = epoch → Reflects snapshot edges) := by
  refine h.learns_ask nofun rfl ?_
  intro session db snapshot hsession _ hfound hepoch
  obtain ⟨hsettled, hedges, hcurrent⟩ := hgraph hsession
  rw [← hedges]
  exact hsettled.reflects hfound (hepoch.trans hcurrent.symm)

theorem lasting_lockedAll (requests : List AdvisoryLock) : LastingMembership hashtext
    (fun session => ∀ request ∈ requests, request.hashed hashtext ∈ session.locks) where
  stable := by
    intro session session' hothers hheld
    show ∀ request ∈ requests, request.hashed hashtext ∈ session'.locks
    rw [hothers.2.1]
    exact hheld
  locks := fun more hheld request hmem => List.mem_append_left more (hheld request hmem)

/-- **Locks that are taken** are held. -/
theorem triple_takeLocks {assertion : MembershipSession → Prop}
    (h : LastingMembership hashtext assertion) (requests : List AdvisoryLock) :
    (membershipServer hashtext).Triple assertion (takeLocks requests)
      (fun _ session => assertion session
        ∧ ∀ request ∈ requests, request.hashed hashtext ∈ session.locks) (fun _ => True) := by
  have hrest : ∀ rest : List AdvisoryLock, LastingMembership hashtext (fun session =>
      assertion session ∧ ∀ request ∈ requests,
        request ∈ rest ∨ request.hashed hashtext ∈ session.locks) := by
    refine fun rest => ⟨fun _ _ hothers hsession => ?_, fun more hsession => ?_⟩
    · refine ⟨h.stable hothers hsession.1, fun request hrequest => ?_⟩
      rw [hothers.2.1]
      exact hsession.2 request hrequest
    · exact ⟨h.locks more hsession.1, fun request hrequest =>
        (hsession.2 request hrequest).imp_right (List.mem_append_left more)⟩
  have hloop : (membershipServer hashtext).Triple (fun session => assertion session
        ∧ ∀ request ∈ requests, request ∈ requests ∨ request.hashed hashtext ∈ session.locks)
      (takeLocks requests) (fun _ session => assertion session ∧ ∀ request ∈ requests,
        request ∈ [] ∨ request.hashed hashtext ∈ session.locks) (fun _ => True) := by
    refine Server.Triple.forEach (fun rest session => assertion session ∧ ∀ request ∈ requests,
      request ∈ rest ∨ request.hashed hashtext ∈ session.locks) (hrest []).stable ?_ requests
    intro request rest
    have hlock : (membershipServer hashtext).Triple (fun session => assertion session
          ∧ ∀ other ∈ requests, other ∈ request :: rest ∨ other.hashed hashtext ∈ session.locks)
        (issue (.lock request)) (fun _ session => (assertion session ∧ ∀ other ∈ requests,
          other ∈ request :: rest ∨ other.hashed hashtext ∈ session.locks)
          ∧ ∀ taken ∈ [request.hashed hashtext], taken ∈ session.locks) (fun _ => True) :=
      (hrest (request :: rest)).lock nofun
    refine hlock.weaken (fun _ hsession => hsession) ?_ (fun _ _ => trivial)
    rintro - session ⟨⟨hsession, hheld⟩, htaken⟩
    refine ⟨hsession, fun other hother => ?_⟩
    rcases hheld other hother with hwaits | hlocked
    · rcases List.mem_cons.mp hwaits with rfl | hwaits
      · exact Or.inr (htaken _ List.mem_cons_self)
      · exact Or.inl hwaits
    · exact Or.inr hlocked
  exact hloop.weaken (fun session hsession => ⟨hsession, fun _ hrequest => Or.inl hrequest⟩)
    (fun _ session hsession => ⟨hsession.1, fun request hrequest =>
      (hsession.2 request hrequest).resolve_left List.not_mem_nil⟩) (fun _ _ => trivial)

/-- An operation that holds the graph and some members. -/
structure LockedMembers (hashtext : LockKey → BitVec 32) (accountIds : List AccountId)
    (session : MembershipSession) : Prop where
  settled : SettledSession hashtext session
  graph : HoldsLock hashtext session.locks .graph
  locked : ∀ accountId ∈ accountIds, HoldsAlone hashtext session.locks (.member accountId)

theorem lasting_lockedMembers {accountIds : List AccountId} :
    LastingMembership hashtext (LockedMembers hashtext accountIds) where
  stable := fun session session' hothers h => by
    refine ⟨lasting_settled.stable hothers h.settled, ?_, ?_⟩
    · rw [hothers.2.1]
      exact h.graph
    · rw [hothers.2.1]
      exact h.locked
  locks := fun more h => ⟨lasting_settled.locks more h.settled, h.graph.append more,
    fun accountId hmem => (h.locked accountId hmem).append more⟩

/-- The graph is locked first, then the members. -/
theorem triple_locked {α : Type} {accountIds : List AccountId} {d : MembershipFlow α}
    {post : α → MembershipSession → Prop}
    (h : (membershipServer hashtext).Triple (LockedMembers hashtext accountIds) d post
      (fun _ => True)) :
    (membershipServer hashtext).Triple (SettledSession hashtext)
      ((takeLocks MembershipLocks.lockGraphShared).bind (fun _ =>
        (takeLocks (MembershipLocks.lockMembers accountIds)).bind (fun _ => d)))
      post (fun _ => True) := by
  refine Server.Triple.bind (triple_takeLocks lasting_settled _) (fun _ => ?_)
  have hgraph : LastingMembership hashtext (fun session => SettledSession hashtext session
      ∧ ⟨LockKey.graph.tag hashtext, .shared⟩ ∈ session.locks) :=
    lasting_settled.and (Store.lasting_held _)
  have hmembers : (membershipServer hashtext).Triple (fun session => SettledSession hashtext session
        ∧ ∀ request ∈ MembershipLocks.lockGraphShared, request.hashed hashtext ∈ session.locks)
      (takeLocks (MembershipLocks.lockMembers accountIds))
      (fun _ => LockedMembers hashtext accountIds) (fun _ => True) := by
    refine (triple_takeLocks hgraph _).weaken
      (fun session hsession => ⟨hsession.1, hsession.2 _ List.mem_cons_self⟩) ?_ (fun _ h => h)
    rintro - session ⟨⟨hsettled, hshared⟩, hheld⟩
    refine ⟨hsettled, ⟨.shared, hshared⟩, fun accountId hmem => ?_⟩
    refine hheld (lockExclusive (.member accountId)) (List.mem_map_of_mem ?_)
    rw [mem_sortBy, List.mem_dedup]
    exact hmem
  exact Server.Triple.bind hmembers (fun _ => h)

/-! ## Attaching -/

/-- An operation that attaches accounts, with the graph and the direct sets of the members as they
are while it holds its locks. -/
structure Attaching (hashtext : LockKey → BitVec 32) (members : List AccountMembership)
    (edges : List SetMembership) (epoch : ℤ) (sets : AccountId → List AccountSetId)
    (session : MembershipSession) : Prop
    extends LockedMembers hashtext (members.map AccountMembership.accountId) session where
  edges : session.edges = edges
  epoch : session.epoch = epoch
  sets : ∀ m ∈ members, session.sets m.accountId = sets m.accountId

variable {members : List AccountMembership} {edges : List SetMembership} {epoch : ℤ}
  {sets : AccountId → List AccountSetId}

theorem lasting_attaching :
    LastingMembership hashtext (Attaching hashtext members edges epoch sets) where
  stable := fun session session' hothers h => by
    obtain ⟨hedges, hepoch⟩ := SoundSession.graph_of_others hothers h.graph
    refine ⟨lasting_lockedMembers.stable hothers h.toLockedMembers, hedges.trans h.edges,
      hepoch.trans h.epoch, fun m hm => ?_⟩
    exact (SoundSession.sets_of_others hothers (h.locked _ (List.mem_map_of_mem hm))).trans
      (h.sets m hm)
  locks := fun more h =>
    ⟨lasting_lockedMembers.locks more h.toLockedMembers, h.edges, h.epoch, h.sets⟩

namespace Attaching

/-- No member is contained twice. -/
def MembersOnce (members : List AccountMembership) (edges : List SetMembership)
    (sets : AccountId → List AccountSetId) : Prop :=
  ∀ m ∈ members, ContainedOnce edges (sets m.accountId ++ seedSets members m.accountId)

theorem learns_probe : LearnsMembership hashtext (Attaching hashtext members edges epoch sets)
    (issue (.probeDirectMemberships
      (sortBy id (members.map AccountMembership.accountId)).dedup))
    (fun probe => probe.epoch = epoch
      ∧ ∀ m ∈ members, (seedSets probe.seeds m.accountId).Perm (sets m.accountId)) := by
  refine lasting_attaching.learns_ask nofun rfl ?_
  rintro session db probe h hview ⟨hepoch, hseeds⟩
  refine ⟨?_, fun m hm => ?_⟩
  · rw [hepoch, MembershipSession.epoch_of_view hview, h.epoch]
  · refine ((hseeds.filter _).map _).trans (List.Perm.of_eq ?_)
    refine (seedSets_filter _ ?_).trans ?_
    · rw [List.mem_dedup, mem_sortBy]
      exact List.mem_map_of_mem hm
    · exact (MembershipSession.directSets_of_view hview m.accountId).trans (h.sets m hm)

theorem learns_fetchOverlay (missing : List AccountSetId) :
    LearnsMembership hashtext (Attaching hashtext members edges epoch sets) (fetchOverlay missing)
      (fun overlay => SetGraphCache.OverlayWithin edges overlay) := by
  unfold fetchOverlay
  split
  · exact lasting_attaching.learns_done (fun overlay hoverlay => by cases hoverlay; exact nofun)
  · have hnodes : LearnsMembership hashtext (Attaching hashtext members edges epoch sets)
        (issue (.fetchSetGraphNodes missing))
        (fun nodes => ∀ edge ∈ edgesOfNodes nodes, edge ∈ edges) := by
      refine lasting_attaching.learns_ask nofun rfl ?_
      rintro session db nodes h hview hfound edge hedge
      obtain ⟨node, hnode, hid, hparent⟩ := SetGraphCache.mem_edgesOfNodes.mp hedge
      obtain ⟨-, -, hstored⟩ := SetGraphCache.mem_setGraphNodes.mp (hfound.mem_iff.mp hnode)
      rw [hparent] at hstored
      have hmem := MembershipTables.mem_parents.mp hstored
      rw [← h.edges, ← MembershipSession.memberAccountSets_of_view hview]
      rw [MembershipTables.Edge, hid] at hmem
      exact hmem
    refine Store.Learns.bind hnodes (fun nodes hedges => lasting_attaching.learns_done ?_)
    rintro overlay ⟨⟩ _ ⟨⟩ setId parentId hparent
    exact hedges _ (SetGraphCache.mem_parents_indexNodes.mp hparent)

/-- The query, with the rows at its time. -/
theorem learns_assertNoDoubleMembership :
    LearnsMembership hashtext (Attaching hashtext members edges epoch sets)
      (assertNoDoubleMembership members) (fun _ => MembersOnce members edges sets) := by
  have hquery : LearnsMembership hashtext (Attaching hashtext members edges epoch sets)
      (issue (.assertNoDoubleMembership members))
      (fun conflict => conflict = false → MembersOnce members edges sets) := by
    refine lasting_attaching.learns_ask nofun rfl ?_
    rintro session db conflict h hview ⟨fuel, hfound⟩ rfl m hm
    have honce := containedOnce_of_query hfound m.accountId
    rw [MembershipTables.seedSets_append, containedOnce_perm List.perm_append_comm,
      MembershipSession.memberAccountSets_of_view hview, h.edges] at honce
    have hstored : seedSets (db.memberships.existingMemberships members) m.accountId
        = sets m.accountId := by
      refine (seedSets_filter _ (List.mem_map_of_mem hm)).trans ?_
      exact (MembershipSession.directSets_of_view hview m.accountId).trans (h.sets m hm)
    rwa [hstored] at honce
  refine Store.Learns.bind hquery (fun conflict hconflict => ?_)
  cases conflict with
  | true => exact lasting_attaching.learns_done nofun
  | false => exact lasting_attaching.learns_done (fun _ _ => hconflict rfl)

/-- **The check of the members**, in memory or by the query. -/
theorem learns_assertNoDoubleMembershipInOp (orders : MembershipOrders) :
    LearnsMembership hashtext (Attaching hashtext members edges epoch sets)
      (assertNoDoubleMembershipInOp orders members) (fun _ => MembersOnce members edges sets) := by
  refine Store.Learns.bind learns_probe (fun probe hprobe => ?_)
  obtain ⟨hepoch, hseeds⟩ := hprobe
  refine Store.Learns.bind
    (lasting_attaching.learns_loadSnapshot (fun h => ⟨h.settled, h.edges, h.epoch⟩))
    (fun snapshot hreflects => ?_)
  rw [hepoch]
  by_cases hcurrent : snapshot.epoch = epoch
  · rw [if_neg (not_not.mpr hcurrent)]
    have hreflects := hreflects hcurrent
    refine Store.Learns.bind (learns_fetchOverlay _) (fun overlay hoverlay => ?_)
    have hwalk : ∀ answer, hasDuplicateAccountMembershipPaths (knownParents snapshot overlay)
        orders.accounts ((members ++ probe.seeds).length + itemCount snapshot.parents) members
        probe.seeds = some answer → answer = some false → MembersOnce members edges sets := by
      rintro _ hcount rfl m hm
      obtain ⟨answer, hends, hdecided⟩ :=
        (hreflects.setGraphView hoverlay).hasDuplicate_spec orders.accounts members probe.seeds
      have hsame := (hends _ (by rw [hreflects.itemCount])).symm.trans hcount
      obtain rfl := Option.some.inj hsame
      have honce := containedOnce_of_decided _ hdecided m.accountId
      rw [MembershipTables.seedSets_append, containedOnce_perm List.perm_append_comm] at honce
      exact (containedOnce_perm ((hseeds m hm).append_right _)).mp honce
    refine Store.Learns.bind (lasting_attaching.learns_expect hwalk) (fun answer hanswer => ?_)
    rcases answer with _ | _ | _
    · exact learns_assertNoDoubleMembership
    · exact lasting_attaching.learns_done (fun _ _ => hanswer rfl)
    · exact lasting_attaching.learns_done nofun
  · rw [if_pos hcurrent]
    exact learns_assertNoDoubleMembership

/-- A member comes to a set at a time when it is in no container of the set. -/
theorem write {session : MembershipSession}
    (h : Attaching hashtext members edges epoch sets session)
    (honce : MembersOnce members edges sets) :
    SettledSession hashtext
      { session with written := session.written ++ [.insertMemberAccounts members] } := by
  refine h.settled.insertMembers (fun m hm => ?_) (fun m hm => ?_)
  · exact ⟨h.locked _ (List.mem_map_of_mem hm), Or.inl h.graph⟩
  · rw [h.sets m hm, h.edges]
    exact honce m hm

end Attaching

/-- **Attaching accounts** leaves a valid graph. -/
theorem triple_attachAccounts (orders : MembershipOrders) (members : List AccountMembership) :
    (membershipServer hashtext).Triple (SettledSession hashtext) (attachAccounts orders members)
      (fun _ => SettledSession hashtext) (fun _ => True) := by
  refine triple_locked (fun session issued outcome session' hrun h => ?_)
  -- the graph and the members stay as they are from here on
  have hattaching : Attaching hashtext members session.edges session.epoch session.sets session :=
    ⟨h, rfl, rfl, fun _ _ => rfl⟩
  refine Server.Triple.bind (Attaching.learns_assertNoDoubleMembershipInOp orders)
    (fun _ => Server.Triple.of_fact (fun honce => ?_)) hrun hattaching
  unfold MembershipFlow.AccountSets.addInOp
  split
  · exact Server.Triple.ok lasting_attaching.stable () (fun _ h => h.settled)
  · exact Store.triple_write rfl lasting_attaching.stable lasting_settled.stable rfl
      (fun h _ _ => h.write honce)

/-- **Removing an account** leaves a valid graph. -/
theorem triple_removeAccount (accountSetId : AccountSetId) (accountId : AccountId) :
    (membershipServer hashtext).Triple (SettledSession hashtext) (do
        takeLocks MembershipLocks.lockGraphShared
        takeLocks (MembershipLocks.lockMembers [accountId])
        issue (.deleteMemberAccount accountSetId accountId))
      (fun _ => SettledSession hashtext) (fun _ => True) := by
  refine triple_locked (Store.triple_write rfl lasting_lockedMembers.stable lasting_settled.stable
    rfl ?_)
  intro session _ _ h _ _
  refine h.settled.write (fun _ => rfl) (fun _ => rfl) (fun other => ?_) (fun other => ?_)
  · by_cases hother : accountId = other
    · exact Or.inr ⟨h.locked other (List.mem_singleton.mpr hother.symm), Or.inl h.graph⟩
    · exact Or.inl (fun direct => if_neg hother)
  · refine (h.settled.contained other).mono (List.Subset.refl _) ?_
    rw [MembershipStatement.setsAfter]
    split
    · exact List.filter_sublist
    · exact List.Sublist.refl _

end CalaLedger
