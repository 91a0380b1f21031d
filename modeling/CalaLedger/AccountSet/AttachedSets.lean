import CalaLedger.AccountSet.AttachedAccounts

/-! # Attached sets

Under the graph locked alone, the edges stay as they are and accounts only come to their first set
(`lasting_rewiring`). So edges that the validation of `add_member_sets` accepts are valid with all
the memberships there are when they are written, although the edges, the affected accounts and their
memberships are read at different times (`triple_assertValidSetMembershipsInOp`). -/

namespace CalaLedger

open Foundations Arrow
open MembershipFlow.AccountSets
open SetGraphCache (Reflects seedSets)

/-! ## The accounts below some sets -/

namespace MembershipTables

variable (tables : MembershipTables)

theorem mem_candidateAccounts {affectedSetIds : List AccountSetId} {accountId : AccountId} :
    accountId ∈ tables.candidateAccounts affectedSetIds
      ↔ ∃ m ∈ tables.memberAccounts, m.accountId = accountId
        ∧ m.accountSetId ∈ affectedSetIds := by
  rw [candidateAccounts, List.mem_dedup, mem_sortBy, List.mem_map]
  simp only [List.mem_filter, decide_eq_true_eq]
  exact exists_congr (fun m => ⟨fun ⟨⟨hm, hset⟩, haccount⟩ => ⟨hm, haccount, hset⟩,
    fun ⟨hm, haccount, hset⟩ => ⟨⟨hm, hset⟩, haccount⟩⟩)

end MembershipTables

/-- The affected sets are those below a proposed member. -/
theorem mem_of_affectedSets {existing members : List SetMembership} {affected : List AccountSetId}
    (h : affectedSets existing members = some affected) (setId : AccountSetId) :
    setId ∈ affected ↔ ∃ e ∈ members, Reach (existing ++ members) (dst e) setId := by
  have hchildren : ∀ v, ((((existing ++ members).foldl (fun children edge =>
      upsert children edge.accountSetId [] (· ++ [edge.memberAccountSetId]))
        (∅ : HashMap AccountSetId (List AccountSetId))).lookup v).getD [])
      = (edgesFrom (existing ++ members) v).map dst := by
    intro v
    rw [getD_lookup_foldl_push, AList.lookup_empty]
    rfl
  obtain ⟨found, visited, hexplore, hfound, hvisited⟩ := explore_edges hchildren (fun _ => false)
    (members.length + (existing.length + members.length))
    (members.map SetMembership.memberAccountSetId).reverse (by simp)
  have hvisited := hvisited (by
    cases found with
    | false => rfl
    | true => obtain ⟨_, _, hstop⟩ := hfound.mp rfl; cases hstop)
  rw [affectedSets, hexplore] at h
  cases h
  rw [hvisited]
  constructor
  · rintro ⟨s, hs, hreach⟩
    obtain ⟨e, he, rfl⟩ := List.mem_map.mp (List.mem_reverse.mp hs)
    exact ⟨e, he, hreach⟩
  · rintro ⟨e, he, hreach⟩
    exact ⟨_, List.mem_reverse.mpr (List.mem_map_of_mem he), hreach⟩

/-! ## The graph alone -/

variable {hashtext : LockKey → BitVec 32}

/-- An operation that holds the graph alone, with the edges it sees and its epoch. -/
structure Rewiring (hashtext : LockKey → BitVec 32) (edges : List SetMembership) (epoch : ℤ)
    (session : MembershipSession) : Prop where
  settled : SettledSession hashtext session
  alone : HoldsAlone hashtext session.locks .graph
  edges : session.edges = edges
  epoch : session.epoch = epoch

/-- Some memberships at an earlier time: since then, accounts have only come to their first set. -/
structure Since (hashtext : LockKey → BitVec 32) (edges : List SetMembership) (epoch : ℤ)
    (rows : List AccountMembership) (session : MembershipSession) : Prop
    extends Rewiring hashtext edges epoch session where
  sets : ∀ accountId, session.sets accountId = seedSets rows accountId
    ∨ seedSets rows accountId = [] ∧ (session.sets accountId).length ≤ 1

section Rewiring

variable {edges members : List SetMembership} {epoch : ℤ} {rows : List AccountMembership}

theorem lasting_rewiring : LastingMembership hashtext (Rewiring hashtext edges epoch) where
  stable := fun session session' hothers h => by
    obtain ⟨hedges, hepoch⟩ := SoundSession.graph_of_others hothers h.alone.holdsLock
    refine ⟨lasting_settled.stable hothers h.settled, ?_, hedges.trans h.edges,
      hepoch.trans h.epoch⟩
    rw [hothers.2.1]
    exact h.alone
  locks := fun more h =>
    ⟨lasting_settled.locks more h.settled, h.alone.append more, h.edges, h.epoch⟩

theorem lasting_since : LastingMembership hashtext (Since hashtext edges epoch rows) where
  stable := fun session session' hothers h => by
    refine ⟨lasting_rewiring.stable hothers h.toRewiring, fun accountId => ?_⟩
    rcases SoundSession.attached_of_others hothers h.settled.toSoundSession h.alone accountId with
      hsame | ⟨hnone, hfirst⟩
    · rw [hsame]
      exact h.sets accountId
    · -- the account had no set so far, so it had none at the time of the rows
      rcases h.sets accountId with hrows | ⟨hrows, -⟩
      · exact Or.inr ⟨hrows.symm.trans hnone, hfirst⟩
      · exact Or.inr ⟨hrows, hfirst⟩
  locks := fun more h => ⟨lasting_rewiring.locks more h.toRewiring, h.sets⟩

/-- **The existing edges** are those of a part of the graph that holds the proposed ones. -/
theorem learns_existingEdgesInOp (hvalid : ValidGraph edges) (orders : MembershipOrders) :
    LearnsMembership hashtext (Rewiring hashtext edges epoch) (existingEdgesInOp orders members)
      (fun existing => ∃ C outside, Split C edges existing outside ∧ Within C members) := by
  have hepoch : LearnsMembership hashtext (Rewiring hashtext edges epoch)
      (issue .fetchSetGraphEpoch) (fun current => current = epoch) := by
    refine lasting_rewiring.learns_ask nofun rfl ?_
    rintro session db current h hview rfl
    rw [MembershipSession.epoch_of_view hview, h.epoch]
  refine Store.Learns.bind
    (lasting_rewiring.learns_loadSnapshot (fun h => ⟨h.settled, h.edges, h.epoch⟩))
    (fun snapshot hsnapshot => Store.Learns.bind hepoch ?_)
  rintro current rfl
  split
  · rename_i hcurrent
    refine lasting_rewiring.learns_expect (fun existing hexisting => ?_)
    obtain ⟨C, selected, outside, hselected, hsplit, hwithin⟩ :=
      SetGraphCache.edgesConnectedTo_spec (hsnapshot hcurrent)
        (nodup_of_apart hvalid.uniqueWalks.apart) orders.edges members
    obtain rfl := Option.some.inj (hselected.symm.trans hexisting)
    exact ⟨C, outside, hsplit, hwithin⟩
  · refine lasting_rewiring.learns_ask nofun rfl ?_
    intro session db existing h hview hfound
    have hperm : existing.Perm db.memberships.memberAccountSets := hfound
    rw [MembershipSession.memberAccountSets_of_view hview, h.edges] at hperm
    -- all the edges there are
    refine ⟨fun _ => True, [], ⟨?_, fun _ _ => ⟨trivial, trivial⟩, nofun⟩,
      fun _ _ => ⟨trivial, trivial⟩⟩
    rw [List.append_nil]
    exact hperm.symm

/-- The memberships of accounts that were in a set stay. -/
theorem learns_membershipsOf {candidates : List AccountId}
    (hcandidates : ∀ accountId ∈ candidates, seedSets rows accountId ≠ []) :
    LearnsMembership hashtext (Since hashtext edges epoch rows)
      (if candidates = [] then pure [] else issue (.membershipsOf candidates))
      (fun affected => affected.Perm (rows.filter (fun m => m.accountId ∈ candidates))) := by
  split
  · rename_i hempty
    refine lasting_since.learns_done (fun affected haffected => ?_)
    cases haffected
    subst hempty
    simp
  · refine lasting_since.learns_ask nofun rfl ?_
    rintro session db affected h hview rfl
    refine (sortBy_perm membershipOrder _).trans (List.perm_iff_count.mpr (fun m => ?_))
    by_cases hcandidate : m.accountId ∈ candidates
    · -- a candidate was in a set, so it is no account that came to its first one since
      have hsame : seedSets db.memberships.memberAccounts m.accountId = seedSets rows m.accountId :=
        (MembershipSession.directSets_of_view hview m.accountId).trans
          ((h.sets m.accountId).resolve_right (fun hnew => hcandidates _ hcandidate hnew.1))
      rw [← MembershipTables.count_seedSets, ← MembershipTables.count_seedSets,
        seedSets_filter _ hcandidate, seedSets_filter _ hcandidate, hsame]
    · have hout : ∀ l : List AccountMembership,
          (l.filter (fun m => m.accountId ∈ candidates)).count m = 0 := by
        refine fun l => List.count_eq_zero.mpr (fun hmem => hcandidate ?_)
        exact of_decide_eq_true (List.mem_filter.mp hmem).2
      rw [hout, hout]

/-- What an operation has validated: the graph with some more edges. -/
structure Validated (hashtext : LockKey → BitVec 32) (members : List SetMembership)
    (session : MembershipSession) : Prop where
  settled : SettledSession hashtext session
  alone : HoldsAlone hashtext session.locks .graph
  valid : ValidGraph (session.edges ++ members)
  contained : ∀ accountId, ContainedOnce (session.edges ++ members) (session.sets accountId)

theorem lasting_validated : LastingMembership hashtext (Validated hashtext members) where
  stable := fun session session' hothers h => by
    have hedges := (SoundSession.graph_of_others hothers h.alone.holdsLock).1
    refine ⟨lasting_settled.stable hothers h.settled, ?_, ?_, fun accountId => ?_⟩
    · rw [hothers.2.1]
      exact h.alone
    · rw [hedges]
      exact h.valid
    · rw [hedges]
      rcases SoundSession.attached_of_others hothers h.settled.toSoundSession h.alone accountId with
        hsame | ⟨-, hfirst⟩
      · rw [hsame]
        exact h.contained accountId
      · exact containedOnce_of_length_le hfirst
  locks := fun more h =>
    ⟨lasting_settled.locks more h.settled, h.alone.append more, h.valid, h.contained⟩

/-- What has been fetched to validate some edges: memberships as they were at some time, and those
of the accounts below the edges. -/
structure Fetched (edges existing members : List SetMembership)
    (rows affected : List AccountMembership) : Prop where
  contained : ∀ accountId, ContainedOnce edges (seedSets rows accountId)
  affected : ∃ candidates : List AccountId,
    affected.Perm (rows.filter (fun m => m.accountId ∈ candidates))
      ∧ ∀ accountId, accountId ∈ candidates ↔ ∃ m ∈ rows, m.accountId = accountId
        ∧ ∃ e ∈ members, Reach (existing ++ members) (dst e) (src m)

theorem triple_fetchAffectedAccountMembershipsInOp (existing : List SetMembership) :
    (membershipServer hashtext).Triple (Rewiring hashtext edges epoch)
      (fetchAffectedAccountMembershipsInOp existing members)
      (fun affected session => ∃ rows, Fetched edges existing members rows affected
        ∧ Since hashtext edges epoch rows session) (fun _ => True) := by
  have hsets : LearnsMembership hashtext (Rewiring hashtext edges epoch)
      (Dialogue.expect (affectedSets existing members))
      (fun setIds => affectedSets existing members = some setIds) :=
    lasting_rewiring.learns_expect (fun _ hsets => hsets)
  refine Server.Triple.bind hsets (fun setIds => Server.Triple.of_fact (fun hsets => ?_))
  -- the memberships at the time of the first query
  have hquery : (membershipServer hashtext).Triple (Rewiring hashtext edges epoch)
      (issue (.candidateAccounts setIds))
      (fun candidates session => Rewiring hashtext edges epoch session
        ∧ ∃ rows : List AccountMembership,
          ((∀ accountId, ContainedOnce edges (seedSets rows accountId))
          ∧ ∀ accountId, accountId ∈ candidates ↔ ∃ m ∈ rows, m.accountId = accountId
            ∧ m.accountSetId ∈ setIds) ∧ Since hashtext edges epoch rows session)
      (fun _ => True) := by
    refine lasting_rewiring.read
      (fun _ => Store.lasting_exists (fun rows => lasting_since.of_fact)) nofun rfl ?_
    rintro session db candidates h hview rfl
    have hrows : ∀ accountId, MembershipSession.sets session accountId
        = seedSets db.memberships.memberAccounts accountId :=
      fun accountId => (MembershipSession.directSets_of_view hview accountId).symm
    refine ⟨db.memberships.memberAccounts, ⟨fun accountId => ?_, fun accountId =>
      db.memberships.mem_candidateAccounts⟩, h, fun accountId => Or.inl (hrows accountId)⟩
    rw [← hrows, ← h.edges]
    exact h.settled.contained accountId
  refine Server.Triple.bind (hquery.weaken (fun _ h => h) (fun _ _ h => h.2) (fun _ h => h))
    (fun candidates => Server.Triple.of_exists (fun rows => Server.Triple.of_fact ?_))
  rintro ⟨hcontained, hcandidates⟩
  have hnonempty : ∀ accountId ∈ candidates, seedSets rows accountId ≠ [] := by
    intro accountId hmem
    obtain ⟨m, hm, rfl, -⟩ := (hcandidates accountId).mp hmem
    refine List.ne_nil_of_mem (a := m.accountSetId) ?_
    exact List.mem_map_of_mem (List.mem_filter.mpr ⟨hm, decide_eq_true rfl⟩)
  refine Server.Triple.weaken (learns_membershipsOf hnonempty) (fun _ h => h)
    (fun affected session h => ⟨rows, ⟨hcontained, candidates, h.1, fun accountId => ?_⟩, h.2⟩)
    (fun _ h => h)
  rw [hcandidates]
  refine exists_congr (fun m => and_congr_right' (and_congr_right' ?_))
  exact mem_of_affectedSets hsets m.accountSetId

/-- **The validation** is about the graph that the operation writes. -/
theorem triple_assertValidSetMembershipsInOp (hvalid : ValidGraph edges)
    (orders : MembershipOrders) :
    (membershipServer hashtext).Triple (Rewiring hashtext edges epoch)
      (assertValidSetMembershipsInOp orders members) (fun _ => Validated hashtext members)
      (fun _ => True) := by
  refine Server.Triple.bind (learns_existingEdgesInOp hvalid orders)
    (fun existing => Server.Triple.of_fact ?_)
  rintro ⟨C, outside, hsplit, hwithin⟩
  refine Server.Triple.bind (triple_fetchAffectedAccountMembershipsInOp existing)
    (fun affected => Server.Triple.of_exists (fun rows => Server.Triple.of_fact ?_))
  rintro ⟨hcontained, candidates, haffected, hcandidates⟩
  have hvalidated : LearnsMembership hashtext (Since hashtext edges epoch rows)
      (Dialogue.expect (validateSetMemberships orders.sets existing members affected))
      (fun result => validateSetMemberships orders.sets existing members affected = some result) :=
    lasting_since.learns_expect (fun _ hresult => hresult)
  refine Server.Triple.bind hvalidated (fun result => Server.Triple.of_fact (fun hresult => ?_))
  refine Server.Triple.done lasting_since.stable ?_ (fun _ _ => trivial)
  intro accepted haccepted session h
  cases result with
  | error error => cases haccepted
  | ok _ =>
      obtain ⟨hgraph, honce⟩ := containedOnce_of_validated hvalid hcontained hsplit hwithin
        haffected hcandidates hresult
      refine ⟨h.settled, h.alone, ?_, fun accountId => ?_⟩
      · rw [h.edges]
        exact hgraph
      · rw [h.edges]
        rcases h.sets accountId with hsame | ⟨-, hfirst⟩
        · rw [hsame]
          exact honce accountId
        · exact containedOnce_of_length_le hfirst

/-! ## Writing edges -/

/-- An operation that has written edges, and not yet a new epoch. -/
abbrev Rewritten (hashtext : LockKey → BitVec 32) (session : MembershipSession) : Prop :=
  SoundSession hashtext session ∧ ⟨LockKey.graph.tag hashtext, .exclusive⟩ ∈ session.locks

theorem lasting_rewritten : LastingMembership hashtext (Rewritten hashtext) :=
  lasting_sound.and (Store.lasting_held _)

/-- A new epoch. -/
theorem triple_bumpSetGraphEpoch :
    (membershipServer hashtext).Triple (Rewritten hashtext) (issue .bumpSetGraphEpoch)
      (fun _ => SettledSession hashtext) (fun _ => True) := by
  refine Store.triple_write rfl lasting_rewritten.stable lasting_settled.stable rfl ?_
  rintro session _ _ ⟨hsound, halone⟩ - -
  refine ⟨hsound.write (Or.inl (fun _ => rfl)) (fun _ => Or.inl (fun _ => rfl)) hsound.valid
    hsound.contained, Or.inr ⟨halone, fun epoch => ?_⟩⟩
  rw [List.foldl_append]
  exact Int.lt_add_one_of_le (MembershipStatement.le_epochAfter _ _)

/-- **Attaching sets** leaves a valid graph. -/
theorem triple_attachSets (orders : MembershipOrders) (members : List SetMembership) :
    (membershipServer hashtext).Triple (SettledSession hashtext) (attachSets orders members)
      (fun _ => SettledSession hashtext) (fun _ => True) := by
  refine Server.Triple.bind (triple_takeLocks lasting_settled _) (fun _ => ?_)
  rintro session issued outcome session' hrun ⟨hsettled, hheld⟩
  -- the edges stay as they are from here on
  have hrewiring : Rewiring hashtext session.edges session.epoch session :=
    ⟨hsettled, hheld _ List.mem_cons_self, rfl, rfl⟩
  refine Server.Triple.bind (triple_assertValidSetMembershipsInOp hsettled.valid orders)
    (fun _ => ?_) hrun hrewiring
  unfold MembershipFlow.AccountSets.insertMemberSets
  split
  · exact Server.Triple.ok lasting_validated.stable () (fun _ h => h.settled)
  · refine Server.Triple.bind (Store.triple_write rfl lasting_validated.stable
      lasting_rewritten.stable rfl ?_) (fun _ => triple_bumpSetGraphEpoch)
    intro session _ _ h _ _
    exact ⟨h.settled.toSoundSession.write (Or.inr h.alone) (fun _ => Or.inl (fun _ => rfl)) h.valid
      h.contained, h.alone⟩

/-- **Removing a set** leaves a valid graph. -/
theorem triple_removeMemberSet (accountSetId memberAccountSetId : AccountSetId) :
    (membershipServer hashtext).Triple (SettledSession hashtext)
      (MembershipFlow.AccountSets.removeMemberSet accountSetId memberAccountSetId)
      (fun _ => SettledSession hashtext) (fun _ => True) := by
  have halone : LastingMembership hashtext (fun session => SettledSession hashtext session
      ∧ ⟨LockKey.graph.tag hashtext, .exclusive⟩ ∈ session.locks) :=
    lasting_settled.and (Store.lasting_held _)
  refine Server.Triple.bind ((triple_takeLocks lasting_settled _).weaken (fun _ h => h)
    (fun _ session h => ⟨h.1, h.2 (lockExclusive .graph) List.mem_cons_self⟩) (fun _ h => h))
    (fun _ => Server.Triple.bind (Store.triple_write rfl halone.stable lasting_rewritten.stable
      rfl ?_) (fun _ => triple_bumpSetGraphEpoch))
  rintro session _ _ ⟨hsettled, halone⟩ - -
  refine ⟨hsettled.toSoundSession.write (Or.inr halone) (fun _ => Or.inl (fun _ => rfl)) ?_
    (fun accountId => ?_), halone⟩
  · exact hsettled.valid.mono List.filter_sublist
  · refine ContainedOnce.mono ?_ (List.Sublist.refl _) (hsettled.contained accountId)
    exact List.filter_sublist.subset

end Rewiring

end CalaLedger
