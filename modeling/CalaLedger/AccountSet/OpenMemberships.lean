import CalaLedger.AccountSet.MembershipWrites

/-! # Open membership operations

`SoundSession` is what holds of an operation at any point of a call: who has written edges holds the
lock on the graph alone, who has written memberships of an account holds the lock on that account
alone, and the graph the operation sees is valid. What other operations commit keeps it
(`SoundSession.others`). Between two calls the epoch has moved too where edges have been written
(`SettledSession`); a commit then leaves a valid graph and nothing that a holder of compatible locks
does not rely on (`SettledSession.commit`). -/

namespace CalaLedger

open Foundations Arrow
open MembershipStatement (edgesAfter epochAfter setsAfter)

variable {hashtext : LockKey → BitVec 32}

/-- What holds of an operation at any time. -/
structure SoundSession (hashtext : LockKey → BitVec 32) (session : MembershipSession) : Prop where
  committed : session.committed.SoundGraph session.past
  edges : (∀ edges, session.written.foldl edgesAfter edges = edges)
    ∨ HoldsAlone hashtext session.locks .graph
  /-- memberships are written under both locks, or they are the first of a new account -/
  members : ∀ accountId, (∀ sets, session.written.foldl (setsAfter accountId) sets = sets)
    ∨ HoldsAlone hashtext session.locks (.member accountId)
      ∧ (HoldsLock hashtext session.locks .graph
        ∨ session.committed.memberships.directSets accountId = []
          ∧ (session.written.foldl (setsAfter accountId) []).length ≤ 1)
  valid : ValidGraph session.edges
  contained : ∀ accountId, ContainedOnce session.edges (session.sets accountId)

/-- What holds of an operation between two calls: new edges come with a new epoch. -/
structure SettledSession (hashtext : LockKey → BitVec 32) (session : MembershipSession) : Prop
    extends SoundSession hashtext session where
  bumped : (∀ edges, session.written.foldl edgesAfter edges = edges)
      ∧ (∀ epoch, session.written.foldl epochAfter epoch = epoch)
    ∨ HoldsAlone hashtext session.locks .graph
      ∧ ∀ epoch, epoch < session.written.foldl epochAfter epoch

namespace SoundSession

variable {session session' : MembershipSession}

/-! ## Other operations -/

section Others

variable (hothers : (membershipServer hashtext).others session session')
include hothers

/-- Under a lock on the graph, edges and epoch stay. -/
theorem graph_of_others (hgraph : HoldsLock hashtext session.locks .graph) :
    session'.edges = session.edges ∧ session'.epoch = session.epoch := by
  obtain ⟨hwritten, -, -, hleaves, -⟩ := hothers
  obtain ⟨hedges, hepoch⟩ := hleaves.graph hgraph
  constructor
  · rw [MembershipSession.edges, MembershipSession.edges, hwritten, hedges]
  · rw [MembershipSession.epoch, MembershipSession.epoch, hwritten, hepoch]

/-- The memberships of a locked account stay. -/
theorem sets_of_others {accountId : AccountId}
    (hmember : HoldsAlone hashtext session.locks (.member accountId)) :
    session'.sets accountId = session.sets accountId := by
  obtain ⟨hwritten, -, -, hleaves, -⟩ := hothers
  rw [MembershipSession.sets, MembershipSession.sets, hwritten, hleaves.members accountId hmember]

variable (h : SoundSession hashtext session)
include h

/-- Under a graph locked alone, accounts only come to their first set. -/
theorem attached_of_others (hgraph : HoldsAlone hashtext session.locks .graph)
    (accountId : AccountId) :
    session'.sets accountId = session.sets accountId
      ∨ session.sets accountId = [] ∧ (session'.sets accountId).length ≤ 1 := by
  rcases h.members accountId with hnone | ⟨hmember, -⟩
  · obtain ⟨hwritten, -, -, hleaves, -⟩ := hothers
    have hsets : session.sets accountId
        = session.committed.memberships.directSets accountId := hnone _
    have hsets' : session'.sets accountId
        = session'.committed.memberships.directSets accountId := by
      rw [MembershipSession.sets, hwritten]
      exact hnone _
    rw [hsets, hsets']
    exact hleaves.attached hgraph accountId
  · exact Or.inl (sets_of_others hothers hmember)

/-- Without new edges, the operation sees those committed. -/
theorem edges_of_others (hgraph : ¬ HoldsLock hashtext session.locks .graph) :
    session'.edges = session'.committed.memberships.memberAccountSets := by
  obtain ⟨hwritten, -⟩ := hothers
  rw [MembershipSession.edges, hwritten]
  exact h.edges.resolve_right (fun halone => hgraph halone.holdsLock) _

/-- **Other operations keep a session sound.** -/
theorem others : SoundSession hashtext session' where
  committed := hothers.2.2.2.2
  edges := by
    rw [hothers.1, hothers.2.1]
    exact h.edges
  members := fun accountId => by
    rw [hothers.1, hothers.2.1]
    refine (h.members accountId).imp_right (fun ⟨hmember, hwhy⟩ => ⟨hmember, hwhy.imp_right ?_⟩)
    rintro ⟨hfresh, hlength⟩
    have hkept := hothers.2.2.2.1.members accountId hmember
    exact ⟨hkept.trans hfresh, hlength⟩
  valid := by
    by_cases hgraph : HoldsLock hashtext session.locks .graph
    · rw [(graph_of_others hothers hgraph).1]
      exact h.valid
    · rw [edges_of_others hothers h hgraph]
      exact hothers.2.2.2.2.valid
  contained := fun accountId => by
    rcases h.members accountId with hnone | ⟨hmember, hgraph | ⟨hfresh, hlength⟩⟩
    · rcases h.edges with hedges | halone
      · -- nothing of this account is the operation's own
        rw [show session'.edges = _ from hothers.1 ▸ hedges _,
          show session'.sets accountId = _ from hothers.1 ▸ hnone _]
        exact hothers.2.2.2.2.contained accountId
      · rw [(graph_of_others hothers halone.holdsLock).1]
        rcases attached_of_others hothers h halone accountId with hsets | ⟨-, hlength⟩
        · rw [hsets]
          exact h.contained accountId
        · exact containedOnce_of_length_le hlength
    · -- the operation holds both locks, and what it sees of the account stays
      rw [(graph_of_others hothers hgraph).1, sets_of_others hothers hmember]
      exact h.contained accountId
    · -- a new account has one set at most, however the graph changes
      refine containedOnce_of_length_le ?_
      rw [sets_of_others hothers hmember, MembershipSession.sets, hfresh]
      exact hlength

end Others

/-! ## Own statements -/

/-- **A statement of the operation**: it writes edges under the graph locked alone, and memberships
under both locks or as the first ones of a new account. -/
theorem write (h : SoundSession hashtext session) {statement : MembershipStatement}
    (hedges : (∀ edges, edgesAfter edges statement = edges)
      ∨ HoldsAlone hashtext session.locks .graph)
    (hmembers : ∀ accountId, (∀ sets, setsAfter accountId sets statement = sets)
      ∨ HoldsAlone hashtext session.locks (.member accountId)
        ∧ (HoldsLock hashtext session.locks .graph
          ∨ session.committed.memberships.directSets accountId = []
            ∧ (setsAfter accountId (session.sets accountId) statement).length ≤ 1))
    (hvalid : ValidGraph (edgesAfter session.edges statement))
    (hcontained : ∀ accountId, ContainedOnce (edgesAfter session.edges statement)
      (setsAfter accountId (session.sets accountId) statement)) :
    SoundSession hashtext { session with written := session.written ++ [statement] } where
  committed := h.committed
  edges := by
    rcases hedges with hedges | halone
    · refine h.edges.imp_left (fun hnone edges => ?_)
      rw [List.foldl_append, hnone]
      exact hedges edges
    · exact Or.inr halone
  members := fun accountId => by
    rcases hmembers accountId with hnone | ⟨hmember, hwhy⟩
    · have hsame : ∀ sets, (session.written ++ [statement]).foldl (setsAfter accountId) sets
          = session.written.foldl (setsAfter accountId) sets := by
        intro sets
        rw [List.foldl_append]
        exact hnone _
      refine (h.members accountId).imp (fun hold sets => (hsame sets).trans (hold sets)) ?_
      refine And.imp_right (Or.imp_right (And.imp_right fun hlength => ?_))
      rw [hsame]
      exact hlength
    · refine Or.inr ⟨hmember, hwhy.imp_right (fun ⟨hfresh, hlength⟩ => ⟨hfresh, ?_⟩)⟩
      rw [MembershipSession.sets, hfresh] at hlength
      rw [List.foldl_append]
      exact hlength
  valid := by
    rw [MembershipSession.edges_write]
    exact hvalid
  contained := fun accountId => by
    rw [MembershipSession.edges_write, MembershipSession.sets_write]
    exact hcontained accountId

end SoundSession

/-- What an operation's locks and the other operations keep. -/
abbrev LastingMembership (hashtext : LockKey → BitVec 32)
    (assertion : MembershipSession → Prop) : Prop :=
  (membershipStore hashtext).Lasting (LedgerDb.Leaves hashtext) LedgerDb.SoundGraph assertion

theorem lasting_sound : LastingMembership hashtext (SoundSession hashtext) where
  stable := fun _ _ hothers h => SoundSession.others hothers h
  locks := fun {_} more h =>
    { committed := h.committed
      edges := h.edges.imp_right (fun halone => halone.append more)
      members := fun accountId => (h.members accountId).imp_right (fun ⟨hmember, hwhy⟩ =>
        ⟨hmember.append more, hwhy.imp_left (fun hgraph => hgraph.append more)⟩)
      valid := h.valid
      contained := h.contained }

/-! ## Between two calls -/

theorem lasting_settled : LastingMembership hashtext (SettledSession hashtext) where
  stable := fun session session' hothers h =>
    { toSoundSession := SoundSession.others hothers h.toSoundSession
      bumped := by
        rw [hothers.1, hothers.2.1]
        exact h.bumped }
  locks := fun more h =>
    { toSoundSession := lasting_sound.locks more h.toSoundSession
      bumped := h.bumped.imp_right (And.imp_left fun halone => halone.append more) }

namespace SettledSession

variable {session session' : MembershipSession}

/-- A statement that writes no edges. -/
theorem write (h : SettledSession hashtext session) {statement : MembershipStatement}
    (hedges : ∀ edges, edgesAfter edges statement = edges)
    (hepoch : ∀ epoch, epochAfter epoch statement = epoch)
    (hmembers : ∀ accountId, (∀ sets, setsAfter accountId sets statement = sets)
      ∨ HoldsAlone hashtext session.locks (.member accountId)
        ∧ (HoldsLock hashtext session.locks .graph
          ∨ session.committed.memberships.directSets accountId = []
            ∧ (setsAfter accountId (session.sets accountId) statement).length ≤ 1))
    (hcontained : ∀ accountId, ContainedOnce session.edges
      (setsAfter accountId (session.sets accountId) statement)) :
    SettledSession hashtext { session with written := session.written ++ [statement] } where
  toSoundSession := by
    refine h.toSoundSession.write (Or.inl hedges) hmembers ?_ (fun accountId => ?_)
    · rw [hedges]
      exact h.valid
    · rw [hedges]
      exact hcontained accountId
  bumped := by
    simp only [List.foldl_append, List.foldl_cons, List.foldl_nil, hedges, hepoch]
    exact h.bumped

/-- An operation begins. -/
theorem begun {db : LedgerDb} {past : List LedgerDb} (h : db.SoundGraph past) :
    SettledSession hashtext ⟨db, past, [], []⟩ where
  committed := h
  edges := Or.inl (fun _ => rfl)
  members := fun _ => Or.inl (fun _ => rfl)
  valid := h.valid
  contained := h.contained
  bumped := Or.inl ⟨fun _ => rfl, fun _ => rfl⟩

variable {db : LedgerDb} (h : SettledSession hashtext session)
  (hview : (membershipStore hashtext).view session = some db)
include h hview

/-- **The graph a commit leaves.** -/
theorem soundGraph_of_commit : db.SoundGraph (session.committed :: session.past) where
  keys := (MembershipSession.follows_of_view hview).keys h.committed.keys
  valid := by
    rw [MembershipSession.memberAccountSets_of_view hview]
    exact h.valid
  contained := fun accountId => by
    rw [MembershipSession.memberAccountSets_of_view hview,
      MembershipSession.directSets_of_view hview]
    exact h.contained accountId
  epoch := by
    rw [MembershipSession.epoch_of_view hview]
    exact h.committed.epoch.trans (MembershipStatement.le_epochAfter _ _)
  past := by
    refine h.committed.past_cons ?_ (fun hepoch => ?_)
    · rw [MembershipSession.epoch_of_view hview]
      exact MembershipStatement.le_epochAfter _ _
    · rw [MembershipSession.epoch_of_view hview] at hepoch
      rw [MembershipSession.memberAccountSets_of_view hview]
      rcases h.bumped with ⟨hedges, -⟩ | ⟨-, hlater⟩
      · exact (hedges _).symm
      · exact absurd hepoch (hlater _).ne

/-- **What a commit changes**, nobody relies on who holds compatible locks. -/
theorem leaves_of_commit {locks : List (LockRequest LockTag)}
    (hcompatible : Compatible session.locks locks) :
    LedgerDb.Leaves hashtext locks session.committed db where
  graph := fun hgraph => by
    rw [MembershipSession.memberAccountSets_of_view hview, MembershipSession.epoch_of_view hview]
    rcases h.bumped with ⟨hedges, hepoch⟩ | ⟨halone, -⟩
    · exact ⟨hedges _, hepoch _⟩
    · exact absurd hgraph (halone.not_holdsLock hcompatible)
  attached := fun hgraph accountId => by
    rw [MembershipSession.directSets_of_view hview]
    rcases h.members accountId with hnone | ⟨-, hown | ⟨hfresh, hlength⟩⟩
    · exact Or.inl (hnone _)
    · -- who holds the graph alone meets no membership written under a lock on the graph
      exact absurd hown (hgraph.not_holdsLock hcompatible.symm)
    · refine Or.inr ⟨hfresh, ?_⟩
      rw [MembershipSession.sets, hfresh]
      exact hlength
  members := fun accountId hmember => by
    rw [MembershipSession.directSets_of_view hview]
    rcases h.members accountId with hnone | ⟨hown, -⟩
    · exact hnone _
    · exact absurd hown.holdsLock (hmember.not_holdsLock hcompatible.symm)

end SettledSession

end CalaLedger
