import CalaLedger.LockProtocol

/-! # Lock-hash collisions

Postgres sees the hashes of the lock keys. Posting batches take their fence locks shared, so only
the hashes of the balance and velocity keys matter, in the order in which the batches request them:
a cycle of batches that wait for each other is reachable exactly when finitely many of these
sequences are interlocked (`hash_collisions_acyclic_iff`). The sequences ascend by key and not by
hash, so two keys that collide may interlock two batches (`hash_collision_deadlocks`). -/

namespace CalaLedger

open Foundations (LockTable LockRequest)
open Foundations.LockTable (Crossing Interlocked)

/-- The locks a posting batch requests in one of its runs, beside any other operations. -/
def PostingRequests (display : JsonDisplay) (batch : List PostingInput)
    (locks : List AdvisoryLock) : Prop :=
  ∃ rely cache graph ids ledger issued outcome session,
    (PostingSession.server rely).Run ⟨ledger, [], []⟩
      (Postings.postAllInOp cache graph display ids batch) issued outcome session
    ∧ locks = session.locks

/-- The requests as Postgres sees them. -/
def hashedLocks (hashtext : LockKey → BitVec 32) (locks : List AdvisoryLock) :
    List (LockRequest LockTag) :=
  locks.map (AdvisoryLock.hashed hashtext)

/-- The hashes of the balance and velocity keys, in the order of their requests. -/
def oneArgumentHashes (hashtext : LockKey → BitVec 32) (locks : List AdvisoryLock) :
    List (BitVec 32) :=
  locks.filterMap (fun request =>
    match request.lock with
    | .balance key => some (hashtext (.balance key))
    | .velocity key => some (hashtext (.velocity key))
    | _ => none)

/-! ## The locks of a posting -/

/-- A request of the posting flow: fences are shared, balances exclusive. -/
inductive PosterLock : AdvisoryLock → Prop
  | fence (accountId : AccountId) : PosterLock (lockShared (.fence accountId))
  | balance (key : BalanceKey) : PosterLock (lockExclusive (.balance key))
  | velocity (key : VelocityBalanceKey) : PosterLock (lockExclusive (.velocity key))

theorem posterLock_of_mem_lockRequests {db : LedgerDb} {statement : PostingStatement}
    {request : AdvisoryLock} (h : request ∈ statement.lockRequests db) : PosterLock request := by
  cases statement with
  | lockBalancesAndProbeTemplates keys codes =>
      obtain ⟨key, -, hmem⟩ := List.mem_flatMap.mp h
      rw [PostingStatement.fenceLocks] at hmem
      split at hmem
      · exact absurd hmem List.not_mem_nil
      · rcases List.mem_cons.mp hmem with rfl | hmem
        · exact .fence key.accountId
        · split at hmem
          · exact absurd hmem List.not_mem_nil
          · rw [List.mem_singleton.mp hmem]
            exact .balance key
  | walkMappingsAndLock journalId entryPairs =>
      obtain ⟨pair, -, rfl⟩ := List.mem_map.mp h
      exact .balance _
  | lockResolvedAncestors journalId pairs =>
      obtain ⟨pair, -, rfl⟩ := List.mem_map.mp h
      exact .balance _
  | lockVelocityBalances keys =>
      obtain ⟨key, -, rfl⟩ := List.mem_map.mp h
      exact .velocity key
  | _ => exact absurd h List.not_mem_nil

theorem PostingRequests.posterLock {display : JsonDisplay} {batch : List PostingInput}
    {locks : List AdvisoryLock} (h : PostingRequests display batch locks) :
    ∀ request ∈ locks, PosterLock request := by
  obtain ⟨rely, cache, graph, ids, ledger, issued, outcome, session, hrun, rfl⟩ := h
  let poster (session : PostingSession) : Prop := ∀ request ∈ session.locks, PosterLock request
  have hothers : ∀ {session session'}, (PostingSession.server rely).others session session' →
      poster session → poster session' := by
    rintro session session' ⟨-, hlocks, -⟩ hposter request hmem
    exact hposter request (hlocks ▸ hmem)
  have hexecutes : ∀ {session statement answer session'},
      (PostingSession.server rely).executes session statement answer session' →
      poster session → poster session' := by
    rintro session statement answer _ ⟨_, _, db, -, -, -, rfl⟩ hposter request hmem
    rcases List.mem_append.mp hmem with hmem | hmem
    · exact hposter request hmem
    · exact posterLock_of_mem_lockRequests hmem
  exact hrun.invariant hothers hexecutes (fun _ hmem => absurd hmem List.not_mem_nil)

/-! ## Collisions -/

/-- The hash of a one-argument lock. -/
def oneArgument (request : LockRequest LockTag) : Option (BitVec 32) :=
  match request.lock with
  | .oneArgument key => some key
  | .twoArgument _ _ => none

theorem filterMap_oneArgument (hashtext : LockKey → BitVec 32) (locks : List AdvisoryLock) :
    (hashedLocks hashtext locks).filterMap oneArgument = oneArgumentHashes hashtext locks := by
  rw [hashedLocks, List.filterMap_map, oneArgumentHashes]
  congr 1
  funext request
  obtain ⟨key, mode⟩ := request
  cases key <;> rfl

/-- Requests of two batches conflict when they are of one hash. -/
theorem PosterLock.conflicts_iff {own other : AdvisoryLock} (hown : PosterLock own)
    (hother : PosterLock other) (hashtext : LockKey → BitVec 32) :
    (AdvisoryLock.hashed hashtext own).Conflicts (AdvisoryLock.hashed hashtext other)
      ↔ ∃ key, oneArgument (AdvisoryLock.hashed hashtext own) = some key
          ∧ oneArgument (AdvisoryLock.hashed hashtext other) = some key := by
  cases hown <;> cases hother <;>
    simp [LockRequest.Conflicts, AdvisoryLock.hashed, oneArgument, LockKey.tag, lockShared,
      lockExclusive, eq_comm]

/-- Batches cross exactly when the sequences of their hashes are interlocked. -/
theorem exists_crossing_hashed_iff {τ : Type} (hashtext : LockKey → BitVec 32)
    {locks : τ → List AdvisoryLock} (hlocks : ∀ t, ∀ request ∈ locks t, PosterLock request) :
    (∃ group cut, Crossing (fun t => hashedLocks hashtext (locks t)) group cut)
      ↔ ∃ group cut, Interlocked (fun t => oneArgumentHashes hashtext (locks t)) group cut := by
  have hconflicts : ∀ t u, ∀ own ∈ hashedLocks hashtext (locks t),
      ∀ other ∈ hashedLocks hashtext (locks u),
      own.Conflicts other ↔ ∃ key, oneArgument own = some key ∧ oneArgument other = some key := by
    intro t u own hown other hother
    obtain ⟨request, hrequest, rfl⟩ := List.mem_map.mp hown
    obtain ⟨request', hrequest', rfl⟩ := List.mem_map.mp hother
    exact (hlocks t request hrequest).conflicts_iff (hlocks u request' hrequest') hashtext
  refine exists_congr (fun group => ?_)
  rw [LockTable.exists_crossing_iff hconflicts]
  simp only [filterMap_oneArgument]

/-- **Collisions cost only waiting exactly when no batches are interlocked**: for every hash, and
any concurrent batches with the locks of their runs, a cycle of batches that each wait for a lock
the next one holds is reachable only if the hashes of finitely many of them, each in the order of
its requests, begin disjointly and go on with a hash another one began with. -/
theorem hash_collisions_acyclic_iff {τ : Type} [DecidableEq τ] (hashtext : LockKey → BitVec 32)
    (display : JsonDisplay) (batches : τ → List PostingInput) (locks : τ → List AdvisoryLock)
    (hlocks : ∀ t, PostingRequests display (batches t) (locks t)) :
    (∀ table : LockTable τ LockTag,
        LockTable.Reachable (fun t => hashedLocks hashtext (locks t)) table →
        ∀ t, ¬ Relation.TransGen
          (table.WaitsForHolder (fun t => hashedLocks hashtext (locks t))) t t)
      ↔ ¬ ∃ group cut, Interlocked (fun t => oneArgumentHashes hashtext (locks t)) group cut := by
  rw [← exists_crossing_hashed_iff hashtext (fun t => (hlocks t).posterLock),
    ← LockTable.cycle_iff_crossing]
  simp only [not_exists, not_and]

/-! ## One collision -/

/-- A batch that locks the first account and then the second, beside one that locks the second and
then the fourth. -/
def collidingBatch (first : Bool) : List PostingInput :=
  [⟨⟨if first then 1 else 2⟩, if first then "beside the set" else "below the set", []⟩]

/-- The fourth account's keys collide with the first one's. -/
def collidingHash : LockKey → BitVec 32
  | .fence accountId => BitVec.ofNat 32 accountId.uuid
  | .member accountId => BitVec.ofNat 32 accountId.uuid
  | .graph => 0
  | .balance key => if key.accountId.uuid = 4 then 1 else BitVec.ofNat 32 key.accountId.uuid
  | .velocity key => BitVec.ofNat 32 key.accountId.uuid

noncomputable def collidingLocks (first : Bool) : List AdvisoryLock :=
  (PostingSession.runAlone default 0 ⟨crossingDb, [], []⟩ (Postings.postAllInOp ∅
    (fun _ => SetGraphCache.cold) sampleDisplay sampleIds (collidingBatch first))).2.2.locks

theorem requests_colliding (first : Bool) :
    PostingRequests sampleDisplay (collidingBatch first) (collidingLocks first) :=
  ⟨fun _ _ => True, _, _, _, _, _, _, _, PostingSession.run_runAlone _ default 0 _ _, rfl⟩

theorem collidingHashes_true :
    oneArgumentHashes collidingHash (collidingLocks true) = [1, 2, 3] := by
  decide +kernel

theorem collidingHashes_false :
    oneArgumentHashes collidingHash (collidingLocks false) = [2, 1, 3] := by
  decide +kernel

theorem hash_collisions_acyclic_iff_sample :
    (∀ first, PostingRequests sampleDisplay (collidingBatch first) (collidingLocks first))
      ∧ ((∀ table : LockTable Bool LockTag,
          LockTable.Reachable (fun t => hashedLocks collidingHash (collidingLocks t)) table →
          ∀ t, ¬ Relation.TransGen
            (table.WaitsForHolder (fun t => hashedLocks collidingHash (collidingLocks t))) t t)
        ↔ ¬ ∃ group cut,
          Interlocked (fun t => oneArgumentHashes collidingHash (collidingLocks t)) group cut) :=
  ⟨requests_colliding, hash_collisions_acyclic_iff collidingHash sampleDisplay collidingBatch
    collidingLocks requests_colliding⟩

/-- Each batch holds its first balance and waits for the other's, one of them by the collision. -/
theorem hash_collision_deadlocks :
    ∃ (display : JsonDisplay) (locks : Bool → List AdvisoryLock),
      (∀ first, PostingRequests display (collidingBatch first) (locks first))
      ∧ ∃ table : LockTable Bool LockTag,
          LockTable.Reachable (fun t => hashedLocks collidingHash (locks t)) table
          ∧ ∃ t, Relation.TransGen
            (table.WaitsForHolder (fun t => hashedLocks collidingHash (locks t))) t t := by
  have hinterlocked : Interlocked (fun t => oneArgumentHashes collidingHash (collidingLocks t))
      {true, false} (fun _ => 1) := by
    refine ⟨⟨true, by decide⟩, ?_, ?_⟩
    · rintro (_ | _) (_ | _) - - hne
      · exact absurd rfl hne
      · rw [collidingHashes_true, collidingHashes_false]
        exact List.disjoint_singleton.mpr (by decide)
      · rw [collidingHashes_true, collidingHashes_false]
        exact List.disjoint_singleton.mpr (by decide)
      · exact absurd rfl hne
    · rintro (_ | _) -
      · rw [collidingHashes_false]
        refine ⟨1, rfl, true, by decide, by decide, ?_⟩
        rw [collidingHashes_true]
        decide
      · rw [collidingHashes_true]
        refine ⟨2, rfl, false, by decide, by decide, ?_⟩
        rw [collidingHashes_false]
        decide
  have hcrossing := (exists_crossing_hashed_iff collidingHash
    (fun t => (requests_colliding t).posterLock)).mpr ⟨_, _, hinterlocked⟩
  exact ⟨sampleDisplay, collidingLocks, requests_colliding,
    LockTable.cycle_iff_crossing.mpr hcrossing⟩

end CalaLedger
