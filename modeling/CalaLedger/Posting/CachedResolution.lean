import CalaLedger.AccountSet.CachedAncestors
import CalaLedger.Posting.Service

/-! # Cached resolution under any schedule

A process refreshes its set graph from committed rows whenever it likes, and other operations commit
edges, memberships and sets at any time. A posting probes the memberships of its entry accounts and
the epoch at one instant, loads the snapshot at a later one, and reads an overlay or walks at a third.
What `resolve_from_probe_in_op` returns, and what it locks, is what the walk gives at one of these
instants, as long as no set the snapshot does not know gains or loses a parent meanwhile
(`cached_resolution_exact`); otherwise two states of the graph may be mixed
(`cached_resolution_mixes`). -/

namespace CalaLedger

open Foundations (Dialogue Server)
open SetGraphCache (Agrees Probes)

/-! ## Schedules -/

/-- What commits keep: accounts keep their flags and sets their journals; the edges between sets
change with the epoch only, and the epoch only grows. -/
structure LedgerDirectory.Evolves (directory directory' : LedgerDirectory) : Prop where
  accounts : ∀ accountId row, directory.accounts accountId = some row →
    ∃ row', directory'.accounts accountId = some row'
      ∧ row'.eventuallyConsistent = row.eventuallyConsistent
  sets : ∀ setId journalId, directory.memberships.accountSets setId = some journalId →
    directory'.memberships.accountSets setId = some journalId
  epoch : directory.memberships.epoch ≤ directory'.memberships.epoch
  edges : directory'.memberships.epoch = directory.memberships.epoch →
    directory'.memberships.memberAccountSets = directory.memberships.memberAccountSets

namespace LedgerDirectory.Evolves

variable {directory directory' directory'' : LedgerDirectory}

theorem refl (directory : LedgerDirectory) : directory.Evolves directory :=
  ⟨fun _ row hrow => ⟨row, hrow, rfl⟩, fun _ _ hset => hset, le_rfl, fun _ => rfl⟩

theorem trans (h : directory.Evolves directory') (h' : directory'.Evolves directory'') :
    directory.Evolves directory'' where
  accounts := fun accountId row hrow => by
    obtain ⟨row', hrow', hmode⟩ := h.accounts accountId row hrow
    obtain ⟨row'', hrow'', hmode'⟩ := h'.accounts accountId row' hrow'
    exact ⟨row'', hrow'', hmode'.trans hmode⟩
  sets := fun setId journalId hset => h'.sets setId journalId (h.sets setId journalId hset)
  epoch := h.epoch.trans h'.epoch
  edges := fun hepoch => by
    -- the epoch has not moved in between either
    have hmid : directory'.memberships.epoch = directory.memberships.epoch :=
      le_antisymm (h'.epoch.trans hepoch.le) h.epoch
    rw [h'.edges (hepoch.trans hmid.symm), h.edges hmid]

theorem setMeta (h : directory.Evolves directory') {setId : AccountSetId} {found : SetMeta}
    (hfound : directory.setMeta setId = some found) : directory'.setMeta setId = some found := by
  obtain ⟨journalId, hjournal, hrow⟩ := Option.bind_eq_some_iff.mp hfound
  obtain ⟨row, hstored, rfl⟩ := Option.map_eq_some_iff.mp hrow
  obtain ⟨row', hrow', hmode⟩ := h.accounts _ row hstored
  rw [LedgerDirectory.setMeta, h.sets setId journalId hjournal, Option.bind_some, hrow',
    Option.map_some, hmode]

end LedgerDirectory.Evolves

/-- The committed rows, instant by instant. -/
structure Timeline where
  directory : ℕ → LedgerDirectory
  linked : ∀ instant, (directory instant).Linked
  evolves : ∀ instant, (directory instant).Evolves (directory (instant + 1))

namespace Timeline

variable (timeline : Timeline)

def epoch (instant : ℕ) : ℤ := (timeline.directory instant).memberships.epoch

theorem evolves_le {first last : ℕ} (h : first ≤ last) :
    (timeline.directory first).Evolves (timeline.directory last) := by
  induction last, h using Nat.le_induction with
  | base => exact LedgerDirectory.Evolves.refl _
  | succ instant _ ih => exact ih.trans (timeline.evolves instant)

/-- Instants of one epoch have the same edges. -/
theorem edges_eq {first last : ℕ} (h : timeline.epoch first = timeline.epoch last) :
    (timeline.directory first).memberships.memberAccountSets
      = (timeline.directory last).memberships.memberAccountSets := by
  rcases le_total first last with hle | hle
  · exact ((timeline.evolves_le hle).edges h.symm).symm
  · exact (timeline.evolves_le hle).edges h

/-- `SetGraphCache::refresh`, from the rows of one instant. -/
def fetched (instant : ℕ) (setIds : List AccountSetId) : GraphSnapshot :=
  { toIndexedNodes :=
      SetGraphCache.indexNodes ((timeline.directory instant).setGraphNodes setIds)
    epoch := timeline.epoch instant }

/-- The snapshots a process may hold: what it has fetched replaces a snapshot that is not of a later
epoch. -/
inductive Cached : ℕ → GraphSnapshot → Prop
  | cold (instant : ℕ) : Cached instant SetGraphCache.cold
  | wait {instant later : ℕ} {snapshot : GraphSnapshot} :
      Cached instant snapshot → instant ≤ later → Cached later snapshot
  | refresh {instant read : ℕ} {snapshot : GraphSnapshot} (setIds : List AccountSetId) :
      Cached instant snapshot → read ≤ instant →
      (∀ setId, setId ∈ setIds
        ↔ ((timeline.directory read).memberships.accountSets setId).isSome) →
      snapshot.epoch ≤ timeline.epoch read → Cached instant (timeline.fetched read setIds)

/-- A snapshot that is not cold was fetched. -/
theorem Cached.fetched {timeline : Timeline} {instant : ℕ} {snapshot : GraphSnapshot}
    (h : timeline.Cached instant snapshot) :
    snapshot = SetGraphCache.cold ∨ ∃ read setIds, snapshot = timeline.fetched read setIds
      ∧ ∀ setId, setId ∈ setIds
          ↔ ((timeline.directory read).memberships.accountSets setId).isSome := by
  induction h with
  | cold => exact Or.inl rfl
  | wait _ _ ih => exact ih
  | @refresh _ read _ setIds _ _ hsets _ _ => exact Or.inr ⟨read, setIds, rfl, hsets⟩

/-- What was read at one instant holds the sets of another, where they have the same parents. -/
theorem holds_of_parents {first last : ℕ} (setIds : List AccountSetId)
    (hparents : ∀ setId ∈ setIds, ∀ parentId,
      parentId ∈ (timeline.directory last).memberships.parents setId
        ↔ parentId ∈ (timeline.directory first).memberships.parents setId) :
    (SetGraphCache.indexNodes ((timeline.directory last).setGraphNodes setIds)).Holds
      (timeline.directory first) := by
  have hread := SetGraphCache.holds_indexNodes (timeline.directory last) setIds
  constructor
  · intro setId found hfound stored hstored
    -- a set that both have is the same in both
    rcases le_total first last with hle | hle
    · exact hread.sets setId found hfound stored ((timeline.evolves_le hle).setMeta hstored)
    · have hlater := SetGraphCache.setMeta_of_lookup_indexNodes hfound
      have hsame := (timeline.evolves_le hle).setMeta hlater
      rw [hstored] at hsame
      exact Option.some.inj hsame
  · exact hread.keys
  · intro setId parentId
    rw [hread.parents setId parentId]
    refine and_congr_right (fun hknown => hparents setId ?_ parentId)
    obtain ⟨node, hnode, rfl⟩ := SetGraphCache.exists_of_lookup_indexNodes hknown
    exact (SetGraphCache.mem_setGraphNodes.mp hnode).1

/-- **A snapshot of the right epoch holds the graph**, whenever it was fetched. -/
theorem Cached.holds {timeline : Timeline} {instant probe : ℕ} {snapshot : GraphSnapshot}
    (h : timeline.Cached instant snapshot) (hepoch : snapshot.epoch = timeline.epoch probe) :
    snapshot.Holds (timeline.directory probe) := by
  rcases h.fetched with rfl | ⟨read, setIds, rfl, -⟩
  · exact SetGraphCache.holds_cold _
  · refine timeline.holds_of_parents setIds (fun setId _ parentId => ?_)
    unfold MembershipTables.parents
    rw [timeline.edges_eq hepoch]

/-! ## Resolving -/

/-- The statements of a resolution see the committed rows of an instant; the locks they request are
kept. Other operations commit, and a process may be refreshed, at any time. -/
def server : Server PostingStatement PostingStatement.Answer (ℕ × List AdvisoryLock) where
  others := fun world world' => world.1 ≤ world'.1 ∧ world'.2 = world.2
  executes := fun world statement answer world' => ∃ order now db,
    db.toLedgerDirectory = timeline.directory world.1
      ∧ answer = statement.answer order now db
      ∧ world' = (world.1, world.2 ++ statement.lockRequests db)

/-- Some mappings and locks are those of the walk in a directory. -/
structure Walked (directory : LedgerDirectory) (journalId : JournalId)
    (entryPairs : List (AccountId × Currency)) (mappings : AccountSetMappings)
    (locks : List AdvisoryLock) : Prop where
  mappings : ∀ pair ∈ entryPairs,
    (mappings pair.1).Perm (directory.memberships.walkMappings journalId pair.1)
  locks : ∀ db : LedgerDb, db.toLedgerDirectory = directory →
    locks = (PostingStatement.walkLockPairs db journalId entryPairs).map
      (PostingStatement.ancestorLock journalId)

/-- Some sets keep their parents through some instants. -/
def Undisturbed (first last : ℕ) (setIds : List AccountSetId) : Prop :=
  ∀ instant, first ≤ instant → instant ≤ last → ∀ setId ∈ setIds, ∀ parentId,
    parentId ∈ (timeline.directory instant).memberships.parents setId
      ↔ parentId ∈ (timeline.directory first).memberships.parents setId

variable {timeline} {probe : ℕ} {snapshot : GraphSnapshot} {seeds : List AccountMembership}
  {journalId : JournalId} {entryPairs : List (AccountId × Currency)}

theorem walkLockPairs_congr {db db' : LedgerDb} (h : db.toLedgerDirectory = db'.toLedgerDirectory) :
    PostingStatement.walkLockPairs db = PostingStatement.walkLockPairs db' := by
  funext journalId entryPairs
  rw [PostingStatement.walkLockPairs, PostingStatement.walkLockPairs, h]

/-- The walk. -/
theorem walked_walk (order : RowOrder) (now : Timestamp) (db : LedgerDb) (journalId : JournalId)
    (entryPairs : List (AccountId × Currency)) :
    Walked db.toLedgerDirectory journalId entryPairs
      (PostingStatement.answer order now db (.walkMappingsAndLock journalId entryPairs))
      (PostingStatement.lockRequests db (.walkMappingsAndLock journalId entryPairs)) where
  mappings := fun pair hpair => by
    show (if _ then _ else _ : List AccountSetId).Perm _
    rw [if_pos ⟨pair, hpair, rfl⟩]
    exact order.walk_perm _ _
  locks := fun db' hdb => by
    rw [walkLockPairs_congr hdb]
    rfl

/-- Without memberships there is nothing to find and nothing to lock. -/
theorem walked_nothing {directory : LedgerDirectory}
    (hseeds : ∀ pair ∈ entryPairs, Probes directory.memberships [] pair.1) :
    Walked directory journalId entryPairs (fun _ => []) [] := by
  have hnothing : ∀ pair ∈ entryPairs,
      directory.memberships.walkMappings journalId pair.1 = [] := by
    intro pair hpair
    refine List.filter_eq_nil_iff.mpr (fun setId hmem => ?_)
    obtain ⟨direct, hdirect, -⟩ := MembershipTables.mem_ancestors.mp hmem
    exact (List.not_mem_nil ((hseeds pair hpair direct).mpr hdirect)).elim
  constructor
  · intro pair hpair
    rw [hnothing pair hpair]
  · rintro db rfl
    have hpairs : PostingStatement.walkLockPairs db journalId entryPairs = [] := by
      rw [PostingStatement.walkLockPairs, List.flatMap_eq_nil_iff.mpr (fun pair hpair => by
        rw [hnothing pair hpair]
        rfl)]
      rfl
    rw [hpairs]
    rfl

/-- Nothing is locked yet, and the probe has been made. -/
def Probed (probe : ℕ) (world : ℕ × List AdvisoryLock) : Prop :=
  probe ≤ world.1 ∧ world.2 = []

theorem stable_probed : timeline.server.Stable (Probed probe) :=
  fun _ _ hothers h => ⟨h.1.trans hothers.1, hothers.2.trans h.2⟩

variable (timeline) in
/-- What is returned and locked is what the walk gives at an instant since the probe. -/
def Resolved (probe : ℕ) (setIds : List AccountSetId) (journalId : JournalId)
    (entryPairs : List (AccountId × Currency)) (mappings : AccountSetMappings)
    (world : ℕ × List AdvisoryLock) : Prop :=
  timeline.Undisturbed probe world.1 setIds → ∃ instant, probe ≤ instant ∧ instant ≤ world.1
    ∧ Walked (timeline.directory instant) journalId entryPairs mappings world.2

theorem Undisturbed.earlier {first last earlier : ℕ} {setIds : List AccountSetId}
    (h : timeline.Undisturbed first last setIds) (hle : earlier ≤ last) :
    timeline.Undisturbed first earlier setIds :=
  fun instant hfirst hlast => h instant hfirst (hlast.trans hle)

theorem stable_resolved {setIds : List AccountSetId} (mappings : AccountSetMappings) :
    timeline.server.Stable (timeline.Resolved probe setIds journalId entryPairs mappings) := by
  rintro world world' ⟨hle, hlocks⟩ h hundisturbed
  obtain ⟨instant, hprobe, hinstant, hwalked⟩ := h (hundisturbed.earlier hle)
  exact ⟨instant, hprobe, hinstant.trans hle, hlocks ▸ hwalked⟩

/-- The walk is a resolution, at its own instant. -/
theorem triple_walk (setIds : List AccountSetId) :
    timeline.server.Triple (Probed probe)
      (Postings.issue (.walkMappingsAndLock journalId entryPairs))
      (timeline.Resolved probe setIds journalId entryPairs) (fun _ => True) := by
  refine Server.Triple.ask stable_probed stable_resolved (fun _ _ => trivial) ?_
  rintro world answer _ ⟨order, now, db, hdb, rfl, rfl⟩ ⟨hprobe, hlocks⟩ _
  refine ⟨world.1, hprobe, le_rfl, ?_⟩
  rw [hlocks, List.nil_append, ← hdb]
  exact walked_walk order now db journalId entryPairs

/-- The overlay is read, and nothing locked. -/
def Overlaid (timeline : Timeline) (probe : ℕ) (setIds : List AccountSetId)
    (overlay : Option IndexedNodes) (world : ℕ × List AdvisoryLock) : Prop :=
  Probed probe world ∧ (timeline.Undisturbed probe world.1 setIds →
    ∀ nodes ∈ overlay, nodes.Holds (timeline.directory probe))

theorem stable_overlaid {setIds : List AccountSetId} (overlay : Option IndexedNodes) :
    timeline.server.Stable (Overlaid timeline probe setIds overlay) :=
  fun _ _ hothers h => ⟨stable_probed hothers h.1,
    fun hundisturbed => h.2 (hundisturbed.earlier hothers.1)⟩

theorem triple_fetchOverlay (missing : List AccountSetId) :
    timeline.server.Triple (Probed probe) (Postings.fetchOverlay missing)
      (Overlaid timeline probe missing) (fun _ => True) := by
  unfold Postings.fetchOverlay
  split
  · exact Server.Triple.ok stable_probed none (fun _ h => ⟨h, fun _ _ hmem => by cases hmem⟩)
  · have hread : timeline.server.Triple (Probed probe) (Postings.issue (.fetchSetGraphNodes missing))
        (fun nodes => Overlaid timeline probe missing (some (SetGraphCache.indexNodes nodes)))
        (fun _ => True) := by
      refine Server.Triple.ask stable_probed (fun _ => stable_overlaid _) (fun _ _ => trivial) ?_
      rintro world answer _ ⟨order, now, db, hdb, rfl, rfl⟩ ⟨hprobe, hlocks⟩
      refine ⟨⟨hprobe, ?_⟩, ?_⟩
      · rw [hlocks]
        rfl
      · rintro hundisturbed nodes ⟨⟩
        show (SetGraphCache.indexNodes (db.toLedgerDirectory.setGraphNodes missing)).Holds _
        rw [hdb]
        exact timeline.holds_of_parents missing
          (hundisturbed world.1 hprobe le_rfl)
    exact hread.bind (fun nodes => Server.Triple.ok (stable_overlaid _) _ (fun _ h => h))

/-- **Expanding the cached graph** is a resolution, at the instant of the probe. -/
theorem triple_expanded (hholds : snapshot.Holds (timeline.directory probe))
    (hseeds : ∀ pair ∈ entryPairs, Probes (timeline.directory probe).memberships seeds pair.1)
    {missing : List AccountSetId} {overlay : Option IndexedNodes} {mappings : AccountSetMappings}
    {lockPairs : List (AccountSetId × Currency)}
    (hexpand : SetGraphCache.expand snapshot overlay journalId seeds entryPairs
      = some (mappings, lockPairs)) :
    timeline.server.Triple (Overlaid timeline probe missing overlay)
      (Postings.lockResolvedAncestorsInOp journalId lockPairs)
      (fun _ => timeline.Resolved probe missing journalId entryPairs mappings) (fun _ => True) := by
  have hresolved : ∀ {world : ℕ × List AdvisoryLock}, Overlaid timeline probe missing overlay world →
      timeline.Resolved probe missing journalId entryPairs mappings
        (world.1, lockPairs.map (PostingStatement.ancestorLock journalId)) := by
    rintro world ⟨⟨hprobe, -⟩, hoverlay⟩ hundisturbed
    refine ⟨probe, le_rfl, hprobe, ?_, ?_⟩
    all_goals
      have hagrees : Agrees snapshot overlay (timeline.directory probe) :=
        ⟨hholds, hoverlay hundisturbed⟩
    · intro pair hpair
      have hwalk := @Agrees.expand_eq_walk _ _ _ _
        (LedgerDb.fresh (timeline.directory probe) (fun _ => none) (fun _ => none))
        hagrees (timeline.linked probe) _ _ _ hexpand
      exact hwalk.1 pair.1 (hseeds pair hpair)
    · intro db hdb
      rw [← hdb] at hagrees hseeds
      have hlinked := timeline.linked probe
      rw [← hdb] at hlinked
      rw [(hagrees.expand_eq_walk hlinked hexpand).2 hseeds]
  unfold Postings.lockResolvedAncestorsInOp
  split
  · rename_i hnone
    refine Server.Triple.ok (stable_overlaid overlay) () (fun world h => ?_)
    have hworld := hresolved h
    rw [hnone, List.map_nil, ← h.1.2] at hworld
    exact hworld
  · refine Server.Triple.ask (stable_overlaid overlay) (fun _ => stable_resolved _)
      (fun _ _ => trivial) ?_
    rintro world answer _ ⟨order, now, db, -, rfl, rfl⟩ h
    rw [h.1.2, List.nil_append]
    exact hresolved h

theorem triple_resolveFromProbeInOp {load : ℕ} (hcached : timeline.Cached load snapshot)
    (hseeds : ∀ pair ∈ entryPairs, Probes (timeline.directory probe).memberships seeds pair.1) :
    timeline.server.Triple (Probed probe)
      (Postings.resolveFromProbeInOp snapshot journalId (timeline.epoch probe) seeds entryPairs)
      (timeline.Resolved probe (SetGraphCache.missing snapshot seeds) journalId entryPairs)
      (fun _ => True) := by
  unfold Postings.resolveFromProbeInOp
  split
  · rename_i hnone
    rw [hnone] at hseeds
    refine Server.Triple.ok stable_probed _ (fun world h _ => ⟨probe, le_rfl, h.1, ?_⟩)
    rw [h.2]
    exact walked_nothing hseeds
  · split
    · exact triple_walk _
    · rename_i hepoch
      have hholds := hcached.holds (not_not.mp hepoch)
      refine (triple_fetchOverlay _).bind (fun overlay => ?_)
      cases hexpand : SetGraphCache.expand snapshot overlay journalId seeds entryPairs with
      | none => exact (triple_walk _).weaken (fun _ h => h.1) (fun _ _ h => h) (fun _ h => h)
      | some found =>
          obtain ⟨mappings, lockPairs⟩ := found
          exact (triple_expanded hholds hseeds hexpand).bind
            (fun _ => Server.Triple.ok (stable_resolved mappings) mappings (fun _ h => h))

end Timeline

/-- **A cached resolution is a walk.** -/
theorem cached_resolution_exact (timeline : Timeline) {probe load : ℕ} (hload : probe ≤ load)
    {snapshot : GraphSnapshot} (hcached : timeline.Cached load snapshot) (journalId : JournalId)
    {seeds : List AccountMembership} {entryPairs : List (AccountId × Currency)}
    (hseeds : ∀ pair ∈ entryPairs, Probes (timeline.directory probe).memberships seeds pair.1)
    {issued : List PostingStatement} {mappings : AccountSetMappings} {last : ℕ}
    {locks : List AdvisoryLock}
    (hrun : timeline.server.Run (load, [])
      (Postings.resolveFromProbeInOp snapshot journalId (timeline.epoch probe) seeds entryPairs)
      issued (.returned (.ok mappings)) (last, locks))
    (hundisturbed : timeline.Undisturbed probe last (SetGraphCache.missing snapshot seeds)) :
    ∃ instant, probe ≤ instant ∧ instant ≤ last
      ∧ Timeline.Walked (timeline.directory instant) journalId entryPairs mappings locks :=
  Timeline.triple_resolveFromProbeInOp hcached hseeds hrun ⟨hload, rfl⟩ hundisturbed

/-! ## A set attached late -/

/-- Some sets, the account of an entry, its memberships and the edges between the sets. -/
def setGraphDirectory (setIds : List ℕ) (members : List AccountMembership)
    (edges : List SetMembership) (epoch : ℤ) : LedgerDirectory :=
  { accounts := fun accountId =>
      if accountId.uuid ∈ 9 :: setIds then
        some
          { normalBalanceType := .debit
            eventuallyConsistent := false
            isAccountSet := accountId.uuid ≠ 9
            velocityContextValues := ⟨accountId, "account", .debit, none, none⟩
            status := .active }
      else none
    journals := fun _ => none
    memberships :=
      { accountSets := fun setId => if setId.uuid ∈ setIds then some ⟨1⟩ else none
        memberAccounts := members
        memberAccountSets := edges
        epoch := epoch } }

theorem linked_setGraphDirectory {setIds : List ℕ} {members : List AccountMembership}
    {edges : List SetMembership} (hleaf : 9 ∉ setIds)
    (hmembers : ∀ row ∈ members, row.accountSetId.uuid ∈ setIds)
    (hedges : ∀ edge ∈ edges,
      edge.accountSetId.uuid ∈ setIds ∧ edge.memberAccountSetId.uuid ∈ setIds) (epoch : ℤ) :
    (setGraphDirectory setIds members edges epoch).Linked where
  backed := by
    intro setId journalId hset
    have hset : (if setId.uuid ∈ setIds then some (⟨1⟩ : JournalId) else none) = some journalId :=
      hset
    split at hset
    · rename_i hmem
      refine ⟨_, if_pos (List.mem_cons_of_mem _ hmem), decide_eq_true (fun hsame => hleaf ?_)⟩
      exact hsame ▸ hmem
    · cases hset
  edges := fun edge hedge => by
    obtain ⟨hcontainer, hmember⟩ := hedges edge hedge
    show (if _ then _ else _ : Option JournalId).isSome
      ∧ (if _ then _ else _ : Option JournalId).isSome
    rw [if_pos hcontainer, if_pos hmember]
    exact ⟨rfl, rfl⟩
  members := fun row hrow => by
    show (if _ then _ else _ : Option JournalId).isSome
    rw [if_pos (hmembers row hrow)]
    rfl

theorem evolves_setGraphDirectory {setIds setIds' : List ℕ}
    {members members' : List AccountMembership} {edges edges' : List SetMembership}
    {epoch epoch' : ℤ} (hsets : setIds ⊆ setIds') (hepoch : epoch ≤ epoch')
    (hedges : epoch' = epoch → edges' = edges) :
    (setGraphDirectory setIds members edges epoch).Evolves
      (setGraphDirectory setIds' members' edges' epoch') where
  accounts := fun accountId row hrow => by
    have hrow : (if accountId.uuid ∈ 9 :: setIds then _ else none) = some row := hrow
    split at hrow
    · rename_i hmem
      obtain rfl := Option.some.inj hrow
      exact ⟨_, if_pos (List.cons_subset_cons 9 hsets hmem), rfl⟩
    · cases hrow
  sets := fun setId journalId hset => by
    have hset : (if setId.uuid ∈ setIds then some (⟨1⟩ : JournalId) else none) = some journalId :=
      hset
    split at hset
    · rename_i hmem
      rw [← hset]
      exact if_pos (hsets hmem)
    · cases hset
  epoch := hepoch
  edges := hedges

/-- Set 3 is created with its member, set 1 is attached to set 2, and then set 3 to set 1. -/
def lateAttach : Timeline where
  directory := fun instant =>
    match instant with
    | 0 => setGraphDirectory [1, 2] [] [] 0
    | 1 => setGraphDirectory [1, 2, 3] [⟨⟨3⟩, ⟨9⟩⟩] [] 0
    | 2 => setGraphDirectory [1, 2, 3] [⟨⟨3⟩, ⟨9⟩⟩] [⟨⟨2⟩, ⟨1⟩⟩] 1
    | _ => setGraphDirectory [1, 2, 3] [⟨⟨3⟩, ⟨9⟩⟩] [⟨⟨2⟩, ⟨1⟩⟩, ⟨⟨1⟩, ⟨3⟩⟩] 2
  linked := fun instant => by
    match instant with
    | 0 => exact linked_setGraphDirectory (by decide) (by decide) (by decide) _
    | 1 => exact linked_setGraphDirectory (by decide) (by decide) (by decide) _
    | 2 => exact linked_setGraphDirectory (by decide) (by decide) (by decide) _
    | _ + 3 => exact linked_setGraphDirectory (by decide) (by decide) (by decide) _
  evolves := fun instant => by
    match instant with
    | 0 => exact evolves_setGraphDirectory (by decide) (by decide) (by decide)
    | 1 => exact evolves_setGraphDirectory (by decide) (by decide) (by decide)
    | 2 => exact evolves_setGraphDirectory (by decide) (by decide) (by decide)
    | _ + 3 => exact evolves_setGraphDirectory (by decide) (by decide) (by decide)

/-- What a process knows that has refreshed before set 3 was created. -/
def lateSnapshot : GraphSnapshot := lateAttach.fetched 0 [⟨1⟩, ⟨2⟩]

theorem cached_lateSnapshot (instant : ℕ) : lateAttach.Cached instant lateSnapshot := by
  refine Timeline.Cached.refresh [⟨1⟩, ⟨2⟩] (Timeline.Cached.cold instant) (Nat.zero_le _) ?_ ?_
  · intro setId
    show _ ↔ (if setId.uuid ∈ [1, 2] then some (⟨1⟩ : JournalId) else none).isSome
    obtain ⟨uuid⟩ := setId
    simp
  · decide

/-- The membership of the entry account, as it is probed at instant 1. -/
def lateSeeds : List AccountMembership := [⟨⟨3⟩, ⟨9⟩⟩]

theorem probes_lateSeeds :
    ∀ pair ∈ [((⟨9⟩ : AccountId), (⟨"USD"⟩ : Currency))],
      Probes (lateAttach.directory 1).memberships lateSeeds pair.1 :=
  fun _ _ _ => Iff.rfl

/-- What is read of set 3 at some instant. -/
def lateOverlay (instant : ℕ) : IndexedNodes :=
  SetGraphCache.indexNodes ((lateAttach.directory instant).setGraphNodes [⟨3⟩])

/-- The resolution, with its overlay read at some instant. -/
theorem run_lateOverlay {instant : ℕ} (hinstant : 1 ≤ instant) {sets : List AccountSetId}
    (hvisit : SetGraphCache.visit lateSnapshot (some (lateOverlay instant)) [] [⟨3⟩] = some sets) :
    ∃ (mappings : AccountSetMappings) (issued : List PostingStatement) (locks : List AdvisoryLock),
      mappings ⟨9⟩ = sets.filter (fun setId =>
          (SetGraphCache.metaOf lateSnapshot (some (lateOverlay instant)) setId).any
            (·.journalId = ⟨1⟩))
        ∧ lateAttach.server.Run (1, [])
          (Postings.resolveFromProbeInOp lateSnapshot ⟨1⟩ (lateAttach.epoch 1) lateSeeds
            [(⟨9⟩, ⟨"USD"⟩)])
          issued (.returned (.ok mappings)) (instant, locks) := by
  have hseed : SetGraphCache.seedSets lateSeeds ⟨9⟩ = [⟨3⟩] := by decide
  obtain ⟨found, hexpand⟩ : ∃ found, SetGraphCache.expand lateSnapshot (some (lateOverlay instant))
      ⟨1⟩ lateSeeds [(⟨9⟩, ⟨"USD"⟩)] = some found := by
    refine ⟨_, if_pos (List.all_eq_true.mpr (fun seed hseeds => ?_))⟩
    rw [List.mem_singleton.mp hseeds, hseed, hvisit]
    rfl
  obtain ⟨mappings, lockPairs⟩ := found
  have hmappings : mappings = SetGraphCache.ancestorsIn lateSnapshot (some (lateOverlay instant)) ⟨1⟩
      lateSeeds := by
    rw [SetGraphCache.expand] at hexpand
    split at hexpand
    · exact (congrArg Prod.fst (Option.some.inj hexpand)).symm
    · cases hexpand
  have hlock : ∃ issued locks, lateAttach.server.Run (instant, [])
      ((Postings.lockResolvedAncestorsInOp ⟨1⟩ lockPairs).bind (fun _ => .done (.ok mappings)))
      issued (.returned (.ok mappings)) (instant, locks) := by
    unfold Postings.lockResolvedAncestorsInOp
    split
    · exact ⟨[], [], Server.Run.done _ _⟩
    · exact ⟨_, _, Server.Run.issue ⟨default, 0, LedgerDb.fresh (lateAttach.directory instant)
        (fun _ => none) (fun _ => none), rfl, rfl, rfl⟩ (Server.Run.done _ _)⟩
  obtain ⟨issued, locks, hlock⟩ := hlock
  refine ⟨mappings, .fetchSetGraphNodes [⟨3⟩] :: issued, locks, ?_, ?_⟩
  · rw [hmappings, SetGraphCache.ancestorsIn, hseed, hvisit]
    rfl
  · have hmissing : SetGraphCache.missing lateSnapshot lateSeeds = [⟨3⟩] := by decide
    unfold Postings.resolveFromProbeInOp
    rw [if_neg (by decide), if_neg (by decide), hmissing]
    have hwait : lateAttach.server.others (1, []) (instant, []) := ⟨hinstant, rfl⟩
    refine Server.Run.others hwait ?_
    have hread : lateAttach.server.executes (instant, []) (.fetchSetGraphNodes [⟨3⟩])
        ((lateAttach.directory instant).setGraphNodes [⟨3⟩]) (instant, []) :=
      ⟨default, 0, LedgerDb.fresh (lateAttach.directory instant) (fun _ => none) (fun _ => none),
        rfl, rfl, rfl⟩
    refine Server.Run.issue hread ?_
    -- what follows is the branch of what `expand` finds
    rw [lateOverlay] at hexpand
    simp only [bind, pure, Dialogue.bind, hexpand]
    exact hlock

/-- The set is found through the overlay. -/
theorem cached_resolution_exact_late : ∃ mappings locks, mappings ⟨9⟩ = [⟨3⟩]
    ∧ ∃ instant, 1 ≤ instant ∧ instant ≤ 1
      ∧ Timeline.Walked (lateAttach.directory instant) ⟨1⟩ [(⟨9⟩, ⟨"USD"⟩)] mappings locks := by
  have hvisit : SetGraphCache.visit lateSnapshot (some (lateOverlay 1)) [] [⟨3⟩] = some [⟨3⟩] := by
    have hparents : SetGraphCache.parentsOf lateSnapshot (some (lateOverlay 1)) ⟨3⟩ = [] := by
      decide +kernel
    rw [SetGraphCache.visit, if_neg (by decide), if_pos (by decide +kernel), hparents,
      List.nil_append, List.nil_append, SetGraphCache.visit]
  obtain ⟨mappings, issued, locks, hsets, hrun⟩ := run_lateOverlay le_rfl hvisit
  refine ⟨mappings, locks, hsets.trans (by decide +kernel), cached_resolution_exact lateAttach le_rfl
    (cached_lateSnapshot 1) ⟨1⟩ probes_lateSeeds hrun (fun instant hfirst hlast => ?_)⟩
  obtain rfl := le_antisymm hlast hfirst
  exact fun _ _ _ => Iff.rfl

/-- **Two states of the graph may be mixed**: the overlay is read after set 3 was attached to set 1,
and the snapshot is from before set 1 was attached to set 2. -/
theorem cached_resolution_mixes : ∃ (mappings : AccountSetMappings) (issued : List PostingStatement)
    (locks : List AdvisoryLock),
    lateAttach.server.Run (1, [])
        (Postings.resolveFromProbeInOp lateSnapshot ⟨1⟩ (lateAttach.epoch 1) lateSeeds
          [(⟨9⟩, ⟨"USD"⟩)])
        issued (.returned (.ok mappings)) (3, locks)
      ∧ ∀ instant, ¬ (mappings ⟨9⟩).Perm
          ((lateAttach.directory instant).memberships.walkMappings ⟨1⟩ ⟨9⟩) := by
  have hvisit : SetGraphCache.visit lateSnapshot (some (lateOverlay 3)) [] [⟨3⟩]
      = some [⟨3⟩, ⟨1⟩] := by
    have hfirst : SetGraphCache.parentsOf lateSnapshot (some (lateOverlay 3)) ⟨3⟩ = [⟨1⟩] := by
      decide +kernel
    have hsecond : SetGraphCache.parentsOf lateSnapshot (some (lateOverlay 3)) ⟨1⟩ = [] := by
      decide +kernel
    rw [SetGraphCache.visit, if_neg (by decide), if_pos (by decide +kernel), hfirst,
      List.nil_append, List.nil_append, SetGraphCache.visit, if_neg (by decide),
      if_pos (by decide +kernel), hsecond, List.nil_append, SetGraphCache.visit]
    rfl
  obtain ⟨mappings, issued, locks, hsets, hrun⟩ := run_lateOverlay (by decide) hvisit
  -- no walk finds two sets
  have hwalks : ∀ instant,
      ((lateAttach.directory instant).memberships.walkMappings ⟨1⟩ ⟨9⟩).length ≠ 2 := by
    intro instant
    match instant with
    | 0 => decide +kernel
    | 1 => decide +kernel
    | 2 => decide +kernel
    | _ + 3 =>
        show ((setGraphDirectory _ _ _ _).memberships.walkMappings _ _).length ≠ 2
        decide +kernel
  refine ⟨mappings, issued, locks, hrun, fun instant hperm => hwalks instant ?_⟩
  rw [← hperm.length_eq, hsets]
  decide +kernel

end CalaLedger
