import CalaLedger.Posting.Interleaving

/-! # What an operation knows of accounts and sets

Accounts keep their flags and sets their backing accounts, so what an operation has read of them
stays true, whatever is committed meanwhile (`Lasting`). A part of the flow `Learns` such facts: an
entry account backs no set, the ancestors of an entry account are distinct sets and the account of
each is marked as one, and the consistency of every target is as it was read. -/

namespace CalaLedger

open Foundations (Dialogue Server)
open Postings (PostedBatch)

/-! ## Lasting facts -/

/-- The account of a set is marked as one. -/
def LedgerDirectory.BacksSet (directory : LedgerDirectory) (setId : AccountSetId) : Prop :=
  ∃ row, directory.accounts (AccountId.ofSet setId) = some row ∧ row.isAccountSet = true

/-- So are the accounts of some sets. -/
def LedgerDirectory.BacksSets (sets : AccountSetId → Prop) (directory : LedgerDirectory) : Prop :=
  ∀ setId, sets setId → directory.BacksSet setId

/-- The accounts were read with the flags they have. -/
def LedgerDirectory.ReadAs (directory : LedgerDirectory)
    (accounts : AccountId → Option AccountMeta) : Prop :=
  ∀ accountId found, accounts accountId = some found →
    ∃ row, directory.accounts accountId = some row
      ∧ row.eventuallyConsistent = found.eventuallyConsistent
      ∧ row.isAccountSet = found.isAccountSet

/-- A fact that administration keeps. -/
def Lasting (fact : LedgerDirectory → Prop) : Prop :=
  ∀ ⦃directory directory'⦄, directory.KeepsModes directory' → fact directory → fact directory'

namespace Lasting

theorem and {fact fact' : LedgerDirectory → Prop} (h : Lasting fact) (h' : Lasting fact') :
    Lasting (fun directory => fact directory ∧ fact' directory) :=
  fun _ _ hkeeps hfacts => ⟨h hkeeps hfacts.1, h' hkeeps hfacts.2⟩

theorem all {ι : Sort*} {facts : ι → LedgerDirectory → Prop} (h : ∀ i, Lasting (facts i)) :
    Lasting (fun directory => ∀ i, facts i directory) :=
  fun _ _ hkeeps hfacts i => h i hkeeps (hfacts i)

theorem backsSet (setId : AccountSetId) : Lasting (fun directory => directory.BacksSet setId) := by
  rintro directory directory' hkeeps ⟨row, hrow, hset⟩
  obtain ⟨row', hrow', -, hset'⟩ := hkeeps.accounts _ row hrow
  exact ⟨row', hrow', hset'.trans hset⟩

theorem backsSets (sets : AccountSetId → Prop) : Lasting (LedgerDirectory.BacksSets sets) :=
  all (fun setId => all (fun _ => backsSet setId))

theorem readAs (accounts : AccountId → Option AccountMeta) :
    Lasting (fun directory => directory.ReadAs accounts) := by
  intro directory directory' hkeeps h accountId found hfound
  obtain ⟨row, hrow, hmode, hset⟩ := h accountId found hfound
  obtain ⟨row', hrow', hmode', hset'⟩ := hkeeps.accounts accountId row hrow
  exact ⟨row', hrow', hmode'.trans hmode, hset'.trans hset⟩

end Lasting

theorem LedgerDirectory.KeepsModes.refl {directory : LedgerDirectory} (h : directory.SetsBacked) :
    directory.KeepsModes directory :=
  ⟨fun _ row hrow => ⟨row, hrow, rfl, rfl⟩, h⟩

/-- The account of a set takes no entries. -/
theorem LedgerDirectory.Leaf.ne_ofSet {directory : LedgerDirectory} {accountId : AccountId}
    (h : directory.Leaf accountId) {setId : AccountSetId} (hset : directory.BacksSet setId) :
    AccountId.ofSet setId ≠ accountId := by
  rintro rfl
  obtain ⟨row, hrow, hleaf⟩ := h
  obtain ⟨row', hrow', hmarked⟩ := hset
  rw [hrow] at hrow'
  rw [Option.some.inj hrow', hmarked] at hleaf
  cases hleaf

/-- What a read of some accounts returns. -/
theorem LedgerDirectory.readAs_onlyKeys (directory : LedgerDirectory) (accountIds : List AccountId) :
    directory.ReadAs (onlyKeys accountIds
      (fun accountId => (directory.accounts accountId).map AccountRow.toMeta)) := by
  intro accountId found hfound
  unfold onlyKeys at hfound
  split at hfound
  · obtain ⟨row, hrow, rfl⟩ := Option.map_eq_some_iff.mp hfound
    exact ⟨row, hrow, rfl, rfl⟩
  · cases hfound

/-! ## Learning -/

/-- What administration does to the committed rows. -/
def KeepsModes (db db' : LedgerDb) : Prop :=
  db.toLedgerDirectory.KeepsModes db'.toLedgerDirectory

/-- Begun where `before` holds of the directory, a part of the flow leaves `after` of its result. -/
def Learns {α : Type} (before : LedgerDirectory → Prop) (d : PostingFlow α)
    (after : α → LedgerDirectory → Prop) : Prop :=
  (PostingSession.server KeepsModes).Triple
    (fun session => before session.committed.toLedgerDirectory) d
    (fun a session => after a session.committed.toLedgerDirectory) (fun _ => True)

namespace Learns

variable {α β : Type} {before : LedgerDirectory → Prop} {after : α → LedgerDirectory → Prop}

theorem stable (h : Lasting before) : (PostingSession.server KeepsModes).Stable
    (fun session => before session.committed.toLedgerDirectory) :=
  fun _ _ hothers hbefore => h hothers.2.2 hbefore

theorem bind {d : PostingFlow β} {f : β → PostingFlow α} {mid : β → LedgerDirectory → Prop}
    (h : Learns before d mid) (hf : ∀ b, Learns (mid b) (f b) after) :
    Learns before (d.bind f) after :=
  Server.Triple.bind h hf

theorem done (hlasting : Lasting before) {result : Except PostingError α}
    (h : ∀ a, result = .ok a → ∀ directory, before directory → after a directory) :
    Learns before (.done result) after :=
  Server.Triple.done (stable hlasting) (fun a ha _ hbefore => h a ha _ hbefore) (fun _ _ => trivial)

/-- **A statement** sees the committed directory. -/
theorem issue {statement : PostingStatement} {learned : statement.Answer → LedgerDirectory → Prop}
    (hlasting : Lasting before) (hlearned : ∀ answer, Lasting (learned answer))
    (h : ∀ order now (db : LedgerDb), before db.toLedgerDirectory →
      learned (statement.answer order now db) db.toLedgerDirectory) :
    Learns before (Postings.issue statement) learned := by
  refine Server.Triple.ask (stable hlasting) (fun answer => stable (hlearned answer))
    (fun _ _ => trivial) ?_
  rintro session answer _ ⟨order, now, db, hview, -, rfl, rfl⟩ hbefore
  obtain ⟨hdirectory, -⟩ := PostingSession.kept_of_view hview
  show learned _ session.committed.toLedgerDirectory
  rw [← hdirectory] at hbefore ⊢
  exact h order now db hbefore

/-- Whatever the flow does, it keeps what it knows. -/
theorem keep (hlasting : Lasting before) (d : PostingFlow α) :
    Learns before d (fun _ => before) := by
  induction d with
  | done result => exact done hlasting (fun _ _ _ h => h)
  | panic => exact Server.Triple.panic (stable hlasting) (fun _ _ => trivial)
  | issue statement next ih =>
      refine Server.Triple.issue (stable hlasting) (fun _ _ => trivial) ?_ ih
      rintro session answer session' hexecutes hbefore
      rw [PostingSession.committed_of_executes hexecutes]
      exact hbefore

theorem weaken {before' : LedgerDirectory → Prop} {after' : α → LedgerDirectory → Prop}
    {d : PostingFlow α} (h : Learns before d after)
    (hbefore : ∀ directory, before' directory → before directory)
    (hafter : ∀ a directory, after a directory → after' a directory) : Learns before' d after' :=
  Server.Triple.weaken h (fun _ hworld => hbefore _ hworld) (fun a _ hworld => hafter a _ hworld)
    (fun _ h => h)

/-- What is known besides stays known. -/
theorem frame {d : PostingFlow α} (h : Learns before d after) {known : LedgerDirectory → Prop}
    (hknown : Lasting known) :
    Learns (fun directory => before directory ∧ known directory) d
      (fun a directory => after a directory ∧ known directory) :=
  Server.Triple.weaken (Server.Triple.and h (keep hknown d)) (fun _ hworld => hworld)
    (fun _ _ hworld => hworld) (fun _ _ => trivial)

theorem foldEach (invariant : List β → α → LedgerDirectory → Prop) {f : α → β → PostingFlow α}
    (hlasting : ∀ a, Lasting (invariant [] a))
    (hstep : ∀ b bs a, Learns (invariant (b :: bs) a) (f a b) (invariant bs)) (bs : List β) (a : α) :
    Learns (invariant bs a) (Dialogue.foldEach f a bs) (invariant []) :=
  Server.Triple.foldEach
    (fun bs a (session : PostingSession) => invariant bs a session.committed.toLedgerDirectory)
    (fun a => stable (hlasting a)) hstep bs a

end Learns

/-! ## Ancestors -/

/-- Some entry of the postings has the balance among its targets. -/
def Targeted (prepared : List PreparedTransaction) (mappings : AncestorMappings) (key : BalanceKey) :
    Prop :=
  ∃ posting ∈ prepared, posting.journalId = key.journalId
    ∧ ∃ entry ∈ posting.entries, entry.currency = key.currency
      ∧ key.accountId ∈ inlineTargets (mappings key.journalId) entry

/-- Every ancestor of an entry account is among the keys, in the currency of the entry. -/
def CoversAncestors (prepared : List PreparedTransaction)
    (found : AncestorMappings × List BalanceKey) : Prop :=
  ∀ posting ∈ prepared, ∀ entry ∈ posting.entries,
    ∀ setId ∈ found.1 posting.journalId entry.accountId,
      (⟨posting.journalId, AccountId.ofSet setId, entry.currency⟩ : BalanceKey) ∈ found.2

/-- The ancestors listed for an account are distinct sets. -/
structure ListsSets (resolved : AccountSetMappings) (directory : LedgerDirectory) : Prop where
  distinct : ∀ accountId, (resolved accountId).Nodup
  backed : directory.BacksSets (fun setId => ∃ accountId, setId ∈ resolved accountId)

section Ancestors

variable {prepared : List PreparedTransaction} {mappings : AncestorMappings}
  {found : AncestorMappings × List BalanceKey}

theorem mem_sortedDeduped {keys : List BalanceKey} {key : BalanceKey} :
    key ∈ sortedDeduped keys ↔ key ∈ keys := by
  rw [sortedDeduped, List.mem_dedup, Foundations.mem_sortBy]

theorem lasting_listsSets (resolved : AccountSetMappings) : Lasting (ListsSets resolved) :=
  fun _ _ hkeeps h => ⟨h.distinct, Lasting.backsSets _ hkeeps h.backed⟩

theorem listsSets_nil (directory : LedgerDirectory) : ListsSets (fun _ => []) directory where
  distinct := fun _ => List.nodup_nil
  backed := fun _ ⟨_, hmem⟩ => (List.not_mem_nil hmem).elim

theorem coversAncestors_nil (keys : List BalanceKey) :
    CoversAncestors prepared (fun _ _ => [], keys) :=
  fun _ _ _ _ _ hmem => (List.not_mem_nil hmem).elim

/-- The body of the journal loop adds the keys of the ancestors it has found. -/
theorem CoversAncestors.update (h : CoversAncestors prepared found) (journalId : JournalId)
    (resolved : AccountSetMappings) :
    CoversAncestors prepared
      (Function.update found.1 journalId
          (fun accountId => found.1 journalId accountId ++ resolved accountId),
        found.2 ++ Postings.ancestorKeys prepared journalId resolved) := by
  intro posting hposting entry hentry setId hmem
  refine List.mem_append.mpr ?_
  by_cases hjournal : posting.journalId = journalId
  · subst hjournal
    dsimp only at hmem
    rw [Function.update_self] at hmem
    rcases List.mem_append.mp hmem with hearlier | hresolved
    · exact Or.inl (h posting hposting entry hentry setId hearlier)
    · -- found in this round
      refine Or.inr (List.mem_flatMap.mpr ⟨posting, ?_, ?_⟩)
      · exact List.mem_filter.mpr ⟨hposting, decide_eq_true rfl⟩
      · exact List.mem_flatMap.mpr ⟨entry, hentry, List.mem_map_of_mem hresolved⟩
  · dsimp only at hmem
    rw [Function.update_of_ne hjournal] at hmem
    exact Or.inl (h posting hposting entry hentry setId hmem)

/-- A target is an entry account or an ancestor. -/
theorem Targeted.cases {key : BalanceKey} {keys : List BalanceKey}
    (h : Targeted prepared mappings key) (hcovers : CoversAncestors prepared (mappings, keys)) :
    key ∈ entryBalanceKeys prepared
      ∨ key ∈ keys ∧ ∃ accountId, ∃ setId ∈ mappings key.journalId accountId,
          key.accountId = AccountId.ofSet setId := by
  obtain ⟨posting, hposting, hjournal, entry, hentry, hcurrency, htarget⟩ := h
  have hkey : key = ⟨posting.journalId, key.accountId, entry.currency⟩ := by
    rw [hjournal, hcurrency]
  unfold inlineTargets at htarget
  rcases List.mem_append.mp htarget with hset | hown
  · obtain ⟨setId, hmem, hset⟩ := List.mem_map.mp hset
    refine Or.inr ⟨?_, entry.accountId, setId, hmem, hset.symm⟩
    rw [← hjournal] at hmem
    rw [hkey, ← hset]
    exact hcovers posting hposting entry hentry setId hmem
  · rw [hkey, List.mem_singleton.mp hown]
    exact Or.inl (mem_entryBalanceKeys.mpr ⟨posting, hposting, entry, hentry, rfl⟩)

/-- The sets of the ledger, and those a cached graph knows, are backed. -/
structure KnownGraph (graph : JournalId → GraphSnapshot) (directory : LedgerDirectory) : Prop where
  backed : directory.SetsBacked
  known : ∀ journalId,
    directory.BacksSets (fun setId => ((graph journalId).sets.lookup setId).isSome)

theorem LedgerDirectory.Knows.knownGraph {directory : LedgerDirectory}
    {graph : JournalId → GraphSnapshot} (h : directory.Knows graph)
    (hbacked : directory.SetsBacked) : KnownGraph graph directory := by
  refine ⟨hbacked, fun journalId setId hknown => ?_⟩
  obtain ⟨own, hown⟩ := Option.isSome_iff_exists.mp (h journalId setId hknown)
  exact hbacked setId own hown

variable {graph : JournalId → GraphSnapshot}

theorem lasting_knownGraph : Lasting (KnownGraph graph) :=
  fun _ _ hkeeps h => ⟨hkeeps.backed, fun journalId =>
    Lasting.backsSets _ hkeeps (h.known journalId)⟩

/-- The walk returns distinct sets. -/
theorem learns_walk (journalId : JournalId) (entryPairs : List (AccountId × Currency)) :
    Learns (KnownGraph graph) (Postings.issue (.walkMappingsAndLock journalId entryPairs))
      (fun resolved directory => KnownGraph graph directory ∧ ListsSets resolved directory) := by
  refine Learns.issue lasting_knownGraph
    (fun resolved => lasting_knownGraph.and (lasting_listsSets resolved)) ?_
  intro order now db hgraph
  have hperm := fun accountId =>
    order.walk_perm accountId (db.memberships.walkMappings journalId accountId)
  refine ⟨hgraph, fun accountId => ?_, ?_⟩
  · dsimp only [PostingStatement.answer]
    split
    · exact (hperm accountId).nodup_iff.mpr (MembershipTables.nodup_walkMappings journalId accountId)
    · exact List.nodup_nil
  · rintro setId ⟨accountId, hset⟩
    dsimp only [PostingStatement.answer] at hset
    split at hset
    · have hwalked := (hperm accountId).mem_iff.mp hset
      rw [MembershipTables.walkMappings, List.mem_filter, decide_eq_true_eq] at hwalked
      exact hgraph.backed setId journalId hwalked.2
    · cases hset

/-- The sets of an overlay are backed. -/
def BacksOverlay (overlay : Option IndexedNodes) (directory : LedgerDirectory) : Prop :=
  directory.BacksSets (fun setId => ∃ nodes ∈ overlay, (nodes.sets.lookup setId).isSome)

theorem learns_fetchOverlay (missing : List AccountSetId) :
    Learns (KnownGraph graph) (Postings.fetchOverlay missing)
      (fun overlay directory => KnownGraph graph directory ∧ BacksOverlay overlay directory) := by
  unfold Postings.fetchOverlay
  split
  · refine Learns.done lasting_knownGraph ?_
    rintro _ ⟨⟩ directory hgraph
    refine ⟨hgraph, ?_⟩
    rintro setId ⟨_, ⟨⟩, -⟩
  · have hnodes : Learns (KnownGraph graph) (Postings.issue (.fetchSetGraphNodes missing))
        (fun nodes directory => KnownGraph graph directory
          ∧ directory.BacksSets (fun setId => ∃ node ∈ nodes, node.id = setId)) := by
      refine Learns.issue lasting_knownGraph
        (fun nodes => lasting_knownGraph.and (Lasting.backsSets _)) ?_
      intro order now db hgraph
      refine ⟨hgraph, ?_⟩
      rintro _ ⟨node, hnode, rfl⟩
      obtain ⟨setId, -, hmem⟩ := List.mem_flatMap.mp hnode
      split at hmem
      · obtain ⟨parentId, -, rfl⟩ := List.mem_map.mp hmem
        exact hgraph.backed setId _ ‹_›
      · cases hmem
    refine hnodes.bind (fun nodes =>
      Learns.done (lasting_knownGraph.and (Lasting.backsSets _)) ?_)
    rintro _ ⟨⟩ directory ⟨hgraph, hsets⟩
    refine ⟨hgraph, ?_⟩
    rintro setId ⟨_, ⟨⟩, hknown⟩
    exact hsets setId (SetGraphCache.exists_of_lookup_indexNodes hknown)

/-- What `expand` lists are distinct sets that the snapshot or the overlay knows. -/
theorem listsSets_of_expand {directory : LedgerDirectory} {journalId : JournalId}
    {overlay : Option IndexedNodes} {seeds : List AccountMembership}
    {entryPairs : List (AccountId × Currency)} {resolved : AccountSetMappings}
    {lockPairs : List (AccountSetId × Currency)} (hgraph : KnownGraph graph directory)
    (hoverlay : BacksOverlay overlay directory)
    (h : SetGraphCache.expand (graph journalId) overlay journalId seeds entryPairs
      = some (resolved, lockPairs)) : ListsSets resolved directory := by
  unfold SetGraphCache.expand at h
  split at h
  · cases h
    refine ⟨fun accountId => SetGraphCache.nodup_ancestorsIn _ _ _, ?_⟩
    rintro setId ⟨accountId, hset⟩
    refine SetGraphCache.of_metaOf (hgraph.known journalId)
      (fun nodes hnodes setId hknown => hoverlay setId ⟨nodes, hnodes, hknown⟩) ?_
    have hknown := (List.mem_filter.mp hset).2
    cases hmeta : SetGraphCache.metaOf (graph journalId) overlay setId with
    | some found => rfl
    | none =>
        rw [hmeta] at hknown
        cases hknown
  · cases h

/-- **Every way to resolve** returns distinct sets: cached, supplemented and walked. -/
theorem learns_resolveFromProbeInOp (journalId : JournalId) (epoch : ℤ)
    (seeds : List AccountMembership) (entryPairs : List (AccountId × Currency)) :
    Learns (KnownGraph graph)
      (Postings.resolveFromProbeInOp (graph journalId) journalId epoch seeds entryPairs)
      (fun resolved directory => KnownGraph graph directory ∧ ListsSets resolved directory) := by
  unfold Postings.resolveFromProbeInOp
  split
  · refine Learns.done lasting_knownGraph ?_
    rintro _ ⟨⟩ directory hgraph
    exact ⟨hgraph, listsSets_nil directory⟩
  split
  · exact learns_walk journalId entryPairs
  · refine (learns_fetchOverlay _).bind (fun overlay => ?_)
    have hlasting : Lasting (fun directory => KnownGraph graph directory
        ∧ BacksOverlay overlay directory) := lasting_knownGraph.and (Lasting.backsSets _)
    split
    · rename_i resolved lockPairs hexpand
      refine (Learns.keep hlasting (Postings.lockResolvedAncestorsInOp journalId lockPairs)).bind
        (fun _ => Learns.done hlasting ?_)
      rintro _ ⟨⟩ directory ⟨hgraph, hoverlay⟩
      exact ⟨hgraph, listsSets_of_expand hgraph hoverlay hexpand⟩
    · exact (learns_walk journalId entryPairs).weaken (fun _ h => h.1) (fun _ _ h => h)

/-- What the journal loop has found, with the journals still to come. -/
structure Resolved (prepared : List PreparedTransaction) (journals : List JournalId)
    (found : AncestorMappings × List BalanceKey) (directory : LedgerDirectory) : Prop where
  lists : ∀ journalId, ListsSets (found.1 journalId) directory
  pending : ∀ journalId ∈ journals, found.1 journalId = fun _ => []
  distinct : journals.Nodup
  covers : CoversAncestors prepared found

theorem lasting_resolved (journals : List JournalId) :
    Lasting (Resolved prepared journals found) :=
  fun _ _ hkeeps h =>
    { h with lists := fun journalId => lasting_listsSets _ hkeeps (h.lists journalId) }

/-- The body of the journal loop. -/
theorem learns_resolveJournal (epoch : ℤ) (seeds : List AccountMembership) (journalId : JournalId)
    (journals : List JournalId) (found : AncestorMappings × List BalanceKey) :
    Learns (fun directory => KnownGraph graph directory
        ∧ Resolved prepared (journalId :: journals) found directory)
      (Postings.resolveJournal graph prepared epoch seeds found journalId)
      (fun found directory => KnownGraph graph directory
        ∧ Resolved prepared journals found directory) := by
  unfold Postings.resolveJournal
  split
  · refine Learns.done (lasting_knownGraph.and (lasting_resolved _)) ?_
    rintro _ ⟨⟩ directory ⟨hgraph, hfound⟩
    exact ⟨hgraph, hfound.lists, fun own hown => hfound.pending own (List.mem_cons_of_mem _ hown),
      hfound.distinct.of_cons, hfound.covers⟩
  · refine ((learns_resolveFromProbeInOp journalId epoch seeds _).frame
      (lasting_resolved (journalId :: journals))).bind (fun resolved => Learns.done ?_ ?_)
    · exact (lasting_knownGraph.and (lasting_listsSets resolved)).and (lasting_resolved _)
    · rintro _ ⟨⟩ directory ⟨⟨hgraph, hresolved⟩, hfound⟩
      obtain ⟨hnew, hdistinct⟩ := List.nodup_cons.mp hfound.distinct
      refine ⟨hgraph, fun own => ?_, fun own hown => ?_, hdistinct,
        hfound.covers.update journalId resolved⟩
      · by_cases hjournal : own = journalId
        · -- nothing was found of this journal before
          subst hjournal
          dsimp only
          rw [Function.update_self, hfound.pending own List.mem_cons_self]
          exact hresolved
        · dsimp only
          rw [Function.update_of_ne hjournal]
          exact hfound.lists own
      · have hjournal : own ≠ journalId := fun hsame => hnew (hsame ▸ hown)
        dsimp only
        rw [Function.update_of_ne hjournal]
        exact hfound.pending own (List.mem_cons_of_mem _ hown)

/-- The entry accounts were read and take entries. -/
structure Entered (prepared : List PreparedTransaction) (read : PostingState)
    (directory : LedgerDirectory) : Prop where
  readAs : directory.ReadAs read.accounts
  entries : ∀ posting ∈ prepared, ∀ entry ∈ posting.entries,
    ∃ found, read.accounts entry.accountId = some found ∧ found.isAccountSet = false

theorem lasting_entered (read : PostingState) : Lasting (Entered prepared read) :=
  fun _ _ hkeeps h => ⟨Lasting.readAs _ hkeeps h.readAs, h.entries⟩

theorem Entered.leaf {read : PostingState} {directory : LedgerDirectory}
    (h : Entered prepared read directory) {posting : PreparedTransaction} (hposting : posting ∈ prepared)
    {entry : EntryValues} (hentry : entry ∈ posting.entries) : directory.Leaf entry.accountId := by
  obtain ⟨found, hfound, hset⟩ := h.entries posting hposting entry hentry
  obtain ⟨row, hrow, -, hmarked⟩ := h.readAs _ found hfound
  exact ⟨row, hrow, hmarked.trans hset⟩

/-- What validation has checked. -/
theorem entries_of_validateFrom {read : PostingState}
    (h : validateFrom read 0 prepared = .ok ()) :
    ∀ posting ∈ prepared, ∀ entry ∈ posting.entries,
      ∃ found, read.accounts entry.accountId = some found ∧ found.isAccountSet = false := by
  intro posting hposting entry hentry
  have hvalid := (validateFrom_eq_ok prepared).mp h posting hposting
  unfold validatePosting at hvalid
  split at hvalid
  · cases hvalid
  split at hvalid
  · cases hvalid
  obtain ⟨_, haccount⟩ := Foundations.forM_ok_iff.mp hvalid entry hentry
  unfold validateAccount at haccount
  split at haccount
  · cases haccount
  · rename_i found hfound
    refine ⟨found, hfound, ?_⟩
    cases hset : found.isAccountSet with
    | false => rfl
    | true =>
        rw [hset] at haccount
        cases haccount

/-- What is known of the targets once their accounts are read. -/
structure TargetsRead (prepared : List PreparedTransaction) (mappings : AncestorMappings)
    (read : PostingState) (directory : LedgerDirectory) : Prop where
  leaves : ∀ posting ∈ prepared, ∀ entry ∈ posting.entries, directory.Leaf entry.accountId
  lists : ∀ journalId, ListsSets (mappings journalId) directory
  readAs : directory.ReadAs read.accounts
  all : ∀ key, Targeted prepared mappings key → (read.accounts key.accountId).isSome

theorem lasting_targetsRead (read : PostingState) : Lasting (TargetsRead prepared mappings read) :=
  fun _ _ hkeeps h =>
    { h with
      leaves := fun posting hposting entry hentry =>
        hkeeps.leaf (h.leaves posting hposting entry hentry)
      lists := fun journalId => lasting_listsSets _ hkeeps (h.lists journalId)
      readAs := Lasting.readAs _ hkeeps h.readAs }

/-- **Both reads**, with the accounts of the ancestors `supplemented`. -/
theorem targetsRead_of_reads {read : PostingState} {directory : LedgerDirectory}
    {keys : List BalanceKey} (hresolved : Resolved prepared [] (mappings, keys) directory)
    (hentered : Entered prepared read directory) {accounts : AccountId → Option AccountMeta}
    (hread : directory.ReadAs accounts)
    (hall : ∀ key, Targeted prepared mappings key → key ∉ entryBalanceKeys prepared →
      (accounts key.accountId).isSome)
    {extended : PostingState}
    (hextended : ∀ accountId, extended.accounts accountId
      = (accounts accountId).or (read.accounts accountId)) :
    TargetsRead prepared mappings extended directory where
  leaves := fun posting hposting entry hentry => hentered.leaf hposting hentry
  lists := hresolved.lists
  readAs := by
    intro accountId found hfound
    rw [hextended] at hfound
    rcases Option.or_eq_some_iff.mp hfound with hsupplemental | ⟨-, hfirst⟩
    · exact hread accountId found hsupplemental
    · exact hentered.readAs accountId found hfirst
  all := by
    intro key htargeted
    rw [hextended, Option.isSome_or, Bool.or_eq_true]
    by_cases hentry : key ∈ entryBalanceKeys prepared
    · obtain ⟨posting, hposting, entry, hmem, rfl⟩ := mem_entryBalanceKeys.mp hentry
      obtain ⟨found, hfound, -⟩ := hentered.entries posting hposting entry hmem
      exact Or.inr (by rw [hfound]; rfl)
    · exact Or.inl (hall key htargeted hentry)

theorem learns_resolveAncestors (epoch : ℤ) (read : PostingState) :
    Learns (fun directory => KnownGraph graph directory ∧ Entered prepared read directory)
      (Postings.resolveAncestors graph prepared epoch read)
      (fun resolved directory => KnownGraph graph directory
        ∧ TargetsRead prepared resolved.1 resolved.2 directory) := by
  have hnothing : ∀ directory : LedgerDirectory, directory.ReadAs (fun _ => none) := by
    rintro directory accountId found ⟨⟩
  -- without ancestor keys the entry accounts are the only targets
  have hfirst : ∀ {mappings : AncestorMappings} {directory : LedgerDirectory},
      Resolved prepared [] (mappings, []) directory → Entered prepared read directory →
      TargetsRead prepared mappings read directory := by
    intro mappings directory hresolved hentered
    refine targetsRead_of_reads hresolved hentered (hnothing directory) ?_ (fun _ => rfl)
    intro key htargeted hother
    exact absurd ((htargeted.cases hresolved.covers).resolve_left hother).1 List.not_mem_nil
  have hnil : ∀ journals : List JournalId, journals.Nodup → ∀ directory,
      Resolved prepared journals (fun _ _ => [], []) directory :=
    fun journals hdistinct directory => ⟨fun _ => listsSets_nil directory, fun _ _ => rfl, hdistinct,
      coversAncestors_nil []⟩
  unfold Postings.resolveAncestors
  split
  · refine Learns.done (lasting_knownGraph.and (lasting_entered read)) ?_
    rintro _ ⟨⟩ directory ⟨hgraph, hentered⟩
    exact ⟨hgraph, hfirst (hnil [] List.nodup_nil directory) hentered⟩
  · have hloop := (Learns.foldEach (fun journals found directory => KnownGraph graph directory
        ∧ Resolved prepared journals found directory)
      (fun _ => lasting_knownGraph.and (lasting_resolved _))
      (learns_resolveJournal epoch read.seeds)
      (sortedDedup (prepared.map PreparedTransaction.journalId)) (fun _ _ => [], [])).frame
        (@lasting_entered prepared read)
    refine Learns.bind (hloop.weaken (fun directory h => ⟨⟨h.1, hnil _ (nodup_sortedDedup _)
      directory⟩, h.2⟩) (fun _ _ h => h)) (fun found => ?_)
    obtain ⟨mappings, keys⟩ := found
    have hlasting : Lasting (fun directory => (KnownGraph graph directory
        ∧ Resolved prepared [] (mappings, keys) directory) ∧ Entered prepared read directory) :=
      (lasting_knownGraph.and (lasting_resolved _)).and (lasting_entered read)
    dsimp only
    split
    · rename_i hnone
      refine Learns.done hlasting ?_
      rintro _ ⟨⟩ directory ⟨⟨hgraph, hresolved⟩, hentered⟩
      rw [hnone] at hresolved
      exact ⟨hgraph, hfirst hresolved hentered⟩
    · have hread : Learns (fun directory => (KnownGraph graph directory
            ∧ Resolved prepared [] (mappings, keys) directory) ∧ Entered prepared read directory)
          (Postings.issue (.readAncestorState (sortedDedup (keys.map BalanceKey.accountId))
            (sortedDeduped keys)))
          (fun supplemental directory => KnownGraph graph directory
            ∧ TargetsRead prepared mappings (read.extend supplemental) directory) := by
        refine Learns.issue hlasting
          (fun supplemental => lasting_knownGraph.and (lasting_targetsRead _)) ?_
        rintro order now db ⟨⟨hgraph, hresolved⟩, hentered⟩
        refine ⟨hgraph, targetsRead_of_reads hresolved hentered
          (db.readAs_onlyKeys (sortedDedup (keys.map BalanceKey.accountId))) ?_ (fun _ => rfl)⟩
        intro key htargeted hother
        obtain ⟨hkey, accountId, setId, hset, haccount⟩ :=
          (htargeted.cases hresolved.covers).resolve_left hother
        obtain ⟨row, hrow, -⟩ := (hresolved.lists key.journalId).backed setId ⟨accountId, hset⟩
        rw [onlyKeys_of_mem (mem_sortedDedup.mpr (List.mem_map_of_mem hkey)), haccount, hrow]
        rfl
      refine hread.bind (fun supplemental => ?_)
      split
      · refine Learns.done (lasting_knownGraph.and (lasting_targetsRead _)) ?_
        rintro _ ⟨⟩
      · refine Learns.done (lasting_knownGraph.and (lasting_targetsRead _)) ?_
        rintro _ ⟨⟩ directory h
        exact h

end Ancestors

/-! ## Posted batches -/

namespace Postings

/-- The flow from the read to the insert, with what the batch is posted under. -/
def settlePreparedInOp (graph : JournalId → GraphSnapshot) (display : JsonDisplay) (now : Timestamp)
    (prepared : List PreparedTransaction) : PostingFlow (AncestorMappings × PostingState) := do
  let accountIds := sortedDedup ((prepared.flatMap PreparedTransaction.entries).map
    EntryValues.accountId)
  let journalIds := sortedDedup (prepared.map PreparedTransaction.journalId)
  let found ← issue (.readPostingState accountIds journalIds
    (sortedDeduped (entryBalanceKeys prepared)))
  .done (validateFrom found.2 0 prepared)
  let (mappings, read) ← resolveAncestors graph prepared found.1 found.2
  enforceBatchInOp display now (hydrate now prepared) read.controls mappings
  insertPostingsAndBalancesInOp (hydrate now prepared)
    (foldBalances (hydrate now prepared) read mappings now)
  pure (mappings, read)

/-- The batch that is posted so. -/
def postedUnder (now : Timestamp) (prepared : List PreparedTransaction)
    (found : AncestorMappings × PostingState) : PostedBatch :=
  ⟨now, hydrate now prepared, found.2.accounts, found.2.controls, found.1⟩

/-- What comes behind the insert. -/
def finishPreparedInOp (now : Timestamp) (prepared : List PreparedTransaction)
    (found : AncestorMappings × PostingState) : PostingFlow PostedBatch := do
  updateEffectiveBalances (hydrate now prepared) found.2 found.1 now
  issue (.publishAll ((hydrate now prepared).flatMap postingEvents))
  pure (postedUnder now prepared found)

theorem postPreparedInOp_eq (graph : JournalId → GraphSnapshot) (display : JsonDisplay)
    (now : Timestamp) (prepared : List PreparedTransaction) :
    postPreparedInOp graph display now prepared
      = (settlePreparedInOp graph display now prepared).bind (finishPreparedInOp now prepared) := by
  unfold settlePreparedInOp
  refine Eq.symm ((Dialogue.bind_assoc _ _ _).trans (congrArg _ (funext (fun found => ?_))))
  refine (Dialogue.bind_assoc _ _ _).trans (congrArg _ (funext (fun _ => ?_)))
  refine (Dialogue.bind_assoc _ _ _).trans (congrArg _ (funext (fun resolved => ?_)))
  refine (Dialogue.bind_assoc _ _ _).trans (congrArg _ (funext (fun _ => ?_)))
  exact (Dialogue.bind_assoc _ _ _)

end Postings

/-- Whether a batch maintained an account: it was read and not eventually consistent. -/
def Postings.PostedBatch.involves (batch : PostedBatch) (accountId : AccountId) : Bool :=
  (batch.accounts accountId).any (fun accountMeta => !accountMeta.eventuallyConsistent)

/-- The targets of an entry are distinct accounts, and those that are not eventually consistent were
maintained. -/
structure Postings.PostedBatch.KnowsTargets (batch : PostedBatch) (directory : LedgerDirectory) :
    Prop where
  distinct : ∀ posting ∈ batch.postings, ∀ entry ∈ posting.2,
    (inlineTargets (batch.mappings posting.1.journalId) entry).Nodup
  rows : ∀ posting ∈ batch.postings, ∀ entry ∈ posting.2,
    ∀ accountId ∈ inlineTargets (batch.mappings posting.1.journalId) entry,
      ∃ row, directory.accounts accountId = some row
        ∧ batch.involves accountId = !row.eventuallyConsistent

section Batches

variable {graph : JournalId → GraphSnapshot} {batch : PostedBatch}

theorem Postings.PostedBatch.KnowsTargets.involves {directory : LedgerDirectory}
    (h : batch.KnowsTargets directory) {posting : HydratedPosting}
    (hposting : posting ∈ batch.postings) {entry : EntryValues} (hentry : entry ∈ posting.2)
    {accountId : AccountId}
    (htarget : accountId ∈ inlineTargets (batch.mappings posting.1.journalId) entry) :
    batch.involves accountId = true ↔ directory.accounts.consistency false accountId := by
  obtain ⟨row, hrow, hinvolves⟩ := h.rows posting hposting entry hentry accountId htarget
  rw [hinvolves, AccountTable.consistency, hrow]
  simp

theorem lasting_knowsTargets (batch : PostedBatch) : Lasting batch.KnowsTargets := by
  intro directory directory' hkeeps h
  refine ⟨h.distinct, fun posting hposting entry hentry accountId htarget => ?_⟩
  obtain ⟨row, hrow, hinvolves⟩ := h.rows posting hposting entry hentry accountId htarget
  obtain ⟨row', hrow', hmode, -⟩ := hkeeps.accounts accountId row hrow
  exact ⟨row', hrow', by rw [hinvolves, hmode]⟩

theorem knowsTargets_of_targetsRead {prepared : List PreparedTransaction}
    {found : AncestorMappings × PostingState} {directory : LedgerDirectory}
    (h : TargetsRead prepared found.1 found.2 directory) (now : Timestamp) :
    (Postings.postedUnder now prepared found).KnowsTargets directory := by
  constructor
  · intro hydrated hmem entry hentry
    obtain ⟨posting, hposting, rfl⟩ := List.mem_map.mp hmem
    have hlists := h.lists posting.journalId
    refine List.nodup_append.mpr ⟨(hlists.distinct _).map AccountId.ofSet_injective,
      List.nodup_singleton _, fun accountId haccount own hown hsame => ?_⟩
    -- an entry account backs no set
    obtain ⟨setId, hset, rfl⟩ := List.mem_map.mp haccount
    rw [List.mem_singleton.mp hown] at hsame
    exact (h.leaves posting hposting entry hentry).ne_ofSet
      (hlists.backed setId ⟨entry.accountId, hset⟩) hsame
  · intro hydrated hmem entry hentry accountId htarget
    obtain ⟨posting, hposting, rfl⟩ := List.mem_map.mp hmem
    have hread := h.all ⟨posting.journalId, accountId, entry.currency⟩
      ⟨posting, hposting, rfl, entry, hentry, rfl, htarget⟩
    obtain ⟨account, haccount⟩ := Option.isSome_iff_exists.mp hread
    obtain ⟨row, hrow, hmode, -⟩ := h.readAs accountId account haccount
    refine ⟨row, hrow, ?_⟩
    show (found.2.accounts accountId).any _ = _
    rw [haccount, hmode]
    rfl

theorem learns_settlePreparedInOp (display : JsonDisplay) (now : Timestamp)
    (prepared : List PreparedTransaction) :
    Learns (KnownGraph graph) (Postings.settlePreparedInOp graph display now prepared)
      (fun found directory => KnownGraph graph directory
        ∧ TargetsRead prepared found.1 found.2 directory) := by
  unfold Postings.settlePreparedInOp
  have hread : Learns (KnownGraph graph) (Postings.issue (.readPostingState
        (sortedDedup ((prepared.flatMap PreparedTransaction.entries).map EntryValues.accountId))
        (sortedDedup (prepared.map PreparedTransaction.journalId))
        (sortedDeduped (entryBalanceKeys prepared))))
      (fun found directory => KnownGraph graph directory ∧ directory.ReadAs found.2.accounts) :=
    Learns.issue lasting_knownGraph (fun found => lasting_knownGraph.and (Lasting.readAs _))
      (fun order now db hgraph => ⟨hgraph, db.readAs_onlyKeys _⟩)
  refine hread.bind (fun found => ?_)
  have hentered : Learns (fun directory => KnownGraph graph directory
        ∧ directory.ReadAs found.2.accounts) (.done (validateFrom found.2 0 prepared))
      (fun _ directory => KnownGraph graph directory ∧ Entered prepared found.2 directory) :=
    Learns.done (lasting_knownGraph.and (Lasting.readAs _))
      (fun _ hvalid directory h => ⟨h.1, h.2, entries_of_validateFrom hvalid⟩)
  refine hentered.bind (fun _ => ?_)
  refine (learns_resolveAncestors found.1 found.2).bind (fun resolved => ?_)
  obtain ⟨mappings, read⟩ := resolved
  have hlasting : Lasting (fun directory => KnownGraph graph directory
      ∧ TargetsRead prepared mappings read directory) :=
    lasting_knownGraph.and (lasting_targetsRead read)
  refine (Learns.keep hlasting _).bind (fun _ => ?_)
  refine (Learns.keep hlasting _).bind (fun _ => Learns.done hlasting ?_)
  rintro _ ⟨⟩ directory h
  exact h

theorem learns_postPreparedInOp (display : JsonDisplay) (now : Timestamp)
    (prepared : List PreparedTransaction) :
    Learns (KnownGraph graph) (Postings.postPreparedInOp graph display now prepared)
      (fun batch directory => KnownGraph graph directory ∧ batch.KnowsTargets directory) := by
  rw [Postings.postPreparedInOp_eq]
  refine (learns_settlePreparedInOp display now prepared).bind (fun found => ?_)
  have hlasting : Lasting (fun directory => KnownGraph graph directory
      ∧ TargetsRead prepared found.1 found.2 directory) :=
    lasting_knownGraph.and (lasting_targetsRead found.2)
  refine (Learns.keep hlasting _).bind (fun _ => ?_)
  refine (Learns.keep hlasting _).bind (fun _ => Learns.done hlasting ?_)
  rintro _ ⟨⟩ directory ⟨hgraph, htargets⟩
  exact ⟨hgraph, knowsTargets_of_targetsRead htargets now⟩

/-- **A call** knows the targets of the batch it posts. -/
theorem learns_postBatchInOp (templates : HashMap String ResolvedTemplate) (display : JsonDisplay)
    (ids : EntryIds) (batch : List PostingInput) :
    Learns (KnownGraph graph) (Postings.postBatchInOp templates graph display ids batch)
      (fun batch directory => KnownGraph graph directory ∧ batch.KnowsTargets directory) := by
  unfold Postings.postBatchInOp
  split
  · refine Learns.done lasting_knownGraph ?_
    rintro _ ⟨⟩ directory hgraph
    exact ⟨hgraph, fun _ hmem => (List.not_mem_nil hmem).elim,
      fun _ hmem => (List.not_mem_nil hmem).elim⟩
  · refine (Learns.keep lasting_knownGraph _).bind (fun used => ?_)
    refine (Learns.keep lasting_knownGraph _).bind (fun prepared => ?_)
    split
    · refine Learns.done lasting_knownGraph ?_
      rintro _ ⟨⟩
    · refine (Learns.keep lasting_knownGraph _).bind (fun locked => ?_)
      obtain ⟨now, prepared⟩ := locked
      exact learns_postPreparedInOp display now prepared

end Batches

/-! ## Runs -/

/-- The sets are backed, and the targets of some batches known. -/
structure KnowsBatches (directory : LedgerDirectory) (batches : List PostedBatch) : Prop where
  backed : directory.SetsBacked
  targets : ∀ batch ∈ batches, batch.KnowsTargets directory

theorem lasting_knowsBatches (batches : List PostedBatch) :
    Lasting (fun directory => KnowsBatches directory batches) :=
  fun _ _ hkeeps h => ⟨hkeeps.backed, fun batch hbatch =>
    lasting_knowsTargets batch hkeeps (h.targets batch hbatch)⟩

theorem KnowsBatches.append {directory : LedgerDirectory} {front back : List PostedBatch}
    (hfront : KnowsBatches directory front) (hback : KnowsBatches directory back) :
    KnowsBatches directory (front ++ back) where
  backed := hfront.backed
  targets := fun batch hbatch =>
    (List.mem_append.mp hbatch).elim (hfront.targets batch) (hback.targets batch)

/-- The argument, put together. -/
def targetsDiscipline : Discipline where
  rely := KeepsModes
  global := fun db log => KnowsBatches db.toLedgerDirectory log
  session := fun posted session => KnowsBatches session.committed.toLedgerDirectory posted
  fresh := fun _ _ _ hbacked => ⟨hbacked, fun _ hmem => (List.not_mem_nil hmem).elim⟩
  administered := fun _ _ _ hkeeps h => ⟨lasting_knowsBatches _ hkeeps h, hkeeps⟩
  begun := fun h => ⟨h.backed, fun _ hmem => (List.not_mem_nil hmem).elim⟩
  stable := fun posted => Learns.stable (lasting_knowsBatches posted)
  reads := fun {posted current next} hcommitted _ h => by
    rw [hcommitted]
    exact h
  calls := fun posted templates graph display ids batch => by
    refine Server.Triple.weaken ((learns_postBatchInOp templates display ids batch).frame
      (lasting_knowsBatches posted)) (fun session h => ⟨h.1.knownGraph h.2.backed, h.2⟩) ?_
      (fun _ h => h)
    rintro posted session ⟨⟨hgraph, htargets⟩, hposted⟩
    refine hposted.append ⟨hgraph.backed, fun own hown => ?_⟩
    rw [List.mem_singleton.mp hown]
    exact htargets
  commits := fun {db db' log posted written locks} hlog hposted hview => by
    obtain ⟨hdirectory, -⟩ := PostingSession.kept_of_view hview
    have hsame : db'.toLedgerDirectory = db.toLedgerDirectory := hdirectory
    rw [KeepsModes, hsame]
    exact ⟨hlog.append hposted, LedgerDirectory.KeepsModes.refl hlog.backed⟩

/-- **In every run, the targets of the committed entries are distinct accounts**, and the batches
have maintained those that are not eventually consistent. -/
theorem knowsBatches_of_reached {system : LedgerSystem} (h : LedgerSystem.Reached system) :
    KnowsBatches system.committed.toLedgerDirectory system.log :=
  (targetsDiscipline.holds h).committed

end CalaLedger
