import CalaLedger.Posting.CachedResolution
import CalaLedger.Posting.KnownAccounts
import CalaLedger.Posting.PreparedCalls

/-! # Calls under a steady administration

While nobody administers the ledger, and the caches of a process hold what it has stored, a call
prepares from the stored templates, validates against the stored accounts and finds the ancestors of
the walk, whatever is posted meanwhile (`finds_settlePreparedInOp`). -/

namespace CalaLedger

open Foundations (Dialogue Server)
open Postings (PostedBatch)
open SetGraphCache (Agrees Probes)

/-- What posting reads and never writes is the same. -/
structure SameAdministration (db db' : LedgerDb) : Prop where
  directory : db'.toLedgerDirectory = db.toLedgerDirectory
  templates : db'.templates = db.templates
  accountControls : db'.accountControls = db.accountControls

theorem SameAdministration.refl (db : LedgerDb) : SameAdministration db db :=
  ⟨rfl, rfl, rfl⟩

theorem SameAdministration.symm {db db' : LedgerDb} (h : SameAdministration db db') :
    SameAdministration db' db :=
  ⟨h.directory.symm, h.templates.symm, h.accountControls.symm⟩

theorem SameAdministration.trans {db db' db'' : LedgerDb} (h : SameAdministration db db')
    (h' : SameAdministration db' db'') : SameAdministration db db'' :=
  ⟨h'.directory.trans h.directory, h'.templates.trans h.templates,
    h'.accountControls.trans h.accountControls⟩

theorem PostingSession.sameAdministration_view {session : PostingSession} {db : LedgerDb}
    (hview : session.view = some db) : SameAdministration session.committed db := by
  obtain ⟨hdirectory, htemplates, hcontrols⟩ := kept_of_view hview
  exact ⟨hdirectory, htemplates, hcontrols⟩

/-! ## Finding -/

/-- While the administration is that of `base`, a part of the flow returns what is as `fact` has
it. -/
def Finds {α : Type} (base : LedgerDb) (d : PostingFlow α) (fact : α → Prop) : Prop :=
  (PostingSession.server SameAdministration).Triple
    (fun session => SameAdministration base session.committed) d
    (fun a session => fact a ∧ SameAdministration base session.committed) (fun _ => True)

namespace Finds

variable {α β : Type} {base : LedgerDb} {fact : α → Prop}

theorem stable : (PostingSession.server SameAdministration).Stable
    (fun session => SameAdministration base session.committed) :=
  fun _ _ hothers h => h.trans hothers.2.2

theorem done {result : Except PostingError α} (h : ∀ a, result = .ok a → fact a) :
    Finds base (.done result) fact :=
  Server.Triple.done stable (fun a ha _ hbase => ⟨h a ha, hbase⟩) (fun _ _ => trivial)

/-- **A statement** sees the administration of `base`. -/
theorem issue {statement : PostingStatement} {fact : statement.Answer → Prop}
    (h : ∀ order now db, SameAdministration base db → fact (statement.answer order now db)) :
    Finds base (Postings.issue statement) fact := by
  refine Server.Triple.ask stable (fun _ _ _ hothers hfact => ⟨hfact.1, stable hothers hfact.2⟩)
    (fun _ _ => trivial) ?_
  rintro session answer session' hexecutes hbase
  have hcommitted : session'.committed = session.committed :=
    PostingSession.committed_of_executes hexecutes
  obtain ⟨order, now, db, hview, -, rfl, -⟩ := hexecutes
  refine ⟨h order now db (hbase.trans (PostingSession.sameAdministration_view hview)), ?_⟩
  rw [hcommitted]
  exact hbase

theorem bind {d : PostingFlow β} {f : β → PostingFlow α} {mid : β → Prop} (h : Finds base d mid)
    (hf : ∀ b, mid b → Finds base (f b) fact) : Finds base (d.bind f) fact :=
  Server.Triple.bind h (fun b => Server.Triple.of_fact (hf b))

theorem weaken {fact' : α → Prop} {d : PostingFlow α} (h : Finds base d fact)
    (hfact : ∀ a, fact a → fact' a) : Finds base d fact' :=
  Server.Triple.weaken h (fun _ hbase => hbase) (fun a _ hpost => ⟨hfact a hpost.1, hpost.2⟩)
    (fun _ h => h)

/-- Whatever a part of the flow does. -/
theorem any (d : PostingFlow α) : Finds base d (fun _ => True) := by
  induction d with
  | done result => exact done (fun _ _ => trivial)
  | panic => exact Server.Triple.panic stable (fun _ _ => trivial)
  | issue statement next ih =>
      refine Server.Triple.issue stable (fun _ _ => trivial) ?_ ih
      rintro session answer session' hexecutes hbase
      rw [PostingSession.committed_of_executes hexecutes]
      exact hbase

/-- A loop: the invariant is of the elements still to come and the state so far. -/
theorem foldEach (invariant : List β → α → Prop) {f : α → β → PostingFlow α}
    (hstep : ∀ b bs a, invariant (b :: bs) a → Finds base (f a b) (invariant bs)) (bs : List β) :
    ∀ a, invariant bs a → Finds base (Dialogue.foldEach f a bs) (invariant []) := by
  induction bs with
  | nil =>
      rintro a ha
      refine done ?_
      rintro _ ⟨⟩
      exact ha
  | cons b bs ih => exact fun a ha => (hstep b bs a ha).bind ih

/-- An assertion that others and reads keep is kept while a part of the flow finds something. -/
theorem reading {rely : LedgerDb → LedgerDb → Prop} {pre : PostingSession → Prop}
    (hrely : ∀ {db db'}, rely db db' → SameAdministration db db')
    (hstable : (PostingSession.server rely).Stable pre)
    (hreads : ∀ {session session' : PostingSession}, session'.committed = session.committed →
      session'.written = session.written → pre session → pre session')
    {d : PostingFlow α} (hd : d.ReadOnly Postings.Writing) (h : Finds base d fact) :
    (PostingSession.server rely).Triple
      (fun session => SameAdministration base session.committed ∧ pre session) d
      (fun a session => fact a ∧ SameAdministration base session.committed ∧ pre session)
      (fun _ => True) := by
  have hfinds := @Server.Triple.restrict _ _ _ _ _ _ _ _ _ (PostingSession.server rely) d h
    (fun hothers => ⟨hothers.1, hothers.2.1, hrely hothers.2.2⟩) id
  exact (hfinds.and (Postings.triple_reading hstable hreads hd)).weaken (fun _ hpre => hpre)
    (fun _ _ hpost => ⟨hpost.1.1, hpost.1.2, hpost.2⟩) (fun _ _ => trivial)

end Finds

/-! ## Templates -/

/-- The cached templates are stored. -/
def CachesStored (db : LedgerDb) (cached : HashMap String ResolvedTemplate) : Prop :=
  ∀ code resolved, cached.lookup code = some resolved →
    (db.templates code).map TemplateSessions.newTemplate = some resolved

section Templates

variable {base : LedgerDb} {ids : EntryIds} {batch : List PostingInput} {codes : List String}
  {used : HashMap String ResolvedTemplate}

/-- Some codes are resolved, to what is stored. -/
structure ResolvedAll (base : LedgerDb) (codes : List String)
    (used : HashMap String ResolvedTemplate) : Prop where
  stored : CachesStored base used
  known : ∀ code ∈ codes, (used.lookup code).isSome

theorem ResolvedAll.lookup (h : ResolvedAll base codes used) {code : String}
    (hcode : code ∈ codes) :
    used.lookup code = (base.templates code).map TemplateSessions.newTemplate := by
  obtain ⟨resolved, hresolved⟩ := Option.isSome_iff_exists.mp (h.known code hcode)
  rw [hresolved, h.stored code resolved hresolved]

theorem finds_fetchAndInstall (missing : List String) :
    Finds base (Postings.fetchAndInstall missing) (ResolvedAll base missing) := by
  unfold Postings.fetchAndInstall
  have hrows : Finds base (Postings.issue (.resolveTemplates missing))
      (fun rows => rows = onlyKeys missing (fun code =>
        (base.templates code).map TemplateSessions.newTemplate)) :=
    Finds.issue (fun _ _ db hbase => by rw [← hbase.templates]; rfl)
  refine hrows.bind ?_
  rintro _ rfl
  refine Finds.done (fun resolved hresolved => ?_)
  have hfetch := Foundations.mapError_eq_ok.mp hresolved
  have hlookup := TemplateCache.lookup_of_fetch hfetch
  constructor
  · intro code found hfound
    rw [hlookup] at hfound
    split at hfound
    · rename_i hcode
      rwa [onlyKeys_of_mem hcode] at hfound
    · cases hfound
  · intro code hcode
    rw [hlookup, if_pos hcode]
    exact TemplateCache.known_of_fetch hfetch code hcode

/-- **Resolving** returns the stored templates, cached or fetched. -/
theorem finds_resolveInOp {snapshot : HashMap String ResolvedTemplate}
    (hsnapshot : CachesStored base snapshot) (codes : List String) :
    Finds base (Postings.resolveInOp snapshot codes) (ResolvedAll base codes) := by
  have hhits : CachesStored base (TemplateCache.hits snapshot codes) := by
    intro code resolved hresolved
    rw [TemplateCache.lookup_hits] at hresolved
    split at hresolved
    · exact hsnapshot code resolved hresolved
    · cases hresolved
  have hknown : ∀ code ∈ codes, code ∉ TemplateCache.missing snapshot codes →
      ((TemplateCache.hits snapshot codes).lookup code).isSome := by
    intro code hcode hpresent
    rw [TemplateCache.lookup_hits, if_pos hcode]
    by_contra hnone
    refine hpresent (List.mem_filter.mpr ⟨hcode, ?_⟩)
    simpa using hnone
  unfold Postings.resolveInOp
  split
  · rename_i hnone
    refine Finds.done ?_
    rintro _ ⟨⟩
    refine ⟨hhits, fun code hcode => hknown code hcode ?_⟩
    rw [hnone]
    exact List.not_mem_nil
  · refine (finds_fetchAndInstall _).bind (fun fetched hfetched => Finds.done ?_)
    rintro _ ⟨⟩
    constructor
    · intro code resolved hresolved
      rw [Foundations.lookup_union] at hresolved
      rcases Option.or_eq_some_iff.mp hresolved with hfound | ⟨-, hcached⟩
      · exact hfetched.stored code resolved hfound
      · exact hhits code resolved hcached
    · intro code hcode
      rw [Foundations.lookup_union, Option.isSome_or, Bool.or_eq_true]
      by_cases hmissing : code ∈ TemplateCache.missing snapshot codes
      · exact Or.inl (hfetched.known code hmissing)
      · exact Or.inr (hknown code hcode hmissing)

/-- Resolved templates prepare what the stored ones do. -/
theorem ResolvedAll.prepares
    (h : ResolvedAll base (sortedDedup (batch.map PostingInput.txTemplateCode)) used)
    {prepared : List PreparedTransaction} :
    Postings.prepareAll ids batch (sortedDedup (batch.map PostingInput.txTemplateCode)) used
        = .ok prepared
      ↔ batch.mapM (prepareInput ids base.templates) = some prepared ∧ DistinctIds prepared := by
  have hbodies : ∀ input ∈ batch, (TemplateSessions.bodies
        (sortedDedup (batch.map PostingInput.txTemplateCode)) used).lookup input.txTemplateCode
      = base.templates input.txTemplateCode := by
    intro input hinput
    have hcode : input.txTemplateCode ∈ sortedDedup (batch.map PostingInput.txTemplateCode) :=
      mem_sortedDedup.mpr (List.mem_map_of_mem hinput)
    rw [TemplateSessions.bodies, Foundations.lookup_storeFound, if_pos hcode, h.lookup hcode,
      AList.lookup_empty, Option.or_none, Option.map_map]
    cases base.templates input.txTemplateCode <;> rfl
  rw [Postings.prepareAll, prepareAllFrom_eq_prepareAll hbodies, prepareAll_eq_ok]

/-- **Nothing is stale**, so the fence leaves the batch as it was prepared. -/
theorem finds_lockInOp (h : ResolvedAll base codes used) (prepared : List PreparedTransaction) :
    Finds base (Postings.lockInOp ids batch codes used prepared)
      (fun locked => locked.2 = prepared) := by
  have hprobe : Finds base (Postings.issue (.lockBalancesAndProbeTemplates
        (sortedDeduped (entryBalanceKeys prepared)) codes))
      (fun locked => locked.2 = TemplateCache.probe (onlyKeys codes (fun code =>
        (base.templates code).map TemplateSessions.newTemplate))) :=
    Finds.issue (fun _ _ db hbase => by rw [← hbase.templates]; rfl)
  unfold Postings.lockInOp
  refine hprobe.bind (fun locked hlocked => ?_)
  have hstale : TemplateCache.stale codes used locked.2 = [] := by
    refine List.filter_eq_nil_iff.mpr (fun code hcode => ?_)
    rw [hlocked, TemplateCache.probe, onlyKeys_of_mem hcode, h.lookup hcode]
    cases base.templates code <;> simp
  dsimp only
  rw [if_pos hstale]
  refine Finds.done ?_
  rintro _ ⟨⟩
  rfl

end Templates

/-! ## Reads -/

/-- The first read is of the administration. -/
structure ReadsFirst (base : LedgerDb) (accountIds : List AccountId) (journalIds : List JournalId)
    (read : PostingState) : Prop where
  seeds : read.seeds
    = base.memberships.memberAccounts.filter (fun row => accountIds.contains row.accountId)
  journals : read.journals = onlyKeys journalIds base.journals
  accounts : read.accounts
    = onlyKeys accountIds (fun id => (base.accounts id).map AccountRow.toMeta)
  controls : read.controls = onlyKeys accountIds base.accountControls

theorem finds_readPostingState {base : LedgerDb} (accountIds : List AccountId)
    (journalIds : List JournalId) (keys : List BalanceKey) :
    Finds base (Postings.issue (.readPostingState accountIds journalIds keys))
      (fun found => found.1 = base.memberships.epoch
        ∧ ReadsFirst base accountIds journalIds found.2) := by
  refine Finds.issue (fun order now db hbase => ?_)
  have hcontrols : onlyKeys accountIds db.accountControls
      = onlyKeys accountIds base.accountControls := by rw [hbase.accountControls]
  have hepoch : db.memberships.epoch = base.memberships.epoch := by rw [hbase.directory]
  refine ⟨hepoch, ?_, ?_, ?_, hcontrols⟩
  all_goals
    rw [← hbase.directory]
    rfl

section Reads

variable {base : LedgerDb} {prepared : List PreparedTransaction} {read : PostingState}

/-- The accounts of the entries, and the journals of the postings, as the flow asks for them. -/
abbrev ReadsEntries (base : LedgerDb) (prepared : List PreparedTransaction) : PostingState → Prop :=
  ReadsFirst base
    (sortedDedup ((prepared.flatMap PreparedTransaction.entries).map EntryValues.accountId))
    (sortedDedup (prepared.map PreparedTransaction.journalId))

variable {posting : PreparedTransaction} {entry : EntryValues}

theorem ReadsFirst.journal (h : ReadsEntries base prepared read) (hposting : posting ∈ prepared) :
    read.journals posting.journalId = base.journals posting.journalId := by
  rw [h.journals, onlyKeys_of_mem (mem_sortedDedup.mpr (List.mem_map_of_mem hposting))]

theorem ReadsFirst.account (h : ReadsEntries base prepared read) (hposting : posting ∈ prepared)
    (hentry : entry ∈ posting.entries) :
    read.accounts entry.accountId = (base.accounts entry.accountId).map AccountRow.toMeta := by
  rw [h.accounts, onlyKeys_of_mem (mem_sortedDedup.mpr (mem_entryAccounts hposting hentry))]

theorem ReadsFirst.control (h : ReadsEntries base prepared read) (hposting : posting ∈ prepared)
    (hentry : entry ∈ posting.entries) :
    read.controls entry.accountId = base.accountControls entry.accountId := by
  rw [h.controls, onlyKeys_of_mem (mem_sortedDedup.mpr (mem_entryAccounts hposting hentry))]

/-- The seeds are the memberships of the entry accounts. -/
theorem ReadsFirst.probes (h : ReadsEntries base prepared read) (hposting : posting ∈ prepared)
    (hentry : entry ∈ posting.entries) :
    Probes base.memberships read.seeds entry.accountId := by
  intro setId
  rw [h.seeds, List.mem_filter, List.contains_iff_mem, mem_sortedDedup,
    and_iff_left (mem_entryAccounts hposting hentry)]

/-- **Validation** checks the stored journals and accounts. -/
theorem ReadsFirst.validates (h : ReadsEntries base prepared read)
    (hvalid : validateFrom read 0 prepared = .ok ()) :
    validateFrom (readFor base prepared) 0 prepared = .ok () := by
  refine (validateFrom_eq_ok prepared).mpr (fun posting hposting => ?_)
  have hposted := (validateFrom_eq_ok prepared).mp hvalid posting hposting
  rw [validatePosting, readFor_journals hposting]
  rw [validatePosting, h.journal hposting] at hposted
  split
  · rename_i hnone
    rw [hnone] at hposted
    exact hposted
  · rename_i journal hjournal
    rw [hjournal] at hposted
    dsimp only at hposted
    split
    · rename_i hlocked
      rwa [if_pos hlocked] at hposted
    · rename_i hopen
      rw [if_neg hopen] at hposted
      refine Foundations.forM_ok_iff.mpr (fun entry hentry => ?_)
      have haccount := Foundations.forM_ok_iff.mp hposted entry hentry
      exact (validateAccount_eq_ok (readFor_accounts hposting hentry)).mpr
        ((validateAccount_eq_ok (h.account hposting hentry)).mp haccount)

end Reads

/-! ## Ancestors -/

section Ancestors

variable {base : LedgerDb} {snapshot : GraphSnapshot} {journalId : JournalId}
  {seeds : List AccountMembership} {entryPairs : List (AccountId × Currency)}

/-- Some mappings are those of the walk, for some accounts. -/
def WalkedPairs (base : LedgerDb) (journalId : JournalId)
    (entryPairs : List (AccountId × Currency)) (mappings : AccountSetMappings) : Prop :=
  ∀ pair ∈ entryPairs,
    (mappings pair.1).Perm (base.memberships.walkMappings journalId pair.1)

theorem finds_walk (journalId : JournalId) (entryPairs : List (AccountId × Currency)) :
    Finds base (Postings.issue (.walkMappingsAndLock journalId entryPairs))
      (WalkedPairs base journalId entryPairs) := by
  refine Finds.issue (fun order now db hbase => ?_)
  rw [WalkedPairs, ← hbase.directory]
  exact (Timeline.walked_walk order now db journalId entryPairs).mappings

theorem finds_fetchOverlay (missing : List AccountSetId) :
    Finds base (Postings.fetchOverlay missing)
      (fun overlay => ∀ nodes ∈ overlay, nodes.Holds base.toLedgerDirectory) := by
  unfold Postings.fetchOverlay
  split
  · refine Finds.done ?_
    rintro _ ⟨⟩ nodes hnodes
    cases hnodes
  · have hnodes : Finds base (Postings.issue (.fetchSetGraphNodes missing))
        (fun nodes => nodes = base.toLedgerDirectory.setGraphNodes missing) :=
      Finds.issue (fun _ _ db hbase => by rw [← hbase.directory]; rfl)
    refine hnodes.bind ?_
    rintro _ rfl
    refine Finds.done ?_
    rintro _ ⟨⟩ nodes ⟨⟩
    exact SetGraphCache.holds_indexNodes base.toLedgerDirectory missing

/-- **Every way to resolve** finds what the walk finds, where the snapshot holds the stored graph
whenever it is of the stored epoch. -/
theorem finds_resolveFromProbeInOp (hlinked : base.toLedgerDirectory.Linked)
    (hsnapshot : snapshot.epoch = base.memberships.epoch → snapshot.Holds base.toLedgerDirectory)
    (hseeds : ∀ pair ∈ entryPairs, Probes base.memberships seeds pair.1) :
    Finds base (Postings.resolveFromProbeInOp snapshot journalId base.memberships.epoch seeds
      entryPairs) (WalkedPairs base journalId entryPairs) := by
  unfold Postings.resolveFromProbeInOp
  split
  · rename_i hnone
    rw [hnone] at hseeds
    refine Finds.done ?_
    rintro _ ⟨⟩
    exact (Timeline.walked_nothing hseeds).mappings
  split
  · exact finds_walk journalId entryPairs
  · rename_i hepoch
    refine (finds_fetchOverlay _).bind (fun overlay hoverlay => ?_)
    split
    · rename_i mappings lockPairs hexpand
      refine (Finds.any _).bind (fun _ _ => Finds.done ?_)
      rintro _ ⟨⟩ pair hpair
      have hagrees : Agrees snapshot overlay base.toLedgerDirectory :=
        ⟨hsnapshot (not_not.mp hepoch), hoverlay⟩
      exact (hagrees.expand_eq_walk hlinked hexpand).1 pair.1 (hseeds pair hpair)
    · exact finds_walk journalId entryPairs

variable {prepared : List PreparedTransaction}

/-- The postings of some journals have been walked, and some journals are still to come. -/
structure Walking (base : LedgerDb) (prepared : List PreparedTransaction)
    (journals : List JournalId) (found : AncestorMappings × List BalanceKey) : Prop where
  pending : ∀ journalId ∈ journals, found.1 journalId = fun _ => []
  distinct : journals.Nodup
  walked : ∀ posting ∈ prepared, posting.journalId ∉ journals → ∀ entry ∈ posting.entries,
    (found.1 posting.journalId entry.accountId).Perm
      (base.memberships.walkMappings posting.journalId entry.accountId)
  covers : CoversAncestors prepared found

/-- The body of the journal loop. -/
theorem finds_resolveJournal {graph : JournalId → GraphSnapshot}
    (hlinked : base.toLedgerDirectory.Linked)
    (hgraph : ∀ journalId, (graph journalId).epoch = base.memberships.epoch →
      (graph journalId).Holds base.toLedgerDirectory)
    (hseeds : ∀ posting ∈ prepared, ∀ entry ∈ posting.entries,
      Probes base.memberships seeds entry.accountId)
    (journalId : JournalId) (journals : List JournalId) (found : AncestorMappings × List BalanceKey)
    (h : Walking base prepared (journalId :: journals) found) :
    Finds base (Postings.resolveJournal graph prepared base.memberships.epoch seeds found journalId)
      (Walking base prepared journals) := by
  obtain ⟨hnew, hdistinct⟩ := List.nodup_cons.mp h.distinct
  have hpair : ∀ posting ∈ prepared, posting.journalId = journalId → ∀ entry ∈ posting.entries,
      (entry.accountId, entry.currency) ∈ Postings.entryPairs prepared journalId := by
    intro posting hposting hjournal entry hentry
    refine List.mem_dedup.mpr (List.mem_flatMap.mpr ⟨posting, ?_, ?_⟩)
    · exact List.mem_filter.mpr ⟨hposting, decide_eq_true hjournal⟩
    · exact List.mem_map.mpr ⟨entry, hentry, rfl⟩
  unfold Postings.resolveJournal
  split
  · -- no entries in this journal
    rename_i hnone
    refine Finds.done ?_
    rintro _ ⟨⟩
    refine ⟨fun own hown => h.pending own (List.mem_cons_of_mem _ hown), hdistinct, ?_, h.covers⟩
    intro posting hposting hdone entry hentry
    by_cases hjournal : posting.journalId = journalId
    · have hmem := hpair posting hposting hjournal entry hentry
      rw [hnone] at hmem
      exact (List.not_mem_nil hmem).elim
    · exact h.walked posting hposting (fun hmem => (List.mem_cons.mp hmem).elim hjournal hdone)
        entry hentry
  · have hprobes : ∀ pair ∈ Postings.entryPairs prepared journalId,
        Probes base.memberships seeds pair.1 := by
      intro pair hmem
      obtain ⟨posting, hposting, hmem⟩ := List.mem_flatMap.mp (List.mem_dedup.mp hmem)
      obtain ⟨entry, hentry, rfl⟩ := List.mem_map.mp hmem
      exact hseeds posting (List.mem_filter.mp hposting).1 entry hentry
    refine (finds_resolveFromProbeInOp hlinked (hgraph journalId) hprobes).bind
      (fun resolved hresolved => Finds.done ?_)
    rintro _ ⟨⟩
    refine ⟨fun own hown => ?_, hdistinct, ?_, h.covers.update journalId resolved⟩
    · have hother : own ≠ journalId := fun hsame => hnew (hsame ▸ hown)
      dsimp only
      rw [Function.update_of_ne hother]
      exact h.pending own (List.mem_cons_of_mem _ hown)
    · intro posting hposting hdone entry hentry
      by_cases hjournal : posting.journalId = journalId
      · -- nothing was found of this journal before
        have hwalked := hresolved _ (hpair posting hposting hjournal entry hentry)
        dsimp only
        rw [hjournal, Function.update_self, h.pending journalId List.mem_cons_self]
        exact hwalked
      · dsimp only
        rw [Function.update_of_ne hjournal]
        exact h.walked posting hposting
          (fun hmem => (List.mem_cons.mp hmem).elim hjournal hdone) entry hentry

/-- What the ancestor phase returns is of the administration, as far as the postings look. -/
structure ReadsTargets (base : LedgerDb) (prepared : List PreparedTransaction)
    (found : AncestorMappings × PostingState) : Prop where
  walked : ∀ posting ∈ prepared, ∀ entry ∈ posting.entries,
    (found.1 posting.journalId entry.accountId).Perm
      (base.memberships.walkMappings posting.journalId entry.accountId)
  journals : ∀ posting ∈ prepared,
    found.2.journals posting.journalId = base.journals posting.journalId
  accounts : ∀ posting ∈ prepared, ∀ entry ∈ posting.entries,
    ∀ accountId ∈ inlineTargets (found.1 posting.journalId) entry,
      found.2.accounts accountId = (base.accounts accountId).map AccountRow.toMeta
  controls : ∀ posting ∈ prepared, ∀ entry ∈ posting.entries,
    ∀ accountId ∈ inlineTargets (found.1 posting.journalId) entry,
      found.2.controls accountId = base.accountControls accountId
  unlocked : ∀ posting ∈ prepared, ∀ entry ∈ posting.entries,
    ∀ setId ∈ base.memberships.walkMappings posting.journalId entry.accountId,
      ¬ base.accounts.locked (AccountId.ofSet setId)

/-- Without ancestors the first read is enough. -/
theorem ReadsFirst.targets {read : PostingState} {mappings : AncestorMappings}
    (h : ReadsEntries base prepared read)
    (hnone : ∀ posting ∈ prepared, ∀ entry ∈ posting.entries,
      mappings posting.journalId entry.accountId = []
        ∧ base.memberships.walkMappings posting.journalId entry.accountId = []) :
    ReadsTargets base prepared (mappings, read) := by
  have hown : ∀ posting ∈ prepared, ∀ entry ∈ posting.entries,
      ∀ accountId ∈ inlineTargets (mappings posting.journalId) entry,
        accountId = entry.accountId := by
    intro posting hposting entry hentry accountId htarget
    rw [inlineTargets, (hnone posting hposting entry hentry).1] at htarget
    exact List.mem_singleton.mp htarget
  constructor
  · intro posting hposting entry hentry
    show (mappings posting.journalId entry.accountId).Perm _
    rw [(hnone posting hposting entry hentry).1, (hnone posting hposting entry hentry).2]
  · exact fun posting hposting => h.journal hposting
  · intro posting hposting entry hentry accountId htarget
    rw [hown posting hposting entry hentry accountId htarget]
    exact h.account hposting hentry
  · intro posting hposting entry hentry accountId htarget
    rw [hown posting hposting entry hentry accountId htarget]
    exact h.control hposting hentry
  · intro posting hposting entry hentry setId hset
    rw [(hnone posting hposting entry hentry).2] at hset
    cases hset

/-- **The ancestor phase** returns what the walk and the tables have, and refuses locked
ancestors. -/
theorem finds_resolveAncestors {graph : JournalId → GraphSnapshot} {read : PostingState}
    (hlinked : base.toLedgerDirectory.Linked)
    (hgraph : ∀ journalId, (graph journalId).epoch = base.memberships.epoch →
      (graph journalId).Holds base.toLedgerDirectory)
    (hread : ReadsEntries base prepared read) :
    Finds base (Postings.resolveAncestors graph prepared base.memberships.epoch read)
      (ReadsTargets base prepared) := by
  unfold Postings.resolveAncestors
  split
  · rename_i hnone
    refine Finds.done ?_
    rintro _ ⟨⟩
    refine hread.targets (fun posting hposting entry hentry => ⟨rfl, ?_⟩)
    have hprobes := hread.probes hposting hentry
    rw [hnone] at hprobes
    refine walkMappings_of_no_seed (fun row hrow haccount => ?_) _
    rw [← haccount] at hprobes
    exact List.not_mem_nil ((hprobes row.accountSetId).mpr hrow)
  · have hstart : Walking base prepared (sortedDedup (prepared.map PreparedTransaction.journalId))
        (fun _ _ => [], []) := by
      refine ⟨fun _ _ => rfl, nodup_sortedDedup _, fun posting hposting hdone => ?_,
        coversAncestors_nil []⟩
      exact (hdone (mem_sortedDedup.mpr (List.mem_map_of_mem hposting))).elim
    refine (Finds.foldEach (Walking base prepared)
      (fun journalId journals found => finds_resolveJournal hlinked hgraph
        (fun posting hposting entry hentry => hread.probes hposting hentry) journalId journals
          found)
      _ _ hstart).bind (fun found hfound => ?_)
    obtain ⟨mappings, keys⟩ := found
    have hwalked : ∀ posting ∈ prepared, ∀ entry ∈ posting.entries,
        (mappings posting.journalId entry.accountId).Perm
          (base.memberships.walkMappings posting.journalId entry.accountId) :=
      fun posting hposting => hfound.walked posting hposting List.not_mem_nil
    dsimp only
    split
    · rename_i hnone
      refine Finds.done ?_
      rintro _ ⟨⟩
      refine hread.targets (fun posting hposting entry hentry => ?_)
      have hnil : mappings posting.journalId entry.accountId = [] := by
        rw [List.eq_nil_iff_forall_not_mem]
        intro setId hset
        have hkey := hfound.covers posting hposting entry hentry setId hset
        rw [show keys = [] from hnone] at hkey
        exact List.not_mem_nil hkey
      have hperm := hwalked posting hposting entry hentry
      rw [hnil] at hperm
      exact ⟨hnil, hperm.nil_eq.symm⟩
    · set ancestorIds := sortedDedup (keys.map BalanceKey.accountId) with hids
      have hsupplemental : Finds base
          (Postings.issue (.readAncestorState ancestorIds (sortedDeduped keys)))
          (fun supplemental => supplemental.accounts
              = onlyKeys ancestorIds (fun id => (base.accounts id).map AccountRow.toMeta)
            ∧ supplemental.controls = onlyKeys ancestorIds base.accountControls) := by
        refine Finds.issue (fun _ _ db hbase => ?_)
        rw [← hbase.directory, ← hbase.accountControls]
        exact ⟨rfl, rfl⟩
      refine hsupplemental.bind ?_
      rintro supplemental ⟨haccounts, hcontrols⟩
      have hancestor : ∀ posting ∈ prepared, ∀ entry ∈ posting.entries,
          ∀ setId ∈ mappings posting.journalId entry.accountId,
            AccountId.ofSet setId ∈ ancestorIds := by
        intro posting hposting entry hentry setId hset
        have hkey := hfound.covers posting hposting entry hentry setId hset
        exact mem_sortedDedup.mpr (List.mem_map_of_mem (f := BalanceKey.accountId) hkey)
      -- a target was looked for by one of the two reads
      have hasked : ∀ posting ∈ prepared, ∀ entry ∈ posting.entries,
          ∀ accountId ∈ inlineTargets (mappings posting.journalId) entry,
            accountId ∈ ancestorIds ∨ accountId ∈ sortedDedup
              ((prepared.flatMap PreparedTransaction.entries).map EntryValues.accountId) := by
        intro posting hposting entry hentry accountId htarget
        rcases List.mem_append.mp htarget with hset | hown
        · obtain ⟨setId, hmapped, rfl⟩ := List.mem_map.mp hset
          exact Or.inl (hancestor posting hposting entry hentry setId hmapped)
        · rw [List.mem_singleton.mp hown]
          exact Or.inr (mem_sortedDedup.mpr (mem_entryAccounts hposting hentry))
      have hextended : ∀ posting ∈ prepared, ∀ entry ∈ posting.entries,
          ∀ accountId ∈ inlineTargets (mappings posting.journalId) entry,
            (read.extend supplemental).accounts accountId
              = (base.accounts accountId).map AccountRow.toMeta := by
        intro posting hposting entry hentry accountId htarget
        show (supplemental.accounts accountId).or (read.accounts accountId) = _
        rw [haccounts, hread.accounts]
        exact or_onlyKeys (hasked posting hposting entry hentry accountId htarget)
      split
      · exact Finds.done (fun _ h => by cases h)
      · rename_i hfind
        refine Finds.done ?_
        rintro _ ⟨⟩
        refine ⟨hwalked, fun posting hposting => hread.journal hposting, hextended, ?_, ?_⟩
        · intro posting hposting entry hentry accountId htarget
          show (supplemental.controls accountId).or (read.controls accountId) = _
          rw [hcontrols, hread.controls]
          exact or_onlyKeys (hasked posting hposting entry hentry accountId htarget)
        · intro posting hposting entry hentry setId hset hlocked
          have hmapped := (hwalked posting hposting entry hentry).mem_iff.mpr hset
          have htarget : AccountId.ofSet setId ∈ inlineTargets (mappings posting.journalId) entry :=
            List.mem_append_left _ (List.mem_map_of_mem hmapped)
          refine List.find?_eq_none.mp hfind _
            (hancestor posting hposting entry hentry setId hmapped) ?_
          rw [hextended posting hposting entry hentry _ htarget]
          obtain ⟨row, hrow, hstatus⟩ := Option.map_eq_some_iff.mp hlocked
          rw [hrow]
          simp [AccountRow.toMeta, hstatus]

end Ancestors

/-! ## Prepared batches -/

section Prepared

variable {base : LedgerDb} {graph : JournalId → GraphSnapshot} {prepared : List PreparedTransaction}

/-- The velocity check goes through when every target matches. -/
theorem finds_enforceBatchInOp (display : JsonDisplay) (now : Timestamp)
    (postings : List HydratedPosting) (controls : ControlTable) (mappings : AncestorMappings) :
    Finds base (Postings.enforceBatchInOp display now postings controls mappings)
      (fun _ => ∀ target ∈ batchTargets mappings postings,
        Foundations.Succeeds (matchTarget controls target)) := by
  unfold Postings.enforceBatchInOp
  have hcollected : Finds base (.done ((collectBalancesToCheck controls mappings postings).mapError
        PostingError.velocityError))
      (fun _ => ∀ target ∈ batchTargets mappings postings,
        Foundations.Succeeds (matchTarget controls target)) := by
    refine Finds.done (fun matched hmatched => ?_)
    exact (collectBalancesToCheck_eq_ok.mp (Foundations.mapError_eq_ok.mp hmatched)).1
  exact hcollected.bind (fun matched hall => (Finds.any _).weaken (fun _ _ => hall))

/-- A prepared batch is posted under what the tables have. -/
structure PostableUnder (base : LedgerDb) (now : Timestamp) (prepared : List PreparedTransaction)
    (found : AncestorMappings × PostingState) : Prop where
  targets : ReadsTargets base prepared found
  valid : validateFrom (readFor base prepared) 0 prepared = .ok ()
  matchable : ∀ target ∈ batchTargets found.1 (hydrate now prepared),
    Foundations.Succeeds (matchTarget found.2.controls target)

/-- **From the read to the insert**, a batch is posted under what the tables have. -/
theorem finds_settlePreparedInOp (hlinked : base.toLedgerDirectory.Linked)
    (hgraph : ∀ journalId, (graph journalId).epoch = base.memberships.epoch →
      (graph journalId).Holds base.toLedgerDirectory)
    (display : JsonDisplay) (now : Timestamp) (prepared : List PreparedTransaction) :
    Finds base (Postings.settlePreparedInOp graph display now prepared)
      (PostableUnder base now prepared) := by
  unfold Postings.settlePreparedInOp
  refine (finds_readPostingState _ _ _).bind ?_
  rintro ⟨epoch, read⟩ ⟨rfl, hread⟩
  have hvalid : Finds base (.done (validateFrom read 0 prepared))
      (fun _ => validateFrom (readFor base prepared) 0 prepared = .ok ()) :=
    Finds.done (fun _ hvalid => ReadsFirst.validates hread hvalid)
  refine hvalid.bind (fun _ hvalid => ?_)
  refine (finds_resolveAncestors hlinked hgraph hread).bind (fun found htargets => ?_)
  obtain ⟨mappings, read⟩ := found
  refine (finds_enforceBatchInOp display now _ _ _).bind (fun _ hmatchable => ?_)
  refine (Finds.any _).bind (fun _ _ => Finds.done ?_)
  rintro _ ⟨⟩
  exact ⟨htargets, hvalid, hmatchable⟩

end Prepared

end CalaLedger
