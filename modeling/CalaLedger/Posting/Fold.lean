import CalaLedger.Posting.Prepare

/-! # What a batch folds

The three computations of the flow, each told as what it does to one balance: the settled snapshots
(`foldBalances_spells`), the velocity check (`enforceBatchInOp_inline`) and the effective updates
(`updateEffectiveBalances_eq`). The order in which a walk returns the ancestors of an account plays
no part in any of them. -/

namespace CalaLedger

open Foundations (VersionedTable)

/-- The entries a posting brings to a balance kept inline, stamped with the time of the
operation. -/
def inlineEvents (directory : LedgerDirectory) (now : Timestamp) (posting : HydratedPosting)
    (key : BalanceKey) : List TimedEntry :=
  if key.journalId = posting.1.journalId ∧ directory.accounts.consistency false key.accountId then
    (hits (inlineTargets (directory.memberships.walkMappings key.journalId)) key.accountId
      key.currency posting.2).map (fun entry => (now, entry))
  else
    []

/-- What a batch brings to a balance kept inline. -/
def batchEvents (directory : LedgerDirectory) (now : Timestamp) (postings : List HydratedPosting)
    (key : BalanceKey) : List TimedEntry :=
  postings.flatMap (fun posting => inlineEvents directory now posting key)

theorem batchEvents_append (directory : LedgerDirectory) (now : Timestamp)
    (front back : List HydratedPosting) (key : BalanceKey) :
    batchEvents directory now (front ++ back) key
      = batchEvents directory now front key ++ batchEvents directory now back key :=
  List.flatMap_append

section Order

variable {order : RowOrder} {directory : LedgerDirectory}

variable (directory) in
/-- A walk's order does not show in the targets that are one account. -/
theorem inlineTargets_walk_filter {journalId : JournalId} {mappings : AccountSetMappings}
    {entry : EntryValues} (hmappings : mappings entry.accountId
      = order.walk entry.accountId (directory.memberships.walkMappings journalId entry.accountId))
    (accountId : AccountId) :
    (inlineTargets mappings entry).filter (· = accountId)
      = (inlineTargets (directory.memberships.walkMappings journalId) entry).filter
          (· = accountId) := by
  have hperm : ((mappings entry.accountId).map AccountId.ofSet).Perm
      ((directory.memberships.walkMappings journalId entry.accountId).map AccountId.ofSet) := by
    rw [hmappings]
    exact (order.walk_perm _ _).map _
  unfold inlineTargets
  rw [List.filter_append, List.filter_append]
  refine congrArg (· ++ _) ?_
  -- a permutation of copies of one account is equal to it
  rw [List.filter_eq, List.filter_eq, hperm.count_eq]

variable (directory) in
theorem mem_inlineTargets_walk {journalId : JournalId} {mappings : AccountSetMappings}
    {entry : EntryValues} (hmappings : mappings entry.accountId
      = order.walk entry.accountId (directory.memberships.walkMappings journalId entry.accountId))
    {accountId : AccountId} :
    accountId ∈ inlineTargets mappings entry
      ↔ accountId ∈ inlineTargets (directory.memberships.walkMappings journalId) entry := by
  have h := inlineTargets_walk_filter directory hmappings accountId
  have hmem : ∀ l : List AccountId, accountId ∈ l ↔ accountId ∈ l.filter (· = accountId) := by
    intro l
    simp
  rw [hmem, h, ← hmem]

end Order

section Fold

variable {order : RowOrder} {db : LedgerDb} {prepared : List PreparedTransaction}
  {mappings : AncestorMappings} {read : PostingState}

/-- Where the read covers the postings, the flow maintains the inline accounts. -/
theorem Covers.involves (h : Covers order db prepared mappings read)
    {posting : PreparedTransaction} (hposting : posting ∈ prepared) {entry : EntryValues}
    (hentry : entry ∈ posting.entries) {accountId : AccountId}
    (htarget : accountId ∈ inlineTargets (mappings posting.journalId) entry) :
    read.involves accountId = true ↔ db.accounts.consistency false accountId := by
  rw [PostingState.involves, h.accounts posting hposting entry hentry accountId htarget,
    AccountTable.consistency]
  cases db.accounts accountId with
  | none => simp
  | some row => simp [AccountRow.toMeta]

/-- Snapshots journal by journal spell out what each journal's balances receive. -/
theorem spellsFrom_flatMap {base : BalanceKey → Option BalanceSnapshot}
    {events : BalanceKey → List TimedEntry} {snapshots : JournalId → List BalanceSnapshot}
    (journals : List JournalId) (hnodup : journals.Nodup)
    (h : ∀ journalId ∈ journals,
      SpellsFrom base (fun key => if key.journalId = journalId then events key else [])
        (snapshots journalId)) :
    SpellsFrom base (fun key => if key.journalId ∈ journals then events key else [])
      (journals.flatMap snapshots) := by
  induction journals with
  | nil =>
      intro key
      simp
  | cons journalId journals ih =>
      intro key
      obtain ⟨hnew, hnodup⟩ := List.nodup_cons.mp hnodup
      obtain ⟨hfirst, hrest⟩ := List.forall_mem_cons.mp h
      have hrest := ih hnodup hrest key
      rw [List.flatMap_cons, List.filter_append, hfirst key, hrest]
      dsimp only
      by_cases hkey : key.journalId = journalId
      · have hout : key.journalId ∉ journals := fun hmem => hnew (hkey ▸ hmem)
        rw [if_pos hkey, if_neg hout, VersionedTable.run_nil, List.append_nil,
          if_pos (hkey ▸ List.mem_cons_self)]
      · rw [if_neg hkey, VersionedTable.run_nil, List.nil_append]
        simp [hkey]

/-- The entries the fold brings to a balance, of the accounts it maintains. -/
def foldedEvents (involves : AccountId → Bool) (mappings : AncestorMappings) (now : Timestamp)
    (postings : List HydratedPosting) (key : BalanceKey) : List TimedEntry :=
  if involves key.accountId then
    (hits (inlineTargets (mappings key.journalId)) key.accountId key.currency
      ((postings.filter (fun posting => posting.1.journalId = key.journalId)).flatMap Prod.snd)).map
        (fun entry => (now, entry))
  else []

/-- The entries the fold brings to a balance are of its journal and currency, and have it among
their targets. -/
theorem mem_foldedEvents {involves : AccountId → Bool} {mappings : AncestorMappings}
    {now : Timestamp} {postings : List HydratedPosting} {key : BalanceKey} {timed : TimedEntry} :
    timed ∈ foldedEvents involves mappings now postings key
      ↔ involves key.accountId = true ∧ timed.1 = now
        ∧ (∃ posting ∈ postings, posting.1.journalId = key.journalId ∧ timed.2 ∈ posting.2)
        ∧ timed.2.currency = key.currency
        ∧ key.accountId ∈ inlineTargets (mappings key.journalId) timed.2 := by
  have hentries : ∀ entry, entry ∈ (postings.filter
        (fun posting => posting.1.journalId = key.journalId)).flatMap Prod.snd
      ↔ ∃ posting ∈ postings, posting.1.journalId = key.journalId ∧ entry ∈ posting.2 := by
    intro entry
    simp [List.mem_flatMap, and_assoc]
  unfold foldedEvents
  by_cases hinvolves : involves key.accountId
  · rw [if_pos hinvolves, List.mem_map]
    constructor
    · rintro ⟨entry, hentry, rfl⟩
      obtain ⟨hmem, hcurrency, htarget⟩ := (mem_hits _ _ _).mp hentry
      exact ⟨hinvolves, rfl, (hentries entry).mp hmem, hcurrency, htarget⟩
    · rintro ⟨-, rfl, hmem, hcurrency, htarget⟩
      exact ⟨timed.2, (mem_hits _ _ _).mpr ⟨(hentries _).mpr hmem, hcurrency, htarget⟩, rfl⟩
  · rw [if_neg hinvolves]
    exact iff_of_false List.not_mem_nil (fun h => hinvolves h.1)

/-- **The settled fold** spells out, from the balances that were read, the entries it brings to the
accounts it maintains. -/
theorem foldBalances_spellsFrom {postings : List HydratedPosting} {read : PostingState}
    {mappings : AncestorMappings} {now : Timestamp}
    (hentries : ∀ posting ∈ postings, ∀ entry ∈ posting.2, entry.journalId = posting.1.journalId)
    (hread : ∀ key, foldedEvents read.involves mappings now postings key ≠ [] →
      ∀ s ∈ read.balances key, s.key = key) :
    SpellsFrom read.balances (foldedEvents read.involves mappings now postings)
      (foldBalances postings read mappings now) := by
  set events := foldedEvents read.involves mappings now postings with hevents
  have hkeyed : KeyedEvents events := by
    intro key timed htimed
    obtain ⟨-, -, ⟨posting, hposting, hjournal, hentry⟩, hcurrency, -⟩ := mem_foldedEvents.mp htimed
    exact ⟨(hentries posting hposting _ hentry).trans hjournal, hcurrency⟩
  have hjournals : events = fun key =>
      if key.journalId ∈ sortedDedup (postings.map (fun posting => posting.1.journalId)) then
        events key
      else [] := by
    funext key
    split
    · rfl
    · rename_i hout
      by_contra hsome
      obtain ⟨timed, htimed⟩ := List.exists_mem_of_ne_nil _ hsome
      obtain ⟨-, -, ⟨posting, hposting, hjournal, -⟩, -, -⟩ := mem_foldedEvents.mp htimed
      exact hout (mem_sortedDedup.mpr (hjournal ▸ List.mem_map_of_mem hposting))
  rw [hjournals, foldBalances]
  refine spellsFrom_flatMap _ (nodup_sortedDedup _) (fun journalId _ => ?_)
  -- one journal
  set entries := (postings.filter (fun posting => posting.1.journalId = journalId)).flatMap Prod.snd
    with hall
  have hone : ∀ accountId currency, events ⟨journalId, accountId, currency⟩
      = if read.involves accountId then
          (hits (inlineTargets (mappings journalId)) accountId currency entries).map
            (fun entry => (now, entry))
        else [] := fun _ _ => rfl
  have hreached : ∀ accountId currency, (accountId, currency) ∈
        (reached (inlineTargets (mappings journalId)) entries).filter
          (fun pair => read.involves pair.1)
      ↔ events ⟨journalId, accountId, currency⟩ ≠ [] := by
    intro accountId currency
    rw [List.mem_filter, mem_reached, hone]
    by_cases hinvolves : read.involves accountId <;> simp [hinvolves]
  have hloaded : LoadedByKey (Foundations.ofKeys
      ((reached (inlineTargets (mappings journalId)) entries).filter (fun pair => read.involves pair.1))
      (fun pair => read.balances ⟨journalId, pair.1, pair.2⟩)) := by
    rintro ⟨accountId, currency⟩ s hs
    rw [Foundations.lookup_ofKeys] at hs
    split at hs
    · rename_i hmem
      have hkey := hread _ ((hreached accountId currency).mp hmem) s (Option.some.inj hs)
      exact Prod.ext (congrArg BalanceKey.accountId hkey) (congrArg BalanceKey.currency hkey)
    · cases hs
  refine spellsFrom_of_ofKey journalId ?_ ?_ (fun key hkey => if_neg hkey)
    (fun accountId currency => ?_)
  · intro key timed htimed
    dsimp only at htimed
    split at htimed
    · exact hkeyed key timed htimed
    · cases htimed
  · intro key hsome
    split at hsome
    · exact hread key hsome
    · exact (hsome rfl).elim
  · rw [fromEntries, fold_filter_key now hloaded, Foundations.lookup_ofKeys]
    simp only [if_true]
    by_cases hnone : events ⟨journalId, accountId, currency⟩ = []
    · rw [if_neg (fun hmem => (hreached accountId currency).mp hmem hnone), hnone]
      rfl
    · rw [if_pos ((hreached accountId currency).mpr hnone), SnapshotFold.keySnapshots,
        chain_eq_run now ⟨journalId, accountId, currency⟩]
      refine congrArg _ ?_
      rw [hone] at hnone ⊢
      by_cases hinvolves : read.involves accountId
      · rw [if_pos hinvolves]
      · rw [if_neg hinvolves] at hnone
        exact (hnone rfl).elim

/-- The entries of a journal's postings. -/
theorem mem_journalEntries {now : Timestamp} {journalId : JournalId} {entry : EntryValues} :
    entry ∈ ((hydrate now prepared).filter
        (fun posting => posting.1.journalId = journalId)).flatMap Prod.snd
      ↔ ∃ posting ∈ prepared, posting.journalId = journalId ∧ entry ∈ posting.entries := by
  rw [List.mem_flatMap]
  constructor
  · rintro ⟨hydrated, hmem, hentry⟩
    obtain ⟨hmem, hjournal⟩ := List.mem_filter.mp hmem
    obtain ⟨posting, hposting, rfl⟩ := List.mem_map.mp hmem
    exact ⟨posting, hposting, of_decide_eq_true hjournal, hentry⟩
  · rintro ⟨posting, hposting, hjournal, hentry⟩
    exact ⟨_, List.mem_filter.mpr ⟨List.mem_map_of_mem hposting, decide_eq_true hjournal⟩, hentry⟩

/-- The batch's events of a balance, journal first. -/
theorem batchEvents_eq (directory : LedgerDirectory) (now : Timestamp)
    (postings : List HydratedPosting) (key : BalanceKey) :
    batchEvents directory now postings key
      = if directory.accounts.consistency false key.accountId then
          (hits (inlineTargets (directory.memberships.walkMappings key.journalId)) key.accountId
            key.currency ((postings.filter
              (fun posting => posting.1.journalId = key.journalId)).flatMap Prod.snd)).map
            (fun entry => (now, entry))
        else [] := by
  induction postings with
  | nil => simp [batchEvents]
  | cons posting postings ih =>
      have hcons : batchEvents directory now (posting :: postings) key
          = inlineEvents directory now posting key ++ batchEvents directory now postings key :=
        List.flatMap_cons
      rw [hcons, ih, inlineEvents]
      by_cases hmode : directory.accounts.consistency false key.accountId
      · by_cases hjournal : posting.1.journalId = key.journalId
        · simp [hmode, hjournal, hits_append]
        · simp [hmode, hjournal, Ne.symm hjournal]
      · simp [hmode]

/-- Entries of their posting's journal make events of that journal. -/
theorem keyedEvents_batchEvents {directory : LedgerDirectory}
    (hentries : ∀ posting ∈ prepared, ∀ entry ∈ posting.entries,
      entry.journalId = posting.journalId) (now : Timestamp) :
    KeyedEvents (batchEvents directory now (hydrate now prepared)) := by
  intro key timed htimed
  rw [batchEvents_eq] at htimed
  split at htimed
  · obtain ⟨entry, hentry, rfl⟩ := List.mem_map.mp htimed
    obtain ⟨hmem, hcurrency, -⟩ := (mem_hits _ _ _).mp hentry
    obtain ⟨posting, hposting, hjournal, hmem⟩ := mem_journalEntries.mp hmem
    exact ⟨(hentries posting hposting entry hmem).trans hjournal, hcurrency⟩
  · cases htimed

/-- **The settled fold of a batch** spells out, balance by balance, the entries its postings bring
in input order. -/
theorem foldBalances_spells (h : Covers order db prepared mappings read)
    (hwf : db.balances.WellFormed)
    (hentries : ∀ posting ∈ prepared, ∀ entry ∈ posting.entries,
      entry.journalId = posting.journalId) (now : Timestamp) :
    Spells db.balances (batchEvents db.toLedgerDirectory now (hydrate now prepared))
      (foldBalances (hydrate now prepared) read mappings now) := by
  set postings := hydrate now prepared with hpostings
  -- an entry that has the balance among its targets was read for it
  have htargeted : ∀ key, ∀ entry ∈ (postings.filter
        (fun posting => posting.1.journalId = key.journalId)).flatMap Prod.snd,
      entry.currency = key.currency → key.accountId ∈ inlineTargets (mappings key.journalId) entry →
      read.balances key = db.balances.value key
        ∧ (read.involves key.accountId = true ↔ db.accounts.consistency false key.accountId) := by
    intro key entry hmem hcurrency htarget
    obtain ⟨posting, hposting, hjournal, hentry⟩ := mem_journalEntries.mp hmem
    rw [← hjournal] at htarget
    have hbalance := h.balances posting hposting entry hentry key.accountId htarget
    rw [hjournal, hcurrency] at hbalance
    exact ⟨hbalance, h.involves hposting hentry htarget⟩
  have hsame : ∀ key, foldedEvents read.involves mappings now postings key
      = batchEvents db.toLedgerDirectory now postings key := by
    intro key
    have hhits : hits (inlineTargets (mappings key.journalId)) key.accountId key.currency
          ((postings.filter (fun posting => posting.1.journalId = key.journalId)).flatMap Prod.snd)
        = hits (inlineTargets (db.memberships.walkMappings key.journalId)) key.accountId key.currency
          ((postings.filter (fun posting => posting.1.journalId = key.journalId)).flatMap
            Prod.snd) := by
      refine hits_congr _ _ _ (fun entry hmem => ?_)
      obtain ⟨posting, hposting, hjournal, hentry⟩ := mem_journalEntries.mp hmem
      rw [← hjournal]
      exact inlineTargets_walk_filter db.toLedgerDirectory
        (h.walked posting hposting entry hentry) key.accountId
    rw [batchEvents_eq, foldedEvents, ← hhits]
    by_cases hnone : hits (inlineTargets (mappings key.journalId)) key.accountId key.currency
        ((postings.filter (fun posting => posting.1.journalId = key.journalId)).flatMap Prod.snd) = []
    · rw [hnone]
      split <;> split <;> rfl
    · obtain ⟨entry, hhit⟩ := List.exists_mem_of_ne_nil _ hnone
      obtain ⟨hmem, hcurrency, htarget⟩ := (mem_hits _ _ _).mp hhit
      obtain ⟨-, hinvolves⟩ := htargeted key entry hmem hcurrency htarget
      by_cases hmode : db.accounts.consistency false key.accountId
      · rw [if_pos (hinvolves.mpr hmode), if_pos hmode]
      · rw [if_neg (mt hinvolves.mp hmode), if_neg hmode]
  have hread : ∀ key, foldedEvents read.involves mappings now postings key ≠ [] →
      read.balances key = db.balances.value key := by
    intro key hsome
    obtain ⟨timed, htimed⟩ := List.exists_mem_of_ne_nil _ hsome
    obtain ⟨-, -, ⟨posting, hposting, hjournal, hentry⟩, hcurrency, htarget⟩ :=
      mem_foldedEvents.mp htimed
    refine (htargeted key timed.2 (List.mem_flatMap.mpr ⟨posting, ?_, hentry⟩) hcurrency htarget).1
    exact List.mem_filter.mpr ⟨hposting, decide_eq_true hjournal⟩
  have hjournal : ∀ posting ∈ postings, ∀ entry ∈ posting.2,
      entry.journalId = posting.1.journalId := by
    intro hydrated hmem entry hentry
    obtain ⟨posting, hposting, rfl⟩ := List.mem_map.mp hmem
    exact hentries posting hposting entry hentry
  have hspells : SpellsFrom read.balances (foldedEvents read.involves mappings now postings)
      (foldBalances postings read mappings now) := by
    refine foldBalances_spellsFrom hjournal (fun key hsome s hs => ?_)
    rw [hread key hsome] at hs
    exact hwf.value_keyed hs
  intro key
  rw [hspells key, hsame]
  by_cases hnone : batchEvents db.toLedgerDirectory now postings key = []
  · rw [hnone]
    rfl
  · rw [hread key (by rw [hsame]; exact hnone)]

end Fold

/-! ## Velocity -/

section Velocity

variable {order : RowOrder} {db : LedgerDb} {prepared : List PreparedTransaction}
  {mappings : AncestorMappings} {read : PostingState} {now : Timestamp}

/-- The targets of a batch that are one account, entry by entry. -/
theorem batchTargets_filter (mappings : AncestorMappings) (postings : List HydratedPosting)
    (accountId : AccountId) :
    (batchTargets mappings postings).filter (fun target => target.accountId = accountId)
      = postings.flatMap (fun posting => posting.2.flatMap (fun entry =>
          ((inlineTargets (mappings posting.1.journalId) entry).filter (· = accountId)).map
            (fun accountId => ⟨posting.1, entry, accountId⟩))) := by
  unfold batchTargets postingTargets
  rw [List.filter_flatMap]
  refine List.flatMap_congr (fun posting _ => ?_)
  rw [List.filter_flatMap]
  refine List.flatMap_congr (fun entry _ => ?_)
  rw [List.filter_map]
  rfl

/-- The prepared postings behind the targets of a batch. -/
theorem mem_batchTargets {mappings : AncestorMappings} {target : PostingTarget} :
    target ∈ batchTargets mappings (hydrate now prepared)
      ↔ ∃ posting ∈ prepared, ∃ entry ∈ posting.entries,
          ∃ accountId ∈ inlineTargets (mappings posting.journalId) entry,
            target = ⟨(posting.intoNewTransaction now).1, entry, accountId⟩ := by
  rw [batchTargets, List.mem_flatMap]
  constructor
  · rintro ⟨hydrated, hmem, htarget⟩
    obtain ⟨posting, hposting, rfl⟩ := List.mem_map.mp hmem
    obtain ⟨entry, hentry, htarget⟩ := List.mem_flatMap.mp htarget
    obtain ⟨accountId, haccount, rfl⟩ := List.mem_map.mp htarget
    exact ⟨posting, hposting, entry, hentry, accountId, haccount, rfl⟩
  · rintro ⟨posting, hposting, entry, hentry, accountId, haccount, rfl⟩
    exact ⟨_, List.mem_map_of_mem hposting, List.mem_flatMap.mpr
      ⟨entry, hentry, List.mem_map_of_mem haccount⟩⟩

theorem matchTarget_congr {controls controls' : ControlTable} {target : PostingTarget}
    (h : controls target.accountId = controls' target.accountId) :
    matchTarget controls target = matchTarget controls' target := by
  rw [matchTarget, matchTarget, h]

/-- **The velocity check of a batch**: every target matches, every velocity balance stays within
its limits, and the matched entries are run over the table. -/
theorem enforceBatchInOp_inline (h : Covers order db prepared mappings read)
    (hmirrors : VersionedTable.Mirrors BalanceSnapshot.version db.velocityBalances)
    {table : VelocityTable} :
    enforceBatchInOp now db.velocityBalances (hydrate now prepared) read.controls
        mappings = .ok table
      ↔ (∀ target ∈ batchTargets db.memberships.walkMappings
            (hydrate now prepared),
            Foundations.Succeeds (matchTarget db.accountControls target))
        ∧ (∀ key, EnforcedAlong now key (VelocityTable.value db.velocityBalances key)
            (velocityEvents db.accountControls (batchTargets db.memberships.walkMappings
              (hydrate now prepared)) key))
        ∧ table = VelocityTable.advance now db.velocityBalances
            (velocityEvents db.accountControls (batchTargets db.memberships.walkMappings
              (hydrate now prepared))) := by
  set postings := hydrate now prepared with hpostings
  have hmatch : ∀ target ∈ batchTargets mappings postings,
      matchTarget read.controls target = matchTarget db.accountControls target := by
    intro target htarget
    obtain ⟨posting, hposting, entry, hentry, accountId, haccount, rfl⟩ :=
      mem_batchTargets.mp htarget
    exact matchTarget_congr (h.controls posting hposting entry hentry accountId haccount)
  have hmem : ∀ target, target ∈ batchTargets mappings postings
      ↔ target ∈ batchTargets db.memberships.walkMappings postings := by
    intro target
    rw [hpostings, mem_batchTargets, mem_batchTargets]
    refine exists_congr (fun posting => and_congr_right (fun hposting =>
      exists_congr (fun entry => and_congr_right (fun hentry =>
        exists_congr (fun accountId => and_congr_left' ?_)))))
    exact mem_inlineTargets_walk db.toLedgerDirectory
      (h.walked posting hposting entry hentry)
  have hevents : velocityEvents read.controls (batchTargets mappings postings)
      = velocityEvents db.accountControls (batchTargets db.memberships.walkMappings postings) := by
    funext key
    calc velocityEvents read.controls (batchTargets mappings postings) key
        = velocityEvents db.accountControls (batchTargets mappings postings) key := by
          unfold velocityEvents matchedOf
          exact congrArg _ (List.flatMap_congr (fun target htarget => by rw [hmatch target htarget]))
      _ = velocityEvents db.accountControls
            (batchTargets db.memberships.walkMappings postings) key := by
          rw [velocityEvents_eq, batchTargets_filter, velocityEvents_eq (batchTargets
            db.memberships.walkMappings postings), batchTargets_filter]
          refine congrArg (velocityEvents db.accountControls · key)
            (List.flatMap_congr (fun hydrated hmem => ?_))
          obtain ⟨posting, hposting, rfl⟩ := List.mem_map.mp hmem
          refine List.flatMap_congr (fun entry hentry => ?_)
          exact congrArg _ (inlineTargets_walk_filter db.toLedgerDirectory
            (h.walked posting hposting entry hentry) key.accountId)
  rw [enforceBatchInOp_eq_ok hmirrors, hevents]
  refine and_congr_left' ?_
  exact ⟨fun hall target htarget => by
      rw [← hmatch target ((hmem target).mpr htarget)]
      exact hall target ((hmem target).mpr htarget),
    fun hall target htarget => by
      rw [hmatch target htarget]
      exact hall target ((hmem target).mp htarget)⟩

end Velocity

/-! ## Effective balances -/

section Effective

variable {order : RowOrder} {db : LedgerDb} {prepared : List PreparedTransaction}
  {mappings : AncestorMappings} {read : PostingState} {now : Timestamp}

/-- The entries of a batch, grouped by journal and day, in the order the groups are applied. -/
def effectiveGroups (directory : LedgerDirectory) (postings : List HydratedPosting) :
    List ((JournalId × NaiveDate) × List EntryValues) :=
  Foundations.sortBy (fun group : (JournalId × NaiveDate) × List EntryValues => toLex group.1)
    (Foundations.groupBy
      (fun posting : HydratedPosting => (posting.1.journalId, posting.1.effective)) Prod.snd
      (postings.filter (fun posting => directory.keepsEffective posting.1.journalId)))

/-- The update of one group. -/
def groupCall (accounts : AccountTable) (mappings : AncestorMappings) (now : Timestamp)
    (group : (JournalId × NaiveDate) × List EntryValues) : EffectiveCall :=
  .inline
    { accounts := accounts
      journalId := group.1.1
      entries := group.2
      effective := group.1.2
      createdAt := now
      mappings := mappings group.1.1 }

theorem mem_effectiveGroups {directory : LedgerDirectory} {postings : List HydratedPosting}
    {group : (JournalId × NaiveDate) × List EntryValues} :
    group ∈ effectiveGroups directory postings
      ↔ (∃ posting ∈ postings, directory.keepsEffective posting.1.journalId
            ∧ (posting.1.journalId, posting.1.effective) = group.1)
        ∧ group.2 = (postings.filter (fun posting => directory.keepsEffective posting.1.journalId
            ∧ (posting.1.journalId, posting.1.effective) = group.1)).flatMap Prod.snd := by
  obtain ⟨key, entries⟩ := group
  rw [effectiveGroups, Foundations.mem_sortBy, Foundations.mem_groupBy, Foundations.itemsOf,
    List.filter_filter]
  refine and_congr ?_ ?_
  · simp only [List.mem_filter, and_assoc]
  · have hfilter : ∀ posting : HydratedPosting,
        (decide ((posting.1.journalId, posting.1.effective) = key)
            && directory.keepsEffective posting.1.journalId)
          = decide (directory.keepsEffective posting.1.journalId = true
            ∧ (posting.1.journalId, posting.1.effective) = key) := by
      intro posting
      rw [Bool.and_comm, Bool.decide_and, Bool.decide_coe]
    simp only [hfilter]

/-- **The effective updates of a batch** are one call for each group. -/
theorem updateEffectiveBalances_eq (h : Covers order db prepared mappings read)
    (table : EffectiveTable) :
    updateEffectiveBalances order.toScanOrder db.accounts table
        (hydrate now prepared) read mappings now
      = runEffectiveCalls order.toScanOrder ((effectiveGroups db.toLedgerDirectory
          (hydrate now prepared)).map (groupCall db.accounts mappings now))
          table := by
  set postings := hydrate now prepared with hpostings
  have henabled : postings.filter (fun posting =>
        (read.journals posting.1.journalId).any JournalValues.insertEffectiveBalances)
      = postings.filter (fun posting => db.keepsEffective posting.1.journalId) := by
    refine List.filter_congr (fun hydrated hmem => ?_)
    obtain ⟨posting, hposting, rfl⟩ := List.mem_map.mp hmem
    exact congrArg (Option.any _) (h.journals posting hposting)
  rw [updateEffectiveBalances, henabled]
  change (effectiveGroups db.toLedgerDirectory postings).foldlM _ table = _
  rw [runEffectiveCalls, List.foldlM_map]
  refine Foundations.foldlM_congr (fun group hgroup table => ?_) table
  have hentry : ∀ entry ∈ group.2, ∃ posting ∈ prepared, posting.journalId = group.1.1
      ∧ entry ∈ posting.entries := by
    intro entry hentry
    rw [(mem_effectiveGroups.mp hgroup).2, List.mem_flatMap] at hentry
    obtain ⟨hydrated, hmem, hentry⟩ := hentry
    obtain ⟨hmem, hkey⟩ := List.mem_filter.mp hmem
    obtain ⟨posting, hposting, rfl⟩ := List.mem_map.mp hmem
    exact ⟨posting, hposting, congrArg Prod.fst (of_decide_eq_true hkey).2, hentry⟩
  have hinvolved : (reached (inlineTargets (mappings group.1.1)) group.2).filter
        (fun pair => read.involves pair.1)
      = (reached (inlineTargets (mappings group.1.1)) group.2).filter
        (fun pair => db.accounts.consistency false pair.1) := by
    refine List.filter_congr (fun pair hpair => ?_)
    obtain ⟨entry, hmem, hpair⟩ := List.mem_flatMap.mp hpair
    obtain ⟨accountId, htarget, rfl⟩ := List.mem_map.mp hpair
    obtain ⟨posting, hposting, hjournal, hmem⟩ := hentry entry hmem
    rw [← hjournal] at htarget
    rw [Bool.eq_iff_iff, h.involves hposting hmem htarget, decide_eq_true_eq]
  simp only [hinvolved]
  rfl

end Effective

end CalaLedger
