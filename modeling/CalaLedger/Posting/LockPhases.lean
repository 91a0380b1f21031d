import CalaLedger.Posting.LockOrder

/-! # The lock phases of the posting flow

Each part of the flow keeps the locks of its operation ascending and leaves only later phases to
come. Templates that do not move are fenced once; the fence leaves the ancestors of every journal,
the journal loop those of the journals still to come, and enforcement nothing. -/

namespace CalaLedger

open Foundations (Dialogue)
open Foundations.LockTable (Ascending ascending_nil)

namespace Postings

open LockScope (Orders Upcoming)

variable {scope : LockScope} {before : LockRank → Prop}

/-! ## Templates -/

section Templates

variable (scope) in
/-- The body a lookup of a code finds. -/
def currentTemplate (code : String) : Option ResolvedTemplate :=
  (scope.templates code).map TemplateSessions.newTemplate

theorem orders_fetchAndInstall {codes : List String} (hcodes : codes ⊆ scope.codes) :
    scope.Orders before (fetchAndInstall codes) before (fun fetched => ∀ code,
      fetched.lookup code = if code ∈ codes then currentTemplate scope code else none) := by
  have hrows : scope.Orders before (issue (.resolveTemplates codes)) before
      (fun rows => ∀ code ∈ codes, rows code = currentTemplate scope code) := by
    refine Orders.read (fun _ => rfl) (fun order now db hsettled code hcode => ?_)
    rw [PostingStatement.answer, onlyKeys_of_mem hcode, hsettled.templates code (hcodes hcode)]
    rfl
  refine hrows.bind (fun rows hrows => Orders.done (fun fetched hfetched code => ?_))
  rw [TemplateCache.lookup_of_fetch (Foundations.mapError_eq_ok.mp hfetched)]
  split
  · exact hrows code ‹_›
  · rfl

/-- What the snapshot of the process holds is current. -/
def CurrentCache (scope : LockScope) (templates : HashMap String ResolvedTemplate) : Prop :=
  ∀ code ∈ scope.codes, ∀ resolved, templates.lookup code = some resolved →
    currentTemplate scope code = some resolved

theorem orders_resolveInOp {templates : HashMap String ResolvedTemplate}
    (hcache : CurrentCache scope templates) :
    scope.Orders before (resolveInOp templates scope.codes) before
      (fun used => ∀ code ∈ scope.codes, used.lookup code = currentTemplate scope code) := by
  have hhit : ∀ code ∈ scope.codes, (templates.lookup code).isSome →
      (TemplateCache.hits templates scope.codes).lookup code = currentTemplate scope code := by
    intro code hcode hsome
    obtain ⟨resolved, hresolved⟩ := Option.isSome_iff_exists.mp hsome
    rw [TemplateCache.lookup_hits, if_pos hcode, hcache code hcode resolved hresolved, hresolved]
  unfold resolveInOp
  split
  · refine Orders.done (fun used hused code hcode => ?_)
    cases hused
    refine hhit code hcode ?_
    have hnone : code ∉ TemplateCache.missing templates scope.codes := by
      rw [‹TemplateCache.missing templates scope.codes = []›]
      exact List.not_mem_nil
    rw [Option.isSome_iff_ne_none]
    simpa [TemplateCache.missing, hcode] using hnone
  · have hsubset : TemplateCache.missing templates scope.codes ⊆ scope.codes :=
      List.filter_subset_self _
    refine (orders_fetchAndInstall hsubset).bind (fun fetched hfetched => ?_)
    refine Orders.done (fun used hused code hcode => ?_)
    cases hused
    rw [Foundations.lookup_union, hfetched]
    by_cases hmissing : code ∈ TemplateCache.missing templates scope.codes
    · rw [if_pos hmissing]
      cases hcurrent : currentTemplate scope code with
      | some resolved => rfl
      | none =>
          have hnone : templates.lookup code = none := by
            simpa [TemplateCache.missing, hcode] using hmissing
          rw [Option.none_or, TemplateCache.lookup_hits, if_pos hcode, hnone]
    · rw [if_neg hmissing, Option.none_or]
      refine hhit code hcode ?_
      rw [Option.isSome_iff_ne_none]
      simpa [TemplateCache.missing, hcode] using hmissing

/-- Current bodies are not stale. -/
theorem stale_eq_nil {used : HashMap String ResolvedTemplate}
    (hused : ∀ code ∈ scope.codes, used.lookup code = currentTemplate scope code)
    {observed : String → Option (TxTemplateId × ℕ)}
    (hobserved : ∀ code ∈ scope.codes,
      observed code = TemplateCache.probe (currentTemplate scope) code) :
    TemplateCache.stale scope.codes used observed = [] := by
  refine List.filter_eq_nil_iff.mpr (fun code hcode => ?_)
  rw [hused code hcode, hobserved code hcode, TemplateCache.probe]
  cases currentTemplate scope code <;> simp

/-- Current bodies prepare what the templates do. -/
theorem prepareAll_of_current {ids : EntryIds} {batch : List PostingInput}
    (hcodes : ∀ input ∈ batch, input.txTemplateCode ∈ scope.codes)
    {used : HashMap String ResolvedTemplate}
    (hused : ∀ code ∈ scope.codes, used.lookup code = currentTemplate scope code)
    {prepared : List PreparedTransaction}
    (h : prepareAll ids batch scope.codes used = .ok prepared) :
    CalaLedger.prepareAll ids scope.templates batch = .ok prepared := by
  refine (prepareAllFrom_eq_prepareAll (fun input hinput => ?_)).mp h
  have hcode := hcodes input hinput
  rw [TemplateSessions.bodies, Foundations.lookup_storeFound, if_pos hcode, hused _ hcode,
    currentTemplate, Option.map_map]
  cases scope.templates input.txTemplateCode <;> rfl

end Templates

/-! ## The fence -/

theorem injective_lockOrder : Function.Injective BalanceKey.lockOrder := by
  rintro ⟨journalId, accountId, ⟨code⟩⟩ ⟨journalId', accountId', ⟨code'⟩⟩ h
  obtain ⟨rfl, h⟩ := Prod.mk.inj (toLex.injective h)
  obtain ⟨rfl, rfl⟩ := Prod.mk.inj (toLex.injective h)
  rfl

/-- No entry is on the account behind one of the sets. -/
def EntersNoSet (sets : AccountSetId → Prop) (prepared : List PreparedTransaction) : Prop :=
  ∀ key ∈ entryBalanceKeys prepared, BehindNoSet sets key.accountId

/-- Every ancestor lock and velocity lock is still to come. -/
abbrev Fenced (scope : LockScope) : LockRank → Prop := scope.Upcoming (fun _ => True)

theorem orders_lockInOp {ids : EntryIds} {batch : List PostingInput}
    {used : HashMap String ResolvedTemplate} {prepared : List PreparedTransaction}
    (hused : ∀ code ∈ scope.codes, used.lookup code = currentTemplate scope code)
    (hentries : EntersNoSet scope.sets prepared) :
    scope.Orders (fun _ => True) (lockInOp ids batch scope.codes used prepared) (Fenced scope)
      (fun locked => locked.2 = prepared) := by
  have hkeys : ∀ key ∈ sortedDeduped (entryBalanceKeys prepared),
      BehindNoSet scope.sets key.accountId := by
    intro key hkey
    exact hentries key ((Foundations.mem_sortBy _).mp (List.mem_dedup.mp hkey))
  have hstrict := Foundations.strict_dedup_sortBy injective_lockOrder (entryBalanceKeys prepared)
  have hsorted : Foundations.sortBy BalanceKey.lockOrder
      (sortedDeduped (entryBalanceKeys prepared)) = sortedDeduped (entryBalanceKeys prepared) :=
    Foundations.sortBy_eq_self.mpr (hstrict.imp le_of_lt)
  have hfence : scope.Orders (fun _ => True)
      (issue (.lockBalancesAndProbeTemplates (sortedDeduped (entryBalanceKeys prepared))
        scope.codes)) (Fenced scope)
      (fun locked => TemplateCache.stale scope.codes used locked.2 = []) := by
    refine Orders.issue (fun db _ => ?_) (fun _ _ _ _ => trivial)
      (fun db _ own hown rank hrank => ?_) (fun _ _ => trivial) (fun order now db hsettled => ?_)
    · rw [PostingStatement.lockRequests, hsorted]
      exact ascending_fence db.accounts hstrict hkeys
    · rw [PostingStatement.lockRequests, hsorted] at hown
      obtain ⟨key, hkey, hmem⟩ := List.mem_flatMap.mp hown
      rcases rank_of_mem_fenceLocks scope.display (hkeys key hkey) hmem with hown | hown
      all_goals
        rcases hrank with ⟨journalId, pair, -, rfl⟩ | ⟨velocityKey, rfl⟩
        all_goals
          rw [LockScope.rank, hown]
          exact Sum.Lex.inl_lt_inr _ _
    · refine stale_eq_nil hused (fun code hcode => ?_)
      show TemplateCache.probe (onlyKeys scope.codes _) code = _
      rw [TemplateCache.probe, TemplateCache.probe, onlyKeys_of_mem hcode,
        hsettled.templates code hcode]
      rfl
  unfold lockInOp
  refine hfence.bind (fun locked hcurrent => ?_)
  dsimp only
  rw [if_pos hcurrent]
  exact Orders.done (by rintro _ ⟨⟩; rfl)

/-! ## Ancestors -/

section Ancestors

/-- The sets a snapshot knows as written inline are among the sets of the scope. -/
def KnowsSets (scope : LockScope) (nodes : IndexedNodes) : Prop :=
  ∀ setId found, nodes.sets.lookup setId = some found → found.eventuallyConsistent = false →
    scope.sets setId

theorem knowsSets_indexNodes {nodes : List SetGraphNode}
    (h : ∀ node ∈ nodes, node.eventuallyConsistent = false → scope.sets node.id) :
    KnowsSets scope (SetGraphCache.indexNodes nodes) := by
  intro setId found hknown hmode
  obtain ⟨node, hmem, rfl, rfl⟩ := SetGraphCache.node_of_lookup_indexNodes hknown
  exact h node hmem hmode

theorem sets_of_mem_setGraphNodes {db : LedgerDb} (h : scope.Settled db)
    {setIds : List AccountSetId} {node : SetGraphNode} (hnode : node ∈ db.setGraphNodes setIds)
    (hmode : node.eventuallyConsistent = false) : scope.sets node.id := by
  obtain ⟨setId, -, hmem⟩ := List.mem_flatMap.mp hnode
  split at hmem
  · rename_i row hset hrow
    obtain ⟨parentId, -, rfl⟩ := List.mem_map.mp hmem
    refine h.sets setId _ hset ?_
    rw [AccountTable.consistency, hrow]
    exact congrArg some hmode
  · exact absurd hmem List.not_mem_nil

variable {snapshot : GraphSnapshot} {overlay : Option IndexedNodes}

theorem orders_fetchOverlay (missing : List AccountSetId) :
    scope.Orders before (fetchOverlay missing) before
      (fun overlay => ∀ nodes ∈ overlay, KnowsSets scope nodes) := by
  unfold fetchOverlay
  split
  · exact Orders.done (by rintro _ ⟨⟩ nodes ⟨⟩)
  · have hnodes : scope.Orders before (issue (.fetchSetGraphNodes missing)) before
        (fun nodes => ∀ node ∈ nodes, node.eventuallyConsistent = false → scope.sets node.id) :=
      Orders.read (fun _ => rfl)
        (fun order now db hsettled node hnode => sets_of_mem_setGraphNodes hsettled hnode)
    refine hnodes.bind (fun nodes hnodes => Orders.done ?_)
    rintro _ ⟨⟩ _ ⟨⟩
    exact knowsSets_indexNodes hnodes

/-- The pairs `expand` returns ascend, and are of sets. -/
theorem lockPairs_of_expand (hsnapshot : KnowsSets scope snapshot.toIndexedNodes)
    (hoverlay : ∀ nodes ∈ overlay, KnowsSets scope nodes) {journalId : JournalId}
    {seeds : List AccountMembership} {entryPairs : List (AccountId × Currency)}
    {found : (AccountId → List AccountSetId) × List (AccountSetId × Currency)}
    (h : SetGraphCache.expand snapshot overlay journalId seeds entryPairs = some found) :
    found.2.Pairwise (fun a b => SetGraphCache.pairOrder a < SetGraphCache.pairOrder b)
      ∧ ∀ pair ∈ found.2, scope.sets pair.1 := by
  rw [SetGraphCache.expand] at h
  split at h
  · cases h
    refine ⟨Foundations.strict_dedup_sortBy injective_pairOrder _, fun pair hpair => ?_⟩
    have hmem := (Foundations.mem_sortBy _).mp (List.mem_dedup.mp hpair)
    obtain ⟨entryPair, -, hmem⟩ := List.mem_flatMap.mp hmem
    obtain ⟨setId, hset, rfl⟩ := List.mem_map.mp hmem
    obtain ⟨found, hfound, hmode⟩ := (Option.any_eq_true _ _).mp (List.mem_filter.mp hset).2
    have hmode : found.eventuallyConsistent = false := by simpa using hmode
    rcases Option.or_eq_some_iff.mp hfound with hknown | ⟨-, hknown⟩
    · exact hsnapshot setId found hknown hmode
    · obtain ⟨nodes, hnodes, hknown⟩ := Option.bind_eq_some_iff.mp hknown
      exact hoverlay nodes hnodes setId found hknown hmode
  · cases h

/-- The pairs the walk locks ascend, and are of sets. -/
theorem walkLockPairs_spec {db : LedgerDb} (h : scope.Settled db) (journalId : JournalId)
    (entryPairs : List (AccountId × Currency)) :
    (PostingStatement.walkLockPairs db journalId entryPairs).Pairwise
        (fun a b => SetGraphCache.pairOrder a < SetGraphCache.pairOrder b)
      ∧ ∀ pair ∈ PostingStatement.walkLockPairs db journalId entryPairs, scope.sets pair.1 := by
  refine ⟨Foundations.SortedBy.strict (Foundations.sortBy_sorted _ _)
    ((Foundations.sortBy_perm _ _).nodup_iff.mpr (List.nodup_dedup _)) injective_pairOrder, ?_⟩
  intro pair hpair
  have hmem := List.mem_dedup.mp ((Foundations.mem_sortBy _).mp hpair)
  obtain ⟨entryPair, -, hmem⟩ := List.mem_flatMap.mp hmem
  obtain ⟨setId, hset, rfl⟩ := List.mem_map.mp hmem
  obtain ⟨hwalked, hmode⟩ := List.mem_filter.mp hset
  rw [MembershipTables.walkMappings, List.mem_filter, decide_eq_true_eq] at hwalked
  exact h.sets setId journalId hwalked.2 (of_decide_eq_true hmode)

/-- The journals whose ancestors are still to come. -/
abbrev Journals (scope : LockScope) (journalIds : List JournalId) : LockRank → Prop :=
  scope.Upcoming (· ∈ journalIds)

variable {journalId : JournalId} {journalIds : List JournalId}

/-- Nothing is locked of a journal. -/
theorem upcoming_tail {rank : LockRank} (h : Journals scope journalIds rank) :
    Journals scope (journalId :: journalIds) rank := by
  rcases h with ⟨other, pair, hother, rfl⟩ | hvelocity
  · exact Or.inl ⟨other, pair, List.mem_cons_of_mem _ hother, rfl⟩
  · exact Or.inr hvelocity

/-- The ancestors of a journal, locked in ascending order. -/
theorem orders_ancestors (hlt : ∀ other ∈ journalIds, journalId < other)
    {statement : PostingStatement}
    (hlocks : ∀ db, scope.Settled db → ∃ pairs : List (AccountSetId × Currency),
      statement.lockRequests db = pairs.map (PostingStatement.ancestorLock journalId)
        ∧ pairs.Pairwise (fun a b => SetGraphCache.pairOrder a < SetGraphCache.pairOrder b)
        ∧ ∀ pair ∈ pairs, scope.sets pair.1) :
    scope.Orders (Journals scope (journalId :: journalIds)) (issue statement)
      (Journals scope journalIds) (fun _ => True) := by
  refine Orders.issue (fun db hsettled => ?_) (fun db hsettled own hown => ?_)
    (fun db hsettled own hown rank hrank => ?_) (fun _ => upcoming_tail) (fun _ _ _ _ => trivial)
  all_goals obtain ⟨pairs, hpairs, hsorted, hsets⟩ := hlocks db hsettled
  · rw [hpairs]
    exact ascending_ancestors journalId hsorted hsets
  · rw [hpairs] at hown
    obtain ⟨pair, hpair, rfl⟩ := List.mem_map.mp hown
    exact Or.inl ⟨journalId, pair, List.mem_cons_self,
      rank_ancestor scope.display scope.sets (hsets pair hpair)⟩
  · rw [hpairs] at hown
    obtain ⟨pair, hpair, rfl⟩ := List.mem_map.mp hown
    rw [LockScope.rank, rank_ancestor scope.display scope.sets (hsets pair hpair)]
    rcases hrank with ⟨other, pair', hother, rfl⟩ | ⟨key, rfl⟩
    · exact LockRank.ancestor_lt_ancestor.mpr (Or.inl (hlt other hother))
    · exact Sum.Lex.inr_lt_inr_iff.mpr (Sum.Lex.inl_lt_inr _ _)

theorem orders_walk (hlt : ∀ other ∈ journalIds, journalId < other)
    (entryPairs : List (AccountId × Currency)) :
    scope.Orders (Journals scope (journalId :: journalIds))
      (issue (.walkMappingsAndLock journalId entryPairs)) (Journals scope journalIds)
      (fun _ => True) :=
  orders_ancestors hlt (fun _ hsettled =>
    ⟨_, rfl, walkLockPairs_spec hsettled journalId entryPairs⟩)

theorem orders_resolveFromProbeInOp (hsnapshot : KnowsSets scope snapshot.toIndexedNodes)
    (hlt : ∀ other ∈ journalIds, journalId < other) (probeEpoch : ℤ)
    (probeSeeds : List AccountMembership) (entryPairs : List (AccountId × Currency)) :
    scope.Orders (Journals scope (journalId :: journalIds))
      (resolveFromProbeInOp snapshot journalId probeEpoch probeSeeds entryPairs)
      (Journals scope journalIds) (fun _ => True) := by
  unfold resolveFromProbeInOp
  split
  · exact (Orders.compute _).weaken (fun _ => upcoming_tail) (fun _ => id)
  split
  · exact orders_walk hlt entryPairs
  · refine (orders_fetchOverlay _).bind (fun overlay hoverlay => ?_)
    split
    · rename_i mappings lockPairs hexpand
      obtain ⟨hsorted, hsets⟩ := lockPairs_of_expand hsnapshot hoverlay hexpand
      have hlock : scope.Orders (Journals scope (journalId :: journalIds))
          (lockResolvedAncestorsInOp journalId lockPairs) (Journals scope journalIds)
          (fun _ => True) := by
        unfold lockResolvedAncestorsInOp
        split
        · exact (Orders.compute _).weaken (fun _ => upcoming_tail) (fun _ => id)
        · exact orders_ancestors hlt (fun _ _ => ⟨_, rfl, hsorted, hsets⟩)
      exact hlock.bind (fun _ _ => Orders.compute _)
    · exact orders_walk hlt entryPairs

/-- The journal loop locks the ancestors journal by journal. -/
theorem orders_resolveJournals {graph : JournalId → GraphSnapshot}
    (hgraph : ∀ journalId, KnowsSets scope (graph journalId).toIndexedNodes)
    (prepared : List PreparedTransaction) (epoch : ℤ) (seeds : List AccountMembership)
    (hsorted : journalIds.Pairwise (· < ·)) :
    ∀ found, scope.Orders (Journals scope journalIds)
      (Dialogue.foldEach (resolveJournal graph prepared epoch seeds) found journalIds)
      (Journals scope []) (fun _ => True) := by
  induction journalIds with
  | nil => exact fun found => Orders.compute _
  | cons journalId journalIds ih =>
      intro found
      obtain ⟨hlt, hsorted⟩ := List.pairwise_cons.mp hsorted
      have hone : scope.Orders (Journals scope (journalId :: journalIds))
          (resolveJournal graph prepared epoch seeds found journalId) (Journals scope journalIds)
          (fun _ => True) := by
        unfold resolveJournal
        split
        · exact (Orders.compute _).weaken (fun _ => upcoming_tail) (fun _ => id)
        · exact (orders_resolveFromProbeInOp (hgraph journalId) hlt _ _ _).bind
            (fun _ _ => Orders.compute _)
      exact hone.bind (fun found _ => ih hsorted found)

theorem strict_sortedDedup {κ : Type} [LinearOrder κ] (items : List κ) :
    (sortedDedup items).Pairwise (· < ·) :=
  Foundations.strict_dedup_sortBy Function.injective_id items

theorem orders_resolveAncestors {graph : JournalId → GraphSnapshot}
    (hgraph : ∀ journalId, KnowsSets scope (graph journalId).toIndexedNodes)
    (prepared : List PreparedTransaction) (epoch : ℤ) (read : PostingState) :
    scope.Orders (Fenced scope) (resolveAncestors graph prepared epoch read) (Journals scope [])
      (fun _ => True) := by
  have hall : ∀ journalIds rank, Journals scope journalIds rank → Fenced scope rank := by
    rintro journalIds rank (⟨journalId, pair, -, rfl⟩ | hvelocity)
    · exact Or.inl ⟨journalId, pair, trivial, rfl⟩
    · exact Or.inr hvelocity
  unfold resolveAncestors
  split
  · exact (Orders.compute _).weaken (hall []) (fun _ => id)
  · have hloop := orders_resolveJournals hgraph prepared epoch read.seeds
      (strict_sortedDedup (prepared.map PreparedTransaction.journalId)) (fun _ _ => [], [])
    refine Orders.bind (hloop.wider (hall _)) (fun found _ => ?_)
    split
    · exact Orders.compute _
    · refine (Orders.write (fun _ => rfl)).bind (fun supplemental _ => ?_)
      dsimp only
      split <;> exact Orders.compute _

end Ancestors

/-! ## The flow -/

theorem injective_velocityLockOrder (display : JsonDisplay) :
    Function.Injective (VelocityBalanceKey.lockOrder display) := by
  rintro ⟨window, ⟨code⟩, journalId, accountId, controlId, limitId⟩
    ⟨window', ⟨code'⟩, journalId', accountId', controlId', limitId'⟩ h
  obtain ⟨rfl, h⟩ := Prod.mk.inj (toLex.injective h)
  obtain ⟨rfl, h⟩ := Prod.mk.inj (toLex.injective h)
  obtain ⟨rfl, h⟩ := Prod.mk.inj (toLex.injective h)
  obtain ⟨rfl, h⟩ := Prod.mk.inj (toLex.injective h)
  obtain ⟨rfl, h⟩ := Prod.mk.inj (toLex.injective h)
  obtain rfl := display.injective h
  rfl

theorem orders_enforceBatchInOp (now : Timestamp) (postings : List HydratedPosting)
    (controls : ControlTable) (mappings : AncestorMappings) :
    scope.Orders (Journals scope []) (enforceBatchInOp scope.display now postings controls mappings)
      (fun _ => False) (fun _ => True) := by
  refine (Orders.compute _).bind (fun matched _ => ?_)
  dsimp only
  split
  · exact (Orders.compute _).weaken (fun _ => False.elim) (fun _ => id)
  · have hlock : ∀ keys : List VelocityBalanceKey, keys.Nodup →
        scope.Orders (Journals scope []) (issue (.lockVelocityBalances
          (Foundations.sortBy (VelocityBalanceKey.lockOrder scope.display) keys)))
          (fun _ => False) (fun _ => True) := by
      intro keys hnodup
      refine Orders.issue (fun db _ => ?_) (fun db _ own hown => ?_) (fun _ _ _ _ _ => False.elim)
        (fun _ => False.elim) (fun _ _ _ _ => trivial)
      · refine ascending_velocity (Foundations.SortedBy.strict (Foundations.sortBy_sorted _ _)
          ?_ (injective_velocityLockOrder _))
        exact (Foundations.sortBy_perm _ _).nodup_iff.mpr hnodup
      · obtain ⟨key, -, rfl⟩ := List.mem_map.mp hown
        exact Or.inr ⟨key, rfl⟩
    refine (hlock _ (Foundations.keys_groupBy_nodup _)).bind (fun _ _ => ?_)
    refine (Orders.write (fun _ => rfl)).bind (fun currentBalances _ => ?_)
    refine (Orders.compute _).bind (fun _ _ => ?_)
    exact Orders.write (fun _ => rfl)

theorem orders_insertPostingsAndBalancesInOp (postings : List HydratedPosting)
    (snapshots : List BalanceSnapshot) :
    scope.Orders before (insertPostingsAndBalancesInOp postings snapshots) before
      (fun _ => True) :=
  (Orders.write (fun _ => rfl)).bind
    (fun _ _ => Orders.forEach (fun _ => Orders.write (fun _ => rfl)) _)

theorem orders_updateEffectiveBalances (postings : List HydratedPosting) (read : PostingState)
    (mappings : AncestorMappings) (now : Timestamp) :
    scope.Orders before (updateEffectiveBalances postings read mappings now) before
      (fun _ => True) := by
  refine Orders.forEach (fun group => ?_) _
  dsimp only
  split
  · exact Orders.compute _
  · refine (Orders.write (fun _ => rfl)).bind (fun allData _ => ?_)
    exact (Orders.expect _).bind (fun _ _ => Orders.write (fun _ => rfl))

theorem orders_postPreparedInOp {graph : JournalId → GraphSnapshot}
    (hgraph : ∀ journalId, KnowsSets scope (graph journalId).toIndexedNodes) (now : Timestamp)
    (prepared : List PreparedTransaction) :
    scope.Orders (Fenced scope) (postPreparedInOp graph scope.display now prepared)
      (fun _ => False) (fun _ => True) := by
  refine (Orders.write (fun _ => rfl)).bind (fun found _ => ?_)
  refine (Orders.compute _).bind (fun _ _ => ?_)
  refine (orders_resolveAncestors hgraph prepared found.1 found.2).bind (fun resolved _ => ?_)
  refine (orders_enforceBatchInOp now _ _ _).bind (fun _ _ => ?_)
  refine (orders_insertPostingsAndBalancesInOp _ _).bind (fun _ _ => ?_)
  refine (orders_updateEffectiveBalances _ _ _ _).bind (fun _ _ => ?_)
  exact (Orders.write (fun _ => rfl)).bind (fun _ _ => Orders.compute _)

/-- **The locks of a posting batch ascend.** -/
theorem orders_postBatchInOp {templates : HashMap String ResolvedTemplate}
    (hcache : CurrentCache scope templates) {graph : JournalId → GraphSnapshot}
    (hgraph : ∀ journalId, KnowsSets scope (graph journalId).toIndexedNodes) {ids : EntryIds}
    {batch : List PostingInput}
    (hcodes : scope.codes = sortedDedup (batch.map PostingInput.txTemplateCode))
    (hentries : ∀ prepared, CalaLedger.prepareAll ids scope.templates batch = .ok prepared →
      EntersNoSet scope.sets prepared) :
    scope.Orders (fun _ => True) (postBatchInOp templates graph scope.display ids batch)
      (fun _ => False) (fun _ => True) := by
  unfold postBatchInOp
  split
  · exact (Orders.compute _).weaken (fun _ => False.elim) (fun _ => id)
  rw [← hcodes]
  have hinputs : ∀ input ∈ batch, input.txTemplateCode ∈ scope.codes := by
    intro input hinput
    rw [hcodes]
    exact List.mem_dedup.mpr ((Foundations.mem_sortBy _).mpr (List.mem_map_of_mem hinput))
  refine (orders_resolveInOp hcache).bind (fun used hused => ?_)
  have hprepare : scope.Orders (fun _ => True) (.done (prepareAll ids batch scope.codes used))
      (fun _ => True) (fun prepared => EntersNoSet scope.sets prepared) :=
    Orders.done (fun prepared hprepared =>
      hentries prepared (prepareAll_of_current hinputs hused hprepared))
  refine hprepare.bind (fun prepared hprepared => ?_)
  · split
    · exact (Orders.compute _).weaken (fun _ => False.elim) (fun _ => id)
    · refine (orders_lockInOp hused hprepared).bind (fun locked hlocked => ?_)
      exact orders_postPreparedInOp hgraph locked.1 locked.2

end Postings

end CalaLedger
