import CalaLedger.EcRollup.Pipeline
import CalaLedger.Posting.BatchEffective

/-! # Dated histories of a run

The effective counterpart of `Pipeline.Follows`. In a journal that keeps effective balances, the
timeline behind the rows of a balance holds what its folded transactions bring to it, each entry on
the day of its transaction (`Pipeline.FollowsEffective`); in which order the entries of one day come
is left open. -/

namespace CalaLedger

/-- What a transaction brings to a balance, on its day. -/
def EcRollupTxn.dated (events : EcRollupTxn → List TimedEntry) (tx : EcRollupTxn) :
    List DatedEntry :=
  (events tx).map (fun timed => (tx.effective, timed.2))

section Perm

variable {directory : LedgerDirectory}

/-- What a batch brings to a balance on one day, posting by posting. -/
theorem dayEntries_eq (now : Timestamp) (prepared : List PreparedTransaction) {key : BalanceKey}
    (hkeeps : directory.keepsEffective key.journalId = true)
    (hinline : directory.accounts.consistency false key.accountId) (day : NaiveDate) :
    (dayEntries directory (hydrate now prepared) key day).map (fun entry => (day, entry))
      = ((hydrate now prepared).flatMap (fun posting =>
          EcRollupTxn.dated (txnEvents directory · key) (HydratedPosting.rollupTxn posting))).filter
            (fun dated => dated.1 = day) := by
  rw [dayEntries, if_pos ⟨hkeeps, hinline⟩]
  generalize hydrate now prepared = postings
  induction postings with
  | nil => rfl
  | cons posting postings ih =>
      rw [List.flatMap_cons, List.filter_append, ← ih, List.filter_cons]
      have hown : (EcRollupTxn.dated (txnEvents directory · key)
            (HydratedPosting.rollupTxn posting)).filter (fun dated => dated.1 = day)
          = if posting.1.journalId = key.journalId ∧ posting.1.effective = day then
              (hits (inlineTargets (directory.memberships.walkMappings key.journalId))
                key.accountId key.currency posting.2).map (fun entry => (day, entry))
            else [] := by
        unfold EcRollupTxn.dated txnEvents HydratedPosting.rollupTxn
        by_cases hjournal : key.journalId = posting.1.journalId
        · by_cases hday : posting.1.effective = day
          · simp [hjournal, hday, Function.comp_def]
          · simp [hjournal, hday]
        · simp [hjournal, Ne.symm hjournal]
      rw [hown]
      by_cases hmatch : posting.1.journalId = key.journalId ∧ posting.1.effective = day
      · simp [hmatch, hits_append]
      · simp [hmatch]

/-- **What a batch adds to a timeline**, up to order: what its postings bring to an account kept
inline. -/
theorem batchDated_perm (now : Timestamp) (prepared : List PreparedTransaction) {key : BalanceKey}
    (hkeeps : ∀ posting ∈ prepared, posting.journalId = key.journalId →
      directory.keepsEffective key.journalId = true) :
    (batchDated directory now (hydrate now prepared) key).Perm
      (if directory.accounts.consistency false key.accountId then
        (hydrate now prepared).flatMap (fun posting =>
          EcRollupTxn.dated (txnEvents directory · key) (HydratedPosting.rollupTxn posting))
      else []) := by
  refine Foundations.perm_of_filter_perm Prod.fst (fun day => ?_)
  rw [batchDated_filter]
  by_cases hinline : directory.accounts.consistency false key.accountId
  · rw [if_pos hinline]
    by_cases hkeep : directory.keepsEffective key.journalId = true
    · rw [← dayEntries_eq now prepared hkeep hinline]
      exact (Foundations.sortBy_perm _ _).map _
    · -- no posting is of the journal, so nothing is brought
      have hnone : (hydrate now prepared).flatMap (fun posting => EcRollupTxn.dated
          (txnEvents directory · key) (HydratedPosting.rollupTxn posting)) = [] := by
        rw [List.flatMap_eq_nil_iff]
        intro posting hposting
        obtain ⟨transaction, htransaction, rfl⟩ := List.mem_map.mp hposting
        have hjournal : key.journalId ≠ transaction.journalId :=
          fun heq => hkeep (hkeeps transaction htransaction heq.symm)
        rw [EcRollupTxn.dated, List.map_eq_nil_iff]
        exact if_neg hjournal
      rw [hnone, dayEntries, if_neg (fun h => hkeep h.1)]
      exact List.Perm.refl _
  · rw [if_neg hinline, dayEntries, if_neg (fun h => hinline h.2)]
    exact List.Perm.refl _

/-- The effective update of a transaction pushes what the rollup adds to the settled balance. -/
theorem ecCall_pushed (order : RowOrder) (tx : EcRollupTxn) (key : BalanceKey) :
    (ecCall order directory tx).pushed key = (ecEvents order directory tx key).map Prod.snd := by
  have htargets : hits (ecCall order directory tx).targets key.accountId key.currency tx.entries
      = hits (directory.ecTargetsOf order tx.journalId) key.accountId key.currency tx.entries :=
    hits_congr_targets (fun entry hentry =>
      ecTargets_eq_ecTargetsOf (List.mem_map_of_mem hentry))
  show pushedOn true directory.accounts tx.journalId (ecCall order directory tx).targets tx.entries
    key = _
  unfold pushedOn ecEvents
  rw [htargets]
  by_cases hjournal : key.journalId = tx.journalId
  · by_cases hmode : directory.accounts.consistency true key.accountId
    · rw [if_pos ⟨hjournal, hmode⟩, if_pos hjournal, List.map_map]
      exact (List.map_id _).symm
    · have hnone : hits (directory.ecTargetsOf order tx.journalId) key.accountId key.currency
          tx.entries = [] := by
        rw [hits_eq_nil]
        exact fun entry _ _ htarget => hmode (consistency_of_mem_ecTargetsOf htarget)
      rw [if_neg (fun h => hmode h.2), if_pos hjournal, hnone]
      rfl
  · rw [if_neg (fun h => hjournal h.1), if_neg hjournal]
    rfl

/-- A journal that keeps effective balances whenever it exists. -/
def LedgerDirectory.AlwaysEffective (directory : LedgerDirectory) (journalId : JournalId) : Prop :=
  ∀ journal, directory.journals journalId = some journal → journal.insertEffectiveBalances = true

theorem LedgerDirectory.AlwaysEffective.keeps {journalId : JournalId}
    (h : directory.AlwaysEffective journalId) (hknown : (directory.journals journalId).isSome) :
    directory.keepsEffective journalId = true := by
  obtain ⟨journal, hjournal⟩ := Option.isSome_iff_exists.mp hknown
  rw [LedgerDirectory.keepsEffective, hjournal, Option.any_some]
  exact h journal hjournal

/-- The effective updates of a landing, as what they add to one timeline. -/
theorem foldlM_ecEffectiveStep_dated {entries : List EntryValues} (hentries : Identified entries)
    {order : RowOrder} {key : BalanceKey} (hjournal : directory.AlwaysEffective key.journalId)
    (txns : List EcRollupTxn) :
    ∀ {table table' : EffectiveTable} {timelines : BalanceKey → List DatedEntry},
      TableReplays table timelines → (∀ key, ∀ dated ∈ timelines key, dated.2 ∈ entries) →
      (∀ tx ∈ txns, EcReady order directory tx ∧ ∀ entry ∈ tx.entries, entry ∈ entries) →
      txns.foldlM (ecEffectiveStep order directory) table = some table' →
      ∃ timelines', TableReplays table' timelines'
        ∧ (∀ key, ∀ dated ∈ timelines' key, dated.2 ∈ entries)
        ∧ (timelines' key).Perm (timelines key
            ++ txns.flatMap (EcRollupTxn.dated (ecEvents order directory · key))) := by
  induction txns with
  | nil =>
      rintro table _ timelines htable htimelines - ⟨⟩
      exact ⟨timelines, htable, htimelines, by simp⟩
  | cons tx txns ih =>
      intro table table' timelines htable htimelines htxns hrun
      obtain ⟨⟨hready, htx⟩, hrest⟩ := List.forall_mem_cons.mp htxns
      rw [List.foldlM_cons] at hrun
      obtain ⟨next, hnext, hrun⟩ := Option.bind_eq_some_iff.mp hrun
      rw [List.flatMap_cons, ← List.append_assoc]
      by_cases hkeeps : directory.keepsEffective tx.journalId = true
      · rw [ecEffectiveStep, if_pos hkeeps] at hnext
        have hpushed : ∀ key, ∀ entry ∈ (ecCall order directory tx).pushed key, entry ∈ entries :=
          fun key entry hmem => htx entry ((ecCall order directory tx).mem_entries_of_pushed hmem)
        obtain ⟨middle, hmiddle, hreplays⟩ := (ecCall order directory tx).run_replays
          order.toScanOrder htable (fun key => by
            refine hentries.subset (fun entry hentry => ?_)
            rcases List.mem_append.mp hentry with hold | hnew
            · obtain ⟨dated, hdated, rfl⟩ := List.mem_map.mp hold
              exact htimelines key dated hdated
            · exact hpushed key entry hnew)
        obtain rfl : middle = next := Option.some.inj (hmiddle.symm.trans hnext)
        obtain ⟨timelines', htable', htimelines', hperm⟩ := ih hreplays (fun key dated hdated => by
          rw [Foundations.mem_sortBy, List.mem_append] at hdated
          rcases hdated with hold | hnew
          · exact htimelines key dated hold
          · obtain ⟨entry, hentry, rfl⟩ := List.mem_map.mp hnew
            rw [Foundations.mem_sortBy] at hentry
            exact hpushed key entry hentry) hrest hrun
        refine ⟨timelines', htable', htimelines', hperm.trans (List.Perm.append_right _ ?_)⟩
        refine (Foundations.sortBy_perm _ _).trans (List.Perm.append_left _ ?_)
        have hdated : EcRollupTxn.dated (ecEvents order directory · key) tx
            = ((ecCall order directory tx).pushed key).map (fun entry => (tx.effective, entry)) := by
          rw [ecCall_pushed, List.map_map]
          rfl
        rw [hdated]
        exact (Foundations.sortBy_perm _ _).map _
      · -- a journal that keeps no effective balances is not the journal of this balance
        rw [ecEffectiveStep, if_neg hkeeps] at hnext
        obtain rfl : table = next := Option.some.inj hnext
        have hnone : EcRollupTxn.dated (ecEvents order directory · key) tx = [] := by
          rw [EcRollupTxn.dated, List.map_eq_nil_iff, ecEvents]
          split
          · rename_i hkey
            rw [List.map_eq_nil_iff]
            by_contra hhits
            have hknown := (hready (key.accountId, key.currency) (mem_reached.mpr hhits)).2
            rw [← hkey] at hknown hkeeps
            exact hkeeps (hjournal.keeps hknown)
          · rfl
        rw [hnone, List.append_nil]
        exact ih htable htimelines hrest hrun

end Perm

namespace Pipeline

/-- Beside its history, the timeline of a balance holds what its folded transactions bring. -/
structure FollowsEffective (events : EcRollupTxn → List TimedEntry) (key : BalanceKey)
    (p : Pipeline) : Prop extends Follows events key p where
  timelines : ∃ timelines, TableReplays p.db.effectiveBalances timelines
    ∧ (∀ key, ∀ dated ∈ timelines key, dated.2 ∈ p.db.entries)
    ∧ (timelines key).Perm ((p.folded key.accountId).flatMap (EcRollupTxn.dated events))

section FollowsEffective

variable {events : EcRollupTxn → List TimedEntry} {key : BalanceKey} {p : Pipeline}

theorem FollowsEffective.post (h : FollowsEffective events key p) (hsound : p.Sound)
    (hevents : ∀ tx : EcRollupTxn, (∀ entry ∈ tx.entries, p.db.Leaf entry.accountId) →
      txnEvents p.db.toLedgerDirectory tx key = events tx)
    (hjournal : p.db.AlwaysEffective key.journalId)
    {order : RowOrder} {ids : EntryIds} {now : Timestamp} {batch : List PostingInput}
    {db' : LedgerDb} (hpost : postAllInOp order ids now p.db batch = .ok db') :
    FollowsEffective events key { p with db := db' } := by
  refine ⟨h.toFollows.post hsound hevents hpost, ?_⟩
  obtain ⟨prepared, hmap, haccepts, effectiveBalances, rfl, hreplays⟩ :=
    postAllInOp_posted hsound.reachable.valid hpost
  obtain ⟨timelines, htable, htimelines, hperm⟩ := h.timelines
  refine ⟨_, hreplays timelines htable htimelines, fun key dated hdated => ?_, ?_⟩
  · rw [Foundations.mem_sortBy, List.mem_append] at hdated
    rcases hdated with hold | hnew
    · exact List.mem_append_left _ (htimelines key dated hold)
    · exact List.mem_append_right _ (mem_of_mem_batchDated hnew)
  · refine (Foundations.sortBy_perm _ _).trans ?_
    rw [(hsound.committed_post (wellPrepared_of_mapM hmap) haccepts effectiveBalances).2,
      List.flatMap_append]
    refine hperm.append ((batchDated_perm now prepared (fun posting hposting heq => ?_)).trans ?_)
    · obtain ⟨journal, hknown, -⟩ := (haccepts.postable posting hposting).journal
      rw [heq] at hknown
      exact hjournal.keeps (Option.isSome_iff_exists.mpr ⟨journal, hknown⟩)
    · have hbrought : ∀ posting ∈ hydrate now prepared,
          EcRollupTxn.dated (txnEvents p.db.toLedgerDirectory · key)
              (HydratedPosting.rollupTxn posting)
            = EcRollupTxn.dated events (HydratedPosting.rollupTxn posting) := by
        intro posting hposting
        exact congrArg (List.map _) (hevents _ (accepts_leaf haccepts hposting))
      rw [List.flatMap_congr hbrought]
      by_cases hec : p.db.accounts.consistency true key.accountId
      · have hinline : ¬ p.db.accounts.consistency false key.accountId :=
          fun heq => Bool.noConfusion (Option.some.inj (heq.symm.trans hec))
        simp [hec, hinline]
      · by_cases hinline : p.db.accounts.consistency false key.accountId
        · simp [hec, hinline, List.flatMap_map]
        · -- the account is of neither mode, so it does not exist
          have hnone : ∀ posting ∈ hydrate now prepared,
              EcRollupTxn.dated events (HydratedPosting.rollupTxn posting) = [] := by
            intro posting hposting
            have hleaf : ∀ entry ∈ (HydratedPosting.rollupTxn posting).entries,
                p.db.Leaf entry.accountId := accepts_leaf haccepts hposting
            rw [EcRollupTxn.dated, List.map_eq_nil_iff, ← hevents _ hleaf]
            exact hsound.backed.txnEvents_unknown hleaf (unknown_of_no_mode hec hinline)
          have hnone := List.flatMap_eq_nil_iff.mpr hnone
          simp only [hec, hinline, if_false, List.flatMap_map, hnone]
          exact List.Perm.refl _

theorem FollowsEffective.land (h : FollowsEffective events key p) (hsound : p.Sound)
    (hevents : ∀ tx : EcRollupTxn, (∀ entry ∈ tx.entries, p.db.Leaf entry.accountId) →
      txnEvents p.db.toLedgerDirectory tx key = events tx)
    (hjournal : p.db.AlwaysEffective key.journalId)
    {order : RowOrder} {count : ℕ} {tables : BalanceTables}
    (hland : flush order p.db.toLedgerDirectory p.db.entries p.db.toBalanceTables
      ((p.db.outbox.drop p.position).take count) = .ok tables) :
    FollowsEffective events key
      { db := { p.db with toBalanceTables := tables }, position := p.position + count } := by
  refine ⟨h.toFollows.land hsound hevents hland, ?_⟩
  obtain ⟨timelines, htable, htimelines, hperm⟩ := h.timelines
  have hcommitted := (hsound.land_spec hland).1
  rw [handedOver_eq hsound.nodup_entries (hsound.part_stream count)] at hcommitted
  have hrun := (hsound.land_spec hland).2
  rw [foldlM_ecStep] at hrun
  split at hrun
  · rename_i hready
    obtain ⟨effectiveBalances, heffective, rfl⟩ := Option.map_eq_some_iff.mp hrun
    obtain ⟨timelines', htable', htimelines', hperm'⟩ := foldlM_ecEffectiveStep_dated
      hsound.reachable.valid.identified hjournal _ htable htimelines
      (fun tx htx => ⟨hready tx htx, fun entry hentry => (hcommitted tx htx entry hentry).1⟩)
      heffective
    refine ⟨timelines', htable', htimelines', hperm'.trans ?_⟩
    rw [folded_land, List.flatMap_append]
    refine hperm.append ?_
    have hbrought : ∀ tx ∈ (transactionsOf ((p.db.outbox.drop p.position).take count)).map
        (committedTxn p.db.entries),
        EcRollupTxn.dated (ecEvents order p.db.toLedgerDirectory · key) tx
          = if p.db.accounts.consistency true key.accountId then EcRollupTxn.dated events tx
            else [] := by
      intro tx htx
      obtain ⟨transaction, -, rfl⟩ := List.mem_map.mp htx
      unfold EcRollupTxn.dated
      dsimp only
      rw [ecEvents_eq order (hsound.txn_leaf transaction), hevents _ (hsound.txn_leaf transaction)]
      split <;> rfl
    rw [List.flatMap_congr hbrought]
    by_cases hec : p.db.accounts.consistency true key.accountId <;> simp [hec]
  · cases hrun

theorem FollowsEffective.administer (h : FollowsEffective events key p) (hsound : p.Sound)
    {directory : LedgerDirectory} (hkeeps : p.db.toLedgerDirectory.KeepsModes directory)
    (templates : String → Option TxTemplateValues) (accountControls : ControlTable) :
    FollowsEffective events key { p with
      db := { p.db with
        toLedgerDirectory := directory
        templates := templates
        accountControls := accountControls } } := by
  refine ⟨h.toFollows.administer hsound hkeeps templates accountControls, ?_⟩
  obtain ⟨timelines, htable, htimelines, hperm⟩ := h.timelines
  refine ⟨timelines, htable, htimelines, ?_⟩
  by_cases hknown : p.db.accounts key.accountId = none
  · -- an account that was not there has no timeline
    have hnil : ∀ txns : List EcRollupTxn, txns ⊆ p.committed →
        txns.flatMap (EcRollupTxn.dated events) = [] := by
      intro txns hsub
      rw [List.flatMap_eq_nil_iff]
      intro tx htx
      rw [EcRollupTxn.dated, h.unknown hknown tx (hsub htx)]
      rfl
    rw [hnil _ (folded_subset hsound key.accountId)] at hperm
    refine hperm.trans (List.Perm.of_eq (hnil _ ?_).symm)
    unfold folded
    split
    · exact List.map_subset _ (fun _ => transactionsOf_landed_subset hsound)
    · exact List.Subset.refl _
  · refine hperm.trans (List.Perm.of_eq (congrArg _ ?_))
    unfold folded
    exact congrArg _ (if_congr (hkeeps.consistency hknown true).symm rfl rfl)

/-- **The timeline of a balance over a run**, in a journal that keeps effective balances. -/
theorem Run.followsEffective {Change : LedgerDirectory → LedgerDirectory → Prop}
    {first : Pipeline} (Keeps : LedgerDirectory → Prop)
    (hchange : ∀ directory directory', Change directory directory' →
      directory.KeepsModes directory')
    (hkeeps : ∀ directory directory', Change directory directory' → Keeps directory' →
      Keeps directory)
    (hevents : ∀ directory, Keeps directory → directory.SetsBacked → ∀ tx : EcRollupTxn,
      (∀ entry ∈ tx.entries, directory.Leaf entry.accountId) →
      txnEvents directory tx key = events tx)
    (hjournal : ∀ directory, Keeps directory → directory.AlwaysEffective key.journalId)
    (hsound : first.Sound) (hfirst : FollowsEffective events key first)
    (hrun : Run Change first p) :
    Keeps p.db.toLedgerDirectory → FollowsEffective events key p := by
  induction hrun with
  | start => exact fun _ => hfirst
  | @post p db' order ids now batch hbefore hpost ih =>
      intro hkeep
      have hp := hbefore.sound hchange hsound
      obtain ⟨prepared, -, -, effectiveBalances, hposted, -⟩ :=
        postAllInOp_posted hp.reachable.valid hpost
      have hkeep : Keeps p.db.toLedgerDirectory := by
        have hsame : db'.toLedgerDirectory = p.db.toLedgerDirectory := by
          rw [hposted, LedgerDb.posted_toLedgerDirectory]
        exact hsame ▸ hkeep
      exact (ih hkeep).post hp (hevents _ hkeep hp.backed) (hjournal _ hkeep) hpost
  | @land p tables order count hbefore hcount hland ih =>
      intro hkeep
      have hp := hbefore.sound hchange hsound
      exact (ih hkeep).land hp (hevents _ hkeep hp.backed) (hjournal _ hkeep) hland
  | @administer p directory templates accountControls hbefore hadminister ih =>
      intro hkeep
      have hp := hbefore.sound hchange hsound
      exact (ih (hkeeps _ _ hadminister hkeep)).administer hp (hchange _ _ hadminister) _ _

theorem followsEffective_start (directory : LedgerDirectory)
    (templates : String → Option TxTemplateValues) (accountControls : ControlTable) :
    FollowsEffective events key (start directory templates accountControls) := by
  refine ⟨follows_start _ _ _, fun _ => [],
    ⟨fun _ => List.Pairwise.nil, fun _ => rfl, fun _ _ _ _ => rfl⟩,
    fun _ _ h => (List.not_mem_nil h).elim, ?_⟩
  unfold folded
  split <;> exact List.Perm.refl _

end FollowsEffective

end Pipeline

end CalaLedger
