import CalaLedger.EcRollup.Pipeline

/-! # Two folds, one history

Whether a balance is kept by the posting flow or by the rollup is the consistency mode of its
account. Over a fixed membership graph the mode does not show in the settled history: a ledger that
runs the same postings under other modes (`LedgerDirectory.withModes`) accepts them alike
(`SamePostings.post`), and once the rollup has caught up both ledgers hold the same versions
(`ec_and_inline_folds_agree`). -/

namespace CalaLedger

open Foundations (VersionedTable)

/-- The same accounts under other consistency modes. -/
def LedgerDirectory.withModes (directory : LedgerDirectory) (modes : AccountId → Bool) :
    LedgerDirectory :=
  { directory with
    accounts := fun accountId => (directory.accounts accountId).map (fun row =>
      { row with eventuallyConsistent := modes accountId }) }

/-- Administration over a fixed membership graph. -/
structure LedgerDirectory.KeepsGraph (directory directory' : LedgerDirectory) : Prop
    extends directory.KeepsModes directory' where
  memberships : directory'.memberships = directory.memberships

section WithModes

variable {directory : LedgerDirectory} (modes : AccountId → Bool)

theorem LedgerDirectory.SetsBacked.withModes (h : directory.SetsBacked) :
    (directory.withModes modes).SetsBacked := by
  intro setId journalId hset
  obtain ⟨row, hrow, hbacks⟩ := h setId journalId hset
  refine ⟨{ row with eventuallyConsistent := modes (AccountId.ofSet setId) }, ?_, hbacks⟩
  show (directory.accounts _).map _ = _
  rw [hrow]
  rfl

theorem LedgerDirectory.KeepsGraph.withModes {directory' : LedgerDirectory}
    (h : directory.KeepsGraph directory') :
    (directory.withModes modes).KeepsGraph (directory'.withModes modes) := by
  refine ⟨⟨fun accountId row hrow => ?_, h.backed.withModes modes⟩, h.memberships⟩
  obtain ⟨old, hold, rfl⟩ := Option.map_eq_some_iff.mp hrow
  obtain ⟨new, hnew, -, hset⟩ := h.accounts accountId old hold
  refine ⟨{ new with eventuallyConsistent := modes accountId }, ?_, rfl, hset⟩
  show (directory'.accounts accountId).map _ = _
  rw [hnew]
  rfl

theorem locked_withModes (accountId : AccountId) :
    (directory.withModes modes).accounts.locked accountId
      ↔ directory.accounts.locked accountId := by
  show ((directory.accounts accountId).map _).map AccountRow.status = _ ↔ _
  rw [Option.map_map]
  rfl

theorem consistency_withModes (eventuallyConsistent : Bool) (accountId : AccountId) :
    (directory.withModes modes).accounts.consistency eventuallyConsistent accountId
      ↔ directory.accounts accountId ≠ none ∧ modes accountId = eventuallyConsistent := by
  show ((directory.accounts accountId).map _).map AccountRow.eventuallyConsistent = _ ↔ _
  rw [Option.map_map]
  cases directory.accounts accountId <;> simp

/-- A posting may be posted whatever the modes. -/
theorem Postable.withModes {posting : PreparedTransaction} (h : Postable directory posting) :
    Postable (directory.withModes modes) posting := by
  refine ⟨h.journal, fun entry hentry => ?_, fun entry hentry setId hset => ?_⟩
  · obtain ⟨row, hrow, hbacks, hstatus⟩ := h.accounts entry hentry
    refine ⟨{ row with eventuallyConsistent := modes entry.accountId }, ?_, hbacks, hstatus⟩
    show (directory.accounts entry.accountId).map _ = _
    rw [hrow]
    rfl
  · rw [locked_withModes]
    exact h.ancestors entry hentry setId hset

/-- What a transaction brings to a balance does not depend on the modes. -/
theorem txnEvents_congr {directory' : LedgerDirectory}
    (h : directory'.memberships = directory.memberships) (tx : EcRollupTxn) (key : BalanceKey) :
    txnEvents directory' tx key = txnEvents directory tx key := by
  unfold txnEvents
  rw [h]

end WithModes

/-! ## The same postings under other modes -/

/-- Two ledgers that have accepted the same postings under different modes. -/
structure SamePostings (modes : AccountId → Bool) (db other : LedgerDb) : Prop where
  directory : other.toLedgerDirectory = db.toLedgerDirectory.withModes modes
  templates : other.templates = db.templates
  accountControls : other.accountControls = db.accountControls
  velocityBalances : other.velocityBalances = db.velocityBalances
  transactions : other.transactions = db.transactions
  entries : other.entries = db.entries
  outbox : other.outbox = db.outbox

section Same

variable {modes : AccountId → Bool} {db other : LedgerDb}

theorem SamePostings.memberships (h : SamePostings modes db other) :
    other.memberships = db.memberships := by
  rw [h.directory]
  rfl

theorem SamePostings.accepts (h : SamePostings modes db other) {now : Timestamp}
    {prepared : List PreparedTransaction} (haccepts : Accepts db now prepared) :
    Accepts other now prepared := by
  refine ⟨?_, ?_, ?_, ⟨?_, ?_, ?_⟩⟩
  · rw [h.directory]
    exact fun posting hposting => (haccepts.postable posting hposting).withModes modes
  · rw [h.memberships, h.accountControls]
    exact haccepts.matchable
  · rw [h.memberships, h.accountControls, h.velocityBalances]
    exact haccepts.enforced
  · rw [h.transactions]
    exact haccepts.fresh.transactions
  · rw [h.transactions]
    exact haccepts.fresh.externalIds
  · rw [h.entries]
    exact haccepts.fresh.entries

/-- **What one ledger accepts, the other accepts.** -/
theorem SamePostings.post (h : SamePostings modes db other) (hdb : db.Valid) (hother : other.Valid)
    {order : RowOrder} {ids : EntryIds} {now : Timestamp} {batch : List PostingInput}
    {db' : LedgerDb} (hpost : postAllInOp order ids now db batch = .ok db') :
    ∃ other', postAllInOp order ids now other batch = .ok other' ∧ SamePostings modes db' other' := by
  by_cases hbatch : batch = []
  · subst hbatch
    cases hpost
    exact ⟨other, rfl, h⟩
  · obtain ⟨prepared, hmap, hdistinct, hcap, hprepared⟩ := (postAllInOp_eq_ok hbatch).mp hpost
    have hwell := wellPrepared_of_mapM hmap
    have hspec := postPreparedInOp_spec order now hdb hwell
    have hspec' := postPreparedInOp_spec order now hother hwell
    obtain ⟨other', hother'⟩ := hspec'.1.mpr (h.accepts (hspec.1.mp ⟨db', hprepared⟩))
    obtain ⟨effectiveBalances, rfl, -⟩ := hspec.2 db' hprepared
    obtain ⟨effectiveBalances', rfl, -⟩ := hspec'.2 other' hother'
    refine ⟨_, (postAllInOp_eq_ok hbatch).mpr ⟨prepared, h.templates ▸ hmap, hdistinct, hcap,
      hother'⟩, h.directory, h.templates, h.accountControls, ?_, ?_, ?_, ?_⟩
    · show VelocityTable.advance now other.velocityBalances (velocityEvents other.accountControls
        (batchTargets other.memberships.walkMappings _)) = _
      rw [h.velocityBalances, h.accountControls, h.memberships]
      rfl
    · show other.transactions ++ _ = db.transactions ++ _
      rw [h.transactions]
    · show other.entries ++ _ = db.entries ++ _
      rw [h.entries]
    · show other.outbox ++ _ = db.outbox ++ _
      rw [h.outbox]

/-- **Every run has its counterpart under other modes**, with the same postings and no landings. -/
theorem exists_run_withModes (modes : AccountId → Bool) {directory : LedgerDirectory}
    (hbacked : directory.SetsBacked) {templates : String → Option TxTemplateValues}
    {accountControls : ControlTable} {p : Pipeline}
    (hrun : Pipeline.Run LedgerDirectory.KeepsGraph
      (Pipeline.start directory templates accountControls) p) :
    ∃ q, Pipeline.Run LedgerDirectory.KeepsGraph
        (Pipeline.start (directory.withModes modes) templates accountControls) q
      ∧ SamePostings modes p.db q.db := by
  have hchange : ∀ d d' : LedgerDirectory, d.KeepsGraph d' → d.KeepsModes d' :=
    fun _ _ h => h.toKeepsModes
  have hstart := Pipeline.sound_start hbacked templates accountControls
  have hstart' := Pipeline.sound_start (hbacked.withModes modes) templates accountControls
  induction hrun with
  | start => exact ⟨_, .start, rfl, rfl, rfl, rfl, rfl, rfl, rfl⟩
  | post order ids now batch hbefore hpost ih =>
      obtain ⟨q, hq, hsame⟩ := ih
      have hvalid := (hbefore.sound hchange hstart).reachable.valid
      have hvalid' := (hq.sound hchange hstart').reachable.valid
      obtain ⟨db', hpost', hsame'⟩ := hsame.post hvalid hvalid' hpost
      exact ⟨_, hq.post order ids now batch hpost', hsame'⟩
  | land order count hbefore hcount hland ih =>
      obtain ⟨q, hq, hsame⟩ := ih
      exact ⟨q, hq, hsame.directory, hsame.templates, hsame.accountControls, hsame.velocityBalances,
        hsame.transactions, hsame.entries, hsame.outbox⟩
  | administer directory templates accountControls hbefore hkeeps ih =>
      obtain ⟨q, hq, hsame⟩ := ih
      refine ⟨_, hq.administer (directory.withModes modes) templates accountControls ?_, rfl, rfl,
        rfl, hsame.velocityBalances, hsame.transactions, hsame.entries, hsame.outbox⟩
      rw [hsame.directory]
      exact hkeeps.withModes modes

end Same

/-! ## The agreement -/

section Agree

variable {directory : LedgerDirectory} {templates : String → Option TxTemplateValues}
  {accountControls : ControlTable} {p : Pipeline}

/-- The history of any balance, over a fixed membership graph. -/
theorem Pipeline.Run.follows_graph (hbacked : directory.SetsBacked)
    (hrun : Pipeline.Run LedgerDirectory.KeepsGraph
      (Pipeline.start directory templates accountControls) p) (key : BalanceKey) :
    p.db.memberships = directory.memberships
      ∧ Pipeline.Follows (fun tx => txnEvents directory tx key) key p := by
  have hmemberships : p.db.memberships = directory.memberships := by
    induction hrun with
    | start => rfl
    | @post p db' order ids now batch hbefore hpost ih =>
        have hvalid := (hbefore.sound (fun _ _ h => h.toKeepsModes)
          (Pipeline.sound_start hbacked templates accountControls)).reachable.valid
        obtain ⟨prepared, -, -, effectiveBalances, rfl, -⟩ := postAllInOp_posted hvalid hpost
        exact ih
    | land order count hbefore hcount hland ih => exact ih
    | administer directory templates accountControls hbefore hkeeps ih =>
        exact hkeeps.memberships.trans ih
  refine ⟨hmemberships, ?_⟩
  refine hrun.follows (fun d => d.memberships = directory.memberships)
    (fun _ _ h => h.toKeepsModes) (fun _ _ h hkeep => h.memberships.symm.trans hkeep)
    (fun d hkeep _ tx _ => txnEvents_congr hkeep tx key)
    (Pipeline.sound_start hbacked templates accountControls) (Pipeline.follows_start _ _ _)
    hmemberships

/-- A balance that is reached is of one of the two modes. -/
theorem mode_of_known {accounts : AccountTable} {accountId : AccountId}
    (hknown : accounts accountId ≠ none) :
    (accounts.consistency false accountId ∧ ¬ accounts.consistency true accountId)
      ∨ (¬ accounts.consistency false accountId ∧ accounts.consistency true accountId) := by
  obtain ⟨row, hrow⟩ := Option.ne_none_iff_exists'.mp hknown
  unfold AccountTable.consistency
  rw [hrow]
  cases hmode : row.eventuallyConsistent <;> simp [hmode]

/-- **The two folds agree.** Take any run of postings, landings and administration over a fixed
membership graph, drained. Under whatever other modes, the same postings are accepted, and where
they make an account synchronous the posting flow writes for it, current row and history, what this
ledger holds. A transaction that brings entries to a balance is folded into it by one of the two
folds and not by the other, and every history is the run of all that was brought. -/
theorem ec_and_inline_folds_agree (hbacked : directory.SetsBacked)
    (hrun : Pipeline.Run LedgerDirectory.KeepsGraph
      (Pipeline.start directory templates accountControls) p) (hdrained : p.Drained) :
    (∀ modes : AccountId → Bool, ∃ q, Pipeline.Run LedgerDirectory.KeepsGraph
          (Pipeline.start (directory.withModes modes) templates accountControls) q
        ∧ q.db.transactions = p.db.transactions ∧ q.db.entries = p.db.entries
        ∧ ∀ key : BalanceKey, modes key.accountId = false →
            q.db.balances.history key = p.db.balances.history key
              ∧ q.db.balances.current key = p.db.balances.current key)
      ∧ (∀ (order : RowOrder) (transaction : TransactionValues) (key : BalanceKey),
          transaction ∈ p.db.transactions →
          let tx := committedTxn p.db.entries transaction
          txnEvents directory tx key ≠ [] →
            Xor (inlineEvents p.db.toLedgerDirectory transaction.createdAt
                (transaction, tx.entries) key ≠ [])
              (ecEvents order p.db.toLedgerDirectory tx key ≠ []))
      ∧ ∀ key, p.db.balances.history key = VersionedTable.run (nextTimed key) none
          (p.db.transactions.flatMap (fun transaction =>
            txnEvents directory (committedTxn p.db.entries transaction) key)) := by
  have hchange : ∀ d d' : LedgerDirectory, d.KeepsGraph d' → d.KeepsModes d' :=
    fun _ _ h => h.toKeepsModes
  have hsound := hrun.sound hchange (Pipeline.sound_start hbacked templates accountControls)
  have hhistory : ∀ key, p.db.balances.history key = VersionedTable.run (nextTimed key) none
      (p.db.transactions.flatMap (fun transaction =>
        txnEvents directory (committedTxn p.db.entries transaction) key)) := by
    intro key
    rw [(hrun.follows_graph hbacked key).2.history, hdrained.folded_eq hsound, Pipeline.committed,
      List.flatMap_map]
  refine ⟨fun modes => ?_, fun order transaction key htransaction => ?_, hhistory⟩
  · obtain ⟨q, hq, hsame⟩ := exists_run_withModes modes hbacked hrun
    have hsoundq := hq.sound hchange
      (Pipeline.sound_start (hbacked.withModes modes) templates accountControls)
    refine ⟨q, hq, hsame.transactions, hsame.entries, fun key hmode => ?_⟩
    have hinline : ¬ q.db.accounts.consistency true key.accountId := by
      rw [hsame.directory, consistency_withModes, hmode]
      exact fun h => Bool.noConfusion h.2
    have hfolded : q.folded key.accountId
        = q.db.transactions.map (committedTxn q.db.entries) := by
      rw [Pipeline.folded, if_neg hinline]
    have hsamehistory : q.db.balances.history key = p.db.balances.history key := by
      rw [(hq.follows_graph (hbacked.withModes modes) key).2.history, hfolded, hsame.transactions,
        hsame.entries, hhistory, List.flatMap_map]
      exact congrArg _ (List.flatMap_congr (fun _ _ => txnEvents_congr rfl _ _))
    refine ⟨hsamehistory, ?_⟩
    rw [hsoundq.reachable.valid.balances.mirrors.current,
      hsound.reachable.valid.balances.mirrors.current, hsamehistory]
  · intro tx hbrought
    have hmemberships := (hrun.follows_graph hbacked key).1
    have hleaf := hsound.txn_leaf transaction
    have hknown : p.db.accounts key.accountId ≠ none := by
      intro hnone
      refine hbrought ?_
      rw [← txnEvents_congr hmemberships]
      exact hsound.backed.txnEvents_unknown hleaf hnone
    have hinlined : inlineEvents p.db.toLedgerDirectory transaction.createdAt
          (transaction, tx.entries) key
        = if p.db.accounts.consistency false key.accountId then
            txnEvents p.db.toLedgerDirectory tx key
          else [] := inlineEvents_eq rfl key
    rw [hinlined, ecEvents_eq order hleaf, txnEvents_congr hmemberships]
    rcases mode_of_known hknown with ⟨hinline, hec⟩ | ⟨hinline, hec⟩
    · rw [if_pos hinline, if_neg hec]
      exact Or.inl ⟨hbrought, not_not.mpr rfl⟩
    · rw [if_neg hinline, if_pos hec]
      exact Or.inr ⟨hbrought, not_not.mpr rfl⟩

end Agree

/-! ## A drained sample -/

/-- The sample batch posted and landed at once: the set has two versions. -/
theorem exists_drained_sample (Change : LedgerDirectory → LedgerDirectory → Prop) :
    ∃ p, Pipeline.Run Change (Pipeline.start streamingDb.toLedgerDirectory
          streamingDb.templates streamingDb.accountControls) p
      ∧ p.Drained ∧ (p.db.balances.history ⟨⟨1⟩, ⟨3⟩, ⟨"USD"⟩⟩).length = 2 := by
  have hwhole : (postAllInOp default sampleIds 0 streamingDb sampleBatch).toOption.map (fun db =>
      (db.outbox.length, (flush default db.toLedgerDirectory db.entries db.toBalanceTables
        ((db.outbox.drop 0).take 6)).toOption.map (fun tables =>
          (tables.balances.history ⟨⟨1⟩, ⟨3⟩, ⟨"USD"⟩⟩).length))) = some (6, some 2) := by
    decide +kernel
  obtain ⟨db, hdb, hsome⟩ := Option.map_eq_some_iff.mp hwhole
  rw [Prod.mk.injEq] at hsome
  obtain ⟨tables, htables, hlength⟩ := Option.map_eq_some_iff.mp hsome.2
  set first := Pipeline.start streamingDb.toLedgerDirectory streamingDb.templates
    streamingDb.accountControls with hfirst
  have hpost : Pipeline.Run Change first ⟨db, 0⟩ :=
    (Pipeline.Run.start).post default sampleIds 0 sampleBatch (Foundations.toOption_eq_some.mp hdb)
  exact ⟨_, hpost.land default 6 hsome.1.ge (Foundations.toOption_eq_some.mp htables),
    hsome.1.symm, hlength⟩

/-- The posting flow would have written two as well. -/
theorem ec_and_inline_folds_agree_sample :
    ∃ p, Pipeline.Run LedgerDirectory.KeepsGraph (Pipeline.start streamingDb.toLedgerDirectory
          streamingDb.templates streamingDb.accountControls) p
      ∧ p.Drained ∧ (p.db.balances.history ⟨⟨1⟩, ⟨3⟩, ⟨"USD"⟩⟩).length = 2
      ∧ ∃ q, Pipeline.Run LedgerDirectory.KeepsGraph (Pipeline.start
            (streamingDb.toLedgerDirectory.withModes (fun _ => false))
            streamingDb.templates streamingDb.accountControls) q
        ∧ (q.db.balances.history ⟨⟨1⟩, ⟨3⟩, ⟨"USD"⟩⟩).length = 2 := by
  obtain ⟨p, hrun, hdrained, hlength⟩ := exists_drained_sample LedgerDirectory.KeepsGraph
  obtain ⟨q, hq, -, -, hkeys⟩ :=
    (ec_and_inline_folds_agree setsBacked_streamingDb hrun hdrained).1 (fun _ => false)
  refine ⟨p, hrun, hdrained, hlength, q, hq, ?_⟩
  rw [(hkeys _ rfl).1]
  exact hlength

end CalaLedger
