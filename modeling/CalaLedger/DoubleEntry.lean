import CalaLedger.EcRollup.DatedHistory
import Mathlib.Algebra.BigOperators.Ring.Finset

/-! # Double entry

Every template evaluation is balanced: on each currency and layer the credits of a transaction equal
its debits, unless a sum rounds. On a drained ledger the balances of the accounts that back no set
are therefore balanced in sum, the settled ones and, in a journal that keeps effective balances,
those of every day, on every layer on which no sum of the amounts rounds (`double_entry_conserved`).
Sets only ever repeat what their members hold, so they have no part in the sum. -/

namespace CalaLedger

open Foundations (VersionedTable)

/-! ## Net totals -/

/-- Debits less credits. -/
def BalanceAmount.net (amount : BalanceAmount) : ℚ :=
  amount.drBalance.value - amount.crBalance.value

/-- Debits less credits of a current balance; a balance without a row is zero. -/
def BalanceTable.net (table : BalanceTable) (key : BalanceKey) (layer : Layer) : ℚ :=
  ((table.value key).map (fun snapshot => (snapshot.layer layer).net)).getD 0

/-- `EffectiveBalanceRepo::find_in_op`: the cumulative balance as of a day, by
`ORDER BY effective DESC, version DESC LIMIT 1`. -/
def EffectiveTable.findInOp (table : EffectiveTable) (key : BalanceKey) (date : NaiveDate) :
    Option EffectiveBalanceSnapshot :=
  ((table key).filter (fun stored => stored.effective ≤ date)).argmax
    (fun stored => toLex (stored.effective, stored.version))

/-- Debits less credits of the cumulative balance as of a day. -/
def EffectiveTable.net (table : EffectiveTable) (key : BalanceKey) (date : NaiveDate)
    (layer : Layer) : ℚ :=
  ((table.findInOp key date).map (fun stored => (stored.layer layer).net)).getD 0

section Net

/-- A run adds its entries to a side one after the other. -/
theorem side_runLast (key : BalanceKey) (timeds : List TimedEntry) (layer : Layer)
    (direction : DebitOrCredit) :
    ((VersionedTable.runLast (nextTimed key) none timeds).map
        (fun snapshot : BalanceSnapshot => (snapshot.layer layer).side direction)).getD 0
      = ((timeds.map Prod.snd).map (fun entry : EntryValues =>
          entry.unitsOn layer direction)).foldl (· + ·) 0 := by
  induction timeds using List.reverseRecOn with
  | nil => rfl
  | append_singleton timeds timed ih =>
      rw [VersionedTable.runLast_append, List.map_append, List.map_append, List.foldl_append, ← ih]
      cases VersionedTable.runLast (nextTimed key) none timeds with
      | none =>
          refine (updateSnapshot_side _ _ _ _ _).trans (congrArg (· + _) ?_)
          exact (congrArg (·.side direction) (firstSnapshot_layer _ _ _ _)).trans
            (BalanceAmount.zero_side _ _)
      | some snapshot => exact updateSnapshot_side _ _ _ _ _

/-- The net of what a run leaves is the net of its entries. -/
theorem net_runLast (key : BalanceKey) (timeds : List TimedEntry) {layer : Layer}
    (hsums : NetsRepresentable (timeds.map Prod.snd) layer) :
    ((VersionedTable.runLast (nextTimed key) none timeds).map
        (fun snapshot => (snapshot.layer layer).net)).getD 0
      = netOf (timeds.map Prod.snd) layer := by
  have hside : ∀ direction, (((VersionedTable.runLast (nextTimed key) none timeds).map
        (fun snapshot : BalanceSnapshot => (snapshot.layer layer).side direction)).getD 0).value
      = postedOn (timeds.map Prod.snd) layer direction := by
    intro direction
    rw [side_runLast, (hsums.sums direction).value_foldl]
  rw [netOf, ← hside, ← hside]
  cases VersionedTable.runLast (nextTimed key) none timeds with
  | none => exact (sub_self _).symm
  | some snapshot => rfl

/-- The rows of a sorted timeline are in the order of their days and versions. -/
theorem replayFrom_strict (key : BalanceKey) {timeline : List DatedEntry} :
    ∀ {before : List DatedEntry}, Foundations.SortedBy Prod.fst timeline →
      (replayFrom key before timeline).Pairwise
        (fun a b => toLex (a.effective, a.version) < toLex (b.effective, b.version)) := by
  induction timeline with
  | nil => exact fun _ => List.Pairwise.nil
  | cons dated rest ih =>
      intro before hsorted
      refine List.Pairwise.cons (fun row hrow => ?_) (ih hsorted.tail)
      obtain ⟨⟨later, hlater, hday⟩, hversion⟩ := mem_replayFrom key hrow
      have hle := hsorted.head_le (List.mem_cons_of_mem _ hlater)
      rw [Prod.Lex.toLex_lt_toLex]
      show dated.1 < row.effective ∨ dated.1 = row.effective ∧ _
      rcases hle.lt_or_eq with hlt | heq
      · exact Or.inl (hday ▸ hlt)
      · have hsame : dated.1 = row.effective := heq.trans hday.symm
        refine Or.inr ⟨hsame, ?_⟩
        show (before ++ [dated]).countP (fun d => d.1 = dated.1) < row.version
        rw [hsame]
        exact hversion

/-- **The balance as of a day** is the net of the entries of the timeline up to the day. -/
theorem TableReplays.net {table : EffectiveTable} {timelines : BalanceKey → List DatedEntry}
    (h : TableReplays table timelines) (key : BalanceKey) (date : NaiveDate) {layer : Layer}
    (hsums : NetsRepresentable ((timelines key).map Prod.snd) layer) :
    table.net key date layer
      = netOf (((timelines key).filter (fun dated => dated.1 ≤ date)).map Prod.snd) layer := by
  have hrows := rows_upTo (h.rows key) (h.sorted key) date
  have hsorted := (h.sorted key).filter (fun dated => decide (dated.1 ≤ date))
  have hstrict : ((table key).filter (fun stored => stored.effective ≤ date)).Pairwise (fun a b =>
      toLex (a.effective, a.version) < toLex (b.effective, b.version)) := by
    have hreplay := @replayFrom_strict key _ [] hsorted
    rw [← replay, ← hrows, List.pairwise_map] at hreplay
    exact hreplay
  set kept := (table key).filter (fun stored => stored.effective ≤ date) with hkept
  have hside : ∀ direction, ((kept.getLast?.map
        (fun stored : EffectiveBalanceSnapshot => (stored.layer layer).side direction)).getD 0).value
      = postedOn (((timelines key).filter (fun dated => dated.1 ≤ date)).map Prod.snd) layer
          direction := by
    intro direction
    have htotals := h.totals key layer direction (hsums.sums direction)
    rw [cumulativeOn, cumulativeFrom_eq, List.map_nil, postedOn_nil] at htotals
    have hdays : Foundations.SortedBy Prod.fst ((timelines key).map (fun dated =>
        (dated.1, (dated.2.unitsOn layer direction).value))) := List.pairwise_map.mpr (h.sorted key)
    have hupTo := congrArg (List.filter (fun row => decide (row.1 ≤ date))) htotals
    rw [Foundations.cumulated_upTo hdays, List.map_map, List.filter_map, List.filter_map] at hupTo
    have hlast := Foundations.getLast?_cumulated (0 : ℚ) (((timelines key).filter (fun dated =>
      dated.1 ≤ date)).map (fun dated => (dated.1, (dated.2.unitsOn layer direction).value)))
    refine Eq.trans ?_ ((congrArg (fun rows : List (NaiveDate × ℚ) =>
      ((rows.getLast?.map Prod.snd).getD 0)) hupTo).trans (hlast.trans ?_))
    · rw [List.getLast?_map, Option.map_map]
      show _ = ((kept.getLast?.map _).getD 0 : ℚ)
      cases kept.getLast? with
      | none => exact Foundations.RoundedDecimal.value_zero
      | some stored => rfl
    · rw [zero_add, postedOn, List.map_map, List.map_map]
      rfl
  rw [EffectiveTable.net, EffectiveTable.findInOp, Foundations.argmax_eq_getLast? hstrict, netOf,
    ← hside, ← hside]
  cases kept.getLast? with
  | none => exact (sub_self _).symm
  | some stored => rfl

/-- Entries split by account add up again. -/
theorem sum_netOf {accounts : Finset AccountId} (entries : List EntryValues) (layer : Layer)
    (h : ∀ entry ∈ entries, entry.accountId ∈ accounts) :
    ∑ accountId ∈ accounts, netOf (entries.filter (fun entry => entry.accountId = accountId)) layer
      = netOf entries layer := by
  induction entries with
  | nil => simp
  | cons entry entries ih =>
      obtain ⟨hentry, hrest⟩ := List.forall_mem_cons.mp h
      have hsplit : ∀ accountId,
          netOf ((entry :: entries).filter (fun e => e.accountId = accountId)) layer
            = (if entry.accountId = accountId then netOf [entry] layer else 0)
              + netOf (entries.filter (fun e => e.accountId = accountId)) layer := by
        intro accountId
        rw [List.filter_cons]
        by_cases hown : entry.accountId = accountId
        · simp only [hown, decide_true, if_true]
          exact netOf_cons _ _ _
        · simp [hown]
      rw [Finset.sum_congr rfl (fun accountId _ => hsplit accountId), Finset.sum_add_distrib,
        ih hrest, Finset.sum_ite_eq, if_pos hentry, ← netOf_cons]

end Net

/-! ## Balanced transactions -/

/-- Credits and debits agree on every currency and layer. -/
def Balanced (entries : List EntryValues) : Prop :=
  ∀ currency layer, entryTotal entries currency layer = 0

section Balanced

/-- The signed amounts of a layer are its net, with credits counted up. -/
theorem sum_signedUnits {entries : List EntryValues} {layer : Layer}
    (h : ∀ entry ∈ entries, entry.layer = layer) :
    (entries.map (fun entry => entry.signedUnits.value)).sum = -netOf entries layer := by
  induction entries with
  | nil => simp
  | cons entry entries ih =>
      obtain ⟨hentry, hrest⟩ := List.forall_mem_cons.mp h
      have hone : entry.signedUnits.value = -netOf [entry] layer := by
        unfold EntryValues.signedUnits
        cases hdirection : entry.direction <;>
          simp [netOf, EntryValues.unitsOn, hentry, hdirection]
      rw [List.map_cons, List.sum_cons, ih hrest, netOf_cons, neg_add, hone]

/-- Entries of other layers do not matter to the net of a layer. -/
theorem netOf_filter_layer (entries : List EntryValues) (layer : Layer) :
    netOf (entries.filter (fun entry => entry.layer = layer)) layer = netOf entries layer := by
  induction entries with
  | nil => rfl
  | cons entry entries ih =>
      rw [List.filter_cons, netOf_cons entry]
      by_cases hlayer : entry.layer = layer
      · rw [if_pos (decide_eq_true hlayer), netOf_cons, ih]
      · rw [if_neg (by simpa using hlayer), ih]
        simp [netOf, EntryValues.unitsOn, hlayer]

/-- The running total of a currency and layer is the exact net, where nothing rounds. -/
theorem value_entryTotal {entries : List EntryValues} {currency : Currency} {layer : Layer}
    (hsums : NetsRepresentable (entries.filter (fun entry => entry.currency = currency)) layer) :
    (entryTotal entries currency layer).value
      = -netOf (entries.filter (fun entry => entry.currency = currency)) layer := by
  have hfilter : entries.filter (fun entry => entry.currency = currency ∧ entry.layer = layer)
      = (entries.filter (fun entry => entry.currency = currency)).filter
          (fun entry => entry.layer = layer) := by
    rw [List.filter_filter]
    simp [Bool.decide_and, Bool.and_comm]
  rw [entryTotal, hfilter]
  generalize entries.filter (fun entry => entry.currency = currency) = own at hsums
  have hlayer : ∀ entry ∈ own.filter (fun entry => entry.layer = layer), entry.layer = layer :=
    fun entry hentry => by simpa using (List.mem_filter.mp hentry).2
  rw [exactWhere_representable.foldl, exactWhere_representable.zero, zero_add, List.map_map]
  · exact (sum_signedUnits hlayer).trans (congrArg Neg.neg (netOf_filter_layer own layer))
  · rintro front ⟨back, hfront⟩
    obtain ⟨first, last, hown, rfl, -⟩ := List.map_eq_append_iff.mp hfront.symm
    have hfirst : first.Sublist (own.filter (fun entry => entry.layer = layer)) :=
      hown ▸ List.sublist_append_left _ _
    obtain ⟨d, hd⟩ := hsums first (hfirst.trans List.filter_sublist).subperm
    refine ⟨d.neg, ?_⟩
    rw [d.value_neg, hd, exactWhere_representable.zero, zero_add, List.map_map]
    exact (sum_signedUnits (fun entry hentry => hlayer entry (hfirst.subset hentry))).symm

/-- A balanced transaction has no net on any currency. -/
theorem Balanced.netOf_currency {entries : List EntryValues} (h : Balanced entries)
    {currency : Currency} {layer : Layer}
    (hsums : NetsRepresentable (entries.filter (fun entry => entry.currency = currency)) layer) :
    netOf (entries.filter (fun entry => entry.currency = currency)) layer = 0 := by
  have hvalue := value_entryTotal hsums
  rw [h currency layer, Foundations.RoundedDecimal.value_zero] at hvalue
  exact neg_eq_zero.mp hvalue.symm

/-- **What is prepared is balanced.** -/
theorem prepareTransaction_balanced {ids : EntryIds} {txId : TransactionId}
    {template : TxTemplateValues} {params : Params} {prepared : PreparedTransaction}
    (h : prepareTransaction ids txId template params = .ok prepared) :
    Balanced prepared.entries := by
  obtain ⟨context, -, h⟩ := Foundations.bind_eq_ok.mp h
  obtain ⟨journalId, -, h⟩ := Foundations.bind_eq_ok.mp h
  obtain ⟨entries, hentries, h⟩ := Foundations.bind_eq_ok.mp h
  obtain ⟨effective, -, h⟩ := Foundations.bind_eq_ok.mp h
  obtain ⟨correlationId, -, h⟩ := Foundations.bind_eq_ok.mp h
  obtain ⟨externalId, -, h⟩ := Foundations.bind_eq_ok.mp h
  obtain ⟨description, -, h⟩ := Foundations.bind_eq_ok.mp h
  obtain ⟨metadata, -, h⟩ := Foundations.bind_eq_ok.mp h
  cases h
  obtain ⟨newEntries, -, h⟩ := Foundations.bind_eq_ok.mp hentries
  split at h
  · cases h
  · rename_i hnone
    cases h
    intro currency layer
    by_cases hmem : (currency, layer) ∈ entries.map (fun entry => (entry.currency, entry.layer))
    · have hzero := List.find?_eq_none.mp hnone _ hmem
      simpa using hzero
    · -- a currency and layer without entries
      have hempty : entries.filter (fun entry => entry.currency = currency
          ∧ entry.layer = layer) = [] := by
        rw [List.filter_eq_nil_iff]
        intro entry hentry hmatch
        rw [decide_eq_true_eq] at hmatch
        exact hmem (List.mem_map.mpr ⟨entry, hentry, Prod.ext hmatch.1 hmatch.2⟩)
      show ((entries.filter _).map _).foldl _ 0 = 0
      rw [hempty]
      rfl

/-- **Every committed transaction is balanced**, over any run. -/
theorem Pipeline.Run.balanced {Change : LedgerDirectory → LedgerDirectory → Prop}
    {first p : Pipeline}
    (hchange : ∀ directory directory', Change directory directory' →
      directory.KeepsModes directory')
    (hsound : first.Sound) (hfirst : ∀ tx ∈ first.committed, Balanced tx.entries)
    (hrun : Pipeline.Run Change first p) : ∀ tx ∈ p.committed, Balanced tx.entries := by
  induction hrun with
  | start => exact hfirst
  | @post p db' order ids now batch hbefore hpost ih =>
      have hp := hbefore.sound hchange hsound
      obtain ⟨prepared, hmap, haccepts, effectiveBalances, rfl, -⟩ :=
        postAllInOp_posted hp.reachable.valid hpost
      intro tx htx
      rw [(hp.committed_post (wellPrepared_of_mapM hmap) haccepts effectiveBalances).1,
        List.mem_append] at htx
      rcases htx with hold | hnew
      · exact ih tx hold
      · obtain ⟨posting, hposting, rfl⟩ := List.mem_map.mp hnew
        obtain ⟨transaction, htransaction, rfl⟩ := List.mem_map.mp hposting
        obtain ⟨input, -, hinput⟩ := Foundations.exists_of_mem_mapM hmap transaction htransaction
        obtain ⟨template, -, hprepare⟩ := prepareInput_eq_some.mp hinput
        exact prepareTransaction_balanced hprepare
  | land order count hbefore hcount hland ih => exact ih
  | administer directory templates accountControls hbefore hkeeps ih => exact ih

end Balanced

/-! ## Accounts that back no set -/

/-- What a transaction enters on an account itself. -/
def leafEvents (key : BalanceKey) (tx : EcRollupTxn) : List TimedEntry :=
  if key.journalId = tx.journalId then
    (tx.entries.filter (fun entry =>
      entry.accountId = key.accountId ∧ entry.currency = key.currency)).map
        (fun entry => (tx.createdAt, entry))
  else
    []

/-- The entries of some transactions in a journal and currency. -/
def journalEntries (txns : List EcRollupTxn) (journalId : JournalId) (currency : Currency) :
    List EntryValues :=
  txns.flatMap (fun tx =>
    if journalId = tx.journalId then tx.entries.filter (fun entry => entry.currency = currency)
    else [])

/-- An account that backs no set, where it exists. -/
def LedgerDirectory.NoSet (directory : LedgerDirectory) (accountId : AccountId) : Prop :=
  ∀ row, directory.accounts accountId = some row → row.isAccountSet = false

section Leaf

/-- An account that backs no set is reached by its own entries only. -/
theorem txnEvents_leaf {directory : LedgerDirectory} (hbacked : directory.SetsBacked)
    {key : BalanceKey} (hleaf : directory.NoSet key.accountId) (tx : EcRollupTxn) :
    txnEvents directory tx key = leafEvents key tx := by
  have hsets : ∀ entry : EntryValues,
      (inlineTargets (directory.memberships.walkMappings key.journalId) entry).filter
          (· = key.accountId)
        = [entry.accountId].filter (· = key.accountId) := by
    intro entry
    unfold inlineTargets
    rw [List.filter_append]
    have hnone : ((directory.memberships.walkMappings key.journalId entry.accountId).map
        AccountId.ofSet).filter (· = key.accountId) = [] := by
      rw [List.filter_eq_nil_iff]
      intro accountId hmem heq
      obtain ⟨setId, hset, rfl⟩ := List.mem_map.mp hmem
      have hjournal := of_decide_eq_true (List.mem_filter.mp hset).2
      obtain ⟨row, hrow, hbacks⟩ := hbacked setId key.journalId hjournal
      rw [decide_eq_true_eq] at heq
      rw [heq] at hrow
      exact Bool.noConfusion ((hleaf row hrow).symm.trans hbacks)
    rw [hnone, List.nil_append]
  unfold txnEvents leafEvents
  refine congrArg (ite _ · _) (congrArg _ ?_)
  rw [hits_congr _ _ _ (fun entry _ => hsets entry)]
  induction tx.entries with
  | nil => rfl
  | cons entry entries ih =>
      rw [← List.singleton_append, hits_append, List.filter_append, ih]
      refine congrArg (· ++ _) ?_
      by_cases haccount : entry.accountId = key.accountId
      · by_cases hcurrency : entry.currency = key.currency <;> simp [hits, haccount, hcurrency]
      · by_cases hcurrency : entry.currency = key.currency <;> simp [hits, haccount, hcurrency]

theorem map_snd_leafEvents (txns : List EcRollupTxn) (journalId : JournalId)
    (accountId : AccountId) (currency : Currency) :
    (txns.flatMap (leafEvents ⟨journalId, accountId, currency⟩)).map Prod.snd
      = (journalEntries txns journalId currency).filter
          (fun entry => entry.accountId = accountId) := by
  unfold journalEntries
  rw [List.map_flatMap, List.filter_flatMap]
  refine List.flatMap_congr (fun tx _ => ?_)
  unfold leafEvents
  dsimp only
  split
  · rw [List.map_map, List.filter_filter]
    simp [Function.comp_def, Bool.decide_and]
  · rfl

/-- The entries of a timeline are those of its events. -/
theorem map_snd_flatMap_dated (events : EcRollupTxn → List TimedEntry) (txns : List EcRollupTxn) :
    (txns.flatMap (EcRollupTxn.dated events)).map Prod.snd = (txns.flatMap events).map Prod.snd := by
  rw [List.map_flatMap, List.map_flatMap]
  refine List.flatMap_congr (fun tx _ => ?_)
  rw [EcRollupTxn.dated, List.map_map]
  rfl

theorem map_snd_dated (txns : List EcRollupTxn) (journalId : JournalId) (accountId : AccountId)
    (currency : Currency) (date : NaiveDate) :
    ((txns.flatMap (EcRollupTxn.dated (leafEvents ⟨journalId, accountId, currency⟩))).filter
        (fun dated => dated.1 ≤ date)).map Prod.snd
      = (journalEntries (txns.filter (fun tx => tx.effective ≤ date)) journalId currency).filter
          (fun entry => entry.accountId = accountId) := by
  rw [← map_snd_leafEvents]
  induction txns with
  | nil => rfl
  | cons tx txns ih =>
      rw [List.flatMap_cons, List.filter_append, List.map_append, ih, List.filter_cons]
      unfold EcRollupTxn.dated
      by_cases hday : tx.effective ≤ date
      · simp [hday, List.filter_map, Function.comp_def]
      · simp [hday, List.filter_map, Function.comp_def]

/-- Balanced transactions have no net in any journal and currency. -/
theorem netOf_journalEntries {txns : List EcRollupTxn} (h : ∀ tx ∈ txns, Balanced tx.entries)
    {journalId : JournalId} {currency : Currency} {layer : Layer}
    (hsums : NetsRepresentable (journalEntries txns journalId currency) layer) :
    netOf (journalEntries txns journalId currency) layer = 0 := by
  unfold journalEntries at hsums ⊢
  induction txns with
  | nil => exact netOf_nil layer
  | cons tx txns ih =>
      obtain ⟨htx, hrest⟩ := List.forall_mem_cons.mp h
      rw [List.flatMap_cons] at hsums ⊢
      rw [netOf_append, ih hrest (hsums.subperm (List.sublist_append_right _ _).subperm), add_zero]
      have hown := hsums.subperm (List.sublist_append_left _ _).subperm
      split
      · rename_i hjournal
        rw [if_pos hjournal] at hown
        exact htx.netOf_currency hown
      · exact netOf_nil layer

end Leaf

/-! ## Conservation -/

/-- Administration keeps what creation fixed: the flags of accounts and whether a journal keeps
effective balances. -/
structure LedgerDirectory.KeepsConfig (directory directory' : LedgerDirectory) : Prop
    extends directory.KeepsModes directory' where
  journals : ∀ journalId journal, directory.journals journalId = some journal →
    ∃ journal', directory'.journals journalId = some journal'
      ∧ journal'.insertEffectiveBalances = journal.insertEffectiveBalances

theorem LedgerDirectory.KeepsModes.noSet {directory directory' : LedgerDirectory}
    (h : directory.KeepsModes directory') {accountId : AccountId}
    (hleaf : directory'.NoSet accountId) : directory.NoSet accountId := by
  intro row hrow
  obtain ⟨row', hrow', -, hset⟩ := h.accounts accountId row hrow
  exact hset.symm.trans (hleaf row' hrow')

theorem LedgerDirectory.KeepsConfig.alwaysEffective {directory directory' : LedgerDirectory}
    (h : directory.KeepsConfig directory') {journalId : JournalId}
    (heffective : directory'.AlwaysEffective journalId) : directory.AlwaysEffective journalId := by
  intro journal hjournal
  obtain ⟨journal', hjournal', hsame⟩ := h.journals journalId journal hjournal
  exact hsame.symm.trans (heffective journal' hjournal')

section Conserved

variable {directory : LedgerDirectory} {templates : String → Option TxTemplateValues}
  {accountControls : ControlTable} {p : Pipeline}

/-- **Double entry is conserved.** Take any run of postings, landings and administration, drained,
and any finite set of accounts that back no set, among them all that have a balance in the journal
and currency. On every layer on which the sums of the committed amounts are decimals their current
balances add up to zero; and if the journal keeps effective balances, so do their cumulative balances
as of any day. -/
theorem double_entry_conserved (hbacked : directory.SetsBacked)
    (hrun : Pipeline.Run LedgerDirectory.KeepsConfig
      (Pipeline.start directory templates accountControls) p) (hdrained : p.Drained)
    (journalId : JournalId) (currency : Currency) (layer : Layer) (accounts : Finset AccountId)
    (hleaf : ∀ accountId ∈ accounts, p.db.Leaf accountId)
    (hall : ∀ accountId, p.db.Leaf accountId →
      p.db.balances.current ⟨journalId, accountId, currency⟩ ≠ none → accountId ∈ accounts)
    (hexact : NetsRepresentable (journalEntries p.committed journalId currency) layer) :
    ∑ accountId ∈ accounts, p.db.balances.net ⟨journalId, accountId, currency⟩ layer = 0
      ∧ (p.db.AlwaysEffective journalId → ∀ date,
          ∑ accountId ∈ accounts,
            p.db.effectiveBalances.net ⟨journalId, accountId, currency⟩ date layer = 0) := by
  have hchange : ∀ d d' : LedgerDirectory, d.KeepsConfig d' → d.KeepsModes d' :=
    fun _ _ h => h.toKeepsModes
  have hstart := Pipeline.sound_start hbacked templates accountControls
  have hsound := hrun.sound hchange hstart
  have hbalanced : ∀ tx ∈ p.committed, Balanced tx.entries :=
    hrun.balanced hchange hstart (fun _ h => (List.not_mem_nil h).elim)
  have hnoSet : ∀ accountId, p.db.Leaf accountId → p.db.NoSet accountId := by
    rintro accountId ⟨row, hrow, hset⟩ row' hrow'
    rw [Option.some.inj (hrow'.symm.trans hrow)]
    exact hset
  have hfollows : ∀ accountId, p.db.Leaf accountId → Pipeline.Follows
      (leafEvents ⟨journalId, accountId, currency⟩) ⟨journalId, accountId, currency⟩ p := by
    intro accountId haccount
    refine hrun.follows (fun d => d.NoSet accountId) hchange
      (fun d d' h hkeep => h.toKeepsModes.noSet hkeep)
      (fun d hkeep hd tx _ => txnEvents_leaf hd hkeep tx) hstart
      (Pipeline.follows_start directory templates accountControls) (hnoSet accountId haccount)
  -- every entry of the journal and currency is on one of the accounts
  have hcovered : ∀ entry ∈ journalEntries p.committed journalId currency,
      entry.accountId ∈ accounts := by
    intro entry hentry
    have hmem : ∃ tx ∈ p.committed, entry ∈ tx.entries := by
      obtain ⟨tx, htx, hentry⟩ := List.mem_flatMap.mp hentry
      split at hentry
      · exact ⟨tx, htx, (List.mem_filter.mp hentry).1⟩
      · cases hentry
    obtain ⟨tx, htx, hown⟩ := hmem
    obtain ⟨transaction, -, rfl⟩ := List.mem_map.mp htx
    have haccount := hsound.txn_leaf transaction entry hown
    refine hall _ haccount (fun hnone => ?_)
    rw [hsound.reachable.valid.balances.mirrors.current_eq_none, (hfollows _ haccount).history,
      VersionedTable.run_eq_nil, hdrained.folded_eq hsound] at hnone
    have hempty := map_snd_leafEvents p.committed journalId entry.accountId currency
    rw [hnone] at hempty
    have hin : entry ∈ (journalEntries p.committed journalId currency).filter
        (fun e => e.accountId = entry.accountId) :=
      List.mem_filter.mpr ⟨hentry, decide_eq_true rfl⟩
    rw [← hempty] at hin
    cases hin
  have hown : ∀ accountId, NetsRepresentable ((journalEntries p.committed journalId currency).filter
      (fun entry => entry.accountId = accountId)) layer :=
    fun accountId => hexact.subperm List.filter_sublist.subperm
  constructor
  · rw [← netOf_journalEntries hbalanced hexact, ← sum_netOf _ layer hcovered]
    refine Finset.sum_congr rfl (fun accountId hmem => ?_)
    have h := hfollows accountId (hleaf accountId hmem)
    rw [BalanceTable.net, h.value hsound, hdrained.folded_eq hsound, net_runLast,
      map_snd_leafEvents]
    rw [map_snd_leafEvents]
    exact hown accountId
  · intro heffective date
    set upTo := p.committed.filter (fun tx => tx.effective ≤ date) with hupTo
    have hbalanced' : ∀ tx ∈ upTo, Balanced tx.entries :=
      fun tx htx => hbalanced tx (List.mem_filter.mp htx).1
    have hcovered' : ∀ entry ∈ journalEntries upTo journalId currency,
        entry.accountId ∈ accounts := by
      intro entry hentry
      obtain ⟨tx, htx, hentry⟩ := List.mem_flatMap.mp hentry
      exact hcovered entry (List.mem_flatMap.mpr ⟨tx, (List.mem_filter.mp htx).1, hentry⟩)
    have hexact' : NetsRepresentable (journalEntries upTo journalId currency) layer :=
      hexact.subperm (List.filter_sublist.flatMap _).subperm
    rw [← netOf_journalEntries hbalanced' hexact', ← sum_netOf _ layer hcovered']
    refine Finset.sum_congr rfl (fun accountId hmem => ?_)
    have h : Pipeline.FollowsEffective (leafEvents ⟨journalId, accountId, currency⟩)
        ⟨journalId, accountId, currency⟩ p := by
      refine hrun.followsEffective
        (fun d => d.NoSet accountId ∧ d.AlwaysEffective journalId) hchange
        (fun d d' h hkeep => ⟨h.toKeepsModes.noSet hkeep.1, h.alwaysEffective hkeep.2⟩)
        (fun d hkeep hd tx _ => txnEvents_leaf hd hkeep.1 tx) (fun d hkeep => hkeep.2) hstart
        (Pipeline.followsEffective_start directory templates accountControls)
        ⟨hnoSet accountId (hleaf accountId hmem), heffective⟩
    obtain ⟨timelines, htable, -, hperm⟩ := h.timelines
    rw [hdrained.folded_eq hsound] at hperm
    rw [htable.net, netOf_perm ((hperm.filter _).map _), map_snd_dated]
    have hentries := (hperm.map Prod.snd).subperm
    rw [map_snd_flatMap_dated, map_snd_leafEvents] at hentries
    exact (hown accountId).subperm hentries

end Conserved

/-- The sample batch posted and landed: the accounts 1 and 2 hold twenty dollars each, one of them on
either side, and the set repeats the second. -/
theorem double_entry_conserved_sample :
    ∃ p, Pipeline.Run LedgerDirectory.KeepsConfig (Pipeline.start streamingDb.toLedgerDirectory
          streamingDb.templates streamingDb.accountControls) p
      ∧ p.Drained
      ∧ p.db.balances.net ⟨⟨1⟩, ⟨2⟩, ⟨"USD"⟩⟩ .settled = 20
      ∧ ∑ accountId ∈ ({⟨1⟩, ⟨2⟩} : Finset AccountId),
          p.db.balances.net ⟨⟨1⟩, accountId, ⟨"USD"⟩⟩ .settled = 0
      ∧ ∑ accountId ∈ ({⟨1⟩, ⟨2⟩} : Finset AccountId),
          p.db.effectiveBalances.net ⟨⟨1⟩, accountId, ⟨"USD"⟩⟩ 0 .settled = 0 := by
  have hwhole : (postAllInOp default sampleIds 0 streamingDb sampleBatch).toOption.map (fun db =>
      (db.outbox.length, (journalEntries (Pipeline.committed ⟨db, 0⟩) ⟨1⟩ ⟨"USD"⟩).map
        EntryValues.units, (flush default db.toLedgerDirectory db.entries db.toBalanceTables
        ((db.outbox.drop 0).take 6)).toOption.map (fun tables =>
          tables.balances.net ⟨⟨1⟩, ⟨2⟩, ⟨"USD"⟩⟩ .settled))) = some (6, [10, 10, 10, 10], some 20) := by
    decide +kernel
  obtain ⟨db, hdb, hsome⟩ := Option.map_eq_some_iff.mp hwhole
  rw [Prod.mk.injEq, Prod.mk.injEq] at hsome
  obtain ⟨houtbox, hunits, hflushed⟩ := hsome
  obtain ⟨tables, htables, hnet⟩ := Option.map_eq_some_iff.mp hflushed
  have hposted := Foundations.toOption_eq_some.mp hdb
  set first := Pipeline.start streamingDb.toLedgerDirectory streamingDb.templates
    streamingDb.accountControls with hfirst
  have hpost : Pipeline.Run LedgerDirectory.KeepsConfig first ⟨db, 0⟩ :=
    (Pipeline.Run.start).post default sampleIds 0 sampleBatch hposted
  have hland : Pipeline.Run LedgerDirectory.KeepsConfig first
      ⟨{ db with toBalanceTables := tables }, 0 + 6⟩ :=
    hpost.land default 6 houtbox.ge (Foundations.toOption_eq_some.mp htables)
  have hdrained : Pipeline.Drained ⟨{ db with toBalanceTables := tables }, 0 + 6⟩ := houtbox.symm
  have hdirectory : db.toLedgerDirectory = streamingDb.toLedgerDirectory := by
    obtain ⟨prepared, -, -, effectiveBalances, rfl, -⟩ :=
      postAllInOp_posted reachable_streamingDb.valid hposted
    rfl
  have hleaf : ∀ accountId : AccountId,
      db.Leaf accountId ↔ accountId ∈ ({⟨1⟩, ⟨2⟩} : Finset AccountId) := by
    rw [hdirectory]
    rintro ⟨uuid⟩
    unfold LedgerDirectory.Leaf
    show (∃ row, ((sampleDirectory.accounts ⟨uuid⟩).map _) = some row ∧ _) ↔ _
    by_cases huuid : uuid ∈ [1, 2, 3]
    · simp only [List.mem_cons, List.not_mem_nil, or_false] at huuid
      rcases huuid with rfl | rfl | rfl <;> decide
    · have hother : ¬ (uuid = 1 ∨ uuid = 2) := fun h => huuid (by
        rcases h with rfl | rfl <;> decide)
      have hnone : sampleDirectory.accounts ⟨uuid⟩ = none := if_neg huuid
      rw [hnone]
      simpa using hother
  -- four amounts of ten
  have hexact : NetsRepresentable (journalEntries (Pipeline.committed ⟨db, 0⟩) ⟨1⟩ ⟨"USD"⟩)
      .settled := by
    refine netsRepresentable_of_digits (Nat.zero_le 28) (fun _ => 10) (fun entry hentry => ?_) ?_ _
    · have hten : entry.units ∈ [(10 : Decimal), 10, 10, 10] :=
        hunits ▸ List.mem_map_of_mem hentry
      have hvalue : ∀ units ∈ [(10 : Decimal), 10, 10, 10], units.value = (10 : ℤ) / 10 ^ 0 := by
        decide +kernel
      exact hvalue _ hten
    · have hcount := congrArg List.length hunits
      rw [List.length_map] at hcount
      rw [List.map_const', hcount]
      decide
  have hconserved := double_entry_conserved setsBacked_streamingDb hland hdrained ⟨1⟩ ⟨"USD"⟩
    .settled {⟨1⟩, ⟨2⟩} (fun accountId hmem => (hleaf accountId).mpr hmem)
    (fun accountId haccount _ => (hleaf accountId).mp haccount) hexact
  refine ⟨_, hland, hdrained, hnet, hconserved.1, hconserved.2 ?_ 0⟩
  show db.AlwaysEffective ⟨1⟩
  rw [hdirectory]
  rintro journal ⟨⟩
  rfl

end CalaLedger
