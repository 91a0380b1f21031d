import CalaLedger.Posting.Reachable

/-! # The landings of the streaming rollup

The outbox handler that rolls committed transactions up into eventually-consistent balances. Events
are collected into a batch; when the batch lands, `flush` tops incomplete transactions up from the
entry table and applies the batch. A transaction's events need not land together.

On a `CommittedStream` a landing hands the rollup its transactions, each with its complete entry set
(`handedOver_eq`). -/

namespace CalaLedger

/-- A transaction pulled from a `TransactionCreated` event. -/
structure PendingTx where
  id : TransactionId
  journalId : JournalId
  effective : NaiveDate
  createdAt : Timestamp
  entryIds : List EntryId
  deriving DecidableEq

def PendingTx.ofValues (transaction : TransactionValues) : PendingTx :=
  { id := transaction.id
    journalId := transaction.journalId
    effective := transaction.effective
    createdAt := transaction.createdAt
    entryIds := transaction.entryIds }

/-- One batch landing's accumulator. -/
structure EcRollupBatch where
  txns : List PendingTx
  entries : HashMap TransactionId (List EntryValues)

namespace EcRollupBatch

def empty : EcRollupBatch := ⟨[], ∅⟩

/-- The entries collected for a transaction. -/
def collected (batch : EcRollupBatch) (id : TransactionId) : List EntryValues :=
  (batch.entries.lookup id).getD []

def pushTx (batch : EcRollupBatch) (tx : PendingTx) : EcRollupBatch :=
  { batch with txns := batch.txns ++ [tx] }

def pushEntry (batch : EcRollupBatch) (entry : EntryValues) : EcRollupBatch :=
  { batch with
    entries := batch.entries.insert entry.transactionId
      (batch.collected entry.transactionId ++ [entry]) }

/-- `EcRollupBatch::missing_entry_ids`. -/
def missingEntryIds (batch : EcRollupBatch) : List EntryId :=
  batch.txns.flatMap (fun tx =>
    tx.entryIds.filter (fun id => id ∉ (batch.collected tx.id).map EntryValues.id))

/-- Remove the entries of some ids from the fetched ones, in the order of the ids. -/
def takeFetched : List EntryId → HashMap EntryId EntryValues →
    List EntryValues × HashMap EntryId EntryValues
  | [], fetched => ([], fetched)
  | id :: ids, fetched =>
      match fetched.lookup id with
      | none => takeFetched ids fetched
      | some entry =>
          let (entries, fetched) := takeFetched ids (fetched.erase id)
          (entry :: entries, fetched)

/-- The transactions of a batch, one after the other; each takes its entries out of both maps. -/
def rollupTxns : List PendingTx → HashMap TransactionId (List EntryValues) →
    HashMap EntryId EntryValues → List EcRollupTxn
  | [], _, _ => []
  | tx :: txns, entries, fetched =>
      let collected := (entries.lookup tx.id).getD []
      let (entryValues, fetched) :=
        if collected.length ≠ tx.entryIds.length then
          let (topUp, fetched) := takeFetched tx.entryIds fetched
          (collected ++ topUp, fetched)
        else
          (collected, fetched)
      { journalId := tx.journalId
        effective := tx.effective
        createdAt := tx.createdAt
        entries := Foundations.sortBy EntryValues.sequence entryValues }
        :: rollupTxns txns (entries.erase tx.id) fetched

/-- `EcRollupBatch::into_rollup_txns`. -/
def intoRollupTxns (batch : EcRollupBatch) (fetched : HashMap EntryId EntryValues) :
    List EcRollupTxn :=
  rollupTxns batch.txns batch.entries fetched

/-- `EcBalanceRollupHandler::handle_persistent`. -/
def handlePersistent (batch : EcRollupBatch) : OutboxEventPayload → EcRollupBatch
  | .transactionCreated transaction => batch.pushTx (PendingTx.ofValues transaction)
  | .entryCreated entry => batch.pushEntry entry

/-- The batch of the events that land together. -/
def collect (events : List OutboxEventPayload) : EcRollupBatch :=
  events.foldl handlePersistent empty

end EcRollupBatch

/-- `Entries::find_all_in_op`: the stored entries of some ids. -/
def findAllInOp (entries : List EntryValues) (ids : List EntryId) :
    HashMap EntryId EntryValues :=
  (entries.filter (fun entry => entry.id ∈ ids)).foldl (fun found entry =>
    found.insert entry.id entry) ∅

/-- The transactions a landing hands to the apply. -/
def handedOver (entries : List EntryValues) (events : List OutboxEventPayload) :
    List EcRollupTxn :=
  let batch := EcRollupBatch.collect events
  batch.intoRollupTxns (findAllInOp entries batch.missingEntryIds)

/-- `EcBalanceRollupHandler::flush` of the events that landed. -/
def flush (order : RowOrder) (directory : LedgerDirectory) (entries : List EntryValues)
    (tables : BalanceTables) (events : List OutboxEventPayload) :
    Except BalanceError BalanceTables :=
  applyEcRollupInOp order directory tables (handedOver entries events)

/-! ## The stream -/

/-- The transactions of a stream. -/
def transactionsOf (stream : List OutboxEventPayload) : List TransactionValues :=
  stream.filterMap (fun
    | .transactionCreated transaction => some transaction
    | .entryCreated _ => none)

/-- The entries of a stream. -/
def entriesOf (stream : List OutboxEventPayload) : List EntryValues :=
  stream.filterMap (fun
    | .transactionCreated _ => none
    | .entryCreated entry => some entry)

/-- A committed transaction, as the rollup should see it: with its complete entry set. -/
def committedTxn (entries : List EntryValues) (transaction : TransactionValues) : EcRollupTxn :=
  { journalId := transaction.journalId
    effective := transaction.effective
    createdAt := transaction.createdAt
    entries := entries.filter (fun entry => entry.transactionId = transaction.id) }

/-- A stored transaction lists its complete entry set, in sequence. -/
structure CompleteTransaction (entries : List EntryValues) (transaction : TransactionValues) :
    Prop where
  entryIds : transaction.entryIds
    = (committedTxn entries transaction).entries.map EntryValues.id
  ordered : (committedTxn entries transaction).entries.Pairwise
    (fun a b => a.sequence < b.sequence)
  journal : ∀ entry ∈ (committedTxn entries transaction).entries,
    entry.journalId = transaction.journalId

/-- A stream of committed events: each transaction and each entry at most once, every transaction
complete in the entry table. -/
structure CommittedStream (entries : List EntryValues) (stream : List OutboxEventPayload) :
    Prop where
  transactions : ((transactionsOf stream).map TransactionValues.id).Nodup
  complete : ∀ transaction ∈ transactionsOf stream, CompleteTransaction entries transaction
  distinct : (entriesOf stream).Nodup
  stored : ∀ entry ∈ entriesOf stream, entry ∈ entries

section Stream

variable {entries : List EntryValues}

theorem transactionsOf_append (front back : List OutboxEventPayload) :
    transactionsOf (front ++ back) = transactionsOf front ++ transactionsOf back :=
  List.filterMap_append

theorem entriesOf_append (front back : List OutboxEventPayload) :
    entriesOf (front ++ back) = entriesOf front ++ entriesOf back :=
  List.filterMap_append

/-- A part of a committed stream, in any order, is one. -/
theorem CommittedStream.subperm {stream part : List OutboxEventPayload}
    (h : CommittedStream entries stream) (hpart : part.Subperm stream) :
    CommittedStream entries part := by
  obtain ⟨middle, hperm, hsub⟩ := hpart
  have htransactions : (transactionsOf part).Perm (transactionsOf middle) :=
    (hperm.filterMap _).symm
  have hentries : (entriesOf part).Perm (entriesOf middle) := (hperm.filterMap _).symm
  refine ⟨?_, ?_, ?_, ?_⟩
  · rw [(htransactions.map _).nodup_iff]
    exact h.transactions.sublist ((hsub.filterMap _).map _)
  · exact fun t ht => h.complete t ((hsub.filterMap _).subset (htransactions.mem_iff.mp ht))
  · rw [hentries.nodup_iff]
    exact h.distinct.sublist (hsub.filterMap _)
  · exact fun e he => h.stored e ((hsub.filterMap _).subset (hentries.mem_iff.mp he))

end Stream

/-! ## One landing -/

section Landing

variable {entries : List EntryValues}

/-- What a landing collects. -/
theorem collect_spec (events : List OutboxEventPayload) :
    (EcRollupBatch.collect events).txns = (transactionsOf events).map PendingTx.ofValues
      ∧ ∀ id, (EcRollupBatch.collect events).collected id
          = (entriesOf events).filter (fun entry => entry.transactionId = id) := by
  induction events using List.reverseRecOn with
  | nil => exact ⟨rfl, fun _ => rfl⟩
  | append_singleton events event ih =>
      obtain ⟨htxns, hcollected⟩ := ih
      have hcollect : EcRollupBatch.collect (events ++ [event])
          = (EcRollupBatch.collect events).handlePersistent event := by
        rw [EcRollupBatch.collect, List.foldl_append]
        rfl
      rw [hcollect, transactionsOf_append, entriesOf_append]
      cases event with
      | transactionCreated transaction =>
          constructor
          · change (EcRollupBatch.collect events).txns ++ [PendingTx.ofValues transaction] = _
            rw [htxns, List.map_append]
            rfl
          · intro id
            change (EcRollupBatch.collect events).collected id = _
            rw [hcollected, List.filter_append]
            exact (List.append_nil _).symm
      | entryCreated entry =>
          constructor
          · change (EcRollupBatch.collect events).txns = _
            rw [htxns, List.map_append]
            exact (List.append_nil _).symm
          · intro id
            change (((EcRollupBatch.collect events).entries.insert entry.transactionId
              ((EcRollupBatch.collect events).collected entry.transactionId
                ++ [entry])).lookup id).getD [] = _
            rw [List.filter_append]
            change _ = _ ++ [entry].filter _
            by_cases hid : entry.transactionId = id
            · subst hid
              rw [AList.lookup_insert, Option.getD_some, hcollected]
              simp
            · rw [AList.lookup_insert_ne (Ne.symm hid)]
              change (EcRollupBatch.collect events).collected id = _
              rw [hcollected]
              simp [hid]

/-- Taking the fetched entries of distinct ids. -/
theorem takeFetched_spec (ids : List EntryId) :
    ∀ fetched : HashMap EntryId EntryValues, ids.Nodup →
      (EcRollupBatch.takeFetched ids fetched).1 = ids.filterMap fetched.lookup
        ∧ ∀ id, (EcRollupBatch.takeFetched ids fetched).2.lookup id
            = if id ∈ ids then none else fetched.lookup id := by
  induction ids with
  | nil => exact fun fetched _ => ⟨rfl, fun id => by simp [EcRollupBatch.takeFetched]⟩
  | cons first ids ih =>
      intro fetched hnodup
      obtain ⟨hfirst, hnodup⟩ := List.nodup_cons.mp hnodup
      rw [EcRollupBatch.takeFetched, List.filterMap_cons]
      cases hlookup : fetched.lookup first with
      | none =>
          obtain ⟨htaken, hleft⟩ := ih fetched hnodup
          refine ⟨htaken, fun id => ?_⟩
          rw [hleft]
          by_cases hid : id = first
          · subst hid
            simp [hfirst, hlookup]
          · simp [hid]
      | some entry =>
          obtain ⟨htaken, hleft⟩ := ih (fetched.erase first) hnodup
          refine ⟨?_, fun id => ?_⟩
          · change entry :: (EcRollupBatch.takeFetched ids (fetched.erase first)).1 = _
            rw [htaken]
            refine congrArg (entry :: ·) (List.filterMap_congr (fun id hid => ?_))
            exact AList.lookup_erase_ne (fun heq => hfirst (heq ▸ hid))
          · change (EcRollupBatch.takeFetched ids (fetched.erase first)).2.lookup id = _
            rw [hleft]
            by_cases hid : id = first
            · subst hid
              simp
            · by_cases hmem : id ∈ ids
              · simp [hmem]
              · rw [if_neg hmem, AList.lookup_erase_ne hid]
                simp [hid, hmem]

/-- The fetch returns the requested entries. -/
theorem lookup_findAllInOp (hentries : (entries.map EntryValues.id).Nodup) {ids : List EntryId}
    {id : EntryId} {entry : EntryValues} :
    (findAllInOp entries ids).lookup id = some entry
      ↔ id ∈ ids ∧ entry ∈ entries ∧ entry.id = id := by
  rw [findAllInOp, Foundations.lookup_foldl_store EntryValues.id (fun entry => entry)]
  have hmem : ∀ e, e ∈ (entries.filter (fun e => e.id ∈ ids)).filter (fun e => e.id = id)
      ↔ id ∈ ids ∧ e ∈ entries ∧ e.id = id := by
    intro e
    rw [List.mem_filter, List.mem_filter, decide_eq_true_eq, decide_eq_true_eq]
    constructor
    · rintro ⟨⟨he, hids⟩, rfl⟩
      exact ⟨hids, he, rfl⟩
    · rintro ⟨hids, he, rfl⟩
      exact ⟨⟨he, hids⟩, rfl⟩
  rw [AList.lookup_empty, Option.or_none, Option.map_id', ← hmem]
  constructor
  · exact List.mem_of_getLast?
  · intro he
    have hne := List.ne_nil_of_mem he
    rw [List.getLast?_eq_some_getLast hne]
    refine congrArg some (List.inj_on_of_nodup_map hentries ?_ ?_ ?_)
    · exact ((hmem _).mp (List.getLast_mem hne)).2.1
    · exact ((hmem _).mp he).2.1
    · exact ((hmem _).mp (List.getLast_mem hne)).2.2.trans ((hmem _).mp he).2.2.symm

/-- **One transaction of a landing**: its collected entries, topped up and sorted, are its complete
entry set. -/
theorem topUp_eq (hentries : (entries.map EntryValues.id).Nodup) {transaction : TransactionValues}
    (hcomplete : CompleteTransaction entries transaction) {collected : List EntryValues}
    (hnodup : collected.Nodup)
    (hcollected : ∀ entry ∈ collected, entry ∈ (committedTxn entries transaction).entries)
    {fetched : HashMap EntryId EntryValues}
    (hfetched : ∀ entry ∈ (committedTxn entries transaction).entries,
      fetched.lookup entry.id = if entry ∈ collected then none else some entry) :
    Foundations.sortBy EntryValues.sequence
        (if collected.length ≠ transaction.entryIds.length then
          collected ++ transaction.entryIds.filterMap fetched.lookup
        else collected)
      = (committedTxn entries transaction).entries := by
  set own := (committedTxn entries transaction).entries with hown
  have hownNodup : own.Nodup := (List.Nodup.of_map _ hentries).filter _
  refine Foundations.sortBy_eq_of_perm ?_ hcomplete.ordered
  rw [hcomplete.entryIds, List.length_map]
  split
  · have htopUp : (own.map EntryValues.id).filterMap fetched.lookup
        = own.filter (fun entry => entry ∉ collected) := by
      rw [List.filterMap_map, ← List.filterMap_eq_filter]
      refine List.filterMap_congr (fun entry hentry => ?_)
      rw [Function.comp_apply, hfetched entry hentry]
      by_cases hin : entry ∈ collected <;> simp [hin, Option.guard]
    rw [htopUp]
    refine (List.perm_ext_iff_of_nodup ?_ hownNodup).mpr (fun entry => ?_)
    · refine List.nodup_append.mpr ⟨hnodup, hownNodup.filter _, fun a ha b hb hab => ?_⟩
      subst hab
      simpa [ha] using (List.mem_filter.mp hb).2
    · rw [List.mem_append, List.mem_filter]
      constructor
      · rintro (hin | ⟨hin, -⟩)
        · exact hcollected entry hin
        · exact hin
      · intro hin
        by_cases hc : entry ∈ collected
        · exact Or.inl hc
        · exact Or.inr ⟨hin, by simpa using hc⟩
  · rename_i hlength
    rw [not_not] at hlength
    exact (List.subperm_of_subset hnodup hcollected).perm_of_length_le hlength.ge

/-- The transactions of a landing, whatever was taken for the ones before. -/
theorem rollupTxns_eq (hentries : (entries.map EntryValues.id).Nodup)
    (transactions : List TransactionValues) :
    ∀ {collected : HashMap TransactionId (List EntryValues)}
      {fetched : HashMap EntryId EntryValues},
      (transactions.map TransactionValues.id).Nodup →
      (∀ transaction ∈ transactions, CompleteTransaction entries transaction) →
      (∀ transaction ∈ transactions, ((collected.lookup transaction.id).getD []).Nodup
        ∧ (∀ entry ∈ (collected.lookup transaction.id).getD [],
            entry ∈ (committedTxn entries transaction).entries)
        ∧ ∀ entry ∈ (committedTxn entries transaction).entries, fetched.lookup entry.id
            = if entry ∈ (collected.lookup transaction.id).getD [] then none else some entry) →
      EcRollupBatch.rollupTxns (transactions.map PendingTx.ofValues) collected fetched
        = transactions.map (committedTxn entries) := by
  induction transactions with
  | nil => exact fun _ _ _ => rfl
  | cons transaction transactions ih =>
      intro collected fetched hnodup hcomplete hready
      obtain ⟨hfirst, hnodup⟩ := List.nodup_cons.mp hnodup
      obtain ⟨hown, hcomplete⟩ := List.forall_mem_cons.mp hcomplete
      obtain ⟨⟨hdistinct, hcollected, hfetched⟩, hready⟩ := List.forall_mem_cons.mp hready
      have hids : transaction.entryIds.Nodup := by
        rw [hown.entryIds]
        exact hentries.sublist (List.filter_sublist.map _)
      obtain ⟨htaken, hleft⟩ := takeFetched_spec transaction.entryIds fetched hids
      set own := (collected.lookup transaction.id).getD [] with hcol
      -- what is left for the other transactions
      have hother : ∀ t ∈ transactions, t.id ≠ transaction.id :=
        fun t ht heq => hfirst (heq ▸ List.mem_map_of_mem ht)
      have hforeign : ∀ t ∈ transactions, ∀ entry ∈ (committedTxn entries t).entries,
          entry.id ∉ transaction.entryIds := by
        intro t ht entry hentry hmem
        rw [hown.entryIds] at hmem
        obtain ⟨entry', hentry', hid⟩ := List.mem_map.mp hmem
        obtain ⟨hmem, htransaction⟩ := List.mem_filter.mp hentry
        obtain ⟨hmem', htransaction'⟩ := List.mem_filter.mp hentry'
        have heq := List.inj_on_of_nodup_map hentries hmem' hmem hid
        subst heq
        rw [decide_eq_true_eq] at htransaction htransaction'
        exact hother t ht (htransaction.symm.trans htransaction')
      have hrest : ∀ fetched' : HashMap EntryId EntryValues,
          (∀ id, id ∉ transaction.entryIds → fetched'.lookup id = fetched.lookup id) →
          EcRollupBatch.rollupTxns (transactions.map PendingTx.ofValues)
              (collected.erase transaction.id) fetched'
            = transactions.map (committedTxn entries) := by
        intro fetched' hsame
        refine ih hnodup hcomplete (fun t ht => ?_)
        obtain ⟨hdistinct, hcollected, hfetched⟩ := hready t ht
        rw [AList.lookup_erase_ne (hother t ht)]
        refine ⟨hdistinct, hcollected, fun entry hentry => ?_⟩
        rw [hsame _ (hforeign t ht entry hentry)]
        exact hfetched entry hentry
      have htopUp := topUp_eq hentries hown hdistinct hcollected hfetched
      rw [List.map_cons, List.map_cons, EcRollupBatch.rollupTxns]
      change (let (entryValues, fetched) :=
          if own.length ≠ transaction.entryIds.length then
            (own ++ (EcRollupBatch.takeFetched transaction.entryIds fetched).1,
              (EcRollupBatch.takeFetched transaction.entryIds fetched).2)
          else (own, fetched);
        EcRollupTxn.mk transaction.journalId transaction.effective transaction.createdAt
            (Foundations.sortBy EntryValues.sequence entryValues)
          :: EcRollupBatch.rollupTxns (transactions.map PendingTx.ofValues)
            (collected.erase transaction.id) fetched) = _
      by_cases hlength : own.length ≠ transaction.entryIds.length
      · rw [if_pos hlength] at htopUp ⊢
        rw [← htaken] at htopUp
        dsimp only
        rw [htopUp, hrest _ (fun id hid => by rw [hleft, if_neg hid])]
        rfl
      · rw [if_neg hlength] at htopUp ⊢
        dsimp only
        rw [htopUp, hrest _ (fun _ _ => rfl)]
        rfl

/-- **A landing hands over its transactions, each complete**, in stream order. -/
theorem handedOver_eq (hentries : (entries.map EntryValues.id).Nodup)
    {events : List OutboxEventPayload} (h : CommittedStream entries events) :
    handedOver entries events = (transactionsOf events).map (committedTxn entries) := by
  obtain ⟨htxns, hcollected⟩ := collect_spec events
  set batch := EcRollupBatch.collect events with hbatch
  have hmem : ∀ transaction ∈ transactionsOf events, ∀ entry,
      entry ∈ batch.collected transaction.id →
        entry ∈ (committedTxn entries transaction).entries := by
    intro transaction _ entry hentry
    rw [hcollected] at hentry
    obtain ⟨hmem, htransaction⟩ := List.mem_filter.mp hentry
    exact List.mem_filter.mpr ⟨h.stored entry hmem, htransaction⟩
  have hmissing : ∀ transaction ∈ transactionsOf events,
      ∀ entry ∈ (committedTxn entries transaction).entries,
        entry.id ∈ batch.missingEntryIds ↔ entry ∉ batch.collected transaction.id := by
    intro transaction htransaction entry hentry
    have hstored := (List.mem_filter.mp hentry).1
    have hcol : ∀ {t}, t ∈ transactionsOf events →
        (entry.id ∈ (batch.collected t.id).map EntryValues.id ↔ entry ∈ batch.collected t.id) := by
      intro t ht
      constructor
      · intro hid
        obtain ⟨other, hother, heq⟩ := List.mem_map.mp hid
        have hotherStored := (List.mem_filter.mp (hmem t ht other hother)).1
        exact List.inj_on_of_nodup_map hentries hotherStored hstored heq ▸ hother
      · exact List.mem_map_of_mem
    rw [EcRollupBatch.missingEntryIds, htxns, List.mem_flatMap]
    constructor
    · rintro ⟨_, hpending, hid⟩
      obtain ⟨t, ht, rfl⟩ := List.mem_map.mp hpending
      obtain ⟨hid, hnew⟩ := List.mem_filter.mp hid
      change entry.id ∈ t.entryIds at hid
      rw [(h.complete t ht).entryIds] at hid
      obtain ⟨other, hother, heq⟩ := List.mem_map.mp hid
      obtain ⟨hotherStored, hotherTransaction⟩ := List.mem_filter.mp hother
      have hsame := List.inj_on_of_nodup_map hentries hotherStored hstored heq
      subst hsame
      have hids : t.id = transaction.id := by
        have hown := (List.mem_filter.mp hentry).2
        rw [decide_eq_true_eq] at hown hotherTransaction
        exact hotherTransaction.symm.trans hown
      have hnew : other.id ∉ (batch.collected t.id).map EntryValues.id := by
        simpa [PendingTx.ofValues] using hnew
      rw [hcol ht, hids] at hnew
      exact hnew
    · intro hnew
      refine ⟨_, List.mem_map_of_mem htransaction, List.mem_filter.mpr ⟨?_, ?_⟩⟩
      · change entry.id ∈ transaction.entryIds
        rw [(h.complete transaction htransaction).entryIds]
        exact List.mem_map_of_mem hentry
      · have hout : entry.id ∉ (batch.collected transaction.id).map EntryValues.id := by
          rw [hcol htransaction]
          exact hnew
        simpa [PendingTx.ofValues] using hout
  rw [handedOver]
  change EcRollupBatch.rollupTxns batch.txns batch.entries _ = _
  rw [htxns]
  refine rollupTxns_eq hentries _ h.transactions h.complete (fun transaction htransaction => ?_)
  refine ⟨?_, hmem transaction htransaction, fun entry hentry => ?_⟩
  · change (batch.collected transaction.id).Nodup
    rw [hcollected]
    exact h.distinct.filter _
  · have hstored := (List.mem_filter.mp hentry).1
    change _ = if entry ∈ batch.collected transaction.id then none else some entry
    split
    · rename_i hin
      rw [Option.eq_none_iff_forall_not_mem]
      intro other hother
      exact (hmissing transaction htransaction entry hentry).mp
        ((lookup_findAllInOp hentries).mp hother).1 hin
    · rename_i hout
      exact (lookup_findAllInOp hentries).mpr
        ⟨(hmissing transaction htransaction entry hentry).mpr hout, hstored, rfl⟩

end Landing

end CalaLedger
