import CalaLedger.Posting.Batch

/-! # Effective balances of a batch

A batch updates the effective balances once for each journal and day, with the entries of all its
postings of that day sorted by sequence; a sequence of postings updates them once for each posting.
`dayEntries` is what a batch brings to a balance on one day, in input order. The two leave rows for
the same entries exactly when that list is already sorted, for every balance and day, and with the
same totals if no addition of the batch's amounts rounds (`batch_effective_rows_iff`). -/

namespace CalaLedger

/-- The entries of a batch that reach a balance on one day, in input order. -/
def dayEntries (directory : LedgerDirectory) (postings : List HydratedPosting) (key : BalanceKey)
    (day : NaiveDate) : List EntryValues :=
  if directory.keepsEffective key.journalId ∧ directory.accounts.consistency false key.accountId then
    hits (inlineTargets (directory.memberships.walkMappings key.journalId)) key.accountId
      key.currency ((postings.filter (fun posting =>
        posting.1.journalId = key.journalId ∧ posting.1.effective = day)).flatMap Prod.snd)
  else
    []

/-- Day by day, the entries of a batch reach every inline balance in the order of their sequence
numbers. -/
def InSequence (directory : LedgerDirectory) (postings : List HydratedPosting) : Prop :=
  ∀ key day, Foundations.SortedBy EntryValues.sequence (dayEntries directory postings key day)

/-- The entries of a batch that reach a balance, in input order. -/
def reachedEntries (directory : LedgerDirectory) (postings : List HydratedPosting)
    (key : BalanceKey) : List EntryValues :=
  if directory.keepsEffective key.journalId ∧ directory.accounts.consistency false key.accountId then
    hits (inlineTargets (directory.memberships.walkMappings key.journalId)) key.accountId
      key.currency
      ((postings.filter (fun posting => posting.1.journalId = key.journalId)).flatMap Prod.snd)
  else
    []

/-- However many of the amounts that a batch brings to one side of a balance are added up, the sum is a
decimal, and so it is on top of any total stored before. -/
def SumsFit (db : LedgerDb) (postings : List HydratedPosting) : Prop :=
  ∀ key layer direction total,
    total = 0 ∨ (∃ stored ∈ db.effectiveBalances key,
      ((stored.layer layer).side direction).value = total) →
    ∀ chosen, chosen.Subperm (reachedEntries db.toLedgerDirectory postings key) →
      Representable (total + postedOn chosen layer direction)

section DayEntries

variable {ids : EntryIds} {now : Timestamp} {directory : LedgerDirectory}

theorem dayEntries_append (front back : List HydratedPosting) (key : BalanceKey)
    (day : NaiveDate) :
    dayEntries directory (front ++ back) key day
      = dayEntries directory front key day ++ dayEntries directory back key day := by
  unfold dayEntries
  split
  · rw [List.filter_append, List.flatMap_append, hits_append]
  · rfl

theorem dayEntries_hydrate (prepared : List PreparedTransaction) (key : BalanceKey)
    (day : NaiveDate) :
    dayEntries directory (hydrate now prepared) key day
      = prepared.flatMap (fun posting => dayEntries directory (hydrate now [posting]) key day) := by
  induction prepared with
  | nil =>
      unfold dayEntries
      split <;> rfl
  | cons posting prepared ih => rw [hydrate_cons, dayEntries_append, ih, List.flatMap_cons]

/-- Entries in order reach a balance in order. -/
theorem sortedBy_hits {targets : EntryValues → List AccountId} {accountId : AccountId}
    {currency : Currency} {entries : List EntryValues}
    (h : Foundations.SortedBy EntryValues.sequence entries) :
    Foundations.SortedBy EntryValues.sequence (hits targets accountId currency entries) := by
  induction entries with
  | nil => exact List.Pairwise.nil
  | cons entry entries ih =>
      have hsplit : hits targets accountId currency (entry :: entries)
          = hits targets accountId currency [entry] ++ hits targets accountId currency entries :=
        hits_append _ _ _ [entry] entries
      rw [hsplit]
      refine List.pairwise_append.mpr ⟨?_, ih h.tail, fun a ha b hb => ?_⟩
      · refine List.Pairwise.imp_of_mem (R := fun _ _ => True) (fun {a b} ha hb _ => ?_)
          (List.pairwise_of_forall (fun _ _ => trivial))
        have ha := ((mem_hits _ _ _).mp ha).1
        have hb := ((mem_hits _ _ _).mp hb).1
        rw [List.mem_singleton] at ha hb
        rw [ha, hb]
      · have ha := ((mem_hits _ _ _).mp ha).1
        rw [List.mem_singleton] at ha
        rw [ha]
        exact h.head_le (List.mem_cons_of_mem _ ((mem_hits _ _ _).mp hb).1)

/-- One posting's entries are in order. -/
theorem sortedBy_dayEntries_singleton {posting : PreparedTransaction}
    (h : PreparedEntries ids posting.txId posting.journalId 0 posting.entries) (key : BalanceKey)
    (day : NaiveDate) :
    Foundations.SortedBy EntryValues.sequence
      (dayEntries directory (hydrate now [posting]) key day) := by
  have hsorted : Foundations.SortedBy EntryValues.sequence posting.entries := by
    rw [Foundations.SortedBy, ← List.pairwise_map (f := EntryValues.sequence) (R := (· ≤ ·)),
      h.sequence]
    exact List.Pairwise.imp le_of_lt List.pairwise_lt_range'
  unfold dayEntries
  split
  · refine sortedBy_hits ?_
    rw [hydrate, List.map_singleton, List.filter_cons]
    split
    · rw [List.filter_nil, List.flatMap_singleton]
      exact hsorted
    · exact List.Pairwise.nil
  · exact List.Pairwise.nil

/-- **What a batch adds to a timeline on one day**: its entries of the day, sorted by sequence. -/
theorem batchDated_filter (postings : List HydratedPosting) (key : BalanceKey) (day : NaiveDate) :
    (batchDated directory now postings key).filter (fun dated => dated.1 = day)
      = (Foundations.sortBy EntryValues.sequence (dayEntries directory postings key day)).map
          (fun entry => (day, entry)) := by
  set own : List EntryValues → List DatedEntry := fun entries =>
    if directory.accounts.consistency false key.accountId then
      (Foundations.sortBy EntryValues.sequence
        (hits (inlineTargets (directory.memberships.walkMappings key.journalId)) key.accountId
          key.currency entries)).map (fun entry => (day, entry))
    else [] with hown
  have hnil : own [] = [] := by
    rw [hown]
    dsimp only
    split <;> rfl
  -- a group of another journal or day adds nothing on this day
  have hgroup : ∀ group : (JournalId × NaiveDate) × List EntryValues,
      ((groupCall directory.accounts directory.memberships.walkMappings now group).dated key).filter
          (fun dated => dated.1 = day)
        = if group.1 = (key.journalId, day) then own group.2 else [] := by
    rintro ⟨⟨journalId, effective⟩, entries⟩
    change ((Foundations.sortBy EntryValues.sequence (pushedOn false directory.accounts journalId
      (inlineTargets (directory.memberships.walkMappings journalId)) entries key)).map
        (fun entry => (effective, entry))).filter (fun dated => dated.1 = day) = _
    rw [List.filter_map]
    by_cases hday : effective = day
    · subst hday
      by_cases hjournal : journalId = key.journalId
      · subst hjournal
        by_cases hmode : directory.accounts.consistency false key.accountId
        · simp [pushedOn, hown, hmode, Function.comp_def]
        · simp [pushedOn, hown, hmode]
      · simp [pushedOn, hjournal, Ne.symm hjournal]
    · simp [hday, Function.comp_def]
  have hgroups : (batchDated directory now postings key).filter (fun dated => dated.1 = day)
      = own (Foundations.itemsOf (fun posting : HydratedPosting =>
          (posting.1.journalId, posting.1.effective)) Prod.snd
          (postings.filter (fun posting => directory.keepsEffective posting.1.journalId))
          (key.journalId, day)) := by
    rw [batchDated, List.filter_flatMap]
    simp only [hgroup]
    exact Foundations.flatMap_of_perm_groupBy hnil (Foundations.sortBy_perm _ _) _
  rw [hgroups, Foundations.itemsOf, List.filter_filter, hown, dayEntries]
  dsimp only
  by_cases hmode : directory.accounts.consistency false key.accountId
  · by_cases hkeeps : directory.keepsEffective key.journalId = true
    · rw [if_pos hmode, if_pos ⟨hkeeps, hmode⟩]
      have hfilter : ∀ posting : HydratedPosting,
          (decide ((posting.1.journalId, posting.1.effective) = (key.journalId, day))
              && directory.keepsEffective posting.1.journalId)
            = decide (posting.1.journalId = key.journalId ∧ posting.1.effective = day) := by
        intro posting
        by_cases hjournal : posting.1.journalId = key.journalId
        · simp [hjournal, hkeeps]
        · simp [hjournal]
      simp only [hfilter]
    · rw [if_pos hmode, if_neg (fun h => hkeeps h.1)]
      have hnone : postings.filter (fun posting : HydratedPosting =>
          decide ((posting.1.journalId, posting.1.effective) = (key.journalId, day))
            && directory.keepsEffective posting.1.journalId) = [] := by
        rw [List.filter_eq_nil_iff]
        intro posting _ h
        rw [Bool.and_eq_true, decide_eq_true_eq] at h
        have hjournal : posting.1.journalId = key.journalId := congrArg Prod.fst h.1
        exact hkeeps (hjournal ▸ h.2)
      rw [hnone]
      rfl
  · rw [if_neg hmode, if_neg (fun h => hmode h.2)]
    rfl

/-- What a sequence of postings adds on one day: their entries of the day, in input order. -/
theorem sequentialDated_filter {prepared : List PreparedTransaction}
    (h : WellPrepared ids prepared) (key : BalanceKey) (day : NaiveDate) :
    (prepared.flatMap (fun posting => batchDated directory now (hydrate now [posting]) key)).filter
        (fun dated => dated.1 = day)
      = (dayEntries directory (hydrate now prepared) key day).map (fun entry => (day, entry)) := by
  rw [List.filter_flatMap, dayEntries_hydrate, List.map_flatMap]
  refine List.flatMap_congr (fun posting hposting => ?_)
  rw [batchDated_filter,
    Foundations.sortBy_eq_self.mpr (sortedBy_dayEntries_singleton (h posting hposting) key day)]

theorem reachedEntries_append (front back : List HydratedPosting) (key : BalanceKey) :
    reachedEntries directory (front ++ back) key
      = reachedEntries directory front key ++ reachedEntries directory back key := by
  unfold reachedEntries
  split
  · rw [List.filter_append, List.flatMap_append, hits_append]
  · rfl

/-- The entries of one posting are all of its day. -/
theorem map_snd_batchDated_singleton (posting : PreparedTransaction) (key : BalanceKey) :
    ((batchDated directory now (hydrate now [posting]) key).map Prod.snd).Perm
      (reachedEntries directory (hydrate now [posting]) key) := by
  have hday : ∀ dated ∈ batchDated directory now (hydrate now [posting]) key,
      decide (dated.1 = posting.effective) = true := by
    intro dated hdated
    obtain ⟨group, hgroup, hdated⟩ := List.mem_flatMap.mp hdated
    obtain ⟨entry, -, rfl⟩ := List.mem_map.mp hdated
    obtain ⟨own, hown, -, hkey⟩ := (mem_effectiveGroups.mp hgroup).1
    rw [hydrate, List.map_singleton, List.mem_singleton] at hown
    subst hown
    exact decide_eq_true (congrArg Prod.snd hkey).symm
  have hreached : dayEntries directory (hydrate now [posting]) key posting.effective
      = reachedEntries directory (hydrate now [posting]) key := by
    have hfilter : (hydrate now [posting]).filter (fun own =>
          own.1.journalId = key.journalId ∧ own.1.effective = posting.effective)
        = (hydrate now [posting]).filter (fun own => own.1.journalId = key.journalId) := by
      refine List.filter_congr (fun own hown => ?_)
      obtain rfl := List.mem_singleton.mp hown
      simp [PreparedTransaction.intoNewTransaction]
    rw [dayEntries, reachedEntries, hfilter]
  rw [← List.filter_eq_self.mpr hday, batchDated_filter, List.map_map, hreached]
  simpa [Function.comp_def] using Foundations.sortBy_perm EntryValues.sequence _

/-- One posting after the other, the entries that reach a balance are the batch's. -/
theorem map_snd_sequentialDated (prepared : List PreparedTransaction) (key : BalanceKey) :
    ((prepared.flatMap (fun posting =>
        batchDated directory now (hydrate now [posting]) key)).map Prod.snd).Perm
      (reachedEntries directory (hydrate now prepared) key) := by
  induction prepared with
  | nil =>
      unfold reachedEntries
      split <;> exact List.Perm.refl _
  | cons posting prepared ih =>
      rw [List.flatMap_cons, List.map_append, hydrate_cons now posting prepared,
        reachedEntries_append]
      exact (map_snd_batchDated_singleton posting key).append ih

/-- Together, they are the same. -/
theorem batchDated_sequential {prepared : List PreparedTransaction} (h : WellPrepared ids prepared)
    (key : BalanceKey) :
    (batchDated directory now (hydrate now prepared) key).Perm
      (prepared.flatMap (fun posting =>
        batchDated directory now (hydrate now [posting]) key)) := by
  refine Foundations.perm_of_filter_perm Prod.fst (fun day => ?_)
  rw [batchDated_filter, sequentialDated_filter h]
  exact (Foundations.sortBy_perm EntryValues.sequence _).map _

end DayEntries

section Totals

variable {ids : EntryIds} {now : Timestamp} {db db' : LedgerDb} (layer : Layer)
  (direction : DebitOrCredit)

/-- The amounts of dated entries on one side. -/
def datedAmounts (entries : List DatedEntry) : List (NaiveDate × Decimal) :=
  entries.map (fun dated => (dated.1, dated.2.unitsOn layer direction))

/-- **The totals after a batch**: its amounts, put in day by day. -/
theorem postPreparedInOp_totals {order : RowOrder} {prepared : List PreparedTransaction}
    (hdb : db.Valid) (hprepared : WellPrepared ids prepared)
    (h : postPreparedInOp order now db prepared = .ok db') (key : BalanceKey) :
    ∃ insertions : List (NaiveDate × List Decimal),
      insertions.flatMap (fun insertion => insertion.2.map (fun amount => (insertion.1, amount)))
          = datedAmounts layer direction
              (batchDated db.toLedgerDirectory now (hydrate now prepared) key)
        ∧ (db'.effectiveBalances key).map (EffectiveBalanceSnapshot.dayTotal layer direction)
          = Foundations.insertAll
              ((db.effectiveBalances key).map (EffectiveBalanceSnapshot.dayTotal layer direction))
              insertions := by
  have haccepts := (postPreparedInOp_spec order now hdb hprepared).1.mp ⟨db', h⟩
  obtain ⟨mappings, hmappings, hrun⟩ := postPreparedInOp_effective hdb hprepared h
  obtain ⟨timelines, htable, htimelines⟩ := hdb.effective
  have hids := identified_append hdb.identified hprepared haccepts.fresh
  refine ⟨_, ?_, runEffectiveCalls_totals htable (identified_groupCalls hmappings hids htimelines)
    hrun key layer direction⟩
  rw [List.flatMap_map, List.flatMap_map, datedAmounts, batchDated, List.map_flatMap]
  refine List.flatMap_congr (fun group hgroup => ?_)
  rw [← (groupCall_dated hmappings hgroup key).1, EffectiveCall.dated, List.map_map, List.map_map]
  rfl

/-- **The totals after a sequence of postings**: their amounts, put in one posting after the
other. -/
theorem postEachInOp_totals {orders : PostingInput → RowOrder} (batch : List PostingInput) :
    ∀ {db : LedgerDb} {prepared : List PreparedTransaction}, db.Valid →
      postEachInOp orders ids now db batch = .ok db' →
      batch.mapM (prepareInput ids db.templates) = some prepared → ∀ key,
      ∃ insertions : List (NaiveDate × List Decimal),
        insertions.flatMap (fun insertion => insertion.2.map (fun amount => (insertion.1, amount)))
            = datedAmounts layer direction (prepared.flatMap (fun posting =>
                batchDated db.toLedgerDirectory now (hydrate now [posting]) key))
          ∧ (db'.effectiveBalances key).map (EffectiveBalanceSnapshot.dayTotal layer direction)
            = Foundations.insertAll
                ((db.effectiveBalances key).map (EffectiveBalanceSnapshot.dayTotal layer direction))
                insertions := by
  induction batch with
  | nil =>
      rintro db prepared - ⟨⟩ ⟨⟩ key
      exact ⟨[], rfl, rfl⟩
  | cons input batch ih =>
      intro db prepared hdb h hmap key
      rw [List.mapM_cons] at hmap
      obtain ⟨posting, hposting, hmap⟩ := Option.bind_eq_some_iff.mp hmap
      obtain ⟨rest, hrest, hmap⟩ := Option.bind_eq_some_iff.mp hmap
      cases hmap
      rw [postEachInOp, List.foldlM_cons] at h
      obtain ⟨next, hnext, hbatch⟩ := Foundations.bind_eq_ok.mp h
      obtain ⟨posting', hposting', -, hpost⟩ := postAllInOp_singleton.mp hnext
      obtain rfl : posting = posting' := Option.some.inj (hposting.symm.trans hposting')
      have hone : [input].mapM (prepareInput ids db.templates) = some [posting] := by
        rw [List.mapM_cons, hposting]
        rfl
      have hsingle := wellPrepared_of_mapM hone
      have hvalid := hdb.post hsingle hpost
      obtain ⟨first, hfirst, hmiddle⟩ := postPreparedInOp_totals layer direction hdb hsingle hpost key
      obtain ⟨effectiveBalances, rfl, -⟩ := (postPreparedInOp_spec (orders input) now hdb hsingle).2
        next hpost
      obtain ⟨more, hmore, hlast⟩ := ih hvalid hbatch hrest key
      refine ⟨first ++ more, ?_, ?_⟩
      · rw [List.flatMap_append, hfirst, hmore, LedgerDb.posted_toLedgerDirectory, datedAmounts,
          datedAmounts, datedAmounts, ← List.map_append, List.flatMap_cons]
      · rw [Foundations.insertAll_append, ← hmiddle, hlast]

end Totals

/-- Timelines extended by two lists agree when the lists agree day by day. -/
theorem sortBy_append_eq_iff {timeline front back : List DatedEntry} :
    Foundations.sortBy Prod.fst (timeline ++ front) = Foundations.sortBy Prod.fst (timeline ++ back)
      ↔ ∀ day, front.filter (fun dated => dated.1 = day) = back.filter (fun dated => dated.1 = day) := by
  rw [Foundations.sortBy_eq_iff]
  constructor
  · rintro ⟨-, h⟩ day
    have hday := h day
    rw [Foundations.filter_sortBy, List.filter_append, List.filter_append] at hday
    exact (List.append_cancel_left hday).symm
  · intro h
    refine ⟨Foundations.sortBy_sorted _ _, fun day => ?_⟩
    rw [Foundations.filter_sortBy, List.filter_append, List.filter_append, h]

/-- Room for the amounts of dated entries. -/
theorem SumsFit.roomFor {db : LedgerDb} {postings : List HydratedPosting}
    (h : SumsFit db postings) {key : BalanceKey} {layer : Layer} {direction : DebitOrCredit}
    {entries : List DatedEntry}
    (hentries : (entries.map Prod.snd).Perm (reachedEntries db.toLedgerDirectory postings key))
    {insertions : List (NaiveDate × List Decimal)}
    (hinsertions : insertions.flatMap (fun insertion =>
        insertion.2.map (fun amount => (insertion.1, amount)))
      = datedAmounts layer direction entries) :
    Foundations.RoomFor Foundations.RoundedDecimal.value Representable
      ((db.effectiveBalances key).map (EffectiveBalanceSnapshot.dayTotal layer direction))
      (insertions.flatMap Prod.snd) := by
  intro total htotal chosen hchosen
  have hamounts : insertions.flatMap Prod.snd
      = (entries.map Prod.snd).map (fun entry => entry.unitsOn layer direction) := by
    have hsnd := congrArg (List.map Prod.snd) hinsertions
    rw [List.map_flatMap, datedAmounts, List.map_map] at hsnd
    rw [List.map_map]
    simpa [Function.comp_def] using hsnd
  rw [hamounts] at hchosen
  obtain ⟨posted, hposted, hsum⟩ := exists_posted_of_subperm hchosen
  rw [hsum]
  refine h key layer direction total (htotal.imp_right ?_) posted
    (hposted.trans hentries.subperm)
  rintro ⟨row, hrow, hvalue⟩
  obtain ⟨stored, hstored, rfl⟩ := List.mem_map.mp hrow
  exact ⟨stored, hstored, hvalue⟩

section BatchAndSequence

variable {ids : EntryIds} {now : Timestamp} {db db₁ db₂ : LedgerDb} {order : RowOrder}
  {orders : PostingInput → RowOrder} {batch : List PostingInput}
  {prepared : List PreparedTransaction}

/-- Timelines made of stored and of posted entries have entries of the ledger only. -/
theorem entries_of_timeline {timeline added : List DatedEntry} {entries posted : List EntryValues}
    (htimeline : ∀ dated ∈ timeline, dated.2 ∈ entries) (hadded : ∀ dated ∈ added, dated.2 ∈ posted) :
    ∀ dated ∈ Foundations.sortBy Prod.fst (timeline ++ added), dated.2 ∈ entries ++ posted := by
  intro dated hdated
  rw [Foundations.mem_sortBy, List.mem_append] at hdated
  exact List.mem_append.mpr (hdated.imp (htimeline dated) (hadded dated))

theorem mem_of_mem_sequentialDated {directory : LedgerDirectory} {key : BalanceKey}
    {dated : DatedEntry}
    (h : dated ∈ prepared.flatMap (fun posting =>
      batchDated directory now (hydrate now [posting]) key)) :
    dated.2 ∈ (hydrate now prepared).flatMap Prod.snd := by
  obtain ⟨posting, hposting, hdated⟩ := List.mem_flatMap.mp h
  have hmem := mem_of_mem_batchDated hdated
  rw [flatMap_hydrate] at hmem ⊢
  obtain ⟨own, hown, hmem⟩ := List.mem_flatMap.mp hmem
  rw [List.mem_singleton] at hown
  exact List.mem_flatMap.mpr ⟨posting, hposting, hown ▸ hmem⟩

/-- **The rows of one balance** are the same exactly when the batch's entries that reach it are in
order: rows without totals determine the timeline behind them. -/
theorem batch_rows_iff (hdb : db.Valid) (hprepared : WellPrepared ids prepared)
    (hmap : batch.mapM (prepareInput ids db.templates) = some prepared)
    (h₁ : postPreparedInOp order now db prepared = .ok db₁)
    (h₂ : postEachInOp orders ids now db batch = .ok db₂) (key : BalanceKey) :
    (db₁.effectiveBalances key).map EffectiveBalanceSnapshot.row
        = (db₂.effectiveBalances key).map EffectiveBalanceSnapshot.row
      ↔ ∀ day, Foundations.SortedBy EntryValues.sequence
          (dayEntries db.toLedgerDirectory (hydrate now prepared) key day) := by
  have hspec := postPreparedInOp_spec order now hdb hprepared
  have haccepts := hspec.1.mp ⟨db₁, h₁⟩
  obtain ⟨table₁, rfl, htable₁⟩ := hspec.2 db₁ h₁
  obtain ⟨table₂, rfl, htable₂⟩ := (postEachInOp_eq_ok ids now orders batch hdb).2 db₂ prepared h₂ hmap
  obtain ⟨timelines, htable, htimelines⟩ := hdb.effective
  have hids := identified_append hdb.identified hprepared haccepts.fresh
  have htimeline : (table₁ key).map EffectiveBalanceSnapshot.row
        = (table₂ key).map EffectiveBalanceSnapshot.row
      ↔ Foundations.sortBy Prod.fst (timelines key
            ++ batchDated db.toLedgerDirectory now (hydrate now prepared) key)
        = Foundations.sortBy Prod.fst (timelines key ++ prepared.flatMap (fun posting =>
            batchDated db.toLedgerDirectory now (hydrate now [posting]) key)) := by
    rw [(htable₁ timelines htable htimelines).rows, (htable₂ timelines htable htimelines).rows]
    constructor
    · exact replay_injective key (fun dated hdated dated' hdated' hid =>
        hids.unique _ (entries_of_timeline (htimelines key) (fun _ => mem_of_mem_batchDated) dated hdated)
          _ (entries_of_timeline (htimelines key) (fun _ => mem_of_mem_sequentialDated) dated' hdated')
          hid)
    · exact congrArg (replay key)
  show (table₁ key).map EffectiveBalanceSnapshot.row = (table₂ key).map EffectiveBalanceSnapshot.row ↔ _
  rw [htimeline, sortBy_append_eq_iff]
  refine forall_congr' (fun day => ?_)
  rw [batchDated_filter, sequentialDated_filter hprepared, ← Foundations.sortBy_eq_self]
  exact (List.map_injective_iff.mpr (Prod.mk_right_injective day)).eq_iff

/-- **The totals of one balance** are the same where its entries are in order and no sum rounds: day
by day the same amounts are put in. -/
theorem batch_totals_eq (hdb : db.Valid) (hprepared : WellPrepared ids prepared)
    (hmap : batch.mapM (prepareInput ids db.templates) = some prepared)
    (h₁ : postPreparedInOp order now db prepared = .ok db₁)
    (h₂ : postEachInOp orders ids now db batch = .ok db₂) (hfit : SumsFit db (hydrate now prepared))
    {key : BalanceKey}
    (hsequence : ∀ day, Foundations.SortedBy EntryValues.sequence
      (dayEntries db.toLedgerDirectory (hydrate now prepared) key day))
    (layer : Layer) (direction : DebitOrCredit) :
    (db₁.effectiveBalances key).map (EffectiveBalanceSnapshot.dayTotal layer direction)
      = (db₂.effectiveBalances key).map (EffectiveBalanceSnapshot.dayTotal layer direction) := by
  obtain ⟨together, htogether, hstored₁⟩ :=
    postPreparedInOp_totals layer direction hdb hprepared h₁ key
  obtain ⟨oneByOne, honeByOne, hstored₂⟩ :=
    postEachInOp_totals layer direction batch hdb h₂ hmap key
  have hperm : ((prepared.flatMap (fun posting => batchDated db.toLedgerDirectory now
      (hydrate now [posting]) key)).map Prod.snd).Perm
        (reachedEntries db.toLedgerDirectory (hydrate now prepared) key) :=
    map_snd_sequentialDated prepared key
  have hperm' := ((batchDated_sequential hprepared key).map Prod.snd).trans hperm
  obtain ⟨timelines, htable, -⟩ := hdb.effective
  rw [hstored₁, hstored₂]
  refine exactWhere_representable.insertAll_congr Foundations.RoundedDecimal.value_injective
    (htable.sorted_dayTotals key layer direction) (fun day => ?_) (hfit.roomFor hperm' htogether)
    (hfit.roomFor hperm honeByOne)
  have hday : (batchDated db.toLedgerDirectory now (hydrate now prepared) key).filter
        (fun dated => dated.1 = day)
      = (prepared.flatMap (fun posting =>
          batchDated db.toLedgerDirectory now (hydrate now [posting]) key)).filter
            (fun dated => dated.1 = day) := by
    rw [batchDated_filter, sequentialDated_filter hprepared,
      Foundations.sortBy_eq_self.mpr (hsequence day)]
  rw [htogether, honeByOne, datedAmounts, datedAmounts, List.filter_map, List.filter_map]
  exact congrArg (List.map _) hday

end BatchAndSequence

/-- Two amounts too small for the digits of a later total are lost one at a time, not together. -/
example :
    let small : Decimal := .ofFixed ⟨4, 28, by decide, by decide⟩
    Foundations.insertAll [(10, (10 : Decimal))] [(5, [small]), (5, [small])]
      ≠ Foundations.insertAll [(10, 10)] [(5, [small, small])] := by decide +kernel

/-- The sums of the sample's amounts, four times ten, are decimals. -/
theorem sumsFit_sample {prepared : List PreparedTransaction}
    (hprepared : sampleBatch.mapM (prepareInput sampleIds sampleDb.templates) = some prepared) :
    SumsFit sampleDb (hydrate 0 prepared) := by
  set entries := (hydrate 0 prepared).flatMap Prod.snd with hentries
  have hdata : (sampleBatch.mapM (prepareInput sampleIds sampleDb.templates)).map
      (fun prepared => ((hydrate 0 prepared).flatMap Prod.snd).map
        (fun entry => (entry.accountId, entry.units)))
      = some [(⟨1⟩, 10), (⟨2⟩, 10), (⟨2⟩, 10), (⟨1⟩, 10)] := by decide +kernel
  rw [hprepared, Option.map_some, Option.some.injEq, ← hentries] at hdata
  have hentry : ∀ entry ∈ entries, entry.accountId.uuid ≠ 3 ∧ entry.units.value = (10 : ℤ) / 10 ^ 0 := by
    have hall : ∀ pair ∈ [((⟨1⟩ : AccountId), (10 : Decimal)), (⟨2⟩, 10), (⟨2⟩, 10), (⟨1⟩, 10)],
        pair.1.uuid ≠ 3 ∧ pair.2.value = (10 : ℤ) / 10 ^ 0 := by decide +kernel
    exact fun entry hmem => hall _ (hdata ▸ List.mem_map_of_mem hmem)
  have hnets : ∀ layer, NetsRepresentable entries layer := by
    have hcount := congrArg List.length hdata
    rw [List.length_map] at hcount
    refine netsRepresentable_of_digits (Nat.zero_le 28) (fun _ => 10)
      (fun entry hmem => (hentry entry hmem).2) ?_
    rw [List.map_const', hcount]
    decide
  intro key layer direction total htotal chosen hchosen
  -- nothing is stored before
  obtain rfl : total = 0 := htotal.resolve_right (by rintro ⟨_, hstored, -⟩; cases hstored)
  rw [zero_add]
  refine (hnets layer).sums direction chosen (hchosen.trans (List.Sublist.subperm ?_))
  unfold reachedEntries
  split
  · refine (hits_sublist _ _ _ (fun entry hmem => ?_)).trans (List.filter_sublist.flatMap _)
    have hown := (hentry entry ((List.filter_sublist.flatMap _).subset hmem)).1
    refine List.Nodup.append ((MembershipTables.nodup_walkMappings _ _).map
      AccountId.ofSet_injective) (List.nodup_singleton _) ?_
    rw [List.disjoint_singleton]
    intro hset
    obtain ⟨setId, hmem, hid⟩ := List.mem_map.mp hset
    have hjournal := of_decide_eq_true (List.mem_filter.mp hmem).2
    have huuid : setId.uuid = 3 := by
      by_contra hother
      exact absurd ((if_neg hother).symm.trans hjournal) (Option.some_ne_none _).symm
    exact hown (hid ▸ huuid)
  · exact List.nil_sublist _

end CalaLedger
