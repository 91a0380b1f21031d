import CalaLedger.Posting.Flow

/-! # Preparation and validation, posting by posting

When a batch prepares (`prepareAll_eq_ok`), when it validates (`validateFrom_eq_ok`) and what its
ancestor phase returns (`resolveAncestors_spec`), told for each posting against the tables instead
of for the batch against what was read. -/

namespace CalaLedger

/-! ## Preparation -/

/-- One posting prepared with the stored body of its template. -/
def prepareInput (ids : EntryIds) (templates : String → Option TxTemplateValues)
    (input : PostingInput) : Option PreparedTransaction :=
  (templates input.txTemplateCode).bind (fun template =>
    (prepareTransaction ids input.txId template input.params).toOption)

/-- No transaction id and no external id occurs twice. -/
structure DistinctIds (prepared : List PreparedTransaction) : Prop where
  txIds : (prepared.map PreparedTransaction.txId).Nodup
  externalIds : (prepared.filterMap PreparedTransaction.externalId).Nodup

section Prepare

variable {ids : EntryIds} {templates : String → Option TxTemplateValues}

theorem prepareInput_eq_some {input : PostingInput} {posting : PreparedTransaction} :
    prepareInput ids templates input = some posting
      ↔ ∃ template, templates input.txTemplateCode = some template
        ∧ prepareTransaction ids input.txId template input.params = .ok posting := by
  rw [prepareInput, Option.bind_eq_some_iff]
  exact exists_congr (fun template => and_congr_right' Foundations.toOption_eq_some)

/-- Resolving goes through when every code is known, and returns its stored body. -/
theorem resolveInOp_spec (codes : List String) :
    ∀ used : HashMap String TxTemplateValues,
      (∀ code ∈ codes, ∃ template, templates code = some template) →
      ∃ used', codes.foldlM (fun used code =>
          match templates code with
          | some template => Except.ok (used.insert code template)
          | none => .error TxTemplateError.notFound) used = .ok used'
        ∧ ∀ code, used'.lookup code
            = if code ∈ codes then templates code else used.lookup code := by
  induction codes with
  | nil =>
      intro used _
      exact ⟨used, rfl, fun code => by simp⟩
  | cons code codes ih =>
      intro used hknown
      obtain ⟨template, htemplate⟩ := hknown code List.mem_cons_self
      obtain ⟨used', hused', hlookup⟩ := ih (used.insert code template)
        (fun c hc => hknown c (List.mem_cons_of_mem _ hc))
      refine ⟨used', ?_, fun c => ?_⟩
      · rw [List.foldlM_cons, htemplate]
        exact hused'
      · rw [hlookup]
        by_cases hc : c = code
        · subst hc
          by_cases hmem : c ∈ codes <;> simp [hmem, htemplate]
        · by_cases hmem : c ∈ codes <;> simp [hmem, hc]

theorem resolveInOp_known {codes : List String} {used : HashMap String TxTemplateValues}
    (h : resolveInOp templates codes = .ok used) :
    ∀ code ∈ codes, ∃ template, templates code = some template := by
  unfold resolveInOp at h
  generalize (∅ : HashMap String TxTemplateValues) = start at h
  induction codes generalizing start with
  | nil => exact fun _ hcode => (List.not_mem_nil hcode).elim
  | cons code codes ih =>
      rw [List.foldlM_cons] at h
      obtain ⟨next, hnext, hrest⟩ := Foundations.bind_eq_ok.mp h
      refine List.forall_mem_cons.mpr ⟨?_, ih next hrest⟩
      cases htemplate : templates code with
      | none =>
          rw [htemplate] at hnext
          cases hnext
      | some template => exact ⟨template, rfl⟩

/-- The loop of `prepare_all`: every posting prepares and no id is taken. -/
theorem prepareAllFrom_eq_ok {used : HashMap String TxTemplateValues} (batch : List PostingInput) :
    ∀ {index : ℕ} {seenIds : List TransactionId} {seenExternal : List String}
      {prepared : List PreparedTransaction},
      (∀ input ∈ batch, used.lookup input.txTemplateCode = templates input.txTemplateCode) →
      (prepareAllFrom ids used index seenIds seenExternal batch = .ok prepared
        ↔ batch.mapM (prepareInput ids templates) = some prepared
          ∧ DistinctIds prepared
          ∧ (∀ posting ∈ prepared, posting.txId ∉ seenIds)
          ∧ ∀ posting ∈ prepared, ∀ externalId ∈ posting.externalId, externalId ∉ seenExternal) := by
  induction batch with
  | nil =>
      intro index seenIds seenExternal prepared _
      constructor
      · rintro ⟨⟩
        exact ⟨rfl, ⟨List.nodup_nil, List.nodup_nil⟩, by simp, by simp⟩
      · rintro ⟨⟨⟩, -⟩
        rfl
  | cons input batch ih =>
      intro index seenIds seenExternal prepared hused
      have hrest := fun input hinput => hused input (List.mem_cons_of_mem _ hinput)
      rw [prepareAllFrom, hused input List.mem_cons_self, List.mapM_cons]
      simp only [Option.bind_eq_bind, Option.bind_eq_some_iff, prepareInput_eq_some]
      constructor
      · intro h
        cases hsome : templates input.txTemplateCode with
        | none =>
            rw [hsome] at h
            cases h
        | some template =>
        rw [hsome] at h
        obtain ⟨posting, hposting, h⟩ := Foundations.bind_eq_ok.mp h
        rw [Foundations.mapError_eq_ok] at hposting
        split at h
        · cases h
        · rename_i hseen
          split at h
          · cases h
          · rename_i hexternal
            obtain ⟨rest, hprepared, h⟩ := Foundations.bind_eq_ok.mp h
            cases h
            obtain ⟨hmap, hdistinct, hids, hexternals⟩ := (ih hrest).mp hprepared
            rw [List.find?_eq_none] at hexternal
            refine ⟨⟨posting, ⟨template, rfl, hposting⟩, rest, hmap, rfl⟩, ⟨?_, ?_⟩, ?_, ?_⟩
            · rw [List.map_cons, List.nodup_cons]
              refine ⟨fun hmem => ?_, hdistinct.txIds⟩
              obtain ⟨other, hother, heq⟩ := List.mem_map.mp hmem
              exact hids other hother (heq ▸ List.mem_cons_self)
            · rw [List.filterMap_cons]
              cases hid : posting.externalId with
              | none => exact hdistinct.externalIds
              | some externalId =>
                  rw [List.nodup_cons]
                  refine ⟨fun hmem => ?_, hdistinct.externalIds⟩
                  obtain ⟨other, hother, heq⟩ := List.mem_filterMap.mp hmem
                  exact hexternals other hother externalId heq (by simp [hid])
            · exact List.forall_mem_cons.mpr ⟨hseen, fun other hother hmem =>
                hids other hother (List.mem_cons_of_mem _ hmem)⟩
            · refine List.forall_mem_cons.mpr ⟨fun externalId hid hmem => ?_,
                fun other hother externalId hid hmem =>
                  hexternals other hother externalId hid (List.mem_append_right _ hmem)⟩
              exact hexternal externalId (by rwa [Option.mem_toList]) (by simpa using hmem)
      · rintro ⟨⟨posting, ⟨template, hsome, hposting⟩, rest, hmap, hprepared⟩, hdistinct, hids,
          hexternals⟩
        obtain rfl : posting :: rest = prepared := Option.some.inj hprepared
        obtain ⟨hseen, hidsRest⟩ := List.forall_mem_cons.mp hids
        obtain ⟨hexternal, hexternalsRest⟩ := List.forall_mem_cons.mp hexternals
        have htxIds := List.nodup_cons.mp hdistinct.txIds
        have hfind : posting.externalId.toList.find? (· ∈ seenExternal) = none := by
          rw [List.find?_eq_none]
          intro externalId hmem
          simpa using hexternal externalId (by simpa using hmem)
        have htail : prepareAllFrom ids used (index + 1) (posting.txId :: seenIds)
            (posting.externalId.toList ++ seenExternal) batch = .ok rest := by
          refine (ih hrest).mpr ⟨hmap, ⟨htxIds.2, ?_⟩, ?_, ?_⟩
          · have h := hdistinct.externalIds
            rw [List.filterMap_cons] at h
            split at h
            · exact h
            · exact (List.nodup_cons.mp h).2
          · intro other hother hmem
            rcases List.mem_cons.mp hmem with heq | hmem
            · exact htxIds.1 (heq ▸ List.mem_map_of_mem hother)
            · exact hidsRest other hother hmem
          · intro other hother externalId hid hmem
            rcases List.mem_append.mp hmem with hmem | hmem
            · have hown : posting.externalId = some externalId := by simpa using hmem
              have h := hdistinct.externalIds
              rw [List.filterMap_cons, hown] at h
              exact (List.nodup_cons.mp h).1 (List.mem_filterMap.mpr ⟨other, hother, hid⟩)
            · exact hexternalsRest other hother externalId hid hmem
        rw [hsome]
        refine Foundations.bind_eq_ok.mpr ⟨posting, Foundations.mapError_eq_ok.mpr hposting, ?_⟩
        rw [if_neg hseen, hfind]
        exact Foundations.bind_eq_ok.mpr ⟨rest, htail, rfl⟩

/-- **When a batch prepares**: every posting does, and ids are distinct. -/
theorem prepareAll_eq_ok {batch : List PostingInput} {prepared : List PreparedTransaction} :
    prepareAll ids templates batch = .ok prepared
      ↔ batch.mapM (prepareInput ids templates) = some prepared ∧ DistinctIds prepared := by
  set codes := (batch.map PostingInput.txTemplateCode).dedup with hcodes
  have hcode : ∀ input ∈ batch, input.txTemplateCode ∈ codes := by
    intro input hinput
    rw [hcodes, List.mem_dedup]
    exact List.mem_map_of_mem hinput
  have hresolved : (∀ code ∈ codes, ∃ template, templates code = some template) →
      ∃ used, resolveInOp templates codes = .ok used
        ∧ ∀ input ∈ batch, used.lookup input.txTemplateCode = templates input.txTemplateCode := by
    intro hknown
    obtain ⟨used, hused, hlookup⟩ := resolveInOp_spec codes ∅ hknown
    exact ⟨used, hused, fun input hinput => by rw [hlookup, if_pos (hcode input hinput)]⟩
  rw [prepareAll, Foundations.bind_eq_ok]
  constructor
  · rintro ⟨used, hused, hprepared⟩
    rw [Foundations.mapError_eq_ok] at hused
    obtain ⟨used', hused', hlookup⟩ := hresolved (resolveInOp_known hused)
    obtain rfl : used = used' := Except.ok.inj (hused.symm.trans hused')
    obtain ⟨hmap, hdistinct, -⟩ := (prepareAllFrom_eq_ok batch hlookup).mp hprepared
    exact ⟨hmap, hdistinct⟩
  · rintro ⟨hmap, hdistinct⟩
    have hknown : ∀ code ∈ codes, ∃ template, templates code = some template := by
      intro code hmem
      rw [hcodes, List.mem_dedup] at hmem
      obtain ⟨input, hinput, rfl⟩ := List.mem_map.mp hmem
      obtain ⟨posting, -, hposting⟩ := Foundations.exists_result_of_mapM hmap input hinput
      obtain ⟨template, htemplate, -⟩ := prepareInput_eq_some.mp hposting
      exact ⟨template, htemplate⟩
    obtain ⟨used, hused, hlookup⟩ := hresolved hknown
    exact ⟨used, Foundations.mapError_eq_ok.mpr hused,
      (prepareAllFrom_eq_ok batch hlookup).mpr ⟨hmap, hdistinct, by simp, by simp⟩⟩

/-- Bodies that agree with the templates prepare what the templates do. -/
theorem prepareAllFrom_eq_prepareAll {used : HashMap String TxTemplateValues}
    {batch : List PostingInput} {prepared : List PreparedTransaction}
    (hused : ∀ input ∈ batch,
      used.lookup input.txTemplateCode = templates input.txTemplateCode) :
    prepareAllFrom ids used 0 [] [] batch = .ok prepared
      ↔ prepareAll ids templates batch = .ok prepared := by
  rw [prepareAll_eq_ok, prepareAllFrom_eq_ok batch hused]
  simp

end Prepare

/-! ## Validation and ancestors -/

/-- A posting that no check of the flow refuses, whatever batch it comes in. -/
structure Postable (directory : LedgerDirectory) (posting : PreparedTransaction) : Prop where
  journal : ∃ journal, directory.journals posting.journalId = some journal
    ∧ journal.status ≠ .locked
  accounts : ∀ entry ∈ posting.entries, ∃ row, directory.accounts entry.accountId = some row
    ∧ row.isAccountSet = false ∧ row.status ≠ .locked
  ancestors : ∀ entry ∈ posting.entries,
    ∀ setId ∈ directory.memberships.walkMappings posting.journalId entry.accountId,
      ¬ directory.accounts.locked (AccountId.ofSet setId)

/-- The first read of the flow for a prepared batch. -/
def readFor (db : LedgerDb) (prepared : List PreparedTransaction) : PostingState :=
  readPostingStateInOp db ((prepared.flatMap PreparedTransaction.entries).map EntryValues.accountId)
    (prepared.map PreparedTransaction.journalId) (entryBalanceKeys prepared)

/-- What was read is what the tables hold, as far as the postings look. -/
structure Covers (order : RowOrder) (db : LedgerDb) (prepared : List PreparedTransaction)
    (mappings : AncestorMappings) (read : PostingState) : Prop where
  walked : ∀ posting ∈ prepared, ∀ entry ∈ posting.entries,
    mappings posting.journalId entry.accountId
      = order.walk entry.accountId
          (db.memberships.walkMappings posting.journalId entry.accountId)
  journals : ∀ posting ∈ prepared, read.journals posting.journalId = db.journals posting.journalId
  accounts : ∀ posting ∈ prepared, ∀ entry ∈ posting.entries,
    ∀ accountId ∈ inlineTargets (mappings posting.journalId) entry,
      read.accounts accountId = (db.accounts accountId).map AccountRow.toMeta
  controls : ∀ posting ∈ prepared, ∀ entry ∈ posting.entries,
    ∀ accountId ∈ inlineTargets (mappings posting.journalId) entry,
      read.controls accountId = db.accountControls accountId
  balances : ∀ posting ∈ prepared, ∀ entry ∈ posting.entries,
    ∀ accountId ∈ inlineTargets (mappings posting.journalId) entry,
      read.balances ⟨posting.journalId, accountId, entry.currency⟩
        = db.balances.value ⟨posting.journalId, accountId, entry.currency⟩

section Read

theorem onlyKeys_of_mem {κ ν : Type} [DecidableEq κ] {keys : List κ} {key : κ} (h : key ∈ keys)
    (table : κ → Option ν) : onlyKeys keys table key = table key :=
  if_pos h

/-- Two reads of one table together hold every row that one of them looked for. -/
theorem or_onlyKeys {κ ν : Type} [DecidableEq κ] {keys keys' : List κ} {table : κ → Option ν}
    {key : κ} (h : key ∈ keys ∨ key ∈ keys') :
    (onlyKeys keys table key).or (onlyKeys keys' table key) = table key := by
  unfold onlyKeys
  by_cases hkeys : key ∈ keys
  · rw [if_pos hkeys]
    split <;> cases table key <;> rfl
  · rw [if_neg hkeys, if_pos (h.resolve_left hkeys), Option.none_or]

theorem mem_sortedDedup {κ : Type} [LinearOrder κ] {items : List κ} {item : κ} :
    item ∈ sortedDedup items ↔ item ∈ items := by
  rw [sortedDedup, List.mem_dedup, Foundations.mem_sortBy]

theorem nodup_sortedDedup {κ : Type} [LinearOrder κ] (items : List κ) : (sortedDedup items).Nodup :=
  List.nodup_dedup _

variable {db : LedgerDb} {prepared : List PreparedTransaction} {posting : PreparedTransaction}

theorem mem_entryBalanceKeys {key : BalanceKey} :
    key ∈ entryBalanceKeys prepared
      ↔ ∃ posting ∈ prepared, ∃ entry ∈ posting.entries,
          key = ⟨posting.journalId, entry.accountId, entry.currency⟩ := by
  rw [entryBalanceKeys, List.mem_dedup, List.mem_flatMap]
  refine exists_congr (fun posting => and_congr_right' ?_)
  rw [List.mem_map]
  exact exists_congr (fun entry => and_congr_right' eq_comm)

theorem mem_entryAccounts (hposting : posting ∈ prepared) {entry : EntryValues}
    (hentry : entry ∈ posting.entries) :
    entry.accountId ∈ (prepared.flatMap PreparedTransaction.entries).map EntryValues.accountId :=
  List.mem_map_of_mem (List.mem_flatMap.mpr ⟨posting, hposting, hentry⟩)

theorem readFor_journals (hposting : posting ∈ prepared) :
    (readFor db prepared).journals posting.journalId = db.journals posting.journalId :=
  onlyKeys_of_mem (List.mem_map_of_mem hposting) db.journals

theorem readFor_accounts (hposting : posting ∈ prepared) {entry : EntryValues}
    (hentry : entry ∈ posting.entries) :
    (readFor db prepared).accounts entry.accountId
      = (db.accounts entry.accountId).map AccountRow.toMeta :=
  onlyKeys_of_mem (mem_entryAccounts hposting hentry)
    (fun accountId => (db.accounts accountId).map AccountRow.toMeta)

end Read

section Validate

variable {db : LedgerDb} {prepared : List PreparedTransaction}

theorem validateFrom_eq_ok {read : PostingState} (prepared : List PreparedTransaction) :
    ∀ {index : ℕ}, validateFrom read index prepared = .ok ()
      ↔ ∀ posting ∈ prepared, validatePosting read posting = .ok () := by
  induction prepared with
  | nil => exact ⟨fun _ _ h => (List.not_mem_nil h).elim, fun _ => rfl⟩
  | cons posting prepared ih =>
      intro index
      rw [validateFrom, Foundations.bind_eq_ok, List.forall_mem_cons, ← ih]
      constructor
      · rintro ⟨⟨⟩, hposting, hrest⟩
        exact ⟨Foundations.mapError_eq_ok.mp hposting, hrest⟩
      · rintro ⟨hposting, hrest⟩
        exact ⟨(), Foundations.mapError_eq_ok.mpr hposting, hrest⟩

theorem validateAccount_eq_ok {read : PostingState} {accountId : AccountId}
    (hread : read.accounts accountId = (db.accounts accountId).map AccountRow.toMeta) :
    Foundations.Succeeds (validateAccount read accountId)
      ↔ ∃ row, db.accounts accountId = some row ∧ row.isAccountSet = false
        ∧ row.status ≠ .locked := by
  rw [validateAccount, hread]
  cases db.accounts accountId with
  | none => simp
  | some row =>
      cases hset : row.isAccountSet <;> cases hstatus : row.status <;>
        simp [AccountRow.toMeta, hset, hstatus]

/-- A prepared batch validates when its journals are open and its entry accounts may be posted
to. -/
theorem validateFrom_readFor :
    validateFrom (readFor db prepared) 0 prepared = .ok ()
      ↔ ∀ posting ∈ prepared,
          (∃ journal, db.journals posting.journalId = some journal ∧ journal.status ≠ .locked)
          ∧ ∀ entry ∈ posting.entries, ∃ row, db.accounts entry.accountId = some row
              ∧ row.isAccountSet = false ∧ row.status ≠ .locked := by
  rw [validateFrom_eq_ok]
  refine forall₂_congr (fun posting hposting => ?_)
  rw [validatePosting, readFor_journals hposting]
  have haccounts : posting.entries.forM (fun entry =>
        validateAccount (readFor db prepared) entry.accountId) = .ok ()
      ↔ ∀ entry ∈ posting.entries, ∃ row, db.accounts entry.accountId = some row
          ∧ row.isAccountSet = false ∧ row.status ≠ .locked := by
    rw [Foundations.forM_ok_iff]
    exact forall₂_congr (fun entry hentry =>
      validateAccount_eq_ok (readFor_accounts hposting hentry))
  cases hjournal : db.journals posting.journalId with
  | none => simp
  | some journal =>
      by_cases hlocked : journal.status = .locked
      · simp [hlocked]
      · simp only [hlocked, if_false, haccounts]
        exact ⟨fun h => ⟨⟨journal, rfl, hlocked⟩, h⟩, fun h => h.2⟩

end Validate

section Resolve

variable {order : RowOrder} {db : LedgerDb} {prepared : List PreparedTransaction}

theorem walk_eq_nil {accountId : AccountId} {sets : List AccountSetId} :
    order.walk accountId sets = [] ↔ sets = [] := by
  constructor
  · intro h
    have hperm := order.walk_perm accountId sets
    rw [h] at hperm
    exact hperm.symm.eq_nil
  · rintro rfl
    exact (order.walk_perm accountId []).eq_nil

/-- An account that is a member of no set has no ancestors. -/
theorem walkMappings_of_no_seed {memberships : MembershipTables} {accountId : AccountId}
    (h : ∀ row ∈ memberships.memberAccounts, row.accountId ≠ accountId) (journalId : JournalId) :
    memberships.walkMappings journalId accountId = [] := by
  rw [List.eq_nil_iff_forall_not_mem]
  intro setId hmem
  obtain ⟨direct, hdirect, -⟩ := MembershipTables.mem_ancestors.mp (List.mem_filter.mp hmem).1
  exact h _ hdirect rfl

theorem resolvedMappings_of_mem {posting : PreparedTransaction} (hposting : posting ∈ prepared)
    {entry : EntryValues} (hentry : entry ∈ posting.entries) :
    resolvedMappings order db.memberships prepared posting.journalId entry.accountId
      = order.walk entry.accountId
          (db.memberships.walkMappings posting.journalId entry.accountId) :=
  if_pos ⟨posting, hposting, rfl, entry, hentry, rfl⟩

/-- What the ancestor phase returns covers the postings when every mapping is the walk's and every
ancestor was read. -/
theorem covers_of_read {mappings : AncestorMappings} {read : PostingState}
    (hmappings : ∀ posting ∈ prepared, ∀ entry ∈ posting.entries,
      mappings posting.journalId entry.accountId = order.walk entry.accountId
        (db.memberships.walkMappings posting.journalId entry.accountId))
    (ancestorIds : List AccountId) (ancestorKeys : List BalanceKey)
    (hancestors : ∀ posting ∈ prepared, ∀ entry ∈ posting.entries,
      ∀ setId ∈ mappings posting.journalId entry.accountId,
        AccountId.ofSet setId ∈ ancestorIds
          ∧ ⟨posting.journalId, AccountId.ofSet setId, entry.currency⟩ ∈ ancestorKeys)
    (hread : read = readAncestorStateInOp db (readFor db prepared) ancestorIds ancestorKeys) :
    Covers order db prepared mappings read := by
  subst hread
  have hids : ∀ posting ∈ prepared, ∀ entry ∈ posting.entries,
      ∀ accountId ∈ inlineTargets (mappings posting.journalId) entry,
        accountId ∈ ancestorIds
          ∨ accountId ∈ (prepared.flatMap PreparedTransaction.entries).map
              EntryValues.accountId := by
    intro posting hposting entry hentry accountId htarget
    rcases List.mem_append.mp htarget with hset | hleaf
    · obtain ⟨setId, hsetId, rfl⟩ := List.mem_map.mp hset
      exact Or.inl (hancestors posting hposting entry hentry setId hsetId).1
    · rw [List.mem_singleton] at hleaf
      exact Or.inr (hleaf ▸ mem_entryAccounts hposting hentry)
  refine ⟨hmappings, fun posting hposting => readFor_journals hposting, ?_, ?_, ?_⟩
  · intro posting hposting entry hentry accountId htarget
    exact or_onlyKeys (hids posting hposting entry hentry accountId htarget)
  · intro posting hposting entry hentry accountId htarget
    exact or_onlyKeys (hids posting hposting entry hentry accountId htarget)
  · intro posting hposting entry hentry accountId htarget
    refine or_onlyKeys ?_
    rcases List.mem_append.mp htarget with hset | hleaf
    · obtain ⟨setId, hsetId, rfl⟩ := List.mem_map.mp hset
      exact Or.inl (hancestors posting hposting entry hentry setId hsetId).2
    · rw [List.mem_singleton] at hleaf
      subst hleaf
      exact Or.inr (mem_entryBalanceKeys.mpr ⟨posting, hposting, entry, hentry, rfl⟩)

/-- Reading no ancestor changes nothing. -/
theorem readAncestorStateInOp_nil (read : PostingState) :
    readAncestorStateInOp db read [] [] = read := by
  simp [readAncestorStateInOp, onlyKeys]

variable (order) in
/-- Without an ancestor there is no ancestor to find locked, and the first read covers. -/
theorem covers_of_no_ancestor {mappings : AncestorMappings}
    (hnone : ∀ posting ∈ prepared, ∀ entry ∈ posting.entries,
      db.memberships.walkMappings posting.journalId entry.accountId = []
        ∧ mappings posting.journalId entry.accountId = []) :
    (∀ posting ∈ prepared, ∀ entry ∈ posting.entries,
        ∀ setId ∈ db.memberships.walkMappings posting.journalId entry.accountId,
          ¬ db.accounts.locked (AccountId.ofSet setId))
      ∧ Covers order db prepared mappings (readFor db prepared) := by
  constructor
  · intro posting hposting entry hentry setId hsetId
    rw [(hnone posting hposting entry hentry).1] at hsetId
    cases hsetId
  · refine covers_of_read ?_ [] [] ?_
      (readAncestorStateInOp_nil _).symm
    · intro posting hposting entry hentry
      rw [(hnone posting hposting entry hentry).2, (hnone posting hposting entry hentry).1,
        walk_eq_nil.mpr rfl]
    · intro posting hposting entry hentry setId hsetId
      rw [(hnone posting hposting entry hentry).2] at hsetId
      cases hsetId

/-- **The ancestor phase** refuses exactly the batches that have a locked ancestor; what it returns
covers the postings. -/
theorem resolveAncestors_spec :
    (Foundations.Succeeds (resolveAncestors order db prepared (readFor db prepared))
        ↔ ∀ posting ∈ prepared, ∀ entry ∈ posting.entries,
            ∀ setId ∈ db.memberships.walkMappings posting.journalId entry.accountId,
              ¬ db.accounts.locked (AccountId.ofSet setId))
      ∧ ∀ result, resolveAncestors order db prepared (readFor db prepared) = .ok result →
          Covers order db prepared result.1 result.2 := by
  rw [resolveAncestors]
  by_cases hseeds : (readFor db prepared).seeds = []
  · -- no entry account is a member of a set
    set mappings : AncestorMappings := fun _ _ => [] with hmappings
    have hnone : ∀ posting ∈ prepared, ∀ entry ∈ posting.entries,
        db.memberships.walkMappings posting.journalId entry.accountId = []
          ∧ mappings posting.journalId entry.accountId = [] := by
      intro posting hposting entry hentry
      refine ⟨walkMappings_of_no_seed (fun row hrow heq => ?_) _, rfl⟩
      have hmem : row ∈ (readFor db prepared).seeds :=
        List.mem_filter.mpr ⟨hrow, by simpa [heq] using mem_entryAccounts hposting hentry⟩
      rw [hseeds] at hmem
      cases hmem
    obtain ⟨hopen, hcovers⟩ := covers_of_no_ancestor order hnone
    rw [if_pos hseeds]
    refine ⟨⟨fun _ => hopen, fun _ => Foundations.succeeds_ok _⟩, ?_⟩
    rintro _ ⟨⟩
    exact hcovers
  · rw [if_neg hseeds]
    set mappings := resolvedMappings order db.memberships prepared with hmappings
    set ancestorKeys : List BalanceKey := prepared.flatMap (fun posting =>
      posting.entries.flatMap (fun entry =>
        (mappings posting.journalId entry.accountId).map (fun setId =>
          ⟨posting.journalId, AccountId.ofSet setId, entry.currency⟩))) with hkeys
    have hmem : ∀ posting ∈ prepared, ∀ entry ∈ posting.entries,
        ∀ setId ∈ mappings posting.journalId entry.accountId,
          ⟨posting.journalId, AccountId.ofSet setId, entry.currency⟩ ∈ ancestorKeys := by
      intro posting hposting entry hentry setId hsetId
      exact List.mem_flatMap.mpr ⟨posting, hposting, List.mem_flatMap.mpr ⟨entry, hentry,
        List.mem_map_of_mem hsetId⟩⟩
    have hwalk : ∀ posting ∈ prepared, ∀ entry ∈ posting.entries,
        mappings posting.journalId entry.accountId = order.walk entry.accountId
          (db.memberships.walkMappings posting.journalId entry.accountId) :=
      fun posting hposting entry hentry => resolvedMappings_of_mem hposting hentry
    simp only []
    by_cases hempty : ancestorKeys = []
    · have hnone : ∀ posting ∈ prepared, ∀ entry ∈ posting.entries,
          db.memberships.walkMappings posting.journalId entry.accountId = []
            ∧ mappings posting.journalId entry.accountId = [] := by
        intro posting hposting entry hentry
        have hnil : mappings posting.journalId entry.accountId = [] := by
          rw [List.eq_nil_iff_forall_not_mem]
          intro setId hsetId
          have hin := hmem posting hposting entry hentry setId hsetId
          rw [hempty] at hin
          cases hin
        exact ⟨walk_eq_nil.mp ((hwalk posting hposting entry hentry).symm.trans hnil), hnil⟩
      obtain ⟨hopen, hcovers⟩ := covers_of_no_ancestor order hnone
      rw [if_pos hempty]
      refine ⟨⟨fun _ => hopen, fun _ => Foundations.succeeds_ok _⟩, ?_⟩
      rintro _ ⟨⟩
      exact hcovers
    · rw [if_neg hempty]
      set ancestorIds := sortedDedup (ancestorKeys.map BalanceKey.accountId) with hids
      set read := readAncestorStateInOp db (readFor db prepared) ancestorIds ancestorKeys.dedup
        with hread
      have hcovers : Covers order db prepared mappings read := by
        refine covers_of_read hwalk _ _ (fun posting hposting entry hentry setId hsetId => ?_) hread
        have hkey := hmem posting hposting entry hentry setId hsetId
        exact ⟨mem_sortedDedup.mpr (List.mem_map_of_mem (f := BalanceKey.accountId) hkey),
          List.mem_dedup.mpr hkey⟩
      have hlocked : ∀ accountId ∈ ancestorIds,
          (read.accounts accountId).any AccountMeta.locked = true ↔ db.accounts.locked accountId := by
        intro accountId hmem
        have haccount : read.accounts accountId = (db.accounts accountId).map AccountRow.toMeta :=
          or_onlyKeys (Or.inl hmem)
        rw [haccount, AccountTable.locked]
        cases db.accounts accountId with
        | none => simp
        | some row => simp [AccountRow.toMeta]
      have hancestor : ∀ accountId, accountId ∈ ancestorIds
          ↔ ∃ posting ∈ prepared, ∃ entry ∈ posting.entries,
              ∃ setId ∈ db.memberships.walkMappings posting.journalId entry.accountId,
                accountId = AccountId.ofSet setId := by
        intro accountId
        rw [hids, mem_sortedDedup]
        constructor
        · intro hin
          obtain ⟨key, hkey, rfl⟩ := List.mem_map.mp hin
          obtain ⟨posting, hposting, hkey⟩ := List.mem_flatMap.mp hkey
          obtain ⟨entry, hentry, hkey⟩ := List.mem_flatMap.mp hkey
          obtain ⟨setId, hsetId, rfl⟩ := List.mem_map.mp hkey
          rw [hwalk posting hposting entry hentry] at hsetId
          exact ⟨posting, hposting, entry, hentry, setId,
            (order.walk_perm _ _).mem_iff.mp hsetId, rfl⟩
        · rintro ⟨posting, hposting, entry, hentry, setId, hsetId, rfl⟩
          refine List.mem_map_of_mem (f := BalanceKey.accountId)
            (hmem posting hposting entry hentry setId ?_)
          rw [hwalk posting hposting entry hentry]
          exact (order.walk_perm _ _).mem_iff.mpr hsetId
      cases hfind : ancestorIds.find? (fun accountId =>
          (read.accounts accountId).any AccountMeta.locked) with
      | some accountId =>
          have hin := List.mem_of_find?_eq_some hfind
          have hlock := (hlocked accountId hin).mp
            (List.find?_some (p := fun id => (read.accounts id).any AccountMeta.locked) hfind)
          refine ⟨⟨fun h => (Foundations.not_succeeds_error _ h).elim, fun hopen => ?_⟩, nofun⟩
          obtain ⟨posting, hposting, entry, hentry, setId, hsetId, rfl⟩ :=
            (hancestor accountId).mp hin
          exact (hopen posting hposting entry hentry setId hsetId hlock).elim
      | none =>
          refine ⟨⟨fun _ posting hposting entry hentry setId hsetId hlock => ?_,
            fun _ => Foundations.succeeds_ok _⟩, ?_⟩
          · have hin := (hancestor (AccountId.ofSet setId)).mpr
              ⟨posting, hposting, entry, hentry, setId, hsetId, rfl⟩
            exact List.find?_eq_none.mp hfind _ hin ((hlocked _ hin).mpr hlock)
          · rintro _ ⟨⟩
            exact hcovers

end Resolve

end CalaLedger
