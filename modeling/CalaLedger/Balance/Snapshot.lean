import CalaLedger.Balance.Targets
import CalaLedger.Foundations.HashMap

/-! # The snapshot fold

`Snapshots::update_snapshot` adds one entry to one balance; `SnapshotFold` runs a batch of entries
over many balances at once, keeping the latest snapshot of every touched balance in a map and the
superseded ones in a list. Both folds of the ledger, the inline one (`fromEntries`) and the
streaming one (`fromEcEntries`), drive the same accumulator and differ only in which balances an
entry reaches.

The fold is read back one balance at a time: `chain` is the list of snapshots that a list of
entries leaves on one balance, and `fold_filter_key` says that the output restricted to a balance
is the chain of the entries that hit it. -/

namespace CalaLedger

/-- Add an entry to the totals of its layer. -/
def BalanceAmount.update (amount : BalanceAmount) (time : Timestamp) (entry : EntryValues) :
    BalanceAmount :=
  match entry.direction with
  | .debit =>
      { drBalance := amount.drBalance + entry.units
        crBalance := amount.crBalance
        entryId := entry.id
        modifiedAt := time }
  | .credit =>
      { drBalance := amount.drBalance
        crBalance := amount.crBalance + entry.units
        entryId := entry.id
        modifiedAt := time }

@[simp] theorem BalanceAmount.update_entryId (amount : BalanceAmount) (time : Timestamp)
    (entry : EntryValues) : (amount.update time entry).entryId = entry.id := by
  unfold BalanceAmount.update
  cases entry.direction <;> rfl

theorem BalanceAmount.update_side (amount : BalanceAmount) (time : Timestamp)
    (entry : EntryValues) (direction : DebitOrCredit) :
    (amount.update time entry).side direction
      = amount.side direction + if entry.direction = direction then entry.units else 0 := by
  unfold BalanceAmount.update BalanceAmount.side
  cases entry.direction <;> cases direction <;> simp

/-- `Snapshots::update_snapshot`: one more version, with the entry on its own layer. -/
def updateSnapshot (time : Timestamp) (snapshot : BalanceSnapshot) (entry : EntryValues) :
    BalanceSnapshot :=
  let snapshot :=
    { snapshot with
      version := snapshot.version + 1
      modifiedAt := time
      entryId := entry.id }
  match entry.layer with
  | .settled => { snapshot with settled := snapshot.settled.update time entry }
  | .pending => { snapshot with pending := snapshot.pending.update time entry }
  | .encumbrance => { snapshot with encumbrance := snapshot.encumbrance.update time entry }

section UpdateSnapshot

variable (time : Timestamp) (snapshot : BalanceSnapshot) (entry : EntryValues)

@[simp] theorem updateSnapshot_key : (updateSnapshot time snapshot entry).key = snapshot.key := by
  unfold updateSnapshot
  cases entry.layer <;> rfl

@[simp] theorem updateSnapshot_version :
    (updateSnapshot time snapshot entry).version = snapshot.version + 1 := by
  unfold updateSnapshot
  cases entry.layer <;> rfl

@[simp] theorem updateSnapshot_entryId :
    (updateSnapshot time snapshot entry).entryId = entry.id := by
  unfold updateSnapshot
  cases entry.layer <;> rfl

@[simp] theorem updateSnapshot_createdAt :
    (updateSnapshot time snapshot entry).createdAt = snapshot.createdAt := by
  unfold updateSnapshot
  cases entry.layer <;> rfl

@[simp] theorem updateSnapshot_modifiedAt :
    (updateSnapshot time snapshot entry).modifiedAt = time := by
  unfold updateSnapshot
  cases entry.layer <;> rfl

/-- Only the entry's own layer moves. -/
theorem updateSnapshot_layer (layer : Layer) :
    (updateSnapshot time snapshot entry).layer layer
      = if entry.layer = layer then (snapshot.layer layer).update time entry
        else snapshot.layer layer := by
  unfold updateSnapshot BalanceSnapshot.layer
  cases entry.layer <;> cases layer <;> rfl

theorem updateSnapshot_side (layer : Layer) (direction : DebitOrCredit) :
    ((updateSnapshot time snapshot entry).layer layer).side direction
      = (snapshot.layer layer).side direction + entry.unitsOn layer direction := by
  rw [updateSnapshot_layer]
  by_cases hlayer : entry.layer = layer
  · rw [if_pos hlayer, BalanceAmount.update_side]
    simp [EntryValues.unitsOn, hlayer]
  · simp [EntryValues.unitsOn, hlayer]

theorem updateSnapshot_layer_entryId (layer : Layer) :
    ((updateSnapshot time snapshot entry).layer layer).entryId
      = if entry.layer = layer then entry.id else (snapshot.layer layer).entryId := by
  rw [updateSnapshot_layer]
  split <;> simp

end UpdateSnapshot

/-- The empty totals every balance starts from. -/
def BalanceAmount.zero (time : Timestamp) : BalanceAmount :=
  { drBalance := 0
    crBalance := 0
    entryId := UNASSIGNED_ENTRY_ID
    modifiedAt := time }

@[simp] theorem BalanceAmount.zero_side (time : Timestamp) (direction : DebitOrCredit) :
    (BalanceAmount.zero time).side direction = 0 := by
  cases direction <;> rfl

/-- The version-0 snapshot that both `Snapshots::new_snapshot` and
`EffectiveBalanceData::first_snapshot` build: nothing posted, no entry assigned. -/
def firstSnapshot (time : Timestamp) (accountId : AccountId) (entry : EntryValues) :
    BalanceSnapshot :=
  { journalId := entry.journalId
    accountId := accountId
    currency := entry.currency
    version := 0
    createdAt := time
    modifiedAt := time
    entryId := UNASSIGNED_ENTRY_ID
    settled := BalanceAmount.zero time
    pending := BalanceAmount.zero time
    encumbrance := BalanceAmount.zero time }

@[simp] theorem firstSnapshot_layer (time : Timestamp) (accountId : AccountId)
    (entry : EntryValues) (layer : Layer) :
    (firstSnapshot time accountId entry).layer layer = BalanceAmount.zero time := by
  cases layer <;> rfl

/-- `Snapshots::new_snapshot`. -/
def newSnapshot (time : Timestamp) (accountId : AccountId) (entry : EntryValues) :
    BalanceSnapshot :=
  updateSnapshot time (firstSnapshot time accountId entry) entry

@[simp] theorem newSnapshot_key (time : Timestamp) (accountId : AccountId) (entry : EntryValues) :
    (newSnapshot time accountId entry).key = ⟨entry.journalId, accountId, entry.currency⟩ := by
  rw [newSnapshot, updateSnapshot_key]
  rfl

@[simp] theorem newSnapshot_version (time : Timestamp) (accountId : AccountId)
    (entry : EntryValues) : (newSnapshot time accountId entry).version = 1 := by
  rw [newSnapshot, updateSnapshot_version]
  rfl

/-! ## The accumulator -/

/-- `SnapshotFold`: `current` holds the loaded balances not touched yet, `latest` the newest
snapshot of every touched balance, `completed` the snapshots already superseded. -/
structure SnapshotFold where
  time : Timestamp
  current : HashMap (AccountId × Currency) (Option BalanceSnapshot)
  latest : HashMap (AccountId × Currency) BalanceSnapshot
  completed : List BalanceSnapshot

namespace SnapshotFold

def new (time : Timestamp)
    (current : HashMap (AccountId × Currency) (Option BalanceSnapshot)) : SnapshotFold :=
  { time := time
    current := current
    latest := ∅
    completed := [] }

/-- Fold one entry into one balance: chain onto the latest snapshot, else onto the loaded balance;
a balance that was never loaded is not involved. -/
def apply (fold : SnapshotFold) (accountId : AccountId) (entry : EntryValues) : SnapshotFold :=
  let key := (accountId, entry.currency)
  match fold.latest.lookup key with
  | some prev =>
      { fold with
        completed := fold.completed ++ [prev]
        latest := (fold.latest.erase key).insert key (updateSnapshot fold.time prev entry) }
  | none =>
      match fold.current.lookup key with
      | none => fold
      | some (some balance) =>
          { fold with
            current := fold.current.erase key
            latest := fold.latest.insert key (updateSnapshot fold.time balance entry) }
      | some none =>
          { fold with
            current := fold.current.erase key
            latest := fold.latest.insert key (newSnapshot fold.time accountId entry) }

def intoSnapshots (fold : SnapshotFold) : List BalanceSnapshot :=
  fold.completed ++ Foundations.values fold.latest

end SnapshotFold

/-- Run the accumulator over the balances each entry reaches, in order. -/
def foldTargets (time : Timestamp)
    (currentBalances : HashMap (AccountId × Currency) (Option BalanceSnapshot))
    (targets : EntryValues → List AccountId) (entries : List EntryValues) : SnapshotFold :=
  carry SnapshotFold.apply targets entries (SnapshotFold.new time currentBalances)

/-- `Snapshots::from_entries`. -/
def fromEntries (time : Timestamp)
    (currentBalances : HashMap (AccountId × Currency) (Option BalanceSnapshot))
    (entries : List EntryValues) (accountSetMappings : AccountSetMappings) :
    List BalanceSnapshot :=
  (foldTargets time currentBalances (inlineTargets accountSetMappings) entries).intoSnapshots

/-- `Snapshots::from_ec_entries`. -/
def fromEcEntries (time : Timestamp)
    (currentBalances : HashMap (AccountId × Currency) (Option BalanceSnapshot))
    (entries : List EntryValues) (ecMappings : AccountSetMappings) (ecLeaves : List AccountId) :
    List BalanceSnapshot :=
  (foldTargets time currentBalances (ecTargets ecMappings ecLeaves) entries).intoSnapshots

/-! ## One balance at a time -/

/-- The snapshot that follows a balance, loaded or absent, when one entry is added. -/
def nextSnapshot (time : Timestamp) (accountId : AccountId) (base : Option BalanceSnapshot)
    (entry : EntryValues) : BalanceSnapshot :=
  match base with
  | some balance => updateSnapshot time balance entry
  | none => newSnapshot time accountId entry

/-- The snapshots a list of entries leaves on one balance, oldest first. -/
def chain (time : Timestamp) (accountId : AccountId) :
    Option BalanceSnapshot → List EntryValues → List BalanceSnapshot
  | _, [] => []
  | base, entry :: entries =>
      nextSnapshot time accountId base entry
        :: chain time accountId (some (nextSnapshot time accountId base entry)) entries

/-- The balance a list of entries leaves behind. -/
def chainLast (time : Timestamp) (accountId : AccountId) (base : Option BalanceSnapshot)
    (entries : List EntryValues) : Option BalanceSnapshot :=
  entries.foldl (fun balance entry => some (nextSnapshot time accountId balance entry)) base

section Chain

variable (time : Timestamp) (accountId : AccountId)

@[simp] theorem chain_nil (base : Option BalanceSnapshot) : chain time accountId base [] = [] :=
  rfl

theorem chain_cons (base : Option BalanceSnapshot) (entry : EntryValues)
    (entries : List EntryValues) :
    chain time accountId base (entry :: entries)
      = nextSnapshot time accountId base entry
          :: chain time accountId (some (nextSnapshot time accountId base entry)) entries := rfl

@[simp] theorem chainLast_nil (base : Option BalanceSnapshot) :
    chainLast time accountId base [] = base := rfl

theorem chainLast_cons (base : Option BalanceSnapshot) (entry : EntryValues)
    (entries : List EntryValues) :
    chainLast time accountId base (entry :: entries)
      = chainLast time accountId (some (nextSnapshot time accountId base entry)) entries := rfl

theorem chainLast_append (base : Option BalanceSnapshot) (front back : List EntryValues) :
    chainLast time accountId base (front ++ back)
      = chainLast time accountId (chainLast time accountId base front) back :=
  List.foldl_append

/-- A chain over two lists is the chain over the first, continued from where it ended. -/
theorem chain_append (base : Option BalanceSnapshot) (front back : List EntryValues) :
    chain time accountId base (front ++ back)
      = chain time accountId base front
          ++ chain time accountId (chainLast time accountId base front) back := by
  induction front generalizing base with
  | nil => rfl
  | cons entry entries ih =>
      rw [List.cons_append, chain_cons, ih, chain_cons, chainLast_cons, List.cons_append]

theorem chain_concat (base : Option BalanceSnapshot) (entries : List EntryValues)
    (entry : EntryValues) :
    chain time accountId base (entries ++ [entry])
      = chain time accountId base entries
          ++ [nextSnapshot time accountId (chainLast time accountId base entries) entry] := by
  rw [chain_append, chain_cons, chain_nil]

theorem chainLast_concat (base : Option BalanceSnapshot) (entries : List EntryValues)
    (entry : EntryValues) :
    chainLast time accountId base (entries ++ [entry])
      = some (nextSnapshot time accountId (chainLast time accountId base entries) entry) := by
  rw [chainLast_append]
  rfl

@[simp] theorem chain_length (base : Option BalanceSnapshot) (entries : List EntryValues) :
    (chain time accountId base entries).length = entries.length := by
  induction entries generalizing base with
  | nil => rfl
  | cons entry entries ih => rw [chain_cons, List.length_cons, ih, List.length_cons]

@[simp] theorem chain_eq_nil {base : Option BalanceSnapshot} {entries : List EntryValues} :
    chain time accountId base entries = [] ↔ entries = [] := by
  cases entries with
  | nil => simp
  | cons entry entries => simp [chain_cons]

/-- The last snapshot of a non-empty chain is the balance it leaves behind. -/
theorem chain_getLast? (base : Option BalanceSnapshot) {entries : List EntryValues}
    (hne : entries ≠ []) :
    (chain time accountId base entries).getLast? = chainLast time accountId base entries := by
  obtain ⟨front, last, rfl⟩ := (List.eq_nil_or_concat' entries).resolve_left hne
  rw [chain_concat, chainLast_concat, List.getLast?_concat]

end Chain

/-! ## The fold restricted to one balance -/

namespace SnapshotFold

/-- The snapshots of one balance once `entries` have reached it: none when it was not loaded. -/
def keySnapshots (time : Timestamp) (accountId : AccountId)
    (loaded : Option (Option BalanceSnapshot)) (entries : List EntryValues) :
    List BalanceSnapshot :=
  match loaded with
  | none => []
  | some base => chain time accountId base entries

/-- Whether a snapshot belongs to one of the balances a fold is keyed by. -/
def OfKey (key : AccountId × Currency) (snapshot : BalanceSnapshot) : Prop :=
  (snapshot.accountId, snapshot.currency) = key

instance (key : AccountId × Currency) : DecidablePred (OfKey key) :=
  fun _ => inferInstanceAs (Decidable (_ = _))

theorem ofKey_updateSnapshot {key : AccountId × Currency} {time : Timestamp}
    {snapshot : BalanceSnapshot} {entry : EntryValues} :
    OfKey key (updateSnapshot time snapshot entry) ↔ OfKey key snapshot := by
  unfold OfKey updateSnapshot
  cases entry.layer <;> rfl

theorem ofKey_newSnapshot (time : Timestamp) (accountId : AccountId) (entry : EntryValues) :
    OfKey (accountId, entry.currency) (newSnapshot time accountId entry) := by
  unfold newSnapshot
  rw [ofKey_updateSnapshot]
  rfl

/-- Every stored snapshot names the balance it is stored under. -/
structure WellKeyed (fold : SnapshotFold) : Prop where
  latest : ∀ key s, fold.latest.lookup key = some s → OfKey key s
  current : ∀ key s, fold.current.lookup key = some (some s) → OfKey key s

/-- What the accumulator knows about one balance after `entries` have reached it. -/
structure AtKey (fold : SnapshotFold) (accountId : AccountId) (currency : Currency)
    (loaded : Option (Option BalanceSnapshot)) (entries : List EntryValues) : Prop where
  latest : fold.latest.lookup (accountId, currency)
    = (keySnapshots fold.time accountId loaded entries).getLast?
  completed : fold.completed.filter (fun s => OfKey (accountId, currency) s)
    = (keySnapshots fold.time accountId loaded entries).dropLast
  current : fold.current.lookup (accountId, currency) = if entries = [] then loaded else none

@[simp] theorem apply_time (fold : SnapshotFold) (accountId : AccountId) (entry : EntryValues) :
    (fold.apply accountId entry).time = fold.time := by
  unfold apply
  dsimp only
  split
  · rfl
  · split <;> rfl

theorem WellKeyed.apply {fold : SnapshotFold} (h : fold.WellKeyed) (accountId : AccountId)
    (entry : EntryValues) : (fold.apply accountId entry).WellKeyed := by
  have hinsert : ∀ {m : HashMap (AccountId × Currency) BalanceSnapshot} {s : BalanceSnapshot},
      (∀ key t, m.lookup key = some t → OfKey key t) → OfKey (accountId, entry.currency) s →
      ∀ key t, (m.insert (accountId, entry.currency) s).lookup key = some t → OfKey key t := by
    intro m s hm hs key t hlookup
    by_cases hkey : key = (accountId, entry.currency)
    · subst hkey
      rw [AList.lookup_insert, Option.some.injEq] at hlookup
      exact hlookup ▸ hs
    · rw [AList.lookup_insert_ne hkey] at hlookup
      exact hm key t hlookup
  have herase : ∀ {ν : Type} (m : HashMap (AccountId × Currency) ν) key v,
      (m.erase (accountId, entry.currency)).lookup key = some v → m.lookup key = some v := by
    intro ν m key v hlookup
    by_cases hkey : key = (accountId, entry.currency)
    · subst hkey
      rw [AList.lookup_erase] at hlookup
      cases hlookup
    · rwa [AList.lookup_erase_ne hkey] at hlookup
  unfold SnapshotFold.apply
  dsimp only
  split
  · rename_i prev hprev
    refine ⟨hinsert (fun key t ht => h.latest key t (herase _ key t ht)) ?_, h.current⟩
    exact ofKey_updateSnapshot.mpr (h.latest _ _ hprev)
  · split
    · exact h
    · rename_i balance hbalance
      refine ⟨hinsert h.latest ?_, fun key t ht => h.current key t (herase _ key _ ht)⟩
      exact ofKey_updateSnapshot.mpr (h.current _ _ hbalance)
    · exact ⟨hinsert h.latest (ofKey_newSnapshot _ _ _),
        fun key t ht => h.current key t (herase _ key _ ht)⟩

/-- An entry folded into another balance leaves this one as it was. -/
theorem AtKey.apply_ne {fold : SnapshotFold} (hkeyed : fold.WellKeyed) {accountId : AccountId}
    {currency : Currency} {loaded : Option (Option BalanceSnapshot)} {entries : List EntryValues}
    (h : fold.AtKey accountId currency loaded entries) {target : AccountId} {entry : EntryValues}
    (hne : (target, entry.currency) ≠ (accountId, currency)) :
    (fold.apply target entry).AtKey accountId currency loaded entries := by
  unfold SnapshotFold.apply
  dsimp only
  split
  · rename_i prev hprev
    have hother : ¬ OfKey (accountId, currency) prev := by
      intro hkey
      exact hne ((hkeyed.latest _ _ hprev).symm.trans hkey)
    refine ⟨?_, ?_, h.current⟩
    · dsimp only
      rw [AList.lookup_insert_ne hne.symm, AList.lookup_erase_ne hne.symm]
      exact h.latest
    · dsimp only
      rw [List.filter_append, h.completed]
      simp [hother]
  · split
    · exact h
    all_goals
      refine ⟨?_, h.completed, ?_⟩
      · dsimp only
        rw [AList.lookup_insert_ne hne.symm]
        exact h.latest
      · dsimp only
        rw [AList.lookup_erase_ne hne.symm]
        exact h.current

/-- An entry folded into a balance extends that balance's chain by one snapshot. -/
theorem AtKey.apply_self {fold : SnapshotFold} (hkeyed : fold.WellKeyed) {accountId : AccountId}
    {loaded : Option (Option BalanceSnapshot)} {entries : List EntryValues} {entry : EntryValues}
    (h : fold.AtKey accountId entry.currency loaded entries) :
    (fold.apply accountId entry).AtKey accountId entry.currency loaded (entries ++ [entry]) := by
  cases loaded with
  | none =>
      -- never loaded: both maps miss, and the accumulator is unchanged
      have hlatest : fold.latest.lookup (accountId, entry.currency) = none := h.latest
      have hcurrent : fold.current.lookup (accountId, entry.currency) = none := by
        rw [h.current, ite_self]
      have happly : fold.apply accountId entry = fold := by
        unfold SnapshotFold.apply
        simp only [hlatest, hcurrent]
      rw [happly]
      exact ⟨h.latest, h.completed, by rw [hcurrent, ite_self]⟩
  | some base =>
      have hcurrent := h.current
      have hlatest := h.latest
      have hcompleted := h.completed
      simp only [keySnapshots] at hlatest hcompleted
      by_cases hentries : entries = []
      · -- first touch: the loaded balance moves from `current` to `latest`
        subst hentries
        simp only [chain_nil, List.getLast?_nil, List.dropLast_nil, if_true] at *
        unfold SnapshotFold.apply
        cases base with
        | none =>
            simp only [hlatest, hcurrent]
            exact ⟨by simp [keySnapshots, chain_cons, nextSnapshot],
              by simpa [keySnapshots, chain_cons] using hcompleted, by simp⟩
        | some balance =>
            simp only [hlatest, hcurrent]
            exact ⟨by simp [keySnapshots, chain_cons, nextSnapshot],
              by simpa [keySnapshots, chain_cons] using hcompleted, by simp⟩
      · -- touched before: the latest snapshot is completed and chained onto
        rw [chain_getLast? _ _ _ hentries] at hlatest
        obtain ⟨front, last, rfl⟩ := (List.eq_nil_or_concat' entries).resolve_left hentries
        rw [chainLast_concat] at hlatest
        rw [chain_concat, List.dropLast_concat] at hcompleted
        rw [if_neg hentries] at hcurrent
        unfold SnapshotFold.apply
        simp only [hlatest]
        refine ⟨?_, ?_, ?_⟩
        · simp only [keySnapshots, chain_concat, chainLast_concat, AList.lookup_insert,
            List.getLast?_concat, nextSnapshot]
        · have hkey := hkeyed.latest _ _ hlatest
          simp only [keySnapshots, List.filter_append, hcompleted, chain_concat,
            List.dropLast_concat]
          simp [hkey]
        · simpa using hcurrent

theorem new_atKey (time : Timestamp)
    (current : HashMap (AccountId × Currency) (Option BalanceSnapshot)) (accountId : AccountId)
    (currency : Currency) :
    (new time current).AtKey accountId currency (current.lookup (accountId, currency)) [] := by
  cases hloaded : current.lookup (accountId, currency) with
  | none => exact ⟨rfl, rfl, by simpa [new] using hloaded⟩
  | some base => exact ⟨rfl, rfl, by simpa [new] using hloaded⟩

@[simp] theorem foldTargets_time (time : Timestamp)
    (current : HashMap (AccountId × Currency) (Option BalanceSnapshot))
    (targets : EntryValues → List AccountId) (entries : List EntryValues) :
    (foldTargets time current targets entries).time = time :=
  carry_invariant apply (fun fold => fold.time = time)
    (fun fold accountId entry h => (apply_time fold accountId entry).trans h) targets entries rfl

end SnapshotFold

/-- Loaded balances sit under their own account and currency. -/
def LoadedByKey (current : HashMap (AccountId × Currency) (Option BalanceSnapshot)) : Prop :=
  ∀ key s, current.lookup key = some (some s) → SnapshotFold.OfKey key s

/-- **The fold, read one balance at a time**: the snapshots of a balance are, in order, the chain
of the entries that hit it, started from the loaded balance; a balance that was not loaded gets
none. -/
theorem fold_filter_key (time : Timestamp)
    {current : HashMap (AccountId × Currency) (Option BalanceSnapshot)}
    (hcurrent : LoadedByKey current) (targets : EntryValues → List AccountId)
    (entries : List EntryValues) (accountId : AccountId) (currency : Currency) :
    (foldTargets time current targets entries).intoSnapshots.filter
        (fun s => SnapshotFold.OfKey (accountId, currency) s)
      = SnapshotFold.keySnapshots time accountId (current.lookup (accountId, currency))
          (hits targets accountId currency entries) := by
  have hnew : (SnapshotFold.new time current).WellKeyed :=
    ⟨fun key s h => by simp [SnapshotFold.new] at h, hcurrent⟩
  obtain ⟨hkeyed, hat⟩ := carry_at SnapshotFold.apply
    (fun fold history => fold.WellKeyed
      ∧ fold.AtKey accountId currency (current.lookup (accountId, currency)) history)
    (fun fold history target entry h hne => ⟨h.1.apply target entry, h.2.apply_ne h.1 hne⟩)
    (fun fold history entry h hcurrency => by
      subst hcurrency
      exact ⟨h.1.apply accountId entry, h.2.apply_self h.1⟩)
    targets entries ⟨hnew, SnapshotFold.new_atKey time current accountId currency⟩
  change (foldTargets time current targets entries).WellKeyed at hkeyed
  change (foldTargets time current targets entries).AtKey _ _ _ _ at hat
  have hlatest := hat.latest
  have hcompleted := hat.completed
  rw [SnapshotFold.foldTargets_time, List.nil_append] at hlatest hcompleted
  have hvalues : (Foundations.values (foldTargets time current targets entries).latest).filter
        (fun s => SnapshotFold.OfKey (accountId, currency) s)
      = ((foldTargets time current targets entries).latest.lookup (accountId, currency)).toList := by
    rw [← Foundations.filter_values (fun s : BalanceSnapshot => (s.accountId, s.currency)) _ _
      hkeyed.latest]
    exact List.filter_congr (fun s _ => decide_eq_decide.mpr Iff.rfl)
  rw [SnapshotFold.intoSnapshots, List.filter_append, hcompleted, hvalues, hlatest]
  cases hsnapshots : SnapshotFold.keySnapshots time accountId (current.lookup (accountId, currency))
      (hits targets accountId currency entries) with
  | nil => rfl
  | cons first rest =>
      rw [List.getLast?_eq_some_getLast (List.cons_ne_nil first rest), Option.toList_some,
        List.dropLast_concat_getLast]

end CalaLedger
