import CalaLedger.Balance.EcRollup

/-! # The law of the snapshot fold

What `Snapshots::from_entries` and `from_ec_entries` return, for every balance at once: the loaded
balances get one snapshot for each time an entry touches them, counted on from the loaded version
and each the one before with that entry added; the others get none; and the last snapshot of a
balance is its highest, so a map that keeps the last one written carries every balance over to the
next transaction. The map of latest snapshots may be drained in any order. -/

namespace CalaLedger

open Foundations

/-- A snapshot is another one with a single entry added, on its layer and direction. -/
structure AddsEntry (time : Timestamp) (entry : EntryValues) (prev next : BalanceSnapshot) :
    Prop where
  key : next.key = prev.key
  version : next.version = prev.version + 1
  createdAt : next.createdAt = prev.createdAt
  modifiedAt : next.modifiedAt = time
  entryId : next.entryId = entry.id
  side : ∀ layer direction, (next.layer layer).side direction
    = (prev.layer layer).side direction
      + if entry.layer = layer ∧ entry.direction = direction then entry.units else 0
  moved : (next.layer entry.layer).entryId = entry.id ∧ (next.layer entry.layer).modifiedAt = time
  kept : ∀ layer, entry.layer ≠ layer → next.layer layer = prev.layer layer

/-- Every snapshot adds its entry to the one before; the first to the loaded balance, or to the
empty one. -/
inductive AddsEntries (time : Timestamp) (accountId : AccountId) :
    Option BalanceSnapshot → List EntryValues → List BalanceSnapshot → Prop
  | nil (base : Option BalanceSnapshot) : AddsEntries time accountId base [] []
  | cons {base : Option BalanceSnapshot} {entry : EntryValues} {entries : List EntryValues}
      {snapshot : BalanceSnapshot} {snapshots : List BalanceSnapshot}
      (first : AddsEntry time entry (base.getD (firstSnapshot time accountId entry)) snapshot)
      (rest : AddsEntries time accountId (some snapshot) entries snapshots) :
      AddsEntries time accountId base (entry :: entries) (snapshot :: snapshots)

/-- The version of a loaded balance; a balance that does not exist yet has none. -/
def baseVersion (base : Option BalanceSnapshot) : ℕ := (base.map BalanceSnapshot.version).getD 0

/-- A map of loaded balances in which every snapshot written is stored under its balance. -/
def carryOver (loaded : HashMap (AccountId × Currency) (Option BalanceSnapshot))
    (snapshots : List BalanceSnapshot) :
    HashMap (AccountId × Currency) (Option BalanceSnapshot) :=
  snapshots.foldl (fun current snapshot =>
    current.insert (snapshot.accountId, snapshot.currency) (some snapshot)) loaded

/-- What snapshots say of the entries that touched each loaded balance. -/
structure SnapshotLaw (time : Timestamp)
    (loaded : HashMap (AccountId × Currency) (Option BalanceSnapshot))
    (touching : AccountId × Currency → List EntryValues) (output : List BalanceSnapshot) :
    Prop where
  chained : ∀ key base, loaded.lookup key = some base →
    AddsEntries time key.1 base (touching key)
      (output.filter (fun s => SnapshotFold.OfKey key s))
  versions : ∀ key base, loaded.lookup key = some base →
    (output.filter (fun s => SnapshotFold.OfKey key s)).map BalanceSnapshot.version
      = List.range' (baseVersion base + 1) (touching key).length
  unloaded : ∀ key, loaded.lookup key = none →
    output.filter (fun s => SnapshotFold.OfKey key s) = []
  last : ∀ key front s back, output = front ++ s :: back → SnapshotFold.OfKey key s →
    (∀ t ∈ back, ¬ SnapshotFold.OfKey key t) →
      ∀ t ∈ output, SnapshotFold.OfKey key t → t.version ≤ s.version
  carried : ∀ key base, loaded.lookup key = some base →
    (carryOver loaded output).lookup key
      = some ((output.filter (fun s => SnapshotFold.OfKey key s)).getLast?.or base)
  keyed : LoadedByKey (carryOver loaded output)

/-- The snapshots of a fold, its map drained in some order. -/
def SnapshotFold.Drains (fold : SnapshotFold) (output : List BalanceSnapshot) : Prop :=
  ∃ latest, latest.Perm (Foundations.values fold.latest) ∧ output = fold.completed ++ latest

theorem SnapshotFold.drains_intoSnapshots (fold : SnapshotFold) :
    fold.Drains fold.intoSnapshots :=
  ⟨_, List.Perm.refl _, rfl⟩

/-! ## One balance -/

theorem updateSnapshot_adds (time : Timestamp) (snapshot : BalanceSnapshot) (entry : EntryValues) :
    AddsEntry time entry snapshot (updateSnapshot time snapshot entry) where
  key := updateSnapshot_key time snapshot entry
  version := updateSnapshot_version time snapshot entry
  createdAt := updateSnapshot_createdAt time snapshot entry
  modifiedAt := updateSnapshot_modifiedAt time snapshot entry
  entryId := updateSnapshot_entryId time snapshot entry
  side := updateSnapshot_side time snapshot entry
  moved := by
    rw [updateSnapshot_layer, if_pos rfl]
    refine ⟨BalanceAmount.update_entryId _ _ _, ?_⟩
    unfold BalanceAmount.update
    cases entry.direction <;> rfl
  kept := by
    intro layer hlayer
    rw [updateSnapshot_layer, if_neg hlayer]

theorem nextSnapshot_adds (time : Timestamp) (accountId : AccountId)
    (base : Option BalanceSnapshot) (entry : EntryValues) :
    AddsEntry time entry (base.getD (firstSnapshot time accountId entry))
      (nextSnapshot time accountId base entry) := by
  cases base with
  | none => exact updateSnapshot_adds time _ entry
  | some balance => exact updateSnapshot_adds time balance entry

theorem chain_adds (time : Timestamp) (accountId : AccountId) (base : Option BalanceSnapshot)
    (entries : List EntryValues) :
    AddsEntries time accountId base entries (chain time accountId base entries) := by
  induction entries generalizing base with
  | nil => exact AddsEntries.nil base
  | cons entry entries ih =>
      rw [chain_cons]
      exact AddsEntries.cons (nextSnapshot_adds time accountId base entry) (ih _)

/-- The versions of a chain count on from the loaded one. -/
theorem AddsEntries.versions {time : Timestamp} {accountId : AccountId}
    {base : Option BalanceSnapshot} {entries : List EntryValues} {snapshots : List BalanceSnapshot}
    (h : AddsEntries time accountId base entries snapshots) :
    snapshots.map BalanceSnapshot.version
      = List.range' (baseVersion base + 1) entries.length := by
  induction h with
  | nil base => rfl
  | @cons base entry entries snapshot snapshots first rest ih =>
      have hversion : snapshot.version = baseVersion base + 1 := by
        rw [first.version]
        cases base <;> rfl
      have hbase : baseVersion (some snapshot) = baseVersion base + 1 := hversion
      rw [List.map_cons, ih, List.length_cons, List.range'_succ, hversion, hbase]

/-! ## The touching entries -/

section Touching

variable (mappings : AccountSetMappings) (direct : AccountId → Prop) [DecidablePred direct]

/-- An entry touches a balance through the mapping. -/
def MapsTo (entry : EntryValues) (key : AccountId × Currency) : Prop :=
  entry.currency = key.2 ∧ ∃ setId ∈ mappings entry.accountId, AccountId.ofSet setId = key.1

/-- An entry touches a balance directly, where the account's own balance is folded at all. -/
def Hits (entry : EntryValues) (key : AccountId × Currency) : Prop :=
  entry.currency = key.2 ∧ direct entry.accountId ∧ entry.accountId = key.1

instance (entry : EntryValues) (key : AccountId × Currency) :
    Decidable (MapsTo mappings entry key) :=
  inferInstanceAs (Decidable (_ ∧ ∃ setId ∈ mappings entry.accountId, _))

instance (entry : EntryValues) (key : AccountId × Currency) : Decidable (Hits direct entry key) :=
  inferInstanceAs (Decidable (_ ∧ _ ∧ _))

/-- The inline fold maintains every account's own balance. -/
abbrev inlineDirect : AccountId → Prop := fun _ => True

/-- The streaming fold maintains the own balances of the EC leaves. -/
abbrev ecDirect (ecLeaves : List AccountId) : AccountId → Prop :=
  fun accountId => accountId ∈ ecLeaves

/-- The entries that touch a balance, once for each way they do. -/
def touchings (entries : List EntryValues) (key : AccountId × Currency) : List EntryValues :=
  entries.flatMap (fun entry =>
    (if MapsTo mappings entry key then [entry] else [])
      ++ if Hits direct entry key then [entry] else [])

variable {mappings} {direct}

/-- An entry whose account is not above itself touches a balance at most once. -/
theorem touchings_eq_filter {entries : List EntryValues} (key : AccountId × Currency)
    (hproper : ∀ entry ∈ entries, ∀ setId ∈ mappings entry.accountId,
      AccountId.ofSet setId ≠ entry.accountId) :
    touchings mappings direct entries key
      = entries.filter (fun entry => MapsTo mappings entry key ∨ Hits direct entry key) := by
  induction entries with
  | nil => rfl
  | cons entry entries ih =>
      have hrest := ih (fun e he => hproper e (List.mem_cons_of_mem _ he))
      rw [touchings] at hrest ⊢
      rw [List.flatMap_cons, hrest]
      by_cases hmaps : MapsTo mappings entry key
      · have hdirect : ¬ Hits direct entry key := by
          rintro ⟨-, -, haccount⟩
          obtain ⟨-, setId, hset, hkey⟩ := hmaps
          exact hproper entry List.mem_cons_self setId hset (hkey.trans haccount.symm)
        rw [if_pos hmaps, if_neg hdirect, List.filter_cons_of_pos (by simp [hmaps])]
        rfl
      · by_cases hdirect : Hits direct entry key
        · rw [if_neg hmaps, if_pos hdirect, List.filter_cons_of_pos (by simp [hdirect])]
          rfl
        · rw [if_neg hmaps, if_neg hdirect, List.filter_cons_of_neg (by simp [hmaps, hdirect])]
          rfl

/-- Of sets without repetition, at most one backs an account. -/
theorem filter_map_ofSet {sets : List AccountSetId} (hnodup : sets.Nodup) (accountId : AccountId)
    (entry : EntryValues) :
    ((sets.map AccountId.ofSet).filter (· = accountId)).map (fun _ => entry)
      = if ∃ setId ∈ sets, AccountId.ofSet setId = accountId then [entry] else [] := by
  have hnodup' : (sets.map AccountId.ofSet).Nodup := hnodup.map AccountId.ofSet_injective
  rw [List.filter_eq, List.map_replicate]
  split
  · next h =>
    obtain ⟨setId, hset, rfl⟩ := h
    rw [List.count_eq_one_of_mem hnodup' (List.mem_map.mpr ⟨setId, hset, rfl⟩)]
    rfl
  · next h =>
    have hnot : accountId ∉ sets.map AccountId.ofSet := by
      intro hmem
      obtain ⟨setId, hset, hsame⟩ := List.mem_map.mp hmem
      exact h ⟨setId, hset, hsame⟩
    rw [List.count_eq_zero.mpr hnot]
    rfl

/-- The entries a fold carries to a balance are those that touch it. -/
theorem hits_eq_touchings {targets : EntryValues → List AccountId}
    (hmappings : ∀ accountId, (mappings accountId).Nodup)
    (htargets : ∀ entry, targets entry = (mappings entry.accountId).map AccountId.ofSet
      ++ if direct entry.accountId then [entry.accountId] else [])
    (entries : List EntryValues) (key : AccountId × Currency) :
    hits targets key.1 key.2 entries = touchings mappings direct entries key := by
  refine List.flatMap_congr (fun entry _ => ?_)
  by_cases hcurrency : entry.currency = key.2
  · rw [if_pos hcurrency, htargets, List.filter_append, List.map_append,
      filter_map_ofSet (hmappings _)]
    congr 1
    · exact if_congr ⟨fun h => ⟨hcurrency, h⟩, And.right⟩ rfl rfl
    · by_cases hdirect : direct entry.accountId
      · rw [if_pos hdirect]
        by_cases haccount : entry.accountId = key.1
        · rw [if_pos ⟨hcurrency, hdirect, haccount⟩, haccount]
          simp
        · rw [if_neg (fun h => haccount h.2.2)]
          simp [haccount]
      · rw [if_neg hdirect, if_neg (fun h => hdirect h.2.1)]
        rfl
  · rw [if_neg hcurrency, if_neg (fun h => hcurrency h.1), if_neg (fun h => hcurrency h.1)]
    rfl

end Touching

/-! ## The law -/

section Law

variable {time : Timestamp}
  {loaded : HashMap (AccountId × Currency) (Option BalanceSnapshot)}
  {targets : EntryValues → List AccountId} {entries : List EntryValues}
  {output : List BalanceSnapshot}

/-- A fold keeps every snapshot under its own balance. -/
theorem foldTargets_wellKeyed (hloaded : LoadedByKey loaded) :
    (foldTargets time loaded targets entries).WellKeyed :=
  carry_invariant SnapshotFold.apply SnapshotFold.WellKeyed
    (fun _ accountId entry h => h.apply accountId entry) targets entries
    ⟨fun key s h => by simp [SnapshotFold.new] at h, hloaded⟩

/-- The order in which the map is drained does not show in the snapshots of one balance. -/
theorem SnapshotFold.Drains.filter_eq {fold : SnapshotFold} (hkeyed : fold.WellKeyed)
    (h : fold.Drains output) (key : AccountId × Currency) :
    output.filter (fun s => OfKey key s) = fold.intoSnapshots.filter (fun s => OfKey key s) := by
  obtain ⟨latest, hperm, rfl⟩ := h
  have hvalues : (Foundations.values fold.latest).filter (fun s => OfKey key s)
      = (fold.latest.lookup key).toList := by
    rw [← Foundations.filter_values (fun s : BalanceSnapshot => (s.accountId, s.currency)) _ _
      hkeyed.latest]
    exact List.filter_congr (fun s _ => decide_eq_decide.mpr Iff.rfl)
  have hfilter := hperm.filter (fun s => decide (OfKey key s))
  rw [hvalues] at hfilter
  rw [List.filter_append, intoSnapshots, List.filter_append, hvalues]
  congr 1
  cases hlookup : fold.latest.lookup key with
  | none =>
      rw [hlookup] at hfilter
      exact hfilter.eq_nil
  | some s =>
      rw [hlookup] at hfilter
      exact List.perm_singleton.mp hfilter

/-- The law of a fold, whatever balances it carries its entries to. -/
theorem foldTargets_law (hloaded : LoadedByKey loaded)
    (houtput : (foldTargets time loaded targets entries).Drains output) :
    SnapshotLaw time loaded (fun key => hits targets key.1 key.2 entries) output := by
  have hrows : ∀ key : AccountId × Currency, output.filter (fun s => SnapshotFold.OfKey key s)
      = SnapshotFold.keySnapshots time key.1 (loaded.lookup key)
          (hits targets key.1 key.2 entries) := by
    intro key
    rw [houtput.filter_eq (foldTargets_wellKeyed hloaded) key]
    exact fold_filter_key time hloaded targets entries key.1 key.2
  have hchained : ∀ key base, loaded.lookup key = some base →
      AddsEntries time key.1 base (hits targets key.1 key.2 entries)
        (output.filter (fun s => SnapshotFold.OfKey key s)) := by
    intro key base hbase
    rw [hrows, hbase]
    exact chain_adds time key.1 base _
  have hlookup : ∀ key, (carryOver loaded output).lookup key
      = ((output.filter (fun s => SnapshotFold.OfKey key s)).getLast?.map some).or
          (loaded.lookup key) :=
    fun key => Foundations.lookup_foldl_store _ _ _ _ _
  refine ⟨hchained, fun key base hbase => (hchained key base hbase).versions, ?_, ?_, ?_, ?_⟩
  · intro key hnone
    rw [hrows, hnone]
    rfl
  · -- the last snapshot of a balance ends the chain, whose versions count up
    intro key front s back hsplit hs hback t ht htkey
    have hfilter : output.filter (fun s => SnapshotFold.OfKey key s)
        = front.filter (fun s => SnapshotFold.OfKey key s) ++ [s] := by
      have hnone : back.filter (fun s => SnapshotFold.OfKey key s) = [] :=
        List.filter_eq_nil_iff.mpr (by simpa using hback)
      rw [hsplit, List.filter_append, List.filter_cons_of_pos (by simpa using hs), hnone]
    cases hbase : loaded.lookup key with
    | none =>
        rw [hrows, hbase] at hfilter
        exact absurd hfilter.symm (by simp [SnapshotFold.keySnapshots])
    | some base =>
        have hversions := (hchained key base hbase).versions
        have hmem : t.version ∈ List.range' (baseVersion base + 1)
            (hits targets key.1 key.2 entries).length := by
          rw [← hversions]
          exact List.mem_map.mpr ⟨t, List.mem_filter.mpr ⟨ht, by simpa using htkey⟩, rfl⟩
        have hlength := congrArg List.length hversions
        rw [hfilter, List.length_map, List.length_append, List.length_range',
          List.length_singleton] at hlength
        rw [hfilter, List.map_append, ← hlength, List.range'_concat] at hversions
        have hlast := List.append_inj' hversions rfl
        have hs' : s.version = baseVersion base + 1
            + (front.filter (fun s => SnapshotFold.OfKey key s)).length := by
          simpa using hlast.2
        rw [List.mem_range'_1] at hmem
        omega
  · intro key base hbase
    rw [hlookup, hbase]
    cases (output.filter (fun s => SnapshotFold.OfKey key s)).getLast? <;> rfl
  · intro key s hs
    rw [hlookup] at hs
    cases hlast : (output.filter (fun s => SnapshotFold.OfKey key s)).getLast? with
    | none =>
        rw [hlast] at hs
        exact hloaded key s hs
    | some last =>
        rw [hlast] at hs
        cases hs
        simpa using (List.mem_filter.mp (List.mem_of_getLast? hlast)).2

end Law

theorem fromEntries_drains (time : Timestamp)
    (loaded : HashMap (AccountId × Currency) (Option BalanceSnapshot)) (entries : List EntryValues)
    (mappings : AccountSetMappings) :
    (foldTargets time loaded (inlineTargets mappings) entries).Drains
      (fromEntries time loaded entries mappings) :=
  SnapshotFold.drains_intoSnapshots _

theorem fromEcEntries_drains (time : Timestamp)
    (loaded : HashMap (AccountId × Currency) (Option BalanceSnapshot)) (entries : List EntryValues)
    (mappings : AccountSetMappings) (ecLeaves : List AccountId) :
    (foldTargets time loaded (ecTargets mappings ecLeaves) entries).Drains
      (fromEcEntries time loaded entries mappings ecLeaves) :=
  SnapshotFold.drains_intoSnapshots _

/-- **The snapshot fold law**, for both folds and however the map of latest snapshots is drained:
every touch of a loaded balance leaves one snapshot, in the order of the entries. An entry touches a
balance once, unless its account is in its own list of ancestors. -/
theorem snapshot_fold_law (time : Timestamp)
    (loaded : HashMap (AccountId × Currency) (Option BalanceSnapshot))
    (hloaded : LoadedByKey loaded) (entries : List EntryValues) (mappings : AccountSetMappings)
    (hmappings : ∀ accountId, (mappings accountId).Nodup) (ecLeaves : List AccountId) :
    SnapshotLaw time loaded (touchings mappings inlineDirect entries)
        (fromEntries time loaded entries mappings)
    ∧ SnapshotLaw time loaded (touchings mappings (ecDirect ecLeaves) entries)
        (fromEcEntries time loaded entries mappings ecLeaves)
    ∧ (∀ output, (foldTargets time loaded (inlineTargets mappings) entries).Drains output →
        SnapshotLaw time loaded (touchings mappings inlineDirect entries) output)
    ∧ (∀ output, (foldTargets time loaded (ecTargets mappings ecLeaves) entries).Drains output →
        SnapshotLaw time loaded (touchings mappings (ecDirect ecLeaves) entries) output)
    ∧ ((∀ entry ∈ entries, ∀ setId ∈ mappings entry.accountId,
          AccountId.ofSet setId ≠ entry.accountId) →
        ∀ (direct : AccountId → Prop) [DecidablePred direct] (key : AccountId × Currency),
          touchings mappings direct entries key
            = entries.filter (fun entry => MapsTo mappings entry key ∨ Hits direct entry key)) := by
  have hinline : ∀ output,
      (foldTargets time loaded (inlineTargets mappings) entries).Drains output →
      SnapshotLaw time loaded (touchings mappings inlineDirect entries) output := by
    intro output houtput
    have htouch : (fun key : AccountId × Currency =>
        hits (inlineTargets mappings) key.1 key.2 entries)
          = touchings mappings inlineDirect entries := by
      funext key
      exact hits_eq_touchings hmappings (fun entry => by rw [inlineTargets, if_pos trivial]) _ _
    rw [← htouch]
    exact foldTargets_law hloaded houtput
  have hec : ∀ output,
      (foldTargets time loaded (ecTargets mappings ecLeaves) entries).Drains output →
      SnapshotLaw time loaded (touchings mappings (ecDirect ecLeaves) entries) output := by
    intro output houtput
    have htouch : (fun key : AccountId × Currency =>
        hits (ecTargets mappings ecLeaves) key.1 key.2 entries)
          = touchings mappings (ecDirect ecLeaves) entries := by
      funext key
      exact hits_eq_touchings hmappings (fun entry => rfl) _ _
    rw [← htouch]
    exact foldTargets_law hloaded houtput
  exact ⟨hinline _ (fromEntries_drains ..), hec _ (fromEcEntries_drains ..), hinline, hec,
    fun hproper _ _ key => touchings_eq_filter key hproper⟩

section Example

/-- Two deposits of ten units to one account, which is in one set. -/
def depositEntry (id sequence : ℕ) : EntryValues :=
  { id := ⟨id⟩
    transactionId := ⟨1⟩
    journalId := ⟨1⟩
    accountId := ⟨1⟩
    entryType := "DEPOSIT"
    sequence := sequence
    layer := .settled
    units := 10
    currency := ⟨"USD"⟩
    direction := .credit
    description := none
    metadata := none }

/-- The account has no balance yet, the set one at version 1. -/
def depositBalances : HashMap (AccountId × Currency) (Option BalanceSnapshot) :=
  AList.insert (⟨2⟩, ⟨"USD"⟩) (some (newSnapshot 0 ⟨2⟩ (depositEntry 7 1)))
    (AList.insert (⟨1⟩, ⟨"USD"⟩) none ∅)

theorem snapshot_fold_law_deposits :
    (LoadedByKey depositBalances ∧ ∀ accountId : AccountId,
        ((fun _ => [⟨2⟩] : AccountSetMappings) accountId).Nodup)
      ∧ SnapshotLaw 5 depositBalances
          (touchings (fun _ => [⟨2⟩]) inlineDirect [depositEntry 8 1, depositEntry 9 2])
          (fromEntries 5 depositBalances [depositEntry 8 1, depositEntry 9 2] (fun _ => [⟨2⟩]))
      ∧ (fromEntries 5 depositBalances [depositEntry 8 1, depositEntry 9 2] (fun _ => [⟨2⟩])).map
          (fun s => (s.accountId, s.version)) = [(⟨2⟩, 2), (⟨1⟩, 1), (⟨1⟩, 2), (⟨2⟩, 3)] := by
  have hloaded : LoadedByKey depositBalances := by
    intro key s h
    by_cases hset : key = (⟨2⟩, ⟨"USD"⟩)
    · rw [hset, depositBalances, AList.lookup_insert] at h
      cases h
      rw [hset]
      rfl
    · rw [depositBalances, AList.lookup_insert_ne hset] at h
      by_cases haccount : key = (⟨1⟩, ⟨"USD"⟩)
      · rw [haccount, AList.lookup_insert] at h
        cases h
      · rw [AList.lookup_insert_ne haccount] at h
        cases h
  have hmappings : ∀ accountId : AccountId,
      ((fun _ => [⟨2⟩] : AccountSetMappings) accountId).Nodup :=
    fun _ => List.nodup_singleton _
  exact ⟨⟨hloaded, hmappings⟩,
    (snapshot_fold_law 5 depositBalances hloaded [depositEntry 8 1, depositEntry 9 2] _ hmappings
      []).1, by decide +kernel⟩

end Example

end CalaLedger
