import CalaLedger.Balance.RowStamps
import CalaLedger.Foundations.Grouping
import CalaLedger.Foundations.Keyset
import Mathlib.Data.String.Basic

/-! # Listing what changed since a watermark

`EffectiveBalances::list_modified_since` keeps the rows stamped at or after `since` and then takes,
for each account, currency and day, the one of greatest all-time version. The row it should take is
the greatest among all rows of the day; `listsLatest_iff` says when the two agree. They disagree
when the last update of the day was stamped before `since` and an earlier one, whose row is still
there, at or after it (`Overtaken`). -/

namespace CalaLedger

/-- `EffectiveBalancesModifiedCursor`. -/
structure EffectiveBalancesModifiedCursor where
  accountId : AccountId
  currency : Currency
  effective : NaiveDate

namespace EffectiveBalancesModifiedCursor

/-- The columns a row comparison goes through, in order. -/
def columns (cursor : EffectiveBalancesModifiedCursor) : AccountId ×ₗ String ×ₗ NaiveDate :=
  toLex (cursor.accountId, toLex (cursor.currency.code, cursor.effective))

theorem columns_injective : Function.Injective columns := by
  rintro ⟨a, ⟨c⟩, d⟩ ⟨a', ⟨c'⟩, d'⟩ h
  obtain ⟨rfl, h⟩ := Prod.mk.inj (toLex.injective h)
  obtain ⟨rfl, rfl⟩ := Prod.mk.inj (toLex.injective h)
  rfl

instance : LinearOrder EffectiveBalancesModifiedCursor :=
  LinearOrder.lift' columns columns_injective

end EffectiveBalancesModifiedCursor

/-- `EffectiveBalancesModifiedCursor::from`. -/
def EffectiveBalanceSnapshot.cursor (stored : EffectiveBalanceSnapshot) :
    EffectiveBalancesModifiedCursor :=
  ⟨stored.accountId, stored.currency, stored.effective⟩

/-- `EffectiveBalanceRepo::list_modified_since`, over the rows of the table. -/
def listModifiedSince (rows : List EffectiveBalanceSnapshot) (journalId : JournalId)
    (since : Timestamp) (first : ℕ) (after : Option EffectiveBalancesModifiedCursor) :
    Foundations.Page EffectiveBalanceSnapshot EffectiveBalancesModifiedCursor :=
  Foundations.pageOf EffectiveBalanceSnapshot.cursor
    (Foundations.distinctOn EffectiveBalanceSnapshot.cursor EffectiveBalanceSnapshot.allTimeVersion
      (rows.filter (fun row => row.journalId = journalId ∧ since ≤ row.modifiedAt
        ∧ Foundations.past after row.cursor))) first

/-- The rows of a table, in the order a scan meets them, which SQL leaves open. -/
def Scans (rows : List EffectiveBalanceSnapshot) (table : EffectiveTable) : Prop :=
  ∀ key, (rows.filter (fun row => row.key = key)).Perm (table key)

/-- The rows of a balance on one day. -/
def tupleRows (table : EffectiveTable) (key : BalanceKey) (day : NaiveDate) :
    List EffectiveBalanceSnapshot :=
  (table key).filter (fun row => row.effective = day)

/-- **What the listing promises**: it names the balances and days with a row stamped at or after
`since`, each once, and gives the latest of all rows of the day. -/
structure ListsLatest (table : EffectiveTable) (journalId : JournalId) (since : Timestamp)
    (entities : List EffectiveBalanceSnapshot) : Prop where
  latest : ∀ key day, key.journalId = journalId →
    (∃ row ∈ tupleRows table key day, since ≤ row.modifiedAt) →
    ∃ row ∈ tupleRows table key day,
      entities.filter (fun entity => entity.key = key ∧ entity.effective = day) = [row]
        ∧ ∀ other ∈ tupleRows table key day, other.allTimeVersion ≤ row.allTimeVersion
  changed : ∀ entity ∈ entities, entity.key.journalId = journalId
    ∧ ∃ row ∈ tupleRows table entity.key entity.effective, since ≤ row.modifiedAt

section Listing

variable {table : EffectiveTable} {timelines : BalanceKey → List DatedEntry}
  {rows : List EffectiveBalanceSnapshot} {journalId : JournalId} {since : Timestamp}
  {entities : List EffectiveBalanceSnapshot}

theorem mem_of_scans (hscan : Scans rows table) {row : EffectiveBalanceSnapshot} :
    row ∈ rows ↔ row ∈ table row.key := by
  rw [← (hscan row.key).mem_iff, List.mem_filter]
  exact ⟨fun h => ⟨h, by simp⟩, fun h => h.1⟩

/-- A table without rows outside some balances can be scanned. -/
theorem exists_scans (keys : List BalanceKey)
    (hkeys : ∀ key, table key ≠ [] → key ∈ keys)
    (hfiled : ∀ key, ∀ row ∈ table key, row.key = key) :
    ∃ rows, Scans rows table := by
  obtain ⟨rows, hrows⟩ := Foundations.exists_filed keys hkeys hfiled
  exact ⟨rows, fun key => List.Perm.of_eq (hrows key)⟩

/-- The all-time versions of a replayed balance run from one. -/
theorem TableReplays.map_allTimeVersion (h : TableReplays table timelines) (key : BalanceKey) :
    (table key).map EffectiveBalanceSnapshot.allTimeVersion
      = List.range' 1 (timelines key).length := by
  have hrange := replayFrom_allTimeVersion key [] (timelines key)
  rw [← replay, ← h.rows key, List.map_map] at hrange
  exact hrange

/-- All rows of a replayed balance are filed under it, by ascending all-time version. -/
theorem TableReplays.ascending (h : TableReplays table timelines) (key : BalanceKey) :
    (table key).Pairwise (fun a b => a.allTimeVersion < b.allTimeVersion) := by
  rw [← List.pairwise_map (f := EffectiveBalanceSnapshot.allTimeVersion),
    h.map_allTimeVersion key]
  exact List.pairwise_lt_range'

theorem TableReplays.filed (h : TableReplays table timelines) (key : BalanceKey) :
    ∀ row ∈ table key, row.key = key := by
  intro row hrow
  have hreplay : (table key).map EffectiveBalanceSnapshot.row = replayFrom key [] (timelines key) :=
    h.rows key
  exact key_of_mem_rows hreplay hrow

theorem TableReplays.ascending_tuple (h : TableReplays table timelines) (key : BalanceKey)
    (day : NaiveDate) :
    (tupleRows table key day).Pairwise (fun a b => a.allTimeVersion < b.allTimeVersion) :=
  (h.ascending key).filter _

variable (rows journalId since) in
/-- Each page is one of the query without a cursor. -/
theorem listModifiedSince_eq (first : ℕ) (after : Option EffectiveBalancesModifiedCursor) :
    listModifiedSince rows journalId since first after
      = Foundations.pageOf EffectiveBalanceSnapshot.cursor
          ((Foundations.distinctOn EffectiveBalanceSnapshot.cursor
            EffectiveBalanceSnapshot.allTimeVersion
            (rows.filter (fun row => row.journalId = journalId ∧ since ≤ row.modifiedAt))).filter
              (fun row => Foundations.past after row.cursor)) first := by
  rw [listModifiedSince, ← Foundations.distinctOn_filter (Foundations.past after),
    List.filter_filter]
  refine congrArg (fun kept => Foundations.pageOf _ (Foundations.distinctOn _ _ kept) first)
    (List.filter_congr (fun row _ => ?_))
  rw [← Bool.decide_coe (Foundations.past after row.cursor && _)]
  refine decide_eq_decide.mpr ?_
  rw [Bool.and_eq_true, decide_eq_true_eq]
  tauto

/-- The whole listing is one query. -/
theorem listed_eq (hlisted : Foundations.Listed (listModifiedSince rows journalId since) none
      entities) :
    entities = Foundations.distinctOn EffectiveBalanceSnapshot.cursor
      EffectiveBalanceSnapshot.allTimeVersion
      (rows.filter (fun row => row.journalId = journalId ∧ since ≤ row.modifiedAt)) := by
  rw [hlisted.eq (Foundations.distinctOn_ascending _ _ _)
    (listModifiedSince_eq rows journalId since)]
  exact List.filter_eq_self.mpr (fun _ _ => rfl)

/-- The rows of one day the listing chooses from. -/
theorem changed_perm (hscan : Scans rows table) {key : BalanceKey}
    (hjournal : key.journalId = journalId) (day : NaiveDate) :
    ((rows.filter (fun row => row.journalId = journalId ∧ since ≤ row.modifiedAt)).filter
        (fun row => row.cursor = ⟨key.accountId, key.currency, day⟩)).Perm
      ((tupleRows table key day).filter (fun row => since ≤ row.modifiedAt)) := by
  have hfilter : (rows.filter (fun row => row.journalId = journalId ∧ since ≤ row.modifiedAt)).filter
        (fun row => row.cursor = ⟨key.accountId, key.currency, day⟩)
      = ((rows.filter (fun row => row.key = key)).filter (fun row => row.effective = day)).filter
          (fun row => since ≤ row.modifiedAt) := by
    rw [List.filter_filter, List.filter_filter, List.filter_filter]
    refine List.filter_congr (fun row _ => ?_)
    rw [← Bool.decide_and, ← Bool.decide_and, ← Bool.decide_and]
    refine decide_eq_decide.mpr ?_
    obtain ⟨journal, account, currency⟩ := key
    simp only [EffectiveBalanceSnapshot.cursor, EffectiveBalanceSnapshot.key,
      EffectiveBalancesModifiedCursor.mk.injEq, BalanceKey.mk.injEq, ← hjournal]
    tauto
  rw [hfilter]
  exact ((hscan key).filter _).filter _

/-- Among rows of ascending version, those with a property end in the last row exactly when the
last row has it. -/
theorem argmax_filter_eq {kept : List EffectiveBalanceSnapshot} {p : EffectiveBalanceSnapshot → Bool}
    (hkept : kept.Pairwise (fun a b => a.allTimeVersion < b.allTimeVersion))
    {chosen : List EffectiveBalanceSnapshot} (hchosen : chosen.Perm (kept.filter p)) :
    chosen.argmax EffectiveBalanceSnapshot.allTimeVersion = (kept.filter p).getLast? := by
  have hstrict := hkept.filter p
  cases hlast : (kept.filter p).getLast? with
  | none =>
      rw [List.getLast?_eq_none_iff] at hlast
      rw [hlast, List.perm_nil] at hchosen
      rw [hchosen, List.argmax_nil]
  | some row =>
      obtain ⟨front, hsplit⟩ := List.getLast?_eq_some_iff.mp hlast
      have hmax : ∀ other ∈ kept.filter p, other ≠ row →
          other.allTimeVersion < row.allTimeVersion := by
        intro other hother hne
        rw [hsplit] at hother hstrict
        rcases List.mem_append.mp hother with hfront | hback
        · exact (List.pairwise_append.mp hstrict).2.2 other hfront row List.mem_cons_self
        · exact absurd (List.mem_singleton.mp hback) hne
      have hrow : row ∈ chosen := hchosen.mem_iff.mpr (hsplit ▸ List.mem_append_right _
        List.mem_cons_self)
      cases hmem : chosen.argmax EffectiveBalanceSnapshot.allTimeVersion with
      | none =>
          rw [List.argmax_eq_none.mp hmem] at hrow
          cases hrow
      | some top =>
          by_contra hne
          have hlt := hmax top (hchosen.mem_iff.mp (List.argmax_mem hmem))
            (fun heq => hne (congrArg some heq))
          exact absurd (List.le_of_mem_argmax hrow hmem) (not_le.mpr hlt)

/-- **When the listing keeps its promise**: for every balance and day with a row stamped at or after
`since`, the last row of the day is. -/
theorem listsLatest_iff (htable : TableReplays table timelines) (hscan : Scans rows table)
    (hlisted : Foundations.Listed (listModifiedSince rows journalId since) none entities) :
    ListsLatest table journalId since entities
      ↔ ∀ key day, key.journalId = journalId →
          (∃ row ∈ tupleRows table key day, since ≤ row.modifiedAt) →
          ∀ last ∈ (tupleRows table key day).getLast?, since ≤ last.modifiedAt := by
  have hentities := listed_eq hlisted
  have hmem : ∀ entity ∈ entities, entity.key.journalId = journalId
      ∧ entity ∈ tupleRows table entity.key entity.effective ∧ since ≤ entity.modifiedAt := by
    intro entity hentity
    rw [hentities, Foundations.mem_distinctOn] at hentity
    have hrow := (List.mem_filter.mp (List.argmax_mem hentity)).1
    obtain ⟨hrow, hchanged⟩ := List.mem_filter.mp hrow
    rw [decide_eq_true_eq] at hchanged
    exact ⟨hchanged.1, List.mem_filter.mpr ⟨(mem_of_scans hscan).mp hrow, by simp⟩, hchanged.2⟩
  -- what is listed of one balance and day
  have htuple : ∀ key day, key.journalId = journalId →
      entities.filter (fun entity => entity.key = key ∧ entity.effective = day)
        = ((tupleRows table key day).filter (fun row => since ≤ row.modifiedAt)).getLast?.toList := by
    intro key day hjournal
    rw [← argmax_filter_eq (htable.ascending_tuple key day) (changed_perm hscan hjournal day),
      ← Foundations.distinctOn_filter_key, ← hentities]
    refine List.filter_congr (fun entity hentity => decide_eq_decide.mpr ?_)
    have hsame := (hmem entity hentity).1.trans hjournal.symm
    obtain ⟨journal, account, currency⟩ := key
    simp only [EffectiveBalanceSnapshot.cursor, EffectiveBalanceSnapshot.key,
      EffectiveBalancesModifiedCursor.mk.injEq, BalanceKey.mk.injEq] at hsame ⊢
    tauto
  constructor
  · intro h key day hjournal hchanged last hlast
    obtain ⟨row, hrow, hlisted, hlatest⟩ := h.latest key day hjournal hchanged
    -- the listed row is stamped at or after `since`, and it is the last one
    have hentity : row ∈ entities := by
      have hsingle : row ∈ [row] := List.mem_cons_self
      rw [← hlisted] at hsingle
      exact (List.mem_filter.mp hsingle).1
    have hascending := htable.ascending_tuple key day
    obtain ⟨front, hsplit⟩ := List.getLast?_eq_some_iff.mp hlast
    have heq : row = last := by
      rw [hsplit] at hrow hascending
      rcases List.mem_append.mp hrow with hfront | hback
      · have hlt := (List.pairwise_append.mp hascending).2.2 row hfront last List.mem_cons_self
        have hle := hlatest last (by
          rw [hsplit]
          exact List.mem_append_right _ List.mem_cons_self)
        omega
      · exact List.mem_singleton.mp hback
    exact heq ▸ (hmem row hentity).2.2
  · intro h
    refine ⟨fun key day hjournal hchanged => ?_, fun entity hentity => ?_⟩
    · have hlast := h key day hjournal hchanged
      obtain ⟨row, hrow, -⟩ := hchanged
      cases hsome : (tupleRows table key day).getLast? with
      | none =>
          rw [List.getLast?_eq_none_iff.mp hsome] at hrow
          cases hrow
      | some last =>
          obtain ⟨front, hsplit⟩ := List.getLast?_eq_some_iff.mp hsome
          have hascending := htable.ascending_tuple key day
          refine ⟨last, by simp [hsplit], ?_, fun other hother => ?_⟩
          · rw [htuple key day hjournal, hsplit, List.filter_append]
            simp [hlast last hsome]
          · rw [hsplit] at hother hascending
            rcases List.mem_append.mp hother with hfront | hback
            · exact ((List.pairwise_append.mp hascending).2.2 other hfront last
                List.mem_cons_self).le
            · exact (congrArg _ (List.mem_singleton.mp hback)).le
    · obtain ⟨hjournal, hrow, hsince⟩ := hmem entity hentity
      exact ⟨hjournal, entity, hrow, hsince⟩

end Listing

/-! ## When the last update of a day was begun first -/

namespace EffectiveCall

/-- The call has an entry for a balance on a day. -/
def PostsOn (call : EffectiveCall) (key : BalanceKey) (day : NaiveDate) : Prop :=
  call.pushed key ≠ [] ∧ call.update.effective = day

/-- The call has an entry for a balance on an earlier day, so it rewrites the rows of this one. -/
def Rewrites (call : EffectiveCall) (key : BalanceKey) (day : NaiveDate) : Prop :=
  call.pushed key ≠ [] ∧ call.update.effective < day

instance (call : EffectiveCall) (key : BalanceKey) (day : NaiveDate) :
    Decidable (call.PostsOn key day) :=
  inferInstanceAs (Decidable (_ ∧ _))

instance (call : EffectiveCall) (key : BalanceKey) (day : NaiveDate) :
    Decidable (call.Rewrites key day) :=
  inferInstanceAs (Decidable (_ ∧ _))

end EffectiveCall

/-- When the rows of a balance on a day were written, by ascending version. -/
def tupleStamps (calls : List EffectiveCall) (key : BalanceKey) (day : NaiveDate) :
    List Timestamp :=
  ((stampsAfter calls key).filter (fun stamp => stamp.1 = day)).map Prod.snd

/-- **The last update of the day began before `since`, an earlier one at or after it**: `early` wrote
a row of the day, nothing back-dated rewrote it, and `last` is the last to touch the day. -/
inductive Overtaken (since : Timestamp) (key : BalanceKey) (day : NaiveDate) :
    List EffectiveCall → Prop
  | intro (front : List EffectiveCall) (early : EffectiveCall) (between : List EffectiveCall)
      (last : EffectiveCall) (rest : List EffectiveCall)
      (wrote : early.PostsOn key day
        ∨ early.Rewrites key day ∧ ∃ call ∈ front, call.PostsOn key day)
      (after : since ≤ early.update.createdAt)
      (kept : ∀ call ∈ between, ¬ call.Rewrites key day)
      (posts : last.PostsOn key day) (before : last.update.createdAt < since)
      (untouched : ∀ call ∈ rest, ¬ call.PostsOn key day ∧ ¬ call.Rewrites key day) :
      Overtaken since key day (front ++ early :: (between ++ last :: rest))

section Overtaken

variable {calls : List EffectiveCall} {call : EffectiveCall} {key : BalanceKey} {day : NaiveDate}
  {since : Timestamp}

/-- An update of the day itself appends. -/
theorem restamp_self {count : ℕ} (hcount : count ≠ 0) (createdAt : Timestamp)
    (stamps : List (NaiveDate × Timestamp)) :
    (restamp day createdAt count stamps).filter (fun stamp => stamp.1 = day)
      = stamps.filter (fun stamp => stamp.1 = day) ++ List.replicate count (day, createdAt) := by
  have hfront : stamps.filter (fun stamp => decide (stamp.1 = day) && decide (stamp.1 ≤ day))
      = stamps.filter (fun stamp => stamp.1 = day) := by
    refine List.filter_congr (fun stamp _ => ?_)
    rw [← Bool.decide_and]
    exact decide_eq_decide.mpr (and_iff_left_of_imp (fun h => h.le))
  have hback : ((stamps.filter (fun stamp => day < stamp.1)).map
      (fun stamp => (stamp.1, createdAt))).filter (fun stamp => stamp.1 = day) = [] := by
    refine List.filter_eq_nil_iff.mpr (fun stamp hstamp h => ?_)
    obtain ⟨old, hold, rfl⟩ := List.mem_map.mp hstamp
    rw [decide_eq_true_eq] at h
    exact (of_decide_eq_true (List.mem_filter.mp hold).2).ne' h
  have hmiddle : (List.replicate count (day, createdAt)).filter (fun stamp => stamp.1 = day)
      = List.replicate count (day, createdAt) := by
    refine List.filter_eq_self.mpr (fun stamp hstamp => ?_)
    rw [(List.mem_replicate.mp hstamp).2]
    exact decide_eq_true rfl
  rw [restamp, if_neg hcount, List.filter_append, List.filter_append, List.filter_filter, hfront,
    hmiddle, hback, List.append_nil]

/-- An update of an earlier day rewrites. -/
theorem restamp_of_lt {count : ℕ} (hcount : count ≠ 0) (createdAt : Timestamp)
    {effective : NaiveDate} (hlt : effective < day) (stamps : List (NaiveDate × Timestamp)) :
    (restamp effective createdAt count stamps).filter (fun stamp => stamp.1 = day)
      = (stamps.filter (fun stamp => stamp.1 = day)).map (fun stamp => (stamp.1, createdAt)) := by
  have hfront : (stamps.filter (fun stamp => stamp.1 ≤ effective)
      ++ List.replicate count (effective, createdAt)).filter (fun stamp => stamp.1 = day) = [] := by
    refine List.filter_eq_nil_iff.mpr (fun stamp hstamp h => ?_)
    rw [decide_eq_true_eq] at h
    rcases List.mem_append.mp hstamp with hold | hnew
    · exact not_le.mpr hlt (h ▸ of_decide_eq_true (List.mem_filter.mp hold).2)
    · rw [(List.mem_replicate.mp hnew).2] at h
      exact hlt.ne h
  have hback : stamps.filter (fun stamp => ((fun stamp : NaiveDate × Timestamp =>
        decide (stamp.1 = day)) ∘ fun stamp => (stamp.1, createdAt)) stamp
      && decide (effective < stamp.1)) = stamps.filter (fun stamp => stamp.1 = day) := by
    refine List.filter_congr (fun stamp _ => ?_)
    rw [Function.comp_apply, ← Bool.decide_and]
    exact decide_eq_decide.mpr (and_iff_left_of_imp (fun h => h ▸ hlt))
  rw [restamp, if_neg hcount, List.filter_append, hfront, List.filter_map, List.filter_filter,
    hback, List.nil_append]

/-- An update of a later day leaves the day alone. -/
theorem restamp_of_gt {count : ℕ} (createdAt : Timestamp) {effective : NaiveDate}
    (hgt : day < effective) (stamps : List (NaiveDate × Timestamp)) :
    (restamp effective createdAt count stamps).filter (fun stamp => stamp.1 = day)
      = stamps.filter (fun stamp => stamp.1 = day) := by
  have hfront : stamps.filter (fun stamp => decide (stamp.1 = day) && decide (stamp.1 ≤ effective))
      = stamps.filter (fun stamp => stamp.1 = day) := by
    refine List.filter_congr (fun stamp _ => ?_)
    rw [← Bool.decide_and]
    exact decide_eq_decide.mpr (and_iff_left_of_imp (fun h => h ▸ hgt.le))
  have hmiddle : (List.replicate count (effective, createdAt)).filter
      (fun stamp => stamp.1 = day) = [] := by
    refine List.filter_eq_nil_iff.mpr (fun stamp hstamp h => ?_)
    rw [(List.mem_replicate.mp hstamp).2, decide_eq_true_eq] at h
    exact hgt.ne' h
  have hback : ((stamps.filter (fun stamp => effective < stamp.1)).map
      (fun stamp => (stamp.1, createdAt))).filter (fun stamp => stamp.1 = day) = [] := by
    refine List.filter_eq_nil_iff.mpr (fun stamp hstamp h => ?_)
    obtain ⟨old, hold, rfl⟩ := List.mem_map.mp hstamp
    rw [decide_eq_true_eq] at h
    exact (hgt.trans (of_decide_eq_true (List.mem_filter.mp hold).2)).ne' h
  rw [restamp]
  split
  · rfl
  · rw [List.filter_append, List.filter_append, List.filter_filter, hfront, hmiddle, hback,
      List.append_nil, List.append_nil]

/-- The stamps of one day after one more update. -/
theorem tupleStamps_concat (calls : List EffectiveCall) (call : EffectiveCall) (key : BalanceKey)
    (day : NaiveDate) :
    tupleStamps (calls ++ [call]) key day
      = if call.PostsOn key day then
          tupleStamps calls key day
            ++ List.replicate (call.pushed key).length call.update.createdAt
        else if call.Rewrites key day then
          (tupleStamps calls key day).map (fun _ => call.update.createdAt)
        else tupleStamps calls key day := by
  unfold tupleStamps
  rw [stampsAfter_concat, EffectiveCall.restamped]
  by_cases hpushed : call.pushed key = []
  · rw [if_neg (fun h => h.1 hpushed), if_neg (fun h => h.1 hpushed), hpushed, List.length_nil,
      restamp, if_pos rfl]
  · have hcount : (call.pushed key).length ≠ 0 := mt List.length_eq_zero_iff.mp hpushed
    rcases lt_trichotomy call.update.effective day with hlt | heq | hgt
    · rw [if_neg (c := call.PostsOn key day) (fun h => hlt.ne h.2), if_pos ⟨hpushed, hlt⟩,
        restamp_of_lt hcount _ hlt, List.map_map, List.map_map]
      rfl
    · rw [if_pos (c := call.PostsOn key day) ⟨hpushed, heq⟩, heq, restamp_self hcount,
        List.map_append, List.map_replicate]
    · rw [if_neg (c := call.PostsOn key day) (fun h => hgt.ne' h.2),
        if_neg (c := call.Rewrites key day) (fun h => hgt.asymm h.2), restamp_of_gt _ hgt]

theorem tupleStamps_ne_nil :
    tupleStamps calls key day ≠ [] ↔ ∃ call ∈ calls, call.PostsOn key day := by
  induction calls using List.reverseRecOn with
  | nil => exact ⟨fun h => (h rfl).elim, fun ⟨_, h, _⟩ => (List.not_mem_nil h).elim⟩
  | append_singleton calls call ih =>
      rw [tupleStamps_concat]
      constructor
      · intro h
        by_cases hposts : call.PostsOn key day
        · exact ⟨call, by simp, hposts⟩
        · rw [if_neg hposts] at h
          have hold : tupleStamps calls key day ≠ [] := by
            intro hnil
            rw [hnil] at h
            split at h <;> exact h rfl
          obtain ⟨call', hcall', hposts'⟩ := ih.mp hold
          exact ⟨call', List.mem_append_left _ hcall', hposts'⟩
      · rintro ⟨call', hmem, hposts⟩
        rcases List.mem_append.mp hmem with hold | hlast
        · have hne := ih.mpr ⟨call', hold, hposts⟩
          split
          · exact List.append_ne_nil_of_left_ne_nil hne _
          · split
            · exact fun h => hne (List.map_eq_nil_iff.mp h)
            · exact hne
        · rw [List.mem_singleton] at hlast
          subst hlast
          rw [if_pos hposts]
          refine List.append_ne_nil_of_right_ne_nil _ (fun h => hposts.1 ?_)
          rw [List.replicate_eq_nil_iff, List.length_eq_zero_iff] at h
          exact h

/-- A row stamped at or after `since` was written so, and not rewritten since. -/
theorem exists_stamp_iff :
    (∃ stamp ∈ tupleStamps calls key day, since ≤ stamp)
      ↔ ∃ front early between, calls = front ++ early :: between
        ∧ (early.PostsOn key day ∨ early.Rewrites key day ∧ ∃ call ∈ front, call.PostsOn key day)
        ∧ since ≤ early.update.createdAt ∧ ∀ call ∈ between, ¬ call.Rewrites key day := by
  induction calls using List.reverseRecOn with
  | nil =>
      constructor
      · rintro ⟨_, h, -⟩
        cases h
      · rintro ⟨front, early, between, h, -⟩
        simp at h
  | append_singleton calls call ih =>
      -- what was there before and is not rewritten
      have hold : ¬ call.Rewrites key day →
          (∃ front early between, calls = front ++ early :: between
            ∧ (early.PostsOn key day
              ∨ early.Rewrites key day ∧ ∃ call ∈ front, call.PostsOn key day)
            ∧ since ≤ early.update.createdAt ∧ ∀ call ∈ between, ¬ call.Rewrites key day) →
          ∃ front early between, calls ++ [call] = front ++ early :: between
            ∧ (early.PostsOn key day
              ∨ early.Rewrites key day ∧ ∃ call ∈ front, call.PostsOn key day)
            ∧ since ≤ early.update.createdAt ∧ ∀ call ∈ between, ¬ call.Rewrites key day := by
        rintro hkeeps ⟨front, early, between, rfl, hwrote, hsince, hbetween⟩
        refine ⟨front, early, between ++ [call], by simp, hwrote, hsince, fun other hother => ?_⟩
        rcases List.mem_append.mp hother with h | h
        · exact hbetween other h
        · exact List.mem_singleton.mp h ▸ hkeeps
      rw [tupleStamps_concat]
      constructor
      · rintro ⟨stamp, hstamp, hsince⟩
        split at hstamp
        · rename_i hposts
          have hkeeps : ¬ call.Rewrites key day := fun h => h.2.ne hposts.2
          rcases List.mem_append.mp hstamp with h | h
          · exact hold hkeeps (ih.mp ⟨stamp, h, hsince⟩)
          · rw [(List.mem_replicate.mp h).2] at hsince
            exact ⟨calls, call, [], rfl, Or.inl hposts, hsince,
              fun _ h => (List.not_mem_nil h).elim⟩
        · split at hstamp
          · rename_i hrewrites
            obtain ⟨old, hmem, rfl⟩ := List.mem_map.mp hstamp
            exact ⟨calls, call, [], rfl, Or.inr ⟨hrewrites,
              tupleStamps_ne_nil.mp (List.ne_nil_of_mem hmem)⟩, hsince,
              fun _ h => (List.not_mem_nil h).elim⟩
          · rename_i hkeeps
            exact hold hkeeps (ih.mp ⟨stamp, hstamp, hsince⟩)
      · rintro ⟨front, early, between, hsplit, hwrote, hsince, hbetween⟩
        rcases List.eq_nil_or_concat' between with rfl | ⟨between, last, rfl⟩
        · obtain ⟨rfl, heq⟩ := List.append_inj' hsplit rfl
          obtain rfl : call = early := List.singleton_inj.mp heq
          rcases hwrote with hposts | ⟨hrewrites, hposts⟩
          · rw [if_pos hposts]
            refine ⟨_, List.mem_append_right _ (List.mem_replicate.mpr ⟨?_, rfl⟩), hsince⟩
            exact mt List.length_eq_zero_iff.mp hposts.1
          · rw [if_neg (fun h => hrewrites.2.ne h.2), if_pos hrewrites]
            obtain ⟨stamp, hstamp⟩ := List.exists_mem_of_ne_nil _ (tupleStamps_ne_nil.mpr hposts)
            exact ⟨_, List.mem_map_of_mem hstamp, hsince⟩
        · rw [← List.cons_append, ← List.append_assoc] at hsplit
          obtain ⟨rfl, heq⟩ := List.append_inj' hsplit rfl
          obtain rfl : call = last := List.singleton_inj.mp heq
          obtain ⟨stamp, hstamp, hle⟩ := ih.mpr ⟨front, early, between, rfl, hwrote, hsince,
            fun other hother => hbetween other (List.mem_append_left _ hother)⟩
          have hkeeps := hbetween call (List.mem_append_right _ List.mem_cons_self)
          rw [if_neg hkeeps]
          split
          · exact ⟨stamp, List.mem_append_left _ hstamp, hle⟩
          · exact ⟨stamp, hstamp, hle⟩

/-- **A day is overtaken exactly when** it has a stamp at or after `since` and its last stamp is
before. -/
theorem overtaken_iff :
    Overtaken since key day calls
      ↔ (∃ stamp ∈ tupleStamps calls key day, since ≤ stamp)
        ∧ ∃ last ∈ (tupleStamps calls key day).getLast?, last < since := by
  induction calls using List.reverseRecOn with
  | nil =>
      constructor
      · intro h
        generalize hnil : ([] : List EffectiveCall) = calls at h
        cases h
        simp at hnil
      · rintro ⟨⟨_, h, -⟩, -⟩
        cases h
  | append_singleton calls call ih =>
      have hinv : ∀ {all : List EffectiveCall}, Overtaken since key day all →
          ∃ front early between last rest, all = front ++ early :: (between ++ last :: rest)
            ∧ (early.PostsOn key day
              ∨ early.Rewrites key day ∧ ∃ call ∈ front, call.PostsOn key day)
            ∧ since ≤ early.update.createdAt ∧ (∀ call ∈ between, ¬ call.Rewrites key day)
            ∧ last.PostsOn key day ∧ last.update.createdAt < since
            ∧ ∀ call ∈ rest, ¬ call.PostsOn key day ∧ ¬ call.Rewrites key day := by
        rintro _ ⟨front, early, between, last, rest, hwrote, hafter, hkept, hposts, hbefore, huntouched⟩
        exact ⟨front, early, between, last, rest, rfl, hwrote, hafter, hkept, hposts, hbefore,
          huntouched⟩
      constructor
      · intro h
        obtain ⟨front, early, between, last, rest, hsplit, hwrote, hafter, hkept, hposts, hbefore,
          huntouched⟩ := hinv h
        rcases List.eq_nil_or_concat' rest with rfl | ⟨rest, other, rfl⟩
        · -- the last call posts on the day
          rw [← List.cons_append, ← List.append_assoc] at hsplit
          obtain ⟨rfl, heq⟩ := List.append_inj' hsplit rfl
          obtain rfl : call = last := List.singleton_inj.mp heq
          obtain ⟨stamp, hstamp, hle⟩ := exists_stamp_iff.mpr ⟨front, early, between, rfl, hwrote,
            hafter, hkept⟩
          rw [tupleStamps_concat, if_pos hposts]
          refine ⟨⟨stamp, List.mem_append_left _ hstamp, hle⟩, call.update.createdAt, ?_, hbefore⟩
          rw [List.getLast?_append, List.getLast?_replicate,
            if_neg (mt List.length_eq_zero_iff.mp hposts.1)]
          rfl
        · -- the last call leaves the day alone
          rw [← List.cons_append, ← List.cons_append, ← List.append_assoc, ← List.append_assoc]
            at hsplit
          obtain ⟨heq, hcall⟩ := List.append_inj' hsplit rfl
          obtain rfl : call = other := List.singleton_inj.mp hcall
          obtain ⟨hnot, hnot'⟩ := huntouched call (List.mem_append_right _ List.mem_cons_self)
          rw [tupleStamps_concat, if_neg hnot, if_neg hnot', ← ih, heq, List.append_assoc]
          exact Overtaken.intro front early between last rest hwrote hafter hkept hposts hbefore
            (fun other hother => huntouched other (List.mem_append_left _ hother))
      · rw [tupleStamps_concat]
        split
        · rename_i hposts
          rintro ⟨⟨stamp, hstamp, hle⟩, last, hlast, hlt⟩
          rw [List.getLast?_append, List.getLast?_replicate,
            if_neg (mt List.length_eq_zero_iff.mp hposts.1)] at hlast
          obtain rfl : call.update.createdAt = last := Option.some.inj hlast
          rcases List.mem_append.mp hstamp with h | h
          · obtain ⟨front, early, between, rfl, hwrote, hafter, hkept⟩ :=
              exists_stamp_iff.mp ⟨stamp, h, hle⟩
            rw [List.append_assoc, List.cons_append]
            exact Overtaken.intro front early between call [] hwrote hafter hkept hposts hlt
              (fun _ h => (List.not_mem_nil h).elim)
          · rw [(List.mem_replicate.mp h).2] at hle
            exact absurd hle (not_le.mpr hlt)
        · rename_i hnot
          split
          · -- rewritten: all stamps are the same
            rintro ⟨⟨stamp, hstamp, hle⟩, last, hlast, hlt⟩
            obtain ⟨_, -, rfl⟩ := List.mem_map.mp hstamp
            obtain ⟨_, -, rfl⟩ := List.mem_map.mp (List.mem_of_getLast? hlast)
            exact (not_le.mpr hlt hle).elim
          · rename_i hnot'
            intro h
            obtain ⟨front, early, between, last, rest, rfl, hwrote, hafter, hkept, hposts, hbefore,
              huntouched⟩ := hinv (ih.mpr h)
            rw [List.append_assoc, List.cons_append, List.append_assoc, List.cons_append]
            refine Overtaken.intro front early between last (rest ++ [call]) hwrote hafter hkept
              hposts hbefore (fun other hother => ?_)
            rcases List.mem_append.mp hother with h | h
            · exact huntouched other h
            · exact List.mem_singleton.mp h ▸ ⟨hnot, hnot'⟩

end Overtaken

end CalaLedger
