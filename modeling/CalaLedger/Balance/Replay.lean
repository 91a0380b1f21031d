import CalaLedger.Balance.Snapshot
import CalaLedger.Foundations.RunningTotals
import Mathlib.Algebra.Order.BigOperators.Group.List
import Mathlib.Data.List.Induction
import Mathlib.Tactic.Ring

/-! # Replaying dated entries

What a balance is for, stated without the code: the exact totals of a list of entries (`postedOn`),
the entry that last moved a layer (`latestOn`) and, for entries dated by their effective day, the
rows of the cumulative table, one for each entry of the timeline (`replay`), with their cumulative
totals (`cumulativeOn`). The rows add with decimals; their totals are the exact ones where every sum
of some of the entries is representable (`SumsRepresentable`). -/

namespace CalaLedger

/-! ## Totals of a list of entries -/

/-- What a list of entries adds up to on one side of one layer, exactly. -/
def postedOn (entries : List EntryValues) (layer : Layer) (direction : DebitOrCredit) : ℚ :=
  (entries.map (fun entry => (entry.unitsOn layer direction).value)).sum

/-- Debits less credits of a layer. -/
def netOf (entries : List EntryValues) (layer : Layer) : ℚ :=
  postedOn entries layer .debit - postedOn entries layer .credit

/-- However many of the entries are added on one side, the sum is a decimal. -/
def SumsRepresentable (entries : List EntryValues) (layer : Layer) (direction : DebitOrCredit) :
    Prop :=
  ∀ chosen, chosen.Subperm entries → Representable (postedOn chosen layer direction)

/-- So it is if debits are set against credits. -/
def NetsRepresentable (entries : List EntryValues) (layer : Layer) : Prop :=
  ∀ chosen, chosen.Subperm entries → Representable (netOf chosen layer)

/-- The last entry of a layer; the nil id when the layer has none. -/
def latestOn (entries : List EntryValues) (layer : Layer) : EntryId :=
  entries.foldl (fun latest entry => if entry.layer = layer then entry.id else latest)
    UNASSIGNED_ENTRY_ID

@[simp] theorem postedOn_nil (layer : Layer) (direction : DebitOrCredit) :
    postedOn [] layer direction = 0 := rfl

@[simp] theorem postedOn_append (front back : List EntryValues) (layer : Layer)
    (direction : DebitOrCredit) :
    postedOn (front ++ back) layer direction
      = postedOn front layer direction + postedOn back layer direction := by
  rw [postedOn, List.map_append, List.sum_append]
  rfl

@[simp] theorem postedOn_singleton (entry : EntryValues) (layer : Layer)
    (direction : DebitOrCredit) :
    postedOn [entry] layer direction = (entry.unitsOn layer direction).value := by
  simp [postedOn]

@[simp] theorem netOf_nil (layer : Layer) : netOf [] layer = 0 := by
  simp [netOf]

theorem netOf_append (front back : List EntryValues) (layer : Layer) :
    netOf (front ++ back) layer = netOf front layer + netOf back layer := by
  unfold netOf
  rw [postedOn_append, postedOn_append]
  ring

theorem netOf_cons (entry : EntryValues) (entries : List EntryValues) (layer : Layer) :
    netOf (entry :: entries) layer = netOf [entry] layer + netOf entries layer :=
  netOf_append [entry] entries layer

/-- The order of the entries does not matter. -/
theorem netOf_perm {entries entries' : List EntryValues} (h : entries.Perm entries')
    (layer : Layer) : netOf entries layer = netOf entries' layer := by
  unfold netOf postedOn
  rw [(h.map _).sum_eq, (h.map _).sum_eq]

/-- The net of the entries of one side. -/
theorem netOf_filter_direction (entries : List EntryValues) (layer : Layer)
    (direction : DebitOrCredit) :
    netOf (entries.filter (fun entry => entry.direction = direction)) layer
      = match direction with
        | .debit => postedOn entries layer .debit
        | .credit => -postedOn entries layer .credit := by
  induction entries with
  | nil => cases direction <;> simp
  | cons entry entries ih =>
      have hside : ∀ side, postedOn (entry :: entries) layer side
          = (entry.unitsOn layer side).value + postedOn entries layer side := fun side => rfl
      rw [List.filter_cons]
      by_cases hown : entry.direction = direction
      · rw [if_pos (decide_eq_true hown), netOf_cons, ih]
        subst hown
        cases hdirection : entry.direction <;>
          simp [netOf, hside, EntryValues.unitsOn, hdirection]
        ring
      · rw [if_neg (by simpa using hown), ih]
        cases direction <;> simp [hside, EntryValues.unitsOn, hown]

theorem SumsRepresentable.subperm {entries entries' : List EntryValues} {layer : Layer}
    {direction : DebitOrCredit} (h : SumsRepresentable entries' layer direction)
    (hsub : entries.Subperm entries') : SumsRepresentable entries layer direction :=
  fun chosen hchosen => h chosen (hchosen.trans hsub)

theorem NetsRepresentable.subperm {entries entries' : List EntryValues} {layer : Layer}
    (h : NetsRepresentable entries' layer) (hsub : entries.Subperm entries') :
    NetsRepresentable entries layer :=
  fun chosen hchosen => h chosen (hchosen.trans hsub)

/-- The sums of a side are nets of its entries. -/
theorem NetsRepresentable.sums {entries : List EntryValues} {layer : Layer}
    (h : NetsRepresentable entries layer) (direction : DebitOrCredit) :
    SumsRepresentable entries layer direction := by
  intro chosen hchosen
  have hnet := h _ ((List.filter_sublist (p := fun entry : EntryValues =>
    decide (entry.direction = direction))).subperm.trans hchosen)
  rw [netOf_filter_direction] at hnet
  cases direction with
  | debit => exact hnet
  | credit =>
      obtain ⟨d, hd⟩ := hnet
      exact ⟨d.neg, by rw [d.value_neg, hd, neg_neg]⟩

/-- Additions are exact where their results are representable. -/
theorem exactWhere_representable :
    Foundations.ExactWhere (Foundations.RoundedDecimal.value : Decimal → ℚ) Representable :=
  ⟨Foundations.RoundedDecimal.value_zero, fun _ _ h => Foundations.RoundedDecimal.value_add h⟩

/-- Amounts added up one after the other are their exact sum. -/
theorem SumsRepresentable.value_foldl {entries : List EntryValues} {layer : Layer}
    {direction : DebitOrCredit} (h : SumsRepresentable entries layer direction) :
    ((entries.map (fun entry : EntryValues => entry.unitsOn layer direction)).foldl
        (· + ·) 0).value
      = postedOn entries layer direction := by
  rw [exactWhere_representable.foldl, exactWhere_representable.zero, zero_add, List.map_map]
  · rfl
  · rintro front ⟨back, hfront⟩
    obtain ⟨first, last, rfl, rfl, -⟩ := List.map_eq_append_iff.mp hfront.symm
    rw [exactWhere_representable.zero, zero_add, List.map_map]
    exact h first (List.sublist_append_left _ _).subperm

/-- What is added up are amounts of some of the entries. -/
theorem exists_posted_of_subperm {entries : List EntryValues} {layer : Layer}
    {direction : DebitOrCredit} {chosen : List Decimal}
    (h : chosen.Subperm (entries.map (fun entry => entry.unitsOn layer direction))) :
    ∃ posted, posted.Subperm entries
      ∧ (chosen.map Foundations.RoundedDecimal.value).sum = postedOn posted layer direction := by
  obtain ⟨kept, hperm, hkept⟩ := h
  obtain ⟨posted, hposted, rfl⟩ := List.sublist_map_iff.mp hkept
  refine ⟨posted, hposted.subperm, ?_⟩
  rw [← (hperm.map _).sum_eq, List.map_map]
  rfl

/-- **Amounts of so many fractional digits** whose mantissas have a sum of 96 bits have representable
sums. -/
theorem netsRepresentable_of_digits {entries : List EntryValues} {scale : ℕ} (hscale : scale ≤ 28)
    (mantissa : EntryValues → ℤ)
    (hunits : ∀ entry ∈ entries, entry.units.value = mantissa entry / 10 ^ scale)
    (hsmall : (entries.map (fun entry => (mantissa entry).natAbs)).sum ≤ 2 ^ 96 - 1)
    (layer : Layer) : NetsRepresentable entries layer := by
  intro chosen hchosen
  have hsum : ∃ total : ℤ, netOf chosen layer = total / 10 ^ scale
      ∧ total.natAbs ≤ (chosen.map (fun entry => (mantissa entry).natAbs)).sum := by
    have hunits' : ∀ entry ∈ chosen, entry.units.value = mantissa entry / 10 ^ scale :=
      fun entry hentry => hunits entry (hchosen.subset hentry)
    clear hchosen
    induction chosen with
    | nil => exact ⟨0, by simp, by simp⟩
    | cons entry chosen ih =>
        obtain ⟨total, htotal, hle⟩ := ih (fun e he => hunits' e (List.mem_cons_of_mem _ he))
        have hone : ∃ one : ℤ, netOf [entry] layer = one / 10 ^ scale
            ∧ one.natAbs ≤ (mantissa entry).natAbs := by
          have hvalue := hunits' entry List.mem_cons_self
          by_cases hlayer : entry.layer = layer
          · cases hdirection : entry.direction with
            | debit => exact ⟨mantissa entry, by
                simpa [netOf, EntryValues.unitsOn, hlayer, hdirection] using hvalue, le_rfl⟩
            | credit => exact ⟨-mantissa entry, by
                simp [netOf, EntryValues.unitsOn, hlayer, hdirection, hvalue, neg_div],
                (Int.natAbs_neg _).le⟩
          · exact ⟨0, by simp [netOf, EntryValues.unitsOn, hlayer], Nat.zero_le _⟩
        obtain ⟨one, hone, honele⟩ := hone
        refine ⟨one + total, ?_, ?_⟩
        · rw [netOf_cons, hone, htotal, ← add_div]
          push_cast
          rfl
        · rw [List.map_cons, List.sum_cons]
          exact (Int.natAbs_add_le _ _).trans (Nat.add_le_add honele hle)
  obtain ⟨total, htotal, hle⟩ := hsum
  obtain ⟨kept, hperm, hsub⟩ := hchosen
  have hmore : (chosen.map (fun entry => (mantissa entry).natAbs)).sum
      ≤ (entries.map (fun entry => (mantissa entry).natAbs)).sum := by
    rw [← (hperm.map _).sum_eq]
    exact (hsub.map _).sum_le_sum (fun _ _ => Nat.zero_le _)
  exact ⟨⟨total, scale, hle.trans (hmore.trans hsmall), hscale⟩, htotal.symm⟩

@[simp] theorem latestOn_nil (layer : Layer) : latestOn [] layer = UNASSIGNED_ENTRY_ID := rfl

theorem latestOn_concat (entries : List EntryValues) (entry : EntryValues) (layer : Layer) :
    latestOn (entries ++ [entry]) layer
      = if entry.layer = layer then entry.id else latestOn entries layer := by
  rw [latestOn, List.foldl_append]
  rfl

/-- The latest entry of a layer is the nil id or the id of an entry of that layer. -/
theorem latestOn_cases (entries : List EntryValues) (layer : Layer) :
    latestOn entries layer = UNASSIGNED_ENTRY_ID
      ∨ ∃ entry ∈ entries, entry.layer = layer ∧ latestOn entries layer = entry.id := by
  induction entries using List.reverseRecOn with
  | nil => exact Or.inl rfl
  | append_singleton entries entry ih =>
      rw [latestOn_concat]
      by_cases hlayer : entry.layer = layer
      · exact Or.inr ⟨entry, by simp, hlayer, if_pos hlayer⟩
      · rw [if_neg hlayer]
        rcases ih with h | ⟨e, he, hl, hid⟩
        · exact Or.inl h
        · exact Or.inr ⟨e, List.mem_append_left _ he, hl, hid⟩

/-- A snapshot names the latest entry of each layer of a list of entries. -/
structure BalanceSnapshot.Holds (snapshot : BalanceSnapshot) (entries : List EntryValues) :
    Prop where
  entryId : ∀ layer, (snapshot.layer layer).entryId = latestOn entries layer

theorem firstSnapshot_holds (time : Timestamp) (accountId : AccountId) (entry : EntryValues) :
    (firstSnapshot time accountId entry).Holds [] := by
  constructor
  intro layer
  rw [firstSnapshot_layer]
  rfl

/-- One more entry on a snapshot is one more entry in its list. -/
theorem BalanceSnapshot.Holds.update {snapshot : BalanceSnapshot} {entries : List EntryValues}
    (h : snapshot.Holds entries) (time : Timestamp) (entry : EntryValues) :
    (updateSnapshot time snapshot entry).Holds (entries ++ [entry]) := by
  constructor
  intro layer
  rw [updateSnapshot_layer_entryId, h.entryId, latestOn_concat]

/-- The entry ids of a snapshot do not depend on its version. -/
theorem BalanceSnapshot.Holds.withVersion {snapshot : BalanceSnapshot}
    {entries : List EntryValues} (h : snapshot.Holds entries) (version : ℕ) :
    ({ snapshot with version := version } : BalanceSnapshot).Holds entries := by
  constructor
  intro layer
  have hid := h.entryId layer
  cases layer <;> exact hid

/-- Entry ids are assigned, and identify the entry. -/
structure Identified (entries : List EntryValues) : Prop where
  assigned : ∀ entry ∈ entries, entry.id ≠ UNASSIGNED_ENTRY_ID
  unique : ∀ entry ∈ entries, ∀ entry' ∈ entries, entry.id = entry'.id → entry = entry'

theorem Identified.subset {entries entries' : List EntryValues} (h : Identified entries')
    (hsub : entries ⊆ entries') : Identified entries :=
  ⟨fun e he => h.assigned e (hsub he), fun e he e' he' => h.unique e (hsub he) e' (hsub he')⟩

/-- An entry is never the latest of a layer other than its own. -/
theorem Identified.ne_latestOn {entries : List EntryValues} (h : Identified entries)
    {entry : EntryValues} (hmem : entry ∈ entries) {posted : List EntryValues}
    (hposted : posted ⊆ entries) {layer : Layer} (hlayer : layer ≠ entry.layer) :
    entry.id ≠ latestOn posted layer := by
  intro hid
  rcases latestOn_cases posted layer with hnil | ⟨e, he, hl, hlatest⟩
  · exact h.assigned entry hmem (hid.trans hnil)
  · have heq := h.unique entry hmem e (hposted he) (hid.trans hlatest)
    exact hlayer (by rw [heq, hl])

/-! ## The rows of a timeline -/

/-- An entry with its effective day. -/
abbrev DatedEntry := NaiveDate × EntryValues

/-- One row of the cumulative table, without its clock times and its totals. -/
structure EffectiveRow where
  key : BalanceKey
  effective : NaiveDate
  version : ℕ
  allTimeVersion : ℕ
  entryId : EntryId
  latestEntry : Layer → EntryId

/-- A stored row without its clock times and its totals. -/
def EffectiveBalanceSnapshot.row (stored : EffectiveBalanceSnapshot) : EffectiveRow :=
  { key := ⟨stored.journalId, stored.accountId, stored.currency⟩
    effective := stored.effective
    version := stored.version
    allTimeVersion := stored.allTimeVersion
    entryId := stored.entryId
    latestEntry := fun layer => (stored.layer layer).entryId }

/-- **The row of one entry of a timeline**, given the entries before it: its place in the whole
timeline, its place within its day and the latest entry of each layer. -/
def replayRow (key : BalanceKey) (before : List DatedEntry) (last : DatedEntry) : EffectiveRow :=
  let posted := before ++ [last]
  { key := key
    effective := last.1
    version := posted.countP (fun dated => dated.1 = last.1)
    allTimeVersion := posted.length
    entryId := last.2.id
    latestEntry := latestOn (posted.map Prod.snd) }

/-- The rows of the rest of a timeline. -/
def replayFrom (key : BalanceKey) : List DatedEntry → List DatedEntry → List EffectiveRow
  | _, [] => []
  | before, last :: rest => replayRow key before last :: replayFrom key (before ++ [last]) rest

/-- **The rows of a timeline**, one for each of its entries. -/
def replay (key : BalanceKey) (timeline : List DatedEntry) : List EffectiveRow :=
  replayFrom key [] timeline

/-- One total of a stored row, with its day. -/
def EffectiveBalanceSnapshot.dayTotal (layer : Layer) (direction : DebitOrCredit)
    (stored : EffectiveBalanceSnapshot) : NaiveDate × Decimal :=
  (stored.effective, (stored.layer layer).side direction)

/-- A stored row without its clock times. -/
def EffectiveBalanceSnapshot.content (stored : EffectiveBalanceSnapshot) :
    EffectiveRow × (Layer → DebitOrCredit → Decimal) :=
  (stored.row, fun layer direction => (stored.layer layer).side direction)

theorem map_content_eq {stored stored' : List EffectiveBalanceSnapshot}
    (hrows : stored.map EffectiveBalanceSnapshot.row = stored'.map EffectiveBalanceSnapshot.row)
    (htotals : ∀ layer direction,
      stored.map (EffectiveBalanceSnapshot.dayTotal layer direction)
        = stored'.map (EffectiveBalanceSnapshot.dayTotal layer direction)) :
    stored.map EffectiveBalanceSnapshot.content = stored'.map EffectiveBalanceSnapshot.content := by
  have hlength : stored.length = stored'.length := by simpa using congrArg List.length hrows
  refine List.ext_getElem (by simpa using hlength) (fun i hi hi' => ?_)
  rw [List.length_map] at hi hi'
  rw [List.getElem_map, List.getElem_map]
  refine Prod.ext ?_ (funext₂ (fun layer direction => ?_))
  · have hrow := List.getElem_of_eq hrows (by simpa using hi)
    rw [List.getElem_map, List.getElem_map] at hrow
    exact hrow
  · have htotal := List.getElem_of_eq (htotals layer direction) (by simpa using hi)
    rw [List.getElem_map, List.getElem_map] at htotal
    exact congrArg Prod.snd htotal

/-- The exact totals of the rest of a timeline. -/
def cumulativeFrom (layer : Layer) (direction : DebitOrCredit) :
    List DatedEntry → List DatedEntry → List (NaiveDate × ℚ)
  | _, [] => []
  | before, last :: rest =>
      (last.1, postedOn ((before ++ [last]).map Prod.snd) layer direction)
        :: cumulativeFrom layer direction (before ++ [last]) rest

/-- **The totals of a timeline**: at each of its entries, what the entries up to it add up to. -/
def cumulativeOn (layer : Layer) (direction : DebitOrCredit) (timeline : List DatedEntry) :
    List (NaiveDate × ℚ) :=
  cumulativeFrom layer direction [] timeline

/-- They are the running totals of the amounts. -/
theorem cumulativeFrom_eq (layer : Layer) (direction : DebitOrCredit)
    (before timeline : List DatedEntry) :
    cumulativeFrom layer direction before timeline
      = Foundations.cumulated (postedOn (before.map Prod.snd) layer direction)
          (timeline.map (fun dated => (dated.1, (dated.2.unitsOn layer direction).value))) := by
  induction timeline generalizing before with
  | nil => rfl
  | cons last rest ih =>
      rw [cumulativeFrom, ih, List.map_cons, Foundations.cumulated, List.map_append, postedOn_append,
        List.map_singleton, postedOn_singleton]

section Replay

variable (key : BalanceKey)

theorem replayFrom_append (before front back : List DatedEntry) :
    replayFrom key before (front ++ back)
      = replayFrom key before front ++ replayFrom key (before ++ front) back := by
  induction front generalizing before with
  | nil => simp [replayFrom]
  | cons last front ih =>
      rw [List.cons_append, replayFrom, ih, replayFrom, List.cons_append, List.append_assoc]
      rfl

theorem replay_append (front back : List DatedEntry) :
    replay key (front ++ back) = replay key front ++ replayFrom key front back :=
  replayFrom_append key [] front back

theorem replay_concat (front : List DatedEntry) (last : DatedEntry) :
    replay key (front ++ [last]) = replay key front ++ [replayRow key front last] :=
  replay_append key front [last]

@[simp] theorem replayFrom_length (before timeline : List DatedEntry) :
    (replayFrom key before timeline).length = timeline.length := by
  induction timeline generalizing before with
  | nil => rfl
  | cons last rest ih => rw [replayFrom, List.length_cons, ih, List.length_cons]

@[simp] theorem replay_length (timeline : List DatedEntry) :
    (replay key timeline).length = timeline.length :=
  replayFrom_length key [] timeline

/-- The i-th row is the row of the i-th entry after the entries before it. -/
theorem replay_getElem (timeline : List DatedEntry) {i : ℕ} (hi : i < timeline.length) :
    (replay key timeline)[i]? = some (replayRow key (timeline.take i) timeline[i]) := by
  have hsplit : timeline = timeline.take i ++ timeline[i] :: timeline.drop (i + 1) := by simp
  have hlength : (replay key (timeline.take i)).length = i := by simp [hi.le]
  have hreplay : replay key timeline = replay key (timeline.take i)
      ++ (replayRow key (timeline.take i) timeline[i]
        :: replayFrom key (timeline.take i ++ [timeline[i]]) (timeline.drop (i + 1))) := by
    conv_lhs => rw [hsplit, replay_append, replayFrom]
  rw [hreplay, List.getElem?_append_right hlength.le, hlength, Nat.sub_self]
  rfl

/-- The rows name their entries and their days, in order. -/
theorem replayFrom_map_entryId (before timeline : List DatedEntry) :
    (replayFrom key before timeline).map (fun row => (row.effective, row.entryId))
      = timeline.map (fun dated => (dated.1, dated.2.id)) := by
  induction timeline generalizing before with
  | nil => rfl
  | cons last rest ih =>
      rw [replayFrom, List.map_cons, ih, List.map_cons]
      rfl

/-- The all-time versions count the rows from one. -/
theorem replayFrom_allTimeVersion (before timeline : List DatedEntry) :
    (replayFrom key before timeline).map EffectiveRow.allTimeVersion
      = List.range' (before.length + 1) timeline.length := by
  induction timeline generalizing before with
  | nil => rfl
  | cons last rest ih =>
      rw [replayFrom, List.map_cons, ih, List.length_cons, List.range'_succ]
      simp [replayRow]

/-- Every row is of a day of the timeline, and ranks above the earlier entries of that day. -/
theorem mem_replayFrom {before timeline : List DatedEntry} {row : EffectiveRow}
    (h : row ∈ replayFrom key before timeline) :
    (∃ dated ∈ timeline, row.effective = dated.1)
      ∧ before.countP (fun d => d.1 = row.effective) < row.version := by
  induction timeline generalizing before with
  | nil => cases h
  | cons dated rest ih =>
      rw [replayFrom] at h
      rcases List.mem_cons.mp h with rfl | h
      · refine ⟨⟨dated, List.mem_cons_self, rfl⟩, ?_⟩
        simp [replayRow]
      · obtain ⟨⟨d, hd, hday⟩, hversion⟩ := ih h
        refine ⟨⟨d, List.mem_cons_of_mem _ hd, hday⟩, lt_of_le_of_lt ?_ hversion⟩
        rw [List.countP_append]
        exact Nat.le_add_right _ _

theorem replayFrom_key {before timeline : List DatedEntry} {row : EffectiveRow}
    (h : row ∈ replayFrom key before timeline) : row.key = key := by
  induction timeline generalizing before with
  | nil => cases h
  | cons dated rest ih =>
      rw [replayFrom] at h
      rcases List.mem_cons.mp h with rfl | h
      · rfl
      · exact ih h

/-- No two rows share a day and a version. -/
theorem replayFrom_slots (before timeline : List DatedEntry) :
    (replayFrom key before timeline).Pairwise
      (fun a b => (a.effective, a.version) ≠ (b.effective, b.version)) := by
  induction timeline generalizing before with
  | nil => exact List.Pairwise.nil
  | cons dated rest ih =>
      refine List.Pairwise.cons (fun row hrow heq => ?_) (ih _)
      obtain ⟨hday, hversion⟩ := Prod.mk.inj heq
      have hlt := (mem_replayFrom key hrow).2
      rw [← hday, ← hversion] at hlt
      exact lt_irrefl _ hlt

/-- Keeping the rows of some days of a timeline keeps all of them or none, if the timeline does. -/
theorem filter_replayFrom {before timeline : List DatedEntry} {p : NaiveDate → Bool} {b : Bool}
    (h : ∀ dated ∈ timeline, p dated.1 = b) :
    (replayFrom key before timeline).filter (fun row => p row.effective)
      = if b then replayFrom key before timeline else [] := by
  have hrow : ∀ row ∈ replayFrom key before timeline, p row.effective = b := by
    intro row hrow
    obtain ⟨⟨d, hd, hday⟩, -⟩ := mem_replayFrom key hrow
    rw [hday, h d hd]
  cases b with
  | true => exact List.filter_eq_self.mpr (fun row hr => hrow row hr)
  | false => exact List.filter_eq_nil_iff.mpr (fun row hr => by simp [hrow row hr])

/-- Where ids identify entries, days and entry ids determine a timeline. -/
theorem timeline_ext {timeline : List DatedEntry} : ∀ {timeline' : List DatedEntry},
    (∀ dated ∈ timeline, ∀ dated' ∈ timeline',
      dated.2.id = dated'.2.id → dated.2 = dated'.2) →
    timeline.map (fun dated => (dated.1, dated.2.id))
      = timeline'.map (fun dated => (dated.1, dated.2.id)) →
    timeline = timeline' := by
  induction timeline with
  | nil =>
      intro timeline' _ hmap
      exact (List.map_eq_nil_iff.mp hmap.symm).symm
  | cons dated rest ih =>
      intro timeline' hids hmap
      cases timeline' with
      | nil => cases hmap
      | cons dated' rest' =>
          rw [List.map_cons, List.map_cons] at hmap
          obtain ⟨hhead, htail⟩ := List.cons.inj hmap
          obtain ⟨hday, hid⟩ := Prod.mk.inj hhead
          have hentry := hids dated List.mem_cons_self dated' List.mem_cons_self hid
          rw [Prod.ext hday hentry, ih (fun d hd d' hd' => hids d (List.mem_cons_of_mem _ hd) d'
            (List.mem_cons_of_mem _ hd')) htail]

/-- Where ids identify entries, the rows of a timeline determine it. -/
theorem replay_injective {timeline timeline' : List DatedEntry}
    (hids : ∀ dated ∈ timeline, ∀ dated' ∈ timeline',
      dated.2.id = dated'.2.id → dated.2 = dated'.2)
    (h : replay key timeline = replay key timeline') : timeline = timeline' := by
  have hmap := congrArg (List.map (fun row => (row.effective, row.entryId))) h
  rw [replay, replay, replayFrom_map_entryId, replayFrom_map_entryId] at hmap
  exact timeline_ext hids hmap

end Replay

end CalaLedger
