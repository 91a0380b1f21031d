import CalaLedger.Entities
import Mathlib.Data.List.Flatten
import Mathlib.Tactic.Push

/-! # The balances an entry reaches

Every balance computation walks the entries of a batch in order and carries each one into its
targets: the ancestor sets of its account and, on the inline path always and on the rollup path
when the account is eventually consistent, the account itself. `carry` is that double loop,
`hits` the entries it brings to one balance, and `carry_at` the rule that reads the loop one
balance at a time. -/

namespace CalaLedger

/-- The ancestor sets an entry account propagates to. -/
abbrev AccountSetMappings := AccountId → List AccountSetId

/-- The balances the inline fold carries an entry into: every ancestor set, then the leaf. -/
def inlineTargets (mappings : AccountSetMappings) (entry : EntryValues) : List AccountId :=
  (mappings entry.accountId).map AccountId.ofSet ++ [entry.accountId]

/-- The balances the rollup carries an entry into: every EC ancestor set, and the leaf only when it
is an EC account itself. -/
def ecTargets (ecMappings : AccountSetMappings) (ecLeaves : List AccountId) (entry : EntryValues) :
    List AccountId :=
  (ecMappings entry.accountId).map AccountId.ofSet
    ++ if entry.accountId ∈ ecLeaves then [entry.accountId] else []

/-- The entries, in order, that reach one balance through `targets`; an entry that reaches it
twice is counted twice. -/
def hits (targets : EntryValues → List AccountId) (accountId : AccountId) (currency : Currency)
    (entries : List EntryValues) : List EntryValues :=
  entries.flatMap (fun entry =>
    if entry.currency = currency then ((targets entry).filter (· = accountId)).map (fun _ => entry)
    else [])

section Hits

variable (targets : EntryValues → List AccountId) (accountId : AccountId) (currency : Currency)

@[simp] theorem hits_nil : hits targets accountId currency [] = [] := rfl

theorem hits_append (front back : List EntryValues) :
    hits targets accountId currency (front ++ back)
      = hits targets accountId currency front ++ hits targets accountId currency back :=
  List.flatMap_append

theorem mem_hits {entry : EntryValues} {entries : List EntryValues} :
    entry ∈ hits targets accountId currency entries
      ↔ entry ∈ entries ∧ entry.currency = currency ∧ accountId ∈ targets entry := by
  rw [hits, List.mem_flatMap]
  constructor
  · rintro ⟨e, he, hmem⟩
    by_cases hc : e.currency = currency
    · rw [if_pos hc, List.mem_map] at hmem
      obtain ⟨a, ha, rfl⟩ := hmem
      rw [List.mem_filter, decide_eq_true_eq] at ha
      exact ⟨he, hc, ha.2 ▸ ha.1⟩
    · rw [if_neg hc] at hmem
      cases hmem
  · rintro ⟨he, hc, ha⟩
    refine ⟨entry, he, ?_⟩
    rw [if_pos hc, List.mem_map]
    exact ⟨accountId, List.mem_filter.mpr ⟨ha, by simp⟩, rfl⟩

/-- Nothing reaches a balance exactly when no entry has it among its targets. -/
theorem hits_eq_nil {entries : List EntryValues} :
    hits targets accountId currency entries = []
      ↔ ∀ entry ∈ entries, entry.currency = currency → accountId ∉ targets entry := by
  rw [List.eq_nil_iff_forall_not_mem]
  constructor
  · intro h entry hmem hcurrency htarget
    exact h entry ((mem_hits _ _ _).mpr ⟨hmem, hcurrency, htarget⟩)
  · intro h entry hmem
    obtain ⟨hmem, hcurrency, htarget⟩ := (mem_hits _ _ _).mp hmem
    exact h entry hmem hcurrency htarget

/-- Targets that agree on the entries of a batch bring the same entries to a balance. -/
theorem hits_congr {targets' : EntryValues → List AccountId} {entries : List EntryValues}
    (h : ∀ entry ∈ entries, (targets entry).filter (· = accountId)
      = (targets' entry).filter (· = accountId)) :
    hits targets accountId currency entries = hits targets' accountId currency entries := by
  induction entries with
  | nil => rfl
  | cons entry entries ih =>
      have hrest := ih (fun e he => h e (List.mem_cons_of_mem _ he))
      unfold hits at hrest ⊢
      rw [List.flatMap_cons, List.flatMap_cons, hrest, h entry List.mem_cons_self]

/-- Distinct targets bring an entry to a balance at most once. -/
theorem hits_sublist {entries : List EntryValues} (h : ∀ entry ∈ entries, (targets entry).Nodup) :
    (hits targets accountId currency entries).Sublist entries := by
  nth_rewrite 2 [← List.flatMap_singleton' entries]
  refine List.Sublist.flatMap_right entries (fun entry hentry => ?_)
  split
  · rw [List.filter_eq, List.map_replicate]
    have honce := List.nodup_iff_count_le_one.mp (h entry hentry) accountId
    exact (List.replicate_sublist_replicate entry).mpr honce
  · exact List.nil_sublist _

end Hits

/-- The balances a batch of entries reaches through `targets`. -/
def reached (targets : EntryValues → List AccountId) (entries : List EntryValues) :
    List (AccountId × Currency) :=
  entries.flatMap (fun entry => (targets entry).map (fun accountId => (accountId, entry.currency)))

/-- A balance is reached exactly when an entry hits it. -/
theorem mem_reached {targets : EntryValues → List AccountId} {entries : List EntryValues}
    {pair : AccountId × Currency} :
    pair ∈ reached targets entries ↔ hits targets pair.1 pair.2 entries ≠ [] := by
  rw [reached, List.mem_flatMap, Ne, hits_eq_nil]
  push Not
  constructor
  · rintro ⟨entry, hentry, hmem⟩
    obtain ⟨accountId, htarget, rfl⟩ := List.mem_map.mp hmem
    exact ⟨entry, hentry, rfl, htarget⟩
  · rintro ⟨entry, hentry, hcurrency, htarget⟩
    exact ⟨entry, hentry, List.mem_map.mpr ⟨pair.1, htarget, Prod.ext rfl hcurrency⟩⟩

/-! ## The loop over entries and targets -/

section Carry

variable {σ : Type}

/-- Carry each entry, in order, into each of its targets. -/
def carry (step : σ → AccountId → EntryValues → σ) (targets : EntryValues → List AccountId)
    (entries : List EntryValues) (state : σ) : σ :=
  entries.foldl (fun state entry =>
    (targets entry).foldl (fun state accountId => step state accountId entry) state) state

/-- Targets that agree on the entries of a batch drive the same loop. -/
theorem carry_congr (step : σ → AccountId → EntryValues → σ)
    {targets targets' : EntryValues → List AccountId} {entries : List EntryValues}
    (h : ∀ entry ∈ entries, targets entry = targets' entry) (state : σ) :
    carry step targets entries state = carry step targets' entries state := by
  unfold carry
  induction entries generalizing state with
  | nil => rfl
  | cons entry entries ih =>
      rw [List.foldl_cons, List.foldl_cons, h entry List.mem_cons_self,
        ih (fun e he => h e (List.mem_cons_of_mem _ he))]

/-- An invariant of one step is an invariant of the whole loop. -/
theorem carry_invariant (step : σ → AccountId → EntryValues → σ) (Inv : σ → Prop)
    (hstep : ∀ state accountId entry, Inv state → Inv (step state accountId entry))
    (targets : EntryValues → List AccountId) (entries : List EntryValues) :
    ∀ {state : σ}, Inv state → Inv (carry step targets entries state) := by
  have hinner : ∀ (entry : EntryValues) (accountIds : List AccountId) {state : σ}, Inv state →
      Inv (accountIds.foldl (fun state accountId => step state accountId entry) state) := by
    intro entry accountIds
    induction accountIds with
    | nil => exact fun h => h
    | cons accountId accountIds ih => exact fun h => ih (hstep _ _ _ h)
  unfold carry
  induction entries with
  | nil => exact fun h => h
  | cons entry entries ih => exact fun h => ih (hinner entry (targets entry) h)

/-- One entry carried into a list of accounts, seen from one balance: its history grows once for
every occurrence of the balance among them. -/
theorem foldl_step_at {step : σ → AccountId → EntryValues → σ} {accountId : AccountId}
    {currency : Currency} {At : σ → List EntryValues → Prop}
    (hne : ∀ state history target entry, At state history →
      (target, entry.currency) ≠ (accountId, currency) → At (step state target entry) history)
    (hself : ∀ state history entry, At state history → entry.currency = currency →
      At (step state accountId entry) (history ++ [entry]))
    (entry : EntryValues) (accountIds : List AccountId) :
    ∀ {state : σ} {history : List EntryValues}, At state history →
      At (accountIds.foldl (fun state target => step state target entry) state)
        (history ++ if entry.currency = currency then
          (accountIds.filter (· = accountId)).map (fun _ => entry) else []) := by
  induction accountIds with
  | nil =>
      intro state history h
      simpa using h
  | cons target accountIds ih =>
      intro state history h
      rw [List.foldl_cons]
      by_cases htarget : (target, entry.currency) = (accountId, currency)
      · obtain ⟨rfl, hcurrency⟩ := Prod.mk.inj htarget
        simpa [hcurrency] using ih (hself state history entry h hcurrency)
      · have h' := ih (hne state history target entry h htarget)
        by_cases hcurrency : entry.currency = currency
        · have hother : target ≠ accountId := fun heq => htarget (by rw [heq, hcurrency])
          simpa [hother, hcurrency] using h'
        · simpa [hcurrency] using h'

/-- **The loop seen from one balance.** If a step into another balance leaves what is known about
this one as it was, and a step into this one adds the entry to its history, then the whole loop
adds the entries that hit it. -/
theorem carry_at (step : σ → AccountId → EntryValues → σ) {accountId : AccountId}
    {currency : Currency} (At : σ → List EntryValues → Prop)
    (hne : ∀ state history target entry, At state history →
      (target, entry.currency) ≠ (accountId, currency) → At (step state target entry) history)
    (hself : ∀ state history entry, At state history → entry.currency = currency →
      At (step state accountId entry) (history ++ [entry]))
    (targets : EntryValues → List AccountId) (entries : List EntryValues) :
    ∀ {state : σ} {history : List EntryValues}, At state history →
      At (carry step targets entries state)
        (history ++ hits targets accountId currency entries) := by
  unfold carry
  induction entries with
  | nil =>
      intro state history h
      simpa using h
  | cons entry entries ih =>
      intro state history h
      have h' := ih (foldl_step_at hne hself entry (targets entry) h)
      rw [List.append_assoc] at h'
      exact h'

end Carry

end CalaLedger
