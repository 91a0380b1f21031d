import CalaLedger.Entities
import CalaLedger.Foundations.Closure

/-! # Memberships

The adjacency tables of account sets and the recursive walk over them. Only direct edges are
stored; the ancestors of an account are found by walking upward from its direct memberships, and a
reader keeps the ancestors of its own journal (`walkMappings`) or, for the rollup, the
eventually-consistent ones of them (`fetchEcSetMappings`). -/

namespace CalaLedger

/-- A row of `cala_account_set_member_accounts`. -/
structure AccountMembership where
  accountSetId : AccountSetId
  accountId : AccountId
  deriving DecidableEq, Repr

/-- A row of `cala_account_set_member_account_sets`: an edge from a member set up to its parent. -/
structure SetMembership where
  accountSetId : AccountSetId
  memberAccountSetId : AccountSetId
  deriving DecidableEq, Repr

/-- `cala_account_sets` (the journal of each set), the two membership tables and
`cala_account_set_graph_epoch`. -/
structure MembershipTables where
  accountSets : AccountSetId → Option JournalId
  memberAccounts : List AccountMembership
  memberAccountSets : List SetMembership
  epoch : ℤ

namespace MembershipTables

variable (tables : MembershipTables)

/-- The sets an account is a direct member of. -/
def directSets (accountId : AccountId) : List AccountSetId :=
  (tables.memberAccounts.filter (·.accountId = accountId)).map AccountMembership.accountSetId

/-- The sets a set is a direct member of. -/
def parents (setId : AccountSetId) : List AccountSetId :=
  (tables.memberAccountSets.filter (·.memberAccountSetId = setId)).map SetMembership.accountSetId

/-- The `ancestors` rows of an account in the recursive walk: its direct sets and everything above
them, each once. -/
def ancestors (accountId : AccountId) : List AccountSetId :=
  Foundations.recursiveUnion tables.parents
    (tables.memberAccounts.length + tables.memberAccountSets.length) (tables.directSets accountId)

/-- The mappings of `walk_mappings_and_lock_in_op`: the ancestors that belong to the journal. -/
def walkMappings (journalId : JournalId) (accountId : AccountId) : List AccountSetId :=
  (tables.ancestors accountId).filter (fun setId => tables.accountSets setId = some journalId)

/-- `fetch_ec_set_mappings`: of those, the ones whose backing account is eventually consistent. -/
def fetchEcSetMappings (accounts : AccountTable) (journalId : JournalId) (accountId : AccountId) :
    List AccountSetId :=
  (tables.walkMappings journalId accountId).filter
    (fun setId => accounts.consistency true (AccountId.ofSet setId))

/-- One upward step between sets. -/
def Edge (member parent : AccountSetId) : Prop :=
  ⟨parent, member⟩ ∈ tables.memberAccountSets

variable {tables}

theorem mem_directSets {accountId : AccountId} {setId : AccountSetId} :
    setId ∈ tables.directSets accountId ↔ ⟨setId, accountId⟩ ∈ tables.memberAccounts := by
  rw [directSets, List.mem_map]
  constructor
  · rintro ⟨⟨s, a⟩, hmem, rfl⟩
    obtain ⟨hmem, ha⟩ := List.mem_filter.mp hmem
    rw [decide_eq_true_eq] at ha
    exact ha ▸ hmem
  · intro hmem
    exact ⟨_, List.mem_filter.mpr ⟨hmem, by simp⟩, rfl⟩

theorem mem_parents {member parent : AccountSetId} :
    parent ∈ tables.parents member ↔ tables.Edge member parent := by
  rw [parents, List.mem_map]
  constructor
  · rintro ⟨⟨p, m⟩, hmem, rfl⟩
    obtain ⟨hmem, hm⟩ := List.mem_filter.mp hmem
    rw [decide_eq_true_eq] at hm
    exact hm ▸ hmem
  · intro hmem
    exact ⟨_, List.mem_filter.mpr ⟨hmem, by simp⟩, rfl⟩

/-- The walk never leaves the sets named as a parent in the two tables. -/
theorem walk_universe (accountId : AccountId) :
    Foundations.Universe tables.parents (tables.directSets accountId)
      (tables.memberAccounts.map AccountMembership.accountSetId
        ++ tables.memberAccountSets.map SetMembership.accountSetId) where
  seeds := by
    intro setId h
    exact List.mem_append_left _ (List.mem_map.mpr ⟨_, mem_directSets.mp h, rfl⟩)
  next := by
    intro setId _ parent h
    exact List.mem_append_right _ (List.mem_map.mpr ⟨_, mem_parents.mp h, rfl⟩)

theorem ancestors_spec (accountId : AccountId) :
    (tables.ancestors accountId).Nodup
      ∧ ∀ setId, setId ∈ tables.ancestors accountId
          ↔ ∃ direct ∈ tables.directSets accountId,
              Relation.ReflTransGen (fun a b => b ∈ tables.parents a) direct setId :=
  Foundations.recursiveUnion_spec (walk_universe accountId) (by simp)

/-- **The walk finds the transitive containments**: a set contains an account if it is reached
from a direct set of the account. -/
theorem mem_ancestors {accountId : AccountId} {setId : AccountSetId} :
    setId ∈ tables.ancestors accountId
      ↔ ∃ direct, ⟨direct, accountId⟩ ∈ tables.memberAccounts
          ∧ Relation.ReflTransGen tables.Edge direct setId := by
  rw [(ancestors_spec accountId).2]
  have hstep : (fun a b => b ∈ tables.parents a) = tables.Edge := by
    funext a b
    exact propext mem_parents
  rw [hstep]
  exact exists_congr (fun direct => and_congr_left' mem_directSets)

theorem nodup_walkMappings (journalId : JournalId) (accountId : AccountId) :
    (tables.walkMappings journalId accountId).Nodup :=
  (ancestors_spec accountId).1.filter _

theorem consistency_of_mem_fetchEcSetMappings {accounts : AccountTable} {journalId : JournalId}
    {accountId : AccountId} {setId : AccountSetId}
    (h : setId ∈ tables.fetchEcSetMappings accounts journalId accountId) :
    accounts.consistency true (AccountId.ofSet setId) := by
  rw [fetchEcSetMappings, List.mem_filter] at h
  simpa using h.2

end MembershipTables

/-- `fetch_ec_leaf_accounts`: of some accounts, the eventually-consistent ones that back no set. -/
def fetchEcLeafAccounts (accounts : AccountTable) (accountIds : List AccountId) :
    List AccountId :=
  accountIds.filter (fun accountId =>
    match accounts accountId with
    | some row => row.eventuallyConsistent && !row.isAccountSet
    | none => false)

theorem mem_fetchEcLeafAccounts {accounts : AccountTable} {accountIds : List AccountId}
    {accountId : AccountId} :
    accountId ∈ fetchEcLeafAccounts accounts accountIds
      ↔ accountId ∈ accountIds
        ∧ ∃ row, accounts accountId = some row ∧ row.eventuallyConsistent = true
          ∧ row.isAccountSet = false := by
  rw [fetchEcLeafAccounts, List.mem_filter]
  refine and_congr_right' ?_
  cases accounts accountId <;> simp

theorem consistency_of_mem_fetchEcLeafAccounts {accounts : AccountTable}
    {accountIds : List AccountId} {accountId : AccountId}
    (h : accountId ∈ fetchEcLeafAccounts accounts accountIds) :
    accounts.consistency true accountId := by
  obtain ⟨-, row, hrow, hec, -⟩ := mem_fetchEcLeafAccounts.mp h
  rw [AccountTable.consistency, hrow, Option.map_some, hec]

end CalaLedger
