import CalaLedger.AccountSet.MembershipLocks
import CalaLedger.Foundations.PagedUnion
import Mathlib.Data.Prod.Lex
import Mathlib.Data.String.Basic
import Mathlib.Order.WithBot

/-! # Listing the members of an account set

`list_by_created_at_in_op` and `list_by_external_id_in_op`. Both fetch one row more than the page
holds, both take the cursor from the last row fetched, so the row that showed there is a next page
is on no page. A listing is complete exactly when the set has no more members than one page
(`member_listing_complete_iff`). By external id a cursor may also carry no external id, and then the
next page is the first one again (`byExternalId_endless`). -/

namespace CalaLedger

open Foundations

structure AccountSetMember where
  id : AccountSetMemberId
  createdAt : Timestamp
  deriving DecidableEq

structure AccountSetMemberByExternalId where
  id : AccountSetMemberId
  externalId : Option String
  deriving DecidableEq

structure AccountSetMemberByCreatedAtCursor where
  id : AccountSetMemberId
  memberCreatedAt : Timestamp
  deriving DecidableEq

structure AccountSetMemberByExternalIdCursor where
  id : AccountSetMemberId
  externalId : Option String
  deriving DecidableEq

/-- `AccountSetMemberByCreatedAtCursor::from`. -/
def AccountSetMember.cursor (member : AccountSetMember) : AccountSetMemberByCreatedAtCursor :=
  ⟨member.id, member.createdAt⟩

/-- `AccountSetMemberByExternalIdCursor::from`. -/
def AccountSetMemberByExternalId.cursor (member : AccountSetMemberByExternalId) :
    AccountSetMemberByExternalIdCursor :=
  ⟨member.id, member.externalId⟩

/-! ## The tables -/

/-- A row of `cala_account_set_member_accounts`. -/
structure MemberAccountRow where
  accountSetId : AccountSetId
  memberAccountId : AccountId
  createdAt : Timestamp
  deriving DecidableEq

/-- A row of `cala_account_set_member_account_sets`. -/
structure MemberAccountSetRow where
  accountSetId : AccountSetId
  memberAccountSetId : AccountSetId
  createdAt : Timestamp
  deriving DecidableEq

/-- The member tables with their `created_at`, and the `external_id` columns of the two tables a
listing joins. -/
structure DatedMembershipTables where
  memberAccounts : List MemberAccountRow
  memberAccountSets : List MemberAccountSetRow
  accountExternalIds : HashMap AccountId (Option String)
  accountSetExternalIds : HashMap AccountSetId (Option String)
  unique_accounts :
    (memberAccounts.map (fun row => (row.memberAccountId, row.accountSetId))).Nodup
  unique_accountSets :
    (memberAccountSets.map (fun row => (row.accountSetId, row.memberAccountSetId))).Nodup

namespace DatedMembershipTables

variable (tables : DatedMembershipTables) (accountSetId : AccountSetId)

def accountsOf : List MemberAccountRow :=
  tables.memberAccounts.filter (·.accountSetId = accountSetId)

def accountSetsOf : List MemberAccountSetRow :=
  tables.memberAccountSets.filter (·.accountSetId = accountSetId)

/-- How many members a set has, of both kinds. -/
def memberCount : ℕ :=
  (tables.accountsOf accountSetId).length + (tables.accountSetsOf accountSetId).length

/-- A joined row without an `external_id`, or no joined row: `NULL`. -/
def externalId : AccountSetMemberId → Option String
  | .account id => (tables.accountExternalIds.lookup id).join
  | .accountSet id => (tables.accountSetExternalIds.lookup id).join

variable {tables accountSetId}

theorem nodup_accountsOf {β : Type} {f : MemberAccountRow → β}
    (hf : ∀ a b, f a = f b → a.memberAccountId = b.memberAccountId) :
    ((tables.accountsOf accountSetId).map f).Nodup := by
  have hrows : (tables.accountsOf accountSetId).Pairwise (fun a b =>
      (a.memberAccountId, a.accountSetId) ≠ (b.memberAccountId, b.accountSetId)) :=
    (List.pairwise_map.mp tables.unique_accounts).filter _
  rw [List.Nodup, List.pairwise_map]
  refine hrows.imp_of_mem (fun {a b} ha hb hne heq => hne ?_)
  rw [hf a b heq, (of_decide_eq_true (List.mem_filter.mp ha).2 : a.accountSetId = accountSetId),
    (of_decide_eq_true (List.mem_filter.mp hb).2 : b.accountSetId = accountSetId)]

theorem nodup_accountSetsOf {β : Type} {f : MemberAccountSetRow → β}
    (hf : ∀ a b, f a = f b → a.memberAccountSetId = b.memberAccountSetId) :
    ((tables.accountSetsOf accountSetId).map f).Nodup := by
  have hrows : (tables.accountSetsOf accountSetId).Pairwise (fun a b =>
      (a.accountSetId, a.memberAccountSetId) ≠ (b.accountSetId, b.memberAccountSetId)) :=
    (List.pairwise_map.mp tables.unique_accountSets).filter _
  rw [List.Nodup, List.pairwise_map]
  refine hrows.imp_of_mem (fun {a b} ha hb hne heq => hne ?_)
  rw [hf a b heq, (of_decide_eq_true (List.mem_filter.mp ha).2 : a.accountSetId = accountSetId),
    (of_decide_eq_true (List.mem_filter.mp hb).2 : b.accountSetId = accountSetId)]

/-- One member for each row, of both tables together. -/
theorem nodup_members {β : Type} {f : MemberAccountRow → β} {g : MemberAccountSetRow → β}
    (id : β → AccountSetMemberId) (hf : ∀ row, id (f row) = .account row.memberAccountId)
    (hg : ∀ row, id (g row) = .accountSet row.memberAccountSetId) :
    ((tables.accountsOf accountSetId).map f
      ++ (tables.accountSetsOf accountSetId).map g).Nodup := by
  rw [List.nodup_append]
  refine ⟨nodup_accountsOf (fun a b heq => ?_), nodup_accountSetsOf (fun a b heq => ?_), ?_⟩
  · exact AccountSetMemberId.account.inj ((hf a).symm.trans ((congrArg id heq).trans (hf b)))
  · exact AccountSetMemberId.accountSet.inj ((hg a).symm.trans ((congrArg id heq).trans (hg b)))
  · intro a ha b hb heq
    obtain ⟨row, -, rfl⟩ := List.mem_map.mp ha
    obtain ⟨row', -, rfl⟩ := List.mem_map.mp hb
    exact AccountSetMemberId.noConfusion ((hf row).symm.trans ((congrArg id heq).trans (hg row')))

end DatedMembershipTables

/-! ## By creation time -/

/-- `ORDER BY created_at DESC, member_id DESC`. -/
def AccountSetMember.order (member : AccountSetMember) : ℤᵒᵈ ×ₗ AccountIdᵒᵈ :=
  toLex (OrderDual.toDual member.createdAt, OrderDual.toDual member.id.memberId)

/-- `COALESCE((created_at, member_id) < ($3, $2), $2 IS NULL)`. -/
def AccountSetMember.isPast (after : Option AccountSetMemberByCreatedAtCursor)
    (member : AccountSetMember) : Bool :=
  after.all (fun cursor => toLex (member.createdAt, member.id.memberId)
    < (toLex (cursor.memberCreatedAt, cursor.id.memberId) : ℤ ×ₗ AccountId))

namespace DatedMembershipTables

variable (tables : DatedMembershipTables) (accountSetId : AccountSetId)

def memberAccountsByCreatedAt : List AccountSetMember :=
  (tables.accountsOf accountSetId).map (fun row => ⟨.account row.memberAccountId, row.createdAt⟩)

def memberSetsByCreatedAt : List AccountSetMember :=
  (tables.accountSetsOf accountSetId).map
    (fun row => ⟨.accountSet row.memberAccountSetId, row.createdAt⟩)

/-- `list_by_created_at_in_op`. -/
def listByCreatedAtInOp (scan : IterationOrder AccountSetMember) (first : ℕ)
    (after : Option AccountSetMemberByCreatedAtCursor) :
    Page AccountSetMember AccountSetMemberByCreatedAtCursor :=
  let memberAccounts :=
    (tables.memberAccountsByCreatedAt accountSetId).filter (AccountSetMember.isPast after)
  let memberSets :=
    (tables.memberSetsByCreatedAt accountSetId).filter (AccountSetMember.isPast after)
  let rows := limitedUnion scan AccountSetMember.order (first + 1) memberAccounts memberSets
  -- the cursor is that of `rows.last()`, the page is `rows.take(first)`
  probedPage AccountSetMember.cursor rows first

/-- The pages by creation time come to an end and give every member once, in order. -/
def CompleteByCreatedAt (scan : IterationOrder AccountSetMember) (first : ℕ) : Prop :=
  CompleteListing (tables.listByCreatedAtInOp accountSetId scan first) AccountSetMember.order
    (tables.memberAccountsByCreatedAt accountSetId ++ tables.memberSetsByCreatedAt accountSetId)

end DatedMembershipTables

/-! ## By external id -/

/-- `ORDER BY external_id ASC NULLS LAST, member_id ASC`. -/
def AccountSetMemberByExternalId.order (member : AccountSetMemberByExternalId) :
    WithTop String ×ₗ AccountId :=
  toLex (match member.externalId with
    | none => ⊤
    | some externalId => (externalId : WithTop String), member.id.memberId)

/-- The condition on `$2` and `$3`, a comparison with `NULL` being no match. -/
def AccountSetMemberByExternalId.isPast (after : Option AccountSetMemberByExternalIdCursor)
    (member : AccountSetMemberByExternalId) : Bool :=
  match after.bind (·.externalId) with
  | none => true
  | some externalId =>
      match member.externalId with
      | none => true
      | some own => externalId < own
          || (own = externalId && after.any (fun cursor => cursor.id.memberId < member.id.memberId))

namespace DatedMembershipTables

variable (tables : DatedMembershipTables) (accountSetId : AccountSetId)

def memberAccountsByExternalId : List AccountSetMemberByExternalId :=
  (tables.accountsOf accountSetId).map (fun row =>
    ⟨.account row.memberAccountId, tables.externalId (.account row.memberAccountId)⟩)

def memberSetsByExternalId : List AccountSetMemberByExternalId :=
  (tables.accountSetsOf accountSetId).map (fun row =>
    ⟨.accountSet row.memberAccountSetId, tables.externalId (.accountSet row.memberAccountSetId)⟩)

/-- `list_by_external_id_in_op`. -/
def listByExternalIdInOp (scan : IterationOrder AccountSetMemberByExternalId) (first : ℕ)
    (after : Option AccountSetMemberByExternalIdCursor) :
    Page AccountSetMemberByExternalId AccountSetMemberByExternalIdCursor :=
  let memberAccounts := (tables.memberAccountsByExternalId accountSetId).filter
    (AccountSetMemberByExternalId.isPast after)
  let memberSets := (tables.memberSetsByExternalId accountSetId).filter
    (AccountSetMemberByExternalId.isPast after)
  let rows :=
    limitedUnion scan AccountSetMemberByExternalId.order (first + 1) memberAccounts memberSets
  probedPage AccountSetMemberByExternalId.cursor rows first

/-- The pages by external id come to an end and give every member once, in order. -/
def CompleteByExternalId (scan : IterationOrder AccountSetMemberByExternalId) (first : ℕ) : Prop :=
  CompleteListing (tables.listByExternalIdInOp accountSetId scan first)
    AccountSetMemberByExternalId.order
    (tables.memberAccountsByExternalId accountSetId ++ tables.memberSetsByExternalId accountSetId)

end DatedMembershipTables

/-! ## What the cursors say -/

theorem AccountSetMember.isPast_cursor {row other : AccountSetMember}
    (h : AccountSetMember.isPast (some row.cursor) other = true) : row.order < other.order := by
  simp only [isPast, Option.all_some, decide_eq_true_eq, AccountSetMember.cursor,
    Prod.Lex.toLex_lt_toLex] at h
  simp only [order, Prod.Lex.toLex_lt_toLex, OrderDual.toDual_lt_toDual,
    EmbeddingLike.apply_eq_iff_eq]
  rcases h with hlt | ⟨heq, hlt⟩
  · exact Or.inl hlt
  · exact Or.inr ⟨heq.symm, hlt⟩

/-- Past a cursor without an external id is every row; with one, the rows behind it. -/
theorem AccountSetMemberByExternalId.isPast_cursor (row : AccountSetMemberByExternalId) :
    (∀ other, isPast (some row.cursor) other = true)
      ∨ ∀ other, isPast (some row.cursor) other = true → row.order < other.order := by
  obtain ⟨id, _ | externalId⟩ := row
  · exact Or.inl (fun other => rfl)
  · refine Or.inr (fun other h => ?_)
    obtain ⟨otherId, _ | own⟩ := other
    · exact Prod.Lex.toLex_lt_toLex.mpr (Or.inl (WithTop.coe_lt_top externalId))
    · simp only [isPast, cursor, Option.bind_some, Option.any_some, Bool.or_eq_true,
        Bool.and_eq_true, decide_eq_true_eq] at h
      rcases h with hlt | ⟨rfl, hlt⟩
      · exact Prod.Lex.toLex_lt_toLex.mpr (Or.inl (WithTop.coe_lt_coe.mpr hlt))
      · exact Prod.Lex.toLex_lt_toLex.mpr (Or.inr ⟨rfl, hlt⟩)

/-! ## Complete listings -/

namespace DatedMembershipTables

variable {tables : DatedMembershipTables} {accountSetId : AccountSetId} {first : ℕ}

variable (tables accountSetId) in
theorem length_byCreatedAt : (tables.memberAccountsByCreatedAt accountSetId
    ++ tables.memberSetsByCreatedAt accountSetId).length = tables.memberCount accountSetId := by
  rw [List.length_append, memberAccountsByCreatedAt, memberSetsByCreatedAt, List.length_map,
    List.length_map, memberCount]

variable (tables accountSetId) in
theorem length_byExternalId : (tables.memberAccountsByExternalId accountSetId
    ++ tables.memberSetsByExternalId accountSetId).length = tables.memberCount accountSetId := by
  rw [List.length_append, memberAccountsByExternalId, memberSetsByExternalId, List.length_map,
    List.length_map, memberCount]

theorem completeByCreatedAt_iff (scan : IterationOrder AccountSetMember) :
    tables.CompleteByCreatedAt accountSetId scan first
      ↔ tables.memberCount accountSetId ≤ first := by
  have hnodup : (tables.memberAccountsByCreatedAt accountSetId
      ++ tables.memberSetsByCreatedAt accountSetId).Nodup :=
    nodup_members (·.id) (fun _ => rfl) (fun _ => rfl)
  refine (complete_iff hnodup (fun _ => rfl)
    (fun row => Or.inr (fun other => AccountSetMember.isPast_cursor))).trans ?_
  rw [length_byCreatedAt]

theorem completeByExternalId_iff (scan : IterationOrder AccountSetMemberByExternalId) :
    tables.CompleteByExternalId accountSetId scan first
      ↔ tables.memberCount accountSetId ≤ first := by
  have hnodup : (tables.memberAccountsByExternalId accountSetId
      ++ tables.memberSetsByExternalId accountSetId).Nodup :=
    nodup_members (·.id) (fun _ => rfl) (fun _ => rfl)
  refine (complete_iff hnodup (fun _ => rfl)
    AccountSetMemberByExternalId.isPast_cursor).trans ?_
  rw [length_byExternalId]

end DatedMembershipTables

/-- **Both member listings are complete exactly when the members fit one page.** -/
theorem member_listing_complete_iff (tables : DatedMembershipTables) (accountSetId : AccountSetId)
    (scan : IterationOrder AccountSetMember)
    (scan' : IterationOrder AccountSetMemberByExternalId) (first : ℕ) :
    (tables.CompleteByCreatedAt accountSetId scan first
        ↔ tables.memberCount accountSetId ≤ first)
      ∧ (tables.CompleteByExternalId accountSetId scan' first
        ↔ tables.memberCount accountSetId ≤ first) :=
  ⟨DatedMembershipTables.completeByCreatedAt_iff scan,
    DatedMembershipTables.completeByExternalId_iff scan'⟩

namespace DatedMembershipTables

/-- One set with an account and a set as members, both without an external id. -/
def twoMembers : DatedMembershipTables where
  memberAccounts := [⟨⟨1⟩, ⟨10⟩, 5⟩]
  memberAccountSets := [⟨⟨1⟩, ⟨2⟩, 7⟩]
  accountExternalIds := ∅
  accountSetExternalIds := ∅
  unique_accounts := by decide
  unique_accountSets := by decide

end DatedMembershipTables

/-- The member fetched after the first is on no page of size one. -/
theorem member_listing_skips_probe :
    ¬ (DatedMembershipTables.twoMembers.CompleteByCreatedAt ⟨1⟩ (.asStored _) 1
      ∨ DatedMembershipTables.twoMembers.CompleteByExternalId ⟨1⟩ (.asStored _) 1) := by
  rw [DatedMembershipTables.completeByCreatedAt_iff,
    DatedMembershipTables.completeByExternalId_iff, or_self]
  decide

namespace DatedMembershipTables

/-- **Without external ids a listing of more than one page never ends.** -/
theorem byExternalId_endless {tables : DatedMembershipTables} {accountSetId : AccountSetId}
    {first : ℕ} (scan : IterationOrder AccountSetMemberByExternalId)
    (hnone : ∀ member ∈ tables.memberAccountsByExternalId accountSetId
      ++ tables.memberSetsByExternalId accountSetId, member.externalId = none)
    (hmore : first < tables.memberCount accountSetId)
    {out : List AccountSetMemberByExternalId} :
    ¬ ReadBy (tables.listByExternalIdInOp accountSetId scan first) none out := by
  have hnodup : (tables.memberAccountsByExternalId accountSetId
      ++ tables.memberSetsByExternalId accountSetId).Nodup :=
    nodup_members (·.id) (fun _ => rfl) (fun _ => rfl)
  apply not_readBy_of_restart hnodup (fun _ => rfl)
  · rw [length_byExternalId]
    exact hmore
  · intro member hmember other
    rw [AccountSetMemberByExternalId.cursor, hnone member hmember]
    rfl

end DatedMembershipTables

end CalaLedger
