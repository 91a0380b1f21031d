import CalaLedger.AccountSet.Membership
import CalaLedger.AdvisoryLocks
import CalaLedger.Foundations.StableSort

/-! # The locks of membership operations

The advisory locks of `AccountSets::add_member`, `add_members`, `add_member_sets` and
`remove_member` and of the creation of accounts inside a set, in the order of their statements. An
operation that returns early has requested a beginning of them. -/

namespace CalaLedger

/-- `AccountSetMemberId`. -/
inductive AccountSetMemberId
  | account (accountId : AccountId)
  | accountSet (accountSetId : AccountSetId)
  deriving DecidableEq, Repr

/-- The account a member is, or is backed by. -/
def AccountSetMemberId.memberId : AccountSetMemberId → AccountId
  | account accountId => accountId
  | accountSet accountSetId => AccountId.ofSet accountSetId

/-! ## Statements -/

namespace MembershipLocks

/-- `BalanceRepo::member_has_balance_history_in_op`. -/
def memberHasBalanceHistory (memberId : AccountId) : List AdvisoryLock :=
  [lockExclusive (.fence memberId)]

/-- `BalanceRepo::members_with_balance_history_in_op`. -/
def membersWithBalanceHistory (memberIds : List AccountId) : List AdvisoryLock :=
  (Foundations.sortBy id memberIds).map (fun memberId => lockExclusive (.fence memberId))

/-- `AccountSetRepo::lock_graph_shared_in_op`. -/
def lockGraphShared : List AdvisoryLock := [lockShared .graph]

/-- `AccountSetRepo::lock_for_set_membership_op`, and the lock of `remove_member_set`. -/
def lockForSetMembership : List AdvisoryLock := [lockExclusive .graph]

/-- `AccountSetMemberRepo::lock_members_in_op`. -/
def lockMembers (accountIds : List AccountId) : List AdvisoryLock :=
  (Foundations.sortBy id accountIds.dedup).map (fun accountId => lockExclusive (.member accountId))

/-- `AccountSetMemberRepo::attach_new_accounts_in_op`. -/
def attachNewAccounts (pairs : List AccountMembership) : List AdvisoryLock :=
  (Foundations.sortBy id (pairs.map AccountMembership.accountId)).map
    (fun accountId => lockExclusive (.member accountId))

end MembershipLocks

/-! ## Operations -/

/-- An operation on the members of sets. -/
inductive MembershipOp
  | addMember (accountSetId : AccountSetId) (member : AccountSetMemberId)
  | addMembers (members : List AccountMembership)
  | addMemberSets (members : List SetMembership)
  | removeMember (accountSetId : AccountSetId) (member : AccountSetMemberId)
  /-- accounts created with an `initial_account_set` -/
  | createAccounts (pairs : List AccountMembership)

namespace MembershipOp

open MembershipLocks

/-- The locks behind the history check of `add_member` and `remove_member`. -/
def memberLocks : AccountSetMemberId → List AdvisoryLock
  | .account accountId => lockGraphShared ++ lockMembers [accountId]
  | .accountSet _ => lockForSetMembership

/-- The locks an operation requests, in order. -/
def lockRequests : MembershipOp → List AdvisoryLock
  | addMember _ member => memberHasBalanceHistory member.memberId ++ memberLocks member
  | addMembers members =>
      if members = [] then
        []
      else
        membersWithBalanceHistory (members.map AccountMembership.accountId) ++ lockGraphShared
          ++ lockMembers (members.map AccountMembership.accountId)
  | addMemberSets members =>
      if members = [] then
        []
      else
        membersWithBalanceHistory (members.map (fun edge =>
          AccountId.ofSet edge.memberAccountSetId)) ++ lockForSetMembership
  | removeMember _ member => memberHasBalanceHistory member.memberId ++ memberLocks member
  | createAccounts pairs => attachNewAccounts pairs

end MembershipOp

end CalaLedger
