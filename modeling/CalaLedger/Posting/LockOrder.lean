import CalaLedger.Posting.OpenOperation
import Mathlib.Data.Sum.Order

/-! # The lock order of the posting flow

The locks a posting batch requests, in the order of its statements, ascend in one rank of all
advisory locks (`Postings.orders_postBatchInOp`): the fence by account, currency and journal, then
the ancestors by journal, set and currency, then the velocity balances. The fence takes keys of
accounts and the ancestors are sets, so the rank tells the two apart as long as no batch has an
entry on the account behind a set whose balances are written inline. -/

namespace CalaLedger

open Foundations (Dialogue Server LockRequest)
open Foundations.LockTable (Ascending ascending_nil ascending_of_pairwise)

/-! ## Ranks -/

/-- The ranks, phase by phase: fence, ancestors, velocity, membership. -/
abbrev LockRank : Type :=
  (AccountId ×ₗ WithBot (String ×ₗ JournalId))
    ⊕ₗ ((JournalId ×ₗ (AccountSetId ×ₗ String))
      ⊕ₗ ((AccountId ×ₗ (VelocityControlId ×ₗ (VelocityLimitId ×ₗ
        (String ×ₗ (JournalId ×ₗ String)))))
        ⊕ₗ WithBot AccountId))

namespace LockRank

/-- The rank of the fence of an account. -/
def fence (accountId : AccountId) : LockRank := Sum.inlₗ (toLex (accountId, ⊥))

/-- The rank of an entry balance. -/
def entry (key : BalanceKey) : LockRank :=
  Sum.inlₗ (toLex (key.accountId, WithBot.some (toLex (key.currency.code, key.journalId))))

/-- The rank of the balance of a set. -/
def ancestor (journalId : JournalId) (pair : AccountSetId × Currency) : LockRank :=
  Sum.inrₗ (Sum.inlₗ (toLex (journalId, SetGraphCache.pairOrder pair)))

def velocity (display : JsonDisplay) (key : VelocityBalanceKey) : LockRank :=
  Sum.inrₗ (Sum.inrₗ (Sum.inlₗ (key.lockOrder display)))

def graph : LockRank := Sum.inrₗ (Sum.inrₗ (Sum.inrₗ ⊥))

def member (accountId : AccountId) : LockRank :=
  Sum.inrₗ (Sum.inrₗ (Sum.inrₗ (WithBot.some accountId)))

theorem fence_lt_fence {accountId accountId' : AccountId} :
    fence accountId < fence accountId' ↔ accountId < accountId' := by
  rw [fence, fence, Sum.Lex.inl_lt_inl_iff, Prod.Lex.toLex_lt_toLex]
  simp

theorem fence_lt_entry {accountId : AccountId} {key : BalanceKey}
    (h : accountId ≤ key.accountId) : fence accountId < entry key := by
  rw [fence, entry, Sum.Lex.inl_lt_inl_iff, Prod.Lex.toLex_lt_toLex]
  rcases h.lt_or_eq with hlt | heq
  · exact Or.inl hlt
  · exact Or.inr ⟨heq, WithBot.bot_lt_coe _⟩

theorem entry_lt_fence {accountId : AccountId} {key : BalanceKey}
    (h : key.accountId < accountId) : entry key < fence accountId := by
  rw [fence, entry, Sum.Lex.inl_lt_inl_iff, Prod.Lex.toLex_lt_toLex]
  exact Or.inl h

theorem entry_lt_entry {key key' : BalanceKey} :
    entry key < entry key' ↔ key.lockOrder < key'.lockOrder := by
  rw [entry, entry, Sum.Lex.inl_lt_inl_iff, BalanceKey.lockOrder, BalanceKey.lockOrder,
    Prod.Lex.toLex_lt_toLex, Prod.Lex.toLex_lt_toLex, WithBot.coe_lt_coe]

theorem ancestor_lt_ancestor {journalId journalId' : JournalId}
    {pair pair' : AccountSetId × Currency} :
    ancestor journalId pair < ancestor journalId' pair'
      ↔ journalId < journalId' ∨ journalId = journalId'
        ∧ SetGraphCache.pairOrder pair < SetGraphCache.pairOrder pair' := by
  rw [ancestor, ancestor, Sum.Lex.inr_lt_inr_iff, Sum.Lex.inl_lt_inl_iff, Prod.Lex.toLex_lt_toLex]

theorem velocity_lt_velocity {display : JsonDisplay} {key key' : VelocityBalanceKey} :
    velocity display key < velocity display key'
      ↔ key.lockOrder display < key'.lockOrder display := by
  rw [velocity, velocity, Sum.Lex.inr_lt_inr_iff, Sum.Lex.inr_lt_inr_iff, Sum.Lex.inl_lt_inl_iff]

end LockRank

open Classical in
/-- The rank of a lock, given which accounts are behind sets. -/
noncomputable def LockKey.rank (display : JsonDisplay) (sets : AccountSetId → Prop) :
    LockKey → LockRank
  | fence accountId => LockRank.fence accountId
  | balance key =>
      if sets ⟨key.accountId.uuid⟩ then
        LockRank.ancestor key.journalId (⟨key.accountId.uuid⟩, key.currency)
      else
        LockRank.entry key
  | velocity key => LockRank.velocity display key
  | graph => LockRank.graph
  | member accountId => LockRank.member accountId

/-- The account is behind none of the sets. -/
def BehindNoSet (sets : AccountSetId → Prop) (accountId : AccountId) : Prop :=
  ∀ setId, sets setId → accountId ≠ AccountId.ofSet setId

section Statements

variable (display : JsonDisplay) (sets : AccountSetId → Prop)

theorem rank_entry {key : BalanceKey} (h : BehindNoSet sets key.accountId) :
    LockKey.rank display sets (.balance key) = LockRank.entry key :=
  if_neg (fun hset => h _ hset rfl)

theorem rank_ancestor {journalId : JournalId} {pair : AccountSetId × Currency} (h : sets pair.1) :
    LockKey.rank display sets (PostingStatement.ancestorLock journalId pair).lock
      = LockRank.ancestor journalId pair :=
  if_pos h

variable {display sets}

/-- The fence of a row requests no other account and nothing that ranks above its balance. -/
theorem rank_of_mem_fenceLocks (display : JsonDisplay) {accounts : AccountTable}
    {key : BalanceKey} {own : AdvisoryLock} (hkey : BehindNoSet sets key.accountId)
    (h : own ∈ PostingStatement.fenceLocks accounts key) :
    own.lock.rank display sets = LockRank.fence key.accountId
      ∨ own.lock.rank display sets = LockRank.entry key := by
  unfold PostingStatement.fenceLocks at h
  split at h
  · exact absurd h List.not_mem_nil
  · rcases List.mem_cons.mp h with rfl | h
    · exact Or.inl rfl
    · split at h
      · exact absurd h List.not_mem_nil
      · rw [List.mem_singleton.mp h]
        exact Or.inr (rank_entry display sets hkey)

/-- **The fence ascends.** An account's own lock comes with its first row. -/
theorem ascending_fence (accounts : AccountTable) {keys : List BalanceKey}
    (hsorted : keys.Pairwise (fun a b => a.lockOrder < b.lockOrder))
    (hkeys : ∀ key ∈ keys, BehindNoSet sets key.accountId) :
    Ascending (LockKey.rank display sets)
      (keys.flatMap (PostingStatement.fenceLocks accounts)) := by
  induction keys using List.reverseRecOn with
  | nil => exact ascending_nil
  | append_singleton keys key ih =>
      obtain ⟨hkeys', -, hbelow⟩ := List.pairwise_append.mp hsorted
      have hkey := hkeys key (List.mem_append_right _ (List.mem_singleton_self key))
      have hrest := ih hkeys' (fun other hother => hkeys other (List.mem_append_left _ hother))
      -- earlier rows are of earlier accounts, or of the same one
      have hearlier : ∀ other ∈ keys, BehindNoSet sets other.accountId
          ∧ other.accountId ≤ key.accountId ∧ LockRank.entry other < LockRank.entry key := by
        intro other hother
        have hlt := hbelow other hother key (List.mem_singleton_self key)
        refine ⟨hkeys other (List.mem_append_left _ hother), ?_, LockRank.entry_lt_entry.mpr hlt⟩
        rcases Prod.Lex.toLex_lt_toLex.mp hlt with hlt | ⟨heq, -⟩
        · exact hlt.le
        · exact heq.le
      rw [List.flatMap_append, List.flatMap_singleton]
      cases hrow : accounts key.accountId with
      | none =>
          have hnone : PostingStatement.fenceLocks accounts key = [] := by
            rw [PostingStatement.fenceLocks, hrow]
          rw [hnone, List.append_nil]
          exact hrest
      | some row =>
          have hsome : PostingStatement.fenceLocks accounts key
              = lockShared (.fence key.accountId)
                :: if row.eventuallyConsistent then [] else [lockExclusive (.balance key)] := by
            rw [PostingStatement.fenceLocks, hrow]
          have hfence : Ascending (LockKey.rank display sets)
              (keys.flatMap (PostingStatement.fenceLocks accounts)
                ++ [lockShared (.fence key.accountId)]) := by
            refine hrest.concat ?_
            by_cases hsame : ∃ other ∈ keys, other.accountId = key.accountId
            · obtain ⟨other, hother, heq⟩ := hsame
              refine Or.inl ⟨lockShared (.fence other.accountId), ?_, ?_⟩
              · refine List.mem_flatMap.mpr ⟨other, hother, ?_⟩
                rw [PostingStatement.fenceLocks, heq, hrow]
                exact List.mem_cons_self
              · exact ⟨congrArg LockKey.fence heq, Or.inr rfl⟩
            · refine Or.inr (fun own hown => ?_)
              obtain ⟨other, hother, hmem⟩ := List.mem_flatMap.mp hown
              obtain ⟨hnone, hle, -⟩ := hearlier other hother
              have hlt := lt_of_le_of_ne hle (fun heq => hsame ⟨other, hother, heq⟩)
              show own.lock.rank display sets < LockRank.fence key.accountId
              rcases rank_of_mem_fenceLocks display hnone hmem with hrank | hrank
              · rw [hrank]
                exact LockRank.fence_lt_fence.mpr hlt
              · rw [hrank]
                exact LockRank.entry_lt_fence hlt
          rw [hsome]
          split
          · exact hfence
          · have hsplit : keys.flatMap (PostingStatement.fenceLocks accounts)
                  ++ [lockShared (.fence key.accountId), lockExclusive (.balance key)]
                = (keys.flatMap (PostingStatement.fenceLocks accounts)
                  ++ [lockShared (.fence key.accountId)]) ++ [lockExclusive (.balance key)] := by
              rw [List.append_assoc]
              rfl
            rw [hsplit]
            refine hfence.concat (Or.inr (fun own hown => ?_))
            · show own.lock.rank display sets < LockKey.rank display sets (.balance key)
              rw [rank_entry display sets hkey]
              rcases List.mem_append.mp hown with hown | hown
              · obtain ⟨other, hother, hmem⟩ := List.mem_flatMap.mp hown
                obtain ⟨hnone, hle, hlt⟩ := hearlier other hother
                rcases rank_of_mem_fenceLocks display hnone hmem with hrank | hrank
                · rw [hrank]
                  exact LockRank.fence_lt_entry hle
                · rw [hrank]
                  exact hlt
              · rw [List.mem_singleton.mp hown]
                exact LockRank.fence_lt_entry le_rfl

/-- The ancestors of one journal ascend. -/
theorem ascending_ancestors (journalId : JournalId) {pairs : List (AccountSetId × Currency)}
    (hsorted : pairs.Pairwise (fun a b => SetGraphCache.pairOrder a < SetGraphCache.pairOrder b))
    (hsets : ∀ pair ∈ pairs, sets pair.1) :
    Ascending (LockKey.rank display sets)
      (pairs.map (PostingStatement.ancestorLock journalId)) := by
  refine ascending_of_pairwise (List.pairwise_map.mpr ?_)
  refine hsorted.imp_of_mem (fun {a b} ha hb hlt => ?_)
  rw [rank_ancestor display sets (hsets a ha), rank_ancestor display sets (hsets b hb)]
  exact LockRank.ancestor_lt_ancestor.mpr (Or.inr ⟨rfl, hlt⟩)

theorem ascending_velocity {keys : List VelocityBalanceKey}
    (hsorted : keys.Pairwise (fun a b => a.lockOrder display < b.lockOrder display)) :
    Ascending (LockKey.rank display sets)
      (keys.map (fun key => lockExclusive (.velocity key))) := by
  refine ascending_of_pairwise (List.pairwise_map.mpr ?_)
  exact hsorted.imp (fun hlt => LockRank.velocity_lt_velocity.mpr hlt)

end Statements

/-! ## Scopes -/

/-- What is settled while a batch posts: how windows are displayed, which account sets are written
inline, and the templates of the batch's codes. -/
structure LockScope where
  display : JsonDisplay
  sets : AccountSetId → Prop
  templates : String → Option TxTemplateValues
  codes : List String

namespace LockScope

variable (scope : LockScope)

noncomputable def rank : LockKey → LockRank := LockKey.rank scope.display scope.sets

/-- The ledger has no other account sets that are written inline, and no other template under a code
of the batch. -/
structure Settled (db : LedgerDb) : Prop where
  templates : ∀ code ∈ scope.codes, db.templates code = scope.templates code
  sets : ∀ setId journalId, db.memberships.accountSets setId = some journalId →
    db.accounts.consistency false (AccountId.ofSet setId) → scope.sets setId

/-- Other operations leave it so. -/
def rely (_ db : LedgerDb) : Prop := scope.Settled db

/-- What the operation has locked ascends, below every rank still to come. -/
structure Ordered (upcoming : LockRank → Prop) (session : PostingSession) : Prop where
  settled : scope.Settled session.committed
  ascending : Ascending scope.rank session.locks
  below : ∀ own ∈ session.locks, ∀ rank, upcoming rank → scope.rank own.lock < rank

/-- What is locked behind the fence: balances of sets in some journals, then velocity balances. -/
def Upcoming (journals : JournalId → Prop) (rank : LockRank) : Prop :=
  (∃ journalId pair, journals journalId ∧ rank = LockRank.ancestor journalId pair)
    ∨ ∃ key, rank = LockRank.velocity scope.display key

/-- Begun where what comes is `before`, a part of the flow leaves `after` to come, with a fact of
its result. -/
def Orders {α : Type} (before : LockRank → Prop) (d : PostingFlow α) (after : LockRank → Prop)
    (fact : α → Prop) : Prop :=
  (PostingSession.server scope.rely).Triple (scope.Ordered before) d
    (fun a session => fact a ∧ scope.Ordered after session) (scope.Ordered fun _ => False)

variable {scope} {before after : LockRank → Prop} {α β : Type}

theorem Ordered.weaken {session : PostingSession} (h : scope.Ordered before session)
    (hweaker : ∀ rank, after rank → before rank) : scope.Ordered after session :=
  ⟨h.settled, h.ascending, fun own hown rank hrank => h.below own hown rank (hweaker rank hrank)⟩

theorem Ordered.exit {session : PostingSession} (h : scope.Ordered before session) :
    scope.Ordered (fun _ => False) session :=
  h.weaken (fun _ => False.elim)

theorem stable_ordered : (PostingSession.server scope.rely).Stable (scope.Ordered before) := by
  rintro session session' ⟨-, hlocks, hsettled⟩ h
  exact ⟨hsettled, hlocks ▸ h.ascending, hlocks ▸ h.below⟩

theorem Settled.view {session : PostingSession} (h : scope.Settled session.committed)
    {db : LedgerDb} (hview : session.view = some db) : scope.Settled db := by
  obtain ⟨hdirectory, htemplates, -⟩ := PostingSession.kept_of_view hview
  have hmemberships : db.memberships = session.committed.memberships :=
    congrArg LedgerDirectory.memberships hdirectory
  have haccounts : db.accounts = session.committed.accounts :=
    congrArg LedgerDirectory.accounts hdirectory
  refine ⟨htemplates ▸ h.templates, fun setId journalId hset hmode => ?_⟩
  rw [hmemberships] at hset
  rw [haccounts] at hmode
  exact h.sets setId journalId hset hmode

/-! ## Rules -/

theorem Orders.bind {mid : LockRank → Prop} {d : PostingFlow β} {f : β → PostingFlow α}
    {fact : α → Prop} {fact' : β → Prop} (h : scope.Orders before d mid fact')
    (hf : ∀ b, fact' b → scope.Orders mid (f b) after fact) :
    scope.Orders before (d.bind f) after fact :=
  Server.Triple.bind h (fun b _ _ _ _ hrun hworld => hf b hworld.1 hrun hworld.2)

theorem Orders.done {result : Except PostingError α} {fact : α → Prop}
    (hfact : ∀ a, result = .ok a → fact a) :
    scope.Orders before (.done result) before fact :=
  Server.Triple.done stable_ordered (fun a ha _ h => ⟨hfact a ha, h⟩) (fun _ => Ordered.exit)

/-- A computation without a statement, whose result does not matter. -/
theorem Orders.compute (result : Except PostingError α) :
    scope.Orders before (.done result) before (fun _ => True) :=
  Orders.done (fun _ _ => trivial)

theorem Orders.weaken {d : PostingFlow α} {mid : LockRank → Prop} {fact fact' : α → Prop}
    (h : scope.Orders before d mid fact) (hweaker : ∀ rank, after rank → mid rank)
    (hfact : ∀ a, fact a → fact' a) : scope.Orders before d after fact' :=
  Server.Triple.weaken h (fun _ => id)
    (fun a _ hpost => ⟨hfact a hpost.1, hpost.2.weaken hweaker⟩) (fun _ => id)

/-- More may be to come before. -/
theorem Orders.wider {d : PostingFlow α} {wide : LockRank → Prop} {fact : α → Prop}
    (h : scope.Orders before d after fact) (hwider : ∀ rank, before rank → wide rank) :
    scope.Orders wide d after fact :=
  Server.Triple.weaken h (fun _ hworld => hworld.weaken hwider) (fun _ _ => id) (fun _ => id)

/-- **A lock statement**: its locks ascend, were to come, and are below what comes after. -/
theorem Orders.issue {statement : PostingStatement} {fact : statement.Answer → Prop}
    (hascending : ∀ db, scope.Settled db → Ascending scope.rank (statement.lockRequests db))
    (hbefore : ∀ db, scope.Settled db → ∀ own ∈ statement.lockRequests db,
      before (scope.rank own.lock))
    (hafter : ∀ db, scope.Settled db → ∀ own ∈ statement.lockRequests db, ∀ rank, after rank →
      scope.rank own.lock < rank)
    (hweaker : ∀ rank, after rank → before rank)
    (hfact : ∀ order now db, scope.Settled db → fact (statement.answer order now db)) :
    scope.Orders before (Postings.issue statement) after fact := by
  refine Server.Triple.ask stable_ordered (fun answer => ?_) (fun _ => Ordered.exit) ?_
  · rintro session session' hothers ⟨hfact, hordered⟩
    exact ⟨hfact, stable_ordered hothers hordered⟩
  · rintro session answer session' ⟨order, now, db, hview, -, rfl, rfl⟩ hordered
    have hsettled := hordered.settled.view hview
    refine ⟨hfact order now db hsettled, hordered.settled, ?_, ?_⟩
    · refine hordered.ascending.append (hascending db hsettled) ?_
      intro own hown request hrequest
      exact hordered.below own hown _ (hbefore db hsettled request hrequest)
    · intro own hown rank hrank
      rcases List.mem_append.mp hown with hown | hown
      · exact hordered.below own hown rank (hweaker rank hrank)
      · exact hafter db hsettled own hown rank hrank

/-- A statement that locks nothing. -/
theorem Orders.read {statement : PostingStatement} {fact : statement.Answer → Prop}
    (hlocks : ∀ db, statement.lockRequests db = [])
    (hfact : ∀ order now db, scope.Settled db → fact (statement.answer order now db)) :
    scope.Orders before (Postings.issue statement) before fact := by
  refine Orders.issue (fun db _ => ?_) (fun db _ => ?_) (fun db _ => ?_) (fun _ => id) hfact
  · rw [hlocks]
    exact ascending_nil
  · rw [hlocks]
    exact fun _ h => absurd h List.not_mem_nil
  · rw [hlocks]
    exact fun _ h => absurd h List.not_mem_nil

/-- A statement that locks nothing and whose answer does not matter. -/
theorem Orders.write {statement : PostingStatement}
    (hlocks : ∀ db, statement.lockRequests db = []) :
    scope.Orders before (Postings.issue statement) before (fun _ => True) :=
  Orders.read hlocks (fun _ _ _ _ => trivial)

theorem Orders.forEach {f : β → PostingFlow Unit}
    (h : ∀ b, scope.Orders before (f b) before (fun _ => True)) (bs : List β) :
    scope.Orders before (Dialogue.forEach f bs) before (fun _ => True) := by
  induction bs with
  | nil => exact Orders.done (fun _ _ => trivial)
  | cons b bs ih => exact (h b).bind (fun _ _ => ih)

theorem Orders.expect (value : Option α) :
    scope.Orders before (Dialogue.expect value) before (fun _ => True) :=
  Server.Triple.expect stable_ordered (fun _ => Ordered.exit) value
    (fun _ _ _ h => ⟨trivial, h⟩)

end LockScope

end CalaLedger
