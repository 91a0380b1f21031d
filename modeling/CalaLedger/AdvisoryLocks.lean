import CalaLedger.Foundations.LockTable
import CalaLedger.Velocity.Balance

/-! # Advisory locks

The keys the ledger takes advisory locks on, and what Postgres identifies them by: a class and a
32-bit hash for the two-argument locks, the hash alone for the balance and velocity locks. -/

namespace CalaLedger

open Foundations (LockMode LockRequest)

/-- The class of the attach fence. -/
def EC_SET_LOCK_CLASS : ℕ := 1

/-- The class of the lock on a member. -/
def MEMBER_LOCK_CLASS : ℕ := 2

/-- The class of the lock on the membership graph. -/
def GRAPH_LOCK_CLASS : ℕ := 3

/-- The key of the lock on the membership graph. -/
def ADDVISORY_LOCK_ID : BitVec 32 := 123456

/-- What a lock is taken on. -/
inductive LockKey
  /-- the attach fence of an account -/
  | fence (accountId : AccountId)
  | member (accountId : AccountId)
  | graph
  | balance (key : BalanceKey)
  | velocity (key : VelocityBalanceKey)
  deriving DecidableEq

/-- What Postgres identifies a lock by. The two forms are different lock spaces. -/
inductive LockTag
  | twoArgument (lockClass : ℕ) (key : BitVec 32)
  | oneArgument (key : BitVec 32)
  deriving DecidableEq

/-- The lock of a key, by the hash of the key's text. -/
def LockKey.tag (hashtext : LockKey → BitVec 32) : LockKey → LockTag
  | fence accountId => .twoArgument EC_SET_LOCK_CLASS (hashtext (fence accountId))
  | member accountId => .twoArgument MEMBER_LOCK_CLASS (hashtext (member accountId))
  | graph => .twoArgument GRAPH_LOCK_CLASS ADDVISORY_LOCK_ID
  | balance key => .oneArgument (hashtext (balance key))
  | velocity key => .oneArgument (hashtext (velocity key))

/-- A lock statement's request. -/
abbrev AdvisoryLock := LockRequest LockKey

/-- `pg_advisory_xact_lock_shared`. -/
def lockShared (key : LockKey) : AdvisoryLock := ⟨key, .shared⟩

/-- `pg_advisory_xact_lock`. -/
def lockExclusive (key : LockKey) : AdvisoryLock := ⟨key, .exclusive⟩

/-- The request Postgres sees. -/
def AdvisoryLock.hashed (hashtext : LockKey → BitVec 32) (request : AdvisoryLock) :
    LockRequest LockTag :=
  ⟨request.lock.tag hashtext, request.mode⟩

end CalaLedger
