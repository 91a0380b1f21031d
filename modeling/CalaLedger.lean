import CalaLedger.Account.Projection
import CalaLedger.AccountSet.DoubleMembership
import CalaLedger.AccountSet.MemberListing
import CalaLedger.AccountSet.ConcurrentMemberships
import CalaLedger.AccountSet.MembershipOutbox
import CalaLedger.AccountSet.ScopedValidation
import CalaLedger.Balance.CurrentRows
import CalaLedger.Balance.EffectiveListings
import CalaLedger.Balance.FoldLaw
import CalaLedger.DoubleEntry
import CalaLedger.EntryListing
import CalaLedger.EntryTotals
import CalaLedger.EcRollup.LockedAccounts
import CalaLedger.EcRollup.TwoFolds
import CalaLedger.Posting.Sessions
import CalaLedger.Posting.Rejection
import CalaLedger.Posting.CachedResolution
import CalaLedger.Posting.Serializable
import CalaLedger.Posting.TemplateCache
import CalaLedger.Posting.VelocityLimits
import CalaLedger.HashCollisions
import CalaLedger.JsonValues
import CalaLedger.Param
