import DigitalBits.Lib.Computation
import DigitalBits.Ledger.Types

/-!
# What an operation sees of a ledger transaction

An `AbstractLedgerTxn` gives the newest version of each entry and the header.
An entry that was loaded is active until the object that refers to it goes out
of scope; loading it a second time meanwhile is an error. A nested transaction
starts from what its parent shows and deactivates the parent's entries; it is
committed, or rolled back when it is left in another way.
-/
namespace DigitalBits.Ledger

/-- The exceptions thrown, by their text. -/
inductive RuntimeError where
  | keyIsActive
  | keyAlreadyExists
  | keyDoesNotExist
  | entryNotActive
  | activeEntriesWhenGettingBestOffer
  | expectedAccountEntryExtensionV2
  | expectedLedgerEntryExtensionV1
  | invalidAuthorization
  | buyingAndSellingSameAsset
  | accountDoesNotExist
  | trustlineDoesNotExist
  | couldNotAddBuyingLiabilities
  | couldNotAddSellingLiabilities
  | liabilitiesBeforeVersion10
  | offerLiabilitiesBeforeVersion10
  | unexpectedSponsorshipState
  | unexpectedAccountState
  | invalidTrustLineFlag
  | trustlineForNativeAsset
  | trustLineWrapperNotActive
  | insufficientNumSponsoring
  | insufficientNumSponsored
  | sponsorshipDoesntMatch
  | unknownLedgerEntryType
  | sponsorshipBeforeVersion14
  | sponsoringSponsoredEntry
  | removingSponsorshipOnUnsponsoredEntry
  | transferringSponsorshipOnUnsponsoredEntry
  | badSignerSponsorship
  | invalidAccountState
  | invalidSponsoringAccountState
  | invalidSponsoredAccount
  | invalidSponsoredAccountState
  | sponsoringIDIsSourceAccount
  | outOfRange
  | unexpectedCreateEntryResult
  | unexpectedCreateSignerResult
  | unexpectedEstablishResult
  | unexpectedPathPaymentResult
  | wheatReceiveOutOfBounds
  | sheepSendOutOfBounds
  | favoredSheepWhenWheatStays
  | favoredWheatWhenSheepStays
  | exceededPriceErrorBound
  | invalidAmountOfSheepSent
  | bigDivideOverflow
  | offerMustHaveMatchingAccount
  | overflowedSheepBalance
  | overflowedWheatBalance
  | offerClaimedOverLimit
  | offerSoldMoreThanBalance
  | amountTransferredOutOfBounds
  | offerNotOwnedByExpectedAccount
  | offerNotBuyingOrSellingExpectedAsset
  | invalidClaimPredicate
  | createFailed
  | noSponsorshipCounter
  | badSponsorshipCounter
  | unexpectedSponsorshipResult
  | badSignerSponsorships
  | inflationOverflowedDestinationBalance
  | unexpectedSequenceNumber
  | unexpectedDatabaseState
  | feesAccountIsMissing
  | unexpectedFeeAccountState
  | nonCurrentCloseTime
  deriving DecidableEq

/-- How a call can end without returning: an exception that unwinds to a handler, or a
failed assertion that ends the process. `outOfFuel` is no part of the program: it is what a
loop would end with whose bound on the number of rounds was too small. -/
inductive Thrown where
  | exception (e : RuntimeError)
  | assertion
  | outOfFuel
  deriving DecidableEq

/-- The newest versions of the entries, and the header. -/
structure LedgerState where
  entries : AList InternalLedgerKey.Entry
  header : LedgerHeader

/-- A transaction: what it shows, and the keys of its active entries. `counterWrapped` is no
part of the program: it remembers that an unsigned counter went out of its range. -/
structure LedgerTxn extends LedgerState where
  mActive : List InternalLedgerKey := []
  counterWrapped : Bool := false

abbrev LedgerM := EStateM Thrown LedgerTxn

namespace LedgerState

def account (s : LedgerState) (id : AccountID) : Option (LedgerEntry AccountEntry) :=
  s.entries.lookup (accountKey id)

def offer (s : LedgerState) (sellerID : AccountID) (offerID : ℤ) :
    Option (LedgerEntry OfferEntry) :=
  s.entries.lookup (offerKey sellerID offerID)

end LedgerState

/-! ## The functions -/

/-- Throws unless the condition holds. -/
def require (c : Prop) [Decidable c] (e : RuntimeError) : LedgerM Unit :=
  if c then pure () else throw (.exception e)

/-- `assert`. -/
def assert (c : Prop) [Decidable c] : LedgerM Unit :=
  if c then pure () else throw .assertion

/-- The value of a computation that may throw. -/
def lift {α : Type} : Except Thrown α → LedgerM α
  | .ok a => pure a
  | .error e => throw e

/-- A counter of 32 bits after a change; that it left its range is remembered. -/
def counter (n : ℤ) : LedgerM Counter := do
  if n < 0 ∨ (uint32Max : ℤ) < n then
    modify fun s => { s with counterWrapped := true }
  return ⟨(n % 2 ^ 32).toNat, by omega⟩

def loadHeader : LedgerM LedgerHeader := do return (← get).header

def setHeader (header : LedgerHeader) : LedgerM Unit :=
  modify fun s => { s with header := header }

variable (k : InternalLedgerKey)

/-- `LedgerTxn::load`, and `loadWithoutRecord`: they differ in what is recorded. -/
def load : LedgerM (Option k.Entry) := do
  let s ← get
  if k ∈ s.mActive then
    throw (.exception .keyIsActive)
  match s.entries.lookup k with
  | none => return none
  | some e =>
    set { s with mActive := k :: s.mActive }
    return some e

/-- A block with local entry objects, which are deactivated at its end. -/
def block {α : Type} (body : LedgerM α) : LedgerM α := do
  let before := (← get).mActive
  let a ← body
  modify fun s => { s with mActive := s.mActive.filter (· ∈ before) }
  return a

/-- `LedgerTxnEntry::current`. -/
def current : LedgerM k.Entry := do
  let s ← get
  if k ∉ s.mActive then
    throw (.exception .entryNotActive)
  match s.entries.lookup k with
  | none => throw (.exception .entryNotActive)
  | some e => return e

/-- Assignment through `LedgerTxnEntry::current`. -/
def put (e : k.Entry) : LedgerM Unit := do
  let s ← get
  if k ∉ s.mActive then
    throw (.exception .entryNotActive)
  set { s with entries := s.entries.insert k e }

/-- Whether there is such an entry; the object that is loaded to see it is dropped at once. -/
def exists? : LedgerM Bool :=
  block do return (← load k).isSome

/-- A change made in place. -/
def update (f : k.Entry → k.Entry) : LedgerM Unit := do
  put k (f (← current k))

/-- `LedgerTxn::create`. -/
def create (e : k.Entry) : LedgerM Unit := do
  let s ← get
  if (s.entries.lookup k).isSome then
    throw (.exception .keyAlreadyExists)
  set { s with entries := s.entries.insert k e, mActive := k :: s.mActive }

/-- `LedgerTxn::erase`. -/
def erase (k : InternalLedgerKey) : LedgerM Unit := do
  let s ← get
  if (s.entries.lookup k).isNone then
    throw (.exception .keyDoesNotExist)
  set { s with entries := s.entries.erase k, mActive := s.mActive.erase k }

/-- A block with a transaction of its own. The block says whether it was committed. -/
def nested {α : Type} (body : LedgerM (Bool × α)) : LedgerM α := fun s =>
  let opened := { s with mActive := [] }
  match body opened with
  | .ok (true, a) t => .ok a { t with mActive := [] }
  | .ok (false, a) t => .ok a { opened with counterWrapped := t.counterWrapped }
  | .error e t => .error e { opened with counterWrapped := t.counterWrapped }

/-! ## The order book -/

structure OfferDescriptor where
  price : Price
  offerID : ℤ
  deriving DecidableEq

/-- The offers, with their sellers and ids. -/
def LedgerState.offers (s : LedgerState) : List (AccountID × ℤ × LedgerEntry OfferEntry) :=
  s.entries.entries.filterMap fun
    | ⟨.ledgerEntry (.offer sellerID offerID), e⟩ => some (sellerID, offerID, e)
    | _ => none

variable (isBetterOffer : OfferDescriptor → OfferDescriptor → Bool)

/-- The better of two offers. -/
def betterOffer (best : Option (AccountID × ℤ × LedgerEntry OfferEntry))
    (o : AccountID × ℤ × LedgerEntry OfferEntry) :
    Option (AccountID × ℤ × LedgerEntry OfferEntry) :=
  match best with
  | none => some o
  | some b =>
    if isBetterOffer ⟨o.2.2.data.price, o.2.1⟩ ⟨b.2.2.data.price, b.2.1⟩ then some o else some b

/-- `LedgerTxn::getBestOffer`. -/
def LedgerState.getBestOffer (s : LedgerState)
    (isBetterOffer : OfferDescriptor → OfferDescriptor → Bool) (buying selling : Asset) :
    Option (AccountID × ℤ × LedgerEntry OfferEntry) :=
  (s.offers.filter fun o =>
    decide (o.2.2.data.buying = buying ∧ o.2.2.data.selling = selling)).foldl
      (betterOffer isBetterOffer) none

/-- `LedgerTxn::loadBestOffer`. -/
def loadBestOffer (buying selling : Asset) : LedgerM (Option (AccountID × ℤ)) := do
  let s ← get
  if s.mActive ≠ [] then
    throw (.exception .activeEntriesWhenGettingBestOffer)
  match s.getBestOffer isBetterOffer buying selling with
  | none => return none
  | some o =>
    let _ ← load (offerKey o.1 o.2.1)
    return some (o.1, o.2.1)

/-- `LedgerTxn::getOffersByAccountAndAsset`, by offer id. -/
def LedgerState.getOffersByAccountAndAsset (s : LedgerState) (accountID : AccountID)
    (asset : Asset) : List ℤ :=
  s.offers.filterMap fun o =>
    if o.1 = accountID ∧ (o.2.2.data.selling = asset ∨ o.2.2.data.buying = asset)
    then some o.2.1 else none

end DigitalBits.Ledger
