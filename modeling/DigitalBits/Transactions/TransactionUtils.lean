import DigitalBits.Transactions.Exchange

/-!
# Balances, liabilities and reserves

The functions of `TransactionUtils.cpp` and the trust line wrapper. A function
that works on one entry is given as a function of that entry; the version that
the operations call reads and writes the active entry under its key.
-/
namespace DigitalBits.Ledger

/-- `addBalance` of two numbers: the new balance, if it is within its bounds. -/
def addToBalance (balance delta maxBalance : ℤ) : Fallible (Option ℤ) := do
  Fallible.assert (0 ≤ balance)
  Fallible.assert (0 ≤ maxBalance)
  if delta = 0 then
    return some balance
  if delta < -balance then
    return none
  if maxBalance - balance < delta then
    return none
  return some (balance + delta)

/-! ## Extensions -/

variable (ae : AccountEntry)

def AccountEntry.prepareAccountEntryExtensionV1 : AccountEntryExtensionV1 :=
  ae.ext.getD ⟨⟨0, 0⟩, none⟩

/-- The account with another second extension. -/
def AccountEntry.withExtensionV2 (extV2 : AccountEntryExtensionV2) : AccountEntry :=
  { ae with ext := some { ae.prepareAccountEntryExtensionV1 with ext := some extV2 } }

def AccountEntry.withLiabilities (liabilities : Liabilities) : AccountEntry :=
  { ae with ext := some { ae.prepareAccountEntryExtensionV1 with liabilities := liabilities } }

def TrustLineEntry.withLiabilities (tl : TrustLineEntry) (liabilities : Liabilities) :
    TrustLineEntry :=
  { tl with ext := some liabilities }

def AccountEntry.getAccountEntryExtensionV2 : Fallible AccountEntryExtensionV2 :=
  match ae.extV2 with
  | some extV2 => pure extV2
  | none => throw (.exception .expectedAccountEntryExtensionV2)

/-! ## Authorization -/

variable (header : LedgerHeader)

namespace TrustLineEntry

def isAuthorized (tl : TrustLineEntry) : Bool := tl.flags &&& authorizedFlag ≠ 0

def isAuthorizedToMaintainLiabilities (tl : TrustLineEntry) : Bool :=
  tl.isAuthorized || tl.flags &&& authorizedToMaintainLiabilitiesFlag ≠ 0

def checkAuthorization (tl : TrustLineEntry) : Fallible Bool :=
  if header.ledgerVersion < 10 then
    pure tl.isAuthorized
  else if tl.isAuthorizedToMaintainLiabilities then
    pure true
  else
    throw (.exception .invalidAuthorization)

end TrustLineEntry

variable (acc : AccountEntry)

def trustLineFlagIsValid (flag ledgerVersion : ℕ) : Bool :=
  if ledgerVersion < 13 then
    flag ≤ maskTrustLineFlags
  else
    flag ≤ maskTrustLineFlagsV13 && flag ≠ authorizedFlag ||| authorizedToMaintainLiabilitiesFlag

/-! ## Reserves -/

/-- `getMinBalance` of the three counters. -/
def getMinBalanceOf (lh : LedgerHeader) (numSubentries numSponsoring numSponsored : ℕ) :
    Fallible ℤ := do
  if lh.ledgerVersion < 14 ∧ (numSponsored ≠ 0 ∨ numSponsoring ≠ 0) then
    throw (.exception .unexpectedSponsorshipState)
  if lh.ledgerVersion ≤ 8 then
    return ((2 + numSubentries) * lh.baseReserve % 2 ^ 32 : ℕ)
  let effEntries : ℤ := 2 + numSubentries + numSponsoring - numSponsored
  if effEntries < 0 then
    throw (.exception .unexpectedAccountState)
  return effEntries * lh.baseReserve

def getMinBalance : Fallible ℤ :=
  if 14 ≤ header.ledgerVersion then
    getMinBalanceOf header acc.numSubEntries acc.numSponsoring acc.numSponsored
  else
    getMinBalanceOf header acc.numSubEntries 0 0

/-! ## Balances and liabilities of one entry -/

/-- Throws when liabilities are asked for before they were introduced. -/
def requireLiabilities : Fallible Unit :=
  Fallible.require (10 ≤ header.ledgerVersion) .liabilitiesBeforeVersion10

namespace AccountEntry

def getBuyingLiabilities : Fallible ℤ := do
  requireLiabilities header
  return acc.liabilities.buying

def getSellingLiabilities : Fallible ℤ := do
  requireLiabilities header
  return acc.liabilities.selling

/-- The account after a payment of `delta`; nothing if it is refused. -/
def addBalance (delta : ℤ) : Fallible (Option AccountEntry) := do
  if delta = 0 then
    return some acc
  match ← addToBalance acc.balance delta int64Max with
  | none => return none
  | some newBalance =>
    if 10 ≤ header.ledgerVersion then
      let minBalance ← getMinBalance header acc
      if delta < 0 ∧ newBalance - minBalance < (← acc.getSellingLiabilities header) then
        return none
      if int64Max - (← acc.getBuyingLiabilities header) < newBalance then
        return none
    return some { acc with balance := newBalance }

def addBuyingLiabilities (delta : ℤ) : Fallible (Option AccountEntry) := do
  let buyingLiab ← acc.getBuyingLiabilities header
  if delta = 0 then
    return some acc
  match ← addToBalance buyingLiab delta (int64Max - acc.balance) with
  | none => return none
  | some buying => return some (acc.withLiabilities { acc.liabilities with buying := buying })

def addSellingLiabilities (delta : ℤ) : Fallible (Option AccountEntry) := do
  let sellingLiab ← acc.getSellingLiabilities header
  if delta = 0 then
    return some acc
  let maxLiabilities := acc.balance - (← getMinBalance header acc)
  if maxLiabilities < 0 then
    return none
  match ← addToBalance sellingLiab delta maxLiabilities with
  | none => return none
  | some selling => return some (acc.withLiabilities { acc.liabilities with selling := selling })

def getAvailableBalance : Fallible ℤ := do
  let avail := acc.balance - (← getMinBalance header acc)
  if 10 ≤ header.ledgerVersion then
    return avail - (← acc.getSellingLiabilities header)
  else
    return avail

def getMaxAmountReceive : Fallible ℤ := do
  if 10 ≤ header.ledgerVersion then
    return int64Max - (acc.balance + (← acc.getBuyingLiabilities header))
  else
    return int64Max

end AccountEntry

namespace TrustLineEntry

variable (tl : TrustLineEntry)

def getBuyingLiabilities : Fallible ℤ := do
  requireLiabilities header
  return tl.liabilities.buying

def getSellingLiabilities : Fallible ℤ := do
  requireLiabilities header
  return tl.liabilities.selling

def addBalance (delta : ℤ) : Fallible (Option TrustLineEntry) := do
  if delta = 0 then
    return some tl
  if ← tl.checkAuthorization header then
    match ← addToBalance tl.balance delta tl.limit with
    | none => return none
    | some newBalance =>
      if 10 ≤ header.ledgerVersion then
        if newBalance < (← tl.getSellingLiabilities header) then
          return none
        if tl.limit - (← tl.getBuyingLiabilities header) < newBalance then
          return none
      return some { tl with balance := newBalance }
  else
    return none

def addBuyingLiabilities (delta : ℤ) : Fallible (Option TrustLineEntry) := do
  let buyingLiab ← tl.getBuyingLiabilities header
  if delta = 0 then
    return some tl
  if ← tl.checkAuthorization header then
    match ← addToBalance buyingLiab delta (tl.limit - tl.balance) with
    | none => return none
    | some buying => return some (tl.withLiabilities { tl.liabilities with buying := buying })
  else
    return none

def addSellingLiabilities (delta : ℤ) : Fallible (Option TrustLineEntry) := do
  let sellingLiab ← tl.getSellingLiabilities header
  if delta = 0 then
    return some tl
  if ← tl.checkAuthorization header then
    match ← addToBalance sellingLiab delta tl.balance with
    | none => return none
    | some selling => return some (tl.withLiabilities { tl.liabilities with selling := selling })
  else
    return none

def getAvailableBalance : Fallible ℤ := do
  let _ ← tl.checkAuthorization header
  if 10 ≤ header.ledgerVersion then
    return tl.balance - (← tl.getSellingLiabilities header)
  else
    return tl.balance

def getMaxAmountReceive : Fallible ℤ := do
  if ← tl.checkAuthorization header then
    if 10 ≤ header.ledgerVersion then
      return tl.limit - tl.balance - (← tl.getBuyingLiabilities header)
    else
      return tl.limit - tl.balance
  else
    return 0

end TrustLineEntry

namespace OfferEntry

/-- What the offer would exchange with a taker without limits. -/
def exchanged (oe : OfferEntry) : Fallible ExchangeResultV10 :=
  exchangeV10WithoutPriceErrorThresholds oe.price oe.amount int64Max int64Max int64Max .normal

def getOfferBuyingLiabilities (oe : OfferEntry) : Fallible ℤ := do
  Fallible.require (10 ≤ header.ledgerVersion) .offerLiabilitiesBeforeVersion10
  return (← oe.exchanged).numSheepSend

def getOfferSellingLiabilities (oe : OfferEntry) : Fallible ℤ := do
  Fallible.require (10 ≤ header.ledgerVersion) .offerLiabilitiesBeforeVersion10
  return (← oe.exchanged).numWheatReceived

end OfferEntry

/-! ## Loading -/

def loadAccount (accountID : AccountID) : LedgerM (Option (LedgerEntry AccountEntry)) :=
  load (accountKey accountID)

variable (sellerID : AccountID)

def loadOffer (offerID : ℤ) : LedgerM (Option (LedgerEntry OfferEntry)) :=
  load (offerKey sellerID offerID)

/-! ## Writing through an active entry -/

/-- Puts what the computation gives in the entry's place, unless it refuses. -/
def updateData (key : LedgerKey) (f : LedgerHeader → key.Data → Fallible (Option key.Data)) :
    LedgerM Bool := do
  let header ← loadHeader
  let entry ← current (.ledgerEntry key)
  match ← lift (f header entry.data) with
  | none => return false
  | some data =>
    put (.ledgerEntry key) { entry with data := data }
    return true

def addBalance (key : LedgerKey) (delta : ℤ) : LedgerM Bool :=
  match key with
  | .account id => updateData (.account id) fun header acc => acc.addBalance header delta
  | .trustline id asset =>
    updateData (.trustline id asset) fun header tl => tl.addBalance header delta
  | _ => throw (.exception .unknownLedgerEntryType)

def addBuyingLiabilities (key : LedgerKey) (delta : ℤ) : LedgerM Bool :=
  match key with
  | .account id => updateData (.account id) fun header acc => acc.addBuyingLiabilities header delta
  | .trustline id asset =>
    updateData (.trustline id asset) fun header tl => tl.addBuyingLiabilities header delta
  | _ => throw (.exception .unknownLedgerEntryType)

def addSellingLiabilities (key : LedgerKey) (delta : ℤ) : LedgerM Bool :=
  match key with
  | .account id =>
    updateData (.account id) fun header acc => acc.addSellingLiabilities header delta
  | .trustline id asset =>
    updateData (.trustline id asset) fun header tl => tl.addSellingLiabilities header delta
  | _ => throw (.exception .unknownLedgerEntryType)

/-- A number read off the active entry. -/
def readData {α : Type} (key : LedgerKey) (f : LedgerHeader → key.Data → Fallible α) :
    LedgerM α := do
  let header ← loadHeader
  let entry ← current (.ledgerEntry key)
  lift (f header entry.data)

def getAvailableBalance (key : LedgerKey) : LedgerM ℤ :=
  match key with
  | .account id => readData (.account id) fun header acc => acc.getAvailableBalance header
  | .trustline id asset =>
    readData (.trustline id asset) fun header tl => tl.getAvailableBalance header
  | _ => throw (.exception .unknownLedgerEntryType)

def getMaxAmountReceive (key : LedgerKey) : LedgerM ℤ :=
  match key with
  | .account id => readData (.account id) fun header acc => acc.getMaxAmountReceive header
  | .trustline id asset =>
    readData (.trustline id asset) fun header tl => tl.getMaxAmountReceive header
  | _ => throw (.exception .unknownLedgerEntryType)

/-! ## Trust lines, and what stands for them at the issuer -/

/-- An account's holding of an asset: none, without bounds at the issuer, or a trust line. -/
inductive TrustLineWrapper where
  | missing
  | issuer
  | line (accountID : AccountID) (asset : Asset)
  deriving DecidableEq

def loadTrustLine (accountID : AccountID) (asset : Asset) : LedgerM TrustLineWrapper := do
  require (asset ≠ .native) .trustlineForNativeAsset
  if asset.issuer? = some accountID then
    return .issuer
  match ← load (trustlineKey accountID asset) with
  | none => return .missing
  | some _ => return .line accountID asset

def loadTrustLineIfNotNative (accountID : AccountID) (asset : Asset) : LedgerM TrustLineWrapper :=
  if asset = .native then
    return .missing
  else
    loadTrustLine accountID asset

namespace TrustLineWrapper

/-- `TrustLineWrapper::getImpl` of a wrapper that holds nothing. -/
def notActive {α : Type} : LedgerM α := throw (.exception .trustLineWrapperNotActive)

def addBalance (delta : ℤ) : TrustLineWrapper → LedgerM Bool
  | missing => notActive
  | issuer => pure true
  | line id asset => Ledger.addBalance (.trustline id asset) delta

def addBuyingLiabilities (delta : ℤ) : TrustLineWrapper → LedgerM Bool
  | missing => notActive
  | issuer => pure true
  | line id asset => Ledger.addBuyingLiabilities (.trustline id asset) delta

def addSellingLiabilities (delta : ℤ) : TrustLineWrapper → LedgerM Bool
  | missing => notActive
  | issuer => pure true
  | line id asset => Ledger.addSellingLiabilities (.trustline id asset) delta

def isAuthorizedToMaintainLiabilities : TrustLineWrapper → LedgerM Bool
  | missing => notActive
  | issuer => pure true
  | line id asset =>
    readData (.trustline id asset) fun _ tl => pure tl.isAuthorizedToMaintainLiabilities

def getAvailableBalance : TrustLineWrapper → LedgerM ℤ
  | missing => notActive
  | issuer => pure int64Max
  | line id asset => Ledger.getAvailableBalance (.trustline id asset)

def getMaxAmountReceive : TrustLineWrapper → LedgerM ℤ
  | missing => notActive
  | issuer => pure int64Max
  | line id asset => Ledger.getMaxAmountReceive (.trustline id asset)

end TrustLineWrapper

/-! ## Liabilities of offers -/

/-- One side of `acquireOrReleaseLiabilities`: the liabilities in one asset. -/
def addOfferLiabilities (asset : Asset) (delta : ℤ)
    (toAccount : LedgerKey → ℤ → LedgerM Bool) (toLine : ℤ → TrustLineWrapper → LedgerM Bool)
    (e : RuntimeError) : LedgerM Unit :=
  block do
    if asset = .native then
      require (← loadAccount sellerID).isSome .accountDoesNotExist
      require (← toAccount (.account sellerID) delta) e
    else
      let trust ← loadTrustLine sellerID asset
      require (trust ≠ .missing) .trustlineDoesNotExist
      require (← toLine delta trust) e

def acquireOrReleaseLiabilities (offerID : ℤ) (isAcquire : Bool) : LedgerM Unit := do
  let offer := (← current (offerKey sellerID offerID)).data
  require (offer.buying ≠ offer.selling) .buyingAndSellingSameAsset
  let header ← loadHeader
  let sign : ℤ := if isAcquire then 1 else -1
  addOfferLiabilities sellerID offer.buying
    (sign * (← lift (offer.getOfferBuyingLiabilities header)))
    addBuyingLiabilities TrustLineWrapper.addBuyingLiabilities .couldNotAddBuyingLiabilities
  addOfferLiabilities sellerID offer.selling
    (sign * (← lift (offer.getOfferSellingLiabilities header)))
    addSellingLiabilities TrustLineWrapper.addSellingLiabilities .couldNotAddSellingLiabilities

def acquireLiabilities (offerID : ℤ) : LedgerM Unit :=
  acquireOrReleaseLiabilities sellerID offerID true

def releaseLiabilities (offerID : ℤ) : LedgerM Unit :=
  acquireOrReleaseLiabilities sellerID offerID false

end DigitalBits.Ledger
