import DigitalBits.Transactions.SponsorshipUtils

/-!
# Crossing offers

`crossOfferV10` exchanges with one offer of the book, and `convertWithOffers`
takes the best offer again and again until the taker has what it wants. This is
the exchange of protocol version 10 and later.
-/
namespace DigitalBits.Ledger

/-- What the host of the ledger provides: the order of the book. -/
structure Host where
  isBetterOffer : OfferDescriptor → OfferDescriptor → Bool

variable (host : Host)

def maxOffersToCross : ℕ := 1000

def canSellAtMost (accountID : AccountID) (asset : Asset) (trustLine : TrustLineWrapper) :
    LedgerM ℤ := do
  if asset = .native then
    return max (← getAvailableBalance (.account accountID)) 0
  if trustLine = .missing then
    return 0
  if ← trustLine.isAuthorizedToMaintainLiabilities then
    return max (← trustLine.getAvailableBalance) 0
  return 0

def canBuyAtMost (accountID : AccountID) (asset : Asset) (trustLine : TrustLineWrapper) :
    LedgerM ℤ := do
  if asset = .native then
    return max (← getMaxAmountReceive (.account accountID)) 0
  if trustLine = .missing then
    return 0
  return max (← trustLine.getMaxAmountReceive) 0

variable (sellerID : AccountID)

/-- The new amount of an active offer. -/
def setOfferAmount (offerID : ℤ) (amount : ℤ) : LedgerM Unit :=
  update (offerKey sellerID offerID) fun e => { e with data := { e.data with amount := amount } }

def adjustOffer (offerID : ℤ) (wheatLine sheepLine : TrustLineWrapper) : LedgerM Unit := do
  let oe := (← current (offerKey sellerID offerID)).data
  let maxWheatSend := min oe.amount (← canSellAtMost sellerID oe.selling wheatLine)
  let maxSheepReceive ← canBuyAtMost sellerID oe.buying sheepLine
  setOfferAmount sellerID offerID (← lift (adjustOfferAmount oe.price maxWheatSend maxSheepReceive))

/-- A payment to an account or a trust line, whichever holds the asset. -/
def addBalanceOf (accountID : AccountID) (asset : Asset) (line : TrustLineWrapper) (delta : ℤ) :
    LedgerM Bool :=
  if asset = .native then
    addBalance (.account accountID) delta
  else
    line.addBalance delta

structure ClaimOfferAtom where
  sellerID : AccountID
  offerID : ℤ
  assetSold : Asset
  amountSold : ℤ
  assetBought : Asset
  amountBought : ℤ
  deriving DecidableEq

/-- What an exchange with one offer came to. -/
structure Crossed where
  atom : ClaimOfferAtom
  wheatStays : Bool
  taken : Bool
  deriving DecidableEq

/-- The end of `crossOfferV10`: an offer that was taken is erased, another one gets the
liabilities of what is left of it. -/
def settleOffer (offerID : ℤ) (taken : Bool) : LedgerM Unit :=
  nested do
    let _ ← loadOffer sellerID offerID
    if taken then
      let _ ← loadAccount sellerID
      let offer ← current (offerKey sellerID offerID)
      let _ ← removeEntryWithPossibleSponsorship (.offer sellerID offerID) offer sellerID
      erase (offerKey sellerID offerID)
    else
      acquireLiabilities sellerID offerID
    return (true, ())

/-- Exchanges with an active offer. -/
def crossOfferV10 (offerID : ℤ) (maxWheatReceived maxSheepSend : ℤ)
    (round : RoundingType) : LedgerM Crossed :=
  block do
    assert (0 < maxWheatReceived)
    assert (0 < maxSheepSend)
    let offer := (← current (offerKey sellerID offerID)).data
    let sheep := offer.buying
    let wheat := offer.selling
    require (← exists? (accountKey sellerID)) .offerMustHaveMatchingAccount
    releaseLiabilities sellerID offerID
    if wheat = .native ∨ sheep = .native then
      let _ ← loadAccount sellerID
    let sheepLine ← loadTrustLineIfNotNative sellerID sheep
    let wheatLine ← loadTrustLineIfNotNative sellerID wheat
    adjustOffer sellerID offerID wheatLine sheepLine
    let offer := (← current (offerKey sellerID offerID)).data
    let maxWheatSend := min offer.amount (← canSellAtMost sellerID wheat wheatLine)
    let maxSheepReceive ← canBuyAtMost sellerID sheep sheepLine
    let exchanged ← lift (exchangeV10 offer.price maxWheatSend maxWheatReceived maxSheepSend
      maxSheepReceive round)
    if exchanged.numSheepSend ≠ 0 then
      require (← addBalanceOf sellerID sheep sheepLine exchanged.numSheepSend)
        .overflowedSheepBalance
    if exchanged.numWheatReceived ≠ 0 then
      require (← addBalanceOf sellerID wheat wheatLine (-exchanged.numWheatReceived))
        .overflowedWheatBalance
    if exchanged.wheatStays then
      setOfferAmount sellerID offerID (offer.amount - exchanged.numWheatReceived)
      adjustOffer sellerID offerID wheatLine sheepLine
    else
      setOfferAmount sellerID offerID 0
    let taken := decide ((← current (offerKey sellerID offerID)).data.amount = 0)
    settleOffer sellerID offerID taken
    return ⟨⟨sellerID, offerID, wheat, exchanged.numWheatReceived, sheep,
      exchanged.numSheepSend⟩, exchanged.wheatStays, taken⟩

/-- What a filter says of the best offer: go on, stop, or stop because it is the taker's own. -/
inductive OfferFilterResult where
  | eKeep
  | eStop
  | eStopCrossSelf
  deriving DecidableEq

/-- A filter sees the seller, the offer's id and the offer. -/
abbrev OfferFilter := AccountID → ℤ → OfferEntry → Fallible OfferFilterResult

inductive ConvertResult where
  | eOK
  | ePartial
  | eFilterStop
  | eFilterStopCrossSelf
  | eCrossedTooMany
  deriving DecidableEq

structure Conversion where
  result : ConvertResult
  sheepSend : ℤ
  wheatReceived : ℤ
  offerTrail : List ClaimOfferAtom
  deriving DecidableEq

/-- The taker's limits, and what it has so far. -/
structure ConvertState where
  maxSheepSend : ℤ
  sheepSend : ℤ
  maxWheatReceive : ℤ
  wheatReceived : ℤ
  offerTrail : List ClaimOfferAtom

namespace ConvertState

def ended (c : ConvertState) (result : ConvertResult) : Conversion :=
  ⟨result, c.sheepSend, c.wheatReceived, c.offerTrail⟩

def needMore (c : ConvertState) : Prop := 0 < c.maxWheatReceive ∧ 0 < c.maxSheepSend

instance (c : ConvertState) : Decidable c.needMore := inferInstanceAs (Decidable (_ ∧ _))

/-- After an exchange. -/
def cross (c : ConvertState) (atom : ClaimOfferAtom) : ConvertState where
  maxSheepSend := c.maxSheepSend - atom.amountBought
  sheepSend := c.sheepSend + atom.amountBought
  maxWheatReceive := c.maxWheatReceive - atom.amountSold
  wheatReceived := c.wheatReceived + atom.amountSold
  offerTrail := c.offerTrail ++ [atom]

end ConvertState

/-- One round of the loop: the reason to stop, or the exchange made. -/
def convertStep (sheep wheat : Asset) (round : RoundingType) (filter : OfferFilter)
    (maxOffers : ℕ) (c : ConvertState) : LedgerM (ConvertResult ⊕ Crossed) :=
  nested do
    match ← loadBestOffer host.isBetterOffer sheep wheat with
    | none => return (false, .inl .ePartial)
    | some (sellerID, offerID) =>
      let offer := (← current (offerKey sellerID offerID)).data
      match ← lift (filter sellerID offerID offer) with
      | .eStop => return (false, .inl .eFilterStop)
      | .eStopCrossSelf => return (false, .inl .eFilterStopCrossSelf)
      | .eKeep =>
        if maxOffers ≤ c.offerTrail.length then
          return (false, .inl .eCrossedTooMany)
        let crossed ← crossOfferV10 sellerID offerID c.maxWheatReceive c.maxSheepSend round
        assert (0 ≤ crossed.atom.amountBought)
        assert (crossed.atom.amountBought ≤ c.maxSheepSend)
        assert (0 ≤ crossed.atom.amountSold)
        assert (crossed.atom.amountSold ≤ c.maxWheatReceive)
        return (true, .inr crossed)

/-- The loop of `convertWithOffers`. -/
def convertLoop (sheep wheat : Asset) (round : RoundingType) (filter : OfferFilter)
    (maxOffers : ℕ) : ℕ → ConvertState → LedgerM Conversion
  | 0, _ => throw .outOfFuel
  | fuel + 1, c => do
    match ← convertStep host sheep wheat round filter maxOffers c with
    | .inl result => return c.ended result
    | .inr crossed =>
      let c := c.cross crossed.atom
      if crossed.wheatStays ∨ ¬ c.needMore then
        return c.ended .eOK
      else if crossed.taken then
        convertLoop sheep wheat round filter maxOffers fuel c
      else
        return c.ended .ePartial

/-- The loop takes an offer off the book in every round but the last. -/
def convertWithOffers (sheep : Asset) (maxSheepSend : ℤ) (wheat : Asset) (maxWheatReceive : ℤ)
    (round : RoundingType) (filter : OfferFilter) (maxOffers : ℕ) : LedgerM Conversion := do
  let c : ConvertState := ⟨maxSheepSend, 0, maxWheatReceive, 0, []⟩
  if c.needMore then
    convertLoop host sheep wheat round filter maxOffers ((← get).offers.length + 1) c
  else
    return c.ended .eOK

end DigitalBits.Ledger
