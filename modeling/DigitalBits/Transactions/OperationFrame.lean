import DigitalBits.Transactions.ClaimPredicates
import DigitalBits.Transactions.Operation
import DigitalBits.Transactions.SignatureChecker

/-!
# The frame of an operation

An operation is checked before it is applied: what its type asks of it, and the
signatures. When it is applied from version 10 on, the signatures have been
checked already. What an operation does once its checks have passed, the
virtual `doApply` of its frame, is a parameter.
-/
namespace DigitalBits.Ledger

open Scp (Hash)

/-! ## What each type of operation checks -/

def CreateAccountOp.doCheckValid (op : CreateAccountOp) (source : AccountID)
    (ledgerVersion : ℕ) : Option ResultCode :=
  if op.startingBalance < (if 14 ≤ ledgerVersion then 0 else 1) then
    some .createAccountMalformed
  else if op.destination = source then
    some .createAccountMalformed
  else
    none

def AccountMerge.doCheckValid (destination source : AccountID) : Option ResultCode :=
  if source = destination then some .accountMergeMalformed else none

def BumpSequence.doCheckValid (bumpTo : SequenceNumber) : Option ResultCode :=
  if bumpTo < 0 then some .bumpSequenceBadSeq else none

def ManageDataOp.doCheckValid (op : ManageDataOp) (ledgerVersion : ℕ) : Option ResultCode :=
  if ledgerVersion < 2 then
    some .manageDataNotSupportedYet
  else if op.dataName = [] ∨ ¬ isString32Valid op.dataName then
    some .manageDataInvalidName
  else
    none

def allAccountFlags : ℕ := authRequiredFlag ||| authRevocableFlag ||| authImmutableFlag

/-- `flags & ~clear`. -/
def clearBits (flags clear : ℕ) : ℕ := flags &&& (uint32Max ^^^ clear)

def SetOptionsOp.doCheckValid (op : SetOptionsOp) (source : AccountID) (ledgerVersion : ℕ) :
    Option ResultCode :=
  if op.setFlags.any fun flags => clearBits flags allAccountFlags ≠ 0 then
    some .setOptionsUnknownFlag
  else if op.clearFlags.any fun flags => clearBits flags allAccountFlags ≠ 0 then
    some .setOptionsUnknownFlag
  else if op.setFlags.getD 0 &&& op.clearFlags.getD 0 ≠ 0 then
    some .setOptionsBadFlags
  else if [op.masterWeight, op.lowThreshold, op.medThreshold, op.highThreshold].any
      fun weight => weight.any (uint8Max < ·) then
    some .setOptionsThresholdOutOfRange
  else if op.signer.any fun signer => signer.key = .ed25519 source ||
      (decide (signer.key.type ≠ 0) && decide (ledgerVersion < 3)) ||
      (decide (uint8Max < signer.weight) && decide (9 < ledgerVersion)) then
    some .setOptionsBadSigner
  else if op.homeDomain.any fun homeDomain => !isString32Valid homeDomain then
    some .setOptionsInvalidHomeDomain
  else
    none

/-- What `ManageOfferOpFrameBase` has of the three operations on offers. -/
structure ManageOffer where
  sheep : Asset
  wheat : Asset
  offerID : ℤ
  price : Price
  amount : ℤ

namespace ManageOffer

variable (m : ManageOffer)

def isAmountValid : Bool := 0 ≤ m.amount
def isDeleteOffer : Bool := m.amount = 0

def doCheckValid (ledgerVersion : ℕ) : Option ResultCode :=
  if ¬ isAssetValid m.sheep ∨ ¬ isAssetValid m.wheat ∨ m.sheep = m.wheat then
    some (.manageOffer .malformed)
  else if ¬ m.isAmountValid ∨ m.price.d ≤ 0 ∨ m.price.n ≤ 0 then
    some (.manageOffer .malformed)
  else if m.offerID = 0 ∧ m.isDeleteOffer ∧ 3 ≤ ledgerVersion then
    if 11 ≤ ledgerVersion then some (.manageOffer .malformed) else some (.manageOffer .notFound)
  else if 15 ≤ ledgerVersion ∧ m.offerID < 0 then
    some (.manageOffer .malformed)
  else
    none

end ManageOffer

def ManageSellOfferOp.manageOffer (op : ManageSellOfferOp) : ManageOffer :=
  ⟨op.selling, op.buying, op.offerID, op.price, op.amount⟩

/-- The price of a buy offer is that of the asset bought. -/
def ManageBuyOfferOp.manageOffer (op : ManageBuyOfferOp) : ManageOffer :=
  ⟨op.selling, op.buying, op.offerID, ⟨op.price.d, op.price.n⟩, op.buyAmount⟩

def CreatePassiveSellOfferOp.manageOffer (op : CreatePassiveSellOfferOp) : ManageOffer :=
  ⟨op.selling, op.buying, 0, op.price, op.amount⟩

def PathPaymentStrictReceiveOp.doCheckValid (op : PathPaymentStrictReceiveOp) : Option ResultCode :=
  if op.destAmount ≤ 0 ∨ op.sendMax ≤ 0 ∨ ¬ isAssetValid op.sendAsset ∨
      ¬ isAssetValid op.destAsset ∨ ¬ op.path.all isAssetValid then
    some (.pathPayment .malformed)
  else
    none

def PathPaymentStrictSendOp.doCheckValid (op : PathPaymentStrictSendOp) : Option ResultCode :=
  if op.sendAmount ≤ 0 ∨ op.destMin ≤ 0 ∨ ¬ isAssetValid op.sendAsset ∨
      ¬ isAssetValid op.destAsset ∨ ¬ op.path.all isAssetValid then
    some (.pathPayment .malformed)
  else
    none

def PaymentOp.doCheckValid (op : PaymentOp) : Option ResultCode :=
  if op.amount ≤ 0 ∨ ¬ isAssetValid op.asset then some .paymentMalformed else none

def ChangeTrustOp.doCheckValid (op : ChangeTrustOp) (ledgerVersion : ℕ) : Option ResultCode :=
  if op.limit < 0 ∨ ¬ isAssetValid op.line ∨ (9 < ledgerVersion ∧ op.line = .native) then
    some .changeTrustMalformed
  else
    none

def AllowTrustOp.doCheckValid (op : AllowTrustOp) (source : AccountID) (ledgerVersion : ℕ) :
    Option ResultCode :=
  if op.asset = .native ∨ ¬ trustLineFlagIsValid op.authorize ledgerVersion ∨
      ¬ isAssetValid (op.asset.issuedBy source) then
    some .allowTrustMalformed
  else
    none

def CreateClaimableBalanceOp.doCheckValid (op : CreateClaimableBalanceOp) : Option ResultCode :=
  if ¬ isAssetValid op.asset ∨ op.amount ≤ 0 ∨ op.claimants.1 = [] ∨
      ¬ (op.claimants.1.map Claimant.destination).Nodup ∨
      ¬ op.claimants.1.all fun c => c.predicate.isValid 1 then
    some .createClaimableBalanceMalformed
  else
    none

def BeginSponsoringFutureReserves.doCheckValid (sponsoredID source : AccountID) :
    Option ResultCode :=
  if sponsoredID = source then some .beginSponsoringFutureReservesMalformed else none

namespace RevokeSponsorship

def isKeyValid : LedgerKey → Bool
  | .account _ => true
  | .trustline id asset => isAssetValid asset && asset ≠ .native && asset.issuer? ≠ some id
  | .offer _ offerID => 0 < offerID
  | .data _ dataName => dataName ≠ [] && isString32Valid dataName
  | .claimableBalance _ => true

def doCheckValid (op : RevokeSponsorshipOp) (ledgerVersion : ℕ) : Option ResultCode :=
  match op with
  | .ledgerEntry key =>
    if 14 < ledgerVersion ∧ ¬ isKeyValid key then some .revokeSponsorshipDoesNotExist else none
  | .signer _ _ => none

end RevokeSponsorship

/-! ## Thresholds and versions -/

inductive ThresholdLevel where
  | low
  | medium
  | high

def getNeededThreshold (acc : AccountEntry) : ThresholdLevel → ℕ
  | .low => acc.thresholds.low
  | .medium => acc.thresholds.med
  | .high => acc.thresholds.high

namespace OperationBody

def getThresholdLevel : OperationBody → ThresholdLevel
  | allowTrust _ => .low
  | bumpSequence _ => .low
  | claimClaimableBalance _ => .low
  | inflation => .low
  | accountMerge _ => .high
  | setOptions op =>
    if op.masterWeight.isSome || op.lowThreshold.isSome || op.medThreshold.isSome ||
        op.highThreshold.isSome || op.signer.isSome then
      .high
    else
      .medium
  | _ => .medium

def isVersionSupported (protocolVersion : ℕ) : OperationBody → Bool
  | inflation => protocolVersion < 12
  | bumpSequence _ => 10 ≤ protocolVersion
  | manageBuyOffer _ => 11 ≤ protocolVersion
  | pathPaymentStrictSend _ => 12 ≤ protocolVersion
  | createClaimableBalance _ => 14 ≤ protocolVersion
  | claimClaimableBalance _ => 14 ≤ protocolVersion
  | beginSponsoringFutureReserves _ => 14 ≤ protocolVersion
  | endSponsoringFutureReserves => 14 ≤ protocolVersion
  | revokeSponsorship _ => 14 ≤ protocolVersion
  | _ => true

def doCheckValid (source : AccountID) (ledgerVersion : ℕ) : OperationBody → Option ResultCode
  | createAccount op => op.doCheckValid source ledgerVersion
  | payment op => op.doCheckValid
  | pathPaymentStrictReceive op => op.doCheckValid
  | manageSellOffer op => op.manageOffer.doCheckValid ledgerVersion
  | createPassiveSellOffer op => op.manageOffer.doCheckValid ledgerVersion
  | setOptions op => op.doCheckValid source ledgerVersion
  | changeTrust op => op.doCheckValid ledgerVersion
  | allowTrust op => op.doCheckValid source ledgerVersion
  | accountMerge destination => AccountMerge.doCheckValid destination source
  | inflation => none
  | manageData op => op.doCheckValid ledgerVersion
  | bumpSequence bumpTo => BumpSequence.doCheckValid bumpTo
  | manageBuyOffer op => op.manageOffer.doCheckValid ledgerVersion
  | pathPaymentStrictSend op => op.doCheckValid
  | createClaimableBalance op => op.doCheckValid
  | claimClaimableBalance _ => none
  | beginSponsoringFutureReserves sponsoredID =>
    BeginSponsoringFutureReserves.doCheckValid sponsoredID source
  | endSponsoringFutureReserves => none
  | revokeSponsorship op => RevokeSponsorship.doCheckValid op ledgerVersion

end OperationBody

/-- What an operation is applied with: `doApply` of its frame, given the operation's source
and the hash that names a claimable balance it may create, and that hash. -/
structure OperationFrames where
  doApply : OperationBody → AccountID → Hash → LedgerM OperationResult
  operationIDHash : AccountID → SequenceNumber → ℕ → Hash

variable (crypto : Crypto) (frames : OperationFrames)

namespace Operation

variable (op : Operation) (txSourceID : AccountID)

/-- The operation's own source, or that of its transaction. -/
def getSourceID : AccountID :=
  op.sourceAccount.getD txSourceID

/-- `OperationFrame::checkSignature`: nothing, or the code of the failure. -/
def checkSignature (checker : SignatureChecker) (forApply : Bool) :
    LedgerM (Option ResultCode × SignatureChecker) :=
  block do
    let sourceID := op.getSourceID txSourceID
    match ← loadAccount sourceID with
    | some sourceAccount =>
      let (verified, checker) := Ledger.checkSignature crypto checker sourceID sourceAccount.data
        (getNeededThreshold sourceAccount.data op.body.getThresholdLevel)
      return (if verified then none else some .opBadAuth, checker)
    | none =>
      if forApply ∨ op.sourceAccount.isNone then
        return (some .opNoAccount, checker)
      else
        let (verified, checker) := checkSignatureNoAccount crypto checker sourceID
        return (if verified then none else some .opBadAuth, checker)

/-- The account an operation acts for: its signatures, or only its presence. -/
def checkSource (checker : SignatureChecker) (forApply : Bool) :
    LedgerM (Option ResultCode × SignatureChecker) := do
  if ¬ forApply ∨ (← loadHeader).ledgerVersion < 10 then
    op.checkSignature crypto txSourceID checker forApply
  else if ← exists? (accountKey (op.getSourceID txSourceID)) then
    return (none, checker)
  else
    return (some .opNoAccount, checker)

/-- `OperationFrame::checkValid`. It never modifies the ledger. -/
def checkValid (checker : SignatureChecker) (forApply : Bool) :
    LedgerM (Option ResultCode × SignatureChecker) :=
  nested do
    let ledgerVersion := (← loadHeader).ledgerVersion
    if ¬ op.body.isVersionSupported ledgerVersion then
      return (false, some .opNotSupported, checker)
    let (code, checker) ← op.checkSource crypto txSourceID checker forApply
    match code with
    | some code => return (false, some code, checker)
    | none => return (false, op.body.doCheckValid (op.getSourceID txSourceID) ledgerVersion, checker)

/-- `OperationFrame::apply`. -/
def apply (balanceID : Hash) (checker : SignatureChecker) :
    LedgerM (OperationResult × SignatureChecker) := do
  let (code, checker) ← op.checkValid crypto txSourceID checker true
  match code with
  | some code => return (.failed code, checker)
  | none =>
    let result ← frames.doApply op.body (op.getSourceID txSourceID) balanceID
    return (result, checker)

end Operation

end DigitalBits.Ledger
