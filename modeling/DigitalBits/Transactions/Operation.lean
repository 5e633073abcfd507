import DigitalBits.Transactions.OfferExchange

/-!
# Operations

The operations of a transaction and their results. An operation's source and the
other accounts it names are the accounts behind the possibly multiplexed ids of
the envelope.
-/
namespace DigitalBits.Ledger

/-! ## Well-formed names -/

/-- `std::iscntrl` of a character below 128, in the classic locale. -/
def isControl (c : Fin 256) : Bool := c.val < 32 || c.val = 127

def isString32Valid (str : Bytes) : Bool := str.all fun c => c.val < 128 && !isControl c

/-- `std::isalnum` in the classic locale. -/
def isAlnum (c : Fin 256) : Bool :=
  (48 ≤ c.val && c.val ≤ 57) || (65 ≤ c.val && c.val ≤ 90) || (97 ≤ c.val && c.val ≤ 122)

/-- Letters and digits, and then only zeros; at least `least` of them. -/
def isAssetCodeValid (code : Bytes) (least : ℕ) : Bool :=
  let chars := code.takeWhile (·.val ≠ 0)
  chars.all isAlnum && (code.dropWhile (·.val ≠ 0)).all (·.val = 0) && least ≤ chars.length

def isAssetValid : Asset → Bool
  | .native => true
  | .alphaNum4 assetCode _ => isAssetCodeValid assetCode 1
  | .alphaNum12 assetCode _ => isAssetCodeValid assetCode 5

/-! ## Bodies -/

structure CreateAccountOp where
  destination : AccountID
  startingBalance : ℤ
  deriving DecidableEq

structure PaymentOp where
  destination : AccountID
  asset : Asset
  amount : ℤ
  deriving DecidableEq

structure PathPaymentStrictReceiveOp where
  sendAsset : Asset
  sendMax : ℤ
  destination : AccountID
  destAsset : Asset
  destAmount : ℤ
  path : List Asset
  deriving DecidableEq

structure PathPaymentStrictSendOp where
  sendAsset : Asset
  sendAmount : ℤ
  destination : AccountID
  destAsset : Asset
  destMin : ℤ
  path : List Asset
  deriving DecidableEq

structure ManageSellOfferOp where
  selling : Asset
  buying : Asset
  amount : ℤ
  price : Price
  offerID : ℤ
  deriving DecidableEq

structure ManageBuyOfferOp where
  selling : Asset
  buying : Asset
  buyAmount : ℤ
  price : Price
  offerID : ℤ
  deriving DecidableEq

structure CreatePassiveSellOfferOp where
  selling : Asset
  buying : Asset
  amount : ℤ
  price : Price
  deriving DecidableEq

structure SetOptionsOp where
  inflationDest : Option AccountID := none
  clearFlags : Option ℕ := none
  setFlags : Option ℕ := none
  masterWeight : Option ℕ := none
  lowThreshold : Option ℕ := none
  medThreshold : Option ℕ := none
  highThreshold : Option ℕ := none
  homeDomain : Option Bytes := none
  signer : Option Signer := none
  deriving DecidableEq

structure ChangeTrustOp where
  line : Asset
  limit : ℤ
  deriving DecidableEq

/-- An asset without its issuer. -/
inductive AssetCode where
  | native
  | assetCode4 (code : Bytes)
  | assetCode12 (code : Bytes)
  deriving DecidableEq

/-- The asset of that code which the account issues. -/
def AssetCode.issuedBy (issuer : AccountID) : AssetCode → Asset
  | native => .native
  | assetCode4 code => .alphaNum4 code issuer
  | assetCode12 code => .alphaNum12 code issuer

structure AllowTrustOp where
  trustor : AccountID
  asset : AssetCode
  authorize : ℕ
  deriving DecidableEq

structure ManageDataOp where
  dataName : Bytes
  dataValue : Option Bytes
  deriving DecidableEq

structure CreateClaimableBalanceOp where
  asset : Asset
  amount : ℤ
  claimants : Claimants
  deriving DecidableEq

inductive RevokeSponsorshipOp where
  | ledgerEntry (ledgerKey : LedgerKey)
  | signer (accountID : AccountID) (signerKey : SignerKey)
  deriving DecidableEq

inductive OperationBody where
  | createAccount (op : CreateAccountOp)
  | payment (op : PaymentOp)
  | pathPaymentStrictReceive (op : PathPaymentStrictReceiveOp)
  | manageSellOffer (op : ManageSellOfferOp)
  | createPassiveSellOffer (op : CreatePassiveSellOfferOp)
  | setOptions (op : SetOptionsOp)
  | changeTrust (op : ChangeTrustOp)
  | allowTrust (op : AllowTrustOp)
  | accountMerge (destination : AccountID)
  | inflation
  | manageData (op : ManageDataOp)
  | bumpSequence (bumpTo : SequenceNumber)
  | manageBuyOffer (op : ManageBuyOfferOp)
  | pathPaymentStrictSend (op : PathPaymentStrictSendOp)
  | createClaimableBalance (op : CreateClaimableBalanceOp)
  | claimClaimableBalance (balanceID : Scp.Hash)
  | beginSponsoringFutureReserves (sponsoredID : AccountID)
  | endSponsoringFutureReserves
  | revokeSponsorship (op : RevokeSponsorshipOp)
  deriving DecidableEq

structure Operation where
  sourceAccount : Option AccountID
  body : OperationBody
  deriving DecidableEq

/-! ## Results -/

/-- The codes of a path payment and of a managed offer, each under the operation it belongs to. -/
inductive PathPaymentCode where
  | malformed
  | underfunded
  | srcNoTrust
  | srcNotAuthorized
  | noDestination
  | noTrust
  | notAuthorized
  | lineFull
  | noIssuer (asset : Asset)
  | tooFewOffers
  | offerCrossSelf
  | constraintNotMet
  deriving DecidableEq

inductive ManageOfferCode where
  | malformed
  | sellNoTrust
  | buyNoTrust
  | sellNotAuthorized
  | buyNotAuthorized
  | lineFull
  | underfunded
  | crossSelf
  | sellNoIssuer
  | buyNoIssuer
  | notFound
  | lowReserve
  deriving DecidableEq

inductive ResultCode where
  | opBadAuth
  | opNoAccount
  | opNotSupported
  | opTooManySubentries
  | opExceededWorkLimit
  | opTooManySponsoring
  | createAccountMalformed
  | createAccountUnderfunded
  | createAccountLowReserve
  | createAccountAlreadyExist
  | paymentMalformed
  | paymentUnderfunded
  | paymentSrcNoTrust
  | paymentSrcNotAuthorized
  | paymentNoDestination
  | paymentNoTrust
  | paymentNotAuthorized
  | paymentLineFull
  | paymentNoIssuer
  | pathPayment (code : PathPaymentCode)
  | manageOffer (code : ManageOfferCode)
  | setOptionsLowReserve
  | setOptionsTooManySigners
  | setOptionsBadFlags
  | setOptionsInvalidInflation
  | setOptionsCantChange
  | setOptionsUnknownFlag
  | setOptionsThresholdOutOfRange
  | setOptionsBadSigner
  | setOptionsInvalidHomeDomain
  | changeTrustMalformed
  | changeTrustNoIssuer
  | changeTrustInvalidLimit
  | changeTrustLowReserve
  | changeTrustSelfNotAllowed
  | allowTrustMalformed
  | allowTrustNoTrustLine
  | allowTrustTrustNotRequired
  | allowTrustCantRevoke
  | allowTrustSelfNotAllowed
  | accountMergeMalformed
  | accountMergeNoAccount
  | accountMergeImmutableSet
  | accountMergeHasSubEntries
  | accountMergeSeqnumTooFar
  | accountMergeDestFull
  | accountMergeIsSponsor
  | inflationNotTime
  | manageDataNotSupportedYet
  | manageDataNameNotFound
  | manageDataLowReserve
  | manageDataInvalidName
  | bumpSequenceBadSeq
  | createClaimableBalanceMalformed
  | createClaimableBalanceLowReserve
  | createClaimableBalanceNoTrust
  | createClaimableBalanceNotAuthorized
  | createClaimableBalanceUnderfunded
  | claimClaimableBalanceDoesNotExist
  | claimClaimableBalanceCannotClaim
  | claimClaimableBalanceLineFull
  | claimClaimableBalanceNoTrust
  | claimClaimableBalanceNotAuthorized
  | beginSponsoringFutureReservesMalformed
  | beginSponsoringFutureReservesAlreadySponsored
  | beginSponsoringFutureReservesRecursive
  | endSponsoringFutureReservesNotSponsored
  | revokeSponsorshipDoesNotExist
  | revokeSponsorshipNotSponsor
  | revokeSponsorshipLowReserve
  | revokeSponsorshipOnlyTransferable
  deriving DecidableEq

/-- Success, with the offers that were crossed, or the code of the failure. -/
inductive OperationResult where
  | success (offersClaimed : List ClaimOfferAtom)
  | failed (code : ResultCode)
  deriving DecidableEq

def OperationResult.isSuccess : OperationResult → Bool
  | success _ => true
  | failed _ => false

/-- `findSignerByKey`: where the signer is or would be put, and whether it is there. -/
def findSignerByKey (signers : List Signer) (key : SignerKey) : ℕ × Bool :=
  let n := signers.findIdx fun x => !x.key.less key
  (n, signers[n]?.any fun x => x.key = key)

end DigitalBits.Ledger
