import DigitalBits.Transactions.OperationFrame

/-!
# Transactions

A transaction is checked when it is submitted and when a set of transactions is
agreed on; its fee is charged when the ledger closes, and then it is applied. A
fee bump pays for another transaction. Where the program reports the outcome and
a result code, a check gives nothing when it succeeds and the code otherwise.
-/
namespace DigitalBits.Ledger

open Scp (Hash)

variable (frames : OperationFrames) (crypto : Crypto)

structure TimeBounds where
  minTime : TimePoint
  maxTime : TimePoint
  deriving DecidableEq

/-- What is read off the envelope of a transaction, and its hashes. -/
structure TransactionFrame where
  /-- The envelope has type `ENVELOPE_TYPE_TX_V0`. -/
  isV0 : Bool
  hasMuxedAccount : Bool
  contentsHash : Hash
  fullHash : Hash
  sourceAccount : AccountID
  fee : Fin (2 ^ 32)
  seqNum : SequenceNumber
  timeBounds : Option TimeBounds
  operations : List Operation
  signatures : List DecoratedSignature
  deriving DecidableEq

structure FeeBumpTransactionFrame where
  contentsHash : Hash
  fullHash : Hash
  feeSource : AccountID
  fee : ℤ
  innerTx : TransactionFrame
  signatures : List DecoratedSignature
  deriving DecidableEq

inductive TransactionResultCode where
  | txFailed
  | txTooEarly
  | txTooLate
  | txMissingOperation
  | txBadSeq
  | txBadAuth
  | txInsufficientBalance
  | txNoAccount
  | txInsufficientFee
  | txBadAuthExtra
  | txInternalError
  | txNotSupported
  | txFeeBumpInnerFailed
  | txBadSponsorship
  deriving DecidableEq

/-- How far a transaction got in `commonValid`. -/
inductive ValidationType where
  | kInvalid
  | kInvalidUpdateSeqNum
  | kInvalidPostAuth
  | kMaybeValid
  deriving DecidableEq

def ValidationType.rank : ValidationType → ℕ
  | kInvalid => 0
  | kInvalidUpdateSeqNum => 1
  | kInvalidPostAuth => 2
  | kMaybeValid => 3

/-- What `commonValid` leaves behind. -/
structure Validation where
  type : ValidationType
  code : Option TransactionResultCode
  checker : SignatureChecker
  deriving DecidableEq

/-- A multiple of the base fee for each operation. -/
def feeFor (baseFee : ℤ) (numOperations : ℕ) : ℤ := baseFee * max 1 (numOperations : ℤ)

/-- `digitalbits::addBalance` on an active account, which does not look at its reserve. That the
balance would leave its range is ignored. -/
def addRawBalance (accountID : AccountID) (delta : ℤ) : LedgerM Unit := do
  let acc ← current (accountKey accountID)
  match ← lift (addToBalance acc.data.balance delta int64Max) with
  | none => pure ()
  | some balance => put (accountKey accountID) { acc with data := { acc.data with balance := balance } }

/-- The part of `processFeeSeqNum` which both kinds of transactions have: `accountID` pays the fee,
and what it could pay is credited to the fee account and to the fee pool. -/
def chargeFee (accountID feeTarget : AccountID) (feeCharged : ℤ) : LedgerM ℤ := do
  let sourceAccount ← loadAccount accountID
  let feeAccount ← loadAccount feeTarget
  require sourceAccount.isSome .unexpectedDatabaseState
  require feeAccount.isSome .feesAccountIsMissing
  let acc ← current (accountKey accountID)
  if 0 < feeCharged then
    let fee := min acc.data.balance feeCharged
    addRawBalance accountID (-fee)
    addRawBalance feeTarget fee
    let header ← loadHeader
    setHeader { header with feePool := int64 (header.feePool + fee) }
    return fee
  else
    return feeCharged

/-- `removeSignerWithPossibleSponsorship` of the signer of an active account, if it has it. -/
def removeSignerOf (accountID : AccountID) (signerKey : SignerKey) : LedgerM Bool := do
  let acc ← current (accountKey accountID)
  let (n, found) := findSignerByKey acc.data.signers signerKey
  if found then
    removeSignerWithPossibleSponsorship n accountID
  return found

namespace TransactionFrame

variable (tx : TransactionFrame)

def getSourceID : AccountID := tx.sourceAccount
def getNumOperations : ℕ := tx.operations.length
def getFeeBid : ℤ := tx.fee.val

variable (header : LedgerHeader)

def getMinFee (tx : TransactionFrame) : ℤ :=
  feeFor header.baseFee tx.getNumOperations

/-- The fee charged, or the least fee that is accepted. -/
def getFee (baseFee : ℤ) (applying : Bool) (tx : TransactionFrame) : ℤ :=
  if 11 ≤ header.ledgerVersion ∨ ¬ applying then
    let adjustedFee := feeFor baseFee tx.getNumOperations
    if applying then min tx.getFeeBid adjustedFee else adjustedFee
  else
    tx.getFeeBid

def isTooEarly (lowerBoundCloseTimeOffset : ℕ) (tx : TransactionFrame) : Bool :=
  tx.timeBounds.any fun tb =>
    tb.minTime ≠ 0 && (header.closeTime + lowerBoundCloseTimeOffset) % 2 ^ 64 < tb.minTime

def isTooLate (upperBoundCloseTimeOffset : ℕ) (tx : TransactionFrame) : Bool :=
  tx.timeBounds.any fun tb =>
    tb.maxTime ≠ 0 && tb.maxTime < (header.closeTime + upperBoundCloseTimeOffset) % 2 ^ 64

/-- The checks that do not depend on the source account, but for its presence. -/
def commonValidPreSeqNum (chargeFee : Bool)
    (lowerBoundCloseTimeOffset upperBoundCloseTimeOffset : ℕ) :
    LedgerM (Option TransactionResultCode) := do
  let header ← loadHeader
  if header.ledgerVersion < 13 ∧ (¬ tx.isV0 ∨ tx.hasMuxedAccount) ∨
      13 ≤ header.ledgerVersion ∧ tx.isV0 then
    return some .txNotSupported
  if tx.getNumOperations = 0 then
    return some .txMissingOperation
  if tx.isTooEarly header lowerBoundCloseTimeOffset then
    return some .txTooEarly
  if tx.isTooLate header upperBoundCloseTimeOffset then
    return some .txTooLate
  if chargeFee ∧ tx.getFeeBid < tx.getMinFee header then
    return some .txInsufficientFee
  if ¬ chargeFee ∧ tx.getFeeBid < 0 then
    return some .txInsufficientFee
  if ← exists? (accountKey tx.getSourceID) then
    return none
  else
    return some .txNoAccount

def isBadSeq (seqNum : SequenceNumber) (tx : TransactionFrame) : Bool :=
  seqNum = int64Max || seqNum + 1 ≠ tx.seqNum

/-- The fee was already taken when the transaction is applied; otherwise it must be there. -/
def canPayFee (applying chargeFee : Bool) : LedgerM Bool := do
  if chargeFee then
    let header ← loadHeader
    let feeToPay : ℤ := if applying ∧ 8 < header.ledgerVersion then 0 else tx.getFeeBid % 2 ^ 32
    return ¬ (← getAvailableBalance (.account tx.getSourceID)) < feeToPay
  else
    return true

/-- `commonValid`. A `lastSeq` of zero stands for the sequence number of the account. -/
def commonValid (checker : SignatureChecker) (lastSeq : SequenceNumber)
    (applying chargeFee : Bool) (lowerBoundCloseTimeOffset upperBoundCloseTimeOffset : ℕ) :
    LedgerM Validation :=
  nested do
    if applying ∧ (lowerBoundCloseTimeOffset ≠ 0 ∨ upperBoundCloseTimeOffset ≠ 0) then
      throw (.exception .nonCurrentCloseTime)
    match ← tx.commonValidPreSeqNum chargeFee lowerBoundCloseTimeOffset upperBoundCloseTimeOffset with
    | some code => return (false, ⟨.kInvalid, some code, checker⟩)
    | none =>
      let header ← loadHeader
      let _ ← loadAccount tx.getSourceID
      let acc ← current (accountKey tx.getSourceID)
      -- Before version 10 the sequence number is updated when the fee is taken.
      if (10 ≤ header.ledgerVersion ∨ ¬ applying) ∧
          tx.isBadSeq (if lastSeq = 0 then acc.data.seqNum else lastSeq) then
        return (false, ⟨.kInvalid, some .txBadSeq, checker⟩)
      let (verified, checker) :=
        checkSignature crypto checker tx.getSourceID acc.data acc.data.thresholds.low
      if ¬ verified then
        return (false, ⟨.kInvalidUpdateSeqNum, some .txBadAuth, checker⟩)
      if ← tx.canPayFee applying chargeFee then
        return (false, ⟨.kMaybeValid, none, checker⟩)
      else
        return (false, ⟨.kInvalidPostAuth, some .txInsufficientBalance, checker⟩)

/-- Charges the fee; before version 10 also uses up the sequence number. Returns `feeCharged`. -/
def processFeeSeqNum (baseFee : ℤ) (feeTarget : AccountID) : LedgerM ℤ :=
  block do
    let header ← loadHeader
    let fee ← chargeFee tx.getSourceID feeTarget (tx.getFee header baseFee true)
    if header.ledgerVersion ≤ 9 then
      let acc ← current (accountKey tx.getSourceID)
      require (acc.data.seqNum + 1 = tx.seqNum) .unexpectedFeeAccountState
      put (accountKey tx.getSourceID) { acc with data := { acc.data with seqNum := tx.seqNum } }
    return fee

def processSeqNum : LedgerM Unit :=
  block do
    if 10 ≤ (← loadHeader).ledgerVersion then
      let _ ← loadAccount tx.getSourceID
      let acc ← current (accountKey tx.getSourceID)
      require (acc.data.seqNum ≤ tx.seqNum) .unexpectedSequenceNumber
      put (accountKey tx.getSourceID) { acc with data := { acc.data with seqNum := tx.seqNum } }

/-! ## Signers that are good for one transaction -/

def removeAccountSigner (accountID : AccountID) (signerKey : SignerKey) : LedgerM Unit :=
  nested do
    match ← loadAccount accountID with
    | none => return (false, ())
    | some _ =>
      let found ← removeSignerOf accountID signerKey
      return (found, ())

def removeAccountSigners (signerKey : SignerKey) : List AccountID → LedgerM Unit
  | [] => pure ()
  | accountID :: accounts => do
    removeAccountSigner accountID signerKey
    removeAccountSigners signerKey accounts

/-- The sources of the transaction and of its operations. -/
def sourceAccounts : List AccountID :=
  (tx.getSourceID :: tx.operations.map (Operation.getSourceID · tx.getSourceID)).dedup

def removeOneTimeSignerFromAllSourceAccounts : LedgerM Unit := do
  if (← loadHeader).ledgerVersion = 7 then
    return
  removeAccountSigners (.preAuthTx tx.contentsHash) tx.sourceAccounts

/-! ## Signatures of the operations -/

/-- Whether the signatures of all operations are good; each is looked at. -/
def checkSignatures (tx : TransactionFrame) :
    List Operation → SignatureChecker → LedgerM (Bool × SignatureChecker)
  | [], checker => return (true, checker)
  | op :: ops, checker => do
    let (code, checker) ← op.checkSignature crypto tx.getSourceID checker false
    let (allOpsValid, checker) ← tx.checkSignatures ops checker
    return (code.isNone && allOpsValid, checker)

/-- `processSignatures`: the code of the failure, if there is one. -/
def processSignatures (v : Validation) : LedgerM Validation := do
  let ledgerVersion := (← loadHeader).ledgerVersion
  if ledgerVersion < 10 then
    return v
  if 13 ≤ ledgerVersion ∧ v.type ≠ .kMaybeValid then
    tx.removeOneTimeSignerFromAllSourceAccounts
    return v
  if ledgerVersion < 13 ∧ v.type.rank < ValidationType.kInvalidPostAuth.rank then
    return v
  let (allOpsValid, checker) ← nested do
    return (false, ← tx.checkSignatures crypto tx.operations v.checker)
  tx.removeOneTimeSignerFromAllSourceAccounts
  if ¬ allOpsValid then
    return ⟨v.type, some .txFailed, checker⟩
  if ¬ checker.checkAllSignaturesUsed then
    return ⟨v.type, some .txBadAuthExtra, checker⟩
  return ⟨v.type, v.code, checker⟩

/-! ## Checking -/

/-- Whether all operations are valid, up to the first that is not. -/
def checkOperations (tx : TransactionFrame) :
    List Operation → SignatureChecker → LedgerM (Bool × SignatureChecker)
  | [], checker => return (true, checker)
  | op :: ops, checker => do
    let (code, checker) ← op.checkValid crypto tx.getSourceID checker false
    if code.isSome then
      return (false, checker)
    tx.checkOperations ops checker

def checkValid (lastSeq : SequenceNumber) (chargeFee : Bool)
    (lowerBoundCloseTimeOffset upperBoundCloseTimeOffset : ℕ) :
    LedgerM (Option TransactionResultCode) :=
  nested do
    let checker :=
      SignatureChecker.new (← loadHeader).ledgerVersion tx.contentsHash tx.signatures
    let v ← tx.commonValid crypto checker lastSeq false chargeFee lowerBoundCloseTimeOffset
      upperBoundCloseTimeOffset
    if v.type ≠ .kMaybeValid then
      return (false, v.code)
    let (allOpsValid, checker) ← tx.checkOperations crypto tx.operations v.checker
    if ¬ allOpsValid then
      return (false, some .txFailed)
    if ¬ checker.checkAllSignaturesUsed then
      return (false, some .txBadAuthExtra)
    return (false, none)

/-! ## Applying -/

/-- Applies one operation in a transaction of its own. Until version 13 it is committed even when
the operation failed. -/
def applyOperation (index : ℕ) (op : Operation)
    (checker : SignatureChecker) : LedgerM (OperationResult × SignatureChecker) :=
  nested do
    let balanceID := frames.operationIDHash tx.getSourceID tx.seqNum index
    let (result, checker) ← op.apply crypto frames tx.getSourceID balanceID checker
    return (result.isSuccess || (← loadHeader).ledgerVersion < 14, result, checker)

/-- Applies the operations one after the other, whether or not they succeed. -/
def applyEach (tx : TransactionFrame) :
    ℕ → List Operation → SignatureChecker → LedgerM (List OperationResult × SignatureChecker)
  | _, [], checker => return ([], checker)
  | index, op :: ops, checker => do
    let (result, checker) ← tx.applyOperation frames crypto index op checker
    let (results, checker) ← tx.applyEach (index + 1) ops checker
    return (result :: results, checker)

end TransactionFrame

/-- Whether there is an entry that only lasts for a transaction. -/
def LedgerState.hasSponsorship (s : LedgerState) : Bool :=
  s.entries.keys.any fun
    | .ledgerEntry _ => false
    | .sponsorship _ => true
    | .sponsorshipCounter _ => true

/-- A handler for the exceptions of a block: it gives `a` in place of a result. -/
def catching {α : Type} (body : LedgerM α) (a : α) : LedgerM α := fun s =>
  match body s with
  | .error (.exception _) t => .ok a t
  | r => r

/-- The outcome of a transaction: nothing or the code of its failure, and the results of the
operations that were applied. -/
structure TransactionResult where
  code : Option TransactionResultCode
  results : List OperationResult
  deriving DecidableEq

namespace TransactionFrame

variable (tx : TransactionFrame)

/-- What is left to do when all operations have succeeded: the code of a failure, if any. -/
def finishOperations (checker : SignatureChecker) : LedgerM (Option TransactionResultCode) := do
  let ledgerVersion := (← loadHeader).ledgerVersion
  if ledgerVersion < 10 then
    if ¬ checker.checkAllSignaturesUsed then
      return some .txBadAuthExtra
    tx.removeOneTimeSignerFromAllSourceAccounts
    return none
  if 14 ≤ ledgerVersion ∧ (← get).toLedgerState.hasSponsorship then
    return some .txBadSponsorship
  return none

def applyOperations (checker : SignatureChecker) : LedgerM TransactionResult :=
  catching (nested do
    let (results, checker) ← tx.applyEach frames crypto 0 tx.operations checker
    if results.all OperationResult.isSuccess then
      let code ← tx.finishOperations checker
      return (code.isNone, ⟨code, results⟩)
    else
      return (false, ⟨some .txFailed, results⟩)) ⟨some .txInternalError, []⟩

/-- What is done before the operations: it stays even if they fail. -/
def applyCommon (chargeFee : Bool) : LedgerM Validation := do
  let checker :=
    SignatureChecker.new (← loadHeader).ledgerVersion tx.contentsHash tx.signatures
  nested do
    let v ← tx.commonValid crypto checker 0 true chargeFee 0 0
    if ValidationType.kInvalidUpdateSeqNum.rank ≤ v.type.rank then
      tx.processSeqNum
    return (true, ← tx.processSignatures crypto v)

/-- `apply`. An exception before the operations ends the program. -/
def apply (chargeFee : Bool) : LedgerM TransactionResult := do
  let v ← tx.applyCommon crypto chargeFee
  match v.code with
  | some code => return ⟨some code, []⟩
  | none => tx.applyOperations frames crypto v.checker

end TransactionFrame

/-! ## Fee bumps -/

namespace FeeBumpTransactionFrame

def getNumOperations (tx : FeeBumpTransactionFrame) : ℕ := tx.innerTx.getNumOperations + 1

def getMinFee (header : LedgerHeader) (tx : FeeBumpTransactionFrame) : ℤ :=
  feeFor header.baseFee tx.getNumOperations

def getFee (baseFee : ℤ) (applying : Bool) (tx : FeeBumpTransactionFrame) : ℤ :=
  let adjustedFee := feeFor baseFee tx.getNumOperations
  if applying then min tx.fee adjustedFee else adjustedFee

variable (tx : FeeBumpTransactionFrame)

def commonValidPreSeqNum : LedgerM (Option TransactionResultCode) := do
  let header ← loadHeader
  if header.ledgerVersion < 13 then
    return some .txNotSupported
  if tx.fee < tx.getMinFee header then
    return some .txInsufficientFee
  let v1 ← lift (bigMultiply tx.fee (tx.innerTx.getMinFee header))
  let v2 ← lift (bigMultiply tx.innerTx.getFeeBid (tx.getMinFee header))
  if v1 < v2 then
    return some .txInsufficientFee
  if ← exists? (accountKey tx.feeSource) then
    return none
  else
    return some .txNoAccount

/-- `commonValid`, which is only called when the transaction is not applied. -/
def commonValid (checker : SignatureChecker) :
    LedgerM (Option TransactionResultCode × SignatureChecker) :=
  nested do
    match ← tx.commonValidPreSeqNum with
    | some code => return (false, some code, checker)
    | none =>
      let _ ← loadAccount tx.feeSource
      let feeSource ← current (accountKey tx.feeSource)
      let (verified, checker) :=
        checkSignature crypto checker tx.feeSource feeSource.data feeSource.data.thresholds.low
      if ¬ verified then
        return (false, some .txBadAuth, checker)
      if (← getAvailableBalance (.account tx.feeSource)) < tx.fee then
        return (false, some .txInsufficientBalance, checker)
      return (false, none, checker)

def checkValid (tx : FeeBumpTransactionFrame) (lastSeq : SequenceNumber)
    (lowerBoundCloseTimeOffset upperBoundCloseTimeOffset : ℕ) :
    LedgerM (Option TransactionResultCode) :=
  nested do
    let checker :=
      SignatureChecker.new (← loadHeader).ledgerVersion tx.contentsHash tx.signatures
    let (code, checker) ← tx.commonValid crypto checker
    match code with
    | some code => return (false, some code)
    | none =>
      if ¬ checker.checkAllSignaturesUsed then
        return (false, some .txBadAuthExtra)
      let code ← tx.innerTx.checkValid crypto lastSeq false lowerBoundCloseTimeOffset
        upperBoundCloseTimeOffset
      return (false, code.map fun _ => .txFeeBumpInnerFailed)

def processFeeSeqNum (baseFee : ℤ) (feeTarget : AccountID) : LedgerM ℤ :=
  block (chargeFee tx.feeSource feeTarget (tx.getFee baseFee true))

def removeOneTimeSignerKeyFromFeeSource : LedgerM Unit :=
  block do
    match ← loadAccount tx.feeSource with
    | none => return
    | some _ =>
      let _ ← removeSignerOf tx.feeSource (.preAuthTx tx.contentsHash)
      return

def apply (tx : FeeBumpTransactionFrame) : LedgerM TransactionResult := do
  nested do
    tx.removeOneTimeSignerKeyFromFeeSource
    return (true, ())
  let result ← tx.innerTx.apply frames crypto false
  return ⟨result.code.map fun _ => .txFeeBumpInnerFailed, result.results⟩

end FeeBumpTransactionFrame

/-! ## Both kinds -/

/-- `TransactionFrameBase`. -/
inductive TransactionFrameBase where
  | tx (tx : TransactionFrame)
  | feeBump (tx : FeeBumpTransactionFrame)
  deriving DecidableEq

namespace TransactionFrameBase

def getFullHash : TransactionFrameBase → Hash
  | tx t => t.fullHash
  | feeBump t => t.fullHash

def getSourceID : TransactionFrameBase → AccountID
  | tx t => t.getSourceID
  | feeBump t => t.innerTx.getSourceID

def getFeeSourceID : TransactionFrameBase → AccountID
  | tx t => t.getSourceID
  | feeBump t => t.feeSource

def getSeqNum : TransactionFrameBase → SequenceNumber
  | tx t => t.seqNum
  | feeBump t => t.innerTx.seqNum

def getFeeBid : TransactionFrameBase → ℤ
  | tx t => t.getFeeBid
  | feeBump t => t.fee

def getNumOperations : TransactionFrameBase → ℕ
  | tx t => t.getNumOperations
  | feeBump t => t.getNumOperations

def getMinFee (header : LedgerHeader) : TransactionFrameBase → ℤ
  | tx t => t.getMinFee header
  | feeBump t => t.getMinFee header

/-- The fee of a transaction that is applied. -/
def getFee (header : LedgerHeader) (baseFee : ℤ) : TransactionFrameBase → ℤ
  | tx t => t.getFee header baseFee true
  | feeBump t => t.getFee baseFee true

def checkValid (lastSeq : SequenceNumber)
    (lowerBoundCloseTimeOffset upperBoundCloseTimeOffset : ℕ) :
    TransactionFrameBase → LedgerM (Option TransactionResultCode)
  | tx t => t.checkValid crypto lastSeq true lowerBoundCloseTimeOffset upperBoundCloseTimeOffset
  | feeBump t => t.checkValid crypto lastSeq lowerBoundCloseTimeOffset upperBoundCloseTimeOffset

def processFeeSeqNum (baseFee : ℤ) (feeTarget : AccountID) : TransactionFrameBase → LedgerM ℤ
  | tx t => t.processFeeSeqNum baseFee feeTarget
  | feeBump t => t.processFeeSeqNum baseFee feeTarget

def apply : TransactionFrameBase → LedgerM TransactionResult
  | tx t => t.apply frames crypto true
  | feeBump t => t.apply frames crypto

end TransactionFrameBase

end DigitalBits.Ledger
