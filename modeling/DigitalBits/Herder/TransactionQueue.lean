import DigitalBits.Herder.TxSetFrame

/-!
# The transaction queue

Transactions that were received and are not in a ledger yet, by the account whose
sequence number they use. The account that pays for a transaction has a record
too, which counts the fees of all transactions it pays for. A position in the
queue of an account is a number here, and the position behind the last
transaction is its length. Counters that are only reported are left out.
-/
namespace DigitalBits.Herder

open Scp (Hash)
open Ledger

/-- How a call may fail: by one of the assertions of the queue, by the use of a record that is no
longer there, or by what the transactions and the ledger throw. -/
inductive QueueFailure where
  | feeRelease
  | findBySeq
  | erasedIterator
  | thrown (e : Thrown)
  deriving DecidableEq

inductive OperationType where
  | createAccount
  | payment
  | pathPaymentStrictReceive
  | manageSellOffer
  | createPassiveSellOffer
  | setOptions
  | changeTrust
  | allowTrust
  | accountMerge
  | inflation
  | manageData
  | bumpSequence
  | manageBuyOffer
  | pathPaymentStrictSend
  | createClaimableBalance
  | claimClaimableBalance
  | beginSponsoringFutureReserves
  | endSponsoringFutureReserves
  | revokeSponsorship
  deriving DecidableEq

def operationType : OperationBody → OperationType
  | .createAccount _ => .createAccount
  | .payment _ => .payment
  | .pathPaymentStrictReceive _ => .pathPaymentStrictReceive
  | .manageSellOffer _ => .manageSellOffer
  | .createPassiveSellOffer _ => .createPassiveSellOffer
  | .setOptions _ => .setOptions
  | .changeTrust _ => .changeTrust
  | .allowTrust _ => .allowTrust
  | .accountMerge _ => .accountMerge
  | .inflation => .inflation
  | .manageData _ => .manageData
  | .bumpSequence _ => .bumpSequence
  | .manageBuyOffer _ => .manageBuyOffer
  | .pathPaymentStrictSend _ => .pathPaymentStrictSend
  | .createClaimableBalance _ => .createClaimableBalance
  | .claimClaimableBalance _ => .claimClaimableBalance
  | .beginSponsoringFutureReserves _ => .beginSponsoringFutureReserves
  | .endSponsoringFutureReserves => .endSponsoringFutureReserves
  | .revokeSponsorship _ => .revokeSponsorship

/-- What a queue is made with. It has at least one age. -/
structure QueueConfig where
  mPendingDepth : ℕ
  pendingDepth_pos : 0 < mPendingDepth
  mPoolLedgerMultiplier : ℕ
  mFilteredTypes : List OperationType
  crypto : Crypto
  /-- The hash of the envelope of a transaction. -/
  envelopeHash : TransactionFrame → Hash

structure AccountState where
  mTotalFees : ℤ := 0
  mQueueSizeOps : ℤ := 0
  mAge : ℕ := 0
  mTransactions : List TransactionFrameBase := []
  deriving DecidableEq

structure TransactionQueue where
  mAccountStates : AList fun _ : AccountID => AccountState
  mBannedTransactions : List (List Hash)
  mLedgerVersion : ℕ
  mQueueSizeOps : ℤ

def TransactionQueue.new (banDepth ledgerVersion : ℕ) : TransactionQueue where
  mAccountStates := ∅
  mBannedTransactions := List.replicate banDepth []
  mLedgerVersion := ledgerVersion
  mQueueSizeOps := 0

abbrev QueueM := EStateM QueueFailure TransactionQueue

namespace QueueM

/-- The record an iterator stands at. -/
def stateAt (accountID : AccountID) : QueueM AccountState := do
  match (← get).mAccountStates.lookup accountID with
  | some state => return state
  | none => throw .erasedIterator

def setState (accountID : AccountID) (state : AccountState) : QueueM Unit :=
  modify fun q => { q with mAccountStates := q.mAccountStates.insert accountID state }

def eraseState (accountID : AccountID) : QueueM Unit :=
  modify fun q => { q with mAccountStates := q.mAccountStates.erase accountID }

def addQueueSizeOps (ops : ℤ) : QueueM Unit :=
  modify fun q => { q with mQueueSizeOps := q.mQueueSizeOps + ops }

end QueueM

open QueueM

variable (config : QueueConfig)

/-! ## Replacing a transaction -/

def feeMultiplier : ℤ := 10

/-- Nothing if the transaction can replace the old one, and otherwise the smallest fee with which
it could. -/
def canReplaceByFee (tx oldTx : TransactionFrameBase) : Fallible (Option ℤ) := do
  let newNumOps := max 1 tx.getNumOperations
  let oldNumOps := max 1 oldTx.getNumOperations
  let v1 ← bigMultiply tx.getFeeBid oldNumOps
  let v2 ← bigMultiply oldTx.getFeeBid newNumOps
  let minFeeN := v2 * feeMultiplier
  if minFeeN ≤ v1 then
    return none
  else
    let minFee := Rounding.up.divide minFeeN oldNumOps
    return some (if minFee ≤ int64Max then minFee else int64Max)

/-- The position of a sequence number: that of a transaction or the one behind the last. -/
def findBySeq (seq : SequenceNumber) (transactions : List TransactionFrameBase) :
    Except QueueFailure (Option ℕ) :=
  match transactions.head?, transactions.getLast? with
  | some first, some last =>
    -- The number behind the last one wraps around.
    if seq < first.getSeqNum ∨ int64 (last.getSeqNum + 1) < seq then
      return none
    else
      let i := (seq - first.getSeqNum).toNat
      if (transactions.length : ℤ) < seq - first.getSeqNum then
        throw .findBySeq
      else if i = transactions.length ∨ transactions[i]?.map (·.getSeqNum) = some seq then
        return some i
      else
        throw .findBySeq
  | _, _ => return none

def isDuplicateTx : TransactionFrameBase → TransactionFrameBase → Bool
  | .tx oldTx, .tx newTx => oldTx.isV0 == newTx.isV0 && oldTx.fullHash == newTx.fullHash
  | .feeBump oldTx, .feeBump newTx => oldTx.fullHash == newTx.fullHash
  | .feeBump oldTx, .tx newTx => oldTx.innerTx.fullHash == newTx.fullHash
  | .tx _, .feeBump _ => false

inductive AddResult where
  | pending
  | duplicate
  | error
  | tryAgainLater
  | filtered
  deriving DecidableEq

/-- The status, and what was written into the result of the transaction. -/
structure AddOutcome where
  status : AddResult
  code : Option TransactionResultCode := none
  feeCharged : Option ℤ := none
  deriving DecidableEq

/-- Where a transaction goes in the queue of its account, what it adds to the fees and the
operations, and the sequence number it follows. -/
structure Placement where
  oldTxIter : ℕ
  netFee : ℤ
  netOps : ℤ
  seqNum : SequenceNumber

variable (tx : TransactionFrameBase)

/-- The part of `canAdd` that looks at the queue of the source account. -/
def placeIn (transactions : List TransactionFrameBase) :
    Except QueueFailure (Except AddOutcome Placement) :=
  match transactions.getLast? with
  | none => return .ok ⟨0, tx.getFeeBid, tx.getNumOperations, 0⟩
  | some last =>
    match tx with
    | .tx _ => do
      let duplicate :=
        match ← findBySeq tx.getSeqNum transactions with
        | some i => transactions[i]?.any fun oldTx => isDuplicateTx oldTx tx
        | none => false
      if duplicate then
        return .error { status := .duplicate }
      else
        return .ok ⟨transactions.length, tx.getFeeBid, tx.getNumOperations, last.getSeqNum⟩
    | .feeBump _ => do
      match ← findBySeq tx.getSeqNum transactions with
      | none => return .error { status := .error, code := some .txBadSeq }
      | some i =>
        match transactions[i]? with
        | none => return .ok ⟨i, tx.getFeeBid, tx.getNumOperations, tx.getSeqNum - 1⟩
        | some oldTx =>
          if isDuplicateTx oldTx tx then
            return .error { status := .duplicate }
          else
            match canReplaceByFee tx oldTx with
            | .error e => throw (.thrown e)
            | .ok (some minFee) =>
              return .error
                { status := .error, code := some .txInsufficientFee, feeCharged := some minFee }
            | .ok none =>
              let oldFee := if oldTx.getFeeSourceID = tx.getFeeSourceID then oldTx.getFeeBid else 0
              return .ok ⟨i, tx.getFeeBid - oldFee,
                (tx.getNumOperations : ℤ) - oldTx.getNumOperations, tx.getSeqNum - 1⟩

/-! ## Removing transactions -/

def releaseFeeMaybeEraseAccountState : QueueM Unit := do
  match (← get).mAccountStates.lookup tx.getFeeSourceID with
  | none => throw .feeRelease
  | some state =>
    if state.mTotalFees < tx.getFeeBid then
      throw .feeRelease
    else
      let totalFees := state.mTotalFees - tx.getFeeBid
      if state.mTransactions = [] ∧ totalFees = 0 then
        eraseState tx.getFeeSourceID
      else
        setState tx.getFeeSourceID { state with mTotalFees := totalFees }

/-- One turn of the loop in `dropTransactions`. -/
def dropTransaction (accountID : AccountID) (tx : TransactionFrameBase) : QueueM Unit := do
  let state ← stateAt accountID
  setState accountID { state with mQueueSizeOps := state.mQueueSizeOps - tx.getNumOperations }
  addQueueSizeOps (-tx.getNumOperations)
  releaseFeeMaybeEraseAccountState tx

def dropTransactions (accountID : AccountID) (first last : ℕ) : QueueM Unit := do
  let transactions := (← stateAt accountID).mTransactions
  ((transactions.take last).drop first).forM (dropTransaction accountID)
  let state ← stateAt accountID
  let kept := state.mTransactions.take first ++ state.mTransactions.drop last
  if kept = [] then
    if state.mTotalFees = 0 then
      eraseState accountID
    else
      setState accountID { state with mTransactions := kept, mAge := 0 }
  else
    setState accountID { state with mTransactions := kept }

/-- The accounts that are the source of a transaction, in the order of a map. -/
def sourceAccounts (txs : List TransactionFrameBase) : List AccountID :=
  (txs.map TransactionFrameBase.getSourceID).dedup.insertionSort (· ≤ ·)

/-- `seqByAccount`: the highest sequence number that was applied. -/
def highestSeq (txs : List TransactionFrameBase) (accountID : AccountID) : SequenceNumber :=
  (txs.filter fun tx => tx.getSourceID = accountID).foldl (fun seq tx => max seq tx.getSeqNum) 0

/-- One turn of the loop in `removeApplied`. -/
def removeAppliedOf (appliedTxs : List TransactionFrameBase) (accountID : AccountID) :
    QueueM Unit := do
  match (← get).mAccountStates.lookup accountID with
  | none => return
  | some state =>
    let seq := highestSeq appliedTxs accountID
    match state.mTransactions.head? with
    | none => return
    | some first =>
      if first.getSeqNum ≤ seq then
        let found ← ofExcept (findBySeq seq state.mTransactions)
        let txIter := found.getD state.mTransactions.length
        let txIter := if txIter = state.mTransactions.length then txIter else txIter + 1
        setState accountID { state with mAge := 0 }
        dropTransactions accountID 0 txIter

def removeApplied (appliedTxs : List TransactionFrameBase) : QueueM Unit :=
  (sourceAccounts appliedTxs).forM (removeAppliedOf appliedTxs)

/-! ## Banning -/

def isBanned (q : TransactionQueue) (hash : Hash) : Bool :=
  q.mBannedTransactions.any fun hashes => hash ∈ hashes

/-- Adds hashes to those that were banned last. -/
def banHashes (hashes : List Hash) : QueueM Unit :=
  modify fun q =>
    match q.mBannedTransactions with
    | [] => q
    | front :: rest =>
      { q with mBannedTransactions := hashes.foldl (fun front hash => front.insert hash) front :: rest }

def findTx (transactions : List TransactionFrameBase) (txIter : ℕ) : Except QueueFailure ℕ := do
  match ← findBySeq tx.getSeqNum transactions with
  | none => return txIter
  | some i =>
    if transactions[i]?.map (·.getFullHash) = some tx.getFullHash then
      return i
    else
      return txIter

/-- The first transaction in the queue that is to be banned. -/
def firstBanned (transactions : List TransactionFrameBase) :
    List TransactionFrameBase → ℕ → Except QueueFailure ℕ
  | [], txIter => return txIter
  | tx :: txs, txIter => do
    match transactions[txIter]? with
    | none => firstBanned transactions txs (← findTx tx transactions txIter)
    | some found =>
      if tx.getSeqNum < found.getSeqNum then
        firstBanned transactions txs (← findTx tx transactions txIter)
      else
        firstBanned transactions txs txIter

/-- One turn of the loop in `ban`. -/
def banOf (banTxs : List TransactionFrameBase) (accountID : AccountID) : QueueM Unit := do
  match (← get).mAccountStates.lookup accountID with
  | none => return
  | some state =>
    if state.mTransactions = [] then
      return
    else
      let txIter ← ofExcept (firstBanned state.mTransactions
        (banTxs.filter fun tx => tx.getSourceID = accountID) state.mTransactions.length)
      banHashes ((state.mTransactions.drop txIter).map TransactionFrameBase.getFullHash)
      dropTransactions accountID txIter state.mTransactions.length

def ban (banTxs : List TransactionFrameBase) : QueueM Unit := do
  banHashes (banTxs.map TransactionFrameBase.getFullHash)
  (sourceAccounts banTxs).forM (banOf banTxs)

/-- One turn of the loop in `shift` over the transactions of an account. -/
def releaseAndBan (toBan : TransactionFrameBase) : QueueM Unit := do
  releaseFeeMaybeEraseAccountState toBan
  banHashes [toBan.getFullHash]

/-- One turn of the loop in `shift`. The iterator stays at an account that is kept when its
transactions were banned. It is then visited again, with no transactions, and nothing changes. -/
def shiftOf (accountID : AccountID) : QueueM Unit := do
  match (← get).mAccountStates.lookup accountID with
  | none => return
  | some state =>
    let state := if state.mTransactions = [] then state else { state with mAge := state.mAge + 1 }
    setState accountID state
    if config.mPendingDepth = state.mAge then
      state.mTransactions.forM releaseAndBan
      let state ← stateAt accountID
      addQueueSizeOps (-state.mQueueSizeOps)
      if state.mTotalFees = 0 then
        eraseState accountID
      else
        setState accountID { state with mQueueSizeOps := 0, mTransactions := [], mAge := 0 }

def shift (platform : Platform) : QueueM Unit := do
  modify fun q => { q with mBannedTransactions := [] :: q.mBannedTransactions.dropLast }
  (platform.mapOrder (← get).mAccountStates.keys).forM (shiftOf config)

/-! ## Adding a transaction -/

variable (lcl : LastClosedLedger)

def maxQueueSizeOps : ℕ :=
  getLastMaxTxSetSizeOps lcl.state.header * config.mPoolLedgerMultiplier

def isFiltered : Bool :=
  match tx with
  | .tx tx => tx.operations.any fun op => operationType op.body ∈ config.mFilteredTypes
  | .feeBump tx => tx.innerTx.operations.any fun op => operationType op.body ∈ config.mFilteredTypes

variable (upperBoundCloseTimeOffset : ℕ)

/-- The code with which the transaction is not valid, or what its fee source has available. -/
def validBalance (seqNum : SequenceNumber) (tx : TransactionFrameBase) :
    Fallible (Except TransactionResultCode ℤ) :=
  ask lcl.state do
    match ← tx.checkValid config.crypto seqNum 0 upperBoundCloseTimeOffset with
    | some code => return .error code
    | none =>
      let _ ← loadAccount tx.getFeeSourceID
      return .ok (← getAvailableBalance (.account tx.getFeeSourceID))

/-- The outcome, and for a transaction that can be added its position. -/
def canAdd (tx : TransactionFrameBase) : QueueM (AddOutcome × ℕ) := do
  let q ← get
  if isBanned q tx.getFullHash then
    return ({ status := .tryAgainLater }, 0)
  else if isFiltered config tx then
    return ({ status := .filtered }, 0)
  else
    let transactions := ((q.mAccountStates.lookup tx.getSourceID).map (·.mTransactions)).getD []
    match ← ofExcept (placeIn tx transactions) with
    | .error outcome => return (outcome, 0)
    | .ok place =>
      if (maxQueueSizeOps config lcl : ℤ) < place.netOps + q.mQueueSizeOps then
        ban [tx]
        return ({ status := .tryAgainLater }, 0)
      else
        match validBalance config lcl upperBoundCloseTimeOffset place.seqNum tx with
        | .error e => throw (.thrown e)
        | .ok (.error code) => return ({ status := .error, code := some code }, 0)
        | .ok (.ok available) =>
          let totalFees :=
            ((q.mAccountStates.lookup tx.getFeeSourceID).map (·.mTotalFees)).getD 0
          if available - place.netFee < totalFees then
            return ({ status := .error, code := some .txInsufficientBalance }, 0)
          else
            return ({ status := .pending }, place.oldTxIter)

/-- The part of `tryAdd` that puts the transaction into the queue of its account, which has the
record `state`. -/
def replaceOrAppend (oldTxIter : ℕ) (state : AccountState) : QueueM Unit := do
  setState tx.getSourceID state
  match state.mTransactions[oldTxIter]? with
  | some oldTx =>
    releaseFeeMaybeEraseAccountState oldTx
    let state ← stateAt tx.getSourceID
    addQueueSizeOps (-oldTx.getNumOperations)
    setState tx.getSourceID { state with
      mQueueSizeOps := state.mQueueSizeOps - oldTx.getNumOperations,
      mTransactions := state.mTransactions.set oldTxIter tx }
  | none => setState tx.getSourceID { state with mTransactions := state.mTransactions ++ [tx] }

/-- The part of `tryAdd` that counts the operations and the fee of the new transaction. -/
def countTransaction : QueueM Unit := do
  let state ← stateAt tx.getSourceID
  setState tx.getSourceID { state with mQueueSizeOps := state.mQueueSizeOps + tx.getNumOperations }
  addQueueSizeOps tx.getNumOperations
  let feeState := ((← get).mAccountStates.lookup tx.getFeeSourceID).getD {}
  setState tx.getFeeSourceID { feeState with mTotalFees := feeState.mTotalFees + tx.getFeeBid }

def tryAdd (tx : TransactionFrameBase) : QueueM AddOutcome := do
  let (outcome, oldTxIter) ← canAdd config lcl upperBoundCloseTimeOffset tx
  if outcome.status = .pending then
    let state := ((← get).mAccountStates.lookup tx.getSourceID).getD {}
    replaceOrAppend tx oldTxIter state
    countTransaction tx
  return outcome

/-! ## Upgrading to version 13 -/

/-- `convertForV13`, and the frame made of the result. -/
def convertForV13 : TransactionFrameBase → TransactionFrameBase
  | .tx tx =>
    if tx.isV0 then
      let txV1 := { tx with isV0 := false }
      .tx { txV1 with fullHash := config.envelopeHash txV1 }
    else
      .tx tx
  | .feeBump tx => .feeBump tx

structure ReplacedTransaction where
  mOld : TransactionFrameBase
  mNew : TransactionFrameBase

/-- One turn of the loop in `maybeVersionUpgraded`. -/
def upgradeOf (accountID : AccountID) : QueueM (List ReplacedTransaction) := do
  let state ← stateAt accountID
  setState accountID { state with mTransactions := state.mTransactions.map (convertForV13 config) }
  return state.mTransactions.map fun tx => ⟨tx, convertForV13 config tx⟩

def upgradeAll : List AccountID → QueueM (List ReplacedTransaction)
  | [] => return []
  | accountID :: accountIDs => do
    let replaced ← upgradeOf config accountID
    return replaced ++ (← upgradeAll accountIDs)

def maybeVersionUpgraded (platform : Platform) (lcl : LastClosedLedger) :
    QueueM (List ReplacedTransaction) := do
  let q ← get
  let ledgerVersion := lcl.state.header.ledgerVersion
  if q.mLedgerVersion < 13 ∧ 13 ≤ ledgerVersion then
    set { q with
      mBannedTransactions := q.mBannedTransactions.map fun _ => [], mLedgerVersion := ledgerVersion }
    upgradeAll config (platform.mapOrder q.mAccountStates.keys)
  else
    set { q with mLedgerVersion := ledgerVersion }
    return []

/-! ## Runs -/

/-- A call, with what the node finds at that time. -/
inductive QueueCall where
  | tryAdd (lcl : LastClosedLedger) (upperBoundCloseTimeOffset : ℕ) (tx : TransactionFrameBase)
  | removeApplied (appliedTxs : List TransactionFrameBase)
  | ban (banTxs : List TransactionFrameBase)
  | shift (platform : Platform)
  | maybeVersionUpgraded (platform : Platform) (lcl : LastClosedLedger)

def QueueCall.run : QueueCall → QueueM Unit
  | tryAdd lcl upper tx => do
    let _ ← Herder.tryAdd config lcl upper tx
  | removeApplied appliedTxs => Herder.removeApplied appliedTxs
  | ban banTxs => Herder.ban banTxs
  | shift platform => Herder.shift config platform
  | maybeVersionUpgraded platform lcl => do
    let _ ← Herder.maybeVersionUpgraded config platform lcl

end DigitalBits.Herder
