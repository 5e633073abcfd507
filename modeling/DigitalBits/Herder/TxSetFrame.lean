import DigitalBits.Transactions.TransactionFrame

/-!
# Transaction sets

The set of transactions that is proposed for the next ledger. It is checked
against the last closed ledger, and the verdict is kept. A node that builds a
set first drops what is not valid and then what does not fit in. What the
program leaves open is a parameter: the order in which a hash map is gone
through and the hash of a set.
-/
namespace DigitalBits.Herder

open Scp (Hash)
open Ledger

/-- The order in which a map from accounts is gone through, and the hash of a set. -/
structure Platform where
  mapOrder : List AccountID → List AccountID
  mapOrder_perm : ∀ l, (mapOrder l).Perm l
  hashOf : Hash → List TransactionFrameBase → Hash

/-- The last closed ledger, by its hash and what it holds. -/
structure LastClosedLedger where
  hash : Hash
  state : LedgerState

variable (platform : Platform) (crypto : Crypto) (lcl : LastClosedLedger)

/-- What a computation on a ledger gives when its transaction is rolled back. -/
def ask {α : Type} (s : LedgerState) (m : LedgerM α) : Fallible α :=
  match m { s with } with
  | .ok a _ => .ok a
  | .error e _ => .error e

theorem yields_ask {α : Type} {s : LedgerState} {m : LedgerM α} {Q : α → Prop} {E : Thrown → Prop} :
    Lib.Yields (ask s m) Q E ↔ Lib.After m { s with } (fun a _ => Q a) (fun e _ => E e) := by
  unfold ask Lib.After
  cases m { s with } <;> rfl

def maxOpsPerTx : ℕ := 100

/-- The transactions of one account. -/
abbrev AccountTransactionQueue := List TransactionFrameBase

/-- A transaction set with its two caches. -/
structure TxSetFrame where
  mPreviousLedgerHash : Hash
  mTransactions : List TransactionFrameBase
  mHash : Option Hash := none
  mValid : Option (Hash × Bool) := none
  deriving DecidableEq

/-- `SeqSorter`. -/
def sortBySeqNum (txs : AccountTransactionQueue) : AccountTransactionQueue :=
  txs.insertionSort fun tx1 tx2 => tx1.getSeqNum ≤ tx2.getSeqNum

variable (txs : List TransactionFrameBase)

/-- The transactions of an account, in the order of their sequence numbers. -/
def queueOf (accountID : AccountID) : AccountTransactionQueue :=
  sortBySeqNum (txs.filter fun tx => tx.getSourceID = accountID)

/-- The account is the source of the transaction. -/
abbrev sentBy (A : AccountID) (tx : TransactionFrameBase) : Bool := tx.getSourceID = A

/-- The accounts that are the source of a transaction, as the map goes through them. -/
def sourcesOf : List AccountID :=
  platform.mapOrder (txs.map TransactionFrameBase.getSourceID).dedup

def buildAccountTxQueues : List AccountTransactionQueue :=
  (sourcesOf platform txs).map (queueOf txs)

/-! ## Checking and trimming -/

/-- `accountFeeMap`: what the transactions seen so far bid, by the account that pays. -/
abbrev FeeMap := AccountID → ℤ

/-- Adds a bid, up to the largest number there is. -/
def FeeMap.add (fees : FeeMap) (tx : TransactionFrameBase) : FeeMap :=
  Function.update fees tx.getFeeSourceID
    (if int64Max - fees tx.getFeeSourceID < tx.getFeeBid then int64Max
     else fees tx.getFeeSourceID + tx.getFeeBid)

/-- Whether a transaction is valid after one with the sequence number `lastSeq`. -/
def isTxValid (lower upper : ℕ) (lastSeq : SequenceNumber) (tx : TransactionFrameBase) :
    Fallible Bool := do
  return (← ask lcl.state (tx.checkValid crypto lastSeq lower upper)).isNone

/-- The first loop of `checkOrTrim` over one queue. Nothing is returned when a transaction is not
valid and should only be checked. -/
def checkQueue (justCheck : Bool) (lower upper : ℕ) :
    SequenceNumber → AccountTransactionQueue → FeeMap →
      Fallible (Option (AccountTransactionQueue × List TransactionFrameBase × FeeMap))
  | _, [], fees => return some ([], [], fees)
  | lastSeq, tx :: txs, fees => do
    if ← isTxValid crypto lcl lower upper lastSeq tx then
      match ← checkQueue justCheck lower upper tx.getSeqNum txs (fees.add tx) with
      | none => return none
      | some (kept, trimmed, fees) => return some (tx :: kept, trimmed, fees)
    else if justCheck then
      return none
    else
      match ← checkQueue justCheck lower upper lastSeq txs fees with
      | none => return none
      | some (kept, trimmed, fees) => return some (kept, tx :: trimmed, fees)

def checkQueues (justCheck : Bool) (lower upper : ℕ) :
    List AccountTransactionQueue → FeeMap →
      Fallible (Option (List AccountTransactionQueue × List TransactionFrameBase × FeeMap))
  | [], fees => return some ([], [], fees)
  | queue :: queues, fees => do
    match ← checkQueue crypto lcl justCheck lower upper 0 queue fees with
    | none => return none
    | some (kept, trimmed, fees) =>
      match ← checkQueues justCheck lower upper queues fees with
      | none => return none
      | some (kepts, trimmeds, fees) => return some (kept :: kepts, trimmed ++ trimmeds, fees)

/-- What the account that pays for a transaction has to spend. -/
def availableBalance (accountID : AccountID) : LedgerM ℤ :=
  block do
    let _ ← loadAccount accountID
    getAvailableBalance (.account accountID)

/-- The second loop of `checkOrTrim` over one queue: the first transaction whose payer can not pay
for all its transactions is trimmed with those that follow. -/
def payQueue (justCheck : Bool) (fees : FeeMap) :
    AccountTransactionQueue → Fallible (Option (AccountTransactionQueue × List TransactionFrameBase))
  | [] => return some ([], [])
  | tx :: txs => do
    if (← ask lcl.state (availableBalance tx.getFeeSourceID)) < fees tx.getFeeSourceID then
      return if justCheck then none else some ([], tx :: txs)
    else
      match ← payQueue justCheck fees txs with
      | none => return none
      | some (kept, trimmed) => return some (tx :: kept, trimmed)

def payQueues (justCheck : Bool) (fees : FeeMap) :
    List AccountTransactionQueue → Fallible (Option (List TransactionFrameBase))
  | [] => return some []
  | queue :: queues => do
    match ← payQueue lcl justCheck fees queue with
    | none => return none
    | some (_, trimmed) =>
      match ← payQueues justCheck fees queues with
      | none => return none
      | some trimmeds => return some (trimmed ++ trimmeds)

/-- `checkOrTrim`: the transactions to trim; nothing if the set is only checked and not valid. -/
def checkOrTrim (justCheck : Bool) (lower upper : ℕ) (txs : List TransactionFrameBase) :
    Fallible (Option (List TransactionFrameBase)) := do
  match ← checkQueues crypto lcl justCheck lower upper (buildAccountTxQueues platform txs)
      (fun _ => 0) with
  | none => return none
  | some (kept, trimmed, fees) =>
    match ← payQueues lcl justCheck fees kept with
    | none => return none
    | some unpaid => return some (trimmed ++ unpaid)

variable (set : TxSetFrame)

namespace TxSetFrame

/-- Orders the transactions by their full hashes. -/
def sortForHash : TxSetFrame :=
  { set with
    mTransactions :=
      set.mTransactions.insertionSort fun tx1 tx2 => tx1.getFullHash ≤ tx2.getFullHash
    mHash := none
    mValid := none }

def removeTx (tx : TransactionFrameBase) : TxSetFrame :=
  { set with mTransactions := set.mTransactions.erase tx, mHash := none, mValid := none }

def getContentsHash : Hash × TxSetFrame :=
  match set.mHash with
  | some hash => (hash, set)
  | none =>
    let set := set.sortForHash
    let hash := platform.hashOf set.mPreviousLedgerHash set.mTransactions
    (hash, { set with mHash := some hash })

def sizeTx : ℕ := set.mTransactions.length
def sizeOp : ℕ := (set.mTransactions.map TransactionFrameBase.getNumOperations).sum

def size (lh : LedgerHeader) (set : TxSetFrame) : ℕ :=
  if 11 ≤ lh.ledgerVersion then set.sizeOp else set.sizeTx

/-- The transactions that were trimmed, and the set without them. -/
def trimInvalid (lower upper : ℕ) : Fallible (List TransactionFrameBase × TxSetFrame) := do
  let set := set.sortForHash
  match ← checkOrTrim platform crypto lcl false lower upper set.mTransactions with
  | none => return ([], set)
  | some trimmed => return (trimmed, trimmed.foldl removeTx set)

/-- The verdict that `checkValid` comes to when it has none. -/
def isValid (lower upper : ℕ) : Fallible Bool := do
  if lcl.hash ≠ set.mPreviousLedgerHash then
    return false
  if lcl.state.header.maxTxSetSize < set.size lcl.state.header then
    return false
  if ¬ set.mTransactions.IsChain (fun tx1 tx2 => tx1.getFullHash ≤ tx2.getFullHash) then
    return false
  return (← checkOrTrim platform crypto lcl true lower upper set.mTransactions).isSome

/-- `checkValid`: the verdict is kept with the hash of the ledger for which it was found. -/
def checkValid (lower upper : ℕ) : Fallible (Bool × TxSetFrame) := do
  match set.mValid with
  | some (hash, valid) =>
    if hash = lcl.hash then
      return (valid, set)
    let valid ← set.isValid platform crypto lcl lower upper
    return (valid, { set with mValid := some (lcl.hash, valid) })
  | none =>
    let valid ← set.isValid platform crypto lcl lower upper
    return (valid, { set with mValid := some (lcl.hash, valid) })

end TxSetFrame

/-! ## Surge pricing -/

def lessThanXored (l r x : Hash) : Bool := x.val ^^^ l.val < x.val ^^^ r.val

/-- `SurgeCompare`: by the fee for each operation, and then by hash. -/
def surgeCompare (seed : Hash) : AccountTransactionQueue → AccountTransactionQueue → Fallible Bool
  | [], queue2 => return !queue2.isEmpty
  | _ :: _, [] => return false
  | top1 :: _, top2 :: _ => do
    let v1 ← bigMultiply top1.getFeeBid top2.getNumOperations
    let v2 ← bigMultiply top2.getFeeBid top1.getNumOperations
    if v1 < v2 then
      return true
    if v2 < v1 then
      return false
    return lessThanXored top1.getFullHash top2.getFullHash seed

/-- The queue on top of the priority queue, and the others. -/
def popTop (seed : Hash) :
    AccountTransactionQueue → List AccountTransactionQueue →
      Fallible (AccountTransactionQueue × List AccountTransactionQueue)
  | top, [] => return (top, [])
  | top, queue :: queues => do
    if ← surgeCompare seed top queue then
      let (best, others) ← popTop seed queue queues
      return (best, top :: others)
    else
      let (best, others) ← popTop seed top queues
      return (best, queue :: others)

/-- The loop of `surgePricingFilter`. A transaction that does not fit in is dropped with those
that follow it in its queue. -/
def surgeLoop (seed : Hash) (maxIsOps : Bool) :
    ℕ → ℕ → List AccountTransactionQueue → List TransactionFrameBase →
      Fallible (List TransactionFrameBase)
  | _, 0, _, updatedSet => return updatedSet
  | _, _ + 1, [], updatedSet => return updatedSet
  | 0, _ + 1, _ :: _, _ => throw .outOfFuel
  | fuel + 1, opsLeft + 1, queue :: queues, updatedSet => do
    let (top, others) ← popTop seed queue queues
    match top with
    | [] => surgeLoop seed maxIsOps fuel (opsLeft + 1) others updatedSet
    | tx :: txs =>
      let opsCount := if maxIsOps then tx.getNumOperations else maxOpsPerTx
      if opsCount ≤ opsLeft + 1 then
        surgeLoop seed maxIsOps fuel (opsLeft + 1 - opsCount)
          (if txs = [] then others else txs :: others) (updatedSet ++ [tx])
      else
        surgeLoop seed maxIsOps fuel (opsLeft + 1) others updatedSet

def getLastMaxTxSetSizeOps (lh : LedgerHeader) : ℕ :=
  if 11 ≤ lh.ledgerVersion then lh.maxTxSetSize else lh.maxTxSetSize * maxOpsPerTx % 2 ^ 32

namespace TxSetFrame

/-- `surgePricingFilter`, with the random seed of its comparison. -/
def surgePricingFilter (seed : Hash) : Fallible TxSetFrame := do
  let header := lcl.state.header
  let maxIsOps : Bool := 11 ≤ header.ledgerVersion
  let opsLeft := getLastMaxTxSetSizeOps header
  let curSizeOps := if maxIsOps then set.sizeOp else set.sizeTx * maxOpsPerTx
  if opsLeft < curSizeOps then
    let updatedSet ← surgeLoop seed maxIsOps set.mTransactions.length opsLeft
      (buildAccountTxQueues platform set.mTransactions) []
    return { set with mTransactions := updatedSet }.sortForHash
  else
    return set

end TxSetFrame

/-! ## The order in which a set is applied -/

/-- The first transaction of each queue, and what is left of the queues. -/
def popBatch : List AccountTransactionQueue → List TransactionFrameBase × List AccountTransactionQueue
  | [] => ([], [])
  | [] :: queues => popBatch queues
  | (tx :: txs) :: queues =>
    let (batch, rest) := popBatch queues
    (tx :: batch, if txs = [] then rest else txs :: rest)

/-- `txBatches`: as many as the longest queue has transactions. -/
def txBatches : ℕ → List AccountTransactionQueue → List (List TransactionFrameBase)
  | 0, _ => []
  | _ + 1, [] => []
  | fuel + 1, queue :: queues =>
    let (batch, rest) := popBatch (queue :: queues)
    batch :: txBatches fuel rest

namespace TxSetFrame

/-- `sortForApply`: by batches, each in the order of the hashes mixed with that of the set. -/
def sortForApply : List TransactionFrameBase × TxSetFrame :=
  let batches := txBatches set.mTransactions.length (buildAccountTxQueues platform set.mTransactions)
  let (hash, set) := set.getContentsHash platform
  (batches.flatMap fun batch => batch.insertionSort fun tx1 tx2 =>
    ¬ lessThanXored tx2.getFullHash tx1.getFullHash hash, set)

end TxSetFrame

end DigitalBits.Herder
