import DigitalBits.Ledger.Types

/-!
# Signatures

A signature checker adds up the weights of the signers whose signature it finds,
and remembers which signatures were used. Whether a signature fits a key is
asked of the cryptography.
-/
namespace DigitalBits.Ledger

open Scp (Hash)

structure DecoratedSignature where
  hint : Bytes
  signature : Bytes
  deriving DecidableEq

/-- The two checks of `SignatureUtils`. -/
structure Crypto where
  verifyHashX : DecoratedSignature → SignerKey → Bool
  verify : DecoratedSignature → SignerKey → Hash → Bool

variable (crypto : Crypto)

structure SignatureChecker where
  mProtocolVersion : ℕ
  mContentsHash : Hash
  mSignatures : List DecoratedSignature
  mUsedSignatures : List Bool
  deriving DecidableEq

namespace SignatureChecker

/-- The constructor: no signature has been used. -/
def new (protocolVersion : ℕ) (contentsHash : Hash) (signatures : List DecoratedSignature) :
    SignatureChecker :=
  ⟨protocolVersion, contentsHash, signatures, List.replicate signatures.length false⟩

/-- What a signer counts. -/
def weight (c : SignatureChecker) (signer : Signer) : ℕ :=
  if 9 < c.mProtocolVersion ∧ uint8Max < signer.weight then uint8Max else signer.weight

/-- The signers that name the transaction itself; whether they were enough. -/
def addPreAuthTx (c : SignatureChecker) (neededWeight : ℕ) : List Signer → ℕ → Bool × ℕ
  | [], totalWeight => (false, totalWeight)
  | signer :: signers, totalWeight =>
    if signer.key = .preAuthTx c.mContentsHash then
      let totalWeight := totalWeight + c.weight signer
      if neededWeight ≤ totalWeight then
        (true, totalWeight)
      else
        c.addPreAuthTx neededWeight signers totalWeight
    else
      c.addPreAuthTx neededWeight signers totalWeight

/-- `verifyAll` from signature `i` on: whether there was enough weight, the weight, and the
signatures used. A signer counts once. -/
def verifyAll (c : SignatureChecker) (verify : DecoratedSignature → Signer → Bool)
    (neededWeight : ℕ) :
    List DecoratedSignature → ℕ → List Signer → ℕ → List Bool → Bool × ℕ × List Bool
  | [], _, _, totalWeight, used => (false, totalWeight, used)
  | sig :: sigs, i, signers, totalWeight, used =>
    match signers.find? (verify sig) with
    | none => c.verifyAll verify neededWeight sigs (i + 1) signers totalWeight used
    | some signer =>
      let totalWeight := totalWeight + c.weight signer
      let used := used.set i true
      if neededWeight ≤ totalWeight then
        (true, totalWeight, used)
      else
        c.verifyAll verify neededWeight sigs (i + 1) (signers.eraseP (verify sig)) totalWeight used

/-- Whether the signatures carry the needed weight, and the checker afterwards. -/
def checkSignature (c : SignatureChecker) (signers : List Signer) (neededWeight : ℕ) :
    Bool × SignatureChecker :=
  if c.mProtocolVersion = 7 then
    (true, c)
  else
    let (enough, totalWeight) :=
      c.addPreAuthTx neededWeight (signers.filter (·.key.type = 1)) 0
    if enough then
      (true, c)
    else
      let (enough, totalWeight, used) :=
        c.verifyAll (fun sig signer => crypto.verifyHashX sig signer.key) neededWeight c.mSignatures 0
          (signers.filter (·.key.type = 2)) totalWeight c.mUsedSignatures
      if enough then
        (true, { c with mUsedSignatures := used })
      else
        let (enough, _, used) :=
          c.verifyAll (fun sig signer => crypto.verify sig signer.key c.mContentsHash) neededWeight
            c.mSignatures 0 (signers.filter (·.key.type = 0)) totalWeight used
        (enough, { c with mUsedSignatures := used })

def checkAllSignaturesUsed (c : SignatureChecker) : Bool :=
  c.mProtocolVersion = 7 || c.mUsedSignatures.all id

end SignatureChecker

/-- `TransactionFrame::checkSignature`: the account's master key comes before its signers. -/
def checkSignature (checker : SignatureChecker) (accountID : AccountID) (acc : AccountEntry)
    (neededWeight : ℕ) : Bool × SignatureChecker :=
  let master : List Signer :=
    if acc.thresholds.masterWeight = 0 then []
    else [⟨.ed25519 accountID, acc.thresholds.masterWeight⟩]
  checker.checkSignature crypto (master ++ acc.signers) neededWeight

def checkSignatureNoAccount (checker : SignatureChecker) (accountID : AccountID) :
    Bool × SignatureChecker :=
  checker.checkSignature crypto [⟨.ed25519 accountID, 1⟩] 0

end DigitalBits.Ledger
