import DigitalBits.Transactions.TransactionUtils

/-!
# Reserves and who pays them

The functions of `SponsorshipUtils.cpp`: what an entry or a signer counts in the
reserve of its owner or sponsor, whether an account can take it on, and the
counters after it did. Where the program passes an entry by reference, the entry
after the call is returned; an account that it passes as an active entry is
written back under its key. A signer is given by its position.
-/
namespace DigitalBits.Ledger

/-! ## The reserve of an entry -/

def computeMultiplier : (key : LedgerKey) → key.Data → ℕ
  | .account _, _ => 2
  | .claimableBalance _, cb => cb.claimants.1.length
  | _, _ => 1

namespace LedgerKey

def isAccount : LedgerKey → Bool
  | account _ => true
  | _ => false

def isClaimableBalance : LedgerKey → Bool
  | claimableBalance _ => true
  | _ => false

end LedgerKey

/-! ## Counters -/

namespace AccountEntry

def addNumSponsoring (acc : AccountEntry) (extV2 : AccountEntryExtensionV2) (delta : ℤ) :
    LedgerM AccountEntry := do
  let numSponsoring ← counter (extV2.numSponsoring + delta)
  return acc.withExtensionV2 { extV2 with numSponsoring := numSponsoring }

def addNumSponsored (acc : AccountEntry) (extV2 : AccountEntryExtensionV2) (delta : ℤ) :
    LedgerM AccountEntry := do
  let numSponsored ← counter (extV2.numSponsored + delta)
  return acc.withExtensionV2 { extV2 with numSponsored := numSponsored }

def addNumSubEntries (acc : AccountEntry) (delta : ℤ) : LedgerM AccountEntry := do
  let numSubEntries ← counter (acc.numSubEntries + delta)
  return { acc with numSubEntries := numSubEntries }

end AccountEntry

/-! ## Whether a sponsorship can be established, removed or transferred -/

variable (lh : LedgerHeader)

def accountIsSponsor (sponsoringID : Option AccountID) (sponsoringAccID : AccountID) :
    Fallible Unit :=
  Fallible.require (sponsoringID = some sponsoringAccID) .sponsorshipDoesntMatch

/-- `extV2.signerSponsoringIDs.at(n)`. -/
def AccountEntryExtensionV2.signerSponsoringID (extV2 : AccountEntryExtensionV2) (n : ℕ) :
    Fallible (Option AccountID) :=
  match extV2.signerSponsoringIDs[n]? with
  | some sponsoringID => pure sponsoringID
  | none => throw (.exception .outOfRange)

variable (n : ℕ) (sponsoringAccID : AccountID)

/-- Sponsorships exist since version 14. -/
def requireSponsorships : Fallible Unit :=
  Fallible.require (14 ≤ lh.ledgerVersion) .sponsorshipBeforeVersion14

variable (sponsoringAcc sponsoredAcc : AccountEntry)

/-! ## Establishing, removing and transferring -/

/-- An entry with what a call made of the accounts it was given. -/
structure Sponsored (key : LedgerKey) where
  le : LedgerEntry key.Data
  sponsoringAcc : AccountEntry
  sponsoredAcc : Option AccountEntry

/-- `getLedgerEntryExtensionV1(le).sponsoringID`. -/
def getSponsoringID {α : Type} (le : LedgerEntry α) : Fallible (Option AccountID) :=
  match le.ext with
  | .v0 => throw (.exception .expectedLedgerEntryExtensionV1)
  | .v1 sponsoringID => pure sponsoringID

def removeEntrySponsorship (key : LedgerKey) (le : LedgerEntry key.Data)
    (sponsoringAccID : AccountID) (sponsoringAcc : AccountEntry)
    (sponsoredAcc : Option AccountEntry) : LedgerM (Sponsored key) := do
  lift (accountIsSponsor (← lift (getSponsoringID le)) sponsoringAccID)
  let mult := computeMultiplier key le.data
  let le := { le with ext := .v1 none }
  let sponsoringAcc ←
    sponsoringAcc.addNumSponsoring (← lift sponsoringAcc.getAccountEntryExtensionV2) (-mult)
  match sponsoredAcc with
  | none => return ⟨le, sponsoringAcc, none⟩
  | some acc =>
    let acc ← acc.addNumSponsored (← lift acc.getAccountEntryExtensionV2) (-mult)
    return ⟨le, sponsoringAcc, some acc⟩

/-- The sponsor of one signer is set, and the number of sponsored reserves with it. -/
def AccountEntry.setSignerSponsor (acc : AccountEntry) (extV2 : AccountEntryExtensionV2) (n : ℕ)
    (sponsoringID : Option AccountID) (delta : ℤ) : LedgerM AccountEntry :=
  acc.addNumSponsored
    { extV2 with signerSponsoringIDs := extV2.signerSponsoringIDs.set n sponsoringID } delta

/-- The sponsoring account and the sponsored one. -/
def removeSignerSponsorship : LedgerM (AccountEntry × AccountEntry) := do
  let extV2 ← lift sponsoredAcc.getAccountEntryExtensionV2
  lift (accountIsSponsor (← lift (extV2.signerSponsoringID n)) sponsoringAccID)
  let sponsoredAcc ← sponsoredAcc.setSignerSponsor extV2 n none (-1)
  let sponsoringAcc ←
    sponsoringAcc.addNumSponsoring (← lift sponsoringAcc.getAccountEntryExtensionV2) (-1)
  return (sponsoringAcc, sponsoredAcc)

/-! ## Whether an entry or a signer can be created or removed -/

def canRemoveEntryWithoutSponsorship (key : LedgerKey) (le : LedgerEntry key.Data)
    (acc : AccountEntry) : Fallible Unit :=
  Fallible.require (key.isAccount ∨ computeMultiplier key le.data ≤ acc.numSubEntries)
    .invalidAccountState

/-- `isSponsoredAcc` tells whether the entry is the sponsored account itself. -/
def canRemoveEntryWithSponsorship (key : LedgerKey)
    (le : LedgerEntry key.Data) (sponsoringAcc : AccountEntry)
    (sponsoredAcc : Option AccountEntry) (isSponsoredAcc : Bool) : Fallible Unit := do
  requireSponsorships lh
  let mult := computeMultiplier key le.data
  Fallible.require (mult ≤ sponsoringAcc.numSponsoring) .invalidSponsoringAccountState
  Fallible.require (key.isAccount → isSponsoredAcc) .invalidSponsoredAccount
  Fallible.require (¬ sponsoredAcc.any fun acc =>
      (!key.isAccount && decide (acc.numSubEntries < mult)) || decide (acc.numSponsored < mult))
    .invalidSponsoredAccountState

def canRemoveSignerWithoutSponsorship (acc : AccountEntry) : Fallible Unit :=
  Fallible.require (1 ≤ acc.numSubEntries) .invalidAccountState

def canRemoveSignerWithSponsorship : Fallible Unit := do
  requireSponsorships lh
  Fallible.require (1 ≤ sponsoringAcc.numSponsoring) .invalidSponsoringAccountState
  Fallible.require (1 ≤ sponsoredAcc.numSubEntries ∧ 1 ≤ sponsoredAcc.numSponsored)
    .invalidSponsoredAccountState

/-! ## Creating and removing -/

def removeEntryWithoutSponsorship (key : LedgerKey) (acc : AccountEntry) : LedgerM AccountEntry :=
  if key.isAccount then
    pure acc
  else
    acc.addNumSubEntries (-1)

def removeEntryWithSponsorship (key : LedgerKey) (le : LedgerEntry key.Data)
    (sponsoringAccID : AccountID) (sponsoringAcc : AccountEntry)
    (sponsoredAcc : Option AccountEntry) : LedgerM (Sponsored key) := do
  match sponsoredAcc with
  | none => removeEntrySponsorship key le sponsoringAccID sponsoringAcc none
  | some acc =>
    let acc ← removeEntryWithoutSponsorship key acc
    removeEntrySponsorship key le sponsoringAccID sponsoringAcc (some acc)

/-- The account without one of its signers. -/
def AccountEntry.eraseSigner (acc : AccountEntry) (n : ℕ) : AccountEntry :=
  { acc with
    signers := acc.signers.eraseIdx n
    ext := acc.ext.map fun extV1 => { extV1 with
      ext := extV1.ext.map fun extV2 => { extV2 with
        signerSponsoringIDs := extV2.signerSponsoringIDs.eraseIdx n } } }

def removeSignerWithoutSponsorship (acc : AccountEntry) : LedgerM AccountEntry := do
  let acc ← acc.addNumSubEntries (-1)
  return acc.eraseSigner n

def removeSignerWithSponsorship : LedgerM (AccountEntry × AccountEntry) := do
  let (sponsoringAcc, sponsoredAcc) ←
    removeSignerSponsorship n sponsoringAccID sponsoringAcc sponsoredAcc
  let sponsoredAcc ← removeSignerWithoutSponsorship n sponsoredAcc
  return (sponsoringAcc, sponsoredAcc)

/-! ## With or without a sponsor, as the ledger says -/

/-- Whether the entry is this account. -/
def isSameAccount : (key : LedgerKey) → LedgerEntry key.Data → AccountID →
    LedgerEntry AccountEntry → Bool
  | .account id, le, accID, acc => id = accID && le = acc
  | _, _, _, _ => false

/-- The account that no longer pays the reserve. An account that is the entry itself also
loses the entry's sponsor. -/
def putUnsponsored (key : LedgerKey) (le : LedgerEntry key.Data) (accID : AccountID)
    (acc : LedgerEntry AccountEntry) (sponsored : Option AccountEntry) : LedgerM Unit :=
  match sponsored with
  | none => pure ()
  | some data =>
    put (accountKey accID) ⟨data, if key.isAccount then le.ext else acc.ext⟩

/-- `accID` is an active account. -/
def removeEntryWithPossibleSponsorship (key : LedgerKey) (le : LedgerEntry key.Data)
    (accID : AccountID) : LedgerM (LedgerEntry key.Data) :=
  block do
    let header ← loadHeader
    let acc ← current (accountKey accID)
    match le.ext.sponsor with
    | none =>
      lift (canRemoveEntryWithoutSponsorship key le acc.data)
      let data ← removeEntryWithoutSponsorship key acc.data
      put (accountKey accID) { acc with data := data }
      return le
    | some sponsoringID =>
      if accID = sponsoringID then
        require key.isClaimableBalance .sponsoringIDIsSourceAccount
        lift (canRemoveEntryWithSponsorship header key le acc.data none
          (isSameAccount key le accID acc))
        let s ← removeEntryWithSponsorship key le sponsoringID acc.data none
        put (accountKey accID) { acc with data := s.sponsoringAcc }
        return s.le
      else
        let sponsored := if key.isClaimableBalance then none else some acc.data
        let _ ← loadAccount sponsoringID
        let sponsoringAcc ← current (accountKey sponsoringID)
        lift (canRemoveEntryWithSponsorship header key le sponsoringAcc.data sponsored
          (isSameAccount key le accID acc))
        let s ← removeEntryWithSponsorship key le sponsoringID sponsoringAcc.data sponsored
        put (accountKey sponsoringID) { sponsoringAcc with data := s.sponsoringAcc }
        putUnsponsored key s.le accID acc s.sponsoredAcc
        return s.le

def removeSignerWithPossibleSponsorship (accID : AccountID) : LedgerM Unit :=
  block do
    let header ← loadHeader
    let acc ← current (accountKey accID)
    let sponsoringID ← match acc.data.extV2 with
      | none => pure none
      | some extV2 => lift (extV2.signerSponsoringID n)
    match sponsoringID with
    | some sponsoringID =>
      let _ ← loadAccount sponsoringID
      let sponsoringAcc ← current (accountKey sponsoringID)
      lift (canRemoveSignerWithSponsorship header sponsoringAcc.data acc.data)
      let (sponsoringData, data) ←
        removeSignerWithSponsorship n sponsoringID sponsoringAcc.data acc.data
      put (accountKey sponsoringID) { sponsoringAcc with data := sponsoringData }
      put (accountKey accID) { acc with data := data }
    | none =>
      lift (canRemoveSignerWithoutSponsorship acc.data)
      let data ← removeSignerWithoutSponsorship n acc.data
      put (accountKey accID) { acc with data := data }

end DigitalBits.Ledger
