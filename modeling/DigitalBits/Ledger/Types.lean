import DigitalBits.Scp.Types

/-!
# Ledger entries

The types of `DigitalBits-ledger-entries.x` and the ledger header. A signed
integer is an integer, an unsigned one a natural number; where the program
relies on their width, the bound is written out. An entry stands under its key,
and what the key tells (an account's id, a trust line's asset) is not repeated
in the entry. The ledger in which an entry was last modified is stamped on it
when a transaction is sealed and read by no operation; it is left out.
-/
namespace DigitalBits.Ledger

open Scp (Hash)

/-- An account is named by its public key. -/
abbrev AccountID := Fin (2 ^ 256)
abbrev SequenceNumber := ℤ
abbrev TimePoint := ℕ
abbrev Bytes := List (Fin 256)

/-- A counter of 32 bits. -/
abbrev Counter := Fin (2 ^ 32)

def Counter.zero : Counter := ⟨0, Nat.two_pow_pos 32⟩

def int32Max : ℤ := 2 ^ 31 - 1
def int64Max : ℤ := 2 ^ 63 - 1

/-- A sum of `int64`, which wraps around. -/
def int64 (x : ℤ) : ℤ := x.bmod (2 ^ 64)

theorem int64_le {x : ℤ} (h : 0 ≤ x) : int64 x ≤ x := by
  rw [int64, Int.bmod_def]
  split <;> omega

def uint32Max : ℕ := 2 ^ 32 - 1
def uint8Max : ℕ := 2 ^ 8 - 1

inductive Asset where
  | native
  | alphaNum4 (assetCode : Bytes) (issuer : AccountID)
  | alphaNum12 (assetCode : Bytes) (issuer : AccountID)
  deriving DecidableEq

/-- The account whose credit the asset is. -/
def Asset.issuer? : Asset → Option AccountID
  | native => none
  | alphaNum4 _ issuer => some issuer
  | alphaNum12 _ issuer => some issuer

structure Price where
  n : ℤ
  d : ℤ
  deriving DecidableEq

structure Liabilities where
  buying : ℤ
  selling : ℤ
  deriving DecidableEq

/-- Weight of the master key and the three thresholds. -/
structure Thresholds where
  masterWeight : ℕ
  low : ℕ
  med : ℕ
  high : ℕ
  deriving DecidableEq

inductive SignerKey where
  | ed25519 (key : Hash)
  | preAuthTx (hash : Hash)
  | hashX (hash : Hash)
  deriving DecidableEq

namespace SignerKey

def type : SignerKey → ℕ
  | ed25519 _ => 0
  | preAuthTx _ => 1
  | hashX _ => 2

def value : SignerKey → Hash
  | ed25519 key => key
  | preAuthTx hash => hash
  | hashX hash => hash

/-- Keys are ordered by type and then by value. -/
def less (a b : SignerKey) : Bool :=
  a.type < b.type || (a.type = b.type && a.value < b.value)

end SignerKey

structure Signer where
  key : SignerKey
  weight : ℕ
  deriving DecidableEq

/-- The flags of an account. -/
def authRequiredFlag : ℕ := 0x1
def authRevocableFlag : ℕ := 0x2
def authImmutableFlag : ℕ := 0x4

/-- `MAX_SIGNERS`. -/
def maxSigners : ℕ := 20

structure AccountEntryExtensionV2 where
  numSponsored : Counter
  numSponsoring : Counter
  signerSponsoringIDs : List (Option AccountID)
  deriving DecidableEq

structure AccountEntryExtensionV1 where
  liabilities : Liabilities
  ext : Option AccountEntryExtensionV2
  deriving DecidableEq

structure AccountEntry where
  balance : ℤ
  seqNum : SequenceNumber
  numSubEntries : Counter := Counter.zero
  inflationDest : Option AccountID := none
  flags : ℕ := 0
  homeDomain : Bytes := []
  thresholds : Thresholds := ⟨1, 0, 0, 0⟩
  signers : List Signer := []
  ext : Option AccountEntryExtensionV1 := none
  deriving DecidableEq

/-- The flags of a trust line. -/
def authorizedFlag : ℕ := 1
def authorizedToMaintainLiabilitiesFlag : ℕ := 2
def maskTrustLineFlags : ℕ := 1
def maskTrustLineFlagsV13 : ℕ := 3

structure TrustLineEntry where
  balance : ℤ
  limit : ℤ
  flags : ℕ
  ext : Option Liabilities := none
  deriving DecidableEq

/-- The flag of an offer that does not take offers of its own price. -/
def passiveFlag : ℕ := 1

structure OfferEntry where
  selling : Asset
  buying : Asset
  amount : ℤ
  price : Price
  flags : ℕ
  deriving DecidableEq

structure DataEntry where
  dataValue : Bytes
  deriving DecidableEq

inductive ClaimPredicate where
  | unconditional
  | and (andPredicates : List ClaimPredicate)
  | or (orPredicates : List ClaimPredicate)
  | not (notPredicate : Option ClaimPredicate)
  | beforeAbsoluteTime (absBefore : ℤ)
  | beforeRelativeTime (relBefore : ℤ)

mutual

/-- Equality of predicates, decided along their structure. -/
def ClaimPredicate.beq : ClaimPredicate → ClaimPredicate → Bool
  | .unconditional, .unconditional => true
  | .and p, .and q => beqAll p q
  | .or p, .or q => beqAll p q
  | .not p, .not q => beqOption p q
  | .beforeAbsoluteTime p, .beforeAbsoluteTime q => p == q
  | .beforeRelativeTime p, .beforeRelativeTime q => p == q
  | _, _ => false

def ClaimPredicate.beqAll : List ClaimPredicate → List ClaimPredicate → Bool
  | [], [] => true
  | p :: ps, q :: qs => beq p q && beqAll ps qs
  | _, _ => false

def ClaimPredicate.beqOption : Option ClaimPredicate → Option ClaimPredicate → Bool
  | none, none => true
  | some p, some q => beq p q
  | _, _ => false

end

mutual

theorem ClaimPredicate.beq_iff (p q : ClaimPredicate) : p.beq q = true ↔ p = q := by
  cases p <;> cases q <;>
    simp [beq, ClaimPredicate.beqAll_iff, ClaimPredicate.beqOption_iff]

theorem ClaimPredicate.beqAll_iff (ps qs : List ClaimPredicate) : beqAll ps qs = true ↔ ps = qs := by
  cases ps <;> cases qs <;> simp [beqAll, ClaimPredicate.beq_iff, ClaimPredicate.beqAll_iff]

theorem ClaimPredicate.beqOption_iff (p q : Option ClaimPredicate) :
    beqOption p q = true ↔ p = q := by
  cases p <;> cases q <;> simp [beqOption, ClaimPredicate.beq_iff]

end

instance : DecidableEq ClaimPredicate := fun p q => decidable_of_iff _ (p.beq_iff q)

structure Claimant where
  destination : AccountID
  predicate : ClaimPredicate
  deriving DecidableEq

/-- `Claimant claimants<10>`. -/
abbrev Claimants := { l : List Claimant // l.length ≤ 10 }

structure ClaimableBalanceEntry where
  claimants : Claimants
  asset : Asset
  amount : ℤ
  deriving DecidableEq

/-- The extension of a ledger entry: version zero, or the sponsor of its reserve. -/
inductive LedgerEntryExt where
  | v0
  | v1 (sponsoringID : Option AccountID)
  deriving DecidableEq

/-- The account that pays the entry's reserve in its owner's place. -/
def LedgerEntryExt.sponsor : LedgerEntryExt → Option AccountID
  | v0 => none
  | v1 sponsoringID => sponsoringID

structure LedgerEntry (α : Type) where
  data : α
  ext : LedgerEntryExt := .v0
  deriving DecidableEq

/-- Who sponsors the future reserves of an account, within a transaction. -/
structure SponsorshipEntry where
  sponsoringID : AccountID
  deriving DecidableEq

/-- How many accounts a sponsor sponsors, within a transaction. -/
structure SponsorshipCounterEntry where
  numSponsoring : ℤ
  deriving DecidableEq

inductive LedgerKey where
  | account (accountID : AccountID)
  | trustline (accountID : AccountID) (asset : Asset)
  | offer (sellerID : AccountID) (offerID : ℤ)
  | data (accountID : AccountID) (dataName : Bytes)
  | claimableBalance (balanceID : Hash)
  deriving DecidableEq

/-- The keys of what is in the ledger, and of what only lasts for a transaction. -/
inductive InternalLedgerKey where
  | ledgerEntry (key : LedgerKey)
  | sponsorship (sponsoredID : AccountID)
  | sponsorshipCounter (sponsoringID : AccountID)
  deriving DecidableEq

/-- The data of the entry under a key. -/
abbrev LedgerKey.Data : LedgerKey → Type
  | account _ => AccountEntry
  | trustline _ _ => TrustLineEntry
  | offer _ _ => OfferEntry
  | data _ _ => DataEntry
  | claimableBalance _ => ClaimableBalanceEntry

/-- The type of the entry under a key. -/
abbrev InternalLedgerKey.Entry : InternalLedgerKey → Type
  | ledgerEntry key => LedgerEntry key.Data
  | sponsorship _ => SponsorshipEntry
  | sponsorshipCounter _ => SponsorshipCounterEntry

abbrev accountKey (accountID : AccountID) : InternalLedgerKey :=
  .ledgerEntry (.account accountID)

abbrev trustlineKey (accountID : AccountID) (asset : Asset) : InternalLedgerKey :=
  .ledgerEntry (.trustline accountID asset)

abbrev offerKey (sellerID : AccountID) (offerID : ℤ) : InternalLedgerKey :=
  .ledgerEntry (.offer sellerID offerID)

abbrev dataKey (accountID : AccountID) (dataName : Bytes) : InternalLedgerKey :=
  .ledgerEntry (.data accountID dataName)

abbrev claimableBalanceKey (balanceID : Hash) : InternalLedgerKey :=
  .ledgerEntry (.claimableBalance balanceID)

abbrev sponsorshipKey (sponsoredID : AccountID) : InternalLedgerKey := .sponsorship sponsoredID

abbrev sponsorshipCounterKey (sponsoringID : AccountID) : InternalLedgerKey :=
  .sponsorshipCounter sponsoringID

/-- The header, without the hashes that chain the ledgers. -/
structure LedgerHeader where
  ledgerVersion : ℕ
  closeTime : TimePoint
  ledgerSeq : ℕ
  totalCoins : ℤ
  feePool : ℤ
  inflationSeq : ℕ
  idPool : ℕ
  baseFee : ℕ
  baseReserve : ℕ
  maxTxSetSize : ℕ
  deriving DecidableEq

/-! ## Reading the extensions -/

namespace AccountEntry

def extV2 (acc : AccountEntry) : Option AccountEntryExtensionV2 :=
  acc.ext.bind AccountEntryExtensionV1.ext

def liabilities (acc : AccountEntry) : Liabilities :=
  (acc.ext.map AccountEntryExtensionV1.liabilities).getD ⟨0, 0⟩

def numSponsored (acc : AccountEntry) : ℕ :=
  (acc.extV2.map fun extV2 => extV2.numSponsored.val).getD 0

def numSponsoring (acc : AccountEntry) : ℕ :=
  (acc.extV2.map fun extV2 => extV2.numSponsoring.val).getD 0

end AccountEntry

def TrustLineEntry.liabilities (tl : TrustLineEntry) : Liabilities := tl.ext.getD ⟨0, 0⟩

end DigitalBits.Ledger
