import DigitalBits.Lib.Store
import DigitalBits.Ledger.AbstractLedgerTxn

/-!
# What a ledger holds

The amount of an asset that the entries of a ledger hold: native coins in
accounts, credit on trust lines, and both in claimable balances.
-/
namespace DigitalBits.Ledger

open Lib

/-- What an entry holds of an asset. -/
def holding (asset : Asset) : ∀ k : InternalLedgerKey, k.Entry → ℤ
  | .ledgerEntry (.account _), e => if asset = .native then e.data.balance else 0
  | .ledgerEntry (.trustline _ line), e =>
    if line = asset ∧ asset ≠ .native then e.data.balance else 0
  | .ledgerEntry (.claimableBalance _), e => if e.data.asset = asset then e.data.amount else 0
  | .ledgerEntry (.offer _ _), _ => 0
  | .ledgerEntry (.data _ _), _ => 0
  | .sponsorship _, _ => 0
  | .sponsorshipCounter _, _ => 0

namespace LedgerState

/-- What all entries hold of an asset. -/
def held (s : LedgerState) (asset : Asset) : ℤ := Store.total (holding asset) s.entries

end LedgerState

@[simp] theorem holding_account (asset : Asset) (id : AccountID) (e : LedgerEntry AccountEntry) :
    holding asset (accountKey id) e = if asset = .native then e.data.balance else 0 := rfl

end DigitalBits.Ledger
