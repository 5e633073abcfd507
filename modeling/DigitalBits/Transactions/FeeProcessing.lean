import DigitalBits.Ledger.Rules
import DigitalBits.Ledger.Totals
import DigitalBits.Transactions.TransactionFrame

/-!
# Charging fees

Charging a fee takes it from the account that pays and adds it both to the fee
account and to the fee pool. So the native coins of a ledger grow by the fee,
unless the balance of the fee account can not take it.
-/
namespace DigitalBits.Ledger
open AList

open Lib

/-- An account entry with another balance. -/
def withBalance (e : LedgerEntry AccountEntry) (balance : ℤ) : LedgerEntry AccountEntry :=
  { e with data := { e.data with balance := balance } }

@[simp] theorem withBalance_balance (e : LedgerEntry AccountEntry) (balance : ℤ) :
    (withBalance e balance).data.balance = balance := rfl

/-- The balance after `addBalance`, whose refusal is ignored. -/
def rawBalance (balance delta : ℤ) : ℤ :=
  if delta < -balance ∨ int64Max - balance < delta then balance else balance + delta

theorem rawBalance_zero {balance : ℤ} : rawBalance balance 0 = balance := by
  unfold rawBalance
  split_ifs <;> omega

theorem yields_addToBalance {balance delta : ℤ} {Q : Option ℤ → Prop} {E : Thrown → Prop}
    (hneg : ¬ 0 ≤ balance → E .assertion)
    (hsome : 0 ≤ balance → ∀ r, rawBalance balance delta = r.getD balance → Q r) :
    Yields (addToBalance balance delta int64Max) Q E := by
  have hmax : (0 : ℤ) ≤ int64Max := by decide
  unfold addToBalance Fallible.assert
  simp only [yields_bind, yields_ite, yields_pure, yields_throw, hmax, not_true_eq_false,
    false_implies, and_true, true_implies]
  refine ⟨fun hbalance => ?_, hneg⟩
  refine ⟨fun hdelta => hsome hbalance _ ?_, fun hdelta => ⟨fun hlow => hsome hbalance _ ?_,
    fun hlow => ⟨fun hhigh => hsome hbalance _ ?_, fun hhigh => hsome hbalance _ ?_⟩⟩⟩
  · rw [hdelta, rawBalance_zero, Option.getD_some]
  · rw [rawBalance, if_pos (Or.inl hlow), Option.getD_none]
  · rw [rawBalance, if_pos (Or.inr hhigh), Option.getD_none]
  · rw [rawBalance, if_neg (not_or.mpr ⟨hlow, hhigh⟩), Option.getD_some]

/-- The entries of `t` are those of `s` with `e` under `k`; nothing else differs. -/
structure Puts (k : InternalLedgerKey) (e : k.Entry) (s t : LedgerTxn) : Prop where
  lookup : ∀ j, t.entries.lookup j = (s.entries.insert k e).lookup j
  header : t.header = s.header
  active : t.mActive = s.mActive

variable {s : LedgerTxn}

theorem lookup_insert_same {k : InternalLedgerKey} {e : k.Entry} (h : s.entries.lookup k = some e)
    (j : InternalLedgerKey) :
    (s.entries.insert k e).lookup j = s.entries.lookup j := by
  by_cases hj : j = k
  · subst hj
    rw [h, lookup_insert]
  · rw [lookup_insert_ne hj]

variable {accountID : AccountID} {acc : LedgerEntry AccountEntry}

theorem addRawBalance_after {delta : ℤ} (hactive : accountKey accountID ∈ s.mActive)
    (hacc : s.entries.lookup (accountKey accountID) = some acc) :
    After (addRawBalance accountID delta) s
      (fun _ t => 0 ≤ acc.data.balance ∧
        Puts (accountKey accountID) (withBalance acc (rawBalance acc.data.balance delta)) s t)
      (fun _ _ => acc.data.balance < 0) := by
  unfold addRawBalance
  rw [after_bind, after_current_of hactive hacc, after_bind, after_lift]
  refine yields_addToBalance (fun h => not_le.mp h) fun hbalance r hr => ?_
  cases r with
  | none =>
    -- The refusal is ignored: the entry stays as it is.
    have hsame : withBalance acc (rawBalance acc.data.balance delta) = acc := by
      rw [hr]
      rfl
    refine ⟨hbalance, fun j => ?_, rfl, rfl⟩
    rw [hsame, lookup_insert_same hacc]
  | some balance =>
    simp only [after_put]
    refine ⟨fun h => absurd hactive h, fun _ => ⟨hbalance, fun j => ?_, rfl, rfl⟩⟩
    rw [hr]
    rfl

/-- What an account with this balance pays of a fee. -/
def payment (balance feeCharged : ℤ) : ℤ := if 0 < feeCharged then min balance feeCharged else 0

/-- The effect of `chargeFee`, in the terms of what it pays. -/
structure Charged (accountID feeTarget : AccountID) (acc feeAcc : LedgerEntry AccountEntry)
    (feeCharged fee : ℤ) (s t : LedgerTxn) : Prop where
  source : s.entries.lookup (accountKey accountID) = some acc
  target : s.entries.lookup (accountKey feeTarget) = some feeAcc
  nonneg : 0 < feeCharged → 0 ≤ acc.data.balance ∧ 0 ≤ feeAcc.data.balance
  fee_eq : fee = if 0 < feeCharged then min acc.data.balance feeCharged else feeCharged
  lookup : ∀ k, t.entries.lookup k =
    ((s.entries.insert (accountKey accountID)
        (withBalance acc (rawBalance acc.data.balance (-payment acc.data.balance feeCharged)))).insert
      (accountKey feeTarget)
        (withBalance feeAcc (rawBalance feeAcc.data.balance (payment acc.data.balance feeCharged)))).lookup k
  header : t.header =
    { s.header with
      feePool := if 0 < feeCharged then int64 (s.header.feePool + payment acc.data.balance feeCharged)
        else s.header.feePool }
  active : t.mActive = accountKey feeTarget :: accountKey accountID :: s.mActive

/-- Why `chargeFee` can not charge: an account is missing or already active, or a balance is
out of its range. -/
def Unchargeable (accountID feeTarget : AccountID) (s : LedgerTxn) : Prop :=
  (∃ id, (id = accountID ∨ id = feeTarget) ∧
    (accountKey id ∈ s.mActive ∨ s.entries.lookup (accountKey id) = none ∨
      ∃ acc, s.entries.lookup (accountKey id) = some acc ∧ acc.data.balance < 0))

theorem accountKey_ne {a b : AccountID} (h : a ≠ b) : accountKey a ≠ accountKey b := by
  intro heq
  exact h (LedgerKey.account.inj (InternalLedgerKey.ledgerEntry.inj heq))

variable {feeTarget : AccountID} {feeCharged : ℤ}

theorem chargeFee_after (hne : accountID ≠ feeTarget) :
    After (chargeFee accountID feeTarget feeCharged) s
      (fun fee t => ∃ acc feeAcc, Charged accountID feeTarget acc feeAcc feeCharged fee s t)
      (fun _ _ => Unchargeable accountID feeTarget s) := by
  have hkey : accountKey feeTarget ≠ accountKey accountID := accountKey_ne hne.symm
  unfold chargeFee loadAccount
  rw [after_bind, after_load]
  refine ⟨fun h => ⟨accountID, .inl rfl, .inl h⟩, fun _ hmissing => ?_, fun hactive acc hacc => ?_⟩
  · -- Whatever becomes of the fee account, the other is missing.
    have hun : Unchargeable accountID feeTarget s := ⟨accountID, .inl rfl, .inr (.inl hmissing)⟩
    simp only [after_bind, after_require, Option.isSome_none]
    exact After.of_forall (fun _ _ => ⟨fun h => (by cases h), fun _ => hun⟩) fun _ _ => hun
  rw [after_bind, after_load]
  refine ⟨fun h => ?_, fun _ hmissing => ?_, fun hactiveT feeAcc hfeeAcc => ?_⟩
  · rw [LedgerTxn.withActive_mActive, List.mem_cons] at h
    exact ⟨feeTarget, .inr rfl, .inl (h.resolve_left hkey)⟩
  · have hun : Unchargeable accountID feeTarget s := ⟨feeTarget, .inr rfl, .inr (.inl hmissing)⟩
    simp [hun]
  simp only [after_bind, after_require, Option.isSome_some, true_implies, not_true_eq_false,
    false_implies, and_true, LedgerTxn.withActive_mActive]
  have hread : accountKey accountID ∈ ((s.withActive (accountKey accountID :: s.mActive)).withActive
      (accountKey feeTarget :: accountKey accountID :: s.mActive)).mActive := by simp
  rw [after_current_of hread hacc, after_ite]
  refine ⟨fun hpos => ?_, fun hpos => ?_⟩
  · have hpay : payment acc.data.balance feeCharged = min acc.data.balance feeCharged := if_pos hpos
    rw [after_bind]
    refine After.mono (addRawBalance_after ?_ hacc) ?_ ?_
    · simp
    rotate_left
    · exact fun _ _ h => ⟨accountID, .inl rfl, .inr (.inr ⟨acc, hacc, h⟩)⟩
    rintro - t ⟨hbalance, hput⟩
    have hfeeAcc' : t.entries.lookup (accountKey feeTarget) = some feeAcc := by
      rwa [hput.lookup, lookup_insert_ne hkey]
    rw [after_bind]
    refine After.mono (addRawBalance_after ?_ hfeeAcc') ?_ ?_
    · simp [hput.active]
    rotate_left
    · exact fun _ _ h => ⟨feeTarget, .inr rfl, .inr (.inr ⟨feeAcc, hfeeAcc, h⟩)⟩
    rintro - u ⟨hfeeBalance, hput'⟩
    simp only [after_bind, after_loadHeader, after_setHeader, after_pure]
    refine ⟨acc, feeAcc, hacc, hfeeAcc, fun _ => ⟨hbalance, hfeeBalance⟩, ?_, fun k => ?_, ?_, ?_⟩
    · rw [if_pos hpos]
    · rw [hpay, LedgerTxn.withHeader_entries, hput'.lookup]
      by_cases hk : k = accountKey feeTarget
      · subst hk
        rw [lookup_insert, lookup_insert]
      · rw [lookup_insert_ne hk, lookup_insert_ne hk, hput.lookup]
        rfl
    · rw [hpay, if_pos hpos, LedgerTxn.withHeader_header, hput'.header, hput.header]
      rfl
    · rw [LedgerTxn.withHeader_mActive, hput'.active, hput.active]
      rfl
  · have hpay : payment acc.data.balance feeCharged = 0 := if_neg hpos
    rw [after_pure]
    refine ⟨acc, feeAcc, hacc, hfeeAcc, fun h => absurd h hpos, ?_, fun k => ?_, ?_, rfl⟩
    · rw [if_neg hpos]
    · have hacc' : withBalance acc (rawBalance acc.data.balance (-0)) = acc := by
        rw [neg_zero, rawBalance_zero]
        rfl
      have hfeeAcc' : withBalance feeAcc (rawBalance feeAcc.data.balance 0) = feeAcc := by
        rw [rawBalance_zero]
        rfl
      rw [hpay, hacc', hfeeAcc']
      by_cases hk : k = accountKey feeTarget
      · subst hk
        rwa [lookup_insert]
      · rw [lookup_insert_ne hk, lookup_insert_same hacc]
        rfl
    · rw [if_neg hpos]
      rfl

variable {feeAcc : LedgerEntry AccountEntry} {fee : ℤ} {t : LedgerTxn}

/-- The paying account after the charge. -/
theorem Charged.lookup_source (h : Charged accountID feeTarget acc feeAcc feeCharged fee s t)
    (hne : accountID ≠ feeTarget) :
    t.entries.lookup (accountKey accountID) = some
      (withBalance acc (rawBalance acc.data.balance (-payment acc.data.balance feeCharged))) := by
  rw [h.lookup, lookup_insert_ne (accountKey_ne hne), lookup_insert]

/-- Whether charging the fee also uses up the sequence number. -/
def TransactionFrameBase.usesSeqNum (header : LedgerHeader) : TransactionFrameBase → Prop
  | .tx _ => header.ledgerVersion ≤ 9
  | .feeBump _ => False

/-- The effect of `processFeeSeqNum`: `u` is the ledger when the fee was charged. -/
structure FeeProcessed (tx : TransactionFrameBase) (baseFee : ℤ) (feeTarget : AccountID)
    (acc feeAcc : LedgerEntry AccountEntry) (fee : ℤ) (s u t : LedgerTxn) : Prop where
  charged : Charged tx.getFeeSourceID feeTarget acc feeAcc (tx.getFee s.header baseFee) fee s u
  header : t.header = u.header
  active : t.mActive = u.mActive.filter (· ∈ s.mActive)
  lookup : ∀ k ≠ accountKey tx.getFeeSourceID, t.entries.lookup k = u.entries.lookup k
  source : ∃ e e', u.entries.lookup (accountKey tx.getFeeSourceID) = some e ∧
    t.entries.lookup (accountKey tx.getFeeSourceID) = some e' ∧
    e'.data = { e.data with seqNum := e'.data.seqNum } ∧
    (tx.usesSeqNum s.header → e.data.seqNum + 1 = tx.getSeqNum ∧ e'.data.seqNum = tx.getSeqNum) ∧
    (¬ tx.usesSeqNum s.header → e' = e)

/-- The sequence number that charging the fee would use up is not the next one. -/
def WrongSeqNum (tx : TransactionFrameBase) (s : LedgerTxn) : Prop :=
  tx.usesSeqNum s.header ∧ ∃ acc, s.entries.lookup (accountKey tx.getFeeSourceID) = some acc ∧
    acc.data.seqNum + 1 ≠ tx.getSeqNum

theorem processFeeSeqNum_after {tx : TransactionFrameBase} {baseFee : ℤ}
    (hne : tx.getFeeSourceID ≠ feeTarget) :
    After (tx.processFeeSeqNum baseFee feeTarget) s
      (fun fee t => ∃ acc feeAcc u, FeeProcessed tx baseFee feeTarget acc feeAcc fee s u t)
      (fun _ _ => Unchargeable tx.getFeeSourceID feeTarget s ∨ WrongSeqNum tx s) := by
  cases tx with
  | feeBump tx =>
    unfold TransactionFrameBase.processFeeSeqNum FeeBumpTransactionFrame.processFeeSeqNum
    rw [after_block]
    refine (chargeFee_after hne).mono ?_ fun _ _ h => .inl h
    rintro fee u ⟨acc, feeAcc, h⟩
    refine ⟨acc, feeAcc, u, h, rfl, rfl, fun _ _ => rfl, _, _, h.lookup_source hne,
      h.lookup_source hne, rfl, fun h => h.elim, fun _ => rfl⟩
  | tx tx =>
    unfold TransactionFrameBase.processFeeSeqNum TransactionFrame.processFeeSeqNum
    rw [after_block, after_bind, after_loadHeader, after_bind]
    refine (chargeFee_after hne).mono ?_ fun _ _ h => .inl h
    rintro fee u ⟨acc, feeAcc, h⟩
    have hsource := h.lookup_source hne
    have hactive : accountKey tx.getSourceID ∈ u.mActive := by
      rw [h.active]
      exact List.mem_cons_of_mem _ List.mem_cons_self
    by_cases hv : s.header.ledgerVersion ≤ 9
    · simp only [if_pos hv, after_bind]
      rw [after_current_of hactive hsource]
      simp only [after_require, after_pure]
      refine ⟨fun hseq => ?_, fun hseq => .inr ⟨hv, acc, h.source, hseq⟩⟩
      rw [after_put]
      refine ⟨fun hnot => absurd hactive hnot, fun _ => ?_⟩
      exact ⟨acc, feeAcc, u, h, rfl, rfl, fun k hk => lookup_insert_ne hk, _, _, hsource,
        lookup_insert _, rfl, fun _ => ⟨hseq, rfl⟩, fun hnot => absurd hv hnot⟩
    · simp only [if_neg hv, after_pure]
      exact ⟨acc, feeAcc, u, h, rfl, rfl, fun _ _ => rfl, _, _, hsource, hsource, rfl,
        fun h => absurd h hv, fun _ => rfl⟩

namespace FeeExample

def payer : AccountID := 1
def feeAccount : AccountID := 2

def header : LedgerHeader where
  ledgerVersion := 15
  closeTime := 0
  ledgerSeq := 2
  totalCoins := 1000
  feePool := 0
  inflationSeq := 0
  idPool := 0
  baseFee := 100
  baseReserve := 0
  maxTxSetSize := 100

/-- Two accounts: one that pays and the fee account. -/
def ledger : LedgerTxn where
  entries := ((∅ : AList InternalLedgerKey.Entry).insert (accountKey payer)
    ⟨{ balance := 700, seqNum := 5 }, .v0⟩).insert (accountKey feeAccount)
    ⟨{ balance := 300, seqNum := 0 }, .v0⟩
  header := header

/-- A transaction of the payer that bids 100. -/
def tx : TransactionFrameBase :=
  .tx ⟨false, false, 7, 8, payer, 100, 6, none,
    [⟨none, .bumpSequence 0⟩], []⟩

/-- The ledger when the fee was charged. -/
def charged : LedgerTxn := finalState (tx.processFeeSeqNum 100 feeAccount) ledger

end FeeExample

end DigitalBits.Ledger
