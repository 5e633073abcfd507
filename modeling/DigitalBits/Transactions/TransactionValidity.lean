import DigitalBits.Ledger.Rules
import DigitalBits.Transactions.TransactionFrame

/-!
# What a valid transaction satisfies

Checking a transaction leaves the ledger as it is. It can only throw where a reserve can not be
computed. What the checks look for is said once: a transaction passes exactly if it is there. So one
that passes has the sequence number that is next, bids no negative fee and has accounts to act for
and to pay.
-/
namespace DigitalBits.Ledger

open Lib

variable {crypto : Crypto}

/-- The reserve of every account can be computed. -/
def WellReserved (s : LedgerState) : Prop :=
  ∀ id acc, s.account id = some acc → ∃ minBalance, getMinBalance s.header acc.data = .ok minBalance

/-- The transaction shows the same ledger as before, and no entry is active. -/
structure Idle (s t : LedgerTxn) : Prop where
  ledger : t.toLedgerState = s.toLedgerState
  active : t.mActive = []

variable {s : LedgerTxn}

theorem Idle.refl (h : s.mActive = []) : Idle s s := ⟨rfl, h⟩

theorem Idle.trans {t u : LedgerTxn} (h : Idle s t) (h' : Idle t u) : Idle s u :=
  ⟨h'.ledger.trans h.ledger, h'.active⟩

theorem idle_rolledBack (s t : LedgerTxn) : Idle s (s.rolledBack t) := ⟨rfl, rfl⟩

section
variable {α : Type} {s : LedgerTxn} {E : Thrown → LedgerTxn → Prop}

/-- A block that never commits leaves the ledger as it is. -/
theorem after_checked {body : LedgerM (Bool × α)} {P : α → Prop} {F : Prop}
    (h : After body (s.withActive []) (fun r _ => r.1 = false ∧ P r.2) fun _ _ => F) :
    After (nested body) s (fun a t => Idle s t ∧ P a) fun _ _ => F := by
  rw [after_nested]
  refine h.imp fun r t hr => ⟨fun htrue => ?_, fun _ => ⟨idle_rolledBack s t, hr.2⟩⟩
  rw [hr.1] at htrue
  cases htrue

theorem after_loadAccount {accountID : AccountID}
    {Q : Option (LedgerEntry AccountEntry) → LedgerTxn → Prop} (hactive : s.mActive = [])
    (hnone : s.account accountID = none → Q none s)
    (hsome : ∀ acc, s.account accountID = some acc →
      Q (some acc) (s.withActive [accountKey accountID])) :
    After (loadAccount accountID) s Q E := by
  unfold loadAccount
  rw [after_load, hactive]
  exact ⟨by simp, fun _ => hnone, fun _ => hsome⟩

theorem after_current_loaded {accountID : AccountID} {acc : LedgerEntry AccountEntry}
    {Q : LedgerEntry AccountEntry → LedgerTxn → Prop} (hacc : s.account accountID = some acc) :
    After (current (accountKey accountID)) (s.withActive [accountKey accountID]) Q E ↔
      Q acc (s.withActive [accountKey accountID]) :=
  after_current_of List.mem_cons_self hacc

theorem exists?_after {k : InternalLedgerKey} (hactive : s.mActive = []) :
    After (exists? k) s (fun found t => found = (s.entries.lookup k).isSome ∧ Idle s t) E := by
  rw [after_exists?, hactive]
  exact ⟨by simp, fun _ => ⟨rfl, rfl, rfl⟩⟩

end

/-! ## Signatures of the operations -/

namespace Operation

variable {op : Operation} {source : AccountID} {checker : SignatureChecker} {s : LedgerTxn}

/-- What `checkSignature` answers when it does not apply the operation. -/
def verdict (crypto : Crypto) (op : Operation) (source : AccountID) (s : LedgerState)
    (checker : SignatureChecker) : Option ResultCode × SignatureChecker :=
  match s.account (op.getSourceID source) with
  | some acc =>
    let (verified, checker) := Ledger.checkSignature crypto checker (op.getSourceID source) acc.data
      (getNeededThreshold acc.data op.body.getThresholdLevel)
    (if verified then none else some .opBadAuth, checker)
  | none =>
    if op.sourceAccount.isNone then
      (some .opNoAccount, checker)
    else
      let (verified, checker) := checkSignatureNoAccount crypto checker (op.getSourceID source)
      (if verified then none else some .opBadAuth, checker)

theorem checkSignature_verdict {E : Thrown → LedgerTxn → Prop} (hactive : s.mActive = []) :
    After (op.checkSignature crypto source checker false) s
      (fun r t => r = op.verdict crypto source s.toLedgerState checker ∧ Idle s t) E := by
  unfold checkSignature verdict
  rw [after_block, after_bind]
  refine after_loadAccount hactive (fun hnone => ?_) fun acc hacc => ?_
  · simp only [Bool.false_eq_true, false_or, after_ite, after_pure, hactive, hnone]
    exact ⟨fun h => ⟨by rw [if_pos h], rfl, rfl⟩, fun h => ⟨by rw [if_neg h], rfl, rfl⟩⟩
  · simp only [after_pure, hacc]
    exact ⟨trivial, rfl, by simp [hactive]⟩

/-- An operation that is valid has good signatures. -/
theorem checkValid_verdict {F : Prop} :
    After (op.checkValid crypto source checker false) s
      (fun r t => Idle s t ∧ (r.1 = none → r = op.verdict crypto source s.toLedgerState checker))
      fun _ _ => F := by
  refine after_checked ?_
  simp only [after_bind, after_loadHeader, after_ite, after_pure]
  refine ⟨fun _ => ⟨trivial, by simp⟩, fun _ => ?_⟩
  refine (checkSignature_verdict rfl).imp fun r t hr => ?_
  rcases r with ⟨_ | code, checker'⟩
  · exact ⟨rfl, fun hcode => (Prod.ext hcode rfl : (_, checker') = (none, checker')).trans hr.1⟩
  · exact ⟨rfl, by simp⟩

end Operation

/-! ## Reserves -/

theorem getAvailableBalance_eq {header : LedgerHeader} {acc : AccountEntry} {minBalance : ℤ}
    (h : getMinBalance header acc = .ok minBalance) :
    acc.getAvailableBalance header = .ok (acc.balance - minBalance -
      if 10 ≤ header.ledgerVersion then acc.liabilities.selling else 0) := by
  unfold AccountEntry.getAvailableBalance AccountEntry.getSellingLiabilities requireLiabilities
    Fallible.require
  rw [h]
  by_cases hv : 10 ≤ header.ledgerVersion
  · simp [hv, bind, Except.bind, pure, Except.pure]
  · simp [hv, bind, Except.bind, pure, Except.pure]

theorem WellReserved.available {s : LedgerState} {id : AccountID} {acc : LedgerEntry AccountEntry}
    (h : WellReserved s) (hacc : s.account id = some acc) :
    ∃ available, acc.data.getAvailableBalance s.header = .ok available := by
  obtain ⟨minBalance, hmin⟩ := h id acc hacc
  exact ⟨_, getAvailableBalance_eq hmin⟩

/-- The available balance of an active account is read, or its reserve can not be computed. -/
theorem getAvailableBalance_after {accountID : AccountID} {acc : LedgerEntry AccountEntry}
    (hactive : accountKey accountID ∈ s.mActive) (hacc : s.account accountID = some acc) :
    After (getAvailableBalance (.account accountID)) s
      (fun available t => t = s ∧ acc.data.getAvailableBalance s.header = .ok available)
      (fun _ _ => ¬ ∃ available, acc.data.getAvailableBalance s.header = .ok available) := by
  unfold getAvailableBalance readData
  rw [after_bind, after_loadHeader, after_bind, after_current_of hactive hacc, after_lift]
  change Yields (acc.data.getAvailableBalance s.header) _ _
  cases acc.data.getAvailableBalance s.header with
  | ok available => exact ⟨rfl, rfl⟩
  | error e => simp

/-! ## Plain transactions -/

/-- The sequence number that must come next. -/
def nextAfter (s : LedgerState) (lastSeq : SequenceNumber) (source : AccountID)
    (seqNum : SequenceNumber) : Prop :=
  ∃ acc, s.account source = some acc ∧
    seqNum = (if lastSeq = 0 then acc.data.seqNum else lastSeq) + 1

/-- With which flags a transaction is checked. -/
structure CheckMode where
  checker : SignatureChecker
  lastSeq : SequenceNumber
  applying : Bool
  chargeFee : Bool
  lower : ℕ
  upper : ℕ

namespace TransactionFrame

variable {tx : TransactionFrame} {s : LedgerTxn}

/-- What is checked without looking into an account. -/
structure Static (header : LedgerHeader) (m : CheckMode) (tx : TransactionFrame) : Prop where
  envelope : ¬ (header.ledgerVersion < 13 ∧ (¬ tx.isV0 ∨ tx.hasMuxedAccount) ∨
    13 ≤ header.ledgerVersion ∧ tx.isV0)
  operations : tx.getNumOperations ≠ 0
  early : ¬ tx.isTooEarly header m.lower
  late : ¬ tx.isTooLate header m.upper
  fee : ¬ (m.chargeFee ∧ tx.getFeeBid < tx.getMinFee header)
  freeFee : ¬ (¬ m.chargeFee ∧ tx.getFeeBid < 0)

theorem commonValidPreSeqNum_static {E : Thrown → LedgerTxn → Prop} (m : CheckMode)
    (hactive : s.mActive = []) :
    After (tx.commonValidPreSeqNum m.chargeFee m.lower m.upper) s
      (fun code t => Idle s t ∧
        (code = none ↔ tx.Static s.header m ∧ (s.account tx.getSourceID).isSome)) E := by
  have hidle : Idle s s := .refl hactive
  unfold commonValidPreSeqNum
  simp only [after_bind, after_loadHeader, after_ite, after_pure]
  refine ⟨fun h => ⟨hidle, by simp, fun hs => absurd h hs.1.envelope⟩, fun h1 =>
    ⟨fun h => ⟨hidle, by simp, fun hs => absurd h hs.1.operations⟩, fun h2 =>
    ⟨fun h => ⟨hidle, by simp, fun hs => absurd h hs.1.early⟩, fun h3 =>
    ⟨fun h => ⟨hidle, by simp, fun hs => absurd h hs.1.late⟩, fun h4 =>
    ⟨fun h => ⟨hidle, by simp, fun hs => absurd h hs.1.fee⟩, fun h5 =>
    ⟨fun h => ⟨hidle, by simp, fun hs => absurd h hs.1.freeFee⟩, fun h6 => ?_⟩⟩⟩⟩⟩⟩
  refine (exists?_after hactive).imp fun found t h => ?_
  obtain ⟨hfound, ht⟩ := h
  rw [hfound]
  exact ⟨fun hsome => ⟨ht, fun _ => ⟨⟨h1, h2, h3, h4, h5, h6⟩, hsome⟩, fun _ => trivial⟩,
    fun hnone => ⟨ht, by simp, fun hs => absurd hs.2 hnone⟩⟩

/-- What the source has to have left for the fee. -/
def feeToPay (header : LedgerHeader) (applying : Bool) (tx : TransactionFrame) : ℤ :=
  if applying ∧ 8 < header.ledgerVersion then 0 else tx.getFeeBid % 2 ^ 32

/-- What `commonValid` looks for, `e` being the source account. -/
structure CommonlyValid (crypto : Crypto) (s : LedgerState) (m : CheckMode) (tx : TransactionFrame)
    (e : LedgerEntry AccountEntry) : Prop where
  offsets : m.applying = true → m.lower = 0 ∧ m.upper = 0
  static : tx.Static s.header m
  account : s.account tx.getSourceID = some e
  seqNum : 10 ≤ s.header.ledgerVersion ∨ ¬ m.applying →
    tx.isBadSeq (if m.lastSeq = 0 then e.data.seqNum else m.lastSeq) = false
  verified : (checkSignature crypto m.checker tx.getSourceID e.data e.data.thresholds.low).1 = true
  pays : m.chargeFee = true → ∃ available, e.data.getAvailableBalance s.header = .ok available ∧
    tx.feeToPay s.header m.applying ≤ available

/-- What `commonValid` answers. -/
inductive Verdict (crypto : Crypto) (s : LedgerState) (m : CheckMode) (tx : TransactionFrame) :
    Validation → Prop
  | valid {e : LedgerEntry AccountEntry} (h : tx.CommonlyValid crypto s m e) :
    Verdict crypto s m tx ⟨.kMaybeValid, none,
      (checkSignature crypto m.checker tx.getSourceID e.data e.data.thresholds.low).2⟩
  | invalid {v : Validation} (type : v.type ≠ .kMaybeValid) (code : v.code ≠ none)
    (h : ∀ e, ¬ tx.CommonlyValid crypto s m e) : Verdict crypto s m tx v

variable {chargeFee : Bool}

theorem canPayFee_feeToPay {e : LedgerEntry AccountEntry} {applying : Bool}
    (hactive : accountKey tx.getSourceID ∈ s.mActive) (hacc : s.account tx.getSourceID = some e) :
    After (tx.canPayFee applying chargeFee) s
      (fun pays t => t = s ∧ (pays = true ↔ (chargeFee = true → ∃ available,
        e.data.getAvailableBalance s.header = .ok available ∧
          tx.feeToPay s.header applying ≤ available)))
      (fun _ _ => chargeFee = true ∧
        ¬ ∃ available, e.data.getAvailableBalance s.header = .ok available) := by
  unfold canPayFee
  simp only [after_bind, after_loadHeader, after_ite, after_pure]
  refine ⟨fun hcharge => ?_, fun hcharge => ⟨trivial, fun _ h => absurd h hcharge, fun _ => trivial⟩⟩
  refine (getAvailableBalance_after hactive hacc).mono (fun available t h => ⟨h.1, ?_⟩)
    fun _ _ h => ⟨hcharge, h⟩
  simp [feeToPay, h.2, hcharge]

/-- `commonValid` finds what it looks for, and fails or throws if something is missing. -/
theorem commonValid_spec (m : CheckMode) :
    After (tx.commonValid crypto m.checker m.lastSeq m.applying m.chargeFee m.lower m.upper) s
      (fun v t => Idle s t ∧ tx.Verdict crypto s.toLedgerState m v)
      (fun _ _ => (m.applying = false → ¬ WellReserved s.toLedgerState) ∧
        ∀ e, ¬ tx.CommonlyValid crypto s.toLedgerState m e) := by
  refine after_checked ?_
  by_cases hnow : m.applying = true ∧ (m.lower ≠ 0 ∨ m.upper ≠ 0)
  · simp only [if_pos hnow, after_bind, after_throw]
    refine ⟨fun hnot => ?_, fun e he => ?_⟩
    · simp [hnot] at hnow
    · simp [he.offsets hnow.1] at hnow
  simp only [if_neg hnow, after_bind]
  refine (commonValidPreSeqNum_static m rfl).imp ?_
  rintro code t ⟨hidle, hcode⟩
  have ht : t.toLedgerState = s.toLedgerState := hidle.ledger
  cases code with
  | some code =>
    refine ⟨rfl, .invalid (by simp) (by simp) fun e he => ?_⟩
    have hsome : (s.account tx.getSourceID).isSome := by rw [he.account]; rfl
    exact absurd (hcode.mpr ⟨he.static, hsome⟩) (by simp)
  | none =>
    obtain ⟨hstatic, hsome⟩ := hcode.mp rfl
    simp only [after_bind, after_loadHeader]
    refine after_loadAccount hidle.active (fun hnone => ?_) fun e hacc => ?_
    · rw [ht] at hnone
      rw [show (s.withActive []).account tx.getSourceID = none from hnone] at hsome
      cases hsome
    have haccS : s.account tx.getSourceID = some e := by rw [← ht]; exact hacc
    have honly {e'} (he' : tx.CommonlyValid crypto s.toLedgerState m e') : e' = e :=
      Option.some.inj (he'.account.symm.trans haccS)
    rw [after_current_loaded hacc]
    simp only [after_ite, after_pure, after_bind, ht]
    refine ⟨fun hseq => ⟨trivial, .invalid (by simp) (by simp) fun e' he' => ?_⟩, fun hseq =>
      ⟨fun hverified => ⟨trivial, .invalid (by simp) (by simp) fun e' he' => ?_⟩, fun hverified => ?_⟩⟩
    · obtain rfl := honly he'
      rw [he'.seqNum hseq.1] at hseq
      simp at hseq
    · obtain rfl := honly he'
      exact absurd he'.verified hverified
    · refine (canPayFee_feeToPay (s := t.withActive [_]) List.mem_cons_self hacc).mono (fun pays u h => ?_) fun _ _ h => ?_
      · obtain ⟨-, hpays⟩ := h
        rw [LedgerTxn.withActive_header, ht] at hpays
        refine ⟨fun htrue => ⟨trivial, .valid ⟨?_, hstatic, haccS, ?_, not_not.mp hverified, hpays.mp htrue⟩⟩,
          fun hfalse => ⟨trivial, .invalid (by simp) (by simp) fun e' he' => ?_⟩⟩
        · intro happlying
          simpa [happlying] using hnow
        · exact fun h => by simpa using not_and.mp hseq h
        · obtain rfl := honly he'
          exact absurd (hpays.mpr he'.pays) hfalse
      · rw [LedgerTxn.withActive_header, ht] at h
        refine ⟨fun _ hwell => h.2 (hwell.available haccS), fun e' he' => ?_⟩
        obtain rfl := honly he'
        obtain ⟨available, hok, -⟩ := he'.pays h.1
        exact h.2 ⟨available, hok⟩

/-! ## Validation -/

/-- Whether the signatures of all operations are good, and the checker after them. -/
def verdicts (crypto : Crypto) (tx : TransactionFrame) (s : LedgerState) :
    List Operation → SignatureChecker → Bool × SignatureChecker
  | [], checker => (true, checker)
  | op :: ops, checker =>
    let (code, checker) := op.verdict crypto tx.getSourceID s checker
    let (allOpsValid, checker) := tx.verdicts crypto s ops checker
    (code.isNone && allOpsValid, checker)

/-- Operations that are all valid have good signatures. -/
theorem checkOperations_verdicts {F : Prop} (ops : List Operation) :
    ∀ (checker : SignatureChecker) (s : LedgerTxn), s.mActive = [] →
      After (tx.checkOperations crypto ops checker) s
        (fun r t => Idle s t ∧ (r.1 = true → r = tx.verdicts crypto s.toLedgerState ops checker))
        fun _ _ => F := by
  induction ops with
  | nil => exact fun checker s hactive => ⟨.refl hactive, fun _ => rfl⟩
  | cons op ops ih =>
    intro checker s hactive
    refine Operation.checkValid_verdict.bind fun r t hr => ?_
    obtain ⟨hidle, hverdict⟩ := hr
    simp only [after_ite, after_pure]
    refine ⟨fun _ => ⟨hidle, by simp⟩, fun hcode => ?_⟩
    have hnone : r.1 = none := by simpa using hcode
    refine (ih r.2 t hidle.active).imp fun r' u hr' => ?_
    refine ⟨hidle.trans hr'.1, fun htrue => ?_⟩
    have hrest := hr'.2 htrue
    rw [hidle.ledger] at hrest
    simp only [verdicts, ← hverdict hnone, ← hrest, hnone]
    exact Prod.ext (by simp) rfl

/-- The checker with which a transaction is checked. -/
def newChecker (header : LedgerHeader) (tx : TransactionFrame) : SignatureChecker :=
  SignatureChecker.new header.ledgerVersion tx.contentsHash tx.signatures

/-- The checker when the source account was checked. -/
def sourceChecker (crypto : Crypto) (header : LedgerHeader) (tx : TransactionFrame)
    (e : LedgerEntry AccountEntry) : SignatureChecker :=
  (checkSignature crypto (tx.newChecker header) tx.getSourceID e.data e.data.thresholds.low).2

/-- The signatures of the operations are good, and no signature was for nothing. -/
def FullySigned (crypto : Crypto) (s : LedgerState) (tx : TransactionFrame)
    (e : LedgerEntry AccountEntry) : Prop :=
  (tx.verdicts crypto s tx.operations (tx.sourceChecker crypto s.header e)).1 = true ∧
    (tx.verdicts crypto s tx.operations
      (tx.sourceChecker crypto s.header e)).2.checkAllSignaturesUsed = true

/-- What a transaction that passes satisfies, `e` being its source account. -/
structure Validated (crypto : Crypto) (s : LedgerState) (lastSeq : SequenceNumber) (chargeFee : Bool)
    (lower upper : ℕ) (tx : TransactionFrame) (e : LedgerEntry AccountEntry) : Prop where
  common : tx.CommonlyValid crypto s ⟨tx.newChecker s.header, lastSeq, false, chargeFee, lower, upper⟩ e
  signed : tx.FullySigned crypto s e

theorem Validated.nextAfter {s : LedgerState} {lastSeq : SequenceNumber} {lower upper : ℕ}
    {e : LedgerEntry AccountEntry} (h : tx.Validated crypto s lastSeq chargeFee lower upper e) :
    nextAfter s lastSeq tx.getSourceID tx.seqNum := by
  have hseq := h.common.seqNum (.inr (by simp))
  simp [isBadSeq] at hseq
  exact ⟨e, h.common.account, hseq.2.symm⟩

/-- Checking a transaction leaves the ledger as it is. -/
theorem checkValid_after {lastSeq : SequenceNumber} {lower upper : ℕ} :
    After (tx.checkValid crypto lastSeq chargeFee lower upper) s
      (fun code t => Idle s t ∧ (code = none → ∃ e,
        tx.Validated crypto s.toLedgerState lastSeq chargeFee lower upper e))
      (fun _ _ => ¬ WellReserved s.toLedgerState) := by
  refine after_checked ?_
  simp only [after_bind, after_loadHeader]
  refine (commonValid_spec ⟨tx.newChecker s.header, lastSeq, false, chargeFee, lower, upper⟩).mono ?_
    fun _ _ h => h.1 rfl
  rintro v t ⟨hidle, hverdict⟩
  have ht : t.toLedgerState = s.toLedgerState := hidle.ledger
  simp only [after_ite, after_pure, after_bind]
  cases hverdict with
  | invalid htype hcode _ => exact ⟨fun _ => ⟨trivial, fun h => absurd h hcode⟩, fun h => absurd htype h⟩
  | @valid e he =>
    refine ⟨fun h => absurd rfl h, fun _ => ?_⟩
    refine (checkOperations_verdicts _ _ t hidle.active).imp fun r u hr => ?_
    refine ⟨fun _ => ⟨trivial, by simp⟩, fun hall => ⟨fun _ => ⟨trivial, by simp⟩, fun hused => ⟨trivial, fun _ =>
      ⟨e, he, ?_⟩⟩⟩⟩
    have hverdicts := hr.2 (not_not.mp hall)
    rw [ht] at hverdicts
    rw [hverdicts] at hall hused
    exact ⟨not_not.mp hall, not_not.mp hused⟩

end TransactionFrame

/-! ## Fee bumps -/

theorem feeFor_nonneg {baseFee : ℕ} {n : ℕ} : 0 ≤ feeFor baseFee n := by
  unfold feeFor
  positivity

namespace FeeBumpTransactionFrame

/-- What the first checks of a fee bump establish. -/
structure Payable (s : LedgerState) (tx : FeeBumpTransactionFrame) : Prop where
  version : 13 ≤ s.header.ledgerVersion
  fee_nonneg : 0 ≤ tx.fee
  feeSource : (s.account tx.feeSource).isSome

variable {tx : FeeBumpTransactionFrame} {checker : SignatureChecker} {lastSeq : SequenceNumber}
  {lower upper : ℕ} {s : LedgerTxn}

theorem commonValidPreSeqNum_after {E : Thrown → LedgerTxn → Prop} (hactive : s.mActive = []) :
    After tx.commonValidPreSeqNum s
      (fun code t => Idle s t ∧ (code = none → tx.Payable s.toLedgerState)) E := by
  have hidle : Idle s s := .refl hactive
  unfold commonValidPreSeqNum
  simp only [after_bind, after_loadHeader, after_ite, after_pure]
  refine ⟨fun _ => ⟨hidle, by simp⟩, fun hv => ⟨fun _ => ⟨hidle, by simp⟩, fun hfee => ?_⟩⟩
  have hnonneg : 0 ≤ tx.fee := feeFor_nonneg.trans (not_lt.mp hfee)
  have hinner : 0 ≤ tx.innerTx.getFeeBid := Int.natCast_nonneg _
  have h1 : 0 ≤ tx.fee ∧ 0 ≤ tx.innerTx.getMinFee s.header := ⟨hnonneg, feeFor_nonneg⟩
  have h2 : 0 ≤ tx.innerTx.getFeeBid ∧ 0 ≤ tx.getMinFee s.header := ⟨hinner, feeFor_nonneg⟩
  simp only [after_lift, bigMultiply, Fallible.assert, if_pos h1, if_pos h2, yields_bind,
    yields_pure]
  refine ⟨fun _ => ⟨hidle, by simp⟩, fun _ => ?_⟩
  refine (exists?_after hactive).imp fun found t h => ?_
  refine ⟨fun hfound => ⟨h.2, fun _ => ⟨not_lt.mp hv, hnonneg, ?_⟩⟩, fun _ => ⟨h.2, by simp⟩⟩
  rwa [h.1] at hfound

theorem commonValid_after :
    After (tx.commonValid crypto checker) s
      (fun r t => Idle s t ∧ (r.1 = none → tx.Payable s.toLedgerState))
      (fun _ _ => ¬ WellReserved s.toLedgerState) := by
  refine after_checked ?_
  refine (commonValidPreSeqNum_after rfl).bind ?_
  rintro code t ⟨hidle, hpre⟩
  have ht : t.toLedgerState = s.toLedgerState := hidle.ledger
  cases code with
  | some code => exact ⟨rfl, by simp⟩
  | none =>
    have hsome := (hpre rfl).feeSource
    simp only [after_bind]
    refine after_loadAccount hidle.active (fun hnone => ?_) fun acc hacc => ?_
    · rw [ht] at hnone
      rw [show (s.withActive []).account tx.feeSource = none from hnone] at hsome
      cases hsome
    rw [after_current_loaded hacc]
    simp only [after_ite, after_pure, after_bind]
    refine ⟨fun _ => ⟨trivial, by simp⟩, fun _ => ?_⟩
    refine (getAvailableBalance_after (s := t.withActive [_]) List.mem_cons_self hacc).mono
      (fun available u _ => ⟨fun _ => ⟨trivial, by simp⟩, fun _ => ⟨trivial, fun _ => hpre rfl⟩⟩) fun _ _ h hwell => ?_
    rw [LedgerTxn.withActive_header, ht] at h
    rw [ht] at hacc
    exact h (hwell.available hacc)

theorem checkValid_after :
    After (tx.checkValid crypto lastSeq lower upper) s
      (fun code t => Idle s t ∧ (code = none → tx.Payable s.toLedgerState ∧ ∃ e,
        tx.innerTx.Validated crypto s.toLedgerState lastSeq false lower upper e))
      (fun _ _ => ¬ WellReserved s.toLedgerState) := by
  refine after_checked ?_
  simp only [after_bind, after_loadHeader]
  refine commonValid_after.imp ?_
  rintro ⟨_ | code, checker⟩ t ⟨hidle, hpre⟩
  · have ht : t.toLedgerState = s.toLedgerState := hidle.ledger
    simp only [after_ite, after_pure, after_bind]
    refine ⟨fun _ => ⟨trivial, by simp⟩, fun _ => ?_⟩
    refine TransactionFrame.checkValid_after.mono (fun code u h => ⟨trivial, fun hcode =>
      ⟨hpre rfl, ?_⟩⟩) fun _ _ h => ?_
    · obtain ⟨e, he⟩ := h.2 (by simpa using hcode)
      exact ⟨e, ht ▸ he⟩
    · exact ht ▸ h
  · exact ⟨rfl, by simp⟩

end FeeBumpTransactionFrame

/-! ## Both kinds -/

/-- What is known of a transaction that was found valid after `lastSeq`. -/
structure Acceptable (s : LedgerState) (lastSeq : SequenceNumber) (tx : TransactionFrameBase) :
    Prop where
  next : nextAfter s lastSeq tx.getSourceID tx.getSeqNum
  feeBid_nonneg : 0 ≤ tx.getFeeBid
  feeSource : (s.account tx.getFeeSourceID).isSome
  plain : s.header.ledgerVersion < 13 → ∃ t, tx = .tx t

theorem TransactionFrameBase.checkValid_after {tx : TransactionFrameBase} {lastSeq : SequenceNumber}
    {lower upper : ℕ} :
    After (tx.checkValid crypto lastSeq lower upper) s
      (fun code _ => code = none → Acceptable s.toLedgerState lastSeq tx)
      (fun _ _ => ¬ WellReserved s.toLedgerState) := by
  cases tx with
  | tx tx =>
    refine TransactionFrame.checkValid_after.imp fun code t h hcode => ?_
    obtain ⟨e, he⟩ := h.2 hcode
    refine ⟨he.nextAfter, Int.natCast_nonneg _, ?_, fun _ => ⟨tx, rfl⟩⟩
    rw [TransactionFrameBase.getFeeSourceID, he.common.account]
    rfl
  | feeBump tx =>
    refine FeeBumpTransactionFrame.checkValid_after.imp fun code t h hcode => ?_
    obtain ⟨hpayable, e, he⟩ := h.2 hcode
    exact ⟨he.nextAfter, hpayable.fee_nonneg, hpayable.feeSource,
      fun hv => absurd hpayable.version (not_le.mpr hv)⟩

end DigitalBits.Ledger
