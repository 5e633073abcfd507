import DigitalBits.Ledger.Effect
import DigitalBits.Transactions.SignerCounts

/-!
# A validated transaction reaches its operations

Validation and application go through the same checks with other flags, and between them the fee is
charged. What the checks of the signatures read of an account stays as it is: its thresholds, and
the signers that the transaction may use. So the second time they find what they found before.
-/
namespace DigitalBits.Ledger
open List

open Lib
open Scp (Hash)

variable {crypto : Crypto}

/-! ## What a check of signatures reads -/

variable (contentsHash : Hash)

/-- The signers that a transaction with this hash may use: all but those that name another one. -/
def usableSigners (signers : List Signer) : List Signer :=
  signers.filter fun signer => signer.key.type ≠ 1 ∨ signer.key = .preAuthTx contentsHash

theorem filter_usableSigners_preAuthTx (signers : List Signer) :
    (usableSigners contentsHash signers).filter (·.key.type = 1) =
      (signers.filter (·.key.type = 1)).filter (·.key = .preAuthTx contentsHash) := by
  rw [usableSigners, filter_filter, filter_filter]
  refine filter_congr fun signer _ => ?_
  by_cases htype : signer.key.type = 1 <;> simp [htype]

theorem filter_usableSigners {n : ℕ} (hn : n ≠ 1) (contentsHash : Hash) (signers : List Signer) :
    (usableSigners contentsHash signers).filter (·.key.type = n) =
      signers.filter (·.key.type = n) := by
  rw [usableSigners, filter_filter]
  refine filter_congr fun signer _ => ?_
  by_cases htype : signer.key.type = n <;> simp [htype, hn]

namespace SignatureChecker

theorem addPreAuthTx_filter (c : SignatureChecker) (neededWeight : ℕ) (signers : List Signer)
    (totalWeight : ℕ) :
    c.addPreAuthTx neededWeight (signers.filter (·.key = .preAuthTx c.mContentsHash)) totalWeight =
      c.addPreAuthTx neededWeight signers totalWeight := by
  induction signers generalizing totalWeight with
  | nil => rfl
  | cons signer signers ih =>
    by_cases hkey : signer.key = .preAuthTx c.mContentsHash
    · rw [filter_cons_of_pos (by simpa using hkey), addPreAuthTx, addPreAuthTx, if_pos hkey,
        if_pos hkey]
      simp only [ih]
    · rw [filter_cons_of_neg (by simpa using hkey), ih, addPreAuthTx, if_neg hkey]

/-- A signer that names another transaction does not count. -/
theorem checkSignature_usable (c : SignatureChecker) (signers : List Signer) (neededWeight : ℕ) :
    c.checkSignature crypto (usableSigners c.mContentsHash signers) neededWeight =
      c.checkSignature crypto signers neededWeight := by
  unfold checkSignature
  rw [filter_usableSigners_preAuthTx, addPreAuthTx_filter, filter_usableSigners (by decide),
    filter_usableSigners (by decide)]

/-- The checker only ever changes which signatures are used. -/
theorem checkSignature_contentsHash (c : SignatureChecker) (signers : List Signer)
    (neededWeight : ℕ) :
    (c.checkSignature crypto signers neededWeight).2.mContentsHash = c.mContentsHash := by
  unfold checkSignature
  simp only
  split_ifs <;> rfl

end SignatureChecker

/-- What the signatures of a transaction with this hash are checked against. -/
def AccountEntry.auth (acc : AccountEntry) : Thresholds × List Signer :=
  (acc.thresholds, usableSigners contentsHash acc.signers)

/-- The master key may always be used. -/
theorem usableSigners_master (accountID : AccountID) (weight : ℕ) (signers : List Signer) :
    usableSigners contentsHash ((if weight = 0 then [] else [⟨.ed25519 accountID, weight⟩]) ++ signers) =
      (if weight = 0 then [] else [⟨.ed25519 accountID, weight⟩]) ++
        usableSigners contentsHash signers := by
  unfold usableSigners
  split_ifs
  · rfl
  · exact filter_cons_of_pos (by simp [SignerKey.type])

theorem checkSignature_congr {checker : SignatureChecker} {acc acc' : AccountEntry}
    (h : acc.auth checker.mContentsHash = acc'.auth checker.mContentsHash) (accountID : AccountID)
    (neededWeight : ℕ) :
    checkSignature crypto checker accountID acc neededWeight =
      checkSignature crypto checker accountID acc' neededWeight := by
  have hauth (acc : AccountEntry) : checkSignature crypto checker accountID acc neededWeight =
      checker.checkSignature crypto
        ((if (acc.auth checker.mContentsHash).1.masterWeight = 0 then []
          else [⟨.ed25519 accountID, (acc.auth checker.mContentsHash).1.masterWeight⟩]) ++
          (acc.auth checker.mContentsHash).2) neededWeight := by
    rw [checkSignature, ← SignatureChecker.checkSignature_usable, usableSigners_master]
    rfl
  rw [hauth acc, hauth acc', h]

theorem checkSignature_contentsHash (checker : SignatureChecker) (accountID : AccountID)
    (acc : AccountEntry) (neededWeight : ℕ) :
    (checkSignature crypto checker accountID acc neededWeight).2.mContentsHash =
      checker.mContentsHash :=
  SignatureChecker.checkSignature_contentsHash _ _ _

/-- Two ledgers in which the signatures of a transaction count the same. -/
def SameAuth (s t : LedgerState) : Prop :=
  ∀ id, (s.account id).map (fun e => e.data.auth contentsHash) =
    (t.account id).map fun e => e.data.auth contentsHash

theorem SameAuth.trans {contentsHash : Hash} {s t u : LedgerState} (h : SameAuth contentsHash s t)
    (h' : SameAuth contentsHash t u) : SameAuth contentsHash s u :=
  fun id => (h id).trans (h' id)

/-! ## The signatures of the operations -/

namespace Operation

variable {op : Operation} {source : AccountID} {checker : SignatureChecker}

theorem verdict_contentsHash (s : LedgerState) :
    (op.verdict crypto source s checker).2.mContentsHash = checker.mContentsHash := by
  unfold verdict
  cases s.account (op.getSourceID source) with
  | some acc => exact checkSignature_contentsHash _ _ _ _
  | none =>
    by_cases hsource : op.sourceAccount.isNone
    · simp only [if_pos hsource]
    · simp only [if_neg hsource]
      exact SignatureChecker.checkSignature_contentsHash _ _ _

theorem verdict_congr {s t : LedgerState} (h : SameAuth checker.mContentsHash s t) :
    op.verdict crypto source s checker = op.verdict crypto source t checker := by
  have hid := h (op.getSourceID source)
  unfold verdict
  cases hs : s.account (op.getSourceID source) with
  | none =>
    rw [hs, Option.map_none, eq_comm, Option.map_eq_none_iff] at hid
    rw [hid]
  | some acc =>
    rw [hs, Option.map_some, eq_comm, Option.map_eq_some_iff] at hid
    obtain ⟨acc', ht, hauth⟩ := hid
    have hneeded : getNeededThreshold acc.data op.body.getThresholdLevel =
        getNeededThreshold acc'.data op.body.getThresholdLevel := by
      have hthresholds : acc'.data.thresholds = acc.data.thresholds := (Prod.ext_iff.mp hauth).1
      cases op.body.getThresholdLevel <;> simp only [getNeededThreshold, hthresholds]
    simp only [ht, checkSignature_congr hauth.symm, hneeded]

end Operation

namespace TransactionFrame

variable {tx : TransactionFrame} {s t : LedgerTxn}

theorem verdicts_congr {s t : LedgerState} (ops : List Operation) {checker : SignatureChecker}
    (h : SameAuth checker.mContentsHash s t) :
    tx.verdicts crypto s ops checker = tx.verdicts crypto t ops checker := by
  induction ops generalizing checker with
  | nil => rfl
  | cons op ops ih =>
    have hrest := @ih (op.verdict crypto tx.getSourceID t checker).2
    rw [Operation.verdict_contentsHash] at hrest
    simp only [verdicts, Operation.verdict_congr h, hrest h]

theorem checkSignatures_verdicts {E : Thrown → LedgerTxn → Prop} {ops : List Operation}
    {checker : SignatureChecker} (hactive : s.mActive = []) :
    After (tx.checkSignatures crypto ops checker) s
      (fun r t => r = tx.verdicts crypto s.toLedgerState ops checker ∧ Idle s t) E := by
  induction ops generalizing checker s with
  | nil => exact ⟨rfl, .refl hactive⟩
  | cons op ops ih =>
    refine (Operation.checkSignature_verdict hactive).bind ?_
    rintro - t ⟨rfl, hidle⟩
    refine (ih hidle.active).bind ?_
    rintro - u ⟨rfl, hidle'⟩
    rw [after_pure, hidle.ledger]
    exact ⟨rfl, hidle.trans hidle'⟩

/-! ## Application -/

/-- The ledger when the sequence number was used up. -/
def withSeqNum (s : LedgerState) (tx : TransactionFrame) (e : LedgerEntry AccountEntry) :
    LedgerState :=
  { s with entries := (s.entries.insert (accountKey tx.getSourceID)
      { e with data := { e.data with seqNum := tx.seqNum } }) }

theorem sameAuth_withSeqNum {s : LedgerState} {e : LedgerEntry AccountEntry}
    (hacc : s.account tx.getSourceID = some e) (contentsHash : Hash) :
    SameAuth contentsHash s (tx.withSeqNum s e) := by
  intro id
  by_cases hid : id = tx.getSourceID
  · subst hid
    rw [hacc, LedgerState.account, withSeqNum, AList.lookup_insert]
    rfl
  · rw [LedgerState.account, LedgerState.account, withSeqNum,
      AList.lookup_insert_ne (accountKey_ne hid)]

theorem sameCounts_withSeqNum {s : LedgerState} {e : LedgerEntry AccountEntry}
    (hacc : s.account tx.getSourceID = some e) : SameCounts s (tx.withSeqNum s e) := by
  refine ⟨rfl, fun id => ?_⟩
  by_cases hid : id = tx.getSourceID
  · subst hid
    rw [hacc, LedgerState.account, withSeqNum, AList.lookup_insert]
    rfl
  · rw [LedgerState.account, LedgerState.account, withSeqNum,
      AList.lookup_insert_ne (accountKey_ne hid)]

theorem processSeqNum_after {e : LedgerEntry AccountEntry} {E : Thrown → LedgerTxn → Prop}
    (hversion : 10 ≤ s.header.ledgerVersion) (hactive : s.mActive = [])
    (hacc : s.account tx.getSourceID = some e) (hseq : e.data.seqNum ≤ tx.seqNum) :
    After tx.processSeqNum s
      (fun _ t => t.toLedgerState = tx.withSeqNum s.toLedgerState e ∧ t.mActive = []) E := by
  unfold processSeqNum
  rw [after_block, after_bind, after_loadHeader]
  simp only [if_pos hversion, after_bind]
  refine after_loadAccount hactive (fun hnone => ?_) fun e' he' => ?_
  · cases hacc.symm.trans hnone
  obtain rfl := Option.mem_unique hacc he'
  rw [after_current_loaded hacc, after_require]
  refine ⟨fun _ => ?_, fun h => absurd hseq h⟩
  rw [after_put]
  refine ⟨fun h => absurd mem_cons_self h, fun _ => ⟨rfl, ?_⟩⟩
  simp [hactive]

/-- Only counters that are not in order keep the signers from being removed. -/
theorem removeOneTimeSigner_after (hversion : 13 ≤ s.header.ledgerVersion) :
    After tx.removeOneTimeSignerFromAllSourceAccounts s (fun _ _ => True)
      (fun _ _ => ¬ s.toLedgerState.SignersCounted [.preAuthTx tx.contentsHash]) := by
  unfold removeOneTimeSignerFromAllSourceAccounts
  rw [after_bind, after_loadHeader]
  simp only [if_neg (show ¬ s.header.ledgerVersion = 7 by omega)]
  by_cases hcounted : s.toLedgerState.SignersCounted [.preAuthTx tx.contentsHash]
  · exact (removeAccountSigners_counted hcounted mem_cons_self _).imp fun _ _ _ => trivial
  · exact After.of_forall (fun _ _ => trivial) fun _ _ => hcounted

theorem processSignatures_after {v : Validation} (hversion : 13 ≤ s.header.ledgerVersion)
    (htype : v.type = .kMaybeValid) (hcode : v.code = none)
    (hall : (tx.verdicts crypto s.toLedgerState tx.operations v.checker).1 = true)
    (hused : (tx.verdicts crypto s.toLedgerState tx.operations v.checker).2.checkAllSignaturesUsed =
      true) :
    After (tx.processSignatures crypto v) s (fun v' _ => v'.type = .kMaybeValid ∧ v'.code = none)
      (fun _ _ => ¬ s.toLedgerState.SignersCounted [.preAuthTx tx.contentsHash]) := by
  unfold processSignatures
  rw [after_bind, after_loadHeader]
  simp only [if_neg (show ¬ s.header.ledgerVersion < 10 by omega),
    if_neg (show ¬ (13 ≤ s.header.ledgerVersion ∧ v.type ≠ .kMaybeValid) from fun h => h.2 htype),
    if_neg (show ¬ (s.header.ledgerVersion < 13 ∧
      v.type.rank < ValidationType.kInvalidPostAuth.rank) from fun h => by omega)]
  rw [after_bind, after_nested]
  refine (checkSignatures_verdicts rfl).bind ?_
  rintro r t ⟨hr, -⟩
  replace hall : r.1 = true := by rw [hr]; exact hall
  replace hused : r.2.checkAllSignaturesUsed = true := by rw [hr]; exact hused
  refine ⟨nofun, fun _ => ?_⟩
  simp only [after_bind]
  refine (removeOneTimeSigner_after (s := s.rolledBack t) hversion).imp fun _ u _ => ?_
  rw [if_neg (not_not.mpr hall), if_neg (not_not.mpr hused)]
  exact ⟨htype, hcode⟩

/-- The checks when a transaction is applied. -/
def applyMode (header : LedgerHeader) (chargeFee : Bool) (tx : TransactionFrame) : CheckMode :=
  ⟨tx.newChecker header, 0, true, chargeFee, 0, 0⟩

/-- A transaction that passes the checks reaches its operations. -/
theorem applyCommon_reaches {chargeFee : Bool} {e : LedgerEntry AccountEntry}
    (hversion : 13 ≤ s.header.ledgerVersion)
    (hvalid : tx.CommonlyValid crypto s.toLedgerState (tx.applyMode s.header chargeFee) e)
    (hsigned : tx.FullySigned crypto s.toLedgerState e) :
    After (tx.applyCommon crypto chargeFee) s
      (fun v _ => v.type = .kMaybeValid ∧ v.code = none)
      (fun _ _ => ¬ s.toLedgerState.SignersCounted [.preAuthTx tx.contentsHash]) := by
  unfold applyCommon
  rw [after_bind, after_loadHeader, after_nested, after_bind]
  refine (commonValid_spec (tx.applyMode s.header chargeFee)).mono ?_ fun _ _ h => absurd hvalid (h.2 e)
  rintro v t ⟨hidle, hverdict⟩
  cases hverdict with
  | invalid _ _ hnot => exact absurd hvalid (hnot e)
  | @valid e' he' =>
  obtain rfl := Option.mem_unique hvalid.account he'.account
  have ht : t.toLedgerState = s.toLedgerState := hidle.ledger
  have hacc : t.account tx.getSourceID = some e := by
    rw [ht]
    exact hvalid.account
  have hseq : e.data.seqNum ≤ tx.seqNum := by
    have hgood := hvalid.seqNum (.inl (by omega))
    simp only [applyMode, if_true, isBadSeq, Bool.or_eq_false_iff, decide_eq_false_iff_not, not_not] at hgood
    rw [← hgood.2]
    exact le_add_of_nonneg_right (by decide)
  simp only [if_pos (by decide : ValidationType.kInvalidUpdateSeqNum.rank ≤
    ValidationType.kMaybeValid.rank), after_bind]
  refine (processSeqNum_after (by rw [ht]; omega) hidle.active hacc hseq).imp ?_
  rintro - u ⟨hu, -⟩
  rw [ht] at hu
  have hauth (contentsHash) : SameAuth contentsHash s.toLedgerState u.toLedgerState := by
    rw [hu]
    exact sameAuth_withSeqNum hvalid.account _
  have hcounts : SameCounts s.toLedgerState u.toLedgerState := by
    rw [hu]
    exact sameCounts_withSeqNum hvalid.account
  unfold FullySigned at hsigned
  rw [verdicts_congr tx.operations (hauth _)] at hsigned
  have hversion' : 13 ≤ u.header.ledgerVersion := by
    rwa [hu]
  exact (processSignatures_after hversion' rfl rfl hsigned.1 hsigned.2).mono
    (fun v' _ hv' => ⟨fun _ => hv', nofun⟩) fun _ _ hnot hcounted => hnot (hcounts.signersCounted hcounted)

/-- What was found in `s` is found in `t`, where the source only has another balance. -/
theorem Validated.applying {s t : LedgerState} {chargeFee : Bool}
    {e e' : LedgerEntry AccountEntry}
    (hvalid : tx.Validated crypto s 0 chargeFee 0 0 e) (hversion : 13 ≤ s.header.ledgerVersion)
    (hheader : t.header = { s.header with feePool := t.header.feePool })
    (hauth : SameAuth tx.contentsHash s t) (hacc : t.account tx.getSourceID = some e')
    (hseq : e'.data.seqNum = e.data.seqNum)
    (hpays : chargeFee = true → ∃ available, e'.data.getAvailableBalance t.header = .ok available ∧
      0 ≤ available) :
    tx.CommonlyValid crypto t (tx.applyMode t.header chargeFee) e' ∧ tx.FullySigned crypto t e' := by
  have hcommon := hvalid.common
  have hv : t.header.ledgerVersion = s.header.ledgerVersion := by rw [hheader]
  have hsource : e'.data.auth tx.contentsHash = e.data.auth tx.contentsHash := by
    have hid := hauth tx.getSourceID
    rw [hcommon.account, hacc] at hid
    exact (Option.some.inj hid).symm
  have hlow : e'.data.thresholds = e.data.thresholds := (Prod.ext_iff.mp hsource).1
  have hchecker : tx.newChecker t.header = tx.newChecker s.header := by
    rw [hheader]
    rfl
  have hsame : checkSignature crypto (tx.newChecker t.header) tx.getSourceID e'.data
      e'.data.thresholds.low =
      checkSignature crypto (tx.newChecker s.header) tx.getSourceID e.data e.data.thresholds.low := by
    rw [hchecker, hlow]
    exact checkSignature_congr hsource _ _
  constructor
  · refine ⟨fun _ => ⟨rfl, rfl⟩, ?_, hacc, fun _ => ?_, ?_, fun hcharge => ?_⟩
    · rw [hheader]
      exact ⟨hcommon.static.envelope, hcommon.static.operations, hcommon.static.early,
        hcommon.static.late, hcommon.static.fee, hcommon.static.freeFee⟩
    · rw [hseq]
      exact hcommon.seqNum (.inl (by omega))
    · exact (congrArg Prod.fst hsame).trans hcommon.verified
    · obtain ⟨available, hok, hle⟩ := hpays hcharge
      refine ⟨available, hok, ?_⟩
      rwa [feeToPay, if_pos ⟨rfl, by omega⟩]
  · have hcheckers : tx.sourceChecker crypto t.header e' = tx.sourceChecker crypto s.header e :=
      congrArg Prod.snd hsame
    have hhash : (tx.sourceChecker crypto s.header e).mContentsHash = tx.contentsHash :=
      checkSignature_contentsHash _ _ _ _
    unfold FullySigned
    rw [hcheckers, ← verdicts_congr tx.operations (hhash ▸ hauth)]
    exact hvalid.signed

end TransactionFrame

/-! ## Charging the fee -/

section
variable {tx : TransactionFrameBase} {baseFee : ℤ} {feeTarget : AccountID}
  {acc feeAcc : LedgerEntry AccountEntry} {fee : ℤ} {s u t : LedgerTxn}

theorem FeeProcessed.lookup_charged (h : FeeProcessed tx baseFee feeTarget acc feeAcc fee s u t)
    (hversion : 10 ≤ s.header.ledgerVersion) (k : InternalLedgerKey) :
    t.entries.lookup k = u.entries.lookup k := by
  by_cases hk : k = accountKey tx.getFeeSourceID
  · subst hk
    obtain ⟨e, e', he, he', -, -, hkeeps⟩ := h.source
    have hnot : ¬ tx.usesSeqNum s.header := by
      cases tx with
      | tx tx => exact fun h : s.header.ledgerVersion ≤ 9 => by omega
      | feeBump tx => exact fun h => h
    rw [he, he', hkeeps hnot]
  · exact h.lookup k hk

/-- An account after the fee was charged: only its balance may differ. -/
theorem FeeProcessed.account_charged (h : FeeProcessed tx baseFee feeTarget acc feeAcc fee s u t)
    (hversion : 10 ≤ s.header.ledgerVersion) (id : AccountID) :
    ∃ f : LedgerEntry AccountEntry → ℤ,
      t.account id = (s.account id).map fun e => withBalance e (f e) := by
  have hlookup : t.account id = _ :=
    (h.lookup_charged hversion (accountKey id)).trans (h.charged.lookup (accountKey id))
  rw [hlookup]
  by_cases hT : id = feeTarget
  · subst hT
    refine ⟨fun e => rawBalance e.data.balance
      (payment acc.data.balance (tx.getFee s.header baseFee)), ?_⟩
    rw [AList.lookup_insert, LedgerState.account, h.charged.target, Option.map_some]
  · rw [AList.lookup_insert_ne (accountKey_ne hT)]
    by_cases hS : id = tx.getFeeSourceID
    · subst hS
      refine ⟨fun e => rawBalance e.data.balance
        (-payment acc.data.balance (tx.getFee s.header baseFee)), ?_⟩
      rw [AList.lookup_insert, LedgerState.account, h.charged.source, Option.map_some]
    · rw [AList.lookup_insert_ne (accountKey_ne hS)]
      refine ⟨fun e => e.data.balance, ?_⟩
      change s.account id = _
      cases s.account id <;> rfl

theorem FeeProcessed.sameAuth (h : FeeProcessed tx baseFee feeTarget acc feeAcc fee s u t)
    (hversion : 10 ≤ s.header.ledgerVersion) (contentsHash : Hash) :
    SameAuth contentsHash s.toLedgerState t.toLedgerState := by
  intro id
  obtain ⟨f, hf⟩ := h.account_charged hversion id
  rw [hf, Option.map_map]
  rfl

theorem FeeProcessed.sameCounts (h : FeeProcessed tx baseFee feeTarget acc feeAcc fee s u t)
    (hversion : 10 ≤ s.header.ledgerVersion) : SameCounts s.toLedgerState t.toLedgerState := by
  refine ⟨by rw [h.header, h.charged.header], fun id => ?_⟩
  obtain ⟨f, hf⟩ := h.account_charged hversion id
  rw [hf, Option.map_map]
  rfl

theorem FeeProcessed.header_charged (h : FeeProcessed tx baseFee feeTarget acc feeAcc fee s u t) :
    t.header = { s.header with feePool := t.header.feePool } := by
  rw [h.header, h.charged.header]

/-- What is available falls by what was paid of the balance. -/
theorem getAvailableBalance_withBalance {header header' : LedgerHeader} {acc : AccountEntry}
    {available : ℤ} (hok : acc.getAvailableBalance header = .ok available)
    (hheader : header' = { header with feePool := header'.feePool }) (balance : ℤ) :
    ({ acc with balance := balance } : AccountEntry).getAvailableBalance header' =
      .ok (available + (balance - acc.balance)) := by
  cases hmin : getMinBalance header acc with
  | error e =>
    rw [AccountEntry.getAvailableBalance, hmin] at hok
    cases hok
  | ok minBalance =>
    have hmin' : getMinBalance header' { acc with balance := balance } = .ok minBalance := by
      rwa [hheader]
    have hv : header'.ledgerVersion = header.ledgerVersion := by rw [hheader]
    rw [getAvailableBalance_eq hmin] at hok
    rw [getAvailableBalance_eq hmin', ← Except.ok.inj hok, hv]
    congr 1
    change balance - minBalance - (if _ then acc.liabilities.selling else 0) = _
    ring

/-- The source after the fee was charged, if it had the fee that it bid. -/
theorem FeeProcessed.pays {plain : TransactionFrame}
    (h : FeeProcessed (.tx plain) baseFee feeTarget acc feeAcc fee s u t)
    (hne : plain.getSourceID ≠ feeTarget) (hversion : 13 ≤ s.header.ledgerVersion) {available : ℤ}
    (hok : acc.data.getAvailableBalance s.header = .ok available)
    (hbid : plain.getFeeBid ≤ available) :
    ∃ e' available', t.account plain.getSourceID = some e' ∧ e'.data.seqNum = acc.data.seqNum ∧
      e'.data.getAvailableBalance t.header = .ok available' ∧ 0 ≤ available' := by
  have hlookup : t.account plain.getSourceID = _ :=
    (h.lookup_charged (by omega) _).trans (h.charged.lookup_source hne)
  refine ⟨_, _, hlookup, rfl, getAvailableBalance_withBalance hok h.header_charged _, ?_⟩
  have hfee : (TransactionFrameBase.tx plain).getFee s.header baseFee ≤ plain.getFeeBid := by
    change plain.getFee s.header baseFee true ≤ _
    unfold TransactionFrame.getFee
    rw [if_pos (.inl (by omega))]
    exact min_le_left _ _
  have hbid0 : 0 ≤ plain.getFeeBid := Int.natCast_nonneg _
  have hpayment : payment acc.data.balance ((TransactionFrameBase.tx plain).getFee s.header baseFee) ≤
      plain.getFeeBid := by
    unfold payment
    split_ifs with hpos
    · exact (min_le_right _ _).trans hfee
    · exact hbid0
  unfold rawBalance
  split_ifs <;> omega

end

/-! ## Removing the signer of a fee bump -/

theorem usableSigners_eraseIdx {contentsHash : Hash} {signers : List Signer} {n : ℕ} {signer : Signer}
    (hn : signers[n]? = some signer) (htype : signer.key.type = 1)
    (hkey : signer.key ≠ .preAuthTx contentsHash) :
    usableSigners contentsHash (signers.eraseIdx n) = usableSigners contentsHash signers := by
  obtain ⟨hlt, hget⟩ := List.getElem?_eq_some_iff.mp hn
  have hsplit : signers = signers.take n ++ signer :: signers.drop (n + 1) := by
    rw [← hget, getElem_cons_drop, take_append_drop]
  unfold usableSigners
  conv_rhs => rw [hsplit]
  rw [eraseIdx_eq_take_drop_succ, filter_append, filter_append,
    filter_cons_of_neg (by simp [htype, hkey])]

/-- An account whose signers changed only where a transaction with this hash does not look. -/
structure AccountEntry.SameSigning (contentsHash : Hash) (acc acc' : AccountEntry) : Prop where
  seqNum : acc'.seqNum = acc.seqNum
  auth : acc'.auth contentsHash = acc.auth contentsHash

theorem AccountEntry.SameSigning.trans {contentsHash : Hash} {acc acc' acc'' : AccountEntry}
    (h : acc.SameSigning contentsHash acc') (h' : acc'.SameSigning contentsHash acc'') :
    acc.SameSigning contentsHash acc'' :=
  ⟨h'.seqNum.trans h.seqNum, h'.auth.trans h.auth⟩

/-- A ledger in which accounts changed only in that way. -/
structure SameSigning (contentsHash : Hash) (s t : LedgerTxn) : Prop where
  header : t.header = s.header
  account : ∀ id, Option.Rel (fun e e' => e.data.SameSigning contentsHash e'.data) (s.account id)
    (t.account id)

section
variable {contentsHash : Hash} {s t u : LedgerTxn} {n : ℕ} {acc : AccountEntry}

theorem SameSigning.of_same (h : SameLedger s t) : SameSigning contentsHash s t where
  header := h.header
  account id := by
    rw [LedgerState.account, LedgerState.account, h.entries]
    cases s.entries.lookup (accountKey id) with
    | none => exact .none
    | some e => exact .some ⟨rfl, rfl⟩

theorem SameSigning.same (h : SameSigning contentsHash s t) (hsame : SameLedger t u) :
    SameSigning contentsHash s u where
  header := hsame.header.trans h.header
  account id := by
    have hid : u.account id = t.account id := by
      rw [LedgerState.account, hsame.entries, ← LedgerState.account]
    rw [hid]
    exact h.account id

theorem SameSigning.withEntry (h : SameSigning contentsHash s t) {id : AccountID}
    {e e' : LedgerEntry AccountEntry} (he : s.account id = some e)
    (hsame : e.data.SameSigning contentsHash e'.data) :
    SameSigning contentsHash s (t.withEntry (accountKey id) e') where
  header := h.header
  account id' := by
    by_cases hid : id' = id
    · subst hid
      rw [he, LedgerState.account, LedgerTxn.withEntry_entries, AList.lookup_insert]
      exact .some hsame
    · have hother : (t.withEntry (accountKey id) e').account id' = t.account id' :=
        AList.lookup_insert_ne (accountKey_ne hid)
      rw [hother]
      exact h.account id'

theorem SameSigning.sameAuth (h : SameSigning contentsHash s t) :
    SameAuth contentsHash s.toLedgerState t.toLedgerState := by
  intro id
  have hid := h.account id
  generalize s.account id = found, t.account id = found' at hid
  cases hid with
  | none => rfl
  | some hsame => exact congrArg some hsame.auth.symm

theorem returns_removeSigner {contentsHash' : Hash} {signer : Signer}
    (hn : acc.signers[n]? = some signer) (hkey : signer.key = .preAuthTx contentsHash')
    (hne : contentsHash' ≠ contentsHash) :
    Returns (removeSignerWithoutSponsorship n acc) s
      (fun acc' t => acc.SameSigning contentsHash acc' ∧ SameLedger s t) := by
  unfold removeSignerWithoutSponsorship AccountEntry.addNumSubEntries
  simp only [Returns, after_bind, after_pure]
  refine returns_counter fun m t _ ht => ⟨⟨rfl, Prod.ext rfl ?_⟩, ht⟩
  refine usableSigners_eraseIdx hn (by rw [hkey]; rfl) ?_
  rw [hkey]
  exact fun h => hne (SignerKey.preAuthTx.inj h)

theorem returns_removeSignerSponsorship (contentsHash : Hash) {sponsoringID : AccountID}
    {sponsoringAcc : AccountEntry} :
    Returns (removeSignerSponsorship n sponsoringID sponsoringAcc acc) s
      (fun r t => sponsoringAcc.SameSigning contentsHash r.1 ∧ r.2.signers = acc.signers ∧
        acc.SameSigning contentsHash r.2 ∧ SameLedger s t) := by
  unfold removeSignerSponsorship AccountEntry.setSignerSponsor AccountEntry.addNumSponsored
    AccountEntry.addNumSponsoring
  simp only [Returns, after_bind, after_pure]
  refine returns_lift fun _ _ => returns_lift fun _ _ => returns_lift fun _ _ =>
    returns_counter fun _ t _ ht => returns_lift fun _ _ => returns_counter fun _ u _ hu => ?_
  exact ⟨⟨rfl, rfl⟩, rfl, ⟨rfl, rfl⟩, ht.trans hu⟩

section
variable {accID : AccountID} {contentsHash' : Hash} {e : LedgerEntry AccountEntry} {signer : Signer}
  (hacc : s.account accID = some e) (hn : e.data.signers[n]? = some signer)
  (hkey : signer.key = .preAuthTx contentsHash') (hne : contentsHash' ≠ contentsHash)

include hacc hn hkey hne

theorem returns_removeUnsponsoredSigner :
    Returns (do
      lift (canRemoveSignerWithoutSponsorship e.data)
      let data ← removeSignerWithoutSponsorship n e.data
      put (accountKey accID) { e with data := data }) s
      (fun _ t => ∀ ks, SameSigning contentsHash s (t.withActive ks)) := by
  simp only [Returns, after_bind]
  refine returns_lift fun _ _ => (returns_removeSigner hn hkey hne).imp ?_
  rintro acc' t ⟨hsigning, ht⟩
  exact returns_put fun ks =>
    ((SameSigning.of_same ht).withEntry hacc hsigning).same (sameLedger_withActive _ ks)

theorem returns_removeSponsoredSigner (sponsoringID : AccountID) :
    Returns (do
      let _ ← loadAccount sponsoringID
      let sponsoringAcc ← current (accountKey sponsoringID)
      lift (canRemoveSignerWithSponsorship s.header sponsoringAcc.data e.data)
      let (sponsoringData, data) ←
        removeSignerWithSponsorship n sponsoringID sponsoringAcc.data e.data
      put (accountKey sponsoringID) { sponsoringAcc with data := sponsoringData }
      put (accountKey accID) { e with data := data }) s
      (fun _ t => ∀ ks, SameSigning contentsHash s (t.withActive ks)) := by
  unfold removeSignerWithSponsorship
  simp only [Returns, after_bind, after_pure]
  refine returns_load fun ks => returns_current fun sponsoringAcc hsponsoring => ?_
  refine returns_lift fun _ _ => (returns_removeSignerSponsorship contentsHash).imp ?_
  rintro ⟨sponsoringData, data⟩ t ⟨hsponsor, hsigners, hdata, ht⟩
  have hn' : data.signers[n]? = some signer := by
    rwa [hsigners]
  refine (returns_removeSigner hn' hkey hne).imp ?_
  rintro acc' u ⟨hsigning, hu⟩
  refine returns_put (returns_put fun ks => ?_)
  have hsame : SameLedger s u := ((sameLedger_withActive s _).trans ht).trans hu
  exact (((SameSigning.of_same hsame).withEntry hsponsoring hsponsor).withEntry hacc
    (hdata.trans hsigning)).same (sameLedger_withActive _ ks)

theorem returns_removeSignerWithPossibleSponsorship :
    Returns (removeSignerWithPossibleSponsorship n accID) s
      (fun _ t => SameSigning contentsHash s t) := by
  refine returns_block ?_
  simp only [Returns, after_bind, after_loadHeader]
  refine returns_current fun e' he' => ?_
  obtain rfl := Option.mem_unique hacc he'
  have hunsponsored := returns_removeUnsponsoredSigner hacc hn hkey hne
  cases e.data.extV2 with
  | none => exact hunsponsored
  | some extV2 =>
    simp only [after_bind]
    refine returns_lift fun sponsoringID _ => ?_
    cases sponsoringID with
    | none => exact hunsponsored
    | some sponsoringID => exact returns_removeSponsoredSigner hacc hn hkey hne sponsoringID

end

end

namespace FeeBumpTransactionFrame

variable {tx : FeeBumpTransactionFrame} {s : LedgerTxn}

/-- The signer of the fee bump is gone; the inner transaction does not see it. -/
theorem returns_removeOneTimeSignerKeyFromFeeSource (hactive : s.mActive = [])
    (hhash : tx.contentsHash ≠ tx.innerTx.contentsHash) :
    Returns tx.removeOneTimeSignerKeyFromFeeSource s
      (fun _ t => SameSigning tx.innerTx.contentsHash s t) := by
  unfold removeOneTimeSignerKeyFromFeeSource removeSignerOf
  rw [Returns, after_block, after_bind]
  refine after_loadAccount hactive (fun _ => ?_) fun e he => ?_
  · exact .of_same ⟨rfl, rfl⟩
  simp only [after_bind, after_pure]
  rw [after_current_loaded he]
  simp only [after_ite, after_pure]
  refine ⟨fun hfound => ?_, fun _ => .of_same ⟨rfl, rfl⟩⟩
  obtain ⟨signer, hn, hkey⟩ := (Option.any_eq_true _ _).mp hfound
  have hremoved := returns_removeSignerWithPossibleSponsorship
    (s := s.withActive [accountKey tx.feeSource]) he hn
    (by simpa using hkey) hhash
  rw [after_bind]
  exact hremoved.imp fun _ t ht => ⟨ht.header, ht.account⟩

theorem removeOneTimeSignerKeyFromFeeSource_counted {keys : List SignerKey} {E : Thrown → LedgerTxn → Prop}
    (hactive : s.mActive = []) (hkey : .preAuthTx tx.contentsHash ∈ keys)
    (hs : s.toLedgerState.SignersCounted keys) :
    After tx.removeOneTimeSignerKeyFromFeeSource s (fun _ t => t.toLedgerState.SignersCounted keys) E := by
  unfold removeOneTimeSignerKeyFromFeeSource
  rw [after_block, after_bind]
  refine after_loadAccount hactive (fun _ => hs) fun e he => ?_
  simp only [after_bind]
  exact removeSignerOf_counted hs hkey he

/-- The keys of the signers that are good for the fee bump or its inner transaction only. -/
def oneTimeKeys (tx : FeeBumpTransactionFrame) : List SignerKey :=
  [.preAuthTx tx.contentsHash, .preAuthTx tx.innerTx.contentsHash]

theorem removeOneTimeSignerKeyFromFeeSource_after (hactive : s.mActive = [])
    (hhash : tx.contentsHash ≠ tx.innerTx.contentsHash) :
    After tx.removeOneTimeSignerKeyFromFeeSource s
      (fun _ t => SameSigning tx.innerTx.contentsHash s t ∧
        (s.toLedgerState.SignersCounted tx.oneTimeKeys → t.toLedgerState.SignersCounted tx.oneTimeKeys))
      (fun _ _ => ¬ s.toLedgerState.SignersCounted tx.oneTimeKeys) := by
  have hsigning := returns_removeOneTimeSignerKeyFromFeeSource hactive hhash
  by_cases hcounted : s.toLedgerState.SignersCounted tx.oneTimeKeys
  · exact (hsigning.and (removeOneTimeSignerKeyFromFeeSource_counted (E := fun _ _ => False) hactive
      mem_cons_self hcounted)).mono (fun _ t ht => ⟨ht.1, fun _ => ht.2⟩) fun _ _ hfalse => hfalse.2.elim
  · exact hsigning.mono (fun _ t ht => ⟨ht, fun h => absurd h hcounted⟩) fun _ _ _ => hcounted

/-- What `apply` does before the operations. -/
def applyCommon (crypto : Crypto) (tx : FeeBumpTransactionFrame) : LedgerM Validation := do
  nested do
    tx.removeOneTimeSignerKeyFromFeeSource
    return (true, ())
  tx.innerTx.applyCommon crypto false

/-- The operations of the inner transaction, with the result that `apply` gives. -/
def applyOperations (frames : OperationFrames) (crypto : Crypto) (checker : SignatureChecker)
    (tx : FeeBumpTransactionFrame) : LedgerM TransactionResult := do
  let result ← tx.innerTx.applyOperations frames crypto checker
  return ⟨result.code.map fun _ => .txFeeBumpInnerFailed, result.results⟩

end FeeBumpTransactionFrame

namespace TransactionFrameBase

/-- What `apply` does before the operations. -/
def applyCommon (crypto : Crypto) : TransactionFrameBase → LedgerM Validation
  | tx t => t.applyCommon crypto true
  | feeBump t => t.applyCommon crypto

def applyOperations (frames : OperationFrames) (crypto : Crypto) (checker : SignatureChecker) :
    TransactionFrameBase → LedgerM TransactionResult
  | tx t => t.applyOperations frames crypto checker
  | feeBump t => t.applyOperations frames crypto checker

/-- The keys of the signers that are good for this transaction only. -/
def oneTimeKeys : TransactionFrameBase → List SignerKey
  | tx t => [.preAuthTx t.contentsHash]
  | feeBump t => t.oneTimeKeys

/-- A fee bump and its inner transaction have different hashes. -/
def HashesDiffer : TransactionFrameBase → Prop
  | tx _ => True
  | feeBump t => t.contentsHash ≠ t.innerTx.contentsHash

end TransactionFrameBase

theorem TransactionFrame.apply_of_applyCommon {frames : OperationFrames} {plain : TransactionFrame}
    {chargeFee : Bool} {v : Validation} {s u : LedgerTxn}
    (hrun : plain.applyCommon crypto chargeFee s = .ok v u) (hcode : v.code = none) :
    plain.apply frames crypto chargeFee s = plain.applyOperations frames crypto v.checker u := by
  unfold apply
  rw [bind_of_ok hrun, hcode]

theorem FeeBumpTransactionFrame.apply_of_applyCommon {frames : OperationFrames} {bump : FeeBumpTransactionFrame}
    {v : Validation} {s u : LedgerTxn} (hrun : bump.applyCommon crypto s = .ok v u)
    (hcode : v.code = none) :
    bump.apply frames crypto s = bump.applyOperations frames crypto v.checker u := by
  unfold applyCommon at hrun
  unfold apply
  cases hremove : nested (do
      bump.removeOneTimeSignerKeyFromFeeSource
      return (true, ())) s with
  | error e w =>
    rw [bind_of_error hremove] at hrun
    cases hrun
  | ok _ w =>
    rw [bind_of_ok hremove] at hrun
    rw [bind_of_ok hremove]
    change EStateM.bind _ _ _ = EStateM.bind _ _ _
    rw [EStateM.bind, EStateM.bind, TransactionFrame.apply_of_applyCommon hrun hcode]

theorem TransactionFrameBase.apply_of_applyCommon {frames : OperationFrames} {tx : TransactionFrameBase}
    {v : Validation} {s u : LedgerTxn} (hrun : tx.applyCommon crypto s = .ok v u)
    (hcode : v.code = none) :
    tx.apply frames crypto s = tx.applyOperations frames crypto v.checker u := by
  cases tx with
  | tx tx => exact TransactionFrame.apply_of_applyCommon hrun hcode
  | feeBump tx => exact FeeBumpTransactionFrame.apply_of_applyCommon hrun hcode

section
variable {baseFee : ℤ} {feeTarget : AccountID} {acc feeAcc e : LedgerEntry AccountEntry} {fee : ℤ}
  {s u t : LedgerTxn} (hversion : 13 ≤ s.header.ledgerVersion)

include hversion

/-- A plain transaction that was found valid reaches its operations when its fee was charged. -/
theorem TransactionFrame.reaches_operations {plain : TransactionFrame}
    (hvalid : plain.Validated crypto s.toLedgerState 0 true 0 0 e)
    (hne : plain.getSourceID ≠ feeTarget)
    (h : FeeProcessed (.tx plain) baseFee feeTarget acc feeAcc fee s u t) :
    After (plain.applyCommon crypto true) t (fun v _ => v.type = .kMaybeValid ∧ v.code = none)
      (fun _ _ => ¬ s.toLedgerState.SignersCounted [.preAuthTx plain.contentsHash]) := by
  obtain rfl := Option.mem_unique h.charged.source hvalid.common.account
  obtain ⟨available, hok, hle⟩ := hvalid.common.pays rfl
  have hbid : plain.getFeeBid ≤ available := by
    rw [TransactionFrame.feeToPay, if_neg (by simp), TransactionFrame.getFeeBid,
      Int.emod_eq_of_lt (by omega) (by omega)] at hle
    exact hle
  obtain ⟨e', available', hacc', hseq, hok', hnonneg⟩ := h.pays hne hversion hok hbid
  obtain ⟨hvalid', hsigned'⟩ := hvalid.applying hversion h.header_charged
    (h.sameAuth (by omega) _) hacc' hseq fun _ => ⟨available', hok', hnonneg⟩
  have hversion' : 13 ≤ t.header.ledgerVersion := by
    rwa [h.header_charged]
  exact (TransactionFrame.applyCommon_reaches hversion' hvalid' hsigned').mono (fun _ _ h => h)
    fun _ _ hnot hcounted => hnot ((h.sameCounts (by omega)).signersCounted hcounted)

/-- The inner transaction of a fee bump that was found valid reaches its operations. -/
theorem FeeBumpTransactionFrame.reaches_operations {bump : FeeBumpTransactionFrame}
    (hvalid : bump.innerTx.Validated crypto s.toLedgerState 0 false 0 0 e)
    (hhash : bump.contentsHash ≠ bump.innerTx.contentsHash)
    (h : FeeProcessed (.feeBump bump) baseFee feeTarget acc feeAcc fee s u t) :
    After (bump.applyCommon crypto) t
      (fun v _ => v.type = .kMaybeValid ∧ v.code = none)
      (fun _ _ => ¬ s.toLedgerState.SignersCounted bump.oneTimeKeys) := by
  have hcharged := h.sameAuth (by omega)
  have hcounts := h.sameCounts (by omega)
  unfold applyCommon
  rw [after_bind, after_nested, after_bind]
  refine (removeOneTimeSignerKeyFromFeeSource_after (s := t.withActive []) rfl hhash).mono ?_
    fun _ _ hnot hcounted => hnot (hcounts.signersCounted hcounted)
  rintro _ w ⟨hsigning, hkept⟩
  refine ⟨fun _ => ?_, nofun⟩
  obtain ⟨f, hf⟩ := h.account_charged (by omega) bump.innerTx.getSourceID
  have hsource := hsigning.account bump.innerTx.getSourceID
  change Option.Rel _ (t.account bump.innerTx.getSourceID) _ at hsource
  rw [hf, hvalid.common.account, Option.map_some] at hsource
  generalize hw : w.account bump.innerTx.getSourceID = found at hsource
  cases hsource with
  | @some _ e' hsame =>
    have hauth : SameAuth bump.innerTx.contentsHash s.toLedgerState w.toLedgerState :=
      (hcharged _).trans hsigning.sameAuth
    have hheader : w.header = { s.header with feePool := w.header.feePool } := by
      rw [hsigning.header]
      exact h.header_charged
    obtain ⟨hvalid', hsigned'⟩ :=
      hvalid.applying hversion hheader hauth hw hsame.seqNum nofun
    have hversion' : 13 ≤ w.header.ledgerVersion := by
      rwa [hheader]
    exact (TransactionFrame.applyCommon_reaches (s := w.withActive []) hversion' hvalid'
      hsigned').mono (fun _ _ h => h) fun _ _ hnot hcounted => hnot
        ((hkept (hcounts.signersCounted hcounted)).mono (by simp [oneTimeKeys]))

end

/-- A transaction that was found valid reaches its operations when its fee was charged, whatever the
base fee. It can only fail to by an exception, if an account has a signer that names it, which is
removed first, and the counters of that account or of a sponsor of its signers do not cover them. -/
theorem TransactionFrameBase.validated_reaches_operations (frames : OperationFrames) (crypto : Crypto)
    (tx : TransactionFrameBase) (baseFee : ℤ) (feeTarget : AccountID) (s s' t : LedgerTxn) (fee : ℤ)
    (hversion : 13 ≤ s.header.ledgerVersion)
    (hvalid : tx.checkValid crypto 0 0 0 s = .ok none s') (hne : tx.getFeeSourceID ≠ feeTarget)
    (hhash : tx.HashesDiffer) (hcharged : tx.processFeeSeqNum baseFee feeTarget s = .ok fee t) :
    After (tx.applyCommon crypto) t
      (fun v u => v.type = .kMaybeValid ∧ v.code = none ∧
        tx.apply frames crypto t = tx.applyOperations frames crypto v.checker u)
      (fun _ _ => ¬ s.toLedgerState.SignersCounted tx.oneTimeKeys) := by
  obtain ⟨acc, feeAcc, w, h⟩ := (processFeeSeqNum_after hne).of_ok hcharged
  have hreaches : After (tx.applyCommon crypto) t
      (fun v _ => v.type = .kMaybeValid ∧ v.code = none)
      (fun _ _ => ¬ s.toLedgerState.SignersCounted tx.oneTimeKeys) := by
    cases tx with
    | tx plain =>
      obtain ⟨e, he⟩ := (TransactionFrame.checkValid_after.of_ok hvalid).2 rfl
      exact TransactionFrame.reaches_operations hversion he hne h
    | feeBump bump =>
      obtain ⟨-, e, he⟩ := (FeeBumpTransactionFrame.checkValid_after.of_ok hvalid).2 rfl
      exact FeeBumpTransactionFrame.reaches_operations hversion he hhash h
  unfold After at hreaches ⊢
  cases hrun : tx.applyCommon crypto t with
  | error e u =>
    rwa [hrun] at hreaches
  | ok v u =>
    rw [hrun] at hreaches
    exact ⟨hreaches.1, hreaches.2, apply_of_applyCommon hrun hreaches.2⟩

/-! ## A transaction that its own signer authorises -/

namespace PreAuthorized

/-- Nobody has signed anything. -/
def noCrypto : Crypto where
  verifyHashX _ _ := false
  verify _ _ _ := false

def frames : OperationFrames where
  doApply _ _ _ := pure (.success [])
  operationIDHash _ _ _ := 0

/-- The payer has a signer that names the transaction with hash 7, and counts `n` subentries. -/
def ledger (n : Counter) : LedgerTxn where
  entries := ((∅ : AList InternalLedgerKey.Entry).insert (accountKey 1)
    ⟨{ balance := 700, seqNum := 5, numSubEntries := n, thresholds := ⟨0, 1, 1, 1⟩,
       signers := [⟨.preAuthTx 7, 1⟩] }, .v0⟩).insert (accountKey 2)
    ⟨{ balance := 300, seqNum := 0 }, .v0⟩
  header := FeeExample.header

/-- The ledger when the fee was charged. -/
def charged (n : Counter) : LedgerTxn :=
  finalState (FeeExample.tx.processFeeSeqNum 100 2) (ledger n)

end PreAuthorized

/-- With one subentry counted the signer can be removed. -/
theorem PreAuthorized.ledger_counted :
    (ledger 1).toLedgerState.SignersCounted FeeExample.tx.oneTimeKeys := by
  rintro id e he ⟨signer, hsigner, -⟩
  unfold LedgerState.account ledger at he
  by_cases h2 : id = 2
  · subst h2
    rw [AList.lookup_insert] at he
    cases he
    cases hsigner
  rw [AList.lookup_insert_ne (accountKey_ne h2)] at he
  by_cases h1 : id = 1
  · subst h1
    rw [AList.lookup_insert] at he
    cases he
    exact ⟨⟨by decide, nofun, by decide⟩, nofun⟩
  · rw [AList.lookup_insert_ne (accountKey_ne h1)] at he
    cases he

open PreAuthorized in
/-- So the operations are reached. -/
theorem authorized_reaches_operations :
    FeeExample.tx.checkValid noCrypto 0 0 0 (ledger 1) =
      .ok none (finalState (FeeExample.tx.checkValid noCrypto 0 0 0) (ledger 1)) ∧
    After (FeeExample.tx.applyCommon noCrypto) (charged 1)
      (fun v u => v.type = .kMaybeValid ∧ v.code = none ∧
        FeeExample.tx.apply frames noCrypto (charged 1) =
          FeeExample.tx.applyOperations frames noCrypto v.checker u)
      (fun _ _ => False) := by
  have hvalid : FeeExample.tx.checkValid noCrypto 0 0 0 (ledger 1) =
      .ok none (finalState (FeeExample.tx.checkValid noCrypto 0 0 0) (ledger 1)) :=
    eq_ok_of_returned (by decide +kernel)
  have hcharged : FeeExample.tx.processFeeSeqNum 100 2 (ledger 1) = .ok 100 (charged 1) :=
    eq_ok_of_returned (by decide +kernel)
  have hreaches := TransactionFrameBase.validated_reaches_operations frames noCrypto FeeExample.tx 100 2
    (ledger 1) _ (charged 1) 100 (by decide) hvalid (by decide) trivial hcharged
  exact ⟨hvalid, hreaches.mono (fun _ _ h => h) fun _ _ hnot => hnot ledger_counted⟩

open PreAuthorized in
/-- With none counted the transaction is valid and its fee is charged, but removing the signer
throws before the operations. -/
theorem authorized_throws :
    13 ≤ (ledger 0).header.ledgerVersion ∧
    FeeExample.tx.checkValid noCrypto 0 0 0 (ledger 0) =
      .ok none (finalState (FeeExample.tx.checkValid noCrypto 0 0 0) (ledger 0)) ∧
    FeeExample.tx.getFeeSourceID ≠ 2 ∧
    FeeExample.tx.processFeeSeqNum 100 2 (ledger 0) = .ok 100 (charged 0) ∧
    returned (FeeExample.tx.applyCommon noCrypto) (charged 0) = none ∧
    returned (FeeExample.tx.apply frames noCrypto) (charged 0) = none := by
  refine ⟨by decide, eq_ok_of_returned ?_, by decide, eq_ok_of_returned ?_, ?_, ?_⟩ <;>
    decide +kernel

end DigitalBits.Ledger
