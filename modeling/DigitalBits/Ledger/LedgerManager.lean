import DigitalBits.Herder.ApplyOrder
import DigitalBits.Transactions.FeeProcessing

/-!
# Charging the fees of an agreed set

When a ledger closes, the fees of all transactions of the agreed set are charged
before any of them is applied. An exception there ends the close. A set that was
found valid gives none, unless the fee account has to pay a fee itself: then it
is loaded twice.
-/
namespace DigitalBits.Ledger

open Lib Herder

/-- The loop of `processFeesSeqNums`: each transaction is charged in a transaction of its own. -/
def processFees (baseFee : ℤ) (feeTarget : AccountID) : List TransactionFrameBase → LedgerM Unit
  | [] => pure ()
  | tx :: txs => do
    nested do
      let _ ← tx.processFeeSeqNum baseFee feeTarget
      return (true, ())
    processFees baseFee feeTarget txs

def processFeesSeqNums (txs : List TransactionFrameBase) (baseFee : ℤ) (feeTarget : AccountID) :
    LedgerM Unit :=
  nested do
    processFees baseFee feeTarget txs
    return (true, ())

variable {feeTarget : AccountID} {baseFee : ℤ} {s t u : LedgerTxn} {tx : TransactionFrameBase}
  {txs : List TransactionFrameBase} {acc feeAcc : LedgerEntry AccountEntry} {fee : ℤ}

/-! ## One transaction -/

/-- Sequence numbers that follow each other, from the one after `n`. -/
def Consecutive : SequenceNumber → List TransactionFrameBase → Prop
  | _, [] => True
  | n, tx :: txs => n + 1 = tx.getSeqNum ∧ Consecutive tx.getSeqNum txs

/-- What charging the fees of `txs` needs. -/
structure FeeReady (feeTarget : AccountID) (s : LedgerTxn) (txs : List TransactionFrameBase) :
    Prop where
  target : (s.account feeTarget).isSome
  payers : ∀ tx ∈ txs, (s.account tx.getFeeSourceID).isSome
  balances : ∀ id acc, s.account id = some acc → 0 ≤ acc.data.balance
  plain : s.header.ledgerVersion ≤ 9 → ∀ tx ∈ txs, ∃ t, tx = .tx t
  seqNums : s.header.ledgerVersion ≤ 9 → ∀ id acc, s.account id = some acc →
    Consecutive acc.data.seqNum (txs.filter fun tx => tx.getSourceID = id)

theorem rawBalance_nonneg {balance delta : ℤ} (h : 0 ≤ balance) : 0 ≤ rawBalance balance delta := by
  unfold rawBalance
  split_ifs <;> omega

theorem Charged.account {accountID : AccountID} {feeCharged : ℤ}
    (h : Charged accountID feeTarget acc feeAcc feeCharged fee s t)
    (hbalances : ∀ id acc, s.account id = some acc → 0 ≤ acc.data.balance) (id : AccountID) :
    (∀ e', t.account id = some e' → ∃ e b, s.account id = some e ∧ 0 ≤ b ∧ e' = withBalance e b) ∧
    ((s.account id).isSome → (t.account id).isSome) := by
  have hlookup := h.lookup (accountKey id)
  change t.account id = _ at hlookup
  rw [hlookup]
  by_cases hT : id = feeTarget
  · subst hT
    rw [AList.lookup_insert]
    refine ⟨fun e' he' => ?_, fun _ => rfl⟩
    cases he'
    exact ⟨feeAcc, _, h.target, rawBalance_nonneg (hbalances _ _ h.target), rfl⟩
  · rw [AList.lookup_insert_ne (accountKey_ne hT)]
    by_cases hS : id = accountID
    · subst hS
      rw [AList.lookup_insert]
      refine ⟨fun e' he' => ?_, fun _ => rfl⟩
      cases he'
      exact ⟨acc, _, h.source, rawBalance_nonneg (hbalances _ _ h.source), rfl⟩
    · rw [AList.lookup_insert_ne (accountKey_ne hS)]
      exact ⟨fun e' he' => ⟨e', e'.data.balance, he', hbalances _ _ he', rfl⟩, fun h => h⟩

/-- An account after `processFeeSeqNum`: only its balance and sequence number may differ. -/
theorem FeeProcessed.account (h : FeeProcessed tx baseFee feeTarget acc feeAcc fee s u t)
    (hbalances : ∀ id acc, s.account id = some acc → 0 ≤ acc.data.balance) (id : AccountID) :
    (∀ e', t.account id = some e' → ∃ e, s.account id = some e ∧ 0 ≤ e'.data.balance ∧
      (tx.usesSeqNum s.header ∧ id = tx.getFeeSourceID →
        e.data.seqNum + 1 = tx.getSeqNum ∧ e'.data.seqNum = tx.getSeqNum) ∧
      (¬ (tx.usesSeqNum s.header ∧ id = tx.getFeeSourceID) → e'.data.seqNum = e.data.seqNum)) ∧
    ((s.account id).isSome → (t.account id).isSome) := by
  obtain ⟨hcharged, hsome⟩ := h.charged.account hbalances id
  by_cases hS : id = tx.getFeeSourceID
  · subst hS
    obtain ⟨e, e', he, he', hdata, huses, hkeeps⟩ := h.source
    obtain ⟨e₀, b, he₀, hb, rfl⟩ := hcharged e he
    have hbalance : e'.data.balance = b := by rw [hdata]; rfl
    change t.account _ = some e' at he'
    rw [he']
    refine ⟨fun e'' he'' => ?_, fun _ => rfl⟩
    cases he''
    refine ⟨e₀, he₀, hbalance ▸ hb, fun hu => huses hu.1, fun hu => ?_⟩
    rw [hkeeps fun hseq => hu ⟨hseq, rfl⟩]
    rfl
  · have hlookup := h.lookup (accountKey id) (accountKey_ne hS)
    change t.account id = u.account id at hlookup
    rw [hlookup]
    refine ⟨fun e' he' => ?_, hsome⟩
    obtain ⟨e, b, he, hb, rfl⟩ := hcharged e' he'
    exact ⟨e, he, hb, fun hu => absurd hu.2 hS, fun _ => rfl⟩

/-- Charging one transaction leaves what the others need. -/
theorem FeeReady.step (h : FeeReady feeTarget s (tx :: txs)) (hne : tx.getFeeSourceID ≠ feeTarget)
    (hactive : s.mActive = []) :
    After (tx.processFeeSeqNum baseFee feeTarget) s (fun _ t => FeeReady feeTarget t txs)
      (fun _ _ => False) := by
  refine (processFeeSeqNum_after hne).mono ?_ ?_
  · rintro fee t ⟨acc, feeAcc, u, hp⟩
    have haccount := hp.account h.balances
    have hversion : t.header.ledgerVersion = s.header.ledgerVersion := by
      rw [hp.header, hp.charged.header]
    refine ⟨(haccount _).2 h.target, fun tx' htx' => ?_, fun id e' he' => ?_, fun hv => ?_,
      fun hv id e' he' => ?_⟩
    · exact (haccount _).2 (h.payers tx' (List.mem_cons_of_mem _ htx'))
    · obtain ⟨e, -, hb, -, -⟩ := (haccount id).1 e' he'
      exact hb
    · exact fun tx' htx' => h.plain (hversion ▸ hv) tx' (List.mem_cons_of_mem _ htx')
    · rw [hversion] at hv
      obtain ⟨plainTx, rfl⟩ := h.plain hv tx List.mem_cons_self
      obtain ⟨e, he, -, huses, hkeeps⟩ := (haccount id).1 e' he'
      have hseq := h.seqNums hv id e he
      by_cases hid : id = plainTx.getSourceID
      · rw [List.filter_cons_of_pos (by simp [TransactionFrameBase.getSourceID, hid])] at hseq
        rw [(huses ⟨hv, hid⟩).2]
        exact hseq.2
      · rw [List.filter_cons_of_neg
          (by simp [TransactionFrameBase.getSourceID, Ne.symm hid])] at hseq
        rwa [hkeeps fun hu => hid hu.2]
  · rintro e t (⟨id, hid, hblocked⟩ | ⟨hv, acc, hacc, hseq⟩)
    · -- Both accounts are there and have a balance.
      have hsome : (s.account id).isSome := by
        rcases hid with rfl | rfl
        · exact h.payers tx List.mem_cons_self
        · exact h.target
      rcases hblocked with hact | hnone | ⟨acc, hacc, hneg⟩
      · rw [hactive] at hact
        cases hact
      · rw [LedgerState.account, hnone] at hsome
        cases hsome
      · exact absurd (h.balances id acc hacc) (not_le.mpr hneg)
    · cases tx with
      | feeBump tx => exact hv
      | tx tx =>
        have hcons := h.seqNums hv _ acc hacc
        rw [List.filter_cons_of_pos (by simp [TransactionFrameBase.getSourceID,
          TransactionFrameBase.getFeeSourceID])] at hcons
        exact hseq hcons.1

/-! ## All of them -/

theorem FeeReady.congr {s' : LedgerTxn} (h : FeeReady feeTarget s txs)
    (hs : s'.toLedgerState = s.toLedgerState) : FeeReady feeTarget s' txs := by
  obtain ⟨h1, h2, h3, h4, h5⟩ := h
  rw [← hs] at h1 h2 h3 h4 h5
  exact ⟨h1, h2, h3, h4, h5⟩

theorem processFees_completes (h : FeeReady feeTarget s txs)
    (hne : ∀ tx ∈ txs, tx.getFeeSourceID ≠ feeTarget) :
    After (processFees baseFee feeTarget txs) s (fun _ _ => True) (fun _ _ => False) := by
  induction txs generalizing s with
  | nil => trivial
  | cons tx txs ih =>
    rw [List.forall_mem_cons] at hne
    unfold processFees
    rw [after_bind, after_nested]
    simp only [after_bind, after_pure]
    have hready : FeeReady feeTarget (s.withActive []) (tx :: txs) := h.congr rfl
    refine (hready.step hne.1 rfl).imp fun _ t ht => ⟨fun _ => ?_, by simp⟩
    exact ih (ht.congr rfl) hne.2

/-- The fee account can not be charged: it would be loaded twice. -/
theorem processFeeSeqNum_self (hself : tx.getFeeSourceID = feeTarget) :
    After (tx.processFeeSeqNum baseFee feeTarget) s (fun _ _ => False) (fun _ _ => True) := by
  have hcharge : ∀ feeCharged, After (chargeFee feeTarget feeTarget feeCharged) s
      (fun _ _ => False) (fun _ _ => True) := by
    intro feeCharged
    unfold chargeFee loadAccount
    rw [after_bind, after_load]
    refine ⟨fun _ => trivial, fun _ hnone => ?_, fun _ acc hacc => ?_⟩
    · rw [after_bind, after_load]
      refine ⟨fun _ => trivial, fun _ _ => ?_, fun _ acc hacc => ?_⟩
      · simp
      · cases hnone.symm.trans hacc
    · rw [after_bind, after_load]
      refine ⟨fun _ => trivial, fun hnot => ?_, fun hnot => ?_⟩
      · simp at hnot
      · simp at hnot
  cases tx with
  | tx tx =>
    obtain rfl : tx.getSourceID = feeTarget := hself
    unfold TransactionFrameBase.processFeeSeqNum TransactionFrame.processFeeSeqNum
    rw [after_block, after_bind, after_loadHeader]
    exact (hcharge _).bind fun _ _ h => h.elim
  | feeBump tx =>
    obtain rfl : tx.feeSource = feeTarget := hself
    unfold TransactionFrameBase.processFeeSeqNum FeeBumpTransactionFrame.processFeeSeqNum
    rw [after_block]
    exact (hcharge _).imp fun _ _ h => h.elim

theorem processFees_fails (htx : tx ∈ txs) (hself : tx.getFeeSourceID = feeTarget) :
    After (processFees baseFee feeTarget txs) s (fun _ _ => False) (fun _ _ => True) := by
  induction htx generalizing s with
  | head =>
    unfold processFees
    rw [after_bind, after_nested]
    simp only [after_bind, after_pure]
    exact (processFeeSeqNum_self hself).imp fun _ _ h => h.elim
  | tail _ _ ih =>
    unfold processFees
    rw [after_bind, after_nested]
    simp only [after_bind, after_pure]
    exact After.of_forall (fun _ t => ⟨fun _ => ih, by simp⟩) fun _ _ => trivial

/-! ## A valid set -/

section

variable {platform : Platform} {crypto : Crypto} {lcl : LastClosedLedger} {lower upper : ℕ}

/-- The queues of a set that passes the check are chains. -/
theorem chains_of_isValid {set : TxSetFrame}
    (h : set.isValid platform crypto lcl lower upper = .ok true) (A : AccountID) :
    ValidChain crypto lcl lower upper 0 (queueOf set.mTransactions A) := by
  have hcheck : Yields (checkOrTrim platform crypto lcl true lower upper set.mTransactions)
      (fun r => r.isSome → ∀ queue ∈ buildAccountTxQueues platform set.mTransactions,
        ValidChain crypto lcl lower upper 0 queue) (fun _ => True) := by
    unfold checkOrTrim
    rw [yields_bind]
    refine checkQueues_check.imp ?_
    rintro (_ | ⟨kept, trimmed, fees⟩) hqueues
    · simp
    · simp only [yields_bind]
      cases payQueues lcl true fees kept with
      | error e => trivial
      | ok r =>
        rcases r with _ | unpaid
        · simp
        · exact fun _ => hqueues rfl
  have hsome : ∃ r, checkOrTrim platform crypto lcl true lower upper set.mTransactions =
      .ok (some r) := by
    unfold TxSetFrame.isValid at h
    split_ifs at h
    · cases h
    · cases h
    · cases hrun : checkOrTrim platform crypto lcl true lower upper set.mTransactions with
      | error e => cases hrun ▸ h
      | ok r =>
        cases r with
        | none => cases hrun ▸ h
        | some r => exact ⟨r, rfl⟩
    · cases h
  obtain ⟨r, hr⟩ := hsome
  have hqueues := hcheck.of_ok hr rfl
  by_cases hA : A ∈ sourcesOf platform set.mTransactions
  · exact hqueues _ (List.mem_map_of_mem hA)
  · have hnil := queueOf_perm set.mTransactions A
    rw [queueOf_of_not_mem hA] at hnil
    rw [hnil.eq_nil]
    trivial

/-- The sequence numbers of a chain follow that of the account. -/
theorem validChain_consecutive {A : AccountID} {queue : List TransactionFrameBase}
    (hacc : lcl.state.account A = some acc) (hA : ∀ tx ∈ queue, tx.getSourceID = A)
    {lastSeq : SequenceNumber} (h : ValidChain crypto lcl lower upper lastSeq queue)
    (hnonneg : 0 ≤ (if lastSeq = 0 then acc.data.seqNum else lastSeq)) :
    Consecutive (if lastSeq = 0 then acc.data.seqNum else lastSeq) queue := by
  induction queue generalizing lastSeq with
  | nil => trivial
  | cons tx queue ih =>
    rw [List.forall_mem_cons] at hA
    obtain ⟨acc', hacc', hnext⟩ := (acceptable_of_isTxValid h.1).next
    rw [hA.1, hacc] at hacc'
    cases hacc'
    have hne : tx.getSeqNum ≠ 0 := by
      rw [hnext]
      exact (Int.lt_add_one_of_le hnonneg).ne'
    have hrest := ih hA.2 h.2
    rw [if_neg hne] at hrest
    refine ⟨hnext.symm, hrest ?_⟩
    rw [hnext]
    exact hnonneg.trans (Int.le_add_one le_rfl)

end

/-- Charging the fees of a valid set completes exactly when the fee account pays none of them.
The set may have been asked before and sorted since; the ledger that closes has the entries of the
last closed one. -/
theorem processFeesSeqNums_completes_iff (platform : Platform) (crypto : Crypto)
    (lcl : LastClosedLedger) (start : TxSetFrame) (h : History)
    (hr : Reached platform crypto lcl (fun _ _ => True) start h) (lower upper : ℕ)
    (checked : TxSetFrame)
    (hvalid : h.set.checkValid platform crypto lcl lower upper = .ok (true, checked))
    (s : LedgerTxn) (hentries : s.entries = lcl.state.entries)
    (hversion : s.header.ledgerVersion = lcl.state.header.ledgerVersion)
    (hledger : ∀ id acc, lcl.state.account id = some acc →
      0 ≤ acc.data.balance ∧ 0 ≤ acc.data.seqNum)
    (feeTarget : AccountID) (htarget : (lcl.state.account feeTarget).isSome) (baseFee : ℤ) :
    (∃ t, processFeesSeqNums (checked.sortForApply platform).1 baseFee feeTarget s = .ok () t) ↔
      ∀ tx ∈ checked.mTransactions, tx.getFeeSourceID ≠ feeTarget := by
  -- The verdict was found for some offsets, by this call or by an earlier one.
  have hfound : ∃ lower upper, checked.isValid platform crypto lcl lower upper = .ok true := by
    by_cases hc : h.set.isCached lcl = true
    · obtain ⟨valid, hv⟩ := mValid_of_isCached hc
      rw [checkValid_of_cached hv] at hvalid
      cases hvalid
      obtain ⟨lower', upper', -, hok⟩ := hr.sound _ hv
      exact ⟨lower', upper', hok⟩
    · rw [checkValid_of_not_cached (Bool.eq_false_iff.mpr hc)] at hvalid
      cases hok : h.set.isValid platform crypto lcl lower upper with
      | error e => cases hok ▸ hvalid
      | ok valid =>
        cases hok ▸ hvalid
        exact ⟨lower, upper, hok⟩
  obtain ⟨lower', upper', hok⟩ := hfound
  have hchains := chains_of_isValid hok
  have hperm := sortForApply_perm platform checked
  have hacceptable : ∀ tx ∈ (checked.sortForApply platform).1,
      ∃ lastSeq, Acceptable lcl.state lastSeq tx :=
    fun tx htx => (hchains _).acceptable (mem_queueOf (hperm.subset htx))
  have haccount : ∀ id, s.account id = lcl.state.account id := fun id => by
    rw [LedgerState.account, hentries]
    rfl
  have hready : FeeReady feeTarget (s.withActive []) (checked.sortForApply platform).1 := by
    refine ⟨?_, fun tx htx => ?_, fun id acc hacc => ?_, fun hv tx htx => ?_, fun hv id acc hacc => ?_⟩
    · exact (haccount feeTarget).symm ▸ htarget
    · obtain ⟨lastSeq, hacc⟩ := hacceptable tx htx
      exact (haccount _).symm ▸ hacc.feeSource
    · exact (hledger id acc ((haccount id).symm.trans hacc)).1
    · obtain ⟨lastSeq, hacc⟩ := hacceptable tx htx
      rw [LedgerTxn.withActive_header, hversion] at hv
      exact hacc.plain (by omega)
    · have hacc' := (haccount id).symm.trans hacc
      rw [filter_sortForApply]
      exact validChain_consecutive hacc' (fun tx htx => source_of_mem_queueOf htx) (hchains id)
        (hledger id acc hacc').2
  constructor
  · rintro ⟨t, hrun⟩ tx htx hself
    have hfails : After (processFeesSeqNums (checked.sortForApply platform).1 baseFee feeTarget) s
        (fun _ _ => False) (fun _ _ => True) := by
      unfold processFeesSeqNums
      rw [after_nested]
      exact (processFees_fails (hperm.symm.subset htx) hself).bind fun _ _ h => h.elim
    exact hfails.of_ok hrun
  · intro hne
    have hdone : After (processFeesSeqNums (checked.sortForApply platform).1 baseFee feeTarget) s
        (fun _ _ => True) (fun _ _ => False) := by
      unfold processFeesSeqNums
      rw [after_nested]
      refine (processFees_completes hready fun tx htx => hne tx (hperm.subset htx)).bind fun _ _ _ => ?_
      exact ⟨fun _ => trivial, by simp⟩
    cases hrun : processFeesSeqNums (checked.sortForApply platform).1 baseFee feeTarget s with
    | ok a t => exact ⟨t, rfl⟩
    | error e t => exact (hdone.of_error hrun).elim

open LateSet in
/-- A valid set with a transaction of the fee account: charging its fee ends in an exception. -/
theorem fee_account_not_charged :
    lateSet.checkValid idPlatform goodCrypto ledger 0 0 = .ok (true, checked) ∧
    (ledger.state.account sourceID).isSome = true ∧
    failure (processFeesSeqNums (checked.sortForApply idPlatform).1 100 sourceID)
      { ledger.state with } = some (.exception .keyIsActive) := by
  decide +kernel

open LateSet in
/-- The criterion at this set: charging its fees does not complete. -/
theorem fee_account_not_charged_criterion :
    ¬ ∃ t, processFeesSeqNums (checked.sortForApply idPlatform).1 100 sourceID
      { ledger.state with } = .ok () t := by
  have hledger : ∀ id acc, ledger.state.account id = some acc →
      0 ≤ acc.data.balance ∧ 0 ≤ acc.data.seqNum := by
    intro id acc hacc
    by_cases hid : id = sourceID
    · subst hid
      have hlookup : some acc = some ⟨{ balance := 700, seqNum := 5 }, .v0⟩ :=
        hacc.symm.trans (AList.lookup_insert _)
      cases hlookup
      decide
    · have hlookup : ledger.state.account id = none :=
        (AList.lookup_insert_ne (accountKey_ne hid)).trans rfl
      rw [hlookup] at hacc
      cases hacc
  rw [processFeesSeqNums_completes_iff idPlatform goodCrypto ledger lateSet _ .start 0 0 checked
    (by decide +kernel) { ledger.state with } rfl rfl hledger sourceID (by decide +kernel) 100]
  decide +kernel

end DigitalBits.Ledger
