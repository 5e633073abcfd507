import DigitalBits.Herder.TxSetHistory
import DigitalBits.Transactions.TransactionValidity

/-!
# Trimming leaves a valid set

The queues of a valid set are chains: each transaction is valid after the one
before it. Both filters keep of each chain an initial part, and every payer can
pay for more than what is left, so a set that went through both is valid.
-/
namespace DigitalBits.Herder
open List

open Ledger Lib

variable {platform : Platform} {crypto : Crypto} {lcl : LastClosedLedger} {lower upper : ℕ}
  {lastSeq : SequenceNumber} {tx : TransactionFrameBase} {txs : List TransactionFrameBase}
  {fees : FeeMap} {A : AccountID} {queue : AccountTransactionQueue}
  {queues : List AccountTransactionQueue}

/-! ## Single transactions -/

/-- A transaction that is valid is acceptable; a check that throws met a reserve that can not be
computed. -/
theorem isTxValid_spec :
    Yields (isTxValid crypto lcl lower upper lastSeq tx)
      (fun valid => valid = true → Acceptable lcl.state lastSeq tx)
      (fun _ => ¬ WellReserved lcl.state) := by
  have hafter : After (tx.checkValid crypto lastSeq lower upper) { lcl.state with }
      (fun code _ => code = none → Acceptable lcl.state lastSeq tx)
      (fun _ _ => ¬ WellReserved lcl.state) := TransactionFrameBase.checkValid_after
  unfold isTxValid
  rw [yields_bind, yields_ask]
  refine hafter.imp fun code _ h hvalid => ?_
  exact h (Option.isNone_iff_eq_none.mp hvalid)

theorem acceptable_of_isTxValid (h : isTxValid crypto lcl lower upper lastSeq tx = .ok true) :
    Acceptable lcl.state lastSeq tx :=
  isTxValid_spec.of_ok h rfl

/-! ## Chains -/

/-- Each transaction is valid after the one before it, the first after `lastSeq`. -/
def ValidChain (crypto : Crypto) (lcl : LastClosedLedger) (lower upper : ℕ) :
    SequenceNumber → List TransactionFrameBase → Prop
  | _, [] => True
  | lastSeq, tx :: txs =>
    isTxValid crypto lcl lower upper lastSeq tx = .ok true ∧
      ValidChain crypto lcl lower upper tx.getSeqNum txs

/-- In the order of their sequence numbers. -/
abbrev BySeqNum (txs : List TransactionFrameBase) : Prop :=
  txs.Pairwise fun tx1 tx2 => tx1.getSeqNum ≤ tx2.getSeqNum

theorem ValidChain.of_prefix {p : List TransactionFrameBase}
    (h : ValidChain crypto lcl lower upper lastSeq txs) (hp : p <+: txs) :
    ValidChain crypto lcl lower upper lastSeq p := by
  obtain ⟨rest, rfl⟩ := hp
  induction p generalizing lastSeq with
  | nil => trivial
  | cons tx p ih => exact ⟨h.1, ih h.2⟩

/-- After an account whose sequence number is -1 every transaction of the chain is the first. -/
theorem ValidChain.all_zero {acc : LedgerEntry AccountEntry} (hacc : lcl.state.account A = some acc)
    (hseq : acc.data.seqNum = -1) (hA : ∀ tx ∈ txs, tx.getSourceID = A)
    (h : ValidChain crypto lcl lower upper 0 txs) :
    ∀ tx ∈ txs, tx.getSeqNum = 0 ∧ isTxValid crypto lcl lower upper 0 tx = .ok true := by
  induction txs with
  | nil => simp
  | cons tx txs ih =>
    rw [forall_mem_cons] at hA ⊢
    obtain ⟨acc', hacc', hnext⟩ := (acceptable_of_isTxValid h.1).next
    rw [hA.1, hacc] at hacc'
    cases hacc'
    have hzero : tx.getSeqNum = 0 := by simpa [hseq] using hnext
    exact ⟨⟨hzero, h.1⟩, ih hA.2 (hzero ▸ h.2)⟩

/-- Otherwise the sequence numbers of a chain increase: where one is zero, the next would have to
start anew from the account. -/
theorem ValidChain.increasing {acc : LedgerEntry AccountEntry}
    (hacc : lcl.state.account A = some acc) (hseq : acc.data.seqNum ≠ -1)
    (hA : ∀ tx ∈ txs, tx.getSourceID = A) (hsorted : BySeqNum txs)
    (hlow : ∀ tx ∈ txs, acc.data.seqNum + 1 ≤ tx.getSeqNum)
    (h : ValidChain crypto lcl lower upper lastSeq txs) :
    txs.Pairwise fun tx1 tx2 => tx1.getSeqNum < tx2.getSeqNum := by
  induction txs generalizing lastSeq with
  | nil => exact .nil
  | cons tx txs ih =>
    rw [forall_mem_cons] at hA hlow
    obtain ⟨hle, hsorted'⟩ := pairwise_cons.mp hsorted
    refine pairwise_cons.mpr ⟨?_, ih hA.2 hsorted' hlow.2 h.2⟩
    cases txs with
    | nil => simp
    | cons tx2 rest =>
      obtain ⟨acc', hacc', hnext⟩ := (acceptable_of_isTxValid h.2.1).next
      rw [hA.2 tx2 mem_cons_self, hacc] at hacc'
      cases hacc'
      have hle2 := hle tx2 mem_cons_self
      have hlt : tx.getSeqNum < tx2.getSeqNum := by
        split at hnext
        · refine absurd ?_ hseq
          linarith
        · linarith
      rw [forall_mem_cons]
      exact ⟨hlt, fun tx' h => hlt.trans_le ((pairwise_cons.mp hsorted').1 tx' h)⟩

theorem ValidChain.of_all_zero
    (h : ∀ tx ∈ txs, tx.getSeqNum = 0 ∧ isTxValid crypto lcl lower upper 0 tx = .ok true) :
    ValidChain crypto lcl lower upper 0 txs := by
  induction txs with
  | nil => trivial
  | cons tx txs ih =>
    obtain ⟨⟨hzero, hvalid⟩, hrest⟩ := forall_mem_cons.mp h
    exact ⟨hvalid, hzero.symm ▸ ih hrest⟩

/-- What is left of a chain is a chain when it is put in order again. -/
theorem ValidChain.of_perm {p l : List TransactionFrameBase}
    (h : ValidChain crypto lcl lower upper 0 txs) (hsorted : BySeqNum txs)
    (hA : ∀ tx ∈ txs, tx.getSourceID = A) (hp : p <+: txs) (hperm : l.Perm p)
    (hl : BySeqNum l) : ValidChain crypto lcl lower upper 0 l := by
  have hchain := h.of_prefix hp
  have hpsorted : BySeqNum p := hsorted.sublist hp.sublist
  have hpA : ∀ tx ∈ p, tx.getSourceID = A := fun tx htx => hA tx (hp.subset htx)
  cases p with
  | nil =>
    rw [hperm.eq_nil]
    trivial
  | cons tx p =>
    obtain ⟨acc, hacc, hnext⟩ := (acceptable_of_isTxValid hchain.1).next
    rw [hpA tx mem_cons_self] at hacc
    by_cases hseq : acc.data.seqNum = -1
    · have hzero := hchain.all_zero hacc hseq hpA
      exact .of_all_zero fun t ht => hzero t (hperm.subset ht)
    · have hlow : ∀ t ∈ tx :: p, acc.data.seqNum + 1 ≤ t.getSeqNum := forall_mem_cons.mpr
        ⟨hnext.ge, fun t ht => hnext.ge.trans ((pairwise_cons.mp hpsorted).1 t ht)⟩
      have hincr := hchain.increasing hacc hseq hpA hpsorted hlow
      have hkeys : ((tx :: p).map TransactionFrameBase.getSeqNum).Nodup :=
        pairwise_map.mpr (hincr.imp fun h => h.ne)
      rwa [eq_of_sorted (fun _ _ => Iff.rfl) hperm ((hperm.map _).nodup_iff.mpr hkeys) hl hpsorted]

/-! ## The first loop -/

/-- Trimming one queue keeps a chain. -/
theorem checkQueue_trim : Yields (checkQueue crypto lcl false lower upper lastSeq txs fees)
    (fun r => ∃ kept trimmed, r = some (kept, trimmed, kept.foldl FeeMap.add fees) ∧
      ValidChain crypto lcl lower upper lastSeq kept ∧ kept.Sublist txs ∧ (kept ++ trimmed).Perm txs)
    (fun _ => ¬ WellReserved lcl.state) := by
  induction txs generalizing lastSeq fees with
  | nil => exact ⟨[], [], rfl, trivial, .slnil, .nil⟩
  | cons tx txs ih =>
    unfold checkQueue
    cases hvalid : isTxValid crypto lcl lower upper lastSeq tx with
    | error e => exact isTxValid_spec.of_error hvalid
    | ok valid =>
      cases valid with
      | true =>
        simp only [yields_bind, yields_ok, if_true]
        refine ih.imp ?_
        rintro r ⟨kept, trimmed, rfl, hchain, hsub, hperm⟩
        exact ⟨tx :: kept, trimmed, rfl, ⟨hvalid, hchain⟩, hsub.cons_cons tx, hperm.cons tx⟩
      | false =>
        simp only [yields_bind, yields_ok, Bool.false_eq_true, if_false]
        refine ih.imp ?_
        rintro r ⟨kept, trimmed, rfl, hchain, hsub, hperm⟩
        exact ⟨kept, tx :: trimmed, rfl, hchain, hsub.cons tx,
          perm_middle.trans (hperm.cons tx)⟩

variable {justCheck : Bool}

theorem checkQueue_of_chain (h : ValidChain crypto lcl lower upper lastSeq txs) :
    checkQueue crypto lcl justCheck lower upper lastSeq txs fees =
      .ok (some (txs, [], txs.foldl FeeMap.add fees)) := by
  induction txs generalizing lastSeq fees with
  | nil => rfl
  | cons tx txs ih =>
    unfold checkQueue
    rw [h.1]
    simp [bind, Except.bind, ih h.2, pure, Except.pure]

/-- A queue that passes is a chain. -/
theorem checkQueue_check : Yields (checkQueue crypto lcl true lower upper lastSeq txs fees)
    (fun r => r.isSome → ValidChain crypto lcl lower upper lastSeq txs) (fun _ => True) := by
  induction txs generalizing lastSeq fees with
  | nil => exact fun _ => trivial
  | cons tx txs ih =>
    unfold checkQueue
    cases hvalid : isTxValid crypto lcl lower upper lastSeq tx with
    | error e => trivial
    | ok valid =>
      cases valid with
      | true =>
        simp only [yields_bind, yields_ok, if_true]
        refine ih.imp ?_
        rintro (_ | r) h
        · simp
        · exact fun _ => ⟨hvalid, h rfl⟩
      | false => simp

/-- What is kept and what is trimmed, put together queue by queue. -/
theorem perm_regroup (kept kepts trimmed trimmeds : List TransactionFrameBase) :
    (kept ++ kepts ++ (trimmed ++ trimmeds)).Perm (kept ++ trimmed ++ (kepts ++ trimmeds)) := by
  rw [append_assoc, append_assoc, ← append_assoc kepts, ← append_assoc trimmed]
  exact (perm_append_comm.append_right trimmeds).append_left kept

/-- Trimming all queues keeps a chain of each. -/
theorem checkQueues_trim : Yields (checkQueues crypto lcl false lower upper queues fees)
    (fun r => ∃ kepts trimmed, r = some (kepts, trimmed, kepts.flatten.foldl FeeMap.add fees) ∧
      List.Forall₂ (fun queue kept => ValidChain crypto lcl lower upper 0 kept ∧
        kept.Sublist queue) queues kepts ∧
      (kepts.flatten ++ trimmed).Perm queues.flatten)
    (fun _ => ¬ WellReserved lcl.state) := by
  induction queues generalizing fees with
  | nil => exact ⟨[], [], rfl, .nil, .nil⟩
  | cons queue queues ih =>
    unfold checkQueues
    rw [yields_bind]
    refine checkQueue_trim.imp ?_
    rintro r ⟨kept, trimmed, rfl, hchain, hsub, hperm⟩
    simp only [yields_bind]
    refine ih.imp ?_
    rintro r ⟨kepts, trimmeds, rfl, hall, hperms⟩
    refine ⟨kept :: kepts, trimmed ++ trimmeds, ?_, .cons ⟨hchain, hsub⟩ hall, ?_⟩
    · rw [flatten_cons, foldl_append]
    · simp only [flatten_cons]
      exact (perm_regroup _ _ _ _).trans (hperm.append hperms)

theorem checkQueues_of_chains (h : ∀ queue ∈ queues, ValidChain crypto lcl lower upper 0 queue) :
    checkQueues crypto lcl justCheck lower upper queues fees =
      .ok (some (queues, [], queues.flatten.foldl FeeMap.add fees)) := by
  induction queues generalizing fees with
  | nil => rfl
  | cons queue queues ih =>
    rw [forall_mem_cons] at h
    unfold checkQueues
    rw [checkQueue_of_chain h.1]
    simp [bind, Except.bind, ih h.2, pure, Except.pure]

theorem checkQueues_check : Yields (checkQueues crypto lcl true lower upper queues fees)
    (fun r => r.isSome → ∀ queue ∈ queues, ValidChain crypto lcl lower upper 0 queue)
    (fun _ => True) := by
  induction queues generalizing fees with
  | nil => simp [checkQueues]
  | cons queue queues ih =>
    unfold checkQueues
    rw [yields_bind]
    refine checkQueue_check.imp ?_
    rintro (_ | ⟨kept, trimmed, fees'⟩) hqueue
    · simp
    · simp only [yields_bind, forall_mem_cons]
      refine ih.imp ?_
      rintro (_ | r) hrest
      · simp
      · exact fun _ => ⟨hqueue rfl, hrest rfl⟩

/-! ## The second loop -/

/-- The payer of a transaction has as much as `fees` says. -/
def Pays (lcl : LastClosedLedger) (fees : FeeMap) (tx : TransactionFrameBase) : Prop :=
  ∃ available, ask lcl.state (availableBalance tx.getFeeSourceID) = .ok available ∧
    fees tx.getFeeSourceID ≤ available

theorem availableBalance_returns (hwell : WellReserved lcl.state)
    (hexists : (lcl.state.account A).isSome) :
    ∃ available, ask lcl.state (availableBalance A) = .ok available := by
  obtain ⟨acc, hacc⟩ := Option.isSome_iff_exists.mp hexists
  have hafter : After (availableBalance A) { lcl.state with } (fun _ _ => True)
      (fun _ _ => ¬ WellReserved lcl.state) := by
    unfold availableBalance
    rw [after_block, after_bind]
    refine after_loadAccount rfl (fun hnone => ?_) fun acc' hacc' => ?_
    · cases hacc.symm.trans hnone
    · have hmem : accountKey A ∈ (LedgerTxn.withActive { lcl.state with } [accountKey A]).mActive :=
        mem_cons_self
      exact (getAvailableBalance_after hmem hacc').mono (fun _ _ _ => trivial)
        fun _ _ h hwell => h (hwell.available hacc')
  unfold ask
  cases hrun : availableBalance A { lcl.state with } with
  | ok available t => exact ⟨available, rfl⟩
  | error e t => exact absurd hwell (hafter.of_error hrun)

theorem payQueue_trim
    (hexists : ∀ tx ∈ queue, (lcl.state.account tx.getFeeSourceID).isSome) :
    Yields (payQueue lcl false fees queue)
      (fun r => ∃ kept trimmed, r = some (kept, trimmed) ∧ queue = kept ++ trimmed ∧
        ∀ tx ∈ kept, Pays lcl fees tx)
      (fun _ => ¬ WellReserved lcl.state) := by
  induction queue with
  | nil => exact ⟨[], [], rfl, rfl, by simp⟩
  | cons tx txs ih =>
    rw [forall_mem_cons] at hexists
    unfold payQueue
    cases havailable : ask lcl.state (availableBalance tx.getFeeSourceID) with
    | error e =>
      intro hwell
      obtain ⟨available, h⟩ := availableBalance_returns hwell hexists.1
      cases havailable.symm.trans h
    | ok available =>
      simp only [yields_bind, yields_ok, yields_ite, yields_pure, Bool.false_eq_true, if_false]
      refine ⟨fun _ => ⟨[], tx :: txs, rfl, rfl, by simp⟩, fun hpays => ?_⟩
      refine (ih hexists.2).imp ?_
      rintro r ⟨kept, trimmed, rfl, rfl, hkept⟩
      exact ⟨tx :: kept, trimmed, rfl, rfl,
        forall_mem_cons.mpr ⟨⟨available, havailable, not_lt.mp hpays⟩, hkept⟩⟩

theorem payQueues_trim
    (hexists : ∀ queue ∈ queues, ∀ tx ∈ queue, (lcl.state.account tx.getFeeSourceID).isSome) :
    Yields (payQueues lcl false fees queues)
      (fun r => ∃ kepts trimmed, r = some trimmed ∧
        List.Forall₂ (fun queue kept => kept <+: queue) queues kepts ∧
        (kepts.flatten ++ trimmed).Perm queues.flatten ∧ ∀ tx ∈ kepts.flatten, Pays lcl fees tx)
      (fun _ => ¬ WellReserved lcl.state) := by
  induction queues with
  | nil => exact ⟨[], [], rfl, .nil, .nil, by simp⟩
  | cons queue queues ih =>
    rw [forall_mem_cons] at hexists
    unfold payQueues
    rw [yields_bind]
    refine (payQueue_trim hexists.1).imp ?_
    rintro r ⟨kept, trimmed, rfl, rfl, hpays⟩
    simp only [yields_bind]
    refine (ih hexists.2).imp ?_
    rintro r ⟨kepts, trimmeds, rfl, hall, hperm, hpayss⟩
    refine ⟨kept :: kepts, trimmed ++ trimmeds, rfl, .cons ⟨trimmed, rfl⟩ hall, ?_, ?_⟩
    · exact (perm_regroup _ _ _ _).trans (hperm.append_left _)
    · exact forall_mem_append.mpr ⟨hpays, hpayss⟩

theorem payQueue_of_pays (h : ∀ tx ∈ queue, Pays lcl fees tx) :
    payQueue lcl justCheck fees queue = .ok (some (queue, [])) := by
  induction queue with
  | nil => rfl
  | cons tx txs ih =>
    obtain ⟨⟨available, havailable, hle⟩, hrest⟩ := forall_mem_cons.mp h
    unfold payQueue
    rw [havailable]
    simp [bind, Except.bind, pure, Except.pure, not_lt.mpr hle, ih hrest]

theorem payQueues_of_pays (h : ∀ queue ∈ queues, ∀ tx ∈ queue, Pays lcl fees tx) :
    payQueues lcl justCheck fees queues = .ok (some []) := by
  induction queues with
  | nil => rfl
  | cons queue queues ih =>
    rw [forall_mem_cons] at h
    unfold payQueues
    rw [payQueue_of_pays h.1]
    simp [bind, Except.bind, pure, Except.pure, ih h.2]

/-! ## Fees -/

/-- What the transactions bid for which the account pays. -/
def feeTotal (txs : List TransactionFrameBase) (payer : AccountID) : ℤ :=
  ((txs.filter fun tx => tx.getFeeSourceID = payer).map TransactionFrameBase.getFeeBid).sum

theorem feeTotal_cons {payer : AccountID} : feeTotal (tx :: txs) payer =
    (if tx.getFeeSourceID = payer then tx.getFeeBid else 0) + feeTotal txs payer := by
  unfold feeTotal
  by_cases h : tx.getFeeSourceID = payer <;> simp [h]

variable {txs' : List TransactionFrameBase}

theorem feeTotal_perm (h : txs.Perm txs') (payer : AccountID) :
    feeTotal txs payer = feeTotal txs' payer :=
  ((h.filter _).map _).sum_eq

/-- No transaction bids a negative fee. -/
abbrev BidsNonneg (txs : List TransactionFrameBase) : Prop := ∀ tx ∈ txs, 0 ≤ tx.getFeeBid

theorem feeTotal_nonneg (h : BidsNonneg txs) (payer : AccountID) : 0 ≤ feeTotal txs payer := by
  refine sum_nonneg fun x hx => ?_
  obtain ⟨tx, htx, rfl⟩ := mem_map.mp hx
  exact h tx (mem_of_mem_filter htx)

theorem feeTotal_le_of_subperm (h : txs'.Subperm txs) (hnonneg : BidsNonneg txs) (payer : AccountID) :
    feeTotal txs' payer ≤ feeTotal txs payer := by
  obtain ⟨l, hperm, hsub⟩ := h
  rw [← feeTotal_perm hperm]
  refine ((hsub.filter _).map _).sum_le_sum fun x hx => ?_
  obtain ⟨tx, htx, rfl⟩ := mem_map.mp hx
  exact hnonneg tx (mem_of_mem_filter htx)

/-- Adding bids stops at the largest number. -/
theorem foldl_add {payer : AccountID} (h : BidsNonneg txs) (hfees : fees payer ≤ int64Max) :
    txs.foldl FeeMap.add fees payer = min int64Max (fees payer + feeTotal txs payer) := by
  induction txs generalizing fees with
  | nil => simp [feeTotal, hfees]
  | cons tx txs ih =>
    obtain ⟨hbid, hrest⟩ := forall_mem_cons.mp h
    have htotal := feeTotal_nonneg hrest payer
    have hadd : FeeMap.add fees tx payer = min int64Max
        (fees payer + if tx.getFeeSourceID = payer then tx.getFeeBid else 0) := by
      unfold FeeMap.add
      by_cases hpayer : tx.getFeeSourceID = payer
      · subst hpayer
        rw [Function.update_self, if_pos rfl]
        split_ifs <;> omega
      · rw [Function.update_of_ne (Ne.symm hpayer), if_neg hpayer]
        omega
    rw [foldl_cons, ih hrest (by rw [hadd]; exact min_le_left _ _), hadd, feeTotal_cons]
    omega

/-! ## Sets -/

/-- A set that passes both loops. -/
structure Good (crypto : Crypto) (lcl : LastClosedLedger) (lower upper : ℕ)
    (txs : List TransactionFrameBase) : Prop where
  chains : ∀ A, ValidChain crypto lcl lower upper 0 (queueOf txs A)
  pays : ∀ tx ∈ txs, Pays lcl (fun payer => min int64Max (feeTotal txs payer)) tx

theorem bySeqNum_queueOf (txs : List TransactionFrameBase) (A : AccountID) :
    BySeqNum (queueOf txs A) :=
  pairwise_insertionSort_key (fun _ _ => Iff.rfl) _

theorem queueOf_perm (txs : List TransactionFrameBase) (A : AccountID) :
    (queueOf txs A).Perm (txs.filter (sentBy A)) :=
  perm_insertionSort _ _

theorem source_of_mem_queueOf (h : tx ∈ queueOf txs A) : tx.getSourceID = A := by
  have hmem := (queueOf_perm txs A).subset h
  simpa using (mem_filter.mp hmem).2

theorem mem_of_mem_queueOf (h : tx ∈ queueOf txs A) : tx ∈ txs :=
  mem_of_mem_filter ((queueOf_perm txs A).subset h)

theorem mem_queueOf (h : tx ∈ txs) : tx ∈ queueOf txs tx.getSourceID :=
  (queueOf_perm txs _).symm.subset (mem_filter.mpr ⟨h, by simp⟩)

theorem ValidChain.acceptable
    (h : ValidChain crypto lcl lower upper lastSeq queue) (htx : tx ∈ queue) :
    ∃ lastSeq, Acceptable lcl.state lastSeq tx := by
  induction htx generalizing lastSeq with
  | head => exact ⟨lastSeq, acceptable_of_isTxValid h.1⟩
  | tail _ _ ih => exact ih h.2

theorem Good.acceptable (h : Good crypto lcl lower upper txs) (htx : tx ∈ txs) :
    ∃ lastSeq, Acceptable lcl.state lastSeq tx :=
  (h.chains _).acceptable (mem_queueOf htx)

theorem Good.bidsNonneg (h : Good crypto lcl lower upper txs) : BidsNonneg txs := by
  intro tx htx
  obtain ⟨lastSeq, hacc⟩ := h.acceptable htx
  exact hacc.feeBid_nonneg

theorem nodup_sourcesOf (txs : List TransactionFrameBase) : (sourcesOf platform txs).Nodup :=
  (platform.mapOrder_perm _).nodup_iff.mpr (nodup_dedup _)

theorem mem_sourcesOf : A ∈ sourcesOf platform txs ↔ ∃ tx ∈ txs, tx.getSourceID = A := by
  unfold sourcesOf
  rw [(platform.mapOrder_perm _).mem_iff, mem_dedup, mem_map]

/-! ## Sets and their queues -/

theorem count_filter_source (txs : List TransactionFrameBase) (tx : TransactionFrameBase) :
    (txs.filter (sentBy tx.getSourceID)).count tx = txs.count tx :=
  count_filter (by simp)

/-- A set is known by the transactions of each account. -/
theorem perm_of_filter_perm (h : ∀ A, (txs.filter (sentBy A)).Perm (txs'.filter (sentBy A))) :
    txs.Perm txs' := by
  rw [perm_iff_count]
  intro tx
  rw [← count_filter_source txs, ← count_filter_source txs']
  exact (h tx.getSourceID).count_eq tx

theorem subperm_of_filter_subperm (h : ∀ A, (txs.filter (sentBy A)).Subperm
      (txs'.filter (sentBy A))) : txs.Subperm txs' := by
  rw [subperm_ext_iff]
  intro tx _
  rw [← count_filter_source txs, ← count_filter_source txs']
  exact (h tx.getSourceID).count_le tx

variable {As : List AccountID}

/-- Queues of different accounts, put together, fall apart again. -/
theorem filter_flatten {R : AccountID → AccountTransactionQueue → Prop}
    (h : List.Forall₂ R As queues) (hnodup : As.Nodup)
    (hR : ∀ A queue, R A queue → ∀ tx ∈ queue, tx.getSourceID = A) (A : AccountID) :
    (A ∈ As → R A (queues.flatten.filter (sentBy A))) ∧
    (A ∉ As → queues.flatten.filter (sentBy A) = []) := by
  induction h with
  | nil => exact ⟨by simp, fun _ => rfl⟩
  | @cons B queue As queues hB _ ih =>
    obtain ⟨hnot, hnodup'⟩ := nodup_cons.mp hnodup
    obtain ⟨ihmem, ihnot⟩ := ih hnodup'
    have hqueue := hR B queue hB
    rw [flatten_cons, filter_append]
    by_cases hA : A = B
    · subst hA
      have hall : queue.filter (sentBy A) = queue :=
        filter_eq_self.mpr fun tx htx => by simpa using hqueue tx htx
      refine ⟨fun _ => ?_, fun h => absurd mem_cons_self h⟩
      rwa [hall, ihnot hnot, append_nil]
    · have hnone : queue.filter (sentBy A) = [] :=
        filter_eq_nil_iff.mpr fun tx htx => by simpa [hqueue tx htx] using Ne.symm hA
      rw [hnone, nil_append]
      refine ⟨fun hmem => ihmem ((mem_cons.mp hmem).resolve_left hA), fun hmem => ihnot ?_⟩
      exact fun h => hmem (mem_cons_of_mem _ h)

theorem queueOf_of_not_mem (h : A ∉ sourcesOf platform txs) :
    txs.filter (sentBy A) = [] := by
  refine filter_eq_nil_iff.mpr fun tx htx hA => h ?_
  exact mem_sourcesOf.mpr ⟨tx, htx, by simpa using hA⟩

theorem forall₂_queues (platform : Platform) (txs : List TransactionFrameBase) :
    List.Forall₂ (fun A queue => queue = queueOf txs A) (sourcesOf platform txs)
      (buildAccountTxQueues platform txs) := by
  unfold buildAccountTxQueues
  rw [forall₂_map_right_iff]
  exact forall₂_same.mpr fun _ _ => rfl

theorem flatten_queues_perm (platform : Platform) (txs : List TransactionFrameBase) :
    (buildAccountTxQueues platform txs).flatten.Perm txs := by
  refine perm_of_filter_perm fun A => ?_
  obtain ⟨hmem, hnot⟩ := filter_flatten (forall₂_queues platform txs)
    (nodup_sourcesOf txs) (fun B queue hq tx htx => source_of_mem_queueOf (hq ▸ htx)) A
  by_cases hA : A ∈ sourcesOf platform txs
  · rw [hmem hA]
    exact queueOf_perm txs A
  · rw [hnot hA, queueOf_of_not_mem hA]

theorem Good.checkOrTrim (h : Good crypto lcl lower upper txs) :
    checkOrTrim platform crypto lcl true lower upper txs = .ok (some []) := by
  have hqueues : ∀ queue ∈ buildAccountTxQueues platform txs,
      ValidChain crypto lcl lower upper 0 queue := by
    intro queue hq
    obtain ⟨A, -, rfl⟩ := mem_map.mp hq
    exact h.chains A
  have hperm := flatten_queues_perm platform txs
  have hbids : BidsNonneg (buildAccountTxQueues platform txs).flatten :=
    fun tx htx => h.bidsNonneg tx (hperm.subset htx)
  have hfees : ∀ payer, (buildAccountTxQueues platform txs).flatten.foldl FeeMap.add
      (fun _ => 0) payer = min int64Max (feeTotal txs payer) := by
    intro payer
    rw [foldl_add hbids (by decide), zero_add, feeTotal_perm hperm]
  unfold Herder.checkOrTrim
  rw [checkQueues_of_chains hqueues]
  simp only [bind, Except.bind]
  rw [payQueues_of_pays]
  · rfl
  · intro queue hq tx htx
    obtain ⟨A, -, rfl⟩ := mem_map.mp hq
    obtain ⟨available, havailable, hle⟩ := h.pays tx (mem_of_mem_queueOf htx)
    exact ⟨available, havailable, (hfees _).trans_le hle⟩

/-- Initial parts of chains make a good set, if every payer can pay for more. -/
theorem good_of_chains {T : FeeMap}
    (h : ∀ A, ∃ chain p, ValidChain crypto lcl lower upper 0 chain ∧ BySeqNum chain ∧
      (∀ tx ∈ chain, tx.getSourceID = A) ∧ p <+: chain ∧
      (txs.filter (sentBy A)).Perm p)
    (hT : ∀ payer, feeTotal txs payer ≤ T payer)
    (hpays : ∀ tx ∈ txs, Pays lcl (fun payer => min int64Max (T payer)) tx) :
    Good crypto lcl lower upper txs := by
  refine ⟨fun A => ?_, fun tx htx => ?_⟩
  · obtain ⟨chain, p, hchain, hsorted, hA, hp, hperm⟩ := h A
    exact hchain.of_perm hsorted hA hp ((queueOf_perm txs A).trans hperm) (bySeqNum_queueOf txs A)
  · obtain ⟨available, havailable, hle⟩ := hpays tx htx
    exact ⟨available, havailable, (min_le_min_left _ (hT _)).trans hle⟩

/-! ## Trimming -/

theorem forall₂_comp {α β γ : Type} {R : α → β → Prop} {S : β → γ → Prop} {as : List α}
    {bs : List β} {cs : List γ} (h : List.Forall₂ R as bs) (h' : List.Forall₂ S bs cs) :
    List.Forall₂ (fun a c => ∃ b, R a b ∧ S b c) as cs := by
  induction h generalizing cs with
  | nil =>
    cases h'
    exact .nil
  | cons hR _ ih =>
    cases h' with
    | cons hS hrest => exact .cons ⟨_, hR, hS⟩ (ih hrest)

/-- What `checkOrTrim` leaves is a good set. -/
theorem checkOrTrim_trim (txs : List TransactionFrameBase) :
    Yields (checkOrTrim platform crypto lcl false lower upper txs)
      (fun r => ∃ trimmed, r = some trimmed ∧
        (∃ kept, (kept ++ trimmed).Perm txs) ∧
        ∀ txs', (txs' ++ trimmed).Perm txs → Good crypto lcl lower upper txs')
      (fun _ => ¬ WellReserved lcl.state) := by
  have hqueues := forall₂_queues platform txs
  unfold checkOrTrim
  rw [yields_bind]
  refine checkQueues_trim.imp ?_
  rintro r ⟨kepts, trimmed, rfl, hkepts, hperm⟩
  -- The transactions that were kept so far are acceptable.
  have hchains : ∀ kept ∈ kepts, ValidChain crypto lcl lower upper 0 kept := by
    intro kept hmem
    obtain ⟨i, hi, rfl⟩ := mem_iff_getElem.mp hmem
    obtain ⟨hlen, hget⟩ := forall₂_iff_get.mp hkepts
    exact (hget i (hlen ▸ hi) hi).1
  have hacceptable : ∀ tx ∈ kepts.flatten, ∃ lastSeq, Acceptable lcl.state lastSeq tx := by
    intro tx htx
    obtain ⟨kept, hkept, hmem⟩ := mem_flatten.mp htx
    exact (hchains kept hkept).acceptable hmem
  have hbids : BidsNonneg kepts.flatten := by
    intro tx htx
    obtain ⟨lastSeq, hacc⟩ := hacceptable tx htx
    exact hacc.feeBid_nonneg
  simp only [yields_bind]
  refine (payQueues_trim fun kept hkept tx htx => ?_).imp ?_
  · obtain ⟨lastSeq, hacc⟩ := (hchains kept hkept).acceptable htx
    exact hacc.feeSource
  rintro r ⟨finals, unpaid, rfl, hfinals, hperm', hpays⟩
  have hsplit : (finals.flatten ++ (trimmed ++ unpaid)).Perm txs := by
    have hcomm : (finals.flatten ++ (trimmed ++ unpaid)).Perm
        (finals.flatten ++ unpaid ++ trimmed) := by
      rw [append_assoc]
      exact perm_append_comm.append_left _
    exact hcomm.trans ((hperm'.append_right trimmed).trans
      (hperm.trans (flatten_queues_perm platform txs)))
  refine ⟨trimmed ++ unpaid, rfl, ⟨_, hsplit⟩, fun txs' htxs' => ?_⟩
  have hsame : txs'.Perm finals.flatten :=
    (perm_append_right_iff _).mp (htxs'.trans hsplit.symm)
  -- Of each queue a chain was kept, and of that an initial part.
  have haligned := forall₂_comp (forall₂_comp hqueues hkepts) hfinals
  refine good_of_chains (T := feeTotal kepts.flatten) (fun A => ?_) (fun payer => ?_)
    fun tx htx => ?_
  · obtain ⟨hmem, hnot⟩ := filter_flatten haligned (nodup_sourcesOf txs) (fun B final hB tx htx => by
      obtain ⟨kept, ⟨queue, rfl, -, hsub⟩, hpre⟩ := hB
      exact source_of_mem_queueOf (hsub.subset (hpre.subset htx))) A
    have hfilter := hsame.filter (sentBy A)
    by_cases hA : A ∈ sourcesOf platform txs
    · obtain ⟨kept, ⟨queue, rfl, hchain, hsub⟩, hpre⟩ := hmem hA
      exact ⟨kept, _, hchain, (bySeqNum_queueOf txs A).sublist hsub,
        fun tx htx => source_of_mem_queueOf (hsub.subset htx), hpre, hfilter⟩
    · rw [hnot hA] at hfilter
      exact ⟨[], [], trivial, .nil, by simp, prefix_rfl, hfilter⟩
  · have hsub : finals.flatten.Subperm kepts.flatten :=
      (sublist_append_left _ _).subperm.trans hperm'.subperm
    rw [feeTotal_perm hsame]
    exact feeTotal_le_of_subperm hsub hbids payer
  · obtain ⟨available, havailable, hle⟩ := hpays tx (hsame.subset htx)
    rw [foldl_add hbids (by decide), zero_add] at hle
    exact ⟨available, havailable, hle⟩

namespace TxSetFrame

variable {set : TxSetFrame}

theorem foldl_removeTx (trimmed : List TransactionFrameBase) (set : TxSetFrame) :
    (trimmed.foldl removeTx set).mTransactions = set.mTransactions.diff trimmed ∧
    (trimmed.foldl removeTx set).mPreviousLedgerHash = set.mPreviousLedgerHash ∧
    (set.mValid = none → (trimmed.foldl removeTx set).mValid = none) := by
  induction trimmed generalizing set with
  | nil => exact ⟨rfl, rfl, id⟩
  | cons tx trimmed ih =>
    obtain ⟨htxs, hhash, hvalid⟩ := ih (set.removeTx tx)
    rw [foldl_cons, diff_cons]
    exact ⟨htxs, hhash, fun _ => hvalid rfl⟩

/-- A set that may be proposed, but for its size. -/
structure Proposable (crypto : Crypto) (lcl : LastClosedLedger) (lower upper : ℕ)
    (set : TxSetFrame) : Prop where
  hash : set.mPreviousLedgerHash = lcl.hash
  good : Good crypto lcl lower upper set.mTransactions
  sorted : ByHash set.mTransactions
  fresh : set.mValid = none

theorem trimInvalid_proposable (hhash : set.mPreviousLedgerHash = lcl.hash) :
    Yields (set.trimInvalid platform crypto lcl lower upper)
      (fun r => r.2.Proposable crypto lcl lower upper) (fun _ => ¬ WellReserved lcl.state) := by
  unfold trimInvalid
  simp only [yields_bind]
  refine (checkOrTrim_trim _).imp ?_
  rintro r ⟨trimmed, rfl, ⟨kept, hkept⟩, hgood⟩
  obtain ⟨htxs, hprev, hvalid⟩ := foldl_removeTx trimmed set.sortForHash
  refine ⟨hprev.trans hhash, hgood _ ?_, ?_, hvalid rfl⟩
  · rw [htxs]
    have hdiff : (set.sortForHash.mTransactions.diff trimmed).Perm kept := by
      refine (hkept.symm.diff_right trimmed).trans ?_
      rw [← Multiset.coe_eq_coe, ← Multiset.coe_sub, ← Multiset.coe_add]
      exact add_tsub_cancel_right _ _
    exact (hdiff.append_right trimmed).trans hkept
  · rw [htxs]
    exact (byHash_sortForHash set).sublist (diff_sublist _ _)

theorem Proposable.checkValid {set : TxSetFrame} (h : set.Proposable crypto lcl lower upper)
    (hsize : set.size lcl.state.header ≤ lcl.state.header.maxTxSetSize) :
    set.checkValid platform crypto lcl lower upper =
      .ok (true, { set with mValid := some (lcl.hash, true) }) := by
  have hchain : set.mTransactions.IsChain fun tx1 tx2 => tx1.getFullHash ≤ tx2.getFullHash :=
    h.sorted.isChain
  have hvalid : set.isValid platform crypto lcl lower upper = .ok true := by
    unfold isValid
    simp [h.hash, not_lt.mpr hsize, hchain, h.good.checkOrTrim, bind, Except.bind, pure, Except.pure]
  unfold TxSetFrame.checkValid
  rw [h.fresh, hvalid]
  rfl

end TxSetFrame

/-! ## Surge pricing -/

theorem surgeCompare_yields {seed : Scp.Hash} {queue1 queue2 : AccountTransactionQueue}
    (h1 : BidsNonneg queue1) (h2 : BidsNonneg queue2) :
    Yields (surgeCompare seed queue1 queue2) (fun _ => True) (fun _ => False) := by
  cases queue1 with
  | nil => trivial
  | cons top1 rest1 =>
    cases queue2 with
    | nil => trivial
    | cons top2 rest2 =>
      have hv1 : 0 ≤ top1.getFeeBid ∧ (0 : ℤ) ≤ top2.getNumOperations :=
        ⟨h1 top1 mem_cons_self, Int.natCast_nonneg _⟩
      have hv2 : 0 ≤ top2.getFeeBid ∧ (0 : ℤ) ≤ top1.getNumOperations :=
        ⟨h2 top2 mem_cons_self, Int.natCast_nonneg _⟩
      simp [surgeCompare, bigMultiply, Fallible.assert, hv1, hv2]

section SurgeRules

variable {seed : Scp.Hash} {P : AccountTransactionQueue → Prop}
  (le : AccountTransactionQueue → AccountTransactionQueue → Prop)

/-- The queue that is popped is at least as good as every other. -/
theorem popTop_yields (hrefl : ∀ q, le q q) (htrans : ∀ q q' q'', le q q' → le q' q'' → le q q'')
    (hcompare : ∀ q q', P q → P q' → Yields (surgeCompare seed q q')
      (fun less => if less then le q q' else le q' q) (fun _ => False))
    (queues : List AccountTransactionQueue) :
    ∀ queue, (∀ q ∈ queue :: queues, P q) →
      Yields (popTop seed queue queues)
        (fun r => (r.1 :: r.2).Perm (queue :: queues) ∧ ∀ q ∈ queue :: queues, le q r.1)
        (fun _ => False) := by
  induction queues with
  | nil => exact fun queue _ => ⟨.refl _, by simp [hrefl]⟩
  | cons queue2 queues ih =>
    intro queue h
    have hqueue := h queue mem_cons_self
    have hqueue2 := h queue2 (by simp)
    have hqueues : ∀ q ∈ queues, P q := fun q hq => h q (by simp [hq])
    unfold popTop
    rw [yields_bind]
    refine (hcompare _ _ hqueue hqueue2).imp fun less hless => ?_
    rw [yields_ite]
    refine ⟨fun htrue => ?_, fun hfalse => ?_⟩
    · rw [yields_bind]
      refine (ih queue2 (forall_mem_cons.mpr ⟨hqueue2, hqueues⟩)).imp fun r hr => ?_
      obtain ⟨hperm, hbest⟩ := hr
      rw [if_pos htrue] at hless
      refine ⟨(List.Perm.swap _ _ _).trans (hperm.cons queue), ?_⟩
      exact forall_mem_cons.mpr ⟨htrans _ _ _ hless (hbest queue2 mem_cons_self), hbest⟩
    · rw [yields_bind]
      refine (ih queue (forall_mem_cons.mpr ⟨hqueue, hqueues⟩)).imp fun r hr => ?_
      obtain ⟨hperm, hbest⟩ := hr
      rw [if_neg hfalse] at hless
      refine ⟨((List.Perm.swap _ _ _).trans (hperm.cons queue2)).trans (List.Perm.swap _ _ _), ?_⟩
      have hfirst := hbest queue mem_cons_self
      refine forall_mem_cons.mpr
        ⟨hfirst, forall_mem_cons.mpr ⟨htrans _ _ _ hless hfirst, ?_⟩⟩
      exact fun q hq => hbest q (mem_cons_of_mem _ hq)

/-- What a transaction counts against the limit. -/
def cost (maxIsOps : Bool) (tx : TransactionFrameBase) : ℕ :=
  if maxIsOps then tx.getNumOperations else maxOpsPerTx

/-- The rule of the loop: each round pops a queue, and takes its first transaction or drops it. -/
theorem surgeLoop_yields {maxIsOps : Bool} {Q : List TransactionFrameBase → Prop}
    {I : ℕ → List AccountTransactionQueue → List TransactionFrameBase → Prop}
    (hdone : ∀ {opsLeft queues taken}, I opsLeft queues taken → opsLeft = 0 ∨ queues = [] → Q taken)
    (hround : ∀ {opsLeft queue queues taken}, I (opsLeft + 1) (queue :: queues) taken →
      Yields (popTop seed queue queues) (fun r => (r.1 :: r.2).Perm (queue :: queues) ∧
        ∀ tx rest, r.1 = tx :: rest →
          (cost maxIsOps tx ≤ opsLeft + 1 → I (opsLeft + 1 - cost maxIsOps tx)
            (if rest = [] then r.2 else rest :: r.2) (taken ++ [tx])) ∧
          (opsLeft + 1 < cost maxIsOps tx → I (opsLeft + 1) r.2 taken)) (fun _ => False))
    (fuel : ℕ) : ∀ (opsLeft : ℕ) (queues : List AccountTransactionQueue)
      (taken : List TransactionFrameBase), I opsLeft queues taken → (∀ q ∈ queues, q ≠ []) →
      queues.flatten.length ≤ fuel →
      Yields (surgeLoop seed maxIsOps fuel opsLeft queues taken) Q (fun _ => False) := by
  induction fuel with
  | zero =>
    intro opsLeft queues taken h hne hfuel
    cases queues with
    | nil => cases opsLeft <;> exact hdone h (.inr rfl)
    | cons queue queues =>
      -- A queue is not empty, so there is fuel left.
      have hqueue := length_pos_iff.mpr (hne queue mem_cons_self)
      rw [flatten_cons, length_append] at hfuel
      omega
  | succ fuel ih =>
    intro opsLeft queues taken h hne hfuel
    cases opsLeft with
    | zero => exact hdone h (.inl rfl)
    | succ opsLeft =>
      cases queues with
      | nil => exact hdone h (.inr rfl)
      | cons queue queues =>
        unfold surgeLoop
        rw [yields_bind]
        refine (hround h).imp ?_
        rintro ⟨top, others⟩ ⟨hperm, hnext⟩
        have hne' : ∀ q ∈ others, q ≠ [] := fun q hq =>
          hne q (hperm.subset (mem_cons_of_mem _ hq))
        have hlen : top.length + others.flatten.length = (queue :: queues).flatten.length := by
          rw [← length_append, ← flatten_cons]
          exact hperm.flatten.length_eq
        cases top with
        | nil => exact absurd rfl (hne [] (hperm.subset mem_cons_self))
        | cons tx rest =>
          obtain ⟨htake, hskip⟩ := hnext tx rest rfl
          rw [length_cons] at hlen
          rw [yields_ite]
          refine ⟨fun hcost => ih _ _ _ (htake hcost) ?_ ?_,
            fun hcost => ih _ _ _ (hskip (not_le.mp hcost)) hne' (by omega)⟩
          · split_ifs with hnil
            · exact hne'
            · exact forall_mem_cons.mpr ⟨hnil, hne'⟩
          · split_ifs with hnil
            · omega
            · rw [flatten_cons, length_append]
              omega

end SurgeRules

/-- What is left of an account's queue when `taken` was taken from the set. -/
def leftOf (txs taken : List TransactionFrameBase) (A : AccountID) : AccountTransactionQueue :=
  (queueOf txs A).drop (taken.filter fun tx => tx.getSourceID = A).length

variable {taken : List TransactionFrameBase}

theorem leftOf_append_other (hne : tx.getSourceID ≠ A) :
    leftOf txs (taken ++ [tx]) A = leftOf txs taken A := by
  unfold leftOf
  rw [filter_append, filter_cons_of_neg (by simpa using hne), filter_nil,
    append_nil]

theorem leftOf_append_self {rest : List TransactionFrameBase} (hsource : tx.getSourceID = A)
    (hleft : leftOf txs taken A = tx :: rest) : leftOf txs (taken ++ [tx]) A = rest := by
  unfold leftOf at hleft ⊢
  rw [filter_append, filter_cons_of_pos (by simpa using hsource), filter_nil,
    length_append, length_singleton, ← tail_drop, hleft, tail_cons]

/-- The invariant of the loop: from each queue an initial part was taken, and the queues that are
still there are what is left of those of different accounts. -/
structure Surging (txs taken : List TransactionFrameBase) (queues : List AccountTransactionQueue)
    (As : List AccountID) : Prop where
  nodup : As.Nodup
  queues : queues.Perm (As.map (leftOf txs taken))
  initial : ∀ A, taken.filter (fun tx => tx.getSourceID = A) <+: queueOf txs A

theorem Surging.queueOf_eq (h : Surging txs taken queues As) (A : AccountID) :
    queueOf txs A = taken.filter (sentBy A) ++ leftOf txs taken A := by
  obtain ⟨rest, hrest⟩ := h.initial A
  unfold leftOf
  rw [← hrest, drop_left]

/-- The top queue is what is left of an account's; the others are those of other accounts. -/
theorem Surging.pop {top : AccountTransactionQueue} {others : List AccountTransactionQueue}
    (h : Surging txs taken queues As) (hperm : (top :: others).Perm queues) :
    ∃ A As', As.Perm (A :: As') ∧ top = leftOf txs taken A ∧ Surging txs taken others As' := by
  have hmem : top ∈ As.map (leftOf txs taken) :=
    (hperm.trans h.queues).subset mem_cons_self
  obtain ⟨A, hA, rfl⟩ := mem_map.mp hmem
  have hAs := perm_cons_erase hA
  refine ⟨A, As.erase A, hAs, rfl, h.nodup.erase A, ?_, h.initial⟩
  have hall := hperm.trans (h.queues.trans (hAs.map (leftOf txs taken)))
  exact hall.cons_inv

/-- Taking the first transaction of a queue. -/
theorem Surging.take {rest : List TransactionFrameBase} {others : List AccountTransactionQueue}
    (h : Surging txs taken others As) (hA : A ∉ As) (hleft : leftOf txs taken A = tx :: rest) :
    Surging txs (taken ++ [tx]) (if rest = [] then others else rest :: others)
      (if rest = [] then As else A :: As) := by
  have hqueue := h.queueOf_eq A
  rw [hleft] at hqueue
  have hmem : tx ∈ queueOf txs A := by
    rw [hqueue]
    simp
  have hsource : tx.getSourceID = A := source_of_mem_queueOf hmem
  have hrest : leftOf txs (taken ++ [tx]) A = rest := leftOf_append_self hsource hleft
  have hsame : ∀ B ∈ As, leftOf txs (taken ++ [tx]) B = leftOf txs taken B :=
    fun B hB => leftOf_append_other fun h => hA (hsource.symm.trans h ▸ hB)
  have hqueues : others.Perm (As.map (leftOf txs (taken ++ [tx]))) := by
    rw [map_congr_left hsame]
    exact h.queues
  have hinitial : ∀ B, (taken ++ [tx]).filter (sentBy B) <+: queueOf txs B := by
    intro B
    by_cases hB : B = A
    · subst hB
      exact ⟨rest, by simp [hqueue, hsource]⟩
    · simpa [hsource, Ne.symm hB] using h.initial B
  by_cases hnil : rest = []
  · rw [if_pos hnil, if_pos hnil]
    exact ⟨h.nodup, hqueues, hinitial⟩
  · rw [if_neg hnil, if_neg hnil]
    refine ⟨nodup_cons.mpr ⟨hA, h.nodup⟩, ?_, hinitial⟩
    rw [map_cons, hrest]
    exact hqueues.cons rest

theorem surgeLoop_takes {seed : Scp.Hash} {maxIsOps : Bool} (hbids : BidsNonneg txs) {fuel ops : ℕ}
    (h : Surging txs [] queues As) (hne : ∀ q ∈ queues, q ≠ [])
    (hfuel : queues.flatten.length ≤ fuel) :
    Yields (surgeLoop seed maxIsOps fuel ops queues [])
      (fun r => (∀ A, r.filter (sentBy A) <+: queueOf txs A) ∧
        (r.map (cost maxIsOps)).sum ≤ ops)
      (fun _ => False) := by
  refine surgeLoop_yields (I := fun opsLeft queues taken => (∃ As, Surging txs taken queues As) ∧
    (taken.map (cost maxIsOps)).sum + opsLeft = ops) ?_ ?_ fuel ops queues [] ⟨⟨As, h⟩, zero_add _⟩
    hne hfuel
  · rintro opsLeft queues taken ⟨⟨As, h⟩, hsum⟩ -
    exact ⟨h.initial, by omega⟩
  · rintro opsLeft queue queues taken ⟨⟨As, h⟩, hsum⟩
    have hq : ∀ q ∈ queue :: queues, BidsNonneg q := by
      intro q hq tx htx
      obtain ⟨A, -, rfl⟩ := mem_map.mp (h.queues.subset hq)
      exact hbids tx (mem_of_mem_queueOf (A := A) (by
        rw [h.queueOf_eq A]
        exact mem_append_right _ htx))
    refine (popTop_yields (fun _ _ => True) (fun _ => trivial) (fun _ _ _ _ _ => trivial)
      (fun q q' h h' => (surgeCompare_yields h h').mono (fun _ _ => by split <;> trivial)
        fun _ h => h) queues queue hq).imp ?_
    rintro ⟨top, others⟩ ⟨hperm, -⟩
    obtain ⟨A, As', hAs, htop, hothers⟩ := h.pop hperm
    have hA : A ∉ As' := (nodup_cons.mp (hAs.nodup_iff.mp h.nodup)).1
    refine ⟨hperm, fun tx rest hcons => ⟨fun hcost => ⟨⟨_, hothers.take hA ?_⟩, ?_⟩,
      fun _ => ⟨⟨_, hothers⟩, hsum⟩⟩⟩
    · exact htop.symm.trans hcons
    · rw [map_append, sum_append, map_singleton, sum_singleton]
      omega

theorem surging_start (txs : List TransactionFrameBase) :
    Surging txs [] (buildAccountTxQueues platform txs) (sourcesOf platform txs) :=
  ⟨nodup_sourcesOf txs, .refl _, fun _ => nil_prefix⟩

/-- A queue of a set has a transaction. -/
theorem queues_ne_nil {queue : AccountTransactionQueue}
    (h : queue ∈ buildAccountTxQueues platform txs) : queue ≠ [] := by
  obtain ⟨A, hA, rfl⟩ := mem_map.mp h
  obtain ⟨tx, htx, rfl⟩ := mem_sourcesOf.mp hA
  exact ne_nil_of_mem (mem_queueOf htx)

/-- Initial parts of the queues of a good set make a good set. -/
theorem Good.of_initial (h : Good crypto lcl lower upper txs)
    (hinitial : ∀ A, ∃ p, p <+: queueOf txs A ∧ (txs'.filter (sentBy A)).Perm p) :
    Good crypto lcl lower upper txs' := by
  have hsub : txs'.Subperm txs := subperm_of_filter_subperm fun A => by
    obtain ⟨p, hp, hperm⟩ := hinitial A
    exact hperm.subperm.trans (hp.sublist.subperm.trans (queueOf_perm txs A).subperm)
  refine good_of_chains (T := feeTotal txs) (fun A => ?_) (fun payer => ?_) fun tx htx => ?_
  · obtain ⟨p, hp, hperm⟩ := hinitial A
    exact ⟨queueOf txs A, p, h.chains A, bySeqNum_queueOf txs A,
      fun tx htx => source_of_mem_queueOf htx, hp, hperm⟩
  · exact feeTotal_le_of_subperm hsub h.bidsNonneg payer
  · exact h.pays tx (hsub.subset htx)

/-- What the size of a set counts is what surge pricing counts. -/
theorem sum_cost (txs : List TransactionFrameBase) (maxIsOps : Bool) :
    (txs.map (cost maxIsOps)).sum =
      if maxIsOps then (txs.map TransactionFrameBase.getNumOperations).sum
      else txs.length * maxOpsPerTx := by
  cases maxIsOps with
  | true => rfl
  | false =>
    have hconst : txs.map (cost false) = replicate txs.length maxOpsPerTx :=
      map_eq_replicate_iff.mpr fun _ _ => rfl
    rw [hconst, sum_replicate]
    rfl

namespace TxSetFrame

/-- A set whose cost is within the limit fits in. -/
theorem size_le {set : TxSetFrame} {lh : LedgerHeader}
    (h : (set.mTransactions.map (cost (11 ≤ lh.ledgerVersion))).sum ≤ getLastMaxTxSetSizeOps lh) :
    set.size lh ≤ lh.maxTxSetSize := by
  rw [sum_cost] at h
  unfold getLastMaxTxSetSizeOps at h
  unfold size
  by_cases hv : 11 ≤ lh.ledgerVersion
  · simpa [hv, sizeOp] using h
  · simp only [hv, decide_false, Bool.false_eq_true, if_false, maxOpsPerTx] at h
    rw [if_neg hv, sizeTx]
    omega

theorem surgePricingFilter_yields {set : TxSetFrame} {seed : Scp.Hash}
    (h : set.Proposable crypto lcl lower upper) :
    Yields (set.surgePricingFilter platform lcl seed)
      (fun set' => set'.Proposable crypto lcl lower upper ∧
        set'.size lcl.state.header ≤ lcl.state.header.maxTxSetSize)
      (fun _ => False) := by
  unfold surgePricingFilter
  simp only [yields_ite, yields_bind, yields_pure]
  refine ⟨fun _ => ?_, fun hfits => ⟨h, size_le ?_⟩⟩
  · refine (surgeLoop_takes h.good.bidsNonneg (surging_start _) (fun q hq =>
      queues_ne_nil hq) (flatten_queues_perm _ _).length_eq.le).imp ?_
    rintro r ⟨hinitial, hsum⟩
    have hperm := perm_insertionSort
      (fun tx1 tx2 : TransactionFrameBase => tx1.getFullHash ≤ tx2.getFullHash) r
    refine ⟨⟨h.hash, h.good.of_initial fun A => ⟨_, hinitial A, hperm.filter _⟩,
      byHash_sortForHash _, rfl⟩, size_le ?_⟩
    have hcost := (hperm.map (cost (11 ≤ lcl.state.header.ledgerVersion))).sum_eq
    exact hcost.trans_le hsum
  · rw [sum_cost]
    exact not_lt.mp hfits

end TxSetFrame

/-- A set over the last closed ledger that was trimmed and then filtered is valid; and trimming
returns if the reserve of every account can be computed. -/
theorem proposed_set_valid (platform : Platform) (crypto : Crypto) (lcl : LastClosedLedger)
    (lower upper : ℕ) (seed : Scp.Hash) (set : TxSetFrame)
    (hhash : set.mPreviousLedgerHash = lcl.hash) :
    (∀ trimmed trimmedSet, set.trimInvalid platform crypto lcl lower upper =
        .ok (trimmed, trimmedSet) →
      ∃ filtered checked, trimmedSet.surgePricingFilter platform lcl seed = .ok filtered ∧
        filtered.checkValid platform crypto lcl lower upper = .ok (true, checked)) ∧
    (WellReserved lcl.state → ∃ trimmed trimmedSet,
      set.trimInvalid platform crypto lcl lower upper = .ok (trimmed, trimmedSet)) := by
  have htrim : Yields (set.trimInvalid platform crypto lcl lower upper)
      (fun r => r.2.Proposable crypto lcl lower upper) (fun _ => ¬ WellReserved lcl.state) :=
    TxSetFrame.trimInvalid_proposable hhash
  constructor
  · intro trimmed trimmedSet hrun
    have hfilter : Yields (trimmedSet.surgePricingFilter platform lcl seed)
        (fun filtered => filtered.Proposable crypto lcl lower upper ∧
          filtered.size lcl.state.header ≤ lcl.state.header.maxTxSetSize) (fun _ => False) :=
      TxSetFrame.surgePricingFilter_yields (htrim.of_ok hrun)
    cases hsurge : trimmedSet.surgePricingFilter platform lcl seed with
    | error e => exact (hfilter.of_error hsurge).elim
    | ok filtered =>
      obtain ⟨hprop, hsize⟩ := hfilter.of_ok hsurge
      exact ⟨filtered, _, rfl, hprop.checkValid hsize⟩
  · intro hwell
    cases hrun : set.trimInvalid platform crypto lcl lower upper with
    | error e => exact absurd hwell (htrim.of_error hrun)
    | ok r => exact ⟨r.1, r.2, rfl⟩

open LateSet in
/-- Checked at the close time of the last ledger, a set keeps its transaction. -/
theorem early_set_proposed :
    ∃ filtered checked,
      lateSet.surgePricingFilter idPlatform ledger 0 = .ok filtered ∧
      filtered.checkValid idPlatform goodCrypto ledger 0 0 = .ok (true, checked) := by
  have hrun : lateSet.trimInvalid idPlatform goodCrypto ledger 0 0 = .ok ([], lateSet) := by
    decide +kernel
  exact (proposed_set_valid idPlatform goodCrypto ledger 0 0 0 lateSet rfl).1 _ _ hrun

end DigitalBits.Herder
