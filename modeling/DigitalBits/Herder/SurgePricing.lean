import DigitalBits.Herder.TxSetProposal
import DigitalBits.Transactions.ExchangeSpec

/-!
# What surge pricing keeps

The filter takes the transaction with the best rate among the first ones of all accounts, as long as
it fits in. An account whose first transaction does not fit in is dropped. What is kept is judged by
the moment at which it was chosen: who had a better rate then and was not taken did not fit in.
-/
namespace DigitalBits.Herder
open List

open Ledger Lib

variable {platform : Platform} {lcl : LastClosedLedger} {tx : TransactionFrameBase}
  {txs : List TransactionFrameBase} {A : AccountID} {seed : Scp.Hash}

/-! ## The best rate -/

/-- What a transaction bids for each operation. -/
def feeRate (tx : TransactionFrameBase) : ℚ := tx.getFeeBid / tx.getNumOperations

/-- A transaction that may be compared with others. -/
structure Priced (tx : TransactionFrameBase) : Prop where
  fee : 0 ≤ tx.getFeeBid
  operations : 0 < tx.getNumOperations

/-- The rate of the first transaction. -/
def topRate : AccountTransactionQueue → ℚ
  | [] => 0
  | tx :: _ => feeRate tx

theorem topRate_nonneg {queue : AccountTransactionQueue} (h : ∀ tx ∈ queue, Priced tx) :
    0 ≤ topRate queue := by
  cases queue with
  | nil => exact le_rfl
  | cons tx rest =>
    have hfee := (h tx mem_cons_self).fee
    exact div_nonneg (by exact_mod_cast hfee) (by positivity)

theorem feeRate_le_iff {tx1 tx2 : TransactionFrameBase} (h1 : Priced tx1) (h2 : Priced tx2) :
    feeRate tx1 ≤ feeRate tx2 ↔
      tx1.getFeeBid * tx2.getNumOperations ≤ tx2.getFeeBid * tx1.getNumOperations := by
  unfold feeRate
  rw [div_le_div_iff₀ (by exact_mod_cast h1.operations) (by exact_mod_cast h2.operations)]
  norm_cast

/-- The comparison never takes the worse rate for the better. -/
theorem surgeCompare_rate {queue1 queue2 : AccountTransactionQueue} (h1 : ∀ tx ∈ queue1, Priced tx)
    (h2 : ∀ tx ∈ queue2, Priced tx) :
    Yields (surgeCompare seed queue1 queue2)
      (fun less => if less then topRate queue1 ≤ topRate queue2 else topRate queue2 ≤ topRate queue1)
      (fun _ => False) := by
  cases queue1 with
  | nil =>
    cases queue2 with
    | nil => exact le_rfl
    | cons top2 rest2 => exact topRate_nonneg h2
  | cons top1 rest1 =>
    cases queue2 with
    | nil => exact topRate_nonneg h1
    | cons top2 rest2 =>
      have hp1 := h1 top1 mem_cons_self
      have hp2 := h2 top2 mem_cons_self
      have hle := feeRate_le_iff hp1 hp2
      have hge := feeRate_le_iff hp2 hp1
      simp only [surgeCompare, bigMultiply_eq hp1.fee (Int.natCast_nonneg _),
        bigMultiply_eq hp2.fee (Int.natCast_nonneg _), yields_bind, yields_ok, yields_ite,
        yields_pure, topRate, if_true, Bool.false_eq_true, if_false]
      refine ⟨fun hlt => hle.mpr hlt.le, fun hnlt => ⟨fun hlt => hge.mpr hlt.le, fun hngt => ?_⟩⟩
      -- the rates are the same
      split
      · exact hle.mpr (not_lt.mp hngt)
      · exact hge.mpr (not_lt.mp hnlt)

/-! ## The loop -/

/-- The operations of a list of transactions. -/
def opsOf (txs : List TransactionFrameBase) : ℕ :=
  (txs.map TransactionFrameBase.getNumOperations).sum

theorem opsOf_append (txs txs' : List TransactionFrameBase) :
    opsOf (txs ++ txs') = opsOf txs + opsOf txs' := by
  rw [opsOf, map_append, sum_append, opsOf, opsOf]

/-- The choices were fair: when `tx` was chosen, the next transaction of an account that had a
better rate did not fit in. -/
def FairChoice (txs : List TransactionFrameBase) (limit : ℕ) (chosen : List TransactionFrameBase) :
    Prop :=
  ∀ before tx after, chosen = before ++ tx :: after →
    ∀ A h rest, leftOf txs before A = h :: rest → feeRate tx < feeRate h →
      limit < opsOf before + h.getNumOperations

/-- The invariant of the loop. An account that is not in the queue any more has nothing left that
would fit in. -/
structure Choosing (txs : List TransactionFrameBase) (limit : ℕ)
    (chosen : List TransactionFrameBase) (queues : List AccountTransactionQueue)
    (As : List AccountID) : Prop where
  surging : Surging txs chosen queues As
  fits : opsOf chosen ≤ limit
  gone : ∀ A ∉ As, ∀ h rest, leftOf txs chosen A = h :: rest →
    limit < opsOf chosen + h.getNumOperations
  fair : FairChoice txs limit chosen

variable {limit : ℕ} {chosen rest : List TransactionFrameBase}
  {queues others : List AccountTransactionQueue} {As : List AccountID}

/-- The account on top is another than those of the other queues. -/
theorem Choosing.pop (h : Choosing txs limit chosen queues As)
    (hperm : ((tx :: rest) :: others).Perm queues) :
    ∃ A As', tx.getSourceID = A ∧ A ∉ As' ∧ (∀ B ∉ As', B ≠ A → B ∉ As) ∧
      leftOf txs chosen A = tx :: rest ∧ Surging txs chosen others As' := by
  obtain ⟨A, As', hAs, htop, hothers⟩ := h.surging.pop hperm
  have hmem : tx ∈ queueOf txs A := by
    rw [h.surging.queueOf_eq A, ← htop]
    simp
  refine ⟨A, As', source_of_mem_queueOf hmem, ?_, fun B hB hne hmem => ?_, htop.symm, hothers⟩
  · exact (nodup_cons.mp (hAs.nodup_iff.mp h.surging.nodup)).1
  · exact hB ((mem_cons.mp (hAs.subset hmem)).resolve_left hne)

/-- The transaction with the best rate is chosen. -/
theorem Choosing.take (h : Choosing txs limit chosen queues As)
    (hperm : ((tx :: rest) :: others).Perm queues)
    (hbest : ∀ q ∈ queues, topRate q ≤ feeRate tx)
    (hfits : opsOf chosen + tx.getNumOperations ≤ limit) :
    ∃ As', Choosing txs limit (chosen ++ [tx]) (if rest = [] then others else rest :: others) As' := by
  obtain ⟨A, As', hsource, hA, hsub, hleft, hothers⟩ := h.pop hperm
  have hops : opsOf (chosen ++ [tx]) = opsOf chosen + tx.getNumOperations := by
    rw [opsOf_append]
    rfl
  refine ⟨_, hothers.take hA hleft, hops ▸ hfits, fun B hB h' rest' hleft' => ?_, ?_⟩
  · by_cases hne : B = A
    · -- the account is out because nothing is left of its queue
      subst hne
      rw [leftOf_append_self hsource hleft] at hleft'
      rw [if_neg (by simp [hleft'])] at hB
      exact absurd mem_cons_self hB
    · rw [leftOf_append_other (hsource ▸ Ne.symm hne)] at hleft'
      have hB' : B ∉ As' := fun hmem => hB (by split_ifs <;> simp [hmem])
      have := h.gone B (hsub B hB' hne) h' rest' hleft'
      omega
  · intro before k after hsplit B h' rest' hleft' hrate
    rcases eq_nil_or_concat after with rfl | ⟨after', last, rfl⟩
    · obtain ⟨rfl, hk⟩ := append_inj' hsplit rfl
      cases hk
      -- an account of the queue has no better rate
      by_cases hB : B ∈ As
      · have hmem : leftOf txs chosen B ∈ queues :=
          h.surging.queues.symm.subset (mem_map_of_mem hB)
        have hle := hbest _ hmem
        rw [hleft'] at hle
        exact absurd hle (not_le.mpr hrate)
      · exact h.gone B hB h' rest' hleft'
    · rw [concat_eq_append, ← cons_append, ← append_assoc] at hsplit
      exact h.fair before k after' (append_inj' hsplit rfl).1 B h' rest' hleft' hrate

/-- It does not fit in, and its account is out. -/
theorem Choosing.skip (h : Choosing txs limit chosen queues As)
    (hperm : ((tx :: rest) :: others).Perm queues)
    (hfits : limit < opsOf chosen + tx.getNumOperations) :
    ∃ As', Choosing txs limit chosen others As' := by
  obtain ⟨A, As', hsource, hA, hsub, hleft, hothers⟩ := h.pop hperm
  refine ⟨As', hothers, h.fits, fun B hB h' rest' hleft' => ?_, h.fair⟩
  by_cases hne : B = A
  · subst hne
    rw [hleft] at hleft'
    cases hleft'
    exact hfits
  · exact h.gone B (hsub B hB hne) h' rest' hleft'

/-- What the filter keeps of the transactions, in the order in which they were chosen. -/
structure SurgeChoice (txs : List TransactionFrameBase) (limit : ℕ)
    (chosen : List TransactionFrameBase) : Prop where
  fits : opsOf chosen ≤ limit
  initial : ∀ A, chosen.filter (fun tx => tx.getSourceID = A) <+: queueOf txs A
  full : ∀ A h rest, leftOf txs chosen A = h :: rest → limit < opsOf chosen + h.getNumOperations
  fair : FairChoice txs limit chosen

theorem Choosing.mem_of_mem_leftOf (h : Choosing txs limit chosen queues As)
    (hmem : tx ∈ leftOf txs chosen A) : tx ∈ txs := by
  refine mem_of_mem_queueOf (A := A) ?_
  rw [h.surging.queueOf_eq A]
  exact mem_append_right _ hmem

/-- The loop ends when nothing more fits in. -/
theorem Choosing.done (h : Choosing txs limit chosen queues As) (hpriced : ∀ tx ∈ txs, Priced tx)
    (hend : limit ≤ opsOf chosen ∨ queues = []) : SurgeChoice txs limit chosen := by
  refine ⟨h.fits, h.surging.initial, fun A h' rest hleft => ?_, h.fair⟩
  rcases hend with hfull | rfl
  · have hops := (hpriced h' (h.mem_of_mem_leftOf (hleft ▸ mem_cons_self))).operations
    omega
  · have hAs : As = [] := map_eq_nil_iff.mp (nil_perm.mp h.surging.queues)
    exact h.gone A (by simp [hAs]) h' rest hleft

theorem surgeLoop_choice (hpriced : ∀ tx ∈ txs, Priced tx) {fuel : ℕ}
    (h : Choosing txs limit [] queues As) (hne : ∀ q ∈ queues, q ≠ [])
    (hfuel : queues.flatten.length ≤ fuel) :
    Yields (surgeLoop seed true fuel limit queues []) (SurgeChoice txs limit) (fun _ => False) := by
  refine surgeLoop_yields (I := fun opsLeft queues chosen =>
    (∃ As, Choosing txs limit chosen queues As) ∧ opsOf chosen + opsLeft = limit) ?_ ?_
    fuel limit queues [] ⟨⟨As, h⟩, zero_add _⟩ hne hfuel
  · rintro opsLeft queues chosen ⟨⟨As, h⟩, hlimit⟩ hend
    exact h.done hpriced (hend.imp_left fun hzero => by omega)
  · rintro opsLeft queue queues chosen ⟨⟨As, h⟩, hlimit⟩
    have hq : ∀ q ∈ queue :: queues, ∀ tx ∈ q, Priced tx := by
      intro q hq tx htx
      obtain ⟨A, -, rfl⟩ := mem_map.mp (h.surging.queues.subset hq)
      exact hpriced tx (h.mem_of_mem_leftOf htx)
    refine (popTop_yields (fun q q' => topRate q ≤ topRate q') (fun _ => le_rfl)
      (fun _ _ _ => le_trans) (fun q q' => surgeCompare_rate) queues queue hq).imp ?_
    rintro ⟨top, others⟩ ⟨hperm, hbest⟩
    refine ⟨hperm, fun tx rest hcons => ?_⟩
    obtain rfl : top = tx :: rest := hcons
    change (tx.getNumOperations ≤ _ → _) ∧ (_ < tx.getNumOperations → _)
    refine ⟨fun hcost => ⟨h.take hperm hbest (by omega), ?_⟩,
      fun hcost => ⟨h.skip hperm (by omega), hlimit⟩⟩
    change opsOf (chosen ++ [tx]) + (opsLeft + 1 - tx.getNumOperations) = limit
    rw [opsOf_append, opsOf, opsOf, map_singleton, sum_singleton, ← opsOf]
    omega

/-! ## The filter -/

theorem choosing_start (platform : Platform) (txs : List TransactionFrameBase) (limit : ℕ) :
    Choosing txs limit [] (buildAccountTxQueues platform txs) (sourcesOf platform txs) where
  surging := surging_start txs
  fits := Nat.zero_le _
  gone A hA h rest hleft := by
    have hqueue : queueOf txs A = h :: rest := hleft
    rw [queueOf, queueOf_of_not_mem hA] at hqueue
    cases hqueue
  fair before tx after hsplit := by
    cases append_ne_nil_of_right_ne_nil before (cons_ne_nil tx after) hsplit.symm

theorem leftOf_of_filter_eq {chosen before : List TransactionFrameBase} {h : TransactionFrameBase}
    (hqueue : queueOf txs A = chosen.filter (sentBy A) ++ h :: rest)
    (hsame : before.filter (sentBy A) =
      chosen.filter (sentBy A)) : leftOf txs before A = h :: rest := by
  rw [leftOf, hqueue, hsame, drop_left]

/-- Surge pricing keeps the transactions that it chose one after the other. They fit in, those of an
account are its first ones, and the first that an account did not get in is larger than what is left.
When a transaction was chosen that has a lower rate than the first one dropped of another account,
that one did not fit in, or it was not its account's turn yet. -/
theorem surgePricingFilter_fair (platform : Platform) (lcl : LastClosedLedger) (seed : Scp.Hash)
    (set : TxSetFrame) (hversion : 11 ≤ lcl.state.header.ledgerVersion)
    (hpriced : ∀ tx ∈ set.mTransactions, Priced tx)
    (hover : lcl.state.header.maxTxSetSize < set.sizeOp) :
    ∃ chosen,
      surgeLoop seed true set.mTransactions.length lcl.state.header.maxTxSetSize
        (buildAccountTxQueues platform set.mTransactions) [] = .ok chosen ∧
      set.surgePricingFilter platform lcl seed =
        .ok { set with mTransactions := chosen }.sortForHash ∧
      opsOf chosen ≤ lcl.state.header.maxTxSetSize ∧
      (∀ A, chosen.filter (fun tx => tx.getSourceID = A) <+: queueOf set.mTransactions A) ∧
      ∀ A h rest, queueOf set.mTransactions A =
          chosen.filter (fun tx => tx.getSourceID = A) ++ h :: rest →
        lcl.state.header.maxTxSetSize - opsOf chosen < h.getNumOperations ∧
        ∀ before k after, chosen = before ++ k :: after → k.getSourceID ≠ A →
          feeRate k < feeRate h →
          lcl.state.header.maxTxSetSize - opsOf before < h.getNumOperations ∨
            ∃ tx ∈ after, tx.getSourceID = A := by
  have hloop : Yields (surgeLoop seed true set.mTransactions.length lcl.state.header.maxTxSetSize
      (buildAccountTxQueues platform set.mTransactions) [])
      (SurgeChoice set.mTransactions lcl.state.header.maxTxSetSize) (fun _ => False) :=
    surgeLoop_choice hpriced (choosing_start platform _ _) (fun q hq => queues_ne_nil hq)
      (flatten_queues_perm _ _).length_eq.le
  cases hchosen : surgeLoop seed true set.mTransactions.length lcl.state.header.maxTxSetSize
      (buildAccountTxQueues platform set.mTransactions) [] with
  | error e => exact (hloop.of_error hchosen).elim
  | ok chosen =>
    have h := hloop.of_ok hchosen
    refine ⟨chosen, rfl, ?_, h.fits, h.initial, fun A h' rest hqueue => ⟨?_, ?_⟩⟩
    · simp only [TxSetFrame.surgePricingFilter, getLastMaxTxSetSizeOps, hversion, if_true,
        decide_true, if_pos hover, hchosen]
      rfl
    · have := h.full A h' rest (leftOf_of_filter_eq hqueue rfl)
      have := h.fits
      omega
    · intro before k after hsplit hother hrate
      by_cases hlater : ∃ tx ∈ after, tx.getSourceID = A
      · exact .inr hlater
      · -- all of the account that was chosen had been chosen before
        have hnone : (k :: after).filter (fun tx => tx.getSourceID = A) = [] := by
          refine filter_eq_nil_iff.mpr (forall_mem_cons.mpr ⟨by simpa using hother, ?_⟩)
          exact fun tx htx hA => hlater ⟨tx, htx, by simpa using hA⟩
        have hsame : before.filter (fun tx => tx.getSourceID = A) =
            chosen.filter fun tx => tx.getSourceID = A := by
          rw [hsplit, filter_append, hnone, append_nil]
        have hnext := h.fair before k after hsplit A h' rest (leftOf_of_filter_eq hqueue hsame) hrate
        have hfits := h.fits
        rw [hsplit, opsOf_append] at hfits
        exact .inl (by omega)

namespace ThreeBids

def bid (hash : Scp.Hash) (source : AccountID) (fee ops : ℕ) : TransactionFrameBase :=
  .tx ⟨false, false, hash, hash, source, Fin.ofNat (2 ^ 32) fee, 5, none,
    replicate ops ⟨none, .bumpSequence 0⟩, []⟩

/-- There is room for two operations. -/
def ledger : LastClosedLedger := ⟨9, ∅, ⟨13, 0, 5, 1000, 0, 0, 0, 100, 10, 2⟩⟩

/-- The best bid needs too many operations, and then there is room for the two others. -/
def bids : TxSetFrame := ⟨9, [bid 1 7 900 3, bid 2 8 200 1, bid 3 9 100 1], none, none⟩

end ThreeBids

open ThreeBids in
theorem two_bids_kept :
    ∃ chosen, surgeLoop 0 true 3 2 (buildAccountTxQueues LateSet.idPlatform bids.mTransactions) [] =
        .ok chosen ∧
      bids.surgePricingFilter LateSet.idPlatform ledger 0 =
        .ok { bids with mTransactions := chosen }.sortForHash ∧
      chosen = [bid 2 8 200 1, bid 3 9 100 1] := by
  obtain ⟨chosen, hloop, hfilter, -⟩ := surgePricingFilter_fair LateSet.idPlatform ledger 0 bids (by decide)
    (by
      intro tx htx
      have hpriced : 0 ≤ tx.getFeeBid ∧ 0 < tx.getNumOperations := by
        revert tx
        decide
      exact ⟨hpriced.1, hpriced.2⟩) (by decide)
  have hrun : surgeLoop 0 true 3 2 (buildAccountTxQueues LateSet.idPlatform bids.mTransactions) [] =
      .ok [bid 2 8 200 1, bid 3 9 100 1] := by
    decide +kernel
  exact ⟨chosen, hloop, hfilter, Except.ok.inj (hloop.symm.trans hrun)⟩

end DigitalBits.Herder
