import DigitalBits.Herder.TxSetProposal

/-!
# The order in which a set is applied

A set is applied in batches: the first transaction of each account, then the second, and so on.
Within a batch the hashes decide, mixed with the hash of the set. Neither the order in which the set
holds its transactions nor that of the hash map matters.
-/
namespace DigitalBits.Herder
open List

open Scp (Hash)
open Ledger

variable {platform platform' : Platform} {txs txs' : List TransactionFrameBase}
  {queues queues' : List AccountTransactionQueue} {A : AccountID}

/-! ## Sorting by a key -/

section
variable {α β : Type} [LinearOrder β] {f : α → β} {r : α → α → Prop} [DecidableRel r]

theorem insertionSort_eq_of_perm (hr : ∀ a b, r a b ↔ f a ≤ f b) {l l' : List α}
    (hperm : l.Perm l') (hkeys : (l.map f).Nodup) : l.insertionSort r = l'.insertionSort r := by
  have hsorted := perm_insertionSort r l
  refine Lib.eq_of_sorted hr (hsorted.trans (hperm.trans (perm_insertionSort r l').symm)) ?_
    (Lib.pairwise_insertionSort_key hr l) (Lib.pairwise_insertionSort_key hr l')
  exact (hsorted.map f).nodup_iff.mpr hkeys

theorem flatMap_insertionSort_eq (hr : ∀ a b, r a b ↔ f a ≤ f b) {ls ls' : List (List α)}
    (hperm : List.Forall₂ List.Perm ls ls') (hkeys : (ls.flatten.map f).Nodup) :
    ls.flatMap (insertionSort r) = ls'.flatMap (insertionSort r) := by
  induction hperm with
  | nil => rfl
  | cons hl _ ih =>
    rw [flatten_cons, map_append] at hkeys
    obtain ⟨hhead, htail, -⟩ := nodup_append'.mp hkeys
    rw [flatMap_cons, flatMap_cons, insertionSort_eq_of_perm hr hl hhead, ih htail]

end

/-! ## Batches -/

/-- The first transaction of each queue. -/
def firsts (queues : List AccountTransactionQueue) : List TransactionFrameBase :=
  queues.filterMap head?

/-- What follows it, where something does. -/
def rests (queues : List AccountTransactionQueue) : List AccountTransactionQueue :=
  (queues.map tail).filter (· ≠ [])

section
variable {tx : TransactionFrameBase} {rest : AccountTransactionQueue}

@[simp] theorem firsts_cons_cons : firsts ((tx :: rest) :: queues) = tx :: firsts queues := rfl

theorem rests_cons_cons :
    rests ((tx :: rest) :: queues) = if rest = [] then rests queues else rest :: rests queues := by
  by_cases h : rest = []
  · simp [rests, h]
  · simp [rests, h]

@[simp] theorem flatten_rests_cons_cons :
    (rests ((tx :: rest) :: queues)).flatten = rest ++ (rests queues).flatten := by
  rw [rests_cons_cons]
  by_cases h : rest = []
  · simp [h]
  · simp [h]

end

theorem popBatch_eq (queues : List AccountTransactionQueue) :
    popBatch queues = (firsts queues, rests queues) := by
  induction queues with
  | nil => rfl
  | cons queue queues ih =>
    cases queue with
    | nil => exact ih
    | cons tx rest => rw [popBatch, ih, firsts_cons_cons, rests_cons_cons]

theorem txBatches_succ (fuel : ℕ) (hne : queues ≠ []) :
    txBatches (fuel + 1) queues = firsts queues :: txBatches fuel (rests queues) := by
  cases queues with
  | nil => exact absurd rfl hne
  | cons queue queues => rw [txBatches, popBatch_eq]

/-- The order of the queues only changes the order within the batches. -/
theorem txBatches_perm (fuel : ℕ) (h : queues.Perm queues') :
    List.Forall₂ List.Perm (txBatches fuel queues) (txBatches fuel queues') := by
  induction fuel generalizing queues queues' with
  | zero => exact .nil
  | succ fuel ih =>
    by_cases hne : queues = []
    · subst hne
      rw [nil_perm.mp h]
      exact .nil
    · have hne' : queues' ≠ [] := fun hnil => hne (perm_nil.mp (hnil ▸ h))
      rw [txBatches_succ fuel hne, txBatches_succ fuel hne']
      exact .cons (h.filterMap _) (ih ((h.map _).filter _))

/-! ## The transactions of one account -/

/-- Each queue belongs to an account of its own. -/
structure Separate (queues : List AccountTransactionQueue) : Prop where
  same : ∀ queue ∈ queues, ∀ tx ∈ queue, ∀ tx' ∈ queue, tx.getSourceID = tx'.getSourceID
  apart : queues.Pairwise fun queue queue' =>
    ∀ tx ∈ queue, ∀ tx' ∈ queue', tx.getSourceID ≠ tx'.getSourceID

namespace Separate

theorem rests (h : Separate queues) : Separate (rests queues) where
  same := by
    intro queue hqueue tx htx tx' htx'
    obtain ⟨queue', hmem, rfl⟩ := mem_map.mp (mem_of_mem_filter hqueue)
    exact h.same queue' hmem tx (mem_of_mem_tail htx) tx' (mem_of_mem_tail htx')
  apart := by
    refine List.Pairwise.filter _ (pairwise_map.mpr (h.apart.imp ?_))
    intro queue queue' happart tx htx tx' htx'
    exact happart tx (mem_of_mem_tail htx) tx' (mem_of_mem_tail htx')

theorem of_cons {queue : AccountTransactionQueue} (h : Separate (queue :: queues)) :
    Separate queues :=
  ⟨fun queue' hmem => h.same queue' (mem_cons_of_mem _ hmem), (pairwise_cons.mp h.apart).2⟩

/-- The transactions of an account: the one that comes first, if there is one, and then what is left
of its queue. -/
theorem filter_pop (h : Separate queues) (A : AccountID) :
    ∃ first : Option TransactionFrameBase,
      (firsts queues).filter (sentBy A) = first.toList ∧
      queues.flatten.filter (sentBy A) = first.toList ++
        (Herder.rests queues).flatten.filter (sentBy A) := by
  induction queues with
  | nil => exact ⟨none, rfl, rfl⟩
  | cons queue queues ih =>
    obtain ⟨first, hfirst, hrest⟩ := ih h.of_cons
    cases queue with
    | nil => exact ⟨first, hfirst, hrest⟩
    | cons tx rest =>
      rw [firsts_cons_cons, flatten_rests_cons_cons, flatten_cons, filter_append,
        filter_append]
      by_cases hA : tx.getSourceID = A
      · -- the other queues have nothing of this account
        have hnone : queues.flatten.filter (sentBy A) = [] := by
          refine filter_eq_nil_iff.mpr fun tx' htx' => ?_
          obtain ⟨queue, hqueue, hmem⟩ := mem_flatten.mp htx'
          have hne := (pairwise_cons.mp h.apart).1 queue hqueue tx mem_cons_self tx' hmem
          simpa [hA] using hne.symm
        rw [hnone] at hrest ⊢
        obtain ⟨hhead, htail⟩ := append_eq_nil_iff.mp hrest.symm
        refine ⟨some tx, ?_, ?_⟩
        · rw [filter_cons_of_pos (by simpa using hA), hfirst, hhead]
          rfl
        · rw [filter_cons_of_pos (by simpa using hA), htail]
          rfl
      · have hnone : rest.filter (sentBy A) = [] := by
          refine filter_eq_nil_iff.mpr fun tx' htx' => ?_
          have hsame := h.same _ mem_cons_self tx mem_cons_self tx'
            (mem_cons_of_mem _ htx')
          simpa [← hsame] using hA
        refine ⟨first, ?_, ?_⟩
        · rw [filter_cons_of_neg (by simpa using hA), hfirst]
        · rwa [filter_cons_of_neg (by simpa using hA), hnone]

end Separate

/-- Batches that may be ordered in any way keep the order of each account. -/
theorem Separate.filter_txBatches {fuel : ℕ} {sort : List TransactionFrameBase → List TransactionFrameBase}
    (hsort : ∀ batch, (sort batch).Perm batch) (h : Separate queues)
    (hfuel : ∀ queue ∈ queues, queue.length ≤ fuel) (A : AccountID) :
    ((txBatches fuel queues).flatMap sort).filter (sentBy A) =
      queues.flatten.filter (sentBy A) := by
  induction fuel generalizing queues with
  | zero =>
    have hnil : queues.flatten = [] :=
      flatten_eq_nil_iff.mpr fun queue hqueue => length_eq_zero_iff.mp
        (Nat.le_zero.mp (hfuel queue hqueue))
    rw [hnil]
    rfl
  | succ fuel ih =>
    by_cases hne : queues = []
    · subst hne
      rfl
    · have hrest := ih h.rests (by
        intro queue hqueue
        obtain ⟨queue', hmem, rfl⟩ := mem_map.mp (mem_of_mem_filter hqueue)
        rw [length_tail]
        exact Nat.sub_le_of_le_add (hfuel queue' hmem))
      obtain ⟨first, hfirst, hqueues⟩ := h.filter_pop A
      -- a batch has at most one transaction of the account, so that its order does not matter
      have hbatch : (sort (firsts queues)).filter (sentBy A) = first.toList := by
        have hperm := (hsort (firsts queues)).filter (sentBy A)
        rw [hfirst] at hperm
        cases first with
        | none => exact perm_nil.mp hperm
        | some tx => exact perm_singleton.mp hperm
      rw [txBatches_succ fuel hne, flatMap_cons, filter_append, hrest, hbatch, hqueues]

/-! ## The queues of a set -/

/-- The transactions of an account have different sequence numbers. -/
def DistinctSeqNums (txs : List TransactionFrameBase) : Prop :=
  ∀ A, ((txs.filter fun tx => tx.getSourceID = A).map TransactionFrameBase.getSeqNum).Nodup

theorem queueOf_eq_of_perm (hperm : txs.Perm txs') (hseq : DistinctSeqNums txs) (A : AccountID) :
    queueOf txs A = queueOf txs' A :=
  insertionSort_eq_of_perm (f := TransactionFrameBase.getSeqNum) (fun _ _ => Iff.rfl)
    (hperm.filter _) (hseq A)

theorem queues_perm (platform platform' : Platform) (hperm : txs.Perm txs')
    (hseq : DistinctSeqNums txs) :
    (buildAccountTxQueues platform txs).Perm (buildAccountTxQueues platform' txs') := by
  have hsources : (sourcesOf platform txs).Perm (sourcesOf platform' txs') :=
    (platform.mapOrder_perm _).trans (((hperm.map _).dedup).trans (platform'.mapOrder_perm _).symm)
  have hqueues := hsources.map (queueOf txs)
  rwa [map_congr_left (l := sourcesOf platform' txs') fun A _ =>
    queueOf_eq_of_perm hperm hseq A] at hqueues

theorem separate_queues (platform : Platform) (txs : List TransactionFrameBase) :
    Separate (buildAccountTxQueues platform txs) where
  same := by
    intro queue hqueue tx htx tx' htx'
    obtain ⟨A, -, rfl⟩ := mem_map.mp hqueue
    rw [source_of_mem_queueOf htx, source_of_mem_queueOf htx']
  apart := by
    refine pairwise_map.mpr ((nodup_sourcesOf txs).imp ?_)
    intro A B hne tx htx tx' htx'
    rwa [source_of_mem_queueOf htx, source_of_mem_queueOf htx']

theorem filter_queues (platform : Platform) (txs : List TransactionFrameBase) (A : AccountID) :
    (buildAccountTxQueues platform txs).flatten.filter (sentBy A) =
      queueOf txs A := by
  obtain ⟨hmem, hnot⟩ := filter_flatten (forall₂_queues platform txs)
    (nodup_sourcesOf txs) (fun B queue hq tx htx => source_of_mem_queueOf (hq ▸ htx)) A
  by_cases hA : A ∈ sourcesOf platform txs
  · exact hmem hA
  · rw [hnot hA, queueOf, queueOf_of_not_mem hA]
    rfl

theorem length_queue_le {queue : AccountTransactionQueue}
    (h : queue ∈ buildAccountTxQueues platform txs) : queue.length ≤ txs.length := by
  obtain ⟨A, -, rfl⟩ := mem_map.mp h
  rw [(queueOf_perm txs A).length_eq]
  exact length_filter_le _ _

theorem increasing_queueOf (hseq : DistinctSeqNums txs) (A : AccountID) :
    (queueOf txs A).Pairwise fun tx1 tx2 => tx1.getSeqNum < tx2.getSeqNum := by
  have hnodup : ((queueOf txs A).map TransactionFrameBase.getSeqNum).Nodup :=
    ((queueOf_perm txs A).map _).nodup_iff.mpr (hseq A)
  exact (bySeqNum_queueOf txs A).imp₂ (fun _ _ hle hne => lt_of_le_of_ne hle hne)
    (pairwise_map.mp hnodup)

/-- However the batches are sorted, each account has its transactions in the order of its queue. -/
theorem filter_batches {sort : List TransactionFrameBase → List TransactionFrameBase}
    (hsort : ∀ batch, (sort batch).Perm batch) (platform : Platform) (txs : List TransactionFrameBase)
    (A : AccountID) :
    ((txBatches txs.length (buildAccountTxQueues platform txs)).flatMap sort).filter
      (sentBy A) = queueOf txs A := by
  rw [← filter_queues platform txs A]
  exact (separate_queues platform txs).filter_txBatches hsort (fun _ => length_queue_le) A

/-- Of each account, `sortForApply` gives the transactions in the order of its queue. -/
theorem filter_sortForApply (platform : Platform) (set : TxSetFrame) (A : AccountID) :
    (set.sortForApply platform).1.filter (sentBy A) =
      queueOf set.mTransactions A :=
  filter_batches (perm_insertionSort _) platform set.mTransactions A

theorem sortForApply_perm (platform : Platform) (set : TxSetFrame) :
    (set.sortForApply platform).1.Perm set.mTransactions := by
  refine perm_of_filter_perm fun A => ?_
  rw [filter_sortForApply]
  exact queueOf_perm _ A

/-! ## The hash of a set -/

namespace TxSetFrame

theorem getContentsHash_eq {set : TxSetFrame} (h : set.HashKept platform) :
    (set.getContentsHash platform).1 =
      platform.hashOf set.mPreviousLedgerHash set.sortForHash.mTransactions := by
  unfold getContentsHash
  cases hhash : set.mHash with
  | some hash => exact h hash hhash
  | none => rfl

theorem sortForHash_eq_of_perm {set set' : TxSetFrame}
    (hperm : set.mTransactions.Perm set'.mTransactions)
    (hhashes : (set.mTransactions.map TransactionFrameBase.getFullHash).Nodup) :
    set.sortForHash.mTransactions = set'.sortForHash.mTransactions :=
  insertionSort_eq_of_perm (f := TransactionFrameBase.getFullHash) (fun _ _ => Iff.rfl) hperm hhashes

/-! ## The order -/

theorem not_lessThanXored (tx1 tx2 : TransactionFrameBase) (hash : Hash) :
    ¬ lessThanXored tx2.getFullHash tx1.getFullHash hash = true ↔
      hash.val ^^^ tx1.getFullHash.val ≤ hash.val ^^^ tx2.getFullHash.val := by
  rw [lessThanXored, decide_eq_true_iff, not_lt]

/-- Mixing with the hash of the set keeps different hashes different. -/
theorem nodup_xored {txs : List TransactionFrameBase} (hash : Hash)
    (h : (txs.map TransactionFrameBase.getFullHash).Nodup) :
    (txs.map fun tx => hash.val ^^^ tx.getFullHash.val).Nodup := by
  have hcomp : (txs.map fun tx => hash.val ^^^ tx.getFullHash.val) =
      (txs.map TransactionFrameBase.getFullHash).map fun l : Hash => hash.val ^^^ l.val := by
    rw [map_map]
    rfl
  rw [hcomp]
  exact h.map fun l r hlr => Fin.ext (Nat.xor_right_injective hlr)

theorem sortForApply_eq (platform : Platform) (set : TxSetFrame) :
    (set.sortForApply platform).1 =
      (txBatches set.mTransactions.length
        (buildAccountTxQueues platform set.mTransactions)).flatMap
          (insertionSort fun tx1 tx2 => ¬ lessThanXored tx2.getFullHash tx1.getFullHash
            (set.getContentsHash platform).1) := rfl

/-- The order in which a set is applied has each of its transactions once, those of an account by
sequence number, and it is the same for all orders of the set and of the hash map. -/
theorem sortForApply_canonical {platform platform' : Platform} {set set' : TxSetFrame}
    (hseq : DistinctSeqNums set.mTransactions)
    (hhashes : (set.mTransactions.map TransactionFrameBase.getFullHash).Nodup)
    (hkept : set.HashKept platform) :
    (set.sortForApply platform).1.Perm set.mTransactions ∧
    (∀ A, ((set.sortForApply platform).1.filter fun tx => tx.getSourceID = A).Pairwise
      fun tx1 tx2 => tx1.getSeqNum < tx2.getSeqNum) ∧
    (set.mTransactions.Perm set'.mTransactions →
      set.mPreviousLedgerHash = set'.mPreviousLedgerHash → set'.HashKept platform' →
      platform.hashOf = platform'.hashOf →
      (set.sortForApply platform).1 = (set'.sortForApply platform').1) := by
  refine ⟨sortForApply_perm platform set, fun A => ?_, fun hperm hprevious hkept' hhashOf => ?_⟩
  · rw [filter_sortForApply]
    exact increasing_queueOf hseq A
  · have hhash : (set.getContentsHash platform).1 = (set'.getContentsHash platform').1 := by
      rw [getContentsHash_eq hkept, getContentsHash_eq hkept', hhashOf, hprevious,
        sortForHash_eq_of_perm hperm hhashes]
    have hbatches := txBatches_perm set.mTransactions.length (queues_perm platform platform' hperm hseq)
    have hflatten : (txBatches set.mTransactions.length
        (buildAccountTxQueues platform set.mTransactions)).flatten.Perm set.mTransactions := by
      refine perm_of_filter_perm fun A => ?_
      rw [← flatMap_id', filter_batches (fun batch => .refl batch)]
      exact queueOf_perm _ A
    have hkeys := nodup_xored (set.getContentsHash platform).1
      ((hflatten.map TransactionFrameBase.getFullHash).nodup_iff.mpr hhashes)
    rw [sortForApply_eq, sortForApply_eq, ← hhash, ← hperm.length_eq]
    exact flatMap_insertionSort_eq (fun tx1 tx2 => not_lessThanXored tx1 tx2 _) hbatches hkeys

end TxSetFrame

namespace ThreeTransactions

def tx (hash : Hash) (source : AccountID) (seqNum : SequenceNumber) : TransactionFrameBase :=
  .tx ⟨false, false, hash, hash, source, 100, seqNum, none, [⟨none, .bumpSequence 0⟩], []⟩

def forwards : Platform := ⟨id, fun _ => .refl _, fun _ _ => 6⟩

def backwards : Platform := ⟨reverse, fun l => l.reverse_perm, fun _ _ => 6⟩

/-- Two transactions of one account and one of another. -/
def set : TxSetFrame := ⟨0, [tx 1 7 6, tx 2 7 5, tx 3 8 9], none, none⟩

/-- The same, in another order, with its hash. -/
def otherSet : TxSetFrame :=
  (TxSetFrame.getContentsHash backwards ⟨0, [tx 3 8 9, tx 1 7 6, tx 2 7 5], none, none⟩).2

end ThreeTransactions

open ThreeTransactions in
/-- Both are applied in the same order. -/
theorem three_transactions_applied :
    (set.sortForApply forwards).1 = (otherSet.sortForApply backwards).1 ∧
      (set.sortForApply forwards).1 = [tx 2 7 5, tx 3 8 9, tx 1 7 6] := by
  have hcanonical := @TxSetFrame.sortForApply_canonical forwards backwards set otherSet
    (fun A => (filter_sublist.map _).nodup (by decide))
    (by decide) (.of_none rfl)
  have hkept : otherSet.HashKept backwards := TxSetFrame.HashKept.getContentsHash (.of_none rfl)
  exact ⟨hcanonical.2.2 (by decide +kernel) rfl hkept rfl, by decide +kernel⟩

end DigitalBits.Herder
