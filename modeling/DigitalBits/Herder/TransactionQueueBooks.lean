import DigitalBits.Lib.Store
import DigitalBits.Herder.TransactionQueue
import DigitalBits.Transactions.TransactionValidity

/-!
# The books of the transaction queue

The queue keeps sums over the transactions it holds: for each account the fees of
the transactions it pays for, and the operations of those that use its sequence
number. Within a call the books of one account are open: some of its transactions
are not paid for or not counted yet, or no longer. A write to the record of that
account moves transactions in and out of these two lists, and a call is over
when both are empty.
-/
namespace DigitalBits.Herder
open Lib.Store List

open Lib Ledger QueueM TransactionQueue

variable {config : QueueConfig}

/-! ## Sums over transactions -/

def numOps (txs : List TransactionFrameBase) : ℤ :=
  (txs.map fun tx => (tx.getNumOperations : ℤ)).sum

/-- What an account bids for the transactions it pays for. -/
def paidBy (accountID : AccountID) (txs : List TransactionFrameBase) : ℤ :=
  (txs.map fun tx => if tx.getFeeSourceID = accountID then tx.getFeeBid else 0).sum

section Sums

variable {A : AccountID} {tx : TransactionFrameBase} {txs txs' : List TransactionFrameBase}

@[simp] theorem numOps_nil : numOps [] = 0 := rfl

@[simp] theorem numOps_cons : numOps (tx :: txs) = tx.getNumOperations + numOps txs := by
  simp [numOps]

@[simp] theorem numOps_append : numOps (txs ++ txs') = numOps txs + numOps txs' := by
  simp [numOps]

@[simp] theorem paidBy_nil : paidBy A [] = 0 := rfl

@[simp] theorem paidBy_cons : paidBy A (tx :: txs) =
    (if tx.getFeeSourceID = A then tx.getFeeBid else 0) + paidBy A txs := by
  simp [paidBy]

@[simp] theorem paidBy_append : paidBy A (txs ++ txs') = paidBy A txs + paidBy A txs' := by
  simp [paidBy]

theorem parts_nonneg (h : ∀ tx ∈ txs, 0 < tx.getFeeBid) :
    ∀ x ∈ txs.map fun tx => if tx.getFeeSourceID = A then tx.getFeeBid else 0, 0 ≤ x := by
  intro x hx
  obtain ⟨tx, htx, rfl⟩ := mem_map.mp hx
  have hbid := h tx htx
  split_ifs <;> omega

theorem paidBy_nonneg (h : ∀ tx ∈ txs, 0 < tx.getFeeBid) : 0 ≤ paidBy A txs :=
  sum_nonneg (parts_nonneg h)

theorem paidBy_le_of_mem (h : ∀ tx ∈ txs, 0 < tx.getFeeBid) (hmem : tx ∈ txs) :
    paidBy A [tx] ≤ paidBy A txs := by
  rw [paidBy_cons, paidBy_nil, add_zero]
  exact single_le_sum (parts_nonneg h) _ (mem_map_of_mem hmem)

variable {i : ℕ} {old : TransactionFrameBase}

/-- Replacing a transaction exchanges its part of a sum. -/
theorem sum_map_set (f : TransactionFrameBase → ℤ) (tx : TransactionFrameBase)
    (h : txs[i]? = some old) : ((txs.set i tx).map f).sum = (txs.map f).sum - f old + f tx := by
  induction txs generalizing i with
  | nil => simp at h
  | cons head tail ih =>
    cases i with
    | zero =>
      simp only [getElem?_cons_zero, Option.some.injEq] at h
      subst h
      simp only [set_cons_zero, map_cons, sum_cons]
      omega
    | succ i =>
      have hrest := ih (by simpa using h)
      simp only [set_cons_succ, map_cons, sum_cons, hrest]
      omega

theorem numOps_set (h : txs[i]? = some old) :
    numOps (txs.set i tx) = numOps txs - old.getNumOperations + tx.getNumOperations :=
  sum_map_set _ tx h

theorem paidBy_set (h : txs[i]? = some old) :
    paidBy A (txs.set i tx) = paidBy A txs - paidBy A [old] + paidBy A [tx] := by
  have hset := sum_map_set (fun tx => if tx.getFeeSourceID = A then tx.getFeeBid else 0) tx h
  simpa [paidBy] using hset

end Sums

namespace TransactionQueue

variable (q : TransactionQueue)

/-- All transactions in the queue. -/
def queued : List TransactionFrameBase :=
  q.mAccountStates.entries.flatMap fun e => e.2.mTransactions

/-- The record of an account; a new one if there is none. -/
def stateOf (A : AccountID) : AccountState :=
  (q.mAccountStates.lookup A).getD {}

def feesOf (A : AccountID) : ℤ :=
  Store.part (fun _ state => state.mTotalFees) A q.mAccountStates

def owed (A : AccountID) : ℤ :=
  Store.total (fun _ state => paidBy A state.mTransactions) q.mAccountStates

def queuedOps : ℤ :=
  Store.total (fun _ state => numOps state.mTransactions) q.mAccountStates

variable {q : TransactionQueue} {A : AccountID} {state : AccountState} {tx : TransactionFrameBase}

theorem stateOf_of_lookup (h : q.mAccountStates.lookup A = some state) : q.stateOf A = state := by
  rw [stateOf, h]
  rfl

theorem part_eq_stateOf {f : AccountID → AccountState → ℤ} (hf : f A {} = 0) :
    Store.part f A q.mAccountStates = f A (q.stateOf A) := by
  rw [part_eq_elim, stateOf]
  cases q.mAccountStates.lookup A with
  | none => exact hf.symm
  | some state => rfl

theorem mem_queued : tx ∈ q.queued ↔
    ∃ A state, q.mAccountStates.lookup A = some state ∧ tx ∈ state.mTransactions := by
  simp only [queued, mem_flatMap, Sigma.exists]
  refine exists_congr fun A => exists_congr fun state => and_congr_left fun _ => ?_
  exact AList.mem_lookup_iff.symm

theorem owed_eq : q.owed A = paidBy A q.queued := by
  simp only [owed, Store.total, queued, paidBy, flatMap, map_flatten, sum_flatten,
    map_map]
  rfl

theorem queuedOps_eq : q.queuedOps = numOps q.queued := by
  simp only [queuedOps, Store.total, queued, numOps, flatMap, map_flatten,
    sum_flatten, map_map]
  rfl

end TransactionQueue

/-! ## What is asked of the queue -/

/-- The transactions of an account, as they stand in the queue. -/
structure Lined (A : AccountID) (txs : List TransactionFrameBase) : Prop where
  source : ∀ tx ∈ txs, tx.getSourceID = A
  consecutive : (txs.map TransactionFrameBase.getSeqNum).IsChain fun n n' => n' = n + 1
  seqNum_pos : ∀ tx ∈ txs, 0 < tx.getSeqNum
  feeBid_pos : ∀ tx ∈ txs, 0 < tx.getFeeBid

/-- A record as it is between two calls. -/
structure Settled (config : QueueConfig) (state : AccountState) : Prop where
  ops : state.mQueueSizeOps = numOps state.mTransactions
  needed : state.mTransactions ≠ [] ∨ state.mTotalFees ≠ 0
  age_zero : state.mTransactions = [] → state.mAge = 0
  age_lt : state.mAge < config.mPendingDepth

/-- The queue between two calls. -/
structure Balanced (config : QueueConfig) (q : TransactionQueue) : Prop where
  fees : ∀ B, q.feesOf B = q.owed B
  totalOps : q.mQueueSizeOps = q.queuedOps
  lined : ∀ B state, q.mAccountStates.lookup B = some state → Lined B state.mTransactions
  settled : ∀ B state, q.mAccountStates.lookup B = some state → Settled config state

/-- The queue within a call, with open books of the account `A`: some of its transactions are not
in the fees of the account that pays for them, and some are not counted. -/
structure Books (config : QueueConfig) (A : AccountID)
    (unpaid uncounted : List TransactionFrameBase) (q : TransactionQueue) : Prop where
  fees : ∀ B, q.feesOf B + paidBy B unpaid = q.owed B
  totalOps : q.mQueueSizeOps + numOps uncounted = q.queuedOps
  lined : ∀ B state, q.mAccountStates.lookup B = some state → Lined B state.mTransactions
  others : ∀ B state, B ≠ A → q.mAccountStates.lookup B = some state → Settled config state
  own : (q.stateOf A).mQueueSizeOps + numOps uncounted = numOps (q.stateOf A).mTransactions

section Lists

variable {A : AccountID} {tx first last : TransactionFrameBase} {txs : List TransactionFrameBase}

theorem lined_nil : Lined A [] :=
  ⟨by simp, by simp, by simp, by simp⟩

theorem Lined.infix {txs' : List TransactionFrameBase} (h : Lined A txs) (hin : txs' <:+: txs) :
    Lined A txs' where
  source tx htx := h.source tx (hin.subset htx)
  consecutive := h.consecutive.infix (hin.map _)
  seqNum_pos tx htx := h.seqNum_pos tx (hin.subset htx)
  feeBid_pos tx htx := h.feeBid_pos tx (hin.subset htx)

/-- Transactions with the same sources, numbers and bids stand as well. -/
theorem Lined.map (h : Lined A txs) (f : TransactionFrameBase → TransactionFrameBase)
    (hsource : ∀ tx, (f tx).getSourceID = tx.getSourceID)
    (hseq : ∀ tx, (f tx).getSeqNum = tx.getSeqNum)
    (hbid : ∀ tx, (f tx).getFeeBid = tx.getFeeBid) : Lined A (txs.map f) where
  source tx htx := by
    obtain ⟨tx, hmem, rfl⟩ := mem_map.mp htx
    rw [hsource]
    exact h.source tx hmem
  consecutive := by
    have heq : (txs.map f).map TransactionFrameBase.getSeqNum =
        txs.map TransactionFrameBase.getSeqNum := by simp [hseq]
    rw [heq]
    exact h.consecutive
  seqNum_pos tx htx := by
    obtain ⟨tx, hmem, rfl⟩ := mem_map.mp htx
    rw [hseq]
    exact h.seqNum_pos tx hmem
  feeBid_pos tx htx := by
    obtain ⟨tx, hmem, rfl⟩ := mem_map.mp htx
    rw [hbid]
    exact h.feeBid_pos tx hmem

/-- A transaction may take the place of one with the same number. -/
theorem Lined.set {i : ℕ} {old : TransactionFrameBase} (h : Lined A txs) (hi : txs[i]? = some old)
    (hsource : tx.getSourceID = A) (hseq : tx.getSeqNum = old.getSeqNum)
    (hbid : 0 < tx.getFeeBid) : Lined A (txs.set i tx) where
  source t ht := by
    rcases mem_or_eq_of_mem_set ht with hmem | rfl
    · exact h.source t hmem
    · exact hsource
  consecutive := by
    have hold : (txs.map TransactionFrameBase.getSeqNum)[i]? = some tx.getSeqNum := by
      rw [getElem?_map, hi, hseq]
      rfl
    obtain ⟨_, hget⟩ := List.getElem?_eq_some_iff.mp hold
    rw [map_set, ← hget, set_getElem_self]
    exact h.consecutive
  seqNum_pos t ht := by
    rcases mem_or_eq_of_mem_set ht with hmem | rfl
    · exact h.seqNum_pos t hmem
    · rw [hseq]
      exact h.seqNum_pos old (mem_of_getElem? hi)
  feeBid_pos t ht := by
    rcases mem_or_eq_of_mem_set ht with hmem | rfl
    · exact h.feeBid_pos t hmem
    · exact hbid

/-- A transaction may follow one with the number before its own. -/
theorem Lined.concat (h : Lined A txs) (hsource : tx.getSourceID = A) (hpos : 0 < tx.getSeqNum)
    (hnext : ∀ last, txs.getLast? = some last → tx.getSeqNum = last.getSeqNum + 1)
    (hbid : 0 < tx.getFeeBid) : Lined A (txs ++ [tx]) where
  source t ht := by
    rcases mem_append.mp ht with hmem | hmem
    · exact h.source t hmem
    · rwa [mem_singleton.mp hmem]
  consecutive := by
    rw [map_append, isChain_append]
    refine ⟨h.consecutive, by simp, fun n hn n' hn' => ?_⟩
    rw [getLast?_map] at hn
    obtain ⟨last, hlast, rfl⟩ := Option.map_eq_some_iff.mp hn
    simp only [map_cons, map_nil, head?_cons, Option.mem_some_iff] at hn'
    rw [← hn']
    exact hnext last hlast
  seqNum_pos t ht := by
    rcases mem_append.mp ht with hmem | hmem
    · exact h.seqNum_pos t hmem
    · rwa [mem_singleton.mp hmem]
  feeBid_pos t ht := by
    rcases mem_append.mp ht with hmem | hmem
    · exact h.feeBid_pos t hmem
    · rwa [mem_singleton.mp hmem]

/-- In a chain of numbers the `i`th is the first one plus `i`. -/
theorem getElem?_of_isChain {l : List ℤ} {m n : ℤ} {i : ℕ} (h : l.IsChain fun n n' => n' = n + 1)
    (hhead : l.head? = some m) (hi : l[i]? = some n) : n = m + i := by
  induction i generalizing l m with
  | zero =>
    rw [← head?_eq_getElem?, hhead] at hi
    simpa using (Option.some.inj hi).symm
  | succ i ih =>
    cases l with
    | nil => simp at hhead
    | cons a l =>
      simp only [head?_cons, Option.some.injEq] at hhead
      subst hhead
      cases l with
      | nil => simp at hi
      | cons b l =>
        obtain ⟨hb, hrest⟩ := isChain_cons_cons.mp h
        have hn := ih hrest rfl hi
        rw [hn, hb]
        push_cast
        ring

end Lists

/-! ## Writes -/

section Writes

variable {A B : AccountID} {q : TransactionQueue} {state : AccountState}
  {unpaid unpaid' uncounted uncounted' : List TransactionFrameBase} {tx : TransactionFrameBase}

theorem Balanced.books (h : Balanced config q) (A : AccountID) : Books config A [] [] q where
  fees B := by simpa using h.fees B
  totalOps := by simpa using h.totalOps
  lined := h.lined
  others B state _ hB := h.settled B state hB
  own := by
    cases hA : q.mAccountStates.lookup A with
    | none => simp [stateOf, hA]
    | some state => simpa [stateOf_of_lookup hA] using (h.settled A state hA).ops

/-- Closing the books. -/
theorem Books.balanced (h : Books config A [] [] q)
    (hA : ∀ state, q.mAccountStates.lookup A = some state →
      (state.mTransactions ≠ [] ∨ state.mTotalFees ≠ 0) ∧
      (state.mTransactions = [] → state.mAge = 0) ∧ state.mAge < config.mPendingDepth) :
    Balanced config q where
  fees B := by simpa using h.fees B
  totalOps := by simpa using h.totalOps
  lined := h.lined
  settled B state hB := by
    by_cases hBA : B = A
    · subst hBA
      obtain ⟨hneeded, hzero, hlt⟩ := hA state hB
      exact ⟨by simpa [stateOf_of_lookup hB] using h.own, hneeded, hzero, hlt⟩
    · exact h.others B state hBA hB

/-- Closing the books with the record of the account. -/
theorem Books.balanced_insert {n : ℤ} (h : Books config A [] []
      { q with mAccountStates := q.mAccountStates.insert A state, mQueueSizeOps := n })
    (hneeded : state.mTransactions ≠ [] ∨ state.mTotalFees ≠ 0)
    (hzero : state.mTransactions = [] → state.mAge = 0) (hlt : state.mAge < config.mPendingDepth) :
    Balanced config
      { q with mAccountStates := q.mAccountStates.insert A state, mQueueSizeOps := n } := by
  refine h.balanced fun s hs => ?_
  simp only [AList.lookup_insert, Option.some.injEq] at hs
  exact hs ▸ ⟨hneeded, hzero, hlt⟩

/-- Writing the record of the account whose books are open. -/
theorem Books.write (h : Books config A unpaid uncounted q) {n : ℤ}
    (hfees : ∀ B, (if B = A then state.mTotalFees - (q.stateOf A).mTotalFees else 0) +
      paidBy B unpaid' - paidBy B unpaid =
        paidBy B state.mTransactions - paidBy B (q.stateOf A).mTransactions)
    (hops : state.mQueueSizeOps + numOps uncounted' = numOps state.mTransactions)
    (htotal : n + numOps uncounted' - (q.mQueueSizeOps + numOps uncounted) =
      numOps state.mTransactions - numOps (q.stateOf A).mTransactions)
    (hlined : Lined A state.mTransactions) :
    Books config A unpaid' uncounted'
      { q with mAccountStates := q.mAccountStates.insert A state, mQueueSizeOps := n } where
  fees B := by
    have hold := h.fees B
    have hnew := hfees B
    simp only [owed, feesOf] at hold ⊢
    rw [total_insert, part_eq_stateOf rfl]
    by_cases hBA : B = A
    · subst hBA
      rw [part_eq_stateOf rfl] at hold
      rw [part_insert]
      rw [if_pos rfl] at hnew
      linarith
    · rw [part_insert_ne hBA]
      rw [if_neg hBA] at hnew
      linarith
  totalOps := by
    have hold := h.totalOps
    simp only [queuedOps] at hold ⊢
    rw [total_insert, part_eq_stateOf rfl]
    linarith
  lined := Store.forall_lookup_insert hlined fun B _ => h.lined B
  others B s hBA hB := by
    simp only [AList.lookup_insert_ne hBA] at hB
    exact h.others B s hBA hB
  own := by
    simpa [stateOf] using hops

/-- Every bid counts for the account that pays. -/
theorem Books.paidBy_le_owed (h : Books config A unpaid uncounted q)
    (hstate : q.mAccountStates.lookup A = some state) :
    paidBy B state.mTransactions ≤ q.owed B :=
  le_total_of_lookup (f := fun _ state => paidBy B state.mTransactions)
    (fun C s hC => paidBy_nonneg (h.lined C s hC).feeBid_pos) hstate

/-- The account that pays for a transaction which is not paid yet has its record. -/
theorem Books.feeSource (h : Books config A unpaid uncounted q)
    (hstate : q.mAccountStates.lookup A = some state) {rest : List TransactionFrameBase}
    (htxs : ∀ B, paidBy B unpaid + paidBy B (tx :: rest) ≤ paidBy B state.mTransactions)
    (hmem : ∀ t ∈ tx :: rest, 0 < t.getFeeBid) :
    ∃ feeState, q.mAccountStates.lookup tx.getFeeSourceID = some feeState ∧
      tx.getFeeBid ≤ feeState.mTotalFees := by
  have hbid := hmem tx mem_cons_self
  have howed := (htxs tx.getFeeSourceID).trans (h.paidBy_le_owed hstate)
  have hfees := h.fees tx.getFeeSourceID
  have hrest : 0 ≤ paidBy tx.getFeeSourceID rest :=
    paidBy_nonneg fun t ht => hmem t (mem_cons_of_mem _ ht)
  rw [paidBy_cons, if_pos rfl] at howed
  cases hlookup : q.mAccountStates.lookup tx.getFeeSourceID with
  | none =>
    rw [feesOf, part_of_missing hlookup] at hfees
    omega
  | some feeState =>
    rw [feesOf, part_of_lookup hlookup] at hfees
    exact ⟨feeState, rfl, by omega⟩

/-- Writing the fees of any account. -/
theorem Books.writeFees (h : Books config A unpaid uncounted q) {F : AccountID} {x : ℤ}
    (hfees : ∀ B, (if B = F then x - (q.stateOf F).mTotalFees else 0) + paidBy B unpaid' =
      paidBy B unpaid)
    (hneeded : F ≠ A → (q.stateOf F).mTransactions ≠ [] ∨ x ≠ 0) :
    Books config A unpaid' uncounted
      { q with mAccountStates :=
          q.mAccountStates.insert F { q.stateOf F with mTotalFees := x } } where
  fees B := by
    have hold := h.fees B
    have hnew := hfees B
    have howed : Store.total (fun _ state => paidBy B state.mTransactions)
        (q.mAccountStates.insert F { q.stateOf F with mTotalFees := x }) =
        Store.total (fun _ state => paidBy B state.mTransactions) q.mAccountStates := by
      rw [total_insert, part_eq_stateOf rfl]
      ring
    simp only [owed, feesOf] at hold ⊢
    by_cases hBF : B = F
    · subst hBF
      rw [part_eq_stateOf rfl] at hold
      rw [part_insert]
      rw [if_pos rfl] at hnew
      linarith
    · rw [part_insert_ne hBF]
      rw [if_neg hBF] at hnew
      linarith
  totalOps := by
    have hold := h.totalOps
    simp only [queuedOps] at hold ⊢
    rw [hold, total_insert, part_eq_stateOf rfl]
    ring
  lined := by
    refine Store.forall_lookup_insert ?_ fun B _ => h.lined B
    cases hlookup : q.mAccountStates.lookup F with
    | none => simpa [stateOf, hlookup] using lined_nil
    | some state => simpa [stateOf, hlookup] using h.lined F state hlookup
  others B s hBA hB := by
    revert hBA
    refine Store.forall_lookup_insert (P := fun B s => B ≠ A → Settled config s) (fun hFA => ?_)
      (fun B _ s hB hBA => h.others B s hBA hB) B s hB
    have hneed := hneeded hFA
    cases hlookup : q.mAccountStates.lookup F with
    | none =>
      simp only [stateOf, hlookup, Option.getD_none] at hneed ⊢
      exact ⟨rfl, hneed, fun _ => rfl, config.pendingDepth_pos⟩
    | some state =>
      simp only [stateOf, hlookup, Option.getD_some] at hneed ⊢
      have hold := h.others F state hFA hlookup
      exact ⟨hold.ops, hneed, hold.age_zero, hold.age_lt⟩
  own := by
    have hold := h.own
    by_cases hAF : A = F
    · subst hAF
      simpa [stateOf] using hold
    · simpa [stateOf, AList.lookup_insert_ne hAF] using hold

/-- Erasing the record of an account that has no transactions. -/
theorem Books.eraseFees (h : Books config A unpaid uncounted q) {F : AccountID} (hFA : F ≠ A)
    (hempty : (q.stateOf F).mTransactions = [])
    (hfees : ∀ B, (if B = F then 0 - (q.stateOf F).mTotalFees else 0) + paidBy B unpaid' =
      paidBy B unpaid) :
    Books config A unpaid' uncounted { q with mAccountStates := q.mAccountStates.erase F } where
  fees B := by
    have hold := h.fees B
    have hnew := hfees B
    simp only [owed, feesOf] at hold ⊢
    rw [total_erase, part_eq_stateOf rfl, hempty]
    by_cases hBF : B = F
    · subst hBF
      rw [part_eq_stateOf rfl] at hold
      rw [part_erase, paidBy_nil]
      rw [if_pos rfl] at hnew
      linarith
    · rw [part_erase_ne hBF, paidBy_nil]
      rw [if_neg hBF] at hnew
      linarith
  totalOps := by
    have hold := h.totalOps
    simp only [queuedOps] at hold ⊢
    rw [total_erase, part_eq_stateOf rfl, hempty, numOps_nil]
    linarith
  lined B s hB := h.lined B s (Store.lookup_of_erase hB).2
  others B s hBA hB := h.others B s hBA (Store.lookup_of_erase hB).2
  own := by
    have hold := h.own
    simpa [stateOf, AList.lookup_erase_ne hFA.symm] using hold

/-- Closing the books by erasing a record with nothing in it. -/
theorem Books.balanced_erase {n : ℤ}
    (h : Books config A [] []
      { q with mAccountStates := q.mAccountStates.insert A {}, mQueueSizeOps := n }) :
    Balanced config { q with mAccountStates := q.mAccountStates.erase A, mQueueSizeOps := n } where
  fees B := by
    have hold := h.fees B
    simp only [owed, feesOf, paidBy_nil, add_zero, total_insert, total_erase]
      at hold ⊢
    by_cases hBA : B = A
    · subst hBA
      rw [part_insert] at hold
      rwa [part_erase]
    · rwa [part_insert_ne hBA, ← part_erase_ne hBA] at hold
  totalOps := by
    have hold := h.totalOps
    simpa only [queuedOps, numOps_nil, add_zero, total_insert, total_erase] using hold
  lined B s hB := by
    obtain ⟨hBA, hB⟩ := Store.lookup_of_erase hB
    exact h.lined B s (by rwa [AList.lookup_insert_ne hBA])
  settled B s hB := by
    obtain ⟨hBA, hB⟩ := Store.lookup_of_erase hB
    exact h.others B s hBA (by rwa [AList.lookup_insert_ne hBA])

end Writes

/-! ## Removing transactions -/

section Removing

variable {A : AccountID} {q : TransactionQueue} {state : AccountState}
  {unpaid uncounted txs : List TransactionFrameBase} {tx : TransactionFrameBase}
  {E : QueueFailure → TransactionQueue → Prop}

/-- The record of `A` up to its fees. -/
def HasRecord (A : AccountID) (state : AccountState) (q : TransactionQueue) : Prop :=
  ∃ fees, q.mAccountStates.lookup A = some { state with mTotalFees := fees }

/-- The fee of a transaction of `A` that is paid for can be released. -/
theorem releaseFee_after (h : Books config A unpaid uncounted q) (hrecord : HasRecord A state q)
    {rest : List TransactionFrameBase}
    (htxs : ∀ B, paidBy B unpaid + paidBy B (tx :: rest) ≤ paidBy B state.mTransactions)
    (hne : state.mTransactions ≠ []) (hbids : ∀ t ∈ tx :: rest, 0 < t.getFeeBid) :
    After (releaseFeeMaybeEraseAccountState tx) q
      (fun _ q' => Books config A (unpaid ++ [tx]) uncounted q' ∧ HasRecord A state q') E := by
  obtain ⟨fees, hstate⟩ := hrecord
  obtain ⟨feeState, hlookup, hle⟩ := h.feeSource hstate htxs hbids
  have hof := stateOf_of_lookup hlookup
  have hpaid : ∀ x, x = feeState.mTotalFees - tx.getFeeBid → ∀ B,
      (if B = tx.getFeeSourceID then x - (q.stateOf tx.getFeeSourceID).mTotalFees else 0) +
        paidBy B (unpaid ++ [tx]) = paidBy B unpaid := by
    intro x hx B
    rw [hof, paidBy_append, paidBy_cons, paidBy_nil]
    by_cases hB : B = tx.getFeeSourceID
    · subst hB
      rw [if_pos rfl, if_pos rfl]
      omega
    · rw [if_neg hB, if_neg (Ne.symm hB)]
      omega
  unfold releaseFeeMaybeEraseAccountState
  simp only [after_bind, after_get, hlookup, after_ite, after_throw, not_lt.mpr hle]
  refine ⟨False.elim, fun _ => ⟨?_, ?_⟩⟩
  · rintro ⟨hempty, hzero⟩
    -- The record of `A` has transactions, so it is another one that is erased.
    have hFA : tx.getFeeSourceID ≠ A := by
      intro heq
      rw [heq, hstate] at hlookup
      cases hlookup
      exact hne hempty
    refine ⟨h.eraseFees hFA (by rw [hof, hempty]) (hpaid 0 hzero.symm), fees, ?_⟩
    rw [AList.lookup_erase_ne hFA.symm, hstate]
  · intro hkept
    have hwrite := h.writeFees (hpaid _ rfl) fun _ => by
      rw [hof]
      by_cases hempty : feeState.mTransactions = []
      · exact .inr fun hzero => hkept ⟨hempty, hzero⟩
      · exact .inl hempty
    rw [hof] at hwrite
    refine ⟨hwrite, ?_⟩
    by_cases hFA : A = tx.getFeeSourceID
    · subst hFA
      rw [hstate] at hlookup
      cases hlookup
      exact ⟨_, AList.lookup_insert _⟩
    · exact ⟨fees, by rw [AList.lookup_insert_ne hFA, hstate]⟩

theorem stateAt_after {Q : AccountState → TransactionQueue → Prop}
    (h : q.mAccountStates.lookup A = some state) (hQ : Q state q) : After (stateAt A) q Q E := by
  unfold stateAt
  simpa only [after_bind, after_get, h, after_pure] using hQ

/-- One transaction of `A` is taken out of the books. -/
theorem dropTransaction_after (rest : List TransactionFrameBase)
    (h : Books config A txs txs q) (hrecord : HasRecord A state q)
    (htxs : ∀ B, paidBy B txs + paidBy B (tx :: rest) ≤ paidBy B state.mTransactions)
    (hne : state.mTransactions ≠ []) (hbids : ∀ t ∈ tx :: rest, 0 < t.getFeeBid) :
    After (dropTransaction A tx) q
      (fun _ q' => Books config A (txs ++ [tx]) (txs ++ [tx]) q' ∧
        HasRecord A { state with mQueueSizeOps := state.mQueueSizeOps - tx.getNumOperations } q')
      E := by
  obtain ⟨fees, hstate⟩ := hrecord
  have hof := stateOf_of_lookup hstate
  have hcount : Books config A txs (txs ++ [tx])
      { q with
        mAccountStates := q.mAccountStates.insert A { state with
          mTotalFees := fees, mQueueSizeOps := state.mQueueSizeOps - tx.getNumOperations }
        mQueueSizeOps := q.mQueueSizeOps + -tx.getNumOperations } := by
    have hown := h.own
    rw [hof] at hown
    refine h.write (fun B => ?_) ?_ ?_ ?_
    · simp [hof]
    · simp only [numOps_append, numOps_cons, numOps_nil] at hown ⊢
      linarith
    · simp only [numOps_append, numOps_cons, numOps_nil, hof]
      ring
    · exact (h.lined A _ hstate :)
  unfold dropTransaction
  rw [after_bind]
  refine stateAt_after hstate ?_
  refine releaseFee_after hcount ⟨fees, AList.lookup_insert _⟩ htxs hne hbids

/-- The loop of `dropTransactions`. -/
theorem dropLoop_after (h : Books config A [] [] q) (hrecord : HasRecord A state q)
    (htxs : ∀ B, paidBy B txs ≤ paidBy B state.mTransactions)
    (hbids : ∀ t ∈ txs, 0 < t.getFeeBid) (hne : state.mTransactions ≠ []) :
    After (txs.forM (dropTransaction A)) q
      (fun _ q' => Books config A txs txs q' ∧
        HasRecord A { state with mQueueSizeOps := state.mQueueSizeOps - numOps txs } q') E := by
  -- The part of the list that is done is out of the books.
  refine After.forM (I := fun done q => Books config A done done q ∧
    HasRecord A { state with mQueueSizeOps := state.mQueueSizeOps - numOps done } q)
    (fun done tx rest q hdone hq => ?_) ⟨h, by simpa using hrecord⟩
  subst hdone
  refine (dropTransaction_after rest hq.1 hq.2 (fun B => ?_) hne
    fun t ht => hbids t (mem_append_right _ ht)).imp fun _ q' hq' => ⟨hq'.1, ?_⟩
  · simpa using htxs B
  · have hops : state.mQueueSizeOps - numOps (done ++ [tx]) =
        state.mQueueSizeOps - numOps done - tx.getNumOperations := by
      simp only [numOps_append, numOps_cons, numOps_nil]
      ring
    rw [hops]
    exact hq'.2

/-- The transactions that are dropped and those that are kept. -/
theorem paidBy_numOps_split (txs : List TransactionFrameBase) {first last : ℕ}
    (hle : first ≤ last) :
    (∀ B, paidBy B txs = paidBy B ((txs.take last).drop first) +
      paidBy B (txs.take first ++ txs.drop last)) ∧
    numOps txs = numOps ((txs.take last).drop first) +
      numOps (txs.take first ++ txs.drop last) := by
  have hfront : (txs.take last).take first = txs.take first := by
    rw [take_take, min_eq_left hle]
  have hsplit : txs = txs.take first ++ (txs.take last).drop first ++ txs.drop last := by
    rw [← hfront, take_append_drop, take_append_drop]
  refine ⟨fun B => ?_, ?_⟩
  · have hsum := congrArg (paidBy B) hsplit
    simp only [paidBy_append] at hsum ⊢
    linarith
  · have hsum := congrArg numOps hsplit
    simp only [numOps_append] at hsum ⊢
    linarith

/-- Dropping transactions at the front or at the end of the queue of an account. -/
theorem dropTransactions_after {first last : ℕ} (h : Books config A [] [] q)
    (hstate : q.mAccountStates.lookup A = some state) (hne : state.mTransactions ≠ [])
    (hle : first ≤ last)
    (hkept : Lined A (state.mTransactions.take first ++ state.mTransactions.drop last))
    (hage : state.mAge < config.mPendingDepth) :
    After (dropTransactions A first last) q (fun _ q' => Balanced config q') E := by
  obtain ⟨hpaid, hops⟩ := paidBy_numOps_split state.mTransactions hle
  unfold dropTransactions
  rw [after_bind]
  refine stateAt_after hstate ?_
  rw [after_bind]
  generalize hdropped : (state.mTransactions.take last).drop first = dropped at hpaid hops ⊢
  have hbids : ∀ t ∈ dropped, 0 < t.getFeeBid := by
    intro t ht
    rw [← hdropped] at ht
    exact (h.lined A state hstate).feeBid_pos t (take_subset _ _ (drop_subset _ _ ht))
  have hown := h.own
  rw [stateOf_of_lookup hstate, numOps_nil, add_zero] at hown
  refine (dropLoop_after h ⟨state.mTotalFees, hstate⟩ (fun B => ?_) hbids hne).imp ?_
  · have hnonneg := paidBy_nonneg (A := B) hkept.feeBid_pos
    have hB := hpaid B
    omega
  rintro _ q' ⟨hbooks, fees, hstate'⟩
  have hof := stateOf_of_lookup hstate'
  rw [after_bind]
  refine stateAt_after hstate' ?_
  generalize hkeptdef : state.mTransactions.take first ++ state.mTransactions.drop last = kept
    at hpaid hops hkept ⊢
  -- Taking the transactions out of the record closes the books.
  have hwrite : ∀ state' : AccountState, state'.mTotalFees = fees → state'.mTransactions = kept →
      state'.mQueueSizeOps = numOps kept →
      Books config A [] []
        { q' with mAccountStates := q'.mAccountStates.insert A state' } := by
    intro state' hfees htxs hcount
    refine hbooks.write (fun B => ?_) ?_ ?_ ?_
    · have hB := hpaid B
      simp only [hof, htxs, hfees, sub_self, ite_self, paidBy_nil]
      omega
    · rw [htxs, hcount, numOps_nil, add_zero]
    · simp only [hof, htxs, numOps_nil]
      omega
    · rwa [htxs]
  have hcount : state.mQueueSizeOps - numOps dropped = numOps kept := by omega
  simp only [after_ite, setState, eraseState, after_modify]
  refine ⟨fun hempty => ⟨fun hzero => ?_, fun hfees => ?_⟩, fun hmore => ?_⟩
  · have hnone := hwrite {} hzero.symm hempty.symm (by rw [hempty]; rfl)
    exact hnone.balanced_erase
  · exact (hwrite _ rfl rfl hcount).balanced_insert (.inr hfees) (fun _ => rfl)
      config.pendingDepth_pos
  · exact (hwrite _ rfl rfl hcount).balanced_insert (.inl hmore)
      (fun hempty => absurd hempty hmore) hage

end Removing
end DigitalBits.Herder
