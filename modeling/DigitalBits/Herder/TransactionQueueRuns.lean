import DigitalBits.Herder.TransactionQueueBooks

/-!
# The transaction queue over whole runs

Every call leaves the books balanced, whatever ledger it is asked about and in
whatever order the accounts are visited, and none of the assertions fails. So the
sums are exact after any sequence of calls.
-/
namespace DigitalBits.Herder
open List AList

open Lib Ledger QueueM TransactionQueue

variable {config : QueueConfig}

/-! ## Positions -/

section Positions

variable {A : AccountID} {tx : TransactionFrameBase} {txs : List TransactionFrameBase}
  {seq : SequenceNumber}

/-- A position in a queue: that of a transaction with the number, or the one behind the last. -/
structure AtSeq (seq : SequenceNumber) (txs : List TransactionFrameBase) (i : ℕ) : Prop where
  le : i ≤ txs.length
  found : ∀ tx, txs[i]? = some tx → tx.getSeqNum = seq
  behind : i = txs.length → ∀ last, txs.getLast? = some last → seq = last.getSeqNum + 1

/-- The assertions of `findBySeq` hold in a queue with consecutive numbers. -/
theorem findBySeq_yields (h : Lined A txs) :
    Yields (findBySeq seq txs) (fun r => ∀ i, r = some i → AtSeq seq txs i) (fun _ => False) := by
  unfold findBySeq
  cases hhead : txs.head? with
  | none => simp
  | some first =>
    cases hlast : txs.getLast? with
    | none => simp
    | some last =>
      -- The `i`th number is the first one plus `i`.
      have hget : ∀ (i : ℕ) (t : TransactionFrameBase), txs[i]? = some t →
          t.getSeqNum = first.getSeqNum + i := by
        intro i t ht
        refine getElem?_of_isChain h.consecutive ?_ ?_
        · rw [head?_map, hhead]
          rfl
        · rw [getElem?_map, ht]
          rfl
      have hpos : 0 < txs.length := by
        rw [length_pos_iff]
        rintro rfl
        simp at hhead
      have hlastSeq : last.getSeqNum = first.getSeqNum + (txs.length - 1 : ℕ) := by
        refine hget _ last ?_
        rwa [← getLast?_eq_getElem?]
      have hcast : ((txs.length - 1 : ℕ) : ℤ) = txs.length - 1 := by omega
      simp only [yields_ite, yields_pure, yields_throw, reduceCtorEq, IsEmpty.forall_iff,
        implies_true, true_and, Option.some.injEq]
      intro hrange
      rw [not_or, not_lt, not_lt] at hrange
      obtain ⟨k, hk⟩ := Int.eq_ofNat_of_zero_le (sub_nonneg.mpr hrange.1)
      have hnext : int64 (last.getSeqNum + 1) ≤ last.getSeqNum + 1 :=
        int64_le (by linarith [h.seqNum_pos last (mem_of_getLast? hlast)])
      have hkle : (k : ℤ) ≤ txs.length := by linarith [hrange.2]
      rw [hk, Int.toNat_natCast]
      refine ⟨fun hlong => absurd hkle (not_le.mpr hlong), fun _ => ⟨?_, fun hnot => hnot ?_⟩⟩
      · rintro - i rfl
        refine ⟨by exact_mod_cast hkle, fun t ht => ?_, fun hend l hl => ?_⟩
        · linarith [hget _ t ht]
        · rw [hlast] at hl
          cases hl
          linarith
      · by_cases hend : k = txs.length
        · exact .inl hend
        · have hlt : k < txs.length := lt_of_le_of_ne (by exact_mod_cast hkle) hend
          have ht := hget _ _ (getElem?_eq_getElem hlt)
          right
          rw [getElem?_eq_getElem hlt, Option.map_some, ht, ← hk]
          congr 1
          ring

/-- The position from which transactions are banned. -/
theorem firstBanned_yields (h : Lined A txs) (banTxs : List TransactionFrameBase) {txIter : ℕ}
    (hle : txIter ≤ txs.length) :
    Yields (firstBanned txs banTxs txIter) (fun i => i ≤ txs.length) (fun _ => False) := by
  induction banTxs generalizing txIter with
  | nil => exact hle
  | cons tx banTxs ih =>
    have hfind : Yields (findTx tx txs txIter) (fun i => i ≤ txs.length) (fun _ => False) := by
      unfold findTx
      rw [yields_bind]
      refine (findBySeq_yields h).imp fun r hr => ?_
      cases r with
      | none => exact hle
      | some i =>
        simp only [yields_ite, yields_pure]
        exact ⟨fun _ => (hr i rfl).le, fun _ => hle⟩
    have hnext : Yields (findTx tx txs txIter >>= fun i => firstBanned txs banTxs i)
        (fun i => i ≤ txs.length) (fun _ => False) := by
      rw [yields_bind]
      exact hfind.imp fun i hi => ih hi
    unfold firstBanned
    cases txs[txIter]? with
    | none => exact hnext
    | some found =>
      simp only [yields_ite]
      exact ⟨fun _ => hnext, fun _ => ih hle⟩

end Positions

/-! ## The calls that remove transactions -/

section Calls

variable {A : AccountID} {q : TransactionQueue} {E : QueueFailure → TransactionQueue → Prop}

/-- Writing the record of an account with another age. -/
theorem Balanced.withAge {state : AccountState} (h : Balanced config q)
    (hstate : q.mAccountStates.lookup A = some state) (age : ℕ) : Books config A [] []
      { q with mAccountStates := q.mAccountStates.insert A { state with mAge := age } } := by
  have hof := stateOf_of_lookup hstate
  exact (h.books A).write (fun B => by simp [hof]) (by simpa using (h.settled A state hstate).ops)
    (by simp [hof]) (h.lined A state hstate)

theorem removeAppliedOf_after (h : Balanced config q) (appliedTxs : List TransactionFrameBase) :
    After (removeAppliedOf appliedTxs A) q (fun _ q' => Balanced config q') E := by
  unfold removeAppliedOf
  rw [after_bind, after_get]
  cases hstate : q.mAccountStates.lookup A with
  | none => exact h
  | some state =>
    have hlined := h.lined A state hstate
    cases hhead : state.mTransactions.head? with
    | none =>
      simp only [hhead]
      exact h
    | some first =>
      have hne : state.mTransactions ≠ [] := by
        intro hempty
        rw [hempty] at hhead
        cases hhead
      simp only [hhead, after_ite, after_bind, after_ofExcept, after_pure]
      refine ⟨fun _ => ?_, fun _ => h⟩
      refine (findBySeq_yields hlined).mono (fun found _ => ?_) fun _ he => he.elim
      generalize (if found.getD state.mTransactions.length = state.mTransactions.length then
        found.getD state.mTransactions.length
        else found.getD state.mTransactions.length + 1) = txIter
      -- The age is reset before the transactions are dropped.
      refine dropTransactions_after (h.withAge hstate 0) (lookup_insert _) hne (Nat.zero_le _) ?_
        config.pendingDepth_pos
      exact hlined.infix (drop_suffix _ _).isInfix

theorem removeApplied_after (h : Balanced config q) (appliedTxs : List TransactionFrameBase) :
    After (removeApplied appliedTxs) q (fun _ q' => Balanced config q') E := by
  exact After.forM (I := fun _ q => Balanced config q)
    (fun _ A _ q _ hq => removeAppliedOf_after hq appliedTxs) h

/-- The hashes that are banned are in no book. -/
theorem Balanced.congr {q' : TransactionQueue} (h : Balanced config q)
    (hstates : q'.mAccountStates = q.mAccountStates) (hops : q'.mQueueSizeOps = q.mQueueSizeOps) :
    Balanced config q' where
  fees B := by
    have hfees := h.fees B
    rw [feesOf, owed] at hfees ⊢
    rwa [hstates]
  totalOps := by
    have htotal := h.totalOps
    rw [queuedOps] at htotal ⊢
    rwa [hops, hstates]
  lined B state hB := h.lined B state (hstates ▸ hB)
  settled B state hB := h.settled B state (hstates ▸ hB)

theorem banHashes_after {Q : PUnit → TransactionQueue → Prop} (hashes : List Scp.Hash)
    (hQ : ∀ banned, Q ⟨⟩ { q with mBannedTransactions := banned }) :
    After (banHashes hashes) q Q E := by
  unfold banHashes
  rw [after_modify]
  cases hbanned : q.mBannedTransactions with
  | nil => exact hQ q.mBannedTransactions
  | cons front rest => exact hQ _

theorem banOf_after (h : Balanced config q) (banTxs : List TransactionFrameBase) :
    After (banOf banTxs A) q (fun _ q' => Balanced config q') E := by
  unfold banOf
  rw [after_bind, after_get]
  cases hstate : q.mAccountStates.lookup A with
  | none => exact h
  | some state =>
    have hlined := h.lined A state hstate
    simp only [after_ite, after_bind, after_ofExcept, after_pure]
    refine ⟨fun _ => h, fun hne => ?_⟩
    refine (firstBanned_yields hlined _ le_rfl).mono (fun txIter hle => ?_) fun _ he => he.elim
    refine banHashes_after _ fun banned => ?_
    have hbanned : Balanced config { q with mBannedTransactions := banned } := h.congr rfl rfl
    refine dropTransactions_after (hbanned.books A) hstate hne hle ?_
      (h.settled A state hstate).age_lt
    rw [drop_length, append_nil]
    exact hlined.infix ( take_prefix _ _).isInfix

theorem ban_after (h : Balanced config q) (banTxs : List TransactionFrameBase) :
    After (ban banTxs) q (fun _ q' => Balanced config q') E := by
  unfold ban
  rw [after_bind]
  refine banHashes_after _ fun banned => ?_
  exact After.forM (I := fun _ q => Balanced config q)
    (fun _ A _ q _ hq => banOf_after hq banTxs) (h.congr rfl rfl)

/-- The fees of all transactions of an account are released, and they are banned. -/
theorem releaseAll_after (state : AccountState) (h : Books config A [] [] q)
    (hrecord : HasRecord A state q) (hlined : Lined A state.mTransactions)
    (hne : state.mTransactions ≠ []) :
    After (state.mTransactions.forM releaseAndBan) q
      (fun _ q' => Books config A state.mTransactions [] q' ∧ HasRecord A state q') E := by
  refine After.forM (I := fun done q => Books config A done [] q ∧ HasRecord A state q)
    (fun done tx rest q hdone hq => ?_) ⟨h, hrecord⟩
  unfold releaseAndBan
  rw [after_bind]
  have htxs : ∀ B, paidBy B done + paidBy B (tx :: rest) ≤ paidBy B state.mTransactions := by
    intro B
    rw [← hdone, paidBy_append]
  have hbids : ∀ t ∈ tx :: rest, 0 < t.getFeeBid := by
    intro t ht
    refine hlined.feeBid_pos t ?_
    rw [← hdone]
    exact mem_append_right _ ht
  refine (releaseFee_after hq.1 hq.2 htxs hne hbids).imp ?_
  rintro _ q' ⟨hbooks', hrec'⟩
  exact banHashes_after _ fun banned =>
    ⟨⟨hbooks'.fees, hbooks'.totalOps, hbooks'.lined, hbooks'.others, hbooks'.own⟩, hrec'⟩

/-- A visit to an account that is old enough, or younger. -/
theorem shiftOf_after (h : Balanced config q) :
    After (shiftOf config A) q (fun _ q' => Balanced config q') E := by
  unfold shiftOf
  rw [after_bind, after_get]
  cases hstate : q.mAccountStates.lookup A with
  | none => exact h
  | some state =>
    have hlined := h.lined A state hstate
    have hsettled := h.settled A state hstate
    simp only [setState, addQueueSizeOps, eraseState, after_bind, after_modify, after_ite,
      after_pure]
    by_cases hempty : state.mTransactions = []
    · simp only [if_pos hempty]
      have hage : config.mPendingDepth ≠ state.mAge := by
        rw [hsettled.age_zero hempty]
        exact config.pendingDepth_pos.ne'
      refine ⟨fun hold => absurd hold hage, fun _ => ?_⟩
      exact (h.withAge hstate state.mAge).balanced_insert hsettled.needed hsettled.age_zero
        hsettled.age_lt
    · simp only [if_neg hempty]
      refine ⟨fun _ => ?_, fun hage => ?_⟩
      · refine (releaseAll_after { state with mAge := state.mAge + 1 } (h.withAge hstate _)
          ⟨state.mTotalFees, lookup_insert _⟩ hlined hempty).imp ?_
        rintro _ q' ⟨hbooks, fees, hstate'⟩
        have hof' := stateOf_of_lookup hstate'
        have hops : state.mQueueSizeOps = numOps state.mTransactions := hsettled.ops
        -- The transactions leave the record when their fees are released, and with them their
        -- operations.
        have hclear : ∀ state' : AccountState, state'.mTotalFees = fees →
            state'.mTransactions = [] → state'.mQueueSizeOps = 0 →
            Books config A [] []
              { q' with
                mAccountStates := q'.mAccountStates.insert A state'
                mQueueSizeOps := q'.mQueueSizeOps + -state.mQueueSizeOps } := by
          intro state' hfees htxs hcount
          refine hbooks.write (fun B => ?_) ?_ ?_ ?_
          · simp [hof', htxs, hfees]
          · simp [htxs, hcount]
          · simp only [hof', htxs, numOps_nil, hops]
            ring
          · rw [htxs]
            exact lined_nil
        refine stateAt_after hstate' ?_
        refine ⟨fun hzero => (hclear {} hzero.symm rfl rfl).balanced_erase, fun hfees => ?_⟩
        exact (hclear _ rfl rfl rfl).balanced_insert (.inr hfees) (fun _ => rfl)
          config.pendingDepth_pos
      · exact (h.withAge hstate (state.mAge + 1)).balanced_insert (.inl hempty)
          (fun hnil => absurd hnil hempty) (lt_of_le_of_ne hsettled.age_lt fun heq => hage heq.symm)

theorem shift_after (h : Balanced config q) (platform : Platform) :
    After (shift config platform) q (fun _ q' => Balanced config q') E := by
  unfold shift
  exact After.forM (I := fun _ q => Balanced config q) (fun _ A _ q _ hq => shiftOf_after hq)
    (h.congr rfl rfl)

/-! ## Upgrading -/

/-- A converted transaction is the same but for its envelope. -/
theorem convertForV13_keeps (tx : TransactionFrameBase) :
    (convertForV13 config tx).getSourceID = tx.getSourceID ∧
    (convertForV13 config tx).getFeeSourceID = tx.getFeeSourceID ∧
    (convertForV13 config tx).getSeqNum = tx.getSeqNum ∧
    (convertForV13 config tx).getFeeBid = tx.getFeeBid ∧
    (convertForV13 config tx).getNumOperations = tx.getNumOperations := by
  cases tx with
  | tx tx =>
    cases hv : tx.isV0 with
    | true =>
      simp only [convertForV13, hv, if_true]
      exact ⟨rfl, rfl, rfl, rfl, rfl⟩
    | false => simp [convertForV13, hv]
  | feeBump tx => exact ⟨rfl, rfl, rfl, rfl, rfl⟩

theorem upgradeOf_after {state : AccountState} (h : Balanced config q)
    (hstate : q.mAccountStates.lookup A = some state) :
    After (upgradeOf config A) q (fun _ q' => Balanced config q' ∧
      ∀ B, (q.mAccountStates.lookup B).isSome → (q'.mAccountStates.lookup B).isSome) E := by
  have hsettled := h.settled A state hstate
  have hof := stateOf_of_lookup hstate
  have hpaid : ∀ B, paidBy B (state.mTransactions.map (convertForV13 config)) =
      paidBy B state.mTransactions := by
    intro B
    simp [paidBy, Function.comp_def, convertForV13_keeps]
  have hops : numOps (state.mTransactions.map (convertForV13 config)) =
      numOps state.mTransactions := by
    simp [numOps, Function.comp_def, convertForV13_keeps]
  unfold upgradeOf
  rw [after_bind]
  refine stateAt_after hstate ?_
  refine ⟨?_, fun B hB => ?_⟩
  · have hlined : Lined A (state.mTransactions.map (convertForV13 config)) :=
      (h.lined A state hstate).map _ (fun tx => (convertForV13_keeps tx).1)
        (fun tx => (convertForV13_keeps tx).2.2.1) fun tx => (convertForV13_keeps tx).2.2.2.1
    refine ((h.books A).write (fun B => by simp [hof, hpaid]) (by simpa [hops] using hsettled.ops)
      (by simp [hof, hops]) hlined).balanced_insert ?_ ?_ hsettled.age_lt
    · simpa using hsettled.needed
    · simpa using hsettled.age_zero
  · by_cases hBA : B = A
    · subst hBA
      simp
    · simpa [lookup_insert_ne hBA] using hB

theorem upgradeAll_after (h : Balanced config q) {l : List AccountID}
    (hl : ∀ A ∈ l, (q.mAccountStates.lookup A).isSome) :
    After (upgradeAll config l) q (fun _ q' => Balanced config q') E := by
  induction l generalizing q with
  | nil => exact h
  | cons A l ih =>
    obtain ⟨state, hstate⟩ := Option.isSome_iff_exists.mp (hl A mem_cons_self)
    refine (upgradeOf_after h hstate).bind ?_
    rintro replaced q' ⟨hbalanced, hkeeps⟩
    simp only [after_bind, after_pure]
    exact ih hbalanced fun B hB => hkeeps B (hl B (mem_cons_of_mem _ hB))

theorem maybeVersionUpgraded_after (h : Balanced config q) (platform : Platform)
    (lcl : LastClosedLedger) :
    After (maybeVersionUpgraded config platform lcl) q (fun _ q' => Balanced config q') E := by
  unfold maybeVersionUpgraded
  simp only [after_bind, after_get, after_ite, after_set, after_pure]
  have hversion : Balanced config { q with
      mBannedTransactions := q.mBannedTransactions.map fun _ => [],
      mLedgerVersion := lcl.state.header.ledgerVersion } := h.congr rfl rfl
  refine ⟨fun _ => upgradeAll_after hversion fun A hA => ?_, fun _ => h.congr rfl rfl⟩
  have hkeys : A ∈ q.mAccountStates.keys := (platform.mapOrder_perm _).mem_iff.mp hA
  exact lookup_isSome.mpr hkeys

end Calls

/-! ## Adding a transaction -/

section Adding

variable {q : TransactionQueue} {lcl : LastClosedLedger} {upper : ℕ} {tx : TransactionFrameBase}

theorem Balanced.lined_stateOf (h : Balanced config q) (A : AccountID) :
    Lined A (q.stateOf A).mTransactions := by
  cases hstate : q.mAccountStates.lookup A with
  | none => simpa [stateOf, hstate] using lined_nil
  | some state => simpa [stateOf, hstate] using h.lined A state hstate

theorem Balanced.age_stateOf (h : Balanced config q) (A : AccountID) :
    (q.stateOf A).mAge < config.mPendingDepth := by
  cases hstate : q.mAccountStates.lookup A with
  | none => simpa [stateOf, hstate] using config.pendingDepth_pos
  | some state => simpa [stateOf, hstate] using (h.settled A state hstate).age_lt

/-- The sequence numbers of accounts are never negative. -/
def NonnegSeqNums (s : LedgerState) : Prop :=
  ∀ id acc, s.account id = some acc → 0 ≤ acc.data.seqNum

/-- Where a transaction can be added: in place of one with the same number, or as the next one. -/
def Fits (tx : TransactionFrameBase) (txs : List TransactionFrameBase) (i : ℕ) : Prop :=
  (∃ old, txs[i]? = some old ∧ tx.getSeqNum = old.getSeqNum) ∨
  txs[i]? = none ∧ 0 < tx.getSeqNum ∧
    ∀ last, txs.getLast? = some last → tx.getSeqNum = last.getSeqNum + 1

/-- What is known of a placement if the transaction is valid after the number it names. -/
def Placed (tx : TransactionFrameBase) (txs : List TransactionFrameBase) :
    Except AddOutcome Placement → Prop
  | .error outcome => outcome.status ≠ .pending
  | .ok place => ∀ n, 0 ≤ n →
    tx.getSeqNum = (if place.seqNum = 0 then n else place.seqNum) + 1 → Fits tx txs place.oldTxIter

theorem placeIn_yields {txs : List TransactionFrameBase} {A : AccountID} (h : Lined A txs) :
    Yields (placeIn tx txs) (Placed tx txs) (fun e => ∃ e', e = .thrown e') := by
  unfold placeIn
  cases hlast : txs.getLast? with
  | none =>
    have hempty := getLast?_eq_none_iff.mp hlast
    subst hempty
    intro n hn hseq
    refine .inr ⟨rfl, ?_, by simp⟩
    rw [if_pos rfl] at hseq
    linarith
  | some last =>
    have hpos : 0 < last.getSeqNum := h.seqNum_pos last (mem_of_getLast? hlast)
    have hnext : tx.getSeqNum = last.getSeqNum + 1 → ∀ i, txs[i]? = none → Fits tx txs i := by
      refine fun hseq i hi => .inr ⟨hi, by linarith, fun last' hlast' => ?_⟩
      rw [hlast] at hlast'
      cases hlast'
      exact hseq
    cases tx with
    | tx tx =>
      simp only [yields_bind, yields_ite, yields_pure]
      refine (findBySeq_yields h).mono (fun found _ => ?_) fun _ he => he.elim
      refine ⟨fun _ => by simp [Placed], fun _ n _ hseq => ?_⟩
      rw [if_neg hpos.ne'] at hseq
      exact hnext hseq _ (by simp)
    | feeBump tx =>
      simp only [yields_bind]
      refine (findBySeq_yields h).mono (fun found hfound => ?_) fun _ he => he.elim
      cases found with
      | none => simp [Placed]
      | some i =>
        have hat := hfound i rfl
        cases hold : txs[i]? with
        | none =>
          simp only [hold, yields_pure]
          have hend : i = txs.length := le_antisymm hat.le (getElem?_eq_none_iff.mp hold)
          exact fun n _ _ => hnext (hat.behind hend last hlast) i hold
        | some old =>
          simp only [hold, yields_ite, yields_pure]
          refine ⟨fun _ => by simp [Placed], fun _ => ?_⟩
          cases canReplaceByFee (.feeBump tx) old with
          | error e => exact ⟨e, rfl⟩
          | ok minFee =>
            cases minFee with
            | some minFee => simp [Placed]
            | none => exact fun n _ _ => .inl ⟨old, hold, (hat.found old hold).symm⟩

theorem validBalance_yields {seqNum : SequenceNumber} :
    Yields (validBalance config lcl upper seqNum tx)
      (fun r => ∀ available, r = .ok available → Acceptable lcl.state seqNum tx)
      (fun _ => True) := by
  have hafter : After (tx.checkValid config.crypto seqNum 0 upper) { lcl.state with }
      (fun code _ => code = none → Acceptable lcl.state seqNum tx)
      (fun _ _ => ¬ WellReserved lcl.state) := TransactionFrameBase.checkValid_after
  unfold validBalance
  rw [yields_ask, after_bind]
  refine hafter.mono (fun code t hcode => ?_) fun _ _ _ => trivial
  cases code with
  | some code => simp
  | none => exact After.of_forall (fun _ _ _ _ => hcode rfl) fun _ _ => trivial

/-- How a call may fail that leaves the books balanced. -/
def Failed (config : QueueConfig) (e : QueueFailure) (q : TransactionQueue) : Prop :=
  Balanced config q ∧ ∃ e', e = .thrown e'

theorem canAdd_after (h : Balanced config q) (hledger : NonnegSeqNums lcl.state) :
    After (canAdd config lcl upper tx) q
      (fun r q' => Balanced config q' ∧
        (r.1.status = .pending → q' = q ∧ Fits tx (q.stateOf tx.getSourceID).mTransactions r.2))
      (Failed config) := by
  unfold canAdd
  simp only [after_bind, after_get, after_ite, after_pure, after_ofExcept]
  refine ⟨fun _ => ⟨h, by simp⟩, fun _ => ⟨fun _ => ⟨h, by simp⟩, fun _ => ?_⟩⟩
  have htxs : ((q.mAccountStates.lookup tx.getSourceID).map (·.mTransactions)).getD [] =
      (q.stateOf tx.getSourceID).mTransactions := by
    unfold stateOf
    cases q.mAccountStates.lookup tx.getSourceID <;> rfl
  rw [htxs]
  refine (placeIn_yields (h.lined_stateOf tx.getSourceID)).mono (fun r hfits => ?_) fun e he => ⟨h, he⟩
  cases r with
  | error outcome => exact ⟨h, fun hpending => absurd hpending hfits⟩
  | ok place =>
    simp only [after_ite, after_bind, after_pure]
    refine ⟨fun _ => (ban_after h [tx]).mono (fun _ q' hq' => ⟨hq', by simp⟩) fun _ _ he => he,
      fun _ => ?_⟩
    have hvalid : Yields (validBalance config lcl upper place.seqNum tx)
        (fun r => ∀ available, r = .ok available → Acceptable lcl.state place.seqNum tx)
        (fun _ => True) := validBalance_yields
    cases hrun : validBalance config lcl upper place.seqNum tx with
    | error e => exact ⟨h, e, rfl⟩
    | ok r =>
      cases r with
      | error code => exact ⟨h, by simp⟩
      | ok available =>
        simp only [after_ite, after_pure]
        refine ⟨fun _ => ⟨h, by simp⟩, fun _ => ⟨h, fun _ => ⟨trivial, ?_⟩⟩⟩
        obtain ⟨acc, hacc, hseq⟩ := (hvalid.of_ok hrun available rfl).next
        exact hfits acc.data.seqNum (hledger _ acc hacc) hseq

/-- The queue with the new transaction in its place, which is not in the books yet. -/
structure Entered (config : QueueConfig) (tx : TransactionFrameBase) (q : TransactionQueue) :
    Prop where
  record : ∃ state, q.mAccountStates.lookup tx.getSourceID = some state ∧
    tx ∈ state.mTransactions ∧ state.mAge < config.mPendingDepth
  books : 0 < tx.getFeeBid → Books config tx.getSourceID [tx] [tx] q

theorem Entered.of_insert {state : AccountState} {n : ℤ} (hmem : tx ∈ state.mTransactions)
    (hage : state.mAge < config.mPendingDepth)
    (hbooks : 0 < tx.getFeeBid → Books config tx.getSourceID [tx] [tx]
      { q with
        mAccountStates := q.mAccountStates.insert tx.getSourceID state, mQueueSizeOps := n }) :
    Entered config tx
      { q with
        mAccountStates := q.mAccountStates.insert tx.getSourceID state, mQueueSizeOps := n } :=
  ⟨⟨state, lookup_insert _, hmem, hage⟩, hbooks⟩

theorem replaceOrAppend_after (h : Balanced config q) {i : ℕ}
    (hfits : Fits tx (q.stateOf tx.getSourceID).mTransactions i) :
    After (replaceOrAppend tx i (q.stateOf tx.getSourceID)) q (fun _ q' => Entered config tx q')
      (Failed config) := by
  have hown := (h.books tx.getSourceID).own
  have hlined := h.lined_stateOf tx.getSourceID
  have hage := h.age_stateOf tx.getSourceID
  generalize hof : q.stateOf tx.getSourceID = state at hfits hown hlined hage
  rw [numOps_nil, add_zero] at hown
  have hbooks : Books config tx.getSourceID [] []
      { q with mAccountStates := q.mAccountStates.insert tx.getSourceID state } :=
    (h.books tx.getSourceID).write (fun B => by simp [hof]) (by simpa using hown) (by simp [hof])
      hlined
  unfold replaceOrAppend
  rw [after_bind, setState, after_modify]
  rcases hfits with ⟨old, hold, hseq⟩ | ⟨hend, hpos, hnext⟩
  · have hmem : old ∈ state.mTransactions := mem_of_getElem? hold
    have hle : ∀ B, paidBy B [] + paidBy B [old] ≤ paidBy B state.mTransactions := by
      intro B
      rw [paidBy_nil, zero_add]
      exact paidBy_le_of_mem hlined.feeBid_pos hmem
    simp only [hold]
    refine (releaseFee_after hbooks ⟨state.mTotalFees, lookup_insert _⟩ hle
      (ne_nil_of_mem hmem) (by simpa using hlined.feeBid_pos old hmem)).bind ?_
    rintro _ q' ⟨hbooks', fees, hstate'⟩
    have hof' := stateOf_of_lookup hstate'
    rw [after_bind]
    refine stateAt_after hstate' ?_
    obtain ⟨hi, _⟩ := List.getElem?_eq_some_iff.mp hold
    refine .of_insert (mem_set hi tx) hage fun hbid => ?_
    refine hbooks'.write (fun B => ?_) ?_ ?_ (hlined.set hold rfl hseq hbid)
    · simp only [hof', sub_self, ite_self, nil_append, paidBy_set hold]
      ring
    · simp only [numOps_set hold, numOps_cons, numOps_nil, hown]
      ring
    · simp only [hof', numOps_set hold, numOps_cons, numOps_nil]
      ring
  · simp only [hend]
    have hof' : TransactionQueue.stateOf
        { q with mAccountStates := q.mAccountStates.insert tx.getSourceID state }
        tx.getSourceID = state := stateOf_of_lookup (lookup_insert _)
    refine .of_insert (mem_append_right _ mem_cons_self) hage fun hbid => ?_
    refine hbooks.write (fun B => ?_) ?_ ?_ (hlined.concat rfl hpos hnext hbid)
    · simp only [hof', sub_self, ite_self, paidBy_append, paidBy_nil]
      ring
    · simp only [numOps_append, hown]
    · simp only [hof', numOps_append, numOps_nil]
      ring

/-- The queue with the fee of a transaction in the books. -/
def TransactionQueue.withFee (q : TransactionQueue) (tx : TransactionFrameBase) :
    TransactionQueue :=
  let feeState := q.stateOf tx.getFeeSourceID
  let feeState' := { feeState with mTotalFees := feeState.mTotalFees + tx.getFeeBid }
  { q with mAccountStates := q.mAccountStates.insert tx.getFeeSourceID feeState' }

theorem HasRecord.withFee {state : AccountState} (h : HasRecord tx.getSourceID state q) :
    HasRecord tx.getSourceID state (q.withFee tx) := by
  obtain ⟨fees, hstate⟩ := h
  unfold HasRecord TransactionQueue.withFee
  by_cases hsame : tx.getSourceID = tx.getFeeSourceID
  · simp only [← hsame, lookup_insert, stateOf_of_lookup hstate]
    exact ⟨_, rfl⟩
  · simp only [lookup_insert_ne hsame, hstate]
    exact ⟨fees, rfl⟩

/-- When the fee of the new transaction is counted, the books are closed. -/
theorem Books.balanced_withFee {state : AccountState}
    (h : Books config tx.getSourceID [tx] [] q) (hrecord : HasRecord tx.getSourceID state q)
    (hmem : tx ∈ state.mTransactions) (hage : state.mAge < config.mPendingDepth) :
    Balanced config (q.withFee tx) := by
  have hrecord' := hrecord.withFee
  obtain ⟨fees, hstate⟩ := hrecord
  have hfeeOwed : (q.stateOf tx.getFeeSourceID).mTotalFees + tx.getFeeBid =
      q.owed tx.getFeeSourceID := by
    have hfees := h.fees tx.getFeeSourceID
    rwa [feesOf, part_eq_stateOf rfl, paidBy_cons, if_pos rfl, paidBy_nil, add_zero] at hfees
  have hlined := h.lined _ _ hstate
  have hpos : 0 < q.owed tx.getFeeSourceID := by
    have hone := paidBy_le_of_mem (A := tx.getFeeSourceID) hlined.feeBid_pos hmem
    have hall := h.paidBy_le_owed (B := tx.getFeeSourceID) hstate
    rw [paidBy_cons, if_pos rfl, paidBy_nil, add_zero] at hone
    exact (hlined.feeBid_pos tx hmem).trans_le (hone.trans hall)
  have hclosed : Books config tx.getSourceID [] [] (q.withFee tx) := by
    refine h.writeFees (fun B => ?_) fun _ => .inr (by rw [hfeeOwed]; exact hpos.ne')
    by_cases hB : B = tx.getFeeSourceID
    · subst hB
      simp
    · simp [hB, Ne.symm hB]
  obtain ⟨fees', hstate'⟩ := hrecord'
  refine hclosed.balanced fun s hs => ?_
  rw [hstate'] at hs
  cases hs
  have hne := ne_nil_of_mem hmem
  exact ⟨.inl hne, fun hempty => absurd hempty hne, hage⟩

theorem countTransaction_after (h : Entered config tx q) :
    After (countTransaction tx) q
      (fun _ q' => tx ∈ q'.queued ∧ (0 < tx.getFeeBid → Balanced config q')) (Failed config) := by
  obtain ⟨state, hstate, hmem, hage⟩ := h.record
  unfold countTransaction
  rw [after_bind]
  refine stateAt_after hstate ?_
  have hcounted : 0 < tx.getFeeBid → Books config tx.getSourceID [tx] []
      { q with
        mAccountStates := q.mAccountStates.insert tx.getSourceID
          { state with mQueueSizeOps := state.mQueueSizeOps + tx.getNumOperations }
        mQueueSizeOps := q.mQueueSizeOps + tx.getNumOperations } := by
    intro hbid
    have hbooks := h.books hbid
    have hown := hbooks.own
    have hof := stateOf_of_lookup hstate
    rw [hof, numOps_cons, numOps_nil, add_zero] at hown
    refine hbooks.write (fun B => by simp [hof]) ?_ ?_ (hbooks.lined _ state hstate)
    · rwa [numOps_nil, add_zero]
    · simp [hof]
  have hrecord : HasRecord tx.getSourceID
      { state with mQueueSizeOps := state.mQueueSizeOps + tx.getNumOperations }
      { q with
        mAccountStates := q.mAccountStates.insert tx.getSourceID
          { state with mQueueSizeOps := state.mQueueSizeOps + tx.getNumOperations }
        mQueueSizeOps := q.mQueueSizeOps + tx.getNumOperations } :=
    ⟨state.mTotalFees, lookup_insert _⟩
  obtain ⟨fees, hstate'⟩ := hrecord.withFee
  exact ⟨mem_queued.mpr ⟨_, _, hstate', hmem⟩,
    fun hbid => (hcounted hbid).balanced_withFee hrecord hmem hage⟩

theorem tryAdd_after (h : Balanced config q) (hledger : NonnegSeqNums lcl.state) :
    After (tryAdd config lcl upper tx) q
      (fun _ q' => ((∀ t ∈ q'.queued, 0 < t.getFeeBid) → Balanced config q')) (Failed config) := by
  refine (canAdd_after h hledger).bind ?_
  rintro ⟨outcome, i⟩ q' ⟨hbalanced, hpending⟩
  simp only [after_ite, after_bind, after_get, after_pure]
  refine ⟨fun hstatus => ?_, fun _ _ => hbalanced⟩
  obtain ⟨rfl, hfits⟩ := hpending hstatus
  refine (replaceOrAppend_after h hfits).imp fun _ q1 hentered => ?_
  refine (countTransaction_after hentered).imp ?_
  rintro _ q2 ⟨hmem, hbalanced'⟩ hbids
  exact hbalanced' (hbids tx hmem)

end Adding

/-! ## Runs -/

/-- What the records say is what is in the queue. -/
structure Exact (config : QueueConfig) (q : TransactionQueue) : Prop where
  present : ∀ A, A ∈ q.mAccountStates ↔
    ∃ tx ∈ q.queued, tx.getSourceID = A ∨ tx.getFeeSourceID = A
  totalFees : ∀ A state, q.mAccountStates.lookup A = some state →
    state.mTotalFees = paidBy A q.queued
  accountOps : ∀ A state, q.mAccountStates.lookup A = some state →
    state.mQueueSizeOps = numOps state.mTransactions
  queueOps : q.mQueueSizeOps = numOps q.queued
  sources : ∀ A state, q.mAccountStates.lookup A = some state →
    ∀ tx ∈ state.mTransactions, tx.getSourceID = A
  consecutive : ∀ A state, q.mAccountStates.lookup A = some state →
    (state.mTransactions.map TransactionFrameBase.getSeqNum).IsChain fun n n' => n' = n + 1
  age_zero : ∀ A state, q.mAccountStates.lookup A = some state →
    state.mTransactions = [] → state.mAge = 0
  age_lt : ∀ A state, q.mAccountStates.lookup A = some state → state.mAge < config.mPendingDepth

section Runs

variable {q : TransactionQueue}

/-- An account that pays for a queued transaction owes something. -/
theorem Balanced.lookup_feeSource (h : Balanced config q) {tx : TransactionFrameBase}
    (htx : tx ∈ q.queued) : ∃ state, q.mAccountStates.lookup tx.getFeeSourceID = some state := by
  obtain ⟨A, state, hstate, hmem⟩ := mem_queued.mp htx
  have hlined := h.lined A state hstate
  have hle : ∀ B, paidBy B [] + paidBy B [tx] ≤ paidBy B state.mTransactions := by
    intro B
    rw [paidBy_nil, zero_add]
    exact paidBy_le_of_mem hlined.feeBid_pos hmem
  obtain ⟨feeState, hfee, _⟩ := (h.books A).feeSource hstate hle
    (by simpa using hlined.feeBid_pos tx hmem)
  exact ⟨feeState, hfee⟩

theorem exists_paid_of_ne_zero {A : AccountID} {txs : List TransactionFrameBase}
    (h : paidBy A txs ≠ 0) : ∃ tx ∈ txs, tx.getFeeSourceID = A := by
  by_contra hnone
  push Not at hnone
  refine h (sum_eq_zero fun x hx => ?_)
  obtain ⟨tx, htx, rfl⟩ := mem_map.mp hx
  exact if_neg (hnone tx htx)

theorem Balanced.exact (h : Balanced config q) : Exact config q where
  present A := by
    rw [← lookup_isSome, Option.isSome_iff_exists]
    refine ⟨?_, ?_⟩
    · rintro ⟨state, hstate⟩
      rcases (h.settled A state hstate).needed with hne | hfees
      · obtain ⟨tx, htx⟩ := exists_mem_of_ne_nil _ hne
        exact ⟨tx, mem_queued.mpr ⟨A, state, hstate, htx⟩, .inl ((h.lined A state hstate).source tx htx)⟩
      · have howed : paidBy A q.queued ≠ 0 := by
          rwa [← owed_eq, ← h.fees A, feesOf, Store.part_of_lookup hstate]
        obtain ⟨tx, htx, hpays⟩ := exists_paid_of_ne_zero howed
        exact ⟨tx, htx, .inr hpays⟩
    · rintro ⟨tx, htx, rfl | rfl⟩
      · obtain ⟨A, state, hstate, hmem⟩ := mem_queued.mp htx
        rw [(h.lined A state hstate).source tx hmem]
        exact ⟨state, hstate⟩
      · exact h.lookup_feeSource htx
  totalFees A state hstate := by
    rw [← owed_eq, ← h.fees A, feesOf, Store.part_of_lookup hstate]
  accountOps A state hstate := (h.settled A state hstate).ops
  queueOps := by rw [← queuedOps_eq, h.totalOps]
  sources A state hstate := (h.lined A state hstate).source
  consecutive A state hstate := (h.lined A state hstate).consecutive
  age_zero A state hstate := (h.settled A state hstate).age_zero
  age_lt A state hstate := (h.settled A state hstate).age_lt

theorem balanced_new (banDepth ledgerVersion : ℕ) :
    Balanced config (.new banDepth ledgerVersion) where
  fees B := rfl
  totalOps := rfl
  lined B state hB := by cases hB
  settled B state hB := by cases hB

/-- A call is asked about a ledger that may be: no account has a negative sequence number. -/
def QueueCall.OnLedger : QueueCall → Prop
  | tryAdd lcl _ _ => NonnegSeqNums lcl.state
  | _ => True

/-- The queues that come up. A call may fail, and the next one finds what it left. The bids of the
transactions that are queued are positive. -/
inductive QueueReached (config : QueueConfig) : TransactionQueue → Prop
  | new (banDepth ledgerVersion : ℕ) : QueueReached config (.new banDepth ledgerVersion)
  | call {q : TransactionQueue} (c : QueueCall) : QueueReached config q → c.OnLedger →
    (∀ tx ∈ (finalState (c.run config) q).queued, 0 < tx.getFeeBid) →
    QueueReached config (finalState (c.run config) q)

theorem QueueCall.run_after (h : Balanced config q) {c : QueueCall} (hc : c.OnLedger) :
    After (c.run config) q
      (fun _ q' => (∀ tx ∈ q'.queued, 0 < tx.getFeeBid) → Balanced config q') (Failed config) := by
  cases c with
  | tryAdd lcl upper tx =>
    simp only [QueueCall.run, after_bind, after_pure]
    exact tryAdd_after h hc
  | removeApplied appliedTxs =>
    exact (removeApplied_after h appliedTxs).imp fun _ _ hq' _ => hq'
  | ban banTxs => exact (ban_after h banTxs).mono (fun _ _ hq' _ => hq') fun _ _ he => he
  | shift platform => exact (shift_after h platform).mono (fun _ _ hq' _ => hq') fun _ _ he => he
  | maybeVersionUpgraded platform lcl =>
    simp only [QueueCall.run, after_bind, after_pure]
    exact (maybeVersionUpgraded_after h platform lcl).imp fun _ _ hq' _ => hq'

theorem QueueReached.balanced (h : QueueReached config q) : Balanced config q := by
  induction h with
  | new banDepth ledgerVersion => exact balanced_new banDepth ledgerVersion
  | @call q c _ hc hbids ih =>
    have hrun := QueueCall.run_after ih hc
    rcases ends_finalState (c.run config) q with ⟨_, hok⟩ | ⟨e, herror⟩
    · exact hrun.of_ok hok hbids
    · exact (hrun.of_error herror).1

end Runs

/-- After any sequence of calls the records are exact, and a call that fails does so because of
what the transaction or the ledger throws: no assertion on the books fails, and no record is used
after it was erased. -/
theorem queue_books_exact (config : QueueConfig) (q : TransactionQueue)
    (h : QueueReached config q) :
    Exact config q ∧ ∀ c : QueueCall, c.OnLedger → ∀ e,
      failure (c.run config) q = some e → ∃ e', e = .thrown e' := by
  refine ⟨h.balanced.exact, fun c hc e he => ?_⟩
  have hrun := QueueCall.run_after h.balanced hc
  unfold Lib.failure at he
  cases hm : c.run config q with
  | ok a t => simp [hm] at he
  | error e' t =>
    simp only [hm, Option.some.injEq] at he
    subst he
    exact (hrun.of_error hm).2

/-! ## A transaction that another account pays for -/

namespace PaidQueue

def sourceID : AccountID := 1
def payerID : AccountID := 2

def smallConfig : QueueConfig where
  mPendingDepth := 4
  pendingDepth_pos := by decide
  mPoolLedgerMultiplier := 2
  mFilteredTypes := []
  crypto := { verifyHashX := fun _ _ => true, verify := fun _ _ _ => true }
  envelopeHash := fun _ => 0

/-- A ledger with the account that has the sequence number and the one that pays. -/
def ledger : LastClosedLedger where
  hash := 5
  state :=
    { entries := ((∅ : AList InternalLedgerKey.Entry).insert (accountKey sourceID)
        ⟨{ balance := 700, seqNum := 5 }, .v0⟩).insert (accountKey payerID)
        ⟨{ balance := 900, seqNum := 0 }, .v0⟩
      header := ⟨15, 0, 2, 1600, 0, 0, 0, 100, 0, 100⟩ }

def paidTx : TransactionFrameBase :=
  .feeBump ⟨9, 10, payerID, 400,
    ⟨false, false, 7, 8, sourceID, 100, 6, none, [⟨none, .bumpSequence 0⟩], [⟨[], []⟩]⟩, [⟨[], []⟩]⟩

/-- The queue after the transaction was added. -/
def queue : TransactionQueue := finalState ((QueueCall.tryAdd ledger 0 paidTx).run smallConfig) (.new 10 15)

theorem nonnegSeqNums_ledger : NonnegSeqNums ledger.state := by
  intro id acc hacc
  have hmem : (⟨accountKey id, acc⟩ : Sigma InternalLedgerKey.Entry) ∈
      ledger.state.entries.entries := mem_lookup_iff.mp hacc
  rw [ledger, entries_insert, mem_cons] at hmem
  rcases hmem with heq | hmem
  · cases heq
    decide
  · have hsource := (kerase_sublist _ _).subset hmem
    rw [entries_insert, mem_cons] at hsource
    rcases hsource with heq | hnone
    · cases heq
      decide
    · simp at hnone

end PaidQueue

open PaidQueue in
/-- The transaction is queued, and both accounts have exact records. -/
theorem paid_queue_exact : queue.queued = [paidTx] ∧ Exact smallConfig queue := by
  have hqueued : queue.queued = [paidTx] := by decide +kernel
  refine ⟨hqueued, (queue_books_exact smallConfig queue ?_).1⟩
  refine .call (.tryAdd ledger 0 paidTx) (.new 10 15) nonnegSeqNums_ledger fun tx htx => ?_
  have hmem : tx ∈ queue.queued := htx
  rw [hqueued, mem_singleton] at hmem
  rw [hmem]
  decide

end DigitalBits.Herder
