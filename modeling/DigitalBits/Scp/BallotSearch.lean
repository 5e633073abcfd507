import DigitalBits.Scp.BallotProtocol

/-!
# The searches of the ballot protocol

Every attempt of the node to move starts with a search over the recorded
statements. This module says what each search returns, and that the candidates
derived from one statement are enough: a ballot that can be accepted prepared is
covered by a candidate that can be accepted too.
-/
namespace DigitalBits.Scp
open Lib LocalNode

/-! ## Federated voting -/

section
variable {scp : SCP} {latest : EnvelopeMap BallotPledges}

variable {voted : BallotPledges → Bool}

/-- What holds of a statement of a quorum that contains a slice of the node. -/
theorem exists_quorum_of_federatedRatify :
    federatedRatify scp latest voted = true ↔
      ∃ u, QuorumOf latest (getQuorumSetFromStatement scp.mDriver) (fun st => voted st.pledges) u ∧
        isQuorumSlice scp.mLocalNode.mQSet u = true :=
  exists_quorumOf_iff

variable {accepted : BallotPledges → Bool}

theorem federatedAccept_iff :
    federatedAccept scp latest voted accepted = true ↔
      isVBlocking scp.mLocalNode.mQSet latest (fun st => accepted st.pledges) = true ∨
      federatedRatify scp latest (fun pl => accepted pl || voted pl) = true := by
  simp only [federatedAccept, SCP.federatedAccept, federatedRatify, SCP.federatedRatify,
    Bool.or_eq_true]

variable {f : BallotPledges → Bool}

/-- What is voted on statements that are kept, at a node with the same quorum set. -/
theorem federatedRatify_transfer {scp' : SCP} {latest' : EnvelopeMap BallotPledges}
    {g : BallotPledges → Bool} (hset : scp'.mLocalNode.mQSet = scp.mLocalNode.mQSet)
    (hfg : ∀ n e, latest.lookup n = some e → f e.statement.pledges = true →
      ∃ e', latest'.lookup n = some e' ∧ g e'.statement.pledges = true ∧
        getQuorumSetFromStatement scp'.mDriver e'.statement =
          getQuorumSetFromStatement scp.mDriver e.statement)
    (h : federatedRatify scp latest f = true) : federatedRatify scp' latest' g = true := by
  unfold federatedRatify SCP.federatedRatify at h ⊢
  rw [hset]
  exact isQuorum_mono hfg h

theorem federatedAccept_transfer {scp' : SCP} {latest' : EnvelopeMap BallotPledges}
    {voted' accepted' : BallotPledges → Bool} (hset : scp'.mLocalNode.mQSet = scp.mLocalNode.mQSet)
    (hkept : ∀ n e, latest.lookup n = some e →
      voted e.statement.pledges = true ∨ accepted e.statement.pledges = true →
      ∃ e', latest'.lookup n = some e' ∧
        (voted e.statement.pledges = true → voted' e'.statement.pledges = true) ∧
        (accepted e.statement.pledges = true → accepted' e'.statement.pledges = true) ∧
        getQuorumSetFromStatement scp'.mDriver e'.statement =
          getQuorumSetFromStatement scp.mDriver e.statement)
    (h : federatedAccept scp latest voted accepted = true) :
    federatedAccept scp' latest' voted' accepted' = true := by
  rw [federatedAccept_iff] at h ⊢
  rw [hset]
  rcases h with h | h
  · refine .inl (isVBlocking_mono ?_ h)
    intro n e he ha
    obtain ⟨e', he', -, ha', -⟩ := hkept n e he (.inr ha)
    exact ⟨e', he', ha' ha⟩
  · refine .inr (federatedRatify_transfer hset ?_ h)
    intro n e he hf
    have hor := Bool.or_eq_true _ _ ▸ hf
    obtain ⟨e', he', hv', ha', hq⟩ := hkept n e he hor.symm
    refine ⟨e', he', ?_, hq⟩
    rw [Bool.or_eq_true]
    exact hor.imp ha' hv'

theorem federatedRatify_mono {g : BallotPledges → Bool}
    (hfg : ∀ n e, latest.lookup n = some e → f e.statement.pledges = true →
      g e.statement.pledges = true) (h : federatedRatify scp latest f = true) :
    federatedRatify scp latest g = true :=
  federatedRatify_transfer rfl (fun n e he hf => ⟨e, he, hfg n e he hf, rfl⟩) h

/-- More support accepts more. -/
theorem federatedAccept_mono {voted' accepted' : BallotPledges → Bool}
    (hvoted : ∀ n e, latest.lookup n = some e → voted e.statement.pledges = true →
      voted' e.statement.pledges = true)
    (haccepted : ∀ n e, latest.lookup n = some e → accepted e.statement.pledges = true →
      accepted' e.statement.pledges = true) (h : federatedAccept scp latest voted accepted = true) :
    federatedAccept scp latest voted' accepted' = true :=
  federatedAccept_transfer rfl
    (fun n e he _ => ⟨e, he, hvoted n e he, haccepted n e he, rfl⟩) h

theorem exists_of_federatedRatify (h : federatedRatify scp latest f = true) :
    ∃ n e, latest.lookup n = some e ∧ f e.statement.pledges = true :=
  exists_of_isQuorum h

/-- Nothing is accepted without support. -/
theorem exists_of_federatedAccept (h : federatedAccept scp latest voted accepted = true) :
    ∃ n e, latest.lookup n = some e ∧
      (voted e.statement.pledges = true ∨ accepted e.statement.pledges = true) := by
  rcases federatedAccept_iff.mp h with h | h
  · obtain ⟨n, e, he, ha⟩ := exists_of_isVBlocking h
    exact ⟨n, e, he, .inr ha⟩
  · obtain ⟨n, e, he, hf⟩ := exists_of_federatedRatify h
    exact ⟨n, e, he, (Bool.or_eq_true _ _ ▸ hf).symm⟩

/-- A statement that a quorum has accepted can be accepted. -/
theorem federatedAccept_of_ratify (h : federatedRatify scp latest accepted = true) :
    federatedAccept scp latest voted accepted = true := by
  rw [federatedAccept_iff]
  refine .inr (federatedRatify_mono ?_ h)
  intro n e _ hf
  simp only [hf, Bool.true_or]

end

/-! ## Prepared ballots -/

section
variable {scp : SCP} {bp : BallotProtocol}

/-- The tests of one pass of the loop of `attemptAcceptPrepared`. -/
def IsAcceptable (scp : SCP) (bp : BallotProtocol) (ballot : SCPBallot) : Prop :=
  mayRaisePrepared bp ballot = .ok true ∧ isAlreadyPrepared bp ballot = false ∧
  federatedAccept scp bp.mLatestEnvelopes (hasVotedPrepare ballot)
    (hasPreparedBallot ballot) = true

variable {ballot : SCPBallot}

theorem mayRaisePrepared_ok_true (h : mayRaisePrepared bp ballot = .ok true)
    (hphase : bp.mPhase = .confirm) : ∃ p ∈ bp.mPrepared, p ≤ ballot ∧ p.value = ballot.value ∧
      ∃ c ∈ bp.mCommit, c.value = ballot.value := by
  rw [mayRaisePrepared, if_pos hphase] at h
  cases hp : bp.mPrepared <;> cases hc : bp.mCommit <;>
    simp only [hp, hc, BallotProtocol.read, bind, Except.bind, pure, Except.pure] at h <;>
    try cases h
  · split_ifs at h; cases h
  · rename_i p c
    split_ifs at h with hle
    · refine ⟨p, rfl, (areBallotsLessAndCompatible_iff.mp hle).1,
        (areBallotsLessAndCompatible_iff.mp hle).2, c, rfl, ?_⟩
      unfold BallotProtocol.require at h
      split_ifs at h with hcomp
      exact areBallotsCompatible_iff.mp hcomp
    · cases h

/-- The searches fail in `CONFIRM` only: on a null pointer, or when a candidate that
would raise `p` is not compatible with `c`. -/
theorem mayRaisePrepared_error {e : Failure} (h : mayRaisePrepared bp ballot = .error e) :
    bp.mPhase = .confirm ∧ (bp.mPrepared = none ∨ bp.mCommit = none ∨
      e = .assertion .acceptPreparedIncompatible ∧ ∃ p ∈ bp.mPrepared, p ≤ ballot ∧
        p.value = ballot.value ∧ ∃ c ∈ bp.mCommit, c.value ≠ ballot.value) := by
  unfold mayRaisePrepared at h
  split_ifs at h with hphase
  · refine ⟨hphase, ?_⟩
    cases hp : bp.mPrepared with
    | none => exact .inl rfl
    | some p =>
      cases hc : bp.mCommit with
      | none => exact .inr (.inl rfl)
      | some c =>
        refine .inr (.inr ?_)
        simp only [hp, hc, BallotProtocol.read, bind, Except.bind, pure, Except.pure] at h
        split_ifs at h with hle
        unfold BallotProtocol.require at h
        split_ifs at h with hcomp
        cases h
        obtain ⟨hle, hv⟩ := areBallotsLessAndCompatible_iff.mp hle
        exact ⟨rfl, p, rfl, hle, hv, c, rfl, fun hcv => hcomp (areBallotsCompatible_iff.mpr hcv)⟩
  · cases h

variable {l : List SCPBallot}

/-- The first acceptable candidate of a list, if there is one. -/
def IsFirst (scp : SCP) (bp : BallotProtocol) (l : List SCPBallot) : Option SCPBallot → Prop
  | none => ∀ b ∈ l, ¬ IsAcceptable scp bp b
  | some ballot => ∃ l₁ l₂, l = l₁ ++ ballot :: l₂ ∧ IsAcceptable scp bp ballot ∧
      ∀ b ∈ l₁, ¬ IsAcceptable scp bp b

theorem IsFirst.cons {b : SCPBallot} {found : Option SCPBallot} (hb : ¬ IsAcceptable scp bp b)
    (h : IsFirst scp bp l found) : IsFirst scp bp (b :: l) found := by
  cases found with
  | none => simpa [IsFirst] using ⟨hb, h⟩
  | some ballot =>
    obtain ⟨l₁, l₂, rfl, hacc, hl₁⟩ := h
    exact ⟨b :: l₁, l₂, rfl, hacc, by simpa using ⟨hb, hl₁⟩⟩

theorem findAcceptPrepared_yields :
    Yields (findAcceptPrepared scp bp l) (IsFirst scp bp l)
      fun e => ∃ b ∈ l, mayRaisePrepared bp b = .error e := by
  induction l with
  | nil => simp [findAcceptPrepared, IsFirst]
  | cons b rest ih =>
    have hskip (hb : ¬ IsAcceptable scp bp b) : Yields (findAcceptPrepared scp bp rest)
        (IsFirst scp bp (b :: rest)) fun e => ∃ c ∈ b :: rest, mayRaisePrepared bp c = .error e :=
      ih.mono (fun _ h => h.cons hb) fun e ⟨c, hc, he⟩ => ⟨c, List.mem_cons_of_mem b hc, he⟩
    rw [findAcceptPrepared, yields_bind]
    cases hraise : mayRaisePrepared bp b with
    | error e => exact ⟨b, List.mem_cons_self, hraise⟩
    | ok raise =>
      simp only [yields_ok, yields_ite, yields_pure]
      refine ⟨fun htrue => ⟨fun hdone => ?_, fun hnew => ⟨fun hacc => ?_, fun hacc => ?_⟩⟩,
        fun hfalse => ?_⟩
      · exact hskip fun hb => by simp [hb.2.1] at hdone
      · exact ⟨[], rest, rfl, ⟨by rw [hraise, htrue], by simpa using hnew, hacc⟩, by simp⟩
      · exact hskip fun hb => hacc hb.2.2
      · exact hskip fun hb => hfalse (by simpa [hraise] using hb.1)

theorem findNewH_some {rest : List SCPBallot} {newH : SCPBallot}
    (h : findNewH scp bp l = some (newH, rest)) :
    ∃ l₁ l₂, l = l₁ ++ newH :: l₂ ∧ rest = newH :: l₂ ∧
      (∀ hb ∈ bp.mHighBallot, hb < newH) ∧
      federatedRatify scp bp.mLatestEnvelopes (hasPreparedBallot newH) = true := by
  induction l with
  | nil => simp [findNewH] at h
  | cons b tail ih =>
    rw [findNewH] at h
    split_ifs at h with hhigh hrat
    · cases h
      refine ⟨[], tail, rfl, rfl, ?_, hrat⟩
      intro hb hmem
      rw [Option.mem_def] at hmem
      simpa [hmem] using hhigh
    · obtain ⟨l₁, l₂, rfl, hr, hlt, hq⟩ := ih h
      exact ⟨b :: l₁, l₂, rfl, hr, hlt, hq⟩

/-- What is known of the lowest ballot of the run: it is default or a ratified
ballot between `b` and `newH`. -/
theorem findNewC_spec {newH : SCPBallot} (l : List SCPBallot) (newC : SCPBallot)
    (hacc : newC = default ∨ bp.mCurrentBallot.getD default ≤ newC ∧ newC ≤ newH ∧
      newC.value = newH.value) :
    findNewC scp bp newH l newC = default ∨
      bp.mCurrentBallot.getD default ≤ findNewC scp bp newH l newC ∧
        findNewC scp bp newH l newC ≤ newH ∧ (findNewC scp bp newH l newC).value = newH.value := by
  induction l generalizing newC with
  | nil => exact hacc
  | cons b rest ih =>
    simp only [findNewC]
    split_ifs with hb hcomp hrat
    · exact hacc
    · refine ih b (.inr ⟨?_, ?_⟩)
      · simpa using hb
      · simpa using hcomp
    · exact hacc
    · exact ih newC hacc

end

/-! ## Candidates are enough -/

section
variable {scp : SCP} {latest : EnvelopeMap BallotPledges} {hint : BallotPledges}

/-- A ballot that can be accepted prepared and lies below a ballot of a recorded
statement is covered by a candidate derived from that statement. -/
theorem exists_prepareCandidate {n : NodeID} {e : BallotEnvelope}
    (hrec : latest.lookup n = some e) (hhint : e.statement.pledges = hint) {topVote : SCPBallot}
    (htop : topVote ∈ hintBallots hint) {m : Uint32} (hm : m ≤ topVote.counter)
    (hacc : federatedAccept scp latest (hasVotedPrepare ⟨m, topVote.value⟩)
      (hasPreparedBallot ⟨m, topVote.value⟩) = true) :
    ∃ k, m ≤ k ∧ ⟨k, topVote.value⟩ ∈ getPrepareCandidates latest hint ∧
      federatedAccept scp latest (hasVotedPrepare ⟨k, topVote.value⟩)
        (hasPreparedBallot ⟨k, topVote.value⟩) = true := by
  -- `k` is the highest counter up to that of `topVote` that can be accepted
  let good : Finset Uint32 := Finset.univ.filter fun k => k ≤ topVote.counter ∧
    federatedAccept scp latest (hasVotedPrepare ⟨k, topVote.value⟩)
      (hasPreparedBallot ⟨k, topVote.value⟩) = true
  have hgood : m ∈ good := by simp [good, hm, hacc]
  obtain ⟨k, hk, hmax⟩ := good.exists_maximal ⟨m, hgood⟩
  have hmem : ∀ {k}, k ∈ good ↔ k ≤ topVote.counter ∧
      federatedAccept scp latest (hasVotedPrepare ⟨k, topVote.value⟩)
        (hasPreparedBallot ⟨k, topVote.value⟩) = true := by simp [good]
  obtain ⟨hle, hkacc⟩ := hmem.mp hk
  refine ⟨k, ?_, ?_, hkacc⟩
  · by_contra hlt
    exact hlt (hmax hgood (not_le.mp hlt).le)
  rcases hle.lt_or_eq with hlt | rfl
  · -- some statement supports `k` and not the counter above it
    by_contra hno
    have hkept : ∀ n e, latest.lookup n = some e →
        ¬ (hasVotedPrepare ⟨k, topVote.value⟩ e.statement.pledges = true ∧
            hasVotedPrepare ⟨k + 1, topVote.value⟩ e.statement.pledges = false ∨
          hasPreparedBallot ⟨k, topVote.value⟩ e.statement.pledges = true ∧
            hasPreparedBallot ⟨k + 1, topVote.value⟩ e.statement.pledges = false) := by
      intro n e he hlost
      exact hno (mem_getPrepareCandidates.mpr
        ⟨topVote, htop, n, e, he, mem_candidatesBelow_of_lost hlt hlost⟩)
    have hnext : k + 1 ∈ good := by
      refine hmem.mpr ⟨?_, federatedAccept_mono ?_ ?_ hkacc⟩
      · rw [← not_lt, uint32_lt_succ_iff (hlt.trans_le (le_uint32Max _))]
        exact not_le.mpr hlt
      · intro n e he hv
        by_contra hn
        exact hkept n e he (.inl ⟨hv, by simpa using hn⟩)
      · intro n e he hp
        by_contra hn
        exact hkept n e he (.inr ⟨hp, by simpa using hn⟩)
    have hback : k + 1 ≤ k := hmax hnext
      (uint32_lt_succ_iff (hlt.trans_le (le_uint32Max _)) |>.mpr le_rfl).le
    exact absurd (eq_uint32Max_of_succ_le hback) (hlt.trans_le (le_uint32Max _)).ne
  · exact mem_getPrepareCandidates.mpr
      ⟨topVote, htop, n, e, hrec, hhint ▸ mem_candidatesBelow_self htop⟩

end

/-! ## Commit intervals -/

/-- An interval found by extension passed the test. -/
theorem findExtendedInterval_spec {pred : Interval → Bool} (l : List Uint32) (cur : Interval)
    (hcur : cur.1 ≠ 0 → pred cur = true ∧ cur.1 ≤ cur.2)
    (h : (findExtendedInterval pred l cur).1 ≠ 0) :
    pred (findExtendedInterval pred l cur) = true ∧
      (findExtendedInterval pred l cur).1 ≤ (findExtendedInterval pred l cur).2 := by
  induction l generalizing cur with
  | nil => exact hcur h
  | cons b rest ih =>
    simp only [findExtendedInterval] at h ⊢
    split_ifs at h ⊢ with h0 hpred hgt hext
    · exact ih _ (fun _ => ⟨hpred, le_rfl⟩) h
    · exact ih _ hcur h
    · exact ih _ hcur h
    · exact ih _ (fun _ => ⟨hext, not_lt.mp hgt⟩) h
    · exact hcur h

theorem hasVotedCommit_congr {b c : SCPBallot} (h : b.value = c.value) :
    hasVotedCommit b = hasVotedCommit c := by
  funext cur pl
  cases pl <;> simp [hasVotedCommit, areBallotsCompatible, h]

theorem commitPredicate_congr {b c : SCPBallot} (h : b.value = c.value) :
    commitPredicate b = commitPredicate c := by
  funext cur pl
  cases pl <;> simp [commitPredicate, areBallotsCompatible, h]

section
variable {scp : SCP} {latest : EnvelopeMap BallotPledges} {ballot : SCPBallot}

theorem findAcceptCommit_spec (h : (findAcceptCommit scp latest ballot).1 ≠ 0) :
    federatedAccept scp latest (hasVotedCommit ballot (findAcceptCommit scp latest ballot))
        (commitPredicate ballot (findAcceptCommit scp latest ballot)) = true ∧
      (findAcceptCommit scp latest ballot).1 ≤ (findAcceptCommit scp latest ballot).2 :=
  findExtendedInterval_spec _ (0, 0) (fun h => absurd rfl h) h

theorem findConfirmCommit_spec (h : (findConfirmCommit scp latest ballot).1 ≠ 0) :
    federatedRatify scp latest
        (commitPredicate ballot (findConfirmCommit scp latest ballot)) = true ∧
      (findConfirmCommit scp latest ballot).1 ≤ (findConfirmCommit scp latest ballot).2 :=
  findExtendedInterval_spec _ (0, 0) (fun h => absurd rfl h) h

end

end DigitalBits.Scp
