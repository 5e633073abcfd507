import DigitalBits.Lib.BallotVoting
import DigitalBits.Scp.Network

/-!
# What nodes say, as votes on ballots

The ballots a node holds and the statements it signs are read as votes in the
sense of `Lib.Votes`. A `CONFIRM` or `EXTERNALIZE` statement counts as an accepted
commit only: its other fields are consequences that no proof relies on. Federated
voting at a node that the ill-behaved nodes have not captured turns recorded
statements into evidence.
-/
namespace DigitalBits.Scp
open Lib LocalNode SCPBallot

/-- The votes of node `v` when it is in a given state. -/
def BallotProtocol.ownVotes (bp : BallotProtocol) (v : NodeID) : Votes NodeID SCPBallot where
  votedPrepare w d := w = v ∧ bp.mPhase = .prepare ∧ d ≤ bp.mCurrentBallot.getD default ∧
    d.value = (bp.mCurrentBallot.getD default).value
  acceptedPrepare w d := w = v ∧
    ∃ p, (p ∈ bp.mPrepared ∨ p ∈ bp.mPreparedPrime) ∧ d ≤ p ∧ d.value = p.value
  votedCommit w d := w = v ∧ bp.mPhase = .prepare ∧
    ∃ c ∈ bp.mCommit, ∃ h ∈ bp.mHighBallot, c ≤ d ∧ d ≤ h ∧ d.value = c.value
  acceptedCommit w d := w = v ∧ bp.mPhase ≠ .prepare ∧ bp.mCommit = some d

/-- The votes behind a statement of `v`. -/
def Claims (F : Votes NodeID SCPBallot) (v : NodeID) : BallotPledges → Prop
  | .prepare p =>
    (∀ d, d ≤ p.ballot → d.value = p.ballot.value → F.votedPrepare v d) ∧
    (∀ q, q ∈ p.prepared ∨ q ∈ p.preparedPrime → F.acceptedPrepare v q) ∧
    (p.nC ≠ 0 → ∀ n, p.nC ≤ n → n ≤ p.nH → F.votedCommit v ⟨n, p.ballot.value⟩)
  | .confirm c => F.acceptedCommit v ⟨c.nCommit, c.ballot.value⟩
  | .externalize e => F.acceptedCommit v e.commit

section
variable {F G : Votes NodeID SCPBallot} {v : NodeID} {pl : BallotPledges}

theorem Claims.mono (h : F.Le G) (hpl : Claims F v pl) : Claims G v pl := by
  cases pl with
  | prepare p =>
    obtain ⟨hvp, hap, hvc⟩ := hpl
    exact ⟨fun d hle hv => h.votedPrepare_le v d (hvp d hle hv),
      fun q hq => h.acceptedPrepare_le v q (hap q hq),
      fun hne n h1 h2 => h.votedCommit_le v _ (hvc hne n h1 h2)⟩
  | confirm c | externalize e => exact h.acceptedCommit_le v _ hpl

/-- The statement a node makes claims what the node says. -/
theorem claims_of_ownVotes {bp : BallotProtocol} (hbp : bp.Consistent)
    (hF : (bp.ownVotes v).Le F) {hash : Hash}
    (hpl : bp.pledges hash bp.mPhase.statementType = .ok pl) : Claims F v pl := by
  have hcommit := hbp.told hpl
  cases pl with
  | confirm x | externalize x =>
    exact hF.acceptedCommit_le v _ ⟨rfl, by simp [hcommit.1], hcommit.2⟩
  | prepare p =>
    have hphase : bp.mPhase = .prepare := hcommit
    rw [hphase] at hpl
    cases hpl
    refine ⟨fun d hle hv => hF.votedPrepare_le v d ⟨rfl, hphase, hle, hv⟩,
      fun q hq => hF.acceptedPrepare_le v q ⟨rfl, q, hq, le_rfl, rfl⟩, ?_⟩
    intro hne n h1 h2
    cases hc : bp.mCommit with
    | none => simp [hc] at hne
    | some c =>
      obtain ⟨h, hh, -, hv⟩ := hbp.commit c hc
      obtain ⟨b, hb, -, hv'⟩ := hbp.high h hh
      rw [Option.mem_def] at hh hb
      simp only [hc, hh, hb, Option.map_some, Option.getD_some] at h1 h2 ⊢
      refine hF.votedCommit_le v _ ⟨rfl, hphase, c, hc, h, hh, ?_, ?_, ?_⟩
      · exact (le_mk_iff (hv.trans hv')).mpr h1
      · exact (mk_le_iff hv'.symm).mpr h2
      · exact (hv.trans hv').symm

variable {quorums : Set (Set NodeID)} (hsafe : F.Safe value quorums)

include hsafe in
theorem Claims.preparedBySome (hpl : Claims F v pl) {b : SCPBallot}
    (hb : hasPreparedBallot b pl = true) : F.PreparedBySome value b := by
  cases pl with
  | prepare p =>
    simp only [hasPreparedBallot, Bool.or_eq_true, Option.any_eq_true,
      areBallotsLessAndCompatible_iff] at hb
    obtain ⟨q, hq, hle, hv⟩ | ⟨q, hq, hle, hv⟩ := hb
    · exact .inl ⟨v, hsafe.prepare_down v q b (hpl.2.1 q (.inl hq)) hle hv⟩
    · exact .inl ⟨v, hsafe.prepare_down v q b (hpl.2.1 q (.inr hq)) hle hv⟩
  | confirm c =>
    simp only [hasPreparedBallot, areBallotsLessAndCompatible_iff] at hb
    exact .inr ⟨v, _, hpl, hb.2.symm⟩
  | externalize e =>
    simp only [hasPreparedBallot, areBallotsCompatible_iff] at hb
    exact .inr ⟨v, _, hpl, hb.symm⟩

theorem Claims.votedPrepare (hpl : Claims F v pl) {b : SCPBallot}
    (hb : hasVotedPrepare b pl = true) :
    F.PreparedBySome value b ∨ F.votedPrepare v b := by
  cases pl with
  | prepare p =>
    simp only [hasVotedPrepare, areBallotsLessAndCompatible_iff] at hb
    exact .inr (hpl.1 b hb.1 hb.2)
  | confirm c | externalize e =>
    simp only [hasVotedPrepare, areBallotsCompatible_iff] at hb
    exact .inl (.inr ⟨v, _, hpl, hb.symm⟩)

/-- An accepted commit interval starts at or above an accepted commit. -/
theorem Claims.acceptedCommit (hpl : Claims F v pl) {c : SCPBallot} {cur : Interval}
    (hc : commitPredicate c cur pl = true) :
    ∃ d, F.acceptedCommit v d ∧ d ≤ ⟨cur.1, c.value⟩ ∧ d.value = c.value := by
  cases pl with
  | prepare p => cases hc
  | confirm e =>
    simp only [commitPredicate, Bool.and_eq_true, areBallotsCompatible_iff, decide_eq_true_eq] at hc
    exact ⟨_, hpl, (mk_le_mk_iff hc.1.symm).mpr hc.2.1, hc.1.symm⟩
  | externalize e =>
    simp only [commitPredicate, Bool.and_eq_true, areBallotsCompatible_iff, decide_eq_true_eq] at hc
    exact ⟨_, hpl, (le_mk_iff hc.1.symm).mpr hc.2, hc.1.symm⟩

theorem Claims.votedCommit (hpl : Claims F v pl) {c : SCPBallot} {cur : Interval}
    (hcur : cur.1 ≤ cur.2) (hc : hasVotedCommit c cur pl = true) :
    (∃ d, F.acceptedCommit v d ∧ d ≤ ⟨cur.1, c.value⟩ ∧ d.value = c.value) ∨
      F.votedCommit v ⟨cur.1, c.value⟩ := by
  cases pl with
  | prepare p =>
    simp only [hasVotedCommit, Bool.and_eq_true, areBallotsCompatible_iff, decide_eq_true_eq] at hc
    refine .inr ?_
    rw [hc.1]
    exact hpl.2.2 hc.2.1 cur.1 hc.2.2.1 (hcur.trans hc.2.2.2)
  | confirm e =>
    simp only [hasVotedCommit, Bool.and_eq_true, areBallotsCompatible_iff, decide_eq_true_eq] at hc
    exact .inl ⟨_, hpl, (mk_le_mk_iff hc.1.symm).mpr hc.2, hc.1.symm⟩
  | externalize e =>
    simp only [hasVotedCommit, Bool.and_eq_true, areBallotsCompatible_iff, decide_eq_true_eq] at hc
    exact .inl ⟨_, hpl, (le_mk_iff hc.1.symm).mpr hc.2, hc.1.symm⟩

end

/-! ## Quorums of correct nodes -/

section
variable {N : Network} {I : N.Invariant} {g : I.Ghost} {v : NodeID} {bp : BallotProtocol} {scp : SCP}

/-- A quorum found at a node that is not captured contains a correct node that has
externalized, or its correct members are closed. -/
theorem exists_quorum_of_ratify (hh : I.Heard g bp) (hscp : N.Serves v scp)
    (hfree : ¬ N.Captured v) {f : BallotPledges → Bool}
    (h : federatedRatify scp bp.mLatestEnvelopes f = true) :
    (∃ w ∈ N.correct, ∃ e, I.Claim g w (.externalize e) ∧ f (.externalize e) = true) ∨
    ∃ U ∈ N.quorums, ∀ w ∈ U, ∃ pl, I.Claim g w pl ∧ f pl = true := by
  obtain ⟨u, hu, hslice⟩ := exists_quorum_of_federatedRatify.mp h
  rw [hscp.node] at hslice
  by_cases hext : ∃ w ∈ N.correct, ∃ e, I.Claim g w (.externalize e) ∧ f (.externalize e) = true
  · exact .inl hext
  have hmember : ∀ w ∈ u, w ∉ N.faulty → w ∈ N.correct ∧ ∃ pl, I.Claim g w pl ∧ f pl = true ∧
      (N.node w).mQSet.SatisfiedBy {n | n ∈ u} := by
    intro w hw hwf
    obtain ⟨env, hlook, hf, q, hq, hqs⟩ := hu w hw
    change f env.statement.pledges = true at hf
    obtain ⟨hid, hfaulty | ⟨hc, hhash, hclaim⟩⟩ := hh w env hlook
    · exact absurd hfaulty hwf
    refine ⟨hc, _, hclaim, hf, u, fun n hn => hn, ?_⟩
    have hqw : q = (N.node w).mQSet := by
      refine hscp.getQSet w hc q ?_
      rw [← hhash]
      unfold getQuorumSetFromStatement at hq
      cases hpl : env.statement.pledges with
      | prepare p | confirm c => rw [hpl] at hq; exact hq
      | externalize e => rw [hpl] at hclaim hf; exact absurd ⟨w, hc, e, hclaim, hf⟩ hext
    rwa [← hqw]
  refine .inr ⟨{w | w ∈ u ∧ w ∉ N.faulty}, ⟨?_, ?_, ?_⟩, ?_⟩
  · exact fun w hw => (hmember w hw.1 hw.2).1
  · by_contra hempty
    rw [Set.not_nonempty_iff_eq_empty, Set.eq_empty_iff_forall_notMem] at hempty
    refine hfree ⟨u, fun n hn => ?_, hslice⟩
    by_contra hnf
    exact hempty n ⟨hn, hnf⟩
  · intro w hw
    obtain ⟨-, -, -, -, hsat⟩ := hmember w hw.1 hw.2
    refine hsat.mono fun n hn => ?_
    by_cases hnf : n ∈ N.faulty
    · exact .inr hnf
    · exact .inl ⟨hn, hnf⟩
  · intro w hw
    obtain ⟨-, pl, hclaim, hf, -⟩ := hmember w hw.1 hw.2
    exact ⟨pl, hclaim, hf⟩

/-- A blocking set contains a correct node. -/
theorem exists_claim_of_isVBlocking (hN : N.Dispensable) (hv : v ∈ N.correct) (hh : I.Heard g bp)
    (hscp : N.Serves v scp) {f : BallotPledges → Bool}
    (h : isVBlocking scp.mLocalNode.mQSet bp.mLatestEnvelopes (fun st => f st.pledges) = true) :
    ∃ w ∈ N.correct, ∃ pl, I.Claim g w pl ∧ f pl = true := by
  rw [hscp.node] at h
  obtain ⟨slice, hmem, hslice⟩ := hN.available v hv
  obtain ⟨w, hw, env, hlook, hf⟩ := exists_sender_of_isVBlocking
    (wellFormed_of_isQuorumSetSane (N.sane v hv.1 hv.2)) h hslice
  obtain ⟨-, hfaulty | ⟨hc, -, hclaim⟩⟩ := hh w env hlook
  · exact absurd hfaulty (hmem w hw)
  · exact ⟨w, hc, _, hclaim, hf⟩

end

end DigitalBits.Scp
