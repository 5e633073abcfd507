import DigitalBits.Scp.BallotVotes

/-!
# Safety of the ballot protocol

As long as the ill-behaved nodes capture nobody, the votes of the correct nodes
stay safe: every move of a correct node adds only votes for which there is
evidence.
-/
namespace DigitalBits.Scp
open Lib LocalNode BallotProtocol SCPBallot Option

/-! ## Evidence at a node -/

section
variable {N : Network} {I : N.Invariant} {g : I.Ghost} {v : NodeID} {bp : BallotProtocol} {scp : SCP}
  {F : Votes NodeID SCPBallot}

theorem preparedBySome_of_ratify (hh : I.Heard g bp) (hscp : N.Serves v scp)
    (hfree : ¬ N.Captured v) (hclaim : ∀ w pl, I.Claim g w pl → Claims F w pl)
    (hsafe : F.Safe value N.quorums) {b : SCPBallot}
    (h : federatedRatify scp bp.mLatestEnvelopes (hasPreparedBallot b) = true) :
    F.PreparedBySome value b := by
  rcases exists_quorum_of_ratify hh hscp hfree h with ⟨w, -, e, he, hb⟩ | ⟨U, hU, hall⟩
  · exact (hclaim w _ he).preparedBySome hsafe hb
  · obtain ⟨w, hw⟩ := hU.2.1
    obtain ⟨pl, hpl, hb⟩ := hall w hw
    exact (hclaim w _ hpl).preparedBySome hsafe hb

theorem prepareEvidence_of_accept (hN : N.Dispensable) (hv : v ∈ N.correct) (hh : I.Heard g bp)
    (hscp : N.Serves v scp) (hfree : ¬ N.Captured v)
    (hclaim : ∀ w pl, I.Claim g w pl → Claims F w pl) (hsafe : F.Safe value N.quorums)
    {b : SCPBallot}
    (h : federatedAccept scp bp.mLatestEnvelopes (hasVotedPrepare b) (hasPreparedBallot b) = true) :
    F.PrepareEvidence value N.quorums b := by
  have hvote : ∀ w pl, I.Claim g w pl → (hasPreparedBallot b pl || hasVotedPrepare b pl) = true →
      F.PreparedBySome value b ∨ F.votedPrepare w b := by
    intro w pl hpl hb
    rcases Bool.or_eq_true _ _ ▸ hb with hb | hb
    · exact .inl ((hclaim w pl hpl).preparedBySome hsafe hb)
    · exact (hclaim w pl hpl).votedPrepare hb
  rcases federatedAccept_iff.mp h with h | h
  · obtain ⟨w, -, pl, hpl, hb⟩ := exists_claim_of_isVBlocking hN hv hh hscp h
    exact .inl ((hclaim w pl hpl).preparedBySome hsafe hb)
  · rcases exists_quorum_of_ratify hh hscp hfree h with ⟨w, -, e, he, hb⟩ | ⟨U, hU, hall⟩
    · refine .inl ?_
      rcases Bool.or_eq_true _ _ ▸ hb with hb | hb
      · exact (hclaim w _ he).preparedBySome hsafe hb
      · exact .inr ⟨w, e.commit, hclaim w _ he, (areBallotsCompatible_iff.mp hb).symm⟩
    · by_cases hsome : F.PreparedBySome value b
      · exact .inl hsome
      · refine .inr ⟨U, hU, fun w hw => ?_⟩
        obtain ⟨pl, hpl, hb⟩ := hall w hw
        exact (hvote w pl hpl hb).resolve_left hsome

theorem commitEvidence_of_ratify (hh : I.Heard g bp) (hscp : N.Serves v scp)
    (hfree : ¬ N.Captured v) (hclaim : ∀ w pl, I.Claim g w pl → Claims F w pl)
    {c : SCPBallot} {n : Uint32}
    (h : federatedRatify scp bp.mLatestEnvelopes (commitPredicate c (c.counter, n)) = true) :
    F.CommitEvidence value N.quorums c := by
  have hmember : ∀ w pl, I.Claim g w pl → commitPredicate c (c.counter, n) pl = true →
      F.CommitEvidence value N.quorums c := by
    intro w pl hpl hc
    obtain ⟨d, hd, hle, hval⟩ := (hclaim w pl hpl).acceptedCommit hc
    exact .inl ⟨w, d, hd, hle, hval⟩
  rcases exists_quorum_of_ratify hh hscp hfree h with ⟨w, -, e, he, hb⟩ | ⟨U, hU, hall⟩
  · exact hmember w _ he hb
  · obtain ⟨w, hw⟩ := hU.2.1
    obtain ⟨pl, hpl, hb⟩ := hall w hw
    exact hmember w pl hpl hb

theorem commitEvidence_of_accept (hN : N.Dispensable) (hv : v ∈ N.correct) (hh : I.Heard g bp)
    (hscp : N.Serves v scp) (hfree : ¬ N.Captured v)
    (hclaim : ∀ w pl, I.Claim g w pl → Claims F w pl) {c : SCPBallot} {n : Uint32}
    (hn : c.counter ≤ n)
    (h : federatedAccept scp bp.mLatestEnvelopes (hasVotedCommit c (c.counter, n))
      (commitPredicate c (c.counter, n)) = true) :
    F.CommitEvidence value N.quorums c := by
  have hvote : ∀ w pl, I.Claim g w pl →
      (commitPredicate c (c.counter, n) pl || hasVotedCommit c (c.counter, n) pl) = true →
      (∃ d, F.acceptedCommit w d ∧ d ≤ c ∧ d.value = c.value) ∨ F.votedCommit w c := by
    intro w pl hpl hc
    rcases Bool.or_eq_true _ _ ▸ hc with hc | hc
    · exact .inl ((hclaim w pl hpl).acceptedCommit hc)
    · exact (hclaim w pl hpl).votedCommit hn hc
  rcases federatedAccept_iff.mp h with h | h
  · obtain ⟨w, -, pl, hpl, hc⟩ := exists_claim_of_isVBlocking hN hv hh hscp h
    obtain ⟨d, hd, hle, hval⟩ := (hclaim w pl hpl).acceptedCommit hc
    exact .inl ⟨w, d, hd, hle, hval⟩
  · by_cases hsome : ∃ u d, F.acceptedCommit u d ∧ d ≤ c ∧ d.value = c.value
    · exact .inl hsome
    rcases exists_quorum_of_ratify hh hscp hfree h with ⟨w, -, e, he, hc⟩ | ⟨U, hU, hall⟩
    · refine absurd ⟨w, e.commit, hclaim w _ he, ?_⟩ hsome
      rcases Bool.or_eq_true _ _ ▸ hc with hc | hc
      · simp only [commitPredicate, Bool.and_eq_true, areBallotsCompatible_iff,
          decide_eq_true_eq] at hc
        exact ⟨(le_iff_of_value_eq hc.1.symm).mpr hc.2, hc.1.symm⟩
      · simp only [hasVotedCommit, Bool.and_eq_true, areBallotsCompatible_iff,
          decide_eq_true_eq] at hc
        exact ⟨(le_iff_of_value_eq hc.1.symm).mpr hc.2, hc.1.symm⟩
    · refine .inr ⟨U, hU, fun w hw => ?_⟩
      obtain ⟨pl, hpl, hc⟩ := hall w hw
      rcases hvote w pl hpl hc with ⟨d, hd⟩ | h
      · exact absurd ⟨w, d, hd⟩ hsome
      · exact h

end

/-! ## The votes of one node -/

/-- How the votes of a node that is still in `PREPARE` relate to its ballots. -/
structure VotesOf (F : Votes NodeID SCPBallot) (v : NodeID) (bp : BallotProtocol) : Prop where
  voted_le : ∀ d, F.votedPrepare v d → d ≤ bp.mCurrentBallot.getD default
  voted_lt : ∀ c ∈ bp.mCommit, ∀ d, F.votedPrepare v d → d.value ≠ c.value → d < c
  commit : ∀ b, F.votedCommit v b → F.Contradicted value b ∨
    ∃ c ∈ bp.mCommit, ∃ h ∈ bp.mHighBallot, b.value = c.value ∧ b ≤ h

/-- What is known of the votes and the ballots of a correct node. -/
structure VotesOk (F : Votes NodeID SCPBallot) (v : NodeID) (bp : BallotProtocol) : Prop where
  own : (bp.ownVotes v).Le F
  prepare : bp.mPhase = .prepare → VotesOf F v bp

/-- The reasons for what a node says after a move. -/
structure Justified (quorums : Set (Set NodeID)) (F : Votes NodeID SCPBallot) (v : NodeID)
    (bp : BallotProtocol) : Prop where
  acceptedPrepare : ∀ p, p ∈ bp.mPrepared ∨ p ∈ bp.mPreparedPrime → ∀ d ≤ p, d.value = p.value →
    F.acceptedPrepare v d ∨ F.PrepareEvidence value quorums d
  acceptedCommit : bp.mPhase ≠ .prepare → ∀ c ∈ bp.mCommit,
    F.acceptedCommit v c ∨ F.CommitEvidence value quorums c
  votedCommit : ∀ b, (bp.ownVotes v).votedCommit v b → F.votedCommit v b ∨
    F.PreparedBySome value b ∧ ∀ d, F.votedPrepare v d → d.value ≠ b.value → ¬ b < d
  votedPrepare : ∀ d, (bp.ownVotes v).votedPrepare v d → F.votedPrepare v d ∨
    ∀ b, (F.join (bp.ownVotes v)).votedCommit v b → b < d → d.value ≠ b.value →
      (F.join (bp.ownVotes v)).Contradicted value b
  prepare : bp.mPhase = .prepare → VotesOf (F.join (bp.ownVotes v)) v bp

theorem Justified.extends {quorums : Set (Set NodeID)} {F : Votes NodeID SCPBallot} {v : NodeID}
    {bp : BallotProtocol} (hsafe : F.Safe value quorums)
    (h : Justified quorums F v bp) :
    Votes.Extends value quorums F (F.join (bp.ownVotes v)) where
  toLe := F.le_join_left _
  acceptedPrepare w d hd := by
    rcases hd with hd | ⟨rfl, p, hp, hle, hval⟩
    · exact .inl hd
    · exact h.acceptedPrepare p hp d hle hval
  prepare_down w d b hd hle hval := by
    rcases hd with hd | ⟨rfl, p, hp, hle', hval'⟩
    · exact .inl (hsafe.prepare_down w d b hd hle hval)
    · exact .inr ⟨rfl, p, hp, hle.trans hle', hval.trans hval'⟩
  acceptedCommit w d hd := by
    rcases hd with hd | ⟨rfl, hphase, hc⟩
    · exact .inl hd
    · exact h.acceptedCommit hphase d hc
  votedCommit w b hb := by
    rcases hb with hb | hb
    · exact .inl hb
    · obtain rfl := hb.1
      exact h.votedCommit b hb
  votedPrepare w d hd := by
    rcases hd with hd | hd
    · exact .inl hd
    · obtain rfl := hd.1
      exact h.votedPrepare d hd

section
variable {quorums : Set (Set NodeID)} {F : Votes NodeID SCPBallot} {v w : NodeID}
  {bp bp' : BallotProtocol}

theorem VotesOk.congr (h : bp.SameVotes bp') (hok : VotesOk F v bp) : VotesOk F v bp' where
  own := by
    have heq : bp'.ownVotes v = bp.ownVotes v := by
      simp only [ownVotes, h.phase, h.current, h.prepared, h.preparedPrime, h.commit,
        h.high]
    rw [heq]
    exact hok.own
  prepare hphase := by
    obtain ⟨h1, h2, h3⟩ := hok.prepare (h.phase ▸ hphase)
    refine ⟨?_, ?_, ?_⟩
    · rw [h.current]; exact h1
    · rw [h.commit]; exact h2
    · rw [h.commit, h.high]; exact h3

/-- What another node says leaves the votes of `w` alone. -/
theorem VotesOk.join (hok : VotesOk F w bp) (hne : w ≠ v) :
    VotesOk (F.join (bp'.ownVotes v)) w bp where
  own := hok.own.trans (F.le_join_left _)
  prepare hphase := by
    obtain ⟨h1, h2, h3⟩ := hok.prepare hphase
    refine ⟨fun d hd => ?_, fun c hc d hd => ?_, fun b hb => ?_⟩
    · exact h1 d (hd.resolve_right fun h => hne h.1)
    · exact h2 c hc d (hd.resolve_right fun h => hne h.1)
    · exact (h3 b (hb.resolve_right fun h => hne h.1)).imp_left
        (Votes.Contradicted.mono (F.le_join_left _))

/-- Outside `PREPARE` only what is accepted needs a reason. -/
theorem Justified.of_later (hphase : bp.mPhase ≠ .prepare)
    (hap : ∀ p, p ∈ bp.mPrepared ∨ p ∈ bp.mPreparedPrime → ∀ d ≤ p, d.value = p.value →
      F.acceptedPrepare v d ∨ F.PrepareEvidence value quorums d)
    (hac : ∀ c ∈ bp.mCommit, F.acceptedCommit v c ∨
      F.CommitEvidence value quorums c) : Justified quorums F v bp where
  acceptedPrepare := hap
  acceptedCommit _ := hac
  votedCommit _ hb := absurd hb.2.1 hphase
  votedPrepare _ hd := absurd hd.2.1 hphase
  prepare h := absurd h hphase

/-! ## The moves are justified -/

/-- What a node has accepted as prepared it has said before. -/
theorem VotesOk.acceptedPrepare (hok : VotesOk F v bp) {p : SCPBallot}
    (hp : p ∈ bp.mPrepared ∨ p ∈ bp.mPreparedPrime) :
    ∀ d ≤ p, d.value = p.value → F.acceptedPrepare v d :=
  fun d hle hval => hok.own.acceptedPrepare_le v d ⟨rfl, p, hp, hle, hval⟩

theorem VotesOk.acceptPrepared (hok : VotesOk F v bp) (hbp : bp.Consistent) {ballot : SCPBallot}
    (hnew : isAlreadyPrepared bp ballot = false)
    (hev : ∀ d ≤ ballot, d.value = ballot.value → F.PrepareEvidence value quorums d) :
    Justified quorums F v (bp.acceptPrepared ballot) := by
  have hvp : ∀ d, ((bp.acceptPrepared ballot).ownVotes v).votedPrepare v d →
      F.votedPrepare v d := by
    rintro d ⟨-, hphase, hle, hval⟩
    rw [acceptPrepared_mPhase] at hphase
    rw [acceptPrepared_mCurrentBallot] at hle hval
    exact hok.own.votedPrepare_le v d ⟨rfl, hphase, hle, hval⟩
  have hvc : ∀ b, ((bp.acceptPrepared ballot).ownVotes v).votedCommit v b →
      F.votedCommit v b := by
    rintro b ⟨-, hphase, c, hc, h, hh, hb⟩
    rw [acceptPrepared_mPhase] at hphase
    rw [acceptPrepared_mHighBallot] at hh
    exact hok.own.votedCommit_le v b ⟨rfl, hphase, c, mem_mCommit_of_acceptPrepared hc, h, hh, hb⟩
  refine ⟨?_, ?_, fun b hb => .inl (hvc b hb), fun d hd => .inl (hvp d hd), ?_⟩
  · intro q hq d hle hval
    rcases mem_acceptPrepared hnew hq with rfl | hold
    · exact .inr (hev d hle hval)
    · exact .inl (hok.acceptedPrepare hold d hle hval)
  · intro hphase c hc
    rw [acceptPrepared_mPhase] at hphase
    exact .inl (hok.own.acceptedCommit_le v c ⟨rfl, hphase, mem_mCommit_of_acceptPrepared hc⟩)
  · intro hphase
    rw [acceptPrepared_mPhase] at hphase
    obtain ⟨h1, h2, h3⟩ := hok.prepare hphase
    refine ⟨fun d hd => ?_, fun c hc d hd => ?_, fun b hb => ?_⟩
    · rw [acceptPrepared_mCurrentBallot]
      exact h1 d (hd.elim id (hvp d))
    · exact h2 c (mem_mCommit_of_acceptPrepared hc) d (hd.elim id (hvp d))
    · rcases h3 b (hb.elim id (hvc b)) with hcon | ⟨c, hc, h, hh, hval, hle⟩
      · exact .inl (hcon.mono (F.le_join_left _))
      rw [acceptPrepared_mCommit, acceptPrepared_mHighBallot]
      split_ifs with hcl
      · -- the ballot above `h` that makes the node drop `c` contradicts `b` as well
        obtain ⟨h', hh', p, hp, hle', hne⟩ := bp.exists_of_clears ballot hcl
        obtain rfl := mem_unique hh hh'
        obtain ⟨h', hh', -, hch⟩ := hbp.commit c hc
        obtain rfl := mem_unique hh hh'
        have hpb : p.value ≠ b.value := by rw [hval, hch]; exact hne.symm
        refine .inl (.inl ⟨v, p, .inr ⟨rfl, p, hp, le_rfl, rfl⟩, ?_, hpb⟩)
        exact lt_of_le_of_ne (hle.trans hle') fun heq => hpb (by rw [heq])
      · exact .inr ⟨c, hc, h, hh, hval, hle⟩

theorem VotesOk.acceptCommit (hok : VotesOk F v bp) {c h : SCPBallot}
    (hphase : bp.mPhase ≠ .externalize) (hev : F.CommitEvidence value quorums c) :
    Justified quorums F v (bp.acceptCommit c h) := by
  refine .of_later (by rw [bp.acceptCommit_mPhase c h hphase]; decide) ?_ ?_
  · rw [acceptCommit_mPrepared, acceptCommit_mPreparedPrime]
    rintro p (hp | hp) d hle hval
    · exact .inl (hok.acceptedPrepare (.inl hp) d hle hval)
    · split_ifs at hp
      · cases hp
      · exact .inl (hok.acceptedPrepare (.inr hp) d hle hval)
  · rw [acceptCommit_mCommit]
    rintro c' hc'
    cases hc'
    exact .inr hev

theorem VotesOk.confirmCommit (hok : VotesOk F v bp) {c h : SCPBallot}
    (hev : F.CommitEvidence value quorums c) :
    Justified quorums F v (bp.confirmCommit c h) := by
  refine .of_later (by simp) ?_ ?_
  · rw [confirmCommit_mPrepared, confirmCommit_mPreparedPrime]
    exact fun p hp d hle hval => .inl (hok.acceptedPrepare hp d hle hval)
  · rw [confirmCommit_mCommit]
    rintro c' hc'
    cases hc'
    exact .inr hev

/-- A vote to prepare a ballot on the value of `c` does not touch the votes to commit. -/
theorem VotesOf.contradicted (hv : VotesOf F v bp) {G : Votes NodeID SCPBallot} (hle : F.Le G)
    {d b : SCPBallot} (hb : F.votedCommit v b) (hne : d.value ≠ b.value)
    (hc : ∀ c ∈ bp.mCommit, c.value = d.value) : G.Contradicted value b := by
  rcases hv.commit b hb with hcon | ⟨c, hmem, -, -, hval, -⟩
  · exact hcon.mono hle
  · exact absurd (hval.trans (hc c hmem)).symm hne

theorem VotesOk.bump (hok : VotesOk F v bp) (hbp : bp.Consistent) {ballot : SCPBallot}
    (hcan : bp.CanBumpTo ballot) : Justified quorums F v (bp.bumpedTo ballot) := by
  obtain ⟨-, hlt, hcval⟩ := hcan
  have hcv : ∀ c ∈ bp.mCommit, c.value = ballot.value := by
    intro c hc
    obtain ⟨h, hh, -⟩ := hbp.commit c hc
    obtain ⟨b, hb, -⟩ := hbp.high h hh
    exact hcval b hb c hc
  -- a set `c` is compatible with the new ballot, so that `c` and `h` stay
  have hcommit : (bp.bumpedTo ballot).mCommit = bp.mCommit := by
    rw [bumpedTo_mCommit]
    split_ifs with hne
    · obtain ⟨h, hh, hne⟩ := hne
      cases hc : bp.mCommit with
      | none => rfl
      | some c =>
        obtain ⟨h', hh', -, hval⟩ := hbp.commit c hc
        obtain rfl := mem_unique hh hh'
        exact absurd (hval.symm.trans (hcv c hc)).symm hne
    · rfl
  have hvc : ∀ b, ((bp.bumpedTo ballot).ownVotes v).votedCommit v b → F.votedCommit v b := by
    rintro b ⟨-, hphase, c, hc, h, hh, hb⟩
    rw [hcommit] at hc
    exact hok.own.votedCommit_le v b ⟨rfl, hphase, c, hc, h, mem_mHighBallot_of_bumpedTo hh, hb⟩
  refine ⟨fun p hp d hle hval => .inl (hok.acceptedPrepare hp d hle hval), ?_,
    fun b hb => .inl (hvc b hb), ?_, ?_⟩
  · intro hphase c hc
    rw [hcommit] at hc
    exact .inl (hok.own.acceptedCommit_le v c ⟨rfl, hphase, hc⟩)
  · rintro d ⟨-, hphase, -, hval⟩
    refine .inr fun b hb _ hne => ?_
    exact (hok.prepare hphase).contradicted (F.le_join_left _) (hb.elim id (hvc b)) hne
      fun c hc => (hcv c hc).trans hval.symm
  · intro hphase
    obtain ⟨h1, h2, h3⟩ := hok.prepare hphase
    refine ⟨?_, ?_, ?_⟩
    · rintro d (hd | ⟨-, -, hle, -⟩)
      · refine (h1 d hd).trans ?_
        cases hb : bp.mCurrentBallot with
        | none => exact default_le _
        | some b => exact (hlt b hb).le
      · exact hle
    · rw [hcommit]
      rintro c hc d (hd | ⟨-, -, -, hval⟩) hne
      · exact h2 c hc d hd hne
      · exact absurd (hval.trans (hcv c hc).symm) hne
    · intro b hb
      rcases h3 b (hb.elim id (hvc b)) with hcon | ⟨c, hc, h, hh, hval, hle⟩
      · exact .inl (hcon.mono (F.le_join_left _))
      · refine .inr ⟨c, hcommit ▸ hc, h, ?_, hval, hle⟩
        obtain ⟨h', hh', -, hch⟩ := hbp.commit c hc
        obtain rfl := mem_unique hh hh'
        rw [bumpedTo_mHighBallot, if_neg]
        · exact hh
        · rintro ⟨h', hh', hne⟩
          obtain rfl := mem_unique hh hh'
          exact hne ((hcv c hc).symm.trans hch)

/-- The first outcome of `setConfirmPrepared`: `h` is raised on the current value, and
`c` is set or kept. -/
theorem VotesOk.confirmOn (hok : VotesOk F v bp) (hphase : bp.mPhase = .prepare)
    (hbp : bp.Consistent) {newH b : SCPBallot} (hphase' : bp'.mPhase = .prepare)
    (hap : ∀ p, p ∈ bp'.mPrepared ∨ p ∈ bp'.mPreparedPrime →
      p ∈ bp.mPrepared ∨ p ∈ bp.mPreparedPrime)
    (hev : ∀ d ≤ newH, d.value = newH.value → F.PreparedBySome value d)
    (hcomp : ∀ b ∈ bp.mCurrentBallot, b.value = newH.value)
    (hhigh : ∀ h ∈ bp.mHighBallot, h < newH) (hh : bp'.mHighBallot = some newH)
    (hb : bp'.mCurrentBallot = some b) (hbv : newH.value = b.value)
    (hle : ∀ b₀ ∈ bp.mCurrentBallot, b₀ ≤ b)
    (hc : bp'.mCommit = bp.mCommit ∨ bp.mCommit = none ∧ ∃ newC, bp'.mCommit = some newC ∧
      bp.mCurrentBallot.getD default ≤ newC ∧ newC.value = newH.value) :
    Justified quorums F v bp' := by
  obtain ⟨h1, h2, h3⟩ := hok.prepare hphase
  have hcval : ∀ c ∈ bp.mCommit, c.value = newH.value := by
    intro c hmem
    obtain ⟨h, hh, -, hv⟩ := hbp.commit c hmem
    obtain ⟨b', hb', -, hv'⟩ := hbp.high h hh
    exact (hv.trans hv').trans (hcomp b' hb')
  -- the new `c` has the value of `h`, and no vote on another value is above it
  have hnew : ∀ c ∈ bp'.mCommit, c.value = newH.value ∧
      ∀ d, F.votedPrepare v d → d.value ≠ c.value → d < c := by
    intro c hmem
    rcases hc with hc | ⟨-, newC, hc, hge, hv⟩
    · rw [hc] at hmem
      exact ⟨hcval c hmem, h2 c hmem⟩
    · obtain rfl := mem_unique hc hmem
      refine ⟨hv, fun d hd hne => lt_of_le_of_ne ((h1 d hd).trans hge) fun heq => hne ?_⟩
      rw [heq]
  have hvc : ∀ d, (bp'.ownVotes v).votedCommit v d → ∃ c ∈ bp'.mCommit, c ≤ d ∧ d ≤ newH ∧
      d.value = c.value := by
    rintro d ⟨-, -, c, hmem, h, hh', hcd, hdh, hv⟩
    obtain rfl := mem_unique hh hh'
    exact ⟨c, hmem, hcd, hdh, hv⟩
  refine ⟨fun p hp d hle hval => .inl (hok.acceptedPrepare (hap p hp) d hle hval),
    fun h => absurd hphase' h, ?_, ?_, fun _ => ⟨?_, ?_, ?_⟩⟩
  · intro d hd
    obtain ⟨c, hmem, hcd, hdh, hv⟩ := hvc d hd
    obtain ⟨hcv, hlt⟩ := hnew c hmem
    refine .inr ⟨hev d hdh (hv.trans hcv), fun e he hne => ?_⟩
    exact not_lt.mpr ((hlt e he (hv ▸ hne)).le.trans hcd)
  · rintro d ⟨-, -, -, hv⟩
    rw [hb, getD_some] at hv
    refine .inr fun e he _ hne => ?_
    rcases he with he | he
    · exact (hok.prepare hphase).contradicted (F.le_join_left _) he hne
        fun c hmem => (hcval c hmem).trans (hbv.trans hv.symm)
    · obtain ⟨c, hmem, -, -, hv'⟩ := hvc e he
      exact absurd ((hv.trans hbv.symm).trans ((hnew c hmem).1.symm.trans hv'.symm)) hne
  · rw [hb, getD_some]
    rintro d (hd | ⟨-, -, hd, -⟩)
    · refine (h1 d hd).trans ?_
      cases hcur : bp.mCurrentBallot with
      | none => exact default_le _
      | some b₀ => exact hle b₀ hcur
    · rwa [hb] at hd
  · rintro c hmem d (hd | ⟨-, -, -, hv⟩) hne
    · exact (hnew c hmem).2 d hd hne
    · rw [hb, getD_some] at hv
      exact absurd ((hv.trans hbv.symm).trans (hnew c hmem).1.symm) hne
  · rintro d (hd | hd)
    · rcases h3 d hd with hcon | ⟨c, hmem, h, hmem', hv, hdh⟩
      · exact .inl (hcon.mono (F.le_join_left _))
      · rcases hc with hc | ⟨hnone, -⟩
        · exact .inr ⟨c, hc ▸ hmem, newH, hh, hv, hdh.trans (hhigh h hmem').le⟩
        · rw [hnone] at hmem
          cases hmem
    · obtain ⟨c, hmem, -, hdh, hv⟩ := hvc d hd
      exact .inr ⟨c, hmem, newH, hh, hv, hdh⟩

/-- The second outcome: the node leaves its votes to commit for a greater ballot on
another value. -/
theorem VotesOk.confirmAway (hok : VotesOk F v bp) (hphase : bp.mPhase = .prepare)
    (hbp : bp.Consistent) {newH b : SCPBallot} (hphase' : bp'.mPhase = .prepare)
    (hap : ∀ p, p ∈ bp'.mPrepared ∨ p ∈ bp'.mPreparedPrime →
      p ∈ bp.mPrepared ∨ p ∈ bp.mPreparedPrime)
    (hev : F.PreparedBySome value newH) (hb : bp.mCurrentBallot = some b)
    (hne : b.value ≠ newH.value) (hlt : b < newH) (hb' : bp'.mCurrentBallot = some newH)
    (hc : bp'.mCommit = none) : Justified quorums F v bp' := by
  obtain ⟨h1, h2, h3⟩ := hok.prepare hphase
  rw [hb, getD_some] at h1
  have hvc : ∀ d, ¬ (bp'.ownVotes v).votedCommit v d := by
    rintro d ⟨-, -, c, hmem, -⟩
    rw [hc] at hmem
    cases hmem
  have hcon : ∀ d, (F.join (bp'.ownVotes v)).votedCommit v d →
      (F.join (bp'.ownVotes v)).Contradicted value d := by
    rintro d (hd | hd)
    · refine Votes.Contradicted.mono (F.le_join_left _) ?_
      rcases h3 d hd with hcon | ⟨c, hmem, h, hmem', hv, hdh⟩
      · exact hcon
      · obtain ⟨h', hh', -, hch⟩ := hbp.commit c hmem
        obtain ⟨b', hcur, hhb, hvb⟩ := hbp.high h hmem'
        obtain rfl := mem_unique hmem' hh'
        obtain rfl := mem_unique hb hcur
        refine hev.contradicted ((hdh.trans hhb).trans_lt hlt) fun heq => hne ?_
        rw [heq, hv, hch, hvb]
    · exact absurd hd (hvc d)
  refine ⟨fun p hp d hle hval => .inl (hok.acceptedPrepare (hap p hp) d hle hval),
    fun h => absurd hphase' h, fun d hd => absurd hd (hvc d), fun d hd => .inr ?_,
    fun _ => ⟨?_, ?_, fun d hd => .inl (hcon d hd)⟩⟩
  · exact fun e he _ _ => hcon e he
  · rintro d (hd | ⟨-, -, hd, -⟩)
    · rw [hb']
      exact (h1 d hd).trans hlt.le
    · exact hd
  · rw [hc]
    rintro c hmem
    cases hmem

end

/-! ## The invariant -/

theorem hasPreparedBallot_down {b d : SCPBallot} (hle : d ≤ b) (hval : d.value = b.value)
    {pl : BallotPledges} (h : hasPreparedBallot b pl = true) : hasPreparedBallot d pl = true := by
  cases pl with
  | prepare p =>
    simp only [hasPreparedBallot, Bool.or_eq_true, any_eq_true,
      areBallotsLessAndCompatible_iff] at h ⊢
    rcases h with ⟨q, hq, hbq, hv⟩ | ⟨q, hq, hbq, hv⟩
    · exact .inl ⟨q, hq, hle.trans hbq, hval.trans hv⟩
    · exact .inr ⟨q, hq, hle.trans hbq, hval.trans hv⟩
  | confirm c =>
    simp only [hasPreparedBallot, areBallotsLessAndCompatible_iff] at h ⊢
    exact ⟨hle.trans h.1, hval.trans h.2⟩
  | externalize e =>
    simp only [hasPreparedBallot, areBallotsCompatible_iff] at h ⊢
    exact hval.trans h

theorem hasVotedPrepare_down {b d : SCPBallot} (hle : d ≤ b) (hval : d.value = b.value)
    {pl : BallotPledges} (h : hasVotedPrepare b pl = true) : hasVotedPrepare d pl = true := by
  cases pl with
  | prepare p =>
    simp only [hasVotedPrepare, areBallotsLessAndCompatible_iff] at h ⊢
    exact ⟨hle.trans h.1, hval.trans h.2⟩
  | confirm c | externalize e =>
    simp only [hasVotedPrepare, areBallotsCompatible_iff] at h ⊢
    exact hval.trans h

/-- The votes of the correct nodes are safe, and each node's state is among them. -/
def safeInvariant (N : Network) : N.Invariant where
  Ghost := { F : Votes NodeID SCPBallot // F.Safe value N.quorums }
  Claim F w pl := Claims F.1 w pl
  State F w bp := VotesOk F.1 w bp
  Held F w bp := (bp.ownVotes w).Le F.1

/-- At the start every node has voted to prepare the default ballot only. -/
def noVotes : Votes NodeID SCPBallot where
  votedPrepare _ d := d = default
  acceptedPrepare _ _ := False
  votedCommit _ _ := False
  acceptedCommit _ _ := False

theorem noVotes_ok (v : NodeID) : VotesOk noVotes v .new where
  own := by
    refine ⟨?_, ?_, ?_, ?_⟩
    · rintro w d ⟨-, -, hle, -⟩
      exact le_antisymm hle (default_le d)
    · rintro w d ⟨-, p, hp | hp, -⟩ <;> cases hp
    · rintro w d ⟨-, -, c, hc, -⟩
      cases hc
    · rintro w d ⟨-, hphase, -⟩
      exact hphase rfl
  prepare _ := ⟨fun d hd => (show d = default from hd).le, nofun, nofun⟩

section
variable {N : Network} {v : NodeID} {bp : BallotProtocol} {scp : SCP}

/-- Every move of a correct node that is not captured is justified. -/
theorem justified_of_enabled (hN : N.Dispensable) (hv : v ∈ N.correct) (hfree : ¬ N.Captured v)
    (hscp : N.Serves v scp) (F : (safeInvariant N).Ghost) (hbp : bp.Consistent)
    (hok : VotesOk F.1 v bp) (hh : (safeInvariant N).Heard F bp) {m : Move}
    (hen : Enabled scp bp m) :
    Justified N.quorums F.1 v (m.apply bp) ∨ bp.SameVotes (m.apply bp) := by
  have hclaim : ∀ w pl, (safeInvariant N).Claim F w pl → Claims F.1 w pl := fun w pl h => h
  cases hen with
  | @acceptPrepared ballot hphase hacc hclear =>
    refine .inl (hok.acceptPrepared hbp hacc.2.1 fun d hle hval => ?_)
    exact prepareEvidence_of_accept hN hv hh hscp hfree hclaim F.2
      (federatedAccept_mono (fun _ _ _ => hasVotedPrepare_down hle hval)
        (fun _ _ _ => hasPreparedBallot_down hle hval) hacc.2.2)
  | @confirmPrepared newC newH hphase hp hhigh hrat hvote =>
    have hev : ∀ d ≤ newH, d.value = newH.value → F.1.PreparedBySome value d :=
      fun d hle hval => preparedBySome_of_ratify hh hscp hfree hclaim F.2
        (federatedRatify_mono (fun _ _ _ => hasPreparedBallot_down hle hval) hrat)
    have hphase' : (bp.confirmPrepared newC newH).mPhase = .prepare := by
      rw [confirmPrepared_mPhase, hphase]
    have hap : ∀ p, p ∈ (bp.confirmPrepared newC newH).mPrepared ∨
        p ∈ (bp.confirmPrepared newC newH).mPreparedPrime →
        p ∈ bp.mPrepared ∨ p ∈ bp.mPreparedPrime := by
      intro p hp
      rwa [confirmPrepared_mPrepared,
        confirmPrepared_mPreparedPrime] at hp
    obtain ⟨hcomp, hh', hc', b, hb, -, hbv, hle, -⟩ | ⟨b, hb, hne, hlt, hb', -, hc'⟩ |
      ⟨b, hb, -, -, hb', hh', hc'⟩ := hbp.confirmPrepared_cases newC hhigh
    · refine .inl (hok.confirmOn hphase hbp hphase' hap hev hcomp hhigh hh' hb hbv hle ?_)
      by_cases hzero : newC.counter = 0
      · rw [if_neg (by simpa using hzero)] at hc'
        exact .inl hc'
      · rw [if_pos hzero] at hc'
        rcases hvote with rfl | ⟨hcan, hge, -, hval⟩
        · exact absurd rfl hzero
        · refine .inr ⟨?_, newC, hc', hge, hval⟩
          simp only [canVoteCommit, Bool.and_eq_true, isNone_iff_eq_none] at hcan
          exact hcan.1.1
    · exact .inl (hok.confirmAway hphase hbp hphase' hap (hev newH le_rfl rfl) hb hne hlt hb' hc')
    · exact .inr ⟨confirmPrepared_mPhase _ _, hb'.trans hb.symm,
        confirmPrepared_mPrepared _ _,
        confirmPrepared_mPreparedPrime _ _, hh', hc'⟩
  | @acceptCommit c h hval hpos hle hp hphase hacc =>
    refine .inl (hok.acceptCommit ?_ ?_)
    · rcases hphase with hphase | ⟨hphase, -⟩ <;> simp [hphase]
    · exact commitEvidence_of_accept hN hv hh hscp hfree hclaim hle hacc
  | @confirmCommit c h c₀ hval hpos hle hphase hc₀ hsame hrat =>
    exact .inl (hok.confirmCommit (commitEvidence_of_ratify hh hscp hfree hclaim hrat))
  | @bump ballot hcan hpos => exact .inl (hok.bump hbp hcan)

theorem safeInvariant_holds (hN : N.Dispensable) (hfree : ∀ v ∈ N.correct, ¬ N.Captured v) :
    (safeInvariant N).Holds where
  start := ⟨⟨noVotes, Votes.safe_of_empty (by simp [noVotes]) (by simp [noVotes])
    (by simp [noVotes])⟩, fun v _ => noVotes_ok v⟩
  congr _ _ _ _ h hok := VotesOk.congr h hok
  claim _ _ _ _ _ hok hbp hpl := claims_of_ownVotes hbp hok.own hpl
  held _ _ _ hok := hok.own
  move F v bp scp m hv hscp hbp hok hh hen := by
    rcases justified_of_enabled hN hv (hfree v hv) hscp F hbp hok hh hen with hj | hsame
    · have hle : F.1.Le (F.1.join ((m.apply bp).ownVotes v)) := F.1.le_join_left _
      refine ⟨⟨_, F.2.extend hN.intersect (hj.extends F.2)⟩, ⟨?_, ?_, ?_⟩, ?_⟩
      · exact fun w pl h => Claims.mono hle h
      · exact fun w bp' h => h.trans hle
      · exact fun w _ hne bp' h => VotesOk.join h hne
      · exact ⟨F.1.le_join_right _, hj.prepare⟩
    · exact ⟨F, .refl v F, VotesOk.congr hsame hok⟩

end

end DigitalBits.Scp
