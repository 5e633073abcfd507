import DigitalBits.Scp.BallotRun

/-!
# What can be accepted prepared is covered

While no attempt is under way, `p` is at least as high as every ballot that the node
would look at and federated voting would accept as prepared: any ballot in `PREPARE`,
those on the value of `c` in `CONFIRM`. A new statement can only add ballots that it
supports itself, and the candidates derived from it are enough to find them: this is
what makes it safe to look at one statement at a time.
-/
namespace DigitalBits.Scp
open Lib LocalNode BallotProtocol

/-- Federated voting accepts the ballot as prepared. -/
def CanAccept (scp : SCP) (bp : BallotProtocol) (b : SCPBallot) : Prop :=
  federatedAccept scp bp.mLatestEnvelopes (hasVotedPrepare b) (hasPreparedBallot b) = true

/-- `p` is at least as high as the ballot. -/
def BallotProtocol.Covers (bp : BallotProtocol) (b : SCPBallot) : Prop :=
  ∃ p ∈ bp.mPrepared, b ≤ p

/-- The ballots that the node tries to accept as prepared: in `CONFIRM` only those
that may raise `p`. -/
def BallotProtocol.Considers (bp : BallotProtocol) (b : SCPBallot) : Prop :=
  bp.mPhase = .prepare ∨ bp.mPhase = .confirm ∧ (∀ p ∈ bp.mPrepared, b.value = p.value) ∧
    ∃ c ∈ bp.mCommit, b.value = c.value

/-- Every ballot that can be accepted as prepared is covered. -/
def Settled (scp : SCP) (bp : BallotProtocol) : Prop :=
  ∀ b, bp.Considers b → CanAccept scp bp b → bp.Covers b

/-- Every ballot that can be accepted is covered, or is supported by the statement. -/
def SettledBut (scp : SCP) (hint : BallotPledges) (bp : BallotProtocol) : Prop :=
  ∀ b, bp.Considers b → CanAccept scp bp b →
    bp.Covers b ∨ hasVotedPrepare b hint = true ∨ hasPreparedBallot b hint = true

section
variable {scp scp' : SCP} {bp bp' : BallotProtocol} {b : SCPBallot} {hint : BallotPledges}

theorem BallotProtocol.Covers.of_le {c : SCPBallot} (h : bp.Covers c) (hbc : b ≤ c) :
    bp.Covers b := by
  obtain ⟨p, hp, hle⟩ := h
  exact ⟨p, hp, hbc.trans hle⟩

theorem BallotProtocol.SameBallots.canAccept_iff (h : bp.SameBallots bp') :
    CanAccept scp bp' b ↔ CanAccept scp bp b := by
  rw [CanAccept, CanAccept, h.latest]

theorem BallotProtocol.SameBallots.covers_iff (h : bp.SameBallots bp') :
    bp'.Covers b ↔ bp.Covers b := by
  rw [BallotProtocol.Covers, BallotProtocol.Covers, h.prepared]

theorem BallotProtocol.SameVotes.considers_iff (h : bp.SameVotes bp') :
    bp'.Considers b ↔ bp.Considers b := by
  rw [BallotProtocol.Considers, BallotProtocol.Considers, h.phase, h.prepared, h.commit]

theorem BallotProtocol.SameBallots.settled (h : bp.SameBallots bp') (hs : Settled scp bp) :
    Settled scp bp' := by
  intro b hcon hb
  rw [h.considers_iff] at hcon
  rw [h.canAccept_iff] at hb
  rw [h.covers_iff]
  exact hs b hcon hb

theorem BallotProtocol.SameBallots.settledBut (h : bp.SameBallots bp')
    (hs : SettledBut scp hint bp) : SettledBut scp hint bp' := by
  intro b hcon hb
  rw [h.considers_iff] at hcon
  rw [h.canAccept_iff] at hb
  rw [h.covers_iff]
  exact hs b hcon hb

theorem new_settled (scp : SCP) : Settled scp .new := by
  intro b _ hb
  obtain ⟨n, e, he, -⟩ := exists_of_federatedAccept hb
  cases he

/-- Drivers that know the same quorum sets accept the same ballots. -/
theorem Settled.transfer (hset : scp'.mLocalNode.mQSet = scp.mLocalNode.mQSet)
    (hknown : ∀ n e, bp.mLatestEnvelopes.lookup n = some e →
      getQuorumSetFromStatement scp'.mDriver e.statement =
        getQuorumSetFromStatement scp.mDriver e.statement)
    (hs : Settled scp bp) : Settled scp' bp := by
  intro b hcon hb
  refine hs b hcon (federatedAccept_transfer hset.symm ?_ hb)
  exact fun n e he _ => ⟨e, he, id, id, (hknown n e he).symm⟩

/-- A new statement adds only ballots that it supports. -/
theorem Settled.record (hs : Settled scp bp) (env : BallotEnvelope) :
    SettledBut scp env.statement.pledges (bp.record env) := by
  intro b hcon hb
  by_cases hsup : hasVotedPrepare b env.statement.pledges = true ∨
      hasPreparedBallot b env.statement.pledges = true
  · exact .inr hsup
  · refine .inl (hs b hcon (federatedAccept_transfer rfl ?_ hb))
    intro n e he hor
    have hne : n ≠ env.statement.nodeID := by
      rintro rfl
      rw [BallotProtocol.record, AList.lookup_insert] at he
      cases he
      exact hsup hor
    rw [BallotProtocol.record, AList.lookup_insert_ne hne] at he
    exact ⟨e, he, id, id, rfl⟩

/-- A supported ballot lies below a ballot of the statement. -/
theorem exists_hintBallot_of_supported
    (h : hasVotedPrepare b hint = true ∨ hasPreparedBallot b hint = true) :
    ∃ topVote ∈ hintBallots hint, b.counter ≤ topVote.counter ∧ b.value = topVote.value := by
  cases hint with
  | prepare p =>
    simp only [hasVotedPrepare, hasPreparedBallot, Bool.or_eq_true, Option.any_eq_true,
      areBallotsLessAndCompatible_iff] at h
    rcases h with ⟨hle, hv⟩ | ⟨q, hq, hle, hv⟩ | ⟨q, hq, hle, hv⟩
    · exact ⟨p.ballot, by simp [hintBallots], SCPBallot.counter_le hle, hv⟩
    · exact ⟨q, by simp [hintBallots, hq], SCPBallot.counter_le hle, hv⟩
    · exact ⟨q, by simp [hintBallots, hq], SCPBallot.counter_le hle, hv⟩
  | confirm c =>
    have hv : b.value = c.ballot.value := by
      simp only [hasVotedPrepare, hasPreparedBallot, areBallotsCompatible_iff,
        areBallotsLessAndCompatible_iff] at h
      exact h.elim id fun h => h.2
    exact ⟨⟨uint32Max, c.ballot.value⟩, by simp [hintBallots], le_uint32Max _, hv⟩
  | externalize e =>
    have hv : b.value = e.commit.value := by
      simpa only [hasVotedPrepare, hasPreparedBallot, areBallotsCompatible_iff, or_self] using h
    exact ⟨⟨uint32Max, e.commit.value⟩, by simp [hintBallots], le_uint32Max _, hv⟩

/-- A ballot that the node looks at passes the test on `p`, unless it is lower. -/
theorem mayRaisePrepared_of_considers (hcon : bp.Considers b) (hbp : bp.Consistent) :
    bp.Covers b ∨ mayRaisePrepared bp b = .ok true := by
  rcases hcon with hphase | ⟨hphase, hp, c, hc, hcv⟩
  · refine .inr ?_
    rw [mayRaisePrepared, if_neg (by simp [hphase])]
    rfl
  · obtain ⟨-, p, -, -, -, hpe, -⟩ := hbp.exists_of_later (by simp [hphase])
    rcases le_total b p with hle | hle
    · exact .inl ⟨p, hpe, hle⟩
    · refine .inr ?_
      have hraise : areBallotsLessAndCompatible p b = true :=
        areBallotsLessAndCompatible_iff.mpr ⟨hle, (hp p hpe).symm⟩
      rw [Option.mem_def] at hc
      simp only [mayRaisePrepared, if_pos hphase, hpe, hc, BallotProtocol.read, bind, Except.bind,
        hraise, if_true, BallotProtocol.require, areBallotsCompatible_iff, hcv.symm, pure,
        Except.pure]

variable {st : BallotStatement}

/-- A ballot that can be accepted and is not covered yet lies below a candidate of the
search. -/
theorem exists_candidate_of_supported (hrec : bp.Recorded st) (hcon : bp.Considers b)
    (hbp : bp.Consistent) (hb : CanAccept scp bp b)
    (hsup : hasVotedPrepare b st.pledges = true ∨ hasPreparedBallot b st.pledges = true) :
    bp.Covers b ∨ ∃ k ∈ getPrepareCandidates bp.mLatestEnvelopes st.pledges,
      b ≤ k ∧ IsAcceptable scp bp k := by
  obtain ⟨env, hlook, henv⟩ := hrec
  obtain ⟨topVote, htop, hle, hv⟩ := exists_hintBallot_of_supported hsup
  have hb' : federatedAccept scp bp.mLatestEnvelopes (hasVotedPrepare ⟨b.counter, topVote.value⟩)
      (hasPreparedBallot ⟨b.counter, topVote.value⟩) = true := by
    rwa [← hv]
  obtain ⟨k, hbk, hmem, hk⟩ := exists_prepareCandidate hlook (congrArg _ henv) htop hle hb'
  have hle' : b ≤ ⟨k, topVote.value⟩ := (SCPBallot.le_mk_iff hv).mpr hbk
  have hcon' : bp.Considers ⟨k, topVote.value⟩ := by
    rwa [← hv]
  rcases mayRaisePrepared_of_considers hcon' hbp with hcov | hraise
  · exact .inl (hcov.of_le hle')
  by_cases hprep : isAlreadyPrepared bp ⟨k, topVote.value⟩ = true
  · refine .inl (BallotProtocol.Covers.of_le ?_ hle')
    simp only [isAlreadyPrepared, Bool.or_eq_true, Option.any_eq_true] at hprep
    obtain ⟨p', hp', hc⟩ | ⟨p, hp, hc⟩ := hprep
    · -- `p'` is set, hence so is the greater `p`
      have hkp : (⟨k, topVote.value⟩ : SCPBallot) ≤ p' := by simpa using hc
      have hp : bp.mPrepared ≠ none := by
        intro hnone
        rw [hbp.prime hnone] at hp'
        cases hp'
      obtain ⟨p, hp⟩ := Option.ne_none_iff_exists'.mp hp
      exact ⟨p, hp, hkp.trans (hbp.prepared p hp p' hp').1.le⟩
    · exact ⟨p, hp, (areBallotsLessAndCompatible_iff.mp hc).1⟩
  · exact .inr ⟨_, hmem, hle', hraise, by simpa using hprep, hk⟩

variable {ballot : SCPBallot}

/-- An accepted ballot leaves `p` no lower, and at least as high as the ballot. -/
theorem acceptPrepared_covers (hnew : isAlreadyPrepared bp ballot = false) :
    (bp.acceptPrepared ballot).Covers ballot ∧
      ∀ b, bp.Covers b → (bp.acceptPrepared ballot).Covers b := by
  obtain ⟨q, hq, hle, hold⟩ : ∃ q ∈ (bp.acceptPrepared ballot).mPrepared, ballot ≤ q ∧
      ∀ p ∈ bp.mPrepared, p ≤ q := by
    obtain ⟨hp, h1, -⟩ | ⟨p, hp, hlt, -, h1, -⟩ | ⟨p, hp, hlt, -, -, h1, -⟩ :=
      acceptPrepared_cases hnew
    · exact ⟨ballot, h1, le_rfl, fun p hpe => (hp p hpe).1.le⟩
    · exact ⟨ballot, h1, le_rfl, by simpa [hp] using hlt.le⟩
    · exact ⟨p, h1, hlt.le, by simp [hp]⟩
  refine ⟨⟨q, hq, hle⟩, ?_⟩
  rintro b ⟨p, hp, hb⟩
  exact ⟨q, hq, hb.trans (hold p hp)⟩

/-- The first search finds nothing to accept only if everything is covered. -/
theorem SettledBut.stay (hs : SettledBut scp st.pledges bp) (hrec : bp.Recorded st)
    (hbp : bp.Consistent) (hnone : attemptedAcceptPrepared scp bp st.pledges = .ok none) :
    Settled scp bp := by
  intro b hcon hb
  rcases hs b hcon hb with hcov | hsup
  · exact hcov
  rcases exists_candidate_of_supported hrec hcon hbp hb hsup with hcov | ⟨k, hmem, -, hk⟩
  · exact hcov
  · have hphase : bp.mPhase ≠ .externalize := by
      rcases hcon with hphase | ⟨hphase, -⟩ <;> simp [hphase]
    exact absurd hk (attemptedAcceptPrepared_none hnone hphase k hmem)

/-- Accepting a ballot does not change which ballots the node looks at. -/
theorem considers_of_acceptPrepared (hen : Enabled scp bp (.acceptPrepared ballot))
    (hcon : (bp.acceptPrepared ballot).Considers b) : bp.Considers b := by
  cases hen with
  | acceptPrepared hphase hacc hclear =>
    rcases hcon with hp | ⟨hp, hprep, c, hc, hcv⟩
    · rw [acceptPrepared_mPhase] at hp
      exact .inl hp
    · rw [acceptPrepared_mPhase] at hp
      -- the ballot accepted in `CONFIRM` has the value of `p`
      obtain ⟨p, hpe, -, hv, h1, -⟩ := hacc.of_confirm hp
      refine .inr ⟨hp, ?_, c, mem_mCommit_of_acceptPrepared hc, hcv⟩
      intro q hq
      obtain rfl := Option.mem_unique hpe hq
      rw [hprep ballot h1, hv]

/-- What the first search accepts covers everything. -/
theorem SettledBut.move (hs : SettledBut scp st.pledges bp) (hrec : bp.Recorded st)
    (hbp : bp.Consistent) {m : Move} (hm : attemptedAcceptPrepared scp bp st.pledges = .ok (some m)) :
    Settled scp (m.apply bp) := by
  obtain ⟨ballot, rfl, hphase, -, hacc, hmax, hclear⟩ := attemptedAcceptPrepared_some hm
  obtain ⟨hcov, hkeep⟩ := acceptPrepared_covers hacc.2.1
  intro b hcon hb
  have hcon' := considers_of_acceptPrepared (.acceptPrepared hphase hacc hclear) hcon
  rw [CanAccept, Move.apply, acceptPrepared_mLatestEnvelopes] at hb
  rcases hs b hcon' hb with hold | hsup
  · exact hkeep b hold
  rcases exists_candidate_of_supported hrec hcon' hbp hb hsup with hold | ⟨k, hmem, hle, hk⟩
  · exact hkeep b hold
  · exact hcov.of_le (hle.trans (hmax k hmem hk))

/-- The other moves leave `p` and the statements alone. -/
theorem Settled.move (hs : Settled scp bp) {m : Move} (hp : (m.apply bp).mPrepared = bp.mPrepared)
    (hcon : ∀ b, (m.apply bp).Considers b → bp.Considers b)
    (hen : Enabled scp bp m) : Settled scp (m.apply bp) := by
  intro b hb hacc
  rw [CanAccept, hen.mLatestEnvelopes] at hacc
  obtain ⟨p, hmem, hle⟩ := hs b (hcon b hb) hacc
  exact ⟨p, hp ▸ hmem, hle⟩

/-- Nor does a bump, which keeps `c` if there is one in the end. -/
theorem considers_of_bump (hcon : (bp.bumpedTo ballot).Considers b) :
    bp.Considers b := by
  rcases hcon with hphase | ⟨hphase, hprep, c, hc, hcv⟩
  · exact .inl hphase
  · exact .inr ⟨hphase, hprep, c, mem_mCommit_of_bumpedTo hc, hcv⟩

/-- Nor does accepting a commit, which keeps the value of `c` in `CONFIRM`. -/
theorem considers_of_acceptCommit (hbp : bp.Consistent) {c h : SCPBallot}
    (hen : Enabled scp bp (.acceptCommit c h)) (hcon : (bp.acceptCommit c h).Considers b) :
    bp.Considers b := by
  have hne := hen.mPhase_ne
  rcases hcon with hprep | ⟨-, hprep, c', hc', hcv⟩
  · rw [bp.acceptCommit_mPhase c h hne] at hprep
    cases hprep
  rw [acceptCommit_mCommit] at hc'
  cases hc'
  rw [acceptCommit_mPrepared] at hprep
  cases hphase : bp.mPhase with
  | prepare => exact .inl hphase
  | confirm =>
    obtain ⟨c₀, hc₀, hv⟩ := hen.acceptCommit_value hbp hphase
    exact .inr ⟨hphase, hprep, c₀, hc₀, hcv.trans hv.symm⟩
  | externalize => exact absurd hphase hne

end

/-! ## The contract -/

/-- What is known of the ballots at a stage of a run with a hint. -/
def Coverage (scp : SCP) (hint : BallotStatement) (bp : BallotProtocol) : Stage → Prop
  | .entered => bp.Recorded hint ∧ SettledBut scp hint.pledges bp
  | _ => Settled scp bp

/-- Outside the first attempt everything is covered. -/
def coverageContract (scp : SCP) : Contract scp where
  Ghost := Unit
  At stage _ hint s := Coverage scp hint s.mBallotProtocol stage
  Exit _ s := Settled scp s.mBallotProtocol
  Fails _ _ _ := True

section
variable {scp : SCP} {s t : Slot} {hint : BallotStatement}

theorem Bookkeep.coverage (h : Bookkeep scp s t) {stage : Stage}
    (hs : Coverage scp hint s.mBallotProtocol stage) :
    Coverage scp hint t.mBallotProtocol stage := by
  have hsame := h.sameBallots
  cases stage with
  | entered =>
    refine ⟨?_, hsame.settledBut hs.2⟩
    obtain ⟨env, hlook, henv⟩ := hs.1
    exact ⟨env, by rw [hsame.latest, hlook], henv⟩
  | accepted | confirmed | committed | finished => exact hsame.settled hs

theorem coverage_next (hs : Settled scp s.mBallotProtocol) (stage : Stage) :
    Coverage scp hint s.mBallotProtocol stage.next := by
  cases stage <;> exact hs

theorem coverage_hand (ht : Settled scp t.mBallotProtocol) {K : Slot → Prop}
    (hK : ∀ u, Settled scp u.mBallotProtocol → K u) : (coverageContract scp).Hand () K t := by
  refine ⟨(), ⟨fun _ _ => trivial, fun _ _ _ => trivial, ?_, fun _ _ _ _ => trivial, ?_, ?_⟩, hK,
    fun _ _ _ => trivial⟩
  · exact fun pl _ _ => ht
  · exact fun pl _ _ _ => ⟨recorded_record _ _, ht.record _⟩
  · rintro pl _ _ hext b (hphase | ⟨hphase, -⟩)
    · exact absurd (hext.symm.trans hphase) (by decide)
    · exact absurd (hext.symm.trans hphase) (by decide)

theorem coverage_bumps (hs : Settled scp s.mBallotProtocol) {K : Slot → Prop}
    (hK : ∀ u, Settled scp u.mBallotProtocol → K u) (value : Value) (n : Uint32) :
    (coverageContract scp).Bumps () K s value n := by
  intro t hcan hm
  have ht : Settled scp t.mBallotProtocol := by
    rw [hm.mBallotProtocol]
    intro b hcon hb
    exact hs b (considers_of_bump hcon) hb
  exact ⟨fun _ _ => trivial, fun _ => coverage_hand (t := t.log _) ht hK⟩

/-- Every move but the first search's keeps `p`, and none returns to `PREPARE`. -/
theorem Settled.moved (hs : Settled scp s.mBallotProtocol) {stage : Stage}
    (hstage : stage ≠ .entered) {m : Move}
    (hm : attempted scp s.mBallotProtocol hint.pledges stage = .ok (some m))
    (hconsistent : s.mBallotProtocol.Consistent) (hen : Enabled scp s.mBallotProtocol m)
    (ht : Moved s m t) : Settled scp t.mBallotProtocol := by
  rw [ht.mBallotProtocol]
  cases hen with
  | acceptPrepared =>
    exfalso
    cases stage with
    | entered => exact hstage rfl
    | accepted => obtain ⟨_, _, h, -⟩ := attempted_accepted_some hm; cases h
    | confirmed => obtain ⟨_, _, _, _, h, -⟩ := attemptedAcceptCommit_some hm; cases h
    | committed =>
      obtain ⟨_, _, _, _, h, -⟩ := attemptedConfirmCommit_some (Except.ok.inj hm)
      cases h
    | finished => cases hm
  | confirmPrepared hphase hp hhigh hrat hvote =>
    exact hs.move (confirmPrepared_mPrepared _ _) (fun _ _ => .inl hphase)
      (.confirmPrepared hphase hp hhigh hrat hvote)
  | acceptCommit hval hpos hle hp hphase hacc =>
    have hen := Enabled.acceptCommit hval hpos hle hp hphase hacc
    exact hs.move (acceptCommit_mPrepared _ _)
      (fun _ => considers_of_acceptCommit hconsistent hen) hen
  | confirmCommit =>
    intro b hcon
    rcases hcon with hphase | ⟨hphase, -⟩ <;> cases hphase
  | bump hcan hpos => exact fun b hcon hb => hs b (considers_of_bump hcon) hb

theorem coverageContract_holds (scp : SCP) :
    (coverageContract scp).HoldsGiven fun stage hint s =>
      ∃ g, (stepsContract scp).At stage g hint s where
  keeps_at stage g hint s t _ hb h := hb.coverage h
  keeps_exit g s t hb h := hb.sameBallots.settled h
  error _ _ _ _ _ _ _ _ := trivial
  stay stage g hint s hP h he := by
    obtain ⟨_, hreach, -⟩ := hP
    cases stage with
    | entered => exact h.2.stay h.1 hreach.consistent he
    | accepted | confirmed | committed | finished => exact h
  move stage g hint s m t hP h hm ht := by
    obtain ⟨_, hreach, hpend⟩ := hP
    refine coverage_hand ?_ fun u hu => coverage_next hu stage
    have hen := enabled_of_attempted hreach.consistent hpend hm
    cases stage with
    | entered =>
      rw [ht.mBallotProtocol]
      exact h.2.move h.1 hreach.consistent hm
    | accepted | confirmed | committed | finished =>
      exact Settled.moved h (by simp) hm hreach.consistent hen ht
  bump g hint s value n _ h _ _ _ := coverage_bumps h (fun _ hu => hu) value n
  finish _ _ _ _ h := h
  tooManyTransitions _ _ _ _ _ := trivial
  diverges _ _ _ _ _ := trivial

/-- Steps that end with everything covered. -/
abbrev coveredSteps (scp : SCP) : Contract scp := (stepsContract scp).and (coverageContract scp)

theorem coveredSteps_holds (scp : SCP) : (coveredSteps scp).Holds :=
  Contract.holds_and (stepsContract_holds scp) (coverageContract_holds scp)

theorem opens_coveredSteps {s : Slot} (hs : s.mBallotProtocol.Consistent)
    (hset : Settled scp s.mBallotProtocol) (call : BallotCall) :
    (coveredSteps scp).Opens (call.Begins scp s, ()) s call := by
  refine (call.opens_stepsContract scp hs).and ⟨hset, fun _ _ => trivial, fun _ _ => trivial, ?_,
    ?_, ?_, fun _ _ _ => hset⟩
  · exact fun env _ _ _ => ⟨recorded_record _ _, hset.record env⟩
  · rintro env _ _ hext b (hphase | ⟨hphase, -⟩)
    · exact absurd (hext.symm.trans hphase) (by decide)
    · exact absurd (hext.symm.trans hphase) (by decide)
  · exact fun value n _ _ => coverage_bumps hset (fun _ hu => hu) value n

end

end DigitalBits.Scp
