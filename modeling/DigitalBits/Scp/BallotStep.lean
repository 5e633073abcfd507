import DigitalBits.Scp.BallotInvariant

/-!
# A call as a sequence of steps

`BallotStep` lists what can happen to a slot while a call runs: bookkeeping, a
statement signed and possibly recorded, and a guarded move. Every call from
outside is a sequence of such steps, also when it fails, so what the steps keep
holds at every point of every run.
-/
namespace DigitalBits.Scp
open Lib LocalNode

/-- One step of a node within a call. -/
inductive BallotStep (scp : SCP) : Slot → Slot → Prop
  | keep {s t : Slot} (h : Bookkeep scp s t) : BallotStep scp s t
  | sign {s : Slot} {pl : BallotPledges} (hpl : Pledges scp s pl) :
      BallotStep scp s (s.signed (scp.ownEnvelope s pl))
  | record {s : Slot} {pl : BallotPledges} (hpl : Pledges scp s pl)
      (hadm : Admits scp s (scp.ownEnvelope s pl).statement true) :
      BallotStep scp s ((s.signed (scp.ownEnvelope s pl)).record (scp.ownEnvelope s pl))
  | move {s t : Slot} {m : Move} (hen : Enabled scp s.mBallotProtocol m) (hm : Moved s m t) :
      BallotStep scp s t

abbrev BallotSteps (scp : SCP) : Slot → Slot → Prop := Relation.ReflTransGen (BallotStep scp)

section
variable {scp : SCP} {s t : Slot}

variable {m : Move}

theorem Moved.mBallotProtocol (h : Moved s m t) :
    t.mBallotProtocol = m.apply s.mBallotProtocol := by
  obtain ⟨evs, -, rfl⟩ := h
  rfl

theorem Moved.mSlotIndex (h : Moved s m t) : t.mSlotIndex = s.mSlotIndex := by
  obtain ⟨evs, -, rfl⟩ := h
  rfl

theorem BallotStep.consistent (h : BallotStep scp s t) (hs : s.mBallotProtocol.Consistent) :
    t.mBallotProtocol.Consistent := by
  cases h with
  | keep h => exact h.sameBallots.consistent hs
  | sign hpl => exact hs
  | record hpl hadm => exact hs.record _
  | move hen hm => rw [hm.mBallotProtocol]; exact hen.consistent hs

theorem BallotSteps.consistent (h : BallotSteps scp s t) (hs : s.mBallotProtocol.Consistent) :
    t.mBallotProtocol.Consistent :=
  keeps_of_steps (P := fun s => s.mBallotProtocol.Consistent) (fun _ _ h => h.consistent) h hs

theorem Enabled.mPrepared {bp : BallotProtocol} (h : Enabled scp bp m) (hp : bp.mPrepared ≠ none) :
    (m.apply bp).mPrepared ≠ none := by
  cases h with
  | acceptPrepared _ hacc _ => exact hacc.mPrepared
  | confirmPrepared | acceptCommit | confirmCommit => simpa [Move.apply] using hp
  | bump => exact hp

theorem Enabled.mLatestEnvelopes {bp : BallotProtocol} (h : Enabled scp bp m) :
    (m.apply bp).mLatestEnvelopes = bp.mLatestEnvelopes := by
  cases h <;> simp [Move.apply]

/-- Once some ballot is accepted prepared there is always one. -/
theorem BallotStep.mPrepared (h : BallotStep scp s t) (hs : s.mBallotProtocol.mPrepared ≠ none) :
    t.mBallotProtocol.mPrepared ≠ none := by
  cases h with
  | keep h => rw [h.sameBallots.prepared]; exact hs
  | sign hpl | record hpl hadm => exact hs
  | move hen hm => rw [hm.mBallotProtocol]; exact hen.mPrepared hs

end

/-! ## From the hint to a prepared ballot -/

/-- The statement is the recorded one of its node. -/
def BallotProtocol.Recorded (bp : BallotProtocol) (st : BallotStatement) : Prop :=
  ∃ env, bp.mLatestEnvelopes.lookup st.nodeID = some env ∧ env.statement = st

theorem BallotProtocol.recorded_record (bp : BallotProtocol) (env : BallotEnvelope) :
    (bp.record env).Recorded env.statement :=
  ⟨env, by simp [BallotProtocol.record], rfl⟩

section
variable {scp : SCP} {bp bp' : BallotProtocol}

theorem BallotProtocol.SameBallots.isAcceptable_iff (h : bp.SameBallots bp') (b : SCPBallot) :
    IsAcceptable scp bp' b ↔ IsAcceptable scp bp b := by
  simp only [IsAcceptable, mayRaisePrepared, isAlreadyPrepared, h.phase, h.prepared,
    h.preparedPrime, h.commit, h.latest]

variable {ballot : SCPBallot}

theorem exists_hintBallot {hint : BallotPledges} (h : acceptCommitHint hint = some ballot) :
    ∃ topVote ∈ hintBallots hint, topVote.value = ballot.value := by
  cases hint with
  | prepare p =>
    simp only [acceptCommitHint, Option.ite_none_right_eq_some, Option.some.injEq] at h
    exact ⟨p.ballot, by simp [hintBallots], by rw [← h.2]⟩
  | confirm c =>
    cases h
    exact ⟨⟨uint32Max, c.ballot.value⟩, by simp [hintBallots], rfl⟩
  | externalize e =>
    cases h
    exact ⟨⟨uint32Max, e.commit.value⟩, by simp [hintBallots], rfl⟩

variable {cur : Interval}

theorem hasVotedPrepare_of_hasVotedCommit {pl : BallotPledges}
    (h : hasVotedCommit ballot cur pl = true) :
    hasVotedPrepare ⟨0, ballot.value⟩ pl = true := by
  cases pl <;> simp only [hasVotedCommit, hasVotedPrepare, Bool.and_eq_true,
    areBallotsCompatible_iff, areBallotsLessAndCompatible_iff] at h ⊢
  · exact ⟨(SCPBallot.mk_le_iff h.1).mpr (Fin.zero_le _), h.1⟩
  · exact h.1
  · exact h.1

theorem hasPreparedBallot_of_commitPredicate {pl : BallotPledges}
    (h : commitPredicate ballot cur pl = true) :
    hasPreparedBallot ⟨0, ballot.value⟩ pl = true := by
  cases pl <;> simp only [commitPredicate, hasPreparedBallot, Bool.and_eq_true,
    areBallotsCompatible_iff, areBallotsLessAndCompatible_iff, Bool.false_eq_true] at h ⊢
  · refine ⟨(SCPBallot.mk_le_iff ?_).mpr (Fin.zero_le _), h.1⟩
    exact h.1
  · exact h.1

/-- Without a prepared ballot, a statement from which a commit can be accepted
offers a ballot that can be accepted prepared. -/
theorem exists_isAcceptable {hint : BallotStatement} (hrec : bp.Recorded hint)
    (hphase : bp.mPhase ≠ .confirm) (hp : bp.mPrepared = none) (hp' : bp.mPreparedPrime = none)
    (hhint : acceptCommitHint hint.pledges = some ballot)
    (hacc : federatedAccept scp bp.mLatestEnvelopes (hasVotedCommit ballot cur)
      (commitPredicate ballot cur) = true) :
    ∃ b ∈ getPrepareCandidates bp.mLatestEnvelopes hint.pledges, IsAcceptable scp bp b := by
  obtain ⟨topVote, htop, hv⟩ := exists_hintBallot hhint
  obtain ⟨env, hlook, henv⟩ := hrec
  have hzero : federatedAccept scp bp.mLatestEnvelopes (hasVotedPrepare ⟨0, topVote.value⟩)
      (hasPreparedBallot ⟨0, topVote.value⟩) = true := by
    rw [hv]
    exact federatedAccept_mono (fun _ _ _ => hasVotedPrepare_of_hasVotedCommit)
      (fun _ _ _ => hasPreparedBallot_of_commitPredicate) hacc
  obtain ⟨k, -, hmem, hk⟩ := exists_prepareCandidate hlook (congrArg _ henv) htop
    (Fin.zero_le _) hzero
  refine ⟨_, hmem, ?_, ?_, hk⟩
  · rw [mayRaisePrepared, if_neg hphase]
    rfl
  · simp [isAlreadyPrepared, hp, hp']

end

/-! ## Calls as sequences of steps -/

/-- What is known of the hint while the node has no prepared ballot: it is the
recorded statement of its node, and after the first search it offers no ballot
to accept. -/
def Pending (scp : SCP) (hint : BallotStatement) (bp : BallotProtocol) : Stage → Prop
  | .entered => bp.Recorded hint
  | .accepted | .confirmed => bp.mPrepared = none → bp.Recorded hint ∧
      ∀ b ∈ getPrepareCandidates bp.mLatestEnvelopes hint.pledges, ¬ IsAcceptable scp bp b
  | .committed | .finished => True

/-- `s` is reached by steps from a consistent slot in `g`. -/
def Reached (scp : SCP) (g : Slot → Prop) (s : Slot) : Prop :=
  ∃ s₀, g s₀ ∧ s₀.mBallotProtocol.Consistent ∧ BallotSteps scp s₀ s

section
variable {scp : SCP} {g : Slot → Prop} {s t : Slot} {hint : BallotStatement}

theorem Reached.consistent (h : Reached scp g s) : s.mBallotProtocol.Consistent := by
  obtain ⟨s₀, -, hs₀, hsteps⟩ := h
  exact hsteps.consistent hs₀

theorem Reached.step (h : Reached scp g s) (hst : BallotStep scp s t) : Reached scp g t := by
  obtain ⟨s₀, hg, hs₀, hsteps⟩ := h
  exact ⟨s₀, hg, hs₀, hsteps.tail hst⟩

theorem Reached.trans (h : Reached scp g s) (hst : Reached scp (· = s) t) : Reached scp g t := by
  obtain ⟨s₀, hg, hs₀, hsteps⟩ := h
  obtain ⟨_, rfl, -, hsteps'⟩ := hst
  exact ⟨s₀, hg, hs₀, hsteps.trans hsteps'⟩

theorem Reached.refl (h : s.mBallotProtocol.Consistent) : Reached scp (· = s) s :=
  ⟨s, rfl, h, .refl⟩

variable {stage : Stage}

theorem Bookkeep.pending (h : Bookkeep scp s t) (hs : Pending scp hint s.mBallotProtocol stage) :
    Pending scp hint t.mBallotProtocol stage := by
  have hsame := h.sameBallots
  cases stage with
  | entered =>
    simpa only [Pending, BallotProtocol.Recorded, hsame.latest] using hs
  | accepted | confirmed =>
    simpa only [Pending, BallotProtocol.Recorded, hsame.latest, hsame.prepared,
      hsame.isAcceptable_iff] using hs
  | committed | finished => trivial

theorem pending_of_mPrepared (h : s.mBallotProtocol.mPrepared ≠ none) (hstage : stage ≠ .entered) :
    Pending scp hint s.mBallotProtocol stage := by
  cases stage with
  | entered => exact absurd rfl hstage
  | accepted | confirmed => exact fun hnone => absurd hnone h
  | committed | finished => trivial

/-- The outcome of a search is a guarded move. -/
theorem enabled_of_attempted {bp : BallotProtocol} (hbp : bp.Consistent)
    (hpend : Pending scp hint bp stage) {m : Move}
    (hm : attempted scp bp hint.pledges stage = .ok (some m)) : Enabled scp bp m := by
  cases stage with
  | entered =>
    obtain ⟨ballot, rfl, hphase, -, hacc, -, hclear⟩ := attemptedAcceptPrepared_some hm
    exact .acceptPrepared hphase hacc hclear
  | accepted =>
    obtain ⟨newC, newH, rfl, hfound, -⟩ := attempted_accepted_some hm
    obtain ⟨hphase, hp, -, hhigh, hrat, hvote⟩ := confirmablePrepared_some hfound
    exact .confirmPrepared hphase hp hhigh hrat hvote
  | confirmed =>
    obtain ⟨ballot, c, h, hhint, rfl, hcv, hhv, hcand, hpos, hphase⟩ :=
      attemptedAcceptCommit_some hm
    have hne := (congrArg Prod.fst hcand).symm.trans_ne hpos
    obtain ⟨hacc, hle⟩ := findAcceptCommit_spec hne
    rw [← hcand] at hacc hle
    refine .acceptCommit (hcv.trans hhv.symm) hpos hle ?_ ?_ ?_
    · intro hnone
      have hprep : bp.mPhase ≠ .confirm := fun hc =>
        (hbp.later (by simp [hc])).2 hnone
      obtain ⟨hrec, hno⟩ := hpend hnone
      obtain ⟨b, hmem, hb⟩ := exists_isAcceptable hrec hprep hnone (hbp.prime hnone) hhint hacc
      exact hno b hmem hb
    · refine hphase.imp_right ?_
      rintro ⟨hphase, h₀, hh₀, hv, hlt⟩
      exact ⟨hphase, h₀, hh₀, hv.trans hhv.symm, hlt⟩
    · rwa [hasVotedCommit_congr hcv, commitPredicate_congr hcv]
  | committed =>
    obtain ⟨ballot, c, h, hhint, rfl, hcv, hhv, hcand, hpos, hphase, c₀, hc₀, hsame⟩ :=
      attemptedConfirmCommit_some (Except.ok.inj hm)
    have hne := (congrArg Prod.fst hcand).symm.trans_ne hpos
    obtain ⟨hrat, hle⟩ := findConfirmCommit_spec hne
    rw [← hcand] at hrat hle
    refine .confirmCommit (hcv.trans hhv.symm) hpos hle hphase hc₀ (hsame.trans hcv.symm) ?_
    rwa [commitPredicate_congr hcv]
  | finished => cases hm

/-- The search of a consistent node fails by an assertion at most; it never reads
through a null pointer. -/
theorem attempted_error {bp : BallotProtocol} (hbp : bp.Consistent) {e : Failure}
    (he : attempted scp bp hint.pledges stage = .error e) : ∃ a, e = .assertion a := by
  cases stage with
  | entered =>
    rcases attemptedAcceptPrepared_error he with ⟨b, -, hb⟩ | ⟨rfl, -⟩
    · obtain ⟨hphase, hp | hc | ⟨rfl, -⟩⟩ := mayRaisePrepared_error hb
      · exact absurd hp (hbp.later (by simp [hphase])).2
      · exact absurd hc (hbp.later (by simp [hphase])).1
      · exact ⟨_, rfl⟩
    · exact ⟨_, rfl⟩
  | accepted => cases he
  | confirmed =>
    obtain ⟨hphase, hh⟩ := attemptedAcceptCommit_error he
    obtain ⟨b, p, h, c, -, -, hh', -⟩ := hbp.exists_of_later (by simp [hphase])
    rw [hh] at hh'
    cases hh'
  | committed | finished => cases he

end

/-- The contract that every run of `advanceSlot` is a sequence of steps and that
none of them reads through a null pointer. -/
def stepsContract (scp : SCP) : Contract scp where
  Ghost := Slot → Prop
  At stage g hint s := Reached scp g s ∧ Pending scp hint s.mBallotProtocol stage
  Exit := Reached scp
  Fails g e s := e ≠ .nullDereference ∧ Reached scp g s

section
variable {scp : SCP} {g : Slot → Prop} {s t : Slot} {hint : BallotStatement}

theorem stepsContract_speaks (ht : t.mBallotProtocol.Consistent) :
    Speaks scp ((stepsContract scp).At .entered (· = t)) ((stepsContract scp).Exit (· = t))
      ((stepsContract scp).Fails (· = t)) t where
  check e he := by
    refine ⟨?_, (Reached.refl ht).step (.keep (.check t))⟩
    rintro rfl
    exact ht.checkInvariants_ne he
  null _ e he := by
    obtain ⟨pl, hpl⟩ := ht.pledges_ok scp.mLocalNode.mQSetHash
    rw [hpl] at he
    cases he
  same pl hpl _ := (Reached.refl ht).step (.sign hpl)
  bad pl hpl _ _ := ⟨by simp, (Reached.refl ht).step (.sign hpl)⟩
  record pl hpl hadm _ :=
    ⟨(Reached.refl ht).step (.record hpl hadm), BallotProtocol.recorded_record _ _⟩
  recordFinal pl hpl hadm _ := (Reached.refl ht).step (.record hpl hadm)

/-- Speaking after a step: what follows is reached from there on. -/
theorem stepsContract_hand (ht : Reached scp g t) {K : Slot → Prop}
    (hK : ∀ u, Reached scp (· = t) u → K u) : (stepsContract scp).Hand g K t :=
  ⟨(· = t), stepsContract_speaks ht.consistent, hK, fun _ _ hu => ⟨hu.1, ht.trans hu.2⟩⟩

theorem stepsContract_bumps (hs : Reached scp g s) {K : Slot → Prop}
    (hK : ∀ u, Reached scp g u → K u) (value : Value) {n : Uint32} (hn : n ≠ 0) :
    (stepsContract scp).Bumps g K s value n := by
  intro t hcan hm
  have ht := hs.step (.move (.bump hcan hn) hm)
  have hcheck := ht.step (.keep (.check t))
  refine ⟨fun e he => ⟨?_, hcheck⟩, fun _ => ?_⟩
  · rintro rfl
    exact ht.consistent.checkInvariants_ne he
  · exact stepsContract_hand hcheck fun u hu => hK u (hcheck.trans hu)

/-- Every move of a search leaves a prepared ballot. -/
theorem mPrepared_of_attempted {bp : BallotProtocol} {stage : Stage} {m : Move}
    (hm : attempted scp bp hint.pledges stage = .ok (some m)) (hen : Enabled scp bp m)
    (hbp : bp.Consistent) : (m.apply bp).mPrepared ≠ none := by
  cases stage with
  | entered =>
    obtain ⟨ballot, rfl, -, -, hacc, -⟩ := attemptedAcceptPrepared_some hm
    exact hacc.mPrepared
  | accepted =>
    obtain ⟨newC, newH, rfl, hfound, -⟩ := attempted_accepted_some hm
    exact hen.mPrepared (confirmablePrepared_some hfound).2.1
  | confirmed =>
    obtain ⟨-, c, h, -, rfl, -⟩ := attemptedAcceptCommit_some hm
    cases hen with
    | acceptCommit hval hpos hle hp hphase hacc => simpa [Move.apply] using hp
  | committed =>
    obtain ⟨-, c, h, -, rfl, -, -, -, -, hphase, -⟩ :=
      attemptedConfirmCommit_some (Except.ok.inj hm)
    exact hen.mPrepared (hbp.later (by simp [hphase])).2
  | finished => cases hm

theorem stepsContract_holds (scp : SCP) : (stepsContract scp).Holds where
  keeps_at stage g hint s t _ hb h := ⟨h.1.step (.keep hb), hb.pending h.2⟩
  keeps_exit g s t hb h := h.step (.keep hb)
  error stage g hint s e _ h he := by
    obtain ⟨a, rfl⟩ := attempted_error h.1.consistent he
    exact ⟨by simp, h.1⟩
  stay stage g hint s _ h he := by
    refine ⟨h.1, ?_⟩
    cases stage with
    | entered =>
      intro hnone
      refine ⟨h.2, attemptedAcceptPrepared_none he ?_⟩
      intro hext
      exact (h.1.consistent.later (by simp [hext])).2 hnone
    | accepted => exact h.2
    | confirmed | committed | finished => trivial
  move stage g hint s m t _ h hm ht := by
    have hen := enabled_of_attempted h.1.consistent h.2 hm
    have hreach := h.1.step (.move hen ht)
    refine stepsContract_hand hreach fun u hu => ⟨hreach.trans hu, ?_⟩
    obtain ⟨_, rfl, -, hsteps⟩ := hu
    refine pending_of_mPrepared ?_ (by cases stage <;> simp [Stage.next])
    refine keeps_of_steps (P := fun u => u.mBallotProtocol.mPrepared ≠ none)
      (fun _ _ h => h.mPrepared) hsteps ?_
    rw [ht.mBallotProtocol]
    exact mPrepared_of_attempted hm hen h.1.consistent
  bump g hint s value n _ h _ _ hn := stepsContract_bumps h.1 (fun u hu => ⟨hu, trivial⟩) value hn
  finish g hint s _ h := h.1
  tooManyTransitions g hint s _ h := ⟨by simp, h.1⟩
  diverges g hint s _ h := ⟨by simp, h.1⟩

end

end DigitalBits.Scp
