import DigitalBits.Scp.Agreement
import DigitalBits.Scp.BallotCoverage

/-!
# The prepared ballot in `CONFIRM`

`setAcceptCommit` changes the phase without looking at `p`. That `p` has the value of
`c` from then on is a matter of what the node has recorded: whoever votes for a commit
or accepts it has to have voted for, or accepted, the ballot as prepared. Statements of
correct nodes are of this kind. For an ill-behaved sender of a `CONFIRM` nothing checks
it, so it is a condition on the run.
-/
namespace DigitalBits.Scp
open Lib LocalNode BallotProtocol SCPBallot List

/-- `p'` is gone in `CONFIRM`, and `p` is at least `h` and on its value. -/
def BallotProtocol.Anchored (bp : BallotProtocol) : Prop :=
  bp.mPhase = .confirm → bp.mPreparedPrime = none ∧
    ∀ p ∈ bp.mPrepared, ∀ h ∈ bp.mHighBallot, h ≤ p ∧ h.value = p.value

/-- What the statement says of a commit it also says of the prepared ballot. -/
def BallotPledges.Backed : BallotPledges → Prop
  | .prepare p => p.nC ≠ 0 → p.nH ≤ p.ballot.counter
  | .confirm c => c.nH ≤ c.nPrepared
  | .externalize _ => True

section
variable {scp : SCP} {bp bp' : BallotProtocol} {pl : BallotPledges} {m : Move}

variable {c : SCPBallot}

theorem BallotPledges.Backed.votedPrepare (h : pl.Backed) {n : Uint32}
    (hvote : hasVotedCommit c (c.counter, n) pl = true) :
    hasVotedPrepare ⟨n, c.value⟩ pl = true := by
  cases pl with
  | prepare p =>
    simp only [hasVotedCommit, hasVotedPrepare, Bool.and_eq_true, areBallotsCompatible_iff,
      areBallotsLessAndCompatible_iff, decide_eq_true_eq] at hvote ⊢
    obtain ⟨hval, hne, -, hle⟩ := hvote
    exact ⟨(mk_le_iff hval).mpr (hle.trans (h hne)), hval⟩
  | confirm x | externalize x =>
    simp only [hasVotedCommit, hasVotedPrepare, Bool.and_eq_true, areBallotsCompatible_iff]
      at hvote ⊢
    exact hvote.1

theorem BallotPledges.Backed.preparedBallot (h : pl.Backed) {n : Uint32}
    (hacc : commitPredicate c (c.counter, n) pl = true) :
    hasPreparedBallot ⟨n, c.value⟩ pl = true := by
  cases pl with
  | prepare p => cases hacc
  | confirm x =>
    simp only [commitPredicate, hasPreparedBallot, Bool.and_eq_true, areBallotsCompatible_iff,
      areBallotsLessAndCompatible_iff, decide_eq_true_eq] at hacc ⊢
    obtain ⟨hval, -, hle⟩ := hacc
    have hle' : n ≤ x.nPrepared := hle.trans h
    refine ⟨?_, hval⟩
    rw [hval]
    exact (le_mk_iff rfl).mpr hle'
  | externalize x =>
    simp only [commitPredicate, hasPreparedBallot, Bool.and_eq_true, areBallotsCompatible_iff]
      at hacc ⊢
    exact hacc.1

/-- A commit can be accepted only together with the prepared ballot. -/
theorem canAccept_of_acceptCommit
    (hback : ∀ n e, bp.mLatestEnvelopes.lookup n = some e → e.statement.pledges.Backed)
    {h : SCPBallot} (hval : c.value = h.value)
    (hacc : federatedAccept scp bp.mLatestEnvelopes (hasVotedCommit c (c.counter, h.counter))
      (commitPredicate c (c.counter, h.counter)) = true) : CanAccept scp bp h := by
  have hh : h = ⟨h.counter, c.value⟩ := by rw [hval]
  rw [CanAccept, hh]
  exact federatedAccept_mono (fun n e he => (hback n e he).votedPrepare)
    (fun n e he => (hback n e he).preparedBallot) hacc

theorem BallotProtocol.SameBallots.anchored (h : bp.SameBallots bp') (hs : bp.Anchored) :
    bp'.Anchored := by
  rwa [BallotProtocol.Anchored, h.phase, h.prepared, h.preparedPrime, h.high]

/-- In `CONFIRM` all ballots are on one value. -/
theorem BallotProtocol.Anchored.commit_value (hs : bp.Anchored) (hbp : bp.Consistent)
    (hphase : bp.mPhase = .confirm) :
    ∃ p c, bp.mPrepared = some p ∧ bp.mCommit = some c ∧ p.value = c.value := by
  obtain ⟨-, p, h, c, -, hp, hh, hc, -, hch, -⟩ := hbp.exists_of_later (by simp [hphase])
  exact ⟨p, c, hp, hc, ((hs hphase).2 p hp h hh).2.symm.trans hch.symm⟩

/-- Moves other than accepting a commit keep `p` in place. -/
theorem BallotProtocol.Anchored.move (hs : bp.Anchored)
    (hen : Enabled scp bp m) (hm : ∀ c h, m ≠ .acceptCommit c h) : (m.apply bp).Anchored := by
  cases hen with
  | @acceptPrepared ballot hphase hacc hclear =>
    intro hconf
    rw [Move.apply, acceptPrepared_mPhase] at hconf
    obtain ⟨hprime, hhigh⟩ := hs hconf
    obtain ⟨p, hp, hlt, hval, h1, h2⟩ := hacc.of_confirm hconf
    refine ⟨h2.trans hprime, ?_⟩
    intro q hq h hh
    obtain rfl := Option.mem_unique h1 hq
    rw [Move.apply, acceptPrepared_mHighBallot] at hh
    obtain ⟨hhp, hhv⟩ := hhigh p hp h hh
    exact ⟨hhp.trans hlt.le, hhv.trans hval⟩
  | confirmPrepared hphase =>
    intro hconf
    rw [Move.apply, confirmPrepared_mPhase, hphase] at hconf
    cases hconf
  | acceptCommit => exact absurd rfl (hm _ _)
  | confirmCommit => intro hconf; cases hconf
  | @bump ballot hcan hpos =>
    intro hconf
    obtain ⟨hprime, hhigh⟩ := hs hconf
    exact ⟨hprime, fun p hp h hh => hhigh p hp h (mem_mHighBallot_of_bumpedTo hh)⟩

/-- The commit that a settled node accepts is on the value of `p`. The ballot on top of
the commit could be accepted as prepared, so `p` is not below it; a greater `p` on
another value would contradict the commit. -/
theorem anchored_acceptCommit (hs : bp.Anchored) (hbp : bp.Consistent) (hset : Settled scp bp)
    (hback : ∀ n e, bp.mLatestEnvelopes.lookup n = some e → e.statement.pledges.Backed)
    {h : SCPBallot} (hen : Enabled scp bp (.acceptCommit c h)) {v : NodeID}
    {F : Votes NodeID SCPBallot} {quorums : Set (Set NodeID)}
    (hsafe : F.Safe value quorums) (hown : ((bp.acceptCommit c h).ownVotes v).Le F) :
    (bp.acceptCommit c h).Anchored := by
  have hen' := hen
  cases hen with
  | acceptCommit hval hpos hle hp hphase hacc =>
    have hcon : bp.Considers h := by
      rcases hphase with hphase | ⟨hphase, h₀, hh₀, hv₀, -⟩
      · exact .inl hphase
      · obtain ⟨-, -, h', c₀, -, -, hh', hc₀, -, hch, -⟩ :=
          hbp.exists_of_later (by simp [hphase])
        obtain rfl := Option.mem_unique hh₀ hh'
        refine .inr ⟨hphase, ?_, c₀, hc₀, hv₀.symm.trans hch.symm⟩
        intro p hp
        exact hv₀.symm.trans ((hs hphase).2 p hp h₀ hh₀).2
    obtain ⟨p, hpe, hhp⟩ := hset h hcon (canAccept_of_acceptCommit hback hval hacc)
    intro hconf
    refine ⟨?_, ?_⟩
    · rw [acceptCommit_mPreparedPrime]
      rcases hphase with hphase | ⟨hphase, -⟩
      · rw [if_pos hphase]
      · rw [if_neg (by simp [hphase])]
        exact (hs hphase).1
    · intro q hq h' hh'
      rw [acceptCommit_mPrepared] at hq
      rw [acceptCommit_mHighBallot] at hh'
      cases hh'
      obtain rfl := Option.mem_unique hpe hq
      refine ⟨hhp, ?_⟩
      by_contra hvne
      have hac : F.acceptedCommit v c := hown.acceptedCommit_le v c
        ⟨rfl, by simp [hconf], acceptCommit_mCommit c h⟩
      have hap : F.acceptedPrepare v p := by
        refine hown.acceptedPrepare_le v p ⟨rfl, p, .inl ?_, le_rfl, rfl⟩
        rwa [acceptCommit_mPrepared]
      have hch : c ≤ h := (le_iff_of_value_eq hval).mpr hle
      have hcp : c < p := lt_of_le_of_ne (hch.trans hhp) (by
        rintro rfl
        exact hvne hval.symm)
      refine hsafe.commit_prepare v c v p hac hap ?_ hcp
      rw [hval]
      exact Ne.symm hvne

/-- What an anchored node says is backed. -/
theorem BallotProtocol.Anchored.backed (hs : bp.Anchored) (hbp : bp.Consistent) {hash : Hash}
    (hpl : bp.pledges hash bp.mPhase.statementType = .ok pl) : pl.Backed := by
  have htold := hbp.told hpl
  obtain ⟨-, rfl⟩ | ⟨-, b, p, c, h, hb, hp, hc, hh, rfl⟩ | ⟨-, c, h, hc, hh, rfl⟩ :=
    pledges_cases hpl
  · change (bp.mCommit.map counter).getD 0 ≠ 0 →
      (bp.mHighBallot.map counter).getD 0 ≤ (bp.mCurrentBallot.getD default).counter
    intro _
    cases hh : bp.mHighBallot with
    | none => exact Fin.zero_le _
    | some h =>
      obtain ⟨b, hb, hle, -⟩ := hbp.high h hh
      rw [hb]
      exact counter_le hle
  · exact counter_le ((hs htold.1).2 p hp h hh).1
  · trivial

/-- The searches of an anchored node trip over no assertion about `p` and `c`. -/
theorem BallotProtocol.Anchored.attempted_error (hs : bp.Anchored) (hbp : bp.Consistent)
    {hint : BallotStatement} {stage : Stage} {e : Failure}
    (he : attempted scp bp hint.pledges stage = .error e) : False := by
  cases stage with
  | entered =>
    rcases attemptedAcceptPrepared_error he with ⟨b, -, hb⟩ | ⟨-, hphase, ballot, -, hacc, hclear⟩
    · obtain ⟨hphase, hp | hc | ⟨-, p, hp, -, hval, c, hc, hne⟩⟩ := mayRaisePrepared_error hb
      · exact (hbp.later (by simp [hphase])).2 hp
      · exact (hbp.later (by simp [hphase])).1 hc
      · obtain ⟨p', c', hp', hc', hpc⟩ := hs.commit_value hbp hphase
        obtain rfl := Option.mem_unique hp hp'
        obtain rfl := Option.mem_unique hc hc'
        exact hne (hpc.symm.trans hval)
    · -- `p` moves to a ballot on its own value, so nothing contradicts `c`
      obtain ⟨h, hh, q, hq, -, hne⟩ := exists_of_clears _ _ hclear
      obtain ⟨hprime, hhigh⟩ := hs hphase
      obtain ⟨p, hp, -, hval, h1, h2⟩ := hacc.of_confirm hphase
      have hv := (hhigh p hp h hh).2
      rw [h1, h2, hprime] at hq
      rcases hq with hq | hq
      · cases hq
        exact hne (hv.trans hval)
      · cases hq
  | accepted => cases he
  | confirmed =>
    obtain ⟨hphase, hh⟩ := attemptedAcceptCommit_error he
    obtain ⟨-, -, h, -, -, -, hh', -⟩ := hbp.exists_of_later (by simp [hphase])
    rw [hh] at hh'
    cases hh'
  | committed | finished => cases he

end

/-! ## Within a call -/

/-- What a node keeps: `p` in its place, now and at every check before, and statements
that are backed, its own and those it has recorded. -/
structure Firm (scp : SCP) (s : Slot) : Prop where
  anchored : s.mBallotProtocol.Anchored
  backed : ∀ n e, s.mBallotProtocol.mLatestEnvelopes.lookup n = some e →
    e.statement.pledges.Backed
  known : KnownSets scp s.mBallotProtocol
  signed : ∀ e ∈ s.signedEnvelopes, e.statement.pledges.Backed
  held : ∀ bp, .checkInvariants bp ∈ s.trace → bp.Anchored

/-- The assertions about `p` and `c`. -/
def Failure.BlamesPrepared (e : Failure) : Prop :=
  e = .assertion .acceptPreparedIncompatible ∨ e = .assertion .clearCommitOutsidePrepare

/-- The contract that keeps `p` on the value of `c`. -/
def firmContract (N : Network) (σ : NodeID → Slot) (v : NodeID) (scp : SCP) : Contract scp where
  Ghost := Unit
  At _ _ _ s := (safeInvariant N).OkAt σ v s ∧ Firm scp s
  Exit _ s := (safeInvariant N).OkAt σ v s ∧ Firm scp s
  Fails _ e s := ¬ e.BlamesPrepared ∧ (safeInvariant N).OkAt σ v s ∧ Firm scp s

section
variable {scp : SCP} {s t : Slot}

theorem checkInvariants_not_blamesPrepared {bp : BallotProtocol} {e : Failure}
    (h : bp.checkInvariants = .error e) : ¬ e.BlamesPrepared := by
  have hmem := checkInvariants_error h
  rintro (rfl | rfl) <;> simp at hmem

theorem Firm.keep (hs : Firm scp s) (h : Bookkeep scp s t) : Firm scp t := by
  have hsame := h.sameBallots
  refine ⟨hsame.anchored hs.anchored, ?_, ?_, ?_, ?_⟩
  · rw [hsame.latest]
    exact hs.backed
  · rw [KnownSets, hsame.latest]
    exact hs.known
  · intro e he
    rw [Slot.mem_signedEnvelopes] at he
    obtain he | he | he | ⟨_, he⟩ := h.trace he
    · exact hs.signed e (Slot.mem_signedEnvelopes.mpr he)
    · cases he
    · cases he
    · cases he
  · intro bp hbp
    obtain he | he | he | ⟨_, he⟩ := h.trace hbp
    · exact hs.held bp he
    · cases he
      exact hs.anchored
    · cases he
    · cases he

theorem Firm.sign (hs : Firm scp s) (hbp : s.mBallotProtocol.Consistent) {pl : BallotPledges}
    (hpl : Pledges scp s pl) : Firm scp (s.signed (scp.ownEnvelope s pl)) := by
  refine ⟨hs.anchored, hs.backed, hs.known, ?_, ?_⟩
  · intro e he
    rw [Slot.mem_signedEnvelopes] at he
    rcases mem_cons.mp he with heq | he
    · cases heq
      exact hs.anchored.backed hbp hpl.2
    · rcases mem_cons.mp he with heq | he
      · cases heq
      · exact hs.signed e (Slot.mem_signedEnvelopes.mpr he)
  · intro bp hbp
    rcases mem_cons.mp hbp with heq | hbp
    · cases heq
    · rcases mem_cons.mp hbp with heq | hbp
      · cases heq
        exact hs.anchored
      · exact hs.held bp hbp

/-- One more recorded statement. -/
theorem Firm.record (hs : Firm scp s) {env : BallotEnvelope}
    (hback : env.statement.pledges.Backed) {self : Bool}
    (hsane : isStatementSane scp env.statement self = true) : Firm scp (s.record env) := by
  refine ⟨hs.anchored, ?_, hs.known.record hsane, hs.signed, hs.held⟩
  intro n e he
  rcases lookup_record he with rfl | he
  · exact hback
  · exact hs.backed n e he

theorem Firm.recordOwn (hs : Firm scp s) (hbp : s.mBallotProtocol.Consistent) {pl : BallotPledges}
    (hpl : Pledges scp s pl) (hadm : Admits scp s (scp.ownEnvelope s pl).statement true) :
    Firm scp ((s.signed (scp.ownEnvelope s pl)).record (scp.ownEnvelope s pl)) :=
  (hs.sign hbp hpl).record (hs.anchored.backed hbp hpl.2) hadm.1

/-- A move, of which it is known where `p` is. -/
theorem Firm.moved (hs : Firm scp s) {m : Move} (hen : Enabled scp s.mBallotProtocol m)
    (hm : Moved s m t) (hanchored : (m.apply s.mBallotProtocol).Anchored) : Firm scp t := by
  have hbp := hm.mBallotProtocol
  have hlatest : t.mBallotProtocol.mLatestEnvelopes = s.mBallotProtocol.mLatestEnvelopes := by
    rw [hbp, hen.mLatestEnvelopes]
  refine ⟨by rwa [hbp], ?_, ?_, ?_, ?_⟩
  · rw [hlatest]
    exact hs.backed
  · rw [KnownSets, hlatest]
    exact hs.known
  · obtain ⟨evs, hevs, rfl⟩ := hm
    intro e he
    rw [Slot.mem_signedEnvelopes, Slot.mem_trace_logAll hevs rfl] at he
    exact hs.signed e (Slot.mem_signedEnvelopes.mpr he)
  · obtain ⟨evs, hevs, rfl⟩ := hm
    intro bp hbp
    rw [Slot.mem_trace_logAll hevs rfl] at hbp
    exact hs.held bp hbp

/-- The moves of the searches leave `p` on the value of `c`. -/
theorem Firm.attempted (hs : Firm scp s) (hbp : s.mBallotProtocol.Consistent)
    {hint : BallotStatement} {stage : Stage} {m : Move}
    (hm : attempted scp s.mBallotProtocol hint.pledges stage = .ok (some m))
    (hen : Enabled scp s.mBallotProtocol m) (hcov : Coverage scp hint s.mBallotProtocol stage)
    {v : NodeID} {F : Votes NodeID SCPBallot} {quorums : Set (Set NodeID)}
    (hsafe : F.Safe value quorums)
    (hown : ((m.apply s.mBallotProtocol).ownVotes v).Le F) :
    (m.apply s.mBallotProtocol).Anchored := by
  cases stage with
  | entered =>
    obtain ⟨ballot, rfl, -⟩ := attemptedAcceptPrepared_some hm
    exact hs.anchored.move hen (by simp)
  | accepted =>
    obtain ⟨newC, newH, rfl, -⟩ := attempted_accepted_some hm
    exact hs.anchored.move hen (by simp)
  | confirmed =>
    obtain ⟨_, c, h, -, rfl, -⟩ := attemptedAcceptCommit_some hm
    exact anchored_acceptCommit hs.anchored hbp hcov hs.backed hen hsafe hown
  | committed =>
    obtain ⟨_, c, h, -, rfl, -⟩ := attemptedConfirmCommit_some (Except.ok.inj hm)
    exact hs.anchored.move hen (by simp)
  | finished => cases hm

end

section
variable {N : Network} {σ : NodeID → Slot} {v : NodeID} {scp : SCP} {s t : Slot}
  (hI : (safeInvariant N).Holds) (hv : v ∈ N.correct) (hscp : N.Serves v scp)

include hI hv hscp

theorem firm_hand (hok : (safeInvariant N).OkAt σ v t) (ht : Firm scp t) {K : Slot → Prop}
    (hK : ∀ u, (safeInvariant N).OkAt σ v u ∧ Firm scp u → K u) :
    (firmContract N σ v scp).Hand () K t := by
  have hbp := hok.consistent hv
  have hsign : ∀ pl, Pledges scp t pl → (safeInvariant N).OkAt σ v
      (t.signed (scp.ownEnvelope t pl)) ∧ Firm scp (t.signed (scp.ownEnvelope t pl)) :=
    fun pl hpl => ⟨hok.step hI hv hscp (.sign hpl), ht.sign hbp hpl⟩
  have hrecord : ∀ pl, Pledges scp t pl → Admits scp t (scp.ownEnvelope t pl).statement true →
      (safeInvariant N).OkAt σ v
        ((t.signed (scp.ownEnvelope t pl)).record (scp.ownEnvelope t pl)) ∧
      Firm scp ((t.signed (scp.ownEnvelope t pl)).record (scp.ownEnvelope t pl)) :=
    fun pl hpl hadm => ⟨hok.step hI hv hscp (.record hpl hadm), ht.recordOwn hbp hpl hadm⟩
  refine ⟨(), ⟨?_, ?_, fun pl hpl _ => hsign pl hpl, ?_, fun pl hpl hadm _ => hrecord pl hpl hadm,
    fun pl hpl hadm _ => hrecord pl hpl hadm⟩, hK, fun _ _ hf => hf⟩
  · exact fun e he => ⟨checkInvariants_not_blamesPrepared he,
      hok.step hI hv hscp (.keep (.check t)), ht.keep (.check t)⟩
  · intro _ e he
    obtain ⟨pl, hpl⟩ := hbp.pledges_ok scp.mLocalNode.mQSetHash
    rw [hpl] at he
    cases he
  · exact fun pl hpl _ _ => ⟨by simp [Failure.BlamesPrepared], hsign pl hpl⟩

theorem firm_bumps (hok : (safeInvariant N).OkAt σ v s) (hs : Firm scp s) {K : Slot → Prop}
    (hK : ∀ u, (safeInvariant N).OkAt σ v u ∧ Firm scp u → K u) (value : Value) {n : Uint32}
    (hn : n ≠ 0) : (firmContract N σ v scp).Bumps () K s value n := by
  intro t hcan hm
  have hen : Enabled scp s.mBallotProtocol (.bump (s.mBallotProtocol.bumpTarget value n)) :=
    .bump hcan hn
  have ht := hs.moved hen hm (hs.anchored.move hen (by simp))
  have hok' := hok.step hI hv hscp (.move hen hm)
  have hcheck : BallotStep scp t (t.log (.checkInvariants t.mBallotProtocol)) := .keep (.check t)
  exact ⟨fun e he => ⟨checkInvariants_not_blamesPrepared he, hok'.step hI hv hscp hcheck,
    ht.keep (.check t)⟩,
    fun _ => firm_hand hI hv hscp (hok'.step hI hv hscp hcheck) (ht.keep (.check t)) hK⟩

theorem firmContract_holds : (firmContract N σ v scp).HoldsGiven fun stage hint s =>
    ∃ g, (coveredSteps scp).At stage g hint s where
  keeps_at stage g hint s t _ hb h := ⟨h.1.step hI hv hscp (.keep hb), h.2.keep hb⟩
  keeps_exit g s t hb h := ⟨h.1.step hI hv hscp (.keep hb), h.2.keep hb⟩
  error stage g hint s e _ h he := (h.2.anchored.attempted_error (h.1.consistent hv) he).elim
  stay stage g hint s _ h _ := h
  move stage g hint s m t hP h hm ht := by
    obtain ⟨_, ⟨hreach, hpend⟩, hcov⟩ := hP
    have hen := enabled_of_attempted hreach.consistent hpend hm
    have hok := h.1.step hI hv hscp (.move hen ht)
    obtain ⟨F, hF⟩ := hok.node hv
    have hown := hF.state.own
    rw [ht.mBallotProtocol] at hown
    exact firm_hand hI hv hscp hok
      (h.2.moved hen ht (h.2.attempted hreach.consistent hm hen hcov F.2 hown)) fun _ hu => hu
  bump g hint s value n _ h _ _ hn := firm_bumps hI hv hscp h.1 h.2 (fun _ hu => hu) value hn
  finish _ _ _ _ h := h
  tooManyTransitions _ _ _ _ h := ⟨by simp [Failure.BlamesPrepared], h⟩
  diverges _ _ _ _ h := ⟨by simp [Failure.BlamesPrepared], h⟩

end

/-! ## Runs -/

/-- A `CONFIRM` of an ill-behaved node does not accept a commit above what it says is
prepared. -/
def Network.Screens (N : Network) : BallotCall → Prop
  | .receiveEnvelope env => env.statement.nodeID ∈ N.faulty →
      ∀ c, env.statement.pledges = .confirm c → c.nH ≤ c.nPrepared
  | _ => True

/-- In `CONFIRM` the prepared ballot has the value of the commit. -/
def BallotProtocol.PreparedOnCommit (bp : BallotProtocol) : Prop :=
  bp.mPhase = .confirm → ∃ p c, bp.mPrepared = some p ∧ bp.mCommit = some c ∧ p.value = c.value

section
variable {N : Network} {slotIndex : Uint64} {scp : NodeID → SCP} {σ : NodeID → Slot}
  {past : List (NodeID → Slot)} {v : NodeID} {scp₁ scp' : SCP} {s : Slot}

theorem Firm.recalls (hs : Firm scp₁ s) (h : scp₁.Recalls scp' s.mBallotProtocol) : Firm scp' s :=
  ⟨hs.anchored, hs.backed, hs.known.recalls h, hs.signed, hs.held⟩

variable {bp : BallotProtocol}

theorem Settled.recalls (hset : Settled scp₁ bp) (hbp : KnownSets scp₁ bp)
    (h : scp₁.Recalls scp' bp) (hnode : scp'.mLocalNode = scp₁.mLocalNode) : Settled scp' bp :=
  hset.transfer (by rw [hnode]) fun _ _ he => hbp.quorumSet_eq h he

/-- A statement that is received is backed, by its sender or by the screening. -/
theorem backed_of_received {env : BallotEnvelope}
    (hsigned : ∀ w ∈ N.correct, ∀ e ∈ (σ w).signedEnvelopes, e.statement.pledges.Backed)
    (hauth : N.Authentic σ env) (hscreen : N.Screens (.receiveEnvelope env))
    (hsane : isStatementSane scp' env.statement false = true) : env.statement.pledges.Backed := by
  rcases hauth with hfaulty | ⟨hcorrect, hmem⟩
  · have hpl : arePledgesSane false env.statement.pledges = true := by
      simp only [isStatementSane, Bool.and_eq_true] at hsane
      exact hsane.2
    cases hp : env.statement.pledges with
    | prepare p =>
      rw [hp, arePledgesSane_prepare_iff] at hpl
      exact fun hne => (hpl.2.2.2.resolve_left hne).2.1
    | confirm c => exact hscreen hfaulty c hp
    | externalize e => trivial
  · exact hsigned _ hcorrect env hmem

theorem opens_firmContract (hI : (safeInvariant N).Holds) (hv : v ∈ N.correct)
    (hscp : N.Serves v scp') (hok : (safeInvariant N).OkAt σ v (σ v)) (hs : Firm scp' (σ v))
    (hsigned : ∀ w ∈ N.correct, ∀ e ∈ (σ w).signedEnvelopes, e.statement.pledges.Backed)
    {call : BallotCall} (hcall : N.Permits σ call) (hscreen : N.Screens call) :
    (firmContract N σ v scp').Opens () (σ v) call := by
  have hrecord : ∀ env, call = .receiveEnvelope env → Admits scp' (σ v) env.statement false →
      (safeInvariant N).OkAt σ v ((σ v).record env) ∧ Firm scp' ((σ v).record env) := by
    rintro env rfl hadm
    exact ⟨hok.begins hI hv scp' hcall (.inr ⟨hadm, rfl⟩),
      hs.record (backed_of_received hsigned hcall hscreen hadm.1) hadm.1⟩
  refine ⟨⟨hok, hs⟩, ?_, fun _ _ => ⟨by simp [Failure.BlamesPrepared], hok, hs⟩,
    fun env henv hadm _ => hrecord env henv hadm, fun env henv hadm _ => hrecord env henv hadm,
    fun value n _ hn => firm_bumps hI hv hscp hok hs (fun _ hu => hu) value hn, ?_⟩
  · intro site hsite
    refine ⟨?_, hok, hs⟩
    rintro (h | h) <;> cases h <;> simp at hsite
  · rintro np fullyValidated rfl
    exact ⟨hok.begins hI hv scp' hcall (.inr rfl),
      hs.anchored, hs.backed, hs.known, hs.signed, hs.held⟩

/-- A call keeps the nodes firm and settled, and fails on no assertion about `p` and
`c`. -/
theorem firm_after_call (hI : (safeInvariant N).Holds)
    (hrun : N.RecallingRuns slotIndex N.Screens scp σ past)
    (hσ : ∀ w ∈ N.correct, Firm (scp w) (σ w) ∧ Settled (scp w) (σ w).mBallotProtocol)
    (hv : v ∈ N.correct) (hscp : N.Serves v scp') (hserves : N.Serves v (scp v))
    (hrec : (scp v).Recalls scp' (σ v).mBallotProtocol) {call : BallotCall}
    (hcall : N.Permits σ call) (hscreen : N.Screens call) :
    After (call.run scp') (σ v)
      (fun _ t => (safeInvariant N).OkAt σ v t ∧ Firm scp' t ∧ Settled scp' t.mBallotProtocol)
      fun e t => ¬ e.BlamesPrepared ∧ (safeInvariant N).OkAt σ v t ∧ Firm scp' t := by
  have hok := hrun.okAt hI v
  have hnode : scp'.mLocalNode = (scp v).mLocalNode := by rw [hscp.node, hserves.node]
  obtain ⟨hfirm, hset⟩ := hσ v hv
  have hset' := hset.recalls hfirm.known hrec hnode
  have hopens := (opens_coveredSteps (hok.consistent hv) hset' call).and
    (opens_firmContract hI hv hscp hok (hfirm.recalls hrec) (fun w hw => (hσ w hw).1.signed) hcall
      hscreen)
  have hholds := Contract.holds_and (coveredSteps_holds scp')
    (firmContract_holds (σ := σ) hI hv hscp)
  refine (hholds.after_call hopens).mono ?_ ?_
  · rintro - t ⟨⟨-, hset'⟩, hok', hfirm'⟩
    exact ⟨hok', hfirm', hset'⟩
  · rintro e t ⟨-, hfails⟩
    exact hfails

theorem new_firm (scp : SCP) : Firm scp (Slot.new slotIndex scp) := by
  refine ⟨?_, ?_, ?_, ?_, ?_⟩ <;> intro <;> intros <;> contradiction

theorem Network.RecallingRuns.firm (hI : (safeInvariant N).Holds)
    (h : N.RecallingRuns slotIndex N.Screens scp σ past) :
    ∀ v ∈ N.correct, N.Serves v (scp v) ∧ Firm (scp v) (σ v) ∧
      Settled (scp v) (σ v).mBallotProtocol := by
  refine h.keeps (P := fun _ scp s => Firm scp s ∧ Settled scp s.mBallotProtocol) ?_ ?_
  · exact fun v _ scp _ => ⟨new_firm scp, new_settled scp⟩
  · intro scp σ past v hrun hσ hv scp' hscp hserves hrec call hcall hscreen
    exact (firm_after_call hI hrun hσ hv hscp hserves hrec hcall hscreen).mono
      (fun _ _ ht => ht.2) fun _ _ _ => trivial

theorem Firm.preparedOnCommit (hok : (safeInvariant N).OkAt σ v s) (hv : v ∈ N.correct)
    (hs : Firm scp₁ s) (h : s.Held bp) : bp.PreparedOnCommit := by
  obtain ⟨F, hF⟩ := hok.node hv
  intro hphase
  rcases h with rfl | h
  · exact hs.anchored.commit_value hF.consistent hphase
  · exact (hs.held bp h).commit_value (hF.held bp h).1 hphase

theorem Network.RecallingRuns.preparedOnCommit (hI : (safeInvariant N).Holds)
    (h : N.RecallingRuns slotIndex N.Screens scp σ past) (hv : v ∈ N.correct)
    (hbp : EverHeld σ past v bp) : bp.PreparedOnCommit := by
  obtain ⟨τ, hτ, hheld⟩ := hbp
  have hnow := (h.firm hI v hv).2.1
  have hok := h.okAt hI v
  induction h with
  | start scp hscp =>
    obtain rfl := mem_singleton.mp hτ
    exact hnow.preparedOnCommit hok hv hheld
  | call hσ hv' scp' hscp hrec call hcall hscreen ht ih =>
    rcases mem_cons.mp hτ with rfl | hτ
    · exact hnow.preparedOnCommit hok hv hheld
    · exact ih hτ (hσ.firm hI v hv).2.1 (hσ.okAt hI v)

/-- While nobody is captured, drivers keep the quorum sets they know and no `CONFIRM`
of an ill-behaved node accepts a commit above what it says is prepared: in `CONFIRM`
every correct node has `p` on the value of `c`, at every check and after every call, and
no call fails on an assertion about that. -/
theorem prepared_on_commit (hN : N.Dispensable) (hfree : ∀ v ∈ N.correct, ¬ N.Captured v)
    (hrun : N.RecallingRuns slotIndex N.Screens scp σ past) (hv : v ∈ N.correct) :
    (∀ bp, EverHeld σ past v bp → bp.PreparedOnCommit) ∧
    ∀ scp', N.Serves v scp' → (scp v).Recalls scp' (σ v).mBallotProtocol →
      ∀ call, N.Permits σ call → N.Screens call →
      After (call.run scp') (σ v) (fun _ t => ∀ bp, t.Held bp → bp.PreparedOnCommit)
        fun e t => ¬ e.BlamesPrepared ∧ ∀ bp, t.Held bp → bp.PreparedOnCommit := by
  have hI := safeInvariant_holds hN hfree
  refine ⟨fun bp hbp => hrun.preparedOnCommit hI hv hbp, ?_⟩
  intro scp' hscp hrec call hcall hscreen
  have hfirm := hrun.firm hI
  refine (firm_after_call hI hrun (fun w hw => (hfirm w hw).2) hv hscp (hfirm v hv).1 hrec hcall
    hscreen).mono ?_ ?_
  · exact fun _ t ht bp hbp => ht.2.1.preparedOnCommit ht.1 hv hbp
  · exact fun e t ht => ⟨ht.1, fun bp hbp => ht.2.2.preparedOnCommit ht.2.1 hv hbp⟩

end

/-! ## Samples -/

theorem pair_screens (call : BallotCall) : pair.Screens call := by
  cases call with
  | receiveEnvelope env => exact fun hmem => absurd hmem not_mem_nil
  | _ => trivial

theorem pair_screened : pair.RecallingRuns 1 pair.Screens (plainNode pairQSet) pairRun.1 pairRun.2 :=
  Network.replay_recalling pair_screens (fun v _ => plainNetwork_serves v)
    (by simp [pairSchedule, plainNetwork, Network.Allows, Network.correct]) (by decide +kernel)

/-- Node 0 is in `CONFIRM` before the last envelope reaches it. -/
theorem prepared_on_commit_pair :
    ∃ bp, EverHeld pairRun.1 pairRun.2 0 bp ∧ bp.mPhase = .confirm ∧
      ∃ p c, bp.mPrepared = some p ∧ bp.mCommit = some c ∧ p.value = c.value := by
  have hheld : EverHeld pairRun.1 pairRun.2 0
      (pairRun.2.get ⟨0, by decide +kernel⟩ 0).mBallotProtocol :=
    ⟨_, mem_cons_of_mem _ (get_mem _ _), .inl rfl⟩
  have hphase : (pairRun.2.get ⟨0, by decide +kernel⟩ 0).mBallotProtocol.mPhase = .confirm := by
    decide +kernel
  exact ⟨_, hheld, hphase, (prepared_on_commit pair_dispensable pair_not_captured pair_screened
    (mem_pair_correct.mpr (by decide))).1 _ hheld hphase⟩

/-- Four nodes of which any three form a quorum, and a quorum set of nobody. -/
def quartetQSet (v : NodeID) : SCPQuorumSet :=
  if v = 4 then .mk 1 [4] [] else .mk 3 [0, 1, 2, 3] []

/-- Node 3 is ill-behaved. -/
def quartet : Network := plainNetwork [0, 1, 2] [3] quartetQSet (by decide +kernel)

theorem mem_quartet_correct {v : NodeID} : v ∈ quartet.correct ↔ v = 0 ∨ v = 1 ∨ v = 2 := by
  constructor
  · rintro ⟨h, -⟩
    simpa [quartet, plainNetwork] using h
  · intro h
    refine ⟨by simpa [quartet, plainNetwork] using h, fun hf => ?_⟩
    have hv : v = 3 := mem_singleton.mp hf
    subst hv
    exact absurd h (by decide)

theorem quartet_qSet {v : NodeID} (hv : v ∈ quartet.correct) :
    (quartet.node v).mQSet = .mk 3 [0, 1, 2, 3] [] := by
  rcases mem_quartet_correct.mp hv with rfl | rfl | rfl
  · rfl
  · rfl
  · rfl

/-- Three out of four include two out of the first three. -/
theorem two_of_satisfiedBy {S : Set NodeID}
    (h : (SCPQuorumSet.mk 3 [0, 1, 2, 3] []).SatisfiedBy S) :
    (0 ∈ S ∧ 1 ∈ S) ∨ (0 ∈ S ∧ 2 ∈ S) ∨ (1 ∈ S ∧ 2 ∈ S) := by
  obtain ⟨slice, hmem, hslice⟩ := h
  rw [isQuorumSlice, isQuorumSliceInternal_iff, hitsNeeded, if_neg (by decide), countP_nil,
    countP_cons, countP_cons, countP_cons, countP_cons, countP_nil]
    at hslice
  change 3 ≤ _ at hslice
  have hin : ∀ n : NodeID, n ∈ slice ∨ ¬ n ∈ slice := fun n => em _
  rcases hin 0 with h0 | h0
  · rcases hin 1 with h1 | h1
    · exact .inl ⟨hmem 0 h0, hmem 1 h1⟩
    · rcases hin 2 with h2 | h2
      · exact .inr (.inl ⟨hmem 0 h0, hmem 2 h2⟩)
      · simp only [h1, h2, decide_false, Bool.false_eq_true, if_false] at hslice
        split_ifs at hslice <;> omega
  · rcases hin 1 with h1 | h1
    · rcases hin 2 with h2 | h2
      · exact .inr (.inr ⟨hmem 1 h1, hmem 2 h2⟩)
      · simp only [h0, h2, decide_false, Bool.false_eq_true, if_false] at hslice
        split_ifs at hslice <;> omega
    · simp only [h0, h1, decide_false, Bool.false_eq_true, if_false] at hslice
      split_ifs at hslice <;> omega

theorem quartet_dispensable : quartet.Dispensable where
  available v hv := by
    rw [quartet_qSet hv]
    refine ⟨[0, 1, 2], ?_, by decide +kernel⟩
    intro n hn hf
    obtain rfl := mem_singleton.mp hf
    exact absurd hn (by decide)
  intersect := by
    have hmem : ∀ U ∈ quartet.quorums, (0 ∈ U ∧ 1 ∈ U) ∨ (0 ∈ U ∧ 2 ∈ U) ∨ (1 ∈ U ∧ 2 ∈ U) := by
      rintro U ⟨hcorrect, ⟨v, hv⟩, hclosed⟩
      have h := hclosed v hv
      rw [quartet_qSet (hcorrect v hv)] at h
      have hnot : ∀ n : NodeID, n ≠ 3 → n ∈ U ∪ quartet.faulty → n ∈ U := by
        intro n hne hn
        exact hn.resolve_right fun hf => hne (mem_singleton.mp hf)
      rcases two_of_satisfiedBy h with ⟨h0, h1⟩ | ⟨h0, h1⟩ | ⟨h0, h1⟩
      · exact .inl ⟨hnot _ (by decide) h0, hnot _ (by decide) h1⟩
      · exact .inr (.inl ⟨hnot _ (by decide) h0, hnot _ (by decide) h1⟩)
      · exact .inr (.inr ⟨hnot _ (by decide) h0, hnot _ (by decide) h1⟩)
    intro U hU U' hU'
    rcases hmem U hU with ⟨h, h'⟩ | ⟨h, h'⟩ | ⟨h, h'⟩ <;>
      rcases hmem U' hU' with ⟨k, k'⟩ | ⟨k, k'⟩ | ⟨k, k'⟩ <;>
      first
      | exact ⟨_, h, k⟩
      | exact ⟨_, h, k'⟩
      | exact ⟨_, h', k⟩
      | exact ⟨_, h', k'⟩

theorem quartet_not_captured : ∀ v ∈ quartet.correct, ¬ quartet.Captured v := by
  intro v hv
  refine quartet_dispensable.not_captured hv ?_
  rw [quartet_qSet hv]
  decide +kernel

/-- Node 0 accepts `(1, [2])` as prepared with the votes of nodes 1 and 3. Then nodes 1
and 2 commit `(2, [1])`, and node 3 joins node 1 in accepting that commit in front of
node 0, with no more than `(1, [1])` prepared. -/
def quartetSchedule : List Action :=
  [.execute 0 (.bumpState [2] true), .execute 1 (.bumpState [2] true), .relay 1 0,
    .execute 0 (.receiveEnvelope ⟨⟨3, 1, .prepare ⟨3, ⟨1, [2]⟩, none, none, 0, 0⟩⟩, []⟩),
    .execute 1 (.bumpState [1] true), .execute 2 (.bumpState [1] true),
    .execute 2 (.bumpState [1] true),
    .execute 1 (.receiveEnvelope ⟨⟨3, 1, .prepare ⟨3, ⟨2, [1]⟩, some ⟨2, [1]⟩, none, 2, 2⟩⟩, []⟩),
    .execute 2 (.receiveEnvelope ⟨⟨3, 1, .prepare ⟨3, ⟨2, [1]⟩, some ⟨2, [1]⟩, none, 2, 2⟩⟩, []⟩),
    .relay 1 2, .relay 2 1, .relay 1 2, .relay 2 1, .relay 1 0,
    .execute 0 (.receiveEnvelope ⟨⟨3, 1, .confirm ⟨⟨2, [1]⟩, 1, 2, 2, 4⟩⟩, []⟩)]

def quartetRun : (NodeID → Slot) × List (NodeID → Slot) :=
  replay (plainNode quartetQSet) 1 quartetSchedule

theorem quartet_runs : quartet.Runs 1 (fun _ => True) quartetRun.1 quartetRun.2 :=
  Network.replay_runs (fun v _ => plainNetwork_serves v) 1
    (by simp [quartetSchedule, plainNetwork, Network.Allows, Network.correct])

/-- The next statement of node 3. -/
def quartetLie : BallotEnvelope := ⟨⟨3, 1, .confirm ⟨⟨3, [2]⟩, 3, 3, 3, 4⟩⟩, []⟩

/-- Node 0 is in `CONFIRM` on `[1]` with `p` on `[2]`, and a ballot on `[2]` then makes
it fail. -/
theorem prepared_off_commit_quartet :
    quartet.Dispensable ∧ (∀ v ∈ quartet.correct, ¬ quartet.Captured v) ∧
    quartet.Runs 1 (fun _ => True) quartetRun.1 quartetRun.2 ∧ 0 ∈ quartet.correct ∧
    (quartetRun.1 0).mBallotProtocol.mPhase = .confirm ∧
    (quartetRun.1 0).mBallotProtocol.mPrepared = some ⟨1, [2]⟩ ∧
    (quartetRun.1 0).mBallotProtocol.mCommit = some ⟨2, [1]⟩ ∧
    quartet.Permits quartetRun.1 (.receiveEnvelope quartetLie) ∧
    failure (BallotCall.run (plainNode quartetQSet 0) (.receiveEnvelope quartetLie))
      (quartetRun.1 0) = some (.assertion .acceptPreparedIncompatible) := by
  refine ⟨quartet_dispensable, quartet_not_captured, quartet_runs,
    mem_quartet_correct.mpr (.inl rfl), ?_, ?_, ?_, .inl (mem_singleton.mpr rfl), ?_⟩
  · decide +kernel
  · decide +kernel
  · decide +kernel
  · decide +kernel

end DigitalBits.Scp
