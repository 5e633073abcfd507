import DigitalBits.Scp.BallotMoves

/-!
# A rule for the recursion of the ballot protocol

A run of `advanceSlot` goes through four searches, each of which may move the
node and make it speak, and speaking runs `advanceSlot` again. `Contract` lists
what has to be shown of the searches, the moves and the recorded statements, one
at a time and without mentioning the recursion, for a property to hold when any
call returns or fails. Every invariant of the protocol below is such a contract.
-/
namespace DigitalBits.Scp
open Lib LocalNode BallotProtocol

/-- Changes of a slot that concern neither its ballots nor the recorded
statements. -/
inductive Bookkeep (scp : SCP) : Slot → Slot → Prop
  | notify (s : Slot) (e : Event) (h : e.isAudit = false) : Bookkeep scp s (s.log e)
  | check (s : Slot) : Bookkeep scp s (s.log (.checkInvariants s.mBallotProtocol))
  | heard (s : Slot) (heard : Bool) :
      Bookkeep scp s (s.withBallot (s.mBallotProtocol.withHeard heard))
  | level (s : Slot) (level : ℕ) :
      Bookkeep scp s (s.withBallot (s.mBallotProtocol.withLevel level))
  | unvalidated (s : Slot) : Bookkeep scp s { s with mFullyValidated := false }
  | gotVBlocking (s : Slot) (got : Bool) : Bookkeep scp s { s with mGotVBlocking := got }
  | stopNomination (s : Slot) : Bookkeep scp s { s with mNominationProtocol :=
      { s.mNominationProtocol with mNominationStarted := false } }
  | remember (s : Slot) {hint : BallotPledges} {newC newH : SCPBallot}
      (hfound : confirmablePrepared scp s.mBallotProtocol hint = some (newC, newH)) :
      Bookkeep scp s (s.withBallot (s.mBallotProtocol.withOverride newH.value))
  | queue (s : Slot) (env : BallotEnvelope)
      (hsane : isStatementSane scp env.statement false = true)
      (hnewer : ∀ last ∈ s.mBallotProtocol.mLastEnvelope,
        isNewerStatement last.statement.pledges env.statement.pledges = true)
      (hsigned : .signEnvelope (.ballot env) ∈ s.trace) :
      Bookkeep scp s (s.withBallot (s.mBallotProtocol.withLastEnvelope env))
  | send (s : Slot) (last : BallotEnvelope) (hlast : s.mBallotProtocol.mLastEnvelope = some last)
      (hnew : s.mBallotProtocol.mLastEnvelopeEmit ≠ some last) :
      Bookkeep scp s ((s.withBallot (s.mBallotProtocol.withLastEnvelopeEmit last)).log
        (.emitEnvelope (.ballot last)))

/-- Two ballot states that agree on the ballots. -/
structure BallotProtocol.SameVotes (bp bp' : BallotProtocol) : Prop where
  phase : bp'.mPhase = bp.mPhase
  current : bp'.mCurrentBallot = bp.mCurrentBallot
  prepared : bp'.mPrepared = bp.mPrepared
  preparedPrime : bp'.mPreparedPrime = bp.mPreparedPrime
  high : bp'.mHighBallot = bp.mHighBallot
  commit : bp'.mCommit = bp.mCommit

/-- Two ballot states that agree on the ballots and the recorded statements. -/
structure BallotProtocol.SameBallots (bp bp' : BallotProtocol) : Prop
    extends BallotProtocol.SameVotes bp bp' where
  latest : bp'.mLatestEnvelopes = bp.mLatestEnvelopes

variable {scp : SCP} {s t : Slot}

theorem Bookkeep.sameBallots (h : Bookkeep scp s t) :
    s.mBallotProtocol.SameBallots t.mBallotProtocol := by
  cases h <;> exact ⟨⟨rfl, rfl, rfl, rfl, rfl, rfl⟩, rfl⟩

theorem Bookkeep.mSlotIndex (h : Bookkeep scp s t) :
    t.mSlotIndex = s.mSlotIndex := by
  cases h <;> rfl

/-- What bookkeeping adds to the trace: at most a check of the current state. -/
theorem Bookkeep.trace (h : Bookkeep scp s t) {e : Event}
    (he : e ∈ t.trace) : e ∈ s.trace ∨ e = .checkInvariants s.mBallotProtocol ∨
      e.isAudit = false ∨ ∃ env, e = .emitEnvelope env := by
  cases h with
  | notify e' hne =>
    rcases List.mem_cons.mp he with rfl | he
    · exact .inr (.inr (.inl hne))
    · exact .inl he
  | check =>
    rcases List.mem_cons.mp he with rfl | he
    · exact .inr (.inl rfl)
    · exact .inl he
  | send last hlast hnew =>
    rcases List.mem_cons.mp he with rfl | he
    · exact .inr (.inr (.inr ⟨_, rfl⟩))
    · exact .inl he
  | heard | level | unvalidated | gotVBlocking | stopNomination | remember | queue =>
    exact .inl he

/-- The trace only grows. -/
theorem Bookkeep.suffix (h : Bookkeep scp s t) : s.trace <:+ t.trace := by
  cases h with
  | notify | check | send => exact List.suffix_cons _ _
  | heard | level | unvalidated | gotVBlocking | stopNomination | remember | queue =>
    exact List.suffix_rfl

theorem Moved.suffix {m : Move} (h : Moved s m t) : s.trace <:+ t.trace := by
  obtain ⟨evs, -, rfl⟩ := h
  exact List.suffix_append _ _

/-- Runs only add to the trace. -/
def Appends (advance : BallotStatement → SlotM Unit) : Prop :=
  ∀ hint s, After (advance hint) s (fun _ t => s.trace <:+ t.trace) fun _ _ => True

/-- Any number of such changes. -/
abbrev Bookkeeping (scp : SCP) : Slot → Slot → Prop := Relation.ReflTransGen (Bookkeep scp)

section
variable {scp : SCP} {s : Slot} {E : Failure → Slot → Prop}

theorem Bookkeeping.log {t : Slot} (h : Bookkeeping scp s t) {e : Event}
    (he : e.isAudit = false) : Bookkeeping scp s (t.log e) :=
  h.tail (.notify t e he)

variable {Q : Unit → Slot → Prop}

theorem after_checkHeardFromQuorum (h : ∀ t, Bookkeeping scp s t → Q () t) :
    After (checkHeardFromQuorum scp) s Q E := by
  rw [checkHeardFromQuorum, after_bind, after_ballotProtocol]
  cases hb : s.mBallotProtocol.mCurrentBallot with
  | none => exact h s .refl
  | some b =>
    simp only
    split_ifs with hquorum
    · have hheard : Bookkeeping scp s (s.withBallot (s.mBallotProtocol.withHeard true)) :=
        .single (.heard s true)
      -- the timer is stopped once the node has externalized
      have hstop : ∀ t, Bookkeeping scp s t →
          After (when (s.mBallotProtocol.mPhase = .externalize) stopBallotProtocolTimer) t Q E := by
        intro t ht
        rw [after_when, stopBallotProtocolTimer, after_notify]
        exact ⟨fun _ => h _ (ht.log rfl), fun _ => h _ ht⟩
      rw [after_bind, after_modifyBallot, after_bind, after_when]
      refine ⟨fun _ => ?_, fun _ => hstop _ hheard⟩
      rw [after_bind, after_notify, after_when]
      refine ⟨fun _ => ?_, fun _ => hstop _ (hheard.log rfl)⟩
      rw [startBallotProtocolTimer, after_bind, after_ballotProtocol, after_bind]
      change After (deref s.mBallotProtocol.mCurrentBallot) _ _ _
      rw [hb, after_deref_some, after_notify]
      exact hstop _ ((hheard.log rfl).log rfl)
    · rw [after_bind, after_modifyBallot, stopBallotProtocolTimer, after_notify]
      exact h _ (Bookkeeping.log (.single (.heard s false)) rfl)

theorem after_sendLatestEnvelope (h : ∀ t, Bookkeeping scp s t → Q () t) :
    After sendLatestEnvelope s Q E := by
  rw [sendLatestEnvelope, after_bind, after_get]
  simp only
  cases hlast : s.mBallotProtocol.mLastEnvelope with
  | none => exact h s .refl
  | some last =>
    simp only
    rw [after_when]
    refine ⟨fun hc => ?_, fun _ => h s .refl⟩
    exact h _ (.single (.send s last hlast hc.2.2))

theorem after_maybeSetGotVBlocking (h : ∀ t, Bookkeeping scp s t → Q () t) :
    After (maybeSetGotVBlocking scp) s Q E := by
  rw [maybeSetGotVBlocking, after_modify]
  split_ifs
  · exact h s .refl
  · exact h _ (.single (.gotVBlocking s _))

end

/-! ## Speaking -/

/-- The envelope the node signs for given pledges. -/
def SCP.ownEnvelope (scp : SCP) (s : Slot) (pledges : BallotPledges) : BallotEnvelope :=
  scp.signedEnvelope s.mSlotIndex ⟨0, 0, pledges⟩

/-- Does the node accept a statement, its own or another's. -/
def Admits (scp : SCP) (s : Slot) (st : BallotStatement) (self : Bool) : Prop :=
  isStatementSane scp st self = true ∧
  s.mBallotProtocol.isNewerStatement st.nodeID st = true ∧
  validateValues scp s.mSlotIndex st ≠ .kInvalidValue

/-- The slot after `emitCurrentStateStatement` has signed its statement. -/
def Slot.signed (s : Slot) (env : BallotEnvelope) : Slot :=
  (s.log (.checkInvariants s.mBallotProtocol)).log (.signEnvelope (.ballot env))

/-- The slot with an envelope recorded. -/
def Slot.record (s : Slot) (env : BallotEnvelope) : Slot :=
  s.withBallot (s.mBallotProtocol.record env)

/-- The invariants hold and `pl` are the pledges of the current state. -/
def Pledges (scp : SCP) (s : Slot) (pl : BallotPledges) : Prop :=
  s.mBallotProtocol.checkInvariants = .ok () ∧
  s.mBallotProtocol.pledges scp.mLocalNode.mQSetHash
    s.mBallotProtocol.mPhase.statementType = .ok pl

/-- What speaking leads to: a failure, a state in which the statement was recorded
and `advanceSlot` runs with it as hint, or an end without that run. -/
structure Speaks (scp : SCP) (entered : BallotStatement → Slot → Prop) (exit : Slot → Prop)
    (fails : Failure → Slot → Prop) (s : Slot) : Prop where
  check : ∀ e, s.mBallotProtocol.checkInvariants = .error e →
    fails e (s.log (.checkInvariants s.mBallotProtocol))
  null : s.mBallotProtocol.checkInvariants = .ok () →
    ∀ e, s.mBallotProtocol.pledges scp.mLocalNode.mQSetHash
      s.mBallotProtocol.mPhase.statementType = .error e →
    fails e (s.log (.checkInvariants s.mBallotProtocol))
  same : ∀ pl, Pledges scp s pl →
    s.mBallotProtocol.mLatestEnvelopes.lookup scp.mLocalNode.mNodeID =
      some (scp.ownEnvelope s pl) →
    exit (s.signed (scp.ownEnvelope s pl))
  bad : ∀ pl, Pledges scp s pl →
    s.mBallotProtocol.mLatestEnvelopes.lookup scp.mLocalNode.mNodeID ≠
      some (scp.ownEnvelope s pl) →
    ¬ Admits scp s (scp.ownEnvelope s pl).statement true →
    fails .badBallotState (s.signed (scp.ownEnvelope s pl))
  record : ∀ pl, Pledges scp s pl → Admits scp s (scp.ownEnvelope s pl).statement true →
    s.mBallotProtocol.mPhase ≠ .externalize →
    entered (scp.ownEnvelope s pl).statement
      ((s.signed (scp.ownEnvelope s pl)).record (scp.ownEnvelope s pl))
  recordFinal : ∀ pl, Pledges scp s pl → Admits scp s (scp.ownEnvelope s pl).statement true →
    s.mBallotProtocol.mPhase = .externalize →
    exit ((s.signed (scp.ownEnvelope s pl)).record (scp.ownEnvelope s pl))

section
variable {scp : SCP} {advance : BallotStatement → SlotM Unit} {s : Slot}
  {entered : BallotStatement → Slot → Prop} {exit : Slot → Prop} {fails : Failure → Slot → Prop}

variable {E : Failure → Slot → Prop}

theorem after_checkInvariants {Q : Unit → Slot → Prop} :
    After checkInvariants s Q E ↔
      (s.mBallotProtocol.checkInvariants = .ok () →
        Q () (s.log (.checkInvariants s.mBallotProtocol))) ∧
      ∀ e, s.mBallotProtocol.checkInvariants = .error e →
        E e (s.log (.checkInvariants s.mBallotProtocol)) := by
  rw [checkInvariants, after_bind, after_ballotProtocol, after_bind, after_notify]
  cases h : s.mBallotProtocol.checkInvariants with
  | ok u | error e => simp

/-- An envelope other than from the node itself, or one of its own, that is not
admitted changes nothing; an admitted one is recorded. -/
theorem after_processEnvelope {envelope : BallotEnvelope} {self : Bool}
    {Q : EnvelopeState → Slot → Prop}
    (hindex : envelope.statement.slotIndex ≠ s.mSlotIndex → E (.assertion .slotIndex) s)
    (hinvalid : ¬ Admits scp s envelope.statement self → Q .invalid s)
    (hrecord : Admits scp s envelope.statement self →
      s.mBallotProtocol.mPhase ≠ .externalize →
      ∀ t, t = s ∨ t = { s with mFullyValidated := false } →
      After (advance envelope.statement) (t.record envelope) (fun _ u => Q .valid u) E)
    (hnull : s.mBallotProtocol.mPhase = .externalize → s.mBallotProtocol.mCommit = none →
      E .nullDereference s)
    (hfinal : Admits scp s envelope.statement self → s.mBallotProtocol.mPhase = .externalize →
      ∀ c, s.mBallotProtocol.mCommit = some c →
      (c.value = (getWorkingBallot envelope.statement.pledges).value →
        Q .valid (s.record envelope)) ∧
      (c.value ≠ (getWorkingBallot envelope.statement.pledges).value → Q .invalid s)) :
    After (processEnvelope scp advance envelope self) s Q E := by
  rw [processEnvelope, after_bind, after_get]
  simp only
  rw [after_bind, after_dbgAssert]
  refine ⟨fun _ => ?_, hindex⟩
  by_cases hsane : isStatementSane scp envelope.statement self = true
  swap
  · rw [if_pos hsane]
    exact hinvalid fun h => hsane h.1
  by_cases hnewer : s.mBallotProtocol.isNewerStatement envelope.statement.nodeID
      envelope.statement = true
  swap
  · rw [if_neg (not_not.mpr hsane), if_pos hnewer]
    exact hinvalid fun h => hnewer h.2.1
  split_ifs with hvalid hphase
  · exact hinvalid fun h => h.2.2 hvalid
  · have hadm : Admits scp s envelope.statement self := ⟨hsane, hnewer, hvalid⟩
    rw [after_bind, after_when]
    refine ⟨fun _ => ?_, fun _ => ?_⟩
    · rw [after_modify, after_bind, recordEnvelope, after_modifyBallot, after_bind]
      exact hrecord hadm hphase _ (.inr rfl)
    · rw [after_bind, recordEnvelope, after_modifyBallot, after_bind]
      exact hrecord hadm hphase _ (.inl rfl)
  · have hadm : Admits scp s envelope.statement self := ⟨hsane, hnewer, hvalid⟩
    have hext := not_not.mp hphase
    rw [after_bind]
    cases hc : s.mBallotProtocol.mCommit with
    | none => exact hnull hext hc
    | some c =>
      rw [after_deref_some]
      split_ifs with hval
      · rw [after_bind, recordEnvelope, after_modifyBallot]
        exact (hfinal hadm hext c hc).1 hval
      · exact (hfinal hadm hext c hc).2 hval

theorem after_slotProcessEnvelope {envelope : BallotEnvelope} {self : Bool}
    {Q : EnvelopeState → Slot → Prop}
    (hindex : envelope.statement.slotIndex ≠ s.mSlotIndex → E (.assertion .slotIndex) s)
    (hinvalid : ¬ Admits scp s envelope.statement self → Q .invalid s)
    (hrecord : Admits scp s envelope.statement self →
      s.mBallotProtocol.mPhase ≠ .externalize →
      ∀ t, t = s ∨ t = { s with mFullyValidated := false } →
      After (advance envelope.statement) (t.record envelope)
        (fun _ u => ∀ w, Bookkeeping scp u w → Q .valid w) E)
    (hnull : s.mBallotProtocol.mPhase = .externalize → s.mBallotProtocol.mCommit = none →
      E .nullDereference s)
    (hfinal : Admits scp s envelope.statement self → s.mBallotProtocol.mPhase = .externalize →
      ∀ c, s.mBallotProtocol.mCommit = some c →
      (c.value = (getWorkingBallot envelope.statement.pledges).value →
        ∀ w, Bookkeeping scp (s.record envelope) w → Q .valid w) ∧
      (c.value ≠ (getWorkingBallot envelope.statement.pledges).value → Q .invalid s)) :
    After (slotProcessEnvelope scp advance envelope self) s Q E := by
  rw [slotProcessEnvelope, after_bind, after_get]
  simp only
  rw [after_bind, after_dbgAssert]
  refine ⟨fun _ => ?_, hindex⟩
  have hend : ∀ u, (∀ w, Bookkeeping scp u w → Q .valid w) →
      After (do
        when (s.hasLatestMessage envelope.statement.nodeID = false ∧
          EnvelopeState.valid = .valid) (maybeSetGotVBlocking scp)
        return EnvelopeState.valid) u Q E := by
    intro u hu
    rw [after_bind, after_when]
    exact ⟨fun _ => after_maybeSetGotVBlocking hu, fun _ => hu u .refl⟩
  have hskip : Q .invalid s → After (do
        when (s.hasLatestMessage envelope.statement.nodeID = false ∧
          EnvelopeState.invalid = .valid) (maybeSetGotVBlocking scp)
        return EnvelopeState.invalid) s Q E := by
    intro hQ
    rwa [after_bind, after_when_of_not (by simp)]
  rw [after_bind]
  refine after_processEnvelope hindex (fun h => hskip (hinvalid h)) ?_ hnull ?_
  · intro hadm hphase t ht
    exact (hrecord hadm hphase t ht).imp fun _ u hu => hend u hu
  · intro hadm hphase c hc
    exact ⟨fun hval => hend _ ((hfinal hadm hphase c hc).1 hval),
      fun hval => hskip ((hfinal hadm hphase c hc).2 hval)⟩

/-- A statement a node may show to others: one it accepted from itself, made on a
ballot. -/
theorem isStatementSane_of_self {pl : BallotPledges} (hpl : Pledges scp s pl)
    (hb : s.mBallotProtocol.mCurrentBallot.isSome = true)
    (h : isStatementSane scp (scp.ownEnvelope s pl).statement true = true) :
    isStatementSane scp (scp.ownEnvelope s pl).statement false = true := by
  simp only [isStatementSane, Bool.and_eq_true] at h ⊢
  refine ⟨h.1, ?_⟩
  have hsane : arePledgesSane true pl = true := h.2
  change arePledgesSane false pl = true
  obtain ⟨-, rfl⟩ | ⟨-, b, p, c, hb, -, -, -, -, rfl⟩ | ⟨-, c, hb, -, -, rfl⟩ :=
    pledges_cases hpl.2
  · obtain ⟨b, hbe⟩ := Option.isSome_iff_exists.mp hb
    have hcounter := ((checkInvariants_ok_iff _).mp hpl.1).current b hbe
    have hpos : b.counter > 0 := Fin.pos_of_ne_zero hcounter
    simp only [arePledgesSane, hbe, Option.getD_some, hpos, decide_true, Bool.or_true] at hsane ⊢
    exact hsane
  · exact hsane
  · exact hsane

theorem after_createEnvelope {pl : BallotPledges} {Q : BallotEnvelope → Slot → Prop} :
    After (createEnvelope scp ⟨0, 0, pl⟩) s Q E ↔
      Q (scp.ownEnvelope s pl) (s.log (.signEnvelope (.ballot (scp.ownEnvelope s pl)))) :=
  Iff.rfl

theorem ownEnvelope_log (e : Event) (pl : BallotPledges) :
    scp.ownEnvelope (s.log e) pl = scp.ownEnvelope s pl := rfl

/-- The rule for `emitCurrentStateStatement`. -/
theorem after_emitCurrentStateStatement
    (hentered : ∀ hint t u, Bookkeep scp t u → entered hint t → entered hint u)
    (hexit : ∀ t u, Bookkeep scp t u → exit t → exit u)
    (hadvance : ∀ hint t, entered hint t →
      After (advance hint) t (fun _ u => exit u) fails)
    (happends : Appends advance) (h : Speaks scp entered exit fails s) :
    After (emitCurrentStateStatement scp advance) s
      (fun _ t => exit t ∧ (s.mBallotProtocol.mPhase = .externalize →
        t.mBallotProtocol.mCommit = s.mBallotProtocol.mCommit)) fails := by
  rw [emitCurrentStateStatement, after_bind, after_ballotProtocol, after_bind, createStatement,
    after_bind, after_checkInvariants]
  refine ⟨fun hcheck => ?_, h.check⟩
  rw [after_bind, after_ballotProtocol, after_bind]
  change After (ofExcept (s.mBallotProtocol.pledges _ _)) _ _ _
  cases hpl : s.mBallotProtocol.pledges scp.mLocalNode.mQSetHash
      s.mBallotProtocol.mPhase.statementType with
  | error e => exact h.null hcheck e hpl
  | ok pl =>
    have hp : Pledges scp s pl := ⟨hcheck, hpl⟩
    -- `R` is what holds from the end of the nested run on
    let R : Slot → Prop := fun t => exit t ∧ (s.mBallotProtocol.mPhase = .externalize →
      t.mBallotProtocol.mCommit = s.mBallotProtocol.mCommit) ∧
      .signEnvelope (.ballot (scp.ownEnvelope s pl)) ∈ t.trace
    have hR : ∀ t u, Bookkeep scp t u → R t → R u := fun t u hb ht =>
      ⟨hexit t u hb ht.1, fun he => hb.sameBallots.commit.trans (ht.2.1 he),
        hb.suffix.subset ht.2.2⟩
    have hsigned : ∀ t : Slot, t.trace = (s.signed (scp.ownEnvelope s pl)).trace →
        .signEnvelope (.ballot (scp.ownEnvelope s pl)) ∈ t.trace := by
      intro t ht
      rw [ht]
      exact List.mem_cons_self
    rw [after_ofExcept_ok, after_pure, after_bind, after_createEnvelope, ownEnvelope_log]
    by_cases hsame : s.mBallotProtocol.mLatestEnvelopes.lookup scp.mLocalNode.mNodeID =
        some (scp.ownEnvelope s pl)
    · rw [after_when_of_not (not_not.mpr hsame)]
      exact ⟨h.same pl hp hsame, fun _ => rfl⟩
    rw [after_when_of hsame, submitEnvelope, after_bind]
    refine After.mono (Q := fun res u => (res = .valid → R u ∧
        Admits scp s (scp.ownEnvelope s pl).statement true) ∧
        (res = .invalid → fails .badBallotState u)) ?_ ?_ fun _ _ hE => hE
    · have hadm_iff : Admits scp (s.signed (scp.ownEnvelope s pl))
          (scp.ownEnvelope s pl).statement true ↔
          Admits scp s (scp.ownEnvelope s pl).statement true := Iff.rfl
      refine after_slotProcessEnvelope (fun hne => absurd rfl hne) ?_ ?_ ?_ ?_
      · intro hadm
        exact ⟨nofun, fun _ => h.bad pl hp hsame (mt hadm_iff.mpr hadm)⟩
      · intro hadm hphase t ht
        have hin : entered (scp.ownEnvelope s pl).statement (t.record (scp.ownEnvelope s pl)) := by
          rcases ht with rfl | rfl
          · exact h.record pl hp hadm hphase
          · exact hentered _ _ _ (.unvalidated _) (h.record pl hp hadm hphase)
        refine ((hadvance _ _ hin).and (happends _ _)).mono (fun _ u hu w hw => ?_)
          fun _ _ hE => hE.1
        refine ⟨fun _ => ⟨keeps_of_steps hR hw ⟨hu.1, fun he => absurd he hphase, ?_⟩, hadm⟩, nofun⟩
        refine hu.2.subset (hsigned _ ?_)
        rcases ht with rfl | rfl <;> rfl
      · intro hphase hc
        change s.mBallotProtocol.mCommit = none at hc
        have hsome := ((checkInvariants_ok_iff _).mp hcheck).externalize hphase
        rw [hc] at hsome
        cases hsome
      · intro hadm hphase c hc
        change s.mBallotProtocol.mPhase = .externalize at hphase
        change s.mBallotProtocol.mCommit = some c at hc
        have hval : c.value = (getWorkingBallot pl).value := by
          obtain ⟨ht, -⟩ | ⟨ht, -⟩ | ⟨-, c', -, hc', -, rfl⟩ := pledges_cases hpl
          · rw [hphase] at ht; cases ht
          · rw [hphase] at ht; cases ht
          · rw [hc] at hc'
            cases hc'
            rfl
        refine ⟨fun _ w hw => ⟨fun _ => ⟨keeps_of_steps hR hw ⟨h.recordFinal pl hp hadm hphase,
          fun _ => rfl, hsigned _ rfl⟩, hadm⟩, nofun⟩, fun hne => absurd hval hne⟩
    · rintro (_ | _) u ⟨hvalid, hinvalid⟩
      · exact hinvalid rfl
      · obtain ⟨hu, hadm⟩ := hvalid rfl
        simp only
        rw [after_bind, after_ballotProtocol, after_when]
        refine ⟨fun hc => ?_, fun _ => ⟨hu.1, hu.2.1⟩⟩
        rw [after_bind, after_modifyBallot]
        refine after_sendLatestEnvelope fun w (hw : Bookkeeping scp _ w) => ?_
        have hqueue := Bookkeep.queue u _ (isStatementSane_of_self hp hc.1 hadm.1) hc.2 hu.2.2
        obtain ⟨hexit', hcommit, -⟩ := keeps_of_steps hR hw (hR _ _ hqueue hu)
        exact ⟨hexit', hcommit⟩

end

/-! ## The recursion -/

/-- How far a run of `advanceSlot` is. -/
inductive Stage where
  | entered
  | accepted
  | confirmed
  | committed
  | finished

/-- What is left after the attempt of a stage. -/
def Stage.next : Stage → Stage
  | .entered => .accepted
  | .accepted => .confirmed
  | .confirmed => .committed
  | .committed => .finished
  | .finished => .finished

/-- The outcome of the search made at a stage. -/
def attempted (scp : SCP) (bp : BallotProtocol) (hint : BallotPledges) :
    Stage → Except Failure (Option Move)
  | .entered => attemptedAcceptPrepared scp bp hint
  | .accepted => .ok <| (confirmablePrepared scp bp hint).bind fun (newC, newH) =>
      if bp.confirmWorks newC newH then some (.confirmPrepared newC newH) else none
  | .confirmed => attemptedAcceptCommit scp bp hint
  | .committed => .ok (attemptedConfirmCommit scp bp hint)
  | .finished => .ok none

theorem attempted_accepted_some {bp : BallotProtocol} {hint : BallotPledges} {m : Move}
    (h : attempted scp bp hint .accepted = .ok (some m)) :
    ∃ newC newH, m = .confirmPrepared newC newH ∧
      confirmablePrepared scp bp hint = some (newC, newH) ∧ bp.confirmWorks newC newH = true := by
  simp only [attempted, Except.ok.injEq, Option.bind_eq_some_iff, Option.ite_none_right_eq_some,
    Option.some.injEq] at h
  obtain ⟨⟨newC, newH⟩, hfound, hworks, rfl⟩ := h
  exact ⟨newC, newH, rfl, hfound, hworks⟩

/-- The rule for `advanceSlot`, from one rule for each of its searches. -/
theorem after_advanceSlotWith_of_stages {advance : BallotStatement → SlotM Unit}
    {hint : BallotStatement} {exit : Slot → Prop} {E : Failure → Slot → Prop}
    (At : Stage → Slot → Prop) (hkeep : ∀ stage t u, Bookkeep scp t u → At stage t → At stage u)
    (hkeepExit : ∀ t u, Bookkeep scp t u → exit t → exit u) (hfinish : ∀ t, At .finished t → exit t)
    (htoo : ∀ t, At .entered t → E .tooManyTransitions t) (hacceptPrepared : ∀ t, At .entered t →
      After (attemptAcceptPrepared scp advance hint.pledges) t (fun _ => At .accepted) E)
    (hconfirmPrepared : ∀ t, At .accepted t →
      After (attemptConfirmPrepared scp advance hint.pledges) t (fun _ => At .confirmed) E)
    (hacceptCommit : ∀ t, At .confirmed t →
      After (attemptAcceptCommit scp advance hint.pledges) t (fun _ => At .committed) E)
    (hconfirmCommit : ∀ t, At .committed t →
      After (attemptConfirmCommit scp advance hint.pledges) t (fun _ => At .finished) E)
    (hloop : ∀ t, At .finished t →
      After (bumpLoop scp advance bumpFuel) t (fun _ => At .finished) E) (h : At .entered s) :
    After (advanceSlotWith scp advance hint) s (fun _ => exit) E := by
  have hE : ∀ e t, E e t → E e t := fun _ _ hE => hE
  have hlevel := hkeep _ _ _ (.level s (s.mBallotProtocol.mCurrentMessageLevel + 1)) h
  rw [advanceSlotWith, after_bind, after_modifyBallot, after_bind, after_ballotProtocol, after_bind,
    after_when]
  refine ⟨fun _ => htoo _ hlevel, fun _ => ?_⟩
  rw [after_bind]
  refine (hacceptPrepared _ hlevel).mono (fun _ t₁ h₁ => ?_) hE
  rw [after_bind]
  refine (hconfirmPrepared _ h₁).mono (fun _ t₂ h₂ => ?_) hE
  rw [after_bind]
  refine (hacceptCommit _ h₂).mono (fun _ t₃ h₃ => ?_) hE
  rw [after_bind]
  refine (hconfirmCommit _ h₃).mono (fun _ t₄ h₄ => ?_) hE
  rw [after_bind, after_ballotProtocol, after_bind]
  have hend : ∀ (b : Bool) (t : Slot), At .finished t →
      After (do
        modifyBallot fun bp => bp.withLevel (bp.mCurrentMessageLevel - 1)
        when (b = true) sendLatestEnvelope) t (fun _ => exit) E := by
    intro b t ht
    have hexit := hkeepExit _ _ (.level t (t.mBallotProtocol.mCurrentMessageLevel - 1))
      (hfinish t ht)
    rw [after_bind, after_modifyBallot, after_when]
    exact ⟨fun _ => after_sendLatestEnvelope fun w hw => keeps_of_steps hkeepExit hw hexit,
      fun _ => hexit⟩
  rw [after_ite]
  refine ⟨fun _ => ?_, fun _ => hend _ _ h₄⟩
  rw [after_bind]
  refine (hloop _ h₄).mono (fun _ t₅ h₅ => ?_) hE
  rw [after_bind]
  exact after_checkHeardFromQuorum fun w hw => hend _ _ (keeps_of_steps (hkeep _) hw h₅)

/-- `At stage g hint s` is what is known in `s` at a stage of the run with `hint`,
`Exit g` what holds when it returns and `Fails g` when it fails. The ghost value
`g` is chosen by the caller. -/
structure Contract (scp : SCP) where
  Ghost : Type
  At : Stage → Ghost → BallotStatement → Slot → Prop
  Exit : Ghost → Slot → Prop
  Fails : Ghost → Failure → Slot → Prop

namespace Contract
variable {scp : SCP} (C : Contract scp)

/-- Speaking in `t`, with a ghost value for the nested run, leads to `K`. -/
def Hand (g : C.Ghost) (K : Slot → Prop) (t : Slot) : Prop :=
  ∃ g' : C.Ghost, Speaks scp (C.At .entered g') (C.Exit g') (C.Fails g') t ∧
    (∀ u, C.Exit g' u → K u) ∧ ∀ e u, C.Fails g' e u → C.Fails g e u

/-- A bump that is neither refused nor idle leads to `K`. -/
def Bumps (g : C.Ghost) (K : Slot → Prop) (s : Slot) (value : Value) (n : Uint32) : Prop :=
  ∀ t, s.mBallotProtocol.CanBumpTo (s.mBallotProtocol.bumpTarget value n) →
    Moved s (.bump (s.mBallotProtocol.bumpTarget value n)) t →
    (∀ e, t.mBallotProtocol.checkInvariants = .error e →
      C.Fails g e (t.log (.checkInvariants t.mBallotProtocol))) ∧
    (t.mBallotProtocol.checkInvariants = .ok () →
      C.Hand g K (t.log (.checkInvariants t.mBallotProtocol)))

/-- The obligations of a contract, of which `P` may be assumed. -/
structure HoldsGiven (P : Stage → BallotStatement → Slot → Prop) : Prop where
  keeps_at : ∀ stage g hint s t, P stage hint s → Bookkeep scp s t → C.At stage g hint s →
    C.At stage g hint t
  keeps_exit : ∀ g s t, Bookkeep scp s t → C.Exit g s → C.Exit g t
  error : ∀ stage g hint s e, P stage hint s → C.At stage g hint s →
    attempted scp s.mBallotProtocol hint.pledges stage = .error e → C.Fails g e s
  stay : ∀ stage g hint s, P stage hint s → C.At stage g hint s →
    attempted scp s.mBallotProtocol hint.pledges stage = .ok none → C.At stage.next g hint s
  move : ∀ stage g hint s m t, P stage hint s → C.At stage g hint s →
    attempted scp s.mBallotProtocol hint.pledges stage = .ok (some m) → Moved s m t →
    C.Hand g (C.At stage.next g hint) t
  bump : ∀ g hint s value n, P .finished hint s → C.At .finished g hint s →
    s.abandonValue = some value → value ≠ [] → n ≠ 0 →
    C.Bumps g (C.At .finished g hint) s value n
  finish : ∀ g hint s, P .finished hint s → C.At .finished g hint s → C.Exit g s
  tooManyTransitions : ∀ g hint s, P .entered hint s → C.At .entered g hint s →
    C.Fails g .tooManyTransitions s
  diverges : ∀ g hint s, P .finished hint s → C.At .finished g hint s → C.Fails g .diverges s

/-- The obligations of a contract. -/
abbrev Holds : Prop := C.HoldsGiven fun _ _ _ => True

variable {C} {advance : BallotStatement → SlotM Unit} {g : C.Ghost} {hint : BallotStatement}
  {s : Slot}

/-- `advance` keeps the contract. -/
structure Satisfied (C : Contract scp) (advance : BallotStatement → SlotM Unit) : Prop where
  keeps : ∀ g hint s, C.At .entered g hint s →
    After (advance hint) s (fun _ t => C.Exit g t) (C.Fails g)
  appends : Appends advance

namespace Holds

theorem speak (hC : C.Holds) (hadv : C.Satisfied advance) {K : Slot → Prop}
    (h : C.Hand g K s) :
    After (emitCurrentStateStatement scp advance) s (fun _ t => K t ∧
      (s.mBallotProtocol.mPhase = .externalize →
        t.mBallotProtocol.mCommit = s.mBallotProtocol.mCommit)) (C.Fails g) := by
  obtain ⟨g', hspeaks, hexit, hfails⟩ := h
  exact (after_emitCurrentStateStatement (hC.keeps_at .entered g' · · · trivial) (hC.keeps_exit g')
    (hadv.keeps g') hadv.appends hspeaks).mono (fun _ u hu => ⟨hexit u hu.1, hu.2⟩) hfails

theorem after_attemptAcceptPrepared (hC : C.Holds) (hadv : C.Satisfied advance)
    (h : C.At .entered g hint s) :
    After (attemptAcceptPrepared scp advance hint.pledges) s
      (fun _ t => C.At .accepted g hint t) (C.Fails g) := by
  refine Scp.after_attemptAcceptPrepared (hC.error .entered g hint s · trivial h)
    (hC.stay .entered g hint s trivial h) fun m hm t ht => ?_
  exact (hC.speak hadv (hC.move .entered g hint s m t trivial h hm ht)).imp fun _ _ hu => hu.1

theorem after_attemptConfirmPrepared (hC : C.Holds) (hadv : C.Satisfied advance)
    (h : C.At .accepted g hint s) :
    After (attemptConfirmPrepared scp advance hint.pledges) s
      (fun _ t => C.At .confirmed g hint t) (C.Fails g) := by
  have hstay := hC.stay .accepted g hint s trivial h
  have hmove := hC.move .accepted g hint s
  simp only [attempted] at hstay hmove
  refine Scp.after_attemptConfirmPrepared (fun hnone => hstay (by rw [hnone]; rfl)) ?_ ?_
  · intro newC newH hfound hidle
    refine hC.keeps_at _ g hint _ _ trivial (.remember s hfound) (hstay ?_)
    rw [hfound, Option.bind_some, hidle]
    rfl
  · intro newC newH hfound hworks t ht
    refine (hC.speak hadv (hmove _ t trivial h ?_ ht)).imp fun _ _ hu => hu.1
    rw [hfound, Option.bind_some, hworks]
    rfl

theorem after_attemptAcceptCommit (hC : C.Holds) (hadv : C.Satisfied advance)
    (h : C.At .confirmed g hint s) :
    After (attemptAcceptCommit scp advance hint.pledges) s
      (fun _ t => C.At .committed g hint t) (C.Fails g) := by
  refine Scp.after_attemptAcceptCommit (hC.error .confirmed g hint s · trivial h)
    (hC.stay .confirmed g hint s trivial h) fun m hm t ht => ?_
  exact (hC.speak hadv (hC.move .confirmed g hint s m t trivial h hm ht)).imp fun _ _ hu => hu.1

theorem after_attemptConfirmCommit (hC : C.Holds) (hadv : C.Satisfied advance)
    (h : C.At .committed g hint s) :
    After (attemptConfirmCommit scp advance hint.pledges) s
      (fun _ t => C.At .finished g hint t) (C.Fails g) := by
  have hstay := hC.stay .committed g hint s trivial h
  have hmove := hC.move .committed g hint s
  simp only [attempted] at hstay hmove
  refine Scp.after_attemptConfirmCommit (fun hnone => hstay (by rw [hnone])) ?_
  intro m hm t ht
  refine (hC.speak hadv (hmove m t trivial h (by rw [hm]) ht)).imp ?_
  rintro - u ⟨hu, hcommit⟩
  obtain ⟨-, c, hb, -, rfl, -⟩ := attemptedConfirmCommit_some hm
  obtain ⟨evs, -, rfl⟩ := ht
  -- the ballot that was committed is still there after the node has spoken
  have hc : u.mBallotProtocol.mCommit = some c :=
    (hcommit rfl).trans (confirmCommit_mCommit _ c hb)
  refine ⟨c, hc, ?_⟩
  exact hC.keeps_at _ g hint _ _ trivial (.notify _ _ rfl) (hC.keeps_at _ g hint _ _ trivial (.stopNomination u) hu)

theorem after_attemptBump (hC : C.Holds) (hadv : C.Satisfied advance)
    (h : C.At .finished g hint s) :
    After (attemptBump scp advance) s (fun _ t => C.At .finished g hint t) (C.Fails g) := by
  refine Scp.after_attemptBump h fun value n hcan _ hvalue hne hn t ht => ?_
  obtain ⟨hfails, hhand⟩ := hC.bump g hint s value n trivial h hvalue hne hn t hcan ht
  rw [after_checkInvariants]
  refine ⟨fun hcheck => ?_, hfails⟩
  refine (hC.speak hadv (hhand hcheck)).imp ?_
  rintro - u ⟨hu, -⟩
  exact after_checkHeardFromQuorum fun w hw => keeps_of_steps (hC.keeps_at _ g hint · · trivial) hw hu

theorem after_bumpLoop (hC : C.Holds) (hadv : C.Satisfied advance) (fuel : ℕ)
    (h : C.At .finished g hint s) :
    After (bumpLoop scp advance fuel) s (fun _ t => C.At .finished g hint t) (C.Fails g) := by
  induction fuel generalizing s with
  | zero => exact hC.diverges g hint s trivial h
  | succ fuel ih =>
    refine (hC.after_attemptBump hadv h).bind fun didBump t ht => ?_
    rw [after_ite, after_bind]
    exact ⟨fun _ => ih ht, fun _ => ht⟩

theorem after_advanceSlotWith (hC : C.Holds) (hadv : C.Satisfied advance)
    (h : C.At .entered g hint s) :
    After (advanceSlotWith scp advance hint) s (fun _ t => C.Exit g t) (C.Fails g) :=
  after_advanceSlotWith_of_stages (C.At · g hint) (fun stage _ _ => hC.keeps_at stage g hint _ _ trivial)
    (hC.keeps_exit g) (hC.finish g hint · trivial) (hC.tooManyTransitions g hint · trivial)
    (fun _ => hC.after_attemptAcceptPrepared hadv) (fun _ => hC.after_attemptConfirmPrepared hadv)
    (fun _ => hC.after_attemptAcceptCommit hadv) (fun _ => hC.after_attemptConfirmCommit hadv)
    (fun _ => hC.after_bumpLoop hadv _) h

/-- The contract that the trace only grows. -/
def trace (scp : SCP) : Contract scp where
  Ghost := List Event
  At _ g _ s := g <:+ s.trace
  Exit g s := g <:+ s.trace
  Fails _ _ _ := True

theorem trace_hand {g : List Event} {K : Slot → Prop} (hs : g <:+ s.trace)
    (hK : ∀ u : Slot, g <:+ u.trace → K u) : (trace scp).Hand g K s := by
  have hsigned : ∀ env, g <:+ (s.signed env).trace := fun env =>
    hs.trans ((List.suffix_cons _ _).trans (List.suffix_cons _ _))
  exact ⟨g, ⟨fun _ _ => trivial, fun _ _ _ => trivial, fun _ _ _ => hsigned _,
    fun _ _ _ _ => trivial, fun _ _ _ _ => hsigned _, fun _ _ _ _ => hsigned _⟩, hK,
    fun _ _ _ => trivial⟩

theorem trace_holds (scp : SCP) : (trace scp).Holds where
  keeps_at _ _ _ _ _ _ hb h := h.trans hb.suffix
  keeps_exit _ _ _ hb h := h.trans hb.suffix
  error _ _ _ _ _ _ _ _ := trivial
  stay _ _ _ _ _ h _ := h
  move _ _ _ _ _ _ _ h _ ht := trace_hand (h.trans ht.suffix) fun _ hu => hu
  bump _ _ _ _ _ _ h _ _ _ := fun _ _ ht => ⟨fun _ _ => trivial, fun _ =>
    trace_hand (h.trans (ht.suffix.trans (List.suffix_cons _ _))) fun _ hu => hu⟩
  finish _ _ _ _ h := h
  tooManyTransitions _ _ _ _ _ := trivial
  diverges _ _ _ _ _ := trivial

theorem appends_advanceSlot (scp : SCP) (fuel : ℕ) : Appends (advanceSlot scp fuel) := by
  induction fuel with
  | zero => exact fun _ _ => trivial
  | succ fuel ih =>
    have hsat : (trace scp).Satisfied (advanceSlot scp fuel) := by
      refine ⟨fun g hint s h => ?_, ih⟩
      exact (ih hint s).mono (fun _ t ht => h.trans ht) fun _ _ _ => trivial
    intro hint s
    exact (trace_holds scp).after_advanceSlotWith hsat List.suffix_rfl

/-- A contract holds of every run of `advanceSlot`. -/
theorem satisfied (hC : C.Holds) (fuel : ℕ) : C.Satisfied (advanceSlot scp fuel) := by
  induction fuel with
  | zero => exact ⟨fun g hint s h => hC.tooManyTransitions g hint s trivial h,
      appends_advanceSlot scp 0⟩
  | succ fuel ih => exact ⟨fun g hint s h => hC.after_advanceSlotWith ih h,
      appends_advanceSlot scp (fuel + 1)⟩

/-! ## Calls from outside -/

theorem after_receiveEnvelope (hC : C.Holds) {env : BallotEnvelope}
    (hindex : env.statement.slotIndex ≠ s.mSlotIndex → C.Fails g (.assertion .slotIndex) s)
    (hidle : C.Exit g s)
    (hrecord : Admits scp s env.statement false → s.mBallotProtocol.mPhase ≠ .externalize →
      C.At .entered g env.statement (s.record env))
    (hnull : s.mBallotProtocol.mPhase = .externalize → s.mBallotProtocol.mCommit = none →
      C.Fails g .nullDereference s)
    (hfinal : Admits scp s env.statement false → s.mBallotProtocol.mPhase = .externalize →
      ∀ c, s.mBallotProtocol.mCommit = some c →
      c.value = (getWorkingBallot env.statement.pledges).value → C.Exit g (s.record env)) :
    After (receiveEnvelope scp env) s (fun _ t => C.Exit g t) (C.Fails g) := by
  refine after_slotProcessEnvelope hindex (fun _ => hidle) ?_ hnull ?_
  · intro hadm hphase t ht
    have hin : C.At .entered g env.statement (t.record env) := by
      rcases ht with rfl | rfl
      · exact hrecord hadm hphase
      · exact hC.keeps_at _ g _ _ _ trivial (.unvalidated _) (hrecord hadm hphase)
    exact ((hC.satisfied _).keeps g _ _ hin).imp fun _ u hu w hw => keeps_of_steps (hC.keeps_exit g) hw hu
  · intro hadm hphase c hc
    exact ⟨fun hval w hw => keeps_of_steps (hC.keeps_exit g) hw (hfinal hadm hphase c hc hval),
      fun _ => hidle⟩

theorem after_bumpStateTo (hC : C.Holds) (hadv : C.Satisfied advance) {value : Value}
    {n : Uint32}
    (hback : ∀ b ∈ s.mBallotProtocol.mCurrentBallot,
      s.mBallotProtocol.bumpTarget value n < b → C.Fails g (.assertion .updateCurrentValue) s)
    (hidle : C.Exit g s) (hne : ∀ b ∈ s.mBallotProtocol.mCurrentBallot, b.counter ≠ n)
    (hbump : C.Bumps g (C.Exit g) s value n) :
    After (bumpStateTo scp advance value n) s (fun _ t => C.Exit g t) (C.Fails g) := by
  refine Scp.after_bumpStateTo hback hidle (fun hb => absurd rfl (hne _ hb)) fun hcan t ht => ?_
  obtain ⟨hfails, hhand⟩ := hbump t hcan ht
  rw [after_checkInvariants]
  refine ⟨fun hcheck => ?_, hfails⟩
  refine (hC.speak hadv (hhand hcheck)).imp ?_
  rintro - u ⟨hu, -⟩
  exact after_checkHeardFromQuorum fun w hw => keeps_of_steps (hC.keeps_exit g) hw hu

/-- The counter after the highest one is zero, and the bump to it is refused by an
assertion. -/
theorem after_bumpState (hC : C.Holds) {value : Value} {force : Bool}
    (hback : ∀ b ∈ s.mBallotProtocol.mCurrentBallot, b.counter = uint32Max →
      C.Fails g (.assertion .updateCurrentValue) s)
    (hidle : C.Exit g s) (hbump : ∀ n, n ≠ 0 → C.Bumps g (C.Exit g) s value n) :
    After (bumpState scp value force) s (fun _ t => C.Exit g t) (C.Fails g) := by
  rw [bumpState, bumpStateWith, after_bind, after_ballotProtocol]
  have hstart : s.mBallotProtocol.mCurrentBallot = none →
      After (bumpStateTo scp (advanceSlot scp maxAdvanceSlotRecursion) value 1) s
        (fun _ t => C.Exit g t) (C.Fails g) := by
    intro hb
    exact hC.after_bumpStateTo (hC.satisfied _) (by simp [hb]) hidle (by simp [hb])
      (hbump 1 (by decide))
  cases hb : s.mBallotProtocol.mCurrentBallot with
  | none => cases force <;> exact hstart hb
  | some b =>
    cases force with
    | false => exact hidle
    | true =>
      have hcur : ∀ b' ∈ s.mBallotProtocol.mCurrentBallot, b' = b := by
        intro b' hb'
        rw [hb] at hb'
        exact (Option.some.inj hb').symm
      refine hC.after_bumpStateTo (hC.satisfied _) ?_ hidle ?_ ?_
      · intro b' hb' hlt
        refine hback b' hb' ?_
        obtain rfl := hcur b' hb'
        exact eq_uint32Max_of_succ_le (SCPBallot.counter_le hlt.le)
      · intro b' hb'
        obtain rfl := hcur b' hb'
        exact (uint32_succ_ne b'.counter).symm
      · intro t hcan
        refine hbump _ ?_ t hcan
        intro h0
        have hlt := SCPBallot.counter_le (hcan.2.1 b hb).le
        rw [h0] at hlt
        have hb0 : b.counter = 0 := le_antisymm hlt (Fin.zero_le _)
        rw [hb0] at h0
        exact absurd h0 (by decide)

theorem after_abandonBallot (hC : C.Holds)
    (hback : ∀ b ∈ s.mBallotProtocol.mCurrentBallot, b.counter = uint32Max →
      C.Fails g (.assertion .updateCurrentValue) s)
    (hidle : C.Exit g s)
    (hbump : ∀ value n, s.abandonValue = some value → value ≠ [] → n ≠ 0 →
      C.Bumps g (C.Exit g) s value n) :
    After (abandonBallot scp) s (fun _ t => C.Exit g t) (C.Fails g) := by
  rw [abandonBallot, abandonBallotTo, after_bind, after_get]
  split
  · rename_i x v hv
    exact hC.after_bumpState hback hidle fun n hn => hbump _ n hv (by simp) hn
  · exact hidle

end Holds

/-! ## Two contracts at once -/

section
variable (C D : Contract scp)

/-- The contract that promises what both promise. -/
def and : Contract scp where
  Ghost := C.Ghost × D.Ghost
  At stage g hint s := C.At stage g.1 hint s ∧ D.At stage g.2 hint s
  Exit g s := C.Exit g.1 s ∧ D.Exit g.2 s
  Fails g e s := C.Fails g.1 e s ∧ D.Fails g.2 e s

variable {C D}

theorem hand_and {g : (C.and D).Ghost} {K L : Slot → Prop} {t : Slot} (hC : C.Hand g.1 K t)
    (hD : D.Hand g.2 L t) : (C.and D).Hand g (fun u => K u ∧ L u) t := by
  obtain ⟨g₁, hs₁, hK, hf₁⟩ := hC
  obtain ⟨g₂, hs₂, hL, hf₂⟩ := hD
  refine ⟨(g₁, g₂), ⟨?_, ?_, ?_, ?_, ?_, ?_⟩, fun u hu => ⟨hK u hu.1, hL u hu.2⟩,
    fun e u hu => ⟨hf₁ e u hu.1, hf₂ e u hu.2⟩⟩
  · exact fun e he => ⟨hs₁.check e he, hs₂.check e he⟩
  · exact fun hc e he => ⟨hs₁.null hc e he, hs₂.null hc e he⟩
  · exact fun pl hp hsame => ⟨hs₁.same pl hp hsame, hs₂.same pl hp hsame⟩
  · exact fun pl hp hne hadm => ⟨hs₁.bad pl hp hne hadm, hs₂.bad pl hp hne hadm⟩
  · exact fun pl hp hadm hphase => ⟨hs₁.record pl hp hadm hphase, hs₂.record pl hp hadm hphase⟩
  · exact fun pl hp hadm hphase =>
      ⟨hs₁.recordFinal pl hp hadm hphase, hs₂.recordFinal pl hp hadm hphase⟩

theorem bumps_and {g : (C.and D).Ghost} {K L : Slot → Prop} {s : Slot} {value : Value}
    {n : Uint32} (hC : C.Bumps g.1 K s value n) (hD : D.Bumps g.2 L s value n) :
    (C.and D).Bumps g (fun u => K u ∧ L u) s value n := by
  intro t hcan ht
  obtain ⟨hf₁, hh₁⟩ := hC t hcan ht
  obtain ⟨hf₂, hh₂⟩ := hD t hcan ht
  exact ⟨fun e he => ⟨hf₁ e he, hf₂ e he⟩, fun hok => hand_and (hh₁ hok) (hh₂ hok)⟩

/-- The second contract may rely on what the first one says of every stage. -/
theorem holds_and (hC : C.Holds)
    (hD : D.HoldsGiven fun stage hint s => ∃ g, C.At stage g hint s) : (C.and D).Holds where
  keeps_at stage g hint s t _ hb h :=
    ⟨hC.keeps_at stage g.1 hint s t trivial hb h.1, hD.keeps_at stage g.2 hint s t ⟨_, h.1⟩ hb h.2⟩
  keeps_exit g s t hb h := ⟨hC.keeps_exit g.1 s t hb h.1, hD.keeps_exit g.2 s t hb h.2⟩
  error stage g hint s e _ h he :=
    ⟨hC.error stage g.1 hint s e trivial h.1 he, hD.error stage g.2 hint s e ⟨_, h.1⟩ h.2 he⟩
  stay stage g hint s _ h he :=
    ⟨hC.stay stage g.1 hint s trivial h.1 he, hD.stay stage g.2 hint s ⟨_, h.1⟩ h.2 he⟩
  move stage g hint s m t _ h hm ht :=
    hand_and (hC.move stage g.1 hint s m t trivial h.1 hm ht)
      (hD.move stage g.2 hint s m t ⟨_, h.1⟩ h.2 hm ht)
  bump g hint s value n _ h hv hne hn :=
    bumps_and (hC.bump g.1 hint s value n trivial h.1 hv hne hn)
      (hD.bump g.2 hint s value n ⟨_, h.1⟩ h.2 hv hne hn)
  finish g hint s _ h :=
    ⟨hC.finish g.1 hint s trivial h.1, hD.finish g.2 hint s ⟨_, h.1⟩ h.2⟩
  tooManyTransitions g hint s _ h :=
    ⟨hC.tooManyTransitions g.1 hint s trivial h.1,
      hD.tooManyTransitions g.2 hint s ⟨_, h.1⟩ h.2⟩
  diverges g hint s _ h :=
    ⟨hC.diverges g.1 hint s trivial h.1, hD.diverges g.2 hint s ⟨_, h.1⟩ h.2⟩

end

end Contract

end DigitalBits.Scp
