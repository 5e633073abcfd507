import DigitalBits.Scp.BallotEmission

/-!
# Starting again from the last statement

After a crash a node sets the state of its ballot protocol from the last envelope it
has emitted. The envelope holds the ballots, except for the value of `p` in `CONFIRM`
and for `b` and `p` in `EXTERNALIZE`; it does not hold `mValueOverride`. Whatever the
node was when it created the envelope, it is again, except that in `PREPARE` it has
forgotten the value it saw confirmed prepared.
-/
namespace DigitalBits.Scp
open Lib LocalNode SCPBallot BallotProtocol Slot

/-! ## The source -/

/-- The members that `setStateFromEnvelope` sets from a `PREPARE`. -/
def BallotProtocol.withPrepare (bp : BallotProtocol) (prep : SCPPrepare) : BallotProtocol :=
  { bp with
    mPrepared := prep.prepared <|> bp.mPrepared
    mPreparedPrime := prep.preparedPrime <|> bp.mPreparedPrime
    mHighBallot := if prep.nH ≠ 0 then some ⟨prep.nH, prep.ballot.value⟩ else bp.mHighBallot
    mCommit := if prep.nC ≠ 0 then some ⟨prep.nC, prep.ballot.value⟩ else bp.mCommit
    mPhase := .prepare }

/-- The members that `setStateFromEnvelope` sets from a `CONFIRM`. -/
def BallotProtocol.withConfirm (bp : BallotProtocol) (c : SCPConfirm) : BallotProtocol :=
  { bp with
    mPrepared := some ⟨c.nPrepared, c.ballot.value⟩
    mHighBallot := some ⟨c.nH, c.ballot.value⟩
    mCommit := some ⟨c.nCommit, c.ballot.value⟩
    mPhase := .confirm }

/-- The members that `setStateFromEnvelope` sets from an `EXTERNALIZE`. -/
def BallotProtocol.withExternalize (bp : BallotProtocol) (ext : SCPExternalize) :
    BallotProtocol :=
  { bp with
    mPrepared := some ⟨uint32Max, ext.commit.value⟩
    mHighBallot := some ⟨ext.nH, ext.commit.value⟩
    mCommit := some ext.commit
    mPhase := .externalize }

/-- `BallotProtocol::setStateFromEnvelope`. -/
def setStateFromEnvelope (env : BallotEnvelope) : SlotM Unit := do
  let bp ← ballotProtocol
  when (bp.mCurrentBallot.isSome = true) (throw .alreadyStarted)
  recordEnvelope env
  modifyBallot fun bp => (bp.withLastEnvelope env).withLastEnvelopeEmit env
  match env.statement.pledges with
  | .prepare prep => do
    bumpToBallot prep.ballot true
    modifyBallot (·.withPrepare prep)
  | .confirm c => do
    bumpToBallot c.ballot true
    modifyBallot (·.withConfirm c)
  | .externalize ext => do
    bumpToBallot ⟨uint32Max, ext.commit.value⟩ true
    modifyBallot (·.withExternalize ext)

/-- `Slot::setStateFromEnvelope` on an envelope of the ballot protocol. -/
def slotSetStateFromEnvelope (scp : SCP) (env : BallotEnvelope) : SlotM Unit := do
  let slot ← get
  when (env.statement.nodeID = scp.mLocalNode.mNodeID ∧ env.statement.slotIndex = slot.mSlotIndex) do
    setStateFromEnvelope env
    when (slot.hasLatestMessage env.statement.nodeID = false) (maybeSetGotVBlocking scp)

/-- `Slot::getCompanionQuorumSetHashFromStatement`. -/
def getCompanionQuorumSetHashFromStatement (st : BallotStatement) : Hash :=
  match st.pledges with
  | .prepare p => p.quorumSetHash
  | .confirm c => c.quorumSetHash
  | .externalize e => e.commitQuorumSetHash

/-- The ballots a fresh protocol gets from pledges. -/
def BallotProtocol.fromPledges : BallotPledges → BallotProtocol
  | .prepare prep =>
    { BallotProtocol.new with
      mCurrentBallot := some prep.ballot
      mPrepared := prep.prepared
      mPreparedPrime := prep.preparedPrime
      mHighBallot := if prep.nH ≠ 0 then some ⟨prep.nH, prep.ballot.value⟩ else none
      mCommit := if prep.nC ≠ 0 then some ⟨prep.nC, prep.ballot.value⟩ else none }
  | .confirm c =>
    { BallotProtocol.new with
      mPhase := .confirm
      mCurrentBallot := some c.ballot
      mPrepared := some ⟨c.nPrepared, c.ballot.value⟩
      mHighBallot := some ⟨c.nH, c.ballot.value⟩
      mCommit := some ⟨c.nCommit, c.ballot.value⟩ }
  | .externalize ext =>
    { BallotProtocol.new with
      mPhase := .externalize
      mCurrentBallot := some ⟨uint32Max, ext.commit.value⟩
      mPrepared := some ⟨uint32Max, ext.commit.value⟩
      mHighBallot := some ⟨ext.nH, ext.commit.value⟩
      mCommit := some ext.commit }

/-- The slot has the ballots of the pledges and no value to keep to. -/
structure Slot.Restored (r : Slot) (env : BallotEnvelope) : Prop where
  votes : (BallotProtocol.fromPledges env.statement.pledges).SameVotes r.mBallotProtocol
  override : r.mBallotProtocol.mValueOverride = none
  last : r.mBallotProtocol.mLastEnvelope = some env
  sent : r.mBallotProtocol.mLastEnvelopeEmit = some env
  index : r.mSlotIndex = env.statement.slotIndex
  quiet : ∀ e ∈ r.trace, e.isAudit = false

section
variable {scp : SCP} {s : Slot} {env : BallotEnvelope} {Q : Unit → Slot → Prop}
  {E : Failure → Slot → Prop}

/-- On a fresh slot the call is a series of assignments. -/
theorem after_setStateFromEnvelope (hnew : s.mBallotProtocol = .new) (htrace : s.trace = [])
    (hindex : s.mSlotIndex = env.statement.slotIndex)
    (h : ∀ t, t.Restored env → Q () t) : After (setStateFromEnvelope env) s Q E := by
  obtain ⟨index, bp, np, valid, got, trace⟩ := s
  obtain rfl : bp = .new := hnew
  obtain rfl : trace = [] := htrace
  obtain rfl : index = env.statement.slotIndex := hindex
  have hquiet : ∀ ballot : SCPBallot, ∀ e ∈ [Event.startedBallotProtocol ballot],
      e.isAudit = false := by simp [Event.isAudit]
  obtain ⟨⟨nodeID, slotIndex, pledges⟩, signature⟩ := env
  cases pledges with
  | prepare prep =>
    obtain ⟨hash, ballot, prepared, preparedPrime, nC, nH⟩ := prep
    refine h _ ⟨⟨rfl, rfl, ?_, ?_, rfl, rfl⟩, rfl, rfl, rfl, rfl, hquiet ballot⟩
    · cases prepared <;> rfl
    · cases preparedPrime <;> rfl
  | confirm c =>
    exact h _ ⟨⟨rfl, rfl, rfl, rfl, rfl, rfl⟩, rfl, rfl, rfl, rfl, hquiet c.ballot⟩
  | externalize ext =>
    exact h _ ⟨⟨rfl, rfl, rfl, rfl, rfl, rfl⟩, rfl, rfl, rfl, rfl,
      hquiet ⟨uint32Max, ext.commit.value⟩⟩

/-- A fresh slot is set from an envelope of its own node. -/
theorem after_slotSetStateFromEnvelope (hid : env.statement.nodeID = scp.mLocalNode.mNodeID)
    (h : ∀ t, t.Restored env → Q () t) :
    After (slotSetStateFromEnvelope scp env) (new env.statement.slotIndex scp) Q E := by
  rw [slotSetStateFromEnvelope, after_bind, after_get, after_when_of ⟨hid, rfl⟩, after_bind]
  refine after_setStateFromEnvelope rfl rfl rfl fun t ht => ?_
  rw [after_when]
  refine ⟨fun _ => ?_, fun _ => h t ht⟩
  rw [maybeSetGotVBlocking, after_modify]
  split_ifs
  · exact h t ht
  · exact h _ ⟨ht.votes, ht.override, ht.last, ht.sent, ht.index, ht.quiet⟩

end

/-! ## The ballots in a statement -/

/-- The state `bp` in which a node makes the statement of the envelope. -/
structure BallotProtocol.Makes (bp : BallotProtocol) (slotIndex : Uint64) (env : BallotEnvelope) :
    Prop where
  consistent : bp.Consistent
  counters : ∀ c ∈ bp.mCommit, c.counter ≠ 0
  checked : bp.checkInvariants = .ok ()
  pledges : bp.pledges (getCompanionQuorumSetHashFromStatement env.statement)
    bp.mPhase.statementType = .ok env.statement.pledges
  index : env.statement.slotIndex = slotIndex

/-- `r` is `bp` as far as a statement tells. A ballot `h` with counter zero is not in
the statement. -/
structure BallotProtocol.Recovers (bp r : BallotProtocol) : Prop where
  phase : r.mPhase = bp.mPhase
  current : r.mCurrentBallot = if bp.mPhase = .externalize
    then bp.mCurrentBallot.map fun b => ⟨uint32Max, b.value⟩ else bp.mCurrentBallot
  prepared : r.mPrepared.map counter = if bp.mPhase = .externalize
    then bp.mPrepared.map fun _ => uint32Max else bp.mPrepared.map counter
  commit : r.mCommit = bp.mCommit
  high : r.mHighBallot = bp.mHighBallot ↔ ∀ h ∈ bp.mHighBallot, h.counter ≠ 0

/-- A restored state in which the node can go on. -/
structure BallotProtocol.Resumes (bp r : BallotProtocol) (st : BallotStatement) : Prop
    extends bp.Recovers r where
  consistent : r.Consistent
  checked : r.checkInvariants = .ok ()
  pledges : r.pledges (getCompanionQuorumSetHashFromStatement st) r.mPhase.statementType =
    .ok st.pledges

section
variable {bp r r' : BallotProtocol} {slotIndex : Uint64} {env : BallotEnvelope}

theorem BallotProtocol.Resumes.congr {st : BallotStatement} (h : bp.Resumes r st)
    (hr : r.SameVotes r') : bp.Resumes r' st := by
  refine ⟨⟨?_, ?_, ?_, ?_, ?_⟩, hr.consistent h.consistent, ?_, ?_⟩
  · rw [hr.phase, h.phase]
  · rw [hr.current, h.current]
  · rw [hr.prepared, h.prepared]
  · rw [hr.commit, h.commit]
  · rw [hr.high, h.high]
  · rw [← h.checked]
    simp only [BallotProtocol.checkInvariants, BallotProtocol.checkCommit, hr.phase, hr.current,
      hr.prepared, hr.preparedPrime, hr.high, hr.commit]
  · rw [hr.pledges_eq, h.pledges]

/-- What a consistent state lacks of what `checkInvariants` asserts. -/
theorem BallotProtocol.Consistent.checkInvariants_ok (hbp : bp.Consistent)
    (hb : ∀ b ∈ bp.mCurrentBallot, b.counter ≠ 0) : bp.checkInvariants = .ok () := by
  rw [checkInvariants_ok_iff]
  have hlater : bp.mPhase ≠ .prepare → bp.mCommit.isSome = true := fun hphase =>
    Option.isSome_iff_ne_none.mpr (hbp.later hphase).1
  exact ⟨hb, hbp.prepared, hbp.high, hbp.commit, fun h => hlater (by simp [h]),
    fun h => hlater (by simp [h])⟩

theorem BallotProtocol.Makes.current (h : bp.Makes slotIndex env) :
    ∀ b ∈ bp.mCurrentBallot, b.counter ≠ 0 :=
  ((checkInvariants_ok_iff bp).mp h.checked).current

/-- A ballot that is told by its counter. -/
theorem ballot_of_counter (o : Option SCPBallot) {v : Value} (hv : ∀ b ∈ o, b.value = v) :
    (if (o.map counter).getD 0 ≠ 0
      then some (⟨(o.map counter).getD 0, v⟩ : SCPBallot) else none) =
      o.filter fun b => b.counter ≠ 0 := by
  cases o with
  | none => rfl
  | some b =>
    obtain rfl := hv b rfl
    by_cases h : b.counter = 0 <;> simp [Option.filter, h]

/-- The ballots of a state in `PREPARE`, but for an `h` with counter zero. -/
theorem BallotProtocol.Makes.resumes_prepare (h : bp.Makes slotIndex env)
    (hphase : bp.mPhase = .prepare) {b : SCPBallot} (hb : bp.mCurrentBallot = some b) :
    bp.Resumes (fromPledges env.statement.pledges) env.statement := by
  have hpl := pledges_of_prepare hphase h.pledges
  have hhv : ∀ hb ∈ bp.mHighBallot, hb.value = b.value := by
    intro hb' hh
    obtain ⟨b', hb', -, hv⟩ := h.consistent.high _ hh
    obtain rfl := Option.mem_unique hb hb'
    exact hv
  have hcv : ∀ c ∈ bp.mCommit, c.value = b.value := by
    intro c hc
    obtain ⟨hb', hh, -, hv⟩ := h.consistent.commit c hc
    exact hv.trans (hhv hb' hh)
  have hcur : (fromPledges env.statement.pledges).mCurrentBallot = bp.mCurrentBallot := by
    rw [hpl, hb]
    simp only [fromPledges, prepareStatement, hb, Option.getD_some]
  have hhigh : (fromPledges env.statement.pledges).mHighBallot =
      bp.mHighBallot.filter fun hb => hb.counter ≠ 0 := by
    rw [hpl]
    simp only [fromPledges, prepareStatement, hb, Option.getD_some]
    exact ballot_of_counter _ hhv
  have hcommit : (fromPledges env.statement.pledges).mCommit = bp.mCommit := by
    rw [hpl]
    simp only [fromPledges, prepareStatement, hb, Option.getD_some]
    rw [ballot_of_counter _ hcv]
    cases hc : bp.mCommit with
    | none => rfl
    | some c => simp [Option.filter, h.counters c hc]
  have hprep : (fromPledges env.statement.pledges).mPrepared = bp.mPrepared := by rw [hpl]; rfl
  have hprime : (fromPledges env.statement.pledges).mPreparedPrime = bp.mPreparedPrime := by
    rw [hpl]; rfl
  have hph : (fromPledges env.statement.pledges).mPhase = .prepare := by rw [hpl]; rfl
  have hcons : (fromPledges env.statement.pledges).Consistent := by
    refine ⟨?_, ?_, ?_, ?_, fun hne => absurd hph hne⟩
    · rw [hprep, hprime]
      exact h.consistent.prepared
    · rw [hprep, hprime]
      exact h.consistent.prime
    · rw [hhigh, hcur]
      intro hb' hmem
      exact h.consistent.high hb' (Option.mem_filter_iff.mp hmem).1
    · rw [hcommit, hhigh]
      intro c hc
      obtain ⟨hb', hmem, hle, hv⟩ := h.consistent.commit c hc
      -- a ballot voted to commit has a counter, and so has `h` above it
      have hne : hb'.counter ≠ 0 := by
        intro h0
        have hcount := counter_le hle
        rw [h0] at hcount
        exact h.counters c hc (le_antisymm hcount (Fin.zero_le _))
      exact ⟨hb', Option.mem_filter_iff.mpr ⟨hmem, by simpa using hne⟩, hle, hv⟩
  refine ⟨⟨hph.trans hphase.symm, ?_, ?_, hcommit, ?_⟩, hcons, hcons.checkInvariants_ok ?_, ?_⟩
  · rw [if_neg (by simp [hphase]), hcur]
  · rw [if_neg (by simp [hphase]), hprep]
  · rw [hhigh]
    cases bp.mHighBallot <;> simp [Option.filter]
  · rw [hcur]
    exact h.current
  · rw [hph, ← h.pledges, hphase]
    simp only [BallotProtocol.pledges, hcur, hprep, hprime, hcommit, hhigh, SCPPhase.statementType]
    have hcount : ((bp.mHighBallot.filter fun hb => hb.counter ≠ 0).map counter).getD 0 =
        (bp.mHighBallot.map counter).getD 0 := by
      cases hh : bp.mHighBallot with
      | none => rfl
      | some hb' => by_cases h0 : hb'.counter = 0 <;> simp [Option.filter, h0]
    rw [hcount]

/-- Outside `PREPARE` all ballots are told, on the value of `c`. -/
theorem BallotProtocol.Makes.resumes_later (h : bp.Makes slotIndex env)
    (hphase : bp.mPhase ≠ .prepare) :
    bp.Resumes (fromPledges env.statement.pledges) env.statement := by
  obtain ⟨b, p, hb, c, hbe, hpe, hhe, hce, hch, hcv, hhb, hhv⟩ :=
    h.consistent.exists_of_later hphase
  have hhc : hb.counter ≠ 0 := by
    intro h0
    have hcount := counter_le hch
    rw [h0] at hcount
    exact h.counters c hce (le_antisymm hcount (Fin.zero_le _))
  have hpl := h.pledges
  cases hph : bp.mPhase with
  | prepare => exact absurd hph hphase
  | confirm =>
    obtain ⟨b', p', c', h', hbe', hpe', hce', hhe', hpl⟩ := pledges_of_confirm hph hpl
    obtain rfl := Option.mem_unique hbe hbe'
    obtain rfl := Option.mem_unique hpe hpe'
    obtain rfl := Option.mem_unique hhe hhe'
    obtain rfl := Option.mem_unique hce hce'
    have hc : (⟨c.counter, b.value⟩ : SCPBallot) = c := ext rfl (hhv.symm.trans hcv.symm)
    have hh : (⟨hb.counter, b.value⟩ : SCPBallot) = hb := ext rfl hhv.symm
    have hcons : (fromPledges env.statement.pledges).Consistent := by
      rw [hpl]
      simp only [fromPledges, hc, hh]
      refine ⟨?_, ?_, ?_, ?_, ?_⟩
      · simp [new]
      · simp
      · simpa using ⟨hhb, hhv⟩
      · simpa using ⟨hch, hcv⟩
      · simp
    refine ⟨⟨?_, ?_, ?_, ?_, ?_⟩, hcons, hcons.checkInvariants_ok ?_, ?_⟩
    · rw [hpl, hph]
      rfl
    · rw [hpl, hph, hbe]
      rfl
    · rw [hpl, hph, hpe]
      rfl
    · rw [hpl, hce]
      exact congrArg some hc
    · rw [hpl, hhe]
      simpa [fromPledges, hh] using hhc
    · rw [hpl]
      simpa [fromPledges] using h.current b hbe
    · rw [hpl]
      rfl
  | externalize =>
    obtain ⟨ht, -⟩ | ⟨ht, -⟩ | ⟨-, c', h', hce', hhe', hpl⟩ := pledges_cases hpl
    · rw [hph] at ht; cases ht
    · rw [hph] at ht; cases ht
    obtain rfl := Option.mem_unique hhe hhe'
    obtain rfl := Option.mem_unique hce hce'
    have hh : (⟨hb.counter, c.value⟩ : SCPBallot) = hb := ext rfl hcv
    have hcons : (fromPledges env.statement.pledges).Consistent := by
      rw [hpl]
      simp only [fromPledges, hh]
      refine ⟨?_, ?_, ?_, ?_, ?_⟩
      · simp [new]
      · simp
      · simp only [Option.mem_def, Option.some.injEq, forall_eq', exists_eq_left']
        refine ⟨(le_mk_iff hcv.symm).mpr ?_, hcv.symm⟩
        exact Fin.le_last _
      · simpa using ⟨hch, hcv⟩
      · simp
    refine ⟨⟨?_, ?_, ?_, ?_, ?_⟩, hcons, hcons.checkInvariants_ok ?_, ?_⟩
    · rw [hpl, hph]
      rfl
    · rw [hpl, hph, hbe, if_pos rfl, Option.map_some, ← hhv, ← hcv]
      rfl
    · rw [hpl, hph, hpe]
      rfl
    · rw [hpl, hce]
      rfl
    · rw [hpl, hhe]
      simpa [fromPledges, hh] using hhc
    · rw [hpl]
      simp [fromPledges, uint32Max]
    · rw [hpl]
      rfl

end

/-! ## The state in which an envelope was created -/

/-- `bp` is the state that `createStatement` checked right before `env` was signed. -/
def Slot.Created (s : Slot) (bp : BallotProtocol) (env : BallotEnvelope) : Prop :=
  [.signEnvelope (.ballot env), .checkInvariants bp] <:+: s.trace

/-- The envelope was signed, and peers accept it. -/
def Slot.Signed (s : Slot) (env : BallotEnvelope) : Prop :=
  .signEnvelope (.ballot env) ∈ s.trace ∧ arePledgesSane false env.statement.pledges = true

/-- Every envelope that was sent was created, in a state that makes its statement. -/
structure Slot.Accounted (s : Slot) : Prop where
  consistent : s.mBallotProtocol.Consistent
  counters : ∀ c ∈ s.mBallotProtocol.mCommit, c.counter ≠ 0
  makes : ∀ bp env, s.Created bp env → bp.Makes s.mSlotIndex env
  created : ∀ env, .signEnvelope (.ballot env) ∈ s.trace → ∃ bp, s.Created bp env
  queued : ∀ env ∈ s.mBallotProtocol.mLastEnvelope,
    s.mBallotProtocol.mLastEnvelopeEmit = some env ∨ s.Signed env
  sent : ∀ env ∈ s.emitted, s.Signed env

section
variable {scp : SCP} {s t : Slot} {bp : BallotProtocol} {env : BallotEnvelope}

theorem Slot.created_log {e : Event} (he : ∀ env, e ≠ .signEnvelope (.ballot env)) :
    (s.log e).Created bp env ↔ s.Created bp env := by
  unfold Slot.Created
  rw [log_trace, List.infix_cons_iff, List.cons_prefix_cons]
  constructor
  · rintro (⟨heq, -⟩ | h)
    · exact absurd heq.symm (he env)
    · exact h
  · exact .inr

theorem Slot.created_logAll {evs : List Event}
    (hevs : ∀ env, Event.signEnvelope (.ballot env) ∉ evs) :
    (s.logAll evs).Created bp env ↔ s.Created bp env := by
  induction evs with
  | nil => rfl
  | cons e evs ih =>
    simp only [List.mem_cons, not_or] at hevs
    rw [← ih fun env => (hevs env).2]
    exact created_log (s := s.logAll evs) fun env h => (hevs env).1 h.symm

theorem Slot.created_signed {env' : BallotEnvelope} :
    (s.signed env').Created bp env ↔
      (env = env' ∧ bp = s.mBallotProtocol) ∨ s.Created bp env := by
  have hcheck : (s.log (.checkInvariants s.mBallotProtocol)).Created bp env ↔ s.Created bp env :=
    created_log (by simp)
  rw [← hcheck]
  unfold Slot.Created signed
  rw [log_trace, List.infix_cons_iff, List.cons_prefix_cons, log_trace,
    List.cons_prefix_cons]
  simp

theorem Slot.Signed.of_suffix (h : s.Signed env) (hst : s.trace <:+ t.trace) : t.Signed env :=
  ⟨hst.subset h.1, h.2⟩

/-- A change that signs nothing. -/
theorem Slot.Accounted.of_log (hs : s.Accounted) (hbp : t.mBallotProtocol.Consistent)
    (hc : ∀ c ∈ t.mBallotProtocol.mCommit, c.counter ≠ 0) (hindex : t.mSlotIndex = s.mSlotIndex)
    (evs : List Event) (hevs : ∀ env, Event.signEnvelope (.ballot env) ∉ evs)
    (htrace : t.trace = (s.logAll evs).trace)
    (hqueued : ∀ env ∈ t.mBallotProtocol.mLastEnvelope,
      t.mBallotProtocol.mLastEnvelopeEmit = some env ∨ s.Signed env)
    (hsent : ∀ env ∈ t.emitted, s.Signed env) : t.Accounted := by
  have hcreated : ∀ bp env, t.Created bp env ↔ s.Created bp env := by
    intro bp env
    rw [← created_logAll (s := s) hevs, Slot.Created, htrace]
    rfl
  have hsuffix : s.trace <:+ t.trace := by
    rw [htrace]
    exact List.suffix_append _ _
  refine ⟨hbp, hc, ?_, ?_, fun env h => (hqueued env h).imp_right fun h => h.of_suffix hsuffix,
    fun env h => (hsent env h).of_suffix hsuffix⟩
  · intro bp env h
    rw [hindex]
    exact hs.makes bp env ((hcreated bp env).mp h)
  · intro env h
    rw [htrace] at h
    obtain ⟨bp, hbp⟩ := hs.created env ((List.mem_append.mp h).resolve_left (hevs env))
    exact ⟨bp, (hcreated bp env).mpr hbp⟩

/-- A change that creates and sends nothing. -/
theorem Slot.Accounted.congr (hs : s.Accounted) (hbp : t.mBallotProtocol.Consistent)
    (hc : ∀ c ∈ t.mBallotProtocol.mCommit, c.counter ≠ 0)
    (hlast : t.mBallotProtocol.mLastEnvelope = s.mBallotProtocol.mLastEnvelope)
    (hemit : t.mBallotProtocol.mLastEnvelopeEmit = s.mBallotProtocol.mLastEnvelopeEmit)
    (hindex : t.mSlotIndex = s.mSlotIndex) {evs : List Event}
    (hevs : ∀ e ∈ evs, e.isAudit = false) (htrace : t.trace = (s.logAll evs).trace) :
    t.Accounted := by
  have hemitted : t.emitted = s.emitted := by
    rw [← emitted_logAll (s := s) hevs, emitted, htrace]
    rfl
  refine hs.of_log hbp hc hindex _ (fun env h => ?_) htrace ?_ ?_
  · exact absurd (hevs _ h) (by simp [Event.isAudit])
  · rw [hlast, hemit]
    exact hs.queued
  · rw [hemitted]
    exact hs.sent

theorem Slot.Accounted.signed {pl : BallotPledges} (hs : s.Accounted) (hpl : Pledges scp s pl) :
    (s.signed (scp.ownEnvelope s pl)).Accounted := by
  have hsuffix : s.trace <:+ (s.signed (scp.ownEnvelope s pl)).trace :=
    (List.suffix_cons _ _).trans (List.suffix_cons _ _)
  refine ⟨hs.consistent, hs.counters, ?_, ?_, ?_, ?_⟩
  · intro bp env h
    rcases created_signed.mp h with ⟨rfl, rfl⟩ | h
    · have hhash : getCompanionQuorumSetHashFromStatement (scp.ownEnvelope s pl).statement =
          scp.mLocalNode.mQSetHash := by
        obtain ⟨-, rfl⟩ | ⟨-, b, p, c, hb, -, -, -, -, rfl⟩ | ⟨-, c, hb, -, -, rfl⟩ :=
          pledges_cases hpl.2 <;> rfl
      refine ⟨hs.consistent, hs.counters, hpl.1, ?_, rfl⟩
      rw [hhash]
      exact hpl.2
    · exact hs.makes bp env h
  · intro env h
    rcases List.mem_cons.mp h with h | h
    · cases h
      exact ⟨s.mBallotProtocol, created_signed.mpr (.inl ⟨rfl, rfl⟩)⟩
    · obtain ⟨bp, hbp⟩ := hs.created env (by simpa using h)
      exact ⟨bp, created_signed.mpr (.inr hbp)⟩
  · intro env h
    exact (hs.queued env h).imp_right fun h => h.of_suffix hsuffix
  · intro env h
    exact (hs.sent env h).of_suffix hsuffix

theorem Bookkeep.accounted (h : Bookkeep scp s t) (hs : s.Accounted) : t.Accounted := by
  have hsame := h.sameBallots
  have hbp := hsame.consistent hs.consistent
  have hc : ∀ c ∈ t.mBallotProtocol.mCommit, c.counter ≠ 0 := by
    rw [hsame.commit]
    exact hs.counters
  cases h with
  | notify e he =>
    have hevs : ∀ e' ∈ [e], e'.isAudit = false := by simpa using he
    exact hs.congr hbp hc rfl rfl rfl hevs rfl
  | check =>
    exact hs.of_log hbp hc rfl [.checkInvariants s.mBallotProtocol] (by simp) rfl hs.queued hs.sent
  | queue env hsane hnewer hsigned =>
    refine ⟨hbp, hc, hs.makes, hs.created, ?_, hs.sent⟩
    intro env' h
    cases h
    simp only [isStatementSane, Bool.and_eq_true] at hsane
    exact .inr ⟨hsigned, hsane.2⟩
  | send last hlast hnew =>
    refine hs.of_log hbp hc rfl [.emitEnvelope (.ballot last)] (by simp) rfl ?_ ?_
    · exact fun env h => .inl (Option.mem_unique hlast h ▸ rfl)
    · intro env h
      rcases List.mem_cons.mp h with rfl | h
      · exact (hs.queued env hlast).resolve_left hnew
      · exact hs.sent env h
  | heard | level | unvalidated | gotVBlocking | stopNomination | remember =>
    exact hs.congr hbp hc rfl rfl rfl (List.forall_mem_nil _) rfl

/-- What is voted to commit has a counter. -/
theorem Enabled.mCommit_counter {m : Move} (h : Enabled scp bp m) (hbp : bp.Consistent)
    (hc : ∀ c ∈ bp.mCommit, c.counter ≠ 0) : ∀ c ∈ (m.apply bp).mCommit, c.counter ≠ 0 := by
  cases h with
  | @acceptPrepared ballot hphase hacc hclear =>
    exact fun c hmem => hc c (mem_mCommit_of_acceptPrepared hmem)
  | @confirmPrepared newC newH hphase hp hhigh hrat hvote =>
    rw [Move.apply]
    obtain ⟨-, -, hc', -⟩ | ⟨b, -, -, -, -, -, hc'⟩ | ⟨b, -, -, -, -, -, hc'⟩ :=
      hbp.confirmPrepared_cases newC hhigh
    · rw [hc']
      split_ifs with hne
      · simpa using hne
      · exact hc
    · rw [hc']
      simp
    · rwa [hc']
  | acceptCommit hval hpos | confirmCommit hval hpos => simpa [Move.apply] using hpos
  | bump hcan hpos => exact fun c hmem => hc c (mem_mCommit_of_bumpedTo hmem)

theorem BallotStep.accounted (h : BallotStep scp s t) (hs : s.Accounted) : t.Accounted := by
  cases h with
  | keep h => exact h.accounted hs
  | sign hpl => exact hs.signed hpl
  | record hpl hadm =>
    have hsigned := hs.signed hpl
    exact hsigned.congr (hsigned.consistent.record _) hsigned.counters rfl rfl rfl
      (List.forall_mem_nil _) rfl
  | @move _ m hen hm =>
    obtain ⟨hlast, hsent⟩ := m.apply_envelopes s.mBallotProtocol
    obtain ⟨evs, hevs, rfl⟩ := hm
    exact hs.congr (hen.consistent hs.consistent) (hen.mCommit_counter hs.consistent hs.counters)
      hlast hsent rfl hevs rfl

theorem BallotCall.Begins.accounted (hs : s.Accounted) {call : BallotCall} {s₀ : Slot}
    (h : call.Begins scp s s₀) : s₀.Accounted := by
  refine h.elim hs (fun env _ _ => ?_) fun _ _ => ?_
  · exact hs.congr (hs.consistent.record env) hs.counters rfl rfl rfl (List.forall_mem_nil _) rfl
  · exact hs.congr hs.consistent hs.counters rfl rfl rfl (List.forall_mem_nil _) rfl

theorem Slot.Accounted.after_call (hs : s.Accounted) (scp : SCP) (call : BallotCall) :
    After (call.run scp) s (fun _ t => t.Accounted ∧ t.mSlotIndex = s.mSlotIndex)
      fun _ t => t.Accounted ∧ t.mSlotIndex = s.mSlotIndex := by
  have hreach : ∀ t, Reached scp (call.Begins scp s) t →
      t.Accounted ∧ t.mSlotIndex = s.mSlotIndex := by
    intro t h
    refine ⟨?_, h.mSlotIndex⟩
    obtain ⟨s₀, hs₀, -, hsteps⟩ := h
    exact keeps_of_steps (fun _ _ hst hu => hst.accounted hu) hsteps (hs₀.accounted hs)
  exact (call.steps hs.consistent).mono (fun _ t ht => hreach t ht) fun _ t ht => hreach t ht.2

end

/-! ## Runs with restarts -/

/-- The slots of a node that may crash within any call and start again from an
envelope it has sent. -/
inductive Lives (slotIndex : Uint64) : Slot → Prop
  | new (scp : SCP) : Lives slotIndex (new slotIndex scp)
  | call {s t : Slot} (hs : Lives slotIndex s) (scp : SCP) (call : BallotCall)
      (ht : call.run scp s = .ok () t) : Lives slotIndex t
  | restart {s t r : Slot} (hs : Lives slotIndex s) (scp : SCP) (call : BallotCall)
      (ht : Ends (call.run scp) s t) {e : BallotEnvelope} (he : e ∈ t.emitted) (scp' : SCP)
      (hr : slotSetStateFromEnvelope scp' e (new slotIndex scp') = .ok () r) :
      Lives slotIndex r

section
variable {scp : SCP} {s t r : Slot} {bp : BallotProtocol} {e : BallotEnvelope}
  {slotIndex : Uint64}

theorem Slot.accounted_new (scp : SCP) (slotIndex : Uint64) :
    (new slotIndex scp).Accounted := by
  refine ⟨new_consistent, ?_, ?_, ?_, ?_, ?_⟩
  · simp [new, BallotProtocol.new]
  · intro bp env h
    simp [Slot.Created, new] at h
  · simp [new]
  · simp [new, BallotProtocol.new]
  · simp [new, emitted]

/-- What was sent can be started from. -/
theorem Slot.Accounted.resumes (ht : t.Accounted) (he : e ∈ t.emitted) (hbp : t.Created bp e) :
    bp.Resumes (.fromPledges e.statement.pledges) e.statement := by
  have hmakes := ht.makes bp e hbp
  by_cases hphase : bp.mPhase = .prepare
  · have hsane := (ht.sent e he).2
    rw [pledges_of_prepare hphase hmakes.pledges, arePledgesSane_prepare_iff] at hsane
    have hpos : 0 < (bp.mCurrentBallot.getD default).counter :=
      hsane.1.resolve_left (by simp)
    cases hb : bp.mCurrentBallot with
    | none =>
      rw [hb] at hpos
      exact absurd hpos (lt_irrefl _)
    | some b => exact hmakes.resumes_prepare hphase hb
  · exact hmakes.resumes_later hphase

theorem Slot.Restored.accounted (hr : r.Restored e)
    (hres : bp.Resumes r.mBallotProtocol e.statement) (hc : ∀ c ∈ bp.mCommit, c.counter ≠ 0) :
    r.Accounted := by
  have hno : ∀ ev ∈ r.trace, ev.isAudit = true → False := by
    intro ev hev haudit
    rw [hr.quiet ev hev] at haudit
    cases haudit
  refine ⟨hres.consistent, ?_, ?_, ?_, ?_, ?_⟩
  · rwa [hres.commit]
  · intro bp env h
    exact (hno (.checkInvariants bp) (h.subset (by simp)) rfl).elim
  · intro env h
    exact (hno _ h rfl).elim
  · intro env h
    rw [hr.last] at h
    exact .inl (hr.sent.trans h)
  · intro env h
    obtain ⟨ev, hev, heq⟩ := List.mem_filterMap.mp h
    refine (hno ev hev ?_).elim
    split at heq
    · rfl
    · cases heq

theorem Lives.accounted (h : Lives slotIndex s) : s.Accounted ∧ s.mSlotIndex = slotIndex := by
  induction h with
  | new scp => exact ⟨accounted_new scp slotIndex, rfl⟩
  | call hs scp call ht ih =>
    obtain ⟨hacc, hindex⟩ := (ih.1.after_call scp call).of_ok ht
    exact ⟨hacc, hindex.trans ih.2⟩
  | @restart s t r hs scp call ht e he scp' hr ih =>
    obtain ⟨hacc, hindex⟩ := After.of_ends (ih.1.after_call scp call) (fun _ _ h => h) ht
    obtain ⟨bp, hbp⟩ := hacc.created e (hacc.sent e he).1
    have hmakes := hacc.makes bp e hbp
    have hslot : e.statement.slotIndex = slotIndex := hmakes.index.trans (hindex.trans ih.2)
    subst hslot
    by_cases hid : e.statement.nodeID = scp'.mLocalNode.mNodeID
    · have hafter : After (slotSetStateFromEnvelope scp' e)
          (Slot.new e.statement.slotIndex scp')
          (fun _ r => r.Accounted ∧ r.mSlotIndex = e.statement.slotIndex) fun _ _ => True := by
        refine after_slotSetStateFromEnvelope hid fun r hr => ?_
        have hres := (hacc.resumes he hbp).congr hr.votes
        exact ⟨hr.accounted hres hmakes.counters, hr.index⟩
      exact hafter.of_ok hr
    · have hstay : slotSetStateFromEnvelope scp' e (Slot.new e.statement.slotIndex scp') =
          .ok () (Slot.new e.statement.slotIndex scp') := by
        change (when (e.statement.nodeID = scp'.mLocalNode.mNodeID ∧ _) _ : SlotM Unit) _ = _
        rw [when, if_neg fun h => hid h.1]
        rfl
      rw [hstay] at hr
      cases hr
      exact ⟨accounted_new _ _, rfl⟩

end

/-! ## What a restarted node bumps to -/

/-- The slots that calls lead through from `r`. -/
inductive Follows (r : Slot) : Slot → Prop
  | refl : Follows r r
  | call {u w : Slot} (hu : Follows r u) (scp : SCP) (call : BallotCall)
      (hw : call.Begins scp u w) : Follows r w
  | step {u w : Slot} (hu : Follows r u) {scp : SCP} (hw : BallotStep scp u w) : Follows r w

/-- Outside `PREPARE`, committed to a value. -/
structure BallotProtocol.Pinned (bp : BallotProtocol) (v : Value) : Prop where
  consistent : bp.Consistent
  phase : bp.mPhase ≠ .prepare
  commit : ∀ c ∈ bp.mCommit, c.value = v

section
variable {scp : SCP} {bp : BallotProtocol} {v : Value} {r u w : Slot}

theorem BallotProtocol.Pinned.high (h : bp.Pinned v) : ∀ hb ∈ bp.mHighBallot, hb.value = v := by
  intro hb hh
  obtain ⟨b, p, hb', c, -, -, hh', hc, -, hcv, -⟩ := h.consistent.exists_of_later h.phase
  obtain rfl := Option.mem_unique hh hh'
  rw [← hcv]
  exact h.commit c hc

theorem BallotProtocol.Pinned.bump (h : bp.Pinned v) {ballot : SCPBallot}
    (hcan : bp.CanBumpTo ballot) : ballot.value = v := by
  obtain ⟨b, p, hb, c, hbe, -, -, hce, -⟩ := h.consistent.exists_of_later h.phase
  rw [← hcan.2.2 b hbe c hce]
  exact h.commit c hce

theorem BallotProtocol.Pinned.move (h : bp.Pinned v) {m : Move} (hen : Enabled scp bp m) :
    (m.apply bp).Pinned v := by
  refine ⟨hen.consistent h.consistent, ?_, ?_⟩
  · have hne := hen.mPhase_ne
    cases hen with
    | acceptPrepared => simpa [Move.apply] using h.phase
    | confirmPrepared hphase => exact absurd hphase h.phase
    | acceptCommit => simp [Move.apply, acceptCommit_mPhase _ _ hne]
    | confirmCommit => simp [Move.apply]
    | bump => exact h.phase
  · cases hen with
    | acceptPrepared => exact fun c hc => h.commit c (mem_mCommit_of_acceptPrepared hc)
    | confirmPrepared hphase => exact absurd hphase h.phase
    | acceptCommit hval hpos hle hp hphase =>
      obtain ⟨-, h₀, hh₀, hv, -⟩ := hphase.resolve_left h.phase
      simp only [Move.apply, acceptCommit_mCommit, Option.mem_def,
        Option.some.injEq, forall_eq']
      rw [hval, ← hv]
      exact h.high h₀ hh₀
    | confirmCommit hval hpos hle hphase hc₀ hsame =>
      simp only [Move.apply, confirmCommit_mCommit, Option.mem_def,
        Option.some.injEq, forall_eq']
      rw [← hsame]
      exact h.commit _ hc₀
    | bump => exact fun c hc => h.commit c (mem_mCommit_of_bumpedTo hc)

theorem BallotProtocol.SameVotes.pinned {bp' : BallotProtocol} (h : bp.SameVotes bp')
    (hbp : bp.Pinned v) : bp'.Pinned v := by
  refine ⟨h.consistent hbp.consistent, ?_, ?_⟩
  · rw [h.phase]
    exact hbp.phase
  · rw [h.commit]
    exact hbp.commit

theorem BallotStep.pinned (h : BallotStep scp u w) (hu : u.mBallotProtocol.Pinned v) :
    w.mBallotProtocol.Pinned v := by
  cases h with
  | keep h => exact h.sameBallots.toSameVotes.pinned hu
  | sign hpl => exact hu
  | record hpl hadm => exact ⟨hu.consistent.record _, hu.phase, hu.commit⟩
  | move hen hm => rw [hm.mBallotProtocol]; exact hu.move hen

/-- Outside `PREPARE` a node never leaves its value. -/
theorem Follows.pinned (h : Follows r u) (hr : r.mBallotProtocol.Pinned v) :
    u.mBallotProtocol.Pinned v := by
  induction h with
  | refl => exact hr
  | step hu hw ih => exact hw.pinned ih
  | call hu scp call hw ih =>
    exact hw.elim (P := fun w => w.mBallotProtocol.Pinned v) ih
      (fun _ _ _ => ⟨ih.consistent.record _, ih.phase, ih.commit⟩) fun _ _ => ih

end

/-- From `r` on, as long as nothing new is confirmed prepared, the node bumps to the
value the node in state `bp` would have bumped to, which is that of its `h`. -/
def Slot.BumpsAs (r : Slot) (bp : BallotProtocol) : Prop :=
  ∀ u, Follows r u → (bp.mPhase = .prepare → u.mBallotProtocol.mValueOverride = none) →
    ∀ value n, u.mBallotProtocol.CanBumpTo (u.mBallotProtocol.bumpTarget value n) →
      (∀ h ∈ bp.mHighBallot, (u.mBallotProtocol.bumpTarget value n).value = h.value) ∧
      ∀ m, bp.CanBumpTo (bp.bumpTarget value m) →
        (bp.bumpTarget value m).value = (u.mBallotProtocol.bumpTarget value n).value

/-- The slot `r` takes up what the state `bp` said in `env`. -/
structure Slot.TakesUp (r : Slot) (scp : SCP) (bp : BallotProtocol) (env : BallotEnvelope) :
    Prop where
  checked : r.mBallotProtocol.checkInvariants = .ok ()
  recovers : bp.Recovers r.mBallotProtocol
  statement : After (createStatement scp bp.mPhase.statementType) r
    (fun st _ => (scp.signedEnvelope r.mSlotIndex st).statement = env.statement) fun _ _ => False
  bumps : bp.mPhase ≠ .prepare ∨ bp.mHighBallot = none ∧ bp.mValueOverride = none →
    r.BumpsAs bp

/-- Whatever was sent can be started from. -/
def Slot.Recoverable (t : Slot) (slotIndex : Uint64) : Prop :=
  ∀ env ∈ t.emitted, (∃ bp, t.Created bp env) ∧ ∀ bp, t.Created bp env →
    ∀ scp : SCP, scp.mLocalNode.mNodeID = env.statement.nodeID →
      scp.mLocalNode.mQSetHash = getCompanionQuorumSetHashFromStatement env.statement →
      After (slotSetStateFromEnvelope scp env) (new slotIndex scp)
        (fun _ r => r.TakesUp scp bp env) fun _ _ => False

section
variable {scp : SCP} {bp : BallotProtocol} {r t s : Slot} {env : BallotEnvelope}
  {slotIndex : Uint64}

theorem BallotProtocol.Resumes.bumpsAs {st : BallotStatement}
    (hres : bp.Resumes r.mBallotProtocol st) (hbp : bp.Consistent)
    (hwhen : bp.mPhase ≠ .prepare ∨ bp.mHighBallot = none ∧ bp.mValueOverride = none) :
    r.BumpsAs bp := by
  intro u hu hnew value n hcan
  by_cases hphase : bp.mPhase = .prepare
  · obtain ⟨hh, hover⟩ := hwhen.resolve_left (not_not.mpr hphase)
    refine ⟨by simp [hh], fun m _ => ?_⟩
    simp only [BallotProtocol.bumpTarget, hover, hnew hphase]
  · obtain ⟨b, p, hb, c, -, -, -, hc, -⟩ := hbp.exists_of_later hphase
    have hpin : bp.Pinned c.value := by
      refine ⟨hbp, hphase, ?_⟩
      intro c' hc'
      rw [Option.some.inj (hc.symm.trans hc')]
    have hpin' : r.mBallotProtocol.Pinned c.value := by
      refine ⟨hres.consistent, ?_, ?_⟩
      · rwa [hres.phase]
      · rw [hres.commit]
        exact hpin.commit
    have htarget := (hu.pinned hpin').bump hcan
    refine ⟨fun h hh => htarget.trans (hpin.high h hh).symm, fun m hm => ?_⟩
    rw [htarget]
    exact hpin.bump hm

theorem Slot.Accounted.recoverable (ht : t.Accounted) : t.Recoverable t.mSlotIndex := by
  intro env henv
  refine ⟨ht.created env (ht.sent env henv).1, ?_⟩
  intro bp hbp scp hid hhash
  have hmakes := ht.makes bp env hbp
  rw [← hmakes.index]
  refine after_slotSetStateFromEnvelope hid.symm fun r hr => ?_
  have hres := (ht.resumes henv hbp).congr hr.votes
  refine ⟨hres.checked, hres.toRecovers, ?_, hres.bumpsAs hmakes.consistent⟩
  rw [createStatement, after_bind, after_checkInvariants]
  refine ⟨fun _ => ?_, fun e he => ?_⟩
  · rw [after_bind, after_ballotProtocol, after_bind, hhash, ← hres.phase]
    change After (ofExcept (r.mBallotProtocol.pledges _ _)) _ _ _
    rw [hres.pledges, after_ofExcept_ok, after_pure]
    change (⟨scp.mLocalNode.mNodeID, r.mSlotIndex, env.statement.pledges⟩ : BallotStatement) = _
    rw [hid, hr.index]
  · rw [hres.checked] at he
    cases he

/-- In every run, also one with restarts, a node can be started from any envelope it
has sent; it is then as it was when it made the envelope, except that an `h` with
counter zero is forgotten, and keeps to its value unless it was in `PREPARE` with an
`h` or a value to keep to. -/
theorem recovers_from_envelope (hs : Lives slotIndex s) (scp : SCP) (call : BallotCall) :
    After (call.run scp) s (fun _ t => t.Recoverable slotIndex)
      fun _ t => t.Recoverable slotIndex := by
  obtain ⟨hacc, hindex⟩ := hs.accounted
  have hrec : ∀ t : Slot, t.Accounted ∧ t.mSlotIndex = s.mSlotIndex → t.Recoverable slotIndex := by
    rintro t ⟨ht, ht'⟩
    rw [← hindex, ← ht']
    exact ht.recoverable
  exact (hacc.after_call scp call).mono (fun _ => hrec) fun _ => hrec

end

/-- The node that trusts itself sends what it externalizes. -/
theorem recovers_from_envelope_solo :
    ((finalState (BallotCall.run solo (.bumpState [1] true)) (new 1 solo)).emitted.map
      fun e => e.statement.pledges.type) = [.externalize] ∧
    After (BallotCall.run solo (.bumpState [1] true)) (new 1 solo)
      (fun _ t => t.Recoverable 1) fun _ t => t.Recoverable 1 := by
  have hs : Lives 1 (new 1 solo) := .new solo
  refine ⟨by decide +kernel, ?_⟩
  generalize BallotCall.bumpState [1] true = call
  exact recovers_from_envelope hs solo call

/-- A node that trusts another one. -/
def follower : SCP := plainNode (fun _ => .mk 1 [1] []) 0

/-- The other one has prepared its value. -/
def leaderPrepared : BallotEnvelope :=
  ⟨⟨1, 1, .prepare ⟨1, ⟨1, [1]⟩, some ⟨1, [1]⟩, none, 0, 0⟩⟩, []⟩

/-- The follower proposes a value of its own, -/
def followerStarted : Slot :=
  finalState (BallotCall.run follower (.bumpState [2] true)) (new 1 follower)

/-- sees the value of the leader confirmed prepared -/
def followerHeard : Slot :=
  finalState (BallotCall.run follower (.receiveEnvelope leaderPrepared)) followerStarted

/-- and, on a timeout, moves on to it. -/
def followed : Slot :=
  finalState (BallotCall.run follower (.bumpState [2] true)) followerHeard

/-- The last statement of the follower. -/
def followerPrepare : BallotEnvelope :=
  ⟨⟨0, 1, .prepare ⟨0, ⟨2, [1]⟩, some ⟨1, [1]⟩, none, 0, 1⟩⟩, []⟩

/-- The follower started again from it. -/
def followerRestarted : Slot :=
  finalState (slotSetStateFromEnvelope follower followerPrepare) (new 1 follower)

theorem followed_lives : Lives 1 followed := by
  have hnew : Lives 1 (new 1 follower) := .new follower
  have hstart : failure (BallotCall.run follower (.bumpState [2] true)) (new 1 follower) =
      none := by decide +kernel
  have hhear : failure (BallotCall.run follower (.receiveEnvelope leaderPrepared))
      followerStarted = none := by decide +kernel
  have hmove : failure (BallotCall.run follower (.bumpState [2] true)) followerHeard = none := by
    decide +kernel
  have hstarted : Lives 1 followerStarted := .call hnew follower _ (eq_ok_of_failure hstart)
  have hheard : Lives 1 followerHeard := .call hstarted follower _ (eq_ok_of_failure hhear)
  exact .call hheard follower _ (eq_ok_of_failure hmove)

/-- With `h` set, the next bump of the follower keeps its value; after a restart from
the statement the same bump leaves it. -/
theorem restart_forgets_value :
    Lives 1 followed ∧ followed.emitted.head? = some followerPrepare ∧
    followed.mBallotProtocol.pledges follower.mLocalNode.mQSetHash .prepare =
      .ok followerPrepare.statement.pledges ∧
    followed.mBallotProtocol.mHighBallot = some ⟨1, [1]⟩ ∧
    slotSetStateFromEnvelope follower followerPrepare (new 1 follower) =
      .ok () followerRestarted ∧
    followerRestarted.mBallotProtocol.mHighBallot = some ⟨1, [1]⟩ ∧
    (finalState (BallotCall.run follower (.bumpState [2] true)) followed).mBallotProtocol.mCurrentBallot =
      some ⟨3, [1]⟩ ∧
    (finalState (BallotCall.run follower (.bumpState [2] true))
      followerRestarted).mBallotProtocol.mCurrentBallot = some ⟨3, [2]⟩ := by
  refine ⟨followed_lives, by decide +kernel, ?_, by decide +kernel,
    eq_ok_of_failure (by decide +kernel), by decide +kernel, by decide +kernel, by decide +kernel⟩
  refine congrArg Except.ok ?_
  decide +kernel

end DigitalBits.Scp
