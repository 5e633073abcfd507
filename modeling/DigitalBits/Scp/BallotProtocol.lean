import DigitalBits.Scp.SlotState

/-!
# The ballot protocol

`BallotProtocol.cpp` as computations on a slot. A statement the node makes is
fed back to itself, so the functions below call each other through
`advanceSlot`; they take it as the parameter `advance` and the recursion is tied
at the end, where the message level bounds it.
-/
namespace DigitalBits.Scp
open Lib LocalNode

/-- An `if` without an `else`. -/
def when (c : Prop) [Decidable c] (m : SlotM Unit) : SlotM Unit := if c then m else pure ()

@[simp] theorem after_when (c : Prop) [Decidable c] (m : SlotM Unit) (s : Slot)
    (Q : Unit → Slot → Prop) (E : Failure → Slot → Prop) :
    After (when c m) s Q E ↔ (c → After m s Q E) ∧ (¬ c → Q () s) := by
  simp [when]

theorem after_when_of {c : Prop} [Decidable c] (hc : c) (m : SlotM Unit) (s : Slot)
    (Q : Unit → Slot → Prop) (E : Failure → Slot → Prop) :
    After (when c m) s Q E ↔ After m s Q E := by
  simp [hc]

theorem after_when_of_not {c : Prop} [Decidable c] (hc : ¬ c) (m : SlotM Unit) (s : Slot)
    (Q : Unit → Slot → Prop) (E : Failure → Slot → Prop) :
    After (when c m) s Q E ↔ Q () s := by
  simp [hc]

namespace BallotProtocol

variable (bp : BallotProtocol)

/-- `p` and `p'` are the two highest prepared and incompatible ballots. -/
def setPrepared (ballot : SCPBallot) : BallotProtocol × Bool :=
  match bp.mPrepared with
  | none => ({ bp with mPrepared := some ballot }, true)
  | some p =>
    match compareBallots p ballot with
    | .lt =>
      if areBallotsCompatible p ballot then ({ bp with mPrepared := some ballot }, true)
      else ({ bp with mPrepared := some ballot, mPreparedPrime := some p }, true)
    | .gt =>
      match bp.mPreparedPrime with
      | none => ({ bp with mPreparedPrime := some ballot }, true)
      | some p' =>
        if compareBallots p' ballot = .lt ∧ ¬ areBallotsCompatible p ballot then
          ({ bp with mPreparedPrime := some ballot }, true)
        else (bp, false)
    | .eq => (bp, false)

/-- Does `p` or `p'` contradict the votes to commit: is `c` to be cleared. -/
def contradictsCommit : Bool :=
  bp.mCommit.isSome && bp.mHighBallot.any fun h =>
    bp.mPrepared.any (areBallotsLessAndIncompatible h) ||
    bp.mPreparedPrime.any (areBallotsLessAndIncompatible h)

/-- The assignments of `bumpToBallot`. -/
def bumpedTo (ballot : SCPBallot) : BallotProtocol :=
  let gotBumped := bp.mCurrentBallot.all fun b => decide (b.counter ≠ ballot.counter)
  -- invariants: h.value = b.value, and c is set only when h is set
  let incompatible := bp.mHighBallot.any fun h => !areBallotsCompatible ballot h
  { bp with
    mCurrentBallot := some ballot
    mHighBallot := if incompatible then none else bp.mHighBallot
    mCommit := if incompatible then none else bp.mCommit
    mHeardFromQuorum := if gotBumped then false else bp.mHeardFromQuorum }

/-- Is the node on a ballot on which it can set `h` to `newH`. -/
def isOnCompatibleBallot (newH : SCPBallot) : Bool :=
  bp.mCurrentBallot.all fun b => areBallotsCompatible b newH

/-- Does `setConfirmPrepared` set `h`. -/
def raisesH (newH : SCPBallot) : Bool :=
  bp.isOnCompatibleBallot newH && bp.mHighBallot.all fun h => compareBallots newH h = .gt

/-- Does `setConfirmPrepared` set `c`. -/
def votesCommit (newC newH : SCPBallot) : Bool :=
  bp.isOnCompatibleBallot newH && decide (newC.counter ≠ 0)

/-- The assignments of `setConfirmPrepared`. -/
def withConfirmed (newC newH : SCPBallot) : BallotProtocol :=
  { bp with
    mValueOverride := some newH.value
    mHighBallot := if bp.raisesH newH then some newH else bp.mHighBallot
    mCommit := if bp.votesCommit newC newH then some newC else bp.mCommit }

/-- The assignments of `setAcceptCommit`. They keep `c` and `h` when these are the
same already. -/
def withAccepted (c h : SCPBallot) : BallotProtocol :=
  { bp with mValueOverride := some h.value, mCommit := some c, mHighBallot := some h }

/-- The assignments of `setConfirmCommit`. -/
def withCommitted (c h : SCPBallot) : BallotProtocol :=
  { bp with mCommit := some c, mHighBallot := some h }

def withPhase (phase : SCPPhase) : BallotProtocol :=
  { bp with mPhase := phase }

def withoutPrime : BallotProtocol := { bp with mPreparedPrime := none }

def withOverride (v : Value) : BallotProtocol :=
  { bp with mValueOverride := some v }

def withLevel (level : ℕ) : BallotProtocol :=
  { bp with mCurrentMessageLevel := level }

def withHeard (heard : Bool) : BallotProtocol :=
  { bp with mHeardFromQuorum := heard }

def withLastEnvelope (env : BallotEnvelope) : BallotProtocol :=
  { bp with mLastEnvelope := some env }

def withLastEnvelopeEmit (env : BallotEnvelope) : BallotProtocol :=
  { bp with mLastEnvelopeEmit := some env }

/-- The statements after `recordEnvelope`. -/
def record (env : BallotEnvelope) : BallotProtocol :=
  { bp with mLatestEnvelopes := bp.mLatestEnvelopes.insert env.statement.nodeID env }

/-- One assertion of `checkInvariants`. -/
def require (c : Prop) [Decidable c] (a : Assertion) : Except Failure Unit :=
  if c then .ok () else .error (.assertion a)

/-- The assertions of `checkInvariants` on a ballot that is voted to commit. -/
def checkCommit : Except Failure Unit :=
  match bp.mCommit, bp.mCurrentBallot, bp.mHighBallot with
  | none, _, _ => .ok ()
  | some _, none, _ => .error (.assertion .commit)
  | some _, some _, none => .error .nullDereference
  | some c, some b, some h =>
    require (areBallotsLessAndCompatible c h ∧ areBallotsLessAndCompatible h b) .commit

/-- `BallotProtocol::checkInvariants`. -/
def checkInvariants : Except Failure Unit := do
  require (∀ b ∈ bp.mCurrentBallot, b.counter ≠ 0) .currentCounterZero
  require (∀ p ∈ bp.mPrepared, ∀ p' ∈ bp.mPreparedPrime,
    areBallotsLessAndIncompatible p' p) .preparedOrder
  require (∀ h ∈ bp.mHighBallot, ∃ b ∈ bp.mCurrentBallot,
    areBallotsLessAndCompatible h b) .highBallot
  bp.checkCommit
  require (bp.mPhase = .confirm → bp.mCommit.isSome) .confirmWithoutCommit
  require (bp.mPhase = .externalize → bp.mCommit.isSome ∧ bp.mHighBallot.isSome)
    .externalizeWithoutCommit

/-- What `checkInvariants` asserts. -/
structure InvariantsHold (bp : BallotProtocol) : Prop where
  current : ∀ b ∈ bp.mCurrentBallot, b.counter ≠ 0
  prepared : ∀ p ∈ bp.mPrepared, ∀ p' ∈ bp.mPreparedPrime, p' < p ∧ p'.value ≠ p.value
  high : ∀ h ∈ bp.mHighBallot, ∃ b ∈ bp.mCurrentBallot, h ≤ b ∧ h.value = b.value
  commit : ∀ c ∈ bp.mCommit, ∃ h ∈ bp.mHighBallot, c ≤ h ∧ c.value = h.value
  confirm : bp.mPhase = .confirm → bp.mCommit.isSome
  externalize : bp.mPhase = .externalize → bp.mCommit.isSome

theorem require_ok_iff {c : Prop} [Decidable c] {a : Assertion} :
    require c a = .ok () ↔ c := by
  unfold require
  split_ifs with h <;> simp [h]

theorem bind_ok_iff {x : Except Failure Unit} {f : Unit → Except Failure Unit} :
    (x >>= f) = .ok () ↔ x = .ok () ∧ f () = .ok () := by
  cases x <;> simp [bind, Except.bind]

theorem lt_and_ne_iff {b c : SCPBallot} : b ≤ c ∧ b.value ≠ c.value ↔ b < c ∧ b.value ≠ c.value := by
  constructor
  · rintro ⟨hle, hne⟩
    exact ⟨lt_of_le_of_ne hle fun h => hne (by rw [h]), hne⟩
  · rintro ⟨hlt, hne⟩
    exact ⟨hlt.le, hne⟩

theorem checkCommit_ok_iff :
    bp.checkCommit = .ok () ↔ ∀ c ∈ bp.mCommit, ∃ h ∈ bp.mHighBallot, (c ≤ h ∧ c.value = h.value) ∧
      ∃ b ∈ bp.mCurrentBallot, h ≤ b ∧ h.value = b.value := by
  unfold checkCommit
  cases bp.mCommit <;> cases bp.mCurrentBallot <;> cases bp.mHighBallot <;>
    simp [require_ok_iff]

theorem checkInvariants_ok_iff : bp.checkInvariants = .ok () ↔ bp.InvariantsHold := by
  simp only [checkInvariants, bind_ok_iff, require_ok_iff, checkCommit_ok_iff,
    areBallotsLessAndIncompatible_iff, areBallotsLessAndCompatible_iff, lt_and_ne_iff]
  constructor
  · rintro ⟨hb, hp, hh, hc, hconf, hext⟩
    refine ⟨hb, hp, hh, ?_, hconf, fun h => (hext h).1⟩
    intro c hmem
    obtain ⟨h, hhm, hle, -⟩ := hc c hmem
    exact ⟨h, hhm, hle⟩
  · rintro ⟨hb, hp, hh, hc, hconf, hext⟩
    refine ⟨hb, hp, hh, ?_, hconf, ?_⟩
    · intro c hmem
      obtain ⟨h, hhm, hle⟩ := hc c hmem
      exact ⟨h, hhm, hle, hh h hhm⟩
    · intro hphase
      obtain ⟨c, hce⟩ := Option.isSome_iff_exists.mp (hext hphase)
      obtain ⟨h, hhm, -⟩ := hc c hce
      exact ⟨hext hphase, by rw [hhm]; rfl⟩

theorem require_error {c : Prop} [Decidable c] {a : Assertion} {e : Failure}
    (h : require c a = .error e) : e = .assertion a := by
  unfold require at h
  split_ifs at h
  cases h
  rfl

theorem bind_error {x : Except Failure Unit} {f : Unit → Except Failure Unit} {e : Failure}
    (h : (x >>= f) = .error e) : x = .error e ∨ f () = .error e := by
  cases x with
  | error e' => exact .inl h
  | ok u => exact .inr h

/-- A failed check is one of its assertions. -/
theorem checkInvariants_error {bp : BallotProtocol} {e : Failure}
    (h : bp.checkInvariants = .error e) :
    e ∈ [.nullDereference, .assertion .currentCounterZero, .assertion .preparedOrder,
      .assertion .highBallot, .assertion .commit, .assertion .confirmWithoutCommit,
      .assertion .externalizeWithoutCommit] := by
  rcases bind_error h with h | h
  · simp [require_error h]
  rcases bind_error h with h | h
  · simp [require_error h]
  rcases bind_error h with h | h
  · simp [require_error h]
  rcases bind_error h with h | h
  · unfold checkCommit at h
    split at h
    · cases h
    · cases h
      simp
    · cases h
      simp
    · simp [require_error h]
  rcases bind_error h with h | h
  · simp [require_error h]
  · simp [require_error h]

/-- Reading through a pointer. -/
def read {α : Type} : Option α → Except Failure α
  | some a => .ok a
  | none => .error .nullDereference

/-- The pledges `createStatement` fills in. -/
def pledges (quorumSetHash : Hash) : SCPStatementType → Except Failure BallotPledges
  | .prepare => .ok <| .prepare
      { quorumSetHash
        ballot := bp.mCurrentBallot.getD default
        prepared := bp.mPrepared
        preparedPrime := bp.mPreparedPrime
        nC := (bp.mCommit.map SCPBallot.counter).getD 0
        nH := (bp.mHighBallot.map SCPBallot.counter).getD 0 }
  | .confirm => do
    let b ← read bp.mCurrentBallot
    let p ← read bp.mPrepared
    let c ← read bp.mCommit
    let h ← read bp.mHighBallot
    return .confirm
      { ballot := b, nPrepared := p.counter, nCommit := c.counter, nH := h.counter,
        quorumSetHash }
  | .externalize => do
    let c ← read bp.mCommit
    let h ← read bp.mHighBallot
    return .externalize { commit := c, nH := h.counter, commitQuorumSetHash := quorumSetHash }

/-- The statements a node can make. -/
theorem pledges_cases {bp : BallotProtocol} {hash : Hash} {type : SCPStatementType}
    {pl : BallotPledges} (h : bp.pledges hash type = .ok pl) :
    (type = .prepare ∧ pl = .prepare
      { quorumSetHash := hash
        ballot := bp.mCurrentBallot.getD default
        prepared := bp.mPrepared
        preparedPrime := bp.mPreparedPrime
        nC := (bp.mCommit.map SCPBallot.counter).getD 0
        nH := (bp.mHighBallot.map SCPBallot.counter).getD 0 }) ∨
    (type = .confirm ∧ ∃ b p c hb, bp.mCurrentBallot = some b ∧ bp.mPrepared = some p ∧
      bp.mCommit = some c ∧ bp.mHighBallot = some hb ∧ pl = .confirm
        { ballot := b, nPrepared := p.counter, nCommit := c.counter, nH := hb.counter,
          quorumSetHash := hash }) ∨
    (type = .externalize ∧ ∃ c hb, bp.mCommit = some c ∧ bp.mHighBallot = some hb ∧
      pl = .externalize { commit := c, nH := hb.counter, commitQuorumSetHash := hash }) := by
  unfold pledges at h
  cases type with
  | prepare => cases h; exact .inl ⟨rfl, rfl⟩
  | confirm =>
    refine .inr (.inl ⟨rfl, ?_⟩)
    cases hb : bp.mCurrentBallot <;> cases hp : bp.mPrepared <;> cases hc : bp.mCommit <;>
      cases hh : bp.mHighBallot <;> simp [hb, hp, hc, hh, read, bind, Except.bind] at h
    cases h
    exact ⟨_, _, _, _, rfl, rfl, rfl, rfl, rfl⟩
  | externalize =>
    refine .inr (.inr ⟨rfl, ?_⟩)
    cases hc : bp.mCommit <;> cases hh : bp.mHighBallot <;>
      simp [hc, hh, read, bind, Except.bind] at h
    cases h
    exact ⟨_, _, rfl, rfl, rfl⟩

end BallotProtocol

theorem pledges_quorumSetHash {bp : BallotProtocol} {hash : Hash} {type : SCPStatementType}
    {pl : BallotPledges} (h : bp.pledges hash type = .ok pl) : pl.quorumSetHash = hash := by
  obtain ⟨-, rfl⟩ | ⟨-, b, p, c, hb, -, -, -, -, rfl⟩ | ⟨-, c, hb, -, -, rfl⟩ :=
    BallotProtocol.pledges_cases h <;> rfl

def SCPPhase.statementType : SCPPhase → SCPStatementType
  | .prepare => .prepare
  | .confirm => .confirm
  | .externalize => .externalize

/-! ## Functions outside the recursion -/

/-- `BallotProtocol::recordEnvelope`. -/
def recordEnvelope (env : BallotEnvelope) : SlotM Unit :=
  modifyBallot (·.record env)

/-- Records the state and asserts the invariants on it. -/
def checkInvariants : SlotM Unit := do
  let bp ← ballotProtocol
  notify (.checkInvariants bp)
  ofExcept bp.checkInvariants

/-- `BallotProtocol::bumpToBallot`. -/
def bumpToBallot (ballot : SCPBallot) (check : Bool) : SlotM Unit := do
  let bp ← ballotProtocol
  dbgAssert (bp.mPhase ≠ .externalize) .bumpAfterExternalize
  dbgAssert (check = true → ∀ b ∈ bp.mCurrentBallot, compareBallots ballot b ≠ .lt)
    .bumpBackwards
  when (bp.mCurrentBallot = none) (notify (.startedBallotProtocol ballot))
  modifyBallot (·.bumpedTo ballot)

/-- `BallotProtocol::updateCurrentIfNeeded`. -/
def updateCurrentIfNeeded (h : SCPBallot) : SlotM Bool := do
  let bp ← ballotProtocol
  (if ∀ b ∈ bp.mCurrentBallot, compareBallots b h = .lt then do
    bumpToBallot h true
    return true
  else return false)

/-- `BallotProtocol::updateCurrentValue`. -/
def updateCurrentValue (ballot : SCPBallot) : SlotM Bool := do
  let bp ← ballotProtocol
  (if bp.mPhase ≠ .prepare ∧ bp.mPhase ≠ .confirm then return false
  else
    match bp.mCurrentBallot with
    | none => do
      bumpToBallot ballot true
      checkInvariants
      return true
    | some b => do
      dbgAssert (compareBallots b ballot ≠ .gt) .updateCurrentValue
      (if bp.mCommit.any fun c => !areBallotsCompatible c ballot then return false
      else
        match compareBallots b ballot with
        | .lt => do
          bumpToBallot ballot true
          checkInvariants
          return true
        | .gt => return false
        | .eq => do
          checkInvariants
          return false))

/-- `BallotProtocol::sendLatestEnvelope`. -/
def sendLatestEnvelope : SlotM Unit := do
  let slot ← get
  let bp := slot.mBallotProtocol
  match bp.mLastEnvelope with
  | none => return ()
  | some last =>
    when (bp.mCurrentMessageLevel = 0 ∧ slot.mFullyValidated = true ∧
        bp.mLastEnvelopeEmit ≠ some last) do
      modifyBallot (·.withLastEnvelopeEmit last)
      notify (.emitEnvelope (.ballot last))

section
variable (scp : SCP)

/-- `BallotProtocol::createStatement`. -/
def createStatement (type : SCPStatementType) : SlotM BallotStatement := do
  checkInvariants
  let bp ← ballotProtocol
  let pledges ← ofExcept (bp.pledges scp.mLocalNode.mQSetHash type)
  return { nodeID := 0, slotIndex := 0, pledges }

/-- A statement with the node and the slot filled in, signed by the driver. -/
def SCP.signedEnvelope (slotIndex : Uint64) (statement : BallotStatement) : BallotEnvelope :=
  let mySt := { statement with nodeID := scp.mLocalNode.mNodeID, slotIndex }
  ⟨mySt, scp.mDriver.signEnvelope (.inl mySt)⟩

/-- `Slot::createEnvelope`. -/
def createEnvelope (statement : BallotStatement) : SlotM BallotEnvelope := do
  let slot ← get
  let envelope := scp.signedEnvelope slot.mSlotIndex statement
  notify (.signEnvelope (.ballot envelope))
  return envelope

/-- `BallotProtocol::isStatementSane`. -/
def isStatementSane (st : BallotStatement) (self : Bool) : Bool :=
  (match getQuorumSetFromStatement scp.mDriver st with
    | none => false
    | some qSet => isQuorumSetSane qSet false) &&
  arePledgesSane self st.pledges

/-- The smaller of two verdicts. -/
def ValidationLevel.min : ValidationLevel → ValidationLevel → ValidationLevel
  | .kInvalidValue, _ => .kInvalidValue
  | _, .kInvalidValue => .kInvalidValue
  | .kMaybeValidValue, _ => .kMaybeValidValue
  | _, .kMaybeValidValue => .kMaybeValidValue
  | .kFullyValidatedValue, .kFullyValidatedValue => .kFullyValidatedValue

/-- `BallotProtocol::validateValues`. -/
def validateValues (slotIndex : Uint64) (st : BallotStatement) : ValidationLevel :=
  let values := getStatementValues st.pledges
  if values.isEmpty then .kInvalidValue
  else values.toList.foldl (fun lv v =>
    if lv = .kInvalidValue then lv
    else ValidationLevel.min (scp.mDriver.validateValue slotIndex v false) lv)
    .kFullyValidatedValue

/-- `BallotProtocol::federatedAccept`. -/
def federatedAccept (latest : EnvelopeMap BallotPledges)
    (voted accepted : BallotPledges → Bool) : Bool :=
  scp.federatedAccept (getQuorumSetFromStatement scp.mDriver)
    (fun st => voted st.pledges) (fun st => accepted st.pledges) latest

/-- `BallotProtocol::federatedRatify`. -/
def federatedRatify (latest : EnvelopeMap BallotPledges) (voted : BallotPledges → Bool) : Bool :=
  scp.federatedRatify (getQuorumSetFromStatement scp.mDriver) (fun st => voted st.pledges) latest

/-- `BallotProtocol::startBallotProtocolTimer`. -/
def startBallotProtocolTimer : SlotM Unit := do
  let bp ← ballotProtocol
  let b ← deref bp.mCurrentBallot
  notify (.setupTimer .ballotProtocolTimer (some (computeTimeout b.counter.val)))

/-- `BallotProtocol::stopBallotProtocolTimer`. -/
def stopBallotProtocolTimer : SlotM Unit := notify (.setupTimer .ballotProtocolTimer none)

/-- The filter of `checkHeardFromQuorum`. -/
def hasReachedCounter (counter : Uint32) : BallotPledges → Bool
  | .prepare p => counter ≤ p.ballot.counter
  | _ => true

/-- `BallotProtocol::checkHeardFromQuorum`. -/
def checkHeardFromQuorum : SlotM Unit := do
  let bp ← ballotProtocol
  match bp.mCurrentBallot with
  | none => return ()
  | some b =>
    (if isQuorum scp.mLocalNode.mQSet bp.mLatestEnvelopes
        (getQuorumSetFromStatement scp.mDriver) (fun st => hasReachedCounter b.counter st.pledges)
    then do
      modifyBallot (·.withHeard true)
      when (bp.mHeardFromQuorum = false) do
        notify (.ballotDidHearFromQuorum b)
        when (bp.mPhase ≠ .externalize) startBallotProtocolTimer
      when (bp.mPhase = .externalize) stopBallotProtocolTimer
    else do
      modifyBallot (·.withHeard false)
      stopBallotProtocolTimer)

variable (latest : EnvelopeMap BallotPledges)

/-- `hasVBlockingSubsetStrictlyAheadOf`. -/
def hasVBlockingSubsetStrictlyAheadOf (n : Uint32) : Bool :=
  isVBlocking scp.mLocalNode.mQSet latest fun st => decide (statementBallotCounter st.pledges > n)

/-- The counters above the local one, and the smallest of them that no blocking
set is ahead of. -/
def findBumpCounter (localCounter : Uint32) : Option Uint32 :=
  let allCounters := (∅ : OrderedSet Uint32).insertAll
    ((latest.entries.map fun e => statementBallotCounter e.2.statement.pledges).filter
      (fun c => decide (c > localCounter)))
  allCounters.toList.find? fun n => !hasVBlockingSubsetStrictlyAheadOf scp latest n

/-- In `CONFIRM` only ballots that may raise `p` are considered. -/
def mayRaisePrepared (bp : BallotProtocol) (ballot : SCPBallot) : Except Failure Bool :=
  if bp.mPhase = .confirm then do
    let p ← BallotProtocol.read bp.mPrepared
    if areBallotsLessAndCompatible p ballot then do
      let c ← BallotProtocol.read bp.mCommit
      BallotProtocol.require (areBallotsCompatible c ballot) .acceptPreparedIncompatible
      return true
    else return false
  else return true

/-- Is the ballot covered by `p'` or by `p` already. -/
def isAlreadyPrepared (bp : BallotProtocol) (ballot : SCPBallot) : Bool :=
  bp.mPreparedPrime.any (fun p' => compareBallots ballot p' ≠ .gt) ||
  bp.mPrepared.any (areBallotsLessAndCompatible ballot)

/-- The loop of `attemptAcceptPrepared` over the candidates from the top. -/
def findAcceptPrepared (bp : BallotProtocol) : List SCPBallot → Except Failure (Option SCPBallot)
  | [] => .ok none
  | ballot :: rest => do
    if ← mayRaisePrepared bp ballot then
      if isAlreadyPrepared bp ballot then findAcceptPrepared bp rest
      else if federatedAccept scp bp.mLatestEnvelopes (hasVotedPrepare ballot)
          (hasPreparedBallot ballot) then return some ballot
      else findAcceptPrepared bp rest
    else findAcceptPrepared bp rest

/-- The first loop of `attemptConfirmPrepared`: the highest ratified ballot above
`h`, with the candidates from there on. -/
def findNewH (bp : BallotProtocol) : List SCPBallot → Option (SCPBallot × List SCPBallot)
  | [] => none
  | ballot :: rest =>
    if bp.mHighBallot.any fun h => compareBallots h ballot ≠ .lt then none
    else if federatedRatify scp bp.mLatestEnvelopes (hasPreparedBallot ballot) then
      some (ballot, ballot :: rest)
    else findNewH bp rest

/-- The second loop of `attemptConfirmPrepared`: the lowest ballot of the run of
ratified ballots that starts at `newH` and stays above `b`. -/
def findNewC (bp : BallotProtocol) (newH : SCPBallot) : List SCPBallot → SCPBallot → SCPBallot
  | [], newC => newC
  | ballot :: rest, newC =>
    if compareBallots ballot (bp.mCurrentBallot.getD default) = .lt then newC
    else if ¬ areBallotsLessAndCompatible ballot newH then findNewC bp newH rest newC
    else if federatedRatify scp bp.mLatestEnvelopes (hasPreparedBallot ballot) then
      findNewC bp newH rest ballot
    else newC

/-- May the node vote to commit up to `newH`. -/
def canVoteCommit (bp : BallotProtocol) (newH : SCPBallot) : Bool :=
  bp.mCommit.isNone && bp.mPrepared.all (fun p => !areBallotsLessAndIncompatible newH p) &&
  bp.mPreparedPrime.all (fun p' => !areBallotsLessAndIncompatible newH p')

/-- The interval `attemptAcceptCommit` finds. -/
def findAcceptCommit (ballot : SCPBallot) : Interval :=
  findExtendedInterval (fun cur =>
    federatedAccept scp latest (hasVotedCommit ballot cur) (commitPredicate ballot cur))
    (getCommitBoundariesFromStatements latest ballot).descending (0, 0)

/-- The interval `attemptConfirmCommit` finds. -/
def findConfirmCommit (ballot : SCPBallot) : Interval :=
  findExtendedInterval (fun cur => federatedRatify scp latest (commitPredicate ballot cur))
    (getCommitBoundariesFromStatements latest ballot).descending (0, 0)

end

/-! ## Functions of the recursion -/

section
variable (scp : SCP) (advance : BallotStatement → SlotM Unit)

/-- Is there a recorded statement that a new one of `nodeID` does not replace. -/
def BallotProtocol.isNewerStatement (bp : BallotProtocol) (nodeID : NodeID)
    (st : BallotStatement) : Bool :=
  (bp.mLatestEnvelopes.lookup nodeID).all fun old =>
    Scp.isNewerStatement old.statement.pledges st.pledges

variable (envelope : BallotEnvelope)

/-- `BallotProtocol::processEnvelope`. -/
def processEnvelope (self : Bool) : SlotM EnvelopeState := do
  let slot ← get
  let statement := envelope.statement
  dbgAssert (statement.slotIndex = slot.mSlotIndex) .slotIndex
  let bp := slot.mBallotProtocol
  let validationRes := validateValues scp slot.mSlotIndex statement
  (if ¬ isStatementSane scp statement self then return .invalid
  else if ¬ bp.isNewerStatement statement.nodeID statement then return .invalid
  else if validationRes = .kInvalidValue then return .invalid
  else if bp.mPhase ≠ .externalize then do
    when (validationRes = .kMaybeValidValue)
      (modify fun slot => { slot with mFullyValidated := false })
    recordEnvelope envelope
    advance statement
    return .valid
  else do
    let c ← deref bp.mCommit
    (if c.value = (getWorkingBallot statement.pledges).value then do
      recordEnvelope envelope
      return .valid
    else return .invalid))

/-- `Slot::getLatestMessage`: has the node been heard from. -/
def Slot.hasLatestMessage (slot : Slot) (id : NodeID) : Bool :=
  (slot.mBallotProtocol.mLatestEnvelopes.lookup id).isSome ||
  (slot.mNominationProtocol.mLatestNominations.lookup id).isSome

/-- `Slot::maybeSetGotVBlocking`. -/
def maybeSetGotVBlocking : SlotM Unit :=
  modify fun slot =>
    if slot.mGotVBlocking then slot
    else
      let nodes := (forAllNodes scp.mLocalNode.mQSet).filter slot.hasLatestMessage
      { slot with mGotVBlocking := isVBlockingSet scp.mLocalNode.mQSet nodes }

/-- `Slot::processEnvelope` on an envelope of the ballot protocol. -/
def slotProcessEnvelope (self : Bool) : SlotM EnvelopeState := do
  let slot ← get
  dbgAssert (envelope.statement.slotIndex = slot.mSlotIndex) .slotIndex
  let prev := slot.hasLatestMessage envelope.statement.nodeID
  let res ← processEnvelope scp advance envelope self
  when (prev = false ∧ res = .valid) (maybeSetGotVBlocking scp)
  return res

/-- The end of `emitCurrentStateStatement`: the node processes its own envelope and
queues it for sending. -/
def submitEnvelope (canEmit : Bool) : SlotM Unit := do
  let res ← slotProcessEnvelope scp advance envelope true
  match res with
  | .valid => do
    let bp ← ballotProtocol
    when (canEmit = true ∧ ∀ last ∈ bp.mLastEnvelope,
        isNewerStatement last.statement.pledges envelope.statement.pledges = true) do
      modifyBallot (·.withLastEnvelope envelope)
      sendLatestEnvelope
  | .invalid => throw .badBallotState

/-- `BallotProtocol::emitCurrentStateStatement`. -/
def emitCurrentStateStatement : SlotM Unit := do
  let bp ← ballotProtocol
  let statement ← createStatement scp bp.mPhase.statementType
  let envelope ← createEnvelope scp statement
  -- the same envelope is not processed again
  when (bp.mLatestEnvelopes.lookup scp.mLocalNode.mNodeID ≠ some envelope)
    (submitEnvelope scp advance envelope bp.mCurrentBallot.isSome)

/-- `BallotProtocol::bumpState` to a given counter. -/
def bumpStateTo (value : Value) (n : Uint32) : SlotM Bool := do
  let bp ← ballotProtocol
  (if bp.mPhase ≠ .prepare ∧ bp.mPhase ≠ .confirm then return false
  else do
    -- the value that was confirmed prepared, or voted to commit, has precedence
    let updated ← updateCurrentValue ⟨n, bp.mValueOverride.getD value⟩
    when (updated = true) do
      emitCurrentStateStatement scp advance
      checkHeardFromQuorum scp
    return updated)

/-- `BallotProtocol::bumpState`. The counter is a `uint32` and wraps. -/
def bumpStateWith (value : Value) (force : Bool) : SlotM Bool := do
  let bp ← ballotProtocol
  match force, bp.mCurrentBallot with
  | false, some _ => return false
  | _, some b => bumpStateTo scp advance value (b.counter + 1)
  | _, none => bumpStateTo scp advance value 1

/-- The value `abandonBallot` bumps with: the composite candidate or, without
one, the value of the current ballot. -/
def Slot.abandonValue (slot : Slot) : Option Value :=
  match slot.mNominationProtocol.mLatestCompositeCandidate with
  | some (x :: v) => some (x :: v)
  | v =>
    match slot.mBallotProtocol.mCurrentBallot with
    | some b => some b.value
    | none => v

/-- `BallotProtocol::abandonBallot`. -/
def abandonBallotTo (n : Uint32) : SlotM Bool := do
  let slot ← get
  match slot.abandonValue with
  | some (x :: v) =>
    (if n = 0 then bumpStateWith scp advance (x :: v) true
    else bumpStateTo scp advance (x :: v) n)
  | _ => return false

/-- `BallotProtocol::setAcceptPrepared`. -/
def setAcceptPrepared (ballot : SCPBallot) : SlotM Bool := do
  let bp ← ballotProtocol
  let (bp, didWork) := bp.setPrepared ballot
  dbgAssert (bp.contradictsCommit = true → bp.mPhase = .prepare) .clearCommitOutsidePrepare
  modifyBallot fun _ => if bp.contradictsCommit then { bp with mCommit := none } else bp
  (if didWork || bp.contradictsCommit then do
    notify (.acceptedBallotPrepared ballot)
    emitCurrentStateStatement scp advance
    return true
  else return false)

variable (hint : BallotPledges)

/-- `BallotProtocol::attemptAcceptPrepared`. -/
def attemptAcceptPrepared : SlotM Bool := do
  let bp ← ballotProtocol
  (if bp.mPhase ≠ .prepare ∧ bp.mPhase ≠ .confirm then return false
  else do
    let found ← ofExcept (findAcceptPrepared scp bp
      (getPrepareCandidates bp.mLatestEnvelopes hint).descending)
    match found with
    | none => return false
    | some ballot => setAcceptPrepared scp advance ballot)

/-- `BallotProtocol::setConfirmPrepared`. -/
def setConfirmPrepared (newC newH : SCPBallot) : SlotM Bool := do
  let bp ← ballotProtocol
  dbgAssert (bp.votesCommit newC newH = true → bp.mCommit = none) .commitAlreadySet
  modifyBallot (·.withConfirmed newC newH)
  when ((bp.raisesH newH || bp.votesCommit newC newH) = true)
    (notify (.confirmedBallotPrepared newH))
  -- step (8) is always performed with the computed value of h
  let updated ← updateCurrentIfNeeded newH
  (if updated || bp.raisesH newH || bp.votesCommit newC newH then do
    emitCurrentStateStatement scp advance
    return true
  else return false)

/-- `BallotProtocol::attemptConfirmPrepared`. -/
def attemptConfirmPrepared : SlotM Bool := do
  let bp ← ballotProtocol
  (if bp.mPhase ≠ .prepare ∨ bp.mPrepared = none then return false
  else
    match findNewH scp bp (getPrepareCandidates bp.mLatestEnvelopes hint).descending with
    | none => return false
    | some (newH, rest) =>
      let newC := if canVoteCommit bp newH then findNewC scp bp newH rest default else default
      setConfirmPrepared scp advance newC newH)

/-- `BallotProtocol::setAcceptCommit`. -/
def setAcceptCommit (c h : SCPBallot) : SlotM Bool := do
  let bp ← ballotProtocol
  modifyBallot (·.withAccepted c h)
  when (bp.mPhase = .prepare) do
    modifyBallot (·.withPhase .confirm)
    when (∃ b ∈ bp.mCurrentBallot, ¬ areBallotsLessAndCompatible h b) (bumpToBallot h false)
    modifyBallot (·.withoutPrime)
  (if bp.mHighBallot ≠ some h ∨ bp.mCommit ≠ some c ∨ bp.mPhase = .prepare then do
    let _ ← updateCurrentIfNeeded h
    notify (.acceptedCommit h)
    emitCurrentStateStatement scp advance
    return true
  else return false)

/-- `BallotProtocol::attemptAcceptCommit`. -/
def attemptAcceptCommit : SlotM Bool := do
  let bp ← ballotProtocol
  match acceptCommitHint hint with
  | none => return false
  | some ballot => do
    (if bp.mPhase ≠ .prepare ∧ bp.mPhase ≠ .confirm then return false
    else do
      let candidate := findAcceptCommit scp bp.mLatestEnvelopes ballot
      (if bp.mPhase = .confirm then do
        let h ← deref bp.mHighBallot
        (if areBallotsCompatible ballot h ∧ candidate.1 ≠ 0 ∧ candidate.2 > h.counter then
          setAcceptCommit scp advance ⟨candidate.1, ballot.value⟩ ⟨candidate.2, ballot.value⟩
        else return false)
      else if candidate.1 ≠ 0 then
        setAcceptCommit scp advance ⟨candidate.1, ballot.value⟩ ⟨candidate.2, ballot.value⟩
      else return false))

/-- `Slot::stopNomination`. -/
def stopNomination : SlotM Unit :=
  modify fun slot => { slot with
    mNominationProtocol := { slot.mNominationProtocol with mNominationStarted := false } }

/-- `BallotProtocol::setConfirmCommit`. -/
def setConfirmCommit (c h : SCPBallot) : SlotM Bool := do
  modifyBallot (·.withCommitted c h)
  let _ ← updateCurrentIfNeeded h
  modifyBallot (·.withPhase .externalize)
  emitCurrentStateStatement scp advance
  stopNomination
  let bp ← ballotProtocol
  let c ← deref bp.mCommit
  notify (.valueExternalized c.value)
  return true

/-- `BallotProtocol::attemptConfirmCommit`. -/
def attemptConfirmCommit : SlotM Bool := do
  let bp ← ballotProtocol
  match bp.mPhase, bp.mHighBallot, bp.mCommit, confirmCommitHint hint with
  | .confirm, some _, some c, some ballot =>
    let candidate := findConfirmCommit scp bp.mLatestEnvelopes ballot
    (if areBallotsCompatible ballot c ∧ candidate.1 ≠ 0 then
      setConfirmCommit scp advance ⟨candidate.1, ballot.value⟩ ⟨candidate.2, ballot.value⟩
    else return false)
  | _, _, _, _ => return false

/-- `BallotProtocol::attemptBump`: step 9 of the paper. -/
def attemptBump : SlotM Bool := do
  let bp ← ballotProtocol
  let localCounter := (bp.mCurrentBallot.map SCPBallot.counter).getD 0
  (if (bp.mPhase = .prepare ∨ bp.mPhase = .confirm) ∧
      hasVBlockingSubsetStrictlyAheadOf scp bp.mLatestEnvelopes localCounter = true then
    match findBumpCounter scp bp.mLatestEnvelopes localCounter with
    | none => return false
    | some n => abandonBallotTo scp advance n
  else return false)

/-- The loop around `attemptBump`, which returns whether it did anything. -/
def bumpLoop : ℕ → SlotM Bool
  | 0 => throw .diverges
  | fuel + 1 => do
    let didBump ← attemptBump scp advance
    (if didBump then do
      let _ ← bumpLoop fuel
      return true
    else return false)

/-- Every pass of the loop raises the counter of `b`, or leaves `PREPARE`, where
`b` may fall back to `h` once. -/
def bumpFuel : ℕ := 2 ^ 33 + 1

def maxAdvanceSlotRecursion : ℕ := 50

/-- The body of `BallotProtocol::advanceSlot`. -/
def advanceSlotWith (hint : BallotStatement) : SlotM Unit := do
  modifyBallot fun bp => bp.withLevel (bp.mCurrentMessageLevel + 1)
  let bp ← ballotProtocol
  when (bp.mCurrentMessageLevel ≥ maxAdvanceSlotRecursion) (throw .tooManyTransitions)
  let acceptedPrepared ← attemptAcceptPrepared scp advance hint.pledges
  let confirmedPrepared ← attemptConfirmPrepared scp advance hint.pledges
  let acceptedCommit ← attemptAcceptCommit scp advance hint.pledges
  let confirmedCommit ← attemptConfirmCommit scp advance hint.pledges
  let bp ← ballotProtocol
  -- only bump after everything else is done
  let bumped ← (if bp.mCurrentMessageLevel = 1 then do
      let bumped ← bumpLoop scp advance bumpFuel
      checkHeardFromQuorum scp
      return bumped
    else return false)
  modifyBallot fun bp => bp.withLevel (bp.mCurrentMessageLevel - 1)
  when ((acceptedPrepared || confirmedPrepared || acceptedCommit || confirmedCommit || bumped)
    = true) sendLatestEnvelope

end

/-- `BallotProtocol::advanceSlot`. The level reaches the limit before the fuel of
a top level call ends. -/
def advanceSlot (scp : SCP) : ℕ → BallotStatement → SlotM Unit
  | 0, _ => throw .tooManyTransitions
  | fuel + 1, hint => advanceSlotWith scp (advanceSlot scp fuel) hint

/-! ## Calls from outside -/

section
variable (scp : SCP)

/-- `SCP::receiveEnvelope` on an envelope of the ballot protocol. -/
def receiveEnvelope (envelope : BallotEnvelope) : SlotM EnvelopeState :=
  slotProcessEnvelope scp (advanceSlot scp maxAdvanceSlotRecursion) envelope false

/-- `Slot::bumpState`. -/
def bumpState (value : Value) (force : Bool) : SlotM Bool :=
  bumpStateWith scp (advanceSlot scp maxAdvanceSlotRecursion) value force

/-- `Slot::abandonBallot`. -/
def abandonBallot : SlotM Bool :=
  abandonBallotTo scp (advanceSlot scp maxAdvanceSlotRecursion) 0

/-- `BallotProtocol::ballotProtocolTimerExpired`. -/
def ballotProtocolTimerExpired : SlotM Unit := do
  let _ ← abandonBallot scp

end

end DigitalBits.Scp
