import DigitalBits.Scp.BallotRun

/-!
# The nomination protocol

`NominationProtocol.cpp` as computations on a slot. A nomination the node makes is
fed back to itself; the functions take what makes one as the parameter `emit` and
the recursion is tied at the end. Neither that recursion nor the search for round
leaders is bounded by the code: both depend on what the driver answers, so they run
on fuel, and a run that needs more of it ends in `Failure.diverges`.
-/
namespace DigitalBits.Scp
open Lib LocalNode

/-! ## Nominations -/

/-- `std::includes` on two sorted ranges. -/
def includes : List Value → List Value → Bool
  | _, [] => true
  | [], _ :: _ => false
  | x :: v, y :: p =>
    if y < x then false else if x < y then includes v (y :: p) else includes v p

/-- `NominationProtocol::isSubsetHelper`: is `p` in `v`, and do they differ. -/
def isSubsetHelper (p v : List Value) : Bool × Bool :=
  if p.length ≤ v.length then
    if includes v p then (true, decide (p.length ≠ v.length)) else (false, true)
  else (false, true)

/-- `NominationProtocol::isNewerStatement` on two nominations. -/
def isNewerNomination (oldst st : SCPNomination) : Bool :=
  let votes := isSubsetHelper oldst.votes st.votes
  let accepted := isSubsetHelper oldst.accepted st.accepted
  votes.1 && (accepted.1 && (votes.2 || accepted.2))

/-- `NominationProtocol::isSane`: something is nominated, in strictly ascending order. -/
def isNominationSane (nom : SCPNomination) : Bool :=
  decide (nom.votes.length + nom.accepted.length ≠ 0) &&
  decide (nom.votes.IsChain (· < ·)) && decide (nom.accepted.IsChain (· < ·))

/-- The values `NominationProtocol::applyAll` visits. -/
def applyAll (nom : SCPNomination) : List Value :=
  nom.votes ++ nom.accepted.filter fun a => a ∉ nom.votes

/-! ## The members -/

namespace NominationProtocol

variable (np : NominationProtocol)

def withVote (v : Value) : NominationProtocol :=
  { np with mVotes := np.mVotes.insert v }

/-- A value that is accepted is voted for, too. -/
def withAccepted (v : Value) : NominationProtocol :=
  { np with mAccepted := np.mAccepted.insert v, mVotes := np.mVotes.insert v }

def withCandidate (v : Value) : NominationProtocol :=
  { np with mCandidates := np.mCandidates.insert v }

def withComposite (v : Option Value) : NominationProtocol :=
  { np with mLatestCompositeCandidate := v }

def withLeaders (leaders : OrderedSet NodeID) : NominationProtocol :=
  { np with mRoundLeaders := leaders }

def withNextRound : NominationProtocol :=
  { np with mRoundNumber := np.mRoundNumber + 1 }

def withStarted (previousValue : Value) : NominationProtocol :=
  { np with mNominationStarted := true, mPreviousValue := previousValue }

def withLastEnvelope (env : NominationEnvelope) : NominationProtocol :=
  { np with mLastEnvelope := some env }

/-- The nominations after `recordEnvelope`. -/
def record (env : NominationEnvelope) : NominationProtocol :=
  { np with mLatestNominations := np.mLatestNominations.insert env.statement.nodeID env }

/-- `NominationProtocol::isNewerStatement` on a nomination of a node. -/
def isNewerStatement (nodeID : NodeID) (st : SCPNomination) : Bool :=
  match np.mLatestNominations.lookup nodeID with
  | none => true
  | some old => isNewerNomination old.statement.pledges st

/-- The nomination `emitNomination` builds. -/
def nomination (quorumSetHash : Hash) : SCPNomination where
  quorumSetHash
  votes := np.mVotes.toList
  accepted := np.mAccepted.toList

end NominationProtocol

def Slot.withNominationProtocol (s : Slot) (np : NominationProtocol) : Slot :=
  { s with mNominationProtocol := np }

def nominationProtocol : SlotM NominationProtocol := do return (← get).mNominationProtocol

def modifyNomination (f : NominationProtocol → NominationProtocol) : SlotM Unit :=
  modify fun s => s.withNominationProtocol (f s.mNominationProtocol)

/-! ## The functions -/

section
variable (scp : SCP)

/-- `Slot::getQuorumSetFromStatement` on a nomination. -/
def getQuorumSetFromNomination (st : NominationStatement) : Option SCPQuorumSet :=
  scp.mDriver.getQSet st.pledges.quorumSetHash

/-- `Slot::federatedAccept` on a value, by the votes and the acceptances for it. -/
def federatedAcceptValue (np : NominationProtocol) (v : Value) : Bool :=
  scp.federatedAccept (getQuorumSetFromNomination scp)
    (fun st => decide (v ∈ st.pledges.votes)) (fun st => decide (v ∈ st.pledges.accepted))
    np.mLatestNominations

/-- `Slot::federatedRatify` on a value, by the acceptances for it. -/
def federatedRatifyValue (np : NominationProtocol) (v : Value) : Bool :=
  scp.federatedRatify (getQuorumSetFromNomination scp)
    (fun st => decide (v ∈ st.pledges.accepted)) np.mLatestNominations

variable (slotIndex : Uint64)

/-- `NominationProtocol::hashNode`. -/
def hashNode (np : NominationProtocol) (isPriority : Bool)
    (nodeID : NodeID) : Except Failure Uint64 :=
  if np.mPreviousValue = [] then .error (.assertion .previousValueEmpty)
  else .ok (scp.mDriver.computeHashNode slotIndex np.mPreviousValue isPriority
    np.mRoundNumber nodeID)

/-- `NominationProtocol::hashValue`. -/
def hashValue (np : NominationProtocol) (value : Value) : Except Failure Uint64 :=
  if np.mPreviousValue = [] then .error (.assertion .previousValueEmpty)
  else .ok (scp.mDriver.computeValueHash slotIndex np.mPreviousValue np.mRoundNumber value)

/-- The weight of a node in `getNodePriority`. The local node is in all quorum sets. -/
def nodeWeight (nodeID : NodeID) (qset : SCPQuorumSet) : Except Failure Uint64 :=
  if nodeID = scp.mLocalNode.mNodeID then .ok (Fin.last (2 ^ 64 - 1))
  else match getNodeWeight nodeID qset with
    | some w => .ok w
    | none => .error (.assertion .nodeWeight)

/-- `NominationProtocol::getNodePriority`. -/
def getNodePriority (np : NominationProtocol) (nodeID : NodeID)
    (qset : SCPQuorumSet) : Except Failure Uint64 := do
  let w ← nodeWeight scp nodeID qset
  if w = 0 then return 0
  else do
    let hash ← hashNode scp slotIndex np false nodeID
    if hash ≤ w then hashNode scp slotIndex np true nodeID else return 0

/-- The scan over the nodes in `updateRoundLeaders`. -/
def topPriorityNodes (slotIndex : Uint64) (np : NominationProtocol) (qset : SCPQuorumSet) :
    List NodeID → OrderedSet NodeID → Uint64 → Except Failure (OrderedSet NodeID)
  | [], newRoundLeaders, _ => .ok newRoundLeaders
  | cur :: rest, newRoundLeaders, topPriority => do
    let w ← getNodePriority scp slotIndex np cur qset
    let newRoundLeaders := if w > topPriority then ∅ else newRoundLeaders
    let topPriority := if w > topPriority then w else topPriority
    topPriorityNodes slotIndex np qset rest
      (if w = topPriority ∧ w > 0 then newRoundLeaders.insert cur else newRoundLeaders) topPriority

/-- The leaders of a round. -/
def newRoundLeaders (np : NominationProtocol) (myQSet : SCPQuorumSet) :
    Except Failure (OrderedSet NodeID) := do
  let localID := scp.mLocalNode.mNodeID
  let topPriority ← getNodePriority scp slotIndex np localID myQSet
  topPriorityNodes scp slotIndex np myQSet (forAllNodes myQSet)
    ((∅ : OrderedSet NodeID).insert localID) topPriority

/-- The loop of `updateRoundLeaders`: rounds pass until one adds a leader. -/
def updateRoundLeadersLoop (myQSet : SCPQuorumSet) (maxLeaderCount : ℕ) : ℕ → SlotM Unit
  | 0 => throw .diverges
  | fuel + 1 => do
    let slot ← get
    let np := slot.mNominationProtocol
    when (np.mRoundLeaders.toList.length < maxLeaderCount) do
      let leaders ← ofExcept (newRoundLeaders scp slot.mSlotIndex np myQSet)
      let all := np.mRoundLeaders.insertAll leaders.toList
      modifyNomination (·.withLeaders all)
      when (np.mRoundLeaders.toList.length = all.toList.length) do
        modifyNomination (·.withNextRound)
        updateRoundLeadersLoop myQSet maxLeaderCount fuel

/-- `NominationProtocol::updateRoundLeaders`. -/
def updateRoundLeaders (fuel : ℕ) : SlotM Unit :=
  let myQSet := normalizeQSet scp.mLocalNode.mQSet (some scp.mLocalNode.mNodeID)
  updateRoundLeadersLoop scp myQSet (1 + (forAllNodes myQSet).length) fuel

/-- The value `getNewValueFromNomination` would vote for in place of a nominated one. -/
def valueToNominate (value : Value) : Option Value :=
  if scp.mDriver.validateValue slotIndex value true = .kFullyValidatedValue then some value
  else scp.mDriver.extractValidValue slotIndex value

/-- The scan of `getNewValueFromNomination`: the new value with the highest hash. -/
def pickNewValue (slotIndex : Uint64) (np : NominationProtocol) :
    List Value → Option Value → Uint64 → Except Failure (Option Value)
  | [], newVote, _ => .ok newVote
  | value :: rest, newVote, newHash =>
    match valueToNominate scp slotIndex value with
    | none => pickNewValue slotIndex np rest newVote newHash
    | some v =>
      if v ∈ np.mVotes then pickNewValue slotIndex np rest newVote newHash
      else do
        let curHash ← hashValue scp slotIndex np v
        if curHash ≥ newHash then pickNewValue slotIndex np rest (some v) curHash
        else pickNewValue slotIndex np rest newVote newHash

/-- `NominationProtocol::getNewValueFromNomination`. -/
def getNewValueFromNomination (nom : SCPNomination) : SlotM (Option Value) := do
  let slot ← get
  ofExcept (pickNewValue scp slot.mSlotIndex slot.mNominationProtocol (applyAll nom) none 0)

/-- Votes for a new value and tells the driver. -/
def voteFor (v : Value) : SlotM Unit := do
  modifyNomination (·.withVote v)
  notify (.nominatingValue v)

/-- A nomination with the node and the slot filled in, signed by the driver. -/
def SCP.signedNomination (nom : SCPNomination) : NominationEnvelope :=
  let mySt := { nodeID := scp.mLocalNode.mNodeID, slotIndex, pledges := nom }
  ⟨mySt, scp.mDriver.signEnvelope (.inr mySt)⟩

/-- `NominationProtocol::emitNomination`. -/
def emitNomination (process : NominationEnvelope → SlotM EnvelopeState) : SlotM Unit := do
  let slot ← get
  let envelope := scp.signedNomination slot.mSlotIndex
    (slot.mNominationProtocol.nomination scp.mLocalNode.mQSetHash)
  notify (.signEnvelope (.nominate envelope))
  let res ← process envelope
  match res with
  | .valid => do
    let slot ← get
    when (∀ last ∈ slot.mNominationProtocol.mLastEnvelope,
        isNewerNomination last.statement.pledges envelope.statement.pledges = true) do
      modifyNomination (·.withLastEnvelope envelope)
      when (slot.mFullyValidated = true) (notify (.emitEnvelope (.nominate envelope)))
  | .invalid => throw .badNominationState

/-- One round of the first loop of `processEnvelope`: is a vote to be accepted. -/
def promoteVote (v : Value) : SlotM Bool := do
  let slot ← get
  let np := slot.mNominationProtocol
  (if v ∉ np.mAccepted ∧ federatedAcceptValue scp np v = true then
    if scp.mDriver.validateValue slot.mSlotIndex v true = .kFullyValidatedValue then do
      modifyNomination (·.withAccepted v)
      return true
    else
      -- the value made it pretty far: a variation of it may be valid
      match scp.mDriver.extractValidValue slot.mSlotIndex v with
      | none => return false
      | some toVote =>
        if toVote ∈ np.mVotes then return false
        else do
          modifyNomination (·.withVote toVote)
          return true
  else return false)

def promoteVotes : List Value → SlotM Bool
  | [] => return false
  | v :: rest => do
    let modified ← promoteVote scp v
    let modified' ← promoteVotes rest
    return modified || modified'

/-- One round of the second loop of `processEnvelope`: is an accepted value a candidate. -/
def promoteAccepted (a : Value) : SlotM Bool := do
  let np ← nominationProtocol
  (if a ∉ np.mCandidates ∧ federatedRatifyValue scp np a = true then do
    modifyNomination (·.withCandidate a)
    return true
  else return false)

def promoteAllAccepted : List Value → SlotM Bool
  | [] => return false
  | a :: rest => do
    let newCandidates ← promoteAccepted scp a
    let newCandidates' ← promoteAllAccepted rest
    return newCandidates || newCandidates'

/-- The vote for a value of a round leader, while there is no candidate. -/
def takeLeaderVote (nodeID : NodeID) (nom : SCPNomination) : SlotM Bool := do
  let np ← nominationProtocol
  (if np.mCandidates.isEmpty = true ∧ nodeID ∈ np.mRoundLeaders then do
    let newVote ← getNewValueFromNomination scp nom
    match newVote with
    | none => return false
    | some v => do
      voteFor v
      return true
  else return false)

/-- The end of `processEnvelope`: a new composite candidate starts the ballot protocol. -/
def updateComposite : SlotM Unit := do
  let slot ← get
  let composite := scp.mDriver.combineCandidates slot.mSlotIndex
    slot.mNominationProtocol.mCandidates
  modifyNomination (·.withComposite composite)
  let v ← deref composite
  notify (.updatedCandidateValue v)
  let _ ← bumpState scp v false

/-- `NominationProtocol::processEnvelope`. -/
def processNomination (emit : SlotM Unit) (envelope : NominationEnvelope) :
    SlotM EnvelopeState := do
  let np ← nominationProtocol
  let st := envelope.statement
  (if ¬ np.isNewerStatement st.nodeID st.pledges = true then return .invalid
  else if ¬ isNominationSane st.pledges = true then return .invalid
  else do
    modifyNomination (·.record envelope)
    when (np.mNominationStarted = true) do
      let modified ← promoteVotes scp st.pledges.votes
      let accepted := (← nominationProtocol).mAccepted.toList
      let newCandidates ← promoteAllAccepted scp accepted
      let voted ← takeLeaderVote scp st.nodeID st.pledges
      when ((modified || voted) = true) emit
      when (newCandidates = true) (updateComposite scp)
    return .valid)

/-- `Slot::processEnvelope` on a nomination. -/
def slotProcessNomination (emit : SlotM Unit) (envelope : NominationEnvelope) :
    SlotM EnvelopeState := do
  let slot ← get
  dbgAssert (envelope.statement.slotIndex = slot.mSlotIndex) .slotIndex
  let prev := slot.hasLatestMessage envelope.statement.nodeID
  let res ← processNomination scp emit envelope
  when (prev = false ∧ res = .valid) (maybeSetGotVBlocking scp)
  return res

/-- The recursion through the node's own nominations. -/
def receiveNomination : ℕ → NominationEnvelope → SlotM EnvelopeState
  | 0, _ => throw .diverges
  | fuel + 1, envelope =>
    slotProcessNomination scp (emitNomination scp (receiveNomination fuel)) envelope

/-- The vote `nominate` adds for a value of a leader. -/
def voteWithLeader (leader : NodeID) : SlotM Bool := do
  let np ← nominationProtocol
  match np.mLatestNominations.lookup leader with
  | none => return false
  | some env =>
    let lnmV ← getNewValueFromNomination scp env.statement.pledges
    match lnmV with
    | none => return false
    | some v =>
      voteFor v
      return true

def voteWithLeaders : List NodeID → SlotM Bool
  | [] => return false
  | leader :: rest => do
    let updated ← voteWithLeader scp leader
    let updated' ← voteWithLeaders rest
    return updated || updated'

/-- The vote of a leader for its own value. -/
def voteAsLeader (value : Value) : SlotM Bool := do
  let np ← nominationProtocol
  (if scp.mLocalNode.mNodeID ∈ np.mRoundLeaders ∧ value ∉ np.mVotes then do
    voteFor value
    return true
  else return false)

/-- `NominationProtocol::nominate`. -/
def nominate (fuel : ℕ) (value previousValue : Value) (timedout : Bool) : SlotM Bool := do
  let np ← nominationProtocol
  (if timedout = true ∧ np.mNominationStarted = false then return false
  else do
    modifyNomination fun np => (np.withStarted previousValue).withNextRound
    updateRoundLeaders scp fuel
    let np ← nominationProtocol
    let updated ← voteAsLeader scp value
    let updated' ← voteWithLeaders scp np.mRoundLeaders.toList
    notify (.setupTimer .nominationTimer (some (computeTimeout np.mRoundNumber)))
    when ((updated || updated') = true) (emitNomination scp (receiveNomination scp fuel))
    return updated || updated')

/-- `NominationProtocol::setStateFromEnvelope`. -/
def setNominationFromEnvelope (env : NominationEnvelope) : SlotM Unit := do
  let np ← nominationProtocol
  when (np.mNominationStarted = true) (throw .nominationStarted)
  modifyNomination fun np =>
    { np.record env with
      mAccepted := np.mAccepted.insertAll env.statement.pledges.accepted
      mVotes := np.mVotes.insertAll env.statement.pledges.votes
      mLastEnvelope := some env }

/-- `Slot::setStateFromEnvelope` on a nomination. -/
def slotSetNominationFromEnvelope (env : NominationEnvelope) : SlotM Unit := do
  let slot ← get
  when (env.statement.nodeID = scp.mLocalNode.mNodeID ∧
      env.statement.slotIndex = slot.mSlotIndex) do
    setNominationFromEnvelope env
    when (slot.hasLatestMessage env.statement.nodeID = false) (maybeSetGotVBlocking scp)

end

/-- The calls made to a slot from outside, nomination included. -/
inductive SlotCall where
  | receiveNomination (env : NominationEnvelope)
  | nominate (value previousValue : Value) (timedout : Bool)
  | stopNomination
  | receiveEnvelope (env : BallotEnvelope)
  | bumpState (value : Value) (force : Bool)
  | abandonBallot
  | ballotProtocolTimerExpired

def SlotCall.run (scp : SCP) (fuel : ℕ) : SlotCall → SlotM Unit
  | receiveNomination env => do let _ ← Scp.receiveNomination scp fuel env
  | nominate value previousValue timedout => do
    let _ ← Scp.nominate scp fuel value previousValue timedout
  | stopNomination => Scp.stopNomination
  | receiveEnvelope env => (BallotCall.receiveEnvelope env).run scp
  | bumpState value force => (BallotCall.bumpState value force).run scp
  | abandonBallot => BallotCall.abandonBallot.run scp
  | ballotProtocolTimerExpired => BallotCall.ballotProtocolTimerExpired.run scp

end DigitalBits.Scp
