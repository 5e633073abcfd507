import DigitalBits.Lib.Computation
import DigitalBits.Lib.Store
import DigitalBits.Scp.BallotStatement
import DigitalBits.Scp.QuorumSetUtils

/-!
# The state of a slot

The members of `BallotProtocol`, `NominationProtocol` and `Slot`, the driver a
slot calls, and the computations that run on a slot. A failed `dbgAssert`
aborts the process and an exception leaves the slot through the top level call;
both end a run here with the state as it was. Calls to the driver are recorded
in `trace`, newest first, together with the state at each `checkInvariants`.
-/
namespace DigitalBits.Scp
open Lib LocalNode

/-- The functions of `SCPDriver` whose answers the protocol depends on. -/
structure SCPDriver where
  validateValue : Uint64 → Value → Bool → ValidationLevel
  extractValidValue : Uint64 → Value → Option Value
  getQSet : Hash → Option SCPQuorumSet
  signEnvelope : BallotStatement ⊕ NominationStatement → Signature
  combineCandidates : Uint64 → OrderedSet Value → Option Value
  computeHashNode : Uint64 → Value → Bool → ℕ → NodeID → Uint64
  computeValueHash : Uint64 → Value → ℕ → Value → Uint64

def maxTimeoutSeconds : ℕ := 30 * 60

/-- `SCPDriver::computeTimeout`, in seconds. -/
def computeTimeout (roundNumber : ℕ) : ℕ := min roundNumber maxTimeoutSeconds

/-- The local node: its key, its role, its quorum set and the hash of it. -/
structure LocalNode where
  mNodeID : NodeID
  mIsValidator : Bool
  mQSet : SCPQuorumSet
  mQSetHash : Hash

/-- What every slot of a node shares. -/
structure SCP where
  mDriver : SCPDriver
  mLocalNode : LocalNode

inductive SCPPhase where
  | prepare
  | confirm
  | externalize
  deriving DecidableEq, Repr

/-- The members of `BallotProtocol`. Envelope pointers are compared by the
envelope they hold: `mLastEnvelope` is only ever replaced by a newer one. -/
structure BallotProtocol where
  mHeardFromQuorum : Bool
  mPhase : SCPPhase
  mCurrentBallot : Option SCPBallot
  mPrepared : Option SCPBallot
  mPreparedPrime : Option SCPBallot
  mHighBallot : Option SCPBallot
  mCommit : Option SCPBallot
  mLatestEnvelopes : EnvelopeMap BallotPledges
  mValueOverride : Option Value
  mCurrentMessageLevel : ℕ
  mLastEnvelope : Option BallotEnvelope
  mLastEnvelopeEmit : Option BallotEnvelope

/-- The constructor of `BallotProtocol`. -/
def BallotProtocol.new : BallotProtocol where
  mHeardFromQuorum := false
  mPhase := .prepare
  mCurrentBallot := none
  mPrepared := none
  mPreparedPrime := none
  mHighBallot := none
  mCommit := none
  mLatestEnvelopes := ∅
  mValueOverride := none
  mCurrentMessageLevel := 0
  mLastEnvelope := none
  mLastEnvelopeEmit := none

/-- The members of `NominationProtocol`. -/
structure NominationProtocol where
  mRoundNumber : ℕ
  mVotes : OrderedSet Value
  mAccepted : OrderedSet Value
  mCandidates : OrderedSet Value
  mLatestNominations : EnvelopeMap SCPNomination
  mLastEnvelope : Option NominationEnvelope
  mRoundLeaders : OrderedSet NodeID
  mNominationStarted : Bool
  mLatestCompositeCandidate : Option Value
  mPreviousValue : Value

/-- The constructor of `NominationProtocol`. -/
def NominationProtocol.new : NominationProtocol where
  mRoundNumber := 0
  mVotes := ∅
  mAccepted := ∅
  mCandidates := ∅
  mLatestNominations := ∅
  mLastEnvelope := none
  mRoundLeaders := ∅
  mNominationStarted := false
  mLatestCompositeCandidate := none
  mPreviousValue := []

inductive TimerID where
  | nominationTimer
  | ballotProtocolTimer
  deriving DecidableEq, Repr

/-- The calls a slot makes to its driver, and its entries to `checkInvariants`. -/
inductive Event where
  | signEnvelope (e : AnyEnvelope)
  | emitEnvelope (e : AnyEnvelope)
  | setupTimer (timer : TimerID) (timeout : Option ℕ)
  | startedBallotProtocol (b : SCPBallot)
  | acceptedBallotPrepared (b : SCPBallot)
  | confirmedBallotPrepared (b : SCPBallot)
  | acceptedCommit (b : SCPBallot)
  | ballotDidHearFromQuorum (b : SCPBallot)
  | valueExternalized (v : Value)
  | nominatingValue (v : Value)
  | updatedCandidateValue (v : Value)
  | checkInvariants (bp : BallotProtocol)

/-- The members of `Slot` that the protocol reads. -/
structure Slot where
  mSlotIndex : Uint64
  mBallotProtocol : BallotProtocol
  mNominationProtocol : NominationProtocol
  mFullyValidated : Bool
  mGotVBlocking : Bool
  trace : List Event

/-- The constructor of `Slot`. -/
def Slot.new (slotIndex : Uint64) (scp : SCP) : Slot where
  mSlotIndex := slotIndex
  mBallotProtocol := .new
  mNominationProtocol := .new
  mFullyValidated := scp.mLocalNode.mIsValidator
  mGotVBlocking := false
  trace := []

/-- The places at which the slot asserts something about itself. -/
inductive Assertion where
  | slotIndex
  | updateCurrentValue
  | bumpAfterExternalize
  | bumpBackwards
  | acceptPreparedIncompatible
  | clearCommitOutsidePrepare
  | commitAlreadySet
  | currentCounterZero
  | preparedOrder
  | highBallot
  | commit
  | confirmWithoutCommit
  | externalizeWithoutCommit
  | previousValueEmpty
  | nodeWeight
  deriving DecidableEq, Repr

/-- How a call can end without returning. -/
inductive Failure where
  | assertion (a : Assertion)
  | nullDereference
  | badBallotState
  | badNominationState
  | tooManyTransitions
  | alreadyStarted
  | nominationStarted
  | diverges
  deriving DecidableEq, Repr

/-- The text of the exceptions among the failures. -/
def Failure.what : Failure → Option String
  | .badBallotState => some "moved to a bad state (ballot protocol)"
  | .badNominationState => some "moved to a bad state (nomination)"
  | .tooManyTransitions => some "maximum number of transitions reached in advanceSlot"
  | .alreadyStarted => some "Cannot set state after starting ballot protocol"
  | .nominationStarted => some "Cannot set state after nomination is started"
  | _ => none

/-- Computations on a slot. -/
abbrev SlotM := EStateM Failure Slot

/-! ## Building blocks -/

/-- `dbgAssert`. -/
def dbgAssert (cond : Prop) [Decidable cond] (a : Assertion) : SlotM Unit :=
  if cond then pure () else throw (.assertion a)

/-- Reading through a pointer. -/
def deref {α : Type} : Option α → SlotM α
  | some a => pure a
  | none => throw .nullDereference

/-- Runs a computation that only reads. -/
def ofExcept {α : Type} : Except Failure α → SlotM α
  | .ok a => pure a
  | .error e => throw e

def Slot.log (s : Slot) (e : Event) : Slot := { s with trace := e :: s.trace }

/-- A call to the driver. -/
def notify (e : Event) : SlotM Unit := modify (·.log e)

def Slot.withBallot (s : Slot) (bp : BallotProtocol) : Slot := { s with mBallotProtocol := bp }

def ballotProtocol : SlotM BallotProtocol := do return (← get).mBallotProtocol

def modifyBallot (f : BallotProtocol → BallotProtocol) : SlotM Unit :=
  modify fun s => s.withBallot (f s.mBallotProtocol)

section
variable (s : Slot) (bp bp' : BallotProtocol) (e : Event)

@[simp] theorem Slot.log_mBallotProtocol : (s.log e).mBallotProtocol = s.mBallotProtocol := rfl
@[simp] theorem Slot.log_trace : (s.log e).trace = e :: s.trace := rfl
@[simp] theorem Slot.withBallot_mBallotProtocol : (s.withBallot bp).mBallotProtocol = bp := rfl
@[simp] theorem Slot.withBallot_withBallot :
    (s.withBallot bp).withBallot bp' = s.withBallot bp' := rfl

end

section
variable {α : Type} (s : Slot) {Q : α → Slot → Prop} {E : Failure → Slot → Prop}

@[simp] theorem after_dbgAssert (c : Prop) [Decidable c] (a : Assertion)
    {Q : Unit → Slot → Prop} :
    After (dbgAssert c a) s Q E ↔ (c → Q () s) ∧ (¬ c → E (.assertion a) s) := by
  simp [dbgAssert]

theorem after_dbgAssert_of {s : Slot} {c : Prop} [Decidable c] (hc : c) (a : Assertion)
    {Q : Unit → Slot → Prop} : After (dbgAssert c a) s Q E ↔ Q () s := by
  simp [hc]

@[simp] theorem after_deref_some (a : α) : After (deref (some a)) s Q E ↔ Q a s := Iff.rfl

@[simp] theorem after_ofExcept_ok (a : α) : After (ofExcept (.ok a)) s Q E ↔ Q a s := Iff.rfl

@[simp] theorem after_ofExcept_error (e : Failure) :
    After (ofExcept (.error e)) s Q E ↔ E e s := Iff.rfl

theorem after_ofExcept_iff (x : Except Failure α) :
    After (ofExcept x) s Q E ↔ Yields x (fun a => Q a s) (fun e => E e s) := by
  cases x <;> rfl

@[simp] theorem after_notify (e : Event) {Q : Unit → Slot → Prop} :
    After (notify e) s Q E ↔ Q () (s.log e) := Iff.rfl

@[simp] theorem after_ballotProtocol {Q : BallotProtocol → Slot → Prop} :
    After ballotProtocol s Q E ↔ Q s.mBallotProtocol s := Iff.rfl

@[simp] theorem after_modifyBallot (f : BallotProtocol → BallotProtocol)
    {Q : Unit → Slot → Prop} :
    After (modifyBallot f) s Q E ↔ Q () (s.withBallot (f s.mBallotProtocol)) := Iff.rfl

end

/-! ## Federated voting -/

/-- `Slot::getQuorumSetFromStatement` on a ballot statement. A node that has
externalized answers for itself only. -/
def getQuorumSetFromStatement (driver : SCPDriver) (st : BallotStatement) :
    Option SCPQuorumSet :=
  match st.pledges with
  | .externalize _ => some (buildSingletonQSet st.nodeID)
  | .prepare p => driver.getQSet p.quorumSetHash
  | .confirm c => driver.getQSet c.quorumSetHash

/-- `Slot::getCompanionQuorumSetHashFromStatement`. -/
def BallotPledges.quorumSetHash : BallotPledges → Hash
  | .prepare p => p.quorumSetHash
  | .confirm c => c.quorumSetHash
  | .externalize e => e.commitQuorumSetHash

section
variable {π : Type} (scp : SCP) (qfun : SCPStatement π → Option SCPQuorumSet)

/-- `Slot::federatedAccept`. -/
def SCP.federatedAccept (voted accepted : SCPStatement π → Bool) (envs : EnvelopeMap π) : Bool :=
  isVBlocking scp.mLocalNode.mQSet envs accepted ||
  isQuorum scp.mLocalNode.mQSet envs qfun fun st => accepted st || voted st

/-- `Slot::federatedRatify`. -/
def SCP.federatedRatify (voted : SCPStatement π → Bool) (envs : EnvelopeMap π) : Bool :=
  isQuorum scp.mLocalNode.mQSet envs qfun voted

end

end DigitalBits.Scp
