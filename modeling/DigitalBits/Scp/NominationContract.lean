import DigitalBits.Scp.NominationProtocol

/-!
# A rule for the recursion of the nomination protocol

A call to the nomination protocol votes, accepts and elects values, and makes a
nomination when the votes or the accepted values have changed. A rule names what
holds while the node has nothing new to say (`Idle`) and while it has (`Open`); the
obligations of `NominationRule.Holds` are about single changes, and what they keep
holds when any call returns or fails.
-/
namespace DigitalBits.Scp
open Lib LocalNode

/-! ## Single changes -/

/-- Two states that agree on the values and the nominations. -/
structure NominationProtocol.SameSets (np np' : NominationProtocol) : Prop where
  votes : np'.mVotes = np.mVotes
  accepted : np'.mAccepted = np.mAccepted
  candidates : np'.mCandidates = np.mCandidates
  latest : np'.mLatestNominations = np.mLatestNominations
  last : np'.mLastEnvelope = np.mLastEnvelope

theorem NominationProtocol.SameSets.refl (np : NominationProtocol) : np.SameSets np :=
  ⟨rfl, rfl, rfl, rfl, rfl⟩

/-- Changes after which the node has nothing more to say than before. -/
inductive Quiet (scp : SCP) : Slot → Slot → Prop
  | ballot {s t : Slot} (h : BallotStep scp s t) : Quiet scp s t
  | heard (s : Slot) (env : BallotEnvelope) : Quiet scp s (s.record env)
  | assign (s : Slot) {np : NominationProtocol} (h : s.mNominationProtocol.SameSets np) :
      Quiet scp s (s.withNominationProtocol np)
  | elect (s : Slot) {a : Value} (ha : a ∈ s.mNominationProtocol.mAccepted)
      (hrat : federatedRatifyValue scp s.mNominationProtocol a = true) :
      Quiet scp s (s.withNominationProtocol (s.mNominationProtocol.withCandidate a))

/-- Changes that `processEnvelope` makes a nomination for. -/
inductive Grows (scp : SCP) : Slot → Slot → Prop
  | accept (s : Slot) {v : Value} (hnew : v ∉ s.mNominationProtocol.mAccepted)
      (hacc : federatedAcceptValue scp s.mNominationProtocol v = true) :
      Grows scp s (s.withNominationProtocol (s.mNominationProtocol.withAccepted v))
  | extract (s : Slot) {v w : Value} (hnew : w ∉ s.mNominationProtocol.mVotes)
      (hacc : federatedAcceptValue scp s.mNominationProtocol v = true)
      (hext : scp.mDriver.extractValidValue s.mSlotIndex v = some w) :
      Grows scp s (s.withNominationProtocol (s.mNominationProtocol.withVote w))
  | follow (s : Slot) {v : Value} (hnew : v ∉ s.mNominationProtocol.mVotes)
      (hnone : ∀ a, a ∉ s.mNominationProtocol.mCandidates) :
      Grows scp s (s.withNominationProtocol (s.mNominationProtocol.withVote v))

/-- The envelope `emitNomination` builds. -/
def SCP.ownNomination (scp : SCP) (s : Slot) : NominationEnvelope :=
  scp.signedNomination s.mSlotIndex (s.mNominationProtocol.nomination scp.mLocalNode.mQSetHash)

/-- The slot after the nomination was signed. -/
def Slot.signedNomination (s : Slot) (scp : SCP) : Slot :=
  s.log (.signEnvelope (.nominate (scp.ownNomination s)))

def Slot.recordNomination (s : Slot) (env : NominationEnvelope) : Slot :=
  s.withNominationProtocol (s.mNominationProtocol.record env)

/-- Does the node take a nomination into account. -/
def Slot.AdmitsNomination (s : Slot) (env : NominationEnvelope) : Prop :=
  s.mNominationProtocol.isNewerStatement env.statement.nodeID env.statement.pledges = true ∧
  isNominationSane env.statement.pledges = true

/-- One step of a node within a call. -/
inductive NominationStep (scp : SCP) : Slot → Slot → Prop
  | quiet {s t : Slot} (h : Quiet scp s t) : NominationStep scp s t
  | grow {s t : Slot} (h : Grows scp s t) : NominationStep scp s t
  | propose (s : Slot) (v : Value) :
      NominationStep scp s (s.withNominationProtocol (s.mNominationProtocol.withVote v))
  | record (s : Slot) {env : NominationEnvelope} (h : s.AdmitsNomination env) :
      NominationStep scp s (s.recordNomination env)
  | sign (s : Slot) : NominationStep scp s (s.signedNomination scp)
  | queue (s : Slot) {env : NominationEnvelope}
      (hnewer : ∀ last ∈ s.mNominationProtocol.mLastEnvelope,
        isNewerNomination last.statement.pledges env.statement.pledges = true) :
      NominationStep scp s (s.withNominationProtocol (s.mNominationProtocol.withLastEnvelope env))
  | send (s : Slot) {env : NominationEnvelope}
      (hlast : s.mNominationProtocol.mLastEnvelope = some env) :
      NominationStep scp s (s.log (.emitEnvelope (.nominate env)))

section
variable {scp : SCP} {s t : Slot}

theorem after_nominationProtocol {Q : NominationProtocol → Slot → Prop}
    {E : Failure → Slot → Prop} :
    After nominationProtocol s Q E ↔ Q s.mNominationProtocol s := Iff.rfl

theorem Quiet.notify (scp : SCP) (s : Slot) {e : Event} (he : e.isAudit = false) :
    Quiet scp s (s.log e) :=
  .ballot (.keep (.notify s e he))

/-- The ballot protocol leaves the nominations alone. -/
theorem BallotStep.sameSets (h : BallotStep scp s t) :
    s.mNominationProtocol.SameSets t.mNominationProtocol := by
  cases h with
  | keep h => cases h <;> exact ⟨rfl, rfl, rfl, rfl, rfl⟩
  | sign hpl | record hpl hadm => exact .refl _
  | move hen hm =>
    obtain ⟨evs, -, rfl⟩ := hm
    exact .refl _

end

/-! ## The ballot protocol within -/

/-- The contract that the ballot protocol does not fail as the nomination protocol does. -/
def calmContract (scp : SCP) : Contract scp where
  Ghost := Unit
  At _ _ _ _ := True
  Exit _ _ := True
  Fails _ e _ := e ≠ .badNominationState

section
variable {scp : SCP} {s t : Slot}

theorem checkInvariants_ne_badNomination {bp : BallotProtocol} :
    bp.checkInvariants ≠ .error .badNominationState := by
  intro h
  have hmem := BallotProtocol.checkInvariants_error h
  simp at hmem

theorem calmContract_hand {K : Slot → Prop} (ht : t.mBallotProtocol.Consistent)
    (hK : ∀ u, K u) : (calmContract scp).Hand () K t := by
  refine ⟨(), ⟨?_, ?_, ?_, ?_, ?_, ?_⟩, fun u _ => hK u, fun _ _ h => h⟩
  · rintro e he rfl
    exact checkInvariants_ne_badNomination he
  · intro _ e he
    obtain ⟨pl, hpl⟩ := ht.pledges_ok scp.mLocalNode.mQSetHash
    rw [hpl] at he
    cases he
  · exact fun _ _ _ => trivial
  · intro _ _ _ _
    simp [calmContract]
  · exact fun _ _ _ _ => trivial
  · exact fun _ _ _ _ => trivial

theorem calmContract_bumps (hs : s.mBallotProtocol.Consistent) {K : Slot → Prop}
    (hK : ∀ u, K u) (value : Value) {n : Uint32} (hn : n ≠ 0) :
    (calmContract scp).Bumps () K s value n := by
  intro t hcan hm
  have ht : t.mBallotProtocol.Consistent := by
    rw [hm.mBallotProtocol]
    have hen : Enabled scp s.mBallotProtocol _ := .bump hcan hn
    exact hen.consistent hs
  refine ⟨?_, fun _ => calmContract_hand ht hK⟩
  rintro e he rfl
  exact checkInvariants_ne_badNomination he

theorem calmContract_holds (scp : SCP) :
    (calmContract scp).HoldsGiven fun stage hint s =>
      ∃ g, (stepsContract scp).At stage g hint s where
  keeps_at _ _ _ _ _ _ _ _ := trivial
  keeps_exit _ _ _ _ _ := trivial
  error stage g hint s e hP _ he := by
    obtain ⟨_, hreach, -⟩ := hP
    obtain ⟨a, rfl⟩ := attempted_error hreach.consistent he
    simp [calmContract]
  stay _ _ _ _ _ _ _ := trivial
  move stage g hint s m t hP _ hm ht := by
    obtain ⟨_, hreach, hpend⟩ := hP
    refine calmContract_hand ?_ fun _ => trivial
    rw [ht.mBallotProtocol]
    exact (enabled_of_attempted hreach.consistent hpend hm).consistent hreach.consistent
  bump g hint s value n hP _ _ _ hn := by
    obtain ⟨_, hreach, -⟩ := hP
    exact calmContract_bumps hreach.consistent (fun _ => trivial) value hn
  finish _ _ _ _ _ := trivial
  tooManyTransitions _ _ _ _ _ := by simp [calmContract]
  diverges _ _ _ _ _ := by simp [calmContract]

theorem BallotCall.opens_calmContract (hs : s.mBallotProtocol.Consistent) (call : BallotCall) :
    (calmContract scp).Opens () s call := by
  refine ⟨trivial, ?_, ?_, ?_, ?_, ?_, ?_⟩
  · intro _ _
    simp [calmContract]
  · intro _ _
    simp [calmContract]
  · exact fun _ _ _ _ => trivial
  · exact fun _ _ _ _ => trivial
  · exact fun value n _ hn => calmContract_bumps hs (fun _ => trivial) value hn
  · exact fun _ _ _ => trivial

/-- A call to the ballot protocol is a sequence of steps. -/
theorem BallotCall.calmSteps (hs : s.mBallotProtocol.Consistent) (call : BallotCall) :
    After (call.run scp) s (fun _ t => Reached scp (call.Begins scp s) t)
      fun e t => e ≠ .badNominationState ∧ Reached scp (call.Begins scp s) t := by
  have hholds := Contract.holds_and (stepsContract_holds scp) (calmContract_holds scp)
  have hcalm : (calmContract scp).Opens () s call := call.opens_calmContract hs
  have hopens := (call.opens_stepsContract scp hs).and hcalm
  exact (hholds.after_call hopens).mono (fun _ _ h => h.1) fun _ _ h => ⟨h.2, h.1.2⟩

end

/-! ## The rule -/

/-- `Idle` holds while the node has said what it knows, `Open` while it has something
new to say, `Fails` at a failure. `Hears` are the nominations it may be given and `May`
the candidates with which it may be asked to nominate. -/
structure NominationRule (scp : SCP) where
  Idle : Slot → Prop
  Open : Slot → Prop
  Fails : Failure → Slot → Prop
  Hears : NominationEnvelope → Prop
  May : OrderedSet Value → Prop

namespace NominationRule
variable {scp : SCP} (R : NominationRule scp)

/-- The obligations of a rule. -/
structure Holds : Prop where
  consistent : ∀ s, R.Idle s → s.mBallotProtocol.Consistent
  quiet : ∀ s t, Quiet scp s t → R.Idle s → R.Idle t
  quiet_open : ∀ s t, Quiet scp s t → R.Open s → R.Open t
  grow : ∀ s t, Grows scp s t → R.Idle s ∨ R.Open s → R.Open t
  propose : ∀ s v, R.May s.mNominationProtocol.mCandidates → v ∉ s.mNominationProtocol.mVotes →
    R.Idle s ∨ R.Open s →
    R.Open (s.withNominationProtocol (s.mNominationProtocol.withVote v))
  hear : ∀ s env, R.Hears env → s.AdmitsNomination env → R.Idle s → R.Idle (s.recordNomination env)
  speak : ∀ s, R.Open s → s.AdmitsNomination (scp.ownNomination s) →
    R.Idle ((s.signedNomination scp).recordNomination (scp.ownNomination s))
  bad : ∀ s, R.Open s → ¬ s.AdmitsNomination (scp.ownNomination s) →
    R.Fails .badNominationState (s.signedNomination scp)
  queue : ∀ s s₀, R.Open s₀ → (∀ last ∈ s.mNominationProtocol.mLastEnvelope,
      isNewerNomination last.statement.pledges
        (scp.ownNomination s₀).statement.pledges = true) → R.Idle s →
    R.Idle (s.withNominationProtocol
      (s.mNominationProtocol.withLastEnvelope (scp.ownNomination s₀))) ∧
    R.Idle ((s.withNominationProtocol
      (s.mNominationProtocol.withLastEnvelope (scp.ownNomination s₀))).log
      (.emitEnvelope (.nominate (scp.ownNomination s₀))))
  starved : ∀ s, R.Open s → R.Fails .diverges (s.signedNomination scp)
  fails : ∀ s e, e ≠ .badNominationState → R.Idle s ∨ R.Open s → R.Fails e s

/-- Has the node something new to say. -/
def Flag (b : Bool) (s : Slot) : Prop := if b = true then R.Open s else R.Idle s

variable {R}

theorem Flag.or {b : Bool} {s : Slot} (h : R.Flag b s) : R.Idle s ∨ R.Open s := by
  cases b with
  | false => exact .inl h
  | true => exact .inr h

theorem flag_or_true {b : Bool} {s : Slot} (h : R.Open s) : R.Flag (b || true) s := by
  rwa [Bool.or_true]

namespace Holds
variable {s : Slot} {b : Bool}

theorem quiet_flag (hR : R.Holds) {t : Slot} (h : Quiet scp s t) (hs : R.Flag b s) :
    R.Flag b t := by
  cases b with
  | false => exact hR.quiet s t h hs
  | true => exact hR.quiet_open s t h hs

/-! ### The loops of `processEnvelope` -/

variable {E : Failure → Slot → Prop}

theorem after_promoteVote (hR : R.Holds) (hs : R.Flag b s) (v : Value) :
    After (promoteVote scp v) s (fun b' t => R.Flag (b || b') t) E := by
  have hstay : R.Flag (b || false) s := by
    rwa [Bool.or_false]
  rw [promoteVote, after_bind, after_get]
  simp only
  split_ifs with hacc hvalid
  · rw [after_bind]
    exact flag_or_true (hR.grow s _ (.accept s hacc.1 hacc.2) hs.or)
  · cases hext : scp.mDriver.extractValidValue s.mSlotIndex v with
    | none => exact hstay
    | some w =>
      simp only
      split_ifs with hmem
      · exact hstay
      · rw [after_bind]
        exact flag_or_true (hR.grow s _ (.extract s hmem hacc.2 hext) hs.or)
  · exact hstay

theorem after_promoteVotes (hR : R.Holds) (votes : List Value) (hs : R.Flag b s) :
    After (promoteVotes scp votes) s (fun b' t => R.Flag (b || b') t) E := by
  induction votes generalizing s b with
  | nil =>
    rwa [promoteVotes, after_pure, Bool.or_false]
  | cons v rest ih =>
    refine (hR.after_promoteVote hs v).bind fun b' t ht => ?_
    refine (ih ht).bind fun b'' u hu => ?_
    rwa [after_pure, ← Bool.or_assoc]

theorem after_promoteAllAccepted (hR : R.Holds) (accepted : List Value)
    (hacc : ∀ a ∈ accepted, a ∈ s.mNominationProtocol.mAccepted) (hs : R.Flag b s) :
    After (promoteAllAccepted scp accepted) s (fun _ t => R.Flag b t) E := by
  induction accepted generalizing s with
  | nil => exact hs
  | cons a rest ih =>
    obtain ⟨ha, hrest⟩ := List.forall_mem_cons.mp hacc
    rw [promoteAllAccepted, after_bind, promoteAccepted, after_bind, after_nominationProtocol]
    split_ifs with hrat
    · have hquiet := Quiet.elect s ha hrat.2
      exact (ih (s := s.withNominationProtocol (s.mNominationProtocol.withCandidate a)) hrest
        (hR.quiet_flag hquiet hs)).bind fun _ _ h => h
    · rw [after_pure]
      exact (ih hrest hs).bind fun _ _ h => h

variable {slotIndex : Uint64} {np : NominationProtocol}

/-- What `getNewValueFromNomination` picks is not voted for yet. -/
theorem pickNewValue_yields {values : List Value} {newVote : Option Value} {newHash : Uint64}
    (hnew : ∀ v ∈ newVote, v ∉ np.mVotes) :
    Yields (pickNewValue scp slotIndex np values newVote newHash) (fun o => ∀ v ∈ o, v ∉ np.mVotes)
      (fun e => e = .assertion .previousValueEmpty) := by
  induction values generalizing newVote newHash with
  | nil => exact hnew
  | cons value rest ih =>
    rw [pickNewValue]
    split
    · exact ih hnew
    · simp only [hashValue, yields_ite, yields_bind, yields_error, yields_ok]
      refine ⟨fun _ => ih hnew, fun hmem => ⟨fun _ => trivial, fun _ => ⟨fun _ => ih ?_, ?_⟩⟩⟩
      · simpa using hmem
      · exact fun _ => ih hnew

/-- The rule for `getNewValueFromNomination`. -/
theorem after_getNewValueFromNomination {nom : SCPNomination} {Q : Option Value → Slot → Prop}
    (hfail : E (.assertion .previousValueEmpty) s) (hnone : Q none s)
    (hsome : ∀ v, v ∉ s.mNominationProtocol.mVotes → Q (some v) s) :
    After (getNewValueFromNomination scp nom) s Q E := by
  rw [getNewValueFromNomination, after_bind, after_get, after_ofExcept_iff]
  refine (pickNewValue_yields (by simp)).mono ?_ ?_
  · rintro (_ | v) hv
    · exact hnone
    · exact hsome v (hv v rfl)
  · rintro _ rfl
    exact hfail

theorem after_takeLeaderVote (hR : R.Holds) (hs : R.Flag b s) (nodeID : NodeID)
    (nom : SCPNomination) :
    After (takeLeaderVote scp nodeID nom) s (fun b' t => R.Flag (b || b') t) R.Fails := by
  have hstay : R.Flag (b || false) s := by
    rwa [Bool.or_false]
  rw [takeLeaderVote, after_bind, after_nominationProtocol]
  split_ifs with hlook
  · rw [after_bind]
    refine after_getNewValueFromNomination (hR.fails s _ (by simp) hs.or) hstay fun v hv => ?_
    have hnone := OrderedSet.isEmpty_iff.mp hlook.1
    have hopen := hR.grow s _ (.follow s hv hnone) hs.or
    exact flag_or_true (hR.quiet_open _ _ (Quiet.notify scp _ rfl) hopen)
  · exact hstay

/-! ### Making a nomination -/

/-- `process` keeps the rule on the node's own nominations. -/
def Processes (R : NominationRule scp) (process : NominationEnvelope → SlotM EnvelopeState) :
    Prop :=
  ∀ s, R.Open s → After (process (scp.ownNomination s)) (s.signedNomination scp)
    (fun res t => (res = .valid → R.Idle t) ∧
      (res = .invalid → R.Fails .badNominationState t)) R.Fails

theorem after_emitNomination (hR : R.Holds) {process : NominationEnvelope → SlotM EnvelopeState}
    (hprocess : Processes R process) (hs : R.Open s) :
    After (emitNomination scp process) s (fun _ t => R.Idle t)
      R.Fails := by
  rw [emitNomination, after_bind, after_get]
  simp only
  refine (hprocess s hs).bind ?_
  rintro (_ | _) t ⟨hvalid, hinvalid⟩
  · exact hinvalid rfl
  · have ht := hvalid rfl
    simp only
    rw [after_bind, after_get, after_when]
    refine ⟨fun hnewer => ?_, fun _ => ht⟩
    obtain ⟨hqueued, hsent⟩ := hR.queue t s hs hnewer ht
    rw [after_bind, modifyNomination, after_modify, after_when]
    refine ⟨fun _ => ?_, fun _ => hqueued⟩
    rwa [after_notify]

/-- A call to the ballot protocol from within. -/
theorem after_ballotCall (hR : R.Holds) (hs : R.Idle s) (call : BallotCall)
    (hcall : ∀ np fullyValidated, call ≠ .nomination np fullyValidated) :
    After (call.run scp) s (fun _ t => R.Idle t) R.Fails := by
  have hreach : ∀ t, Reached scp (call.Begins scp s) t → R.Idle t := by
    rintro t ⟨s₀, hs₀, -, hsteps⟩
    have hbegin : R.Idle s₀ := by
      cases call with
      | receiveEnvelope env =>
        rcases hs₀ with rfl | ⟨-, rfl⟩
        · exact hs
        · exact hR.quiet _ _ (.heard s env) hs
      | nomination np fullyValidated => exact absurd rfl (hcall np fullyValidated)
      | bumpState | abandonBallot | ballotProtocolTimerExpired => cases hs₀; exact hs
    exact keeps_of_steps (fun u w hstep hu => hR.quiet u w (.ballot hstep) hu) hsteps hbegin
  refine (call.calmSteps (hR.consistent s hs)).mono (fun _ t ht => hreach t ht) ?_
  rintro e t ⟨hne, ht⟩
  exact hR.fails t e hne (.inl (hreach t ht))

theorem after_updateComposite (hR : R.Holds) (hs : R.Idle s) :
    After (updateComposite scp) s (fun _ t => R.Idle t)
      R.Fails := by
  rw [updateComposite, after_bind, after_get]
  simp only
  rw [after_bind, modifyNomination, after_modify, after_bind]
  have hsame : s.mNominationProtocol.SameSets (s.mNominationProtocol.withComposite
      (scp.mDriver.combineCandidates s.mSlotIndex s.mNominationProtocol.mCandidates)) :=
    ⟨rfl, rfl, rfl, rfl, rfl⟩
  have hset := hR.quiet s _ (.assign s hsame) hs
  cases hcomp : scp.mDriver.combineCandidates s.mSlotIndex s.mNominationProtocol.mCandidates with
  | none =>
    rw [hcomp] at hset
    exact hR.fails _ _ (by simp) (.inl hset)
  | some v =>
    rw [hcomp] at hset
    have hlog := hR.quiet _ _ (Quiet.notify scp _ (e := .updatedCandidateValue v) rfl) hset
    exact hR.after_ballotCall hlog (.bumpState v false) (by simp)

variable {env : NominationEnvelope}

/-- The rule for `processEnvelope`. -/
theorem after_processNomination (hR : R.Holds) {emit : SlotM Unit}
    (hemit : ∀ t, R.Open t → After emit t (fun _ u => R.Idle u) R.Fails)
    {Q : EnvelopeState → Slot → Prop} (hrefuse : ¬ s.AdmitsNomination env → Q .invalid s)
    (hrecord : s.AdmitsNomination env → R.Idle (s.recordNomination env))
    (hQ : ∀ t, R.Idle t → Q .valid t) :
    After (processNomination scp emit env) s Q R.Fails := by
  rw [processNomination, after_bind, after_nominationProtocol]
  by_cases hnewer : s.mNominationProtocol.isNewerStatement env.statement.nodeID
      env.statement.pledges = true
  swap
  · rw [if_pos hnewer]
    exact hrefuse fun h => hnewer h.1
  by_cases hsane : isNominationSane env.statement.pledges = true
  swap
  · rw [if_neg (not_not.mpr hnewer), if_pos hsane]
    exact hrefuse fun h => hsane h.2
  rw [if_neg (not_not.mpr hnewer), if_neg (not_not.mpr hsane)]
  have hrec := hrecord ⟨hnewer, hsane⟩
  rw [after_bind, modifyNomination, after_modify, after_bind, after_when]
  refine ⟨fun _ => ?_, fun _ => hQ _ hrec⟩
  refine (hR.after_promoteVotes (b := false) _ hrec).bind fun modified t ht => ?_
  refine (hR.after_promoteAllAccepted _ (fun _ ha => ha) ht).bind fun newCandidates u hu => ?_
  refine (hR.after_takeLeaderVote hu _ _).bind fun voted w hw => ?_
  rw [Bool.false_or] at hw
  -- what was found new is said before the candidates are combined
  have hsaid : After (when ((modified || voted) = true) emit) w (fun _ x => R.Idle x) R.Fails := by
    rw [after_when]
    refine ⟨fun hnew => hemit w ?_, fun hold => ?_⟩
    · rwa [hnew] at hw
    · rw [Bool.not_eq_true] at hold
      rwa [hold] at hw
  refine hsaid.bind fun _ x hx => ?_
  rw [after_when]
  refine ⟨fun _ => ?_, fun _ => hQ x hx⟩
  exact (hR.after_updateComposite hx).imp fun _ y hy => hQ y hy

theorem after_slotProcessNomination (hR : R.Holds) {emit : SlotM Unit}
    (hemit : ∀ t, R.Open t → After emit t (fun _ u => R.Idle u) R.Fails)
    {Q : EnvelopeState → Slot → Prop}
    (hindex : env.statement.slotIndex ≠ s.mSlotIndex → R.Fails (.assertion .slotIndex) s)
    (hrefuse : ¬ s.AdmitsNomination env → Q .invalid s)
    (hrecord : s.AdmitsNomination env → R.Idle (s.recordNomination env))
    (hQ : ∀ t, R.Idle t → Q .valid t) :
    After (slotProcessNomination scp emit env) s Q R.Fails := by
  rw [slotProcessNomination, after_bind, after_get]
  simp only
  rw [after_bind, after_dbgAssert]
  refine ⟨fun _ => ?_, hindex⟩
  rw [after_bind]
  refine hR.after_processNomination hemit ?_ hrecord ?_
  · intro hadm
    rw [after_bind, after_when_of_not (by simp)]
    exact hrefuse hadm
  · intro t ht
    rw [after_bind, after_when]
    refine ⟨fun _ => after_maybeSetGotVBlocking fun u (hu : Bookkeeping scp t u) => hQ u ?_,
      fun _ => hQ t ht⟩
    exact keeps_of_steps (fun x y hxy hx => hR.quiet x y (.ballot (.keep hxy)) hx) hu ht

theorem processes_receiveNomination (hR : R.Holds) (fuel : ℕ) :
    Processes R (receiveNomination scp fuel) := by
  induction fuel with
  | zero => exact fun s hs => hR.starved s hs
  | succ fuel ih =>
    intro s hs
    refine hR.after_slotProcessNomination (fun t ht => hR.after_emitNomination ih ht)
      (fun hne => absurd rfl hne) ?_ ?_ ?_
    · intro hadm
      exact ⟨by simp, fun _ => hR.bad s hs hadm⟩
    · exact fun hadm => hR.speak s hs hadm
    · intro t ht
      exact ⟨fun _ => ht, by simp⟩

/-- A nomination from outside. -/
theorem after_receiveNomination (hR : R.Holds) (fuel : ℕ) (henv : R.Hears env) (hs : R.Idle s) :
    After (receiveNomination scp fuel env) s (fun _ t => R.Idle t) R.Fails := by
  cases fuel with
  | zero => exact hR.fails s _ (by simp) (.inl hs)
  | succ fuel =>
    exact hR.after_slotProcessNomination
      (fun t ht => hR.after_emitNomination (hR.processes_receiveNomination fuel) ht)
      (fun _ => hR.fails s _ (by simp) (.inl hs)) (fun _ => hs)
      (fun hadm => hR.hear s env henv hadm hs) fun t ht => ht

/-! ### Nominating -/

variable {q : SCPQuorumSet}

/-- Choosing leaders fails by an assertion only. -/
theorem newRoundLeaders_yields : Yields (newRoundLeaders scp slotIndex np q) (fun _ => True)
    (fun e => ∃ a, e = .assertion a) := by
  have hpriority (n : NodeID) : Yields (getNodePriority scp slotIndex np n q) (fun _ => True)
      (fun e => ∃ a, e = .assertion a) := by
    unfold getNodePriority nodeWeight hashNode
    cases getNodeWeight n q <;> simp
  have htop {nodes : List NodeID} {leaders : OrderedSet NodeID} {top : Uint64} :
      Yields (topPriorityNodes scp slotIndex np q nodes leaders top) (fun _ => True)
        (fun e => ∃ a, e = .assertion a) := by
    induction nodes generalizing leaders top with
    | nil => trivial
    | cons n rest ih =>
      rw [topPriorityNodes, yields_bind]
      exact (hpriority n).imp fun _ _ => ih
  rw [newRoundLeaders, yields_bind]
  exact (hpriority _).imp fun _ _ => htop

theorem after_updateRoundLeadersLoop (hR : R.Holds) (q : SCPQuorumSet) (count fuel : ℕ)
    (hs : R.Idle s) :
    After (updateRoundLeadersLoop scp q count fuel) s (fun _ t => R.Idle t ∧
      t.mNominationProtocol.mCandidates = s.mNominationProtocol.mCandidates) R.Fails := by
  induction fuel generalizing s with
  | zero => exact hR.fails s _ (by simp) (.inl hs)
  | succ fuel ih =>
    rw [updateRoundLeadersLoop, after_bind, after_get]
    simp only
    rw [after_when]
    refine ⟨fun _ => ?_, fun _ => ⟨hs, rfl⟩⟩
    rw [after_bind, after_ofExcept_iff]
    refine newRoundLeaders_yields.mono (fun leaders _ => ?_) ?_
    · rw [after_bind, modifyNomination, after_modify, after_when]
      have hsame : s.mNominationProtocol.SameSets (s.mNominationProtocol.withLeaders
          (s.mNominationProtocol.mRoundLeaders.insertAll leaders.toList)) :=
        ⟨rfl, rfl, rfl, rfl, rfl⟩
      have hleaders := hR.quiet s _ (.assign s hsame) hs
      refine ⟨fun _ => ?_, fun _ => ⟨hleaders, rfl⟩⟩
      exact ih (hR.quiet _ _ (.assign _ ⟨rfl, rfl, rfl, rfl, rfl⟩) hleaders)
    · rintro _ ⟨a, rfl⟩
      exact hR.fails s _ (by simp) (.inl hs)

theorem after_voteFor (hR : R.Holds) (hs : R.Flag b s) {v : Value}
    (hmay : R.May s.mNominationProtocol.mCandidates) (hv : v ∉ s.mNominationProtocol.mVotes) :
    After (voteFor v) s (fun _ t => R.Open t ∧
      t.mNominationProtocol.mCandidates = s.mNominationProtocol.mCandidates) R.Fails := by
  exact ⟨hR.quiet_open _ _ (Quiet.notify scp _ rfl) (hR.propose s v hmay hv hs.or), rfl⟩

theorem after_voteAsLeader (hR : R.Holds) (hs : R.Idle s) (value : Value)
    (hmay : R.May s.mNominationProtocol.mCandidates) :
    After (voteAsLeader scp value) s (fun b' t => R.Flag b' t ∧
      t.mNominationProtocol.mCandidates = s.mNominationProtocol.mCandidates) R.Fails := by
  rw [voteAsLeader, after_bind, after_nominationProtocol]
  split_ifs with hlead
  · exact (hR.after_voteFor (b := false) hs hmay hlead.2).bind fun _ t ht => ht
  · exact ⟨hs, rfl⟩

theorem after_voteWithLeader (hR : R.Holds) (leader : NodeID) (hs : R.Flag b s)
    (hmay : R.May s.mNominationProtocol.mCandidates) :
    After (voteWithLeader scp leader) s (fun b' t => R.Flag (b || b') t ∧
      t.mNominationProtocol.mCandidates = s.mNominationProtocol.mCandidates) R.Fails := by
  have hstay : R.Flag (b || false) s := by
    rwa [Bool.or_false]
  rw [voteWithLeader, after_bind, after_nominationProtocol]
  cases s.mNominationProtocol.mLatestNominations.lookup leader with
  | none => exact ⟨hstay, rfl⟩
  | some env =>
    simp only
    rw [after_bind]
    refine after_getNewValueFromNomination (hR.fails s _ (by simp) hs.or) ⟨hstay, rfl⟩
      fun v hv => ?_
    simp only
    refine (hR.after_voteFor hs hmay hv).bind fun _ t ht => ?_
    exact ⟨flag_or_true ht.1, ht.2⟩

theorem after_voteWithLeaders (hR : R.Holds) (leaders : List NodeID) (hs : R.Flag b s)
    (hmay : R.May s.mNominationProtocol.mCandidates) :
    After (voteWithLeaders scp leaders) s (fun b' t => R.Flag (b || b') t) R.Fails := by
  induction leaders generalizing s b with
  | nil =>
    rwa [voteWithLeaders, after_pure, Bool.or_false]
  | cons leader rest ih =>
    refine (hR.after_voteWithLeader leader hs hmay).bind fun b' t ht => ?_
    refine (ih ht.1 (ht.2 ▸ hmay)).bind fun b'' u hu => ?_
    rwa [after_pure, ← Bool.or_assoc]

theorem after_nominate (hR : R.Holds) (fuel : ℕ) (value previousValue : Value) (timedout : Bool)
    (hs : R.Idle s) (hmay : R.May s.mNominationProtocol.mCandidates) :
    After (nominate scp fuel value previousValue timedout) s (fun _ t => R.Idle t) R.Fails := by
  rw [nominate, after_bind, after_nominationProtocol]
  split_ifs
  · exact hs
  rw [after_bind, modifyNomination, after_modify, after_bind, updateRoundLeaders]
  have hsame : s.mNominationProtocol.SameSets
      (s.mNominationProtocol.withStarted previousValue).withNextRound :=
    ⟨rfl, rfl, rfl, rfl, rfl⟩
  have hstart := hR.quiet s _ (.assign s hsame) hs
  refine (hR.after_updateRoundLeadersLoop _ _ fuel hstart).imp ?_
  rintro _ t ⟨ht, hsame⟩
  refine (hR.after_voteAsLeader ht value (hsame ▸ hmay)).bind ?_
  rintro updated u ⟨hu, hsame'⟩
  refine (hR.after_voteWithLeaders _ hu ((hsame'.trans hsame) ▸ hmay)).bind ?_
  intro updated' w hw
  rw [after_bind, after_notify, after_bind, after_when]
  have hlog := hR.quiet_flag (Quiet.notify scp w (e := .setupTimer .nominationTimer
    (some (computeTimeout t.mNominationProtocol.mRoundNumber))) rfl) hw
  refine ⟨fun hnew => ?_, fun hold => ?_⟩
  · rw [hnew] at hlog
    exact (hR.after_emitNomination (hR.processes_receiveNomination fuel) hlog).imp fun _ x hx => hx
  · rw [Bool.not_eq_true] at hold
    rwa [hold] at hlog

/-- A rule holds of every call. -/
theorem after_call (hR : R.Holds) (fuel : ℕ) (call : SlotCall)
    (hhears : ∀ env, call = .receiveNomination env → R.Hears env)
    (hmay : ∀ value previousValue timedout, call = .nominate value previousValue timedout →
      R.May s.mNominationProtocol.mCandidates) (hs : R.Idle s) :
    After (call.run scp fuel) s (fun _ t => R.Idle t) R.Fails := by
  cases call with
  | receiveNomination env =>
    rw [SlotCall.run, after_bind]
    exact hR.after_receiveNomination fuel (hhears env rfl) hs
  | nominate value previousValue timedout =>
    rw [SlotCall.run, after_bind]
    exact hR.after_nominate fuel value previousValue timedout hs (hmay _ _ _ rfl)
  | stopNomination => exact hR.quiet s _ (.assign s ⟨rfl, rfl, rfl, rfl, rfl⟩) hs
  | receiveEnvelope env => exact hR.after_ballotCall hs (.receiveEnvelope env) (by simp)
  | bumpState value force => exact hR.after_ballotCall hs (.bumpState value force) (by simp)
  | abandonBallot => exact hR.after_ballotCall hs .abandonBallot (by simp)
  | ballotProtocolTimerExpired => exact hR.after_ballotCall hs .ballotProtocolTimerExpired (by simp)

end Holds
end NominationRule

end DigitalBits.Scp
