import DigitalBits.Scp.BallotStep

/-!
# Runs of one ballot protocol

A run is a sequence of calls from outside: envelopes, requests to bump and
timers, with the nomination protocol free to change its own part of the slot in
between. The driver answers as it likes and may change its mind from one call to
the next. In every such run the members of the ballot protocol stay consistent.
-/
namespace DigitalBits.Scp
open Lib LocalNode

/-- The calls made to the ballot protocol of a slot. -/
inductive BallotCall where
  | receiveEnvelope (env : BallotEnvelope)
  | bumpState (value : Value) (force : Bool)
  | abandonBallot
  | ballotProtocolTimerExpired
  -- what the nomination protocol does to the slot between two calls
  | nomination (np : NominationProtocol) (fullyValidated : Bool)

/-- The slot after the nomination protocol has run. -/
def Slot.withNomination (s : Slot) (np : NominationProtocol) (fullyValidated : Bool) : Slot :=
  { s with mNominationProtocol := np, mFullyValidated := fullyValidated }

namespace BallotCall

def run (scp : SCP) : BallotCall → SlotM Unit
  | receiveEnvelope env => do let _ ← Scp.receiveEnvelope scp env
  | bumpState value force => do let _ ← Scp.bumpState scp value force
  | abandonBallot => do let _ ← Scp.abandonBallot scp
  | ballotProtocolTimerExpired => Scp.ballotProtocolTimerExpired scp
  | nomination np fullyValidated => modify (·.withNomination np fullyValidated)

/-- The values with which a call may bump the ballot. -/
def Proposes (s : Slot) : BallotCall → Value → Prop
  | bumpState value _, v => v = value
  | abandonBallot, v => s.abandonValue = some v
  | ballotProtocolTimerExpired, v => s.abandonValue = some v
  | _, _ => False

end BallotCall

/-- What has to be shown of the beginning of a call. -/
structure Contract.Opens {scp : SCP} (C : Contract scp) (g : C.Ghost) (s : Slot)
    (call : BallotCall) : Prop where
  idle : C.Exit g s
  refused : ∀ site ∈ [.slotIndex, .updateCurrentValue], C.Fails g (.assertion site) s
  null : s.mBallotProtocol.mPhase = .externalize → s.mBallotProtocol.mCommit = none →
    C.Fails g .nullDereference s
  record : ∀ env, call = .receiveEnvelope env → Admits scp s env.statement false →
    s.mBallotProtocol.mPhase ≠ .externalize → C.At .entered g env.statement (s.record env)
  recordFinal : ∀ env, call = .receiveEnvelope env → Admits scp s env.statement false →
    s.mBallotProtocol.mPhase = .externalize → C.Exit g (s.record env)
  bump : ∀ value n, call.Proposes s value → n ≠ 0 → C.Bumps g (C.Exit g) s value n
  nomination : ∀ np fullyValidated, call = .nomination np fullyValidated →
    C.Exit g (s.withNomination np fullyValidated)

variable {scp : SCP} {s : Slot} {call : BallotCall}

theorem Contract.Opens.and {C D : Contract scp} {g : C.Ghost} {g' : D.Ghost} (h : C.Opens g s call)
    (h' : D.Opens g' s call) :
    (C.and D).Opens (g, g') s call where
  idle := ⟨h.idle, h'.idle⟩
  refused site hsite := ⟨h.refused site hsite, h'.refused site hsite⟩
  null hext hc := ⟨h.null hext hc, h'.null hext hc⟩
  record env henv hadm hphase := ⟨h.record env henv hadm hphase, h'.record env henv hadm hphase⟩
  recordFinal env henv hadm hphase :=
    ⟨h.recordFinal env henv hadm hphase, h'.recordFinal env henv hadm hphase⟩
  bump value n hv hn := Contract.bumps_and (h.bump value n hv hn) (h'.bump value n hv hn)
  nomination np fullyValidated hcall :=
    ⟨h.nomination np fullyValidated hcall, h'.nomination np fullyValidated hcall⟩

/-- A contract holds of every call. -/
theorem Contract.Holds.after_call {C : Contract scp} (hC : C.Holds) {g : C.Ghost}
    (h : C.Opens g s call) :
    After (call.run scp) s (fun _ t => C.Exit g t) (C.Fails g) := by
  have habandon : (∀ value n, s.abandonValue = some value → n ≠ 0 →
      C.Bumps g (C.Exit g) s value n) →
      After (abandonBallot scp) s (fun _ t => C.Exit g t) (C.Fails g) := fun hbump =>
    hC.after_abandonBallot (fun _ _ _ => h.refused _ (by simp)) h.idle
      fun value n hv _ hn => hbump value n hv hn
  cases call with
  | receiveEnvelope env =>
    rw [BallotCall.run, after_bind]
    exact hC.after_receiveEnvelope (fun _ => h.refused _ (by simp)) h.idle (h.record env rfl) h.null
      fun hadm hphase _ _ _ => h.recordFinal env rfl hadm hphase
  | bumpState value force =>
    rw [BallotCall.run, after_bind]
    exact hC.after_bumpState (fun _ _ _ => h.refused _ (by simp)) h.idle
      fun n hn => h.bump value n rfl hn
  | abandonBallot =>
    rw [BallotCall.run, after_bind]
    exact habandon h.bump
  | ballotProtocolTimerExpired =>
    rw [BallotCall.run, ballotProtocolTimerExpired, after_bind]
    exact habandon h.bump
  | nomination np fullyValidated => exact h.nomination np fullyValidated rfl

namespace BallotCall

/-- The slots from which the steps of a call may start. -/
def Begins (scp : SCP) (s : Slot) : BallotCall → Slot → Prop
  | receiveEnvelope env, s₀ => s₀ = s ∨ Admits scp s env.statement false ∧ s₀ = s.record env
  | nomination np fullyValidated, s₀ => s₀ = s ∨ s₀ = s.withNomination np fullyValidated
  | _, s₀ => s₀ = s

theorem begins_self (scp : SCP) (s : Slot) (call : BallotCall) : call.Begins scp s s := by
  cases call with
  | receiveEnvelope env | nomination np fullyValidated => exact .inl rfl
  | bumpState | abandonBallot | ballotProtocolTimerExpired => rfl

/-- The steps start from the slot itself, with an envelope recorded or with another
nomination. -/
theorem Begins.elim {scp : SCP} {s s₀ : Slot} {call : BallotCall} {P : Slot → Prop}
    (h : call.Begins scp s s₀) (hself : P s)
    (hrecord : ∀ env, call = .receiveEnvelope env → Admits scp s env.statement false →
      P (s.record env))
    (hnominate : ∀ np fullyValidated, P (s.withNomination np fullyValidated)) : P s₀ := by
  cases call with
  | receiveEnvelope env =>
    rcases h with rfl | ⟨hadm, rfl⟩
    · exact hself
    · exact hrecord env rfl hadm
  | nomination np fullyValidated =>
    rcases h with rfl | rfl
    · exact hself
    · exact hnominate np fullyValidated
  | bumpState | abandonBallot | ballotProtocolTimerExpired => exact h ▸ hself

/-- A call is a sequence of steps, whether it returns or fails. -/
theorem opens_stepsContract (scp : SCP) {s : Slot} (hs : s.mBallotProtocol.Consistent)
    (call : BallotCall) : (stepsContract scp).Opens (call.Begins scp s) s call := by
  have hidle : Reached scp (call.Begins scp s) s := ⟨s, call.begins_self scp s, hs, .refl⟩
  have hrec : ∀ env, call = .receiveEnvelope env → Admits scp s env.statement false →
      Reached scp (call.Begins scp s) (s.record env) := by
    rintro env rfl hadm
    exact ⟨_, .inr ⟨hadm, rfl⟩, hs.record env, .refl⟩
  refine ⟨hidle, fun _ _ => ⟨by simp, hidle⟩, ?_, ?_, ?_, ?_, ?_⟩
  · exact fun hext hc => absurd hc (hs.later (by simp [hext])).1
  · exact fun env henv hadm _ => ⟨hrec env henv hadm, BallotProtocol.recorded_record _ _⟩
  · exact fun env henv hadm _ => hrec env henv hadm
  · exact fun value n _ hn => stepsContract_bumps hidle (fun _ hu => hu) value hn
  · rintro np fullyValidated rfl
    exact ⟨_, .inr rfl, hs, .refl⟩

theorem steps {scp : SCP} {s : Slot} (hs : s.mBallotProtocol.Consistent) (call : BallotCall) :
    After (call.run scp) s (fun _ t => Reached scp (call.Begins scp s) t)
      fun e t => e ≠ .nullDereference ∧ Reached scp (call.Begins scp s) t :=
  (stepsContract_holds scp).after_call (call.opens_stepsContract scp hs)

end BallotCall

/-- The slots a run can leave between two calls. -/
inductive Reachable (slotIndex : Uint64) : Slot → Prop
  | new (scp : SCP) : Reachable slotIndex (Slot.new slotIndex scp)
  | call {s t : Slot} (hs : Reachable slotIndex s) (scp : SCP) (call : BallotCall)
      (ht : call.run scp s = .ok () t) : Reachable slotIndex t

/-- From one call to the next the driver forgets no quorum set of a recorded statement. -/
def SCP.Recalls (scp scp' : SCP) (bp : BallotProtocol) : Prop :=
  ∀ n e, bp.mLatestEnvelopes.lookup n = some e → ∀ q,
    getQuorumSetFromStatement scp.mDriver e.statement = some q →
      getQuorumSetFromStatement scp'.mDriver e.statement = some q

/-- A driver that accepts every value and knows quorum sets by the ids of their owners. -/
def plainDriver (qSet : NodeID → SCPQuorumSet) : SCPDriver where
  validateValue _ _ _ := .kFullyValidatedValue
  extractValidValue _ _ := none
  getQSet hash := some (qSet hash)
  signEnvelope _ := []
  combineCandidates _ _ := none
  computeHashNode _ _ _ _ _ := 0
  computeValueHash _ _ _ _ := 0

def plainNode (qSet : NodeID → SCPQuorumSet) (v : NodeID) : SCP :=
  ⟨plainDriver qSet, ⟨v, true, qSet v, v⟩⟩

/-! ## The invariant of the ballot state -/

/-- What the comments of `checkInvariants` promise of the members, whatever the
assertions there check. -/
structure BallotProtocol.StateInvariant (bp : BallotProtocol) : Prop where
  prepared : ∀ p ∈ bp.mPrepared, ∀ p' ∈ bp.mPreparedPrime, p' < p ∧ p'.value ≠ p.value
  high : ∀ h ∈ bp.mHighBallot, ∃ b ∈ bp.mCurrentBallot, h ≤ b ∧ h.value = b.value
  commit : ∀ c ∈ bp.mCommit, ∃ h ∈ bp.mHighBallot, c ≤ h ∧ c.value = h.value
  later : bp.mPhase = .confirm ∨ bp.mPhase = .externalize →
    bp.mCommit.isSome ∧ bp.mHighBallot.isSome ∧ bp.mPrepared.isSome

theorem BallotProtocol.Consistent.stateInvariant {bp : BallotProtocol} (h : bp.Consistent) :
    bp.StateInvariant where
  prepared := h.prepared
  high := h.high
  commit := h.commit
  later hphase := by
    have hne : bp.mPhase ≠ .prepare := by rcases hphase with h | h <;> simp [h]
    obtain ⟨b, p, hb, c, -, hp, hh, hc, -⟩ := h.exists_of_later hne
    simp [hp, hh, hc]

/-- The state held at every entry to `checkInvariants`. -/
def Slot.Checked (s : Slot) : Prop :=
  ∀ bp, .checkInvariants bp ∈ s.trace → bp.StateInvariant

theorem Slot.Checked.log (h : s.Checked) {e : Event}
    (he : ∀ bp, e = .checkInvariants bp → bp.StateInvariant) : (s.log e).Checked := by
  intro bp hbp
  rcases List.mem_cons.mp hbp with hbp | hbp
  · exact he bp hbp.symm
  · exact h bp hbp

variable {t : Slot}

theorem Bookkeep.checked (h : Bookkeep scp s t) (hs : s.mBallotProtocol.Consistent) (hc : s.Checked) :
    t.Checked := by
  cases h with
  | notify e he =>
    refine hc.log ?_
    rintro bp rfl
    cases he
  | check => exact hc.log fun bp hbp => by cases hbp; exact hs.stateInvariant
  | send last hlast hnew => exact Slot.Checked.log (s := s.withBallot _) hc (by simp)
  | heard | level | unvalidated | gotVBlocking | stopNomination | remember | queue => exact hc

theorem Slot.Checked.signed (h : s.Checked) (hs : s.mBallotProtocol.Consistent)
    (env : BallotEnvelope) : (s.signed env).Checked :=
  (h.log fun bp hbp => by cases hbp; exact hs.stateInvariant).log (by simp)

theorem BallotStep.checked (h : BallotStep scp s t) (hs : s.mBallotProtocol.Consistent)
    (hc : s.Checked) : t.Checked := by
  cases h with
  | keep h => exact h.checked hs hc
  | sign hpl | record hpl hadm => exact hc.signed hs _
  | move hen hm =>
    obtain ⟨evs, hevs, rfl⟩ := hm
    intro bp hbp
    rcases List.mem_append.mp hbp with hbp | hbp
    · exact absurd (hevs _ hbp) (by simp [Event.isAudit])
    · exact hc bp hbp

/-- Consistent now and at every earlier check. -/
def Slot.Sound (s : Slot) : Prop := s.mBallotProtocol.Consistent ∧ s.Checked

theorem Reached.sound {g : Slot → Prop} (hg : ∀ s, g s → s.Sound) (h : Reached scp g t) :
    t.Sound := by
  obtain ⟨s, hs, -, hsteps⟩ := h
  exact keeps_of_steps (P := Slot.Sound) (fun _ _ h hs => ⟨h.consistent hs.1, h.checked hs.1 hs.2⟩)
    hsteps (hg s hs)

theorem BallotCall.Begins.sound (hs : s.Sound) {s₀ : Slot} (h : call.Begins scp s s₀) :
    s₀.Sound :=
  h.elim hs (fun env _ _ => ⟨hs.1.record env, hs.2⟩) fun _ _ => hs

theorem BallotCall.sound (hs : s.Sound) (call : BallotCall) :
    After (call.run scp) s (fun _ t => t.Sound) fun e t => e ≠ .nullDereference ∧ t.Sound :=
  (call.steps hs.1).mono (fun _ _ ht => ht.sound fun _ => Begins.sound hs)
    fun _ _ he => ⟨he.1, he.2.sound fun _ => Begins.sound hs⟩

theorem Reachable.sound {slotIndex : Uint64} (h : Reachable slotIndex s) : s.Sound := by
  induction h with
  | new scp => exact ⟨BallotProtocol.new_consistent, by simp [Slot.Checked, Slot.new]⟩
  | call hs scp call ht ih => exact (call.sound ih).of_ok ht

/-- In every run, at every check and after every call, the ballots satisfy the
invariant, and no call reads through a null ballot. -/
theorem ballot_state_invariant {slotIndex : Uint64} {s : Slot} (hs : Reachable slotIndex s)
    (scp : SCP) (call : BallotCall) :
    After (call.run scp) s (fun _ t => t.mBallotProtocol.StateInvariant ∧ t.Checked)
      fun e t => e ≠ .nullDereference ∧ t.mBallotProtocol.StateInvariant ∧ t.Checked :=
  (call.sound hs.sound).mono (fun _ _ ht => ⟨ht.1.stateInvariant, ht.2⟩)
    fun _ _ he => ⟨he.1, he.2.1.stateInvariant, he.2.2⟩

/-- A node that trusts only itself. -/
def solo : SCP := plainNode (fun _ => .mk 1 [0] []) 0

/-- It externalizes the value it is given. -/
theorem ballot_state_invariant_solo :
    (finalState (BallotCall.run solo (.bumpState [1] true))
      (Slot.new 1 solo)).mBallotProtocol.mPhase = .externalize ∧
    After (BallotCall.run solo (.bumpState [1] true)) (Slot.new 1 solo)
      (fun _ t => t.mBallotProtocol.StateInvariant ∧ t.Checked)
      fun e t => e ≠ .nullDereference ∧ t.mBallotProtocol.StateInvariant ∧ t.Checked := by
  have hs : Reachable 1 (Slot.new 1 solo) := .new solo
  refine ⟨by decide +kernel, ?_⟩
  generalize BallotCall.bumpState [1] true = call
  exact ballot_state_invariant hs solo call

end DigitalBits.Scp
