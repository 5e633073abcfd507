import DigitalBits.Scp.BallotRun

/-!
# Nodes that talk to each other

A network is a set of nodes of which some are ill-behaved. In a run the correct
ones execute calls on one slot, one call at a time and in any order. An envelope
is authentic: its sender is ill-behaved, or has signed it on this slot. Nothing is
said about which envelopes are delivered, when, or how often.
-/
namespace DigitalBits.Scp
open Lib LocalNode List Slot

/-- `S` contains a slice of the quorum set. -/
def SCPQuorumSet.SatisfiedBy (q : SCPQuorumSet) (S : Set NodeID) : Prop :=
  ∃ slice : List NodeID, (∀ n ∈ slice, n ∈ S) ∧ isQuorumSlice q slice = true

theorem SCPQuorumSet.SatisfiedBy.mono {q : SCPQuorumSet} {S T : Set NodeID}
    (h : q.SatisfiedBy S) (hST : ∀ n ∈ S, n ∈ T) : q.SatisfiedBy T := by
  obtain ⟨slice, hmem, hslice⟩ := h
  exact ⟨slice, fun n hn => hST n (hmem n hn), hslice⟩

/-- Where all validators are needed, `S` contains them all. -/
theorem SCPQuorumSet.satisfiedBy_unanimous {t : Uint32} {v : List NodeID} (ht : t.val = v.length)
    (hpos : t ≠ 0) {S : Set NodeID} :
    (SCPQuorumSet.mk t v []).SatisfiedBy S ↔ ∀ n ∈ v, n ∈ S := by
  constructor
  · rintro ⟨slice, hmem, hslice⟩
    rw [isQuorumSlice, isQuorumSliceInternal_iff, hitsNeeded, if_neg hpos, ht,
      countP_nil] at hslice
    have hall : v.countP (fun n => decide (n ∈ slice)) = v.length :=
      le_antisymm countP_le_length hslice
    rw [countP_eq_length] at hall
    exact fun n hn => hmem n (by simpa using hall n hn)
  · intro h
    have hall : v.countP (fun n => decide (n ∈ v)) = v.length := by
      simp
    refine ⟨v, h, ?_⟩
    rw [isQuorumSlice, isQuorumSliceInternal_iff, hitsNeeded, if_neg hpos, ht, hall]
    exact Nat.le_add_right _ _

/-- Nodes, the ill-behaved ones among all senders, and how the nodes are set up. -/
structure Network where
  nodes : Set NodeID
  faulty : Set NodeID
  node : NodeID → LocalNode
  node_id : ∀ v, (node v).mNodeID = v
  sane : ∀ v ∈ nodes, v ∉ faulty → isQuorumSetSane (node v).mQSet false = true

namespace Network
variable (N : Network)

/-- The nodes outside the ill-behaved set. -/
def correct : Set NodeID := {v | v ∈ N.nodes ∧ v ∉ N.faulty}

/-- Together with the ill-behaved nodes, `U` contains a slice of each of its members. -/
def Closed (U : Set NodeID) : Prop := ∀ v ∈ U, (N.node v).mQSet.SatisfiedBy (U ∪ N.faulty)

/-- The non-empty closed sets of correct nodes. -/
def quorums : Set (Set NodeID) := {U | (∀ v ∈ U, v ∈ N.correct) ∧ U.Nonempty ∧ N.Closed U}

/-- The fault hypothesis: the correct nodes keep availability and quorum
intersection despite the ill-behaved ones. -/
structure Dispensable : Prop where
  available : ∀ v ∈ N.correct, (N.node v).mQSet.SatisfiedBy {n | n ∉ N.faulty}
  intersect : ∀ U ∈ N.quorums, ∀ U' ∈ N.quorums, ∃ w ∈ U, w ∈ U'

/-- Ill-behaved nodes alone form a slice of `v`. -/
def Captured (v : NodeID) : Prop := (N.node v).mQSet.SatisfiedBy N.faulty

/-- The driver of node `v` at some time: it knows the quorum set of a correct node
by its hash, if it knows any set by that hash. -/
structure Serves (v : NodeID) (scp : SCP) : Prop where
  node : scp.mLocalNode = N.node v
  getQSet : ∀ w ∈ N.correct, ∀ q,
    scp.mDriver.getQSet (N.node w).mQSetHash = some q → q = (N.node w).mQSet

end Network

/-- The ballot envelopes a slot has signed. -/
def Slot.signedEnvelopes (s : Slot) : List BallotEnvelope :=
  s.trace.filterMap fun
    | .signEnvelope (.ballot env) => some env
    | _ => none

namespace Network
variable (N : Network)

def Authentic (σ : NodeID → Slot) (env : BallotEnvelope) : Prop :=
  env.statement.nodeID ∈ N.faulty ∨
  env.statement.nodeID ∈ N.correct ∧ env ∈ (σ env.statement.nodeID).signedEnvelopes

/-- The calls that can happen: only authentic envelopes are received. -/
def Permits (σ : NodeID → Slot) : BallotCall → Prop
  | .receiveEnvelope env => N.Authentic σ env
  | _ => True

/-- The states of the nodes in a run in which every call satisfies `ok`: now, and
after each of the calls before. A call that fails ends like one that returns: nothing
below needs a failed node to stop. -/
inductive Runs (slotIndex : Uint64) (ok : BallotCall → Prop) :
    (NodeID → Slot) → List (NodeID → Slot) → Prop
  | start (scp : NodeID → SCP) : Runs slotIndex ok (fun v => new slotIndex (scp v)) []
  | call {σ : NodeID → Slot} {past : List (NodeID → Slot)} {v : NodeID} {t : Slot}
      (hσ : Runs slotIndex ok σ past) (hv : v ∈ N.correct) (scp : SCP) (hscp : N.Serves v scp)
      (call : BallotCall) (hcall : N.Permits σ call) (hok : ok call)
      (ht : Ends (call.run scp) (σ v) t) :
      Runs slotIndex ok (Function.update σ v t) (σ :: past)

/-- The extra checks of a quorum set exclude that its node is captured. -/
theorem Dispensable.not_captured {N : Network} (hN : N.Dispensable) {v : NodeID}
    (hv : v ∈ N.correct) (h : isQuorumSetSane (N.node v).mQSet true = true) : ¬ N.Captured v := by
  rintro ⟨s, hs, hslice⟩
  obtain ⟨t, ht, hslice'⟩ := hN.available v hv
  obtain ⟨n, hns, hnt⟩ := slices_meet_of_isQuorumSetSane h hslice hslice'
  exact ht n hnt (hs n hns)

end Network

/-! ## Schedules -/

/-- An item of a schedule: `v` executes a call, or receives the last envelope of `w`. -/
inductive Action where
  | execute (v : NodeID) (call : BallotCall)
  | relay (w v : NodeID)

/-- The call an action stands for, if there is an envelope to relay. -/
def Action.next (σ : NodeID → Slot) : Action → Option (NodeID × BallotCall)
  | .execute v call => some (v, call)
  | .relay w v =>
    ((σ w).signedEnvelopes.find? fun env => decide (env.statement.nodeID = w)).map
      fun env => (v, .receiveEnvelope env)

/-- The states of the nodes now and before, after a schedule. -/
def replay (scp : NodeID → SCP) (slotIndex : Uint64) (schedule : List Action) :
    (NodeID → Slot) × List (NodeID → Slot) :=
  schedule.foldl (fun (σ, past) action =>
    match action.next σ with
    | none => (σ, past)
    | some (v, call) => (Function.update σ v (finalState (call.run (scp v)) (σ v)), σ :: past))
    (fun v => new slotIndex (scp v), [])

namespace Network
variable (N : Network)

/-- Correct nodes relay, and receive anything from ill-behaved nodes. -/
def Allows : Action → Prop
  | .execute v (.receiveEnvelope env) => v ∈ N.correct ∧ env.statement.nodeID ∈ N.faulty
  | .execute v _ => v ∈ N.correct
  | .relay w v => w ∈ N.correct ∧ v ∈ N.correct

variable {N}

theorem Allows.permits {σ : NodeID → Slot} {action : Action} (h : N.Allows action) {v : NodeID}
    {call : BallotCall} (hnext : action.next σ = some (v, call)) :
    v ∈ N.correct ∧ N.Permits σ call := by
  cases action with
  | execute v' call' =>
    cases hnext
    cases call with
    | receiveEnvelope env => exact ⟨h.1, .inl h.2⟩
    | bumpState | abandonBallot | ballotProtocolTimerExpired | nomination => exact ⟨h, trivial⟩
  | relay w v' =>
    obtain ⟨env, henv, heq⟩ := Option.map_eq_some_iff.mp hnext
    cases heq
    have hid : env.statement.nodeID = w := by simpa using find?_some henv
    refine ⟨h.2, .inr ⟨hid ▸ h.1, ?_⟩⟩
    rw [hid]
    exact mem_of_find?_eq_some henv

/-- A schedule of allowed actions is a run. -/
theorem replay_runs {scp : NodeID → SCP} (hscp : ∀ v ∈ N.correct, N.Serves v (scp v))
    (slotIndex : Uint64) {schedule : List Action} (h : ∀ action ∈ schedule, N.Allows action) :
    N.Runs slotIndex (fun _ => True) (replay scp slotIndex schedule).1
      (replay scp slotIndex schedule).2 := by
  induction schedule using reverseRecOn with
  | nil => exact .start scp
  | append_singleton schedule action ih =>
    have hrun := ih fun a ha => h a (mem_append_left _ ha)
    have hallow := h action (mem_append_right _ (mem_singleton_self action))
    unfold replay at hrun ⊢
    rw [foldl_append]
    simp only [foldl_cons, foldl_nil]
    split
    · exact hrun
    · rename_i v call hnext
      obtain ⟨hv, hperm⟩ := hallow.permits hnext
      exact .call hrun hv (scp v) (hscp v hv) call hperm trivial (ends_finalState _ _)

end Network

/-- The network of nodes with a plain driver. -/
def plainNetwork (nodes faulty : List NodeID) (qSet : NodeID → SCPQuorumSet)
    (hsane : nodes.all (fun v => isQuorumSetSane (qSet v) false) = true) : Network where
  nodes := {v | v ∈ nodes}
  faulty := {v | v ∈ faulty}
  node v := (plainNode qSet v).mLocalNode
  node_id _ := rfl
  sane v hv _ := all_eq_true.mp hsane v hv

theorem plainNetwork_serves {nodes faulty : List NodeID} {qSet : NodeID → SCPQuorumSet}
    {hsane : nodes.all (fun v => isQuorumSetSane (qSet v) false) = true} (v : NodeID) :
    (plainNetwork nodes faulty qSet hsane).Serves v (plainNode qSet v) where
  node := rfl
  getQSet _ _ _ h := (Option.some.inj h).symm

/-- The ballots a slot is known to have held: those it has now, and those it had at the
calls of `checkInvariants`. -/
def Slot.Held (s : Slot) (bp : BallotProtocol) : Prop :=
  bp = s.mBallotProtocol ∨ .checkInvariants bp ∈ s.trace

/-- Node `v` has the ballots `bp` now or has had them before. -/
def EverHeld (σ : NodeID → Slot) (past : List (NodeID → Slot)) (v : NodeID)
    (bp : BallotProtocol) : Prop := ∃ τ ∈ σ :: past, (τ v).Held bp

/-! ## What a node hears -/

/-- A property of the network, as ghost data: what the statements of correct nodes
claim, what is known of their ballots now and of the ballots they held. -/
structure Network.Invariant (N : Network) where
  Ghost : Type
  Claim : Ghost → NodeID → BallotPledges → Prop
  State : Ghost → NodeID → BallotProtocol → Prop
  Held : Ghost → NodeID → BallotProtocol → Prop

namespace Network.Invariant
variable {N : Network} (I : N.Invariant)

/-- The recorded statements of correct nodes are claims they have made. -/
def Heard (g : I.Ghost) (bp : BallotProtocol) : Prop :=
  ∀ n env, bp.mLatestEnvelopes.lookup n = some env → env.statement.nodeID = n ∧
    (n ∈ N.faulty ∨ n ∈ N.correct ∧
      env.statement.pledges.quorumSetHash = (N.node n).mQSetHash ∧
      I.Claim g n env.statement.pledges)

/-- What holds of the slot of one node. -/
structure NodeOk (g : I.Ghost) (v : NodeID) (s : Slot) : Prop where
  consistent : s.mBallotProtocol.Consistent
  state : I.State g v s.mBallotProtocol
  heard : I.Heard g s.mBallotProtocol
  signed : ∀ env ∈ s.signedEnvelopes, env.statement.nodeID = v ∧
    env.statement.pledges.quorumSetHash = (N.node v).mQSetHash ∧
    I.Claim g v env.statement.pledges
  held : ∀ bp, .checkInvariants bp ∈ s.trace → bp.Consistent ∧ I.Held g v bp

/-- What the change of the ghost data by a step of `v` leaves to the others. -/
structure Grows (v : NodeID) (g g' : I.Ghost) : Prop where
  claim : ∀ w pl, I.Claim g w pl → I.Claim g' w pl
  held : ∀ w bp, I.Held g w bp → I.Held g' w bp
  state : ∀ w ∈ N.correct, w ≠ v → ∀ bp, I.State g w bp → I.State g' w bp

/-- The obligations of an invariant. -/
structure Holds : Prop where
  start : ∃ g, ∀ v ∈ N.correct, I.State g v .new
  congr : ∀ g v bp bp', bp.SameVotes bp' → I.State g v bp → I.State g v bp'
  claim : ∀ g v bp hash pl, I.State g v bp → bp.Consistent →
    bp.pledges hash bp.mPhase.statementType = .ok pl → I.Claim g v pl
  held : ∀ g v bp, I.State g v bp → I.Held g v bp
  move : ∀ g v bp scp m, v ∈ N.correct → N.Serves v scp → bp.Consistent → I.State g v bp →
    I.Heard g bp → Enabled scp bp m → ∃ g', I.Grows v g g' ∧ I.State g' v (m.apply bp)

variable {I} {g g' g'' : I.Ghost} {v : NodeID} {s t : Slot} {scp : SCP}

theorem Grows.refl (v : NodeID) (g : I.Ghost) : I.Grows v g g :=
  ⟨fun _ _ h => h, fun _ _ h => h, fun _ _ _ _ h => h⟩

theorem Grows.trans (h : I.Grows v g g') (h' : I.Grows v g' g'') : I.Grows v g g'' where
  claim w pl hc := h'.claim w pl (h.claim w pl hc)
  held w bp hc := h'.held w bp (h.held w bp hc)
  state w hw hne bp hs := h'.state w hw hne bp (h.state w hw hne bp hs)

theorem Grows.heard (h : I.Grows v g g') {bp : BallotProtocol} (hh : I.Heard g bp) :
    I.Heard g' bp := by
  intro n env hlook
  obtain ⟨hid, hn⟩ := hh n env hlook
  exact ⟨hid, hn.imp_right fun ⟨hc, hhash, hclaim⟩ => ⟨hc, hhash, h.claim n _ hclaim⟩⟩

/-- A step of one node keeps what is known of the others. -/
theorem NodeOk.grows (hs : I.NodeOk g' v s) {w : NodeID} (h : I.Grows w g' g) (hv : v ∈ N.correct)
    (hne : v ≠ w) : I.NodeOk g v s where
  consistent := hs.consistent
  state := h.state v hv hne _ hs.state
  heard := h.heard hs.heard
  signed env henv := by
    obtain ⟨hid, hhash, hclaim⟩ := hs.signed env henv
    exact ⟨hid, hhash, h.claim v _ hclaim⟩
  held bp hbp := (hs.held bp hbp).imp_right (h.held v bp)

theorem Heard.record {bp : BallotProtocol} (hh : I.Heard g bp) {env : BallotEnvelope}
    (henv : env.statement.nodeID ∈ N.faulty ∨ env.statement.nodeID ∈ N.correct ∧
      env.statement.pledges.quorumSetHash = (N.node env.statement.nodeID).mQSetHash ∧
      I.Claim g env.statement.nodeID env.statement.pledges) : I.Heard g (bp.record env) :=
  Store.forall_lookup_insert ⟨rfl, henv⟩ fun n _ => hh n

/-- Changes that leave the ballots and the signed envelopes alone. -/
theorem NodeOk.congr (hI : I.Holds) (hs : I.NodeOk g v s)
    (hb : s.mBallotProtocol.SameBallots t.mBallotProtocol)
    (hsigned : ∀ env ∈ t.signedEnvelopes, env ∈ s.signedEnvelopes)
    (hheld : ∀ bp, .checkInvariants bp ∈ t.trace → .checkInvariants bp ∈ s.trace ∨
      bp = s.mBallotProtocol) : I.NodeOk g v t where
  consistent := hb.consistent hs.consistent
  state := hI.congr g v _ _ hb.toSameVotes hs.state
  heard := by
    intro n env hlook
    rw [hb.latest] at hlook
    exact hs.heard n env hlook
  signed env henv := hs.signed env (hsigned env henv)
  held bp hbp := by
    rcases hheld bp hbp with h | rfl
    · exact hs.held bp h
    · exact ⟨hs.consistent, hI.held g v _ hs.state⟩

end Network.Invariant

/-! ## The trace -/

section
variable {s : Slot}

theorem Slot.mem_signedEnvelopes {env : BallotEnvelope} :
    env ∈ s.signedEnvelopes ↔ .signEnvelope (.ballot env) ∈ s.trace := by
  simp only [signedEnvelopes, mem_filterMap]
  constructor
  · rintro ⟨e, he, heq⟩
    split at heq
    · cases heq
      exact he
    · cases heq
  · intro h
    exact ⟨_, h, rfl⟩

end

namespace Network.Invariant
variable {N : Network} {I : N.Invariant} {g : I.Ghost} {v : NodeID} {s t : Slot} {scp : SCP}

/-! ## Steps keep an invariant -/

theorem NodeOk.keep (hI : I.Holds) (hs : I.NodeOk g v s) (h : Bookkeep scp s t) :
    I.NodeOk g v t := by
  refine hs.congr hI h.sameBallots ?_ ?_
  · intro env henv
    rw [mem_signedEnvelopes] at henv ⊢
    obtain he | he | he | ⟨_, he⟩ := h.trace henv
    · exact he
    · cases he
    · cases he
    · cases he
  · intro bp hbp
    obtain he | he | he | ⟨_, he⟩ := h.trace hbp
    · exact .inl he
    · cases he
      exact .inr rfl
    · cases he
    · cases he

/-- The node's own envelope is a claim it may make. -/
theorem NodeOk.ownEnvelope (hI : I.Holds) (hs : I.NodeOk g v s) (hscp : N.Serves v scp)
    {pl : BallotPledges} (hpl : Pledges scp s pl) :
    (scp.ownEnvelope s pl).statement.nodeID = v ∧
      (scp.ownEnvelope s pl).statement.pledges.quorumSetHash = (N.node v).mQSetHash ∧
      I.Claim g v (scp.ownEnvelope s pl).statement.pledges := by
  refine ⟨?_, ?_, hI.claim g v _ _ pl hs.state hs.consistent hpl.2⟩
  · change scp.mLocalNode.mNodeID = v
    rw [hscp.node, N.node_id]
  · change pl.quorumSetHash = _
    rw [pledges_quorumSetHash hpl.2, hscp.node]

theorem NodeOk.sign (hI : I.Holds) (hs : I.NodeOk g v s) (hscp : N.Serves v scp)
    {pl : BallotPledges} (hpl : Pledges scp s pl) :
    I.NodeOk g v (s.signed (scp.ownEnvelope s pl)) where
  consistent := hs.consistent
  state := hs.state
  heard := hs.heard
  signed env henv := by
    rw [mem_signedEnvelopes] at henv
    rcases mem_cons.mp henv with heq | henv
    · cases heq
      exact hs.ownEnvelope hI hscp hpl
    · rcases mem_cons.mp henv with heq | henv
      · cases heq
      · exact hs.signed env (mem_signedEnvelopes.mpr henv)
  held bp hbp := by
    rcases mem_cons.mp hbp with heq | hbp
    · cases heq
    · rcases mem_cons.mp hbp with heq | hbp
      · cases heq
        exact ⟨hs.consistent, hI.held g v _ hs.state⟩
      · exact hs.held bp hbp

theorem NodeOk.record (hI : I.Holds) (hs : I.NodeOk g v s) {env : BallotEnvelope}
    (henv : env.statement.nodeID ∈ N.faulty ∨ env.statement.nodeID ∈ N.correct ∧
      env.statement.pledges.quorumSetHash = (N.node env.statement.nodeID).mQSetHash ∧
      I.Claim g env.statement.nodeID env.statement.pledges) : I.NodeOk g v (s.record env) where
  consistent := hs.consistent.record env
  state := hI.congr g v s.mBallotProtocol _ ⟨rfl, rfl, rfl, rfl, rfl, rfl⟩ hs.state
  heard := hs.heard.record henv
  signed := hs.signed
  held := hs.held

/-- A step of a correct node keeps the invariant, with ghost data that only grow. -/
theorem NodeOk.step (hI : I.Holds) (hs : I.NodeOk g v s) (hv : v ∈ N.correct)
    (hscp : N.Serves v scp) (h : BallotStep scp s t) : ∃ g', I.Grows v g g' ∧ I.NodeOk g' v t := by
  cases h with
  | keep h => exact ⟨g, .refl v g, hs.keep hI h⟩
  | sign hpl => exact ⟨g, .refl v g, hs.sign hI hscp hpl⟩
  | record hpl hadm =>
    obtain ⟨hid, hhash, hclaim⟩ := hs.ownEnvelope hI hscp hpl
    refine ⟨g, .refl v g, (hs.sign hI hscp hpl).record hI (.inr ?_)⟩
    rw [hid]
    exact ⟨hv, hhash, hclaim⟩
  | move hen hm =>
    obtain ⟨g', hgrow, hstate⟩ :=
      hI.move g v _ scp _ hv hscp hs.consistent hs.state hs.heard hen
    refine ⟨g', hgrow, ?_⟩
    have hbp := hm.mBallotProtocol
    obtain ⟨evs, hevs, rfl⟩ := hm
    refine ⟨hbp ▸ hen.consistent hs.consistent, hstate, ?_, ?_, ?_⟩
    · intro n env hlook
      rw [hbp, hen.mLatestEnvelopes] at hlook
      exact hgrow.heard hs.heard n env hlook
    · intro env henv
      rw [mem_signedEnvelopes, mem_trace_logAll hevs rfl] at henv
      obtain ⟨hid, hhash, hclaim⟩ := hs.signed env (mem_signedEnvelopes.mpr henv)
      exact ⟨hid, hhash, hgrow.claim v _ hclaim⟩
    · intro bp hbp'
      rw [mem_trace_logAll hevs rfl] at hbp'
      exact (hs.held bp hbp').imp_right (hgrow.held v bp)

/-- The invariant holds of all correct nodes. -/
def Ok (I : N.Invariant) (g : I.Ghost) (σ : NodeID → Slot) : Prop :=
  ∀ v ∈ N.correct, I.NodeOk g v (σ v)

section
variable {σ : NodeID → Slot}

/-- The step of one node among the others. -/
theorem Ok.step (hI : I.Holds) (hσ : I.Ok g (Function.update σ v s)) (hv : v ∈ N.correct)
    (hscp : N.Serves v scp) (h : BallotStep scp s t) :
    ∃ g', I.Grows v g g' ∧ I.Ok g' (Function.update σ v t) := by
  have hs : I.NodeOk g v s := by simpa using hσ v hv
  obtain ⟨g', hgrow, ht⟩ := hs.step hI hv hscp h
  refine ⟨g', hgrow, fun w hw => ?_⟩
  by_cases hne : w = v
  · subst hne
    simpa using ht
  · have hw' := hσ w hw
    rw [Function.update_of_ne hne] at hw' ⊢
    exact hw'.grows hgrow hw hne

theorem Ok.steps (hI : I.Holds) (hσ : I.Ok g (Function.update σ v s)) (hv : v ∈ N.correct)
    (hscp : N.Serves v scp) (h : BallotSteps scp s t) :
    ∃ g', I.Grows v g g' ∧ I.Ok g' (Function.update σ v t) := by
  refine keeps_of_steps (P := fun s => ∃ g', I.Grows v g g' ∧ I.Ok g' (Function.update σ v s))
    ?_ h ⟨g, .refl v g, hσ⟩
  rintro s t hst ⟨g', hgrow, hs⟩
  obtain ⟨g'', hgrow', ht⟩ := hs.step hI hv hscp hst
  exact ⟨g'', hgrow.trans hgrow', ht⟩

/-- The start of a permitted call. -/
theorem Ok.begins (hI : I.Holds) (hσ : I.Ok g σ) (hv : v ∈ N.correct) {call : BallotCall}
    (hcall : N.Permits σ call) (h : call.Begins scp (σ v) s) :
    I.Ok g (Function.update σ v s) := by
  have hown : I.NodeOk g v s := by
    have hs := hσ v hv
    refine h.elim hs ?_ fun _ _ => ⟨hs.consistent, hs.state, hs.heard, hs.signed, hs.held⟩
    rintro env rfl -
    refine hs.record hI (hcall.imp_right ?_)
    rintro ⟨hc, hsigned⟩
    obtain ⟨-, hhash, hclaim⟩ := (hσ _ hc).signed env hsigned
    exact ⟨hc, hhash, hclaim⟩
  intro w hw
  by_cases hne : w = v
  · subst hne
    simpa using hown
  · rw [Function.update_of_ne hne]
    exact hσ w hw

theorem Ok.ofHeld (hI : I.Holds) (hσ : I.Ok g σ) (hv : v ∈ N.correct) {bp : BallotProtocol}
    (h : (σ v).Held bp) : bp.Consistent ∧ I.Held g v bp := by
  rcases h with rfl | h
  · exact ⟨(hσ v hv).consistent, hI.held g v _ (hσ v hv).state⟩
  · exact (hσ v hv).held bp h

/-- An invariant holds in every run, of all that correct nodes ever held. -/
theorem Holds.runs (hI : I.Holds) {slotIndex : Uint64} {ok : BallotCall → Prop}
    {past : List (NodeID → Slot)} (h : N.Runs slotIndex ok σ past) :
    ∃ g, I.Ok g σ ∧
      ∀ v ∈ N.correct, ∀ bp, EverHeld σ past v bp → bp.Consistent ∧ I.Held g v bp := by
  induction h with
  | start scp =>
    obtain ⟨g, hg⟩ := hI.start
    have hok : I.Ok g fun v => new slotIndex (scp v) := by
      refine fun v hv => ⟨BallotProtocol.new_consistent, hg v hv, ?_, ?_, ?_⟩
      · intro n env hlook
        simp [new, BallotProtocol.new] at hlook
      · simp [signedEnvelopes, new]
      · simp [new]
    refine ⟨g, hok, ?_⟩
    rintro v hv bp ⟨τ, hτ, hheld⟩
    obtain rfl := mem_singleton.mp hτ
    exact hok.ofHeld hI hv hheld
  | @call σ past v t hσ hv scp hscp call hcall hok ht ih =>
    obtain ⟨g, hg, hpast⟩ := ih
    obtain ⟨s₀, hbegin, -, hsteps⟩ :=
      (call.steps (hg v hv).consistent).of_ends (fun _ _ h => h.2) ht
    obtain ⟨g', hgrow, hg'⟩ := (hg.begins hI hv hcall hbegin).steps hI hv hscp hsteps
    refine ⟨g', hg', ?_⟩
    rintro w hw bp ⟨τ, hτ, hheld⟩
    rcases mem_cons.mp hτ with rfl | hτ
    · exact hg'.ofHeld hI hw hheld
    · exact (hpast w hw bp ⟨τ, hτ, hheld⟩).imp_right (hgrow.held w bp)

/-- The invariant holds with `s` as the slot of `v`. -/
def OkAt (I : N.Invariant) (σ : NodeID → Slot) (v : NodeID) (s : Slot) : Prop :=
  ∃ g, I.Ok g (Function.update σ v s)

theorem OkAt.step (hI : I.Holds) (h : I.OkAt σ v s) (hv : v ∈ N.correct) (hscp : N.Serves v scp)
    (hst : BallotStep scp s t) : I.OkAt σ v t := by
  obtain ⟨g, hg⟩ := h
  obtain ⟨g', -, hg'⟩ := hg.step hI hv hscp hst
  exact ⟨g', hg'⟩

theorem OkAt.begins (hI : I.Holds) (h : I.OkAt σ v (σ v)) (hv : v ∈ N.correct) (scp : SCP)
    {call : BallotCall} (hcall : N.Permits σ call) (hs : call.Begins scp (σ v) s) :
    I.OkAt σ v s := by
  obtain ⟨g, hg⟩ := h
  rw [Function.update_eq_self] at hg
  exact ⟨g, hg.begins hI hv hcall hs⟩

theorem OkAt.node (h : I.OkAt σ v s) (hv : v ∈ N.correct) : ∃ g, I.NodeOk g v s := by
  obtain ⟨g, hg⟩ := h
  have hs := hg v hv
  rw [Function.update_self] at hs
  exact ⟨g, hs⟩

theorem OkAt.consistent (h : I.OkAt σ v s) (hv : v ∈ N.correct) : s.mBallotProtocol.Consistent := by
  obtain ⟨g, hg⟩ := h.node hv
  exact hg.consistent

end

end Network.Invariant

/-! ## Drivers that remember -/

/-- The runs of drivers that keep the quorum sets of recorded statements. A node whose call
fails has stopped. -/
inductive Network.RecallingRuns (N : Network) (slotIndex : Uint64) (ok : BallotCall → Prop) :
    (NodeID → SCP) → (NodeID → Slot) → List (NodeID → Slot) → Prop
  | start (scp : NodeID → SCP) (hscp : ∀ v ∈ N.correct, N.Serves v (scp v)) :
      N.RecallingRuns slotIndex ok scp (fun v => new slotIndex (scp v)) []
  | call {scp : NodeID → SCP} {σ : NodeID → Slot} {past : List (NodeID → Slot)} {v : NodeID}
      {t : Slot} (hσ : N.RecallingRuns slotIndex ok scp σ past) (hv : v ∈ N.correct) (scp' : SCP)
      (hscp : N.Serves v scp') (hrec : (scp v).Recalls scp' (σ v).mBallotProtocol)
      (call : BallotCall) (hcall : N.Permits σ call) (hok : ok call) (ht : call.run scp' (σ v) = .ok () t) :
      N.RecallingRuns slotIndex ok (Function.update scp v scp') (Function.update σ v t) (σ :: past)

/-- Every recorded statement has a quorum set that the driver knows. -/
def KnownSets (scp : SCP) (bp : BallotProtocol) : Prop :=
  ∀ n e, bp.mLatestEnvelopes.lookup n = some e →
    ∃ q, getQuorumSetFromStatement scp.mDriver e.statement = some q

section
variable {N : Network} {slotIndex : Uint64} {ok : BallotCall → Prop} {scp : NodeID → SCP}
  {σ : NodeID → Slot} {past : List (NodeID → Slot)} {v : NodeID} {scp₁ scp' : SCP}
  {bp : BallotProtocol}

theorem known_of_sane {st : BallotStatement} {self : Bool}
    (h : isStatementSane scp₁ st self = true) :
    ∃ q, getQuorumSetFromStatement scp₁.mDriver st = some q := by
  simp only [isStatementSane, Bool.and_eq_true] at h
  cases hq : getQuorumSetFromStatement scp₁.mDriver st with
  | none => rw [hq] at h; cases h.1
  | some q => exact ⟨q, rfl⟩

theorem KnownSets.recalls (hbp : KnownSets scp₁ bp) (h : scp₁.Recalls scp' bp) :
    KnownSets scp' bp :=
  fun n e he => (hbp n e he).imp (h n e he)

theorem KnownSets.quorumSet_eq (hbp : KnownSets scp₁ bp) (h : scp₁.Recalls scp' bp) {n : NodeID}
    {e : BallotEnvelope} (he : bp.mLatestEnvelopes.lookup n = some e) :
    getQuorumSetFromStatement scp'.mDriver e.statement =
      getQuorumSetFromStatement scp₁.mDriver e.statement := by
  obtain ⟨q, hq⟩ := hbp n e he
  rw [hq]
  exact h n e he q hq

theorem BallotProtocol.lookup_record {env e : BallotEnvelope} {n : NodeID}
    (he : (bp.record env).mLatestEnvelopes.lookup n = some e) :
    e = env ∨ bp.mLatestEnvelopes.lookup n = some e :=
  Store.forall_lookup_insert (P := fun n e => e = env ∨ bp.mLatestEnvelopes.lookup n = some e)
    (.inl rfl) (fun _ _ _ => .inr) n e he

theorem KnownSets.record (hbp : KnownSets scp₁ bp) {env : BallotEnvelope} {self : Bool}
    (hsane : isStatementSane scp₁ env.statement self = true) : KnownSets scp₁ (bp.record env) := by
  intro n e he
  rcases BallotProtocol.lookup_record he with rfl | he
  · exact known_of_sane hsane
  · exact hbp n e he

namespace Network.RecallingRuns

theorem runs (h : N.RecallingRuns slotIndex ok scp σ past) :
    N.Runs slotIndex (fun _ => True) σ past := by
  induction h with
  | start scp hscp => exact .start scp
  | call hσ hv scp' hscp hrec call hcall hok ht ih =>
    exact .call ih hv scp' hscp call hcall trivial (.inl ⟨_, ht⟩)

theorem okAt {I : N.Invariant} (hI : I.Holds) (h : N.RecallingRuns slotIndex ok scp σ past)
    (v : NodeID) : I.OkAt σ v (σ v) := by
  obtain ⟨g, hg, -⟩ := hI.runs h.runs
  refine ⟨g, ?_⟩
  rwa [Function.update_eq_self]

/-- What every call keeps at the node that executes it holds at all nodes. -/
theorem keeps {P : NodeID → SCP → Slot → Prop}
    (hstart : ∀ v ∈ N.correct, ∀ scp, N.Serves v scp → P v scp (new slotIndex scp))
    (hcall : ∀ {scp σ past v} (_ : N.RecallingRuns slotIndex ok scp σ past)
      (_ : ∀ w ∈ N.correct, P w (scp w) (σ w)) (_ : v ∈ N.correct) {scp'} (_ : N.Serves v scp')
      (_ : N.Serves v (scp v)) (_ : (scp v).Recalls scp' (σ v).mBallotProtocol) {call}
      (_ : N.Permits σ call) (_ : ok call), After (call.run scp') (σ v) (fun _ t => P v scp' t) fun _ _ => True)
    (h : N.RecallingRuns slotIndex ok scp σ past) :
    ∀ v ∈ N.correct, N.Serves v (scp v) ∧ P v (scp v) (σ v) := by
  induction h with
  | start scp hscp => exact fun v hv => ⟨hscp v hv, hstart v hv _ (hscp v hv)⟩
  | @call scp σ past v t hσ hv scp' hscp hrec call hperm hok ht ih =>
    have hP := (hcall hσ (fun w hw => (ih w hw).2) hv hscp (ih v hv).1 hrec hperm hok).of_ok ht
    intro w hw
    by_cases hne : w = v
    · subst hne
      rw [Function.update_self, Function.update_self]
      exact ⟨hscp, hP⟩
    · rw [Function.update_of_ne hne, Function.update_of_ne hne]
      exact ih w hw

end Network.RecallingRuns

end

/-- Does every call of a schedule return. -/
def replayReturns (scp : NodeID → SCP) : (NodeID → Slot) → List Action → Bool
  | _, [] => true
  | σ, action :: rest =>
    match action.next σ with
    | none => replayReturns scp σ rest
    | some (v, call) => (failure (call.run (scp v)) (σ v)).isNone &&
        replayReturns scp (Function.update σ v (finalState (call.run (scp v)) (σ v))) rest

/-- A schedule whose calls return is a run of drivers that do not change. -/
theorem Network.replay_recalling {N : Network} {ok : BallotCall → Prop} (hok : ∀ call, ok call)
    {scp : NodeID → SCP} (hscp : ∀ v ∈ N.correct, N.Serves v (scp v)) {slotIndex : Uint64}
    {schedule : List Action} (h : ∀ action ∈ schedule, N.Allows action)
    (hret : replayReturns scp (fun v => new slotIndex (scp v)) schedule = true) :
    N.RecallingRuns slotIndex ok scp (replay scp slotIndex schedule).1
      (replay scp slotIndex schedule).2 := by
  have hstart : N.RecallingRuns slotIndex ok scp (fun v => new slotIndex (scp v)) [] :=
    .start scp hscp
  unfold replay
  generalize (fun v => new slotIndex (scp v)) = σ at hret hstart ⊢
  generalize ([] : List (NodeID → Slot)) = past at hstart ⊢
  induction schedule generalizing σ past with
  | nil => exact hstart
  | cons action rest ih =>
    have hrest : ∀ a ∈ rest, N.Allows a := fun a ha => h a (mem_cons_of_mem _ ha)
    rw [foldl_cons]
    rw [replayReturns] at hret
    cases hnext : action.next σ with
    | none =>
      rw [hnext] at hret
      simp only [hnext]
      exact ih hrest σ hret past hstart
    | some vc =>
      obtain ⟨v, call⟩ := vc
      rw [hnext] at hret
      simp only [Bool.and_eq_true, Option.isNone_iff_eq_none] at hret
      obtain ⟨hv, hperm⟩ := (h action mem_cons_self).permits hnext
      simp only [hnext]
      refine ih hrest _ hret.2 _ ?_
      have hcall := hstart.call hv (scp v) (hscp v hv) (fun _ _ _ _ hq => hq) call hperm (hok call)
        (eq_ok_of_failure hret.1)
      rwa [Function.update_eq_self] at hcall

end DigitalBits.Scp
