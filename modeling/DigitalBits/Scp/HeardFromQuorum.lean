import DigitalBits.Scp.Network

/-!
# Hearing from a quorum

`checkHeardFromQuorum` asks for a quorum of nodes that have reached the counter of the
current ballot. While nodes keep their quorum sets the answer stays yes: what a node says
next is newer, a newer statement has no smaller counter, and a node that has externalized
counts as a quorum of its own.
-/
namespace DigitalBits.Scp
open Lib LocalNode BallotPledges

/-- The answer of `checkHeardFromQuorum` at a counter. -/
def heardFromQuorum (scp : SCP) (bp : BallotProtocol) (counter : Uint32) : Bool :=
  isQuorum scp.mLocalNode.mQSet bp.mLatestEnvelopes (getQuorumSetFromStatement scp.mDriver)
    fun st => hasReachedCounter counter st.pledges

/-- The flag becomes the answer, whatever it was. -/
theorem checkHeardFromQuorum_sets {scp : SCP} {s : Slot} {b : SCPBallot}
    (hb : s.mBallotProtocol.mCurrentBallot = some b) :
    (finalState (checkHeardFromQuorum scp) s).mBallotProtocol.mHeardFromQuorum =
      heardFromQuorum scp s.mBallotProtocol b.counter := by
  have hafter : After (checkHeardFromQuorum scp) s (fun _ t => t.mBallotProtocol.mHeardFromQuorum =
      heardFromQuorum scp s.mBallotProtocol b.counter) fun _ _ => False := by
    rw [checkHeardFromQuorum, after_bind, after_ballotProtocol, hb]
    simp only
    split_ifs with hquorum
    · rw [heardFromQuorum, hquorum, after_bind, after_modifyBallot, after_bind, after_when]
      have hstop : ∀ t : Slot, t.mBallotProtocol.mHeardFromQuorum = true →
          After (when (s.mBallotProtocol.mPhase = .externalize) stopBallotProtocolTimer) t
            (fun _ t => t.mBallotProtocol.mHeardFromQuorum = true) fun _ _ => False := by
        intro t ht
        rw [after_when, stopBallotProtocolTimer, after_notify]
        exact ⟨fun _ => ht, fun _ => ht⟩
      refine ⟨fun _ => ?_, fun _ => hstop _ rfl⟩
      rw [after_bind, after_notify, after_when]
      refine ⟨fun _ => ?_, fun _ => hstop _ rfl⟩
      rw [startBallotProtocolTimer, after_bind, after_ballotProtocol, after_bind]
      change After (deref s.mBallotProtocol.mCurrentBallot) _ _ _
      rw [hb, after_deref_some, after_notify]
      exact hstop _ rfl
    · rw [heardFromQuorum, Bool.eq_false_iff.mpr hquorum, after_bind, after_modifyBallot,
        stopBallotProtocolTimer, after_notify]
      rfl
  exact hafter.of_ends (fun _ _ h => h.elim) (ends_finalState _ _)

/-! ## Statements only move forward -/

/-- The statements carry the hashes that their nodes announce. -/
def Announced (announced : NodeID → Hash) (latest : EnvelopeMap BallotPledges) : Prop :=
  ∀ v e, latest.lookup v = some e → e.statement.nodeID = v ∧
    e.statement.pledges.quorumSetHash = announced v

theorem Announced.record {announced : NodeID → Hash} {bp : BallotProtocol} {env : BallotEnvelope}
    (h : Announced announced bp.mLatestEnvelopes)
    (henv : env.statement.pledges.quorumSetHash = announced env.statement.nodeID) :
    Announced announced (bp.record env).mLatestEnvelopes :=
  Store.forall_lookup_insert ⟨rfl, henv⟩ fun v _ => h v

/-- A newer statement has reached every counter that an older one has reached. -/
theorem hasReachedCounter_of_newer {n : Uint32} {pl pl' : BallotPledges}
    (hnewer : isNewerStatement pl pl' = true) (h : hasReachedCounter n pl = true) :
    hasReachedCounter n pl' = true := by
  cases pl' with
  | confirm c | externalize e => rfl
  | prepare p' =>
    cases pl with
    | confirm c => simp [isNewerStatement, type, SCPStatementType.toNat] at hnewer
    | externalize e =>
      simp [isNewerStatement, type, SCPStatementType.toNat] at hnewer
    | prepare p =>
      have hlt : p.rank < p'.rank := by
        simpa [isNewerStatement, type, isNewerPrepare_iff] using hnewer
      have hle : p.ballot ≤ p'.ballot := (Prod.Lex.toLex_le_toLex.mp hlt.le).elim
        (fun h => h.le) fun h => h.1.le
      simp only [hasReachedCounter, decide_eq_true_eq] at h ⊢
      exact h.trans (SCPBallot.counter_le hle)

/-- The second statement of `v` is the first one or newer, and the slices of `v` stay slices. -/
structure Supersedes (v : NodeID) (scp scp' : SCP) (e e' : BallotEnvelope) : Prop where
  newer : e' = e ∨ isNewerStatement e.statement.pledges e'.statement.pledges = true
  slices : ∀ q, getQuorumSetFromStatement scp.mDriver e.statement = some q →
    ∃ q', getQuorumSetFromStatement scp'.mDriver e'.statement = some q' ∧
      ∀ u, v ∈ u → isQuorumSlice q u = true → isQuorumSlice q' u = true

/-- What leads from one moment to a later one. -/
structure Forward (p q : SCP × Slot) : Prop where
  node : q.1.mLocalNode = p.1.mLocalNode
  latest : ∀ v e, p.2.mBallotProtocol.mLatestEnvelopes.lookup v = some e →
    ∃ e', q.2.mBallotProtocol.mLatestEnvelopes.lookup v = some e' ∧ Supersedes v p.1 q.1 e e'

/-- From one call to the next a driver may learn quorum sets and forgets none of a recorded
statement. -/
structure Learns (scp scp' : SCP) (bp : BallotProtocol) : Prop where
  node : scp'.mLocalNode = scp.mLocalNode
  recalls : scp.Recalls scp' bp

/-! ## The answer stays -/

section
variable {v : NodeID} {scp scp' scp'' : SCP} {e e' e'' : BallotEnvelope} {p q r : SCP × Slot}

theorem Supersedes.refl (v : NodeID) (scp : SCP) (e : BallotEnvelope) : Supersedes v scp scp e e :=
  ⟨.inl rfl, fun q hq => ⟨q, hq, fun _ _ hslice => hslice⟩⟩

theorem Supersedes.trans (h : Supersedes v scp scp' e e') (h' : Supersedes v scp' scp'' e' e'') :
    Supersedes v scp scp'' e e'' := by
  constructor
  · rcases h.newer with rfl | hnewer
    · exact h'.newer
    · rcases h'.newer with rfl | hnewer'
      · exact .inr hnewer
      · exact .inr (isNewerStatement_trans hnewer hnewer')
  · intro q hq
    obtain ⟨q', hq', hslices⟩ := h.slices q hq
    obtain ⟨q'', hq'', hslices'⟩ := h'.slices q' hq'
    exact ⟨q'', hq'', fun u hv hslice => hslices' u hv (hslices u hv hslice)⟩

theorem isQuorumSlice_singleton {u : List NodeID} (hv : v ∈ u) :
    isQuorumSlice (buildSingletonQSet v) u = true := by
  simp [isQuorumSlice, buildSingletonQSet, isQuorumSliceInternal, innerSliceHits, countdown, hv]

/-- The quorum set of the next statement of a node, if it is the set of this one, or the
node alone. -/
theorem supersedes_of_newer
    (hhash : e'.statement.pledges.quorumSetHash = e.statement.pledges.quorumSetHash)
    (hnewer : isNewerStatement e.statement.pledges e'.statement.pledges = true)
    (hid : e'.statement.nodeID = v) : Supersedes v scp scp e e' := by
  refine ⟨.inr hnewer, fun q hq => ?_⟩
  have hset : ∀ pl : BallotPledges, pl.type ≠ .externalize → ∀ st : BallotStatement,
      st.pledges = pl → getQuorumSetFromStatement scp.mDriver st =
        scp.mDriver.getQSet pl.quorumSetHash := by
    rintro (p | c | e) hne st hpl
    · simp only [getQuorumSetFromStatement, hpl, quorumSetHash]
    · simp only [getQuorumSetFromStatement, hpl, quorumSetHash]
    · exact absurd rfl hne
  by_cases hext : e'.statement.pledges.type = .externalize
  · cases hpl : e'.statement.pledges with
    | prepare p | confirm c => rw [hpl] at hext; cases hext
    | externalize x =>
      refine ⟨buildSingletonQSet v, ?_, fun u hv _ => isQuorumSlice_singleton hv⟩
      simp only [getQuorumSetFromStatement, hpl, hid]
  · -- nothing is newer than a statement that externalizes
    have hext' : e.statement.pledges.type ≠ .externalize := by
      intro h
      cases hpl : e.statement.pledges <;> cases hpl' : e'.statement.pledges <;>
        simp_all [isNewerStatement, type, SCPStatementType.toNat]
    refine ⟨q, ?_, fun u _ hslice => hslice⟩
    rwa [hset _ hext _ rfl, hhash, ← hset _ hext' _ rfl]

theorem Forward.trans (h : Forward p q) (h' : Forward q r) : Forward p r := by
  refine ⟨h'.node.trans h.node, fun v e he => ?_⟩
  obtain ⟨e', he', hsup⟩ := h.latest v e he
  obtain ⟨e'', he'', hsup'⟩ := h'.latest v e' he'
  exact ⟨e'', he'', hsup.trans hsup'⟩

/-- Nothing is recorded. -/
theorem Forward.of_latest {s t : Slot}
    (h : t.mBallotProtocol.mLatestEnvelopes = s.mBallotProtocol.mLatestEnvelopes) :
    Forward (scp, s) (scp, t) :=
  ⟨rfl, fun v e he => ⟨e, (congrArg (AList.lookup v) h).trans he, .refl v scp e⟩⟩

/-- A newer statement with the announced hash is recorded. -/
theorem Forward.record {announced : NodeID → Hash} {s t : Slot}
    (hs : Announced announced s.mBallotProtocol.mLatestEnvelopes)
    (henv : e.statement.pledges.quorumSetHash = announced e.statement.nodeID)
    (hnewer : s.mBallotProtocol.isNewerStatement e.statement.nodeID e.statement = true)
    (ht : t.mBallotProtocol = s.mBallotProtocol.record e) : Forward (scp, s) (scp, t) := by
  refine ⟨rfl, fun v e₀ he => ?_⟩
  simp only [ht]
  by_cases hv : v = e.statement.nodeID
  · subst hv
    refine ⟨e, by simp [BallotProtocol.record], supersedes_of_newer ?_ ?_ rfl⟩
    · rw [henv, (hs _ _ he).2]
    · simpa [BallotProtocol.isNewerStatement, he] using hnewer
  · exact ⟨e₀, by rwa [BallotProtocol.record, AList.lookup_insert_ne hv], .refl v scp e₀⟩

/-- The quorum that was heard is heard again. -/
theorem heardFromQuorum_advances (hfwd : Forward p q) {n : Uint32}
    (h : heardFromQuorum p.1 p.2.mBallotProtocol n = true) :
    heardFromQuorum q.1 q.2.mBallotProtocol n = true := by
  obtain ⟨u, hu, hslice⟩ := exists_quorumOf_iff.mp h
  rw [heardFromQuorum, hfwd.node]
  refine exists_quorumOf_iff.mpr ⟨u, fun v hv => ?_, hslice⟩
  obtain ⟨e, he, hreached, q, hq, hqslice⟩ := hu v hv
  obtain ⟨e', he', hsup⟩ := hfwd.latest v e he
  obtain ⟨q', hq', hslices⟩ := hsup.slices q hq
  refine ⟨e', he', ?_, q', hq', hslices u hv hqslice⟩
  rcases hsup.newer with rfl | hnewer
  · exact hreached
  · exact hasReachedCounter_of_newer hnewer hreached

end

/-! ## Runs in which nodes keep their quorum sets -/

/-- The call brings no other hash than its node announces. -/
def BallotCall.Announces (announced : NodeID → Hash) : BallotCall → Prop
  | receiveEnvelope env =>
    env.statement.pledges.quorumSetHash = announced env.statement.nodeID
  | _ => True

/-- From one moment of a run to another. The moments are the ends of the calls, whether
these return or fail, and the points inside of them. -/
inductive SteadyRun (announced : NodeID → Hash) (p : SCP × Slot) : SCP × Slot → Prop
  | refl : SteadyRun announced p p
  | call {scp scp' : SCP} {s t : Slot} (h : SteadyRun announced p (scp, s))
      (hlearns : Learns scp scp' s.mBallotProtocol) (call : BallotCall) (hcall : call.Announces announced)
      (ht : Ends (call.run scp') s t) : SteadyRun announced p (scp', t)
  | inside {scp scp' : SCP} {s t : Slot} (h : SteadyRun announced p (scp, s))
      (hlearns : Learns scp scp' s.mBallotProtocol) (call : BallotCall) (hcall : call.Announces announced)
      (ht : Reached scp' (call.Begins scp' s) t) : SteadyRun announced p (scp', t)

/-- What is known of every moment: the ballots are consistent, and the recorded statements
and the node itself carry the announced hashes. -/
structure AnnouncedMoment (announced : NodeID → Hash) (p : SCP × Slot) : Prop where
  consistent : p.2.mBallotProtocol.Consistent
  latest : Announced announced p.2.mBallotProtocol.mLatestEnvelopes
  own : p.1.mLocalNode.mQSetHash = announced p.1.mLocalNode.mNodeID

section
variable {announced : NodeID → Hash} {scp : SCP} {s t : Slot}

theorem BallotStep.forward (h : BallotStep scp s t) (hs : AnnouncedMoment announced (scp, s)) :
    AnnouncedMoment announced (scp, t) ∧ Forward (scp, s) (scp, t) := by
  have hsame : t.mBallotProtocol.mLatestEnvelopes = s.mBallotProtocol.mLatestEnvelopes →
      AnnouncedMoment announced (scp, t) ∧ Forward (scp, s) (scp, t) := by
    intro heq
    refine ⟨⟨h.consistent hs.consistent, ?_, hs.own⟩, .of_latest heq⟩
    exact heq ▸ hs.latest
  cases h with
  | keep h => exact hsame h.sameBallots.latest
  | sign hpl => exact hsame rfl
  | @record pl hpl hadm =>
    have hhash : (scp.ownEnvelope s pl).statement.pledges.quorumSetHash =
        announced (scp.ownEnvelope s pl).statement.nodeID :=
      (pledges_quorumSetHash hpl.2).trans hs.own
    exact ⟨⟨hs.consistent.record _, hs.latest.record hhash, hs.own⟩,
      .record hs.latest hhash hadm.2.1 rfl⟩
  | move hen hm =>
    refine hsame ?_
    rw [hm.mBallotProtocol]
    exact hen.mLatestEnvelopes

theorem Reached.forward {call : BallotCall} (hcall : call.Announces announced)
    (hs : AnnouncedMoment announced (scp, s)) (h : Reached scp (call.Begins scp s) t) :
    AnnouncedMoment announced (scp, t) ∧ Forward (scp, s) (scp, t) := by
  obtain ⟨s₀, hbegins, -, hsteps⟩ := h
  refine keeps_of_steps
    (P := fun t => AnnouncedMoment announced (scp, t) ∧ Forward (scp, s) (scp, t))
    (fun _ _ hstep ht => ⟨(hstep.forward ht.1).1, ht.2.trans (hstep.forward ht.1).2⟩) hsteps ?_
  refine hbegins.elim (P := fun t => AnnouncedMoment announced (scp, t) ∧ Forward (scp, s) (scp, t))
    ⟨hs, .of_latest rfl⟩ ?_ fun _ _ => ⟨⟨hs.consistent, hs.latest, hs.own⟩, .of_latest rfl⟩
  rintro env rfl hadm
  exact ⟨⟨hs.consistent.record env, hs.latest.record hcall, hs.own⟩,
    .record hs.latest hcall hadm.2.1 rfl⟩

theorem Learns.forward {scp' : SCP} (h : Learns scp scp' s.mBallotProtocol)
    (hs : AnnouncedMoment announced (scp, s)) :
    AnnouncedMoment announced (scp', s) ∧ Forward (scp, s) (scp', s) := by
  refine ⟨⟨hs.consistent, hs.latest, ?_⟩, h.node, fun v e he => ?_⟩
  · rw [h.node]
    exact hs.own
  · exact ⟨e, he, .inl rfl, fun q hq => ⟨q, h.recalls v e he q hq, fun _ _ hslice => hslice⟩⟩

/-- The run lemma. -/
theorem SteadyRun.forward {p q : SCP × Slot} (h : SteadyRun announced p q)
    (hp : AnnouncedMoment announced p) : AnnouncedMoment announced q ∧ Forward p q := by
  induction h with
  | refl => exact ⟨hp, .of_latest rfl⟩
  | call _ hlearns call hcall ht ih =>
    obtain ⟨hs, hfwd⟩ := ih
    obtain ⟨hs', hfwd'⟩ := hlearns.forward hs
    have hreached := (call.steps hs'.consistent).of_ends (fun _ _ he => he.2) ht
    obtain ⟨ht, hfwd''⟩ := hreached.forward hcall hs'
    exact ⟨ht, (hfwd.trans hfwd').trans hfwd''⟩
  | inside _ hlearns call hcall ht ih =>
    obtain ⟨hs, hfwd⟩ := ih
    obtain ⟨hs', hfwd'⟩ := hlearns.forward hs
    obtain ⟨ht, hfwd''⟩ := ht.forward hcall hs'
    exact ⟨ht, (hfwd.trans hfwd').trans hfwd''⟩

end

/-- In every run in which no node changes the hash it announces, the recorded statements of
each node are a strictly increasing chain, and `checkHeardFromQuorum`, once it has set the
flag, sets it at every later moment with the same counter. -/
theorem heard_from_quorum_stable {announced : NodeID → Hash} {slotIndex : Uint64}
    {scp₀ scp scp' : SCP} {s t : Slot}
    (hown : scp₀.mLocalNode.mQSetHash = announced scp₀.mLocalNode.mNodeID)
    (hs : SteadyRun announced (scp₀, Slot.new slotIndex scp₀) (scp, s))
    (ht : SteadyRun announced (scp, s) (scp', t)) :
    (∀ pl, isNewerStatement pl pl = false) ∧
    (∀ pl₁ pl₂ pl₃, isNewerStatement pl₁ pl₂ = true → isNewerStatement pl₂ pl₃ = true →
      isNewerStatement pl₁ pl₃ = true) ∧
    (∀ v e, s.mBallotProtocol.mLatestEnvelopes.lookup v = some e →
      ∃ e', t.mBallotProtocol.mLatestEnvelopes.lookup v = some e' ∧
        (e' = e ∨ isNewerStatement e.statement.pledges e'.statement.pledges = true)) ∧
    ∀ b ∈ s.mBallotProtocol.mCurrentBallot, ∀ b' ∈ t.mBallotProtocol.mCurrentBallot,
      b'.counter = b.counter →
      (finalState (checkHeardFromQuorum scp) s).mBallotProtocol.mHeardFromQuorum = true →
      (finalState (checkHeardFromQuorum scp') t).mBallotProtocol.mHeardFromQuorum = true := by
  have hnew : AnnouncedMoment announced (scp₀, Slot.new slotIndex scp₀) :=
    ⟨BallotProtocol.new_consistent, fun _ _ h => (by cases h), hown⟩
  obtain ⟨hmoment, -⟩ := hs.forward hnew
  obtain ⟨-, hfwd⟩ := ht.forward hmoment
  refine ⟨isNewerStatement_irrefl, fun _ _ _ => isNewerStatement_trans, ?_, ?_⟩
  · intro v e he
    obtain ⟨e', he', hsup⟩ := hfwd.latest v e he
    exact ⟨e', he', hsup.newer⟩
  · intro b hb b' hb' hcounter hheard
    rw [checkHeardFromQuorum_sets hb] at hheard
    rw [checkHeardFromQuorum_sets hb', hcounter]
    exact heardFromQuorum_advances hfwd hheard

/-- Two nodes that need each other. -/
def couple : SCP := plainNode (fun _ => .mk 2 [0, 1] []) 0

/-- The other one votes for another value, on the same counter. -/
def coupleVote : BallotCall := .receiveEnvelope ⟨⟨1, 1, .prepare ⟨1, ⟨1, [2]⟩, none, none, 0, 0⟩⟩, []⟩

/-- It accepts its own vote. -/
def coupleAccept : BallotCall :=
  .receiveEnvelope ⟨⟨1, 1, .prepare ⟨1, ⟨1, [2]⟩, some ⟨1, [2]⟩, none, 0, 0⟩⟩, []⟩

def coupleHeard : Slot := finalState (coupleVote.run couple)
  (finalState (BallotCall.run couple (.bumpState [1] true)) (Slot.new 1 couple))

def coupleLater : Slot := finalState (coupleAccept.run couple) coupleHeard

theorem couple_learns (bp : BallotProtocol) : Learns couple couple bp :=
  ⟨rfl, fun _ _ _ _ hq => hq⟩

theorem heard_from_quorum_stable_couple :
    coupleHeard.mBallotProtocol.mHeardFromQuorum = true ∧
    coupleLater.mBallotProtocol.mPrepared = some ⟨1, [2]⟩ ∧
    (finalState (checkHeardFromQuorum couple) coupleLater).mBallotProtocol.mHeardFromQuorum =
      true := by
  have hheard : SteadyRun id (couple, Slot.new 1 couple) (couple, coupleHeard) :=
    .call (.call .refl (couple_learns _) (.bumpState [1] true) trivial (ends_finalState _ _))
      (couple_learns _) coupleVote rfl (ends_finalState _ _)
  have hlater : SteadyRun id (couple, coupleHeard) (couple, coupleLater) :=
    .call .refl (couple_learns _) coupleAccept rfl (ends_finalState _ _)
  obtain ⟨-, -, -, hstable⟩ := heard_from_quorum_stable rfl hheard hlater
  have hb : coupleHeard.mBallotProtocol.mCurrentBallot = some ⟨1, [1]⟩ := by decide +kernel
  have hb' : coupleLater.mBallotProtocol.mCurrentBallot = some ⟨1, [2]⟩ := by decide +kernel
  have hset : (finalState (checkHeardFromQuorum couple)
      coupleHeard).mBallotProtocol.mHeardFromQuorum = true := by decide +kernel
  exact ⟨by decide +kernel, by decide +kernel, hstable _ hb _ hb' rfl hset⟩

end DigitalBits.Scp
