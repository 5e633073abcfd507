import DigitalBits.Scp.NominationContract

/-!
# What nomination keeps

In every run of a slot the candidates are accepted values and the accepted values
are voted for, and what the node nominates only grows. A node that is asked to
nominate while it has a candidate may still add votes for values that nobody
accepted.
-/
namespace DigitalBits.Scp
open Lib LocalNode OrderedSet List Slot

/-- The slots a run of calls can leave. -/
inductive SlotRun (slotIndex : Uint64) : Slot → Prop
  | new (scp : SCP) : SlotRun slotIndex (new slotIndex scp)
  | call {s t : Slot} (hs : SlotRun slotIndex s) (scp : SCP) (fuel : ℕ) (call : SlotCall)
      (ht : call.run scp fuel s = .ok () t) : SlotRun slotIndex t

section
variable {scp : SCP} {s t : Slot}

theorem Quiet.consistent (h : Quiet scp s t) (hs : s.mBallotProtocol.Consistent) :
    t.mBallotProtocol.Consistent := by
  cases h with
  | ballot h => exact h.consistent hs
  | heard env => exact hs.record env
  | assign h | elect ha hrat => exact hs

theorem Grows.mBallotProtocol (h : Grows scp s t) : t.mBallotProtocol = s.mBallotProtocol := by
  cases h <;> rfl

/-- The rule by which the ballots stay consistent. -/
def soundRule (scp : SCP) : NominationRule scp where
  Idle s := s.mBallotProtocol.Consistent
  Open s := s.mBallotProtocol.Consistent
  Fails _ _ := True
  Hears _ := True
  May _ := True

theorem soundRule_holds (scp : SCP) : (soundRule scp).Holds where
  consistent s hs := hs
  quiet s t h hs := h.consistent hs
  quiet_open s t h hs := h.consistent hs
  grow s t h hs := by
    change t.mBallotProtocol.Consistent
    rw [h.mBallotProtocol]
    exact hs.elim id id
  propose s v _ _ hs := hs.elim id id
  hear s env _ _ hs := hs
  speak s hs _ := hs
  bad s _ _ := trivial
  queue s s₀ _ _ hs := ⟨hs, hs⟩
  starved s _ := trivial
  fails s e _ _ := trivial

theorem SlotRun.consistent {slotIndex : Uint64} (h : SlotRun slotIndex s) :
    s.mBallotProtocol.Consistent := by
  induction h with
  | new scp => exact BallotProtocol.new_consistent
  | call hs scp fuel call ht ih =>
    exact ((soundRule_holds scp).after_call fuel call (fun _ _ => trivial)
      (fun _ _ _ _ => trivial) ih).of_ok ht

end

/-! ## Voting with a candidate -/

/-- The value passes `federatedAccept`, or the driver extracts it from one that does. -/
def NominationProtocol.JustAccepted (np : NominationProtocol) (scp : SCP) (slotIndex : Uint64)
    (v : Value) : Prop :=
  federatedAcceptValue scp np v = true ∨ ∃ w, federatedAcceptValue scp np w = true ∧
    scp.mDriver.extractValidValue slotIndex w = some v

/-- A step that keeps the candidates and, once there are some, adds votes for accepted
values only. -/
structure FairStep (scp : SCP) (s t : Slot) : Prop where
  step : NominationStep scp s t
  candidates : ∀ a ∈ s.mNominationProtocol.mCandidates, a ∈ t.mNominationProtocol.mCandidates
  votes : (∃ a, a ∈ s.mNominationProtocol.mCandidates) →
    ∀ v ∈ t.mNominationProtocol.mVotes, v ∉ s.mNominationProtocol.mVotes →
      s.mNominationProtocol.JustAccepted scp s.mSlotIndex v

section
variable {scp : SCP} {s t s₀ : Slot}

/-- A step that leaves the votes alone. -/
theorem FairStep.of_votes (h : NominationStep scp s t)
    (hc : ∀ a ∈ s.mNominationProtocol.mCandidates, a ∈ t.mNominationProtocol.mCandidates)
    (hv : t.mNominationProtocol.mVotes = s.mNominationProtocol.mVotes) : FairStep scp s t := by
  refine ⟨h, hc, fun _ v hmem hnew => ?_⟩
  rw [hv] at hmem
  exact absurd hmem hnew

theorem Quiet.fair (h : Quiet scp s t) : FairStep scp s t := by
  have hstep := NominationStep.quiet h
  cases h with
  | ballot h =>
    have hsame := h.sameSets
    refine .of_votes hstep ?_ hsame.votes
    rw [hsame.candidates]
    exact fun _ ha => ha
  | heard env => exact .of_votes hstep (fun _ ha => ha) rfl
  | assign h =>
    refine .of_votes hstep ?_ h.votes
    exact fun a ha => h.candidates.symm ▸ ha
  | elect ha hrat => exact .of_votes hstep (fun _ ha => mem_insert.mpr (.inr ha)) rfl

theorem Grows.fair (h : Grows scp s t) : FairStep scp s t := by
  have hstep := NominationStep.grow h
  cases h with
  | @accept v hnew hacc =>
    refine ⟨hstep, fun _ ha => ha, fun _ w hw hold => .inl ?_⟩
    rcases mem_insert.mp hw with rfl | hw
    · exact hacc
    · exact absurd hw hold
  | @extract v w hnew hacc hext =>
    refine ⟨hstep, fun _ ha => ha, fun _ x hx hold => .inr ⟨v, hacc, ?_⟩⟩
    rcases mem_insert.mp hx with rfl | hx
    · exact hext
    · exact absurd hx hold
  | follow hnew hnone =>
    refine ⟨hstep, fun _ ha => ha, ?_⟩
    rintro ⟨a, ha⟩
    exact absurd ha (hnone a)

end

/-! ## What the node nominates -/

/-- `std::includes` decides inclusion of sorted ranges. -/
theorem includes_iff {v p : List Value} (hv : v.Pairwise (· < ·)) (hp : p.Pairwise (· < ·)) :
    includes v p = true ↔ ∀ y ∈ p, y ∈ v := by
  fun_induction includes with
  | case1 v => simp
  | case2 y p => exact iff_of_false (by simp) fun h => not_mem_nil (h y mem_cons_self)
  | case3 x v y p hlt =>
    -- `y` comes before everything in `v`
    have hv' := (pairwise_cons.mp hv).1
    refine iff_of_false (by simp) fun h => ?_
    rcases mem_cons.mp (h y mem_cons_self) with rfl | hmem
    · exact lt_irrefl _ hlt
    · exact lt_asymm hlt (hv' y hmem)
  | case4 x v y p hlt hgt ih =>
    obtain ⟨hy, -⟩ := pairwise_cons.mp hp
    rw [ih hv.of_cons hp]
    refine forall₂_congr fun z hz => ?_
    grind
  | case5 x v y p hlt hgt ih =>
    obtain ⟨hy, hp'⟩ := pairwise_cons.mp hp
    obtain rfl : x = y := le_antisymm (not_lt.mp hlt) (not_lt.mp hgt)
    rw [ih hv.of_cons hp', forall_mem_cons, and_iff_right mem_cons_self]
    refine forall₂_congr fun z hz => ?_
    rw [mem_cons, or_iff_right (hy z hz).ne']

/-- On sets, `isSubsetHelper` compares them. -/
theorem isSubsetHelper_toList (p v : OrderedSet Value) :
    isSubsetHelper p.toList v.toList =
      if ∀ y ∈ p, y ∈ v then (true, decide (p ≠ v)) else (false, true) := by
  have hnodup : ∀ s : OrderedSet Value, s.toList.Nodup := fun s => s.sorted.imp fun h => h.ne
  have hinc := includes_iff v.sorted p.sorted
  unfold isSubsetHelper
  by_cases hsub : ∀ y ∈ p, y ∈ v
  · have hperm : p.toList.Subperm v.toList := (hnodup p).subperm hsub
    have hlen : p.toList.length ≠ v.toList.length ↔ p ≠ v := by
      refine not_congr ⟨fun h => ?_, fun h => by rw [h]⟩
      have heq := hperm.perm_of_length_le h.ge
      exact ext fun a => heq.mem_iff
    rw [if_pos hperm.length_le, if_pos (hinc.mpr hsub), if_pos hsub]
    simp only [hlen]
  · have hfalse : includes v.toList p.toList = false := by
      rw [Bool.eq_false_iff]
      exact fun h => hsub (hinc.mp h)
    rw [hfalse, if_neg hsub]
    simp

/-- The nomination of the votes `V` and the accepted values `A`. -/
def SCPNomination.Of (nom : SCPNomination) (V A : OrderedSet Value) : Prop :=
  nom.votes = V.toList ∧ nom.accepted = A.toList

theorem isNewerNomination_iff {nom nom' : SCPNomination} {V A V' A' : OrderedSet Value}
    (h : nom.Of V A) (h' : nom'.Of V' A') :
    isNewerNomination nom nom' = true ↔
      (∀ v ∈ V, v ∈ V') ∧ (∀ a ∈ A, a ∈ A') ∧ (V ≠ V' ∨ A ≠ A') := by
  rw [isNewerNomination, h.1, h.2, h'.1, h'.2, isSubsetHelper_toList, isSubsetHelper_toList]
  by_cases hV : ∀ v ∈ V, v ∈ V'
  · by_cases hA : ∀ a ∈ A, a ∈ A'
    · rw [if_pos hV, if_pos hA, and_iff_right hV, and_iff_right hA]
      simp
    · rw [if_neg hA]
      exact iff_of_false (by simp) fun h => hA h.2.1
  · rw [if_neg hV]
    exact iff_of_false (by simp) fun h => hV h.1

theorem isNewerNomination_trans {n₁ n₂ n₃ : SCPNomination} {V₁ A₁ V₂ A₂ V₃ A₃ : OrderedSet Value}
    (h₁ : n₁.Of V₁ A₁) (h₂ : n₂.Of V₂ A₂) (h₃ : n₃.Of V₃ A₃)
    (h : isNewerNomination n₁ n₂ = true) (h' : isNewerNomination n₂ n₃ = true) :
    isNewerNomination n₁ n₃ = true := by
  rw [isNewerNomination_iff h₁ h₂] at h
  rw [isNewerNomination_iff h₂ h₃] at h'
  obtain ⟨hV, hA, hne⟩ := h
  obtain ⟨hV', hA', -⟩ := h'
  rw [isNewerNomination_iff h₁ h₃]
  refine ⟨fun v hv => hV' v (hV v hv), fun a ha => hA' a (hA a ha), ?_⟩
  -- if the ends agree, so does what is between them
  by_contra hsame
  rw [not_or, not_not, not_not] at hsame
  obtain ⟨rfl, rfl⟩ := hsame
  refine hne.elim (fun h => h ?_) fun h => h ?_
  · exact ext fun v => ⟨hV v, hV' v⟩
  · exact ext fun a => ⟨hA a, hA' a⟩

theorem isNominationSane_of {nom : SCPNomination} {V A : OrderedSet Value} (h : nom.Of V A)
    (hne : (∃ v, v ∈ V) ∨ ∃ a, a ∈ A) : isNominationSane nom = true := by
  have hlen : V.toList.length + A.toList.length ≠ 0 := by
    rcases hne with ⟨v, hv⟩ | ⟨a, ha⟩
    · have := length_pos_of_mem hv
      omega
    · have := length_pos_of_mem ha
      omega
  rw [isNominationSane, h.1, h.2]
  simp only [Bool.and_eq_true, decide_eq_true_eq]
  exact ⟨⟨hlen, V.sorted.isChain⟩, A.sorted.isChain⟩

/-- The candidates are accepted and the accepted values are voted for. -/
structure NominationProtocol.Nested (np : NominationProtocol) : Prop where
  candidates : ∀ a ∈ np.mCandidates, a ∈ np.mAccepted
  accepted : ∀ a ∈ np.mAccepted, a ∈ np.mVotes

/-- The nominations the node has built, newest first. -/
def Slot.builtNominations (s : Slot) : List NominationEnvelope :=
  s.trace.filterMap fun
    | .signEnvelope (.nominate e) => some e
    | _ => none

/-- The nominations the driver was given to send, newest first. -/
def Slot.sentNominations (s : Slot) : List NominationEnvelope :=
  s.trace.filterMap fun
    | .emitEnvelope (.nominate e) => some e
    | _ => none

/-- The second nomination of a node replaces the first one. -/
def NominationEnvelope.Newer (e' e : NominationEnvelope) : Prop :=
  isNewerNomination e.statement.pledges e'.statement.pledges = true

/-- A step after which the values are nested and in which a nomination is built only if
the node takes it into account. -/
structure TidyStep (scp : SCP) (s t : Slot) : Prop where
  step : NominationStep scp s t
  nested : t.mNominationProtocol.Nested
  built : t.builtNominations = s.builtNominations ∨
    ∃ env, t.builtNominations = env :: s.builtNominations ∧ s.AdmitsNomination env

abbrev TidySteps (scp : SCP) : Slot → Slot → Prop := Relation.ReflTransGen (TidyStep scp)

section
variable {scp : SCP} {s t : Slot}

theorem nominations_logAll {evs : List Event} (h : ∀ e ∈ evs, e.isAudit = false) :
    (s.logAll evs).builtNominations = s.builtNominations ∧
      (s.logAll evs).sentNominations = s.sentNominations := by
  refine ⟨s.filterMap_logAll h fun e he => ?_, s.filterMap_logAll h fun e he => ?_⟩
  all_goals cases e <;> first | rfl | cases he

/-- The ballot protocol neither builds nor sends nominations. -/
theorem BallotStep.nominations (h : BallotStep scp s t) :
    t.builtNominations = s.builtNominations ∧ t.sentNominations = s.sentNominations := by
  cases h with
  | keep h =>
    cases h with
    | notify e he =>
      have hevs : ∀ e' ∈ [e], e'.isAudit = false := by simpa using he
      exact nominations_logAll hevs
    | check | heard | level | unvalidated | gotVBlocking | stopNomination | remember | queue
      | send => exact ⟨rfl, rfl⟩
  | sign hpl | record hpl hadm => exact ⟨rfl, rfl⟩
  | move hen hm =>
    obtain ⟨evs, hevs, rfl⟩ := hm
    exact nominations_logAll hevs

theorem Quiet.nominations (h : Quiet scp s t) :
    t.builtNominations = s.builtNominations ∧ t.sentNominations = s.sentNominations := by
  cases h with
  | ballot h => exact h.nominations
  | heard env | assign h | elect ha hrat => exact ⟨rfl, rfl⟩

variable {np : NominationProtocol}

theorem NominationProtocol.SameSets.nested {np' : NominationProtocol} (h : np.SameSets np')
    (hnp : np.Nested) : np'.Nested := by
  constructor
  · simpa only [h.candidates, h.accepted] using hnp.candidates
  · simpa only [h.accepted, h.votes] using hnp.accepted

theorem NominationProtocol.Nested.withVote (h : np.Nested) (v : Value) :
    (np.withVote v).Nested :=
  ⟨h.candidates, fun a ha => mem_insert.mpr (.inr (h.accepted a ha))⟩

theorem NominationProtocol.Nested.record (h : np.Nested) (env : NominationEnvelope) :
    (np.record env).Nested :=
  ⟨h.candidates, h.accepted⟩

theorem NominationProtocol.Nested.withLastEnvelope (h : np.Nested) (env : NominationEnvelope) :
    (np.withLastEnvelope env).Nested :=
  ⟨h.candidates, h.accepted⟩

theorem Quiet.nested (h : Quiet scp s t) (hs : s.mNominationProtocol.Nested) :
    t.mNominationProtocol.Nested := by
  cases h with
  | ballot h => exact h.sameSets.nested hs
  | heard env => exact hs
  | assign h => exact h.nested hs
  | elect ha hrat =>
    refine ⟨?_, hs.accepted⟩
    intro a' ha'
    rcases mem_insert.mp ha' with rfl | ha'
    · exact ha
    · exact hs.candidates a' ha'

theorem Grows.nested (h : Grows scp s t) (hs : s.mNominationProtocol.Nested) :
    t.mNominationProtocol.Nested := by
  cases h with
  | accept hnew hacc =>
    refine ⟨fun a ha => mem_insert.mpr (.inr (hs.candidates a ha)), ?_⟩
    intro a ha
    refine mem_insert.mpr ?_
    exact (mem_insert.mp ha).imp_right (hs.accepted a)
  | extract hnew hacc hext | follow hnew hnone => exact hs.withVote _

end

/-! ### The node and its own nominations -/

section
variable (node : NodeID)

/-- The votes and accepted values the node has last recorded of itself. -/
def NominationProtocol.Said (np : NominationProtocol) (V A : OrderedSet Value) : Prop :=
  np.mLatestNominations.lookup node = none ∧ V = ∅ ∧ A = ∅ ∨
  ∃ env, np.mLatestNominations.lookup node = some env ∧ env.statement.pledges.Of V A

/-- The node has said all. -/
def NominationProtocol.SaidAll (np : NominationProtocol) : Prop :=
  np.Said node np.mVotes np.mAccepted

/-- The node has votes or accepted values it has not told of. -/
def NominationProtocol.HasNews (np : NominationProtocol) : Prop :=
  ∃ V A, np.Said node V A ∧ (∀ v ∈ V, v ∈ np.mVotes) ∧ (∀ a ∈ A, a ∈ np.mAccepted) ∧
    ((∃ v ∈ np.mVotes, v ∉ V) ∨ ∃ a ∈ np.mAccepted, a ∉ A)

/-- The nomination of nested sets. -/
def SCPNomination.Built (nom : SCPNomination) : Prop :=
  ∃ V A, nom.Of V A ∧ ∀ a ∈ A, a ∈ V

/-- What was sent grows, beginning with what the node was restored from. -/
structure Slot.SendsWell (seed : Option NominationEnvelope) (s : Slot) : Prop where
  chain : (s.sentNominations ++ seed.toList).IsChain NominationEnvelope.Newer
  top : ∀ e ∈ (s.sentNominations ++ seed.toList).head?,
    ∃ last ∈ s.mNominationProtocol.mLastEnvelope, last = e ∨ NominationEnvelope.Newer last e
  last : ∀ e ∈ s.mNominationProtocol.mLastEnvelope, e.statement.pledges.Built
  sent : ∀ e ∈ s.sentNominations ++ seed.toList, e.statement.pledges.Built

end

section
variable {scp : SCP} {node : NodeID} {np np' : NominationProtocol} {s t s₀ : Slot}
  {seed : Option NominationEnvelope}

/-- A new value is news, whether the node has said all or not. -/
theorem NominationProtocol.hasNews_of (hs : np.SaidAll node ∨ np.HasNews node)
    (hlatest : np'.mLatestNominations = np.mLatestNominations)
    (hvotes : ∀ v ∈ np.mVotes, v ∈ np'.mVotes) (haccepted : ∀ a ∈ np.mAccepted, a ∈ np'.mAccepted)
    (hnew : (∃ v ∈ np'.mVotes, v ∉ np.mVotes) ∨ ∃ a ∈ np'.mAccepted, a ∉ np.mAccepted) :
    np'.HasNews node := by
  have hbase : ∃ V A, np.Said node V A ∧ (∀ v ∈ V, v ∈ np.mVotes) ∧ ∀ a ∈ A, a ∈ np.mAccepted := by
    rcases hs with hs | ⟨V, A, hs, hV, hA, -⟩
    · exact ⟨_, _, hs, fun _ h => h, fun _ h => h⟩
    · exact ⟨V, A, hs, hV, hA⟩
  obtain ⟨V, A, hsaid, hV, hA⟩ := hbase
  refine ⟨V, A, ?_, fun v hv => hvotes v (hV v hv), fun a ha => haccepted a (hA a ha), ?_⟩
  · rwa [NominationProtocol.Said, hlatest]
  · rcases hnew with ⟨v, hv, hold⟩ | ⟨a, ha, hold⟩
    · exact .inl ⟨v, hv, fun h => hold (hV v h)⟩
    · exact .inr ⟨a, ha, fun h => hold (hA a h)⟩

/-- The node takes its own news into account. -/
theorem NominationProtocol.HasNews.admits (h : s.mNominationProtocol.HasNews node)
    (hnode : scp.mLocalNode.mNodeID = node) : s.AdmitsNomination (scp.ownNomination s) := by
  obtain ⟨V, A, hsaid, hV, hA, hnew⟩ := h
  have hof : (scp.ownNomination s).statement.pledges.Of s.mNominationProtocol.mVotes
      s.mNominationProtocol.mAccepted := ⟨rfl, rfl⟩
  refine ⟨?_, isNominationSane_of hof ?_⟩
  · change s.mNominationProtocol.isNewerStatement scp.mLocalNode.mNodeID _ = true
    rw [NominationProtocol.isNewerStatement, hnode]
    rcases hsaid with ⟨hnone, -⟩ | ⟨env, henv, hbase⟩
    · rw [hnone]
    · rw [henv]
      refine (isNewerNomination_iff hbase hof).mpr ⟨hV, hA, ?_⟩
      rcases hnew with ⟨v, hv, hold⟩ | ⟨a, ha, hold⟩
      · exact .inl fun h => hold (h ▸ hv)
      · exact .inr fun h => hold (h ▸ ha)
  · rcases hnew with ⟨v, hv, -⟩ | ⟨a, ha, -⟩
    · exact .inl ⟨v, hv⟩
    · exact .inr ⟨a, ha⟩

theorem Slot.SendsWell.congr (h : s.SendsWell seed)
    (hsent : t.sentNominations = s.sentNominations)
    (hlast : t.mNominationProtocol.mLastEnvelope = s.mNominationProtocol.mLastEnvelope) :
    t.SendsWell seed := by
  exact ⟨hsent ▸ h.chain, hsent ▸ hlast ▸ h.top, hlast ▸ h.last, hsent ▸ h.sent⟩

/-- A newer nomination is queued, and then sent. -/
theorem Slot.SendsWell.queue (h : s.SendsWell seed) {env : NominationEnvelope}
    (hbuilt : env.statement.pledges.Built)
    (hnewer : ∀ last ∈ s.mNominationProtocol.mLastEnvelope,
      isNewerNomination last.statement.pledges env.statement.pledges = true) :
    (s.withNominationProtocol (s.mNominationProtocol.withLastEnvelope env)).SendsWell seed ∧
    ((s.withNominationProtocol (s.mNominationProtocol.withLastEnvelope env)).log
      (.emitEnvelope (.nominate env))).SendsWell seed := by
  have habove : ∀ e ∈ (s.sentNominations ++ seed.toList).head?, NominationEnvelope.Newer env e := by
    intro e he
    obtain ⟨last, hlast, hor⟩ := h.top e he
    rcases hor with rfl | hlt
    · exact hnewer last hlast
    · obtain ⟨V₁, A₁, h₁, -⟩ := h.sent e (mem_of_mem_head? he)
      obtain ⟨V₂, A₂, h₂, -⟩ := h.last last hlast
      obtain ⟨V₃, A₃, h₃, -⟩ := hbuilt
      exact isNewerNomination_trans h₁ h₂ h₃ hlt (hnewer last hlast)
  have hlast : ∀ e ∈ (s.mNominationProtocol.withLastEnvelope env).mLastEnvelope,
      e.statement.pledges.Built := by
    intro e he
    cases he
    exact hbuilt
  refine ⟨⟨h.chain, ?_, hlast, h.sent⟩, ⟨?_, ?_, hlast, ?_⟩⟩
  · exact fun e he => ⟨env, rfl, .inr (habove e he)⟩
  · change (env :: (s.sentNominations ++ seed.toList)).IsChain _
    rw [isChain_cons]
    exact ⟨habove, h.chain⟩
  · intro e he
    cases he
    exact ⟨env, rfl, .inl rfl⟩
  · change ∀ e ∈ env :: (s.sentNominations ++ seed.toList), e.statement.pledges.Built
    rw [forall_mem_cons]
    exact ⟨hbuilt, h.sent⟩

/-- What holds at every point of a run. -/
structure Slot.Tidy (scp : SCP) (seed : Option NominationEnvelope) (s s₀ : Slot) : Prop where
  consistent : s.mBallotProtocol.Consistent
  nested : s.mNominationProtocol.Nested
  sends : s.SendsWell seed
  steps : TidySteps scp s₀ s

/-- A step that builds no nomination. -/
theorem Slot.Tidy.step (hs : s.Tidy scp seed s₀) (h : NominationStep scp s t)
    (hbp : t.mBallotProtocol.Consistent) (hnested : t.mNominationProtocol.Nested)
    (hsends : t.SendsWell seed) (hbuilt : t.builtNominations = s.builtNominations) :
    t.Tidy scp seed s₀ :=
  ⟨hbp, hnested, hsends, hs.steps.tail ⟨h, hnested, .inl hbuilt⟩⟩

theorem Slot.Tidy.quiet (hs : s.Tidy scp seed s₀) (h : Quiet scp s t) : t.Tidy scp seed s₀ := by
  have hnom := h.nominations
  refine hs.step (.quiet h) (h.consistent hs.consistent) (h.nested hs.nested) ?_ hnom.1
  refine hs.sends.congr hnom.2 ?_
  cases h with
  | ballot h => exact h.sameSets.last
  | heard env => rfl
  | assign h => exact h.last
  | elect ha hrat => rfl

/-- The rule by which the node's own nominations go in step with its votes. -/
def tidyRule (scp : SCP) (node : NodeID) (seed : Option NominationEnvelope) (s₀ : Slot) :
    NominationRule scp where
  Idle s := s.Tidy scp seed s₀ ∧ s.mNominationProtocol.SaidAll node
  Open s := s.Tidy scp seed s₀ ∧ s.mNominationProtocol.HasNews node
  Fails e s := e ≠ .badNominationState ∧ s.Tidy scp seed s₀
  Hears env := env.statement.nodeID ≠ node
  May _ := True

theorem Quiet.sameSaid (h : Quiet scp s t) :
    t.mNominationProtocol.mLatestNominations = s.mNominationProtocol.mLatestNominations ∧
    t.mNominationProtocol.mVotes = s.mNominationProtocol.mVotes ∧
    t.mNominationProtocol.mAccepted = s.mNominationProtocol.mAccepted := by
  cases h with
  | ballot h => exact ⟨h.sameSets.latest, h.sameSets.votes, h.sameSets.accepted⟩
  | heard env => exact ⟨rfl, rfl, rfl⟩
  | assign h => exact ⟨h.latest, h.votes, h.accepted⟩
  | elect ha hrat => exact ⟨rfl, rfl, rfl⟩

theorem tidyRule_grow {v : Value} (hv : v ∉ s.mNominationProtocol.mVotes)
    (h : NominationStep scp s (s.withNominationProtocol (s.mNominationProtocol.withVote v)))
    (hs : (tidyRule scp node seed s₀).Idle s ∨ (tidyRule scp node seed s₀).Open s) :
    (tidyRule scp node seed s₀).Open
      (s.withNominationProtocol (s.mNominationProtocol.withVote v)) := by
  have htidy : s.Tidy scp seed s₀ := hs.elim (·.1) (·.1)
  have hsaid : s.mNominationProtocol.SaidAll node ∨ s.mNominationProtocol.HasNews node :=
    hs.imp (·.2) (·.2)
  refine ⟨htidy.step h htidy.consistent (htidy.nested.withVote v)
    (htidy.sends.congr rfl rfl) rfl, ?_⟩
  refine NominationProtocol.hasNews_of hsaid rfl ?_ (fun _ ha => ha) (.inl ⟨v, ?_, hv⟩)
  · exact fun w hw => mem_insert.mpr (.inr hw)
  · exact mem_insert.mpr (.inl rfl)

theorem tidyRule_signed (hnode : scp.mLocalNode.mNodeID = node)
    (hs : (tidyRule scp node seed s₀).Open s) :
    (s.signedNomination scp).Tidy scp seed s₀ := by
  obtain ⟨htidy, hnews⟩ := hs
  refine ⟨htidy.consistent, htidy.nested, htidy.sends.congr rfl rfl, htidy.steps.tail ?_⟩
  exact ⟨.sign s, htidy.nested, .inr ⟨scp.ownNomination s, rfl, hnews.admits hnode⟩⟩

theorem tidyRule_holds (hnode : scp.mLocalNode.mNodeID = node) :
    (tidyRule scp node seed s₀).Holds where
  consistent s hs := hs.1.consistent
  quiet s t h hs := by
    obtain ⟨hlatest, hvotes, haccepted⟩ := h.sameSaid
    refine ⟨hs.1.quiet h, ?_⟩
    rw [NominationProtocol.SaidAll, NominationProtocol.Said, hlatest, hvotes, haccepted]
    exact hs.2
  quiet_open s t h hs := by
    obtain ⟨hlatest, hvotes, haccepted⟩ := h.sameSaid
    refine ⟨hs.1.quiet h, ?_⟩
    simp only [NominationProtocol.HasNews, NominationProtocol.Said, hlatest, hvotes, haccepted]
    exact hs.2
  grow s t h hs := by
    have hstep := NominationStep.grow h
    have hnested := h.nested (hs.elim (·.1.nested) (·.1.nested))
    cases h with
    | @accept v hnew hacc =>
      have htidy : s.Tidy scp seed s₀ := hs.elim (·.1) (·.1)
      refine ⟨htidy.step hstep htidy.consistent hnested (htidy.sends.congr rfl rfl) rfl, ?_⟩
      have hsaid : s.mNominationProtocol.SaidAll node ∨ s.mNominationProtocol.HasNews node :=
        hs.imp (·.2) (·.2)
      refine NominationProtocol.hasNews_of hsaid rfl ?_ ?_ (.inr ⟨v, ?_, hnew⟩)
      · exact fun w hw => mem_insert.mpr (.inr hw)
      · exact fun w hw => mem_insert.mpr (.inr hw)
      · exact mem_insert.mpr (.inl rfl)
    | extract hnew hacc hext | follow hnew hnone => exact tidyRule_grow hnew hstep hs
  propose s v _ hv hs := tidyRule_grow hv (.propose s v) hs
  hear s env henv hadm hs := by
    refine ⟨hs.1.step (.record s hadm) hs.1.consistent (hs.1.nested.record env)
      (hs.1.sends.congr rfl rfl) rfl, ?_⟩
    have hlook : (s.mNominationProtocol.record env).mLatestNominations.lookup node =
        s.mNominationProtocol.mLatestNominations.lookup node :=
      AList.lookup_insert_ne (Ne.symm henv)
    change (s.mNominationProtocol.record env).Said node _ _
    rw [NominationProtocol.Said, hlook]
    exact hs.2
  speak s hs hadm := by
    have hsigned := tidyRule_signed hnode hs
    refine ⟨hsigned.step (.record _ hadm) hsigned.consistent (hsigned.nested.record _)
      (hsigned.sends.congr rfl rfl) rfl, .inr ⟨scp.ownNomination s, ?_, rfl, rfl⟩⟩
    subst hnode
    exact AList.lookup_insert _
  bad s hs hadm := absurd (hs.2.admits hnode) hadm
  queue s s₁ hs₁ hnewer hs := by
    have hbuilt : (scp.ownNomination s₁).statement.pledges.Built :=
      ⟨_, _, ⟨rfl, rfl⟩, hs₁.1.nested.accepted⟩
    obtain ⟨hqueue, hsend⟩ := hs.1.sends.queue hbuilt hnewer
    have hnested := hs.1.nested.withLastEnvelope (scp.ownNomination s₁)
    have hqueued := hs.1.step (.queue s hnewer) hs.1.consistent hnested hqueue rfl
    exact ⟨⟨hqueued, hs.2⟩, hqueued.step (.send _ rfl) hs.1.consistent hnested hsend rfl, hs.2⟩
  starved s hs := ⟨by simp, tidyRule_signed hnode hs⟩
  fails s e he hs := ⟨he, hs.elim (·.1) (·.1)⟩

end

/-! ### Runs with restarts -/

/-- A call that tells the node nothing in its own name. -/
def SlotCall.FromOthers (node : NodeID) (call : SlotCall) : Prop :=
  ∀ env, call = .receiveNomination env → env.statement.nodeID ≠ node

/-- The slots of a node that hears nominations of other nodes and may start again from
a nomination it has sent. `seed` is the nomination it last started from and `past` are
those it sent before. -/
inductive NominationRun (node : NodeID) (slotIndex : Uint64) :
    Option NominationEnvelope → List NominationEnvelope → Slot → Prop
  | new (scp : SCP) : NominationRun node slotIndex none [] (new slotIndex scp)
  | call {seed : Option NominationEnvelope} {past : List NominationEnvelope} {s t : Slot}
      (hs : NominationRun node slotIndex seed past s) (scp : SCP)
      (hnode : scp.mLocalNode.mNodeID = node) (fuel : ℕ) (call : SlotCall)
      (hcall : call.FromOthers node) (ht : call.run scp fuel s = .ok () t) :
      NominationRun node slotIndex seed past t
  | restart {seed : Option NominationEnvelope} {past : List NominationEnvelope} {s t r : Slot}
      (hs : NominationRun node slotIndex seed past s) (scp : SCP)
      (hnode : scp.mLocalNode.mNodeID = node) (fuel : ℕ) (call : SlotCall)
      (hcall : call.FromOthers node) (ht : Ends (call.run scp fuel) s t)
      {e : NominationEnvelope} (he : e ∈ t.sentNominations ++ past) (scp' : SCP)
      (hnode' : scp'.mLocalNode.mNodeID = node)
      (hr : slotSetNominationFromEnvelope scp' e (new slotIndex scp') = .ok () r) :
      NominationRun node slotIndex r.mNominationProtocol.mLastEnvelope (t.sentNominations ++ past) r

/-- What a call starts from. -/
structure Slot.StartsTidy (node : NodeID) (seed : Option NominationEnvelope) (s : Slot) : Prop where
  consistent : s.mBallotProtocol.Consistent
  nested : s.mNominationProtocol.Nested
  sends : s.SendsWell seed
  said : s.mNominationProtocol.SaidAll node

section
variable {node : NodeID} {slotIndex : Uint64} {seed : Option NominationEnvelope}
  {past : List NominationEnvelope} {s t r : Slot} {scp : SCP} {e : NominationEnvelope}

theorem Slot.startsTidy_new (node : NodeID) (slotIndex : Uint64) (scp : SCP) :
    (new slotIndex scp).StartsTidy node none := by
  have hnone : ∀ a : Value, a ∉ (∅ : OrderedSet Value) := notMem_empty
  refine ⟨BallotProtocol.new_consistent, ⟨fun a ha => absurd ha (hnone a),
    fun a ha => absurd ha (hnone a)⟩, ⟨List.IsChain.nil, ?_, ?_, ?_⟩, .inl ⟨rfl, rfl, rfl⟩⟩ <;>
    simp [sentNominations, new, NominationProtocol.new]

theorem Slot.StartsTidy.idle (hs : s.StartsTidy node seed) (scp : SCP) :
    (tidyRule scp node seed s).Idle s :=
  ⟨⟨hs.consistent, hs.nested, hs.sends, .refl⟩, hs.said⟩

theorem Slot.StartsTidy.of_idle {s₀ : Slot} (hs : (tidyRule scp node seed s₀).Idle s) :
    s.StartsTidy node seed :=
  ⟨hs.1.consistent, hs.1.nested, hs.1.sends, hs.2⟩

theorem Slot.StartsTidy.after_call (hs : s.StartsTidy node seed)
    (hnode : scp.mLocalNode.mNodeID = node) (fuel : ℕ) {call : SlotCall}
    (hcall : call.FromOthers node) :
    After (call.run scp fuel) s (fun _ t => (tidyRule scp node seed s).Idle t)
      (tidyRule scp node seed s).Fails :=
  (tidyRule_holds hnode).after_call fuel call hcall (fun _ _ _ _ => trivial) (hs.idle scp)

/-- All that the node has sent is built of nested sets, also when the call failed. -/
theorem Slot.StartsTidy.built_of_ends (hs : s.StartsTidy node seed)
    (hnode : scp.mLocalNode.mNodeID = node) {fuel : ℕ} {call : SlotCall}
    (hcall : call.FromOthers node) (ht : Ends (call.run scp fuel) s t) :
    ∀ e ∈ t.sentNominations, e.statement.pledges.Built := by
  have hafter := (hs.after_call hnode fuel hcall).mono (fun _ _ h => h.1) fun _ _ h => h.2
  have htidy : t.Tidy scp seed s := hafter.of_ends (fun _ _ h => h) ht
  exact fun e he => htidy.sends.sent e (mem_append_left _ he)

/-- The slot set from a nomination. -/
structure Slot.RestoredFrom (e : NominationEnvelope) (s r : Slot) : Prop where
  ballot : r.mBallotProtocol = s.mBallotProtocol
  trace : r.trace = s.trace
  np : r.mNominationProtocol = { s.mNominationProtocol.record e with
    mAccepted := s.mNominationProtocol.mAccepted.insertAll e.statement.pledges.accepted
    mVotes := s.mNominationProtocol.mVotes.insertAll e.statement.pledges.votes
    mLastEnvelope := some e }

theorem after_slotSetNominationFromEnvelope (scp : SCP) (e : NominationEnvelope) (s : Slot) :
    After (slotSetNominationFromEnvelope scp e) s
      (fun _ r => r = s ∨ e.statement.nodeID = scp.mLocalNode.mNodeID ∧ s.RestoredFrom e r)
      fun _ r => r = s := by
  rw [slotSetNominationFromEnvelope, after_bind, after_get, after_when]
  refine ⟨fun hown => ?_, fun _ => .inl rfl⟩
  rw [after_bind, setNominationFromEnvelope, after_bind, after_nominationProtocol, after_bind,
    after_when]
  refine ⟨fun _ => rfl, fun _ => ?_⟩
  rw [modifyNomination, after_modify, after_when]
  refine ⟨fun _ => ?_, fun _ => .inr ⟨hown.1, rfl, rfl, rfl⟩⟩
  rw [maybeSetGotVBlocking, after_modify]
  split_ifs
  · exact .inr ⟨hown.1, rfl, rfl, rfl⟩
  · exact .inr ⟨hown.1, rfl, rfl, rfl⟩

/-- A fresh slot set from a nomination of nested sets. -/
theorem Slot.startsTidy_restored (hnode : scp.mLocalNode.mNodeID = node)
    (hbuilt : e.statement.pledges.Built)
    (hr : slotSetNominationFromEnvelope scp e (new slotIndex scp) = .ok () r) :
    r.StartsTidy node r.mNominationProtocol.mLastEnvelope := by
  rcases (after_slotSetNominationFromEnvelope scp e _).of_ok hr with rfl | ⟨hown, hres⟩
  · exact startsTidy_new node slotIndex scp
  obtain ⟨V, A, ⟨hvotes, haccepted⟩, hAV⟩ := id hbuilt
  have hV : r.mNominationProtocol.mVotes = V := by
    rw [hres.np, hvotes]
    exact empty_insertAll_toList V
  have hA : r.mNominationProtocol.mAccepted = A := by
    rw [hres.np, haccepted]
    exact empty_insertAll_toList A
  have hC : r.mNominationProtocol.mCandidates = ∅ := by
    rw [hres.np]
    rfl
  have hlast : r.mNominationProtocol.mLastEnvelope = some e := by rw [hres.np]
  have hsent : r.sentNominations = [] := by
    rw [sentNominations, hres.trace]
    rfl
  have hlook : r.mNominationProtocol.mLatestNominations.lookup node = some e := by
    rw [hres.np, ← hnode, ← hown]
    exact AList.lookup_insert _
  refine ⟨?_, ⟨?_, ?_⟩, ⟨?_, ?_, ?_, ?_⟩, .inr ⟨e, hlook, ?_⟩⟩
  · rw [hres.ballot]
    exact BallotProtocol.new_consistent
  · rw [hC]
    exact fun a ha => absurd ha (notMem_empty a)
  · rwa [hV, hA]
  · rw [hsent, hlast]
    exact isChain_singleton e
  · rw [hsent, hlast]
    exact fun e' he' => ⟨e, rfl, .inl (Option.some.inj he')⟩
  · rw [hlast]
    rintro _ ⟨⟩
    exact hbuilt
  · rw [hsent, hlast]
    intro e' he'
    rwa [mem_singleton.mp he']
  · rw [hV, hA]
    exact ⟨hvotes, haccepted⟩

theorem NominationRun.startsTidy (hs : NominationRun node slotIndex seed past s) :
    s.StartsTidy node seed ∧ ∀ e ∈ past, e.statement.pledges.Built := by
  induction hs with
  | new scp => exact ⟨startsTidy_new node slotIndex scp, by simp⟩
  | call hs scp hnode fuel call hcall ht ih =>
    exact ⟨.of_idle ((ih.1.after_call hnode fuel hcall).of_ok ht), ih.2⟩
  | restart hs scp hnode fuel call hcall ht he scp' hnode' hr ih =>
    have hall := forall_mem_append.mpr
      ⟨ih.1.built_of_ends hnode hcall ht, ih.2⟩
    exact ⟨startsTidy_restored hnode' (hall _ he) hr, hall⟩

/-- Within any call of any run the values stay nested, each nomination built is one that
the node takes into account, and what is sent grows from what the node was restored from. -/
theorem nominations_grow (hs : NominationRun node slotIndex seed past s) (scp : SCP)
    (hnode : scp.mLocalNode.mNodeID = node) (fuel : ℕ) (call : SlotCall)
    (hcall : call.FromOthers node) :
    s.mNominationProtocol.Nested ∧
    After (call.run scp fuel) s
      (fun _ t => TidySteps scp s t ∧
        (t.sentNominations ++ seed.toList).IsChain NominationEnvelope.Newer)
      fun e t => e ≠ .badNominationState ∧ TidySteps scp s t ∧
        (t.sentNominations ++ seed.toList).IsChain NominationEnvelope.Newer := by
  have hstart := hs.startsTidy.1
  refine ⟨hstart.nested, (hstart.after_call hnode fuel hcall).mono ?_ ?_⟩
  · exact fun _ t ht => ⟨ht.1.steps, ht.1.sends.chain⟩
  · exact fun e t ht => ⟨ht.1, ht.2.steps, ht.2.sends.chain⟩

end

/-! ## Three nodes that need each other -/

/-- The first of three nodes that need each other. It leads the first round, and the
second node leads the others. -/
def trio : SCP where
  mDriver := { plainDriver (fun _ => .mk 3 [0, 1, 2] []) with
    combineCandidates := fun _ candidates => candidates.toList.head?
    computeHashNode := fun _ _ isPriority round node =>
      if isPriority then (if (round = 1 ↔ node = 0) then 2 else 1) else 0 }
  mLocalNode := ⟨0, true, .mk 3 [0, 1, 2] [], 0⟩

/-- A nomination of another node: it accepts the value `[1]` and votes for more. -/
def trioNomination (node : NodeID) (more : List Value) : NominationEnvelope :=
  ⟨⟨node, 1, ⟨0, [1] :: more, [[1]]⟩⟩, []⟩

def trioNominated : Slot :=
  finalState (SlotCall.run trio 5 (.nominate [1] [0] false)) (new 1 trio)

def trioHeard : Slot :=
  finalState (SlotCall.run trio 5 (.receiveNomination (trioNomination 1 [[3]]))) trioNominated

/-- The node has voted for `[1]`, hears of node `1` that it accepts the value, and
accepts it too. -/
theorem nominations_grow_trio :
    trioNominated.sentNominations.length = 1 ∧ trioHeard.sentNominations.length = 2 ∧
    trioNominated.mNominationProtocol.Nested ∧
    After (SlotCall.run trio 5 (.receiveNomination (trioNomination 1 [[3]]))) trioNominated
      (fun _ t => TidySteps trio trioNominated t ∧
        (t.sentNominations ++ []).IsChain NominationEnvelope.Newer)
      fun e t => e ≠ .badNominationState ∧ TidySteps trio trioNominated t ∧
        (t.sentNominations ++ []).IsChain NominationEnvelope.Newer := by
  have hnew : NominationRun 0 1 none [] (new 1 trio) := .new trio
  have hnominate : failure (SlotCall.run trio 5 (.nominate [1] [0] false)) (new 1 trio) =
      none := by decide +kernel
  have hnominated : NominationRun 0 1 none [] trioNominated :=
    .call hnew trio rfl 5 (.nominate [1] [0] false) (by simp [SlotCall.FromOthers])
      (eq_ok_of_failure hnominate)
  refine ⟨by decide +kernel, by decide +kernel, ?_⟩
  have hcall : (SlotCall.receiveNomination (trioNomination 1 [[3]])).FromOthers 0 := by
    intro env henv
    rw [← SlotCall.receiveNomination.inj henv]
    decide
  generalize SlotCall.receiveNomination (trioNomination 1 [[3]]) = call at hcall ⊢
  exact nominations_grow hnominated trio rfl 5 call hcall

/-- A nomination in the node's own name that it has not made is recorded, and the first
nomination the node then makes is not newer. -/
theorem trio_bad_after_own_nomination :
    failure (SlotCall.run trio 5 (.receiveNomination (trioNomination 0 [[3]])))
      (new 1 trio) = none ∧
    failure (SlotCall.run trio 5 (.nominate [1] [0] false))
      (finalState (SlotCall.run trio 5 (.receiveNomination (trioNomination 0 [[3]])))
        (new 1 trio)) = some .badNominationState ∧
    Failure.badNominationState.what = some "moved to a bad state (nomination)" := by
  refine ⟨by decide +kernel, by decide +kernel, rfl⟩

end DigitalBits.Scp
