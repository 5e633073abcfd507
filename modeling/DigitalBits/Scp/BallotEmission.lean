import DigitalBits.Scp.BallotGrowth

/-!
# What a node emits

The statement a node makes after a move passes the checks that the node and its
peers apply: it is newer than the one recorded, the ballots in it are ordered, `h`
does not exceed `p`, and its values are valid. The last point needs a driver that
does not take back a verdict, and a node that does not accept its own blank ballot.
-/
namespace DigitalBits.Scp
open Lib LocalNode BallotProtocol Option Slot

/-! ## Valid values -/

variable (scp : SCP)

/-- The driver does not refuse the value on a slot. -/
def SCP.Valid (slotIndex : Uint64) (v : Value) : Prop :=
  scp.mDriver.validateValue slotIndex v false ≠ .kInvalidValue

section
variable {scp : SCP} {slotIndex : Uint64} {st : BallotStatement} {n : NodeID} {b : SCPBallot}

theorem ValidationLevel.min_ne_invalid {l l' : ValidationLevel} :
    ValidationLevel.min l l' ≠ .kInvalidValue ↔ l ≠ .kInvalidValue ∧ l' ≠ .kInvalidValue := by
  cases l <;> cases l' <;> simp [ValidationLevel.min]

/-- A statement passes the check of its values when there are some and all are valid. -/
theorem validateValues_iff : validateValues scp slotIndex st ≠ .kInvalidValue ↔
    (∃ v, v ∈ getStatementValues st.pledges) ∧
      ∀ v ∈ getStatementValues st.pledges, scp.Valid slotIndex v := by
  have hfold : ∀ (l : List Value) (lv : ValidationLevel),
      l.foldl (fun lv v => if lv = .kInvalidValue then lv
        else ValidationLevel.min (scp.mDriver.validateValue slotIndex v false) lv) lv ≠
          .kInvalidValue ↔ lv ≠ .kInvalidValue ∧ ∀ v ∈ l, scp.Valid slotIndex v := by
    intro l
    induction l with
    | nil => simp
    | cons v l ih =>
      intro lv
      rw [List.foldl_cons, ih]
      by_cases hlv : lv = .kInvalidValue
      · simp [hlv]
      · rw [if_neg hlv, ValidationLevel.min_ne_invalid, List.forall_mem_cons]
        tauto
  unfold validateValues
  simp only
  split_ifs with hempty <;> rw [OrderedSet.isEmpty_iff] at hempty
  · simp [hempty]
  · push Not at hempty
    simp only [hfold, ne_eq, reduceCtorEq, not_false_eq_true, true_and, hempty]
    rfl

/-- The empty value is valid, or the node is not a quorum slice of its own: it never
accepts the blank ballot of its first statement. -/
def SCP.Guarded (scp : SCP) (slotIndex : Uint64) : Prop :=
  scp.Valid slotIndex [] ∨
    isQuorumSlice scp.mLocalNode.mQSet [scp.mLocalNode.mNodeID] = false

/-- The node may make a blank statement, or its quorum set asks for majorities: then
it makes none if it is a slice of its own. -/
def SCP.Prudent (scp : SCP) (slotIndex : Uint64) : Prop :=
  scp.Guarded slotIndex ∨ isQuorumSetSane scp.mLocalNode.mQSet true = true

/-- What the node checked of a statement before it recorded it. A statement without
a ballot is the node's own, and its ballot is the default one. -/
structure Vetted (scp : SCP) (slotIndex : Uint64) (n : NodeID) (st : BallotStatement) : Prop where
  sane : isStatementSane scp st (decide (n = scp.mLocalNode.mNodeID)) = true
  valid : ∀ v ∈ getStatementValues st.pledges, scp.Valid slotIndex v
  blank : ∀ p, st.pledges = .prepare p → p.ballot.counter = 0 →
    p.ballot.value = [] ∧ scp.Guarded slotIndex

theorem Vetted.pledges (h : Vetted scp slotIndex n st) :
    arePledgesSane (decide (n = scp.mLocalNode.mNodeID)) st.pledges = true := by
  have hsane := h.sane
  simp only [isStatementSane, Bool.and_eq_true] at hsane
  exact hsane.2

theorem Vetted.known (h : Vetted scp slotIndex n st) :
    ∃ q, getQuorumSetFromStatement scp.mDriver st = some q := by
  have hsane := h.sane
  simp only [isStatementSane, Bool.and_eq_true] at hsane
  cases hq : getQuorumSetFromStatement scp.mDriver st with
  | none => rw [hq] at hsane; cases hsane.1
  | some q => exact ⟨q, rfl⟩

/-- The value of a ballot that a statement has accepted as prepared is valid. -/
theorem Vetted.valid_of_prepared (h : Vetted scp slotIndex n st)
    (hb : hasPreparedBallot b st.pledges = true) : scp.Valid slotIndex b.value := by
  refine h.valid _ ?_
  cases hpl : st.pledges with
  | prepare p =>
    rw [hpl] at hb
    simp only [hasPreparedBallot, Bool.or_eq_true, any_eq_true,
      areBallotsLessAndCompatible_iff] at hb
    simp only [getStatementValues, OrderedSet.mem_insertAll, List.mem_map, mem_toList]
    rcases hb with ⟨q, hq, -, hv⟩ | ⟨q, hq, -, hv⟩
    · exact .inr (.inl ⟨q, hq, hv.symm⟩)
    · exact .inl ⟨q, hq, hv.symm⟩
  | confirm c | externalize e =>
    rw [hpl] at hb
    simp only [hasPreparedBallot, areBallotsLessAndCompatible_iff, areBallotsCompatible_iff] at hb
    simp [getStatementValues, hb]

/-- So is that of a ballot it has voted for, unless it is the node's own blank
statement. -/
theorem Vetted.valid_of_voted (h : Vetted scp slotIndex n st)
    (hb : hasVotedPrepare b st.pledges = true) :
    scp.Valid slotIndex b.value ∨
      n = scp.mLocalNode.mNodeID ∧ b.value = [] ∧ scp.Guarded slotIndex := by
  cases hpl : st.pledges with
  | prepare p =>
    rw [hpl] at hb
    simp only [hasVotedPrepare, areBallotsLessAndCompatible_iff] at hb
    by_cases hzero : p.ballot.counter = 0
    · obtain ⟨hempty, hguard⟩ := h.blank p hpl hzero
      refine .inr ⟨?_, hb.2.trans hempty, hguard⟩
      have hsane := h.pledges
      rw [hpl] at hsane
      have hself := (arePledgesSane_prepare_iff.mp hsane).1
      simpa only [hzero, gt_iff_lt, lt_self_iff_false, or_false, decide_eq_true_eq] using hself
    · refine .inl (h.valid _ ?_)
      rw [hpl]
      simp [getStatementValues, hzero, hb.2]
  | confirm c | externalize e =>
    rw [hpl] at hb
    refine .inl (h.valid _ ?_)
    simp only [hasVotedPrepare, areBallotsCompatible_iff] at hb
    rw [hpl]
    simp [getStatementValues, hb]

theorem Vetted.valid_of_commit (h : Vetted scp slotIndex n st) {cur : Interval}
    (hb : hasVotedCommit b cur st.pledges = true ∨ commitPredicate b cur st.pledges = true) :
    scp.Valid slotIndex b.value := by
  refine h.valid _ ?_
  cases hpl : st.pledges with
  | prepare p =>
    rw [hpl] at hb
    simp only [hasVotedCommit, commitPredicate, Bool.false_eq_true, or_false, Bool.and_eq_true,
      areBallotsCompatible_iff, decide_eq_true_eq] at hb
    obtain ⟨hv, hnC, -⟩ := hb
    -- a statement that votes to commit has a ballot
    have hsane := h.pledges
    rw [hpl] at hsane
    obtain ⟨hnH, hle, -⟩ := (arePledgesSane_prepare_iff.mp hsane).2.2.2.resolve_left hnC
    have hpos : p.ballot.counter ≠ 0 := by
      intro hzero
      rw [hzero] at hle
      exact hnH (le_antisymm hle (Fin.zero_le _))
    simp [getStatementValues, hpos, hv]
  | confirm c | externalize e =>
    rw [hpl] at hb
    simp only [hasVotedCommit, commitPredicate, Bool.and_eq_true, areBallotsCompatible_iff] at hb
    have hv := hb.elim And.left And.left
    simp [getStatementValues, hv]

end

/-! ## What a node can accept is valid -/

/-- Every recorded statement was checked. -/
def AllVetted (slotIndex : Uint64) (bp : BallotProtocol) : Prop :=
  ∀ n e, bp.mLatestEnvelopes.lookup n = some e → Vetted scp slotIndex n e.statement

section
variable {scp : SCP} {slotIndex : Uint64} {bp : BallotProtocol} {b : SCPBallot}

theorem valid_of_canAccept (hvet : AllVetted scp slotIndex bp) (hb : CanAccept scp bp b) :
    scp.Valid slotIndex b.value := by
  rcases federatedAccept_iff.mp hb with h | h
  · obtain ⟨n, e, he, hprep⟩ := exists_of_isVBlocking h
    exact (hvet n e he).valid_of_prepared hprep
  · obtain ⟨u, hu, hslice⟩ := exists_quorum_of_federatedRatify.mp h
    by_contra hbad
    -- then the node is the only member of the quorum
    have hself : ∀ n ∈ u, n = scp.mLocalNode.mNodeID ∧ b.value = [] ∧ scp.Guarded slotIndex := by
      intro n hn
      obtain ⟨e, he, hsup, -⟩ := hu n hn
      simp only [Bool.or_eq_true] at hsup
      rcases hsup with hprep | hvote
      · exact absurd ((hvet n e he).valid_of_prepared hprep) hbad
      · exact ((hvet n e he).valid_of_voted hvote).resolve_left hbad
    have hsingle : isQuorumSlice scp.mLocalNode.mQSet [scp.mLocalNode.mNodeID] = true := by
      exact isQuorumSlice_mono (fun n hn => List.mem_singleton.mpr (hself n hn).1) hslice
    obtain ⟨n, -, hn⟩ := exists_mem_of_isQuorumSlice hslice
    obtain ⟨-, hempty, hvalid | hno⟩ := hself n hn
    · exact hbad (hempty ▸ hvalid)
    · rw [hsingle] at hno
      cases hno

theorem valid_of_ratified (hvet : AllVetted scp slotIndex bp)
    (h : federatedRatify scp bp.mLatestEnvelopes (hasPreparedBallot b) = true) :
    scp.Valid slotIndex b.value := by
  obtain ⟨n, e, he, hprep⟩ := exists_of_federatedRatify h
  exact (hvet n e he).valid_of_prepared hprep

theorem valid_of_acceptCommit (hvet : AllVetted scp slotIndex bp) {cur : Interval}
    (h : federatedAccept scp bp.mLatestEnvelopes (hasVotedCommit b cur)
      (commitPredicate b cur) = true) : scp.Valid slotIndex b.value := by
  obtain ⟨n, e, he, hsup⟩ := exists_of_federatedAccept h
  exact (hvet n e he).valid_of_commit hsup

end

/-! ## States from which a node can speak -/

/-- What makes the next statement of a node acceptable to itself. -/
structure Fit (scp : SCP) (slotIndex : Uint64) (bp : BallotProtocol) : Prop where
  records : AllVetted scp slotIndex bp
  current : ∀ b ∈ bp.mCurrentBallot, scp.Valid slotIndex b.value
  prepared : ∀ p ∈ bp.mPrepared, scp.Valid slotIndex p.value
  preparedPrime : ∀ p' ∈ bp.mPreparedPrime, scp.Valid slotIndex p'.value
  override : ∀ v ∈ bp.mValueOverride, scp.Valid slotIndex v
  high : bp.mPhase = .prepare → ∀ h ∈ bp.mHighBallot, bp.Covers h
  commit : bp.mPhase = .externalize → ∀ c ∈ bp.mCommit, c.counter ≠ 0

section
variable {scp : SCP} {slotIndex : Uint64} {bp bp' : BallotProtocol} {ballot newC newH c h : SCPBallot}

theorem new_fit (scp : SCP) (slotIndex : Uint64) : Fit scp slotIndex .new := by
  constructor <;> simp [AllVetted, BallotProtocol.new]

/-- Bookkeeping remembers valid values only. -/
theorem Bookkeep.fit {s t : Slot} (hb : Bookkeep scp s t)
    (hs : Fit scp slotIndex s.mBallotProtocol) : Fit scp slotIndex t.mBallotProtocol := by
  have hover : ∀ v ∈ t.mBallotProtocol.mValueOverride, scp.Valid slotIndex v := by
    cases hb with
    | remember hfound =>
      intro v hv
      cases hv
      obtain ⟨-, -, -, -, hrat, -⟩ := confirmablePrepared_some hfound
      exact valid_of_ratified hs.records hrat
    | notify | check | heard | level | unvalidated | gotVBlocking | stopNomination | queue | send =>
      exact hs.override
  obtain ⟨⟨hphase, hcur, hprep, hprime, hhigh, hcommit⟩, hlatest⟩ := hb.sameBallots
  refine ⟨?_, hcur ▸ hs.current, hprep ▸ hs.prepared, hprime ▸ hs.preparedPrime, hover, ?_, ?_⟩
  · simpa only [AllVetted, hlatest] using hs.records
  · simpa only [BallotProtocol.Covers, hphase, hhigh, hprep] using hs.high
  · simpa only [hphase, hcommit] using hs.commit

theorem Fit.acceptPrepared (hfit : Fit scp slotIndex bp)
    (hen : Enabled scp bp (.acceptPrepared ballot)) :
    Fit scp slotIndex (bp.acceptPrepared ballot) := by
  cases hen with
  | acceptPrepared hphase hacc hclear =>
    have hballot : scp.Valid slotIndex ballot.value :=
      valid_of_canAccept hfit.records hacc.2.2
    have hprepared : ∀ q, q ∈ (bp.acceptPrepared ballot).mPrepared ∨
        q ∈ (bp.acceptPrepared ballot).mPreparedPrime → scp.Valid slotIndex q.value := by
      intro q hq
      rcases mem_acceptPrepared hacc.2.1 hq with rfl | hq | hq
      · exact hballot
      · exact hfit.prepared q hq
      · exact hfit.preparedPrime q hq
    obtain ⟨q, q', d, hfields, -⟩ := acceptPrepared_fields bp ballot
    refine ⟨?_, ?_, fun q hq => hprepared q (.inl hq), fun q hq => hprepared q (.inr hq), ?_, ?_, ?_⟩
    · simpa [AllVetted] using hfit.records
    · simpa using hfit.current
    · rw [hfields]
      exact hfit.override
    · rw [acceptPrepared_mPhase, acceptPrepared_mHighBallot]
      intro hp h hh
      exact (acceptPrepared_covers hacc.2.1).2 h (hfit.high hp h hh)
    · rw [acceptPrepared_mPhase]
      exact fun hext => absurd hext hphase

theorem BallotProtocol.raisedTo_mValueOverride :
    (bp.raisedTo h).mValueOverride = bp.mValueOverride := by
  unfold BallotProtocol.raisedTo
  split_ifs <;> rfl

theorem BallotProtocol.acceptCommit_mValueOverride :
    (bp.acceptCommit c h).mValueOverride = some h.value := by
  unfold BallotProtocol.acceptCommit
  split_ifs <;> rw [raisedTo_mValueOverride] <;> rfl

/-- What is ratified can be accepted, hence is covered. -/
theorem Fit.confirmPrepared (hfit : Fit scp slotIndex bp) (hbp : bp.Consistent)
    (hset : Settled scp bp) (hen : Enabled scp bp (.confirmPrepared newC newH)) :
    Fit scp slotIndex (bp.confirmPrepared newC newH) := by
  cases hen with
  | confirmPrepared hphase hp hhigh hrat hvote =>
    have hnewH : scp.Valid slotIndex newH.value := valid_of_ratified hfit.records hrat
    have hcover : bp.Covers newH := hset newH (.inl hphase) (federatedAccept_of_ratify hrat)
    have hcases := hbp.confirmPrepared_cases newC hhigh
    have hprep := bp.confirmPrepared_mPrepared newC newH
    refine ⟨?_, ?_, hprep ▸ hfit.prepared, ?_, ?_, ?_, ?_⟩
    · simpa [AllVetted] using hfit.records
    · rw [BallotProtocol.confirmPrepared, raisedTo_mCurrentBallot]
      split_ifs
      · simpa using hnewH
      · exact hfit.current
    · simpa using hfit.preparedPrime
    · rw [BallotProtocol.confirmPrepared, raisedTo_mValueOverride]
      intro v hv
      cases hv
      exact hnewH
    · intro _ h hh
      have hcov : bp.Covers h := by
        obtain ⟨-, hh', -⟩ | ⟨b, -, -, -, -, hh', -⟩ | ⟨b, -, -, -, -, hh', -⟩ := hcases
        · obtain rfl := mem_unique hh' hh
          exact hcover
        · rw [hh'] at hh
          cases hh
        · rw [hh'] at hh
          exact hfit.high hphase h hh
      obtain ⟨p, hmem, hle⟩ := hcov
      exact ⟨p, hprep ▸ hmem, hle⟩
    · simp [hphase]

theorem Fit.acceptCommit (hfit : Fit scp slotIndex bp) (hbp : bp.Consistent)
    (hen : Enabled scp bp (.acceptCommit c h)) : Fit scp slotIndex (bp.acceptCommit c h) := by
  cases hen with
  | acceptCommit hval hpos hle hp hphase hacc =>
    have hh : scp.Valid slotIndex h.value := by
      rw [← hval]
      exact valid_of_acceptCommit hfit.records hacc
    have hen : Enabled scp bp (.acceptCommit c h) := .acceptCommit hval hpos hle hp hphase hacc
    have hconf := bp.acceptCommit_mPhase c h hen.mPhase_ne
    obtain ⟨b, hb, -, hv, -⟩ := hen.exists_mCurrentBallot hbp
    refine ⟨?_, ?_, ?_, ?_, ?_, ?_, ?_⟩
    · simpa [AllVetted] using hfit.records
    · intro b' hb'
      obtain rfl := mem_unique hb hb'
      rwa [← hv]
    · simpa using hfit.prepared
    · rw [acceptCommit_mPreparedPrime]
      split_ifs
      · intro p' hp'
        cases hp'
      · exact hfit.preparedPrime
    · rw [acceptCommit_mValueOverride]
      intro v hv
      cases hv
      exact hh
    · simp [hconf]
    · simp [hconf]

theorem Fit.confirmCommit (hfit : Fit scp slotIndex bp)
    (hen : Enabled scp bp (.confirmCommit c h)) : Fit scp slotIndex (bp.confirmCommit c h) := by
  cases hen with
  | confirmCommit hval hpos hle hphase hc₀ hsame hrat =>
    have hh : scp.Valid slotIndex h.value := by
      rw [← hval]
      obtain ⟨n, e, he, hsup⟩ := exists_of_federatedRatify hrat
      exact (hfit.records n e he).valid_of_commit (.inr hsup)
    refine ⟨?_, ?_, ?_, ?_, ?_, ?_, ?_⟩
    · simpa [AllVetted] using hfit.records
    · rw [confirmCommit_mCurrentBallot]
      split_ifs
      · simpa using hh
      · exact hfit.current
    · simpa using hfit.prepared
    · simpa using hfit.preparedPrime
    · change ∀ v ∈ ((bp.withCommitted c h).raisedTo h).mValueOverride, _
      rw [raisedTo_mValueOverride]
      exact hfit.override
    · simp
    · intro _ c' hc'
      rw [confirmCommit_mCommit] at hc'
      cases hc'
      exact hpos

theorem Fit.bumpedTo (hfit : Fit scp slotIndex bp) (hcan : bp.CanBumpTo ballot)
    (hballot : scp.Valid slotIndex ballot.value) : Fit scp slotIndex (bp.bumpedTo ballot) where
  records := hfit.records
  current := by simpa using hballot
  prepared := hfit.prepared
  preparedPrime := hfit.preparedPrime
  override := hfit.override
  high hphase h hh := hfit.high hphase h (mem_mHighBallot_of_bumpedTo hh)
  commit := fun hext => absurd hext hcan.1

end

/-! ## The node admits its own statement -/

/-- The driver can look up the quorum set the node announces. -/
def SCP.KnowsItself : Prop :=
  ∃ q, scp.mDriver.getQSet scp.mLocalNode.mQSetHash = some q ∧ isQuorumSetSane q false = true

section
variable {scp : SCP} {bp : BallotProtocol} {s t : Slot} {pl : BallotPledges}

variable {slotIndex : Uint64}

theorem prepareStatement_sane {hash : Hash} (hinv : bp.InvariantsHold) (hfit : Fit scp slotIndex bp)
    (hphase : bp.mPhase = .prepare) :
    arePledgesSane true (.prepare (bp.prepareStatement hash)) = true := by
  refine arePledgesSane_prepare_iff.mpr ⟨.inl rfl, ?_, ?_, ?_⟩
  · intro p hp p' hp'
    obtain ⟨hlt, hv⟩ := hinv.prepared p hp p' hp'
    exact ⟨hlt.le, hv⟩
  · simp only [BallotProtocol.prepareStatement]
    cases hh : bp.mHighBallot with
    | none => exact .inl rfl
    | some h =>
      obtain ⟨p, hp, hle⟩ := hfit.high hphase h hh
      exact .inr ⟨p, hp, SCPBallot.counter_le hle⟩
  · simp only [BallotProtocol.prepareStatement]
    cases hc : bp.mCommit with
    | none => exact .inl rfl
    | some c =>
      obtain ⟨h, hh, hch, -⟩ := hinv.commit c hc
      obtain ⟨b, hb, hhb, -⟩ := hinv.high h hh
      rw [mem_def] at hh hb
      have hcount := SCPBallot.counter_le hch
      simp only [hh, hb, map_some, getD_some]
      by_cases hzero : c.counter = 0
      · exact .inl hzero
      · refine .inr ⟨?_, SCPBallot.counter_le hhb, hcount⟩
        intro hnH
        rw [hnH] at hcount
        exact hzero (le_antisymm hcount (Fin.zero_le _))

/-- The pledges of a state that passed its checks are sane. -/
theorem pledges_sane (hpl : Pledges scp s pl) (hfit : Fit scp slotIndex s.mBallotProtocol) :
    arePledgesSane true pl = true := by
  have hinv := (checkInvariants_ok_iff _).mp hpl.1
  cases hphase : s.mBallotProtocol.mPhase with
  | prepare =>
    rw [pledges_of_prepare hphase hpl.2]
    exact prepareStatement_sane hinv hfit hphase
  | confirm =>
    obtain ⟨b, p, c, h, hb, -, hc, hh, rfl⟩ := pledges_of_confirm hphase hpl.2
    obtain ⟨h', hh', hch, -⟩ := hinv.commit c hc
    obtain rfl := mem_unique hh hh'
    obtain ⟨b', hb', hhb, -⟩ := hinv.high h hh
    obtain rfl := mem_unique hb hb'
    have hpos : b.counter > 0 := Fin.pos_of_ne_zero (hinv.current b hb)
    simp only [arePledgesSane, Bool.and_eq_true, decide_eq_true_eq]
    exact ⟨⟨hpos, SCPBallot.counter_le hhb⟩, SCPBallot.counter_le hch⟩
  | externalize =>
    obtain ⟨ht, -⟩ | ⟨ht, -⟩ | ⟨-, c, h, hc, hh, rfl⟩ := pledges_cases hpl.2
    · rw [hphase] at ht; cases ht
    · rw [hphase] at ht; cases ht
    · obtain ⟨h', hh', hch, -⟩ := hinv.commit c hc
      obtain rfl := mem_unique hh hh'
      have hpos : c.counter > 0 := Fin.pos_of_ne_zero (hfit.commit hphase c hc)
      simp only [arePledgesSane, Bool.and_eq_true, decide_eq_true_eq]
      exact ⟨hpos, SCPBallot.counter_le hch⟩

theorem ownStatement_sane (hpl : Pledges scp s pl) (hfit : Fit scp slotIndex s.mBallotProtocol)
    (hknows : scp.KnowsItself) :
    isStatementSane scp (scp.ownEnvelope s pl).statement true = true := by
  simp only [isStatementSane, Bool.and_eq_true]
  refine ⟨?_, pledges_sane hpl hfit⟩
  obtain ⟨q, hq, hsane⟩ := hknows
  obtain ⟨-, rfl⟩ | ⟨-, b, p, c, h, -, -, -, -, rfl⟩ | ⟨-, c, h, -, -, rfl⟩ :=
    pledges_cases hpl.2
  · simpa [SCP.ownEnvelope, SCP.signedEnvelope, getQuorumSetFromStatement, hq]
  · simpa [SCP.ownEnvelope, SCP.signedEnvelope, getQuorumSetFromStatement, hq]
  · exact isQuorumSetSane_singleton _

/-- Every value of a statement of a node is that of one of its ballots. -/
theorem valid_of_ownValue (hpl : Pledges scp s pl) (hfit : Fit scp slotIndex s.mBallotProtocol)
    {v : Value} (hv : v ∈ getStatementValues pl) :
    scp.Valid slotIndex v := by
  have hinv := (checkInvariants_ok_iff _).mp hpl.1
  obtain ⟨-, rfl⟩ | ⟨-, b, p, c, h, hb, -, -, -, rfl⟩ | ⟨-, c, h, hc, -, rfl⟩ :=
    pledges_cases hpl.2
  · simp only [getStatementValues, OrderedSet.mem_insertAll, OrderedSet.notMem_empty, or_false,
      List.mem_map, mem_toList] at hv
    rcases hv with ⟨p', hp', rfl⟩ | ⟨p, hp, rfl⟩ | hb
    · exact hfit.preparedPrime p' hp'
    · exact hfit.prepared p hp
    · split_ifs at hb with hpos
      · cases hcur : s.mBallotProtocol.mCurrentBallot with
        | none => rw [hcur] at hpos; exact absurd rfl hpos
        | some b =>
          rw [hcur, List.mem_singleton] at hb
          rw [hb]
          exact hfit.current b hcur
      · cases hb
  · simp only [getStatementValues, OrderedSet.mem_insert, OrderedSet.notMem_empty, or_false] at hv
    rw [hv]
    exact hfit.current b hb
  · simp only [getStatementValues, OrderedSet.mem_insert, OrderedSet.notMem_empty, or_false] at hv
    obtain ⟨h', hh', -, hch⟩ := hinv.commit c hc
    obtain ⟨b, hb, -, hhb⟩ := hinv.high h' hh'
    rw [hv, hch, hhb]
    exact hfit.current b hb

/-- A node that is on a ballot, or has accepted one, has something to say. -/
theorem exists_ownValue (hpl : Pledges scp s pl)
    (hsome : s.mBallotProtocol.mPrepared ≠ none ∨ s.mBallotProtocol.mCurrentBallot ≠ none) :
    ∃ v, v ∈ getStatementValues pl := by
  have hinv := (checkInvariants_ok_iff _).mp hpl.1
  obtain ⟨-, rfl⟩ | ⟨-, b, p, c, h, -, -, -, -, rfl⟩ | ⟨-, c, h, -, -, rfl⟩ :=
    pledges_cases hpl.2
  · rcases hsome with hp | hb
    · obtain ⟨p, hp⟩ := ne_none_iff_exists'.mp hp
      exact ⟨p.value, by simp [getStatementValues, hp]⟩
    · obtain ⟨b, hb⟩ := ne_none_iff_exists'.mp hb
      exact ⟨b.value, by simp [getStatementValues, hb, hinv.current b hb]⟩
  · exact ⟨b.value, by simp [getStatementValues]⟩
  · exact ⟨c.value, by simp [getStatementValues]⟩

end

/-! ## Speaking never fails -/

/-- The pledges of the current state. -/
def SCP.pledges (scp : SCP) (s : Slot) : Except Failure BallotPledges :=
  s.mBallotProtocol.pledges scp.mLocalNode.mQSetHash s.mBallotProtocol.mPhase.statementType

/-- The recorded envelope of the node, if any, tells its current state. -/
def InStep (s : Slot) : Prop :=
  ∀ e, s.mBallotProtocol.mLatestEnvelopes.lookup scp.mLocalNode.mNodeID = some e →
    ∃ pl, scp.pledges s = .ok pl ∧ e = scp.ownEnvelope s pl

/-- The recorded envelope of the node tells its current state or an older one. -/
def Behind (s : Slot) : Prop :=
  ∀ e, s.mBallotProtocol.mLatestEnvelopes.lookup scp.mLocalNode.mNodeID = some e →
    ∃ pl₀, e = scp.ownEnvelope s pl₀ ∧
      ∀ pl, scp.pledges s = .ok pl → pl₀ = pl ∨ isNewerStatement pl₀ pl = true

/-- What holds between the moves of a node whose values are valid. -/
structure Ready (scp : SCP) (s : Slot) : Prop where
  fit : Fit scp s.mSlotIndex s.mBallotProtocol
  inStep : InStep scp s
  composite : ∀ v ∈ s.mNominationProtocol.mLatestCompositeCandidate, scp.Valid s.mSlotIndex v
  guard : scp.Prudent s.mSlotIndex
  knows : scp.KnowsItself

section
variable {scp : SCP} {s t : Slot} {pl : BallotPledges}

/-- A statement that is not the recorded one is newer, and passes every check. -/
theorem admits_own (hpl : Pledges scp t pl) (hfit : Fit scp t.mSlotIndex t.mBallotProtocol)
    (hknows : scp.KnowsItself) (hbehind : Behind scp t)
    (hsome : t.mBallotProtocol.mPrepared ≠ none ∨ t.mBallotProtocol.mCurrentBallot ≠ none)
    (hne : t.mBallotProtocol.mLatestEnvelopes.lookup scp.mLocalNode.mNodeID ≠
      some (scp.ownEnvelope t pl)) : Admits scp t (scp.ownEnvelope t pl).statement true := by
  refine ⟨ownStatement_sane hpl hfit hknows, ?_, ?_⟩
  · change (t.mBallotProtocol.mLatestEnvelopes.lookup scp.mLocalNode.mNodeID).all _ = true
    cases hlook : t.mBallotProtocol.mLatestEnvelopes.lookup scp.mLocalNode.mNodeID with
    | none => rfl
    | some e =>
      obtain ⟨pl₀, rfl, hnewer⟩ := hbehind e hlook
      rcases hnewer pl hpl.2 with rfl | hnewer
      · exact absurd hlook hne
      · exact hnewer
  · exact validateValues_iff.mpr ⟨exists_ownValue hpl hsome,
      fun v hv => valid_of_ownValue hpl hfit hv⟩

theorem vetted_own (hpl : Pledges scp t pl)
    (hblank : t.mBallotProtocol.mCurrentBallot = none → scp.Guarded t.mSlotIndex)
    (hadm : Admits scp t (scp.ownEnvelope t pl).statement true) :
    Vetted scp t.mSlotIndex scp.mLocalNode.mNodeID (scp.ownEnvelope t pl).statement := by
  refine ⟨?_, (validateValues_iff.mp hadm.2.2).2, ?_⟩
  · rw [decide_eq_true rfl]
    exact hadm.1
  · intro p hp hzero
    have hinv := (checkInvariants_ok_iff _).mp hpl.1
    obtain ⟨-, rfl⟩ | ⟨-, b, q, c, h, -, -, -, -, rfl⟩ | ⟨-, c, h, -, -, rfl⟩ :=
      pledges_cases hpl.2
    · cases hp
      cases hb : t.mBallotProtocol.mCurrentBallot with
      | none => exact ⟨rfl, hblank hb⟩
      | some b =>
        rw [hb] at hzero
        exact absurd hzero (hinv.current b hb)
    all_goals cases hp

/-- A statement of another node that is admitted was checked. -/
theorem vetted_other {env : BallotEnvelope} (hadm : Admits scp s env.statement false)
    (hother : env.statement.nodeID ≠ scp.mLocalNode.mNodeID) :
    Vetted scp s.mSlotIndex env.statement.nodeID env.statement := by
  refine ⟨?_, (validateValues_iff.mp hadm.2.2).2, ?_⟩
  · rw [decide_eq_false hother]
    exact hadm.1
  · intro p hp hzero
    have hsane := hadm.1
    simp only [isStatementSane, Bool.and_eq_true, hp] at hsane
    have hpos := (arePledgesSane_prepare_iff.mp hsane.2).1.resolve_left (by simp)
    rw [hzero] at hpos
    exact absurd hpos (lt_irrefl _)

theorem Fit.record {slotIndex : Uint64} {bp : BallotProtocol} (hfit : Fit scp slotIndex bp)
    {env : BallotEnvelope} (hvet : Vetted scp slotIndex env.statement.nodeID env.statement) :
    Fit scp slotIndex (bp.record env) :=
  { hfit with records := Store.forall_lookup_insert hvet fun n _ => hfit.records n }

theorem BallotProtocol.SameVotes.pledges_eq {bp bp' : BallotProtocol} (h : bp.SameVotes bp')
    (hash : Hash) : bp'.pledges hash bp'.mPhase.statementType =
      bp.pledges hash bp.mPhase.statementType := by
  simp only [BallotProtocol.pledges, h.phase, h.current, h.prepared, h.preparedPrime, h.high,
    h.commit]

theorem Bookkeep.mNominationProtocol (h : Bookkeep scp s t) :
    t.mNominationProtocol.mLatestCompositeCandidate =
      s.mNominationProtocol.mLatestCompositeCandidate := by
  cases h <;> rfl

theorem Bookkeep.ready (h : Bookkeep scp s t) (hs : Ready scp s) : Ready scp t := by
  have hindex := h.mSlotIndex
  have hsame := h.sameBallots
  refine ⟨?_, ?_, ?_, ?_, hs.knows⟩
  · exact hindex ▸ h.fit hs.fit
  · intro e he
    rw [hsame.latest] at he
    obtain ⟨pl, hpl, rfl⟩ := hs.inStep e he
    refine ⟨pl, (hsame.pledges_eq _).trans hpl, ?_⟩
    rw [SCP.ownEnvelope, SCP.ownEnvelope, hindex]
  · rw [h.mNominationProtocol, hindex]
    exact hs.composite
  · exact hindex ▸ hs.guard

end

/-- What holds after a move, before the node has told it. -/
structure Unspoken (scp : SCP) (t : Slot) : Prop where
  consistent : t.mBallotProtocol.Consistent
  fit : Fit scp t.mSlotIndex t.mBallotProtocol
  behind : Behind scp t
  started : t.mBallotProtocol.mPrepared ≠ none ∨ t.mBallotProtocol.mCurrentBallot ≠ none
  composite : ∀ v ∈ t.mNominationProtocol.mLatestCompositeCandidate, scp.Valid t.mSlotIndex v
  blank : t.mBallotProtocol.mCurrentBallot = none → scp.Guarded t.mSlotIndex
  guard : scp.Prudent t.mSlotIndex
  knows : scp.KnowsItself

/-- The contract that a node never refuses its own statement. -/
def readyContract : Contract scp where
  Ghost := Unit
  At _ _ _ s := Ready scp s
  Exit _ s := Ready scp s
  Fails _ e _ := e ≠ .badBallotState

section
variable {scp : SCP} {s t : Slot} {hint : BallotStatement} {m : Move}

/-- A failed check is an assertion. -/
theorem checkInvariants_ne_bad {bp : BallotProtocol} :
    bp.checkInvariants ≠ .error .badBallotState := by
  intro h
  have hmem := checkInvariants_error h
  simp at hmem

theorem Unspoken.recorded (h : Unspoken scp t) {pl : BallotPledges} (hpl : Pledges scp t pl)
    (hadm : Admits scp t (scp.ownEnvelope t pl).statement true) :
    Ready scp ((t.signed (scp.ownEnvelope t pl)).record (scp.ownEnvelope t pl)) := by
  refine ⟨h.fit.record (vetted_own hpl h.blank hadm), ?_, h.composite, h.guard, h.knows⟩
  intro e he
  have hlook : (t.mBallotProtocol.record (scp.ownEnvelope t pl)).mLatestEnvelopes.lookup
      scp.mLocalNode.mNodeID = some (scp.ownEnvelope t pl) := AList.lookup_insert _
  obtain rfl := mem_unique hlook he
  exact ⟨pl, hpl.2, rfl⟩

/-- A node that has moved can speak. -/
theorem Unspoken.hand (h : Unspoken scp t) {K : Slot → Prop} (hK : ∀ u, Ready scp u → K u) :
    (readyContract scp).Hand () K t := by
  refine ⟨(), ⟨?_, ?_, ?_, ?_, ?_, ?_⟩, hK, fun _ _ hf => hf⟩
  · rintro e he rfl
    exact checkInvariants_ne_bad he
  · intro _ e he
    obtain ⟨pl, hpl⟩ := h.consistent.pledges_ok scp.mLocalNode.mQSetHash
    rw [hpl] at he
    cases he
  · intro pl hpl hsame
    refine ⟨h.fit, ?_, h.composite, h.guard, h.knows⟩
    intro e he
    obtain rfl := mem_unique hsame he
    exact ⟨pl, hpl.2, rfl⟩
  · intro pl hpl hne hbad
    exact absurd (admits_own hpl h.fit h.knows h.behind h.started hne) hbad
  · exact fun pl hpl hadm _ => h.recorded hpl hadm
  · exact fun pl hpl hadm _ => h.recorded hpl hadm

/-- A quorum slice of one node is part of everything the node may accept. -/
theorem exists_own_of_canAccept {bp : BallotProtocol} {b : SCPBallot}
    (hsane : isQuorumSetSane scp.mLocalNode.mQSet true = true)
    (hslice : isQuorumSlice scp.mLocalNode.mQSet [scp.mLocalNode.mNodeID] = true)
    (hb : CanAccept scp bp b) :
    ∃ e, bp.mLatestEnvelopes.lookup scp.mLocalNode.mNodeID = some e := by
  rcases federatedAccept_iff.mp hb with h | h
  · obtain ⟨n, hn, e, he, -⟩ :=
      exists_sender_of_isVBlocking (wellFormed_of_isQuorumSetSane hsane) h hslice
    rw [List.mem_singleton.mp hn] at he
    exact ⟨e, he⟩
  · obtain ⟨u, hu, hquorum⟩ := exists_quorum_of_federatedRatify.mp h
    obtain ⟨n, hn, hself⟩ := slices_meet_of_isQuorumSetSane hsane hquorum hslice
    obtain ⟨e, he, -⟩ := hu n hn
    rw [List.mem_singleton.mp hself] at he
    exact ⟨e, he⟩

/-- A node without a ballot makes a statement only if it may be blank. -/
theorem Ready.guarded (hs : Ready scp s) (hbp : s.mBallotProtocol.Consistent)
    (hen : Enabled scp s.mBallotProtocol m)
    (hnone : (m.apply s.mBallotProtocol).mCurrentBallot = none) : scp.Guarded s.mSlotIndex := by
  cases hen with
  | @acceptPrepared ballot hphase hacc hclear =>
    rw [Move.apply, acceptPrepared_mCurrentBallot] at hnone
    rcases hs.guard with hguard | hsane
    · exact hguard
    cases hslice : isQuorumSlice scp.mLocalNode.mQSet [scp.mLocalNode.mNodeID] with
    | false => exact .inr hslice
    | true =>
      obtain ⟨e, he⟩ := exists_own_of_canAccept hsane hslice hacc.2.2
      obtain ⟨pl, hpl, rfl⟩ := hs.inStep e he
      have hprep : s.mBallotProtocol.mPhase = .prepare := by
        by_contra hne
        obtain ⟨b, p, h, c, hb, -⟩ := hbp.exists_of_later hne
        rw [hnone] at hb
        cases hb
      refine ((hs.fit.records _ _ he).blank _ (pledges_of_prepare hprep hpl) ?_).2
      simp only [BallotProtocol.prepareStatement, hnone, getD_none, default_counter]
  | @confirmPrepared newC newH hphase hp hhigh hrat hvote =>
    obtain ⟨-, -, -, b, hb, -⟩ | ⟨b, -, -, -, hb, -⟩ | ⟨b, -, -, -, hb, -⟩ :=
      hbp.confirmPrepared_cases newC hhigh
    all_goals exact absurd (hb.symm.trans hnone) (by simp)
  | @acceptCommit c h hval hpos hle hp hphase hacc =>
    obtain ⟨b, hb, -⟩ :=
      (Enabled.acceptCommit hval hpos hle hp hphase hacc).exists_mCurrentBallot hbp
    exact absurd (hb.symm.trans hnone) (by simp)
  | @confirmCommit c h c₀ hval hpos hle hphase hc₀ hsame hrat =>
    obtain ⟨b, p, h₀, c₁, hb, -⟩ := hbp.exists_of_later (by simp [hphase])
    rw [Move.apply, confirmCommit_mCurrentBallot, hb] at hnone
    split_ifs at hnone
  | bump hcan hpos => cases hnone

theorem Moved.mNominationProtocol (h : Moved s m t) :
    t.mNominationProtocol = s.mNominationProtocol := by
  obtain ⟨evs, -, rfl⟩ := h
  rfl

theorem Ready.unspoken (hs : Ready scp s) (hbp : s.mBallotProtocol.Consistent)
    (hen : Enabled scp s.mBallotProtocol m) (hm : Moved s m t)
    (hfit : Fit scp s.mSlotIndex (m.apply s.mBallotProtocol))
    (hstarted : (m.apply s.mBallotProtocol).mPrepared ≠ none ∨
      (m.apply s.mBallotProtocol).mCurrentBallot ≠ none) : Unspoken scp t := by
  have hindex := hm.mSlotIndex
  have ht := hm.mBallotProtocol
  refine ⟨?_, ?_, ?_, ?_, ?_, ?_, ?_, hs.knows⟩
  · exact ht ▸ hen.consistent hbp
  · rwa [ht, hindex]
  · intro e he
    rw [ht, hen.mLatestEnvelopes] at he
    obtain ⟨pl₀, hpl₀, rfl⟩ := hs.inStep e he
    refine ⟨pl₀, ?_, ?_⟩
    · rw [SCP.ownEnvelope, SCP.ownEnvelope, hindex]
    · intro pl hpl
      rw [SCP.pledges, ht] at hpl
      exact hen.newer hbp hpl₀ hpl
  · rwa [ht]
  · rw [hm.mNominationProtocol, hindex]
    exact hs.composite
  · rw [ht, hindex]
    exact hs.guarded hbp hen
  · exact hindex ▸ hs.guard

/-- The value of the ballot a node bumps to. -/
theorem Ready.bumps (hs : Ready scp s) (hbp : s.mBallotProtocol.Consistent) {value : Value}
    (hvalue : scp.Valid s.mSlotIndex value) {n : Uint32} (hn : n ≠ 0) {K : Slot → Prop}
    (hK : ∀ u, Ready scp u → K u) : (readyContract scp).Bumps () K s value n := by
  intro t hcan hm
  have hen : Enabled scp s.mBallotProtocol (.bump (s.mBallotProtocol.bumpTarget value n)) :=
    .bump hcan hn
  have htarget : scp.Valid s.mSlotIndex (s.mBallotProtocol.bumpTarget value n).value := by
    change scp.Valid s.mSlotIndex (s.mBallotProtocol.mValueOverride.getD value)
    cases hover : s.mBallotProtocol.mValueOverride with
    | none => exact hvalue
    | some v => exact hs.fit.override v hover
  have hun : Unspoken scp t :=
    hs.unspoken hbp hen hm (hs.fit.bumpedTo hcan htarget) (.inr (by simp [Move.apply]))
  have hlog : Unspoken scp (t.log (.checkInvariants t.mBallotProtocol)) := { hun with }
  refine ⟨?_, fun _ => hlog.hand hK⟩
  rintro e he rfl
  exact checkInvariants_ne_bad he

theorem Ready.abandonValue (hs : Ready scp s) {value : Value}
    (h : s.abandonValue = some value) : scp.Valid s.mSlotIndex value := by
  unfold Slot.abandonValue at h
  split at h
  · rename_i hcomp
    exact hs.composite value (hcomp.trans h)
  · split at h
    · rename_i b hb
      cases h
      exact hs.fit.current b hb
    · exact hs.composite value h

/-- The moves of the searches keep the values valid. -/
theorem Fit.attempted (hs : Ready scp s) (hbp : s.mBallotProtocol.Consistent) {stage : Stage}
    (hm : attempted scp s.mBallotProtocol hint.pledges stage = .ok (some m))
    (hen : Enabled scp s.mBallotProtocol m) (hcov : Coverage scp hint s.mBallotProtocol stage) :
    Fit scp s.mSlotIndex (m.apply s.mBallotProtocol) := by
  cases stage with
  | entered =>
    obtain ⟨ballot, rfl, -⟩ := attemptedAcceptPrepared_some hm
    exact hs.fit.acceptPrepared hen
  | accepted =>
    obtain ⟨newC, newH, rfl, -⟩ := attempted_accepted_some hm
    exact hs.fit.confirmPrepared hbp hcov hen
  | confirmed =>
    obtain ⟨_, c, h, -, rfl, -⟩ := attemptedAcceptCommit_some hm
    exact hs.fit.acceptCommit hbp hen
  | committed =>
    obtain ⟨_, c, h, -, rfl, -⟩ := attemptedConfirmCommit_some (Except.ok.inj hm)
    exact hs.fit.confirmCommit hen
  | finished => cases hm

theorem readyContract_holds (scp : SCP) :
    (readyContract scp).HoldsGiven fun stage hint s =>
      ∃ g, (coveredSteps scp).At stage g hint s where
  keeps_at stage g hint s t _ hb h := hb.ready h
  keeps_exit g s t hb h := hb.ready h
  error stage g hint s e hP h he := by
    obtain ⟨_, ⟨hreach, -⟩, -⟩ := hP
    obtain ⟨a, rfl⟩ := attempted_error hreach.consistent he
    simp [readyContract]
  stay stage g hint s _ h he := h
  move stage g hint s m t hP h hm ht := by
    obtain ⟨_, ⟨hreach, hpend⟩, hcov⟩ := hP
    have hbp := hreach.consistent
    have hen := enabled_of_attempted hbp hpend hm
    have hstarted := mPrepared_of_attempted hm hen hbp
    exact (h.unspoken hbp hen ht (Fit.attempted h hbp hm hen hcov) (.inl hstarted)).hand
      fun u hu => hu
  bump g hint s value n hP h hvalue _ hn := by
    obtain ⟨_, ⟨hreach, -⟩, -⟩ := hP
    exact h.bumps hreach.consistent (h.abandonValue hvalue) hn fun u hu => hu
  finish _ _ _ _ h := h
  tooManyTransitions _ _ _ _ _ := by simp [readyContract]
  diverges _ _ _ _ _ := by simp [readyContract]

end

/-! ## The order of what is sent -/

/-- The envelopes the driver was given to send, newest first. -/
def Slot.emitted (s : Slot) : List BallotEnvelope :=
  s.trace.filterMap fun
    | .emitEnvelope (.ballot e) => some e
    | _ => none

/-- The second envelope of a node replaces the first one. -/
def BallotEnvelope.Newer (e' e : BallotEnvelope) : Prop :=
  isNewerStatement e.statement.pledges e'.statement.pledges = true

/-- Every envelope that was sent is one that peers accept, and newer than the one
before. -/
structure Slot.EmitsWell (scp : SCP) (s : Slot) : Prop where
  sane : ∀ e ∈ s.emitted, isStatementSane scp e.statement false = true
  newer : s.emitted.IsChain BallotEnvelope.Newer

/-- The statement carries the hash of the node's own quorum set. -/
def SCP.Owns (e : BallotEnvelope) : Prop :=
  e.statement.pledges.quorumSetHash = scp.mLocalNode.mQSetHash

/-- What was sent last is `mLastEnvelopeEmit`, and what is queued is that or newer. All of it
is about the node's own quorum set. -/
structure Slot.Orderly (scp : SCP) (s : Slot) : Prop extends s.EmitsWell scp where
  signed : ∀ e, .signEnvelope (.ballot e) ∈ s.trace → scp.Owns e
  sent : ∀ e ∈ s.emitted, scp.Owns e
  last : s.emitted.head? = s.mBallotProtocol.mLastEnvelopeEmit
  queued : ∀ e ∈ s.mBallotProtocol.mLastEnvelope,
    isStatementSane scp e.statement false = true ∧ scp.Owns e
  order : ∀ e ∈ s.mBallotProtocol.mLastEnvelopeEmit, ∃ e' ∈ s.mBallotProtocol.mLastEnvelope,
    e' = e ∨ BallotEnvelope.Newer e' e

section
variable {scp : SCP} {s t : Slot}

theorem Slot.emitted_log {e : Event} (h : ∀ env, e ≠ .emitEnvelope (.ballot env)) :
    (s.log e).emitted = s.emitted := by
  cases e with
  | emitEnvelope env =>
    cases env with
    | ballot env => exact absurd rfl (h env)
    | nominate env => rfl
  | _ => rfl

theorem Slot.emitted_logAll {evs : List Event} (h : ∀ e ∈ evs, e.isAudit = false) :
    (s.logAll evs).emitted = s.emitted := by
  refine s.filterMap_logAll h fun e he => ?_
  cases e with
  | emitEnvelope env => cases he
  | _ => rfl

theorem Slot.Orderly.congr (h : s.Orderly scp) (hemit : t.emitted = s.emitted)
    (hlast : t.mBallotProtocol.mLastEnvelope = s.mBallotProtocol.mLastEnvelope)
    (hsent : t.mBallotProtocol.mLastEnvelopeEmit = s.mBallotProtocol.mLastEnvelopeEmit)
    (hsigned : ∀ e, .signEnvelope (.ballot e) ∈ t.trace →
      .signEnvelope (.ballot e) ∈ s.trace ∨ scp.Owns e) :
    t.Orderly scp where
  sane := hemit ▸ h.sane
  newer := hemit ▸ h.newer
  signed e he := (hsigned e he).elim (h.signed e) id
  sent := hemit ▸ h.sent
  last := by rw [hemit, hsent, h.last]
  queued := hlast ▸ h.queued
  order := by
    rw [hlast, hsent]
    exact h.order

theorem Slot.Orderly.queue (h : s.Orderly scp) {env : BallotEnvelope}
    (hsane : isStatementSane scp env.statement false = true)
    (hnewer : ∀ last ∈ s.mBallotProtocol.mLastEnvelope,
      isNewerStatement last.statement.pledges env.statement.pledges = true)
    (hsigned : .signEnvelope (.ballot env) ∈ s.trace) :
    (s.withBallot (s.mBallotProtocol.withLastEnvelope env)).Orderly scp := by
  refine ⟨⟨h.sane, h.newer⟩, h.signed, h.sent, h.last, ?_, ?_⟩
  · intro e he
    cases he
    exact ⟨hsane, h.signed env hsigned⟩
  · intro e he
    obtain ⟨e', he', hor⟩ := h.order e he
    refine ⟨env, rfl, .inr ?_⟩
    rcases hor with rfl | hlt
    · exact hnewer e' he'
    · exact isNewerStatement_trans hlt (hnewer e' he')

theorem Slot.Orderly.send (h : s.Orderly scp) {last : BallotEnvelope}
    (hlast : s.mBallotProtocol.mLastEnvelope = some last)
    (hnew : s.mBallotProtocol.mLastEnvelopeEmit ≠ some last) :
    ((s.withBallot (s.mBallotProtocol.withLastEnvelopeEmit last)).log
      (.emitEnvelope (.ballot last))).Orderly scp := by
  have hemit : ((s.withBallot (s.mBallotProtocol.withLastEnvelopeEmit last)).log
      (.emitEnvelope (.ballot last))).emitted = last :: s.emitted := rfl
  refine ⟨⟨?_, ?_⟩, ?_, ?_, ?_, h.queued, ?_⟩
  · rw [hemit, List.forall_mem_cons]
    exact ⟨(h.queued last hlast).1, h.sane⟩
  · rw [hemit, List.isChain_cons]
    refine ⟨?_, h.newer⟩
    intro e he
    rw [h.last] at he
    obtain ⟨e', he', hor⟩ := h.order e he
    obtain rfl := mem_unique hlast he'
    rcases hor with rfl | hlt
    · exact absurd he hnew
    · exact hlt
  · exact fun e he => h.signed e ((List.mem_cons.mp he).resolve_left (by simp))
  · rw [hemit, List.forall_mem_cons]
    exact ⟨(h.queued last hlast).2, h.sent⟩
  · rw [hemit]
    rfl
  · intro e he
    cases he
    exact ⟨last, hlast, .inl rfl⟩

theorem BallotProtocol.raisedTo_envelopes (bp : BallotProtocol) (h : SCPBallot) :
    (bp.raisedTo h).mLastEnvelope = bp.mLastEnvelope ∧
      (bp.raisedTo h).mLastEnvelopeEmit = bp.mLastEnvelopeEmit := by
  unfold BallotProtocol.raisedTo
  split_ifs <;> exact ⟨rfl, rfl⟩

/-- Moves do not send anything. -/
theorem Move.apply_envelopes (m : Move) (bp : BallotProtocol) :
    (m.apply bp).mLastEnvelope = bp.mLastEnvelope ∧
      (m.apply bp).mLastEnvelopeEmit = bp.mLastEnvelopeEmit := by
  cases m with
  | acceptPrepared ballot =>
    obtain ⟨p, p', c, h, -⟩ := acceptPrepared_fields bp ballot
    rw [Move.apply, h]
    exact ⟨rfl, rfl⟩
  | confirmPrepared newC newH => exact raisedTo_envelopes _ newH
  | acceptCommit c h =>
    rw [Move.apply, BallotProtocol.acceptCommit]
    split_ifs <;> exact raisedTo_envelopes _ h
  | confirmCommit c h => exact raisedTo_envelopes (bp.withCommitted c h) h
  | bump ballot => exact ⟨rfl, rfl⟩

theorem Bookkeep.orderly (h : Bookkeep scp s t) (hs : s.Orderly scp) : t.Orderly scp := by
  have hsigned : ∀ e, .signEnvelope (.ballot e) ∈ t.trace →
      .signEnvelope (.ballot e) ∈ s.trace ∨ scp.Owns e :=
    fun e he => (h.trace he).imp_right fun hnew => by simp [Event.isAudit] at hnew
  cases h with
  | notify e he =>
    refine hs.congr (emitted_log ?_) rfl rfl hsigned
    rintro env rfl
    cases he
  | check => exact hs.congr (emitted_log (by simp)) rfl rfl hsigned
  | queue env hsane hnewer henv => exact hs.queue hsane hnewer henv
  | send last hlast hnew => exact hs.send hlast hnew
  | heard | level | unvalidated | gotVBlocking | stopNomination | remember =>
    exact hs.congr rfl rfl rfl hsigned

/-- What a node sends stays in order. -/
theorem BallotStep.orderly (h : BallotStep scp s t) (hs : s.Orderly scp) : t.Orderly scp := by
  cases h with
  | keep h => exact h.orderly hs
  | sign hpl | record hpl hadm =>
    refine hs.congr rfl rfl rfl fun e he => ?_
    rcases List.mem_cons.mp he with heq | he
    · cases heq
      exact .inr (pledges_quorumSetHash hpl.2)
    · exact .inl ((List.mem_cons.mp he).resolve_left (by simp))
  | @move _ m hen hm =>
    obtain ⟨hlast, hsent⟩ := m.apply_envelopes s.mBallotProtocol
    have ht := hm.mBallotProtocol
    obtain ⟨evs, hevs, rfl⟩ := hm
    exact hs.congr (emitted_logAll hevs) (ht ▸ hlast) (ht ▸ hsent)
      fun e he => .inl ((mem_trace_logAll hevs rfl).mp he)

theorem Reached.orderly {g : Slot → Prop} (hg : ∀ s, g s → s.Orderly scp) (h : Reached scp g t) :
    t.Orderly scp := by
  obtain ⟨s, hs, -, hsteps⟩ := h
  exact keeps_of_steps (P := Slot.Orderly scp) (fun _ _ h => h.orderly) hsteps (hg s hs)

theorem BallotCall.Begins.orderly (hs : s.Orderly scp) {call : BallotCall} {s₀ : Slot}
    (h : call.Begins scp s s₀) : s₀.Orderly scp :=
  h.elim hs (fun _ _ _ => hs.congr rfl rfl rfl fun _ => .inl)
    fun _ _ => hs.congr rfl rfl rfl fun _ => .inl

end

/-! ## Runs with a steady driver -/

/-- From one call to the next the driver may learn values and quorum sets. It takes no value
back, and forgets neither the node's own quorum set nor those of recorded statements. -/
structure Steady (slotIndex : Uint64) (scp scp' : SCP) (bp : BallotProtocol) : Prop where
  node : scp'.mLocalNode = scp.mLocalNode
  signs : scp'.mDriver.signEnvelope = scp.mDriver.signEnvelope
  valid : ∀ v, scp.Valid slotIndex v → scp'.Valid slotIndex v
  knows : ∀ q, scp.mDriver.getQSet scp.mLocalNode.mQSetHash = some q →
    scp'.mDriver.getQSet scp.mLocalNode.mQSetHash = some q
  recalls : scp.Recalls scp' bp

/-- The envelopes come from other nodes, and the values to propose are valid. -/
def BallotCall.Careful (slotIndex : Uint64) : BallotCall → Prop
  | receiveEnvelope env => env.statement.nodeID ≠ scp.mLocalNode.mNodeID
  | bumpState value _ => scp.Valid slotIndex value
  | nomination np _ => ∀ v ∈ np.mLatestCompositeCandidate, scp.Valid slotIndex v
  | _ => True

section
variable {slotIndex : Uint64} {scp scp' : SCP} {st : BallotStatement} {s : Slot}

theorem sane_of_known {self : Bool} (h : ∀ q, getQuorumSetFromStatement scp.mDriver st = some q →
      getQuorumSetFromStatement scp'.mDriver st = some q)
    (hs : isStatementSane scp st self = true) : isStatementSane scp' st self = true := by
  simp only [isStatementSane, Bool.and_eq_true] at hs ⊢
  refine ⟨?_, hs.2⟩
  cases hq : getQuorumSetFromStatement scp.mDriver st with
  | none => rw [hq] at hs; cases hs.1
  | some q =>
    rw [h q hq]
    rw [hq] at hs
    exact hs.1

variable {bp : BallotProtocol} {e : BallotEnvelope}

theorem Steady.owned (h : Steady slotIndex scp scp' bp) (hown : scp.Owns e) {q : SCPQuorumSet}
    (hq : getQuorumSetFromStatement scp.mDriver e.statement = some q) :
    getQuorumSetFromStatement scp'.mDriver e.statement = some q := by
  unfold SCP.Owns at hown
  unfold getQuorumSetFromStatement at hq ⊢
  cases hpl : e.statement.pledges with
  | prepare p | confirm c =>
    rw [hpl] at hq hown
    simp only [BallotPledges.quorumSetHash] at hown
    simp only [hown] at hq ⊢
    exact h.knows q hq
  | externalize x => rwa [hpl] at hq

theorem Steady.guarded (h : Steady slotIndex scp scp' bp) (hg : scp.Guarded slotIndex) :
    scp'.Guarded slotIndex := by
  rw [SCP.Guarded, h.node]
  exact hg.imp_left (h.valid [])

theorem Steady.vetted (h : Steady slotIndex scp scp' bp) {n : NodeID}
    (he : bp.mLatestEnvelopes.lookup n = some e) (hv : Vetted scp slotIndex n e.statement) :
    Vetted scp' slotIndex n e.statement := by
  refine ⟨?_, fun v hmem => h.valid v (hv.valid v hmem),
    fun p hp hzero => (hv.blank p hp hzero).imp_right h.guarded⟩
  rw [h.node]
  exact sane_of_known (h.recalls n e he) hv.sane

theorem Steady.fit (h : Steady slotIndex scp scp' bp) (hf : Fit scp slotIndex bp) :
    Fit scp' slotIndex bp where
  records n e he := h.vetted he (hf.records n e he)
  current b hb := h.valid _ (hf.current b hb)
  prepared p hp := h.valid _ (hf.prepared p hp)
  preparedPrime p' hp' := h.valid _ (hf.preparedPrime p' hp')
  override v hv := h.valid _ (hf.override v hv)
  high := hf.high
  commit := hf.commit

theorem Steady.ownEnvelope (h : Steady slotIndex scp scp' bp) (pl : BallotPledges) :
    scp'.ownEnvelope s pl = scp.ownEnvelope s pl := by
  rw [SCP.ownEnvelope, SCP.ownEnvelope, SCP.signedEnvelope, SCP.signedEnvelope, h.node, h.signs]

theorem Steady.ready (h : Steady s.mSlotIndex scp scp' s.mBallotProtocol) (hs : Ready scp s) :
    Ready scp' s where
  fit := h.fit hs.fit
  inStep := by
    intro e he
    rw [h.node] at he
    obtain ⟨pl, hpl, rfl⟩ := hs.inStep e he
    exact ⟨pl, by rwa [SCP.pledges, h.node], (h.ownEnvelope pl).symm⟩
  composite v hv := h.valid v (hs.composite v hv)
  guard := by
    rw [SCP.Prudent, h.node]
    exact hs.guard.imp_left h.guarded
  knows := by
    obtain ⟨q, hq, hsane⟩ := hs.knows
    rw [SCP.KnowsItself, h.node]
    exact ⟨q, h.knows q hq, hsane⟩

theorem Steady.settled (h : Steady slotIndex scp scp' bp) (hvet : AllVetted scp slotIndex bp)
    (hs : Settled scp bp) : Settled scp' bp := by
  refine Settled.transfer ?_ ?_ hs
  · rw [h.node]
  · intro n e he
    obtain ⟨q, hq⟩ := (hvet n e he).known
    rw [hq]
    exact h.recalls n e he q hq

theorem Steady.owns (h : Steady slotIndex scp scp' bp) (hown : scp.Owns e) : scp'.Owns e := by
  rw [SCP.Owns, h.node]
  exact hown

theorem Steady.orderly (h : Steady slotIndex scp scp' bp) (hs : s.Orderly scp) :
    s.Orderly scp' where
  sane e he := sane_of_known (fun _ => h.owned (hs.sent e he)) (hs.sane e he)
  newer := hs.newer
  signed e he := h.owns (hs.signed e he)
  sent e he := h.owns (hs.sent e he)
  last := hs.last
  queued e he := by
    obtain ⟨hsane, hown⟩ := hs.queued e he
    exact ⟨sane_of_known (fun _ => h.owned hown) hsane, h.owns hown⟩
  order := hs.order

end

/-- Runs of a node with a steady driver and careful callers. -/
inductive CarefulRun (slotIndex : Uint64) : SCP → Slot → Prop
  | new (scp : SCP) (hguard : scp.Prudent slotIndex) (hknows : scp.KnowsItself) :
      CarefulRun slotIndex scp (new slotIndex scp)
  | call {scp scp' : SCP} {s t : Slot} (hs : CarefulRun slotIndex scp s)
      (hst : Steady slotIndex scp scp' s.mBallotProtocol) (call : BallotCall)
      (hcall : call.Careful scp' slotIndex) (ht : call.run scp' s = .ok () t) :
      CarefulRun slotIndex scp' t

/-- What such a run keeps between two calls. -/
structure WellKept (slotIndex : Uint64) (scp : SCP) (s : Slot) : Prop where
  index : s.mSlotIndex = slotIndex
  consistent : s.mBallotProtocol.Consistent
  settled : Settled scp s.mBallotProtocol
  ready : Ready scp s
  orderly : s.Orderly scp

section
variable {slotIndex : Uint64} {scp scp' : SCP} {s t : Slot}

theorem BallotStep.mSlotIndex (h : BallotStep scp s t) : t.mSlotIndex = s.mSlotIndex := by
  cases h with
  | keep h => exact h.mSlotIndex
  | sign hpl | record hpl hadm => rfl
  | move hen hm => exact hm.mSlotIndex

variable {call : BallotCall}

theorem BallotCall.Begins.mSlotIndex {s₀ : Slot} (h : call.Begins scp s s₀) :
    s₀.mSlotIndex = s.mSlotIndex :=
  h.elim (P := fun u => u.mSlotIndex = s.mSlotIndex) rfl (fun _ _ _ => rfl) fun _ _ => rfl

theorem Reached.mSlotIndex (h : Reached scp (call.Begins scp s) t) :
    t.mSlotIndex = s.mSlotIndex := by
  obtain ⟨s₀, hs₀, -, hsteps⟩ := h
  exact keeps_of_steps (P := fun u => u.mSlotIndex = s.mSlotIndex)
    (fun _ _ hst hu => hst.mSlotIndex.trans hu) hsteps hs₀.mSlotIndex

theorem Ready.record (hs : Ready scp s) {env : BallotEnvelope}
    (hadm : Admits scp s env.statement false)
    (hother : env.statement.nodeID ≠ scp.mLocalNode.mNodeID) : Ready scp (s.record env) := by
  refine ⟨hs.fit.record (vetted_other hadm hother), ?_, hs.composite, hs.guard, hs.knows⟩
  intro e he
  have hlook : (s.record env).mBallotProtocol.mLatestEnvelopes.lookup scp.mLocalNode.mNodeID =
      s.mBallotProtocol.mLatestEnvelopes.lookup scp.mLocalNode.mNodeID :=
    AList.lookup_insert_ne hother.symm
  rw [hlook] at he
  exact hs.inStep e he

theorem opens_readyContract (hs : Ready scp s) (hbp : s.mBallotProtocol.Consistent)
    (hcall : call.Careful scp s.mSlotIndex) :
    (readyContract scp).Opens () s call := by
  refine ⟨hs, fun _ _ => by simp [readyContract], fun _ _ => by simp [readyContract], ?_, ?_, ?_,
    ?_⟩
  · rintro env rfl hadm _
    exact hs.record hadm hcall
  · rintro env rfl hadm _
    exact hs.record hadm hcall
  · intro value n hprop hn
    refine hs.bumps hbp ?_ hn fun u hu => hu
    cases call with
    | receiveEnvelope env | nomination np fullyValidated => cases hprop
    | bumpState v force => cases hprop; exact hcall
    | abandonBallot | ballotProtocolTimerExpired => exact hs.abandonValue hprop
  · rintro np fullyValidated rfl
    exact ⟨hs.fit, hs.inStep, hcall, hs.guard, hs.knows⟩

/-- A careful call keeps it and does not fail on the node's own statement. -/
theorem WellKept.after_call (hs : WellKept slotIndex scp s) (hcall : call.Careful scp slotIndex) :
    After (call.run scp) s (fun _ t => WellKept slotIndex scp t)
      fun e t => e ≠ .badBallotState ∧ t.Orderly scp := by
  have hholds := Contract.holds_and (coveredSteps_holds scp) (readyContract_holds scp)
  have hopens := (opens_coveredSteps hs.consistent hs.settled call).and
    (opens_readyContract hs.ready hs.consistent (hs.index ▸ hcall))
  refine (hholds.after_call hopens).mono ?_ ?_
  · rintro - t ⟨⟨hreach, hset⟩, hready⟩
    exact ⟨hreach.mSlotIndex.trans hs.index, hreach.consistent, hset, hready,
      hreach.orderly fun _ => BallotCall.Begins.orderly hs.orderly⟩
  · rintro e t ⟨⟨⟨-, hreach⟩, -⟩, hne⟩
    exact ⟨hne, hreach.orderly fun _ => BallotCall.Begins.orderly hs.orderly⟩

theorem WellKept.steady (hs : WellKept slotIndex scp s)
    (hst : Steady slotIndex scp scp' s.mBallotProtocol) : WellKept slotIndex scp' s := by
  have hst' : Steady s.mSlotIndex scp scp' s.mBallotProtocol := hs.index ▸ hst
  exact ⟨hs.index, hs.consistent, hst'.settled hs.ready.fit.records hs.settled,
    hst'.ready hs.ready, hst.orderly hs.orderly⟩

theorem wellKept_new (hguard : scp.Prudent slotIndex) (hknows : scp.KnowsItself) :
    WellKept slotIndex scp (new slotIndex scp) := by
  refine ⟨rfl, new_consistent, new_settled scp, ⟨new_fit scp slotIndex, ?_, ?_,
    hguard, hknows⟩, ⟨⟨?_, ?_⟩, ?_, ?_, rfl, ?_, ?_⟩⟩
  · intro e he
    cases he
  · intro v hv
    cases hv
  · intro e he
    cases he
  · exact List.IsChain.nil
  · intro e he
    cases he
  · intro e he
    cases he
  · intro e he
    cases he
  · intro e he
    cases he

theorem CarefulRun.wellKept (h : CarefulRun slotIndex scp s) : WellKept slotIndex scp s := by
  induction h with
  | new scp hguard hknows => exact wellKept_new hguard hknows
  | call hs hst call hcall ht ih => exact ((ih.steady hst).after_call hcall).of_ok ht

/-- With a steady driver, careful callers and a node that does not accept its own
blank ballot, everything a node sends is sane and newer than what it sent before,
and no call fails on the node's own statement. -/
theorem emits_well (hs : CarefulRun slotIndex scp s)
    (hst : Steady slotIndex scp scp' s.mBallotProtocol) (call : BallotCall)
    (hcall : call.Careful scp' slotIndex) :
    After (call.run scp') s (fun _ t => t.EmitsWell scp')
      fun e t => e ≠ .badBallotState ∧ t.EmitsWell scp' :=
  ((hs.wellKept.steady hst).after_call hcall).mono (fun _ _ ht => ht.orderly.toEmitsWell)
    fun _ _ he => ⟨he.1, he.2.toEmitsWell⟩

end

/-- One of two nodes that need each other. -/
def duo : SCP := plainNode (fun _ => .mk 2 [0, 1] []) 0

/-- The vote of the other one. -/
def duoVote : BallotEnvelope := ⟨⟨1, 1, .prepare ⟨1, ⟨1, [1]⟩, none, none, 0, 0⟩⟩, []⟩

def duoStarted : Slot := finalState (BallotCall.run duo (.bumpState [1] true)) (new 1 duo)

theorem duo_valid (v : Value) : duo.Valid 1 v := by
  simp [SCP.Valid, duo, plainNode, plainDriver]

theorem duo_steady (bp : BallotProtocol) : Steady 1 duo duo bp :=
  ⟨rfl, rfl, fun _ h => h, fun _ h => h, fun _ _ _ _ h => h⟩

theorem duoStarted_run : CarefulRun 1 duo duoStarted := by
  have hnew : CarefulRun 1 duo (new 1 duo) :=
    .new duo (.inl (.inl (duo_valid []))) ⟨_, rfl, by decide +kernel⟩
  have hok : failure (BallotCall.run duo (.bumpState [1] true)) (new 1 duo) = none := by
    decide +kernel
  exact .call hnew (duo_steady _) (.bumpState [1] true) (duo_valid [1]) (eq_ok_of_failure hok)

/-- The node votes for its value, hears the other one and tells that it has accepted. -/
theorem emits_well_duo :
    (finalState (BallotCall.run duo (.receiveEnvelope duoVote)) duoStarted).emitted.length = 2 ∧
    After (BallotCall.run duo (.receiveEnvelope duoVote)) duoStarted (fun _ t => t.EmitsWell duo)
      fun e t => e ≠ .badBallotState ∧ t.EmitsWell duo := by
  have hs := duoStarted_run
  have hcall : (BallotCall.receiveEnvelope duoVote).Careful duo 1 := by
    simp [BallotCall.Careful, duoVote, duo, plainNode]
  refine ⟨by decide +kernel, ?_⟩
  generalize BallotCall.receiveEnvelope duoVote = call at hcall ⊢
  exact emits_well hs (duo_steady _) call hcall

/-- A node that is a slice of its own beside another one, with a driver that refuses
the empty value. -/
def aside : SCP where
  mDriver := { plainDriver (fun n => .mk 1 (if n = 0 then [0, 1] else [n]) []) with
    validateValue := fun _ v _ => if v = [] then .kInvalidValue else .kFullyValidatedValue }
  mLocalNode := ⟨0, true, .mk 1 [0, 1] [], 0⟩

/-- The node accepts the ballot of the other one, says so without a ballot of its own,
accepts the blank ballot of that statement and refuses what it says next. -/
theorem aside_refuses_itself :
    Reachable 1 (new 1 aside) ∧ duoVote.statement.nodeID ≠ aside.mLocalNode.mNodeID ∧
    failure (BallotCall.run aside (.receiveEnvelope duoVote)) (new 1 aside) =
      some .badBallotState :=
  ⟨.new aside, by decide, by decide +kernel⟩

end DigitalBits.Scp
