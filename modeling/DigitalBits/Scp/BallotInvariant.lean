import DigitalBits.Scp.BallotContract

/-!
# The invariant of the ballot state

`Consistent` is what the members of a ballot protocol satisfy whenever a call
can look at them. Every move keeps it when its guard `Enabled` held, and a call
from outside is a sequence of such moves, of records of the node's own
statements and of bookkeeping.
-/
namespace DigitalBits.Scp
open Lib LocalNode BallotProtocol Option

theorem SCPPhase.statementType_injective : Function.Injective SCPPhase.statementType := by
  intro a b
  cases a <;> cases b <;> simp [statementType]

namespace BallotProtocol

/-- The relations between `b`, `p`, `p'`, `h`, `c` and the phase. -/
structure Consistent (bp : BallotProtocol) : Prop where
  prepared : ∀ p ∈ bp.mPrepared, ∀ p' ∈ bp.mPreparedPrime, p' < p ∧ p'.value ≠ p.value
  prime : bp.mPrepared = none → bp.mPreparedPrime = none
  high : ∀ h ∈ bp.mHighBallot, ∃ b ∈ bp.mCurrentBallot, h ≤ b ∧ h.value = b.value
  commit : ∀ c ∈ bp.mCommit, ∃ h ∈ bp.mHighBallot, c ≤ h ∧ c.value = h.value
  later : bp.mPhase ≠ .prepare → bp.mCommit ≠ none ∧ bp.mPrepared ≠ none

theorem new_consistent : new.Consistent := by
  constructor <;> simp [new]

variable {bp bp' : BallotProtocol}

theorem SameVotes.consistent (h : bp.SameVotes bp') (hbp : bp.Consistent) :
    bp'.Consistent := by
  constructor <;> simp only [h.phase, h.current, h.prepared, h.preparedPrime, h.high, h.commit]
  exacts [hbp.prepared, hbp.prime, hbp.high, hbp.commit, hbp.later]

theorem Consistent.record (hbp : bp.Consistent) (env : BallotEnvelope) :
    (bp.record env).Consistent :=
  ⟨hbp.prepared, hbp.prime, hbp.high, hbp.commit, hbp.later⟩

/-- Outside `PREPARE` every ballot but `p'` is set, on one value apart from `p`. -/
theorem Consistent.exists_of_later (hbp : bp.Consistent) (hphase : bp.mPhase ≠ .prepare) :
    ∃ b p h c, bp.mCurrentBallot = some b ∧ bp.mPrepared = some p ∧ bp.mHighBallot = some h ∧
      bp.mCommit = some c ∧ c ≤ h ∧ c.value = h.value ∧ h ≤ b ∧ h.value = b.value := by
  obtain ⟨hc, hp⟩ := hbp.later hphase
  obtain ⟨c, hc⟩ := ne_none_iff_exists'.mp hc
  obtain ⟨p, hp⟩ := ne_none_iff_exists'.mp hp
  obtain ⟨h, hh, hch⟩ := hbp.commit c hc
  obtain ⟨b, hb, hhb⟩ := hbp.high h hh
  exact ⟨b, p, h, c, hb, hp, hh, hc, hch.1, hch.2, hhb.1, hhb.2⟩

/-- Neither `checkInvariants` nor `createStatement` reads through a null pointer. -/
theorem Consistent.checkInvariants_ne (hbp : bp.Consistent) :
    bp.checkInvariants ≠ .error .nullDereference := by
  intro h
  have hcommit : bp.checkCommit = .ok () := by
    rw [checkCommit_ok_iff]
    intro c hc
    obtain ⟨hb, hh, hle⟩ := hbp.commit c hc
    exact ⟨hb, hh, hle, hbp.high hb hh⟩
  unfold checkInvariants require at h
  simp only [hcommit] at h
  split_ifs at h <;> cases h

theorem Consistent.pledges_ok (hbp : bp.Consistent) (hash : Hash) :
    ∃ pl, bp.pledges hash bp.mPhase.statementType = .ok pl := by
  cases hphase : bp.mPhase with
  | prepare => exact ⟨_, rfl⟩
  | confirm | externalize =>
    obtain ⟨b, p, h, c, hb, hp, hh, hc, -⟩ := hbp.exists_of_later (by simp [hphase])
    simp [pledges, SCPPhase.statementType, hb, hp, hh, hc, read, bind, Except.bind, pure,
      Except.pure]

/-- The phase and, outside `PREPARE`, the commit that a statement tells. -/
def Told (bp : BallotProtocol) : BallotPledges → Prop
  | .prepare _ => bp.mPhase = .prepare
  | .confirm x => bp.mPhase = .confirm ∧ bp.mCommit = some ⟨x.nCommit, x.ballot.value⟩
  | .externalize x => bp.mPhase = .externalize ∧ bp.mCommit = some x.commit

theorem Consistent.told (hbp : bp.Consistent) {hash : Hash} {pl : BallotPledges}
    (hpl : bp.pledges hash bp.mPhase.statementType = .ok pl) : bp.Told pl := by
  obtain ⟨ht, rfl⟩ | ⟨ht, b, p, c, h, hb, hp, hc, hh, rfl⟩ | ⟨ht, c, h, hc, hh, rfl⟩ :=
    pledges_cases hpl
  · exact @SCPPhase.statementType_injective _ .prepare ht
  · refine ⟨@SCPPhase.statementType_injective _ .confirm ht, hc.trans ?_⟩
    obtain ⟨h', hh', -, hcv⟩ := hbp.commit c hc
    obtain ⟨b', hb', -, hhv⟩ := hbp.high h' hh'
    obtain rfl := mem_unique hb hb'
    rw [← hhv, ← hcv]
  · exact ⟨@SCPPhase.statementType_injective _ .externalize ht, hc⟩

/-! ## The effect of the moves -/

section
variable (newC newH c h ballot : SCPBallot)

theorem raisedTo_mCurrentBallot : (bp.raisedTo h).mCurrentBallot =
    if ∀ b ∈ bp.mCurrentBallot, b < h then some h else bp.mCurrentBallot := by
  unfold raisedTo
  split_ifs <;> rfl

@[simp] theorem confirmPrepared_mPhase :
    (bp.confirmPrepared newC newH).mPhase = bp.mPhase := by simp [confirmPrepared, withConfirmed]

@[simp] theorem confirmPrepared_mPrepared :
    (bp.confirmPrepared newC newH).mPrepared = bp.mPrepared := by
  simp [confirmPrepared, withConfirmed]

@[simp] theorem confirmPrepared_mPreparedPrime :
    (bp.confirmPrepared newC newH).mPreparedPrime = bp.mPreparedPrime := by
  simp [confirmPrepared, withConfirmed]

@[simp] theorem confirmPrepared_mLatestEnvelopes :
    (bp.confirmPrepared newC newH).mLatestEnvelopes = bp.mLatestEnvelopes := by
  simp [confirmPrepared, withConfirmed]

@[simp] theorem confirmCommit_mPhase : (bp.confirmCommit c h).mPhase = .externalize := rfl

@[simp] theorem confirmCommit_mPrepared : (bp.confirmCommit c h).mPrepared = bp.mPrepared := by
  simp [confirmCommit, withPhase, withCommitted]

@[simp] theorem confirmCommit_mPreparedPrime :
    (bp.confirmCommit c h).mPreparedPrime = bp.mPreparedPrime := by
  simp [confirmCommit, withPhase, withCommitted]

@[simp] theorem confirmCommit_mLatestEnvelopes :
    (bp.confirmCommit c h).mLatestEnvelopes = bp.mLatestEnvelopes := by
  simp [confirmCommit, withPhase, withCommitted]

theorem confirmCommit_mCurrentBallot : (bp.confirmCommit c h).mCurrentBallot =
    if ∀ b ∈ bp.mCurrentBallot, b < h then some h else bp.mCurrentBallot :=
  @raisedTo_mCurrentBallot (bp.withCommitted c h) h

@[simp] theorem acceptCommit_mPrepared : (bp.acceptCommit c h).mPrepared = bp.mPrepared := by
  unfold acceptCommit
  split_ifs <;> simp [withoutPrime, withPhase, withAccepted]

@[simp] theorem acceptCommit_mLatestEnvelopes :
    (bp.acceptCommit c h).mLatestEnvelopes = bp.mLatestEnvelopes := by
  unfold acceptCommit
  split_ifs <;> simp [withoutPrime, withPhase, withAccepted]

@[simp] theorem acceptCommit_mHighBallot : (bp.acceptCommit c h).mHighBallot = some h := by
  unfold acceptCommit
  split_ifs <;> refine (raisedTo_of_high _ h ?_).1 <;>
    simp [withoutPrime, withPhase, withAccepted, bumpedTo]

@[simp] theorem acceptCommit_mCommit : (bp.acceptCommit c h).mCommit = some c := by
  unfold acceptCommit
  split_ifs <;> rw [(raisedTo_of_high _ h ?_).2] <;>
    simp [withoutPrime, withPhase, withAccepted, bumpedTo]

theorem acceptCommit_mPhase (hphase : bp.mPhase ≠ .externalize) :
    (bp.acceptCommit c h).mPhase = .confirm := by
  unfold acceptCommit
  split_ifs with hp
  · simp [withoutPrime, withPhase]
  · simp [withoutPrime, withPhase]
  · simp only [raisedTo_mPhase, withAccepted]
    cases hp' : bp.mPhase <;> simp_all

theorem acceptCommit_mPreparedPrime : (bp.acceptCommit c h).mPreparedPrime =
    if bp.mPhase = .prepare then none else bp.mPreparedPrime := by
  unfold acceptCommit
  split_ifs <;> simp [withoutPrime, withAccepted]

theorem bumpedTo_mHighBallot : (bp.bumpedTo ballot).mHighBallot =
    if ∃ h ∈ bp.mHighBallot, ballot.value ≠ h.value then none else bp.mHighBallot := by
  unfold bumpedTo
  cases bp.mHighBallot <;> simp

theorem bumpedTo_mCommit : (bp.bumpedTo ballot).mCommit =
    if ∃ h ∈ bp.mHighBallot, ballot.value ≠ h.value then none else bp.mCommit := by
  unfold bumpedTo
  cases bp.mHighBallot <;> simp

variable {ballot} in
theorem mem_mHighBallot_of_bumpedTo {h : SCPBallot} (hh : h ∈ (bp.bumpedTo ballot).mHighBallot) :
    h ∈ bp.mHighBallot := by
  rw [bumpedTo_mHighBallot] at hh
  split_ifs at hh
  · cases hh
  · exact hh

variable {ballot} in
theorem mem_mCommit_of_bumpedTo {c : SCPBallot} (hc : c ∈ (bp.bumpedTo ballot).mCommit) :
    c ∈ bp.mCommit := by
  rw [bumpedTo_mCommit] at hc
  split_ifs at hc
  · cases hc
  · exact hc

end

/-- On `CONFIRM` and on a compatible ballot, `b` ends at or above the accepted `h`. -/
theorem Consistent.acceptCommit_mCurrentBallot (hbp : bp.Consistent) {c h : SCPBallot}
    (hphase : bp.mPhase = .prepare ∨ bp.mPhase = .confirm ∧
      ∃ h₀ ∈ bp.mHighBallot, h₀.value = h.value) :
    ∃ b, (bp.acceptCommit c h).mCurrentBallot = some b ∧ h ≤ b ∧ h.value = b.value ∧
      (b = h ∨ bp.mCurrentBallot = some b) := by
  rcases hphase with hphase | ⟨hphase, h₀, hh₀, hv⟩
  · by_cases hbump : ∃ b ∈ bp.mCurrentBallot, ¬ areBallotsLessAndCompatible h b = true
    · refine ⟨h, ?_, le_rfl, rfl, .inl rfl⟩
      rw [acceptCommit, if_pos hphase, if_pos hbump, raisedTo_mCurrentBallot]
      simp [withoutPrime]
    · have hcur : ∀ b ∈ bp.mCurrentBallot, h ≤ b ∧ h.value = b.value := by simpa using hbump
      rw [acceptCommit, if_pos hphase, if_neg hbump, raisedTo_mCurrentBallot]
      cases hb : bp.mCurrentBallot with
      | none =>
        exact ⟨h, by simp [hb, withoutPrime, withPhase, withAccepted], le_rfl, rfl, .inl rfl⟩
      | some b =>
        obtain ⟨hle, hv⟩ := hcur b hb
        refine ⟨b, ?_, hle, hv, .inr rfl⟩
        simp [hb, withoutPrime, withPhase, withAccepted, not_lt.mpr hle]
  · rw [acceptCommit, if_neg (by simp [hphase]), raisedTo_mCurrentBallot]
    obtain ⟨b, hb, hle, hv'⟩ := hbp.high h₀ hh₀
    rw [mem_def] at hb
    by_cases hlt : b < h
    · exact ⟨h, by simp [withAccepted, hb, hlt], le_rfl, rfl, .inl rfl⟩
    · exact ⟨b, by simp [withAccepted, hb, hlt], not_lt.mp hlt, hv.symm.trans hv', .inr hb⟩

/-- The three outcomes of `setConfirmPrepared`: the node was on a compatible ballot,
or it moves on to `newH`, or it keeps a higher ballot. -/
theorem Consistent.confirmPrepared_cases (hbp : bp.Consistent) (newC : SCPBallot)
    {newH : SCPBallot} (hhigh : ∀ h ∈ bp.mHighBallot, h < newH) :
    (∀ b ∈ bp.mCurrentBallot, b.value = newH.value) ∧
        (bp.confirmPrepared newC newH).mHighBallot = some newH ∧
        (bp.confirmPrepared newC newH).mCommit =
          (if newC.counter ≠ 0 then some newC else bp.mCommit) ∧
        (∃ b, (bp.confirmPrepared newC newH).mCurrentBallot = some b ∧ newH ≤ b ∧
          newH.value = b.value ∧ (∀ b₀ ∈ bp.mCurrentBallot, b₀ ≤ b) ∧
          (b = newH ∨ bp.mCurrentBallot = some b)) ∨
    (∃ b, bp.mCurrentBallot = some b ∧ b.value ≠ newH.value ∧ b < newH ∧
        (bp.confirmPrepared newC newH).mCurrentBallot = some newH ∧
        (bp.confirmPrepared newC newH).mHighBallot = none ∧
        (bp.confirmPrepared newC newH).mCommit = none) ∨
    ∃ b, bp.mCurrentBallot = some b ∧ b.value ≠ newH.value ∧ newH < b ∧
        (bp.confirmPrepared newC newH).mCurrentBallot = some b ∧
        (bp.confirmPrepared newC newH).mHighBallot = bp.mHighBallot ∧
        (bp.confirmPrepared newC newH).mCommit = bp.mCommit := by
  by_cases hcomp : ∀ b ∈ bp.mCurrentBallot, b.value = newH.value
  · refine .inl ⟨hcomp, ?_⟩
    have hon : bp.isOnCompatibleBallot newH = true := by
      simpa [isOnCompatibleBallot, all_eq_true] using hcomp
    have hraise : bp.raisesH newH = true := by
      simpa [raisesH, hon, all_eq_true] using hhigh
    have hh : (bp.withConfirmed newC newH).mHighBallot = some newH := by
      simp [withConfirmed, hraise]
    have hc : (bp.withConfirmed newC newH).mCommit =
        if newC.counter ≠ 0 then some newC else bp.mCommit := by
      simp [withConfirmed, votesCommit, hon]
    obtain ⟨hkeep, hkeepc⟩ := raisedTo_of_high (bp.withConfirmed newC newH) newH hh
    refine ⟨hkeep, hkeepc.trans hc, ?_⟩
    rw [confirmPrepared, raisedTo_mCurrentBallot]
    split_ifs with hlt
    · exact ⟨newH, rfl, le_rfl, rfl, fun b₀ hb₀ => (hlt b₀ hb₀).le, .inl rfl⟩
    · push Not at hlt
      obtain ⟨b, hb, hle⟩ := hlt
      exact ⟨b, hb, hle, (hcomp b hb).symm,
        fun b₀ hb₀ => (some.inj (hb₀.symm.trans hb)).le, .inr hb⟩
  · push Not at hcomp
    obtain ⟨b, hb, hv⟩ := hcomp
    rw [mem_def] at hb
    have hon : bp.isOnCompatibleBallot newH = false := by
      simp [isOnCompatibleBallot, hb, hv]
    have hconf : bp.withConfirmed newC newH = bp.withOverride newH.value := by
      simp [withConfirmed, withOverride, raisesH, votesCommit, hon]
    have hcur : (∀ b' ∈ (bp.withOverride newH.value).mCurrentBallot, b' < newH) ↔ b < newH := by
      simp [withOverride, hb]
    rw [confirmPrepared, hconf, raisedTo]
    by_cases hlt : b < newH
    · refine .inr (.inl ⟨b, hb, hv, hlt, ?_⟩)
      rw [if_pos (hcur.mpr hlt), bumpedTo_mHighBallot, bumpedTo_mCommit]
      -- if h is set it has the value of b, which is not that of newH
      cases hh : bp.mHighBallot with
      | none =>
        have hc : bp.mCommit = none := by
          cases hc : bp.mCommit with
          | none => rfl
          | some c =>
            obtain ⟨h, hmem, -⟩ := hbp.commit c hc
            rw [hh] at hmem
            cases hmem
        simp [withOverride, hh, hc]
      | some h =>
        obtain ⟨b', hb', -, hvb⟩ := hbp.high h hh
        obtain rfl := mem_unique hb hb'
        have hne : newH.value ≠ h.value := fun h => hv (by rw [← hvb, h])
        simp [withOverride, hh, hne]
    · rw [if_neg (mt hcur.mp hlt)]
      refine .inr (.inr ⟨b, hb, hv, ?_, hb, rfl, rfl⟩)
      exact lt_of_le_of_ne (not_lt.mp hlt) fun h => hv (by rw [h])

end BallotProtocol

/-! ## Guarded moves -/

/-- What the searches establish before a move. -/
inductive Enabled (scp : SCP) (bp : BallotProtocol) : Move → Prop
  | acceptPrepared {ballot : SCPBallot} (hphase : bp.mPhase ≠ .externalize)
      (hacc : IsAcceptable scp bp ballot)
      (hclear : (bp.setPrepared ballot).1.contradictsCommit = true → bp.mPhase = .prepare) :
      Enabled scp bp (.acceptPrepared ballot)
  | confirmPrepared {newC newH : SCPBallot} (hphase : bp.mPhase = .prepare)
      (hp : bp.mPrepared ≠ none) (hhigh : ∀ h ∈ bp.mHighBallot, h < newH)
      (hrat : federatedRatify scp bp.mLatestEnvelopes (hasPreparedBallot newH) = true)
      (hvote : newC = default ∨ canVoteCommit bp newH = true ∧
        bp.mCurrentBallot.getD default ≤ newC ∧ newC ≤ newH ∧ newC.value = newH.value) :
      Enabled scp bp (.confirmPrepared newC newH)
  | acceptCommit {c h : SCPBallot} (hval : c.value = h.value) (hpos : c.counter ≠ 0)
      (hle : c.counter ≤ h.counter) (hp : bp.mPrepared ≠ none)
      (hphase : bp.mPhase = .prepare ∨ bp.mPhase = .confirm ∧
        ∃ h₀ ∈ bp.mHighBallot, h₀.value = h.value ∧ h₀.counter < h.counter)
      (hacc : federatedAccept scp bp.mLatestEnvelopes (hasVotedCommit c (c.counter, h.counter))
        (commitPredicate c (c.counter, h.counter)) = true) :
      Enabled scp bp (.acceptCommit c h)
  | confirmCommit {c h c₀ : SCPBallot} (hval : c.value = h.value) (hpos : c.counter ≠ 0)
      (hle : c.counter ≤ h.counter) (hphase : bp.mPhase = .confirm)
      (hc₀ : bp.mCommit = some c₀) (hsame : c₀.value = c.value)
      (hrat : federatedRatify scp bp.mLatestEnvelopes
        (commitPredicate c (c.counter, h.counter)) = true) :
      Enabled scp bp (.confirmCommit c h)
  | bump {ballot : SCPBallot} (hcan : bp.CanBumpTo ballot) (hpos : ballot.counter ≠ 0) :
      Enabled scp bp (.bump ballot)

section
variable {scp : SCP} {bp : BallotProtocol}

/-- In `CONFIRM` an acceptable ballot raises `p` on its value. -/
theorem IsAcceptable.of_confirm {ballot : SCPBallot} (hacc : IsAcceptable scp bp ballot)
    (hphase : bp.mPhase = .confirm) :
    ∃ p, bp.mPrepared = some p ∧ p < ballot ∧ p.value = ballot.value ∧
      (bp.acceptPrepared ballot).mPrepared = some ballot ∧
      (bp.acceptPrepared ballot).mPreparedPrime = bp.mPreparedPrime := by
  obtain ⟨p, hp, hle, hval, -⟩ := mayRaisePrepared_ok_true hacc.1 hphase
  obtain ⟨hlt, h1, h2⟩ | ⟨q, hq, -, hne, -⟩ | ⟨q, hq, hlt, -⟩ := acceptPrepared_cases hacc.2.1
  · exact ⟨p, hp, (hlt p hp).1, hval, h1, h2⟩
  · obtain rfl := mem_unique hp hq
    exact absurd hval hne
  · obtain rfl := mem_unique hp hq
    exact absurd hlt (not_lt.mpr hle)

theorem IsAcceptable.mPrepared {ballot : SCPBallot} (h : IsAcceptable scp bp ballot) :
    (bp.acceptPrepared ballot).mPrepared ≠ none := by
  obtain ⟨-, h1, -⟩ | ⟨p, -, -, -, h1, -⟩ | ⟨p, -, -, -, -, h1, -⟩ :=
    acceptPrepared_cases h.2.1 <;> simp [h1]

theorem Enabled.mPhase_ne {m : Move} (hen : Enabled scp bp m) : bp.mPhase ≠ .externalize := by
  cases hen with
  | acceptPrepared hphase => exact hphase
  | confirmPrepared hphase => simp [hphase]
  | acceptCommit _ _ _ _ hphase => rcases hphase with hphase | ⟨hphase, -⟩ <;> simp [hphase]
  | confirmCommit _ _ _ hphase => simp [hphase]
  | bump hcan => exact hcan.1

/-- In `CONFIRM` a commit is accepted on the value of `c`. -/
theorem Enabled.acceptCommit_value {c h : SCPBallot} (hen : Enabled scp bp (.acceptCommit c h))
    (hbp : bp.Consistent) (hphase : bp.mPhase = .confirm) :
    ∃ c₀, bp.mCommit = some c₀ ∧ c₀.value = c.value := by
  obtain ⟨-, -, h', c₀, -, -, hh', hc₀, -, hch, -⟩ := hbp.exists_of_later (by simp [hphase])
  cases hen with
  | acceptCommit hval _ _ _ hconf =>
    obtain hprep | ⟨-, h₀, hh₀, hv₀, -⟩ := hconf
    · simp [hphase] at hprep
    · obtain rfl := mem_unique hh₀ hh'
      exact ⟨c₀, hc₀, hch.trans (hv₀.trans hval.symm)⟩

theorem BallotProtocol.Consistent.acceptPrepared (hbp : bp.Consistent) {ballot : SCPBallot}
    (hacc : IsAcceptable scp bp ballot)
    (hclear : (bp.setPrepared ballot).1.contradictsCommit = true → bp.mPhase = .prepare) :
    (bp.acceptPrepared ballot).Consistent := by
  refine ⟨?_, fun hnone => absurd hnone hacc.mPrepared, ?_, ?_, ?_⟩
  · obtain ⟨hp, h1, h2⟩ | ⟨p, -, hlt, hv, h1, h2⟩ | ⟨p, -, hlt, hv, -, h1, h2⟩ :=
      acceptPrepared_cases hacc.2.1
    · rw [h1, h2]
      rintro q hq p' hp'
      cases hq
      cases hpe : bp.mPrepared with
      | none =>
        rw [hbp.prime hpe] at hp'
        cases hp'
      | some p =>
        obtain ⟨hlt, hv⟩ := hp p hpe
        obtain ⟨hlt', hv'⟩ := hbp.prepared p hpe p' hp'
        exact ⟨hlt'.trans hlt, hv ▸ hv'⟩
    · simpa [h1, h2] using ⟨hlt, hv⟩
    · simpa [h1, h2] using ⟨hlt, hv⟩
  · simpa using hbp.high
  · rw [acceptPrepared_mHighBallot, acceptPrepared_mCommit]
    split_ifs
    · simp
    · exact hbp.commit
  · rw [acceptPrepared_mPhase]
    intro hphase
    have hkeep : (bp.acceptPrepared ballot).mCommit = bp.mCommit := by
      rw [acceptPrepared_mCommit, if_neg fun hcon => hphase (hclear hcon)]
    exact ⟨hkeep ▸ (hbp.later hphase).1, hacc.mPrepared⟩

theorem BallotProtocol.Consistent.confirmPrepared (hbp : bp.Consistent) {newC newH : SCPBallot}
    (hphase : bp.mPhase = .prepare) (hhigh : ∀ h ∈ bp.mHighBallot, h < newH)
    (hvote : newC = default ∨ newC ≤ newH ∧ newC.value = newH.value) :
    (bp.confirmPrepared newC newH).Consistent := by
  have hlater : (bp.confirmPrepared newC newH).mPhase ≠ .prepare →
      (bp.confirmPrepared newC newH).mCommit ≠ none ∧
        (bp.confirmPrepared newC newH).mPrepared ≠ none := by
    intro h
    simp [hphase] at h
  obtain ⟨hcomp, hh, hc, b, hb, hle, hv, -⟩ | ⟨b, -, -, -, hb, hh, hc⟩ |
      ⟨b, hb₀, -, -, hb, hh, hc⟩ := hbp.confirmPrepared_cases newC hhigh
  · refine ⟨by simpa using hbp.prepared, by simpa using hbp.prime, ?_, ?_, hlater⟩
    · rw [hh, hb]
      simpa using ⟨hle, hv⟩
    · rw [hh, hc]
      intro c hmem
      refine ⟨newH, rfl, ?_⟩
      split_ifs at hmem with hn
      · cases hmem
        rcases hvote with hd | hvote
        · exact absurd (congrArg SCPBallot.counter hd) hn
        · exact hvote
      · -- c was set before, so h was, on the value of b
        obtain ⟨h, hmemh, hle', hv'⟩ := hbp.commit c hmem
        obtain ⟨b', hb', -, hvb⟩ := hbp.high h hmemh
        have hlt := hhigh h hmemh
        exact ⟨hle'.trans hlt.le, hv'.trans (hvb.trans (hcomp b' hb'))⟩
  · exact ⟨by simpa using hbp.prepared, by simpa using hbp.prime, by simp [hh], by simp [hc], hlater⟩
  · refine ⟨by simpa using hbp.prepared, by simpa using hbp.prime, ?_, ?_, hlater⟩
    · rw [hh, hb, ← hb₀]
      exact hbp.high
    · rw [hh, hc]
      exact hbp.commit

theorem BallotProtocol.Consistent.bumpedTo (hbp : bp.Consistent) {ballot : SCPBallot}
    (hcan : bp.CanBumpTo ballot) : (bp.bumpedTo ballot).Consistent := by
  obtain ⟨-, hlt, hval⟩ := hcan
  refine ⟨hbp.prepared, hbp.prime, ?_, ?_, ?_⟩
  · rw [bumpedTo_mHighBallot]
    intro h hh
    split_ifs at hh with hne
    · cases hh
    · push Not at hne
      obtain ⟨b, hb, hle, -⟩ := hbp.high h hh
      exact ⟨ballot, rfl, hle.trans (hlt b hb).le, (hne h hh).symm⟩
  · rw [bumpedTo_mHighBallot, bumpedTo_mCommit]
    split_ifs
    · simp
    · exact hbp.commit
  · intro hphase
    obtain ⟨b, p, h, c, hb, hp, hh, hc, -, hch, -⟩ := hbp.exists_of_later hphase
    refine ⟨?_, (hbp.later hphase).2⟩
    have hne : ¬ ∃ h ∈ bp.mHighBallot, ballot.value ≠ h.value := by
      rintro ⟨h', hh', hne⟩
      obtain rfl := mem_unique hh hh'
      exact hne (by rw [← hch, hval b hb c hc])
    rw [bumpedTo_mCommit, if_neg hne, hc]
    simp

/-- A node that accepts a commit is on a ballot that contains it. -/
theorem Enabled.exists_mCurrentBallot {c h : SCPBallot} (hen : Enabled scp bp (.acceptCommit c h))
    (hbp : bp.Consistent) : ∃ b, (bp.acceptCommit c h).mCurrentBallot = some b ∧ h ≤ b ∧
      h.value = b.value ∧ (b = h ∨ bp.mCurrentBallot = some b) := by
  cases hen with
  | acceptCommit hval hpos hle hp hphase hacc =>
    refine hbp.acceptCommit_mCurrentBallot ?_
    rcases hphase with hphase | ⟨hphase, h₀, hh₀, hv, -⟩
    · exact .inl hphase
    · exact .inr ⟨hphase, h₀, hh₀, hv⟩

/-- A guarded move keeps the ballots consistent. -/
theorem Enabled.consistent {m : Move} (h : Enabled scp bp m) (hbp : bp.Consistent) :
    (m.apply bp).Consistent := by
  cases h with
  | acceptPrepared hphase hacc hclear => exact hbp.acceptPrepared hacc hclear
  | confirmPrepared hphase hp hhigh hrat hvote =>
    exact hbp.confirmPrepared hphase hhigh (hvote.imp_right fun h => ⟨h.2.2.1, h.2.2.2⟩)
  | @acceptCommit c h hval hpos hle hp hphase hacc =>
    obtain ⟨b, hb, hhb, hvb, -⟩ :=
      (Enabled.acceptCommit hval hpos hle hp hphase hacc).exists_mCurrentBallot hbp
    change (bp.acceptCommit c h).Consistent
    refine ⟨?_, ?_, ?_, ?_, ?_⟩
    · rw [acceptCommit_mPrepared, acceptCommit_mPreparedPrime]
      split_ifs
      · simp
      · exact hbp.prepared
    · intro hnone
      exact absurd ((acceptCommit_mPrepared c h).symm.trans hnone) hp
    · simpa [hb] using ⟨hhb, hvb⟩
    · simpa using ⟨(SCPBallot.le_iff_of_value_eq hval).mpr hle, hval⟩
    · simpa using fun _ => hp
  | @confirmCommit c h c₀ hval hpos hle hphase hc₀ hsame hrat =>
    obtain ⟨b, p, h₀, c₀', hb, hp, hh₀, hc₀', -, hch, hhb, hvb⟩ :=
      hbp.exists_of_later (by simp [hphase])
    obtain rfl := mem_unique hc₀ hc₀'
    change (bp.confirmCommit c h).Consistent
    refine ⟨by simpa using hbp.prepared, by simpa using hbp.prime, ?_, ?_, by simp [hp]⟩
    · rw [confirmCommit_mHighBallot, confirmCommit_mCurrentBallot, hb]
      have hbv : h.value = b.value := by rw [← hval, ← hsame, hch, hvb]
      by_cases hlt : b < h
      · simp [hlt]
      · simpa [hlt] using ⟨not_lt.mp hlt, hbv⟩
    · simpa using ⟨(SCPBallot.le_iff_of_value_eq hval).mpr hle, hval⟩
  | bump hcan hpos => exact hbp.bumpedTo hcan

end

end DigitalBits.Scp
