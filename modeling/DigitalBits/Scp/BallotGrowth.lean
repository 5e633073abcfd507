import DigitalBits.Scp.BallotCoverage

/-!
# Statements grow

The statement a node makes after a move is the one it made before or, in the order
by which its peers decide whether to look at it, a newer one.
-/
namespace DigitalBits.Scp
open Lib LocalNode BallotProtocol Option

section
variable {scp : SCP} {bp : BallotProtocol} {hash : Hash} {pl₀ pl : BallotPledges}
  {ballot newC newH : SCPBallot}

theorem isNewerPrepare_of_ballot {p q : SCPPrepare} (h : p.ballot < q.ballot) :
    isNewerStatement (.prepare p) (.prepare q) = true := by
  have hrank : p.rank < q.rank := Prod.Lex.toLex_lt_toLex.mpr (.inl h)
  simpa [isNewerStatement, BallotPledges.type] using isNewerPrepare_iff.mpr hrank

theorem isNewerConfirm_of_ballot {p q : SCPConfirm} (h : p.ballot < q.ballot) :
    isNewerStatement (.confirm p) (.confirm q) = true := by
  have hrank : p.rank < q.rank := Prod.Lex.toLex_lt_toLex.mpr (.inl h)
  simpa [isNewerStatement, BallotPledges.type] using isNewerConfirm_iff.mpr hrank

/-- On one ballot, by `p` and then by `p'`. -/
theorem ballotRank_lt_some {o : Option SCPBallot} {b : SCPBallot} (h : ∀ p ∈ o, p < b) :
    ballotRank o < ballotRank (some b) := by
  cases o <;> simp_all [ballotRank]

theorem isNewerPrepare_of_prepared {p q : SCPPrepare} (hb : p.ballot = q.ballot)
    (h : ballotRank p.prepared < ballotRank q.prepared ∨
      p.prepared = q.prepared ∧ ballotRank p.preparedPrime < ballotRank q.preparedPrime) :
    isNewerStatement (.prepare p) (.prepare q) = true := by
  have hrank : p.rank < q.rank := by
    refine Prod.Lex.toLex_lt_toLex.mpr (.inr ⟨hb, ?_⟩)
    rcases h with h | ⟨heq, h⟩
    · exact Prod.Lex.toLex_lt_toLex.mpr (.inl h)
    · refine Prod.Lex.toLex_lt_toLex.mpr (.inr ⟨by rw [heq], ?_⟩)
      exact Prod.Lex.toLex_lt_toLex.mpr (.inl h)
  simpa [isNewerStatement, BallotPledges.type] using isNewerPrepare_iff.mpr hrank

theorem isNewerPrepare_of_high {p q : SCPPrepare} (hb : p.ballot = q.ballot)
    (hp : p.prepared = q.prepared) (hp' : p.preparedPrime = q.preparedPrime) (h : p.nH < q.nH) :
    isNewerStatement (.prepare p) (.prepare q) = true := by
  have hrank : p.rank < q.rank := by
    refine Prod.Lex.toLex_lt_toLex.mpr (.inr ⟨hb, ?_⟩)
    refine Prod.Lex.toLex_lt_toLex.mpr (.inr ⟨by rw [hp], ?_⟩)
    exact Prod.Lex.toLex_lt_toLex.mpr (.inr ⟨by rw [hp'], h⟩)
  simpa [isNewerStatement, BallotPledges.type] using isNewerPrepare_iff.mpr hrank

theorem isNewerConfirm_of_counters {p q : SCPConfirm} (hb : p.ballot = q.ballot)
    (h : p.nPrepared < q.nPrepared ∨ p.nPrepared = q.nPrepared ∧ p.nH < q.nH) :
    isNewerStatement (.confirm p) (.confirm q) = true := by
  have hrank : p.rank < q.rank :=
    Prod.Lex.toLex_lt_toLex.mpr (.inr ⟨hb, Prod.Lex.toLex_lt_toLex.mpr h⟩)
  simpa [isNewerStatement, BallotPledges.type] using isNewerConfirm_iff.mpr hrank

/-- The statement of a node in `PREPARE`. -/
def BallotProtocol.prepareStatement (bp : BallotProtocol) (hash : Hash) : SCPPrepare where
  quorumSetHash := hash
  ballot := bp.mCurrentBallot.getD default
  prepared := bp.mPrepared
  preparedPrime := bp.mPreparedPrime
  nC := (bp.mCommit.map SCPBallot.counter).getD 0
  nH := (bp.mHighBallot.map SCPBallot.counter).getD 0

theorem pledges_of_prepare (hphase : bp.mPhase = .prepare)
    (h : bp.pledges hash bp.mPhase.statementType = .ok pl) :
    pl = .prepare (bp.prepareStatement hash) := by
  rw [hphase] at h
  exact (Except.ok.inj h).symm

theorem pledges_of_confirm (hphase : bp.mPhase = .confirm)
    (h : bp.pledges hash bp.mPhase.statementType = .ok pl) :
    ∃ b p c hb, bp.mCurrentBallot = some b ∧ bp.mPrepared = some p ∧ bp.mCommit = some c ∧
      bp.mHighBallot = some hb ∧ pl = .confirm ⟨b, p.counter, c.counter, hb.counter, hash⟩ := by
  obtain ⟨ht, -⟩ | ⟨-, h⟩ | ⟨ht, -⟩ := pledges_cases h
  · rw [hphase] at ht; cases ht
  · exact h
  · rw [hphase] at ht; cases ht

theorem acceptPrepared_newer (hen : Enabled scp bp (.acceptPrepared ballot))
    (h₀ : bp.pledges hash bp.mPhase.statementType = .ok pl₀)
    (h : (bp.acceptPrepared ballot).pledges hash
      (bp.acceptPrepared ballot).mPhase.statementType = .ok pl) :
    isNewerStatement pl₀ pl = true := by
  cases hen with
  | acceptPrepared hphase hacc hclear =>
    have hphase' := bp.acceptPrepared_mPhase ballot
    have hb := bp.acceptPrepared_mCurrentBallot ballot
    cases hp : bp.mPhase with
    | externalize => exact absurd hp hphase
    | prepare =>
      rw [pledges_of_prepare hp h₀, pledges_of_prepare (hphase'.trans hp) h]
      refine isNewerPrepare_of_prepared ?_ ?_
      · simp only [prepareStatement, hb]
      simp only [prepareStatement]
      obtain ⟨hlt, h1, -⟩ | ⟨p, hpe, hlt, -, h1, -⟩ | ⟨p, hpe, hlt, -, hlt', h1, h2⟩ :=
        acceptPrepared_cases hacc.2.1
      · rw [h1]
        exact .inl (ballotRank_lt_some fun p hpe => (hlt p hpe).1)
      · rw [h1, hpe]
        exact .inl (ballotRank_lt_some (by simpa using hlt))
      · rw [h2]
        exact .inr ⟨hpe.trans h1.symm, ballotRank_lt_some hlt'⟩
    | confirm =>
      obtain ⟨b, p, c, hb₀, hbe, hpe, -, -, rfl⟩ := pledges_of_confirm hp h₀
      obtain ⟨b', p', c', hb', hbe', hpe', -, -, rfl⟩ := pledges_of_confirm (hphase'.trans hp) h
      have hbb : b = b' := some.inj (hbe.symm.trans (hb.symm.trans hbe'))
      refine isNewerConfirm_of_counters hbb (.inl ?_)
      -- only a ballot compatible with `p` is accepted, and it becomes `p`
      obtain ⟨q, hq, hlt, hv, h1, -⟩ := hacc.of_confirm hp
      obtain rfl := mem_unique hpe hq
      obtain rfl := mem_unique h1 hpe'
      exact (SCPBallot.lt_iff_of_value_eq hv).mp hlt

theorem confirmPrepared_newer (hbp : bp.Consistent)
    (hen : Enabled scp bp (.confirmPrepared newC newH))
    (h₀ : bp.pledges hash bp.mPhase.statementType = .ok pl₀)
    (h : (bp.confirmPrepared newC newH).pledges hash
      (bp.confirmPrepared newC newH).mPhase.statementType = .ok pl) :
    pl₀ = pl ∨ isNewerStatement pl₀ pl = true := by
  cases hen with
  | confirmPrepared hphase hp hhigh hrat hvote =>
    have hphase' : (bp.confirmPrepared newC newH).mPhase = .prepare := by
      rw [confirmPrepared_mPhase, hphase]
    rw [pledges_of_prepare hphase h₀, pledges_of_prepare hphase' h]
    have hpe := bp.confirmPrepared_mPrepared newC newH
    have hpe' := bp.confirmPrepared_mPreparedPrime newC newH
    obtain ⟨hcomp, hh, hc, b, hb, -, -, hle, -⟩ | ⟨b, hb, -, hlt, hb', -, -⟩ |
      ⟨b, hb, -, -, hb', hh', hc'⟩ := hbp.confirmPrepared_cases newC hhigh
    · have hle' : bp.mCurrentBallot.getD default ≤ b := by
        cases hcur : bp.mCurrentBallot with
        | none => exact default_le b
        | some b₀ => exact hle b₀ hcur
      rcases hle'.lt_or_eq with hlt | heq
      · refine .inr (isNewerPrepare_of_ballot ?_)
        simpa only [prepareStatement, hb, getD_some] using hlt
      have hballot : (bp.prepareStatement hash).ballot =
          ((bp.confirmPrepared newC newH).prepareStatement hash).ballot := by
        simpa only [prepareStatement, hb, getD_some] using heq
      cases hh₀ : bp.mHighBallot with
      | some h₀ =>
        -- on one value a higher ballot has a higher counter
        have hcount : h₀.counter < newH.counter := by
          obtain ⟨b₀, hb₀, -, hv⟩ := hbp.high h₀ hh₀
          exact (SCPBallot.lt_iff_of_value_eq (hv.trans (hcomp b₀ hb₀))).mp (hhigh h₀ hh₀)
        refine .inr (isNewerPrepare_of_high hballot hpe.symm hpe'.symm ?_)
        simpa only [prepareStatement, hh, hh₀, map_some,
          getD_some] using hcount
      | none =>
        by_cases hzero : newH.counter = 0
        · -- a ballot with counter zero leaves no trace in the statement
          have hnewC : newC.counter = 0 := by
            rcases hvote with rfl | ⟨-, -, hle, -⟩
            · rfl
            · have hcount := SCPBallot.counter_le hle
              rw [hzero] at hcount
              exact le_antisymm hcount (Fin.zero_le _)
          rw [if_neg (by simpa using hnewC)] at hc
          refine .inl ?_
          have hsame : bp.prepareStatement hash =
              (bp.confirmPrepared newC newH).prepareStatement hash := by
            simp only [prepareStatement, hpe, hpe', hh, hh₀, hc, hb, heq, hzero,
              map_some, map_none, getD_some, getD_none]
          rw [hsame]
        · refine .inr (isNewerPrepare_of_high hballot hpe.symm hpe'.symm ?_)
          simp only [prepareStatement, hh, hh₀, map_some, map_none,
            getD_some, getD_none]
          exact Fin.pos_of_ne_zero hzero
    · refine .inr (isNewerPrepare_of_ballot ?_)
      simpa only [prepareStatement, hb, hb', getD_some] using hlt
    · refine .inl ?_
      have hsame : bp.prepareStatement hash =
          (bp.confirmPrepared newC newH).prepareStatement hash := by
        simp only [prepareStatement, hpe, hpe', hh', hc', hb, hb']
      rw [hsame]

theorem isNewerStatement_of_type (h : pl₀.type.toNat < pl.type.toNat) :
    isNewerStatement pl₀ pl = true := by
  have hne : pl₀.type ≠ pl.type := by
    intro heq
    rw [heq] at h
    exact lt_irrefl _ h
  unfold isNewerStatement
  rw [if_pos hne]
  exact decide_eq_true h

theorem type_of_pledges (h : bp.pledges hash bp.mPhase.statementType = .ok pl) :
    pl.type = bp.mPhase.statementType := by
  obtain ⟨ht, rfl⟩ | ⟨ht, b, p, c, hb, -, -, -, -, rfl⟩ | ⟨ht, c, hb, -, -, rfl⟩ :=
    pledges_cases h <;> rw [ht] <;> rfl

theorem acceptCommit_newer {c h : SCPBallot}
    (hen : Enabled scp bp (.acceptCommit c h))
    (h₀ : bp.pledges hash bp.mPhase.statementType = .ok pl₀)
    (h₁ : (bp.acceptCommit c h).pledges hash
      (bp.acceptCommit c h).mPhase.statementType = .ok pl) :
    isNewerStatement pl₀ pl = true := by
  have hconf := bp.acceptCommit_mPhase c h hen.mPhase_ne
  cases hen with
  | acceptCommit hval hpos hle hp hphase hacc =>
    rcases hphase with hprep | ⟨hphase, hb, hh, hv, hlt⟩
    · refine isNewerStatement_of_type ?_
      rw [type_of_pledges h₀, type_of_pledges h₁, hprep, hconf]
      decide
    · obtain ⟨b, p, c₀, h₀', hbe, hpe, -, hhe, rfl⟩ := pledges_of_confirm hphase h₀
      obtain ⟨b', p', c', h', hbe', hpe', -, hhe', rfl⟩ := pledges_of_confirm hconf h₁
      obtain rfl := mem_unique hh hhe
      rw [acceptCommit_mHighBallot] at hhe'
      rw [acceptCommit_mPrepared, hpe] at hpe'
      cases hhe'
      cases hpe'
      rw [acceptCommit, if_neg (by simp [hphase]),
        raisedTo_mCurrentBallot] at hbe'
      change (if ∀ b ∈ bp.mCurrentBallot, b < h then some h else bp.mCurrentBallot) = _ at hbe'
      split_ifs at hbe' with hraise
      · cases hbe'
        exact isNewerConfirm_of_ballot (hraise b hbe)
      · obtain rfl := mem_unique hbe hbe'
        exact isNewerConfirm_of_counters rfl (.inr ⟨rfl, hlt⟩)

theorem bump_newer (hen : Enabled scp bp (.bump ballot))
    (h₀ : bp.pledges hash bp.mPhase.statementType = .ok pl₀)
    (h : (bp.bumpedTo ballot).pledges hash (bp.bumpedTo ballot).mPhase.statementType = .ok pl) :
    isNewerStatement pl₀ pl = true := by
  cases hen with
  | bump hcan hpos =>
    cases hp : bp.mPhase with
    | externalize => exact absurd hp hcan.1
    | prepare =>
      have hp' : (bp.bumpedTo ballot).mPhase = .prepare := hp
      rw [pledges_of_prepare hp h₀, pledges_of_prepare hp' h]
      refine isNewerPrepare_of_ballot ?_
      change bp.mCurrentBallot.getD default < ballot
      cases hb : bp.mCurrentBallot with
      | some b => exact hcan.2.1 b hb
      | none =>
        refine lt_of_le_of_ne (default_le ballot) ?_
        rintro rfl
        exact hpos rfl
    | confirm =>
      obtain ⟨b, p, c, hb, hbe, -, -, -, rfl⟩ := pledges_of_confirm hp h₀
      have hp' : (bp.bumpedTo ballot).mPhase = .confirm := hp
      obtain ⟨b', p', c', hb', hbe', -, -, -, rfl⟩ := pledges_of_confirm hp' h
      cases hbe'
      exact isNewerConfirm_of_ballot (hcan.2.1 b hbe)

/-- After a move the node says what it said before, or something newer. -/
theorem Enabled.newer {m : Move} (hen : Enabled scp bp m) (hbp : bp.Consistent)
    (h₀ : bp.pledges hash bp.mPhase.statementType = .ok pl₀)
    (h : (m.apply bp).pledges hash (m.apply bp).mPhase.statementType = .ok pl) :
    pl₀ = pl ∨ isNewerStatement pl₀ pl = true := by
  cases m with
  | acceptPrepared ballot => exact .inr (acceptPrepared_newer hen h₀ h)
  | confirmPrepared newC newH => exact confirmPrepared_newer hbp hen h₀ h
  | acceptCommit c hb => exact .inr (acceptCommit_newer hen h₀ h)
  | confirmCommit c hb =>
    refine .inr (isNewerStatement_of_type ?_)
    have hphase : bp.mPhase = .confirm := by
      cases hen with
      | confirmCommit _ _ _ hphase => exact hphase
    have hext : (Move.apply bp (.confirmCommit c hb)).mPhase = .externalize := rfl
    rw [type_of_pledges h₀, type_of_pledges h, hphase, hext]
    decide
  | bump ballot => exact .inr (bump_newer hen h₀ h)

end

end DigitalBits.Scp
