import DigitalBits.Scp.BallotSearch

/-!
# Moves of the ballot protocol

Each `attempt` function searches the recorded statements, changes the ballots
once and then speaks. `Move` names the change, `attempt` the outcome of the
search, and the lemmas below reduce every function of the recursion to its
search, its move and `emitCurrentStateStatement`.
-/
namespace DigitalBits.Scp
open Lib LocalNode BallotProtocol OrderedSet

/-- The ways in which a node changes its ballots. -/
inductive Move where
  | acceptPrepared (ballot : SCPBallot)
  | confirmPrepared (newC newH : SCPBallot)
  | acceptCommit (c h : SCPBallot)
  | confirmCommit (c h : SCPBallot)
  | bump (ballot : SCPBallot)

variable (bp : BallotProtocol)

namespace BallotProtocol

/-- The state after `updateCurrentIfNeeded`. -/
def raisedTo (h : SCPBallot) : BallotProtocol :=
  if ∀ b ∈ bp.mCurrentBallot, b < h then bp.bumpedTo h else bp

section
variable (bp : BallotProtocol) (h : SCPBallot)

@[simp] theorem bumpedTo_mPhase : (bp.bumpedTo h).mPhase = bp.mPhase := rfl
@[simp] theorem bumpedTo_mCurrentBallot : (bp.bumpedTo h).mCurrentBallot = some h := rfl
@[simp] theorem bumpedTo_mPrepared : (bp.bumpedTo h).mPrepared = bp.mPrepared := rfl
@[simp] theorem bumpedTo_mPreparedPrime :
    (bp.bumpedTo h).mPreparedPrime = bp.mPreparedPrime := rfl
@[simp] theorem bumpedTo_mLatestEnvelopes :
    (bp.bumpedTo h).mLatestEnvelopes = bp.mLatestEnvelopes := rfl

@[simp] theorem raisedTo_mPhase : (bp.raisedTo h).mPhase = bp.mPhase := by
  unfold raisedTo; split_ifs <;> rfl

@[simp] theorem raisedTo_mPrepared : (bp.raisedTo h).mPrepared = bp.mPrepared := by
  unfold raisedTo; split_ifs <;> rfl

@[simp] theorem raisedTo_mPreparedPrime :
    (bp.raisedTo h).mPreparedPrime = bp.mPreparedPrime := by
  unfold raisedTo; split_ifs <;> rfl

@[simp] theorem raisedTo_mLatestEnvelopes :
    (bp.raisedTo h).mLatestEnvelopes = bp.mLatestEnvelopes := by
  unfold raisedTo; split_ifs <;> rfl

end

/-- The state after `setAcceptPrepared`. -/
def acceptPrepared (ballot : SCPBallot) : BallotProtocol :=
  if (bp.setPrepared ballot).1.contradictsCommit then
    { (bp.setPrepared ballot).1 with mCommit := none }
  else (bp.setPrepared ballot).1

/-- The state after `setConfirmPrepared`. -/
def confirmPrepared (newC newH : SCPBallot) : BallotProtocol :=
  (bp.withConfirmed newC newH).raisedTo newH

/-- The state after `setAcceptCommit`. -/
def acceptCommit (c h : SCPBallot) : BallotProtocol :=
  if bp.mPhase = .prepare then
    (if ∃ b ∈ bp.mCurrentBallot, ¬ areBallotsLessAndCompatible h b then
      ((bp.withAccepted c h).withPhase .confirm).bumpedTo h
    else (bp.withAccepted c h).withPhase .confirm).withoutPrime.raisedTo h
  else (bp.withAccepted c h).raisedTo h

/-- The state after `setConfirmCommit`. -/
def confirmCommit (c h : SCPBallot) : BallotProtocol :=
  ((bp.withCommitted c h).raisedTo h).withPhase .externalize

section
variable (bp : BallotProtocol) (c h : SCPBallot)

/-- A state whose `h` is the ballot itself keeps `h` and `c` when it is raised. -/
theorem raisedTo_of_high (hh : bp.mHighBallot = some h) :
    (bp.raisedTo h).mHighBallot = some h ∧ (bp.raisedTo h).mCommit = bp.mCommit := by
  unfold raisedTo
  split_ifs <;> simp [bumpedTo, hh]

@[simp] theorem confirmCommit_mCommit : (bp.confirmCommit c h).mCommit = some c :=
  (raisedTo_of_high (bp.withCommitted c h) h rfl).2

@[simp] theorem confirmCommit_mHighBallot : (bp.confirmCommit c h).mHighBallot = some h :=
  (raisedTo_of_high (bp.withCommitted c h) h rfl).1

end

end BallotProtocol

def Move.apply : Move → BallotProtocol
  | .acceptPrepared ballot => bp.acceptPrepared ballot
  | .confirmPrepared newC newH => bp.confirmPrepared newC newH
  | .acceptCommit c h => bp.acceptCommit c h
  | .confirmCommit c h => bp.confirmCommit c h
  | .bump ballot => bp.bumpedTo ballot

/-- Events that say what the node did or what state it was in; the others are
notifications. -/
def Event.isAudit : Event → Bool
  | .signEnvelope _ => true
  | .emitEnvelope _ => true
  | .checkInvariants _ => true
  | _ => false

def Slot.logAll (s : Slot) (evs : List Event) : Slot := { s with trace := evs ++ s.trace }

theorem Slot.filterMap_logAll {α : Type} (s : Slot) {evs : List Event}
    (h : ∀ e ∈ evs, e.isAudit = false) {f : Event → Option α}
    (hf : ∀ e, e.isAudit = false → f e = none) :
    (s.logAll evs).trace.filterMap f = s.trace.filterMap f := by
  rw [logAll, List.filterMap_append, List.filterMap_eq_nil_iff.mpr fun e he => hf e (h e he),
    List.nil_append]

theorem Slot.mem_trace_logAll {s : Slot} {evs : List Event}
    (hevs : ∀ e ∈ evs, e.isAudit = false) {e : Event} (he : e.isAudit = true) :
    e ∈ (s.logAll evs).trace ↔ e ∈ s.trace := by
  refine ⟨fun h => ?_, fun h => List.mem_append_right evs h⟩
  rcases List.mem_append.mp h with h | h
  · rw [hevs e h] at he
    cases he
  · exact h

/-- The slot after a move and its notifications. -/
def Moved (s : Slot) (m : Move) (t : Slot) : Prop :=
  ∃ evs : List Event, (∀ e ∈ evs, e.isAudit = false) ∧
    t = (s.withBallot (m.apply s.mBallotProtocol)).logAll evs

section
variable (scp : SCP) (bp : BallotProtocol) (hint : BallotPledges)

/-- The outcome of the search of `attemptAcceptPrepared`. -/
def attemptedAcceptPrepared : Except Failure (Option Move) :=
  if bp.mPhase = .externalize then .ok none
  else
    match findAcceptPrepared scp bp (getPrepareCandidates bp.mLatestEnvelopes hint).descending with
    | .error e => .error e
    | .ok none => .ok none
    | .ok (some ballot) =>
      if (bp.setPrepared ballot).1.contradictsCommit = true ∧ bp.mPhase ≠ .prepare then
        .error (.assertion .clearCommitOutsidePrepare)
      else .ok (some (.acceptPrepared ballot))

/-- The lowest ballot `attemptConfirmPrepared` votes to commit. -/
def chosenC (newH : SCPBallot) (rest : List SCPBallot) : SCPBallot :=
  if canVoteCommit bp newH then findNewC scp bp newH rest default else default

/-- The search of `attemptConfirmPrepared`: the new `c` and `h`. -/
def confirmablePrepared : Option (SCPBallot × SCPBallot) :=
  if bp.mPhase ≠ .prepare ∨ bp.mPrepared = none then none
  else
    (findNewH scp bp (getPrepareCandidates bp.mLatestEnvelopes hint).descending).map
      fun found => (chosenC scp bp found.1 found.2, found.1)

/-- Does `setConfirmPrepared` do anything but remember the value. -/
def BallotProtocol.confirmWorks (newC newH : SCPBallot) : Bool :=
  decide (∀ b ∈ bp.mCurrentBallot, b < newH) || bp.raisesH newH || bp.votesCommit newC newH

/-- The outcome of the search of `attemptAcceptCommit`. -/
def attemptedAcceptCommit : Except Failure (Option Move) :=
  match acceptCommitHint hint with
  | none => .ok none
  | some ballot =>
    let candidate := findAcceptCommit scp bp.mLatestEnvelopes ballot
    let move := Move.acceptCommit ⟨candidate.1, ballot.value⟩ ⟨candidate.2, ballot.value⟩
    match bp.mPhase, bp.mHighBallot with
    | .prepare, _ => .ok (if candidate.1 ≠ 0 then some move else none)
    | .confirm, none => .error .nullDereference
    | .confirm, some h =>
      .ok (if areBallotsCompatible ballot h ∧ candidate.1 ≠ 0 ∧ candidate.2 > h.counter then
        some move else none)
    | .externalize, _ => .ok none

/-- The outcome of the search of `attemptConfirmCommit`. -/
def attemptedConfirmCommit : Option Move :=
  match bp.mPhase, bp.mHighBallot, bp.mCommit, confirmCommitHint hint with
  | .confirm, some _, some c, some ballot =>
    let candidate := findConfirmCommit scp bp.mLatestEnvelopes ballot
    if areBallotsCompatible ballot c ∧ candidate.1 ≠ 0 then
      some (.confirmCommit ⟨candidate.1, ballot.value⟩ ⟨candidate.2, ballot.value⟩)
    else none
  | _, _, _, _ => none

end

/-! ## What the outcome of a search says -/

section
variable {scp : SCP} {bp : BallotProtocol} {hint : BallotPledges}

theorem SCPPhase.eq_externalize_iff (phase : SCPPhase) :
    phase ≠ .prepare ∧ phase ≠ .confirm ↔ phase = .externalize := by
  cases phase <;> simp

theorem chosenC_spec (scp : SCP) (bp : BallotProtocol) (newH : SCPBallot)
    (rest : List SCPBallot) :
    chosenC scp bp newH rest = default ∨
      canVoteCommit bp newH = true ∧ bp.mCurrentBallot.getD default ≤ chosenC scp bp newH rest ∧
        chosenC scp bp newH rest ≤ newH ∧ (chosenC scp bp newH rest).value = newH.value := by
  unfold chosenC
  split_ifs with hvote
  · have hspec : findNewC scp bp newH rest default = default ∨ _ :=
      findNewC_spec rest default (.inl rfl)
    exact hspec.imp_right fun hc => ⟨hvote, hc⟩
  · exact .inl rfl

variable {m : Move}

/-- The highest acceptable candidate is accepted prepared. -/
theorem attemptedAcceptPrepared_some (h : attemptedAcceptPrepared scp bp hint = .ok (some m)) :
    ∃ ballot, m = .acceptPrepared ballot ∧ bp.mPhase ≠ .externalize ∧
      ballot ∈ getPrepareCandidates bp.mLatestEnvelopes hint ∧ IsAcceptable scp bp ballot ∧
      (∀ b ∈ getPrepareCandidates bp.mLatestEnvelopes hint, IsAcceptable scp bp b → b ≤ ballot) ∧
      ((bp.setPrepared ballot).1.contradictsCommit = true → bp.mPhase = .prepare) := by
  revert h
  fun_cases attemptedAcceptPrepared with
  | case1 | case2 | case3 | case4 => rintro ⟨⟩
  | case5 hphase ballot hfind hbad =>
    rintro ⟨⟩
    obtain ⟨l₁, l₂, hl, hacc, hskip⟩ := findAcceptPrepared_yields.of_ok hfind
    have hsorted := (getPrepareCandidates bp.mLatestEnvelopes hint).descending_sorted
    rw [hl, List.pairwise_append] at hsorted
    refine ⟨ballot, rfl, hphase, by simp [← mem_descending, hl], hacc, fun b hb hbacc => ?_,
      fun hcon => not_not.mp fun hne => hbad ⟨hcon, hne⟩⟩
    rw [← mem_descending, hl, List.mem_append, List.mem_cons] at hb
    rcases hb with hb | rfl | hb
    · exact absurd hbacc (hskip b hb)
    · exact le_rfl
    · exact (List.rel_of_pairwise_cons hsorted.2.1 hb).le

theorem attemptedAcceptPrepared_none (h : attemptedAcceptPrepared scp bp hint = .ok none)
    (hphase : bp.mPhase ≠ .externalize) :
    ∀ b ∈ getPrepareCandidates bp.mLatestEnvelopes hint, ¬ IsAcceptable scp bp b := by
  revert h
  fun_cases attemptedAcceptPrepared with
  | case1 h => exact absurd h hphase
  | case3 _ hfind =>
    exact fun _ b hb => findAcceptPrepared_yields.of_ok hfind b (mem_descending.mpr hb)
  | case2 | case4 | case5 => rintro ⟨⟩

theorem attemptedAcceptPrepared_error {e : Failure}
    (h : attemptedAcceptPrepared scp bp hint = .error e) :
    (∃ b ∈ getPrepareCandidates bp.mLatestEnvelopes hint, mayRaisePrepared bp b = .error e) ∨
    e = .assertion .clearCommitOutsidePrepare ∧ bp.mPhase = .confirm ∧ ∃ ballot,
      ballot ∈ getPrepareCandidates bp.mLatestEnvelopes hint ∧ IsAcceptable scp bp ballot ∧
      (bp.setPrepared ballot).1.contradictsCommit = true := by
  revert h
  fun_cases attemptedAcceptPrepared with
  | case1 | case3 | case5 => rintro ⟨⟩
  | case2 _ e hfind =>
    rintro ⟨⟩
    obtain ⟨b, hb, he⟩ := findAcceptPrepared_yields.of_error hfind
    exact .inl ⟨b, mem_descending.mp hb, he⟩
  | case4 hphase ballot hfind hbad =>
    rintro ⟨⟩
    obtain ⟨l₁, l₂, hl, hacc, -⟩ := findAcceptPrepared_yields.of_ok hfind
    refine .inr ⟨rfl, ?_, ballot, by simp [← mem_descending, hl], hacc, hbad.1⟩
    exact not_not.mp fun hne => hphase ((SCPPhase.eq_externalize_iff _).mp ⟨hbad.2, hne⟩)

/-- The new `h` is a ratified candidate above the old one; the new `c` is default
unless the node may vote to commit. -/
theorem confirmablePrepared_some {newC newH : SCPBallot}
    (h : confirmablePrepared scp bp hint = some (newC, newH)) :
    bp.mPhase = .prepare ∧ bp.mPrepared ≠ none ∧
      newH ∈ getPrepareCandidates bp.mLatestEnvelopes hint ∧ (∀ hb ∈ bp.mHighBallot, hb < newH) ∧
      federatedRatify scp bp.mLatestEnvelopes (hasPreparedBallot newH) = true ∧
      (newC = default ∨ canVoteCommit bp newH = true ∧ bp.mCurrentBallot.getD default ≤ newC ∧
        newC ≤ newH ∧ newC.value = newH.value) := by
  unfold confirmablePrepared at h
  split_ifs at h with hphase
  push Not at hphase
  obtain ⟨⟨newH', rest⟩, hfind, heq⟩ := Option.map_eq_some_iff.mp h
  cases heq
  obtain ⟨l₁, l₂, hl, -, hlt, hrat⟩ := findNewH_some hfind
  exact ⟨hphase.1, hphase.2, by simp [← mem_descending, hl], hlt, hrat, chosenC_spec scp bp _ rest⟩

theorem attemptedAcceptCommit_some (h : attemptedAcceptCommit scp bp hint = .ok (some m)) :
    ∃ ballot c hb, acceptCommitHint hint = some ballot ∧ m = .acceptCommit c hb ∧
      c.value = ballot.value ∧ hb.value = ballot.value ∧
      (c.counter, hb.counter) = findAcceptCommit scp bp.mLatestEnvelopes ballot ∧
      c.counter ≠ 0 ∧ (bp.mPhase = .prepare ∨ bp.mPhase = .confirm ∧
        ∃ h₀ ∈ bp.mHighBallot, h₀.value = ballot.value ∧ h₀.counter < hb.counter) := by
  revert h
  fun_cases attemptedAcceptCommit with
  | case1 | case3 | case5 => rintro ⟨⟩
  | case2 ballot hhint candidate move hphase =>
    simp only [Except.ok.injEq, Option.ite_none_right_eq_some, Option.some.injEq]
    rintro ⟨hcand, rfl⟩
    exact ⟨ballot, _, _, hhint, rfl, rfl, rfl, rfl, hcand, .inl hphase⟩
  | case4 ballot hhint candidate move h₀ hh hphase =>
    simp only [Except.ok.injEq, Option.ite_none_right_eq_some, Option.some.injEq,
      areBallotsCompatible_iff]
    rintro ⟨⟨hv, hcand, hlt⟩, rfl⟩
    exact ⟨ballot, _, _, hhint, rfl, rfl, rfl, rfl, hcand, .inr ⟨hphase, h₀, hh, hv.symm, hlt⟩⟩

theorem attemptedAcceptCommit_error {e : Failure}
    (h : attemptedAcceptCommit scp bp hint = .error e) :
    bp.mPhase = .confirm ∧ bp.mHighBallot = none := by
  revert h
  fun_cases attemptedAcceptCommit <;> simp_all

theorem attemptedConfirmCommit_some (h : attemptedConfirmCommit scp bp hint = some m) :
    ∃ ballot c hb, confirmCommitHint hint = some ballot ∧ m = .confirmCommit c hb ∧
      c.value = ballot.value ∧ hb.value = ballot.value ∧
      (c.counter, hb.counter) = findConfirmCommit scp bp.mLatestEnvelopes ballot ∧
      c.counter ≠ 0 ∧ bp.mPhase = .confirm ∧ ∃ c₀ ∈ bp.mCommit, c₀.value = ballot.value := by
  unfold attemptedConfirmCommit at h
  split at h
  · rename_i _ h₀ c₀ ballot hphase hh hc hhint
    simp only [Option.ite_none_right_eq_some, Option.some.injEq, areBallotsCompatible_iff] at h
    exact ⟨ballot, _, _, hhint, h.2.symm, rfl, rfl, rfl, h.1.2, hphase, c₀, hc, h.1.1.symm⟩
  · cases h

end

/-! ## Setting `p` and `p'` -/

section
variable {bp : BallotProtocol}

theorem isAlreadyPrepared_eq_false {ballot : SCPBallot} :
    isAlreadyPrepared bp ballot = false ↔ (∀ p' ∈ bp.mPreparedPrime, p' < ballot) ∧
      ∀ p ∈ bp.mPrepared, ballot ≤ p → ballot.value ≠ p.value := by
  simp [isAlreadyPrepared, Option.any_eq_false]

/-- A ballot that is not covered yet changes `p` or `p'`. -/
theorem setPrepared_works {ballot : SCPBallot} (h : isAlreadyPrepared bp ballot = false) :
    (bp.setPrepared ballot).2 = true := by
  obtain ⟨hp', hp⟩ := isAlreadyPrepared_eq_false.mp h
  fun_cases setPrepared with
  | case1 | case2 | case3 | case4 | case5 => rfl
  | case6 p hpe hgt p' hpe' hno =>
    have hlt := compareBallots_eq_gt.mp hgt
    exact absurd ⟨compareBallots_eq_lt.mpr (hp' p' hpe'), by simpa using (hp p hpe hlt.le).symm⟩ hno
  | case7 p hpe heq =>
    have hval := hp p hpe (compareBallots_eq_eq.mp heq).ge
    exact absurd (congrArg SCPBallot.value (compareBallots_eq_eq.mp heq).symm) hval

theorem setPrepared_fields (bp : BallotProtocol) (ballot : SCPBallot) :
    ∃ p p', (bp.setPrepared ballot).1 = { bp with mPrepared := p, mPreparedPrime := p' } := by
  fun_cases setPrepared <;> exact ⟨_, _, rfl⟩

theorem setPrepared_mPhase (bp : BallotProtocol) (ballot : SCPBallot) :
    (bp.setPrepared ballot).1.mPhase = bp.mPhase := by
  obtain ⟨p, p', h⟩ := setPrepared_fields bp ballot
  rw [h]

namespace BallotProtocol

theorem exists_of_contradictsCommit (h : bp.contradictsCommit = true) :
    ∃ hb ∈ bp.mHighBallot, ∃ p, (p ∈ bp.mPrepared ∨ p ∈ bp.mPreparedPrime) ∧ hb ≤ p ∧
      hb.value ≠ p.value := by
  simp only [contradictsCommit, Bool.and_eq_true, Option.any_eq_true, Bool.or_eq_true,
    areBallotsLessAndIncompatible_iff] at h
  grind

/-- Accepting a ballot prepared concerns `p`, `p'` and `c` only. -/
theorem acceptPrepared_fields (bp : BallotProtocol) (ballot : SCPBallot) :
    ∃ p p' c, bp.acceptPrepared ballot =
        { bp with mPrepared := p, mPreparedPrime := p', mCommit := c } ∧
      (c = none ∨ c = bp.mCommit) := by
  obtain ⟨p, p', h⟩ := setPrepared_fields bp ballot
  unfold acceptPrepared
  simp only [h]
  split_ifs
  · exact ⟨p, p', none, rfl, .inl rfl⟩
  · exact ⟨p, p', bp.mCommit, rfl, .inr rfl⟩

section
variable (bp : BallotProtocol) (ballot : SCPBallot)

@[simp] theorem acceptPrepared_mPhase : (bp.acceptPrepared ballot).mPhase = bp.mPhase := by
  obtain ⟨p, p', c, h, -⟩ := acceptPrepared_fields bp ballot
  rw [h]

@[simp] theorem acceptPrepared_mCurrentBallot :
    (bp.acceptPrepared ballot).mCurrentBallot = bp.mCurrentBallot := by
  obtain ⟨p, p', c, h, -⟩ := acceptPrepared_fields bp ballot
  rw [h]

@[simp] theorem acceptPrepared_mHighBallot :
    (bp.acceptPrepared ballot).mHighBallot = bp.mHighBallot := by
  obtain ⟨p, p', c, h, -⟩ := acceptPrepared_fields bp ballot
  rw [h]

@[simp] theorem acceptPrepared_mLatestEnvelopes :
    (bp.acceptPrepared ballot).mLatestEnvelopes = bp.mLatestEnvelopes := by
  obtain ⟨p, p', c, h, -⟩ := acceptPrepared_fields bp ballot
  rw [h]

theorem acceptPrepared_mPrepared :
    (bp.acceptPrepared ballot).mPrepared = (bp.setPrepared ballot).1.mPrepared := by
  unfold acceptPrepared
  split_ifs <;> rfl

theorem acceptPrepared_mPreparedPrime :
    (bp.acceptPrepared ballot).mPreparedPrime = (bp.setPrepared ballot).1.mPreparedPrime := by
  unfold acceptPrepared
  split_ifs <;> rfl

theorem acceptPrepared_mCommit : (bp.acceptPrepared ballot).mCommit =
    if (bp.setPrepared ballot).1.contradictsCommit then none else bp.mCommit := by
  obtain ⟨p, p', h⟩ := setPrepared_fields bp ballot
  unfold acceptPrepared
  split_ifs
  · rfl
  · rw [h]

variable {bp ballot} in
theorem mem_mCommit_of_acceptPrepared {c : SCPBallot}
    (hc : c ∈ (bp.acceptPrepared ballot).mCommit) : c ∈ bp.mCommit := by
  rw [acceptPrepared_mCommit] at hc
  split_ifs at hc
  · cases hc
  · exact hc

/-- A commit is given up for a greater ballot on another value. -/
theorem exists_of_clears (h : (bp.setPrepared ballot).1.contradictsCommit = true) :
    ∃ hb ∈ bp.mHighBallot, ∃ p, (p ∈ (bp.acceptPrepared ballot).mPrepared ∨
      p ∈ (bp.acceptPrepared ballot).mPreparedPrime) ∧ hb ≤ p ∧ hb.value ≠ p.value := by
  obtain ⟨hb, hmem, hp⟩ := exists_of_contradictsCommit h
  rw [← acceptPrepared_mPrepared, ← acceptPrepared_mPreparedPrime] at hp
  refine ⟨hb, ?_, hp⟩
  obtain ⟨p, p', heq⟩ := setPrepared_fields bp ballot
  rwa [heq] at hmem

end

/-- The new ballot becomes `p`, with the old `p` as `p'` if that is incompatible,
or it becomes `p'`. -/
theorem acceptPrepared_cases {bp : BallotProtocol} {ballot : SCPBallot}
    (hnew : isAlreadyPrepared bp ballot = false) :
    (∀ p ∈ bp.mPrepared, p < ballot ∧ p.value = ballot.value) ∧
        (bp.acceptPrepared ballot).mPrepared = some ballot ∧
        (bp.acceptPrepared ballot).mPreparedPrime = bp.mPreparedPrime ∨
    (∃ p, bp.mPrepared = some p ∧ p < ballot ∧ p.value ≠ ballot.value ∧
        (bp.acceptPrepared ballot).mPrepared = some ballot ∧
        (bp.acceptPrepared ballot).mPreparedPrime = some p) ∨
    ∃ p, bp.mPrepared = some p ∧ ballot < p ∧ ballot.value ≠ p.value ∧
        (∀ p' ∈ bp.mPreparedPrime, p' < ballot) ∧
        (bp.acceptPrepared ballot).mPrepared = some p ∧
        (bp.acceptPrepared ballot).mPreparedPrime = some ballot := by
  have hworks := setPrepared_works hnew
  obtain ⟨hp', hp⟩ := isAlreadyPrepared_eq_false.mp hnew
  simp only [acceptPrepared_mPrepared, acceptPrepared_mPreparedPrime]
  revert hworks
  fun_cases setPrepared with
  | case1 hnone => exact fun _ => .inl ⟨by simp [hnone], rfl, rfl⟩
  | case2 p hpe hlt hv =>
    exact fun _ => .inl ⟨by simpa [hpe] using ⟨compareBallots_eq_lt.mp hlt, by simpa using hv⟩, rfl, rfl⟩
  | case3 p hpe hlt hv =>
    exact fun _ => .inr (.inl ⟨p, hpe, compareBallots_eq_lt.mp hlt, by simpa using hv, rfl, rfl⟩)
  | case4 p hpe hgt | case5 p hpe hgt =>
    have hlt := compareBallots_eq_gt.mp hgt
    exact fun _ => .inr (.inr ⟨p, hpe, hlt, hp p hpe hlt.le, hp', hpe, rfl⟩)
  | case6 | case7 => rintro ⟨⟩

/-- What is accepted prepared then is the new ballot, or was before. -/
theorem mem_acceptPrepared {bp : BallotProtocol} {ballot q : SCPBallot}
    (hnew : isAlreadyPrepared bp ballot = false)
    (hq : q ∈ (bp.acceptPrepared ballot).mPrepared ∨
      q ∈ (bp.acceptPrepared ballot).mPreparedPrime) :
    q = ballot ∨ q ∈ bp.mPrepared ∨ q ∈ bp.mPreparedPrime := by
  obtain ⟨-, h1, h2⟩ | ⟨p, hp, -, -, h1, h2⟩ | ⟨p, hp, -, -, -, h1, h2⟩ :=
    acceptPrepared_cases hnew <;> grind

end BallotProtocol

end

/-! ## From a function to its move -/

section
variable {scp : SCP} {advance : BallotStatement → SlotM Unit} {s : Slot}
  {E : Failure → Slot → Prop}

@[simp] theorem Slot.logAll_nil : s.logAll [] = s := rfl

@[simp] theorem Slot.logAll_mBallotProtocol (evs : List Event) :
    (s.logAll evs).mBallotProtocol = s.mBallotProtocol := rfl

theorem Slot.logAll_withBallot (evs : List Event) (bp : BallotProtocol) :
    (s.logAll evs).withBallot bp = (s.withBallot bp).logAll evs := rfl

theorem Slot.logAll_logAll (evs evs' : List Event) :
    (s.logAll evs).logAll evs' = s.logAll (evs' ++ evs) := by
  simp [Slot.logAll]

/-- Notifications after a move are part of it. -/
theorem Moved.logAll {m : Move} {t : Slot} (h : Moved s m t) {evs : List Event}
    (hevs : ∀ e ∈ evs, e.isAudit = false) : Moved s m (t.logAll evs) := by
  obtain ⟨evs', hevs', rfl⟩ := h
  exact ⟨evs ++ evs', List.forall_mem_append.mpr ⟨hevs, hevs'⟩, Slot.logAll_logAll evs' evs⟩

/-- The notification of `bumpToBallot`, if it makes one. -/
def BallotProtocol.startEvents (ballot : SCPBallot) : List Event :=
  if bp.mCurrentBallot = none then [.startedBallotProtocol ballot] else []

theorem startEvents_isAudit (ballot : SCPBallot) :
    ∀ e ∈ bp.startEvents ballot, e.isAudit = false := by
  unfold startEvents
  split_ifs <;> simp [Event.isAudit]

variable {ballot : SCPBallot}

theorem after_bumpToBallot {check : Bool} {Q : Unit → Slot → Prop}
    (hphase : s.mBallotProtocol.mPhase ≠ .externalize)
    (hle : check = true → ∀ b ∈ s.mBallotProtocol.mCurrentBallot, b ≤ ballot) :
    After (bumpToBallot ballot check) s Q E ↔
      Q () ((s.withBallot (s.mBallotProtocol.bumpedTo ballot)).logAll
        (s.mBallotProtocol.startEvents ballot)) := by
  have hle' : check = true → ∀ b ∈ s.mBallotProtocol.mCurrentBallot,
      compareBallots ballot b ≠ .lt := by simpa using hle
  rw [bumpToBallot, after_bind, after_ballotProtocol, after_bind, after_dbgAssert_of hphase,
    after_bind, after_dbgAssert_of hle', after_bind]
  by_cases hb : s.mBallotProtocol.mCurrentBallot = none
  · rw [after_when_of hb, startEvents, if_pos hb]
    rfl
  · rw [after_when_of_not hb, startEvents, if_neg hb]
    rfl

theorem after_when_notify {c : Prop} [Decidable c] {e : Event} {Q : Unit → Slot → Prop} :
    After (when c (notify e)) s Q E ↔ Q () (s.logAll (if c then [e] else [])) := by
  by_cases h : c
  · rw [after_when_of h, if_pos h]
    rfl
  · rw [after_when_of_not h, if_neg h]
    rfl

theorem after_when_bumpToBallot {c : Prop} [Decidable c] {Q : Unit → Slot → Prop}
    (hphase : s.mBallotProtocol.mPhase ≠ .externalize) :
    After (when c (bumpToBallot ballot false)) s Q E ↔
      Q () ((s.withBallot (if c then s.mBallotProtocol.bumpedTo ballot else s.mBallotProtocol)).logAll
        (if c then s.mBallotProtocol.startEvents ballot else [])) := by
  by_cases hc : c
  · rw [after_when_of hc, after_bumpToBallot hphase (by simp), if_pos hc, if_pos hc]
  · rw [after_when_of_not hc, if_neg hc, if_neg hc]
    rfl

/-- The notification of `updateCurrentIfNeeded`, if it makes one. -/
def BallotProtocol.raiseEvents (h : SCPBallot) : List Event :=
  if ∀ b ∈ bp.mCurrentBallot, b < h then bp.startEvents h else []

theorem raiseEvents_isAudit (h : SCPBallot) : ∀ e ∈ bp.raiseEvents h, e.isAudit = false := by
  unfold raiseEvents
  split_ifs
  · exact startEvents_isAudit bp h
  · simp

variable {Q : Bool → Slot → Prop} {h : SCPBallot}

theorem after_updateCurrentIfNeeded (hphase : s.mBallotProtocol.mPhase ≠ .externalize) :
    After (updateCurrentIfNeeded h) s Q E ↔
      Q (decide (∀ b ∈ s.mBallotProtocol.mCurrentBallot, b < h))
        ((s.withBallot (s.mBallotProtocol.raisedTo h)).logAll
          (s.mBallotProtocol.raiseEvents h)) := by
  simp only [updateCurrentIfNeeded, after_bind, after_ballotProtocol, compareBallots_eq_lt]
  unfold raisedTo raiseEvents
  by_cases hb : ∀ b ∈ s.mBallotProtocol.mCurrentBallot, b < h
  · rw [if_pos hb, if_pos hb, if_pos hb, after_bind,
      after_bumpToBallot hphase fun _ b hmem => (hb b hmem).le, decide_eq_true hb]
    rfl
  · rw [if_neg hb, if_neg hb, if_neg hb, decide_eq_false hb]
    rfl

theorem after_setAcceptPrepared (hnew : isAlreadyPrepared s.mBallotProtocol ballot = false)
    (hfail : (s.mBallotProtocol.setPrepared ballot).1.contradictsCommit = true ∧
      s.mBallotProtocol.mPhase ≠ .prepare → E (.assertion .clearCommitOutsidePrepare) s)
    (hmove : ¬ ((s.mBallotProtocol.setPrepared ballot).1.contradictsCommit = true ∧
      s.mBallotProtocol.mPhase ≠ .prepare) → ∀ t, Moved s (.acceptPrepared ballot) t →
      After (emitCurrentStateStatement scp advance) t (fun _ u => Q true u) E) :
    After (setAcceptPrepared scp advance ballot) s Q E := by
  rw [setAcceptPrepared, after_bind, after_ballotProtocol]
  simp only
  rw [after_bind, after_dbgAssert]
  have hphase := setPrepared_mPhase s.mBallotProtocol ballot
  refine ⟨fun hok => ?_, fun hbad => hfail (by simpa [hphase] using hbad)⟩
  rw [after_bind, after_modifyBallot, setPrepared_works hnew, Bool.true_or, if_pos rfl,
    after_bind, after_notify, after_bind]
  exact hmove (fun hbad => hbad.2 (hphase ▸ hok hbad.1)) _
    ⟨[.acceptedBallotPrepared ballot], by simp [Event.isAudit], rfl⟩

variable {hint : BallotPledges}

theorem after_attemptAcceptPrepared
    (herr : ∀ e, attemptedAcceptPrepared scp s.mBallotProtocol hint = .error e → E e s)
    (hstay : attemptedAcceptPrepared scp s.mBallotProtocol hint = .ok none → Q false s)
    (hmove : ∀ m, attemptedAcceptPrepared scp s.mBallotProtocol hint = .ok (some m) →
      ∀ t, Moved s m t → After (emitCurrentStateStatement scp advance) t (fun _ u => Q true u) E) :
    After (attemptAcceptPrepared scp advance hint) s Q E := by
  unfold attemptedAcceptPrepared at herr hstay hmove
  rw [attemptAcceptPrepared, after_bind, after_ballotProtocol]
  by_cases hphase : s.mBallotProtocol.mPhase = .externalize
  · rw [if_pos ((SCPPhase.eq_externalize_iff _).mpr hphase)]
    exact hstay (if_pos hphase)
  · rw [if_neg (mt (SCPPhase.eq_externalize_iff _).mp hphase), after_bind]
    simp only [if_neg hphase] at herr hstay hmove
    cases hfind : findAcceptPrepared scp s.mBallotProtocol
        (getPrepareCandidates s.mBallotProtocol.mLatestEnvelopes hint).descending with
    | error e => exact herr e (by rw [hfind])
    | ok found =>
      rw [hfind] at herr hstay hmove
      cases found with
      | none => exact hstay rfl
      | some ballot =>
        simp only at herr hmove ⊢
        obtain ⟨-, -, -, hacc, -⟩ := findAcceptPrepared_yields.of_ok hfind
        exact after_setAcceptPrepared hacc.2.1 (fun hbad => herr _ (if_pos hbad))
          fun hok => hmove _ (if_neg hok)

theorem after_setConfirmPrepared {newC newH : SCPBallot}
    (hphase : s.mBallotProtocol.mPhase ≠ .externalize)
    (hvote : newC.counter ≠ 0 → s.mBallotProtocol.mCommit = none)
    (hremember : s.mBallotProtocol.confirmWorks newC newH = false →
      Q false (s.withBallot (s.mBallotProtocol.withOverride newH.value)))
    (hmove : s.mBallotProtocol.confirmWorks newC newH = true →
      ∀ t, Moved s (.confirmPrepared newC newH) t →
      After (emitCurrentStateStatement scp advance) t (fun _ u => Q true u) E) :
    After (setConfirmPrepared scp advance newC newH) s Q E := by
  have hvote' : s.mBallotProtocol.votesCommit newC newH = true →
      s.mBallotProtocol.mCommit = none := by
    intro h
    simp only [votesCommit, Bool.and_eq_true, decide_eq_true_eq] at h
    exact hvote h.2
  rw [setConfirmPrepared, after_bind, after_ballotProtocol]
  rw [after_bind, after_dbgAssert_of hvote', after_bind, after_modifyBallot, after_bind,
    after_when_notify, after_bind, after_updateCurrentIfNeeded]
  · change After (if s.mBallotProtocol.confirmWorks newC newH = true then _ else _) _ Q E
    cases hworks : s.mBallotProtocol.confirmWorks newC newH with
    | true =>
      rw [if_pos rfl, after_bind]
      refine hmove hworks _ (Moved.logAll ?_ (raiseEvents_isAudit _ _))
      refine ⟨_, ?_, rfl⟩
      split_ifs <;> simp [Event.isAudit]
    | false =>
      have hQ := hremember hworks
      simp only [confirmWorks, Bool.or_eq_false_iff, decide_eq_false_iff_not]
        at hworks
      obtain ⟨⟨hb, hraise⟩, hvote⟩ := hworks
      have hbp : (s.mBallotProtocol.withConfirmed newC newH).raisedTo newH =
          s.mBallotProtocol.withOverride newH.value := by
        rw [raisedTo, if_neg (by exact hb)]
        simp [withConfirmed, withOverride, hraise, hvote]
      have hev : (s.mBallotProtocol.withConfirmed newC newH).raiseEvents newH = [] := if_neg hb
      simpa [hraise, hvote, hbp, hev, Slot.logAll_withBallot] using hQ
  · exact hphase

theorem after_attemptConfirmPrepared
    (hstay : confirmablePrepared scp s.mBallotProtocol hint = none → Q false s)
    (hremember : ∀ newC newH,
      confirmablePrepared scp s.mBallotProtocol hint = some (newC, newH) →
      s.mBallotProtocol.confirmWorks newC newH = false →
      Q false (s.withBallot (s.mBallotProtocol.withOverride newH.value)))
    (hmove : ∀ newC newH, confirmablePrepared scp s.mBallotProtocol hint = some (newC, newH) →
      s.mBallotProtocol.confirmWorks newC newH = true →
      ∀ t, Moved s (.confirmPrepared newC newH) t →
      After (emitCurrentStateStatement scp advance) t (fun _ u => Q true u) E) :
    After (attemptConfirmPrepared scp advance hint) s Q E := by
  unfold confirmablePrepared at hstay hremember hmove
  rw [attemptConfirmPrepared, after_bind, after_ballotProtocol]
  by_cases hphase : s.mBallotProtocol.mPhase ≠ .prepare ∨ s.mBallotProtocol.mPrepared = none
  · rw [if_pos hphase]
    exact hstay (if_pos hphase)
  · rw [if_neg hphase]
    simp only [if_neg hphase] at hstay hremember hmove
    cases hfind : findNewH scp s.mBallotProtocol
        (getPrepareCandidates s.mBallotProtocol.mLatestEnvelopes hint).descending with
    | none => exact hstay (by rw [hfind]; rfl)
    | some found =>
      obtain ⟨newH, rest⟩ := found
      rw [hfind] at hremember hmove
      refine after_setConfirmPrepared ?_ ?_ (hremember _ _ rfl) (hmove _ _ rfl)
      · intro h
        simp [h] at hphase
      · intro hc
        rcases chosenC_spec scp s.mBallotProtocol newH rest with hd | ⟨hvote, -⟩
        · exact absurd (congrArg SCPBallot.counter hd) hc
        · simp only [canVoteCommit, Bool.and_eq_true, Option.isNone_iff_eq_none] at hvote
          exact hvote.1.1

theorem after_setAcceptCommit {c : SCPBallot} (hphase : s.mBallotProtocol.mPhase ≠ .externalize)
    (hnew : s.mBallotProtocol.mPhase = .prepare ∨ s.mBallotProtocol.mHighBallot ≠ some h)
    (hmove : ∀ t, Moved s (.acceptCommit c h) t →
      After (emitCurrentStateStatement scp advance) t (fun _ u => Q true u) E) :
    After (setAcceptCommit scp advance c h) s Q E := by
  have hwork : s.mBallotProtocol.mHighBallot ≠ some h ∨ s.mBallotProtocol.mCommit ≠ some c ∨
      s.mBallotProtocol.mPhase = .prepare := by tauto
  rw [setAcceptCommit, after_bind, after_ballotProtocol, after_bind, after_modifyBallot,
    after_bind, if_pos hwork]
  have hmoved : ∀ (bp : BallotProtocol) (evs : List Event),
      s.mBallotProtocol.acceptCommit c h = bp.raisedTo h → bp.mPhase ≠ .externalize →
      (∀ e ∈ evs, e.isAudit = false) →
      After (do
        let _ ← updateCurrentIfNeeded h
        notify (.acceptedCommit h)
        emitCurrentStateStatement scp advance
        return true) ((s.withBallot bp).logAll evs) Q E := by
    intro bp evs hbp hphase hevs
    rw [after_bind, after_updateCurrentIfNeeded (by exact hphase), after_bind, after_notify,
      after_bind]
    have hbase : Moved s (.acceptCommit c h) ((s.withBallot (bp.raisedTo h)).logAll evs) :=
      ⟨evs, hevs, by rw [Move.apply, hbp]⟩
    have hevents : ∀ e ∈ [Event.acceptedCommit h], e.isAudit = false := by simp [Event.isAudit]
    exact hmove _ ((hbase.logAll (raiseEvents_isAudit bp h)).logAll hevents)
  by_cases hp : s.mBallotProtocol.mPhase = .prepare
  · rw [after_when_of hp, after_bind, after_modifyBallot, after_bind,
      after_when_bumpToBallot (by simp [withPhase]), after_modifyBallot]
    refine hmoved _ _ (by rw [acceptCommit, if_pos hp]; rfl) ?_ ?_
    · split_ifs <;> simp [withPhase]
    · split_ifs
      · exact startEvents_isAudit _ _
      · simp
  · rw [after_when_of_not hp]
    exact hmoved (s.mBallotProtocol.withAccepted c h) []
      (by rw [acceptCommit, if_neg hp]) hphase (by simp)

theorem after_attemptAcceptCommit
    (herr : ∀ e, attemptedAcceptCommit scp s.mBallotProtocol hint = .error e → E e s)
    (hstay : attemptedAcceptCommit scp s.mBallotProtocol hint = .ok none → Q false s)
    (hmove : ∀ m, attemptedAcceptCommit scp s.mBallotProtocol hint = .ok (some m) →
      ∀ t, Moved s m t → After (emitCurrentStateStatement scp advance) t (fun _ u => Q true u) E) :
    After (attemptAcceptCommit scp advance hint) s Q E := by
  unfold attemptedAcceptCommit at herr hstay hmove
  rw [attemptAcceptCommit, after_bind, after_ballotProtocol]
  cases hhint : acceptCommitHint hint with
  | none =>
    rw [hhint] at hstay
    exact hstay rfl
  | some ballot =>
    rw [hhint] at herr hstay hmove
    simp only at herr hstay hmove ⊢
    cases hphase : s.mBallotProtocol.mPhase with
    | externalize =>
      exact hstay (by rw [hphase])
    | prepare =>
      rw [if_neg (by simp), if_neg (by simp)]
      simp only [hphase] at hstay hmove
      split_ifs with hcand
      · exact after_setAcceptCommit (by simp [hphase]) (.inl hphase)
          (hmove _ (by rw [if_pos hcand]))
      · exact hstay (by rw [if_neg hcand])
    | confirm =>
      rw [if_neg (by simp), if_pos rfl, after_bind]
      cases hh : s.mBallotProtocol.mHighBallot with
      | none => exact herr _ (by simp only [hphase, hh])
      | some h =>
        rw [after_deref_some]
        simp only [hphase, hh] at hstay hmove
        split_ifs with hcand
        · refine after_setAcceptCommit (by simp [hphase]) (.inr ?_) (hmove _ (by rw [if_pos hcand]))
          intro heq
          rw [hh] at heq
          have hlt := hcand.2.2
          rw [Option.some.inj heq] at hlt
          exact lt_irrefl _ hlt
        · exact hstay (by rw [if_neg hcand])

/-- The slot after the last lines of `setConfirmCommit`. -/
def Slot.externalized (s : Slot) (v : Value) : Slot :=
  { s with mNominationProtocol :=
    { s.mNominationProtocol with mNominationStarted := false } }.log (.valueExternalized v)

theorem after_setConfirmCommit {c : SCPBallot} (hphase : s.mBallotProtocol.mPhase ≠ .externalize)
    (hmove : ∀ t, Moved s (.confirmCommit c h) t →
      After (emitCurrentStateStatement scp advance) t (fun _ u =>
        ∃ c', u.mBallotProtocol.mCommit = some c' ∧ Q true (u.externalized c'.value)) E) :
    After (setConfirmCommit scp advance c h) s Q E := by
  rw [setConfirmCommit, after_bind, after_modifyBallot, after_bind,
    after_updateCurrentIfNeeded (by exact hphase), after_bind, after_modifyBallot, after_bind]
  refine (hmove _ ⟨_, raiseEvents_isAudit _ _, rfl⟩).imp ?_
  rintro - u ⟨c', hc', hQ⟩
  rw [after_bind, stopNomination, after_modify, after_bind, after_ballotProtocol, after_bind]
  rwa [hc', after_deref_some, after_bind, after_notify]

theorem after_attemptConfirmCommit
    (hstay : attemptedConfirmCommit scp s.mBallotProtocol hint = none → Q false s)
    (hmove : ∀ m, attemptedConfirmCommit scp s.mBallotProtocol hint = some m →
      ∀ t, Moved s m t → After (emitCurrentStateStatement scp advance) t (fun _ u =>
        ∃ c', u.mBallotProtocol.mCommit = some c' ∧ Q true (u.externalized c'.value)) E) :
    After (attemptConfirmCommit scp advance hint) s Q E := by
  rw [attemptConfirmCommit, after_bind, after_ballotProtocol]
  unfold attemptedConfirmCommit at hstay hmove
  split
  · rename_i _ h c ballot hphase hh hc hhint
    simp only [hphase, hh, hc, hhint] at hstay hmove
    simp only
    split_ifs with hcand
    · exact after_setConfirmCommit (by simp [hphase]) (hmove _ (if_pos hcand))
    · exact hstay (if_neg hcand)
  · rename_i hnot
    refine hstay ?_
    split
    · rename_i _ h c ballot hphase hh hc hhint
      exact absurd hhint (hnot h c ballot hphase hh hc)
    · rfl

/-- The ballot `bumpState` moves to. -/
def BallotProtocol.bumpTarget (value : Value) (n : Uint32) : SCPBallot :=
  ⟨n, bp.mValueOverride.getD value⟩

/-- Is a bump to the ballot neither refused nor idle. -/
def BallotProtocol.CanBumpTo (ballot : SCPBallot) : Prop :=
  bp.mPhase ≠ .externalize ∧ (∀ b ∈ bp.mCurrentBallot, b < ballot) ∧
  ∀ b ∈ bp.mCurrentBallot, ∀ c ∈ bp.mCommit, c.value = ballot.value

theorem after_updateCurrentValue (hback : ∀ b ∈ s.mBallotProtocol.mCurrentBallot, ballot < b →
      E (.assertion .updateCurrentValue) s) (hstay : Q false s)
    (hsame : ballot ∈ s.mBallotProtocol.mCurrentBallot →
      After checkInvariants s (fun _ t => Q false t) E)
    (hmove : s.mBallotProtocol.CanBumpTo ballot → ∀ t, Moved s (.bump ballot) t →
      After checkInvariants t (fun _ u => Q true u) E) :
    After (updateCurrentValue ballot) s Q E := by
  rw [updateCurrentValue, after_bind, after_ballotProtocol]
  by_cases hext : s.mBallotProtocol.mPhase = .externalize
  · rwa [if_pos ((SCPPhase.eq_externalize_iff _).mpr hext)]
  rw [if_neg (mt (SCPPhase.eq_externalize_iff _).mp hext)]
  have hbump : (∀ b ∈ s.mBallotProtocol.mCurrentBallot, b < ballot) →
      (∀ b ∈ s.mBallotProtocol.mCurrentBallot, ∀ c ∈ s.mBallotProtocol.mCommit,
        c.value = ballot.value) →
      After (do bumpToBallot ballot true; checkInvariants; return true) s Q E := by
    intro hlt hc
    rw [after_bind, after_bumpToBallot hext fun _ b hb => (hlt b hb).le, after_bind]
    exact hmove ⟨hext, hlt, hc⟩ _ ⟨_, startEvents_isAudit _ _, rfl⟩
  cases hb : s.mBallotProtocol.mCurrentBallot with
  | none => exact hbump (by simp [hb]) (by simp [hb])
  | some b =>
    simp only
    rw [after_bind, after_dbgAssert]
    refine ⟨fun hle => ?_, fun hgt => hback b hb (by simpa using hgt)⟩
    split_ifs with hc
    · exact hstay
    · have hc' : ∀ c ∈ s.mBallotProtocol.mCommit, c.value = ballot.value := by
        simpa [Option.any_eq_false] using hc
      cases hcmp : compareBallots b ballot with
      | lt =>
        refine hbump ?_ fun _ _ => hc'
        intro b' hb'
        rw [hb] at hb'
        cases hb'
        exact compareBallots_eq_lt.mp hcmp
      | gt => exact absurd hcmp hle
      | eq =>
        simp only
        rw [after_bind]
        exact hsame (by rw [hb, compareBallots_eq_eq.mp hcmp]; rfl)

theorem after_bumpStateTo {value : Value} {n : Uint32}
    (hback : ∀ b ∈ s.mBallotProtocol.mCurrentBallot,
      s.mBallotProtocol.bumpTarget value n < b → E (.assertion .updateCurrentValue) s)
    (hstay : Q false s)
    (hsame : s.mBallotProtocol.bumpTarget value n ∈ s.mBallotProtocol.mCurrentBallot →
      After checkInvariants s (fun _ t => Q false t) E)
    (hmove : s.mBallotProtocol.CanBumpTo (s.mBallotProtocol.bumpTarget value n) →
      ∀ t, Moved s (.bump (s.mBallotProtocol.bumpTarget value n)) t →
      After checkInvariants t (fun _ u => After (emitCurrentStateStatement scp advance) u
        (fun _ v => After (checkHeardFromQuorum scp) v (fun _ w => Q true w) E) E) E) :
    After (bumpStateTo scp advance value n) s Q E := by
  rw [bumpStateTo, after_bind, after_ballotProtocol]
  by_cases hext : s.mBallotProtocol.mPhase = .externalize
  · rwa [if_pos ((SCPPhase.eq_externalize_iff _).mpr hext)]
  rw [if_neg (mt (SCPPhase.eq_externalize_iff _).mp hext), after_bind]
  refine after_updateCurrentValue hback ?_ ?_ ?_
  · rwa [after_bind, after_when_of_not (by simp)]
  · intro heq
    refine (hsame heq).imp fun _ t hQ => ?_
    rwa [after_bind, after_when_of_not (by simp)]
  · intro hcan t ht
    refine (hmove hcan t ht).imp fun _ u hu => ?_
    rwa [after_bind, after_when_of rfl, after_bind]

/-- The counter found by `findBumpCounter` is above the local one. -/
theorem lt_of_findBumpCounter {latest : EnvelopeMap BallotPledges} {localCounter n : Uint32}
    (h : findBumpCounter scp latest localCounter = some n) : localCounter < n := by
  have hmem := List.mem_of_find?_eq_some h
  rw [← mem_def, mem_insertAll] at hmem
  rcases hmem with hmem | hmem
  · simpa using (List.mem_filter.mp hmem).2
  · simp at hmem

theorem after_attemptBump (hstay : Q false s)
    (hmove : ∀ value n, s.mBallotProtocol.CanBumpTo (s.mBallotProtocol.bumpTarget value n) →
      (∀ b ∈ s.mBallotProtocol.mCurrentBallot, b.counter < n) →
      s.abandonValue = some value → value ≠ [] → n ≠ 0 →
      ∀ t, Moved s (.bump (s.mBallotProtocol.bumpTarget value n)) t →
      After checkInvariants t (fun _ u => After (emitCurrentStateStatement scp advance) u
        (fun _ v => After (checkHeardFromQuorum scp) v (fun _ w => Q true w) E) E) E) :
    After (attemptBump scp advance) s Q E := by
  rw [attemptBump, after_bind, after_ballotProtocol]
  simp only
  split_ifs with hahead
  · cases hn : findBumpCounter scp s.mBallotProtocol.mLatestEnvelopes
        ((s.mBallotProtocol.mCurrentBallot.map SCPBallot.counter).getD 0) with
    | none => exact hstay
    | some n =>
      have hlt := lt_of_findBumpCounter hn
      have hn0 : n ≠ 0 := by
        rintro rfl
        exact absurd hlt (Fin.not_lt_zero _)
      have hbelow : ∀ b ∈ s.mBallotProtocol.mCurrentBallot, b.counter < n := by
        intro b hb
        rw [Option.mem_def] at hb
        simpa only [hb, Option.map_some, Option.getD_some] using hlt
      change After (abandonBallotTo scp advance n) s Q E
      rw [abandonBallotTo, after_bind, after_get]
      split
      · rename_i x v hv
        rw [if_neg hn0]
        refine after_bumpStateTo ?_ hstay ?_ fun hcan t ht =>
          hmove _ _ hcan hbelow hv (by simp) hn0 t ht
        · intro b hb hback
          exact absurd (SCPBallot.counter_le hback.le) (not_le.mpr (hbelow b hb))
        · intro hb
          exact absurd (hbelow _ hb) (lt_irrefl _)
      · exact hstay
  · exact hstay

end

end DigitalBits.Scp
