import DigitalBits.Scp.Types

/-!
# The close-time filter for SCP envelopes

Before an envelope is stored and flooded, the close times of its values are
compared with the last one that is known for its slot. The rule for slots of the
future is not guarded by the slot, so it also lets envelopes of other slots in.
-/
namespace DigitalBits.Herder
open Scp (Value SCPNomination BallotPledges Uint32 Uint64)

/-- The pledges of a statement of any type. -/
inductive SCPPledges where
  | nominate (n : SCPNomination)
  | ballot (pl : BallotPledges)

/-- `mConsensusIndex`, and the close time of `mConsensusValue`. -/
structure ConsensusData where
  mConsensusIndex : Uint64
  closeTime : ℕ

def maxTimeSlipSeconds : ℕ := 60

/-- What the filter reads of the node. The times are in seconds; those of the clock are far from
the end of their type. -/
structure HerderView where
  lclLedgerSeq : Uint32
  lclCloseTime : ℕ
  trackingSCP : Option ConsensusData
  lastTrackingSCP : Option ConsensusData
  timeNow : ℕ
  maximumLedgerCloseTimeDrift : ℕ
  /-- `toDigitalBitsValue`: the close time of a value that can be parsed. -/
  toDigitalBitsValue : Value → Option ℕ

namespace HerderView

variable (view : HerderView)

/-- The index is cast to 32 bits. -/
def adjustLastCloseTime (slotIndex : Uint64) (cd : Option ConsensusData) (last : ℕ × ℕ) : ℕ × ℕ :=
  match cd with
  | none => last
  | some cd =>
    if cd.mConsensusIndex ≤ slotIndex ∧ last.1 < cd.mConsensusIndex.val then
      (cd.mConsensusIndex.val % 2 ^ 32, cd.closeTime)
    else last

/-- `lastCloseIndex` and `lastCloseTime`. -/
def lastClose (slotIndex : Uint64) : ℕ × ℕ :=
  adjustLastCloseTime slotIndex view.lastTrackingSCP
    (adjustLastCloseTime slotIndex view.trackingSCP (view.lclLedgerSeq.val, view.lclCloseTime))

/-- `HerderSCPDriver::checkCloseTime`. -/
def driverCheckCloseTime (lastCloseTime closeTime : ℕ) : Bool :=
  if closeTime ≤ lastCloseTime then false
  else if view.timeNow + maxTimeSlipSeconds < closeTime then false
  else true

def ctCutoff (enforceRecent : Bool) : ℕ :=
  if enforceRecent ∧ view.maximumLedgerCloseTimeDrift ≤ view.timeNow then
    view.timeNow - view.maximumLedgerCloseTimeDrift
  else 0

def checkCTHelper (slotIndex : Uint64) (ctCutoff : ℕ) (values : List Value) : Bool :=
  let (lastCloseIndex, lastCloseTime) := view.lastClose slotIndex
  values.any fun e =>
    match view.toDigitalBitsValue e with
    | none => false
    | some closeTime => decide (ctCutoff ≤ closeTime) &&
      (decide (lastCloseIndex = slotIndex.val ∧ lastCloseTime = closeTime) ||
        decide (slotIndex.val < lastCloseIndex ∧ closeTime < lastCloseTime) ||
        view.driverCheckCloseTime lastCloseTime closeTime)

def checkCloseTime (slotIndex : Uint64) (pledges : SCPPledges) (enforceRecent : Bool) : Bool :=
  let check := view.checkCTHelper slotIndex (view.ctCutoff enforceRecent)
  match pledges with
  | .nominate n => check n.accepted || check n.votes
  | .ballot (.prepare p) =>
    let b := check [p.ballot.value]
    let b := b || p.prepared.any fun prepared => check [prepared.value]
    b || p.preparedPrime.any fun prime => check [prime.value]
  | .ballot (.confirm c) => check [c.ballot.value]
  | .ballot (.externalize e) => check [e.commit.value]

end HerderView

/-! ## What the filter is for -/

/-- The values that the filter inspects. -/
def SCPPledges.values : SCPPledges → List Value
  | .nominate n => n.accepted ++ n.votes
  | .ballot (.prepare p) =>
    p.ballot.value :: (p.prepared.toList ++ p.preparedPrime.toList).map (·.value)
  | .ballot (.confirm c) => [c.ballot.value]
  | .ballot (.externalize e) => [e.commit.value]

namespace HerderView

variable {view : HerderView} {slotIndex : Uint64} {pledges : SCPPledges}

/-- The last closed ledger, and the consensus data after it that is not above the slot. -/
inductive Known (view : HerderView) (slotIndex : Uint64) : ℕ × ℕ → Prop
  | lcl : Known view slotIndex (view.lclLedgerSeq.val, view.lclCloseTime)
  | consensus {cd : ConsensusData} (hcd : cd ∈ view.trackingSCP ∨ cd ∈ view.lastTrackingSCP)
      (hslot : cd.mConsensusIndex ≤ slotIndex)
      (hlcl : view.lclLedgerSeq.val < cd.mConsensusIndex.val) :
      Known view slotIndex (cd.mConsensusIndex.val, cd.closeTime)

/-- A close time within the slip, for the slots after the last close. -/
def Future (view : HerderView) (slotIndex : Uint64) (closeTime : ℕ) : Prop :=
  (view.lastClose slotIndex).2 < closeTime ∧ closeTime ≤ view.timeNow + maxTimeSlipSeconds

/-- A close time that is right for the slot. -/
def RightTime (view : HerderView) (slotIndex : Uint64) (closeTime : ℕ) : Prop :=
  let last := view.lastClose slotIndex
  (slotIndex.val = last.1 → closeTime = last.2) ∧ (slotIndex.val < last.1 → closeTime < last.2) ∧
    (last.1 < slotIndex.val → view.Future slotIndex closeTime)

/-- Some inspected value has a close time with the property. -/
def Inspects (view : HerderView) (pledges : SCPPledges) (p : ℕ → Prop) : Prop :=
  ∃ v ∈ pledges.values, ∃ closeTime ∈ view.toDigitalBitsValue v, p closeTime

/-- The indices of the consensus data are ledger sequence numbers. -/
def IndicesFit (view : HerderView) : Prop :=
  ∀ cd : ConsensusData, cd ∈ view.trackingSCP ∨ cd ∈ view.lastTrackingSCP →
    cd.mConsensusIndex.val < 2 ^ 32

/-! ## The last close -/

theorem adjustLastCloseTime_cases (slotIndex : Uint64) {cd : Option ConsensusData} (last : ℕ × ℕ)
    (hfit : ∀ c ∈ cd, c.mConsensusIndex.val < 2 ^ 32) :
    (adjustLastCloseTime slotIndex cd last = last ∧
      ∀ c ∈ cd, c.mConsensusIndex ≤ slotIndex → c.mConsensusIndex.val ≤ last.1) ∨
    ∃ c ∈ cd, c.mConsensusIndex ≤ slotIndex ∧ last.1 < c.mConsensusIndex.val ∧
      adjustLastCloseTime slotIndex cd last = (c.mConsensusIndex.val, c.closeTime) := by
  cases cd with
  | none => exact .inl ⟨rfl, by simp⟩
  | some c =>
    rw [adjustLastCloseTime, Nat.mod_eq_of_lt (hfit c rfl)]
    split_ifs with h
    · exact .inr ⟨c, rfl, h.1, h.2, rfl⟩
    · refine .inl ⟨rfl, fun c' hc hslot => ?_⟩
      obtain rfl : c = c' := by simpa using hc
      exact Nat.le_of_not_lt fun hlt => h ⟨hslot, hlt⟩

theorem adjustLastCloseTime_known {cd : Option ConsensusData} {last : ℕ × ℕ}
    (hfit : ∀ c ∈ cd, c.mConsensusIndex.val < 2 ^ 32)
    (hcd : ∀ c ∈ cd, c ∈ view.trackingSCP ∨ c ∈ view.lastTrackingSCP)
    (hlast : view.Known slotIndex last) (hlcl : view.lclLedgerSeq.val ≤ last.1) :
    view.Known slotIndex (adjustLastCloseTime slotIndex cd last) ∧
      last.1 ≤ (adjustLastCloseTime slotIndex cd last).1 ∧
      ∀ c ∈ cd, c.mConsensusIndex ≤ slotIndex →
        c.mConsensusIndex.val ≤ (adjustLastCloseTime slotIndex cd last).1 := by
  obtain ⟨heq, hle⟩ | ⟨c, hc, hslot, hlt, heq⟩ := adjustLastCloseTime_cases slotIndex last hfit
  · rw [heq]
    exact ⟨hlast, le_rfl, hle⟩
  · rw [heq]
    refine ⟨.consensus (hcd c hc) hslot (by omega), hlt.le, fun c' hc' _ => ?_⟩
    rw [Option.mem_unique hc hc']

/-- The filter compares with the latest close that it may use. -/
theorem lastClose_latest (hfit : view.IndicesFit) :
    view.Known slotIndex (view.lastClose slotIndex) ∧
      ∀ close, view.Known slotIndex close → close.1 ≤ (view.lastClose slotIndex).1 := by
  have hfirst : view.Known slotIndex (view.lclLedgerSeq.val, view.lclCloseTime) := .lcl
  obtain ⟨hknown, hlcl, htracking⟩ := adjustLastCloseTime_known
    (fun c hc => hfit c (.inl hc)) (fun c hc => .inl hc) hfirst le_rfl
  obtain ⟨hlast, hle, hlastTracking⟩ := adjustLastCloseTime_known
    (fun c hc => hfit c (.inr hc)) (fun c hc => .inr hc) hknown hlcl
  refine ⟨hlast, fun close hclose => ?_⟩
  cases hclose with
  | lcl => exact hlcl.trans hle
  | consensus hcd hslot =>
    obtain hcd | hcd := hcd
    · exact (htracking _ hcd hslot).trans hle
    · exact hlastTracking _ hcd hslot

/-! ## What passes the filter -/

theorem driverCheckCloseTime_iff {closeTime : ℕ} :
    view.driverCheckCloseTime (view.lastClose slotIndex).2 closeTime = true ↔
      view.Future slotIndex closeTime := by
  rw [driverCheckCloseTime, Future]
  split_ifs <;> simp <;> omega

theorem checkCTHelper_iff {values : List Value} :
    view.checkCTHelper slotIndex 0 values = true ↔ ∃ v ∈ values,
      ∃ closeTime ∈ view.toDigitalBitsValue v,
        view.RightTime slotIndex closeTime ∨ view.Future slotIndex closeTime := by
  rw [checkCTHelper, List.any_eq_true]
  refine exists_congr fun v => and_congr_right fun _ => ?_
  cases view.toDigitalBitsValue v with
  | none => simp
  | some closeTime =>
    simp only [Bool.and_eq_true, Bool.or_eq_true, decide_eq_true_eq, driverCheckCloseTime_iff,
      RightTime, Future, Option.mem_some_iff, exists_eq_left', Nat.zero_le, true_and]
    omega

/-- The rule for the future applies to every slot. -/
theorem checkCloseTime_iff :
    view.checkCloseTime slotIndex pledges false = true ↔
      view.Inspects pledges fun closeTime =>
        view.RightTime slotIndex closeTime ∨ view.Future slotIndex closeTime := by
  have hcutoff : view.ctCutoff false = 0 := by simp [ctCutoff]
  unfold checkCloseTime Inspects
  rw [hcutoff]
  rcases pledges with n | p | c | e
  · simp [checkCTHelper_iff, SCPPledges.values, or_and_right, exists_or]
  · cases hprepared : p.prepared <;> cases hprime : p.preparedPrime <;>
      simp [checkCTHelper_iff, SCPPledges.values, hprepared, hprime, or_assoc]
  · simp [checkCTHelper_iff, SCPPledges.values]
  · simp [checkCTHelper_iff, SCPPledges.values]

/-- The filter is exact for slots after the last close. For the others it must not see a close
time of the future, unless it also sees a right one. -/
theorem checkCloseTime_exact_iff (hfit : view.IndicesFit) :
    (view.Known slotIndex (view.lastClose slotIndex) ∧
      ∀ close, view.Known slotIndex close → close.1 ≤ (view.lastClose slotIndex).1) ∧
    ((view.checkCloseTime slotIndex pledges false = true ↔
        view.Inspects pledges (view.RightTime slotIndex)) ↔
      ((view.lastClose slotIndex).1 < slotIndex.val ∨
        view.Inspects pledges (view.RightTime slotIndex) ∨
        ¬ view.Inspects pledges (view.Future slotIndex))) := by
  refine ⟨lastClose_latest hfit, ?_⟩
  have hsplit : view.checkCloseTime slotIndex pledges false = true ↔
      view.Inspects pledges (view.RightTime slotIndex) ∨
        view.Inspects pledges (view.Future slotIndex) := by
    rw [checkCloseTime_iff]
    simp only [Inspects, and_or_left, exists_or]
  have hfuture (hlt : (view.lastClose slotIndex).1 < slotIndex.val)
      (h : view.Inspects pledges (view.Future slotIndex)) :
      view.Inspects pledges (view.RightTime slotIndex) := by
    obtain ⟨v, hv, closeTime, hparse, htime⟩ := h
    exact ⟨v, hv, closeTime, hparse, by omega, by omega, fun _ => htime⟩
  rw [hsplit]
  tauto

end HerderView

/-- A node that closed ledger 5 at second 100. -/
def closedFive : HerderView where
  lclLedgerSeq := 5
  lclCloseTime := 100
  trackingSCP := none
  lastTrackingSCP := none
  timeNow := 130
  maximumLedgerCloseTimeDrift := 50
  toDigitalBitsValue v := v.head?.map (·.val)

def externalizeAt (closeTime : Fin 256) : SCPPledges :=
  .ballot (.externalize ⟨⟨1, [closeTime]⟩, 1, 0⟩)

/-- It tracks ledger 6, which closed at second 110. -/
def trackingSix : HerderView := { closedFive with trackingSCP := some ⟨6, 110⟩ }

theorem trackingSix_fits : trackingSix.IndicesFit := by
  rintro cd (h | h)
  · obtain rfl := Option.some.inj h
    decide
  · exact absurd h (Option.not_mem_none cd)

theorem HerderView.checkCloseTime_exact_seven :
    trackingSix.lastClose 7 = (6, 110) ∧
    (trackingSix.checkCloseTime 7 (externalizeAt 120) false = true ↔
      trackingSix.Inspects (externalizeAt 120) (trackingSix.RightTime 7)) :=
  ⟨by decide, (checkCloseTime_exact_iff trackingSix_fits).2.mpr (.inl (by decide))⟩

/-- Ledger 5 closed at second 100, and still an envelope that closes it at second 120 passes. -/
theorem HerderView.checkCloseTime_other_close :
    closedFive.checkCloseTime 5 (externalizeAt 120) false = true ∧
      ¬ closedFive.Inspects (externalizeAt 120) (closedFive.RightTime 5) := by
  refine ⟨by decide, ?_⟩
  rintro ⟨v, hv, closeTime, hparse, hright⟩
  obtain rfl : v = [120] := by simpa [externalizeAt, SCPPledges.values] using hv
  obtain rfl : 120 = closeTime := by simpa [closedFive] using hparse
  exact absurd (hright.1 (by decide)) (by decide)

end DigitalBits.Herder
