import DigitalBits.Transactions.Exchange

/-!
# Claim predicates

How a claimable balance stores and reads its predicates. They are stored with
absolute times, cut off at the largest time there is. A claimant can rely on the
predicate that was given.
-/
namespace DigitalBits.Ledger

def relativeToAbsolute (closeTime : TimePoint) (relative : ℤ) : ℤ :=
  if int64Max - relative < closeTime then int64Max else closeTime + relative

namespace ClaimPredicate

/-- `updatePredicatesForApply`: a relative time becomes an absolute one. The program reads
exactly two members of a conjunction or disjunction and the member of a negation. -/
def updateForApply (closeTime : TimePoint) : ClaimPredicate → Fallible ClaimPredicate
  | unconditional => pure unconditional
  | and (p :: q :: rest) => do
    let p ← p.updateForApply closeTime
    let q ← q.updateForApply closeTime
    return and (p :: q :: rest)
  | and _ => throw (.exception .outOfRange)
  | or (p :: q :: rest) => do
    let p ← p.updateForApply closeTime
    let q ← q.updateForApply closeTime
    return or (p :: q :: rest)
  | or _ => throw (.exception .outOfRange)
  | not (some p) => do return not (some (← p.updateForApply closeTime))
  | not none => throw .assertion
  | beforeAbsoluteTime absBefore => pure (beforeAbsoluteTime absBefore)
  | beforeRelativeTime relBefore =>
    pure (beforeAbsoluteTime (relativeToAbsolute closeTime relBefore))

/-- `validatePredicate` of a predicate in an operation. -/
def isValid : ClaimPredicate → ℕ → Bool
  | unconditional, depth => depth ≤ 4
  | and [p, q], depth => depth ≤ 4 && p.isValid (depth + 1) && q.isValid (depth + 1)
  | and _, _ => false
  | or [p, q], depth => depth ≤ 4 && p.isValid (depth + 1) && q.isValid (depth + 1)
  | or _, _ => false
  | not (some p), depth => depth ≤ 4 && p.isValid (depth + 1)
  | not none, _ => false
  | beforeAbsoluteTime absBefore, depth => depth ≤ 4 && 0 ≤ absBefore
  | beforeRelativeTime relBefore, depth => depth ≤ 4 && 0 ≤ relBefore

/-- `validatePredicate` of a predicate in a claimable balance. -/
def holds (closeTime : TimePoint) : ClaimPredicate → Fallible Bool
  | unconditional => pure true
  | and (p :: q :: _) => do
    if ← p.holds closeTime then q.holds closeTime else return false
  | and _ => throw (.exception .outOfRange)
  | or (p :: q :: _) => do
    if ← p.holds closeTime then return true else q.holds closeTime
  | or _ => throw (.exception .outOfRange)
  | not (some p) => do return !(← p.holds closeTime)
  | not none => throw .assertion
  | beforeAbsoluteTime absBefore => pure (decide ((closeTime : ℤ) < absBefore % 2 ^ 64))
  | beforeRelativeTime _ => throw (.exception .invalidClaimPredicate)

/-! ## The meaning of a predicate -/

/-- What a predicate given at time `t₀` says at time `t`. -/
def meaning (t₀ t : ℤ) : ClaimPredicate → Bool
  | and (p :: q :: _) => p.meaning t₀ t && q.meaning t₀ t
  | or (p :: q :: _) => p.meaning t₀ t || q.meaning t₀ t
  | not (some p) => !p.meaning t₀ t
  | beforeAbsoluteTime absBefore => t < absBefore
  | beforeRelativeTime relBefore => t < t₀ + relBefore
  | _ => true

/-- Its times are of 64 bits. -/
def Fits : ClaimPredicate → Prop
  | and (p :: q :: _) => p.Fits ∧ q.Fits
  | or (p :: q :: _) => p.Fits ∧ q.Fits
  | not (some p) => p.Fits
  | beforeAbsoluteTime absBefore => absBefore ≤ int64Max
  | beforeRelativeTime relBefore => relBefore ≤ int64Max
  | _ => True

variable {p : ClaimPredicate} {depth : ℕ} {t₀ t : TimePoint}

/-- The cut-off time is after every time at which the predicate is read. -/
theorem lt_relativeToAbsolute_iff {relative : ℤ} (ht : (t : ℤ) < int64Max) :
    (t : ℤ) < relativeToAbsolute t₀ relative ↔ (t : ℤ) < t₀ + relative := by
  rw [relativeToAbsolute]
  split_ifs
  · omega
  · rfl

theorem holds_beforeAbsoluteTime {absBefore : ℤ} (h : 0 ≤ absBefore ∧ absBefore ≤ int64Max) :
    (beforeAbsoluteTime absBefore).holds t = .ok (decide ((t : ℤ) < absBefore)) := by
  rw [holds, Int.emod_eq_of_lt h.1 (by unfold int64Max at h; omega)]
  rfl

/-- A predicate that was accepted when the balance was created is stored without an exception, and
read at any later time it has its meaning. -/
theorem holds_updateForApply (ht : (t : ℤ) < int64Max) (hvalid : p.isValid depth = true)
    (hfits : p.Fits) : ∃ q, p.updateForApply t₀ = .ok q ∧ q.holds t = .ok (p.meaning t₀ t) := by
  fun_induction isValid p depth with
  | case1 depth => exact ⟨_, rfl, rfl⟩
  | case3 | case5 | case7 => cases hvalid
  | case2 p q depth ihp ihq =>
    simp only [Bool.and_eq_true] at hvalid
    obtain ⟨p', hp, hp'⟩ := ihp hvalid.1.2 hfits.1
    obtain ⟨q', hq, hq'⟩ := ihq hvalid.2 hfits.2
    refine ⟨and [p', q'], by rw [updateForApply, hp, hq]; rfl, ?_⟩
    rw [holds, hp', meaning]
    cases p.meaning t₀ t
    · rfl
    · exact hq'
  | case4 p q depth ihp ihq =>
    simp only [Bool.and_eq_true] at hvalid
    obtain ⟨p', hp, hp'⟩ := ihp hvalid.1.2 hfits.1
    obtain ⟨q', hq, hq'⟩ := ihq hvalid.2 hfits.2
    refine ⟨or [p', q'], by rw [updateForApply, hp, hq]; rfl, ?_⟩
    rw [holds, hp', meaning]
    cases p.meaning t₀ t
    · exact hq'
    · rfl
  | case6 p depth ih =>
    simp only [Bool.and_eq_true] at hvalid
    obtain ⟨p', hp, hp'⟩ := ih hvalid.2 hfits
    refine ⟨not (some p'), by rw [updateForApply, hp]; rfl, ?_⟩
    rw [holds, hp', meaning]
    rfl
  | case8 absBefore depth =>
    simp only [Bool.and_eq_true, decide_eq_true_eq] at hvalid
    exact ⟨_, rfl, holds_beforeAbsoluteTime ⟨hvalid.2, hfits⟩⟩
  | case9 relBefore depth =>
    simp only [Bool.and_eq_true, decide_eq_true_eq] at hvalid
    have hrange : 0 ≤ relativeToAbsolute t₀ relBefore ∧
        relativeToAbsolute t₀ relBefore ≤ int64Max := by
      rw [relativeToAbsolute]
      split_ifs <;> omega
    refine ⟨_, rfl, (holds_beforeAbsoluteTime hrange).trans ?_⟩
    rw [meaning, decide_eq_decide.mpr (lt_relativeToAbsolute_iff ht)]

/-- A negated relative time that is beyond the largest time. -/
theorem holds_updateForApply_late :
    (not (some (beforeRelativeTime int64Max))).isValid 1 = true ∧
      ∃ q, (not (some (beforeRelativeTime int64Max))).updateForApply 10 = .ok q ∧
        q.holds 20 = .ok false := by
  have hmeaning : (not (some (beforeRelativeTime int64Max))).meaning (10 : ℕ) (20 : ℕ) = false := by
    simp [meaning, int64Max]
  have hvalid : (not (some (beforeRelativeTime int64Max))).isValid 1 = true := by decide
  rw [← hmeaning]
  exact ⟨hvalid, holds_updateForApply (by decide) hvalid le_rfl⟩

end ClaimPredicate

end DigitalBits.Ledger
