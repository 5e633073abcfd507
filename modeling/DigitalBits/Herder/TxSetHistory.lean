import DigitalBits.Herder.TxSetFrame
import DigitalBits.Lib.OrderedSet

/-!
# The verdict a transaction set remembers

`checkValid` keeps its verdict with the hash of the ledger, but not with the
close time offsets it was asked for. Over a history of calls the kept verdict is
the one for the offsets of the call that filled the cache; a call with other
offsets is answered with it all the same.
-/
namespace DigitalBits.Herder
open TxSetFrame

open Scp (Hash)
open Ledger

variable (platform : Platform) (crypto : Crypto) (lcl : LastClosedLedger)

/-- A call on a transaction set. -/
inductive Call where
  | checkValid (lower upper : ℕ)
  | sortForHash
  | removeTx (tx : TransactionFrameBase)
  | getContentsHash

/-- A transaction set, and the offsets of the call whose verdict it keeps. -/
structure History where
  set : TxSetFrame
  asked : Option (ℕ × ℕ)
  deriving DecidableEq

namespace TxSetFrame

/-- The same transactions in a set that was just built. -/
def fresh (set : TxSetFrame) : TxSetFrame :=
  { mPreviousLedgerHash := set.mPreviousLedgerHash, mTransactions := set.mTransactions }

/-- The verdict of `checkValid`. -/
def verdict (set : TxSetFrame) (lower upper : ℕ) : Fallible Bool := do
  return (← set.checkValid platform crypto lcl lower upper).1

/-- Whether the set keeps a verdict for the last closed ledger. -/
def isCached (set : TxSetFrame) : Bool := set.mValid.any fun v => v.1 = lcl.hash

end TxSetFrame

namespace History

def step (h : History) : Call → Fallible History
  | .checkValid lower upper => do
    let (_, set) ← h.set.checkValid platform crypto lcl lower upper
    return ⟨set, if h.set.isCached lcl then h.asked else some (lower, upper)⟩
  | .sortForHash => return ⟨h.set.sortForHash, none⟩
  | .removeTx tx => return ⟨h.set.removeTx tx, none⟩
  | .getContentsHash =>
    return ⟨(h.set.getContentsHash platform).2, if h.set.mHash.isSome then h.asked else none⟩

end History

/-- The histories of a set that starts with some transactions, whose calls satisfy `P`. -/
inductive Reached (P : History → Call → Prop) (start : TxSetFrame) : History → Prop
  | start : Reached P start ⟨start.fresh, none⟩
  | step {h h' : History} {c : Call} : Reached P start h → P h c →
      h.step platform crypto lcl c = .ok h' → Reached P start h'

/-- A call that is answered from the cache asks for the offsets of the kept verdict. -/
def AsksTheSame (h : History) (c : Call) : Prop :=
  ∀ lower upper, c = .checkValid lower upper → h.set.isCached lcl = true →
    h.asked = some (lower, upper)

section

variable {platform crypto lcl} {set set' : TxSetFrame} {lower upper : ℕ} {valid : Bool}

theorem checkValid_of_cached (h : set.mValid = some (lcl.hash, valid)) :
    set.checkValid platform crypto lcl lower upper = .ok (valid, set) := by
  simp [checkValid, h, pure, Except.pure]

/-- A verdict is kept, or the set is not cached. -/
theorem mValid_of_isCached (h : set.isCached lcl = true) :
    ∃ valid, set.mValid = some (lcl.hash, valid) := by
  cases hv : set.mValid with
  | none => simp [isCached, hv] at h
  | some v =>
    obtain ⟨hash, valid⟩ := v
    have heq : hash = lcl.hash := by simpa [isCached, hv] using h
    exact ⟨valid, by rw [heq]⟩

theorem checkValid_of_not_cached (h : set.isCached lcl = false) :
    set.checkValid platform crypto lcl lower upper =
      (do let valid ← set.isValid platform crypto lcl lower upper
          return (valid, { set with mValid := some (lcl.hash, valid) })) := by
  unfold checkValid
  cases hv : set.mValid with
  | none => rfl
  | some v =>
    obtain ⟨hash, valid⟩ := v
    have hne : hash ≠ lcl.hash := by
      simpa [isCached, hv] using h
    simp [hne]

theorem verdict_of_not_cached (h : set.isCached lcl = false) :
    set.verdict platform crypto lcl lower upper = set.isValid platform crypto lcl lower upper := by
  unfold verdict
  rw [checkValid_of_not_cached h]
  cases set.isValid platform crypto lcl lower upper <;> rfl

theorem verdict_of_cached (h : set.mValid = some (lcl.hash, valid)) :
    set.verdict platform crypto lcl lower upper = .ok valid := by
  unfold verdict
  rw [checkValid_of_cached h]
  rfl

/-- A set that was just built is asked for its own verdict. -/
theorem verdict_fresh :
    set.fresh.verdict platform crypto lcl lower upper = set.isValid platform crypto lcl lower upper :=
  verdict_of_not_cached rfl

/-- The kept verdict is the one for the offsets that were asked. -/
def History.Sound (platform : Platform) (crypto : Crypto) (lcl : LastClosedLedger) (h : History) :
    Prop :=
  ∀ valid, h.set.mValid = some (lcl.hash, valid) →
    ∃ lower upper, h.asked = some (lower, upper) ∧
      h.set.isValid platform crypto lcl lower upper = .ok valid

theorem History.Sound.of_none {h : History} (hnone : h.set.mValid = none) :
    h.Sound platform crypto lcl := by
  intro valid hv
  rw [hnone] at hv
  cases hv

theorem History.Sound.step {h h' : History} {c : Call} (hs : h.Sound platform crypto lcl)
    (hstep : h.step platform crypto lcl c = .ok h') : h'.Sound platform crypto lcl := by
  cases c with
  | checkValid lower upper =>
    simp only [History.step] at hstep
    by_cases hc : h.set.isCached lcl = true
    · obtain ⟨valid, hv⟩ := mValid_of_isCached hc
      rw [checkValid_of_cached hv, if_pos hc] at hstep
      obtain rfl : h = h' := Except.ok.inj hstep
      exact hs
    · rw [checkValid_of_not_cached (Bool.eq_false_iff.mpr hc), if_neg hc] at hstep
      cases hvalid : h.set.isValid platform crypto lcl lower upper with
      | error e =>
        rw [hvalid] at hstep
        cases hstep
      | ok valid =>
        rw [hvalid] at hstep
        cases hstep
        intro valid' hv
        cases hv
        exact ⟨lower, upper, rfl, hvalid⟩
  | sortForHash | removeTx tx =>
    cases hstep
    exact .of_none rfl
  | getContentsHash =>
    cases hstep
    cases hh : h.set.mHash with
    | none => exact .of_none (by simp [getContentsHash, hh, sortForHash])
    | some hash => simpa [getContentsHash, hh] using hs

theorem Reached.sound {P : History → Call → Prop} {start : TxSetFrame} {h : History}
    (hr : Reached platform crypto lcl P start h) : h.Sound platform crypto lcl := by
  induction hr with
  | start => exact .of_none rfl
  | step _ _ hstep ih => exact ih.step hstep

/-- The hash that is kept, if there is one, is that of the sorted set. -/
def TxSetFrame.HashKept (platform : Platform) (set : TxSetFrame) : Prop :=
  ∀ hash, set.mHash = some hash →
    hash = platform.hashOf set.mPreviousLedgerHash set.sortForHash.mTransactions

theorem TxSetFrame.HashKept.of_none (h : set.mHash = none) : set.HashKept platform := by
  intro hash hhash
  rw [h] at hhash
  cases hhash

/-- In the order of the full hashes. -/
abbrev ByHash (txs : List TransactionFrameBase) : Prop :=
  txs.Pairwise fun tx1 tx2 => tx1.getFullHash ≤ tx2.getFullHash

theorem byHash_sortForHash (set : TxSetFrame) : ByHash set.sortForHash.mTransactions :=
  Lib.pairwise_insertionSort_key (fun _ _ => Iff.rfl) _

/-- The hash is that of transactions which are sorted already. -/
theorem TxSetFrame.HashKept.getContentsHash (h : set.HashKept platform) :
    (set.getContentsHash platform).2.HashKept platform := by
  unfold TxSetFrame.getContentsHash
  cases hhash : set.mHash with
  | some hash => exact h
  | none =>
    intro hash hkept
    cases hkept
    exact congrArg (platform.hashOf _) (byHash_sortForHash set).insertionSort_eq.symm

theorem TxSetFrame.HashKept.step {h h' : History} {c : Call} (hs : h.set.HashKept platform)
    (hstep : h.step platform crypto lcl c = .ok h') : h'.set.HashKept platform := by
  cases c with
  | checkValid lower upper =>
    simp only [History.step] at hstep
    by_cases hc : h.set.isCached lcl = true
    · obtain ⟨valid, hv⟩ := mValid_of_isCached hc
      rw [checkValid_of_cached hv] at hstep
      cases hstep
      exact hs
    · rw [checkValid_of_not_cached (Bool.eq_false_iff.mpr hc)] at hstep
      cases hvalid : h.set.isValid platform crypto lcl lower upper with
      | error e =>
        rw [hvalid] at hstep
        cases hstep
      | ok valid =>
        rw [hvalid] at hstep
        cases hstep
        exact hs
  | sortForHash | removeTx tx =>
    cases hstep
    exact .of_none rfl
  | getContentsHash =>
    cases hstep
    exact hs.getContentsHash

/-- Whatever is called, the kept hash is that of the sorted set. -/
theorem Reached.hashKept {P : History → Call → Prop} {start : TxSetFrame} {h : History}
    (hr : Reached platform crypto lcl P start h) : h.set.HashKept platform := by
  induction hr with
  | start => exact .of_none rfl
  | step _ _ hstep ih => exact ih.step hstep

end

/-- In every history in which a call that is answered from the cache asks for the offsets of the
kept verdict, each call returns what a set that was just built returns. -/
theorem verdict_eq_fresh (platform : Platform) (crypto : Crypto) (lcl : LastClosedLedger)
    (start : TxSetFrame) (h : History)
    (hr : Reached platform crypto lcl (AsksTheSame lcl) start h) (lower upper : ℕ)
    (hasks : AsksTheSame lcl h (.checkValid lower upper)) :
    h.set.verdict platform crypto lcl lower upper =
      h.set.fresh.verdict platform crypto lcl lower upper := by
  rw [verdict_fresh]
  by_cases hc : h.set.isCached lcl = true
  · obtain ⟨valid, hv⟩ := mValid_of_isCached hc
    obtain ⟨lower', upper', hasked, hvalid⟩ := hr.sound valid hv
    rw [hasks lower upper rfl hc] at hasked
    cases hasked
    rw [verdict_of_cached hv, hvalid]
  · exact verdict_of_not_cached (Bool.eq_false_iff.mpr hc)

/-! ## A set whose verdict changes with the close time -/

namespace LateSet

def sourceID : AccountID := 1

/-- Every signature is good. -/
def goodCrypto : Crypto where
  verifyHashX := fun _ _ => true
  verify := fun _ _ _ => true

def idPlatform : Platform where
  mapOrder := id
  mapOrder_perm := fun l => List.Perm.refl l
  hashOf := fun h _ => h

/-- A ledger with one account. -/
def ledger : LastClosedLedger where
  hash := 5
  state :=
    { entries := (∅ : AList InternalLedgerKey.Entry).insert (accountKey sourceID)
        ⟨{ balance := 700, seqNum := 5 }, .v0⟩
      header := ⟨15, 0, 2, 700, 0, 0, 0, 100, 0, 100⟩ }

/-- A transaction that expires at time 5. -/
def tx : TransactionFrameBase :=
  .tx ⟨false, false, 7, 8, sourceID, 100, 6, some ⟨0, 5⟩,
    [⟨none, .bumpSequence 0⟩], [⟨[], []⟩]⟩

def lateSet : TxSetFrame := ⟨ledger.hash, [tx], none, none⟩

/-- The set after it was checked without offsets. -/
def checked : TxSetFrame := { lateSet with mValid := some (ledger.hash, true) }

end LateSet

open LateSet in
/-- The set is valid without offsets. Asked after that for a close time 10 later it says that it is
valid, while the same set built anew says that it is not. -/
theorem late_set_still_valid :
    lateSet.checkValid idPlatform goodCrypto ledger 0 0 = .ok (true, checked) ∧
    checked.verdict idPlatform goodCrypto ledger 10 10 = .ok true ∧
    checked.fresh.verdict idPlatform goodCrypto ledger 10 10 = .ok false := by
  decide +kernel

open LateSet in
/-- Asked again for the same offsets, the set says what it says when it is built anew. -/
theorem late_set_asked_again :
    checked.verdict idPlatform goodCrypto ledger 0 0 =
      checked.fresh.verdict idPlatform goodCrypto ledger 0 0 := by
  have hstart : Reached idPlatform goodCrypto ledger (AsksTheSame ledger) lateSet
      ⟨lateSet.fresh, none⟩ := .start
  have hfirst : AsksTheSame ledger ⟨lateSet.fresh, none⟩ (.checkValid 0 0) := by
    intro lower upper _ hc
    cases hc
  have hstep : History.step idPlatform goodCrypto ledger ⟨lateSet.fresh, none⟩ (.checkValid 0 0) =
      .ok ⟨checked, some (0, 0)⟩ := by
    decide +kernel
  refine verdict_eq_fresh idPlatform goodCrypto ledger lateSet _ (hstart.step hfirst hstep) 0 0 ?_
  rintro lower upper ⟨⟩ -
  rfl

end DigitalBits.Herder
