import DigitalBits.Catchup.VerifyLedgerChainWork

/-!
# The range to catch up

From the last closed ledger and the configuration `CatchupRange` computes what to apply, and
`CheckpointRange` the checkpoints that have to be downloaded for it. Both check their arithmetic
with assertions, which fail for a target that is not ahead and near the end of the numbers.
-/
namespace DigitalBits.Catchup
open Scp Fin

def genesisLedgerSeq : Uint32 := 1

/-- `CatchupConfiguration`, without the mode, which matters after the headers only. -/
structure CatchupConfiguration where
  toLedger : Uint32
  hash : Option Hash
  count : Uint32

namespace CatchupConfiguration

def CURRENT : Uint32 := 0

def resolve (remoteCheckpoint : Uint32) (c : CatchupConfiguration) : CatchupConfiguration :=
  if c.toLedger = CURRENT then ⟨remoteCheckpoint, none, c.count⟩ else c

end CatchupConfiguration

/-- An assertion. -/
def assert (condition : Prop) [Decidable condition] (text : String) : Except Crash Unit :=
  if condition then .ok () else .error (.assertion text)

/-- The constructor of `LedgerRange`. -/
def LedgerRange.make (first count : Uint32) : Except Crash LedgerRange := do
  assert (count = 0 ∨ first > 0) "count == 0 || mFirst > 0"
  return ⟨first, count⟩

/-- `lastLedgerBeforeCheckpointContaining`. -/
def HistoryManager.lastLedgerBeforeCheckpointContaining (hm : HistoryManager) (ledger : Uint32) :
    Except Crash Uint32 := do
  let last := hm.checkpointContainingLedger ledger
  let size := hm.sizeOfCheckpointContaining ledger
  assert (last ≥ size) "last >= size"
  return last - size

/-- `CatchupRange`. -/
structure CatchupRange where
  mApplyBuckets : Bool
  mApplyBucketsAtLedger : Uint32
  mReplayRange : LedgerRange
  deriving DecidableEq

namespace CatchupRange

def replayLedgers (r : CatchupRange) : Bool := r.mReplayRange.mCount > 0

/-- The assertions at the end of each constructor. -/
def checkInvariants (r : CatchupRange) : Except Crash CatchupRange := do
  assert (r.mApplyBuckets ∨ r.replayLedgers) "applyBuckets() || replayLedgers()"
  if !r.mApplyBuckets && r.replayLedgers then
    assert (r.mApplyBucketsAtLedger = 0) "mApplyBucketsAtLedger == 0"
    assert (r.mReplayRange.mFirst ≠ 0) "mReplayRange.mFirst != 0"
    return r
  else if r.mApplyBuckets && r.replayLedgers then
    assert (r.mApplyBucketsAtLedger ≠ 0) "mApplyBucketsAtLedger != 0"
    assert (r.mReplayRange.mFirst ≠ 0) "mReplayRange.mFirst != 0"
    assert (r.mApplyBucketsAtLedger + 1 = r.mReplayRange.mFirst)
      "mApplyBucketsAtLedger + 1 == mReplayRange.mFirst"
    return r
  else
    assert (r.mApplyBuckets ∧ !r.replayLedgers) "applyBuckets() && !replayLedgers()"
    assert (r.mReplayRange.mFirst = 0) "mReplayRange.mFirst == 0"
    return r

/-- The constructor for buckets only. -/
def ofBuckets (applyBucketsAtLedger : Uint32) : Except Crash CatchupRange :=
  checkInvariants ⟨true, applyBucketsAtLedger, ⟨0, 0⟩⟩

/-- The constructor for replay only. -/
def ofReplay (replayRange : LedgerRange) : Except Crash CatchupRange :=
  checkInvariants ⟨false, 0, replayRange⟩

/-- The constructor for buckets and replay. -/
def ofBoth (applyBucketsAtLedger : Uint32) (replayRange : LedgerRange) :
    Except Crash CatchupRange :=
  checkInvariants ⟨true, applyBucketsAtLedger, replayRange⟩

/-- `checkCatchupPreconditions`. -/
def checkCatchupPreconditions (lastClosedLedger : Uint32) (configuration : CatchupConfiguration) :
    Except Crash Unit :=
  if lastClosedLedger = 0 then .error (.exception "lastClosedLedger == 0")
  else if configuration.toLedger ≤ lastClosedLedger then
    .error (.exception "configuration.toLedger() <= lastClosedLedger")
  else if configuration.toLedger ≤ genesisLedgerSeq then
    .error (.exception "configuration.toLedger() <= LedgerManager::GENESIS_LEDGER_SEQ")
  else if configuration.toLedger = CatchupConfiguration.CURRENT then
    .error (.exception "configuration.toLedger() == CatchupConfiguration::CURRENT")
  else .ok ()

/-- `calculateCatchupRange`. -/
def calculateCatchupRange (lcl : Uint32) (cfg : CatchupConfiguration) (hm : HistoryManager) :
    Except Crash CatchupRange := do
  checkCatchupPreconditions lcl cfg
  let init := genesisLedgerSeq
  let fullReplayCount := cfg.toLedger - lcl
  if lcl > init + 1 then
    let replay ← LedgerRange.make (lcl + 1) fullReplayCount
    ofReplay replay
  else
    assert (lcl = init + 1) "lcl == init + 1"
    let fullReplay ← LedgerRange.make (lcl + 1) fullReplayCount
    if cfg.count ≥ fullReplayCount then ofReplay fullReplay
    else if cfg.count = 0 ∧ hm.isLastLedgerInCheckpoint cfg.toLedger then ofBuckets cfg.toLedger
    else
      let targetStart := cfg.toLedger - cfg.count + 1
      let firstInCheckpoint := hm.firstLedgerInCheckpointContaining targetStart
      if firstInCheckpoint = init then ofReplay fullReplay
      else
        let applyBucketsAt ← hm.lastLedgerBeforeCheckpointContaining targetStart
        let replay ← LedgerRange.make firstInCheckpoint (cfg.toLedger - applyBucketsAt)
        ofBoth applyBucketsAt replay

/-- The constructor from the last closed ledger. -/
def make (lastClosedLedger : Uint32) (configuration : CatchupConfiguration) (hm : HistoryManager) :
    Except Crash CatchupRange := do
  let r ← calculateCatchupRange lastClosedLedger configuration hm
  checkInvariants r

def getFullRangeIncludingBucketApply (r : CatchupRange) : LedgerRange :=
  if r.mApplyBuckets then ⟨r.mApplyBucketsAtLedger, r.mReplayRange.mCount + 1⟩ else r.mReplayRange

/-- `last`; a range without replay applies buckets. -/
def last (r : CatchupRange) : Uint32 :=
  if r.mReplayRange.mCount ≠ 0 then r.mReplayRange.last else r.mApplyBucketsAtLedger

end CatchupRange

/-- `CheckpointRange`. -/
structure CheckpointRange where
  mFirst : Uint32
  mCount : Uint32
  mFrequency : Uint32

namespace CheckpointRange

def limit (r : CheckpointRange) : Uint32 := r.mFirst + r.mCount * r.mFrequency

def last (r : CheckpointRange) : Uint32 := r.mFirst + (r.mCount - 1) * r.mFrequency

def checkpointCount (firstCheckpoint : Uint32) (r : LedgerRange) (hm : HistoryManager) : Uint32 :=
  if r.mCount = 0 then 0
  else 1 + (hm.checkpointContainingLedger r.last - firstCheckpoint) / hm.getCheckpointFrequency

/-- The members that the constructor from a ledger range initializes. -/
def ofLedgerRange (ledgerRange : LedgerRange) (hm : HistoryManager) : CheckpointRange where
  mFirst := hm.checkpointContainingLedger ledgerRange.mFirst
  mCount := checkpointCount (hm.checkpointContainingLedger ledgerRange.mFirst) ledgerRange hm
  mFrequency := hm.getCheckpointFrequency

/-- The constructor from a ledger range. -/
def make (ledgerRange : LedgerRange) (hm : HistoryManager) : Except Crash CheckpointRange := do
  let r := ofLedgerRange ledgerRange hm
  assert (r.mFirst > 0) "mFirst > 0"
  assert ((r.mFirst + 1) % r.mFrequency = 0) "(mFirst + 1) % mFrequency == 0"
  assert (r.limit ≥ r.mFirst) "limit() >= mFirst"
  assert ((r.limit + 1) % r.mFrequency = 0) "(limit() + 1) % mFrequency == 0"
  if r.mCount ≠ 0 then
    assert (r.last ≥ r.mFirst) "last() >= mFirst"
    assert ((r.last + 1) % r.mFrequency = 0) "(last() + 1) % mFrequency == 0"
  return r

/-- The checkpoints that `BatchDownloadWork` downloads. -/
def downloads (r : CheckpointRange) : List Uint32 :=
  ((List.range r.mCount.val).map fun i => r.mFirst + Fin.ofNat (2 ^ 32) i * r.mFrequency).takeWhile
    (· < r.limit)

end CheckpointRange

/-! ## The range -/

theorem ok_bind {α β : Type} (a : α) (k : α → Except Crash β) :
    ((.ok a : Except Crash α) >>= k) = k a := rfl

theorem assert_bind {α : Type} {condition : Prop} [Decidable condition] (h : condition)
    (text : String) (k : Unit → Except Crash α) : (assert condition text >>= k) = k () := by
  rw [assert, if_pos h]
  rfl

theorem assert_bind_error {α : Type} {condition : Prop} [Decidable condition] (h : ¬ condition)
    (text : String) (k : Unit → Except Crash α) :
    (assert condition text >>= k) = .error (.assertion text) := by
  rw [assert, if_neg h]
  rfl

theorem LedgerRange.make_ok {first : Uint32} (h : 0 < first) (count : Uint32) :
    LedgerRange.make first count = .ok ⟨first, count⟩ :=
  assert_bind (.inr h) _ _

namespace HistoryManager.Numbers
variable {hm : HistoryManager} {ledger : Uint32} (hn : hm.Numbers ledger)

include hn

/-- A ledger of the first checkpoint. -/
theorem firstLedger_of_lt (h2 : 2 ≤ hm.getCheckpointFrequency.val)
    (h : ledger < hm.getCheckpointFrequency) :
    hm.firstLedgerInCheckpointContaining ledger = genesisLedgerSeq := by
  obtain ⟨m, hdvd, hlo, -, hm'⟩ := hn.spec
  rw [firstLedgerInCheckpointContaining, sizeOfCheckpointContaining, if_pos h, genesisLedgerSeq]
  rw [lt_def] at h
  have hzero := Nat.eq_zero_of_dvd_of_lt hdvd (by omega)
  have h1 : (1 : Uint32).val = 1 := rfl
  refine Fin.ext ?_
  simp only [Fin.sub_def]
  omega

/-- A later ledger: the first ledger of its checkpoint comes after the last one before it, and
that is the end of a checkpoint. -/
theorem firstLedger_of_le (h : hm.getCheckpointFrequency ≤ ledger) :
    ∃ before, hm.lastLedgerBeforeCheckpointContaining ledger = .ok before ∧
      hm.firstLedgerInCheckpointContaining ledger = before + 1 ∧ before < ledger ∧
      ledger.val ≤ before.val + hm.getCheckpointFrequency.val ∧
      hm.getCheckpointFrequency.val ∣ before.val + 1 := by
  obtain ⟨m, hdvd, hlo, hhi, hm'⟩ := hn.spec
  rw [lastLedgerBeforeCheckpointContaining, firstLedgerInCheckpointContaining,
    sizeOfCheckpointContaining, if_neg (not_lt.mpr h)]
  rw [le_def] at h
  have hle : hm.getCheckpointFrequency ≤ hm.checkpointContainingLedger ledger := by
    rw [le_def]
    omega
  refine ⟨_, assert_bind hle _ _, by rw [← sub_add], ?_⟩
  rw [lt_def, sub_val_of_le hle]
  have heq : (hm.checkpointContainingLedger ledger).val - hm.getCheckpointFrequency.val + 1 = m := by
    omega
  exact ⟨by omega, by omega, heq ▸ hdvd⟩

/-- The last ledgers of checkpoints come before the multiples of the frequency. -/
theorem isLastLedgerInCheckpoint_iff :
    hm.isLastLedgerInCheckpoint ledger = true ↔
      hm.getCheckpointFrequency.val ∣ ledger.val + 1 := by
  obtain ⟨m, hdvd, hlo, hhi, hm'⟩ := hn.spec
  rw [HistoryManager.isLastLedgerInCheckpoint, decide_eq_true_iff, Fin.ext_iff]
  constructor
  · intro h
    rw [← h, hm']
    exact Nat.dvd_add_self_right.mpr hdvd
  · intro h
    have hle := add_le_of_dvd hdvd h (by omega)
    omega

end HistoryManager.Numbers

namespace CatchupRange

variable {hm : HistoryManager} {lcl : Uint32} {cfg : CatchupConfiguration}

theorem checkInvariants_ofReplay {replay : LedgerRange} (hfirst : 0 < replay.mFirst)
    (hcount : 0 < replay.mCount) :
    checkInvariants ⟨false, 0, replay⟩ = .ok ⟨false, 0, replay⟩ := by
  have hreplay : replayLedgers ⟨false, 0, replay⟩ = true := decide_eq_true hcount
  unfold checkInvariants
  simp only [hreplay, Bool.not_false, Bool.and_true, if_true]
  rw [assert_bind trivial, assert_bind hfirst.ne']
  rfl

theorem checkInvariants_ofBuckets (ledger : Uint32) :
    checkInvariants ⟨true, ledger, ⟨0, 0⟩⟩ = .ok ⟨true, ledger, ⟨0, 0⟩⟩ := rfl

theorem checkInvariants_ofBoth {ledger : Uint32} {replay : LedgerRange} (hledger : ledger ≠ 0)
    (hfirst : ledger + 1 = replay.mFirst) (hpos : replay.mFirst ≠ 0) (hcount : 0 < replay.mCount) :
    checkInvariants ⟨true, ledger, replay⟩ = .ok ⟨true, ledger, replay⟩ := by
  have hreplay : replayLedgers ⟨true, ledger, replay⟩ = true := decide_eq_true hcount
  unfold checkInvariants
  simp only [hreplay, Bool.not_true, Bool.and_true, Bool.false_eq_true, if_false, if_true]
  rw [assert_bind hledger, assert_bind hpos, assert_bind hfirst]
  rfl

/-- The ledgers above a lower one, up to a target. -/
theorem replay_above {low target : Uint32} (hlt : low < target) :
    0 < low + 1 ∧ 0 < target - low ∧ low + 1 ≤ target ∧
      LedgerRange.last ⟨low + 1, target - low⟩ = target := by
  have h1 : (1 : Uint32).val = 1 := rfl
  have h0 : (0 : Uint32).val = 0 := rfl
  have hsub := sub_val_of_le hlt.le
  rw [lt_def] at hlt
  rw [lt_def, lt_def, le_def, val_add, LedgerRange.last, LedgerRange.limit,
    add_right_comm, add_sub_cancel_right, add_sub_cancel]
  exact ⟨by omega, by omega, by omega, rfl⟩

/-- The preconditions hold exactly above the last closed ledger. -/
theorem checkCatchupPreconditions_ok (hlcl : lcl ≠ 0) (hlt : lcl < cfg.toLedger) :
    checkCatchupPreconditions lcl cfg = .ok () := by
  have h1 : (1 : Uint32).val = 1 := rfl
  have hpos : lcl.val ≠ 0 := fun h => hlcl (Fin.ext h)
  have hgenesis : ¬ cfg.toLedger ≤ genesisLedgerSeq := by
    rw [lt_def] at hlt
    rw [le_def, genesisLedgerSeq]
    omega
  have hcurrent : cfg.toLedger ≠ CatchupConfiguration.CURRENT := by
    intro h
    rw [h] at hgenesis
    exact hgenesis (by decide)
  unfold checkCatchupPreconditions
  rw [if_neg hlcl, if_neg (not_le.mpr hlt), if_neg hgenesis, if_neg hcurrent]

/-- What is planned: replay after the last closed ledger, or buckets at the end `b` of a
checkpoint, as late as leaves enough ledgers to replay. -/
inductive Planned (hm : HistoryManager) (lcl : Uint32) (cfg : CatchupConfiguration) :
    CatchupRange → Prop
  | replay (h : 2 < lcl ∨ cfg.toLedger - lcl ≤ cfg.count ∨
      cfg.toLedger.val - cfg.count.val + 1 < hm.getCheckpointFrequency.val) :
      Planned hm lcl cfg ⟨false, 0, ⟨lcl + 1, cfg.toLedger - lcl⟩⟩
  | buckets {b : Uint32} (hlcl : lcl = 2) (hcount : cfg.count < cfg.toLedger - lcl)
      (hdvd : hm.getCheckpointFrequency.val ∣ b.val + 1)
      (hle : b.val ≤ cfg.toLedger.val - cfg.count.val)
      (hlt : cfg.toLedger.val - cfg.count.val < b.val + hm.getCheckpointFrequency.val) :
      Planned hm lcl cfg
        ⟨true, b, if b = cfg.toLedger then ⟨0, 0⟩ else ⟨b + 1, cfg.toLedger - b⟩⟩

/-- A target above the last closed ledger has a range. -/
theorem calculateCatchupRange_ok (hm : HistoryManager) (h4 : 4 ≤ hm.getCheckpointFrequency.val)
    (hn : ∀ ledger : Uint32, ledger.val ≤ cfg.toLedger.val + 1 → hm.Numbers ledger) (h2 : 2 ≤ lcl)
    (hlt : lcl < cfg.toLedger) :
    ∃ r, calculateCatchupRange lcl cfg hm = .ok r ∧ checkInvariants r = .ok r ∧
      Planned hm lcl cfg r := by
  have hlcl : lcl ≠ 0 := by
    rintro rfl
    exact absurd h2 (by decide)
  have hmake : ∀ low, low < cfg.toLedger →
      LedgerRange.make (low + 1) (cfg.toLedger - low) = .ok ⟨low + 1, cfg.toLedger - low⟩ :=
    fun low hlow => LedgerRange.make_ok (replay_above hlow).1 _
  obtain ⟨hpos, hpos', -⟩ := replay_above hlt
  have hreplay : checkInvariants ⟨false, 0, ⟨lcl + 1, cfg.toLedger - lcl⟩⟩ = _ :=
    checkInvariants_ofReplay hpos hpos'
  unfold calculateCatchupRange
  rw [checkCatchupPreconditions_ok hlcl hlt, ok_bind]
  dsimp only
  rw [hmake lcl hlt]
  by_cases hpast : lcl > genesisLedgerSeq + 1
  · rw [if_pos hpast]
    exact ⟨_, hreplay, hreplay, .replay (.inl hpast)⟩
  have heq : lcl = 2 := le_antisymm (not_lt.mp hpast) h2
  rw [if_neg hpast, assert_bind (show lcl = genesisLedgerSeq + 1 from heq), ok_bind]
  by_cases hfull : cfg.count ≥ cfg.toLedger - lcl
  · rw [if_pos hfull]
    exact ⟨_, hreplay, hreplay, .replay (.inr (.inl hfull))⟩
  rw [if_neg hfull]
  have hcount := not_le.mp hfull
  have hless : cfg.count.val < cfg.toLedger.val - lcl.val := by
    rwa [← sub_val_of_le hlt.le, ← lt_def]
  have hto := hn cfg.toLedger (Nat.le_succ _)
  by_cases hbuckets : cfg.count = 0 ∧ hm.isLastLedgerInCheckpoint cfg.toLedger
  · rw [if_pos hbuckets]
    have hzero : cfg.count.val = 0 := congrArg val hbuckets.1
    have hplan : Planned hm lcl cfg ⟨true, cfg.toLedger, _⟩ := .buckets heq hcount
      (hto.isLastLedgerInCheckpoint_iff.mp hbuckets.2) (by omega) (by omega)
    rw [if_pos rfl] at hplan
    exact ⟨_, rfl, checkInvariants_ofBuckets _, hplan⟩
  rw [if_neg hbuckets]
  have hstart : (cfg.toLedger - cfg.count + 1).val = cfg.toLedger.val - cfg.count.val + 1 := by
    have hle : cfg.count ≤ cfg.toLedger := le_def.mpr (by omega)
    rw [val_add, sub_val_of_le hle]
    -- zero comes after the last number, which ends a checkpoint
    refine Nat.mod_eq_of_lt (by_contra fun hge => hbuckets ?_)
    have h1 : (1 : Uint32).val = 1 := rfl
    refine ⟨Fin.ext (show cfg.count.val = 0 by omega), hto.isLastLedgerInCheckpoint_iff.mpr ?_⟩
    have hend : cfg.toLedger.val + 1 = 2 ^ 32 := by omega
    rw [hend]
    exact hto.bound.resolve_right (by omega)
  have hstartn := hn (cfg.toLedger - cfg.count + 1) (by omega)
  by_cases hfirst : cfg.toLedger - cfg.count + 1 < hm.getCheckpointFrequency
  · rw [if_pos (hstartn.firstLedger_of_lt (by omega) hfirst)]
    rw [lt_def, hstart] at hfirst
    exact ⟨_, hreplay, hreplay, .replay (.inr (.inr hfirst))⟩
  · obtain ⟨b, hb, hnext, hltStart, hleStart, hdvd⟩ :=
      hstartn.firstLedger_of_le (not_lt.mp hfirst)
    have hge := Nat.le_of_dvd (Nat.succ_pos _) hdvd
    rw [lt_def, hstart] at hltStart
    have hlow : b ≠ cfg.toLedger := by
      intro h
      rw [h] at hltStart hdvd
      exact hbuckets ⟨Fin.ext (show cfg.count.val = 0 by omega),
        hto.isLastLedgerInCheckpoint_iff.mpr hdvd⟩
    have hltTo : b < cfg.toLedger := lt_of_le_of_ne (le_def.mpr (by omega)) hlow
    have hzero : b ≠ 0 := by
      rintro rfl
      exact absurd (h4.trans hge) (by decide)
    obtain ⟨hpos, hpos', -⟩ := replay_above hltTo
    have hinv : checkInvariants ⟨true, b, ⟨b + 1, cfg.toLedger - b⟩⟩ = _ :=
      checkInvariants_ofBoth hzero rfl hpos.ne' hpos'
    have hplan : Planned hm lcl cfg ⟨true, b, _⟩ :=
      .buckets heq hcount hdvd (by omega) (by omega)
    rw [if_neg hlow] at hplan
    rw [hnext, if_neg (by simpa [genesisLedgerSeq] using hzero), hb, ok_bind, hmake b hltTo, ok_bind]
    exact ⟨_, hinv, hinv, hplan⟩

variable {r : CatchupRange}

theorem Planned.last (h : Planned hm lcl cfg r) (hlt : lcl < cfg.toLedger) :
    r.last = cfg.toLedger := by
  have hreplay : ∀ {low : Uint32}, low < cfg.toLedger → ∀ {buckets at'},
      CatchupRange.last ⟨buckets, at', ⟨low + 1, cfg.toLedger - low⟩⟩ = cfg.toLedger := by
    intro low hlow _ _
    obtain ⟨-, hpos, -, hlast⟩ := replay_above hlow
    exact (if_pos hpos.ne').trans hlast
  cases h with
  | replay => exact hreplay hlt
  | buckets hlcl hcount hdvd hle =>
    split
    · next heq => exact heq
    · next hne => exact hreplay (lt_of_le_of_ne (le_def.mpr (by omega)) hne)

theorem make_planned (hm : HistoryManagerImpl) (h2 : 2 ≤ lcl) (hlt : lcl < cfg.toLedger) :
    ∃ r, make lcl cfg hm = .ok r ∧ Planned hm lcl cfg r := by
  have hfreq := hm.getCheckpointFrequency_val
  obtain ⟨r, hr, hinv, hplan⟩ := calculateCatchupRange_ok hm (by omega)
    (fun ledger _ => hm.numbers ledger) h2 hlt
  refine ⟨r, ?_, hplan⟩
  rw [make, hr, ok_bind, hinv]

/-- At the genesis ledger, or without a ledger to catch up to, the process stops. -/
theorem make_error (hm : HistoryManager) (h : ¬ (2 ≤ lcl ∧ lcl < cfg.toLedger)) :
    ∃ e, make lcl cfg hm = .error e := by
  have hcalculate : ∃ e, calculateCatchupRange lcl cfg hm = .error e := by
    unfold calculateCatchupRange
    by_cases hzero : lcl = 0
    · rw [checkCatchupPreconditions, if_pos hzero]
      exact ⟨_, rfl⟩
    · by_cases hlt : lcl < cfg.toLedger
      · have h2 : ¬ 2 ≤ lcl := fun h2 => h ⟨h2, hlt⟩
        rw [checkCatchupPreconditions_ok hzero hlt, ok_bind]
        rw [if_neg (fun hgt => h2 hgt.le), assert_bind_error (fun heq => h2 heq.ge)]
        exact ⟨_, rfl⟩
      · rw [checkCatchupPreconditions, if_neg hzero, if_pos (not_lt.mp hlt)]
        exact ⟨_, rfl⟩
  obtain ⟨e, he⟩ := hcalculate
  rw [make, he]
  exact ⟨e, rfl⟩

end CatchupRange

/-- The checkpoints of a range. -/
def CheckpointRange.Contains (r : CheckpointRange) (checkpoint : Uint32) : Prop :=
  ∃ i < r.mCount.val, checkpoint.val = r.mFirst.val + i * r.mFrequency.val

namespace CheckpointRange
variable {hm : HistoryManager}

theorem downloads_eq_nil {r : CheckpointRange} (h : r.limit ≤ r.mFirst) : r.downloads = [] := by
  unfold downloads
  cases r.mCount.val with
  | zero => rfl
  | succ n => simpa [List.range_succ_eq_map, List.takeWhile_cons] using h

/-- The last ledgers of checkpoints pass the assertions on multiples. -/
theorem add_one_mod {x freq : Uint32} (h : freq.val ∣ x.val + 1) : (x + 1) % freq = 0 := by
  have hval : ((x + 1) % freq).val = (x.val + 1) % 2 ^ 32 % freq.val := rfl
  refine Fin.ext (hval.trans ?_)
  rcases Nat.lt_or_ge (x.val + 1) (2 ^ 32) with hlt | hge
  · rw [Nat.mod_eq_of_lt hlt, Nat.mod_eq_zero_of_dvd h]
    rfl
  · have hx := x.isLt
    have heq : x.val + 1 = 2 ^ 32 := by omega
    rw [heq, Nat.mod_self, Nat.zero_mod]
    rfl

section
variable {r : LedgerRange} (h2 : 2 ≤ hm.getCheckpointFrequency.val) (hn : hm.Numbers r.mFirst)
  (hn' : hm.Numbers r.last) (hcount : r.mCount ≠ 0) (hle : r.mFirst ≤ r.last)

include h2 hn hn' hcount hle

/-- The checkpoints of a range: the count, the last one and the limit, which can wrap. -/
theorem counts : hm.checkpointContainingLedger r.mFirst ≤ hm.checkpointContainingLedger r.last ∧
    (ofLedgerRange r hm).mCount.val * hm.getCheckpointFrequency.val +
        (hm.checkpointContainingLedger r.mFirst).val =
      (hm.checkpointContainingLedger r.last).val + hm.getCheckpointFrequency.val ∧
    (ofLedgerRange r hm).last = hm.checkpointContainingLedger r.last ∧
    (ofLedgerRange r hm).limit.val = ((hm.checkpointContainingLedger r.last).val +
      hm.getCheckpointFrequency.val) % 2 ^ 32 := by
  have hge := hn.mono hn' hle
  obtain ⟨m, hm', hlo, hhi, hfirst⟩ := hn.spec
  obtain ⟨n, hn'', hlo', hhi', hlast⟩ := hn'.spec
  obtain ⟨k, hk⟩ := Nat.dvd_sub hn'' hm'
  unfold ofLedgerRange limit CheckpointRange.last
  dsimp only
  rw [checkpointCount, if_neg hcount]
  have hfirst' := (hm.checkpointContainingLedger r.mFirst).isLt
  have hlast' := (hm.checkpointContainingLedger r.last).isLt
  generalize hm.checkpointContainingLedger r.last = last at *
  generalize hm.checkpointContainingLedger r.mFirst = first at *
  have hge' : first.val ≤ last.val := hge
  have hdiv : ((last - first) / hm.getCheckpointFrequency).val = k := by
    have hsub : last.val - first.val = hm.getCheckpointFrequency.val * k := by omega
    rw [← Nat.mul_div_cancel_left k hn.pos, ← hsub, ← sub_val_of_le hge]
    rfl
  have hmul : k * hm.getCheckpointFrequency.val = n - m := by rw [hk, Nat.mul_comm]
  have hk2 := Nat.mul_le_mul_left k h2
  have h1 : (1 : Uint32).val = 1 := rfl
  have hadd : (1 + (last - first) / hm.getCheckpointFrequency).val = 1 + k := by
    omega
  refine ⟨hge, ?_, ?_, ?_⟩
  · rw [hadd, Nat.add_mul, Nat.one_mul, hmul]
    omega
  · rw [add_sub_cancel_left, Fin.ext_iff, Fin.val_add, Fin.val_mul, hdiv, hmul]
    omega
  · rw [val_add, val_mul, hadd, Nat.add_mul, Nat.one_mul, hmul]
    omega

theorem contains_iff_dvd {i : Uint32} :
    (ofLedgerRange r hm).Contains i ↔ hm.checkpointContainingLedger r.mFirst ≤ i ∧
      i ≤ hm.checkpointContainingLedger r.last ∧ hm.getCheckpointFrequency.val ∣ i.val + 1 := by
  obtain ⟨-, hcounted, -⟩ := counts h2 hn hn' hcount hle
  obtain ⟨m, hm', -, -, hfirst⟩ := hn.spec
  have hdvd : hm.getCheckpointFrequency.val ∣ (hm.checkpointContainingLedger r.mFirst).val + 1 :=
    hfirst ▸ Nat.dvd_add_self_right.mpr hm'
  rw [le_def, le_def]
  constructor
  · rintro ⟨j, hj, heq⟩
    change i.val = (hm.checkpointContainingLedger r.mFirst).val +
      j * hm.getCheckpointFrequency.val at heq
    have hmul := Nat.mul_le_mul_right hm.getCheckpointFrequency.val (Nat.succ_le_of_lt hj)
    rw [Nat.succ_mul] at hmul
    refine ⟨by omega, by omega, ?_⟩
    rw [heq, Nat.add_right_comm]
    exact Nat.dvd_add hdvd (Nat.dvd_mul_left _ _)
  · rintro ⟨hlo, hhi, hi⟩
    obtain ⟨k, hk⟩ := Nat.dvd_sub hi hdvd
    rw [Nat.mul_comm] at hk
    have hlt : k * hm.getCheckpointFrequency.val <
        (ofLedgerRange r hm).mCount.val * hm.getCheckpointFrequency.val := by omega
    refine ⟨k, Nat.lt_of_mul_lt_mul_right hlt, ?_⟩
    change i.val = (hm.checkpointContainingLedger r.mFirst).val + k * hm.getCheckpointFrequency.val
    omega

/-- Without a wrap all checkpoints of the range are downloaded. -/
theorem mem_downloads {i : Uint32}
    (hlim : (hm.checkpointContainingLedger r.last).val + hm.getCheckpointFrequency.val < 2 ^ 32) :
    i ∈ (ofLedgerRange r hm).downloads ↔ hm.checkpointContainingLedger r.mFirst ≤ i ∧
      i ≤ hm.checkpointContainingLedger r.last ∧ hm.getCheckpointFrequency.val ∣ i.val + 1 := by
  rw [← contains_iff_dvd h2 hn hn' hcount hle]
  obtain ⟨-, hcounted, -, hlimit⟩ := counts h2 hn hn' hcount hle
  rw [Nat.mod_eq_of_lt hlim, ← hcounted] at hlimit
  have hval : ∀ j < (ofLedgerRange r hm).mCount.val, ((ofLedgerRange r hm).mFirst +
      Fin.ofNat (2 ^ 32) j * (ofLedgerRange r hm).mFrequency).val =
      (hm.checkpointContainingLedger r.mFirst).val + j * hm.getCheckpointFrequency.val ∧
      (hm.checkpointContainingLedger r.mFirst).val + j * hm.getCheckpointFrequency.val <
        (ofLedgerRange r hm).limit.val := by
    intro j hj
    have hmul := Nat.mul_lt_mul_of_pos_right hj (Nat.lt_of_lt_of_le Nat.two_pos h2)
    have hj' : j < 2 ^ 32 := hj.trans (ofLedgerRange r hm).mCount.isLt
    refine ⟨?_, by omega⟩
    change ((hm.checkpointContainingLedger r.mFirst).val +
      (j % 2 ^ 32 * hm.getCheckpointFrequency.val) % 2 ^ 32) % 2 ^ 32 = _
    rw [Nat.mod_eq_of_lt hj', Nat.mod_eq_of_lt (by omega), Nat.mod_eq_of_lt (by omega)]
  unfold downloads
  rw [List.takeWhile_eq_self_iff.mpr]
  · simp only [List.mem_map, List.mem_range]
    refine exists_congr fun j => and_congr_right fun hj => ?_
    rw [Fin.ext_iff, (hval j hj).1]
    exact eq_comm
  · simp only [List.mem_map, List.mem_range, decide_eq_true_eq]
    rintro _ ⟨j, hj, rfl⟩
    obtain ⟨heq, hlt⟩ := hval j hj
    rwa [lt_def, heq]

/-- The range of checkpoints, unless it reaches the last number and does not start with the first
checkpoint. -/
theorem make_cases (hlim : hm.getCheckpointFrequency.val ∣ 2 ^ 32 ∨
      (hm.checkpointContainingLedger r.last).val + hm.getCheckpointFrequency.val < 2 ^ 32) :
    if hm.getCheckpointFrequency ≤ r.mFirst ∧
        2 ^ 32 ≤ r.last.val + hm.getCheckpointFrequency.val then
      ∃ e, make r hm = .error e
    else make r hm = .ok (ofLedgerRange r hm) := by
  obtain ⟨hge, hcounted, hlast, hlimit⟩ := counts h2 hn hn' hcount hle
  obtain ⟨m, hm', hlo, hhi, hfirst⟩ := hn.spec
  obtain ⟨n, hn'', hlo', hhi', hend⟩ := hn'.spec
  rw [le_def] at hle hge
  have hpos : (ofLedgerRange r hm).mFirst > 0 :=
    lt_def.mpr (show 0 < (hm.checkpointContainingLedger r.mFirst).val by omega)
  have hdvd : (ofLedgerRange r hm).mFrequency.val ∣ (ofLedgerRange r hm).mFirst.val + 1 :=
    show _ ∣ (hm.checkpointContainingLedger r.mFirst).val + 1 from
      hfirst ▸ Nat.dvd_add_self_right.mpr hm'
  have hdvd' : (ofLedgerRange r hm).mFrequency.val ∣ (hm.checkpointContainingLedger r.last).val + 1 :=
    hend ▸ Nat.dvd_add_self_right.mpr hn''
  have hwrapped : (hm.checkpointContainingLedger r.last).val + hm.getCheckpointFrequency.val < 2 ^ 32 ∨
      n + hm.getCheckpointFrequency.val = 2 ^ 32 := by
    by_contra hnot
    rw [not_or] at hnot
    have hstep := add_le_of_dvd (Nat.dvd_add_self_right.mpr hn'') (hlim.resolve_right hnot.1)
      (lt_of_le_of_ne (by omega) hnot.2)
    omega
  have hlimitMod : (ofLedgerRange r hm).mFrequency.val ∣ (ofLedgerRange r hm).limit.val + 1 := by
    change hm.getCheckpointFrequency.val ∣ _
    rw [hlimit]
    rcases hwrapped with h | h
    · rw [Nat.mod_eq_of_lt h, Nat.add_right_comm]
      exact Nat.dvd_add_self_right.mpr hdvd'
    · refine Dvd.intro 1 ?_
      omega
  have hcountNe : (ofLedgerRange r hm).mCount ≠ 0 := by
    intro hzero
    rw [hzero, show ((0 : Uint32).val = 0) from rfl, Nat.zero_mul] at hcounted
    omega
  unfold make
  rw [assert_bind hpos, assert_bind (add_one_mod hdvd), hlast]
  -- only the comparison of the wrapped limit can fail
  have hlimitGe : (ofLedgerRange r hm).limit ≥ (ofLedgerRange r hm).mFirst ↔
      ¬ (hm.getCheckpointFrequency ≤ r.mFirst ∧
        2 ^ 32 ≤ r.last.val + hm.getCheckpointFrequency.val) := by
    have hzero : r.mFirst.val < hm.getCheckpointFrequency.val ↔ m = 0 :=
      ⟨fun h => Nat.eq_zero_of_dvd_of_lt hm' (by omega), fun h => by omega⟩
    rw [ge_iff_le, le_def, le_def, hlimit]
    change (hm.checkpointContainingLedger r.mFirst).val ≤ _ ↔ _
    omega
  by_cases hwrap : hm.getCheckpointFrequency ≤ r.mFirst ∧
      2 ^ 32 ≤ r.last.val + hm.getCheckpointFrequency.val
  · rw [if_pos hwrap, assert_bind_error fun hlim => hlimitGe.mp hlim hwrap]
    exact ⟨_, rfl⟩
  · rw [if_neg hwrap, assert_bind (hlimitGe.mpr hwrap), assert_bind (add_one_mod hlimitMod),
      if_pos hcountNe, assert_bind (show _ ≥ (ofLedgerRange r hm).mFirst from hge),
      assert_bind (add_one_mod hdvd')]
    rfl

end

end CheckpointRange

/-! ## The shortest plan -/

/-- The ledgers of a range. -/
def LedgerRange.Contains (r : LedgerRange) (ledger : Uint32) : Prop :=
  r.mFirst.val ≤ ledger.val ∧ ledger.val < r.mFirst.val + r.mCount.val

theorem LedgerRange.contains_above {low target ledger : Uint32} (hlt : low < target) :
    LedgerRange.Contains ⟨low + 1, target - low⟩ ledger ↔ low < ledger ∧ ledger ≤ target := by
  have h1 : (1 : Uint32).val = 1 := rfl
  rw [LedgerRange.Contains, val_add, sub_val_of_le hlt.le, lt_def, le_def]
  omega

namespace CheckpointRange
variable {hm : HistoryManager} {low target checkpoint : Uint32}

/-- The checkpoints of a replay are those with a ledger of it. -/
theorem contains_iff (h2 : 2 ≤ hm.getCheckpointFrequency.val) (hlt : low < target)
    (hn : ∀ ledger : Uint32, ledger ≤ target → hm.Numbers ledger) :
    (ofLedgerRange ⟨low + 1, target - low⟩ hm).Contains checkpoint ↔
      ∃ ledger, LedgerRange.Contains ⟨low + 1, target - low⟩ ledger ∧
        hm.checkpointContainingLedger ledger = checkpoint := by
  obtain ⟨-, hpos, hle, hlast⟩ := CatchupRange.replay_above hlt
  have hfirst := hn _ hle
  have hend := hn target le_rfl
  have hcontains := contains_iff_dvd (r := ⟨low + 1, target - low⟩) (i := checkpoint) h2 hfirst
    (hlast.symm ▸ hend) hpos.ne' (hle.trans_eq hlast.symm)
  rw [hlast] at hcontains
  obtain ⟨n, hn', hlo, -, hn1⟩ := hend.spec
  simp only [hcontains, LedgerRange.contains_above hlt]
  constructor
  · rintro ⟨hge, hup, hdvd⟩
    -- the target is the last ledger of the last checkpoint that is caught up with
    rcases le_or_gt checkpoint target with hto | hto
    · refine ⟨checkpoint, ⟨?_, hto⟩,
        of_decide_eq_true ((hn _ hto).isLastLedgerInCheckpoint_iff.mpr hdvd)⟩
      have hnext : low < low + 1 := lt_add_one_iff.mpr (hlt.trans_le (le_last _))
      obtain ⟨m, -, -, hhi, hm1⟩ := hfirst.spec
      rw [le_def] at hge
      refine hnext.trans_le (le_def.mpr ?_)
      omega
    · have hto' : target.val < checkpoint.val := hto
      have hstep := add_le_of_dvd hn' hdvd (by omega)
      rw [le_def] at hup
      exact ⟨target, ⟨hlt, le_rfl⟩, Fin.ext (by omega)⟩
  · rintro ⟨ledger, ⟨hlow, hto⟩, rfl⟩
    have hledger := hn ledger hto
    obtain ⟨p, hp, -, -, hp1⟩ := hledger.spec
    exact ⟨hfirst.mono hledger (add_one_le_of_lt hlow), hledger.mono hend hto,
      hp1 ▸ Nat.dvd_add_self_right.mpr hp⟩

end CheckpointRange

namespace CatchupRange

/-- The shortest plan that meets the request: a node past ledger 2 replays, and any other replays
from the latest checkpoint end that leaves enough ledgers, from its own ledger only if none does. -/
structure Shortest (hm : HistoryManager) (lcl : Uint32) (cfg : CatchupConfiguration)
    (r : CatchupRange) : Prop where
  invariants : checkInvariants r = .ok r
  last : r.last = cfg.toLedger
  replay : r.mApplyBuckets = false →
    ∀ ledger, r.mReplayRange.Contains ledger ↔ lcl < ledger ∧ ledger ≤ cfg.toLedger
  buckets : r.mApplyBuckets = true → lcl < r.mApplyBucketsAtLedger ∧
    hm.isLastLedgerInCheckpoint r.mApplyBucketsAtLedger = true ∧ ∀ ledger,
      r.mReplayRange.Contains ledger ↔ r.mApplyBucketsAtLedger < ledger ∧ ledger ≤ cfg.toLedger
  never : lcl > 2 ∨ cfg.count ≥ cfg.toLedger - lcl → r.mApplyBuckets = false
  enough : min cfg.count.val (cfg.toLedger.val - lcl.val) ≤ r.mReplayRange.mCount.val
  needed : r.mApplyBuckets = false → lcl > 2 ∨ ∀ b, lcl < b → b ≤ cfg.toLedger →
    hm.isLastLedgerInCheckpoint b = true → cfg.toLedger.val - b.val < cfg.count.val
  latest : r.mApplyBuckets = true → ∀ b, r.mApplyBucketsAtLedger < b → b ≤ cfg.toLedger →
    hm.isLastLedgerInCheckpoint b = true → cfg.toLedger.val - b.val < cfg.count.val
  checkpoints : r.mReplayRange.mCount ≠ 0 →
    ∃ cr, CheckpointRange.make r.mReplayRange hm = .ok cr ∧ ∀ checkpoint, cr.Contains checkpoint ↔
      ∃ ledger, r.mReplayRange.Contains ledger ∧ hm.checkpointContainingLedger ledger = checkpoint

/-- For every frequency of at least 4 and every target above the last closed ledger that leaves
room for two checkpoints, the range is the shortest plan. -/
theorem make_shortest (hm : HistoryManager) (h4 : 4 ≤ hm.getCheckpointFrequency.val) (h2 : 2 ≤ lcl)
    (hlt : lcl < cfg.toLedger)
    (hmax : cfg.toLedger.val + 2 * hm.getCheckpointFrequency.val < 2 ^ 32 - 1) :
    ∃ r, make lcl cfg hm = .ok r ∧ Shortest hm lcl cfg r := by
  have hn : ∀ ledger : Uint32, ledger.val ≤ cfg.toLedger.val + hm.getCheckpointFrequency.val →
      hm.Numbers ledger := fun ledger h => ⟨by omega, .inr (by omega)⟩
  obtain ⟨r, hr, hinv, hplan⟩ := calculateCatchupRange_ok hm h4
    (fun ledger h => hn ledger (by omega)) h2 hlt
  refine ⟨r, by rw [make, hr, ok_bind, hinv], ?_⟩
  have hlast := hplan.last hlt
  have hcheckpoints : ∀ low, low < cfg.toLedger →
      ∃ cr, CheckpointRange.make ⟨low + 1, cfg.toLedger - low⟩ hm = .ok cr ∧ ∀ checkpoint,
        cr.Contains checkpoint ↔ ∃ ledger,
          LedgerRange.Contains ⟨low + 1, cfg.toLedger - low⟩ ledger ∧
            hm.checkpointContainingLedger ledger = checkpoint := by
    intro low hlow
    obtain ⟨-, hpos, hle, hlast⟩ := replay_above hlow
    have hend := hn cfg.toLedger (Nat.le_add_right _ _)
    have hnums : ∀ ledger, ledger ≤ cfg.toLedger → hm.Numbers ledger :=
      fun ledger h => hn ledger (le_trans h (Nat.le_add_right _ _))
    obtain ⟨n, -, hlo, -, hn1⟩ := hend.spec
    have hmake := CheckpointRange.make_cases (by omega) (hnums _ hle) (hlast.symm ▸ hend) hpos.ne'
      (hle.trans_eq hlast.symm) (.inr (by rw [hlast]; omega))
    rw [hlast, if_neg (by omega)] at hmake
    exact ⟨_, hmake, fun checkpoint => CheckpointRange.contains_iff (by omega) hlow hnums⟩
  have hsub : (cfg.toLedger - lcl).val = cfg.toLedger.val - lcl.val := sub_val_of_le hlt.le
  have hends : ∀ b : Uint32, b ≤ cfg.toLedger → hm.isLastLedgerInCheckpoint b = true →
      hm.getCheckpointFrequency.val ∣ b.val + 1 := fun b hle =>
    (hn b (le_trans hle (Nat.le_add_right _ _))).isLastLedgerInCheckpoint_iff.mp
  cases hplan with
  | replay hwhy =>
    refine ⟨hinv, hlast, fun _ ledger => LedgerRange.contains_above hlt, (nomatch ·), fun _ => rfl,
      (Nat.min_le_right _ _).trans_eq hsub.symm, fun _ => hwhy.imp_right fun hwhy b hb hle hend => ?_,
      (nomatch ·), fun _ => hcheckpoints lcl hlt⟩
    have hge := Nat.le_of_dvd (Nat.succ_pos _) (hends b hle hend)
    have hb' : lcl.val < b.val := hb
    have hle' : b.val ≤ cfg.toLedger.val := hle
    rw [le_def, hsub] at hwhy
    omega
  | @buckets b hlcl hcount hdvd hle hless =>
    have hge := Nat.le_of_dvd (Nat.succ_pos _) hdvd
    have h2' : lcl.val = 2 := congrArg val hlcl
    have hcount' : cfg.count.val < cfg.toLedger.val - lcl.val := hsub ▸ hcount
    have hb := hn b (by omega)
    have hto : b ≠ cfg.toLedger → b < cfg.toLedger :=
      fun h => lt_of_le_of_ne (le_def.mpr (by omega)) h
    refine ⟨hinv, hlast, (nomatch ·), fun _ => ⟨?_, ?_, fun ledger => ?_⟩, ?_, ?_, (nomatch ·), ?_, ?_⟩
    · exact lt_def.mpr (show lcl.val < b.val by omega)
    · exact hb.isLastLedgerInCheckpoint_iff.mpr hdvd
    · split
      · next heq =>
        exact iff_of_false (fun h => Nat.not_lt_zero _ h.2)
          fun h => absurd (heq ▸ h.1) (not_lt.mpr h.2)
      · next hne => exact LedgerRange.contains_above (hto hne)
    · rintro (h | h)
      · exact absurd hlcl h.ne'
      · exact absurd hcount (not_lt.mpr h)
    · refine (Nat.min_le_left _ _).trans ?_
      split
      · next heq =>
        rw [← heq] at hle hcount'
        exact le_of_eq (show cfg.count.val = 0 by omega)
      · next hne =>
        rw [sub_val_of_le (hto hne).le]
        omega
    · intro _ b' hlt' hle' hb'
      have hstep := add_le_of_dvd hdvd (hends b' hle' hb') (Nat.succ_lt_succ hlt')
      have hle'' : b'.val ≤ cfg.toLedger.val := hle'
      omega
    · split
      · exact fun h => absurd rfl h
      · next hne => exact fun _ => hcheckpoints b (hto hne)

theorem make_shortest_ten : ∃ r, make 2 ⟨130, none, 10⟩ ⟨64⟩ = .ok r ∧
    Shortest ⟨64⟩ 2 ⟨130, none, 10⟩ r :=
  make_shortest ⟨64⟩ (by decide) (by decide) (by decide) (by decide)

end CatchupRange

end DigitalBits.Catchup
