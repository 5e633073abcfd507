import DigitalBits.Catchup.HeaderChain
import DigitalBits.Catchup.CatchupRange

/-!
# Catchup up to the verified headers

`CatchupWork` asks an archive for its state, computes the range to catch up, downloads and verifies
the headers and compares the state of the buckets with them. What an archive returns reaches
assertions and exceptions on the way; the conditions under which it does not are exact.
-/
namespace DigitalBits.Catchup
open Scp

/-- `HistoryArchiveState`. The hash of the bucket list is missing if a bucket hash of the state is
no hexadecimal number, and the computation throws. -/
structure HistoryArchiveState where
  currentLedger : Uint32
  networkPassphrase : String
  getBucketListHash : Option Hash

/-- What an archive has; a file that cannot be downloaded is missing. -/
structure HistoryArchive where
  getState : Uint32 → Option HistoryArchiveState
  getHeaders : HeaderFiles

/-- What `CatchupWork` is given. -/
structure CatchupWork where
  hm : HistoryManagerImpl
  sha256 : LedgerHeader → Hash
  NETWORK_PASSPHRASE : String
  mLastClosedLedgerHashPair : Uint32 × Hash
  mCatchupConfiguration : CatchupConfiguration
  mArchive : HistoryArchive

namespace CatchupWork
variable (c : CatchupWork)

/-- The state that the first step asks for. -/
def toCheckpoint : Uint32 :=
  if c.mCatchupConfiguration.toLedger = CatchupConfiguration.CURRENT then
    CatchupConfiguration.CURRENT
  else c.hm.checkpointContainingLedger c.mCatchupConfiguration.toLedger

/-- The parameters of the verification. -/
def verifyParams (catchupRange : CatchupRange) : VerifyParams where
  hm := c.hm
  sha256 := c.sha256
  mRange := catchupRange.getFullRangeIncludingBucketApply
  mLastClosed := c.mLastClosedLedgerHashPair
  mTrustedMaxLedger := (catchupRange.last, c.mCatchupConfiguration.hash)

/-- The header files after the download. -/
def localFiles (r : CheckpointRange) : HeaderFiles := fun checkpoint =>
  if checkpoint ∈ r.downloads then c.mArchive.getHeaders checkpoint else none

/-- `downloadVerifyLedgerChain`, and the download and the verification it starts. The result is
`mVerifiedLedgerRangeStart`, or nothing after a failure. -/
def downloadVerifyLedgerChain (catchupRange : CatchupRange) :
    Except Crash (Option LedgerHeaderHistoryEntry) := do
  let verifyRange := catchupRange.getFullRangeIncludingBucketApply
  assert (verifyRange.mCount ≠ 0) "verifyRange.mCount != 0"
  let checkpointRange ← CheckpointRange.make verifyRange c.hm
  assert (c.mLastClosedLedgerHashPair.1 ≥ genesisLedgerSeq)
    "lastClosedLedger.first >= LedgerManager::GENESIS_LEDGER_SEQ"
  if checkpointRange.downloads.any fun i => (c.mArchive.getHeaders i).isNone then return none
  else
    let p := c.verifyParams catchupRange
    let (state, w) ← VerifyLedgerChainWork.run p (c.localFiles checkpointRange)
      (VerifyLedgerChainWork.onReset p)
    return if state = .WORK_SUCCESS then some w.mMaxVerifiedLedgerOfMinCheckpoint else none

/-- `assertBucketState`. -/
def assertBucketState (has : HistoryArchiveState)
    (mVerifiedLedgerRangeStart : LedgerHeaderHistoryEntry) : Except Crash Unit := do
  assert (has.currentLedger = mVerifiedLedgerRangeStart.header.ledgerSeq)
    "has.currentLedger == mVerifiedLedgerRangeStart.header.ledgerSeq"
  match has.getBucketListHash with
  | none => .error (.exception "hexToBin")
  | some hash =>
    assert (hash = mVerifiedLedgerRangeStart.header.bucketListHash)
      "has.getBucketListHash() == mVerifiedLedgerRangeStart.header.bucketListHash"
    if mVerifiedLedgerRangeStart.header.ledgerSeq < c.mLastClosedLedgerHashPair.1 then
      .error (.exception "Catchup MINIMAL applying ledger earlier than local LCL")
    else .ok ()

/-- The headers and the bucket state, once all states are there. -/
def verifyAndCompare (catchupRange : CatchupRange) (bucketState : Option HistoryArchiveState) :
    Except Crash WorkState := do
  let start ← c.downloadVerifyLedgerChain catchupRange
  match start, bucketState with
  | none, _ => return .WORK_FAILURE
  | some _, none => return .WORK_SUCCESS
  | some start, some has =>
    c.assertBucketState has start
    return .WORK_SUCCESS

/-- The steps of `runCatchupStep` from the bucket state on, once there is a range. -/
def runInRange (has : HistoryArchiveState) (catchupRange : CatchupRange) :
    Except Crash WorkState :=
  if catchupRange.mApplyBuckets then
    let applyBucketsAt := catchupRange.mApplyBucketsAtLedger
    if applyBucketsAt = has.currentLedger then c.verifyAndCompare catchupRange (some has)
    else
      match c.mArchive.getState applyBucketsAt with
      | none => .ok .WORK_FAILURE
      | some bucketState => c.verifyAndCompare catchupRange (some bucketState)
  else c.verifyAndCompare catchupRange none

/-- The steps of `runCatchupStep` in their order, up to the bucket state. Each call of it starts
from the first step and computes the same range. -/
def runCatchupSteps : Except Crash WorkState :=
  match c.mArchive.getState c.toCheckpoint with
  | none => .ok .WORK_FAILURE
  | some has =>
    if has.networkPassphrase ≠ "" ∧ has.networkPassphrase ≠ c.NETWORK_PASSPHRASE then
      .ok .WORK_FAILURE
    else if ¬ c.mLastClosedLedgerHashPair.1 ≤ has.currentLedger then .ok .WORK_FAILURE
    else do
      let catchupRange ← CatchupRange.make c.mLastClosedLedgerHashPair.1
        (c.mCatchupConfiguration.resolve has.currentLedger) c.hm
      c.runInRange has catchupRange

end CatchupWork

/-! ## What an archive has to be like -/

namespace CatchupWork
open VerifyLedgerChainWork
variable (c : CatchupWork)

/-- What the verification of the ledgers from `first` to `target` is given. -/
def paramsFrom (first target : Uint32) : VerifyParams where
  hm := c.hm
  sha256 := c.sha256
  mRange := ⟨first, target - first + 1⟩
  mLastClosed := c.mLastClosedLedgerHashPair
  mTrustedMaxLedger := (target, c.mCatchupConfiguration.hash)

abbrev checkpointsFrom (first target : Uint32) : CheckpointRange :=
  CheckpointRange.ofLedgerRange ⟨first, target - first + 1⟩ c.hm

/-- The ledgers after the last closed one are replayed: the node is past ledger 2, or no end of a
checkpoint leaves as many ledgers to replay as are asked for. -/
def Replays (target : Uint32) : Prop :=
  2 < c.mLastClosedLedgerHashPair.1 ∨
    target - c.mLastClosedLedgerHashPair.1 ≤ c.mCatchupConfiguration.count ∨
    target.val - c.mCatchupConfiguration.count.val + 1 < c.hm.getCheckpointFrequency.val

/-- Buckets are applied at `b`, the latest end of a checkpoint that leaves as many ledgers to replay
as are asked for. -/
structure AppliesBucketsAt (target b : Uint32) : Prop where
  lcl : c.mLastClosedLedgerHashPair.1 = 2
  count : c.mCatchupConfiguration.count < target - c.mLastClosedLedgerHashPair.1
  dvd : c.hm.getCheckpointFrequency.val ∣ b.val + 1
  le : b.val ≤ target.val - c.mCatchupConfiguration.count.val
  lt : target.val - c.mCatchupConfiguration.count.val < b.val + c.hm.getCheckpointFrequency.val

/-- The number after the last checkpoint is no ledger number. Nothing is downloaded then if the
first checkpoint is the lowest; otherwise an assertion fails. -/
abbrev Wraps (target : Uint32) : Prop := 2 ^ 32 ≤ target.val + c.hm.getCheckpointFrequency.val

/-- The checkpoints do not wrap, and each header file, if they are all there, starts and ends where
it should once the files above it pass. -/
structure HeadersFit (first target : Uint32) : Prop where
  noWrap : c.hm.getCheckpointFrequency ≤ first → ¬ c.Wraps target
  inPlace : ¬ c.Wraps target →
    (∀ i, Between (c.paramsFrom first target) i → (c.mArchive.getHeaders i).isSome = true) →
    Fits (c.paramsFrom first target) c.mArchive.getHeaders

/-- If every header file passes, the bucket state is for ledger `b`, with the hash of the bucket list
in the last header of the file of `b`. -/
def BucketsFit (b target : Uint32) (has : HistoryArchiveState) : Prop :=
  ¬ c.Wraps target →
    (∀ i, Between (c.paramsFrom b target) i → Passes (c.paramsFrom b target) c.mArchive.getHeaders i) →
    ∀ file e, c.mArchive.getHeaders b = some file → (readPart target file).getLast? = some e →
      has.currentLedger = b ∧ has.getBucketListHash = some e.header.bucketListHash

/-- What an archive has to be like for catchup to end by itself. -/
def Graceful : Prop :=
  ∀ has, c.mArchive.getState c.toCheckpoint = some has →
    ¬ (has.networkPassphrase ≠ "" ∧ has.networkPassphrase ≠ c.NETWORK_PASSPHRASE) →
    c.mLastClosedLedgerHashPair.1 ≤ has.currentLedger →
    let target := (c.mCatchupConfiguration.resolve has.currentLedger).toLedger
    2 ≤ c.mLastClosedLedgerHashPair.1 ∧ c.mLastClosedLedgerHashPair.1 < target ∧
    (c.Replays target → c.HeadersFit (c.mLastClosedLedgerHashPair.1 + 1) target) ∧
    ∀ b, c.AppliesBucketsAt target b → ∀ bucketState,
      (if b = has.currentLedger then some has else c.mArchive.getState b) = some bucketState →
      c.HeadersFit b target ∧ c.BucketsFit b target bucketState

variable {c} {r : CatchupRange} {first target : Uint32}

theorem paramsFrom_last : (c.paramsFrom first target).mRange.last = target := by
  simp [paramsFrom, LedgerRange.last, LedgerRange.limit, ← add_assoc]

theorem valid_paramsFrom (hpos : 0 < first) (hle : first ≤ target) :
    Valid (c.paramsFrom first target) :=
  ⟨hpos, hle.trans_eq paramsFrom_last.symm, paramsFrom_last.symm⟩

/-- Two computations in a row end if the first ends and the second ends on its result. -/
theorem exists_bind_ok {α β : Type} {x : Except Crash α} {k : α → Except Crash β} :
    (∃ b, (x >>= k) = .ok b) ↔ ∃ a, x = .ok a ∧ ∃ b, k a = .ok b := by
  cases x <;> simp [bind, Except.bind]

theorem bind_ok {α β : Type} {x : Except Crash α} {k : α → Except Crash β} {b : β}
    (h : (x >>= k) = .ok b) : ∃ a, x = .ok a ∧ k a = .ok b := by
  cases x with
  | error e => cases h
  | ok a => exact ⟨a, rfl, h⟩

theorem exists_assert_bind {α : Type} {condition : Prop} [Decidable condition] {text : String}
    {k : Unit → Except Crash α} :
    (∃ b, (assert condition text >>= k) = .ok b) ↔ condition ∧ ∃ b, k () = .ok b := by
  rw [exists_bind_ok, assert]
  split <;> simp_all [Unique.exists_iff]

/-! ## The verification of a range -/

section
variable (hpos : 0 < first) (hle : first ≤ target)

include hpos hle

theorem make_checkpointRange :
    if c.hm.getCheckpointFrequency ≤ first ∧ c.Wraps target then
      ∃ e, CheckpointRange.make ⟨first, target - first + 1⟩ c.hm = .error e
    else CheckpointRange.make ⟨first, target - first + 1⟩ c.hm =
      .ok (c.checkpointsFrom first target) := by
  have hp := valid_paramsFrom (c := c) hpos hle
  have hfreq := c.hm.getCheckpointFrequency_val
  have hmake := CheckpointRange.make_cases (r := ⟨first, target - first + 1⟩) (by omega)
    (c.hm.numbers _) (c.hm.numbers _) (mCount_ne_zero hp) hp.first_le (.inl c.hm.dvd)
  have hlast : LedgerRange.last ⟨first, target - first + 1⟩ = target := paramsFrom_last (c := c)
  rwa [hlast] at hmake

theorem mem_downloads_iff (hwrap : ¬ c.Wraps target) {i : Uint32} :
    i ∈ (c.checkpointsFrom first target).downloads ↔
      Between (c.paramsFrom first target) i := by
  have hp := valid_paramsFrom (c := c) hpos hle
  have hfreq := c.hm.getCheckpointFrequency_val
  have hlast : LedgerRange.last ⟨first, target - first + 1⟩ = target := paramsFrom_last (c := c)
  obtain ⟨m, hm, hlo, -, htop⟩ := (c.hm.numbers target).spec
  have hstep := add_le_of_dvd (Nat.dvd_add_self_right.mpr hm) c.hm.dvd (by omega)
  have hmem := CheckpointRange.mem_downloads (r := ⟨first, target - first + 1⟩) (i := i)
    (by omega) (c.hm.numbers _) (c.hm.numbers _) (mCount_ne_zero hp) hp.first_le
    (by rw [hlast]; omega)
  exact hmem.trans ⟨fun h => ⟨h.1, h.2.1, h.2.2⟩, fun h => ⟨h.bottom_le, h.le_top, h.dvd⟩⟩

/-- Where the checkpoints wrap, nothing is downloaded. -/
theorem downloads_of_wraps (hwrap : c.Wraps target) :
    (c.checkpointsFrom first target).downloads = [] := by
  have hp := valid_paramsFrom (c := c) hpos hle
  have hfreq := c.hm.getCheckpointFrequency_val
  have hlast : LedgerRange.last ⟨first, target - first + 1⟩ = target := paramsFrom_last (c := c)
  obtain ⟨-, -, -, hlimit⟩ := CheckpointRange.counts (r := ⟨first, target - first + 1⟩)
    (by omega) (c.hm.numbers _) (c.hm.numbers _) (mCount_ne_zero hp) hp.first_le
  obtain ⟨m, hm, hlo, hhi, htop⟩ := (c.hm.numbers target).spec
  obtain ⟨n, hn, hlo', -, hbottom⟩ := (c.hm.numbers first).spec
  rw [hlast] at hlimit
  refine CheckpointRange.downloads_eq_nil (Fin.le_def.mpr ?_)
  rw [hlimit]
  change _ ≤ (c.hm.checkpointContainingLedger first).val
  have hlt := (c.hm.checkpointContainingLedger target).isLt
  omega

theorem localFiles_fit (hwrap : c.Wraps target) : Fits (c.paramsFrom first target)
    (c.localFiles (c.checkpointsFrom first target)) := by
  intro i _ _ file e hends
  have hfile := hends.held
  simp [localFiles, downloads_of_wraps hpos hle hwrap] at hfile

theorem localFiles_eq (hwrap : ¬ c.Wraps target) (i : Uint32)
    (hi : Between (c.paramsFrom first target) i) :
    c.localFiles (c.checkpointsFrom first target) i =
      c.mArchive.getHeaders i :=
  if_pos ((mem_downloads_iff hpos hle hwrap).mpr hi)

variable (hrange : r.getFullRangeIncludingBucketApply = ⟨first, target - first + 1⟩)
  (hlast : r.last = target) (hlcl : 2 ≤ c.mLastClosedLedgerHashPair.1)

include hrange hlast hlcl

/-- Without a wrap the files of the range are downloaded, and are verified if they are all there. -/
theorem downloadVerifyLedgerChain_eq (hwrap : ¬ (c.hm.getCheckpointFrequency ≤ first ∧ c.Wraps target)) :
    c.downloadVerifyLedgerChain r =
      if (c.checkpointsFrom first target).downloads.any fun i => (c.mArchive.getHeaders i).isNone then
        .ok none
      else run (c.paramsFrom first target)
        (c.localFiles (c.checkpointsFrom first target))
        (onReset (c.paramsFrom first target)) >>= fun x =>
          .ok (if x.1 = .WORK_SUCCESS then some x.2.mMaxVerifiedLedgerOfMinCheckpoint else none) := by
  have hmake := make_checkpointRange (c := c) hpos hle
  rw [if_neg hwrap] at hmake
  have hgenesis : c.mLastClosedLedgerHashPair.1 ≥ genesisLedgerSeq := by
    refine le_trans ?_ hlcl
    decide
  have hparams : c.verifyParams r = c.paramsFrom first target := by
    rw [verifyParams, hrange, hlast, paramsFrom]
  have hcount : target - first + 1 ≠ 0 := mCount_ne_zero (valid_paramsFrom (c := c) hpos hle)
  unfold downloadVerifyLedgerChain
  rw [hparams, hrange]
  dsimp only
  rw [assert_bind hcount, hmake, ok_bind, assert_bind hgenesis]
  rfl

theorem downloadVerifyLedgerChain_ok_iff :
    (∃ start, c.downloadVerifyLedgerChain r = .ok start) ↔ c.HeadersFit first target := by
  have hp := valid_paramsFrom (c := c) hpos hle
  by_cases hcrash : c.hm.getCheckpointFrequency ≤ first ∧ c.Wraps target
  · have hmake := make_checkpointRange (c := c) hpos hle
    rw [if_pos hcrash] at hmake
    obtain ⟨e, he⟩ := hmake
    rw [downloadVerifyLedgerChain, exists_assert_bind, exists_bind_ok, hrange, he]
    simpa using fun h : c.HeadersFit first target => h.noWrap hcrash.1 hcrash.2
  rw [downloadVerifyLedgerChain_eq hpos hle hrange hlast hlcl hcrash]
  by_cases hwrap : c.Wraps target
  · refine iff_of_true ?_ ⟨fun h => absurd ⟨h, hwrap⟩ hcrash, fun h => absurd hwrap h⟩
    rw [downloads_of_wraps hpos hle hwrap, if_neg (by simp), exists_bind_ok]
    obtain ⟨state, w, hrun⟩ := (run_iff_fits hp).mpr (localFiles_fit hpos hle hwrap)
    exact ⟨_, hrun, _, rfl⟩
  by_cases hall : ∀ i, Between (c.paramsFrom first target) i → (c.mArchive.getHeaders i).isSome = true
  · rw [if_neg (by simpa [mem_downloads_iff hpos hle hwrap, ← Option.isSome_iff_ne_none] using hall),
      exists_bind_ok]
    have hfits := (run_iff_fits hp).trans (fits_congr hp (localFiles_eq hpos hle hwrap))
    constructor
    · rintro ⟨⟨state, w⟩, hrun, -⟩
      exact ⟨fun _ => hwrap, fun _ _ => hfits.mp ⟨state, w, hrun⟩⟩
    · intro h
      obtain ⟨state, w, hrun⟩ := hfits.mpr (h.inPlace hwrap hall)
      exact ⟨_, hrun, _, rfl⟩
  · rw [if_pos (by simpa [mem_downloads_iff hpos hle hwrap, ← Option.isNone_iff_eq_none] using hall)]
    exact iff_of_true ⟨_, rfl⟩ ⟨fun _ => hwrap, fun _ h => absurd h hall⟩

omit hrange hlast hlcl in
/-- The file of each checkpoint below the highest has one above it that is not empty. -/
theorem end_bottom (hpass : ∀ i, Between (c.paramsFrom first target) i →
      Passes (c.paramsFrom first target) c.mArchive.getHeaders i) {file : List LedgerHeaderHistoryEntry}
    {e : LedgerHeaderHistoryEntry}
    (hfile : c.mArchive.getHeaders (bottom (c.paramsFrom first target)) = some file)
    (he : (readPart target file).getLast? = some e) :
    e.header.ledgerSeq = bottom (c.paramsFrom first target) ∨
      bottom (c.paramsFrom first target) = top (c.paramsFrom first target) ∧ e.header.ledgerSeq = target := by
  have hp := valid_paramsFrom (c := c) hpos hle
  have hbottom := between_bottom hp
  obtain ⟨first', rest, e', haccepted⟩ := hpass _ hbottom
  have hplaced := haccepted.placed
  have he' := haccepted.last
  rw [haccepted.file] at hfile
  cases hfile
  rw [paramsFrom_last, he] at he'
  cases he'
  unfold Placed above at hplaced
  by_cases htop : bottom (c.paramsFrom first target) = top (c.paramsFrom first target)
  · rw [if_pos htop] at hplaced
    exact .inr ⟨htop, hplaced.trans paramsFrom_last⟩
  · obtain ⟨first'', rest', _, haccepted'⟩ := hpass _ (hbottom.add hp htop).2
    rw [if_neg htop, haccepted'.file] at hplaced
    exact .inl hplaced.1

/-- The last header of the lowest file is handed on if every file passes. -/
theorem downloadVerifyLedgerChain_some_iff (hfit : c.HeadersFit first target)
    (e : LedgerHeaderHistoryEntry) :
    c.downloadVerifyLedgerChain r = .ok (some e) ↔ ¬ c.Wraps target ∧
      (∀ i, Between (c.paramsFrom first target) i →
        Passes (c.paramsFrom first target) c.mArchive.getHeaders i) ∧
      ∃ file, c.mArchive.getHeaders (bottom (c.paramsFrom first target)) = some file ∧
        (readPart target file).getLast? = some e := by
  have hp := valid_paramsFrom (c := c) hpos hle
  have hsuccess : ∀ files : HeaderFiles, (run (c.paramsFrom first target) files
      (onReset (c.paramsFrom first target)) >>= fun x => (.ok (if x.1 = .WORK_SUCCESS then
        some x.2.mMaxVerifiedLedgerOfMinCheckpoint else none) : Except Crash _)) = .ok (some e) ↔
      ∃ w, run (c.paramsFrom first target) files (onReset (c.paramsFrom first target)) =
        .ok (.WORK_SUCCESS, w) ∧ w.mMaxVerifiedLedgerOfMinCheckpoint = e := by
    intro files
    cases run (c.paramsFrom first target) files (onReset (c.paramsFrom first target)) with
    | error e => simp [bind, Except.bind]
    | ok x =>
      obtain ⟨state, w⟩ := x
      rw [ok_bind]
      cases state <;> simp
  rw [downloadVerifyLedgerChain_eq hpos hle hrange hlast hlcl fun h => hfit.noWrap h.1 h.2]
  by_cases hwrap : c.Wraps target
  · refine iff_of_false ?_ fun h => h.1 hwrap
    rw [downloads_of_wraps hpos hle hwrap, if_neg (by simp), hsuccess, run_success_iff hp]
    rintro ⟨-, file, hfile, -⟩
    simp [localFiles, downloads_of_wraps hpos hle hwrap] at hfile
  have hfiles := localFiles_eq (c := c) hpos hle hwrap
  rw [and_iff_right hwrap]
  by_cases hall : ∀ i, Between (c.paramsFrom first target) i → (c.mArchive.getHeaders i).isSome = true
  · rw [if_neg (by simpa [mem_downloads_iff hpos hle hwrap, ← Option.isSome_iff_ne_none] using hall),
      hsuccess, run_success_iff hp, hfiles _ (between_bottom hp), paramsFrom_last]
    exact and_congr_left' (forall₂_congr fun i hi => passes_congr hp hfiles hi)
  · rw [if_pos (by simpa [mem_downloads_iff hpos hle hwrap, ← Option.isNone_iff_eq_none] using hall)]
    refine iff_of_false nofun fun h => hall fun i hi => ?_
    obtain ⟨_, _, _, haccepted⟩ := h.1 i hi
    rw [haccepted.file]
    rfl

/-- Without buckets. -/
theorem verifyAndCompare_none :
    (∃ state, c.verifyAndCompare r none = .ok state) ↔ c.HeadersFit first target := by
  rw [← downloadVerifyLedgerChain_ok_iff hpos hle hrange hlast hlcl, verifyAndCompare, exists_bind_ok]
  refine exists_congr fun start => and_iff_left ?_
  cases start <;> exact ⟨_, rfl⟩

end

theorem assertBucketState_ok_iff {has : HistoryArchiveState} {e : LedgerHeaderHistoryEntry}
    (hlt : ¬ e.header.ledgerSeq < c.mLastClosedLedgerHashPair.1) :
    (∃ u, c.assertBucketState has e = .ok u) ↔ has.currentLedger = e.header.ledgerSeq ∧
      has.getBucketListHash = some e.header.bucketListHash := by
  rw [assertBucketState, exists_assert_bind]
  cases has.getBucketListHash with
  | none => simp
  | some hash => simp [exists_assert_bind, hlt]

/-! ## The plans -/

section
variable {b : Uint32}

theorem AppliesBucketsAt.not_replays (h : c.AppliesBucketsAt target b) : ¬ c.Replays target := by
  rintro (hlcl | hcount | hlt)
  · exact hlcl.ne' h.lcl
  · exact absurd h.count (not_lt.mpr hcount)
  · have hge := Nat.le_of_dvd (Nat.succ_pos _) h.dvd
    have hle := h.le
    omega

theorem AppliesBucketsAt.unique {b' : Uint32} (h : c.AppliesBucketsAt target b)
    (h' : c.AppliesBucketsAt target b') : b' = b := by
  have hlt := h.lt
  have hlt' := h'.lt
  have hle := h.le
  have hle' := h'.le
  rcases Nat.lt_trichotomy b.val b'.val with hb | hb | hb
  · have hstep := add_le_of_dvd h.dvd h'.dvd (Nat.succ_lt_succ hb)
    omega
  · exact (Fin.ext hb).symm
  · have hstep := add_le_of_dvd h'.dvd h.dvd (Nat.succ_lt_succ hb)
    omega

/-- Buckets are applied at the end of a checkpoint after the last closed ledger. -/
theorem AppliesBucketsAt.spec (h : c.AppliesBucketsAt target b) : 0 < b ∧ b ≤ target ∧
    c.mLastClosedLedgerHashPair.1 ≤ b ∧ c.hm.checkpointContainingLedger b = b := by
  have hge := Nat.le_of_dvd (Nat.succ_pos _) h.dvd
  have hfreq := c.hm.getCheckpointFrequency_val
  have hle := h.le
  refine ⟨Fin.lt_def.mpr (show 0 < b.val by omega), Fin.le_def.mpr (by omega), ?_, ?_⟩
  · rw [h.lcl]
    exact Fin.le_def.mpr (show 2 ≤ b.val by omega)
  · exact of_decide_eq_true ((c.hm.numbers b).isLastLedgerInCheckpoint_iff.mpr h.dvd)

/-- With buckets. -/
theorem verifyAndCompare_some (h : c.AppliesBucketsAt target b)
    (hrange : r.getFullRangeIncludingBucketApply = ⟨b, target - b + 1⟩) (hlast : r.last = target)
    (has : HistoryArchiveState) :
    (∃ state, c.verifyAndCompare r (some has) = .ok state) ↔
      c.HeadersFit b target ∧ c.BucketsFit b target has := by
  obtain ⟨hpos, hle, hlcl, hbottom⟩ := h.spec
  have h2 : 2 ≤ c.mLastClosedLedgerHashPair.1 := h.lcl.ge
  have hbottom' : bottom (c.paramsFrom b target) = b := hbottom
  have htop' : top (c.paramsFrom b target) = c.hm.checkpointContainingLedger target := by
    rw [top, paramsFrom_last]
    rfl
  -- the lowest file is the one of `b`, and ends there
  have hend : ∀ e, (∀ i, Between (c.paramsFrom b target) i →
      Passes (c.paramsFrom b target) c.mArchive.getHeaders i) → (∃ file, c.mArchive.getHeaders b =
      some file ∧ (readPart target file).getLast? = some e) → e.header.ledgerSeq = b := by
    rintro e hpass ⟨file, hfile, he⟩
    rcases end_bottom hpos hle hpass (hbottom'.symm ▸ hfile) he with hseq | ⟨htop, hseq⟩
    · exact hseq.trans hbottom'
    · obtain ⟨m, -, -, hhi, hm⟩ := (c.hm.numbers target).spec
      rw [hbottom', htop'] at htop
      refine hseq.trans (le_antisymm (Fin.le_def.mpr ?_) hle)
      rw [htop]
      omega
  have hstart := fun hfit e => downloadVerifyLedgerChain_some_iff (c := c) hpos hle hrange hlast h2 hfit e
  rw [hbottom'] at hstart
  have hok := downloadVerifyLedgerChain_ok_iff (c := c) hpos hle hrange hlast h2
  rw [verifyAndCompare, exists_bind_ok]
  constructor
  · rintro ⟨start, hstart', hrest⟩
    have hfit := hok.mp ⟨start, hstart'⟩
    refine ⟨hfit, fun hwrap hpass file e hfile he => ?_⟩
    rw [(hstart hfit e).mpr ⟨hwrap, hpass, file, hfile, he⟩] at hstart'
    cases hstart'
    have hseq := hend e hpass ⟨file, hfile, he⟩
    obtain ⟨u, hu, -⟩ := exists_bind_ok.mp hrest
    rw [← hseq]
    exact (assertBucketState_ok_iff (by rw [hseq]; exact not_lt.mpr hlcl)).mp ⟨u, hu⟩
  · rintro ⟨hfit, hbuckets⟩
    obtain ⟨start, hstart'⟩ := hok.mpr hfit
    refine ⟨start, hstart', ?_⟩
    cases start with
    | none => exact ⟨_, rfl⟩
    | some e =>
      obtain ⟨hwrap, hpass, file, hfile, he⟩ := (hstart hfit e).mp hstart'
      have hseq := hend e hpass ⟨file, hfile, he⟩
      have hfits := hbuckets hwrap hpass file e hfile he
      rw [← hseq] at hfits
      obtain ⟨u, hu⟩ :=
        (assertBucketState_ok_iff (by rw [hseq]; exact not_lt.mpr hlcl)).mpr hfits
      exact exists_bind_ok.mpr ⟨u, hu, _, rfl⟩

end

variable {state : WorkState}

theorem verifyAndCompare_state {bucketState : Option HistoryArchiveState}
    (h : c.verifyAndCompare r bucketState = .ok state) :
    state = .WORK_SUCCESS ∨ state = .WORK_FAILURE := by
  obtain ⟨start, -, h⟩ := bind_ok h
  split at h
  · cases h
    exact .inr rfl
  · cases h
    exact .inl rfl
  · obtain ⟨u, -, h⟩ := bind_ok h
    cases h
    exact .inl rfl

theorem runInRange_state {has : HistoryArchiveState} (h : c.runInRange has r = .ok state) :
    state = .WORK_SUCCESS ∨ state = .WORK_FAILURE := by
  revert h
  fun_cases runInRange c has r with
  | case1 => exact verifyAndCompare_state
  | case2 =>
    rintro ⟨⟩
    exact .inr rfl
  | case3 => exact verifyAndCompare_state
  | case4 => exact verifyAndCompare_state

/-- What becomes of the plan that is made for a target. -/
theorem runInRange_ok_iff (has : HistoryArchiveState) {cfg : CatchupConfiguration}
    (hcount : cfg.count = c.mCatchupConfiguration.count)
    (hplan : CatchupRange.Planned c.hm c.mLastClosedLedgerHashPair.1 cfg r)
    (hlcl : 2 ≤ c.mLastClosedLedgerHashPair.1) (hlt : c.mLastClosedLedgerHashPair.1 < cfg.toLedger) :
    (∃ state, c.runInRange has r = .ok state) ↔
      (c.Replays cfg.toLedger → c.HeadersFit (c.mLastClosedLedgerHashPair.1 + 1) cfg.toLedger) ∧
      ∀ b, c.AppliesBucketsAt cfg.toLedger b → ∀ bucketState,
        (if b = has.currentLedger then some has else c.mArchive.getState b) = some bucketState →
        c.HeadersFit b cfg.toLedger ∧ c.BucketsFit b cfg.toLedger bucketState := by
  have hlast := hplan.last hlt
  unfold runInRange
  cases hplan with
  | replay hwhy =>
    rw [hcount] at hwhy
    have hreplays : c.Replays cfg.toLedger := hwhy
    obtain ⟨hpos, -, hle, -⟩ := CatchupRange.replay_above hlt
    have hrange : (⟨false, 0, ⟨c.mLastClosedLedgerHashPair.1 + 1,
        cfg.toLedger - c.mLastClosedLedgerHashPair.1⟩⟩ : CatchupRange).getFullRangeIncludingBucketApply =
        ⟨c.mLastClosedLedgerHashPair.1 + 1, cfg.toLedger - (c.mLastClosedLedgerHashPair.1 + 1) + 1⟩ := by
      rw [sub_add_eq_sub_sub, sub_add_cancel]
      rfl
    rw [if_neg Bool.false_ne_true, verifyAndCompare_none hpos hle hrange hlast hlcl,
      forall_prop_of_true hreplays]
    exact (and_iff_left fun b hb => absurd hreplays hb.not_replays).symm
  | @buckets b hlcl' hcount' hdvd hle hlt' =>
    rw [hcount] at hcount' hle hlt'
    have hat : c.AppliesBucketsAt cfg.toLedger b := ⟨hlcl', hcount', hdvd, hle, hlt'⟩
    have hrange : (⟨true, b, if b = cfg.toLedger then ⟨0, 0⟩ else ⟨b + 1, cfg.toLedger - b⟩⟩ :
        CatchupRange).getFullRangeIncludingBucketApply = ⟨b, cfg.toLedger - b + 1⟩ := by
      unfold CatchupRange.getFullRangeIncludingBucketApply
      split <;> simp [*]
    have hcompare := verifyAndCompare_some hat hrange hlast
    have hone : ((c.Replays cfg.toLedger → c.HeadersFit (c.mLastClosedLedgerHashPair.1 + 1)
        cfg.toLedger) ∧ ∀ b', c.AppliesBucketsAt cfg.toLedger b' → ∀ bucketState,
        (if b' = has.currentLedger then some has else c.mArchive.getState b') = some bucketState →
        c.HeadersFit b' cfg.toLedger ∧ c.BucketsFit b' cfg.toLedger bucketState) ↔ ∀ bucketState,
        (if b = has.currentLedger then some has else c.mArchive.getState b) = some bucketState →
        c.HeadersFit b cfg.toLedger ∧ c.BucketsFit b cfg.toLedger bucketState :=
      ⟨fun h => h.2 b hat, fun h => ⟨fun hreplays => absurd hreplays hat.not_replays,
        fun b' hb' => hat.unique hb' ▸ h⟩⟩
    rw [hone, if_pos rfl]
    dsimp only
    by_cases hsame : b = has.currentLedger
    · rw [if_pos hsame, if_pos hsame, hcompare]
      simp
    · rw [if_neg hsame, if_neg hsame]
      cases hstate : c.mArchive.getState b with
      | none => simp
      | some bucketState =>
        rw [hcompare]
        simp

theorem runCatchupSteps_state (h : c.runCatchupSteps = .ok state) :
    state = .WORK_SUCCESS ∨ state = .WORK_FAILURE := by
  revert h
  fun_cases runCatchupSteps c with
  | case1 | case2 | case3 =>
    rintro ⟨⟩
    exact .inr rfl
  | case4 =>
    intro h
    obtain ⟨r, -, h⟩ := bind_ok h
    exact runInRange_state h

theorem runCatchupSteps_ok_iff : (∃ state, c.runCatchupSteps = .ok state) ↔ c.Graceful := by
  unfold Graceful
  fun_cases runCatchupSteps c with
  | case1 hhas => simp [hhas]
  | case2 has hhas hpass => simp [hhas, hpass]
  | case3 has hhas hpass hle => simp [hhas, hle]
  | case4 has hhas hpass hle =>
    rw [exists_bind_ok]
    simp only [hhas, Option.some.injEq, forall_eq', forall_prop_of_true hpass,
      forall_prop_of_true (not_not.mp hle)]
    by_cases hlcl : 2 ≤ c.mLastClosedLedgerHashPair.1 ∧ c.mLastClosedLedgerHashPair.1 <
        (c.mCatchupConfiguration.resolve has.currentLedger).toLedger
    · obtain ⟨r, hmake, hplan⟩ := CatchupRange.make_planned c.hm hlcl.1 hlcl.2
      have hcount : (c.mCatchupConfiguration.resolve has.currentLedger).count =
          c.mCatchupConfiguration.count := by
        unfold CatchupConfiguration.resolve
        split <;> rfl
      have hrun := runInRange_ok_iff has hcount hplan hlcl.1 hlcl.2
      rw [and_iff_right hlcl.1, and_iff_right hlcl.2, ← hrun]
      simp [hmake]
    · obtain ⟨e, he⟩ := CatchupRange.make_error c.hm hlcl
      simp only [he, reduceCtorEq, false_and, exists_false, false_iff]
      exact fun h => hlcl ⟨h.1, h.2.1⟩

/-- Catchup ends in success or in failure exactly if the archive is graceful; otherwise an assertion
or an exception takes the process down. -/
theorem catchup_ends_iff : (c.runCatchupSteps = .ok .WORK_SUCCESS ∨
    c.runCatchupSteps = .ok .WORK_FAILURE) ↔ c.Graceful := by
  rw [← runCatchupSteps_ok_iff]
  constructor
  · rintro (h | h)
    · exact ⟨_, h⟩
    · exact ⟨_, h⟩
  · rintro ⟨state, h⟩
    obtain rfl | rfl := runCatchupSteps_state h
    · exact .inl h
    · exact .inr h

/-- A node at the end of the second checkpoint that catches up to the current state of an archive
which is no further than the node. -/
def inSync : CatchupWork where
  hm := .make false
  sha256 := fun _ => 0
  NETWORK_PASSPHRASE := ""
  mLastClosedLedgerHashPair := (127, 0)
  mCatchupConfiguration := ⟨CatchupConfiguration.CURRENT, none, 0⟩
  mArchive := ⟨fun _ => some ⟨127, "", none⟩, fun _ => none⟩

/-- `hasAnyLedgersToCatchupTo` lets a state pass that is not newer, and the range throws. -/
theorem inSync_throws : inSync.runCatchupSteps =
    .error (.exception "configuration.toLedger() <= lastClosedLedger") := by
  decide +kernel

end CatchupWork

end DigitalBits.Catchup
