import DigitalBits.Scp.Types
import Mathlib.Tactic

/-!
# Verifying the ledger headers of an archive

`VerifyLedgerChainWork` reads the header files of a range, the newest checkpoint first. Each file
must be a chain of headers; its last header must have the hash that the file of the checkpoint
ahead asks for, or the trusted hash at the end of the range.
-/
namespace DigitalBits.Catchup
open Scp

/-- `HistoryManager`, as far as the numbering of checkpoints depends on it. -/
structure HistoryManager where
  getCheckpointFrequency : Uint32

/-- `HistoryManagerImpl`. -/
structure HistoryManagerImpl extends HistoryManager where
  ARTIFICIALLY_ACCELERATE_TIME_FOR_TESTING : Bool
  frequency : getCheckpointFrequency = if ARTIFICIALLY_ACCELERATE_TIME_FOR_TESTING then 8 else 64

def HistoryManagerImpl.make (accelerate : Bool) : HistoryManagerImpl :=
  ⟨⟨if accelerate then 8 else 64⟩, accelerate, rfl⟩

instance : Coe HistoryManagerImpl HistoryManager := ⟨HistoryManagerImpl.toHistoryManager⟩

namespace HistoryManager
variable (hm : HistoryManager)

def checkpointContainingLedger (ledger : Uint32) : Uint32 :=
  ((ledger / hm.getCheckpointFrequency) + 1) * hm.getCheckpointFrequency - 1

def isLastLedgerInCheckpoint (ledger : Uint32) : Bool :=
  hm.checkpointContainingLedger ledger = ledger

def sizeOfCheckpointContaining (ledger : Uint32) : Uint32 :=
  if ledger < hm.getCheckpointFrequency then hm.getCheckpointFrequency - 1
  else hm.getCheckpointFrequency

def firstLedgerInCheckpointContaining (ledger : Uint32) : Uint32 :=
  hm.checkpointContainingLedger ledger - (hm.sizeOfCheckpointContaining ledger - 1)

end HistoryManager

/-- `LedgerRange`. -/
structure LedgerRange where
  mFirst : Uint32
  mCount : Uint32
  deriving DecidableEq, Repr

namespace LedgerRange

def limit (r : LedgerRange) : Uint32 := r.mFirst + r.mCount

/-- `last`, which throws for an empty range. -/
def last (r : LedgerRange) : Uint32 := r.limit - 1

end LedgerRange

/-- A ledger header. What is hashed and not read here is `others`. -/
structure LedgerHeader where
  ledgerVersion : Uint32
  previousLedgerHash : Hash
  bucketListHash : Hash
  ledgerSeq : Uint32
  others : List (Fin 256)
  deriving DecidableEq, Repr

structure LedgerHeaderHistoryEntry where
  hash : Hash
  header : LedgerHeader
  deriving DecidableEq, Repr

/-- The header files of an archive by their checkpoints. -/
abbrev HeaderFiles := Uint32 → Option (List LedgerHeaderHistoryEntry)

/-- A default constructed entry. -/
def noEntry : LedgerHeaderHistoryEntry := ⟨0, ⟨0, 0, 0, 0, []⟩⟩

inductive LedgerVerificationStatus where
  | VERIFY_STATUS_OK
  | VERIFY_STATUS_ERR_BAD_HASH
  | VERIFY_STATUS_ERR_BAD_LEDGER_VERSION
  | VERIFY_STATUS_ERR_OVERSHOT
  | VERIFY_STATUS_ERR_UNDERSHOT
  | VERIFY_STATUS_ERR_MISSING_ENTRIES
  deriving DecidableEq, Repr

/-- The states of a work that the steps return. -/
inductive WorkState where
  | WORK_RUNNING
  | WORK_SUCCESS
  | WORK_FAILURE
  deriving DecidableEq, Repr

/-- What ends the process: a failed assertion, or an exception that nobody catches. -/
inductive Crash where
  | assertion (text : String)
  | exception (text : String)
  deriving DecidableEq, Repr

def currentLedgerProtocolVersion : Uint32 := 15

/-- What a verification is given: the range, the last closed ledger, the trusted hash. -/
structure VerifyParams where
  hm : HistoryManagerImpl
  sha256 : LedgerHeader → Hash
  mRange : LedgerRange
  mLastClosed : Uint32 × Hash
  mTrustedMaxLedger : Uint32 × Option Hash

/-- The members of `VerifyLedgerChainWork` that change. -/
structure VerifyLedgerChainWork where
  mCurrCheckpoint : Uint32
  mVerifiedAhead : Uint32 × Option Hash
  mVerifiedMinLedgerPrev : Option (Uint32 × Hash)
  mMaxVerifiedLedgerOfMinCheckpoint : LedgerHeaderHistoryEntry
  mVerifiedLedgers : List (Uint32 × Hash)

namespace VerifyLedgerChainWork
open LedgerVerificationStatus
variable (p : VerifyParams)

def verifyLedgerHistoryEntry (hhe : LedgerHeaderHistoryEntry) : LedgerVerificationStatus :=
  if p.sha256 hhe.header ≠ hhe.hash then VERIFY_STATUS_ERR_BAD_HASH else VERIFY_STATUS_OK

def verifyLedgerHistoryLink (prev : Hash) (curr : LedgerHeaderHistoryEntry) :
    LedgerVerificationStatus :=
  if verifyLedgerHistoryEntry p curr ≠ VERIFY_STATUS_OK then verifyLedgerHistoryEntry p curr
  else if prev ≠ curr.header.previousLedgerHash then VERIFY_STATUS_ERR_BAD_HASH
  else VERIFY_STATUS_OK

/-- The comparison of a header with the last closed ledger. -/
def verifyLastClosed (curr : LedgerHeaderHistoryEntry) : LedgerVerificationStatus :=
  if curr.header.ledgerSeq = p.mLastClosed.1 then
    if p.sha256 curr.header ≠ p.mLastClosed.2 then VERIFY_STATUS_ERR_BAD_HASH else VERIFY_STATUS_OK
  else if curr.header.ledgerSeq = p.mLastClosed.1 + 1 then
    verifyLedgerHistoryLink p p.mLastClosed.2 curr
  else VERIFY_STATUS_OK

/-- The comparison of a header with the one before it in the file; the first has none. -/
def verifyPrevious (prev : Option LedgerHeaderHistoryEntry) (curr : LedgerHeaderHistoryEntry) :
    LedgerVerificationStatus :=
  match prev with
  | none => verifyLedgerHistoryEntry p curr
  | some prev =>
    let expectedSeq := prev.header.ledgerSeq + 1
    if curr.header.ledgerSeq < expectedSeq then VERIFY_STATUS_ERR_UNDERSHOT
    else if curr.header.ledgerSeq > expectedSeq then VERIFY_STATUS_ERR_OVERSHOT
    else verifyLedgerHistoryLink p prev.hash curr

/-- The checks of one round of the loop over a file. -/
def verifyHeader (prev : Option LedgerHeaderHistoryEntry) (curr : LedgerHeaderHistoryEntry) :
    LedgerVerificationStatus :=
  if curr.header.ledgerVersion > currentLedgerProtocolVersion then
    VERIFY_STATUS_ERR_BAD_LEDGER_VERSION
  else if verifyLastClosed p curr ≠ VERIFY_STATUS_OK then verifyLastClosed p curr
  else verifyPrevious p prev curr

/-- The loop over a file: the last header it reads, or the check that fails. -/
def scan (prev : Option LedgerHeaderHistoryEntry) :
    List LedgerHeaderHistoryEntry →
      Except LedgerVerificationStatus (Option LedgerHeaderHistoryEntry)
  | [] => .ok prev
  | curr :: rest =>
    if verifyHeader p prev curr ≠ VERIFY_STATUS_OK then .error (verifyHeader p prev curr)
    else if curr.header.ledgerSeq = p.mRange.last then .ok (some curr)
    else scan (some curr) rest

def verifyLastLedgerInCheckpoint (ledger : LedgerHeaderHistoryEntry)
    (verifiedAhead : Uint32 × Option Hash) : Except Crash LedgerVerificationStatus :=
  if ledger.header.ledgerSeq ≠ verifiedAhead.1 then
    .error (.assertion "ledger.header.ledgerSeq == verifiedAhead.first")
  else
    match verifiedAhead.2 with
    | none => .ok VERIFY_STATUS_OK
    | some trustedHash =>
      .ok (if ledger.hash ≠ trustedHash then VERIFY_STATUS_ERR_BAD_HASH else VERIFY_STATUS_OK)

/-- The hash link that the last header of the file has to agree with. The future is ready, and
holds the end of the range. -/
def incomingLink (curr : LedgerHeaderHistoryEntry) (mVerifiedAhead : Uint32 × Option Hash) :
    Except Crash (Uint32 × Option Hash) :=
  if curr.header.ledgerSeq = p.mRange.last then
    if mVerifiedAhead.1 ≠ 0 then .error (.assertion "incoming.first == 0")
    else if mVerifiedAhead.2 ≠ none then .error (.assertion "incoming.second.get() == nullptr")
    else if p.mTrustedMaxLedger.1 ≠ curr.header.ledgerSeq then
      .error (.assertion "incoming.first == curr.header.ledgerSeq")
    else .ok p.mTrustedMaxLedger
  else if mVerifiedAhead.2 = none then .error (.assertion "incoming.second")
  else if mVerifiedAhead.1 = 0 then .error (.assertion "incoming.first != 0")
  else .ok mVerifiedAhead

/-- `verifyHistoryOfSingleCheckpoint` on the content of the file. -/
def verifyHistoryOfSingleCheckpoint (file : List LedgerHeaderHistoryEntry)
    (w : VerifyLedgerChainWork) :
    Except Crash (LedgerVerificationStatus × VerifyLedgerChainWork) :=
  match scan p none file with
  | .error status => .ok (status, w)
  | .ok read =>
    let curr := read.getD noEntry
    let first := file.head?.getD noEntry
    if curr.header.ledgerSeq ≠ w.mCurrCheckpoint ∧ curr.header.ledgerSeq ≠ p.mRange.last then
      .ok (VERIFY_STATUS_ERR_MISSING_ENTRIES, w)
    else
      let outgoing := (first.header.ledgerSeq - 1, first.header.previousLedgerHash)
      match incomingLink p curr w.mVerifiedAhead with
      | .error e => .error e
      | .ok incoming =>
        let w := { w with mVerifiedAhead := (outgoing.1, some outgoing.2) }
        match verifyLastLedgerInCheckpoint curr incoming with
        | .error e => .error e
        | .ok VERIFY_STATUS_OK =>
          let w :=
            if w.mCurrCheckpoint = p.hm.checkpointContainingLedger p.mRange.mFirst then
              { w with
                mVerifiedMinLedgerPrev := some (w.mVerifiedMinLedgerPrev.getD outgoing)
                mMaxVerifiedLedgerOfMinCheckpoint := curr }
            else w
          .ok (VERIFY_STATUS_OK, { w with
            mVerifiedLedgers := w.mVerifiedLedgers ++ [(curr.header.ledgerSeq, curr.hash)] })
        | .ok status =>
          if incoming.2 = none then .error (.assertion "incoming.second") else .ok (status, w)

/-- The work before its first run. -/
def onReset : VerifyLedgerChainWork where
  mCurrCheckpoint :=
    if p.mRange.mCount = 0 then 0 else p.hm.checkpointContainingLedger p.mRange.last
  mVerifiedAhead := (0, none)
  mVerifiedMinLedgerPrev := none
  mMaxVerifiedLedgerOfMinCheckpoint := noEntry
  mVerifiedLedgers := []

/-- `onRun`; a file that is not there is the exception it catches. -/
def onRun (files : HeaderFiles) (w : VerifyLedgerChainWork) :
    Except Crash (WorkState × VerifyLedgerChainWork) :=
  if p.mRange.mCount = 0 then .ok (.WORK_SUCCESS, w)
  else if w.mCurrCheckpoint < p.hm.checkpointContainingLedger p.mRange.mFirst then
    .error (.exception "Verification undershot first ledger in the range.")
  else
    match files w.mCurrCheckpoint with
    | none => .ok (.WORK_FAILURE, w)
    | some file =>
      match verifyHistoryOfSingleCheckpoint p file w with
      | .error e => .error e
      | .ok (VERIFY_STATUS_OK, w) =>
        if w.mCurrCheckpoint = p.hm.checkpointContainingLedger p.mRange.mFirst then
          .ok (.WORK_SUCCESS, w)
        else
          .ok (.WORK_RUNNING,
            { w with mCurrCheckpoint := w.mCurrCheckpoint - p.hm.getCheckpointFrequency })
      | .ok (_, w) => .ok (.WORK_FAILURE, w)

end VerifyLedgerChainWork

/-! ## Checkpoints -/

/-- Multiples are a frequency apart. -/
theorem add_le_of_dvd {freq a b : ℕ} (ha : freq ∣ a) (hb : freq ∣ b) (hlt : a < b) :
    a + freq ≤ b := by
  have hle := Nat.le_of_dvd (Nat.sub_pos_of_lt hlt) (Nat.dvd_sub hb ha)
  omega

/-- The number of the checkpoint that contains a ledger does not wrap. -/
structure HistoryManager.Numbers (hm : HistoryManager) (ledger : Uint32) : Prop where
  pos : 0 < hm.getCheckpointFrequency.val
  bound : hm.getCheckpointFrequency.val ∣ 2 ^ 32 ∨
    ledger.val + hm.getCheckpointFrequency.val ≤ 2 ^ 32

/-- A checkpoint is numbered by the last ledger before a multiple of the frequency. -/
theorem HistoryManager.Numbers.spec {hm : HistoryManager} {ledger : Uint32}
    (h : hm.Numbers ledger) : ∃ m, hm.getCheckpointFrequency.val ∣ m ∧ m ≤ ledger.val ∧
      ledger.val < m + hm.getCheckpointFrequency.val ∧
      (hm.checkpointContainingLedger ledger).val + 1 = m + hm.getCheckpointFrequency.val := by
  obtain ⟨hpos, hbound⟩ := h
  have hledger := ledger.isLt
  unfold checkpointContainingLedger
  generalize hm.getCheckpointFrequency = freq at *
  have hlo := Nat.div_mul_le_self ledger.val freq.val
  have hhi := Nat.lt_div_mul_add (a := ledger.val) hpos
  have hdvd : freq.val ∣ ledger.val / freq.val * freq.val := Nat.dvd_mul_left _ _
  have hmul : (((ledger / freq) + 1) * freq).val =
      (ledger.val / freq.val * freq.val + freq.val) % 2 ^ 32 := by
    rw [Fin.val_mul, Fin.val_add, Nat.mod_mul_mod, ← Nat.succ_mul]
    rfl
  refine ⟨_, hdvd, hlo, hhi, ?_⟩
  rw [Fin.sub_def, hmul]
  generalize ledger.val / freq.val * freq.val = m at *
  have hle : m + freq.val ≤ 2 ^ 32 :=
    hbound.elim (fun h => add_le_of_dvd hdvd h (hlo.trans_lt hledger)) fun h => by omega
  have h1 : (1 : Uint32).val = 1 := rfl
  dsimp only
  omega

theorem HistoryManager.Numbers.mono {hm : HistoryManager} {a b : Uint32} (ha : hm.Numbers a)
    (hb : hm.Numbers b) (hle : a ≤ b) :
    hm.checkpointContainingLedger a ≤ hm.checkpointContainingLedger b := by
  obtain ⟨m, hm', hlo, hhi, hma⟩ := ha.spec
  obtain ⟨n, hn, hlo', hhi', hnb⟩ := hb.spec
  have hmn : m ≤ n := by
    by_contra hlt
    have hstep := add_le_of_dvd hn hm' (not_le.mp hlt)
    rw [Fin.le_def] at hle
    omega
  rw [Fin.le_def]
  omega

namespace HistoryManagerImpl
variable (hm : HistoryManagerImpl)

theorem dvd : hm.getCheckpointFrequency.val ∣ 2 ^ 32 := by
  rw [hm.frequency]
  split <;> decide

theorem getCheckpointFrequency_val :
    hm.getCheckpointFrequency.val = 8 ∨ hm.getCheckpointFrequency.val = 64 := by
  rw [hm.frequency]
  split
  · exact .inl rfl
  · exact .inr rfl

theorem numbers (ledger : Uint32) : hm.Numbers ledger := by
  have hfreq := hm.getCheckpointFrequency_val
  exact ⟨by omega, .inl hm.dvd⟩

variable {c ledger : Uint32}

/-- A ledger number above a checkpoint is not below the frequency. -/
theorem getCheckpointFrequency_le (hlt : hm.checkpointContainingLedger ledger < c) :
    hm.getCheckpointFrequency ≤ c := by
  obtain ⟨m, -, -, -, hm'⟩ := (hm.numbers ledger).spec
  rw [Fin.lt_def] at hlt
  rw [Fin.le_def]
  omega

theorem sub_getCheckpointFrequency_lt (hlt : hm.checkpointContainingLedger ledger < c) :
    (c - hm.getCheckpointFrequency).val < c.val := by
  have hle := hm.getCheckpointFrequency_le hlt
  have hpos := (hm.numbers ledger).pos
  rw [Fin.sub_val_of_le hle]
  rw [Fin.le_def] at hle
  omega

/-- One checkpoint down from a checkpoint above another one. -/
theorem sub_getCheckpointFrequency (hc : hm.getCheckpointFrequency.val ∣ c.val + 1)
    (hlt : hm.checkpointContainingLedger ledger < c) :
    (c - hm.getCheckpointFrequency).val + hm.getCheckpointFrequency.val = c.val ∧
      hm.checkpointContainingLedger ledger ≤ c - hm.getCheckpointFrequency ∧
      hm.getCheckpointFrequency.val ∣ (c - hm.getCheckpointFrequency).val + 1 := by
  obtain ⟨m, hdvd, -, -, hm'⟩ := (hm.numbers ledger).spec
  have hle := hm.getCheckpointFrequency_le hlt
  have hval := Fin.sub_val_of_le hle
  rw [Fin.le_def] at hle
  rw [Fin.lt_def] at hlt
  rw [Fin.le_def, hval]
  have hstep := add_le_of_dvd (Nat.dvd_add_self_right.mpr hdvd) hc (by omega)
  refine ⟨by omega, by omega, ?_⟩
  rw [← Nat.sub_add_comm hle]
  exact Nat.dvd_sub hc (Nat.dvd_refl _)

end HistoryManagerImpl

namespace VerifyLedgerChainWork
open LedgerVerificationStatus
variable (p : VerifyParams)

/-- A file that is verified leaves the checkpoint as it is. -/
theorem verifyHistory_mCurrCheckpoint {file : List LedgerHeaderHistoryEntry}
    {w w' : VerifyLedgerChainWork} {status : LedgerVerificationStatus}
    (h : verifyHistoryOfSingleCheckpoint p file w = .ok (status, w')) :
    w'.mCurrCheckpoint = w.mCurrCheckpoint := by
  revert h
  fun_cases verifyHistoryOfSingleCheckpoint p file w <;>
    simp only [Except.ok.injEq, Prod.mk.injEq, reduceCtorEq, false_imp_iff, and_imp] <;> rintro - rfl
  case case5 w₁ _ w₂ =>
    unfold w₂
    split <;> rfl
  all_goals rfl

/-- The work goes on at a lower checkpoint. -/
theorem onRun_running {files : HeaderFiles}
    {w w' : VerifyLedgerChainWork} (h : onRun p files w = .ok (.WORK_RUNNING, w')) :
    w'.mCurrCheckpoint.val < w.mCurrCheckpoint.val := by
  revert h
  fun_cases onRun p files w <;> rintro ⟨⟩
  case case6 hnot _ _ _ hfile hne =>
    have hsame := verifyHistory_mCurrCheckpoint p hfile
    rw [hsame] at hne ⊢
    exact p.hm.sub_getCheckpointFrequency_lt (lt_of_le_of_ne (not_lt.mp hnot) (Ne.symm hne))

/-- The runs of the work until it is done. -/
def run (files : HeaderFiles) (w : VerifyLedgerChainWork) :
    Except Crash (WorkState × VerifyLedgerChainWork) :=
  match _h : onRun p files w with
  | .error e => .error e
  | .ok (.WORK_RUNNING, w') => run files w'
  | .ok (.WORK_SUCCESS, w') => .ok (.WORK_SUCCESS, w')
  | .ok (.WORK_FAILURE, w') => .ok (.WORK_FAILURE, w')
termination_by w.mCurrCheckpoint.val
decreasing_by exact onRun_running p _h

theorem run_eq (files : HeaderFiles) (w : VerifyLedgerChainWork) :
    run p files w =
      match onRun p files w with
      | .error e => .error e
      | .ok (.WORK_RUNNING, w') => run p files w'
      | .ok (.WORK_SUCCESS, w') => .ok (.WORK_SUCCESS, w')
      | .ok (.WORK_FAILURE, w') => .ok (.WORK_FAILURE, w') := by
  rw [run]
  split <;> simp_all

end VerifyLedgerChainWork

end DigitalBits.Catchup
