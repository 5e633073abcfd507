import DigitalBits.Catchup.VerifyLedgerChainWork

/-!
# What a verified header chain is

The headers that a successful verification has read, from the lowest checkpoint up, are one chain
that ends with the trusted hash. Whether the chain starts early enough is not checked.
-/
namespace DigitalBits.Catchup
open Scp List Option
namespace VerifyLedgerChainWork
open LedgerVerificationStatus
variable (p : VerifyParams)

/-! ## One file -/

/-- The headers of a file that are read: those up to the end of the range. -/
def readPart (last : Uint32) : List LedgerHeaderHistoryEntry → List LedgerHeaderHistoryEntry
  | [] => []
  | e :: rest => if e.header.ledgerSeq = last then [e] else e :: readPart last rest

theorem readPart_cons (last : Uint32) (e : LedgerHeaderHistoryEntry)
    (rest : List LedgerHeaderHistoryEntry) :
    ∃ l, readPart last (e :: rest) = e :: l := by
  unfold readPart
  split <;> exact ⟨_, rfl⟩

/-- A header and the next one. -/
structure Linked (a b : LedgerHeaderHistoryEntry) : Prop where
  ledgerSeq : b.header.ledgerSeq = a.header.ledgerSeq + 1
  previousLedgerHash : b.header.previousLedgerHash = a.hash

/-- What each header passes by itself. -/
structure Checked (e : LedgerHeaderHistoryEntry) : Prop where
  ledgerVersion : e.header.ledgerVersion ≤ currentLedgerProtocolVersion
  hash : e.hash = p.sha256 e.header
  atLastClosed : e.header.ledgerSeq = p.mLastClosed.1 → e.hash = p.mLastClosed.2
  afterLastClosed : e.header.ledgerSeq = p.mLastClosed.1 + 1 →
    e.header.previousLedgerHash = p.mLastClosed.2

/-- The headers of a file that are read are a chain of checked headers. -/
structure Sound (file : List LedgerHeaderHistoryEntry) : Prop where
  chain : List.IsChain Linked (readPart p.mRange.last file)
  checked : ∀ e ∈ readPart p.mRange.last file, Checked p e

variable {p}

variable {e : LedgerHeaderHistoryEntry}

theorem verifyLedgerHistoryEntry_ok :
    verifyLedgerHistoryEntry p e = VERIFY_STATUS_OK ↔ e.hash = p.sha256 e.header := by
  simp [verifyLedgerHistoryEntry, eq_comm]

theorem verifyLedgerHistoryLink_ok {prev : Hash} :
    verifyLedgerHistoryLink p prev e = VERIFY_STATUS_OK ↔
      e.hash = p.sha256 e.header ∧ e.header.previousLedgerHash = prev := by
  rw [← verifyLedgerHistoryEntry_ok, verifyLedgerHistoryLink]
  split_ifs <;> simp_all [eq_comm]

theorem verifyPrevious_ok {prev : Option LedgerHeaderHistoryEntry} :
    verifyPrevious p prev e = VERIFY_STATUS_OK ↔
      e.hash = p.sha256 e.header ∧ ∀ a ∈ prev, Linked a e := by
  fun_cases verifyPrevious p prev e with
  | case1 => simp [verifyLedgerHistoryEntry_ok]
  | case2 a seq hlt => simpa using fun _ (hlinked : Linked a e) => hlt.ne hlinked.ledgerSeq
  | case3 a seq _ hgt => simpa using fun _ (hlinked : Linked a e) => hgt.ne' hlinked.ledgerSeq
  | case4 a seq hlt hgt =>
    have heq : e.header.ledgerSeq = a.header.ledgerSeq + 1 := le_antisymm (not_lt.mp hgt) (not_lt.mp hlt)
    rw [verifyLedgerHistoryLink_ok]
    refine and_congr_right fun _ => ⟨fun hprev => by simpa using Linked.mk heq hprev, fun h => ?_⟩
    exact (h a rfl).previousLedgerHash

theorem verifyHeader_ok {prev : Option LedgerHeaderHistoryEntry} :
    verifyHeader p prev e = VERIFY_STATUS_OK ↔ Checked p e ∧ ∀ a ∈ prev, Linked a e := by
  fun_cases verifyHeader p prev e with
  | case1 hversion =>
    simpa using fun hchecked : Checked p e => absurd hchecked.ledgerVersion (not_le.mpr hversion)
  | case2 _ hclosed =>
    refine iff_of_false hclosed fun h => hclosed ?_
    have hchecked := h.1
    rw [verifyLastClosed]
    split_ifs with hat hne hafter
    · exact absurd (hchecked.hash.symm.trans (hchecked.atLastClosed hat)) hne
    · rfl
    · exact verifyLedgerHistoryLink_ok.mpr ⟨hchecked.hash, hchecked.afterLastClosed hafter⟩
    · rfl
  | case3 hversion hclosed =>
    rw [verifyPrevious_ok]
    refine and_congr_left fun _ => ⟨fun hhash => ?_, Checked.hash⟩
    rw [not_not, verifyLastClosed] at hclosed
    refine ⟨not_lt.mp hversion, hhash, fun hat => ?_, fun hafter => ?_⟩
    · rw [if_pos hat, ← hhash] at hclosed
      simpa using hclosed
    · have hne : e.header.ledgerSeq ≠ p.mLastClosed.1 := by simp [hafter]
      rw [if_neg hne, if_pos hafter] at hclosed
      exact (verifyLedgerHistoryLink_ok.mp hclosed).2

variable {file : List LedgerHeaderHistoryEntry}

/-- A file is read to the end just if it is a chain of checked headers. The induction is on the
file, with the header before it. -/
theorem scan_ok {prev r : Option LedgerHeaderHistoryEntry} : scan p prev file = .ok r ↔
    (List.IsChain Linked (prev.toList ++ readPart p.mRange.last file) ∧
      ∀ e ∈ readPart p.mRange.last file, Checked p e) ∧
      (prev.toList ++ readPart p.mRange.last file).getLast? = r := by
  fun_induction scan p prev file with
  | case1 prev => cases prev <;> simp [readPart]
  | case2 prev e rest hheader =>
    obtain ⟨l, hl⟩ := readPart_cons p.mRange.last e rest
    refine iff_of_false nofun fun h => hheader (verifyHeader_ok.mpr ?_)
    rw [hl] at h
    exact ⟨h.1.2 e mem_cons_self, fun a ha => by simp_all⟩
  | case3 prev e rest hheader hlast =>
    obtain ⟨hchecked, hlinked⟩ := verifyHeader_ok.mp (not_not.mp hheader)
    rw [readPart, if_pos hlast]
    cases prev <;> simp_all
  | case4 prev e rest hheader hlast ih =>
    obtain ⟨hchecked, hlinked⟩ := verifyHeader_ok.mp (not_not.mp hheader)
    rw [ih, readPart, if_neg hlast]
    cases prev <;> simp_all

theorem scan_none_ok : scan p none file = .ok (some e) ↔
    Sound p file ∧ (readPart p.mRange.last file).getLast? = some e := by
  rw [scan_ok]
  exact and_congr_left' ⟨fun h => ⟨h.1, h.2⟩, fun h => ⟨h.chain, h.checked⟩⟩

/-! ## The files of a range -/

/-- The range is not empty, starts after zero, and the trusted hash is for its end. -/
structure Valid (p : VerifyParams) : Prop where
  first_pos : 0 < p.mRange.mFirst
  first_le : p.mRange.mFirst ≤ p.mRange.last
  trusted : p.mTrustedMaxLedger.1 = p.mRange.last

/-- The lowest and the highest checkpoint of the range. -/
def bottom (p : VerifyParams) : Uint32 := p.hm.checkpointContainingLedger p.mRange.mFirst
def top (p : VerifyParams) : Uint32 := p.hm.checkpointContainingLedger p.mRange.last

/-- A checkpoint of the range. -/
structure Between (p : VerifyParams) (c : Uint32) : Prop where
  bottom_le : bottom p ≤ c
  le_top : c ≤ top p
  dvd : p.hm.getCheckpointFrequency.val ∣ c.val + 1

/-- The first header of the file above, if there is one. -/
def above (p : VerifyParams) (files : HeaderFiles) (c : Uint32) : Option LedgerHeaderHistoryEntry :=
  if c = top p then none else (files (c + p.hm.getCheckpointFrequency)).bind head?

/-- Where a file ends: the highest at the end of the range; a lower one at its checkpoint, and the
file above starts with the next ledger. -/
def Placed (p : VerifyParams) (files : HeaderFiles) (c : Uint32) (e : LedgerHeaderHistoryEntry) :
    Prop :=
  match above p files c with
  | none => e.header.ledgerSeq = p.mRange.last
  | some first => e.header.ledgerSeq = c ∧ first.header.ledgerSeq = c + 1

/-- The hash that the end of a file has: the trusted one, or the one that the file above starts
from. -/
def Confirmed (p : VerifyParams) (files : HeaderFiles) (c : Uint32) (e : LedgerHeaderHistoryEntry) :
    Prop :=
  match above p files c with
  | none => ∀ hash, p.mTrustedMaxLedger.2 = some hash → e.hash = hash
  | some first => e.hash = first.header.previousLedgerHash

/-- The file of a checkpoint passes the verification. -/
@[mk_iff]
structure Accepted (p : VerifyParams) (files : HeaderFiles) (c : Uint32)
    (first : LedgerHeaderHistoryEntry) (rest : List LedgerHeaderHistoryEntry)
    (curr : LedgerHeaderHistoryEntry) : Prop where
  file : files c = some (first :: rest)
  sound : Sound p (first :: rest)
  last : (readPart p.mRange.last (first :: rest)).getLast? = some curr
  placed : Placed p files c curr
  confirmed : Confirmed p files c curr

def Passes (p : VerifyParams) (files : HeaderFiles) (c : Uint32) : Prop :=
  ∃ first rest curr, Accepted p files c first rest curr

/-- A sound file ends at its checkpoint or at the end of the range. -/
@[mk_iff]
structure Ends (p : VerifyParams) (files : HeaderFiles) (c : Uint32)
    (file : List LedgerHeaderHistoryEntry) (e : LedgerHeaderHistoryEntry) : Prop where
  held : files c = some file
  sound : Sound p file
  last : (readPart p.mRange.last file).getLast? = some e
  seq : e.header.ledgerSeq = c ∨ e.header.ledgerSeq = p.mRange.last

/-- Where all higher files pass, a file that ends at its checkpoint or at the end of the range ends
where it should. -/
def Fits (p : VerifyParams) (files : HeaderFiles) : Prop :=
  ∀ c, Between p c → (∀ c', Between p c' → c < c' → Passes p files c') →
    ∀ file e, Ends p files c file e → Placed p files c e

variable {files : HeaderFiles} {c : Uint32} {l : List LedgerHeaderHistoryEntry} {k : ℕ}

theorem Between.sub (h : Between p c) (hc : bottom p < c) :
    Between p (c - p.hm.getCheckpointFrequency) := by
  obtain ⟨-, hle, hdvd⟩ := p.hm.sub_getCheckpointFrequency h.dvd hc
  exact ⟨hle, (p.hm.sub_getCheckpointFrequency_lt hc).le.trans h.le_top, hdvd⟩

theorem between_top (hp : Valid p) : Between p (top p) := by
  obtain ⟨m, hm, -, -, htop⟩ := (p.hm.numbers p.mRange.last).spec
  exact ⟨(p.hm.numbers _).mono (p.hm.numbers _) hp.first_le, le_rfl,
    htop ▸ Nat.dvd_add_self_right.mpr hm⟩

theorem between_bottom (hp : Valid p) : Between p (bottom p) := by
  obtain ⟨m, hm, -, -, hbottom⟩ := (p.hm.numbers p.mRange.mFirst).spec
  exact ⟨le_rfl, (between_top hp).bottom_le, hbottom ▸ Nat.dvd_add_self_right.mpr hm⟩

/-- Checkpoints are a frequency apart. -/
theorem Between.add (hp : Valid p) (h : Between p c) (hc : c ≠ top p) :
    c < c + p.hm.getCheckpointFrequency ∧ Between p (c + p.hm.getCheckpointFrequency) := by
  have htop := between_top hp
  have hlt : c.val < (top p).val := Fin.lt_def.mp (lt_of_le_of_ne h.le_top hc)
  have hstep := add_le_of_dvd h.dvd htop.dvd (Nat.succ_lt_succ hlt)
  have hfreq := (p.hm.numbers c).pos
  have hval : (c + p.hm.getCheckpointFrequency).val = c.val + p.hm.getCheckpointFrequency.val := by
    have hlt' := (top p).isLt
    rw [Fin.val_add]
    exact Nat.mod_eq_of_lt (by omega)
  have hadd : c < c + p.hm.getCheckpointFrequency := by
    rw [Fin.lt_def]
    omega
  refine ⟨hadd, h.bottom_le.trans hadd.le, ?_, ?_⟩
  · rw [Fin.le_def]
    omega
  · rw [hval, Nat.add_right_comm]
    exact Nat.dvd_add_self_right.mpr h.dvd

theorem Between.eq_or_le {c' : Uint32} (h : Between p c) (h' : Between p c') (hc : bottom p < c)
    (hle : c - p.hm.getCheckpointFrequency ≤ c') :
    c' = c - p.hm.getCheckpointFrequency ∨ c ≤ c' := by
  obtain ⟨hsub, -, hdvd⟩ := p.hm.sub_getCheckpointFrequency h.dvd hc
  have hdvd' := h'.dvd
  rw [Fin.le_def] at hle ⊢
  rw [Fin.ext_iff]
  have hfreq := p.hm.getCheckpointFrequency_val
  generalize (c - p.hm.getCheckpointFrequency).val = d at *
  generalize p.hm.getCheckpointFrequency.val = freq at *
  rcases hfreq with rfl | rfl <;> omega

/-- Below the highest checkpoint the range does not end. -/
theorem Between.ne_last (hp : Valid p) (h : Between p c) (hc : c ≠ top p) : c ≠ p.mRange.last := by
  rintro rfl
  have hlt : p.mRange.last.val < (top p).val := Fin.lt_def.mp (lt_of_le_of_ne h.le_top hc)
  have hstep := add_le_of_dvd h.dvd (between_top hp).dvd (Nat.succ_lt_succ hlt)
  obtain ⟨m, -, hlo, -, htop⟩ := (p.hm.numbers p.mRange.last).spec
  change (top p).val + 1 = _ at htop
  omega

theorem Between.ne_zero (h : Between p c) : c ≠ 0 := by
  rintro rfl
  have hfreq := p.hm.getCheckpointFrequency_val
  have hle := Nat.le_of_dvd (Nat.succ_pos _) h.dvd
  have hzero : (0 : Uint32).val = 0 := rfl
  omega

section
variable {files' : HeaderFiles} (hp : Valid p) (h : ∀ c, Between p c → files c = files' c)

include hp h

/-- Only the files of the range matter. -/
theorem above_congr (hc : Between p c) : above p files c = above p files' c := by
  unfold above
  by_cases htop : c = top p
  · rw [if_pos htop, if_pos htop]
  · rw [if_neg htop, if_neg htop, h _ (hc.add hp htop).2]

theorem passes_congr (hc : Between p c) : Passes p files c ↔ Passes p files' c := by
  simp only [Passes, accepted_iff, Placed, Confirmed, h c hc, above_congr hp h hc]

theorem fits_congr : Fits p files ↔ Fits p files' := by
  refine forall₂_congr fun c hc => ?_
  simp only [ends_iff, Placed, h c hc, above_congr hp h hc]
  exact imp_congr_left (forall₂_congr fun c' hc' => imp_congr_right fun _ => passes_congr hp h hc')

end

variable {first curr : LedgerHeaderHistoryEntry} {rest : List LedgerHeaderHistoryEntry}

theorem Accepted.ends (h : Accepted p files c first rest curr) :
    Ends p files c (first :: rest) curr := by
  refine ⟨h.file, h.sound, h.last, ?_⟩
  have hplaced := h.placed
  unfold Placed at hplaced
  split at hplaced
  · exact .inr hplaced
  · exact .inl hplaced.1

/-- A file has one end. -/
theorem Ends.eq {file' : List LedgerHeaderHistoryEntry} {curr' : LedgerHeaderHistoryEntry}
    (h : Ends p files c file curr) (h' : Ends p files c file' curr') :
    file = file' ∧ curr = curr' := by
  obtain rfl := some.inj (h.held.symm.trans h'.held)
  exact ⟨rfl, some.inj (h.last.symm.trans h'.last)⟩

/-! ## One checkpoint -/

/-- The state after a file that starts with `first` and ends with `curr` was verified. -/
def accept (p : VerifyParams) (w : VerifyLedgerChainWork) (first curr : LedgerHeaderHistoryEntry) :
    VerifyLedgerChainWork :=
  let w := { w with
    mVerifiedAhead := (first.header.ledgerSeq - 1, some first.header.previousLedgerHash) }
  let w :=
    if w.mCurrCheckpoint = p.hm.checkpointContainingLedger p.mRange.mFirst then
      { w with
        mVerifiedMinLedgerPrev := some (w.mVerifiedMinLedgerPrev.getD
          (first.header.ledgerSeq - 1, first.header.previousLedgerHash))
        mMaxVerifiedLedgerOfMinCheckpoint := curr }
    else w
  { w with mVerifiedLedgers := w.mVerifiedLedgers ++ [(curr.header.ledgerSeq, curr.hash)] }

theorem accept_mVerifiedAhead (p : VerifyParams) (w : VerifyLedgerChainWork)
    (first curr : LedgerHeaderHistoryEntry) :
    (accept p w first curr).mVerifiedAhead =
      (first.header.ledgerSeq - 1, some first.header.previousLedgerHash) := by
  unfold accept
  dsimp only
  split <;> rfl

/-- A work that is about to look at a file of the range. -/
structure Awaits (p : VerifyParams) (files : HeaderFiles) (w : VerifyLedgerChainWork) : Prop where
  between : Between p w.mCurrCheckpoint
  passed : ∀ c, Between p c → w.mCurrCheckpoint < c → Passes p files c
  ahead : w.mVerifiedAhead = (above p files w.mCurrCheckpoint).elim (0, none)
    fun first => (first.header.ledgerSeq - 1, some first.header.previousLedgerHash)

variable {w : VerifyLedgerChainWork}

theorem mCount_ne_zero (hp : Valid p) : p.mRange.mCount ≠ 0 := by
  intro hzero
  have hle := hp.first_le
  rw [LedgerRange.last, LedgerRange.limit, hzero, add_zero] at hle
  have hone : (1 : Uint32) ≤ p.mRange.mFirst := hp.first_pos
  rw [Fin.le_def, Fin.sub_val_of_le hone] at hle
  rw [Fin.le_def] at hone
  have hone' : (1 : Uint32).val = 1 := rfl
  omega

theorem onReset_mCurrCheckpoint (hp : Valid p) : (onReset p).mCurrCheckpoint = top p :=
  if_neg (mCount_ne_zero hp)

theorem awaits_onReset (hp : Valid p) : Awaits p files (onReset p) := by
  have hcheckpoint := onReset_mCurrCheckpoint hp
  refine ⟨hcheckpoint ▸ between_top hp, fun c hc hlt => ?_, ?_⟩
  · exact absurd hc.le_top (not_le.mpr (hcheckpoint ▸ hlt))
  · rw [above, if_pos hcheckpoint]
    rfl

theorem scan_none_head (h : scan p none file = .ok (some curr)) :
    ∃ first rest, file = first :: rest := by
  cases file with
  | nil => cases h
  | cons first rest => exact ⟨first, rest, rfl⟩

theorem scan_error_ne {prev : Option LedgerHeaderHistoryEntry} {status : LedgerVerificationStatus}
    (h : scan p prev file = .error status) : status ≠ VERIFY_STATUS_OK := by
  fun_induction scan p prev file with
  | case1 => cases h
  | case2 _ _ _ hheader =>
    cases h
    exact hheader
  | case3 => cases h
  | case4 _ _ _ _ _ ih => exact ih h

/-- A file that ends where it should meets the link it has to agree with. -/
theorem incomingLink_of_placed (hp : Valid p) (hw : Awaits p files w)
    (hplaced : Placed p files w.mCurrCheckpoint curr) :
    ∃ incoming, incomingLink p curr w.mVerifiedAhead = .ok incoming ∧
      curr.header.ledgerSeq = incoming.1 ∧
      ((∀ hash, incoming.2 = some hash → curr.hash = hash) ↔
        Confirmed p files w.mCurrCheckpoint curr) := by
  have hahead := hw.ahead
  unfold Placed at hplaced
  unfold incomingLink Confirmed
  cases habove : above p files w.mCurrCheckpoint with
  | none =>
    rw [habove] at hplaced hahead
    refine ⟨p.mTrustedMaxLedger, ?_, hplaced.trans hp.trusted.symm, Iff.rfl⟩
    rw [if_pos hplaced, hahead, hp.trusted, hplaced]
    simp
  | some first =>
    rw [habove] at hplaced hahead
    have hne : curr.header.ledgerSeq ≠ p.mRange.last := by
      rw [hplaced.1]
      refine hw.between.ne_last hp fun htop => ?_
      simp [above, htop] at habove
    have hseq : w.mVerifiedAhead.1 = w.mCurrCheckpoint := by
      rw [hahead]
      exact sub_eq_iff_eq_add.mpr hplaced.2
    refine ⟨w.mVerifiedAhead, ?_, hplaced.1.trans hseq.symm, by simp [hahead]⟩
    rw [if_neg hne, if_neg (by simp [hahead]), if_neg (hseq ▸ hw.between.ne_zero)]

/-- A file that ends elsewhere meets an assertion. -/
theorem incomingLink_of_not_placed (hw : Awaits p files w)
    (hends : Ends p files w.mCurrCheckpoint file curr)
    (hplaced : ¬ Placed p files w.mCurrCheckpoint curr) :
    (∃ e, incomingLink p curr w.mVerifiedAhead = .error e) ∨
    ∃ incoming, incomingLink p curr w.mVerifiedAhead = .ok incoming ∧
      curr.header.ledgerSeq ≠ incoming.1 := by
  have hahead := hw.ahead
  unfold Placed at hplaced
  unfold incomingLink
  cases habove : above p files w.mCurrCheckpoint with
  | none =>
    rw [habove] at hplaced hahead
    rw [if_neg hplaced, if_pos (by rw [hahead]; rfl)]
    exact .inl ⟨_, rfl⟩
  | some first =>
    rw [habove] at hplaced hahead
    rw [hahead, elim_some]
    by_cases hlast : curr.header.ledgerSeq = p.mRange.last
    · rw [if_pos hlast]
      left
      split
      · exact ⟨_, rfl⟩
      · exact ⟨_, if_pos (some_ne_none _)⟩
    · have hcurr := hends.seq.resolve_right hlast
      rw [if_neg hlast, if_neg (some_ne_none _)]
      split
      · exact .inl ⟨_, rfl⟩
      · refine .inr ⟨_, rfl, fun heq => hplaced ⟨hcurr, ?_⟩⟩
        exact sub_eq_iff_eq_add.mp (heq.symm.trans hcurr)

/-- What becomes of a file: it is refused, it is accepted, or it ends at the wrong place and an
assertion fails. -/
theorem verifyHistory_cases (hp : Valid p) (hw : Awaits p files w)
    (hfile : files w.mCurrCheckpoint = some file) :
    (∃ status w', status ≠ VERIFY_STATUS_OK ∧
      verifyHistoryOfSingleCheckpoint p file w = .ok (status, w') ∧
      ∀ curr, Ends p files w.mCurrCheckpoint file curr → Placed p files w.mCurrCheckpoint curr ∧
        ¬ Confirmed p files w.mCurrCheckpoint curr) ∨
    (∃ first rest curr, file = first :: rest ∧
      Accepted p files w.mCurrCheckpoint first rest curr ∧
      verifyHistoryOfSingleCheckpoint p file w = .ok (VERIFY_STATUS_OK, accept p w first curr)) ∨
    (∃ curr e, Ends p files w.mCurrCheckpoint file curr ∧
      ¬ Placed p files w.mCurrCheckpoint curr ∧
      verifyHistoryOfSingleCheckpoint p file w = .error e) := by
  unfold verifyHistoryOfSingleCheckpoint
  cases hscan : scan p none file with
  | error status =>
    refine .inl ⟨status, w, scan_error_ne hscan, rfl, fun curr hends => ?_⟩
    rw [scan_none_ok.mpr ⟨hends.sound, hends.last⟩] at hscan
    cases hscan
  | ok read =>
    dsimp only
    cases read with
    | none =>
      have hlast : p.mRange.last ≠ 0 := (hp.first_pos.trans_le hp.first_le).ne'
      have hmissing : (noEntry.header.ledgerSeq ≠ w.mCurrCheckpoint ∧
          noEntry.header.ledgerSeq ≠ p.mRange.last) :=
        ⟨hw.between.ne_zero.symm, hlast.symm⟩
      rw [getD_none, if_pos hmissing]
      refine .inl ⟨_, w, by decide, rfl, fun curr hends => ?_⟩
      rw [scan_none_ok.mpr ⟨hends.sound, hends.last⟩] at hscan
      cases hscan
    | some curr =>
      obtain ⟨first, rest, rfl⟩ := scan_none_head hscan
      obtain ⟨hsound, hlast⟩ := scan_none_ok.mp hscan
      rw [getD_some]
      by_cases hmissing : curr.header.ledgerSeq ≠ w.mCurrCheckpoint ∧
          curr.header.ledgerSeq ≠ p.mRange.last
      · rw [if_pos hmissing]
        refine .inl ⟨_, w, by decide, rfl, fun curr' hends => ?_⟩
        obtain rfl := some.inj (hlast.symm.trans hends.last)
        exact absurd hends.seq (not_or.mpr hmissing)
      · rw [if_neg hmissing]
        have hends : Ends p files w.mCurrCheckpoint (first :: rest) curr :=
          ⟨hfile, hsound, hlast, by_contra fun hnot => hmissing (not_or.mp hnot)⟩
        by_cases hplaced : Placed p files w.mCurrCheckpoint curr
        · obtain ⟨incoming, hincoming, hseq, hconfirmed⟩ := incomingLink_of_placed hp hw hplaced
          rw [hincoming]
          dsimp only
          rw [verifyLastLedgerInCheckpoint, if_neg (not_not.mpr hseq)]
          by_cases hhash : Confirmed p files w.mCurrCheckpoint curr
          · right; left
            refine ⟨first, rest, curr, rfl, ⟨hfile, hsound, hlast, hplaced, hhash⟩, ?_⟩
            cases htrusted : incoming.2 with
            | none => rfl
            | some hash => simp [hconfirmed.mpr hhash hash htrusted, accept]
          · left
            cases htrusted : incoming.2 with
            | none => exact absurd (hconfirmed.mp (by simp [htrusted])) hhash
            | some hash =>
              have hne : curr.hash ≠ hash := fun heq => hhash (hconfirmed.mp (by simp [htrusted, heq]))
              dsimp only
              rw [if_pos hne]
              refine ⟨VERIFY_STATUS_ERR_BAD_HASH, _, by decide, rfl, fun curr' hends' => ?_⟩
              obtain ⟨-, rfl⟩ := hends.eq hends'
              exact ⟨hplaced, hhash⟩
        · right; right
          rcases incomingLink_of_not_placed hw hends hplaced with ⟨e, he⟩ | ⟨incoming, hok, hne⟩
          · rw [he]
            exact ⟨curr, e, hends, hplaced, rfl⟩
          · rw [hok]
            dsimp only
            rw [verifyLastLedgerInCheckpoint, if_pos hne]
            exact ⟨curr, _, hends, hplaced, rfl⟩

/-! ## Whole runs -/

/-- The work after an accepted file, about to look at the next lower one. -/
def lower (p : VerifyParams) (w : VerifyLedgerChainWork) (first curr : LedgerHeaderHistoryEntry) :
    VerifyLedgerChainWork :=
  { accept p w first curr with
    mCurrCheckpoint := w.mCurrCheckpoint - p.hm.getCheckpointFrequency }

/-- What becomes of the file at hand, and what the run does then. -/
theorem run_cases (hp : Valid p) (hw : Awaits p files w) :
    (∃ w', run p files w = .ok (.WORK_FAILURE, w') ∧
      ∀ file curr, Ends p files w.mCurrCheckpoint file curr →
        Placed p files w.mCurrCheckpoint curr ∧ ¬ Confirmed p files w.mCurrCheckpoint curr) ∨
    (∃ first rest curr, Accepted p files w.mCurrCheckpoint first rest curr ∧
      run p files w = if w.mCurrCheckpoint = bottom p then .ok (.WORK_SUCCESS, accept p w first curr)
        else run p files (lower p w first curr)) ∨
    (∃ file curr e, Ends p files w.mCurrCheckpoint file curr ∧
      ¬ Placed p files w.mCurrCheckpoint curr ∧ run p files w = .error e) := by
  have hbottom : ¬ w.mCurrCheckpoint < p.hm.checkpointContainingLedger p.mRange.mFirst :=
    not_lt.mpr hw.between.bottom_le
  rw [run_eq, onRun, if_neg (mCount_ne_zero hp), if_neg hbottom]
  cases hfile : files w.mCurrCheckpoint with
  | none => exact .inl ⟨w, rfl, fun _ _ hends => absurd hends.held (by simp [hfile])⟩
  | some file =>
    dsimp only
    rcases verifyHistory_cases hp hw hfile with ⟨status, w', hstatus, heq, hnot⟩ |
      ⟨first, rest, curr, rfl, haccepted, heq⟩ | ⟨curr, e, hends, hplaced, heq⟩
    · left
      rw [heq]
      refine ⟨w', ?_, fun _ curr hends => hnot curr (some.inj (hfile.symm.trans hends.held) ▸ hends)⟩
      cases status with
      | VERIFY_STATUS_OK => exact absurd rfl hstatus
      | _ => rfl
    · right; left
      refine ⟨first, rest, curr, haccepted, ?_⟩
      have hsame := verifyHistory_mCurrCheckpoint p heq
      rw [heq]
      dsimp only
      rw [hsame, bottom]
      split_ifs <;> rfl
    · right; right
      rw [heq]
      exact ⟨file, curr, e, hends, hplaced, rfl⟩

/-- A file that can be accepted is. -/
theorem run_of_accepted (hp : Valid p) (hw : Awaits p files w)
    (h : Accepted p files w.mCurrCheckpoint first rest curr) :
    run p files w = if w.mCurrCheckpoint = bottom p then .ok (.WORK_SUCCESS, accept p w first curr)
      else run p files (lower p w first curr) := by
  rcases run_cases hp hw with ⟨_, -, hnot⟩ | ⟨first', rest', curr', h', heq⟩ |
    ⟨file, curr', e, hends, hnot, -⟩
  · exact absurd h.confirmed (hnot _ _ h.ends).2
  · obtain ⟨hfile, rfl⟩ := h.ends.eq h'.ends
    cases hfile
    exact heq
  · obtain ⟨-, rfl⟩ := h.ends.eq hends
    exact absurd h.placed hnot

/-- The work goes on with the next lower file. -/
theorem Awaits.next (hw : Awaits p files w) (h : Accepted p files w.mCurrCheckpoint first rest curr)
    (hne : w.mCurrCheckpoint ≠ bottom p) : Awaits p files (lower p w first curr) := by
  have hlt : bottom p < w.mCurrCheckpoint := lt_of_le_of_ne hw.between.bottom_le hne.symm
  have hsub : w.mCurrCheckpoint - p.hm.getCheckpointFrequency < w.mCurrCheckpoint :=
    p.hm.sub_getCheckpointFrequency_lt hlt
  refine ⟨hw.between.sub hlt, fun c hc hlt' => ?_, ?_⟩
  · rcases hw.between.eq_or_le hc hlt hlt'.le with rfl | hle
    · exact absurd hlt' (lt_irrefl _)
    · rcases hle.eq_or_lt with rfl | hgt
      · exact ⟨_, _, _, h⟩
      · exact hw.passed c hc hgt
  · have habove : above p files (w.mCurrCheckpoint - p.hm.getCheckpointFrequency) = some first := by
      rw [above, if_neg (hsub.trans_le hw.between.le_top).ne, sub_add_cancel, h.file]
      rfl
    rw [lower, accept_mVerifiedAhead, habove]
    rfl

/-- Induction down the files that are accepted. -/
theorem Awaits.induct {P : ∀ w, Awaits p files w → Prop}
    (hstep : ∀ w hw, (∀ first rest curr
      (h : Accepted p files w.mCurrCheckpoint first rest curr) (hne : w.mCurrCheckpoint ≠ bottom p),
      P (lower p w first curr) (hw.next h hne)) → P w hw)
    (hw : Awaits p files w) : P w hw := by
  induction hn : w.mCurrCheckpoint.val using Nat.strong_induction_on generalizing w with
  | _ n ih =>
    refine hstep w hw fun first rest curr haccepted hne => ih _ ?_ (hw.next haccepted hne) rfl
    exact hn ▸ p.hm.sub_getCheckpointFrequency_lt (lt_of_le_of_ne hw.between.bottom_le hne.symm)

/-- A successful run has found that every file passes. -/
theorem passes_of_run (hp : Valid p) {w' : VerifyLedgerChainWork} (hw : Awaits p files w)
    (h : run p files w = .ok (.WORK_SUCCESS, w')) :
    (∀ c, Between p c → Passes p files c) ∧ ∃ file, files (bottom p) = some file ∧
      (readPart p.mRange.last file).getLast? = some w'.mMaxVerifiedLedgerOfMinCheckpoint := by
  induction hw using Awaits.induct with
  | hstep w hw ih =>
    rcases run_cases hp hw with ⟨w'', heq, -⟩ | ⟨first, rest, curr, haccepted, heq⟩ |
      ⟨_, _, e, -, -, heq⟩
    · simp [heq] at h
    · by_cases hbottom : w.mCurrCheckpoint = bottom p
      · rw [heq, if_pos hbottom] at h
        cases h
        have hfile := haccepted.file
        rw [hbottom] at hfile
        refine ⟨fun c hc => ?_, _, hfile, ?_⟩
        · rcases hc.bottom_le.eq_or_lt with hbottom' | hlt
          · exact hbottom' ▸ hbottom ▸ ⟨_, _, _, haccepted⟩
          · exact hw.passed c hc (hbottom ▸ hlt)
        · rw [bottom] at hbottom
          simpa only [accept, hbottom, if_true] using haccepted.last
      · rw [heq, if_neg hbottom] at h
        exact ih first rest curr haccepted hbottom h
    · simp [heq] at h

/-- Files that fit never stop the process. -/
theorem run_of_fits (hp : Valid p) (hfits : Fits p files) (hw : Awaits p files w) :
    ∃ state w', run p files w = .ok (state, w') := by
  induction hw using Awaits.induct with
  | hstep w hw ih =>
    rcases run_cases hp hw with ⟨w'', heq, -⟩ | ⟨first, rest, curr, haccepted, heq⟩ |
      ⟨file, curr, e, hends, hnot, -⟩
    · exact ⟨_, _, heq⟩
    · by_cases hbottom : w.mCurrCheckpoint = bottom p
      · exact ⟨_, _, heq.trans (if_pos hbottom)⟩
      · rw [heq, if_neg hbottom]
        exact ih first rest curr haccepted hbottom
    · exact absurd (hfits _ hw.between hw.passed file curr hends) hnot

/-- Induction from the highest checkpoint down. -/
theorem Between.induct (hp : Valid p) {P : ∀ c, Between p c → Prop}
    (htop : P (top p) (between_top hp))
    (hnext : ∀ c hc, c < c + p.hm.getCheckpointFrequency →
      ∀ hnext : Between p (c + p.hm.getCheckpointFrequency), P _ hnext → P c hc)
    {c : Uint32} (hc : Between p c) : P c hc := by
  induction hn : (top p).val - c.val using Nat.strong_induction_on generalizing c with
  | _ n ih =>
    by_cases heq : c = top p
    · subst heq
      exact htop
    · obtain ⟨hlt, hbetween⟩ := hc.add hp heq
      have hle : (c + p.hm.getCheckpointFrequency).val ≤ (top p).val := hbetween.le_top
      have hlt' : c.val < (c + p.hm.getCheckpointFrequency).val := hlt
      exact hnext c hc hlt hbetween (ih _ (by omega) hbetween rfl)

/-- The work gets to every checkpoint below files that pass. -/
theorem reached (hp : Valid p) (hc : Between p c)
    (hpass : ∀ c', Between p c' → c < c' → Passes p files c') :
    ∃ w, Awaits p files w ∧ w.mCurrCheckpoint = c ∧ run p files (onReset p) = run p files w := by
  revert hpass
  induction hc using Between.induct hp with
  | htop => exact fun _ => ⟨onReset p, awaits_onReset hp, onReset_mCurrCheckpoint hp, rfl⟩
  | hnext c hc hlt hnext ih =>
    intro hpass
    obtain ⟨w, hw, hcheckpoint, hrun⟩ := ih fun c' hc' hgt => hpass c' hc' (hlt.trans hgt)
    have hpasses := hpass _ hnext hlt
    rw [← hcheckpoint] at hpasses
    obtain ⟨first, rest, curr, haccepted⟩ := hpasses
    have hne : w.mCurrCheckpoint ≠ bottom p := by
      rw [hcheckpoint]
      exact (hc.bottom_le.trans_lt hlt).ne'
    have hrun' := run_of_accepted hp hw haccepted
    rw [if_neg hne] at hrun'
    refine ⟨_, hw.next haccepted hne, ?_, hrun.trans hrun'⟩
    rw [lower, hcheckpoint, add_sub_cancel_right]

/-- The verification ends exactly if the files fit. -/
theorem run_iff_fits (hp : Valid p) :
    (∃ state w, run p files (onReset p) = .ok (state, w)) ↔ Fits p files := by
  refine ⟨?_, fun hfits => run_of_fits hp hfits (awaits_onReset hp)⟩
  rintro ⟨state, w', hrun⟩ c hc hpass file curr hends
  obtain ⟨w, hw, rfl, hreached⟩ := reached hp hc hpass
  rcases run_cases hp hw with ⟨_, -, hall⟩ | ⟨first, rest, curr', haccepted, -⟩ |
    ⟨_, _, e, -, -, heq⟩
  · exact (hall file curr hends).1
  · obtain ⟨-, rfl⟩ := haccepted.ends.eq hends
    exact haccepted.placed
  · cases hrun.symm.trans (hreached.trans heq)

/-- A verification succeeds if every file passes, and returns the last header of the lowest. -/
theorem run_success_iff (hp : Valid p) (e : LedgerHeaderHistoryEntry) :
    (∃ w, run p files (onReset p) = .ok (.WORK_SUCCESS, w) ∧
      w.mMaxVerifiedLedgerOfMinCheckpoint = e) ↔
    (∀ c, Between p c → Passes p files c) ∧
      ∃ file, files (bottom p) = some file ∧ (readPart p.mRange.last file).getLast? = some e := by
  constructor
  · rintro ⟨w, hrun, rfl⟩
    exact passes_of_run hp (awaits_onReset hp) hrun
  · rintro ⟨hpass, file, hfile, hlast⟩
    have hbottom := between_bottom hp
    obtain ⟨w, hw, hcheckpoint, hrun⟩ := reached hp hbottom fun c hc _ => hpass c hc
    obtain ⟨first, rest, curr, haccepted⟩ := hcheckpoint ▸ hpass _ hbottom
    have hsuccess := hrun.trans ((run_of_accepted hp hw haccepted).trans (if_pos hcheckpoint))
    obtain ⟨-, file', hfile', hlast'⟩ := passes_of_run hp (awaits_onReset hp) hsuccess
    rw [hfile] at hfile'
    cases hfile'
    exact ⟨_, hsuccess, some.inj (hlast'.symm.trans hlast)⟩

/-! ## The chain -/

/-- A header that the verification reads, of a checkpoint not below `c`. -/
def ReadFrom (p : VerifyParams) (files : HeaderFiles) (c : Uint32) (e : LedgerHeaderHistoryEntry) :
    Prop :=
  ∃ c' file, Between p c' ∧ c ≤ c' ∧ files c' = some file ∧ e ∈ readPart p.mRange.last file

/-- Headers that are checked, linked, and end with the trusted hash. -/
structure Chained (p : VerifyParams) (l : List LedgerHeaderHistoryEntry) : Prop where
  linked : List.IsChain Linked l
  checked : ∀ e ∈ l, Checked p e
  ends : ∃ curr, l.getLast? = some curr ∧ curr.header.ledgerSeq = p.mRange.last ∧
    ∀ hash, p.mTrustedMaxLedger.2 = some hash → curr.hash = hash

/-- Where the files pass, what is read of them is one chain. -/
theorem chained_of_passes (hp : Valid p) (hc : Between p c)
    (hpass : ∀ c', Between p c' → Passes p files c') :
    ∃ first l, (files c).bind head? = some first ∧ Chained p (first :: l) ∧
      ∀ e, e ∈ first :: l ↔ ReadFrom p files c e := by
  induction hc using Between.induct hp with
  | htop =>
    obtain ⟨first, rest, curr, hacc⟩ := hpass _ (between_top hp)
    obtain ⟨l, hl⟩ := readPart_cons p.mRange.last first rest
    have habove : above p files (top p) = none := if_pos rfl
    have hplaced := hacc.placed
    have hconfirmed := hacc.confirmed
    rw [Placed, habove] at hplaced
    rw [Confirmed, habove] at hconfirmed
    refine ⟨first, l, by rw [hacc.file]; rfl, ?_, fun e => ?_⟩
    · exact hl ▸ ⟨hacc.sound.chain, hacc.sound.checked, curr, hacc.last, hplaced, hconfirmed⟩
    · rw [← hl]
      refine ⟨fun he => ⟨_, _, between_top hp, le_rfl, hacc.file, he⟩, ?_⟩
      rintro ⟨c', file, hc', hle, hfile, he⟩
      rw [le_antisymm hc'.le_top hle, hacc.file] at hfile
      cases hfile
      exact he
  | hnext c hc hlt hnext ih =>
    obtain ⟨first', l', hfirst', ⟨hchain', hchecked', curr', hlast', hend'⟩, hread'⟩ := ih
    obtain ⟨first, rest, curr, hacc⟩ := hpass c hc
    obtain ⟨l, hl⟩ := readPart_cons p.mRange.last first rest
    have habove : above p files c = some first' :=
      (if_neg (hlt.trans_le hnext.le_top).ne).trans hfirst'
    have hplaced := hacc.placed
    have hconfirmed := hacc.confirmed
    rw [Placed, habove] at hplaced
    rw [Confirmed, habove] at hconfirmed
    refine ⟨first, l ++ first' :: l', by rw [hacc.file]; rfl, ?_, fun e => ?_⟩
    · rw [← cons_append, ← hl]
      refine ⟨isChain_append.mpr ⟨hacc.sound.chain, hchain', fun a ha b hb => ?_⟩, fun e he =>
        (mem_append.mp he).elim (hacc.sound.checked e) (hchecked' e), curr', ?_, hend'⟩
      · rw [hacc.last] at ha
        cases ha
        cases hb
        exact ⟨by rw [hplaced.1, hplaced.2], hconfirmed.symm⟩
      · rwa [getLast?_append_of_ne_nil _ (cons_ne_nil first' l')]
    · rw [← cons_append, ← hl, mem_append, hread']
      constructor
      · rintro (he | ⟨c', file, hc', hle, hfile, he⟩)
        · exact ⟨_, _, hc, le_rfl, hacc.file, he⟩
        · exact ⟨c', file, hc', hlt.le.trans hle, hfile, he⟩
      · rintro ⟨c', file, hc', hle, hfile, he⟩
        have hback : c + p.hm.getCheckpointFrequency - p.hm.getCheckpointFrequency = c :=
          add_sub_cancel_right _ _
        rcases hnext.eq_or_le hc' (hc.bottom_le.trans_lt hlt) (hback.symm ▸ hle) with rfl | hle'
        · rw [hback, hacc.file] at hfile
          cases hfile
          exact .inl he
        · exact .inr ⟨c', file, hc', hle', hfile, he⟩

/-- The `k`-th header from the end of a chain. -/
def fromEnd (l : List LedgerHeaderHistoryEntry) (k : ℕ) : LedgerHeaderHistoryEntry :=
  l.getD (l.length - 1 - k) noEntry

theorem fromEnd_zero (hlast : l.getLast? = some curr) : fromEnd l 0 = curr := by
  rw [fromEnd, Nat.sub_zero, getD_eq_getElem?_getD, ← getLast?_eq_getElem?, hlast,
    getD_some]

theorem linked_fromEnd (h : List.IsChain Linked l) (hk : k + 1 < l.length) :
    Linked (fromEnd l (k + 1)) (fromEnd l k) := by
  have hlt : l.length - 1 - (k + 1) + 1 < l.length := by omega
  have hlinked := isChain_iff_getElem.mp h (l.length - 1 - (k + 1)) hlt
  have hindex : l.length - 1 - k = l.length - 1 - (k + 1) + 1 := by omega
  rwa [fromEnd, fromEnd, hindex, getD_eq_getElem _ _ hlt, getD_eq_getElem _ _ (by omega)]

/-- Ledger numbers run down from the end. -/
theorem ledgerSeq_fromEnd (h : List.IsChain Linked l) (hlast : l.getLast? = some curr)
    (hk : k < l.length) :
    ((fromEnd l k).header.ledgerSeq.val + k) % 2 ^ 32 = curr.header.ledgerSeq.val := by
  induction k with
  | zero =>
    rw [fromEnd_zero hlast, Nat.add_zero, Nat.mod_eq_of_lt curr.header.ledgerSeq.isLt]
  | succ k ih =>
    have hlinked := linked_fromEnd h hk
    have hprev := ih (by omega)
    rw [hlinked.ledgerSeq, Fin.val_add] at hprev
    have hone : (1 : Uint32).val = 1 := rfl
    omega

theorem fromEnd_mem (hk : k < l.length) : fromEnd l k ∈ l := by
  rw [fromEnd, getD_eq_getElem _ _ (by omega)]
  exact getElem_mem _

theorem exists_fromEnd (he : e ∈ l) : ∃ k < l.length, fromEnd l k = e := by
  obtain ⟨i, hi, rfl⟩ := getElem_of_mem he
  refine ⟨l.length - 1 - i, by omega, ?_⟩
  have hindex : l.length - 1 - (l.length - 1 - i) = i := by omega
  rw [fromEnd, hindex, getD_eq_getElem _ _ hi]

/-- A header that the verification reads. -/
def Read (p : VerifyParams) (files : HeaderFiles) (e : LedgerHeaderHistoryEntry) : Prop :=
  ∃ c file, Between p c ∧ files c = some file ∧ e ∈ readPart p.mRange.last file

/-- The headers that were read contain one for each ledger of the range, each linked to the one
before; the last has the trusted hash, and they agree with the last closed ledger. -/
structure Covers (p : VerifyParams) (files : HeaderFiles)
    (headers : Uint32 → LedgerHeaderHistoryEntry) : Prop where
  read : ∀ s, p.mRange.mFirst ≤ s → s ≤ p.mRange.last →
    (headers s).header.ledgerSeq = s ∧ (headers s).hash = p.sha256 (headers s).header ∧
      Read p files (headers s)
  linked : ∀ s, p.mRange.mFirst ≤ s → s < p.mRange.last →
    (headers (s + 1)).header.previousLedgerHash = (headers s).hash
  trusted : ∀ hash, p.mTrustedMaxLedger.2 = some hash → (headers p.mRange.last).hash = hash
  lastClosed : p.mRange.mFirst ≤ p.mLastClosed.1 → p.mLastClosed.1 ≤ p.mRange.last →
    (headers p.mLastClosed.1).hash = p.mLastClosed.2
  afterLastClosed : p.mLastClosed.1 + 1 = p.mRange.mFirst →
    (headers p.mRange.mFirst).header.previousLedgerHash = p.mLastClosed.2

/-- A chain that is long enough covers the range. -/
theorem Chained.covers (hp : Valid p) (h : Chained p l) (hread : ∀ e ∈ l, Read p files e)
    (hlength : p.mRange.last.val - p.mRange.mFirst.val < l.length) :
    Covers p files fun s => fromEnd l (p.mRange.last.val - s.val) := by
  obtain ⟨hchain, hchecked, curr, hlast, hend, hhash⟩ := h
  -- the header of `s` is as far from the end as `s` is from the end of the range
  have hat : ∀ s : Uint32, p.mRange.mFirst ≤ s → s ≤ p.mRange.last →
      p.mRange.last.val - s.val < l.length ∧
        (fromEnd l (p.mRange.last.val - s.val)).header.ledgerSeq = s := by
    intro s hs hs'
    rw [Fin.le_def] at hs hs'
    have hk : p.mRange.last.val - s.val < l.length := by omega
    have hseq := ledgerSeq_fromEnd hchain hlast hk
    rw [hend] at hseq
    exact ⟨hk, Fin.ext (by omega)⟩
  refine ⟨fun s hs hs' => ?_, fun s hs hs' => ?_, fun hash htrusted => ?_, fun hs hs' => ?_,
    fun hnext => ?_⟩
  · obtain ⟨hk, hseq⟩ := hat s hs hs'
    exact ⟨hseq, (hchecked _ (fromEnd_mem hk)).hash, hread _ (fromEnd_mem hk)⟩
  · have hsucc : (s + 1).val = s.val + 1 := by
      rw [Fin.lt_def] at hs'
      have hone : (1 : Uint32).val = 1 := rfl
      omega
    rw [Fin.lt_def] at hs'
    obtain ⟨hk, -⟩ := hat s hs (Nat.le_of_lt hs')
    have hindex : p.mRange.last.val - s.val = p.mRange.last.val - (s + 1).val + 1 := by omega
    rw [hindex] at hk ⊢
    exact (linked_fromEnd hchain hk).previousLedgerHash
  · rw [Nat.sub_self, fromEnd_zero hlast]
    exact hhash hash htrusted
  · obtain ⟨hk, hseq⟩ := hat p.mLastClosed.1 hs hs'
    exact (hchecked _ (fromEnd_mem hk)).atLastClosed hseq
  · obtain ⟨hk, hseq⟩ := hat p.mRange.mFirst le_rfl hp.first_le
    exact (hchecked _ (fromEnd_mem hk)).afterLastClosed (hseq.trans hnext.symm)

/-- When the verification of a range succeeds, the headers it has read are a chain that covers the
range exactly if one of them is for the first ledger of the range. -/
theorem success_covers_iff (p : VerifyParams)
    (files : HeaderFiles) (hp : Valid p)
    {w : VerifyLedgerChainWork} (hsuccess : run p files (onReset p) = .ok (.WORK_SUCCESS, w)) :
    (∃ headers, Covers p files headers) ↔
      ∃ e, Read p files e ∧ e.header.ledgerSeq = p.mRange.mFirst := by
  constructor
  · rintro ⟨headers, hcovers⟩
    obtain ⟨hseq, -, hread⟩ := hcovers.read p.mRange.mFirst le_rfl hp.first_le
    exact ⟨_, hread, hseq⟩
  · rintro ⟨e, ⟨c, file, hbetween, hfile, he⟩, hseq⟩
    obtain ⟨first, l, -, hchained, hread⟩ := chained_of_passes hp (between_bottom hp)
      (passes_of_run hp (awaits_onReset hp) hsuccess).1
    have hmem := (hread e).mpr ⟨c, file, hbetween, hbetween.bottom_le, hfile, he⟩
    obtain ⟨k, hk, rfl⟩ := exists_fromEnd hmem
    obtain ⟨curr', hlast, hend, -⟩ := hchained.ends
    have hrun := ledgerSeq_fromEnd hchained.linked hlast hk
    rw [hseq, hend] at hrun
    refine ⟨_, hchained.covers hp (fun e he => ?_) (by omega)⟩
    obtain ⟨c', file', hc', -, hfile', he'⟩ := (hread e).mp he
    exact ⟨c', file', hc', hfile', he'⟩

/-- A hash for fixed inputs. -/
def numberHash (header : LedgerHeader) : Hash :=
  Fin.ofNat (2 ^ 256) header.ledgerSeq.val

/-- A header with the hash it has to have. -/
def headerOf (previousLedgerHash : Hash) (ledgerSeq : Uint32) : LedgerHeaderHistoryEntry :=
  ⟨Fin.ofNat (2 ^ 256) ledgerSeq.val, ⟨15, previousLedgerHash, 0, ledgerSeq, []⟩⟩

/-- A verification of ledgers 3 to 7, the end of a checkpoint, after ledger 2. -/
def threeToSeven : VerifyParams where
  hm := .make true
  sha256 := numberHash
  mRange := ⟨3, 5⟩
  mLastClosed := (2, 0)
  mTrustedMaxLedger := (7, some 7)

theorem valid_threeToSeven : Valid threeToSeven := ⟨by decide, by decide, rfl⟩

/-- A file that is read to its end in ledger 7 is enough. -/
theorem run_threeToSeven {file : List LedgerHeaderHistoryEntry} {e : LedgerHeaderHistoryEntry}
    (hscan : scan threeToSeven none file = .ok (some e)) (hend : e.header.ledgerSeq = 7)
    (hhash : e.hash = 7) :
    ∃ w, run threeToSeven (fun _ => some file) (onReset threeToSeven) = .ok (.WORK_SUCCESS, w) := by
  obtain ⟨first, rest, rfl⟩ := scan_none_head hscan
  obtain ⟨hsound, hlast⟩ := scan_none_ok.mp hscan
  have hpass : ∀ c, Between threeToSeven c → Passes threeToSeven (fun _ => some (first :: rest)) c := by
    intro c hc
    have htop : c = top threeToSeven := le_antisymm hc.le_top hc.bottom_le
    have habove : above threeToSeven (fun _ => some (first :: rest)) c = none := if_pos htop
    refine ⟨first, rest, e, rfl, hsound, hlast, ?_, ?_⟩
    · rw [Placed, habove]
      exact hend
    · rw [Confirmed, habove]
      rintro hash ⟨⟩
      exact hhash
  obtain ⟨w, hw, -⟩ := (run_success_iff valid_threeToSeven e).mpr ⟨hpass, _, rfl, hlast⟩
  exact ⟨w, hw⟩

/-- A file that starts with the last ledger of the range is enough for success: nothing is read
of the ledgers before it, not even of the one after the last closed ledger. -/
theorem success_without_first_headers :
    (∃ w, run threeToSeven (fun _ => some [headerOf 0 7]) (onReset threeToSeven) =
      .ok (.WORK_SUCCESS, w)) ∧
    ¬ ∃ e ∈ [headerOf 0 7], e.header.ledgerSeq = 3 :=
  ⟨@run_threeToSeven _ (headerOf 0 7) (by decide +kernel) rfl rfl, by decide⟩

/-- The theorem at a file with a header for each ledger. -/
theorem headers_cover_threeToSeven :
    ∃ headers, Covers threeToSeven (fun _ => some [headerOf 0 3, headerOf 3 4, headerOf 4 5,
      headerOf 5 6, headerOf 6 7]) headers := by
  obtain ⟨w, hw⟩ := @run_threeToSeven [headerOf 0 3, headerOf 3 4, headerOf 4 5, headerOf 5 6,
    headerOf 6 7] (headerOf 6 7) (by decide +kernel) rfl rfl
  exact (success_covers_iff _ _ valid_threeToSeven hw).mpr ⟨headerOf 0 3,
    ⟨7, _, between_top valid_threeToSeven, rfl, by decide⟩, rfl⟩

end VerifyLedgerChainWork

end DigitalBits.Catchup
