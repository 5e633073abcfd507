import DigitalBits.Scp.Types

/-!
# The skip list of a ledger header

Every 50 ledgers the hash of the bucket list is kept in the first of four slots,
and where the ledger number has the right phase, the slots before it are moved
on by one. Each slot then holds the hash of a multiple of its step.
-/
namespace DigitalBits.Bucket
open Scp (Hash)

/-- What `snapshotLedger` reads and writes of a header. -/
structure SnapshotHeader where
  ledgerSeq : ℕ
  bucketListHash : Hash
  skipList : Fin 4 → Hash

/-- The value of an `int` to which an unsigned difference of 32 bits is assigned. -/
def toInt (n : ℤ) : ℤ := n.bmod (2 ^ 32)

namespace SnapshotHeader

/-- `skipList[i] = hash`. -/
def setSkip (header : SnapshotHeader) (i : Fin 4) (hash : Hash) : SnapshotHeader :=
  { header with skipList := Function.update header.skipList i hash }

def calculateSkipValues (header : SnapshotHeader) : SnapshotHeader :=
  if header.ledgerSeq % 50 = 0 then
    let v := toInt (header.ledgerSeq - 50)
    let header := if 0 < v ∧ v % 5000 = 0 then
        let v := toInt (header.ledgerSeq - 5000 - 50)
        let header := if 0 < v ∧ v % 50000 = 0 then
            let v := toInt (header.ledgerSeq - 50000 - 5000 - 50)
            let header := if 0 < v ∧ v % 500000 = 0 then
                header.setSkip 3 (header.skipList 2)
              else header
            header.setSkip 2 (header.skipList 1)
          else header
        header.setSkip 1 (header.skipList 0)
      else header
    header.setSkip 0 header.bucketListHash
  else header

/-- `snapshotLedger`, with the hash of the bucket list. -/
def snapshotLedger (hash : Hash) (header : SnapshotHeader) : SnapshotHeader :=
  { header with bucketListHash := hash }.calculateSkipValues

end SnapshotHeader

/-- The header after the first ledgers; the next one starts from a copy. -/
def headerAfter (hash : ℕ → Hash) : ℕ → SnapshotHeader
  | 0 => ⟨0, 0, fun _ => 0⟩
  | n + 1 => SnapshotHeader.snapshotLedger (hash (n + 1))
      { headerAfter hash n with ledgerSeq := n + 1 }

/-! ## What the slots hold -/

/-- The distance of the ledgers whose hashes a slot holds. -/
def skipStep : Fin 4 → ℕ := ![50, 5000, 50000, 500000]

/-- How many ledgers after its own a hash gets to a slot. -/
def skipLag : Fin 4 → ℕ := ![0, 50, 5050, 55050]

/-- The last ledger whose hash has got to the slot. -/
structure LastSkip (i : Fin 4) (n m : ℕ) : Prop where
  multiple : skipStep i ∣ m
  pos : 0 < m
  arrived : m + skipLag i ≤ n
  last : ∀ m', skipStep i ∣ m' → m' + skipLag i ≤ n → m' ≤ m

variable {hash : ℕ → Hash} {n : ℕ}

theorem toInt_eq {v : ℤ} (h : -2 ^ 31 ≤ v ∧ v < 2 ^ 31) : toInt v = v :=
  Int.bmod_eq_of_le (by omega) (by omega)

/-- The ledger at which a slot is written. -/
def Shifts (i : Fin 4) (n : ℕ) : Prop := skipStep i + skipLag i ≤ n ∧ (n - skipLag i) % skipStep i = 0

instance (i : Fin 4) : Decidable (Shifts i n) := inferInstanceAs (Decidable (_ ∧ _))

/-- What the slot below holds before it is written. -/
def shifted (header : SnapshotHeader) : Fin 4 → Hash :=
  ![header.bucketListHash, header.skipList 0, header.skipList 1, header.skipList 2]

theorem calculateSkipValues_skipList {header : SnapshotHeader} (hpos : 0 < header.ledgerSeq)
    (hn : header.ledgerSeq < 2 ^ 31) (i : Fin 4) :
    header.calculateSkipValues.skipList i =
      if Shifts i header.ledgerSeq then shifted header i else header.skipList i := by
  obtain ⟨n, hash, skipList⟩ := header
  change 0 < n at hpos
  change n < 2 ^ 31 at hn
  have h0 : n % 50 = 0 ↔ Shifts 0 n := by simp [Shifts, skipStep, skipLag] at *; omega
  have h1 : 0 < toInt (n - 50) ∧ toInt (n - 50) % 5000 = 0 ↔ Shifts 1 n := by
    rw [toInt_eq (by omega)]
    simp [Shifts, skipStep, skipLag]
    omega
  have h2 : 0 < toInt (n - 5000 - 50) ∧ toInt (n - 5000 - 50) % 50000 = 0 ↔ Shifts 2 n := by
    rw [toInt_eq (by omega)]
    simp [Shifts, skipStep, skipLag]
    omega
  have h3 : 0 < toInt (n - 50000 - 5000 - 50) ∧ toInt (n - 50000 - 5000 - 50) % 500000 = 0 ↔
      Shifts 3 n := by
    rw [toInt_eq (by omega)]
    simp [Shifts, skipStep, skipLag]
    omega
  have h01 : Shifts 1 n → Shifts 0 n := by simp [Shifts, skipStep, skipLag]; omega
  have h12 : Shifts 2 n → Shifts 1 n := by simp [Shifts, skipStep, skipLag]; omega
  have h23 : Shifts 3 n → Shifts 2 n := by simp [Shifts, skipStep, skipLag]; omega
  simp only [SnapshotHeader.calculateSkipValues, h0, h1, h2, h3]
  split_ifs <;> fin_cases i <;> simp_all [SnapshotHeader.setSkip, shifted]

/-- The hash in a slot, by the number of ledgers. -/
def skipValue (hash : ℕ → Hash) (i : Fin 4) (n : ℕ) : Hash :=
  if n < skipStep i + skipLag i then 0 else hash ((n - skipLag i) / skipStep i * skipStep i)

/-- A slot keeps its hash until the next ledger at which it is written. -/
theorem skipValue_succ (i : Fin 4) : skipValue hash i (n + 1) =
    if Shifts i (n + 1) then hash (n + 1 - skipLag i) else skipValue hash i n := by
  rw [skipValue, skipValue]
  by_cases hs : Shifts i (n + 1)
  · rw [if_pos hs, if_neg (not_lt.mpr hs.1), Nat.div_mul_cancel (Nat.dvd_of_mod_eq_zero hs.2)]
  · rw [if_neg hs]
    by_cases hearly : n + 1 < skipStep i + skipLag i
    · rw [if_pos hearly, if_pos (by omega)]
    · have hmod : ¬ skipStep i ∣ n + 1 - skipLag i :=
        fun hdvd => hs ⟨not_lt.mp hearly, Nat.mod_eq_zero_of_dvd hdvd⟩
      have hlate : ¬ n < skipStep i + skipLag i := by
        intro hlt
        exact hmod ⟨1, by omega⟩
      rw [if_neg hearly, if_neg hlate]
      rw [show n + 1 - skipLag i = n - skipLag i + 1 by omega] at hmod ⊢
      rw [Nat.succ_div_of_not_dvd hmod]

/-- At that time the slot below holds the hash that is to be moved. -/
theorem skipValue_below {i j : Fin 4} (hij : j.val + 1 = i.val) (h : Shifts i (n + 1)) :
    skipValue hash j n = hash (n + 1 - skipLag i) := by
  obtain ⟨hle, hmod⟩ := h
  have hlt : ¬ n < skipStep j + skipLag j := by
    fin_cases i <;> fin_cases j <;> simp [skipStep, skipLag] at *
    all_goals omega
  rw [skipValue, if_neg hlt]
  refine congrArg hash ?_
  fin_cases i <;> fin_cases j <;> simp [skipStep, skipLag] at *
  all_goals omega

theorem headerAfter_skipList (hn : n < 2 ^ 31) (i : Fin 4) :
    (headerAfter hash n).skipList i = skipValue hash i n := by
  induction n generalizing i with
  | zero => fin_cases i <;> rfl
  | succ n ih =>
    have ih := ih (by omega)
    rw [skipValue_succ, headerAfter, SnapshotHeader.snapshotLedger,
      calculateSkipValues_skipList (Nat.succ_pos n) hn]
    refine if_ctx_congr Iff.rfl (fun hs => ?_) fun _ => ih i
    change Shifts i (n + 1) at hs
    fin_cases i
    · rfl
    · exact (ih 0).trans (skipValue_below rfl hs)
    · exact (ih 1).trans (skipValue_below rfl hs)
    · exact (ih 2).trans (skipValue_below rfl hs)

theorem skipStep_pos (i : Fin 4) : 0 < skipStep i := by
  fin_cases i <;> simp [skipStep]

theorem lastSkip_of_le {i : Fin 4} (h : skipStep i + skipLag i ≤ n) :
    LastSkip i n ((n - skipLag i) / skipStep i * skipStep i) where
  multiple := Dvd.intro_left _ rfl
  pos := Nat.mul_pos (Nat.div_pos (by omega) (skipStep_pos i)) (skipStep_pos i)
  arrived := by have := Nat.div_mul_le_self (n - skipLag i) (skipStep i); omega
  last m' hdvd hle := by
    obtain ⟨k, rfl⟩ := hdvd
    rw [mul_comm]
    refine Nat.mul_le_mul_right _ ((Nat.le_div_iff_mul_le (skipStep_pos i)).mpr ?_)
    rw [mul_comm]
    omega

theorem LastSkip.le {i : Fin 4} {m : ℕ} (h : LastSkip i n m) : skipStep i + skipLag i ≤ n := by
  have := Nat.le_of_dvd h.pos h.multiple
  have := h.arrived
  omega

/-- After the first `n` ledgers each slot holds the hash of the last multiple of its step that has got
there, and zero before the first one has. -/
theorem skipList_points (hash : ℕ → Hash) (n : ℕ) (hn : n < 2 ^ 31) (i : Fin 4) :
    (∀ m, LastSkip i n m → (headerAfter hash n).skipList i = hash m) ∧
      ((∀ m, ¬ LastSkip i n m) → (headerAfter hash n).skipList i = 0) := by
  rw [headerAfter_skipList hn, skipValue]
  constructor
  · intro m hm
    have hlast := lastSkip_of_le hm.le
    rw [if_neg (not_lt.mpr hm.le)]
    exact congrArg hash (le_antisymm (hm.last _ hlast.multiple hlast.arrived)
      (hlast.last m hm.multiple hm.arrived))
  · intro hnone
    exact if_pos (not_le.mp fun hle => hnone _ (lastSkip_of_le hle))

/-- The second slot after 5049 and 5050 ledgers. -/
theorem skipList_points_second :
    (∀ m, ¬ LastSkip 1 5049 m) ∧ (headerAfter (fun n => Fin.ofNat _ n) 5049).skipList 1 = 0 ∧
      LastSkip 1 5050 5000 ∧
      (headerAfter (fun n => Fin.ofNat _ n) 5050).skipList 1 = Fin.ofNat _ 5000 := by
  have hnone : ∀ m, ¬ LastSkip 1 5049 m := fun m hm => absurd hm.le (by decide)
  have hlast : LastSkip 1 5050 5000 := lastSkip_of_le (i := 1) (n := 5050) (by decide)
  exact ⟨hnone, (skipList_points _ 5049 (by norm_num) 1).2 hnone, hlast,
    (skipList_points _ 5050 (by norm_num) 1).1 5000 hlast⟩

end DigitalBits.Bucket
