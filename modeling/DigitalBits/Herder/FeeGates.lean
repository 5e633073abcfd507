import DigitalBits.Herder.TransactionQueue
import DigitalBits.Transactions.ExchangeSpec
import DigitalBits.Transactions.TransactionValidity

/-!
# Two gates for the rate of a fee

A transaction that replaces another must bid ten times its rate, and a fee bump at least the rate
of the transaction inside. Both compare products of 128 bits and tell the sender, when they refuse,
which fee would have been enough. Here they are computed with the words of the code, including the
out parameters of the divisions, and compared with the rates as rational numbers.
-/
namespace DigitalBits.Herder

open Lib
open Ledger

/-! ## Words of 128 bits -/

namespace Wide

abbrev UInt128 := BitVec 128

def bigMultiply (a b : ℤ) : Fallible UInt128 := do
  Fallible.assert (0 ≤ a ∧ 0 ≤ b)
  return (BitVec.ofInt 64 a).setWidth 128 * (BitVec.ofInt 64 b).setWidth 128

/-- `bigDivide` into a `uint64_t`: whether the quotient fits, and the out parameter, which keeps its
value only if the sum would leave the 128 bits. -/
def bigDivideUnsigned (result : BitVec 64) (a : UInt128) (B : BitVec 64) (rounding : Rounding) :
    Bool × BitVec 64 :=
  let b : UInt128 := B.setWidth 128
  if rounding = .up ∧ BitVec.allOnes 128 - (b - 1) < a then
    (false, result)
  else
    let x := if rounding = .down then a / b else (a + b - 1) / b
    (decide (x ≤ (BitVec.allOnes 64).setWidth 128), x.setWidth 64)

/-- `bigDivide` into an `int64_t`, whose out parameter is also written when the quotient is a
`uint64_t` but no `int64_t`. -/
def bigDivide (result : ℤ) (a : UInt128) (B : ℤ) (rounding : Rounding) :
    Fallible (Bool × ℤ) := do
  Fallible.assert (0 < B)
  -- the value of an uninitialized variable, which is read only if it has been written
  let (res, r2) := bigDivideUnsigned 0 a (BitVec.ofInt 64 B) rounding
  if res then
    return (decide ((r2.toNat : ℤ) ≤ int64Max), r2.toInt)
  else
    return (res, result)

section
variable {a b c x : ℤ} {w : UInt128}

theorem toNat_ofInt (ha : 0 ≤ a) (hfits : a ≤ int64Max) :
    (((BitVec.ofInt 64 a).setWidth 128).toNat : ℤ) = a := by
  rw [int64Max] at hfits
  rw [BitVec.toNat_setWidth, BitVec.toNat_ofInt]
  omega

theorem bigMultiply_toNat (ha : 0 ≤ a) (hafits : a ≤ int64Max) (hb : 0 ≤ b)
    (hbfits : b ≤ int64Max) :
    ∃ w, bigMultiply a b = .ok w ∧ (w.toNat : ℤ) = a * b := by
  refine ⟨_, by rw [bigMultiply, Fallible.assert, if_pos ⟨ha, hb⟩]; rfl, ?_⟩
  have hprod : a * b < 2 ^ 128 := by
    calc a * b ≤ int64Max * int64Max := mul_le_mul hafits hbfits hb (by decide)
      _ < 2 ^ 128 := by decide
  rw [BitVec.toNat_mul, Int.natCast_emod, Int.natCast_mul, toNat_ofInt ha hafits,
    toNat_ofInt hb hbfits]
  exact Int.emod_eq_of_lt (mul_nonneg ha hb) (by exact_mod_cast hprod)

/-- The quotient that is rounded up, in words. -/
theorem bigDivideUnsigned_up (result : BitVec 64) {B : BitVec 64} (hB : 0 < B.toNat) :
    ∃ r, bigDivideUnsigned result w B .up =
        (decide ((w.toNat + B.toNat - 1) / B.toNat < 2 ^ 64), r) ∧
      ((w.toNat + B.toNat - 1) / B.toNat < 2 ^ 64 →
        r.toNat = (w.toNat + B.toNat - 1) / B.toNat) := by
  have hBlt : B.toNat < 2 ^ 64 := B.isLt
  have hb : (B.setWidth 128).toNat = B.toNat := by
    rw [BitVec.toNat_setWidth]
    exact Nat.mod_eq_of_lt (by omega)
  have hpred : (B.setWidth 128 - 1).toNat = B.toNat - 1 := by
    simp
    omega
  have hroom : (BitVec.allOnes 128 - (B.setWidth 128 - 1)).toNat = 2 ^ 128 - B.toNat := by
    rw [BitVec.toNat_sub, hpred, BitVec.toNat_allOnes]
    omega
  unfold bigDivideUnsigned
  simp only [true_and, BitVec.lt_def, hroom, reduceCtorEq, if_false]
  by_cases hover : 2 ^ 128 - B.toNat < w.toNat
  · -- the sum leaves the 128 bits, and the quotient the 64 bits
    rw [if_pos hover]
    have hlarge : ¬ (w.toNat + B.toNat - 1) / B.toNat < 2 ^ 64 := by
      rw [Nat.div_lt_iff_lt_mul hB]
      have : 2 ^ 64 * B.toNat ≤ 2 ^ 64 * 2 ^ 64 := Nat.mul_le_mul_left _ hBlt.le
      omega
    exact ⟨result, by rw [decide_eq_false hlarge], fun h => absurd h hlarge⟩
  · rw [if_neg hover]
    have hsum : (w + B.setWidth 128 - 1).toNat = w.toNat + B.toNat - 1 := by
      simp
      omega
    have hquot : ((w + B.setWidth 128 - 1) / B.setWidth 128).toNat =
        (w.toNat + B.toNat - 1) / B.toNat := by
      rw [BitVec.toNat_udiv, hsum, hb]
    refine ⟨_, Prod.ext ?_ rfl, fun h => ?_⟩
    · simp only [BitVec.le_def, hquot]
      simp
      omega
    · rw [BitVec.toNat_setWidth, hquot]
      exact Nat.mod_eq_of_lt h

/-- The quotient that is rounded up, and whether it fits. -/
theorem bigDivide_up (result : ℤ) (hc : 0 < c) (hfits : c ≤ int64Max) :
    ∃ r, bigDivide result w c .up =
        .ok (decide (Rounding.up.divide w.toNat c ≤ int64Max), r) ∧
      (Rounding.up.divide w.toNat c ≤ int64Max → r = Rounding.up.divide w.toNat c) := by
  obtain ⟨n, rfl⟩ := Int.eq_ofNat_of_zero_le hc.le
  have hn : 0 < n := by omega
  have hB : (BitVec.ofInt 64 (n : ℤ)).toNat = n := by
    rw [int64Max] at hfits
    rw [BitVec.toNat_ofInt]
    omega
  have hquot : Rounding.up.divide w.toNat n = ((w.toNat + n - 1) / n : ℕ) := by
    rw [Rounding.divide, Int.natCast_div]
    congr 1
    omega
  obtain ⟨r, hr, hfits64⟩ := bigDivideUnsigned_up (w := w) 0 (hB.symm ▸ hn)
  rw [hB] at hr hfits64
  rw [bigDivide, Fallible.assert, if_pos hc, hr, hquot]
  generalize (w.toNat + n - 1) / n = q at *
  by_cases hq : q < 2 ^ 64
  · refine ⟨r.toInt, ?_, fun hle => ?_⟩
    · rw [decide_eq_true hq, ← hfits64 hq]
      rfl
    · rw [int64Max] at hle
      rw [BitVec.toInt_eq_toNat_cond, hfits64 hq]
      split <;> omega
  · refine ⟨result, ?_, fun hle => ?_⟩
    · have hlarge : ¬ (q : ℤ) ≤ int64Max := by
        rw [int64Max]
        omega
      rw [decide_eq_false hq, decide_eq_false hlarge]
      rfl
    · rw [int64Max] at hle
      omega

/-! ## The gates -/

/-- What both gates do with their products: whether the first is large enough, and the fee that is
reported, which is untouched if it is. -/
def compareRates (v1 v2 : UInt128) (divisor fee : ℤ) : Fallible (Bool × ℤ) :=
  if v1 < v2 then do
    let (fits, least) ← bigDivide fee v2 divisor .up
    return (false, if fits then least else int64Max)
  else
    return (true, fee)

/-- What a gate should answer: `value` is what the fee, taken `divisor` times, has to reach, and
`unchanged` is the fee of the result if it does. -/
def rateVerdict (fee divisor value unchanged : ℤ) : Bool × ℤ :=
  if value ≤ fee * divisor then (true, unchanged)
  else (false, min (Rounding.up.divide value divisor) int64Max)

theorem compareRates_eq {v1 v2 : UInt128} {fee value : ℤ} (hc : 0 < c) (hfits : c ≤ int64Max)
    (hv1 : (v1.toNat : ℤ) = fee * c) (hv2 : (v2.toNat : ℤ) = value) (unchanged : ℤ) :
    compareRates v1 v2 c unchanged = .ok (rateVerdict fee c value unchanged) := by
  unfold compareRates rateVerdict
  rw [← hv1, ← hv2]
  by_cases hlt : v1 < v2
  · rw [if_pos hlt, if_neg (by rw [BitVec.lt_def] at hlt; omega)]
    obtain ⟨r, hr, hquot⟩ := bigDivide_up (w := v2) unchanged hc hfits
    rw [hr]
    by_cases hle : Rounding.up.divide v2.toNat c ≤ int64Max
    · rw [min_eq_left hle, ← hquot hle, decide_eq_true (hquot hle ▸ hle)]
      rfl
    · rw [min_eq_right (not_le.mp hle).le, decide_eq_false hle]
      rfl
  · rw [if_neg hlt, if_pos (by rw [BitVec.lt_def] at hlt; omega)]
    rfl

/-- `canReplaceByFee`, with its out parameter. -/
def canReplaceByFee (tx oldTx : TransactionFrameBase) (minFee : ℤ) : Fallible (Bool × ℤ) := do
  let newNumOps := max 1 tx.getNumOperations
  let oldNumOps := max 1 oldTx.getNumOperations
  let v1 ← bigMultiply tx.getFeeBid oldNumOps
  let v2 ← bigMultiply oldTx.getFeeBid newNumOps
  let minFeeN := v2 * BitVec.ofInt 128 feeMultiplier
  compareRates v1 minFeeN oldNumOps minFee

/-- The check of a fee bump's rate, with the fee of its result. -/
def checkRate (feeBid minFee innerFeeBid innerMinFee feeCharged : ℤ) : Fallible (Bool × ℤ) := do
  let v1 ← bigMultiply feeBid innerMinFee
  let v2 ← bigMultiply innerFeeBid minFee
  compareRates v1 v2 innerMinFee feeCharged

/-- `FeeBumpTransactionFrame::commonValidPreSeqNum`, with the fee of its result. -/
def commonValidPreSeqNum (tx : FeeBumpTransactionFrame) (feeCharged : ℤ) :
    LedgerM (Option TransactionResultCode × ℤ) := do
  let header ← loadHeader
  if header.ledgerVersion < 13 then
    return (some .txNotSupported, feeCharged)
  if tx.fee < tx.getMinFee header then
    return (some .txInsufficientFee, feeCharged)
  let (high, feeCharged) ← lift (checkRate tx.fee (tx.getMinFee header) tx.innerTx.getFeeBid
    (tx.innerTx.getMinFee header) feeCharged)
  if ¬ high then
    return (some .txInsufficientFee, feeCharged)
  if ← exists? (accountKey tx.feeSource) then
    return (none, feeCharged)
  else
    return (some .txNoAccount, feeCharged)

theorem checkRate_eq {feeBid minFee innerFeeBid innerMinFee : ℤ} (feeCharged : ℤ)
    (hfee : IsAmount feeBid) (hmin : IsAmount minFee) (hinner : IsAmount innerFeeBid)
    (hinnerMin : IsAmount innerMinFee) (hpos : 0 < innerMinFee) :
    checkRate feeBid minFee innerFeeBid innerMinFee feeCharged =
      .ok (rateVerdict feeBid innerMinFee (innerFeeBid * minFee) feeCharged) := by
  obtain ⟨v1, hv1, hv1n⟩ :=
    bigMultiply_toNat hfee.nonneg hfee.le_max hinnerMin.nonneg hinnerMin.le_max
  obtain ⟨v2, hv2, hv2n⟩ := bigMultiply_toNat hinner.nonneg hinner.le_max hmin.nonneg hmin.le_max
  rw [checkRate, hv1, hv2]
  exact compareRates_eq hpos hinnerMin.le_max hv1n hv2n feeCharged

end

end Wide

/-! ## The rates -/

/-- What is known of a transaction that is compared: its fee is an amount, and it has at most as
many operations as an envelope can hold. -/
structure Comparable (tx : TransactionFrameBase) : Prop where
  fee : IsAmount tx.getFeeBid
  operations : tx.getNumOperations ≤ 101

/-- A gate for the fee: it lets exactly the fees pass that are large enough, and what it reports to
the others is the smallest such fee, or the largest number if that is no fee. -/
structure Gate (passes : ℤ → Prop) (fee : ℤ) (verdict : Bool × ℤ) : Prop where
  passes_iff : verdict.1 = true ↔ passes fee
  least : verdict.1 = false →
    ∃ least, IsLeast {fee | passes fee} least ∧ verdict.2 = min least int64Max

section
variable {a c fee : ℤ}

theorem isLeast_divide_up (hc : 0 < c) :
    IsLeast {fee : ℤ | a ≤ fee * c} (Rounding.up.divide a c) := by
  obtain ⟨hle, hlt⟩ := (Rounding.divide_up_iff (a := a) (x := Rounding.up.divide a c) hc).mp rfl
  refine ⟨hle, fun fee hfee => ?_⟩
  have hmul : Rounding.up.divide a c * c < (fee + 1) * c := by
    rw [add_mul, one_mul]
    exact hlt.trans_le (by simpa using hfee)
  exact Int.lt_add_one_iff.mp (lt_of_mul_lt_mul_right hmul hc.le)

/-- The comparison of products is a gate for the quotients. -/
theorem gate_rateVerdict {passes : ℤ → Prop} (hc : 0 < c) (hpasses : ∀ fee, passes fee ↔ a ≤ fee * c)
    (unchanged : ℤ) : Gate passes fee (Wide.rateVerdict fee c a unchanged) := by
  unfold Wide.rateVerdict
  by_cases hle : a ≤ fee * c
  · rw [if_pos hle]
    exact ⟨⟨fun _ => (hpasses fee).mpr hle, fun _ => rfl⟩, nofun⟩
  · rw [if_neg hle]
    refine ⟨⟨nofun, fun h => absurd ((hpasses fee).mp h) hle⟩, fun _ => ⟨_, ?_, rfl⟩⟩
    simp only [hpasses]
    exact isLeast_divide_up hc

end

variable {tx : TransactionFrameBase}

theorem Comparable.numOps (h : Comparable tx) :
    IsAmount ((max 1 tx.getNumOperations : ℕ) : ℤ) := by
  have := h.operations
  constructor
  · omega
  · rw [int64Max]
    omega

variable {oldTx : TransactionFrameBase}

theorem canReplaceByFee_eq (htx : Comparable tx) (hold : Comparable oldTx) (minFee : ℤ) :
    Wide.canReplaceByFee tx oldTx minFee =
      .ok (Wide.rateVerdict tx.getFeeBid (max 1 oldTx.getNumOperations : ℕ)
        (oldTx.getFeeBid * (max 1 tx.getNumOperations : ℕ) * 10) minFee) := by
  obtain ⟨v1, hv1, hv1n⟩ := Wide.bigMultiply_toNat htx.fee.nonneg htx.fee.le_max hold.numOps.nonneg
    hold.numOps.le_max
  obtain ⟨v2, hv2, hv2n⟩ := Wide.bigMultiply_toNat hold.fee.nonneg hold.fee.le_max htx.numOps.nonneg
    htx.numOps.le_max
  have hprod : oldTx.getFeeBid * (max 1 tx.getNumOperations : ℕ) ≤ int64Max * 101 := by
    have := htx.operations
    exact mul_le_mul hold.fee.le_max (by omega) htx.numOps.nonneg (by decide)
  -- the product of the multiplier stays within the 128 bits
  have hv2m : ((v2 * BitVec.ofInt 128 feeMultiplier).toNat : ℤ) =
      oldTx.getFeeBid * (max 1 tx.getNumOperations : ℕ) * 10 := by
    rw [int64Max] at hprod
    have hten : (BitVec.ofInt 128 feeMultiplier).toNat = 10 := by decide
    rw [BitVec.toNat_mul, hten]
    omega
  rw [Wide.canReplaceByFee, hv1, hv2]
  exact Wide.compareRates_eq (by omega) hold.numOps.le_max hv1n hv2m minFee

/-- The gate of `canReplaceByFee`. -/
theorem canReplaceByFee_gate (htx : Comparable tx) (hold : Comparable oldTx) (minFee : ℤ) :
    ∃ verdict, Wide.canReplaceByFee tx oldTx minFee = .ok verdict ∧
      Gate (fun fee => 10 * (oldTx.getFeeBid : ℚ) / (max 1 oldTx.getNumOperations : ℕ) ≤
        (fee : ℚ) / (max 1 tx.getNumOperations : ℕ)) tx.getFeeBid verdict := by
  refine ⟨_, canReplaceByFee_eq htx hold minFee, gate_rateVerdict (by omega) (fun fee => ?_) minFee⟩
  rw [div_le_div_iff₀ (by positivity) (by positivity), mul_comm (10 : ℚ), mul_right_comm]
  norm_cast

variable {baseFee : ℤ} {ops : ℕ}

theorem feeFor_isAmount (hbase : 1 ≤ baseFee) (hbaseMax : baseFee ≤ 2 ^ 32 - 1) (hops : ops ≤ 101) :
    0 < feeFor baseFee ops ∧ IsAmount (feeFor baseFee ops) := by
  have hpos : 0 < feeFor baseFee ops := mul_pos (by omega) (by omega)
  refine ⟨hpos, hpos.le, ?_⟩
  calc feeFor baseFee ops ≤ (2 ^ 32 - 1) * 101 :=
        mul_le_mul hbaseMax (by omega) (by omega) (by decide)
    _ ≤ int64Max := by decide

/-- The gate for the fee of a fee bump. -/
theorem gate_feeBump {fee innerFee : ℤ} {innerOps : ℕ} (hbase : 1 ≤ baseFee) (feeCharged : ℤ) :
    Gate (fun fee => (innerFee : ℚ) / feeFor baseFee innerOps ≤ fee / feeFor baseFee ops) fee
      (Wide.rateVerdict fee (feeFor baseFee innerOps) (innerFee * feeFor baseFee ops)
        feeCharged) := by
  have hpos (ops : ℕ) : 0 < feeFor baseFee ops := mul_pos (by omega) (by omega)
  refine gate_rateVerdict (hpos innerOps) (fun fee => ?_) feeCharged
  rw [div_le_div_iff₀ (by exact_mod_cast hpos innerOps) (by exact_mod_cast hpos ops)]
  norm_cast

theorem checkRate_feeFor {fee innerFee : ℤ} {innerOps : ℕ} (hbase : 1 ≤ baseFee)
    (hbaseMax : baseFee ≤ 2 ^ 32 - 1) (hfee : IsAmount fee) (hinner : IsAmount innerFee)
    (hops : ops ≤ 101) (hinnerOps : innerOps ≤ 101) (feeCharged : ℤ) :
    Wide.checkRate fee (feeFor baseFee ops) innerFee (feeFor baseFee innerOps) feeCharged =
      .ok (Wide.rateVerdict fee (feeFor baseFee innerOps) (innerFee * feeFor baseFee ops)
        feeCharged) := by
  obtain ⟨-, hmin⟩ := feeFor_isAmount hbase hbaseMax hops
  obtain ⟨hinnerPos, hinnerMin⟩ := feeFor_isAmount hbase hbaseMax hinnerOps
  exact Wide.checkRate_eq feeCharged hfee hmin hinner hinnerMin hinnerPos

/-! ## The queue and the validation use these gates -/

/-- The words do not change what `canReplaceByFee` answers. -/
theorem wide_canReplaceByFee (htx : Comparable tx) (hold : Comparable oldTx) (minFee : ℤ) :
    Wide.canReplaceByFee tx oldTx minFee =
      (canReplaceByFee tx oldTx).map fun r => r.elim (true, minFee) fun fee => (false, fee) := by
  rw [canReplaceByFee_eq htx hold, canReplaceByFee, bigMultiply_eq htx.fee.nonneg (by omega),
    bigMultiply_eq hold.fee.nonneg (by omega)]
  change _ = Except.map _ (if _ then _ else _)
  rw [feeMultiplier, Wide.rateVerdict]
  by_cases hle : oldTx.getFeeBid * (max 1 tx.getNumOperations : ℕ) * 10 ≤
      tx.getFeeBid * (max 1 oldTx.getNumOperations : ℕ)
  · rw [if_pos hle, if_pos hle]
    rfl
  · rw [if_neg hle, if_neg hle, min_def]
    rfl

section
variable {tx : FeeBumpTransactionFrame} {s : LedgerTxn}

/-- What is known of a fee bump that is validated. -/
structure Bumpable (s : LedgerTxn) (tx : FeeBumpTransactionFrame) : Prop where
  baseFee_pos : 1 ≤ s.header.baseFee
  baseFee_le : s.header.baseFee ≤ 2 ^ 32 - 1
  fee : tx.fee ≤ int64Max
  operations : tx.innerTx.getNumOperations ≤ 100

theorem Bumpable.checkRate (h : Bumpable s tx) (hmin : tx.getMinFee s.header ≤ tx.fee)
    (feeCharged : ℤ) :
    Wide.checkRate tx.fee (tx.getMinFee s.header) tx.innerTx.getFeeBid
        (tx.innerTx.getMinFee s.header) feeCharged =
      .ok (Wide.rateVerdict tx.fee (tx.innerTx.getMinFee s.header)
        (tx.innerTx.getFeeBid * tx.getMinFee s.header) feeCharged) := by
  have hpos := h.baseFee_pos
  have hle := h.baseFee_le
  have hinner : IsAmount tx.innerTx.getFeeBid := by
    have := tx.innerTx.fee.isLt
    refine ⟨Int.natCast_nonneg _, ?_⟩
    rw [TransactionFrame.getFeeBid, int64Max]
    omega
  exact checkRate_feeFor (by omega) (by omega) ⟨feeFor_nonneg.trans hmin, h.fee⟩ hinner
    (Nat.succ_le_succ h.operations) (h.operations.trans (by decide)) feeCharged

theorem commonValidPreSeqNum_gate (hactive : s.mActive = []) (hversion : 13 ≤ s.header.ledgerVersion)
    (h : Bumpable s tx) (hmin : tx.getMinFee s.header ≤ tx.fee) (feeCharged : ℤ) :
    After (Wide.commonValidPreSeqNum tx feeCharged) s
      (fun r _ => ∃ high, Gate (fun fee => (tx.innerTx.getFeeBid : ℚ) / tx.innerTx.getMinFee s.header ≤
          fee / tx.getMinFee s.header) tx.fee (high, r.2) ∧
        (high = true ↔ r.1 ≠ some .txInsufficientFee))
      (fun _ _ => False) := by
  have hpos := h.baseFee_pos
  have hgate : Gate (fun fee => (tx.innerTx.getFeeBid : ℚ) / tx.innerTx.getMinFee s.header ≤
      fee / tx.getMinFee s.header) tx.fee (Wide.rateVerdict tx.fee (tx.innerTx.getMinFee s.header)
        (tx.innerTx.getFeeBid * tx.getMinFee s.header) feeCharged) :=
    gate_feeBump (by omega) feeCharged
  have hverdict := h.checkRate hmin feeCharged
  unfold Wide.commonValidPreSeqNum
  simp only [after_bind, after_loadHeader, after_ite, after_pure, after_lift, hverdict, yields_ok]
  generalize hr : Wide.rateVerdict _ _ _ _ = verdict at hgate ⊢
  obtain ⟨high, least⟩ := verdict
  refine ⟨fun hold => absurd hold (by omega), fun _ => ⟨fun hlow => absurd hlow (by omega), fun _ => ?_⟩⟩
  refine ⟨fun hhigh => ⟨high, hgate, by simpa using hhigh⟩, fun hhigh => ?_⟩
  refine (exists?_after hactive).imp fun found t _ => ?_
  have hpasses : high = true := by simpa using hhigh
  exact ⟨fun _ => ⟨high, hgate, by simp [hpasses]⟩, fun _ => ⟨high, hgate, by simp [hpasses]⟩⟩

/-- The fee of the result does not change what is answered. -/
theorem wide_commonValidPreSeqNum (h : Bumpable s tx) (feeCharged : ℤ) :
    (Prod.fst <$> Wide.commonValidPreSeqNum tx feeCharged) s = tx.commonValidPreSeqNum s := by
  have hheader : loadHeader s = .ok s.header s := rfl
  unfold Wide.commonValidPreSeqNum FeeBumpTransactionFrame.commonValidPreSeqNum
  rw [map_bind, bind_of_ok hheader, bind_of_ok hheader]
  by_cases hv : s.header.ledgerVersion < 13
  · simp only [if_pos hv]
    rfl
  simp only [if_neg hv]
  by_cases hlow : tx.fee < tx.getMinFee s.header
  · simp only [if_pos hlow]
    rfl
  have hmin := not_lt.mp hlow
  have hv1 : bigMultiply tx.fee (tx.innerTx.getMinFee s.header) = .ok _ :=
    bigMultiply_eq (feeFor_nonneg.trans hmin) feeFor_nonneg
  have hv2 : bigMultiply tx.innerTx.getFeeBid (tx.getMinFee s.header) = .ok _ :=
    bigMultiply_eq (Int.natCast_nonneg _) feeFor_nonneg
  simp only [if_neg hlow, h.checkRate hmin, hv1, hv2, Wide.rateVerdict]
  by_cases hrate : tx.innerTx.getFeeBid * tx.getMinFee s.header ≤
      tx.fee * tx.innerTx.getMinFee s.header
  · rw [if_pos hrate]
    change (Prod.fst <$> (exists? _ >>= _)) s = (if _ then _ else _ : LedgerM _) s
    rw [if_neg (not_lt.mpr hrate), map_bind]
    refine congrArg (fun f => (exists? (accountKey tx.feeSource) >>= f) s) (funext fun found => ?_)
    cases found <;> rfl
  · rw [if_neg hrate]
    change _ = (if _ then _ else _ : LedgerM _) s
    rw [if_pos (not_le.mp hrate)]
    rfl

end

/-- Both gates compare the rates as rational numbers, and the fee that they report is the smallest
that would have passed. -/
theorem fee_gates_exact :
    (∀ (tx oldTx : TransactionFrameBase) (minFee : ℤ), Comparable tx → Comparable oldTx →
      ∃ verdict, Wide.canReplaceByFee tx oldTx minFee = .ok verdict ∧
        Gate (fun fee => 10 * (oldTx.getFeeBid : ℚ) / (max 1 oldTx.getNumOperations : ℕ) ≤
          (fee : ℚ) / (max 1 tx.getNumOperations : ℕ)) tx.getFeeBid verdict) ∧
    (∀ (baseFee fee innerFee feeCharged : ℤ) (ops innerOps : ℕ), 1 ≤ baseFee →
      baseFee ≤ 2 ^ 32 - 1 → IsAmount fee → IsAmount innerFee → ops ≤ 101 → innerOps ≤ 101 →
      ∃ verdict, Wide.checkRate fee (feeFor baseFee ops) innerFee (feeFor baseFee innerOps)
          feeCharged = .ok verdict ∧
        Gate (fun fee => (innerFee : ℚ) / feeFor baseFee innerOps ≤ fee / feeFor baseFee ops) fee
          verdict) ∧
    (∀ (s : LedgerTxn) (tx : FeeBumpTransactionFrame) (feeCharged : ℤ), s.mActive = [] →
      13 ≤ s.header.ledgerVersion → Bumpable s tx → tx.getMinFee s.header ≤ tx.fee →
      After (Wide.commonValidPreSeqNum tx feeCharged) s
        (fun r _ => ∃ high,
          Gate (fun fee => (tx.innerTx.getFeeBid : ℚ) / tx.innerTx.getMinFee s.header ≤
            fee / tx.getMinFee s.header) tx.fee (high, r.2) ∧
          (high = true ↔ r.1 ≠ some .txInsufficientFee))
        (fun _ _ => False)) := by
  refine ⟨fun tx oldTx minFee htx hold => canReplaceByFee_gate htx hold minFee, ?_,
    fun s tx feeCharged hactive hversion h hmin =>
      commonValidPreSeqNum_gate hactive hversion h hmin feeCharged⟩
  intro baseFee fee innerFee feeCharged ops innerOps hbase hbaseMax hfee hinner hops hinnerOps
  exact ⟨_, checkRate_feeFor hbase hbaseMax hfee hinner hops hinnerOps feeCharged,
    gate_feeBump hbase feeCharged⟩

namespace CheapBump

def inner : TransactionFrame :=
  ⟨false, false, 1, 2, 7, Fin.ofNat (2 ^ 32) 300, 5, none, [⟨none, .inflation⟩], []⟩

/-- A fee bump that bids less for each operation than the transaction inside. -/
def bump : FeeBumpTransactionFrame := ⟨3, 4, 8, 400, inner, []⟩

def ledger : LedgerTxn where
  entries := ∅
  header := ⟨13, 0, 5, 1000, 0, 0, 0, 100, 10, 100⟩

end CheapBump

open CheapBump in
/-- It is refused at both gates; as a fee bump it would have had to bid 600. -/
theorem cheap_bump_refused :
    (∃ verdict, Wide.canReplaceByFee (.feeBump bump) (.tx inner) 0 = .ok verdict ∧
      Gate (fun fee => 10 * ((TransactionFrameBase.tx inner).getFeeBid : ℚ) /
          (max 1 (TransactionFrameBase.tx inner).getNumOperations : ℕ) ≤
        (fee : ℚ) / (max 1 (TransactionFrameBase.feeBump bump).getNumOperations : ℕ))
        (TransactionFrameBase.feeBump bump).getFeeBid verdict) ∧
    (∃ verdict, Wide.checkRate 400 (feeFor 100 2) 300 (feeFor 100 1) 0 = .ok verdict ∧
      Gate (fun fee => ((300 : ℤ) : ℚ) / feeFor 100 1 ≤ fee / feeFor 100 2) 400 verdict) ∧
    After (Wide.commonValidPreSeqNum bump 0) ledger
      (fun r _ => ∃ high,
        Gate (fun fee => (bump.innerTx.getFeeBid : ℚ) / bump.innerTx.getMinFee ledger.header ≤
          fee / bump.getMinFee ledger.header) bump.fee (high, r.2) ∧
        (high = true ↔ r.1 ≠ some .txInsufficientFee))
      (fun _ _ => False) :=
  ⟨fee_gates_exact.1 _ _ 0 ⟨⟨by decide, by decide⟩, by decide⟩ ⟨⟨by decide, by decide⟩, by decide⟩,
    fee_gates_exact.2.1 100 400 300 0 2 1 (by decide) (by decide) ⟨by decide, by decide⟩
      ⟨by decide, by decide⟩ (by decide) (by decide),
    fee_gates_exact.2.2 ledger bump 0 rfl (by decide) ⟨by decide, by decide, by decide, by decide⟩
      (by decide)⟩

example : Wide.checkRate 400 (feeFor 100 2) 300 (feeFor 100 1) 0 = .ok (false, 600) := by
  decide +kernel

end DigitalBits.Herder
