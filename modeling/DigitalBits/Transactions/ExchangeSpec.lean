import DigitalBits.Transactions.TransactionUtils

/-!
# What an exchange guarantees

The offer with the smaller value is taken whole and the other one stays. Which asset is
rounded first depends on the price: the amount of the more valuable one is rounded down to
the value, and the amount of the other follows from it, in favour of the offer that stays.
The comments in the source argue this case by case; here the amounts are first computed
without the checks, and the checks are then shown to be idle.
-/
namespace DigitalBits.Ledger
open Lib

/-! ## Divisions -/

section
variable {a b c x : ℤ}

theorem Rounding.divide_down_iff (hb : 0 < b) :
    Rounding.down.divide a b = x ↔ x * b ≤ a ∧ a < x * b + b := by
  constructor
  · rintro rfl
    have hlt := Int.lt_ediv_add_one_mul_self a hb
    rw [add_mul, one_mul] at hlt
    exact ⟨Int.ediv_mul_le a hb.ne', hlt⟩
  · rintro ⟨hle, hlt⟩
    refine le_antisymm ?_ ((Int.le_ediv_iff_mul_le hb).mpr hle)
    refine Int.lt_add_one_iff.mp ((Int.ediv_lt_iff_lt_mul hb).mpr ?_)
    rwa [add_mul, one_mul]

theorem Rounding.divide_up_iff (hb : 0 < b) :
    Rounding.up.divide a b = x ↔ a ≤ x * b ∧ x * b < a + b := by
  change Rounding.down.divide (a + b - 1) b = x ↔ _
  rw [Rounding.divide_down_iff hb]
  constructor
  · rintro ⟨hle, hlt⟩
    constructor <;> omega
  · rintro ⟨hle, hlt⟩
    constructor <;> omega

theorem bigMultiply_eq (ha : 0 ≤ a) (hb : 0 ≤ b) : bigMultiply a b = .ok (a * b) := by
  rw [bigMultiply, Fallible.assert, if_pos ⟨ha, hb⟩]
  rfl

theorem bigDivideWide_eq {rounding : Rounding} (hb : 0 < b)
    (hfits : rounding.divide a b ≤ int64Max) :
    bigDivideWide a b rounding = .ok (rounding.divide a b) := by
  rw [bigDivideWide, Fallible.assert, if_pos hb]
  simp only [if_neg (not_lt.mpr hfits)]
  rfl

theorem bigDivide_eq {rounding : Rounding} (ha : 0 ≤ a) (hb : 0 ≤ b) (hc : 0 < c)
    (hfits : rounding.divide (a * b) c ≤ int64Max) :
    bigDivide a b c rounding = .ok (rounding.divide (a * b) c) := by
  rw [bigDivide, bigDivide?, Fallible.assert, if_pos ⟨ha, hb, hc⟩]
  simp only [if_pos hfits]
  rfl

end

/-! ## The amounts -/

/-- The prices of valid offers. -/
structure Price.Valid (price : Price) : Prop where
  n_pos : 0 < price.n
  d_pos : 0 < price.d
  n_le : price.n ≤ int32Max
  d_le : price.d ≤ int32Max

/-- An amount that is not negative and fits into 64 bits. -/
structure IsAmount (x : ℤ) : Prop where
  nonneg : 0 ≤ x
  le_max : x ≤ int64Max

/-- The amounts of wheat and sheep for the smaller of the two values, without checks. -/
def Price.amounts (price : Price) (wheatStays : Bool) (value maxSheep : ℤ) (round : RoundingType) :
    ℤ × ℤ :=
  if wheatStays then
    if round = .pathPaymentStrictSend then
      (Rounding.down.divide value price.n, maxSheep)
    else if price.d < price.n ∨ round = .pathPaymentStrictReceive then
      (Rounding.down.divide value price.n,
        Rounding.up.divide (Rounding.down.divide value price.n * price.n) price.d)
    else
      (Rounding.down.divide (Rounding.down.divide value price.d * price.d) price.n,
        Rounding.down.divide value price.d)
  else if price.d < price.n then
    (Rounding.down.divide value price.n,
      Rounding.down.divide (Rounding.down.divide value price.n * price.n) price.d)
  else
    (Rounding.up.divide (Rounding.down.divide value price.d * price.d) price.n,
      Rounding.down.divide value price.d)

/-- What the amounts have in common, whichever formula gave them. -/
structure Price.Fair (price : Price) (wheatStays : Bool) (value wheat sheep : ℤ)
    (round : RoundingType) : Prop where
  wheat_nonneg : 0 ≤ wheat
  sheep_nonneg : 0 ≤ sheep
  wheat_le : ∀ k, value ≤ k * price.n → wheat ≤ k
  sheep_le : (wheatStays = true → round ≠ .pathPaymentStrictSend) →
    ∀ k, value ≤ k * price.d → sheep ≤ k
  favours_wheat : wheatStays = true → wheat * price.n ≤ sheep * price.d
  favours_sheep : wheatStays = false → sheep * price.d ≤ wheat * price.n
  both : round ≠ .pathPaymentStrictSend → (wheat = 0 ↔ sheep = 0)

section
variable {price : Price} {value maxSheep : ℤ} {round : RoundingType}

/-- A quotient rounded down is below every bound of the value. -/
theorem divide_down_le {k b : ℤ} (hb : 0 < b) (h : value ≤ k * b) :
    Rounding.down.divide value b ≤ k :=
  le_of_mul_le_mul_right (((Rounding.divide_down_iff hb).mp rfl).1.trans h) hb

theorem divide_up_le {k b : ℤ} (hb : 0 < b) (h : value ≤ k * b) :
    Rounding.up.divide value b ≤ k := by
  have hlt := ((Rounding.divide_up_iff hb).mp rfl).2.trans_le (add_le_add_left h b)
  rw [show k * b + b = (k + 1) * b by ring] at hlt
  exact Int.lt_add_one_iff.mp (lt_of_mul_lt_mul_right hlt hb.le)

theorem divide_down_nonneg {b : ℤ} (hb : 0 < b) (h : 0 ≤ value) :
    0 ≤ Rounding.down.divide value b := Int.ediv_nonneg h hb.le

theorem divide_up_nonneg {b : ℤ} (hb : 0 < b) (h : 0 ≤ value) :
    0 ≤ Rounding.up.divide value b := Int.ediv_nonneg (by omega) hb.le

theorem eq_zero_of_mul_lt {x b c : ℤ} (hx : 0 ≤ x) (hb : 0 < b) (hcb : c ≤ b) (h : x * b < c) :
    x = 0 := by
  by_contra hne
  have hone : 1 * b ≤ x * b := mul_le_mul_of_nonneg_right (by omega) hb.le
  omega

theorem eq_zero_of_mul_le_zero {x b : ℤ} (hx : 0 ≤ x) (hb : 0 < b) (h : x * b ≤ 0) : x = 0 :=
  eq_zero_of_mul_lt hx hb (c := 1) (by omega) (by omega)

/-- The four formulas are fair, and so is the fixed amount of a strict send. -/
theorem Price.amounts_fair (hn : 0 < price.n) (hd : 0 < price.d) (hv : 0 ≤ value)
    (wheatStays : Bool) (hsend : wheatStays = true → round = .pathPaymentStrictSend →
      value ≤ maxSheep * price.d) :
    price.Fair wheatStays value (price.amounts wheatStays value maxSheep round).1
      (price.amounts wheatStays value maxSheep round).2 round := by
  -- the amount computed first, from the value
  have hW := (Rounding.divide_down_iff (a := value) hn).mp rfl
  have hS := (Rounding.divide_down_iff (a := value) hd).mp rfl
  have hW0 := divide_down_nonneg hn hv
  have hS0 := divide_down_nonneg hd hv
  unfold Price.amounts
  generalize Rounding.down.divide value price.n = wheat at hW hW0 ⊢
  generalize Rounding.down.divide value price.d = sheep at hS hS0 ⊢
  have hwheat : ∀ k, value ≤ k * price.n → wheat ≤ k := fun k hk =>
    le_of_mul_le_mul_right (hW.1.trans hk) hn
  have hsheep : ∀ k, value ≤ k * price.d → sheep ≤ k := fun k hk =>
    le_of_mul_le_mul_right (hS.1.trans hk) hd
  have hWn : 0 ≤ wheat * price.n := mul_nonneg hW0 hn.le
  have hSd : 0 ≤ sheep * price.d := mul_nonneg hS0 hd.le
  cases wheatStays with
  | true =>
    rw [if_pos rfl]
    split_ifs with hround hmore <;> dsimp only
    · have hle := hsend rfl hround
      refine ⟨hW0, ?_, hwheat, fun h => absurd hround (h rfl), fun _ => hW.1.trans hle, nofun,
        fun h => absurd hround h⟩
      exact nonneg_of_mul_nonneg_left (hv.trans hle) hd
    · obtain ⟨hup, hlt⟩ := (Rounding.divide_up_iff (a := wheat * price.n) hd).mp rfl
      have h0 := divide_up_nonneg hd hWn
      refine ⟨hW0, h0, hwheat, fun _ k hk => divide_up_le hd (hW.1.trans hk), fun _ => hup, nofun,
        fun _ => ⟨fun hzero => ?_, fun hzero => ?_⟩⟩
      · exact eq_zero_of_mul_lt h0 hd le_rfl (hlt.trans_eq (by rw [hzero, zero_mul, zero_add]))
      · exact eq_zero_of_mul_le_zero hW0 hn (hup.trans_eq (by rw [hzero, zero_mul]))
    · have hnd : price.n ≤ price.d := not_lt.mp fun h => hmore (.inl h)
      obtain ⟨hdown, hlt⟩ := (Rounding.divide_down_iff (a := sheep * price.d) hn).mp rfl
      have h0 := divide_down_nonneg hn hSd
      refine ⟨h0, hS0, fun k hk => divide_down_le hn (hS.1.trans hk), fun _ => hsheep,
        fun _ => hdown, nofun, fun _ => ⟨fun hzero => ?_, fun hzero => ?_⟩⟩
      · exact eq_zero_of_mul_lt hS0 hd hnd (hlt.trans_eq (by rw [hzero, zero_mul, zero_add]))
      · exact eq_zero_of_mul_le_zero h0 hn (hdown.trans_eq (by rw [hzero, zero_mul]))
  | false =>
    rw [if_neg Bool.false_ne_true]
    split_ifs with hmore <;> dsimp only
    · obtain ⟨hdown, hlt⟩ := (Rounding.divide_down_iff (a := wheat * price.n) hd).mp rfl
      have h0 := divide_down_nonneg hd hWn
      refine ⟨hW0, h0, hwheat, fun _ k hk => divide_down_le hd (hW.1.trans hk), nofun,
        fun _ => hdown, fun _ => ⟨fun hzero => ?_, fun hzero => ?_⟩⟩
      · exact eq_zero_of_mul_le_zero h0 hd (hdown.trans_eq (by rw [hzero, zero_mul]))
      · exact eq_zero_of_mul_lt hW0 hn hmore.le (hlt.trans_eq (by rw [hzero, zero_mul, zero_add]))
    · obtain ⟨hup, hlt⟩ := (Rounding.divide_up_iff (a := sheep * price.d) hn).mp rfl
      have h0 := divide_up_nonneg hn hSd
      refine ⟨h0, hS0, fun k hk => divide_up_le hn (hS.1.trans hk), fun _ => hsheep, nofun,
        fun _ => hup, fun _ => ⟨fun hzero => ?_, fun hzero => ?_⟩⟩
      · exact eq_zero_of_mul_le_zero hS0 hd (hup.trans_eq (by rw [hzero, zero_mul]))
      · exact eq_zero_of_mul_lt h0 hn le_rfl (hlt.trans_eq (by rw [hzero, zero_mul, zero_add]))

/-- Without an overflow the code computes these amounts. -/
theorem exchangeAmounts_eq (hn : 0 < price.n) (hd : 0 < price.d) {wheatValue sheepValue : ℤ}
    {maxSheepSend maxSheepReceive : ℤ} (hv : 0 ≤ min wheatValue sheepValue)
    (hvn : min wheatValue sheepValue ≤ int64Max * price.n)
    (hvd : min wheatValue sheepValue ≤ int64Max * price.d) :
    exchangeAmounts price wheatValue sheepValue maxSheepSend maxSheepReceive round =
      .ok (price.amounts (decide (sheepValue < wheatValue)) (min wheatValue sheepValue)
        (min maxSheepSend maxSheepReceive) round) := by
  have hW := (Rounding.divide_down_iff (a := min wheatValue sheepValue) hn).mp rfl
  have hS := (Rounding.divide_down_iff (a := min wheatValue sheepValue) hd).mp rfl
  have hWeq := bigDivideWide_eq hn (divide_down_le hn hvn)
  have hSeq := bigDivideWide_eq hd (divide_down_le hd hvd)
  have hW0 := divide_down_nonneg hn hv
  have hS0 := divide_down_nonneg hd hv
  have hdown := bigDivide_eq hW0 hn.le hd (divide_down_le hd (hW.1.trans hvd))
  have hup := bigDivide_eq hW0 hn.le hd (divide_up_le hd (hW.1.trans hvd))
  have hdown' := bigDivide_eq hS0 hd.le hn (divide_down_le hn (hS.1.trans hvn))
  have hup' := bigDivide_eq hS0 hd.le hn (divide_up_le hn (hS.1.trans hvn))
  unfold exchangeAmounts Price.amounts
  by_cases hstays : sheepValue < wheatValue
  · rw [min_eq_right hstays.le] at *
    rw [if_pos hstays, decide_eq_true hstays, if_pos rfl]
    split_ifs
    · rw [hWeq]; rfl
    · rw [hWeq]
      change (bigDivide _ _ _ _ >>= _) = _
      rw [hup]; rfl
    · rw [hSeq]
      change (bigDivide _ _ _ _ >>= _) = _
      rw [hdown']; rfl
  · rw [min_eq_left (not_lt.mp hstays)] at *
    rw [if_neg hstays, decide_eq_false hstays, if_neg Bool.false_ne_true]
    split_ifs
    · rw [hWeq]
      change (bigDivide _ _ _ _ >>= _) = _
      rw [hdown]; rfl
    · rw [hSeq]
      change (bigDivide _ _ _ _ >>= _) = _
      rw [hup']; rfl

end

/-! ## The exchange before the thresholds -/

/-- The exchange without its checks. -/
def Price.exchange (price : Price) (maxWheatSend maxWheatReceive maxSheepSend maxSheepReceive : ℤ)
    (round : RoundingType) : ExchangeResultV10 :=
  let wheatValue := min (maxWheatSend * price.n) (maxSheepReceive * price.d)
  let sheepValue := min (maxSheepSend * price.d) (maxWheatReceive * price.n)
  let amounts := price.amounts (decide (sheepValue < wheatValue)) (min wheatValue sheepValue)
    (min maxSheepSend maxSheepReceive) round
  ⟨amounts.1, amounts.2, decide (sheepValue < wheatValue)⟩

/-- What an exchange within limits guarantees. -/
structure ExchangeResultV10.Fits (res : ExchangeResultV10) (price : Price)
    (maxWheatSend maxWheatReceive maxSheepSend maxSheepReceive : ℤ) : Prop where
  wheat_nonneg : 0 ≤ res.numWheatReceived
  sheep_nonneg : 0 ≤ res.numSheepSend
  wheat_le : res.numWheatReceived ≤ min maxWheatSend maxWheatReceive
  sheep_le : res.numSheepSend ≤ min maxSheepSend maxSheepReceive
  favours_wheat : res.wheatStays = true →
    res.numWheatReceived * price.n ≤ res.numSheepSend * price.d
  favours_sheep : res.wheatStays = false →
    res.numSheepSend * price.d ≤ res.numWheatReceived * price.n

theorem calculateOfferValue_eq {priceN priceD maxSend maxReceive : ℤ} (hN : 0 ≤ priceN)
    (hD : 0 ≤ priceD) (hsend : 0 ≤ maxSend) (hreceive : 0 ≤ maxReceive) :
    calculateOfferValue priceN priceD maxSend maxReceive =
      .ok (min (maxSend * priceN) (maxReceive * priceD)) := by
  rw [calculateOfferValue, bigMultiply_eq hsend hN, bigMultiply_eq hreceive hD]
  rfl

section
variable {price : Price} (hp : price.Valid)
  {maxWheatSend maxWheatReceive maxSheepSend maxSheepReceive : ℤ}
  (hws : IsAmount maxWheatSend) (hwr : IsAmount maxWheatReceive)
  (hss : IsAmount maxSheepSend) (hsr : IsAmount maxSheepReceive) (round : RoundingType)
include hp

include hws hwr hss hsr

/-- The smaller value is not negative and bounded by each of the limits. -/
theorem Price.Valid.value_bounds :
    0 ≤ min (min (maxWheatSend * price.n) (maxSheepReceive * price.d))
      (min (maxSheepSend * price.d) (maxWheatReceive * price.n)) :=
  le_min (le_min (mul_nonneg hws.nonneg hp.n_pos.le) (mul_nonneg hsr.nonneg hp.d_pos.le))
    (le_min (mul_nonneg hss.nonneg hp.d_pos.le) (mul_nonneg hwr.nonneg hp.n_pos.le))

theorem Price.exchange_fair :
    price.Fair (price.exchange maxWheatSend maxWheatReceive maxSheepSend maxSheepReceive
        round).wheatStays
      (min (min (maxWheatSend * price.n) (maxSheepReceive * price.d))
        (min (maxSheepSend * price.d) (maxWheatReceive * price.n)))
      (price.exchange maxWheatSend maxWheatReceive maxSheepSend maxSheepReceive
        round).numWheatReceived
      (price.exchange maxWheatSend maxWheatReceive maxSheepSend maxSheepReceive
        round).numSheepSend round := by
  refine price.amounts_fair hp.n_pos hp.d_pos (hp.value_bounds hws hwr hss hsr) _ fun _ _ => ?_
  -- a strict send takes the smaller limit on sheep, and the value is below both
  rcases le_total maxSheepSend maxSheepReceive with h | h
  · rw [min_eq_left h]
    exact (min_le_right _ _).trans (min_le_left _ _)
  · rw [min_eq_right h]
    exact (min_le_left _ _).trans (min_le_right _ _)

theorem Price.exchange_fits :
    (price.exchange maxWheatSend maxWheatReceive maxSheepSend maxSheepReceive round).Fits price
      maxWheatSend maxWheatReceive maxSheepSend maxSheepReceive := by
  have hfair := price.exchange_fair hp hws hwr hss hsr round
  refine ⟨hfair.wheat_nonneg, hfair.sheep_nonneg, le_min ?_ ?_, ?_, hfair.favours_wheat,
    hfair.favours_sheep⟩
  · exact hfair.wheat_le _ ((min_le_left _ _).trans (min_le_left _ _))
  · exact hfair.wheat_le _ ((min_le_right _ _).trans (min_le_right _ _))
  · by_cases hsend : (price.exchange maxWheatSend maxWheatReceive maxSheepSend maxSheepReceive
        round).wheatStays = true ∧ round = .pathPaymentStrictSend
    · obtain ⟨hstays, rfl⟩ := hsend
      rw [Price.exchange, Price.amounts]
      change decide _ = true at hstays
      rw [hstays, if_pos rfl, if_pos rfl]
    · have hle := hfair.sheep_le fun hstays hround => hsend ⟨hstays, hround⟩
      exact le_min (hle _ ((min_le_right _ _).trans (min_le_left _ _)))
        (hle _ ((min_le_left _ _).trans (min_le_right _ _)))

/-- The checks before the thresholds never fail. -/
theorem exchangeV10WithoutPriceErrorThresholds_eq :
    exchangeV10WithoutPriceErrorThresholds price maxWheatSend maxWheatReceive maxSheepSend
      maxSheepReceive round =
      .ok (price.exchange maxWheatSend maxWheatReceive maxSheepSend maxSheepReceive round) := by
  have hn := hp.n_pos
  have hd := hp.d_pos
  have hfits := price.exchange_fits hp hws hwr hss hsr round
  have hvn : min (min (maxWheatSend * price.n) (maxSheepReceive * price.d))
      (min (maxSheepSend * price.d) (maxWheatReceive * price.n)) ≤ int64Max * price.n :=
    ((min_le_left _ _).trans (min_le_left _ _)).trans
      (mul_le_mul_of_nonneg_right hws.le_max hn.le)
  have hvd : min (min (maxWheatSend * price.n) (maxSheepReceive * price.d))
      (min (maxSheepSend * price.d) (maxWheatReceive * price.n)) ≤ int64Max * price.d :=
    ((min_le_right _ _).trans (min_le_left _ _)).trans
      (mul_le_mul_of_nonneg_right hss.le_max hd.le)
  rw [exchangeV10WithoutPriceErrorThresholds,
    calculateOfferValue_eq hn.le hd.le hws.nonneg hsr.nonneg,
    calculateOfferValue_eq hd.le hn.le hss.nonneg hwr.nonneg]
  change (exchangeAmounts _ _ _ _ _ _ >>= _) = _
  rw [exchangeAmounts_eq hn hd (hp.value_bounds hws hwr hss hsr) hvn hvd]
  change (Fallible.require _ _ >>= _) = _
  rw [Fallible.require, if_pos ⟨hfits.wheat_nonneg, hfits.wheat_le.trans_eq (min_comm _ _)⟩]
  rw [Fallible.require, if_pos ⟨hfits.sheep_nonneg, hfits.sheep_le.trans_eq (min_comm _ _)⟩]
  rfl

end

/-! ## The thresholds -/

/-- The effective price is within one percent of the price. -/
def Price.Near (price : Price) (wheat sheep : ℤ) : Prop :=
  100 * |wheat * price.n - sheep * price.d| ≤ wheat * price.n

instance (price : Price) (wheat sheep : ℤ) : Decidable (price.Near wheat sheep) :=
  inferInstanceAs (Decidable (_ ≤ _))

section
variable {price : Price} (hp : price.Valid) {wheat sheep : ℤ} (hw : 0 ≤ wheat) (hs : 0 ≤ sheep)
include hp hw hs

theorem checkPriceErrorBound_eq (canFavorWheat : Bool) :
    checkPriceErrorBound price wheat sheep canFavorWheat =
      .ok (decide (canFavorWheat = true ∧ wheat * price.n < sheep * price.d ∨
        price.Near wheat sheep)) := by
  have hn := hp.n_pos
  have hd := hp.d_pos
  rw [checkPriceErrorBound, bigMultiply_eq (by omega) hw, bigMultiply_eq (by omega) hs]
  have hlhs : 100 * price.n * wheat = 100 * (wheat * price.n) := by ring
  have hrhs : 100 * price.d * sheep = 100 * (sheep * price.d) := by ring
  have hcap : price.n * wheat = wheat * price.n := mul_comm _ _
  change (if canFavorWheat = true ∧ 100 * price.n * wheat < 100 * price.d * sheep then _ else _) = _
  rw [hlhs, hrhs]
  have hlt : 100 * (wheat * price.n) < 100 * (sheep * price.d) ↔
      wheat * price.n < sheep * price.d := by omega
  by_cases hfavor : canFavorWheat = true ∧ 100 * (wheat * price.n) < 100 * (sheep * price.d)
  · rw [if_pos hfavor, decide_eq_true (.inl ⟨hfavor.1, hlt.mp hfavor.2⟩)]
    rfl
  · rw [if_neg hfavor]
    rw [bigMultiply_eq hn.le hw, hcap]
    change Except.ok (decide _) = _
    congr 1
    rw [decide_eq_decide, or_iff_right fun h => hfavor ⟨h.1, hlt.mpr h.2⟩, Price.Near]
    rcases le_total (sheep * price.d) (wheat * price.n) with h | h
    · rw [abs_of_nonneg (by omega)]
      split_ifs <;> omega
    · rw [abs_of_nonpos (by omega)]
      split_ifs <;> omega

/-- The thresholds let a trade pass if its price is near, and undo it otherwise. -/
theorem applyPriceErrorThresholds_normal {wheatStays : Bool}
    (hwheat : wheatStays = true → wheat * price.n ≤ sheep * price.d)
    (hsheep : wheatStays = false → sheep * price.d ≤ wheat * price.n) :
    applyPriceErrorThresholds price wheat sheep wheatStays .normal =
      .ok (if (0 < wheat ∧ 0 < sheep) ∧ price.Near wheat sheep then ⟨wheat, sheep, wheatStays⟩
        else ⟨0, 0, wheatStays⟩) := by
  unfold applyPriceErrorThresholds
  by_cases hpos : 0 < wheat ∧ 0 < sheep
  · rw [if_pos hpos, bigMultiply_eq hw hp.n_pos.le, bigMultiply_eq hs hp.d_pos.le]
    change (Fallible.require _ _ >>= _) = _
    rw [Fallible.require, if_pos fun h => absurd h.2 (not_lt.mpr (hwheat h.1))]
    rw [Fallible.require, if_pos fun h =>
      absurd h.2 (not_lt.mpr (hsheep (Bool.eq_false_iff.mpr h.1)))]
    rw [pure_bind, if_pos rfl, checkPriceErrorBound_eq hp hw hs]
    by_cases hnear : price.Near wheat sheep
    · rw [if_pos ⟨hpos, hnear⟩, decide_eq_true (.inr hnear)]
      rfl
    · rw [if_neg fun h => hnear h.2, decide_eq_false (by simp [hnear])]
      rfl
  · rw [if_neg hpos, if_neg (by simp), if_neg fun h => hpos h.1]
    rfl

/-- In a path payment the thresholds pass what favours the offer in the book. -/
theorem applyPriceErrorThresholds_path {wheatStays : Bool} {round : RoundingType}
    (hround : round ≠ .normal)
    (hwheat : wheatStays = true → wheat * price.n ≤ sheep * price.d)
    (hsheep : wheatStays = false → sheep * price.d ≤ wheat * price.n ∧ price.Near wheat sheep)
    (hsend : round = .pathPaymentStrictSend → sheep ≠ 0) :
    applyPriceErrorThresholds price wheat sheep wheatStays round =
      .ok (if 0 < wheat ∧ 0 < sheep ∨ round = .pathPaymentStrictSend then ⟨wheat, sheep, wheatStays⟩
        else ⟨0, 0, wheatStays⟩) := by
  unfold applyPriceErrorThresholds
  by_cases hpos : 0 < wheat ∧ 0 < sheep
  · rw [if_pos hpos, bigMultiply_eq hw hp.n_pos.le, bigMultiply_eq hs hp.d_pos.le]
    change (Fallible.require _ _ >>= _) = _
    rw [Fallible.require, if_pos fun h => absurd h.2 (not_lt.mpr (hwheat h.1))]
    rw [Fallible.require, if_pos fun h =>
      absurd h.2 (not_lt.mpr (hsheep (Bool.eq_false_iff.mpr h.1)).1)]
    rw [pure_bind, if_neg hround, checkPriceErrorBound_eq hp hw hs, if_pos (.inl hpos)]
    have hbound : true = true ∧ wheat * price.n < sheep * price.d ∨ price.Near wheat sheep := by
      cases wheatStays with
      | false => exact .inr (hsheep rfl).2
      | true =>
        refine (hwheat rfl).lt_or_eq.imp (fun h => ⟨rfl, h⟩) fun h => ?_
        rw [Price.Near, h, sub_self, abs_zero, mul_zero]
        exact mul_nonneg hs hp.d_pos.le
    rw [decide_eq_true hbound]
    rfl
  · rw [if_neg hpos]
    by_cases hstrict : round = .pathPaymentStrictSend
    · rw [if_pos hstrict, if_pos (.inr hstrict), Fallible.require, if_pos (hsend hstrict)]
      rfl
    · rw [if_neg hstrict, if_neg fun h => h.elim hpos hstrict]
      rfl

end

/-- An exchange of two offers within their limits. -/
theorem exchangeV10_meets_spec {price : Price} (hp : price.Valid)
    {maxWheatSend maxWheatReceive maxSheepSend maxSheepReceive : ℤ}
    (hws : IsAmount maxWheatSend) (hwr : IsAmount maxWheatReceive)
    (hss : IsAmount maxSheepSend) (hsr : IsAmount maxSheepReceive) :
    ∃ res, exchangeV10 price maxWheatSend maxWheatReceive maxSheepSend maxSheepReceive .normal =
        .ok res ∧
      res.Fits price maxWheatSend maxWheatReceive maxSheepSend maxSheepReceive ∧
      (res.numWheatReceived = 0 ↔ res.numSheepSend = 0) ∧
      (res.numWheatReceived ≠ 0 → 100 * |res.numWheatReceived * price.n -
        res.numSheepSend * price.d| ≤ res.numWheatReceived * price.n) := by
  have hfits := price.exchange_fits hp hws hwr hss hsr .normal
  have hfair := price.exchange_fair hp hws hwr hss hsr .normal
  rw [exchangeV10, exchangeV10WithoutPriceErrorThresholds_eq hp hws hwr hss hsr]
  change ∃ res, applyPriceErrorThresholds _ _ _ _ _ = _ ∧ _
  rw [applyPriceErrorThresholds_normal hp hfits.wheat_nonneg hfits.sheep_nonneg
    hfits.favours_wheat hfits.favours_sheep]
  refine ⟨_, rfl, ?_⟩
  split_ifs with htrade
  · exact ⟨hfits, hfair.both (by simp), fun _ => htrade.2⟩
  · exact ⟨⟨le_rfl, le_rfl, le_min hws.nonneg hwr.nonneg, le_min hss.nonneg hsr.nonneg,
      by simp, by simp⟩, Iff.rfl, fun h => absurd rfl h⟩

/-- A taker of half an offer: rounding favours the offer, which stays. -/
theorem exchangeV10_meets_spec_half :
    exchangeV10 ⟨3, 2⟩ 200 100 150 300 .normal = .ok ⟨100, 150, true⟩ ∧
    ∃ res, exchangeV10 ⟨3, 2⟩ 200 100 150 300 .normal = .ok res ∧ res.Fits ⟨3, 2⟩ 200 100 150 300 ∧
      (res.numWheatReceived = 0 ↔ res.numSheepSend = 0) ∧
      (res.numWheatReceived ≠ 0 → 100 * |res.numWheatReceived * 3 - res.numSheepSend * 2| ≤
        res.numWheatReceived * 3) :=
  ⟨by decide +kernel, exchangeV10_meets_spec ⟨by decide, by decide, by decide, by decide⟩
    ⟨by decide, by decide⟩ ⟨by decide, by decide⟩ ⟨by decide, by decide⟩ ⟨by decide, by decide⟩⟩

/-! ## Adjusted offers -/

/-- What is exchanged for an offer of the given value that is taken whole. -/
def Price.taken (price : Price) (value : ℤ) : ℤ × ℤ := price.amounts false value 0 .normal

section
variable {price : Price} (hp : price.Valid)
include hp

theorem Price.taken_fair {value : ℤ} (hv : 0 ≤ value) :
    price.Fair false value (price.taken value).1 (price.taken value).2 .normal :=
  price.amounts_fair hp.n_pos hp.d_pos hv false nofun

/-- What was taken whole is taken whole again, with the limit on sheep that bounded it. -/
theorem Price.taken_again {value limit : ℤ} (hv : value ≤ limit * price.d) :
    price.taken (min ((price.taken value).1 * price.n) (limit * price.d)) = price.taken value := by
  have hn := hp.n_pos
  have hd := hp.d_pos
  unfold Price.taken Price.amounts
  rw [if_neg Bool.false_ne_true, if_neg Bool.false_ne_true]
  split_ifs with hmore
  · -- wheat was rounded first, and its value is below the limit
    obtain ⟨hle, -⟩ := (Rounding.divide_down_iff (a := value) hn).mp rfl
    generalize Rounding.down.divide value price.n = wheat at hle ⊢
    have hwheat : Rounding.down.divide (wheat * price.n) price.n = wheat :=
      (Rounding.divide_down_iff hn).mpr ⟨le_rfl, by omega⟩
    rw [min_eq_left (hle.trans hv), hwheat]
  · -- sheep was rounded first; the wheat for it is worth no further sheep
    have hnd : price.n ≤ price.d := not_lt.mp hmore
    obtain ⟨hle, -⟩ := (Rounding.divide_down_iff (a := value) hd).mp rfl
    generalize Rounding.down.divide value price.d = sheep at hle ⊢
    obtain ⟨hup, hlt⟩ := (Rounding.divide_up_iff (a := sheep * price.d) hn).mp rfl
    have hsheep : Rounding.down.divide (min (Rounding.up.divide (sheep * price.d) price.n * price.n)
        (limit * price.d)) price.d = sheep := by
      refine (Rounding.divide_down_iff hd).mpr ⟨le_min hup (hle.trans hv), ?_⟩
      exact (min_le_left _ _).trans_lt (hlt.trans_le (by omega))
    simp only [hsheep]

/-- A taker without limits takes the offer whole. -/
theorem Price.exchange_unlimited {maxWheatSend maxSheepReceive : ℤ} (hs : IsAmount maxWheatSend)
    (hr : IsAmount maxSheepReceive) :
    price.exchange maxWheatSend int64Max int64Max maxSheepReceive .normal =
      ⟨(price.taken (min (maxWheatSend * price.n) (maxSheepReceive * price.d))).1,
        (price.taken (min (maxWheatSend * price.n) (maxSheepReceive * price.d))).2, false⟩ := by
  have hle : min (maxWheatSend * price.n) (maxSheepReceive * price.d) ≤
      min (int64Max * price.d) (int64Max * price.n) :=
    le_min ((min_le_right _ _).trans (mul_le_mul_of_nonneg_right hr.le_max hp.d_pos.le))
      ((min_le_left _ _).trans (mul_le_mul_of_nonneg_right hs.le_max hp.n_pos.le))
  simp only [Price.exchange, min_eq_left hle, decide_eq_false (not_lt.mpr hle)]
  rfl

/-- An offer of `amount` wheat that a taker without limits takes for `sheep`, whether or not
its owner can receive more than `limit`, at a price near its own. -/
structure Price.Settled (price : Price) (limit amount sheep : ℤ) : Prop where
  isAmount : IsAmount amount
  sheep_nonneg : 0 ≤ sheep
  sheep_le : sheep ≤ limit
  taken : ∀ k, limit ≤ k → price.taken (min (amount * price.n) (k * price.d)) = (amount, sheep)
  near : 0 < amount → 0 < sheep ∧ price.Near amount sheep

theorem Price.settled_zero {limit : ℤ} (hl : 0 ≤ limit) : price.Settled limit 0 0 := by
  refine ⟨⟨le_rfl, by decide⟩, le_rfl, hl, fun k hk => ?_, fun h => absurd h (lt_irrefl _)⟩
  have hmin : min (0 * price.n) (k * price.d) = 0 := by
    rw [zero_mul]
    exact min_eq_left (mul_nonneg (hl.trans hk) hp.d_pos.le)
  have hfair := price.taken_fair hp le_rfl
  have hwheat : (price.taken 0).1 = 0 :=
    le_antisymm (hfair.wheat_le 0 (by simp)) hfair.wheat_nonneg
  rw [hmin]
  exact Prod.ext hwheat ((hfair.both (by simp)).mp hwheat)

variable {s r : ℤ} (hs : IsAmount s) (hr : IsAmount r)
include hs hr

/-- The result of `adjustOffer` is settled. -/
theorem adjustOfferAmount_settled : ∃ a b, adjustOfferAmount price s r = .ok a ∧ a ≤ s ∧
    price.Settled r a b := by
  have hM : IsAmount int64Max := ⟨by decide, le_rfl⟩
  have hfits := price.exchange_fits hp hs hM hM hr .normal
  rw [adjustOfferAmount, exchangeV10, exchangeV10WithoutPriceErrorThresholds_eq hp hs hM hM hr]
  change ∃ a b, (applyPriceErrorThresholds _ _ _ _ _ >>= _) = _ ∧ _
  rw [applyPriceErrorThresholds_normal hp hfits.wheat_nonneg hfits.sheep_nonneg
    hfits.favours_wheat hfits.favours_sheep]
  rw [Price.exchange_unlimited hp hs hr] at hfits ⊢
  split_ifs with htrade
  · refine ⟨_, (price.taken (min (s * price.n) (r * price.d))).2, rfl,
      hfits.wheat_le.trans (min_le_left _ _), ?_, hfits.sheep_nonneg,
      hfits.sheep_le.trans (min_le_right _ _), fun k hk => ?_, fun _ => ⟨htrade.1.2, htrade.2⟩⟩
    · exact ⟨hfits.wheat_nonneg, (hfits.wheat_le.trans (min_le_left _ _)).trans hs.le_max⟩
    · exact Price.taken_again hp ((min_le_right _ _).trans
        (mul_le_mul_of_nonneg_right hk hp.d_pos.le))
  · exact ⟨0, 0, rfl, hs.nonneg, Price.settled_zero hp hr.nonneg⟩

end

section
variable {price : Price} (hp : price.Valid) {limit a b : ℤ} (h : price.Settled limit a b)
include hp h

/-- A settled offer stays as it is. -/
theorem Price.Settled.adjustOfferAmount {k : ℤ} (hk : IsAmount k) (hle : limit ≤ k) :
    adjustOfferAmount price a k = .ok a := by
  have hM : IsAmount int64Max := ⟨by decide, le_rfl⟩
  have hfits := price.exchange_fits hp h.isAmount hM hM hk .normal
  rw [Ledger.adjustOfferAmount, exchangeV10,
    exchangeV10WithoutPriceErrorThresholds_eq hp h.isAmount hM hM hk]
  change (applyPriceErrorThresholds _ _ _ _ _ >>= _) = _
  rw [applyPriceErrorThresholds_normal hp hfits.wheat_nonneg hfits.sheep_nonneg
    hfits.favours_wheat hfits.favours_sheep, Price.exchange_unlimited hp h.isAmount hk,
    h.taken k hle]
  rcases h.isAmount.nonneg.eq_or_lt with h0 | hpos
  · rw [← h0, if_neg (by simp)]
    rfl
  · rw [if_pos ⟨⟨hpos, (h.near hpos).1⟩, (h.near hpos).2⟩]
    rfl

/-- Its liabilities are what it exchanges. -/
theorem Price.Settled.exchanged (hlimit : limit ≤ int64Max) {oe : OfferEntry}
    (hprice : oe.price = price) (hamount : oe.amount = a) : oe.exchanged = .ok ⟨a, b, false⟩ := by
  have hM : IsAmount int64Max := ⟨by decide, le_rfl⟩
  rw [OfferEntry.exchanged, hprice, hamount,
    exchangeV10WithoutPriceErrorThresholds_eq hp h.isAmount hM hM hM,
    Price.exchange_unlimited hp h.isAmount hM, h.taken _ hlimit]

/-- Path payments take it or a part of it. -/
theorem Price.Settled.exchangeV10_path (hpos : 0 < a) (hl : IsAmount limit) {w t : ℤ}
    (hw : IsAmount w) (ht : IsAmount t) (htpos : 0 < t) {round : RoundingType}
    (hround : round ≠ .normal) : ∃ res, exchangeV10 price a w t limit round = .ok res := by
  obtain ⟨hbpos, hnear⟩ := h.near hpos
  have hfits := price.exchange_fits hp h.isAmount hw ht hl round
  -- if the offer does not stay it is taken whole
  have hwhole : (price.exchange a w t limit round).wheatStays = false →
      (price.exchange a w t limit round).numWheatReceived = a ∧
      (price.exchange a w t limit round).numSheepSend = b := by
    intro hstays
    have hle : min (a * price.n) (limit * price.d) ≤ min (t * price.d) (w * price.n) :=
      not_lt.mp (of_decide_eq_false hstays)
    have htaken := h.taken limit le_rfl
    simp only [Price.exchange, min_eq_left hle, decide_eq_false (not_lt.mpr hle)]
    exact ⟨congrArg Prod.fst htaken, congrArg Prod.snd htaken⟩
  rw [exchangeV10, exchangeV10WithoutPriceErrorThresholds_eq hp h.isAmount hw ht hl]
  change ∃ res, applyPriceErrorThresholds _ _ _ _ _ = _
  refine ⟨_, applyPriceErrorThresholds_path hp hfits.wheat_nonneg hfits.sheep_nonneg hround
    hfits.favours_wheat (fun hstays => ⟨hfits.favours_sheep hstays, ?_⟩) fun hsend => ?_⟩
  · rwa [(hwhole hstays).1, (hwhole hstays).2]
  · cases hstays : (price.exchange a w t limit round).wheatStays with
    | false =>
      rw [(hwhole hstays).2]
      exact hbpos.ne'
    | true =>
      subst hsend
      rw [Price.exchange, Price.amounts]
      change decide _ = true at hstays
      rw [hstays, if_pos rfl, if_pos rfl]
      exact (lt_min htpos (hbpos.trans_le h.sheep_le)).ne'

end

/-- Adjusting an offer is done once: the adjusted amount stays, its liabilities are what can
be received and sold, and path payments can take it. -/
theorem adjustOffer_stable {price : Price} (hp : price.Valid) {s r : ℤ} (hs : IsAmount s)
    (hr : IsAmount r) : ∃ a, adjustOfferAmount price s r = .ok a ∧ 0 ≤ a ∧ a ≤ s ∧
      adjustOfferAmount price a r = .ok a ∧ adjustOfferAmount price a int64Max = .ok a ∧
      (∀ (header : LedgerHeader) (oe : OfferEntry), 10 ≤ header.ledgerVersion →
        oe.price = price → oe.amount = a →
        (∃ b, oe.getOfferBuyingLiabilities header = .ok b ∧ b ≤ r) ∧
        oe.getOfferSellingLiabilities header = .ok a) ∧
      (0 < a → ∀ w t, IsAmount w → IsAmount t → 0 < w → 0 < t → ∀ round : RoundingType,
        round = .pathPaymentStrictReceive ∨ round = .pathPaymentStrictSend →
        ∃ res, exchangeV10 price a w t r round = .ok res) := by
  obtain ⟨a, b, hadjust, hle, hsettled⟩ := adjustOfferAmount_settled hp hs hr
  refine ⟨a, hadjust, hsettled.isAmount.nonneg, hle, hsettled.adjustOfferAmount hp hr le_rfl,
    hsettled.adjustOfferAmount hp ⟨by decide, le_rfl⟩ hr.le_max, ?_, ?_⟩
  · intro header oe hversion hprice hamount
    have hex := hsettled.exchanged hp hr.le_max hprice hamount
    refine ⟨⟨b, ?_, hsettled.sheep_le⟩, ?_⟩
    · rw [OfferEntry.getOfferBuyingLiabilities, Fallible.require, if_pos hversion, hex]
      rfl
    · rw [OfferEntry.getOfferSellingLiabilities, Fallible.require, if_pos hversion, hex]
      rfl
  · intro hpos w t hw ht _ htpos round hround
    exact hsettled.exchangeV10_path hp hpos hr hw ht htpos (by rcases hround with rfl | rfl <;> simp)

/-- The owner of a thousand wheat at three sheep for two can receive 701 sheep only. -/
theorem adjustOffer_stable_limited : adjustOfferAmount ⟨3, 2⟩ 1000 701 = .ok 467 ∧
    ∃ a, adjustOfferAmount ⟨3, 2⟩ 1000 701 = .ok a ∧ 0 ≤ a ∧ a ≤ 1000 ∧
      adjustOfferAmount ⟨3, 2⟩ a 701 = .ok a ∧ adjustOfferAmount ⟨3, 2⟩ a int64Max = .ok a := by
  have hp : Price.Valid ⟨3, 2⟩ := ⟨by decide, by decide, by decide, by decide⟩
  obtain ⟨a, h, h0, hle, hagain, hmax, -, -⟩ := adjustOffer_stable hp (s := 1000) (r := 701)
    ⟨by decide, by decide⟩ ⟨by decide, by decide⟩
  exact ⟨by decide +kernel, a, h, h0, hle, hagain, hmax⟩

end DigitalBits.Ledger
