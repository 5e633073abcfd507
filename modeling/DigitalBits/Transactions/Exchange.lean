import DigitalBits.Ledger.AbstractLedgerTxn

/-!
# Exchanging two assets at a price

`exchangeV10` says how much changes hands when an offer that sells wheat for
sheep meets a taker, within the limits of both. The values compared are products
of a 64 and a 32 bit number and fit into 128 bits, so they are integers here. A
division rounds, and fails when its result does not fit into 64 bits.
-/
namespace DigitalBits.Ledger

/-- A computation that may throw and changes nothing. -/
abbrev Fallible := Except Thrown

/-- Throws unless the condition holds. -/
def Fallible.require (c : Prop) [Decidable c] (e : RuntimeError) : Fallible Unit :=
  if c then pure () else throw (.exception e)

/-- `assert`. -/
def Fallible.assert (c : Prop) [Decidable c] : Fallible Unit :=
  if c then pure () else throw .assertion

inductive Rounding where
  | down
  | up
  deriving DecidableEq

/-- The quotient, rounded. -/
def Rounding.divide : Rounding → ℤ → ℤ → ℤ
  | down, a, b => a / b
  | up, a, b => (a + b - 1) / b

/-- `bigDivide` of a product that says whether the result fits. -/
def bigDivide? (a b c : ℤ) (rounding : Rounding) : Fallible (Option ℤ) := do
  Fallible.assert (0 ≤ a ∧ 0 ≤ b ∧ 0 < c)
  let x := rounding.divide (a * b) c
  return if x ≤ int64Max then some x else none

/-- `bigDivide` of a product. -/
def bigDivide (a b c : ℤ) (rounding : Rounding) : Fallible ℤ := do
  match ← bigDivide? a b c rounding with
  | some x => return x
  | none => throw (.exception .bigDivideOverflow)

/-- `bigDivide` of a number of 128 bits. -/
def bigDivideWide (a b : ℤ) (rounding : Rounding) : Fallible ℤ := do
  Fallible.assert (0 < b)
  let x := rounding.divide a b
  if int64Max < x then
    throw (.exception .bigDivideOverflow)
  return x

def bigMultiply (a b : ℤ) : Fallible ℤ := do
  Fallible.assert (0 ≤ a ∧ 0 ≤ b)
  return a * b

namespace Price

/-- `operator>=` of prices. -/
def ge (a b : Price) : Bool := b.n * a.d ≤ a.n * b.d

/-- `operator>` of prices. -/
def gt (a b : Price) : Bool := b.n * a.d < a.n * b.d

end Price

inductive RoundingType where
  | normal
  | pathPaymentStrictReceive
  | pathPaymentStrictSend
  deriving DecidableEq

structure ExchangeResultV10 where
  numWheatReceived : ℤ
  numSheepSend : ℤ
  wheatStays : Bool
  deriving DecidableEq

variable (price : Price)

def checkPriceErrorBound (wheatReceive sheepSend : ℤ) (canFavorWheat : Bool) : Fallible Bool := do
  let lhs ← bigMultiply (100 * price.n) wheatReceive
  let rhs ← bigMultiply (100 * price.d) sheepSend
  if canFavorWheat ∧ lhs < rhs then
    return true
  let absDiff := if rhs < lhs then lhs - rhs else rhs - lhs
  let cap ← bigMultiply price.n wheatReceive
  return absDiff ≤ cap

def calculateOfferValue (priceN priceD maxSend maxReceive : ℤ) : Fallible ℤ := do
  let sendValue ← bigMultiply maxSend priceN
  let receiveValue ← bigMultiply maxReceive priceD
  return min sendValue receiveValue

/-- The amounts of wheat and sheep that change hands. -/
def exchangeAmounts (wheatValue sheepValue maxSheepSend maxSheepReceive : ℤ)
    (round : RoundingType) : Fallible (ℤ × ℤ) := do
  if sheepValue < wheatValue then
    if round = .pathPaymentStrictSend then
      let wheatReceive ← bigDivideWide sheepValue price.n .down
      return (wheatReceive, min maxSheepSend maxSheepReceive)
    else if price.d < price.n ∨ round = .pathPaymentStrictReceive then
      let wheatReceive ← bigDivideWide sheepValue price.n .down
      let sheepSend ← bigDivide wheatReceive price.n price.d .up
      return (wheatReceive, sheepSend)
    else
      let sheepSend ← bigDivideWide sheepValue price.d .down
      let wheatReceive ← bigDivide sheepSend price.d price.n .down
      return (wheatReceive, sheepSend)
  else if price.d < price.n then
    let wheatReceive ← bigDivideWide wheatValue price.n .down
    let sheepSend ← bigDivide wheatReceive price.n price.d .down
    return (wheatReceive, sheepSend)
  else
    let sheepSend ← bigDivideWide wheatValue price.d .down
    let wheatReceive ← bigDivide sheepSend price.d price.n .up
    return (wheatReceive, sheepSend)

variable (maxWheatSend maxWheatReceive maxSheepSend maxSheepReceive : ℤ)

def exchangeV10WithoutPriceErrorThresholds (round : RoundingType) : Fallible ExchangeResultV10 := do
  let wheatValue ← calculateOfferValue price.n price.d maxWheatSend maxSheepReceive
  let sheepValue ← calculateOfferValue price.d price.n maxSheepSend maxWheatReceive
  let (wheatReceive, sheepSend) ←
    exchangeAmounts price wheatValue sheepValue maxSheepSend maxSheepReceive round
  Fallible.require (0 ≤ wheatReceive ∧ wheatReceive ≤ min maxWheatReceive maxWheatSend)
    .wheatReceiveOutOfBounds
  Fallible.require (0 ≤ sheepSend ∧ sheepSend ≤ min maxSheepReceive maxSheepSend)
    .sheepSendOutOfBounds
  return ⟨wheatReceive, sheepSend, decide (sheepValue < wheatValue)⟩

def applyPriceErrorThresholds (wheatReceive sheepSend : ℤ) (wheatStays : Bool)
    (round : RoundingType) : Fallible ExchangeResultV10 := do
  if 0 < wheatReceive ∧ 0 < sheepSend then
    let wheatReceiveValue ← bigMultiply wheatReceive price.n
    let sheepSendValue ← bigMultiply sheepSend price.d
    Fallible.require (¬ (wheatStays ∧ sheepSendValue < wheatReceiveValue))
      .favoredSheepWhenWheatStays
    Fallible.require (¬ (¬ wheatStays ∧ wheatReceiveValue < sheepSendValue))
      .favoredWheatWhenSheepStays
    if round = .normal then
      if ← checkPriceErrorBound price wheatReceive sheepSend false then
        return ⟨wheatReceive, sheepSend, wheatStays⟩
      else
        return ⟨0, 0, wheatStays⟩
    else
      Fallible.require (← checkPriceErrorBound price wheatReceive sheepSend true)
        .exceededPriceErrorBound
      return ⟨wheatReceive, sheepSend, wheatStays⟩
  else if round = .pathPaymentStrictSend then
    Fallible.require (sheepSend ≠ 0) .invalidAmountOfSheepSent
    return ⟨wheatReceive, sheepSend, wheatStays⟩
  else
    return ⟨0, 0, wheatStays⟩

def exchangeV10 (round : RoundingType) : Fallible ExchangeResultV10 := do
  let beforeThresholds ← exchangeV10WithoutPriceErrorThresholds price maxWheatSend
    maxWheatReceive maxSheepSend maxSheepReceive round
  applyPriceErrorThresholds price beforeThresholds.numWheatReceived beforeThresholds.numSheepSend
    beforeThresholds.wheatStays round

/-- The amount of an offer that a taker without limits would take. -/
def adjustOfferAmount (maxWheatSend maxSheepReceive : ℤ) : Fallible ℤ := do
  let res ← exchangeV10 price maxWheatSend int64Max int64Max maxSheepReceive .normal
  return res.numWheatReceived

end DigitalBits.Ledger
