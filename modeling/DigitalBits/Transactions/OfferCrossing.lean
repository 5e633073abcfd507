import DigitalBits.Transactions.BalanceEffects
import DigitalBits.Transactions.OfferExchange

/-!
# What crossing an offer does to the ledger

`crossOfferV10` pays the seller of an offer and takes from them what they sold. All it does
beside is to the offer, to liabilities and to counters.
-/
namespace DigitalBits.Ledger

open Lib

/-! ## Offers -/

/-- An offer with another amount. -/
def withAmount (e : LedgerEntry OfferEntry) (amount : ℤ) : LedgerEntry OfferEntry :=
  { e with data := { e.data with amount := amount } }

section
variable {s : LedgerTxn} {sellerID : AccountID} {offerID : ℤ} {e : LedgerEntry OfferEntry}

variable {Q : ℤ → LedgerTxn → Prop}

theorem returns_getAvailableBalance {key : LedgerKey} (h : ∀ n, Q n s) :
    Returns (getAvailableBalance key) s Q := by
  cases key with
  | account id | trustline id asset => exact returns_readData fun _ n _ _ => h n
  | _ => trivial

theorem returns_getMaxAmountReceive {key : LedgerKey} (h : ∀ n, Q n s) :
    Returns (getMaxAmountReceive key) s Q := by
  cases key with
  | account id | trustline id asset => exact returns_readData fun _ n _ _ => h n
  | _ => trivial

theorem returns_canSellAtMost {asset : Asset} {line : TrustLineWrapper} (h : ∀ n, Q n s) :
    Returns (canSellAtMost sellerID asset line) s Q := by
  unfold canSellAtMost
  simp only [Returns, after_ite, after_bind, after_pure]
  refine ⟨fun _ => returns_getAvailableBalance fun n => h _, fun _ => ⟨fun _ => h 0, fun _ => ?_⟩⟩
  cases line with
  | missing => trivial
  | issuer => exact ⟨fun _ => h _, fun _ => h 0⟩
  | line id asset =>
    simp only [TrustLineWrapper.isAuthorizedToMaintainLiabilities,
      TrustLineWrapper.getAvailableBalance]
    refine returns_readData fun _ authorized _ _ => ?_
    exact ⟨fun _ => returns_getAvailableBalance fun n => h _, fun _ => h 0⟩

theorem returns_canBuyAtMost {asset : Asset} {line : TrustLineWrapper} (h : ∀ n, Q n s) :
    Returns (canBuyAtMost sellerID asset line) s Q := by
  unfold canBuyAtMost
  simp only [Returns, after_ite, after_bind, after_pure]
  refine ⟨fun _ => returns_getMaxAmountReceive fun n => h _, fun _ => ⟨fun _ => h 0, fun _ => ?_⟩⟩
  cases line with
  | missing => trivial
  | issuer => exact h _
  | line id asset =>
    rw [TrustLineWrapper.getMaxAmountReceive]
    exact returns_getMaxAmountReceive fun n => h _

theorem returns_setOfferAmount {amount : ℤ} {Q : Unit → LedgerTxn → Prop}
    (he : s.entries.lookup (offerKey sellerID offerID) = some e)
    (h : Q () (s.withEntry (offerKey sellerID offerID) (withAmount e amount))) :
    Returns (setOfferAmount sellerID offerID amount) s Q := by
  refine returns_update fun e' he' => ?_
  obtain rfl := Option.mem_unique he he'
  exact h

/-- No more is exchanged than the seller has. -/
theorem exchangeV10_bounds (price : Price)
    (maxWheatSend maxWheatReceive maxSheepSend maxSheepReceive : ℤ) (round : RoundingType) :
    Yields (exchangeV10 price maxWheatSend maxWheatReceive maxSheepSend maxSheepReceive round)
      (fun r => 0 ≤ r.numWheatReceived ∧ r.numWheatReceived ≤ maxWheatSend) fun _ => True := by
  have hbefore : Yields (exchangeV10WithoutPriceErrorThresholds price maxWheatSend maxWheatReceive
      maxSheepSend maxSheepReceive round)
      (fun r => 0 ≤ r.numWheatReceived ∧ r.numWheatReceived ≤ maxWheatSend) fun _ => True := by
    unfold exchangeV10WithoutPriceErrorThresholds Fallible.require
    rw [yields_bind]
    refine (yields_true _).mono (fun wheatValue _ => ?_) fun _ _ => trivial
    rw [yields_bind]
    refine (yields_true _).mono (fun sheepValue _ => ?_) fun _ _ => trivial
    rw [yields_bind]
    refine (yields_true _).mono (fun amounts _ => ?_) fun _ _ => trivial
    simp only [yields_bind, yields_ite, yields_pure, yields_throw, implies_true, and_true, le_min_iff]
    exact fun hwheat _ => ⟨hwheat.1, hwheat.2.2⟩
  unfold exchangeV10
  rw [yields_bind]
  refine hbefore.mono (fun r hr => ?_) fun _ _ => trivial
  have hzero : 0 ≤ (0 : ℤ) ∧ 0 ≤ maxWheatSend := ⟨le_rfl, hr.1.trans hr.2⟩
  unfold applyPriceErrorThresholds Fallible.require
  simp only [yields_bind, yields_ite, yields_pure, hr, hzero, and_self, implies_true, yields_true]

theorem adjustOfferAmount_le (price : Price) (maxWheatSend maxSheepReceive : ℤ) :
    Yields (adjustOfferAmount price maxWheatSend maxSheepReceive) (· ≤ maxWheatSend)
      fun _ => True := by
  unfold adjustOfferAmount
  rw [yields_bind]
  exact (exchangeV10_bounds _ _ _ _ _ _).mono (fun _ hr => hr.2) fun _ _ => trivial

/-- An adjusted offer sells no more than before. -/
theorem returns_adjustOffer {wheatLine sheepLine : TrustLineWrapper} {Q : Unit → LedgerTxn → Prop}
    (he : s.entries.lookup (offerKey sellerID offerID) = some e)
    (h : ∀ amount ≤ e.data.amount,
      Q () (s.withEntry (offerKey sellerID offerID) (withAmount e amount))) :
    Returns (adjustOffer sellerID offerID wheatLine sheepLine) s Q := by
  unfold adjustOffer
  simp only [Returns, after_bind]
  refine returns_current fun e' he' => ?_
  obtain rfl := Option.mem_unique he he'
  refine returns_canSellAtMost fun maxWheatSend => ?_
  refine returns_canBuyAtMost fun maxSheepReceive => ?_
  refine returns_lift fun amount hamount => returns_setOfferAmount he (h amount ?_)
  exact ((adjustOfferAmount_le _ _ _).of_ok hamount).trans (min_le_left _ _)

end

section
variable {K : Set InternalLedgerKey} {s : LedgerTxn} {accountID : AccountID} {asset : Asset}

theorem addBalanceOf_effect {line : TrustLineWrapper} (hline : LineOf accountID asset line)
    (hacc : accountKey accountID ∈ K) (hk : trustlineKey accountID asset ∈ K) (delta : ℤ) :
    Returns (addBalanceOf accountID asset line delta) s fun r t =>
      r = true → Effect K (holdingDelta accountID asset delta) s t := by
  unfold addBalanceOf
  rw [Returns, after_ite]
  refine ⟨fun hasset => ?_, fun hasset => line.addBalance_effect hline hasset hk delta⟩
  have hsingle : holdingDelta accountID asset delta = Pi.single (accountKey accountID) delta := by
    simp [holdingDelta, holdingKey, hasset]
  rw [hsingle]
  exact addBalance_effect hacc delta

end

/-! ## Crossing -/

variable {sellerID : AccountID} {offerID : ℤ}

/-- The offer is out of the way of its seller's balances. -/
theorem offerKey_not_mem_holdings {sellerID' : AccountID} {wheat sheep : Asset} :
    offerKey sellerID offerID ∉ holdings sellerID' wheat sheep := by
  simp [holdings]

/-- The offer and what holds the assets of its seller. -/
def tradeKeys (sellerID : AccountID) (offerID : ℤ) (e : LedgerEntry OfferEntry) :
    Set InternalLedgerKey :=
  {offerKey sellerID offerID} ∪ holdings sellerID e.data.selling e.data.buying

/-- The entries that crossing an offer may change. -/
def crossingKeys (sellerID : AccountID) (offerID : ℤ) (e : LedgerEntry OfferEntry) :
    Set InternalLedgerKey :=
  tradeKeys sellerID offerID e ∪ reserves sellerID e.ext

variable {e : LedgerEntry OfferEntry}

theorem eq_of_accountKey_mem_tradeKeys {id : AccountID}
    (h : accountKey id ∈ tradeKeys sellerID offerID e) :
    id = sellerID := by
  simpa [tradeKeys, holdings] using h

section
variable {s : LedgerTxn} {sellerID : AccountID} {offerID : ℤ} {e : LedgerEntry OfferEntry}

theorem settleOffer_effect {taken : Bool}
    (he : s.entries.lookup (offerKey sellerID offerID) = some e) :
    Returns (settleOffer sellerID offerID taken) s fun _ t =>
      Effect (crossingKeys sellerID offerID e) 0 s t ∧
        OthersRelieved sellerID s.toLedgerState t.toLedgerState ∧
        t.entries.lookup (offerKey sellerID offerID) = if taken then none else some e := by
  have hres : reserves sellerID e.ext ⊆ crossingKeys sellerID offerID e := fun _ h => .inr h
  have hhold : holdings sellerID e.data.selling e.data.buying ⊆ tradeKeys sellerID offerID e :=
    fun _ h => .inr h
  have hoffer : offerKey sellerID offerID ∈ tradeKeys sellerID offerID e := .inl rfl
  have htrade : tradeKeys sellerID offerID e ⊆ crossingKeys sellerID offerID e := fun _ h => .inl h
  unfold settleOffer
  refine returns_nested ?_
  rw [Returns, after_bind]
  refine returns_load fun ks => ?_
  cases taken with
  | true =>
    simp only [if_true, after_bind]
    refine returns_load fun ks' => ?_
    refine returns_current fun e' he' => ?_
    obtain rfl := Option.mem_unique he he'
    refine removeEntryWithPossibleSponsorship_effect.imp fun _ t ht => ?_
    refine returns_erase ?_
    refine ⟨fun _ => ⟨?_, ?_, AList.lookup_erase _ _⟩, nofun⟩
    · exact (((ht.1.mono hres).trans_zero (Effect.without (htrade hoffer) (by simp))).withActive
        []).of_withActive.of_withActive.of_withActive
    · exact ht.2.trans ((Effect.without hoffer (by simp)).othersRelieved fun _ hid =>
        eq_of_accountKey_mem_tradeKeys hid)
  | false =>
    simp only [Bool.false_eq_true, if_false, after_bind]
    refine (acquireOrReleaseLiabilities_effect (s := (s.withActive []).withActive ks) he).imp
      fun _ t ht => ?_
    have heffect := ((ht.mono hhold).withActive []).of_withActive.of_withActive
    refine ⟨fun _ => ⟨heffect.mono htrade, ?_, ?_⟩, nofun⟩
    · exact heffect.othersRelieved fun _ hid => eq_of_accountKey_mem_tradeKeys hid
    · exact (ht.frame _ offerKey_not_mem_holdings).trans he

/-- A payment of nothing is not made. -/
def pay (accountID : AccountID) (asset : Asset) (line : TrustLineWrapper) (delta : ℤ)
    (e : RuntimeError) : LedgerM Unit :=
  if delta ≠ 0 then do
    require (← addBalanceOf accountID asset line delta) e
  else
    pure ()

def loadIfNative (accountID : AccountID) (wheat sheep : Asset) : LedgerM Unit :=
  if wheat = .native ∨ sheep = .native then do
    let _ ← loadAccount accountID
    return ()
  else
    pure ()

def reduceOffer (sellerID : AccountID) (offerID : ℤ) (wheatLine sheepLine : TrustLineWrapper)
    (amount : ℤ) (exchanged : ExchangeResultV10) : LedgerM Unit :=
  if exchanged.wheatStays then do
    setOfferAmount sellerID offerID (amount - exchanged.numWheatReceived)
    adjustOffer sellerID offerID wheatLine sheepLine
  else
    setOfferAmount sellerID offerID 0

theorem ite_bind_eq {ε σ α β : Type} {c : Prop} [Decidable c] (m m' : EStateM ε σ α)
    (k : α → EStateM ε σ β) :
    (if c then m else m') >>= k = if c then m >>= k else m' >>= k := by
  split_ifs <;> rfl

/-- `crossOfferV10`, with names for what it does if a condition holds. -/
theorem crossOfferV10_eq (maxWheatReceived maxSheepSend : ℤ) (round : RoundingType) :
    crossOfferV10 sellerID offerID maxWheatReceived maxSheepSend round = block do
      assert (0 < maxWheatReceived)
      assert (0 < maxSheepSend)
      let offer := (← current (offerKey sellerID offerID)).data
      require (← exists? (accountKey sellerID)) .offerMustHaveMatchingAccount
      releaseLiabilities sellerID offerID
      loadIfNative sellerID offer.selling offer.buying
      let sheepLine ← loadTrustLineIfNotNative sellerID offer.buying
      let wheatLine ← loadTrustLineIfNotNative sellerID offer.selling
      adjustOffer sellerID offerID wheatLine sheepLine
      let adjusted := (← current (offerKey sellerID offerID)).data
      let maxWheatSend ← canSellAtMost sellerID offer.selling wheatLine
      let maxSheepReceive ← canBuyAtMost sellerID offer.buying sheepLine
      let exchanged ← lift (exchangeV10 adjusted.price (min adjusted.amount maxWheatSend)
        maxWheatReceived maxSheepSend maxSheepReceive round)
      pay sellerID offer.buying sheepLine exchanged.numSheepSend .overflowedSheepBalance
      pay sellerID offer.selling wheatLine (-exchanged.numWheatReceived) .overflowedWheatBalance
      reduceOffer sellerID offerID wheatLine sheepLine adjusted.amount exchanged
      let taken := decide ((← current (offerKey sellerID offerID)).data.amount = 0)
      settleOffer sellerID offerID taken
      return ⟨⟨sellerID, offerID, offer.selling, exchanged.numWheatReceived, offer.buying,
        exchanged.numSheepSend⟩, exchanged.wheatStays, taken⟩ := by
  unfold crossOfferV10 pay loadIfNative reduceOffer
  simp only [ite_bind_eq, bind_assoc, pure_bind, neg_ne_zero]

end

/-- What a seller is paid and what is taken from them. -/
def ClaimOfferAtom.delta (a : ClaimOfferAtom) : InternalLedgerKey → ℤ :=
  holdingDelta a.sellerID a.assetBought a.amountBought +
    holdingDelta a.sellerID a.assetSold (-a.amountSold)

/-- What an exchange with the offer `e` comes to. -/
structure Crossing (round : RoundingType) (sellerID : AccountID) (offerID : ℤ)
    (e : LedgerEntry OfferEntry) (s : LedgerTxn) (r : Crossed) (t : LedgerTxn) : Prop where
  atom : r.atom = ⟨sellerID, offerID, e.data.selling, r.atom.amountSold, e.data.buying,
    r.atom.amountBought⟩
  effect : Effect (crossingKeys sellerID offerID e) r.atom.delta s t
  erased : r.taken = true → t.entries.lookup (offerKey sellerID offerID) = none
  reduced : r.taken = false → ∃ amount ≤ e.data.amount - r.atom.amountSold,
    t.entries.lookup (offerKey sellerID offerID) = some (withAmount e amount)
  taken : r.wheatStays = false → r.taken = true
  exchanged : ∃ maxWheatSend maxWheatReceived maxSheepSend maxSheepReceive,
    exchangeV10 e.data.price maxWheatSend maxWheatReceived maxSheepSend maxSheepReceive round =
      .ok ⟨r.atom.amountSold, r.atom.amountBought, r.wheatStays⟩
  others : OthersRelieved sellerID s.toLedgerState t.toLedgerState

variable {s : LedgerTxn}

theorem Crossing.withActive {round : RoundingType} {t : LedgerTxn} {r : Crossed}
    {ks : List InternalLedgerKey} (h : Crossing round sellerID offerID e (s.withActive ks) r t)
    (ks' : List InternalLedgerKey) :
    Crossing round sellerID offerID e s r (t.withActive ks') where
  atom := h.atom
  effect := (h.effect.withActive ks').of_withActive
  erased := h.erased
  reduced := h.reduced
  taken := h.taken
  exchanged := h.exchanged
  others := h.others

/-- In the middle of an exchange: the payments made so far, and what is left of the offer. -/
structure Midway (sellerID : AccountID) (offerID : ℤ) (e : LedgerEntry OfferEntry)
    (s : LedgerTxn) (δ : InternalLedgerKey → ℤ) (amount : ℤ) (t : LedgerTxn) : Prop where
  effect : Effect (tradeKeys sellerID offerID e) δ s t
  offer : t.entries.lookup (offerKey sellerID offerID) = some (withAmount e amount)

namespace Midway
variable {s t u : LedgerTxn} {sellerID : AccountID} {offerID : ℤ} {e : LedgerEntry OfferEntry}
  {δ δ' : InternalLedgerKey → ℤ} {amount : ℤ}

theorem withActive (h : Midway sellerID offerID e s δ amount t) (ks : List InternalLedgerKey) :
    Midway sellerID offerID e s δ amount (t.withActive ks) :=
  ⟨h.effect.withActive ks, h.offer⟩

theorem holdings (h : Midway sellerID offerID e s δ amount t)
    (hu : Effect (holdings sellerID e.data.selling e.data.buying) δ' t u) :
    Midway sellerID offerID e s (δ + δ') amount u :=
  ⟨h.effect.trans (hu.mono fun _ hk => .inr hk),
    (hu.frame _ offerKey_not_mem_holdings).trans h.offer⟩

theorem setAmount (h : Midway sellerID offerID e s δ amount t) (amount' : ℤ) :
    Midway sellerID offerID e s δ amount'
      (t.withEntry (offerKey sellerID offerID) (withAmount e amount')) :=
  ⟨h.effect.put_same (.inl rfl) h.offer rfl, AList.lookup_insert _⟩

/-- The payment of one side. -/
theorem pay (h : Midway sellerID offerID e s δ amount t) {asset : Asset} {line : TrustLineWrapper}
    (hline : LineOf sellerID asset line)
    (hk : trustlineKey sellerID asset ∈ Ledger.holdings sellerID e.data.selling e.data.buying)
    (delta : ℤ) (error : RuntimeError) :
    Returns (pay sellerID asset line delta error) t fun _ u =>
      Midway sellerID offerID e s (δ + holdingDelta sellerID asset delta) amount u := by
  unfold Ledger.pay
  rw [Returns, after_ite]
  refine ⟨fun _ => ?_, fun hzero => ?_⟩
  · rw [after_bind]
    exact (addBalanceOf_effect hline (.inl rfl) hk delta).imp
      fun _ u hu => returns_require fun hr => h.holdings (hu hr)
  · rwa [not_not.mp hzero, holdingDelta_zero, add_zero]

/-- What was sold is gone from the offer. -/
theorem reduceOffer (h : Midway sellerID offerID e s δ amount t) {exchanged : ExchangeResultV10}
    {wheatLine sheepLine : TrustLineWrapper} :
    Returns (reduceOffer sellerID offerID wheatLine sheepLine amount exchanged) t fun _ u =>
      ∃ amount', Midway sellerID offerID e s δ amount' u ∧
        (exchanged.wheatStays = true → amount' ≤ amount - exchanged.numWheatReceived) ∧
        (exchanged.wheatStays = false → amount' = 0) := by
  unfold Ledger.reduceOffer
  rw [Returns, after_ite]
  refine ⟨fun hstays => ?_, fun hstays => ?_⟩
  · rw [after_bind]
    refine returns_setOfferAmount h.offer ?_
    have hset := h.setAmount (amount - exchanged.numWheatReceived)
    refine returns_adjustOffer hset.offer fun amount' hle => ?_
    exact ⟨amount', hset.setAmount amount', fun _ => hle, fun hfalse => absurd hfalse (by simp [hstays])⟩
  · refine returns_setOfferAmount h.offer ?_
    exact ⟨0, h.setAmount 0, fun htrue => absurd htrue hstays, fun _ => rfl⟩

end Midway

theorem returns_loadIfNative {accountID : AccountID} {wheat sheep : Asset}
    {Q : Unit → LedgerTxn → Prop} (h : ∀ ks, Q () (s.withActive ks)) :
    Returns (loadIfNative accountID wheat sheep) s Q := by
  unfold loadIfNative
  rw [Returns, after_ite, after_bind]
  exact ⟨fun _ => returns_load fun ks => h ks, fun _ => h s.mActive⟩

theorem crossOfferV10_crossing (he : s.entries.lookup (offerKey sellerID offerID) = some e)
    (maxWheatReceived maxSheepSend : ℤ) (round : RoundingType) :
    Returns (crossOfferV10 sellerID offerID maxWheatReceived maxSheepSend round) s fun r t =>
      Crossing round sellerID offerID e s r t := by
  rw [crossOfferV10_eq]
  refine returns_block ?_
  simp only [Returns, after_bind]
  refine returns_assert fun _ => ?_
  refine returns_assert fun _ => ?_
  refine returns_current fun e' he' => ?_
  obtain rfl := Option.mem_unique he he'
  refine returns_exists? fun ks => ?_
  refine returns_require fun _ => ?_
  have hstart : Midway sellerID offerID e s 0 e.data.amount (s.withActive ks) :=
    ⟨Effect.of_same ⟨rfl, rfl⟩, he⟩
  refine (acquireOrReleaseLiabilities_effect hstart.offer).imp fun _ t ht => ?_
  have hreleased : Midway sellerID offerID e s 0 e.data.amount t := by
    simpa using hstart.holdings ht
  refine returns_loadIfNative fun ks => ?_
  refine returns_loadTrustLineIfNotNative fun sheepLine ks' hsheep => ?_
  refine returns_loadTrustLineIfNotNative fun wheatLine ks'' hwheat => ?_
  have hloaded := ((hreleased.withActive ks).withActive ks').withActive ks''
  refine returns_adjustOffer hloaded.offer fun amount hamount => ?_
  have hadjusted := hloaded.setAmount amount
  refine returns_current fun e' he' => ?_
  obtain rfl := Option.mem_unique hadjusted.offer he'
  refine returns_canSellAtMost fun maxWheatSend => ?_
  refine returns_canBuyAtMost fun maxSheepReceive => ?_
  refine returns_lift fun exchanged hexchanged => ?_
  refine (hadjusted.pay hsheep (.inr (.inr rfl)) _ _).imp fun _ u hu => ?_
  refine (hu.pay hwheat (.inr (.inl rfl)) _ _).imp fun _ v hv => ?_
  refine hv.reduceOffer.imp fun _ w hw => ?_
  obtain ⟨rest, hrest, hstays, hgone⟩ := hw
  refine returns_current fun e' he' => ?_
  obtain rfl := Option.mem_unique hrest.offer he'
  refine (settleOffer_effect hrest.offer).imp fun _ z hz => ?_
  intro ks
  refine ⟨rfl, ?_, fun htaken => ?_, fun htaken => ⟨rest, ?_, ?_⟩, fun hsheep => ?_,
    ⟨_, _, _, _, hexchanged⟩, ?_⟩
  · rw [ClaimOfferAtom.delta, ← zero_add (holdingDelta _ _ exchanged.numSheepSend)]
    exact ((hrest.effect.mono fun _ hk => .inl hk).trans_zero hz.1).withActive ks
  · exact hz.2.2.trans (if_pos htaken)
  · have hne : rest ≠ 0 := of_decide_eq_false htaken
    cases hw : exchanged.wheatStays with
    | true => exact (hstays hw).trans (Int.sub_le_sub_right hamount _)
    | false => exact absurd (hgone hw) hne
  · exact hz.2.2.trans (if_neg (ne_true_of_eq_false htaken))
  · exact decide_eq_true (hgone hsheep)
  · exact (hrest.effect.othersRelieved fun _ hid => eq_of_accountKey_mem_tradeKeys hid).trans hz.2.1

end DigitalBits.Ledger
