import DigitalBits.Transactions.OfferCrossing

/-!
# Converting with the offers of the book

`convertWithOffers` crosses the best offer of the book as long as it is taken whole and more
is wanted. What a conversion does is the sum of its atoms, and since every round but the last
takes an offer off the book, it ends.
-/
namespace DigitalBits.Ledger
open ClaimOfferAtom List

open Lib

/-! ## The best offer -/

/-- `isBetterOffer`. The prices are compared as floating point numbers; `value` is the number a
price is rounded to. -/
def isBetterOffer (value : Price → ℚ) (lhs rhs : OfferDescriptor) : Bool :=
  if value lhs.price < value rhs.price then true
  else if value lhs.price = value rhs.price then lhs.offerID < rhs.offerID
  else false

/-- Offers are ordered by price and then by age. -/
def OfferDescriptor.rank (value : Price → ℚ) (a : OfferDescriptor) : ℚ ×ₗ ℤ :=
  toLex (value a.price, a.offerID)

variable {value : Price → ℚ}

theorem isBetterOffer_iff {a b : OfferDescriptor} :
    isBetterOffer value a b = true ↔ a.rank value < b.rank value := by
  unfold isBetterOffer OfferDescriptor.rank
  rw [Prod.Lex.toLex_lt_toLex]
  split_ifs with hlt heq
  · simp [hlt]
  · simp [heq]
  · simp [hlt, heq]

/-- An offer with its seller and its id. -/
abbrev BookEntry := AccountID × ℤ × LedgerEntry OfferEntry

/-- What the book is ordered by. -/
def descriptor (o : BookEntry) : OfferDescriptor := ⟨o.2.2.data.price, o.2.1⟩

/-- The best of a list is in it. -/
theorem foldl_betterOffer_mem {better : OfferDescriptor → OfferDescriptor → Bool}
    (l : List BookEntry) (best : Option BookEntry) {b : BookEntry}
    (h : l.foldl (betterOffer better) best = some b) : b ∈ l ∨ best = some b := by
  induction l generalizing best with
  | nil => exact .inr h
  | cons o l ih =>
    rcases ih _ h with hb | hb
    · exact .inl (mem_cons_of_mem _ hb)
    cases best with
    | none => exact .inl (Option.some.inj hb ▸ mem_cons_self)
    | some b₀ =>
      by_cases hbetter : better (descriptor o) (descriptor b₀) = true
      · have hbo : some o = some b := (if_pos hbetter).symm.trans hb
        exact .inl (Option.some.inj hbo ▸ mem_cons_self)
      · exact .inr ((if_neg hbetter).symm.trans hb)

/-- None of the list ranks before it. -/
theorem foldl_betterOffer_rank (l : List BookEntry) (best : Option BookEntry) {b : BookEntry}
    (h : l.foldl (betterOffer (isBetterOffer value)) best = some b) :
    ∀ o, o ∈ l ∨ best = some o → (descriptor b).rank value ≤ (descriptor o).rank value := by
  induction l generalizing best with
  | nil =>
    intro o ho
    have hob : some o = some b := (ho.resolve_left not_mem_nil).symm.trans h
    rw [Option.some.inj hob]
  | cons o l ih =>
    have hmin := ih _ h
    have ho : (descriptor b).rank value ≤ (descriptor o).rank value ∧
        ∀ b', best = some b' → (descriptor b).rank value ≤ (descriptor b').rank value := by
      cases best with
      | none => exact ⟨hmin o (.inr rfl), nofun⟩
      | some b₀ =>
        by_cases hbetter : isBetterOffer value (descriptor o) (descriptor b₀) = true
        · have hle := hmin o (.inr (if_pos hbetter))
          refine ⟨hle, fun b' hb' => ?_⟩
          cases hb'
          exact hle.trans (isBetterOffer_iff.mp hbetter).le
        · have hle := hmin b₀ (.inr (if_neg hbetter))
          refine ⟨hle.trans (not_lt.mp fun hlt => hbetter (isBetterOffer_iff.mpr hlt)),
            fun b' hb' => ?_⟩
          cases hb'
          exact hle
    intro o' ho'
    rcases ho' with hmem | hbest
    · rcases mem_cons.mp hmem with rfl | hmem
      · exact ho.1
      · exact hmin o' (.inl hmem)
    · exact ho.2 o' hbest

/-- The offers of the book are what stands under the keys of offers. -/
theorem mem_offers {s : LedgerState} {sellerID : AccountID} {offerID : ℤ}
    {e : LedgerEntry OfferEntry} :
    (sellerID, offerID, e) ∈ s.offers ↔ s.offer sellerID offerID = some e := by
  unfold LedgerState.offers LedgerState.offer
  rw [mem_filterMap, ← Option.mem_def, AList.mem_lookup_iff]
  constructor
  · rintro ⟨x, hmem, hx⟩
    split at hx
    · cases hx
      exact hmem
    · cases hx
  · intro hmem
    exact ⟨_, hmem, rfl⟩

theorem nodup_offers (s : LedgerState) : s.offers.Nodup := by
  refine List.Nodup.filterMap (fun x x' o ho ho' => ?_) s.entries.nodupKeys.nodup
  split at ho
  · split at ho'
    · cases ho
      cases ho'
      rfl
    · cases ho'
  · cases ho

section
variable {s : LedgerTxn} {sheep wheat : Asset} {o : BookEntry}

/-- The best offer is of the book. -/
theorem getBestOffer_mem {better : OfferDescriptor → OfferDescriptor → Bool}
    (h : s.getBestOffer better sheep wheat = some o) :
    s.offer o.1 o.2.1 = some o.2.2 ∧ o.2.2.data.buying = sheep ∧ o.2.2.data.selling = wheat := by
  have hmem := mem_filter.mp ((foldl_betterOffer_mem _ none h).resolve_right nofun)
  exact ⟨mem_offers.mp hmem.1, of_decide_eq_true hmem.2⟩

/-- None of the book is better. -/
theorem getBestOffer_best {value : Price → ℚ}
    (h : s.getBestOffer (isBetterOffer value) sheep wheat = some o) {sellerID : AccountID}
    {offerID : ℤ} {e : LedgerEntry OfferEntry} (he : s.offer sellerID offerID = some e)
    (hbuying : e.data.buying = sheep) (hselling : e.data.selling = wheat) :
    ¬ isBetterOffer value ⟨e.data.price, offerID⟩ ⟨o.2.2.data.price, o.2.1⟩ := by
  intro hbetter
  have hle := foldl_betterOffer_rank _ none h (sellerID, offerID, e)
    (.inl (mem_filter.mpr ⟨mem_offers.mpr he, decide_eq_true ⟨hbuying, hselling⟩⟩))
  exact absurd (isBetterOffer_iff.mp hbetter) (not_lt.mpr hle)

theorem returns_loadBestOffer {better : OfferDescriptor → OfferDescriptor → Bool}
    {Q : Option (AccountID × ℤ) → LedgerTxn → Prop}
    (h : ∀ ks, Q ((s.getBestOffer better sheep wheat).map fun o => (o.1, o.2.1))
      (s.withActive ks)) :
    Returns (loadBestOffer better sheep wheat) s Q := by
  unfold loadBestOffer
  rw [Returns, after_bind, after_get, after_ite]
  refine ⟨fun _ => trivial, fun _ => ?_⟩
  cases hbest : s.getBestOffer better sheep wheat with
  | none =>
    rw [hbest] at h
    exact h s.mActive
  | some o =>
    rw [hbest] at h
    rw [after_bind]
    exact returns_load fun ks => h ks

end

/-! ## One round -/

section
variable (host : Host) (sheep wheat : Asset) (round : RoundingType) (filter : OfferFilter)
  (maxOffers : ℕ)

/-- A round that exchanges. -/
structure Exchanged (c : ConvertState) (s : LedgerTxn) (o : BookEntry) (r : Crossed)
    (t : LedgerTxn) : Prop where
  best : s.getBestOffer host.isBetterOffer sheep wheat = some o
  kept : filter o.1 o.2.1 o.2.2.data = .ok .eKeep
  crossing : Crossing round o.1 o.2.1 o.2.2 s r t
  few : c.offerTrail.length < maxOffers
  bought_nonneg : 0 ≤ r.atom.amountBought
  bought_le : r.atom.amountBought ≤ c.maxSheepSend
  sold_nonneg : 0 ≤ r.atom.amountSold
  sold_le : r.atom.amountSold ≤ c.maxWheatReceive

/-- A round that stops the loop leaves the ledger as it was. -/
theorem convertStep_returns (c : ConvertState) (s : LedgerTxn) :
    Returns (convertStep host sheep wheat round filter maxOffers c) s fun r t =>
      (∀ result, r = .inl result → SameLedger s t) ∧
        ∀ crossed, r = .inr crossed →
          ∃ o, Exchanged host sheep wheat round filter maxOffers c s o crossed t := by
  have hstop : ∀ t : LedgerTxn, ∀ result : ConvertResult,
      (∀ result', (.inl result : ConvertResult ⊕ Crossed) = .inl result' → SameLedger s (s.rolledBack t)) ∧
        ∀ crossed, (.inl result : ConvertResult ⊕ Crossed) = .inr crossed →
          ∃ o, Exchanged host sheep wheat round filter maxOffers c s o crossed (s.rolledBack t) :=
    fun t _ => ⟨fun _ _ => ⟨rfl, rfl⟩, by simp⟩
  refine returns_nested ?_
  rw [Returns, after_bind]
  refine returns_loadBestOffer fun ks => ?_
  have hsame : (s.withActive []).getBestOffer host.isBetterOffer sheep wheat =
      s.getBestOffer host.isBetterOffer sheep wheat := rfl
  rw [hsame]
  cases hbest : s.getBestOffer host.isBetterOffer sheep wheat with
  | none => exact ⟨by simp, fun _ => hstop _ _⟩
  | some o =>
    have hoffer : s.entries.lookup (offerKey o.1 o.2.1) = some o.2.2 :=
      (getBestOffer_mem hbest).1
    rw [Option.map_some, after_bind]
    refine returns_current fun e he => ?_
    obtain rfl := Option.mem_unique hoffer he
    rw [after_bind]
    refine returns_lift fun kept hkept => ?_
    cases kept with
    | eStop | eStopCrossSelf => exact ⟨by simp, fun _ => hstop _ _⟩
    | eKeep =>
      simp only [after_ite, after_bind]
      refine ⟨fun _ => ⟨by simp, fun _ => hstop _ _⟩, fun hfew => ?_⟩
      refine (crossOfferV10_crossing (s := (s.withActive []).withActive ks) hoffer _ _ _).mono
        (fun r t ht => ?_) fun _ _ _ => trivial
      refine returns_assert fun hbought => returns_assert fun hbought' => ?_
      refine returns_assert fun hsold => returns_assert fun hsold' => ?_
      refine ⟨fun _ => ⟨by simp, fun crossed hcrossed => ⟨o, ?_⟩⟩, by simp⟩
      cases hcrossed
      have hcrossing := (ht.withActive []).withActive []
      exact ⟨hbest, hkept, hcrossing, not_le.mp hfew, hbought, hbought', hsold, hsold'⟩

/-! ## The loop -/

/-- The loop without a bound on the number of its rounds: how it ends from a state. -/
inductive Rounds : ConvertState → LedgerTxn → EStateM.Result Thrown LedgerTxn Conversion → Prop
  | fails {c s e t} (h : convertStep host sheep wheat round filter maxOffers c s = .error e t) :
      Rounds c s (.error e t)
  | stops {c s result t}
      (h : convertStep host sheep wheat round filter maxOffers c s = .ok (.inl result) t) :
      Rounds c s (.ok (c.ended result) t)
  | enough {c s crossed t}
      (h : convertStep host sheep wheat round filter maxOffers c s = .ok (.inr crossed) t)
      (hdone : crossed.wheatStays = true ∨ ¬ (c.cross crossed.atom).needMore) :
      Rounds c s (.ok ((c.cross crossed.atom).ended .eOK) t)
  | rests {c s crossed t}
      (h : convertStep host sheep wheat round filter maxOffers c s = .ok (.inr crossed) t)
      (hmore : ¬ (crossed.wheatStays = true ∨ ¬ (c.cross crossed.atom).needMore))
      (htaken : ¬ crossed.taken = true) :
      Rounds c s (.ok ((c.cross crossed.atom).ended .ePartial) t)
  | again {c s crossed t outcome}
      (h : convertStep host sheep wheat round filter maxOffers c s = .ok (.inr crossed) t)
      (hmore : ¬ (crossed.wheatStays = true ∨ ¬ (c.cross crossed.atom).needMore))
      (htaken : crossed.taken = true) (hrest : Rounds (c.cross crossed.atom) t outcome) :
      Rounds c s outcome

variable {host sheep wheat round filter maxOffers}

/-- Offers other than the one that is crossed stay as they are. -/
theorem Crossing.offer_eq {o : BookEntry} {s t : LedgerTxn} {r : Crossed}
    (h : Crossing round o.1 o.2.1 o.2.2 s r t) {sellerID : AccountID} {offerID : ℤ}
    (hne : offerKey sellerID offerID ≠ offerKey o.1 o.2.1) :
    t.offer sellerID offerID = s.offer sellerID offerID := by
  refine h.effect.frame _ fun hmem => ?_
  rcases hmem with (hmem | hmem) | hmem
  · exact hne hmem
  · exact offerKey_not_mem_holdings hmem
  · rcases hmem with hmem | ⟨_, _, hmem⟩
    · cases hmem
    · cases hmem

/-- An offer that was taken is off the book. -/
theorem Crossing.offers_length_lt {o : BookEntry} {s t : LedgerTxn} {r : Crossed}
    (hoffer : s.offer o.1 o.2.1 = some o.2.2) (h : Crossing round o.1 o.2.1 o.2.2 s r t)
    (htaken : r.taken = true) : t.offers.length < s.offers.length := by
  have herased : t.offer o.1 o.2.1 = none := h.erased htaken
  have hnotin : o ∉ t.offers := fun hmem => by
    have hsome : t.offer o.1 o.2.1 = some o.2.2 := mem_offers.mp hmem
    rw [herased] at hsome
    cases hsome
  have hsub : o :: t.offers ⊆ s.offers := by
    refine cons_subset.mpr ⟨mem_offers.mpr hoffer, fun o' ho' => ?_⟩
    have hsome : t.offer o'.1 o'.2.1 = some o'.2.2 := mem_offers.mp ho'
    refine mem_offers.mpr ((h.offer_eq fun hkey => ?_).symm.trans hsome)
    obtain ⟨hseller, hid⟩ : o'.1 = o.1 ∧ o'.2.1 = o.2.1 := by simpa using hkey
    rw [hseller, hid, herased] at hsome
    cases hsome
  exact (subperm_of_subset (nodup_cons.mpr ⟨hnotin, nodup_offers _⟩) hsub).length_le

/-- More rounds than there are offers are never needed. -/
theorem convertLoop_rounds (fuel : ℕ) (c : ConvertState) (s : LedgerTxn) (hfuel : s.offers.length < fuel) :
    Rounds host sheep wheat round filter maxOffers c s
      (convertLoop host sheep wheat round filter maxOffers fuel c s) := by
  induction fuel generalizing c s with
  | zero => exact absurd hfuel (Nat.not_lt_zero _)
  | succ fuel ih =>
    unfold convertLoop
    cases hstep : convertStep host sheep wheat round filter maxOffers c s with
    | error e t =>
      rw [bind_of_error hstep]
      exact .fails hstep
    | ok r t =>
      rw [bind_of_ok hstep]
      cases r with
      | inl result => exact .stops hstep
      | inr crossed =>
        by_cases hdone : crossed.wheatStays = true ∨ ¬ (c.cross crossed.atom).needMore
        · simp only [if_pos hdone]
          exact .enough hstep hdone
        · simp only [if_neg hdone]
          by_cases htaken : crossed.taken = true
          · rw [if_pos htaken]
            obtain ⟨o, ho⟩ := ((convertStep_returns host sheep wheat round filter maxOffers c
              s).of_ok hstep).2 crossed rfl
            have hlt := ho.crossing.offers_length_lt (getBestOffer_mem ho.best).1 htaken
            exact .again hstep hdone htaken (ih _ t (by omega))
          · rw [if_neg htaken]
            exact .rests hstep hdone htaken

/-! ## The trail -/

variable (host sheep wheat round filter) in
/-- The offers crossed on the way from one state to another. All but the last are taken. -/
inductive OfferWalk : LedgerTxn → List ClaimOfferAtom → LedgerTxn → Prop
  | stop {s t} (h : SameLedger s t) : OfferWalk s [] t
  | last {s o r t} (hbest : s.getBestOffer host.isBetterOffer sheep wheat = some o)
      (hkept : filter o.1 o.2.1 o.2.2.data = .ok .eKeep)
      (hcross : Crossing round o.1 o.2.1 o.2.2 s r t) : OfferWalk s [r.atom] t
  | next {s o r u trail t} (hbest : s.getBestOffer host.isBetterOffer sheep wheat = some o)
      (hkept : filter o.1 o.2.1 o.2.2.data = .ok .eKeep)
      (hcross : Crossing round o.1 o.2.1 o.2.2 s r u) (htaken : r.taken = true)
      (hrest : OfferWalk u trail t) : OfferWalk s (r.atom :: trail) t

/-- What the taker paid and got on a part of the trail. -/
structure Paid (maxOffers : ℕ) (c : ConvertState) (trail : List ClaimOfferAtom)
    (conv : Conversion) : Prop where
  offerTrail : conv.offerTrail = c.offerTrail ++ trail
  sheepSend : conv.sheepSend = c.sheepSend + (trail.map amountBought).sum
  wheatReceived : conv.wheatReceived = c.wheatReceived + (trail.map amountSold).sum
  bought_le : (trail.map amountBought).sum ≤ c.maxSheepSend
  sold_le : (trail.map amountSold).sum ≤ c.maxWheatReceive
  nonneg : ∀ a ∈ trail, 0 ≤ a.amountBought ∧ 0 ≤ a.amountSold
  few : c.offerTrail.length ≤ maxOffers → conv.offerTrail.length ≤ maxOffers

variable {c : ConvertState}

theorem paid_nil (hmore : c.needMore) (result : ConvertResult) :
    Paid maxOffers c [] (c.ended result) where
  offerTrail := (append_nil _).symm
  sheepSend := (add_zero _).symm
  wheatReceived := (add_zero _).symm
  bought_le := hmore.2.le
  sold_le := hmore.1.le
  nonneg := nofun
  few := id

theorem Exchanged.paid_last {s t : LedgerTxn} {o : BookEntry} {r : Crossed}
    (h : Exchanged host sheep wheat round filter maxOffers c s o r t) (result : ConvertResult) :
    Paid maxOffers c [r.atom] ((c.cross r.atom).ended result) where
  offerTrail := rfl
  sheepSend := by simp [ConvertState.cross, ConvertState.ended]
  wheatReceived := by simp [ConvertState.cross, ConvertState.ended]
  bought_le := by simpa using h.bought_le
  sold_le := by simpa using h.sold_le
  nonneg a ha := by
    obtain rfl := mem_singleton.mp ha
    exact ⟨h.bought_nonneg, h.sold_nonneg⟩
  few _ := by
    rw [ConvertState.ended, ConvertState.cross, length_append, length_singleton]
    exact h.few

theorem Exchanged.paid_cons {s t : LedgerTxn} {o : BookEntry} {r : Crossed}
    {trail : List ClaimOfferAtom} {conv : Conversion}
    (h : Exchanged host sheep wheat round filter maxOffers c s o r t)
    (hrest : Paid maxOffers (c.cross r.atom) trail conv) :
    Paid maxOffers c (r.atom :: trail) conv where
  offerTrail := by
    rw [hrest.offerTrail]
    simp [ConvertState.cross]
  sheepSend := by
    rw [hrest.sheepSend]
    simp [ConvertState.cross, add_assoc]
  wheatReceived := by
    rw [hrest.wheatReceived]
    simp [ConvertState.cross, add_assoc]
  bought_le := by
    have hle := hrest.bought_le
    simp only [ConvertState.cross] at hle
    rw [map_cons, sum_cons]
    omega
  sold_le := by
    have hle := hrest.sold_le
    simp only [ConvertState.cross] at hle
    rw [map_cons, sum_cons]
    omega
  nonneg a ha := by
    rcases mem_cons.mp ha with rfl | ha
    · exact ⟨h.bought_nonneg, h.sold_nonneg⟩
    · exact hrest.nonneg a ha
  few _ := by
    refine hrest.few ?_
    rw [ConvertState.cross, length_append, length_singleton]
    exact h.few

/-- A loop that returns has walked along a trail. -/
theorem Rounds.walk {s : LedgerTxn} {outcome : EStateM.Result Thrown LedgerTxn Conversion}
    (h : Rounds host sheep wheat round filter maxOffers c s outcome) (hmore : c.needMore)
    {conv : Conversion} {t : LedgerTxn} (hout : outcome = .ok conv t) :
    ∃ trail, OfferWalk host sheep wheat round filter s trail t ∧ Paid maxOffers c trail conv := by
  have hstep := fun {c s r t} (h : convertStep host sheep wheat round filter maxOffers c s = .ok r t) =>
    (convertStep_returns host sheep wheat round filter maxOffers c s).of_ok h
  induction h with
  | fails _ => cases hout
  | stops h =>
    cases hout
    exact ⟨[], .stop ((hstep h).1 _ rfl), paid_nil hmore _⟩
  | enough h _ | rests h _ _ =>
    cases hout
    obtain ⟨o, ho⟩ := (hstep h).2 _ rfl
    exact ⟨_, .last ho.best ho.kept ho.crossing, ho.paid_last _⟩
  | again h hneed htaken _ ih =>
    obtain ⟨o, ho⟩ := (hstep h).2 _ rfl
    obtain ⟨trail, hwalk, hpaid⟩ := ih (not_not.mp (not_or.mp hneed).2) hout
    exact ⟨_, .next ho.best ho.kept ho.crossing htaken hwalk, ho.paid_cons hpaid⟩

/-- The key of the offer that was crossed. -/
def ClaimOfferAtom.key (a : ClaimOfferAtom) : InternalLedgerKey := offerKey a.sellerID a.offerID

/-- The entries that may change along a trail: the offers, what holds the assets of their
sellers, and the accounts that pay their reserves. -/
def trailKeys (s : LedgerState) (trail : List ClaimOfferAtom) : Set InternalLedgerKey :=
  {k | ∃ a ∈ trail, ∃ e, s.offer a.sellerID a.offerID = some e ∧
    k ∈ crossingKeys a.sellerID a.offerID e}

/-- What the sellers were paid along a trail. -/
def trailDelta (trail : List ClaimOfferAtom) (k : InternalLedgerKey) : ℤ :=
  (trail.map fun a => a.delta k).sum

variable (sheep wheat) in
/-- Every offer of the trail is of the book and has not been visited before, and no offer that
has not been visited is better. -/
def InOrder (better : OfferDescriptor → OfferDescriptor → Bool) (s : LedgerState)
    (trail : List ClaimOfferAtom) : Prop :=
  ∀ pre a post, trail = pre ++ a :: post → a.key ∉ pre.map key ∧
    ∃ e, s.offer a.sellerID a.offerID = some e ∧ e.data.buying = sheep ∧ e.data.selling = wheat ∧
      ∀ sellerID offerID e', s.offer sellerID offerID = some e' → e'.data.buying = sheep →
        e'.data.selling = wheat → offerKey sellerID offerID ∉ pre.map key →
          ¬ better ⟨e'.data.price, offerID⟩ ⟨e.data.price, a.offerID⟩

/-- What became of the offers of a trail. -/
structure Consumed (s t : LedgerState) (trail : List ClaimOfferAtom) : Prop where
  erased : ∀ pre a b post, trail = pre ++ a :: b :: post → t.offer a.sellerID a.offerID = none
  last : ∀ pre a, trail = pre ++ [a] → t.offer a.sellerID a.offerID = none ∨
    ∃ e amount, s.offer a.sellerID a.offerID = some e ∧ amount ≤ e.data.amount - a.amountSold ∧
      t.offer a.sellerID a.offerID = some (withAmount e amount)

section
variable {o : BookEntry} {r : Crossed} {s u t : LedgerTxn} {trail : List ClaimOfferAtom}

theorem Crossing.key_eq (h : Crossing round o.1 o.2.1 o.2.2 s r u) : r.atom.key = offerKey o.1 o.2.1 := by
  rw [h.atom, key]

theorem Crossing.offer_atom (h : Crossing round o.1 o.2.1 o.2.2 s r u) (v : LedgerState) :
    v.offer r.atom.sellerID r.atom.offerID = v.offer o.1 o.2.1 := by
  rw [h.atom]

theorem Crossing.keys_atom (h : Crossing round o.1 o.2.1 o.2.2 s r u) (e : LedgerEntry OfferEntry) :
    crossingKeys r.atom.sellerID r.atom.offerID e = crossingKeys o.1 o.2.1 e := by
  rw [h.atom]

/-- What the book still holds after an offer was taken, it held before. -/
theorem Crossing.offer_of_taken (h : Crossing round o.1 o.2.1 o.2.2 s r u) (htaken : r.taken = true)
    {sellerID : AccountID} {offerID : ℤ} {e : LedgerEntry OfferEntry}
    (he : u.offer sellerID offerID = some e) :
    offerKey sellerID offerID ≠ r.atom.key ∧ s.offer sellerID offerID = some e := by
  have hne : offerKey sellerID offerID ≠ offerKey o.1 o.2.1 := fun hkey => by
    obtain ⟨rfl, rfl⟩ : sellerID = o.1 ∧ offerID = o.2.1 := by simpa using hkey
    have hnone : u.offer o.1 o.2.1 = none := h.erased htaken
    rw [hnone] at he
    cases he
  exact ⟨h.key_eq ▸ hne, (h.offer_eq hne).symm.trans he⟩

theorem trailKeys_subset (h : Crossing round o.1 o.2.1 o.2.2 s r u) (htaken : r.taken = true) :
    trailKeys u.toLedgerState trail ⊆ trailKeys s.toLedgerState (r.atom :: trail) := by
  rintro k ⟨a, ha, e, he, hk⟩
  exact ⟨a, mem_cons_of_mem _ ha, e, (h.offer_of_taken htaken he).2, hk⟩

theorem crossingKeys_subset (hoffer : s.offer o.1 o.2.1 = some o.2.2)
    (h : Crossing round o.1 o.2.1 o.2.2 s r u) :
    crossingKeys o.1 o.2.1 o.2.2 ⊆ trailKeys s.toLedgerState (r.atom :: trail) := fun _ hk =>
  ⟨r.atom, mem_cons_self, o.2.2, (h.offer_atom _).trans hoffer, (h.keys_atom _) ▸ hk⟩

/-- What is erased on the way stays so. -/
theorem offerKey_not_mem_trailKeys {sellerID : AccountID} {offerID : ℤ}
    (hnone : u.offer sellerID offerID = none) :
    offerKey sellerID offerID ∉ trailKeys u.toLedgerState trail := by
  rintro ⟨a, _, e, he, (hk | hk) | hk⟩
  · obtain ⟨rfl, rfl⟩ : sellerID = a.sellerID ∧ offerID = a.offerID := by simpa using hk
    rw [hnone] at he
    cases he
  · exact offerKey_not_mem_holdings hk
  · rcases hk with hk | ⟨_, _, hk⟩
    · cases hk
    · cases hk

end

namespace OfferWalk
variable {s t : LedgerTxn} {trail : List ClaimOfferAtom} {value : Price → ℚ}

/-- The balances change by what the atoms say, and nothing else does. -/
theorem effect (h : OfferWalk host sheep wheat round filter s trail t) :
    Effect (trailKeys s.toLedgerState trail) (trailDelta trail) s t := by
  induction h with
  | stop h => exact Effect.of_same h
  | @last s o r t hbest _ hcross =>
    have hoffer := (getBestOffer_mem hbest).1
    have hdelta : trailDelta [r.atom] = r.atom.delta := by
      funext k
      simp [trailDelta]
    rw [hdelta]
    exact hcross.effect.mono (crossingKeys_subset hoffer hcross)
  | @next s o r u trail t hbest _ hcross htaken _ ih =>
    have hoffer := (getBestOffer_mem hbest).1
    have hdelta : trailDelta (r.atom :: trail) = r.atom.delta + trailDelta trail := by
      funext k
      simp [trailDelta]
    exact (hcross.effect.mono (crossingKeys_subset hoffer hcross)).trans
      (ih.mono (trailKeys_subset hcross htaken))

theorem assets (h : OfferWalk host sheep wheat round filter s trail t) :
    ∀ a ∈ trail, a.assetSold = wheat ∧ a.assetBought = sheep := by
  have hatom {s u : LedgerTxn} {o : BookEntry} {r : Crossed}
      (hbest : s.getBestOffer host.isBetterOffer sheep wheat = some o)
      (hcross : Crossing round o.1 o.2.1 o.2.2 s r u) :
      r.atom.assetSold = wheat ∧ r.atom.assetBought = sheep := by
    obtain ⟨-, hbuying, hselling⟩ := getBestOffer_mem hbest
    rw [hcross.atom]
    exact ⟨hselling, hbuying⟩
  induction h with
  | stop h => exact nofun
  | last hbest _ hcross =>
    intro a ha
    obtain rfl := mem_singleton.mp ha
    exact hatom hbest hcross
  | next hbest _ hcross _ _ ih =>
    intro a ha
    rcases mem_cons.mp ha with rfl | ha
    · exact hatom hbest hcross
    · exact ih a ha

theorem inOrder (hvalue : host.isBetterOffer = isBetterOffer value)
    (h : OfferWalk host sheep wheat round filter s trail t) :
    InOrder sheep wheat host.isBetterOffer s.toLedgerState trail := by
  have hfirst {s u : LedgerTxn} {o : BookEntry} {r : Crossed}
      (hbest : s.getBestOffer host.isBetterOffer sheep wheat = some o)
      (hcross : Crossing round o.1 o.2.1 o.2.2 s r u) :
      ∃ e, s.offer r.atom.sellerID r.atom.offerID = some e ∧ e.data.buying = sheep ∧
        e.data.selling = wheat ∧ ∀ sellerID offerID e', s.offer sellerID offerID = some e' →
          e'.data.buying = sheep → e'.data.selling = wheat →
            ¬ host.isBetterOffer ⟨e'.data.price, offerID⟩ ⟨e.data.price, r.atom.offerID⟩ := by
    obtain ⟨hoffer, hbuying, hselling⟩ := getBestOffer_mem hbest
    rw [hcross.atom, hvalue]
    refine ⟨o.2.2, hoffer, hbuying, hselling, fun _ _ _ he' hb hs => ?_⟩
    exact getBestOffer_best (hvalue ▸ hbest) he' hb hs
  induction h with
  | stop h => exact fun pre a post htrail => absurd htrail (by simp)
  | @last s o r t hbest _ hcross =>
    intro pre a post htrail
    obtain ⟨rfl, rfl, rfl⟩ : pre = [] ∧ a = r.atom ∧ post = [] := by
      cases pre with
      | nil =>
        cases htrail
        exact ⟨rfl, rfl, rfl⟩
      | cons b pre => simp at htrail
    obtain ⟨e, he, hbuying, hselling, hmin⟩ := hfirst hbest hcross
    exact ⟨by simp, e, he, hbuying, hselling, fun _ _ e' h h' h'' _ => hmin _ _ e' h h' h''⟩
  | @next s o r u trail t hbest _ hcross htaken _ ih =>
    intro pre a post htrail
    cases pre with
    | nil =>
      cases htrail
      obtain ⟨e, he, hbuying, hselling, hmin⟩ := hfirst hbest hcross
      exact ⟨by simp, e, he, hbuying, hselling, fun _ _ e' h h' h'' _ => hmin _ _ e' h h' h''⟩
    | cons b pre =>
      obtain ⟨rfl, hrest⟩ := cons.inj htrail
      obtain ⟨hpre, e, he, hbuying, hselling, hmin⟩ := ih pre a post hrest
      obtain ⟨hkey, hs⟩ := hcross.offer_of_taken htaken he
      refine ⟨?_, e, hs, hbuying, hselling, fun sellerID offerID e' he' hb hw hnew => ?_⟩
      · rw [map_cons, mem_cons, not_or]
        exact ⟨hkey, hpre⟩
      · rw [map_cons, mem_cons, not_or] at hnew
        refine hmin sellerID offerID e' ?_ hb hw hnew.2
        exact (hcross.offer_eq (hcross.key_eq ▸ hnew.1)).trans he'

theorem consumed (h : OfferWalk host sheep wheat round filter s trail t) :
    Consumed s.toLedgerState t.toLedgerState trail := by
  induction h with
  | stop h => exact ⟨fun _ _ _ _ htrail => absurd htrail (by simp), fun _ _ htrail => absurd htrail (by simp)⟩
  | @last s o r t hbest _ hcross =>
    refine ⟨fun pre a b post htrail => ?_, fun pre a htrail => ?_⟩
    · have hlength := congrArg length htrail
      simp at hlength
      omega
    · obtain ⟨-, hatom⟩ := append_inj' ((nil_append _).trans htrail) rfl
      obtain rfl := (cons.inj hatom).1
      cases htaken : r.taken with
      | true => exact .inl ((hcross.offer_atom _).trans (hcross.erased htaken))
      | false =>
        obtain ⟨amount, hle, hoffer⟩ := hcross.reduced htaken
        refine .inr ⟨o.2.2, amount, ?_, hle, (hcross.offer_atom _).trans hoffer⟩
        exact (hcross.offer_atom _).trans (getBestOffer_mem hbest).1
  | @next s o r u trail t hbest _ hcross htaken hrest ih =>
    have herased : t.offer r.atom.sellerID r.atom.offerID = none := by
      have hnone : u.offer r.atom.sellerID r.atom.offerID = none :=
        (hcross.offer_atom _).trans (hcross.erased htaken)
      exact (hrest.effect.frame _ (offerKey_not_mem_trailKeys hnone)).trans hnone
    refine ⟨fun pre a b post htrail => ?_, fun pre a htrail => ?_⟩
    · cases pre with
      | nil =>
        obtain rfl := (cons.inj htrail).1
        exact herased
      | cons b' pre => exact ih.erased pre a b post (cons.inj htrail).2
    · cases pre with
      | nil =>
        obtain rfl := (cons.inj htrail).1
        exact .inl herased
      | cons b' pre =>
        rcases ih.last pre a (cons.inj htrail).2 with hnone | ⟨e, amount, he, hle, hoffer⟩
        · exact .inl hnone
        · exact .inr ⟨e, amount, (hcross.offer_of_taken htaken he).2, hle, hoffer⟩

end OfferWalk

end

/-! ## A whole conversion -/

/-- The accounts of a conversion from `s` to `t`. -/
structure Accounted (host : Host) (sheep : Asset) (maxSheepSend : ℤ) (wheat : Asset)
    (maxWheatReceive : ℤ) (maxOffers : ℕ) (s : LedgerTxn) (conv : Conversion) (t : LedgerTxn) :
    Prop where
  sheepSend : conv.sheepSend = (conv.offerTrail.map amountBought).sum
  wheatReceived : conv.wheatReceived = (conv.offerTrail.map amountSold).sum
  sheepSend_le : conv.sheepSend ≤ max maxSheepSend 0
  wheatReceived_le : conv.wheatReceived ≤ max maxWheatReceive 0
  atoms : ∀ a ∈ conv.offerTrail, a.assetSold = wheat ∧ a.assetBought = sheep ∧
    0 ≤ a.amountSold ∧ 0 ≤ a.amountBought
  effect : Effect (trailKeys s.toLedgerState conv.offerTrail) (trailDelta conv.offerTrail) s t
  order : InOrder sheep wheat host.isBetterOffer s.toLedgerState conv.offerTrail
  consumed : Consumed s.toLedgerState t.toLedgerState conv.offerTrail
  few : conv.offerTrail.length ≤ maxOffers

theorem accounted_nothing (host : Host) (sheep : Asset) (maxSheepSend : ℤ) (wheat : Asset)
    (maxWheatReceive : ℤ) (maxOffers : ℕ) (s : LedgerTxn) :
    Accounted host sheep maxSheepSend wheat maxWheatReceive maxOffers s ⟨.eOK, 0, 0, []⟩ s where
  sheepSend := rfl
  wheatReceived := rfl
  sheepSend_le := le_max_right _ _
  wheatReceived_le := le_max_right _ _
  atoms := nofun
  effect := Effect.of_same ⟨rfl, rfl⟩
  order _ _ _ htrail := absurd htrail (by simp)
  consumed := ⟨fun _ _ _ _ htrail => absurd htrail (by simp),
    fun _ _ htrail => absurd htrail (by simp)⟩
  few := Nat.zero_le _

theorem OfferWalk.accounted {host : Host} {sheep wheat : Asset} {round : RoundingType}
    {filter : OfferFilter} {maxSheepSend maxWheatReceive : ℤ} {maxOffers : ℕ} {s t : LedgerTxn}
    {trail : List ClaimOfferAtom} {conv : Conversion}
    (hvalue : host.isBetterOffer = isBetterOffer value)
    (hwalk : OfferWalk host sheep wheat round filter s trail t)
    (hpaid : Paid maxOffers ⟨maxSheepSend, 0, maxWheatReceive, 0, []⟩ trail conv) :
    Accounted host sheep maxSheepSend wheat maxWheatReceive maxOffers s conv t := by
  obtain rfl : conv.offerTrail = trail := hpaid.offerTrail
  have hsheep : conv.sheepSend = (conv.offerTrail.map amountBought).sum := by
    simpa using hpaid.sheepSend
  have hwheat : conv.wheatReceived = (conv.offerTrail.map amountSold).sum := by
    simpa using hpaid.wheatReceived
  exact {
    sheepSend := hsheep
    wheatReceived := hwheat
    sheepSend_le := (hsheep.le.trans hpaid.bought_le).trans (le_max_left _ _)
    wheatReceived_le := (hwheat.le.trans hpaid.sold_le).trans (le_max_left _ _)
    atoms := fun a ha => ⟨(hwalk.assets a ha).1, (hwalk.assets a ha).2,
      (hpaid.nonneg a ha).2, (hpaid.nonneg a ha).1⟩
    effect := hwalk.effect
    order := hwalk.inOrder hvalue
    consumed := hwalk.consumed
    few := hpaid.few (Nat.zero_le _) }

/-- A conversion ends for every book, and if it returns, its accounts are exact. -/
theorem convertWithOffers_accounts (host : Host) (value : Price → ℚ)
    (hvalue : host.isBetterOffer = isBetterOffer value) (sheep : Asset) (maxSheepSend : ℤ)
    (wheat : Asset) (maxWheatReceive : ℤ) (round : RoundingType) (filter : OfferFilter)
    (maxOffers : ℕ) (s : LedgerTxn) :
    (0 < maxWheatReceive ∧ 0 < maxSheepSend →
      Rounds host sheep wheat round filter maxOffers ⟨maxSheepSend, 0, maxWheatReceive, 0, []⟩ s
        (convertWithOffers host sheep maxSheepSend wheat maxWheatReceive round filter maxOffers
          s)) ∧
    (¬ (0 < maxWheatReceive ∧ 0 < maxSheepSend) →
      convertWithOffers host sheep maxSheepSend wheat maxWheatReceive round filter maxOffers s =
        .ok ⟨.eOK, 0, 0, []⟩ s) ∧
    ∀ conv t, convertWithOffers host sheep maxSheepSend wheat maxWheatReceive round filter
        maxOffers s = .ok conv t →
      Accounted host sheep maxSheepSend wheat maxWheatReceive maxOffers s conv t := by
  unfold convertWithOffers
  by_cases hmore : 0 < maxWheatReceive ∧ 0 < maxSheepSend
  · have hneed : (⟨maxSheepSend, 0, maxWheatReceive, 0, []⟩ : ConvertState).needMore := hmore
    simp only [if_pos hneed]
    have hrounds : Rounds host sheep wheat round filter maxOffers
        ⟨maxSheepSend, 0, maxWheatReceive, 0, []⟩ s (convertLoop host sheep wheat round filter
          maxOffers (s.offers.length + 1) ⟨maxSheepSend, 0, maxWheatReceive, 0, []⟩ s) :=
      convertLoop_rounds _ _ _ (Nat.lt_succ_self _)
    refine ⟨fun _ => hrounds, fun h => absurd hmore h, fun conv t hconv => ?_⟩
    obtain ⟨trail, hwalk, hpaid⟩ := hrounds.walk hneed hconv
    exact hwalk.accounted hvalue hpaid
  · have hneed : ¬ (⟨maxSheepSend, 0, maxWheatReceive, 0, []⟩ : ConvertState).needMore := hmore
    simp only [if_neg hneed]
    refine ⟨fun h => absurd h hmore, fun _ => rfl, fun conv t hconv => ?_⟩
    cases hconv
    exact accounted_nothing _ _ _ _ _ _ _

namespace SmallTrade

def host : Host where
  isBetterOffer := isBetterOffer fun price => price.n / price.d

def header : LedgerHeader where
  ledgerVersion := 14
  closeTime := 0
  ledgerSeq := 2
  totalCoins := 1000
  feePool := 0
  inflationSeq := 0
  idPool := 1
  baseFee := 100
  baseReserve := 5
  maxTxSetSize := 100

def seller : AccountID := 1

/-- A credit of the seller. -/
def credit : Asset := .alphaNum4 [85, 83, 68] seller

/-- Four coins for six of the seller's credit. -/
def offer : OfferEntry where
  selling := .native
  buying := credit
  amount := 4
  price := ⟨3, 2⟩
  flags := 0

/-- The seller and their offer, with its liabilities. -/
def ledger : LedgerTxn where
  entries := ((∅ : AList InternalLedgerKey.Entry).insert (accountKey seller)
    ⟨{ balance := 100, seqNum := 0, numSubEntries := Fin.ofNat (2 ^ 32) 1, ext := some ⟨⟨0, 4⟩, none⟩ },
      .v0⟩).insert (offerKey seller 1) ⟨offer, .v0⟩
  header := header

/-- A taker with some units of the credit. -/
def taking (units : ℤ) : LedgerM Conversion :=
  convertWithOffers host credit units .native 10 .normal (fun _ _ _ => pure .eKeep) maxOffersToCross

def taken (units : ℤ) : LedgerTxn := finalState (taking units) ledger

end SmallTrade

open SmallTrade in
/-- One unit of the credit buys no whole coin. The offer is visited and exchanges nothing: it is
neither erased nor reduced. -/
theorem visited_offer_unchanged :
    offer.getOfferSellingLiabilities header = .ok 4 ∧
    taking 1 ledger = .ok ⟨.eOK, 0, 0, [⟨seller, 1, .native, 0, credit, 0⟩]⟩ (taken 1) ∧
    ledger.offer seller 1 = some ⟨offer, .v0⟩ ∧ (taken 1).offer seller 1 = some ⟨offer, .v0⟩ := by
  refine ⟨by decide +kernel, eq_ok_of_returned ?_, ?_, ?_⟩ <;> decide +kernel

open SmallTrade in
/-- Three units buy two coins. -/
theorem visited_offer_accounted :
    Accounted host credit 3 .native 10 maxOffersToCross ledger
      ⟨.eOK, 3, 2, [⟨seller, 1, .native, 2, credit, 3⟩]⟩ (taken 3) :=
  (convertWithOffers_accounts host (fun price => price.n / price.d) rfl credit 3 .native 10 .normal
    (fun _ _ _ => pure .eKeep) maxOffersToCross ledger).2.2 _ _
      (eq_ok_of_returned (by decide +kernel))

end DigitalBits.Ledger
