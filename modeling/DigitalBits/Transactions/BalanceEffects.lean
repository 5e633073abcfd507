import DigitalBits.Ledger.Effect
import DigitalBits.Transactions.SponsorshipUtils

/-!
# What payments, liabilities and reserves do to the ledger

A payment adds to one balance. What is noted beside a balance, the liabilities of offers and
the counters of reserves, leaves it as it is.
-/
namespace DigitalBits.Ledger

open Lib

/-! ## Entries -/

/-- What the computation puts in an entry's place, if it does, satisfies `P`. -/
abbrev Gives {α : Type} (x : Fallible (Option α)) (P : α → Prop) : Prop :=
  Yields x (fun r => ∀ a ∈ r, P a) fun _ => True

section
variable {α β : Type} {P P' : α → Prop} {x y : Fallible (Option α)}

theorem Gives.imp (h : Gives x P) (hP : ∀ a, P a → P' a) : Gives x P' :=
  h.mono (fun _ hr a ha => hP a (hr a ha)) fun _ _ => trivial

/-- A number is read, or an assertion checked, and the rest goes on. -/
theorem Gives.bind {z : Fallible β} {f : β → Fallible (Option α)} (h : ∀ b, Gives (f b) P) :
    Gives (z >>= f) P := by
  rw [Gives, yields_bind]
  exact (yields_true z).mono (fun b _ => h b) fun _ _ => trivial

theorem Gives.ite {c : Prop} [Decidable c] (hx : c → Gives x P) (hy : Gives y P) :
    Gives (if c then x else y) P := by
  rw [Gives, yields_ite]
  exact ⟨hx, fun _ => hy⟩

theorem gives_none : Gives (pure none) P := fun _ ha => absurd ha (Option.not_mem_none _)

theorem gives_some {a : α} (h : P a) : Gives (pure (some a)) P := by
  simpa using h

end

theorem addToBalance_adds (balance delta maxBalance : ℤ) :
    Gives (addToBalance balance delta maxBalance) (· = balance + delta) := by
  unfold addToBalance Fallible.assert
  simp only [Gives, yields_bind, yields_ite, yields_pure, yields_throw, implies_true, and_true,
    Option.mem_some_iff, forall_eq', Option.not_mem_none, false_implies]
  intro _ _ h0
  omega

section
variable (header : LedgerHeader) (delta : ℤ)

/-- If a payment is made, it adds `delta` to the balance. -/
theorem AccountEntry.addBalance_adds (acc : AccountEntry) :
    Gives (acc.addBalance header delta) fun acc' => acc'.balance = acc.balance + delta := by
  refine .ite (fun h0 => gives_some (by simp [h0])) ?_
  rw [Gives, yields_bind]
  refine (addToBalance_adds acc.balance delta int64Max).mono (fun r hr => ?_) fun _ _ => trivial
  cases r with
  | none => exact gives_none
  | some b =>
    obtain rfl := hr b rfl
    simp [AccountEntry.getSellingLiabilities, AccountEntry.getBuyingLiabilities,
      requireLiabilities, Fallible.require]

theorem TrustLineEntry.addBalance_adds (tl : TrustLineEntry) :
    Gives (tl.addBalance header delta) fun tl' => tl'.balance = tl.balance + delta := by
  refine .ite (fun h0 => gives_some (by simp [h0])) (.bind fun _ => .ite (fun _ => ?_) gives_none)
  rw [Gives, yields_bind]
  refine (addToBalance_adds tl.balance delta tl.limit).mono (fun r hr => ?_) fun _ _ => trivial
  cases r with
  | none => exact gives_none
  | some b =>
    obtain rfl := hr b rfl
    simp [TrustLineEntry.getSellingLiabilities, TrustLineEntry.getBuyingLiabilities,
      requireLiabilities, Fallible.require]

/-- Liabilities are kept apart from the balance. -/
theorem AccountEntry.addBuyingLiabilities_balance (acc : AccountEntry) :
    Gives (acc.addBuyingLiabilities header delta) fun acc' => acc'.balance = acc.balance := by
  refine .bind fun _ => .ite (fun _ => gives_some rfl) (.bind fun r => ?_)
  cases r with
  | none => exact gives_none
  | some buying => exact gives_some rfl

theorem AccountEntry.addSellingLiabilities_balance (acc : AccountEntry) :
    Gives (acc.addSellingLiabilities header delta) fun acc' => acc'.balance = acc.balance := by
  refine .bind fun _ => .ite (fun _ => gives_some rfl) (.bind fun _ => .ite (fun _ => gives_none)
    (.bind fun r => ?_))
  cases r with
  | none => exact gives_none
  | some selling => exact gives_some rfl

theorem TrustLineEntry.addBuyingLiabilities_balance (tl : TrustLineEntry) :
    Gives (tl.addBuyingLiabilities header delta) fun tl' => tl'.balance = tl.balance := by
  refine .bind fun _ => .ite (fun _ => gives_some rfl) (.bind fun _ => .ite (fun _ => .bind fun r => ?_)
    gives_none)
  cases r with
  | none => exact gives_none
  | some buying => exact gives_some rfl

theorem TrustLineEntry.addSellingLiabilities_balance (tl : TrustLineEntry) :
    Gives (tl.addSellingLiabilities header delta) fun tl' => tl'.balance = tl.balance := by
  refine .bind fun _ => .ite (fun _ => gives_some rfl) (.bind fun _ => .ite (fun _ => .bind fun r => ?_)
    gives_none)
  cases r with
  | none => exact gives_none
  | some selling => exact gives_some rfl

end

/-! ## Active entries -/

section
variable {K : Set InternalLedgerKey} {s : LedgerTxn}

variable {key : LedgerKey}

theorem returns_readData {α : Type} {f : LedgerHeader → key.Data → Fallible α}
    {Q : α → LedgerTxn → Prop}
    (h : ∀ e a, s.entries.lookup (.ledgerEntry key) = some e → f s.header e.data = .ok a → Q a s) :
    Returns (readData key f) s Q := by
  unfold readData
  rw [Returns, after_bind, after_loadHeader, after_bind]
  exact returns_current fun e he => returns_lift fun a ha => h e a he ha

/-- What is written in an entry's place adds `d` to its balance. -/
theorem updateData_effect (hk : .ledgerEntry key ∈ K)
    {f : LedgerHeader → key.Data → Fallible (Option key.Data)} {d : ℤ}
    (hf : ∀ e : LedgerEntry key.Data, Gives (f s.header e.data) fun data =>
      entryBalance (.ledgerEntry key) { e with data := data } =
        (entryBalance (.ledgerEntry key) e).map (· + d)) :
    Returns (updateData key f) s fun r t => r = true → Effect K (Pi.single (.ledgerEntry key) d) s t := by
  unfold updateData
  rw [Returns, after_bind, after_loadHeader, after_bind]
  refine returns_current fun e he => ?_
  rw [after_bind]
  refine returns_lift fun r hr => ?_
  cases r with
  | none => exact fun h => absurd h Bool.false_ne_true
  | some data =>
    rw [after_bind]
    exact returns_put fun _ => Effect.withEntry hk he ((hf e).of_ok hr data rfl)

/-- A payment to an entry that has a balance. -/
theorem addBalance_effect (hk : .ledgerEntry key ∈ K) (delta : ℤ) :
    Returns (addBalance key delta) s fun r t =>
      r = true → Effect K (Pi.single (.ledgerEntry key) delta) s t := by
  cases key with
  | account id =>
    exact updateData_effect (f := fun header acc => acc.addBalance header delta) hk fun e =>
      (e.data.addBalance_adds s.header delta).imp fun _ => congrArg some
  | trustline id asset =>
    exact updateData_effect (f := fun header tl => tl.addBalance header delta) hk fun e =>
      (e.data.addBalance_adds s.header delta).imp fun _ => congrArg some
  | _ => trivial

theorem updateData_effect_zero (hk : .ledgerEntry key ∈ K)
    {f : LedgerHeader → key.Data → Fallible (Option key.Data)}
    (hf : ∀ e : LedgerEntry key.Data, Gives (f s.header e.data) fun data =>
      entryBalance (.ledgerEntry key) { e with data := data } = entryBalance (.ledgerEntry key) e) :
    Returns (updateData key f) s fun r t => r = true → Effect K 0 s t := by
  refine (updateData_effect (d := 0) hk fun e => (hf e).imp fun data hdata => ?_).imp
    fun r t h hr => ?_
  · simpa using hdata
  · simpa using h hr

theorem addBuyingLiabilities_effect (hk : .ledgerEntry key ∈ K) (delta : ℤ) :
    Returns (addBuyingLiabilities key delta) s fun r t => r = true → Effect K 0 s t := by
  cases key with
  | account id =>
    exact updateData_effect_zero (f := fun header acc => acc.addBuyingLiabilities header delta) hk
      fun e => (e.data.addBuyingLiabilities_balance s.header delta).imp fun _ => congrArg some
  | trustline id asset =>
    exact updateData_effect_zero (f := fun header tl => tl.addBuyingLiabilities header delta) hk
      fun e => (e.data.addBuyingLiabilities_balance s.header delta).imp fun _ => congrArg some
  | _ => trivial

theorem addSellingLiabilities_effect (hk : .ledgerEntry key ∈ K) (delta : ℤ) :
    Returns (addSellingLiabilities key delta) s fun r t => r = true → Effect K 0 s t := by
  cases key with
  | account id =>
    exact updateData_effect_zero (f := fun header acc => acc.addSellingLiabilities header delta) hk
      fun e => (e.data.addSellingLiabilities_balance s.header delta).imp fun _ => congrArg some
  | trustline id asset =>
    exact updateData_effect_zero (f := fun header tl => tl.addSellingLiabilities header delta) hk
      fun e => (e.data.addSellingLiabilities_balance s.header delta).imp fun _ => congrArg some
  | _ => trivial

end

/-! ## Holdings -/

/-- The wrapper that `loadTrustLineIfNotNative` gives for an asset. -/
inductive LineOf (accountID : AccountID) (asset : Asset) : TrustLineWrapper → Prop
  | missing : LineOf accountID asset .missing
  | issuer (hissuer : asset.issuer? = some accountID) : LineOf accountID asset .issuer
  | line (hasset : asset ≠ .native) (hissuer : asset.issuer? ≠ some accountID) :
      LineOf accountID asset (.line accountID asset)

/-- Where an account holds an asset; it holds no credit of its own. -/
def holdingKey (accountID : AccountID) (asset : Asset) : Option InternalLedgerKey :=
  if asset = .native then
    some (accountKey accountID)
  else if asset.issuer? = some accountID then
    none
  else
    some (trustlineKey accountID asset)

/-- A payment of `d` to an account. -/
def holdingDelta (accountID : AccountID) (asset : Asset) (d : ℤ) : InternalLedgerKey → ℤ :=
  ((holdingKey accountID asset).map fun k => Pi.single k d).getD 0

theorem holdingDelta_zero (accountID : AccountID) (asset : Asset) :
    holdingDelta accountID asset 0 = 0 := by
  unfold holdingDelta
  cases holdingKey accountID asset <;> simp

section
variable {K : Set InternalLedgerKey} {s : LedgerTxn} {accountID : AccountID} {asset : Asset}

theorem returns_loadTrustLine {Q : TrustLineWrapper → LedgerTxn → Prop}
    (h : ∀ line ks, LineOf accountID asset line → Q line (s.withActive ks)) :
    Returns (loadTrustLine accountID asset) s Q := by
  unfold loadTrustLine
  rw [Returns, after_bind]
  refine returns_require fun hasset => ?_
  rw [after_ite]
  refine ⟨fun hissuer => h .issuer s.mActive (.issuer hissuer), fun hissuer => ?_⟩
  rw [after_bind]
  refine returns_load fun ks => ?_
  cases s.entries.lookup (trustlineKey accountID asset) with
  | none => exact h .missing ks .missing
  | some e => exact h _ ks (.line hasset hissuer)

theorem returns_loadTrustLineIfNotNative {Q : TrustLineWrapper → LedgerTxn → Prop}
    (h : ∀ line ks, LineOf accountID asset line → Q line (s.withActive ks)) :
    Returns (loadTrustLineIfNotNative accountID asset) s Q := by
  unfold loadTrustLineIfNotNative
  rw [Returns, after_ite]
  exact ⟨fun _ => h .missing s.mActive .missing, fun _ => returns_loadTrustLine h⟩

theorem TrustLineWrapper.addBalance_effect {line : TrustLineWrapper}
    (hline : LineOf accountID asset line) (hasset : asset ≠ .native)
    (hk : trustlineKey accountID asset ∈ K) (delta : ℤ) :
    Returns (line.addBalance delta) s fun r t =>
      r = true → Effect K (holdingDelta accountID asset delta) s t := by
  cases hline with
  | missing => trivial
  | issuer hissuer =>
    have hzero : holdingDelta accountID asset delta = 0 := by
      simp [holdingDelta, holdingKey, hasset, hissuer]
    rw [hzero]
    exact fun _ => Effect.refl K s
  | line _ hissuer =>
    have hsingle : holdingDelta accountID asset delta =
        Pi.single (trustlineKey accountID asset) delta := by
      simp [holdingDelta, holdingKey, hasset, hissuer]
    rw [hsingle]
    exact Ledger.addBalance_effect hk delta

end

/-! ## Liabilities -/

section
variable {K : Set InternalLedgerKey} {s : LedgerTxn} {sellerID : AccountID} {asset : Asset}

theorem TrustLineWrapper.addBuyingLiabilities_effect {line : TrustLineWrapper}
    (hline : LineOf sellerID asset line) (hk : trustlineKey sellerID asset ∈ K) (delta : ℤ) :
    Returns (line.addBuyingLiabilities delta) s fun r t => r = true → Effect K 0 s t := by
  cases hline with
  | missing => trivial
  | issuer _ => exact fun _ => Effect.refl K s
  | line _ _ => exact Ledger.addBuyingLiabilities_effect hk delta

theorem TrustLineWrapper.addSellingLiabilities_effect {line : TrustLineWrapper}
    (hline : LineOf sellerID asset line) (hk : trustlineKey sellerID asset ∈ K) (delta : ℤ) :
    Returns (line.addSellingLiabilities delta) s fun r t => r = true → Effect K 0 s t := by
  cases hline with
  | missing => trivial
  | issuer _ => exact fun _ => Effect.refl K s
  | line _ _ => exact Ledger.addSellingLiabilities_effect hk delta

theorem addOfferLiabilities_effect {delta : ℤ} {toAccount : LedgerKey → ℤ → LedgerM Bool}
    {toLine : ℤ → TrustLineWrapper → LedgerM Bool} {e : RuntimeError}
    (htoAccount : ∀ s, Returns (toAccount (.account sellerID) delta) s fun r t =>
      r = true → Effect K 0 s t)
    (htoLine : ∀ s line, LineOf sellerID asset line → Returns (toLine delta line) s fun r t =>
      r = true → Effect K 0 s t) :
    Returns (addOfferLiabilities sellerID asset delta toAccount toLine e) s fun _ t =>
      Effect K 0 s t := by
  refine returns_block ?_
  simp only [Returns, after_ite, after_bind]
  refine ⟨fun _ => ?_, fun _ => ?_⟩
  · refine returns_load fun ks => ?_
    refine returns_require fun _ => ?_
    refine (htoAccount _).imp fun r t h => returns_require fun hr ks' => ?_
    exact ((Effect.refl K s).withActive ks).trans_zero ((h hr).withActive ks')
  · refine returns_loadTrustLine fun line ks hline => ?_
    refine returns_require fun _ => ?_
    refine (htoLine _ line hline).imp fun r t h => returns_require fun hr ks' => ?_
    exact ((Effect.refl K s).withActive ks).trans_zero ((h hr).withActive ks')

/-- The entries that hold what an account exchanges. -/
def holdings (sellerID : AccountID) (wheat sheep : Asset) : Set InternalLedgerKey :=
  {accountKey sellerID, trustlineKey sellerID wheat, trustlineKey sellerID sheep}

theorem acquireOrReleaseLiabilities_effect {offerID : ℤ} {isAcquire : Bool}
    {e : LedgerEntry OfferEntry} (he : s.entries.lookup (offerKey sellerID offerID) = some e) :
    Returns (acquireOrReleaseLiabilities sellerID offerID isAcquire) s fun _ t =>
      Effect (holdings sellerID e.data.selling e.data.buying) 0 s t := by
  unfold acquireOrReleaseLiabilities
  have hacc : accountKey sellerID ∈ holdings sellerID e.data.selling e.data.buying := .inl rfl
  simp only [Returns, after_bind, after_loadHeader]
  refine returns_current fun e' he' => ?_
  obtain rfl := Option.mem_unique he he'
  refine returns_require fun _ => ?_
  refine returns_lift fun buying _ => ?_
  refine (addOfferLiabilities_effect (fun _ => addBuyingLiabilities_effect hacc _)
    fun _ line hline => line.addBuyingLiabilities_effect hline (.inr (.inr rfl)) _).imp
      fun _ t ht => ?_
  refine returns_lift fun selling _ => ?_
  exact (addOfferLiabilities_effect (fun _ => addSellingLiabilities_effect hacc _)
    fun _ line hline => line.addSellingLiabilities_effect hline (.inr (.inl rfl)) _).imp
      fun _ u hu => ht.trans_zero hu

end

/-! ## Reserves -/

/-- What an account has and what of it is promised. -/
def AccountEntry.funds (acc : AccountEntry) : ℤ × Liabilities := (acc.balance, acc.liabilities)

/-- An account after it was relieved of reserves it paid for others. -/
structure AccountEntry.Relieved (acc acc' : AccountEntry) : Prop where
  funds : acc'.funds = acc.funds
  numSubEntries : acc'.numSubEntries = acc.numSubEntries
  numSponsored : acc'.numSponsored = acc.numSponsored
  numSponsoring : acc'.numSponsoring ≤ acc.numSponsoring

namespace AccountEntry

theorem Relieved.refl (acc : AccountEntry) : acc.Relieved acc := ⟨rfl, rfl, rfl, le_rfl⟩

theorem Relieved.trans {acc acc' acc'' : AccountEntry} (h : acc.Relieved acc')
    (h' : acc'.Relieved acc'') : acc.Relieved acc'' :=
  ⟨h'.funds.trans h.funds, h'.numSubEntries.trans h.numSubEntries,
    h'.numSponsored.trans h.numSponsored, h'.numSponsoring.trans h.numSponsoring⟩

variable (acc : AccountEntry) (extV2 : AccountEntryExtensionV2)

@[simp] theorem withExtensionV2_funds : (acc.withExtensionV2 extV2).funds = acc.funds := by
  unfold funds withExtensionV2 liabilities prepareAccountEntryExtensionV1
  cases acc.ext <;> rfl

@[simp] theorem withExtensionV2_extV2 : (acc.withExtensionV2 extV2).extV2 = some extV2 := rfl

end AccountEntry

section
variable {s : LedgerTxn} {acc : AccountEntry}

variable {delta : ℤ} {Q : AccountEntry → LedgerTxn → Prop}

theorem returns_addNumSubEntries (h : ∀ acc' t, acc'.funds = acc.funds → SameLedger s t → Q acc' t) :
    Returns (acc.addNumSubEntries delta) s Q := by
  unfold AccountEntry.addNumSubEntries
  rw [Returns, after_bind]
  exact returns_counter fun _ t _ ht => h _ t rfl ht

variable {extV2 : AccountEntryExtensionV2}

theorem returns_addNumSponsoring
    (h : ∀ (n : Counter) t, (n.val : ℤ) = (extV2.numSponsoring.val + delta) % 2 ^ 32 →
      SameLedger s t → Q (acc.withExtensionV2 { extV2 with numSponsoring := n }) t) :
    Returns (acc.addNumSponsoring extV2 delta) s Q := by
  unfold AccountEntry.addNumSponsoring
  rw [Returns, after_bind]
  exact returns_counter fun n t hn ht => h n t hn ht

theorem returns_addNumSponsored (h : ∀ acc' t, acc'.funds = acc.funds → SameLedger s t → Q acc' t) :
    Returns (acc.addNumSponsored extV2 delta) s Q := by
  unfold AccountEntry.addNumSponsored
  rw [Returns, after_bind]
  exact returns_counter fun _ t _ ht => h _ t (acc.withExtensionV2_funds _) ht

variable {key : LedgerKey}

theorem returns_removeEntryWithoutSponsorship
    (h : ∀ acc' t, acc'.funds = acc.funds → SameLedger s t → Q acc' t) :
    Returns (removeEntryWithoutSponsorship key acc) s Q := by
  unfold removeEntryWithoutSponsorship
  rw [Returns, after_ite]
  exact ⟨fun _ => h acc s rfl ⟨rfl, rfl⟩, fun _ => returns_addNumSubEntries h⟩

/-- What is taken off a counter that is large enough. -/
theorem AccountEntry.relieved_withExtensionV2 {n : Counter} {mult : ℕ}
    (hext : acc.extV2 = some extV2)
    (hn : (n.val : ℤ) = (extV2.numSponsoring.val + (-mult)) % 2 ^ 32)
    (hmult : mult ≤ acc.numSponsoring) :
    acc.Relieved (acc.withExtensionV2 { extV2 with numSponsoring := n }) := by
  have hsponsoring : acc.numSponsoring = extV2.numSponsoring.val := by
    rw [AccountEntry.numSponsoring, hext]
    rfl
  refine ⟨acc.withExtensionV2_funds _, rfl, ?_, ?_⟩
  · rw [AccountEntry.numSponsored, AccountEntry.numSponsored, withExtensionV2_extV2, hext]
    rfl
  · have hlt := extV2.numSponsoring.isLt
    change n.val ≤ _
    omega

variable {sponsoredAcc : Option AccountEntry}

/-- The accounts after a call that takes an entry's sponsorship away have the funds they had. -/
structure Unsponsored (key : LedgerKey) (le : LedgerEntry key.Data) (acc : AccountEntry)
    (sponsoredAcc : Option AccountEntry) (s : LedgerTxn) (r : Sponsored key) (t : LedgerTxn) :
    Prop where
  funds : r.sponsoringAcc.funds = acc.funds
  relieved : computeMultiplier key le.data ≤ acc.numSponsoring → acc.Relieved r.sponsoringAcc
  sponsored : r.sponsoredAcc.map AccountEntry.funds = sponsoredAcc.map AccountEntry.funds
  same : SameLedger s t

variable {le : LedgerEntry key.Data} {sponsoringAccID : AccountID}

theorem removeEntrySponsorship_unsponsored :
    Returns (removeEntrySponsorship key le sponsoringAccID acc sponsoredAcc) s
      (Unsponsored key le acc sponsoredAcc s) := by
  unfold removeEntrySponsorship
  simp only [Returns, after_bind]
  refine returns_lift fun _ _ => ?_
  refine returns_lift fun _ _ => ?_
  refine returns_lift fun extV2 hextV2 => ?_
  have hext : acc.extV2 = some extV2 := by
    unfold AccountEntry.getAccountEntryExtensionV2 at hextV2
    cases hv : acc.extV2 with
    | none =>
      rw [hv] at hextV2
      cases hextV2
    | some v =>
      rw [hv] at hextV2
      cases hextV2
      rfl
  refine returns_addNumSponsoring fun n t hn ht => ?_
  have hfunds := acc.withExtensionV2_funds { extV2 with numSponsoring := n }
  have hrelieved := AccountEntry.relieved_withExtensionV2 hext hn
  cases sponsoredAcc with
  | none => exact ⟨hfunds, hrelieved, rfl, ht⟩
  | some sponsored =>
    simp only [after_bind]
    refine returns_lift fun _ _ => ?_
    exact returns_addNumSponsored fun sponsored' u hsponsored hu =>
      ⟨hfunds, hrelieved, congrArg some hsponsored, ht.trans hu⟩

theorem removeEntryWithSponsorship_unsponsored :
    Returns (removeEntryWithSponsorship key le sponsoringAccID acc sponsoredAcc) s
      (Unsponsored key le acc sponsoredAcc s) := by
  unfold removeEntryWithSponsorship
  cases sponsoredAcc with
  | none => exact removeEntrySponsorship_unsponsored
  | some sponsored =>
    rw [Returns, after_bind]
    refine returns_removeEntryWithoutSponsorship fun sponsored' t hsponsored ht => ?_
    exact removeEntrySponsorship_unsponsored.imp fun r u h =>
      { h with sponsored := h.sponsored.trans (congrArg some hsponsored), same := ht.trans h.same }

/-- The accounts that pay the reserve of an entry. -/
def reserves (accID : AccountID) (ext : LedgerEntryExt) : Set InternalLedgerKey :=
  {k | k = accountKey accID ∨ ∃ sponsoringID, ext.sponsor = some sponsoringID ∧
    k = accountKey sponsoringID}

/-- From `s` to `t` accounts other than the given one were at most relieved of reserves. -/
def OthersRelieved (accID : AccountID) (s t : LedgerState) : Prop :=
  ∀ id ≠ accID, ∀ acc, s.account id = some acc →
    ∃ acc', t.account id = some acc' ∧ acc.data.Relieved acc'.data

variable {accID : AccountID}

theorem OthersRelieved.trans {s t u : LedgerState} (h : OthersRelieved accID s t)
    (h' : OthersRelieved accID t u) : OthersRelieved accID s u := by
  intro id hid acc hacc
  obtain ⟨acc', hacc', hrelieved⟩ := h id hid acc hacc
  obtain ⟨acc'', hacc'', hrelieved'⟩ := h' id hid acc' hacc'
  exact ⟨acc'', hacc'', hrelieved.trans hrelieved'⟩

/-- Where nothing is written to other accounts. -/
theorem Effect.othersRelieved {K : Set InternalLedgerKey} {δ : InternalLedgerKey → ℤ}
    {s t : LedgerTxn} (h : Effect K δ s t) (hK : ∀ id, accountKey id ∈ K → id = accID) :
    OthersRelieved accID s.toLedgerState t.toLedgerState := fun id hid acc hacc =>
  ⟨acc, (h.frame _ fun hmem => hid (hK id hmem)).trans hacc, .refl _⟩

/-- Where an account that is relieved is written back. -/
theorem othersRelieved_withEntry {id : AccountID} {s t : LedgerTxn} (hsame : SameLedger s t)
    {e : LedgerEntry AccountEntry} {acc : AccountEntry} (he : s.account id = some e)
    (hrelieved : e.data.Relieved acc) :
    OthersRelieved accID s.toLedgerState
      (t.withEntry (accountKey id) { e with data := acc }).toLedgerState := by
  intro id' _ e' he'
  by_cases hid : id' = id
  · subst hid
    obtain rfl := Option.mem_unique he he'
    exact ⟨_, AList.lookup_insert _, hrelieved⟩
  · have hne : accountKey id' ≠ accountKey id := by simpa using hid
    refine ⟨e', (AList.lookup_insert_ne hne).trans ?_, .refl _⟩
    rwa [hsame.entries]

theorem canRemoveEntryWithSponsorship_mult {lh : LedgerHeader} {sponsoringAcc : AccountEntry}
    {isSponsoredAcc : Bool} {u : Unit}
    (h : canRemoveEntryWithSponsorship lh key le sponsoringAcc sponsoredAcc isSponsoredAcc = .ok u) :
    computeMultiplier key le.data ≤ sponsoringAcc.numSponsoring := by
  have hyields : Yields
      (canRemoveEntryWithSponsorship lh key le sponsoringAcc sponsoredAcc isSponsoredAcc)
      (fun _ => computeMultiplier key le.data ≤ sponsoringAcc.numSponsoring) fun _ => True := by
    unfold canRemoveEntryWithSponsorship requireSponsorships Fallible.require
    simp only [yields_bind, yields_ite, yields_pure, yields_throw]
    exact ⟨fun _ => ⟨fun hmult => ⟨fun _ => ⟨fun _ => hmult, fun _ => trivial⟩, fun _ => trivial⟩,
      fun _ => trivial⟩, fun _ => trivial⟩
  exact hyields.of_ok h

theorem removeEntryWithPossibleSponsorship_effect :
    Returns (removeEntryWithPossibleSponsorship key le accID) s fun _ t =>
      Effect (reserves accID le.ext) 0 s t ∧
        OthersRelieved accID s.toLedgerState t.toLedgerState := by
  refine returns_block ?_
  rw [Returns, after_bind, after_loadHeader, after_bind]
  refine returns_current fun acc hacc => ?_
  have hmem : accountKey accID ∈ reserves accID le.ext := .inl rfl
  -- the account itself is written, and no other one
  have hself : ∀ (acc' : AccountEntry) (t : LedgerTxn) (ks : List InternalLedgerKey),
      acc'.funds = acc.data.funds → SameLedger s t →
        Effect (reserves accID le.ext) 0 s
          ((t.withEntry (accountKey accID) { acc with data := acc' }).withActive ks) ∧
        OthersRelieved accID s.toLedgerState
          ((t.withEntry (accountKey accID) { acc with data := acc' }).withActive ks).toLedgerState := by
    intro acc' t ks hfunds ht
    have hput : ∀ K, accountKey accID ∈ K → Effect K 0 s
        ((t.withEntry (accountKey accID) { acc with data := acc' }).withActive ks) := fun K hK =>
      ((Effect.of_same ht).put_same hK (ht.entries ▸ hacc)
        (congrArg some (congrArg Prod.fst hfunds))).withActive ks
    exact ⟨hput _ hmem, (hput {accountKey accID} rfl).othersRelieved fun id hid => by simpa using hid⟩
  cases hsponsor : le.ext.sponsor with
  | none =>
    simp only [after_bind]
    refine returns_lift fun _ _ => ?_
    refine returns_removeEntryWithoutSponsorship fun acc' t hacc' ht => ?_
    exact returns_put fun ks => hself acc' t ks hacc' ht
  | some sponsoringID =>
    have hsponsoring : accountKey sponsoringID ∈ reserves accID le.ext :=
      .inr ⟨sponsoringID, hsponsor, rfl⟩
    simp only [after_ite, after_bind]
    refine ⟨fun _ => ?_, fun hne => ?_⟩
    · refine returns_require fun _ => ?_
      refine returns_lift fun _ _ => ?_
      refine removeEntryWithSponsorship_unsponsored.imp fun r t hr => ?_
      exact returns_put fun ks => hself r.sponsoringAcc t ks hr.funds hr.same
    · refine returns_load fun ks => ?_
      refine returns_current fun sponsoringAcc hsponsoringAcc => ?_
      refine returns_lift fun _ hcan => ?_
      refine removeEntryWithSponsorship_unsponsored.imp fun r t h => ?_
      obtain ⟨hr, hrelieved, hr', ht⟩ := h
      have hothers : OthersRelieved accID s.toLedgerState
          (t.withEntry (accountKey sponsoringID)
            { sponsoringAcc with data := r.sponsoringAcc }).toLedgerState :=
        othersRelieved_withEntry ((sameLedger_withActive s ks).trans ht) hsponsoringAcc
          (hrelieved (canRemoveEntryWithSponsorship_mult hcan))
      have hput : Effect _ 0 s (t.withEntry (accountKey sponsoringID)
          { sponsoringAcc with data := r.sponsoringAcc }) :=
        (Effect.of_same ((sameLedger_withActive s ks).trans ht)).put_same hsponsoring
          (ht.entries ▸ hsponsoringAcc) (congrArg some (congrArg Prod.fst hr))
      refine returns_put ?_
      cases hdata : r.sponsoredAcc with
      | none => exact fun ks' => ⟨hput.withActive ks', hothers⟩
      | some data =>
        have hbalance : data.balance = acc.data.balance := by
          rw [hdata] at hr'
          split_ifs at hr' with hclaimable
          · exact absurd hr' (by simp)
          · exact congrArg Prod.fst (Option.some.inj hr')
        have hacc' : (t.withEntry (accountKey sponsoringID)
            { sponsoringAcc with data := r.sponsoringAcc }).entries.lookup (accountKey accID) =
              some acc := by
          rwa [LedgerTxn.withEntry_entries, AList.lookup_insert_ne (by simpa using hne), ht.entries]
        refine returns_put fun ks' => ⟨(hput.put_same hmem hacc' (congrArg some hbalance)).withActive
          ks', hothers.trans ?_⟩
        refine ((Effect.withEntry_same (Set.mem_singleton (accountKey accID)) hacc'
          (congrArg some hbalance)).withActive ks').othersRelieved fun id hid => ?_
        simpa using hid

end

end DigitalBits.Ledger
