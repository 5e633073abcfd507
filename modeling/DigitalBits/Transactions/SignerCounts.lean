import DigitalBits.Transactions.FeeProcessing
import DigitalBits.Transactions.TransactionValidity

/-!
# Removing a signer whose counters are in order

A signer counts in its account and, if it is sponsored, in its sponsor. Where these counters cover
the signers, a signer is removed without an exception, and they cover what is left.
-/
namespace DigitalBits.Ledger
open List

open Lib

/-! ## The counters -/

namespace AccountEntry

/-- Who sponsors each of the signers. -/
def signerSponsors (acc : AccountEntry) : List (Option AccountID) :=
  (acc.extV2.map AccountEntryExtensionV2.signerSponsoringIDs).getD []

/-- The counters of the account cover its signers. -/
structure CountsSigners (acc : AccountEntry) : Prop where
  subEntries : acc.signers.length ≤ acc.numSubEntries.val
  sponsors : acc.extV2.isSome = true → acc.signerSponsors.length = acc.signers.length
  sponsored : acc.signerSponsors.countP Option.isSome ≤ acc.numSponsored

end AccountEntry

/-- The signers under a key that the account sponsors. -/
def signersOfSponsor (sponsor : AccountID) : ∀ k : InternalLedgerKey, k.Entry → ℤ
  | .ledgerEntry (.account _), e => e.data.signerSponsors.count (some sponsor)
  | .ledgerEntry (.trustline _ _), _ => 0
  | .ledgerEntry (.offer _ _), _ => 0
  | .ledgerEntry (.data _ _), _ => 0
  | .ledgerEntry (.claimableBalance _), _ => 0
  | .sponsorship _, _ => 0
  | .sponsorshipCounter _, _ => 0

namespace LedgerState

/-- How many signers in the ledger the account sponsors. -/
def sponsoredSigners (s : LedgerState) (sponsor : AccountID) : ℤ :=
  Store.total (signersOfSponsor sponsor) s.entries

/-- The sponsor of a signer of the account is another account, and counts what it sponsors. -/
def CountsSponsored (s : LedgerState) (id sponsor : AccountID) : Prop :=
  14 ≤ s.header.ledgerVersion ∧ sponsor ≠ id ∧
    ∃ e, s.account sponsor = some e ∧ s.sponsoredSigners sponsor ≤ e.data.numSponsoring

/-- Every account with one of the signers counts its signers, and so do their sponsors. -/
def SignersCounted (s : LedgerState) (keys : List SignerKey) : Prop :=
  ∀ id e, s.account id = some e → (∃ signer ∈ e.data.signers, signer.key ∈ keys) →
    e.data.CountsSigners ∧ ∀ sponsor, some sponsor ∈ e.data.signerSponsors → s.CountsSponsored id sponsor

end LedgerState

/-- Two ledgers in which all that counts signers is the same. -/
structure SameCounts (s t : LedgerState) : Prop where
  version : t.header.ledgerVersion = s.header.ledgerVersion
  account : ∀ id, (t.account id).map (fun e => (e.data.signers, e.data.numSubEntries, e.data.extV2)) =
    (s.account id).map fun e => (e.data.signers, e.data.numSubEntries, e.data.extV2)

section
variable {s t : LedgerState} {keys : List SignerKey} {id : AccountID} {e w : LedgerEntry AccountEntry}

theorem SameCounts.of_account (h : SameCounts s t) (he : t.account id = some e) :
    ∃ e', s.account id = some e' ∧ e.data.signers = e'.data.signers ∧
      e.data.numSubEntries = e'.data.numSubEntries ∧ e.data.extV2 = e'.data.extV2 := by
  have hid := h.account id
  rw [he, Option.map_some, eq_comm, Option.map_eq_some_iff] at hid
  obtain ⟨e', he', hcounts⟩ := hid
  simp only [Prod.mk.injEq] at hcounts
  exact ⟨e', he', hcounts.1.symm, hcounts.2.1.symm, hcounts.2.2.symm⟩

theorem SameCounts.symm (h : SameCounts s t) : SameCounts t s :=
  ⟨h.version.symm, fun id => (h.account id).symm⟩

theorem SameCounts.trans {u : LedgerState} (h : SameCounts s t) (h' : SameCounts t u) :
    SameCounts s u :=
  ⟨h'.version.trans h.version, fun id => (h'.account id).trans (h.account id)⟩

theorem SameCounts.sponsoredSigners (h : SameCounts s t) (sponsor : AccountID) :
    t.sponsoredSigners sponsor = s.sponsoredSigners sponsor := by
  refine Store.total_congr fun k => ?_
  rw [Store.part_eq_elim, Store.part_eq_elim]
  cases k with
  | sponsorship | sponsorshipCounter =>
    cases s.entries.lookup _ <;> cases t.entries.lookup _ <;> rfl
  | ledgerEntry key =>
    cases key with
    | account id =>
      have hid := h.account id
      unfold LedgerState.account at hid
      cases hs : s.entries.lookup (accountKey id) with
      | none =>
        rw [hs, Option.map_none, Option.map_eq_none_iff] at hid
        rw [hid]
      | some e =>
        rw [hs, Option.map_some, Option.map_eq_some_iff] at hid
        obtain ⟨e', he', hcounts⟩ := hid
        simp only [Prod.mk.injEq] at hcounts
        rw [he']
        simp only [Option.elim_some, signersOfSponsor, AccountEntry.signerSponsors, hcounts.2.2]
    | trustline | offer | data | claimableBalance =>
      cases s.entries.lookup _ <;> cases t.entries.lookup _ <;> rfl

theorem SameCounts.signersCounted (h : SameCounts s t) (hs : s.SignersCounted keys) :
    t.SignersCounted keys := by
  intro id e he hsigner
  obtain ⟨e', he', hsigners, hsub, hext⟩ := h.of_account he
  rw [hsigners] at hsigner
  obtain ⟨hcounts, hsponsors⟩ := hs id e' he' hsigner
  have heq : e.data.signerSponsors = e'.data.signerSponsors := by
    rw [AccountEntry.signerSponsors, hext, AccountEntry.signerSponsors]
  refine ⟨⟨?_, ?_, ?_⟩, fun sponsor hsponsor => ?_⟩
  · rw [hsigners, hsub]
    exact hcounts.subEntries
  · rw [hext, heq, hsigners]
    exact hcounts.sponsors
  · rw [heq, AccountEntry.numSponsored, hext]
    exact hcounts.sponsored
  · rw [heq] at hsponsor
    obtain ⟨hversion, hne, ep, hep, hle⟩ := hsponsors sponsor hsponsor
    obtain ⟨ep', hep', -, -, hext'⟩ := h.symm.of_account hep
    refine ⟨h.version ▸ hversion, hne, ep', hep', ?_⟩
    rw [h.sponsoredSigners, AccountEntry.numSponsoring, ← hext']
    exact hle

/-- Writing an account that has no more signers than it had. -/
theorem LedgerState.SignersCounted.insert (h : s.SignersCounted keys) (he : s.account id = some e)
    (hsub : ∀ signer ∈ w.data.signers, signer ∈ e.data.signers)
    (hcounts : e.data.CountsSigners → w.data.CountsSigners)
    (hsponsors : ∀ sponsor, w.data.signerSponsors.count sponsor ≤ e.data.signerSponsors.count sponsor)
    (hsponsoring : (s.sponsoredSigners id : ℤ) - e.data.signerSponsors.count (some id) +
      w.data.signerSponsors.count (some id) ≤ w.data.numSponsoring ∨
      e.data.numSponsoring ≤ w.data.numSponsoring) :
    ({ s with entries := s.entries.insert (accountKey id) w } : LedgerState).SignersCounted keys := by
  have htotal (sponsor : AccountID) := Store.total_insert_of_lookup (f := signersOfSponsor sponsor)
    (v := w) he
  have hmem (sponsor) (hsponsor : sponsor ∈ w.data.signerSponsors) : sponsor ∈ e.data.signerSponsors :=
    count_pos_iff.mp ((count_pos_iff.mpr hsponsor).trans_le (hsponsors sponsor))
  have hcover (id' sponsor : AccountID) (hsponsor : s.CountsSponsored id' sponsor) :
      ({ s with entries := s.entries.insert (accountKey id) w } : LedgerState).CountsSponsored id'
        sponsor := by
    obtain ⟨hversion, hne, ep, hep, hle⟩ := hsponsor
    have hcount := hsponsors (some sponsor)
    have hsum := htotal sponsor
    simp only [signersOfSponsor] at hsum
    unfold sponsoredSigners at hle
    by_cases hid : sponsor = id
    · subst hid
      obtain rfl := Option.mem_unique he hep
      refine ⟨hversion, hne, w, AList.lookup_insert _, ?_⟩
      unfold sponsoredSigners at hsponsoring ⊢
      dsimp only
      omega
    · refine ⟨hversion, hne, ep, (AList.lookup_insert_ne (accountKey_ne hid)).trans hep, ?_⟩
      unfold sponsoredSigners
      dsimp only
      omega
  intro id' e'' he'' hsigner
  by_cases hid : id' = id
  · subst hid
    obtain rfl := Option.some.inj ((AList.lookup_insert _).symm.trans he'')
    obtain ⟨signer, hsigner, hkey⟩ := hsigner
    obtain ⟨hcounted, hsponsored⟩ := h id' e he ⟨signer, hsub signer hsigner, hkey⟩
    exact ⟨hcounts hcounted, fun sponsor hsponsor => hcover _ _ (hsponsored _ (hmem _ hsponsor))⟩
  · obtain ⟨hcounted, hsponsored⟩ :=
      h id' e'' ((AList.lookup_insert_ne (accountKey_ne hid)).symm.trans he'') hsigner
    exact ⟨hcounted, fun sponsor hsponsor => hcover _ _ (hsponsored _ hsponsor)⟩

end

/-! ## Removing a signer -/

/-- The account without the signer at position `n`. -/
structure AccountEntry.SignerErased (n : ℕ) (acc acc' : AccountEntry) : Prop where
  signers : acc'.signers = acc.signers.eraseIdx n
  subEntries : acc'.numSubEntries.val + 1 = acc.numSubEntries.val
  ext : acc'.extV2.isSome = acc.extV2.isSome
  sponsors : acc'.signerSponsors = acc.signerSponsors.eraseIdx n
  sponsored : acc.numSponsored ≤
    acc'.numSponsored + if acc.signerSponsors[n]?.join.isSome = true then 1 else 0
  sponsoring : acc'.numSponsoring = acc.numSponsoring

namespace AccountEntry
variable {acc acc' : AccountEntry} {n : ℕ}

theorem SignerErased.countsSigners (h : SignerErased n acc acc') (hn : n < acc.signers.length)
    (hacc : acc.CountsSigners) : acc'.CountsSigners := by
  refine ⟨?_, fun hext => ?_, ?_⟩
  · have hle := hacc.subEntries
    have hsub := h.subEntries
    rw [h.signers, length_eraseIdx_of_lt hn]
    omega
  · have hlength := hacc.sponsors (h.ext ▸ hext)
    rw [h.sponsors, h.signers, length_eraseIdx_of_lt hn, length_eraseIdx_of_lt (by omega), hlength]
  · have hle := hacc.sponsored
    have hsponsored := h.sponsored
    rw [h.sponsors]
    by_cases hn' : n < acc.signerSponsors.length
    · have hperm := (getElem_cons_eraseIdx_perm hn').countP_eq Option.isSome
      rw [getElem?_eq_getElem hn', Option.join_some] at hsponsored
      rw [countP_cons] at hperm
      omega
    · rw [getElem?_eq_none (not_lt.mp hn')] at hsponsored
      rw [eraseIdx_of_length_le (not_lt.mp hn')]
      exact hle.trans hsponsored

theorem eraseSigner_extV2 (acc : AccountEntry) (n : ℕ) :
    (acc.eraseSigner n).extV2 = acc.extV2.map fun extV2 =>
      { extV2 with signerSponsoringIDs := extV2.signerSponsoringIDs.eraseIdx n } := by
  unfold eraseSigner extV2
  cases acc.ext <;> rfl

theorem signerErased_eraseSigner {m : Counter} (hm : m.val + 1 = acc.numSubEntries.val) :
    SignerErased n acc (eraseSigner { acc with numSubEntries := m } n) := by
  have hext := eraseSigner_extV2 { acc with numSubEntries := m } n
  have hsame : ({ acc with numSubEntries := m } : AccountEntry).extV2 = acc.extV2 := rfl
  rw [hsame] at hext
  refine ⟨rfl, hm, ?_, ?_, ?_, ?_⟩
  · rw [hext, Option.isSome_map]
  · unfold signerSponsors
    rw [hext]
    cases acc.extV2 <;> rfl
  · unfold numSponsored
    rw [hext]
    cases acc.extV2 <;> simp
  · unfold numSponsoring
    rw [hext]
    cases acc.extV2 <;> rfl

variable {extV2 : AccountEntryExtensionV2}

/-- Taking back the sponsorship first comes to the same. -/
theorem SignerErased.of_sponsored (hext : acc.extV2 = some extV2) {m : Counter}
    (hm : extV2.numSponsored.val ≤ m.val + 1) (hsome : (extV2.signerSponsoringIDs[n]?.join).isSome = true)
    (h : SignerErased n (acc.withExtensionV2 { extV2 with
      signerSponsoringIDs := extV2.signerSponsoringIDs.set n none, numSponsored := m }) acc') :
    SignerErased n acc acc' := by
  have hids : acc.signerSponsors = extV2.signerSponsoringIDs := by
    rw [signerSponsors, hext]
    rfl
  refine ⟨h.signers, h.subEntries, ?_, ?_, ?_, ?_⟩
  · rw [h.ext, hext]
    rfl
  · rw [h.sponsors, hids]
    exact eraseIdx_set_eq
  · have hle : m.val ≤ acc'.numSponsored +
      if ((extV2.signerSponsoringIDs.set n none)[n]?.join).isSome = true then 1 else 0 := h.sponsored
    have hnone : (extV2.signerSponsoringIDs.set n none)[n]?.join = none := by
      rw [getElem?_set_self']
      cases extV2.signerSponsoringIDs[n]? <;> rfl
    rw [hnone, if_neg (by simp)] at hle
    rw [hids, if_pos hsome, numSponsored, hext]
    exact hm.trans (Nat.add_le_add_right hle 1)
  · rw [h.sponsoring]
    unfold numSponsoring
    rw [hext]
    rfl

end AccountEntry

section
variable {s : LedgerTxn} {E : Thrown → LedgerTxn → Prop} {n : ℕ} {acc : AccountEntry}

/-- A counter that is not zero does not wrap around. -/
theorem after_counter_pred {c : Counter} {Q : Counter → LedgerTxn → Prop} (hc : 1 ≤ c.val)
    (h : ∀ m : Counter, m.val + 1 = c.val → Q m s) : After (counter (c + (-1))) s Q E := by
  have hlt := c.isLt
  rw [after_counter, if_neg (by unfold uint32Max; omega)]
  refine h _ ?_
  dsimp only
  omega

theorem after_removeSigner {Q : AccountEntry → LedgerTxn → Prop} (hc : 1 ≤ acc.numSubEntries.val)
    (h : ∀ acc', acc.SignerErased n acc' → Q acc' s) :
    After (removeSignerWithoutSponsorship n acc) s Q E := by
  unfold removeSignerWithoutSponsorship AccountEntry.addNumSubEntries
  simp only [after_bind, after_pure]
  exact after_counter_pred hc fun m hm => h _ (AccountEntry.signerErased_eraseSigner hm)

variable {id : AccountID} {keys : List SignerKey} {e : LedgerEntry AccountEntry} {signer : Signer}

theorem LedgerState.SignersCounted.erase {s : LedgerState} {w : LedgerEntry AccountEntry}
    (h : s.SignersCounted keys) (he : s.account id = some e) (hn : n < e.data.signers.length)
    (herased : e.data.SignerErased n w.data) :
    ({ s with entries := s.entries.insert (accountKey id) w } : LedgerState).SignersCounted keys := by
  refine h.insert he (fun signer hsigner => ?_) (herased.countsSigners hn) (fun sponsor => ?_)
    (.inr herased.sponsoring.ge)
  · rw [herased.signers] at hsigner
    exact mem_of_mem_eraseIdx hsigner
  · rw [herased.sponsors]
    exact (eraseIdx_sublist _ _).count_le _

/-- The sponsor of the signer counts one less. -/
theorem LedgerState.SignersCounted.eraseSponsored {s : LedgerState} {sponsor : AccountID}
    {e' ep : LedgerEntry AccountEntry} {extV2 : AccountEntryExtensionV2} {m : Counter}
    (h : s.SignersCounted keys) (he : s.account id = some e) (hn : n < e.data.signers.length)
    (herased : e.data.SignerErased n e'.data)
    (hsponsor : e.data.signerSponsors[n]? = some (some sponsor))
    (hcounts : s.CountsSponsored id sponsor) (hep : s.account sponsor = some ep)
    (hext : ep.data.extV2 = some extV2) (hm : m.val + 1 = extV2.numSponsoring.val) :
    ({ s with entries := (s.entries.insert (accountKey sponsor) { ep with
      data := ep.data.withExtensionV2 { extV2 with numSponsoring := m } }).insert (accountKey id) e' } :
      LedgerState).SignersCounted keys := by
  obtain ⟨-, hne, ep', hep', hle⟩ := hcounts
  obtain rfl := Option.mem_unique hep hep'
  have hkeys := accountKey_ne hne
  have hids : ep.data.signerSponsors = extV2.signerSponsoringIDs := by
    rw [AccountEntry.signerSponsors, hext]
    rfl
  have hnum : ep.data.numSponsoring = extV2.numSponsoring.val := by
    rw [AccountEntry.numSponsoring, hext]
    rfl
  -- the account is written first: then the sponsor has one signer less to count
  have hfirst := h.erase (w := e') he hn herased
  have hep' : ({ s with entries := s.entries.insert (accountKey id) e' } : LedgerState).account sponsor =
      some ep := (AList.lookup_insert_ne hkeys).trans hep
  have hsum := Store.total_insert_of_lookup (f := signersOfSponsor sponsor) (v := e') he
  obtain ⟨hlt, hget⟩ := List.getElem?_eq_some_iff.mp hsponsor
  have hperm := (getElem_cons_eraseIdx_perm hlt).count_eq (some sponsor)
  rw [hget, count_cons_self, ← herased.sponsors] at hperm
  refine SameCounts.signersCounted ?_ (hfirst.insert (w := { ep with
    data := ep.data.withExtensionV2 { extV2 with numSponsoring := m } }) hep' (fun _ hmem => hmem)
    (fun hcounted => ?_) (fun p => ?_) (.inl ?_))
  · refine ⟨rfl, fun id' => ?_⟩
    unfold account
    dsimp only
    by_cases hid : id' = id
    · subst hid
      rw [AList.lookup_insert, AList.lookup_insert_ne hkeys.symm, AList.lookup_insert]
    · rw [AList.lookup_insert_ne (accountKey_ne hid)]
      by_cases hp : id' = sponsor
      · subst hp
        rw [AList.lookup_insert, AList.lookup_insert]
      · rw [AList.lookup_insert_ne (accountKey_ne hp), AList.lookup_insert_ne (accountKey_ne hp),
          AList.lookup_insert_ne (accountKey_ne hid)]
  · refine ⟨hcounted.subEntries, fun _ => ?_, ?_⟩
    · have hlength := hcounted.sponsors (by rw [hext]; rfl)
      rwa [hids] at hlength
    · have hsponsored := hcounted.sponsored
      rwa [hids, AccountEntry.numSponsored, hext] at hsponsored
  · rw [hids]
    exact le_rfl
  · simp only [signersOfSponsor] at hsum
    unfold sponsoredSigners at hle ⊢
    dsimp only
    rw [hsum, hids]
    change _ - _ + (extV2.signerSponsoringIDs.count (some sponsor) : ℤ) ≤ (m.val : ℤ)
    omega

/-- A sponsor that counts its signers counts at least one. -/
theorem one_le_numSponsoring {s : LedgerState} {sponsor : AccountID}
    {ep : LedgerEntry AccountEntry} (hle : s.sponsoredSigners sponsor ≤ ep.data.numSponsoring)
    (he : s.account id = some e) (hmem : some sponsor ∈ e.data.signerSponsors) :
    1 ≤ ep.data.numSponsoring := by
  have hpart := Store.le_total_of_lookup (f := signersOfSponsor sponsor) (fun k v _ => ?_) he
  · have hpos := count_pos_iff.mpr hmem
    unfold LedgerState.sponsoredSigners at hle
    simp only [signersOfSponsor] at hpart
    omega
  · fun_cases signersOfSponsor sponsor k v
    case case1 => exact Int.natCast_nonneg _
    all_goals exact le_rfl

theorem after_removeSponsoredSigner {Q : AccountEntry × AccountEntry → LedgerTxn → Prop}
    {sponsor : AccountID} {sponsoringAcc : AccountEntry} {extV2 sponsoringExt : AccountEntryExtensionV2}
    (hext : acc.extV2 = some extV2) (hn : extV2.signerSponsoringIDs[n]? = some (some sponsor))
    (hsub : 1 ≤ acc.numSubEntries.val) (hsponsored : 1 ≤ extV2.numSponsored.val)
    (hsponsoringExt : sponsoringAcc.extV2 = some sponsoringExt)
    (hsponsoring : 1 ≤ sponsoringExt.numSponsoring.val)
    (h : ∀ (m : Counter) acc', m.val + 1 = sponsoringExt.numSponsoring.val → acc.SignerErased n acc' →
      Q (sponsoringAcc.withExtensionV2 { sponsoringExt with numSponsoring := m }, acc') s) :
    After (removeSignerWithSponsorship n sponsor sponsoringAcc acc) s Q E := by
  unfold removeSignerWithSponsorship removeSignerSponsorship AccountEntry.setSignerSponsor
    AccountEntry.addNumSponsored AccountEntry.addNumSponsoring AccountEntry.getAccountEntryExtensionV2
    AccountEntryExtensionV2.signerSponsoringID accountIsSponsor Fallible.require
  simp only [after_bind, after_pure, hext, hn, hsponsoringExt, after_lift, yields_pure, if_true]
  refine after_counter_pred hsponsored fun m hm => after_counter_pred hsponsoring fun m' hm' => ?_
  exact after_removeSigner hsub fun acc' herased => h m' acc' hm' (.of_sponsored hext hm.ge (by rw [hn]; rfl) herased)

/-- A signer in an account whose counters are in order is removed without an exception. -/
theorem removeSignerWithPossibleSponsorship_counted (hs : s.toLedgerState.SignersCounted keys)
    (hacc : s.account id = some e) (hn : e.data.signers[n]? = some signer) (hkey : signer.key ∈ keys)
    (hactive : s.mActive = [accountKey id]) :
    After (removeSignerWithPossibleSponsorship n id) s
      (fun _ t => t.toLedgerState.SignersCounted keys) E := by
  obtain ⟨hlt, -⟩ := List.getElem?_eq_some_iff.mp hn
  obtain ⟨hcounts, hsponsors⟩ := hs id e hacc ⟨signer, mem_of_getElem? hn, hkey⟩
  have hsub : 1 ≤ e.data.numSubEntries.val := by
    have hle := hcounts.subEntries
    omega
  have hactive' : accountKey id ∈ s.mActive := hactive ▸ mem_cons_self
  have hunsponsored : After (do
      lift (canRemoveSignerWithoutSponsorship e.data)
      let data ← removeSignerWithoutSponsorship n e.data
      put (accountKey id) { e with data := data }) s
      (fun _ t => t.toLedgerState.SignersCounted keys) E := by
    have hcan : canRemoveSignerWithoutSponsorship e.data = .ok () := if_pos hsub
    rw [after_bind, after_lift, hcan, yields_ok, after_bind]
    refine after_removeSigner hsub fun acc' herased => after_put.mpr ⟨fun h => absurd hactive' h, fun _ => ?_⟩
    exact hs.erase hacc hlt herased
  unfold removeSignerWithPossibleSponsorship
  rw [after_block, after_bind, after_loadHeader, after_bind, after_current_of hactive' hacc]
  cases hext : e.data.extV2 with
  | none => exact hunsponsored
  | some extV2 =>
    have hids : e.data.signerSponsors = extV2.signerSponsoringIDs := by
      rw [AccountEntry.signerSponsors, hext]
      rfl
    have hlength := hcounts.sponsors (by rw [hext]; rfl)
    rw [hids] at hlength
    have hlt' : n < extV2.signerSponsoringIDs.length := hlength ▸ hlt
    have hget := getElem?_eq_getElem hlt'
    simp only [after_bind, after_lift, AccountEntryExtensionV2.signerSponsoringID, hget, yields_pure]
    generalize extV2.signerSponsoringIDs[n] = sponsor at hget
    cases sponsor with
    | none => exact hunsponsored
    | some sponsor =>
      have hget' : e.data.signerSponsors[n]? = some (some sponsor) := by rwa [hids]
      have hmem := mem_of_getElem? hget'
      obtain ⟨hversion, hne, ep, hep, hle⟩ := hsponsors sponsor hmem
      have hpos : 0 < e.data.signerSponsors.countP Option.isSome := countP_pos_iff.mpr ⟨_, hmem, rfl⟩
      have hsponsored := hpos.trans_le hcounts.sponsored
      have hsponsoring := one_le_numSponsoring hle hacc hmem
      have hcan : canRemoveSignerWithSponsorship s.header ep.data e.data = .ok () := by
        unfold canRemoveSignerWithSponsorship requireSponsorships Fallible.require
        rw [if_pos hversion, if_pos hsponsoring, if_pos ⟨hsub, hsponsored⟩]
        rfl
      rw [AccountEntry.numSponsored, hext] at hsponsored
      unfold AccountEntry.numSponsoring at hsponsoring
      cases hsponsoringExt : ep.data.extV2 with
      | none => simp [hsponsoringExt] at hsponsoring
      | some sponsoringExt =>
      rw [hsponsoringExt] at hsponsoring
      unfold loadAccount
      simp only [after_bind]
      refine after_load.mpr ⟨fun h => ?_, fun _ h => ?_, fun _ e' he' => ?_⟩
      · simp [hactive, hne] at h
      · cases h.symm.trans hep
      obtain rfl := Option.mem_unique hep he'
      rw [after_current_of (s := s.withActive _) mem_cons_self hep, after_lift, hcan, yields_ok]
      refine after_removeSponsoredSigner hext hget hsub hsponsored hsponsoringExt hsponsoring ?_
      intro m acc' hm herased
      refine after_put.mpr ⟨fun h => absurd mem_cons_self h, fun _ => after_put.mpr
        ⟨fun h => absurd (mem_cons_of_mem _ hactive') h, fun _ => ?_⟩⟩
      exact hs.eraseSponsored hacc hlt herased hget' (hsponsors sponsor hmem) hep hsponsoringExt hm

theorem LedgerState.SignersCounted.mono {s : LedgerState} {keys' : List SignerKey}
    (h : s.SignersCounted keys) (hsub : ∀ key ∈ keys', key ∈ keys) : s.SignersCounted keys' :=
  fun id e he ⟨signer, hsigner, hkey⟩ => h id e he ⟨signer, hsigner, hsub _ hkey⟩

variable {key : SignerKey}

theorem removeSignerOf_counted (hs : s.toLedgerState.SignersCounted keys) (hkey : key ∈ keys)
    (hacc : s.account id = some e) :
    After (removeSignerOf id key) (s.withActive [accountKey id])
      (fun _ t => t.toLedgerState.SignersCounted keys) E := by
  unfold removeSignerOf
  simp only [after_bind]
  rw [after_current_loaded hacc]
  simp only [after_ite, after_pure]
  refine ⟨fun hfound => ?_, fun _ => hs⟩
  obtain ⟨signer, hn, hsigner⟩ := (Option.any_eq_true _ _).mp hfound
  rw [after_bind]
  exact removeSignerWithPossibleSponsorship_counted hs hacc hn
    (by rwa [of_decide_eq_true hsigner]) rfl

theorem removeAccountSigners_counted (hs : s.toLedgerState.SignersCounted keys) (hkey : key ∈ keys)
    (accounts : List AccountID) :
    After (TransactionFrame.removeAccountSigners key accounts) s
      (fun _ t => t.toLedgerState.SignersCounted keys) E := by
  induction accounts generalizing s with
  | nil => exact hs
  | cons id accounts ih =>
    refine After.bind (Q := fun _ t => t.toLedgerState.SignersCounted keys) ?_ fun _ t ht => ih ht
    unfold TransactionFrame.removeAccountSigner
    rw [after_nested, after_bind]
    refine after_loadAccount rfl (fun _ => ⟨nofun, fun _ => hs⟩) fun e he => ?_
    simp only [after_bind]
    exact (removeSignerOf_counted (s := s.withActive []) hs hkey he).imp
      fun _ t ht => ⟨fun _ => ht, fun _ => hs⟩

end

end DigitalBits.Ledger
