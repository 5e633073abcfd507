import DigitalBits.Ledger.Rules

/-!
# What a computation does to the ledger

A call is summed up by the keys under which it may write and by what it adds to the
balances there. Effects compose, so the effect of an operation is put together from those
of the functions it calls. Only calls that return are looked at here: an exception undoes
what was done.
-/
namespace DigitalBits.Ledger

open Lib

/-- The balance of an account or of a trust line; other entries have none. -/
def entryBalance : ∀ k : InternalLedgerKey, k.Entry → Option ℤ
  | .ledgerEntry (.account _), e => some e.data.balance
  | .ledgerEntry (.trustline _ _), e => some e.data.balance
  | .ledgerEntry (.offer _ _), _ => none
  | .ledgerEntry (.data _ _), _ => none
  | .ledgerEntry (.claimableBalance _), _ => none
  | .sponsorship _, _ => none
  | .sponsorshipCounter _, _ => none

/-- The balance under a key. -/
def LedgerState.balance (s : LedgerState) (k : InternalLedgerKey) : Option ℤ :=
  (s.entries.lookup k).bind (entryBalance k)

@[simp] theorem LedgerState.balance_offerKey (s : LedgerState) (sellerID : AccountID) (offerID : ℤ) :
    s.balance (offerKey sellerID offerID) = none := by
  unfold balance
  cases s.entries.lookup (offerKey sellerID offerID) <;> rfl

/-- Equal but for what is no part of the ledger. -/
structure SameLedger (s t : LedgerTxn) : Prop where
  entries : t.entries = s.entries
  header : t.header = s.header

theorem SameLedger.trans {s t u : LedgerTxn} (h : SameLedger s t) (h' : SameLedger t u) :
    SameLedger s u :=
  ⟨h'.entries.trans h.entries, h'.header.trans h.header⟩

theorem sameLedger_withActive (s : LedgerTxn) (ks : List InternalLedgerKey) :
    SameLedger s (s.withActive ks) := ⟨rfl, rfl⟩

/-- From `s` to `t` only entries under the keys of `K` changed, and the balances by `δ`. -/
structure Effect (K : Set InternalLedgerKey) (δ : InternalLedgerKey → ℤ) (s t : LedgerTxn) :
    Prop where
  header : t.header = s.header
  frame : ∀ k ∉ K, t.entries.lookup k = s.entries.lookup k
  balance : ∀ k, t.balance k = (s.balance k).map (· + δ k)

namespace Effect
variable {K K' : Set InternalLedgerKey} {δ δ' : InternalLedgerKey → ℤ} {s t u : LedgerTxn}

theorem refl (K : Set InternalLedgerKey) (s : LedgerTxn) : Effect K 0 s s :=
  ⟨rfl, fun _ _ => rfl, fun k => by cases s.balance k <;> simp⟩

theorem trans (h : Effect K δ s t) (h' : Effect K δ' t u) : Effect K (δ + δ') s u where
  header := h'.header.trans h.header
  frame k hk := (h'.frame k hk).trans (h.frame k hk)
  balance k := by
    rw [h'.balance, h.balance, Option.map_map]
    congr 1
    funext x
    simp [add_assoc]

theorem mono (h : Effect K δ s t) (hK : K ⊆ K') : Effect K' δ s t :=
  ⟨h.header, fun k hk => h.frame k fun hmem => hk (hK hmem), h.balance⟩

/-- An effect that adds nothing, behind another one. -/
theorem trans_zero (h : Effect K δ s t) (h' : Effect K 0 t u) : Effect K δ s u := by
  simpa using h.trans h'

/-- The effect is on the entries and the header. -/
theorem same (h : Effect K δ s t) (hsame : SameLedger t u) : Effect K δ s u where
  header := hsame.header.trans h.header
  frame k hk := by
    rw [hsame.entries]
    exact h.frame k hk
  balance k := by
    rw [← h.balance, LedgerState.balance, LedgerState.balance, hsame.entries]

theorem of_same (h : SameLedger s t) : Effect K 0 s t := (refl K s).same h

theorem withActive (h : Effect K δ s t) (ks : List InternalLedgerKey) :
    Effect K δ s (t.withActive ks) := h.same (sameLedger_withActive t ks)

theorem of_withActive {ks : List InternalLedgerKey} (h : Effect K δ (s.withActive ks) t) :
    Effect K δ s t :=
  ⟨h.header, h.frame, h.balance⟩

variable {k : InternalLedgerKey}

/-- Writing an entry whose balance differs by `d`. -/
theorem withEntry (hk : k ∈ K) {e e' : k.Entry} {d : ℤ} (he : s.entries.lookup k = some e)
    (hd : entryBalance k e' = (entryBalance k e).map (· + d)) :
    Effect K (Pi.single k d) s (s.withEntry k e') where
  header := rfl
  frame k' hk' := by
    have hne : k' ≠ k := fun h => hk' (h ▸ hk)
    exact AList.lookup_insert_ne hne
  balance k' := by
    by_cases hkk : k' = k
    · subst hkk
      simp [LedgerState.balance, he, hd, AList.lookup_insert]
    · rw [Pi.single_eq_of_ne hkk, LedgerState.balance, LedgerState.balance,
        LedgerTxn.withEntry_entries, AList.lookup_insert_ne hkk]
      cases (s.entries.lookup k').bind (entryBalance k') <;> simp

/-- Writing an entry with the same balance. -/
theorem withEntry_same (hk : k ∈ K) {e e' : k.Entry} (he : s.entries.lookup k = some e)
    (hd : entryBalance k e' = entryBalance k e) :
    Effect K 0 s (s.withEntry k e') := by
  have h : Effect K (Pi.single k 0) s (s.withEntry k e') := withEntry hk he (by simpa using hd)
  simpa using h

theorem put_same (h : Effect K δ s t) (hk : k ∈ K) {e e' : k.Entry}
    (he : t.entries.lookup k = some e) (hd : entryBalance k e' = entryBalance k e) :
    Effect K δ s (t.withEntry k e') :=
  h.trans_zero (withEntry_same hk he hd)

/-- Erasing an entry without a balance. -/
theorem without (hk : k ∈ K) (hnone : s.balance k = none) :
    Effect K 0 s (s.without k) where
  header := rfl
  frame k' hk' := by
    have hne : k' ≠ k := fun h => hk' (h ▸ hk)
    exact AList.lookup_erase_ne hne
  balance k' := by
    by_cases hkk : k' = k
    · subst hkk
      rw [hnone, LedgerState.balance, LedgerTxn.without_entries, AList.lookup_erase]
      rfl
    · rw [LedgerState.balance, LedgerTxn.without_entries, AList.lookup_erase_ne hkk,
        ← LedgerState.balance]
      cases s.balance k' <;> simp

end Effect

/-! ## Calls that return -/

/-- `Q` holds if the call returns. -/
abbrev Returns {α : Type} (m : LedgerM α) (s : LedgerTxn) (Q : α → LedgerTxn → Prop) : Prop :=
  After m s Q fun _ _ => True

section
variable {α : Type} {s : LedgerTxn}

theorem Returns.imp {m : LedgerM α} {Q Q' : α → LedgerTxn → Prop} (h : Returns m s Q)
    (hQ : ∀ a t, Q a t → Q' a t) : Returns m s Q' :=
  h.mono hQ fun _ _ _ => trivial

variable {Q : Unit → LedgerTxn → Prop}

theorem returns_require {c : Prop} [Decidable c] {e : RuntimeError} (h : c → Q () s) :
    Returns (require c e) s Q :=
  after_require.mpr ⟨h, fun _ => trivial⟩

theorem returns_assert {c : Prop} [Decidable c] (h : c → Q () s) : Returns (assert c) s Q :=
  after_assert.mpr ⟨h, fun _ => trivial⟩

theorem returns_lift {x : Except Thrown α} {Q : α → LedgerTxn → Prop}
    (h : ∀ a, x = .ok a → Q a s) : Returns (lift x) s Q := by
  rw [Returns, after_lift]
  cases x with
  | ok a => exact h a rfl
  | error e => trivial

variable {k : InternalLedgerKey}

/-- What was loaded is the entry under the key; otherwise only the active entries change. -/
theorem returns_load {Q : Option k.Entry → LedgerTxn → Prop}
    (h : ∀ ks, Q (s.entries.lookup k) (s.withActive ks)) : Returns (load k) s Q := by
  refine after_load.mpr ⟨fun _ => trivial, fun _ hk => ?_, fun _ e hk => ?_⟩
  · rw [← hk]
    exact h s.mActive
  · rw [← hk]
    exact h _

theorem returns_current {Q : k.Entry → LedgerTxn → Prop}
    (h : ∀ e, s.entries.lookup k = some e → Q e s) : Returns (current k) s Q :=
  after_current.mpr ⟨fun _ => trivial, fun _ => h⟩

theorem returns_put {e : k.Entry} (h : Q () (s.withEntry k e)) : Returns (put k e) s Q :=
  after_put.mpr ⟨fun _ => trivial, fun _ => h⟩

theorem returns_update {f : k.Entry → k.Entry}
    (h : ∀ e, s.entries.lookup k = some e → Q () (s.withEntry k (f e))) :
    Returns (update k f) s Q :=
  after_update.mpr ⟨fun _ => trivial, fun _ => h⟩

theorem returns_erase (h : Q () (s.without k)) : Returns (erase k) s Q :=
  after_erase.mpr ⟨fun _ => trivial, fun _ _ => h⟩

theorem returns_block {body : LedgerM α} {Q : α → LedgerTxn → Prop}
    (h : Returns body s fun a t => ∀ ks, Q a (t.withActive ks)) : Returns (block body) s Q :=
  after_block.mpr (h.imp fun _ _ hQ => hQ _)

theorem returns_nested {body : LedgerM (Bool × α)} {Q : α → LedgerTxn → Prop}
    (h : Returns body (s.withActive []) fun r t =>
      (r.1 = true → Q r.2 (t.withActive [])) ∧ (r.1 = false → Q r.2 (s.rolledBack t))) :
    Returns (nested body) s Q :=
  after_nested.mpr h

theorem returns_exists? {Q : Bool → LedgerTxn → Prop}
    (h : ∀ ks, Q (s.entries.lookup k).isSome (s.withActive ks)) : Returns (exists? k) s Q :=
  after_exists?.mpr ⟨fun _ => trivial, fun _ => h _⟩

/-- A counter is no part of the ledger until it is written. -/
theorem returns_counter {n : ℤ} {Q : Counter → LedgerTxn → Prop}
    (h : ∀ (c : Counter) t, (c.val : ℤ) = n % 2 ^ 32 → SameLedger s t → Q c t) :
    Returns (counter n) s Q := by
  rw [Returns, after_counter]
  refine h _ _ (Int.toNat_of_nonneg (Int.emod_nonneg _ (by norm_num))) ⟨?_, ?_⟩
  · split_ifs <;> rfl
  · split_ifs <;> rfl

end

end DigitalBits.Ledger
