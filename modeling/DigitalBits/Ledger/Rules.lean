import DigitalBits.Ledger.AbstractLedgerTxn

/-!
# Rules for the functions of a ledger transaction

What must hold before a call so that a postcondition holds after it, one rule
for each function. A proof about an operation cites these rules and never
unfolds the functions.
-/
namespace DigitalBits.Ledger

open Lib

/-- The transaction with other active entries. -/
def LedgerTxn.withActive (s : LedgerTxn) (mActive : List InternalLedgerKey) : LedgerTxn :=
  { s with mActive := mActive }

/-- The transaction in which a block began, after the block was rolled back. -/
def LedgerTxn.rolledBack (s t : LedgerTxn) : LedgerTxn :=
  { s with mActive := [], counterWrapped := t.counterWrapped }

/-- The transaction with another entry under a key. -/
def LedgerTxn.withEntry (s : LedgerTxn) (k : InternalLedgerKey) (e : k.Entry) : LedgerTxn :=
  { s with entries := s.entries.insert k e }

/-- The transaction without the entry under a key. -/
def LedgerTxn.without (s : LedgerTxn) (k : InternalLedgerKey) : LedgerTxn :=
  { s with entries := s.entries.erase k, mActive := s.mActive.erase k }

def LedgerTxn.withHeader (s : LedgerTxn) (header : LedgerHeader) : LedgerTxn :=
  { s with header := header }

namespace LedgerTxn

variable (s t : LedgerTxn) (k : InternalLedgerKey) (e : k.Entry) (ks : List InternalLedgerKey)
  (header : LedgerHeader)

@[simp] theorem withActive_header : (s.withActive ks).header = s.header := rfl
@[simp] theorem withActive_mActive : (s.withActive ks).mActive = ks := rfl
@[simp] theorem withEntry_entries : (s.withEntry k e).entries = s.entries.insert k e := rfl
@[simp] theorem without_entries : (s.without k).entries = s.entries.erase k := rfl
@[simp] theorem withHeader_entries : (s.withHeader header).entries = s.entries := rfl
@[simp] theorem withHeader_header : (s.withHeader header).header = header := rfl
@[simp] theorem withHeader_mActive : (s.withHeader header).mActive = s.mActive := rfl

end LedgerTxn

section Rules

variable {α : Type} {s : LedgerTxn} {E : Thrown → LedgerTxn → Prop}

variable {Q : Unit → LedgerTxn → Prop}

@[simp] theorem after_require {c : Prop} [Decidable c] {e : RuntimeError} :
    After (require c e) s Q E ↔ (c → Q () s) ∧ (¬ c → E (.exception e) s) := by
  unfold require
  simp

@[simp] theorem after_assert {c : Prop} [Decidable c] :
    After (assert c) s Q E ↔ (c → Q () s) ∧ (¬ c → E .assertion s) := by
  unfold assert
  simp

@[simp] theorem after_lift {x : Except Thrown α} {Q : α → LedgerTxn → Prop} :
    After (lift x) s Q E ↔ Yields x (fun a => Q a s) (fun e => E e s) := by
  cases x <;> rfl

@[simp] theorem after_loadHeader {Q : LedgerHeader → LedgerTxn → Prop} :
    After loadHeader s Q E ↔ Q s.header s := Iff.rfl

@[simp] theorem after_setHeader {header : LedgerHeader} :
    After (setHeader header) s Q E ↔ Q () (s.withHeader header) := Iff.rfl

variable {k : InternalLedgerKey}

theorem counter_lt (n : ℤ) : (n % 2 ^ 32).toNat < 2 ^ 32 := by omega

theorem after_counter {n : ℤ} {Q : Counter → LedgerTxn → Prop} :
    After (counter n) s Q E ↔
      Q ⟨(n % 2 ^ 32).toNat, counter_lt n⟩
        (if n < 0 ∨ (uint32Max : ℤ) < n then { s with counterWrapped := true } else s) := by
  unfold counter
  by_cases h : n < 0 ∨ (uint32Max : ℤ) < n
  · simp only [if_pos h, after_bind, after_modify, after_pure]
  · simp only [if_neg h, after_pure]

theorem after_load {Q : Option k.Entry → LedgerTxn → Prop} :
    After (load k) s Q E ↔
      (k ∈ s.mActive → E (.exception .keyIsActive) s) ∧
      (k ∉ s.mActive → s.entries.lookup k = none → Q none s) ∧
      (k ∉ s.mActive → ∀ e, s.entries.lookup k = some e →
        Q (some e) (s.withActive (k :: s.mActive))) := by
  unfold load
  by_cases hactive : k ∈ s.mActive
  · simp [hactive]
  · cases hk : s.entries.lookup k with
    | none => simp [hactive, hk]
    | some e => simp [hactive, hk, LedgerTxn.withActive]

theorem after_current {Q : k.Entry → LedgerTxn → Prop} :
    After (current k) s Q E ↔
      (k ∉ s.mActive ∨ s.entries.lookup k = none → E (.exception .entryNotActive) s) ∧
      (k ∈ s.mActive → ∀ e, s.entries.lookup k = some e → Q e s) := by
  unfold current
  by_cases hactive : k ∈ s.mActive
  · cases hk : s.entries.lookup k with
    | none | some e => simp [hactive, hk]
  · simp [hactive]

/-- An entry that is active is read. -/
theorem after_current_of {e : k.Entry} {Q : k.Entry → LedgerTxn → Prop} (hactive : k ∈ s.mActive)
    (he : s.entries.lookup k = some e) :
    After (current k) s Q E ↔ Q e s := by
  simp [after_current, hactive, he]

theorem after_put {e : k.Entry} :
    After (put k e) s Q E ↔
      (k ∉ s.mActive → E (.exception .entryNotActive) s) ∧
      (k ∈ s.mActive → Q () (s.withEntry k e)) := by
  unfold put
  by_cases hactive : k ∈ s.mActive
  · simp [hactive, LedgerTxn.withEntry]
  · simp [hactive]

theorem after_update {f : k.Entry → k.Entry} :
    After (update k f) s Q E ↔
      (k ∉ s.mActive ∨ s.entries.lookup k = none → E (.exception .entryNotActive) s) ∧
      (k ∈ s.mActive → ∀ e, s.entries.lookup k = some e → Q () (s.withEntry k (f e))) := by
  unfold update
  rw [after_bind, after_current]
  simp only [after_put]
  refine and_congr_right fun _ => forall_congr' fun hactive => ?_
  simp [hactive]

theorem after_erase :
    After (erase k) s Q E ↔
      (s.entries.lookup k = none → E (.exception .keyDoesNotExist) s) ∧
      (∀ e, s.entries.lookup k = some e → Q () (s.without k)) := by
  unfold erase
  cases hk : s.entries.lookup k <;> simp [hk, LedgerTxn.without]

theorem after_block {body : LedgerM α} {Q : α → LedgerTxn → Prop} :
    After (block body) s Q E ↔
      After body s (fun a t => Q a (t.withActive (t.mActive.filter (· ∈ s.mActive)))) E := by
  unfold block
  simp only [after_bind, after_get, after_modify, after_pure]
  rfl

/-- A block with its own transaction changes nothing unless it commits. -/
theorem after_nested {body : LedgerM (Bool × α)} {Q : α → LedgerTxn → Prop} :
    After (nested body) s Q E ↔
      After body (s.withActive [])
        (fun r t => (r.1 = true → Q r.2 (t.withActive [])) ∧ (r.1 = false → Q r.2 (s.rolledBack t)))
        (fun e t => E e (s.rolledBack t)) := by
  unfold After nested
  simp only [LedgerTxn.withActive]
  rcases body { s with mActive := [] } with ⟨⟨_ | _, a⟩, t⟩ | ⟨e, t⟩ <;> simp [LedgerTxn.rolledBack]

theorem after_exists? {Q : Bool → LedgerTxn → Prop} :
    After (exists? k) s Q E ↔
      (k ∈ s.mActive → E (.exception .keyIsActive) s) ∧
      (k ∉ s.mActive → Q (s.entries.lookup k).isSome (s.withActive (s.mActive.filter (· ∈ s.mActive)))) := by
  unfold exists?
  rw [after_block, after_bind, after_load]
  by_cases hactive : k ∈ s.mActive
  · simp [hactive]
  · cases hk : s.entries.lookup k with
    | none => simp [hactive]
    | some e => simp [hactive, LedgerTxn.withActive]

end Rules

end DigitalBits.Ledger
