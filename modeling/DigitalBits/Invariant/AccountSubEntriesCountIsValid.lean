import DigitalBits.Ledger.Types

/-!
# The checker of subentry counts

`AccountSubEntriesCountIsValid` compares, for each account that an operation
touches, the change of its counter with the change of what it owns. Both are
integers of 32 bits, which wrap. What it asks of deleted accounts always holds.
-/
namespace DigitalBits.Invariant

open Ledger

/-- A key, with its entry after the operation and before it. -/
structure EntryDelta where
  key : InternalLedgerKey
  current : Option key.Entry
  previous : Option key.Entry
  changed : current.isSome ∨ previous.isSome

/-- One change at most for each key, in the order in which the map is gone through. -/
structure LedgerTxnDelta where
  entry : List EntryDelta
  nodup : (entry.map EntryDelta.key).Nodup

def int32 (x : ℤ) : ℤ := x.bmod (2 ^ 32)

section
variable (a b : ℤ)

@[simp] theorem int32_int32 : int32 (int32 a) = int32 a := Int.bmod_bmod

@[simp] theorem int32_int32_add : int32 (int32 a + b) = int32 (a + b) := Int.bmod_add_bmod

@[simp] theorem int32_add_int32 : int32 (a + int32 b) = int32 (a + b) := Int.add_bmod_bmod

@[simp] theorem int32_int32_sub : int32 (int32 a - b) = int32 (a - b) := Int.bmod_sub_bmod

@[simp] theorem int32_sub_int32 : int32 (a - int32 b) = int32 (a - b) := Int.sub_bmod_bmod

theorem elim_int32 {α : Type} (o : Option α) (g : α → ℤ) :
    o.elim 0 (fun x => int32 (g x)) = int32 (o.elim 0 g) := by
  cases o <;> rfl

end

structure SubEntriesChange where
  numSubEntries : ℤ := 0
  signers : ℤ := 0
  calculatedSubEntries : ℤ := 0

abbrev SubEntriesChanges := AList fun _ : AccountID => SubEntriesChange

/-- `subEntriesChange[accountID]`. -/
def SubEntriesChanges.at (m : SubEntriesChanges) (accountID : AccountID) : SubEntriesChange :=
  (m.lookup accountID).getD {}

def calculateDelta {α : Type} (current previous : Option α) : ℤ :=
  (if current.isSome then 1 else 0) - (if previous.isSome then 1 else 0)

def countSubEntry {α : Type} (m : SubEntriesChanges) (accountID : AccountID)
    (current previous : Option α) : SubEntriesChanges :=
  let change := m.at accountID
  m.insert accountID { change with
    calculatedSubEntries := int32 (change.calculatedSubEntries + calculateDelta current previous) }

def updateChangedSubEntriesCount (m : SubEntriesChanges) : EntryDelta → SubEntriesChanges
  | ⟨.ledgerEntry (.account accountID), current, previous, _⟩ =>
    let numSubEntries (e : LedgerEntry AccountEntry) := int32 e.data.numSubEntries.val
    let signers (e : LedgerEntry AccountEntry) := int32 e.data.signers.length
    let signersChange := int32 (current.elim 0 signers - previous.elim 0 signers)
    m.insert accountID {
      numSubEntries := int32 (current.elim 0 numSubEntries - previous.elim 0 numSubEntries)
      signers := signersChange
      calculatedSubEntries := int32 ((m.at accountID).calculatedSubEntries + signersChange) }
  | ⟨.ledgerEntry (.trustline accountID _), current, previous, _⟩ =>
    countSubEntry m accountID current previous
  | ⟨.ledgerEntry (.offer sellerID _), current, previous, _⟩ =>
    countSubEntry m sellerID current previous
  | ⟨.ledgerEntry (.data accountID _), current, previous, _⟩ =>
    countSubEntry m accountID current previous
  | ⟨.ledgerEntry (.claimableBalance _), _, _, _⟩ => m
  | ⟨.sponsorship _, _, _, _⟩ => m
  | ⟨.sponsorshipCounter _, _, _, _⟩ => m

section
variable (toStrKey : AccountID → String)

def checkChange (accountID : AccountID) (change : SubEntriesChange) : Option String :=
  if change.numSubEntries ≠ change.calculatedSubEntries then
    some s!"Change in Account {toStrKey accountID} numSubEntries ({change.numSubEntries}) does not match change in number of subentries ({change.calculatedSubEntries})"
  else none

def checkDeleted (m : SubEntriesChanges) : EntryDelta → Option String
  | ⟨.ledgerEntry (.account accountID), none, some previous, _⟩ =>
    let account := previous.data
    let change := m.at accountID
    let numSigners := int32 (account.numSubEntries.val + change.numSubEntries - change.signers)
    if numSigners ≠ int32 account.signers.length then
      let otherSubEntries := int32 (int32 account.numSubEntries.val - int32 account.signers.length)
      some s!"Deleted Account {toStrKey accountID} has {otherSubEntries} subentries other than signers"
    else none
  | _ => none

/-- The message, if the check fails. -/
def checkOnOperationApply (ltxDelta : LedgerTxnDelta) : Option String :=
  let subEntriesChange := ltxDelta.entry.foldl updateChangedSubEntriesCount ∅
  (subEntriesChange.entries.findSome? fun kv => checkChange toStrKey kv.1 kv.2).or
    (ltxDelta.entry.findSome? (checkDeleted toStrKey subEntriesChange))

end

/-! ## What the changes amount to -/

/-- What an account says to own. -/
def counted (id : AccountID) : ∀ k : InternalLedgerKey, k.Entry → ℤ
  | .ledgerEntry (.account id') => fun e => if id' = id then e.data.numSubEntries.val else 0
  | _ => fun _ => 0

def signersOf (id : AccountID) : ∀ k : InternalLedgerKey, k.Entry → ℤ
  | .ledgerEntry (.account id') => fun e => if id' = id then e.data.signers.length else 0
  | _ => fun _ => 0

/-- What it owns: its signers, trust lines, offers and data. -/
def owned (id : AccountID) : ∀ k : InternalLedgerKey, k.Entry → ℤ
  | .ledgerEntry (.account id') => fun e => if id' = id then e.data.signers.length else 0
  | .ledgerEntry (.trustline id' _) => fun _ => if id' = id then 1 else 0
  | .ledgerEntry (.offer id' _) => fun _ => if id' = id then 1 else 0
  | .ledgerEntry (.data id' _) => fun _ => if id' = id then 1 else 0
  | _ => fun _ => 0

/-- What it owns besides its signers. -/
def otherSubEntries (id : AccountID) (k : InternalLedgerKey) (e : k.Entry) : ℤ :=
  owned id k e - signersOf id k e

section
variable (f : ∀ k : InternalLedgerKey, k.Entry → ℤ)

def EntryDelta.change (d : EntryDelta) : ℤ :=
  d.current.elim 0 (f d.key) - d.previous.elim 0 (f d.key)

def change (l : List EntryDelta) : ℤ := (l.map (EntryDelta.change f)).sum

end

variable {id : AccountID} {f : ∀ k : InternalLedgerKey, k.Entry → ℤ} {l : List EntryDelta}
  {d : EntryDelta}

/-- What only the account's own entry contributes to. -/
def OfAccount (id : AccountID) (f : ∀ k : InternalLedgerKey, k.Entry → ℤ) : Prop :=
  ∀ k e, k ≠ .ledgerEntry (.account id) → f k e = 0

theorem ofAccount_counted : OfAccount id (counted id) := by
  intro k e hk
  cases k with
  | ledgerEntry k => cases k <;> simp_all [counted]
  | _ => rfl

theorem ofAccount_signersOf : OfAccount id (signersOf id) := by
  intro k e hk
  cases k with
  | ledgerEntry k => cases k <;> simp_all [signersOf]
  | _ => rfl

theorem EntryDelta.change_eq_zero (h : ∀ e, f d.key e = 0) : d.change f = 0 := by
  have hzero (o : Option d.key.Entry) : o.elim 0 (f d.key) = 0 := by
    cases o <;> simp [h]
  simp [EntryDelta.change, hzero]

theorem OfAccount.change_of_ne (hf : OfAccount id f) (hd : d.key ≠ .ledgerEntry (.account id)) :
    d.change f = 0 :=
  EntryDelta.change_eq_zero fun e => hf _ e hd

theorem change_append_singleton : change f (l ++ [d]) = change f l + d.change f := by
  simp [change]

theorem change_otherSubEntries (id : AccountID) (l : List EntryDelta) :
    change (otherSubEntries id) l = change (owned id) l - change (signersOf id) l := by
  induction l with
  | nil => rfl
  | cons d l ih =>
    obtain ⟨k, current, previous, _⟩ := d
    simp only [change, List.map_cons, List.sum_cons] at ih ⊢
    rw [ih]
    cases current <;> cases previous <;> simp [EntryDelta.change, otherSubEntries] <;> ring

/-- Only one change is of the account's own entry. -/
theorem OfAccount.change_eq (hf : OfAccount id f) (hl : (l.map EntryDelta.key).Nodup) (hd : d ∈ l)
    (hk : d.key = .ledgerEntry (.account id)) : change f l = d.change f := by
  induction hd with
  | head l =>
    have hrest : change f l = 0 := by
      refine List.sum_eq_zero (List.forall_mem_map.mpr fun d' hd' => hf.change_of_ne fun hk' => ?_)
      exact (List.nodup_cons.mp hl).1 (List.mem_map.mpr ⟨d', hd', hk'.trans hk.symm⟩)
    simpa [change] using hrest
  | tail d' hd ih =>
    obtain ⟨hnew, hl⟩ := List.nodup_cons.mp hl
    have hne : d'.key ≠ .ledgerEntry (.account id) := fun hk' =>
      hnew (List.mem_map.mpr ⟨d, hd, hk.trans hk'.symm⟩)
    rw [← ih hl, change, List.map_cons, List.sum_cons, hf.change_of_ne hne, zero_add, change]

/-! ## The changes as the checker collects them -/

variable {m : SubEntriesChanges}

theorem SubEntriesChanges.at_insert {id' : AccountID} {c : SubEntriesChange} :
    SubEntriesChanges.at (m.insert id' c) id = if id = id' then c else m.at id := by
  rw [SubEntriesChanges.at]
  split_ifs with h
  · rw [h, AList.lookup_insert, Option.getD_some]
  · rw [AList.lookup_insert_ne h, SubEntriesChanges.at]

/-- A change of the account's own entry sets both differences. -/
theorem at_update_account (hk : d.key = .ledgerEntry (.account id)) :
    (updateChangedSubEntriesCount m d).at id =
      ⟨int32 (d.change (counted id)), int32 (d.change (signersOf id)),
        int32 ((m.at id).calculatedSubEntries + d.change (owned id))⟩ := by
  obtain ⟨k, current, previous, _⟩ := d
  cases hk
  simp [updateChangedSubEntriesCount, SubEntriesChanges.at_insert, EntryDelta.change, counted, owned,
    signersOf, elim_int32]

section
variable (hm : int32 (m.at id).calculatedSubEntries = (m.at id).calculatedSubEntries)
include hm

theorem countSubEntry_at {α : Type} {current previous : Option α} (id' : AccountID) :
    let part (o : Option α) : ℤ := o.elim 0 fun _ => if id' = id then 1 else 0
    (countSubEntry m id' current previous).at id = { m.at id with
      calculatedSubEntries :=
        int32 ((m.at id).calculatedSubEntries + (part current - part previous)) } := by
  by_cases h : id' = id
  · subst h
    cases current <;> cases previous <;>
      simp [countSubEntry, SubEntriesChanges.at_insert, calculateDelta]
  · cases current <;> cases previous <;>
      simp [countSubEntry, SubEntriesChanges.at_insert, h, Ne.symm h, hm]

/-- Any other change is added up. -/
theorem at_update_of_ne (hk : d.key ≠ .ledgerEntry (.account id)) :
    (updateChangedSubEntriesCount m d).at id = { m.at id with
      calculatedSubEntries := int32 ((m.at id).calculatedSubEntries + d.change (owned id)) } := by
  fun_cases updateChangedSubEntriesCount m d with
  | case1 id' current previous changed numSubEntries signers signersChange =>
    have hne : id' ≠ id := fun h => hk (by rw [h])
    rw [EntryDelta.change_eq_zero (by simp [owned, hne]), add_zero, hm, SubEntriesChanges.at_insert,
      if_neg hne.symm]
  | case2 id' | case3 id' | case4 id' => exact countSubEntry_at hm id'
  | case5 | case6 | case7 =>
    rw [EntryDelta.change_eq_zero (by simp [owned]), add_zero, hm]

end

theorem foldl_update_at (hl : (l.map EntryDelta.key).Nodup) :
    (l.foldl updateChangedSubEntriesCount ∅).at id =
      ⟨int32 (change (counted id) l), int32 (change (signersOf id) l),
        int32 (change (owned id) l)⟩ := by
  induction l using List.reverseRecOn with
  | nil => rfl
  | append_singleton l d ih =>
    have hl' : (l.map EntryDelta.key).Nodup := by
      rw [List.map_append] at hl
      exact hl.of_append_left
    have hat := ih hl'
    rw [List.foldl_append, List.foldl_cons, List.foldl_nil]
    by_cases hk : d.key = .ledgerEntry (.account id)
    · rw [at_update_account hk, hat, int32_int32_add, ofAccount_counted.change_eq hl (by simp) hk,
        ofAccount_signersOf.change_eq hl (by simp) hk, change_append_singleton]
    · rw [at_update_of_ne (by simp [hat]) hk, hat]
      simp [change_append_singleton, ofAccount_counted.change_of_ne hk,
        ofAccount_signersOf.change_of_ne hk]

variable {toStrKey : AccountID → String} {delta : LedgerTxnDelta}

/-- The changes of a deleted account always fit. -/
theorem checkDeleted_eq_none (hd : d ∈ delta.entry) :
    checkDeleted toStrKey (delta.entry.foldl updateChangedSubEntriesCount ∅) d = none := by
  fun_cases checkDeleted with
  | case1 id previous changed account change numSigners hne otherSubEntries =>
    have hat := @foldl_update_at id delta.entry delta.nodup
    rw [ofAccount_counted.change_eq delta.nodup hd rfl,
      ofAccount_signersOf.change_eq delta.nodup hd rfl] at hat
    -- both differences cancel, and the signers are left
    have hsum (a b : ℤ) : int32 (a + int32 (0 - a) - int32 (0 - b)) = int32 b := by
      rw [int32_sub_int32, add_sub_right_comm, int32_add_int32]
      ring_nf
    refine absurd ?_ hne
    simp only [numSigners, change, hat]
    simpa [EntryDelta.change, counted, signersOf] using hsum _ _
  | case2 => rfl
  | case3 => rfl

theorem findSome_checkChange (m : SubEntriesChanges) :
    (m.entries.findSome? fun kv => checkChange toStrKey kv.1 kv.2).isSome ↔
      ∃ id, (m.at id).numSubEntries ≠ (m.at id).calculatedSubEntries := by
  constructor
  · intro h
    obtain ⟨⟨id, change⟩, hmem, hsome⟩ := List.findSome?_isSome_iff.mp h
    refine ⟨id, fun heq => ?_⟩
    rw [SubEntriesChanges.at, AList.mem_lookup_iff.mpr hmem] at heq
    simp_all [checkChange]
  · rintro ⟨id, hne⟩
    cases hlookup : m.lookup id with
    | none => simp [SubEntriesChanges.at, hlookup] at hne
    | some change =>
      refine List.findSome?_isSome_iff.mpr ⟨⟨id, change⟩, AList.mem_lookup_iff.mp hlookup, ?_⟩
      simpa [checkChange, SubEntriesChanges.at, hlookup] using hne

/-- The check fails exactly if some account's counter and what it owns change by
different numbers, as integers of 32 bits. -/
theorem checkOnOperationApply_isSome_iff (toStrKey : AccountID → String) (delta : LedgerTxnDelta) :
    (checkOnOperationApply toStrKey delta).isSome ↔
      ∃ id, int32 (change (counted id) delta.entry) ≠ int32 (change (owned id) delta.entry) := by
  have hdeleted : delta.entry.findSome?
      (checkDeleted toStrKey (delta.entry.foldl updateChangedSubEntriesCount ∅)) = none :=
    List.findSome?_eq_none_iff.mpr fun d => checkDeleted_eq_none
  rw [checkOnOperationApply, hdeleted, Option.or_none, findSome_checkChange]
  simp only [foldl_update_at delta.nodup]

/-- When an account is deleted, the check fails exactly if its other subentries are not deleted with
it, as many as it counted, or if another account's counter and what it owns change by different
numbers. -/
theorem checkOnOperationApply_deleted_iff (toStrKey : AccountID → String) (delta : LedgerTxnDelta)
    (id : AccountID) (account : LedgerEntry AccountEntry)
    (hdeleted : ⟨.ledgerEntry (.account id), none, some account, .inr rfl⟩ ∈ delta.entry) :
    (checkOnOperationApply toStrKey delta).isSome ↔
      int32 (account.data.numSubEntries.val - account.data.signers.length) ≠
        int32 (-change (otherSubEntries id) delta.entry) ∨
      ∃ other ≠ id, int32 (change (counted other) delta.entry) ≠
        int32 (change (owned other) delta.entry) := by
  have hcounted := ofAccount_counted.change_eq delta.nodup hdeleted rfl
  have hsigners := ofAccount_signersOf.change_eq delta.nodup hdeleted rfl
  have hother := change_otherSubEntries id delta.entry
  simp only [EntryDelta.change, counted, signersOf, Option.elim_none, Option.elim_some, if_true,
    zero_sub] at hcounted hsigners
  -- both sides of the account's own comparison differ by its signers
  have hleft : change (counted id) delta.entry = -account.data.signers.length -
      (account.data.numSubEntries.val - account.data.signers.length) := by omega
  have hright : change (owned id) delta.entry = -account.data.signers.length -
      -change (otherSubEntries id) delta.entry := by omega
  have hself : int32 (change (counted id) delta.entry) = int32 (change (owned id) delta.entry) ↔
      int32 (account.data.numSubEntries.val - account.data.signers.length) =
        int32 (-change (otherSubEntries id) delta.entry) := by
    rw [hleft, hright]
    exact Int.bmod_sub_cancel_left _
  rw [checkOnOperationApply_isSome_iff, ne_eq, ← hself]
  constructor
  · rintro ⟨other, hne⟩
    by_cases heq : other = id
    · exact .inl (heq ▸ hne)
    · exact .inr ⟨other, heq, hne⟩
  · rintro (hne | ⟨other, -, hne⟩)
    · exact ⟨id, hne⟩
    · exact ⟨other, hne⟩

/-- An account with one subentry that is not a signer is deleted. -/
def deletedAccount : EntryDelta :=
  ⟨.ledgerEntry (.account 1), none, some ⟨{ balance := 0, seqNum := 0, numSubEntries := 1 }, .v0⟩,
    .inr rfl⟩

/-- The subentry is left over, and an error is returned. -/
theorem checkOnOperationApply_leftOver :
    (checkOnOperationApply (fun _ => "") ⟨[deletedAccount], by decide⟩).isSome :=
  (checkOnOperationApply_deleted_iff _ _ 1 _ List.mem_cons_self).mpr (.inl (by decide))

/-- The account and its only subentry, a trust line, are deleted together. -/
def deletedOwner : LedgerTxnDelta where
  entry := [deletedAccount,
    ⟨.ledgerEntry (.trustline 1 (.alphaNum4 [] 2)), none,
      some ⟨{ balance := 0, limit := 1, flags := 1 }, .v0⟩, .inr rfl⟩]
  nodup := by decide

/-- The account has a subentry that is not a signer, and no error is returned. -/
theorem checkOnOperationApply_deletedOwner :
    (∃ account : LedgerEntry AccountEntry,
      ⟨.ledgerEntry (.account 1), none, some account, .inr rfl⟩ ∈ deletedOwner.entry ∧
      account.data.numSubEntries.val ≠ account.data.signers.length) ∧
    checkOnOperationApply (fun _ => "") deletedOwner = none :=
  ⟨⟨_, List.mem_cons_self, by decide⟩, by decide⟩

end DigitalBits.Invariant
