import Mathlib

/-!
# Totals over a store

A store is a finite map whose values have a type that depends on the key. A
total adds up a quantity over all its entries, and changes with a write only by
what the entry at the written key contributes.
-/
namespace DigitalBits.Lib

namespace Store

variable {K : Type} [DecidableEq K] {V : K → Type}

/-- What the entry at a key contributes; nothing if there is none. -/
def part (f : ∀ k, V k → ℤ) (k : K) (m : AList V) : ℤ :=
  match m.lookup k with
  | none => 0
  | some v => f k v

/-- The sum of a quantity over all entries. -/
def total (f : ∀ k, V k → ℤ) (m : AList V) : ℤ :=
  (m.entries.map fun e => f e.1 e.2).sum

variable {f g : ∀ k, V k → ℤ} {k j : K} {v w : V k} {m : AList V}

theorem part_of_lookup (h : m.lookup k = some v) : part f k m = f k v := by
  rw [part, h]

theorem part_of_missing (h : m.lookup k = none) : part f k m = 0 := by
  rw [part, h]

@[simp] theorem part_insert : part f k (m.insert k v) = f k v :=
  part_of_lookup (AList.lookup_insert m)

theorem part_insert_ne (h : j ≠ k) : part f j (m.insert k v) = part f j m := by
  rw [part, AList.lookup_insert_ne h, part]

@[simp] theorem part_erase : part f k (m.erase k) = 0 :=
  part_of_missing (AList.lookup_erase k m)

theorem part_erase_ne (h : j ≠ k) : part f j (m.erase k) = part f j m := by
  rw [part, AList.lookup_erase_ne h, part]

/-- What holds of the entry that is written and of the others. -/
theorem forall_lookup_insert {P : ∀ k, V k → Prop} (hk : P k v)
    (h : ∀ j ≠ k, ∀ w, m.lookup j = some w → P j w) (j : K) (w : V j)
    (hj : (m.insert k v).lookup j = some w) : P j w := by
  by_cases hjk : j = k
  · subst hjk
    rw [AList.lookup_insert, Option.some.injEq] at hj
    exact hj ▸ hk
  · rw [AList.lookup_insert_ne hjk] at hj
    exact h j hjk w hj

theorem lookup_of_erase {w : V j} (h : (m.erase k).lookup j = some w) :
    j ≠ k ∧ m.lookup j = some w := by
  by_cases hjk : j = k
  · subst hjk
    rw [AList.lookup_erase] at h
    cases h
  · exact ⟨hjk, by rwa [AList.lookup_erase_ne hjk] at h⟩

/-- The entries without one key, and that entry. -/
theorem sum_kerase {l : List (Sigma V)} (hl : l.NodupKeys) :
    ((l.kerase k).map fun e => f e.1 e.2).sum =
      (l.map fun e => f e.1 e.2).sum - (l.dlookup k).elim 0 (f k) := by
  induction l with
  | nil => simp
  | cons e l ih =>
    obtain ⟨a, b⟩ := e
    obtain ⟨hnot, hl'⟩ := List.nodupKeys_cons.mp hl
    by_cases h : k = a
    · subst h
      rw [List.kerase_cons_eq (s := ⟨k, b⟩) rfl, List.dlookup_cons_eq]
      simp
    · rw [List.kerase_cons_ne h, List.dlookup_cons_ne l ⟨a, b⟩ h, List.map_cons, List.map_cons,
        List.sum_cons, List.sum_cons, ih hl']
      ring

theorem part_eq_elim : part f k m = (m.lookup k).elim 0 (f k) := by
  rw [part]
  cases m.lookup k <;> rfl

theorem total_erase : total f (m.erase k) = total f m - part f k m := by
  rw [part_eq_elim]
  exact sum_kerase m.nodupKeys

theorem total_insert : total f (m.insert k v) = total f m - part f k m + f k v := by
  have herase : total f (m.insert k v) = f k v + total f (m.erase k) := by
    simp [total, AList.entries_insert, AList.erase]
  rw [herase, total_erase]
  ring

/-- Rewriting an entry. -/
theorem total_insert_of_lookup (h : m.lookup k = some w) :
    total f (m.insert k v) = total f m - f k w + f k v := by
  rw [total_insert, part_of_lookup h]

theorem total_nonneg (hf : ∀ k v, m.lookup k = some v → 0 ≤ f k v) : 0 ≤ total f m := by
  refine List.sum_nonneg fun x hx => ?_
  obtain ⟨⟨a, b⟩, he, rfl⟩ := List.mem_map.mp hx
  exact hf a b (AList.mem_lookup_iff.mpr he)

/-- Each entry is part of the total. -/
theorem part_le_total (hf : ∀ k v, m.lookup k = some v → 0 ≤ f k v) : part f k m ≤ total f m := by
  have hrest : 0 ≤ total f (m.erase k) := by
    exact total_nonneg fun j v hj => hf j v (lookup_of_erase hj).2
  rw [total_erase] at hrest
  omega

theorem le_total_of_lookup (hf : ∀ k v, m.lookup k = some v → 0 ≤ f k v)
    (h : m.lookup k = some v) : f k v ≤ total f m :=
  part_of_lookup (f := f) h ▸ part_le_total hf

/-- A total only depends on what each key contributes. -/
theorem total_congr {m m' : AList V} (h : ∀ k, part f k m = part f k m') : total f m = total f m' := by
  induction m using AList.insertRec generalizing m' with
  | H0 =>
    have hzero : ∀ e ∈ m'.entries, f e.1 e.2 = 0 := by
      rintro ⟨k, v⟩ he
      rw [← part_of_lookup (f := f) (AList.mem_lookup_iff.mpr he), ← h k]
      exact part_of_missing (AList.lookup_empty k)
    exact (List.sum_eq_zero (List.forall_mem_map.mpr hzero)).symm
  | IH k v m hk ih =>
    have hrest : total f m = total f (m'.erase k) := by
      refine ih fun j => ?_
      by_cases hj : j = k
      · subst hj
        rw [part_erase, part_of_missing (AList.lookup_eq_none.mpr hk)]
      · rw [part_erase_ne hj, ← h j, part_insert_ne hj]
    rw [total_insert, part_of_missing (AList.lookup_eq_none.mpr hk), hrest, total_erase, ← h k, part_insert]
    ring

end Store
end DigitalBits.Lib
