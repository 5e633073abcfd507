import Mathlib

/-!
# Ordered sets

The container of a program that iterates over a set in the order of its
elements, upwards or downwards. The elements are a strictly increasing list, so
two sets with the same members are the same value.
-/
namespace DigitalBits.Lib

variable {α : Type} [LinearOrder α]

/-- A finite set kept as its strictly increasing list of elements. -/
structure OrderedSet (α : Type) [LinearOrder α] where
  toList : List α
  sorted : toList.Pairwise (· < ·)

namespace OrderedSet

instance : Membership α (OrderedSet α) := ⟨fun s a => a ∈ s.toList⟩

variable {a : α} {s : OrderedSet α}

theorem mem_def : a ∈ s ↔ a ∈ s.toList := Iff.rfl

instance (a : α) (s : OrderedSet α) : Decidable (a ∈ s) :=
  inferInstanceAs (Decidable (a ∈ s.toList))

instance : DecidableEq (OrderedSet α) := fun s t =>
  decidable_of_iff (s.toList = t.toList) <| by
    cases s; cases t; simp

def empty : OrderedSet α := ⟨[], List.Pairwise.nil⟩

instance : EmptyCollection (OrderedSet α) := ⟨empty⟩

@[simp] theorem notMem_empty (a : α) : a ∉ (∅ : OrderedSet α) := List.not_mem_nil

/-- Walks up to the place of `a`; an element already present is kept. -/
def insertList (a : α) : List α → List α
  | [] => [a]
  | x :: xs => if a < x then a :: x :: xs else if x < a then x :: insertList a xs else x :: xs

theorem mem_insertList (a b : α) (xs : List α) : b ∈ insertList a xs ↔ b = a ∨ b ∈ xs := by
  induction xs with
  | nil => simp [insertList]
  | cons x xs ih =>
    simp only [insertList]
    split_ifs with h1 h2
    · simp
    · simp only [List.mem_cons, ih]
      tauto
    · have hx : x = a := le_antisymm (not_lt.mp h1) (not_lt.mp h2)
      simp only [List.mem_cons, hx]
      tauto

theorem sorted_insertList (a : α) {xs : List α} (h : xs.Pairwise (· < ·)) :
    (insertList a xs).Pairwise (· < ·) := by
  induction xs with
  | nil => simp [insertList]
  | cons x xs ih =>
    obtain ⟨hx, hxs⟩ := List.pairwise_cons.mp h
    simp only [insertList]
    split_ifs with h1 h2
    · refine List.pairwise_cons.mpr ⟨?_, h⟩
      intro y hy
      rcases List.mem_cons.mp hy with rfl | hy
      · exact h1
      · exact h1.trans (hx y hy)
    · refine List.pairwise_cons.mpr ⟨?_, ih hxs⟩
      intro y hy
      rcases (mem_insertList a y xs).mp hy with rfl | hy
      · exact h2
      · exact hx y hy
    · exact h

/-- The set with `a` added. -/
def insert (a : α) (s : OrderedSet α) : OrderedSet α :=
  ⟨insertList a s.toList, sorted_insertList a s.sorted⟩

@[simp] theorem mem_insert {b : α} : b ∈ s.insert a ↔ b = a ∨ b ∈ s :=
  mem_insertList a b s.toList

/-- The set with every element of a list added. -/
def insertAll (s : OrderedSet α) (xs : List α) : OrderedSet α :=
  xs.foldl (fun t a => t.insert a) s

@[simp] theorem mem_insertAll {b : α} {xs : List α} :
    b ∈ s.insertAll xs ↔ b ∈ xs ∨ b ∈ s := by
  induction xs generalizing s with
  | nil => simp [insertAll]
  | cons x xs ih =>
    change b ∈ (s.insert x).insertAll xs ↔ _
    rw [ih, mem_insert, List.mem_cons]
    tauto

/-- The elements from the largest to the smallest. -/
def descending (s : OrderedSet α) : List α := s.toList.reverse

@[simp] theorem mem_descending : a ∈ s.descending ↔ a ∈ s := by
  simp [descending, mem_def]

theorem descending_sorted (s : OrderedSet α) : s.descending.Pairwise (· > ·) := by
  simpa [descending, List.pairwise_reverse] using s.sorted

def isEmpty (s : OrderedSet α) : Bool := s.toList.isEmpty

theorem isEmpty_iff : s.isEmpty = true ↔ ∀ a, a ∉ s := by
  simp [isEmpty, mem_def, List.eq_nil_iff_forall_not_mem]

@[ext] theorem ext {t : OrderedSet α} (h : ∀ a, a ∈ s ↔ a ∈ t) : s = t := by
  cases s with
  | mk xs hxs =>
  cases t with
  | mk ys hys =>
  have hp : xs.Perm ys :=
    (List.perm_ext_iff_of_nodup (hxs.imp fun hab => hab.ne)
      (hys.imp fun hab => hab.ne)).mpr h
  congr 1
  exact hp.eq_of_pairwise (fun a b _ _ hab hba => absurd hba (lt_asymm hab)) hxs hys

theorem empty_insertAll_toList (s : OrderedSet α) : (∅ : OrderedSet α).insertAll s.toList = s := by
  ext a
  simp only [mem_insertAll, notMem_empty, or_false]
  rfl

end OrderedSet
/-! ## Sorting by a key -/

section
variable {α β : Type} [LinearOrder β] {f : α → β} {r : α → α → Prop} [DecidableRel r]

theorem pairwise_insertionSort_key (hr : ∀ a b, r a b ↔ f a ≤ f b) (l : List α) :
    (l.insertionSort r).Pairwise r := by
  have : Std.Total r := ⟨fun a b => by
    rw [hr, hr]
    exact le_total _ _⟩
  have : IsTrans α r := ⟨fun a b c => by
    rw [hr, hr, hr]
    exact le_trans⟩
  exact List.pairwise_insertionSort r l

omit [DecidableRel r] in
/-- Where the keys differ there is one sorted order, whatever the algorithm. -/
theorem eq_of_sorted (hr : ∀ a b, r a b ↔ f a ≤ f b) {l l' : List α} (hperm : l.Perm l')
    (hkeys : (l.map f).Nodup) (h : l.Pairwise r) (h' : l'.Pairwise r) : l = l' := by
  refine hperm.eq_of_pairwise (fun a b ha hb hab hba => ?_) h h'
  exact List.inj_on_of_nodup_map hkeys ha (hperm.symm.subset hb)
    (le_antisymm ((hr a b).mp hab) ((hr b a).mp hba))

end

end DigitalBits.Lib
