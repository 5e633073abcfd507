import Mathlib

/-!
# Taking the smallest first

A list kept in order of size by inserting each element behind the ones that are not larger. Its
first elements cost no more than any others, and at least one each where every size is positive.
-/
namespace DigitalBits.Lib
open List

variable {α : Type*} (size : α → ℕ)

/-- Insert behind the elements that are not larger. -/
def emplace (a : α) : List α → List α
  | [] => [a]
  | b :: l => if size a < size b then a :: b :: l else b :: emplace a l

theorem emplace_perm (a : α) (l : List α) : (emplace size a l).Perm (a :: l) := by
  induction l with
  | nil => rfl
  | cons b l ih =>
    rw [emplace]
    split_ifs
    · rfl
    · exact (ih.cons b).trans (.swap a b l)

/-- No element is larger than a later one. -/
def BySize (l : List α) : Prop := l.Pairwise fun a b => size a ≤ size b

variable {size}

theorem BySize.emplace {l : List α} (h : BySize size l) (a : α) :
    BySize size (emplace size a l) := by
  induction l with
  | nil => exact pairwise_singleton _ a
  | cons b l ih =>
    obtain ⟨hb, hl⟩ := pairwise_cons.mp h
    rw [Lib.emplace]
    split_ifs with hlt
    · refine pairwise_cons.mpr ⟨fun c hc => ?_, h⟩
      rcases mem_cons.mp hc with rfl | hc
      · exact hlt.le
      · exact hlt.le.trans (hb c hc)
    · refine pairwise_cons.mpr ⟨fun c hc => ?_, ih hl⟩
      rcases mem_cons.mp ((emplace_perm size a l).mem_iff.mp hc) with rfl | hc
      · exact not_lt.mp hlt
      · exact hb c hc

/-- The first elements of an ordered list cost no more than any others. -/
theorem BySize.sum_take_le_of_sublist {l m : List α} (h : BySize size l) (hm : m.Sublist l) :
    ((l.take m.length).map size).sum ≤ (m.map size).sum := by
  induction l generalizing m with
  | nil =>
    rw [sublist_nil.mp hm]
    exact le_rfl
  | cons a l ih =>
    obtain ⟨ha, hl⟩ := pairwise_cons.mp h
    cases m with
    | nil => exact le_rfl
    | cons b m =>
      -- the first one chosen is not smaller, the others come from the rest in either case
      have hfirst : size a ≤ size b := by
        rcases mem_cons.mp (hm.subset mem_cons_self) with rfl | hb
        · exact le_rfl
        · exact ha b hb
      have hrest := ih hl (cons_sublist_cons'.mp hm |>.elim
        (fun hm => (sublist_cons_self b m).trans hm) And.right)
      simp only [length_cons, take_succ_cons, map_cons, sum_cons]
      omega

theorem BySize.sum_take_le {l m : List α} (h : BySize size l) (hm : m.Subperm l) :
    ((l.take m.length).map size).sum ≤ (m.map size).sum := by
  obtain ⟨m', hperm, hsub⟩ := hm
  have hle := h.sum_take_le_of_sublist hsub
  rwa [hperm.length_eq, (hperm.map size).sum_eq] at hle

/-- Each further element costs at least one. -/
theorem sum_take_add_le {l : List α} (hpos : ∀ a ∈ l, 1 ≤ size a) {k n : ℕ}
    (hle : k + n ≤ l.length) :
    ((l.take k).map size).sum + n ≤ ((l.take (k + n)).map size).sum := by
  induction n with
  | zero => exact le_rfl
  | succ n ih =>
    have hget : k + n < l.length := by omega
    have hone := hpos _ (getElem_mem hget)
    have hrest := ih (by omega)
    rw [← Nat.add_assoc k n 1, ← take_append_getElem hget, map_append, sum_append,
      map_singleton, sum_singleton]
    omega

end DigitalBits.Lib
