import DigitalBits.Scp.QuorumSetUtils

/-!
# The normal form of a quorum set

Simplifying and reordering a quorum set keeps its nodes, everything the sanity checker
asks for and the answers of the slice and blocking tests. The order that sorts the inner
sets is total, so quorum sets that differ only in the order of their entries have one
normal form, and the normal form is its own.
-/
namespace DigitalBits.Scp
open Lib LocalNode List

/-! ## Sets that pass the sanity check -/

/-- Every threshold is a majority of the entries and at most their number, and fewer than `d`
sets are nested. -/
inductive SCPQuorumSet.Sound : ℕ → SCPQuorumSet → Prop
  | mk {d : ℕ} {t : Uint32} {v : List NodeID} {i : List SCPQuorumSet}
      (hmajority : v.length + i.length < t.val + t.val) (hle : t.val ≤ v.length + i.length)
      (hi : ∀ q ∈ i, Sound d q) : Sound (d + 1) (.mk t v i)

variable {d : ℕ} {q : SCPQuorumSet}

theorem SCPQuorumSet.Sound.mono (h : q.Sound d) :
    ∀ {e : ℕ}, d ≤ e → q.Sound e := by
  induction h with
  | mk hmajority hle _ ih =>
    intro e he
    obtain ⟨e, rfl⟩ : ∃ e', e = e' + 1 := ⟨e - 1, by omega⟩
    exact .mk hmajority hle fun q hq => ih q hq (by omega)

namespace QuorumSetSanityChecker

theorem insertNodes_of_new {v : List NodeID} (hnodup : v.Nodup) :
    ∀ checker : QuorumSetSanityChecker, (∀ n ∈ v, n ∉ checker.mKnownNodes) →
      ∃ out, checker.insertNodes v = .ok out := by
  induction v with
  | nil => exact fun _ _ => ⟨_, rfl⟩
  | cons n v ih =>
    intro checker hnew
    rw [nodup_cons] at hnodup
    rw [insertNodes, if_neg (hnew n mem_cons_self)]
    refine ih hnodup.2 _ fun m hm hknown => ?_
    rcases OrderedSet.mem_insert.mp hknown with rfl | hknown
    · exact hnodup.1 hm
    · exact hnew m (mem_cons_of_mem _ hm) hknown

/-- Nodes that are different from those just registered are still new. -/
theorem Registered.not_known {checker mid : QuorumSetSanityChecker} {l l' : List NodeID}
    (h : checker.Registered mid l) (hdisjoint : ∀ a ∈ l, ∀ b ∈ l', a ≠ b)
    (hnew : ∀ n ∈ l ++ l', n ∉ checker.mKnownNodes) : ∀ n ∈ l', n ∉ mid.mKnownNodes := by
  intro n hn hmem
  rcases (h.known n).mp hmem with hold | hl
  · exact hnew n (mem_append_right _ hn) hold
  · exact hdisjoint n hl n hn rfl

/-- The checker accepts a sound set of new and different nodes, and counts its nodes. -/
theorem checkSanity_of_sound {d : ℕ} {q : SCPQuorumSet} (h : q.Sound d) :
    ∀ (checker : QuorumSetSanityChecker) (depth : ℕ),
      depth + d ≤ maximumQuorumNestingLevel + 1 → (forAllNodes q).Nodup →
      (∀ n ∈ forAllNodes q, n ∉ checker.mKnownNodes) →
      ∃ out, checkSanity checker depth q = .ok out ∧
        out.mCount = checker.mCount + (forAllNodes q).length := by
  induction h with
  | @mk d t v i hmajority hle _ ih =>
    have hinner : ∀ l : List SCPQuorumSet, (∀ q ∈ l, q ∈ i) →
        ∀ (checker : QuorumSetSanityChecker) (depth : ℕ),
          depth + d ≤ maximumQuorumNestingLevel + 1 → (forAllInnerNodes l).Nodup →
          (∀ n ∈ forAllInnerNodes l, n ∉ checker.mKnownNodes) →
          ∃ out, checkInnerSets checker depth l = .ok out ∧
            out.mCount = checker.mCount + (forAllInnerNodes l).length := by
      intro l
      induction l with
      | nil => exact fun _ _ _ _ _ _ => ⟨_, rfl, rfl⟩
      | cons q l ihl =>
        intro hl checker depth hdepth hnodup hnew
        obtain ⟨hq, hrest, hdisjoint⟩ := nodup_append.mp hnodup
        obtain ⟨mid, hmid, hcount⟩ := ih q (hl q mem_cons_self) checker depth hdepth hq
          fun n hn => hnew n (mem_append_left _ hn)
        obtain ⟨out, hout, hcount'⟩ := ihl (fun q hq => hl q (mem_cons_of_mem _ hq)) mid depth
          hdepth hrest ((checkSanity_registered q hmid).not_known hdisjoint hnew)
        refine ⟨out, ?_, ?_⟩
        · rwa [checkInnerSets, hmid]
        · rw [hcount', hcount, forAllInnerNodes, length_append, Nat.add_assoc]
    intro checker depth hdepth hnodup hnew
    obtain ⟨hv, hi, hdisjoint⟩ := nodup_append.mp hnodup
    obtain ⟨mid, hmid⟩ := insertNodes_of_new hv
      { checker with mCount := checker.mCount + v.length }
      fun n hn => hnew n (mem_append_left _ hn)
    obtain ⟨out, hout, hcount⟩ := hinner i (fun _ hq => hq) mid (depth + 1) (by omega) hi
      ((insertNodes_registered hmid).not_known hdisjoint hnew)
    have hpos : ¬ t < 1 := not_lt.mpr (show 1 ≤ t.val by omega)
    have hextra : ¬ (checker.mExtraChecks = true ∧ t.val < v.length + i.length - t.val + 1) :=
      fun hlt => by omega
    refine ⟨out, ?_, ?_⟩
    · rw [checkSanity, if_neg (by omega), if_neg hpos]
      simp only [if_neg (not_lt.mpr hle), if_neg hextra, hmid]
      exact hout
    · rw [hcount, (insertNodes_ok hmid).1, forAllNodes, length_append,
        Nat.add_assoc]

end QuorumSetSanityChecker

/-- A sound set of different nodes, not too many of them, is sane. -/
theorem isQuorumSetSane_of_sound (h : q.Sound (maximumQuorumNestingLevel + 1))
    (hnodup : (forAllNodes q).Nodup) (hpos : 1 ≤ (forAllNodes q).length)
    (hle : (forAllNodes q).length ≤ 1000) : isQuorumSetSane q true = true := by
  obtain ⟨out, hout, hcount⟩ := QuorumSetSanityChecker.checkSanity_of_sound h ⟨true, ∅, 0⟩ 0
    (by omega) hnodup fun n _ hmem => by simp at hmem
  have hcount' : ¬ (out.mCount < 1 ∨ out.mCount > 1000) := by
    rw [hcount, Nat.zero_add]
    omega
  simp only [isQuorumSetSane, checkQuorumSet, hout, if_neg hcount']

/-! ## Simplifying -/

theorem simplifyInnerSets_eq (id : Option NodeID) (i : List SCPQuorumSet) :
    simplifyInnerSets id i = i.map (normalizeQSetSimplify id) := by
  induction i with
  | nil => simp [simplifyInnerSets]
  | cons q i ih => simp [simplifyInnerSets, ih]

theorem SCPQuorumSet.isSingleton_iff :
    q.isSingleton = true ↔ ∃ n, q = .mk 1 [n] [] := by
  cases q with
  | mk t v i =>
    simp only [isSingleton, Bool.and_eq_true, decide_eq_true_eq, length_eq_one_iff,
      length_eq_zero_iff, SCPQuorumSet.mk.injEq]
    constructor
    · rintro ⟨⟨rfl, n, rfl⟩, rfl⟩
      exact ⟨n, rfl, rfl, rfl⟩
    · rintro ⟨n, rfl, rfl, rfl⟩
      exact ⟨⟨rfl, n, rfl⟩, rfl⟩

variable (i : List SCPQuorumSet)

/-- The validators that inner sets of one node become. -/
def mergedValidators : List NodeID :=
  (i.filter (·.isSingleton)).flatMap (·.validators)

/-- The inner sets that stay. -/
def keptInnerSets : List SCPQuorumSet :=
  i.filter (!·.isSingleton)

/-- The inner sets are those that are merged and those that stay. -/
theorem merged_kept_perm :
    ((mergedValidators i).map (SCPQuorumSet.mk 1 [·] []) ++ keptInnerSets i).Perm i := by
  have hmerged : (mergedValidators i).map (SCPQuorumSet.mk 1 [·] []) = i.filter (·.isSingleton) := by
    rw [mergedValidators, map_flatMap]
    refine (flatMap_congr fun q hq => ?_).trans (flatMap_singleton' _)
    obtain ⟨n, rfl⟩ := SCPQuorumSet.isSingleton_iff.mp (mem_filter.mp hq).2
    rfl
  rw [hmerged]
  simpa [keptInnerSets] using filter_append_perm (·.isSingleton) i

/-- Merging keeps the number of entries. -/
theorem length_merged_kept : (mergedValidators i).length + (keptInnerSets i).length = i.length := by
  simpa using (merged_kept_perm i).length_eq

/-- Merging keeps the nodes. -/
theorem merged_kept_nodes : (mergedValidators i ++ (keptInnerSets i).flatMap forAllNodes).Perm
      (i.flatMap forAllNodes) := by
  simpa [flatMap_map, forAllNodes, forAllInnerNodes] using
    (merged_kept_perm i).flatMap_right forAllNodes

/-- The last step of simplifying: a set that only asks for its one inner set is that set. -/
def collapse (threshold : Uint32) (v : List NodeID) (i : List SCPQuorumSet) : SCPQuorumSet :=
  match i with
  | [t] => if threshold = 1 ∧ v.length = 0 then t else .mk threshold v [t]
  | i => .mk threshold v i

theorem collapse_cases (t : Uint32) (v : List NodeID) (i : List SCPQuorumSet) :
    collapse t v i = .mk t v i ∨ ∃ q, v = [] ∧ i = [q] ∧ collapse t v i = q := by
  unfold collapse
  split
  · next q =>
    by_cases hone : t = 1 ∧ v.length = 0
    · rw [if_pos hone]
      exact .inr ⟨q, length_eq_zero_iff.mp hone.2, rfl, rfl⟩
    · rw [if_neg hone]
      exact .inl rfl
  · exact .inl rfl

/-- Simplifying without a node to remove: merge, then collapse. -/
theorem normalizeQSetSimplify_none (t : Uint32) (v : List NodeID) (i : List SCPQuorumSet) :
    normalizeQSetSimplify none (.mk t v i) =
      collapse t (v ++ mergedValidators (i.map (normalizeQSetSimplify none)))
        (keptInnerSets (i.map (normalizeQSetSimplify none))) := by
  have hkept : v.filter (fun n => some n ≠ none) = v :=
    filter_eq_self.mpr fun n _ => by simp
  have hthreshold : t - Fin.ofNat (2 ^ 32) (v.length - v.length) = t := by
    rw [Nat.sub_self]
    exact sub_zero t
  rw [normalizeQSetSimplify, hkept, hthreshold, simplifyInnerSets_eq]
  rfl

theorem normalizeQSetSimplify_nodes (q : SCPQuorumSet) :
    (forAllNodes (normalizeQSetSimplify none q)).Perm (forAllNodes q) := by
  induction q using SCPQuorumSet.induction with
  | mk t v i ih =>
    have hinner : ((i.map (normalizeQSetSimplify none)).flatMap forAllNodes).Perm
        (i.flatMap forAllNodes) := by
      rw [flatMap_map]
      exact List.Perm.flatMap_left i ih
    have hnodes := (merged_kept_nodes (i.map (normalizeQSetSimplify none))).trans hinner
    rw [forAllNodes, forAllInnerNodes_eq, normalizeQSetSimplify_none]
    rcases collapse_cases t (v ++ mergedValidators (i.map (normalizeQSetSimplify none)))
      (keptInnerSets (i.map (normalizeQSetSimplify none))) with heq | ⟨q, hnil, hone, heq⟩
    · rw [heq, forAllNodes, forAllInnerNodes_eq, append_assoc]
      exact hnodes.append_left v
    · obtain ⟨rfl, hmerged⟩ := append_eq_nil_iff.mp hnil
      rw [hmerged, hone, flatMap_singleton] at hnodes
      rwa [heq]

theorem SCPQuorumSet.Sound.simplify (h : q.Sound d) :
    (normalizeQSetSimplify none q).Sound d := by
  induction h with
  | @mk d t v i hmajority hle _ ih =>
    have hkept : ∀ q ∈ keptInnerSets (i.map (normalizeQSetSimplify none)), q.Sound d := by
      intro q hq
      obtain ⟨r, hr, rfl⟩ := mem_map.mp (mem_of_mem_filter hq)
      exact ih r hr
    have hlength := length_merged_kept (i.map (normalizeQSetSimplify none))
    rw [length_map] at hlength
    rw [normalizeQSetSimplify_none]
    rcases collapse_cases t (v ++ mergedValidators (i.map (normalizeQSetSimplify none)))
      (keptInnerSets (i.map (normalizeQSetSimplify none))) with heq | ⟨q, -, hone, heq⟩
    · rw [heq]
      refine .mk ?_ ?_ hkept
      · rw [length_append]
        omega
      · rw [length_append]
        omega
    · rw [heq]
      exact (hkept q (by rw [hone]; exact mem_singleton_self q)).mono (by omega)

/-! ## Reordering -/

theorem reorderInnerSets_eq : reorderInnerSets i = i.map normalizeQuorumSetReorder := by
  induction i with
  | nil => simp [reorderInnerSets]
  | cons q i ih => simp [reorderInnerSets, ih]

theorem normalizeQuorumSetReorder_nodes (q : SCPQuorumSet) :
    (forAllNodes (normalizeQuorumSetReorder q)).Perm (forAllNodes q) := by
  induction q using SCPQuorumSet.induction with
  | mk t v i ih =>
    rw [normalizeQuorumSetReorder, forAllNodes, forAllNodes,
      forAllInnerNodes_eq, forAllInnerNodes_eq, reorderInnerSets_eq]
    refine (perm_insertionSort _ v).append ?_
    refine ((perm_insertionSort _ _).flatMap_right _).trans ?_
    rw [flatMap_map]
    exact List.Perm.flatMap_left i ih

theorem SCPQuorumSet.Sound.reorder (h : q.Sound d) :
    (normalizeQuorumSetReorder q).Sound d := by
  induction h with
  | mk hmajority hle _ ih =>
    rw [normalizeQuorumSetReorder, reorderInnerSets_eq]
    refine .mk ?_ ?_ fun q hq => ?_
    · rwa [length_insertionSort, length_insertionSort, length_map]
    · rwa [length_insertionSort, length_insertionSort, length_map]
    · rw [mem_insertionSort] at hq
      obtain ⟨r, hr, rfl⟩ := mem_map.mp hq
      exact ih r hr

/-! ## The order of quorum sets -/

section Lexicographic
variable {α : Type} {comp : α → α → Ordering}

variable {l : List α}

theorem intLexicographicalCompare_eq_iff (h : ∀ a ∈ l, ∀ b, comp a b = .eq ↔ a = b) (r : List α) :
    intLexicographicalCompare comp l r = .eq ↔ l = r := by
  induction l generalizing r with
  | nil => cases r <;> simp [intLexicographicalCompare]
  | cons a l ih =>
    cases r with
    | nil => simp [intLexicographicalCompare]
    | cons b r =>
      rw [intLexicographicalCompare, Ordering.then_eq_eq, h a mem_cons_self,
        ih fun a ha => h a (mem_cons_of_mem _ ha), cons.injEq]

theorem intLexicographicalCompare_swap (h : ∀ a ∈ l, ∀ b, comp b a = (comp a b).swap) (r : List α) :
    intLexicographicalCompare comp r l = (intLexicographicalCompare comp l r).swap := by
  induction l generalizing r with
  | nil => cases r <;> rfl
  | cons a l ih =>
    cases r with
    | nil => rfl
    | cons b r =>
      rw [intLexicographicalCompare, intLexicographicalCompare, Ordering.swap_then,
        h a mem_cons_self, ih fun a ha => h a (mem_cons_of_mem _ ha)]

/-- A comparison by two keys is transitive if both are. -/
theorem then_lt_trans {x₁ x₂ x₃ y₁ y₂ y₃ : Ordering}
    (hx : x₁ = .lt → x₂ = .lt → x₃ = .lt) (hl : x₁ = .eq → x₃ = x₂) (hr : x₂ = .eq → x₃ = x₁)
    (hy : x₁ = .eq → x₂ = .eq → y₁ = .lt → y₂ = .lt → y₃ = .lt) (h₁ : x₁.then y₁ = .lt)
    (h₂ : x₂.then y₂ = .lt) : x₃.then y₃ = .lt := by
  cases x₁ <;> cases x₂ <;> simp_all

theorem intLexicographicalCompare_trans (heq : ∀ a b, comp a b = .eq ↔ a = b)
    (h : ∀ a ∈ l, ∀ b c, comp a b = .lt → comp b c = .lt → comp a c = .lt) {m r : List α}
    (hlm : intLexicographicalCompare comp l m = .lt)
    (hmr : intLexicographicalCompare comp m r = .lt) :
    intLexicographicalCompare comp l r = .lt := by
  induction l generalizing m r with
  | nil =>
    cases m with
    | nil => cases hlm
    | cons b m =>
      cases r with
      | nil => cases hmr
      | cons c r => rfl
  | cons a l ih =>
    cases m with
    | nil => cases hlm
    | cons b m =>
      cases r with
      | nil => cases hmr
      | cons c r =>
        exact then_lt_trans (h a mem_cons_self b c) (fun hab => by rw [(heq a b).mp hab])
          (fun hbc => by rw [(heq b c).mp hbc])
          (fun _ _ => ih fun a ha => h a (mem_cons_of_mem _ ha)) hlm hmr

end Lexicographic

theorem qSetCompareInner_eq (l r : List SCPQuorumSet) :
    qSetCompareInner l r = intLexicographicalCompare qSetCompareInt l r := by
  induction l generalizing r with
  | nil => cases r <;> simp [qSetCompareInner, intLexicographicalCompare]
  | cons a l ih =>
    cases r with
    | nil => simp [qSetCompareInner, intLexicographicalCompare]
    | cons b r => rw [qSetCompareInner, intLexicographicalCompare, ih]

/-- Sets that compare equal are equal. -/
theorem qSetCompareInt_eq_iff (q r : SCPQuorumSet) : qSetCompareInt q r = .eq ↔ q = r := by
  induction q using SCPQuorumSet.induction generalizing r with
  | mk t v i ih =>
    cases r with
    | mk t' v' i' =>
      rw [qSetCompareInt, qSetCompareInner_eq, Ordering.then_eq_eq, Ordering.then_eq_eq,
        intLexicographicalCompare_eq_iff fun _ _ _ => compare_eq_iff_eq,
        intLexicographicalCompare_eq_iff ih, compare_eq_iff_eq, SCPQuorumSet.mk.injEq]
      exact and_comm

theorem qSetCompareInt_swap (q r : SCPQuorumSet) :
    qSetCompareInt r q = (qSetCompareInt q r).swap := by
  induction q using SCPQuorumSet.induction generalizing r with
  | mk t v i ih =>
    cases r with
    | mk t' v' i' =>
      rw [qSetCompareInt, qSetCompareInt, qSetCompareInner_eq, qSetCompareInner_eq,
        Ordering.swap_then, Ordering.swap_then,
        intLexicographicalCompare_swap fun _ _ _ => Std.OrientedOrd.eq_swap,
        intLexicographicalCompare_swap ih, Std.OrientedOrd.eq_swap (a := t')]

theorem qSetCompareInt_trans {r s : SCPQuorumSet} (hqr : qSetCompareInt q r = .lt)
    (hrs : qSetCompareInt r s = .lt) : qSetCompareInt q s = .lt := by
  induction q using SCPQuorumSet.induction generalizing r s with
  | mk t v i ih =>
    cases r with
    | mk t' v' i' =>
      cases s with
      | mk t'' v'' i'' =>
        have hv := fun (l m : List NodeID) =>
          (intLexicographicalCompare_eq_iff (l := l) (fun _ _ _ => compare_eq_iff_eq) m).mp
        have hi := fun (l m : List SCPQuorumSet) =>
          (intLexicographicalCompare_eq_iff (l := l) (fun _ _ => qSetCompareInt_eq_iff _) m).mp
        rw [qSetCompareInt, qSetCompareInner_eq] at hqr hrs ⊢
        refine then_lt_trans (then_lt_trans ?_ ?_ ?_ fun _ _ => ?_) ?_ ?_ (fun _ _ => ?_) hqr hrs
        · exact intLexicographicalCompare_trans (fun _ _ => compare_eq_iff_eq)
            fun a _ b c hab hbc => compare_lt_iff_lt.mpr
              ((compare_lt_iff_lt.mp hab).trans (compare_lt_iff_lt.mp hbc))
        · exact fun h => by rw [hv v v' h]
        · exact fun h => by rw [hv v' v'' h]
        · exact intLexicographicalCompare_trans qSetCompareInt_eq_iff fun a ha _ _ => ih a ha
        · rw [Ordering.then_eq_eq]
          exact fun h => by rw [hv v v' h.1, hi i i' h.2]
        · rw [Ordering.then_eq_eq]
          exact fun h => by rw [hv v' v'' h.1, hi i' i'' h.2]
        · simpa only [compare_lt_iff_lt] using lt_trans

/-- The relation by which the inner sets are sorted. -/
def SCPQuorumSet.NotAfter (l r : SCPQuorumSet) : Prop := qSetCompareInt l r ≠ .gt

namespace SCPQuorumSet.NotAfter

instance : DecidableRel SCPQuorumSet.NotAfter := fun l r =>
  inferInstanceAs (Decidable (qSetCompareInt l r ≠ .gt))

theorem iff_lt_or_eq {l r : SCPQuorumSet} : l.NotAfter r ↔ qSetCompareInt l r = .lt ∨ l = r := by
  rw [NotAfter, ← qSetCompareInt_eq_iff]
  cases qSetCompareInt l r <;> simp

instance : Std.Total SCPQuorumSet.NotAfter where
  total l r := by
    rw [NotAfter, NotAfter, qSetCompareInt_swap l r]
    cases qSetCompareInt l r <;> simp

instance : IsTrans SCPQuorumSet SCPQuorumSet.NotAfter where
  trans l m r hlm hmr := by
    rw [iff_lt_or_eq] at hlm hmr ⊢
    rcases hlm with hlm | rfl
    · rcases hmr with hmr | rfl
      · exact .inl (qSetCompareInt_trans hlm hmr)
      · exact .inl hlm
    · exact hmr

instance : Std.Antisymm SCPQuorumSet.NotAfter where
  antisymm l r hlr hrl := by
    rw [iff_lt_or_eq] at hlr hrl
    rcases hlr with hlr | rfl
    · rcases hrl with hrl | rfl
      · rw [qSetCompareInt_swap, hlr] at hrl
        cases hrl
      · rfl
    · rfl

end SCPQuorumSet.NotAfter

theorem normalizeQuorumSetReorder_eq (t : Uint32) (v : List NodeID) (i : List SCPQuorumSet) :
    normalizeQuorumSetReorder (.mk t v i) = .mk t (v.insertionSort (· ≤ ·))
      ((i.map normalizeQuorumSetReorder).insertionSort SCPQuorumSet.NotAfter) := by
  rw [normalizeQuorumSetReorder, reorderInnerSets_eq]
  rfl

theorem forall_mem_reordered {P : SCPQuorumSet → Prop} {i : List SCPQuorumSet}
    (h : ∀ q ∈ i, P (normalizeQuorumSetReorder q)) :
    ∀ q ∈ (i.map normalizeQuorumSetReorder).insertionSort SCPQuorumSet.NotAfter, P q := by
  simpa using h

/-- Sorting forgets the order there was. -/
theorem insertionSort_eq_of_perm {α : Type} {r : α → α → Prop} [DecidableRel r] [Std.Total r]
    [IsTrans α r] [Std.Antisymm r] {l l' : List α} (h : l.Perm l') :
    l.insertionSort r = l'.insertionSort r :=
  List.Perm.eq_of_pairwise' (pairwise_insertionSort r l) (pairwise_insertionSort r l')
    (((perm_insertionSort r l).trans h).trans (perm_insertionSort r l').symm)

/-! ## The order of the entries -/

/-- Quorum sets that differ only in the order of validators and inner sets, at any depth. -/
inductive SCPQuorumSet.Permuted : SCPQuorumSet → SCPQuorumSet → Prop
  | mk {t : Uint32} {v v' : List NodeID} {i i' : List SCPQuorumSet} (j : List SCPQuorumSet)
      (hv : v.Perm v') (hj : j.Perm i') (hlength : i.length = j.length)
      (hi : ∀ a b, (a, b) ∈ i.zip j → Permuted a b) : Permuted (.mk t v i) (.mk t v' i')

namespace SCPQuorumSet.Permuted

variable {i j : List SCPQuorumSet}

theorem of_forall₂ {t : Uint32} {v v' : List NodeID} {i' : List SCPQuorumSet} (hv : v.Perm v')
    (hi : List.Forall₂ Permuted i j) (hj : j.Perm i') :
    Permuted (.mk t v i) (.mk t v' i') :=
  .mk j hv hj hi.length_eq fun _ _ hmem => (forall₂_iff_zip.mp hi).2 hmem

variable {q q' : SCPQuorumSet}

/-- A set of one node has no other arrangement. -/
theorem isSingleton_eq (h : q.Permuted q') :
    q.isSingleton = q'.isSingleton := by
  cases h with
  | mk j hv hj hlength _ => simp [isSingleton, hv.length_eq, hlength, hj.length_eq]

theorem eq_singleton {n : NodeID} (h : (SCPQuorumSet.mk 1 [n] []).Permuted q) :
    q = SCPQuorumSet.mk 1 [n] [] := by
  cases h with
  | mk j hv hj hlength _ =>
    rw [eq_nil_of_length_eq_zero hlength.symm] at hj
    rw [perm_singleton.mp hv.symm, nil_perm.mp hj]

theorem merged_kept (h : List.Forall₂ Permuted i j) :
    (mergedValidators i).Perm (mergedValidators j) ∧
      List.Forall₂ Permuted (keptInnerSets i) (keptInnerSets j) := by
  induction h with
  | nil => exact ⟨.refl _, .nil⟩
  | @cons q q' i j hq _ ih =>
    by_cases hone : q.isSingleton = true
    · obtain ⟨n, rfl⟩ := isSingleton_iff.mp hone
      obtain rfl := hq.eq_singleton
      simpa [mergedValidators, keptInnerSets, hone, validators] using ih
    · have hone' := hq.isSingleton_eq ▸ hone
      simpa [mergedValidators, keptInnerSets, hone, hone', hq] using ih

theorem collapse {t : Uint32} {v v' : List NodeID} {i' : List SCPQuorumSet} (hv : v.Perm v')
    (hi : List.Forall₂ Permuted i j) (hj : j.Perm i') :
    (collapse t v i).Permuted (collapse t v' i') := by
  cases hi with
  | nil =>
    rw [nil_perm.mp hj]
    exact of_forall₂ hv .nil (.refl _)
  | @cons q q' i j hq hrest =>
    cases hrest with
    | nil =>
      rw [perm_singleton.mp hj.symm]
      simp only [Scp.collapse, hv.length_eq]
      split
      · exact hq
      · exact of_forall₂ hv (.cons hq .nil) (.refl _)
    | @cons r r' i j hr hrest =>
      have hkeep : ∀ {t : Uint32} {v : List NodeID} {i : List SCPQuorumSet},
          i.length ≠ 1 → Scp.collapse t v i = SCPQuorumSet.mk t v i := by
        intro t v i hlength
        unfold Scp.collapse
        split
        · exact absurd rfl hlength
        · rfl
      have hlength := hj.length_eq
      rw [hkeep (by simp), hkeep (by rw [← hlength]; simp)]
      exact of_forall₂ hv (.cons hq (.cons hr hrest)) hj

theorem simplify (h : q.Permuted q') :
    (normalizeQSetSimplify none q).Permuted (normalizeQSetSimplify none q') := by
  induction h with
  | @mk t v v' i i' j hv hj hlength _ ih =>
    have hi : List.Forall₂ Permuted (i.map (normalizeQSetSimplify none))
        (j.map (normalizeQSetSimplify none)) := by
      rw [forall₂_map_left_iff, forall₂_map_right_iff]
      exact forall₂_iff_zip.mpr ⟨hlength, fun hmem => ih _ _ hmem⟩
    have hmap := hj.map (normalizeQSetSimplify none)
    obtain ⟨hmerged, hkept⟩ := merged_kept hi
    rw [normalizeQSetSimplify_none, normalizeQSetSimplify_none]
    exact collapse (hv.append (hmerged.trans ((hmap.filter _).flatMap_right _))) hkept
      (hmap.filter _)

/-- Reordering removes the difference. -/
theorem reorder (h : q.Permuted q') :
    normalizeQuorumSetReorder q = normalizeQuorumSetReorder q' := by
  induction h with
  | @mk t v v' i i' j hv hj hlength _ ih =>
    have hi : i.map normalizeQuorumSetReorder = j.map normalizeQuorumSetReorder := by
      rw [← forall₂_eq_eq_eq, forall₂_map_left_iff, forall₂_map_right_iff]
      exact forall₂_iff_zip.mpr ⟨hlength, fun hmem => ih _ _ hmem⟩
    rw [normalizeQuorumSetReorder_eq, normalizeQuorumSetReorder_eq, hi,
      insertionSort_eq_of_perm hv, insertionSort_eq_of_perm (hj.map normalizeQuorumSetReorder)]

end SCPQuorumSet.Permuted

/-- Quorum sets that differ only in the order of the validators. -/
inductive SCPQuorumSet.Rearranged : SCPQuorumSet → SCPQuorumSet → Prop
  | mk {t : Uint32} {v v' : List NodeID} {i i' : List SCPQuorumSet} (hv : v.Perm v')
      (hlength : i.length = i'.length) (hi : ∀ a b, (a, b) ∈ i.zip i' → Rearranged a b) :
      Rearranged (.mk t v i) (.mk t v' i')

theorem SCPQuorumSet.Rearranged.of_forall₂ {t : Uint32} {v v' : List NodeID}
    {i i' : List SCPQuorumSet} (hv : v.Perm v') (hi : List.Forall₂ Rearranged i i') :
    Rearranged (.mk t v i) (.mk t v' i') :=
  .mk hv hi.length_eq fun _ _ hmem => (forall₂_iff_zip.mp hi).2 hmem

variable {q' : SCPQuorumSet}

theorem SCPQuorumSet.Rearranged.permuted (h : q.Rearranged q') :
    q.Permuted q' := by
  induction h with
  | @mk t v v' i i' hv hlength _ ih => exact .mk i' hv (.refl _) hlength ih

/-! ## Both steps -/

theorem normalizeQSet_nodes (q : SCPQuorumSet) :
    (forAllNodes (normalizeQSet q none)).Perm (forAllNodes q) :=
  (normalizeQuorumSetReorder_nodes _).trans (normalizeQSetSimplify_nodes q)

theorem SCPQuorumSet.Sound.normalize (h : q.Sound d) :
    (normalizeQSet q none).Sound d :=
  h.simplify.reorder

theorem SCPQuorumSet.Permuted.normalize (h : q.Permuted q') :
    normalizeQSet q none = normalizeQSet q' none :=
  h.simplify.reorder

theorem SCPQuorumSet.Rearranged.normalize (h : q.Rearranged q') :
    normalizeQSet q none = normalizeQSet q' none :=
  h.permuted.normalize

/-! ## The meaning of a quorum set -/

/-- A test that counts how many of the entries are hit. -/
structure CountingTest (mem : NodeID → Bool) (test : SCPQuorumSet → Bool)
    (passes : Uint32 → ℕ → ℕ → Bool) : Prop where
  eq : ∀ t v i, test (.mk t v i) =
    passes t (v.length + i.length) (v.countP mem + i.countP test)
  one : ∀ hits ≤ 1, passes 1 1 hits = decide (hits = 1)

namespace CountingTest
variable {mem : NodeID → Bool} {test : SCPQuorumSet → Bool} {passes : Uint32 → ℕ → ℕ → Bool}
  (c : CountingTest mem test passes)
include c

theorem singleton (n : NodeID) : test (.mk 1 [n] []) = mem n := by
  rw [c.eq, countP_singleton, countP_nil, Nat.add_zero]
  cases hn : mem n with
  | false => exact c.one 0 (Nat.zero_le 1)
  | true => exact c.one 1 le_rfl

theorem only (q : SCPQuorumSet) : test (.mk 1 [] [q]) = test q := by
  rw [c.eq, countP_singleton, countP_nil, Nat.zero_add]
  cases hq : test q with
  | false => exact c.one 0 (Nat.zero_le 1)
  | true => exact c.one 1 le_rfl

/-- Merging keeps the hits. -/
theorem merged_kept (i : List SCPQuorumSet) :
    (mergedValidators i).countP mem + (keptInnerSets i).countP test = i.countP test := by
  simpa [countP_map, Function.comp_def, c.singleton] using (merged_kept_perm i).countP_eq test

theorem collapse (t : Uint32) (v : List NodeID) (i : List SCPQuorumSet) :
    test (collapse t v i) = test (.mk t v i) := by
  unfold Scp.collapse
  split
  · next q =>
    split_ifs with hone
    · rw [hone.1, length_eq_zero_iff.mp hone.2, c.only]
    · rfl
  · rfl

theorem simplify (q : SCPQuorumSet) : test (normalizeQSetSimplify none q) = test q := by
  induction q using SCPQuorumSet.induction with
  | mk t v i ih =>
    have hcount := c.merged_kept (i.map (normalizeQSetSimplify none))
    have hlength := length_merged_kept (i.map (normalizeQSetSimplify none))
    have hinner : (i.map (normalizeQSetSimplify none)).countP test = i.countP test := by
      rw [countP_map]
      exact countP_congr fun q hq => by rw [Function.comp_apply, ih q hq]
    rw [hinner] at hcount
    rw [length_map] at hlength
    rw [normalizeQSetSimplify_none, c.collapse, c.eq, c.eq, length_append,
      countP_append, Nat.add_assoc, hlength, Nat.add_assoc, hcount]

theorem reorder (q : SCPQuorumSet) : test (normalizeQuorumSetReorder q) = test q := by
  induction q using SCPQuorumSet.induction with
  | mk t v i ih =>
    have hinner : (i.map normalizeQuorumSetReorder).countP test = i.countP test := by
      rw [countP_map]
      exact countP_congr fun q hq => by rw [Function.comp_apply, ih q hq]
    rw [normalizeQuorumSetReorder_eq, c.eq, c.eq, length_insertionSort,
      length_insertionSort, length_map, (perm_insertionSort _ v).countP_eq,
      (perm_insertionSort _ _).countP_eq, hinner]

theorem normalize (q : SCPQuorumSet) : test (normalizeQSet q none) = test q :=
  (c.reorder _).trans (c.simplify q)

end CountingTest

/-- The slice test counts, also where the threshold wraps. -/
theorem sliceTest (s : List NodeID) :
    CountingTest (fun n => decide (n ∈ s)) (isQuorumSliceInternal s)
      fun t _ hits => decide (hitsNeeded t ≤ hits) where
  eq t v i := by
    rw [Bool.eq_iff_iff, isQuorumSliceInternal_iff, decide_eq_true_iff]
  one hits hle := by
    have hneed : hitsNeeded 1 = 1 := by decide
    exact decide_eq_decide.mpr (by omega)

/-- So does the blocking test, also where the counter starts below one. -/
theorem blockingTest (s : List NodeID) :
    CountingTest (fun n => decide (n ∈ s)) (isVBlockingInternal s)
      fun t entries hits => decide (t ≠ 0 ∧
        hitsToBlock (int32 (1 + (entries : Int) - t.val)) ≤ hits) where
  eq t v i := by
    rw [Bool.eq_iff_iff, decide_eq_true_iff, isVBlockingInternal_count]
  one hits hle := by
    have hneed : hitsToBlock (int32 (1 + ((1 : ℕ) : Int) - (1 : Uint32).val)) = 1 := by decide
    have hone : (1 : Uint32) ≠ 0 := by decide
    rw [decide_eq_decide, hneed, and_iff_right hone]
    omega

/-! ## The normal form of the normal form -/

/-- Nothing is left to merge or to collapse. -/
inductive SCPQuorumSet.Simple : SCPQuorumSet → Prop
  | mk {t : Uint32} {v : List NodeID} {i : List SCPQuorumSet}
      (hmany : ¬ (t = 1 ∧ v = [] ∧ i.length = 1))
      (hi : ∀ q ∈ i, q.isSingleton = false) (hsimple : ∀ q ∈ i, Simple q) : Simple (.mk t v i)

namespace SCPQuorumSet.Simple

theorem of_simplify (q : SCPQuorumSet) : (normalizeQSetSimplify none q).Simple := by
  induction q using SCPQuorumSet.induction with
  | mk t v i ih =>
    have hkept : ∀ q ∈ keptInnerSets (i.map (normalizeQSetSimplify none)),
        q.isSingleton = false ∧ q.Simple := by
      intro q hq
      obtain ⟨hmem, hone⟩ := mem_filter.mp hq
      obtain ⟨r, hr, rfl⟩ := mem_map.mp hmem
      exact ⟨by simpa using hone, ih r hr⟩
    rw [normalizeQSetSimplify_none]
    generalize keptInnerSets (i.map (normalizeQSetSimplify none)) = kept at *
    generalize v ++ mergedValidators (i.map (normalizeQSetSimplify none)) = v' at *
    unfold collapse
    split
    · next q =>
      split_ifs with hone
      · exact (hkept q (mem_singleton_self q)).2
      · refine .mk ?_ (fun q hq => (hkept q hq).1) (fun q hq => (hkept q hq).2)
        rintro ⟨ht, hv, -⟩
        exact hone ⟨ht, length_eq_zero_iff.mpr hv⟩
    · next hnot =>
      refine .mk ?_ (fun q hq => (hkept q hq).1) (fun q hq => (hkept q hq).2)
      rintro ⟨-, -, hlength⟩
      obtain ⟨q, hq⟩ := length_eq_one_iff.mp hlength
      exact hnot q hq

theorem simplify_eq {q : SCPQuorumSet} (h : q.Simple) : normalizeQSetSimplify none q = q := by
  induction h with
  | @mk t v i hmany hi _ ih =>
    have hmap : i.map (normalizeQSetSimplify none) = i :=
      (map_congr_left ih).trans (map_id i)
    have hmerged : mergedValidators i = [] := by
      rw [mergedValidators, filter_eq_nil_iff.mpr fun q hq => by simp [hi q hq]]
      rfl
    have hkept : keptInnerSets i = i :=
      filter_eq_self.mpr fun q hq => by simp [hi q hq]
    rw [normalizeQSetSimplify_none, hmap, hmerged, hkept, append_nil]
    unfold collapse
    split
    · next q =>
      refine if_neg fun hone => hmany ⟨hone.1, length_eq_zero_iff.mp hone.2, rfl⟩
    · rfl

theorem isSingleton_reorder (q : SCPQuorumSet) :
    (normalizeQuorumSetReorder q).isSingleton = q.isSingleton := by
  cases q with
  | mk t v i =>
    rw [normalizeQuorumSetReorder_eq]
    simp only [isSingleton, length_insertionSort, length_map]

theorem reorder {q : SCPQuorumSet} (h : q.Simple) : (normalizeQuorumSetReorder q).Simple := by
  induction h with
  | @mk t v i hmany hi _ ih =>
    rw [normalizeQuorumSetReorder_eq]
    refine .mk ?_ ?_ ?_
    · rintro ⟨ht, hv, hlength⟩
      rw [length_insertionSort, length_map] at hlength
      refine hmany ⟨ht, ?_, hlength⟩
      rw [← length_eq_zero_iff, length_insertionSort] at hv
      exact length_eq_zero_iff.mp hv
    · exact forall_mem_reordered fun q hq => (isSingleton_reorder q).trans (hi q hq)
    · exact forall_mem_reordered ih

end SCPQuorumSet.Simple

theorem normalizeQuorumSetReorder_idem (q : SCPQuorumSet) :
    normalizeQuorumSetReorder (normalizeQuorumSetReorder q) = normalizeQuorumSetReorder q := by
  induction q using SCPQuorumSet.induction with
  | mk t v i ih =>
    have hmap : ((i.map normalizeQuorumSetReorder).insertionSort SCPQuorumSet.NotAfter).map
        normalizeQuorumSetReorder =
        (i.map normalizeQuorumSetReorder).insertionSort SCPQuorumSet.NotAfter :=
      (map_congr_left (forall_mem_reordered ih)).trans (map_id _)
    rw [normalizeQuorumSetReorder_eq, normalizeQuorumSetReorder_eq, hmap,
      (pairwise_insertionSort (· ≤ ·) v).insertionSort_eq,
      (pairwise_insertionSort SCPQuorumSet.NotAfter _).insertionSort_eq]

/-- The normal form answers like the set, is its own normal form, and is the same for every order
of the entries. -/
theorem normalizeQSet_canonical (q : SCPQuorumSet) :
    (∀ s, isQuorumSlice (normalizeQSet q none) s = isQuorumSlice q s ∧
      isVBlockingSet (normalizeQSet q none) s = isVBlockingSet q s) ∧
    normalizeQSet (normalizeQSet q none) none = normalizeQSet q none ∧
    (∀ q', q.Permuted q' → normalizeQSet q none = normalizeQSet q' none) := by
  refine ⟨fun s => ⟨(sliceTest s).normalize q, (blockingTest s).normalize q⟩, ?_, ?_⟩
  · have hsimple := (SCPQuorumSet.Simple.of_simplify q).reorder
    change normalizeQuorumSetReorder (normalizeQSetSimplify none
      (normalizeQuorumSetReorder (normalizeQSetSimplify none q))) = _
    rw [hsimple.simplify_eq, normalizeQuorumSetReorder_idem]
    rfl
  · intro q' hpermuted
    exact hpermuted.normalize

end DigitalBits.Scp
