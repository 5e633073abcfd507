import DigitalBits.Scp.QuorumSetUtils

/-!
# What the quorum tests decide

The pruning loop of `isQuorum` ends, and on the greatest set of nodes that satisfy
their quorum sets together, so the test finds a quorum whenever there is one. The
blocking test is the dual of the slice test: a set blocks just if the nodes that it
leaves over are no slice. In a set that passes the extra sanity checks every slice blocks,
and so any two of them meet.
-/
namespace DigitalBits.Scp
open LocalNode List
namespace LocalNode

/-! ## The loop of `isQuorum` -/

section Loop
variable {π : Type} (map : EnvelopeMap π) (qfun : SCPStatement π → Option SCPQuorumSet)

/-- The `do ... while` loop, started on some nodes, ends with `out`. -/
inductive QuorumLoopEnds : List NodeID → List NodeID → Prop
  | done {pNodes : List NodeID}
      (h : (pNodes.filter (quorumFilter map qfun pNodes)).length = pNodes.length) :
      QuorumLoopEnds pNodes (pNodes.filter (quorumFilter map qfun pNodes))
  | again {pNodes out : List NodeID}
      (h : (pNodes.filter (quorumFilter map qfun pNodes)).length ≠ pNodes.length)
      (hrest : QuorumLoopEnds (pNodes.filter (quorumFilter map qfun pNodes)) out) :
      QuorumLoopEnds pNodes out

/-- Every pass but the last drops a node. -/
theorem quorumLoopEnds (fuel : ℕ) (pNodes : List NodeID) (hfuel : pNodes.length ≤ fuel) :
    QuorumLoopEnds map qfun pNodes (quorumLoop map qfun fuel pNodes) := by
  induction fuel generalizing pNodes with
  | zero =>
    have hnil : pNodes = [] := length_eq_zero_iff.mp (Nat.le_zero.mp hfuel)
    subst hnil
    exact .done rfl
  | succ fuel ih =>
    have hle := length_filter_le (quorumFilter map qfun pNodes) pNodes
    rw [quorumLoop]
    split_ifs with hlen
    · exact .again hlen.symm (ih _ (by omega))
    · exact .done (not_not.mp hlen).symm

end Loop

/-- The loop ends, the test is true just if there is a quorum with a slice of the given set, and so
a filter that accepts more never makes it false. -/
theorem isQuorum_exact {π : Type} (qSet : SCPQuorumSet) (map : EnvelopeMap π)
    (qfun : SCPStatement π → Option SCPQuorumSet) (filter : SCPStatement π → Bool) :
    (∃ out, QuorumLoopEnds map qfun (filteredNodes map filter) out ∧
      isQuorum qSet map qfun filter = isQuorumSlice qSet out) ∧
    (isQuorum qSet map qfun filter = true ↔ ∃ U : List NodeID,
      (∀ n ∈ U, ∃ e, map.lookup n = some e ∧ filter e.statement = true ∧
        ∃ q, qfun e.statement = some q ∧ isQuorumSlice q U = true) ∧
      isQuorumSlice qSet U = true) ∧
    (∀ filter' : SCPStatement π → Bool, (∀ st, filter st = true → filter' st = true) →
      isQuorum qSet map qfun filter = true → isQuorum qSet map qfun filter' = true) := by
  refine ⟨⟨_, quorumLoopEnds map qfun _ _ le_rfl, rfl⟩, exists_quorumOf_iff, ?_⟩
  intro filter' hmore h
  exact isQuorum_mono (fun n e he hf => ⟨e, he, hmore _ hf, rfl⟩) h

/-! ## Blocking sets -/

private theorem length_le_countP_add_countP {α : Type} (f g : α → Bool) {l : List α}
    (h : ∀ a ∈ l, f a = false → g a = true) : l.length ≤ l.countP f + l.countP g := by
  induction l with
  | nil => simp
  | cons a l ih =>
    have hl := ih fun b hb => h b (mem_cons_of_mem _ hb)
    have ha := h a mem_cons_self
    rw [countP_cons, countP_cons, length_cons]
    cases hf : f a with
    | false => simp only [ha hf, if_true, Bool.false_eq_true, if_false]; omega
    | true => simp only [if_true]; omega

/-- If a set does not block, the other nodes are a slice: what one loop misses the other one
counts. -/
theorem isQuorumSlice_of_not_isVBlockingSet {q : SCPQuorumSet} (hq : q.WellFormed)
    {s t : List NodeID} (ht : ∀ n ∈ forAllNodes q, n ∉ s → n ∈ t)
    (hs : isVBlockingSet q s = false) : isQuorumSlice q t = true := by
  unfold isVBlockingSet at hs
  unfold isQuorumSlice
  induction q using SCPQuorumSet.induction with
  | mk k v i ih =>
    rw [forAllNodes, forAllInnerNodes_eq] at ht
    rw [Bool.eq_false_iff, Ne, isVBlockingInternal_iff hq] at hs
    rw [isQuorumSliceInternal_iff]
    cases hq with
    | mk hpos hle hlt hi =>
      have hv := length_le_countP_add_countP (fun n => decide (n ∈ s)) (fun n => decide (n ∈ t))
        (l := v) fun n hn hns =>
          decide_eq_true (ht n (mem_append_left _ hn) (of_decide_eq_false hns))
      have hin := length_le_countP_add_countP (isVBlockingInternal s) (isQuorumSliceInternal t)
        (l := i) fun q hmem hqs => ih q hmem (hi q hmem)
          (fun n hn => ht n (mem_append_right _ (mem_flatMap.mpr ⟨q, hmem, hn⟩))) hqs
      have hneed : hitsNeeded k = k.val := by
        rw [hitsNeeded, if_neg fun h => absurd hpos (by rw [h]; decide)]
      omega

/-- The nodes of a quorum set outside of `s`. -/
def nodesOutside (q : SCPQuorumSet) (s : List NodeID) : List NodeID :=
  (forAllNodes q).filter fun n => !s.contains n

theorem mem_nodesOutside {q : SCPQuorumSet} {s : List NodeID} {n : NodeID} :
    n ∈ nodesOutside q s ↔ n ∈ forAllNodes q ∧ n ∉ s := by
  simp [nodesOutside]

/-- A set blocks just if the nodes outside of it are no slice, and just if it meets every slice. -/
theorem isVBlockingSet_dual (q : SCPQuorumSet) (hq : q.WellFormed) (s : List NodeID) :
    (isVBlockingSet q s = true ↔ isQuorumSlice q (nodesOutside q s) = false) ∧
    (isVBlockingSet q s = true ↔ ∀ t, isQuorumSlice q t = true → ∃ n ∈ s, n ∈ t) := by
  have hmeets : isVBlockingSet q s = true → ∀ t, isQuorumSlice q t = true → ∃ n ∈ s, n ∈ t :=
    fun h t ht => exists_mem_of_isVBlockingSet hq h ht
  have hnone : (∀ t, isQuorumSlice q t = true → ∃ n ∈ s, n ∈ t) →
      isQuorumSlice q (nodesOutside q s) = false := by
    intro h
    by_contra hslice
    obtain ⟨n, hns, hn⟩ := h _ (Bool.eq_true_of_not_eq_false hslice)
    exact (mem_nodesOutside.mp hn).2 hns
  have hblocks : isQuorumSlice q (nodesOutside q s) = false → isVBlockingSet q s = true := by
    intro h
    by_contra hs
    have hslice := isQuorumSlice_of_not_isVBlockingSet hq
      (fun n hn hns => mem_nodesOutside.mpr ⟨hn, hns⟩) (Bool.eq_false_of_not_eq_true hs)
    rw [hslice] at h
    cases h
  exact ⟨⟨fun h => hnone (hmeets h), hblocks⟩, ⟨hmeets, fun h => hblocks (hnone h)⟩⟩

theorem isVBlockingSet_dual_two_of_three :
    (SCPQuorumSet.mk 2 [0, 1, 2] []).WellFormed ∧
    (isVBlockingSet (.mk 2 [0, 1, 2] []) [0, 2] = true ↔
      isQuorumSlice (.mk 2 [0, 1, 2] []) (nodesOutside (.mk 2 [0, 1, 2] []) [0, 2]) = false) := by
  have hwf : (SCPQuorumSet.mk 2 [0, 1, 2] []).WellFormed :=
    .mk (by decide) (by decide) (by decide) (by simp)
  exact ⟨hwf, (isVBlockingSet_dual _ hwf [0, 2]).1⟩

/-- One of `2 ^ 31 + 1` validators. -/
def oneOfMany : SCPQuorumSet := .mk 1 (1 :: replicate (2 ^ 31) 0) []

/-- With so many entries `leftTillBlock` starts below zero: one node blocks although the others are
a slice. -/
theorem oneOfMany_blocked_by_one :
    (1 ≤ oneOfMany.threshold.val ∧ oneOfMany.threshold.val ≤ oneOfMany.validators.length ∧
      oneOfMany.innerSets = []) ∧
    isVBlockingSet oneOfMany [1] = true ∧
    isQuorumSlice oneOfMany (nodesOutside oneOfMany [1]) = true := by
  refine ⟨⟨by decide, ?_, rfl⟩, ?_, ?_⟩
  · change 1 ≤ (1 :: replicate (2 ^ 31) 0 : List NodeID).length
    rw [length_cons]
    exact Nat.le_add_left 1 _
  · have hleft : int32 (1 + ((1 :: replicate (2 ^ 31) 0 : List NodeID).length : Int) +
        ([] : List SCPQuorumSet).length - (1 : Uint32).val) = -2147483647 := by
      rw [length_cons, length_replicate]
      decide
    rw [isVBlockingSet, oneOfMany, isVBlockingInternal, hleft, map_cons, cons_append]
    rfl
  · have hmem : (0 : NodeID) ∈ (1 :: replicate (2 ^ 31) 0 : List NodeID) :=
      mem_cons_of_mem _ (mem_replicate.mpr ⟨by decide, rfl⟩)
    have hout : (0 : NodeID) ∈ nodesOutside oneOfMany [1] := by
      refine mem_nodesOutside.mpr ⟨?_, by decide⟩
      rw [oneOfMany, forAllNodes]
      exact mem_append_left _ hmem
    rw [isQuorumSlice, oneOfMany, isQuorumSliceInternal_iff]
    have hpos : 0 < (1 :: replicate (2 ^ 31) 0 : List NodeID).countP
        fun n => decide (n ∈ nodesOutside oneOfMany [1]) :=
      countP_pos_iff.mpr ⟨0, hmem, decide_eq_true hout⟩
    have hneed : hitsNeeded 1 = 1 := by decide
    rw [hneed]
    exact Nat.le_add_right_of_le hpos

end LocalNode

/-! ## What the sanity checks are for -/

/-- A quorum set or one that is nested in it at some depth. -/
inductive SCPQuorumSet.Within : SCPQuorumSet → SCPQuorumSet → Prop
  | self (q : SCPQuorumSet) : Within q q
  | inner {r q : SCPQuorumSet} {t : Uint32} {v : List NodeID} {i : List SCPQuorumSet}
      (hmem : q ∈ i) (h : Within r q) : Within r (.mk t v i)

theorem SCPQuorumSet.WellFormed.within {r q : SCPQuorumSet} (hq : q.WellFormed)
    (h : r.Within q) : r.WellFormed := by
  induction h with
  | self => exact hq
  | inner hmem _ ih =>
    cases hq with
    | mk _ _ _ hi => exact ih (hi _ hmem)

theorem SCPQuorumSet.WellFormed.threshold_bounds {q : SCPQuorumSet} (hq : q.WellFormed) :
    1 ≤ q.threshold.val ∧ q.threshold.val ≤ q.validators.length + q.innerSets.length := by
  cases hq with
  | mk hpos hle _ _ => exact ⟨hpos, hle⟩

/-- With the extra checks any two slices meet; without them the thresholds are in range at every
depth and no node occurs twice. -/
theorem isQuorumSetSane_guarantees (q : SCPQuorumSet) :
    (isQuorumSetSane q true = true → ∀ s t, isQuorumSlice q s = true →
      isQuorumSlice q t = true → ∃ n, n ∈ s ∧ n ∈ t) ∧
    (isQuorumSetSane q false = true →
      (∀ r : SCPQuorumSet, r.Within q → 1 ≤ r.threshold.val ∧
        r.threshold.val ≤ r.validators.length + r.innerSets.length) ∧
      (forAllNodes q).Nodup) := by
  constructor
  · intro hsane s t hs ht
    exact slices_meet_of_isQuorumSetSane hsane hs ht
  · intro hsane
    have hwf := wellFormed_of_isQuorumSetSane hsane
    exact ⟨fun r hr => (hwf.within hr).threshold_bounds, nodup_of_isQuorumSetSane hsane⟩

theorem isQuorumSetSane_guarantees_nested :
    isQuorumSetSane (.mk 2 [0, 1] [.mk 2 [2, 3, 4] []]) true = true ∧
    isQuorumSlice (.mk 2 [0, 1] [.mk 2 [2, 3, 4] []]) [1, 2, 3] = true ∧
    isQuorumSlice (.mk 2 [0, 1] [.mk 2 [2, 3, 4] []]) [0, 3, 4] = true ∧
    ∃ n : NodeID, n ∈ [1, 2, 3] ∧ n ∈ [0, 3, 4] := by
  have hsane : isQuorumSetSane (.mk 2 [0, 1] [.mk 2 [2, 3, 4] []]) true = true := by
    decide +kernel
  have hs : isQuorumSlice (.mk 2 [0, 1] [.mk 2 [2, 3, 4] []]) [1, 2, 3] = true := by
    decide +kernel
  have ht : isQuorumSlice (.mk 2 [0, 1] [.mk 2 [2, 3, 4] []]) [0, 3, 4] = true := by
    decide +kernel
  exact ⟨hsane, hs, ht, (isQuorumSetSane_guarantees _).1 hsane _ _ hs ht⟩

end DigitalBits.Scp
