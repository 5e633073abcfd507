import DigitalBits.Herder.QuorumIntersectionChecker
import DigitalBits.Lib.Quorums
import DigitalBits.Scp.Agreement
import DigitalBits.Scp.QuorumDuality

/-!
# The quorum intersection check is exact

For sane quorum sets the slice test of the checker is that of the protocol, so the
nodes form a quorum system. Contracting a set gives its greatest closed subset, a
quorum that is not minimal contains a smaller one with a node less, and the
enumeration meets every minimal quorum of at most half the component it scans.
-/
namespace DigitalBits.Herder
open Scp Util Lib LocalNode QuorumMap Finset

/-- A set of nodes that contains a slice of each of its members, all of which have quorum sets. -/
def QuorumMap.IsQuorum (qmap : QuorumMap) (U : Set NodeID) : Prop :=
  U.Nonempty ∧ ∀ v ∈ U, ∃ q, (v, some q) ∈ qmap.entries ∧ q.SatisfiedBy U

/-! ## Slices -/

section Slices
variable {n : ℕ}

/-- The nodes that have the given numbers. -/
def members (key : Fin n → NodeID) (bs : BitSet n) : List NodeID := bs.bits.map key

variable {bs : BitSet n}

theorem mem_members {key : Fin n → NodeID} {v : NodeID} :
    v ∈ members key bs ↔ ∃ i ∈ bs, key i = v := by
  simp [members]

theorem members_mono {key : Fin n → NodeID} {bs' : BitSet n} (h : bs ⊆ bs') {v : NodeID}
    (hv : v ∈ members key bs) : v ∈ members key bs' := by
  obtain ⟨i, hi, hkey⟩ := mem_members.mp hv
  exact mem_members.mpr ⟨i, h hi, hkey⟩

open QBitSet in
theorem QBitSet.mem_getSuccessors {i : Fin n} (l : List (QBitSet n)) (out : BitSet n) :
    i ∈ getSuccessors out l ↔ i ∈ out ∨ ∃ q ∈ l, i ∈ q.mAllSuccessors := by
  induction l generalizing out with
  | nil => simp [getSuccessors]
  | cons q l ih => simp [getSuccessors, ih, or_assoc]

/-- The loop over the inner sets succeeds if enough of them do; the limit of failures follows. -/
theorem QBitSet.containsInnerSlices_iff {l : List (QBitSet n)} {t f : ℕ} (ht : 1 ≤ t) (hf : 1 ≤ f)
    (hlen : t + f = l.length + 1) :
    containsInnerSlices bs t f l = true ↔ t ≤ l.countP (containsQuorumSlice bs) := by
  induction l generalizing t f with
  | nil =>
    rw [List.length_nil] at hlen
    omega
  | cons q l ih =>
    rw [List.length_cons] at hlen
    have hle : l.countP (containsQuorumSlice bs) ≤ l.length := List.countP_le_length
    rw [containsInnerSlices, List.countP_cons]
    split_ifs with hq hone hone
    · exact ⟨fun _ => by omega, fun _ => rfl⟩
    · rw [ih (by omega) hf (by omega)]
      omega
    · exact ⟨fun h => (by cases h), fun h => by omega⟩
    · rw [ih ht (by omega) (by omega)]
      omega

namespace QuorumIntersectionCheckerImpl

variable {key : Fin n → NodeID} {num : NodeID → Option (Fin n)}

theorem convertInnerSets_eq (l : List SCPQuorumSet) :
    convertInnerSets num l = l.map (convertSCPQuorumSet num) := by
  induction l with
  | nil => simp [convertInnerSets]
  | cons q l ih => simp [convertInnerSets, ih]

variable (hnum : ∀ v i, num v = some i ↔ key i = v)
include hnum

theorem key_injective : Function.Injective key := by
  intro i j hij
  have hi : num (key j) = some i := (hnum _ _).mpr hij
  have hj : num (key j) = some j := (hnum _ _).mpr rfl
  exact Option.some.inj (hi.symm.trans hj)

theorem mem_nodeBits {i : Fin n} (l : List NodeID) : i ∈ nodeBits num l ↔ key i ∈ l := by
  induction l with
  | nil => simp [nodeBits]
  | cons v l ih =>
    rw [nodeBits, List.mem_cons]
    cases hv : num v with
    | none =>
      have hne : key i ≠ v := fun heq => by
        rw [(hnum v i).mpr heq] at hv
        cases hv
      simp [ih, hne]
    | some j =>
      have hkey := (hnum v j).mp hv
      rw [mem_insert, ih, ← hkey, (key_injective hnum).eq_iff]

/-- Counting numbers is counting the nodes that have them. -/
theorem card_inter_eq_countP (bs : BitSet n) {S : BitSet n} {l : List NodeID} (hl : l.Nodup)
    (hS : ∀ i, i ∈ S ↔ key i ∈ l) :
    (bs ∩ S).card = l.countP fun v => decide (v ∈ members key bs) := by
  rw [List.countP_eq_length_filter, ← List.toFinset_card_of_nodup (hl.filter _),
    ← card_image_of_injective _ (key_injective hnum)]
  congr 1
  ext v
  simp only [mem_image, mem_inter, List.mem_toFinset, List.mem_filter,
    decide_eq_true_eq, mem_members, hS]
  constructor
  · rintro ⟨i, ⟨hi, hl⟩, rfl⟩
    exact ⟨hl, i, hi, rfl⟩
  · rintro ⟨hl, i, hi, rfl⟩
    exact ⟨i, ⟨hi, hl⟩, rfl⟩

theorem mem_mAllSuccessors {i : Fin n} (q : SCPQuorumSet) :
    i ∈ (convertSCPQuorumSet num q).mAllSuccessors ↔ key i ∈ forAllNodes q := by
  induction q using SCPQuorumSet.induction with
  | mk t v l ih =>
    rw [convertSCPQuorumSet, QBitSet.mAllSuccessors, QBitSet.mem_getSuccessors, mem_nodeBits hnum,
      convertInnerSets_eq, forAllNodes, forAllInnerNodes_eq, List.mem_append,
      List.mem_flatMap]
    refine or_congr_right ⟨?_, ?_⟩
    · rintro ⟨q', hq', hi⟩
      obtain ⟨q, hq, rfl⟩ := List.mem_map.mp hq'
      exact ⟨q, hq, (ih q hq).mp hi⟩
    · rintro ⟨q, hq, hi⟩
      exact ⟨_, List.mem_map_of_mem hq, (ih q hq).mpr hi⟩

/-- The slice test of the checker is the one of the protocol. Its second quick check is sound
because no node occurs twice. -/
theorem containsQuorumSlice_iff {bs : BitSet n} (q : SCPQuorumSet) (hwf : q.WellFormed)
    (hnodup : (forAllNodes q).Nodup) :
    (convertSCPQuorumSet num q).containsQuorumSlice bs = true ↔
      isQuorumSlice q (members key bs) = true := by
  induction q using SCPQuorumSet.induction with
  | mk t v l ih =>
    cases hwf with
    | mk hpos hle hlt hinner =>
    have hsucc : ∀ i, i ∈ QBitSet.getSuccessors (nodeBits num v) (convertInnerSets num l) ↔
        key i ∈ v ++ forAllInnerNodes l := by
      intro i
      rw [← forAllNodes, ← mem_mAllSuccessors hnum (.mk t v l), convertSCPQuorumSet,
        QBitSet.mAllSuccessors]
    rw [forAllNodes] at hnodup
    obtain ⟨hv, hl, hvl⟩ := List.nodup_append.mp hnodup
    have ht : t ≠ 0 := fun h => absurd hpos (by rw [h]; decide)
    have hcount : (convertInnerSets num l).countP (QBitSet.containsQuorumSlice bs) =
        l.countP (isQuorumSliceInternal (members key bs)) := by
      rw [convertInnerSets_eq, List.countP_map]
      refine List.countP_congr fun q hq => ?_
      refine ih q hq (hinner q hq) ?_
      rw [forAllInnerNodes_eq] at hl
      exact (List.nodup_flatMap.mp hl).1 q hq
    have hcard := card_inter_eq_countP hnum bs hv (fun i => mem_nodeBits hnum v)
    have hcard' := card_inter_eq_countP hnum bs hnodup hsucc
    rw [List.countP_append] at hcard'
    have hall := countP_isQuorumSlice_le (members key bs) l
    have hlen : (convertInnerSets num l).length = l.length := by simp [convertInnerSets_eq]
    have hcountle : l.countP (isQuorumSliceInternal (members key bs)) ≤ l.length :=
      List.countP_le_length
    rw [convertSCPQuorumSet, QBitSet.containsQuorumSlice, isQuorumSlice,
      isQuorumSliceInternal_iff, hitsNeeded, if_neg ht]
    dsimp only
    generalize (v.countP fun v => decide (v ∈ members key bs)) = hits at *
    generalize (forAllInnerNodes l).countP (fun v => decide (v ∈ members key bs)) = all
      at *
    split_ifs with h1 h2 h3
    · exact ⟨fun _ => by omega, fun _ => rfl⟩
    · exact ⟨fun h => (by cases h), fun h => by omega⟩
    · exact ⟨fun h => (by cases h), fun h => by omega⟩
    · rw [QBitSet.containsInnerSlices_iff (by omega) (by omega) (by omega), hcount]
      omega

end QuorumIntersectionCheckerImpl
end Slices

namespace QuorumIntersectionCheckerImpl
variable {n : ℕ} {qic : QuorumIntersectionCheckerImpl n} {Q : QuorumSystem (Fin n)}
  {scanSCC committed remaining nodes : BitSet n} {s t : CheckerState n}

/-- The graph of the checker is the quorum system. -/
structure Represents (qic : QuorumIntersectionCheckerImpl n) (Q : QuorumSystem (Fin n)) :
    Prop where
  slice : ∀ S i, (qic.mGraph i).containsQuorumSlice S = true ↔ Q.Satisfies S i
  components : TarjanSCCCalculator.Components Q.successors qic.mSCCs

section Contract
variable (hQ : qic.Represents Q)
include hQ

theorem containsQuorumSliceForNode_iff {bs : BitSet n} {i : Fin n} :
    qic.containsQuorumSliceForNode bs i = true ↔ i ∈ bs ∧ Q.Satisfies bs i := by
  rw [containsQuorumSliceForNode]
  by_cases hi : i ∈ bs
  · rw [if_neg (not_not.mpr hi), hQ.slice]
    exact (and_iff_right hi).symm
  · simp [hi]

/-- A pass never drops a node of a closed subset. -/
theorem subset_filterNodes (l : List (Fin n)) {U filtered : BitSet n} (hU : Q.Closed U)
    (h : U ⊆ filtered) : U ⊆ qic.filterNodes filtered l := by
  induction l generalizing filtered with
  | nil => exact h
  | cons i l ih =>
    rw [filterNodes]
    split
    · exact ih h
    · next hi =>
      refine ih fun a ha => mem_erase.mpr ⟨?_, h ha⟩
      rintro rfl
      exact hi ((containsQuorumSliceForNode_iff hQ).mpr ⟨h ha, Q.mono h (hU a ha)⟩)

/-- A pass that drops nothing has found a slice for every node. -/
theorem satisfies_of_filterNodes_eq {l : List (Fin n)} {filtered : BitSet n}
    (h : qic.filterNodes filtered l = filtered) :
    ∀ i ∈ l, i ∈ filtered → Q.Satisfies filtered i := by
  induction l with
  | nil => simp
  | cons j l ih =>
    rw [filterNodes] at h
    rw [List.forall_mem_cons]
    split at h
    · next hj => exact ⟨fun _ => ((containsQuorumSliceForNode_iff hQ).mp hj).2, ih h⟩
    · next hj =>
      have herase : filtered.erase j = filtered := by
        refine (erase_subset _ _).antisymm ?_
        exact h.symm.subset.trans (qic.filterNodes_subset l _)
      rw [herase] at h
      exact ⟨fun hmem => absurd hmem (erase_eq_self.mp herase), ih h⟩

theorem contractToMaximalQuorum_greatest (nodes : BitSet n) :
    Q.IsGreatestClosed nodes (qic.contractToMaximalQuorum nodes) := by
  have hsub (nodes : BitSet n) := qic.filterNodes_subset nodes.bits nodes
  have hkeep (nodes : BitSet n) : ∀ U ⊆ nodes, Q.Closed U → U ⊆ qic.filterNodes nodes nodes.bits :=
    fun U hU hclosed => subset_filterNodes hQ nodes.bits hclosed hU
  fun_induction contractToMaximalQuorum qic nodes with
  | case1 nodes filtered hend =>
    refine ⟨hsub nodes, ?_, hkeep nodes⟩
    rcases hend with hcard | hempty
    · have heq := eq_of_subset_of_card_le (hsub nodes) hcard.ge
      change Q.Closed (qic.filterNodes nodes nodes.bits)
      rw [heq]
      exact fun i hi => satisfies_of_filterNodes_eq hQ heq i (BitSet.mem_bits.mpr hi) hi
    · rw [hempty]
      intro i hi
      simp at hi
  | case2 nodes filtered hend ih =>
    exact ⟨ih.subset.trans (hsub nodes), ih.closed,
      fun U hU hclosed => ih.greatest U (hkeep nodes U hU hclosed) hclosed⟩

theorem contract_ne_empty_iff : qic.contractToMaximalQuorum nodes ≠ ∅ ↔
    ∃ U ⊆ nodes, Q.IsQuorum U := by
  rw [← (contractToMaximalQuorum_greatest hQ nodes).nonempty_iff, nonempty_iff_ne_empty]

theorem isQuorum_contract (h : qic.contractToMaximalQuorum nodes ≠ ∅) :
    Q.IsQuorum (qic.contractToMaximalQuorum nodes) :=
  ⟨nonempty_iff_ne_empty.mpr h, (contractToMaximalQuorum_greatest hQ nodes).closed⟩

/-- A quorum is minimal if leaving out any one node leaves no quorum. -/
theorem minimal_iff (hnodes : Q.IsQuorum nodes) :
    Minimal Q.IsQuorum nodes ↔ ∀ i ∈ nodes, qic.contractToMaximalQuorum (nodes.erase i) = ∅ := by
  constructor
  · intro hmin i hi
    by_contra hne
    obtain ⟨U, hU, hquorum⟩ := (contract_ne_empty_iff hQ).mp hne
    have heq := QuorumSystem.eq_of_minimal hmin hquorum (hU.trans (erase_subset _ _))
    rw [heq] at hU
    exact notMem_erase i nodes (hU hi)
  · intro h
    refine ⟨hnodes, fun U hquorum hU => ?_⟩
    by_contra hnot
    obtain ⟨i, hi, hiU⟩ := not_subset.mp hnot
    refine (contract_ne_empty_iff hQ).mpr ⟨U, fun a ha => ?_, hquorum⟩ (h i hi)
    exact mem_erase.mpr ⟨fun heq => hiU (heq ▸ ha), hU ha⟩

end Contract

/-! ## One run -/

/-- What the cache says is what a computation would say. -/
def Sound (qic : QuorumIntersectionCheckerImpl n) (s : CheckerState n) : Prop :=
  s.mCachedQuorums.Holds fun nodes b => b = decide (qic.contractToMaximalQuorum nodes ≠ ∅)

/-- A later state of a run, in which only the interrupt flag's past is gone. -/
structure Follows (qic : QuorumIntersectionCheckerImpl n) (s t : CheckerState n) : Prop where
  sound : qic.Sound t
  flag : ∃ d, ∀ k, t.mInterruptFlag k = s.mInterruptFlag (k + d)

theorem Sound.follows (h : qic.Sound s) : qic.Follows s s := ⟨h, 0, fun _ => rfl⟩

theorem Follows.trans {u : CheckerState n} (h : qic.Follows s t) (h' : qic.Follows t u) :
    qic.Follows s u := by
  obtain ⟨d, hd⟩ := h.flag
  obtain ⟨d', hd'⟩ := h'.flag
  refine ⟨h'.sound, d' + d, fun k => ?_⟩
  rw [hd', hd, Nat.add_assoc]

/-- The search was stopped: at some time the flag was set. -/
def Stopped (s : CheckerState n) (e : CheckerException) (_ : CheckerState n) : Prop :=
  e = .interrupted ∧ ∃ k, s.mInterruptFlag k = true

theorem Follows.stopped {e : CheckerException} {u : CheckerState n} (h : qic.Follows s t)
    (hstop : Stopped t e u) : Stopped s e u := by
  obtain ⟨d, hd⟩ := h.flag
  obtain ⟨he, k, hk⟩ := hstop
  exact ⟨he, k + d, by rw [← hd, hk]⟩

/-- The split that was noted consists of two disjoint quorums. -/
def NotedSplit (qic : QuorumIntersectionCheckerImpl n) (Q : QuorumSystem (Fin n))
    (t : CheckerState n) : Prop :=
  ∃ A B, Q.IsQuorum A ∧ Q.IsQuorum B ∧ Disjoint A B ∧
    t.mPotentialSplit = (members qic.mBitNumPubKeys A, members qic.mBitNumPubKeys B)

theorem isAQuorum_after (hs : qic.Sound s) {E : CheckerException → CheckerState n → Prop} :
    After (qic.isAQuorum nodes) s (fun b t =>
      b = decide (qic.contractToMaximalQuorum nodes ≠ ∅) ∧ qic.Follows s t) E := by
  obtain ⟨hkeep, hget⟩ := RandomEvictionCache.Holds.maybeGet hs (k := nodes)
  simp only [isAQuorum, maybeGet, after_bind, after_get, after_set, after_pure]
  cases hres : (s.mCachedQuorums.maybeGet nodes).1 with
  | some b => exact ⟨hget b hres, hkeep, 0, fun _ => rfl⟩
  | none =>
    simp only [put, after_bind, after_modify, after_pure]
    exact ⟨trivial, hkeep.put rfl _, 0, fun _ => rfl⟩

theorem noSubquorum_after {l : List (Fin n)} {E : CheckerException → CheckerState n → Prop}
    (hs : qic.Sound s) : After (qic.noSubquorum nodes l) s (fun b t =>
      (b = true ↔ ∀ i ∈ l, qic.contractToMaximalQuorum (nodes.erase i) = ∅) ∧
      qic.Follows s t) E := by
  induction l generalizing s with
  | nil => exact ⟨by simp, hs.follows⟩
  | cons i l ih =>
    refine (isAQuorum_after hs).bind ?_
    rintro b t ⟨hb, hst⟩
    rw [after_ite]
    refine ⟨fun hb' => ?_, fun hb' => ?_⟩
    · rw [hb, decide_eq_true_eq] at hb'
      refine ⟨⟨fun h => (by cases h), fun h => ?_⟩, hst⟩
      exact absurd (h i List.mem_cons_self) hb'
    · rw [hb, decide_eq_true_eq, not_not] at hb'
      refine (ih hst.sound).imp ?_
      rintro b' u ⟨hb'', htu⟩
      refine ⟨?_, hst.trans htu⟩
      rw [hb'', List.forall_mem_cons]
      exact (and_iff_right hb').symm

section Search
variable (hQ : qic.Represents Q)
include hQ

variable {E : CheckerException → CheckerState n → Prop}

theorem isMinimalQuorum_after (hs : qic.Sound s) (hnodes : Q.IsQuorum nodes) :
    After (qic.isMinimalQuorum nodes) s (fun b t =>
      (b = true ↔ Minimal Q.IsQuorum nodes) ∧ qic.Follows s t) E := by
  have hcontract := (contractToMaximalQuorum_greatest hQ nodes).eq_self hnodes.2
  have hne : nodes ≠ ∅ := nonempty_iff_ne_empty.mp hnodes.1
  simp only [isMinimalQuorum, hcontract, ne_eq, not_true_eq_false, if_false, hne]
  refine (noSubquorum_after hs).imp ?_
  rintro b t ⟨hb, hst⟩
  refine ⟨?_, hst⟩
  rw [hb, minimal_iff hQ hnodes]
  simp only [BitSet.mem_bits]

theorem hasDisjointQuorum_after (hs : qic.Sound s) (hnodes : Q.IsQuorum nodes) :
    After (qic.hasDisjointQuorum scanSCC nodes) s (fun b t =>
      (b = true → qic.NotedSplit Q t) ∧ (b = false → ¬ ∃ U ⊆ scanSCC \ nodes, Q.IsQuorum U) ∧
      qic.Follows s t) E := by
  by_cases hne : qic.contractToMaximalQuorum (scanSCC \ nodes) = ∅
  · simp only [hasDisjointQuorum, hne, ne_eq, not_true_eq_false, if_false, decide_false]
    refine ⟨fun h => (by cases h), fun _ hU => ?_, hs.follows⟩
    exact (contract_ne_empty_iff hQ).mpr hU hne
  · simp only [hasDisjointQuorum, hne, ne_eq, not_false_eq_true, if_true, decide_true,
      noteFoundDisjointQuorums, after_bind, after_modify, after_pure]
    refine ⟨fun _ => ⟨nodes, _, hnodes, isQuorum_contract hQ hne, ?_, rfl⟩, fun h => (by cases h),
      hs, 0, fun _ => rfl⟩
    have hsub := (contractToMaximalQuorum_greatest hQ (scanSCC \ nodes)).subset
    exact disjoint_of_subset_right hsub disjoint_sdiff

omit hQ in
/-- Choosing a node to split on only draws numbers. -/
theorem pickSplitNode_after (hs : qic.Sound s) (h : remaining.Nonempty)
    {E : CheckerException → CheckerState n → Prop} :
    After (qic.pickSplitNode remaining h) s (fun _ t => qic.Follows s t) E := by
  have hedge : ∀ (search : SplitSearch remaining) j t, qic.Follows s t →
      After (countEdge search j) t (fun _ u => qic.Follows s u) E := by
    intro search j t ht
    have hdraw : ∀ r : RandomSource, qic.Follows s { t with random := r } :=
      fun r => ⟨ht.sound, ht.flag⟩
    simp only [countEdge, draw, after_ite, after_bind, after_get, after_set, after_pure]
    exact ⟨fun _ => ⟨fun _ => ⟨fun _ => hdraw _, fun _ => hdraw _⟩, fun _ => ht⟩, fun _ => ht⟩
  refine (After.foldlM (I := fun _ t => qic.Follows s t) ?_ _ hs.follows).bind fun _ _ ht => ht
  exact fun search i t ht => After.foldlM hedge _ ht

/-- What is known when a branch has been searched without success: no small minimal quorum between
the nodes committed to and all nodes of the branch has a quorum beside it. -/
def Exhausted (Q : QuorumSystem (Fin n)) (scanSCC committed remaining : BitSet n) : Prop :=
  ∀ M, Minimal Q.IsQuorum M → committed ⊆ M → M ⊆ committed ∪ remaining →
    M.card ≤ maxCommit scanSCC → ¬ ∃ U ⊆ scanSCC \ M, Q.IsQuorum U

omit hQ in
/-- Deciding of one node whether it is in leaves two branches. -/
theorem exhausted_of_split {split : Fin n}
    (hout : Exhausted Q scanSCC committed (remaining.erase split))
    (hin : Exhausted Q scanSCC (insert split committed) (remaining.erase split)) :
    Exhausted Q scanSCC committed remaining := by
  intro M hM hcM hMr hcard
  by_cases hmem : split ∈ M
  · refine hin M hM (insert_subset hmem hcM) (fun a ha => ?_) hcard
    by_cases heq : a = split
    · simp [heq]
    · rcases mem_union.mp (hMr ha) with hc | hr
      · simp [hc]
      · simp [heq, hr]
  · refine hout M hM hcM (fun a ha => ?_) hcard
    have heq : a ≠ split := fun heq => hmem (heq ▸ ha)
    rcases mem_union.mp (hMr ha) with hc | hr
    · simp [hc]
    · simp [heq, hr]

theorem anyMinQuorumHasDisjointQuorum_after :
    ∀ (committed remaining : BitSet n) (s : CheckerState n), qic.Sound s →
      After (qic.anyMinQuorumHasDisjointQuorum scanSCC committed remaining) s (fun b t =>
        (b = true → qic.NotedSplit Q t) ∧
        (b = false → Exhausted Q scanSCC committed remaining) ∧ qic.Follows s t)
        (Stopped s) := by
  intro committed remaining
  induction hk : remaining.card using Nat.strong_induction_on generalizing committed remaining with
  | _ k ih =>
  intro s hs
  -- A branch that is left without having found anything.
  have hleave : ∀ t, qic.Follows s t → Exhausted Q scanSCC committed remaining →
      (false = true → qic.NotedSplit Q t) ∧
      (false = false → Exhausted Q scanSCC committed remaining) ∧ qic.Follows s t :=
    fun t ht hex => ⟨fun h => (by cases h), fun _ => hex, ht⟩
  rw [anyMinQuorumHasDisjointQuorum]
  simp only [interrupted, after_bind, after_get, after_set, after_pure]
  have hread : qic.Follows s { s with mInterruptFlag := fun k => s.mInterruptFlag (k + 1) } :=
    ⟨hs, 1, fun _ => rfl⟩
  generalize { s with mInterruptFlag := fun k => s.mInterruptFlag (k + 1) } = s₁ at hread ⊢
  rw [after_ite]
  refine ⟨fun hflag => ⟨rfl, 0, hflag⟩, fun _ => ?_⟩
  rw [after_ite]
  refine ⟨fun hcard => ?_, fun _ => ?_⟩
  · refine hleave s₁ hread fun M hM hcM _ hMcard => ?_
    have := card_le_card hcM
    omega
  rw [after_ite]
  refine ⟨fun hcommitted => ?_, fun hcommitted => ?_⟩
  · have hquorum := isQuorum_contract hQ hcommitted
    have hmin : ∀ M, Minimal Q.IsQuorum M → committed ⊆ M →
        qic.contractToMaximalQuorum committed = M := by
      intro M hM hcM
      refine QuorumSystem.eq_of_minimal hM hquorum (Finset.Subset.trans ?_ hcM)
      exact (contractToMaximalQuorum_greatest hQ committed).subset
    refine (isMinimalQuorum_after hQ hread.sound hquorum).bind ?_
    rintro b t ⟨hb, ht⟩
    rw [after_ite]
    refine ⟨fun _ => ?_, fun hnot => ?_⟩
    · refine (hasDisjointQuorum_after hQ ht.sound hquorum).imp ?_
      rintro b u ⟨hnoted, hnone, hu⟩
      refine ⟨hnoted, fun hfalse M hM hcM _ _ => ?_, (hread.trans ht).trans hu⟩
      rw [← hmin M hM hcM]
      exact hnone hfalse
    · refine hleave t (hread.trans ht) fun M hM hcM _ _ => ?_
      rw [← hmin M hM hcM] at hM
      exact absurd (hb.mpr hM) hnot
  · rw [after_ite]
    refine ⟨fun hext => ?_, fun hext => ?_⟩
    · rw [after_ite]
      refine ⟨fun hnot => ?_, fun _ => ?_⟩
      · refine hleave s₁ hread fun M hM hcM hMr _ => absurd (Finset.Subset.trans hcM ?_) hnot
        exact (contractToMaximalQuorum_greatest hQ _).greatest M hMr hM.1.2
      · by_cases hne : remaining.Nonempty
        · rw [dif_pos hne]
          refine (pickSplitNode_after hread.sound hne).bind fun split t ht => ?_
          have hst := hread.trans ht
          have hlt : (remaining.erase split.1).card < k := by
            rw [← hk]
            exact card_erase_lt_of_mem split.2
          rw [after_bind]
          refine (ih _ hlt committed _ rfl t ht.sound).mono ?_ fun _ _ he => hst.stopped he
          rintro b u ⟨hnoted, hout, hu⟩
          rw [after_ite]
          refine ⟨fun hb => ⟨fun _ => hnoted hb, fun h => (by cases h), hst.trans hu⟩, fun hb => ?_⟩
          have hsu := hst.trans hu
          refine (ih _ hlt (insert split.1 committed) _ rfl u hu.sound).mono ?_
            fun _ _ he => hsu.stopped he
          rintro b' w ⟨hnoted', hin, hw⟩
          refine ⟨hnoted', fun hb' => ?_, hsu.trans hw⟩
          exact exhausted_of_split (hout (Bool.eq_false_iff.mpr hb)) (hin hb')
        · rw [dif_neg hne]
          refine hleave s₁ hread fun M hM _ hMr _ => absurd ?_ hcommitted
          rw [not_nonempty_iff_eq_empty.mp hne, union_empty] at hMr
          exact (contract_ne_empty_iff hQ).mpr ⟨M, hMr, hM.1⟩
    · refine hleave s₁ hread fun M hM _ hMr _ => absurd ?_ hext
      exact (contract_ne_empty_iff hQ).mpr ⟨M, hMr, hM.1⟩

/-- What the pass over components that do not meet each other has found. -/
theorem findScanSCC_after {l : List (BitSet n)} {scan : BitSet n} (hs : qic.Sound s)
    (hpair : l.Pairwise Disjoint)
    (hscan : scan ≠ ∅ → qic.contractToMaximalQuorum scan ≠ ∅ ∧ ∀ c ∈ l, Disjoint scan c) :
    After (qic.findScanSCC scan l) s (fun r t =>
      (r.2 = true → r.1 ≠ ∅ ∧ qic.NotedSplit Q t) ∧
      (r.2 = false → (scan ≠ ∅ → r.1 = scan) ∧
        ∀ c ∈ l, qic.contractToMaximalQuorum c ≠ ∅ → c = r.1) ∧ qic.Follows s t) E := by
  induction l generalizing scan with
  | nil => exact ⟨fun h => (by cases h), fun _ => ⟨fun _ => rfl, by simp⟩, hs.follows⟩
  | cons c l ih =>
    obtain ⟨hc, hl⟩ := List.pairwise_cons.mp hpair
    rw [findScanSCC, after_ite]
    refine ⟨fun hq => ?_, fun hq => ?_⟩
    · have hcne : c ≠ ∅ := by
        rintro rfl
        refine hq (subset_empty.mp ?_)
        exact (contractToMaximalQuorum_greatest hQ ∅).subset
      rw [after_ite]
      refine ⟨fun hempty => ?_, fun hne => ?_⟩
      · refine (ih hl fun _ => ⟨hq, hc⟩).imp ?_
        rintro r t ⟨hfound, hnone, ht⟩
        refine ⟨hfound, fun hr => ⟨fun hne => absurd hempty hne, ?_⟩, ht⟩
        exact List.forall_mem_cons.mpr ⟨fun _ => ((hnone hr).1 hcne).symm, (hnone hr).2⟩
      · obtain ⟨hscanq, hdisj⟩ := hscan hne
        refine ⟨fun _ => ⟨hne, _, _, isQuorum_contract hQ hscanq, isQuorum_contract hQ hq, ?_, rfl⟩,
          fun h => (by cases h), hs, 0, fun _ => rfl⟩
        exact disjoint_of_subset_left (contractToMaximalQuorum_greatest hQ scan).subset
          (disjoint_of_subset_right (contractToMaximalQuorum_greatest hQ c).subset
            (hdisj c List.mem_cons_self))
    · refine (ih hl fun hne => (hscan hne).imp_right fun h => (List.forall_mem_cons.mp h).2).imp ?_
      rintro r t ⟨hfound, hnone, ht⟩
      refine ⟨hfound, fun hr => ⟨(hnone hr).1, ?_⟩, ht⟩
      exact List.forall_mem_cons.mpr ⟨fun hq' => absurd hq' hq, (hnone hr).2⟩

/-- A minimal quorum lies within one component. -/
theorem exists_component (M : BitSet n) (hM : Minimal Q.IsQuorum M) : ∃ c ∈ qic.mSCCs, M ⊆ c := by
  obtain ⟨a, ha⟩ := hM.1.1
  obtain ⟨c, hc, hac⟩ := hQ.components.cover a
  exact ⟨c, hc, QuorumSystem.subset_of_minimal hM ha fun b hab =>
    hQ.components.mem_of_reaches hc hac hab.1 hab.2⟩

theorem networkEnjoysQuorumIntersection_after (hs : qic.Sound s) :
    After qic.networkEnjoysQuorumIntersection s (fun enjoys t =>
      (enjoys = false → qic.NotedSplit Q t) ∧
      (enjoys = true → ∀ A B, Q.IsQuorum A → Q.IsQuorum B → ¬ Disjoint A B) ∧
      qic.Follows s t) (Stopped s) := by
  refine (findScanSCC_after hQ hs hQ.components.disjoint fun h => absurd rfl h).bind ?_
  rintro r t ⟨hfound, hnone, ht⟩
  obtain ⟨scan, found⟩ := r
  -- Every minimal quorum is in the component to scan, if there is no second one.
  have hscan : found = false → ∀ M, Minimal Q.IsQuorum M → M ⊆ scan := by
    intro hfalse M hM
    obtain ⟨c, hc, hMc⟩ := exists_component hQ M hM
    have heq : c = scan :=
      (hnone hfalse).2 c hc ((contract_ne_empty_iff hQ).mpr ⟨M, hMc, hM.1⟩)
    rwa [← heq]
  rw [after_ite]
  refine ⟨fun hempty => ?_, fun hne => ?_⟩
  · have hfalse : found = false := by
      by_contra htrue
      exact (hfound (Bool.eq_true_of_not_eq_false htrue)).1 hempty
    refine ⟨fun h => (by cases h), fun _ A B hA _ _ => ?_, ht⟩
    obtain ⟨M, -, hM⟩ := hA.exists_minimal
    obtain ⟨a, ha⟩ := hM.1.1
    have hmem := hscan hfalse M hM ha
    rw [hempty] at hmem
    simp at hmem
  rw [after_ite]
  refine ⟨fun htrue => ⟨fun _ => (hfound htrue).2, fun h => (by cases h), ht⟩, fun hnot => ?_⟩
  have hfalse := Bool.eq_false_of_not_eq_true hnot
  rw [after_bind]
  refine (anyMinQuorumHasDisjointQuorum_after hQ ∅ scan t ht.sound).mono ?_
    fun _ _ he => ht.stopped he
  rintro b u ⟨hnoted, hex, hu⟩
  refine ⟨fun hb => hnoted (by simpa using hb), fun hb A B hA hB hdisj => ?_, ht.trans hu⟩
  have hexhausted := hex (by simpa using hb)
  -- A minimal quorum that is small enough is found.
  have hsmall : ∀ M N, Minimal Q.IsQuorum M → Minimal Q.IsQuorum N → Disjoint M N →
      ¬ M.card ≤ scan.card / 2 := by
    intro M N hM hN hMN hcard
    refine hexhausted M hM (empty_subset M) ?_ hcard ⟨N, ?_, hN.1⟩
    · rw [empty_union]
      exact hscan hfalse M hM
    · exact subset_sdiff.mpr ⟨hscan hfalse N hN, hMN.symm⟩
  obtain ⟨M, hMA, hM⟩ := hA.exists_minimal
  obtain ⟨N, hNB, hN⟩ := hB.exists_minimal
  have hMN : Disjoint M N := disjoint_of_subset_left hMA
    (disjoint_of_subset_right hNB hdisj)
  rcases QuorumSystem.card_le_half (hscan hfalse M hM) (hscan hfalse N hN) hMN with hle | hle
  · exact hsmall M N hM hN hMN hle
  · exact hsmall N M hN hM hMN.symm hle

end Search
end QuorumIntersectionCheckerImpl

/-! ## The quorum map -/

open QuorumIntersectionCheckerImpl

namespace QuorumMap
variable {qmap : QuorumMap} {v : NodeID} {q : SCPQuorumSet}

theorem mem_live : (v, q) ∈ qmap.live ↔ (v, some q) ∈ qmap.entries := by
  rw [live, List.mem_filterMap]
  constructor
  · rintro ⟨⟨w, q'⟩, hmem, heq⟩
    obtain ⟨q'', hq'', heq⟩ := Option.map_eq_some_iff.mp heq
    obtain ⟨rfl, rfl⟩ := Prod.mk.inj heq
    dsimp only at hq''
    rwa [hq''] at hmem
  · intro hmem
    exact ⟨_, hmem, rfl⟩

/-- The node with a number. -/
def key (qmap : QuorumMap) (i : Fin qmap.size) : NodeID := (qmap.live.get i).1

theorem live_nodup : (qmap.live.map Prod.fst).Nodup := by
  rw [List.Nodup, List.pairwise_map, live, List.pairwise_filterMap]
  refine (List.pairwise_map.mp qmap.nodup).imp fun {a b} hne a' ha b' hb => ?_
  obtain ⟨q, -, rfl⟩ := Option.map_eq_some_iff.mp ha
  obtain ⟨q', -, rfl⟩ := Option.map_eq_some_iff.mp hb
  exact hne

theorem pubKeyBitNum_iff {i : Fin qmap.size} : pubKeyBitNum qmap v = some i ↔ qmap.key i = v := by
  have hsome : ∀ {w : NodeID} {j : Fin qmap.size},
      pubKeyBitNum qmap w = some j → qmap.key j = w := by
    intro w j hj
    have hfound := List.find?_some hj
    exact of_decide_eq_true hfound
  refine ⟨hsome, fun hi => ?_⟩
  have hfound : (pubKeyBitNum qmap v).isSome = true :=
    List.find?_isSome.mpr ⟨i, List.mem_finRange i, decide_eq_true hi⟩
  obtain ⟨j, hj⟩ := Option.isSome_iff_exists.mp hfound
  have heq : qmap.live.get i = qmap.live.get j :=
    List.inj_on_of_nodup_map live_nodup (List.get_mem _ _) (List.get_mem _ _)
      (hi.trans (hsome hj).symm)
  rw [hj, (List.Nodup.of_map _ live_nodup).get_inj_iff.mp heq]

/-- The nodes that have quorum sets, each with its slices. -/
def quorumSystem (qmap : QuorumMap) : QuorumSystem (Fin qmap.size) where
  Satisfies S i := isQuorumSlice (qmap.live.get i).2 (members qmap.key S) = true
  successors i := (buildGraph qmap i).mAllSuccessors
  mono hST h := isQuorumSlice_mono (fun _ hv => members_mono hST hv) h
  inter_successors {S i} h := by
    refine isQuorumSlice_mono (fun v hv => ?_)
      (isQuorumSlice_filter (fun v hv => decide_eq_true hv) h)
    obtain ⟨hmem, hv⟩ := List.mem_filter.mp hv
    obtain ⟨j, hj, rfl⟩ := mem_members.mp hmem
    refine mem_members.mpr ⟨j, mem_inter.mpr ⟨hj, ?_⟩, rfl⟩
    rw [buildGraph, mem_mAllSuccessors fun v i => pubKeyBitNum_iff]
    exact of_decide_eq_true hv

/-- Numbers of a quorum stand for a quorum. -/
theorem isQuorum_members {A : BitSet qmap.size} (hA : qmap.quorumSystem.IsQuorum A) :
    qmap.IsQuorum {v | v ∈ members qmap.key A} := by
  obtain ⟨⟨i, hi⟩, hclosed⟩ := hA
  refine ⟨⟨qmap.key i, mem_members.mpr ⟨i, hi, rfl⟩⟩, fun v hv => ?_⟩
  obtain ⟨j, hj, rfl⟩ := mem_members.mp hv
  exact ⟨(qmap.live.get j).2, mem_live.mp (List.get_mem _ _), _, fun _ hw => hw, hclosed j hj⟩

open Classical in
/-- The numbers of a set of nodes. -/
noncomputable def numbers (qmap : QuorumMap) (U : Set NodeID) : BitSet qmap.size :=
  univ.filter fun i => qmap.key i ∈ U

theorem mem_numbers {U : Set NodeID} {i : Fin qmap.size} :
    i ∈ qmap.numbers U ↔ qmap.key i ∈ U := by
  simp [numbers]

theorem exists_number (h : (v, some q) ∈ qmap.entries) :
    ∃ i, qmap.key i = v ∧ (qmap.live.get i).2 = q := by
  obtain ⟨i, hi⟩ := List.get_of_mem (mem_live.mpr h)
  exact ⟨i, by rw [key, hi], by rw [hi]⟩

theorem isQuorum_numbers {U : Set NodeID} (hU : qmap.IsQuorum U) :
    qmap.quorumSystem.IsQuorum (qmap.numbers U) := by
  obtain ⟨⟨v, hv⟩, hclosed⟩ := hU
  refine ⟨?_, fun i hi => ?_⟩
  · obtain ⟨q, hq, -⟩ := hclosed v hv
    obtain ⟨i, rfl, -⟩ := exists_number hq
    exact ⟨i, mem_numbers.mpr hv⟩
  · obtain ⟨q, hq, slice, hslice, hsat⟩ := hclosed _ (mem_numbers.mp hi)
    obtain ⟨j, hkey, rfl⟩ := exists_number hq
    obtain rfl : j = i := key_injective (fun v i => pubKeyBitNum_iff) hkey
    refine isQuorumSlice_mono (fun w hw => ?_) hsat
    obtain ⟨q', hq', -⟩ := hclosed w (hslice w hw)
    obtain ⟨k, rfl, -⟩ := exists_number hq'
    exact mem_members.mpr ⟨k, mem_numbers.mpr (hslice _ hw), rfl⟩

/-- The constructor builds a checker of the quorum system. -/
theorem exists_checker
    (hsane : ∀ v q, (v, some q) ∈ qmap.entries → isQuorumSetSane q false = true) :
    ∃ qic, create qmap = some qic ∧ qic.mBitNumPubKeys = qmap.key ∧
      qic.Represents qmap.quorumSystem := by
  obtain ⟨tsc, htsc, hcomponents, -⟩ :=
    TarjanSCCCalculator.calculateSCCs_spec fun i => (buildGraph qmap i).mAllSuccessors
  refine ⟨⟨qmap.key, buildGraph qmap, tsc.mSCCs⟩, ?_, rfl, fun S i => ?_, hcomponents⟩
  · rw [create, htsc]
    rfl
  · have hq := hsane _ _ (mem_live.mp (List.get_mem qmap.live i))
    exact containsQuorumSlice_iff (fun v i => pubKeyBitNum_iff) _
      (wellFormed_of_isQuorumSetSane hq) (nodup_of_isQuorumSetSane hq)

end QuorumMap

/-- Unless it is interrupted, the check returns; it finds a split just if there are two disjoint
quorums, and then notes two. -/
theorem networkEnjoysQuorumIntersection_exact (qmap : QuorumMap)
    (hsane : ∀ v q, (v, some q) ∈ qmap.entries → isQuorumSetSane q false = true) :
    ∃ qic, create qmap = some qic ∧ ∀ s, qic.Sound s →
      After qic.networkEnjoysQuorumIntersection s (fun enjoys t =>
        (enjoys = false ↔ ∃ U V, qmap.IsQuorum U ∧ qmap.IsQuorum V ∧ Disjoint U V) ∧
        (enjoys = false →
          qmap.IsQuorum {v | v ∈ t.mPotentialSplit.1} ∧
          qmap.IsQuorum {v | v ∈ t.mPotentialSplit.2} ∧
          t.mPotentialSplit.1.Disjoint t.mPotentialSplit.2) ∧
        qic.Sound t)
        (fun e _ => e = .interrupted ∧ ∃ k, s.mInterruptFlag k = true) := by
  obtain ⟨qic, hcreate, hkey, hQ⟩ := exists_checker hsane
  refine ⟨qic, hcreate, fun s hs => ?_⟩
  refine (networkEnjoysQuorumIntersection_after hQ hs).imp ?_
  rintro enjoys t ⟨hnoted, hnone, ht⟩
  have hsplit : enjoys = false →
      qmap.IsQuorum {v | v ∈ t.mPotentialSplit.1} ∧
      qmap.IsQuorum {v | v ∈ t.mPotentialSplit.2} ∧
      t.mPotentialSplit.1.Disjoint t.mPotentialSplit.2 := by
    intro hfalse
    obtain ⟨A, B, hA, hB, hdisj, hsplit⟩ := hnoted hfalse
    rw [hsplit, hkey]
    refine ⟨isQuorum_members hA, isQuorum_members hB, fun v hv hv' => ?_⟩
    obtain ⟨i, hi, rfl⟩ := mem_members.mp hv
    obtain ⟨j, hj, heq⟩ := mem_members.mp hv'
    rw [key_injective (fun v i => pubKeyBitNum_iff) heq] at hj
    exact disjoint_left.mp hdisj hi hj
  refine ⟨⟨fun hfalse => ?_, ?_⟩, hsplit, ht.sound⟩
  · obtain ⟨hU, hV, hdisj⟩ := hsplit hfalse
    exact ⟨_, _, hU, hV, Set.disjoint_left.mpr fun v hv hv' => hdisj hv hv'⟩
  · rintro ⟨U, V, hU, hV, hdisj⟩
    by_contra htrue
    refine hnone (Bool.eq_true_of_not_eq_false htrue) _ _ (isQuorum_numbers hU)
      (isQuorum_numbers hV) (disjoint_left.mpr fun i hi hi' => ?_)
    exact Set.disjoint_left.mp hdisj (mem_numbers.mp hi) (mem_numbers.mp hi')

/-- Two nodes that only trust themselves, and one without a quorum set. -/
def islands : QuorumMap where
  entries := [(0, some (.mk 1 [0] [])), (1, some (.mk 1 [1] [])), (2, none)]
  nodup := by decide

/-- A node that only trusts itself is a quorum. -/
theorem islands_isQuorum {v : NodeID} (h : (v, some (.mk 1 [v] [])) ∈ islands.entries) :
    islands.IsQuorum {v} := by
  refine ⟨⟨v, rfl⟩, fun w hw => ?_⟩
  obtain rfl : w = v := hw
  refine ⟨_, h, (SCPQuorumSet.satisfiedBy_unanimous rfl (by decide)).mpr ?_⟩
  simp

/-- The islands are found to be apart. -/
theorem islands_apart : ∃ qic, create islands = some qic ∧
    After qic.networkEnjoysQuorumIntersection { random := fun _ => 0, mInterruptFlag := fun _ => false }
      (fun enjoys _ => enjoys = false) (fun _ _ => False) := by
  have hsane : ∀ v q, (v, some q) ∈ islands.entries → isQuorumSetSane q false = true := by
    intro v q h
    simp only [islands, List.mem_cons, Prod.mk.injEq, Option.some.injEq, reduceCtorEq, and_false,
      List.not_mem_nil, or_false] at h
    rcases h with ⟨-, rfl⟩ | ⟨-, rfl⟩
    · exact isQuorumSetSane_singleton 0
    · exact isQuorumSetSane_singleton 1
  obtain ⟨qic, hcreate, hexact⟩ := networkEnjoysQuorumIntersection_exact islands hsane
  have hsound : qic.Sound { random := fun _ => 0, mInterruptFlag := fun _ => false } :=
    RandomEvictionCache.holds_empty _
  refine ⟨qic, hcreate, (hexact _ hsound).mono ?_ ?_⟩
  · rintro enjoys t ⟨hiff, -, -⟩
    refine hiff.mpr ⟨{0}, {1}, islands_isQuorum ?_, islands_isQuorum ?_, ?_⟩
    · simp [islands]
    · simp [islands]
    · simp
  · rintro e t ⟨-, k, hk⟩
    cases hk

/-- If no node of a network is ill-behaved and the check of their quorum sets finds no split, the
statements signed in any run accept commits of one value only. -/
theorem enjoys_agreement (N : Network) (hfaulty : N.faulty = ∅) (qmap : QuorumMap)
    (hqmap : ∀ v q, (v, some q) ∈ qmap.entries ↔ v ∈ N.nodes ∧ q = (N.node v).mQSet) :
    ∃ qic, create qmap = some qic ∧ ∀ s, qic.Sound s →
      After qic.networkEnjoysQuorumIntersection s (fun enjoys _ => enjoys = true →
        ∀ slotIndex σ past, N.Runs slotIndex (fun _ => True) σ past →
          {x | N.Accepts σ x}.Subsingleton) (Stopped s) := by
  have hsane : ∀ v ∈ N.nodes, isQuorumSetSane (N.node v).mQSet false = true :=
    fun v hv => N.sane v hv (by simp [hfaulty])
  obtain ⟨qic, hcreate, -, hQ⟩ := exists_checker fun v q hq => by
    obtain ⟨hv, rfl⟩ := (hqmap v q).mp hq
    exact hsane v hv
  refine ⟨qic, hcreate, fun s hs => (networkEnjoysQuorumIntersection_after hQ hs).imp ?_⟩
  rintro enjoys t ⟨-, hmeet, -⟩ henjoys slotIndex σ past hrun
  have hquorum : ∀ U ∈ N.quorums, qmap.IsQuorum U := fun U hU => ⟨hU.2.1, fun v hv =>
    ⟨_, (hqmap v _).mpr ⟨(hU.1 v hv).1, rfl⟩, (hU.2.2 v hv).mono (by simp [hfaulty])⟩⟩
  have hN : N.Dispensable := by
    refine ⟨fun v hv => ⟨forAllNodes (N.node v).mQSet, by simp [hfaulty], ?_⟩, fun U hU V hV => ?_⟩
    · exact isQuorumSlice_of_not_isVBlockingSet (wellFormed_of_isQuorumSetSane (hsane v hv.1))
        (fun n hn _ => hn) (isVBlockingSet_nil _)
    · obtain ⟨i, hi, hi'⟩ := not_disjoint_iff.mp (hmeet henjoys _ _
        (isQuorum_numbers (hquorum U hU)) (isQuorum_numbers (hquorum V hV)))
      exact ⟨_, mem_numbers.mp hi, mem_numbers.mp hi'⟩
  have hfree : ∀ v ∈ N.correct, ¬ N.Captured v := by
    rintro v - ⟨slice, hslice, h⟩
    obtain ⟨n, -, hn⟩ := exists_mem_of_isQuorumSlice h
    exact absurd (hslice n hn) (by simp [hfaulty])
  obtain ⟨F, hok, -⟩ := (safeInvariant_holds hN hfree).runs hrun
  exact accepts_subsingleton hok

def pairMap : QuorumMap where
  entries := [(0, some (pairQSet 0)), (1, some (pairQSet 1))]
  nodup := by decide

theorem pair_enjoys_agreement : ∃ qic, create pairMap = some qic ∧ ∀ s, qic.Sound s →
    After qic.networkEnjoysQuorumIntersection s (fun enjoys _ => enjoys = true →
      ∀ slotIndex σ past, pair.Runs slotIndex (fun _ => True) σ past →
        {x | pair.Accepts σ x}.Subsingleton) (Stopped s) := by
  refine enjoys_agreement pair ?_ pairMap fun v q => ?_
  · simp [pair, plainNetwork]
  · simp only [pair, pairMap, plainNetwork, plainNode, pairQSet]
    grind

end DigitalBits.Herder
