import DigitalBits.Scp.Types

/-!
# Quorum slices, blocking sets and quorums

The static tests of `LocalNode.cpp`. Both recursive tests count down one
counter over the validators and then over the inner sets of a quorum set, and
return as soon as it reaches zero; `countdown` is that loop over the sequence
of hits. `isQuorum` drops the nodes whose own quorum set is not satisfied until
nothing changes.
-/
namespace DigitalBits.Scp
open SCPQuorumSet List

/-- One loop of the threshold tests: every hit decrements the counter, and the
test succeeds when a decrement leaves nothing to count. -/
def countdown {α : Type} [LE α] [Zero α] [DecidableLE α] (decrement : α → α) (left : α) :
    List Bool → Bool
  | [] => false
  | hit :: rest =>
    if hit then
      if decrement left ≤ 0 then true else countdown decrement (decrement left) rest
    else countdown decrement left rest

/-- A result of the type `int`, which wraps around. -/
def int32 (x : Int) : Int := x.bmod (2 ^ 32)

namespace LocalNode

mutual

/-- `LocalNode::isQuorumSliceInternal`; `thresholdLeft` is a `uint32`. -/
def isQuorumSliceInternal (nodeSet : List NodeID) : SCPQuorumSet → Bool
  | .mk threshold validators innerSets =>
    countdown (· - 1) threshold (validators.map (fun v => decide (v ∈ nodeSet)) ++
      innerSliceHits nodeSet innerSets)

/-- The hits of the loop over the inner sets. -/
def innerSliceHits (nodeSet : List NodeID) : List SCPQuorumSet → List Bool
  | [] => []
  | inner :: rest => isQuorumSliceInternal nodeSet inner :: innerSliceHits nodeSet rest

end

def isQuorumSlice (qSet : SCPQuorumSet) (nodeSet : List NodeID) : Bool :=
  isQuorumSliceInternal nodeSet qSet

mutual

/-- `LocalNode::isVBlockingInternal`; `leftTillBlock` is an `int`, converted from `size_t`. -/
def isVBlockingInternal (nodeSet : List NodeID) : SCPQuorumSet → Bool
  | .mk threshold validators innerSets =>
    if threshold = 0 then false
    else countdown (fun leftTillBlock => int32 (leftTillBlock - 1))
      (int32 (1 + (validators.length : Int) + innerSets.length - threshold.val))
      (validators.map (fun v => decide (v ∈ nodeSet)) ++ innerBlockingHits nodeSet innerSets)

/-- The hits of the loop over the inner sets. -/
def innerBlockingHits (nodeSet : List NodeID) : List SCPQuorumSet → List Bool
  | [] => []
  | inner :: rest => isVBlockingInternal nodeSet inner :: innerBlockingHits nodeSet rest

end

/-- `LocalNode::isVBlocking` on a set of nodes. -/
def isVBlockingSet (qSet : SCPQuorumSet) (nodeSet : List NodeID) : Bool :=
  isVBlockingInternal nodeSet qSet

/-- `std::map<NodeID, SCPEnvelopeWrapperPtr>`. No caller depends on the order in
which the map is walked. -/
abbrev EnvelopeMap (π : Type) := AList (fun _ : NodeID => SCPEnvelope π)

variable {π : Type}

/-- The nodes of the map whose statement passes the filter. -/
def filteredNodes (map : EnvelopeMap π) (filter : SCPStatement π → Bool) : List NodeID :=
  (map.entries.filter fun it => filter it.2.statement).map Sigma.fst

/-- `LocalNode::isVBlocking` on the statements that pass a filter. -/
def isVBlocking (qSet : SCPQuorumSet) (map : EnvelopeMap π)
    (filter : SCPStatement π → Bool) : Bool :=
  isVBlockingSet qSet (filteredNodes map filter)

/-- The `quorumFilter` of `isQuorum`: the quorum set of the node's statement is
known and satisfied by `pNodes`. -/
def quorumFilter (map : EnvelopeMap π) (qfun : SCPStatement π → Option SCPQuorumSet)
    (pNodes : List NodeID) (nodeID : NodeID) : Bool :=
  match map.lookup nodeID with
  | none => false
  | some e =>
    match qfun e.statement with
    | none => false
    | some qSet => isQuorumSlice qSet pNodes

/-- The `do ... while` loop of `isQuorum`. Every pass but the last drops a node,
so `fuel = pNodes.length` passes are never exceeded. -/
def quorumLoop (map : EnvelopeMap π) (qfun : SCPStatement π → Option SCPQuorumSet) :
    ℕ → List NodeID → List NodeID
  | 0, pNodes => pNodes.filter (quorumFilter map qfun pNodes)
  | fuel + 1, pNodes =>
    let fNodes := pNodes.filter (quorumFilter map qfun pNodes)
    if pNodes.length ≠ fNodes.length then quorumLoop map qfun fuel fNodes else fNodes

/-- `LocalNode::isQuorum`. -/
def isQuorum (qSet : SCPQuorumSet) (map : EnvelopeMap π)
    (qfun : SCPStatement π → Option SCPQuorumSet) (filter : SCPStatement π → Bool) : Bool :=
  let pNodes := filteredNodes map filter
  isQuorumSlice qSet (quorumLoop map qfun pNodes.length pNodes)

mutual

/-- The nodes `LocalNode::forAllNodes` visits, in its order. -/
def forAllNodes : SCPQuorumSet → List NodeID
  | .mk _ validators innerSets => validators ++ forAllInnerNodes innerSets

/-- The nodes of the inner sets. -/
def forAllInnerNodes : List SCPQuorumSet → List NodeID
  | [] => []
  | inner :: rest => forAllNodes inner ++ forAllInnerNodes rest

end

/-- `LocalNode::computeWeight`: the share `threshold / total` of `m`, rounded up. The
assertion is the `none` case. -/
def computeWeight (m : Uint64) (total : ℕ) (threshold : Uint32) : Option Uint64 :=
  if threshold.val ≤ total then
    some (Fin.ofNat (2 ^ 64) ((m.val * threshold.val + total - 1) / total))
  else none

mutual

/-- `LocalNode::getNodeWeight`. -/
def getNodeWeight (nodeID : NodeID) : SCPQuorumSet → Option Uint64
  | .mk threshold validators innerSets => do
    let d := innerSets.length + validators.length
    if nodeID ∈ validators then computeWeight (Fin.last (2 ^ 64 - 1)) d threshold
    else
      let leafW ← getInnerWeight nodeID innerSets
      if leafW ≠ 0 then computeWeight leafW d threshold else return 0

/-- The weight in the first inner set in which the node has one. -/
def getInnerWeight (nodeID : NodeID) : List SCPQuorumSet → Option Uint64
  | [] => some 0
  | q :: rest => do
    let leafW ← getNodeWeight nodeID q
    if leafW ≠ 0 then return leafW else getInnerWeight nodeID rest

end

/-- `LocalNode::buildSingletonQSet`. -/
def buildSingletonQSet (nodeID : NodeID) : SCPQuorumSet := .mk 1 [nodeID] []

end LocalNode

/-! ## What the counters decide -/

/-- An `int` counter that starts below one needs one hit, but for the least one, which wraps. -/
def hitsToBlock (left : Int) : Int := if left = -2 ^ 31 then 2 ^ 31 else max 1 left

theorem hitsToBlock_of_pos {left : Int} (h : 1 ≤ left) : hitsToBlock left = left := by
  rw [hitsToBlock, if_neg (by omega), max_eq_right h]

theorem hitsToBlock_pos (left : Int) : 1 ≤ hitsToBlock left := by
  unfold hitsToBlock
  split_ifs <;> omega

theorem int32_range (x : Int) : -2 ^ 31 ≤ int32 x ∧ int32 x < 2 ^ 31 := by
  rw [int32, Int.bmod_def]
  split_ifs <;> omega

theorem int32_sub_one {left : Int} (hlow : -2 ^ 31 ≤ left) (hhigh : left < 2 ^ 31) :
    int32 (left - 1) = if left = -2 ^ 31 then 2 ^ 31 - 1 else left - 1 := by
  rw [int32, Int.bmod_def]
  split_ifs <;> omega

theorem countdown_int32 {left : Int} (hlow : -2 ^ 31 ≤ left) (hhigh : left < 2 ^ 31)
    (hits : List Bool) :
    countdown (fun left => int32 (left - 1)) left hits = true ↔
      hitsToBlock left ≤ hits.count true := by
  induction hits generalizing left with
  | nil =>
    have hpos := hitsToBlock_pos left
    simp only [countdown, count_nil, Bool.false_eq_true, false_iff]
    omega
  | cons hit rest ih =>
    cases hit with
    | false => simpa [countdown] using ih hlow hhigh
    | true =>
      simp only [countdown, if_true, count_cons_self, int32_sub_one hlow hhigh]
      by_cases hleast : left = -2 ^ 31
      · -- the counter goes on from the greatest `int`
        have hnext := @ih (2 ^ 31 - 1) (by decide) (by decide)
        rw [hitsToBlock_of_pos (by decide)] at hnext
        subst hleast
        rw [if_pos rfl, if_neg (by decide), hnext, hitsToBlock, if_pos rfl]
        omega
      · simp only [hleast, if_false]
        split_ifs with h
        · rw [hitsToBlock, if_neg hleast, max_eq_left (by omega)]
          simp
        · rw [ih (by omega) (by omega), hitsToBlock_of_pos (by omega),
            hitsToBlock_of_pos (by omega)]
          omega

/-- A `uint32` counter that starts at zero wraps and needs `2 ^ 32` hits. -/
def hitsNeeded (threshold : Uint32) : ℕ := if threshold = 0 then 2 ^ 32 else threshold.val

theorem hitsNeeded_pos (threshold : Uint32) : 0 < hitsNeeded threshold := by
  unfold hitsNeeded
  split_ifs with h
  · decide
  · exact Nat.pos_of_ne_zero fun h0 => h (Fin.ext h0)

theorem countdown_uint32 (left : Uint32) (hits : List Bool) :
    countdown (· - 1) left hits = true ↔ hitsNeeded left ≤ hits.count true := by
  induction hits generalizing left with
  | nil =>
    have := hitsNeeded_pos left
    simp only [countdown, count_nil, Bool.false_eq_true, false_iff]
    omega
  | cons hit rest ih =>
    cases hit with
    | false => simpa [countdown] using ih left
    | true =>
      simp only [countdown, if_true, count_cons_self]
      have hstep : hitsNeeded left = (left - 1 : Uint32).val + 1 := by
        unfold hitsNeeded
        split_ifs with h
        · subst h; rfl
        · have hpos : (1 : Uint32) ≤ left := Fin.one_le_of_ne_zero h
          rw [Fin.sub_val_of_le hpos]
          have : 0 < left.val := Nat.pos_of_ne_zero fun h0 => h (Fin.ext h0)
          change left.val = left.val - 1 + 1
          omega
      split_ifs with h
      · have h0 : (left - 1 : Uint32).val = 0 := Nat.le_zero.mp h
        simp only [true_iff]
        omega
      · have h0 : left - 1 ≠ 0 := fun h0 => h (by rw [h0])
        rw [ih, hstep, hitsNeeded, if_neg h0]
        omega

/-! ## Slices and blocking sets -/

/-- Every threshold, to any depth, is between one and the number of entries, and
that number fits an `int`. -/
inductive SCPQuorumSet.WellFormed : SCPQuorumSet → Prop
  | mk {t : Uint32} {v : List NodeID} {i : List SCPQuorumSet} (hpos : 1 ≤ t.val)
      (hle : t.val ≤ v.length + i.length) (hlt : v.length + i.length < 2 ^ 31)
      (hi : ∀ q ∈ i, WellFormed q) : WellFormed (.mk t v i)

/-- Every threshold, to any depth, is more than half of the entries. -/
inductive SCPQuorumSet.Majority : SCPQuorumSet → Prop
  | mk {t : Uint32} {v : List NodeID} {i : List SCPQuorumSet}
      (hlt : v.length + i.length < t.val + t.val) (hi : ∀ q ∈ i, Majority q) : Majority (.mk t v i)

namespace LocalNode

theorem innerSliceHits_eq (nodeSet : List NodeID) (i : List SCPQuorumSet) :
    innerSliceHits nodeSet i = i.map (isQuorumSliceInternal nodeSet) := by
  induction i with
  | nil => simp [innerSliceHits]
  | cons q i ih => simp [innerSliceHits, ih]

theorem innerBlockingHits_eq (nodeSet : List NodeID) (i : List SCPQuorumSet) :
    innerBlockingHits nodeSet i = i.map (isVBlockingInternal nodeSet) := by
  induction i with
  | nil => simp [innerBlockingHits]
  | cons q i ih => simp [innerBlockingHits, ih]

/-- A slice holds when enough validators and inner sets are hit. -/
theorem isQuorumSliceInternal_iff (nodeSet : List NodeID) (t : Uint32) (v : List NodeID)
    (i : List SCPQuorumSet) :
    isQuorumSliceInternal nodeSet (.mk t v i) = true ↔
      hitsNeeded t ≤ v.countP (fun n => decide (n ∈ nodeSet)) +
        i.countP (isQuorumSliceInternal nodeSet) := by
  simp [isQuorumSliceInternal, countdown_uint32, innerSliceHits_eq, count, countP_map,
    Function.comp_def]

theorem isVBlockingInternal_count (nodeSet : List NodeID) (t : Uint32) (v : List NodeID)
    (i : List SCPQuorumSet) :
    isVBlockingInternal nodeSet (.mk t v i) = true ↔ t ≠ 0 ∧
      hitsToBlock (int32 (1 + ((v.length + i.length : ℕ) : Int) - t.val)) ≤
        (v.countP (fun n => decide (n ∈ nodeSet)) + i.countP (isVBlockingInternal nodeSet) : ℕ) := by
  obtain ⟨hlow, hhigh⟩ := int32_range (1 + ((v.length + i.length : ℕ) : Int) - t.val)
  by_cases ht : t = 0
  · simp [isVBlockingInternal, ht]
  · rw [isVBlockingInternal, if_neg ht, add_assoc, ← Nat.cast_add, countdown_int32 hlow hhigh]
    simp [ht, innerBlockingHits_eq, count, countP_map, Function.comp_def]

/-- In a well formed set `1 + entries - threshold` hits block every slice. -/
theorem isVBlockingInternal_iff {nodeSet : List NodeID} {t : Uint32} {v : List NodeID}
    {i : List SCPQuorumSet} (hq : SCPQuorumSet.WellFormed (.mk t v i)) :
    isVBlockingInternal nodeSet (.mk t v i) = true ↔
      1 + (v.length + i.length) ≤ t.val + (v.countP (fun n => decide (n ∈ nodeSet)) +
        i.countP (isVBlockingInternal nodeSet)) := by
  cases hq with
  | mk hpos hle hlt hi =>
    have ht : t ≠ 0 := fun h => absurd hpos (by rw [h]; decide)
    rw [isVBlockingInternal_count, and_iff_right ht, int32,
      Int.bmod_eq_of_le_mul_two (by omega) (by omega), hitsToBlock_of_pos (by omega)]
    omega

theorem hitsNeeded_of_pos {t : Uint32} (h : 1 ≤ t.val) : hitsNeeded t = t.val :=
  if_neg fun h0 => absurd h (by rw [h0]; decide)

variable {t s : List NodeID} {q : SCPQuorumSet}

/-- More nodes satisfy more. -/
theorem isQuorumSlice_mono (hst : ∀ n ∈ s, n ∈ t) (hs : isQuorumSlice q s = true) :
    isQuorumSlice q t = true := by
  unfold isQuorumSlice at hs ⊢
  induction q using induction with
  | mk k v i ih =>
    rw [isQuorumSliceInternal_iff] at hs ⊢
    refine hs.trans (Nat.add_le_add ?_ ?_)
    · exact countP_mono_left fun n _ hn => by simpa using hst n (by simpa using hn)
    · exact countP_mono_left fun q hq hqs => ih q hq hqs

/-- No set needs nothing. -/
theorem isQuorumSlice_nil (q : SCPQuorumSet) : isQuorumSlice q [] = false := by
  unfold isQuorumSlice
  rw [Bool.eq_false_iff]
  induction q using induction with
  | mk t v i ih =>
    rw [Ne, isQuorumSliceInternal_iff]
    have hv : v.countP (fun n => decide (n ∈ ([] : List NodeID))) = 0 := by simp
    have hi : i.countP (isQuorumSliceInternal []) = 0 := countP_eq_zero.mpr ih
    have hpos := hitsNeeded_pos t
    omega

theorem forAllInnerNodes_eq (i : List SCPQuorumSet) :
    forAllInnerNodes i = i.flatMap forAllNodes := by
  induction i with
  | nil => simp [forAllInnerNodes]
  | cons q i ih => simp [forAllInnerNodes, ih]

/-- Only the nodes of the set matter. -/
theorem isQuorumSlice_filter {p : NodeID → Bool} (hp : ∀ n ∈ forAllNodes q, p n = true)
    (hs : isQuorumSlice q s = true) :
    isQuorumSlice q (s.filter p) = true := by
  unfold isQuorumSlice at hs ⊢
  induction q using induction with
  | mk k v i ih =>
    rw [forAllNodes, forAllInnerNodes_eq] at hp
    rw [isQuorumSliceInternal_iff] at hs ⊢
    refine hs.trans (Nat.add_le_add ?_ ?_)
    · refine countP_mono_left fun n hn hns => ?_
      have hpn := hp n (mem_append_left _ hn)
      simpa [hpn] using hns
    · refine countP_mono_left fun q hq hqs => ih q hq (fun n hn => ?_) hqs
      exact hp n (mem_append_right _ (mem_flatMap.mpr ⟨q, hq, hn⟩))

/-- A slice has one of the nodes of the set. -/
theorem exists_mem_of_isQuorumSlice (hs : isQuorumSlice q s = true) :
    ∃ n ∈ forAllNodes q, n ∈ s := by
  by_contra hnone
  have hfilter : s.filter (fun n => decide (n ∈ forAllNodes q)) = [] := by
    rw [filter_eq_nil_iff]
    intro n hn hq
    exact hnone ⟨n, of_decide_eq_true hq, hn⟩
  have hnil := isQuorumSlice_filter (fun n hn => decide_eq_true hn) hs
  rw [hfilter, isQuorumSlice_nil] at hnil
  cases hnil

/-- Every inner set that is hit has a node that is hit. -/
theorem countP_isQuorumSlice_le (s : List NodeID) (i : List SCPQuorumSet) :
    i.countP (isQuorumSliceInternal s) ≤
      (forAllInnerNodes i).countP fun n => decide (n ∈ s) := by
  induction i with
  | nil => simp
  | cons q i ih =>
    rw [forAllInnerNodes, countP_append, countP_cons]
    split
    · next hq =>
      obtain ⟨n, hn, hns⟩ := exists_mem_of_isQuorumSlice hq
      have hpos : 0 < (forAllNodes q).countP fun n => decide (n ∈ s) :=
        countP_pos_iff.mpr ⟨n, hn, decide_eq_true hns⟩
      omega
    · omega

theorem isVBlockingSet_nil (q : SCPQuorumSet) : isVBlockingSet q [] = false := by
  unfold isVBlockingSet
  rw [Bool.eq_false_iff]
  induction q using induction with
  | mk t v i ih =>
    rw [ne_eq, isVBlockingInternal_count]
    have hv : v.countP (fun n => decide (n ∈ ([] : List NodeID))) = 0 := by simp
    have hi : i.countP (isVBlockingInternal []) = 0 := countP_eq_zero.mpr ih
    have hpos := hitsToBlock_pos (int32 (1 + ((v.length + i.length : ℕ) : Int) - t.val))
    omega

theorem isVBlockingSet_mono (hst : ∀ n ∈ s, n ∈ t) (hs : isVBlockingSet q s = true) :
    isVBlockingSet q t = true := by
  unfold isVBlockingSet at hs ⊢
  induction q using induction with
  | mk k v i ih =>
    rw [isVBlockingInternal_count] at hs ⊢
    have hv : v.countP (fun n => decide (n ∈ s)) ≤ v.countP fun n => decide (n ∈ t) :=
      countP_mono_left fun n _ hn => by simpa using hst n (by simpa using hn)
    have hi : i.countP (isVBlockingInternal s) ≤ i.countP (isVBlockingInternal t) :=
      countP_mono_left ih
    exact ⟨hs.1, by omega⟩

private theorem countP_add_countP_le {α : Type} (f g : α → Bool) {l : List α}
    (h : ∀ a ∈ l, f a = true → g a = true → False) : l.countP f + l.countP g ≤ l.length := by
  induction l with
  | nil => simp
  | cons a l ih =>
    grind

/-- A blocking set meets every slice. -/
theorem exists_mem_of_isVBlockingSet (hq : q.WellFormed) (hs : isVBlockingSet q s = true)
    (ht : isQuorumSlice q t = true) : ∃ n ∈ s, n ∈ t := by
  by_contra hdisj
  push Not at hdisj
  unfold isVBlockingSet at hs
  unfold isQuorumSlice at ht
  induction q using induction with
  | mk k v i ih =>
    rw [isVBlockingInternal_iff hq] at hs
    rw [isQuorumSliceInternal_iff] at ht
    cases hq with
    | mk hpos hle hlt hi =>
      -- the two sets hit different entries, and together they need more than there are
      have hv := countP_add_countP_le (fun n => decide (n ∈ s)) (fun n => decide (n ∈ t))
        (l := v) fun n _ hns hnt => hdisj n (by simpa using hns) (by simpa using hnt)
      have hin := countP_add_countP_le (isVBlockingInternal s) (isQuorumSliceInternal t)
        (l := i) fun q hmem hqs hqt => ih q hmem (hi q hmem) hqs hqt
      rw [hitsNeeded_of_pos hpos] at ht
      omega

/-- By majority thresholds every slice is a blocking set. -/
theorem isVBlockingSet_of_isQuorumSlice (hq : q.WellFormed) (hm : q.Majority)
    (hs : isQuorumSlice q s = true) : isVBlockingSet q s = true := by
  unfold isVBlockingSet
  unfold isQuorumSlice at hs
  induction q using induction with
  | mk k v i ih =>
    rw [isVBlockingInternal_iff hq]
    rw [isQuorumSliceInternal_iff] at hs
    cases hq with
    | mk hpos hle hlt hi =>
      cases hm with
      | mk hmaj him =>
        have hin : i.countP (isQuorumSliceInternal s) ≤ i.countP (isVBlockingInternal s) :=
          countP_mono_left fun q hmem hqs => ih q hmem (hi q hmem) (him q hmem) hqs
        rw [hitsNeeded_of_pos hpos] at hs
        omega

/-! ## Quorums among the recorded statements -/

variable {π : Type} {map : EnvelopeMap π} {qfun : SCPStatement π → Option SCPQuorumSet}

variable {filter : SCPStatement π → Bool} {n : NodeID}

theorem mem_filteredNodes :
    n ∈ filteredNodes map filter ↔ ∃ e, map.lookup n = some e ∧ filter e.statement = true := by
  simp only [filteredNodes, mem_map, mem_filter, Sigma.exists]
  constructor
  · rintro ⟨m, e, ⟨hmem, hf⟩, rfl⟩
    exact ⟨e, AList.mem_lookup_iff.mpr hmem, hf⟩
  · rintro ⟨e, hlook, hf⟩
    exact ⟨n, e, ⟨AList.mem_lookup_iff.mp hlook, hf⟩, rfl⟩

theorem quorumFilter_iff {pNodes : List NodeID} :
    quorumFilter map qfun pNodes n = true ↔
      ∃ e, map.lookup n = some e ∧
        ∃ q, qfun e.statement = some q ∧ isQuorumSlice q pNodes = true := by
  unfold quorumFilter
  cases map.lookup n with
  | none => simp
  | some e => cases hq : qfun e.statement <;> simp [hq]

theorem quorumFilter_mono (hst : ∀ n ∈ s, n ∈ t) (h : quorumFilter map qfun s n = true) :
    quorumFilter map qfun t n = true := by
  obtain ⟨e, he, q, hq, hs⟩ := quorumFilter_iff.mp h
  exact quorumFilter_iff.mpr ⟨e, he, q, hq, isQuorumSlice_mono hst hs⟩

theorem quorumLoop_subset (fuel : ℕ) (pNodes : List NodeID)
    (h : n ∈ quorumLoop map qfun fuel pNodes) : n ∈ pNodes := by
  induction fuel generalizing pNodes with
  | zero => exact mem_of_mem_filter h
  | succ fuel ih =>
    simp only [quorumLoop] at h
    split_ifs at h
    · exact mem_of_mem_filter (ih _ h)
    · exact mem_of_mem_filter h

/-- The loop ends on nodes whose quorum sets they satisfy together. -/
theorem quorumLoop_closed (fuel : ℕ) (pNodes : List NodeID) (hfuel : pNodes.length ≤ fuel)
    (h : n ∈ quorumLoop map qfun fuel pNodes) :
    quorumFilter map qfun (quorumLoop map qfun fuel pNodes) n = true := by
  induction fuel generalizing pNodes with
  | zero =>
    have hnil : pNodes = [] := length_eq_zero_iff.mp (Nat.le_zero.mp hfuel)
    subst hnil
    simp [quorumLoop] at h
  | succ fuel ih =>
    simp only [quorumLoop] at h ⊢
    have hle := length_filter_le (quorumFilter map qfun pNodes) pNodes
    split_ifs at h ⊢ with hlen
    · exact ih _ (by omega) h
    · have hsame : pNodes.filter (quorumFilter map qfun pNodes) = pNodes :=
        filter_eq_self.mpr (length_filter_eq_length_iff.mp (not_not.mp hlen).symm)
      rw [hsame] at h ⊢
      exact (filter_eq_self.mp hsame) n h

/-- Nodes that satisfy their quorum sets together are never dropped. -/
theorem mem_quorumLoop (fuel : ℕ) (pNodes : List NodeID) {u : List NodeID}
    (hu : ∀ n ∈ u, n ∈ pNodes) (hclosed : ∀ n ∈ u, quorumFilter map qfun u n = true) :
    ∀ n ∈ u, n ∈ quorumLoop map qfun fuel pNodes := by
  have hstep : ∀ {p : List NodeID}, (∀ n ∈ u, n ∈ p) →
      ∀ n ∈ u, n ∈ p.filter (quorumFilter map qfun p) := fun hp n hn =>
    mem_filter.mpr ⟨hp n hn, quorumFilter_mono hp (hclosed n hn)⟩
  induction fuel generalizing pNodes with
  | zero => exact hstep hu
  | succ fuel ih =>
    simp only [quorumLoop]
    split_ifs
    · exact ih _ (hstep hu)
    · exact hstep hu

/-- Nodes whose recorded statements pass a filter and whose announced quorum
sets they satisfy together. -/
def QuorumOf (map : EnvelopeMap π) (qfun : SCPStatement π → Option SCPQuorumSet)
    (filter : SCPStatement π → Bool) (u : List NodeID) : Prop :=
  ∀ n ∈ u, ∃ e, map.lookup n = some e ∧ filter e.statement = true ∧
    ∃ q, qfun e.statement = some q ∧ isQuorumSlice q u = true

/-- `isQuorum` looks for a quorum that contains a slice of the local node. -/
theorem exists_quorumOf_iff {qSet : SCPQuorumSet} :
    isQuorum qSet map qfun filter = true ↔
      ∃ u, QuorumOf map qfun filter u ∧ isQuorumSlice qSet u = true := by
  constructor
  · intro h
    refine ⟨_, ?_, h⟩
    intro n hn
    obtain ⟨e, he, hf⟩ := mem_filteredNodes.mp (quorumLoop_subset _ _ hn)
    obtain ⟨e', he', q, hq, hs⟩ := quorumFilter_iff.mp (quorumLoop_closed _ _ le_rfl hn)
    obtain rfl := Option.mem_unique he he'
    exact ⟨e, he, hf, q, hq, hs⟩
  · rintro ⟨u, hu, hs⟩
    refine isQuorumSlice_mono (mem_quorumLoop _ _ ?_ ?_) hs
    · intro n hn
      obtain ⟨e, he, hf, -⟩ := hu n hn
      exact mem_filteredNodes.mpr ⟨e, he, hf⟩
    · intro n hn
      obtain ⟨e, he, -, q, hq, hqs⟩ := hu n hn
      exact quorumFilter_iff.mpr ⟨e, he, q, hq, hqs⟩

section
variable {qSet : SCPQuorumSet} {f g : SCPStatement π → Bool}

theorem isVBlocking_mono {map' : EnvelopeMap π}
    (hfg : ∀ n e, map.lookup n = some e → f e.statement = true →
      ∃ e', map'.lookup n = some e' ∧ g e'.statement = true)
    (h : isVBlocking qSet map f = true) : isVBlocking qSet map' g = true := by
  refine isVBlockingSet_mono ?_ h
  intro n hn
  obtain ⟨e, he, hf⟩ := mem_filteredNodes.mp hn
  exact mem_filteredNodes.mpr (hfg n e he hf)

theorem isQuorum_mono {map' : EnvelopeMap π} {qfun' : SCPStatement π → Option SCPQuorumSet}
    (hfg : ∀ n e, map.lookup n = some e → f e.statement = true →
      ∃ e', map'.lookup n = some e' ∧ g e'.statement = true ∧
        qfun' e'.statement = qfun e.statement)
    (h : isQuorum qSet map qfun f = true) : isQuorum qSet map' qfun' g = true := by
  obtain ⟨u, hu, hslice⟩ := exists_quorumOf_iff.mp h
  refine exists_quorumOf_iff.mpr ⟨u, ?_, hslice⟩
  intro n hn
  obtain ⟨e, he, hf, q, hq, hsat⟩ := hu n hn
  obtain ⟨e', he', hg, hqfun⟩ := hfg n e he hf
  exact ⟨e', he', hg, q, hqfun.trans hq, hsat⟩

/-- Some statement supports what is blocking or ratified. -/
theorem exists_of_isVBlocking (h : isVBlocking qSet map f = true) :
    ∃ n e, map.lookup n = some e ∧ f e.statement = true := by
  by_contra hno
  push Not at hno
  have hnil : filteredNodes map f = [] := by
    rw [eq_nil_iff_forall_not_mem]
    intro n hn
    obtain ⟨e, he, hf⟩ := mem_filteredNodes.mp hn
    exact absurd hf (hno n e he)
  rw [isVBlocking, hnil, isVBlockingSet_nil] at h
  cases h

theorem exists_of_isQuorum (h : isQuorum qSet map qfun f = true) :
    ∃ n e, map.lookup n = some e ∧ f e.statement = true := by
  obtain ⟨u, hu, hslice⟩ := exists_quorumOf_iff.mp h
  cases u with
  | nil => rw [isQuorumSlice_nil] at hslice; cases hslice
  | cons n u =>
    obtain ⟨e, he, hf, -⟩ := hu n mem_cons_self
    exact ⟨n, e, he, hf⟩

end

/-- A blocking set of statements has a sender in every slice. -/
theorem exists_sender_of_isVBlocking {qSet : SCPQuorumSet} (hq : qSet.WellFormed)
    (h : isVBlocking qSet map filter = true) {slice : List NodeID}
    (hslice : isQuorumSlice qSet slice = true) :
    ∃ n ∈ slice, ∃ e, map.lookup n = some e ∧ filter e.statement = true := by
  obtain ⟨n, hn, hns⟩ := exists_mem_of_isVBlockingSet hq h hslice
  exact ⟨n, hns, mem_filteredNodes.mp hn⟩

end LocalNode

end DigitalBits.Scp
