import DigitalBits.Lib.OrderedSet
import DigitalBits.Scp.LocalNode

/-!
# Sanity of quorum sets

`QuorumSetSanityChecker` walks a quorum set once, counts its validators and
remembers the ones it has seen. A quorum set that passes is well formed in the
sense the slice tests need.
-/
namespace DigitalBits.Scp
open Lib LocalNode List

def maximumQuorumNestingLevel : ℕ := 4

/-- The state of `QuorumSetSanityChecker`. -/
structure QuorumSetSanityChecker where
  mExtraChecks : Bool
  mKnownNodes : OrderedSet NodeID
  mCount : ℕ

namespace QuorumSetSanityChecker

/-- The loop that registers the validators of one set. -/
def insertNodes (checker : QuorumSetSanityChecker) :
    List NodeID → Except String QuorumSetSanityChecker
  | [] => .ok checker
  | n :: rest =>
    if n ∈ checker.mKnownNodes then .error "Duplicate node found in quorum configuration"
    else insertNodes { checker with mKnownNodes := checker.mKnownNodes.insert n } rest

mutual

/-- `QuorumSetSanityChecker::checkSanity`. The subtraction of `vBlockingSize`
cannot wrap where its result is read. -/
def checkSanity (checker : QuorumSetSanityChecker) (depth : ℕ) :
    SCPQuorumSet → Except String QuorumSetSanityChecker
  | .mk threshold v i =>
    if depth > maximumQuorumNestingLevel then .error "Maximum quorum nesting level exceeded"
    else if threshold < 1 then .error "Threshold must be greater than 0"
    else
      let totEntries := v.length + i.length
      let vBlockingSize := totEntries - threshold.val + 1
      if threshold.val > totEntries then .error "Threshold exceeds total number of entries"
      else if checker.mExtraChecks ∧ threshold.val < vBlockingSize then
        .error "Threshold is lower than the v-blocking size (< 51%)."
      else
        match insertNodes { checker with mCount := checker.mCount + v.length } v with
        | .error e => .error e
        | .ok checker => checkInnerSets checker (depth + 1) i

/-- The loop over the inner sets. -/
def checkInnerSets (checker : QuorumSetSanityChecker) (depth : ℕ) :
    List SCPQuorumSet → Except String QuorumSetSanityChecker
  | [] => .ok checker
  | iSet :: rest =>
    match checkSanity checker depth iSet with
    | .error e => .error e
    | .ok checker => checkInnerSets checker depth rest

end

end QuorumSetSanityChecker

/-- The constructor of the checker, with the message it leaves in `errString`. -/
def checkQuorumSet (qSet : SCPQuorumSet) (extraChecks : Bool) : Except String Unit :=
  match QuorumSetSanityChecker.checkSanity ⟨extraChecks, ∅, 0⟩ 0 qSet with
  | .error e => .error e
  | .ok checker =>
    if checker.mCount < 1 ∨ checker.mCount > 1000 then
      .error "Total number of nodes in a quorum must be within 1 and 1000"
    else .ok ()

def isQuorumSetSane (qSet : SCPQuorumSet) (extraChecks : Bool) : Bool :=
  match checkQuorumSet qSet extraChecks with
  | .error _ => false
  | .ok _ => true

namespace QuorumSetSanityChecker

variable {checker mid out : QuorumSetSanityChecker} {v : List NodeID}

theorem insertNodes_ok (h : checker.insertNodes v = .ok out) :
    out.mCount = checker.mCount ∧ out.mExtraChecks = checker.mExtraChecks := by
  fun_induction insertNodes checker v with
  | case1 => cases h; exact ⟨rfl, rfl⟩
  | case2 => cases h
  | case3 checker n v hn ih => exact ih h

/-- The rule for what a successful pass over sets establishes. -/
theorem checkSanity_pass {P : QuorumSetSanityChecker → QuorumSetSanityChecker →
      List SCPQuorumSet → Prop} (hnil : ∀ checker, P checker checker [])
    (hcons : ∀ {checker mid out q l}, P checker mid [q] → P mid out l → P checker out (q :: l))
    (hset : ∀ {checker mid out t v i}, 1 ≤ t → t.val ≤ v.length + i.length →
      ¬ (checker.mExtraChecks = true ∧ t.val < v.length + i.length - t.val + 1) →
      insertNodes { checker with mCount := checker.mCount + v.length } v = .ok mid →
      P mid out i → P checker out [.mk t v i])
    (q : SCPQuorumSet) {depth : ℕ} (h : checkSanity checker depth q = .ok out) :
    P checker out [q] := by
  induction q using SCPQuorumSet.induction generalizing checker out depth with
  | mk t v i ih =>
    have hinner : ∀ l : List SCPQuorumSet, (∀ q ∈ l, q ∈ i) → ∀ {checker depth},
        checkInnerSets checker depth l = .ok out → P checker out l := by
      intro l
      induction l with
      | nil =>
        intro _ checker depth h
        cases h
        exact hnil out
      | cons q l ihl =>
        intro hl checker depth h
        simp only [checkInnerSets] at h
        split at h
        · cases h
        · next mid hq =>
          exact hcons (ih q (hl q mem_cons_self) hq)
            (ihl (fun q hq => hl q (mem_cons_of_mem _ hq)) h)
    simp only [checkSanity] at h
    split_ifs at h with hdepth hpos hle hextra
    split at h
    · cases h
    · next mid hins =>
      exact hset (not_lt.mp hpos) (not_lt.mp hle) hextra hins (hinner i (fun _ hq => hq) h)

/-- What one successful pass over a set establishes. The count grows by at least
one for every set, which bounds the number of inner sets. -/
structure Passed (checker out : QuorumSetSanityChecker) (l : List SCPQuorumSet) : Prop where
  wellFormed : ∀ q ∈ l, q.WellFormed
  majority : checker.mExtraChecks = true → ∀ q ∈ l, q.Majority
  extraChecks : out.mExtraChecks = checker.mExtraChecks
  count : checker.mCount + l.length ≤ out.mCount

theorem Passed.cons {q : SCPQuorumSet} {l : List SCPQuorumSet} (h : checker.Passed mid [q])
    (h' : mid.Passed out l) : checker.Passed out (q :: l) where
  wellFormed := forall_mem_cons.mpr ⟨h.wellFormed q mem_cons_self, h'.wellFormed⟩
  majority hextra := forall_mem_cons.mpr
    ⟨h.majority hextra q mem_cons_self, h'.majority (h.extraChecks.trans hextra)⟩
  extraChecks := h'.extraChecks.trans h.extraChecks
  count := by
    have h1 := h.count
    have h2 := h'.count
    rw [length_singleton] at h1
    rw [length_cons]
    omega

theorem checkSanity_ok (q : SCPQuorumSet) {depth : ℕ} (h : checkSanity checker depth q = .ok out)
    (hout : out.mCount ≤ 1000) : checker.Passed out [q] := by
  refine checkSanity_pass (P := fun checker out l => out.mCount ≤ 1000 → checker.Passed out l)
    ?_ ?_ ?_ q h hout
  · exact fun checker _ => ⟨by simp, by simp, rfl, le_rfl⟩
  · intro checker mid out q l hq hl hout
    have hcount := (hl hout).count
    exact (hq (by omega)).cons (hl hout)
  · intro checker mid out t v i hpos hle hextra hins hi hout
    replace hi := hi hout
    have hcount := hi.count
    obtain ⟨hmid, hmid'⟩ := insertNodes_ok hins
    change mid.mCount = checker.mCount + v.length at hmid
    change mid.mExtraChecks = checker.mExtraChecks at hmid'
    have hpos' : 1 ≤ t.val := hpos
    refine ⟨?_, fun hchecks => ?_, hi.extraChecks.trans hmid', ?_⟩
    · simpa using .mk hpos' hle (by omega) hi.wellFormed
    · have hblock : ¬ t.val < v.length + i.length - t.val + 1 := fun hlt => hextra ⟨hchecks, hlt⟩
      simpa using .mk (by omega) (hi.majority (hmid'.trans hchecks))
    · rw [length_singleton]
      omega

end QuorumSetSanityChecker

variable {q : SCPQuorumSet} {extraChecks : Bool}

theorem passed_of_isQuorumSetSane (h : isQuorumSetSane q extraChecks = true) :
    ∃ out, QuorumSetSanityChecker.Passed ⟨extraChecks, ∅, 0⟩ out [q] := by
  simp only [isQuorumSetSane, checkQuorumSet] at h
  cases hq : QuorumSetSanityChecker.checkSanity ⟨extraChecks, ∅, 0⟩ 0 q with
  | error e => rw [hq] at h; simp at h
  | ok out =>
    rw [hq] at h
    by_cases hcount : out.mCount < 1 ∨ out.mCount > 1000
    · simp only [if_pos hcount, Bool.false_eq_true] at h
    · exact ⟨out, QuorumSetSanityChecker.checkSanity_ok q hq (by omega)⟩

/-- A sane quorum set has sensible thresholds to any depth. -/
theorem wellFormed_of_isQuorumSetSane (h : isQuorumSetSane q extraChecks = true) :
    q.WellFormed := by
  obtain ⟨out, hq⟩ := passed_of_isQuorumSetSane h
  exact hq.wellFormed q mem_cons_self

/-- The nodes that a pass registers are new and different from each other. -/
structure QuorumSetSanityChecker.Registered (checker out : QuorumSetSanityChecker)
    (l : List NodeID) : Prop where
  nodup : l.Nodup
  new : ∀ n ∈ l, n ∉ checker.mKnownNodes
  known : ∀ n, n ∈ out.mKnownNodes ↔ n ∈ checker.mKnownNodes ∨ n ∈ l

namespace QuorumSetSanityChecker

theorem registered_nil (checker : QuorumSetSanityChecker) : checker.Registered checker [] :=
  ⟨nodup_nil, by simp, by simp⟩

variable {checker mid out : QuorumSetSanityChecker}

theorem Registered.append {l l' : List NodeID} (h : checker.Registered mid l)
    (h' : mid.Registered out l') : checker.Registered out (l ++ l') where
  nodup := by
    refine nodup_append.mpr ⟨h.nodup, h'.nodup, fun a ha b hb hab => ?_⟩
    exact h'.new b hb ((h.known b).mpr (.inr (hab ▸ ha)))
  new n hn := by
    rcases mem_append.mp hn with hl | hl'
    · exact h.new n hl
    · exact fun hknown => h'.new n hl' ((h.known n).mpr (.inl hknown))
  known n := by rw [h'.known, h.known, mem_append, or_assoc]

theorem insertNodes_registered {v : List NodeID} (h : checker.insertNodes v = .ok out) :
    checker.Registered out v := by
  fun_induction insertNodes checker v with
  | case1 =>
    cases h
    exact registered_nil _
  | case2 => cases h
  | case3 checker n v hn ih =>
    have hone : checker.Registered
        { checker with mKnownNodes := checker.mKnownNodes.insert n } [n] := by
      refine ⟨nodup_singleton n, by simpa using hn, fun m => ?_⟩
      rw [OrderedSet.mem_insert, mem_singleton, or_comm]
    exact hone.append (ih h)

theorem checkSanity_registered (q : SCPQuorumSet) {depth : ℕ}
    (h : checkSanity checker depth q = .ok out) : checker.Registered out (forAllNodes q) := by
  have hpass := checkSanity_pass
    (P := fun checker out l => checker.Registered out (forAllInnerNodes l)) registered_nil
    (fun hq hl => ?_) (fun {checker mid _ _ v _} _ _ _ hins hi => ?_) q h
  · simpa [forAllInnerNodes] using hpass
  · simpa [forAllInnerNodes] using hq.append hl
  · obtain ⟨hnodup, hnew, hknown⟩ := insertNodes_registered hins
    have hv : checker.Registered mid v := ⟨hnodup, hnew, hknown⟩
    simpa [forAllInnerNodes, forAllNodes] using hv.append hi

end QuorumSetSanityChecker

/-- No node occurs twice in a sane quorum set. -/
theorem nodup_of_isQuorumSetSane (h : isQuorumSetSane q extraChecks = true) :
    (forAllNodes q).Nodup := by
  simp only [isQuorumSetSane, checkQuorumSet] at h
  cases hq : QuorumSetSanityChecker.checkSanity ⟨extraChecks, ∅, 0⟩ 0 q with
  | error e => rw [hq] at h; simp at h
  | ok out => exact (QuorumSetSanityChecker.checkSanity_registered q hq).nodup

/-- The extra checks demand majorities. -/
theorem majority_of_isQuorumSetSane (h : isQuorumSetSane q true = true) :
    q.Majority := by
  obtain ⟨out, hq⟩ := passed_of_isQuorumSetSane h
  exact hq.majority rfl q mem_cons_self

/-- Any two slices of a quorum set that passes the extra checks meet. -/
theorem slices_meet_of_isQuorumSetSane (h : isQuorumSetSane q true = true) {s t : List NodeID}
    (hs : isQuorumSlice q s = true) (ht : isQuorumSlice q t = true) :
    ∃ n ∈ s, n ∈ t := by
  have hwf := wellFormed_of_isQuorumSetSane h
  exact exists_mem_of_isVBlockingSet hwf
    (isVBlockingSet_of_isQuorumSlice hwf (majority_of_isQuorumSetSane h) hs) ht

/-- The set a node announces once it has externalized is sane. -/
theorem isQuorumSetSane_singleton (n : NodeID) :
    isQuorumSetSane (buildSingletonQSet n) false = true := by
  unfold isQuorumSetSane checkQuorumSet buildSingletonQSet
  simp [QuorumSetSanityChecker.checkSanity, QuorumSetSanityChecker.insertNodes,
    QuorumSetSanityChecker.checkInnerSets, maximumQuorumNestingLevel]

/-! ## The normal form -/

/-- An inner set that is one node. -/
def SCPQuorumSet.isSingleton : SCPQuorumSet → Bool
  | .mk threshold validators innerSets =>
    threshold = 1 && validators.length = 1 && innerSets.length = 0

mutual

/-- `normalizeQSetSimplify`: removes a node, merges inner sets of one node into the
validators and replaces a set that only asks for its one inner set. The threshold is
a `uint32` and wraps. -/
def normalizeQSetSimplify (idToRemove : Option NodeID) : SCPQuorumSet → SCPQuorumSet
  | .mk threshold validators innerSets =>
    let kept := validators.filter fun n => some n ≠ idToRemove
    let threshold := threshold - Fin.ofNat (2 ^ 32) (validators.length - kept.length)
    let i := simplifyInnerSets idToRemove innerSets
    let v := kept ++ (i.filter (·.isSingleton)).flatMap (·.validators)
    match i.filter (!·.isSingleton) with
    | [t] => if threshold = 1 ∧ v.length = 0 then t else .mk threshold v [t]
    | i => .mk threshold v i

def simplifyInnerSets (idToRemove : Option NodeID) : List SCPQuorumSet → List SCPQuorumSet
  | [] => []
  | inner :: rest =>
    normalizeQSetSimplify idToRemove inner :: simplifyInnerSets idToRemove rest

end

def intLexicographicalCompare {α : Type} (comp : α → α → Ordering) : List α → List α → Ordering
  | [], [] => .eq
  | [], _ :: _ => .lt
  | _ :: _, [] => .gt
  | l :: ls, r :: rs => (comp l r).then (intLexicographicalCompare comp ls rs)

mutual

/-- `qSetCompareInt`: by validators, then by inner sets, then by threshold. -/
def qSetCompareInt : SCPQuorumSet → SCPQuorumSet → Ordering
  | .mk lt lv li, .mk rt rv ri =>
    ((intLexicographicalCompare compare lv rv).then (qSetCompareInner li ri)).then (compare lt rt)

/-- `intLexicographicalCompare` on inner sets. -/
def qSetCompareInner : List SCPQuorumSet → List SCPQuorumSet → Ordering
  | [], [] => .eq
  | [], _ :: _ => .lt
  | _ :: _, [] => .gt
  | l :: ls, r :: rs => (qSetCompareInt l r).then (qSetCompareInner ls rs)

end

mutual

/-- `normalizeQuorumSetReorder`. Sets that compare equal are equal, so the result does
not depend on how the sort breaks ties. -/
def normalizeQuorumSetReorder : SCPQuorumSet → SCPQuorumSet
  | .mk threshold validators innerSets =>
    .mk threshold (validators.insertionSort (· ≤ ·))
      ((reorderInnerSets innerSets).insertionSort fun l r => qSetCompareInt l r ≠ .gt)

def reorderInnerSets : List SCPQuorumSet → List SCPQuorumSet
  | [] => []
  | inner :: rest => normalizeQuorumSetReorder inner :: reorderInnerSets rest

end

/-- `normalizeQSet`. -/
def normalizeQSet (qSet : SCPQuorumSet) (idToRemove : Option NodeID) : SCPQuorumSet :=
  normalizeQuorumSetReorder (normalizeQSetSimplify idToRemove qSet)

end DigitalBits.Scp
