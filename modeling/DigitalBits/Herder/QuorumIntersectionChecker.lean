import DigitalBits.Herder.TarjanSCCCalculator
import DigitalBits.Lib.Computation
import DigitalBits.Scp.QuorumSetUtils
import DigitalBits.Util.RandomEvictionCache

/-!
# The quorum intersection checker

`QuorumIntersectionCheckerImpl` numbers the nodes it knows a quorum set of and
writes each quorum set over these numbers. It then looks for two disjoint quorums:
first in two strongly connected components of the graph, and if only one of them
has quorums, among the subsets of that one. `MinQuorumEnumerator` goes through
these subsets by deciding of one node at a time whether it is in; a branch ends
early as soon as it cannot lead to a minimal quorum of at most half the component.
-/
namespace DigitalBits.Herder
open Scp Util

/-- `QuorumTracker::QuorumMap`, in the order of its loops. -/
structure QuorumMap where
  entries : List (NodeID × Option SCPQuorumSet)
  nodup : (entries.map Prod.fst).Nodup

variable (qmap : QuorumMap)

namespace QuorumMap

/-- The nodes with a quorum set. -/
def live : List (NodeID × SCPQuorumSet) :=
  qmap.entries.filterMap fun pair => pair.2.map fun q => (pair.1, q)

/-- The number of nodes with a quorum set. -/
abbrev size : ℕ := qmap.live.length

end QuorumMap

/-- A quorum set over node numbers. The constructor of the source stores `mAllSuccessors` as well. -/
inductive QBitSet (n : ℕ) where
  | mk (mThreshold : ℕ) (mNodes : BitSet n) (mInnerSets : List (QBitSet n))

namespace QBitSet
variable {n : ℕ}

mutual

def mAllSuccessors : QBitSet n → BitSet n
  | .mk _ nodes innerSets => getSuccessors nodes innerSets

def getSuccessors (out : BitSet n) : List (QBitSet n) → BitSet n
  | [] => out
  | i :: rest => getSuccessors (out ∪ i.mAllSuccessors) rest

end

mutual

/-- `QuorumIntersectionCheckerImpl::containsQuorumSlice`. -/
def containsQuorumSlice (bs : BitSet n) : QBitSet n → Bool
  | .mk threshold nodes innerSets =>
    let intersecting := (bs ∩ nodes).card
    if intersecting ≥ threshold then true
    else
      let innerThreshold := threshold - intersecting
      if innerThreshold > innerSets.length then false
      else if (bs ∩ getSuccessors nodes innerSets).card < threshold then false
      else containsInnerSlices bs innerThreshold (innerSets.length - innerThreshold + 1) innerSets

/-- The loop over the inner sets; it ends when enough of them have succeeded or failed. -/
def containsInnerSlices (bs : BitSet n) (innerThreshold innerFailLimit : ℕ) :
    List (QBitSet n) → Bool
  | [] => false
  | inner :: rest =>
    if containsQuorumSlice bs inner then
      if innerThreshold - 1 = 0 then true
      else containsInnerSlices bs (innerThreshold - 1) innerFailLimit rest
    else if innerFailLimit - 1 = 0 then false
    else containsInnerSlices bs innerThreshold (innerFailLimit - 1) rest

end

end QBitSet

/-- What the search throws; the assertion is of a debug build. -/
inductive CheckerException where
  | interrupted
  | assertionFailed
  deriving DecidableEq

/-- What does not change after the constructor. -/
structure QuorumIntersectionCheckerImpl (n : ℕ) where
  mBitNumPubKeys : Fin n → NodeID
  mGraph : Fin n → QBitSet n
  mSCCs : List (BitSet n)

/-- What the search writes, the numbers that will be drawn, and how the interrupt flag will read. -/
structure CheckerState (n : ℕ) where
  mPotentialSplit : List NodeID × List NodeID := ([], [])
  mCachedQuorums : RandomEvictionCache (BitSet n) Bool := { mMaxSize := 0xffff }
  random : RandomSource
  mInterruptFlag : ℕ → Bool

abbrev CheckerM (n : ℕ) := EStateM CheckerException (CheckerState n)

namespace QuorumIntersectionCheckerImpl

/-! ## The graph -/

section Graph
variable {n : ℕ} (mPubKeyBitNums : NodeID → Option (Fin n))

/-- A validator without a number is dead: nothing stands for it. -/
def nodeBits : List NodeID → BitSet n
  | [] => ∅
  | v :: rest =>
    match mPubKeyBitNums v with
    | none => nodeBits rest
    | some i => insert i (nodeBits rest)

mutual

def convertSCPQuorumSet : SCPQuorumSet → QBitSet n
  | .mk threshold validators innerSets =>
    .mk threshold.val (nodeBits mPubKeyBitNums validators) (convertInnerSets innerSets)

/-- The loop over the inner sets. -/
def convertInnerSets : List SCPQuorumSet → List (QBitSet n)
  | [] => []
  | i :: rest => convertSCPQuorumSet i :: convertInnerSets rest

end

end Graph

/-- The number of a node: its place among those with a quorum set. -/
def pubKeyBitNum (v : NodeID) : Option (Fin qmap.size) :=
  (List.finRange qmap.size).find? fun i => (qmap.live.get i).1 = v

def buildGraph (i : Fin qmap.size) : QBitSet qmap.size :=
  convertSCPQuorumSet (pubKeyBitNum qmap) (qmap.live.get i).2

/-- The constructor. -/
def create : Option (QuorumIntersectionCheckerImpl qmap.size) := do
  let mTSC ← TarjanSCCCalculator.calculateSCCs fun i => (buildGraph qmap i).mAllSuccessors
  return { mBitNumPubKeys := fun i => (qmap.live.get i).1
           mGraph := buildGraph qmap
           mSCCs := mTSC.mSCCs }

variable {n : ℕ} (qic : QuorumIntersectionCheckerImpl n)

/-! ## Quorums -/

def containsQuorumSliceForNode (bs : BitSet n) (node : Fin n) : Bool :=
  if node ∉ bs then false else (qic.mGraph node).containsQuorumSlice bs

/-- One pass of the loop of `contractToMaximalQuorum`. -/
def filterNodes (filtered : BitSet n) : List (Fin n) → BitSet n
  | [] => filtered
  | i :: rest =>
    if qic.containsQuorumSliceForNode filtered i then filterNodes filtered rest
    else filterNodes (filtered.erase i) rest

theorem filterNodes_subset (l : List (Fin n)) :
    ∀ filtered : BitSet n, qic.filterNodes filtered l ⊆ filtered := by
  induction l with
  | nil => exact fun filtered => subset_rfl
  | cons i l ih =>
    intro filtered
    rw [filterNodes]
    split
    · exact ih filtered
    · exact (ih _).trans (Finset.erase_subset _ _)

def contractToMaximalQuorum (nodes : BitSet n) : BitSet n :=
  let filtered := qic.filterNodes nodes nodes.bits
  if filtered.card = nodes.card ∨ filtered = ∅ then filtered
  else contractToMaximalQuorum filtered
termination_by nodes.card
decreasing_by
  rename_i h
  have hle := Finset.card_le_card (qic.filterNodes_subset nodes.bits nodes)
  exact lt_of_le_of_ne hle fun heq => h (.inl heq)

def maybeGet (nodes : BitSet n) : CheckerM n (Option Bool) := do
  let s ← get
  let (res, cache) := s.mCachedQuorums.maybeGet nodes
  set { s with mCachedQuorums := cache }
  return res

def put (nodes : BitSet n) (result : Bool) : CheckerM n Unit :=
  modify fun s =>
    let (cache, random) := s.mCachedQuorums.put nodes result s.random
    { s with mCachedQuorums := cache, random := random }

def isAQuorum (nodes : BitSet n) : CheckerM n Bool := do
  match ← maybeGet nodes with
  | none =>
    let result := decide (qic.contractToMaximalQuorum nodes ≠ ∅)
    put nodes result
    return result
  | some res => return res

/-- The loop of `isMinimalQuorum` over the nodes to leave out. -/
def noSubquorum (nodes : BitSet n) : List (Fin n) → CheckerM n Bool
  | [] => return true
  | i :: rest => do
    if ← qic.isAQuorum (nodes.erase i) then return false else noSubquorum nodes rest

def isMinimalQuorum (nodes : BitSet n) : CheckerM n Bool := do
  if qic.contractToMaximalQuorum nodes ≠ nodes then throw .assertionFailed
  if nodes = ∅ then return false
  qic.noSubquorum nodes nodes.bits

def noteFoundDisjointQuorums (nodes disj : BitSet n) : CheckerM n Unit :=
  modify fun s =>
    { s with mPotentialSplit := (nodes.bits.map qic.mBitNumPubKeys, disj.bits.map qic.mBitNumPubKeys) }

/-! ## The enumeration of minimal quorums -/

/-- The variables of `pickSplitNode`. -/
structure SplitSearch (remaining : BitSet n) where
  inDegrees : Fin n → ℕ := fun _ => 0
  maxNode : { i : Fin n // i ∈ remaining }
  maxCount : ℕ := 1
  maxDegree : ℕ := 0

def draw (lo hi : ℕ) : CheckerM n ℕ := do
  let s ← get
  let (x, random) := randUniform lo hi s.random
  set { s with random := random }
  return x

/-- The body of the inner loop of `pickSplitNode`. -/
def countEdge {remaining : BitSet n} (search : SplitSearch remaining)
    (j : { i : Fin n // i ∈ remaining }) : CheckerM n (SplitSearch remaining) := do
  let currDegree := search.inDegrees j + 1
  let search := { search with inDegrees := Function.update search.inDegrees j currDegree }
  if currDegree ≥ search.maxDegree then
    if currDegree = search.maxDegree then
      let maxCount := search.maxCount + 1
      if (← draw 0 maxCount) = 0 then
        return { search with maxCount := maxCount }
      else
        return { search with maxCount := maxCount, maxDegree := currDegree, maxNode := j }
    else
      return { search with maxCount := 1, maxDegree := currDegree, maxNode := j }
  else
    return search

def pickSplitNode (remaining : BitSet n) (h : remaining.Nonempty) :
    CheckerM n { i : Fin n // i ∈ remaining } := do
  let search ← remaining.bits.foldlM (fun search i =>
    let avail := (qic.mGraph i).mAllSuccessors ∩ remaining
    (avail.bits.attachWith (· ∈ remaining) fun _ hj =>
      (Finset.mem_inter.mp (BitSet.mem_bits.mp hj)).2).foldlM countEdge search)
    { maxNode := ⟨remaining.max' h, remaining.max'_mem h⟩ }
  return search.maxNode

/-- Read the interrupt flag. -/
def interrupted : CheckerM n Bool := do
  let s ← get
  set { s with mInterruptFlag := fun k => s.mInterruptFlag (k + 1) }
  return s.mInterruptFlag 0

variable (scanSCC : BitSet n)

def maxCommit : ℕ := scanSCC.card / 2

def hasDisjointQuorum (nodes : BitSet n) : CheckerM n Bool := do
  let disj := qic.contractToMaximalQuorum (scanSCC \ nodes)
  if disj ≠ ∅ then
    qic.noteFoundDisjointQuorums nodes disj
  return decide (disj ≠ ∅)

def anyMinQuorumHasDisjointQuorum (committed remaining : BitSet n) : CheckerM n Bool := do
  if ← interrupted then throw .interrupted
  if committed.card > maxCommit scanSCC then return false
  let committedQuorum := qic.contractToMaximalQuorum committed
  if committedQuorum ≠ ∅ then
    if ← qic.isMinimalQuorum committedQuorum then
      qic.hasDisjointQuorum scanSCC committedQuorum
    else
      return false
  else
    let extensionQuorum := qic.contractToMaximalQuorum (committed ∪ remaining)
    if extensionQuorum ≠ ∅ then
      if ¬ committed ⊆ extensionQuorum then return false
      else if h : remaining.Nonempty then
        let split ← qic.pickSplitNode remaining h
        if ← anyMinQuorumHasDisjointQuorum committed (remaining.erase split) then
          return true
        else
          anyMinQuorumHasDisjointQuorum (insert split.1 committed) (remaining.erase split)
      else
        return false
    else
      return false
termination_by remaining.card
decreasing_by
  all_goals exact Finset.card_erase_lt_of_mem split.2

/-- The pass over the components: one that has a quorum, and whether a second one has. -/
def findScanSCC (scanSCC : BitSet n) : List (BitSet n) → CheckerM n (BitSet n × Bool)
  | [] => return (scanSCC, false)
  | scc :: rest =>
    let q := qic.contractToMaximalQuorum scc
    if q ≠ ∅ then
      if scanSCC = ∅ then findScanSCC scc rest
      else do
        qic.noteFoundDisjointQuorums (qic.contractToMaximalQuorum scanSCC) q
        return (scanSCC, true)
    else findScanSCC scanSCC rest

def networkEnjoysQuorumIntersection : CheckerM n Bool := do
  let (scanSCC, foundDisjoint) ← qic.findScanSCC ∅ qic.mSCCs
  if scanSCC = ∅ then return true
  if foundDisjoint then return false
  return !(← qic.anyMinQuorumHasDisjointQuorum scanSCC ∅ scanSCC)

end QuorumIntersectionCheckerImpl
end DigitalBits.Herder
