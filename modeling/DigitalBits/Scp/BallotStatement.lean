import DigitalBits.Lib.OrderedSet
import DigitalBits.Scp.LocalNode

/-!
# Statements of the ballot protocol

Everything `BallotProtocol.cpp` decides from statements alone: the order of
ballots and of statements, the predicates that federated voting counts, and the
searches over the recorded statements.
-/
namespace DigitalBits.Scp
open Lib LocalNode OrderedSet SCPBallot

/-! ## Comparing ballots -/

/-- `BallotProtocol::compareBallots`. -/
def compareBallots (b1 b2 : SCPBallot) : Ordering :=
  if b1.counter < b2.counter then .lt
  else if b2.counter < b1.counter then .gt
  else if b1.value < b2.value then .lt
  else if b2.value < b1.value then .gt
  else .eq

variable {b1 b2 : SCPBallot}

@[simp] theorem compareBallots_eq_lt : compareBallots b1 b2 = .lt ↔ b1 < b2 := by
  rw [lt_iff]
  unfold compareBallots
  split_ifs with h1 h2 h3 h4
  · simp [h1]
  · simp [h1, h2.ne']
  · simp [h3, le_antisymm (not_lt.mp h2) (not_lt.mp h1)]
  · simp [h1, h3]
  · simp [h1, h3]

@[simp] theorem compareBallots_eq_gt : compareBallots b1 b2 = .gt ↔ b2 < b1 := by
  rw [lt_iff]
  unfold compareBallots
  split_ifs with h1 h2 h3 h4
  · simp [h1.not_gt, h1.ne']
  · simp [h2]
  · simp [h2, h3.not_gt]
  · simp [h4, le_antisymm (not_lt.mp h1) (not_lt.mp h2)]
  · simp [h2, h4]

@[simp] theorem compareBallots_eq_eq : compareBallots b1 b2 = .eq ↔ b1 = b2 := by
  constructor
  · intro h
    refine le_antisymm (not_lt.mp fun hlt => ?_) (not_lt.mp fun hlt => ?_)
    · rw [compareBallots_eq_gt.mpr hlt] at h; cases h
    · rw [compareBallots_eq_lt.mpr hlt] at h; cases h
  · rintro rfl
    simp [compareBallots]

/-- The comparison of two optional ballots: an absent one comes first. -/
def compareBallotPtrs : Option SCPBallot → Option SCPBallot → Ordering
  | some b1, some b2 => compareBallots b1 b2
  | some _, none => .gt
  | none, some _ => .lt
  | none, none => .eq

/-- An optional ballot in the order of `compareBallotPtrs`. -/
def ballotRank : Option SCPBallot → WithBot SCPBallot
  | none => ⊥
  | some b => b

@[simp] theorem ballotRank_inj {b1 b2 : Option SCPBallot} :
    ballotRank b1 = ballotRank b2 ↔ b1 = b2 := by
  cases b1 <;> cases b2 <;> simp [ballotRank]

theorem compareBallotPtrs_eq_lt {b1 b2 : Option SCPBallot} :
    compareBallotPtrs b1 b2 = .lt ↔ ballotRank b1 < ballotRank b2 := by
  cases b1 <;> cases b2 <;> simp [compareBallotPtrs, ballotRank, compareBallots_eq_lt]

theorem compareBallotPtrs_eq_gt {b1 b2 : Option SCPBallot} :
    compareBallotPtrs b1 b2 = .gt ↔ ballotRank b2 < ballotRank b1 := by
  cases b1 <;> cases b2 <;> simp [compareBallotPtrs, ballotRank, compareBallots_eq_gt]

theorem compareBallotPtrs_eq_eq {b1 b2 : Option SCPBallot} :
    compareBallotPtrs b1 b2 = .eq ↔ b1 = b2 := by
  cases b1 <;> cases b2 <;> simp [compareBallotPtrs, compareBallots_eq_eq]

def areBallotsCompatible (b1 b2 : SCPBallot) : Bool := b1.value = b2.value

def areBallotsLessAndIncompatible (b1 b2 : SCPBallot) : Bool :=
  compareBallots b1 b2 ≠ .gt ∧ ¬ areBallotsCompatible b1 b2

def areBallotsLessAndCompatible (b1 b2 : SCPBallot) : Bool :=
  compareBallots b1 b2 ≠ .gt ∧ areBallotsCompatible b1 b2

@[simp] theorem areBallotsCompatible_iff :
    areBallotsCompatible b1 b2 = true ↔ b1.value = b2.value := by
  simp [areBallotsCompatible]

@[simp] theorem areBallotsLessAndIncompatible_iff :
    areBallotsLessAndIncompatible b1 b2 = true ↔ b1 ≤ b2 ∧ b1.value ≠ b2.value := by
  simp [areBallotsLessAndIncompatible, compareBallots_eq_gt]

@[simp] theorem areBallotsLessAndCompatible_iff :
    areBallotsLessAndCompatible b1 b2 = true ↔ b1 ≤ b2 ∧ b1.value = b2.value := by
  simp [areBallotsLessAndCompatible, compareBallots_eq_gt]

@[simp] theorem areBallotsCompatible_eq_false :
    areBallotsCompatible b1 b2 = false ↔ b1.value ≠ b2.value := by
  rw [← Bool.not_eq_true, areBallotsCompatible_iff]

@[simp] theorem areBallotsLessAndCompatible_eq_false :
    areBallotsLessAndCompatible b1 b2 = false ↔ (b1 ≤ b2 → b1.value ≠ b2.value) := by
  rw [← Bool.not_eq_true, areBallotsLessAndCompatible_iff]
  tauto

/-! ## The order of statements -/

inductive SCPStatementType where
  | prepare
  | confirm
  | externalize
  deriving DecidableEq, Repr

def SCPStatementType.toNat : SCPStatementType → ℕ
  | .prepare => 0
  | .confirm => 1
  | .externalize => 2

def BallotPledges.type : BallotPledges → SCPStatementType
  | .prepare _ => .prepare
  | .confirm _ => .confirm
  | .externalize _ => .externalize

/-- The order of two `CONFIRM` statements: by `(b, p, h)`. -/
def isNewerConfirm (oldC c : SCPConfirm) : Bool :=
  match compareBallots oldC.ballot c.ballot with
  | .lt => true
  | .eq =>
    if oldC.nPrepared = c.nPrepared then oldC.nH < c.nH else oldC.nPrepared < c.nPrepared
  | .gt => false

/-- The order of two `PREPARE` statements: by `(b, p, p', h)`. -/
def isNewerPrepare (oldPrep prep : SCPPrepare) : Bool :=
  match compareBallots oldPrep.ballot prep.ballot with
  | .lt => true
  | .eq =>
    match compareBallotPtrs oldPrep.prepared prep.prepared with
    | .lt => true
    | .eq =>
      match compareBallotPtrs oldPrep.preparedPrime prep.preparedPrime with
      | .lt => true
      | .eq => oldPrep.nH < prep.nH
      | .gt => false
    | .gt => false
  | .gt => false

/-- `BallotProtocol::isNewerStatement` on two statements. -/
def isNewerStatement (oldst st : BallotPledges) : Bool :=
  if oldst.type ≠ st.type then oldst.type.toNat < st.type.toNat
  else
    match oldst, st with
    | .confirm oldC, .confirm c => isNewerConfirm oldC c
    | .prepare oldPrep, .prepare prep => isNewerPrepare oldPrep prep
    -- there is at most one EXTERNALIZE statement
    | _, _ => false

/-- Where a `CONFIRM` statement stands in the order. -/
def SCPConfirm.rank (c : SCPConfirm) : SCPBallot ×ₗ Uint32 ×ₗ Uint32 :=
  toLex (c.ballot, toLex (c.nPrepared, c.nH))

/-- Where a `PREPARE` statement stands in the order. -/
def SCPPrepare.rank (p : SCPPrepare) :
    SCPBallot ×ₗ WithBot SCPBallot ×ₗ WithBot SCPBallot ×ₗ Uint32 :=
  toLex (p.ballot, toLex (ballotRank p.prepared, toLex (ballotRank p.preparedPrime, p.nH)))

theorem isNewerConfirm_iff {oldC c : SCPConfirm} :
    isNewerConfirm oldC c = true ↔ oldC.rank < c.rank := by
  unfold isNewerConfirm SCPConfirm.rank
  rw [Prod.Lex.toLex_lt_toLex, Prod.Lex.toLex_lt_toLex]
  cases h : compareBallots oldC.ballot c.ballot with
  | lt => simp [compareBallots_eq_lt.mp h]
  | gt => simp [(compareBallots_eq_gt.mp h).not_gt, (compareBallots_eq_gt.mp h).ne']
  | eq =>
    simp only [compareBallots_eq_eq.mp h, lt_irrefl, true_and, false_or]
    split_ifs with hp <;> simp [hp]

theorem isNewerPrepare_iff {oldPrep prep : SCPPrepare} :
    isNewerPrepare oldPrep prep = true ↔ oldPrep.rank < prep.rank := by
  unfold isNewerPrepare SCPPrepare.rank
  simp only [Prod.Lex.toLex_lt_toLex]
  cases hb : compareBallots oldPrep.ballot prep.ballot with
  | lt => simp [compareBallots_eq_lt.mp hb]
  | gt => simp [(compareBallots_eq_gt.mp hb).not_gt, (compareBallots_eq_gt.mp hb).ne']
  | eq =>
    simp only [compareBallots_eq_eq.mp hb, lt_irrefl, true_and, false_or]
    cases hp : compareBallotPtrs oldPrep.prepared prep.prepared with
    | lt => simp [compareBallotPtrs_eq_lt.mp hp]
    | gt => simp [(compareBallotPtrs_eq_gt.mp hp).not_gt, (compareBallotPtrs_eq_gt.mp hp).ne']
    | eq =>
      simp only [compareBallotPtrs_eq_eq.mp hp, lt_irrefl, true_and, false_or]
      cases hp' : compareBallotPtrs oldPrep.preparedPrime prep.preparedPrime with
      | lt => simp [compareBallotPtrs_eq_lt.mp hp']
      | gt =>
        simp [(compareBallotPtrs_eq_gt.mp hp').not_gt, (compareBallotPtrs_eq_gt.mp hp').ne']
      | eq => simp [compareBallotPtrs_eq_eq.mp hp']

/-- The statements of one node are strictly ordered. -/
theorem isNewerStatement_trans {s t u : BallotPledges} (hst : isNewerStatement s t = true)
    (htu : isNewerStatement t u = true) : isNewerStatement s u = true := by
  cases s <;> cases t <;> cases u <;>
    simp_all [isNewerStatement, BallotPledges.type, SCPStatementType.toNat,
      isNewerPrepare_iff, isNewerConfirm_iff]
  · exact hst.trans htu
  · exact hst.trans htu

theorem isNewerStatement_irrefl (s : BallotPledges) : isNewerStatement s s = false := by
  rw [Bool.eq_false_iff]
  cases s <;> simp [isNewerStatement, isNewerPrepare_iff, isNewerConfirm_iff]

/-! ## What a statement says -/

/-- The part of `BallotProtocol::isStatementSane` that follows the check of the
quorum set. A node accepts `b = 0` from itself. -/
def arePledgesSane (self : Bool) : BallotPledges → Bool
  | .prepare p =>
    (self || decide (p.ballot.counter > 0)) &&
    (match p.preparedPrime, p.prepared with
      | some p', some p => areBallotsLessAndIncompatible p' p
      | _, _ => true) &&
    (decide (p.nH = 0) ||
      match p.prepared with
      | some prepared => decide (p.nH ≤ prepared.counter)
      | none => false) &&
    (decide (p.nC = 0) || decide (p.nH ≠ 0 ∧ p.ballot.counter ≥ p.nH ∧ p.nH ≥ p.nC))
  | .confirm c =>
    decide (c.ballot.counter > 0) && decide (c.nH ≤ c.ballot.counter) &&
    decide (c.nCommit ≤ c.nH)
  | .externalize e => decide (e.commit.counter > 0) && decide (e.nH ≥ e.commit.counter)

/-- What the checks ask of a `PREPARE` statement. -/
theorem arePledgesSane_prepare_iff {self : Bool} {p : SCPPrepare} :
    arePledgesSane self (.prepare p) = true ↔
      (self = true ∨ p.ballot.counter > 0) ∧
      (∀ q ∈ p.prepared, ∀ q' ∈ p.preparedPrime, q' ≤ q ∧ q'.value ≠ q.value) ∧
      (p.nH = 0 ∨ ∃ q ∈ p.prepared, p.nH ≤ q.counter) ∧
      (p.nC = 0 ∨ p.nH ≠ 0 ∧ p.ballot.counter ≥ p.nH ∧ p.nH ≥ p.nC) := by
  obtain ⟨hash, ballot, prepared, preparedPrime, nC, nH⟩ := p
  cases prepared <;> cases preparedPrime <;>
    simp only [arePledgesSane, Bool.and_eq_true, Bool.or_eq_true, decide_eq_true_eq,
      areBallotsLessAndIncompatible_iff, Option.mem_def, Option.some.injEq, reduceCtorEq,
      forall_eq', exists_eq_left', false_and, exists_false, IsEmpty.forall_iff, implies_true,
      Bool.false_eq_true, and_assoc, true_and]

variable (ballot : SCPBallot)

/-- Is `ballot` voted prepared by the statement: the filter of
`attemptAcceptPrepared`. -/
def hasVotedPrepare : BallotPledges → Bool
  | .prepare p => areBallotsLessAndCompatible ballot p.ballot
  | .confirm c => areBallotsCompatible ballot c.ballot
  | .externalize e => areBallotsCompatible ballot e.commit

/-- Is `ballot` accepted prepared by the statement. -/
def hasPreparedBallot : BallotPledges → Bool
  | .prepare p =>
    p.prepared.any (areBallotsLessAndCompatible ballot) ||
    p.preparedPrime.any (areBallotsLessAndCompatible ballot)
  | .confirm c => areBallotsLessAndCompatible ballot ⟨c.nPrepared, c.ballot.value⟩
  | .externalize e => areBallotsCompatible ballot e.commit

/-- An interval `[low, high]` of counters. -/
abbrev Interval := Uint32 × Uint32

/-- Does the statement vote to commit the interval: the filter of
`attemptAcceptCommit`. -/
def hasVotedCommit (cur : Interval) : BallotPledges → Bool
  | .prepare p =>
    areBallotsCompatible ballot p.ballot &&
    decide (p.nC ≠ 0 ∧ p.nC ≤ cur.1 ∧ cur.2 ≤ p.nH)
  | .confirm c => areBallotsCompatible ballot c.ballot && decide (c.nCommit ≤ cur.1)
  | .externalize e => areBallotsCompatible ballot e.commit && decide (e.commit.counter ≤ cur.1)

/-- Does the statement accept commit for the interval. -/
def commitPredicate (check : Interval) : BallotPledges → Bool
  | .prepare _ => false
  | .confirm c =>
    areBallotsCompatible ballot c.ballot && decide (c.nCommit ≤ check.1 ∧ check.2 ≤ c.nH)
  | .externalize e => areBallotsCompatible ballot e.commit && decide (e.commit.counter ≤ check.1)

def statementBallotCounter : BallotPledges → Uint32
  | .prepare p => p.ballot.counter
  | .confirm c => c.ballot.counter
  | .externalize _ => uint32Max

/-- `b` for `PREPARE`, `c` for the other statements. -/
def getWorkingBallot : BallotPledges → SCPBallot
  | .prepare p => p.ballot
  | .confirm c => ⟨c.nCommit, c.ballot.value⟩
  | .externalize e => e.commit

def getStatementValues : BallotPledges → OrderedSet Value
  | .prepare p =>
    (((∅ : OrderedSet Value).insertAll
      (if p.ballot.counter ≠ 0 then [p.ballot.value] else [])).insertAll
      (p.prepared.toList.map value)).insertAll
      (p.preparedPrime.toList.map value)
  | .confirm c => (∅ : OrderedSet Value).insert c.ballot.value
  | .externalize e => (∅ : OrderedSet Value).insert e.commit.value

/-! ## Candidates of the searches -/

/-- The ballots of a hint, from which `getPrepareCandidates` starts. -/
def hintBallots : BallotPledges → OrderedSet SCPBallot
  | .prepare p =>
    (((∅ : OrderedSet SCPBallot).insert p.ballot).insertAll p.prepared.toList).insertAll
      p.preparedPrime.toList
  | .confirm c =>
    ((∅ : OrderedSet SCPBallot).insert ⟨c.nPrepared, c.ballot.value⟩).insert
      ⟨uint32Max, c.ballot.value⟩
  | .externalize e => (∅ : OrderedSet SCPBallot).insert ⟨uint32Max, e.commit.value⟩

/-- The ballots below `topVote` that one recorded statement may have prepared. -/
def candidatesBelow (topVote : SCPBallot) : BallotPledges → List SCPBallot
  | .prepare p =>
    [p.ballot].filter (areBallotsLessAndCompatible · topVote) ++
    p.prepared.toList.filter (areBallotsLessAndCompatible · topVote) ++
    p.preparedPrime.toList.filter (areBallotsLessAndCompatible · topVote)
  | .confirm c =>
    if areBallotsCompatible topVote c.ballot then
      topVote :: if c.nPrepared < topVote.counter then [⟨c.nPrepared, topVote.value⟩] else []
    else []
  | .externalize e => if areBallotsCompatible topVote e.commit then [topVote] else []

/-- `BallotProtocol::getPrepareCandidates`. -/
def getPrepareCandidates (latest : EnvelopeMap BallotPledges) (hint : BallotPledges) :
    OrderedSet SCPBallot :=
  (hintBallots hint).descending.foldl (fun candidates topVote =>
    latest.entries.foldl (fun candidates e =>
      candidates.insertAll (candidatesBelow topVote e.2.statement.pledges)) candidates) ∅

/-- The counters at which one statement starts or ends a commit interval
compatible with `ballot`. -/
def commitBoundaries : BallotPledges → List Uint32
  | .prepare p =>
    if areBallotsCompatible ballot p.ballot ∧ p.nC ≠ 0 then [p.nC, p.nH] else []
  | .confirm c => if areBallotsCompatible ballot c.ballot then [c.nCommit, c.nH] else []
  | .externalize e =>
    if areBallotsCompatible ballot e.commit then [e.commit.counter, e.nH, uint32Max] else []

/-- `BallotProtocol::getCommitBoundariesFromStatements`. -/
def getCommitBoundariesFromStatements (latest : EnvelopeMap BallotPledges) (ballot : SCPBallot) :
    OrderedSet Uint32 :=
  latest.entries.foldl (fun res e =>
    res.insertAll (commitBoundaries ballot e.2.statement.pledges)) ∅

/-- `BallotProtocol::findExtendedInterval` over the boundaries from the top. A
candidate that starts at zero stands for none. -/
def findExtendedInterval (pred : Interval → Bool) : List Uint32 → Interval → Interval
  | [], candidate => candidate
  | b :: rest, candidate =>
    if candidate.1 = 0 then
      if pred (b, b) then findExtendedInterval pred rest (b, b)
      else findExtendedInterval pred rest candidate
    else if b > candidate.2 then findExtendedInterval pred rest candidate
    else if pred (b, candidate.2) then findExtendedInterval pred rest (b, candidate.2)
    else candidate

/-- The ballot whose value `attemptAcceptCommit` extracts from a hint. -/
def acceptCommitHint : BallotPledges → Option SCPBallot
  | .prepare p => if p.nC ≠ 0 then some ⟨p.nH, p.ballot.value⟩ else none
  | .confirm c => some ⟨c.nH, c.ballot.value⟩
  | .externalize e => some ⟨e.nH, e.commit.value⟩

/-- The ballot whose value `attemptConfirmCommit` extracts from a hint. -/
def confirmCommitHint : BallotPledges → Option SCPBallot
  | .prepare _ => none
  | .confirm c => some ⟨c.nH, c.ballot.value⟩
  | .externalize e => some ⟨e.nH, e.commit.value⟩

/-! ## Members of the candidate sets -/

theorem mem_foldl_insertAll {α β : Type} [LinearOrder α] {a : α} (f : β → List α) (l : List β)
    (start : OrderedSet α) :
    a ∈ l.foldl (fun res e => res.insertAll (f e)) start ↔ (∃ e ∈ l, a ∈ f e) ∨ a ∈ start := by
  induction l generalizing start with
  | nil => simp
  | cons e l ih =>
    rw [List.foldl_cons, ih, mem_insertAll]
    simp only [List.mem_cons, exists_eq_or_imp]
    rw [← or_assoc, or_comm (b := a ∈ f e)]

variable {latest : EnvelopeMap BallotPledges}

theorem exists_mem_entries_iff {P : BallotPledges → Prop} :
    (∃ e ∈ latest.entries, P e.2.statement.pledges) ↔
      ∃ n e, latest.lookup n = some e ∧ P e.statement.pledges := by
  constructor
  · rintro ⟨⟨n, e⟩, hmem, hP⟩
    exact ⟨n, e, AList.mem_lookup_iff.mpr hmem, hP⟩
  · rintro ⟨n, e, hlook, hP⟩
    exact ⟨⟨n, e⟩, AList.mem_lookup_iff.mp hlook, hP⟩

/-- A prepare candidate lies below a ballot of the hint and comes from a recorded
statement. -/
theorem mem_getPrepareCandidates {hint : BallotPledges} {b : SCPBallot} :
    b ∈ getPrepareCandidates latest hint ↔ ∃ topVote ∈ hintBallots hint, ∃ n e,
      latest.lookup n = some e ∧ b ∈ candidatesBelow topVote e.statement.pledges := by
  have hfold : ∀ (l : List SCPBallot) (start : OrderedSet SCPBallot),
      b ∈ l.foldl (fun candidates topVote =>
        latest.entries.foldl (fun candidates e =>
          candidates.insertAll (candidatesBelow topVote e.2.statement.pledges)) candidates) start ↔
      (∃ topVote ∈ l, ∃ e ∈ latest.entries,
        b ∈ candidatesBelow topVote e.2.statement.pledges) ∨ b ∈ start := by
    intro l
    induction l with
    | nil => simp
    | cons topVote l ih =>
      intro start
      rw [List.foldl_cons, ih, mem_foldl_insertAll]
      simp only [List.mem_cons, exists_eq_or_imp]
      rw [← or_assoc]
      exact or_congr_left or_comm
  rw [getPrepareCandidates, hfold]
  simp only [notMem_empty, or_false, mem_descending]
  constructor
  · rintro ⟨topVote, hT, he⟩
    exact ⟨topVote, hT, (exists_mem_entries_iff (P := (b ∈ candidatesBelow topVote ·))).mp he⟩
  · rintro ⟨topVote, hT, he⟩
    exact ⟨topVote, hT, (exists_mem_entries_iff (P := (b ∈ candidatesBelow topVote ·))).mpr he⟩

theorem mem_getCommitBoundaries {ballot : SCPBallot} {k : Uint32} :
    k ∈ getCommitBoundariesFromStatements latest ballot ↔ ∃ n e, latest.lookup n = some e ∧
      k ∈ commitBoundaries ballot e.statement.pledges := by
  rw [getCommitBoundariesFromStatements, mem_foldl_insertAll,
    ← exists_mem_entries_iff (P := (k ∈ commitBoundaries ballot ·))]
  simp only [notMem_empty, or_false]

variable {topVote : SCPBallot}

/-- Every ballot of a statement is a candidate below itself. -/
theorem mem_candidatesBelow_self {hint : BallotPledges} (h : topVote ∈ hintBallots hint) :
    topVote ∈ candidatesBelow topVote hint := by
  cases hint with
  | prepare p =>
    simp only [hintBallots, mem_insertAll, mem_insert,
      notMem_empty, or_false, Option.mem_toList] at h
    simp only [candidatesBelow, List.mem_append, List.mem_filter, areBallotsLessAndCompatible_iff,
      le_refl, and_self, and_true, List.mem_singleton, Option.mem_toList]
    tauto
  | confirm c =>
    simp only [hintBallots, mem_insert, notMem_empty, or_false] at h
    have hval : topVote.value = c.ballot.value := by rcases h with rfl | rfl <;> rfl
    rw [candidatesBelow, if_pos (areBallotsCompatible_iff.mpr hval)]
    exact List.mem_cons_self
  | externalize e =>
    simp only [hintBallots, mem_insert, notMem_empty, or_false] at h
    rw [candidatesBelow, if_pos (areBallotsCompatible_iff.mpr (by rw [h]))]
    exact List.mem_cons_self

/-! ## Losing support for a prepared ballot -/

/-- A statement that prepares, or votes to prepare, `(k, x)` but not the ballot
above it contributes `(k, x)` as a candidate. -/
theorem mem_candidatesBelow_of_lost {pl : BallotPledges} {k : Uint32} (hk : k < topVote.counter)
    (hlost : hasVotedPrepare ⟨k, topVote.value⟩ pl = true ∧
        hasVotedPrepare ⟨k + 1, topVote.value⟩ pl = false ∨
      hasPreparedBallot ⟨k, topVote.value⟩ pl = true ∧
        hasPreparedBallot ⟨k + 1, topVote.value⟩ pl = false) :
    ⟨k, topVote.value⟩ ∈ candidatesBelow topVote pl := by
  -- on one value, a ballot that reaches `k` and not `k + 1` is `(k, x)`
  have hexact : ∀ b : SCPBallot,
      areBallotsLessAndCompatible ⟨k, topVote.value⟩ b = true →
      areBallotsLessAndCompatible ⟨k + 1, topVote.value⟩ b = false →
      b = ⟨k, topVote.value⟩ := by
    intro b hle hnot
    obtain ⟨hle, hv⟩ := areBallotsLessAndCompatible_iff.mp hle
    have hnot := areBallotsLessAndCompatible_eq_false.mp hnot
    have hle' : k ≤ b.counter := counter_le hle
    have hlt : b.counter < k + 1 := by
      by_contra hge
      exact hnot ((mk_le_iff hv).mpr (not_lt.mp hge)) hv
    refine ext (le_antisymm ?_ hle') hv.symm
    rwa [← uint32_lt_succ_iff (hk.trans_le (le_uint32Max _))]
  have hself : areBallotsLessAndCompatible ⟨k, topVote.value⟩ topVote = true :=
    areBallotsLessAndCompatible_iff.mpr ⟨(mk_le_iff rfl).mpr hk.le, rfl⟩
  cases pl with
  | prepare p =>
    simp only [candidatesBelow, List.mem_append, List.mem_filter, List.mem_singleton, hself,
      and_true, Option.mem_toList]
    simp only [hasVotedPrepare, hasPreparedBallot, Bool.or_eq_true, Bool.or_eq_false_iff,
      Option.any_eq_true, Option.any_eq_false] at hlost
    rcases hlost with ⟨h, hn⟩ | ⟨⟨b, hb, h⟩ | ⟨b, hb, h⟩, hn⟩
    · exact .inl (.inl (hexact _ h hn).symm)
    · rw [← hexact b h (by simpa using hn.1 b hb)]
      exact .inl (.inr hb)
    · rw [← hexact b h (by simpa using hn.2 b hb)]
      exact .inr hb
  | confirm c =>
    simp only [hasVotedPrepare, hasPreparedBallot] at hlost
    rcases hlost with ⟨h, hn⟩ | ⟨h, hn⟩
    · rw [areBallotsCompatible_iff] at h
      rw [areBallotsCompatible_eq_false] at hn
      exact absurd h hn
    · have hb := hexact _ h hn
      have hv : topVote.value = c.ballot.value := (congrArg value hb).symm
      have hn : c.nPrepared = k := congrArg counter hb
      rw [candidatesBelow, if_pos (areBallotsCompatible_iff.mpr hv), hn, if_pos hk]
      simp
  | externalize e =>
    simp only [hasVotedPrepare, hasPreparedBallot] at hlost
    simp only [areBallotsCompatible_iff, areBallotsCompatible_eq_false] at hlost
    tauto

end DigitalBits.Scp
