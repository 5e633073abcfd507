import DigitalBits.Scp.Agreement

/-!
# No confirmable commit is missed

The searches for commits look at one statement and at the counters where the recorded
statements start or end an interval. This is enough: a quorum that accepts a commit at
some counter also accepts it at the highest start among its members, and a quorum that
was not there before contains the new statement. Zero stands for "nothing found" in the
search, so it matters that no quorum accepts a commit from zero on; an ill-behaved node
may say so, a correct one does not.
-/
namespace DigitalBits.Scp
open Lib LocalNode BallotProtocol List

/-! ## The search -/

/-- A boundary that passes the test is enough for the search to end above zero. -/
theorem findExtendedInterval_ne_zero {pred : Interval → Bool} (hzero : ∀ n, pred (0, n) = false)
    (l : List Uint32) (cur : Interval)
    (h : cur.1 ≠ 0 ∨ ∃ b ∈ l, pred (b, b) = true) : (findExtendedInterval pred l cur).1 ≠ 0 := by
  have hpos : ∀ b n, pred (b, n) = true → b ≠ 0 := by
    rintro b n hb rfl
    rw [hzero] at hb
    cases hb
  induction l generalizing cur with
  | nil =>
    rcases h with h | ⟨b, hb, -⟩
    · exact h
    · cases hb
  | cons b rest ih =>
    rw [findExtendedInterval]
    split_ifs with h0 hpred hgt hext
    · exact ih _ (.inl (hpos b b hpred))
    · refine ih _ (.inr ?_)
      obtain ⟨b', hb', hp⟩ := h.resolve_left (not_not.mpr h0)
      rcases mem_cons.mp hb' with rfl | hb'
      · exact absurd hp hpred
      · exact ⟨b', hb', hp⟩
    · exact ih _ (.inl h0)
    · exact ih _ (.inl (hpos b _ hext))
    · exact h0

/-- An interval passes the test only if every interval within it does. -/
def Shrinking (pred : Interval → Bool) : Prop :=
  ∀ lo hi, pred (lo, hi) = true → ∀ lo' hi', lo ≤ lo' → lo' ≤ hi' → hi' ≤ hi →
    pred (lo', hi') = true

/-- The boundaries above zero that pass the test together with `hi`. -/
def startsBelow (boundaries : OrderedSet Uint32) (pred : Interval → Bool) (hi : Uint32) :
    Set Uint32 :=
  {lo | lo ∈ boundaries ∧ lo ≠ 0 ∧ pred (lo, hi) = true}

/-- The boundaries above zero that pass the test alone. -/
def tops (boundaries : OrderedSet Uint32) (pred : Interval → Bool) : Set Uint32 :=
  {b | b ∈ startsBelow boundaries pred b}

/-- The highest boundary that passes, extended down as far as the test allows. -/
def Widest (boundaries : OrderedSet Uint32) (pred : Interval → Bool) (r : Interval) : Prop :=
  (r.1 ≠ 0 ↔ ∃ b, b ∈ tops boundaries pred) ∧
    (r.1 ≠ 0 → IsGreatest (tops boundaries pred) r.2 ∧
      IsLeast (startsBelow boundaries pred r.2) r.1 ∧ pred r = true)

/-- Boundaries that fail alone do not move the search; neither does zero. -/
theorem findExtendedInterval_skip {pred : Interval → Bool} {l₁ : List Uint32}
    (h : ∀ b ∈ l₁, b ≠ 0 → pred (b, b) = false) (l₂ : List Uint32) :
    findExtendedInterval pred (l₁ ++ l₂) (0, 0) = findExtendedInterval pred l₂ (0, 0) := by
  induction l₁ with
  | nil => rfl
  | cons b rest ih =>
    obtain ⟨hb, hrest⟩ := forall_mem_cons.mp h
    by_cases h0 : b = 0 <;> simp_all [findExtendedInterval]

/-- A candidate above zero keeps its top and takes the lowest start that passes. -/
theorem findExtendedInterval_extend {pred : Interval → Bool} (hpred : Shrinking pred)
    (l : List Uint32) {lo hi : Uint32} (hpos : lo ≠ 0 ∨ l = []) (hle : lo ≤ hi)
    (hsorted : (lo :: l).Pairwise (· > ·)) (h : pred (lo, hi) = true) :
    ∃ r ∈ lo :: l, findExtendedInterval pred l (lo, hi) = (r, hi) ∧ pred (r, hi) = true ∧
      ∀ b ∈ lo :: l, pred (b, hi) = true → r ≤ b := by
  induction l generalizing lo with
  | nil => exact ⟨lo, by simp, rfl, h, by simp⟩
  | cons b rest ih =>
    obtain ⟨hlo, hrest⟩ := pairwise_cons.mp hsorted
    have hb : b < lo := hlo b (by simp)
    have hbhi : b ≤ hi := hb.le.trans hle
    have hlow := (pairwise_cons.mp hrest).1
    simp only [findExtendedInterval, hpos.resolve_right (by simp), if_false, hbhi.not_gt]
    split_ifs with hext
    · have hpos' : b ≠ 0 ∨ rest = [] := by
        rw [or_iff_not_imp_left, not_not]
        rintro rfl
        exact eq_nil_iff_forall_not_mem.mpr fun c hc => (Fin.zero_le c).not_gt (hlow c hc)
      obtain ⟨r, hr, heq, hp, hmin⟩ := ih hpos' hbhi hrest hext
      refine ⟨r, mem_cons_of_mem _ hr, heq, hp, forall_mem_cons.mpr ⟨fun _ => ?_, hmin⟩⟩
      exact (hmin b (by simp) hext).trans hb.le
    · refine ⟨lo, by simp, rfl, h, ?_⟩
      -- no start below `b` passes either
      intro c hc hp
      rcases mem_cons.mp hc with rfl | hc
      · exact le_rfl
      · refine absurd (hpred c hi hp b hi ?_ hbhi le_rfl) hext
        rcases mem_cons.mp hc with rfl | hc
        · exact le_rfl
        · exact (hlow c hc).le

/-- The search finds the widest interval exactly when zero does not extend it. -/
theorem findExtendedInterval_widest {pred : Interval → Bool} (hpred : Shrinking pred)
    (boundaries : OrderedSet Uint32) :
    Widest boundaries pred (findExtendedInterval pred boundaries.descending (0, 0)) ↔
      ¬ (0 ∈ boundaries ∧ ∃ hi, IsGreatest (tops boundaries pred) hi ∧ pred (0, hi) = true) := by
  have hmem : ∀ b, b ∈ boundaries ↔ b ∈ boundaries.descending := by simp
  have hsorted := boundaries.descending_sorted
  cases hfind : boundaries.descending.find? fun b => decide (b ≠ 0) && pred (b, b) with
  | none =>
    have hfail : ∀ b ∈ boundaries, b ≠ 0 → pred (b, b) = false := by simpa using hfind
    have hnone : ∀ b, b ∉ tops boundaries pred := by simp +contextual [tops, startsBelow, hfail]
    have hskip := findExtendedInterval_skip (fun b hb => hfail b ((hmem b).mpr hb)) []
    rw [append_nil] at hskip
    simp [hskip, findExtendedInterval, Widest, hnone, IsGreatest]
  | some hi =>
    obtain ⟨hhi, l₁, l₂, hl, hfail⟩ := find?_eq_some_iff_append.mp hfind
    simp only [Bool.and_eq_true, decide_eq_true_eq] at hhi
    simp only [hl] at hmem hsorted ⊢
    obtain ⟨-, hbelow, habove⟩ := pairwise_append.mp hsorted
    have hfail' : ∀ b ∈ l₁, b ≠ 0 → pred (b, b) = false := by
      simpa [or_iff_not_imp_left] using hfail
    have htop : IsGreatest (tops boundaries pred) hi := by
      refine ⟨⟨(hmem hi).mpr (by simp), hhi⟩, ?_⟩
      rintro b ⟨hb, hb0, hp⟩
      rcases mem_append.mp ((hmem b).mp hb) with hb | hb
      · simp [hfail' b hb hb0] at hp
      · rcases mem_cons.mp hb with rfl | hb
        · exact le_rfl
        · exact ((pairwise_cons.mp hbelow).1 b hb).le
    obtain ⟨r, hr, heq, hp, hmin⟩ :=
      findExtendedInterval_extend hpred l₂ (.inl hhi.1) le_rfl hbelow hhi.2
    have hstart : findExtendedInterval pred (hi :: l₂) (0, 0) = (r, hi) := by
      simpa [findExtendedInterval, hhi.2] using heq
    have hleast : ∀ b ∈ boundaries, pred (b, hi) = true → r ≤ b := by
      intro b hb hpb
      rcases mem_append.mp ((hmem b).mp hb) with hb | hb
      · exact (hmin hi (by simp) hhi.2).trans (habove b hb hi (by simp)).le
      · exact hmin b hb hpb
    rw [findExtendedInterval_skip hfail', hstart]
    constructor
    · rintro hw ⟨h0, hi', htop', hzero⟩
      obtain rfl := htop'.unique htop
      exact hw.1.mpr ⟨_, htop.1⟩ (le_antisymm (hleast 0 h0 hzero) (Fin.zero_le r))
    · intro hzero
      have hrB : r ∈ boundaries := (hmem r).mpr (mem_append_right _ hr)
      have hr0 : r ≠ 0 := by
        rintro rfl
        exact hzero ⟨hrB, hi, htop, hp⟩
      exact ⟨iff_of_true hr0 ⟨hi, htop.1⟩, fun _ =>
        ⟨htop, ⟨⟨hrB, hr0, hp⟩, fun b hb => hleast b hb.1 hb.2.2⟩, hp⟩⟩

/-- A statement that accepts a commit from zero on. -/
def zeroConfirm : BallotEnvelope := ⟨⟨1, 1, .confirm ⟨⟨1, [1]⟩, 1, 0, 1, 1⟩⟩, []⟩

def zeroBoundaries : OrderedSet Uint32 :=
  getCommitBoundariesFromStatements ((∅ : EnvelopeMap BallotPledges).insert 1 zeroConfirm) ⟨1, [1]⟩

def zeroAccepts (cur : Interval) : Bool :=
  commitPredicate ⟨1, [1]⟩ cur zeroConfirm.statement.pledges

theorem findExtendedInterval_zeroConfirm :
    isStatementSane (plainNode (fun _ => .mk 1 [1] []) 0) zeroConfirm.statement false = true ∧
    Shrinking zeroAccepts ∧ ¬ Widest zeroBoundaries zeroAccepts
      (findExtendedInterval zeroAccepts zeroBoundaries.descending (0, 0)) := by
  refine ⟨by decide +kernel, ?_, ?_⟩
  · simp only [Shrinking, zeroAccepts, zeroConfirm, commitPredicate, Bool.and_eq_true,
      decide_eq_true_eq]
    exact fun lo hi h lo' hi' hlo _ hhi => ⟨h.1, h.2.1.trans hlo, hhi.trans h.2.2⟩
  · rintro ⟨hiff, -⟩
    have htop : 1 ∈ tops zeroBoundaries zeroAccepts :=
      ⟨OrderedSet.mem_def.mpr (by decide +kernel), by decide +kernel⟩
    exact hiff.mpr ⟨1, htop⟩ (by decide +kernel)

theorem findExtendedInterval_widest_positive :
    Widest zeroBoundaries (fun cur => decide (1 ≤ cur.1))
      (findExtendedInterval (fun cur => decide (1 ≤ cur.1)) zeroBoundaries.descending (0, 0)) := by
  refine (findExtendedInterval_widest ?_ zeroBoundaries).mpr ?_
  · exact fun lo hi h lo' hi' hlo _ _ => decide_eq_true ((of_decide_eq_true h).trans hlo)
  · rintro ⟨-, hi, -, h⟩
    cases h

/-- Where the commit of a statement starts. -/
def BallotPledges.commitStart : BallotPledges → Uint32
  | .prepare _ => 0
  | .confirm c => c.nCommit
  | .externalize e => e.commit.counter

variable {ballot : SCPBallot} {pl : BallotPledges}

theorem commitStart_mem_boundaries {cur : Interval} (h : commitPredicate ballot cur pl = true) :
    pl.commitStart ∈ commitBoundaries ballot pl := by
  cases pl with
  | prepare p => cases h
  | confirm c | externalize e =>
    simp only [commitPredicate, Bool.and_eq_true] at h
    simp [commitBoundaries, BallotPledges.commitStart, h.1]

theorem commitStart_le {n : Uint32} (h : commitPredicate ballot (n, n) pl = true) :
    pl.commitStart ≤ n := by
  cases pl with
  | prepare p => cases h
  | confirm c =>
    simp only [commitPredicate, Bool.and_eq_true, decide_eq_true_eq] at h
    exact h.2.1
  | externalize e =>
    simp only [commitPredicate, Bool.and_eq_true, decide_eq_true_eq] at h
    exact h.2

/-- A statement that accepts a commit at `n` accepts it everywhere between its start
and `n`. -/
theorem commitPredicate_between {k n : Uint32} (h : commitPredicate ballot (n, n) pl = true)
    (hk : pl.commitStart ≤ k) (hkn : k ≤ n) :
    commitPredicate ballot (k, k) pl = true := by
  cases pl with
  | prepare p => cases h
  | confirm c =>
    simp only [commitPredicate, Bool.and_eq_true, decide_eq_true_eq] at h ⊢
    exact ⟨h.1, hk, hkn.trans h.2.2⟩
  | externalize e =>
    simp only [commitPredicate, Bool.and_eq_true, decide_eq_true_eq] at h ⊢
    exact ⟨h.1, hk⟩

section
variable {scp : SCP} {latest : EnvelopeMap BallotPledges} {ballot : SCPBallot}

/-- A quorum for a commit is a quorum for it at one of the boundaries: the highest
start among its members. -/
theorem exists_boundary_of_ratify {n : Uint32}
    (h : federatedRatify scp latest (commitPredicate ballot (n, n)) = true) :
    ∃ b ∈ getCommitBoundariesFromStatements latest ballot,
      federatedRatify scp latest (commitPredicate ballot (b, b)) = true := by
  obtain ⟨u, hu, hslice⟩ := exists_quorum_of_federatedRatify.mp h
  have hne : u.toFinset.Nonempty := by
    rw [toFinset_nonempty_iff]
    rintro rfl
    rw [isQuorumSlice_nil] at hslice
    cases hslice
  let start : NodeID → Uint32 := fun w =>
    ((latest.lookup w).map fun e => e.statement.pledges.commitStart).getD 0
  obtain ⟨w, hw, hmax⟩ := u.toFinset.exists_max_image start hne
  simp only [mem_toFinset] at hw hmax
  obtain ⟨e, he, hf, -⟩ := hu w hw
  have hstart : ∀ w' e', latest.lookup w' = some e' →
      start w' = e'.statement.pledges.commitStart := by
    intro w' e' he'
    simp [start, he']
  refine ⟨start w, ?_, ?_⟩
  · rw [hstart w e he, mem_getCommitBoundaries]
    exact ⟨w, e, he, commitStart_mem_boundaries hf⟩
  · refine exists_quorum_of_federatedRatify.mpr ⟨u, ?_, hslice⟩
    intro w' hw'
    obtain ⟨e', he', hf', q, hq, hsat⟩ := hu w' hw'
    refine ⟨e', he', ?_, q, hq, hsat⟩
    refine commitPredicate_between hf' ?_ ?_
    · rw [← hstart w' e' he']
      exact hmax w' hw'
    · rw [hstart w e he]
      exact commitStart_le hf

end

/-- Some quorum accepts the commit of a value at a counter above zero. -/
def Ratified (scp : SCP) (bp : BallotProtocol) (x : Value) : Prop :=
  ∃ n ≠ 0, federatedRatify scp bp.mLatestEnvelopes (commitPredicate ⟨n, x⟩ (n, n)) = true

/-- The statement accepts a commit on the value. -/
def Announces (x : Value) (pl : BallotPledges) : Prop :=
  ∃ ballot, confirmCommitHint pl = some ballot ∧ ballot.value = x

section
variable {scp scp' : SCP} {bp bp' : BallotProtocol} {x : Value} {hint : BallotPledges}

theorem announces_of_commitPredicate {n : Uint32} {cur : Interval} {pl : BallotPledges}
    (h : commitPredicate ⟨n, x⟩ cur pl = true) : Announces x pl := by
  cases pl with
  | prepare p => cases h
  | confirm c | externalize e =>
    simp only [commitPredicate, Bool.and_eq_true, areBallotsCompatible_iff] at h
    exact ⟨_, rfl, h.1.symm⟩

theorem Announces.acceptCommitHint {pl : BallotPledges} (h : Announces x pl) :
    ∃ ballot, acceptCommitHint pl = some ballot ∧ ballot.value = x := by
  cases pl with
  | prepare p =>
    obtain ⟨_, h, -⟩ := h
    cases h
  | confirm c | externalize e => exact h

/-- A new statement ratifies nothing but the value it announces. -/
theorem Ratified.of_record {env : BallotEnvelope} (h : Ratified scp (bp.record env) x) :
    Ratified scp bp x ∨ Announces x env.statement.pledges := by
  obtain ⟨n, hn, hrat⟩ := h
  by_cases hc : commitPredicate ⟨n, x⟩ (n, n) env.statement.pledges = true
  · exact .inr (announces_of_commitPredicate hc)
  · refine .inl ⟨n, hn, federatedRatify_transfer rfl ?_ hrat⟩
    intro w e he hf
    rcases lookup_record he with rfl | he
    · exact absurd hf hc
    · exact ⟨e, he, hf, rfl⟩

/-- With the same quorum sets, the same values are ratified. -/
theorem Ratified.recalls (hknown : KnownSets scp bp) (hrec : scp.Recalls scp' bp)
    (hnode : scp'.mLocalNode = scp.mLocalNode) (h : Ratified scp' bp x) : Ratified scp bp x := by
  obtain ⟨n, hn, hrat⟩ := h
  refine ⟨n, hn, federatedRatify_transfer (by rw [hnode]) ?_ hrat⟩
  exact fun w e he hf => ⟨e, he, hf, (hknown.quorumSet_eq hrec he).symm⟩

/-- No commit is accepted, or voted for, from zero on. -/
structure NoneFromZero (scp : SCP) (bp : BallotProtocol) : Prop where
  accept : ∀ ballot n, federatedAccept scp bp.mLatestEnvelopes (hasVotedCommit ballot (0, n))
    (commitPredicate ballot (0, n)) = false
  ratify : ∀ ballot n,
    federatedRatify scp bp.mLatestEnvelopes (commitPredicate ballot (0, n)) = false

theorem exists_boundary_of_ratified {ballot : SCPBallot} (hval : ballot.value = x)
    (h : Ratified scp bp x) :
    ∃ b ∈ (getCommitBoundariesFromStatements bp.mLatestEnvelopes ballot).descending,
      federatedRatify scp bp.mLatestEnvelopes (commitPredicate ballot (b, b)) = true := by
  obtain ⟨n, -, hrat⟩ := h
  rw [commitPredicate_congr (b := ⟨n, x⟩) (c := ballot) hval.symm] at hrat
  obtain ⟨b, hb, hrat'⟩ := exists_boundary_of_ratify hrat
  exact ⟨b, OrderedSet.mem_descending.mpr hb, hrat'⟩

/-- In `PREPARE` a statement that announces a ratified value makes the node accept a
commit. -/
theorem attemptedAcceptCommit_ne_none (hzero : NoneFromZero scp bp) (hphase : bp.mPhase = .prepare)
    (hx : Announces x hint) (hrat : Ratified scp bp x) :
    attemptedAcceptCommit scp bp hint ≠ .ok none := by
  obtain ⟨ballot, hhint, hval⟩ := hx.acceptCommitHint
  obtain ⟨b, hb, hrat'⟩ := exists_boundary_of_ratified hval hrat
  have hfound : (findAcceptCommit scp bp.mLatestEnvelopes ballot).1 ≠ 0 :=
    findExtendedInterval_ne_zero (hzero.accept ballot) _ _
      (.inr ⟨b, hb, federatedAccept_of_ratify hrat'⟩)
  simp [attemptedAcceptCommit, hhint, hphase, hfound]

/-- In `CONFIRM` on that value it makes the node externalize. -/
theorem attemptedConfirmCommit_ne_none (hbp : bp.Consistent) (hzero : NoneFromZero scp bp)
    (hphase : bp.mPhase = .confirm) (hx : Announces x hint) (hrat : Ratified scp bp x)
    (hc : ∀ c ∈ bp.mCommit, c.value = x) : attemptedConfirmCommit scp bp hint ≠ none := by
  obtain ⟨ballot, hhint, hval⟩ := hx
  obtain ⟨b, hb, hrat'⟩ := exists_boundary_of_ratified hval hrat
  have hfound : (findConfirmCommit scp bp.mLatestEnvelopes ballot).1 ≠ 0 :=
    findExtendedInterval_ne_zero (hzero.ratify ballot) _ _ (.inr ⟨b, hb, hrat'⟩)
  obtain ⟨-, -, h, c, -, -, hh, hce, -⟩ := hbp.exists_of_later (by simp [hphase])
  have hcomp : areBallotsCompatible ballot c = true := by
    rw [areBallotsCompatible_iff, hval, hc c hce]
  simp [attemptedConfirmCommit, hphase, hh, hce, hhint, hcomp, hfound]

end

/-! ## Correct nodes commit above zero -/

/-- The commit of a correct node has a counter above zero. -/
def counterInvariant (N : Network) : N.Invariant where
  Ghost := Unit
  Claim _ _
    | .prepare _ => True
    | .confirm c => c.nCommit ≠ 0
    | .externalize e => e.commit.counter ≠ 0
  State _ _ bp := bp.mPhase ≠ .prepare → ∀ c ∈ bp.mCommit, c.counter ≠ 0
  Held _ _ _ := True

theorem counterInvariant_holds (N : Network) : (counterInvariant N).Holds where
  start := ⟨(), fun v _ hphase => absurd rfl hphase⟩
  congr _ _ _ _ h hs hphase c hc := hs (by rwa [← h.phase]) c (by rwa [← h.commit])
  claim _ v bp hash pl hs hbp hpl := by
    have htold := hbp.told hpl
    cases pl with
    | prepare p => trivial
    | confirm c | externalize e => exact hs (by simp [htold.1]) _ htold.2
  held _ _ _ _ := trivial
  move g v bp scp m hv hscp hbp hs hh hen := by
    refine ⟨g, .refl v g, ?_⟩
    cases hen with
    | acceptPrepared hphase hacc hclear =>
      intro hne c hc
      rw [Move.apply, acceptPrepared_mPhase] at hne
      exact hs hne c (mem_mCommit_of_acceptPrepared hc)
    | confirmPrepared hphase =>
      intro hne
      rw [Move.apply, confirmPrepared_mPhase] at hne
      exact absurd hphase hne
    | acceptCommit hval hpos | confirmCommit hval hpos => exact fun _ => by simpa [Move.apply]
    | bump hcan hpos => exact fun hne c hc => hs hne c (mem_mCommit_of_bumpedTo hc)

section
variable {N : Network} {v : NodeID} {scp : SCP} {bp : BallotProtocol} {g : (counterInvariant N).Ghost}

theorem not_commitPredicate_zero {w : NodeID} {pl : BallotPledges}
    (h : (counterInvariant N).Claim g w pl) {ballot : SCPBallot} {n : Uint32} :
    commitPredicate ballot (0, n) pl ≠ true := by
  intro hc
  cases pl with
  | prepare p => cases hc
  | confirm c =>
    simp only [commitPredicate, Bool.and_eq_true, decide_eq_true_eq] at hc
    exact h (nonpos_iff_eq_zero.mp hc.2.1)
  | externalize e =>
    simp only [commitPredicate, Bool.and_eq_true, decide_eq_true_eq] at hc
    exact h (nonpos_iff_eq_zero.mp hc.2)

theorem not_hasVotedCommit_zero {w : NodeID} {pl : BallotPledges}
    (h : (counterInvariant N).Claim g w pl) {ballot : SCPBallot} {n : Uint32} :
    hasVotedCommit ballot (0, n) pl ≠ true := by
  intro hc
  cases pl with
  | prepare p =>
    simp only [hasVotedCommit, Bool.and_eq_true, decide_eq_true_eq] at hc
    exact hc.2.1 (nonpos_iff_eq_zero.mp hc.2.2.1)
  | confirm c | externalize e =>
    simp only [hasVotedCommit, Bool.and_eq_true, decide_eq_true_eq] at hc
    exact h (nonpos_iff_eq_zero.mp hc.2)

/-- A node that is not captured hears of no commit from zero on. -/
theorem noneFromZero_of_heard (hN : N.Dispensable) (hfree : ¬ N.Captured v) (hv : v ∈ N.correct)
    (hscp : N.Serves v scp) (hh : (counterInvariant N).Heard g bp) : NoneFromZero scp bp := by
  have hratify : ∀ f : BallotPledges → Bool,
      (∀ w pl, (counterInvariant N).Claim g w pl → f pl ≠ true) →
      federatedRatify scp bp.mLatestEnvelopes f = false := by
    intro f hf
    by_contra hne
    rw [Bool.not_eq_false] at hne
    rcases exists_quorum_of_ratify hh hscp hfree hne with ⟨w, -, e, hclaim, he⟩ | ⟨U, hU, hall⟩
    · exact hf w _ hclaim he
    · obtain ⟨w, hw⟩ := hU.2.1
      obtain ⟨pl, hclaim, hpl⟩ := hall w hw
      exact hf w pl hclaim hpl
  refine ⟨?_, fun ballot n => hratify _ fun w pl hclaim => not_commitPredicate_zero hclaim⟩
  intro ballot n
  by_contra hne
  rw [Bool.not_eq_false, federatedAccept_iff] at hne
  rcases hne with hblock | hquorum
  · obtain ⟨w, -, pl, hclaim, hpl⟩ := exists_claim_of_isVBlocking hN hv hh hscp hblock
    exact not_commitPredicate_zero hclaim hpl
  · rw [hratify] at hquorum
    · cases hquorum
    · intro w pl hclaim hpl
      rw [Bool.or_eq_true] at hpl
      rcases hpl with hpl | hpl
      · exact not_commitPredicate_zero hclaim hpl
      · exact not_hasVotedCommit_zero hclaim hpl

end

/-- A ratified value is the one that the node has committed, if any. -/
theorem commit_eq_of_ratified {N : Network} {v : NodeID} {scp : SCP} {s : Slot} {σ : NodeID → Slot}
    (hok : (safeInvariant N).OkAt σ v s) (hfree : ¬ N.Captured v) (hv : v ∈ N.correct)
    (hscp : N.Serves v scp) {x : Value} (hrat : Ratified scp s.mBallotProtocol x)
    (hphase : s.mBallotProtocol.mPhase ≠ .prepare) :
    ∀ c ∈ s.mBallotProtocol.mCommit, c.value = x := by
  intro c hc
  obtain ⟨F, hF⟩ := hok.node hv
  obtain ⟨n, -, hrat⟩ := hrat
  have hown : F.1.acceptedCommit v c := hF.state.own.acceptedCommit_le v c ⟨rfl, hphase, hc⟩
  have hother : ∃ w d, F.1.acceptedCommit w d ∧ d.value = x := by
    rcases exists_quorum_of_ratify hF.heard hscp hfree hrat with ⟨w, -, e, hclaim, he⟩ | ⟨U, hU, hall⟩
    · have hclaim' : Claims F.1 w (.externalize e) := hclaim
      obtain ⟨d, hd, -, hdv⟩ := hclaim'.acceptedCommit he
      exact ⟨w, d, hd, hdv⟩
    · obtain ⟨w, hw⟩ := hU.2.1
      obtain ⟨pl, hclaim, hpl⟩ := hall w hw
      have hclaim' : Claims F.1 w pl := hclaim
      obtain ⟨d, hd, -, hdv⟩ := hclaim'.acceptedCommit hpl
      exact ⟨w, d, hd, hdv⟩
  obtain ⟨w, d, hd, hdv⟩ := hother
  rw [← hdv]
  exact F.2.commit_unique hown hd

/-! ## The contract -/

/-- The phases only go forward. -/
structure SCPPhase.LeadsTo (p q : SCPPhase) : Prop where
  later : p ≠ .prepare → q ≠ .prepare
  last : p = .externalize → q = .externalize

theorem SCPPhase.LeadsTo.refl (p : SCPPhase) : p.LeadsTo p := ⟨id, id⟩

theorem SCPPhase.LeadsTo.trans {p q r : SCPPhase} (h : p.LeadsTo q) (h' : q.LeadsTo r) :
    p.LeadsTo r :=
  ⟨fun hp => h'.later (h.later hp), fun hp => h'.last (h.last hp)⟩

theorem Enabled.leadsTo {scp : SCP} {bp : BallotProtocol} {m : Move} (h : Enabled scp bp m) :
    bp.mPhase.LeadsTo (m.apply bp).mPhase := by
  have hne := h.mPhase_ne
  cases h with
  | acceptPrepared =>
    rw [Move.apply, acceptPrepared_mPhase]
    exact .refl _
  | confirmPrepared =>
    rw [Move.apply, confirmPrepared_mPhase]
    exact .refl _
  | acceptCommit =>
    rw [Move.apply, acceptCommit_mPhase _ _ hne]
    exact ⟨fun _ => by simp, fun hext => absurd hext hne⟩
  | confirmCommit => exact ⟨fun _ => SCPPhase.noConfusion, fun _ => rfl⟩
  | bump => exact .refl _

/-- The node has externalized, or whatever is ratified is on `P`. -/
def Open (scp : SCP) (bp : BallotProtocol) (P : Value → Prop) : Prop :=
  bp.mPhase = .externalize ∨ ∀ x, Ratified scp bp x → P x

/-- What the attempts of a run with a hint still have to find. The values in `g` are
left to the runs around it. -/
def Awaits (scp : SCP) (g : Value → Prop) (hint : BallotStatement) (bp : BallotProtocol) :
    Stage → Prop
  | .entered | .accepted | .confirmed => Open scp bp fun x => g x ∨ Announces x hint.pledges
  | .committed => Open scp bp fun x => g x ∨ Announces x hint.pledges ∧ bp.mPhase = .confirm
  | .finished => Open scp bp g

/-- The slot of a node among others, with what the searches rely on. -/
structure Watched (N : Network) (σ : NodeID → Slot) (v : NodeID) (scp : SCP) (s : Slot) :
    Prop where
  safe : (safeInvariant N).OkAt σ v s
  counters : (counterInvariant N).OkAt σ v s
  known : KnownSets scp s.mBallotProtocol

/-- The contract that everything ratified is found. -/
def watchContract (N : Network) (σ : NodeID → Slot) (v : NodeID) (scp : SCP) : Contract scp where
  Ghost := (Value → Prop) × SCPPhase
  At stage g hint s := Watched N σ v scp s ∧ g.2.LeadsTo s.mBallotProtocol.mPhase ∧
    Awaits scp g.1 hint s.mBallotProtocol stage
  Exit g s := Watched N σ v scp s ∧ g.2.LeadsTo s.mBallotProtocol.mPhase ∧
    Open scp s.mBallotProtocol g.1
  Fails _ _ _ := True

section
variable {scp : SCP} {bp bp' : BallotProtocol} {P Q g : Value → Prop} {hint : BallotStatement}

theorem Open.mono (h : Open scp bp P) (hPQ : ∀ x, P x → Q x) : Open scp bp Q :=
  h.imp_right fun h x hx => hPQ x (h x hx)

theorem BallotProtocol.SameBallots.ratified_iff (h : bp.SameBallots bp') (x : Value) :
    Ratified scp bp' x ↔ Ratified scp bp x := by
  rw [Ratified, Ratified, h.latest]

theorem BallotProtocol.SameBallots.open (h : bp.SameBallots bp') (hs : Open scp bp P) :
    Open scp bp' P := by
  rw [Open, h.phase]
  exact hs.imp_right fun hs x hx => hs x ((h.ratified_iff x).mp hx)

theorem BallotProtocol.SameBallots.awaits (h : bp.SameBallots bp') {stage : Stage}
    (hs : Awaits scp g hint bp stage) : Awaits scp g hint bp' stage := by
  cases stage with
  | entered | accepted | confirmed => exact h.open hs
  | committed =>
    rw [Awaits, h.phase]
    exact h.open hs
  | finished => exact h.open hs

/-- A move does not change what is ratified. -/
theorem Open.move (h : Open scp bp P) {m : Move} (hen : Enabled scp bp m) :
    Open scp (m.apply bp) P := by
  rcases h with hext | h
  · exact .inl (hen.leadsTo.last hext)
  · refine .inr fun x hx => h x ?_
    rwa [Ratified, hen.mLatestEnvelopes] at hx

theorem Open.record (h : Open scp bp P) (env : BallotEnvelope) :
    Open scp (bp.record env) fun x => P x ∨ Announces x env.statement.pledges := by
  rcases h with hext | h
  · exact .inl hext
  · refine .inr fun x hx => ?_
    rcases hx.of_record with hx | hx
    · exact .inl (h x hx)
    · exact .inr hx

/-- What an attempt may leave to the end of its run. -/
theorem Awaits.open {stage : Stage} (h : Awaits scp g hint bp stage) :
    Open scp bp fun x => g x ∨ Announces x hint.pledges := by
  cases stage with
  | entered | accepted | confirmed => exact h
  | committed => exact Open.mono h fun x hx => hx.imp_right fun hx => hx.1
  | finished => exact Open.mono h fun x hx => .inl hx

end

section
variable {N : Network} {σ : NodeID → Slot} {v : NodeID} {scp : SCP} {s t : Slot}
  {g : (Value → Prop) × SCPPhase} {hint : BallotStatement}

theorem Watched.step (hI : (safeInvariant N).Holds) (hv : v ∈ N.correct) (hscp : N.Serves v scp)
    (hs : Watched N σ v scp s) (h : BallotStep scp s t) : Watched N σ v scp t := by
  refine ⟨hs.safe.step hI hv hscp h, hs.counters.step (counterInvariant_holds N) hv hscp h, ?_⟩
  cases h with
  | keep h =>
    rw [KnownSets, h.sameBallots.latest]
    exact hs.known
  | sign hpl => exact hs.known
  | record hpl hadm => exact hs.known.record hadm.1
  | move hen hm =>
    rw [KnownSets, hm.mBallotProtocol, hen.mLatestEnvelopes]
    exact hs.known

theorem Watched.noneFromZero (hN : N.Dispensable) (hfree : ¬ N.Captured v) (hv : v ∈ N.correct)
    (hscp : N.Serves v scp) (hs : Watched N σ v scp s) : NoneFromZero scp s.mBallotProtocol := by
  obtain ⟨_, hnode⟩ := hs.counters.node hv
  exact noneFromZero_of_heard hN hfree hv hscp hnode.heard

variable (hN : N.Dispensable) (hfree : ∀ v ∈ N.correct, ¬ N.Captured v) (hv : v ∈ N.correct)
  (hscp : N.Serves v scp)

include hN hfree hv hscp

/-- Speaking leaves nothing but the values in `P` to be found. -/
theorem watch_hand {P : Value → Prop} {K : Slot → Prop} (ht : Watched N σ v scp t)
    (hopen : Open scp t.mBallotProtocol P)
    (hK : ∀ u, Watched N σ v scp u →
      t.mBallotProtocol.mPhase.LeadsTo u.mBallotProtocol.mPhase → Open scp u.mBallotProtocol P →
      K u) : (watchContract N σ v scp).Hand g K t := by
  have hI := safeInvariant_holds hN hfree
  refine ⟨(P, t.mBallotProtocol.mPhase), ⟨fun _ _ => trivial, fun _ _ _ => trivial, ?_,
    fun _ _ _ _ => trivial, ?_, ?_⟩, fun u hu => hK u hu.1 hu.2.1 hu.2.2, fun _ _ _ => trivial⟩
  · exact fun pl hpl _ => ⟨ht.step hI hv hscp (.sign hpl), .refl _, hopen⟩
  · exact fun pl hpl hadm _ => ⟨ht.step hI hv hscp (.record hpl hadm), .refl _, hopen.record _⟩
  · exact fun pl hpl hadm hext => ⟨ht.step hI hv hscp (.record hpl hadm), .refl _, .inl hext⟩

theorem watch_bumps {P : Value → Prop} {K : Slot → Prop} (hs : Watched N σ v scp s)
    (hopen : Open scp s.mBallotProtocol P)
    (hK : ∀ u, Watched N σ v scp u →
      s.mBallotProtocol.mPhase.LeadsTo u.mBallotProtocol.mPhase → Open scp u.mBallotProtocol P →
      K u) (value : Value) {n : Uint32} (hn : n ≠ 0) :
    (watchContract N σ v scp).Bumps g K s value n := by
  intro t hcan hm
  have hI := safeInvariant_holds hN hfree
  have hen : Enabled scp s.mBallotProtocol (.bump (s.mBallotProtocol.bumpTarget value n)) :=
    .bump hcan hn
  have ht := hs.step hI hv hscp (.move hen hm)
  have hopen' : Open scp t.mBallotProtocol P := by
    rw [hm.mBallotProtocol]
    exact hopen.move hen
  have hphase : t.mBallotProtocol.mPhase = s.mBallotProtocol.mPhase := by
    rw [hm.mBallotProtocol]
    rfl
  refine ⟨fun _ _ => trivial, fun _ => ?_⟩
  refine watch_hand hN hfree hv hscp (ht.step hI hv hscp (.keep (.check t))) hopen' ?_
  intro u hu hlead hopenu
  rw [← hphase] at hK
  exact hK u hu hlead hopenu

/-- A search that finds nothing leaves nothing. -/
theorem watch_stay (hs : Watched N σ v scp s) {stage : Stage} {g : Value → Prop}
    (hwait : Awaits scp g hint s.mBallotProtocol stage)
    (hnone : attempted scp s.mBallotProtocol hint.pledges stage = .ok none) :
    Awaits scp g hint s.mBallotProtocol stage.next := by
  have hzero := hs.noneFromZero hN (hfree v hv) hv hscp
  cases stage with
  | entered | accepted => exact hwait
  | confirmed =>
    rcases hwait with hext | hwait
    · exact .inl hext
    cases hphase : s.mBallotProtocol.mPhase with
    | prepare =>
      refine .inr fun x hx => ?_
      rcases hwait x hx with hg | hann
      · exact .inl hg
      · exact absurd hnone (attemptedAcceptCommit_ne_none hzero hphase hann hx)
    | confirm =>
      refine .inr fun x hx => (hwait x hx).imp_right fun hann => ⟨hann, hphase⟩
    | externalize => exact .inl hphase
  | committed =>
    rcases hwait with hext | hwait
    · exact .inl hext
    refine .inr fun x hx => ?_
    rcases hwait x hx with hg | ⟨hann, hphase⟩
    · exact hg
    · have hc := commit_eq_of_ratified hs.safe (hfree v hv) hv hscp hx (by simp [hphase])
      exact absurd (Except.ok.inj hnone)
        (attemptedConfirmCommit_ne_none (hs.safe.consistent hv) hzero hphase hann hx hc)
  | finished => exact hwait

theorem watchContract_holds : (watchContract N σ v scp).HoldsGiven fun stage hint s =>
    ∃ g, (stepsContract scp).At stage g hint s where
  keeps_at stage g hint s t _ hb h := by
    have hsame := hb.sameBallots
    refine ⟨h.1.step (safeInvariant_holds hN hfree) hv hscp (.keep hb), ?_, hsame.awaits h.2.2⟩
    rw [hsame.phase]
    exact h.2.1
  keeps_exit g s t hb h := by
    have hsame := hb.sameBallots
    refine ⟨h.1.step (safeInvariant_holds hN hfree) hv hscp (.keep hb), ?_, hsame.open h.2.2⟩
    rw [hsame.phase]
    exact h.2.1
  error _ _ _ _ _ _ _ _ := trivial
  stay stage g hint s _ h he := ⟨h.1, h.2.1, watch_stay hN hfree hv hscp h.1 h.2.2 he⟩
  move stage g hint s m t hP h hm ht := by
    obtain ⟨_, hreach, hpend⟩ := hP
    have hen := enabled_of_attempted hreach.consistent hpend hm
    have hI := safeInvariant_holds hN hfree
    have hbp := ht.mBallotProtocol
    have hopen := h.2.2.open.move hen
    rw [← hbp] at hopen
    refine watch_hand hN hfree hv hscp (h.1.step hI hv hscp (.move hen ht)) hopen ?_
    intro u hu hlead hopenu
    refine ⟨hu, (h.2.1.trans (hbp ▸ hen.leadsTo)).trans hlead, ?_⟩
    cases stage with
    | entered | accepted => exact hopenu
    | confirmed =>
      -- the move was to `CONFIRM`, which is not left backwards
      obtain ⟨_, c, k, -, rfl, -⟩ := attemptedAcceptCommit_some hm
      have hlate : u.mBallotProtocol.mPhase ≠ .prepare := by
        refine hlead.later ?_
        rw [hbp, Move.apply, acceptCommit_mPhase c k hen.mPhase_ne]
        simp
      rcases hopenu with hext | hopenu
      · exact .inl hext
      cases hphase : u.mBallotProtocol.mPhase with
      | prepare => exact absurd hphase hlate
      | confirm => exact .inr fun x hx => (hopenu x hx).imp_right fun hann => ⟨hann, hphase⟩
      | externalize => exact .inl hphase
    | committed =>
      obtain ⟨_, c, k, -, rfl, -⟩ := attemptedConfirmCommit_some (Except.ok.inj hm)
      exact .inl (hlead.last (by rw [hbp]; rfl))
    | finished => cases hm
  bump g hint s value n _ h _ _ hn :=
    watch_bumps hN hfree hv hscp h.1 h.2.2 (fun _ hu hlead hopen => ⟨hu, h.2.1.trans hlead, hopen⟩)
      value hn
  finish _ _ _ _ h := h
  tooManyTransitions _ _ _ _ _ := trivial
  diverges _ _ _ _ _ := trivial

end

/-! ## Runs -/

section
variable {N : Network} {slotIndex : Uint64} {ok : BallotCall → Prop} {scp : NodeID → SCP}
  {σ : NodeID → Slot} {past : List (NodeID → Slot)} {v : NodeID} {scp' : SCP} {s : Slot}

theorem opens_watchContract (hN : N.Dispensable) (hfree : ∀ v ∈ N.correct, ¬ N.Captured v)
    (hv : v ∈ N.correct) (hscp : N.Serves v scp') (hs : Watched N σ v scp' (σ v))
    (hopen : Open scp' (σ v).mBallotProtocol fun _ => False) {call : BallotCall}
    (hcall : N.Permits σ call) :
    (watchContract N σ v scp').Opens (fun _ => False, (σ v).mBallotProtocol.mPhase) (σ v) call := by
  have hI := safeInvariant_holds hN hfree
  have hbegins : ∀ s₀, call.Begins scp' (σ v) s₀ → KnownSets scp' s₀.mBallotProtocol →
      Watched N σ v scp' s₀ := by
    exact fun s₀ hs₀ hknown => ⟨hs.safe.begins hI hv scp' hcall hs₀,
      hs.counters.begins (counterInvariant_holds N) hv scp' hcall hs₀, hknown⟩
  refine ⟨⟨hs, .refl _, hopen⟩, fun _ _ => trivial, fun _ _ => trivial, ?_, ?_, ?_, ?_⟩
  · rintro env rfl hadm -
    exact ⟨hbegins _ (.inr ⟨hadm, rfl⟩) (hs.known.record hadm.1), .refl _, hopen.record env⟩
  · rintro env rfl hadm hext
    exact ⟨hbegins _ (.inr ⟨hadm, rfl⟩) (hs.known.record hadm.1), .refl _, .inl hext⟩
  · exact fun value n _ hn => watch_bumps hN hfree hv hscp hs hopen
      (fun _ hu hlead hopenu => ⟨hu, hlead, hopenu⟩) value hn
  · rintro np fullyValidated rfl
    exact ⟨hbegins _ (.inr rfl) hs.known, .refl _, hopen⟩

/-- A call that returns has found everything. -/
theorem watch_after_call (hN : N.Dispensable) (hfree : ∀ v ∈ N.correct, ¬ N.Captured v)
    (hrun : N.RecallingRuns slotIndex ok scp σ past) (hv : v ∈ N.correct)
    (hknown : KnownSets (scp v) (σ v).mBallotProtocol)
    (hopen : Open (scp v) (σ v).mBallotProtocol fun _ => False) (hscp : N.Serves v scp')
    (hserves : N.Serves v (scp v)) (hrec : (scp v).Recalls scp' (σ v).mBallotProtocol)
    {call : BallotCall} (hcall : N.Permits σ call) :
    After (call.run scp') (σ v)
      (fun _ t => Watched N σ v scp' t ∧ Open scp' t.mBallotProtocol fun _ => False)
      fun _ _ => True := by
  have hI := safeInvariant_holds hN hfree
  have hok := hrun.okAt hI v
  have hnode : scp'.mLocalNode = (scp v).mLocalNode := by rw [hscp.node, hserves.node]
  have hs : Watched N σ v scp' (σ v) :=
    ⟨hok, hrun.okAt (counterInvariant_holds N) v, hknown.recalls hrec⟩
  have hopen' : Open scp' (σ v).mBallotProtocol fun _ => False :=
    hopen.imp_right fun h x hx => h x (hx.recalls hknown hrec hnode)
  have hopens := (call.opens_stepsContract scp' (hok.consistent hv)).and
    (opens_watchContract hN hfree hv hscp hs hopen' hcall)
  have hholds := Contract.holds_and (stepsContract_holds scp')
    (watchContract_holds (σ := σ) hN hfree hv hscp)
  refine (hholds.after_call hopens).mono ?_ fun _ _ _ => trivial
  rintro - t ⟨-, hs', -, hopen''⟩
  exact ⟨hs', hopen''⟩

theorem Network.RecallingRuns.watched (hN : N.Dispensable)
    (hfree : ∀ v ∈ N.correct, ¬ N.Captured v) (h : N.RecallingRuns slotIndex ok scp σ past) :
    ∀ v ∈ N.correct, N.Serves v (scp v) ∧ KnownSets (scp v) (σ v).mBallotProtocol ∧
      Open (scp v) (σ v).mBallotProtocol fun _ => False := by
  refine h.keeps (P := fun _ scp s => KnownSets scp s.mBallotProtocol ∧
    Open scp s.mBallotProtocol fun _ => False) ?_ ?_
  · refine fun v _ scp _ => ⟨fun n e he => ?_, .inr ?_⟩
    · cases he
    · rintro x ⟨n, -, hrat⟩
      obtain ⟨w, e, he, -⟩ := exists_of_federatedRatify hrat
      cases he
  · intro scp σ past v hrun hσ hv scp' hscp hserves hrec call hcall _
    exact (watch_after_call hN hfree hrun hv (hσ v hv).1 (hσ v hv).2 hscp hserves hrec hcall).mono
      (fun _ t ht => ⟨ht.1.known, ht.2⟩) fun _ _ _ => trivial

/-- While nobody is captured and drivers keep the quorum sets they know: when a call
returns and some quorum accepts the commit of a value at a counter above zero, the node
has externalized that value. -/
theorem no_missed_externalization (hN : N.Dispensable) (hfree : ∀ v ∈ N.correct, ¬ N.Captured v)
    (hrun : N.RecallingRuns slotIndex ok scp σ past) (hv : v ∈ N.correct) (hscp : N.Serves v scp')
    (hrec : (scp v).Recalls scp' (σ v).mBallotProtocol) (call : BallotCall)
    (hcall : N.Permits σ call) :
    After (call.run scp') (σ v)
      (fun _ t => ∀ n ≠ 0, ∀ x, federatedRatify scp' t.mBallotProtocol.mLatestEnvelopes
          (commitPredicate ⟨n, x⟩ (n, n)) = true →
        t.mBallotProtocol.mPhase = .externalize ∧
          ∃ c, t.mBallotProtocol.mCommit = some c ∧ c.value = x)
      fun _ _ => True := by
  obtain ⟨hserves, hknown, hopen⟩ := hrun.watched hN hfree v hv
  refine (watch_after_call hN hfree hrun hv hknown hopen hscp hserves hrec hcall).mono ?_
    fun _ _ _ => trivial
  rintro - t ⟨ht, hext | hnone⟩ n hn x hrat
  · obtain ⟨-, -, -, c, -, -, -, hc, -⟩ :=
      (ht.safe.consistent hv).exists_of_later (by simp [hext])
    have hval := commit_eq_of_ratified ht.safe (hfree v hv) hv hscp ⟨n, hn, hrat⟩ (by simp [hext])
    exact ⟨hext, c, hc, hval c hc⟩
  · exact absurd ⟨n, hn, hrat⟩ (hnone x)

end

/-! ## Samples -/

/-- The two nodes before the last envelope of their schedule. -/
def pairAlmost : (NodeID → Slot) × List (NodeID → Slot) :=
  replay (plainNode pairQSet) 1 pairSchedule.dropLast

/-- The last envelope: node 1 has externalized. -/
def pairLast : BallotEnvelope := ⟨⟨1, 1, .externalize ⟨⟨2, [1]⟩, 2, 1⟩⟩, []⟩

theorem pairAlmost_runs :
    pair.RecallingRuns 1 (fun _ => True) (plainNode pairQSet) pairAlmost.1 pairAlmost.2 :=
  Network.replay_recalling (fun _ => trivial) (fun v _ => plainNetwork_serves v)
    (by simp [pairSchedule, plainNetwork, Network.Allows, Network.correct]) (by decide +kernel)

/-- With it node 0 has a quorum for the commit of `(2, [1])`, and has externalized. -/
theorem no_missed_externalization_pair :
    (pairAlmost.1 0).mBallotProtocol.mPhase = .confirm ∧
    federatedRatify (plainNode pairQSet 0)
      (finalState (BallotCall.run (plainNode pairQSet 0) (.receiveEnvelope pairLast))
        (pairAlmost.1 0)).mBallotProtocol.mLatestEnvelopes (commitPredicate ⟨2, [1]⟩ (2, 2)) = true ∧
    After (BallotCall.run (plainNode pairQSet 0) (.receiveEnvelope pairLast)) (pairAlmost.1 0)
      (fun _ t => ∀ n ≠ 0, ∀ x, federatedRatify (plainNode pairQSet 0)
          t.mBallotProtocol.mLatestEnvelopes (commitPredicate ⟨n, x⟩ (n, n)) = true →
        t.mBallotProtocol.mPhase = .externalize ∧
          ∃ c, t.mBallotProtocol.mCommit = some c ∧ c.value = x)
      fun _ _ => True := by
  have hcall : pair.Permits pairAlmost.1 (.receiveEnvelope pairLast) :=
    .inr ⟨mem_pair_correct.mpr (by decide), by decide +kernel⟩
  refine ⟨by decide +kernel, by decide +kernel, ?_⟩
  generalize BallotCall.receiveEnvelope pairLast = call at hcall ⊢
  exact no_missed_externalization pair_dispensable pair_not_captured pairAlmost_runs
    (mem_pair_correct.mpr (by decide)) (plainNetwork_serves 0)
    (fun _ _ _ _ hq => hq) call hcall

/-- The ill-behaved node 2 votes to commit `(1, [1])`, which makes node 0 accept the commit,
and then accepts the commit of `(5, [2])`. -/
def turncoatSchedule : List Action :=
  [.execute 0 (.receiveEnvelope
      ⟨⟨2, 1, .prepare ⟨2, ⟨1, [1]⟩, some ⟨1, [1]⟩, none, 1, 1⟩⟩, []⟩),
    .execute 0 (.receiveEnvelope ⟨⟨2, 1, .confirm ⟨⟨5, [2]⟩, 5, 5, 5, 2⟩⟩, []⟩)]

def turncoatRun : (NodeID → Slot) × List (NodeID → Slot) :=
  replay (plainNode luredQSet) 1 turncoatSchedule

/-- Node 2 is a quorum for node 0 and accepts the commit of `(5, [2])`. Node 0 has accepted
another commit and looks for no quorum that contradicts it. -/
theorem missed_externalization_lured :
    lured.Dispensable ∧ 0 ∈ lured.correct ∧
    lured.RecallingRuns 1 (fun _ => True) (plainNode luredQSet) turncoatRun.1 turncoatRun.2 ∧
    federatedRatify (plainNode luredQSet 0) (turncoatRun.1 0).mBallotProtocol.mLatestEnvelopes
      (commitPredicate ⟨5, [2]⟩ (5, 5)) = true ∧
    (turncoatRun.1 0).mBallotProtocol.mCommit = some ⟨1, [1]⟩ ∧
    (turncoatRun.1 0).mBallotProtocol.mPhase = .confirm := by
  refine ⟨lured_dispensable, mem_lured_correct.mpr (.inl rfl), ?_, by decide +kernel,
    by decide +kernel, by decide +kernel⟩
  exact Network.replay_recalling (fun _ => trivial) (fun v _ => plainNetwork_serves v)
    (by simp [turncoatSchedule, plainNetwork, Network.Allows, Network.correct]) (by decide +kernel)

end DigitalBits.Scp
