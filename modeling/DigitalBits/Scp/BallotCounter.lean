import DigitalBits.Scp.BallotRun

/-!
# The counter of the ballot

`attemptBump` moves to the least counter that no blocking set is ahead of, although it
tries only the counters of recorded statements, and repeating it ends because every pass
raises the counter or leaves `PREPARE`. A bump never goes back, but for one case: behind
the last counter the next one is zero, and a timer that expires there trips an assertion.
-/
namespace DigitalBits.Scp
open Lib LocalNode BallotProtocol

/-! ## Step 9 -/

section Ahead
variable (scp : SCP) (latest : EnvelopeMap BallotPledges)

/-- The nodes of some blocking set have all sent statements with counters above `n`. -/
def AheadOf (n : Uint32) : Prop :=
  ∃ nodes, isVBlockingSet scp.mLocalNode.mQSet nodes = true ∧ ∀ v ∈ nodes,
    ∃ e, latest.lookup v = some e ∧ n < statementBallotCounter e.statement.pledges

variable {scp latest} {n m : Uint32}

theorem aheadOf_iff : AheadOf scp latest n ↔
    hasVBlockingSubsetStrictlyAheadOf scp latest n = true := by
  constructor
  · rintro ⟨nodes, hblocks, hahead⟩
    refine isVBlockingSet_mono (fun v hv => ?_) hblocks
    obtain ⟨e, he, hlt⟩ := hahead v hv
    exact mem_filteredNodes.mpr ⟨e, he, decide_eq_true hlt⟩
  · intro h
    refine ⟨_, h, fun v hv => ?_⟩
    obtain ⟨e, he, hlt⟩ := mem_filteredNodes.mp hv
    exact ⟨e, he, of_decide_eq_true hlt⟩

/-- A counter of a recorded statement. -/
def Seen (latest : EnvelopeMap BallotPledges) (c : Uint32) : Prop :=
  ∃ v e, latest.lookup v = some e ∧ statementBallotCounter e.statement.pledges = c

/-- What is ahead of `n` is ahead of `m` too, unless a counter was seen in between. -/
theorem AheadOf.of_unseen (h : AheadOf scp latest n)
    (hunseen : ∀ c, Seen latest c → n < c → m < c) : AheadOf scp latest m := by
  obtain ⟨nodes, hblocks, hahead⟩ := h
  refine ⟨nodes, hblocks, fun v hv => ?_⟩
  obtain ⟨e, he, hlt⟩ := hahead v hv
  exact ⟨e, he, hunseen _ ⟨v, e, he, rfl⟩ hlt⟩

/-- No blocking set is empty. -/
theorem AheadOf.exists_seen (h : AheadOf scp latest n) : ∃ c, Seen latest c ∧ n < c := by
  obtain ⟨nodes, hblocks, hahead⟩ := h
  cases nodes with
  | nil =>
    rw [isVBlockingSet_nil] at hblocks
    cases hblocks
  | cons v nodes =>
    obtain ⟨e, he, hlt⟩ := hahead v List.mem_cons_self
    exact ⟨_, ⟨v, e, he, rfl⟩, hlt⟩

/-- The counters that `attemptBump` tries. -/
def allCounters (latest : EnvelopeMap BallotPledges) (localCounter : Uint32) : OrderedSet Uint32 :=
  (∅ : OrderedSet Uint32).insertAll
    ((latest.entries.map fun e => statementBallotCounter e.2.statement.pledges).filter
      (fun c => decide (c > localCounter)))

theorem mem_allCounters {localCounter c : Uint32} :
    c ∈ allCounters latest localCounter ↔ Seen latest c ∧ localCounter < c := by
  rw [allCounters, OrderedSet.mem_insertAll, List.mem_filter, List.mem_map, Seen]
  simp only [OrderedSet.notMem_empty, or_false, decide_eq_true_eq, gt_iff_lt]
  refine and_congr_left fun _ => ?_
  constructor
  · rintro ⟨⟨v, e⟩, hmem, rfl⟩
    exact ⟨v, e, AList.mem_lookup_iff.mpr hmem, rfl⟩
  · rintro ⟨v, e, hlook, rfl⟩
    exact ⟨⟨v, e⟩, AList.mem_lookup_iff.mp hlook, rfl⟩

/-- The largest of some counters up to `m`, one of them given. -/
theorem exists_largest {P : Uint32 → Prop} {c : Uint32} (hc : P c) (hle : c ≤ m) :
    ∃ c', P c' ∧ c' ≤ m ∧ ∀ d, P d → d ≤ m → d ≤ c' := by
  classical
  obtain ⟨c', hmem, hmax⟩ := (Finset.univ.filter fun d : Uint32 => P d ∧ d ≤ m).exists_max_image id
    ⟨c, by simp [hc, hle]⟩
  simp only [Finset.mem_filter, Finset.mem_univ, true_and, id] at hmem hmax
  exact ⟨c', hmem.1, hmem.2, fun d hd hdm => hmax d ⟨hd, hdm⟩⟩

/-- The search over the counters that were seen finds the least of all counters. -/
theorem findBumpCounter_isLeast {localCounter : Uint32} (h : AheadOf scp latest localCounter) :
    ∃ n, findBumpCounter scp latest localCounter = some n ∧
      IsLeast {n | localCounter ≤ n ∧ ¬ AheadOf scp latest n} n := by
  have hfind : findBumpCounter scp latest localCounter =
      (allCounters latest localCounter).toList.find?
        fun n => !hasVBlockingSubsetStrictlyAheadOf scp latest n := rfl
  cases hn : (allCounters latest localCounter).toList.find?
      fun n => !hasVBlockingSubsetStrictlyAheadOf scp latest n with
  | none =>
    -- nobody is ahead of the largest counter
    obtain ⟨c, hseen, hlt⟩ := h.exists_seen
    obtain ⟨c', ⟨hseen', hlt'⟩, -, hmax⟩ := exists_largest (P := fun c => Seen latest c ∧
      localCounter < c) ⟨hseen, hlt⟩ (le_uint32Max c)
    have hall := List.find?_eq_none.mp hn c' (mem_allCounters.mpr ⟨hseen', hlt'⟩)
    have hahead : AheadOf scp latest c' := aheadOf_iff.mpr (by simpa using hall)
    obtain ⟨d, hd, hlt''⟩ := hahead.exists_seen
    exact absurd (hmax d ⟨hd, hlt'.trans hlt''⟩ (le_uint32Max d)) (not_le.mpr hlt'')
  | some n =>
    obtain ⟨hnot, before, after, hsplit, hbefore⟩ := List.find?_eq_some_iff_append.mp hn
    have hmem : n ∈ allCounters latest localCounter := List.mem_of_find?_eq_some hn
    have hnahead : ¬ AheadOf scp latest n := by
      rw [aheadOf_iff]
      simpa using hnot
    refine ⟨n, hfind.trans hn, ⟨(mem_allCounters.mp hmem).2.le, hnahead⟩, ?_⟩
    rintro m ⟨hle, hm⟩
    by_contra hlt
    rw [not_le] at hlt
    -- the largest counter up to `m` that was seen, or the local one, has nobody ahead either
    obtain ⟨c, hc, hcm, hmax⟩ := exists_largest
      (P := fun c => c = localCounter ∨ Seen latest c ∧ localCounter < c) (.inl rfl) hle
    have hcnot : ¬ AheadOf scp latest c := by
      intro hahead
      refine hm (hahead.of_unseen fun d hd hcd => ?_)
      by_contra hdm
      have hlocal : localCounter < d := by
        rcases hc with rfl | hc
        · exact hcd
        · exact hc.2.trans hcd
      exact absurd (hmax d (.inr ⟨hd, hlocal⟩) (not_lt.mp hdm)) (not_le.mpr hcd)
    rcases hc with rfl | hc
    · exact hcnot h
    · have hcmem : c ∈ (allCounters latest localCounter).toList := mem_allCounters.mpr hc
      have hsorted := (allCounters latest localCounter).sorted
      rw [hsplit, List.pairwise_append] at hsorted
      rw [hsplit, List.mem_append] at hcmem
      rcases hcmem with hcmem | hcmem
      · have hskip := hbefore c hcmem
        exact hcnot (aheadOf_iff.mpr (by simpa using hskip))
      · have hge : n ≤ c := by
          rcases List.mem_cons.mp hcmem with rfl | hcmem
          · exact le_rfl
          · exact (List.rel_of_pairwise_cons hsorted.2.1 hcmem).le
        exact absurd (hge.trans hcm) (not_le.mpr hlt)

end Ahead

/-! ## The loop ends -/

namespace BallotProtocol

/-- The counter of the current ballot, zero without one. -/
def localCounter (bp : BallotProtocol) : Uint32 := (bp.mCurrentBallot.map SCPBallot.counter).getD 0

/-- No run of `advanceSlot` raises this and every bump lowers it: the counter grows but
for the step from `PREPARE` to `CONFIRM`. -/
def height (bp : BallotProtocol) : ℕ :=
  match bp.mPhase with
  | .prepare => 2 ^ 33 - bp.localCounter.val
  | .confirm => 2 ^ 32 - bp.localCounter.val
  | .externalize => 0

section
variable {bp bp' : BallotProtocol}

theorem height_le_of_le (hphase : bp'.mPhase = bp.mPhase)
    (hle : bp.localCounter ≤ bp'.localCounter) : bp'.height ≤ bp.height := by
  have hle' : bp.localCounter.val ≤ bp'.localCounter.val := hle
  unfold height
  rw [hphase]
  cases bp.mPhase with
  | prepare | confirm => exact Nat.sub_le_sub_left hle' _
  | externalize => exact le_rfl

theorem height_lt_of_lt (hphase : bp'.mPhase = bp.mPhase) (hne : bp.mPhase ≠ .externalize)
    (hlt : bp.localCounter < bp'.localCounter) : bp'.height < bp.height := by
  have hlt' : bp.localCounter.val < bp'.localCounter.val := hlt
  unfold height
  rw [hphase]
  cases hp : bp.mPhase with
  | prepare | confirm => simp only; omega
  | externalize => exact absurd hp hne

theorem height_lt_of_prepare (hphase : bp.mPhase = .prepare) (hphase' : bp'.mPhase ≠ .prepare) :
    bp'.height < bp.height := by
  unfold height
  rw [hphase]
  cases hp : bp'.mPhase with
  | prepare => exact absurd hp hphase'
  | confirm | externalize => simp only; omega

theorem height_lt_bumpFuel (bp : BallotProtocol) : bp.height < bumpFuel := by
  unfold height bumpFuel
  cases bp.mPhase <;> simp only <;> omega

theorem SameBallots.height (h : bp.SameBallots bp') : bp'.height = bp.height := by
  simp only [BallotProtocol.height, localCounter, h.phase, h.current]

theorem localCounter_le_of_bump {ballot : SCPBallot} (h : ∀ b ∈ bp.mCurrentBallot, b < ballot) :
    bp.localCounter ≤ (bp.bumpedTo ballot).localCounter := by
  cases hb : bp.mCurrentBallot with
  | none => simp [localCounter, hb]
  | some b => simpa [localCounter, hb] using SCPBallot.counter_le (h b hb).le

theorem height_bump_le {ballot : SCPBallot} (h : ∀ b ∈ bp.mCurrentBallot, b < ballot) :
    ((Move.bump ballot).apply bp).height ≤ bp.height :=
  height_le_of_le rfl (localCounter_le_of_bump h)

theorem localCounter_le_raisedTo (bp : BallotProtocol) (h : SCPBallot) :
    bp.localCounter ≤ (bp.raisedTo h).localCounter := by
  unfold raisedTo
  split_ifs with hlt
  · exact localCounter_le_of_bump hlt
  · exact le_rfl

end

/-- No search raises the height. -/
theorem height_apply_le {scp : SCP} {bp : BallotProtocol} {hint : BallotPledges} {stage : Stage}
    {m : Move} (h : attempted scp bp hint stage = .ok (some m)) :
    (m.apply bp).height ≤ bp.height := by
  cases stage with
  | entered =>
    obtain ⟨ballot, rfl, -⟩ := attemptedAcceptPrepared_some h
    exact height_le_of_le (acceptPrepared_mPhase bp ballot)
      (by simp [localCounter, Move.apply])
  | accepted =>
    obtain ⟨newC, newH, rfl, -⟩ := attempted_accepted_some h
    exact height_le_of_le (raisedTo_mPhase _ newH)
      (localCounter_le_raisedTo (bp.withConfirmed newC newH) newH)
  | confirmed =>
    obtain ⟨ballot, c, hb, -, rfl, -, -, -, -, hphase⟩ := attemptedAcceptCommit_some h
    simp only [Move.apply, acceptCommit]
    rcases hphase with hphase | ⟨hphase, -⟩
    · refine (height_lt_of_prepare hphase ?_).le
      split_ifs <;> simp [withoutPrime, withPhase, bumpedTo]
    · rw [if_neg (by simp [hphase])]
      exact height_le_of_le (raisedTo_mPhase _ hb)
        (localCounter_le_raisedTo (bp.withAccepted c hb) hb)
  | committed =>
    obtain ⟨-, c, hb, -, rfl, -⟩ := attemptedConfirmCommit_some (Except.ok.inj h)
    exact Nat.zero_le _
  | finished => cases h

end BallotProtocol

/-- The contract that no run raises the height. -/
def heightContract (scp : SCP) : Contract scp where
  Ghost := ℕ
  At _ g _ s := s.mBallotProtocol.height ≤ g
  Exit g s := s.mBallotProtocol.height ≤ g
  Fails _ _ _ := True

section
variable {scp : SCP} {advance : BallotStatement → SlotM Unit} {s t : Slot}

theorem heightContract_hand {g : ℕ} {K : Slot → Prop} (h : t.mBallotProtocol.height ≤ g)
    (hK : ∀ u : Slot, u.mBallotProtocol.height ≤ g → K u) : (heightContract scp).Hand g K t :=
  ⟨g, ⟨fun _ _ => trivial, fun _ _ _ => trivial, fun _ _ _ => h, fun _ _ _ _ => trivial,
    fun _ _ _ _ => h, fun _ _ _ _ => h⟩, hK, fun _ _ _ => trivial⟩

theorem Moved.height {m : Move} (h : Moved s m t) :
    t.mBallotProtocol.height = (m.apply s.mBallotProtocol).height := by
  obtain ⟨evs, -, rfl⟩ := h
  rfl

theorem heightContract_holds (scp : SCP) : (heightContract scp).Holds where
  keeps_at _ _ _ _ _ _ hb h := hb.sameBallots.height.trans_le h
  keeps_exit _ _ _ hb h := hb.sameBallots.height.trans_le h
  error _ _ _ _ _ _ _ _ := trivial
  stay _ _ _ _ _ h _ := h
  move _ _ _ _ _ _ _ h hm ht :=
    heightContract_hand (ht.height.trans_le ((height_apply_le hm).trans h))
      fun _ hu => hu
  bump _ _ _ _ _ _ h _ _ _ := fun _ hcan ht => ⟨fun _ _ => trivial, fun _ =>
    heightContract_hand (ht.height.trans_le ((height_bump_le hcan.2.1).trans h))
      fun _ hu => hu⟩
  finish _ _ _ _ h := h
  tooManyTransitions _ _ _ _ _ := trivial
  diverges _ _ _ _ _ := trivial

/-- A failure that is neither an endless loop nor a ballot that goes backwards. -/
def Failure.Tame (e : Failure) : Prop := e ≠ .diverges ∧ e ≠ .assertion .updateCurrentValue

/-- All failures of `advance` are tame. -/
def Tames (advance : BallotStatement → SlotM Unit) : Prop :=
  ∀ hint s, After (advance hint) s (fun _ _ => True) fun e _ => e.Tame

variable {bp : BallotProtocol} {e : Failure}

theorem tame_of_checkInvariants (h : bp.checkInvariants = .error e) : e.Tame := by
  have hmem := checkInvariants_error h
  constructor <;> rintro rfl <;> simp at hmem

theorem tame_of_pledges {hash : Hash} {type : SCPStatementType}
    (h : bp.pledges hash type = .error e) : e.Tame := by
  suffices e = .nullDereference by simp [this, Failure.Tame]
  cases type with
  | prepare => cases h
  | confirm =>
    cases hb : bp.mCurrentBallot <;> cases hp : bp.mPrepared <;> cases hc : bp.mCommit <;>
      cases hh : bp.mHighBallot <;>
      simp [BallotProtocol.pledges, hb, hp, hc, hh, BallotProtocol.read, bind, Except.bind,
        pure, Except.pure] at h <;> exact h.symm
  | externalize =>
    cases hc : bp.mCommit <;> cases hh : bp.mHighBallot <;>
      simp [BallotProtocol.pledges, hc, hh, BallotProtocol.read, bind, Except.bind,
        pure, Except.pure] at h <;> exact h.symm

theorem tame_of_mayRaisePrepared {ballot : SCPBallot} (h : mayRaisePrepared bp ballot = .error e) :
    e.Tame := by
  obtain ⟨hphase, hp | hc | ⟨rfl, -⟩⟩ := mayRaisePrepared_error h
  · simp only [mayRaisePrepared, hphase, hp] at h
    cases h
    simp [Failure.Tame]
  · cases hp : bp.mPrepared with
    | none =>
      simp only [mayRaisePrepared, hphase, hp] at h
      cases h
      simp [Failure.Tame]
    | some p =>
      simp only [mayRaisePrepared, if_pos hphase, hp, hc, BallotProtocol.read, bind, Except.bind] at h
      split_ifs at h
      · cases h
        simp [Failure.Tame]
      · cases h
  · simp [Failure.Tame]

theorem tame_of_attempted {hint : BallotPledges} (stage : Stage)
    (h : attempted scp bp hint stage = .error e) : e.Tame := by
  cases stage with
  | entered =>
    rcases attemptedAcceptPrepared_error h with ⟨b, -, hb⟩ | ⟨rfl, -⟩
    · exact tame_of_mayRaisePrepared hb
    · simp [Failure.Tame]
  | accepted => cases h
  | confirmed =>
    obtain ⟨hphase, hhigh⟩ := attemptedAcceptCommit_error h
    simp only [attempted, attemptedAcceptCommit, hphase, hhigh] at h
    split at h
    · cases h
    · cases h
      simp [Failure.Tame]
  | committed | finished => cases h

section Tame
variable (hadv : Tames advance) (happends : Appends advance)
include hadv happends

/-- Speaking fails tamely, and what was committed stays. -/
theorem tame_speak : After (emitCurrentStateStatement scp advance) s
    (fun _ t => s.mBallotProtocol.mPhase = .externalize →
      t.mBallotProtocol.mCommit = s.mBallotProtocol.mCommit) fun e _ => e.Tame := by
  have hspeaks : Speaks scp (fun _ _ => True) (fun _ => True) (fun e _ => e.Tame) s :=
    ⟨fun _ => tame_of_checkInvariants, fun _ _ => tame_of_pledges, fun _ _ _ => trivial,
      fun _ _ _ _ => by simp [Failure.Tame], fun _ _ _ _ => trivial, fun _ _ _ _ => trivial⟩
  exact (after_emitCurrentStateStatement (fun _ _ _ _ h => h) (fun _ _ _ h => h)
    (fun hint t _ => hadv hint t) happends hspeaks).imp fun _ _ h => h.2

theorem tame_speak_true : After (emitCurrentStateStatement scp advance) s (fun _ _ => True)
    fun e _ => e.Tame :=
  (tame_speak hadv happends).mono (fun _ _ _ => trivial) fun _ _ hE => hE

variable {hint : BallotPledges}

theorem tame_attemptAcceptPrepared :
    After (attemptAcceptPrepared scp advance hint) s (fun _ _ => True) fun e _ => e.Tame :=
  after_attemptAcceptPrepared (fun _ he => tame_of_attempted .entered he)
    (fun _ => trivial) fun _ _ _ _ => tame_speak_true hadv happends

theorem tame_attemptConfirmPrepared :
    After (attemptConfirmPrepared scp advance hint) s (fun _ _ => True) fun e _ => e.Tame :=
  after_attemptConfirmPrepared (fun _ => trivial) (fun _ _ _ _ => trivial)
    fun _ _ _ _ _ _ => tame_speak_true hadv happends

theorem tame_attemptAcceptCommit :
    After (attemptAcceptCommit scp advance hint) s (fun _ _ => True) fun e _ => e.Tame :=
  after_attemptAcceptCommit (fun _ he => tame_of_attempted .confirmed he)
    (fun _ => trivial) fun _ _ _ _ => tame_speak_true hadv happends

theorem tame_attemptConfirmCommit :
    After (attemptConfirmCommit scp advance hint) s (fun _ _ => True) fun e _ => e.Tame := by
  refine after_attemptConfirmCommit (fun _ => trivial) fun m hm t ht => ?_
  obtain ⟨ballot, c, hb, -, rfl, -⟩ := attemptedConfirmCommit_some hm
  obtain ⟨evs, -, rfl⟩ := ht
  refine (tame_speak hadv happends).imp fun _ u hu => ?_
  exact ⟨c, (hu rfl).trans (confirmCommit_mCommit _ c hb), trivial⟩

/-- A pass that bumps lowers the height. -/
theorem after_attemptBump_height (hheight : (heightContract scp).Satisfied advance) :
    After (attemptBump scp advance) s (fun didBump t => didBump = true →
      t.mBallotProtocol.height < s.mBallotProtocol.height) fun e _ => e.Tame := by
  refine after_attemptBump (by simp) fun value n hcan hbelow _ _ hn t ht => ?_
  have hlt : t.mBallotProtocol.height < s.mBallotProtocol.height := by
    rw [ht.height]
    refine height_lt_of_lt rfl hcan.1 ?_
    cases hb : s.mBallotProtocol.mCurrentBallot with
    | none =>
      rw [BallotProtocol.localCounter, hb]
      exact Fin.pos_of_ne_zero hn
    | some b =>
      rw [BallotProtocol.localCounter, hb]
      exact hbelow b hb
  rw [after_checkInvariants]
  refine ⟨fun _ => ?_, fun _ => tame_of_checkInvariants⟩
  have hhand : (heightContract scp).Hand t.mBallotProtocol.height
      (fun u => u.mBallotProtocol.height ≤ t.mBallotProtocol.height)
      (t.log (.checkInvariants t.mBallotProtocol)) := heightContract_hand le_rfl fun _ hu => hu
  have hkeeps := (heightContract_holds scp).speak hheight hhand
  refine ((tame_speak_true hadv happends).and hkeeps).mono (fun _ u hu => ?_) fun _ _ hE => hE.1
  refine after_checkHeardFromQuorum fun w hw _ => ?_
  have hle : w.mBallotProtocol.height ≤ t.mBallotProtocol.height :=
    keeps_of_steps (P := fun w => w.mBallotProtocol.height ≤ t.mBallotProtocol.height)
      (fun _ _ hb h => hb.sameBallots.height.trans_le h) hw hu.2.1
  exact hle.trans_lt hlt

/-- The loop ends before its fuel does. -/
theorem tame_bumpLoop (hheight : (heightContract scp).Satisfied advance) {fuel : ℕ}
    (hfuel : s.mBallotProtocol.height < fuel) :
    After (bumpLoop scp advance fuel) s (fun _ _ => True) fun e _ => e.Tame := by
  induction fuel generalizing s with
  | zero => exact absurd hfuel (Nat.not_lt_zero _)
  | succ fuel ih =>
    refine (after_attemptBump_height hadv happends hheight).bind fun didBump t ht => ?_
    rw [after_ite, after_bind]
    exact ⟨fun hbump => ih ((ht hbump).trans_le (Nat.le_of_lt_succ hfuel)), fun _ => trivial⟩

end Tame

theorem tames_advanceSlot (scp : SCP) (fuel : ℕ) : Tames (advanceSlot scp fuel) := by
  induction fuel with
  | zero => exact fun _ _ => ⟨by simp, by simp⟩
  | succ fuel ih =>
    have happends := Contract.Holds.appends_advanceSlot scp fuel
    intro hint s
    refine after_advanceSlotWith_of_stages (fun _ _ => True) (fun _ _ _ _ h => h)
      (fun _ _ _ h => h) (fun _ h => h) (fun _ _ => by simp [Failure.Tame])
      (fun _ _ => tame_attemptAcceptPrepared ih happends)
      (fun _ _ => tame_attemptConfirmPrepared ih happends)
      (fun _ _ => tame_attemptAcceptCommit ih happends)
      (fun _ _ => tame_attemptConfirmCommit ih happends) (fun t _ => ?_) trivial
    exact tame_bumpLoop ih happends ((heightContract_holds scp).satisfied fuel)
      t.mBallotProtocol.height_lt_bumpFuel

/-- A loop that has ended does not depend on the fuel. -/
theorem bumpLoop_succ {fuel : ℕ} (h : ∀ t, bumpLoop scp advance fuel s ≠ .error .diverges t) :
    bumpLoop scp advance (fuel + 1) s = bumpLoop scp advance fuel s := by
  induction fuel generalizing s with
  | zero => exact absurd rfl (h s)
  | succ fuel ih =>
    cases hb : attemptBump scp advance s with
    | error e t => simp only [bumpLoop, bind, EStateM.bind, hb]
    | ok didBump t =>
      cases didBump with
      | false => simp [bumpLoop, bind, EStateM.bind, hb]
      | true =>
        have hstep : ∀ k, bumpLoop scp advance (k + 1) s =
            (do let _ ← bumpLoop scp advance k; return true : SlotM Bool) t := by
          intro k
          rw [bumpLoop]
          simp only [bind, EStateM.bind, hb, if_pos]
        rw [hstep (fuel + 1), hstep fuel]
        simp only [bind, EStateM.bind]
        rw [ih]
        intro u hu
        refine h u ?_
        rw [hstep]
        simp only [bind, EStateM.bind, hu]

theorem bumpLoop_ends (scp : SCP) (depth : ℕ) (s : Slot) (extra : ℕ) :
    bumpLoop scp (advanceSlot scp depth) (bumpFuel + extra) s =
      bumpLoop scp (advanceSlot scp depth) bumpFuel s ∧
    ∀ t, bumpLoop scp (advanceSlot scp depth) (bumpFuel + extra) s ≠ .error .diverges t := by
  have htame : ∀ extra t,
      bumpLoop scp (advanceSlot scp depth) (bumpFuel + extra) s ≠ .error .diverges t := by
    intro extra t ht
    have hlt : s.mBallotProtocol.height < bumpFuel + extra :=
      s.mBallotProtocol.height_lt_bumpFuel.trans_le (Nat.le_add_right _ _)
    exact ((tame_bumpLoop (tames_advanceSlot scp depth)
      (Contract.Holds.appends_advanceSlot scp depth)
      ((heightContract_holds scp).satisfied depth) hlt).of_error ht).1 rfl
  refine ⟨?_, htame extra⟩
  induction extra with
  | zero => rfl
  | succ extra ih => exact (bumpLoop_succ (htame extra)).trans ih

/-- `attemptBump` bumps to the least of all counters that no blocking set is ahead of, and
repeating it ends. -/
theorem attemptBump_least_ends (scp : SCP) (depth : ℕ) (s : Slot) :
    (s.mBallotProtocol.mPhase = .prepare ∨ s.mBallotProtocol.mPhase = .confirm →
      (AheadOf scp s.mBallotProtocol.mLatestEnvelopes s.mBallotProtocol.localCounter →
        ∃ n, IsLeast {n | s.mBallotProtocol.localCounter ≤ n ∧
            ¬ AheadOf scp s.mBallotProtocol.mLatestEnvelopes n} n ∧
          attemptBump scp (advanceSlot scp depth) s =
            abandonBallotTo scp (advanceSlot scp depth) n s) ∧
      (¬ AheadOf scp s.mBallotProtocol.mLatestEnvelopes s.mBallotProtocol.localCounter →
        attemptBump scp (advanceSlot scp depth) s = .ok false s)) ∧
    ∀ extra, bumpLoop scp (advanceSlot scp depth) (bumpFuel + extra) s =
        bumpLoop scp (advanceSlot scp depth) bumpFuel s ∧
      ∀ t, bumpLoop scp (advanceSlot scp depth) (bumpFuel + extra) s ≠ .error .diverges t := by
  refine ⟨fun hphase => ⟨fun hahead => ?_, fun hnot => ?_⟩, bumpLoop_ends scp depth s⟩
  · obtain ⟨n, hn, hleast⟩ := findBumpCounter_isLeast hahead
    refine ⟨n, hleast, ?_⟩
    change (if _ then _ else _ : SlotM Bool) s = _
    rw [if_pos ⟨hphase, aheadOf_iff.mp hahead⟩]
    unfold BallotProtocol.localCounter at hn
    simp only [hn]
  · change (if _ then _ else _ : SlotM Bool) s = _
    rw [if_neg fun h => hnot (aheadOf_iff.mpr h.2)]
    rfl

/-- A node that has heard of a ballot far above its own. -/
def behind : Slot := (Slot.new 1 solo).record ⟨⟨0, 1, .prepare ⟨0, ⟨7, [1]⟩, none, none, 0, 0⟩⟩, []⟩

theorem attemptBump_least_ends_behind :
    (∃ n, IsLeast {n | behind.mBallotProtocol.localCounter ≤ n ∧
        ¬ AheadOf solo behind.mBallotProtocol.mLatestEnvelopes n} n ∧
      attemptBump solo (advanceSlot solo 50) behind =
        abandonBallotTo solo (advanceSlot solo 50) n behind) ∧
    findBumpCounter solo behind.mBallotProtocol.mLatestEnvelopes 0 = some 7 := by
  have hphase : behind.mBallotProtocol.mPhase = .prepare := rfl
  have hahead : AheadOf solo behind.mBallotProtocol.mLatestEnvelopes
      behind.mBallotProtocol.localCounter := aheadOf_iff.mpr (by decide +kernel)
  exact ⟨((attemptBump_least_ends solo 50 behind).1 (.inl hphase)).1 hahead, by decide +kernel⟩

end

/-! ## Behind the last counter -/

/-- The node works on the last counter and has not externalized. -/
def BallotProtocol.AtLastCounter (bp : BallotProtocol) : Prop :=
  bp.mPhase ≠ .externalize ∧ ∃ b ∈ bp.mCurrentBallot, b.counter = uint32Max

/-- A call that asks for a ballot behind the last counter. -/
def BallotCall.Wraps (s : Slot) : BallotCall → Prop
  | bumpState _ true => s.mBallotProtocol.AtLastCounter
  | abandonBallot => s.mBallotProtocol.AtLastCounter ∧ ∃ x v, s.abandonValue = some (x :: v)
  | ballotProtocolTimerExpired =>
    s.mBallotProtocol.AtLastCounter ∧ ∃ x v, s.abandonValue = some (x :: v)
  | _ => False

section
variable {scp : SCP} {s : Slot}

/-- The failures of a call, where `P` is when a ballot may go backwards. -/
def Failure.TameUnless (P : Prop) (e : Failure) : Prop :=
  e ≠ .diverges ∧ (e = .assertion .updateCurrentValue → P)

theorem Failure.Tame.unless {e : Failure} (h : e.Tame) (P : Prop) : e.TameUnless P :=
  ⟨h.1, fun he => absurd he h.2⟩

theorem tame_bumpStateTo {value : Value} {n : Uint32} {P : Prop}
    (hback : s.mBallotProtocol.mPhase ≠ .externalize → ∀ b ∈ s.mBallotProtocol.mCurrentBallot,
      s.mBallotProtocol.bumpTarget value n < b → P) :
    After (bumpStateTo scp (advanceSlot scp maxAdvanceSlotRecursion) value n) s (fun _ _ => True)
      fun e _ => e.TameUnless P := by
  have hcheck : ∀ t, After checkInvariants t (fun _ _ => True) fun e _ => e.TameUnless P := by
    intro t
    rw [after_checkInvariants]
    exact ⟨fun _ => trivial, fun _ he => (tame_of_checkInvariants he).unless P⟩
  by_cases hext : s.mBallotProtocol.mPhase = .externalize
  · rw [bumpStateTo, after_bind, after_ballotProtocol,
      if_pos ((SCPPhase.eq_externalize_iff _).mpr hext)]
    trivial
  refine after_bumpStateTo (fun b hb hlt => ⟨by simp, fun _ => hback hext b hb hlt⟩) trivial
    (fun _ => hcheck s) fun _ t _ => (hcheck t).imp fun _ u _ => ?_
  refine (tame_speak_true (tames_advanceSlot scp _)
    (Contract.Holds.appends_advanceSlot scp _)).mono (fun _ v _ => ?_) fun _ _ hE => hE.unless P
  exact after_checkHeardFromQuorum fun _ _ => trivial

theorem tame_bumpState (value : Value) (force : Bool) :
    After (bumpState scp value force) s (fun _ _ => True)
      fun e _ => e.TameUnless (force = true ∧ s.mBallotProtocol.AtLastCounter) := by
  rw [bumpState, bumpStateWith, after_bind, after_ballotProtocol]
  cases hb : s.mBallotProtocol.mCurrentBallot with
  | none => cases force <;> exact tame_bumpStateTo (by simp [hb])
  | some b =>
    cases force with
    | false => trivial
    | true =>
      refine tame_bumpStateTo fun hext b' hb' hlt => ⟨rfl, hext, b', hb', ?_⟩
      rw [hb] at hb'
      cases hb'
      exact eq_uint32Max_of_succ_le (SCPBallot.counter_le hlt.le)

theorem tame_abandonBallot :
    After (abandonBallot scp) s (fun _ _ => True) fun e _ => e.TameUnless
      (s.mBallotProtocol.AtLastCounter ∧ ∃ x v, s.abandonValue = some (x :: v)) := by
  rw [abandonBallot, abandonBallotTo, after_bind, after_get]
  split
  · rename_i x v hv
    exact (tame_bumpState (x :: v) true).mono (fun _ _ _ => trivial)
      fun _ _ he => ⟨he.1, fun h => ⟨(he.2 h).2, x, v, hv⟩⟩
  · trivial

/-- Every call returns or fails without an endless loop, and it fails by a ballot that
goes backwards only if it asks for one behind the last counter. -/
theorem BallotCall.tame (call : BallotCall) : After (call.run scp) s (fun _ _ => True)
    fun e _ => e.TameUnless (call.Wraps s) := by
  cases call with
  | receiveEnvelope env =>
    rw [run, after_bind]
    refine after_slotProcessEnvelope (fun _ => ⟨by simp, by simp⟩) (fun _ => trivial) ?_
      (fun _ _ => ⟨by simp, by simp⟩) fun _ _ _ _ => ⟨fun _ _ _ => trivial, fun _ => trivial⟩
    intro _ _ t _
    exact (tames_advanceSlot scp _ env.statement _).mono (fun _ _ _ _ _ => trivial)
      fun _ _ he => he.unless _
  | bumpState value force =>
    rw [run, after_bind]
    refine (tame_bumpState value force).mono (fun _ _ _ => trivial) fun e _ he => ⟨he.1, fun h => ?_⟩
    obtain ⟨rfl, hlast⟩ := he.2 h
    exact hlast
  | abandonBallot =>
    exact tame_abandonBallot.bind fun _ _ _ => trivial
  | ballotProtocolTimerExpired =>
    exact tame_abandonBallot.bind fun _ _ _ => trivial
  | nomination np fullyValidated => trivial

/-- The counter behind the last one is zero, and the assertion refuses it. -/
theorem bumpState_wraps (scp : SCP) (h : s.mBallotProtocol.AtLastCounter) (value : Value) :
    bumpState scp value true s = .error (.assertion .updateCurrentValue) s := by
  obtain ⟨hext, b, hb, hmax⟩ := h
  have hback : After (bumpState scp value true) s (fun _ _ => False)
      fun e t => e = .assertion .updateCurrentValue ∧ t = s := by
    rw [bumpState, bumpStateWith, after_bind, after_ballotProtocol, hb]
    change After (bumpStateTo scp _ value (b.counter + 1)) s _ _
    rw [hmax, bumpStateTo, after_bind, after_ballotProtocol,
      if_neg (mt (SCPPhase.eq_externalize_iff _).mp hext), after_bind, updateCurrentValue,
      after_bind, after_ballotProtocol, if_neg (mt (SCPPhase.eq_externalize_iff _).mp hext), hb]
    simp only
    rw [after_bind, after_dbgAssert]
    refine ⟨fun hle => absurd (compareBallots_eq_gt.mpr ?_) hle, fun _ => ⟨rfl, rfl⟩⟩
    rw [SCPBallot.lt_iff]
    rw [hmax]
    exact .inl (by decide : uint32Max + 1 < uint32Max)
  cases hrun : bumpState scp value true s with
  | ok a t => exact (hback.of_ok hrun).elim
  | error e t =>
    obtain ⟨rfl, rfl⟩ := hback.of_error hrun
    rfl

theorem abandonBallot_wraps (h : s.mBallotProtocol.AtLastCounter)
    (hv : ∃ x v, s.abandonValue = some (x :: v)) :
    abandonBallot scp s = .error (.assertion .updateCurrentValue) s := by
  obtain ⟨x, v, hv⟩ := hv
  rw [← bumpState_wraps scp h (x :: v)]
  simp only [abandonBallot, abandonBallotTo, bind, EStateM.bind, get, getThe, MonadStateOf.get,
    EStateM.get, hv]
  rfl

/-- In every slot a call trips the assertion on the current ballot if and only if it asks
for a ballot behind the last counter. -/
theorem updateCurrentValue_fails_iff (scp : SCP) (s : Slot) (call : BallotCall) :
    (∃ t, call.run scp s = .error (.assertion .updateCurrentValue) t) ↔ call.Wraps s := by
  constructor
  · rintro ⟨t, ht⟩
    exact (call.tame.of_error ht).2 rfl
  · intro h
    refine ⟨s, ?_⟩
    cases call with
    | receiveEnvelope | nomination => exact h.elim
    | bumpState value force =>
      cases force with
      | false => exact h.elim
      | true =>
        simp only [BallotCall.run, bind, EStateM.bind, bumpState_wraps scp h value]
    | abandonBallot =>
      simp only [BallotCall.run, bind, EStateM.bind, abandonBallot_wraps h.1 h.2]
    | ballotProtocolTimerExpired =>
      simp only [BallotCall.run, ballotProtocolTimerExpired, bind, EStateM.bind,
        abandonBallot_wraps h.1 h.2]

end

/-- The timeout of the ballot timer, while it runs. -/
def Slot.ballotTimer (s : Slot) : Option ℕ :=
  (s.trace.findSome? fun
    | .setupTimer .ballotProtocolTimer timeout => some timeout
    | _ => none).join

/-- A node that needs two others. -/
def stalled : SCP := plainNode (fun n => if n = 0 then .mk 3 [0, 1, 2] [] else .mk 1 [n] []) 0

/-- One of them has externalized. -/
def stalledFirst : BallotCall :=
  .receiveEnvelope ⟨⟨1, 1, .externalize ⟨⟨10, [1]⟩, 10, 1⟩⟩, []⟩

/-- The other has accepted to commit lower ballots only. -/
def stalledSecond : BallotCall :=
  .receiveEnvelope ⟨⟨2, 1, .confirm ⟨⟨7, [1]⟩, 7, 5, 7, 2⟩⟩, []⟩

def stalledSlot : Slot := finalState (stalledSecond.run stalled)
  (finalState (stalledFirst.run stalled) (Slot.new 1 stalled))

/-- The range of commits of the first has no end, so the node moves to the last counter. It
hears from a quorum there and starts the timer, which takes it back to counter zero. -/
theorem stalled_timer_wraps : Reachable 1 stalledSlot ∧
    stalledSlot.mBallotProtocol.mPhase = .confirm ∧
    stalledSlot.mBallotProtocol.mCurrentBallot = some ⟨uint32Max, [1]⟩ ∧
    stalledSlot.mBallotProtocol.mHeardFromQuorum = true ∧ stalledSlot.ballotTimer = some 1800 ∧
    failure (BallotCall.run stalled .ballotProtocolTimerExpired) stalledSlot =
      some (.assertion .updateCurrentValue) := by
  have hfirst : failure (stalledFirst.run stalled) (Slot.new 1 stalled) = none := by decide +kernel
  have hsecond : failure (stalledSecond.run stalled)
      (finalState (stalledFirst.run stalled) (Slot.new 1 stalled)) = none := by decide +kernel
  refine ⟨.call (.call (.new stalled) stalled _ (eq_ok_of_failure hfirst)) stalled _
    (eq_ok_of_failure hsecond), ?_⟩
  decide +kernel

end DigitalBits.Scp
