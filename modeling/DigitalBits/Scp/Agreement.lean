import DigitalBits.Scp.BallotSafety

/-!
# Agreement

Two correct nodes never externalize different values. If nobody is captured this
follows from the safety of the votes. A captured node, one with a slice of
ill-behaved nodes only, can be led to accept anything; but it then belongs to every
quorum, and whatever it commits first is all that anyone can externalize.
-/
namespace DigitalBits.Scp
open Lib LocalNode BallotProtocol

/-! ## A captured node decides for everyone -/

section
variable {N : Network} {v v₁ : NodeID}

theorem singleton_mem_quorums (hv : v ∈ N.correct) (hcap : N.Captured v) : {v} ∈ N.quorums := by
  refine ⟨?_, ⟨v, rfl⟩, ?_⟩
  · rintro w rfl
    exact hv
  · rintro w rfl
    exact hcap.mono fun n hn => .inr hn

theorem captured_mem (hN : N.Dispensable) (hv : v ∈ N.correct) (hcap : N.Captured v)
    {U : Set NodeID} (hU : U ∈ N.quorums) : v ∈ U := by
  obtain ⟨w, rfl, hw⟩ := hN.intersect {v} (singleton_mem_quorums hv hcap) U hU
  exact hw

/-- The committed value of `v₁`, once it has one, is behind every externalized value. -/
def capturedInvariant (N : Network) (v₁ : NodeID) : N.Invariant where
  Ghost := Option Value
  Claim o w
    | .prepare _ => True
    | .confirm x => w = v₁ → o = some x.ballot.value
    | .externalize x => o = some x.commit.value
  State o w bp :=
    (w = v₁ → (bp.mPhase = .prepare → o = none) ∧
      (bp.mPhase ≠ .prepare → ∀ c ∈ bp.mCommit, o = some c.value)) ∧
    (bp.mPhase = .externalize → ∀ c ∈ bp.mCommit, o = some c.value)
  Held o _ bp := bp.mPhase = .externalize → ∀ c ∈ bp.mCommit, o = some c.value

theorem captured_grows {o o' : Option Value} (ho : o = none ∨ o' = o) (hv : v = v₁ ∨ o' = o) :
    (capturedInvariant N v₁).Grows v o o' := by
  have hmono : ∀ x, o = some x → o' = some x := by
    intro x hx
    rcases ho with ho | ho
    · rw [ho] at hx
      cases hx
    · rw [ho, hx]
  refine ⟨?_, ?_, ?_⟩
  · intro w pl hpl
    cases pl with
    | prepare p => trivial
    | confirm x => exact fun hw => hmono _ (hpl hw)
    | externalize x => exact hmono _ hpl
  · exact fun w bp h hphase c hc => hmono _ (h hphase c hc)
  · intro w _ hne bp h
    refine ⟨?_, fun hphase c hc => hmono _ (h.2 hphase c hc)⟩
    rintro rfl
    rcases hv with rfl | rfl
    · exact absurd rfl hne
    · exact h.1 rfl

/-- A move that leaves the phase and the commit alone. -/
theorem captured_state_congr {o : Option Value} {bp bp' : BallotProtocol}
    (hphase : bp'.mPhase = bp.mPhase)
    (hc : bp.mPhase ≠ .prepare → ∀ c ∈ bp'.mCommit, c ∈ bp.mCommit)
    (h : (capturedInvariant N v₁).State o v bp) : (capturedInvariant N v₁).State o v bp' := by
  refine ⟨fun hv => ⟨fun hp => ?_, fun hp c hmem => ?_⟩, fun hp c hmem => ?_⟩
  · exact (h.1 hv).1 (hphase ▸ hp)
  · rw [hphase] at hp
    exact (h.1 hv).2 hp c (hc hp c hmem)
  · rw [hphase] at hp
    exact h.2 hp c (hc (by simp [hp]) c hmem)

/-- Who externalizes a value follows the captured node. -/
theorem captured_of_ratify (hN : N.Dispensable) (hv₁ : v₁ ∈ N.correct) (hcap : N.Captured v₁)
    {o : Option Value} {bp : BallotProtocol} {scp : SCP}
    (hh : (capturedInvariant N v₁).Heard o bp) (hscp : N.Serves v scp) (hfree : ¬ N.Captured v)
    {c : SCPBallot} {cur : Interval}
    (h : federatedRatify scp bp.mLatestEnvelopes (commitPredicate c cur) = true) :
    o = some c.value := by
  rcases exists_quorum_of_ratify hh hscp hfree h with ⟨w, -, e, he, hc⟩ | ⟨U, hU, hall⟩
  · simp only [commitPredicate, Bool.and_eq_true, areBallotsCompatible_iff] at hc
    rwa [hc.1]
  · obtain ⟨pl, hpl, hc⟩ := hall v₁ (captured_mem hN hv₁ hcap hU)
    cases pl with
    | prepare p => cases hc
    | confirm x =>
      simp only [commitPredicate, Bool.and_eq_true, areBallotsCompatible_iff] at hc
      rw [hc.1]
      exact hpl rfl
    | externalize x =>
      simp only [commitPredicate, Bool.and_eq_true, areBallotsCompatible_iff] at hc
      rwa [hc.1]

theorem capturedInvariant_holds (hN : N.Dispensable) (hv₁ : v₁ ∈ N.correct)
    (hcap : N.Captured v₁) : (capturedInvariant N v₁).Holds where
  start := by
    refine ⟨none, fun v _ => ⟨fun _ => ⟨fun _ => rfl, fun h => absurd rfl h⟩, fun h => ?_⟩⟩
    cases h
  congr _ _ _ _ h hs := captured_state_congr h.phase (fun _ c hc => h.commit ▸ hc) hs
  claim o v bp hash pl hs hbp hpl := by
    have htold := hbp.told hpl
    cases pl with
    | prepare p => trivial
    | confirm x => exact fun hv =>
        (hs.1 hv).2 (by simp [htold.1]) ⟨x.nCommit, x.ballot.value⟩ htold.2
    | externalize x => exact hs.2 htold.1 _ htold.2
  held _ _ _ hs := hs.2
  move o v bp scp m hv hscp hbp hs hh hen := by
    cases hen with
    | @acceptPrepared ballot hphase hacc hclear =>
      refine ⟨o, captured_grows (.inr rfl) (.inr rfl), captured_state_congr ?_ ?_ hs⟩
      · exact acceptPrepared_mPhase _ _
      · exact fun _ c => mem_mCommit_of_acceptPrepared
    | @confirmPrepared newC newH hphase hp hhigh hrat hvote =>
      refine ⟨o, captured_grows (.inr rfl) (.inr rfl), captured_state_congr ?_ ?_ hs⟩
      · exact confirmPrepared_mPhase _ _
      · exact fun hne => absurd hphase hne
    | @bump ballot hcan hpos =>
      have hphase : (bp.bumpedTo ballot).mPhase = bp.mPhase := rfl
      exact ⟨o, captured_grows (.inr rfl) (.inr rfl),
        captured_state_congr hphase (fun _ c => mem_mCommit_of_bumpedTo) hs⟩
    | @acceptCommit c h hval hpos hle hp hphase hacc =>
      have hen : Enabled scp bp (.acceptCommit c h) := .acceptCommit hval hpos hle hp hphase hacc
      have hphase' := bp.acceptCommit_mPhase c h hen.mPhase_ne
      by_cases hv₁' : v = v₁
      · -- the captured node enters `CONFIRM` with any value, and then keeps it
        have ho : o = none ∨ some c.value = o := by
          rcases hphase with hphase | ⟨hphase, -⟩
          · exact .inl ((hs.1 hv₁').1 hphase)
          · obtain ⟨c₀, hc₀, hcv⟩ := hen.acceptCommit_value hbp hphase
            rw [(hs.1 hv₁').2 (by simp [hphase]) c₀ hc₀, hcv]
            exact .inr rfl
        refine ⟨some c.value, captured_grows ho (.inl hv₁'), fun _ => ⟨?_, ?_⟩, ?_⟩
        · intro hne
          exact absurd (hphase'.symm.trans hne) (by decide)
        · rintro - c' hc'
          rw [Move.apply, acceptCommit_mCommit] at hc'
          cases hc'
          rfl
        · intro hne
          exact absurd (hphase'.symm.trans hne) (by decide)
      · refine ⟨o, captured_grows (.inr rfl) (.inr rfl), fun h => absurd h hv₁', fun hne => ?_⟩
        exact absurd (hphase'.symm.trans hne) (by decide)
    | @confirmCommit c h c₀ hval hpos hle hphase hc₀ hsame hrat =>
      have ho : o = some c.value := by
        by_cases hcap' : N.Captured v
        · -- there is only one captured node
          obtain rfl : v₁ = v := captured_mem hN hv₁ hcap (singleton_mem_quorums hv hcap')
          rw [(hs.1 rfl).2 (by simp [hphase]) c₀ hc₀, hsame]
        · exact captured_of_ratify hN hv₁ hcap hh hscp hcap' hrat
      have hnew : ∀ c' ∈ (bp.confirmCommit c h).mCommit, o = some c'.value := by
        rw [confirmCommit_mCommit]
        rintro c' hc'
        cases hc'
        exact ho
      refine ⟨o, captured_grows (.inr rfl) (.inr rfl), fun _ => ⟨fun hp => ?_, fun _ => hnew⟩,
        fun _ => hnew⟩
      cases hp

end

/-! ## Two samples -/

/-- Two nodes that need each other. -/
def pairQSet (_ : NodeID) : SCPQuorumSet := .mk 2 [0, 1] []

def pair : Network := plainNetwork [0, 1] [] pairQSet (by decide +kernel)

theorem pair_dispensable : pair.Dispensable where
  available v hv := by
    refine (SCPQuorumSet.satisfiedBy_unanimous (by decide) (by decide)).mpr fun n _ => ?_
    exact List.not_mem_nil
  intersect := by
    have hmem : ∀ U ∈ pair.quorums, (0 : NodeID) ∈ U := by
      rintro U ⟨-, ⟨v, hv⟩, hclosed⟩
      have h := (SCPQuorumSet.satisfiedBy_unanimous (by decide) (by decide)).mp (hclosed v hv) 0
        (by decide)
      exact h.resolve_right List.not_mem_nil
    exact fun U hU U' hU' => ⟨0, hmem U hU, hmem U' hU'⟩

theorem pair_not_captured : ∀ v ∈ pair.correct, ¬ pair.Captured v :=
  fun _ hv => pair_dispensable.not_captured hv
    (show isQuorumSetSane (.mk 2 [0, 1] []) true = true by decide +kernel)

theorem mem_pair_correct {v : NodeID} : v ∈ pair.correct ↔ v ∈ ([0, 1] : List NodeID) :=
  ⟨fun h => h.1, fun h => ⟨h, List.not_mem_nil⟩⟩

/-- Both nodes start on `[2]`, go on to `[1]` when only node 0 has accepted `[2]` as
prepared, and externalize it. -/
def pairSchedule : List Action :=
  [.execute 0 (.bumpState [2] true), .execute 1 (.bumpState [2] true), .relay 1 0,
    .execute 0 (.bumpState [1] true), .execute 1 (.bumpState [1] true), .relay 1 0, .relay 0 1,
    .relay 1 0, .relay 0 1, .relay 1 0]

def pairRun : (NodeID → Slot) × List (NodeID → Slot) :=
  replay (plainNode pairQSet) 1 pairSchedule

theorem pair_runs : pair.Runs 1 (fun _ => True) pairRun.1 pairRun.2 :=
  Network.replay_runs (fun v _ => plainNetwork_serves v) 1
    (by simp [pairSchedule, plainNetwork, Network.Allows, Network.correct])

/-- Node 0 has a slice of the ill-behaved node 2. -/
def luredQSet (v : NodeID) : SCPQuorumSet :=
  if v = 0 then .mk 1 [2] [.mk 2 [0, 1] []] else if v = 1 then .mk 2 [0, 1] [] else .mk 1 [2] []

def lured : Network := plainNetwork [0, 1] [2] luredQSet (by decide +kernel)

theorem mem_lured_correct {v : NodeID} : v ∈ lured.correct ↔ v = 0 ∨ v = 1 := by
  constructor
  · rintro ⟨h, -⟩
    simpa [lured, plainNetwork] using h
  · rintro (rfl | rfl)
    · exact ⟨List.mem_cons_self, fun h => absurd (List.mem_singleton.mp h) (by decide)⟩
    · exact ⟨List.mem_cons_of_mem _ List.mem_cons_self,
        fun h => absurd (List.mem_singleton.mp h) (by decide)⟩

theorem lured_dispensable : lured.Dispensable where
  available v hv := by
    refine ⟨[0, 1], ?_, ?_⟩
    · intro n hn hf
      obtain rfl := List.mem_singleton.mp hf
      exact absurd hn (by decide)
    · rcases mem_lured_correct.mp hv with rfl | rfl
      · decide +kernel
      · decide +kernel
  intersect := by
    have hmem : ∀ U ∈ lured.quorums, (0 : NodeID) ∈ U := by
      rintro U ⟨hcorrect, ⟨v, hv⟩, hclosed⟩
      rcases mem_lured_correct.mp (hcorrect v hv) with rfl | rfl
      · exact hv
      · have h := (SCPQuorumSet.satisfiedBy_unanimous (by decide) (by decide)).mp (hclosed 1 hv) 0
          (by decide)
        refine h.resolve_right fun h => ?_
        exact absurd (List.mem_singleton.mp h) (by decide)
    exact fun U hU U' hU' => ⟨0, hmem U hU, hmem U' hU'⟩

/-- Node 2 lets node 0 accept `(5, [2])` as prepared, of which node 1 hears, and then
lets it accept the commit of `(1, [1])`. -/
def luredSchedule : List Action :=
  [.execute 0 (.receiveEnvelope ⟨⟨2, 1, .prepare ⟨2, ⟨5, [2]⟩, none, none, 0, 0⟩⟩, []⟩),
    .execute 0 (.bumpState [1] true), .relay 0 1,
    .execute 0 (.receiveEnvelope ⟨⟨2, 1, .confirm ⟨⟨1, [1]⟩, 1, 1, 1, 2⟩⟩, []⟩)]

def luredRun : (NodeID → Slot) × List (NodeID → Slot) :=
  replay (plainNode luredQSet) 1 luredSchedule

theorem lured_runs : lured.Runs 1 (fun _ => True) luredRun.1 luredRun.2 :=
  Network.replay_runs (fun v _ => plainNetwork_serves v) 1
    (by simp [luredSchedule, plainNetwork, Network.Allows, Network.correct])

/-! ## Agreement -/

section
variable {N : Network} {slotIndex : Uint64} {σ : NodeID → Slot} {past : List (NodeID → Slot)}

/-- No two correct nodes ever externalize different values: in every run of the correct
nodes, whatever the ill-behaved ones send and however envelopes are delivered. -/
theorem agreement (hN : N.Dispensable) (hrun : N.Runs slotIndex (fun _ => True) σ past)
    {u w : NodeID} (hu : u ∈ N.correct) (hw : w ∈ N.correct) {bp bp' : BallotProtocol}
    (hbp : EverHeld σ past u bp) (hbp' : EverHeld σ past w bp')
    (hext : bp.mPhase = .externalize) (hext' : bp'.mPhase = .externalize) :
    ∃ c c', bp.mCommit = some c ∧ bp'.mCommit = some c' ∧ c.value = c'.value := by
  by_cases hcap : ∃ v₁ ∈ N.correct, N.Captured v₁
  · obtain ⟨v₁, hv₁, hcap⟩ := hcap
    obtain ⟨o, -, hheld⟩ := (capturedInvariant_holds hN hv₁ hcap).runs hrun
    obtain ⟨hcons, h⟩ := hheld u hu bp hbp
    obtain ⟨hcons', h'⟩ := hheld w hw bp' hbp'
    obtain ⟨-, -, -, c, -, -, -, hc, -⟩ := hcons.exists_of_later (by simp [hext])
    obtain ⟨-, -, -, c', -, -, -, hc', -⟩ := hcons'.exists_of_later (by simp [hext'])
    exact ⟨c, c', hc, hc', Option.some.inj ((h hext c hc).symm.trans (h' hext' c' hc'))⟩
  · have hfree : ∀ v ∈ N.correct, ¬ N.Captured v := fun v hv h => hcap ⟨v, hv, h⟩
    obtain ⟨F, -, hheld⟩ := (safeInvariant_holds hN hfree).runs hrun
    obtain ⟨hcons, h⟩ := hheld u hu bp hbp
    obtain ⟨hcons', h'⟩ := hheld w hw bp' hbp'
    obtain ⟨-, -, -, c, -, -, -, hc, -⟩ := hcons.exists_of_later (by simp [hext])
    obtain ⟨-, -, -, c', -, -, -, hc', -⟩ := hcons'.exists_of_later (by simp [hext'])
    refine ⟨c, c', hc, hc', F.2.commit_unique (u := u) (w := w) ?_ ?_⟩
    · exact h.acceptedCommit_le u c ⟨rfl, by simp [hext], hc⟩
    · exact h'.acceptedCommit_le w c' ⟨rfl, by simp [hext'], hc'⟩

theorem agreement_pair :
    ∃ bp bp', EverHeld pairRun.1 pairRun.2 0 bp ∧ EverHeld pairRun.1 pairRun.2 1 bp' ∧
      bp.mPhase = .externalize ∧ bp'.mPhase = .externalize ∧
      ∃ c c', bp.mCommit = some c ∧ bp'.mCommit = some c' ∧ c.value = c'.value := by
  have hheld : ∀ v, EverHeld pairRun.1 pairRun.2 v (pairRun.1 v).mBallotProtocol :=
    fun v => ⟨_, List.mem_cons_self, .inl rfl⟩
  have h0 : (pairRun.1 0).mBallotProtocol.mPhase = .externalize := by decide +kernel
  have h1 : (pairRun.1 1).mBallotProtocol.mPhase = .externalize := by decide +kernel
  exact ⟨_, _, hheld 0, hheld 1, h0, h1, agreement pair_dispensable pair_runs
    (mem_pair_correct.mpr (by decide)) (mem_pair_correct.mpr (by decide)) (hheld 0) (hheld 1) h0
    h1⟩

/-- A correct node has signed a statement that accepts the commit of the value. -/
def Network.Accepts (N : Network) (σ : NodeID → Slot) (x : Value) : Prop :=
  ∃ v ∈ N.correct, ∃ env ∈ (σ v).signedEnvelopes, ∃ c cur,
    commitPredicate c cur env.statement.pledges = true ∧ c.value = x

theorem accepts_subsingleton {F : (safeInvariant N).Ghost} (hok : (safeInvariant N).Ok F σ) :
    {x | N.Accepts σ x}.Subsingleton := by
  have hacc : ∀ x, N.Accepts σ x → ∃ v d, F.1.acceptedCommit v d ∧ d.value = x := by
    rintro x ⟨v, hv, env, henv, c, cur, hc, rfl⟩
    obtain ⟨d, hd, -, hval⟩ := Claims.acceptedCommit ((hok v hv).signed env henv).2.2 hc
    exact ⟨v, d, hd, hval⟩
  intro x hx y hy
  obtain ⟨u, d, hd, rfl⟩ := hacc x hx
  obtain ⟨w, d', hd', rfl⟩ := hacc y hy
  exact F.2.commit_unique hd hd'

/-- While nobody is captured, the statements that the correct nodes sign in a run accept commits
of one value only, whatever the ill-behaved nodes send. -/
theorem signed_commits_agree (hN : N.Dispensable) (hfree : ∀ v ∈ N.correct, ¬ N.Captured v)
    (hrun : N.Runs slotIndex (fun _ => True) σ past) : {x | N.Accepts σ x}.Subsingleton := by
  obtain ⟨F, hok, -⟩ := (safeInvariant_holds hN hfree).runs hrun
  exact accepts_subsingleton hok

theorem signed_commits_agree_pair : {x | pair.Accepts pairRun.1 x}.Subsingleton ∧
    ∃ env ∈ (pairRun.1 0).signedEnvelopes,
      commitPredicate ⟨2, [1]⟩ (2, 2) env.statement.pledges = true :=
  ⟨signed_commits_agree pair_dispensable pair_not_captured pair_runs, by decide +kernel⟩

/-- While nobody is captured, no correct node holds a prepared ballot on another value
above the commit that a correct node has accepted. -/
theorem no_contradictory_accepts (hN : N.Dispensable) (hfree : ∀ v ∈ N.correct, ¬ N.Captured v)
    (hrun : N.Runs slotIndex (fun _ => True) σ past) {u w : NodeID} (hu : u ∈ N.correct)
    (hw : w ∈ N.correct) {bp bp' : BallotProtocol} (hbp : EverHeld σ past u bp)
    (hbp' : EverHeld σ past w bp') (hphase : bp.mPhase ≠ .prepare) {c p : SCPBallot}
    (hc : bp.mCommit = some c) {n : Uint32} (hn : c.counter ≤ n)
    (hp : bp'.mPrepared = some p ∨ bp'.mPreparedPrime = some p) (hne : p.value ≠ c.value) :
    ¬ (⟨n, c.value⟩ : SCPBallot) < p := by
  obtain ⟨F, -, hheld⟩ := (safeInvariant_holds hN hfree).runs hrun
  have hac := (hheld u hu bp hbp).2.acceptedCommit_le u c ⟨rfl, hphase, hc⟩
  have hap := (hheld w hw bp' hbp').2.acceptedPrepare_le w p ⟨rfl, p, hp, le_rfl, rfl⟩
  intro hlt
  exact F.2.commit_prepare u c w p hac hap hne
    (((SCPBallot.le_mk_iff rfl).mpr hn).trans_lt hlt)

end

theorem no_contradictory_accepts_pair :
    ∃ bp bp', EverHeld pairRun.1 pairRun.2 1 bp ∧ EverHeld pairRun.1 pairRun.2 0 bp' ∧
      bp.mPhase ≠ .prepare ∧ bp.mCommit = some ⟨2, [1]⟩ ∧ bp'.mPrepared = some ⟨1, [2]⟩ ∧
      ¬ (⟨2, [1]⟩ : SCPBallot) < ⟨1, [2]⟩ := by
  have hheld : EverHeld pairRun.1 pairRun.2 1 (pairRun.1 1).mBallotProtocol :=
    ⟨_, List.mem_cons_self, .inl rfl⟩
  -- the state after the third action
  have hpast : EverHeld pairRun.1 pairRun.2 0
      (pairRun.2.get ⟨6, by decide +kernel⟩ 0).mBallotProtocol :=
    ⟨_, List.mem_cons_of_mem _ (List.get_mem _ _), .inl rfl⟩
  have hphase : (pairRun.1 1).mBallotProtocol.mPhase ≠ .prepare := by decide +kernel
  have hc : (pairRun.1 1).mBallotProtocol.mCommit = some ⟨2, [1]⟩ := by decide +kernel
  have hp : (pairRun.2.get ⟨6, by decide +kernel⟩ 0).mBallotProtocol.mPrepared =
      some ⟨1, [2]⟩ := by decide +kernel
  exact ⟨_, _, hheld, hpast, hphase, hc, hp, no_contradictory_accepts pair_dispensable
    pair_not_captured pair_runs (mem_pair_correct.mpr (by decide))
    (mem_pair_correct.mpr (by decide)) hheld hpast hphase hc le_rfl (.inl hp) (by decide)⟩

/-- A captured node can be led into contradictory accepts: node 0 has committed `[1]`
and node 1 holds a greater ballot on `[2]`. -/
theorem contradictory_accepts_lured :
    lured.Dispensable ∧ lured.Runs 1 (fun _ => True) luredRun.1 luredRun.2 ∧
    ∃ u ∈ lured.correct, ∃ w ∈ lured.correct, ∃ bp bp' c h p,
      EverHeld luredRun.1 luredRun.2 u bp ∧ EverHeld luredRun.1 luredRun.2 w bp' ∧
      bp.mPhase ≠ .prepare ∧ bp.mCommit = some c ∧ bp.mHighBallot = some h ∧
      bp'.mPrepared = some p ∧ p.value ≠ c.value ∧
      ∃ n, c.counter ≤ n ∧ n ≤ h.counter ∧ (⟨n, c.value⟩ : SCPBallot) < p := by
  have hheld : ∀ v, EverHeld luredRun.1 luredRun.2 v (luredRun.1 v).mBallotProtocol :=
    fun v => ⟨_, List.mem_cons_self, .inl rfl⟩
  refine ⟨lured_dispensable, lured_runs, 0, mem_lured_correct.mpr (.inl rfl), 1,
    mem_lured_correct.mpr (.inr rfl), _, _, ⟨1, [1]⟩, ⟨1, [1]⟩, ⟨5, [2]⟩, hheld 0, hheld 1, ?_, ?_,
    ?_, ?_, by decide, 1, le_rfl, le_rfl, by decide⟩
  · decide +kernel
  · decide +kernel
  · decide +kernel
  · decide +kernel

end DigitalBits.Scp
