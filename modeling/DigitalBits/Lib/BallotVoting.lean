import Mathlib

/-!
# Safety of voting on ballots

Nodes vote to prepare a ballot, accept it as prepared, vote to commit it and
accept it as committed. `Votes` is what every correct node has said so far. New
facts need evidence: what some node has accepted, or a quorum that has voted.
The four rules at the end say which facts may be added so that no commit is ever
accepted against a greater accepted ballot on another value.

A quorum is a non-empty set of correct nodes; all that is used of quorums is
that any two of them meet.
-/
namespace DigitalBits.Lib

/-- What correct nodes have said about ballots. -/
structure Votes (ν β : Type) where
  votedPrepare : ν → β → Prop
  acceptedPrepare : ν → β → Prop
  votedCommit : ν → β → Prop
  acceptedCommit : ν → β → Prop

namespace Votes

/-- Everything said in `F` is said in `G`. -/
structure Le {ν β : Type} (F G : Votes ν β) : Prop where
  votedPrepare_le : ∀ w d, F.votedPrepare w d → G.votedPrepare w d
  acceptedPrepare_le : ∀ w d, F.acceptedPrepare w d → G.acceptedPrepare w d
  votedCommit_le : ∀ w d, F.votedCommit w d → G.votedCommit w d
  acceptedCommit_le : ∀ w d, F.acceptedCommit w d → G.acceptedCommit w d

/-- What is said in `F` or in `G`. -/
def join {ν β : Type} (F G : Votes ν β) : Votes ν β where
  votedPrepare w d := F.votedPrepare w d ∨ G.votedPrepare w d
  acceptedPrepare w d := F.acceptedPrepare w d ∨ G.acceptedPrepare w d
  votedCommit w d := F.votedCommit w d ∨ G.votedCommit w d
  acceptedCommit w d := F.acceptedCommit w d ∨ G.acceptedCommit w d

variable {ν β : Type}

theorem le_join_left (F G : Votes ν β) : F.Le (F.join G) :=
  ⟨fun _ _ => .inl, fun _ _ => .inl, fun _ _ => .inl, fun _ _ => .inl⟩

theorem le_join_right (F G : Votes ν β) : G.Le (F.join G) :=
  ⟨fun _ _ => .inr, fun _ _ => .inr, fun _ _ => .inr, fun _ _ => .inr⟩

theorem Le.trans {F G H : Votes ν β} (h : F.Le G) (h' : G.Le H) : F.Le H where
  votedPrepare_le w d hd := h'.votedPrepare_le w d (h.votedPrepare_le w d hd)
  acceptedPrepare_le w d hd := h'.acceptedPrepare_le w d (h.acceptedPrepare_le w d hd)
  votedCommit_le w d hd := h'.votedCommit_le w d (h.votedCommit_le w d hd)
  acceptedCommit_le w d hd := h'.acceptedCommit_le w d (h.acceptedCommit_le w d hd)

variable {ν β V : Type} [LinearOrder β] (val : β → V) (quorums : Set (Set ν)) (F : Votes ν β)

/-- A greater ballot on another value is prepared, or another value committed. -/
def Contradicted (b : β) : Prop :=
  (∃ u d, F.acceptedPrepare u d ∧ b < d ∧ val d ≠ val b) ∨
  ∃ u d, F.acceptedCommit u d ∧ val d ≠ val b

/-- A quorum has not voted to commit `b` and has moved on to other values. -/
def Dead (b : β) : Prop :=
  ∃ U ∈ quorums, ∀ w ∈ U, ¬ F.votedCommit w b ∧ ∃ d, F.votedPrepare w d ∧ b < d ∧ val d ≠ val b

/-- A smaller ballot on another value is committed. -/
def Blocked (b : β) : Prop := ∃ u d, F.acceptedCommit u d ∧ d < b ∧ val d ≠ val b

/-- Some node has accepted `b` as prepared, or has committed its value. -/
def PreparedBySome (b : β) : Prop :=
  (∃ u, F.acceptedPrepare u b) ∨ ∃ u d, F.acceptedCommit u d ∧ val d = val b

/-- Why a node may accept `b` as prepared. -/
def PrepareEvidence (b : β) : Prop :=
  F.PreparedBySome val b ∨ ∃ U ∈ quorums, ∀ w ∈ U, F.votedPrepare w b

/-- Why a node may accept `b` as committed. -/
def CommitEvidence (b : β) : Prop :=
  (∃ u d, F.acceptedCommit u d ∧ d ≤ b ∧ val d = val b) ∨
  ∃ U ∈ quorums, ∀ w ∈ U, F.votedCommit w b

/-- The invariant of ballot voting. -/
structure Safe : Prop where
  commit_prepare : ∀ u b w d, F.acceptedCommit u b → F.acceptedPrepare w d → val d ≠ val b →
    ¬ b < d
  commit_source : ∀ u b, F.acceptedCommit u b → ∃ b₀ ≤ b, val b₀ = val b ∧
    (∃ u, F.acceptedCommit u b₀) ∧ (∃ U ∈ quorums, ∀ w ∈ U, F.votedCommit w b₀) ∧
    ∃ w, F.acceptedPrepare w b₀
  prepare_below : ∀ w d b, F.acceptedPrepare w d → b < d → val d ≠ val b →
    F.Dead val quorums b ∨ F.Blocked val b
  vote_source : ∀ w b, F.votedCommit w b → F.PreparedBySome val b
  coherent : ∀ w b d, F.votedCommit w b → F.votedPrepare w d → b < d → val d ≠ val b →
    F.Contradicted val b
  prepare_down : ∀ w d b, F.acceptedPrepare w d → b ≤ d → val b = val d → F.acceptedPrepare w b

variable {val quorums F}

theorem Contradicted.mono {G : Votes ν β} (h : F.Le G) {b : β} (hb : F.Contradicted val b) :
    G.Contradicted val b :=
  hb.imp (fun ⟨u, d, hd, h'⟩ => ⟨u, d, h.acceptedPrepare_le u d hd, h'⟩)
    fun ⟨u, d, hd, h'⟩ => ⟨u, d, h.acceptedCommit_le u d hd, h'⟩

/-- A ballot is contradicted by a greater one on another value that is prepared. -/
theorem PreparedBySome.contradicted {b d : β} (h : F.PreparedBySome val d) (hlt : b < d)
    (hne : val d ≠ val b) : F.Contradicted val b :=
  h.imp (fun ⟨u, hu⟩ => ⟨u, d, hu, hlt, hne⟩) fun ⟨u, e, he, hv⟩ => ⟨u, e, he, by rwa [hv]⟩

/-- At the start nothing has been said. -/
theorem safe_of_empty (hac : ∀ u b, ¬ F.acceptedCommit u b)
    (hap : ∀ u b, ¬ F.acceptedPrepare u b) (hvc : ∀ u b, ¬ F.votedCommit u b) :
    F.Safe val quorums where
  commit_prepare u b _ _ h := absurd h (hac u b)
  commit_source u b h := absurd h (hac u b)
  prepare_below w d _ h := absurd h (hap w d)
  vote_source w b h := absurd h (hvc w b)
  coherent w b _ h := absurd h (hvc w b)
  prepare_down w d _ h := absurd h (hap w d)

namespace Safe
variable (hF : F.Safe val quorums)
include hF

variable {u : ν} {b d : β}

/-- Only one value is ever committed. -/
theorem commit_unique {w : ν} (hb : F.acceptedCommit u b) (hd : F.acceptedCommit w d) :
    val b = val d := by
  by_contra hne
  obtain ⟨b₀, -, hvb, ⟨u₀, hu₀⟩, -, u₁, hu₁⟩ := hF.commit_source u b hb
  obtain ⟨d₀, -, hvd, ⟨w₀, hw₀⟩, -, w₁, hw₁⟩ := hF.commit_source w d hd
  have hne₀ : val b₀ ≠ val d₀ := by rwa [hvb, hvd]
  rcases lt_trichotomy b₀ d₀ with h | h | h
  · exact hF.commit_prepare u₀ b₀ w₁ d₀ hu₀ hw₁ hne₀.symm h
  · exact hne₀ (by rw [h])
  · exact hF.commit_prepare w₀ d₀ u₁ b₀ hw₀ hu₁ hne₀ h

/-- A ballot against a commit on another value is dead or blocked. -/
theorem below_of_commit (hd : F.acceptedCommit u d) (hne : val d ≠ val b) :
    F.Dead val quorums b ∨ F.Blocked val b := by
  obtain ⟨d₀, -, hv, ⟨u₀, hu₀⟩, -, w, hw⟩ := hF.commit_source u d hd
  have hne₀ : val d₀ ≠ val b := by rwa [hv]
  rcases lt_trichotomy b d₀ with h | h | h
  · exact hF.prepare_below w d₀ b hw h hne₀
  · exact absurd (congrArg val h.symm) hne₀
  · exact .inr ⟨u₀, d₀, hu₀, h, hne₀⟩

theorem below_of_contradicted (h : F.Contradicted val b) :
    F.Dead val quorums b ∨ F.Blocked val b := by
  rcases h with ⟨u, d, hd, hlt, hne⟩ | ⟨u, d, hd, hne⟩
  · exact hF.prepare_below u d b hd hlt hne
  · exact hF.below_of_commit hd hne

/-- A committed ballot is not contradicted. -/
theorem not_contradicted (hb : F.acceptedCommit u b) : ¬ F.Contradicted val b := by
  rintro (⟨w, d, hd, hlt, hne⟩ | ⟨w, d, hd, hne⟩)
  · exact hF.commit_prepare u b w d hb hd hne hlt
  · exact hne (hF.commit_unique hd hb)

/-- Evidence for a prepared ballot is never against a committed one. -/
theorem not_lt_of_prepareEvidence (hmeet : ∀ U ∈ quorums, ∀ U' ∈ quorums, ∃ w ∈ U, w ∈ U')
    (hb : F.acceptedCommit u b) (hd : F.PrepareEvidence val quorums d) (hne : val d ≠ val b) :
    ¬ b < d := by
  intro hlt
  rcases hd with (⟨w, hw⟩ | ⟨w, e, he, hv⟩) | ⟨U, hU, hvote⟩
  · exact hF.commit_prepare u b w d hb hw hne hlt
  · exact hne (hv ▸ hF.commit_unique he hb)
  · obtain ⟨b₀, hle, hv, ⟨u₀, hu₀⟩, ⟨U', hU', hcommit⟩, -⟩ := hF.commit_source u b hb
    obtain ⟨w, hw, hw'⟩ := hmeet U hU U' hU'
    exact hF.not_contradicted hu₀ (hF.coherent w b₀ d (hcommit w hw') (hvote w hw)
      (hle.trans_lt hlt) (by rwa [hv]))

/-- Evidence for a prepared ballot rules out the smaller ballots on other values. -/
theorem below_of_prepareEvidence (hd : F.PrepareEvidence val quorums d) (hlt : b < d)
    (hne : val d ≠ val b) : F.Dead val quorums b ∨ F.Blocked val b := by
  rcases hd with (⟨w, hw⟩ | ⟨w, e, he, hv⟩) | ⟨U, hU, hvote⟩
  · exact hF.prepare_below w d b hw hlt hne
  · exact hF.below_of_commit he (by rwa [hv])
  · by_cases hall : ∀ w ∈ U, ¬ F.votedCommit w b
    · exact .inl ⟨U, hU, fun w hw => ⟨hall w hw, d, hvote w hw, hlt, hne⟩⟩
    · push Not at hall
      obtain ⟨w, hw, hvc⟩ := hall
      exact hF.below_of_contradicted (hF.coherent w b d hvc (hvote w hw) hlt hne)

/-- A dead or blocked ballot gets no evidence to be committed. -/
theorem not_commitEvidence (hmeet : ∀ U ∈ quorums, ∀ U' ∈ quorums, ∃ w ∈ U, w ∈ U') {w : ν}
    (hd : F.acceptedPrepare w d) (hlt : b < d) (hne : val d ≠ val b) :
    ¬ F.CommitEvidence val quorums b := by
  rintro (⟨u, e, he, hle, hv⟩ | ⟨U, hU, hvote⟩)
  · exact hF.commit_prepare u e w d he hd (by rwa [hv]) (hle.trans_lt hlt)
  · rcases hF.prepare_below w d b hd hlt hne with ⟨U', hU', hdead⟩ | ⟨u, e, he, hlt', hne'⟩
    · obtain ⟨x, hx, hx'⟩ := hmeet U hU U' hU'
      exact (hdead x hx').1 (hvote x hx)
    · obtain ⟨x, hx, -⟩ := hmeet U hU U hU
      rcases hF.vote_source x b (hvote x hx) with ⟨y, hy⟩ | ⟨y, c, hc, hvc⟩
      · exact hF.commit_prepare u e y b he hy hne'.symm hlt'
      · exact hne' (hF.commit_unique he hc |>.trans hvc)

end Safe

/-! ## The facts that may be added -/

section
variable (hmeet : ∀ U ∈ quorums, ∀ U' ∈ quorums, ∃ w ∈ U, w ∈ U')
include hmeet

theorem Safe.addAcceptedPrepare (hF : F.Safe val quorums) {ap : ν → β → Prop}
    (hle : ∀ w d, F.acceptedPrepare w d → ap w d)
    (hnew : ∀ w d, ap w d → F.acceptedPrepare w d ∨ F.PrepareEvidence val quorums d)
    (hdown : ∀ w d b, ap w d → b ≤ d → val b = val d → ap w b) :
    { F with acceptedPrepare := ap }.Safe val quorums where
  commit_prepare u b w d hb hd hne := by
    rcases hnew w d hd with hd | hd
    · exact hF.commit_prepare u b w d hb hd hne
    · exact hF.not_lt_of_prepareEvidence hmeet hb hd hne
  commit_source u b hb := by
    obtain ⟨b₀, hle₀, hv, hc, hU, w, hw⟩ := hF.commit_source u b hb
    exact ⟨b₀, hle₀, hv, hc, hU, w, hle w b₀ hw⟩
  prepare_below w d b hd hlt hne := by
    rcases hnew w d hd with hd | hd
    · exact hF.prepare_below w d b hd hlt hne
    · exact hF.below_of_prepareEvidence hd hlt hne
  vote_source w b hb := (hF.vote_source w b hb).imp_left fun ⟨u, hu⟩ => ⟨u, hle u b hu⟩
  coherent w b d hb hd hlt hne :=
    (hF.coherent w b d hb hd hlt hne).imp_left fun ⟨u, e, he, h⟩ => ⟨u, e, hle u e he, h⟩
  prepare_down := hdown

theorem Safe.addAcceptedCommit (hF : F.Safe val quorums) {ac : ν → β → Prop}
    (hle : ∀ w d, F.acceptedCommit w d → ac w d)
    (hnew : ∀ w d, ac w d → F.acceptedCommit w d ∨ F.CommitEvidence val quorums d) :
    { F with acceptedCommit := ac }.Safe val quorums where
  commit_prepare u b w d hb hd hne := by
    rcases hnew u b hb with hb | hb
    · exact hF.commit_prepare u b w d hb hd hne
    · exact fun hlt => hF.not_commitEvidence hmeet hd hlt hne hb
  commit_source u b hb := by
    have hold : ∀ u d, F.acceptedCommit u d → d ≤ b → val d = val b → ∃ b₀ ≤ b, val b₀ = val b ∧
        (∃ u, ac u b₀) ∧ (∃ U ∈ quorums, ∀ w ∈ U, F.votedCommit w b₀) ∧
        ∃ w, F.acceptedPrepare w b₀ := by
      intro u d hd hdb hv
      obtain ⟨b₀, hle₀, hv₀, ⟨u₀, hu₀⟩, hU, hw⟩ := hF.commit_source u d hd
      exact ⟨b₀, hle₀.trans hdb, hv₀.trans hv, ⟨u₀, hle u₀ b₀ hu₀⟩, hU, hw⟩
    rcases hnew u b hb with hb' | ⟨u', d, hd, hdb, hv⟩ | ⟨U, hU, hvote⟩
    · exact hold u b hb' le_rfl rfl
    · exact hold u' d hd hdb hv
    · -- a quorum voted for `b` itself; one of its members saw it prepared
      obtain ⟨x, hx, -⟩ := hmeet U hU U hU
      rcases hF.vote_source x b (hvote x hx) with ⟨y, hy⟩ | ⟨y, c, hc, hvc⟩
      · exact ⟨b, le_rfl, rfl, ⟨u, hb⟩, ⟨U, hU, hvote⟩, y, hy⟩
      · obtain ⟨c₀, -, hv₀, ⟨u₀, hu₀⟩, hU₀, w, hw⟩ := hF.commit_source y c hc
        rcases le_total c₀ b with h | h
        · exact ⟨c₀, h, hv₀.trans hvc, ⟨u₀, hle u₀ c₀ hu₀⟩, hU₀, w, hw⟩
        · exact ⟨b, le_rfl, rfl, ⟨u, hb⟩, ⟨U, hU, hvote⟩, w,
            hF.prepare_down w c₀ b hw h (hv₀.trans hvc).symm⟩
  prepare_below w d b hd hlt hne :=
    (hF.prepare_below w d b hd hlt hne).imp_right fun ⟨u, e, he, h⟩ => ⟨u, e, hle u e he, h⟩
  vote_source w b hb := (hF.vote_source w b hb).imp_right fun ⟨u, e, he, h⟩ => ⟨u, e, hle u e he, h⟩
  coherent w b d hb hd hlt hne :=
    (hF.coherent w b d hb hd hlt hne).imp_right fun ⟨u, e, he, h⟩ => ⟨u, e, hle u e he, h⟩
  prepare_down := hF.prepare_down

end

/-- A node votes to commit what was accepted as prepared, unless it has voted for a
greater ballot on another value. -/
theorem Safe.addVotedCommit (hF : F.Safe val quorums) {vc : ν → β → Prop}
    (hle : ∀ w d, F.votedCommit w d → vc w d)
    (hnew : ∀ w b, vc w b → F.votedCommit w b ∨
      F.PreparedBySome val b ∧ ∀ d, F.votedPrepare w d → val d ≠ val b → ¬ b < d) :
    { F with votedCommit := vc }.Safe val quorums where
  commit_prepare := hF.commit_prepare
  commit_source u b hb := by
    obtain ⟨b₀, hle₀, hv, hc, ⟨U, hU, hvote⟩, hw⟩ := hF.commit_source u b hb
    exact ⟨b₀, hle₀, hv, hc, ⟨U, hU, fun w hw => hle w b₀ (hvote w hw)⟩, hw⟩
  prepare_below w d b hd hlt hne := by
    refine (hF.prepare_below w d b hd hlt hne).imp_left ?_
    rintro ⟨U, hU, hdead⟩
    refine ⟨U, hU, fun x hx => ⟨fun hvc => ?_, (hdead x hx).2⟩⟩
    obtain ⟨hno, e, he, hlt', hne'⟩ := hdead x hx
    rcases hnew x b hvc with h | h
    · exact hno h
    · exact h.2 e he hne' hlt'
  vote_source w b hb := by
    rcases hnew w b hb with h | h
    · exact hF.vote_source w b h
    · exact h.1
  coherent w b d hb hd hlt hne := by
    rcases hnew w b hb with h | h
    · exact hF.coherent w b d h hd hlt hne
    · exact absurd hlt (h.2 d hd hne)
  prepare_down := hF.prepare_down

/-- A node may vote to prepare a ballot when its own votes to commit smaller ballots
on other values are contradicted. -/
theorem Safe.addVotedPrepare (hF : F.Safe val quorums) {vp : ν → β → Prop}
    (hle : ∀ w d, F.votedPrepare w d → vp w d)
    (hnew : ∀ w d, vp w d → F.votedPrepare w d ∨
      ∀ b, F.votedCommit w b → b < d → val d ≠ val b → F.Contradicted val b) :
    { F with votedPrepare := vp }.Safe val quorums where
  commit_prepare := hF.commit_prepare
  commit_source := hF.commit_source
  prepare_below w d b hd hlt hne := by
    refine (hF.prepare_below w d b hd hlt hne).imp_left ?_
    rintro ⟨U, hU, hdead⟩
    refine ⟨U, hU, fun x hx => ⟨(hdead x hx).1, ?_⟩⟩
    obtain ⟨-, e, he, h⟩ := hdead x hx
    exact ⟨e, hle x e he, h⟩
  vote_source := hF.vote_source
  coherent w b d hb hd hlt hne := by
    rcases hnew w d hd with h | h
    · exact hF.coherent w b d hb h hlt hne
    · exact h b hb hlt hne
  prepare_down := hF.prepare_down

/-! ## One step of a node -/

/-- The facts of `G` are those of `F` and facts for which there is a reason. -/
structure Extends (val : β → V) (quorums : Set (Set ν)) (F G : Votes ν β) : Prop
    extends F.Le G where
  acceptedPrepare : ∀ w d, G.acceptedPrepare w d →
    F.acceptedPrepare w d ∨ F.PrepareEvidence val quorums d
  prepare_down : ∀ w d b, G.acceptedPrepare w d → b ≤ d → val b = val d → G.acceptedPrepare w b
  acceptedCommit : ∀ w d, G.acceptedCommit w d →
    F.acceptedCommit w d ∨ F.CommitEvidence val quorums d
  votedCommit : ∀ w b, G.votedCommit w b → F.votedCommit w b ∨
    F.PreparedBySome val b ∧ ∀ d, F.votedPrepare w d → val d ≠ val b → ¬ b < d
  votedPrepare : ∀ w d, G.votedPrepare w d → F.votedPrepare w d ∨
    ∀ b, G.votedCommit w b → b < d → val d ≠ val b → G.Contradicted val b

/-- Reasonable facts keep voting safe. -/
theorem Safe.extend (hmeet : ∀ U ∈ quorums, ∀ U' ∈ quorums, ∃ w ∈ U, w ∈ U')
    (hF : F.Safe val quorums) {G : Votes ν β} (h : Extends val quorums F G) :
    G.Safe val quorums := by
  have h₁ := hF.addAcceptedPrepare hmeet h.acceptedPrepare_le h.acceptedPrepare h.prepare_down
  have h₂ := h₁.addAcceptedCommit hmeet h.acceptedCommit_le h.acceptedCommit
  have h₃ := h₂.addVotedCommit h.votedCommit_le fun w b hb =>
    (h.votedCommit w b hb).imp_right fun hb' => ⟨hb'.1.imp
      (fun ⟨u, hu⟩ => ⟨u, h.acceptedPrepare_le u b hu⟩)
      (fun ⟨u, d, hd, hv⟩ => ⟨u, d, h.acceptedCommit_le u d hd, hv⟩), hb'.2⟩
  exact h₃.addVotedPrepare h.votedPrepare_le h.votedPrepare

end Votes

end DigitalBits.Lib
