import DigitalBits.Scp.NormalForm
import Mathlib.Data.String.Basic

/-!
# Quorum sets from a validator list

`Config::generateQuorumSet` groups the validators by home domain and nests the groups by
quality. Every set it builds is sane, and the order of the configuration does not matter.
-/
namespace DigitalBits.Main
open Scp LocalNode List

/-- `ValidatorQuality`. -/
inductive ValidatorQuality where
  | VALIDATOR_LOW_QUALITY
  | VALIDATOR_MED_QUALITY
  | VALIDATOR_HIGH_QUALITY
  | VALIDATOR_CRITICAL_QUALITY
  deriving DecidableEq, Repr

namespace ValidatorQuality

/-- The values of the enumeration, by which it is compared. -/
def value : ValidatorQuality → ℕ
  | VALIDATOR_LOW_QUALITY => 0
  | VALIDATOR_MED_QUALITY => 1
  | VALIDATOR_HIGH_QUALITY => 2
  | VALIDATOR_CRITICAL_QUALITY => 3

theorem value_injective : Function.Injective value := by
  intro a b h
  cases a <;> cases b <;> first | rfl | cases h

end ValidatorQuality

/-- `ValidatorEntry`, as far as the quorum set depends on it. -/
structure ValidatorEntry where
  mName : String
  mHomeDomain : String
  mQuality : ValidatorQuality
  mKey : NodeID
  deriving DecidableEq, Repr

/-- `ValidationThresholdLevels`. -/
inductive ValidationThresholdLevels where
  | SIMPLE_MAJORITY
  | BYZANTINE_FAULT_TOLERANCE
  | ALL_REQUIRED
  deriving DecidableEq, Repr

/-- `computeDefaultThreshold` of a set with these validators and inner sets. -/
def computeDefaultThreshold (validators : List NodeID) (innerSets : List SCPQuorumSet)
    (thresholdLevel : ValidationThresholdLevels) : Uint32 :=
  let topSize : Uint32 := Fin.ofNat (2 ^ 32) (validators.length + innerSets.length)
  if topSize = 0 then 0
  else if thresholdLevel = .SIMPLE_MAJORITY ∧ innerSets = [] then topSize - (topSize - 1) / 2
  else if thresholdLevel = .ALL_REQUIRED then topSize
  else topSize - (topSize - 1) / 3

namespace Config

/-- The loop over the validators of the home domain of `it`: their keys and what is left. -/
def domainKeys (it : ValidatorEntry) :
    List ValidatorEntry → Except String (List NodeID × List ValidatorEntry)
  | [] => .ok ([], [])
  | it2 :: rest =>
    if it2.mHomeDomain = it.mHomeDomain then
      if it2.mQuality ≠ it.mQuality then
        .error s!"Validators {it.mName} and {it2.mName} must have same quality"
      else
        match domainKeys it rest with
        | .error e => .error e
        | .ok (vals, left) => .ok (it2.mKey :: vals, left)
    else .ok ([], it2 :: rest)

variable {it : ValidatorEntry} {l left : List ValidatorEntry} {vals : List NodeID}

/-- What a successful run of the loop took: the validators up to the next home domain. -/
theorem domainKeys_ok (h : domainKeys it l = .ok (vals, left)) :
    ∃ run, l = run ++ left ∧ vals = run.map (·.mKey) ∧
      (∀ a ∈ run, it.mQuality = a.mQuality ∧ it.mHomeDomain = a.mHomeDomain) ∧
      ∀ a ∈ left.head?, it.mHomeDomain ≠ a.mHomeDomain := by
  fun_induction domainKeys it l generalizing vals left with
  | case1 =>
    cases h
    exact ⟨[], by simp⟩
  | case2 | case3 => cases h
  | case4 it2 rest hdomain hquality vals' left' hrest ih =>
    cases h
    obtain ⟨run, rfl, rfl, hrun, hleft⟩ := ih hrest
    rw [not_not] at hquality
    exact ⟨it2 :: run, rfl, rfl, forall_mem_cons.mpr ⟨⟨hquality.symm, hdomain.symm⟩, hrun⟩, hleft⟩
  | case5 it2 rest hdomain =>
    cases h
    exact ⟨[], by simpa using Ne.symm hdomain⟩

/-- The inner set of one home domain. -/
def domainSet (it : ValidatorEntry) (vals : List NodeID) : Except String SCPQuorumSet :=
  if vals.length < 3 ∧ (it.mQuality = .VALIDATOR_HIGH_QUALITY ∨
      it.mQuality = .VALIDATOR_CRITICAL_QUALITY) then
    .error s!"Critical and High quality validators {it.mName} must have redundancy of at least 3"
  else .ok (.mk (computeDefaultThreshold vals [] .SIMPLE_MAJORITY) vals [])

/-- The loop over the home domains of the current quality: their sets and what is left. The
first validator of a domain always belongs to it. -/
def domainSets (curQuality : ValidatorQuality) :
    List ValidatorEntry → Except String (List SCPQuorumSet × List ValidatorEntry)
  | [] => .ok ([], [])
  | it :: rest =>
    if it.mQuality = curQuality then
      match _h : domainKeys it rest with
      | .error e => .error e
      | .ok (vals, left) =>
        match domainSet it (it.mKey :: vals) with
        | .error e => .error e
        | .ok innerSet =>
          match domainSets curQuality left with
          | .error e => .error e
          | .ok (sets, left) => .ok (innerSet :: sets, left)
    else .ok ([], it :: rest)
termination_by l => l.length
decreasing_by
  obtain ⟨run, rfl, -⟩ := domainKeys_ok _h
  simp only [length_cons, length_append]
  omega

variable {curQuality : ValidatorQuality}

/-- One round of the loop over the home domains. -/
theorem domainSets_cons {rest : List ValidatorEntry} (hquality : it.mQuality = curQuality)
    (hkeys : domainKeys it rest = .ok (vals, left)) :
    domainSets curQuality (it :: rest) =
      match domainSet it (it.mKey :: vals) with
      | .error e => .error e
      | .ok innerSet =>
        match domainSets curQuality left with
        | .error e => .error e
        | .ok (sets, left) => .ok (innerSet :: sets, left) := by
  rw [domainSets, if_pos hquality]
  grind

/-- The loop stops at a validator of another quality. -/
theorem domainSets_left {sets : List SCPQuorumSet} {rest : List ValidatorEntry}
    (h : domainSets curQuality l = .ok (sets, it :: rest)) : it.mQuality ≠ curQuality := by
  fun_induction domainSets curQuality l generalizing sets with
  | case1 | case2 | case3 | case4 => cases h
  | case5 _ _ _ _ _ _ _ _ _ _ hsets ih =>
    cases h
    exact ih hsets
  | case6 _ _ hne =>
    cases h
    exact hne

/-- The set of one quality. -/
def qualitySet (curQuality : ValidatorQuality) (innerSets : List SCPQuorumSet) : SCPQuorumSet :=
  let thresholdLevel : ValidationThresholdLevels :=
    if curQuality = .VALIDATOR_CRITICAL_QUALITY then .ALL_REQUIRED else .BYZANTINE_FAULT_TOLERANCE
  .mk (computeDefaultThreshold [] innerSets thresholdLevel) [] innerSets

/-- `Config::generateQuorumSetHelper`. -/
def generateQuorumSetHelper (validators : List ValidatorEntry) (curQuality : ValidatorQuality) :
    Except String SCPQuorumSet :=
  match _h : domainSets curQuality validators with
  | .error e => .error e
  | .ok (sets, []) => .ok (qualitySet curQuality sets)
  | .ok (sets, it :: rest) =>
    if it.mQuality.value > curQuality.value then
      .error s!"invalid validator quality for {it.mName} (must be ascending)"
    else
      match generateQuorumSetHelper (it :: rest) it.mQuality with
      | .error e => .error e
      | .ok lowQ => .ok (qualitySet curQuality (sets ++ [lowQ]))
termination_by curQuality.value
decreasing_by
  have hne := ValidatorQuality.value_injective.ne (domainSets_left _h)
  omega

theorem generateQuorumSetHelper_eq (l : List ValidatorEntry) (curQuality : ValidatorQuality) :
    generateQuorumSetHelper l curQuality =
      match domainSets curQuality l with
      | .error e => .error e
      | .ok (sets, []) => .ok (qualitySet curQuality sets)
      | .ok (sets, it :: rest) =>
        if it.mQuality.value > curQuality.value then
          .error s!"invalid validator quality for {it.mName} (must be ascending)"
        else
          match generateQuorumSetHelper (it :: rest) it.mQuality with
          | .error e => .error e
          | .ok lowQ => .ok (qualitySet curQuality (sets ++ [lowQ])) := by
  rw [generateQuorumSetHelper]
  split
  · next h => rw [h]
  · next h => rw [h]
  · next h => rw [h]

/-- The comparison of the sort: by quality, the best first, then by home domain. -/
def before (l r : ValidatorEntry) : Bool :=
  if l.mQuality.value > r.mQuality.value then true
  else if l.mQuality.value < r.mQuality.value then false
  else decide (l.mHomeDomain < r.mHomeDomain)

/-- `std::sort` with this comparison; nothing is known about the order of ties. -/
structure StdSort where
  sort : List ValidatorEntry → List ValidatorEntry
  perm : ∀ l, (sort l).Perm l
  sorted : ∀ l, (sort l).Pairwise fun a b => before b a = false

variable (std : StdSort) (validators : List ValidatorEntry)

/-- `Config::generateQuorumSet`. -/
def generateQuorumSet : Except String SCPQuorumSet :=
  match generateQuorumSetHelper (std.sort validators) .VALIDATOR_CRITICAL_QUALITY with
  | .error e => .error e
  | .ok res => .ok (normalizeQSet res none)

/-! ## The sets are sound -/

variable {i : List SCPQuorumSet}

/-- A default threshold is a majority of the entries, and at most their number. -/
theorem computeDefaultThreshold_bounds {v : List NodeID} (level : ValidationThresholdLevels)
    (hpos : 1 ≤ v.length + i.length) (hlt : v.length + i.length < 2 ^ 32) :
    v.length + i.length <
        (computeDefaultThreshold v i level).val + (computeDefaultThreshold v i level).val ∧
      (computeDefaultThreshold v i level).val ≤ v.length + i.length := by
  have htop : (Fin.ofNat (2 ^ 32) (v.length + i.length)).val = v.length + i.length :=
    Nat.mod_eq_of_lt hlt
  unfold computeDefaultThreshold
  generalize Fin.ofNat (2 ^ 32) (v.length + i.length) = top at htop
  generalize v.length + i.length = n at *
  have hne : top ≠ 0 := fun h => absurd (h ▸ htop) (by simp; omega)
  have hone : (1 : Uint32).val = 1 := rfl
  have htwo : (2 : Uint32).val = 2 := rfl
  have hthree : (3 : Uint32).val = 3 := rfl
  rw [if_neg hne]
  split_ifs
  · simp only [Fin.sub_def, Fin.div_val, hone, htwo]
    omega
  · omega
  · simp only [Fin.sub_def, Fin.div_val, hone, hthree]
    omega

variable {q : SCPQuorumSet}

theorem domainSet_ok (h : domainSet it vals = .ok q) :
    q = .mk (computeDefaultThreshold vals [] .SIMPLE_MAJORITY) vals [] := by
  unfold domainSet at h
  split at h
  · cases h
  · cases h
    rfl

/-- The sets of the home domains are sound, and together with what is left they hold all keys. -/
theorem domainSets_sound {sets : List SCPQuorumSet} (hlt : l.length < 2 ^ 32)
    (h : domainSets curQuality l = .ok (sets, left)) :
    (∀ q ∈ sets, q.Sound 1) ∧ sets.length + left.length ≤ l.length ∧
      sets.flatMap forAllNodes ++ left.map (·.mKey) = l.map (·.mKey) := by
  fun_induction domainSets curQuality l generalizing sets left with
  | case1 =>
    cases h
    simp
  | case2 | case3 | case4 => cases h
  | case5 it rest _ vals mid hkeys q hset sets' left' hsets ih =>
    cases h
    obtain ⟨run, rfl, rfl, -⟩ := domainKeys_ok hkeys
    rw [length_cons, length_append] at hlt
    obtain ⟨hsound, hcount, hrest⟩ := ih (by omega) hsets
    obtain rfl := domainSet_ok hset
    have hbounds := computeDefaultThreshold_bounds (v := it.mKey :: run.map (·.mKey)) (i := [])
      .SIMPLE_MAJORITY (by simp) (by simp; omega)
    refine ⟨forall_mem_cons.mpr ⟨.mk hbounds.1 hbounds.2 (by simp), hsound⟩, ?_, ?_⟩
    · simp only [length_cons, length_append]
      omega
    · simp [hrest, forAllNodes, forAllInnerNodes]
  | case6 =>
    cases h
    simp

/-- The set of one quality nests one set more than the qualities below. -/
theorem qualitySet_sound {d : ℕ} (hi : ∀ q ∈ i, q.Sound d) (hne : i ≠ []) (hlt : i.length < 2 ^ 32) :
    (qualitySet curQuality i).Sound (d + 1) := by
  have hpos : 1 ≤ ([] : List NodeID).length + i.length := by
    rw [length_nil, Nat.zero_add]
    exact length_pos_iff.mpr hne
  have hbounds := computeDefaultThreshold_bounds
    (if curQuality = .VALIDATOR_CRITICAL_QUALITY then .ALL_REQUIRED
      else .BYZANTINE_FAULT_TOLERANCE) hpos (by rwa [length_nil, Nat.zero_add])
  exact .mk hbounds.1 hbounds.2 hi

theorem qualitySet_nodes (curQuality : ValidatorQuality) (i : List SCPQuorumSet) :
    forAllNodes (qualitySet curQuality i) = i.flatMap forAllNodes := by
  rw [qualitySet, forAllNodes, forAllInnerNodes_eq, nil_append]

/-- The set of a validator list is sound and its nodes are the keys of the list. The induction
is on the quality, which bounds the nesting. -/
theorem generateQuorumSetHelper_sound (hne : l ≠ []) (hlt : l.length < 2 ^ 32)
    (h : generateQuorumSetHelper l curQuality = .ok q) :
    q.Sound (curQuality.value + 2) ∧ forAllNodes q = l.map (·.mKey) := by
  fun_induction generateQuorumSetHelper l curQuality generalizing q with
  | case1 => cases h
  | case2 l curQuality sets hsets =>
    cases h
    obtain ⟨hsound, hcount, hnodes⟩ := domainSets_sound hlt hsets
    rw [map_nil, append_nil] at hnodes
    have hsets' : sets ≠ [] := by
      rintro rfl
      exact hne (map_eq_nil_iff.mp hnodes.symm)
    refine ⟨qualitySet_sound (fun q hq => (hsound q hq).mono (by omega)) hsets' (by omega), ?_⟩
    rw [qualitySet_nodes, hnodes]
  | case3 | case4 => cases h
  | case5 l curQuality sets it rest hsets hquality lowQ hlow ih =>
    cases h
    obtain ⟨hsound, hcount, hnodes⟩ := domainSets_sound hlt hsets
    obtain ⟨hsound', hnodes'⟩ := ih (cons_ne_nil it rest) (by omega) hlow
    have hlt' := ValidatorQuality.value_injective.ne (domainSets_left hsets)
    refine ⟨qualitySet_sound ?_ (by simp) ?_, ?_⟩
    · simp only [forall_mem_append, forall_mem_singleton]
      exact ⟨fun q hq => (hsound q hq).mono (by omega), hsound'.mono (by omega)⟩
    · simp only [length_cons, length_append, length_nil] at hcount ⊢
      omega
    · rw [qualitySet_nodes, flatMap_append, flatMap_singleton, hnodes', hnodes]

/-! ## The order of the configuration -/

/-- Both throw, or both return related values. -/
inductive Agree {α : Type} (R : α → α → Prop) : Except String α → Except String α → Prop
  | error (e e' : String) : Agree R (.error e) (.error e')
  | ok {a a' : α} (h : R a a') : Agree R (.ok a) (.ok a')

/-- A sorted validator list in which each home domain has one quality. -/
structure Ordered (l : List ValidatorEntry) : Prop where
  sorted : l.Pairwise fun a b => before b a = false
  quality : ∀ a ∈ l, ∀ b ∈ l, a.mHomeDomain = b.mHomeDomain → a.mQuality = b.mQuality

variable {l' : List ValidatorEntry}

theorem Ordered.sublist (h : Ordered l) (hl : l'.Sublist l) :
    Ordered l' :=
  ⟨h.sorted.sublist hl, fun a ha b hb => h.quality a (hl.subset ha) b (hl.subset hb)⟩

variable {a : ValidatorEntry}

theorem before_eq_false {b : ValidatorEntry} :
    before b a = false ↔ b.mQuality.value < a.mQuality.value ∨
      (a.mQuality = b.mQuality ∧ a.mHomeDomain ≤ b.mHomeDomain) := by
  rw [before, ← ValidatorQuality.value_injective.eq_iff]
  split_ifs <;> grind

/-- The sort does not tell these entries apart. -/
def sameGroup (a b : ValidatorEntry) : Bool :=
  a.mQuality = b.mQuality ∧ a.mHomeDomain = b.mHomeDomain

theorem sameGroup_iff {b : ValidatorEntry} :
    sameGroup a b = true ↔ a.mQuality = b.mQuality ∧ a.mHomeDomain = b.mHomeDomain := by
  rw [sameGroup, decide_eq_true_iff]

theorem sameGroup_congr {b : ValidatorEntry} (h : sameGroup a b = true) :
    sameGroup a = sameGroup b := by
  obtain ⟨hquality, hdomain⟩ := sameGroup_iff.mp h
  funext c
  simp only [sameGroup, hquality, hdomain]

theorem sameGroup_of_not_before {b : ValidatorEntry} (h : before b a = false)
    (h' : before a b = false) : sameGroup a b = true := by
  rw [before_eq_false] at h h'
  rw [sameGroup_iff]
  grind

@[simp] theorem sameGroup_self (a : ValidatorEntry) : sameGroup a a = true :=
  sameGroup_iff.mpr ⟨rfl, rfl⟩

theorem before_head {c : ValidatorEntry} (h : (a :: l).Pairwise fun a b => before b a = false)
    (hc : c ∈ a :: l) : before c a = false := by
  rcases mem_cons.mp hc with rfl | hc
  · exact before_eq_false.mpr (.inr ⟨rfl, le_rfl⟩)
  · exact (pairwise_cons.mp h).1 c hc

/-- On a sorted list the first loop takes the whole group. -/
theorem domainKeys_sorted (hs : (it :: l).Pairwise fun a b => before b a = false)
    (h : domainKeys it l = .ok (vals, left)) :
    vals = (l.filter (sameGroup it)).map (·.mKey) ∧ left = l.filter (!sameGroup it ·) := by
  obtain ⟨run, rfl, rfl, hrun, hleft⟩ := domainKeys_ok h
  have hnone : ∀ c ∈ left, sameGroup it c = false := by
    intro c hc
    by_contra hsame
    rw [Bool.not_eq_false, sameGroup_iff] at hsame
    cases left with
    | nil => cases hc
    | cons a left =>
      -- `a` comes between `it` and `c`
      rw [pairwise_cons, pairwise_append] at hs
      have hfirst : before a it = false := hs.1 a (by simp)
      have hlast : before it a = false := by
        rcases mem_cons.mp hc with rfl | hc
        · exact before_eq_false.mpr (.inr ⟨hsame.1.symm, hsame.2.ge⟩)
        · have hac := (pairwise_cons.mp hs.2.2.1).1 c hc
          rwa [before_eq_false, ← hsame.1, ← hsame.2, ← before_eq_false] at hac
      exact hleft a rfl (sameGroup_iff.mp (sameGroup_of_not_before hfirst hlast)).2
  have hall : ∀ a ∈ run, sameGroup it a = true := fun a ha => sameGroup_iff.mpr (hrun a ha)
  constructor
  · rw [filter_append, filter_eq_self.mpr hall,
      filter_eq_nil_iff.mpr (by simpa using hnone), append_nil]
  · rw [filter_append, filter_eq_nil_iff.mpr (by simpa using hall),
      filter_eq_self.mpr (by simpa using hnone), nil_append]

/-- Neighbours of one home domain have one quality. -/
def Compatible (a b : ValidatorEntry) : Prop :=
  a.mHomeDomain = b.mHomeDomain → a.mQuality = b.mQuality

theorem isChain_cons_congr (h : it.mQuality = a.mQuality ∧ it.mHomeDomain = a.mHomeDomain) :
    (it :: l).IsChain Compatible ↔ (a :: l).IsChain Compatible := by
  cases l with
  | nil => simp
  | cons b l => simp [Compatible, h.1, h.2]

/-- The first loop fails only on neighbours of different qualities. -/
theorem domainKeys_of_isChain (h : (it :: l).IsChain Compatible) :
    ∃ r, domainKeys it l = .ok r := by
  fun_induction domainKeys it l with
  | case1 => exact ⟨_, rfl⟩
  | case2 it2 rest hdomain hquality =>
    exact absurd ((isChain_cons_cons.mp h).1 hdomain.symm).symm hquality
  | case3 it2 rest hdomain hquality e hrest ih =>
    rw [not_not] at hquality
    obtain ⟨r, hr⟩ := ih ((isChain_cons_congr ⟨hquality.symm, hdomain.symm⟩).mpr
      (isChain_cons_cons.mp h).2)
    rw [hrest] at hr
    cases hr
  | case4 => exact ⟨_, rfl⟩
  | case5 => exact ⟨_, rfl⟩

/-- Where the first loop succeeds, incompatible neighbours come later. -/
theorem isChain_of_domainKeys (h : domainKeys it l = .ok (vals, left)) :
    (it :: l).IsChain Compatible ↔ left.IsChain Compatible := by
  obtain ⟨run, rfl, -, hrun, hleft⟩ := domainKeys_ok h
  clear h
  induction run with
  | nil =>
    cases left with
    | nil => simp
    | cons a left => simp [Compatible, hleft a rfl]
  | cons b run ih =>
    obtain ⟨hb, hrun⟩ := forall_mem_cons.mp hrun
    rw [cons_append, isChain_cons_cons, ← isChain_cons_congr hb, ih hrun]
    simp [Compatible, hb.1]

theorem Ordered.isChain (h : Ordered l) : l.IsChain Compatible :=
  List.Pairwise.isChain (pairwise_iff_forall_sublist.mpr fun hab =>
    h.quality _ (hab.subset (by simp)) _ (hab.subset (by simp)))

/-- The first loop of an ordered list takes all validators of the home domain. -/
theorem domainKeys_eq (h : Ordered (it :: l)) :
    domainKeys it l = .ok ((l.filter (sameGroup it)).map (·.mKey), l.filter (!sameGroup it ·)) := by
  obtain ⟨⟨vals, left⟩, hkeys⟩ := domainKeys_of_isChain h.isChain
  obtain ⟨rfl, rfl⟩ := domainKeys_sorted h.sorted hkeys
  exact hkeys

/-- In ordered lists of the same entries the first ones are in the same place of the order. -/
theorem head_eq_of_perm {a' : ValidatorEntry} (h : Ordered (a :: l)) (h' : Ordered (a' :: l'))
    (hperm : (a :: l).Perm (a' :: l')) : sameGroup a a' = true :=
  sameGroup_of_not_before (before_head h.sorted (hperm.mem_iff.mpr mem_cons_self))
    (before_head h'.sorted (hperm.mem_iff.mp mem_cons_self))

/-- The loop over the home domains sees the same domains in any ordered list of the same
entries. -/
theorem domainSets_agree :
    ∀ {l l' : List ValidatorEntry}, Ordered l → Ordered l' → l.Perm l' →
      Agree (fun r r' => List.Forall₂ SCPQuorumSet.Rearranged r.1 r'.1 ∧ r.2.Perm r'.2 ∧
          Ordered r.2 ∧ Ordered r'.2)
        (domainSets curQuality l) (domainSets curQuality l') := by
  intro l
  induction hn : l.length using Nat.strong_induction_on generalizing l with
  | _ n ih =>
    intro l' h h' hperm
    cases l with
    | nil =>
      obtain rfl := nil_perm.mp hperm
      rw [domainSets]
      exact .ok ⟨.nil, .refl _, h, h'⟩
    | cons a l =>
      cases l' with
      | nil => cases perm_nil.mp hperm
      | cons a' l' =>
        have hsame := head_eq_of_perm h h' hperm
        have hquality := (sameGroup_iff.mp hsame).1
        by_cases hcur : a.mQuality = curQuality
        · have hkeys := domainKeys_eq h
          have hkeys' := domainKeys_eq h'
          rw [← sameGroup_congr hsame] at hkeys'
          -- both loops take all entries of the home domain, in whatever order
          have hvals := (hperm.filter (sameGroup a)).map (·.mKey)
          have hleft := hperm.filter (!sameGroup a ·)
          rw [filter_cons_of_pos (sameGroup_self a), filter_cons_of_pos hsame, map_cons,
            map_cons] at hvals
          rw [filter_cons_of_neg (by simp), filter_cons_of_neg (by simp [hsame])] at hleft
          rw [domainSets_cons hcur hkeys, domainSets_cons (hquality ▸ hcur) hkeys']
          have hrest := ih _ (by
            rw [length_cons] at hn
            have hle := length_filter_le (!sameGroup a ·) l
            omega) rfl
            (h.sublist ((filter_sublist).trans (sublist_cons_self a l)))
            (h'.sublist ((filter_sublist).trans (sublist_cons_self a' l'))) hleft
          have hset : Agree SCPQuorumSet.Rearranged
              (domainSet a (a.mKey :: (l.filter (sameGroup a)).map (·.mKey)))
              (domainSet a' (a'.mKey :: (l'.filter (sameGroup a)).map (·.mKey))) := by
            unfold domainSet computeDefaultThreshold
            rw [hvals.length_eq, hquality]
            split
            · exact .error _ _
            · exact .ok (.of_forall₂ hvals .nil)
          generalize domainSet a _ = r at hset ⊢
          generalize domainSet a' _ = r' at hset ⊢
          cases hset with
          | error e e' => exact .error e e'
          | ok hset =>
            generalize domainSets curQuality _ = s at hrest ⊢
            generalize domainSets curQuality _ = s' at hrest ⊢
            cases hrest with
            | error e e' => exact .error e e'
            | ok hrest => exact .ok ⟨.cons hset hrest.1, hrest.2⟩
        · rw [domainSets, if_neg hcur, domainSets, if_neg (hquality ▸ hcur)]
          exact .ok ⟨.nil, hperm, h, h'⟩

theorem rearranged_qualitySet {i' : List SCPQuorumSet}
    (h : List.Forall₂ SCPQuorumSet.Rearranged i i') :
    (qualitySet curQuality i).Rearranged (qualitySet curQuality i') := by
  have hnil : i = [] ↔ i' = [] := by
    rw [← length_eq_zero_iff, ← length_eq_zero_iff, h.length_eq]
  unfold qualitySet computeDefaultThreshold
  simp only [h.length_eq, hnil]
  exact .of_forall₂ (.refl _) h

/-- The quorum sets of two ordered lists of the same entries differ only in the order of the
validators. -/
theorem generateQuorumSetHelper_agree (curQuality : ValidatorQuality) (h : Ordered l)
    (h' : Ordered l') (hperm : l.Perm l') :
    Agree SCPQuorumSet.Rearranged (generateQuorumSetHelper l curQuality)
      (generateQuorumSetHelper l' curQuality) := by
  induction hv : curQuality.value using Nat.strong_induction_on generalizing l l' curQuality with
  | _ n ih =>
    have hsets : Agree _ (domainSets curQuality l) (domainSets curQuality l') :=
      domainSets_agree h h' hperm
    rw [generateQuorumSetHelper_eq, generateQuorumSetHelper_eq l']
    have hleft : ∀ {sets it rest}, domainSets curQuality l = .ok (sets, it :: rest) →
        it.mQuality ≠ curQuality := domainSets_left
    generalize domainSets curQuality l = r at hsets hleft ⊢
    generalize domainSets curQuality l' = r' at hsets ⊢
    cases hsets with
    | error e e' => exact .error e e'
    | @ok a a' hsets =>
      obtain ⟨sets, left⟩ := a
      obtain ⟨sets', left'⟩ := a'
      obtain ⟨hrearranged, hleftPerm, hordered, hordered'⟩ := hsets
      cases left with
      | nil =>
        obtain rfl := nil_perm.mp hleftPerm
        exact .ok (rearranged_qualitySet hrearranged)
      | cons it rest =>
        cases left' with
        | nil => cases perm_nil.mp hleftPerm
        | cons it' rest' =>
          obtain ⟨hquality, -⟩ := sameGroup_iff.mp (head_eq_of_perm hordered hordered' hleftPerm)
          dsimp only
          rw [← hquality]
          by_cases hlt : it.mQuality.value > curQuality.value
          · rw [if_pos hlt, if_pos hlt]
            exact .error _ _
          · rw [if_neg hlt, if_neg hlt]
            have hne := ValidatorQuality.value_injective.ne (hleft rfl)
            have hlow := ih it.mQuality.value (by omega) it.mQuality hordered hordered' hleftPerm rfl
            generalize generateQuorumSetHelper (it :: rest) _ = q at hlow ⊢
            generalize generateQuorumSetHelper (it' :: rest') _ = q' at hlow ⊢
            cases hlow with
            | error e e' => exact .error e e'
            | ok hlow =>
              refine .ok (rearranged_qualitySet ?_)
              exact rel_append hrearranged (.cons hlow .nil)

theorem StdSort.ordered
    (hquality : ∀ a ∈ l, ∀ b ∈ l, a.mHomeDomain = b.mHomeDomain → a.mQuality = b.mQuality) :
    Ordered (std.sort l) :=
  ⟨std.sorted l, fun a ha b hb =>
    hquality a ((std.perm l).mem_iff.mp ha) b ((std.perm l).mem_iff.mp hb)⟩

/-- For a list of 1 to 1000 validators with different keys in which each home domain has one
quality, the generated quorum set has exactly the listed keys and is sane, and any order of the
list gives the same outcome, however the sort places ties. -/
theorem generateQuorumSet_sane_of_any_order {validators : List ValidatorEntry}
    (hpos : 1 ≤ validators.length) (hle : validators.length ≤ 1000)
    (hkeys : (validators.map (·.mKey)).Nodup)
    (hquality : ∀ a ∈ validators, ∀ b ∈ validators,
      a.mHomeDomain = b.mHomeDomain → a.mQuality = b.mQuality) :
    (∀ q, generateQuorumSet std validators = .ok q →
      (forAllNodes q).Perm (validators.map (·.mKey)) ∧ isQuorumSetSane q true = true) ∧
    ∀ (std' : StdSort) (validators' : List ValidatorEntry), validators'.Perm validators →
      Agree (· = ·) (generateQuorumSet std validators) (generateQuorumSet std' validators') := by
  constructor
  · intro q hq
    unfold generateQuorumSet at hq
    have hlength := (std.perm validators).length_eq
    cases hres : generateQuorumSetHelper (std.sort validators) .VALIDATOR_CRITICAL_QUALITY with
    | error e => rw [hres] at hq; cases hq
    | ok res =>
      rw [hres] at hq
      cases hq
      have hne : std.sort validators ≠ [] := length_pos_iff.mp (by omega)
      obtain ⟨hsound, hnodes⟩ := generateQuorumSetHelper_sound hne (by omega) hres
      have hperm : (forAllNodes (normalizeQSet res none)).Perm
          (validators.map (·.mKey)) := by
        refine (normalizeQSet_nodes res).trans ?_
        rw [hnodes]
        exact (std.perm validators).map _
      have hcount := hperm.length_eq
      rw [length_map] at hcount
      exact ⟨hperm, isQuorumSetSane_of_sound hsound.normalize (hperm.nodup_iff.mpr hkeys)
        (by omega) (by omega)⟩
  · intro std' validators' hperm
    have hquality' : ∀ a ∈ validators', ∀ b ∈ validators',
        a.mHomeDomain = b.mHomeDomain → a.mQuality = b.mQuality := fun a ha b hb =>
      hquality a (hperm.mem_iff.mp ha) b (hperm.mem_iff.mp hb)
    have hsame : (std.sort validators).Perm (std'.sort validators') :=
      ((std.perm validators).trans hperm.symm).trans (std'.perm validators').symm
    have hagree := generateQuorumSetHelper_agree .VALIDATOR_CRITICAL_QUALITY
      (std.ordered hquality) (std'.ordered hquality') hsame
    unfold generateQuorumSet
    generalize generateQuorumSetHelper (std.sort validators) _ = r at hagree ⊢
    generalize generateQuorumSetHelper (std'.sort validators') _ = r' at hagree ⊢
    cases hagree with
    | error e e' => exact .error e e'
    | ok h => exact .ok h.normalize

/-- A sort that keeps the order of ties. -/
def stableSort : StdSort where
  sort l := l.insertionSort fun a b => before b a = false
  perm l := perm_insertionSort _ l
  sorted l := by
    have htotal : Std.Total fun a b : ValidatorEntry => before b a = false := by
      refine ⟨fun a b => ?_⟩
      rw [before_eq_false, before_eq_false]
      rw [← ValidatorQuality.value_injective.eq_iff, ← ValidatorQuality.value_injective.eq_iff]
      grind
    have htrans : IsTrans ValidatorEntry fun a b => before b a = false := by
      refine ⟨fun a b c h h' => ?_⟩
      rw [before_eq_false] at h h' ⊢
      grind
    exact pairwise_insertionSort _ l

/-! ## Home domains of mixed quality -/

/-- Too few validators of the home domain of `a` for its quality. -/
def Thin (l : List ValidatorEntry) (a : ValidatorEntry) : Prop :=
  l.countP (sameGroup a) < 3 ∧
    (a.mQuality = .VALIDATOR_HIGH_QUALITY ∨ a.mQuality = .VALIDATOR_CRITICAL_QUALITY)

/-- Neither check of the loops fails on the sorted list. -/
structure Accepted (l : List ValidatorEntry) : Prop where
  chain : l.IsChain Compatible
  large : ∀ a ∈ l, ¬ Thin l a

theorem thin_congr {b : ValidatorEntry} (h : sameGroup a b = true) : Thin l a ↔ Thin l b := by
  rw [Thin, Thin, sameGroup_congr h, (sameGroup_iff.mp h).1]

/-- Taking a group away does not change how large the others are. -/
theorem thin_filter (h : sameGroup it a = false) : Thin (l.filter (!sameGroup it ·)) a ↔ Thin l a := by
  have hcount : (l.filter (!sameGroup it ·)).countP (sameGroup a) = l.countP (sameGroup a) := by
    rw [countP_filter]
    refine countP_congr fun b _ => ?_
    rw [Bool.and_eq_true, and_iff_left_iff_imp]
    intro hab
    have heq := sameGroup_iff.mp hab
    rw [sameGroup, heq.1, heq.2] at h
    rw [sameGroup, h]
    rfl
  rw [Thin, Thin, hcount]

/-- One round of the loop over the home domains. -/
theorem accepted_cons (hs : (it :: l).Pairwise fun a b => before b a = false)
    (hkeys : domainKeys it l = .ok (vals, left)) :
    Accepted (it :: l) ↔ (∃ q, domainSet it (it.mKey :: vals) = .ok q) ∧ Accepted left := by
  have hchain := isChain_of_domainKeys hkeys
  obtain ⟨rfl, rfl⟩ := domainKeys_sorted hs hkeys
  have hset : (∃ q, domainSet it (it.mKey :: (l.filter (sameGroup it)).map (·.mKey)) = .ok q) ↔
      ¬ Thin (it :: l) it := by
    rw [Thin, countP_cons_of_pos (sameGroup_self it), countP_eq_length_filter, domainSet,
      length_cons, length_map]
    split <;> simp_all
  have hcons : (it :: l).filter (!sameGroup it ·) = l.filter (!sameGroup it ·) :=
    filter_cons_of_neg (by simp)
  rw [hset]
  constructor
  · refine fun h => ⟨h.large it mem_cons_self, hchain.mp h.chain, ?_⟩
    intro a ha
    rw [← hcons] at ha ⊢
    obtain ⟨hmem, hne⟩ := mem_filter.mp ha
    rw [thin_filter (by simpa using hne)]
    exact h.large a hmem
  · rintro ⟨hit, hleft⟩
    refine ⟨hchain.mpr hleft.chain, fun a ha => ?_⟩
    cases hsame : sameGroup it a with
    | true => rwa [← thin_congr hsame]
    | false =>
      rw [← thin_filter hsame, hcons]
      refine hleft.large a (hcons ▸ mem_filter.mpr ⟨ha, by simp [hsame]⟩)

theorem domainSets_suffix {sets : List SCPQuorumSet}
    (h : domainSets curQuality l = .ok (sets, left)) : left <:+ l := by
  fun_induction domainSets curQuality l generalizing sets left with
  | case1 =>
    cases h
    exact suffix_rfl
  | case2 | case3 | case4 => cases h
  | case5 it rest _ vals mid hkeys _ _ _ _ hsets ih =>
    cases h
    obtain ⟨run, rfl, -⟩ := domainKeys_ok hkeys
    exact (ih hsets).trans ((suffix_append run mid).trans (suffix_cons _ _))
  | case6 =>
    cases h
    exact suffix_rfl

variable (curQuality) in
/-- The loop over the home domains of a quality does its part of the checks. -/
theorem domainSets_accepted (hs : l.Pairwise fun a b => before b a = false) :
    Accepted l ↔ ∃ r, domainSets curQuality l = .ok r ∧ Accepted r.2 := by
  fun_induction domainSets curQuality l with
  | case1 => simp
  | case2 it rest _ e hkeys =>
    simp only [reduceCtorEq, false_and, exists_false, iff_false]
    intro h
    obtain ⟨r, hr⟩ := domainKeys_of_isChain h.chain
    rw [hkeys] at hr
    cases hr
  | case3 it rest _ vals mid hkeys e hset => simp [accepted_cons hs hkeys, hset]
  | case4 it rest _ vals mid hkeys q hset e hsets ih
  | case5 it rest _ vals mid hkeys q hset _ _ hsets ih =>
    obtain ⟨run, rfl, -⟩ := domainKeys_ok hkeys
    simp [accepted_cons hs hkeys, hset,
      ih (pairwise_append.mp (pairwise_cons.mp hs).2).2.1, hsets]
  | case6 => simp

variable (curQuality) in
theorem generateQuorumSetHelper_accepted (hs : l.Pairwise fun a b => before b a = false)
    (hle : ∀ a ∈ l, a.mQuality.value ≤ curQuality.value) :
    Accepted l ↔ ∃ q, generateQuorumSetHelper l curQuality = .ok q := by
  rw [domainSets_accepted curQuality hs]
  fun_induction generateQuorumSetHelper l curQuality with
  | case1 l curQuality e hsets => simp [hsets]
  | case2 l curQuality sets hsets => simpa [hsets] using Accepted.mk .nil (by simp)
  | case3 l curQuality sets it rest hsets hgt =>
    exact absurd hgt (not_lt.mpr (hle it ((domainSets_suffix hsets).subset mem_cons_self)))
  | case4 l curQuality sets it rest hsets _ e hlow ih
  | case5 l curQuality sets it rest hsets _ q hlow ih =>
    have hs' := hs.sublist (domainSets_suffix hsets).sublist
    have hle' : ∀ a ∈ it :: rest, a.mQuality.value ≤ it.mQuality.value := by
      intro a ha
      rcases before_eq_false.mp (before_head hs' ha) with h | ⟨h, -⟩
      · exact h.le
      · rw [h]
    have hnext := ih hs' hle'
    rw [← domainSets_accepted _ hs', hlow] at hnext
    simpa [hsets] using hnext

theorem generateQuorumSet_accepted :
    Accepted (std.sort validators) ↔ ∃ q, generateQuorumSet std validators = .ok q := by
  rw [generateQuorumSetHelper_accepted .VALIDATOR_CRITICAL_QUALITY (std.sorted validators)
    (fun a _ => by cases a.mQuality <;> decide), generateQuorumSet]
  split <;> simp_all

/-- The set of one home domain. -/
def domainInnerSet (l : List ValidatorEntry) (domain : String) : SCPQuorumSet :=
  let vals := (l.filter (·.mHomeDomain = domain)).map (·.mKey)
  .mk (computeDefaultThreshold vals [] .SIMPLE_MAJORITY) vals []

/-- The set holds these inner sets, those of lower qualities further down. -/
inductive Nests : List SCPQuorumSet → SCPQuorumSet → Prop
  | last (t : Uint32) (sets : List SCPQuorumSet) : Nests sets (.mk t [] sets)
  | more (t : Uint32) (sets : List SCPQuorumSet) {lower : List SCPQuorumSet} {low : SCPQuorumSet}
      (h : Nests lower low) : Nests (sets ++ lower) (.mk t [] (sets ++ [low]))

/-- The list without these home domains. -/
def without (l : List ValidatorEntry) (domains : List String) : List ValidatorEntry :=
  l.filter (·.mHomeDomain ∉ domains)

/-- The loop makes one set for each home domain. -/
theorem domainSets_domains {sets : List SCPQuorumSet} {domains : List String} (hl : Ordered l')
    (heq : l = without l' domains) (hdomains : domains.Nodup)
    (h : domainSets curQuality l = .ok (sets, left)) :
    ∃ more, sets = more.map (domainInnerSet l') ∧ left = without l' (domains ++ more) ∧
      (domains ++ more).Nodup ∧ more ⊆ l'.map (·.mHomeDomain) := by
  fun_induction domainSets curQuality l generalizing sets left domains with
  | case1 =>
    cases h
    exact ⟨[], rfl, by simpa using heq, by simpa using hdomains, by simp⟩
  | case2 | case3 | case4 => cases h
  | case5 it rest _ vals mid hkeys q hset sets' left' hsets ih =>
    cases h
    have hsub : (it :: rest).Sublist l' := heq ▸ filter_sublist
    have hit : it ∈ without l' domains := heq ▸ mem_cons_self
    have hnot : it.mHomeDomain ∉ domains := by simpa using (mem_filter.mp hit).2
    have hgroup : ∀ a ∈ it :: rest, sameGroup it a = decide (a.mHomeDomain = it.mHomeDomain) := by
      intro a ha
      refine decide_eq_decide.mpr ⟨fun h => h.2.symm, fun h => ⟨?_, h.symm⟩⟩
      exact hl.quality it (hsub.subset mem_cons_self) a (hsub.subset ha) h.symm
    obtain ⟨rfl, rfl⟩ := domainKeys_sorted (hl.sorted.sublist hsub) hkeys
    have hvals : (it :: rest).filter (sameGroup it) =
        l'.filter (·.mHomeDomain = it.mHomeDomain) := by
      rw [filter_congr hgroup, heq, without, filter_filter]
      refine filter_congr fun a _ => ?_
      by_cases h : a.mHomeDomain = it.mHomeDomain <;> simp [h, hnot]
    have hmid : (it :: rest).filter (!sameGroup it ·) =
        without l' (domains ++ [it.mHomeDomain]) := by
      rw [filter_congr fun a ha => congrArg _ (hgroup a ha), heq, without, without,
        filter_filter]
      refine filter_congr fun a _ => ?_
      simp [and_comm]
    rw [filter_cons_of_pos (sameGroup_self it)] at hvals
    rw [filter_cons_of_neg (by simp)] at hmid
    obtain ⟨more, rfl, rfl, hnodup, hmem⟩ := ih hmid
      (nodup_append_comm.mp (nodup_cons.mpr ⟨hnot, hdomains⟩)) hsets
    rw [append_assoc, singleton_append] at hnodup
    refine ⟨it.mHomeDomain :: more, ?_, by simp, hnodup, cons_subset.mpr ⟨?_, hmem⟩⟩
    · rw [domainSet_ok hset, map_cons, domainInnerSet, ← hvals, map_cons]
    · exact mem_map_of_mem (hsub.subset mem_cons_self)
  | case6 =>
    cases h
    exact ⟨[], rfl, by simpa using heq, by simpa using hdomains, by simp⟩

theorem generateQuorumSetHelper_nests {domains : List String} (hl : Ordered l')
    (heq : l = without l' domains) (hdomains : domains.Nodup)
    (h : generateQuorumSetHelper l curQuality = .ok q) :
    ∃ more, Nests (more.map (domainInnerSet l')) q ∧ (domains ++ more).Nodup ∧
      more ⊆ l'.map (·.mHomeDomain) ∧ ∀ a ∈ l', a.mHomeDomain ∈ domains ++ more := by
  fun_induction generateQuorumSetHelper l curQuality generalizing q domains with
  | case1 => cases h
  | case2 l curQuality sets hsets =>
    cases h
    obtain ⟨more, rfl, hleft, hnodup, hmem⟩ := domainSets_domains hl heq hdomains hsets
    refine ⟨more, .last _ _, hnodup, hmem, fun a ha => ?_⟩
    simpa [or_iff_not_imp_left] using filter_eq_nil_iff.mp hleft.symm a ha
  | case3 | case4 => cases h
  | case5 l curQuality sets it rest hsets _ lowQ hlow ih =>
    cases h
    obtain ⟨more, rfl, hleft, hnodup, hmem⟩ := domainSets_domains hl heq hdomains hsets
    obtain ⟨more', hnests, hnodup', hmem', hall⟩ := ih hleft hnodup hlow
    rw [append_assoc] at hnodup' hall
    refine ⟨more ++ more', ?_, hnodup', append_subset.mpr ⟨hmem, hmem'⟩, hall⟩
    rw [map_append]
    exact .more _ _ hnests

/-- Some home domain has validators of two qualities. -/
def Mixed : Prop :=
  ∃ a ∈ validators, ∃ b ∈ validators, a.mHomeDomain = b.mHomeDomain ∧ a.mQuality ≠ b.mQuality

/-- Each home domain forms exactly one inner set, before the set is normalized. -/
def OneSetEach (q : SCPQuorumSet) : Prop :=
  ∃ (domains : List String) (res : SCPQuorumSet), domains.Nodup ∧
    (∀ d, d ∈ domains ↔ d ∈ validators.map (·.mHomeDomain)) ∧
    Nests (domains.map (domainInnerSet (std.sort validators))) res ∧ q = normalizeQSet res none

theorem oneSetEach_of_not_mixed {std : StdSort} {validators : List ValidatorEntry}
    (hmixed : ¬ Mixed validators) (h : generateQuorumSet std validators = .ok q) :
    OneSetEach std validators q := by
  have hl : Ordered (std.sort validators) := std.ordered fun a ha b hb hdomain => by
    by_contra hquality
    exact hmixed ⟨a, ha, b, hb, hdomain, hquality⟩
  unfold generateQuorumSet at h
  split at h
  · cases h
  · next res hres =>
    cases h
    obtain ⟨domains, hnests, hnodup, hmem, hall⟩ := generateQuorumSetHelper_nests hl
      (by simp [without]) nodup_nil hres
    refine ⟨domains, res, hnodup, fun d => ⟨fun hd => ?_, fun hd => ?_⟩, hnests, rfl⟩
    · exact ((std.perm validators).map _).mem_iff.mp (hmem hd)
    · obtain ⟨a, ha, rfl⟩ := mem_map.mp hd
      exact hall a ((std.perm validators).mem_iff.mpr ha)

/-- Mixed home domains are refused, and each home domain forms one inner set, exactly if the
checks of the sorted list see what is mixed: its qualities meet in neighbours of the order by
quality and home domain, or a home domain is refused for its size. -/
theorem mixed_refused_iff : ((Mixed validators → ∃ e, generateQuorumSet std validators = .error e) ∧
      ∀ q, generateQuorumSet std validators = .ok q → OneSetEach std validators q) ↔
    (Mixed validators → ¬ Accepted (std.sort validators)) := by
  rw [generateQuorumSet_accepted]
  cases h : generateQuorumSet std validators with
  | error e => simp
  | ok q => simpa using fun hmixed => oneSetEach_of_not_mixed hmixed h

/-- The validators of `b.com` have two qualities, and those of `a.com` come between them. -/
def mixedValidators : List ValidatorEntry :=
  [⟨"a", "b.com", .VALIDATOR_MED_QUALITY, 1⟩, ⟨"b", "a.com", .VALIDATOR_LOW_QUALITY, 2⟩,
    ⟨"c", "b.com", .VALIDATOR_LOW_QUALITY, 3⟩]

theorem mixedValidators_returns :
    Mixed mixedValidators ∧ ∃ q, generateQuorumSet stableSort mixedValidators = .ok q := by
  constructor
  · exact ⟨_, mem_cons_self, _, mem_cons_of_mem _ (mem_cons_of_mem _
      mem_cons_self), rfl, by decide⟩
  · rw [← generateQuorumSet_accepted]
    have hsort : stableSort.sort mixedValidators = mixedValidators := by decide +kernel
    rw [hsort, mixedValidators]
    exact ⟨by simp [Compatible], by simp [Thin]⟩

/-- Three validators of one home domain. -/
def threeValidators : List ValidatorEntry :=
  [⟨"a", "example.com", .VALIDATOR_HIGH_QUALITY, 1⟩,
    ⟨"b", "example.com", .VALIDATOR_HIGH_QUALITY, 2⟩,
    ⟨"c", "example.com", .VALIDATOR_HIGH_QUALITY, 3⟩]

theorem generateQuorumSet_threeValidators :
    generateQuorumSet stableSort threeValidators = .ok (.mk 2 [1, 2, 3] []) := by
  have hsort : stableSort.sort threeValidators = threeValidators := by decide +kernel
  have hkeys : domainKeys ⟨"a", "example.com", .VALIDATOR_HIGH_QUALITY, 1⟩
      [⟨"b", "example.com", .VALIDATOR_HIGH_QUALITY, 2⟩,
        ⟨"c", "example.com", .VALIDATOR_HIGH_QUALITY, 3⟩] = .ok ([2, 3], []) := by decide +kernel
  have hhigh : domainSets .VALIDATOR_HIGH_QUALITY threeValidators =
      .ok ([.mk 2 [1, 2, 3] []], []) := by
    rw [threeValidators, domainSets_cons rfl hkeys, domainSets]
    rfl
  have hcritical : domainSets .VALIDATOR_CRITICAL_QUALITY threeValidators =
      .ok ([], threeValidators) := by
    rw [threeValidators, domainSets, if_neg (by decide)]
  have hset : generateQuorumSetHelper threeValidators .VALIDATOR_HIGH_QUALITY =
      .ok (.mk 1 [] [.mk 2 [1, 2, 3] []]) := by
    rw [generateQuorumSetHelper_eq, hhigh]
    rfl
  rw [generateQuorumSet, hsort, generateQuorumSetHelper_eq, hcritical]
  rw [threeValidators] at hset ⊢
  simp only [hset]
  rfl

/-- The theorem at these three validators and another order of them. -/
theorem threeValidators_sane :
    isQuorumSetSane (.mk 2 [1, 2, 3] []) true = true ∧
    Agree (· = ·) (generateQuorumSet stableSort threeValidators)
      (generateQuorumSet stableSort threeValidators.reverse) := by
  have h := @generateQuorumSet_sane_of_any_order stableSort threeValidators (by decide)
    (by decide) (by decide +kernel) (by decide +kernel)
  exact ⟨(h.1 _ generateQuorumSet_threeValidators).2,
    h.2 stableSort _ (reverse_perm threeValidators)⟩

end Config

end DigitalBits.Main
