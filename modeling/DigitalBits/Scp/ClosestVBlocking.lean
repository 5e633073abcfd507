import DigitalBits.Lib.SmallestFirst
import DigitalBits.Scp.QuorumDuality

/-!
# The smallest set of nodes that would block

`findClosestVBlocking` counts the entries of a quorum set that are blocked already, takes
validators for what is missing and then the answers of the inner sets, the smallest first.
No node occurs twice in a sane set, so the answers of different entries do not overlap and
their sizes add up: the greedy choice is a minimum.
-/
namespace DigitalBits.Scp
open Lib List
namespace LocalNode

/-- The loop over the validators; nothing if it finds that the set is blocked. -/
def closestValidators (nodes : List NodeID) (excluded : Option NodeID) :
    Uint64 → List NodeID → List NodeID → Option (Uint64 × List NodeID)
  | leftTillBlock, res, [] => some (leftTillBlock, res)
  | leftTillBlock, res, validator :: rest =>
    if excluded = some validator then closestValidators nodes excluded leftTillBlock res rest
    else if nodes.contains validator then
      closestValidators nodes excluded leftTillBlock (res ++ [validator]) rest
    else if leftTillBlock - 1 = 0 then none
    else closestValidators nodes excluded (leftTillBlock - 1) res rest

/-- The loop that uses the answers of the inner sets. -/
def useInternals : Uint64 → List NodeID → List (List NodeID) → List NodeID
  | _, res, [] => res
  | leftTillBlock, res, v :: rest =>
    if leftTillBlock ≠ 0 then useInternals (leftTillBlock - 1) (res ++ v) rest else res

mutual

/-- `LocalNode::findClosestVBlocking` on a set of nodes. `leftTillBlock` is a `size_t`. -/
def findClosestVBlocking (nodes : List NodeID) (excluded : Option NodeID) :
    SCPQuorumSet → List NodeID
  | .mk threshold validators innerSets =>
    let leftTillBlock := Fin.ofNat (2 ^ 64) (1 + validators.length + innerSets.length) -
      Fin.ofNat (2 ^ 64) threshold.val
    match closestValidators nodes excluded leftTillBlock [] validators with
    | none => []
    | some (leftTillBlock, res) =>
      match closestInnerSets nodes excluded leftTillBlock [] innerSets with
      | none => []
      | some (leftTillBlock, resInternals) =>
        let res := if res.length > leftTillBlock.val then res.take leftTillBlock.val else res
        useInternals (leftTillBlock - Fin.ofNat (2 ^ 64) res.length) res resInternals

/-- The loop over the inner sets; nothing if it finds that the set is blocked. -/
def closestInnerSets (nodes : List NodeID) (excluded : Option NodeID) :
    Uint64 → List (List NodeID) → List SCPQuorumSet → Option (Uint64 × List (List NodeID))
  | leftTillBlock, resInternals, [] => some (leftTillBlock, resInternals)
  | leftTillBlock, resInternals, inner :: rest =>
    let v := findClosestVBlocking nodes excluded inner
    if v.length = 0 then
      if leftTillBlock - 1 = 0 then none
      else closestInnerSets nodes excluded (leftTillBlock - 1) resInternals rest
    else closestInnerSets nodes excluded leftTillBlock (emplace length v resInternals) rest

end

/-! ## What the loops compute -/

section Loops
variable (nodes : List NodeID)

theorem uint64_sub_one_val {n : Uint64} (h : 1 ≤ n.val) : (n - 1).val = n.val - 1 :=
  Fin.sub_val_of_le (Fin.le_def.mpr h)

/-- The number of validators that are blocked already. -/
def blockedValidators (v : List NodeID) : ℕ := v.countP fun n => !nodes.contains n

/-- The validators that are not. -/
def saved (v : List NodeID) : List NodeID := v.filter fun n => nodes.contains n

/-- The answer for an inner set. -/
abbrev answer (q : SCPQuorumSet) : List NodeID := findClosestVBlocking nodes none q

/-- The answers that are not empty. -/
def openAnswers (i : List SCPQuorumSet) : List (List NodeID) :=
  (i.map (answer nodes)).filter fun r => decide (r.length ≠ 0)

/-- The number of inner sets that are blocked already. -/
def blockedInnerSets (i : List SCPQuorumSet) : ℕ :=
  i.countP fun q => decide ((answer nodes q).length = 0)

variable {α : Type} {left : Uint64} {n : ℕ} {result : Option (Uint64 × α)} {P : α → Prop}

/-- A loop that counts down by `n` gives up where it would come to zero. -/
def CountsDown (left : Uint64) (n : ℕ) (result : Option (Uint64 × α)) (P : α → Prop) : Prop :=
  (left.val ≤ n → result = none) ∧
    (n < left.val → ∃ left' a, left'.val = left.val - n ∧ result = some (left', a) ∧ P a)

theorem countsDown_zero (hleft : 1 ≤ left.val) {a : α} (h : P a) :
    CountsDown left 0 (some (left, a)) P :=
  ⟨fun h => absurd h (by omega), fun _ => ⟨left, a, rfl, rfl, h⟩⟩

theorem countsDown_succ (hleft : 1 ≤ left.val)
    (h : 1 ≤ (left - 1).val → CountsDown (left - 1) n result P) :
    CountsDown left (n + 1) (if left - 1 = 0 then none else result) P := by
  have hsub := uint64_sub_one_val hleft
  by_cases hzero : left - 1 = 0
  · have hval : (left - 1).val = 0 := by rw [hzero]; rfl
    rw [if_pos hzero]
    exact ⟨fun _ => rfl, fun h => absurd h (by omega)⟩
  · have hval : (left - 1).val ≠ 0 := fun h => hzero (Fin.ext h)
    obtain ⟨hblocked, hopen⟩ := h (by omega)
    rw [if_neg hzero]
    refine ⟨fun h => hblocked (by omega), fun h => ?_⟩
    obtain ⟨left', a, hleft', heq⟩ := hopen (by omega)
    exact ⟨left', a, by rw [hleft', hsub, Nat.sub_sub, Nat.add_comm 1], heq⟩

/-- The validators outside of the nodes count down, the others are saved. -/
theorem closestValidators_spec (left : Uint64) (res v : List NodeID) (hleft : 1 ≤ left.val) :
    CountsDown left (blockedValidators nodes v) (closestValidators nodes none left res v)
      (· = res ++ saved nodes v) := by
  induction v generalizing left res with
  | nil => exact countsDown_zero hleft (by simp [saved])
  | cons n v ih =>
    rw [closestValidators, if_neg (Option.some_ne_none n).symm, blockedValidators, saved]
    cases hn : nodes.contains n with
    | true =>
      rw [countP_cons_of_neg (by rw [hn]; decide), filter_cons_of_pos hn, if_pos rfl]
      have hrest := ih left (res ++ [n]) hleft
      rwa [append_assoc, singleton_append] at hrest
    | false =>
      rw [countP_cons_of_pos (by rw [hn]; decide),
        filter_cons_of_neg (by rw [hn]; decide), if_neg Bool.false_ne_true]
      exact countsDown_succ hleft (ih (left - 1) res)

theorem openAnswers_cons (q : SCPQuorumSet) (i : List SCPQuorumSet) :
    openAnswers nodes (q :: i) = if (answer nodes q).length = 0 then openAnswers nodes i
      else answer nodes q :: openAnswers nodes i := by
  rw [openAnswers, map_cons, filter_cons]
  by_cases hq : (answer nodes q).length = 0
  · rw [if_neg (by rw [hq]; decide), if_pos hq, openAnswers]
  · rw [if_pos (decide_eq_true hq), if_neg hq, openAnswers]

theorem closestInnerSets_spec (left : Uint64) (res : List (List NodeID)) (i : List SCPQuorumSet)
    (hleft : 1 ≤ left.val) (hres : BySize length res) :
    CountsDown left (blockedInnerSets nodes i) (closestInnerSets nodes none left res i)
      fun out => BySize length out ∧ out.Perm (res ++ openAnswers nodes i) := by
  induction i generalizing left res with
  | nil =>
    exact countsDown_zero hleft ⟨hres, by simp [openAnswers]⟩
  | cons q i ih =>
    rw [closestInnerSets, blockedInnerSets, openAnswers_cons]
    by_cases hq : (answer nodes q).length = 0
    · rw [countP_cons_of_pos (by exact decide_eq_true hq), if_pos hq, if_pos hq]
      exact countsDown_succ hleft fun h => ih (left - 1) res h hres
    · rw [countP_cons_of_neg (by exact fun h => hq (of_decide_eq_true h)), if_neg hq, if_neg hq]
      have hperm : (emplace length (answer nodes q) res ++ openAnswers nodes i).Perm
          (res ++ answer nodes q :: openAnswers nodes i) :=
        ((emplace_perm _ _ _).append_right _).trans perm_middle.symm
      obtain ⟨hblocked, hsome⟩ :=
        ih left (emplace length (answer nodes q) res) hleft (hres.emplace _)
      refine ⟨hblocked, fun h => ?_⟩
      obtain ⟨left', out, hleft', heq, hout, hout'⟩ := hsome h
      exact ⟨left', out, hleft', heq, hout, hout'.trans hperm⟩

theorem useInternals_eq (left : Uint64) (res : List NodeID) (l : List (List NodeID)) :
    useInternals left res l = res ++ (l.take left.val).flatten := by
  induction l generalizing left res with
  | nil => simp [useInternals]
  | cons v l ih =>
    rw [useInternals]
    by_cases hleft : left = 0
    · rw [if_neg (not_not.mpr hleft), hleft]
      simp
    · have hpos : 1 ≤ left.val := Nat.pos_of_ne_zero fun h => hleft (Fin.ext h)
      obtain ⟨k, hk⟩ : ∃ k, left.val = k + 1 := ⟨left.val - 1, by omega⟩
      rw [if_pos hleft, ih, uint64_sub_one_val hpos, hk, take_succ_cons, flatten_cons,
        append_assoc, Nat.add_sub_cancel]

/-- The whole function on a well formed set: nothing if it is blocked, otherwise validators, and
the smallest of the answers if there are too few of them. -/
theorem answer_cases {t : Uint32} {v : List NodeID} {i : List SCPQuorumSet}
    (hwf : SCPQuorumSet.WellFormed (.mk t v i)) :
    (1 + (v.length + i.length) ≤ t.val + (blockedValidators nodes v + blockedInnerSets nodes i) →
      answer nodes (.mk t v i) = []) ∧
    (∀ left, t.val + (blockedValidators nodes v + blockedInnerSets nodes i) + left =
        1 + (v.length + i.length) → 1 ≤ left →
      ∃ out, BySize length out ∧ out.Perm (openAnswers nodes i) ∧
        answer nodes (.mk t v i) = (saved nodes v).take left ++
          (out.take (left - (saved nodes v).length)).flatten) := by
  cases hwf with
  | mk hpos hle hlt hi =>
    have hneed : (Fin.ofNat (2 ^ 64) (1 + v.length + i.length) -
        Fin.ofNat (2 ^ 64) t.val : Uint64).val = 1 + v.length + i.length - t.val := by
      have ht : (Fin.ofNat (2 ^ 64) t.val).val = t.val := Nat.mod_eq_of_lt (by omega)
      have hentries : (Fin.ofNat (2 ^ 64) (1 + v.length + i.length)).val =
          1 + v.length + i.length := Nat.mod_eq_of_lt (by omega)
      rw [Fin.sub_val_of_le (Fin.le_def.mpr (by rw [ht, hentries]; omega)), ht, hentries]
    obtain ⟨hfew, hmany⟩ := closestValidators_spec nodes
      (Fin.ofNat (2 ^ 64) (1 + v.length + i.length) - Fin.ofNat (2 ^ 64) t.val) [] v (by omega)
    rw [answer, findClosestVBlocking]
    by_cases hv : 1 + v.length + i.length - t.val ≤ blockedValidators nodes v
    · rw [hfew (by omega)]
      exact ⟨fun _ => rfl, fun left hleft hone => by omega⟩
    · obtain ⟨left₁, res, hleft₁, heq₁, rfl⟩ := hmany (by omega)
      clear hfew hmany
      obtain ⟨hfew, hmany⟩ := closestInnerSets_spec nodes left₁ [] i (by omega) .nil
      rw [heq₁]
      dsimp only
      by_cases hin : left₁.val ≤ blockedInnerSets nodes i
      · rw [hfew hin]
        exact ⟨fun _ => rfl, fun left hleft hone => by omega⟩
      · obtain ⟨left₂, out, hleft₂, heq₂, hsorted, hperm⟩ := hmany (not_le.mp hin)
        clear hfew hmany
        refine ⟨fun hblocked => by omega, fun left hleft hone => ⟨out, hsorted, hperm, ?_⟩⟩
        obtain rfl : left₂.val = left := by omega
        rw [heq₂, nil_append]
        dsimp only
        generalize saved nodes v = res at *
        by_cases hmany : res.length > left₂.val
        · have hval : (left₂ - Fin.ofNat (2 ^ 64) (res.take left₂.val).length).val = 0 := by
            rw [length_take, Nat.min_eq_left hmany.le, Fin.ofNat_val_eq_self, sub_self]
            rfl
          rw [if_pos hmany, useInternals_eq, hval, Nat.sub_eq_zero_of_le hmany.le]
        · have hlength : (Fin.ofNat (2 ^ 64) res.length).val = res.length :=
            Nat.mod_eq_of_lt (by omega)
          have hval : (left₂ - Fin.ofNat (2 ^ 64) res.length).val = left₂.val - res.length := by
            rw [Fin.sub_val_of_le (Fin.le_def.mpr (by rw [hlength]; omega)), hlength]
          have htake : res.take left₂.val = res := take_of_length_le (not_lt.mp hmany)
          rw [if_neg hmany, useInternals_eq, hval, htake]

end Loops

/-! ## What the answer is -/

section Closest
variable {nodes : List NodeID}

/-- An answer: some nodes of the set, all of them in `nodes`, that block together with the nodes
outside; and no set blocks with fewer of `nodes` than that. -/
structure Closest (nodes : List NodeID) (q : SCPQuorumSet) (res : List NodeID) : Prop where
  subperm : res.Subperm (forAllNodes q)
  subset : ∀ n ∈ res, n ∈ nodes
  blocks : ∀ s, (∀ n ∈ forAllNodes q, n ∉ nodes → n ∈ s) → (∀ n ∈ res, n ∈ s) →
    isVBlockingInternal s q = true
  least : ∀ s, isVBlockingInternal s q = true →
    res.length ≤ (forAllNodes q).countP fun n => decide (n ∈ nodes ∧ n ∈ s)

private theorem countP_le_add {α : Type} {p a b : α → Bool} {l : List α}
    (h : ∀ x ∈ l, p x = true → a x = true ∨ b x = true) : l.countP p ≤ l.countP a + l.countP b := by
  induction l with
  | nil => exact Nat.zero_le _
  | cons x l ih =>
    grind

theorem openAnswers_eq (i : List SCPQuorumSet) :
    openAnswers nodes i =
      (i.filter fun q => decide ((answer nodes q).length ≠ 0)).map (answer nodes) :=
  filter_map

theorem length_openAnswers (i : List SCPQuorumSet) :
    blockedInnerSets nodes i + (openAnswers nodes i).length = i.length := by
  rw [openAnswers_eq, length_map, ← countP_eq_length_filter, blockedInnerSets,
    length_eq_countP_add_countP (fun q => decide ((answer nodes q).length = 0))]
  simp

variable {i : List SCPQuorumSet}

theorem openAnswers_subperm (h : ∀ q ∈ i, (answer nodes q).Subperm (forAllNodes q)) :
    (openAnswers nodes i).flatten.Subperm (forAllInnerNodes i) := by
  induction i with
  | nil => exact nil_subperm
  | cons q i ih =>
    have hrest := ih fun r hr => h r (mem_cons_of_mem _ hr)
    rw [forAllInnerNodes, openAnswers_cons]
    split_ifs
    · exact hrest.trans (sublist_append_right _ _).subperm
    · exact (h q mem_cons_self).append hrest

variable {s : List NodeID}

/-- The answers of the inner sets that `s` blocks cost no more nodes than `s` has in them. -/
theorem sum_blocked_le (h : ∀ q ∈ i, isVBlockingInternal s q = true →
      (answer nodes q).length ≤ (forAllNodes q).countP fun n => decide (n ∈ nodes ∧ n ∈ s)) :
    (((i.filter fun q => decide ((answer nodes q).length ≠ 0)).filter
      (isVBlockingInternal s)).map fun q => (answer nodes q).length).sum ≤
      (forAllInnerNodes i).countP fun n => decide (n ∈ nodes ∧ n ∈ s) := by
  induction i with
  | nil => exact le_rfl
  | cons q i ih =>
    have hrest := ih fun r hr => h r (mem_cons_of_mem _ hr)
    have hq := h q mem_cons_self
    rw [forAllInnerNodes, countP_append, filter_cons]
    split_ifs
    · by_cases hblocks : isVBlockingInternal s q = true
      · have hle := hq hblocks
        rw [filter_cons_of_pos hblocks, map_cons, sum_cons]
        omega
      · rw [filter_cons_of_neg hblocks]
        omega
    · omega

/-- The validators that are blocked and those that are taken. -/
theorem blockedValidators_add_le {v : List NodeID} (hout : ∀ n ∈ v, n ∉ nodes → n ∈ s) {k : ℕ}
    (htaken : ∀ n ∈ (saved nodes v).take k, n ∈ s) :
    blockedValidators nodes v + ((saved nodes v).take k).length ≤
      v.countP fun n => decide (n ∈ s) := by
  have hblocked : (v.filter fun n => !nodes.contains n).countP (fun n => decide (n ∈ s)) =
      blockedValidators nodes v := by
    rw [blockedValidators, countP_eq_length_filter (l := v)]
    refine countP_eq_length.mpr fun n hn => ?_
    obtain ⟨hv, hnot⟩ := mem_filter.mp hn
    exact decide_eq_true (hout n hv (by simpa using hnot))
  have htake : ((saved nodes v).take k).countP (fun n => decide (n ∈ s)) =
      ((saved nodes v).take k).length :=
    countP_eq_length.mpr fun n hn => decide_eq_true (htaken n hn)
  have hle := (take_sublist k (saved nodes v)).countP_le
    (p := fun n => decide (n ∈ s))
  have hsplit : _ = (saved nodes v).countP _ + _ := countP_eq_countP_filter_add v
    (fun n => decide (n ∈ s)) fun n => nodes.contains n
  omega

/-- The inner sets that are blocked and those whose answers are taken. -/
theorem blockedInnerSets_add_le (h : ∀ q ∈ i, Closest nodes q (answer nodes q))
    (hout : ∀ n ∈ forAllInnerNodes i, n ∉ nodes → n ∈ s) {taken : List (List NodeID)}
    (hsub : taken.Subperm (openAnswers nodes i)) (htaken : ∀ r ∈ taken, ∀ n ∈ r, n ∈ s) :
    blockedInnerSets nodes i + taken.length ≤ i.countP (isVBlockingInternal s) := by
  have hblocks : ∀ q ∈ i, (∀ n ∈ answer nodes q, n ∈ s) → isVBlockingInternal s q = true := by
    intro q hq hanswer
    refine (h q hq).blocks s (fun n hn hnot => hout n ?_ hnot) hanswer
    rw [forAllInnerNodes_eq]
    exact mem_flatMap.mpr ⟨q, hq, hn⟩
  have hblocked : (i.filter fun q => decide ((answer nodes q).length = 0)).countP
      (isVBlockingInternal s) = blockedInnerSets nodes i := by
    rw [blockedInnerSets, countP_eq_length_filter (l := i)]
    refine countP_eq_length.mpr fun q hq => ?_
    obtain ⟨hmem, hempty⟩ := mem_filter.mp hq
    refine hblocks q hmem fun n hn => ?_
    rw [length_eq_zero_iff.mp (of_decide_eq_true hempty)] at hn
    exact absurd hn not_mem_nil
  have htake : taken.countP (fun r => r.all s.contains) = taken.length :=
    countP_eq_length.mpr fun r hr => by simpa using htaken r hr
  have hopen : (openAnswers nodes i).countP (fun r => r.all s.contains) ≤
      (i.filter fun q => decide ((answer nodes q).length ≠ 0)).countP (isVBlockingInternal s) := by
    rw [openAnswers_eq, countP_map]
    refine countP_mono_left fun q hq hanswer => ?_
    exact hblocks q (mem_of_mem_filter hq) (by simpa using hanswer)
  have hle := hsub.countP_le fun r => r.all s.contains
  have hsplit := countP_eq_countP_filter_add i (isVBlockingInternal s)
    fun q => decide ((answer nodes q).length = 0)
  have hnot : (i.filter fun q => !decide ((answer nodes q).length = 0)) =
      i.filter fun q => decide ((answer nodes q).length ≠ 0) :=
    filter_congr fun q _ => by simp
  rw [hnot] at hsplit
  omega

/-- Whatever blocks `left` more entries has at least as many of the nodes as the greedy choice. -/
theorem greedy_le {v : List NodeID} {left : ℕ} {out : List (List NodeID)}
    (hsorted : BySize length out) (hperm : out.Perm (openAnswers nodes i))
    (hleast : ∀ q ∈ i, isVBlockingInternal s q = true →
      (answer nodes q).length ≤ (forAllNodes q).countP fun n => decide (n ∈ nodes ∧ n ∈ s))
    (hleft : blockedValidators nodes v + blockedInnerSets nodes i + left ≤
      v.countP (fun n => decide (n ∈ s)) + i.countP (isVBlockingInternal s)) :
    ((saved nodes v).take left).length +
        (out.take (left - (saved nodes v).length)).flatten.length ≤
      v.countP (fun n => decide (n ∈ nodes ∧ n ∈ s)) +
        (forAllInnerNodes i).countP fun n => decide (n ∈ nodes ∧ n ∈ s) := by
  -- the answers of the inner sets that are blocked, besides those that were before
  let chosen := (i.filter fun q => decide ((answer nodes q).length ≠ 0)).filter
    (isVBlockingInternal s)
  have hchosen : (chosen.map (answer nodes)).Subperm out := by
    refine List.Subperm.trans (List.Sublist.subperm ?_) hperm.symm.subperm
    rw [openAnswers_eq]
    exact filter_sublist.map _
  have hcost : ((out.take chosen.length).map length).sum ≤
      (forAllInnerNodes i).countP fun n => decide (n ∈ nodes ∧ n ∈ s) := by
    have hsum := hsorted.sum_take_le hchosen
    rw [length_map, map_map] at hsum
    exact hsum.trans (sum_blocked_le hleast)
  have hv : v.countP (fun n => decide (n ∈ s)) ≤ blockedValidators nodes v +
      v.countP fun n => decide (n ∈ nodes ∧ n ∈ s) := by
    refine countP_le_add fun n _ hn => ?_
    by_cases hnodes : n ∈ nodes
    · exact .inr (decide_eq_true ⟨hnodes, of_decide_eq_true hn⟩)
    · exact .inl (by simpa using hnodes)
  have hi : i.countP (isVBlockingInternal s) ≤ blockedInnerSets nodes i + chosen.length := by
    rw [← countP_eq_length_filter, countP_filter]
    refine countP_le_add fun q _ hq => ?_
    by_cases hempty : (answer nodes q).length = 0
    · exact .inl (decide_eq_true hempty)
    · exact .inr (by simp only [hq, Bool.true_and]; exact decide_eq_true hempty)
  have hgood : v.countP (fun n => decide (n ∈ nodes ∧ n ∈ s)) ≤ (saved nodes v).length := by
    rw [saved, ← countP_eq_length_filter]
    refine countP_mono_left fun n _ hn => ?_
    simpa using (of_decide_eq_true hn).1
  have hlength : chosen.length ≤ out.length := by
    have hle := hchosen.length_le
    rwa [length_map] at hle
  have hpos : ∀ r ∈ out, 1 ≤ r.length := by
    intro r hr
    have hmem := (mem_filter.mp (hperm.mem_iff.mp hr)).2
    exact Nat.pos_of_ne_zero (of_decide_eq_true hmem)
  rw [length_flatten, length_take]
  generalize (saved nodes v).length = good at *
  by_cases henough : left ≤ good
  · have hone := sum_take_add_le hpos (k := 0) (n := chosen.length) (by omega)
    rw [Nat.sub_eq_zero_of_le henough, Nat.min_eq_left henough]
    simp only [Nat.zero_add, take_zero, map_nil, sum_nil] at hone ⊢
    omega
  · have hmore := sum_take_add_le hpos (k := left - good) (n := chosen.length - (left - good))
      (by omega)
    rw [Nat.add_sub_cancel' (by omega)] at hmore
    omega

theorem closest_answer {q : SCPQuorumSet} (hwf : q.WellFormed) :
    Closest nodes q (answer nodes q) := by
  induction q using SCPQuorumSet.induction with
  | mk t v i ih =>
    have hinner : ∀ q ∈ i, Closest nodes q (answer nodes q) := by
      cases hwf with
      | mk _ _ _ hi => exact fun q hq => ih q hq (hi q hq)
    obtain ⟨hblocked, hopen⟩ := answer_cases nodes hwf
    by_cases hle : 1 + (v.length + i.length) ≤
        t.val + (blockedValidators nodes v + blockedInnerSets nodes i)
    · rw [hblocked hle]
      refine ⟨nil_subperm, fun n hn => absurd hn not_mem_nil, fun s hout _ => ?_,
        fun s _ => Nat.zero_le _⟩
      have hv : blockedValidators nodes v + _ ≤ _ := blockedValidators_add_le (k := 0)
        (fun n hn => hout n (mem_append_left _ hn)) (by simp)
      have hi : blockedInnerSets nodes i + ([] : List (List NodeID)).length ≤ _ :=
        blockedInnerSets_add_le hinner (fun n hn => hout n (mem_append_right _ hn))
          nil_subperm (by simp)
      rw [isVBlockingInternal_iff hwf]
      omega
    · obtain ⟨left, hleft⟩ : ∃ left,
          t.val + (blockedValidators nodes v + blockedInnerSets nodes i) + left =
            1 + (v.length + i.length) := ⟨_, Nat.add_sub_cancel' (not_le.mp hle).le⟩
      obtain ⟨out, hsorted, hperm, heq⟩ := hopen left hleft (by omega)
      have htaken : (out.take (left - (saved nodes v).length)).Subperm
          (openAnswers nodes i) := (take_sublist _ _).subperm.trans hperm.subperm
      rw [heq]
      refine ⟨?_, ?_, ?_, ?_⟩
      · rw [forAllNodes]
        refine ((take_sublist _ _).trans filter_sublist).subperm.append ?_
        exact ((take_sublist _ _).flatten.subperm.trans hperm.flatten.subperm).trans
          (openAnswers_subperm fun q hq => (hinner q hq).subperm)
      · intro n hn
        rcases mem_append.mp hn with hn | hn
        · have hmem := (mem_filter.mp (mem_of_mem_take hn)).2
          simpa using hmem
        · obtain ⟨r, hr, hn⟩ := mem_flatten.mp hn
          rw [openAnswers_eq] at htaken
          obtain ⟨q, hq, rfl⟩ := mem_map.mp (htaken.subset hr)
          exact (hinner q (mem_of_mem_filter hq)).subset n hn
      · intro s hout hres
        have hv : blockedValidators nodes v + _ ≤ _ := blockedValidators_add_le (k := left)
          (fun n hn => hout n (mem_append_left _ hn))
          fun n hn => hres n (mem_append_left _ hn)
        have hi := blockedInnerSets_add_le hinner
          (fun n hn => hout n (mem_append_right _ hn)) htaken
          fun r hr n hn => hres n (mem_append_right _ (mem_flatten.mpr ⟨r, hr, hn⟩))
        have hlength : blockedInnerSets nodes i + _ = _ := length_openAnswers i
        have hgood : blockedValidators nodes v + (saved nodes v).length = v.length := by
          rw [blockedValidators, saved, ← countP_eq_length_filter,
            length_eq_countP_add_countP fun n => nodes.contains n, Nat.add_comm]
          simp
        have hout' := hperm.length_eq
        have hpos := hwf.threshold_bounds.1
        rw [isVBlockingInternal_iff hwf]
        rw [length_take] at hv hi
        change 1 ≤ t.val at hpos
        generalize (saved nodes v).length = good at *
        omega
      · intro s hs
        rw [isVBlockingInternal_iff hwf] at hs
        rw [forAllNodes, countP_append, length_append]
        exact greedy_le hsorted hperm (fun q hq => (hinner q hq).least s) (by omega)

/-- On a sane set the answer is a smallest set of nodes that blocks with the nodes outside. -/
theorem findClosestVBlocking_minimum (q : SCPQuorumSet) (hq : isQuorumSetSane q false = true)
    (good : List NodeID) :
    (findClosestVBlocking good none q).Nodup ∧
    (∀ n ∈ findClosestVBlocking good none q, n ∈ good) ∧
    isVBlockingSet q (nodesOutside q good ++ findClosestVBlocking good none q) = true ∧
    (∀ b : List NodeID, (∀ n ∈ b, n ∈ good) → isVBlockingSet q (nodesOutside q good ++ b) = true →
      (findClosestVBlocking good none q).length ≤ b.length) ∧
    (findClosestVBlocking good none q = [] ↔ isVBlockingSet q (nodesOutside q good) = true) := by
  have hclosest : Closest good q (findClosestVBlocking good none q) :=
    closest_answer (wellFormed_of_isQuorumSetSane hq)
  have hnodup := nodup_of_isQuorumSetSane hq
  have hleast : ∀ b : List NodeID, isVBlockingSet q (nodesOutside q good ++ b) = true →
      (findClosestVBlocking good none q).length ≤ b.length := by
    intro b hb
    refine (hclosest.least _ hb).trans ?_
    -- the nodes of the set that are good and in the blocking set are different nodes of `b`
    rw [countP_eq_length_filter]
    refine List.Subperm.length_le (subperm_of_subset (hnodup.filter _) fun n hn => ?_)
    obtain ⟨-, hgood, hn⟩ : _ ∧ n ∈ good ∧ n ∈ nodesOutside q good ++ b :=
      ⟨(mem_filter.mp hn).1, of_decide_eq_true (mem_filter.mp hn).2⟩
    rcases mem_append.mp hn with hout | hb
    · exact absurd hgood (mem_nodesOutside.mp hout).2
    · exact hb
  have hblocks : isVBlockingSet q (nodesOutside q good ++ findClosestVBlocking good none q) =
      true :=
    hclosest.blocks _ (fun n hn hnot => mem_append_left _ (mem_nodesOutside.mpr ⟨hn, hnot⟩))
      fun n hn => mem_append_right _ hn
  refine ⟨?_, hclosest.subset, hblocks, fun b _ hb => hleast b hb, ?_⟩
  · obtain ⟨l, hperm, hsub⟩ := hclosest.subperm
    exact hperm.nodup_iff.mp (hnodup.sublist hsub)
  · constructor
    · intro hnil
      rwa [hnil, append_nil] at hblocks
    · intro hb
      have hlength := hleast [] (by rwa [append_nil])
      exact length_eq_zero_iff.mp (Nat.le_zero.mp hlength)

/-- The theorem where a set of three has to be blocked at two entries. -/
theorem findClosestVBlocking_minimum_nested :
    isQuorumSetSane (.mk 2 [0, 1] [.mk 2 [2, 3, 4] []]) false = true ∧
    isVBlockingSet (.mk 2 [0, 1] [.mk 2 [2, 3, 4] []])
      (nodesOutside (.mk 2 [0, 1] [.mk 2 [2, 3, 4] []]) [0, 2, 4] ++
        findClosestVBlocking [0, 2, 4] none (.mk 2 [0, 1] [.mk 2 [2, 3, 4] []])) = true := by
  have hsane : isQuorumSetSane (.mk 2 [0, 1] [.mk 2 [2, 3, 4] []]) false = true := by
    decide +kernel
  exact ⟨hsane, (findClosestVBlocking_minimum _ hsane [0, 2, 4]).2.2.1⟩

end Closest

end LocalNode
end DigitalBits.Scp
