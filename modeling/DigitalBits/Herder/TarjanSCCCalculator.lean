import Mathlib

/-!
# Components of a graph

`TarjanSCCCalculator` finds the strongly connected components of a graph whose
nodes are the numbers below `n`. Every node is in one component, and the components
come in an order in which no edge leads from one to a later one; so two nodes that
reach each other are in the same component. That all nodes of a component reach each
other comes from the stack: each of its nodes reaches those above it, and the nodes
above one that is being explored reach it.
-/
namespace DigitalBits.Herder
open Finset

/-- A finite set of numbers below `n`. -/
abbrev BitSet (n : ℕ) := Finset (Fin n)

/-- The bits that are set, as a loop with `nextSet` goes through them. -/
def BitSet.bits {n : ℕ} (s : BitSet n) : List (Fin n) := (List.finRange n).filter (· ∈ s)

@[simp] theorem BitSet.mem_bits {n : ℕ} {s : BitSet n} {i : Fin n} : i ∈ s.bits ↔ i ∈ s := by
  simp [BitSet.bits]

structure SCCNode where
  mIndex : ℤ := -1
  mLowLink : ℤ := -1
  mOnStack : Bool := false

/-- The state of the search. The top of the stack is the head of the list. -/
structure TarjanSCCCalculator (n : ℕ) where
  mNodes : Fin n → SCCNode := fun _ => {}
  mStack : List (Fin n) := []
  mIndex : ℤ := 0
  mSCCs : List (BitSet n) := []

namespace TarjanSCCCalculator

variable {n : ℕ}

def enter (i : Fin n) (s : TarjanSCCCalculator n) : TarjanSCCCalculator n where
  mNodes := Function.update s.mNodes i ⟨s.mIndex, s.mIndex, true⟩
  mStack := i :: s.mStack
  mIndex := s.mIndex + 1
  mSCCs := s.mSCCs

/-- `v.mLowLink = std::min(v.mLowLink, link)`. -/
def lower (i : Fin n) (link : ℤ) (s : TarjanSCCCalculator n) : TarjanSCCCalculator n :=
  let v := s.mNodes i
  { s with mNodes := Function.update s.mNodes i { v with mLowLink := min v.mLowLink link } }

/-- The loop that pops nodes until `i`: the stack below it, the nodes and the new component. -/
def popUntil (i : Fin n) :
    List (Fin n) → (Fin n → SCCNode) → BitSet n → List (Fin n) × (Fin n → SCCNode) × BitSet n
  | [], nodes, newScc => ([], nodes, newScc)
  | j :: stack, nodes, newScc =>
    let nodes := Function.update nodes j { nodes j with mOnStack := false }
    if j = i then (stack, nodes, insert j newScc) else popUntil i stack nodes (insert j newScc)

def popComponent (i : Fin n) (s : TarjanSCCCalculator n) : TarjanSCCCalculator n :=
  let (stack, nodes, newScc) := popUntil i s.mStack s.mNodes {i}
  { s with mStack := stack, mNodes := nodes, mSCCs := s.mSCCs ++ [newScc] }

variable (succ : Fin n → BitSet n)

/-- `scc`. As many nodes can be visited as there are, so that many calls can be nested. -/
def scc : ℕ → Fin n → TarjanSCCCalculator n → Option (TarjanSCCCalculator n)
  | 0, _, _ => none
  | fuel + 1, i, s => do
    let s ← (succ i).bits.foldlM (fun s j =>
      if (s.mNodes j).mIndex = -1 then do
        let s ← scc fuel j s
        return s.lower i (s.mNodes j).mLowLink
      else if (s.mNodes j).mOnStack then
        return s.lower i (s.mNodes j).mIndex
      else
        return s) (s.enter i)
    if (s.mNodes i).mLowLink = (s.mNodes i).mIndex then
      return s.popComponent i
    else
      return s

def calculateSCCs : Option (TarjanSCCCalculator n) :=
  (List.finRange n).foldlM
    (fun s i => if (s.mNodes i).mIndex = -1 then scc succ n i s else return s) {}

/-! ## What is known of a state -/

/-- No edge leads from a component to a later one. -/
def Layered (sccs : List (BitSet n)) : Prop :=
  ∀ before c after, sccs = before ++ c :: after → ∀ v ∈ c, ∀ w ∈ succ v,
    w ∈ c ∨ ∃ c' ∈ before, w ∈ c'

def Visited (s : TarjanSCCCalculator n) (v : Fin n) : Prop := (s.mNodes v).mIndex ≠ -1

/-- There is a path from one node to the other. -/
abbrev Reaches : Fin n → Fin n → Prop := Relation.ReflTransGen fun v w => w ∈ succ v

/-- A set of nodes that reach each other. -/
def Strong (c : BitSet n) : Prop := c.Nonempty ∧ ∀ a ∈ c, ∀ b ∈ c, Reaches succ a b

structure Consistent (s : TarjanSCCCalculator n) : Prop where
  mIndex_nonneg : 0 ≤ s.mIndex
  index : ∀ v, s.Visited v → 0 ≤ (s.mNodes v).mIndex ∧ (s.mNodes v).mIndex < s.mIndex
  sorted : s.mStack.Pairwise fun v w => (s.mNodes w).mIndex < (s.mNodes v).mIndex
  onStack : ∀ v, (s.mNodes v).mOnStack = true ↔ v ∈ s.mStack
  visited : ∀ v, s.Visited v ↔ v ∈ s.mStack ∨ ∃ c ∈ s.mSCCs, v ∈ c
  popped : ∀ v ∈ s.mStack, ∀ c ∈ s.mSCCs, v ∉ c
  disjoint : s.mSCCs.Pairwise Disjoint
  layered : Layered succ s.mSCCs
  linked : s.mStack.Pairwise fun v w => Reaches succ w v
  strong : ∀ c ∈ s.mSCCs, Strong succ c

variable {succ} {s t u : TarjanSCCCalculator n} {i j v w : Fin n}

theorem layered_nil : Layered succ [] := by
  intro before c after h
  simp at h

variable {sccs : List (BitSet n)} {c : BitSet n}

/-- A component may come last if its edges stay in it or lead to one before. -/
theorem Layered.concat (h : Layered succ sccs)
    (hc : ∀ v ∈ c, ∀ w ∈ succ v, w ∈ c ∨ ∃ c' ∈ sccs, w ∈ c') : Layered succ (sccs ++ [c]) := by
  intro before d after heq
  rcases List.eq_nil_or_concat after with rfl | ⟨rest, last, rfl⟩
  · obtain ⟨rfl, hd⟩ := List.append_inj' heq rfl
    rw [List.singleton_inj] at hd
    subst hd
    exact hc
  · rw [List.concat_eq_append, ← List.cons_append, ← List.append_assoc] at heq
    obtain ⟨hsccs, -⟩ := List.append_inj' heq rfl
    exact h before d rest hsccs

/-- How the state changes: new components come behind the old ones, and what is known of the
nodes that were visited stays. -/
structure Grown (s t : TarjanSCCCalculator n) : Prop where
  sccs : s.mSCCs <+: t.mSCCs
  old : ∀ v, s.Visited v → t.mNodes v = s.mNodes v
  fresh : ∀ v, ¬ s.Visited v → t.Visited v → s.mIndex ≤ (t.mNodes v).mIndex
  mIndex_le : s.mIndex ≤ t.mIndex

theorem Grown.visited (h : Grown s t) (hv : s.Visited v) : t.Visited v := by
  unfold Visited at hv ⊢
  rwa [h.old v hv]

theorem Grown.trans (h : Grown s t) (h' : Grown t u) : Grown s u where
  sccs := h.sccs.trans h'.sccs
  old v hv := (h'.old v (h.visited hv)).trans (h.old v hv)
  fresh v hv hu := by
    by_cases ht : t.Visited v
    · rw [h'.old v ht]
      exact h.fresh v hv ht
    · exact h.mIndex_le.trans (h'.fresh v ht hu)
  mIndex_le := h.mIndex_le.trans h'.mIndex_le

/-- All edges of a node were followed, and the link knows those to nodes on the stack. -/
def Explored (t : TarjanSCCCalculator n) (link : ℤ) (x : Fin n) : Prop :=
  t.Visited x ∧ (x ∈ t.mStack → link ≤ (t.mNodes x).mIndex)

/-- What a call of `scc` for `i` leaves. -/
structure Finished (succ : Fin n → BitSet n) (i : Fin n) (s t : TarjanSCCCalculator n) : Prop where
  consistent : Consistent succ t
  grown : Grown s t
  visited : t.Visited i
  stack : ∃ extra, t.mStack = extra ++ s.mStack ∧ ∀ w ∈ extra, ¬ s.Visited w ∧
    (∀ x ∈ succ w, t.Explored (t.mNodes i).mLowLink x) ∧ ∃ y ∈ s.mStack, Reaches succ w y
  low_le : i ∈ t.mStack → (t.mNodes i).mLowLink ≤ (t.mNodes i).mIndex
  low : s.mIndex ≤ (t.mNodes i).mLowLink ∨ ∃ y ∈ s.mStack, Reaches succ i y ∧
    (t.mNodes y).mIndex = (t.mNodes i).mLowLink

/-- The state within a call of `scc` for `i`, which has followed the edges in `D`. -/
structure Exploring (succ : Fin n → BitSet n) (i : Fin n) (s : TarjanSCCCalculator n)
    (D : List (Fin n)) (t : TarjanSCCCalculator n) : Prop where
  consistent : Consistent succ t
  grown : Grown s t
  index : (t.mNodes i).mIndex = s.mIndex
  stack : ∃ extra, t.mStack = extra ++ i :: s.mStack ∧ ∀ w ∈ extra, ¬ s.Visited w ∧
    (∀ x ∈ succ w, t.Explored (t.mNodes i).mLowLink x) ∧ Reaches succ w i
  followed : ∀ x ∈ D, t.Explored (t.mNodes i).mLowLink x
  low_le : (t.mNodes i).mLowLink ≤ (t.mNodes i).mIndex
  low : ∃ y ∈ t.mStack, Reaches succ i y ∧ (t.mNodes y).mIndex = (t.mNodes i).mLowLink

theorem Consistent.not_mem_stack (h : Consistent succ s) (hv : ¬ s.Visited v) : v ∉ s.mStack :=
  fun hmem => hv ((h.visited v).mpr (.inl hmem))

theorem enter_exploring (h : Consistent succ s) (hi : ¬ s.Visited i)
    (hreach : ∀ v ∈ s.mStack, Reaches succ v i) :
    Exploring succ i s [] (s.enter i) := by
  have hne : ∀ v, v ≠ i → (s.enter i).mNodes v = s.mNodes v := fun v hv => Function.update_of_ne hv _ _
  have hself : (s.enter i).mNodes i = ⟨s.mIndex, s.mIndex, true⟩ := Function.update_self _ _ _
  have hidx : s.mIndex ≠ -1 := by
    have hnonneg := h.mIndex_nonneg
    omega
  have hvisited : ∀ v, (s.enter i).Visited v ↔ v = i ∨ s.Visited v := by
    intro v
    by_cases hv : v = i
    · subst hv
      simp [Visited, hself, hidx]
    · simp [Visited, hne v hv, hv]
  have hstack : ∀ v ∈ s.mStack, v ≠ i := by
    rintro v hv rfl
    exact h.not_mem_stack hi hv
  refine ⟨⟨?_, ?_, ?_, ?_, ?_, ?_, h.disjoint, h.layered, .cons hreach h.linked, h.strong⟩,
    ⟨List.prefix_rfl, ?_, ?_, ?_⟩, ?_, ?_, ?_, ?_, ?_⟩
  · exact Int.add_nonneg h.mIndex_nonneg (by decide)
  · intro v hv
    rcases (hvisited v).mp hv with rfl | hold
    · rw [hself]
      exact ⟨h.mIndex_nonneg, Int.lt_succ _⟩
    · have hvi : v ≠ i := fun heq => hi (heq ▸ hold)
      rw [hne v hvi]
      exact ⟨(h.index v hold).1, (h.index v hold).2.trans (Int.lt_succ _)⟩
  · change (i :: s.mStack).Pairwise _
    refine List.pairwise_cons.mpr ⟨fun v hv => ?_, ?_⟩
    · rw [hself, hne v (hstack v hv)]
      exact (h.index v ((h.visited v).mpr (.inl hv))).2
    · refine h.sorted.imp_of_mem fun hv hw hlt => ?_
      rwa [hne _ (hstack _ hv), hne _ (hstack _ hw)]
  · intro v
    change _ ↔ v ∈ i :: s.mStack
    by_cases hv : v = i
    · subst hv
      simp [hself]
    · simp [hne v hv, hv, h.onStack]
  · intro v
    change _ ↔ v ∈ i :: s.mStack ∨ ∃ c ∈ s.mSCCs, v ∈ c
    rw [hvisited, h.visited, List.mem_cons, or_assoc]
  · intro v hv c hc hmem
    rcases List.mem_cons.mp hv with rfl | hold
    · exact hi ((h.visited _).mpr (.inr ⟨c, hc, hmem⟩))
    · exact h.popped v hold c hc hmem
  · intro v hv
    exact hne v fun heq => hi (heq ▸ hv)
  · intro v hv hv'
    rcases (hvisited v).mp hv' with rfl | hold
    · rw [hself]
    · exact absurd hold hv
  · exact Int.le_of_lt (Int.lt_succ _)
  · rw [hself]
  · exact ⟨[], rfl, by simp⟩
  · simp
  · rw [hself]
  · exact ⟨i, List.mem_cons_self, .refl, by rw [hself]⟩

/-! ## Following an edge -/

section Lower

variable {link : ℤ}

@[simp] theorem lower_mIndex (v : Fin n) :
    ((s.lower i link).mNodes v).mIndex = (s.mNodes v).mIndex := by
  unfold lower
  by_cases hv : v = i
  · subst hv
    simp
  · simp [Function.update_of_ne hv]

@[simp] theorem lower_mOnStack (v : Fin n) :
    ((s.lower i link).mNodes v).mOnStack = (s.mNodes v).mOnStack := by
  unfold lower
  by_cases hv : v = i
  · subst hv
    simp
  · simp [Function.update_of_ne hv]

@[simp] theorem lower_mLowLink_self :
    ((s.lower i link).mNodes i).mLowLink = min (s.mNodes i).mLowLink link := by
  simp [lower]

theorem lower_mNodes_ne (hv : v ≠ i) : (s.lower i link).mNodes v = s.mNodes v :=
  Function.update_of_ne hv _ _

@[simp] theorem lower_visited : (s.lower i link).Visited v ↔ s.Visited v := by
  simp [Visited]

@[simp] theorem lower_mStack : (s.lower i link).mStack = s.mStack := rfl

theorem Consistent.lower (h : Consistent succ s) : Consistent succ (s.lower i link) where
  mIndex_nonneg := h.mIndex_nonneg
  index v hv := by
    rw [lower_mIndex]
    exact h.index v (lower_visited.mp hv)
  sorted := by simpa using h.sorted
  onStack v := by simpa using h.onStack v
  visited v := by
    rw [lower_visited]
    exact h.visited v
  popped := h.popped
  disjoint := h.disjoint
  layered := h.layered
  linked := h.linked
  strong := h.strong

/-- A lower link knows as much. -/
theorem Explored.lower {link' link'' : ℤ} {x : Fin n} (h : t.Explored link' x)
    (hle : link'' ≤ link') : (t.lower i link).Explored link'' x := by
  refine ⟨lower_visited.mpr h.1, fun hx => ?_⟩
  rw [lower_mIndex]
  exact hle.trans (h.2 hx)

end Lower

variable {extra : List (Fin n)}

/-- What was explored stays so when the search goes on. -/
theorem Explored.grown {link : ℤ} {x : Fin n} (h : s.Explored link x) (hgrown : Grown s t)
    (hstack : t.mStack = extra ++ s.mStack) (hextra : ∀ w ∈ extra, ¬ s.Visited w) :
    t.Explored link x := by
  refine ⟨hgrown.visited h.1, fun hx => ?_⟩
  rw [hstack] at hx
  rw [hgrown.old x h.1]
  rcases List.mem_append.mp hx with hnew | hold
  · exact absurd h.1 (hextra x hnew)
  · exact h.2 hold

variable {D : List (Fin n)}

theorem Exploring.visited (h : Exploring succ i s D t) :
    t.Visited i ∧ i ∈ t.mStack := by
  obtain ⟨extra, hstack, -⟩ := h.stack
  have hmem : i ∈ t.mStack := by
    rw [hstack]
    simp
  exact ⟨(h.consistent.visited i).mpr (.inl hmem), hmem⟩

theorem Exploring.reaches (h : Exploring succ i s D t) (hreach : ∀ v ∈ s.mStack, Reaches succ v i)
    (hv : v ∈ t.mStack) : Reaches succ v i := by
  obtain ⟨extra, hstack, hextra⟩ := h.stack
  rw [hstack, List.mem_append, List.mem_cons] at hv
  rcases hv with hv | rfl | hv
  · exact (hextra v hv).2.2
  · exact .refl
  · exact hreach v hv

/-- The search went on from `t` to `u`, which gives a link for the edge to `j`. -/
theorem Exploring.follow {link : ℤ} (hi : ¬ s.Visited i) (h : Exploring succ i s D t)
    (hu : Consistent succ u) (hg : Grown t u) (hstack' : u.mStack = extra ++ t.mStack)
    (hextra' : ∀ w ∈ extra, ¬ t.Visited w ∧ (∀ x ∈ succ w, u.Explored link x) ∧ Reaches succ w i)
    (hj : u.Explored link j) (hlink : (t.mNodes i).mLowLink ≤ link ∨
      ∃ y ∈ u.mStack, Reaches succ i y ∧ (u.mNodes y).mIndex = link) :
    Exploring succ i s (j :: D) (u.lower i link) := by
  obtain ⟨extra₀, hstack, hextra⟩ := h.stack
  have hnew : ∀ w ∈ extra, ¬ t.Visited w := fun w hw => (hextra' w hw).1
  have hnode : u.mNodes i = t.mNodes i := hg.old i h.visited.1
  have hgrown : Grown s u := h.grown.trans hg
  -- The link of `i` becomes the lower one of the two.
  have hlow : ((u.lower i link).mNodes i).mLowLink = min (t.mNodes i).mLowLink link := by
    rw [lower_mLowLink_self, hnode]
  refine ⟨hu.lower, ⟨hgrown.sccs, fun v hv => ?_, fun v hv hv' => ?_, hgrown.mIndex_le⟩,
    ?_, ⟨extra ++ extra₀, ?_, fun w hw => ?_⟩, ?_, ?_, ?_⟩
  · have hvi : v ≠ i := fun heq => hi (heq ▸ hv)
    rw [lower_mNodes_ne hvi]
    exact hgrown.old v hv
  · rw [lower_mIndex]
    exact hgrown.fresh v hv (lower_visited.mp hv')
  · rw [lower_mIndex, hnode]
    exact h.index
  · rw [lower_mStack, hstack', hstack, List.append_assoc]
  · rw [hlow]
    rcases List.mem_append.mp hw with hw' | hw'
    · obtain ⟨hv, hedges, hback⟩ := hextra' w hw'
      exact ⟨fun hs => hv (h.grown.visited hs),
        fun x hx => (hedges x hx).lower (min_le_right _ _), hback⟩
    · obtain ⟨hv, hedges, hback⟩ := hextra w hw'
      exact ⟨hv, fun x hx => ((hedges x hx).grown hg hstack' hnew).lower (min_le_left _ _), hback⟩
  · rw [hlow, List.forall_mem_cons]
    exact ⟨hj.lower (min_le_right _ _),
      fun x hx => ((h.followed x hx).grown hg hstack' hnew).lower (min_le_left _ _)⟩
  · rw [hlow, lower_mIndex, hnode]
    exact (min_le_left _ _).trans h.low_le
  · simp only [hlow, lower_mStack, lower_mIndex]
    rcases le_or_gt (t.mNodes i).mLowLink link with hle | hlt
    · obtain ⟨y, hy, hreach, hindex⟩ := h.low
      refine ⟨y, ?_, hreach, ?_⟩
      · rw [hstack']
        exact List.mem_append_right _ hy
      · rw [hg.old y ((h.consistent.visited y).mpr (.inl hy)), hindex, min_eq_left hle]
    · rw [min_eq_right hlt.le]
      exact hlink.resolve_left (not_le.mpr hlt)

/-- The edge leads to a node that was not visited, and the search went there. -/
theorem Exploring.call (hi : ¬ s.Visited i) (hreach : ∀ v ∈ s.mStack, Reaches succ v i)
    (h : Exploring succ i s D t) (hedge : j ∈ succ i) (hj : Finished succ j t u) :
    Exploring succ i s (j :: D) (u.lower i (u.mNodes j).mLowLink) := by
  obtain ⟨extra, hstack, hextra⟩ := hj.stack
  refine h.follow hi hj.consistent hj.grown hstack (fun w hw => ?_) ⟨hj.visited, hj.low_le⟩ ?_
  · obtain ⟨hv, hedges, y, hy, hback⟩ := hextra w hw
    exact ⟨hv, hedges, hback.trans (h.reaches hreach hy)⟩
  · rcases hj.low with hle | ⟨y, hy, hpath, hindex⟩
    · have hlt := (h.consistent.index i h.visited.1).2
      exact .inl (h.low_le.trans (hlt.le.trans hle))
    · refine .inr ⟨y, ?_, hpath.head hedge, hindex⟩
      rw [hstack]
      exact List.mem_append_right _ hy

/-- The edge leads to a node on the stack. -/
theorem Exploring.onStack (hi : ¬ s.Visited i) (h : Exploring succ i s D t) (hedge : j ∈ succ i)
    (hj : j ∈ t.mStack) : Exploring succ i s (j :: D) (t.lower i (t.mNodes j).mIndex) :=
  h.follow hi h.consistent ⟨List.prefix_rfl, fun _ _ => rfl, fun _ hv hv' => absurd hv' hv, le_rfl⟩
    (List.nil_append _).symm (by simp)
    ⟨(h.consistent.visited j).mpr (.inl hj), fun _ => le_rfl⟩ (.inr ⟨j, hj, .single hedge, rfl⟩)

/-- The edge leads to a node whose component is known. -/
theorem Exploring.popped (h : Exploring succ i s D t) (hvis : t.Visited j) (hj : j ∉ t.mStack) :
    Exploring succ i s (j :: D) t := by
  refine { h with followed := fun x hx => ?_ }
  rcases List.mem_cons.mp hx with rfl | hx'
  · exact ⟨hvis, fun hmem => absurd hmem hj⟩
  · exact h.followed x hx'

/-! ## Popping a component -/

/-- The nodes above `i` are popped with it. -/
theorem popUntil_eq {rest : List (Fin n)} {nodes : Fin n → SCCNode} {newScc : BitSet n}
    (hi : i ∉ extra) :
    popUntil i (extra ++ i :: rest) nodes newScc =
      (rest, fun v => if v ∈ extra ∨ v = i then { nodes v with mOnStack := false } else nodes v,
        insert i (extra.toFinset ∪ newScc)) := by
  induction extra generalizing nodes newScc with
  | nil =>
    simp only [List.nil_append, popUntil, if_true, List.not_mem_nil, false_or, List.toFinset_nil,
      empty_union, Prod.mk.injEq, true_and, and_true]
    funext v
    by_cases hv : v = i
    · subst hv
      simp
    · simp [hv]
  | cons j extra ih =>
    rw [List.mem_cons, not_or] at hi
    obtain ⟨hne, hnot⟩ := hi
    simp only [List.cons_append, popUntil, if_neg (Ne.symm hne), ih hnot, Prod.mk.injEq, true_and]
    refine ⟨?_, ?_⟩
    · funext v
      by_cases hv : v = j
      · subst hv
        simp
      · simp [hv]
    · ext v
      simp

/-- The nodes above `i` on the stack and the one below. -/
theorem Consistent.split (h : Consistent succ t) {rest : List (Fin n)}
    (hstack : t.mStack = extra ++ i :: rest) :
    i ∉ extra ∧ (∀ v ∈ rest, v ∉ extra ∧ v ≠ i ∧ (t.mNodes v).mIndex < (t.mNodes i).mIndex) ∧
      rest.Pairwise fun v w => (t.mNodes w).mIndex < (t.mNodes v).mIndex := by
  have hsorted := h.sorted
  rw [hstack, List.pairwise_append, List.pairwise_cons] at hsorted
  obtain ⟨-, ⟨hbelow, hrest⟩, habove⟩ := hsorted
  refine ⟨fun hmem => lt_irrefl _ (habove i hmem i List.mem_cons_self), fun v hv => ?_, hrest⟩
  refine ⟨fun hmem => ?_, ?_, hbelow v hv⟩
  · exact lt_irrefl _ (habove v hmem v (List.mem_cons_of_mem _ hv))
  · rintro rfl
    exact lt_irrefl _ (hbelow _ hv)

section Pop

variable {extra rest : List (Fin n)}

theorem popComponent_eq (hstack : t.mStack = extra ++ i :: rest) (hi : i ∉ extra) :
    t.popComponent i =
      { t with
        mStack := rest
        mNodes := fun v => if v ∈ extra ∨ v = i then { t.mNodes v with mOnStack := false }
          else t.mNodes v
        mSCCs := t.mSCCs ++ [insert i extra.toFinset] } := by
  have hset : insert i (extra.toFinset ∪ {i}) = insert i extra.toFinset := by
    ext v
    simp
  simp only [popComponent, hstack, popUntil_eq hi, hset]

theorem popComponent_mIndex (hstack : t.mStack = extra ++ i :: rest) (hi : i ∉ extra) (v : Fin n) :
    ((t.popComponent i).mNodes v).mIndex = (t.mNodes v).mIndex := by
  rw [popComponent_eq hstack hi]
  by_cases hv : v ∈ extra ∨ v = i <;> simp [hv]

theorem popComponent_mNodes (hstack : t.mStack = extra ++ i :: rest) (hi : i ∉ extra)
    (hv : v ∉ extra ∧ v ≠ i) : (t.popComponent i).mNodes v = t.mNodes v := by
  rw [popComponent_eq hstack hi]
  simp [hv]

/-- A component of the nodes from `i` on, when their edges do not lead below `i`. -/
theorem Consistent.popComponent (h : Consistent succ t) (hstack : t.mStack = extra ++ i :: rest)
    (hclosed : ∀ v, v ∈ extra ∨ v = i → ∀ x ∈ succ v,
      (x ∈ extra ∨ x = i) ∨ ∃ c' ∈ t.mSCCs, x ∈ c')
    (hback : ∀ v, v ∈ extra ∨ v = i → Reaches succ v i) : Consistent succ (t.popComponent i) := by
  obtain ⟨hi, hrest, hsorted⟩ := h.split hstack
  have hindex := popComponent_mIndex hstack hi
  have hvisited : ∀ v, (t.popComponent i).Visited v ↔ t.Visited v := fun v => by
    simp [Visited, hindex]
  have hmemc : ∀ v, v ∈ insert i extra.toFinset ↔ v ∈ extra ∨ v = i := by
    intro v
    simp [or_comm]
  have heq := popComponent_eq hstack hi
  have hstack' : (t.popComponent i).mStack = rest := by rw [heq]
  have hsccs : (t.popComponent i).mSCCs = t.mSCCs ++ [insert i extra.toFinset] := by rw [heq]
  have hmIndex : (t.popComponent i).mIndex = t.mIndex := by rw [heq]
  have hmem : ∀ v, v ∈ t.mStack ↔ (v ∈ extra ∨ v = i) ∨ v ∈ rest := by
    intro v
    rw [hstack, List.mem_append, List.mem_cons, or_assoc]
  have hlinked := h.linked
  rw [hstack, List.pairwise_append, List.pairwise_cons] at hlinked
  refine ⟨hmIndex ▸ h.mIndex_nonneg, fun v hv => ?_, ?_, fun v => ?_, fun v => ?_, fun v hv c hc => ?_,
    ?_, ?_, hstack' ▸ hlinked.2.1.2, ?_⟩
  · rw [hindex, hmIndex]
    exact h.index v ((hvisited v).mp hv)
  · simpa only [hstack', hindex] using hsorted
  · rw [hstack']
    by_cases hv : v ∈ extra ∨ v = i
    · have hnot : v ∉ rest := fun hr => hv.elim (hrest v hr).1 (hrest v hr).2.1
      rw [heq]
      simp [hv, hnot]
    · rw [popComponent_mNodes hstack hi (not_or.mp hv), h.onStack, hmem]
      simp [hv]
  · rw [hvisited, h.visited, hstack', hsccs, hmem]
    simp only [List.mem_append, List.mem_singleton, or_and_right, exists_or, exists_eq_left, hmemc]
    simp only [or_assoc, or_comm, or_left_comm]
  · rw [hstack'] at hv
    rw [hsccs, List.mem_append, List.mem_singleton] at hc
    rcases hc with hc | rfl
    · exact h.popped v ((hmem v).mpr (.inr hv)) c hc
    · rw [hmemc]
      exact fun hr => hr.elim (hrest v hv).1 (hrest v hv).2.1
  · rw [hsccs, List.pairwise_append]
    refine ⟨h.disjoint, by simp, fun c hc d hd => ?_⟩
    rw [List.mem_singleton.mp hd, disjoint_right]
    intro v hv
    exact h.popped v ((hmem v).mpr (.inl ((hmemc v).mp hv))) c hc
  · rw [hsccs]
    refine h.layered.concat fun v hv x hx => ?_
    rw [hmemc]
    exact hclosed v ((hmemc v).mp hv) x hx
  · rw [hsccs, List.forall_mem_append, List.forall_mem_singleton]
    refine ⟨h.strong, ⟨i, (hmemc i).mpr (.inr rfl)⟩, fun a ha b hb => ?_⟩
    -- through `i`, which reaches what is above it on the stack
    refine (hback a ((hmemc a).mp ha)).trans ?_
    rcases (hmemc b).mp hb with hb | rfl
    · exact hlinked.2.2 b hb i List.mem_cons_self
    · exact .refl

end Pop

/-- All edges were followed and none leads below `i`: its component is complete. -/
theorem Exploring.pop (hi : ¬ s.Visited i) (h : Exploring succ i s D t) (hall : ∀ x ∈ succ i, x ∈ D)
    (hlow : (t.mNodes i).mLowLink = (t.mNodes i).mIndex) :
    Finished succ i s (t.popComponent i) := by
  obtain ⟨extra, hstack, hextra⟩ := h.stack
  obtain ⟨hie, hrest, -⟩ := h.consistent.split hstack
  have heq := popComponent_eq hstack hie
  have hindex := popComponent_mIndex hstack hie
  have hvisited : ∀ v, (t.popComponent i).Visited v ↔ t.Visited v := fun v => by
    simp [Visited, hindex]
  have hold : ∀ v, s.Visited v → v ∉ extra ∧ v ≠ i := by
    refine fun v hv => ⟨fun hmem => (hextra v hmem).1 hv, ?_⟩
    rintro rfl
    exact hi hv
  have hlink : ((t.popComponent i).mNodes i).mLowLink = (t.mNodes i).mLowLink := by
    rw [heq]
    simp
  -- A node on the stack whose number is not lower than that of `i` is popped with it.
  have hin : ∀ x, t.Explored (t.mNodes i).mLowLink x →
      (x ∈ extra ∨ x = i) ∨ ∃ c' ∈ t.mSCCs, x ∈ c' := by
    rintro x ⟨hvis, hle⟩
    rcases (h.consistent.visited x).mp hvis with hmem | hpopped
    · have hge := hle hmem
      rw [hlow] at hge
      rw [hstack, List.mem_append, List.mem_cons] at hmem
      rcases hmem with hmem | rfl | hmem
      · exact .inl (.inl hmem)
      · exact .inl (.inr rfl)
      · exact absurd (hrest x hmem).2.2 (not_lt.mpr hge)
    · exact .inr hpopped
  have hclosed : ∀ v, v ∈ extra ∨ v = i → ∀ x ∈ succ v,
      (x ∈ extra ∨ x = i) ∨ ∃ c' ∈ t.mSCCs, x ∈ c' := by
    rintro v (hv | rfl) x hx
    · exact hin x ((hextra v hv).2.1 x hx)
    · exact hin x (h.followed x (hall x hx))
  have hback : ∀ v, v ∈ extra ∨ v = i → Reaches succ v i := by
    rintro v (hv | rfl)
    · exact (hextra v hv).2.2
    · exact .refl
  refine ⟨h.consistent.popComponent hstack hclosed hback,
    ⟨?_, fun v hv => ?_, fun v hv hv' => ?_, ?_⟩,
    (hvisited i).mpr h.visited.1, ⟨[], ?_, by simp⟩, fun _ => ?_, .inl ?_⟩
  · rw [heq]
    exact h.grown.sccs.trans (List.prefix_append _ _)
  · rw [popComponent_mNodes hstack hie (hold v hv)]
    exact h.grown.old v hv
  · rw [hindex]
    exact h.grown.fresh v hv ((hvisited v).mp hv')
  · rw [heq]
    exact h.grown.mIndex_le
  · rw [heq]
    rfl
  · rw [hlink, hindex, hlow]
  · rw [hlink, hlow, h.index]

/-- All edges were followed and one leads below `i`: it stays on the stack. -/
theorem Exploring.stay (hi : ¬ s.Visited i) (h : Exploring succ i s D t)
    (hall : ∀ x ∈ succ i, x ∈ D) (hlow : (t.mNodes i).mLowLink ≠ (t.mNodes i).mIndex) :
    Finished succ i s t := by
  obtain ⟨extra, hstack, hextra⟩ := h.stack
  -- The number that is the link of `i` is below that of `i`, so its node is below `i` on the stack.
  obtain ⟨y, hy, hpath, hindex⟩ : ∃ y ∈ s.mStack, Reaches succ i y ∧
      (t.mNodes y).mIndex = (t.mNodes i).mLowLink := by
    obtain ⟨y, hy, hpath, hindex⟩ := h.low
    refine ⟨y, ?_, hpath, hindex⟩
    have hsorted := h.consistent.sorted
    rw [hstack, List.pairwise_append] at hsorted
    rw [hstack, List.mem_append, List.mem_cons] at hy
    rcases hy with hy | rfl | hy
    · have habove := hsorted.2.2 y hy i List.mem_cons_self
      exact absurd h.low_le (not_le.mpr (hindex ▸ habove))
    · exact absurd hindex.symm hlow
    · exact hy
  refine ⟨h.consistent, h.grown, h.visited.1, ⟨extra ++ [i], ?_, fun w hw => ?_⟩,
    fun _ => h.low_le, .inr ⟨y, hy, hpath, hindex⟩⟩
  · rw [hstack, List.append_assoc, List.singleton_append]
  · rcases List.mem_append.mp hw with hw' | hw'
    · obtain ⟨hv, hedges, hback⟩ := hextra w hw'
      exact ⟨hv, hedges, y, hy, hback.trans hpath⟩
    · rw [List.mem_singleton.mp hw']
      exact ⟨hi, fun x hx => h.followed x (hall x hx), y, hy, hpath⟩

/-! ## The whole search -/

/-- The number of nodes that were not visited. -/
def unvisited (s : TarjanSCCCalculator n) : ℕ :=
  (univ.filter fun v => (s.mNodes v).mIndex = -1).card

theorem Grown.subset (h : Grown s t) :
    (univ.filter fun v => (t.mNodes v).mIndex = -1) ⊆
      univ.filter fun v => (s.mNodes v).mIndex = -1 := by
  intro v hv
  simp only [mem_filter, mem_univ, true_and] at hv ⊢
  by_contra hne
  exact h.visited hne hv

theorem Grown.unvisited_lt (h : Grown s t) (hi : ¬ s.Visited i) (hi' : t.Visited i) :
    t.unvisited < s.unvisited := by
  refine card_lt_card ((ssubset_iff_of_subset h.subset).mpr ⟨i, ?_, ?_⟩)
  · simpa [Visited] using hi
  · simpa [Visited] using hi'

/-- A call returns when there is fuel for all nodes that were not visited. -/
theorem scc_finished (succ : Fin n → BitSet n) (fuel : ℕ) :
    ∀ (i : Fin n) (s : TarjanSCCCalculator n), Consistent succ s → ¬ s.Visited i →
      (∀ v ∈ s.mStack, Reaches succ v i) → s.unvisited ≤ fuel → ∃ t, scc succ fuel i s = some t ∧ Finished succ i s t := by
  induction fuel with
  | zero =>
    intro i s hs hi _ hfuel
    have hmem : i ∈ univ.filter fun v => (s.mNodes v).mIndex = -1 := by
      simpa [Visited] using hi
    have hpos : 0 < s.unvisited := card_pos.mpr ⟨i, hmem⟩
    omega
  | succ fuel ih =>
    intro i s hs hi hreach hfuel
    -- The loop over the edges of `i`, from any point on.
    have hloop : ∀ (js D : List (Fin n)) (t : TarjanSCCCalculator n), (∀ j ∈ js, j ∈ succ i) →
        Exploring succ i s D t → ∃ u, js.foldlM (fun s j =>
          if (s.mNodes j).mIndex = -1 then do
            let s ← scc succ fuel j s
            return s.lower i (s.mNodes j).mLowLink
          else if (s.mNodes j).mOnStack then
            return s.lower i (s.mNodes j).mIndex
          else
            return s) t = some u ∧ Exploring succ i s (js.reverse ++ D) u := by
      intro js
      induction js with
      | nil => exact fun D t _ ht => ⟨t, rfl, ht⟩
      | cons j js ihjs =>
        intro D t hjs ht
        obtain ⟨hedge, hjs⟩ := List.forall_mem_cons.mp hjs
        rw [List.foldlM_cons, List.reverse_cons, List.append_assoc, List.singleton_append]
        by_cases hj : (t.mNodes j).mIndex = -1
        · have hnot : ¬ t.Visited j := fun h => h hj
          have hlt := ht.grown.unvisited_lt hi ht.visited.1
          obtain ⟨u, hu, hfin⟩ := ih j t ht.consistent hnot
            (fun v hv => (ht.reaches hreach hv).tail hedge) (by omega)
          simp only [if_pos hj, hu, Option.bind_eq_bind, Option.bind_some, Option.pure_def]
          exact ihjs (j :: D) _ hjs (ht.call hi hreach hedge hfin)
        · simp only [if_neg hj]
          by_cases hon : (t.mNodes j).mOnStack = true
          · simp only [if_pos hon, Option.bind_eq_bind, Option.bind_some, Option.pure_def]
            exact ihjs (j :: D) _ hjs (ht.onStack hi hedge ((ht.consistent.onStack j).mp hon))
          · simp only [if_neg hon, Option.bind_eq_bind, Option.bind_some, Option.pure_def]
            exact ihjs (j :: D) t hjs
              (ht.popped hj fun hmem => hon ((ht.consistent.onStack j).mpr hmem))
    obtain ⟨u, hu, hexp⟩ := hloop (succ i).bits [] (s.enter i)
      (fun j hj => BitSet.mem_bits.mp hj) (enter_exploring hs hi hreach)
    have hall : ∀ x ∈ succ i, x ∈ (succ i).bits.reverse ++ [] := by simp
    rw [scc, hu, Option.bind_eq_bind, Option.bind_some]
    by_cases hlow : (u.mNodes i).mLowLink = (u.mNodes i).mIndex
    · exact ⟨_, if_pos hlow, hexp.pop hi hall hlow⟩
    · exact ⟨u, if_neg hlow, hexp.stay hi hall hlow⟩

theorem consistent_start : Consistent succ {} where
  mIndex_nonneg := le_rfl
  index v hv := absurd rfl hv
  sorted := .nil
  onStack v := by simp
  visited v := by simp [Visited]
  popped v hv := by simp at hv
  disjoint := .nil
  layered := layered_nil
  linked := .nil
  strong c hc := by simp at hc

/-- Components that every node is in, with no edge from one to a later one. -/
structure Components (succ : Fin n → BitSet n) (sccs : List (BitSet n)) : Prop where
  cover : ∀ v, ∃ c ∈ sccs, v ∈ c
  disjoint : sccs.Pairwise Disjoint
  layered : Layered succ sccs

/-- What a component reaches is in it or in an earlier one. -/
theorem Layered.reaches {before after : List (BitSet n)} {a b : Fin n} (h : Layered succ sccs)
    (hsccs : sccs = before ++ c :: after) (ha : a ∈ c)
    (hreach : Reaches succ a b) :
    b ∈ c ∨ ∃ c' ∈ before, b ∈ c' := by
  induction hreach with
  | refl => exact .inl ha
  | tail _ hedge ih =>
    rcases ih with hc | ⟨c', hc', hmem⟩
    · exact h before c after hsccs _ hc _ hedge
    · obtain ⟨before', after', rfl⟩ := List.append_of_mem hc'
      have hsplit : sccs = before' ++ c' :: (after' ++ c :: after) := by simp [hsccs]
      rcases h before' c' _ hsplit _ hmem _ hedge with hw | ⟨c'', hc'', hw⟩
      · exact .inr ⟨c', hc', hw⟩
      · exact .inr ⟨c'', List.mem_append_left _ hc'', hw⟩

/-- Nodes that reach each other are in the same component. -/
theorem Components.mem_of_reaches (h : Components succ sccs) {a b : Fin n} (hc : c ∈ sccs)
    (ha : a ∈ c) (hab : Reaches succ a b) (hba : Reaches succ b a) : b ∈ c := by
  obtain ⟨before, after, rfl⟩ := List.append_of_mem hc
  rcases h.layered.reaches rfl ha hab with hb | ⟨c', hc', hb⟩
  · exact hb
  -- Otherwise `a` is in a component before `c` as well.
  have hdisj : ∀ d ∈ before, a ∉ d := by
    intro d hd had
    have hpair := (List.pairwise_append.mp h.disjoint).2.2 d hd c List.mem_cons_self
    exact disjoint_left.mp hpair had ha
  obtain ⟨before', after', rfl⟩ := List.append_of_mem hc'
  rcases h.layered.reaches (List.append_assoc _ _ _) hb hba with ha' | ⟨d, hd, had⟩
  · exact absurd ha' (hdisj c' hc')
  · exact absurd had (hdisj d (List.mem_append_left _ hd))

theorem calculateSCCs_spec (succ : Fin n → BitSet n) :
    ∃ t, calculateSCCs succ = some t ∧ Components succ t.mSCCs ∧ ∀ c ∈ t.mSCCs, Strong succ c := by
  have hloop : ∀ (is : List (Fin n)) (s : TarjanSCCCalculator n), Consistent succ s →
      s.mStack = [] → ∃ t, is.foldlM
        (fun s i => if (s.mNodes i).mIndex = -1 then scc succ n i s else return s) s = some t ∧
        Consistent succ t ∧ t.mStack = [] ∧ (∀ v, s.Visited v → t.Visited v) ∧
        ∀ v ∈ is, t.Visited v := by
    intro is
    induction is with
    | nil => exact fun s hs hstack => ⟨s, rfl, hs, hstack, fun _ h => h, by simp⟩
    | cons i is ih =>
      intro s hs hstack
      obtain ⟨u, hu, hcons, hempty, hkeep, hvisited⟩ : ∃ u,
          (if (s.mNodes i).mIndex = -1 then scc succ n i s else return s) = some u ∧
          Consistent succ u ∧ u.mStack = [] ∧ (∀ v, s.Visited v → u.Visited v) ∧ u.Visited i := by
        by_cases hi : (s.mNodes i).mIndex = -1
        · have hfuel : s.unvisited ≤ n := (card_le_univ _).trans (by rw [Fintype.card_fin])
          obtain ⟨u, hu, hfin⟩ :=
            scc_finished succ n i s hs (fun h => h hi) (by simp [hstack]) hfuel
          obtain ⟨extra, hextra, hback⟩ := hfin.stack
          refine ⟨u, by rw [if_pos hi, hu], hfin.consistent, ?_, fun v hv => hfin.grown.visited hv,
            hfin.visited⟩
          -- what is left on the stack would reach something below it
          rw [hextra, hstack, List.append_nil, List.eq_nil_iff_forall_not_mem]
          intro w hw
          obtain ⟨y, hy, -⟩ := (hback w hw).2.2
          simp [hstack] at hy
        · exact ⟨s, if_neg hi, hs, hstack, fun _ h => h, hi⟩
      obtain ⟨t, ht, hcons', hempty', hkeep', hall⟩ := ih u hcons hempty
      refine ⟨t, ?_, hcons', hempty', fun v hv => hkeep' v (hkeep v hv),
        List.forall_mem_cons.mpr ⟨hkeep' i hvisited, hall⟩⟩
      rwa [List.foldlM_cons, hu]
  obtain ⟨t, ht, hcons, hempty, -, hall⟩ := hloop (List.finRange n) {} consistent_start rfl
  refine ⟨t, ht, ⟨fun v => ?_, hcons.disjoint, hcons.layered⟩, hcons.strong⟩
  have hvis := (hcons.visited v).mp (hall v (List.mem_finRange v))
  simpa [hempty] using hvis

/-- The search returns the strongly connected components of the graph with an edge from each node
to all its successors, in an order in which no edge leads from one to a later one. -/
theorem calculateSCCs_components (mAllSuccessors : Fin n → BitSet n) :
    ∃ t, calculateSCCs mAllSuccessors = some t ∧ Components mAllSuccessors t.mSCCs ∧
      ∀ c ∈ t.mSCCs, c.Nonempty ∧ ∀ a ∈ c, ∀ b, b ∈ c ↔
        Reaches mAllSuccessors a b ∧ Reaches mAllSuccessors b a := by
  obtain ⟨t, ht, hcomp, hstrong⟩ := calculateSCCs_spec mAllSuccessors
  refine ⟨t, ht, hcomp, fun c hc => ⟨(hstrong c hc).1, fun a ha b => ⟨fun hb => ?_, fun h => ?_⟩⟩⟩
  · exact ⟨(hstrong c hc).2 a ha b hb, (hstrong c hc).2 b hb a ha⟩
  · exact hcomp.mem_of_reaches hc ha h.1 h.2

end TarjanSCCCalculator
end DigitalBits.Herder
