import Mathlib

/-!
# Quorums

Every node is satisfied by some sets of nodes, of which only its successors
matter. A quorum is a non-empty set that satisfies all its members. Every set has
a greatest closed subset, every quorum contains a minimal one, and the members of
a minimal quorum reach each other, so that it does not leave its strongly
connected component.
-/
namespace DigitalBits.Lib

/-- For each node, the sets that satisfy it and the nodes that it depends on. -/
structure QuorumSystem (α : Type) [DecidableEq α] where
  Satisfies : Finset α → α → Prop
  successors : α → Finset α
  mono : ∀ {S T : Finset α} {n : α}, S ⊆ T → Satisfies S n → Satisfies T n
  inter_successors : ∀ {S : Finset α} {n : α}, Satisfies S n → Satisfies (S ∩ successors n) n

namespace QuorumSystem

variable {α : Type} [DecidableEq α] (Q : QuorumSystem α) {S T U : Finset α} {a b : α}

/-- A set that satisfies all its members. -/
def Closed (S : Finset α) : Prop := ∀ n ∈ S, Q.Satisfies S n

def IsQuorum (S : Finset α) : Prop := S.Nonempty ∧ Q.Closed S

/-- The greatest closed subset of a set. -/
structure IsGreatestClosed (S T : Finset α) : Prop where
  subset : T ⊆ S
  closed : Q.Closed T
  greatest : ∀ U ⊆ S, Q.Closed U → U ⊆ T

/-- One node depends on another one. -/
def Edge (a b : α) : Prop := b ∈ Q.successors a

/-- Two nodes that reach each other. -/
def Connected (a b : α) : Prop :=
  Relation.ReflTransGen Q.Edge a b ∧ Relation.ReflTransGen Q.Edge b a

variable {Q}

theorem IsGreatestClosed.eq_self (h : Q.IsGreatestClosed S T) (hS : Q.Closed S) : T = S :=
  h.subset.antisymm (h.greatest S le_rfl hS)

/-- A set contains a quorum just if its greatest closed subset is not empty. -/
theorem IsGreatestClosed.nonempty_iff (h : Q.IsGreatestClosed S T) :
    T.Nonempty ↔ ∃ U ⊆ S, Q.IsQuorum U := by
  refine ⟨fun hT => ⟨T, h.subset, hT, h.closed⟩, ?_⟩
  rintro ⟨U, hUS, ⟨n, hn⟩, hU⟩
  exact ⟨n, h.greatest U hUS hU hn⟩

theorem IsQuorum.exists_minimal (h : Q.IsQuorum S) : ∃ T ⊆ S, Minimal Q.IsQuorum T := by
  obtain ⟨T, hTS, hT⟩ := exists_minimal_le_of_wellFoundedLT Q.IsQuorum S h
  exact ⟨T, hTS, hT⟩

/-- A quorum within a minimal one is all of it. -/
theorem eq_of_minimal (h : Minimal Q.IsQuorum S) (hT : Q.IsQuorum T) (hTS : T ⊆ S) : T = S :=
  hTS.antisymm (h.2 hT hTS)

open Classical in
/-- In a minimal quorum every node reaches every other one: what a node reaches within the quorum
is a quorum itself. -/
theorem reaches_of_minimal (h : Minimal Q.IsQuorum S) (ha : a ∈ S) (hb : b ∈ S) :
    Relation.ReflTransGen Q.Edge a b := by
  let R : Finset α := S.filter fun n => Relation.ReflTransGen Q.Edge a n
  have hR : Q.IsQuorum R := by
    refine ⟨⟨a, Finset.mem_filter.mpr ⟨ha, .refl⟩⟩, fun n hn => ?_⟩
    obtain ⟨hnS, hreach⟩ := Finset.mem_filter.mp hn
    refine Q.mono ?_ (Q.inter_successors (h.1.2 n hnS))
    intro m hm
    obtain ⟨hmS, hedge⟩ := Finset.mem_inter.mp hm
    exact Finset.mem_filter.mpr ⟨hmS, hreach.tail hedge⟩
  have heq : R = S := eq_of_minimal h hR (Finset.filter_subset _ _)
  have hbR : b ∈ R := by
    rwa [heq]
  exact (Finset.mem_filter.mp hbR).2

theorem connected_of_minimal (h : Minimal Q.IsQuorum S) (ha : a ∈ S) (hb : b ∈ S) :
    Q.Connected a b :=
  ⟨reaches_of_minimal h ha hb, reaches_of_minimal h hb ha⟩

/-- A set that contains all nodes connected to one of a minimal quorum contains the quorum. -/
theorem subset_of_minimal (h : Minimal Q.IsQuorum S) (ha : a ∈ S)
    (hU : ∀ b, Q.Connected a b → b ∈ U) : S ⊆ U :=
  fun b hb => hU b (connected_of_minimal h ha hb)

/-- Of two disjoint subsets one has at most half of the elements. -/
theorem card_le_half (hS : S ⊆ U) (hT : T ⊆ U) (hdisj : Disjoint S T) :
    S.card ≤ U.card / 2 ∨ T.card ≤ U.card / 2 := by
  have hcard : S.card + T.card ≤ U.card := by
    rw [← Finset.card_union_of_disjoint hdisj]
    exact Finset.card_le_card (Finset.union_subset hS hT)
  omega

end QuorumSystem
end DigitalBits.Lib
