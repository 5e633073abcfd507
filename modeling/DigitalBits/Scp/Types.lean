import Mathlib

/-!
# Messages of the consensus protocol

The wire types of `DigitalBits-SCP.x`. Integers keep their width, a value is
its bytes, and an optional ballot pointer is an `Option`. The union of pledges
is split by the protocol that reads it: the ballot protocol never sees a
nomination, so the unreachable branches of its `switch` statements have no
counterpart here.
-/
namespace DigitalBits.Scp

abbrev Uint32 := Fin (2 ^ 32)
abbrev Uint64 := Fin (2 ^ 64)
abbrev Hash := Fin (2 ^ 256)
abbrev NodeID := Fin (2 ^ 256)
abbrev Value := List (Fin 256)
abbrev Signature := List (Fin 256)

instance neZero_uint32 : NeZero (2 ^ 32) := ⟨by decide⟩
instance neZero_uint64 : NeZero (2 ^ 64) := ⟨by decide⟩
instance neZero_uint256 : NeZero (2 ^ 256) := ⟨by decide⟩
instance neZero_byte : NeZero 256 := ⟨by decide⟩

/-- `UINT32_MAX`. -/
def uint32Max : Uint32 := Fin.last (2 ^ 32 - 1)

theorem le_uint32Max (n : Uint32) : n ≤ uint32Max := Fin.le_last n

variable {n : Uint32}

/-- Only the highest counter is not below its successor. -/
theorem eq_uint32Max_of_succ_le (h : n + 1 ≤ n) : n = uint32Max := by
  by_contra hne
  have hlt : n.val + 1 < 2 ^ 32 := by
    have hmax : n.val ≠ 2 ^ 32 - 1 := fun h => hne (Fin.ext h)
    have := n.isLt
    omega
  have hval : (n + 1).val = n.val + 1 := by
    rw [Fin.val_add]
    exact Nat.mod_eq_of_lt hlt
  have : (n + 1).val ≤ n.val := h
  omega

theorem uint32_lt_succ_iff {m : Uint32} (hn : n < uint32Max) : m < n + 1 ↔ m ≤ n := by
  have hlt : n.val < 2 ^ 32 - 1 := hn
  have hval : (n + 1).val = n.val + 1 := by
    rw [Fin.val_add]
    exact Nat.mod_eq_of_lt (by change n.val + 1 < 2 ^ 32; omega)
  rw [Fin.lt_def, hval, Fin.le_def]
  omega

theorem uint32_succ_ne (n : Uint32) : n + 1 ≠ n := by
  intro h
  have hmax := eq_uint32Max_of_succ_le h.le
  rw [hmax] at h
  exact absurd h (by decide)

structure SCPBallot where
  counter : Uint32
  value : Value
  deriving DecidableEq, Repr

/-- The default constructed ballot: counter zero and the empty value. -/
instance : Inhabited SCPBallot := ⟨⟨0, []⟩⟩

@[simp] theorem default_counter : (default : SCPBallot).counter = 0 := rfl

variable {b c : SCPBallot}

@[ext] theorem SCPBallot.ext (hn : b.counter = c.counter) (hx : b.value = c.value) : b = c := by
  cases b; cases c; cases hn; cases hx; rfl

/-- Ballots are ordered by counter and then by value. -/
instance : LinearOrder SCPBallot :=
  LinearOrder.lift' (fun b => toLex (b.counter, b.value)) <| by
    intro b c h
    have h' : (b.counter, b.value) = (c.counter, c.value) := toLex.injective h
    exact SCPBallot.ext (congrArg Prod.fst h') (congrArg Prod.snd h')

theorem SCPBallot.lt_iff :
    b < c ↔ b.counter < c.counter ∨ b.counter = c.counter ∧ b.value < c.value :=
  Prod.Lex.toLex_lt_toLex

theorem SCPBallot.le_iff :
    b ≤ c ↔ b.counter < c.counter ∨ b.counter = c.counter ∧ b.value ≤ c.value :=
  Prod.Lex.toLex_le_toLex

theorem SCPBallot.counter_le (h : b ≤ c) : b.counter ≤ c.counter := by
  rcases SCPBallot.le_iff.mp h with h | ⟨h, -⟩
  · exact h.le
  · exact h.le

/-- On one value the order of ballots is the order of their counters. -/
theorem SCPBallot.le_iff_of_value_eq (h : b.value = c.value) :
    b ≤ c ↔ b.counter ≤ c.counter := by
  rw [SCPBallot.le_iff, h]
  simp [le_iff_lt_or_eq]

variable {x : Value}

theorem SCPBallot.mk_le_iff (h : x = b.value) :
    (⟨n, x⟩ : SCPBallot) ≤ b ↔ n ≤ b.counter :=
  SCPBallot.le_iff_of_value_eq h

theorem SCPBallot.le_mk_iff (h : b.value = x) :
    b ≤ (⟨n, x⟩ : SCPBallot) ↔ b.counter ≤ n :=
  SCPBallot.le_iff_of_value_eq h

theorem SCPBallot.mk_le_mk_iff {m : Uint32} {y : Value} (h : x = y) :
    (⟨n, x⟩ : SCPBallot) ≤ ⟨m, y⟩ ↔ n ≤ m :=
  SCPBallot.le_iff_of_value_eq h

theorem SCPBallot.lt_iff_of_value_eq (h : b.value = c.value) :
    b < c ↔ b.counter < c.counter := by
  rw [SCPBallot.lt_iff, h]
  simp

theorem nil_le_value (v : Value) : ([] : Value) ≤ v := by
  cases v with
  | nil => exact le_rfl
  | cons a v => exact le_of_lt (List.Lex.nil)

/-- The default ballot is below every ballot. -/
theorem default_le (b : SCPBallot) : (default : SCPBallot) ≤ b := by
  rw [SCPBallot.le_iff]
  rcases Nat.eq_zero_or_pos b.counter.val with h | h
  · exact .inr ⟨Fin.ext h.symm, nil_le_value b.value⟩
  · exact .inl h

/-- The body of a `SCP_ST_PREPARE` statement. -/
structure SCPPrepare where
  quorumSetHash : Hash
  ballot : SCPBallot
  prepared : Option SCPBallot
  preparedPrime : Option SCPBallot
  nC : Uint32
  nH : Uint32
  deriving DecidableEq, Repr

/-- The body of a `SCP_ST_CONFIRM` statement. -/
structure SCPConfirm where
  ballot : SCPBallot
  nPrepared : Uint32
  nCommit : Uint32
  nH : Uint32
  quorumSetHash : Hash
  deriving DecidableEq, Repr

/-- The body of a `SCP_ST_EXTERNALIZE` statement. -/
structure SCPExternalize where
  commit : SCPBallot
  nH : Uint32
  commitQuorumSetHash : Hash
  deriving DecidableEq, Repr

structure SCPNomination where
  quorumSetHash : Hash
  votes : List Value
  accepted : List Value
  deriving DecidableEq, Repr

/-- The pledges the ballot protocol exchanges. -/
inductive BallotPledges where
  | prepare (p : SCPPrepare)
  | confirm (c : SCPConfirm)
  | externalize (e : SCPExternalize)
  deriving DecidableEq, Repr

/-- A statement of one node on one slot, with pledges of type `π`. -/
structure SCPStatement (π : Type) where
  nodeID : NodeID
  slotIndex : Uint64
  pledges : π
  deriving DecidableEq, Repr

structure SCPEnvelope (π : Type) where
  statement : SCPStatement π
  signature : Signature
  deriving DecidableEq, Repr

abbrev BallotStatement := SCPStatement BallotPledges
abbrev BallotEnvelope := SCPEnvelope BallotPledges
abbrev NominationStatement := SCPStatement SCPNomination
abbrev NominationEnvelope := SCPEnvelope SCPNomination

/-- An envelope as a slot receives it, before it looks at the type of pledges. -/
inductive AnyEnvelope where
  | ballot (e : BallotEnvelope)
  | nominate (e : NominationEnvelope)
  deriving DecidableEq, Repr

/-- A quorum set: a threshold over validators and nested quorum sets. -/
inductive SCPQuorumSet where
  | mk (threshold : Uint32) (validators : List NodeID) (innerSets : List SCPQuorumSet)

namespace SCPQuorumSet

def threshold : SCPQuorumSet → Uint32 | mk t _ _ => t
def validators : SCPQuorumSet → List NodeID | mk _ v _ => v
def innerSets : SCPQuorumSet → List SCPQuorumSet | mk _ _ i => i

/-- Induction on the nesting of a quorum set. -/
@[elab_as_elim] theorem induction {P : SCPQuorumSet → Prop}
    (mk : ∀ t v i, (∀ q ∈ i, P q) → P (SCPQuorumSet.mk t v i)) (q : SCPQuorumSet) : P q :=
  @SCPQuorumSet.rec P (fun i => ∀ q ∈ i, P q) (fun t v i ih => mk t v i ih) (by simp)
    (fun q i hq hi => by simpa using ⟨hq, hi⟩) q

end SCPQuorumSet

/-- `SCPDriver::ValidationLevel`, in the order of the source. -/
inductive ValidationLevel where
  | kInvalidValue
  | kMaybeValidValue
  | kFullyValidatedValue
  deriving DecidableEq, Repr

/-- `SCP::EnvelopeState`. -/
inductive EnvelopeState where
  | invalid
  | valid
  deriving DecidableEq, Repr

end DigitalBits.Scp
