import DigitalBits.Scp.Types
import Mathlib.Data.List.Dedup

/-!
# Records of bucket merges

A merge is remembered under its key, under each of its inputs and under its output. The three
maps are kept in step by hand: what is forgotten with an output is forgotten in all of them.
-/
namespace DigitalBits.Bucket
open Scp (Hash)
open List

structure MergeKey where
  mKeepDeadEntries : Bool
  mInputCurrBucket : Hash
  mInputSnapBucket : Hash
  mInputShadowBuckets : List Hash
  deriving DecidableEq

def getMergeKeyHashes (key : MergeKey) : List Hash :=
  (key.mInputCurrBucket :: key.mInputSnapBucket :: key.mInputShadowBuckets).dedup

/-- The multimaps are lists of pairs. -/
structure BucketMergeMap where
  mMergeKeyToOutput : MergeKey → Option Hash
  mInputToOutput : List (Hash × Hash)
  mOutputToMergeKey : List (Hash × MergeKey)

namespace BucketMergeMap

/-- `emplace` keeps an output that is there. -/
def recordMerge (map : BucketMergeMap) (input : MergeKey) (output : Hash) : BucketMergeMap where
  mMergeKeyToOutput := Function.update map.mMergeKeyToOutput input
    (some ((map.mMergeKeyToOutput input).getD output))
  mInputToOutput := (getMergeKeyHashes input).map (·, output) ++ map.mInputToOutput
  mOutputToMergeKey := (output, input) :: map.mOutputToMergeKey

/-- One round of the loop: a pair for each input goes, and the key. -/
def forgetMerge (outputBeingDropped : Hash) (map : BucketMergeMap) (key : MergeKey) :
    BucketMergeMap :=
  { map with
    mInputToOutput := map.mInputToOutput.diff ((getMergeKeyHashes key).map (·, outputBeingDropped))
    mMergeKeyToOutput := Function.update map.mMergeKeyToOutput key none }

/-- The loop over `equal_range(outputBeingDropped)`, which it erases. -/
def forgetAllMergesProducing (map : BucketMergeMap) (outputBeingDropped : Hash) :
    List MergeKey × BucketMergeMap :=
  let merges := (map.mOutputToMergeKey.filter (·.1 = outputBeingDropped)).map (·.2)
  (merges.dedup,
    { merges.foldl (forgetMerge outputBeingDropped) map with
      mOutputToMergeKey := map.mOutputToMergeKey.filter (·.1 ≠ outputBeingDropped) })

def findMergeFor (map : BucketMergeMap) (input : MergeKey) : Option Hash :=
  map.mMergeKeyToOutput input

def getOutputsUsingInput (map : BucketMergeMap) (input : Hash) : List Hash :=
  ((map.mInputToOutput.filter (·.1 = input)).map (·.2)).dedup

variable {map : BucketMergeMap} {k : MergeKey} {h x : Hash} {keys : List MergeKey}

theorem findMergeFor_foldl_forgetMerge (h₀ : Hash) :
    (keys.foldl (forgetMerge h₀) map).findMergeFor k =
      if k ∈ keys then none else map.findMergeFor k := by
  induction keys generalizing map with
  | nil => simp
  | cons key keys ih =>
    rw [foldl_cons, ih]
    simp only [findMergeFor, forgetMerge, Function.update_apply, mem_cons]
    grind

/-- How often the pairs of a merge hold an input. -/
theorem count_pairs (key : MergeKey) (output : Hash) :
    ((getMergeKeyHashes key).map (·, output)).count (x, h) =
      if output = h ∧ x ∈ getMergeKeyHashes key then 1 else 0 := by
  have hnodup : ((getMergeKeyHashes key).map (·, output)).Nodup :=
    (nodup_dedup _).map fun _ _ h => (Prod.mk.inj h).1
  rw [hnodup.count]
  simp [and_comm]

theorem count_foldl_forgetMerge (h₀ : Hash) {l : List (Hash × MergeKey)}
    (hl : ∀ e ∈ l, e.1 = h₀) :
    ((l.map (·.2)).foldl (forgetMerge h₀) map).mInputToOutput.count (x, h) =
      map.mInputToOutput.count (x, h) -
        l.countP fun e => e.1 = h ∧ x ∈ getMergeKeyHashes e.2 := by
  induction l generalizing map with
  | nil => simp
  | cons e l ih =>
    obtain ⟨he, hl⟩ := forall_mem_cons.mp hl
    rw [map_cons, foldl_cons, ih hl, forgetMerge, count_diff, count_pairs, countP_cons, he]
    simp only [decide_eq_true_eq]
    omega

/-- The maps agree with each other. -/
structure InStep (map : BucketMergeMap) : Prop where
  inputs : ∀ x h, map.mInputToOutput.count (x, h) =
    map.mOutputToMergeKey.countP fun e => e.1 = h ∧ x ∈ getMergeKeyHashes e.2
  keys : ∀ k h, map.findMergeFor k = some h ↔ (h, k) ∈ map.mOutputToMergeKey

theorem InStep.recordMerge (hmap : map.InStep)
    (hsame : ∀ h', (h', k) ∈ map.mOutputToMergeKey → h' = h) : (map.recordMerge k h).InStep where
  inputs x h' := by
    simp [BucketMergeMap.recordMerge, count_pairs, countP_cons, hmap.inputs, add_comm]
  keys k' h' := by
    have hkeys := hmap.keys
    simp only [findMergeFor, BucketMergeMap.recordMerge, Function.update_apply, mem_cons,
      Prod.mk.injEq] at hkeys ⊢
    cases hfind : map.mMergeKeyToOutput k <;> grind

theorem InStep.forgetAllMergesProducing (hmap : map.InStep) (h₀ : Hash) :
    (map.forgetAllMergesProducing h₀).2.InStep where
  inputs x h := by
    refine (count_foldl_forgetMerge h₀ (by simp)).trans ?_
    rw [hmap.inputs, countP_eq_countP_filter_add _ _ (·.1 = h₀), Nat.add_sub_cancel_left]
    simp [BucketMergeMap.forgetAllMergesProducing]
  keys k h := by
    have hkeys := hmap.keys k
    have hmem : k ∈ (map.mOutputToMergeKey.filter (·.1 = h₀)).map (·.2) ↔
        map.findMergeFor k = some h₀ := by simp [hkeys]
    refine (Eq.congr_left (findMergeFor_foldl_forgetMerge h₀)).trans ?_
    simp only [BucketMergeMap.forgetAllMergesProducing, mem_filter, ← hkeys, hmem]
    grind

/-! ## Runs -/

inductive Call where
  | recordMerge (input : MergeKey) (output : Hash)
  | forgetAllMergesProducing (outputBeingDropped : Hash)

/-- The map after some calls, the last one first. -/
def run : List Call → BucketMergeMap
  | [] => ⟨fun _ => none, [], []⟩
  | .recordMerge input output :: calls => (run calls).recordMerge input output
  | .forgetAllMergesProducing output :: calls => ((run calls).forgetAllMergesProducing output).2

/-- The merge was recorded after its output was last forgotten. -/
def Recorded : List Call → MergeKey → Hash → Prop
  | [], _, _ => False
  | .recordMerge input output :: calls, k, h => k = input ∧ h = output ∨ Recorded calls k h
  | .forgetAllMergesProducing output :: calls, k, h => h ≠ output ∧ Recorded calls k h

/-- A key is always recorded with the same output. -/
def Functional (calls : List Call) : Prop :=
  ∀ k h h', .recordMerge k h ∈ calls → .recordMerge k h' ∈ calls → h = h'

variable {calls : List Call}

theorem mem_run : (h, k) ∈ (run calls).mOutputToMergeKey ↔ Recorded calls k h := by
  fun_induction run with
  | case1 => simp [Recorded]
  | case2 input output calls ih => simp [recordMerge, Recorded, ih, and_comm]
  | case3 output calls ih => simp [forgetAllMergesProducing, Recorded, ih, and_comm]

theorem Recorded.mem (hrec : Recorded calls k h) : .recordMerge k h ∈ calls := by
  fun_induction Recorded with
  | case1 => exact hrec.elim
  | case2 | case3 => grind

theorem inStep_run (hsame : Functional calls) : (run calls).InStep := by
  induction calls with
  | nil => exact ⟨by simp [run], by simp [run, findMergeFor]⟩
  | cons c calls ih =>
    have hrest := ih fun k h h' hk hk' => hsame k h h' (.tail _ hk) (.tail _ hk')
    cases c with
    | recordMerge k h =>
      refine hrest.recordMerge fun h' hmem => ?_
      exact hsame k h' h (.tail _ (mem_run.mp hmem).mem) mem_cons_self
    | forgetAllMergesProducing h => exact hrest.forgetAllMergesProducing h

/-- In every run, a merge is found just if it was recorded after its output was last forgotten, and
the same merges decide what an input is used for and which keys are forgotten. -/
theorem merges_exact (calls : List Call) (hsame : Functional calls) :
    (∀ k h, (run calls).findMergeFor k = some h ↔ Recorded calls k h) ∧
    (∀ x h, h ∈ (run calls).getOutputsUsingInput x ↔ ∃ k, Recorded calls k h ∧
      (x = k.mInputCurrBucket ∨ x = k.mInputSnapBucket ∨ x ∈ k.mInputShadowBuckets)) ∧
    ∀ h k, k ∈ ((run calls).forgetAllMergesProducing h).1 ↔ Recorded calls k h := by
  have hrun := inStep_run hsame
  refine ⟨fun k h => (hrun.keys k h).trans mem_run, fun x h => ?_, fun h k => ?_⟩
  · have hpair : h ∈ (run calls).getOutputsUsingInput x ↔ (x, h) ∈ (run calls).mInputToOutput := by
      simp [getOutputsUsingInput]
    rw [hpair, ← count_pos_iff, hrun.inputs, countP_pos_iff]
    simp [← mem_run, getMergeKeyHashes]
  · simp [forgetAllMergesProducing, mem_run]

def swapped : List Call :=
  [.recordMerge ⟨true, 2, 1, []⟩ 3, .forgetAllMergesProducing 3, .recordMerge ⟨true, 1, 2, []⟩ 3]

theorem swapped_merge_found :
    Functional swapped ∧ (run swapped).findMergeFor ⟨true, 2, 1, []⟩ = some 3 := by
  have hsame : Functional swapped := by
    simp only [Functional, swapped]
    grind
  exact ⟨hsame, ((merges_exact _ hsame).1 _ _).mpr (.inl ⟨rfl, rfl⟩)⟩

end BucketMergeMap
end DigitalBits.Bucket
