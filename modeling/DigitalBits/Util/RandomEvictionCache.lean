import DigitalBits.Lib.Store

/-!
# A cache that evicts at random

`RandomEvictionCache` keeps a map and a vector of pointers to its elements. An
element is named by its key here, so the vector is a list of keys. What is drawn
at random is a stream of numbers that nothing is known about.
-/
namespace DigitalBits.Util
open List AList

/-- The numbers that are still to be drawn. -/
abbrev RandomSource := ℕ → ℕ

/-- `rand_uniform`, with both bounds inclusive. -/
def randUniform (lo hi : ℕ) (r : RandomSource) : ℕ × RandomSource :=
  (lo + r 0 % (hi - lo + 1), fun k => r (k + 1))

structure CacheValue (V : Type) where
  mLastAccess : UInt64
  mValue : V

structure RandomEvictionCache (K V : Type) where
  mMaxSize : ℕ
  mGeneration : UInt64 := 0
  mValueMap : AList (fun _ : K => CacheValue V) := ∅
  mValuePtrs : List K := []

namespace RandomEvictionCache

variable {K V : Type} [DecidableEq K] (cache : RandomEvictionCache K V)

/-- `mValuePtrs.at(i)->second.mLastAccess`. -/
def lastAccess (i : ℕ) : UInt64 :=
  ((cache.mValuePtrs[i]?.bind fun k => cache.mValueMap.lookup k).map (·.mLastAccess)).getD 0

/-- Drop the element that the pointer at `victim` leads to. -/
def dropAt (victim : ℕ) : RandomEvictionCache K V :=
  match cache.mValuePtrs[victim]?, cache.mValuePtrs.getLast? with
  | some k, some last =>
    { cache with
      mValueMap := cache.mValueMap.erase k
      mValuePtrs := (cache.mValuePtrs.set victim last).dropLast }
  | _, _ => cache

/-- Of two random elements the one that was used less recently is dropped. -/
def evictOne (r : RandomSource) : RandomEvictionCache K V × RandomSource :=
  let sz := cache.mValuePtrs.length
  if sz = 0 then (cache, r)
  else
    let (i, r) := randUniform 0 (sz - 1) r
    let (j, r) := randUniform 0 (sz - 1) r
    (cache.dropAt (if cache.lastAccess i < cache.lastAccess j then i else j), r)

def put (k : K) (v : V) (r : RandomSource) : RandomEvictionCache K V × RandomSource :=
  let mGeneration := cache.mGeneration + 1
  let mValueMap := cache.mValueMap.insert k ⟨mGeneration, v⟩
  match cache.mValueMap.lookup k with
  | none =>
    let cache := { cache with mGeneration, mValueMap, mValuePtrs := cache.mValuePtrs ++ [k] }
    if cache.mValuePtrs.length > cache.mMaxSize then cache.evictOne r else (cache, r)
  | some _ => ({ cache with mGeneration, mValueMap }, r)

/-- A hit is an access. -/
def maybeGet (k : K) : Option V × RandomEvictionCache K V :=
  match cache.mValueMap.lookup k with
  | some cacheVal =>
    let mGeneration := cache.mGeneration + 1
    (some cacheVal.mValue,
      { cache with
        mGeneration
        mValueMap := cache.mValueMap.insert k { cacheVal with mLastAccess := mGeneration } })
  | none => (none, cache)

def exists_ (k : K) : Bool := (cache.mValueMap.lookup k).isSome

def get (k : K) : Except String V × RandomEvictionCache K V :=
  let (result, cache) := cache.maybeGet k
  (result.elim (.error "There is no such key in cache") .ok, cache)

def clear : RandomEvictionCache K V :=
  { cache with mValueMap := ∅, mValuePtrs := [] }

def size : ℕ := cache.mValueMap.keys.length

/-- The last pointer takes the place of the one that is dropped. -/
theorem dropAt_eq {i : ℕ} (hi : i < cache.mValuePtrs.length) : cache.dropAt i = { cache with
      mValueMap := cache.mValueMap.erase cache.mValuePtrs[i]
      mValuePtrs := (cache.mValuePtrs.set i
        (cache.mValuePtrs.get ⟨cache.mValuePtrs.length - 1, by omega⟩)).dropLast } := by
  have hne := ne_nil_of_length_pos (Nat.zero_lt_of_lt hi)
  simp [dropAt, getElem?_eq_getElem hi, getLast?_eq_some_getLast hne,
    getLast_eq_getElem]

/-- The loops of `erase_if` from the pointer at `i` on. The inner one stays at `i` as long
as it drops. Nothing is returned if a pointer leads to no element. -/
def eraseIfFrom (f : V → Bool) (cache : RandomEvictionCache K V) (i : ℕ) :
    Option (RandomEvictionCache K V) :=
  if _h : i < cache.mValuePtrs.length then
    match cache.mValueMap.lookup cache.mValuePtrs[i] with
    | none => none
    | some c =>
      if f c.mValue then eraseIfFrom f (cache.dropAt i) i else eraseIfFrom f cache (i + 1)
  else some cache
termination_by cache.mValuePtrs.length - i
decreasing_by
  · simp only [dropAt_eq cache _h, length_dropLast, length_set]
    omega
  · omega

def eraseIf (f : V → Bool) (cache : RandomEvictionCache K V) : Option (RandomEvictionCache K V) :=
  cache.eraseIfFrom f 0

/-- Every value in the cache is related to its key. -/
def Holds (P : K → V → Prop) (cache : RandomEvictionCache K V) : Prop :=
  ∀ k c, cache.mValueMap.lookup k = some c → P k c.mValue

variable {P : K → V → Prop} {cache : RandomEvictionCache K V} {k : K} {v : V}

/-- The cache right after the insertion of `put`. -/
def inserted (cache : RandomEvictionCache K V) (k : K) (v : V) : RandomEvictionCache K V :=
  { cache with
    mGeneration := cache.mGeneration + 1
    mValueMap := cache.mValueMap.insert k ⟨cache.mGeneration + 1, v⟩
    mValuePtrs := if k ∈ cache.mValueMap then cache.mValuePtrs else cache.mValuePtrs ++ [k] }

/-- If the element is new and there is no room for it, one element is dropped. -/
theorem put_cases (cache : RandomEvictionCache K V) (k : K) (v : V) (r : RandomSource) :
    (cache.put k v r).1 = cache.inserted k v ∧
        (k ∈ cache.mValueMap ∨ (cache.inserted k v).mValuePtrs.length ≤ cache.mMaxSize) ∨
      k ∉ cache.mValueMap ∧ cache.mMaxSize < (cache.inserted k v).mValuePtrs.length ∧
        ∃ i < (cache.inserted k v).mValuePtrs.length,
          (cache.put k v r).1 = (cache.inserted k v).dropAt i := by
  by_cases hk : k ∈ cache.mValueMap
  · obtain ⟨c, hc⟩ := Option.isSome_iff_exists.mp (lookup_isSome.mpr hk)
    exact .inl ⟨by simp [put, hc, inserted, hk], .inl hk⟩
  · have hput : cache.put k v r = if (cache.inserted k v).mValuePtrs.length > cache.mMaxSize
        then (cache.inserted k v).evictOne r else (cache.inserted k v, r) := by
      simp [put, lookup_eq_none.mpr hk, inserted, hk]
    have hpos : 0 < (cache.inserted k v).mValuePtrs.length := by simp [inserted, hk]
    rw [hput]
    generalize cache.inserted k v = next at hpos ⊢
    split_ifs with hlt
    · have hmod : ∀ n, n % (next.mValuePtrs.length - 1 + 1) < next.mValuePtrs.length := by
        intro n
        rw [Nat.sub_add_cancel hpos]
        exact Nat.mod_lt n hpos
      refine .inr ⟨hk, hlt, _, ?_, congrArg Prod.fst (if_neg hpos.ne')⟩
      simp only [zero_add, Nat.sub_zero]
      split_ifs
      · exact hmod _
      · exact hmod _
    · exact .inl ⟨rfl, .inr (not_lt.mp hlt)⟩

theorem holds_insert (h : ∀ k' ≠ k, ∀ c, cache.mValueMap.lookup k' = some c → P k' c.mValue)
    (hv : P k v) {g : UInt64} {ptrs : List K} {gen : UInt64} :
    Holds P { cache with
      mGeneration := gen, mValueMap := cache.mValueMap.insert k ⟨g, v⟩, mValuePtrs := ptrs } :=
  Lib.Store.forall_lookup_insert (P := fun k (c : CacheValue V) => P k c.mValue) hv h

theorem Holds.dropAt (h : cache.Holds P) (i : ℕ) : Holds P (cache.dropAt i) := by
  unfold RandomEvictionCache.dropAt
  split
  · rename_i k last _ _
    exact fun k' c hc => h k' c (Lib.Store.lookup_of_erase hc).2
  · exact h

theorem holds_put (h : ∀ k' ≠ k, ∀ c, cache.mValueMap.lookup k' = some c → P k' c.mValue)
    (hv : P k v) (r : RandomSource) : Holds P (cache.put k v r).1 := by
  have hinsert : (cache.inserted k v).Holds P := holds_insert h hv
  obtain ⟨heq, -⟩ | ⟨-, -, i, -, heq⟩ := cache.put_cases k v r
  · rwa [heq]
  · rw [heq]
    exact hinsert.dropAt i

theorem Holds.put (h : cache.Holds P) (hv : P k v) (r : RandomSource) :
    Holds P (cache.put k v r).1 :=
  holds_put (fun k' _ => h k') hv r

theorem Holds.maybeGet (h : cache.Holds P) : Holds P (cache.maybeGet k).2 ∧
    ∀ v, (cache.maybeGet k).1 = some v → P k v := by
  unfold RandomEvictionCache.maybeGet
  cases hk : cache.mValueMap.lookup k with
  | none => exact ⟨h, by simp⟩
  | some c =>
    refine ⟨holds_insert (fun k' _ => h k') (h k c hk), fun v hv => ?_⟩
    rw [← Option.some.inj hv]
    exact h k c hk

theorem holds_empty (maxSize : ℕ) : Holds P (⟨maxSize, 0, ∅, []⟩ : RandomEvictionCache K V) := by
  intro k c hc
  cases hc

theorem mem_of_lookup {m : AList fun _ : K => CacheValue V} {c : CacheValue V}
    (h : m.lookup k = some c) : k ∈ m :=
  lookup_isSome.mp (by simp [h])

/-- The pointers lead to each element of the map exactly once, and there are not too many. -/
structure Sound (maxSize : ℕ) (cache : RandomEvictionCache K V) : Prop where
  ptrs : cache.mValuePtrs.Perm cache.mValueMap.keys
  bounded : cache.mValuePtrs.length ≤ maxSize
  maxSize : cache.mMaxSize = maxSize

variable {maxSize : ℕ} {f : V → Bool} {r : RandomSource} {last : K → Option V}

theorem sound_dropAt (h : cache.mValuePtrs.Perm cache.mValueMap.keys)
    (hlen : cache.mValuePtrs.length ≤ maxSize + 1) (hmax : cache.mMaxSize = maxSize) {i : ℕ}
    (hi : i < cache.mValuePtrs.length) : (cache.dropAt i).Sound maxSize := by
  rw [dropAt_eq cache hi]
  refine ⟨?_, by simpa using hlen, hmax⟩
  rw [keys_erase]
  have hset := set_perm_cons_eraseIdx hi
    (cache.mValuePtrs.get ⟨cache.mValuePtrs.length - 1, by omega⟩)
  have hsplit := dropLast_concat_getLast (ne_nil_of_length_pos (by
    rw [hset.length_eq]
    exact Nat.succ_pos _))
  simp only [getLast_eq_getElem, getElem_set, length_set, get_eq_getElem,
    ite_self] at hset hsplit ⊢
  rw [← hsplit] at hset
  have herase := (getElem_cons_eraseIdx_perm hi).erase cache.mValuePtrs[i]
  rw [erase_cons_head] at herase
  exact ((((perm_append_singleton _ _).symm.trans hset).cons_inv).trans herase).trans (h.erase _)

/-- An element that is there is only overwritten. -/
theorem perm_keys_insert (h : cache.mValuePtrs.Perm cache.mValueMap.keys)
    (hk : k ∈ cache.mValueMap) (c : CacheValue V) :
    cache.mValuePtrs.Perm (cache.mValueMap.insert k c).keys := by
  rw [keys_insert]
  exact h.trans (perm_cons_erase hk)

theorem Sound.put (h : cache.Sound maxSize) (k : K) (v : V) (r : RandomSource) :
    (cache.put k v r).1.Sound maxSize := by
  have hbounded := h.bounded
  have hins : (cache.inserted k v).mValuePtrs.Perm (cache.inserted k v).mValueMap.keys ∧
      (cache.inserted k v).mValuePtrs.length ≤ maxSize + 1 ∧
      (k ∈ cache.mValueMap → (cache.inserted k v).mValuePtrs.length ≤ maxSize) := by
    by_cases hk : k ∈ cache.mValueMap
    · simp only [inserted, if_pos hk]
      exact ⟨perm_keys_insert h.ptrs hk _, by omega, fun _ => hbounded⟩
    · simp only [inserted, if_neg hk, keys_insert, length_append, length_singleton,
        erase_of_not_mem hk]
      exact ⟨(perm_append_singleton _ _).trans (h.ptrs.cons k), by omega, fun h => absurd h hk⟩
  obtain ⟨heq, hor⟩ | ⟨-, -, i, hi, heq⟩ := cache.put_cases k v r
  · rw [heq]
    exact ⟨hins.1, hor.elim hins.2.2 fun hle => hle.trans h.maxSize.le, h.maxSize⟩
  · rw [heq]
    exact sound_dropAt hins.1 hins.2.1 h.maxSize hi

theorem Sound.maybeGet (h : cache.Sound maxSize) : (cache.maybeGet k).2.Sound maxSize := by
  unfold RandomEvictionCache.maybeGet
  split
  · next c hc => exact ⟨perm_keys_insert h.ptrs (mem_of_lookup hc) _, h.bounded, h.maxSize⟩
  · exact h

/-- The second cache has the elements of the first whose value does not satisfy `f`. -/
def Keeps (f : V → Bool) (cache cache' : RandomEvictionCache K V) : Prop :=
  ∀ k, cache'.mValueMap.lookup k = (cache.mValueMap.lookup k).filter fun c => !f c.mValue

/-- The loop follows no pointer to a removed element. Before `i` all is to be kept. -/
theorem eraseIfFrom_spec {i : ℕ} (h : cache.Sound maxSize)
    (hkept : ∀ k ∈ cache.mValuePtrs.take i, ∀ c, cache.mValueMap.lookup k = some c →
      f c.mValue = false) :
    ∃ cache', cache.eraseIfFrom f i = some cache' ∧ cache'.Sound maxSize ∧ Keeps f cache cache' := by
  fun_induction eraseIfFrom f cache i with
  | case1 cache i hi hnone =>
    exact absurd (h.ptrs.mem_iff.mp (getElem_mem hi)) (lookup_eq_none.mp hnone)
  | case2 cache i hi c hc hf ih =>
    have hsound := sound_dropAt h.ptrs (h.bounded.trans (Nat.le_succ _)) h.maxSize hi
    rw [dropAt_eq cache hi] at ih hsound ⊢
    obtain ⟨cache', heq, hs, hkeeps⟩ := ih hsound (by
      rw [dropLast_eq_take, length_set, take_take, min_eq_left (by omega),
        take_set_of_le le_rfl]
      exact fun k hk c hc => hkept k hk c (Lib.Store.lookup_of_erase hc).2)
    refine ⟨cache', heq, hs, fun k => ?_⟩
    rw [hkeeps]
    by_cases hk : k = cache.mValuePtrs[i]
    · subst hk
      simp [Option.filter, hc, hf]
    · rw [lookup_erase_ne hk]
  | case3 cache i hi c hc hf ih =>
    refine ih h ?_
    rw [take_succ_eq_append_getElem hi, forall_mem_append]
    exact ⟨hkept, by simp [hc, hf]⟩
  | case4 cache i hi =>
    refine ⟨cache, rfl, h, fun k => ?_⟩
    rw [take_of_length_le (not_lt.mp hi)] at hkept
    cases hc : cache.mValueMap.lookup k with
    | none => rfl
    | some c => simp [Option.filter, hkept k (h.ptrs.mem_iff.mpr (mem_of_lookup hc)) c hc]

theorem Sound.eraseIf (h : cache.Sound maxSize) (f : V → Bool) :
    ∃ cache', cache.eraseIf f = some cache' ∧ cache'.Sound maxSize ∧ Keeps f cache cache' :=
  eraseIfFrom_spec h (by simp)

/-! ## Runs -/

inductive Call (K V : Type)
  | put (k : K) (v : V)
  | exists_ (k : K)
  | maybeGet (k : K)
  | get (k : K)
  | eraseIf (f : V → Bool)
  | clear

/-- The cache after the call. -/
def Call.run (cache : RandomEvictionCache K V) (r : RandomSource) :
    Call K V → Option (RandomEvictionCache K V × RandomSource)
  | put k v => some (cache.put k v r)
  | exists_ _ => some (cache, r)
  | maybeGet k => some ((cache.maybeGet k).2, r)
  | get k => some ((cache.get k).2, r)
  | eraseIf f => (cache.eraseIf f).map (·, r)
  | clear => some (cache.clear, r)

/-- The value that the call puts for the key. -/
def Call.value (k : K) : Call K V → Option V
  | put k' v => if k' = k then some v else none
  | _ => none

/-- The calls, the last one first, lead to a cache; with it comes the value that was last put
for each key since the key was last removed. -/
def runs (maxSize : ℕ) (r : RandomSource) :
    List (Call K V) → Option (RandomEvictionCache K V × RandomSource × (K → Option V))
  | [] => some (⟨maxSize, 0, ∅, []⟩, r, fun _ => none)
  | call :: calls => do
    let (cache, r, last) ← runs maxSize r calls
    let (cache, r) ← call.run cache r
    return (cache, r, fun k => if k ∈ cache.mValueMap then (call.value k).or (last k) else none)

end RandomEvictionCache
end DigitalBits.Util
