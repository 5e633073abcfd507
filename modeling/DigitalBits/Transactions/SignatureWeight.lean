import DigitalBits.Transactions.SignatureChecker

/-!
# What the signatures of a transaction weigh

The checker walks through the signatures, takes the signers they belong to off a list and
stops when the weight is reached. If no signature belongs to two signers, this finds exactly
the weight of the signers that match, whatever the order of signers and signatures.
-/
namespace DigitalBits.Ledger
open List

variable (crypto : Crypto)

/-- The weight of a list of signers. -/
def SignatureChecker.totalWeight (c : SignatureChecker) (signers : List Signer) : ℕ :=
  (signers.map c.weight).sum

/-! ## Signers that name the transaction -/

namespace SignatureChecker
variable (c : SignatureChecker) (neededWeight : ℕ)

/-- A stage that was given the weight `before` and found the signers `found`: it says whether
they were enough, and goes on with their weight if they were not. -/
structure Stage (before : ℕ) (found : List Signer) (enough : Bool) (after : ℕ) : Prop where
  enough_iff : enough = true ↔ found ≠ [] ∧ neededWeight ≤ before + c.totalWeight found
  weight : enough = false → after = before + c.totalWeight found

variable {c neededWeight}

theorem Stage.nothing (before : ℕ) : c.Stage neededWeight before [] false before :=
  ⟨by simp, fun _ => rfl⟩

/-- The first signer that is found is enough. -/
theorem Stage.first {before : ℕ} {signer : Signer} {found : List Signer}
    (h : neededWeight ≤ before + c.weight signer) :
    c.Stage neededWeight before (signer :: found) true (before + c.weight signer) := by
  refine ⟨⟨fun _ => ⟨nofun, ?_⟩, fun _ => rfl⟩, nofun⟩
  rw [totalWeight, map_cons, sum_cons]
  omega

/-- It is not, and the stage goes on. -/
theorem Stage.next {before after : ℕ} {signer : Signer} {found : List Signer} {enough : Bool}
    (hless : ¬ neededWeight ≤ before + c.weight signer)
    (h : c.Stage neededWeight (before + c.weight signer) found enough after) :
    c.Stage neededWeight before (signer :: found) enough after := by
  have hsum : before + c.totalWeight (signer :: found) =
      before + c.weight signer + c.totalWeight found := by
    rw [totalWeight, map_cons, sum_cons, totalWeight, add_assoc]
  refine ⟨?_, fun henough => (h.weight henough).trans hsum.symm⟩
  rw [h.enough_iff, hsum]
  refine ⟨fun hfound => ⟨nofun, hfound.2⟩, fun hfound => ⟨fun hnil => hless ?_, hfound.2⟩⟩
  rw [hnil] at hfound
  exact hfound.2

/-- The order in which the signers are found does not matter. -/
theorem Stage.perm {before after : ℕ} {found found' : List Signer} {enough : Bool}
    (h : c.Stage neededWeight before found enough after) (hperm : found.Perm found') :
    c.Stage neededWeight before found' enough after := by
  have hsum : c.totalWeight found = c.totalWeight found' := (hperm.map c.weight).sum_eq
  refine ⟨?_, fun henough => hsum ▸ h.weight henough⟩
  rw [h.enough_iff, hsum, ne_eq, ← length_eq_zero_iff, hperm.length_eq, length_eq_zero_iff]

/-- A stage that was enough is so with whatever a later one would find. -/
theorem Stage.enough {before mid : ℕ} {found : List Signer}
    (h : c.Stage neededWeight before found true mid) (found' : List Signer) (after : ℕ) :
    c.Stage neededWeight before (found ++ found') true after := by
  obtain ⟨hne, hle⟩ := h.enough_iff.mp rfl
  refine ⟨⟨fun _ => ⟨by simp [hne], ?_⟩, fun _ => rfl⟩, nofun⟩
  rw [totalWeight, map_append, sum_append]
  exact hle.trans (by rw [totalWeight]; omega)

/-- A stage that was not enough is followed by the next one. -/
theorem Stage.andThen {before mid after : ℕ} {found found' : List Signer} {enough : Bool}
    (h : c.Stage neededWeight before found false mid)
    (h' : c.Stage neededWeight mid found' enough after) :
    c.Stage neededWeight before (found ++ found') enough after := by
  have hmid := h.weight rfl
  have hsum : before + c.totalWeight (found ++ found') = mid + c.totalWeight found' := by
    rw [hmid, totalWeight, map_append, sum_append, totalWeight, totalWeight, add_assoc]
  refine ⟨?_, fun henough => (h'.weight henough).trans hsum.symm⟩
  rw [h'.enough_iff, hsum]
  refine ⟨fun hfound => ⟨by simp [hfound.1], hfound.2⟩, fun hfound => ⟨fun hnil => ?_, hfound.2⟩⟩
  -- nothing more was found, so the first stage had been enough
  subst hnil
  have hbefore : found ≠ [] ∧ neededWeight ≤ before + c.totalWeight found := by
    simpa [totalWeight, hmid] using hfound
  exact Bool.false_ne_true (h.enough_iff.mpr hbefore)

/-- The signers that name the transaction itself. -/
theorem addPreAuthTx_stage (signers : List Signer) (before : ℕ) :
    c.Stage neededWeight before
      (signers.filter fun signer => signer.key = .preAuthTx c.mContentsHash)
      (c.addPreAuthTx neededWeight signers before).1
      (c.addPreAuthTx neededWeight signers before).2 := by
  induction signers generalizing before with
  | nil => exact .nothing before
  | cons signer signers ih =>
    unfold addPreAuthTx
    by_cases hkey : signer.key = .preAuthTx c.mContentsHash
    · rw [if_pos hkey, filter_cons_of_pos (by simpa using hkey)]
      by_cases henough : neededWeight ≤ before + c.weight signer
      · simp only [if_pos henough]
        exact .first henough
      · simp only [if_neg henough]
        exact .next henough (ih _)
    · rw [if_neg hkey, filter_cons_of_neg (by simpa using hkey)]
      exact ih before

/-! ## Signers whose signature is there -/

/-- No signature belongs to two of the signers. -/
def OneSigner (verify : DecoratedSignature → Signer → Bool) (sigs : List DecoratedSignature)
    (signers : List Signer) : Prop :=
  ∀ sig ∈ sigs, ∀ a ∈ signers, ∀ b ∈ signers, verify sig a → verify sig b → a = b

/-- The checker erases the signer that it found. -/
theorem eraseP_eq_erase {p : Signer → Bool} {signers : List Signer} {signer : Signer}
    (hp : p signer = true) (honly : ∀ a ∈ signers, p a = true → a = signer) :
    signers.eraseP p = signers.erase signer := by
  induction signers with
  | nil => rfl
  | cons a signers ih =>
    by_cases ha : p a = true
    · obtain rfl := honly a mem_cons_self ha
      rw [eraseP_cons_of_pos ha, erase_cons_head]
    · have hne : a ≠ signer := fun h => ha (h ▸ hp)
      rw [eraseP_cons_of_neg ha, erase_cons_tail (by simpa using hne),
        ih fun b hb => honly b (mem_cons_of_mem _ hb)]

/-- Taking the owner of a signature off the list leaves the others that match. -/
theorem filter_any_perm {verify : DecoratedSignature → Signer → Bool} {sig : DecoratedSignature}
    {sigs : List DecoratedSignature} {signers : List Signer} {signer : Signer}
    (hnodup : signers.Nodup) (hone : OneSigner verify (sig :: sigs) signers)
    (hmem : signer ∈ signers) (hverify : verify sig signer = true) :
    (signer :: (signers.erase signer).filter fun a => sigs.any (verify · a)).Perm
      (signers.filter fun a => (sig :: sigs).any (verify · a)) := by
  have hothers : (signers.erase signer).filter (fun a => (sig :: sigs).any (verify · a)) =
      (signers.erase signer).filter fun a => sigs.any (verify · a) := by
    refine filter_congr fun a ha => ?_
    obtain ⟨hne, ha⟩ := hnodup.mem_erase_iff.mp ha
    have hfalse : verify sig a = false := by
      by_contra htrue
      exact hne (hone sig mem_cons_self a ha signer hmem (Bool.eq_true_of_not_eq_false htrue)
        hverify)
    rw [any_cons, hfalse, Bool.false_or]
  have hperm := (perm_cons_erase hmem).filter fun a => (sig :: sigs).any (verify · a)
  rw [filter_cons_of_pos (by simp [hverify]), hothers] at hperm
  exact hperm.symm

theorem verifyAll_stage {verify : DecoratedSignature → Signer → Bool}
    (sigs : List DecoratedSignature) (i : ℕ) (signers : List Signer) (before : ℕ)
    (used : List Bool) (hnodup : signers.Nodup) (hone : OneSigner verify sigs signers) :
    c.Stage neededWeight before (signers.filter fun a => sigs.any (verify · a))
      (c.verifyAll verify neededWeight sigs i signers before used).1
      (c.verifyAll verify neededWeight sigs i signers before used).2.1 := by
  induction sigs generalizing i signers before used with
  | nil =>
    simpa [verifyAll] using Stage.nothing before
  | cons sig sigs ih =>
    have hone' : OneSigner verify sigs signers :=
      fun sig' h => hone sig' (mem_cons_of_mem _ h)
    unfold verifyAll
    cases hfind : signers.find? (verify sig) with
    | none =>
      have hsame : signers.filter (fun a => (sig :: sigs).any (verify · a)) =
          signers.filter fun a => sigs.any (verify · a) := by
        refine filter_congr fun a ha => ?_
        have hfalse := find?_eq_none.mp hfind a ha
        rw [any_cons, Bool.eq_false_iff.mpr hfalse, Bool.false_or]
      rw [hsame]
      exact ih (i + 1) signers before used hnodup hone'
    | some signer =>
      have hverify : verify sig signer = true := find?_some hfind
      have hmem : signer ∈ signers := mem_of_find?_eq_some hfind
      have hperm := filter_any_perm hnodup hone hmem hverify
      by_cases henough : neededWeight ≤ before + c.weight signer
      · simp only [if_pos henough]
        exact (Stage.first henough).perm hperm
      · simp only [if_neg henough]
        rw [eraseP_eq_erase hverify fun a ha h => hone sig mem_cons_self a ha signer hmem h
          hverify]
        refine (Stage.next henough (ih (i + 1) _ _ _ (hnodup.erase signer) ?_)).perm hperm
        intro sig' hsig a ha b hb
        exact hone' sig' hsig a (mem_of_mem_erase ha) b (mem_of_mem_erase hb)

/-! ## The whole check -/

variable (c) in
/-- The signer names the transaction or its signature is there. -/
def Matches (signer : Signer) : Prop :=
  signer.key = .preAuthTx c.mContentsHash ∨
    (signer.key.type = 2 ∧ ∃ sig ∈ c.mSignatures, crypto.verifyHashX sig signer.key) ∨
    (signer.key.type = 0 ∧ ∃ sig ∈ c.mSignatures, crypto.verify sig signer.key c.mContentsHash)

instance (signer : Signer) : Decidable (c.Matches crypto signer) :=
  inferInstanceAs (Decidable (_ ∨ _))

variable (c) in
/-- A signature verifies for at most one signer of each type of key. -/
structure VerifiesOnce (signers : List Signer) : Prop where
  hashX : OneSigner (fun sig signer => crypto.verifyHashX sig signer.key) c.mSignatures
    (signers.filter (·.key.type = 2))
  ed25519 : OneSigner (fun sig signer => crypto.verify sig signer.key c.mContentsHash)
    c.mSignatures (signers.filter (·.key.type = 0))

/-- Two filters that have nothing in common. -/
theorem filter_or_perm {p q : Signer → Bool} (hdisj : ∀ a, p a = true → q a = false)
    (signers : List Signer) :
    (signers.filter p ++ signers.filter q).Perm (signers.filter fun a => p a || q a) := by
  have hleft : (signers.filter fun a => p a || q a).filter p = signers.filter p := by
    rw [filter_filter]
    exact filter_congr fun a _ => by cases p a <;> rfl
  have hright : (signers.filter fun a => p a || q a).filter (fun a => !p a) = signers.filter q := by
    rw [filter_filter]
    refine filter_congr fun a _ => ?_
    cases hp : p a
    · rfl
    · simp [hdisj a hp]
  have hperm := filter_append_perm p (signers.filter fun a => p a || q a)
  rwa [hleft, hright] at hperm

/-- The three stages find the signers that match, each of them once. -/
theorem found_perm (signers : List Signer) :
    (((signers.filter (·.key.type = 1)).filter fun a => a.key = .preAuthTx c.mContentsHash) ++
      (((signers.filter (·.key.type = 2)).filter fun a =>
        c.mSignatures.any fun sig => crypto.verifyHashX sig a.key) ++
      (signers.filter (·.key.type = 0)).filter fun a =>
        c.mSignatures.any fun sig => crypto.verify sig a.key c.mContentsHash)).Perm
      (signers.filter fun a => c.Matches crypto a) := by
  rw [filter_filter, filter_filter, filter_filter]
  refine ((filter_or_perm ?_ signers).append_left _).trans ((filter_or_perm ?_ signers).trans ?_)
  · intro a ha
    have htype : a.key.type = 2 := (Bool.and_eq_true_iff.mp ha).2 |> of_decide_eq_true
    simp [htype]
  · intro a ha
    have htype : a.key.type = 1 := (by simpa using ha : _ ∧ _).2
    simp [htype]
  · refine .of_eq (filter_congr fun a _ => ?_)
    rw [Bool.eq_iff_iff, decide_eq_true_iff]
    simp only [Bool.or_eq_true, Bool.and_eq_true, decide_eq_true_eq, any_eq_true, Matches]
    constructor
    · rintro (⟨hkey, -⟩ | ⟨hverify, htype⟩ | ⟨hverify, htype⟩)
      · exact .inl hkey
      · exact .inr (.inl ⟨htype, hverify⟩)
      · exact .inr (.inr ⟨htype, hverify⟩)
    · rintro (hkey | ⟨htype, hverify⟩ | ⟨htype, hverify⟩)
      · exact .inl ⟨hkey, by rw [hkey]; rfl⟩
      · exact .inr (.inl ⟨hverify, htype⟩)
      · exact .inr (.inr ⟨hverify, htype⟩)

/-- The verdict, for the signers that match. -/
theorem checkSignature_stage (hversion : c.mProtocolVersion ≠ 7) {signers : List Signer}
    (hnodup : signers.Nodup) (honce : c.VerifiesOnce crypto signers) (neededWeight : ℕ) :
    ∃ after, c.Stage neededWeight 0 (signers.filter fun a => c.Matches crypto a)
      (c.checkSignature crypto signers neededWeight).1 after := by
  have hpre : c.Stage neededWeight 0 _ _ _ :=
    addPreAuthTx_stage (signers.filter (·.key.type = 1)) 0
  have hhashX (before : ℕ) : c.Stage neededWeight before _ _ _ :=
    verifyAll_stage c.mSignatures 0 (signers.filter (·.key.type = 2)) before c.mUsedSignatures
      (hnodup.filter _) honce.hashX
  have hed25519 (before : ℕ) (used : List Bool) : c.Stage neededWeight before _ _ _ :=
    verifyAll_stage c.mSignatures 0 (signers.filter (·.key.type = 0)) before used
      (hnodup.filter _) honce.ed25519
  unfold checkSignature
  rw [if_neg hversion]
  simp only
  split
  next enough =>
    rw [enough] at hpre
    exact ⟨0, (hpre.enough _ 0).perm (found_perm crypto signers)⟩
  next enough =>
    rw [Bool.not_eq_true] at enough
    rw [enough] at hpre
    split
    next enough =>
      have hsecond := hhashX (c.addPreAuthTx neededWeight (signers.filter (·.key.type = 1)) 0).2
      rw [enough] at hsecond
      exact ⟨0, (hpre.andThen (hsecond.enough _ 0)).perm (found_perm crypto signers)⟩
    next enough =>
      have hsecond := hhashX (c.addPreAuthTx neededWeight (signers.filter (·.key.type = 1)) 0).2
      rw [Bool.not_eq_true] at enough
      rw [enough] at hsecond
      exact ⟨_, (hpre.andThen (hsecond.andThen (hed25519 _ _))).perm (found_perm crypto signers)⟩

theorem totalWeight_eq (hversion : 9 < c.mProtocolVersion) (signers : List Signer) :
    c.totalWeight signers = (signers.map fun signer => min signer.weight uint8Max).sum := by
  unfold totalWeight
  congr 1
  refine map_congr_left fun signer _ => ?_
  unfold weight
  split <;> omega

/-- The verdict says whether a signer matches and those that do weigh enough. -/
theorem checkSignature_verdict {signers : List Signer} (honce : c.VerifiesOnce crypto signers)
    (hnodup : signers.Nodup) (hversion : 9 < c.mProtocolVersion) (neededWeight : ℕ) :
    (c.checkSignature crypto signers neededWeight).1 = true ↔
      (∃ signer ∈ signers, c.Matches crypto signer) ∧
        neededWeight ≤ ((signers.filter fun signer => c.Matches crypto signer).map
          fun signer => min signer.weight uint8Max).sum := by
  obtain ⟨after, hstage⟩ := checkSignature_stage crypto (by omega) hnodup honce neededWeight
  rw [hstage.enough_iff, totalWeight_eq hversion, zero_add, ne_eq, filter_eq_nil_iff]
  simp only [decide_eq_true_eq, not_forall, not_not, exists_prop]

/-- What matches depends on the set of the signatures only, and grows with it. -/
theorem Matches.mono {sigs : List DecoratedSignature} {used : List Bool} {signer : Signer}
    (hsub : c.mSignatures ⊆ sigs) (h : c.Matches crypto signer) :
    { c with mSignatures := sigs, mUsedSignatures := used }.Matches crypto signer := by
  rcases h with hkey | ⟨htype, sig, hsig, hverify⟩ | ⟨htype, sig, hsig, hverify⟩
  · exact .inl hkey
  · exact .inr (.inl ⟨htype, sig, hsub hsig, hverify⟩)
  · exact .inr (.inr ⟨htype, sig, hsub hsig, hverify⟩)

theorem VerifiesOnce.perm {sigs : List DecoratedSignature} {used : List Bool}
    {signers signers' : List Signer} (honce : c.VerifiesOnce crypto signers)
    (hsigners : signers' ⊆ signers) (hsigs : sigs ⊆ c.mSignatures) :
    { c with mSignatures := sigs, mUsedSignatures := used }.VerifiesOnce crypto signers' where
  hashX sig hsig a ha b hb :=
    honce.hashX sig (hsigs hsig) a (filter_subset _ hsigners ha) b
      (filter_subset _ hsigners hb)
  ed25519 sig hsig a ha b hb :=
    honce.ed25519 sig (hsigs hsig) a (filter_subset _ hsigners ha) b
      (filter_subset _ hsigners hb)

/-- The signatures are enough if a signer matches and all that match, each counted once, weigh
enough. The order of signers and signatures does not matter, nor which signatures have been used
before, and more signatures do not hurt. -/
theorem checkSignature_weighs (hversion : 9 < c.mProtocolVersion) {signers : List Signer}
    (hkeys : (signers.map Signer.key).Nodup) (honce : c.VerifiesOnce crypto signers)
    (neededWeight : ℕ) :
    ((c.checkSignature crypto signers neededWeight).1 = true ↔
      (∃ signer ∈ signers, c.Matches crypto signer) ∧
        neededWeight ≤ ((signers.filter fun signer => c.Matches crypto signer).map
          fun signer => min signer.weight uint8Max).sum) ∧
    (∀ sigs used signers', c.mSignatures.Perm sigs → signers.Perm signers' →
      ({ c with mSignatures := sigs, mUsedSignatures := used }.checkSignature crypto signers'
        neededWeight).1 = (c.checkSignature crypto signers neededWeight).1) ∧
    (∀ sigs used, c.mSignatures ⊆ sigs →
      { c with mSignatures := sigs, mUsedSignatures := used }.VerifiesOnce crypto signers →
      (c.checkSignature crypto signers neededWeight).1 = true →
      ({ c with mSignatures := sigs, mUsedSignatures := used }.checkSignature crypto signers
        neededWeight).1 = true) := by
  have hnodup : signers.Nodup := hkeys.of_map
  have hverdict := checkSignature_verdict crypto honce hnodup hversion neededWeight
  refine ⟨hverdict, fun sigs used signers' hsigs hsigners => ?_,
    fun sigs used hsub honce' hverified => ?_⟩
  · have honce' : { c with mSignatures := sigs, mUsedSignatures := used }.VerifiesOnce crypto signers' :=
      honce.perm crypto hsigners.symm.subset hsigs.symm.subset
    have hverdict' :=
      checkSignature_verdict crypto honce' (hsigners.nodup hnodup) hversion neededWeight
    rw [Bool.eq_iff_iff, hverdict, hverdict']
    have hiff (signer : Signer) :
        { c with mSignatures := sigs, mUsedSignatures := used }.Matches crypto signer ↔
          c.Matches crypto signer :=
      ⟨Matches.mono (c := { c with mSignatures := sigs, mUsedSignatures := used }) crypto
        hsigs.symm.subset, Matches.mono crypto hsigs.subset⟩
    have hperm := (hsigners.filter fun signer => decide (c.Matches crypto signer)).map
      fun signer => min signer.weight uint8Max
    simp only [hiff, hperm.sum_eq, hsigners.mem_iff]
  · have hverdict' := checkSignature_verdict crypto honce' hnodup hversion neededWeight
    obtain ⟨⟨signer, hmem, hmatches⟩, hweight⟩ := hverdict.mp hverified
    refine hverdict'.mpr ⟨⟨signer, hmem, hmatches.mono crypto hsub⟩, hweight.trans ?_⟩
    -- every signer that matched still does
    have hsublist : (signers.filter fun signer => c.Matches crypto signer).Sublist
        (signers.filter fun signer =>
          { c with mSignatures := sigs, mUsedSignatures := used }.Matches crypto signer) :=
      monotone_filter_right signers fun a ha =>
        decide_eq_true (Matches.mono crypto hsub (of_decide_eq_true ha))
    exact (hsublist.map _).sum_le_sum fun _ _ => Nat.zero_le _

/-- A signature verifies for the key of its own number. -/
def numberCrypto : Crypto where
  verifyHashX sig key := sig.hint = [2] && sig.signature.length = key.value.val
  verify sig key _ := sig.hint = [0] && sig.signature.length = key.value.val

/-- Two keys and a hash, of which the first key and the hash have signed. -/
theorem two_of_three_weigh :
    ((new 13 0 [⟨[0], [7]⟩, ⟨[2], [7, 7]⟩]).checkSignature numberCrypto
      [⟨.ed25519 1, 3⟩, ⟨.ed25519 2, 4⟩, ⟨.hashX 2, 300⟩] 258).1 = true := by
  have hweighs := @checkSignature_weighs numberCrypto (new 13 0 [⟨[0], [7]⟩, ⟨[2], [7, 7]⟩])
    (by decide) [⟨.ed25519 1, 3⟩, ⟨.ed25519 2, 4⟩, ⟨.hashX 2, 300⟩] (by decide)
    ⟨by unfold OneSigner; decide, by unfold OneSigner; decide⟩ 258
  exact hweighs.1.mpr (by decide)

end SignatureChecker

end DigitalBits.Ledger
