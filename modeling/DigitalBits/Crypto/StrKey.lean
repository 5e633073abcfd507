import DigitalBits.Util.BaseN

/-!
# Keys as strings

A key is written as a version byte, its 32 bytes and a checksum, in base 32. The
version takes the upper five bits of its byte, and only these are looked at when a
string is read, so the lower three bits of the byte are free.
-/
namespace DigitalBits.Crypto
open Util List

/-! ## `StrKey` -/

namespace StrKey

def pubkeyEd25519 : ℕ := 6
def seedEd25519 : ℕ := 18
def preAuthTx : ℕ := 19
def hashX : ℕ := 23

/-- The checksum is written with its low byte first. -/
def withChecksum (bytes : List Byte) : List Byte :=
  let crc := crc16 bytes
  bytes ++ [Fin.ofNat 256 (crc &&& 0xff), Fin.ofNat 256 ((crc >>> 8) &&& 0xff)]

def toStrKey (ver : ℕ) (bin : List Byte) : List Char :=
  encodeB32 (withChecksum (Fin.ofNat 256 (ver <<< 3) :: bin))

def getStrKeySize (dataSize : ℕ) : ℕ := (dataSize + 3 + 4) / 5 * 8

/-- The version and the data, if the string can be decoded. -/
def fromStrKey (strKey : List Char) : Option (ℕ × List Byte) :=
  if strKey.length &&& 7 ≠ 0 then none
  else
    match (decodeB32 strKey).reverse with
    | hi :: lo :: rest =>
      match rest.reverse with
      | ver :: data =>
        if crc16 (ver :: data) ≠ hi.val <<< 8 ||| lo.val then none
        else some (ver.val >>> 3, data)
      | [] => none
    | _ => none

end StrKey

/-! ## `KeyUtils` -/

namespace KeyUtils

/-- The size of the data of a known version. -/
def getKeyVersionSize (keyVersion : ℕ) : Option ℕ :=
  if keyVersion = StrKey.pubkeyEd25519 ∨ keyVersion = StrKey.seedEd25519 then some 32
  else if keyVersion = StrKey.preAuthTx ∨ keyVersion = StrKey.hashX then some 32
  else none

end KeyUtils

/-- `KeyFunctions`: the versions of a kind of keys. -/
structure KeyFunctions (τ : Type) where
  getKeyTypeName : String
  getKeyVersionIsSupported : ℕ → Bool
  toKeyType : ℕ → Option τ
  toKeyVersion : τ → ℕ
  toKeyType_toKeyVersion : ∀ t, toKeyType (toKeyVersion t) = some t
  toKeyVersion_of_toKeyType : ∀ {v t}, toKeyType v = some t → toKeyVersion t = v
  supported : ∀ t, getKeyVersionIsSupported (toKeyVersion t) = true
  version_lt : ∀ t, toKeyVersion t < 32
  version_size : ∀ t, KeyUtils.getKeyVersionSize (toKeyVersion t) = some 32

inductive PublicKeyType where
  | ed25519
  deriving DecidableEq

inductive SignerKeyType where
  | ed25519
  | preAuthTx
  | hashX
  deriving DecidableEq

def publicKeyFunctions : KeyFunctions PublicKeyType where
  getKeyTypeName := "public key"
  getKeyVersionIsSupported v := decide (v = StrKey.pubkeyEd25519)
  toKeyType v := if v = StrKey.pubkeyEd25519 then some .ed25519 else none
  toKeyVersion
    | .ed25519 => StrKey.pubkeyEd25519
  toKeyType_toKeyVersion t := by cases t; rfl
  toKeyVersion_of_toKeyType {v t} h := by
    split_ifs at h with hv
    cases t
    exact hv.symm
  supported t := by cases t; rfl
  version_lt t := by cases t; decide
  version_size t := by cases t; rfl

def signerKeyFunctions : KeyFunctions SignerKeyType where
  getKeyTypeName := "signer key"
  getKeyVersionIsSupported v :=
    decide (v = StrKey.pubkeyEd25519 ∨ v = StrKey.preAuthTx ∨ v = StrKey.hashX)
  toKeyType v :=
    if v = StrKey.pubkeyEd25519 then some .ed25519
    else if v = StrKey.preAuthTx then some .preAuthTx
    else if v = StrKey.hashX then some .hashX
    else none
  toKeyVersion
    | .ed25519 => StrKey.pubkeyEd25519
    | .preAuthTx => StrKey.preAuthTx
    | .hashX => StrKey.hashX
  toKeyType_toKeyVersion t := by cases t <;> rfl
  toKeyVersion_of_toKeyType {v t} h := by
    split_ifs at h with h1 h2 h3
    · cases h
      exact h1.symm
    · cases h
      exact h2.symm
    · cases h
      exact h3.symm
  supported t := by cases t <;> rfl
  version_lt t := by cases t <;> decide
  version_size t := by cases t <;> rfl

/-- A key: its type and a `uint256`. -/
structure Key (τ : Type) where
  type : τ
  value : List Byte
  length : value.length = 32

namespace KeyUtils
variable {τ : Type} (f : KeyFunctions τ)

def toStrKey (key : Key τ) : List Char := StrKey.toStrKey (f.toKeyVersion key.type) key.value

def badKey : String := "bad " ++ f.getKeyTypeName

def fromStrKey (s : List Char) : Except String (Key τ) :=
  match StrKey.fromStrKey s with
  | none => .error (badKey f)
  | some (ver, k) =>
    if f.getKeyVersionIsSupported ver = false then .error (badKey f)
    else
      match getKeyVersionSize ver with
      | none => .error ("invalid key version: " ++ toString ver)
      | some size =>
        if k.length ≠ size ∨ s.length ≠ StrKey.getStrKeySize size then .error (badKey f)
        else
          match f.toKeyType ver with
          | none => .error ("invalid " ++ f.getKeyTypeName ++ " type")
          | some type => if h : k.length = 32 then .ok ⟨type, k, h⟩ else .error (badKey f)

end KeyUtils

/-! ## Reading what was written -/

namespace StrKey

theorem withChecksum_length (bytes : List Byte) :
    (withChecksum bytes).length = bytes.length + 2 := by
  simp [withChecksum]

private theorem crc16Step_lt (crc : ℕ) (b : Byte) : crc16Step crc b < 2 ^ 16 := by
  have htab : ∀ i : Fin 256, crc16tab.getD i.val 0 < 2 ^ 16 := by decide +kernel
  have hidx : ((crc >>> 8) ^^^ b.val) &&& 0x00ff < 256 :=
    Nat.lt_of_le_of_lt Nat.and_le_right (by decide)
  refine Nat.xor_lt_two_pow ?_ (htab ⟨_, hidx⟩)
  exact Nat.lt_of_le_of_lt Nat.and_le_right (by decide)

theorem crc16_lt (bytes : List Byte) : crc16 bytes < 2 ^ 16 := by
  rcases eq_nil_or_concat bytes with rfl | ⟨l, b, rfl⟩
  · decide
  · rw [crc16, concat_eq_append, foldl_append]
    exact crc16Step_lt _ b

/-- Two bytes that are the checksum are those that are written for it. -/
theorem checksum_iff {crc : ℕ} (hcrc : crc < 2 ^ 16) (lo hi : Byte) :
    crc = hi.val <<< 8 ||| lo.val ↔
      lo = Fin.ofNat 256 (crc &&& 0xff) ∧ hi = Fin.ofNat 256 ((crc >>> 8) &&& 0xff) := by
  have hor : (hi.val <<< 8 ||| lo.val) = hi.val * 256 + lo.val := by
    rw [← Nat.shiftLeft_add_eq_or_of_lt (i := 8) lo.isLt, Nat.shiftLeft_eq]
  have hlow : crc &&& 0xff = crc % 256 := Nat.and_two_pow_sub_one_eq_mod crc 8
  have hhigh : (crc >>> 8) &&& 0xff = crc / 256 % 256 := by
    rw [show (0xff : ℕ) = 2 ^ 8 - 1 by rfl, Nat.and_two_pow_sub_one_eq_mod,
      Nat.shiftRight_eq_div_pow]
  rw [hor, hlow, hhigh, Fin.ext_iff, Fin.ext_iff, Fin.val_ofNat, Fin.val_ofNat]
  omega

/-- What a string must decode to. -/
theorem fromStrKey_iff {s : List Char} {v : ℕ} {data : List Byte} :
    fromStrKey s = some (v, data) ↔ s.length % 8 = 0 ∧
      ∃ ver : Byte, ver.val / 8 = v ∧ decodeB32 s = withChecksum (ver :: data) := by
  have hmask : s.length &&& 7 = s.length % 8 := Nat.and_two_pow_sub_one_eq_mod s.length 3
  rw [fromStrKey, hmask]
  by_cases hlen : s.length % 8 = 0
  · rw [if_neg (not_not.mpr hlen)]
    refine Iff.trans ?_ (and_iff_right hlen).symm
    constructor
    · intro h
      split at h
      · next hi lo rest hrev =>
        split at h
        · next ver data' hrest =>
          split_ifs at h with hcrc
          obtain ⟨hver, rfl⟩ := Prod.mk.inj (Option.some.inj h)
          refine ⟨ver, by rw [← hver, Nat.shiftRight_eq_div_pow], ?_⟩
          obtain ⟨hlo, hhi⟩ := (checksum_iff (crc16_lt _) lo hi).mp (not_not.mp hcrc)
          have hdec : decodeB32 s = rest.reverse ++ [lo, hi] := by
            rw [← reverse_reverse (decodeB32 s), hrev]
            simp
          rw [hdec, hrest, withChecksum, ← hlo, ← hhi]
        · cases h
      · cases h
    · rintro ⟨ver, rfl, hdec⟩
      rw [hdec, withChecksum]
      have hcrc := (checksum_iff (crc16_lt (ver :: data)) _ _).mpr ⟨rfl, rfl⟩
      generalize Fin.ofNat 256 (crc16 (ver :: data) &&& 0xff) = lo at hcrc ⊢
      generalize Fin.ofNat 256 ((crc16 (ver :: data) >>> 8) &&& 0xff) = hi at hcrc ⊢
      have hrev : ((ver :: data) ++ [lo, hi]).reverse = hi :: lo :: (ver :: data).reverse := by
        rw [reverse_append]
        rfl
      simp only [hrev, reverse_reverse, ← hcrc, ne_eq, not_true_eq_false, if_false,
        Nat.shiftRight_eq_div_pow]
  · rw [if_pos hlen]
    simp [hlen]

end StrKey

namespace KeyUtils
variable {τ : Type} {f : KeyFunctions τ} {k : Key τ} {s : List Char}

/-- A string that is read as a key has 56 characters; it stands for the key and a version byte whose
upper bits are the version. -/
theorem fromStrKey_ok (h : fromStrKey f s = .ok k) : s.length = 56 ∧
    ∃ ver : Byte, ver.val / 8 = f.toKeyVersion k.type ∧
      s = encodeB32 (StrKey.withChecksum (ver :: k.value)) := by
  revert h
  fun_cases fromStrKey f s with
  | case6 v data hraw _ size hsize hlen type htype hdata =>
    rintro ⟨⟩
    obtain ⟨hmod, ver, hver, hdec⟩ := StrKey.fromStrKey_iff.mp hraw
    have hversion := f.toKeyVersion_of_toKeyType htype
    obtain rfl : size = 32 := by
      have heq := f.version_size type
      rw [hversion, hsize] at heq
      exact Option.some.inj heq
    have hslen : s.length = 56 := by
      by_contra hne
      exact hlen (.inr hne)
    refine ⟨hslen, ver, hver.trans hversion.symm, ?_⟩
    rw [← hdec]
    refine (encodeB32_decodeB32 (by omega) ?_).symm
    rw [hdec, StrKey.withChecksum_length, length_cons, hdata, hslen]
  | _ => rintro ⟨⟩

/-- The version byte is written with zeros below the version. -/
theorem toStrKey_eq (k : Key τ) : ∃ ver : Byte, ver.val = f.toKeyVersion k.type * 8 ∧
    toStrKey f k = encodeB32 (StrKey.withChecksum (ver :: k.value)) := by
  refine ⟨_, ?_, rfl⟩
  have hlt := f.version_lt k.type
  rw [Fin.val_ofNat, Nat.shiftLeft_eq]
  omega

theorem five_dvd_length (ver : Byte) (k : Key τ) :
    5 ∣ (StrKey.withChecksum (ver :: k.value)).length := by
  rw [StrKey.withChecksum_length, length_cons, k.length]
  decide

theorem fromStrKey_toStrKey (k : Key τ) : fromStrKey f (toStrKey f k) = .ok k := by
  obtain ⟨ver, hver, hstr⟩ := toStrKey_eq (f := f) k
  have hlen : (toStrKey f k).length = 56 := by
    obtain ⟨vs, hvs, -, hlen, -⟩ := encodeB32_groups (five_dvd_length ver k)
    rw [StrKey.withChecksum_length, length_cons, k.length] at hlen
    rw [hstr, hvs, length_map]
    omega
  have hraw : StrKey.fromStrKey (toStrKey f k) = some (f.toKeyVersion k.type, k.value) := by
    refine StrKey.fromStrKey_iff.mpr ⟨by rw [hlen], ver, by omega, ?_⟩
    rw [hstr, decodeB32_encodeB32 (five_dvd_length ver k)]
  have hsize : ¬ (k.value.length ≠ 32 ∨ (toStrKey f k).length ≠ StrKey.getStrKeySize 32) := by
    rw [k.length, hlen]
    decide
  rw [fromStrKey, hraw]
  dsimp only
  rw [f.supported, if_neg (by decide), f.version_size]
  dsimp only
  rw [if_neg hsize, f.toKeyType_toKeyVersion]
  dsimp only
  rw [dif_pos k.length]

/-- The second character has the lower bits of the version byte. -/
theorem second_char (ver : Byte) (k : Key τ) :
    (∃ c, (encodeB32 (StrKey.withChecksum (ver :: k.value)))[1]? = some c ∧ c ∈ "ABCD".toList) ↔
      ver.val % 8 = 0 := by
  have hdict : ∀ x : Fin 32, encodeChar x.val ∈ "ABCD".toList ↔ x.val < 4 := by decide +kernel
  obtain ⟨b, rest, hvalue⟩ : ∃ b rest, k.value = b :: rest := by
    cases hvalue : k.value with
    | nil =>
      have hlen := k.length
      rw [hvalue] at hlen
      cases hlen
    | cons b rest => exact ⟨b, rest, rfl⟩
  rw [hvalue, StrKey.withChecksum, cons_append, cons_append, encodeB32, encodeLoop,
    if_pos (by decide), encodeLoop, if_neg (by decide), encodeLoop]
  simp only [getElem?_cons_succ, getElem?_cons_zero, Option.some.injEq, exists_eq_left',
    head?_cons, Option.map_some, Option.getD_some]
  have hstart : 3 ≤ 5 := by decide
  have hval := extractOverlappingBits_value (b := ver.val) b.isLt hstart (by decide)
  rw [hval]
  refine (hdict ⟨_, Nat.mod_lt _ (by decide)⟩).trans ?_
  have hb := b.isLt
  dsimp only
  omega

end KeyUtils

/-- Reading gives back the key that was written. A string that is read as a key is the one that is
written for it just if its second character is one of the first four of the alphabet. -/
theorem strKey_canonical_iff {τ : Type} (f : KeyFunctions τ) :
    (∀ k : Key τ, KeyUtils.fromStrKey f (KeyUtils.toStrKey f k) = .ok k) ∧
    (∀ s k, KeyUtils.fromStrKey f s = .ok k →
      (s = KeyUtils.toStrKey f k ↔ ∃ c, s[1]? = some c ∧ c ∈ "ABCD".toList)) := by
  refine ⟨KeyUtils.fromStrKey_toStrKey, fun s k h => ?_⟩
  obtain ⟨-, ver, hver, rfl⟩ := KeyUtils.fromStrKey_ok h
  obtain ⟨ver', hver', hstr⟩ := KeyUtils.toStrKey_eq (f := f) k
  rw [KeyUtils.second_char, hstr]
  constructor
  · intro heq
    have hdec := congrArg decodeB32 heq
    rw [decodeB32_encodeB32 (KeyUtils.five_dvd_length ver k),
      decodeB32_encodeB32 (KeyUtils.five_dvd_length ver' k)] at hdec
    obtain rfl : ver = ver' := (cons.inj hdec).1
    omega
  · intro hzero
    obtain rfl : ver = ver' := Fin.ext (by omega)
    rfl

/-- The public key of 32 zero bytes. -/
def zeroKey : Key PublicKeyType := ⟨.ed25519, replicate 32 0, by simp⟩

/-- Two strings are read as the same public key; they differ in their version bytes, 48 and 49. -/
theorem zeroKey_has_two_strings :
    KeyUtils.fromStrKey publicKeyFunctions
      "GAAAAAAAAAAAAAAAAAAAAAAAAAAAAAAAAAAAAAAAAAAAAAAAAAAAAWHF".toList = .ok zeroKey ∧
    KeyUtils.fromStrKey publicKeyFunctions
      "GEAAAAAAAAAAAAAAAAAAAAAAAAAAAAAAAAAAAAAAAAAAAAAAAAAABBDI".toList = .ok zeroKey ∧
    "GAAAAAAAAAAAAAAAAAAAAAAAAAAAAAAAAAAAAAAAAAAAAAAAAAAAAWHF".toList ≠
      "GEAAAAAAAAAAAAAAAAAAAAAAAAAAAAAAAAAAAAAAAAAAAAAAAAAABBDI".toList := by
  refine ⟨?_, ?_, by decide +kernel⟩
  · have hraw : StrKey.fromStrKey
        "GAAAAAAAAAAAAAAAAAAAAAAAAAAAAAAAAAAAAAAAAAAAAAAAAAAAAWHF".toList =
          some (6, replicate 32 0) := by decide +kernel
    rw [KeyUtils.fromStrKey, hraw]
    rfl
  · have hraw : StrKey.fromStrKey
        "GEAAAAAAAAAAAAAAAAAAAAAAAAAAAAAAAAAAAAAAAAAAAAAAAAAABBDI".toList =
          some (6, replicate 32 0) := by decide +kernel
    rw [KeyUtils.fromStrKey, hraw]
    rfl

end DigitalBits.Crypto
