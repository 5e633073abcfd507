import DigitalBits.Scp.Types

/-!
# Base 32

`bn::encode_b32` and `bn::decode_b32` regroup bytes into characters of five bits
each and back. The encoder looks at one byte, or at the end of one and the start of
the next; the decoder skips characters it does not know. Both leave the number
unchanged that the digits stand for.
-/
namespace DigitalBits.Util
open List

abbrev Byte := Fin 256

/-- The number with the given digits, the most significant one first. -/
def bigEndian (b : ℕ) (l : List ℕ) : ℕ := Nat.ofDigits b l.reverse

@[simp] theorem bigEndian_nil (b : ℕ) : bigEndian b [] = 0 := rfl

theorem bigEndian_concat (b : ℕ) (l : List ℕ) (d : ℕ) :
    bigEndian b (l ++ [d]) = bigEndian b l * b + d := by
  rw [bigEndian, reverse_append, reverse_singleton, singleton_append,
    Nat.ofDigits_cons, bigEndian, Nat.mul_comm, Nat.add_comm]

theorem bigEndian_cons (b d : ℕ) (l : List ℕ) :
    bigEndian b (d :: l) = d * b ^ l.length + bigEndian b l := by
  rw [bigEndian, reverse_cons, Nat.ofDigits_append, Nat.ofDigits_singleton,
    length_reverse, bigEndian, Nat.mul_comm, Nat.add_comm]

theorem bigEndian_lt {b : ℕ} (hb : 1 < b) {l : List ℕ} (hl : ∀ d ∈ l, d < b) :
    bigEndian b l < b ^ l.length := by
  have hlt := Nat.ofDigits_lt_base_pow_length hb fun d hd => hl d (mem_reverse.mp hd)
  rwa [length_reverse] at hlt

/-- As many digits and the same number: the same digits. -/
theorem bigEndian_inj {b : ℕ} (hb : 1 < b) {l l' : List ℕ} (hlen : l.length = l'.length)
    (hl : ∀ d ∈ l, d < b) (hl' : ∀ d ∈ l', d < b) (h : bigEndian b l = bigEndian b l') : l = l' := by
  refine reverse_injective (Nat.ofDigits_inj_of_len_eq hb ?_ ?_ ?_ h)
  · rw [length_reverse, length_reverse, hlen]
  · exact fun d hd => hl d (mem_reverse.mp hd)
  · exact fun d hd => hl' d (mem_reverse.mp hd)

/-! ## The alphabet -/

def dictionary : List Char := "ABCDEFGHIJKLMNOPQRSTUVWXYZ234567".toList

/-- `b32_conversion_traits::encode`. -/
def encodeChar (index : ℕ) : Char := dictionary.getD index 'A'

/-- `b32_conversion_traits::decode`; `none` is `Error`. -/
def decodeChar (c : Char) : Option ℕ :=
  if 65 ≤ c.toNat ∧ c.toNat ≤ 90 then some (c.toNat - 65)
  else if 50 ≤ c.toNat ∧ c.toNat ≤ 55 then some (c.toNat - 50 + 26)
  else none

/-- `std::isspace`. -/
def isSpace (c : Char) : Bool := decide (c.toNat = 32 ∨ 9 ≤ c.toNat ∧ c.toNat ≤ 13)

/-! ## Decoding -/

/-- The variables of `decode`. -/
structure DecodeState where
  out : List Byte := []
  buffer : ℕ := 0
  outputCurrentBit : ℕ := 0

/-- What the loop does with the value of a character. -/
def decodeValue (st : DecodeState) (value : ℕ) : DecodeState :=
  let bitsInCurrentByte := min (st.outputCurrentBit + 5) 8 - st.outputCurrentBit
  if bitsInCurrentByte = 5 then
    let buffer := (st.buffer ||| value <<< (8 - st.outputCurrentBit - 5)) % 256
    if st.outputCurrentBit + 5 = 8 then ⟨st.out ++ [Fin.ofNat 256 buffer], 0, 0⟩
    else ⟨st.out, buffer, st.outputCurrentBit + 5⟩
  else
    let bitsInNextByte := 5 - bitsInCurrentByte
    ⟨st.out ++ [Fin.ofNat 256 (st.buffer ||| value >>> bitsInNextByte)],
      (value <<< (8 - bitsInNextByte)) % 256, bitsInNextByte⟩

def decodeLoop : DecodeState → List Char → DecodeState
  | st, [] => st
  | st, c :: rest =>
    if isSpace c then decodeLoop st rest
    else
      match decodeChar c with
      | none => decodeLoop st rest
      | some value => decodeLoop (decodeValue st value) rest

def decodeB32 (s : List Char) : List Byte := (decodeLoop {} s).out

/-! ## Encoding -/

/-- The mask is `~(0xff << bits_count)`. -/
def extractPartialBits (value startBit : ℕ) : ℕ :=
  (value >>> (8 - 5 - startBit)) &&& (2 ^ 5 - 1)

def extractOverlappingBits (previous next startBit : ℕ) : ℕ :=
  let bitsCountInPrevious := 8 - startBit
  let bitsCountInNext := 5 - bitsCountInPrevious
  let t1 := (previous <<< bitsCountInNext) % 256
  let t2 := (next >>> (8 - bitsCountInNext)) &&& (2 ^ bitsCountInNext - 1)
  (t1 ||| t2) &&& (2 ^ 5 - 1)

/-- The padding that fills the last group. -/
def padding (startBit : ℕ) : List Char :=
  if startBit % 8 = 0 then [] else '=' :: padding ((startBit + 5) % 8)
termination_by 3 * startBit % 8
decreasing_by
  have hcases : startBit % 8 = 1 ∨ startBit % 8 = 2 ∨ startBit % 8 = 3 ∨ startBit % 8 = 4 ∨
      startBit % 8 = 5 ∨ startBit % 8 = 6 ∨ startBit % 8 = 7 := by omega
  rcases hcases with h | h | h | h | h | h | h <;> omega

/-- The loop of `encode`; `backlog` is set while `has_backlog` is. -/
def encodeLoop (startBit : ℕ) (backlog : Option Byte) (iter : List Byte) : List Char :=
  match backlog, iter with
  | none, [] => padding startBit
  | none, b :: rest =>
    if startBit + 5 < 8 then
      encodeChar (extractPartialBits b.val startBit) :: encodeLoop (startBit + 5) none (b :: rest)
    else encodeLoop startBit (some b) rest
  | some b, iter =>
    let next := (iter.head?.map Fin.val).getD 0
    encodeChar (extractOverlappingBits b.val next startBit) ::
      encodeLoop ((startBit + 5) % 8) none iter
termination_by (2 * iter.length + backlog.toList.length, 8 - startBit)

def encodeB32 (bytes : List Byte) : List Char := encodeLoop 0 none bytes

/-! ## The checksum -/

def crc16tab : List ℕ :=
  [0x0000, 0x1021, 0x2042, 0x3063, 0x4084, 0x50a5, 0x60c6, 0x70e7, 0x8108, 0x9129, 0xa14a, 0xb16b,
    0xc18c, 0xd1ad, 0xe1ce, 0xf1ef, 0x1231, 0x0210, 0x3273, 0x2252, 0x52b5, 0x4294, 0x72f7, 0x62d6,
    0x9339, 0x8318, 0xb37b, 0xa35a, 0xd3bd, 0xc39c, 0xf3ff, 0xe3de, 0x2462, 0x3443, 0x0420, 0x1401,
    0x64e6, 0x74c7, 0x44a4, 0x5485, 0xa56a, 0xb54b, 0x8528, 0x9509, 0xe5ee, 0xf5cf, 0xc5ac, 0xd58d,
    0x3653, 0x2672, 0x1611, 0x0630, 0x76d7, 0x66f6, 0x5695, 0x46b4, 0xb75b, 0xa77a, 0x9719, 0x8738,
    0xf7df, 0xe7fe, 0xd79d, 0xc7bc, 0x48c4, 0x58e5, 0x6886, 0x78a7, 0x0840, 0x1861, 0x2802, 0x3823,
    0xc9cc, 0xd9ed, 0xe98e, 0xf9af, 0x8948, 0x9969, 0xa90a, 0xb92b, 0x5af5, 0x4ad4, 0x7ab7, 0x6a96,
    0x1a71, 0x0a50, 0x3a33, 0x2a12, 0xdbfd, 0xcbdc, 0xfbbf, 0xeb9e, 0x9b79, 0x8b58, 0xbb3b, 0xab1a,
    0x6ca6, 0x7c87, 0x4ce4, 0x5cc5, 0x2c22, 0x3c03, 0x0c60, 0x1c41, 0xedae, 0xfd8f, 0xcdec, 0xddcd,
    0xad2a, 0xbd0b, 0x8d68, 0x9d49, 0x7e97, 0x6eb6, 0x5ed5, 0x4ef4, 0x3e13, 0x2e32, 0x1e51, 0x0e70,
    0xff9f, 0xefbe, 0xdfdd, 0xcffc, 0xbf1b, 0xaf3a, 0x9f59, 0x8f78, 0x9188, 0x81a9, 0xb1ca, 0xa1eb,
    0xd10c, 0xc12d, 0xf14e, 0xe16f, 0x1080, 0x00a1, 0x30c2, 0x20e3, 0x5004, 0x4025, 0x7046, 0x6067,
    0x83b9, 0x9398, 0xa3fb, 0xb3da, 0xc33d, 0xd31c, 0xe37f, 0xf35e, 0x02b1, 0x1290, 0x22f3, 0x32d2,
    0x4235, 0x5214, 0x6277, 0x7256, 0xb5ea, 0xa5cb, 0x95a8, 0x8589, 0xf56e, 0xe54f, 0xd52c, 0xc50d,
    0x34e2, 0x24c3, 0x14a0, 0x0481, 0x7466, 0x6447, 0x5424, 0x4405, 0xa7db, 0xb7fa, 0x8799, 0x97b8,
    0xe75f, 0xf77e, 0xc71d, 0xd73c, 0x26d3, 0x36f2, 0x0691, 0x16b0, 0x6657, 0x7676, 0x4615, 0x5634,
    0xd94c, 0xc96d, 0xf90e, 0xe92f, 0x99c8, 0x89e9, 0xb98a, 0xa9ab, 0x5844, 0x4865, 0x7806, 0x6827,
    0x18c0, 0x08e1, 0x3882, 0x28a3, 0xcb7d, 0xdb5c, 0xeb3f, 0xfb1e, 0x8bf9, 0x9bd8, 0xabbb, 0xbb9a,
    0x4a75, 0x5a54, 0x6a37, 0x7a16, 0x0af1, 0x1ad0, 0x2ab3, 0x3a92, 0xfd2e, 0xed0f, 0xdd6c, 0xcd4d,
    0xbdaa, 0xad8b, 0x9de8, 0x8dc9, 0x7c26, 0x6c07, 0x5c64, 0x4c45, 0x3ca2, 0x2c83, 0x1ce0, 0x0cc1,
    0xef1f, 0xff3e, 0xcf5d, 0xdf7c, 0xaf9b, 0xbfba, 0x8fd9, 0x9ff8, 0x6e17, 0x7e36, 0x4e55, 0x5e74,
    0x2e93, 0x3eb2, 0x0ed1, 0x1ef0]

/-- One step of `crc16`. -/
def crc16Step (crc : ℕ) (b : Byte) : ℕ :=
  ((crc <<< 8) &&& 0xffff) ^^^ crc16tab.getD (((crc >>> 8) ^^^ b.val) &&& 0x00ff) 0

def crc16 (buf : List Byte) : ℕ := buf.foldl crc16Step 0

/-! ## Regrouping keeps the number -/

theorem encodeChar_decodeChar {c : Char} {v : ℕ} (h : decodeChar c = some v) :
    encodeChar v = c ∧ v < 32 := by
  have hall : ∀ k : Fin 128, ∀ v, decodeChar (Char.ofNat k.val) = some v →
      encodeChar v = Char.ofNat k.val ∧ v < 32 := by
    intro k v hv
    have hsome : ∀ k : Fin 128, ∀ v ∈ decodeChar (Char.ofNat k.val),
        encodeChar v = Char.ofNat k.val ∧ v < 32 := by decide +kernel
    exact hsome k v hv
  have hlt : c.toNat < 128 := by
    unfold decodeChar at h
    split_ifs at h with h1 h2
    · omega
    · omega
  have hc : Char.ofNat c.toNat = c := Char.ofNat_toNat c
  have hres := hall ⟨c.toNat, hlt⟩ v
  rw [hc] at hres
  exact hres h

theorem decodeChar_encodeChar {v : ℕ} (h : v < 32) :
    decodeChar (encodeChar v) = some v ∧ isSpace (encodeChar v) = false := by
  have hall : ∀ k : Fin 32,
      decodeChar (encodeChar k.val) = some k.val ∧ isSpace (encodeChar k.val) = false := by
    decide +kernel
  exact hall ⟨v, h⟩

/-- The values of the characters that are not skipped. -/
def charValues (s : List Char) : List ℕ := s.filterMap decodeChar

theorem decodeLoop_eq (s : List Char) (st : DecodeState) :
    decodeLoop st s = (charValues s).foldl decodeValue st := by
  induction s generalizing st with
  | nil => rfl
  | cons c s ih =>
    rw [decodeLoop, charValues, filterMap_cons]
    cases hc : decodeChar c with
    | none =>
      split
      · exact ih st
      · exact ih st
    | some v =>
      have hspace : isSpace c = false := by
        rw [← (encodeChar_decodeChar hc).1]
        exact (decodeChar_encodeChar (encodeChar_decodeChar hc).2).2
      rw [hspace, if_neg Bool.false_ne_true]
      exact ih _

private theorem or_eq_add {B k x : ℕ} (h : x < 2 ^ k) : (B * 2 ^ k ||| x) = B * 2 ^ k + x := by
  rw [Nat.mul_comm, Nat.two_pow_add_eq_or_of_lt h]

section Step
variable {out : List Byte} {B v cur : ℕ}

theorem decodeValue_fits (hcur : cur < 3) (hB : B < 2 ^ cur) (hv : v < 32) :
    decodeValue ⟨out, B * 2 ^ (8 - cur), cur⟩ v =
      ⟨out, (B * 32 + v) * 2 ^ (8 - (cur + 5)), cur + 5⟩ := by
  have hmin : min (cur + 5) 8 - cur = 5 := by omega
  have hshift : v * 2 ^ (8 - cur - 5) < 2 ^ (8 - cur) := by interval_cases cur <;> omega
  rw [decodeValue]
  dsimp only
  rw [if_pos hmin, if_neg (by omega), Nat.shiftLeft_eq, or_eq_add hshift]
  congr 1
  interval_cases cur <;> omega

theorem decodeValue_fills (hB : B < 8) (hv : v < 32) :
    decodeValue ⟨out, B * 2 ^ 5, 3⟩ v = ⟨out ++ [Fin.ofNat 256 (B * 32 + v)], 0, 0⟩ := by
  have hshift : v * 2 ^ (8 - 3 - 5) < 2 ^ 5 := by omega
  rw [decodeValue]
  dsimp only
  have hbyte : (B * 2 ^ 5 + v * 2 ^ (8 - 3 - 5)) % 256 = B * 32 + v := by omega
  rw [if_pos (by decide), if_pos (by decide), Nat.shiftLeft_eq, or_eq_add hshift, hbyte]

theorem decodeValue_spans (hcur : 3 < cur) (hcur' : cur < 8) (hB : B < 2 ^ cur) (hv : v < 32) :
    decodeValue ⟨out, B * 2 ^ (8 - cur), cur⟩ v =
      ⟨out ++ [Fin.ofNat 256 (B * 2 ^ (8 - cur) + v / 2 ^ (cur - 3))],
        v % 2 ^ (cur - 3) * 2 ^ (8 - (cur - 3)), cur - 3⟩ := by
  have hmin : min (cur + 5) 8 - cur ≠ 5 := by omega
  have hnext : 5 - (min (cur + 5) 8 - cur) = cur - 3 := by omega
  have hshift : v / 2 ^ (cur - 3) < 2 ^ (8 - cur) := by interval_cases cur <;> omega
  rw [decodeValue]
  dsimp only
  rw [if_neg hmin, hnext, Nat.shiftRight_eq_div_pow, or_eq_add hshift, Nat.shiftLeft_eq]
  congr 1
  interval_cases cur <;> omega

end Step

/-- What was written, followed by the bits in the buffer, is the number read so far. -/
structure Decoded (vs : List ℕ) (st : DecodeState) : Prop where
  bit_lt : st.outputCurrentBit < 8
  length : 8 * st.out.length + st.outputCurrentBit = 5 * vs.length
  number : ∃ B < 2 ^ st.outputCurrentBit, st.buffer = B * 2 ^ (8 - st.outputCurrentBit) ∧
    bigEndian 256 (st.out.map Fin.val) * 2 ^ st.outputCurrentBit + B = bigEndian 32 vs

theorem Decoded.step {vs : List ℕ} {st : DecodeState} {v : ℕ} (h : Decoded vs st) (hv : v < 32) :
    Decoded (vs ++ [v]) (decodeValue st v) := by
  obtain ⟨hbit, hlen, B, hB, hbuffer, hnumber⟩ := h
  obtain ⟨out, buffer, cur⟩ := st
  dsimp only at *
  subst hbuffer
  have hnumber' := bigEndian_concat 32 vs v
  rw [← hnumber] at hnumber'
  have hlen' : (vs ++ [v]).length = vs.length + 1 := by simp
  -- The byte that is written is not cut off.
  have hpush : ∀ x, x < 256 → bigEndian 256 ((out ++ [Fin.ofNat 256 x]).map Fin.val) =
      bigEndian 256 (out.map Fin.val) * 256 + x := by
    intro x hx
    rw [map_append, map_singleton, bigEndian_concat, Fin.val_ofNat, Nat.mod_eq_of_lt hx]
  rcases lt_trichotomy cur 3 with hcur | hcur | hcur
  · rw [decodeValue_fits hcur hB hv]
    refine ⟨by dsimp only; omega, by dsimp only; omega, B * 32 + v, ?_, rfl, ?_⟩
    · dsimp only
      interval_cases cur <;> omega
    · rw [hnumber']
      ring
  · subst hcur
    rw [decodeValue_fills hB hv]
    refine ⟨Nat.zero_lt_succ 7, ?_, 0, Nat.two_pow_pos _, rfl, ?_⟩
    · rw [length_append, length_singleton, hlen']
      dsimp only
      omega
    · rw [hpush _ (by omega), hnumber']
      ring
  · rw [decodeValue_spans hcur hbit hB hv]
    refine ⟨by dsimp only; omega, ?_, v % 2 ^ (cur - 3), ?_, rfl, ?_⟩
    · rw [length_append, length_singleton, hlen']
      dsimp only
      omega
    · exact Nat.mod_lt _ (Nat.two_pow_pos _)
    · have hbyte : B * 2 ^ (8 - cur) + v / 2 ^ (cur - 3) < 256 := by
        interval_cases cur <;> omega
      rw [hpush _ hbyte, hnumber']
      dsimp only
      generalize bigEndian 256 (out.map Fin.val) = N
      interval_cases cur <;> omega

theorem decodeB32_decoded (s : List Char) : Decoded (charValues s) (decodeLoop {} s) := by
  have hfold : ∀ (l vs : List ℕ) (st : DecodeState), (∀ v ∈ l, v < 32) → Decoded vs st →
      Decoded (vs ++ l) (l.foldl decodeValue st) := by
    intro l
    induction l with
    | nil =>
      intro vs st _ h
      rwa [append_nil]
    | cons v l ih =>
      intro vs st hl h
      rw [append_cons, foldl_cons]
      exact ih _ _ (fun w hw => hl w (mem_cons_of_mem _ hw))
        (h.step (hl v mem_cons_self))
  rw [decodeLoop_eq]
  refine hfold (charValues s) [] {} ?_ ⟨by decide, rfl, 0, by decide, rfl, rfl⟩
  intro v hv
  obtain ⟨c, -, hc⟩ := mem_filterMap.mp hv
  exact (encodeChar_decodeChar hc).2

/-! ## Encoding keeps the number -/

/-- The first of the five-bit groups that a number of `R` bits has. -/
theorem leading_group {X R : ℕ} (hR : 5 ≤ R) :
    X % 2 ^ R / 2 ^ (R - 5) = X / 2 ^ (R - 5) % 32 := by
  have hpow : 2 ^ R = 2 ^ (R - 5) * 32 := by
    rw [show (32 : ℕ) = 2 ^ 5 by rfl, ← pow_add, Nat.sub_add_cancel hR]
  rw [hpow, Nat.mod_mul_right_div_self]

theorem extractPartialBits_eq {b startBit : ℕ} (rest : List ℕ) (hstart : startBit ≤ 2)
    (hrest : ∀ d ∈ rest, d < 256) :
    extractPartialBits b startBit =
      bigEndian 256 (b :: rest) / 2 ^ (8 * (rest.length + 1) - startBit - 5) % 32 := by
  have hlt := bigEndian_lt (by decide) hrest
  have hexp : 8 * (rest.length + 1) - startBit - 5 = 8 * rest.length + (3 - startBit) := by omega
  rw [extractPartialBits, Nat.and_two_pow_sub_one_eq_mod, Nat.shiftRight_eq_div_pow,
    bigEndian_cons, hexp, pow_add, pow_mul, ← Nat.div_div_eq_div_mul,
    show (2 : ℕ) ^ 8 = 256 by rfl, Nat.add_comm, Nat.add_mul_div_right _ _ (by positivity),
    Nat.div_eq_of_lt hlt, Nat.zero_add]

theorem extractOverlappingBits_value {b next startBit : ℕ} (hnext : next < 256)
    (hstart : 3 ≤ startBit) (hstart' : startBit < 8) :
    extractOverlappingBits b next startBit =
      (b * 2 ^ (startBit - 3) + next / 2 ^ (11 - startBit)) % 32 := by
  have hcount : 5 - (8 - startBit) = startBit - 3 := by omega
  have hcount' : 8 - (startBit - 3) = 11 - startBit := by omega
  have ht1 : b * 2 ^ (startBit - 3) % 256 = b % 2 ^ (11 - startBit) * 2 ^ (startBit - 3) := by
    interval_cases startBit <;> omega
  have ht2 : next / 2 ^ (11 - startBit) < 2 ^ (startBit - 3) := by
    interval_cases startBit <;> omega
  rw [extractOverlappingBits, hcount, hcount', Nat.shiftLeft_eq, Nat.shiftRight_eq_div_pow, Nat.and_two_pow_sub_one_eq_mod,
    Nat.and_two_pow_sub_one_eq_mod, ht1, Nat.mod_eq_of_lt ht2, or_eq_add ht2]
  interval_cases startBit <;> omega

theorem extractOverlappingBits_eq {b startBit : ℕ} (iter : List ℕ)
    (hstart : 3 ≤ startBit) (hstart' : startBit < 8) (hiter : ∀ d ∈ iter, d < 256)
    (hbits : startBit + 5 ≤ 8 * (iter.length + 1)) :
    extractOverlappingBits b (iter.head?.getD 0) startBit =
      bigEndian 256 (b :: iter) / 2 ^ (8 * (iter.length + 1) - startBit - 5) % 32 := by
  cases iter with
  | nil =>
    rw [length_nil] at hbits
    obtain rfl : startBit = 3 := by omega
    rw [head?_nil, Option.getD_none, extractOverlappingBits_value (by decide) le_rfl (by decide),
      bigEndian_cons]
    simp
  | cons next rest =>
    have hnext := hiter next mem_cons_self
    have hlt := bigEndian_lt (by decide) fun d hd => hiter d (mem_cons_of_mem next hd)
    have hexp : 8 * ((next :: rest).length + 1) - startBit - 5 =
        8 * rest.length + (11 - startBit) := by
      rw [length_cons]
      omega
    have hnumber : bigEndian 256 (b :: next :: rest) =
        bigEndian 256 rest + (b * 256 + next) * 256 ^ rest.length := by
      rw [bigEndian_cons, bigEndian_cons, length_cons, pow_succ]
      ring
    rw [head?_cons, Option.getD_some, extractOverlappingBits_value hnext hstart hstart',
      hnumber, hexp, pow_add, pow_mul, ← Nat.div_div_eq_div_mul, show (2 : ℕ) ^ 8 = 256 by rfl,
      Nat.add_mul_div_right _ _ (by positivity), Nat.div_eq_of_lt hlt, Nat.zero_add]
    interval_cases startBit <;> omega

/-- The groups of the last `R` bits of a number. -/
structure Groups (vs : List ℕ) (X R : ℕ) : Prop where
  lt : ∀ v ∈ vs, v < 32
  length : 5 * vs.length = R
  number : bigEndian 32 vs = X % 2 ^ R

theorem Groups.cons {vs : List ℕ} {X R v : ℕ} (h : Groups vs X (R - 5)) (hR : 5 ≤ R)
    (hv : v = X / 2 ^ (R - 5) % 32) : Groups (v :: vs) X R where
  lt := forall_mem_cons.mpr ⟨by omega, h.lt⟩
  length := by
    have hlen := h.length
    rw [length_cons]
    omega
  number := by
    have hpow : 32 ^ vs.length = 2 ^ (R - 5) := by
      rw [← h.length, pow_mul]
      rfl
    have hmod : X % 2 ^ (R - 5) = X % 2 ^ R % 2 ^ (R - 5) :=
      (Nat.mod_mod_of_dvd X (pow_dvd_pow 2 (Nat.sub_le R 5))).symm
    rw [bigEndian_cons, hpow, h.number, hv, ← leading_group hR, hmod, Nat.mul_comm]
    exact Nat.div_add_mod _ _

/-- A byte that is done with has no part in the bits after it. -/
theorem Groups.of_tail {vs digits : List ℕ} {R : ℕ} (b : ℕ) (h : Groups vs (bigEndian 256 digits) R)
    (hR : R ≤ 8 * digits.length) : Groups vs (bigEndian 256 (b :: digits)) R where
  lt := h.lt
  length := h.length
  number := by
    obtain ⟨q, hq⟩ : 2 ^ R ∣ 256 ^ digits.length := by
      have hpow : (256 : ℕ) ^ digits.length = 2 ^ (8 * digits.length) := (pow_mul 2 8 _).symm
      rw [hpow]
      exact pow_dvd_pow 2 hR
    rw [h.number, bigEndian_cons, hq, Nat.mul_left_comm, Nat.mul_add_mod]

/-- The characters that the loop writes are the groups of the bits that are left. -/
theorem encodeLoop_groups (startBit : ℕ) (backlog : Option Byte) (iter : List Byte) {R : ℕ}
    (hR : R + startBit = 8 * (backlog.toList ++ iter).length) (hdvd : 5 ∣ R) (hstart : startBit < 8)
    (hback : backlog.isSome = true → 3 ≤ startBit) :
    ∃ vs : List ℕ, encodeLoop startBit backlog iter = vs.map encodeChar ∧
      Groups vs (bigEndian 256 ((backlog.toList ++ iter).map Fin.val)) R := by
  fun_induction encodeLoop startBit backlog iter generalizing R with
  | case1 startBit =>
    obtain rfl : startBit = 0 := by simp at hR; omega
    obtain rfl : R = 0 := by simpa using hR
    exact ⟨[], by rw [padding]; rfl, by simp, rfl, rfl⟩
  | case2 startBit b rest hfits ih =>
    have hlen : (Option.toList (none : Option Byte) ++ b :: rest).length = rest.length + 1 := rfl
    rw [hlen] at hR ih
    obtain ⟨k, rfl⟩ := hdvd
    obtain ⟨vs, hvs, hgroups⟩ := ih (R := 5 * k - 5) (by omega) (by omega) (by omega) (by simp)
    have hv := extractPartialBits_eq (b := b.val) (rest.map Fin.val) (by omega : startBit ≤ 2)
      (by simp)
    rw [length_map, ← hR, Nat.add_sub_cancel] at hv
    exact ⟨_ :: vs, by rw [map_cons, hvs], hgroups.cons (by omega) hv⟩
  | case3 startBit b rest hfits ih => exact ih hR hdvd hstart fun _ => by omega
  | case4 startBit b iter next =>
    rename_i ih
    have hstart3 := hback rfl
    have hlen : (Option.toList (some b) ++ iter).length = iter.length + 1 := rfl
    have hnil : (Option.toList (none : Option Byte) ++ iter).length = iter.length := rfl
    rw [hlen] at hR
    obtain ⟨k, rfl⟩ := hdvd
    obtain ⟨vs, hvs, hgroups⟩ := ih (R := 5 * k - 5) (by omega) (by omega) (by omega) (by simp)
    have hv := extractOverlappingBits_eq (b := b.val) (iter.map Fin.val) hstart3 hstart
      (by simp) (by rw [length_map]; omega)
    rw [length_map, ← hR, Nat.add_sub_cancel, head?_map] at hv
    refine ⟨_ :: vs, by rw [map_cons, hvs], (hgroups.of_tail b.val ?_).cons (by omega) hv⟩
    rw [Option.toList_none, nil_append, length_map]
    omega

/-- The characters of a whole number of groups. -/
theorem encodeB32_groups {bytes : List Byte} (h : 5 ∣ bytes.length) :
    ∃ vs : List ℕ, encodeB32 bytes = vs.map encodeChar ∧ (∀ v ∈ vs, v < 32) ∧
      5 * vs.length = 8 * bytes.length ∧
      bigEndian 32 vs = bigEndian 256 (bytes.map Fin.val) := by
  obtain ⟨vs, hvs, hlt, hlen, hnumber⟩ := encodeLoop_groups 0 none bytes (R := 8 * bytes.length) rfl
    (h.mul_left 8) (by decide) (by simp)
  refine ⟨vs, hvs, hlt, hlen, hnumber.trans (Nat.mod_eq_of_lt ?_)⟩
  rw [pow_mul, ← length_map (f := Fin.val)]
  exact bigEndian_lt (by decide) (by simp)

theorem charValues_map {vs : List ℕ} (h : ∀ v ∈ vs, v < 32) :
    charValues (vs.map encodeChar) = vs := by
  induction vs with
  | nil => rfl
  | cons v vs ih =>
    rw [forall_mem_cons] at h
    rw [map_cons, charValues, filterMap_cons_some (decodeChar_encodeChar h.1).1,
      ← charValues, ih h.2]

/-- Decoding a whole number of groups loses nothing. -/
theorem decodeB32_number {s : List Char} (h : 8 ∣ (charValues s).length) :
    8 * (decodeB32 s).length = 5 * (charValues s).length ∧
    bigEndian 256 ((decodeB32 s).map Fin.val) = bigEndian 32 (charValues s) := by
  obtain ⟨hbit, hlen, B, hB, -, hnumber⟩ := decodeB32_decoded s
  have hzero : (decodeLoop {} s).outputCurrentBit = 0 := by omega
  rw [hzero] at hlen hB hnumber
  obtain rfl : B = 0 := by simpa using hB
  refine ⟨hlen, ?_⟩
  rw [decodeB32]
  simpa using hnumber

theorem decodeB32_encodeB32 {bytes : List Byte} (h : 5 ∣ bytes.length) :
    decodeB32 (encodeB32 bytes) = bytes := by
  obtain ⟨vs, hvs, hlt, hlen, hnumber⟩ := encodeB32_groups h
  have hvals : charValues (encodeB32 bytes) = vs := by rw [hvs, charValues_map hlt]
  obtain ⟨hlen', hnumber'⟩ := decodeB32_number (s := encodeB32 bytes) (by rw [hvals]; omega)
  rw [hvals] at hlen' hnumber'
  refine map_injective_iff.mpr Fin.val_injective ?_
  refine bigEndian_inj (b := 256) (by decide) ?_ (by simp) (by simp) (hnumber'.trans hnumber)
  rw [length_map, length_map]
  omega

/-- A string that decodes to as many bytes as its length allows is what these bytes encode to: no
character was skipped. -/
theorem encodeB32_decodeB32 {s : List Char} (h8 : 8 ∣ s.length)
    (hlen : 8 * (decodeB32 s).length = 5 * s.length) : encodeB32 (decodeB32 s) = s := by
  obtain ⟨hbit, hlen', -⟩ := decodeB32_decoded s
  have hle : (charValues s).length ≤ s.length := length_filterMap_le _ _
  have hall : (charValues s).length = s.length := by
    have hout : (decodeLoop {} s).out.length = (decodeB32 s).length := rfl
    omega
  -- Every character has a value, so the values give the characters back.
  have hchars : (charValues s).map encodeChar = s := by
    have hmap : ∀ l : List Char, (charValues l).length = l.length →
        (charValues l).map encodeChar = l := by
      intro l
      induction l with
      | nil => exact fun _ => rfl
      | cons c l ih =>
        intro hl
        have hle : (charValues l).length ≤ l.length := length_filterMap_le _ _
        cases hc : decodeChar c with
        | none =>
          rw [charValues, filterMap_cons_none hc, ← charValues, length_cons] at hl
          omega
        | some v =>
          rw [charValues, filterMap_cons_some hc, ← charValues, length_cons,
            length_cons] at hl
          rw [charValues, filterMap_cons_some hc, ← charValues, map_cons,
            (encodeChar_decodeChar hc).1, ih (by omega)]
    exact hmap s hall
  obtain ⟨hlen'', hnumber⟩ := decodeB32_number (s := s) (by rw [hall]; exact h8)
  have hdvd : 5 ∣ (decodeB32 s).length := by omega
  obtain ⟨vs, hvs, hlt, hlenvs, hnumber'⟩ := encodeB32_groups hdvd
  have hvals : vs = charValues s := by
    refine bigEndian_inj (b := 32) (by decide) (by omega) hlt ?_ (hnumber'.trans hnumber)
    intro v hv
    obtain ⟨c, -, hc⟩ := mem_filterMap.mp hv
    exact (encodeChar_decodeChar hc).2
  rw [hvs, hvals, hchars]

end DigitalBits.Util
