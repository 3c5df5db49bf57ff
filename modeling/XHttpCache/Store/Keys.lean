import XHttpCache.Support.Libc

/-!
# Store — row keys

`xDataBase::EncodeKey` and `DecodeKey` (`src/xDataBase.cpp`), with the `Decoder` of
`common/sorted_set.h`, the byte swaps of `common/util.h` and `xValue` of `src/xDataBase.h`.
Three kinds of row share one key space:

* `k|key` holds a timestamped value;
* `s|key_len|key|member_len|member` holds a member's score, as the string it was given;
* `z|key_len|key|score|:|member` holds nothing; its key orders the members of `key` by score.

The lengths are one byte each, so they are the lengths modulo 256; the score is eight bytes,
most significant first (on a little-endian machine, whose words `wordBytes` lays out).

* `encodeKey_zset_inj`, `encodeKey_zscore_inj`: over sorted-set keys of at most 255 bytes, a
  row key determines its parts.
* `decodeKey_zscore`: a score row of fewer than `2³¹` bytes decodes to its parts.  `Decoder`
  keeps the size in an `int`, so a longer row does not (`decodeKey_zscore_iff`).
* `encodeKey_zscore_lt_iff`: among the score rows of one key with scores in `[0, 2⁶³)`, the
  byte order is the order of (score, member).
* `score_keys`: the three together, for scores given in decimal.
-/

namespace XHttpCache
open Support

/-! ### Scores -/

/-- `big_endian(uint32_t)`. -/
def bigEndian32 (v : BitVec 32) : BitVec 32 :=
  (v >>> 24) ||| ((v >>> 8) &&& 0xff00#32) ||| ((v <<< 8) &&& 0xff0000#32) ||| (v <<< 24)

/-- `big_endian(uint64_t)`. -/
def bigEndian64 (v : BitVec 64) : BitVec 64 :=
  let h := (v >>> 32).setWidth 32
  let l := (v &&& 0xffffffff#64).setWidth 32
  (bigEndian32 h).setWidth 64 ||| ((bigEndian32 l).setWidth 64 <<< 32)

/-- `encode_score`. -/
def encodeScore (s : Int) : BitVec 64 := bigEndian64 (BitVec.ofInt 64 s)

/-- `decode_score`. -/
def decodeScore (s : BitVec 64) : Int := (bigEndian64 s).toInt

/-- A 64-bit word in the memory of a little-endian machine. -/
def wordBytes (v : BitVec 64) : Bytes := leBytes 8 v.toNat

/-- `str_to_int64`; its callers ignore the `errno` it sets. -/
def strToInt64 (s : Bytes) : Int := strtoll s

theorem strToInt64_isI64 (s : Bytes) : IsI64 (strToInt64 s) := strtoll_isI64 s

/-- `str`. -/
def str (v : Int) : Bytes := snprintf 21 (decimal v)

/-! ### Row keys -/

namespace DataTypeFlag

/-- `'k'`. -/
def KV : Byte := 107

/-- `'s'`. -/
def ZSET : Byte := 115

/-- `'z'`. -/
def ZSCORE : Byte := 122

end DataTypeFlag

/-- The arguments of a call of `EncodeKey`: `K_STRING`, `K_ZSET` or `K_ZSCORE`, each with the
fields it reads. -/
inductive RowKey where
  | string (key : Bytes)
  | zset (key filed : Bytes)
  | zscore (key filed score : Bytes)

/-- `xDataBase::EncodeKey`. -/
def encodeKey : RowKey → Bytes
  | .string key => DataTypeFlag.KV :: key
  | .zset key filed =>
      DataTypeFlag.ZSET :: Fin.ofNat 256 key.length ::
        (key ++ Fin.ofNat 256 filed.length :: filed)
  | .zscore key filed score =>
      DataTypeFlag.ZSCORE :: Fin.ofNat 256 key.length ::
        (key ++ (wordBytes (encodeScore (strToInt64 score)) ++ 58 :: filed))

/-- `Decoder`: the bytes from `p` on, and how many of them are left to read. -/
structure Decoder where
  p : Bytes
  size : Int

namespace Decoder

/-- The constructor: `size` is an `int`. -/
def ofBytes (s : Bytes) : Decoder := ⟨s, i32 s.length⟩

/-- `Decoder::skip`. -/
def skip (d : Decoder) (n : Nat) : Option Decoder :=
  if d.size < n then none else some ⟨d.p.drop n, d.size - n⟩

/-- `Decoder::read_int64`. -/
def readInt64 (d : Decoder) : Option (BitVec 64 × Decoder) :=
  -- the test converts `size` to `size_t`
  if u64 d.size < 8 then none
  else some (BitVec.ofNat 64 (ofLE (d.p.take 8)), ⟨d.p.drop 8, d.size - 8⟩)

/-- `Decoder::read_data`: what it returns, and the data. -/
def readData (d : Decoder) : Int × Bytes := (d.size, d.p.take d.size.toNat)

/-- `Decoder::read_8_data`. -/
def read8Data (d : Decoder) : Option (Bytes × Decoder) :=
  if d.size < 1 then none
  else
    let len := (d.p.headD 0).val
    let p := d.p.drop 1
    let size := d.size - 1
    if size < len then none else some (p.take len, ⟨p.drop len, size - len⟩)

end Decoder

/-- The strings `DecodeKey` writes through its pointers. -/
structure KeyParts where
  key : Bytes := []
  member : Bytes := []
  score : Bytes := []
  deriving DecidableEq

/-- `xDataBase::DecodeKey`.  A failed decoding leaves in `out` what it had written so far. -/
def decodeKey (rowkey : Bytes) (out : KeyParts) : Bool × KeyParts :=
  let decoder := Decoder.ofBytes rowkey
  if rowkey.headD 0 = DataTypeFlag.KV then
    match decoder.skip 1 with
    | none => (false, out)
    | some d => (d.readData.1 ≠ -1, { out with key := d.readData.2 })
  else if rowkey.headD 0 = DataTypeFlag.ZSCORE then
    match decoder.skip 1 with
    | none => (false, out)
    | some d =>
    match d.read8Data with
    | none => (false, out)
    | some (key, d) =>
    match d.readInt64 with
    | none => (false, { out with key })
    | some (s, d) =>
    match d.skip 1 with
    | none => (false, { out with key, score := str (decodeScore s) })
    | some d => (d.readData.1 ≠ -1, ⟨key, d.readData.2, str (decodeScore s)⟩)
  else (false, out)

/-! ### Values -/

/-- `xValue`. -/
structure XValue where
  timestamp : Nat := 0
  strValue : Bytes := []
  deriving DecidableEq

/-- `xValue::encode`. -/
def XValue.encode (v : XValue) : XValue :=
  { v with strValue := leBytes 8 v.timestamp ++ v.strValue }

/-- `xValue::decode`.  It reads eight bytes whether or not `strValue` has them. -/
def XValue.decode (v : XValue) : XValue :=
  { timestamp := ofLE (v.strValue.take 8), strValue := v.strValue.drop 8 }

theorem XValue.decode_encode {t : Nat} (ht : t < 2 ^ 64) (t' : Nat) (v : Bytes) :
    XValue.decode ⟨t', (XValue.encode ⟨t, v⟩).strValue⟩ = ⟨t, v⟩ := by
  have h8 : (leBytes 8 t).length = 8 := length_leBytes 8 t
  simp only [decode, encode]
  rw [List.take_left' h8, List.drop_left' h8, ofLE_leBytes, Nat.mod_eq_of_lt (by omega)]

/-! ### The byte swap reverses the bytes -/

theorem getLsbD_bigEndian32 (v : BitVec 32) {i j : Nat} (hi : i < 4) (hj : j < 8) :
    (bigEndian32 v).getLsbD (8 * i + j) = v.getLsbD (8 * (3 - i) + j) := by
  interval_cases i <;> interval_cases j <;> simp [bigEndian32]

theorem getLsbD_low32 {x : Nat} (h : x < 32) : (0xffffffff#64).getLsbD x = true := by
  interval_cases x <;> rfl

/-- Byte `i` of the swapped word is byte `7 - i` of the word. -/
theorem getLsbD_bigEndian64 (v : BitVec 64) {i j : Nat} (hi : i < 8) (hj : j < 8) :
    (bigEndian64 v).getLsbD (8 * i + j) = v.getLsbD (8 * (7 - i) + j) := by
  simp only [bigEndian64, BitVec.getLsbD_or, BitVec.getLsbD_setWidth, BitVec.getLsbD_shiftLeft]
  by_cases h : i < 4
  · -- the low half is the high half of `v`, swapped
    rw [getLsbD_bigEndian32 _ h hj]
    have h32 : 8 * i + j < 32 := by omega
    simp only [BitVec.getLsbD_setWidth, BitVec.getLsbD_ushiftRight]
    simp only [h32, show 8 * i + j < 64 by omega, show 8 * (3 - i) + j < 32 by omega,
      decide_true, Bool.true_and, Bool.not_true, Bool.false_and, Bool.and_false, Bool.or_false]
    congr 1; omega
  · have h32 : ¬ 8 * i + j < 32 := by omega
    obtain ⟨k, rfl⟩ : ∃ k, i = k + 4 := ⟨i - 4, by omega⟩
    rw [show 8 * (k + 4) + j - 32 = 8 * k + j by omega,
      getLsbD_bigEndian32 _ (show k < 4 by omega) hj,
      BitVec.getLsbD_of_ge (bigEndian32 _) _ (by omega)]
    simp only [BitVec.getLsbD_setWidth, BitVec.getLsbD_and,
      getLsbD_low32 (show 8 * (3 - k) + j < 32 by omega), show 7 - (k + 4) = 3 - k by omega]
    simp [h32, show 8 * (k + 4) + j < 64 by omega, show 8 * (3 - k) + j < 32 by omega,
      show 8 * k + j < 64 by omega]

theorem byte_eq_of_bits {a b i k : Nat}
    (h : ∀ j, j < 8 → a.testBit (8 * i + j) = b.testBit (8 * k + j)) :
    Fin.ofNat 256 (a / 256 ^ i) = Fin.ofNat 256 (b / 256 ^ k) := by
  refine Fin.ext (Nat.eq_of_testBit_eq fun j => ?_)
  simp only [Fin.ofNat, show 256 = 2 ^ 8 from rfl, ← pow_mul, Nat.testBit_mod_two_pow,
    Nat.testBit_div_two_pow]
  by_cases hj : j < 8
  · rw [Nat.add_comm j, Nat.add_comm j, h j hj]
  · simp [hj]

theorem wordBytes_bigEndian64 (v : BitVec 64) :
    wordBytes (bigEndian64 v) = (wordBytes v).reverse := by
  refine List.ext_getElem (by simp [wordBytes]) fun i h₁ h₂ => ?_
  have hi : i < 8 := by simpa [wordBytes] using h₁
  simp only [List.getElem_reverse, wordBytes, getElem_leBytes, length_leBytes]
  refine byte_eq_of_bits fun j hj => ?_
  rw [BitVec.testBit_toNat, BitVec.testBit_toNat, getLsbD_bigEndian64 v hi hj]

/-- A score is stored most significant byte first. -/
theorem wordBytes_encodeScore (s : Int) : wordBytes (encodeScore s) = beBytes 8 (u64 s) := by
  have hu : (BitVec.ofInt 64 s).toNat = u64 s := by simp [BitVec.toNat_ofInt, u64]
  rw [encodeScore, wordBytes_bigEndian64, wordBytes, hu, beBytes]

theorem wordBytes_inj {v w : BitVec 64} (h : wordBytes v = wordBytes w) : v = w :=
  BitVec.eq_of_toNat_eq (leBytes_inj (by have := v.isLt; omega) (by have := w.isLt; omega) h)

theorem ofNat_ofLE_wordBytes (v : BitVec 64) : BitVec.ofNat 64 (ofLE (wordBytes v)) = v := by
  refine BitVec.eq_of_toNat_eq ?_
  rw [wordBytes, ofLE_leBytes, BitVec.toNat_ofNat]
  have := v.isLt
  omega

theorem bigEndian64_bigEndian64 (v : BitVec 64) : bigEndian64 (bigEndian64 v) = v :=
  wordBytes_inj (by rw [wordBytes_bigEndian64, wordBytes_bigEndian64, List.reverse_reverse])

theorem decodeScore_encodeScore (s : Int) : decodeScore (encodeScore s) = i64 s := by
  rw [decodeScore, encodeScore, bigEndian64_bigEndian64, BitVec.toInt_ofInt, i64]

theorem str_eq_decimal {v : Int} (h : IsI64 v) : str v = decimal v :=
  snprintf_decimal h (by omega)

/-! ### A row key determines its parts -/

/-- What the score rows of the sorted set `key` start with. -/
def zscorePrefix (key : Bytes) : Bytes :=
  DataTypeFlag.ZSCORE :: Fin.ofNat 256 key.length :: key

theorem encodeKey_zscore_eq (key member score : Bytes) :
    encodeKey (.zscore key member score) =
      zscorePrefix key ++ (beBytes 8 (u64 (strToInt64 score)) ++ 58 :: member) := by
  simp [encodeKey, zscorePrefix, wordBytes_encodeScore]

theorem length_encodeKey_zscore (key member score : Bytes) :
    (encodeKey (.zscore key member score)).length = 11 + key.length + member.length := by
  simp [encodeKey_zscore_eq, zscorePrefix]
  omega

theorem zscorePrefix_inj {key key' r : Bytes} (h : key.length ≤ 255) (h' : key'.length ≤ 255)
    (hp : zscorePrefix key <+: r) (hp' : zscorePrefix key' <+: r) : key = key' := by
  obtain ⟨t, rfl⟩ := hp
  obtain ⟨t', ht⟩ := hp'
  simp only [zscorePrefix, List.cons_append, List.cons.injEq, true_and] at ht
  obtain ⟨hl, ht⟩ := ht
  have hlen : key'.length = key.length := by
    have := congrArg Fin.val hl
    simp only [Fin.ofNat] at this
    omega
  exact ((List.append_inj ht hlen).1).symm

theorem zscorePrefix_encodeKey (key member score : Bytes) :
    zscorePrefix key <+: encodeKey (.zscore key member score) :=
  ⟨_, (encodeKey_zscore_eq key member score).symm⟩

theorem encodeKey_zscore_inj {key key' m m' s s' : Bytes} (h : key.length ≤ 255)
    (h' : key'.length ≤ 255)
    (he : encodeKey (.zscore key m s) = encodeKey (.zscore key' m' s')) :
    key = key' ∧ m = m' ∧ strToInt64 s = strToInt64 s' := by
  obtain rfl : key = key' := zscorePrefix_inj h h' (zscorePrefix_encodeKey key m s)
    (he ▸ zscorePrefix_encodeKey key' m' s')
  rw [encodeKey_zscore_eq, encodeKey_zscore_eq] at he
  obtain ⟨hs, hm⟩ := List.append_inj (List.append_cancel_left he) (by simp)
  refine ⟨rfl, List.tail_eq_of_cons_eq hm, ?_⟩
  exact u64_inj (strToInt64_isI64 s) (strToInt64_isI64 s') (beBytes_inj (u64_lt _) (u64_lt _) hs)

theorem encodeKey_zset_inj {key key' m m' : Bytes} (h : key.length ≤ 255)
    (h' : key'.length ≤ 255) (he : encodeKey (.zset key m) = encodeKey (.zset key' m')) :
    key = key' ∧ m = m' := by
  simp only [encodeKey, List.cons.injEq, true_and] at he
  obtain ⟨hl, he⟩ := he
  have hlen : key.length = key'.length := by
    have := congrArg Fin.val hl
    simp only [Fin.ofNat] at this
    omega
  obtain ⟨hk, hm⟩ := List.append_inj he hlen
  exact ⟨hk, List.tail_eq_of_cons_eq hm⟩

theorem encodeKey_string_inj {k k' : Bytes} :
    encodeKey (.string k) = encodeKey (.string k') ↔ k = k' := by
  simp [encodeKey]

@[simp] theorem string_ne_zset (k key m : Bytes) :
    encodeKey (.string k) ≠ encodeKey (.zset key m) :=
  fun h => absurd (List.cons.inj h).1 (by decide)

@[simp] theorem zset_ne_string (k key m : Bytes) :
    encodeKey (.zset key m) ≠ encodeKey (.string k) :=
  (string_ne_zset k key m).symm

@[simp] theorem string_ne_zscore (k key m s : Bytes) :
    encodeKey (.string k) ≠ encodeKey (.zscore key m s) :=
  fun h => absurd (List.cons.inj h).1 (by decide)

@[simp] theorem zscore_ne_string (k key m s : Bytes) :
    encodeKey (.zscore key m s) ≠ encodeKey (.string k) :=
  (string_ne_zscore k key m s).symm

@[simp] theorem zset_ne_zscore (key m key' m' s : Bytes) :
    encodeKey (.zset key m) ≠ encodeKey (.zscore key' m' s) :=
  fun h => absurd (List.cons.inj h).1 (by decide)

@[simp] theorem zscore_ne_zset (key m key' m' s : Bytes) :
    encodeKey (.zscore key' m' s) ≠ encodeKey (.zset key m) :=
  (zset_ne_zscore key m key' m' s).symm

/-! ### The order of the score rows -/

/-- **The score rows of one sorted set sort by (score, member)**, the scores taken as unsigned:
the negative ones come last. -/
theorem encodeKey_zscore_lt_iff {key m m' s s' : Bytes} :
    encodeKey (.zscore key m s) < encodeKey (.zscore key m' s') ↔
      toLex (u64 (strToInt64 s), m) < toLex (u64 (strToInt64 s'), m') := by
  have hinj : beBytes 8 (u64 (strToInt64 s)) = beBytes 8 (u64 (strToInt64 s')) ↔
      u64 (strToInt64 s) = u64 (strToInt64 s') :=
    ⟨fun e => beBytes_inj (u64_lt _) (u64_lt _) e, fun e => by rw [e]⟩
  rw [encodeKey_zscore_eq, encodeKey_zscore_eq, append_lt_append_left_iff,
    append_lt_append_iff (by simp), beBytes_lt_iff (u64_lt _) (u64_lt _), hinj,
    List.cons_lt_cons_iff, Prod.Lex.toLex_lt_toLex]
  simp only [lt_irrefl, true_and, false_or]

/-! ### Decoding -/

/-- **A score row shorter than `2³¹` bytes decodes to its parts.** -/
theorem decodeKey_zscore {key m s : Bytes} (hk : key.length ≤ 255)
    (hlen : (encodeKey (.zscore key m s)).length < 2 ^ 31) (out : KeyParts) :
    decodeKey (encodeKey (.zscore key m s)) out = (true, ⟨key, m, decimal (strToInt64 s)⟩) := by
  have hsize : i32 ((encodeKey (.zscore key m s)).length : Int) =
      11 + key.length + m.length := by
    rw [i32_eq (by omega) (by omega), length_encodeKey_zscore]; omega
  have hkey : (Fin.ofNat 256 key.length).val = key.length := Nat.mod_eq_of_lt (by omega)
  have hskip : (Decoder.ofBytes (encodeKey (.zscore key m s))).skip 1 =
      some ⟨Fin.ofNat 256 key.length :: (key ++ (wordBytes (encodeScore (strToInt64 s)) ++ 58 :: m)),
        10 + key.length + m.length⟩ := by
    rw [Decoder.ofBytes, hsize, Decoder.skip, if_neg (by simp only; omega)]
    simp only [encodeKey, List.drop_succ_cons, List.drop_zero, Option.some.injEq,
      Decoder.mk.injEq, true_and]
    omega
  have hread8 : ∀ t : Bytes, Decoder.read8Data
      ⟨Fin.ofNat 256 key.length :: (key ++ t), 10 + key.length + m.length⟩ =
      some (key, ⟨t, 9 + m.length⟩) := by
    intro t
    rw [Decoder.read8Data, if_neg (by simp only; omega)]
    simp only [List.headD_cons, hkey, List.drop_succ_cons, List.drop_zero, List.take_left,
      List.drop_left]
    rw [if_neg (by omega)]
    simp only [Option.some.injEq, Prod.mk.injEq, Decoder.mk.injEq, true_and]
    omega
  have hword : (wordBytes (encodeScore (strToInt64 s))).length = 8 := length_leBytes _ _
  have hread64 : Decoder.readInt64
      ⟨wordBytes (encodeScore (strToInt64 s)) ++ 58 :: m, 9 + m.length⟩ =
      some (encodeScore (strToInt64 s), ⟨58 :: m, 1 + m.length⟩) := by
    rw [length_encodeKey_zscore] at hlen
    rw [Decoder.readInt64, if_neg (by simp only; rw [u64_of_nonneg] <;> omega)]
    simp only [List.take_left' hword, List.drop_left' hword, ofNat_ofLE_wordBytes,
      Option.some.injEq, Prod.mk.injEq, Decoder.mk.injEq, true_and]
    omega
  have hskip' : Decoder.skip ⟨58 :: m, 1 + m.length⟩ 1 = some ⟨m, m.length⟩ := by
    rw [Decoder.skip, if_neg (by simp only; omega)]
    simp
  have hne : ¬ (encodeKey (.zscore key m s)).headD 0 = DataTypeFlag.KV := by
    simp only [encodeKey, List.headD_cons]; decide
  have heq : (encodeKey (.zscore key m s)).headD 0 = DataTypeFlag.ZSCORE := rfl
  rw [decodeKey, if_neg hne, if_pos heq, hskip]
  simp only [hread8, hread64, hskip', Decoder.readData]
  rw [decodeScore_encodeScore, i64_eq (strToInt64_isI64 s), str_eq_decimal (strToInt64_isI64 s)]
  have hm : ¬ (m.length : Int) = -1 := by omega
  simp [hm]

/-- A row key of `2³¹` bytes or more, below `2³²`, does not decode: the size is negative. -/
theorem decodeKey_of_large {r : Bytes} (h₁ : 2 ^ 31 ≤ r.length) (h₂ : r.length < 2 ^ 32)
    (out : KeyParts) : decodeKey r out = (false, out) := by
  have hsize : i32 (r.length : Int) < 1 := by
    unfold i32
    rw [Int.bmod_def]
    omega
  have hskip : (Decoder.ofBytes r).skip 1 = none := by
    simp only [Decoder.skip, Decoder.ofBytes, Nat.cast_one, if_pos hsize]
  rw [decodeKey, hskip]
  split_ifs <;> rfl

/-! ### Which score rows decode -/

namespace Decoder

variable {d d' : Decoder}

theorem size_skip {n : Nat} (h : d.skip n = some d') : n ≤ d.size ∧ d'.size = d.size - n := by
  rw [skip] at h
  split_ifs at h with hlt
  obtain rfl := Option.some.inj h
  exact ⟨not_lt.mp hlt, rfl⟩

theorem size_readInt64 {v : BitVec 64} (h : d.readInt64 = some (v, d')) :
    d'.size = d.size - 8 := by
  rw [readInt64] at h
  split_ifs at h
  obtain ⟨-, rfl⟩ := Prod.mk.inj (Option.some.inj h)
  rfl

theorem size_read8Data {data : Bytes} (h : d.read8Data = some (data, d')) :
    data.length ≤ d.size - 1 - d'.size := by
  rw [read8Data] at h
  simp only at h
  split_ifs at h
  obtain ⟨rfl, rfl⟩ := Prod.mk.inj (Option.some.inj h)
  have hlen := List.length_take_le (d.p.headD 0).val (d.p.drop 1)
  simp only
  omega

theorem length_readData (h : 0 ≤ d.size) : (d.readData.2.length : Int) ≤ d.size := by
  have hlen : d.readData.2.length ≤ d.size.toNat := List.length_take_le _ _
  omega

end Decoder

/-- What `DecodeKey` returns of a score row fits in the row as far as an `int` can count it. -/
theorem length_of_decodeKey {r : Bytes} {out parts : KeyParts}
    (hr : r.headD 0 = DataTypeFlag.ZSCORE) (h : decodeKey r out = (true, parts)) :
    (11 + parts.key.length + parts.member.length : Int) ≤ i32 r.length := by
  have hne : ¬ r.headD 0 = DataTypeFlag.KV := by
    rw [hr]
    decide
  rw [decodeKey, if_neg hne, if_pos hr] at h
  cases hskip : (Decoder.ofBytes r).skip 1 with
  | none => simp [hskip] at h
  | some d₁ =>
  cases hkey : d₁.read8Data with
  | none => simp [hskip, hkey] at h
  | some res =>
  obtain ⟨key, d₂⟩ := res
  cases hscore : d₂.readInt64 with
  | none => simp [hskip, hkey, hscore] at h
  | some res =>
  obtain ⟨v, d₃⟩ := res
  cases hcolon : d₃.skip 1 with
  | none => simp [hskip, hkey, hscore, hcolon] at h
  | some d₄ =>
  simp only [hskip, hkey, hscore, hcolon, Prod.mk.injEq] at h
  obtain ⟨-, rfl⟩ := h
  have h₁ := (Decoder.size_skip hskip).2
  have h₂ := Decoder.size_read8Data hkey
  have h₃ := Decoder.size_readInt64 hscore
  obtain ⟨hone, h₄⟩ := Decoder.size_skip hcolon
  simp only [Decoder.ofBytes] at h₁
  have hmember := Decoder.length_readData (d := d₄) (by omega)
  simp only
  omega

/-- **A score row decodes to its parts** if and only if it is shorter than `2³¹` bytes. -/
theorem decodeKey_zscore_iff {key m s : Bytes} (hk : key.length ≤ 255) (out : KeyParts) :
    decodeKey (encodeKey (.zscore key m s)) out = (true, ⟨key, m, decimal (strToInt64 s)⟩) ↔
      11 + key.length + m.length < 2 ^ 31 := by
  constructor
  · intro h
    have hlen := length_of_decodeKey rfl h
    have hint := i32_lt ((encodeKey (.zscore key m s)).length : Int)
    simp only at hlen
    omega
  · intro h
    exact decodeKey_zscore hk (by rwa [length_encodeKey_zscore]) out

/-- **Score keys decode, separate and sort.**  The key of a score row decodes to the sorted-set key,
the member and the score it was made of if and only if it is shorter than `2³¹` bytes, decimals of
`int64_t` values read back, and the keys of rows with scores in `[0, 2⁶³)` sort by score and
member. -/
theorem score_keys (key : Bytes) (hk : key.length ≤ 255) :
    (∀ (m : Bytes) (s : Int) (out : KeyParts), IsI64 s →
      (decodeKey (encodeKey (.zscore key m (decimal s))) out = (true, ⟨key, m, decimal s⟩) ↔
          11 + key.length + m.length < 2 ^ 31) ∧
        str s = decimal s ∧ strToInt64 (str s) = s) ∧
    ∀ (m m' : Bytes) (s s' : Int), 0 ≤ s → s < 2 ^ 63 → 0 ≤ s' → s' < 2 ^ 63 →
      (encodeKey (.zscore key m (decimal s)) < encodeKey (.zscore key m' (decimal s')) ↔
        toLex (s, m) < toLex (s', m')) := by
  have hread : ∀ s : Int, IsI64 s → strToInt64 (decimal s) = s := fun s hs => strtoll_decimal hs
  refine ⟨fun m s out hs => ⟨?_, str_eq_decimal hs, ?_⟩, fun m m' s s' h₀ h₁ h₀' h₁' => ?_⟩
  · have hiff := decodeKey_zscore_iff (m := m) (s := decimal s) hk out
    rwa [hread s hs] at hiff
  · rw [str_eq_decimal hs, hread s hs]
  · rw [encodeKey_zscore_lt_iff, hread s ⟨by omega, h₁⟩, hread s' ⟨by omega, h₁'⟩,
      u64_of_nonneg h₀ (by omega), u64_of_nonneg h₀' (by omega), Prod.Lex.toLex_lt_toLex,
      Prod.Lex.toLex_lt_toLex]
    have hlt : s.toNat < s'.toNat ↔ s < s' := by omega
    have heq : s.toNat = s'.toNat ↔ s = s' := by omega
    rw [hlt, heq]

/-- A member of three bytes that are all special somewhere: the separator, NUL and `0xff`. -/
theorem score_keys_special :
    (decodeKey (encodeKey (.zscore (ascii "e") [58, 0, 255] (decimal (-1)))) {} =
        (true, ⟨ascii "e", [58, 0, 255], decimal (-1)⟩)) ∧
      encodeKey (.zscore (ascii "e") [58] (decimal 255)) <
        encodeKey (.zscore (ascii "e") [] (decimal 256)) := by
  obtain ⟨hdecode, horder⟩ := score_keys (ascii "e") (by decide)
  refine ⟨(hdecode _ _ _ ⟨by norm_num, by norm_num⟩).1.mpr (by decide), ?_⟩
  refine (horder _ _ _ _ (by norm_num) (by norm_num) (by norm_num) (by norm_num)).mpr ?_
  exact Prod.Lex.toLex_lt_toLex.mpr (Or.inl (by norm_num))

/-- The score row of a member of `2³¹` bytes does not decode. -/
theorem large_score_key :
    decodeKey (encodeKey (.zscore (ascii "e") (List.replicate (2 ^ 31) 0) (decimal 5))) {} =
      (false, {}) := by
  have hlen : (encodeKey (.zscore (ascii "e") (List.replicate (2 ^ 31) 0) (decimal 5))).length =
      11 + 1 + 2 ^ 31 := by
    rw [length_encodeKey_zscore, List.length_replicate]
    rfl
  exact decodeKey_of_large (by rw [hlen]; norm_num) (by rw [hlen]; norm_num) _

end XHttpCache
