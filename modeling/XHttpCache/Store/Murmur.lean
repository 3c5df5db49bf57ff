import XHttpCache.Store.Etag
import XHttpCache.Support.Mixing

/-!
# Store — the hash of the ETag manager

`MurmurHash64A` of `common/MurmurHash2.cpp`, on a little-endian machine, of a key whose length is an
`int`.  It reads the key in words of eight bytes and mixes each into the hash, then the bytes that
are left, then the hash itself.

Every step is injective: in the hash for each word, and in the word for each hash.  So two keys of
one length that differ in one word only, or in the bytes that are left only, have different hashes,
and different entries in the ETag manager at every time (`murmurHash64A_ne`).
-/

namespace XHttpCache
open Support

namespace Murmur

/-- `m`. -/
def m : BitVec 64 := 0xc6a4a7935bd1e995#64

/-- `r`. -/
def r : Nat := 47

/-- `MURMUR_SEED`. -/
def MURMUR_SEED : BitVec 64 := 0xEE6B27EB#64

/-- What is made of a word before it comes into the hash. -/
def mixWord (k : BitVec 64) : BitVec 64 := xorShift r (k * m) * m

/-- A round of the loop, on the word that eight bytes are. -/
def round (h : BitVec 64) (word : Bytes) : BitVec 64 :=
  (h ^^^ mixWord (BitVec.ofNat 64 (ofLE word))) * m

/-- The loop: the hash after it, and the bytes that are left. -/
def rounds (h : BitVec 64) : Bytes → BitVec 64 × Bytes
  | b₀ :: b₁ :: b₂ :: b₃ :: b₄ :: b₅ :: b₆ :: b₇ :: data =>
      rounds (round h [b₀, b₁, b₂, b₃, b₄, b₅, b₆, b₇]) data
  | data => (h, data)

/-- The `switch`: it falls through from the last byte that is left to the first. -/
def tail (h : BitVec 64) (data : Bytes) : BitVec 64 :=
  if data = [] then h else xorBytes h data * m

/-- The last three lines. -/
def finish (h : BitVec 64) : BitVec 64 := xorShift r (xorShift r h * m)

/-- What is made of the bytes `data`, from the hash `h` on. -/
def hashFrom (h : BitVec 64) (data : Bytes) : BitVec 64 :=
  let (h, data) := rounds h data
  finish (tail h data)

end Murmur

/-- `MurmurHash64A`, for keys whose length is an `int`, which `len` is. -/
def murmurHash64A (key : Bytes) (seed : BitVec 64) : BitVec 64 :=
  Murmur.hashFrom (seed ^^^ (BitVec.ofNat 64 key.length * Murmur.m)) key

/-! ### Nothing is lost -/

namespace Murmur

theorem mul_m_injective : Function.Injective fun k : BitVec 64 => k * m :=
  mul_right_injective_of_inverse (n := 0x5f7a0ea7e59b19bd#64) (by decide)

theorem xorShift_r_injective : Function.Injective (xorShift r : BitVec 64 → BitVec 64) :=
  xorShift_injective (by decide)

theorem mixWord_injective : Function.Injective mixWord := by
  intro k k' h
  exact mul_m_injective (xorShift_r_injective (mul_m_injective h))

theorem finish_injective : Function.Injective finish := by
  intro h h' he
  exact xorShift_r_injective (mul_m_injective (xorShift_r_injective he))

theorem round_left_injective (word : Bytes) : Function.Injective fun h => round h word := by
  intro h h' he
  exact (BitVec.xor_left_inj _).mp (mul_m_injective he)

theorem round_right_injective (h : BitVec 64) {word word' : Bytes} (hlen : word.length = 8)
    (hlen' : word'.length = 8) (he : round h word = round h word') : word = word' := by
  have hword := mixWord_injective ((BitVec.xor_right_inj _).mp (mul_m_injective he))
  exact ofNat_ofLE_injective (hlen.trans hlen'.symm) (by rw [hlen]; decide) hword

theorem tail_left_injective (data : Bytes) : Function.Injective fun h => tail h data := by
  intro h h' he
  simp only [tail] at he
  split_ifs at he
  · exact he
  · have hbytes := mul_m_injective he
    simp only [xorBytes_eq] at hbytes
    exact (BitVec.xor_left_inj _).mp hbytes

theorem tail_right_injective (h : BitVec 64) {data data' : Bytes}
    (hlen : data.length = data'.length) (hlt : data.length < 8) (he : tail h data = tail h data') :
    data = data' := by
  by_cases hnil : data = []
  · rw [hnil] at hlen ⊢
    exact (List.length_eq_zero_iff.mp hlen.symm).symm
  · have hnil' : data' ≠ [] := by
      rintro rfl
      exact hnil (List.length_eq_zero_iff.mp hlen)
    rw [tail, tail, if_neg hnil, if_neg hnil'] at he
    refine xorBytes_injective h hlen ?_ (mul_m_injective he)
    calc 256 ^ data.length ≤ 256 ^ 8 := Nat.pow_le_pow_right (by decide) hlt.le
      _ = 2 ^ 64 := by decide

/-! ### The loop -/

theorem rounds_word (h : BitVec 64) {word : Bytes} (hlen : word.length = 8) (data : Bytes) :
    rounds h (word ++ data) = rounds (round h word) data := by
  rcases word with _ | ⟨b₀, _ | ⟨b₁, _ | ⟨b₂, _ | ⟨b₃, _ | ⟨b₄, _ | ⟨b₅, _ | ⟨b₆, _ | ⟨b₇, word⟩⟩⟩⟩⟩⟩⟩⟩
  all_goals simp only [List.length_nil, List.length_cons] at hlen
  all_goals try omega
  obtain rfl : word = [] := List.length_eq_zero_iff.mp (by omega)
  rfl

theorem rounds_short (h : BitVec 64) {data : Bytes} (hlt : data.length < 8) :
    rounds h data = (h, data) := by
  unfold rounds
  split
  · simp only [List.length_cons] at hlt
    omega
  · rfl

/-- The loop over whole words, and then over the rest. -/
theorem rounds_append (n : Nat) (h : BitVec 64) {pre : Bytes} (hlen : pre.length = 8 * n)
    (data : Bytes) : rounds h (pre ++ data) = rounds (rounds h pre).1 data := by
  induction n generalizing h pre with
  | zero =>
      obtain rfl : pre = [] := List.length_eq_zero_iff.mp hlen
      rfl
  | succ n ih =>
      have hword : (pre.take 8).length = 8 := by
        rw [List.length_take]
        omega
      rw [← List.take_append_drop 8 pre, List.append_assoc, rounds_word h hword,
        rounds_word h hword]
      refine ih _ ?_
      rw [List.length_drop]
      omega

theorem hashFrom_word (h : BitVec 64) {word : Bytes} (hlen : word.length = 8) (data : Bytes) :
    hashFrom h (word ++ data) = hashFrom (round h word) data := by
  rw [hashFrom, hashFrom, rounds_word h hlen]

theorem hashFrom_append {n : Nat} {pre : Bytes} (hlen : pre.length = 8 * n) (h : BitVec 64)
    (data : Bytes) : hashFrom h (pre ++ data) = hashFrom (rounds h pre).1 data := by
  rw [hashFrom, hashFrom, rounds_append n h hlen]

theorem hashFrom_short (h : BitVec 64) {data : Bytes} (hlt : data.length < 8) :
    hashFrom h data = finish (tail h data) := by
  rw [hashFrom, rounds_short h hlt]

/-- Whatever bytes are to come, different hashes stay different. -/
theorem hashFrom_left_injective (data : Bytes) : Function.Injective fun h => hashFrom h data := by
  induction hn : data.length / 8 generalizing data with
  | zero =>
      intro h h' he
      have hlt : data.length < 8 := by omega
      simp only [hashFrom_short _ hlt] at he
      exact tail_left_injective data (finish_injective he)
  | succ n ih =>
      intro h h' he
      have hword : (data.take 8).length = 8 := by
        rw [List.length_take]
        omega
      have hrest : (data.drop 8).length / 8 = n := by
        rw [List.length_drop]
        omega
      rw [← List.take_append_drop 8 data] at he
      simp only [hashFrom_word _ hword] at he
      exact round_left_injective _ (ih _ hrest he)

end Murmur

/-- Two keys that differ in one word of eight bytes, or in the bytes that are left behind the last
word. -/
inductive OneWord : Bytes → Bytes → Prop where
  | intro {before word word' after : Bytes} (ne : word ≠ word') (length : word.length = word'.length)
      (aligned : 8 ∣ before.length) (whole : word.length = 8 ∨ word.length < 8 ∧ after = []) :
      OneWord (before ++ (word ++ after)) (before ++ (word' ++ after))

theorem OneWord.hash_ne {key key' : Bytes} (h : OneWord key key') (seed : BitVec 64) :
    murmurHash64A key seed ≠ murmurHash64A key' seed := by
  obtain @⟨before, word, word', after, hne, hlen, ⟨n, hn⟩, hwhole⟩ := h
  have hlength : (before ++ (word ++ after)).length = (before ++ (word' ++ after)).length := by
    simp only [List.length_append, hlen]
  intro he
  rw [murmurHash64A, murmurHash64A, ← hlength, Murmur.hashFrom_append hn,
    Murmur.hashFrom_append hn] at he
  rcases hwhole with h8 | ⟨hlt, rfl⟩
  · have h8' : word'.length = 8 := hlen.symm.trans h8
    rw [Murmur.hashFrom_word _ h8, Murmur.hashFrom_word _ h8'] at he
    exact hne (Murmur.round_right_injective _ h8 h8' (Murmur.hashFrom_left_injective after he))
  · rw [List.append_nil, List.append_nil, Murmur.hashFrom_short _ hlt,
      Murmur.hashFrom_short _ (hlen ▸ hlt)] at he
    exact hne (Murmur.tail_right_injective _ hlen hlt (Murmur.finish_injective he))

/-- The ETag manager with its hash. -/
def murmurSetup (cnt size : Nat) : EtagSetup where
  hash key := (murmurHash64A key Murmur.MURMUR_SEED).toNat
  cnt := cnt
  size := size

/-- Entries for one time are told apart as the hashes are. -/
theorem hashkey_inj {cnt size t : Nat} {key key' : Bytes}
    (h : (murmurSetup cnt size).hashkey key t = (murmurSetup cnt size).hashkey key' t) :
    murmurHash64A key Murmur.MURMUR_SEED = murmurHash64A key' Murmur.MURMUR_SEED :=
  BitVec.eq_of_toNat_eq (Nat.ModEq.eq_of_lt_of_lt (Nat.ModEq.add_right_cancel' t h)
    (BitVec.isLt _) (BitVec.isLt _))

/-- **Keys that differ in one word** have different hashes, and different entries in the ETag manager
at every time. -/
theorem murmurHash64A_ne {key key' : Bytes} (h : OneWord key key') (seed : BitVec 64)
    (cnt size t : Nat) :
    murmurHash64A key seed ≠ murmurHash64A key' seed ∧
      (murmurSetup cnt size).hashkey key t ≠ (murmurSetup cnt size).hashkey key' t :=
  ⟨h.hash_ne seed, fun he => h.hash_ne _ (hashkey_inj he)⟩

/-- Two file names that differ in the second word. -/
theorem murmurHash64A_ne_names :
    murmurHash64A (ascii "image/icon-001.png") 0 ≠ murmurHash64A (ascii "image/icon-002.png") 0 :=
  (murmurHash64A_ne (@OneWord.intro (ascii "image/ic") (ascii "on-001.p") (ascii "on-002.p")
    (ascii "ng") (by decide) (by decide) (by decide) (Or.inl (by decide))) 0 1 1 0).1

end XHttpCache
