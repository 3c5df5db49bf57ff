import XHttpCache.Support.Bytes

/-!
# Support — mixing words

The steps of which multiplicative hash functions are made, on words of any width: each loses no
information about the word (`xorShift_injective`, `mul_right_injective_of_inverse`).

Bytes come into a word as its little-endian digits, whole (`ofLE`) or one by one (`xorBytes`); bytes
of the same number make different words (`ofNat_ofLE_injective`, `xorBytes_injective`).
-/

namespace Support

variable {w : Nat}

/-- `h ^= h >> r`. -/
def xorShift (r : Nat) (h : BitVec w) : BitVec w := h ^^^ (h >>> r)

/-- By half the width or more, it undoes itself. -/
theorem xorShift_xorShift {r : Nat} (hr : w ≤ r + r) (h : BitVec w) :
    xorShift r (xorShift r h) = h := by
  have hzero : h >>> r >>> r = 0#w := by
    rw [← BitVec.shiftRight_add]
    exact BitVec.ushiftRight_eq_zero hr
  rw [xorShift, xorShift, BitVec.ushiftRight_xor_distrib, hzero, BitVec.xor_zero, BitVec.xor_assoc,
    BitVec.xor_self, BitVec.xor_zero]

theorem xorShift_injective {r : Nat} (hr : w ≤ r + r) :
    Function.Injective (xorShift r : BitVec w → BitVec w) :=
  (show Function.Involutive (xorShift r : BitVec w → BitVec w) from
    xorShift_xorShift hr).injective

theorem mul_right_injective_of_inverse {m n : BitVec w} (h : m * n = 1#w) :
    Function.Injective fun k : BitVec w => k * m := by
  intro k k' hk
  have hkn : k * m * n = k' * m * n := congrArg (· * n) hk
  rwa [BitVec.mul_assoc, BitVec.mul_assoc, h, BitVec.mul_one, BitVec.mul_one] at hkn

/-! ### Words from bytes -/

theorem ofLE_lt (bs : Bytes) : ofLE bs < 256 ^ bs.length := by
  induction bs with
  | nil => exact Nat.one_pos
  | cons b bs ih =>
      have hb := b.isLt
      rw [ofLE, List.length_cons, pow_succ]
      omega

/-- Bytes of the same number that fit make different words. -/
theorem ofNat_ofLE_injective {bs bs' : Bytes} (hlen : bs.length = bs'.length)
    (hw : 256 ^ bs.length ≤ 2 ^ w) (h : BitVec.ofNat w (ofLE bs) = BitVec.ofNat w (ofLE bs')) :
    bs = bs' := by
  have hn := congrArg BitVec.toNat h
  have hlt := ofLE_lt bs
  have hlt' := ofLE_lt bs'
  rw [BitVec.toNat_ofNat, BitVec.toNat_ofNat, Nat.mod_eq_of_lt (hlt.trans_le hw),
    Nat.mod_eq_of_lt ((hlen ▸ hlt').trans_le hw)] at hn
  rw [← leBytes_ofLE bs, ← leBytes_ofLE bs', hlen, hn]

/-- The bytes come in one by one, the last first: `h ^= b << 8 * i`. -/
def xorBytes (h : BitVec w) (bs : Bytes) : BitVec w :=
  bs.zipIdx.foldr (fun b h => h ^^^ (BitVec.ofNat w b.1 <<< (8 * b.2))) h

/-- A byte below the others shares no bit with them. -/
theorem ofNat_cons (b : Byte) (n : Nat) :
    BitVec.ofNat w (b + 256 * n) = BitVec.ofNat w b ^^^ (BitVec.ofNat w n <<< 8) := by
  have hxor : (b : Nat) + 256 * n = b ^^^ (2 ^ 8 * n) := by
    refine Nat.eq_of_testBit_eq fun i => ?_
    have htest := Nat.testBit_two_pow_mul_add n (show (b : Nat) < 2 ^ 8 from b.isLt) i
    rw [Nat.add_comm, Nat.testBit_xor, Nat.testBit_two_pow_mul]
    refine htest.trans ?_
    split_ifs with hi
    · simp [show ¬ 8 ≤ i by omega]
    · have hpow : 2 ^ 8 ≤ 2 ^ i := Nat.pow_le_pow_right (by decide) (by omega)
      have hb : (b : Nat).testBit i = false := Nat.testBit_lt_two_pow (b.isLt.trans_le hpow)
      simp [hb, show 8 ≤ i by omega]
  have hshift : BitVec.ofNat w (2 ^ 8 * n) = BitVec.ofNat w n <<< 8 := by
    refine BitVec.eq_of_toNat_eq ?_
    rw [BitVec.toNat_shiftLeft, BitVec.toNat_ofNat, BitVec.toNat_ofNat, Nat.shiftLeft_eq,
      Nat.mod_mul_mod, Nat.mul_comm]
  rw [hxor, BitVec.ofNat_xor, hshift]

theorem foldr_xor_zipIdx (h : BitVec w) (bs : Bytes) (i : Nat) :
    (bs.zipIdx i).foldr (fun b h => h ^^^ (BitVec.ofNat w b.1 <<< (8 * b.2))) h =
      h ^^^ (BitVec.ofNat w (ofLE bs) <<< (8 * i)) := by
  induction bs generalizing i with
  | nil => simp [ofLE]
  | cons b bs ih =>
      rw [List.zipIdx_cons, List.foldr_cons, ih, ofLE, ofNat_cons, BitVec.shiftLeft_xor_distrib,
        ← BitVec.shiftLeft_add, show 8 * (i + 1) = 8 + 8 * i by omega, BitVec.xor_assoc,
        BitVec.xor_comm (BitVec.ofNat w b <<< (8 * i))]

/-- One by one or as a whole, the bytes make the same word. -/
theorem xorBytes_eq (h : BitVec w) (bs : Bytes) :
    xorBytes h bs = h ^^^ BitVec.ofNat w (ofLE bs) := by
  rw [xorBytes, foldr_xor_zipIdx, Nat.mul_zero, BitVec.shiftLeft_zero]

theorem xorBytes_injective (h : BitVec w) {bs bs' : Bytes} (hlen : bs.length = bs'.length)
    (hw : 256 ^ bs.length ≤ 2 ^ w) (he : xorBytes h bs = xorBytes h bs') : bs = bs' := by
  rw [xorBytes_eq, xorBytes_eq, BitVec.xor_right_inj] at he
  exact ofNat_ofLE_injective hlen hw he

end Support
