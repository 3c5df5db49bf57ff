import XHttpCache.Http.Config
import XHttpCache.Support.Base64

/-!
# Http — base64 encoding

`base64_encode` of `common/util.cpp`, pointer by pointer: it reads the input through `in`, writes
through `p`, and ends in undefined behaviour if it leaves one of the two buffers (`none`).

* `Code.base64Loop_tail`: the loop and the tail write the characters `base64Chars`, group by group, and
  stay inside the buffers.
* `Code.base64Encode_eq`: so it is the function on byte strings that passwords are encoded by.
* `decode_base64Chars`: the characters decode to the input.
* `base64_encode_correct`: what follows for a call with any input and any capacity.
-/

namespace XHttpCache
open Support

/-! ### The function -/

namespace Code

/-- The loop: `i`, `in` and `p` after it.  `i` stays below `inlen`, so that `i += 3` does not
wrap. -/
def base64Loop (leven i : Nat) (input : Bytes) (p : Cursor) : Option (Nat × Bytes × Cursor) :=
  if i < leven then do
    let in0 ← input[0]?
    let in1 ← input[1]?
    let in2 ← input[2]?
    let p ← p.put (code (in0.val >>> 2))
    let p ← p.put (code (((in0.val &&& 3) <<< 4) + (in1.val >>> 4)))
    let p ← p.put (code (((in1.val &&& 0xf) <<< 2) + (in2.val >>> 6)))
    let p ← p.put (code in2.val)
    base64Loop leven (i + 3) (input.drop 3) p
  else some (i, input, p)
termination_by leven - i

/-- The one or two bytes that the loop leaves over, with padding. -/
def base64Tail (inlen i : Nat) (input : Bytes) (p : Cursor) : Option Cursor :=
  if i < inlen then do
    let a ← input[0]?
    let b ← if i + 1 < inlen then input[1]? else some 0
    let p ← p.put (code (a.val >>> 2))
    let p ← p.put (code (((a.val &&& 3) <<< 4) + (b.val >>> 4)))
    let p ← p.put (if i + 1 < inlen then code ((b.val &&& 0xf) <<< 2) else 61)
    let p ← p.put 61
    some p
  else some p

/-- `base64_encode`: what it returns, the buffer `out` after it, and `outlen`.  Lengths are
`unsigned long`. -/
def base64Encode (input out : Bytes) (outlen : Nat) : Option (Int × Bytes × Nat) :=
  let inlen := input.length
  let len2 := 4 * ((inlen + 2) % 2 ^ 64 / 3) % 2 ^ 64
  if outlen < (len2 + 1) % 2 ^ 64 then some (-1, out, (len2 + 1) % 2 ^ 64)
  else do
    let leven := 3 * (inlen / 3)
    let r ← base64Loop leven 0 input ⟨out, 0⟩
    let p ← base64Tail inlen r.1 r.2.1 r.2.2
    -- `*p = '\0'` leaves `p` where it is
    let q ← p.put 0
    some (0, q.mem, p.pos)

/-! ### What it writes -/

variable {out written : Bytes}

theorem put_four {β : Type} (h : written.length + 4 ≤ out.length) (c₁ c₂ c₃ c₄ : Byte)
    (k : Cursor → Option β) :
    (((Cursor.after out written).put c₁).bind fun p => (p.put c₂).bind fun p =>
        (p.put c₃).bind fun p => (p.put c₄).bind k) =
      k (Cursor.after out (written ++ [c₁, c₂, c₃, c₄])) := by
  rw [Cursor.put_after (by omega), Option.bind_some, Cursor.put_after (by simp; omega),
    Option.bind_some, Cursor.put_after (by simp; omega), Option.bind_some,
    Cursor.put_after (by simp; omega), Option.bind_some]
  simp only [List.append_assoc, List.cons_append, List.nil_append]

/-- **The loop and the tail write the encoding** behind what was written, without leaving the
buffers.  The induction is over the groups of three bytes. -/
theorem base64Loop_tail : ∀ {input written : Bytes} {i : Nat},
    written.length + 4 * ((input.length + 2) / 3) ≤ out.length →
    ((base64Loop (i + 3 * (input.length / 3)) i input (Cursor.after out written)).bind fun r =>
        base64Tail (i + input.length) r.1 r.2.1 r.2.2) =
      some (Cursor.after out (written ++ base64Chars input))
  | [], written, i, _ => by
      rw [base64Loop, if_neg (by simp), Option.bind_some, base64Tail, if_neg (by simp), base64Chars,
        List.append_nil]
  | [a], written, i, h => by
      rw [base64Loop, if_neg (by simp), Option.bind_some, base64Tail, if_pos (by simp)]
      simp only [List.length_cons, List.length_nil, Nat.zero_add, lt_irrefl, if_false,
        List.getElem?_cons_zero, Option.bind_eq_bind, Option.bind_some]
      rw [put_four (by simpa using h)]
      rfl
  | [a, b], written, i, h => by
      rw [base64Loop, if_neg (by simp), Option.bind_some, base64Tail, if_pos (by simp)]
      have hlt : i + 1 < i + [a, b].length := by simp
      simp only [if_pos hlt, List.getElem?_cons_zero, List.getElem?_cons_succ, Option.bind_eq_bind,
        Option.bind_some]
      rw [put_four (by simpa using h)]
      rfl
  | a :: b :: c :: rest, written, i, h => by
      have hlen : (a :: b :: c :: rest).length = rest.length + 3 := rfl
      have hleven : i + 3 * ((a :: b :: c :: rest).length / 3) = i + 3 + 3 * (rest.length / 3) := by
        omega
      have hinlen : i + (a :: b :: c :: rest).length = i + 3 + rest.length := by omega
      rw [base64Loop, if_pos (by omega)]
      simp only [List.getElem?_cons_zero, List.getElem?_cons_succ, Option.bind_eq_bind,
        Option.bind_some, List.drop_succ_cons, List.drop_zero]
      rw [put_four (by omega), hleven, hinlen,
        base64Loop_tail (by rw [List.length_append, List.length_cons]; simp; omega),
        List.append_assoc]
      rfl

/-- **What a call does**: the code's `base64_encode` is the function on byte strings that the model
of `encode_pass` uses, and it stays inside its buffers. -/
theorem base64Encode_eq {input : Bytes} {outlen : Nat} (hn : input.length < 2 ^ 62)
    (hout : outlen ≤ out.length) :
    base64Encode input out outlen = some (XHttpCache.base64Encode input out outlen) := by
  have hlen2 : 4 * ((input.length + 2) % 2 ^ 64 / 3) % 2 ^ 64 = 4 * ((input.length + 2) / 3) := by
    omega
  have hneed : (4 * ((input.length + 2) / 3) + 1) % 2 ^ 64 = 4 * ((input.length + 2) / 3) + 1 := by
    omega
  simp only [base64Encode, XHttpCache.base64Encode, hlen2, hneed]
  by_cases h : outlen < 4 * ((input.length + 2) / 3) + 1
  · rw [if_pos h, if_pos h]
  · rw [if_neg h, if_neg h]
    have hbody : ((base64Loop (3 * (input.length / 3)) 0 input ⟨out, 0⟩).bind fun r =>
        base64Tail input.length r.1 r.2.1 r.2.2) = some (Cursor.after out (base64Chars input)) := by
      have hstart := @base64Loop_tail out input [] 0 (by rw [List.length_nil]; omega)
      rwa [Nat.zero_add, Nat.zero_add] at hstart
    have hchars := length_base64Chars input
    simp only [Option.bind_eq_bind]
    rw [← Option.bind_assoc, hbody, Option.bind_some, Cursor.put_after (by omega), Option.bind_some]
    simp [Cursor.after]

end Code

/-! ### What it means -/

set_option maxRecDepth 2000 in
theorem sextet_code (n : Nat) : Base64.sextet (code n) = some (n % 64) := by
  have htable : ∀ k : Fin 64, Base64.sextet (codes.getD k.val 0) = some k.val := by decide
  have hand : n &&& 0x3F = n % 64 := Nat.and_two_pow_sub_one_eq_mod n 6
  rw [code, hand]
  exact htable ⟨n % 64, Nat.mod_lt _ (by omega)⟩

/-- The bits of the characters of one group, as `base64_encode` computes them. -/
theorem sextet_first (a : Byte) : Base64.sextet (code (a.val >>> 2)) = some (a.val / 4) := by
  have ha := a.isLt
  have hshift : a.val >>> 2 = a.val / 4 := Nat.shiftRight_eq_div_pow _ 2
  rw [sextet_code, hshift]
  congr 1
  omega

theorem sextet_second (a b : Byte) :
    Base64.sextet (code (((a.val &&& 3) <<< 4) + (b.val >>> 4))) =
      some (a.val % 4 * 16 + b.val / 16) := by
  have hb := b.isLt
  have hand : a.val &&& 3 = a.val % 4 := Nat.and_two_pow_sub_one_eq_mod _ 2
  have hshift : b.val >>> 4 = b.val / 16 := Nat.shiftRight_eq_div_pow _ 4
  rw [sextet_code, hand, hshift, Nat.shiftLeft_eq]
  congr 1
  omega

theorem sextet_third (b c : Byte) :
    Base64.sextet (code (((b.val &&& 0xf) <<< 2) + (c.val >>> 6))) =
      some (b.val % 16 * 4 + c.val / 64) := by
  have hc := c.isLt
  have hand : b.val &&& 0xf = b.val % 16 := Nat.and_two_pow_sub_one_eq_mod _ 4
  have hshift : c.val >>> 6 = c.val / 64 := Nat.shiftRight_eq_div_pow _ 6
  rw [sextet_code, hand, hshift, Nat.shiftLeft_eq]
  congr 1
  omega

/-- **The characters decode to the input.** -/
theorem decode_base64Chars : ∀ s : Bytes, Base64.decode (base64Chars s) = some s
  | [] => rfl
  | [a] => Base64.decode_one (sextet_first a) (sextet_second a 0)
  | [a, b] => Base64.decode_two (sextet_first a) (sextet_second a b) (sextet_third b 0)
  | a :: b :: c :: rest => by
      rw [base64Chars, Base64.decode_three (sextet_first a) (sextet_second a b) (sextet_third b c)
        (sextet_code c.val), decode_base64Chars rest, Option.map_some]

/-- A call that succeeds leaves the characters at the start of the buffer. -/
theorem take_of_base64Encode {input out buf : Bytes} {outlen n : Nat}
    (h : base64Encode input out outlen = (0, buf, n)) : buf.take n = base64Chars input := by
  simp only [base64Encode] at h
  split_ifs at h with hlt
  · have hret : (-1 : Int) = 0 := congrArg Prod.fst h
    exact absurd hret (by decide)
  · obtain ⟨rfl, rfl⟩ := Prod.mk.inj (Prod.mk.inj h).2
    exact List.take_left

/-- **`base64_encode` is correct** for every input shorter than `2⁶²` bytes and every capacity.
With room for the characters and a NUL it returns 0, writes these and nothing else, reports how many
characters there are, and they decode to the input.  Otherwise it returns -1, writes nothing and
reports the capacity it needs.  Two inputs never encode alike. -/
theorem base64_encode_correct (input out : Bytes) (outlen : Nat) (hn : input.length < 2 ^ 62)
    (hout : outlen ≤ out.length) :
    let size := 4 * ((input.length + 2) / 3)
    (size + 1 ≤ outlen → ∃ chars, chars.length = size ∧ Base64.decode chars = some input ∧
      Code.base64Encode input out outlen =
        some (0, chars ++ 0 :: out.drop (size + 1), size)) ∧
    (outlen < size + 1 → Code.base64Encode input out outlen = some (-1, out, size + 1)) ∧
    ∀ (input' out' : Bytes) (outlen' : Nat), input'.length < 2 ^ 62 → outlen' ≤ out'.length →
      ∀ buf buf' n n', Code.base64Encode input out outlen = some (0, buf, n) →
        Code.base64Encode input' out' outlen' = some (0, buf', n') →
          buf.take n = buf'.take n' → input = input' := by
  intro size
  have hlen := length_base64Chars input
  rw [Code.base64Encode_eq hn hout]
  refine ⟨fun h => ⟨base64Chars input, hlen, decode_base64Chars input, ?_⟩, fun h => ?_, ?_⟩
  · rw [base64Encode, if_neg (not_lt.mpr h)]
    simp only [hlen, size]
  · rw [base64Encode, if_pos h]
  · intro input' out' outlen' hn' hout' buf buf' n n' henc henc' heq
    rw [Code.base64Encode_eq hn' hout'] at henc'
    have htext := take_of_base64Encode (Option.some.inj henc)
    have htext' := take_of_base64Encode (Option.some.inj henc')
    have hdecode := decode_base64Chars input
    rw [← htext, heq, htext', decode_base64Chars input'] at hdecode
    exact (Option.some.inj hdecode).symm

/-- Credentials of three bytes, with a buffer of eight bytes and with room for four. -/
theorem base64_encode_user_pass :
    (∃ chars, chars.length = 4 ∧ Base64.decode chars = some (ascii "u:p") ∧
      Code.base64Encode (ascii "u:p") (List.replicate 8 7) 8 =
        some (0, chars ++ [0, 7, 7, 7], 4)) ∧
      Code.base64Encode (ascii "u:p") (List.replicate 8 7) 4 =
        some (-1, List.replicate 8 7, 5) := by
  have hall := base64_encode_correct (ascii "u:p") (List.replicate 8 7) 8 (by decide) (by decide)
  have hfour := base64_encode_correct (ascii "u:p") (List.replicate 8 7) 4 (by decide) (by decide)
  exact ⟨hall.1 (by decide), hfour.2.1 (by decide)⟩

end XHttpCache
