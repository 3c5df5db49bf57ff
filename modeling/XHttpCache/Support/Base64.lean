import XHttpCache.Support.Bytes

/-!
# Support — base64 decoding

The decoding of RFC 4648 (section 4), strict: the characters come in groups of four, only the last
group is padded, and the bits that padding leaves over are zero.  A text has at most one decoding,
so what decodes back tells its source from every other one.

* `decode_three`, `decode_two`, `decode_one`: a group decodes to the bytes whose bits its characters
  stand for.
-/

namespace Support.Base64

/-- `=`. -/
def pad : Byte := 61

/-- The six bits that a character stands for. -/
def sextet (c : Byte) : Option Nat :=
  if 65 ≤ c.val ∧ c.val ≤ 90 then some (c.val - 65)
  else if 97 ≤ c.val ∧ c.val ≤ 122 then some (c.val - 71)
  else if 48 ≤ c.val ∧ c.val ≤ 57 then some (c.val + 4)
  else if c.val = 43 then some 62
  else if c.val = 47 then some 63
  else none

/-- The decoding of a text. -/
def decode : Bytes → Option Bytes
  | [] => some []
  | w :: x :: y :: z :: rest => do
      let s ← sextet w
      let t ← sextet x
      if rest = [] ∧ z = pad then
        if y = pad then
          if t % 16 = 0 then some [Fin.ofNat 256 (4 * s + t / 16)] else none
        else
          let u ← sextet y
          if u % 4 = 0 then
            some [Fin.ofNat 256 (4 * s + t / 16), Fin.ofNat 256 (16 * (t % 16) + u / 4)]
          else none
      else
        let u ← sextet y
        let v ← sextet z
        let bytes ← decode rest
        some (Fin.ofNat 256 (4 * s + t / 16) :: Fin.ofNat 256 (16 * (t % 16) + u / 4) ::
          Fin.ofNat 256 (64 * (u % 4) + v) :: bytes)
  | _ => none

theorem ne_pad_of_sextet {c : Byte} {n : Nat} (h : sextet c = some n) : c ≠ pad := by
  rintro rfl
  have hpad : sextet pad = none := by decide
  rw [hpad] at h
  cases h

theorem ofNat_eq_byte {a : Byte} {n : Nat} (h : n = a.val) : Fin.ofNat 256 n = a :=
  Fin.ext (by rw [h]; exact Nat.mod_eq_of_lt a.isLt)

variable {a b c w x y z : Byte}

/-- Four characters that stand for the bits of three bytes. -/
theorem decode_three (hw : sextet w = some (a.val / 4))
    (hx : sextet x = some (a.val % 4 * 16 + b.val / 16))
    (hy : sextet y = some (b.val % 16 * 4 + c.val / 64)) (hz : sextet z = some (c.val % 64))
    (rest : Bytes) :
    decode (w :: x :: y :: z :: rest) = (decode rest).map fun bytes => a :: b :: c :: bytes := by
  have hpad : ¬ (rest = [] ∧ z = pad) := fun h => ne_pad_of_sextet hz h.2
  have hb := b.isLt
  have hc := c.isLt
  have h₁ : Fin.ofNat 256 (4 * (a.val / 4) + (a.val % 4 * 16 + b.val / 16) / 16) = a :=
    ofNat_eq_byte (by omega)
  have h₂ : Fin.ofNat 256
      (16 * ((a.val % 4 * 16 + b.val / 16) % 16) + (b.val % 16 * 4 + c.val / 64) / 4) = b :=
    ofNat_eq_byte (by omega)
  have h₃ : Fin.ofNat 256 (64 * ((b.val % 16 * 4 + c.val / 64) % 4) + c.val % 64) = c :=
    ofNat_eq_byte (by omega)
  rw [decode, hw, hx]
  simp only [Option.bind_eq_bind, Option.bind_some, if_neg hpad, hy, hz, h₁, h₂, h₃]
  exact Option.map_eq_bind.symm

/-- Three characters that stand for the bits of two bytes, and one padding character. -/
theorem decode_two (hw : sextet w = some (a.val / 4))
    (hx : sextet x = some (a.val % 4 * 16 + b.val / 16)) (hy : sextet y = some (b.val % 16 * 4)) :
    decode [w, x, y, pad] = some [a, b] := by
  have hb := b.isLt
  have h₁ : Fin.ofNat 256 (4 * (a.val / 4) + (a.val % 4 * 16 + b.val / 16) / 16) = a :=
    ofNat_eq_byte (by omega)
  have h₂ : Fin.ofNat 256 (16 * ((a.val % 4 * 16 + b.val / 16) % 16) + b.val % 16 * 4 / 4) = b :=
    ofNat_eq_byte (by omega)
  have hzero : b.val % 16 * 4 % 4 = 0 := Nat.mul_mod_left _ _
  rw [decode, hw, hx]
  simp only [Option.bind_eq_bind, Option.bind_some, true_and, if_true, if_neg (ne_pad_of_sextet hy),
    hy, hzero, h₁, h₂]

/-- Two characters that stand for the bits of one byte, and two padding characters. -/
theorem decode_one (hw : sextet w = some (a.val / 4)) (hx : sextet x = some (a.val % 4 * 16)) :
    decode [w, x, pad, pad] = some [a] := by
  have h₁ : Fin.ofNat 256 (4 * (a.val / 4) + a.val % 4 * 16 / 16) = a := ofNat_eq_byte (by omega)
  have hzero : a.val % 4 * 16 % 16 = 0 := Nat.mul_mod_left _ _
  rw [decode, hw, hx]
  simp only [Option.bind_eq_bind, Option.bind_some, true_and, if_true, hzero, h₁]

end Support.Base64
