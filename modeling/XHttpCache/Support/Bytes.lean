import Mathlib

/-!
# Support — byte strings

Byte strings in unsigned lexicographic order, and numbers stored in them at a fixed width.

* `append_lt_append_iff`: with first halves of one length, the order is decided by the halves
  in turn; `prefix_of_between`: what lies between two strings that start with `p` starts with
  `p`.
* `leBytes w n`, `beBytes w n`: the `w` low bytes of `n`, least and most significant first;
  `ofLE`, `ofBE` read them back.
* `beBytes_lt_iff`: most significant first, the byte order is the numeric order.
-/

namespace Support

/-- A byte. -/
abbrev Byte := Fin 256

instance byteNeZero : NeZero 256 := ⟨by decide⟩

instance byteLawfulBEq : LawfulBEq Byte := inferInstance

/-- A byte string. -/
abbrev Bytes := List Byte

instance bytesLawfulBEq : LawfulBEq Bytes := inferInstance

/-- The bytes of an ASCII literal. -/
def ascii (s : String) : Bytes := s.toList.map fun c => Fin.ofNat 256 c.toNat

/-! ### The lexicographic order -/

section Lex

variable {α : Type} [LinearOrder α]

theorem append_lt_append_left_iff (p : List α) {a b : List α} : p ++ a < p ++ b ↔ a < b := by
  induction p with
  | nil => rfl
  | cons x p ih => rw [List.cons_append, List.cons_append, List.cons_lt_cons_iff]; simp [ih]

/-- Two strings whose first halves have one length compare by the first halves, then by the
second. -/
theorem append_lt_append_iff :
    ∀ {a b x y : List α}, a.length = b.length →
      (a ++ x < b ++ y ↔ a < b ∨ a = b ∧ x < y)
  | [], [], _, _, _ => by simp
  | [], _ :: _, _, _, h => by simp at h
  | _ :: _, [], _, _, h => by simp at h
  | c :: a, d :: b, x, y, h => by
      have ih := append_lt_append_iff (x := x) (y := y) (Nat.succ.inj h : a.length = b.length)
      rw [List.cons_append, List.cons_append, List.cons_lt_cons_iff, List.cons_lt_cons_iff, ih,
        List.cons.injEq]
      tauto

/-- What lies between two strings that start with `p` starts with `p`. -/
theorem prefix_of_between {p a b r : List α} (h₁ : p ++ a ≤ r) (h₂ : r < p ++ b) : p <+: r := by
  induction p generalizing r with
  | nil => exact List.nil_prefix
  | cons x p ih =>
      cases r with
      | nil => exact absurd h₁ (not_le.mpr (List.nil_lt_cons x (p ++ a)))
      | cons y r =>
          rw [List.cons_append] at h₁ h₂
          rcases List.cons_lt_cons_iff.mp h₂ with hy | ⟨rfl, hr⟩
          · exact absurd (List.cons_lt_cons_iff.mpr (Or.inl hy)) (not_lt.mpr h₁)
          · refine List.prefix_cons_inj y |>.mpr (ih ?_ hr)
            exact not_lt.mp fun hlt =>
              absurd (List.cons_lt_cons_iff.mpr (Or.inr ⟨rfl, hlt⟩)) (not_lt.mpr h₁)

end Lex

/-! ### Fixed-width numbers -/

/-- The `w` low bytes of `n`, least significant first. -/
def leBytes : Nat → Nat → Bytes
  | 0, _ => []
  | w + 1, n => Fin.ofNat 256 n :: leBytes w (n / 256)

/-- The number whose bytes are `bs`, least significant first. -/
def ofLE : Bytes → Nat
  | [] => 0
  | b :: bs => b.val + 256 * ofLE bs

/-- The `w` low bytes of `n`, most significant first. -/
def beBytes (w n : Nat) : Bytes := (leBytes w n).reverse

@[simp] theorem length_leBytes : ∀ w n : Nat, (leBytes w n).length = w
  | 0, _ => rfl
  | w + 1, n => by simp [leBytes, length_leBytes w]

@[simp] theorem length_beBytes (w n : Nat) : (beBytes w n).length = w := by simp [beBytes]

/-- Byte `i` of the `w` low bytes. -/
theorem getElem_leBytes : ∀ {w n i : Nat} (h : i < (leBytes w n).length),
    (leBytes w n)[i] = Fin.ofNat 256 (n / 256 ^ i)
  | 0, _, _, h => absurd h (Nat.not_lt_zero _)
  | w + 1, n, 0, _ => by simp [leBytes]
  | w + 1, n, i + 1, h => by
      simp only [leBytes, List.getElem_cons_succ]
      rw [getElem_leBytes, Nat.div_div_eq_div_mul, pow_succ, Nat.mul_comm]

theorem ofLE_leBytes : ∀ w n : Nat, ofLE (leBytes w n) = n % 256 ^ w
  | 0, n => by simp [leBytes, ofLE, Nat.mod_one]
  | w + 1, n => by
      simp only [leBytes, ofLE, ofLE_leBytes w, Fin.ofNat, pow_succ]
      rw [Nat.mul_comm (256 ^ w) 256, Nat.mod_mul]

theorem leBytes_ofLE : ∀ bs : Bytes, leBytes bs.length (ofLE bs) = bs
  | [] => rfl
  | b :: bs => by
      have hd : (b.val + 256 * ofLE bs) / 256 = ofLE bs := by have := b.isLt; omega
      simp only [List.length_cons, leBytes, ofLE, hd, leBytes_ofLE bs, List.cons.injEq, and_true]
      exact Fin.ext (by simp [Fin.ofNat])

theorem leBytes_inj {w a b : Nat} (ha : a < 256 ^ w) (hb : b < 256 ^ w)
    (h : leBytes w a = leBytes w b) : a = b := by
  have := congrArg ofLE h
  rwa [ofLE_leBytes, ofLE_leBytes, Nat.mod_eq_of_lt ha, Nat.mod_eq_of_lt hb] at this

theorem beBytes_inj {w a b : Nat} (ha : a < 256 ^ w) (hb : b < 256 ^ w)
    (h : beBytes w a = beBytes w b) : a = b :=
  leBytes_inj ha hb (List.reverse_injective h)

theorem beBytes_succ (w n : Nat) : beBytes (w + 1) n = beBytes w (n / 256) ++ [Fin.ofNat 256 n] := by
  simp [beBytes, leBytes]

/-- Most significant byte first, the byte order is the numeric order. -/
theorem beBytes_lt_iff : ∀ {w a b : Nat}, a < 256 ^ w → b < 256 ^ w →
    (beBytes w a < beBytes w b ↔ a < b)
  | 0, a, b, ha, hb => by
      simp only [pow_zero, Nat.lt_one_iff] at ha hb
      simp [ha, hb]
  | w + 1, a, b, ha, hb => by
      have ha' : a / 256 < 256 ^ w := Nat.div_lt_of_lt_mul (by rwa [pow_succ, Nat.mul_comm] at ha)
      have hb' : b / 256 < 256 ^ w := Nat.div_lt_of_lt_mul (by rwa [pow_succ, Nat.mul_comm] at hb)
      have hlast : ([Fin.ofNat 256 a] : Bytes) < [Fin.ofNat 256 b] ↔ a % 256 < b % 256 := by
        rw [List.cons_lt_cons_iff]; simp [Fin.lt_def, Fin.ofNat]
      have heq : beBytes w (a / 256) = beBytes w (b / 256) ↔ a / 256 = b / 256 :=
        ⟨beBytes_inj ha' hb', fun h => by rw [h]⟩
      rw [beBytes_succ, beBytes_succ, append_lt_append_iff (by simp), beBytes_lt_iff ha' hb',
        hlast, heq]
      omega

end Support
