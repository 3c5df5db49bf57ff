import Mathlib
import XHttpCache.Support.Bytes

/-!
# Support — the C library

The functions of the C library that byte-handling C code leans on, over byte strings: machine
integers (`i32`, `i64`, `u64` reduce an integer to the type's range, two's complement), the
decimal conversions (`strtoll`, `atoi`, `%lld`), and the searches and comparisons of
`string.h`.  A C string ends at its first NUL (`cstr`).  A pointer that a buffer is filled through
is a `Cursor`.

The decimal conversions invert one another over the whole of `int64_t`
(`strtoll_decimal`), and two numbers with one decimal form are equal (`decimal_inj`).
-/

namespace Support

/-! ### Machine integers -/

/-- `x` reduced to `int32_t`. -/
def i32 (x : Int) : Int := x.bmod (2 ^ 32)

/-- `x` reduced to `int64_t`. -/
def i64 (x : Int) : Int := x.bmod (2 ^ 64)

/-- `x` reduced to `uint64_t`. -/
def u64 (x : Int) : Nat := (x % 2 ^ 64).toNat

/-- `INT_MAX`. -/
def INT_MAX : Int := 2 ^ 31 - 1

/-- `INT64_MAX`. -/
def INT64_MAX : Int := 2 ^ 63 - 1

/-- The values of an `int64_t`. -/
def IsI64 (x : Int) : Prop := -2 ^ 63 ≤ x ∧ x < 2 ^ 63

theorem i32_eq {x : Int} (h₁ : -2 ^ 31 ≤ x) (h₂ : x < 2 ^ 31) : i32 x = x :=
  Int.bmod_eq_of_le (by omega) (by omega)

theorem i32_lt (x : Int) : i32 x < 2 ^ 31 := by
  rw [i32, Int.bmod_def]
  split_ifs <;> omega

theorem le_i32 (x : Int) : -2 ^ 31 ≤ i32 x := by
  rw [i32, Int.bmod_def]
  split_ifs <;> omega

theorem i64_eq {x : Int} (h : IsI64 x) : i64 x = x := by
  obtain ⟨h₁, h₂⟩ := h
  exact Int.bmod_eq_of_le (by omega) (by omega)

theorem i64_isI64 (x : Int) : IsI64 (i64 x) := by
  have h₁ := Int.le_bmod (x := x) (m := 2 ^ 64) (by omega)
  have h₂ := Int.bmod_lt (x := x) (m := 2 ^ 64) (by omega)
  constructor <;> simp only [i64] <;> omega

theorem u64_lt (x : Int) : u64 x < 2 ^ 64 := by
  have h₁ := Int.emod_nonneg x (show (2 ^ 64 : Int) ≠ 0 by omega)
  have h₂ := Int.emod_lt_of_pos x (show (0 : Int) < 2 ^ 64 by omega)
  simp only [u64]
  omega

theorem u64_inj {x y : Int} (hx : IsI64 x) (hy : IsI64 y) (h : u64 x = u64 y) : x = y := by
  obtain ⟨hx₁, hx₂⟩ := hx
  obtain ⟨hy₁, hy₂⟩ := hy
  simp only [u64] at h
  omega

theorem u64_of_nonneg {x : Int} (h₀ : 0 ≤ x) (h : x < 2 ^ 64) : u64 x = x.toNat := by
  simp only [u64, Int.emod_eq_of_lt h₀ h]

/-! ### Characters -/

/-- `isspace`, in the C locale. -/
def isspace (c : Byte) : Bool := c = 32 || (9 ≤ c && c ≤ 13)

/-- `isdigit`. -/
def isdigit (c : Byte) : Bool := 48 ≤ c && c ≤ 57

/-- `tolower`, in the C locale. -/
def tolower (c : Byte) : Byte := if 65 ≤ c ∧ c ≤ 90 then c + 32 else c

/-- `toupper`, in the C locale. -/
def toupper (c : Byte) : Byte := if 97 ≤ c ∧ c ≤ 122 then c - 32 else c

/-- The bytes of a C string: those before its first NUL. -/
def cstr (s : Bytes) : Bytes := s.takeWhile (· ≠ 0)

/-- `strcasecmp(a, b) == 0`. -/
def strcasecmpEq (a b : Bytes) : Bool := (cstr a).map tolower = (cstr b).map tolower

/-- `strcmp(a, b) == 0`. -/
def strcmpEq (a b : Bytes) : Bool := cstr a = cstr b

/-- `strstr` over NUL-free strings: `hay` from the first occurrence of `needle` on. -/
def strstr (needle : Bytes) : Bytes → Option Bytes
  | [] => if needle = [] then some [] else none
  | c :: hay => if needle.isPrefixOf (c :: hay) then some (c :: hay) else strstr needle hay

/-- `memchr`: whether `c` is among the first `n` bytes of `s`. -/
def memchr (s : Bytes) (c : Byte) (n : Nat) : Bool := (s.take n).contains c

theorem strstr_eq_some {needle : Bytes} : ∀ {hay p : Bytes}, strstr needle hay = some p →
    needle <+: p ∧ p <:+ hay
  | [], p, h => by
      simp only [strstr] at h
      split_ifs at h with hn
      · cases h; exact ⟨hn ▸ List.prefix_refl _, List.suffix_refl _⟩
  | c :: hay, p, h => by
      simp only [strstr] at h
      split_ifs at h with hn
      · cases h; exact ⟨List.isPrefixOf_iff_prefix.mp hn, List.suffix_refl _⟩
      · obtain ⟨h₁, h₂⟩ := strstr_eq_some h
        exact ⟨h₁, h₂.trans (List.suffix_cons c hay)⟩

/-! ### Decimal numbers -/

/-- The value of a string of digits. -/
def digitsValue (s : Bytes) : Nat := s.foldl (fun acc c => acc * 10 + (c.val - 48)) 0

/-- The sign of a number and what follows it. -/
def signOf : Bytes → Bool × Bytes
  | 45 :: s => (true, s)
  | 43 :: s => (false, s)
  | s => (false, s)

/-- `strtoll(s, _, 10)`: leading white space, a sign, digits; saturating. -/
def strtoll (s : Bytes) : Int :=
  let (neg, t) := signOf (s.dropWhile isspace)
  let v : Int := digitsValue (t.takeWhile isdigit)
  if neg then max (-v) (-2 ^ 63) else min v (2 ^ 63 - 1)

theorem strtoll_isI64 (s : Bytes) : IsI64 (strtoll s) := by
  unfold strtoll IsI64
  dsimp only
  split_ifs <;> omega

/-- The number that a text starts with: leading white space, a sign, digits. -/
def numeral (s : Bytes) : Int :=
  let (neg, t) := signOf (s.dropWhile isspace)
  let v : Int := digitsValue (t.takeWhile isdigit)
  if neg then -v else v

/-- `strtoll` reads the number, if it fits. -/
theorem strtoll_eq_numeral {s : Bytes} (h : IsI64 (numeral s)) : strtoll s = numeral s := by
  unfold numeral IsI64 at h
  unfold strtoll numeral
  dsimp only at h ⊢
  split_ifs at h ⊢ <;> omega

theorem cstr_cons {c : Byte} (hc : c ≠ 0) (s : Bytes) : cstr (c :: s) = c :: cstr s :=
  List.takeWhile_cons_of_pos (decide_eq_true hc)

theorem dropWhile_cstr {q : Byte → Bool} (hq : q 0 = false) (s : Bytes) :
    (cstr s).dropWhile q = cstr (s.dropWhile q) := by
  induction s with
  | nil => rfl
  | cons c s ih =>
      by_cases hc : c = 0
      · subst hc
        rw [List.dropWhile_cons_of_neg (by simp [hq])]
        rfl
      · rw [cstr_cons hc]
        cases hqc : q c with
        | true => rw [List.dropWhile_cons_of_pos hqc, List.dropWhile_cons_of_pos hqc, ih]
        | false =>
            rw [List.dropWhile_cons_of_neg (by simp [hqc]), List.dropWhile_cons_of_neg (by simp [hqc]),
              cstr_cons hc]

theorem takeWhile_cstr {q : Byte → Bool} (hq : q 0 = false) (s : Bytes) :
    (cstr s).takeWhile q = s.takeWhile q := by
  induction s with
  | nil => rfl
  | cons c s ih =>
      by_cases hc : c = 0
      · subst hc
        rw [List.takeWhile_cons_of_neg (by simp [hq])]
        rfl
      · rw [cstr_cons hc, List.takeWhile_cons, List.takeWhile_cons, ih]

theorem signOf_cstr (s : Bytes) : signOf (cstr s) = ((signOf s).1, cstr (signOf s).2) := by
  cases s with
  | nil => rfl
  | cons c s =>
      by_cases hc : c = 0
      · subst hc
        rfl
      · rw [cstr_cons hc]
        unfold signOf
        split
        · rename_i heq
          cases heq
          rfl
        · rename_i heq
          cases heq
          rfl
        · rename_i h₁ h₂
          split
          · rename_i heq
            cases heq
            exact absurd rfl (h₁ _)
          · rename_i heq
            cases heq
            exact absurd rfl (h₂ _)
          · rw [cstr_cons hc]

/-- `strtoll` stops at a NUL, if not before. -/
theorem strtoll_cstr (s : Bytes) : strtoll (cstr s) = strtoll s := by
  rw [strtoll, strtoll, dropWhile_cstr (by decide), signOf_cstr]
  simp only [takeWhile_cstr (show isdigit 0 = false by decide)]

/-- `atoi(s)`. -/
def atoi (s : Bytes) : Int := i32 (strtoll s)

/-- `%llu`. -/
def natDecimal (n : Nat) : Bytes :=
  if n = 0 then [48] else (Nat.digits 10 n).reverse.map fun d => Fin.ofNat 256 (48 + d)

/-- `%lld`. -/
def decimal (v : Int) : Bytes :=
  if v < 0 then 45 :: natDecimal v.natAbs else natDecimal v.natAbs

/-- What `snprintf` leaves in a buffer of `size` bytes for the text `s`. -/
def snprintf (size : Nat) (s : Bytes) : Bytes := s.take (size - 1)

theorem natDecimal_ne_nil (n : Nat) : natDecimal n ≠ [] := by
  unfold natDecimal
  split_ifs with h
  · simp
  · simpa [Nat.digits_eq_nil_iff_eq_zero] using h

theorem decimal_ne_nil (v : Int) : decimal v ≠ [] := by
  unfold decimal
  split_ifs
  · exact List.cons_ne_nil _ _
  · exact natDecimal_ne_nil _

theorem isdigit_ofDigit {d : Nat} (h : d < 10) : isdigit (Fin.ofNat 256 (48 + d)) = true := by
  interval_cases d <;> rfl

theorem isdigit_of_mem_natDecimal {n : Nat} {c : Byte} (h : c ∈ natDecimal n) :
    isdigit c = true := by
  unfold natDecimal at h
  split_ifs at h with h0
  · rw [List.mem_singleton.mp h]; rfl
  · obtain ⟨d, hd, rfl⟩ := List.mem_map.mp h
    exact isdigit_ofDigit (Nat.digits_lt_base (by omega) (List.mem_reverse.mp hd))

theorem isdigit_or_of_mem_decimal {v : Int} {c : Byte} (h : c ∈ decimal v) :
    c = 45 ∨ isdigit c = true := by
  unfold decimal at h
  split_ifs at h
  · exact (List.mem_cons.mp h).imp_right isdigit_of_mem_natDecimal
  · exact Or.inr (isdigit_of_mem_natDecimal h)

theorem digitsValue_digits : ∀ {ds : List Nat}, (∀ d ∈ ds, d < 10) →
    digitsValue (ds.reverse.map fun d => Fin.ofNat 256 (48 + d)) = Nat.ofDigits 10 ds
  | [], _ => rfl
  | d :: ds, h => by
      have hd : d < 10 := h d List.mem_cons_self
      have ih := digitsValue_digits fun d' hd' => h d' (List.mem_cons_of_mem _ hd')
      have hv : (Fin.ofNat 256 (48 + d)).val - 48 = d := by
        simp only [Fin.ofNat]; omega
      rw [List.reverse_cons, List.map_append, digitsValue, List.foldl_append, ← digitsValue, ih]
      simp only [List.map_cons, List.map_nil, List.foldl_cons, List.foldl_nil, hv,
        Nat.ofDigits_cons]
      omega

theorem digitsValue_natDecimal (n : Nat) : digitsValue (natDecimal n) = n := by
  unfold natDecimal
  split_ifs with h
  · subst h; rfl
  · rw [digitsValue_digits fun d hd => Nat.digits_lt_base (by omega) hd, Nat.ofDigits_digits]

theorem takeWhile_natDecimal (n : Nat) {rest : Bytes} (h : ∀ c ∈ rest.head?, isdigit c = false) :
    (natDecimal n ++ rest).takeWhile isdigit = natDecimal n := by
  rw [List.takeWhile_append_of_pos fun c hc => isdigit_of_mem_natDecimal hc]
  cases rest with
  | nil => simp
  | cons c rest =>
      have hc : isdigit c = false := h c rfl
      rw [List.takeWhile_cons_of_neg (by simp [hc]), List.append_nil]

theorem not_isspace_of_isdigit {c : Byte} (h : isdigit c = true) : isspace c = false := by
  simp only [isdigit, isspace, Bool.and_eq_true, decide_eq_true_eq, Fin.le_def] at h ⊢
  have h₁ : ¬ c = 32 := fun e => by subst e; exact absurd h.1 (by decide)
  have h₂ : ¬ c.val ≤ 13 := fun e => absurd (h.1.trans e) (by decide)
  simp [h₁, h₂]

theorem signOf_of_isdigit {c : Byte} (s : Bytes) (h : isdigit c = true) :
    signOf (c :: s) = (false, c :: s) := by
  unfold signOf
  split
  · rename_i heq; cases heq; simp [isdigit] at h
  · rename_i heq; cases heq; simp [isdigit] at h
  · rfl

/-- **A non-negative decimal reads back**, whatever non-digit follows it. -/
theorem numeral_natDecimal_append {n : Nat} {rest : Bytes}
    (h : ∀ c ∈ rest.head?, isdigit c = false) : numeral (natDecimal n ++ rest) = n := by
  obtain ⟨c, s, hcs⟩ := List.exists_cons_of_ne_nil (natDecimal_ne_nil n)
  have hc : isdigit c = true := isdigit_of_mem_natDecimal (n := n) (hcs ▸ List.mem_cons_self)
  have htake := takeWhile_natDecimal n h
  rw [hcs, List.cons_append] at htake ⊢
  unfold numeral
  rw [List.dropWhile_cons_of_neg (by simp [not_isspace_of_isdigit hc]), signOf_of_isdigit _ hc]
  simp only [htake, ← hcs, digitsValue_natDecimal]
  rfl

theorem numeral_natDecimal (n : Nat) : numeral (natDecimal n) = n := by
  have h : ∀ c ∈ ([] : Bytes).head?, isdigit c = false := nofun
  simpa using numeral_natDecimal_append h

theorem strtoll_natDecimal_append {n : Nat} (hn : n < 2 ^ 63) {rest : Bytes}
    (h : ∀ c ∈ rest.head?, isdigit c = false) : strtoll (natDecimal n ++ rest) = n := by
  have hnum := numeral_natDecimal_append h (n := n)
  rw [strtoll_eq_numeral (by rw [hnum]; exact ⟨by omega, by omega⟩), hnum]

theorem strtoll_natDecimal {n : Nat} (hn : n < 2 ^ 63) : strtoll (natDecimal n) = n := by
  have h : ∀ c ∈ ([] : Bytes).head?, isdigit c = false := nofun
  simpa using strtoll_natDecimal_append hn h

/-- **The decimal form reads back**, over the whole of `int64_t`. -/
theorem strtoll_decimal {v : Int} (h : IsI64 v) : strtoll (decimal v) = v := by
  obtain ⟨h₁, h₂⟩ := h
  unfold decimal
  split_ifs with hv
  · have htake : (natDecimal v.natAbs).takeWhile isdigit = natDecimal v.natAbs := by
      have h : ∀ c ∈ ([] : Bytes).head?, isdigit c = false := nofun
      simpa using takeWhile_natDecimal v.natAbs h
    unfold strtoll
    rw [List.dropWhile_cons_of_neg (by decide)]
    simp only [signOf, htake, digitsValue_natDecimal, if_true]
    omega
  · rw [strtoll_natDecimal (by omega)]
    omega

theorem decimal_inj {v w : Int} (hv : IsI64 v) (hw : IsI64 w) (h : decimal v = decimal w) :
    v = w := by
  rw [← strtoll_decimal hv, h, strtoll_decimal hw]

theorem length_natDecimal_le {n k : Nat} (hk : 0 < k) (h : n < 10 ^ k) :
    (natDecimal n).length ≤ k := by
  unfold natDecimal
  split_ifs
  · exact hk
  · simpa using (Nat.digits_length_le_iff (by omega) n).mpr h

theorem length_decimal_le {v : Int} (h : IsI64 v) : (decimal v).length ≤ 20 := by
  obtain ⟨h₁, h₂⟩ := h
  have hn : (natDecimal v.natAbs).length ≤ 19 := length_natDecimal_le (by omega) (by omega)
  unfold decimal
  split_ifs
  · exact Nat.succ_le_succ hn
  · exact hn.trans (by omega)

theorem snprintf_decimal {v : Int} {size : Nat} (h : IsI64 v) (hs : 21 ≤ size) :
    snprintf size (decimal v) = decimal v := by
  have := length_decimal_le h
  exact List.take_of_length_le (by omega)

/-! ### Writing through a pointer -/

/-- A buffer and a pointer into it. -/
structure Cursor where
  mem : Bytes
  pos : Nat

namespace Cursor

/-- `*p++ = c`; there is none past the end of the buffer. -/
def put (p : Cursor) (c : Byte) : Option Cursor :=
  if p.pos < p.mem.length then some ⟨p.mem.set p.pos c, p.pos + 1⟩ else none

/-- The buffer `out` with `written` at its start, and a pointer behind it. -/
def after (out written : Bytes) : Cursor := ⟨written ++ out.drop written.length, written.length⟩

theorem put_after {out written : Bytes} (h : written.length < out.length) (c : Byte) :
    (after out written).put c = some (after out (written ++ [c])) := by
  have hlt : written.length < (written ++ out.drop written.length).length := by
    rw [List.length_append, List.length_drop]
    omega
  rw [put, after, if_pos hlt, after, List.set_append_right _ _ le_rfl, Nat.sub_self,
    List.drop_eq_getElem_cons h, List.set_cons_zero, List.length_append, List.append_assoc]
  rfl

end Cursor

end Support
