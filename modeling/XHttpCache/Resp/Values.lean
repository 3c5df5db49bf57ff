import XHttpCache.Resp.Format
import XHttpCache.Support.Framing

/-!
# Resp — values

What a client reads: a RESP value is a line, and for a bulk string and an array what the number on
the line announces.  A line ends with the first CR LF, so a simple string and an error hold neither
CR nor LF.

No value can be taken for the beginning of another (`IsResp.append_inj`), so a stream of values is
read in one way (`IsResp.flatten_inj`): the `i`-th value of what a server sends is the `i`-th
answer, if every answer is one value.
-/

namespace XHttpCache
open Support

/-- Bytes that a line can hold. -/
def Line (l : Bytes) : Prop := ∀ c ∈ l, c ≠ 13 ∧ c ≠ 10

instance : DecidablePred Line := fun l =>
  decidable_of_iff (l.all fun c => c.val != 13 && c.val != 10) (by simp [Line, Fin.ext_iff])

/-- A line of the type `t`. -/
def respLine (t : Byte) (l : Bytes) : Bytes := t :: l ++ CRLF

/-- A bulk string. -/
def bulkLine (b : Bytes) : Bytes := respLine 36 (natDecimal b.length) ++ b ++ CRLF

/-- The values that are one line. -/
inductive OnLine : Byte → Bytes → Prop where
  | simple {l : Bytes} (h : Line l) : OnLine 43 l
  | error {l : Bytes} (h : Line l) : OnLine 45 l
  | int (n : Int) : OnLine 58 (decimal n)
  | nullBulk : OnLine 36 (ascii "-1")
  | nullArray : OnLine 42 (ascii "-1")

/-- The bytes are one RESP value. -/
inductive IsResp : Bytes → Prop where
  | line {t : Byte} {l : Bytes} (h : OnLine t l) : IsResp (respLine t l)
  | bulk (d : Bytes) : IsResp (respLine 36 (natDecimal d.length) ++ d ++ CRLF)
  | array {vs : List Bytes} (h : ∀ v ∈ vs, IsResp v) :
      IsResp (respLine 42 (natDecimal vs.length) ++ vs.flatten)

/-! ### Lines -/

/-- A line that can be looked through. -/
theorem line_of_all {l : Bytes} (h : (l.all fun c => c != 13 && c != 10) = true) : Line l := by
  intro c hc
  simpa using List.all_eq_true.mp h c hc

theorem line_natDecimal (n : Nat) : Line (natDecimal n) := by
  intro c hc
  have hd := isdigit_of_mem_natDecimal hc
  constructor
  · rintro rfl
    cases hd
  · rintro rfl
    cases hd

theorem line_decimal (v : Int) : Line (decimal v) := by
  rw [decimal]
  split_ifs
  · intro c hc
    rcases List.mem_cons.mp hc with rfl | hc
    · decide
    · exact line_natDecimal _ c hc
  · exact line_natDecimal _

theorem OnLine.line {t : Byte} {l : Bytes} (h : OnLine t l) : Line l := by
  cases h with
  | simple h => exact h
  | error h => exact h
  | int n => exact line_decimal n
  | nullBulk => exact line_of_all rfl
  | nullArray => exact line_of_all rfl

/-- Lines are split at the first CR. -/
theorem line_append_inj {l l' a b : Bytes} (h : Line l) (h' : Line l')
    (he : l ++ 13 :: a = l' ++ 13 :: b) : l = l' ∧ a = b :=
  append_cons_inj (fun hm => (h 13 hm).1 rfl) (fun hm => (h' 13 hm).1 rfl) he

theorem respLine_append_inj {t t' : Byte} {l l' a b : Bytes} (h : Line l) (h' : Line l')
    (he : respLine t l ++ a = respLine t' l' ++ b) : t = t' ∧ l = l' ∧ a = b := by
  simp only [respLine, CRLF, List.cons_append, List.append_assoc, List.nil_append,
    List.cons.injEq] at he
  obtain ⟨hl, hab⟩ := line_append_inj h h' he.2
  exact ⟨he.1, hl, List.tail_eq_of_cons_eq hab⟩

theorem natDecimal_inj {m n : Nat} (h : natDecimal m = natDecimal n) : m = n := by
  rw [← digitsValue_natDecimal m, h, digitsValue_natDecimal]

theorem natDecimal_ne_null (n : Nat) : natDecimal n ≠ ascii "-1" := by
  intro h
  have hd : isdigit 45 = true := isdigit_of_mem_natDecimal (n := n) (h ▸ List.mem_cons_self)
  cases hd

/-- A line that announces something is no value. -/
theorem OnLine.ne_natDecimal {t : Byte} {l : Bytes} (h : OnLine t l) (ht : t = 36 ∨ t = 42)
    (n : Nat) : l ≠ natDecimal n := by
  cases h with
  | simple _ => exact absurd ht (by decide)
  | error _ => exact absurd ht (by decide)
  | int _ => exact absurd ht (by decide)
  | nullBulk => exact (natDecimal_ne_null n).symm
  | nullArray => exact (natDecimal_ne_null n).symm

/-! ### Values are read in one way -/

theorem IsResp.ne_nil {u : Bytes} (h : IsResp u) : u ≠ [] := by
  cases h with
  | line => exact List.cons_ne_nil _ _
  | bulk => exact List.cons_ne_nil _ _
  | array => exact List.cons_ne_nil _ _

theorem getLast?_respLine (t : Byte) (l : Bytes) : (respLine t l).getLast? = some 10 := by
  simp [respLine, CRLF, List.getLast?_cons]

/-- A value ends with LF. -/
theorem IsResp.getLast? {u : Bytes} (h : IsResp u) : u.getLast? = some 10 := by
  induction h with
  | line h => exact getLast?_respLine _ _
  | bulk d => simp [CRLF]
  | @array vs h ih =>
      rcases List.eq_nil_or_concat vs with rfl | ⟨vs, v, rfl⟩
      · simp [getLast?_respLine]
      · have hv := ih v (by simp)
        simp [List.getLast?_append, hv]

/-- **No value can be taken for the beginning of another.** -/
theorem IsResp.append_inj {u v a b : Bytes} (hu : IsResp u) (hv : IsResp v)
    (he : u ++ a = v ++ b) : u = v ∧ a = b := by
  induction hu generalizing v a b with
  | @line t l h =>
      cases hv with
      | @line t' l' h' =>
          obtain ⟨rfl, rfl, hab⟩ := respLine_append_inj h.line h'.line he
          exact ⟨rfl, hab⟩
      | bulk d =>
          rw [List.append_assoc, List.append_assoc] at he
          obtain ⟨ht, hl, -⟩ := respLine_append_inj h.line (line_natDecimal _) he
          exact absurd hl (h.ne_natDecimal (Or.inl ht) _)
      | array hvs =>
          rw [List.append_assoc] at he
          obtain ⟨ht, hl, -⟩ := respLine_append_inj h.line (line_natDecimal _) he
          exact absurd hl (h.ne_natDecimal (Or.inr ht) _)
  | bulk d =>
      rw [List.append_assoc, List.append_assoc] at he
      cases hv with
      | line h' =>
          obtain ⟨ht, hl, -⟩ := respLine_append_inj (line_natDecimal _) h'.line he
          exact absurd hl.symm (h'.ne_natDecimal (Or.inl ht.symm) _)
      | bulk d' =>
          rw [List.append_assoc, List.append_assoc] at he
          obtain ⟨-, hl, hd⟩ := respLine_append_inj (line_natDecimal _) (line_natDecimal _) he
          obtain ⟨rfl, hab⟩ := List.append_inj hd (natDecimal_inj hl)
          exact ⟨rfl, List.append_cancel_left hab⟩
      | array _ =>
          rw [List.append_assoc] at he
          obtain ⟨ht, -⟩ := respLine_append_inj (line_natDecimal _) (line_natDecimal _) he
          exact absurd ht (by decide)
  | @array us hus ih =>
      rw [List.append_assoc] at he
      cases hv with
      | line h' =>
          obtain ⟨ht, hl, -⟩ := respLine_append_inj (line_natDecimal _) h'.line he
          exact absurd hl.symm (h'.ne_natDecimal (Or.inr ht.symm) _)
      | bulk d' =>
          rw [List.append_assoc, List.append_assoc] at he
          obtain ⟨ht, -⟩ := respLine_append_inj (line_natDecimal _) (line_natDecimal _) he
          exact absurd ht (by decide)
      | @array vs hvs =>
          rw [List.append_assoc] at he
          obtain ⟨-, hl, hflat⟩ := respLine_append_inj (line_natDecimal _) (line_natDecimal _) he
          obtain ⟨rfl, hab⟩ := flatten_append_inj (fun u hu v hv c d => ih u hu (hvs v hv))
            (natDecimal_inj hl) hflat
          exact ⟨rfl, hab⟩

/-- **A stream of values is read in one way.** -/
theorem IsResp.flatten_inj {us vs : List Bytes} (hu : ∀ u ∈ us, IsResp u) (hv : ∀ v ∈ vs, IsResp v)
    (he : us.flatten = vs.flatten) : us = vs :=
  Support.flatten_inj (fun _ _ hu hv _ _ => hu.append_inj hv) (fun _ => IsResp.ne_nil) hu hv he

end XHttpCache
