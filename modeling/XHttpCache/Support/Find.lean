import Mathlib

/-!
# Support — the first occurrence of a string in another

`find pat s` is the first position of `pat` in `s`, as a search from the front finds it.

* `find_eq_some_iff`, `find_eq_none_iff`: what is found, and when nothing is.
* `find_append`: an occurrence stays the first one, whatever is added behind.
* `find_append_drop`: where there is none, a reader that waits for more may forget all but the last
  `pat.length - 1` elements.
* `find_skip`, `find_append_cons`: what the search passes over, since no occurrence starts in it, or
  none goes over its end.
-/

namespace Support

variable {α : Type} {pat s t : List α} {n k : Nat}

/-- `pat` is in `s` at position `n`. -/
def OccursAt (pat s : List α) (n : Nat) : Prop := n ≤ s.length ∧ pat <+: s.drop n

theorem occursAt_iff : OccursAt pat s n ↔ ∃ a b, s = a ++ pat ++ b ∧ a.length = n := by
  constructor
  · rintro ⟨hn, b, hb⟩
    refine ⟨s.take n, b, ?_, List.length_take_of_le hn⟩
    rw [List.append_assoc, hb, List.take_append_drop]
  · rintro ⟨a, b, rfl, rfl⟩
    refine ⟨by simp, ?_⟩
    rw [List.append_assoc, List.drop_left]
    exact List.prefix_append pat b

theorem OccursAt.length_le (h : OccursAt pat s n) : n + pat.length ≤ s.length := by
  obtain ⟨a, b, rfl, rfl⟩ := occursAt_iff.mp h
  simp only [List.length_append]
  omega

theorem OccursAt.append (h : OccursAt pat s n) (t : List α) : OccursAt pat (s ++ t) n := by
  obtain ⟨a, b, rfl, rfl⟩ := occursAt_iff.mp h
  exact occursAt_iff.mpr ⟨a, b ++ t, by simp, rfl⟩

/-- An occurrence that ends in `s` is one in `s`. -/
theorem occursAt_append_iff (h : n + pat.length ≤ s.length) :
    OccursAt pat (s ++ t) n ↔ OccursAt pat s n := by
  refine ⟨?_, fun h => h.append t⟩
  rintro ⟨-, hp⟩
  rw [List.drop_append_of_le_length (by omega)] at hp
  refine ⟨by omega, ?_⟩
  exact List.prefix_of_prefix_length_le hp (List.prefix_append _ t)
    (by rw [List.length_drop]; omega)

theorem occursAt_drop_iff (hk : k ≤ s.length) :
    OccursAt pat (s.drop k) n ↔ OccursAt pat s (k + n) := by
  rw [OccursAt, OccursAt, List.drop_drop, List.length_drop]
  refine and_congr_left fun _ => ?_
  omega

variable [DecidableEq α]

/-- The first position of `pat` in `s`. -/
def find (pat s : List α) : Option Nat := (s.dropInfix? pat).map fun r => r.1.length

/-- The first position of `pat` in `s` from `pos` on. -/
def findFrom (pat s : List α) (pos : Nat) : Option Nat :=
  if pos ≤ s.length then (find pat (s.drop pos)).map (· + pos) else none

/-- **What is found** is an occurrence, and there is none before it. -/
theorem find_eq_some_iff :
    find pat s = some n ↔ OccursAt pat s n ∧ ∀ m < n, ¬ OccursAt pat s m := by
  simp only [find, Option.map_eq_some_iff, Prod.exists, List.dropInfix?_eq_some_iff, beq_iff_eq,
    occursAt_iff]
  constructor
  · rintro ⟨a, b, ⟨⟨i, hs, rfl⟩, hmin⟩, rfl⟩
    refine ⟨⟨a, b, hs, rfl⟩, ?_⟩
    rintro m hm ⟨a', b', hs', rfl⟩
    exact absurd (hmin a' _ b' hs' rfl) (Nat.not_le.mpr hm)
  · rintro ⟨⟨a, b, hs, rfl⟩, hmin⟩
    refine ⟨a, b, ⟨⟨pat, hs, rfl⟩, ?_⟩, rfl⟩
    rintro a' i b' hs' rfl
    exact Nat.not_lt.mp fun hlt => hmin _ hlt ⟨a', b', hs', rfl⟩

/-- **Nothing is found** exactly if there is no occurrence. -/
theorem find_eq_none_iff : find pat s = none ↔ ∀ m, ¬ OccursAt pat s m := by
  constructor
  · intro h m hm
    obtain ⟨n, hn, hmin⟩ : ∃ n, OccursAt pat s n ∧ ∀ m < n, ¬ OccursAt pat s m := by
      classical exact ⟨Nat.find ⟨m, hm⟩, Nat.find_spec ⟨m, hm⟩, fun m' => Nat.find_min ⟨m, hm⟩⟩
    rw [find_eq_some_iff.mpr ⟨hn, hmin⟩] at h
    cases h
  · intro h
    cases hf : find pat s with
    | none => rfl
    | some n => exact absurd (find_eq_some_iff.mp hf).1 (h n)

theorem find_le (h : find pat s = some n) : n + pat.length ≤ s.length :=
  (find_eq_some_iff.mp h).1.length_le

/-- There is none in what comes before it, even with all but the last element of it. -/
theorem find_take (h : find pat s = some n) {m : Nat} (hm : m < n + pat.length) :
    find pat (s.take m) = none := by
  rw [find_eq_none_iff]
  intro i hi
  have hlen := hi.length_le
  rw [List.length_take] at hlen
  have hs : OccursAt pat s i := by
    rw [← List.take_append_drop m s]
    exact hi.append _
  exact (find_eq_some_iff.mp h).2 i (by omega) hs

/-- **An occurrence stays the first one**, whatever comes behind. -/
theorem find_append (h : find pat s = some n) (t : List α) : find pat (s ++ t) = some n := by
  rw [find_eq_some_iff] at h ⊢
  refine ⟨h.1.append t, fun m hm hocc => h.2 m hm ?_⟩
  exact (occursAt_append_iff (by have := h.1.length_le; omega)).mp hocc

/-- The search may start where the first occurrence can start. -/
theorem find_drop (hk : k ≤ s.length) (h : ∀ m < k, ¬ OccursAt pat s m) :
    find pat s = (find pat (s.drop k)).map (k + ·) := by
  cases hf : find pat (s.drop k) with
  | none =>
      rw [find_eq_none_iff] at hf
      refine find_eq_none_iff.mpr fun m hm => ?_
      have hkm : k ≤ m := Nat.not_lt.mp fun hlt => h m hlt hm
      refine hf (m - k) ((occursAt_drop_iff hk).mpr ?_)
      rwa [Nat.add_sub_cancel' hkm]
  | some n =>
      rw [find_eq_some_iff] at hf
      refine find_eq_some_iff.mpr ⟨(occursAt_drop_iff hk).mp hf.1, fun m hm hocc => ?_⟩
      have hkm : k ≤ m := Nat.not_lt.mp fun hlt => h m hlt hocc
      have hmn : m < k + n := hm
      refine hf.2 (m - k) (by omega) ((occursAt_drop_iff hk).mpr ?_)
      rwa [Nat.add_sub_cancel' hkm]

/-- **A reader that waits for more** may forget what no occurrence can start in any more. -/
theorem find_append_drop (h : find pat s = none) (hk : k + pat.length ≤ s.length + 1)
    (hks : k ≤ s.length) (t : List α) :
    find pat (s ++ t) = (find pat (s.drop k ++ t)).map (k + ·) := by
  rw [← List.drop_append_of_le_length hks]
  refine find_drop (by rw [List.length_append]; omega) fun m hm hocc => ?_
  exact find_eq_none_iff.mp h m ((occursAt_append_iff (by omega)).mp hocc)

/-- The search passes over what the first element of `pat` is not in. -/
theorem find_skip {c : α} {l : List α} (hc : c ∉ l) (pat t : List α) :
    find (c :: pat) (l ++ t) = (find (c :: pat) t).map (l.length + ·) := by
  have hno : ∀ m < l.length, ¬ OccursAt (c :: pat) (l ++ t) m := by
    rintro m hm ⟨-, b, hb⟩
    rw [List.drop_append_of_le_length hm.le, List.drop_eq_getElem_cons hm, List.cons_append,
      List.cons_append] at hb
    exact hc (List.cons.inj hb |>.1 ▸ List.getElem_mem hm)
  rw [find_drop (by simp) hno, List.drop_left]

/-- The search passes over an element that is not in `pat`. -/
theorem find_append_cons {x : α} (h : find pat s = none) (hx : x ∉ pat) (t : List α) :
    find pat (s ++ x :: t) = (find pat t).map (s.length + 1 + ·) := by
  have hno : ∀ m < s.length + 1, ¬ OccursAt pat (s ++ x :: t) m := by
    intro m hm hocc
    by_cases hle : m + pat.length ≤ s.length
    · exact find_eq_none_iff.mp h m ((occursAt_append_iff hle).mp hocc)
    · -- an occurrence that does not end in `s` has `x` in it
      obtain ⟨b, hb⟩ := hocc.2
      have hm' : m ≤ s.length := by omega
      have hlt : s.length - m < pat.length := by omega
      have hget : (pat ++ b)[s.length - m]? = some x := by
        rw [hb, List.getElem?_drop, Nat.add_sub_cancel' hm', List.getElem?_append_right le_rfl,
          Nat.sub_self]
        rfl
      rw [List.getElem?_append_left hlt] at hget
      exact hx (List.mem_of_getElem? hget)
  rw [find_drop (by simp) hno, ← List.drop_drop, List.drop_left, List.drop_one, List.tail_cons]

/-- A pattern that ends with `c`, before the only `c`. -/
theorem find_concat_eq_none {c : α} {l : List α} (hc : c ∉ l) (h : ¬ pat <:+ l) :
    find (pat ++ [c]) (l ++ [c]) = none := by
  refine find_eq_none_iff.mpr fun m hm => h ?_
  obtain ⟨a, b, hab, -⟩ := occursAt_iff.mp hm
  rw [← List.append_assoc] at hab
  rcases List.eq_nil_or_concat b with rfl | ⟨b, y, rfl⟩
  · rw [List.append_nil] at hab
    exact ⟨a, (List.append_inj' hab rfl).1.symm⟩
  · rw [List.concat_eq_append, ← List.append_assoc] at hab
    rw [(List.append_inj' hab rfl).1] at hc
    simp at hc

theorem find_nil_of_ne (h : pat ≠ []) : find pat [] = none := by
  refine find_eq_none_iff.mpr fun m hm => ?_
  have hlen := hm.length_le
  have := List.length_pos_of_ne_nil h
  simp only [List.length_nil] at hlen
  omega

theorem ne_nil_of_find (h : find pat s = none) : pat ≠ [] := by
  rintro rfl
  exact find_eq_none_iff.mp h 0 ⟨Nat.zero_le _, List.nil_prefix⟩

/-- `pat` itself. -/
theorem find_self_append (t : List α) : find pat (pat ++ t) = some 0 :=
  find_eq_some_iff.mpr ⟨⟨Nat.zero_le _, List.prefix_append pat t⟩, fun m hm => absurd hm (by omega)⟩

end Support
