import Mathlib

/-!
# Support — items one after another

A sequence of items is written as the concatenation of their encodings, and a reader has got the
first `n` bytes of it.  `wholly enc n l` are the items it has got all of.

* `wholly_append`: what comes with more bytes comes after what was there.
* `drop_isPrefix`: the bytes that are left are the first bytes of the items that are left.

A concatenation can be read in one way if no item can be taken for the beginning of another:
`flatten_append_inj` for a known number of items, `flatten_inj` for items that are not empty.

A reader takes an item from the front of what there is and leaves the rest.  `readItems` repeats it
a known number of times, `readAll` to the end and `readUntil` to a separator; if it reads each item
back, whatever follows (`Reads`), they read a sequence back (`readItems_flatMap`, `readAll_flatMap`,
`readUntil_flatMap`).
-/

namespace Support

variable {α β : Type} (enc : α → List β)

/-- The items of `l` whose encodings are wholly contained in the first `n` bytes. -/
def wholly : Nat → List α → List α
  | _, [] => []
  | n, a :: l => if (enc a).length ≤ n then a :: wholly (n - (enc a).length) l else []

variable {enc}

theorem wholly_cons_of_le {a : α} {l : List α} {n : Nat} (h : (enc a).length ≤ n) :
    wholly enc n (a :: l) = a :: wholly enc (n - (enc a).length) l := if_pos h

theorem wholly_cons_of_lt {a : α} {l : List α} {n : Nat} (h : n < (enc a).length) :
    wholly enc n (a :: l) = [] := if_neg (Nat.not_le.mpr h)

theorem length_flatMap_wholly_le (n : Nat) (l : List α) :
    ((wholly enc n l).flatMap enc).length ≤ n := by
  induction l generalizing n with
  | nil => exact Nat.zero_le n
  | cons a l ih =>
      rw [wholly]
      split_ifs with h
      · have := ih (n - (enc a).length)
        rw [List.flatMap_cons, List.length_append]
        omega
      · exact Nat.zero_le n

/-- The items that come with `m` more bytes. -/
theorem wholly_append (n m : Nat) (l : List α) :
    wholly enc (n + m) l =
      wholly enc n l ++
        wholly enc (n - ((wholly enc n l).flatMap enc).length + m) (l.drop (wholly enc n l).length) := by
  induction l generalizing n with
  | nil => rfl
  | cons a l ih =>
      by_cases h : (enc a).length ≤ n
      · have hih := ih (n - (enc a).length)
        rw [wholly_cons_of_le h, wholly_cons_of_le (Nat.le_add_right_of_le h),
          show n + m - (enc a).length = n - (enc a).length + m by omega, hih, List.cons_append,
          List.flatMap_cons, List.length_append, List.length_cons, List.drop_succ_cons,
          Nat.sub_add_eq]
      · rw [wholly_cons_of_lt (Nat.not_le.mp h)]
        simp

/-- No item is left among the bytes that are left. -/
theorem wholly_rest (n : Nat) (l : List α) :
    wholly enc (n - ((wholly enc n l).flatMap enc).length) (l.drop (wholly enc n l).length) = [] := by
  have h : wholly enc (n + 0) l = _ := wholly_append n 0 l
  rw [Nat.add_zero, Nat.add_zero] at h
  exact List.self_eq_append_right.mp h

/-- The items that are there are the first ones. -/
theorem wholly_eq_take (n : Nat) (l : List α) : wholly enc n l = l.take (wholly enc n l).length := by
  induction l generalizing n with
  | nil => rfl
  | cons a l ih =>
      rw [wholly]
      split_ifs with h
      · rw [List.length_cons, List.take_succ_cons, ← ih]
      · rfl

theorem wholly_append_drop (n : Nat) (l : List α) :
    wholly enc n l ++ l.drop (wholly enc n l).length = l := by
  nth_rewrite 1 [wholly_eq_take n l]
  exact List.take_append_drop _ l

/-- All items are there when all bytes are. -/
theorem wholly_of_le {n : Nat} {l : List α} (h : (l.flatMap enc).length ≤ n) : wholly enc n l = l := by
  induction l generalizing n with
  | nil => rfl
  | cons a l ih =>
      rw [List.flatMap_cons, List.length_append] at h
      rw [wholly_cons_of_le (by omega), ih (by omega)]

theorem wholly_zero (h : ∀ a, enc a ≠ []) (l : List α) : wholly enc 0 l = [] := by
  cases l with
  | nil => rfl
  | cons a l => exact wholly_cons_of_lt (List.length_pos_of_ne_nil (h a))

/-- Nothing is left of bytes that end with an item. -/
theorem length_flatMap_wholly_take (l : List α) (j : Nat) :
    ((wholly enc ((l.take j).flatMap enc).length l).flatMap enc).length =
      ((l.take j).flatMap enc).length := by
  induction l generalizing j with
  | nil => simp [wholly]
  | cons a l ih =>
      cases j with
      | zero => exact Nat.le_zero.mp (length_flatMap_wholly_le 0 (a :: l))
      | succ j =>
          rw [List.take_succ_cons, List.flatMap_cons, List.length_append,
            wholly_cons_of_le (Nat.le_add_right _ _), Nat.add_sub_cancel_left, List.flatMap_cons,
            List.length_append, ih]

theorem length_wholly_eq_iff {n : Nat} {l : List α} :
    (wholly enc n l).length = l.length ↔ (l.flatMap enc).length ≤ n := by
  constructor
  · intro h
    have hall : wholly enc n l = _ := wholly_eq_take n l
    rw [h, List.take_length] at hall
    rw [← hall]
    exact length_flatMap_wholly_le n l
  · intro h
    rw [wholly_of_le h]

/-- Items that are there come first, and then what comes with the other bytes. -/
theorem wholly_append_left (w rest : List α) (k : Nat) :
    wholly enc ((w.flatMap enc).length + k) (w ++ rest) = w ++ wholly enc k rest := by
  induction w with
  | nil => simp
  | cons a w ih =>
      rw [List.flatMap_cons, List.length_append, List.cons_append, Nat.add_assoc,
        wholly_cons_of_le (Nat.le_add_right _ _), Nat.add_sub_cancel_left, ih, List.cons_append]

/-- What is left of a prefix of the encodings, once an item is taken from it. -/
theorem drop_isPrefix {a : List β} {b c : List β} (h : b <+: a ++ c) : b.drop a.length <+: c := by
  have := h.drop a.length
  rwa [List.drop_left] at this

/-! ### Reading a concatenation in one way -/

/-- What comes before the first separator, and what comes after it. -/
theorem append_cons_inj {c : β} {l l' a b : List β} (h : c ∉ l) (h' : c ∉ l')
    (he : l ++ c :: a = l' ++ c :: b) : l = l' ∧ a = b := by
  induction l generalizing l' with
  | nil =>
      cases l' with
      | nil => exact ⟨rfl, List.tail_eq_of_cons_eq he⟩
      | cons d l' => exact absurd (List.head_eq_of_cons_eq he ▸ List.mem_cons_self) h'
  | cons d l ih =>
      cases l' with
      | nil => exact absurd (List.head_eq_of_cons_eq he ▸ List.mem_cons_self) h
      | cons d' l' =>
          obtain rfl : d = d' := List.head_eq_of_cons_eq he
          obtain ⟨rfl, hab⟩ := ih (fun hm => h (List.mem_cons_of_mem _ hm))
            (fun hm => h' (List.mem_cons_of_mem _ hm)) (List.tail_eq_of_cons_eq he)
          exact ⟨rfl, hab⟩

/-- As many items of `us` and of `vs` before `a` and before `b`: if no item of one can be taken for
the beginning of an item of the other, they are the same. -/
theorem flatten_append_inj {us vs : List (List β)} {a b : List β}
    (h : ∀ u ∈ us, ∀ v ∈ vs, ∀ c d, u ++ c = v ++ d → u = v ∧ c = d)
    (hlen : us.length = vs.length) (he : us.flatten ++ a = vs.flatten ++ b) : us = vs ∧ a = b := by
  induction us generalizing vs with
  | nil =>
      obtain rfl : vs = [] := List.length_eq_zero_iff.mp hlen.symm
      exact ⟨rfl, he⟩
  | cons u us ih =>
      cases vs with
      | nil => cases hlen
      | cons v vs =>
          rw [List.flatten_cons, List.flatten_cons, List.append_assoc, List.append_assoc] at he
          obtain ⟨rfl, hrest⟩ := h u List.mem_cons_self v List.mem_cons_self _ _ he
          obtain ⟨rfl, hab⟩ := ih (fun u hu v hv => h u (List.mem_cons_of_mem _ hu) v
            (List.mem_cons_of_mem _ hv)) (Nat.succ.inj hlen) hrest
          exact ⟨rfl, hab⟩

/-- **A stream of items is read in one way.** -/
theorem flatten_inj {P : List β → Prop}
    (hP : ∀ u v, P u → P v → ∀ c d, u ++ c = v ++ d → u = v ∧ c = d)
    (hne : ∀ u, P u → u ≠ []) {us vs : List (List β)} (hu : ∀ u ∈ us, P u) (hv : ∀ v ∈ vs, P v)
    (he : us.flatten = vs.flatten) : us = vs := by
  induction us generalizing vs with
  | nil =>
      cases vs with
      | nil => rfl
      | cons v vs =>
          have hnil : v ++ vs.flatten = [] := he.symm
          exact absurd (List.append_eq_nil_iff.mp hnil).1 (hne v (hv v List.mem_cons_self))
  | cons u us ih =>
      cases vs with
      | nil =>
          have hnil : u ++ us.flatten = [] := he
          exact absurd (List.append_eq_nil_iff.mp hnil).1 (hne u (hu u List.mem_cons_self))
      | cons v vs =>
          obtain ⟨rfl, hrest⟩ := hP u v (hu u List.mem_cons_self) (hv v List.mem_cons_self) _ _ he
          rw [ih (fun u h => hu u (List.mem_cons_of_mem _ h))
            (fun v h => hv v (List.mem_cons_of_mem _ h)) hrest]

/-! ### Readers -/

section Readers

variable {γ : Type} (read : List β → Option (γ × List β))

/-- `n` items, one after another, and what is left. -/
def readItems : Nat → List β → Option (List γ × List β)
  | 0, b => some ([], b)
  | n + 1, b => (read b).bind fun r => (readItems n r.2).map fun r' => (r.1 :: r'.1, r'.2)

/-- All items there are, at most `n`, with nothing left. -/
def readAll : Nat → List β → Option (List γ)
  | _, [] => some []
  | 0, _ :: _ => none
  | n + 1, c :: b => (read (c :: b)).bind fun r => (readAll n r.2).map (r.1 :: ·)

/-- The items up to `stop`, at most `n`, and what follows it. -/
def readUntil [DecidableEq β] (stop : β) : Nat → List β → Option (List γ × List β)
  | 0, b => if b.head? = some stop then some ([], b.tail) else none
  | n + 1, b =>
      if b.head? = some stop then some ([], b.tail)
      else (read b).bind fun r => (readUntil stop n r.2).map fun r' => (r.1 :: r'.1, r'.2)

/-- The item `a` is read back as `val a`, whatever follows. -/
def Reads (enc : α → List β) (val : α → γ) (a : α) : Prop :=
  ∀ rest, read (enc a ++ rest) = some (val a, rest)

variable {read} {val : α → γ}

theorem readItems_flatMap {l : List α} (h : ∀ a ∈ l, Reads read enc val a) (rest : List β) :
    readItems read l.length (l.flatMap enc ++ rest) = some (l.map val, rest) := by
  induction l with
  | nil => rfl
  | cons a l ih =>
      obtain ⟨ha, hl⟩ := List.forall_mem_cons.mp h
      rw [List.flatMap_cons, List.append_assoc, List.length_cons, readItems, ha, Option.bind_some,
        ih hl]
      rfl

/-- **A sequence of items is read back**, with as many rounds as there are items at least. -/
theorem readAll_flatMap {l : List α} (h : ∀ a ∈ l, Reads read enc val a)
    (hne : ∀ a ∈ l, enc a ≠ []) {n : Nat} (hn : l.length ≤ n) :
    readAll read n (l.flatMap enc) = some (l.map val) := by
  induction l generalizing n with
  | nil => rw [List.flatMap_nil, readAll, List.map_nil]
  | cons a l ih =>
      obtain ⟨ha, hl⟩ := List.forall_mem_cons.mp h
      obtain ⟨hane, hlne⟩ := List.forall_mem_cons.mp hne
      obtain ⟨n, rfl⟩ := Nat.exists_eq_succ_of_ne_zero (Nat.ne_zero_of_lt hn)
      obtain ⟨c, b, hcb⟩ := List.exists_cons_of_ne_nil hane
      have hread := ha (l.flatMap enc)
      rw [hcb, List.cons_append] at hread
      rw [List.flatMap_cons, hcb, List.cons_append, readAll, hread, Option.bind_some,
        ih hl hlne (Nat.le_of_succ_le_succ hn)]
      rfl

/-- **Items up to `stop`**, with which none starts, are read back. -/
theorem readUntil_flatMap [DecidableEq β] {stop : β} {l : List α}
    (h : ∀ a ∈ l, Reads read enc val a) (hstop : ∀ a ∈ l, ∃ c b, enc a = c :: b ∧ c ≠ stop)
    {n : Nat} (hn : l.length ≤ n) (rest : List β) :
    readUntil read stop n (l.flatMap enc ++ stop :: rest) = some (l.map val, rest) := by
  induction l generalizing n with
  | nil => cases n <;> simp [readUntil]
  | cons a l ih =>
      obtain ⟨ha, hl⟩ := List.forall_mem_cons.mp h
      obtain ⟨⟨c, b, hcb, hc⟩, hlstop⟩ := List.forall_mem_cons.mp hstop
      obtain ⟨n, rfl⟩ := Nat.exists_eq_succ_of_ne_zero (Nat.ne_zero_of_lt hn)
      have hread := ha (l.flatMap enc ++ stop :: rest)
      have hhead : (enc a ++ (l.flatMap enc ++ stop :: rest)).head? ≠ some stop := by
        rw [hcb]
        exact fun he => hc (Option.some.inj he)
      rw [List.flatMap_cons, List.append_assoc, readUntil, if_neg hhead, hread, Option.bind_some,
        ih hl hlstop (Nat.le_of_succ_le_succ hn)]
      rfl

theorem length_le_flatMap {l : List α} (hne : ∀ a ∈ l, enc a ≠ []) :
    l.length ≤ (l.flatMap enc).length := by
  induction l with
  | nil => exact Nat.le_refl _
  | cons a l ih =>
      obtain ⟨hane, hlne⟩ := List.forall_mem_cons.mp hne
      have hpos := List.length_pos_of_ne_nil hane
      have := ih hlne
      rw [List.flatMap_cons, List.length_append, List.length_cons]
      omega

end Readers

end Support
