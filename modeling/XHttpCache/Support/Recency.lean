import Mathlib

/-!
# Support — recency

A history is the list of the uses of things, the latest first.  `recency us` has what was used in
`us`, each thing once and the one used last in front; `since us a` are the uses since `a` was last
used.

* `mem_take_recency`: the first `n` of `recency us` are what was used and since whose last use
  fewer than `n` other things were.
* `pairwise_recency`: what stands before another thing was used since.
* `take_touch`: the first `n` after one more use are those before it, with the use moved to the
  front, or put there in the stead of the last: a cache of size `n` that replaces what is least
  recently used holds the first `n` of its history.
-/

namespace Support

variable {α : Type} [DecidableEq α]

/-- `l` with `a` in front, moved there if `l` has it. -/
def touch (a : α) (l : List α) : List α := a :: l.erase a

/-- What is used in a history, by the last use. -/
def recency : List α → List α
  | [] => []
  | a :: us => touch a (recency us)

/-- The uses since the last use of `a`. -/
def since : List α → α → List α
  | [], _ => []
  | b :: us, a => if b = a then [] else b :: since us a

/-- `a` is among the `n` things most recently used. -/
def AmongRecent (n : Nat) (us : List α) (a : α) : Prop :=
  a ∈ us ∧ (since us a).toFinset.card < n

instance decidableAmongRecent (n : Nat) (us : List α) (a : α) : Decidable (AmongRecent n us a) :=
  inferInstanceAs (Decidable (_ ∧ _))

/-- What a cache of size `n` makes of a use of `a`. -/
def replaceLru (n : Nat) (l : List α) (a : α) : List α :=
  if a ∈ l then touch a l else if l.length = n then a :: l.dropLast else a :: l

variable {us l : List α} {a b : α} {n : Nat}

/-! ### The uses since -/

theorem since_cons_self (a : α) (us : List α) : since (a :: us) a = [] := if_pos rfl

theorem since_cons_ne (h : b ≠ a) (us : List α) : since (b :: us) a = b :: since us a := if_neg h

theorem since_sublist (us : List α) (a : α) : (since us a).Sublist us := by
  induction us with
  | nil => exact List.Sublist.slnil
  | cons b us ih =>
      by_cases hb : b = a
      · rw [hb, since_cons_self]
        exact List.nil_sublist _
      · rw [since_cons_ne hb]
        exact ih.cons_cons b

theorem mem_since_erase {c : α} (h : l.Nodup) (hc : c ≠ a) :
    b ∈ since (l.erase c) a ↔ b ∈ since l a ∧ b ≠ c := by
  induction l with
  | nil => exact iff_of_false List.not_mem_nil fun hb => absurd hb.1 List.not_mem_nil
  | cons x l ih =>
      obtain ⟨hx, hl⟩ := List.nodup_cons.mp h
      by_cases hxc : x = c
      · subst hxc
        rw [List.erase_cons_head, since_cons_ne hc, List.mem_cons]
        constructor
        · intro hb
          exact ⟨Or.inr hb, fun he => hx (he ▸ (since_sublist l a).mem hb)⟩
        · rintro ⟨hb | hb, hne⟩
          · exact absurd hb hne
          · exact hb
      · rw [List.erase_cons_tail (by simpa using hxc)]
        by_cases hxa : x = a
        · rw [hxa, since_cons_self, since_cons_self]
          exact iff_of_false List.not_mem_nil fun hb => absurd hb.1 List.not_mem_nil
        · rw [since_cons_ne hxa, since_cons_ne hxa, List.mem_cons, List.mem_cons, ih hl]
          constructor
          · rintro (rfl | ⟨hb, hne⟩)
            · exact ⟨Or.inl rfl, hxc⟩
            · exact ⟨Or.inr hb, hne⟩
          · rintro ⟨hb | hb, hne⟩
            · exact Or.inl hb
            · exact Or.inr ⟨hb, hne⟩

/-- A thing is among the first `n` if fewer than `n` stand before it. -/
theorem mem_take_iff : a ∈ l.take n ↔ a ∈ l ∧ (since l a).length < n := by
  induction l generalizing n with
  | nil => simp
  | cons x l ih =>
      cases n with
      | zero => simp
      | succ n =>
          by_cases hx : x = a
          · rw [hx, since_cons_self]
            exact iff_of_true List.mem_cons_self ⟨List.mem_cons_self, Nat.succ_pos n⟩
          · rw [List.take_succ_cons, since_cons_ne hx, List.mem_cons, List.mem_cons, ih,
              List.length_cons, Nat.succ_lt_succ_iff]
            simp only [Ne.symm hx, false_or]

/-- In a list without duplicates, what stands before a thing is what is found before it. -/
theorem pairwise_since (h : l.Nodup) : l.Pairwise fun a b => a ∈ since l b := by
  induction l with
  | nil => exact List.Pairwise.nil
  | cons x l ih =>
      obtain ⟨hx, hl⟩ := List.nodup_cons.mp h
      have hne : ∀ b ∈ l, x ≠ b := fun b hb he => hx (he ▸ hb)
      refine List.pairwise_cons.mpr ⟨fun b hb => ?_, ?_⟩
      · rw [since_cons_ne (hne b hb)]
        exact List.mem_cons_self
      · refine (ih hl).imp_of_mem fun {a b} _ hb hab => ?_
        rw [since_cons_ne (hne b hb)]
        exact List.mem_cons_of_mem x hab

/-! ### The order of the last uses -/

theorem mem_recency : a ∈ recency us ↔ a ∈ us := by
  induction us with
  | nil => exact Iff.rfl
  | cons b us ih =>
      rw [recency, touch, List.mem_cons, List.mem_cons]
      by_cases hab : a = b
      · exact iff_of_true (Or.inl hab) (Or.inl hab)
      · rw [List.mem_erase_of_ne hab, ih]

theorem nodup_recency (us : List α) : (recency us).Nodup := by
  induction us with
  | nil => exact List.nodup_nil
  | cons b us ih => exact List.nodup_cons.mpr ⟨ih.not_mem_erase, ih.erase b⟩

/-- The same things are found before another one in a history and in its order. -/
theorem mem_since_recency : b ∈ since (recency us) a ↔ b ∈ since us a := by
  induction us with
  | nil => exact Iff.rfl
  | cons c us ih =>
      by_cases hc : c = a
      · rw [recency, touch, hc, since_cons_self, since_cons_self]
      · rw [recency, touch, since_cons_ne hc, since_cons_ne hc, List.mem_cons, List.mem_cons,
          mem_since_erase (nodup_recency us) hc, ih]
        by_cases hbc : b = c
        · exact iff_of_true (Or.inl hbc) (Or.inl hbc)
        · exact or_congr_right (and_iff_left hbc)

/-- **The first `n`** are the `n` most recently used. -/
theorem mem_take_recency : a ∈ (recency us).take n ↔ AmongRecent n us a := by
  have hnodup : (since (recency us) a).Nodup := (nodup_recency us).sublist (since_sublist _ a)
  have hcard : (since us a).toFinset = (since (recency us) a).toFinset := by
    ext b
    rw [List.mem_toFinset, List.mem_toFinset, mem_since_recency]
  rw [mem_take_iff, mem_recency, AmongRecent, hcard, List.toFinset_card_of_nodup hnodup]

/-- **What stands before another thing** was used since. -/
theorem pairwise_recency (us : List α) : (recency us).Pairwise fun a b => a ∈ since us b :=
  (pairwise_since (nodup_recency us)).imp mem_since_recency.mp

/-! ### Replacing what is least recently used -/

theorem take_erase_of_mem (h : a ∈ l.take (n + 1)) :
    (l.erase a).take n = (l.take (n + 1)).erase a := by
  induction l generalizing n with
  | nil => exact absurd h List.not_mem_nil
  | cons x l ih =>
      by_cases hx : x = a
      · subst hx
        rw [List.erase_cons_head, List.take_succ_cons, List.erase_cons_head]
      · have hxa : ¬ (x == a) = true := by simpa using hx
        rw [List.take_succ_cons] at h ⊢
        rw [List.erase_cons_tail hxa, List.erase_cons_tail hxa]
        have hmem : a ∈ l.take n := (List.mem_cons.mp h).resolve_left (Ne.symm hx)
        cases n with
        | zero => cases hmem
        | succ n => rw [List.take_succ_cons, ih hmem]

theorem take_erase_of_notMem (h : a ∉ l.take (n + 1)) : (l.erase a).take n = l.take n := by
  induction l generalizing n with
  | nil => rfl
  | cons x l ih =>
      rw [List.take_succ_cons] at h
      obtain ⟨hx, hl⟩ := not_or.mp (fun hn => h (List.mem_cons.mpr hn))
      have hxa : ¬ (x == a) = true := by simpa using Ne.symm hx
      rw [List.erase_cons_tail hxa]
      cases n with
      | zero => rfl
      | succ n => rw [List.take_succ_cons, List.take_succ_cons, ih hl]

/-- **One more use**, of the first `n`. -/
theorem take_touch (a : α) (l : List α) (n : Nat) :
    (touch a l).take (n + 1) = replaceLru (n + 1) (l.take (n + 1)) a := by
  rw [touch, List.take_succ_cons, replaceLru]
  split_ifs with ha hfull
  · rw [touch, take_erase_of_mem ha]
  · rw [take_erase_of_notMem ha, List.dropLast_eq_take, hfull, Nat.add_sub_cancel, List.take_take,
      min_eq_left (Nat.le_succ n)]
  · have hlen : l.length ≤ n := by
      rw [List.length_take] at hfull
      omega
    rw [take_erase_of_notMem ha, List.take_of_length_le hlen,
      List.take_of_length_le (hlen.trans (Nat.le_succ n))]

end Support
