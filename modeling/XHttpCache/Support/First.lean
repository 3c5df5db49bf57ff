import Mathlib.Data.List.Basic

/-!
# Support — the first element with a property

A search from the front stops at the first element it accepts.  `First P l a` says which one that
is, without the search: nothing before it has the property.

* `First.unique`, `exists_first`: there is one if there is any, and only one.
* `findSome?_eq_some_iff_first`: what a search returns.
-/

namespace Support

variable {α β : Type} {P : α → Prop} {l : List α} {a b : α}

/-- `a` has `P`, and is the first in `l` that has. -/
def First (P : α → Prop) (l : List α) (a : α) : Prop :=
  ∃ before after, l = before ++ a :: after ∧ P a ∧ ∀ b ∈ before, ¬ P b

theorem First.mem (h : First P l a) : a ∈ l := by
  obtain ⟨before, after, rfl, -, -⟩ := h
  exact List.mem_append_right before List.mem_cons_self

theorem First.prop (h : First P l a) : P a := by
  obtain ⟨before, after, -, ha, -⟩ := h
  exact ha

theorem first_cons : First P (b :: l) a ↔ P b ∧ a = b ∨ ¬ P b ∧ First P l a := by
  constructor
  · rintro ⟨before, after, hl, ha, hbefore⟩
    cases before with
    | nil =>
        obtain ⟨rfl, rfl⟩ := List.cons.inj hl
        exact Or.inl ⟨ha, rfl⟩
    | cons c before =>
        obtain ⟨rfl, rfl⟩ := List.cons.inj hl
        exact Or.inr ⟨hbefore b List.mem_cons_self, before, after, rfl, ha,
          fun d hd => hbefore d (List.mem_cons_of_mem b hd)⟩
  · rintro (⟨hb, rfl⟩ | ⟨hb, before, after, rfl, ha, hbefore⟩)
    · exact ⟨[], l, rfl, hb, fun d hd => by cases hd⟩
    · refine ⟨b :: before, after, rfl, ha, fun d hd => ?_⟩
      rcases List.mem_cons.mp hd with rfl | hd
      · exact hb
      · exact hbefore d hd

theorem First.unique (h : First P l a) (h' : First P l b) : a = b := by
  induction l with
  | nil => cases h.mem
  | cons c l ih =>
      rcases first_cons.mp h with ⟨hc, rfl⟩ | ⟨hc, hl⟩ <;>
        rcases first_cons.mp h' with ⟨hc', rfl⟩ | ⟨hc', hl'⟩
      · rfl
      · exact absurd hc hc'
      · exact absurd hc' hc
      · exact ih hl hl'

theorem exists_first (h : ∃ a ∈ l, P a) : ∃ a, First P l a := by
  induction l with
  | nil =>
      obtain ⟨a, ha, -⟩ := h
      cases ha
  | cons b l ih =>
      by_cases hb : P b
      · exact ⟨b, first_cons.mpr (Or.inl ⟨hb, rfl⟩)⟩
      · obtain ⟨a, ha, hPa⟩ := h
        rcases List.mem_cons.mp ha with rfl | ha
        · exact absurd hPa hb
        · obtain ⟨d, hd⟩ := ih ⟨a, ha, hPa⟩
          exact ⟨d, first_cons.mpr (Or.inr ⟨hb, hd⟩)⟩

/-- **A search returns** what it makes of the first element that it makes something of. -/
theorem findSome?_eq_some_iff_first {f : α → Option β} {c : β} :
    l.findSome? f = some c ↔ ∃ a, First (fun a => f a ≠ none) l a ∧ f a = some c := by
  rw [List.findSome?_eq_some_iff]
  constructor
  · rintro ⟨before, a, after, hl, ha, hbefore⟩
    have hne : f a ≠ none := ne_of_eq_of_ne ha (Option.some_ne_none c)
    exact ⟨a, ⟨before, after, hl, hne, fun b hb => not_not_intro (hbefore b hb)⟩, ha⟩
  · rintro ⟨a, ⟨before, after, hl, -, hbefore⟩, ha⟩
    exact ⟨before, a, after, hl, ha, fun b hb => not_not.mp (hbefore b hb)⟩

end Support
