import Mathlib.Data.List.Basic

/-!
# Support — lists of named entries

A list of entries that are looked up by name, where the names that `norm` makes equal count as one,
as names without regard to case do.  The first entry of a name is the one that counts.

* `lookupAs_alterAs`: what is found after an entry was changed, or added when there was none.
* `alterAs_append`: a name that is new to the beginning of a list is changed in the rest of it.
* `pairwise_alterAs`: the entries that others of the name stand before are left alone.
-/

namespace Support

variable {κ κ' ν μ : Type} [DecidableEq κ'] (norm : κ → κ')

/-- The first entry of the name. -/
def lookupAs (k : κ) (l : List (κ × ν)) : Option ν :=
  (l.find? fun r => norm r.1 = norm k).map (·.2)

/-- The first entry of the name is changed, or one is added at the end. -/
def alterAs (k : κ) (f : Option ν → ν) : List (κ × ν) → List (κ × ν)
  | [] => [(k, f none)]
  | r :: l => if norm r.1 = norm k then (r.1, f (some r.2)) :: l else r :: alterAs k f l

variable {norm} {k k' : κ} {f : Option ν → ν} {l l' : List (κ × ν)}

theorem lookupAs_congr (h : norm k = norm k') : lookupAs norm k l = lookupAs norm k' l := by
  rw [lookupAs, lookupAs, h]

theorem lookupAs_cons (r : κ × ν) :
    lookupAs norm k (r :: l) = if norm r.1 = norm k then some r.2 else lookupAs norm k l := by
  rw [lookupAs, List.find?_cons]
  split_ifs with h
  · rw [decide_eq_true h]
    rfl
  · rw [decide_eq_false h]
    rfl

theorem lookupAs_append :
    lookupAs norm k (l ++ l') = (lookupAs norm k l).or (lookupAs norm k l') := by
  rw [lookupAs, List.find?_append, Option.map_or]
  rfl

theorem lookupAs_map (g : ν → μ) :
    lookupAs norm k (l.map fun r => (r.1, g r.2)) = (lookupAs norm k l).map g := by
  rw [lookupAs, lookupAs, List.find?_map, Option.map_map, Option.map_map]
  rfl

theorem lookupAs_eq_none : lookupAs norm k l = none ↔ ∀ r ∈ l, norm r.1 ≠ norm k := by
  simp [lookupAs]

theorem lookupAs_alterAs :
    lookupAs norm k' (alterAs norm k f l) =
      if norm k' = norm k then some (f (lookupAs norm k l)) else lookupAs norm k' l := by
  induction l with
  | nil =>
      rw [alterAs, lookupAs_cons]
      by_cases h : norm k' = norm k
      · rw [if_pos h, if_pos h.symm]
        rfl
      · rw [if_neg h, if_neg (Ne.symm h)]
  | cons r l ih =>
      rw [alterAs, lookupAs_cons (k := k)]
      by_cases hr : norm r.1 = norm k
      · rw [if_pos hr, if_pos hr, lookupAs_cons, lookupAs_cons]
        by_cases h : norm k' = norm k
        · rw [if_pos h, if_pos (hr.trans h.symm)]
        · have hne : norm r.1 ≠ norm k' := fun he => h (he.symm.trans hr)
          rw [if_neg h, if_neg hne, if_neg hne]
      · rw [if_neg hr, if_neg hr, lookupAs_cons, lookupAs_cons, ih]
        by_cases h : norm k' = norm k
        · have hne : norm r.1 ≠ norm k' := fun he => hr (he.trans h)
          rw [if_pos h, if_pos h, if_neg hne]
        · rw [if_neg h, if_neg h]

theorem alterAs_ne_nil : alterAs norm k f l ≠ [] := by
  cases l with
  | nil => exact List.cons_ne_nil _ _
  | cons r l =>
      rw [alterAs]
      split_ifs <;> exact List.cons_ne_nil _ _

theorem alterAs_append (h : lookupAs norm k l = none) :
    alterAs norm k f (l ++ l') = l ++ alterAs norm k f l' := by
  induction l with
  | nil => rfl
  | cons r l ih =>
      obtain ⟨hr, hl⟩ := List.forall_mem_cons.mp (lookupAs_eq_none.mp h)
      rw [List.cons_append, alterAs, if_neg hr, ih (lookupAs_eq_none.mpr hl), List.cons_append]

theorem alterAs_eq_concat (h : lookupAs norm k l = none) :
    alterAs norm k f l = l ++ [(k, f none)] := by
  rw [← List.append_nil l, alterAs_append h, List.append_nil, alterAs]

/-- The last entry, when its name is new. -/
theorem alterAs_concat (h : lookupAs norm k l = none) (v : ν) :
    alterAs norm k f (l ++ [(k, v)]) = l ++ [(k, f (some v))] := by
  rw [alterAs_append h, alterAs, if_pos rfl]

theorem mem_alterAs {r : κ × ν} (hr : r ∈ alterAs norm k f l) :
    r ∈ l ∨ norm r.1 = norm k ∧ (r = (k, f none) ∨ ∃ r' ∈ l, r = (r'.1, f (some r'.2))) := by
  induction l with
  | nil =>
      obtain rfl := List.mem_singleton.mp hr
      exact Or.inr ⟨rfl, Or.inl rfl⟩
  | cons r' l ih =>
      rw [alterAs] at hr
      split_ifs at hr with h
      · rcases List.mem_cons.mp hr with rfl | hr
        · exact Or.inr ⟨h, Or.inr ⟨r', List.mem_cons_self, rfl⟩⟩
        · exact Or.inl (List.mem_cons_of_mem _ hr)
      · rcases List.mem_cons.mp hr with rfl | hr
        · exact Or.inl List.mem_cons_self
        · rcases ih hr with hl | ⟨hk, hnew | ⟨r'', hmem, hold⟩⟩
          · exact Or.inl (List.mem_cons_of_mem _ hl)
          · exact Or.inr ⟨hk, Or.inl hnew⟩
          · exact Or.inr ⟨hk, Or.inr ⟨r'', List.mem_cons_of_mem _ hmem, hold⟩⟩

/-- What holds of every entry still does, if it holds of the one that is changed or added. -/
theorem forall_alterAs {P : κ × ν → Prop} (h : ∀ r ∈ l, P r) (hnew : P (k, f none))
    (hold : ∀ r ∈ l, P (r.1, f (some r.2))) : ∀ r ∈ alterAs norm k f l, P r := by
  intro r hr
  rcases mem_alterAs hr with hl | ⟨-, rfl | ⟨r', hr', rfl⟩⟩
  · exact h r hl
  · exact hnew
  · exact hold r' hr'

/-- What holds of the entries that others of the name stand before still does: only the first of a
name is changed. -/
theorem pairwise_alterAs {P : ν → Prop}
    (h : l.Pairwise fun r r' => norm r.1 = norm r'.1 → P r'.2) :
    (alterAs norm k f l).Pairwise fun r r' => norm r.1 = norm r'.1 → P r'.2 := by
  induction l with
  | nil => exact List.pairwise_singleton _ _
  | cons r l ih =>
      obtain ⟨hr, hl⟩ := List.pairwise_cons.mp h
      rw [alterAs]
      split_ifs with hk
      · exact List.pairwise_cons.mpr ⟨hr, hl⟩
      · refine List.pairwise_cons.mpr ⟨fun r' hr' he => ?_, ih hl⟩
        rcases mem_alterAs hr' with hmem | ⟨hk', -⟩
        · exact hr r' hmem he
        · exact absurd (he.trans hk') hk

end Support
