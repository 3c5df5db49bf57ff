import XHttpCache.Support.OrderedMap

/-!
# Support — writes of which some take effect

A program writes to a map, call by call, and any of its calls may fail, or never be made because the
program dies before it.  What is left of the map is then what some of the writes make of it that the
program may try: `Wrote P m m'`, where `P` says which those are.

* `Wrote.get_cases`: a key has what it had, what was put there by a write that is allowed, or nothing
  because a deletion is allowed.
* `Wrote.forall_get`: what holds of every row and of every row that may be put still does.
-/

namespace Support

/-- A write to a map. -/
inductive Write (κ ν : Type) where
  | put (k : κ) (v : ν)
  | delete (k : κ)

variable {κ ν : Type} [LinearOrder κ] {P Q : Write κ ν → Prop} {m m' m'' : OrderedMap κ ν}

/-- What a write makes of a map. -/
def Write.apply : Write κ ν → OrderedMap κ ν → OrderedMap κ ν
  | .put k v, m => m.insert k v
  | .delete k, m => m.erase k

/-- `m'` is what writes that `P` allows make of `m`. -/
inductive Wrote (P : Write κ ν → Prop) (m : OrderedMap κ ν) : OrderedMap κ ν → Prop where
  | refl : Wrote P m m
  | snoc {m' : OrderedMap κ ν} (w : Write κ ν) (hw : P w) (h : Wrote P m m') :
      Wrote P m (w.apply m')

namespace Wrote

theorem of_eq (h : m' = m) : Wrote P m m' := h ▸ .refl

theorem put {k : κ} {v : ν} (h : P (.put k v)) : Wrote P m (m.insert k v) := .snoc (.put k v) h .refl

theorem delete {k : κ} (h : P (.delete k)) : Wrote P m (m.erase k) := .snoc (.delete k) h .refl

theorem trans (h : Wrote P m m') (h' : Wrote P m' m'') : Wrote P m m'' := by
  induction h' with
  | refl => exact h
  | snoc w hw _ ih => exact .snoc w hw ih

theorem mono (h : Wrote P m m') (hPQ : ∀ w, P w → Q w) : Wrote Q m m' := by
  induction h with
  | refl => exact .refl
  | snoc w hw _ ih => exact .snoc w (hPQ w hw) ih

/-- **What is at a key** afterwards. -/
theorem get_cases (h : Wrote P m m') (k : κ) :
    m'.get k = m.get k ∨ (∃ v, P (.put k v) ∧ m'.get k = some v) ∨
      (P (.delete k) ∧ m'.get k = none) := by
  induction h with
  | refl => exact Or.inl rfl
  | snoc w hw _ ih =>
      cases w with
      | put k' v =>
          by_cases hk : k = k'
          · rw [hk]
            exact Or.inr (Or.inl ⟨v, hw, OrderedMap.get_insert_self _ _ _⟩)
          · rwa [Write.apply, OrderedMap.get_insert_ne _ v hk]
      | delete k' =>
          by_cases hk : k = k'
          · rw [hk]
            exact Or.inr (Or.inr ⟨hw, OrderedMap.get_erase_self _ _⟩)
          · rwa [Write.apply, OrderedMap.get_erase_ne _ hk]

theorem forall_get {R : κ → ν → Prop} (h : Wrote P m m') (hm : ∀ k v, m.get k = some v → R k v)
    (hput : ∀ k v, P (.put k v) → R k v) : ∀ k v, m'.get k = some v → R k v := by
  intro k v hv
  rcases h.get_cases k with hk | ⟨v', hw, hk⟩ | ⟨-, hk⟩
  · exact hm k v (hk.symm.trans hv)
  · rw [Option.some.inj (hv.symm.trans hk)]
    exact hput k v' hw
  · cases hk.symm.trans hv

end Wrote

end Support
