import Mathlib

/-!
# Support — loops

A loop is given by what one round does: it goes on in a new state, or ends with a result.  Nothing
says that it ends, so a run has a number of rounds that it may take at most.

* `loop_total`: with an invariant, and a measure that every round lowers, a loop ends, with a result
  that is the same for every number of rounds above the measure.
-/

namespace Support

variable {σ ρ : Type}

/-- At most `fuel` rounds of a loop. -/
def loop (round : σ → σ ⊕ ρ) : Nat → σ → Option ρ
  | 0, _ => none
  | fuel + 1, s => (round s).elim (loop round fuel) some

variable {round : σ → σ ⊕ ρ} {s : σ}

theorem loop_next {s' : σ} (h : round s = .inl s') (fuel : Nat) :
    loop round (fuel + 1) s = loop round fuel s' := by
  rw [loop, h, Sum.elim_inl]

theorem loop_end {r : ρ} (h : round s = .inr r) (fuel : Nat) :
    loop round (fuel + 1) s = some r := by
  rw [loop, h, Sum.elim_inr]

/-- **Total correctness of a loop**, by induction on the measure. -/
theorem loop_total {I : σ → Prop} {Q : ρ → Prop} {μ : σ → Nat}
    (hnext : ∀ s s', I s → round s = .inl s' → I s' ∧ μ s' < μ s)
    (hend : ∀ s r, I s → round s = .inr r → Q r) (hs : I s) :
    ∃ r, Q r ∧ ∀ fuel, μ s < fuel → loop round fuel s = some r := by
  induction hn : μ s using Nat.strong_induction_on generalizing s with
  | _ n ih =>
      cases hround : round s with
      | inr r =>
          refine ⟨r, hend s r hs hround, fun fuel hfuel => ?_⟩
          obtain ⟨fuel, rfl⟩ := Nat.exists_eq_add_one_of_ne_zero (by omega : fuel ≠ 0)
          exact loop_end hround fuel
      | inl s' =>
          obtain ⟨hs', hlt⟩ := hnext s s' hs hround
          obtain ⟨r, hr, hrest⟩ := ih (μ s') (by omega) hs' rfl
          refine ⟨r, hr, fun fuel hfuel => ?_⟩
          obtain ⟨fuel, rfl⟩ := Nat.exists_eq_add_one_of_ne_zero (by omega : fuel ≠ 0)
          rw [loop_next hround]
          exact hrest fuel (by omega)

end Support
