import XHttpCache.Support.Runs

/-!
# Support — runs of a step relation

A specification may leave open what a step does: `R s e o s'` says that the event `e` may be
answered by `o` and lead from `s` to `s'`.  `Traces R` are its runs.

* `exists_traces`: a machine each of whose steps the specification allows, with the states related,
  does in a run what the specification allows in one (forward simulation).
* `Traces.inv`: what the steps preserve holds after a run.
-/

namespace Support

variable {σ τ ε ω : Type} {R : σ → ε → ω → σ → Prop}

/-- The runs that a step relation allows: the events, the outputs and where they lead. -/
inductive Traces (R : σ → ε → ω → σ → Prop) : σ → List ε → List ω → σ → Prop where
  | nil (s : σ) : Traces R s [] [] s
  | cons {s s' s'' : σ} {e : ε} {o : ω} {es : List ε} {os : List ω} (h : R s e o s')
      (hs : Traces R s' es os s'') : Traces R s (e :: es) (o :: os) s''

/-- What the admissible steps preserve holds after every admissible run. -/
theorem Traces.inv {I : σ → Prop} {ok : ε → Prop}
    (h : ∀ s e o s', ok e → R s e o s' → I s → I s') {s s' : σ} {es : List ε} {os : List ω}
    (ht : Traces R s es os s') (hes : ∀ e ∈ es, ok e) (hs : I s) : I s' := by
  induction ht with
  | nil => exact hs
  | cons hstep _ ih =>
      obtain ⟨he, hes⟩ := List.forall_mem_cons.mp hes
      exact ih hes (h _ _ _ _ he hstep hs)

/-- **Forward simulation.** -/
theorem exists_traces {step : τ → ε → ω × τ} {rel : τ → σ → Prop} {ok : ε → Prop}
    (h : ∀ t s e, ok e → rel t s → ∃ s', R s e (step t e).1 s' ∧ rel (step t e).2 s')
    {es : List ε} (hes : ∀ e ∈ es, ok e) {t : τ} {s : σ} (hts : rel t s) :
    ∃ s', Traces R s es (run step t es).1 s' ∧ rel (run step t es).2 s' := by
  induction es generalizing t s with
  | nil => exact ⟨s, .nil s, hts⟩
  | cons e es ih =>
      obtain ⟨he, hes⟩ := List.forall_mem_cons.mp hes
      obtain ⟨s', hstep, hrel⟩ := h t s e he hts
      obtain ⟨s'', htrace, hrel'⟩ := ih hes hrel
      exact ⟨s'', .cons hstep htrace, hrel'⟩

end Support
