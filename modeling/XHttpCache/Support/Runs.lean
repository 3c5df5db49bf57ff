import Mathlib

/-!
# Support — runs of an event machine

A machine takes a state and an event to an output and a state; `run` folds it over a list of
events and collects the outputs.

* `run_inv`: what every admissible event preserves, a run preserves.
* `Along`, `along_inv`: the same where what is admissible depends on the state; `along_iff` looks
  at each event after those before it.
* `run_sim`: two machines whose steps answer alike and keep their states related answer alike
  over a run (a refinement, or a two-run property, is an instance).
* `reach_inv`: the same over a step relation, whose steps may be conditioned on the state they
  are taken in.
-/

namespace Support

variable {σ τ ε ω : Type}

/-- The outputs of a run over `es`, and the state it ends in. -/
def run (step : σ → ε → ω × σ) : σ → List ε → List ω × σ
  | s, [] => ([], s)
  | s, e :: es =>
      let r := run step (step s e).2 es
      ((step s e).1 :: r.1, r.2)

@[simp] theorem run_nil (step : σ → ε → ω × σ) (s : σ) : run step s [] = ([], s) := rfl

@[simp] theorem run_cons (step : σ → ε → ω × σ) (s : σ) (e : ε) (es : List ε) :
    run step s (e :: es) =
      ((step s e).1 :: (run step (step s e).2 es).1, (run step (step s e).2 es).2) := rfl

theorem run_append (step : σ → ε → ω × σ) (es es' : List ε) (s : σ) :
    run step s (es ++ es') =
      ((run step s es).1 ++ (run step (run step s es).2 es').1,
        (run step (run step s es).2 es').2) := by
  induction es generalizing s with
  | nil => rfl
  | cons e es ih => simp [ih]

/-- What every admissible event preserves holds at the end of every admissible run. -/
theorem run_inv {step : σ → ε → ω × σ} {I : σ → Prop} {ok : ε → Prop}
    (h : ∀ s e, ok e → I s → I (step s e).2) {es : List ε} (hes : ∀ e ∈ es, ok e) {s : σ}
    (hs : I s) : I (run step s es).2 := by
  induction es generalizing s with
  | nil => exact hs
  | cons e es ih =>
      exact ih (fun e' he' => hes e' (List.mem_cons_of_mem _ he'))
        (h s e (hes e List.mem_cons_self) hs)

/-- Every event of the run over `es` is admissible in the state it is taken in. -/
def Along (step : σ → ε → ω × σ) (ok : σ → ε → Prop) : σ → List ε → Prop
  | _, [] => True
  | s, e :: es => ok s e ∧ Along step ok (step s e).2 es

instance decidableAlong {step : σ → ε → ω × σ} {ok : σ → ε → Prop} [∀ s e, Decidable (ok s e)] :
    ∀ s es, Decidable (Along step ok s es)
  | _, [] => inferInstanceAs (Decidable True)
  | s, e :: es =>
      have : Decidable (Along step ok (step s e).2 es) := decidableAlong _ _
      inferInstanceAs (Decidable (_ ∧ _))

theorem along_append {step : σ → ε → ω × σ} {ok : σ → ε → Prop} {es es' : List ε} {s : σ} :
    Along step ok s (es ++ es') ↔
      Along step ok s es ∧ Along step ok (run step s es).2 es' := by
  induction es generalizing s with
  | nil => exact (iff_of_eq (true_and _)).symm
  | cons e es ih => simp only [List.cons_append, Along, run_cons, ih, and_assoc]

/-- Each event, after those before it. -/
theorem along_iff {step : σ → ε → ω × σ} {ok : σ → ε → Prop} {es : List ε} {s : σ} :
    Along step ok s es ↔
      ∀ before e after, es = before ++ e :: after → ok (run step s before).2 e := by
  constructor
  · rintro h before e after rfl
    exact (along_append.mp h).2.1
  · intro h
    induction es generalizing s with
    | nil => trivial
    | cons e es ih =>
        refine ⟨h [] e es rfl, ih fun before e' after he => ?_⟩
        exact h (e :: before) e' after (by rw [he, List.cons_append])

theorem Along.and_mem {step : σ → ε → ω × σ} {ok : σ → ε → Prop} {p : ε → Prop} {es : List ε}
    {s : σ} (h : Along step ok s es) (hp : ∀ e ∈ es, p e) :
    Along step (fun s e => p e ∧ ok s e) s es := by
  induction es generalizing s with
  | nil => trivial
  | cons e es ih =>
      exact ⟨⟨hp e List.mem_cons_self, h.1⟩,
        ih h.2 fun e' he' => hp e' (List.mem_cons_of_mem _ he')⟩

theorem along_congr {step : σ → ε → ω × σ} {ok ok' : σ → ε → Prop} {es : List ε}
    (h : ∀ s, ∀ e ∈ es, ok s e ↔ ok' s e) {s : σ} :
    Along step ok s es ↔ Along step ok' s es := by
  induction es generalizing s with
  | nil => exact Iff.rfl
  | cons e es ih =>
      exact and_congr (h s e List.mem_cons_self)
        (ih fun s e' he' => h s e' (List.mem_cons_of_mem _ he'))

/-- What every event preserves that is admissible in its state holds at the end of every run of
such events. -/
theorem along_inv {step : σ → ε → ω × σ} {I : σ → Prop} {ok : σ → ε → Prop}
    (h : ∀ s e, ok s e → I s → I (step s e).2) {es : List ε} {s : σ} (hes : Along step ok s es)
    (hs : I s) : I (run step s es).2 := by
  induction es generalizing s with
  | nil => exact hs
  | cons e es ih => exact ih hes.2 (h s e hes.1 hs)

/-- Two machines whose admissible steps answer alike and keep their states related answer alike
over every admissible run. -/
theorem run_sim {f : σ → ε → ω × σ} {g : τ → ε → ω × τ} {R : σ → τ → Prop} {ok : ε → Prop}
    (h : ∀ s t e, ok e → R s t → (f s e).1 = (g t e).1 ∧ R (f s e).2 (g t e).2)
    {es : List ε} (hes : ∀ e ∈ es, ok e) {s : σ} {t : τ} (hst : R s t) :
    (run f s es).1 = (run g t es).1 ∧ R (run f s es).2 (run g t es).2 := by
  induction es generalizing s t with
  | nil => exact ⟨rfl, hst⟩
  | cons e es ih =>
      obtain ⟨ho, hR⟩ := h s t e (hes e List.mem_cons_self) hst
      obtain ⟨hos, hR'⟩ := ih (fun e' he' => hes e' (List.mem_cons_of_mem _ he')) hR
      exact ⟨by rw [run_cons, run_cons, ho, hos], hR'⟩

/-- What a step relation preserves holds wherever its steps lead. -/
theorem reach_inv {step : σ → σ → Prop} {I : σ → Prop} (h : ∀ s s', step s s' → I s → I s')
    {s s' : σ} (hr : Relation.ReflTransGen step s s') (hs : I s) : I s' := by
  induction hr with
  | refl => exact hs
  | tail _ hstep ih => exact h _ _ hstep ih

end Support
