import XHttpCache.Support.Runs

/-!
# Support — a server that several clients share

What a client sends passes through a front of its own, which hands out requests; the server serves
the requests of all clients, one after another.  The log has what was served, in that order.

* `run_log`: the answers in the log are those of the server to the requests in the log.
* `answered_along`: what holds of every request when its turn comes holds of what was answered.
* `front_run`, `requests_run`: the front of a client, and what it hands out, depend on what this
  client sends only, however the clients take turns.
-/

namespace Support

variable {ι κ α β γ σ : Type}

/-- The fronts of the clients, and the server. -/
structure Mux (ι κ σ : Type) where
  front : ι → κ
  server : σ

/-- A request that was served. -/
structure LogEntry (ι β γ : Type) where
  client : ι
  request : β
  answer : γ

/-- A request of client `i` is served. -/
def serveFor (exec : σ → β → γ × σ) (i : ι) (s : σ) (b : β) : LogEntry ι β γ × σ :=
  (⟨i, b, (exec s b).1⟩, (exec s b).2)

/-- What is served of client `i` when these requests are handed out. -/
theorem run_serveFor (exec : σ → β → γ × σ) (i : ι) (l : List β) (s : σ) :
    (run (serveFor exec i) s l).1.map LogEntry.request = l ∧
      ((run (serveFor exec i) s l).1.map LogEntry.answer, (run (serveFor exec i) s l).2) =
        run exec s l ∧
      ∀ r ∈ (run (serveFor exec i) s l).1, r.client = i := by
  induction l generalizing s with
  | nil => exact ⟨rfl, rfl, by simp⟩
  | cons b l ih =>
      obtain ⟨hrequest, hanswer, hclient⟩ := ih (exec s b).2
      refine ⟨congrArg (b :: ·) hrequest, ?_, List.forall_mem_cons.mpr ⟨rfl, hclient⟩⟩
      rw [run_cons exec, ← hanswer]
      rfl

/-- An item of a list that has the requests of a run and their answers: the state in which it was
served. -/
theorem exists_state_of_run {exec : σ → β → γ × σ} {ok : σ → β → Prop}
    {log : List (LogEntry ι β γ)} {s : σ}
    (hrun : (run exec s (log.map LogEntry.request)).1 = log.map LogEntry.answer)
    (hok : Along exec ok s (log.map LogEntry.request)) :
    ∀ r ∈ log, ∃ s', ok s' r.request ∧ r.answer = (exec s' r.request).1 := by
  induction log generalizing s with
  | nil => simp
  | cons r log ih =>
      obtain ⟨hhead, htail⟩ := List.cons.inj hrun
      exact List.forall_mem_cons.mpr ⟨⟨s, hok.1, hhead.symm⟩, ih htail hok.2⟩

variable [DecidableEq ι]

/-- What client `i` sends. -/
def inputsOf (i : ι) (es : List (ι × α)) : List α :=
  es.filterMap fun e => if e.1 = i then some e.2 else none

/-- What is served of client `i`. -/
def servedOf (i : ι) (log : List (LogEntry ι β γ)) : List (LogEntry ι β γ) :=
  log.filter fun r => r.client = i

theorem inputsOf_cons (i : ι) (e : ι × α) (es : List (ι × α)) :
    inputsOf i (e :: es) = if e.1 = i then e.2 :: inputsOf i es else inputsOf i es := by
  rw [inputsOf, List.filterMap_cons]
  split_ifs <;> rfl

namespace Mux

variable (feed : κ → α → List β × κ) (exec : σ → β → γ × σ)

/-- A client sends something: its front hands out requests, and the server serves them. -/
def step (m : Mux ι κ σ) (e : ι × α) : List (LogEntry ι β γ) × Mux ι κ σ :=
  let handed := feed (m.front e.1) e.2
  let served := run (serveFor exec e.1) m.server handed.1
  (served.1, ⟨Function.update m.front e.1 handed.2, served.2⟩)

/-- What is served in a run. -/
def log (m : Mux ι κ σ) (es : List (ι × α)) : List (LogEntry ι β γ) :=
  (run (step feed exec) m es).1.flatten

variable {feed exec} {m : Mux ι κ σ}

theorem log_cons (e : ι × α) (es : List (ι × α)) :
    m.log feed exec (e :: es) =
      (m.step feed exec e).1 ++ (m.step feed exec e).2.log feed exec es := by
  rw [log, run_cons, List.flatten_cons, log]

/-- **One after another**: what is served in a run is what the server answers to these requests. -/
theorem run_log (m : Mux ι κ σ) (es : List (ι × α)) :
    run exec m.server ((m.log feed exec es).map LogEntry.request) =
      ((m.log feed exec es).map LogEntry.answer, (run (step feed exec) m es).2.server) := by
  induction es generalizing m with
  | nil => rfl
  | cons e es ih =>
      obtain ⟨hrequest, hanswer, -⟩ :=
        run_serveFor exec e.1 (feed (m.front e.1) e.2).1 m.server
      have hstep : run exec m.server ((m.step feed exec e).1.map LogEntry.request) =
          ((m.step feed exec e).1.map LogEntry.answer, (m.step feed exec e).2.server) := by
        simp only [step]
        rw [hrequest, hanswer]
      rw [log_cons, List.map_append, run_append, hstep, ih, run_cons, List.map_append]

/-- **The answers**: each was given in a state in which the request was as `ok` says. -/
theorem answered_along {ok : σ → β → Prop} {es : List (ι × α)}
    (hok : Along exec ok m.server ((m.log feed exec es).map LogEntry.request)) :
    ∀ r ∈ m.log feed exec es, ∃ s, ok s r.request ∧ r.answer = (exec s r.request).1 :=
  exists_state_of_run (congrArg Prod.fst (m.run_log es)) hok

/-- **The front of a client** is where its own inputs take it. -/
theorem front_run (m : Mux ι κ σ) (es : List (ι × α)) (i : ι) :
    (run (step feed exec) m es).2.front i = (run feed (m.front i) (inputsOf i es)).2 := by
  induction es generalizing m with
  | nil => rfl
  | cons e es ih =>
      rw [run_cons, ih, inputsOf_cons]
      by_cases he : e.1 = i
      · subst he
        rw [if_pos rfl, run_cons]
        simp only [step, Function.update_self]
      · rw [if_neg he]
        simp only [step, Function.update_of_ne (Ne.symm he)]

/-- **What is served of a client** is what its front hands out for its own inputs, in order. -/
theorem requests_run (m : Mux ι κ σ) (es : List (ι × α)) (i : ι) :
    (servedOf i (m.log feed exec es)).map LogEntry.request =
      (run feed (m.front i) (inputsOf i es)).1.flatten := by
  induction es generalizing m with
  | nil => rfl
  | cons e es ih =>
      obtain ⟨hrequest, -, hclient⟩ :=
        run_serveFor exec e.1 (feed (m.front e.1) e.2).1 m.server
      rw [log_cons, servedOf, List.filter_append, List.map_append, ← servedOf, ← servedOf, ih,
        inputsOf_cons]
      by_cases he : e.1 = i
      · subst he
        have hall : servedOf e.1 (m.step feed exec e).1 = (m.step feed exec e).1 :=
          List.filter_eq_self.mpr fun r hr => decide_eq_true (hclient r hr)
        rw [if_pos rfl, run_cons, List.flatten_cons, hall]
        simp only [step, Function.update_self, hrequest]
      · have hnone : servedOf i (m.step feed exec e).1 = [] :=
          List.filter_eq_nil_iff.mpr fun r hr => by
            rw [hclient r hr]
            simpa using he
        rw [if_neg he, hnone, List.map_nil, List.nil_append]
        simp only [step, Function.update_of_ne (Ne.symm he)]

end Mux

end Support
