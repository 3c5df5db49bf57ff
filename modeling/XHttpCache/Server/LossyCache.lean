import XHttpCache.Server.Cache

/-!
# Server — the cache when calls fail and the process dies

What is left of the cache when any call of RocksDB may fail, and the process may die at any moment
and be started again by `guard` of `common/util.cpp`: a write may be lost, and that is all.

`LossyCache.Serves` says it key by key: after an event a key has what it had, the value that the event
was to store under it, or nothing because the event was to delete it.  The keys of one event fare
independently of each other, for a `FLUSHALL` or a `SCAN .. DEL` can fail on some and not on others.
The expiry loop may take a key only at a deadline that was given to it, and a `GET` on a Redis
connection is answered with what is stored, or not at all.

What deadlines are recorded is left out: a `Zset` that fails half way can leave an old one, or none.

* `stored_of_spares`: a key that was never given a deadline keeps its value until an event is about it.
* `stored_written`: what is stored was stored by an event of the run.
-/

namespace XHttpCache
open Support

/-! ### What an event may write -/

/-- The request stores `v` under `k`. -/
def Request.Puts (now : Int) (k : Bytes) (v : XValue) : Request → Prop
  | .set key val | .setEx key val _ => key = k ∧ v = ⟨getCurrentTime now, val⟩
  | _ => False

/-- The request deletes `k`. -/
def Request.Deletes (k : Bytes) : Request → Prop
  | .del key => key = k
  | .scanDel start stop _ => start ≤ k ∧ k < stop
  | .flushall => True
  | _ => False

/-- The deadline that the request gives. -/
def Request.gives (now : Int) : Request → List (Bytes × Int)
  | .setEx key _ secs => [(key, expiredAt now (cstr secs))]
  | .expire key secs => [(key, expiredAt now secs)]
  | _ => []

theorem Request.arms_of_mem_gives {k : Bytes} {req : Request} {now d : Int}
    (h : (k, d) ∈ req.gives now) : req.Arms k := by
  cases req with
  | setEx key val secs => exact (congrArg Prod.fst (List.mem_singleton.mp h)).symm
  | expire key secs => exact (congrArg Prod.fst (List.mem_singleton.mp h)).symm
  | _ => exact absurd h List.not_mem_nil

/-- The database whose keys a request to the backend is about: `sysdb`, if true. -/
def restsOn (env : Env) (cfg : XConfig) (req : EvhtpRequest) : Option Bool :=
  if checkAuth env cfg req then
    match env.route req.full with
    | .adminShell => some true
    | .rest => if uriKey req = [] then none else some (wantsSysdb req)
    | _ => none
  else none

namespace Event

/-- The event stores `v` under `k`, in `sysdb` if `sys` says so. -/
def Puts (env : Env) (cfg : XConfig) (sys : Bool) (k : Bytes) (v : XValue) : Event → Prop
  | .redis now argv => sys = false ∧ (Request.ofArgv argv).Puts now k v
  | .http now req =>
      restsOn env cfg req = some sys ∧ (req.method = .post ∨ req.method = .put) ∧ uriKey req = k ∧
        v = ⟨getCurrentTime now, postValue env cfg req⟩
  | .expireLoop _ => False

/-- The event deletes `k`, where the deadlines `given` have been given. -/
def Deletes (env : Env) (cfg : XConfig) (given : List (Bytes × Int)) (sys : Bool) (k : Bytes) :
    Event → Prop
  | .redis _ argv => sys = false ∧ (Request.ofArgv argv).Deletes k
  | .http _ req => restsOn env cfg req = some sys ∧ req.method = .delete ∧ uriKey req = k
  | .expireLoop now => sys = false ∧ ∃ d ≤ now, (k, d) ∈ given

/-- The deadline that the event gives. -/
def gives : Event → List (Bytes × Int)
  | .redis now argv => (Request.ofArgv argv).gives now
  | .http _ _ | .expireLoop _ => []

end Event

/-! ### The cache -/

/-- What happens to the process. -/
inductive Incident where
  /-- An event is served, while the calls on the two databases turn out as the lists say. -/
  | served (faults sysFaults : List Bool) (ev : Event)
  /-- The process dies while it serves an event, and is started again.  From the call on that it
  dies in, all calls have no effect, as if they failed. -/
  | killed (faults sysFaults : List Bool) (ev : Event)
  /-- The process dies between two events, and is started again. -/
  | restarted

/-- `P` holds of the event, if there is one. -/
def Incident.Of (P : Event → Prop) : Incident → Prop
  | .served _ _ ev | .killed _ _ ev => P ev
  | .restarted => True

/-- The event, if there is one, stores `v` under `k`. -/
def Incident.Puts (env : Env) (cfg : XConfig) (sys : Bool) (k : Bytes) (v : XValue) : Incident → Prop
  | .served _ _ ev | .killed _ _ ev => ev.Puts env cfg sys k v
  | .restarted => False

/-- What each of the two databases has, and the deadlines that have been given. -/
structure LossyCache where
  stored : Bool → Bytes → Option XValue := fun _ _ => none
  given : List (Bytes × Int) := []

namespace LossyCache

/-- **What an event may do** when calls fail. -/
structure Serves (env : Env) (cfg : XConfig) (c : LossyCache) (ev : Event) (o : Output)
    (c' : LossyCache) : Prop where
  stored : ∀ sys k, c'.stored sys k = c.stored sys k ∨
    (∃ v, ev.Puts env cfg sys k v ∧ c'.stored sys k = some v) ∨
      (ev.Deletes env cfg c.given sys k ∧ c'.stored sys k = none)
  given : c'.given = ev.gives ++ c.given
  get : ∀ now argv key, ev = .redis now argv → Request.ofArgv argv = .get key →
    o = .replies [] ∨
      o = .replies [(c.stored false key).elim .null fun v => .bulk v.strValue]

/-- What may happen.  Nobody is answered by a process that dies. -/
inductive Step (env : Env) (cfg : XConfig) (c : LossyCache) :
    Incident → Option Output → LossyCache → Prop where
  | served {faults sysFaults : List Bool} {ev : Event} {o : Output} {c' : LossyCache}
      (h : Serves env cfg c ev o c') : Step env cfg c (.served faults sysFaults ev) (some o) c'
  | killed {faults sysFaults : List Bool} {ev : Event} {o : Output} {c' : LossyCache}
      (h : Serves env cfg c ev o c') : Step env cfg c (.killed faults sysFaults ev) none c'
  | restarted : Step env cfg c .restarted none c

variable {env : Env} {cfg : XConfig} {c c' : LossyCache} {k : Bytes}

/-- What an incident does it does as an event, or it does nothing. -/
theorem Step.elim {i : Incident} {o : Option Output} (h : Step env cfg c i o c')
    {P : Event → Prop} {Q : LossyCache → Prop} (hi : i.Of P) (hc : Q c)
    (hserves : ∀ ev o, P ev → Serves env cfg c ev o c' → Q c') : Q c' := by
  cases h with
  | served h => exact hserves _ _ hi h
  | killed h => exact hserves _ _ hi h
  | restarted => exact hc

/-! ### A key that is left alone -/

/-- `k` was never given a deadline. -/
def Unarmed (k : Bytes) (c : LossyCache) : Prop := ∀ d, (k, d) ∉ c.given

theorem Serves.unarmed {ev : Event} {o : Output} (h : Serves env cfg c ev o c')
    (hev : ¬ ev.Arms k) (hc : c.Unarmed k) : c'.Unarmed k := by
  intro d hd
  rw [h.given, List.mem_append] at hd
  rcases hd with hd | hd
  · cases ev with
    | redis now argv => exact hev (Request.arms_of_mem_gives hd)
    | http now req => exact absurd hd List.not_mem_nil
    | expireLoop now => exact absurd hd List.not_mem_nil
  · exact hc d hd

/-- An event that spares `k` does not store it. -/
theorem not_puts_of_spares {ev : Event} (h : ev.Spares k) (v : XValue) :
    ¬ ev.Puts env cfg false k v := by
  cases ev with
  | redis now argv =>
      rintro ⟨-, hputs⟩
      change (Request.ofArgv argv).Spares k at h
      cases hreq : Request.ofArgv argv <;> rw [hreq] at h hputs
      case set => exact h hputs.1
      case setEx => exact h hputs.1
      all_goals exact hputs
  | http now req =>
      rintro ⟨-, hmethod | hmethod, hkey, -⟩ <;>
        · rcases h hkey with hget | hget <;> exact absurd (hmethod.symm.trans hget) (by decide)
  | expireLoop now => exact id

/-- Nor does it delete it, if `k` was never given a deadline. -/
theorem not_deletes_of_spares {ev : Event} (h : ev.Spares k) (hc : c.Unarmed k) :
    ¬ ev.Deletes env cfg c.given false k := by
  cases ev with
  | redis now argv =>
      rintro ⟨-, hdel⟩
      change (Request.ofArgv argv).Spares k at h
      cases hreq : Request.ofArgv argv <;> rw [hreq] at h hdel
      case del => exact h hdel
      case scanDel => exact h hdel
      case flushall => exact h
      all_goals exact hdel
  | http now req =>
      rintro ⟨-, hmethod, hkey⟩
      rcases h hkey with hget | hget <;> exact absurd (hmethod.symm.trans hget) (by decide)
  | expireLoop now =>
      rintro ⟨-, d, -, hd⟩
      exact hc d hd

/-- **A key that was never given a deadline keeps its value** through what spares it. -/
theorem Serves.stored_of_spares {ev : Event} {o : Output} (h : Serves env cfg c ev o c')
    (hev : ev.Spares k) (hc : c.Unarmed k) : c'.stored false k = c.stored false k := by
  rcases h.stored false k with hk | ⟨v, hputs, -⟩ | ⟨hdel, -⟩
  · exact hk
  · exact absurd hputs (not_puts_of_spares hev v)
  · exact absurd hdel (not_deletes_of_spares hev hc)

/-- Over a run. -/
theorem stored_of_spares {is : List Incident} {os : List (Option Output)}
    (h : Traces (Step env cfg) c is os c') (his : ∀ i ∈ is, i.Of (Event.Spares k))
    (hc : c.Unarmed k) : c'.stored false k = c.stored false k := by
  have hkeep : ∀ s i o s', i.Of (Event.Spares k) → Step env cfg s i o s' →
      s.Unarmed k ∧ s.stored false k = c.stored false k →
        s'.Unarmed k ∧ s'.stored false k = c.stored false k := by
    rintro s i o s' hi hstep ⟨hun, hk⟩
    refine hstep.elim (Q := fun s' => s'.Unarmed k ∧ s'.stored false k = c.stored false k) hi
      ⟨hun, hk⟩ fun ev o hev hs => ?_
    exact ⟨hs.unarmed hev.not_arms hun, (hs.stored_of_spares hev hun).trans hk⟩
  exact (h.inv hkeep his ⟨hc, rfl⟩).2

theorem unarmed_of_not_arms {is : List Incident} {os : List (Option Output)}
    (h : Traces (Step env cfg) c is os c') (his : ∀ i ∈ is, i.Of fun ev => ¬ ev.Arms k)
    (hc : c.Unarmed k) : c'.Unarmed k :=
  h.inv (fun _ _ _ _ hi hstep hun => hstep.elim hi hun fun _ _ hev hs => hs.unarmed hev hun) his hc

/-! ### What is stored was stored by an event -/

/-- **Nothing is made up**: what is stored under a key was there, or an event of the run was to store
it under that key. -/
theorem stored_written {is : List Incident} {os : List (Option Output)} {sys : Bool} {v : XValue}
    (h : Traces (Step env cfg) c is os c') (hv : c'.stored sys k = some v) :
    c.stored sys k = some v ∨ ∃ i ∈ is, i.Puts env cfg sys k v := by
  induction h with
  | nil => exact Or.inl hv
  | cons hstep _ ih =>
      rcases ih hv with hk | ⟨i, hi, hputs⟩
      · -- the value was there after the first incident
        cases hstep with
        | restarted => exact Or.inl hk
        | served h | killed h =>
            rcases h.stored sys k with hsame | ⟨v', hputs, hput⟩ | ⟨-, hgone⟩
            · exact Or.inl (hsame.symm.trans hk)
            · rw [Option.some.inj (hput.symm.trans hk)] at hputs
              exact Or.inr ⟨_, List.mem_cons_self, hputs⟩
            · cases hgone.symm.trans hk
      · exact Or.inr ⟨i, List.mem_cons_of_mem _ hi, hputs⟩

end LossyCache

end XHttpCache
