import XHttpCache.Server.Events

/-!
# Server — the window and the recorded deadlines

`OnTime s` is the invariant of the running server: its database records some deadlines, and the
expiry manager serves those of them that it can load.  Every event keeps it (`OnTime.step`), so
it holds along every run from a stored index with a new manager (`OnTime.run`), and with it the
expiry thread never sleeps past a recorded deadline (`no_deadline_slept_past`).

`Agreeing s` is about all recorded deadlines, those that cannot be loaded too: a key that the
window has and that has a deadline has the same in both.  So an iteration takes a key only when
its recorded deadline has come (`window_agrees`).
-/

namespace XHttpCache
open Support

/-- The deadline that the database has for `key`. -/
def deadline (x : XDataBase) (key : Bytes) : Option Int :=
  match x.zget expireKey key with
  | (.ok, score, _) => some (strToInt64 score)
  | _ => none

/-- A database whose set `expire` is well formed: its two kinds of rows record the same
deadlines, and each row is short enough to be decoded. -/
def WellFormed (x : XDataBase) : Prop := ∃ ix, Recorded x ix

theorem wellFormed_empty : WellFormed { db := ⟨.empty, []⟩ } :=
  ⟨_, .of_db rfl (.empty expireKey) nofun⟩

/-- The manager serves what the database records. -/
def OnTime (s : ServerState) : Prop :=
  ∃ ix, Recorded s.redis.xdb ix ∧ Timely (loadable ix) s.redis.expiremgr

theorem Recorded.deadline_eq {x : XDataBase} {ix : Bytes → Option Int} (h : Recorded x ix)
    (key : Bytes) : deadline x key = ix key := by
  rw [deadline, h.zget]
  cases hd : ix key with
  | none => rfl
  | some d => exact congrArg some (strToInt64_decimal (h.index.score key d hd))

/-- A new manager serves any deadlines: it does not sleep, and its window is empty. -/
theorem Timely.fresh (ix : Bytes → Option Int) : Timely (loadable ix) {} where
  first _ _ hd := (loadable_eq_some.mp hd).2.1
  window := .of_empty _ rfl
  size := Nat.zero_le _

/-- `SetTTL` of a key with the deadline it is given in the index. -/
theorem Timely.setTTL_loadable {ix : Bytes → Option Int} {e : ExpireManager} {key : Bytes}
    (h : Timely (Function.update (loadable ix) key none) e) (d : Int) :
    Timely (loadable (Function.update ix key (some d))) (e.setTTL key d) :=
  (h.setTTL d).mono fun _ _ hd => loadable_update hd

/-- Whatever a command does, the manager serves the deadlines it leaves. -/
theorem Effect.onTime {argv : List Bytes} {ix : Bytes → Option Int} {e : ExpireManager}
    {replies : List Reply} {sv : XRedisServer} (h : Effect argv ix e replies sv)
    (ht : Timely (loadable ix) e) (sysdb : XDataBase) : OnTime ⟨sv, sysdb⟩ := by
  cases h with
  | quiet h => exact ⟨ix, h, ht⟩
  | armed key d h _ he =>
      refine ⟨_, h, Timely.setTTL_loadable ?_ d⟩
      rcases he with rfl | rfl
      · exact ht.update_none key
      · -- the first call has served a deadline that the index did not have yet
        have := ((ht.update_none key).setTTL d).update_none key
        rwa [Function.update_idem] at this
  | refused key d h _ hk =>
      refine ⟨ix, h, ?_⟩
      have := (ht.update_none key).setTTL_loadable d
      rwa [Function.update_eq_self_iff.mpr hk.symm] at this
  | flushed _ h => exact ⟨_, h, ht.mono nofun⟩

/-- **Every event** keeps the manager on time. -/
theorem OnTime.step {s : ServerState} (h : OnTime s) (env : Env) (cfg : XConfig) {ev : Event}
    (hev : ev.Deliverable) : OnTime (step env cfg s ev).2 := by
  obtain ⟨ix, hx, ht⟩ := h
  cases ev with
  | redis now argv => exact (doCmd_effect hx now hev).onTime ht s.sysdb
  | http now req =>
      exact ⟨ix, handle_recorded (b := ⟨s.redis.xdb, s.sysdb⟩) hx env cfg now req, ht⟩
  | expireLoop now => exact Timely.expireLoop hx ht now

theorem OnTime.run {s : ServerState} (h : OnTime s) (env : Env) (cfg : XConfig) {es : List Event}
    (hes : ∀ ev ∈ es, ev.Deliverable) : OnTime (run (XHttpCache.step env cfg) s es).2 :=
  run_inv (fun _ _ hev hs => hs.step env cfg hev) hes h

/-- **No deadline is slept past.**  In every run from a well-formed stored index with a new
manager, `first_timeout` is no later than any deadline that can be loaded, so that while the
expiry thread sleeps none is due; what is not in a window that is not empty is due no earlier
than all of it; and the window is bounded. -/
theorem no_deadline_slept_past (env : Env) (cfg : XConfig) {s : ServerState} {es : List Event}
    (hx : WellFormed s.redis.xdb) (he : s.redis.expiremgr = {})
    (hes : ∀ ev ∈ es, ev.Deliverable) :
    let t := (run (step env cfg) s es).2.redis
    (∀ k d, deadline t.xdb k = some d → InRange d →
      t.expiremgr.firstTimeout ≤ d ∧ (∀ now, t.expiremgr.sleeps now = true → now < d) ∧
        (t.expiremgr.sortSet.empty = false → item d k ∉ t.expiremgr.sortSet.items →
          t.expiremgr.sortSet.maxScore ≤ d)) ∧
      t.expiremgr.sortSet.size ≤ BATCH_SIZE := by
  intro t
  obtain ⟨ix₀, hx⟩ := hx
  have h₀ : OnTime s := ⟨ix₀, hx, he ▸ .fresh ix₀⟩
  obtain ⟨ix, hrec, ht⟩ := h₀.run env cfg hes
  refine ⟨fun k d hd hr => ?_, ht.size⟩
  have hload : loadable ix k = some d :=
    loadable_eq_some.mpr ⟨(hrec.deadline_eq k).symm.trans hd, hr⟩
  have hfirst := ht.first k d hload
  refine ⟨hfirst, fun now hs => lt_of_lt_of_le (of_decide_eq_true hs) hfirst, fun hne hout => ?_⟩
  refine ht.window.maxScore_le hne hload ?_
  -- a key of the window has its recorded deadline there
  cases hk : t.expiremgr.sortSet.score? k with
  | none => rfl
  | some v =>
      obtain rfl := ht.window.agree k v d hk hload
      exact absurd (SortedSet.mem_items.mpr hk) hout

/-- The thread has gone to sleep with nothing to do when `k` is given five seconds. -/
theorem no_deadline_slept_past_run :
    let es : List Event := [.expireLoop 1000,
      .redis 2000 [ascii "SET", ascii "k", ascii "v", ascii "EX", ascii "5"]]
    let t := (run (step plainEnv {}) freshServer es).2.redis
    deadline t.xdb (ascii "k") = some 7000 ∧ t.expiremgr.firstTimeout ≤ 7000 := by
  refine ⟨by decide, ((no_deadline_slept_past plainEnv {} wellFormed_empty rfl ?_).1
    (ascii "k") 7000 (by decide) (by decide)).1⟩
  intro ev hev
  simp only [List.mem_cons, List.not_mem_nil, or_false] at hev
  rcases hev with rfl | rfl
  · trivial
  · exact ⟨by decide, by decide⟩

/-! ### The window has no other deadline than the index -/

/-- A key of `s` that has a deadline in `ix` has the same in both. -/
def Agrees (ix : Bytes → Option Int) (s : SortedSet) : Prop :=
  ∀ k v d, s.score? k = some v → ix k = some d → v = d

/-- The window agrees with what the database records. -/
def Agreeing (s : ServerState) : Prop :=
  ∃ ix, Recorded s.redis.xdb ix ∧ Agrees ix s.redis.expiremgr.sortSet

namespace Agrees

variable {ix : Bytes → Option Int} {s : SortedSet} {e : ExpireManager} {key : Bytes}

theorem of_recorded (h : ∀ k v, s.score? k = some v → ix k = some v) : Agrees ix s := by
  intro k v d hv hd
  rw [h k v hv] at hd
  exact Option.some.inj hd

/-- `SetTTL` of a key with the deadline it has, or is given next. -/
theorem setTTL (h : Agrees ix e.sortSet) (key : Bytes) (d : Int) :
    Agrees (Function.update ix key (some d)) (e.setTTL key d).sortSet := by
  intro k v d' hv hd'
  rcases ExpireManager.score?_of_setTTL hv with ⟨rfl, rfl⟩ | ⟨hk, hv⟩
  · rw [Function.update_self] at hd'
    exact Option.some.inj hd'
  · rw [Function.update_of_ne hk] at hd'
    exact h k v d' hv hd'

theorem popFront (h : Agrees ix s) (key : Bytes) :
    Agrees (Function.update ix key none) s.popFront.2 := by
  intro k v d hv hd
  exact h k v d (SortedSet.score?_of_popFront hv) (update_none_eq_some.mp hd).2

end Agrees

/-- Whatever a command does, the window agrees with the deadlines it leaves. -/
theorem Effect.agreeing {argv : List Bytes} {ix : Bytes → Option Int} {e : ExpireManager}
    {replies : List Reply} {sv : XRedisServer} (h : Effect argv ix e replies sv)
    (ha : Agrees ix e.sortSet) (sysdb : XDataBase) : Agreeing ⟨sv, sysdb⟩ := by
  cases h with
  | quiet h => exact ⟨ix, h, ha⟩
  | armed key d h _ he =>
      refine ⟨_, h, ?_⟩
      rcases he with rfl | rfl
      · exact ha.setTTL key d
      · have := (ha.setTTL key d).setTTL key d
        rwa [Function.update_idem] at this
  | refused key d h _ hk =>
      refine ⟨ix, h, ?_⟩
      have := ha.setTTL key d
      rwa [Function.update_eq_self_iff.mpr hk.symm] at this
  | flushed _ h =>
      refine ⟨_, h, ?_⟩
      intro k v d _ hd
      cases hd

/-- The window that an iteration looks at agrees with the index. -/
theorem Faced.agrees {ix : Bytes → Option Int} {e : ExpireManager} {s : SortedSet}
    (h : Faced ix e s) (ha : Agrees ix e.sortSet) : Agrees ix s :=
  h.elim ha fun he => .of_recorded (h.recorded he)

theorem Agrees.expireLoop {x : XDataBase} {ix : Bytes → Option Int} {e : ExpireManager}
    (hx : Recorded x ix) (ha : Agrees ix e.sortSet) (now : Int) :
    ∃ ix', Recorded (e.expireLoop x now).2 ix' ∧
      Agrees ix' (e.expireLoop x now).1.sortSet ∧
      ∀ k d, ix k = some d → now < d →
        ix' k = some d ∧ (e.expireLoop x now).2.valueRow k = x.valueRow k := by
  obtain ⟨s, hs, hit⟩ := hx.iterated e now
  have hagree := hs.agrees ha
  generalize e.expireLoop x now = r at hit ⊢
  cases hit with
  | idle he => exact ⟨ix, hx, hagree, fun k d hd _ => ⟨hd, rfl⟩⟩
  | early hf hv => exact ⟨ix, hx, hagree, fun k d hd _ => ⟨hd, rfl⟩⟩
  | @due v key hf hv =>
      refine ⟨_, (hx.del key).zdel key, hagree.popFront key, fun k d hd hnow => ?_⟩
      -- the key that goes has its recorded deadline in the window, and that has come
      have hne : k ≠ key := by
        rintro rfl
        rw [← hagree k v d (SortedSet.score?_of_front hf) hd] at hnow
        exact absurd hv (not_le.mpr hnow)
      exact ⟨by rw [Function.update_of_ne hne, hd], by rw [hx.valueRow_expired, if_neg hne]⟩

/-- **Every event** keeps the window and the index in agreement. -/
theorem Agreeing.step {s : ServerState} (h : Agreeing s) (env : Env) (cfg : XConfig) {ev : Event}
    (hev : ev.Deliverable) : Agreeing (step env cfg s ev).2 := by
  obtain ⟨ix, hx, ha⟩ := h
  cases ev with
  | redis now argv => exact (doCmd_effect hx now hev).agreeing ha s.sysdb
  | http now req =>
      exact ⟨ix, handle_recorded (b := ⟨s.redis.xdb, s.sysdb⟩) hx env cfg now req, ha⟩
  | expireLoop now =>
      obtain ⟨ix', hx', ha', -⟩ := ha.expireLoop hx now
      exact ⟨ix', hx', ha'⟩

/-- **The window and the index never disagree.**  In every run from a well-formed stored index
with a new manager, a key of the window that has a recorded deadline has that deadline; and an
iteration of the expiry loop before the recorded deadline of a key leaves both its value and its
deadline, so that a key that is rescheduled to a later time lives until then. -/
theorem window_agrees (env : Env) (cfg : XConfig) {s : ServerState} {es : List Event}
    (hx : WellFormed s.redis.xdb) (he : s.redis.expiremgr = {})
    (hes : ∀ ev ∈ es, ev.Deliverable) :
    let t := (run (step env cfg) s es).2.redis
    (∀ k v d, t.expiremgr.sortSet.score? k = some v → deadline t.xdb k = some d → v = d) ∧
      ∀ now k d, deadline t.xdb k = some d →
        let x := (t.expiremgr.expireLoop t.xdb now).2
        (deadline x k ≠ some d ∨ x.valueRow k ≠ t.xdb.valueRow k) → d ≤ now := by
  intro t
  obtain ⟨ix₀, hx⟩ := hx
  have h₀ : Agreeing s := ⟨ix₀, hx, fun k v d hv => by rw [he] at hv; cases hv⟩
  obtain ⟨ix, hrec, ha⟩ : Agreeing (run (step env cfg) s es).2 :=
    run_inv (fun _ _ hev hs => hs.step env cfg hev) hes h₀
  refine ⟨fun k v d hv hd => ha k v d hv ((hrec.deadline_eq k).symm.trans hd), ?_⟩
  intro now k d hd x hgone
  obtain ⟨ix', hrec', -, hkept⟩ := ha.expireLoop hrec now
  by_contra hnow
  obtain ⟨hd', hv'⟩ := hkept k d ((hrec.deadline_eq k).symm.trans hd) (not_le.mp hnow)
  rcases hgone with hgone | hgone
  · exact hgone ((hrec'.deadline_eq k).trans hd')
  · exact hgone hv'

/-- `k` is given five seconds, then nine, and the expiry loop runs on both. -/
theorem window_agrees_run :
    let es : List Event := [
      .redis 1000 [ascii "SET", ascii "k", ascii "v", ascii "EX", ascii "5"], .expireLoop 2000,
      .redis 3000 [ascii "EXPIRE", ascii "k", ascii "9"]]
    let t := (run (step plainEnv {}) freshServer es).2.redis
    deadline t.xdb (ascii "k") = some 12000 ∧
      ∀ v, t.expiremgr.sortSet.score? (ascii "k") = some v → v = 12000 := by
  have hd : deadline (run (step plainEnv {}) freshServer [
      .redis 1000 [ascii "SET", ascii "k", ascii "v", ascii "EX", ascii "5"], .expireLoop 2000,
      .redis 3000 [ascii "EXPIRE", ascii "k", ascii "9"]]).2.redis.xdb (ascii "k") =
      some 12000 := by decide
  refine ⟨hd, fun v hv => (window_agrees plainEnv {} wellFormed_empty rfl ?_).1 _ v _ hv hd⟩
  intro ev hev
  simp only [List.mem_cons, List.not_mem_nil, or_false] at hev
  rcases hev with rfl | rfl | rfl
  · exact ⟨by decide, by decide⟩
  · trivial
  · exact ⟨by decide, by decide⟩

end XHttpCache
