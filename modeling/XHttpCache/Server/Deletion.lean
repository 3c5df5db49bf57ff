import XHttpCache.Server.Deadlines

/-!
# Server — what is left of a deleted key

`DEL`, `SCAN .. DEL` and the HTTP `DELETE` remove the row of a key and leave its deadline, in the
index and in the window, where the expiry loop removes all three.  So the deadline of a deleted
key outlives it, and takes the next value stored under the key (`deadline_survives_deletion`).

`NoTTL s k` says that nothing is left: no recorded deadline, and no place in the window.  It
lasts until the key is armed again (`NoTTL.step`), and while it lasts `TTL` answers -2 and the
expiry loop leaves the key alone (`NoTTL.ttlEnded`).  A run in which keys are deleted only in
that state is as it should be (`deletion_ends_ttl`).
-/

namespace XHttpCache
open Support

/-- The keys that a `DEL` or a `SCAN .. DEL` deletes. -/
def redisDeletes (x : XDataBase) (argv : List Bytes) : List Bytes :=
  match argv.head?.bind XRedisServer.getCmdProcessFun with
  | some .del => if argv.length = 2 then argv.tail else []
  | some .scan =>
      match XRedisServer.scanArgs argv with
      | some (start, stop, limit, true) => (x.scanKey start stop limit).2.1
      | _ => []
  | _ => []

/-- The keys that a client deletes by an event. -/
def deletedKeys (env : Env) (cfg : XConfig) (s : ServerState) : Event → List Bytes
  | .redis _ argv => redisDeletes s.redis.xdb argv
  | .http now req =>
      if .del false ∈ (handle env cfg now req ⟨s.redis.xdb, s.sysdb⟩).accesses then [uriKey req]
      else []
  | .expireLoop _ => []

/-- The event is a `SET .. EX` or an `EXPIRE` that succeeds for `k`. -/
def Rearms (s : ServerState) (k : Bytes) : Event → Prop
  | .redis now argv => Armed argv (s.redis.doCmd now argv).1 k
  | _ => False

/-- Nothing is left of a deadline of `k`. -/
def NoTTL (s : ServerState) (k : Bytes) : Prop :=
  deadline s.redis.xdb k = none ∧ s.redis.expiremgr.sortSet.score? k = none

/-- `TTL` on `k` answers -2, and an iteration of the expiry loop leaves its value. -/
def TtlEnded (s : ServerState) (k : Bytes) : Prop :=
  (∀ now cmd, XRedisServer.getCmdProcessFun cmd = some .ttl →
    (s.redis.doCmd now [cmd, k]).1 = [.int (-2)]) ∧
  ∀ now, (s.redis.expiremgr.expireLoop s.redis.xdb now).2.valueRow k = s.redis.xdb.valueRow k

variable {env : Env} {cfg : XConfig} {s : ServerState} {k : Bytes}

/-! ### Deletions -/

theorem valueRow_foldl_del (keys : List Bytes) {x : XDataBase} (h : x.Healthy) (k : Bytes) :
    (keys.foldl (fun xdb key => (xdb.del key).2) x).valueRow k =
      if k ∈ keys then none else x.valueRow k := by
  induction keys generalizing x with
  | nil => simp
  | cons key keys ih =>
      rw [List.foldl_cons, ih (XDataBase.healthy_of_db (XDataBase.del_spec h key).2),
        XDataBase.valueRow_del h]
      by_cases hk : k = key <;> by_cases hks : k ∈ keys <;> simp [hk, hks]

theorem valueRow_redisDeletes {sv : XRedisServer} (h : sv.xdb.Healthy) (now : Int)
    {argv : List Bytes} (hk : k ∈ redisDeletes sv.xdb argv) :
    (sv.doCmd now argv).2.xdb.valueRow k = none := by
  rcases argv with _ | ⟨cmd, args⟩
  · simp [redisDeletes] at hk
  · simp only [redisDeletes, List.head?_cons, Option.bind_some] at hk
    rw [XRedisServer.doCmd]
    cases hcmd : XRedisServer.getCmdProcessFun cmd with
    | none => simp [hcmd] at hk
    | some cb =>
        rw [hcmd] at hk
        cases cb with
        | del =>
            simp only at hk
            split_ifs at hk with hlen
            · obtain ⟨key, rfl⟩ : ∃ key, args = [key] :=
                List.length_eq_one_iff.mp (by simpa using hlen)
              obtain rfl : k = key := by simpa using hk
              have := XDataBase.valueRow_del h k k
              simpa [XRedisServer.call, XRedisServer.processCmdDel] using this
            · cases hk
        | scan =>
            simp only at hk
            split at hk
            · rename_i start stop limit hargs
              simp only [XRedisServer.call, XRedisServer.processCmdScan, hargs]
              rw [XDataBase.scanKey_spec h] at hk ⊢
              simp only
              rw [if_neg (by decide), if_pos trivial, valueRow_foldl_del _ h, if_pos hk]
            · simp at hk
        | _ => simp at hk

theorem mem_accesses_restfulPro {req : EvhtpRequest} {now : Int} {hs : List (Bytes × Bytes)}
    {sys : Bool} {x : XDataBase}
    (h : .del false ∈ (restfulPro env cfg now req hs sys x).accesses) :
    sys = false ∧ (restfulPro env cfg now req hs sys x).state = (x.del (uriKey req)).2 := by
  unfold restfulPro at h ⊢
  cases hm : req.method with
  | get =>
      rw [hm] at h
      rcases hg : x.get (uriKey req) with ⟨c, val, x'⟩
      cases c <;> simp [hg] at h
  | delete =>
      rw [hm] at h
      simp only at h ⊢
      split_ifs at h ⊢ <;> simpa using h
  | other => simp [hm] at h
  | _ =>
      rw [hm] at h
      simp only at h
      split_ifs at h <;> simp at h

/-- A request that deletes a key of the shared database is an HTTP `DELETE` of that key. -/
theorem valueRow_handle {now : Int} {req : EvhtpRequest} {b : XevHtpdBackend}
    (hx : b.xdb.Healthy) (h : .del false ∈ (handle env cfg now req b).accesses) :
    (handle env cfg now req b).state.xdb.valueRow (uriKey req) = none := by
  cases ha : checkAuth env cfg req with
  | false =>
      rw [(handle_unauth ha now b).2.1] at h
      cases h
  | true =>
      rw [handle] at h ⊢
      cases hr : env.route req.full with
      | keyScan =>
          simp only [hr, keyScanCallback, ha, Bool.not_true, Bool.false_eq_true, if_false,
            accesses_onDb] at h
          split_ifs at h <;> simp at h
      | statistics => simp [hr, statisticsCallback, ha] at h
      | config => simp [hr, configCallback, ha] at h
      | adminShell =>
          simp only [hr, adminShellCallback, ha, Bool.not_true, Bool.false_eq_true, if_false,
            accesses_onDb] at h
          cases (mem_accesses_restfulPro h).1
      | rest =>
          simp only [hr, restCallback, ha, Bool.not_true, Bool.false_eq_true, if_false] at h ⊢
          split_ifs at h ⊢ with hk
          · cases h
          · rw [accesses_onDb] at h
            obtain ⟨hsys, hstate⟩ := mem_accesses_restfulPro h
            rw [hsys] at hstate ⊢
            simp only [onDb, Bool.false_eq_true, if_false] at hstate ⊢
            rw [hstate, XDataBase.valueRow_del hx, if_pos rfl]

/-- What is deleted is gone. -/
theorem valueRow_deletedKeys (h : s.redis.xdb.Healthy) {ev : Event}
    (hk : k ∈ deletedKeys env cfg s ev) : (step env cfg s ev).2.redis.xdb.valueRow k = none := by
  cases ev with
  | redis now argv => exact valueRow_redisDeletes h now hk
  | http now req =>
      simp only [deletedKeys] at hk
      split_ifs at hk with hdel
      · obtain rfl : k = uriKey req := by simpa using hk
        exact valueRow_handle (b := ⟨s.redis.xdb, s.sysdb⟩) h hdel
      · cases hk
  | expireLoop now => cases hk

/-! ### Steps -/

/-- Only arming `k` gives it a deadline. -/
theorem Effect.noTTL {argv : List Bytes} {ix : Bytes → Option Int} {e : ExpireManager}
    {replies : List Reply} {sv : XRedisServer} (h : Effect argv ix e replies sv)
    (hix : ix k = none) (hs : e.sortSet.score? k = none) (ha : ¬ Armed argv replies k) :
    ∃ ix', Recorded sv.xdb ix' ∧ ix' k = none ∧ sv.expiremgr.sortSet.score? k = none := by
  cases h with
  | quiet h => exact ⟨ix, h, hix, hs⟩
  | armed key d h harm he =>
      have hne : k ≠ key := by
        rintro rfl
        exact ha harm
      refine ⟨_, h, by rw [Function.update_of_ne hne, hix],
        ExpireManager.score?_setTTL_eq_none hne ?_ d⟩
      rcases he with rfl | rfl
      · exact hs
      · exact ExpireManager.score?_setTTL_eq_none hne hs d
  | refused key d h _ hk =>
      have hne : k ≠ key := by
        rintro rfl
        rw [hix] at hk
        cases hk
      exact ⟨ix, h, hix, ExpireManager.score?_setTTL_eq_none hne hs d⟩
  | flushed _ h => exact ⟨_, h, rfl, hs⟩

/-- The index stays well formed. -/
theorem WellFormed.step (h : WellFormed s.redis.xdb) (env : Env) (cfg : XConfig) {ev : Event}
    (hev : ev.Deliverable) : WellFormed (step env cfg s ev).2.redis.xdb := by
  obtain ⟨ix, hx⟩ := h
  cases ev with
  | redis now argv =>
      obtain ⟨ix', hrec⟩ := (doCmd_effect hx now hev).recorded
      exact ⟨ix', hrec⟩
  | http now req =>
      exact ⟨ix, handle_recorded (b := ⟨s.redis.xdb, s.sysdb⟩) hx env cfg now req⟩
  | expireLoop now =>
      obtain ⟨ix', hrec, -⟩ := hx.expireLoop s.redis.expiremgr now
      exact ⟨ix', hrec⟩

/-- **Every event** leaves a key without a deadline so, unless it arms the key. -/
theorem NoTTL.step (h : NoTTL s k) (hx : WellFormed s.redis.xdb) (env : Env) (cfg : XConfig)
    {ev : Event} (hev : ev.Deliverable) (ha : ¬ Rearms s k ev) : NoTTL (step env cfg s ev).2 k := by
  obtain ⟨ix, hx⟩ := hx
  have hix : ix k = none := (hx.deadline_eq k).symm.trans h.1
  cases ev with
  | redis now argv =>
      obtain ⟨ix', hrec, hix', hs⟩ := (doCmd_effect hx now hev).noTTL hix h.2 ha
      exact ⟨(hrec.deadline_eq k).trans hix', hs⟩
  | http now req =>
      have hrec := handle_recorded (b := ⟨s.redis.xdb, s.sysdb⟩) hx env cfg now req
      exact ⟨(hrec.deadline_eq k).trans hix, h.2⟩
  | expireLoop now =>
      obtain ⟨ix', hrec, hkeep⟩ := hx.expireLoop s.redis.expiremgr now
      obtain ⟨hix', hs, -⟩ := hkeep k hix h.2
      exact ⟨(hrec.deadline_eq k).trans hix', hs⟩

theorem NoTTL.ttlEnded (h : NoTTL s k) (hx : WellFormed s.redis.xdb) : TtlEnded s k := by
  obtain ⟨ix, hx⟩ := hx
  have hix : ix k = none := (hx.deadline_eq k).symm.trans h.1
  refine ⟨fun now cmd hcmd => ?_, fun now => ?_⟩
  · simp only [XRedisServer.doCmd, hcmd, XRedisServer.call, XRedisServer.processCmdTtl, hx.zget, hix]
  · obtain ⟨_, -, hkeep⟩ := hx.expireLoop s.redis.expiremgr now
    exact (hkeep k hix h.2).2.2

theorem not_rearms_of_deletedKeys {ev : Event} {k' : Bytes} (h : k' ∈ deletedKeys env cfg s ev) :
    ¬ Rearms s k ev := by
  cases ev with
  | redis now argv =>
      rintro ⟨ha, -⟩
      have hcmd : argv.head?.bind XRedisServer.getCmdProcessFun = some .set ∨
          argv.head?.bind XRedisServer.getCmdProcessFun = some .expire := by
        unfold armedKey at ha
        split at ha
        · split_ifs at ha with hc
          exact Or.inl hc.1
        · split_ifs at ha with hc
          exact Or.inr hc
        · cases ha
      rcases hcmd with hcmd | hcmd <;> simp [deletedKeys, redisDeletes, hcmd] at h
  | http now req => exact id
  | expireLoop now => exact id

/-! ### Runs -/

theorem WellFormed.run (h : WellFormed s.redis.xdb) (env : Env) (cfg : XConfig) {es : List Event}
    (hes : ∀ ev ∈ es, ev.Deliverable) :
    WellFormed (run (XHttpCache.step env cfg) s es).2.redis.xdb := by
  have hinv : ∀ (s : ServerState) (ev : Event), ev.Deliverable → WellFormed s.redis.xdb →
      WellFormed (XHttpCache.step env cfg s ev).2.redis.xdb :=
    fun s ev hev hs => hs.step env cfg hev
  exact run_inv hinv hes h

/-- A key without a deadline is left alone in every run that does not arm it. -/
theorem NoTTL.ttlEnded_run (h : NoTTL s k) (hx : WellFormed s.redis.xdb) {es : List Event}
    (hes : ∀ ev ∈ es, ev.Deliverable)
    (ha : Along (XHttpCache.step env cfg) (fun s ev => ¬ Rearms s k ev) s es) :
    TtlEnded (run (XHttpCache.step env cfg) s es).2 k := by
  have hinv : ∀ (s : ServerState) (ev : Event), ev.Deliverable ∧ ¬ Rearms s k ev →
      WellFormed s.redis.xdb ∧ NoTTL s k →
        WellFormed (XHttpCache.step env cfg s ev).2.redis.xdb ∧
          NoTTL (XHttpCache.step env cfg s ev).2 k :=
    fun s ev hev hs => ⟨hs.1.step env cfg hev.1, hs.2.step hs.1 env cfg hev.1 hev.2⟩
  obtain ⟨hwf, hn⟩ := along_inv hinv (ha.and_mem hes) ⟨hx, h⟩
  exact hn.ttlEnded hwf

/-- **Deleting a key ends its TTL**, in every run that deletes only keys of whose deadlines
nothing is left: the key is gone, and until it is armed again `TTL` answers -2 and no iteration
of the expiry loop deletes a value stored under it. -/
theorem deletion_ends_ttl {before between : List Event} {ev : Event}
    (hx : WellFormed s.redis.xdb) (hes : ∀ ev' ∈ before ++ ev :: between, ev'.Deliverable)
    (hclean : Along (step env cfg) (fun s ev => ∀ k ∈ deletedKeys env cfg s ev, NoTTL s k) s
      (before ++ ev :: between)) :
    let s₁ := (run (step env cfg) s before).2
    let s₂ := (step env cfg s₁ ev).2
    k ∈ deletedKeys env cfg s₁ ev →
      s₂.redis.xdb.valueRow k = none ∧
        (Along (step env cfg) (fun s ev => ¬ Rearms s k ev) s₂ between →
          TtlEnded (run (step env cfg) s₂ between).2 k) := by
  intro s₁ s₂ hk
  have hwf : WellFormed s₁.redis.xdb :=
    hx.run env cfg fun ev' he => hes ev' (List.mem_append_left _ he)
  obtain ⟨hev, hbetween⟩ := List.forall_mem_cons.mp fun ev' he =>
    hes ev' (List.mem_append_right before he)
  -- the deletion itself arms nothing
  have hdel : ¬ Rearms s₁ k ev := not_rearms_of_deletedKeys hk
  have hn : NoTTL s₂ k := ((along_append.mp hclean).2.1 k hk).step hwf env cfg hev hdel
  obtain ⟨ix, hrec⟩ := hwf
  exact ⟨valueRow_deletedKeys hrec.healthy hk,
    hn.ttlEnded_run (WellFormed.step ⟨ix, hrec⟩ env cfg hev) hbetween⟩

/-- A value without a deadline, deleted, and another stored under its key. -/
theorem deletion_ends_ttl_run :
    let put (now : Int) (v : Bytes) : Event := .redis now [ascii "SET", ascii "k", v]
    let t := (run (step plainEnv {}) freshServer
      [put 0 (ascii "v"), .redis 10 [ascii "DEL", ascii "k"], put 20 (ascii "w")]).2
    TtlEnded t (ascii "k") ∧ (t.redis.doCmd 30 [ascii "GET", ascii "k"]).1 = [.bulk (ascii "w")] := by
  refine ⟨(@deletion_ends_ttl plainEnv {} freshServer (ascii "k")
    [.redis 0 [ascii "SET", ascii "k", ascii "v"]] [.redis 20 [ascii "SET", ascii "k", ascii "w"]]
    (.redis 10 [ascii "DEL", ascii "k"]) wellFormed_empty ?_ ?_ (by decide)).2 ?_, by decide⟩
  · intro ev hev
    simp only [List.cons_append, List.nil_append, List.mem_cons, List.not_mem_nil, or_false] at hev
    rcases hev with rfl | rfl | rfl <;> exact ⟨by decide, by decide⟩
  · refine ⟨nofun, fun k hk => ?_, nofun, trivial⟩
    obtain rfl : k = ascii "k" := List.mem_singleton.mp hk
    exact ⟨by decide, by decide⟩
  · refine ⟨?_, trivial⟩
    rintro ⟨ha, -⟩
    cases ha

/-- The deadline of a deleted key is still there for `TTL`, and takes the value stored later. -/
theorem deadline_survives_deletion :
    let t := (run (step plainEnv {}) freshServer
      [.redis 0 [ascii "SET", ascii "k", ascii "v", ascii "EX", ascii "10"],
        .redis 10 [ascii "DEL", ascii "k"]]).2
    (run (step plainEnv {}) t
      [.redis 20 [ascii "TTL", ascii "k"], .redis 30 [ascii "SET", ascii "k", ascii "w"],
        .expireLoop 10000, .redis 10001 [ascii "GET", ascii "k"]]).1 =
      [.replies [.int 9], .replies [.status (ascii "OK")], .silent, .replies [.null]] := by
  decide

end XHttpCache
