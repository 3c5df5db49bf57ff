import XHttpCache.Http.Backend
import XHttpCache.Resp.Format

/-!
# Server — events

The running server: the database and its expiry manager, which the Redis commands and the HTTP
backend share, and the backend's own database.  An event is a Redis command, an HTTP request to
the backend or an iteration of the expiry loop, each atomic and at a clock value; `step` answers
it, and `run step` is a run.

`doCmd_effect` says once what a Redis command does to the recorded deadlines and to the manager,
in four cases, and `handle_recorded` what a request does to them: nothing.  The results over runs
split on these and unfold no command.

A command comes from the parser, which hands out no empty argument and no command of `2 ^ 31`
bytes or more (its sizes are `int`): that is `Deliverable`, which `Resp/Safety.lean` proves of it,
and with it every key has a score row that can be read back.
-/

namespace XHttpCache
open Support

/-- The database shared by all, the expiry manager, and the backend's own database. -/
structure ServerState where
  redis : XRedisServer
  sysdb : XDataBase

/-- A server started on an empty database, where the calls of RocksDB will turn out as `faults`
says. -/
def startedOn (faults : List Bool) : ServerState :=
  ⟨{ xdb := { db := ⟨.empty, faults⟩ } }, { db := ⟨.empty, []⟩ }⟩

/-- The same, where all calls succeed. -/
def freshServer : ServerState := startedOn []

/-- What happens to the server. -/
inductive Event where
  | redis (now : Int) (argv : List Bytes)
  | http (now : Int) (req : EvhtpRequest)
  | expireLoop (now : Int)

/-- What it answers. -/
inductive Output where
  | replies (l : List Reply)
  | response (r : Response)
  | silent
  deriving DecidableEq

/-- One event. -/
def step (env : Env) (cfg : XConfig) (s : ServerState) : Event → Output × ServerState
  | .redis now argv =>
      let (replies, redis) := s.redis.doCmd now argv
      (.replies replies, { s with redis })
  | .http now req =>
      let r := handle env cfg now req ⟨s.redis.xdb, s.sysdb⟩
      (.response r.response, ⟨{ s.redis with xdb := r.state.xdb }, r.state.sysdb⟩)
  | .expireLoop now =>
      let (expiremgr, xdb) := s.redis.expiremgr.expireLoop s.redis.xdb now
      (.silent, { s with redis := ⟨xdb, expiremgr⟩ })

/-- The event is no Redis command, or one that the parser can hand out. -/
def Event.Deliverable : Event → Prop
  | .redis _ argv => XHttpCache.Deliverable argv
  | _ => True

/-! ### Redis commands -/

/-- The key that a `SET .. EX` or an `EXPIRE` is about. -/
def armedKey (argv : List Bytes) : Option Bytes :=
  match argv with
  | [cmd, key, _, ex, _] =>
      if XRedisServer.getCmdProcessFun cmd = some .set ∧ strcasecmpEq (ascii "ex") ex = true then
        some key
      else none
  | [cmd, key, _] =>
      if XRedisServer.getCmdProcessFun cmd = some .expire then some key else none
  | _ => none

/-- A `SET .. EX` answers `OK`, and an `EXPIRE` answers 1, when it has recorded a deadline. -/
def Armed (argv : List Bytes) (replies : List Reply) (key : Bytes) : Prop :=
  armedKey argv = some key ∧ (replies = [.status (ascii "OK")] ∨ replies = [.int 1])

theorem expiredAt_isI64 (now : Int) (ttl : Bytes) : IsI64 (expiredAt now ttl) := i64_isI64 _

theorem ttlData_expiredAt (now : Int) (ttl : Bytes) :
    ttlData (expiredAt now ttl) = decimal (expiredAt now ttl) :=
  snprintf_decimal (expiredAt_isI64 now ttl) (by omega)

/-- What a Redis command does to the recorded deadlines `ix` and to the manager `e`. -/
inductive Effect (argv : List Bytes) (ix : Bytes → Option Int) (e : ExpireManager) :
    List Reply → XRedisServer → Prop where
  /-- Neither changes. -/
  | quiet {replies x} (h : Recorded x ix) : Effect argv ix e replies ⟨x, e⟩
  /-- A deadline is recorded, and `SetTTL` called with it, after a first call in `SET .. EX`. -/
  | armed {replies x e'} (key : Bytes) (d : Int) (h : Recorded x (Function.update ix key (some d)))
      (ha : Armed argv replies key) (he : e' = e ∨ e' = e.setTTL key d) :
      Effect argv ix e replies ⟨x, e'.setTTL key d⟩
  /-- `SET .. EX` calls `SetTTL`, and then the deadline is refused, for it is recorded already. -/
  | refused {replies x} (key : Bytes) (d : Int) (h : Recorded x ix) (ha : armedKey argv = some key)
      (hk : ix key = some d) : Effect argv ix e replies ⟨x, e.setTTL key d⟩
  /-- The database is emptied. -/
  | flushed {replies x} (ha : argv.head?.bind XRedisServer.getCmdProcessFun = some .flushall)
      (h : Recorded x fun _ => none) : Effect argv ix e replies ⟨x, e⟩

variable {sv : XRedisServer} {ix : Bytes → Option Int} {now : Int} {argv : List Bytes}

/-- The index stays well formed. -/
theorem Effect.recorded {e : ExpireManager} {replies : List Reply}
    (h : Effect argv ix e replies sv) : ∃ ix', Recorded sv.xdb ix' := by
  cases h with
  | quiet h => exact ⟨_, h⟩
  | armed _ _ h => exact ⟨_, h⟩
  | refused _ _ h => exact ⟨_, h⟩
  | flushed _ h => exact ⟨_, h⟩

theorem effect_processCmdGet (h : Recorded sv.xdb ix) :
    Effect argv ix sv.expiremgr (sv.processCmdGet argv).1 (sv.processCmdGet argv).2 := by
  unfold XRedisServer.processCmdGet
  split
  · rename_i key
    have hget := h.get key
    rcases hg : sv.xdb.get key with ⟨c, val, xdb⟩
    rw [hg] at hget
    cases c <;> exact .quiet hget
  · exact .quiet h

theorem effect_processCmdDel (h : Recorded sv.xdb ix) :
    Effect argv ix sv.expiremgr (sv.processCmdDel argv).1 (sv.processCmdDel argv).2 := by
  unfold XRedisServer.processCmdDel
  split_ifs
  · exact .quiet h
  · refine .quiet ?_
    generalize (0 : Int) = n
    induction argv.tail generalizing n sv with
    | nil => exact h
    | cons key keys ih => exact @ih ⟨(sv.xdb.del key).2, sv.expiremgr⟩ (h.del key) _

theorem effect_processCmdTtl (h : Recorded sv.xdb ix) :
    Effect argv ix sv.expiremgr (sv.processCmdTtl now argv).1 (sv.processCmdTtl now argv).2 := by
  unfold XRedisServer.processCmdTtl
  split
  · rename_i key
    rw [h.zget]
    cases ix key <;> exact .quiet h
  · exact .quiet h

theorem recorded_foldl_del (keys : List Bytes) {x : XDataBase} (h : Recorded x ix) :
    Recorded (keys.foldl (fun xdb key => (xdb.del key).2) x) ix := by
  induction keys generalizing x with
  | nil => exact h
  | cons key keys ih => exact ih (h.del key)

theorem effect_processCmdScan (h : Recorded sv.xdb ix) :
    Effect argv ix sv.expiremgr (sv.processCmdScan argv).1 (sv.processCmdScan argv).2 := by
  unfold XRedisServer.processCmdScan
  cases XRedisServer.scanArgs argv with
  | none => exact .quiet h
  | some args =>
      obtain ⟨start, stop, limit, delResult⟩ := args
      simp only [XDataBase.scanKey_spec h.healthy]
      split_ifs
      · exact .quiet h
      · exact .quiet (recorded_foldl_del _ h)
      · exact .quiet h

theorem effect_processCmdFlushall (h : Recorded sv.xdb ix)
    (ha : argv.head?.bind XRedisServer.getCmdProcessFun = some .flushall) :
    Effect argv ix sv.expiremgr sv.processCmdFlushall.1 sv.processCmdFlushall.2 := by
  have hflush := h.flushall
  have hok := (XDataBase.flushall_spec h.healthy).1
  unfold XRedisServer.processCmdFlushall
  rcases hf : sv.xdb.flushall with ⟨c, xdb⟩
  rw [hf] at hflush hok
  obtain rfl : c = .ok := hok
  exact .flushed ha hflush

/-- The key stands between the name of the command and another argument. -/
theorem eq_of_armedKey {key : Bytes} (h : armedKey argv = some key) :
    ∃ cmd arg args, argv = cmd :: key :: arg :: args := by
  unfold armedKey at h
  split at h
  · split_ifs at h
    cases h
    exact ⟨_, _, _, rfl⟩
  · split_ifs at h
    cases h
    exact ⟨_, _, _, rfl⟩
  · cases h

/-- A key that the parser handed out is not empty, and its score row can be read back. -/
theorem Deliverable.armedKey {key : Bytes} (h : Deliverable argv) (hk : armedKey argv = some key)
    (d : Int) : key ≠ [] ∧ (scoreRow expireKey d key).length < 2 ^ 31 := by
  obtain ⟨cmd, arg, args, rfl⟩ := eq_of_armedKey hk
  have hne : ∀ a ∈ cmd :: key :: arg :: args, 0 < a.length := fun a ha =>
    List.length_pos_of_ne_nil fun he => h.1 (he ▸ ha)
  have hcmd := hne cmd (by simp)
  have harg := hne arg (by simp)
  have hlen := h.2
  have hexp : expireKey.length = 6 := rfl
  simp only [List.map_cons, List.sum_cons, List.length_cons] at hlen
  rw [length_scoreRow]
  exact ⟨List.ne_nil_of_length_pos (hne key (by simp)), by omega⟩

theorem effect_processCmdSetEx (h : Recorded sv.xdb ix) {key val ttl : Bytes}
    (hd : Deliverable argv) (ha : armedKey argv = some key) :
    Effect argv ix sv.expiremgr (sv.processCmdSetEx now key val ttl).1
      (sv.processCmdSetEx now key val ttl).2 := by
  have hset := h.set now key val
  obtain ⟨hne, hlen⟩ := hd.armedKey ha (expiredAt now (cstr ttl))
  simp only [XRedisServer.processCmdSetEx, ttlData_expiredAt]
  by_cases hix : ix key = some (expiredAt now (cstr ttl))
  · rw [hset.zset_err (Or.inr hix)]
    exact .refused key _ hset ha hix
  · obtain ⟨hok, hrec⟩ := hset.zset_ok hne hix (expiredAt_isI64 _ _) hlen
    rcases hz : (sv.xdb.set now key val).2.zset expireKey key
      (decimal (expiredAt now (cstr ttl))) with ⟨c, xdb⟩
    rw [hz] at hok hrec
    obtain rfl : c = .ok := hok
    exact .armed key _ hrec ⟨ha, Or.inl rfl⟩ (Or.inr rfl)

theorem effect_processCmdSet {cmd : Bytes} {args : List Bytes} (h : Recorded sv.xdb ix)
    (hd : Deliverable (cmd :: args)) (hcmd : XRedisServer.getCmdProcessFun cmd = some .set) :
    Effect (cmd :: args) ix sv.expiremgr (sv.processCmdSet now (cmd :: args)).1
      (sv.processCmdSet now (cmd :: args)).2 := by
  rcases args with _ | ⟨key, _ | ⟨val, _ | ⟨ex, _ | ⟨ttl, _ | ⟨a, args⟩⟩⟩⟩⟩
  · exact .quiet h
  · exact .quiet h
  · exact .quiet (h.set now key val)
  · exact .quiet h
  · simp only [XRedisServer.processCmdSet]
    split_ifs with hex
    · exact effect_processCmdSetEx h hd (if_pos ⟨hcmd, hex⟩)
    · exact .quiet h
  · exact .quiet h

theorem effect_processCmdExpire {cmd : Bytes} {args : List Bytes} (h : Recorded sv.xdb ix)
    (hd : Deliverable (cmd :: args)) (hcmd : XRedisServer.getCmdProcessFun cmd = some .expire) :
    Effect (cmd :: args) ix sv.expiremgr (sv.processCmdExpire now (cmd :: args)).1
      (sv.processCmdExpire now (cmd :: args)).2 := by
  rcases args with _ | ⟨key, _ | ⟨ttl, _ | ⟨a, args⟩⟩⟩
  · exact .quiet h
  · exact .quiet h
  · have hget := h.get key
    have ha : armedKey [cmd, key, ttl] = some key := if_pos hcmd
    obtain ⟨hne, hlen⟩ := hd.armedKey ha (expiredAt now ttl)
    simp only [XRedisServer.processCmdExpire, ttlData_expiredAt]
    split_ifs
    · exact .quiet h
    rcases hg : sv.xdb.get key with ⟨c, val, xdb⟩
    rw [hg] at hget
    cases c with
    | ok =>
        simp only
        by_cases hix : ix key = some (expiredAt now ttl)
        · rw [hget.zset_err (Or.inr hix)]
          exact .quiet hget
        · obtain ⟨hok, hrec⟩ := hget.zset_ok hne hix (expiredAt_isI64 _ _) hlen
          rcases hz : xdb.zset expireKey key (decimal (expiredAt now ttl)) with ⟨c, xdb'⟩
          rw [hz] at hok hrec
          obtain rfl : c = .ok := hok
          exact .armed key _ hrec ⟨ha, Or.inr rfl⟩ (Or.inl rfl)
    | err => exact .quiet hget
    | null => exact .quiet hget
  · exact .quiet h

/-- **What a Redis command does** to the deadlines and to the manager. -/
theorem doCmd_effect (h : Recorded sv.xdb ix) (now : Int) (hd : Deliverable argv) :
    Effect argv ix sv.expiremgr (sv.doCmd now argv).1 (sv.doCmd now argv).2 := by
  rcases argv with _ | ⟨cmd, args⟩
  · exact .quiet h
  · rw [XRedisServer.doCmd]
    cases hcmd : XRedisServer.getCmdProcessFun cmd with
    | none => exact .quiet h
    | some cb =>
        cases cb with
        | set => exact effect_processCmdSet h hd hcmd
        | get => exact effect_processCmdGet h
        | del => exact effect_processCmdDel h
        | expire => exact effect_processCmdExpire h hd hcmd
        | ttl => exact effect_processCmdTtl h
        | scan => exact effect_processCmdScan h
        | flushall => exact effect_processCmdFlushall h hcmd

/-! ### HTTP requests -/

variable {env : Env} {cfg : XConfig} {req : EvhtpRequest} {b : XevHtpdBackend}

theorem recorded_restfulPro {x : XDataBase} (h : Recorded x ix) (hs : List (Bytes × Bytes))
    (sys : Bool) : Recorded (restfulPro env cfg now req hs sys x).state ix := by
  unfold restfulPro
  cases req.method with
  | get =>
      have hget := h.get (uriKey req)
      rcases hg : x.get (uriKey req) with ⟨c, val, x'⟩
      rw [hg] at hget
      cases c <;> exact hget
  | post =>
      have hset := h.set now (uriKey req) (postValue env cfg req)
      simp only
      split_ifs <;> exact hset
  | put =>
      have hset := h.set now (uriKey req) (postValue env cfg req)
      simp only
      split_ifs <;> exact hset
  | delete =>
      have hdel := h.del (uriKey req)
      simp only
      split_ifs <;> exact hdel
  | other => exact h

theorem recorded_onDb (h : Recorded b.xdb ix) {f : XDataBase → Handled XDataBase}
    (hf : ∀ x, Recorded x ix → Recorded (f x).state ix) (sys : Bool) :
    Recorded (onDb b sys f).state.xdb ix := by
  cases sys with
  | true => exact h
  | false => exact hf _ h

/-- A request leaves the deadlines as they are. -/
theorem handle_recorded (h : Recorded b.xdb ix) (env : Env) (cfg : XConfig) (now : Int)
    (req : EvhtpRequest) : Recorded (handle env cfg now req b).state.xdb ix := by
  cases ha : checkAuth env cfg req with
  | false => rwa [(handle_unauth ha now b).2.2]
  | true =>
      rw [handle]
      cases env.route req.full with
      | keyScan =>
          simp only [keyScanCallback, ha, Bool.not_true, Bool.false_eq_true, if_false]
          refine recorded_onDb h (fun x hx => ?_) _
          simp only [XDataBase.scanKey_spec hx.healthy]
          split_ifs <;> exact hx
      | statistics => simpa [statisticsCallback, ha] using h
      | config => simpa [configCallback, ha] using h
      | adminShell =>
          simp only [adminShellCallback, ha, Bool.not_true, Bool.false_eq_true, if_false]
          exact recorded_onDb h (fun x hx => recorded_restfulPro hx _ _) _
      | rest =>
          simp only [restCallback, ha, Bool.not_true, Bool.false_eq_true, if_false]
          split_ifs
          · exact h
          · exact recorded_onDb h (fun x hx => recorded_restfulPro hx _ _) _

end XHttpCache
