import XHttpCache.Server.Deletion

/-!
# Server — events that leave a key alone

What writes or deletes the value of a key is a `SET`, a `DEL`, a `SCAN .. DEL` or a `FLUSHALL` by a
Redis client, a `POST`, `PUT` or `DELETE` by an HTTP client, or the expiry loop: `Touches` names
them, by their arguments and the state they come in.

* `leaves_doCmd`, `leaves_handle`, `leaves_expireLoop`: every other command, request and iteration
  leaves the value.
* `leaves_step`: so does every event that does not touch the key.
-/

namespace XHttpCache
open Support

/-! ### Calls -/

/-- The database `y` answers every call, and has the value of `k` that `x` has. -/
structure Leaves (k : Bytes) (x y : XDataBase) : Prop where
  healthy : y.Healthy
  valueRow : y.valueRow k = x.valueRow k

variable {k key : Bytes} {x y z : XDataBase}

theorem Leaves.refl (h : x.Healthy) : Leaves k x x := ⟨h, rfl⟩

theorem Leaves.trans (h : Leaves k x y) (h' : Leaves k y z) : Leaves k x z :=
  ⟨h'.healthy, h'.valueRow.trans h.valueRow⟩

theorem leaves_get (h : x.Healthy) (key : Bytes) : Leaves k x (x.get key).2.2 :=
  ⟨XDataBase.healthy_of_db (XDataBase.get_spec h key).2.2, XDataBase.valueRow_get h key k⟩

theorem leaves_set (h : x.Healthy) (hne : k ≠ key) (now : Int) (val : Bytes) :
    Leaves k x (x.set now key val).2 :=
  ⟨XDataBase.healthy_of_db (XDataBase.set_spec h now key val).2, by
    rw [XDataBase.valueRow_set h, if_neg hne]⟩

theorem leaves_del (h : x.Healthy) (hne : k ≠ key) : Leaves k x (x.del key).2 :=
  ⟨XDataBase.healthy_of_db (XDataBase.del_spec h key).2, by
    rw [XDataBase.valueRow_del h, if_neg hne]⟩

theorem leaves_zset (h : x.Healthy) (key member score : Bytes) :
    Leaves k x (x.zset key member score).2 := by
  refine ⟨?_, XDataBase.valueRow_zset h key member score k⟩
  by_cases hne : key = [] ∨ member = []
  · rwa [XDataBase.zset_of_empty x hne]
  · obtain ⟨hk, hm⟩ := not_or.mp hne
    by_cases hg : x.rows.get (encodeKey (.zset key member)) = some score
    · rwa [XDataBase.zset_same h hg]
    · exact XDataBase.healthy_of_db (XDataBase.zset_write h hk hm hg).2

theorem leaves_zdel (h : x.Healthy) (key member : Bytes) : Leaves k x (x.zdel key member).2 := by
  refine ⟨?_, XDataBase.valueRow_zdel h key member k⟩
  by_cases hne : key = [] ∨ member = []
  · rwa [XDataBase.zdel_of_empty x hne]
  · obtain ⟨hk, hm⟩ := not_or.mp hne
    cases hg : x.rows.get (encodeKey (.zset key member)) with
    | none => rwa [XDataBase.zdel_absent h hg]
    | some old => exact XDataBase.healthy_of_db (XDataBase.zdel_present h hk hm hg).2

theorem leaves_foldl_del (h : x.Healthy) {keys : List Bytes} (hk : k ∉ keys) :
    Leaves k x (keys.foldl (fun xdb key => (xdb.del key).2) x) := by
  induction keys generalizing x with
  | nil => exact .refl h
  | cons key keys ih =>
      obtain ⟨hne, hks⟩ := not_or.mp fun hm => hk (List.mem_cons.mpr hm)
      have hdel : Leaves k x (x.del key).2 := leaves_del h hne
      exact hdel.trans (ih hdel.healthy hks)

/-! ### Redis commands -/

/-- The key whose value a `SET` writes. -/
def writtenKey (argv : List Bytes) : Option Bytes :=
  match argv with
  | [cmd, key, _] => if XRedisServer.getCmdProcessFun cmd = some .set then some key else none
  | [cmd, key, _, ex, _] =>
      if XRedisServer.getCmdProcessFun cmd = some .set ∧ strcasecmpEq (ascii "ex") ex = true then
        some key
      else none
  | _ => none

/-- The command writes or deletes the value of `k`. -/
def RedisTouches (x : XDataBase) (k : Bytes) (argv : List Bytes) : Prop :=
  writtenKey argv = some k ∨ k ∈ redisDeletes x argv ∨
    argv.head?.bind XRedisServer.getCmdProcessFun = some .flushall

variable {sv : XRedisServer} {now : Int}

theorem leaves_processCmdSetEx (h : sv.xdb.Healthy) (hne : k ≠ key) (val ttl : Bytes) :
    Leaves k sv.xdb (sv.processCmdSetEx now key val ttl).2.xdb := by
  have hset := leaves_set h hne now val
  have hz : Leaves k sv.xdb _ := hset.trans
    (leaves_zset hset.healthy expireKey key (ttlData (expiredAt now (cstr ttl))))
  rw [XRedisServer.processCmdSetEx]
  generalize (sv.xdb.set now key val).2.zset expireKey key
    (ttlData (expiredAt now (cstr ttl))) = r at hz ⊢
  obtain ⟨c, xdb⟩ := r
  cases c <;> exact hz

theorem leaves_processCmdSet {cmd : Bytes} {args : List Bytes} (h : sv.xdb.Healthy)
    (hcmd : XRedisServer.getCmdProcessFun cmd = some .set)
    (hk : writtenKey (cmd :: args) ≠ some k) :
    Leaves k sv.xdb (sv.processCmdSet now (cmd :: args)).2.xdb := by
  rcases args with _ | ⟨key, _ | ⟨val, _ | ⟨ex, _ | ⟨ttl, _ | ⟨a, args⟩⟩⟩⟩⟩
  · exact .refl h
  · exact .refl h
  · rw [writtenKey, if_pos hcmd] at hk
    exact leaves_set h (fun he => hk (by rw [he])) now val
  · exact .refl h
  · rw [XRedisServer.processCmdSet]
    split_ifs with hex
    · rw [writtenKey, if_pos ⟨hcmd, hex⟩] at hk
      exact leaves_processCmdSetEx h (fun he => hk (by rw [he])) val ttl
    · exact .refl h
  · exact .refl h

theorem leaves_processCmdGet (h : sv.xdb.Healthy) (argv : List Bytes) :
    Leaves k sv.xdb (sv.processCmdGet argv).2.xdb := by
  unfold XRedisServer.processCmdGet
  split
  · rename_i key
    have hget : Leaves k sv.xdb (sv.xdb.get key).2.2 := leaves_get h key
    generalize sv.xdb.get key = r at hget ⊢
    obtain ⟨c, val, xdb⟩ := r
    cases c <;> exact hget
  · exact .refl h

theorem leaves_processCmdDel {cmd : Bytes} {args : List Bytes} (h : sv.xdb.Healthy)
    (hcmd : XRedisServer.getCmdProcessFun cmd = some .del)
    (hk : k ∉ redisDeletes sv.xdb (cmd :: args)) :
    Leaves k sv.xdb (sv.processCmdDel (cmd :: args)).2.xdb := by
  rcases args with _ | ⟨key, _ | ⟨a, args⟩⟩
  · exact .refl h
  · refine leaves_del h fun he => hk ?_
    simp [redisDeletes, hcmd, he]
  · exact .refl h

theorem leaves_processCmdExpire (h : sv.xdb.Healthy) (argv : List Bytes) :
    Leaves k sv.xdb (sv.processCmdExpire now argv).2.xdb := by
  unfold XRedisServer.processCmdExpire
  split
  · rename_i key ttl
    have hget : Leaves k sv.xdb (sv.xdb.get key).2.2 := leaves_get h key
    dsimp only
    split_ifs
    · exact .refl h
    · generalize sv.xdb.get key = r at hget ⊢
      obtain ⟨c, val, xdb⟩ := r
      cases c with
      | ok =>
          have hz : Leaves k sv.xdb _ :=
            hget.trans (leaves_zset hget.healthy expireKey key (ttlData (expiredAt now ttl)))
          dsimp only at hz ⊢
          generalize xdb.zset expireKey key (ttlData (expiredAt now ttl)) = r at hz ⊢
          obtain ⟨c, xdb'⟩ := r
          cases c <;> exact hz
      | err => exact hget
      | null => exact hget
  · exact .refl h

theorem leaves_processCmdTtl (h : sv.xdb.Healthy) (argv : List Bytes) :
    Leaves k sv.xdb (sv.processCmdTtl now argv).2.xdb := by
  unfold XRedisServer.processCmdTtl
  split
  · rename_i key
    rw [XDataBase.zget_spec h]
    cases sv.xdb.rows.get (encodeKey (.zset expireKey key)) <;> exact .refl h
  · exact .refl h

theorem leaves_processCmdScan {cmd : Bytes} {args : List Bytes} (h : sv.xdb.Healthy)
    (hcmd : XRedisServer.getCmdProcessFun cmd = some .scan)
    (hk : k ∉ redisDeletes sv.xdb (cmd :: args)) :
    Leaves k sv.xdb (sv.processCmdScan (cmd :: args)).2.xdb := by
  rw [redisDeletes, List.head?_cons, Option.bind_some, hcmd] at hk
  rw [XRedisServer.processCmdScan]
  cases hargs : XRedisServer.scanArgs (cmd :: args) with
  | none => exact .refl h
  | some a =>
      obtain ⟨start, stop, limit, del⟩ := a
      rw [hargs] at hk
      have hok : ¬ RetCode.ok.toInt < 0 := by decide
      simp only [XDataBase.scanKey_spec h, if_neg hok] at hk ⊢
      cases del with
      | true => exact leaves_foldl_del h hk
      | false => exact .refl h

/-- **A command that does not touch a key** leaves its value. -/
theorem leaves_doCmd (h : sv.xdb.Healthy) (now : Int) {argv : List Bytes}
    (hk : ¬ RedisTouches sv.xdb k argv) : Leaves k sv.xdb (sv.doCmd now argv).2.xdb := by
  obtain ⟨hwrite, hrest⟩ := not_or.mp hk
  obtain ⟨hdel, hflush⟩ := not_or.mp hrest
  rcases argv with _ | ⟨cmd, args⟩
  · exact .refl h
  · rw [XRedisServer.doCmd]
    cases hcmd : XRedisServer.getCmdProcessFun cmd with
    | none => exact .refl h
    | some cb =>
        cases cb with
        | set => exact leaves_processCmdSet h hcmd hwrite
        | get => exact leaves_processCmdGet h _
        | del => exact leaves_processCmdDel h hcmd hdel
        | expire => exact leaves_processCmdExpire h _
        | ttl => exact leaves_processCmdTtl h _
        | scan => exact leaves_processCmdScan h hcmd hdel
        | flushall => exact absurd hcmd hflush

/-! ### HTTP requests -/

variable {env : Env} {cfg : XConfig} {req : EvhtpRequest} {b : XevHtpdBackend}

/-- The accesses `l` write or delete a value of the shared database. -/
def Writes (l : List Access) : Prop := .set false ∈ l ∨ .del false ∈ l

theorem leaves_restfulPro (h : x.Healthy) (hs : List (Bytes × Bytes))
    (hk : uriKey req = k → ¬ Writes (restfulPro env cfg now req hs false x).accesses) :
    Leaves k x (restfulPro env cfg now req hs false x).state := by
  unfold restfulPro at hk ⊢
  cases hm : req.method with
  | get =>
      have hget : Leaves k x (x.get (uriKey req)).2.2 := leaves_get h (uriKey req)
      simp only
      generalize x.get (uriKey req) = r at hget ⊢
      obtain ⟨c, val, y⟩ := r
      cases c <;> exact hget
  | delete =>
      rw [hm] at hk
      have hne : k ≠ uriKey req := fun he => hk he.symm <| by
        simp only
        split_ifs <;> exact Or.inr (List.mem_singleton.mpr rfl)
      simp only
      split_ifs <;> exact leaves_del h hne
  | other => exact .refl h
  | _ =>
      rw [hm] at hk
      have hne : k ≠ uriKey req := fun he => hk he.symm <| by
        simp only
        split_ifs <;> exact Or.inl (List.mem_singleton.mpr rfl)
      simp only
      split_ifs <;> exact leaves_set h hne now _

theorem leaves_onDb (h : b.xdb.Healthy) {f : XDataBase → Handled XDataBase} {sys : Bool}
    (hf : sys = false → Leaves k b.xdb (f b.xdb).state) :
    Leaves k b.xdb (onDb b sys f).state.xdb := by
  cases sys with
  | true => exact .refl h
  | false => exact hf rfl

/-- **A request that does not write or delete the value of a key** leaves it. -/
theorem leaves_handle (h : b.xdb.Healthy)
    (hk : uriKey req = k → ¬ Writes (handle env cfg now req b).accesses) :
    Leaves k b.xdb (handle env cfg now req b).state.xdb := by
  cases ha : checkAuth env cfg req with
  | false =>
      rw [(handle_unauth ha now b).2.2]
      exact .refl h
  | true =>
      rw [handle] at hk ⊢
      cases hr : env.route req.full with
      | keyScan =>
          simp only [keyScanCallback, ha, Bool.not_true, Bool.false_eq_true, if_false]
          refine leaves_onDb h fun _ => ?_
          simp only [XDataBase.scanKey_spec h]
          split_ifs <;> exact .refl h
      | statistics =>
          simp only [statisticsCallback, ha, Bool.not_true, Bool.false_eq_true, if_false]
          exact .refl h
      | config =>
          simp only [configCallback, ha, Bool.not_true, Bool.false_eq_true, if_false]
          exact .refl h
      | adminShell =>
          simp only [adminShellCallback, ha, Bool.not_true, Bool.false_eq_true, if_false]
          exact leaves_onDb h fun hsys => Bool.noConfusion hsys
      | rest =>
          simp only [hr, restCallback, ha, Bool.not_true, Bool.false_eq_true, if_false] at hk ⊢
          split_ifs at hk ⊢
          · exact .refl h
          · refine leaves_onDb h fun hsys => ?_
            rw [accesses_onDb, hsys] at hk
            rw [hsys]
            exact leaves_restfulPro h _ hk

/-! ### The expiry loop -/

/-- The key at the front of the window, if it is due. -/
def dueFront (sortSet : SortedSet) (now : Int) : Option Bytes :=
  match sortSet.front with
  | none => none
  | some i => if (ofLex i).1 ≤ now then some (ofLex i).2 else none

/-- The key that an iteration of the expiry loop deletes. -/
def expiredKey (e : ExpireManager) (xdb : XDataBase) (now : Int) : Option Bytes :=
  if e.sortSet.empty then dueFront (e.loadExpirationKeys xdb BATCH_SIZE).1.sortSet now
  else dueFront e.sortSet now

theorem leaves_expireFront {e : ExpireManager} (h : x.Healthy) (now : Int)
    (hk : dueFront e.sortSet now ≠ some k) : Leaves k x (e.expireFront x now).2 := by
  rw [dueFront] at hk
  rw [ExpireManager.expireFront]
  cases hf : e.sortSet.front with
  | none => exact .refl h
  | some i =>
      rw [hf] at hk
      simp only at hk ⊢
      split_ifs at hk ⊢
      · have hdel : Leaves k x (x.del (ofLex i).2).2 := leaves_del h fun he => hk (by rw [he])
        exact hdel.trans (leaves_zdel hdel.healthy _ _)
      · exact .refl h

theorem leaves_expireLoop {e : ExpireManager} (h : x.Healthy) (now : Int)
    (hk : expiredKey e x now ≠ some k) : Leaves k x (e.expireLoop x now).2 := by
  have hload : (e.loadExpirationKeys x BATCH_SIZE).2 = x := by
    rw [ExpireManager.loadExpirationKeys, XDataBase.loadExpirationKeys_spec h]
  rw [ExpireManager.expireLoop]
  rw [expiredKey] at hk
  split_ifs at hk ⊢
  · simp only [hload]
    split_ifs
    · exact .refl h
    · exact leaves_expireFront h now hk
  · exact leaves_expireFront h now hk

/-! ### Events -/

/-- **The event writes or deletes the value of `k`.** -/
def Touches (env : Env) (cfg : XConfig) (s : ServerState) (k : Bytes) : Event → Prop
  | .redis _ argv => RedisTouches s.redis.xdb k argv
  | .http now req =>
      uriKey req = k ∧ Writes (handle env cfg now req ⟨s.redis.xdb, s.sysdb⟩).accesses
  | .expireLoop now => expiredKey s.redis.expiremgr s.redis.xdb now = some k

/-- **Every event leaves the keys that it does not touch.** -/
theorem leaves_step {s : ServerState} (h : s.redis.xdb.Healthy) {ev : Event}
    (hk : ¬ Touches env cfg s k ev) : Leaves k s.redis.xdb (step env cfg s ev).2.redis.xdb := by
  cases ev with
  | redis now argv => exact leaves_doCmd h now hk
  | http now req =>
      refine leaves_handle (b := ⟨s.redis.xdb, s.sysdb⟩) h fun he hw => ?_
      exact hk ⟨he, hw⟩
  | expireLoop now => exact leaves_expireLoop h now hk

end XHttpCache
