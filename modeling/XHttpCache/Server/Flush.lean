import XHttpCache.Server.Deadlines

/-!
# Server — what `FLUSHALL` leaves

`FLUSHALL` empties the database and does not touch the expiry manager, so the keys of the window
keep their deadlines, and a value stored later under one of them is deleted when that deadline
passes (`flushall_leaves_window`).

Redis commands and the expiry loop read, of the whole server, the rows of the database and the
window: neither `first_timeout`, which only tells the thread how long to sleep, nor the calls on
the etag cache ever come back in a reply.  Servers that agree on the two are `Alike`, and stay so
with equal replies (`Alike.step`).  Hence a `FLUSHALL` resets the server exactly when the window
is empty (`flushall_resets_iff`).
-/

namespace XHttpCache
open Support

/-! ### The database without its etag calls -/

namespace XDataBase

variable {x y : XDataBase}

theorem db_get_alike (h : x.db = y.db) (key : Bytes) :
    ∃ c v x' y', x.get key = (c, v, x') ∧ y.get key = (c, v, y') ∧ x'.db = y'.db := by
  rw [get, get, h]
  rcases y.db.get (encodeKey (.string key)) [] with ⟨st, v, db⟩
  cases st <;> exact ⟨_, _, _, _, rfl, rfl, by simp⟩

theorem db_set_alike (h : x.db = y.db) (now : Int) (key val : Bytes) :
    (x.set now key val).2.db = (y.set now key val).2.db := by
  simp only [set, h]
  rcases y.db.put (encodeKey (.string key)) _ with ⟨st, db⟩
  cases st <;> simp

theorem db_del_alike (h : x.db = y.db) (key : Bytes) :
    ∃ c x' y', x.del key = (c, x') ∧ y.del key = (c, y') ∧ x'.db = y'.db := by
  rw [del, del, h]
  rcases y.db.delete (encodeKey (.string key)) with ⟨st, db⟩
  cases st <;> exact ⟨_, _, _, rfl, rfl, rfl⟩

theorem db_foldl_del_alike (h : x.db = y.db) (keys : List Bytes) :
    (keys.foldl (fun xdb key => (xdb.del key).2) x).db =
      (keys.foldl (fun xdb key => (xdb.del key).2) y).db := by
  induction keys generalizing x y with
  | nil => exact h
  | cons key keys ih =>
      obtain ⟨c, x', y', hx, hy, h'⟩ := db_del_alike h key
      rw [List.foldl_cons, List.foldl_cons, hx, hy]
      exact ih h'

theorem db_scanKey_alike (h : x.db = y.db) (start stop : Bytes) (limit : Int) :
    ∃ c l x' y', x.scanKey start stop limit = (c, l, x') ∧ y.scanKey start stop limit = (c, l, y') ∧
      x'.db = y'.db := by
  rw [scanKey, scanKey, h]
  rcases y.db.newIterator with ⟨st, it, db⟩
  cases st <;> exact ⟨_, _, _, _, rfl, rfl, rfl⟩

theorem db_loadExpirationKeys_alike (h : x.db = y.db) (key : Bytes) (s : SortedSet) (limit : Int) :
    ∃ c s' x' y', x.loadExpirationKeys key s limit = (c, s', x') ∧
      y.loadExpirationKeys key s limit = (c, s', y') ∧ x'.db = y'.db := by
  simp only [loadExpirationKeys, h]
  rcases y.db.newIterator with ⟨st, it, db⟩
  cases st <;> exact ⟨_, _, _, _, rfl, rfl, rfl⟩

theorem db_flushall_alike (h : x.db = y.db) :
    ∃ c x' y', x.flushall = (c, x') ∧ y.flushall = (c, y') ∧ x'.db = y'.db := by
  rw [flushall, flushall, h]
  rcases y.db.newIterator with ⟨st, it, db⟩
  cases st <;> exact ⟨_, _, _, rfl, rfl, rfl⟩

theorem db_zget_alike (h : x.db = y.db) (key member : Bytes) :
    ∃ c v x' y', x.zget key member = (c, v, x') ∧ y.zget key member = (c, v, y') ∧
      x'.db = y'.db := by
  rw [zget, zget, h]
  rcases y.db.get (encodeKey (.zset key member)) [] with ⟨st, v, db⟩
  cases st <;> exact ⟨_, _, _, _, rfl, rfl, rfl⟩

theorem db_zset_alike (h : x.db = y.db) (key member score : Bytes) :
    ∃ c x' y', x.zset key member score = (c, x') ∧ y.zset key member score = (c, y') ∧
      x'.db = y'.db := by
  obtain ⟨c, v, x', y', hx, hy, hdb⟩ := db_zget_alike h key member
  by_cases hne : key = [] ∨ member = []
  · rw [zset, zset, if_pos hne, if_pos hne]
    exact ⟨_, _, _, rfl, rfl, h⟩
  rw [zset, zset, if_neg hne, if_neg hne, hx, hy]
  simp only
  by_cases hc : c = .null ∨ v ≠ score
  · rw [if_pos hc, if_pos hc]
    -- the old score row goes first, if there is one
    have hold : (if c ≠ .null then
          { x' with db := (x'.db.delete (encodeKey (.zscore key member v))).2 } else x').db =
        (if c ≠ .null then
          { y' with db := (y'.db.delete (encodeKey (.zscore key member v))).2 } else y').db := by
      split_ifs <;> simp [hdb]
    rw [hold]
    rcases RocksDB.put _ (encodeKey (.zscore key member score)) [] with ⟨st, db⟩
    cases st with
    | ok =>
        simp only
        rcases db.put (encodeKey (.zset key member)) score with ⟨st', db'⟩
        cases st' <;> exact ⟨_, _, _, rfl, rfl, rfl⟩
    | _ => exact ⟨_, _, _, rfl, rfl, rfl⟩
  · rw [if_neg hc, if_neg hc]
    exact ⟨_, _, _, rfl, rfl, hdb⟩

theorem db_zdel_alike (h : x.db = y.db) (key member : Bytes) :
    (x.zdel key member).2.db = (y.zdel key member).2.db := by
  obtain ⟨c, v, x', y', hx, hy, hdb⟩ := db_zget_alike h key member
  simp only [zdel, hx, hy, hdb]
  split_ifs
  · exact h
  · exact hdb
  · rcases RocksDB.delete _ (encodeKey (.zset key member)) with ⟨st, db⟩
    cases st <;> rfl

end XDataBase

/-! ### Alike servers -/

/-- The two servers have the same rows and the same window. -/
structure Alike (s t : ServerState) : Prop where
  db : s.redis.xdb.db = t.redis.xdb.db
  window : s.redis.expiremgr.sortSet = t.redis.expiremgr.sortSet

/-- A Redis command or an iteration of the expiry loop. -/
def Event.Internal : Event → Prop
  | .http _ _ => False
  | _ => True

/-- The same of the part that the Redis commands see, with what they answer. -/
def SameAnswer (p q : List Reply × XRedisServer) : Prop :=
  p.1 = q.1 ∧ p.2.xdb.db = q.2.xdb.db ∧ p.2.expiremgr.sortSet = q.2.expiremgr.sortSet

theorem sortSet_setTTL_alike {e f : ExpireManager} (h : e.sortSet = f.sortSet) (key : Bytes)
    (ttl : Int) : (e.setTTL key ttl).sortSet = (f.setTTL key ttl).sortSet := by
  rw [ExpireManager.sortSet_setTTL, ExpireManager.sortSet_setTTL, h]

namespace XRedisServer

variable {sv tv : XRedisServer} (hdb : sv.xdb.db = tv.xdb.db)
  (hw : sv.expiremgr.sortSet = tv.expiremgr.sortSet)
include hdb hw

theorem processCmdGet_alike (argv : List Bytes) :
    SameAnswer (sv.processCmdGet argv) (tv.processCmdGet argv) := by
  unfold processCmdGet
  split
  · rename_i key
    obtain ⟨c, v, x', y', hx, hy, h⟩ := XDataBase.db_get_alike hdb key
    rw [hx, hy]
    cases c <;> exact ⟨rfl, h, hw⟩
  · exact ⟨rfl, hdb, hw⟩

theorem processCmdSetEx_alike (now : Int) (key val ttl : Bytes) :
    SameAnswer (sv.processCmdSetEx now key val ttl) (tv.processCmdSetEx now key val ttl) := by
  obtain ⟨c, x', y', hx, hy, h⟩ := XDataBase.db_zset_alike
    (XDataBase.db_set_alike hdb now key val) expireKey key (ttlData (expiredAt now (cstr ttl)))
  have hw' := sortSet_setTTL_alike hw key (expiredAt now (cstr ttl))
  simp only [processCmdSetEx, hx, hy]
  cases c with
  | ok => exact ⟨rfl, h, sortSet_setTTL_alike hw' key _⟩
  | err => exact ⟨rfl, h, hw'⟩
  | null => exact ⟨rfl, h, hw'⟩

theorem processCmdSet_alike (now : Int) (argv : List Bytes) :
    SameAnswer (sv.processCmdSet now argv) (tv.processCmdSet now argv) := by
  unfold processCmdSet
  split
  · exact ⟨rfl, XDataBase.db_set_alike hdb _ _ _, hw⟩
  · split_ifs
    · exact processCmdSetEx_alike hdb hw _ _ _ _
    · exact ⟨rfl, hdb, hw⟩
  · exact ⟨rfl, hdb, hw⟩

theorem processCmdDel_alike (argv : List Bytes) :
    SameAnswer (sv.processCmdDel argv) (tv.processCmdDel argv) := by
  unfold processCmdDel
  split_ifs
  · exact ⟨rfl, hdb, hw⟩
  · generalize (0 : Int) = n
    induction argv.tail generalizing n sv tv with
    | nil => exact ⟨rfl, hdb, hw⟩
    | cons key keys ih =>
        obtain ⟨c, x', y', hx, hy, h⟩ := XDataBase.db_del_alike hdb key
        simp only [List.foldl_cons, hx, hy]
        exact @ih ⟨x', sv.expiremgr⟩ ⟨y', tv.expiremgr⟩ h hw _

theorem processCmdExpire_alike (now : Int) (argv : List Bytes) :
    SameAnswer (sv.processCmdExpire now argv) (tv.processCmdExpire now argv) := by
  unfold processCmdExpire
  split
  · rename_i key ttl
    simp only
    split_ifs
    · exact ⟨rfl, hdb, hw⟩
    obtain ⟨c, v, x', y', hx, hy, h⟩ := XDataBase.db_get_alike hdb key
    rw [hx, hy]
    cases c with
    | ok =>
        obtain ⟨c, x'', y'', hx, hy, h'⟩ :=
          XDataBase.db_zset_alike h expireKey key (ttlData (expiredAt now ttl))
        simp only [hx, hy]
        cases c with
        | ok => exact ⟨rfl, h', sortSet_setTTL_alike hw key _⟩
        | err => exact ⟨rfl, h', hw⟩
        | null => exact ⟨rfl, h', hw⟩
    | err => exact ⟨rfl, h, hw⟩
    | null => exact ⟨rfl, h, hw⟩
  · exact ⟨rfl, hdb, hw⟩

theorem processCmdTtl_alike (now : Int) (argv : List Bytes) :
    SameAnswer (sv.processCmdTtl now argv) (tv.processCmdTtl now argv) := by
  unfold processCmdTtl
  split
  · rename_i key
    obtain ⟨c, v, x', y', hx, hy, h⟩ := XDataBase.db_zget_alike hdb expireKey key
    rw [hx, hy]
    cases c <;> exact ⟨rfl, h, hw⟩
  · exact ⟨rfl, hdb, hw⟩

theorem processCmdScan_alike (argv : List Bytes) :
    SameAnswer (sv.processCmdScan argv) (tv.processCmdScan argv) := by
  unfold processCmdScan
  cases scanArgs argv with
  | none => exact ⟨rfl, hdb, hw⟩
  | some args =>
      obtain ⟨start, stop, limit, delResult⟩ := args
      obtain ⟨c, l, x', y', hx, hy, h⟩ := XDataBase.db_scanKey_alike hdb start stop limit
      simp only [hx, hy]
      split_ifs
      · exact ⟨rfl, h, hw⟩
      · exact ⟨rfl, XDataBase.db_foldl_del_alike h l, hw⟩
      · exact ⟨rfl, h, hw⟩

theorem processCmdFlushall_alike : SameAnswer sv.processCmdFlushall tv.processCmdFlushall := by
  unfold processCmdFlushall
  obtain ⟨c, x', y', hx, hy, h⟩ := XDataBase.db_flushall_alike hdb
  rw [hx, hy]
  cases c <;> exact ⟨rfl, h, hw⟩

/-- Alike servers give a command the same answer. -/
theorem doCmd_alike (now : Int) (argv : List Bytes) :
    SameAnswer (sv.doCmd now argv) (tv.doCmd now argv) := by
  unfold doCmd
  split
  · exact ⟨rfl, hdb, hw⟩
  · rename_i cmd args
    cases getCmdProcessFun cmd with
    | none => exact ⟨rfl, hdb, hw⟩
    | some cb =>
        cases cb with
        | set => exact processCmdSet_alike hdb hw now _
        | get => exact processCmdGet_alike hdb hw _
        | del => exact processCmdDel_alike hdb hw _
        | expire => exact processCmdExpire_alike hdb hw now _
        | ttl => exact processCmdTtl_alike hdb hw now _
        | scan => exact processCmdScan_alike hdb hw _
        | flushall => exact processCmdFlushall_alike hdb hw

end XRedisServer

theorem expireFront_alike {x y : XDataBase} {e f : ExpireManager} (hdb : x.db = y.db)
    (hw : e.sortSet = f.sortSet) (now : Int) :
    (e.expireFront x now).2.db = (f.expireFront y now).2.db ∧
      (e.expireFront x now).1.sortSet = (f.expireFront y now).1.sortSet := by
  rw [ExpireManager.expireFront, ExpireManager.expireFront, hw]
  cases f.sortSet.front with
  | none => exact ⟨hdb, hw⟩
  | some i =>
      obtain ⟨c, x', y', hx, hy, h⟩ := XDataBase.db_del_alike hdb (ofLex i).2
      simp only [hx, hy]
      split_ifs
      · exact ⟨XDataBase.db_zdel_alike h _ _, rfl⟩
      · exact ⟨hdb, rfl⟩

theorem expireLoop_alike {x y : XDataBase} {e f : ExpireManager} (hdb : x.db = y.db)
    (hw : e.sortSet = f.sortSet) (now : Int) :
    (e.expireLoop x now).2.db = (f.expireLoop y now).2.db ∧
      (e.expireLoop x now).1.sortSet = (f.expireLoop y now).1.sortSet := by
  rw [ExpireManager.expireLoop, ExpireManager.expireLoop, hw]
  split_ifs
  · obtain ⟨c, s, x', y', hx, hy, h⟩ :=
      XDataBase.db_loadExpirationKeys_alike hdb expireKey f.sortSet BATCH_SIZE
    simp only [ExpireManager.loadExpirationKeys, hw, hx, hy]
    split_ifs
    · exact ⟨h, rfl⟩
    · exact expireFront_alike (e := { e with sortSet := s }) (f := { f with sortSet := s }) h rfl now
  · exact expireFront_alike hdb hw now

/-- **Alike servers** give the same answers and stay alike. -/
theorem Alike.step {s t : ServerState} (h : Alike s t) (env : Env) (cfg : XConfig) {ev : Event}
    (hev : ev.Internal) :
    (step env cfg s ev).1 = (step env cfg t ev).1 ∧
      Alike (step env cfg s ev).2 (step env cfg t ev).2 := by
  cases ev with
  | redis now argv =>
      obtain ⟨hr, hdb, hw⟩ := XRedisServer.doCmd_alike h.db h.window now argv
      exact ⟨congrArg Output.replies hr, hdb, hw⟩
  | http now req => exact hev.elim
  | expireLoop now =>
      obtain ⟨hdb, hw⟩ := expireLoop_alike h.db h.window now
      exact ⟨rfl, hdb, hw⟩

/-! ### `FLUSHALL` -/

/-- The server when the calls of RocksDB to come will turn out as `faults` says. -/
def ServerState.facing (s : ServerState) (faults : List Bool) : ServerState :=
  ⟨{ s.redis with xdb := { s.redis.xdb with db := ⟨s.redis.xdb.rows, faults⟩ } }, s.sysdb⟩

/-- From `s` on, Redis commands and expiry loops are answered as on a server that has just been
started on an empty database, however the calls of RocksDB turn out. -/
def LikeNew (env : Env) (cfg : XConfig) (s : ServerState) : Prop :=
  ∀ (faults : List Bool) (es : List Event), (∀ ev ∈ es, ev.Internal) →
    (run (step env cfg) (s.facing faults) es).1 = (run (step env cfg) (startedOn faults) es).1

variable {s : ServerState} {sv : XRedisServer}

theorem flushall_eq (h : s.redis.xdb.FlushSucceeds) {cmd : Bytes}
    (hcmd : XRedisServer.getCmdProcessFun cmd = some .flushall) (env : Env) (cfg : XConfig)
    (now : Int) (args : List Bytes) :
    let r := step env cfg s (.redis now (cmd :: args))
    r.1 = .replies [.status (ascii "OK")] ∧ r.2.redis.xdb.rows = .empty ∧
      r.2.redis.expiremgr = s.redis.expiremgr := by
  obtain ⟨hok, hdb⟩ := XDataBase.flushall_of_succeeds h
  rcases hf : s.redis.xdb.flushall with ⟨c, xdb⟩
  rw [hf] at hok hdb
  obtain rfl : c = .ok := hok
  simp only [step, XRedisServer.doCmd, hcmd, XRedisServer.call, XRedisServer.processCmdFlushall, hf]
  exact ⟨trivial, by rw [XDataBase.rows, hdb], trivial⟩

theorem get_reply (h : sv.xdb.Healthy) (now : Int) (k : Bytes) :
    (sv.doCmd now [ascii "GET", k]).1 = [.null] ↔ sv.xdb.valueRow k = none := by
  have hcmd : XRedisServer.getCmdProcessFun (ascii "GET") = some .get := by decide
  obtain ⟨hc, -⟩ := XDataBase.get_spec h k
  simp only [XRedisServer.doCmd, hcmd, XRedisServer.call, XRedisServer.processCmdGet]
  rcases hg : sv.xdb.get k with ⟨c, val, xdb⟩
  rw [hg] at hc
  cases hv : sv.xdb.valueRow k with
  | none =>
      rw [show sv.xdb.rows.get (encodeKey (.string k)) = none from hv] at hc
      obtain rfl : c = .null := hc
      exact iff_of_true rfl rfl
  | some v =>
      rw [show sv.xdb.rows.get (encodeKey (.string k)) = some v from hv] at hc
      obtain rfl : c = .ok := hc
      simp

/-- What is asked of the server: a value is stored under `k`, the expiry loop runs at `v`, and
the value is read. -/
def probe (k : Bytes) (v : Int) : List Event :=
  [.redis 0 [ascii "SET", k, ascii "x"], .expireLoop v, .redis 0 [ascii "GET", k]]

theorem run_probe (env : Env) (cfg : XConfig) (s : ServerState) (k : Bytes) (v : Int) :
    let r := s.redis.expiremgr.expireLoop (s.redis.xdb.set 0 k (ascii "x")).2 v
    (run (step env cfg) s (probe k v)).1 =
      [.replies [.status (ascii "OK")], .silent,
        .replies (XRedisServer.doCmd ⟨r.2, r.1⟩ 0 [ascii "GET", k]).1] := rfl

/-- The front of the window takes the value stored under its key. -/
theorem valueRow_expireLoop_front {x : XDataBase} {ix : Bytes → Option Int} {e : ExpireManager}
    (hx : Recorded x ix) {k : Bytes} {v : Int} (hf : e.sortSet.front = some (item v k)) :
    (e.expireLoop x v).2.Healthy ∧ (e.expireLoop x v).2.valueRow k = none := by
  have hne : ¬ e.sortSet.empty = true := fun he => by
    rw [SortedSet.front_eq_none.mpr he] at hf
    cases hf
  have hdel := hx.del k
  have heq : (e.expireLoop x v).2 = ((x.del k).2.zdel expireKey k).2 := by
    rw [ExpireManager.expireLoop, if_neg hne, ExpireManager.expireFront, hf]
    exact congrArg Prod.snd (if_pos (le_refl v))
  rw [heq]
  exact ⟨(hdel.zdel k).healthy, by
    rw [XDataBase.valueRow_zdel hdel.healthy, XDataBase.valueRow_del hx.healthy, if_pos rfl]⟩

/-- Where nothing is recorded, the probe of the front of the window is answered null. -/
theorem probe_front {x : XDataBase} {e : ExpireManager} {k : Bytes} {v : Int}
    (hx : Recorded x fun _ => none) (hf : e.sortSet.front = some (item v k)) :
    let r := e.expireLoop (x.set 0 k (ascii "x")).2 v
    (XRedisServer.doCmd ⟨r.2, r.1⟩ 0 [ascii "GET", k]).1 = [.null] := by
  intro r
  obtain ⟨hh, hv⟩ := valueRow_expireLoop_front (hx.set 0 k (ascii "x")) hf
  exact (get_reply hh 0 k).mpr hv

/-- Where nothing is recorded and the window is empty, it is answered with the value. -/
theorem probe_new {x : XDataBase} {e : ExpireManager} (k : Bytes) (v : Int)
    (hx : Recorded x fun _ => none) (he : e.sortSet.empty = true) :
    let r := e.expireLoop (x.set 0 k (ascii "x")).2 v
    (XRedisServer.doCmd ⟨r.2, r.1⟩ 0 [ascii "GET", k]).1 ≠ [.null] := by
  intro r hnull
  obtain ⟨ix', hrec, hkeep⟩ := (hx.set 0 k (ascii "x")).expireLoop e v
  have hv := (hkeep k rfl (SortedSet.empty_iff.mp he k)).2.2
  rw [XDataBase.valueRow_set hx.healthy, if_pos rfl] at hv
  rw [(@get_reply ⟨r.2, r.1⟩ hrec.healthy 0 k).mp hnull] at hv
  cases hv

/-- **`FLUSHALL` resets the server exactly when the window is empty.**  Whatever the state, a
`FLUSHALL` whose calls of RocksDB succeed answers `OK`, and from then on the server answers as a
new one if and only if `sort_set` was empty. -/
theorem flushall_resets_iff (env : Env) (cfg : XConfig) (h : s.redis.xdb.FlushSucceeds) {cmd : Bytes}
    (hcmd : XRedisServer.getCmdProcessFun cmd = some .flushall) (now : Int) (args : List Bytes) :
    let r := step env cfg s (.redis now (cmd :: args))
    r.1 = .replies [.status (ascii "OK")] ∧
      (LikeNew env cfg r.2 ↔ s.redis.expiremgr.sortSet.empty = true) := by
  intro r
  obtain ⟨hok, hrows, hmgr⟩ := flushall_eq h hcmd env cfg now args
  refine ⟨hok, fun hnew => ?_, fun hempty faults es hes => ?_⟩
  · -- the front of the window tells the two apart
    by_contra hne
    obtain ⟨v, k, hf⟩ := SortedSet.exists_front (Bool.eq_false_iff.mpr hne)
    have hprobe := hnew [] (probe k v) (by simp [probe, Event.Internal])
    rw [run_probe, run_probe] at hprobe
    simp only [List.cons.injEq, Output.replies.injEq, true_and, and_true] at hprobe
    have hrec : Recorded (r.2.facing []).redis.xdb fun _ => none :=
      .of_db rfl (hrows ▸ .empty expireKey) nofun
    have hfront : (r.2.facing []).redis.expiremgr.sortSet.front = some (item v k) := by
      rw [ServerState.facing, hmgr, hf]
    rw [probe_front hrec hfront] at hprobe
    exact probe_new k v (.of_db rfl (.empty expireKey) nofun) rfl hprobe.symm
  · have halike : Alike (r.2.facing faults) (startedOn faults) :=
      ⟨by rw [ServerState.facing, hrows]; rfl, by
        rw [ServerState.facing, hmgr, SortedSet.eq_init hempty]; rfl⟩
    exact (run_sim (fun _ _ _ hev h => h.step env cfg hev) hes halike).1

/-- A key with a deadline has been stored, and the expiry loop has not run: the window is
empty. -/
theorem flushall_resets_iff_run :
    let s := (run (step plainEnv {}) freshServer
      [.redis 0 [ascii "SET", ascii "k", ascii "v", ascii "EX", ascii "10"]]).2
    let t := (step plainEnv {} s (.redis 200 [ascii "FLUSHALL"])).2
    let es : List Event := [.redis 300 [ascii "SET", ascii "k", ascii "w"], .expireLoop 10000,
      .redis 10001 [ascii "GET", ascii "k"]]
    (run (step plainEnv {}) (t.facing []) es).1 = (run (step plainEnv {}) (startedOn []) es).1 := by
  intro s t es
  have hs : s.redis.xdb.db.faults = [] := rfl
  exact (flushall_resets_iff plainEnv {} (XDataBase.Healthy.flushSucceeds hs) (by decide) 200
    []).2.mpr (by decide) [] es (by simp [es, Event.Internal])

/-- The expiry loop has run before the `FLUSHALL`: the deadline of the key takes the value stored
after it, which a new server keeps. -/
theorem flushall_leaves_window :
    let s := (run (step plainEnv {}) freshServer
      [.redis 0 [ascii "SET", ascii "k", ascii "v", ascii "EX", ascii "10"], .expireLoop 100]).2
    let r := step plainEnv {} s (.redis 200 [ascii "FLUSHALL"])
    let es : List Event := [.redis 300 [ascii "SET", ascii "k", ascii "w"], .expireLoop 10000,
      .redis 10001 [ascii "GET", ascii "k"]]
    r.1 = .replies [.status (ascii "OK")] ∧
      (run (step plainEnv {}) r.2 es).1 =
        [.replies [.status (ascii "OK")], .silent, .replies [.null]] ∧
      (run (step plainEnv {}) freshServer es).1 =
        [.replies [.status (ascii "OK")], .silent, .replies [.bulk (ascii "w")]] := by
  decide

end XHttpCache
