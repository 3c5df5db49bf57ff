import XHttpCache.Server.Cache
import XHttpCache.Server.Deadlines
import XHttpCache.Store.Scan

/-!
# Server — the server refines the cache

`s.Represents c` says that the rows of the two databases hold the values of the cache `c` and the
deadlines that it records, and that the window of the expiry manager has no deadline that was not
given.  Each event does what the cache allows and keeps the relation, so a run of the server is one
of the cache, output by output (`server_refines_cache`).

Then what holds of every run of the cache holds of the server: a value that is stored under a key
that was never given a deadline is read back until the key is written or deleted
(`value_read_back`).
-/

namespace XHttpCache
open Support

/-! ### A database and a map -/

namespace XDataBase

/-- The rows of the database hold the values of the map, and each can be listed. -/
structure Has (x : XDataBase) (m : OrderedMap Bytes XValue) : Prop where
  healthy : x.Healthy
  value : ∀ k, x.valueOf k = m.get k
  fits : ∀ k, m.get k ≠ none → RowFits k

namespace Has

variable {x x' : XDataBase} {m : OrderedMap Bytes XValue} {key : Bytes}

theorem of_empty (hx : x.db = ⟨.empty, []⟩) : x.Has .empty where
  healthy := healthy_of_db hx
  value k := by rw [valueOf, valueRow_of_db hx, OrderedMap.get_empty, Option.map_none,
    OrderedMap.get_empty]
  fits k h := absurd (OrderedMap.get_empty k) h

theorem congr (h : x.Has m) (hx : x'.Healthy) (hrow : ∀ k, x'.valueRow k = x.valueRow k) :
    x'.Has m where
  healthy := hx
  value k := by rw [valueOf, hrow, ← valueOf, h.value]
  fits := h.fits

theorem set (h : x.Has m) (now : Int) (val : Bytes) (hkey : RowFits key) :
    (x.set now key val).1 = .ok ∧
      (x.set now key val).2.Has (m.insert key ⟨getCurrentTime now, val⟩) := by
  obtain ⟨hok, hdb⟩ := set_spec h.healthy now key val
  refine ⟨hok, healthy_of_db hdb, fun k => ?_, fun k hk => ?_⟩
  · rw [valueOf_set h.healthy, OrderedMap.get_insert, h.value]
  · rw [OrderedMap.get_insert] at hk
    split_ifs at hk with hkk
    · rwa [hkk]
    · exact h.fits k hk

theorem del (h : x.Has m) (key : Bytes) :
    (x.del key).1 = .ok ∧ (x.del key).2.Has (m.erase key) := by
  obtain ⟨hok, hdb⟩ := del_spec h.healthy key
  refine ⟨hok, healthy_of_db hdb, fun k => ?_, fun k hk => ?_⟩
  · rw [valueOf_del h.healthy, OrderedMap.get_erase, h.value]
  · rw [OrderedMap.get_erase] at hk
    split_ifs at hk with hkk
    · exact absurd rfl hk
    · exact h.fits k hk

theorem get (h : x.Has m) (key : Bytes) : (x.get key).2.2.Has m :=
  h.congr (healthy_of_db (get_spec h.healthy key).2.2) (valueRow_get h.healthy key)

/-- `Get` of a key that has a value. -/
theorem get_some (h : x.Has m) {v : XValue} (hv : m.get key = some v) :
    (x.get key).1 = .ok ∧ (x.get key).2.1 = v :=
  get_of_valueOf h.healthy ((h.value key).trans hv)

/-- `Get` of a key that has none. -/
theorem get_none (h : x.Has m) (hv : m.get key = none) : (x.get key).1 = .null :=
  get_of_no_value h.healthy ((h.value key).trans hv)

theorem flushall (h : x.Has m) : x.flushall.1 = .ok ∧ x.flushall.2.Has .empty := by
  obtain ⟨hok, hdb⟩ := flushall_spec h.healthy
  exact ⟨hok, of_empty hdb⟩

theorem zset (h : x.Has m) (set member score : Bytes) (hx : (x.zset set member score).2.Healthy) :
    (x.zset set member score).2.Has m :=
  h.congr hx (valueRow_zset h.healthy set member score)

theorem zdel (h : x.Has m) (set member : Bytes) (hx : (x.zdel set member).2.Healthy) :
    (x.zdel set member).2.Has m :=
  h.congr hx (valueRow_zdel h.healthy set member)

theorem mem_kvKeys (h : x.Has m) {k : Bytes} : k ∈ x.kvKeys ↔ m.get k ≠ none := by
  rw [XDataBase.mem_kvKeys, ← h.value, valueOf, ne_eq, ne_eq, Option.map_eq_none_iff]

/-- The keys of the map stand in the rows in their order. -/
theorem kvKeys (h : x.Has m) : x.kvKeys = m.rows.map (·.1) := by
  refine OrderedMap.eq_of_pairwise_of_mem_iff (fun _ _ => lt_asymm) (sorted_kvKeys x)
    (List.pairwise_map.mpr m.sorted) fun k => ?_
  rw [h.mem_kvKeys, Option.ne_none_iff_exists', List.mem_map]
  constructor
  · rintro ⟨v, hv⟩
    exact ⟨(k, v), OrderedMap.mem_rows.mpr hv, rfl⟩
  · rintro ⟨⟨k', v⟩, hr, rfl⟩
    exact ⟨v, OrderedMap.mem_rows.mp hr⟩

/-- **A scan** lists the keys of the map. -/
theorem scanKey (h : x.Has m) (start stop : Bytes) (limit : Int) :
    x.scanKey start stop limit = (.ok, (keysBetween m start stop).take limit.toNat, x) := by
  have hkeys : x.keysIn start stop = keysBetween m start stop := by
    rw [keysIn, h.kvKeys, keysBetween]
  rw [scanKey_keysIn h.healthy, ← hkeys]
  refine congrArg (fun l => (RetCode.ok, l, x)) ((decodeRows_eq_iff _ rowFits_nil).mpr ?_)
  intro k hk
  have hmem := (mem_keysIn.mp (List.mem_of_mem_take hk)).1
  exact h.fits k (h.mem_kvKeys.mp (XDataBase.mem_kvKeys.mpr hmem))

end Has

end XDataBase

/-! ### The window and the deadlines -/

/-- The deadlines that are recorded, and those of the window, have been given; where a key has both
they agree. -/
structure Scheduled (ix : Bytes → Option Int) (given : List (Bytes × Int)) (e : ExpireManager) :
    Prop where
  recorded : ∀ k d, ix k = some d → (k, d) ∈ given
  window : ∀ k d, e.sortSet.score? k = some d → (k, d) ∈ given
  agrees : Agrees ix e.sortSet

namespace Scheduled

variable {ix : Bytes → Option Int} {given : List (Bytes × Int)} {e : ExpireManager} {key : Bytes}

theorem fresh : Scheduled (fun _ => none) [] {} where
  recorded _ _ h := by cases h
  window _ _ h := by cases h
  agrees _ _ _ _ h := by cases h

/-- A key is given a deadline. -/
theorem arm (h : Scheduled ix given e) (key : Bytes) (d : Int) :
    Scheduled (Function.update ix key (some d)) ((key, d) :: given) (e.setTTL key d) where
  recorded k d' hd := by
    by_cases hk : k = key
    · rw [hk, Function.update_self] at hd
      rw [hk, Option.some.inj hd]
      exact List.mem_cons_self
    · rw [Function.update_of_ne hk] at hd
      exact List.mem_cons_of_mem _ (h.recorded k d' hd)
  window k d' hd := by
    rcases ExpireManager.score?_of_setTTL hd with ⟨rfl, rfl⟩ | ⟨-, hd⟩
    · exact List.mem_cons_self
    · exact List.mem_cons_of_mem _ (h.window k d' hd)
  agrees := h.agrees.setTTL key d

/-- `SetTTL` of a key with the deadline that it has. -/
theorem again (h : Scheduled ix given e) {d : Int} (hd : ix key = some d) :
    Scheduled ix given (e.setTTL key d) where
  recorded := h.recorded
  window k d' hs := by
    rcases ExpireManager.score?_of_setTTL hs with ⟨rfl, rfl⟩ | ⟨-, hs⟩
    · exact h.recorded _ _ hd
    · exact h.window k d' hs
  agrees := by
    have hagrees := h.agrees.setTTL key d
    rwa [Function.update_eq_self_iff.mpr hd.symm] at hagrees

/-- Deadlines are not recorded any more. -/
theorem flushed (h : Scheduled ix given e) : Scheduled (fun _ => none) given e where
  recorded _ _ hd := by cases hd
  window := h.window
  agrees _ _ _ _ hd := by cases hd

/-- The window that an iteration looks at. -/
theorem faced (h : Scheduled ix given e) {s : SortedSet} (hs : Faced ix e s) (first : Int) :
    Scheduled ix given ⟨s, first⟩ where
  recorded := h.recorded
  window k d := hs.elim (P := fun s => s.score? k = some d → (k, d) ∈ given) (h.window k d)
    fun he hd => h.recorded k d (hs.recorded he k d hd)
  agrees := hs.agrees h.agrees

/-- A key goes. -/
theorem popFront (h : Scheduled ix given e) (key : Bytes) (first : Int) :
    Scheduled (Function.update ix key none) given ⟨e.sortSet.popFront.2, first⟩ where
  recorded k d hd := h.recorded k d (update_none_eq_some.mp hd).2
  window k d hd := h.window k d (SortedSet.score?_of_popFront hd)
  agrees := h.agrees.popFront key

end Scheduled

/-! ### The server and the cache -/

/-- The server holds what the cache has. -/
structure ServerState.Represents (s : ServerState) (c : Cache) : Prop where
  values : s.redis.xdb.Has c.values
  sys : s.sysdb.Has c.sys
  recorded : Recorded s.redis.xdb c.deadlines
  scheduled : Scheduled c.deadlines c.given s.redis.expiremgr

/-- An event that the server can get: a command as the parser hands it out, or a request whose key
has a row that can be listed. -/
def Event.Proper : Event → Prop
  | .redis _ argv => argv ≠ [] ∧ XHttpCache.Deliverable argv
  | .http _ req => XDataBase.RowFits (uriKey req)
  | .expireLoop _ => True

/-- A new server is an empty cache. -/
theorem represents_fresh : freshServer.Represents {} where
  values := .of_empty rfl
  sys := .of_empty rfl
  recorded := .of_db rfl (.empty _) fun _ _ h => by cases h
  scheduled := .fresh

namespace ServerState.Represents

variable {s : ServerState} {c : Cache} {now : Int} {key val secs : Bytes}

/-! ### Redis commands -/

/-- A command answers as the cache does, and leaves the server as the cache. -/
def Answers (s : ServerState) (out : List Reply × XRedisServer) (ans : Reply × Cache) : Prop :=
  out.1 = [ans.1] ∧ Represents { s with redis := out.2 } ans.2

theorem refused (h : s.Represents c) (r : Reply) :
    Answers s ([r], s.redis) (c.answer now (.refused r)) :=
  ⟨rfl, h⟩

/-- A value is stored. -/
theorem store (h : s.Represents c) (now : Int) (val : Bytes) (hkey : XDataBase.RowFits key) :
    Represents { s with redis.xdb := (s.redis.xdb.set now key val).2 } (c.store now key val) where
  values := (h.values.set now val hkey).2
  sys := h.sys
  recorded := h.recorded.set now key val
  scheduled := h.scheduled

/-- A value is deleted. -/
theorem remove (h : s.Represents c) (key : Bytes) :
    Represents { s with redis.xdb := (s.redis.xdb.del key).2 } (c.remove key) where
  values := (h.values.del key).2
  sys := h.sys
  recorded := h.recorded.del key
  scheduled := h.scheduled

/-- A value is read. -/
theorem read (h : s.Represents c) (key : Bytes) :
    Represents { s with redis.xdb := (s.redis.xdb.get key).2.2 } c where
  values := h.values.get key
  sys := h.sys
  recorded := h.recorded.get key
  scheduled := h.scheduled

/-- A deadline is recorded. -/
theorem arm (h : s.Represents c) (hne : key ≠ []) {d : Int} (hd : IsI64 d)
    (hlen : (scoreRow expireKey d key).length < 2 ^ 31) (hix : c.deadlines key ≠ some d) :
    (s.redis.xdb.zset expireKey key (ttlData d)).1 = .ok ∧
      Represents { s with redis := ⟨(s.redis.xdb.zset expireKey key (ttlData d)).2,
        s.redis.expiremgr.setTTL key d⟩ } (c.arm key d) := by
  rw [show ttlData d = decimal d from snprintf_decimal hd (by omega)]
  obtain ⟨hok, hrec⟩ := h.recorded.zset_ok hne hix hd hlen
  exact ⟨hok, h.values.zset _ _ _ hrec.healthy, h.sys, hrec, h.scheduled.arm key d⟩

theorem answers_get (h : s.Represents c) (now : Int) (cmd key : Bytes) :
    Answers s (s.redis.processCmdGet [cmd, key]) (c.answer now (.get key)) := by
  have hread := h.read key
  rw [XRedisServer.processCmdGet, Cache.answer]
  rcases hg : s.redis.xdb.get key with ⟨ret, val, xdb⟩
  rw [hg] at hread
  cases hv : c.values.get key with
  | none =>
      obtain rfl : ret = .null := by simpa only [hg] using h.values.get_none hv
      exact ⟨rfl, hread⟩
  | some v =>
      obtain ⟨hret, hval⟩ := h.values.get_some hv
      rw [hg] at hret hval
      obtain rfl : ret = .ok := hret
      obtain rfl : val = v := hval
      exact ⟨rfl, hread⟩

theorem answers_set (h : s.Represents c) (cmd : Bytes) (hkey : XDataBase.RowFits key) :
    Answers s (s.redis.processCmdSet now [cmd, key, val]) (c.answer now (.set key val)) :=
  ⟨rfl, h.store now val hkey⟩

theorem answers_setEx (h : s.Represents c) (hkey : XDataBase.RowFits key) (hne : key ≠ [])
    (hlen : ∀ d, (scoreRow expireKey d key).length < 2 ^ 31) :
    Answers s (s.redis.processCmdSetEx now key val secs) (c.answer now (.setEx key val secs)) := by
  have hstore := h.store now val hkey
  have hd := expiredAt_isI64 now (cstr secs)
  simp only [XRedisServer.processCmdSetEx, Cache.answer]
  by_cases hix : c.deadlines key = some (expiredAt now (cstr secs))
  · rw [if_pos hix, ttlData_expiredAt, hstore.recorded.zset_err (Or.inr hix)]
    exact ⟨rfl, hstore.values, hstore.sys, hstore.recorded, hstore.scheduled.again hix⟩
  · obtain ⟨hok, harm⟩ := hstore.arm hne hd (hlen _) hix
    rw [if_neg hix]
    rcases hz : (s.redis.xdb.set now key val).2.zset expireKey key
      (ttlData (expiredAt now (cstr secs))) with ⟨ret, xdb⟩
    rw [hz] at hok harm
    obtain rfl : ret = .ok := hok
    exact ⟨rfl, harm.values, harm.sys, harm.recorded,
      harm.scheduled.again (Function.update_self ..)⟩

theorem answers_del (h : s.Represents c) (cmd : Bytes) :
    Answers s (s.redis.processCmdDel [cmd, key]) (c.answer now (.del key)) := by
  obtain ⟨hok, -⟩ := h.values.del key
  have hremove := h.remove key
  rcases hd : s.redis.xdb.del key with ⟨ret, xdb⟩
  rw [hd] at hok hremove
  obtain rfl : ret = .ok := hok
  simp only [XRedisServer.processCmdDel, List.length_cons, List.length_nil, List.tail_cons,
    List.foldl_cons, List.foldl_nil, hd]
  exact ⟨rfl, hremove⟩

theorem answers_expire (h : s.Represents c) (cmd : Bytes) (hne : key ≠ [])
    (hlen : ∀ d, (scoreRow expireKey d key).length < 2 ^ 31) :
    Answers s (s.redis.processCmdExpire now [cmd, key, secs]) (c.answer now (.expire key secs)) := by
  have hread := h.read key
  have hpos : ¬ (decimal (expiredAt now secs)).length ≤ 0 :=
    not_le.mpr (List.length_pos_of_ne_nil (decimal_ne_nil _))
  simp only [XRedisServer.processCmdExpire, Cache.answer, if_neg hpos]
  rcases hg : s.redis.xdb.get key with ⟨ret, v, xdb⟩
  rw [hg] at hread
  cases hv : c.values.get key with
  | none =>
      obtain rfl : ret = .null := by simpa only [hg] using h.values.get_none hv
      rw [if_pos (Or.inl rfl)]
      exact ⟨rfl, hread⟩
  | some v' =>
      obtain rfl : ret = .ok := by simpa only [hg] using (h.values.get_some hv).1
      by_cases hix : c.deadlines key = some (expiredAt now secs)
      · rw [if_pos (Or.inr hix), ttlData_expiredAt]
        simp only [hread.recorded.zset_err (Or.inr hix)]
        exact ⟨rfl, hread⟩
      · obtain ⟨hok, harm⟩ := hread.arm hne (expiredAt_isI64 now secs) (hlen _) hix
        rw [if_neg (not_or.mpr ⟨Option.some_ne_none v', hix⟩)]
        simp only at hok harm ⊢
        rcases hz : xdb.zset expireKey key (ttlData (expiredAt now secs)) with ⟨ret, xdb'⟩
        rw [hz] at hok harm
        obtain rfl : ret = .ok := hok
        exact ⟨rfl, harm⟩

theorem answers_ttl (h : s.Represents c) (cmd : Bytes) :
    Answers s (s.redis.processCmdTtl now [cmd, key]) (c.answer now (.ttl key)) := by
  simp only [XRedisServer.processCmdTtl, Cache.answer, h.recorded.zget]
  cases hd : c.deadlines key with
  | none => exact ⟨rfl, h⟩
  | some d =>
      refine ⟨?_, h⟩
      simp only [strToInt64_decimal (h.recorded.index.score key d hd), Option.elim_some]

/-- Keys are deleted one after another. -/
theorem foldl_remove (h : s.Represents c) (keys : List Bytes) :
    Represents { s with redis.xdb := keys.foldl (fun xdb key => (xdb.del key).2) s.redis.xdb }
      (keys.foldl Cache.remove c) := by
  induction keys generalizing s c with
  | nil => exact h
  | cons key keys ih => exact ih (h.remove key)

theorem answers_scan (h : s.Represents c) (argv : List Bytes) :
    Answers s (s.redis.processCmdScan argv) (c.answer now (.ofScan argv)) := by
  rw [XRedisServer.processCmdScan, Request.ofScan]
  rcases XRedisServer.scanArgs argv with _ | ⟨start, stop, limit, delResult⟩
  · exact h.refused _
  · simp only [h.values.scanKey, RetCode.toInt, lt_irrefl, if_false]
    cases delResult with
    | true => exact ⟨rfl, h.foldl_remove _⟩
    | false => exact ⟨rfl, h⟩

theorem answers_flushall (h : s.Represents c) :
    Answers s s.redis.processCmdFlushall (c.answer now .flushall) := by
  obtain ⟨hok, hvalues⟩ := h.values.flushall
  have hrec := h.recorded.flushall
  rw [XRedisServer.processCmdFlushall]
  rcases hf : s.redis.xdb.flushall with ⟨ret, xdb⟩
  rw [hf] at hok hvalues hrec
  obtain rfl : ret = .ok := hok
  exact ⟨rfl, hvalues, h.sys, hrec, h.scheduled.flushed⟩

/-- The key of a command has a row that can be listed, and its deadlines rows that can be read. -/
theorem fits_of_deliverable {cmd arg : Bytes} {args : List Bytes}
    (hd : Deliverable (cmd :: key :: arg :: args)) :
    XDataBase.RowFits key ∧ key ≠ [] ∧ ∀ d, (scoreRow expireKey d key).length < 2 ^ 31 := by
  have hne : ∀ a ∈ cmd :: key :: arg :: args, 0 < a.length := fun a ha =>
    List.length_pos_of_ne_nil fun he => hd.1 (he ▸ ha)
  have hcmd := hne cmd (by simp)
  have harg := hne arg (by simp)
  have hlen := hd.2
  have hexp : expireKey.length = 6 := rfl
  simp only [List.map_cons, List.sum_cons, List.length_cons] at hlen
  refine ⟨?_, List.ne_nil_of_length_pos (hne key (by simp)), fun d => ?_⟩
  · rw [XDataBase.RowFits, encodeKey, List.length_cons]
    omega
  · rw [length_scoreRow]
    omega

/-- **A Redis command** answers as the cache does. -/
theorem answers_doCmd (h : s.Represents c) (now : Int) {argv : List Bytes} (hne : argv ≠ [])
    (hd : Deliverable argv) :
    Answers s (s.redis.doCmd now argv) (c.answer now (.ofArgv argv)) := by
  rcases argv with _ | ⟨cmd, args⟩
  · exact absurd rfl hne
  rw [XRedisServer.doCmd, Request.ofArgv]
  cases XRedisServer.getCmdProcessFun cmd with
  | none => exact h.refused _
  | some cb =>
      cases cb with
      | set =>
          rcases args with _ | ⟨key, _ | ⟨val, _ | ⟨ex, _ | ⟨secs, _ | ⟨a, args⟩⟩⟩⟩⟩
          · exact h.refused _
          · exact h.refused _
          · exact h.answers_set cmd (fits_of_deliverable hd).1
          · exact h.refused _
          · obtain ⟨hfits, hnil, hlen⟩ := fits_of_deliverable hd
            simp only [XRedisServer.call, XRedisServer.processCmdSet, Request.ofCall, Request.ofSet]
            split_ifs
            · exact h.answers_setEx hfits hnil hlen
            · exact h.refused _
          · exact h.refused _
      | get =>
          rcases args with _ | ⟨key, _ | ⟨a, args⟩⟩
          · exact h.refused _
          · exact h.answers_get now cmd key
          · exact h.refused _
      | del =>
          rcases args with _ | ⟨key, _ | ⟨a, args⟩⟩
          · exact h.refused _
          · exact h.answers_del cmd
          · exact h.refused _
      | expire =>
          rcases args with _ | ⟨key, _ | ⟨secs, _ | ⟨a, args⟩⟩⟩
          · exact h.refused _
          · exact h.refused _
          · obtain ⟨-, hnil, hlen⟩ := fits_of_deliverable hd
            exact h.answers_expire cmd hnil hlen
          · exact h.refused _
      | ttl =>
          rcases args with _ | ⟨key, _ | ⟨a, args⟩⟩
          · exact h.refused _
          · exact h.answers_ttl cmd
          · exact h.refused _
      | scan => exact h.answers_scan (cmd :: args)
      | flushall => exact h.answers_flushall

/-! ### Requests to the backend -/

/-- The backend answers as the cache does, and leaves the server as the cache. -/
def Responds (s : ServerState) (out : Handled XevHtpdBackend) (ans : Response × Cache) : Prop :=
  out.response = ans.1 ∧
    Represents ⟨{ s.redis with xdb := out.state.xdb }, out.state.sysdb⟩ ans.2

variable {env : Env} {cfg : XConfig} {req : EvhtpRequest}

/-- A database and a map answer a request alike. -/
theorem restfulPro_eq (env : Env) (cfg : XConfig) (now : Int) {x : XDataBase}
    {m : OrderedMap Bytes XValue} (h : x.Has m) (hkey : XDataBase.RowFits (uriKey req))
    (hs : List (Bytes × Bytes)) (sys : Bool) :
    (restfulPro env cfg now req hs sys x).response = (Cache.restful now env cfg req hs m).1 ∧
      (restfulPro env cfg now req hs sys x).state.Has (Cache.restful now env cfg req hs m).2 := by
  obtain ⟨hok, hset⟩ := h.set now (postValue env cfg req) hkey
  rcases hput : x.set now (uriKey req) (postValue env cfg req) with ⟨ret, xput⟩
  rw [hput] at hok hset
  obtain rfl : ret = .ok := hok
  rw [restfulPro, Cache.restful]
  cases req.method with
  | get =>
      have hread := h.get (uriKey req)
      rcases hg : x.get (uriKey req) with ⟨ret, v, x'⟩
      rw [hg] at hread
      cases hv : m.get (uriKey req) with
      | none =>
          obtain rfl : ret = .null := by simpa only [hg] using h.get_none hv
          exact ⟨rfl, hread⟩
      | some v' =>
          obtain ⟨hret, hval⟩ := h.get_some hv
          rw [hg] at hret hval
          obtain rfl : ret = .ok := hret
          obtain rfl : v = v' := hval
          exact ⟨rfl, hread⟩
  | post =>
      simp only [hput]
      exact ⟨rfl, hset⟩
  | put =>
      simp only [hput]
      exact ⟨rfl, hset⟩
  | delete =>
      obtain ⟨hok, hdel⟩ := h.del (uriKey req)
      rcases hd : x.del (uriKey req) with ⟨ret, x'⟩
      rw [hd] at hok hdel
      obtain rfl : ret = .ok := hok
      exact ⟨rfl, hdel⟩
  | other => exact ⟨rfl, h⟩

/-- A request on the database that `sys` selects. -/
theorem responds_onDb (h : s.Represents c) (sys : Bool) {f : XDataBase → Handled XDataBase}
    {g : OrderedMap Bytes XValue → Response × OrderedMap Bytes XValue}
    (hf : ∀ x m, x.Has m → (f x).response = (g m).1 ∧ (f x).state.Has (g m).2)
    (hrec : ∀ x, Recorded x c.deadlines → Recorded (f x).state c.deadlines) :
    Responds s (onDb ⟨s.redis.xdb, s.sysdb⟩ sys f) (c.onMap sys g) := by
  cases sys with
  | true =>
      obtain ⟨hresponse, hstate⟩ := hf _ _ h.sys
      exact ⟨hresponse, h.values, hstate, h.recorded, h.scheduled⟩
  | false =>
      obtain ⟨hresponse, hstate⟩ := hf _ _ h.values
      exact ⟨hresponse, hstate, h.sys, hrec _ h.recorded, h.scheduled⟩

/-- **A request to the backend** is answered as by the cache. -/
theorem responds_handle (h : s.Represents c) (env : Env) (cfg : XConfig) (now : Int)
    (hkey : XDataBase.RowFits (uriKey req)) :
    Responds s (handle env cfg now req ⟨s.redis.xdb, s.sysdb⟩)
      (c.serve now env cfg req (env.statusStr s.redis.xdb)) := by
  have hrest := fun hs sys => h.responds_onDb sys
    (fun x m hx => restfulPro_eq env cfg now hx hkey hs sys)
    fun x hx => recorded_restfulPro hx hs sys
  rw [handle, Cache.serve]
  cases hauth : checkAuth env cfg req with
  | false =>
      cases env.route req.full with
      | keyScan => rw [keyScanCallback, hauth]; exact ⟨rfl, h⟩
      | statistics => rw [statisticsCallback, hauth]; exact ⟨rfl, h⟩
      | config => rw [configCallback, hauth]; exact ⟨rfl, h⟩
      | adminShell => rw [adminShellCallback, hauth]; exact ⟨rfl, h⟩
      | rest => rw [restCallback, hauth]; exact ⟨rfl, h⟩
  | true =>
      cases env.route req.full with
      | keyScan =>
          rw [keyScanCallback, hauth]
          simp only [Bool.not_true, Bool.false_eq_true, if_false, if_true]
          refine h.responds_onDb _ (fun x m hx => ?_) fun x hx => ?_
          · simp only [hx.scanKey]
            exact ⟨rfl, hx⟩
          · simp only [XDataBase.scanKey_spec hx.healthy]
            exact hx
      | statistics => rw [statisticsCallback, hauth]; exact ⟨rfl, h⟩
      | config => rw [configCallback, hauth]; exact ⟨rfl, h⟩
      | adminShell => rw [adminShellCallback, hauth]; exact hrest _ true
      | rest =>
          rw [restCallback, hauth]
          simp only [Bool.not_true, Bool.false_eq_true, if_false, if_true, Cache.serveRoute]
          split_ifs
          · exact ⟨rfl, h⟩
          · exact hrest _ _

/-! ### The expiry loop -/

/-- **An iteration of the expiry loop** leaves all as it is, or takes a key whose time has come. -/
theorem expireLoop (h : s.Represents c) (now : Int) :
    ∃ c', Cache.Step env cfg c (.expireLoop now) .silent c' ∧
      (step env cfg s (.expireLoop now)).2.Represents c' := by
  obtain ⟨w, hfaced, hdone⟩ := h.recorded.iterated s.redis.expiremgr now
  have hw := h.scheduled.faced hfaced
  rw [step]
  generalize s.redis.expiremgr.expireLoop s.redis.xdb now = out at hdone
  cases hdone with
  | idle _ => exact ⟨c, .waits now, h.values, h.sys, h.recorded, hw _⟩
  | early _ _ => exact ⟨c, .waits now, h.values, h.sys, h.recorded, hw _⟩
  | due hf hv =>
      rename_i v key
      have hscore := SortedSet.score?_of_front hf
      have hdue : c.Due now key := by
        refine ⟨v, hv, (hw 0).window key v hscore, ?_⟩
        cases hd : c.deadlines key with
        | none => exact Or.inl rfl
        | some d => rw [(hw 0).agrees key v d hscore hd]; exact Or.inr rfl
      have hrec := (h.recorded.del key).zdel key
      exact ⟨c.expire key, .expires now key hdue,
        (h.values.del key).2.zdel _ _ hrec.healthy, h.sys, hrec, (hw 0).popFront key v⟩

/-- **Each event** does what the cache allows. -/
theorem step_cache (h : s.Represents c) {ev : Event} (hev : ev.Proper) :
    ∃ c', Cache.Step env cfg c ev (step env cfg s ev).1 c' ∧
      (step env cfg s ev).2.Represents c' := by
  cases ev with
  | redis now argv =>
      obtain ⟨hreplies, hstate⟩ := h.answers_doCmd now hev.1 hev.2
      refine ⟨_, ?_, hstate⟩
      rw [show (step env cfg s (.redis now argv)).1 = .replies [(c.answer now (.ofArgv argv)).1] from
        congrArg Output.replies hreplies]
      exact .redis now argv
  | http now req =>
      obtain ⟨hresponse, hstate⟩ := h.responds_handle env cfg now hev
      refine ⟨_, ?_, hstate⟩
      rw [show (step env cfg s (.http now req)).1 =
        .response (c.serve now env cfg req (env.statusStr s.redis.xdb)).1 from
        congrArg Output.response hresponse]
      exact .http now req _
  | expireLoop now => exact h.expireLoop now

/-- A run does what the cache allows. -/
theorem run_cache (h : s.Represents c) (env : Env) (cfg : XConfig) {es : List Event}
    (hes : ∀ ev ∈ es, ev.Proper) :
    ∃ c', Traces (Cache.Step env cfg) c es (run (step env cfg) s es).1 c' ∧
      (run (step env cfg) s es).2.Represents c' :=
  exists_traces (fun _ _ _ hev h => h.step_cache hev) hes h

end ServerState.Represents

/-- **A run of the server is a run of the cache**: whatever commands, requests and iterations of the
expiry loop come, each is answered as the cache may answer it, and the databases hold what the cache
has. -/
theorem server_refines_cache (env : Env) (cfg : XConfig) {es : List Event}
    (hes : ∀ ev ∈ es, ev.Proper) :
    ∃ c, Traces (Cache.Step env cfg) {} es (run (step env cfg) freshServer es).1 c ∧
      (run (step env cfg) freshServer es).2.Represents c :=
  represents_fresh.run_cache env cfg hes

/-- `k` is stored for five seconds, read, taken by the expiry loop, and not found. -/
theorem server_refines_cache_run :
    let es : List Event := [.redis 0 [ascii "SET", ascii "k", ascii "v", ascii "EX", ascii "5"],
      .redis 1000 [ascii "GET", ascii "k"], .expireLoop 6000, .redis 7000 [ascii "GET", ascii "k"]]
    ∃ c', Traces (Cache.Step plainEnv {}) {} es
      [.replies [.status (ascii "OK")], .replies [.bulk (ascii "v")], .silent, .replies [.null]]
      c' := by
  intro es
  have hes : ∀ ev ∈ es, ev.Proper := by
    refine List.forall_mem_cons.mpr ⟨⟨by decide, by decide, by decide⟩, ?_⟩
    refine List.forall_mem_cons.mpr ⟨⟨by decide, by decide, by decide⟩, ?_⟩
    refine List.forall_mem_cons.mpr ⟨trivial, List.forall_mem_singleton.mpr ?_⟩
    exact ⟨by decide, by decide, by decide⟩
  obtain ⟨c', htrace, -⟩ := server_refines_cache plainEnv {} hes
  exact ⟨c', htrace⟩

/-! ### A value that is left alone -/

/-- Every reader gets `v` for `k`: a `GET` on a Redis connection, and a `GET` of the backend. -/
def ReadBack (env : Env) (cfg : XConfig) (s : ServerState) (k v : Bytes) : Prop :=
  (∀ now cmd, XRedisServer.getCmdProcessFun cmd = some .get →
    (s.redis.doCmd now [cmd, k]).1 = [.bulk v]) ∧
  ∀ now req, checkAuth env cfg req = true → env.route req.full = .rest → req.method = .get →
    uriKey req = k → wantsSysdb req = false →
      let r := (handle env cfg now req ⟨s.redis.xdb, s.sysdb⟩).response
      r.status = EVHTP_RES_OK ∧ r.bufferOut = v

/-- What the cache has is read. -/
theorem ServerState.Represents.readBack {s : ServerState} {c : Cache} (h : s.Represents c)
    (env : Env) (cfg : XConfig) {k : Bytes} (hk : k ≠ []) {v : XValue}
    (hv : c.values.get k = some v) : ReadBack env cfg s k v.strValue := by
  refine ⟨fun now cmd hcmd => ?_, fun now req hauth hroute hmethod hkey hsys => ?_⟩
  · rw [XRedisServer.doCmd, hcmd]
    refine (h.answers_get now cmd k).1.trans ?_
    rw [Cache.answer, hv]
    rfl
  · have hfits : XDataBase.RowFits (uriKey req) := by
      rw [hkey]
      exact h.values.fits k (by rw [hv]; exact Option.some_ne_none v)
    have hserve : (c.serve now env cfg req (env.statusStr s.redis.xdb)).1 =
        sendHttpResphone [(ascii "Content-Type", guessContentType (uriKey req))] v.strValue := by
      rw [Cache.serve, if_pos hauth, hroute, Cache.serveRoute]
      simp only [hkey, if_neg hk, hsys, Cache.onMap, Cache.restful, hmethod, hv]
      rfl
    rw [(h.responds_handle env cfg now hfits).1, hserve]
    exact ⟨rfl, rfl⟩

/-- A run of the server in which `k` is never given a deadline, and then left alone. -/
theorem ServerState.Represents.left_alone {s : ServerState} {c : Cache} (h : s.Represents c)
    (env : Env) (cfg : XConfig) {k : Bytes} (hk : c.Unarmed k) {es : List Event}
    (hes : ∀ ev ∈ es, ev.Proper) :
    ((∀ ev ∈ es, ¬ ev.Arms k) →
      ∃ c', (run (step env cfg) s es).2.Represents c' ∧ c'.Unarmed k) ∧
    ((∀ ev ∈ es, ev.Spares k) →
      ∃ c', (run (step env cfg) s es).2.Represents c' ∧ c'.values.get k = c.values.get k) := by
  obtain ⟨c', htrace, hrep⟩ := h.run_cache env cfg hes
  refine ⟨fun hnot => ⟨c', hrep, ?_⟩, fun hspares => ⟨c', hrep, ?_⟩⟩
  · exact htrace.inv (fun _ _ _ _ hev hs h => h.step hev hs) hnot hk
  · refine (htrace.inv (I := fun c' => c'.Unarmed k ∧ c'.values.get k = c.values.get k)
      (fun _ _ _ _ hev hs h => ?_) hspares ⟨hk, rfl⟩).2
    exact ⟨h.1.step hev.not_arms hs, (h.1.get_step hev hs).trans h.2⟩

/-- **A value is read back until it is written or deleted.**  From the start of the server let `k`
never be given a deadline; then `SET k v`, and any commands, requests and iterations of the expiry
loop that neither write nor delete `k`, nor give it a deadline.  Whoever reads `k` gets `v`. -/
theorem value_read_back (env : Env) (cfg : XConfig) {k v cmd : Bytes} (now : Int)
    {before after : List Event} (hbefore : ∀ ev ∈ before, ev.Proper ∧ ¬ ev.Arms k)
    (hcmd : XRedisServer.getCmdProcessFun cmd = some .set) (hset : Deliverable [cmd, k, v])
    (hafter : ∀ ev ∈ after, ev.Proper ∧ ev.Spares k) :
    ReadBack env cfg
      (run (step env cfg) freshServer (before ++ .redis now [cmd, k, v] :: after)).2 k v := by
  have hk : k ≠ [] := fun he => hset.1 (by simp [he])
  obtain ⟨c, hrep, hunarmed⟩ := (represents_fresh.left_alone env cfg (Cache.unarmed_empty k)
    fun ev hev => (hbefore ev hev).1).1 fun ev hev => (hbefore ev hev).2
  have hanswer : c.answer now (.ofArgv [cmd, k, v]) = c.answer now (.set k v) := by
    rw [Request.ofArgv, hcmd]
    rfl
  have hrep' := (hrep.answers_doCmd now (List.cons_ne_nil _ _) hset).2
  rw [hanswer] at hrep'
  have hunarmed' : (c.answer now (.set k v)).2.Unarmed k := hunarmed.answer id
  obtain ⟨c', hrep'', hvalue⟩ := (hrep'.left_alone env cfg hunarmed'
    fun ev hev => (hafter ev hev).1).2 fun ev hev => (hafter ev hev).2
  rw [run_append, run_cons]
  exact hrep''.readBack env cfg hk (hvalue.trans (OrderedMap.get_insert_self ..))

/-- `SET k v`, and then a `SET .. EX` of another key, which expires. -/
theorem value_read_back_run :
    ReadBack plainEnv {} (run (step plainEnv {}) freshServer
      [.redis 0 [ascii "SET", ascii "k", ascii "v"],
        .redis 1 [ascii "SET", ascii "a", ascii "b", ascii "EX", ascii "1"], .expireLoop 5000]).2
      (ascii "k") (ascii "v") := by
  have hafter : ∀ ev ∈ [Event.redis 1 [ascii "SET", ascii "a", ascii "b", ascii "EX", ascii "1"],
      .expireLoop 5000], ev.Proper ∧ ev.Spares (ascii "k") := by
    refine List.forall_mem_cons.mpr ⟨⟨⟨by decide, by decide, by decide⟩, ?_⟩,
      List.forall_mem_singleton.mpr ⟨trivial, trivial⟩⟩
    exact show ascii "a" ≠ ascii "k" by decide
  exact value_read_back plainEnv {} 0 (List.forall_mem_nil _) (by decide) ⟨by decide, by decide⟩
    hafter

end XHttpCache
