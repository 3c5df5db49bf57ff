import XHttpCache.Http.Frontend
import XHttpCache.Server.Events
import XHttpCache.Store.Faults

/-!
# Server — what an answer says when RocksDB fails

`ret_code` has no negative value and `db_err` is not `db_null`.  `SET` does not look at what `Set`
returns, `SCAN` looks for a negative code and `SCAN .. DEL` at nothing that `Del` returns, and an
HTTP `GET` tells only `db_null` from success.  So a call that fails is acknowledged like one that
succeeds.

`Truthful` says what an answer is to mean, and `Secure` which calls must not fail for it: here the
calls of a command are numbered from 0 on.

* `valueOf_zset_any`, `valueRow_foldl_del_any`: what is stored, whichever calls fail.
* `frontend_ok_iff`: what a `200` of the frontend comes from.
* `truthful_iff`: an answer is truthful exactly if it is secure.
-/

namespace XHttpCache
open Support

/-! ### What is stored, whichever calls fail -/

section Store

variable {x : XDataBase} {k key : Bytes}

/-- The rows of a sorted set are not those of values. -/
theorem get_string_zsetOutcome (x : XDataBase) (key member score k : Bytes) :
    (x.zsetOutcome key member score).2.get (encodeKey (.string k)) =
      x.rows.get (encodeKey (.string k)) := by
  have hold : ∀ old, (x.withoutOld key member old).get (encodeKey (.string k)) =
      x.rows.get (encodeKey (.string k)) := fun old => by
    rw [XDataBase.withoutOld]
    split_ifs
    · rfl
    · exact OrderedMap.get_erase_ne _ (by simp)
  have hscored : ∀ rows : OrderedMap Bytes Bytes,
      (rows.insert (encodeKey (.zscore key member score)) []).get (encodeKey (.string k)) =
        rows.get (encodeKey (.string k)) := fun rows => OrderedMap.get_insert_ne _ _ (by simp)
  have hboth : ∀ rows : OrderedMap Bytes Bytes,
      ((rows.insert (encodeKey (.zscore key member score)) []).insert
        (encodeKey (.zset key member)) score).get (encodeKey (.string k)) =
          rows.get (encodeKey (.string k)) := fun rows => by
    rw [OrderedMap.get_insert_ne _ _ (by simp), hscored]
  rw [XDataBase.zsetOutcome]
  cases x.handed key member with
  | none =>
      simp only
      split_ifs
      · rfl
      · exact hscored _
      · exact hboth _
  | some old =>
      simp only
      split_ifs
      · rfl
      · exact hold old
      · rw [hscored, hold]
      · rw [hboth, hold]

/-- `Zset` changes no value, whichever calls fail. -/
theorem valueOf_zset_any (x : XDataBase) (key member score k : Bytes) :
    (x.zset key member score).2.valueOf k = x.valueOf k := by
  by_cases hne : key = [] ∨ member = []
  · rw [XDataBase.zset_of_empty x hne]
  · obtain ⟨hk, hm⟩ := not_or.mp hne
    rw [XDataBase.valueOf, XDataBase.valueRow, (x.zset_outcome hk hm score).2,
      get_string_zsetOutcome]
    rfl

/-- A key is gone after a list of `Del` calls if it was not there, or one of its calls succeeds. -/
theorem valueRow_foldl_del_any (keys : List Bytes) (x : XDataBase) (k : Bytes) :
    (keys.foldl (fun xdb key => (xdb.del key).2) x).valueRow k = none ↔
      x.valueRow k = none ∨ ∃ i, keys[i]? = some k ∧ x.fault i = false := by
  induction keys generalizing x with
  | nil => simp
  | cons key keys ih =>
      have hdb := (x.del_eq key).2
      have hfault : ∀ i, (x.del key).2.fault i = x.fault (i + 1) := fun i => by
        rw [XDataBase.fault, hdb, fails_tail]
      have hrow : (x.del key).2.valueRow k = none ↔
          x.valueRow k = none ∨ (key = k ∧ x.fault 0 = false) := by
        rw [XDataBase.valueRow, XDataBase.rows, hdb]
        by_cases hf : x.fault 0 = true
        · simp only [hf]
          exact (or_iff_left fun h => Bool.noConfusion h.2).symm
        · rw [Bool.not_eq_true] at hf
          simp only [hf, Bool.false_eq_true, if_false, and_true, OrderedMap.get_erase,
            encodeKey_string_inj]
          by_cases hk : k = key
          · simp [hk]
          · rw [if_neg hk]
            exact (or_iff_left (Ne.symm hk)).symm
      rw [List.foldl_cons, ih, hrow]
      constructor
      · rintro ((h | ⟨rfl, h⟩) | ⟨i, hi, hf⟩)
        · exact Or.inl h
        · exact Or.inr ⟨0, rfl, h⟩
        · exact Or.inr ⟨i + 1, hi, hfault i ▸ hf⟩
      · rintro (h | ⟨i, hi, hf⟩)
        · exact Or.inl (Or.inl h)
        · cases i with
          | zero => exact Or.inl (Or.inr ⟨Option.some.inj hi, hf⟩)
          | succ i => exact Or.inr ⟨i, hi, (hfault i).trans hf⟩

/-- What `Get` hands out rests on the rows and on its call alone. -/
theorem get_congr {y : XDataBase} (h : y.db = x.db) (k : Bytes) :
    (y.get k).1 = (x.get k).1 ∧ (y.get k).2.1 = (x.get k).2.1 := by
  rw [XDataBase.get, XDataBase.get, h]
  generalize x.db.get (encodeKey (.string k)) [] = r
  obtain ⟨status, v, db⟩ := r
  cases status <;> exact ⟨rfl, rfl⟩

end Store

/-! ### Redis commands -/

/-- The key and the value of a `SET` or a `SET .. EX`. -/
def setArgs : List Bytes → Option (Bytes × Bytes)
  | [cmd, key, val] =>
      if XRedisServer.getCmdProcessFun cmd = some .set then some (key, val) else none
  | [cmd, key, val, ex, _] =>
      if XRedisServer.getCmdProcessFun cmd = some .set ∧ strcasecmpEq (ascii "ex") ex = true then
        some (key, val)
      else none
  | _ => none

/-- The arguments of a `SCAN`. -/
def scanOf (argv : List Bytes) : Option (Bytes × Bytes × Int × Bool) :=
  if argv.head?.bind XRedisServer.getCmdProcessFun = some .scan then XRedisServer.scanArgs argv
  else none

/-- The key holds the value. -/
def HoldsValue (x : XDataBase) (key val : Bytes) : Prop :=
  (x.valueOf key).map (·.strValue) = some val

/-- After a `Set` that failed, the deadline is not recorded: the key is empty, the score is the one
that is recorded, or a call fails that writes it. -/
def DeadlineRefused (x : XDataBase) (key score : Bytes) : Prop :=
  key = [] ∨
    match (if x.fault 1 = true then some [] else x.rows.get (encodeKey (.zset expireKey key))) with
    | none => x.fault 2 = true ∨ x.fault 3 = true
    | some old => old = score ∨ x.fault 3 = true ∨ x.fault 4 = true

/-- What a positive reply to a command is to mean. -/
structure TruthfulCmd (sv : XRedisServer) (now : Int) (argv : List Bytes) : Prop where
  set : ∀ key val, setArgs argv = some (key, val) →
    (sv.doCmd now argv).1 = [.status (ascii "OK")] → HoldsValue (sv.doCmd now argv).2.xdb key val
  scan : ∀ start stop limit del, scanOf argv = some (start, stop, limit, del) →
    ((∃ vResult, (sv.doCmd now argv).1 = [.multiBulk vResult]) ∨
        ∃ count, (sv.doCmd now argv).1 = [.int count]) →
      (sv.xdb.scanKey start stop limit).1 = .ok ∧
        (del = true → ∀ k ∈ (sv.xdb.scanKey start stop limit).2.1,
          (sv.doCmd now argv).2.xdb.valueRow k = none)

/-- The calls that must not fail. -/
structure SecureCmd (x : XDataBase) (now : Int) (argv : List Bytes) : Prop where
  set : ∀ key val, setArgs argv = some (key, val) →
    x.fault 0 = false ∨ HoldsValue x key val ∨
      ∃ cmd ex ttl, argv = [cmd, key, val, ex, ttl] ∧
        DeadlineRefused x key (ttlData (expiredAt now (cstr ttl)))
  scan : ∀ start stop limit del, scanOf argv = some (start, stop, limit, del) →
    x.fault 0 = false ∧
      (del = true → ∀ k ∈ (x.scanKey start stop limit).2.1, x.valueRow k = none ∨
        ∃ i, (x.scanKey start stop limit).2.1[i]? = some k ∧ x.fault (i + 1) = false)

section Redis

variable {sv : XRedisServer} {now : Int} {key val : Bytes}

/-- After `Set`, the key holds the value if it was stored or was there. -/
theorem holdsValue_set (x : XDataBase) (now : Int) (key val : Bytes) :
    HoldsValue (x.set now key val).2 key val ↔ x.fault 0 = false ∨ HoldsValue x key val := by
  rw [HoldsValue, XDataBase.valueOf_set_any, HoldsValue]
  cases x.fault 0 with
  | true => simp
  | false => simp

/-- After a `Set` that failed, `Zset` succeeds unless the deadline is refused. -/
theorem zset_expire_ok {x y : XDataBase} (hdb : y.db = ⟨x.rows, x.db.faults.tail⟩)
    (key score : Bytes) : (y.zset expireKey key score).1 = .ok ↔ ¬ DeadlineRefused x key score := by
  have hfault : ∀ i, y.fault i = x.fault (i + 1) := fun i => by
    rw [XDataBase.fault, hdb, fails_tail]
  have hrows : y.rows = x.rows := by rw [XDataBase.rows, hdb]
  rw [DeadlineRefused]
  by_cases hkey : key = []
  · rw [XDataBase.zset_of_empty y (Or.inr hkey)]
    exact iff_of_false RetCode.noConfusion (not_not_intro (Or.inl hkey))
  · rw [(y.zset_outcome (by decide) hkey score).1, XDataBase.zsetOutcome, XDataBase.handed, hfault,
      hrows, hfault, hfault, hfault, or_iff_right hkey]
    cases (if x.fault (0 + 1) = true then some [] else x.rows.get (encodeKey (.zset expireKey key)))
      with
    | none =>
        simp only
        cases x.fault (1 + 1) <;> cases x.fault (2 + 1) <;> simp
    | some old =>
        simp only
        by_cases hold : old = score
        · simp [hold]
        · cases x.fault (2 + 1) <;> cases x.fault (3 + 1) <;> simp [hold]

theorem truthful_set {cmd : Bytes} (hcmd : XRedisServer.getCmdProcessFun cmd = some .set) :
    HoldsValue (sv.doCmd now [cmd, key, val]).2.xdb key val ↔
      sv.xdb.fault 0 = false ∨ HoldsValue sv.xdb key val := by
  rw [XRedisServer.doCmd, hcmd]
  exact holdsValue_set sv.xdb now key val

theorem truthful_setEx (sv : XRedisServer) (now : Int) (key val ttl : Bytes) :
    ((sv.processCmdSetEx now key val ttl).1 = [.status (ascii "OK")] →
        HoldsValue (sv.processCmdSetEx now key val ttl).2.xdb key val) ↔
      sv.xdb.fault 0 = false ∨ HoldsValue sv.xdb key val ∨
        DeadlineRefused sv.xdb key (ttlData (expiredAt now (cstr ttl))) := by
  have hset := holdsValue_set sv.xdb now key val
  have hdb := (sv.xdb.set_eq now key val).2
  have hval := valueOf_zset_any (sv.xdb.set now key val).2 expireKey key
    (ttlData (expiredAt now (cstr ttl))) key
  have hreply : (sv.processCmdSetEx now key val ttl).1 = [.status (ascii "OK")] ↔
      ((sv.xdb.set now key val).2.zset expireKey key (ttlData (expiredAt now (cstr ttl)))).1 =
        .ok := by
    rw [XRedisServer.processCmdSetEx]
    generalize (sv.xdb.set now key val).2.zset expireKey key
      (ttlData (expiredAt now (cstr ttl))) = r
    obtain ⟨c, xdb⟩ := r
    cases c <;> simp
  have hstate : (sv.processCmdSetEx now key val ttl).2.xdb =
      ((sv.xdb.set now key val).2.zset expireKey key (ttlData (expiredAt now (cstr ttl)))).2 := by
    rw [XRedisServer.processCmdSetEx]
    generalize (sv.xdb.set now key val).2.zset expireKey key
      (ttlData (expiredAt now (cstr ttl))) = r
    obtain ⟨c, xdb⟩ := r
    cases c <;> rfl
  rw [hreply, hstate, HoldsValue, hval, ← HoldsValue, hset]
  cases hf : sv.xdb.fault 0 with
  | false => simp
  | true =>
      rw [hf, if_pos rfl] at hdb
      rw [zset_expire_ok hdb]
      simp only [Bool.true_eq_false, false_or]
      constructor
      · intro h
        by_cases hr : DeadlineRefused sv.xdb key (ttlData (expiredAt now (cstr ttl)))
        · exact Or.inr hr
        · exact Or.inl (h hr)
      · rintro (h | h) hr
        · exact h
        · exact absurd h hr

theorem setArgs_eq_some {argv : List Bytes} (h : setArgs argv = some (key, val)) :
    (∃ cmd, argv = [cmd, key, val] ∧ XRedisServer.getCmdProcessFun cmd = some .set) ∨
      ∃ cmd ex ttl, argv = [cmd, key, val, ex, ttl] ∧
        XRedisServer.getCmdProcessFun cmd = some .set ∧ strcasecmpEq (ascii "ex") ex = true := by
  unfold setArgs at h
  split at h
  · split_ifs at h with hcmd
    cases h
    exact Or.inl ⟨_, rfl, hcmd⟩
  · split_ifs at h with hcmd
    cases h
    exact Or.inr ⟨_, _, _, rfl, hcmd⟩
  · cases h

/-- `SET` and `SET .. EX`. -/
theorem truthful_set_iff {argv : List Bytes} (h : setArgs argv = some (key, val)) :
    ((sv.doCmd now argv).1 = [.status (ascii "OK")] →
        HoldsValue (sv.doCmd now argv).2.xdb key val) ↔
      sv.xdb.fault 0 = false ∨ HoldsValue sv.xdb key val ∨
        ∃ cmd ex ttl, argv = [cmd, key, val, ex, ttl] ∧
          DeadlineRefused sv.xdb key (ttlData (expiredAt now (cstr ttl))) := by
  rcases setArgs_eq_some h with ⟨cmd, rfl, hcmd⟩ | ⟨cmd, ex, ttl, rfl, hcmd, hex⟩
  · have hreply : (sv.doCmd now [cmd, key, val]).1 = [.status (ascii "OK")] := by
      rw [XRedisServer.doCmd, hcmd]
      rfl
    rw [truthful_set hcmd]
    refine ⟨fun h => (h hreply).imp_right Or.inl, ?_⟩
    rintro (h | h | ⟨_, _, _, heq, -⟩) -
    · exact Or.inl h
    · exact Or.inr h
    · cases heq
  · have hdo : sv.doCmd now [cmd, key, val, ex, ttl] = sv.processCmdSetEx now key val ttl := by
      simp only [XRedisServer.doCmd, hcmd, XRedisServer.call, XRedisServer.processCmdSet,
        if_pos hex]
    rw [hdo, truthful_setEx]
    refine or_congr_right (or_congr_right ⟨fun h => ⟨cmd, ex, ttl, rfl, h⟩, ?_⟩)
    rintro ⟨_, _, _, heq, h⟩
    cases heq
    exact h

theorem scanOf_eq_some {argv : List Bytes} {args : Bytes × Bytes × Int × Bool}
    (h : scanOf argv = some args) :
    XRedisServer.scanArgs argv = some args ∧ ∀ (sv : XRedisServer) (now : Int),
      sv.doCmd now argv = sv.processCmdScan argv := by
  rw [scanOf] at h
  split_ifs at h with hcmd
  refine ⟨h, fun sv now => ?_⟩
  rcases argv with _ | ⟨cmd, rest⟩
  · cases hcmd
  · rw [List.head?_cons, Option.bind_some] at hcmd
    rw [XRedisServer.doCmd, hcmd]
    rfl

theorem scanKey_ok_iff (x : XDataBase) (start stop : Bytes) (limit : Int) :
    (x.scanKey start stop limit).1 = .ok ↔ x.fault 0 = false := by
  rw [XDataBase.scanKey_eq]
  cases x.fault 0 <;> simp

/-- `SCAN` and `SCAN .. DEL`, which always answer so. -/
theorem truthful_scan_iff {argv : List Bytes} {start stop : Bytes} {limit : Int} {del : Bool}
    (h : scanOf argv = some (start, stop, limit, del)) :
    (((∃ vResult, (sv.doCmd now argv).1 = [.multiBulk vResult]) ∨
          ∃ count, (sv.doCmd now argv).1 = [.int count]) →
        (sv.xdb.scanKey start stop limit).1 = .ok ∧
          (del = true → ∀ k ∈ (sv.xdb.scanKey start stop limit).2.1,
            (sv.doCmd now argv).2.xdb.valueRow k = none)) ↔
      sv.xdb.fault 0 = false ∧
        (del = true → ∀ k ∈ (sv.xdb.scanKey start stop limit).2.1, sv.xdb.valueRow k = none ∨
          ∃ i, (sv.xdb.scanKey start stop limit).2.1[i]? = some k ∧
            sv.xdb.fault (i + 1) = false) := by
  obtain ⟨hargs, hdo⟩ := scanOf_eq_some h
  have hneg : ∀ ret : RetCode, ¬ ret.toInt < 0 := fun ret => by cases ret <;> decide
  rw [hdo, scanKey_ok_iff]
  simp only [XRedisServer.processCmdScan, hargs, if_neg (hneg _)]
  cases del with
  | false =>
      simp only [Bool.false_eq_true, if_false, false_imp_iff, and_true]
      exact ⟨fun h => h (Or.inl ⟨_, rfl⟩), fun h _ => h⟩
  | true =>
      simp only [if_true, true_imp_iff]
      have hx : (sv.xdb.scanKey start stop limit).2.2 =
          { sv.xdb with db := ⟨sv.xdb.rows, sv.xdb.db.faults.tail⟩ } := by
        rw [XDataBase.scanKey_eq]
      have hgone : ∀ k, ((sv.xdb.scanKey start stop limit).2.1.foldl
          (fun xdb key => (xdb.del key).2) (sv.xdb.scanKey start stop limit).2.2).valueRow k = none ↔
            sv.xdb.valueRow k = none ∨ ∃ i, (sv.xdb.scanKey start stop limit).2.1[i]? = some k ∧
              sv.xdb.fault (i + 1) = false := fun k => by
        rw [valueRow_foldl_del_any, hx]
        simp only [XDataBase.fault, fails_tail]
        rfl
      simp only [hgone]
      exact ⟨fun h => h (Or.inr ⟨_, rfl⟩), fun h _ => h⟩

/-- **A positive reply is truthful** exactly if the calls behind it succeed. -/
theorem truthfulCmd_iff (sv : XRedisServer) (now : Int) (argv : List Bytes) :
    TruthfulCmd sv now argv ↔ SecureCmd sv.xdb now argv := by
  constructor
  · intro h
    exact ⟨fun key val ha => (truthful_set_iff ha).mp (h.set key val ha),
      fun start stop limit del ha => (truthful_scan_iff ha).mp (h.scan start stop limit del ha)⟩
  · intro h
    exact ⟨fun key val ha => (truthful_set_iff ha).mpr (h.set key val ha),
      fun start stop limit del ha => (truthful_scan_iff ha).mpr (h.scan start stop limit del ha)⟩

end Redis

/-! ### HTTP requests -/

section Http

variable (env : FrontEnv) (cfg : XConfig)

/-- The database that a `GET` to the backend reads a key of: `sysdb`, if true. -/
def readsFrom (req : EvhtpRequest) : Option Bool :=
  if req.method = .get ∧ checkAuth env.toEnv cfg req = true then
    match env.route req.full with
    | .adminShell => some true
    | .rest => if uriKey req = [] then none else some (wantsSysdb req)
    | _ => none
  else none

/-- One of the two databases. -/
def ServerState.database (s : ServerState) (sys : Bool) : XDataBase :=
  if sys then s.sysdb else s.redis.xdb

/-- What a `200` of the backend is to mean. -/
def TruthfulBackend (s : ServerState) (now : Int) (req : EvhtpRequest) : Prop :=
  ∀ sys, readsFrom env cfg req = some sys →
    (handle env.toEnv cfg now req ⟨s.redis.xdb, s.sysdb⟩).response.status = EVHTP_RES_OK →
      ((s.database sys).get (uriKey req)).1 = .ok ∧
        (handle env.toEnv cfg now req ⟨s.redis.xdb, s.sysdb⟩).response.bufferOut =
          ((s.database sys).get (uriKey req)).2.1.strValue

/-- What a `200` of the frontend is to mean. -/
def TruthfulFrontend (x : XDataBase) (req : EvhtpRequest) : Prop :=
  ∀ r y, frontend env cfg req x = some (r, y) → r.status = EVHTP_RES_OK →
    (x.get (frontKey cfg req)).1 = .ok ∧
      ∃ hs, r = sendValue env cfg (frontKey cfg req) hs (x.get (frontKey cfg req)).2.1.strValue

/-- What makes the frontend send the value, under the headers `hs`: the request gets past the ETag
cache, and its validators do not match `timestamp`. -/
def Sends (x : XDataBase) (req : EvhtpRequest) (timestamp : Nat) (hs : List (Bytes × Bytes)) :
    Prop :=
  req.method = .get ∧
    (∃ x', earlyNotModified env cfg req (frontKey cfg req) x = some (false, x')) ∧
      ∃ modified, modifiedSince env req timestamp = some modified ∧
        (modified.1 || (noneMatch env cfg req timestamp).1) = false ∧
        hs = modified.2 ++ (noneMatch env cfg req timestamp).2

variable {env cfg} {s : ServerState} {req : EvhtpRequest} {x : XDataBase}

theorem restfulPro_get (hm : req.method = .get) (now : Int) (hs : List (Bytes × Bytes)) (sys : Bool)
    (x : XDataBase) :
    (restfulPro env.toEnv cfg now req hs sys x).response =
      if (x.get (uriKey req)).1 = .null then
        sendStatusResphone hs EVHTP_RES_NOTFOUND (ascii "NOT FOUND")
      else sendHttpResphone hs (x.get (uriKey req)).2.1.strValue := by
  rw [restfulPro, hm]
  generalize x.get (uriKey req) = r
  obtain ⟨c, v, y⟩ := r
  cases c <;> rfl

/-- A `GET` of a key is answered from the database it reads. -/
theorem handle_of_readsFrom {sys : Bool} (h : readsFrom env cfg req = some sys) (now : Int) :
    ∃ hs, (handle env.toEnv cfg now req ⟨s.redis.xdb, s.sysdb⟩).response =
      if ((s.database sys).get (uriKey req)).1 = .null then
        sendStatusResphone hs EVHTP_RES_NOTFOUND (ascii "NOT FOUND")
      else sendHttpResphone hs ((s.database sys).get (uriKey req)).2.1.strValue := by
  rw [readsFrom] at h
  by_cases hreq : req.method = .get ∧ checkAuth env.toEnv cfg req = true
  swap
  · rw [if_neg hreq] at h
    cases h
  rw [if_pos hreq] at h
  obtain ⟨hm, ha⟩ := hreq
  rw [handle]
  cases hr : env.route req.full with
  | adminShell =>
      rw [hr] at h
      cases h
      simp only [adminShellCallback, ha, Bool.not_true, Bool.false_eq_true, if_false, onDb, if_true]
      exact ⟨_, restfulPro_get hm now _ _ _⟩
  | rest =>
      rw [hr] at h
      simp only at h
      split_ifs at h with hkey
      cases h
      simp only [restCallback, ha, Bool.not_true, Bool.false_eq_true, if_false, if_neg hkey, onDb,
        ServerState.database]
      cases wantsSysdb req with
      | true => exact ⟨_, restfulPro_get hm now _ _ _⟩
      | false => exact ⟨_, restfulPro_get hm now _ _ _⟩
  | keyScan =>
      rw [hr] at h
      cases h
  | statistics =>
      rw [hr] at h
      cases h
  | config =>
      rw [hr] at h
      cases h

theorem get_err_iff (x : XDataBase) (k : Bytes) : (x.get k).1 = .err ↔ x.fault 0 = true := by
  rw [(x.get_eq k).1]
  by_cases hf : x.fault 0 = true
  · rw [if_pos hf]
    exact iff_of_true rfl hf
  · rw [if_neg hf]
    refine iff_of_false ?_ hf
    split_ifs <;> exact not_false

/-- **A `200` of the backend is truthful** exactly if its `Get` does not fail. -/
theorem truthfulBackend_iff (s : ServerState) (now : Int) (req : EvhtpRequest) :
    TruthfulBackend env cfg s now req ↔
      ∀ sys, readsFrom env cfg req = some sys → (s.database sys).fault 0 = false := by
  refine forall_congr' fun sys => imp_congr_right fun h => ?_
  obtain ⟨hs, hr⟩ := handle_of_readsFrom (s := s) h now
  rw [hr, ← Bool.not_eq_true, ← get_err_iff _ (uriKey req)]
  cases hc : ((s.database sys).get (uriKey req)).1 with
  | ok => simp [sendHttpResphone]
  | err => simp [sendHttpResphone]
  | null => simp [sendStatusResphone, EVHTP_RES_NOTFOUND, EVHTP_RES_OK]

/-- **What a `200` of the frontend comes from.** -/
theorem frontend_ok_iff {r : Response} :
    (∃ y, frontend env cfg req x = some (r, y)) ∧ r.status = EVHTP_RES_OK ↔
      (x.get (frontKey cfg req)).1 ≠ .null ∧
        ∃ hs, Sends env cfg x req (if (x.get (frontKey cfg req)).1 = .ok then
            (x.get (frontKey cfg req)).2.1.timestamp else env.uninit) hs ∧
          r = sendValue env cfg (frontKey cfg req) hs (x.get (frontKey cfg req)).2.1.strValue := by
  constructor
  · rintro ⟨⟨y, h⟩, hok⟩
    rw [frontend, getCallbackPro] at h
    by_cases hm : req.method ≠ .get
    · rw [if_pos hm] at h
      cases h
      cases hok
    rw [if_neg hm] at h
    obtain ⟨⟨hit, x'⟩, he, hl⟩ := Option.bind_eq_some_iff.mp h
    cases hit with
    | true =>
        cases hl
        cases hok
    | false =>
        obtain ⟨hret, hval⟩ := get_congr (earlyNotModified_db he) (frontKey cfg req)
        obtain ⟨r', ha, hr⟩ := Option.map_eq_some_iff.mp hl
        obtain rfl : r' = r := (Prod.mk.inj hr).1
        rw [hret, hval, answer] at ha
        by_cases hnull : (x.get (frontKey cfg req)).1 = .null
        · rw [if_pos hnull] at ha
          cases ha
          cases hok
        rw [if_neg hnull] at ha
        generalize (if (x.get (frontKey cfg req)).1 = .ok then
          (x.get (frontKey cfg req)).2.1.timestamp else env.uninit) = timestamp at ha ⊢
        obtain ⟨modified, hmod, hanswer⟩ := Option.map_eq_some_iff.mp ha
        by_cases hmatch : (modified.1 || (noneMatch env cfg req timestamp).1) = true
        · rw [if_pos hmatch] at hanswer
          rw [← hanswer] at hok
          cases hok
        · rw [if_neg hmatch] at hanswer
          exact ⟨hnull, _, ⟨not_not.mp hm, ⟨x', he⟩, modified, hmod,
            Bool.eq_false_iff.mpr hmatch, rfl⟩, hanswer.symm⟩
  · rintro ⟨hnull, hs, ⟨hm, ⟨x', he⟩, modified, hmod, hmatch, rfl⟩, rfl⟩
    refine ⟨⟨(x'.get (frontKey cfg req)).2.2, ?_⟩, status_sendValue _ _⟩
    obtain ⟨hret, hval⟩ := get_congr (earlyNotModified_db he) (frontKey cfg req)
    rw [frontend, getCallbackPro, if_neg (not_not.mpr hm), he]
    simp only [Option.bind_some, Bool.false_eq_true, if_false, lookup, answer, hret, hval,
      if_neg hnull, hmod, Option.map_some, hmatch]

/-- **A `200` of the frontend is truthful** exactly if its `Get` does not fail, or what a `Get`
leaves that fails is not sent. -/
theorem truthfulFrontend_iff (x : XDataBase) (req : EvhtpRequest) :
    TruthfulFrontend env cfg x req ↔
      x.fault 0 = false ∨ ∀ hs, ¬ Sends env cfg x req env.uninit hs := by
  have herr := get_err_iff x (frontKey cfg req)
  cases hf : x.fault 0 with
  | false =>
      refine iff_of_true (fun r y h hok => ?_) (Or.inl rfl)
      obtain ⟨hnull, hs, -, hr⟩ := frontend_ok_iff.mp ⟨⟨y, h⟩, hok⟩
      rw [hf] at herr
      refine ⟨?_, hs, hr⟩
      cases hc : (x.get (frontKey cfg req)).1 with
      | ok => rfl
      | err => exact absurd (herr.mp hc) Bool.false_ne_true
      | null => exact absurd hc hnull
  | true =>
      have hc := herr.mpr hf
      have hsends : ∀ r, (∃ y, frontend env cfg req x = some (r, y)) ∧ r.status = EVHTP_RES_OK ↔
          ∃ hs, Sends env cfg x req env.uninit hs ∧
            r = sendValue env cfg (frontKey cfg req) hs
              (x.get (frontKey cfg req)).2.1.strValue := fun r => by
        rw [frontend_ok_iff, hc, if_neg RetCode.noConfusion]
        exact and_iff_right RetCode.noConfusion
      simp only [Bool.true_eq_false, false_or]
      constructor
      · intro h hs hsend
        obtain ⟨⟨y, hy⟩, hok⟩ := (hsends _).mpr ⟨hs, hsend, rfl⟩
        exact RetCode.noConfusion (hc.symm.trans (h _ y hy hok).1)
      · intro h r y hy hok
        obtain ⟨hs, hsend, -⟩ := (hsends r).mp ⟨⟨y, hy⟩, hok⟩
        exact absurd hsend (h hs)

end Http

/-! ### Positive acknowledgements -/

/-- What the server is asked for. -/
inductive Ask where
  | redis (now : Int) (argv : List Bytes)
  | backend (now : Int) (req : EvhtpRequest)
  | frontend (req : EvhtpRequest)

/-- A positive answer means that what was asked for happened. -/
def Truthful (env : FrontEnv) (cfg : XConfig) (s : ServerState) : Ask → Prop
  | .redis now argv => TruthfulCmd s.redis now argv
  | .backend now req => TruthfulBackend env cfg s now req
  | .frontend req => TruthfulFrontend env cfg s.redis.xdb req

/-- The calls of RocksDB that the answer rests on do not fail. -/
def Secure (env : FrontEnv) (cfg : XConfig) (s : ServerState) : Ask → Prop
  | .redis now argv => SecureCmd s.redis.xdb now argv
  | .backend _ req => ∀ sys, readsFrom env cfg req = some sys → (s.database sys).fault 0 = false
  | .frontend req => s.redis.xdb.fault 0 = false ∨ ∀ hs, ¬ Sends env cfg s.redis.xdb req env.uninit hs

/-- **A positive acknowledgement means that the operation happened** exactly if the calls it rests
on do not fail, for every command and request, in every state and for every pattern of failing
calls. -/
theorem truthful_iff (env : FrontEnv) (cfg : XConfig) (s : ServerState) (ask : Ask) :
    Truthful env cfg s ask ↔ Secure env cfg s ask := by
  cases ask with
  | redis now argv => exact truthfulCmd_iff s.redis now argv
  | backend now req => exact truthfulBackend_iff s now req
  | frontend req => exact truthfulFrontend_iff s.redis.xdb req

/-- A `SET` whose `Put` fails answers `OK`, a `SCAN` whose iterator fails an array, a `SCAN .. DEL`
whose `Delete` fails a count, and a `GET` of either server whose `Get` fails a `200`. -/
theorem failures_acknowledged :
    let get : EvhtpRequest := { method := .get, full := ascii "/k" }
    let failing := (startedOn [true]).redis
    let stored := ((startedOn [false, false, true]).redis.doCmd 0 [ascii "SET", ascii "k", ascii "v"]).2
    let scanned := stored.doCmd 1 [ascii "SCAN", ascii "a", ascii "z", ascii "DEL"]
    (failing.doCmd 0 [ascii "SET", ascii "k", ascii "v"]).1 = [.status (ascii "OK")] ∧
      (failing.doCmd 0 [ascii "SET", ascii "k", ascii "v"]).2.xdb.valueOf (ascii "k") = none ∧
      (failing.xdb.scanKey (ascii "a") [255] INT_MAX).1 = .err ∧
      (failing.doCmd 0 [ascii "SCAN", ascii "a"]).1 = [.multiBulk []] ∧
      scanned.1 = [.int 1] ∧ scanned.2.xdb.valueOf (ascii "k") = some ⟨0, ascii "v"⟩ ∧
      (failing.xdb.get (ascii "k")).1 = .err ∧
      (handle plainEnv {} 0 get ⟨failing.xdb, failing.xdb⟩).response.status = EVHTP_RES_OK ∧
      (frontend plainFront {} get failing.xdb).map (·.1.status) = some EVHTP_RES_OK := by
  decide

end XHttpCache
