import XHttpCache.Http.Frontend
import XHttpCache.Redis.Replies
import XHttpCache.Server.Touched

/-!
# Server — an upload and what is read back

A body that is sent to the backend goes through a C string on its way to the database
(`value = buffer`), and everything after its first NUL is lost.  What is stored is read back by the
backend and by the frontend as it is, and by a Redis client if its size passes through an `int`.

* `Upload`: a `POST` or `PUT` of a key to the shared database.
* `trafficStep`: what happens to the server, requests to the frontend included.
* `readsBack_iff`: what the three ways to read a key give, from its row.
* `upload_round_trip_iff`: an upload is read back as it was sent, until the key is written or
  deleted, exactly if it has no NUL and fewer than `2 ^ 31` bytes.
-/

namespace XHttpCache
open Support

/-! ### Uploads -/

/-- An authorised `POST` or `PUT` of a key, by the catch-all route and without the parameter `db`,
whose body is not a form, and whose path is not one of the `default_index` paths.  `uri_arg_find`
takes any parameter for `db` whose name starts so, and there is none of these either. -/
structure Upload (env : FrontEnv) (cfg : XConfig) (req : EvhtpRequest) : Prop where
  method : req.method = .post ∨ req.method = .put
  route : env.route req.full = .rest
  noDb : uriArgFind req (ascii "db") = none
  key : uriKey req ≠ []
  noIndex : req.full ∉ str2Vect cfg.frontend.defaultIndex
  auth : checkAuth env.toEnv cfg req = true
  plain : ∀ contentType, env.headerFind req.headersIn (ascii "Content-Type") = some contentType →
    strstr (ascii "multipart/form-data") (cstr contentType) = none

variable {env : FrontEnv} {cfg : XConfig} {req : EvhtpRequest} {s : ServerState} {b : XevHtpdBackend}

theorem wantsSysdb_of_noDb (h : uriArgFind req (ascii "db") = none) : wantsSysdb req = false := by
  rw [wantsSysdb, h]

/-- The body is stored up to its first NUL. -/
theorem Upload.postValue (h : Upload env cfg req) :
    XHttpCache.postValue env.toEnv cfg req = cstr req.bufferIn := by
  rw [XHttpCache.postValue]
  cases hc : env.headerFind req.headersIn (ascii "Content-Type") with
  | none => rfl
  | some contentType =>
      simp only
      rw [h.plain contentType hc]
      rfl

/-- **What an upload does.** -/
theorem Upload.handle (h : Upload env cfg req) (hb : b.xdb.Healthy) (now : Int) :
    (handle env.toEnv cfg now req b).response.status = EVHTP_RES_OK ∧
      (handle env.toEnv cfg now req b).state.xdb =
        (b.xdb.set now (uriKey req) (cstr req.bufferIn)).2 := by
  have hset := (XDataBase.set_spec hb now (uriKey req) (cstr req.bufferIn)).1
  have hok : ¬ RetCode.ok.toInt > 0 := by decide
  rw [XHttpCache.handle, h.route]
  simp only [restCallback, h.auth, Bool.not_true, Bool.false_eq_true, if_false, if_neg h.key,
    wantsSysdb_of_noDb h.noDb, onDb, restfulPro, h.postValue]
  rcases h.method with hm | hm
  · rw [hm]
    simp only [hset, if_neg hok]
    exact ⟨rfl, trivial⟩
  · rw [hm]
    simp only [hset, if_neg hok]
    exact ⟨rfl, trivial⟩

/-! ### What happens next -/

/-- An event of the server, or a request to the frontend. -/
inductive Traffic where
  | server (ev : Event)
  | frontend (req : EvhtpRequest)

/-- The server after it.  A request to the frontend whose answer is open leaves it as it was. -/
def trafficStep (env : FrontEnv) (cfg : XConfig) (s : ServerState) : Traffic → Unit × ServerState
  | .server ev => ((), (step env.toEnv cfg s ev).2)
  | .frontend req =>
      ((), { s with redis := { s.redis with
        xdb := ((frontend env cfg req s.redis.xdb).map (·.2)).getD s.redis.xdb } })

/-- It writes or deletes the value of `k`. -/
def Traffic.Touches (env : FrontEnv) (cfg : XConfig) (k : Bytes) (s : ServerState) :
    Traffic → Prop
  | .server ev => XHttpCache.Touches env.toEnv cfg s k ev
  | .frontend _ => False

theorem leaves_frontend {x : XDataBase} (h : x.Healthy) (k : Bytes) (req : EvhtpRequest) :
    Leaves k x (((frontend env cfg req x).map (·.2)).getD x) := by
  cases hf : frontend env cfg req x with
  | none => exact .refl h
  | some ry =>
      obtain ⟨r, y⟩ := ry
      obtain ⟨x', hdb, hy⟩ := frontend_state hf
      have hx' : Leaves k x x' := by
        refine ⟨?_, ?_⟩
        · rwa [XDataBase.Healthy, hdb]
        · rw [XDataBase.valueRow, XDataBase.valueRow, XDataBase.rows, XDataBase.rows, hdb]
      rcases hy with rfl | rfl
      · exact hx'
      · exact hx'.trans (leaves_get hx'.healthy _)

theorem leaves_trafficStep {k : Bytes} (h : s.redis.xdb.Healthy) {t : Traffic}
    (hk : ¬ t.Touches env cfg k s) :
    Leaves k s.redis.xdb (trafficStep env cfg s t).2.redis.xdb := by
  cases t with
  | server ev => exact leaves_step h hk
  | frontend req => exact leaves_frontend h k req

/-- **A value stays** until it is touched. -/
theorem leaves_traffic {k : Bytes} (h : s.redis.xdb.Healthy) {ts : List Traffic}
    (hk : Along (trafficStep env cfg) (fun s t => ¬ t.Touches env cfg k s) s ts) :
    Leaves k s.redis.xdb (run (trafficStep env cfg) s ts).2.redis.xdb :=
  along_inv (I := fun s' => Leaves k s.redis.xdb s'.redis.xdb)
    (fun _ _ ht hs => hs.trans (leaves_trafficStep hs.healthy ht)) hk (.refl h)

/-! ### Reading a key back -/

/-- A `GET` of the path of `req` on the backend, an unconditional one on the frontend, and a Redis
`GET` of its key all give exactly `b`. -/
structure ReadsBack (env : FrontEnv) (cfg : XConfig) (req : EvhtpRequest) (b : Bytes)
    (s : ServerState) : Prop where
  backend : ∀ now q, q.method = .get → q.full = req.full → checkAuth env.toEnv cfg q = true →
    uriArgFind q (ascii "db") = none →
      (handle env.toEnv cfg now q ⟨s.redis.xdb, s.sysdb⟩).response.status = EVHTP_RES_OK ∧
        (handle env.toEnv cfg now q ⟨s.redis.xdb, s.sysdb⟩).response.bufferOut = b
  frontend : ∀ q, q.method = .get → q.full = req.full →
    env.headerFind q.headersIn (ascii "If-None-Match") = none →
      env.headerFind q.headersIn (ascii "If-Modified-Since") = none →
        ∃ r y, XHttpCache.frontend env cfg q s.redis.xdb = some (r, y) ∧
          r.status = EVHTP_RES_OK ∧ r.bufferOut = b
  redis : ∀ now cmd, XRedisServer.getCmdProcessFun cmd = some .get →
    sent (s.redis.doCmd now [cmd, uriKey req]).1 = .ok (bulkLine b)

theorem length_natDecimal_mono {m n : Nat} (h : m ≤ n) :
    (natDecimal m).length ≤ (natDecimal n).length := by
  rcases Nat.eq_zero_or_pos m with rfl | hm
  · exact List.length_pos_of_ne_nil (natDecimal_ne_nil n)
  · rw [natDecimal, natDecimal, if_neg hm.ne', if_neg (hm.trans_le h).ne']
    simpa using Nat.le_length_digits_le 10 m n h

/-- **A value is sent whole to a Redis client** exactly if its size passes through `int`. -/
theorem sendBulkReply_eq_bulkLine (b : Bytes) :
    sendBulkReply b = .ok (bulkLine b) ↔ b.length < 2 ^ 31 := by
  refine ⟨fun h => ?_, sendBulkReply_of_lt⟩
  rw [sendBulkReply_eq] at h
  split_ifs at h with hsize
  -- what is cut off is missing in the length
  have hlen := congrArg List.length (Except.ok.inj h)
  have hmono := length_natDecimal_mono (Nat.mod_le b.length (2 ^ 64))
  simp only [bulkLine, List.length_append, length_respLine, List.length_take] at hlen
  omega

section Reading

variable {k : Bytes} {v : XValue} {q : EvhtpRequest}

theorem backend_get (hb : b.xdb.Healthy) (hv : b.xdb.valueOf (uriKey q) = some v)
    (hm : q.method = .get) (hroute : env.route q.full = .rest) (hkey : uriKey q ≠ [])
    (hauth : checkAuth env.toEnv cfg q = true) (hdb : uriArgFind q (ascii "db") = none)
    (now : Int) :
    (handle env.toEnv cfg now q b).response =
      sendHttpResphone [(ascii "Content-Type", guessContentType (uriKey q))] v.strValue := by
  obtain ⟨hok, hval⟩ := XDataBase.get_of_valueOf hb hv
  rw [handle, hroute]
  simp only [restCallback, hauth, Bool.not_true, Bool.false_eq_true, if_false, if_neg hkey,
    wantsSysdb_of_noDb hdb, onDb, restfulPro, hm]
  generalize b.xdb.get (uriKey q) = r at hok hval ⊢
  obtain ⟨c, val, y⟩ := r
  cases hok
  cases hval
  rfl

theorem frontend_get {x : XDataBase} (hx : x.Healthy) (hv : x.valueOf (uriKey q) = some v)
    (hgzip : cfg.frontend.gzip ≠ 1) (hm : q.method = .get)
    (hindex : q.full ∉ str2Vect cfg.frontend.defaultIndex)
    (hnone : env.headerFind q.headersIn (ascii "If-None-Match") = none)
    (hsince : env.headerFind q.headersIn (ascii "If-Modified-Since") = none) :
    ∃ y, frontend env cfg q x = some
      (sendHttpResphone [(ascii "Content-Type", guessContentType (uriKey q))] v.strValue, y) := by
  obtain ⟨hok, hval⟩ := XDataBase.get_of_valueOf hx hv
  have hheader : ifNoneMatchHeader env cfg q = none := by
    rw [ifNoneMatchHeader, hnone]
    exact ite_self none
  have hnull : ¬ (x.get (uriKey q)).1 = .null := by
    rw [hok]
    exact RetCode.noConfusion
  refine ⟨(x.get (uriKey q)).2.2, ?_⟩
  rw [frontend, frontKey, if_neg hindex, getCallbackPro_unconditional hm hheader hsince,
    if_neg hnull, sendValue_plain hgzip, hval]
  rfl

theorem redis_get {sv : XRedisServer} (hx : sv.xdb.Healthy) (hv : sv.xdb.valueOf k = some v)
    {cmd : Bytes} (hcmd : XRedisServer.getCmdProcessFun cmd = some .get) (now : Int) :
    sent (sv.doCmd now [cmd, k]).1 = sendBulkReply v.strValue := by
  obtain ⟨hok, hval⟩ := XDataBase.get_of_valueOf hx hv
  have hreplies : (sv.doCmd now [cmd, k]).1 = [.bulk v.strValue] := by
    simp only [XRedisServer.doCmd, hcmd, XRedisServer.call, XRedisServer.processCmdGet]
    generalize sv.xdb.get k = r at hok hval ⊢
    obtain ⟨c, val, y⟩ := r
    cases hok
    cases hval
    rfl
  rw [hreplies, sent_singleton, Reply.send]

end Reading

/-- **What is read back of a key**, from the value that is stored. -/
theorem readsBack_iff (hup : Upload env cfg req) (hgzip : cfg.frontend.gzip ≠ 1)
    (hx : s.redis.xdb.Healthy) {v : XValue} (hv : s.redis.xdb.valueOf (uriKey req) = some v)
    (b : Bytes) :
    ReadsBack env cfg req b s ↔ v.strValue = b ∧ b.length < 2 ^ 31 := by
  constructor
  · intro h
    -- the upload itself, as a `GET`
    have hget := h.backend 0 { req with method := .get } rfl rfl hup.auth hup.noDb
    rw [backend_get (b := ⟨s.redis.xdb, s.sysdb⟩) (q := { req with method := .get }) hx hv rfl
      hup.route hup.key hup.auth hup.noDb] at hget
    obtain rfl : v.strValue = b := hget.2
    have hcmd : XRedisServer.getCmdProcessFun (ascii "GET") = some .get := by decide
    have hredis := h.redis 0 (ascii "GET") hcmd
    rw [redis_get hx hv hcmd] at hredis
    exact ⟨rfl, (sendBulkReply_eq_bulkLine _).mp hredis⟩
  · rintro ⟨rfl, hlen⟩
    have hkey : ∀ q : EvhtpRequest, q.full = req.full → uriKey q = uriKey req := fun q hq => by
      rw [uriKey, hq, uriKey]
    refine ⟨fun now q hm hq hauth hdb => ?_, fun q hm hq hnone hsince => ?_, fun now cmd hcmd => ?_⟩
    · rw [backend_get (b := ⟨s.redis.xdb, s.sysdb⟩) hx ((hkey q hq).symm ▸ hv) hm (hq ▸ hup.route)
        ((hkey q hq).symm ▸ hup.key) hauth hdb]
      exact ⟨rfl, rfl⟩
    · obtain ⟨y, hy⟩ := frontend_get hx ((hkey q hq).symm ▸ hv) hgzip hm (hq ▸ hup.noIndex) hnone
        hsince
      exact ⟨_, y, hy, rfl, rfl⟩
    · rw [redis_get hx hv hcmd]
      exact (sendBulkReply_eq_bulkLine _).mpr hlen

theorem cstr_eq_self_iff (s : Bytes) : cstr s = s ↔ 0 ∉ s := by
  rw [cstr, List.takeWhile_eq_self_iff]
  simp only [decide_eq_true_eq]
  exact ⟨fun h h0 => h 0 h0 rfl, fun h c hc he => h (he ▸ hc)⟩

/-- **An upload is read back as it was sent**, by all three ways and until the key is written or
deleted, if and only if it has no NUL and its size is an `int`. -/
theorem upload_round_trip_iff (hup : Upload env cfg req) (hgzip : cfg.frontend.gzip ≠ 1)
    (hx : s.redis.xdb.Healthy) (now : Int) :
    let r := handle env.toEnv cfg now req ⟨s.redis.xdb, s.sysdb⟩
    let s₁ := (step env.toEnv cfg s (.http now req)).2
    (r.response.status = EVHTP_RES_OK → ∀ ts,
        Along (trafficStep env cfg) (fun s t => ¬ t.Touches env cfg (uriKey req) s) s₁ ts →
          ReadsBack env cfg req req.bufferIn (run (trafficStep env cfg) s₁ ts).2) ↔
      0 ∉ req.bufferIn ∧ req.bufferIn.length < 2 ^ 31 := by
  intro r s₁
  obtain ⟨hstatus, hstate⟩ := hup.handle (b := ⟨s.redis.xdb, s.sysdb⟩) hx now
  have hs₁ : s₁.redis.xdb = (s.redis.xdb.set now (uriKey req) (cstr req.bufferIn)).2 := hstate
  have hx₁ : s₁.redis.xdb.Healthy := by
    rw [hs₁]
    exact XDataBase.healthy_of_db (XDataBase.set_spec hx now _ _).2
  have hv₁ : s₁.redis.xdb.valueOf (uriKey req) =
      some ⟨getCurrentTime now, cstr req.bufferIn⟩ := by
    rw [hs₁, XDataBase.valueOf_set hx, if_pos rfl]
  have hread : ∀ ts,
      Along (trafficStep env cfg) (fun s t => ¬ t.Touches env cfg (uriKey req) s) s₁ ts →
        (ReadsBack env cfg req req.bufferIn (run (trafficStep env cfg) s₁ ts).2 ↔
          0 ∉ req.bufferIn ∧ req.bufferIn.length < 2 ^ 31) := by
    intro ts hts
    have hl := leaves_traffic hx₁ hts
    have hv : (run (trafficStep env cfg) s₁ ts).2.redis.xdb.valueOf (uriKey req) =
        some ⟨getCurrentTime now, cstr req.bufferIn⟩ := by
      rw [XDataBase.valueOf, hl.valueRow, ← XDataBase.valueOf, hv₁]
    rw [readsBack_iff hup hgzip hl.healthy hv, cstr_eq_self_iff]
  constructor
  · intro h
    exact (hread [] trivial).mp (h hstatus [] trivial)
  · intro h _ ts hts
    exact (hread ts hts).mpr h

/-- A `PUT` of `body` under `k`. -/
def putOf (body : Bytes) : EvhtpRequest := { method := .put, full := ascii "/k", bufferIn := body }

theorem upload_putOf (body : Bytes) : Upload plainFront {} (putOf body) where
  method := Or.inr rfl
  route := show plainFront.route (ascii "/k") = .rest by decide
  noDb := rfl
  key := show cstr ((ascii "/k").drop 1) ≠ [] by decide
  noIndex := show ascii "/k" ∉ str2Vect [] by decide
  auth := rfl
  plain _ h := by cases h

/-- A text is read back after a `SET` of another key. -/
theorem upload_round_trip_text :
    let s₁ := (step plainEnv {} freshServer (.http 0 (putOf (ascii "text")))).2
    ReadsBack plainFront {} (putOf (ascii "text")) (ascii "text")
      (run (trafficStep plainFront {}) s₁
        [.server (.redis 1 [ascii "SET", ascii "other", ascii "v"])]).2 := by
  refine (upload_round_trip_iff (s := freshServer) (upload_putOf (ascii "text")) (by decide) rfl
    0).mpr ⟨by decide, by decide⟩ (by decide) _ ⟨?_, trivial⟩
  rintro (h | h | h) <;> exact absurd h (by decide)

/-- Of a body with a NUL, what comes before it is stored and read back. -/
theorem upload_cut_at_nul :
    let s := (step plainEnv {} freshServer (.http 0 (putOf [97, 0, 98]))).2
    let get : EvhtpRequest := { method := .get, full := ascii "/k" }
    (handle plainEnv {} 0 (putOf [97, 0, 98]) ⟨freshServer.redis.xdb, freshServer.sysdb⟩
        ).response.status = EVHTP_RES_OK ∧
      (handle plainEnv {} 1 get ⟨s.redis.xdb, s.sysdb⟩).response.bufferOut = [97] ∧
      (frontend plainFront {} get s.redis.xdb).map (·.1.bufferOut) = some [97] ∧
      (s.redis.doCmd 1 [ascii "GET", ascii "k"]).1 = [.bulk [97]] := by
  decide

end XHttpCache
