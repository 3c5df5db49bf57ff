import XHttpCache.Http.Config
import XHttpCache.Http.Json
import XHttpCache.Redis.Commands

/-!
# Http — the backend

`src/xevHtpdBackend.cpp`: the five routes of the backend over its two databases, with the parts
of `common/xevHtpdBase.cpp` they use.  A request is answered with a status, the headers added
and a body; beside the answer stands the list of the accesses to the databases and to the
configuration that the handler makes, in order, so that what an answer rests on can be stated.
What every request reads of the configuration before it is authorised, `encode_pass` and `debug`,
is no access.

What is not this repository's is a parameter, `Env`: which route the HTTP library takes, how it
finds a header, the multipart parser and the statistics of RocksDB.

* `hasCredentials_of_checkAuth`: what an authorised request has.
* `backend_auth_iff`: the configured user and password guard every route exactly when `user:pass`
  has at most 93 bytes.
-/

namespace XHttpCache
open Support

/-! ### Requests and answers -/

/-- `req->method`, as far as it is told apart. -/
inductive HtpMethod where
  | get
  | post
  | put
  | delete
  | other
  deriving DecidableEq

/-- `evhtp_request_t`: the method, `uri->path->full`, the parameters of the query (a value may be
missing), the headers and the body. -/
structure EvhtpRequest where
  method : HtpMethod
  full : Bytes
  query : List (Bytes × Option Bytes) := []
  headersIn : List (Bytes × Bytes) := []
  bufferIn : Bytes := []

/-- What is sent back. -/
structure Response where
  status : Nat
  headersOut : List (Bytes × Bytes) := []
  bufferOut : Bytes := []
  deriving DecidableEq

def EVHTP_RES_OK : Nat := 200

def EVHTP_RES_ACCEPTED : Nat := 202

def EVHTP_RES_BADREQ : Nat := 400

def EVHTP_RES_UNAUTH : Nat := 401

def EVHTP_RES_NOTFOUND : Nat := 404

def EVHTP_RES_SERVERR : Nat := 500

/-- The callbacks of `SetRouteTable`. -/
inductive Route where
  | keyScan
  | statistics
  | config
  | adminShell
  | rest
  deriving DecidableEq

/-- What other code does for the backend. -/
structure Env where
  /-- The callback the HTTP library runs for a path. -/
  route : Bytes → Route
  /-- `evhtp_header_find`. -/
  headerFind : List (Bytes × Bytes) → Bytes → Option Bytes
  /-- It finds nothing where there is nothing. -/
  headerFind_nil : ∀ key, headerFind [] key = none
  /-- The file `ParasrMultipartPost` takes from a body of a given content type with the size
  limit, if any. -/
  multipart : Bytes → Bytes → Int → Option Bytes
  /-- `xDataBase::StatusStr`. -/
  statusStr : XDataBase → Bytes

/-- A call that an operation of a database or the configuration answers. -/
inductive Access where
  | get (sys : Bool)
  | set (sys : Bool)
  | del (sys : Bool)
  | scanKey (sys : Bool)
  | statusStr (sys : Bool)
  | config
  deriving DecidableEq

/-- `xevHtpdBackend`. -/
structure XevHtpdBackend where
  xdb : XDataBase
  sysdb : XDataBase

/-- An answer, the accesses made for it, and the state after it. -/
structure Handled (σ : Type) where
  response : Response
  accesses : List Access := []
  state : σ

/-! ### From `xevHtpdBase` -/

/-- The table of `GuessContentType`. -/
def contentTypeTable : List (Bytes × Bytes) :=
  [(ascii "htm", ascii "text/html"), (ascii "js", ascii "application/x-javascript"),
    (ascii "html", ascii "text/html"), (ascii "css", ascii "text/css"),
    (ascii "txt", ascii "text/plain"), (ascii "c", ascii "text/plain"),
    (ascii "cpp", ascii "text/plain"), (ascii "h", ascii "text/plain"),
    (ascii "gif", ascii "image/gif"), (ascii "jpg", ascii "image/jpeg"),
    (ascii "ico", ascii "image/gif"), (ascii "jpeg", ascii "image/jpeg"),
    (ascii "png", ascii "image/png"), (ascii "pdf", ascii "application/pdf"),
    (ascii "ps", ascii "application/postsript")]

/-- `GuessContentType`: the type of the text after the last period, unless a slash follows. -/
def guessContentType (path : Bytes) : Bytes :=
  let path := cstr path
  let ext := (path.reverse.takeWhile (· ≠ 46)).reverse
  if 46 ∈ path ∧ 47 ∉ ext then
    contentTypeTable.foldl (fun type ent => if strcasecmpEq ent.1 ext then ent.2 else type)
      (ascii "text/plain")
  else ascii "text/plain"

/-- `uri_arg_find`: the first parameter that has a value and whose name starts with `arg`. -/
def uriArgFind (req : EvhtpRequest) (arg : Bytes) : Option Bytes :=
  req.query.findSome? fun kv =>
    match kv.2 with
    | some val => if arg.isPrefixOf (cstr kv.1) ∧ val.length > 0 then some (cstr val) else none
    | none => none

/-- `SERVER_SIGNATURE`. -/
def SERVER_SIGNATURE : Bytes := ascii "xhttpcache"

/-- `SendStatusResphone`, after the headers `hs`. -/
def sendStatusResphone (hs : List (Bytes × Bytes)) (errcode : Nat) (text : Bytes) : Response :=
  { status := errcode, headersOut := hs, bufferOut := snprintf 1024 text }

/-- `SendHttpResphone`, after the headers `hs`. -/
def sendHttpResphone (hs : List (Bytes × Bytes)) (strData : Bytes) : Response :=
  { status := EVHTP_RES_OK, headersOut := hs ++ [(ascii "Server", SERVER_SIGNATURE)],
    bufferOut := strData }

/-! ### The handlers -/

section Handlers

variable (env : Env) (cfg : XConfig) (now : Int) (req : EvhtpRequest)

/-- `CheckAuth`. -/
def checkAuth : Bool :=
  if cfg.backend.encodePass = [] then true
  else
    match env.headerFind req.headersIn (ascii "Authorization") with
    | none => false
    | some auth =>
        match strstr (ascii "Basic ") (cstr auth) with
        | none => false
        | some p => strcmpEq (p.drop (ascii "Basic ").length) cfg.backend.encodePass

/-- What `CheckSession` sends to a request that is not authorised, after the headers `hs`. -/
def unauthResphone (hs : List (Bytes × Bytes)) : Response :=
  { status := EVHTP_RES_UNAUTH
    headersOut := hs ++ [(ascii "Content-Length", ascii "0"),
      (ascii "WWW-Authenticate", ascii "Basic realm=\"xSky\""),
      (ascii "Server", SERVER_SIGNATURE)] }

/-- `uri->path->full + 1`, as a C string. -/
def uriKey : Bytes := cstr (req.full.drop 1)

/-- The value a `POST` or `PUT` stores. -/
def postValue : Bytes :=
  match env.headerFind req.headersIn (ascii "Content-Type") with
  | some contentType =>
      if (strstr (ascii "multipart/form-data") (cstr contentType)).isSome then
        (env.multipart contentType req.bufferIn cfg.backend.maxUploadFileSize).getD []
      else cstr req.bufferIn
  | none => cstr req.bufferIn

/-- `RESTfulPro`, after the headers `hs`, on the database `x`, which is `sysdb` if `sys` says
so. -/
def restfulPro (hs : List (Bytes × Bytes)) (sys : Bool) (x : XDataBase) : Handled XDataBase :=
  match req.method with
  | .get =>
      match x.get (uriKey req) with
      | (.null, _, x) =>
          { response := sendStatusResphone hs EVHTP_RES_NOTFOUND (ascii "NOT FOUND")
            accesses := [.get sys]
            state := x }
      | (_, sval, x) =>
          { response := sendHttpResphone hs sval.strValue, accesses := [.get sys], state := x }
  | .post | .put =>
      let (ret, x) := x.set now (uriKey req) (postValue env cfg req)
      if ret.toInt > 0 then
        { response := sendStatusResphone hs EVHTP_RES_SERVERR (ascii "EVHTP_RES_SERVERR")
          accesses := [.set sys]
          state := x }
      else
        { response := sendStatusResphone hs EVHTP_RES_OK (ascii "OK")
          accesses := [.set sys]
          state := x }
  | .delete =>
      let (ret, x) := x.del (uriKey req)
      if ret.toInt > 0 then
        { response := sendStatusResphone hs EVHTP_RES_NOTFOUND (ascii "NOT FOUND")
          accesses := [.del sys]
          state := x }
      else
        { response := sendStatusResphone hs EVHTP_RES_ACCEPTED (ascii "OK")
          accesses := [.del sys]
          state := x }
  | .other =>
      { response := sendStatusResphone hs EVHTP_RES_BADREQ (ascii "BADREQUEST"), state := x }

/-- Whether the parameter `db` asks for `sysdb`. -/
def wantsSysdb : Bool :=
  match uriArgFind req (ascii "db") with
  | some pdb => strcmpEq pdb (ascii "xdb")
  | none => false

/-- A handler of the database that `sys` selects, as one of the backend. -/
def onDb (b : XevHtpdBackend) (sys : Bool) (f : XDataBase → Handled XDataBase) :
    Handled XevHtpdBackend :=
  if sys then
    let r := f b.sysdb
    { response := r.response, accesses := r.accesses, state := { b with sysdb := r.state } }
  else
    let r := f b.xdb
    { response := r.response, accesses := r.accesses, state := { b with xdb := r.state } }

/-- `RESTCallback`. -/
def restCallback (b : XevHtpdBackend) : Handled XevHtpdBackend :=
  let hs := [(ascii "Content-Type", guessContentType (uriKey req))]
  if !checkAuth env cfg req then { response := unauthResphone hs, state := b }
  else if uriKey req = [] then
    { response := sendStatusResphone hs EVHTP_RES_NOTFOUND (ascii "NOT FOUND"), state := b }
  else onDb b (wantsSysdb req) (restfulPro env cfg now req hs (wantsSysdb req))

/-- `AdminShellCallback`. -/
def adminShellCallback (b : XevHtpdBackend) : Handled XevHtpdBackend :=
  if !checkAuth env cfg req then { response := unauthResphone [], state := b }
  else
    onDb b true
      (restfulPro env cfg now req [(ascii "Content-Type", guessContentType (uriKey req))] true)

/-- `StatisticsCallback`. -/
def statisticsCallback (b : XevHtpdBackend) : Handled XevHtpdBackend :=
  if !checkAuth env cfg req then { response := unauthResphone [], state := b }
  else
    { response := sendHttpResphone [(ascii "Content-Type", ascii "text/plain")]
        (env.statusStr b.xdb)
      accesses := [.statusStr false]
      state := b }

/-- The document that `ConfigCallback` writes. -/
def configJson : Json :=
  let httpcache : Json := .obj
    [(ascii "logfilename", .str cfg.app.logFilename),
      (ascii "logfilesize", .int (cfg.app.logFilesize % 2 ^ 32)),
      (ascii "loglevel", .str cfg.app.logLevel), (ascii "daemonize", .int cfg.app.runDaemonize),
      (ascii "guard", .int cfg.app.runGuard), (ascii "debug", .int cfg.app.debug)]
  let redis : Json := .obj
    [(ascii "ip", .str cfg.app.redisIp), (ascii "port", .int cfg.app.redisPort)]
  let frontend : Json := .obj
    [(ascii "ip", .str cfg.frontend.ip), (ascii "port", .int cfg.frontend.port),
      (ascii "threads", .int cfg.frontend.threads), (ascii "timeout", .int cfg.frontend.timeout),
      (ascii "gzip", .int cfg.frontend.gzip), (ascii "etag", .int cfg.frontend.etag),
      (ascii "etagcachecount", .int cfg.frontend.etagCacheCount),
      (ascii "etagcachesize", .int cfg.frontend.etagCacheSize),
      (ascii "pemfile", .str cfg.frontend.pemfile), (ascii "privfile", .str cfg.frontend.privfile),
      (ascii "ssltimeout", .int cfg.frontend.sslTimeout),
      (ascii "defaultindex", .str cfg.frontend.defaultIndex)]
  let backend : Json := .obj
    [(ascii "ip", .str cfg.backend.ip), (ascii "port", .int cfg.backend.port),
      (ascii "threads", .int cfg.backend.threads), (ascii "timeout", .int cfg.backend.timeout),
      (ascii "username", .str cfg.backend.username), (ascii "password", .str cfg.backend.password),
      (ascii "pemfile", .str cfg.backend.pemfile), (ascii "privfile", .str cfg.backend.privfile),
      (ascii "ssltimeout", .int cfg.backend.sslTimeout)]
  let db : Json := .obj
    [(ascii "db_base_dir", .str cfg.db.dbBaseDir),
      (ascii "create_if_missing", .bool cfg.db.createIfMissing),
      (ascii "max_open_files", .int cfg.db.maxOpenFiles),
      (ascii "max_file_opening_threads", .int cfg.db.maxFileOpeningThreads),
      (ascii "max_total_wal_size", .int (cfg.db.maxTotalWalSize % 2 ^ 32)),
      (ascii "db_log_dir", .str cfg.db.dbLogDir),
      (ascii "write_buffer_size", .int (cfg.db.writeBufferSize % 2 ^ 32)),
      (ascii "compression", .bool cfg.db.compression), (ascii "ttl", .int cfg.db.ttl)]
  .obj [(ascii "frontend", frontend), (ascii "backend", backend), (ascii "httpcache", httpcache),
    (ascii "redis", redis), (ascii "db", db)]

/-- `ConfigCallback`. -/
def configCallback (b : XevHtpdBackend) : Handled XevHtpdBackend :=
  if !checkAuth env cfg req then { response := unauthResphone [], state := b }
  else
    { response := sendHttpResphone [(ascii "Content-Type", ascii "text/json")]
        (fastWrite (configJson cfg))
      accesses := [.config]
      state := b }

/-- `KeyScanCallback`. -/
def keyScanCallback (b : XevHtpdBackend) : Handled XevHtpdBackend :=
  if !checkAuth env cfg req then { response := unauthResphone [], state := b }
  else
    let start := (uriArgFind req (ascii "key")).getD []
    let limit := atoi ((uriArgFind req (ascii "limit")).getD (ascii "1000"))
    onDb b (wantsSysdb req) fun x =>
      let (ret, vkey, x) := x.scanKey start [255] limit
      -- no `ret_code` is negative, so this answer, which formats a pointer, is never sent
      if ret.toInt < 0 then
        { response := sendStatusResphone [] EVHTP_RES_NOTFOUND (ascii "NOT FOUND ")
          accesses := [.scanKey (wantsSysdb req)]
          state := x }
      else
        { response := sendHttpResphone
            [(ascii "Content-Type", ascii "text/json; charset=UTF-8")]
            (fastWrite (.appended vkey))
          accesses := [.scanKey (wantsSysdb req)]
          state := x }

/-- A request, by the callback of its route. -/
def handle (b : XevHtpdBackend) : Handled XevHtpdBackend :=
  match env.route req.full with
  | .keyScan => keyScanCallback env cfg req b
  | .statistics => statisticsCallback env cfg req b
  | .config => configCallback env cfg req b
  | .adminShell => adminShellCallback env cfg now req b
  | .rest => restCallback env cfg now req b

end Handlers

/-! ### Authorisation -/

variable {env : Env} {cfg : XConfig} {now : Int} {req : EvhtpRequest} {b : XevHtpdBackend}

/-- The `Authorization` header has `Basic ` followed by exactly `cred`. -/
def HasCredentials (env : Env) (req : EvhtpRequest) (cred : Bytes) : Prop :=
  ∃ auth before, env.headerFind req.headersIn (ascii "Authorization") = some auth ∧
    cstr auth = before ++ ascii "Basic " ++ cred

theorem ne_zero_of_mem_cstr {s : Bytes} {c : Byte} (h : c ∈ cstr s) : c ≠ 0 := by
  simpa using List.mem_takeWhile_imp h

theorem cstr_of_ne_zero {s : Bytes} (h : ∀ c ∈ s, c ≠ 0) : cstr s = s :=
  List.takeWhile_eq_self_iff.mpr fun c hc => by simpa using h c hc

/-- Where a password is encoded, an authorised request has it. -/
theorem hasCredentials_of_checkAuth (h : cfg.backend.encodePass ≠ [])
    (hz : ∀ c ∈ cfg.backend.encodePass, c ≠ 0) (ha : checkAuth env cfg req = true) :
    HasCredentials env req cfg.backend.encodePass := by
  rw [checkAuth, if_neg h] at ha
  cases hf : env.headerFind req.headersIn (ascii "Authorization") with
  | none =>
      rw [hf] at ha
      cases ha
  | some auth =>
      rw [hf] at ha
      simp only at ha
      cases hs : strstr (ascii "Basic ") (cstr auth) with
      | none =>
          rw [hs] at ha
          cases ha
      | some p =>
          rw [hs] at ha
          obtain ⟨⟨cred, hcred⟩, ⟨before, hbefore⟩⟩ := strstr_eq_some hs
          have hdrop : p.drop (ascii "Basic ").length = cred := by
            rw [← hcred, List.drop_left]
          have hcz : ∀ c ∈ cred, c ≠ 0 := fun c hc => by
            refine ne_zero_of_mem_cstr (s := auth) ?_
            rw [← hbefore, ← hcred]
            exact List.mem_append_right _ (List.mem_append_right _ hc)
          have heq : cred = cfg.backend.encodePass := by
            have := of_decide_eq_true ha
            rwa [hdrop, cstr_of_ne_zero hcz, cstr_of_ne_zero hz] at this
          exact ⟨auth, before, hf, by rw [List.append_assoc, ← heq, hcred, hbefore]⟩

/-- A request that is not authorised is answered so, and nothing else happens. -/
theorem handle_unauth (h : checkAuth env cfg req = false) (now : Int) (b : XevHtpdBackend) :
    (handle env cfg now req b).response.status = EVHTP_RES_UNAUTH ∧
      (handle env cfg now req b).accesses = [] ∧ (handle env cfg now req b).state = b := by
  rw [handle]
  cases env.route req.full with
  | keyScan => simp [keyScanCallback, h, unauthResphone]
  | statistics => simp [statisticsCallback, h, unauthResphone]
  | config => simp [configCallback, h, unauthResphone]
  | adminShell => simp [adminShellCallback, h, unauthResphone]
  | rest => simp [restCallback, h, unauthResphone]

theorem restfulPro_delete (hs : List (Bytes × Bytes)) (sys : Bool) (x : XDataBase)
    (h : req.method = .delete) : (restfulPro env cfg now req hs sys x).accesses = [.del sys] := by
  rw [restfulPro, h]
  simp only
  split_ifs <;> rfl

theorem accesses_onDb (sys : Bool) (f : XDataBase → Handled XDataBase) :
    (onDb b sys f).accesses = (f (if sys then b.sysdb else b.xdb)).accesses := by
  cases sys <;> rfl

/-- An authorised `DELETE` of a key reaches a database or the configuration, by any route. -/
theorem handle_delete (h : checkAuth env cfg req = true) (hm : req.method = .delete)
    (hk : uriKey req ≠ []) (now : Int) (b : XevHtpdBackend) :
    (handle env cfg now req b).accesses ≠ [] := by
  rw [handle]
  cases env.route req.full with
  | keyScan =>
      simp only [keyScanCallback, h, Bool.not_true, Bool.false_eq_true, if_false, accesses_onDb]
      split_ifs <;> exact List.cons_ne_nil _ _
  | statistics => simp [statisticsCallback, h]
  | config => simp [configCallback, h]
  | adminShell => simp [adminShellCallback, h, accesses_onDb, restfulPro_delete _ _ _ hm]
  | rest => simp [restCallback, h, hk, accesses_onDb, restfulPro_delete _ _ _ hm]

/-- A request that reaches a database or the configuration has the credentials `cred`, and any
request without them is refused and changes neither database. -/
def Guarded (env : Env) (cfg : XConfig) (cred : Bytes) (b : XevHtpdBackend) (now : Int)
    (req : EvhtpRequest) : Prop :=
  ((handle env cfg now req b).accesses ≠ [] → HasCredentials env req cred) ∧
    (¬ HasCredentials env req cred →
      (handle env cfg now req b).response.status = EVHTP_RES_UNAUTH ∧
        (handle env cfg now req b).state = b)

/-- With the password encoded, every request is guarded. -/
theorem guarded_of_encodePass (h : cfg.backend.encodePass ≠ [])
    (hz : ∀ c ∈ cfg.backend.encodePass, c ≠ 0) (b : XevHtpdBackend) (now : Int)
    (req : EvhtpRequest) : Guarded env cfg cfg.backend.encodePass b now req := by
  cases ha : checkAuth env cfg req with
  | true =>
      have hcred := hasCredentials_of_checkAuth h hz ha
      exact ⟨fun _ => hcred, fun hn => absurd hcred hn⟩
  | false =>
      obtain ⟨h₁, h₂, h₃⟩ := handle_unauth ha now b
      exact ⟨fun hne => absurd h₂ hne, fun _ => ⟨h₁, h₃⟩⟩

/-! ### The configured password -/

namespace CIniFile

/-- The configured user of the backend. -/
def username (ini : CIniFile) : Bytes := ini.getValue (ascii "xhttpd_backend") (ascii "username")

/-- The configured password of the backend. -/
def password (ini : CIniFile) : Bytes := ini.getValue (ascii "xhttpd_backend") (ascii "password")

/-- The base64 encoding of `username ':' password`. -/
def credentials (ini : CIniFile) : Bytes := base64Chars (ini.username ++ ascii ":" ++ ini.password)

end CIniFile

/-- What the configuration has as its encoded password once it is loaded. -/
theorem encodePass_load {ini : CIniFile} (hu : ini.username ≠ []) (hp : ini.password ≠ [])
    (cfg : XConfig) :
    (cfg.loadxHttpdAppConfig ini).backend.encodePass =
      if ini.username.length + 1 + ini.password.length ≤ 93 then ini.credentials else [] := by
  have hlen : ini.username.length > 0 ∧ ini.password.length > 0 :=
    ⟨List.length_pos_of_ne_nil hu, List.length_pos_of_ne_nil hp⟩
  rw [CIniFile.credentials, ← encodePass_eq]
  exact if_pos hlen

theorem credentials_ne_nil {ini : CIniFile} : ini.credentials ≠ [] := by
  refine List.ne_nil_of_length_pos ?_
  rw [CIniFile.credentials, length_base64Chars]
  simp [ascii]
  omega

/-- **The backend is guarded exactly when the password fits.**  With a user and a password
configured, every request to any route is guarded by them if and only if `user:pass` has at
most 93 bytes. -/
theorem backend_auth_iff (env : Env) (cfg : XConfig) {ini : CIniFile} (hu : ini.username ≠ [])
    (hp : ini.password ≠ []) :
    (∀ b now req, Guarded env (cfg.loadxHttpdAppConfig ini) ini.credentials b now req) ↔
      ini.username.length + 1 + ini.password.length ≤ 93 := by
  have hload := encodePass_load hu hp cfg
  constructor
  · intro h
    by_contra hn
    rw [if_neg hn] at hload
    -- with no encoded password everything is authorised
    obtain ⟨req, hm, hk, hh⟩ : ∃ req : EvhtpRequest, req.method = .delete ∧ uriKey req ≠ [] ∧
        req.headersIn = [] := ⟨{ method := .delete, full := ascii "/k" }, rfl, by decide, rfl⟩
    have ha : checkAuth env (cfg.loadxHttpdAppConfig ini) req = true := by
      rw [checkAuth, if_pos hload]
    obtain ⟨auth, -, hauth, -⟩ := (h ⟨{ db := ⟨.empty, []⟩ }, { db := ⟨.empty, []⟩ }⟩ 0 req).1
      (handle_delete ha hm hk 0 _)
    rw [hh, env.headerFind_nil] at hauth
    cases hauth
  · intro h b now req
    rw [if_pos h] at hload
    have hz : ∀ c ∈ ini.credentials, c ≠ 0 := fun c hc => ne_zero_of_mem_base64Chars hc
    rw [← hload] at hz ⊢
    exact guarded_of_encodePass (hload ▸ credentials_ne_nil) hz b now req

/-- The HTTP library on plain requests: callbacks by exact path, headers by name without regard
to case. -/
def plainEnv : Env where
  route path :=
    if path = ascii "/scan" then .keyScan
    else if path = ascii "/statistics" then .statistics
    else if path = ascii "/config" then .config
    else if path = ascii "/admin.htm" then .adminShell
    else .rest
  headerFind headers key := (headers.find? fun h => strcasecmpEq h.1 key).map (·.2)
  headerFind_nil _ := rfl
  multipart _ _ _ := none
  statusStr _ := []

/-- An ini file with a user and a password for the backend. -/
def backendIni (user pass : Bytes) : CIniFile :=
  ⟨[(ascii "xhttpd_backend", [(ascii "username", user), (ascii "password", pass)])]⟩

/-- A `PUT` of `v` under `k` without an `Authorization` header. -/
def plainPut : EvhtpRequest := { method := .put, full := ascii "/k", bufferIn := ascii "v" }

/-- A backend over two empty databases. -/
def freshBackend : XevHtpdBackend := ⟨{ db := ⟨.empty, []⟩ }, { db := ⟨.empty, []⟩ }⟩

theorem not_hasCredentials_plainPut (cred : Bytes) : ¬ HasCredentials plainEnv plainPut cred := by
  rintro ⟨_, _, h, _⟩
  cases h

/-- With no encoded password, the `PUT` writes. -/
theorem plainPut_of_open {cfg : XConfig} (h : cfg.backend.encodePass = []) :
    let r := handle plainEnv cfg 0 plainPut freshBackend
    r.response.status = EVHTP_RES_OK ∧ r.accesses = [.set false] ∧
      r.state.xdb.rows.get (encodeKey (.string (ascii "k"))) = some (leBytes 8 0 ++ ascii "v") := by
  have hroute : plainEnv.route plainPut.full = .rest := by decide
  have ha : checkAuth plainEnv cfg plainPut = true := by rw [checkAuth, if_pos h]
  simp only [handle, hroute, restCallback, ha]
  exact ⟨rfl, rfl, rfl⟩

/-- With a short password, the `PUT` is refused. -/
theorem backend_auth_short :
    (handle plainEnv (XConfig.loadxHttpdAppConfig {} (backendIni (ascii "admin") (ascii "secret")))
      0 plainPut freshBackend).response.status = EVHTP_RES_UNAUTH :=
  (((@backend_auth_iff plainEnv {} (backendIni (ascii "admin") (ascii "secret")) (by decide)
    (by decide)).mpr (by decide) freshBackend 0 plainPut).2 (not_hasCredentials_plainPut _)).1

/-- With a password of 88 bytes, the `PUT` writes. -/
theorem backend_auth_long :
    let ini := backendIni (ascii "admin") (List.replicate 88 112)
    let r := handle plainEnv (XConfig.loadxHttpdAppConfig {} ini) 0 plainPut freshBackend
    ¬ HasCredentials plainEnv plainPut ini.credentials ∧ r.response.status = EVHTP_RES_OK ∧
      r.accesses = [.set false] ∧
      r.state.xdb.rows.get (encodeKey (.string (ascii "k"))) = some (leBytes 8 0 ++ ascii "v") := by
  refine ⟨not_hasCredentials_plainPut _, plainPut_of_open ?_⟩
  rw [encodePass_load (by decide) (by decide), if_neg (by decide)]

end XHttpCache
