import XHttpCache.Support.Libc

/-!
# Http — the configuration and the encoded password

`common/xIniFile.cpp`, as far as values are looked up, `src/xConfig.cpp` and, from
`common/util.cpp`, `base64_encode` and `encode_pass`.

`encode_pass` encodes `user:pass` into a buffer of 128 bytes and does not look at what
`base64_encode` returns.  `encodePass_eq` says what comes of it: the encoding while it fits, and
the empty string from 94 bytes of `user:pass` on.
-/

namespace XHttpCache
open Support

/-! ### The ini file -/

/-- `CIniFile`: its keys, each with its values by name.  Comments are left out. -/
structure CIniFile where
  keys : List (Bytes × List (Bytes × Bytes))

namespace CIniFile

/-- `CIniFile::CheckCase`; names are looked up without regard to case. -/
def checkCase (s : Bytes) : Bytes := s.map tolower

/-- `CIniFile::FindKey`, and the values of the key. -/
def findKey (ini : CIniFile) (keyname : Bytes) : Option (List (Bytes × Bytes)) :=
  (ini.keys.find? fun k => checkCase k.1 = checkCase keyname).map (·.2)

/-- `CIniFile::FindValue`, and the value. -/
def findValue (values : List (Bytes × Bytes)) (valuename : Bytes) : Option Bytes :=
  (values.find? fun v => checkCase v.1 = checkCase valuename).map (·.2)

/-- `CIniFile::GetValue`. -/
def getValue (ini : CIniFile) (keyname valuename : Bytes) (defValue : Bytes := []) : Bytes :=
  match ini.findKey keyname with
  | none => defValue
  | some values => (findValue values valuename).getD defValue

/-- `CIniFile::GetValueI`. -/
def getValueI (ini : CIniFile) (keyname valuename : Bytes) (defValue : Int := 0) : Int :=
  atoi (ini.getValue keyname valuename (decimal defValue))

/-- `CIniFile::GetValueB`. -/
def getValueB (ini : CIniFile) (keyname valuename : Bytes) (defValue : Bool := false) : Bool :=
  ini.getValueI keyname valuename (if defValue then 1 else 0) ≠ 0

end CIniFile

/-! ### `base64_encode` -/

/-- `codes`. -/
def codes : Bytes := ascii "ABCDEFGHIJKLMNOPQRSTUVWXYZabcdefghijklmnopqrstuvwxyz0123456789+/"

/-- `codes[n & 0x3F]`. -/
def code (n : Nat) : Byte := codes.getD (n &&& 0x3F) 0

/-- The characters `base64_encode` writes, three input bytes at a time. -/
def base64Chars : Bytes → Bytes
  | a :: b :: c :: rest =>
      code (a.val >>> 2) :: code (((a.val &&& 3) <<< 4) + (b.val >>> 4)) ::
        code (((b.val &&& 0xf) <<< 2) + (c.val >>> 6)) :: code c.val :: base64Chars rest
  | [a, b] =>
      [code (a.val >>> 2), code (((a.val &&& 3) <<< 4) + (b.val >>> 4)),
        code ((b.val &&& 0xf) <<< 2), 61]
  | [a] => [code (a.val >>> 2), code ((a.val &&& 3) <<< 4), 61, 61]
  | [] => []

/-- `base64_encode`: what it returns, the buffer `out` after it, and `outlen`. -/
def base64Encode (input out : Bytes) (outlen : Nat) : Int × Bytes × Nat :=
  let len2 := 4 * ((input.length + 2) / 3)
  if outlen < len2 + 1 then (-1, out, len2 + 1)
  else
    let chars := base64Chars input
    (0, chars ++ 0 :: out.drop (chars.length + 1), chars.length)

/-- `encode_pass`: the string it assigns. -/
def encodePass (user pass : Bytes) : Bytes :=
  let strKey := user ++ ascii ":" ++ pass
  let userKey := List.replicate 128 0
  let (_, userKey, _) := base64Encode strKey userKey userKey.length
  cstr userKey

/-! ### The configuration -/

/-- `CACHE_CONFIG`; nothing reads or writes `redis_passwd`. -/
structure CacheConfig where
  logFilename : Bytes := []
  logFilesize : Nat := 0
  logLevel : Bytes := []
  runDaemonize : Int := 0
  runGuard : Int := 0
  debug : Int := 0
  redisIp : Bytes := []
  redisPort : Int := 0

/-- `HTTP_FRONTEND_CONFIG`. -/
structure HttpFrontendConfig where
  ip : Bytes := []
  port : Int := 0
  threads : Int := 0
  timeout : Int := 0
  gzip : Int := 0
  etag : Int := 0
  etagCacheCount : Int := 0
  etagCacheSize : Int := 0
  pemfile : Bytes := []
  privfile : Bytes := []
  sslTimeout : Int := 0
  defaultIndex : Bytes := []

/-- `HTTP_BACKEND_CONFIG`. -/
structure HttpBackendConfig where
  ip : Bytes := []
  port : Int := 0
  threads : Int := 0
  timeout : Int := 0
  username : Bytes := []
  password : Bytes := []
  encodePass : Bytes := []
  pemfile : Bytes := []
  privfile : Bytes := []
  sslTimeout : Int := 0
  maxUploadFileSize : Int := 0

/-- `ROCKSDB_CONFIG`. -/
structure RocksdbConfig where
  dbBaseDir : Bytes := []
  createIfMissing : Bool := false
  maxOpenFiles : Int := 0
  maxFileOpeningThreads : Int := 0
  maxTotalWalSize : Nat := 0
  dbLogDir : Bytes := []
  writeBufferSize : Nat := 0
  compression : Bool := false
  ttl : Nat := 0

/-- `xConfig`. -/
structure XConfig where
  app : CacheConfig := {}
  frontend : HttpFrontendConfig := {}
  backend : HttpBackendConfig := {}
  db : RocksdbConfig := {}

namespace XConfig

/-- The `[xhttpcache]` part of `LoadxHttpdAppConfig`. -/
def loadApp (ini : CIniFile) : CacheConfig where
  redisIp := ini.getValue (ascii "xhttpcache") (ascii "redis_ip")
  redisPort := ini.getValueI (ascii "xhttpcache") (ascii "redis_port")
  debug := ini.getValueI (ascii "xhttpcache") (ascii "debug")
  logFilename := ini.getValue (ascii "xhttpcache") (ascii "log_filename")
  logFilesize := u64 (ini.getValueI (ascii "xhttpcache") (ascii "log_filesize"))
  logLevel := (ini.getValue (ascii "xhttpcache") (ascii "log_level")).map toupper
  runDaemonize := ini.getValueI (ascii "xhttpcache") (ascii "daemonize")
  runGuard := ini.getValueI (ascii "xhttpcache") (ascii "guard")

/-- The `[xhttpd_frontend]` part of `LoadxHttpdAppConfig`; the sizes of the ETag cache are
looked up under `[xhttpcache]`. -/
def loadFrontend (ini : CIniFile) : HttpFrontendConfig where
  ip := ini.getValue (ascii "xhttpd_frontend") (ascii "ip")
  port := ini.getValueI (ascii "xhttpd_frontend") (ascii "port")
  threads := ini.getValueI (ascii "xhttpd_frontend") (ascii "threads")
  timeout := ini.getValueI (ascii "xhttpd_frontend") (ascii "timeout")
  gzip := ini.getValueI (ascii "xhttpd_frontend") (ascii "gzip")
  etag := ini.getValueI (ascii "xhttpd_frontend") (ascii "etag") 1
  etagCacheCount := ini.getValueI (ascii "xhttpcache") (ascii "etag_cache_count") 4
  etagCacheSize :=
    let size := ini.getValueI (ascii "xhttpcache") (ascii "etag_cache_size") 1000
    if size = 0 then 1000 else size
  pemfile := ini.getValue (ascii "xhttpd_frontend") (ascii "pemfile")
  privfile := ini.getValue (ascii "xhttpd_frontend") (ascii "privfile")
  sslTimeout := ini.getValueI (ascii "xhttpd_frontend") (ascii "ssl_timeout") 5
  defaultIndex := ini.getValue (ascii "xhttpd_frontend") (ascii "default_index")

/-- The `[xhttpd_backend]` part of `LoadxHttpdAppConfig`, over the configuration `old`, whose
`encode_pass` stays when the user or the password is empty. -/
def loadBackend (old : HttpBackendConfig) (ini : CIniFile) : HttpBackendConfig :=
  let username := ini.getValue (ascii "xhttpd_backend") (ascii "username")
  let password := ini.getValue (ascii "xhttpd_backend") (ascii "password")
  let size := ini.getValueI (ascii "xhttpd_backend") (ascii "max_upload_file_size") 10
  { ip := ini.getValue (ascii "xhttpd_backend") (ascii "ip")
    port := ini.getValueI (ascii "xhttpd_backend") (ascii "port")
    threads := ini.getValueI (ascii "xhttpd_backend") (ascii "threads")
    timeout := ini.getValueI (ascii "xhttpd_backend") (ascii "timeout")
    username
    password
    pemfile := ini.getValue (ascii "xhttpd_backend") (ascii "pemfile")
    privfile := ini.getValue (ascii "xhttpd_backend") (ascii "privfile")
    sslTimeout := ini.getValueI (ascii "xhttpd_backend") (ascii "ssl_timeout") 5
    maxUploadFileSize := if size > 0 then i32 (size * 1024) else 128 * 1024
    encodePass :=
      if username.length > 0 ∧ password.length > 0 then XHttpCache.encodePass username password
      else old.encodePass }

/-- `xConfig::LoadxHttpdAppConfig`. -/
def loadxHttpdAppConfig (cfg : XConfig) (ini : CIniFile) : XConfig :=
  { cfg with
    app := loadApp ini
    frontend := loadFrontend ini
    backend := loadBackend cfg.backend ini }

/-- `xConfig::LoadxDBConfig`. -/
def loadxDBConfig (cfg : XConfig) (ini : CIniFile) : XConfig :=
  { cfg with
    db :=
      { dbBaseDir := ini.getValue (ascii "rocksdb") (ascii "db_base_dir")
        createIfMissing := ini.getValueB (ascii "rocksdb") (ascii "create_if_missing")
        maxOpenFiles := ini.getValueI (ascii "rocksdb") (ascii "max_open_files")
        maxFileOpeningThreads := ini.getValueI (ascii "rocksdb") (ascii "max_file_opening_threads")
        maxTotalWalSize := u64 (ini.getValueI (ascii "rocksdb") (ascii "max_total_wal_size"))
        dbLogDir := ini.getValue (ascii "rocksdb") (ascii "db_log_dir")
        writeBufferSize := u64 (ini.getValueI (ascii "rocksdb") (ascii "write_buffer_size"))
        compression := ini.getValueB (ascii "rocksdb") (ascii "compression")
        ttl := if ini.getValueB (ascii "rocksdb") (ascii "ttl") then 1 else 0 } }

end XConfig

/-! ### What `encode_pass` assigns -/

theorem length_base64Chars : ∀ s : Bytes, (base64Chars s).length = 4 * ((s.length + 2) / 3)
  | [] => by simp [base64Chars]
  | [_] => by simp [base64Chars]
  | [_, _] => by simp [base64Chars]
  | _ :: _ :: _ :: rest => by
      simp only [base64Chars, List.length_cons, length_base64Chars rest]
      omega

theorem ne_zero_of_mem_codes : ∀ c ∈ codes, c ≠ 0 := by
  intro c hc
  have hall : codes.all (· != 0) = true := by decide
  simpa using List.all_eq_true.mp hall c hc

theorem code_ne_zero (n : Nat) : code n ≠ 0 := by
  have hlen : n &&& 0x3F < codes.length := Nat.lt_of_le_of_lt Nat.and_le_right (by decide)
  rw [code, List.getD_eq_getElem _ _ hlen]
  exact ne_zero_of_mem_codes _ (List.getElem_mem hlen)

theorem ne_zero_of_mem_base64Chars : ∀ {s : Bytes} {c : Byte}, c ∈ base64Chars s → c ≠ 0
  | [], c, h => by cases h
  | [a], c, h => by
      simp only [base64Chars, List.mem_cons, List.not_mem_nil, or_false] at h
      rcases h with rfl | rfl | rfl | rfl
      · exact code_ne_zero _
      · exact code_ne_zero _
      · decide
      · decide
  | [a, b], c, h => by
      simp only [base64Chars, List.mem_cons, List.not_mem_nil, or_false] at h
      rcases h with rfl | rfl | rfl | rfl
      · exact code_ne_zero _
      · exact code_ne_zero _
      · exact code_ne_zero _
      · decide
  | a :: b :: d :: rest, c, h => by
      simp only [base64Chars, List.mem_cons] at h
      rcases h with rfl | rfl | rfl | rfl | h
      · exact code_ne_zero _
      · exact code_ne_zero _
      · exact code_ne_zero _
      · exact code_ne_zero _
      · exact ne_zero_of_mem_base64Chars h

theorem cstr_append_zero {s : Bytes} (h : ∀ c ∈ s, c ≠ 0) (t : Bytes) : cstr (s ++ 0 :: t) = s := by
  rw [cstr, List.takeWhile_append_of_pos fun c hc => by simpa using h c hc]
  simp

/-- **What `encode_pass` assigns**: the encoding, if `user:pass` has at most 93 bytes, and
otherwise the empty string. -/
theorem encodePass_eq (user pass : Bytes) :
    encodePass user pass =
      if user.length + 1 + pass.length ≤ 93 then base64Chars (user ++ ascii ":" ++ pass)
      else [] := by
  have hlen : (user ++ ascii ":" ++ pass).length = user.length + 1 + pass.length := by
    simp [ascii]
    omega
  simp only [encodePass, base64Encode, hlen, List.length_replicate]
  by_cases h : user.length + 1 + pass.length ≤ 93
  · rw [if_neg (by omega), if_pos h]
    exact cstr_append_zero (fun c hc => ne_zero_of_mem_base64Chars hc) _
  · rw [if_pos (by omega), if_neg h]
    rfl

end XHttpCache
