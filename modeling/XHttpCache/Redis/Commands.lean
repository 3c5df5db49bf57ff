import XHttpCache.Expire.Manager

/-!
# Redis — the commands

`src/xRedisServer.cpp`: one function a command, from the arguments, the database, the expiry
manager and the clock to what is sent back.  A command sends any number of replies, so its
replies are a list; each is one call of a `Send…Reply` function.

`DoCmd` finds the function in the table that `SystemCmdRegister` fills, without regard to case.
-/

namespace XHttpCache
open Support

/-- A call of `SendStatusReply`, `SendNullReply`, `SendErrReply`, `SendIntReply`,
`SendBulkReply` or `SendMultiBulkReply`. -/
inductive Reply where
  | status (str : Bytes)
  | null
  | err (errtype errmsg : Bytes)
  | int (ret : Int)
  | bulk (strResult : Bytes)
  | multiBulk (vResult : List Bytes)
  deriving DecidableEq

/-- `xRedisServer`. -/
structure XRedisServer where
  xdb : XDataBase
  expiremgr : ExpireManager := {}

/-- The value of a `ret_code`. -/
def RetCode.toInt : RetCode → Int
  | ok => 0
  | err => 1
  | null => 2

/-- `time_ms() + ttl_time_ms * 1000`. -/
def expiredAt (now : Int) (ttl : Bytes) : Int := i64 (now + i64 (strToInt64 ttl * 1000))

/-- `snprintf(ttl_data, sizeof(ttl_data), "%" PRId64, expired)`. -/
def ttlData (expired : Int) : Bytes := snprintf 30 (decimal expired)

namespace XRedisServer

variable (sv : XRedisServer) (now : Int)

/-- `xRedisServer::ProcessCmd_get`. -/
def processCmdGet : List Bytes → List Reply × XRedisServer
  | [_, key] =>
      match sv.xdb.get key with
      | (.ok, val, xdb) => ([.bulk val.strValue], { sv with xdb })
      | (.null, _, xdb) => ([.null], { sv with xdb })
      | (.err, _, xdb) => ([], { sv with xdb })
  | _ => ([.err (ascii "arg error") (ascii "arg error")], sv)

/-- `xRedisServer::ProcessCmd_set`, the form with `EX`. -/
def processCmdSetEx (key val ttl : Bytes) : List Reply × XRedisServer :=
  let expired := expiredAt now (cstr ttl)
  let xdb := (sv.xdb.set now key val).2
  let expiremgr := sv.expiremgr.setTTL key expired
  match xdb.zset expireKey key (ttlData expired) with
  | (.ok, xdb) => ([.status (ascii "OK")], ⟨xdb, expiremgr.setTTL key expired⟩)
  | (_, xdb) => ([.null], ⟨xdb, expiremgr⟩)

/-- `xRedisServer::ProcessCmd_set`. -/
def processCmdSet : List Bytes → List Reply × XRedisServer
  | [_, key, val] => ([.status (ascii "OK")], { sv with xdb := (sv.xdb.set now key val).2 })
  | [_, key, val, ex, ttl] =>
      if strcasecmpEq (ascii "ex") ex then sv.processCmdSetEx now key val ttl
      else ([.err (ascii "set error ") (ascii "argc error")], sv)
  | _ => ([.err (ascii "set error ") (ascii "argc error")], sv)

/-- `xRedisServer::ProcessCmd_del`. -/
def processCmdDel (argv : List Bytes) : List Reply × XRedisServer :=
  if argv.length ≠ 2 then ([.err (ascii "del error") (ascii "arg error")], sv)
  else
    let (retCount, xdb) := argv.tail.foldl (fun (retCount, xdb) key =>
      let (ret, xdb) := xdb.del key
      (if ret = .ok then retCount + 1 else retCount, xdb)) ((0 : Int), sv.xdb)
    ([.int retCount], { sv with xdb })

/-- `xRedisServer::ProcessCmd_expire`. -/
def processCmdExpire : List Bytes → List Reply × XRedisServer
  | [_, key, ttl] =>
      let expired := expiredAt now ttl
      -- `snprintf` returns the length it would have written
      if (decimal expired).length ≤ 0 then ([], sv)
      else
        match sv.xdb.get key with
        | (.ok, _, xdb) =>
            match xdb.zset expireKey key (ttlData expired) with
            | (.ok, xdb) => ([.int 1], ⟨xdb, sv.expiremgr.setTTL key expired⟩)
            | (_, xdb) => ([.int 0], { sv with xdb })
        | (_, _, xdb) => ([.int 0], { sv with xdb })
  | _ => ([.err (ascii "expire error") (ascii "arg error")], sv)

/-- `xRedisServer::ProcessCmd_ttl`. -/
def processCmdTtl : List Bytes → List Reply × XRedisServer
  | [_, key] =>
      match sv.xdb.zget expireKey key with
      | (.ok, score, xdb) =>
          ([.int ((i64 (strToInt64 score - now)).tdiv 1000)], { sv with xdb })
      | (.null, _, xdb) => ([.int (-2)], { sv with xdb })
      | (.err, _, xdb) => ([.int 0], { sv with xdb })
  | _ => ([.err (ascii "ttl error") (ascii "arg error")], sv)

/-- The arguments of a `SCAN`: start, end, limit, and whether what is found is deleted. -/
def scanArgs : List Bytes → Option (Bytes × Bytes × Int × Bool)
  | [_, start, stop, word, limit] =>
      if strcasecmpEq (ascii "limit") word then some (start, stop, atoi limit, false) else none
  | [_, start, stop, limit] =>
      if strcasecmpEq (ascii "limit") stop then some (start, [255], atoi limit, false)
      else if strcasecmpEq (ascii "del") limit then some (start, stop, INT_MAX, true)
      else none
  | [_, start, stop] => some (start, stop, INT_MAX, false)
  | [_, start] => some (start, [255], INT_MAX, false)
  | _ => none

/-- `xRedisServer::ProcessCmd_scan`. -/
def processCmdScan (argv : List Bytes) : List Reply × XRedisServer :=
  match scanArgs argv with
  | none => ([.err (ascii "scan error") (ascii "arg error")], sv)
  | some (start, stop, limit, delResult) =>
      let (ret, vResult, xdb) := sv.xdb.scanKey start stop limit
      if ret.toInt < 0 then ([.err (ascii "xdb error") (ascii "scankey error")], { sv with xdb })
      else if delResult then
        ([.int vResult.length], { sv with xdb := vResult.foldl (fun xdb key => (xdb.del key).2) xdb })
      else ([.multiBulk vResult], { sv with xdb })

/-- `xRedisServer::ProcessCmd_flushall`. -/
def processCmdFlushall : List Reply × XRedisServer :=
  match sv.xdb.flushall with
  | (.ok, xdb) => ([.status (ascii "OK")], { sv with xdb })
  | (_, xdb) => ([], { sv with xdb })

/-- The functions of the command table. -/
inductive CmdCallback where
  | set
  | get
  | del
  | expire
  | ttl
  | scan
  | flushall
  deriving DecidableEq

/-- `mCmdTables`, as `SystemCmdRegister` fills it. -/
def cmdTables : List (Bytes × CmdCallback) :=
  [(ascii "set", .set), (ascii "get", .get), (ascii "del", .del), (ascii "expire", .expire),
    (ascii "ttl", .ttl), (ascii "scan", .scan), (ascii "flushall", .flushall)]

/-- `xRedisServerBase::GetCmdProcessFun`. -/
def getCmdProcessFun (cmd : Bytes) : Option CmdCallback :=
  (cmdTables.find? fun entry => strcasecmpEq entry.1 cmd).map (·.2)

/-- A call of a function of the table. -/
def call (argv : List Bytes) : CmdCallback → List Reply × XRedisServer
  | .set => sv.processCmdSet now argv
  | .get => sv.processCmdGet argv
  | .del => sv.processCmdDel argv
  | .expire => sv.processCmdExpire now argv
  | .ttl => sv.processCmdTtl now argv
  | .scan => sv.processCmdScan argv
  | .flushall => sv.processCmdFlushall

/-- `xRedisServerBase::DoCmd`, less `FreeArg`, which is the connector's.  It is never called
without an argument. -/
def doCmd (argv : List Bytes) : List Reply × XRedisServer :=
  match argv with
  | [] => ([], sv)
  | cmd :: _ =>
      match getCmdProcessFun cmd with
      | some cb => sv.call now argv cb
      | none => ([.err (cstr cmd) (ascii "not suport")], sv)

end XRedisServer

end XHttpCache
