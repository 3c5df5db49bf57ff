import XHttpCache.Server.Events
import XHttpCache.Support.Traces

/-!
# Server — the server as a cache

What the server is for: a map from keys to values in the order of the keys, some of which have a
deadline, and a second map that only the backend sees.  There are no rows, no encodings, no score
index and no window here.

`Cache.answer` is what a Redis command does and answers, `Cache.serve` what a request to the backend
does, and `Cache.Step` adds the expiry loop, of which it only says that it may take a key whose time
has come.  Some of this is not what one would ask of a cache, and is as the program does it: a plain
`SET` and a `DEL` leave the deadline of the key; a `SET .. EX` with the deadline that is recorded
stores the value and answers null; after a `FLUSHALL` a key may be taken at a deadline that was given
to it before, which is why the deadlines that were ever given are part of the state.

A key that was never given a deadline has none until it is given one (`Unarmed.step`), and what
neither writes nor deletes such a key leaves its value (`Unarmed.get_step`).
-/

namespace XHttpCache
open Support

/-! ### The cache -/

/-- Keys with their values, those of the backend's own database, the deadlines that are recorded, and
the deadlines that have been given. -/
structure Cache where
  values : OrderedMap Bytes XValue := .empty
  sys : OrderedMap Bytes XValue := .empty
  deadlines : Bytes → Option Int := fun _ => none
  given : List (Bytes × Int) := []

/-- What a Redis client asks for. -/
inductive Request where
  | get (key : Bytes)
  | set (key val : Bytes)
  | setEx (key val secs : Bytes)
  | del (key : Bytes)
  | expire (key secs : Bytes)
  | ttl (key : Bytes)
  | scan (start stop : Bytes) (limit : Int)
  | scanDel (start stop : Bytes) (limit : Int)
  | flushall
  /-- The command is not known, or its arguments are wrong. -/
  | refused (r : Reply)

/-- The request that a `SET` makes. -/
def Request.ofSet : List Bytes → Request
  | [key, val] => .set key val
  | [key, val, ex, secs] =>
      if strcasecmpEq (ascii "ex") ex then .setEx key val secs
      else .refused (.err (ascii "set error ") (ascii "argc error"))
  | _ => .refused (.err (ascii "set error ") (ascii "argc error"))

/-- The request that a `SCAN` makes. -/
def Request.ofScan (argv : List Bytes) : Request :=
  match XRedisServer.scanArgs argv with
  | some (start, stop, limit, true) => .scanDel start stop limit
  | some (start, stop, limit, false) => .scan start stop limit
  | none => .refused (.err (ascii "scan error") (ascii "arg error"))

/-- The request that a command of the table makes with its arguments. -/
def Request.ofCall (cmd : Bytes) (args : List Bytes) : XRedisServer.CmdCallback → Request
  | .set => .ofSet args
  | .get =>
      match args with
      | [key] => .get key
      | _ => .refused (.err (ascii "arg error") (ascii "arg error"))
  | .del =>
      match args with
      | [key] => .del key
      | _ => .refused (.err (ascii "del error") (ascii "arg error"))
  | .expire =>
      match args with
      | [key, secs] => .expire key secs
      | _ => .refused (.err (ascii "expire error") (ascii "arg error"))
  | .ttl =>
      match args with
      | [key] => .ttl key
      | _ => .refused (.err (ascii "ttl error") (ascii "arg error"))
  | .scan => .ofScan (cmd :: args)
  | .flushall => .flushall

/-- The request that a command makes. -/
def Request.ofArgv : List Bytes → Request
  | [] => .refused .null
  | cmd :: args =>
      match XRedisServer.getCmdProcessFun cmd with
      | some cb => .ofCall cmd args cb
      | none => .refused (.err (cstr cmd) (ascii "not suport"))

/-- The keys from `start` on and before `stop`. -/
def keysBetween (m : OrderedMap Bytes XValue) (start stop : Bytes) : List Bytes :=
  (m.rows.map (·.1)).filter fun k => start ≤ k ∧ k < stop

namespace Cache

variable (c : Cache) (now : Int)

/-- A value is stored. -/
def store (key val : Bytes) : Cache :=
  { c with values := c.values.insert key ⟨getCurrentTime now, val⟩ }

/-- A value is deleted, and not its deadline. -/
def remove (key : Bytes) : Cache := { c with values := c.values.erase key }

/-- A key is given a deadline. -/
def arm (key : Bytes) (d : Int) : Cache :=
  { c with deadlines := Function.update c.deadlines key (some d), given := (key, d) :: c.given }

/-- A key expires. -/
def expire (key : Bytes) : Cache :=
  { c.remove key with deadlines := Function.update c.deadlines key none }

/-- What a Redis command is answered, and what it does. -/
def answer : Request → Reply × Cache
  | .get key => ((c.values.get key).elim .null fun v => .bulk v.strValue, c)
  | .set key val => (.status (ascii "OK"), c.store now key val)
  | .setEx key val secs =>
      if c.deadlines key = some (expiredAt now (cstr secs)) then (.null, c.store now key val)
      else (.status (ascii "OK"), (c.store now key val).arm key (expiredAt now (cstr secs)))
  | .del key => (.int 1, c.remove key)
  | .expire key secs =>
      if c.values.get key = none ∨ c.deadlines key = some (expiredAt now secs) then (.int 0, c)
      else (.int 1, c.arm key (expiredAt now secs))
  | .ttl key => ((c.deadlines key).elim (.int (-2)) fun d => .int ((i64 (d - now)).tdiv 1000), c)
  | .scan start stop limit => (.multiBulk ((keysBetween c.values start stop).take limit.toNat), c)
  | .scanDel start stop limit =>
      let keys := (keysBetween c.values start stop).take limit.toNat
      (.int keys.length, keys.foldl remove c)
  | .flushall => (.status (ascii "OK"), { c with values := .empty, deadlines := fun _ => none })
  | .refused r => (r, c)

/-- `GET`, `PUT`, `POST` and `DELETE` of a key, on one of the maps. -/
def restful (env : Env) (cfg : XConfig) (req : EvhtpRequest) (hs : List (Bytes × Bytes))
    (m : OrderedMap Bytes XValue) : Response × OrderedMap Bytes XValue :=
  match req.method with
  | .get =>
      ((m.get (uriKey req)).elim (sendStatusResphone hs EVHTP_RES_NOTFOUND (ascii "NOT FOUND"))
        fun v => sendHttpResphone hs v.strValue, m)
  | .post | .put =>
      (sendStatusResphone hs EVHTP_RES_OK (ascii "OK"),
        m.insert (uriKey req) ⟨getCurrentTime now, postValue env cfg req⟩)
  | .delete => (sendStatusResphone hs EVHTP_RES_ACCEPTED (ascii "OK"), m.erase (uriKey req))
  | .other => (sendStatusResphone hs EVHTP_RES_BADREQ (ascii "BADREQUEST"), m)

/-- A request on the map that `sys` selects. -/
def onMap (sys : Bool)
    (f : OrderedMap Bytes XValue → Response × OrderedMap Bytes XValue) : Response × Cache :=
  if sys then ((f c.sys).1, { c with sys := (f c.sys).2 })
  else ((f c.values).1, { c with values := (f c.values).2 })

/-- What a request to the backend that is authorised is answered, and what it does; `status` is what
RocksDB says of itself. -/
def serveRoute (env : Env) (cfg : XConfig) (req : EvhtpRequest) (status : Bytes) :
    Route → Response × Cache
  | .keyScan =>
      c.onMap (wantsSysdb req) fun m =>
        (sendHttpResphone [(ascii "Content-Type", ascii "text/json; charset=UTF-8")]
          (fastWrite (.appended ((keysBetween m ((uriArgFind req (ascii "key")).getD []) [255]).take
            (atoi ((uriArgFind req (ascii "limit")).getD (ascii "1000"))).toNat))), m)
  | .statistics => (sendHttpResphone [(ascii "Content-Type", ascii "text/plain")] status, c)
  | .config =>
      (sendHttpResphone [(ascii "Content-Type", ascii "text/json")] (fastWrite (configJson cfg)), c)
  | .adminShell =>
      c.onMap true
        (restful now env cfg req [(ascii "Content-Type", guessContentType (uriKey req))])
  | .rest =>
      let type := [(ascii "Content-Type", guessContentType (uriKey req))]
      if uriKey req = [] then
        (sendStatusResphone type EVHTP_RES_NOTFOUND (ascii "NOT FOUND"), c)
      else c.onMap (wantsSysdb req) (restful now env cfg req type)

/-- What a request to the backend is answered, and what it does. -/
def serve (env : Env) (cfg : XConfig) (req : EvhtpRequest) (status : Bytes) : Response × Cache :=
  if checkAuth env cfg req then c.serveRoute now env cfg req status (env.route req.full)
  else
    (unauthResphone (if env.route req.full = .rest then
      [(ascii "Content-Type", guessContentType (uriKey req))] else []), c)

/-- The time of `key` has come: the deadline that it has, or, when it has none, one that it was
given. -/
def Due (key : Bytes) : Prop :=
  ∃ d ≤ now, (key, d) ∈ c.given ∧ (c.deadlines key = none ∨ c.deadlines key = some d)

/-- What an event may do. -/
inductive Step (env : Env) (cfg : XConfig) (c : Cache) : Event → Output → Cache → Prop where
  | redis (now : Int) (argv : List Bytes) :
      Step env cfg c (.redis now argv) (.replies [(c.answer now (.ofArgv argv)).1])
        (c.answer now (.ofArgv argv)).2
  | http (now : Int) (req : EvhtpRequest) (status : Bytes) :
      Step env cfg c (.http now req) (.response (c.serve now env cfg req status).1)
        (c.serve now env cfg req status).2
  | waits (now : Int) : Step env cfg c (.expireLoop now) .silent c
  | expires (now : Int) (key : Bytes) (h : c.Due now key) :
      Step env cfg c (.expireLoop now) .silent (c.expire key)

end Cache

/-! ### A key that is left alone -/

/-- The request gives `k` a deadline, or tries to. -/
def Request.Arms (k : Bytes) : Request → Prop
  | .setEx key _ _ | .expire key _ => key = k
  | _ => False

/-- The request neither writes nor deletes `k`, nor gives it a deadline. -/
def Request.Spares (k : Bytes) : Request → Prop
  | .set key _ | .setEx key _ _ | .del key | .expire key _ => key ≠ k
  | .scanDel start stop _ => ¬ (start ≤ k ∧ k < stop)
  | .flushall => False
  | _ => True

/-- The event gives `k` a deadline, or tries to. -/
def Event.Arms (k : Bytes) : Event → Prop
  | .redis _ argv => (Request.ofArgv argv).Arms k
  | .http _ _ | .expireLoop _ => False

/-- The event neither writes nor deletes `k`, nor gives it a deadline. -/
def Event.Spares (k : Bytes) : Event → Prop
  | .redis _ argv => (Request.ofArgv argv).Spares k
  | .http _ req => uriKey req = k → req.method = .get ∨ req.method = .other
  | .expireLoop _ => True

theorem Request.Spares.not_arms {k : Bytes} {req : Request} (h : req.Spares k) : ¬ req.Arms k := by
  cases req <;> first | exact h | exact id

theorem Event.Spares.not_arms {k : Bytes} {ev : Event} (h : ev.Spares k) : ¬ ev.Arms k := by
  cases ev with
  | redis now argv => exact Request.Spares.not_arms h
  | http now req => exact id
  | expireLoop now => exact id

namespace Cache

variable {c c' : Cache} {k v : Bytes} {now : Int} {env : Env} {cfg : XConfig}

/-- `k` has no deadline, and was never given one. -/
structure Unarmed (k : Bytes) (c : Cache) : Prop where
  none : c.deadlines k = none
  never : ∀ d, (k, d) ∉ c.given

theorem unarmed_empty (k : Bytes) : Unarmed k {} := ⟨rfl, fun _ => List.not_mem_nil⟩

theorem Unarmed.congr (h : c.Unarmed k) (hd : c'.deadlines = c.deadlines)
    (hg : c'.given = c.given) : c'.Unarmed k :=
  ⟨by rw [hd]; exact h.none, by rw [hg]; exact h.never⟩

/-- Another key is given a deadline. -/
theorem Unarmed.arm (h : c.Unarmed k) {key : Bytes} (hne : key ≠ k) (d : Int) :
    (c.arm key d).Unarmed k where
  none := (Function.update_of_ne hne.symm _ _).trans h.none
  never d' := by
    rw [Cache.arm, List.mem_cons, Prod.mk.injEq, not_or]
    exact ⟨fun he => hne he.1.symm, h.never d'⟩

theorem foldl_remove (keys : List Bytes) (c : Cache) :
    (keys.foldl remove c).deadlines = c.deadlines ∧ (keys.foldl remove c).given = c.given ∧
      (k ∉ keys → (keys.foldl remove c).values.get k = c.values.get k) := by
  induction keys generalizing c with
  | nil => exact ⟨rfl, rfl, fun _ => rfl⟩
  | cons key keys ih =>
      obtain ⟨hd, hg, hv⟩ := ih (c.remove key)
      refine ⟨hd, hg, fun hk => ?_⟩
      obtain ⟨hne, hk⟩ := not_or.mp (List.mem_cons.not.mp hk)
      exact (hv hk).trans (OrderedMap.get_erase_ne _ hne)

/-- Only a command that arms `k` gives it a deadline. -/
theorem Unarmed.answer (h : c.Unarmed k) {req : Request} (hreq : ¬ req.Arms k) :
    (c.answer now req).2.Unarmed k := by
  cases req with
  | setEx key val secs =>
      rw [Cache.answer]
      split_ifs
      · exact h.congr rfl rfl
      · have hstore : (c.store now key val).Unarmed k := h.congr rfl rfl
        exact hstore.arm hreq _
  | expire key secs =>
      rw [Cache.answer]
      split_ifs
      · exact h
      · exact h.arm hreq _
  | scanDel start stop limit =>
      obtain ⟨hd, hg, -⟩ := foldl_remove (k := k)
        ((keysBetween c.values start stop).take limit.toNat) c
      exact h.congr hd hg
  | flushall => exact ⟨rfl, h.never⟩
  | set key val => exact h.congr rfl rfl
  | del key => exact h.congr rfl rfl
  | get key => exact h
  | ttl key => exact h
  | scan start stop limit => exact h
  | refused r => exact h

/-- A request to the backend leaves all as it is, or is one on a key of one of the maps. -/
theorem serve_elim {P : Cache → Prop} {req : EvhtpRequest} (hc : P c)
    (hmap : ∀ sys hs, P (c.onMap sys (restful now env cfg req hs)).2) (status : Bytes) :
    P (c.serve now env cfg req status).2 := by
  rw [serve]
  cases checkAuth env cfg req with
  | false => exact hc
  | true =>
      rw [if_pos rfl]
      cases env.route req.full with
      | keyScan =>
          rw [serveRoute]
          cases wantsSysdb req <;> exact hc
      | statistics => exact hc
      | config => exact hc
      | adminShell => exact hmap _ _
      | rest =>
          rw [serveRoute]
          split_ifs
          · exact hc
          · exact hmap _ _

/-- **What does not arm a key** leaves it without a deadline. -/
theorem Unarmed.step (h : c.Unarmed k) {ev : Event} {o : Output} (hev : ¬ ev.Arms k)
    (hs : Step env cfg c ev o c') : c'.Unarmed k := by
  cases hs with
  | redis now argv => exact h.answer hev
  | http now req status =>
      refine serve_elim (P := Unarmed k) h (fun sys hs => ?_) status
      cases sys <;> exact h.congr rfl rfl
  | waits now => exact h
  | expires now key hdue =>
      refine ⟨(Function.update_apply ..).trans ?_, h.never⟩
      split_ifs
      · rfl
      · exact h.none

/-- A command that spares `k` leaves its value. -/
theorem get_answer {req : Request} (hreq : req.Spares k) :
    (c.answer now req).2.values.get k = c.values.get k := by
  cases req with
  | set key val => exact OrderedMap.get_insert_ne _ _ (Ne.symm hreq)
  | setEx key val secs =>
      rw [answer]
      split_ifs <;> exact OrderedMap.get_insert_ne _ _ (Ne.symm hreq)
  | del key => exact OrderedMap.get_erase_ne _ (Ne.symm hreq)
  | expire key secs =>
      rw [answer]
      split_ifs <;> rfl
  | scanDel start stop limit =>
      refine (foldl_remove _ c).2.2 fun hk => hreq ?_
      simpa using (List.mem_filter.mp (List.mem_of_mem_take hk)).2
  | flushall => exact hreq.elim
  | get key => rfl
  | ttl key => rfl
  | scan start stop limit => rfl
  | refused r => rfl

/-- A request that spares `k` leaves its value. -/
theorem get_restful {req : EvhtpRequest}
    (hreq : uriKey req = k → req.method = .get ∨ req.method = .other) (hs : List (Bytes × Bytes))
    (m : OrderedMap Bytes XValue) : (restful now env cfg req hs m).2.get k = m.get k := by
  by_cases hk : uriKey req = k
  · rw [restful]
    rcases hreq hk with hmethod | hmethod <;> rw [hmethod]
  · rw [restful]
    cases req.method with
    | get => rfl
    | post => exact OrderedMap.get_insert_ne _ _ (Ne.symm hk)
    | put => exact OrderedMap.get_insert_ne _ _ (Ne.symm hk)
    | delete => exact OrderedMap.get_erase_ne _ (Ne.symm hk)
    | other => rfl

/-- **What spares a key without a deadline** leaves its value. -/
theorem Unarmed.get_step (h : c.Unarmed k) {ev : Event} {o : Output} (hev : ev.Spares k)
    (hs : Step env cfg c ev o c') : c'.values.get k = c.values.get k := by
  cases hs with
  | redis now argv => exact get_answer hev
  | http now req status =>
      refine serve_elim (P := fun c' => c'.values.get k = c.values.get k) rfl (fun sys hs => ?_) status
      cases sys with
      | true => rfl
      | false => exact get_restful hev hs c.values
  | waits now => rfl
  | expires now key hdue =>
      obtain ⟨d, -, hd, -⟩ := hdue
      refine OrderedMap.get_erase_ne _ fun he => h.never d ?_
      rw [he]
      exact hd

end Cache

end XHttpCache
