import XHttpCache.Server.Deletion

/-!
# Server — two threads

The Redis thread runs the commands and the expiry thread runs `ExpireManager::Dispatch`; they
share the database, `sort_set` and `first_timeout`, and nothing keeps them apart.  Here a step is
one call of `xDataBase`, one call of `SortedSet` or one access to `first_timeout`.  What a thread
does between two steps touches nothing shared and belongs to the step before, the reply included.

A thread is at the step it takes next: `RedisPc`, within `SetTTL` a `SetTTLPc`, and `ExpiryPc`.
`step` is one step of either thread or of the clock, and `run step` an interleaving.

A command that runs without the other thread is `doCmd` (`command_steps`), and an iteration is
`expireLoop` (`iteration_steps`): the threads are the atomic operations, cut into steps.
-/

namespace XHttpCache
open Support

/-! ### Where the threads are -/

/-- The next step of `SetTTL(key, ttl)`. -/
inductive SetTTLPc where
  /-- `if (ttl < first_timeout)` -/
  | readFirst
  /-- `first_timeout = ttl` -/
  | writeFirst
  /-- `!sort_set.empty() &&` -/
  | empty
  /-- `ttl <= sort_set.max_score()` -/
  | maxScore
  /-- `sort_set.add(key, ttl)` -/
  | add
  /-- `if (sort_set.size() > BATCH_SIZE)` -/
  | size
  /-- `sort_set.pop_back()` -/
  | popBack
  /-- `sort_set.del(key)` -/
  | del
  deriving DecidableEq

/-- The two commands that record a deadline. -/
inductive Arming where
  | setEx
  | expire
  deriving DecidableEq

/-- The next step of the Redis thread. -/
inductive RedisPc where
  /-- No command is in progress. -/
  | idle
  /-- `xdb->Set`, in `SET .. EX` -/
  | set (key val : Bytes) (expired : Int)
  /-- `xdb->Get`, in `EXPIRE` -/
  | get (key : Bytes) (expired : Int)
  /-- `xdb->Zset` -/
  | zset (cmd : Arming) (key : Bytes) (expired : Int)
  /-- `expiremgr->SetTTL`: the last call of `cmd`, or else the first of `SET .. EX` -/
  | setTTL (cmd : Option Arming) (key : Bytes) (expired : Int) (pc : SetTTLPc)
  /-- `xdb->Del` of `key`, in `SCAN .. DEL`, with `keys` to follow and the reply `count` -/
  | delScanned (key : Bytes) (keys : List Bytes) (count : Nat)
  deriving DecidableEq

/-- The next step of the expiry thread. -/
inductive ExpiryPc where
  /-- `if (first_timeout > time_ms())`, in `Dispatch`: no iteration is in progress. -/
  | dispatch
  /-- `if (sort_set.empty())` -/
  | empty
  /-- `LoadExpirationKeys(BATCH_SIZE)` -/
  | load
  /-- `if (sort_set.empty())`, after the load -/
  | emptyAgain
  /-- `first_timeout = INT64_MAX` -/
  | writeMax
  /-- `if (sort_set.front(&key, &score))` -/
  | front
  /-- `first_timeout = score` -/
  | writeFirst (key : Bytes) (score : Int)
  /-- `if (score <= time_ms())` -/
  | clock (key : Bytes) (score : Int)
  /-- `xdb->Del(key)` -/
  | del (key : Bytes)
  /-- `xdb->Zdel(expire_key, key)` -/
  | zdel (key : Bytes)
  /-- `sort_set.pop_front()` -/
  | popFront
  deriving DecidableEq

/-- The two threads, what they share, and the clock.

`promised` is no part of the program: it is the deadline that the last reply to a `SET .. EX`
(`OK`) or `EXPIRE` (1) stands for, until a later command records another deadline or deletes the
key, or the clock gets there. -/
structure Threads where
  now : Int
  server : XRedisServer
  redis : RedisPc := .idle
  expiry : ExpiryPc := .dispatch
  promised : Bytes → Option Int := fun _ => none

/-- Both threads at their start, on a database and with a new manager. -/
def Threads.started (xdb : XDataBase) (now : Int) : Threads := { now, server := { xdb } }

/-! ### The Redis thread -/

/-- One step of `SetTTL(key, ttl)`, and where it goes on, if it has not returned. -/
def SetTTLPc.step (key : Bytes) (ttl : Int) (e : ExpireManager) :
    SetTTLPc → Option SetTTLPc × ExpireManager
  | readFirst => (some (if ttl < e.firstTimeout then .writeFirst else .empty), e)
  | writeFirst => (some .empty, { e with firstTimeout := ttl })
  | empty => (some (if e.sortSet.empty then .del else .maxScore), e)
  | maxScore => (some (if ttl ≤ e.sortSet.maxScore then .add else .del), e)
  | add => (some .size, { e with sortSet := (e.sortSet.add key ttl).2 })
  | size => (if e.sortSet.size > BATCH_SIZE then some .popBack else none, e)
  | popBack => (none, { e with sortSet := e.sortSet.popBack.2 })
  | del => (none, { e with sortSet := (e.sortSet.del key).2 })

/-- The reply of a command that has recorded its deadline. -/
def Arming.done : Arming → Reply
  | setEx => .status (ascii "OK")
  | expire => .int 1

/-- The reply of a command whose `Zset` has failed. -/
def Arming.failed : Arming → Reply
  | setEx => .null
  | expire => .int 0

/-- Where a `SET .. EX` or an `EXPIRE` begins. -/
def armingPc (now : Int) : List Bytes → Option RedisPc
  | [cmd, key, val, ex, ttl] =>
      if XRedisServer.getCmdProcessFun cmd = some .set ∧ strcasecmpEq (ascii "ex") ex = true then
        some (.set key val (expiredAt now (cstr ttl)))
      else none
  | [cmd, key, ttl] =>
      if XRedisServer.getCmdProcessFun cmd = some .expire then
        some (.get key (expiredAt now ttl))
      else none
  | _ => none

/-- The range and the limit of a `SCAN .. DEL`. -/
def scanDelArgs (argv : List Bytes) : Option (Bytes × Bytes × Int) :=
  match argv.head?.bind XRedisServer.getCmdProcessFun, XRedisServer.scanArgs argv with
  | some .scan, some (start, stop, limit, true) => some (start, stop, limit)
  | _, _ => none

theorem armingPc_eq_some {now : Int} {argv : List Bytes} {pc : RedisPc}
    (h : armingPc now argv = some pc) :
    (∃ cmd key val ex ttl, argv = [cmd, key, val, ex, ttl] ∧
      XRedisServer.getCmdProcessFun cmd = some .set ∧ strcasecmpEq (ascii "ex") ex = true ∧
      pc = .set key val (expiredAt now (cstr ttl))) ∨
    ∃ cmd key ttl, argv = [cmd, key, ttl] ∧ XRedisServer.getCmdProcessFun cmd = some .expire ∧
      pc = .get key (expiredAt now ttl) := by
  unfold armingPc at h
  split at h
  · split_ifs at h with hc
    cases h
    exact Or.inl ⟨_, _, _, _, _, rfl, hc.1, hc.2, rfl⟩
  · split_ifs at h with hc
    cases h
    exact Or.inr ⟨_, _, _, rfl, hc, rfl⟩
  · cases h

theorem scanDelArgs_eq_some {argv : List Bytes} {start stop : Bytes} {limit : Int}
    (h : scanDelArgs argv = some (start, stop, limit)) :
    ∃ cmd args, argv = cmd :: args ∧ XRedisServer.getCmdProcessFun cmd = some .scan ∧
      XRedisServer.scanArgs (cmd :: args) = some (start, stop, limit, true) := by
  unfold scanDelArgs at h
  split at h
  · rename_i hcmd hargs
    cases h
    cases argv with
    | nil => cases hcmd
    | cons cmd args => exact ⟨cmd, args, rfl, hcmd, hargs⟩
  · cases h

namespace Threads

/-- The promise for `key` is kept while the clock is before `expired`. -/
def promise (s : Threads) (key : Bytes) (expired : Int) : Bytes → Option Int :=
  if s.now < expired then Function.update s.promised key (some expired) else s.promised

/-- The promises that are left when the keys of `argv` are deleted. -/
def spared (s : Threads) (argv : List Bytes) (key : Bytes) : Option Int :=
  if argv.head?.bind XRedisServer.getCmdProcessFun = some .flushall ∨
      key ∈ redisDeletes s.server.xdb argv then none
  else s.promised key

/-- A command comes in.  `SET .. EX` and `EXPIRE` compute their deadline, `SCAN .. DEL` calls
`ScanKey`, and every other command makes at most one call, so that it is over. -/
def command (s : Threads) (argv : List Bytes) : List Reply × Threads :=
  match armingPc s.now argv with
  | some redis => ([], { s with redis })
  | none =>
      match scanDelArgs argv with
      | some (start, stop, limit) =>
          match s.server.xdb.scanKey start stop limit with
          | (_, [], xdb) => ([.int 0], { s with server := { s.server with xdb } })
          | (_, key :: keys, xdb) =>
              ([], { s with
                server := { s.server with xdb }
                redis := .delScanned key keys (keys.length + 1)
                promised := s.spared argv })
      | none =>
          let (replies, server) := s.server.doCmd s.now argv
          (replies, { s with server, promised := s.spared argv })

/-- `SetTTL` has returned. -/
def returned (s : Threads) (key : Bytes) (expired : Int) : Option Arming → List Reply × Threads
  | none => ([], { s with redis := .zset .setEx key expired })
  | some cmd => ([cmd.done], { s with redis := .idle, promised := s.promise key expired })

/-- The next step of the command in progress. -/
def redisStep (s : Threads) : List Reply × Threads :=
  match s.redis with
  | .idle => ([], s)
  | .set key val expired =>
      let xdb := (s.server.xdb.set s.now key val).2
      ([], { s with server := { s.server with xdb }, redis := .setTTL none key expired .readFirst })
  | .get key expired =>
      match s.server.xdb.get key with
      | (.ok, _, xdb) =>
          ([], { s with server := { s.server with xdb }, redis := .zset .expire key expired })
      | (_, _, xdb) => ([.int 0], { s with server := { s.server with xdb }, redis := .idle })
  | .zset cmd key expired =>
      match s.server.xdb.zset expireKey key (ttlData expired) with
      | (.ok, xdb) =>
          ([], { s with
            server := { s.server with xdb }
            redis := .setTTL (some cmd) key expired .readFirst
            promised := Function.update s.promised key none })
      | (_, xdb) => ([cmd.failed], { s with server := { s.server with xdb }, redis := .idle })
  | .setTTL cmd key expired pc =>
      match pc.step key expired s.server.expiremgr with
      | (some pc, expiremgr) =>
          ([], { s with server := { s.server with expiremgr }, redis := .setTTL cmd key expired pc })
      | (none, expiremgr) => { s with server := { s.server with expiremgr } }.returned key expired cmd
  | .delScanned key keys count =>
      let xdb := (s.server.xdb.del key).2
      match keys with
      | [] => ([.int count], { s with server := { s.server with xdb }, redis := .idle })
      | key :: keys =>
          ([], { s with server := { s.server with xdb }, redis := .delScanned key keys count })

/-! ### The expiry thread -/

/-- The next step of `Dispatch`. -/
def expiryStep (s : Threads) : Threads :=
  let e := s.server.expiremgr
  match s.expiry with
  | .dispatch => if e.sleeps s.now then s else { s with expiry := .empty }
  | .empty => { s with expiry := if e.sortSet.empty then .load else .front }
  | .load =>
      let (expiremgr, xdb) := e.loadExpirationKeys s.server.xdb BATCH_SIZE
      { s with server := ⟨xdb, expiremgr⟩, expiry := .emptyAgain }
  | .emptyAgain => { s with expiry := if e.sortSet.empty then .writeMax else .front }
  | .writeMax =>
      let expiremgr := { e with firstTimeout := INT64_MAX }
      { s with server := { s.server with expiremgr }, expiry := .dispatch }
  | .front =>
      match e.sortSet.front with
      | none => { s with expiry := .dispatch }
      | some i => { s with expiry := .writeFirst (ofLex i).2 (ofLex i).1 }
  | .writeFirst key score =>
      let expiremgr := { e with firstTimeout := score }
      { s with server := { s.server with expiremgr }, expiry := .clock key score }
  | .clock key score => { s with expiry := if score ≤ s.now then .del key else .dispatch }
  | .del key =>
      { s with server := { s.server with xdb := (s.server.xdb.del key).2 }, expiry := .zdel key }
  | .zdel key =>
      let xdb := (s.server.xdb.zdel expireKey key).2
      { s with server := { s.server with xdb }, expiry := .popFront }
  | .popFront =>
      let expiremgr := { e with sortSet := e.sortSet.popFront.2 }
      { s with server := { s.server with expiremgr }, expiry := .dispatch }

/-- What the expiry thread leaves alone. -/
theorem expiryStep_frame (s : Threads) :
    s.expiryStep.now = s.now ∧ s.expiryStep.redis = s.redis ∧ s.expiryStep.promised = s.promised := by
  unfold expiryStep
  simp only
  split <;> first | exact ⟨rfl, rfl, rfl⟩ | (split <;> exact ⟨rfl, rfl, rfl⟩)

theorem redis_expiryStep (s : Threads) : s.expiryStep.redis = s.redis := s.expiryStep_frame.2.1

/-- The clock is set; it ends the promises that it reaches. -/
def tick (s : Threads) (now : Int) : Threads :=
  { s with now, promised := fun key => (s.promised key).filter fun d => decide (now < d) }

/-- A step of the clock, a command that comes in, or a step of either thread. -/
inductive Action where
  | tick (now : Int)
  | command (argv : List Bytes)
  | redis
  | expiry

/-- One step, and the replies it sends.  A command waits for the one before it. -/
def step (s : Threads) : Action → List Reply × Threads
  | .tick now => ([], s.tick now)
  | .command argv => if s.redis = .idle then s.command argv else ([], s)
  | .redis => s.redisStep
  | .expiry => ([], s.expiryStep)

/-- The action is no command, or one that the parser can hand out. -/
def Action.Deliverable : Action → Prop
  | .command argv => XHttpCache.Deliverable argv
  | _ => True

instance (a : Action) : Decidable a.Deliverable :=
  match a with
  | .command _ => inferInstanceAs (Decidable (_ ∧ _))
  | .tick _ | .redis | .expiry => inferInstanceAs (Decidable True)

end Threads

/-! ### The key of a command -/

/-- The key of the `SET .. EX` or `EXPIRE` in progress. -/
def RedisPc.key? : RedisPc → Option Bytes
  | set key _ _ | get key _ | zset _ key _ | setTTL _ key _ _ => some key
  | idle | delScanned _ _ _ => none

/-- The deadline of the command in progress can be recorded, and read back. -/
def RedisPc.Fits : RedisPc → Prop
  | set key _ d | get key d | zset _ key d | setTTL _ key d _ =>
      key ≠ [] ∧ IsI64 d ∧ (scoreRow expireKey d key).length < 2 ^ 31
  | idle | delScanned _ _ _ => True

theorem armedKey_of_armingPc {now : Int} {argv : List Bytes} {pc : RedisPc}
    (h : armingPc now argv = some pc) : armedKey argv = pc.key? := by
  rcases armingPc_eq_some h with ⟨cmd, key, val, ex, ttl, rfl, hcmd, hex, rfl⟩ |
    ⟨cmd, key, ttl, rfl, hcmd, rfl⟩
  · exact if_pos ⟨hcmd, hex⟩
  · exact if_pos hcmd

theorem armedKey_eq_none {now : Int} {argv : List Bytes} (h : armingPc now argv = none) :
    armedKey argv = none := by
  refine Option.eq_none_iff_forall_ne_some.mpr fun key hk => ?_
  unfold armedKey at hk
  split at hk
  · split_ifs at hk with hc
    rw [armingPc, if_pos hc] at h
    cases h
  · split_ifs at hk with hc
    rw [armingPc, if_pos hc] at h
    cases h
  · cases hk

/-- A command that the parser hands out has a key that fits. -/
theorem fits_of_armingPc {now : Int} {argv : List Bytes} {pc : RedisPc}
    (h : armingPc now argv = some pc) (hd : Deliverable argv) : pc.Fits := by
  have hkey := armedKey_of_armingPc h
  rcases armingPc_eq_some h with ⟨cmd, key, val, ex, ttl, rfl, -, -, rfl⟩ |
    ⟨cmd, key, ttl, rfl, -, rfl⟩
  · obtain ⟨hne, hlen⟩ := hd.armedKey hkey (expiredAt now (cstr ttl))
    exact ⟨hne, expiredAt_isI64 _ _, hlen⟩
  · obtain ⟨hne, hlen⟩ := hd.armedKey hkey (expiredAt now ttl)
    exact ⟨hne, expiredAt_isI64 _ _, hlen⟩

/-- `Zset` is refused for the deadline that is recorded, and else records it. -/
theorem Recorded.zset_fits {x : XDataBase} {ix : Bytes → Option Int} {cmd : Arming} {key : Bytes}
    {d : Int} (h : Recorded x ix) (hf : (RedisPc.zset cmd key d).Fits) :
    (ix key = some d ∧ x.zset expireKey key (ttlData d) = (.err, x)) ∨
      ix key ≠ some d ∧ ∃ x', x.zset expireKey key (ttlData d) = (.ok, x') ∧
        Recorded x' (Function.update ix key (some d)) := by
  obtain ⟨hne, hd, hlen⟩ := hf
  rw [ttlData, snprintf_decimal hd (by omega)]
  by_cases hix : ix key = some d
  · exact Or.inl ⟨hix, h.zset_err (Or.inr hix)⟩
  · obtain ⟨hok, hrec⟩ := h.zset_ok hne hix hd hlen
    exact Or.inr ⟨hix, _, Prod.ext hok rfl, hrec⟩

/-! ### What is left of `SetTTL` -/

namespace SetTTLPc

/-- The last part of `SetTTL`: a window that has grown too large loses its last key. -/
def trim (s : SortedSet) : SortedSet := if s.size > BATCH_SIZE then s.popBack.2 else s

/-- The manager when `SetTTL(key, ttl)` returns, if nobody interferes. -/
def finish (key : Bytes) (ttl : Int) (e : ExpireManager) : SetTTLPc → ExpireManager
  | readFirst => e.setTTL key ttl
  | writeFirst =>
      { firstTimeout := ttl
        sortSet := if e.sortSet.empty = false ∧ ttl ≤ e.sortSet.maxScore then
            trim (e.sortSet.add key ttl).2
          else (e.sortSet.del key).2 }
  | empty =>
      { e with
        sortSet := if e.sortSet.empty = false ∧ ttl ≤ e.sortSet.maxScore then
            trim (e.sortSet.add key ttl).2
          else (e.sortSet.del key).2 }
  | maxScore =>
      { e with
        sortSet := if ttl ≤ e.sortSet.maxScore then trim (e.sortSet.add key ttl).2
          else (e.sortSet.del key).2 }
  | add => { e with sortSet := trim (e.sortSet.add key ttl).2 }
  | size => { e with sortSet := trim e.sortSet }
  | popBack => { e with sortSet := e.sortSet.popBack.2 }
  | del => { e with sortSet := (e.sortSet.del key).2 }

variable {key : Bytes} {ttl : Int} {e : ExpireManager} {pc : SetTTLPc}

theorem finish_readFirst :
    readFirst.finish key ttl e =
      if ttl < e.firstTimeout then writeFirst.finish key ttl e else empty.finish key ttl e := by
  simp only [finish, ExpireManager.setTTL, trim]
  split_ifs <;> rfl

/-- **A step of `SetTTL`** leaves what it will come to as it is. -/
theorem finish_step (pc : SetTTLPc) (key : Bytes) (ttl : Int) (e : ExpireManager) :
    match pc.step key ttl e with
    | (some pc', e') => pc'.finish key ttl e' = pc.finish key ttl e
    | (none, e') => e' = pc.finish key ttl e := by
  cases pc with
  | readFirst =>
      rw [finish_readFirst]
      simp only [step]
      split_ifs <;> rfl
  | writeFirst => rfl
  | empty =>
      simp only [step]
      cases h : e.sortSet.empty <;> simp [finish, h]
  | maxScore =>
      simp only [step]
      split_ifs with h <;> simp [finish, h]
  | add => rfl
  | size =>
      simp only [step]
      split_ifs with h
      · simp [finish, trim, h]
      · simp [finish, trim, h]
  | popBack => rfl
  | del => rfl

theorem finish_of_some {pc' : SetTTLPc} {e' : ExpireManager}
    (h : pc.step key ttl e = (some pc', e')) : pc'.finish key ttl e' = pc.finish key ttl e := by
  have := finish_step pc key ttl e
  rwa [h] at this

theorem eq_finish_of_none {e' : ExpireManager} (h : pc.step key ttl e = (none, e')) :
    e' = pc.finish key ttl e := by
  have := finish_step pc key ttl e
  rwa [h] at this

/-- How many steps `SetTTL` takes at most. -/
def left : SetTTLPc → Nat
  | readFirst => 7
  | writeFirst => 6
  | empty => 5
  | maxScore => 4
  | add => 3
  | size => 2
  | popBack => 1
  | del => 1

theorem left_of_some {pc' : SetTTLPc} {e' : ExpireManager}
    (h : pc.step key ttl e = (some pc', e')) : pc'.left < pc.left := by
  cases pc with
  | readFirst =>
      obtain ⟨h, -⟩ := Prod.mk.inj h
      split_ifs at h <;> cases h <;> decide
  | writeFirst => cases h; decide
  | empty =>
      obtain ⟨h, -⟩ := Prod.mk.inj h
      split_ifs at h <;> cases h <;> decide
  | maxScore =>
      obtain ⟨h, -⟩ := Prod.mk.inj h
      split_ifs at h <;> cases h <;> decide
  | add => cases h; decide
  | size =>
      obtain ⟨h, -⟩ := Prod.mk.inj h
      split_ifs at h
      cases h
      decide
  | popBack => cases h
  | del => cases h

end SetTTLPc

/-! ### A thread on its own -/

namespace Threads

/-- The action `a`, again and again, with the replies on the way. -/
inductive Steps (a : Action) : Threads → List Reply → Threads → Prop where
  | refl (s : Threads) : Steps a s [] s
  | more {s s' : Threads} {out : List Reply} (h : Steps a (s.step a).2 out s') :
      Steps a s ((s.step a).1 ++ out) s'

theorem Steps.trans {a : Action} {s s' s'' : Threads} {out out' : List Reply}
    (h : Steps a s out s') (h' : Steps a s' out' s'') : Steps a s (out ++ out') s'' := by
  induction h with
  | refl => exact h'
  | more h ih =>
      rw [List.append_assoc]
      exact .more (ih h')

/-- A step that sends nothing. -/
theorem Steps.cons {a : Action} {s s₁ s' : Threads} {out : List Reply}
    (h : s.step a = ([], s₁)) (h' : Steps a s₁ out s') : Steps a s out s' := by
  have hmore := @Steps.more a s s' out
  rw [h] at hmore
  exact hmore h'

/-- The last step. -/
theorem Steps.last {a : Action} {s s' : Threads} {out : List Reply}
    (h : s.step a = (out, s')) : Steps a s out s' := by
  have hmore := Steps.more (a := a) (s := s) (.refl _)
  rwa [h, List.append_nil] at hmore

variable {s : Threads} {key : Bytes} {expired : Int}

/-- `SetTTL` runs to its end. -/
theorem setTTL_steps {cmd : Option Arming} {pc : SetTTLPc}
    (hs : s.redis = .setTTL cmd key expired pc) :
    let e := pc.finish key expired s.server.expiremgr
    let r := ({ s with server := { s.server with expiremgr := e } } : Threads).returned key expired cmd
    Steps .redis s r.1 r.2 := by
  induction hn : pc.left using Nat.strong_induction_on generalizing s pc with
  | _ n ih =>
      have hstep : s.step .redis = s.redisStep := rfl
      rcases hpc : pc.step key expired s.server.expiremgr with ⟨_ | pc', e'⟩
      · refine .last ?_
        rw [hstep, redisStep, hs]
        simp only [hpc]
        rw [SetTTLPc.eq_finish_of_none hpc]
      · rw [redisStep, hs] at hstep
        simp only [hpc] at hstep
        have hrest := ih pc'.left (hn ▸ SetTTLPc.left_of_some hpc) (s := (s.step .redis).2)
          (congrArg (·.2.redis) hstep) rfl
        rw [hstep, SetTTLPc.finish_of_some hpc] at hrest
        exact .cons hstep (by cases cmd <;> exact hrest)

/-- From `Zset` to the reply. -/
theorem zset_steps {cmd : Arming} (hs : s.redis = .zset cmd key expired) :
    ∃ p, match s.server.xdb.zset expireKey key (ttlData expired) with
      | (.ok, xdb) => Steps .redis s [cmd.done]
          { s with
            server := ⟨xdb, s.server.expiremgr.setTTL key expired⟩, redis := .idle, promised := p }
      | (_, xdb) => Steps .redis s [cmd.failed]
          { s with server := { s.server with xdb }, redis := .idle, promised := p } := by
  have hstep : s.step .redis = s.redisStep := rfl
  rw [redisStep, hs] at hstep
  rcases hz : s.server.xdb.zset expireKey key (ttlData expired) with ⟨c, xdb⟩
  simp only [hz] at hstep ⊢
  cases c with
  | ok =>
      have hrest := setTTL_steps (s := (s.step .redis).2) (congrArg (·.2.redis) hstep)
      rw [hstep] at hrest
      exact ⟨_, .cons hstep hrest⟩
  | err => exact ⟨_, .last hstep⟩
  | null => exact ⟨_, .last hstep⟩

/-- The keys of a `SCAN .. DEL`, one after another. -/
theorem delScanned_steps {keys : List Bytes} {count : Nat}
    (hs : s.redis = .delScanned key keys count) :
    Steps .redis s [.int count]
      { s with
        server := { s.server with
          xdb := (key :: keys).foldl (fun xdb key => (xdb.del key).2) s.server.xdb }
        redis := .idle } := by
  induction keys generalizing s key with
  | nil => exact .last (by rw [step, redisStep, hs]; rfl)
  | cons key' keys ih =>
      have hstep : s.step .redis = ([], { s with
          server := { s.server with xdb := (s.server.xdb.del key).2 }
          redis := .delScanned key' keys count }) := by
        rw [step, redisStep, hs]
      have hrest := ih (s := (s.step .redis).2) (congrArg (·.2.redis) hstep)
      rw [hstep] at hrest
      exact .cons hstep hrest

section Commands

variable (now : Int) (x : XDataBase) (e : ExpireManager) (expiry : ExpiryPc)
  (p : Bytes → Option Int)

/-- `SET .. EX`, from its first step on. -/
theorem setEx_steps (key val ttl : Bytes) :
    let r := XRedisServer.processCmdSetEx ⟨x, e⟩ now key val ttl
    ∃ p', Steps .redis ⟨now, ⟨x, e⟩, .set key val (expiredAt now (cstr ttl)), expiry, p⟩ r.1
      ⟨now, r.2, .idle, expiry, p'⟩ := by
  generalize hd : expiredAt now (cstr ttl) = d
  have hset := setTTL_steps (s := ⟨now, ⟨(x.set now key val).2, e⟩, .setTTL none key d .readFirst,
    expiry, p⟩) rfl
  obtain ⟨p', hzset⟩ := zset_steps (s := ⟨now, ⟨(x.set now key val).2, e.setTTL key d⟩,
    .zset .setEx key d, expiry, p⟩) rfl
  refine ⟨p', .cons rfl (.trans hset ?_)⟩
  simp only [XRedisServer.processCmdSetEx, hd]
  rcases hz : (x.set now key val).2.zset expireKey key (ttlData d) with ⟨c, xdb⟩
  simp only [hz] at hzset
  cases c <;> exact hzset

/-- `EXPIRE`, from its first step on. -/
theorem expire_steps (cmd key ttl : Bytes) :
    let r := XRedisServer.processCmdExpire ⟨x, e⟩ now [cmd, key, ttl]
    ∃ p', Steps .redis ⟨now, ⟨x, e⟩, .get key (expiredAt now ttl), expiry, p⟩ r.1
      ⟨now, r.2, .idle, expiry, p'⟩ := by
  have hlen := List.length_pos_of_ne_nil (decimal_ne_nil (expiredAt now ttl))
  simp only [XRedisServer.processCmdExpire, if_neg (not_le.mpr hlen)]
  generalize expiredAt now ttl = d
  rcases hg : x.get key with ⟨c, val, xdb⟩
  have hmissing : c ≠ .ok → (⟨now, ⟨x, e⟩, .get key d, expiry, p⟩ : Threads).step .redis =
      ([.int 0], ⟨now, ⟨xdb, e⟩, .idle, expiry, p⟩) := by
    intro hc
    cases c with
    | ok => exact absurd rfl hc
    | err => simp only [step, redisStep, hg]
    | null => simp only [step, redisStep, hg]
  cases c with
  | ok =>
      have hstep : (⟨now, ⟨x, e⟩, .get key d, expiry, p⟩ : Threads).step .redis =
          ([], ⟨now, ⟨xdb, e⟩, .zset .expire key d, expiry, p⟩) := by
        simp only [step, redisStep, hg]
      obtain ⟨p', hzset⟩ := zset_steps (s := ⟨now, ⟨xdb, e⟩, .zset .expire key d, expiry, p⟩) rfl
      refine ⟨p', .cons hstep ?_⟩
      rcases hz : xdb.zset expireKey key (ttlData d) with ⟨c, xdb'⟩
      simp only [hz] at hzset ⊢
      cases c <;> exact hzset
  | err => exact ⟨p, .last (hmissing (by decide))⟩
  | null => exact ⟨p, .last (hmissing (by decide))⟩

end Commands

/-- **A command without interference is `doCmd`**: the replies, the database and the manager. -/
theorem command_steps (hs : s.redis = .idle) (argv : List Bytes) :
    ∃ out p, Steps .redis (s.step (.command argv)).2 out
        { s with server := (s.server.doCmd s.now argv).2, promised := p } ∧
      (s.step (.command argv)).1 ++ out = (s.server.doCmd s.now argv).1 := by
  obtain ⟨now, ⟨x, e⟩, redis, expiry, p⟩ := s
  obtain rfl : redis = .idle := hs
  rw [step, if_pos rfl, command]
  cases ha : armingPc now argv with
  | some pc =>
      rcases armingPc_eq_some ha with ⟨cmd, key, val, ex, ttl, rfl, hcmd, hex, rfl⟩ |
        ⟨cmd, key, ttl, rfl, hcmd, rfl⟩
      · obtain ⟨p', h⟩ := setEx_steps now x e expiry p key val ttl
        simp only [XRedisServer.doCmd, hcmd, XRedisServer.call, XRedisServer.processCmdSet, if_pos hex]
        exact ⟨_, p', h, rfl⟩
      · obtain ⟨p', h⟩ := expire_steps now x e expiry p cmd key ttl
        simp only [XRedisServer.doCmd, hcmd, XRedisServer.call]
        exact ⟨_, p', h, rfl⟩
  | none =>
      cases hscan : scanDelArgs argv with
      | some args =>
          obtain ⟨start, stop, limit⟩ := args
          obtain ⟨cmd, args, rfl, hcmd, hargs⟩ := scanDelArgs_eq_some hscan
          simp only [XRedisServer.doCmd, hcmd, XRedisServer.call, XRedisServer.processCmdScan, hargs]
          rcases hk : x.scanKey start stop limit with ⟨c, keys, xdb⟩
          have hc : ¬ c.toInt < 0 := by cases c <;> decide
          simp only [if_neg hc, if_true]
          cases keys with
          | nil => exact ⟨[], p, .refl _, rfl⟩
          | cons key keys =>
              exact ⟨_, _, delScanned_steps rfl, rfl⟩
      | none => exact ⟨[], _, .refl _, List.append_nil _⟩

theorem expiry_more {s' : Threads} (h : Steps .expiry s.expiryStep [] s') :
    Steps .expiry s [] s' :=
  .more h

/-- From `front` to the end of the iteration. -/
theorem front_steps (hs : s.expiry = .front) :
    let r := s.server.expiremgr.expireFront s.server.xdb s.now
    Steps .expiry s [] { s with server := ⟨r.2, r.1⟩, expiry := .dispatch } := by
  obtain ⟨now, ⟨x, e⟩, redis, expiry, p⟩ := s
  obtain rfl : expiry = .front := hs
  cases hf : e.sortSet.front with
  | none =>
      refine expiry_more ?_
      simp only [expiryStep, ExpireManager.expireFront, hf]
      exact .refl _
  | some i =>
      refine expiry_more ?_
      simp only [expiryStep, ExpireManager.expireFront, hf]
      refine expiry_more ?_
      simp only [expiryStep]
      refine expiry_more ?_
      simp only [expiryStep]
      split_ifs with hdue
      · exact expiry_more (expiry_more (expiry_more (.refl _)))
      · exact .refl _

/-- **An iteration without interference is `expireLoop`.** -/
theorem iteration_steps (hs : s.expiry = .dispatch)
    (hsleep : s.server.expiremgr.sleeps s.now = false) :
    let r := s.server.expiremgr.expireLoop s.server.xdb s.now
    Steps .expiry s [] { s with server := ⟨r.2, r.1⟩ } := by
  obtain ⟨now, ⟨x, e⟩, redis, expiry, p⟩ := s
  obtain rfl : expiry = .dispatch := hs
  refine expiry_more ?_
  simp only [expiryStep, hsleep, Bool.false_eq_true, if_false]
  cases he : e.sortSet.empty with
  | true =>
      refine expiry_more ?_
      simp only [expiryStep, ExpireManager.expireLoop, he, if_true]
      refine expiry_more ?_
      simp only [expiryStep]
      rcases e.loadExpirationKeys x BATCH_SIZE with ⟨e', x'⟩
      cases he' : e'.sortSet.empty with
      | true =>
          refine expiry_more ?_
          simp only [expiryStep, he', if_true]
          exact expiry_more (.refl _)
      | false =>
          refine expiry_more ?_
          simp only [expiryStep, he', Bool.false_eq_true, if_false]
          exact front_steps (s := ⟨now, ⟨x', e'⟩, redis, .front, p⟩) rfl
  | false =>
      refine expiry_more ?_
      simp only [expiryStep, ExpireManager.expireLoop, he, Bool.false_eq_true, if_false]
      exact front_steps (s := ⟨now, ⟨x, e⟩, redis, .front, p⟩) rfl

end Threads

end XHttpCache
