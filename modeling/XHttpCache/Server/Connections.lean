import XHttpCache.Redis.Replies
import XHttpCache.Resp.Arrival
import XHttpCache.Server.CacheRefinement
import XHttpCache.Support.Mux

/-!
# Server — several connections

Redis clients send bytes, each on a connection of its own, in whatever chunks they arrive; meanwhile
the backend is sent requests, and keys expire.  The callbacks run one after another, in one thread:
`ReadCallback` serves the commands that it finds in what has arrived on its connection before the
next one runs.  The backend and the expiry loop have threads of their own and can act between two
commands of one callback too; the model restricts them to the moments between two callbacks.

So what happens on the connections is as if commands had come one after another
(`connections_serial`): those of a client in its order, none of them lost, doubled or mixed with
bytes of another.  If every callback returns, each client is sent what its own commands are answered
(`connections_answered`); after a fault nothing is said.
-/

namespace XHttpCache
open Support

/-! ### What reaches the server -/

/-- Bytes on the connection of a client, at a clock value, or an event that does not come from one:
a request to the backend, or an iteration of the expiry loop. -/
inductive Happening where
  | arrives (client : Nat) (now : Int) (chunk : Bytes)
  | other (e : Event)

/-- Whose it is, and what. -/
def Happening.input : Happening → Option Nat × ((Int × Bytes) ⊕ Event)
  | .arrives client now chunk => (some client, .inl (now, chunk))
  | .other e => (none, .inr e)

/-- The arguments of a Redis command. -/
def Event.argv : Event → Option (List Bytes)
  | .redis _ argv => some argv
  | .http _ _ | .expireLoop _ => none

/-- The commands that `ReadCallback` finds.  None after a fault, where C++ promises nothing either:
what is proved below is about calls that return. -/
def found (r : Except Fault (List (List Bytes))) : List (List Bytes) := r.toOption.getD []

/-- A front that hands out commands as `read` finds them; what does not come from a connection it
hands out as it is. -/
def receiveBy {κ : Type} (read : κ → Bytes → Except Fault (List (List Bytes)) × κ) (s : κ) :
    (Int × Bytes) ⊕ Event → List Event × κ
  | .inl (now, chunk) => ((found (read s chunk).1).map (Event.redis now), (read s chunk).2)
  | .inr e => ([e], s)

/-- The front of a connection hands out what `ReadCallback` finds. -/
def receive : Connection → (Int × Bytes) ⊕ Event → List Event × Connection := receiveBy arrive

/-- What the connection `i` receives. -/
def chunksOf (i : Nat) (hs : List Happening) : List Bytes :=
  hs.filterMap fun
    | .arrives client _ chunk => if client = i then some chunk else none
    | .other _ => none

/-- What happens beside the connections. -/
def othersOf (hs : List Happening) : List Event :=
  hs.filterMap fun
    | .arrives _ _ _ => none
    | .other e => some e

section Running

variable (env : Env) (cfg : XConfig)

/-- A server with fresh connections. -/
def connected (s : ServerState) : Mux (Option Nat) Connection ServerState := ⟨fun _ => {}, s⟩

/-- What is served. -/
def serviceLog (s : ServerState) (hs : List Happening) :
    List (LogEntry (Option Nat) Event Output) :=
  (connected s).log receive (step env cfg) (hs.map Happening.input)

/-- The connections and the server after it. -/
def afterwards (s : ServerState) (hs : List Happening) : Mux (Option Nat) Connection ServerState :=
  (run (Mux.step receive (step env cfg)) (connected s) (hs.map Happening.input)).2

end Running

/-- The commands of connection `i` that are served. -/
def commandsOf (i : Nat) (log : List (LogEntry (Option Nat) Event Output)) : List (List Bytes) :=
  (servedOf (some i) log).filterMap fun r => r.request.argv

/-! ### One connection -/

theorem chunksOf_arrives (i client : Nat) (now : Int) (chunk : Bytes) (hs : List Happening) :
    chunksOf i (.arrives client now chunk :: hs) =
      if client = i then chunk :: chunksOf i hs else chunksOf i hs := by
  simp only [chunksOf, List.filterMap_cons]
  split_ifs <;> rfl

theorem chunksOf_other (i : Nat) (e : Event) (hs : List Happening) :
    chunksOf i (.other e :: hs) = chunksOf i hs := by
  simp only [chunksOf, List.filterMap_cons]

theorem inputsOf_arrives (i client : Nat) (now : Int) (chunk : Bytes) (hs : List Happening) :
    inputsOf (some i) ((Happening.arrives client now chunk :: hs).map Happening.input) =
      if client = i then .inl (now, chunk) :: inputsOf (some i) (hs.map Happening.input)
      else inputsOf (some i) (hs.map Happening.input) := by
  rw [List.map_cons, inputsOf_cons, Happening.input]
  by_cases hc : client = i
  · rw [if_pos hc, if_pos (congrArg some hc)]
  · rw [if_neg hc, if_neg fun h => hc (Option.some.inj h)]

theorem inputsOf_other (i : Nat) (e : Event) (hs : List Happening) :
    inputsOf (some i) ((Happening.other e :: hs).map Happening.input) =
      inputsOf (some i) (hs.map Happening.input) := by
  rw [List.map_cons, inputsOf_cons, Happening.input, if_neg (Option.some_ne_none i).symm]

theorem inputsOf_none (hs : List Happening) :
    inputsOf none (hs.map Happening.input) = (othersOf hs).map .inr := by
  induction hs with
  | nil => rfl
  | cons h hs ih =>
      rw [List.map_cons, inputsOf_cons]
      cases h with
      | arrives client now chunk =>
          rw [Happening.input, if_neg (Option.some_ne_none client)]
          exact ih
      | other e =>
          rw [Happening.input, if_pos rfl, ih]
          rfl

theorem filterMap_argv_redis (now : Int) (cmds : List (List Bytes)) :
    (cmds.map (Event.redis now)).filterMap Event.argv = cmds := by
  rw [List.filterMap_map]
  exact List.filterMap_some

section Front

variable {κ : Type} (read : κ → Bytes → Except Fault (List (List Bytes)) × κ)

/-- The front of a connection does what `read` does on its chunks. -/
theorem run_receiveBy (i : Nat) (hs : List Happening) (s : κ) :
    (run (receiveBy read) s (inputsOf (some i) (hs.map Happening.input))).1.flatten.filterMap
        Event.argv = ((run read s (chunksOf i hs)).1.map found).flatten ∧
      (run (receiveBy read) s (inputsOf (some i) (hs.map Happening.input))).2 =
        (run read s (chunksOf i hs)).2 := by
  induction hs generalizing s with
  | nil => exact ⟨rfl, rfl⟩
  | cons h hs ih =>
      cases h with
      | arrives client now chunk =>
          rw [inputsOf_arrives, chunksOf_arrives]
          by_cases hc : client = i
          · obtain ⟨hcmds, hstate⟩ := ih (read s chunk).2
            rw [if_pos hc, if_pos hc, run_cons, run_cons, receiveBy, List.flatten_cons,
              List.filterMap_append, filterMap_argv_redis, hcmds, List.map_cons, List.flatten_cons]
            exact ⟨rfl, hstate⟩
          · rw [if_neg hc, if_neg hc]
            exact ih s
      | other e =>
          rw [inputsOf_other, chunksOf_other]
          exact ih s

/-- The front of a connection hands out commands only. -/
theorem run_receiveBy_redis (i : Nat) (hs : List Happening) (s : κ) :
    ∀ e ∈ (run (receiveBy read) s (inputsOf (some i) (hs.map Happening.input))).1.flatten,
      ∃ now argv, e = .redis now argv := by
  induction hs generalizing s with
  | nil => simp [inputsOf]
  | cons h hs ih =>
      cases h with
      | arrives client now chunk =>
          rw [inputsOf_arrives]
          by_cases hc : client = i
          · rw [if_pos hc, run_cons, receiveBy, List.flatten_cons]
            refine List.forall_mem_append.mpr ⟨fun e he => ?_, ih _⟩
            obtain ⟨argv, -, rfl⟩ := List.mem_map.mp he
            exact ⟨now, argv, rfl⟩
          · rw [if_neg hc]
            exact ih s
      | other e =>
          rw [inputsOf_other]
          exact ih s

/-- What does not come from a connection is served as it comes. -/
theorem run_receiveBy_inr (es : List Event) (s : κ) :
    (run (receiveBy read) s (es.map .inr)).1.flatten = es := by
  induction es generalizing s with
  | nil => rfl
  | cons e es ih =>
      rw [List.map_cons, run_cons, List.flatten_cons]
      exact congrArg (e :: ·) (ih s)

end Front

variable {env : Env} {cfg : XConfig} {s : ServerState} {hs : List Happening}

/-- The commands of a connection that are served are those that `ReadCallback` finds in what arrives
on it. -/
theorem commandsOf_serviceLog (i : Nat) :
    commandsOf i (serviceLog env cfg s hs) =
      ((run arrive {} (chunksOf i hs)).1.map found).flatten := by
  rw [← (run_receiveBy arrive i hs {}).1, serviceLog]
  exact (List.filterMap_map ..).symm.trans
    (congrArg (List.filterMap Event.argv) ((connected s).requests_run _ (some i)))

theorem front_afterwards (i : Nat) :
    (afterwards env cfg s hs).front (some i) = (run arrive {} (chunksOf i hs)).2 := by
  rw [afterwards, Mux.front_run]
  exact (run_receiveBy arrive i hs {}).2

theorem others_serviceLog :
    (servedOf none (serviceLog env cfg s hs)).map LogEntry.request = othersOf hs :=
  ((connected s).requests_run _ none).trans
    ((congrArg (fun l => (run receive {} l).1.flatten) (inputsOf_none hs)).trans
      (run_receiveBy_inr arrive (othersOf hs) {}))

/-- What is served of a connection are commands. -/
theorem redis_of_servedOf {i : Nat} {r : LogEntry (Option Nat) Event Output}
    (hr : r ∈ servedOf (some i) (serviceLog env cfg s hs)) : ∃ now argv, r.request = .redis now argv :=
  run_receiveBy_redis arrive i hs {} r.request
    (((connected s).requests_run (hs.map Happening.input) (some i)) ▸ List.mem_map_of_mem hr)

theorem length_commandsOf {i : Nat} :
    (commandsOf i (serviceLog env cfg s hs)).length =
      (servedOf (some i) (serviceLog env cfg s hs)).length := by
  have hmap : commandsOf i (serviceLog env cfg s hs) =
      (servedOf (some i) (serviceLog env cfg s hs)).map fun r => r.request.argv.getD [] := by
    refine List.filterMap_eq_map_iff_forall_eq_some.mpr fun r hr => ?_
    obtain ⟨now, argv, hredis⟩ := redis_of_servedOf hr
    rw [hredis]
    rfl
  rw [hmap, List.length_map]

/-! ### All connections -/

theorem map_found_ok (ws : List (List (List Bytes))) : (ws.map Except.ok).map found = ws := by
  rw [List.map_map]
  exact List.map_id ws

/-- Commands whose bytes have all arrived are all served, unless the last byte comes alone. -/
theorem served_all {cmds : List (List Bytes)} {chunks : List Bytes}
    (hr : ∀ cmd ∈ cmds, Receivable cmd) (hp : chunks.flatten = encodeCmds cmds)
    (hroom : Along arrive Room {} chunks) (hne : [] ∉ chunks)
    (halone : Along arrive (fun s chunk => ¬ LastAlone s chunk) {} chunks) :
    ∃ ws : List (List (List Bytes)), (run arrive {} chunks).1 = ws.map .ok ∧
      ws.flatten = cmds := by
  rcases List.eq_nil_or_concat chunks with rfl | ⟨come, chunk, rfl⟩
  · refine ⟨[], rfl, ?_⟩
    cases cmds with
    | nil => rfl
    | cons cmd cmds =>
        have hnil : encodeCmd cmd = [] := (List.append_eq_nil_iff.mp hp.symm).1
        exact absurd hnil (isResp_encodeCmd cmd).ne_nil
  · rw [List.concat_eq_append] at *
    have hlast := (along_append.mp halone).2.1
    obtain ⟨ws, hrun, hws⟩ := (prompt_iff hr hroom (fun h => hne (by simp [h]))
      (by rw [hp])).mpr hlast
    refine ⟨ws, hrun, ?_⟩
    rw [hws, hp]
    exact wholly_of_le (Nat.le_refl _)

/-- What is served of a connection, and what waits on it, if its client sends commands that can be
received. -/
theorem commandsOf_isPrefix {cmds : List (List Bytes)} {i : Nat}
    (hr : ∀ cmd ∈ cmds, Receivable cmd) (hp : (chunksOf i hs).flatten <+: encodeCmds cmds)
    (hroom : Along arrive Room {} (chunksOf i hs)) :
    commandsOf i (serviceLog env cfg s hs) <+: cmds ∧
      encodeCmds (commandsOf i (serviceLog env cfg s hs)) ++
        ((afterwards env cfg s hs).front (some i)).waiting = (chunksOf i hs).flatten := by
  rw [commandsOf_serviceLog, front_afterwards]
  obtain ⟨ws, hrun, hpre, -, hbytes⟩ := (Reading.fresh cmds).run hr hroom hp
  rw [hrun, map_found_ok]
  exact ⟨hpre, hbytes⟩

/-- **Whatever happens on the connections is a run of commands**, one after another, if clients send
commands that can be received and no buffer outgrows an `int`.  Requests to the backend and
iterations of the expiry loop keep their order.  Of each connection the commands are served in their
order, and what it has received is the bytes of those that are served, and what waits; all are served
when all have arrived, unless the last byte of one came alone. -/
theorem connections_serial (env : Env) (cfg : XConfig) (s : ServerState) (hs : List Happening)
    {cmds : Nat → List (List Bytes)} (hr : ∀ i, ∀ cmd ∈ cmds i, Receivable cmd)
    (hp : ∀ i, (chunksOf i hs).flatten <+: encodeCmds (cmds i))
    (hroom : ∀ i, Along arrive Room {} (chunksOf i hs)) :
    let log := serviceLog env cfg s hs
    let after := afterwards env cfg s hs
    run (step env cfg) s (log.map LogEntry.request) = (log.map LogEntry.answer, after.server) ∧
      (servedOf none log).map LogEntry.request = othersOf hs ∧
      ∀ i, commandsOf i log <+: cmds i ∧
        encodeCmds (commandsOf i log) ++ (after.front (some i)).waiting = (chunksOf i hs).flatten ∧
        ((chunksOf i hs).flatten = encodeCmds (cmds i) → [] ∉ chunksOf i hs →
          Along arrive (fun s chunk => ¬ LastAlone s chunk) {} (chunksOf i hs) →
          commandsOf i log = cmds i) := by
  refine ⟨(connected s).run_log _, others_serviceLog, fun i => ?_⟩
  obtain ⟨hpre, hbytes⟩ := commandsOf_isPrefix (hr i) (hp i) (hroom i)
  refine ⟨hpre, hbytes, fun hall hne halone => ?_⟩
  obtain ⟨ws, hrun, hws⟩ := served_all (hr i) hall (hroom i) hne halone
  rw [commandsOf_serviceLog, hrun, map_found_ok, hws]

/-- A `SET` of one client in two chunks, and a `GET` of another between them. -/
def interleaved : List Happening :=
  [.arrives 0 0 (ascii "*3\r\n$3\r\nSET\r\n$1\r\nk"),
    .arrives 1 0 (ascii "*2\r\n$3\r\nGET\r\n$1\r\nk\r\n"),
    .arrives 0 1 (ascii "\r\n$1\r\nv\r\n"), .other (.expireLoop 1)]

/-- What they send. -/
def interleavedCmds : Nat → List (List Bytes)
  | 0 => [[ascii "SET", ascii "k", ascii "v"]]
  | 1 => [[ascii "GET", ascii "k"]]
  | _ => []

theorem receivable_interleaved : ∀ i, ∀ cmd ∈ interleavedCmds i, Receivable cmd := by
  rintro (_ | _ | i)
  · exact List.forall_mem_singleton.mpr ⟨⟨by decide, by decide⟩, by decide⟩
  · exact List.forall_mem_singleton.mpr ⟨⟨by decide, by decide⟩, by decide⟩
  · simp [interleavedCmds]

theorem chunksOf_interleaved (i : Nat) : chunksOf (i + 2) interleaved = [] := by
  simp [chunksOf, interleaved]

theorem flatten_interleaved :
    ∀ i, (chunksOf i interleaved).flatten <+: encodeCmds (interleavedCmds i) := by
  rintro (_ | _ | i)
  · decide
  · decide
  · rw [chunksOf_interleaved]
    exact List.nil_prefix

theorem room_interleaved : ∀ i, Along arrive Room {} (chunksOf i interleaved) := by
  rintro (_ | _ | i)
  · decide
  · decide
  · rw [chunksOf_interleaved]
    trivial

theorem connections_serial_interleaved :
    let log := serviceLog plainEnv {} freshServer interleaved
    (servedOf none log).map LogEntry.request = [.expireLoop 1] ∧
      commandsOf 0 log = [[ascii "SET", ascii "k", ascii "v"]] ∧
      commandsOf 1 log = [[ascii "GET", ascii "k"]] := by
  obtain ⟨-, hothers, hcmds⟩ := connections_serial plainEnv {} freshServer interleaved
    receivable_interleaved flatten_interleaved room_interleaved
  refine ⟨hothers, ?_, ?_⟩
  · exact (hcmds 0).2.2 (by decide) (by decide)
      ⟨fun h => absurd h.2.1 (by decide), fun h => absurd h.2.1 (by decide), trivial⟩
  · exact (hcmds 1).2.2 (by decide) (by decide) ⟨fun h => absurd h.2.1 (by decide), trivial⟩

/-! ### From bytes to the cache -/

/-- An argument has six bytes of framing at least. -/
theorem sum_length_le (args : List Bytes) :
    (args.map List.length).sum + 6 * args.length ≤ (args.flatMap encodeArg).length := by
  induction args with
  | nil => exact Nat.zero_le _
  | cons a args ih =>
      have ha := length_encodeArg_ge a
      simp only [List.map_cons, List.sum_cons, List.length_cons, List.flatMap_cons,
        List.length_append]
      omega

/-- A command that can be received can be delivered. -/
theorem Receivable.deliverable {cmd : List Bytes} (h : Receivable cmd) : Deliverable cmd := by
  refine ⟨h.sendable.2, ?_⟩
  have hlen := h.length
  have hargs := sum_length_le cmd
  rw [encodeCmd, List.length_append] at hlen
  omega

/-- What is served is proper, if what the clients send and the other events are. -/
theorem proper_serviceLog {cmds : Nat → List (List Bytes)}
    (hr : ∀ i, ∀ cmd ∈ cmds i, Receivable cmd)
    (hp : ∀ i, (chunksOf i hs).flatten <+: encodeCmds (cmds i))
    (hroom : ∀ i, Along arrive Room {} (chunksOf i hs)) (hothers : ∀ e ∈ othersOf hs, e.Proper) :
    ∀ e ∈ (serviceLog env cfg s hs).map LogEntry.request, e.Proper := by
  intro e he
  obtain ⟨r, hr', rfl⟩ := List.mem_map.mp he
  cases hclient : r.client with
  | none =>
      have hmem : r ∈ servedOf none (serviceLog env cfg s hs) :=
        List.mem_filter.mpr ⟨hr', decide_eq_true hclient⟩
      exact hothers _ (others_serviceLog ▸ List.mem_map_of_mem hmem)
  | some i =>
      have hmem : r ∈ servedOf (some i) (serviceLog env cfg s hs) :=
        List.mem_filter.mpr ⟨hr', decide_eq_true hclient⟩
      obtain ⟨now, argv, hredis⟩ := redis_of_servedOf hmem
      have hcmd : argv ∈ commandsOf i (serviceLog env cfg s hs) :=
        List.mem_filterMap.mpr ⟨r, hmem, by rw [hredis]; rfl⟩
      have hrec := hr i argv ((commandsOf_isPrefix (hr i) (hp i) (hroom i)).1.mem hcmd)
      rw [hredis]
      exact ⟨hrec.sendable.1, hrec.deliverable⟩

/-- **From bytes to the cache.**  Whatever chunks the commands of the clients arrive in, and whatever
comes between them, the server serves a beginning of the commands of each client, and answers what
it serves as the cache may answer it. -/
theorem connections_refine_cache (env : Env) (cfg : XConfig) (hs : List Happening)
    {cmds : Nat → List (List Bytes)} (hr : ∀ i, ∀ cmd ∈ cmds i, Receivable cmd)
    (hp : ∀ i, (chunksOf i hs).flatten <+: encodeCmds (cmds i))
    (hroom : ∀ i, Along arrive Room {} (chunksOf i hs)) (hothers : ∀ e ∈ othersOf hs, e.Proper) :
    let log := serviceLog env cfg freshServer hs
    (∀ i, commandsOf i log <+: cmds i) ∧
      (servedOf none log).map LogEntry.request = othersOf hs ∧
      ∃ c, Traces (Cache.Step env cfg) {} (log.map LogEntry.request) (log.map LogEntry.answer) c ∧
        (afterwards env cfg freshServer hs).server.Represents c := by
  intro log
  have hproper : ∀ e ∈ log.map LogEntry.request, e.Proper := proper_serviceLog hr hp hroom hothers
  obtain ⟨c, htrace, hrep⟩ := represents_fresh.run_cache env cfg hproper
  have hlog : run (step env cfg) freshServer (log.map LogEntry.request) =
      (log.map LogEntry.answer, (afterwards env cfg freshServer hs).server) :=
    (connected freshServer).run_log _
  rw [hlog] at htrace hrep
  exact ⟨fun i => (commandsOf_isPrefix (hr i) (hp i) (hroom i)).1, others_serviceLog,
    c, htrace, hrep⟩

theorem connections_refine_cache_interleaved :
    let log := serviceLog plainEnv {} freshServer interleaved
    ∃ c, Traces (Cache.Step plainEnv {}) {} (log.map LogEntry.request)
      (log.map LogEntry.answer) c := by
  obtain ⟨c, htrace, -⟩ := (connections_refine_cache plainEnv {} interleaved receivable_interleaved
    flatten_interleaved room_interleaved (List.forall_mem_singleton.mpr trivial)).2.2
  exact ⟨c, htrace⟩

/-! ### What the clients are sent -/

/-- What is sent for the output of an event, on its connection. -/
def Output.sent : Output → Except Fault Bytes
  | .replies l => XHttpCache.sent l
  | .response _ | .silent => .ok []

/-- What is sent to client `i`, a command after the other. -/
def sentTo (i : Nat) (log : List (LogEntry (Option Nat) Event Output)) : List (Except Fault Bytes) :=
  (servedOf (some i) log).map fun r => r.answer.sent

/-- A command is answered by one value in this state. -/
def Event.Answerable (s : ServerState) (e : Event) : Prop :=
  ∀ now argv, e = .redis now argv → s.redis.Answerable argv

/-- The output of such a command. -/
theorem step_answerable {now : Int} {argv : List Bytes}
    (h : (Event.redis now argv).Answerable s) :
    ∃ u, (step env cfg s (.redis now argv)).1.sent = .ok u ∧ IsResp u := by
  have hargv := h now argv rfl
  have hne : argv ≠ [] := by
    rintro rfl
    exact hargv
  exact (s.redis.oneReply_doCmd_iff now hne).mpr hargv

/-- What is answered one by one is a list of values. -/
theorem exists_values {α : Type} {f : α → Except Fault Bytes} {l : List α}
    (h : ∀ a ∈ l, ∃ u, f a = .ok u ∧ IsResp u) :
    ∃ us : List Bytes, l.map f = us.map .ok ∧ us.length = l.length ∧ ∀ u ∈ us, IsResp u := by
  induction l with
  | nil => exact ⟨[], rfl, rfl, by simp⟩
  | cons a l ih =>
      obtain ⟨⟨u, hu, hresp⟩, hl⟩ := List.forall_mem_cons.mp h
      obtain ⟨us, hmap, hlen, hall⟩ := ih hl
      refine ⟨u :: us, ?_, congrArg (· + 1) hlen, List.forall_mem_cons.mpr ⟨hresp, hall⟩⟩
      rw [List.map_cons, List.map_cons, hu, hmap]

/-- **Each client gets the answers to its own commands**, whatever the others do.  Say that
`ReadCallback` returns whenever it is called, and finds the commands `calls i` on connection `i`,
and that every command is answerable when its turn comes.  Then the commands of client `i` that are
served are those found, and it is sent one value for each, in their order, and can read them in one
way only. -/
theorem connections_answered (env : Env) (cfg : XConfig) (s : ServerState) (hs : List Happening)
    {calls : Nat → List (List (List Bytes))}
    (hcalls : ∀ i, (run arrive {} (chunksOf i hs)).1 = (calls i).map .ok)
    (ha : Along (step env cfg) (fun s e => e.Answerable s) s
      ((serviceLog env cfg s hs).map LogEntry.request)) (i : Nat) :
    commandsOf i (serviceLog env cfg s hs) = (calls i).flatten ∧
      ∃ us : List Bytes, sentTo i (serviceLog env cfg s hs) = us.map .ok ∧
        us.length = (commandsOf i (serviceLog env cfg s hs)).length ∧ (∀ u ∈ us, IsResp u) ∧
        ∀ vs, (∀ v ∈ vs, IsResp v) → vs.flatten = us.flatten → vs = us := by
  have hfound : commandsOf i (serviceLog env cfg s hs) = (calls i).flatten := by
    rw [commandsOf_serviceLog, hcalls, map_found_ok]
  have hone : ∀ r ∈ servedOf (some i) (serviceLog env cfg s hs),
      ∃ u, r.answer.sent = .ok u ∧ IsResp u := by
    intro r hr
    obtain ⟨s', hs', hanswer⟩ := Mux.answered_along (m := connected s) ha r (List.mem_filter.mp hr).1
    obtain ⟨now, argv, hredis⟩ := redis_of_servedOf hr
    rw [hanswer, hredis]
    exact step_answerable (hredis ▸ hs')
  obtain ⟨us, hmap, hlen, hall⟩ := exists_values hone
  refine ⟨hfound, us, hmap, hlen.trans length_commandsOf.symm, hall, fun vs hvs he => ?_⟩
  exact IsResp.flatten_inj hvs hall he

/-- What each `ReadCallback` finds in them. -/
def interleavedCalls : Nat → List (List (List Bytes))
  | 0 => [[], [[ascii "SET", ascii "k", ascii "v"]]]
  | 1 => [[[ascii "GET", ascii "k"]]]
  | _ => []

theorem run_interleaved :
    ∀ i, (run arrive {} (chunksOf i interleaved)).1 = (interleavedCalls i).map .ok := by
  rintro (_ | _ | i)
  · decide
  · decide
  · rw [chunksOf_interleaved]
    rfl

theorem connections_answered_interleaved :
    sentTo 0 (serviceLog plainEnv {} freshServer interleaved) = [.ok (ascii "+OK" ++ CRLF)] ∧
      ∃ us : List Bytes, sentTo 1 (serviceLog plainEnv {} freshServer interleaved) = us.map .ok ∧
        us.length = 1 ∧ ∀ u ∈ us, IsResp u := by
  have hlog : (serviceLog plainEnv {} freshServer interleaved).map LogEntry.request =
      [.redis 0 [ascii "GET", ascii "k"], .redis 1 [ascii "SET", ascii "k", ascii "v"],
        .expireLoop 1] := by rfl
  have ha : Along (step plainEnv {}) (fun s e => e.Answerable s) freshServer
      ((serviceLog plainEnv {} freshServer interleaved).map LogEntry.request) := by
    rw [hlog]
    refine ⟨?_, ?_, ?_, trivial⟩
    · rintro now argv ⟨⟩ key hkey
      obtain rfl : ascii "k" = key := List.head_eq_of_cons_eq hkey
      have hnone : freshServer.redis.xdb.valueRow (ascii "k") = none := by decide
      exact ⟨rfl, fun row hrow => absurd (hrow.symm.trans hnone) (Option.some_ne_none row)⟩
    · rintro now argv ⟨⟩
      exact trivial
    · rintro now argv ⟨⟩
  obtain ⟨-, us, hsent, hlen, hall, -⟩ :=
    connections_answered plainEnv {} freshServer interleaved run_interleaved ha 1
  exact ⟨by rfl, us, hsent, hlen, hall⟩

end XHttpCache
