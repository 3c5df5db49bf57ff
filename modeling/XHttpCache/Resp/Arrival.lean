import XHttpCache.Resp.Incremental
import XHttpCache.Resp.Values
import XHttpCache.Support.Runs

/-!
# Resp — bytes that arrive

`xRedisServerBase::ReadCallback` stands between two buffers.  libevent appends what arrives to the
input buffer of the connection and calls it; it moves the input to `cmdbuffer`, if there are two
bytes at least, and has `ProcessCmd` take the commands from there.

So one byte can stay behind until the next one comes.  `Reading` is what holds between two calls;
`served_iff` says that the commands are served when their last byte arrives if this byte is never
the one that stays behind.
-/

namespace XHttpCache
open Support

/-- The input buffer of a connection, and its connector. -/
structure Connection where
  input : Bytes := []
  connector : XRedisConnectorBase := {}

/-- The first loop of `ReadCallback`: what it leaves of the input, and what it appends to
`cmdbuffer`.  It takes all there is, so that its second round finds nothing. -/
def pullInput (input : Bytes) : Bytes × Bytes :=
  if input.length < 2 then (input, []) else ([], input)

/-- The connection after a call that leaves `input`.  Anything may be the case after a fault; the
model keeps the connector, and the results are about calls that return. -/
def Connection.after (s : Connection) (input : Bytes) :
    Except Fault (List (List Bytes) × XRedisConnectorBase) →
      Except Fault (List (List Bytes)) × Connection
  | .ok (cmds, connector) => (.ok cmds, ⟨input, connector⟩)
  | .error e => (.error e, { s with input })

/-- `ReadCallback` after `chunk` has been appended to the input. -/
def arrive (s : Connection) (chunk : Bytes) : Except Fault (List (List Bytes)) × Connection :=
  let pulled := pullInput (s.input ++ chunk)
  s.after pulled.1 (readCallback s.connector pulled.2)

/-- The bytes that have been received and not been served. -/
def Connection.waiting (s : Connection) : Bytes := s.connector.cmdbuffer ++ s.input

/-- `cmdbuffer` has a size that is an `int`, whatever of the chunk it gets. -/
def Room (s : Connection) (chunk : Bytes) : Prop := (s.waiting ++ chunk).length < 2 ^ 31

instance (s : Connection) (chunk : Bytes) : Decidable (Room s chunk) :=
  inferInstanceAs (Decidable (_ < _))

/-- A single byte that comes to an empty input and ends a command. -/
def LastAlone (s : Connection) (chunk : Bytes) : Prop :=
  s.input = [] ∧ chunk.length = 1 ∧ ∃ cmd, s.waiting ++ chunk = encodeCmd cmd

/-- The commands dispatched over the chunks are those that are wholly contained in them. -/
def Prompt (cmds : List (List Bytes)) (come : List Bytes) : Prop :=
  ∃ ws : List (List (List Bytes)), (run arrive {} come).1 = ws.map .ok ∧
    ws.flatten = wholly encodeCmd come.flatten.length cmds

/-! ### Between two calls -/

variable {cmds : List (List Bytes)} {s : Connection} {chunk : Bytes} {chunks : List Bytes}

/-- The commands `cmds` are to be served: the connector has taken what it could from its buffer. -/
structure Reading (cmds : List (List Bytes)) (s : Connection) : Prop where
  pending : Pending cmds s.connector
  taken : wholly encodeCmd s.connector.cmdbuffer.length cmds = []

/-- What a call does: it serves the commands `w`. -/
structure Arrived (cmds : List (List Bytes)) (s : Connection) (chunk : Bytes)
    (w : List (List Bytes)) (s' : Connection) : Prop where
  eq : arrive s chunk = (.ok w, s')
  served : w <+: cmds
  reading : Reading (cmds.drop w.length) s'
  bytes : w.flatMap encodeCmd ++ s'.waiting = s.waiting ++ chunk
  input : s'.input = (pullInput (s.input ++ chunk)).1

theorem Reading.fresh (cmds : List (List Bytes)) : Reading cmds {} :=
  ⟨.idle List.nil_prefix, wholly_zero (fun _ => List.cons_ne_nil _ _) cmds⟩

theorem pullInput_append (input : Bytes) : (pullInput input).2 ++ (pullInput input).1 = input := by
  rw [pullInput]
  split_ifs
  · exact List.nil_append input
  · exact List.append_nil input

/-- What the connector makes of a piece: it hands out the commands `w`, and keeps the bytes that
follow them. -/
theorem Pending.serves {c : XRedisConnectorBase} {piece : Bytes} (h : Pending cmds c)
    (hs : ∀ cmd ∈ cmds, Receivable cmd) (hlen : (c.cmdbuffer ++ piece).length < 2 ^ 31)
    (hp : c.cmdbuffer ++ piece <+: encodeCmds cmds) :
    ∃ w c', XHttpCache.readCallback c piece = .ok (w, c') ∧ w <+: cmds ∧
      Reading (cmds.drop w.length) { connector := c' } ∧
      w.flatMap encodeCmd ++ c'.cmdbuffer = c.cmdbuffer ++ piece := by
  obtain ⟨c', hread, hpend, hbuf⟩ := h.readCallback hs hlen hp
  have hle := @length_flatMap_wholly_le _ _ encodeCmd (c.cmdbuffer ++ piece).length cmds
  have hrest := @wholly_rest _ _ encodeCmd (c.cmdbuffer ++ piece).length cmds
  have hsplit := @wholly_append_drop _ _ encodeCmd (c.cmdbuffer ++ piece).length cmds
  generalize wholly encodeCmd (c.cmdbuffer ++ piece).length cmds = w
    at hread hpend hbuf hle hrest hsplit
  refine ⟨w, c', hread, ⟨_, hsplit⟩, ⟨hpend, ?_⟩, ?_⟩
  · rw [hbuf, List.length_drop]
    exact hrest
  · have hw : w.flatMap encodeCmd <+: encodeCmds cmds := by
      rw [← hsplit, encodeCmds, List.flatMap_append]
      exact List.prefix_append _ _
    rw [hbuf]
    exact List.prefix_iff_eq_append.mp (List.prefix_of_prefix_length_le hw hp hle)

/-- **One call.** -/
theorem Reading.arrive (h : Reading cmds s) (hs : ∀ cmd ∈ cmds, Receivable cmd)
    (hroom : Room s chunk) (hp : s.waiting ++ chunk <+: encodeCmds cmds) :
    ∃ w s', Arrived cmds s chunk w s' := by
  have hall : (s.connector.cmdbuffer ++ (pullInput (s.input ++ chunk)).2) ++
      (pullInput (s.input ++ chunk)).1 = s.waiting ++ chunk := by
    rw [List.append_assoc, pullInput_append, Connection.waiting, List.append_assoc]
  have hpiece : s.connector.cmdbuffer ++ (pullInput (s.input ++ chunk)).2 <+: s.waiting ++ chunk :=
    ⟨_, hall⟩
  obtain ⟨w, c, hread, hserved, hreading, hbytes⟩ :=
    h.pending.serves hs (lt_of_le_of_lt hpiece.length_le hroom) (hpiece.trans hp)
  refine ⟨w, ⟨(pullInput (s.input ++ chunk)).1, c⟩, ?_, hserved, ?_, ?_, ?_⟩
  · simp only [XHttpCache.arrive, hread]
    rfl
  · exact ⟨hreading.pending, hreading.taken⟩
  · rw [Connection.waiting, ← List.append_assoc, hbytes, hall]
  · rfl

/-- **A run of calls.** -/
theorem Reading.run (h : Reading cmds s) (hs : ∀ cmd ∈ cmds, Receivable cmd)
    (hroom : Along XHttpCache.arrive Room s chunks)
    (hp : s.waiting ++ chunks.flatten <+: encodeCmds cmds) :
    ∃ ws : List (List (List Bytes)), (Support.run XHttpCache.arrive s chunks).1 = ws.map .ok ∧
      ws.flatten <+: cmds ∧
      Reading (cmds.drop ws.flatten.length) (Support.run XHttpCache.arrive s chunks).2 ∧
      ws.flatten.flatMap encodeCmd ++ (Support.run XHttpCache.arrive s chunks).2.waiting =
        s.waiting ++ chunks.flatten := by
  induction chunks generalizing s cmds with
  | nil => exact ⟨[], rfl, List.nil_prefix, h, by simp⟩
  | cons chunk chunks ih =>
      rw [List.flatten_cons, ← List.append_assoc] at hp
      obtain ⟨w, s', ha⟩ := h.arrive hs hroom.1 ((List.prefix_append _ _).trans hp)
      have hs' : ∀ cmd ∈ cmds.drop w.length, Receivable cmd := fun cmd hc =>
        hs cmd (List.mem_of_mem_drop hc)
      have hw : w ++ cmds.drop w.length = cmds := List.prefix_iff_eq_append.mp ha.served
      have hp' : s'.waiting ++ chunks.flatten <+: encodeCmds (cmds.drop w.length) := by
        rw [← ha.bytes, ← hw, encodeCmds, List.flatMap_append, List.append_assoc] at hp
        exact (List.prefix_append_right_inj _).mp hp
      have hstep : (XHttpCache.arrive s chunk).2 = s' := congrArg Prod.snd ha.eq
      have hroom' := hroom.2
      rw [hstep] at hroom'
      obtain ⟨ws, hrun, hserved, hread, hbytes⟩ := ih ha.reading hs' hroom' hp'
      rw [run_cons, ha.eq]
      refine ⟨w :: ws, congrArg (Except.ok w :: ·) hrun, ?_, ?_, ?_⟩
      · rw [List.flatten_cons, ← hw]
        exact (List.prefix_append_right_inj _).mpr hserved
      · rw [List.flatten_cons, List.length_append, ← List.drop_drop]
        exact hread
      · rw [List.flatten_cons, List.flatMap_append, List.append_assoc, hbytes, ← List.append_assoc,
          ha.bytes, List.flatten_cons, List.append_assoc]

/-! ### The last byte of a command -/

theorem isResp_encodeCmd (cmd : List Bytes) : IsResp (encodeCmd cmd) := by
  have harray := @IsResp.array (cmd.map encodeArg) fun v hv => by
    obtain ⟨arg, -, rfl⟩ := List.mem_map.mp hv
    rw [encodeArg_eq, ← List.append_assoc]
    exact .bulk arg
  rw [List.length_map, ← List.flatMap_def] at harray
  rw [encodeCmd_eq]
  exact harray

/-- A single byte that stays behind ends a command, or there is nothing more to serve. -/
theorem Reading.wholly_iff (h : Reading cmds s) (hempty : s.input = []) (hone : chunk.length = 1)
    (hp : s.waiting ++ chunk <+: encodeCmds cmds) :
    wholly encodeCmd (s.waiting ++ chunk).length cmds = [] ↔ ¬ LastAlone s chunk := by
  have hwait : s.waiting = s.connector.cmdbuffer := by
    rw [Connection.waiting, hempty, List.append_nil]
  cases cmds with
  | nil =>
      refine iff_of_true rfl fun _ => ?_
      rw [(List.append_eq_nil_iff.mp (List.prefix_nil.mp hp)).2] at hone
      cases hone
  | cons cmd cmds =>
      rw [encodeCmds, List.flatMap_cons] at hp
      have htaken := h.taken
      rw [← hwait] at htaken
      constructor
      · rintro hnone ⟨-, -, cmd', hcmd'⟩
        -- no encoding is the beginning of another
        obtain ⟨later, hlater⟩ := hp
        rw [hcmd'] at hlater hnone
        rw [((isResp_encodeCmd cmd').append_inj (isResp_encodeCmd cmd) hlater).1,
          wholly_cons_of_le (le_refl _)] at hnone
        cases hnone
      · intro halone
        refine wholly_cons_of_lt (Nat.not_le.mp fun hle => halone ⟨hempty, hone, cmd, ?_⟩)
        have hlt : s.waiting.length < (encodeCmd cmd).length := Nat.not_le.mp fun hle' => by
          rw [wholly_cons_of_le hle'] at htaken
          cases htaken
        rw [List.length_append, hone] at hle
        refine (List.prefix_of_prefix_length_le hp (List.prefix_append _ _) ?_).eq_of_length ?_
        · rw [List.length_append, hone]
          omega
        · rw [List.length_append, hone]
          omega

/-- Commands are served up to what has been received, unless the last byte of one stays behind. -/
theorem Arrived.wholly_iff {w : List (List Bytes)} {s' : Connection} (h : Reading cmds s)
    (ha : Arrived cmds s chunk w s') (hne : chunk ≠ [])
    (hp : s.waiting ++ chunk <+: encodeCmds cmds) :
    wholly encodeCmd s'.waiting.length (cmds.drop w.length) = [] ↔ ¬ LastAlone s chunk := by
  have hpos := List.length_pos_of_ne_nil hne
  have hin := ha.input
  rw [pullInput] at hin
  split_ifs at hin with hlen
  · rw [List.length_append] at hlen
    have hempty : s.input = [] := List.eq_nil_of_length_eq_zero (by omega)
    rw [← h.wholly_iff hempty (by omega) hp]
    -- the byte stays behind, and nothing is served
    have hbytes := ha.bytes
    have hwait : s.waiting = s.connector.cmdbuffer := by
      rw [Connection.waiting, hempty, List.append_nil]
    rw [hempty, List.nil_append] at hin
    rw [Connection.waiting, hin, hwait, ← List.append_assoc] at hbytes
    have htaken := h.taken
    have hw := List.prefix_iff_eq_append.mp ha.served
    rw [← List.append_cancel_right hbytes, List.length_append, ← hw, wholly_append_left] at htaken
    obtain rfl : w = [] := (List.append_eq_nil_iff.mp htaken).1
    rw [← ha.bytes]
    rfl
  · have hwait : s'.waiting = s'.connector.cmdbuffer := by
      rw [Connection.waiting, hin, List.append_nil]
    rw [hwait]
    refine iff_of_true ha.reading.taken fun halone => hlen ?_
    rw [halone.1, List.nil_append, halone.2.1]
    decide

/-- After a chunk, the commands are served up to what has been received, unless it is the last byte
of one and stays behind. -/
theorem prompt_iff {come : List Bytes} (hs : ∀ cmd ∈ cmds, Receivable cmd)
    (hroom : Along arrive Room {} (come ++ [chunk])) (hne : chunk ≠ [])
    (hp : (come ++ [chunk]).flatten <+: encodeCmds cmds) :
    Prompt cmds (come ++ [chunk]) ↔ ¬ LastAlone (run arrive {} come).2 chunk := by
  obtain ⟨hcome, hchunk, -⟩ := along_append.mp hroom
  rw [List.flatten_append, List.flatten_singleton] at hp
  obtain ⟨ws, hrun, hserved, hread, hbytes⟩ :=
    (Reading.fresh cmds).run hs hcome ((List.prefix_append _ chunk).trans hp)
  have hbytes' : ws.flatten.flatMap encodeCmd ++ (run arrive {} come).2.waiting = come.flatten :=
    hbytes
  have hw := List.prefix_iff_eq_append.mp hserved
  have hp' : (run arrive {} come).2.waiting ++ chunk <+: encodeCmds (cmds.drop ws.flatten.length) := by
    rw [← hbytes', ← hw, encodeCmds, List.flatMap_append, List.append_assoc] at hp
    exact (List.prefix_append_right_inj _).mp hp
  obtain ⟨w, s', ha⟩ := hread.arrive (fun cmd hc => hs cmd (List.mem_of_mem_drop hc)) hchunk hp'
  have hout : (run arrive {} (come ++ [chunk])).1 = (ws ++ [w]).map .ok := by
    rw [run_append, hrun, run_cons, ha.eq, List.map_append]
    rfl
  have hall : wholly encodeCmd (come ++ [chunk]).flatten.length cmds =
      (ws ++ [w]).flatten ++
        wholly encodeCmd s'.waiting.length ((cmds.drop ws.flatten.length).drop w.length) := by
    have hw' := List.prefix_iff_eq_append.mp ha.served
    have hsplit : cmds =
        (ws ++ [w]).flatten ++ (cmds.drop ws.flatten.length).drop w.length := by
      rw [List.flatten_append, List.flatten_singleton, List.append_assoc, hw', hw]
    have hlen : (come ++ [chunk]).flatten.length =
        ((ws ++ [w]).flatten.flatMap encodeCmd).length + s'.waiting.length := by
      rw [← List.length_append, List.flatten_append, List.flatten_singleton, List.flatten_append,
        List.flatten_singleton, List.flatMap_append, List.append_assoc, ha.bytes,
        ← List.append_assoc, hbytes']
    rw [hlen]
    conv_lhs => rw [hsplit]
    exact wholly_append_left _ _ _
  rw [← ha.wholly_iff hread hne hp', Prompt, hout, hall]
  constructor
  · rintro ⟨ws', hws', hflat⟩
    obtain rfl := (List.map_injective_iff.mpr fun _ _ => Except.ok.inj) hws'
    exact List.self_eq_append_right.mp hflat
  · intro hnone
    rw [hnone, List.append_nil]
    exact ⟨_, rfl, rfl⟩

/-- **Every command is served when its last byte arrives**, in every run in which `cmdbuffer` keeps
a size that is an `int`, exactly if no last byte of a command comes alone to an empty input. -/
theorem served_iff (hs : ∀ cmd ∈ cmds, Receivable cmd) (hp : chunks.flatten <+: encodeCmds cmds)
    (hne : [] ∉ chunks) (hroom : Along arrive Room {} chunks) :
    (∀ come later, chunks = come ++ later → Prompt cmds come) ↔
      Along arrive (fun s chunk => ¬ LastAlone s chunk) {} chunks := by
  have hstep : ∀ come chunk later, chunks = come ++ chunk :: later →
      (Prompt cmds (come ++ [chunk]) ↔ ¬ LastAlone (run arrive {} come).2 chunk) := by
    intro come chunk later hc
    rw [hc, List.append_cons] at hp hne hroom
    have hpre : (come ++ [chunk]).flatten <+: encodeCmds cmds := by
      rw [List.flatten_append] at hp
      exact (List.prefix_append _ _).trans hp
    refine prompt_iff hs (along_append.mp hroom).1 (fun he => hne ?_) hpre
    simp [he]
  rw [along_iff]
  constructor
  · intro h come chunk later hc
    refine (hstep come chunk later hc).mp (h (come ++ [chunk]) later ?_)
    rw [hc, List.append_cons]
  · intro h come later hc
    rcases List.eq_nil_or_concat come with rfl | ⟨come, chunk, rfl⟩
    · exact ⟨[], rfl, (wholly_zero (fun _ => List.cons_ne_nil _ _) cmds).symm⟩
    · rw [List.concat_eq_append] at hc ⊢
      rw [← List.append_cons] at hc
      exact (hstep come chunk later hc).mpr (h come chunk later hc)

/-- A `PING` in two chunks, of more than a byte each. -/
theorem served_ping : Prompt [[ascii "PING"]] [ascii "*1\r\n$4\r\nPI", ascii "NG\r\n"] := by
  have hs : ∀ cmd ∈ [[ascii "PING"]], Receivable cmd := by
    intro cmd hcmd
    obtain rfl := List.mem_singleton.mp hcmd
    exact ⟨⟨by decide, by decide⟩, by decide⟩
  have halone : Along arrive (fun s chunk => ¬ LastAlone s chunk) {}
      [ascii "*1\r\n$4\r\nPI", ascii "NG\r\n"] :=
    ⟨fun h => absurd h.2.1 (by decide), fun h => absurd h.2.1 (by decide), trivial⟩
  exact (@served_iff [[ascii "PING"]] _ hs (by decide) (by decide) (by decide)).mpr
    halone _ [] (List.append_nil _).symm

/-- A `PING` whose last byte comes alone is not served. -/
theorem last_byte_waits :
    (run arrive {} [ascii "*1\r\n$4\r\nPING\r", ascii "\n"]).1 = [.ok [], .ok []] ∧
      ¬ Prompt [[ascii "PING"]] [ascii "*1\r\n$4\r\nPING\r", ascii "\n"] := by
  have hrun : (run arrive {} [ascii "*1\r\n$4\r\nPING\r", ascii "\n"]).1 =
      [[], []].map .ok := by decide
  refine ⟨hrun, ?_⟩
  rintro ⟨ws, hws, hflat⟩
  rw [hrun] at hws
  obtain rfl := (List.map_injective_iff.mpr fun _ _ => Except.ok.inj) hws
  exact absurd hflat (by decide)

end XHttpCache
