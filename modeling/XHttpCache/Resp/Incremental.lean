import XHttpCache.Resp.Safety
import XHttpCache.Support.Framing

/-!
# Resp — incremental parsing is exact

Commands come in as the concatenation of their encodings, cut anywhere.  `Pending cmds c` says
that the connector `c` is to be fed with the commands `cmds`: its buffer is the beginning of their
encodings, and either none of it is parsed or the header and some arguments of the first command
are.  A call of `ProcessCmd` hands out that command if it is all there, and otherwise parses on
(`Pending.processCmd`); so the loop hands out the commands that are wholly there
(`Pending.drain`), and one piece after another does too (`resp_exact`).
-/

namespace XHttpCache
open Support

/-! ### Headers of the encoding -/

/-- A header: its first byte, and a number. -/
def encodeHead (t : Byte) (n : Nat) : Bytes := t :: natDecimal n ++ CRLF

theorem encodeArg_eq (arg : Bytes) : encodeArg arg = encodeHead 36 arg.length ++ (arg ++ CRLF) := by
  simp [encodeArg, encodeHead]

theorem encodeCmd_eq (argv : List Bytes) :
    encodeCmd argv = encodeHead 42 argv.length ++ argv.flatMap encodeArg := by
  simp [encodeCmd, encodeHead]

theorem length_encodeHead (t : Byte) (n : Nat) :
    (encodeHead t n).length = (natDecimal n).length + 3 := by
  simp [encodeHead, CRLF]

theorem not_mem_natDecimal {n : Nat} {c : Byte} (h : isdigit c = false) : c ∉ natDecimal n := by
  intro hc
  rw [isdigit_of_mem_natDecimal hc] at h
  cases h

variable {t : Byte} {n : Nat} {b more : Bytes}

theorem ten_not_mem_line (n : Nat) : 10 ∉ natDecimal n ++ [13] := by
  intro h
  rcases List.mem_append.mp h with h | h
  · exact not_mem_natDecimal (by decide) h
  · exact absurd h (by decide)

/-- A header is there when its line feed is. -/
theorem encodeHead_isPrefix (h : b <+: encodeHead t n ++ more) (ht : t ≠ 10) (h10 : 10 ∈ b) :
    encodeHead t n <+: b := by
  rcases List.prefix_or_prefix_of_prefix h (List.prefix_append (encodeHead t n) more) with hb | hb
  · have hsplit : encodeHead t n = (t :: (natDecimal n ++ [13])) ++ [10] := by
      simp [encodeHead, CRLF]
    rw [hsplit] at hb ⊢
    rcases List.prefix_concat_iff.mp hb with rfl | hb
    · exact List.prefix_refl _
    · rcases List.mem_cons.mp (hb.subset h10) with h | h
      · exact absurd h.symm ht
      · exact absurd h (ten_not_mem_line n)
  · exact hb

theorem headerLine_of_encodeHead (h : encodeHead t n <+: b) :
    b.headD 0 = t ∧ headerLine b = natDecimal n ++ [13] := by
  obtain ⟨more, rfl⟩ := h
  refine ⟨rfl, ?_⟩
  have hline : ∀ c ∈ natDecimal n ++ [13], decide (c ≠ 10) = true := by
    intro c hc
    simp only [decide_eq_true_eq]
    rintro rfl
    exact ten_not_mem_line n hc
  have hsplit : (encodeHead t n ++ more).drop 1 = (natDecimal n ++ [13]) ++ 10 :: more := by
    simp [encodeHead, CRLF]
  rw [headerLine, hsplit, List.takeWhile_append_of_pos hline,
    List.takeWhile_cons_of_neg (by decide), List.append_nil]

theorem length_headerLine (h : encodeHead t n <+: b) :
    (headerLine b).length + 2 = (encodeHead t n).length := by
  rw [(headerLine_of_encodeHead h).2, length_encodeHead, List.length_append, List.length_singleton]

theorem headerText_natDecimal (n : Nat) : headerText (natDecimal n ++ [13]) = natDecimal n := by
  have hcr : ∀ c ∈ natDecimal n, decide (c ≠ 13) = true := by
    intro c hc
    simp only [decide_eq_true_eq]
    rintro rfl
    exact not_mem_natDecimal (by decide) hc
  have hnul : ∀ c ∈ natDecimal n, decide (c ≠ 0) = true := by
    intro c hc
    simp only [decide_eq_true_eq]
    rintro rfl
    exact not_mem_natDecimal (by decide) hc
  rw [headerText, List.takeWhile_append_of_pos hcr, List.takeWhile_cons_of_neg (by decide),
    List.append_nil, cstr, List.takeWhile_eq_self_iff.mpr hnul]

theorem headerValue_natDecimal (n : Nat) : headerValue (natDecimal n ++ [13]) = n := by
  rw [headerValue, headerText_natDecimal, numeral_natDecimal]

theorem headerValue_of_encodeHead (h : encodeHead t n <+: b) : headerValue (headerLine b) = n := by
  rw [(headerLine_of_encodeHead h).2, headerValue_natDecimal]

theorem fitsTmp_natDecimal (h : n < 10 ^ 10) : FitsTmp (natDecimal n ++ [13]) := by
  intro c hc
  have hlen := length_natDecimal_le (by omega) h
  rw [List.drop_append, List.drop_of_length_le hlen, List.nil_append] at hc
  exact List.mem_singleton.mp (List.mem_of_mem_drop hc)

/-- The header of an encoding is benign. -/
theorem benign_of_encodeHead (h : encodeHead t n <+: b) {limit : Int} (hn : n ≤ limit)
    (hlimit : limit ≤ INT_MAX) : Benign limit b := by
  have hline := (headerLine_of_encodeHead h).2
  have hmax : INT_MAX = 2147483647 := rfl
  refine ⟨?_, ?_, ?_⟩
  · rw [hline]
    exact fitsTmp_natDecimal (by omega)
  · rw [headerValue_of_encodeHead h]
    omega
  · rw [headerValue_of_encodeHead h]
    exact hn

/-! ### Arguments -/

variable {arg : Bytes} {args : List Bytes}

theorem length_encodeArg (arg : Bytes) :
    (encodeArg arg).length = (natDecimal arg.length).length + 3 + arg.length + 2 := by
  rw [encodeArg_eq, List.length_append, length_encodeHead, List.length_append]
  rfl

/-- The argument is there when all its bytes are. -/
theorem nextArg_of_isPrefix (harg : arg ≠ []) (h : b <+: encodeArg arg ++ more) :
    nextArg b =
      if (encodeArg arg).length ≤ b.length then some (arg, (encodeArg arg).length) else none := by
  have hpos := List.length_pos_of_ne_nil harg
  have hlen := length_encodeArg arg
  by_cases h10 : 10 ∈ b
  · have hhead : encodeHead 36 arg.length <+: b := by
      rw [encodeArg_eq, List.append_assoc] at h
      exact encodeHead_isPrefix h (by decide) h10
    obtain ⟨h36, hline⟩ := headerLine_of_encodeHead hhead
    have hll := length_headerLine hhead
    rw [hline] at hll
    have hhl := length_encodeHead 36 arg.length
    rw [nextArg, hline, headerValue_natDecimal]
    split_ifs with hc hle hle
    · -- all of it is there, so it starts with the encoding
      obtain ⟨b', rfl⟩ : encodeArg arg <+: b :=
        List.prefix_of_prefix_length_le (List.prefix_append _ more) h hle
      have hdrop : (encodeArg arg ++ b').drop (encodeHead 36 arg.length).length =
          arg ++ (CRLF ++ b') := by
        rw [encodeArg_eq, List.append_assoc, List.drop_left, List.append_assoc]
      rw [hll, Int.toNat_natCast, hdrop, List.take_left, hlen, hhl]
    · omega
    · exact absurd ⟨h36, h10, by omega, by omega⟩ hc
    · rfl
  · have hlt : ¬ (encodeArg arg).length ≤ b.length := fun hle => by
      have := List.prefix_of_prefix_length_le (List.prefix_append _ more) h hle
      exact h10 (this.subset (by simp [encodeArg, CRLF]))
    rw [nextArg, if_neg fun hc => h10 hc.2.1, if_neg hlt]

/-- The headers of the arguments are benign. -/
theorem benignArgs_of_isPrefix (hne : [] ∉ args) (hlen : ∀ arg ∈ args, arg.length ≤ INT_MAX - 2)
    (h : b <+: args.flatMap encodeArg ++ more) : BenignArgs args.length b := by
  induction args generalizing b with
  | nil => trivial
  | cons arg args ih =>
      have harg : arg ≠ [] := fun he => hne (he ▸ List.mem_cons_self)
      rw [List.flatMap_cons, List.append_assoc] at h
      refine ⟨fun _ h10 => ?_, ?_⟩
      · rw [encodeArg_eq, List.append_assoc] at h
        exact benign_of_encodeHead (encodeHead_isPrefix h (by decide) h10)
          (hlen arg List.mem_cons_self) (by decide)
      · rw [nextArg_of_isPrefix harg h]
        split_ifs
        · exact ih (fun hm => hne (List.mem_cons_of_mem _ hm))
            (fun a ha => hlen a (List.mem_cons_of_mem _ ha)) (drop_isPrefix h)
        · trivial

/-- The arguments that are taken are those that are wholly there. -/
theorem takeArgs_of_isPrefix (hne : [] ∉ args) (h : b <+: args.flatMap encodeArg ++ more) :
    takeArgs args.length b =
      (wholly encodeArg b.length args, ((wholly encodeArg b.length args).flatMap encodeArg).length) := by
  induction args generalizing b with
  | nil => rfl
  | cons arg args ih =>
      have harg : arg ≠ [] := fun he => hne (he ▸ List.mem_cons_self)
      rw [List.flatMap_cons, List.append_assoc] at h
      rw [List.length_cons, takeArgs, nextArg_of_isPrefix harg h, wholly]
      split_ifs
      · simp only [ih (fun hm => hne (List.mem_cons_of_mem _ hm)) (drop_isPrefix h),
          List.length_drop, List.flatMap_cons, List.length_append]
      · rfl

/-! ### Commands -/

/-- The connector that has parsed, of a command, the header and the arguments `done`, and lacks
`todo`. -/
def inCmd (b : Bytes) (done todo : List Bytes) : XRedisConnectorBase :=
  { cmdbuffer := b
    argv := some done
    argc := done.length
    argnum := todo.length
    parsed := (encodeHead 42 (done ++ todo).length ++ done.flatMap encodeArg).length
    slots := (done ++ todo).length }

/-- The connector is to be fed with the commands, of whose encodings it has a beginning. -/
inductive Pending : List (List Bytes) → XRedisConnectorBase → Prop where
  | idle {cmds : List (List Bytes)} {b : Bytes} (h : b <+: encodeCmds cmds) :
      Pending cmds { cmdbuffer := b }
  | inCmd {done todo : List Bytes} {cmds : List (List Bytes)} {b : Bytes} (ht : todo ≠ [])
      (hp : encodeHead 42 (done ++ todo).length ++ done.flatMap encodeArg <+: b)
      (h : b <+: encodeCmds ((done ++ todo) :: cmds)) :
      Pending ((done ++ todo) :: cmds) (inCmd b done todo)

/-- Commands that a client may send: there is an argument, and none is empty. -/
def Sendable (cmd : List Bytes) : Prop := cmd ≠ [] ∧ [] ∉ cmd

/-- Such a command whose encoding has a size that is an `int`. -/
structure Receivable (cmd : List Bytes) : Prop where
  sendable : Sendable cmd
  length : (encodeCmd cmd).length < 2 ^ 31

variable {c : XRedisConnectorBase} {cmd : List Bytes} {cmds : List (List Bytes)}

theorem Pending.isPrefix (h : Pending cmds c) : c.cmdbuffer <+: encodeCmds cmds := by
  cases h with
  | idle h => exact h
  | inCmd _ _ h => exact h

/-- Nothing is parsed where nothing has come. -/
theorem Pending.eq_fresh (h : Pending cmds c) (hb : c.cmdbuffer = []) : c = {} := by
  cases h with
  | @idle _ b h => exact congrArg (fun b => ({ cmdbuffer := b } : XRedisConnectorBase)) hb
  | @inCmd done todo _ b ht hp h =>
      have hnil : b = [] := hb
      rw [hnil] at hp
      cases List.prefix_nil.mp hp

theorem Pending.deliver (h : Pending cmds c) {piece : Bytes}
    (hp : c.cmdbuffer ++ piece <+: encodeCmds cmds) :
    Pending cmds { c with cmdbuffer := c.cmdbuffer ++ piece } := by
  cases h with
  | idle h => exact .idle hp
  | inCmd ht hd h => exact .inCmd ht (hd.trans (List.prefix_append _ piece)) hp

/-- Its sizes are `int`s too. -/
theorem Receivable.length_le (h : Receivable cmd) :
    cmd.length ≤ INT_MAX ∧ ∀ arg ∈ cmd, arg.length ≤ INT_MAX - 2 := by
  have hmax : INT_MAX = 2147483647 := rfl
  have hall : ∀ arg ∈ cmd, arg.length + 6 * cmd.length + 4 < 2 ^ 31 := fun arg ha =>
    lt_of_le_of_lt (length_encodeCmd_ge ha) h.length
  obtain ⟨arg, ha⟩ := List.exists_mem_of_ne_nil cmd h.sendable.1
  have hcmd := hall arg ha
  refine ⟨by omega, fun arg ha => ?_⟩
  have := hall arg ha
  omega

theorem encodeCmds_cons (cmd : List Bytes) (cmds : List (List Bytes)) :
    encodeCmds (cmd :: cmds) = encodeCmd cmd ++ encodeCmds cmds := List.flatMap_cons

/-- A command is not longer than all of them. -/
theorem length_encodeCmd_le (h : cmd ∈ cmds) :
    (encodeCmd cmd).length ≤ (encodeCmds cmds).length := by
  rw [encodeCmds, List.length_flatMap]
  exact List.le_sum_of_mem (List.mem_map_of_mem h)

/-- What has been parsed of a command, and what follows. -/
theorem encodeCmd_split (done todo : List Bytes) (more : Bytes) :
    encodeCmd (done ++ todo) ++ more =
      (encodeHead 42 (done ++ todo).length ++ done.flatMap encodeArg) ++
        (todo.flatMap encodeArg ++ more) := by
  simp [encodeCmd_eq]

theorem length_inCmd (done todo : List Bytes) :
    (encodeCmd (done ++ todo)).length =
      (encodeHead 42 (done ++ todo).length ++ done.flatMap encodeArg).length +
        (todo.flatMap encodeArg).length := by
  rw [← List.length_append, encodeCmd_eq, List.flatMap_append, List.append_assoc]

/-- More arguments of the command. -/
theorem inCmd_push (b : Bytes) (done todo : List Bytes) (n : Nat) :
    let new := wholly encodeArg n todo
    (inCmd b done todo).push new (new.flatMap encodeArg).length =
      inCmd b (done ++ new) (todo.drop new.length) := by
  intro new
  have hall : (done ++ new) ++ todo.drop new.length = done ++ todo := by
    rw [List.append_assoc, wholly_append_drop]
  have hnum : (todo.length : Int) - new.length = (todo.drop new.length).length := by
    have := congrArg List.length hall
    simp only [List.length_append] at this
    omega
  simp only [inCmd, XRedisConnectorBase.push, hall, hnum, Option.map_some, List.length_append,
    List.flatMap_append, Nat.cast_add, Int.add_assoc]

/-- **`ProcessCmd` in a command** hands it out if it is all there, and parses on if not. -/
theorem processArgs_inCmd {done todo : List Bytes} (hs : Receivable (done ++ todo))
    (hb : b.length < 2 ^ 31) (ht : todo ≠ [])
    (hp : encodeHead 42 (done ++ todo).length ++ done.flatMap encodeArg <+: b)
    (h : b <+: encodeCmd (done ++ todo) ++ more) :
    let rest := b.drop (inCmd b done todo).parsed.toNat
    ∃ stores, processArgs (inCmd b done todo) rest rest.length =
      if (encodeCmd (done ++ todo)).length ≤ b.length then
        .ok { ret := true, doCmd := some (done ++ todo), stores
              connector := { cmdbuffer := b.drop (encodeCmd (done ++ todo)).length } }
      else
        let new := wholly encodeArg rest.length todo
        .ok { ret := false, stores, connector := inCmd b (done ++ new) (todo.drop new.length) } := by
  intro rest
  have hcmd := length_inCmd done todo
  have hrest : rest <+: todo.flatMap encodeArg ++ more := by
    rw [encodeCmd_split] at h
    exact drop_isPrefix h
  have hrl : rest.length = b.length -
      (encodeHead 42 (done ++ todo).length ++ done.flatMap encodeArg).length :=
    List.length_drop
  have hpl := hp.length_le
  have hne : [] ∉ todo := fun hm => hs.sendable.2 (List.mem_append_right _ hm)
  have hcl := hs.length
  have hargs : ∀ arg ∈ todo, arg.length ≤ INT_MAX - 2 := fun arg ha =>
    hs.length_le.2 arg (List.mem_append_right _ ha)
  have hpos := List.length_pos_of_ne_nil ht
  have hfit : (inCmd b done todo).parsed + rest.length < 2 ^ 31 := by
    simp only [hrl, inCmd]
    omega
  have hspec := @processArgs_spec (inCmd b done todo) rest done
    (benignArgs_of_isPrefix hne hargs hrest) (Int.natCast_nonneg _) hfit rfl
    (by simp only [inCmd]; omega)
    (by simp only [inCmd, List.length_append]; omega)
  have hnum : (inCmd b done todo).argnum.toNat = todo.length := rfl
  simp only [hnum, takeArgs_of_isPrefix hne hrest] at hspec
  refine ⟨takeStores todo.length rest, hspec.trans ?_⟩
  by_cases hall : (todo.flatMap encodeArg).length ≤ rest.length
  · have hw := wholly_of_le hall
    rw [hw, if_pos (show (todo.length : Int) = (inCmd b done todo).argnum from rfl),
      if_pos (by omega)]
    have hparsed : ((inCmd b done todo).push todo (todo.flatMap encodeArg).length).parsed =
        (encodeCmd (done ++ todo)).length := by
      rw [hcmd]
      rfl
    have hu : u64 (encodeCmd (done ++ todo)).length = (encodeCmd (done ++ todo)).length := by
      rw [u64_of_nonneg (by omega) (by omega), Int.toNat_natCast]
    simp only [XRedisConnectorBase.freeArg, hparsed, hu]
    rfl
  · have hw : ¬ (wholly encodeArg rest.length todo).length = todo.length := fun heq =>
      hall (length_wholly_eq_iff.mp heq)
    rw [if_neg (by simp only [inCmd]; omega), if_neg (by omega), inCmd_push]

/-- What a call of `ProcessCmd` makes of the buffer `b`: it hands out the first command, or the
command is not all there. -/
inductive Outcome (cmds : List (List Bytes)) (b : Bytes) : Except Fault Processed → Prop where
  | whole {cmd : List Bytes} {cmds' : List (List Bytes)} {stores : List Store}
      (hc : cmds = cmd :: cmds') (hle : (encodeCmd cmd).length ≤ b.length) :
      Outcome cmds b (.ok { ret := true, doCmd := some cmd, stores
                            connector := { cmdbuffer := b.drop (encodeCmd cmd).length } })
  | part {stores : List Store} {c : XRedisConnectorBase}
      (hw : wholly encodeCmd b.length cmds = []) (hp : Pending cmds c) (hb : c.cmdbuffer = b) :
      Outcome cmds b (.ok { ret := false, stores, connector := c })

theorem outcome_inCmd {done todo : List Bytes} (hs : Receivable (done ++ todo))
    (hb : b.length < 2 ^ 31) (ht : todo ≠ [])
    (hp : encodeHead 42 (done ++ todo).length ++ done.flatMap encodeArg <+: b)
    (h : b <+: encodeCmds ((done ++ todo) :: cmds)) :
    let rest := b.drop (inCmd b done todo).parsed.toNat
    Outcome ((done ++ todo) :: cmds) b (processArgs (inCmd b done todo) rest rest.length) := by
  intro rest
  rw [encodeCmds_cons] at h
  obtain ⟨stores, hspec⟩ := processArgs_inCmd hs hb ht hp h
  rw [hspec]
  split_ifs with hle
  · exact .whole rfl hle
  · refine .part (wholly_cons_of_lt (Nat.not_le.mp hle)) ?_ rfl
    have hrl : rest.length = b.length -
        (encodeHead 42 (done ++ todo).length ++ done.flatMap encodeArg).length :=
      List.length_drop
    have hpl := hp.length_le
    have hcmd := length_inCmd done todo
    have hnew := @length_flatMap_wholly_le _ _ encodeArg rest.length todo
    generalize hw : wholly encodeArg rest.length todo = new at hnew ⊢
    have hall : (done ++ new) ++ todo.drop new.length = done ++ todo := by
      rw [List.append_assoc, ← hw, wholly_append_drop]
    have hmissing : todo.drop new.length ≠ [] := fun hnil => by
      rw [hnil, List.append_nil] at hall
      have htodo : new = todo := List.append_cancel_left hall
      rw [htodo] at hnew
      omega
    rw [← hall] at h ⊢
    refine .inCmd hmissing (List.prefix_of_prefix_length_le ?_ h ?_) h
    · rw [encodeCmd_split]
      exact List.prefix_append _ _
    · rw [hall, List.flatMap_append, ← List.append_assoc, List.length_append]
      omega

theorem benignCall_idle (hs : Receivable cmd) (hb : b.length < 2 ^ 31)
    (h : b <+: encodeCmd cmd ++ more) : BenignCall { cmdbuffer := b } := by
  obtain ⟨hcount, hargs⟩ := hs.length_le
  refine ⟨hb, fun _ _ h10 => ?_, fun hn => absurd rfl hn⟩
  rw [encodeCmd_eq, List.append_assoc] at h
  have hhead := encodeHead_isPrefix h (by decide) h10
  refine ⟨benign_of_encodeHead hhead hcount (le_refl _), ?_⟩
  simp only [length_headerLine hhead, headerValue_of_encodeHead hhead, Int.toNat_natCast]
  exact benignArgs_of_isPrefix hs.sendable.2 hargs (drop_isPrefix h)

theorem started_eq {argv : List Bytes} (h : encodeHead 42 argv.length <+: b) :
    started b = inCmd b [] argv := by
  simp only [started, inCmd, headerValue_of_encodeHead h, List.nil_append, List.flatMap_nil,
    List.append_nil, List.length_nil, Int.toNat_natCast, ← length_headerLine h]
  push_cast
  rfl

/-- `ProcessCmd` at a header. -/
theorem processCmd_head (hb : BenignCall { cmdbuffer := b }) (hne : cmd ≠ [])
    (h : encodeHead 42 cmd.length <+: b) :
    processCmd { cmdbuffer := b } =
      let rest := b.drop (inCmd b [] cmd).parsed.toNat
      processArgs (inCmd b [] cmd) rest rest.length := by
  have hpos := List.length_pos_of_ne_nil hne
  have h10 : 10 ∈ b := h.subset (by simp [encodeHead, CRLF])
  have hparsed : (inCmd b [] cmd).parsed.toNat = (encodeHead 42 cmd.length).length := by
    simp [inCmd]
  rw [processCmd_idle hb, if_pos ⟨(headerLine_of_encodeHead h).1, h10, by
    rw [headerValue_of_encodeHead h]; omega⟩, started_eq h, length_headerLine h, hparsed]

/-- **A call of `ProcessCmd`** on a command that is all there, whatever follows it. -/
theorem processCmd_encodeCmd (hs : Receivable cmd) {rest : Bytes}
    (hlen : (encodeCmd cmd ++ rest).length < 2 ^ 31) :
    ∃ stores, processCmd { cmdbuffer := encodeCmd cmd ++ rest } =
      .ok { ret := true, doCmd := some cmd, stores, connector := { cmdbuffer := rest } } := by
  have hhead : encodeHead 42 cmd.length <+: encodeCmd cmd ++ rest := by
    rw [encodeCmd_eq, List.append_assoc]
    exact List.prefix_append _ _
  have hwhole : encodeCmd cmd ++ rest <+: encodeCmd ([] ++ cmd) ++ rest := List.prefix_refl _
  obtain ⟨stores, hspec⟩ := @processArgs_inCmd _ rest [] cmd hs hlen hs.sendable.1
    (by simpa using hhead) hwhole
  refine ⟨stores, ?_⟩
  rw [processCmd_head (benignCall_idle hs hlen hwhole) hs.sendable.1 hhead, hspec,
    if_pos (by simp), List.nil_append, List.drop_left]

/-- **A call of `ProcessCmd`.** -/
theorem Pending.processCmd (h : Pending cmds c) (hs : ∀ cmd ∈ cmds, Receivable cmd)
    (hlen : c.cmdbuffer.length < 2 ^ 31) :
    Outcome cmds c.cmdbuffer (XHttpCache.processCmd c) := by
  cases h with
  | @inCmd done todo cmds b ht hp h =>
      have hcmd := hs (done ++ todo) List.mem_cons_self
      have hpl := hp.length_le
      have hpos : 0 < (encodeHead 42 (done ++ todo).length ++ done.flatMap encodeArg).length :=
        List.length_pos_of_ne_nil (by simp [encodeHead])
      have htodo := List.length_pos_of_ne_nil ht
      have hmid := @processCmd_midway (XHttpCache.inCmd b done todo)
        (by simp only [XHttpCache.inCmd]; omega)
        (by simp only [XHttpCache.inCmd]; omega)
        (by simp only [XHttpCache.inCmd]; omega) hlen
      rw [hmid]
      exact outcome_inCmd hcmd hlen ht hp h
  | @idle _ b h =>
      cases cmds with
      | nil =>
          obtain rfl : b = [] := List.prefix_nil.mp h
          exact .part rfl (.idle h) rfl
      | cons cmd cmds =>
          have hcmd := hs cmd List.mem_cons_self
          have hcall := benignCall_idle hcmd hlen (encodeCmds_cons cmd cmds ▸ h)
          by_cases h10 : 10 ∈ b
          · have hhead : encodeHead 42 cmd.length <+: b := by
              rw [encodeCmds_cons, encodeCmd_eq, List.append_assoc] at h
              exact encodeHead_isPrefix h (by decide) h10
            rw [processCmd_head hcall hcmd.sendable.1 hhead]
            exact @outcome_inCmd b cmds [] cmd hcmd hlen hcmd.sendable.1 (by simpa using hhead) h
          · rw [processCmd_idle hcall, if_neg fun hc => h10 hc.2.1]
            refine .part (wholly_cons_of_lt (Nat.not_le.mp fun hle => h10 ?_)) (.idle h) rfl
            have hwhole : encodeCmd cmd <+: b :=
              List.prefix_of_prefix_length_le (by simp [encodeCmds]) h hle
            exact hwhole.subset (by simp [encodeCmd, CRLF])

/-! ### Runs -/

/-- **The loop of `ReadCallback`** hands out the commands that are wholly there, and is done after
at most as many calls as there are bytes, and one more. -/
theorem Pending.drain (h : Pending cmds c) (hs : ∀ cmd ∈ cmds, Receivable cmd)
    (hlen : c.cmdbuffer.length < 2 ^ 31) {fuel : Nat} (hf : c.cmdbuffer.length < fuel) :
    let w := wholly encodeCmd c.cmdbuffer.length cmds
    ∃ c', XHttpCache.drain fuel c = .ok (w, c') ∧ Pending (cmds.drop w.length) c' ∧
      c'.cmdbuffer = c.cmdbuffer.drop (w.flatMap encodeCmd).length := by
  induction fuel generalizing c cmds with
  | zero => cases hf
  | succ fuel ih =>
      have hout := h.processCmd hs hlen
      rw [XHttpCache.drain]
      generalize XHttpCache.processCmd c = res at hout
      cases hout with
      | part hw hp hb =>
          rw [hw]
          exact ⟨_, rfl, hp, hb⟩
      | @whole cmd cmds' stores hc hle =>
          subst hc
          have hpos : 0 < (encodeCmd cmd).length := List.length_pos_of_ne_nil (by simp [encodeCmd])
          have hpre := h.isPrefix
          rw [encodeCmds, List.flatMap_cons] at hpre
          have hrest : Pending cmds' { cmdbuffer := c.cmdbuffer.drop (encodeCmd cmd).length } :=
            .idle (drop_isPrefix hpre)
          obtain ⟨c', hdrain, hpend, hbuf⟩ := ih hrest
            (fun cmd' h' => hs cmd' (List.mem_cons_of_mem _ h'))
            (by simp only [List.length_drop]; omega) (by simp only [List.length_drop]; omega)
          simp only [List.length_drop] at hdrain hpend hbuf
          refine ⟨c', ?_, ?_, ?_⟩
          · simp only [bind, Except.bind, if_true, hdrain, wholly_cons_of_le hle]
            rfl
          · rw [wholly_cons_of_le hle]
            exact hpend
          · rw [wholly_cons_of_le hle, hbuf, List.drop_drop, List.flatMap_cons, List.length_append]

/-- The commands that have been handed out, and what follows in their encodings. -/
theorem encodeCmds_wholly (n : Nat) (cmds : List (List Bytes)) :
    encodeCmds cmds =
      (wholly encodeCmd n cmds).flatMap encodeCmd ++
        encodeCmds (cmds.drop (wholly encodeCmd n cmds).length) := by
  rw [encodeCmds, encodeCmds, ← List.flatMap_append, wholly_append_drop]

/-- A piece that comes in. -/
theorem Pending.readCallback (h : Pending cmds c) (hs : ∀ cmd ∈ cmds, Receivable cmd)
    {piece : Bytes} (hlen : (c.cmdbuffer ++ piece).length < 2 ^ 31)
    (hp : c.cmdbuffer ++ piece <+: encodeCmds cmds) :
    let w := wholly encodeCmd (c.cmdbuffer ++ piece).length cmds
    ∃ c', XHttpCache.readCallback c piece = .ok (w, c') ∧ Pending (cmds.drop w.length) c' ∧
      c'.cmdbuffer = (c.cmdbuffer ++ piece).drop (w.flatMap encodeCmd).length :=
  (h.deliver hp).drain hs hlen (Nat.lt_add_one _)

/-- One piece after another, for a connector that has handed out what it could. -/
theorem Pending.feed (h : Pending cmds c) (hw : wholly encodeCmd c.cmdbuffer.length cmds = [])
    (hs : ∀ cmd ∈ cmds, Receivable cmd) (hlen : (encodeCmds cmds).length < 2 ^ 31)
    {pieces : List Bytes} (hp : c.cmdbuffer ++ pieces.flatten <+: encodeCmds cmds) :
    let w := wholly encodeCmd (c.cmdbuffer ++ pieces.flatten).length cmds
    ∃ c', XHttpCache.feed c pieces = .ok (w, c') ∧ Pending (cmds.drop w.length) c' ∧
      c'.cmdbuffer = (c.cmdbuffer ++ pieces.flatten).drop (w.flatMap encodeCmd).length := by
  induction pieces generalizing c cmds with
  | nil =>
      rw [List.flatten_nil, List.append_nil]
      simp only [hw]
      exact ⟨c, rfl, h, rfl⟩
  | cons piece pieces ih =>
      rw [List.flatten_cons, ← List.append_assoc] at hp ⊢
      have hpiece : c.cmdbuffer ++ piece <+: encodeCmds cmds := (List.prefix_append _ _).trans hp
      obtain ⟨c₁, hread, hpend, hbuf⟩ :=
        h.readCallback hs (lt_of_le_of_lt hpiece.length_le hlen) hpiece
      have hle := @length_flatMap_wholly_le _ _ encodeCmd (c.cmdbuffer ++ piece).length cmds
      have happ := @wholly_append _ _ encodeCmd (c.cmdbuffer ++ piece).length
        pieces.flatten.length cmds
      have hsplit := encodeCmds_wholly (c.cmdbuffer ++ piece).length cmds
      have hrest := @wholly_rest _ _ encodeCmd (c.cmdbuffer ++ piece).length cmds
      generalize wholly encodeCmd (c.cmdbuffer ++ piece).length cmds = w₁ at *
      have hlen₁ : c₁.cmdbuffer.length =
          (c.cmdbuffer ++ piece).length - (w₁.flatMap encodeCmd).length := by
        rw [hbuf, List.length_drop]
      have hp₁ : c₁.cmdbuffer ++ pieces.flatten <+: encodeCmds (cmds.drop w₁.length) := by
        rw [hsplit] at hp
        have := drop_isPrefix hp
        rwa [List.drop_append_of_le_length hle, ← hbuf] at this
      rw [← hlen₁] at hrest
      have hlen₂ : (encodeCmds (cmds.drop w₁.length)).length < 2 ^ 31 := by
        refine lt_of_le_of_lt ?_ hlen
        rw [hsplit, List.length_append]
        exact Nat.le_add_left _ _
      obtain ⟨c₂, hfeed, hpend₂, hbuf₂⟩ := ih hpend hrest
        (fun cmd hc => hs cmd (List.mem_of_mem_drop hc)) hlen₂ hp₁
      rw [List.length_append, hlen₁] at hfeed hpend₂ hbuf₂
      rw [List.length_append, happ]
      generalize wholly encodeCmd _ (cmds.drop w₁.length) = w₂ at hfeed hpend₂ hbuf₂ ⊢
      refine ⟨c₂, ?_, ?_, ?_⟩
      · rw [XHttpCache.feed, hread]
        simp only [bind, Except.bind, hfeed]
      · rwa [List.length_append, ← List.drop_drop]
      · rw [hbuf₂, hbuf, ← List.drop_append_of_le_length hle, List.drop_drop, List.flatMap_append,
          List.length_append]

/-- **Incremental parsing is exact.**  Commands with an argument each, and no empty one, come in as
the concatenation of their encodings, cut into pieces anywhere.  After every piece, the commands
handed out are those that are wholly contained in the bytes that have come; and when these end
with a command, the connector is as it was at first. -/
theorem resp_exact (hs : ∀ cmd ∈ cmds, Sendable cmd) (hlen : (encodeCmds cmds).length < 2 ^ 31)
    {come later : List Bytes} (hp : (come ++ later).flatten = encodeCmds cmds) :
    let w := wholly encodeCmd come.flatten.length cmds
    ∃ c, feed {} come = .ok (w, c) ∧ ∀ j, come.flatten = encodeCmds (cmds.take j) → c = {} := by
  have hfresh : Pending cmds {} := .idle List.nil_prefix
  have hnone : wholly encodeCmd 0 cmds = [] := wholly_zero (fun _ => List.cons_ne_nil _ _) cmds
  have hrec : ∀ cmd ∈ cmds, Receivable cmd := fun cmd hcmd =>
    ⟨hs cmd hcmd, lt_of_le_of_lt (length_encodeCmd_le hcmd) hlen⟩
  have hcome : [] ++ come.flatten <+: encodeCmds cmds := by
    rw [← hp, List.flatten_append]
    exact List.prefix_append _ _
  obtain ⟨c, hfeed, hpend, hbuf⟩ := hfresh.feed hnone hrec hlen hcome
  refine ⟨c, hfeed, fun j hend => hpend.eq_fresh ?_⟩
  have hall := @length_flatMap_wholly_take _ _ encodeCmd cmds j
  rw [hbuf, List.nil_append, hend]
  exact List.drop_eq_nil_of_le (le_of_eq hall.symm)

/-- A `GET` and a `DEL` in three pieces, of which two have come. -/
theorem resp_exact_pieces :
    ∃ c, feed {} [ascii "*2\r\n$3\r\nGE", ascii "T\r\n$1\r\nk\r\n*1\r\n"] =
      .ok ([[ascii "GET", ascii "k"]], c) := by
  have hs : ∀ cmd ∈ [[ascii "GET", ascii "k"], [ascii "DEL"]], Sendable cmd := by
    intro cmd hcmd
    simp only [List.mem_cons, List.not_mem_nil, or_false] at hcmd
    rcases hcmd with rfl | rfl <;> exact ⟨by decide, by decide⟩
  obtain ⟨c, hc, -⟩ := @resp_exact [[ascii "GET", ascii "k"], [ascii "DEL"]] hs (by decide)
    [ascii "*2\r\n$3\r\nGE", ascii "T\r\n$1\r\nk\r\n*1\r\n"] [ascii "$3\r\nDEL\r\n"]
    (by decide)
  exact ⟨c, hc⟩

end XHttpCache
