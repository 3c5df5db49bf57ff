import XHttpCache.Resp.Incremental

/-!
# Resp — what the parser takes for a command

`ProcessCmd` finds a line by its LF, drops CRs, leaves the number in it to `strtol` and narrows it
to an `int`, and does not look at the two bytes behind an argument.  `CmdRead u argv` is the grammar
that comes of it, and no stream has it take anything else for a command (`processCmd_took`).

* `well_formed_iff`: what is dispatched stood there as RESP has it exactly if each of its lines is
  the number it states, and CR LF follows each argument (`PlainCmd`).
* `empty_argument_iff`: a command is dispatched, and those behind it, exactly if it has no empty
  argument: a length of 0 is taken for a header that has not come.
-/

namespace XHttpCache
open Support

/-! ### Lines -/

/-- The number that `ParaseLength` reads in a line: that of its text, as an `int`. -/
def lineInt (line : Bytes) : Int := i32 (strtoll (headerText line))

theorem lineInt_natDecimal {n : Nat} (h : n < 2 ^ 31) : lineInt (natDecimal n ++ [13]) = n := by
  rw [lineInt, headerText_natDecimal, strtoll_natDecimal (h.trans (by decide)),
    i32_eq (by omega) (by omega)]

/-- One more byte in `tmp`, which has room for eleven. -/
theorem tmpOf_take_append {s : Bytes} {c : Byte} (h : c = 13 ∨ s.length ≤ 10) :
    tmpOf ((s ++ [c]).take 11) =
      if c = 13 then tmpOf (s.take 11) else (tmpOf (s.take 11)).set s.length c := by
  by_cases hs : s.length ≤ 10
  · have hlen : (s ++ [c]).length ≤ 11 := by
      rw [List.length_append, List.length_singleton]
      omega
    rw [List.take_of_length_le hlen, List.take_of_length_le (hs.trans (by decide)),
      tmpOf_append hs]
  · rw [if_pos (h.resolve_right hs), List.take_append_of_le_length (by omega)]

/-- `strtol` is given the text of the line. -/
theorem cstr_tmpOf_take {line : Bytes} (h : ∀ c ∈ line.drop 11, c = 13) :
    cstr (tmpOf (line.take 11)) = headerText line := by
  have hpad : ∀ s, tmpOf s ++ [0] =
      s.map (fun c => if c = 13 then 0 else c) ++ 0 :: List.replicate (11 - s.length) 0 := by
    intro s
    rw [tmpOf, List.append_assoc, ← List.replicate_succ', List.replicate_succ]
  have hend : ∀ s, cstr (s ++ [0]) = cstr s := fun s => takeWhile_append_of_not s (by simp)
  have hcr : ∀ c ∈ line.drop 11, decide (c ≠ 13) = false := fun c hc => by simp [h c hc]
  rw [← hend, hpad, cstr_blank, headerText]
  conv_rhs => rw [← List.take_append_drop 11 line, takeWhile_append_of_not _ hcr]

/-- **The loop of `ParaseLength`**, where it comes to an end: it has gone through a line, of which
`tmp` has the first eleven bytes. -/
theorem fillTmp_eq_ok {ptr before : Bytes} {j : Nat} {tmp : Bytes}
    (h : fillTmp ptr before.length (tmpOf (before.take 11)) = .ok (j, tmp)) :
    ∃ line more, ptr = line ++ 10 :: more ∧ 10 ∉ line ∧ j = (before ++ line).length ∧
      tmp = tmpOf ((before ++ line).take 11) ∧
      ∀ c ∈ (before ++ line).drop 11, c ∈ before.drop 11 ∨ c = 13 := by
  induction ptr generalizing before with
  | nil => cases h
  | cons c ptr ih =>
      rw [fillTmp] at h
      by_cases hlf : c = 10
      · rw [if_pos hlf] at h
        cases h
        exact ⟨[], ptr, by rw [hlf]; rfl, List.not_mem_nil, by rw [List.append_nil],
          by rw [List.append_nil], fun d hd => Or.inl (by rwa [List.append_nil] at hd)⟩
      -- a byte of the line, which `tmp` has room for or is a CR
      have hnext : ∀ (hc : c = 13 ∨ before.length ≤ 10),
          fillTmp ptr (before ++ [c]).length (tmpOf ((before ++ [c]).take 11)) = .ok (j, tmp) →
            ∃ line more, c :: ptr = line ++ 10 :: more ∧ 10 ∉ line ∧
              j = (before ++ line).length ∧ tmp = tmpOf ((before ++ line).take 11) ∧
              ∀ d ∈ (before ++ line).drop 11, d ∈ before.drop 11 ∨ d = 13 := by
        intro hc h'
        obtain ⟨line, more, rfl, hline, hj, htmp, hcr⟩ := ih h'
        rw [List.append_assoc] at hj htmp hcr
        refine ⟨c :: line, more, rfl, ?_, hj, htmp, fun d hd => ?_⟩
        · exact fun hm => (List.mem_cons.mp hm).elim (fun h => hlf h.symm) hline
        · rcases hcr d hd with hd | rfl
          · rw [List.drop_append] at hd
            rcases List.mem_append.mp hd with hd | hd
            · exact Or.inl hd
            · rcases hc with rfl | hc
              · exact Or.inr (List.mem_singleton.mp (List.mem_of_mem_drop hd))
              · rw [List.drop_of_length_le (by rw [List.length_singleton]; omega)] at hd
                cases hd
          · exact Or.inr rfl
      rw [if_neg hlf] at h
      by_cases hcr : c = 13
      · refine hnext (Or.inl hcr) ?_
        rw [if_pos hcr] at h
        rw [tmpOf_take_append (Or.inl hcr), if_pos hcr, List.length_append]
        exact h
      · rw [if_neg hcr] at h
        split_ifs at h with hroom
        rw [length_tmpOf (List.length_take_le _ _)] at hroom
        refine hnext (Or.inr (Nat.le_of_lt_succ hroom)) ?_
        rw [tmpOf_take_append (Or.inr (Nat.le_of_lt_succ hroom)), if_neg hcr, List.length_append]
        exact h

/-- A line and its LF, after a first byte. -/
theorem headerLine_cons {line : Bytes} (h : 10 ∉ line) (t : Byte) (more : Bytes) :
    headerLine (t :: line ++ 10 :: more) = line := by
  have hline : ∀ c ∈ line, decide (c ≠ 10) = true := fun c hc =>
    decide_eq_true fun hc' => h (hc' ▸ hc)
  rw [headerLine, List.cons_append, List.drop_succ_cons, List.drop_zero,
    List.takeWhile_append_of_pos hline, List.takeWhile_cons_of_neg (by decide), List.append_nil]

/-- **What `ParaseLength` returns**, if not 0: the size of the line, and the number in it. -/
theorem paraseLength_eq_ok {ptr : Bytes} {size ret num : Int}
    (h : paraseLength ptr size = .ok (ret, num)) (hret : ret ≠ 0) :
    ∃ t line more, ptr = t :: line ++ 10 :: more ∧ 10 ∉ line ∧ ret = line.length + 2 ∧
      num = lineInt line ∧ num ≠ 0 := by
  rw [paraseLength] at h
  by_cases hmem : memchr ptr 10 (u64 size) = true
  · rw [if_pos hmem] at h
    cases hf : fillTmp (ptr.drop 1) 0 (List.replicate 11 0) with
    | error e =>
        rw [hf] at h
        cases h
    | ok r =>
        obtain ⟨i, tmp⟩ := r
        obtain ⟨line, more, hptr, hline, rfl, rfl, hcr⟩ := @fillTmp_eq_ok _ [] _ _ hf
        have htext : cstr (tmpOf (([] ++ line).take 11)) = headerText line :=
          cstr_tmpOf_take fun c hc => (hcr c hc).resolve_left List.not_mem_nil
        rw [hf] at h
        replace h := of_asInt_bind h
        simp only [htext] at h
        split_ifs at h with hz hnum
        · cases h
          exact absurd rfl hret
        · cases of_asInt_bind h
          cases ptr with
          | nil =>
              rw [List.drop_nil] at hptr
              exact absurd hptr.symm (by simp)
          | cons t ptr =>
              exact ⟨t, line, more, congrArg (t :: ·) hptr, hline, rfl, rfl, hnum⟩
  · rw [if_neg hmem] at h
    split_ifs at h
    cases h
    exact absurd rfl hret

/-! ### Arguments -/

/-- The bytes `u` are taken for the argument `arg`: `$`, a line that states its length, LF, the
argument, and two bytes that are not looked at. -/
def ArgRead (u arg : Bytes) : Prop :=
  ∃ line tail, u = 36 :: line ++ 10 :: (arg ++ tail) ∧ 10 ∉ line ∧ tail.length = 2 ∧ arg ≠ [] ∧
    lineInt line = arg.length

/-- **`ParaseData`** takes one argument, or nothing. -/
theorem paraseData_took {c c' : XRedisConnectorBase} {ptr : Bytes} {size p : Int}
    {stores : List Store} (h : paraseData c ptr size = .ok (p, stores, c'))
    (hsize : size ≤ ptr.length) :
    p = 0 ∧ c' = c ∨
      ∃ u arg, ArgRead u arg ∧ u <+: ptr ∧ p = u.length ∧ p ≤ size ∧
        { c' with parsed := c'.parsed + p } = c.push [arg] u.length := by
  rw [paraseData] at h
  by_cases h36 : ptr.headD 0 ≠ 36
  · rw [if_pos h36] at h
    cases h
    exact Or.inl ⟨rfl, rfl⟩
  rw [if_neg h36] at h
  cases hl : paraseLength ptr size with
  | error e =>
      rw [hl] at h
      cases h
  | ok r =>
      obtain ⟨ret, len⟩ := r
      rw [hl, ok_bind] at h
      dsimp only at h
      by_cases hret : ret = 0
      · rw [if_pos hret] at h
        cases h
        exact Or.inl ⟨rfl, rfl⟩
      obtain ⟨t, line, more, rfl, hline, rfl, rfl, hlen⟩ := paraseLength_eq_ok hl hret
      rw [if_neg hret] at h
      replace h := of_asInt_bind (of_asInt_bind h)
      by_cases hroom : size - (line.length + 2) < lineInt line + 2
      · rw [if_pos hroom] at h
        cases h
        exact Or.inl ⟨rfl, rfl⟩
      rw [if_neg hroom] at h
      by_cases hneg : lineInt line < 0
      · rw [if_pos hneg] at h
        cases h
      rw [if_neg hneg] at h
      cases hargv : c.argv with
      | none =>
          rw [hargv] at h
          cases h
      | some args =>
          simp only [hargv] at h
          split_ifs at h
          cases of_asInt_bind h
          obtain rfl : t = 36 := not_not.mp h36
          -- the argument and the two bytes behind it are there
          obtain ⟨n, hn⟩ : ∃ n : Nat, lineInt line = n :=
            ⟨(lineInt line).toNat, (Int.toNat_of_nonneg (not_lt.mp hneg)).symm⟩
          simp only [List.cons_append, List.length_cons, List.length_append] at hsize
          have hmore : n + 2 ≤ more.length := by omega
          have hrest : (36 :: line ++ 10 :: more).drop (line.length + 2 : Int).toNat = more := by
            have hlen : (line.length + 2 : Int).toNat = (36 :: line ++ [10]).length := by
              rw [List.cons_append, List.length_cons, List.length_append, List.length_singleton]
              omega
            rw [List.append_cons, hlen, List.drop_left]
          have htake : (more.take n).length = n := List.length_take_of_le (by omega)
          have htail : ((more.drop n).take 2).length = 2 :=
            List.length_take_of_le (by rw [List.length_drop]; omega)
          have hsplit : more = more.take n ++ (more.drop n).take 2 ++ (more.drop n).drop 2 := by
            rw [List.append_assoc, List.take_append_drop, List.take_append_drop]
          have hu : (36 :: line ++ 10 :: (more.take n ++ (more.drop n).take 2)).length =
              line.length + 2 + n + 2 := by
            simp only [List.cons_append, List.length_cons, List.length_append, htake, htail]
            omega
          refine Or.inr ⟨_, more.take n, ⟨line, (more.drop n).take 2, rfl, hline, htail, ?_, ?_⟩,
            ⟨(more.drop n).drop 2, ?_⟩, ?_, ?_, ?_⟩
          · intro hnil
            rw [hnil] at htake
            exact hlen (by rw [hn, ← htake]; rfl)
          · rw [hn, htake]
          · conv_rhs => rw [hsplit]
            simp only [List.cons_append, List.append_assoc]
          · rw [hn, hu]
            push_cast
            rfl
          · omega
          · rw [hrest, hn, Int.toNat_natCast, XRedisConnectorBase.push, hargv, hu]
            push_cast
            rfl

/-- **The loop over the arguments** takes some, one after another. -/
theorem paraseLoop_took {n : Nat} {c c' : XRedisConnectorBase} {ptr : Bytes} {size : Int}
    {stores : List Store} (h : paraseLoop n c ptr size = .ok (stores, c'))
    (hsize : size ≤ ptr.length) :
    ∃ us new, List.Forall₂ ArgRead us new ∧ us.flatten <+: ptr ∧
      (new ≠ [] → us.flatten.length ≤ size) ∧ c' = c.push new us.flatten.length := by
  have hnone : ∀ (c : XRedisConnectorBase) (ptr : Bytes) (size : Int), ∃ us new,
      List.Forall₂ ArgRead us new ∧ us.flatten <+: ptr ∧
        (new ≠ [] → us.flatten.length ≤ size) ∧ c = c.push new us.flatten.length :=
    fun c _ _ => ⟨[], [], .nil, List.nil_prefix, fun h => absurd rfl h, (push_nil c).symm⟩
  induction n generalizing c ptr size stores with
  | zero =>
      cases h
      exact hnone _ _ _
  | succ n ih =>
      rw [paraseLoop] at h
      cases hd : paraseData c ptr size with
      | error e =>
          rw [hd] at h
          cases h
      | ok r =>
          obtain ⟨p, stores₁, c₁⟩ := r
          rw [hd, ok_bind] at h
          dsimp only at h
          rcases paraseData_took hd hsize with ⟨rfl, rfl⟩ | ⟨u, arg, hu, hup, rfl, hle, hc₁⟩
          · rw [if_pos rfl] at h
            cases h
            exact hnone _ _ _
          · have hpos : (u.length : Int) ≠ 0 := by
              obtain ⟨line, tail, rfl, -⟩ := hu
              simp only [List.cons_append, List.length_cons]
              omega
            obtain ⟨rest, rfl⟩ := hup
            rw [if_neg hpos] at h
            replace h := of_asInt_bind (of_asInt_bind h)
            rw [hc₁, Int.toNat_natCast, List.drop_left] at h
            cases hl : paraseLoop n (c.push [arg] u.length) rest (size - u.length) with
            | error e =>
                rw [hl] at h
                cases h
            | ok r =>
                obtain ⟨stores₂, c₂⟩ := r
                rw [hl] at h
                cases h
                rw [List.length_append] at hsize
                obtain ⟨us, new, hnew, hus, hfit, rfl⟩ := ih hl (by omega)
                refine ⟨u :: us, arg :: new, .cons hu hnew, ?_, fun _ => ?_, ?_⟩
                · rw [List.flatten_cons]
                  exact (List.prefix_append_right_inj u).mpr hus
                · rw [List.flatten_cons, List.length_append]
                  cases hnew with
                  | nil => simpa using hle
                  | cons _ _ =>
                      have := hfit (List.cons_ne_nil _ _)
                      push_cast
                      omega
                · rw [push_push, List.flatten_cons, List.length_append]
                  rfl

/-! ### Commands -/

/-- The first line of a command, and the arguments after it. -/
def cmdBytes (line : Bytes) (us : List Bytes) : Bytes := 42 :: line ++ 10 :: us.flatten

/-- The bytes `u` are taken for the command `argv`: `*`, a line that states the number of its
arguments, LF, and the arguments. -/
def CmdRead (u : Bytes) (argv : List Bytes) : Prop :=
  ∃ line us, u = cmdBytes line us ∧ 10 ∉ line ∧ List.Forall₂ ArgRead us argv ∧
    lineInt line = argv.length

/-- The connector has parsed, of a command, the line `line` and the arguments `args`, which stand
there as `us`. -/
structure Within (c : XRedisConnectorBase) (line : Bytes) (us args : List Bytes) : Prop where
  noLf : 10 ∉ line
  bytes : cmdBytes line us <+: c.cmdbuffer
  parsed : c.parsed = (cmdBytes line us).length
  reads : List.Forall₂ ArgRead us args
  -- for a negative number there is no `argv`
  argv : 0 < c.argnum → c.argv = some args
  argnum : c.argnum ≠ 0
  count : lineInt line = args.length + c.argnum

/-- The connector is between two commands, or in one. -/
def Framed (c : XRedisConnectorBase) : Prop :=
  c = { cmdbuffer := c.cmdbuffer } ∨ ∃ line us args, Within c line us args

/-- What a call of `ProcessCmd` can do with the buffer `b`: hand out a command that it starts with,
or wait. -/
inductive Taken (b : Bytes) : Processed → Prop where
  | dispatched {u rest : Bytes} {argv : List Bytes} {stores : List Store} (hu : CmdRead u argv)
      (hb : b = u ++ rest) :
      Taken b { ret := true, doCmd := some argv, stores, connector := { cmdbuffer := rest } }
  | waits {stores : List Store} {c' : XRedisConnectorBase} (hc : Framed c')
      (hb : c'.cmdbuffer = b) :
      Taken b { ret := false, stores, connector := c' }

variable {c : XRedisConnectorBase} {line : Bytes} {us args : List Bytes} {r : Processed}

theorem cmdBytes_append (line : Bytes) (us new : List Bytes) :
    cmdBytes line (us ++ new) = cmdBytes line us ++ new.flatten := by
  simp [cmdBytes]

/-- `ProcessCmd` over the arguments. -/
theorem Within.processArgs (h : Within c line us args) (size : Int)
    (hsize : c.parsed + size ≤ c.cmdbuffer.length) (hint : c.parsed + size < 2 ^ 31)
    (hr : XHttpCache.processArgs c (c.cmdbuffer.drop c.parsed.toNat) size = .ok r) :
    Taken c.cmdbuffer r := by
  obtain ⟨rest, hrest⟩ := h.bytes
  have hparsed := h.parsed
  have hdrop : c.cmdbuffer.drop c.parsed.toNat = rest := by
    rw [← hrest, hparsed, Int.toNat_natCast, List.drop_left]
  have hlen := congrArg List.length hrest
  rw [List.length_append] at hlen
  rw [hdrop, XHttpCache.processArgs] at hr
  cases hl : paraseLoop c.argnum.toNat c rest size with
  | error e =>
      rw [hl] at hr
      cases hr
  | ok r =>
      obtain ⟨stores, c₁⟩ := r
      obtain ⟨us', new, hnew, ⟨rest', rfl⟩, hfit, rfl⟩ := paraseLoop_took hl (by omega)
      have hall : List.Forall₂ ArgRead (us ++ us') (args ++ new) := List.rel_append h.reads hnew
      have hbuf : c.cmdbuffer = cmdBytes line (us ++ us') ++ rest' := by
        rw [cmdBytes_append, List.append_assoc, hrest]
      have hcount := h.count
      rw [hl] at hr
      simp only [bind, Except.bind] at hr
      split_ifs at hr with hdone
      · -- the last argument is one of the new ones, so what is parsed is in the buffer
        have hnum : c.argnum = new.length := by
          simp only [XRedisConnectorBase.push] at hdone
          omega
        have hne : new ≠ [] := fun hnil => h.argnum (by rw [hnum, hnil]; rfl)
        have hpos := List.length_pos_of_ne_nil hne
        have hused : (c.push new us'.flatten.length).parsed =
            (cmdBytes line (us ++ us')).length := by
          rw [cmdBytes_append, List.length_append, Nat.cast_add, ← hparsed]
          rfl
        have hu64 : u64 (cmdBytes line (us ++ us')).length =
            (cmdBytes line (us ++ us')).length := by
          have := hfit hne
          rw [cmdBytes_append, List.length_append]
          rw [u64_of_nonneg (by omega) (by push_cast; omega), Int.toNat_natCast]
        have hargv : (c.push new us'.flatten.length).argv = some (args ++ new) := by
          rw [XRedisConnectorBase.push, h.argv (by omega)]
          rfl
        have hfree : (c.push new us'.flatten.length).freeArg = { cmdbuffer := rest' } := by
          have hcut : c.cmdbuffer.drop (cmdBytes line (us ++ us')).length = rest' := by
            rw [hbuf, List.drop_left]
          rw [XRedisConnectorBase.freeArg, hused, hu64]
          exact congrArg (fun b => ({ cmdbuffer := b } : XRedisConnectorBase)) hcut
        rw [hargv, hfree] at hr
        cases hargs : args ++ new with
        | nil => exact absurd (List.append_eq_nil_iff.mp hargs).2 hne
        | cons cmd tail =>
            rw [hargs] at hr hall
            cases hr
            refine .dispatched ⟨line, us ++ us', rfl, h.noLf, hall, ?_⟩ hbuf
            rw [← hargs, hcount, hnum, List.length_append, Nat.cast_add]
      · cases hr
        refine .waits (Or.inr ⟨line, us ++ us', args ++ new, h.noLf, ⟨rest', hbuf.symm⟩, ?_, hall,
          fun hpos => ?_, hdone, ?_⟩) rfl
        · rw [cmdBytes_append, List.length_append, Nat.cast_add, ← hparsed]
          rfl
        · have hargv := h.argv (by simp only [XRedisConnectorBase.push] at hpos; omega)
          rw [XRedisConnectorBase.push, hargv]
          rfl
        · simp only [XRedisConnectorBase.push, List.length_append]
          omega

theorem within_startCmd {b : Bytes} (hline : 10 ∉ line) (hnum : lineInt line ≠ 0) (more : Bytes)
    (hb : b = 42 :: line ++ 10 :: more) :
    Within (startCmd { cmdbuffer := b } (line.length + 2) (lineInt line)) line [] [] := by
  refine ⟨hline, ⟨more, ?_⟩, ?_, .nil, fun hpos => ?_, hnum, ?_⟩
  · simp [startCmd, cmdBytes, hb]
  · simp [startCmd, cmdBytes]
    omega
  · exact if_pos (le_of_lt hpos)
  · exact (Int.zero_add _).symm

/-- **A call of `ProcessCmd`** hands out only what the buffer starts with. -/
theorem processCmd_took (h : Framed c) (hr : processCmd c = .ok r) : Taken c.cmdbuffer r := by
  have hlt := i32_lt c.cmdbuffer.length
  have hle : i32 c.cmdbuffer.length ≤ c.cmdbuffer.length := by
    rw [i32, Int.bmod_def]
    split_ifs <;> omega
  have hwaits : (.ok { ret := false, connector := c } : Except Fault Processed) = .ok r →
      Taken c.cmdbuffer r := by
    intro hr
    cases hr
    exact .waits h rfl
  simp only [processCmd] at hr
  by_cases hzero : i32 c.cmdbuffer.length = 0
  · rw [if_pos hzero] at hr
    exact hwaits hr
  rw [if_neg hzero] at hr
  by_cases hout : c.parsed < 0 ∨ c.cmdbuffer.length < c.parsed
  · rw [if_pos hout] at hr
    cases hr
  rw [if_neg hout] at hr
  -- the call returns, so each of its `int`s is what is computed for it
  replace hr := of_asInt_bind hr
  split_ifs at hr with hnum h42
  · -- between two commands
    rcases h with h | ⟨line, us, args, h⟩
    · obtain ⟨b, rfl⟩ : ∃ b, c = { cmdbuffer := b } := ⟨_, h⟩
      simp only [Int.toNat_zero, List.drop_zero, Int.sub_zero] at hr h42
      cases hl : paraseLength b (i32 b.length) with
      | error e =>
          rw [hl] at hr
          cases hr
      | ok p =>
          obtain ⟨pos, num⟩ := p
          rw [hl, ok_bind] at hr
          dsimp only at hr
          by_cases hpos : pos = 0
          · rw [if_pos hpos] at hr
            exact hwaits hr
          obtain ⟨t, line, more, hb, hline, rfl, rfl, hnum⟩ := paraseLength_eq_ok hl hpos
          obtain rfl : t = 42 := by
            rw [hb] at h42
            exact h42
          rw [if_neg hpos] at hr
          replace hr := of_asInt_bind (of_asInt_bind hr)
          rw [Int.zero_add] at hr
          have hwithin := within_startCmd hline hnum more hb
          have hparsed : (startCmd { cmdbuffer := b } (line.length + 2) (lineInt line)).parsed =
              line.length + 2 := rfl
          refine hwithin.processArgs (i32 b.length - (line.length + 2)) ?_ ?_ ?_
          · rw [hparsed, add_sub_cancel]
            exact hle
          · rw [hparsed, add_sub_cancel]
            exact hlt
          · rw [hparsed]
            exact hr
    · exact absurd hnum h.argnum
  · exact hwaits hr
  · -- in a command
    rcases h with h | ⟨line, us, args, h⟩
    · rw [h] at hnum
      exact absurd rfl hnum
    · exact h.processArgs _ (by omega) (by omega) hr

/-! ### Runs -/

/-- Bytes come in, or `ProcessCmd` is called and returns. -/
inductive StreamStep : XRedisConnectorBase → XRedisConnectorBase → Prop where
  | deliver (c : XRedisConnectorBase) (piece : Bytes) :
      StreamStep c { c with cmdbuffer := c.cmdbuffer ++ piece }
  | process {c : XRedisConnectorBase} {r : Processed} (h : processCmd c = .ok r) :
      StreamStep c r.connector

theorem Framed.deliver (h : Framed c) (piece : Bytes) :
    Framed { c with cmdbuffer := c.cmdbuffer ++ piece } := by
  rcases h with h | ⟨line, us, args, h⟩
  · rw [h]
    exact Or.inl rfl
  · exact Or.inr ⟨line, us, args, h.noLf, h.bytes.trans (List.prefix_append _ piece), h.parsed,
      h.reads, h.argv, h.argnum, h.count⟩

theorem Framed.step {c' : XRedisConnectorBase} (hs : StreamStep c c') (h : Framed c) :
    Framed c' := by
  cases hs with
  | deliver piece => exact h.deliver piece
  | process hr =>
      cases processCmd_took h hr with
      | dispatched hu hb => exact Or.inl rfl
      | waits hc hb => exact hc

theorem framed_of_run (h : Relation.ReflTransGen StreamStep {} c) : Framed c := by
  have hfresh : Framed {} := Or.inl rfl
  have hstep : ∀ c c', StreamStep c c' → Framed c → Framed c' := fun _ _ => Framed.step
  exact reach_inv hstep h hfresh

/-- **The loop of `ReadCallback`** hands out what the buffer starts with, one command after
another. -/
theorem drain_reads {fuel : Nat} {c' : XRedisConnectorBase} {cmds : List (List Bytes)}
    (h : Framed c) (hd : drain fuel c = .ok (cmds, c')) :
    ∃ us, List.Forall₂ CmdRead us cmds ∧ c.cmdbuffer = us.flatten ++ c'.cmdbuffer ∧ Framed c' := by
  induction fuel generalizing c cmds with
  | zero => cases hd
  | succ fuel ih =>
      rw [drain] at hd
      cases hr : processCmd c with
      | error e =>
          rw [hr] at hd
          cases hd
      | ok r =>
          rw [hr] at hd
          cases processCmd_took h hr with
          | waits hc hb =>
              cases hd
              exact ⟨[], .nil, hb.symm, hc⟩
          | @dispatched u rest argv stores hu hb =>
              simp only [bind, Except.bind, if_true] at hd
              cases hrest : drain fuel { cmdbuffer := rest } with
              | error e =>
                  rw [hrest] at hd
                  cases hd
              | ok r =>
                  rw [hrest] at hd
                  cases hd
                  obtain ⟨us, hus, hbuf, hc'⟩ := ih (Or.inl rfl) hrest
                  refine ⟨u :: us, .cons hu hus, ?_, hc'⟩
                  rw [hb, List.flatten_cons, List.append_assoc, ← hbuf]

/-- One piece after another. -/
theorem feed_reads {pieces : List Bytes} {c' : XRedisConnectorBase} {cmds : List (List Bytes)}
    (h : Framed c) (hf : feed c pieces = .ok (cmds, c')) :
    ∃ us, List.Forall₂ CmdRead us cmds ∧
      c.cmdbuffer ++ pieces.flatten = us.flatten ++ c'.cmdbuffer := by
  induction pieces generalizing c cmds with
  | nil =>
      cases hf
      exact ⟨[], .nil, List.append_nil _⟩
  | cons piece pieces ih =>
      rw [feed] at hf
      cases hr : readCallback c piece with
      | error e =>
          rw [hr] at hf
          cases hf
      | ok r =>
          obtain ⟨cmds₁, c₁⟩ := r
          rw [hr] at hf
          simp only [bind, Except.bind] at hf
          obtain ⟨us₁, hus₁, hbuf, hc₁⟩ := drain_reads (h.deliver piece) hr
          have hbuf₁ : c.cmdbuffer ++ piece = us₁.flatten ++ c₁.cmdbuffer := hbuf
          cases hrest : feed c₁ pieces with
          | error e =>
              rw [hrest] at hf
              cases hf
          | ok r =>
              rw [hrest] at hf
              cases hf
              obtain ⟨us₂, hus₂, hbuf₂⟩ := ih hc₁ hrest
              refine ⟨us₁ ++ us₂, List.rel_append hus₁ hus₂, ?_⟩
              rw [List.flatten_cons, ← List.append_assoc, hbuf₁, List.append_assoc, hbuf₂,
                List.flatten_append, List.append_assoc]

/-! ### Commands as RESP has them -/

/-- The line is the number it states, and a CR. -/
def PlainLine (line : Bytes) : Prop :=
  headerValue line < 2 ^ 31 ∧ line = natDecimal (headerValue line).toNat ++ [13]

/-- The lines of the next `n` arguments at `b` are plain, and CR LF follows each argument. -/
def PlainArgs : Nat → Bytes → Prop
  | 0, _ => True
  | n + 1, b =>
      let k := (headerLine b).length + 2 + (headerValue (headerLine b)).toNat
      PlainLine (headerLine b) ∧ CRLF <+: b.drop k ∧ PlainArgs n (b.drop (k + 2))

/-- The lines of the command that `b` starts with are plain, and CR LF follows each argument. -/
def PlainCmd (b : Bytes) : Prop :=
  PlainLine (headerLine b) ∧
    PlainArgs (headerValue (headerLine b)).toNat (b.drop ((headerLine b).length + 2))

instance (line : Bytes) : Decidable (PlainLine line) := inferInstanceAs (Decidable (_ ∧ _))

instance decidablePlainArgs : ∀ (n : Nat) (b : Bytes), Decidable (PlainArgs n b)
  | 0, _ => isTrue trivial
  | n + 1, _ =>
      have : ∀ b, Decidable (PlainArgs n b) := decidablePlainArgs n
      inferInstanceAs (Decidable (_ ∧ _ ∧ _))

instance (b : Bytes) : Decidable (PlainCmd b) := inferInstanceAs (Decidable (_ ∧ _))

theorem plainLine_iff {n : Nat} (h : lineInt line = n) :
    PlainLine line ↔ line = natDecimal n ++ [13] := by
  have hn : (n : Int) < 2 ^ 31 := by
    rw [← h]
    exact i32_lt _
  constructor
  · rintro ⟨hlt, hline⟩
    have hm := @lineInt_natDecimal (headerValue line).toNat (by omega)
    rw [← hline, h, Nat.cast_inj] at hm
    rw [hline, ← hm]
  · rintro rfl
    rw [PlainLine, headerValue_natDecimal]
    exact ⟨hn, rfl⟩

variable {u arg x y : Bytes}

theorem encodeArg_line (arg : Bytes) :
    encodeArg arg = 36 :: (natDecimal arg.length ++ [13]) ++ 10 :: (arg ++ CRLF) := by
  simp [encodeArg, CRLF]

/-- **An argument as RESP has it** is the only one that is taken there. -/
theorem ArgRead.eq_encodeArg {arg' : Bytes} (h : ArgRead u arg') (hlen : arg.length < 2 ^ 31)
    (he : u ++ x = encodeArg arg ++ y) : arg' = arg ∧ u = encodeArg arg := by
  obtain ⟨line, tail, rfl, hline, htail, -, hint⟩ := h
  have he' : line ++ 10 :: (arg' ++ tail ++ x) =
      (natDecimal arg.length ++ [13]) ++ 10 :: (arg ++ CRLF ++ y) := by
    rw [encodeArg_line] at he
    simpa only [List.cons_append, List.append_assoc, List.cons.injEq, true_and] using he
  obtain ⟨rfl, hrest⟩ := append_cons_inj hline (ten_not_mem_line _) he'
  rw [lineInt_natDecimal hlen, Nat.cast_inj] at hint
  rw [List.append_assoc, List.append_assoc] at hrest
  obtain ⟨rfl, hend⟩ := List.append_inj hrest hint.symm
  obtain ⟨rfl, -⟩ := List.append_inj hend htail
  exact ⟨rfl, (encodeArg_line arg').symm⟩

/-- The same for arguments one after another. -/
theorem argsRead_eq {us args argv : List Bytes} (h : List.Forall₂ ArgRead us args)
    (hcount : args.length = argv.length) (hlen : ∀ arg ∈ argv, arg.length < 2 ^ 31)
    (he : us.flatten ++ x = argv.flatMap encodeArg ++ y) :
    args = argv ∧ us.flatten = argv.flatMap encodeArg := by
  induction h generalizing argv with
  | nil =>
      obtain rfl := List.length_eq_zero_iff.mp hcount.symm
      exact ⟨rfl, rfl⟩
  | @cons u arg us args hu _ ih =>
      cases argv with
      | nil => cases hcount
      | cons a argv =>
          rw [List.flatten_cons, List.flatMap_cons, List.append_assoc, List.append_assoc] at he
          obtain ⟨rfl, rfl⟩ := hu.eq_encodeArg (hlen a List.mem_cons_self) he
          obtain ⟨rfl, hus⟩ := ih (Nat.succ.inj hcount)
            (fun a ha => hlen a (List.mem_cons_of_mem _ ha)) (List.append_cancel_left he)
          exact ⟨rfl, by rw [List.flatten_cons, List.flatMap_cons, hus]⟩

theorem encodeCmd_line (argv : List Bytes) :
    encodeCmd argv = 42 :: (natDecimal argv.length ++ [13]) ++ 10 :: argv.flatMap encodeArg := by
  simp [encodeCmd, CRLF]

/-- **A command as RESP has it** is the only one that is taken there. -/
theorem CmdRead.eq_encodeCmd {argv cmd : List Bytes} (h : CmdRead u argv)
    (hlen : (encodeCmd cmd).length < 2 ^ 31) (he : u ++ x = encodeCmd cmd ++ y) :
    argv = cmd ∧ u = encodeCmd cmd := by
  obtain ⟨line, us, rfl, hline, hus, hint⟩ := h
  have he' : line ++ 10 :: (us.flatten ++ x) =
      (natDecimal cmd.length ++ [13]) ++ 10 :: (cmd.flatMap encodeArg ++ y) := by
    rw [encodeCmd_line] at he
    simpa only [cmdBytes, List.cons_append, List.append_assoc, List.cons.injEq, true_and] using he
  obtain ⟨rfl, hrest⟩ := append_cons_inj hline (ten_not_mem_line _) he'
  have hcount := length_encodeArgs_ge cmd
  have hsize := congrArg List.length (encodeCmd_eq cmd)
  rw [List.length_append] at hsize
  rw [lineInt_natDecimal (by omega), Nat.cast_inj] at hint
  obtain ⟨rfl, hflat⟩ := argsRead_eq hus hint.symm
    (fun arg ha => lt_of_le_of_lt (le_trans (by omega) (length_encodeCmd_ge ha)) hlen) hrest
  exact ⟨rfl, by rw [cmdBytes, hflat, encodeCmd_line]⟩

variable {n : Nat} {b : Bytes}

theorem ArgRead.length_lt (h : ArgRead u arg) : arg.length < 2 ^ 31 := by
  obtain ⟨line, tail, -, -, -, -, hint⟩ := h
  have := i32_lt (strtoll (headerText line))
  rw [lineInt] at hint
  omega

/-- An argument whose line is plain, and which CR LF follows, is as RESP has it. -/
theorem ArgRead.eq_of_plain (h : ArgRead u arg) (hp : PlainArgs (n + 1) (u ++ b)) :
    u = encodeArg arg := by
  obtain ⟨line, tail, rfl, hline, htail, -, hint⟩ := h
  obtain ⟨hplain, hcrlf, -⟩ := hp
  have hb : 36 :: line ++ 10 :: (arg ++ tail) ++ b = 36 :: line ++ 10 :: (arg ++ (tail ++ b)) := by
    simp
  rw [hb, headerLine_cons hline] at hplain hcrlf
  obtain rfl := (plainLine_iff hint).mp hplain
  have hk : (natDecimal arg.length ++ [13]).length + 2 + arg.length =
      (36 :: (natDecimal arg.length ++ [13]) ++ 10 :: arg).length := by
    simp only [List.cons_append, List.length_cons, List.length_append]
    omega
  have hsplit : 36 :: (natDecimal arg.length ++ [13]) ++ 10 :: (arg ++ (tail ++ b)) =
      (36 :: (natDecimal arg.length ++ [13]) ++ 10 :: arg) ++ (tail ++ b) := by
    simp
  rw [headerValue_natDecimal, Int.toNat_natCast, hk, hsplit, List.drop_left] at hcrlf
  obtain ⟨more, hmore⟩ := hcrlf
  obtain ⟨rfl, -⟩ := List.append_inj hmore htail.symm
  exact (encodeArg_line arg).symm

/-- An argument as RESP has it is plain. -/
theorem plainArgs_encodeArg (h : arg.length < 2 ^ 31) :
    PlainArgs (n + 1) (encodeArg arg ++ b) ↔ PlainArgs n b := by
  have hhead : encodeHead 36 arg.length <+: encodeArg arg ++ b := by
    rw [encodeArg_eq, List.append_assoc]
    exact List.prefix_append _ _
  have hline := (headerLine_of_encodeHead hhead).2
  have hk : (headerLine (encodeArg arg ++ b)).length + 2 + arg.length =
      (encodeHead 36 arg.length ++ arg).length := by
    rw [length_headerLine hhead, List.length_append]
  have hsplit : encodeArg arg ++ b = (encodeHead 36 arg.length ++ arg) ++ (CRLF ++ b) := by
    rw [encodeArg_eq]
    simp only [List.append_assoc]
  have hplain : PlainLine (headerLine (encodeArg arg ++ b)) := by
    rw [hline]
    exact (plainLine_iff (lineInt_natDecimal h)).mpr rfl
  rw [PlainArgs, headerValue_of_encodeHead hhead, Int.toNat_natCast, hk, ← List.drop_drop, hsplit,
    List.drop_left, ← hsplit]
  exact ⟨fun hp => hp.2.2, fun hp => ⟨hplain, List.prefix_append _ _, hp⟩⟩

theorem plainArgs_iff (h : List.Forall₂ ArgRead us args) (rest : Bytes) :
    PlainArgs args.length (us.flatten ++ rest) ↔ us.flatten = args.flatMap encodeArg := by
  induction h with
  | nil => exact ⟨fun _ => rfl, fun _ => trivial⟩
  | @cons u arg us args hu _ ih =>
      rw [List.flatten_cons, List.flatMap_cons, List.append_assoc, List.length_cons]
      constructor
      · intro hp
        obtain rfl := hu.eq_of_plain hp
        rw [ih.mp ((plainArgs_encodeArg hu.length_lt).mp hp)]
      · intro he
        obtain ⟨-, rfl⟩ := hu.eq_encodeArg hu.length_lt he
        exact (plainArgs_encodeArg hu.length_lt).mpr (ih.mpr (List.append_cancel_left he))

/-- **A command that is taken is as RESP has it** exactly if it is plain. -/
theorem CmdRead.plain_iff {argv : List Bytes} (h : CmdRead u argv) (rest : Bytes) :
    u = encodeCmd argv ↔ PlainCmd (u ++ rest) := by
  obtain ⟨line, us, rfl, hline, hus, hint⟩ := h
  have hb : cmdBytes line us ++ rest = 42 :: line ++ 10 :: (us.flatten ++ rest) := by
    simp [cmdBytes]
  have hdrop : (42 :: line ++ 10 :: (us.flatten ++ rest)).drop (line.length + 2) =
      us.flatten ++ rest := by
    rw [List.append_cons, show line.length + 2 = (42 :: line ++ [10]).length by simp,
      List.drop_left]
  rw [hb, PlainCmd, headerLine_cons hline, plainLine_iff hint, hdrop, encodeCmd_line, cmdBytes]
  constructor
  · intro he
    rw [List.cons_append, List.cons_append, List.cons.injEq] at he
    obtain ⟨rfl, hflat⟩ := append_cons_inj hline (ten_not_mem_line _) he.2
    rw [headerValue_natDecimal, Int.toNat_natCast]
    exact ⟨rfl, (plainArgs_iff hus rest).mpr hflat⟩
  · rintro ⟨rfl, hp⟩
    rw [headerValue_natDecimal, Int.toNat_natCast] at hp
    rw [(plainArgs_iff hus rest).mp hp]

/-- **Only well-formed requests are executed** exactly if they come so: of whatever stream, in any
pieces, the bytes that a call of `ProcessCmd` consumes for the command it hands out are that command
as RESP has it if and only if each of its lines is plain and CR LF follows each argument. -/
theorem well_formed_iff {argv : List Bytes} (h : Relation.ReflTransGen StreamStep {} c)
    (hr : processCmd c = .ok r) (hdo : r.doCmd = some argv) :
    ∃ u, c.cmdbuffer = u ++ r.connector.cmdbuffer ∧
      (u = encodeCmd argv ↔ PlainCmd c.cmdbuffer) := by
  cases processCmd_took (framed_of_run h) hr with
  | @dispatched u rest argv stores hu hb =>
      cases hdo
      refine ⟨u, hb, ?_⟩
      rw [hb]
      exact hu.plain_iff rest
  | waits hc hb => cases hdo

/-- `PING`, and the beginning of another command. -/
theorem well_formed_ping :
    ∃ u, ascii "*1\r\n$4\r\nPING\r\n*1" = u ++ ascii "*1" ∧ u = encodeCmd [ascii "PING"] := by
  have hrun : Relation.ReflTransGen StreamStep {}
      { cmdbuffer := ascii "*1\r\n$4\r\nPING\r\n*1" } := .single (.deliver {} _)
  have hcall : processCmd { cmdbuffer := ascii "*1\r\n$4\r\nPING\r\n*1" } =
      .ok { ret := true, doCmd := some [ascii "PING"], stores := [⟨ascii "4\r", 4, 8⟩]
            connector := { cmdbuffer := ascii "*1" } } := by decide
  obtain ⟨u, hu, hiff⟩ := well_formed_iff hrun hcall rfl
  exact ⟨u, hu, hiff.mpr (by decide)⟩

/-- A sign, lines without CR and an argument without CR LF; a line with a letter and a CR within;
and a length of `2 ^ 32 + 4`.  Each is executed as `PING`. -/
theorem sloppy_executed :
    let executed (b : Bytes) : Prop :=
      (processCmd { cmdbuffer := b }).map (fun r => (r.doCmd, r.connector)) =
          .ok (some [ascii "PING"], {}) ∧ b ≠ encodeCmd [ascii "PING"]
    executed (ascii "*+1\n$4\nPINGxx") ∧ executed (ascii "*1x\r\n$4\r9\r\nPING\r\n") ∧
      executed (ascii "*1\r\n$4294967300\r\nPING\r\n") := by
  intro executed
  exact ⟨⟨by decide, by decide⟩, ⟨by decide, by decide⟩, ⟨by decide, by decide⟩⟩

/-! ### Empty arguments -/

/-- The command is dispatched, its bytes are consumed, and so are the commands behind it, in
whatever pieces they come. -/
structure Parsed (argv : List Bytes) : Prop where
  call : ∀ rest, (encodeCmd argv ++ rest).length < 2 ^ 31 →
    ∃ stores, processCmd { cmdbuffer := encodeCmd argv ++ rest } =
      .ok { ret := true, doCmd := some argv, stores, connector := { cmdbuffer := rest } }
  pipeline : ∀ cmds pieces, (∀ cmd ∈ cmds, Sendable cmd) →
    (encodeCmds (argv :: cmds)).length < 2 ^ 31 → pieces.flatten = encodeCmds (argv :: cmds) →
      feed {} pieces = .ok (argv :: cmds, {})

theorem CmdRead.nonempty {argv : List Bytes} (h : CmdRead u argv) : [] ∉ argv := by
  obtain ⟨line, us, -, -, hus, -⟩ := h
  induction hus with
  | nil => exact List.not_mem_nil
  | cons hu _ ih =>
      intro hnil
      rcases List.mem_cons.mp hnil with rfl | hnil
      · obtain ⟨_, _, -, -, -, hne, -⟩ := hu
        exact hne rfl
      · exact ih hnil

/-- **Nothing is dispatched from an empty argument on**, whatever bytes follow. -/
theorem feed_empty_argument {argv : List Bytes} (hnil : [] ∈ argv)
    (hlen : (encodeCmd argv).length < 2 ^ 31) {pieces : List Bytes} {more : Bytes}
    (hp : pieces.flatten <+: encodeCmd argv ++ more) {cmds : List (List Bytes)}
    (hf : feed {} pieces = .ok (cmds, c)) : cmds = [] := by
  obtain ⟨us, hus, hbuf⟩ := feed_reads (Or.inl rfl) hf
  cases hus with
  | nil => rfl
  | @cons u cmd us cmds hu _ =>
      obtain ⟨z, hz⟩ := hp
      have hpieces : pieces.flatten = u ++ us.flatten ++ c.cmdbuffer := hbuf
      have he : u ++ (us.flatten ++ (c.cmdbuffer ++ z)) = encodeCmd argv ++ more := by
        rw [← hz, hpieces, List.append_assoc, List.append_assoc]
      obtain ⟨rfl, -⟩ := hu.eq_encodeCmd hlen he
      exact absurd hnil hu.nonempty

/-- **A command is parsed** exactly if it has no empty argument; if it has one, nothing is
dispatched from the connection any more. -/
theorem empty_argument_iff {argv : List Bytes} (hne : argv ≠ [])
    (hlen : (encodeCmd argv).length < 2 ^ 31) :
    (Parsed argv ↔ [] ∉ argv) ∧
      ([] ∈ argv → ∀ pieces more cmds c, pieces.flatten <+: encodeCmd argv ++ more →
        feed {} pieces = .ok (cmds, c) → cmds = []) := by
  refine ⟨⟨fun h => ?_, fun hnil => ⟨fun rest hrest => ?_, fun cmds pieces hs htotal hp => ?_⟩⟩,
    fun hnil pieces more cmds c hp hf => feed_empty_argument hnil hlen hp hf⟩
  · obtain ⟨stores, hcall⟩ := h.call [] (by rwa [List.append_nil])
    have hfresh : Framed { cmdbuffer := encodeCmd argv ++ [] } := Or.inl rfl
    cases processCmd_took hfresh hcall with
    | dispatched hu _ => exact hu.nonempty
  · exact processCmd_encodeCmd ⟨⟨hne, hnil⟩, hlen⟩ hrest
  · have hrec : ∀ cmd ∈ argv :: cmds, Receivable cmd := fun cmd hcmd =>
      ⟨List.forall_mem_cons.mpr ⟨⟨hne, hnil⟩, hs⟩ cmd hcmd,
        lt_of_le_of_lt (length_encodeCmd_le hcmd) htotal⟩
    have hfresh : Pending (argv :: cmds) {} := .idle List.nil_prefix
    have hnone : wholly encodeCmd 0 (argv :: cmds) = [] :=
      wholly_zero (fun _ => List.cons_ne_nil _ _) _
    have hcome : [] ++ pieces.flatten <+: encodeCmds (argv :: cmds) := by
      rw [hp, List.nil_append]
    have hall : wholly encodeCmd (encodeCmds (argv :: cmds)).length (argv :: cmds) = argv :: cmds :=
      wholly_of_le (le_refl _)
    obtain ⟨c, hfeed, hpend, hbuf⟩ := hfresh.feed hnone hrec htotal hcome
    simp only [List.nil_append, hp, hall] at hfeed hpend hbuf
    rw [hfeed, hpend.eq_fresh (hbuf.trans (List.drop_length))]

/-- A `SET` that stores an empty value is never dispatched, and neither is the `GET` behind it. -/
theorem empty_argument_wedges :
    let set := [ascii "SET", ascii "k", []]
    let get := [ascii "GET", ascii "k"]
    (feed {} [encodeCmds [set, get]]).map (·.1) = .ok [] ∧
      (feed {} [encodeCmds [get, get]]).map (·.1) = .ok [get, get] := by
  decide

/-- `SET k v` is parsed. -/
theorem parsed_set : Parsed [ascii "SET", ascii "k", ascii "v"] :=
  (empty_argument_iff (by decide) (by decide)).1.mpr (by decide)

end XHttpCache
