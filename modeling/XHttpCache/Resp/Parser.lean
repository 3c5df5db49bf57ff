import XHttpCache.Resp.Format

/-!
# Resp — the parser

`ParaseLength`, `ParaseData`, `ProcessCmd`, `DoCmd`, `FreeArg` and the loop of `ReadCallback`, from
`common/xRedisServerLib.cpp`.  A connector keeps the bytes that have come, how many of them are
parsed, how many arguments the command still lacks, and those it has.

A pointer is the list of the bytes from it to the end of the buffer; reading at the end gives the
NUL of `c_str`.  Where C++ leaves the behaviour open, the model stops with a `Fault` that says
why.  Sizes and positions are computed as `int`s, and `asInt` stops where one does not fit.  What
`malloc` gives for `argv` is `slots`; it gives nothing for a negative count, which is far too large
as a `size_t`.
-/

namespace XHttpCache
open Support

/-- Why the behaviour is undefined from here on, or, with `unfinished`, not computed. -/
inductive Fault where
  /-- A read beyond the buffer. -/
  | read
  /-- A write beyond `tmp`. -/
  | tmpWrite
  /-- `tmp` has no NUL when `strtol` reads it. -/
  | tmpEnd
  /-- A size or a position that is no `int`. -/
  | intOverflow
  /-- `sdsnewlen` of a negative length. -/
  | negativeLen
  /-- A slot that `argv` does not have. -/
  | noSlot
  /-- More calls than were allowed for. -/
  | unfinished
  deriving DecidableEq

/-- The value of an expression of type `int`. -/
def asInt (n : Int) : Except Fault Int :=
  if -2 ^ 31 ≤ n ∧ n ≤ INT_MAX then .ok n else .error .intOverflow

/-- `xRedisConnectorBase`, with the number of slots that `argv` has. -/
structure XRedisConnectorBase where
  argc : Nat := 0
  argv : Option (List Bytes) := none
  cmdbuffer : Bytes := []
  argnum : Int := 0
  parsed : Int := 0
  slots : Nat := 0
  deriving DecidableEq

/-- An argument that is stored: what its header says, the length it is stored with, and the bytes
that follow the header. -/
structure Store where
  header : Bytes
  len : Int
  remaining : Nat
  deriving DecidableEq

/-- What a call of `ProcessCmd` returns, the arguments it hands to `DoCmd`, if it does, and those
it stores. -/
structure Processed where
  ret : Bool
  doCmd : Option (List Bytes) := none
  stores : List Store := []
  connector : XRedisConnectorBase
  deriving DecidableEq

/-- `xRedisConnectorBase::FreeArg`. -/
def XRedisConnectorBase.freeArg (c : XRedisConnectorBase) : XRedisConnectorBase :=
  { c with
    cmdbuffer := c.cmdbuffer.drop (u64 c.parsed)
    argv := none
    argc := 0
    argnum := 0
    parsed := 0
    slots := 0 }

/-- The loop of `ParaseLength`: the bytes up to the line feed go to `tmp`, except carriage
returns. -/
def fillTmp : Bytes → Nat → Bytes → Except Fault (Nat × Bytes)
  | [], _, _ => .error .read
  | c :: ptr, i, tmp =>
      if c = 10 then .ok (i, tmp)
      else if c = 13 then fillTmp ptr (i + 1) tmp
      else if i < tmp.length then fillTmp ptr (i + 1) (tmp.set i c)
      else .error .tmpWrite

/-- `xRedisServerBase::ParaseLength`: what it returns, and `head_count`, which is 0 before. -/
def paraseLength (ptr : Bytes) (size : Int) : Except Fault (Int × Int) :=
  if memchr ptr 10 (u64 size) then do
    let (i, tmp) ← fillTmp (ptr.drop 1) 0 (List.replicate 11 0)
    let i ← asInt i
    if 0 ∈ tmp then
      let headCount := i32 (strtoll (cstr tmp))
      if headCount = 0 then .ok (0, headCount)
      else do
        let ret ← asInt (i + 2)
        .ok (ret, headCount)
    else .error .tmpEnd
  else if ptr.length < u64 size then .error .read
  else .ok (0, 0)

/-- The line that starts at `ptr`, less its first byte. -/
def headerLine (ptr : Bytes) : Bytes := (ptr.drop 1).takeWhile (· ≠ 10)

/-- `xRedisServerBase::ParaseData`. -/
def paraseData (c : XRedisConnectorBase) (ptr : Bytes) (size : Int) :
    Except Fault (Int × List Store × XRedisConnectorBase) :=
  if ptr.headD 0 ≠ 36 then .ok (0, [], c)
  else do
    let (ret, len) ← paraseLength ptr size
    if ret = 0 then .ok (0, [], c)
    else do
      let size ← asInt (size - ret)
      let needed ← asInt (len + 2)
      if size < needed then .ok (0, [], c)
      else if len < 0 then .error .negativeLen
      else
        let rest := ptr.drop ret.toNat
        match c.argv with
        | none => .error .noSlot
        | some args =>
            if c.argc < c.slots then do
              let parased ← asInt (ret + len + 2)
              .ok (parased, [⟨headerLine ptr, len, rest.length⟩],
                { c with
                  argv := some (args ++ [rest.take len.toNat])
                  argc := c.argc + 1
                  argnum := c.argnum - 1 })
            else .error .noSlot

/-- The loop of `ProcessCmd` over the arguments, of which at most `n` are to come. -/
def paraseLoop : Nat → XRedisConnectorBase → Bytes → Int →
    Except Fault (List Store × XRedisConnectorBase)
  | 0, c, _, _ => .ok ([], c)
  | n + 1, c, ptr, size => do
      let (p, stores, c) ← paraseData c ptr size
      if p = 0 then .ok ([], c)
      else do
        let size ← asInt (size - p)
        let parsed ← asInt (c.parsed + p)
        let (stores', c) ← paraseLoop n { c with parsed } (ptr.drop p.toNat) size
        .ok (stores ++ stores', c)

/-- `ProcessCmd` once the number of arguments is known: the loop, and `DoCmd` if it has parsed
them all. -/
def processArgs (c : XRedisConnectorBase) (ptr : Bytes) (size : Int) : Except Fault Processed := do
  let (stores, c) ← paraseLoop c.argnum.toNat c ptr size
  if c.argnum = 0 then
    match c.argv with
    | some (cmd :: args) =>
        .ok { ret := true, doCmd := some (cmd :: args), stores, connector := c.freeArg }
    | _ => .error .noSlot
  else .ok { ret := false, stores, connector := c }

/-- `ProcessCmd` when it has read that `num` arguments follow from `parsed` on. -/
def startCmd (c : XRedisConnectorBase) (parsed num : Int) : XRedisConnectorBase :=
  let c := { c with parsed, argnum := num }
  let c := if c.argv.isSome then c.freeArg else c
  { c with argv := if 0 ≤ c.argnum then some [] else none, slots := c.argnum.toNat }

/-- `xRedisServerBase::ProcessCmd`. -/
def processCmd (c : XRedisConnectorBase) : Except Fault Processed :=
  let size := i32 c.cmdbuffer.length
  if size = 0 then .ok { ret := false, connector := c }
  else if c.parsed < 0 ∨ c.cmdbuffer.length < c.parsed then .error .read
  else do
    let ptr := c.cmdbuffer.drop c.parsed.toNat
    let size ← asInt (size - c.parsed)
    if c.argnum = 0 then
      if ptr.headD 0 = 42 then do
        let (pos, num) ← paraseLength ptr size
        if pos = 0 then .ok { ret := false, connector := c }
        else do
          let size ← asInt (size - pos)
          let parsed ← asInt (c.parsed + pos)
          processArgs (startCmd c parsed num) (ptr.drop pos.toNat) size
      else .ok { ret := false, connector := c }
    else processArgs c ptr size

/-- `while (ProcessCmd(pConnector)) {}`, for at most `fuel` calls: the commands handed to
`DoCmd`. -/
def drain : Nat → XRedisConnectorBase → Except Fault (List (List Bytes) × XRedisConnectorBase)
  | 0, _ => .error .unfinished
  | fuel + 1, c => do
      let r ← processCmd c
      if r.ret then
        let (cmds, c) ← drain fuel r.connector
        .ok (r.doCmd.toList ++ cmds, c)
      else .ok ([], r.connector)

/-- `xRedisServerBase::ReadCallback` when `piece` has come.  A call of `ProcessCmd` that returns
true takes a byte at least. -/
def readCallback (c : XRedisConnectorBase) (piece : Bytes) :
    Except Fault (List (List Bytes) × XRedisConnectorBase) :=
  let c := { c with cmdbuffer := c.cmdbuffer ++ piece }
  drain (c.cmdbuffer.length + 1) c

/-- One piece after another. -/
def feed : XRedisConnectorBase → List Bytes →
    Except Fault (List (List Bytes) × XRedisConnectorBase)
  | c, [] => .ok ([], c)
  | c, piece :: pieces => do
      let (cmds, c) ← readCallback c piece
      let (cmds', c) ← feed c pieces
      .ok (cmds ++ cmds', c)

/-! ### Values of type `int` -/

section

variable {α : Type} {n : Int}

theorem ok_bind {β : Type} (a : β) (f : β → Except Fault α) : (.ok a) >>= f = f a := rfl

theorem asInt_bind (h₁ : -2 ^ 31 ≤ n) (h₂ : n < 2 ^ 31) (f : Int → Except Fault α) :
    asInt n >>= f = f n := by
  rw [asInt, if_pos ⟨h₁, Int.le_sub_one_of_lt h₂⟩]
  rfl

/-- A call that returns has gone on with the value. -/
theorem of_asInt_bind {f : Int → Except Fault α} {r : α} (h : asInt n >>= f = .ok r) :
    f n = .ok r := by
  rw [asInt] at h
  split_ifs at h
  · exact h
  · cases h

end

/-! ### Header lines -/

/-- The text of a header: its line up to a carriage return or a NUL. -/
def headerText (line : Bytes) : Bytes := cstr (line.takeWhile (· ≠ 13))

/-- The number a header states. -/
def headerValue (line : Bytes) : Int := numeral (headerText line)

/-- The line leaves the last byte of `tmp` alone: from its eleventh byte on there are carriage
returns only. -/
def FitsTmp (line : Bytes) : Prop := ∀ c ∈ line.drop 10, c = 13

/-- What is in `tmp` after the bytes `s`. -/
def tmpOf (s : Bytes) : Bytes :=
  s.map (fun c => if c = 13 then 0 else c) ++ List.replicate (11 - s.length) 0

theorem length_tmpOf {s : Bytes} (h : s.length ≤ 11) : (tmpOf s).length = 11 := by
  rw [tmpOf, List.length_append, List.length_map, List.length_replicate]
  omega

/-- One more byte. -/
theorem tmpOf_append {s : Bytes} (h : s.length ≤ 10) (c : Byte) :
    tmpOf (s ++ [c]) = if c = 13 then tmpOf s else (tmpOf s).set s.length c := by
  obtain ⟨k, hk⟩ : ∃ k, 11 - s.length = k + 1 := ⟨10 - s.length, by omega⟩
  have hk' : 11 - (s ++ [c]).length = k := by
    rw [List.length_append, List.length_singleton]
    omega
  have hset : (tmpOf s).set s.length c =
      s.map (fun c => if c = 13 then 0 else c) ++ c :: List.replicate k 0 := by
    rw [tmpOf, hk, List.replicate_succ, List.set_append_right _ _ (by simp)]
    simp
  rw [hset, tmpOf, tmpOf, hk, hk', List.map_append]
  split_ifs with hc
  · simp [hc, List.replicate_succ]
  · simp [hc]

theorem fillTmp_text {s : Bytes} (hs : 10 ∉ s) (before rest : Bytes)
    (hlen : before.length + s.length ≤ 10) :
    fillTmp (s ++ rest) before.length (tmpOf before) =
      fillTmp rest (before.length + s.length) (tmpOf (before ++ s)) := by
  induction s generalizing before with
  | nil => simp
  | cons c s ih =>
      rw [List.length_cons] at hlen
      obtain ⟨hc, hs⟩ := not_or.mp fun h => hs (List.mem_cons.mpr h)
      have hnext := ih hs (before ++ [c]) (by simp; omega)
      rw [tmpOf_append (by omega), List.length_append, List.length_singleton] at hnext
      rw [List.cons_append, fillTmp, if_neg (Ne.symm hc), length_tmpOf (by omega)]
      split_ifs at hnext ⊢ with hcr
      · rw [hnext]
        simp [Nat.add_assoc, Nat.add_comm 1]
      · rw [hnext]
        simp [Nat.add_assoc, Nat.add_comm 1]
      · omega

theorem fillTmp_cr {crs : Bytes} (h : ∀ c ∈ crs, c = 13) (more : Bytes) (i : Nat) (tmp : Bytes) :
    fillTmp (crs ++ 10 :: more) i tmp = .ok (i + crs.length, tmp) := by
  induction crs generalizing i with
  | nil => rfl
  | cons c crs ih =>
      obtain ⟨rfl, hcrs⟩ := List.forall_mem_cons.mp h
      rw [List.cons_append, fillTmp, if_neg (by decide), if_pos rfl, ih hcrs, List.length_cons]
      congr 2
      omega

/-- The loop of `ParaseLength` on a line that fits. -/
theorem fillTmp_line {line : Bytes} (hline : 10 ∉ line) (hfit : FitsTmp line) (more : Bytes) :
    fillTmp (line ++ 10 :: more) 0 (List.replicate 11 0) =
      .ok (line.length, tmpOf (line.take 10)) := by
  have htext := fillTmp_text (s := line.take 10) (fun h => hline (List.mem_of_mem_take h)) []
    (line.drop 10 ++ 10 :: more) (by simp)
  rw [← List.append_assoc, List.take_append_drop] at htext
  refine htext.trans ?_
  rw [fillTmp_cr hfit, List.nil_append, List.length_nil, Nat.zero_add, ← List.length_append,
    List.take_append_drop]

theorem cstr_blank (s z : Bytes) :
    cstr (s.map (fun c => if c = 13 then 0 else c) ++ 0 :: z) = cstr (s.takeWhile (· ≠ 13)) := by
  induction s with
  | nil => rfl
  | cons c s ih =>
      by_cases hcr : c = 13
      · simp [hcr, cstr]
      · by_cases hz : c = 0
        · simp [hz, cstr]
        · have hcons : ∀ t : Bytes, cstr (c :: t) = c :: cstr t := fun t => by simp [cstr, hz]
          rw [List.map_cons, if_neg hcr, List.cons_append, hcons, ih,
            List.takeWhile_cons_of_pos (by simpa using hcr), hcons]

theorem takeWhile_append_of_not {p : Byte → Bool} (l : Bytes) {l' : Bytes}
    (h : ∀ c ∈ l', p c = false) : (l ++ l').takeWhile p = l.takeWhile p := by
  induction l with
  | nil =>
      cases l' with
      | nil => rfl
      | cons c l' => simp [h c]
  | cons c l ih => simp only [List.cons_append, List.takeWhile_cons, ih]

/-- `strtol` is given the text of the header. -/
theorem cstr_tmpOf {line : Bytes} (hfit : FitsTmp line) :
    cstr (tmpOf (line.take 10)) = headerText line := by
  obtain ⟨k, hk⟩ : ∃ k, 11 - (line.take 10).length = k + 1 :=
    ⟨10 - (line.take 10).length, by have := List.length_take_le 10 line; omega⟩
  have hcr : ∀ c ∈ line.drop 10, decide (c ≠ 13) = false := fun c hc => by simp [hfit c hc]
  rw [tmpOf, hk, List.replicate_succ, cstr_blank, headerText]
  conv_rhs => rw [← List.take_append_drop 10 line, takeWhile_append_of_not _ hcr]

theorem zero_mem_tmpOf (s : Bytes) (h : s.length ≤ 10) : 0 ∈ tmpOf s :=
  List.mem_append_right _ (List.mem_replicate.mpr ⟨by omega, rfl⟩)

/-! ### `ParaseLength` -/

theorem memchr_length (ptr : Bytes) (h : ptr.length < 2 ^ 31) :
    u64 ptr.length = ptr.length ∧ memchr ptr 10 (u64 ptr.length) = ptr.contains 10 := by
  have hu : u64 ptr.length = ptr.length := by
    rw [u64_of_nonneg (by omega) (by omega), Int.toNat_natCast]
  exact ⟨hu, by rw [hu, memchr, List.take_length]⟩

/-- There is no line yet. -/
theorem paraseLength_of_not_mem {ptr : Bytes} (h : 10 ∉ ptr) (hlen : ptr.length < 2 ^ 31) :
    paraseLength ptr ptr.length = .ok (0, 0) := by
  obtain ⟨hu, hm⟩ := memchr_length ptr hlen
  rw [paraseLength, hm, hu, if_neg (by simpa using h), if_neg (Nat.lt_irrefl _)]

theorem eq_takeWhile_append {l : Bytes} {b : Byte} (h : b ∈ l) :
    ∃ more, l = l.takeWhile (· ≠ b) ++ b :: more := by
  induction l with
  | nil => cases h
  | cons c l ih =>
      by_cases hc : c = b
      · exact ⟨l, by simp [hc]⟩
      · obtain ⟨more, hmore⟩ := ih ((List.mem_cons.mp h).resolve_left (Ne.symm hc))
        refine ⟨more, ?_⟩
        rw [List.takeWhile_cons_of_pos (by simpa using hc), List.cons_append, ← hmore]

/-- A first byte, the line, its line feed, and more. -/
theorem eq_headerLine {ptr : Bytes} (h₀ : ptr.headD 0 ≠ 10) (h : 10 ∈ ptr) :
    ∃ more, ptr = ptr.headD 0 :: headerLine ptr ++ 10 :: more := by
  cases ptr with
  | nil => cases h
  | cons t ptr =>
      obtain ⟨more, hmore⟩ := eq_takeWhile_append ((List.mem_cons.mp h).resolve_left (Ne.symm h₀))
      exact ⟨more, congrArg (t :: ·) hmore⟩

theorem length_headerLine_le {ptr : Bytes} (h₀ : ptr.headD 0 ≠ 10) (h : 10 ∈ ptr) :
    (headerLine ptr).length + 2 ≤ ptr.length := by
  obtain ⟨more, hptr⟩ := eq_headerLine h₀ h
  have := congrArg List.length hptr
  simp only [List.cons_append, List.length_cons, List.length_append] at this
  omega

/-- **`ParaseLength` on a line that fits** returns its size and the number it states. -/
theorem paraseLength_line {ptr : Bytes} (h₀ : ptr.headD 0 ≠ 10) (h : 10 ∈ ptr)
    (hlen : ptr.length < 2 ^ 31) (hfit : FitsTmp (headerLine ptr))
    (hv : IsI64 (headerValue (headerLine ptr))) :
    paraseLength ptr ptr.length =
      if i32 (headerValue (headerLine ptr)) = 0 then .ok (0, 0)
      else .ok ((headerLine ptr).length + 2, i32 (headerValue (headerLine ptr))) := by
  obtain ⟨more, hptr⟩ := eq_headerLine h₀ h
  have hline : 10 ∉ headerLine ptr := fun h => by simpa using List.mem_takeWhile_imp h
  have hfill : fillTmp (ptr.drop 1) 0 (List.replicate 11 0) =
      .ok ((headerLine ptr).length, tmpOf ((headerLine ptr).take 10)) := by
    rw [← fillTmp_line hline hfit more]
    conv_lhs => rw [hptr]
    rfl
  obtain ⟨-, hm⟩ := memchr_length ptr hlen
  have hsize := length_headerLine_le h₀ h
  rw [paraseLength, hm, if_pos (by simpa using h), hfill, ok_bind]
  dsimp only
  rw [asInt_bind (by omega) (by omega), if_pos (zero_mem_tmpOf _ (by simp)), cstr_tmpOf hfit,
    strtoll_eq_numeral hv,
    show numeral (headerText (headerLine ptr)) = headerValue (headerLine ptr) from rfl]
  split_ifs with hz
  · rw [hz]
  · rw [asInt_bind (by omega) (by omega)]

end XHttpCache
