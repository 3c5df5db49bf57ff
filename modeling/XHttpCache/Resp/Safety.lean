import XHttpCache.Resp.Parser
import XHttpCache.Support.Runs

/-!
# Resp — safety

What the parser does with lines that it was made for, and what it does with others.

A header is `Benign` when its line fits the buffer of `ParaseLength` and states a number that is
neither negative nor too large; `BenignCall c` says so of every header that a call of `ProcessCmd`
comes to.  Such a call computes what its reader expects: the arguments that are all there
(`nextArg`, `takeArgs`) are stored, and the command is handed out when none is missing
(`processArgs_spec`).  It writes nothing out of bounds, stores only arguments that are there, and
keeps the connector in bounds (`parser_safe`).

Other headers do harm: `parser_unsafe` has one of each kind.
-/

namespace XHttpCache
open Support

/-! ### The arguments that are there -/

/-- The argument that `rest` starts with, and the bytes it takes, if all of it is there. -/
def nextArg (rest : Bytes) : Option (Bytes × Nat) :=
  let line := headerLine rest
  let len := headerValue line
  if rest.headD 0 = 36 ∧ 10 ∈ rest ∧ 0 < len ∧ line.length + 2 + len + 2 ≤ rest.length then
    some ((rest.drop (line.length + 2)).take len.toNat, line.length + 2 + len.toNat + 2)
  else none

/-- What `ParaseData` stores there. -/
def storeAt (rest : Bytes) : Store :=
  ⟨headerLine rest, headerValue (headerLine rest), (rest.drop ((headerLine rest).length + 2)).length⟩

/-- The arguments that `rest` starts with, at most `n`, and the bytes they take. -/
def takeArgs : Nat → Bytes → List Bytes × Nat
  | 0, _ => ([], 0)
  | n + 1, rest =>
      match nextArg rest with
      | none => ([], 0)
      | some (arg, k) =>
          let r := takeArgs n (rest.drop k)
          (arg :: r.1, k + r.2)

/-- What is stored for them. -/
def takeStores : Nat → Bytes → List Store
  | 0, _ => []
  | n + 1, rest =>
      match nextArg rest with
      | none => []
      | some (_, k) => storeAt rest :: takeStores n (rest.drop k)

/-- The header at `rest` fits, and states a number from 0 to `limit`. -/
structure Benign (limit : Int) (rest : Bytes) : Prop where
  fits : FitsTmp (headerLine rest)
  nonneg : 0 ≤ headerValue (headerLine rest)
  le : headerValue (headerLine rest) ≤ limit

/-- `ParaseLength` at a benign header. -/
theorem Benign.paraseLength {limit : Int} {rest : Bytes} (h : Benign limit rest)
    (hlimit : limit ≤ INT_MAX) (h₀ : rest.headD 0 ≠ 10) (h10 : 10 ∈ rest)
    (hlen : rest.length < 2 ^ 31) :
    XHttpCache.paraseLength rest rest.length =
      if headerValue (headerLine rest) = 0 then .ok (0, 0)
      else .ok ((headerLine rest).length + 2, headerValue (headerLine rest)) := by
  have hmax : INT_MAX = 2147483647 := rfl
  have hnonneg := h.nonneg
  have hle := h.le
  have hi32 : i32 (headerValue (headerLine rest)) = headerValue (headerLine rest) :=
    i32_eq (by omega) (by omega)
  rw [paraseLength_line h₀ h10 hlen h.fits ⟨by omega, by omega⟩, hi32]

/-- Each header among the next `n` arguments at `rest` is benign. -/
def BenignArgs : Nat → Bytes → Prop
  | 0, _ => True
  | n + 1, rest =>
      (rest.headD 0 = 36 → 10 ∈ rest → Benign (INT_MAX - 2) rest) ∧
        match nextArg rest with
        | none => True
        | some (_, k) => BenignArgs n (rest.drop k)

instance (line : Bytes) : Decidable (FitsTmp line) :=
  inferInstanceAs (Decidable (∀ c ∈ line.drop 10, c = 13))

instance (limit : Int) (rest : Bytes) : Decidable (Benign limit rest) :=
  decidable_of_iff (FitsTmp (headerLine rest) ∧ 0 ≤ headerValue (headerLine rest) ∧
    headerValue (headerLine rest) ≤ limit)
    ⟨fun h => ⟨h.1, h.2.1, h.2.2⟩, fun h => ⟨h.fits, h.nonneg, h.le⟩⟩

instance decidableBenignArgs : ∀ (n : Nat) (rest : Bytes), Decidable (BenignArgs n rest)
  | 0, _ => isTrue trivial
  | n + 1, rest =>
      have : Decidable (match nextArg rest with
          | none => True
          | some (_, k) => BenignArgs n (rest.drop k)) :=
        match nextArg rest with
        | none => isTrue trivial
        | some (_, k) => decidableBenignArgs n (rest.drop k)
      inferInstanceAs (Decidable (_ ∧ _))

/-- The connector with the arguments `args`, which took `k` bytes. -/
def XRedisConnectorBase.push (c : XRedisConnectorBase) (args : List Bytes) (k : Nat) :
    XRedisConnectorBase :=
  { c with
    argv := c.argv.map (· ++ args)
    argc := c.argc + args.length
    argnum := c.argnum - args.length
    parsed := c.parsed + k }

theorem push_nil (c : XRedisConnectorBase) : c.push [] 0 = c := by
  cases c
  simp [XRedisConnectorBase.push]

theorem push_push (c : XRedisConnectorBase) (a b : List Bytes) (k m : Nat) :
    (c.push a k).push b m = c.push (a ++ b) (k + m) := by
  cases c
  simp [XRedisConnectorBase.push, Option.map_map, Function.comp_def]
  omega

theorem nextArg_eq_some {rest arg : Bytes} {k : Nat} (h : nextArg rest = some (arg, k)) :
    rest.headD 0 = 36 ∧ 10 ∈ rest ∧ (arg.length : Int) = headerValue (headerLine rest) ∧
      0 < arg.length ∧ k = (headerLine rest).length + 2 + arg.length + 2 ∧ k ≤ rest.length ∧
      arg = (rest.drop ((headerLine rest).length + 2)).take arg.length := by
  simp only [nextArg] at h
  split_ifs at h with hc
  obtain ⟨h36, h10, hpos, hle⟩ := hc
  cases h
  have hlen : (((rest.drop ((headerLine rest).length + 2)).take
      (headerValue (headerLine rest)).toNat)).length = (headerValue (headerLine rest)).toNat := by
    rw [List.length_take, List.length_drop]
    omega
  rw [hlen]
  exact ⟨h36, h10, by omega, by omega, rfl, by omega, rfl⟩

variable {c : XRedisConnectorBase} {rest : Bytes} {args : List Bytes} {n : Nat}

/-- **`ParaseData` at a benign header** stores the argument if it is there. -/
theorem paraseData_spec
    (hb : rest.headD 0 = 36 → 10 ∈ rest → Benign (INT_MAX - 2) rest)
    (hlen : rest.length < 2 ^ 31) (hargv : c.argv = some args) (hslot : c.argc < c.slots) :
    paraseData c rest rest.length =
      match nextArg rest with
      | none => .ok (0, [], c)
      | some (arg, k) =>
          .ok (k, [storeAt rest],
            { c with argv := some (args ++ [arg]), argc := c.argc + 1, argnum := c.argnum - 1 }) := by
  rw [paraseData]
  by_cases h36 : rest.headD 0 = 36
  · rw [if_neg (not_not_intro h36)]
    by_cases h10 : 10 ∈ rest
    · have hben := hb h36 h10
      have hnonneg := hben.nonneg
      have hle := hben.le
      rw [hben.paraseLength (by omega) (by rw [h36]; decide) h10 hlen]
      by_cases hz : headerValue (headerLine rest) = 0
      · rw [if_pos hz, nextArg, if_neg (fun h => by omega)]
        rfl
      have hmax : INT_MAX = 2147483647 := rfl
      have hline := length_headerLine_le (by rw [h36]; decide) h10
      rw [if_neg hz, ok_bind]
      dsimp only
      -- the line is in the buffer, and the limit leaves room for `len + 2`
      rw [if_neg (by omega), asInt_bind (by omega) (by omega), asInt_bind (by omega) (by omega)]
      by_cases hfull :
          (headerLine rest).length + 2 + headerValue (headerLine rest) + 2 ≤ rest.length
      · rw [if_neg (by omega), if_neg (by omega), nextArg,
          if_pos ⟨h36, h10, by omega, hfull⟩, hargv]
        dsimp only
        rw [if_pos hslot, asInt_bind (by omega) (by omega),
          show ((headerLine rest).length + 2 : Int).toNat = (headerLine rest).length + 2 by omega]
        congr 2
        push_cast
        rw [Int.toNat_of_nonneg hnonneg]
      · rw [if_pos (by omega), nextArg, if_neg (fun h => hfull h.2.2.2)]
    · rw [paraseLength_of_not_mem h10 hlen, nextArg, if_neg (fun h => h10 h.2.1)]
      rfl
  · rw [if_pos h36, nextArg, if_neg (fun h => h36 h.1)]

/-- **The loop over the arguments** stores those that are there. -/
theorem paraseLoop_spec (hb : BenignArgs n rest) (hpos : 0 ≤ c.parsed)
    (hlen : c.parsed + rest.length < 2 ^ 31) (hargv : c.argv = some args)
    (hslots : c.argc + n ≤ c.slots) :
    paraseLoop n c rest rest.length =
      .ok (takeStores n rest, c.push (takeArgs n rest).1 (takeArgs n rest).2) := by
  induction n generalizing c rest args with
  | zero => rw [paraseLoop, takeStores, takeArgs, push_nil]
  | succ n ih =>
      rw [paraseLoop, paraseData_spec hb.1 (by omega) hargv (by omega), takeStores, takeArgs]
      cases hnext : nextArg rest with
      | none =>
          simp only [ok_bind]
          rw [if_pos trivial, push_nil]
      | some next =>
          obtain ⟨arg, k⟩ := next
          obtain ⟨-, -, -, harg, hk, hle, -⟩ := nextArg_eq_some hnext
          have hsize : (rest.length : Int) - k = (rest.drop k).length := by
            rw [List.length_drop]
            omega
          have hpush : ({ c with
              argv := some (args ++ [arg])
              argc := c.argc + 1
              argnum := c.argnum - 1
              parsed := c.parsed + k } : XRedisConnectorBase) = c.push [arg] k := by
            rw [XRedisConnectorBase.push, hargv]
            rfl
          have hparsed : (c.push [arg] k).parsed = c.parsed + k := rfl
          have hargs : BenignArgs n (rest.drop k) := by
            have := hb.2
            rwa [hnext] at this
          have hloop := @ih (c.push [arg] k) (rest.drop k) (args ++ [arg]) hargs
            (by rw [hparsed]; omega) (by rw [hparsed, ← hsize]; omega)
            (by rw [XRedisConnectorBase.push, hargv]; rfl)
            (by simp only [XRedisConnectorBase.push, List.length_singleton]; omega)
          simp only [ok_bind]
          -- what is parsed and what is left have one sum in every round
          rw [if_neg (by omega), asInt_bind (by omega) (by omega),
            asInt_bind (by omega) (by omega), Int.toNat_natCast, hsize, hpush, hloop]
          simp only [ok_bind, push_push, List.singleton_append]

theorem length_takeArgs_le (n : Nat) (rest : Bytes) : (takeArgs n rest).1.length ≤ n := by
  induction n generalizing rest with
  | zero => exact Nat.le_refl 0
  | succ n ih =>
      rw [takeArgs]
      cases nextArg rest with
      | none => exact Nat.zero_le _
      | some next => exact Nat.succ_le_succ (ih _)

/-- **`ProcessCmd` over the arguments.** -/
theorem processArgs_spec (hb : BenignArgs c.argnum.toNat rest) (hparsed : 0 ≤ c.parsed)
    (hlen : c.parsed + rest.length < 2 ^ 31) (hargv : c.argv = some args) (hpos : 0 < c.argnum)
    (hslots : c.argc + c.argnum = c.slots) :
    let r := takeArgs c.argnum.toNat rest
    let stores := takeStores c.argnum.toNat rest
    processArgs c rest rest.length =
      .ok (if r.1.length = c.argnum then
          { ret := true, doCmd := some (args ++ r.1), stores, connector := (c.push r.1 r.2).freeArg }
        else { ret := false, stores, connector := c.push r.1 r.2 }) := by
  intro r stores
  have hloop : paraseLoop c.argnum.toNat c rest rest.length = .ok (stores, c.push r.1 r.2) :=
    paraseLoop_spec hb hparsed hlen hargv (by omega)
  rw [processArgs, hloop]
  simp only [bind, Except.bind]
  have hargv' : (c.push r.1 r.2).argv = some (args ++ r.1) := by
    rw [XRedisConnectorBase.push, hargv]
    rfl
  have hnum : (c.push r.1 r.2).argnum = c.argnum - r.1.length := rfl
  by_cases hall : (r.1.length : Int) = c.argnum
  · obtain ⟨cmd, tail, hcons⟩ : ∃ cmd tail, args ++ r.1 = cmd :: tail := by
      refine List.exists_cons_of_ne_nil fun h => ?_
      rw [(List.append_eq_nil_iff.mp h).2] at hall
      simp at hall
      omega
    rw [if_pos (by omega), if_pos hall, hargv', hcons]
  · rw [if_neg (by omega), if_neg hall]

/-! ### Calls -/

/-- Every header that a call of `ProcessCmd` comes to is benign, and the buffer has a length that
is an `int`. -/
structure BenignCall (c : XRedisConnectorBase) : Prop where
  length : c.cmdbuffer.length < 2 ^ 31
  head : c.argnum = 0 → c.cmdbuffer.headD 0 = 42 → 10 ∈ c.cmdbuffer →
    Benign INT_MAX c.cmdbuffer ∧
      BenignArgs (headerValue (headerLine c.cmdbuffer)).toNat
        (c.cmdbuffer.drop ((headerLine c.cmdbuffer).length + 2))
  args : c.argnum ≠ 0 → BenignArgs c.argnum.toNat (c.cmdbuffer.drop c.parsed.toNat)

instance (c : XRedisConnectorBase) : Decidable (BenignCall c) :=
  decidable_of_iff (c.cmdbuffer.length < 2 ^ 31 ∧
    (c.argnum = 0 → c.cmdbuffer.headD 0 = 42 → 10 ∈ c.cmdbuffer →
      Benign INT_MAX c.cmdbuffer ∧
        BenignArgs (headerValue (headerLine c.cmdbuffer)).toNat
          (c.cmdbuffer.drop ((headerLine c.cmdbuffer).length + 2))) ∧
    (c.argnum ≠ 0 → BenignArgs c.argnum.toNat (c.cmdbuffer.drop c.parsed.toNat)))
    ⟨fun h => ⟨h.1, h.2.1, h.2.2⟩, fun h => ⟨h.length, h.head, h.args⟩⟩

/-- The connector is in a command of which it has the arguments `args`. -/
structure Midway (c : XRedisConnectorBase) (args : List Bytes) : Prop where
  argv : c.argv = some args
  argc : c.argc = args.length
  argnum : 0 < c.argnum
  slots : c.argc + c.argnum = c.slots
  nonempty : [] ∉ args
  bytes : (args.map List.length).sum + 5 * args.length + 3 ≤ c.parsed
  parsed : c.parsed ≤ c.cmdbuffer.length

theorem i32_length {b : Bytes} (h : b.length < 2 ^ 31) : i32 b.length = b.length :=
  i32_eq (by omega) (by omega)

/-- `ProcessCmd` in a command. -/
theorem processCmd_midway (hnum : c.argnum ≠ 0) (hpos : 0 < c.parsed)
    (hle : c.parsed ≤ c.cmdbuffer.length) (hlen : c.cmdbuffer.length < 2 ^ 31) :
    processCmd c = processArgs c (c.cmdbuffer.drop c.parsed.toNat)
      (c.cmdbuffer.drop c.parsed.toNat).length := by
  have hsize : (c.cmdbuffer.length : Int) - c.parsed =
      (c.cmdbuffer.drop c.parsed.toNat).length := by
    rw [List.length_drop]
    omega
  simp only [processCmd, i32_length hlen]
  rw [if_neg (by omega), if_neg (by omega), asInt_bind (by omega) (by omega), if_neg hnum, hsize]

/-- The connector that has read in the first line of `b` that a command has `num` arguments. -/
def started (b : Bytes) : XRedisConnectorBase :=
  { cmdbuffer := b
    parsed := (headerLine b).length + 2
    argnum := headerValue (headerLine b)
    argv := some []
    slots := (headerValue (headerLine b)).toNat }

/-- `ProcessCmd` between commands. -/
theorem processCmd_idle {b : Bytes} (hb : BenignCall { cmdbuffer := b }) :
    processCmd { cmdbuffer := b } =
      if b.headD 0 = 42 ∧ 10 ∈ b ∧ 0 < headerValue (headerLine b) then
        let rest := b.drop ((headerLine b).length + 2)
        processArgs (started b) rest rest.length
      else .ok { ret := false, connector := { cmdbuffer := b } } := by
  have hlen : b.length < 2 ^ 31 := hb.length
  simp only [processCmd, i32_length hlen, if_true, Int.toNat_zero, List.drop_zero, Int.sub_zero]
  by_cases h42 : b.headD 0 = 42
  · have hne : b.length ≠ 0 := fun h => by
      rw [List.length_eq_zero_iff.mp h] at h42
      cases h42
    rw [if_neg (by omega), if_neg (by omega), asInt_bind (by omega) (by omega), if_pos h42]
    by_cases h10 : 10 ∈ b
    · have hben : Benign INT_MAX b := (hb.head rfl h42 h10).1
      have hnonneg := hben.nonneg
      rw [hben.paraseLength (le_refl _) (by rw [h42]; decide) h10 hlen]
      by_cases hz : headerValue (headerLine b) = 0
      · rw [if_pos hz, if_neg (fun h => by omega)]
        rfl
      · have hline := length_headerLine_le (by rw [h42]; decide) h10
        have hsize : (b.length : Int) - ((headerLine b).length + 2) =
            (b.drop ((headerLine b).length + 2)).length := by
          rw [List.length_drop]
          omega
        have hstart : startCmd { cmdbuffer := b } ((headerLine b).length + 2)
            (headerValue (headerLine b)) = started b := by
          simp [startCmd, started, hnonneg]
        rw [if_neg hz, if_pos ⟨h42, h10, by omega⟩, ok_bind]
        dsimp only
        rw [if_neg (by omega), asInt_bind (by omega) (by omega),
          asInt_bind (by omega) (by omega), Int.zero_add, hstart, hsize]
        rfl
    · rw [paraseLength_of_not_mem h10 hlen, if_neg (fun h => h10 h.2.1)]
      rfl
  · rw [if_neg (fun h : _ ∧ _ => h42 h.1), asInt_bind (by omega) (by omega), if_neg h42]
    split_ifs with h₁ h₂
    · rfl
    · omega
    · rfl

/-! ### Bounds -/

/-- What is stored is what the header states, and it is there. -/
def Store.Ok (st : Store) : Prop :=
  st.len = headerValue st.header ∧ 0 ≤ st.len ∧ st.len + 2 ≤ INT_MAX ∧ st.len + 2 ≤ st.remaining

/-- `parsed`, `argnum` and `argc` are in bounds. -/
def InBounds (c : XRedisConnectorBase) : Prop :=
  0 ≤ c.parsed ∧ c.parsed ≤ c.cmdbuffer.length ∧ 0 ≤ c.argnum ∧ c.argc ≤ c.slots

/-- The connector is between two commands, or in one. -/
def Sound (c : XRedisConnectorBase) : Prop :=
  c = { cmdbuffer := c.cmdbuffer } ∨ ∃ args, Midway c args

theorem Sound.inBounds (h : Sound c) : InBounds c := by
  rcases h with h | ⟨args, h⟩
  · rw [h]
    exact ⟨le_refl _, Int.natCast_nonneg _, le_refl _, le_refl _⟩
  · have hbytes := h.bytes
    have hnum := h.argnum
    have hslots := h.slots
    exact ⟨by omega, h.parsed, by omega, by omega⟩

/-- A line that states a positive number is not empty. -/
theorem length_headerLine_pos {line : Bytes} (h : 0 < headerValue line) : 0 < line.length := by
  refine List.length_pos_of_ne_nil fun hnil => ?_
  rw [hnil] at h
  exact absurd h (by decide)

theorem takeArgs_bytes (n : Nat) (rest : Bytes) :
    [] ∉ (takeArgs n rest).1 ∧
      ((takeArgs n rest).1.map List.length).sum + 5 * (takeArgs n rest).1.length ≤
        (takeArgs n rest).2 ∧ (takeArgs n rest).2 ≤ rest.length := by
  induction n generalizing rest with
  | zero => exact ⟨List.not_mem_nil, le_refl 0, Nat.zero_le _⟩
  | succ n ih =>
      rw [takeArgs]
      cases hnext : nextArg rest with
      | none => exact ⟨List.not_mem_nil, le_refl 0, Nat.zero_le _⟩
      | some next =>
          obtain ⟨arg, k⟩ := next
          obtain ⟨-, -, hv, hpos, hk, hle, -⟩ := nextArg_eq_some hnext
          have hline := @length_headerLine_pos (headerLine rest) (by omega)
          obtain ⟨hne, hsum, hrest⟩ := ih (rest.drop k)
          rw [List.length_drop] at hrest
          refine ⟨?_, ?_, ?_⟩
          · intro hnil
            rcases List.mem_cons.mp hnil with rfl | hnil
            · cases hpos
            · exact hne hnil
          · simp only [List.map_cons, List.sum_cons, List.length_cons]
            omega
          · simp only
            omega

theorem takeStores_ok (n : Nat) {rest : Bytes} (hlen : rest.length < 2 ^ 31) :
    ∀ st ∈ takeStores n rest, st.Ok := by
  induction n generalizing rest with
  | zero => exact nofun
  | succ n ih =>
      rw [takeStores]
      cases hnext : nextArg rest with
      | none => exact nofun
      | some next =>
          obtain ⟨arg, k⟩ := next
          obtain ⟨-, -, hv, hpos, hk, hle, -⟩ := nextArg_eq_some hnext
          have hmax : INT_MAX = 2147483647 := rfl
          refine List.forall_mem_cons.mpr ⟨⟨rfl, ?_, ?_, ?_⟩, ih ?_⟩
          · simp only [storeAt]
            omega
          · simp only [storeAt]
            omega
          · simp only [storeAt, List.length_drop]
            omega
          · rw [List.length_drop]
            omega

/-- Some more arguments, and not all that were missing. -/
theorem midway_push (h : Midway c args) {new : List Bytes} {k : Nat} (hne : [] ∉ new)
    (hsum : (new.map List.length).sum + 5 * new.length ≤ k)
    (hk : c.parsed + k ≤ c.cmdbuffer.length) (hnew : new.length < c.argnum) :
    Midway (c.push new k) (args ++ new) := by
  have hbytes := h.bytes
  have hargc := h.argc
  have hslots := h.slots
  refine ⟨?_, ?_, ?_, ?_, ?_, ?_, hk⟩
  · rw [XRedisConnectorBase.push, h.argv]
    rfl
  · rw [XRedisConnectorBase.push, List.length_append, hargc]
  · exact Int.sub_pos_of_lt hnew
  · simp only [XRedisConnectorBase.push]
    omega
  · intro hnil
    exact (List.mem_append.mp hnil).elim h.nonempty hne
  · simp only [XRedisConnectorBase.push, List.map_append, List.sum_append, List.length_append]
    omega

/-- What a call must not fail at: no fault, no argument stored that is not there, and no command
handed out that is not whole. -/
structure SafeResult (r : Processed) : Prop where
  stores : ∀ st ∈ r.stores, st.Ok
  sound : Sound r.connector
  deliverable : ∀ argv, r.doCmd = some argv → Deliverable argv

theorem processArgs_safe (h : Midway c args) (hlen : c.cmdbuffer.length < 2 ^ 31)
    (hb : BenignArgs c.argnum.toNat (c.cmdbuffer.drop c.parsed.toNat)) :
    ∃ r, processArgs c (c.cmdbuffer.drop c.parsed.toNat)
      (c.cmdbuffer.drop c.parsed.toNat).length = .ok r ∧ SafeResult r := by
  have hrest : (c.cmdbuffer.drop c.parsed.toNat).length < 2 ^ 31 := by
    rw [List.length_drop]
    omega
  have hbytes := h.bytes
  have hparsed := h.parsed
  have hnum := h.argnum
  have hfit : c.parsed + (c.cmdbuffer.drop c.parsed.toNat).length < 2 ^ 31 := by
    rw [List.length_drop]
    omega
  refine ⟨_, processArgs_spec hb (by omega) hfit h.argv hnum h.slots, ?_⟩
  have hstores := takeStores_ok c.argnum.toNat hrest
  obtain ⟨hne, hsum, hle⟩ := takeArgs_bytes c.argnum.toNat (c.cmdbuffer.drop c.parsed.toNat)
  have hcount := length_takeArgs_le c.argnum.toNat (c.cmdbuffer.drop c.parsed.toNat)
  rw [List.length_drop] at hle
  split_ifs with hall
  · refine ⟨hstores, Or.inl rfl, fun argv hargv => ?_⟩
    cases hargv
    refine ⟨fun hnil => (List.mem_append.mp hnil).elim h.nonempty hne, ?_⟩
    simp only [List.map_append, List.sum_append, List.length_append]
    omega
  · exact ⟨hstores, Or.inr ⟨_, midway_push h hne hsum (by omega) (by omega)⟩, nofun⟩

theorem midway_started {b : Bytes} (h42 : b.headD 0 = 42) (h10 : 10 ∈ b)
    (hv : 0 < headerValue (headerLine b)) : Midway (started b) [] := by
  have hline := length_headerLine_pos hv
  have hle := length_headerLine_le (by rw [h42]; decide) h10
  refine ⟨rfl, rfl, hv, ?_, List.not_mem_nil, ?_, ?_⟩
  · simp only [started]
    omega
  · simp only [started, List.map_nil, List.sum_nil, List.length_nil]
    omega
  · simp only [started]
    omega

/-- **A call of `ProcessCmd`** whose headers are benign is safe. -/
theorem processCmd_safe (h : Sound c) (hb : BenignCall c) :
    ∃ r, processCmd c = .ok r ∧ SafeResult r := by
  rcases h with h | ⟨args, h⟩
  · obtain ⟨b, rfl⟩ : ∃ b, c = { cmdbuffer := b } := ⟨_, h⟩
    rw [processCmd_idle hb]
    split_ifs with hc
    · obtain ⟨h42, h10, hv⟩ := hc
      exact processArgs_safe (midway_started h42 h10 hv) hb.length (hb.head rfl h42 h10).2
    · exact ⟨_, rfl, nofun, Or.inl rfl, nofun⟩
  · have hnum := h.argnum
    have hbytes := h.bytes
    rw [processCmd_midway (by omega) (by omega) h.parsed hb.length]
    exact processArgs_safe h hb.length (hb.args (by omega))

/-! ### Runs -/

/-- Bytes come in, or `ProcessCmd` is called where the headers it comes to are benign. -/
inductive ConnectorStep : XRedisConnectorBase → XRedisConnectorBase → Prop where
  | deliver (c : XRedisConnectorBase) (piece : Bytes) :
      ConnectorStep c { c with cmdbuffer := c.cmdbuffer ++ piece }
  | process {c : XRedisConnectorBase} {r : Processed} (hb : BenignCall c)
      (h : processCmd c = .ok r) : ConnectorStep c r.connector

theorem Sound.deliver (h : Sound c) (piece : Bytes) :
    Sound { c with cmdbuffer := c.cmdbuffer ++ piece } := by
  rcases h with h | ⟨args, h⟩
  · rw [h]
    exact Or.inl rfl
  · have hparsed := h.parsed
    refine Or.inr ⟨args, h.argv, h.argc, h.argnum, h.slots, h.nonempty, h.bytes, ?_⟩
    simp only [List.length_append]
    omega

theorem Sound.step {c' : XRedisConnectorBase} (hs : ConnectorStep c c') (h : Sound c) :
    Sound c' := by
  cases hs with
  | deliver piece => exact h.deliver piece
  | process hb hr =>
      obtain ⟨r, hr', hsafe⟩ := processCmd_safe h hb
      rw [hr] at hr'
      cases hr'
      exact hsafe.sound

/-- **The parser is safe** on every stream, in any pieces, as long as the headers that its calls
come to are benign: `parsed`, `argnum` and `argc` stay in bounds, and a call neither writes
outside `tmp` nor leaves it without a NUL, and stores an argument only with the length that its
header states and with that many bytes and two more at hand. -/
theorem parser_safe (h : Relation.ReflTransGen ConnectorStep {} c) :
    InBounds c ∧
      (BenignCall c →
        ∃ r, processCmd c = .ok r ∧ InBounds r.connector ∧ ∀ st ∈ r.stores, st.Ok) := by
  have hfresh : Sound {} := Or.inl rfl
  have hstep : ∀ c c', ConnectorStep c c' → Sound c → Sound c' := fun _ _ => Sound.step
  have hsound : Sound c := reach_inv hstep h hfresh
  refine ⟨hsound.inBounds, fun hb => ?_⟩
  obtain ⟨r, hr, hsafe⟩ := processCmd_safe hsound hb
  exact ⟨r, hr, hsafe.sound.inBounds, hsafe.stores⟩

/-- A `GET` of which the key has not come yet. -/
theorem parser_safe_run :
    let c : XRedisConnectorBase := { cmdbuffer := ascii "*2\r\n$3\r\nGET\r\n$1\r" }
    ∃ r, processCmd c = .ok r ∧ InBounds r.connector ∧ ∀ st ∈ r.stores, st.Ok := by
  intro c
  have hc : Relation.ReflTransGen ConnectorStep {} c := .single (.deliver {} c.cmdbuffer)
  exact (parser_safe hc).2 (by decide +kernel)

/-- A header that is too long, a negative length, one that overflows, a number of arguments that
is negative, and a length of `2 ^ 32 + 1` that is stored as 1. -/
theorem parser_unsafe :
    processCmd { cmdbuffer := ascii "*123456789012\r\n" } = .error .tmpWrite ∧
      processCmd { cmdbuffer := ascii "*12345678901\r\n" } = .error .tmpEnd ∧
      processCmd { cmdbuffer := ascii "*1\r\n$-1\r\nx" } = .error .negativeLen ∧
      processCmd { cmdbuffer := ascii "*1\r\n$2147483647\r\nx" } = .error .intOverflow ∧
      (processCmd { cmdbuffer := ascii "*-1\r\n" }).map (·.connector.argnum) = .ok (-1) ∧
      (processCmd { cmdbuffer := ascii "*2\r\n$4294967297\r\nabc" }).map (·.stores) =
        .ok [⟨ascii "4294967297\r", 1, 3⟩] ∧
      headerValue (ascii "4294967297\r") = 4294967297 := by
  exact ⟨by decide, by decide, by decide, by decide, by decide, by decide, by decide⟩

end XHttpCache
