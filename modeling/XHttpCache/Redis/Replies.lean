import XHttpCache.Redis.Commands
import XHttpCache.Resp.Parser
import XHttpCache.Resp.Values
import XHttpCache.Store.Faults
import XHttpCache.Support.Runs

/-!
# Redis — the replies on the wire

What the `Send…Reply` functions write.  `NetPrintf` prints into a buffer of 256 bytes and sends as
many bytes as the text would have had, so a text of 256 bytes loses its end and a longer one sends
what is behind the buffer; `SendData` takes the size as an `int`.

A command should be answered by one RESP value.  `Answerable` is when it is: a `GET` or a
`FLUSHALL` whose call of RocksDB fails is not answered at all, and the name of a command that is
not known goes into the error line as it is (`unknown_reply_iff`).
-/

namespace XHttpCache
open Support

/-! ### Sending -/

/-- `xRedisServerBase::SendData`, of a string with its size. -/
def sendData (data : Bytes) : Except Fault Bytes :=
  -- a negative `int` is a size beyond any buffer
  if i32 data.length < 0 then .error .read else .ok (data.take (i32 data.length).toNat)

/-- `xRedisServerBase::NetPrintf`, of the text that the format gives. -/
def netPrintf (text : Bytes) : Except Fault Bytes :=
  -- `szBuf` has 255 bytes of the text and a NUL
  if text.length ≤ 256 then .ok ((snprintf 256 text ++ [0]).take text.length) else .error .read

/-- `xRedisServerBase::SendBulkReply`. -/
def sendBulkReply (strResult : Bytes) : Except Fault Bytes := do
  let head ← netPrintf (respLine 36 (natDecimal (u64 strResult.length)))
  let data ← sendData strResult
  return head ++ data ++ CRLF

/-- The loop of `xRedisServerBase::SendMultiBulkReply`. -/
def sendBulkReplies : List Bytes → Except Fault Bytes
  | [] => .ok []
  | s :: l => do
      let first ← sendBulkReply s
      let rest ← sendBulkReplies l
      return first ++ rest

/-- The `Send…Reply` functions. -/
def Reply.send : Reply → Except Fault Bytes
  | status str => netPrintf (respLine 43 (cstr str))
  | null => netPrintf (respLine 36 (ascii "-1"))
  | err errtype errmsg => netPrintf (respLine 45 (cstr errtype ++ 32 :: cstr errmsg))
  | int ret => netPrintf (respLine 58 (decimal (i64 ret)))
  | bulk strResult => sendBulkReply strResult
  | multiBulk vResult => do
      let head ← netPrintf (respLine 42 (natDecimal (u64 vResult.length)))
      let items ← sendBulkReplies vResult
      return head ++ items

/-- What is sent for the replies of a command. -/
def sent : List Reply → Except Fault Bytes
  | [] => .ok []
  | r :: l => do
      let first ← r.send
      let rest ← sent l
      return first ++ rest

/-- The client gets one RESP value. -/
def OneReply (replies : List Reply) : Prop := ∃ u, sent replies = .ok u ∧ IsResp u

theorem not_oneReply_nil : ¬ OneReply [] := by
  rintro ⟨u, hu, hresp⟩
  cases hu
  exact hresp.ne_nil rfl

theorem sent_singleton (r : Reply) : sent [r] = r.send := by
  simp only [sent]
  cases r.send with
  | error e => rfl
  | ok u => simp [bind, Except.bind, pure, Except.pure]

theorem oneReply_singleton {r : Reply} : OneReply [r] ↔ ∃ u, r.send = .ok u ∧ IsResp u := by
  rw [OneReply, sent_singleton]

/-! ### Lines -/

theorem netPrintf_ok {text : Bytes} (h : text.length ≤ 255) : netPrintf text = .ok text := by
  have htext : snprintf 256 text = text := List.take_of_length_le h
  rw [netPrintf, if_pos (h.trans (by decide)), htext, List.take_left' rfl]

/-- A line whose end was sent was sent as a whole. -/
theorem netPrintf_respLine {t : Byte} {l u : Bytes} (h : netPrintf (respLine t l) = .ok u)
    (hu : u.getLast? = some 10) : u = respLine t l ∧ (respLine t l).length ≤ 255 := by
  by_cases hlen : (respLine t l).length ≤ 255
  · rw [netPrintf_ok hlen] at h
    exact ⟨(Except.ok.inj h).symm, hlen⟩
  · rw [netPrintf] at h
    split_ifs at h with h256
    have hl : (respLine t l).length = 256 := le_antisymm h256 (not_le.mp hlen)
    have hsz : (snprintf 256 (respLine t l)).length = 255 := by
      rw [snprintf, List.length_take, hl]
      rfl
    rw [hl, List.take_of_length_le (by simp [hsz])] at h
    rw [← Except.ok.inj h, List.getLast?_concat] at hu
    exact absurd (Option.some.inj hu) (by decide)

theorem length_respLine (t : Byte) (l : Bytes) : (respLine t l).length = l.length + 3 := by
  simp [respLine, CRLF]

/-- A short line that is a value is sent as it is. -/
theorem oneReply_line {r : Reply} {t : Byte} {l : Bytes} (hr : r.send = netPrintf (respLine t l))
    (h : OnLine t l) (hlen : l.length ≤ 252) : OneReply [r] := by
  refine oneReply_singleton.mpr ⟨respLine t l, hr.trans (netPrintf_ok ?_), .line h⟩
  rw [length_respLine]
  exact Nat.add_le_add_right hlen 3

theorem oneReply_null : OneReply [.null] := oneReply_line rfl .nullBulk (by decide)

theorem oneReply_int (n : Int) : OneReply [.int n] :=
  oneReply_line rfl (.int _) ((length_decimal_le (i64_isI64 n)).trans (by decide))

theorem oneReply_ok : OneReply [.status (ascii "OK")] :=
  oneReply_line rfl (.simple (line_of_all rfl)) (by decide)

theorem oneReply_err {t m : Bytes} (h : Line (cstr t ++ 32 :: cstr m))
    (hlen : (cstr t ++ 32 :: cstr m).length ≤ 252) : OneReply [.err t m] :=
  oneReply_line rfl (.error h) hlen

/-- An error line is a value if it holds no CR and no LF. -/
theorem isResp_error {l : Bytes} (h : IsResp (respLine 45 l)) : Line l := by
  generalize hu : respLine 45 l = u at h
  cases h with
  | @line t l' h =>
      simp only [respLine, List.cons_append, List.cons.injEq, List.append_cancel_right_eq] at hu
      obtain ⟨rfl, rfl⟩ := hu
      exact h.line
  | bulk d => exact absurd (List.head_eq_of_cons_eq hu) (by decide)
  | array h => exact absurd (List.head_eq_of_cons_eq hu) (by decide)

/-- **The answer to a command that is not known** is one value if its name can stand in a line
that fits. -/
theorem oneReply_unknown_iff (cmd : Bytes) :
    OneReply [.err (cstr cmd) (ascii "not suport")] ↔
      Line (cstr cmd) ∧ (cstr cmd).length ≤ 241 := by
  have hc : cstr (cstr cmd) = cstr cmd := List.takeWhile_idem
  have hm : cstr (ascii "not suport") = ascii "not suport" := by decide
  constructor
  · intro h
    obtain ⟨u, hu, hresp⟩ := oneReply_singleton.mp h
    obtain ⟨rfl, hlen⟩ := netPrintf_respLine hu hresp.getLast?
    rw [hc, hm] at hresp hlen
    have hline := isResp_error hresp
    refine ⟨fun c hc => hline c (List.mem_append_left _ hc), ?_⟩
    rw [length_respLine, List.length_append] at hlen
    have h11 : (32 :: ascii "not suport").length = 11 := rfl
    omega
  · rintro ⟨hline, hlen⟩
    refine oneReply_err ?_ ?_
    · rw [hc, hm]
      intro c hcm
      rcases List.mem_append.mp hcm with hcm | hcm
      · exact hline c hcm
      · exact (line_of_all rfl : Line (32 :: ascii "not suport")) c hcm
    · rw [hc, hm, List.length_append]
      exact Nat.add_le_add_right hlen 11

/-! ### Bulk strings -/

theorem i32_natCast (n : Nat) :
    i32 n = if n % 2 ^ 32 < 2 ^ 31 then ((n % 2 ^ 32 : Nat) : Int)
      else ((n % 2 ^ 32 : Nat) : Int) - 2 ^ 32 := by
  rw [i32, Int.bmod_def]
  split_ifs <;> omega

theorem length_natDecimal_u64 (n : Int) : (natDecimal (u64 n)).length ≤ 20 :=
  length_natDecimal_le (by decide) ((u64_lt n).trans (by decide))

theorem u64_natCast (n : Nat) : u64 n = n % 2 ^ 64 := by
  rw [u64]
  omega

/-- What `SendBulkReply` sends, of a string of any size. -/
theorem sendBulkReply_eq (s : Bytes) :
    sendBulkReply s =
      if s.length % 2 ^ 32 < 2 ^ 31 then
        .ok (respLine 36 (natDecimal (s.length % 2 ^ 64)) ++ s.take (s.length % 2 ^ 32) ++ CRLF)
      else .error .read := by
  have hhead : netPrintf (respLine 36 (natDecimal (u64 s.length))) =
      .ok (respLine 36 (natDecimal (u64 s.length))) := by
    refine netPrintf_ok ?_
    rw [length_respLine]
    have := length_natDecimal_u64 s.length
    omega
  rw [sendBulkReply, hhead, u64_natCast, sendData, i32_natCast]
  split_ifs with h₁ h₂ h₂
  · omega
  · rfl
  · rfl
  · omega

/-- A bulk string announces its length. -/
theorem isResp_bulk {n : Nat} {d : Bytes} (h : IsResp (respLine 36 (natDecimal n) ++ d ++ CRLF)) :
    d.length = n := by
  rw [List.append_assoc] at h
  generalize hu : respLine 36 (natDecimal n) ++ (d ++ CRLF) = u at h
  cases h with
  | @line t l h =>
      rw [← List.append_nil (respLine t l)] at hu
      obtain ⟨ht, hl, -⟩ := respLine_append_inj (line_natDecimal _) h.line hu
      exact absurd hl.symm (h.ne_natDecimal (Or.inl ht.symm) n)
  | bulk d' =>
      rw [List.append_assoc] at hu
      obtain ⟨-, hl, hd⟩ := respLine_append_inj (line_natDecimal _) (line_natDecimal _) hu
      rw [List.append_cancel_right hd, natDecimal_inj hl]
  | array _ =>
      obtain ⟨ht, -⟩ := respLine_append_inj (line_natDecimal _) (line_natDecimal _) hu
      exact absurd ht (by decide)

theorem sendBulkReply_of_lt {s : Bytes} (h : s.length < 2 ^ 31) :
    sendBulkReply s = .ok (respLine 36 (natDecimal s.length) ++ s ++ CRLF) := by
  rw [sendBulkReply_eq, Nat.mod_eq_of_lt (h.trans (by decide)),
    Nat.mod_eq_of_lt (h.trans (by decide)), if_pos h, List.take_length]

/-- **A bulk reply** is one value if its size, a `size_t`, passes through `int`. -/
theorem oneReply_bulk_iff (s : Bytes) : OneReply [.bulk s] ↔ u64 s.length < 2 ^ 31 := by
  rw [oneReply_singleton, Reply.send, sendBulkReply_eq, u64_natCast]
  constructor
  · rintro ⟨u, hu, hresp⟩
    split_ifs at hu with h
    cases hu
    have hlen := isResp_bulk hresp
    rw [List.length_take] at hlen
    omega
  · intro h
    have hsize : s.length % 2 ^ 32 = s.length % 2 ^ 64 := by omega
    rw [hsize, if_pos h]
    have hlen : (s.take (s.length % 2 ^ 64)).length = s.length % 2 ^ 64 :=
      List.length_take_of_le (Nat.mod_le _ _)
    have hbulk := IsResp.bulk (s.take (s.length % 2 ^ 64))
    rw [hlen] at hbulk
    exact ⟨_, rfl, hbulk⟩

/-- What `SendMultiBulkReply` sends, of strings that fit. -/
theorem send_multiBulk {l : List Bytes} (hl : l.length < 2 ^ 64)
    (h : ∀ s ∈ l, s.length < 2 ^ 31) :
    (Reply.multiBulk l).send =
      .ok (respLine 42 (natDecimal l.length) ++ l.flatMap bulkLine) := by
  have hitems : sendBulkReplies l = .ok (l.flatMap bulkLine) := by
    clear hl
    induction l with
    | nil => rfl
    | cons s l ih =>
        rw [sendBulkReplies, sendBulkReply_of_lt (h s List.mem_cons_self),
          ih fun s hs => h s (List.mem_cons_of_mem _ hs)]
        rfl
  have hhead : netPrintf (respLine 42 (natDecimal (u64 l.length))) =
      .ok (respLine 42 (natDecimal l.length)) := by
    rw [u64_natCast, Nat.mod_eq_of_lt hl, netPrintf_ok]
    rw [length_respLine]
    have := length_natDecimal_le (n := l.length) (k := 20) (by decide) (hl.trans (by decide))
    omega
  rw [Reply.send, hhead, hitems]
  rfl

/-- **A list of strings**, each of which fits, is one value. -/
theorem oneReply_multiBulk {l : List Bytes} (hl : l.length < 2 ^ 64)
    (h : ∀ s ∈ l, s.length < 2 ^ 31) : OneReply [.multiBulk l] := by
  refine oneReply_singleton.mpr ⟨_, send_multiBulk hl h, ?_⟩
  rw [← List.length_map bulkLine, List.flatMap_def]
  refine .array fun v hv => ?_
  obtain ⟨s, -, rfl⟩ := List.mem_map.mp hv
  exact .bulk s

/-! ### The keys of a scan -/

theorem length_readData_lt {rowkey : Bytes} {d : Decoder}
    (h : (Decoder.ofBytes rowkey).skip 1 = some d) : d.readData.2.length < 2 ^ 31 := by
  rw [Decoder.skip] at h
  split_ifs at h with hsize
  cases h
  have hi : i32 rowkey.length < 2 ^ 31 := by
    rw [i32_natCast]
    split_ifs <;> omega
  have hle := List.length_take_le (i32 rowkey.length - (1 : Nat)).toNat (rowkey.drop 1)
  simp only [Decoder.readData, Decoder.ofBytes] at hle hsize ⊢
  omega

theorem length_read8Data_lt {d d' : Decoder} {key : Bytes} (h : d.read8Data = some (key, d')) :
    key.length < 2 ^ 31 := by
  simp only [Decoder.read8Data] at h
  split_ifs at h with h₁ h₂
  cases h
  have hle := List.length_take_le (d.p.headD 0).val (d.p.drop 1)
  have := (d.p.headD 0).isLt
  omega

/-- A key that is decoded fits into an `int`. -/
theorem length_decodeKey_lt (rowkey : Bytes) {out : KeyParts} (h : out.key.length < 2 ^ 31) :
    (decodeKey rowkey out).2.key.length < 2 ^ 31 := by
  simp only [decodeKey]
  split_ifs
  · cases hs : (Decoder.ofBytes rowkey).skip 1 with
    | none => exact h
    | some d => exact length_readData_lt hs
  · cases hs : (Decoder.ofBytes rowkey).skip 1 with
    | none => exact h
    | some d =>
        simp only
        cases hk : d.read8Data with
        | none => exact h
        | some r =>
            have hlt : r.1.length < 2 ^ 31 := length_read8Data_lt hk
            simp only
            cases r.2.readInt64 with
            | none => exact hlt
            | some r' =>
                simp only
                cases r'.2.skip 1 with
                | none => exact hlt
                | some _ => exact hlt
  · exact h

/-- What a scan finds: not more than its limit, and keys that fit. -/
theorem scanLoop_bounds (endKey : Bytes) (limit : Int) (it : List (Bytes × Bytes)) (n : Int)
    (out : KeyParts) (h : out.key.length < 2 ^ 31) :
    ((XDataBase.scanLoop endKey limit it n out).length ≤ (limit - n).toNat) ∧
      ∀ s ∈ XDataBase.scanLoop endKey limit it n out, s.length < 2 ^ 31 := by
  induction it generalizing n out with
  | nil => exact ⟨Nat.zero_le _, by simp [XDataBase.scanLoop]⟩
  | cons row it ih =>
      rw [XDataBase.scanLoop]
      split_ifs with hrow
      · have hkey := length_decodeKey_lt row.1 h
        obtain ⟨hlen, hall⟩ := ih (n + 1) _ hkey
        refine ⟨?_, ?_⟩
        · rw [List.length_cons]
          have := hrow.2
          omega
        · intro s hs
          rcases List.mem_cons.mp hs with rfl | hs
          · exact hkey
          · exact hall s hs
      · exact ⟨Nat.zero_le _, by simp⟩

theorem atoi_le (s : Bytes) : atoi s ≤ INT_MAX := by
  have hlt := i32_lt (strtoll s)
  rw [atoi, INT_MAX]
  omega

theorem scanArgs_limit {argv : List Bytes} {start stop : Bytes} {limit : Int} {del : Bool}
    (h : XRedisServer.scanArgs argv = some (start, stop, limit, del)) : limit ≤ INT_MAX := by
  unfold XRedisServer.scanArgs at h
  split at h
  · split_ifs at h
    cases h
    exact atoi_le _
  · split_ifs at h
    · cases h
      exact atoi_le _
    · cases h
      exact le_refl _
  · cases h
    exact le_refl _
  · cases h
    exact le_refl _
  · cases h

/-- **`SCAN` is answered by one value**, whatever it finds and whatever fails. -/
theorem oneReply_scan (sv : XRedisServer) (argv : List Bytes) :
    OneReply (sv.processCmdScan argv).1 := by
  rw [XRedisServer.processCmdScan]
  cases hargs : XRedisServer.scanArgs argv with
  | none => exact oneReply_err (line_of_all rfl) (by decide)
  | some a =>
      obtain ⟨start, stop, limit, del⟩ := a
      have hlimit := scanArgs_limit hargs
      simp only [XDataBase.scanKey_eq]
      split_ifs
      · exact oneReply_err (line_of_all rfl) (by decide)
      · exact oneReply_int _
      · exact oneReply_multiBulk (by decide) (by simp)
      · exact oneReply_err (line_of_all rfl) (by decide)
      · exact oneReply_int _
      · obtain ⟨hlen, hall⟩ := scanLoop_bounds (encodeKey (.string stop)) limit
          (sv.xdb.rows.seek (encodeKey (.string start))) 0 {} (by decide)
        refine oneReply_multiBulk (hlen.trans_lt ?_) hall
        have hmax : INT_MAX = 2147483647 := rfl
        omega

/-! ### One reply to a command -/

namespace XRedisServer

/-- A command that is answered by one value. -/
def Answerable (sv : XRedisServer) : List Bytes → Prop
  | [] => False
  | cmd :: args =>
      match getCmdProcessFun cmd with
      | none => Line (cstr cmd) ∧ (cstr cmd).length ≤ 241
      | some .get => ∀ key, args = [key] → sv.xdb.fault 0 = false ∧
          ∀ row, sv.xdb.valueRow key = some row → u64 (row.drop 8).length < 2 ^ 31
      | some .flushall => sv.xdb.fault 0 = false
      | some _ => True

variable (sv : XRedisServer) (now : Int)

theorem oneReply_set (argv : List Bytes) : OneReply (sv.processCmdSet now argv).1 := by
  unfold processCmdSet
  split
  · exact oneReply_ok
  · split_ifs
    · unfold processCmdSetEx
      dsimp only
      split
      · exact oneReply_ok
      · exact oneReply_null
    · exact oneReply_err (line_of_all rfl) (by decide)
  · exact oneReply_err (line_of_all rfl) (by decide)

theorem oneReply_del (argv : List Bytes) : OneReply (sv.processCmdDel argv).1 := by
  rw [processCmdDel]
  split_ifs
  · exact oneReply_err (line_of_all rfl) (by decide)
  · exact oneReply_int _

theorem oneReply_expire (argv : List Bytes) : OneReply (sv.processCmdExpire now argv).1 := by
  unfold processCmdExpire
  split
  · rename_i key ttl
    have hpos : ¬ (decimal (expiredAt now ttl)).length ≤ 0 :=
      Nat.not_le.mpr (List.length_pos_of_ne_nil (decimal_ne_nil _))
    simp only [if_neg hpos]
    split
    · split
      · exact oneReply_int _
      · exact oneReply_int _
    · exact oneReply_int _
  · exact oneReply_err (line_of_all rfl) (by decide)

theorem oneReply_ttl (argv : List Bytes) : OneReply (sv.processCmdTtl now argv).1 := by
  unfold processCmdTtl
  split
  · split
    · exact oneReply_int _
    · exact oneReply_int _
    · exact oneReply_int _
  · exact oneReply_err (line_of_all rfl) (by decide)

/-- `GET` of a key is answered if its call succeeds and the value fits. -/
theorem oneReply_get_key_iff (cmd key : Bytes) :
    OneReply (sv.processCmdGet [cmd, key]).1 ↔ sv.xdb.fault 0 = false ∧
      ∀ row, sv.xdb.valueRow key = some row → u64 (row.drop 8).length < 2 ^ 31 := by
  obtain ⟨hret, hval, -⟩ := sv.xdb.get_eq key
  rw [processCmdGet]
  generalize sv.xdb.get key = r at hret hval
  obtain ⟨ret, val, x⟩ := r
  simp only at hret hval
  cases hf : sv.xdb.fault 0 with
  | true =>
      rw [hf, if_pos rfl] at hret
      subst hret
      exact iff_of_false not_oneReply_nil (by simp)
  | false =>
      rw [hf, if_neg (by decide)] at hret
      cases hrow : sv.xdb.valueRow key with
      | none =>
          rw [hrow, if_pos rfl] at hret
          subst hret
          exact iff_of_true oneReply_null ⟨rfl, by simp⟩
      | some row =>
          rw [hrow, if_neg (by simp)] at hret
          subst hret
          obtain rfl := hval rfl row hrow
          refine (oneReply_bulk_iff _).trans ⟨fun h => ⟨rfl, ?_⟩, fun h => h.2 row rfl⟩
          intro row' hrow'
          cases hrow'
          exact h

theorem oneReply_get_iff (cmd : Bytes) (args : List Bytes) :
    OneReply (sv.processCmdGet (cmd :: args)).1 ↔ ∀ key, args = [key] →
      sv.xdb.fault 0 = false ∧
        ∀ row, sv.xdb.valueRow key = some row → u64 (row.drop 8).length < 2 ^ 31 := by
  by_cases h : ∃ key, args = [key]
  · obtain ⟨key, rfl⟩ := h
    simp only [oneReply_get_key_iff, List.cons.injEq, and_true, forall_eq']
  · refine iff_of_true ?_ fun key hkey => absurd ⟨key, hkey⟩ h
    unfold processCmdGet
    split
    · rename_i key heq
      exact absurd ⟨key, List.tail_eq_of_cons_eq heq⟩ h
    · exact oneReply_err (line_of_all rfl) (by decide)

/-- `FLUSHALL` is answered if its first call succeeds. -/
theorem oneReply_flushall_iff :
    OneReply sv.processCmdFlushall.1 ↔ sv.xdb.fault 0 = false := by
  have hret := sv.xdb.flushall_code
  rw [processCmdFlushall]
  generalize sv.xdb.flushall = r at hret
  obtain ⟨ret, x⟩ := r
  cases hf : sv.xdb.fault 0 with
  | true =>
      rw [hf, if_pos rfl] at hret
      subst hret
      exact iff_of_false not_oneReply_nil (by simp)
  | false =>
      rw [hf, if_neg (by decide)] at hret
      subst hret
      exact iff_of_true oneReply_ok rfl

/-- **A command gets one value** if it is answerable, and only then. -/
theorem oneReply_doCmd_iff {argv : List Bytes} (hne : argv ≠ []) :
    OneReply (sv.doCmd now argv).1 ↔ sv.Answerable argv := by
  cases argv with
  | nil => exact absurd rfl hne
  | cons cmd args =>
      rw [doCmd, Answerable]
      cases getCmdProcessFun cmd with
      | none => exact oneReply_unknown_iff cmd
      | some cb =>
          cases cb with
          | set => exact iff_of_true (sv.oneReply_set now _) trivial
          | get => exact sv.oneReply_get_iff cmd args
          | del => exact iff_of_true (sv.oneReply_del _) trivial
          | expire => exact iff_of_true (sv.oneReply_expire now _) trivial
          | ttl => exact iff_of_true (sv.oneReply_ttl now _) trivial
          | scan => exact iff_of_true (oneReply_scan sv _) trivial
          | flushall => exact sv.oneReply_flushall_iff

/-! ### Commands that are not known -/

/-- What is printed for a command that is not known. -/
def unknownText (cmd : Bytes) : Bytes := respLine 45 (cstr cmd ++ 32 :: ascii "not suport")

/-- What is sent stands in `szBuf`, as part of the text that was printed, and is one error line. -/
def InProtocol (cmd : Bytes) (out : Except Fault Bytes) : Prop :=
  ∃ u, out = .ok u ∧ u <+: snprintf 256 (unknownText cmd) ∧ ∃ l, Line l ∧ u = respLine 45 l

/-- **A command that is not known is answered in bounds and in protocol** exactly if its name, up to
a NUL, holds no CR and no LF and has at most 241 bytes. -/
theorem unknown_reply_iff (sv : XRedisServer) (now : Int) {cmd : Bytes}
    (h : getCmdProcessFun cmd = none) (args : List Bytes) :
    InProtocol cmd (sent (sv.doCmd now (cmd :: args)).1) ↔
      Line (cstr cmd) ∧ (cstr cmd).length ≤ 241 := by
  have hdo : (sv.doCmd now (cmd :: args)).1 = [.err (cstr cmd) (ascii "not suport")] := by
    rw [doCmd, h]
  have hsend : sent [.err (cstr cmd) (ascii "not suport")] = netPrintf (unknownText cmd) := by
    have hc : cstr (cstr cmd) = cstr cmd := List.takeWhile_idem
    have hm : cstr (ascii "not suport") = ascii "not suport" := by decide
    rw [sent_singleton, Reply.send, hc, hm, unknownText]
  rw [hdo, ← oneReply_unknown_iff, OneReply, hsend]
  constructor
  · rintro ⟨u, hu, -, l, hl, rfl⟩
    exact ⟨_, hu, .line (.error hl)⟩
  · rintro ⟨u, hu, hresp⟩
    obtain ⟨rfl, hlen⟩ := netPrintf_respLine hu hresp.getLast?
    refine ⟨_, hu, ?_, _, isResp_error hresp, rfl⟩
    rw [unknownText, snprintf, List.take_of_length_le hlen]

/-- `FOO` is answered by one error line. -/
theorem unknown_reply_foo :
    InProtocol (ascii "FOO")
      (sent (doCmd ⟨⟨⟨.empty, []⟩, false, []⟩, {}⟩ 0 [ascii "FOO", ascii "bar"]).1) :=
  (unknown_reply_iff _ _ (by decide) _).mpr ⟨line_of_all rfl, by decide⟩

/-- With a name of 242 bytes the line ends with a NUL, with one of 243 it ends behind `szBuf`, and a
name with a CR LF makes two lines. -/
theorem unknown_reply_breaks :
    let sv : XRedisServer := ⟨⟨⟨.empty, []⟩, false, []⟩, {}⟩
    let name (n : Nat) : Bytes := List.replicate n 120
    sent (sv.doCmd 0 [name 242]).1 = .ok ((unknownText (name 242)).dropLast ++ [0]) ∧
      sent (sv.doCmd 0 [name 243]).1 = .error .read ∧
      sent (sv.doCmd 0 [ascii "x" ++ CRLF ++ ascii "+y"]).1 =
        .ok (ascii "-x" ++ CRLF ++ ascii "+y not suport" ++ CRLF) := by
  decide +kernel

/-! ### A pipeline -/

/-- A command, at a clock value: what is sent for it. -/
def serve (sv : XRedisServer) (c : Int × List Bytes) : Except Fault Bytes × XRedisServer :=
  (sent (sv.doCmd c.1 c.2).1, (sv.doCmd c.1 c.2).2)

/-- The `i`-th value in what is sent for `cs` is the answer to the `i`-th command, and there is no
other way to read it. -/
def AnsweredInTurn (sv : XRedisServer) (cs : List (Int × List Bytes)) : Prop :=
  ∃ us : List Bytes, (run serve sv cs).1 = us.map .ok ∧ us.length = cs.length ∧
    (∀ u ∈ us, IsResp u) ∧ ∀ vs, (∀ v ∈ vs, IsResp v) → vs.flatten = us.flatten → vs = us

theorem answeredInTurn_iff {cs : List (Int × List Bytes)} {sv : XRedisServer} :
    sv.AnsweredInTurn cs ↔ Along serve (fun sv c => OneReply (sv.doCmd c.1 c.2).1) sv cs := by
  constructor
  · rintro ⟨us, hrun, -, hresp, -⟩
    induction cs generalizing sv us with
    | nil => trivial
    | cons c cs ih =>
        cases us with
        | nil => exact absurd hrun (List.cons_ne_nil _ _)
        | cons u us =>
            obtain ⟨hu, hus⟩ := List.forall_mem_cons.mp hresp
            exact ⟨⟨u, List.head_eq_of_cons_eq hrun, hu⟩, ih us (List.tail_eq_of_cons_eq hrun) hus⟩
  · intro h
    suffices hus : ∃ us : List Bytes, (run serve sv cs).1 = us.map .ok ∧ us.length = cs.length ∧
        ∀ u ∈ us, IsResp u by
      obtain ⟨us, hrun, hlen, hresp⟩ := hus
      exact ⟨us, hrun, hlen, hresp, fun vs hvs he => IsResp.flatten_inj hvs hresp he⟩
    induction cs generalizing sv with
    | nil => exact ⟨[], rfl, rfl, by simp⟩
    | cons c cs ih =>
        obtain ⟨u, hu, hresp⟩ := h.1
        obtain ⟨us, hrun, hlen, hall⟩ := ih h.2
        refine ⟨u :: us, ?_, congrArg (· + 1) hlen, List.forall_mem_cons.mpr ⟨hresp, hall⟩⟩
        rw [run_cons, hrun, List.map_cons, serve, hu]

/-- **One reply to a command.**  A command is answered by one value if and only if it is
answerable, and the values answer the commands of a pipeline in turn if and only if each is
answerable when its turn comes. -/
theorem one_reply_iff (sv : XRedisServer) {cs : List (Int × List Bytes)}
    (hcs : ∀ c ∈ cs, c.2 ≠ []) :
    (∀ c ∈ cs, OneReply (sv.doCmd c.1 c.2).1 ↔ sv.Answerable c.2) ∧
      (sv.AnsweredInTurn cs ↔ Along serve (fun sv c => sv.Answerable c.2) sv cs) := by
  refine ⟨fun c hc => sv.oneReply_doCmd_iff c.1 (hcs c hc), answeredInTurn_iff.trans ?_⟩
  exact along_congr fun sv c hc => sv.oneReply_doCmd_iff c.1 (hcs c hc)

/-- `FOO`, `SET k v` and `GET k`. -/
def fooSetGet : List (Int × List Bytes) :=
  [(0, [ascii "FOO"]), (1, [ascii "SET", ascii "k", ascii "v"]), (2, [ascii "GET", ascii "k"])]

/-- On an empty store whose calls succeed, three commands are answered in turn. -/
theorem one_reply_fooSetGet : AnsweredInTurn ⟨⟨⟨.empty, []⟩, false, []⟩, {}⟩ fooSetGet := by
  refine (one_reply_iff _ (by decide)).2.mpr ⟨?_, trivial, ?_, trivial⟩
  · exact ⟨by decide, by decide⟩
  · intro key hkey
    obtain rfl : ascii "k" = key := List.head_eq_of_cons_eq hkey
    refine ⟨rfl, fun row hrow => ?_⟩
    have hv : leBytes 8 1 ++ ascii "v" = row := Option.some.inj hrow
    rw [← hv]
    decide

/-- A `GET` whose call fails is not answered, so the first reply a client reads is that to the
`SET` behind it.  A `FLUSHALL` whose call fails is not answered either, and the name of a command
that is not known can make two values. -/
theorem reply_missing :
    (run serve ⟨⟨⟨.empty, [true]⟩, false, []⟩, {}⟩
        [(0, [ascii "GET", ascii "a"]), (1, [ascii "SET", ascii "b", ascii "v"])]).1 =
      [.ok [], .ok (ascii "+OK" ++ CRLF)] ∧
    (serve ⟨⟨⟨.empty, [true]⟩, false, []⟩, {}⟩ (0, [ascii "FLUSHALL"])).1 = .ok [] ∧
    (serve ⟨⟨⟨.empty, []⟩, false, []⟩, {}⟩ (0, [ascii "x" ++ CRLF ++ ascii "+y"])).1 =
      .ok ((ascii "-x" ++ CRLF) ++ (ascii "+y not suport" ++ CRLF)) ∧
    IsResp (ascii "-x" ++ CRLF) ∧ IsResp (ascii "+y not suport" ++ CRLF) := by
  refine ⟨by rfl, by rfl, by rfl, ?_, ?_⟩
  · exact .line (.error (l := ascii "x") (line_of_all rfl))
  · exact .line (.simple (l := ascii "y not suport") (line_of_all rfl))

end XRedisServer

end XHttpCache
