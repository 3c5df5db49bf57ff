import XHttpCache.Redis.Replies
import XHttpCache.Resp.Decoder

/-!
# Redis — replies read back

Bulk replies, lists of them, null replies and numbers: what is sent for a sequence of them is read
back as that sequence, whatever bytes the strings hold (`replies_round_trip`).  A string is shorter
than `2 ^ 31` bytes, for `SendData` takes its size as an `int`; the size of a vector is a `size_t`.
-/

namespace XHttpCache
open Support

namespace Reply

/-- A bulk reply, a list of them, a null reply or a number, of the sizes that can be sent. -/
def Carries : Reply → Prop
  | bulk strResult => strResult.length < 2 ^ 31
  | multiBulk vResult => vResult.length < 2 ^ 64 ∧ ∀ s ∈ vResult, s.length < 2 ^ 31
  | null => True
  | int ret => IsI64 ret
  | status _ => False
  | err _ _ => False

/-- The value that a reply is to be read as. -/
def value : Reply → RespValue
  | status str => .simple (cstr str)
  | null => .null
  | err errtype errmsg => .error (cstr errtype ++ 32 :: cstr errmsg)
  | int ret => .int ret
  | bulk strResult => .bulk strResult
  | multiBulk vResult => .array (vResult.map .bulk)

/-- The value of a reply as RESP has it. -/
def wire : Reply → Bytes
  | status str => respLine 43 (cstr str)
  | null => respLine 36 (ascii "-1")
  | err errtype errmsg => respLine 45 (cstr errtype ++ 32 :: cstr errmsg)
  | int ret => respLine 58 (decimal ret)
  | bulk strResult => bulkLine strResult
  | multiBulk vResult => respLine 42 (natDecimal vResult.length) ++ vResult.flatMap bulkLine

variable {r : Reply}

/-- What is sent is what RESP has. -/
theorem Carries.send (h : r.Carries) : r.send = .ok r.wire := by
  cases r with
  | status str => exact h.elim
  | err errtype errmsg => exact h.elim
  | null => exact netPrintf_ok (by decide)
  | int ret =>
      rw [Reply.send, i64_eq h, netPrintf_ok]
      · rfl
      · have := length_decimal_le h
        rw [length_respLine]
        omega
  | bulk strResult => exact sendBulkReply_of_lt h
  | multiBulk vResult => exact send_multiBulk h.1 h.2

/-- **One reply is read back**, whatever follows it. -/
theorem Carries.reads (h : r.Carries) (depth : Nat) :
    Reads (decodeValue (depth + 2)) wire value r := by
  intro rest
  cases r with
  | status str => exact h.elim
  | err errtype errmsg => exact h.elim
  | null => exact decodeValue_null rest
  | int ret => exact decodeValue_int ret rest
  | bulk strResult => exact decodeValue_bulk strResult rest
  | multiBulk vResult => exact decodeValue_array (fun s _ => decodeValue_bulk s) rest

/-- A reply has a first byte, and a line after it. -/
theorem two_le_length_wire (r : Reply) : 2 ≤ r.wire.length := by
  cases r <;> simp only [wire, bulkLine, List.length_append, length_respLine] <;> omega

end Reply

/-- What is sent for a sequence of replies. -/
theorem sent_eq_wire {replies : List Reply} (h : ∀ r ∈ replies, r.Carries) :
    sent replies = .ok (replies.flatMap Reply.wire) := by
  induction replies with
  | nil => rfl
  | cons r l ih =>
      obtain ⟨hr, hl⟩ := List.forall_mem_cons.mp h
      rw [sent, hr.send, ih hl]
      rfl

/-- **Bulk replies round-trip.**  What is sent for a sequence of bulk replies, lists of them, null
replies and numbers is read back as exactly that sequence, to the last byte. -/
theorem replies_round_trip {replies : List Reply} (h : ∀ r ∈ replies, r.Carries) :
    ∃ u, sent replies = .ok u ∧ respDecode u = some (replies.map Reply.value) := by
  refine ⟨_, sent_eq_wire h, ?_⟩
  have hne : ∀ r ∈ replies, r.wire ≠ [] := fun r _ hnil => by
    have := r.two_le_length_wire
    rw [hnil] at this
    exact absurd this (by decide)
  have hdepth : ∀ r ∈ replies,
      Reads (decodeValue (replies.flatMap Reply.wire).length) Reply.wire Reply.value r := by
    intro r hr
    have hle : r.wire.length ≤ (replies.flatMap Reply.wire).length :=
      (List.sublist_flatten_of_mem (List.mem_map_of_mem hr)).length_le
    obtain ⟨depth, hd⟩ := Nat.exists_eq_add_of_le' (r.two_le_length_wire.trans hle)
    rw [hd]
    exact (h r hr).reads depth
  exact readAll_flatMap hdepth hne (length_le_flatMap hne)

/-- An empty list, a list with an empty string, and a string that looks like two replies. -/
theorem replies_round_trip_mixed :
    let replies : List Reply := [.multiBulk [], .multiBulk [ascii "a", []], .null, .int (-2 ^ 63),
      .bulk (ascii "$1" ++ CRLF ++ ascii "x" ++ CRLF ++ ascii ":1" ++ CRLF)]
    ∃ u, sent replies = .ok u ∧ respDecode u = some (replies.map Reply.value) := by
  refine replies_round_trip fun r hr => ?_
  simp only [List.mem_cons, List.not_mem_nil, or_false] at hr
  rcases hr with rfl | rfl | rfl | rfl | rfl
  · exact ⟨by decide, by decide⟩
  · exact ⟨by decide, by decide⟩
  · trivial
  · exact ⟨by decide, by decide⟩
  · change List.length _ < 2 ^ 31
    decide

end XHttpCache
