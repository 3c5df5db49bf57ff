import XHttpCache.Resp.Values

/-!
# Resp — a decoder

What a client does with the bytes it receives: the first byte and the line tell the kind of value,
and for a bulk string and an array how much follows.  Arrays may be nested; `decodeValue` takes a
bound on the depth, and `respDecode` gives it one that no input exceeds.

A value is read back whatever follows it: `decodeValue_line` for those on one line,
`decodeValue_bulk` and `decodeValue_array`.
-/

namespace XHttpCache
open Support

/-- What a RESP value stands for. -/
inductive RespValue where
  | simple (l : Bytes)
  | error (l : Bytes)
  | int (n : Int)
  | null
  | bulk (d : Bytes)
  | nullArray
  | array (vs : List RespValue)

/-- The line that `b` starts with, and what follows its CR LF. -/
def takeLine (b : Bytes) : Option (Bytes × Bytes) :=
  match b.dropWhile (· ≠ 13) with
  | 13 :: 10 :: rest => some (b.takeWhile (· ≠ 13), rest)
  | _ => none

/-- A number without a sign. -/
def readNat (l : Bytes) : Option Nat :=
  if l ≠ [] ∧ l.all isdigit = true then some (digitsValue l) else none

/-- A number, with a minus sign if it is negative. -/
def readInt : Bytes → Option Int
  | 45 :: l => (readNat l).map fun n => -n
  | l => (readNat l).map fun n => n

/-- The `n` bytes of a bulk string, and what follows its CR LF. -/
def takeBulk (n : Nat) (b : Bytes) : Option (RespValue × Bytes) :=
  if CRLF.isPrefixOf (b.drop n) then some (.bulk (b.take n), b.drop (n + 2)) else none

/-- The value that `b` starts with, and what follows it; arrays are nested less than `depth`
deep. -/
def decodeValue : Nat → Bytes → Option (RespValue × Bytes)
  | 0, _ => none
  | _ + 1, [] => none
  | depth + 1, t :: b =>
      (takeLine b).bind fun (l, rest) =>
        if t = 43 then some (.simple l, rest)
        else if t = 45 then some (.error l, rest)
        else if t = 58 then (readInt l).map fun n => (.int n, rest)
        else if t = 36 then
          if l = ascii "-1" then some (.null, rest)
          else (readNat l).bind fun n => takeBulk n rest
        else if t = 42 then
          if l = ascii "-1" then some (.nullArray, rest)
          else
            (readNat l).bind fun n =>
              (readItems (decodeValue depth) n rest).map fun r => (.array r.1, r.2)
        else none

/-- The values that `b` is made of. -/
def respDecode (b : Bytes) : Option (List RespValue) := readAll (decodeValue b.length) b.length b

/-! ### Lines and numbers -/

theorem takeLine_append {l : Bytes} (h : Line l) (rest : Bytes) :
    takeLine (l ++ CRLF ++ rest) = some (l, rest) := by
  have h13 : ∀ c ∈ l, (decide (c ≠ 13)) = true := fun c hc => decide_eq_true (h c hc).1
  have hdrop : (l ++ CRLF ++ rest).dropWhile (· ≠ 13) = 13 :: 10 :: rest := by
    rw [List.append_assoc, List.dropWhile_append_of_pos h13]
    rfl
  have htake : (l ++ CRLF ++ rest).takeWhile (· ≠ 13) = l := by
    rw [List.append_assoc, List.takeWhile_append_of_pos h13]
    exact List.append_nil l
  rw [takeLine, hdrop]
  exact congrArg (fun l => some (l, rest)) htake

theorem readNat_natDecimal (n : Nat) : readNat (natDecimal n) = some n := by
  rw [readNat, if_pos ⟨natDecimal_ne_nil n, List.all_eq_true.mpr fun _ => isdigit_of_mem_natDecimal⟩,
    digitsValue_natDecimal]

theorem readInt_of_isdigit {c : Byte} {l : Bytes} (h : isdigit c = true) :
    readInt (c :: l) = (readNat (c :: l)).map fun n => (n : Int) := by
  rw [readInt]
  rintro l' heq
  cases heq
  exact absurd h (by decide)

theorem readInt_decimal (v : Int) : readInt (decimal v) = some v := by
  rw [decimal]
  split_ifs with hv
  · have habs : -(v.natAbs : Int) = v := by omega
    rw [readInt, readNat_natDecimal]
    exact congrArg some habs
  · obtain ⟨c, l, hcl⟩ := List.exists_cons_of_ne_nil (natDecimal_ne_nil v.natAbs)
    have hdigit : isdigit c = true :=
      isdigit_of_mem_natDecimal (n := v.natAbs) (hcl ▸ List.mem_cons_self)
    have habs : (v.natAbs : Int) = v := by omega
    rw [hcl, readInt_of_isdigit hdigit, ← hcl, readNat_natDecimal]
    exact congrArg some habs

/-! ### Values -/

variable {depth : Nat} {t : Byte} {l : Bytes}

/-- A value is told by its first byte and its line. -/
theorem decodeValue_respLine (h : Line l) (rest : Bytes) :
    decodeValue (depth + 1) (respLine t l ++ rest) =
      (if t = 43 then some (.simple l, rest)
        else if t = 45 then some (.error l, rest)
        else if t = 58 then (readInt l).map fun n => (.int n, rest)
        else if t = 36 then
          if l = ascii "-1" then some (.null, rest)
          else (readNat l).bind fun n => takeBulk n rest
        else if t = 42 then
          if l = ascii "-1" then some (.nullArray, rest)
          else
            (readNat l).bind fun n =>
              (readItems (decodeValue depth) n rest).map fun r => (.array r.1, r.2)
        else none) := by
  rw [respLine, List.cons_append, List.cons_append, decodeValue, takeLine_append h]
  rfl

theorem decodeValue_int (v : Int) (rest : Bytes) :
    decodeValue (depth + 1) (respLine 58 (decimal v) ++ rest) = some (.int v, rest) := by
  rw [decodeValue_respLine (line_decimal v)]
  simp only [readInt_decimal, Option.map_some]
  rfl

theorem decodeValue_null (rest : Bytes) :
    decodeValue (depth + 1) (respLine 36 (ascii "-1") ++ rest) = some (.null, rest) :=
  decodeValue_respLine (line_of_all rfl) rest

/-- **A bulk string is read back**, whatever it holds. -/
theorem decodeValue_bulk (d rest : Bytes) :
    decodeValue (depth + 1) (bulkLine d ++ rest) = some (.bulk d, rest) := by
  have hbulk : takeBulk d.length (d ++ (CRLF ++ rest)) = some (.bulk d, rest) := by
    rw [takeBulk, List.drop_left, List.take_left, ← List.append_assoc,
      List.drop_append_of_le_length (by simp [CRLF])]
    simp [CRLF]
  rw [bulkLine, List.append_assoc, List.append_assoc,
    decodeValue_respLine (line_natDecimal _)]
  simp only [if_neg (natDecimal_ne_null d.length), readNat_natDecimal, Option.bind_some, hbulk]
  rfl

/-- **An array is read back** if its items are. -/
theorem decodeValue_array {α : Type} {enc : α → Bytes} {val : α → RespValue} {as : List α}
    (h : ∀ a ∈ as, Reads (decodeValue depth) enc val a) (rest : Bytes) :
    decodeValue (depth + 1) (respLine 42 (natDecimal as.length) ++ as.flatMap enc ++ rest) =
      some (.array (as.map val), rest) := by
  rw [List.append_assoc, decodeValue_respLine (line_natDecimal _)]
  simp only [if_neg (natDecimal_ne_null as.length), readNat_natDecimal, Option.bind_some,
    readItems_flatMap h, Option.map_some]
  rfl

end XHttpCache
