import XHttpCache.Support.Framing
import XHttpCache.Support.Libc
import XHttpCache.Support.OrderedMap

/-!
# Http — JSON

`Json::Value` and `Json::FastWriter` of `common/jsoncpp.cpp`, as far as the backend uses them, and
what a client reads in a list of strings.

A `Json::Value` holds a string up to its first NUL only, and one that nothing is appended to is
`null`.  Bytes that are neither special nor control characters are written as they are, whatever
their encoding.  So a list of strings is read back as the list of what stands before their NULs
(`jsonStrings_write`).
-/

namespace XHttpCache
open Support

/-! ### Values -/

/-- `Json::Value`, as far as it is built. -/
inductive Json where
  | null
  | str (s : Bytes)
  | int (n : Int)
  | bool (b : Bool)
  | obj (fields : List (Bytes × Json))
  | arr (elements : List Json)

/-- A `Json::Value` that strings have been appended to. -/
def Json.appended (ss : List Bytes) : Json := if ss = [] then .null else .arr (ss.map .str)

/-! ### The writer -/

/-- A hexadecimal digit, in upper case. -/
def hexDigit (d : Nat) : Byte := Fin.ofNat 256 (if d < 10 then 48 + d else 55 + d)

/-- The case of a byte in `valueToQuotedString`. -/
def escapeByte (c : Byte) : Bytes :=
  if c = 34 then [92, 34]
  else if c = 92 then [92, 92]
  else if c = 8 then [92, 98]
  else if c = 12 then [92, 102]
  else if c = 10 then [92, 110]
  else if c = 13 then [92, 114]
  else if c = 9 then [92, 116]
  else if 0 < c ∧ c ≤ 31 then
    [92, 117, 48, 48, hexDigit (c.val / 16), hexDigit (c.val % 16)]
  else [c]

/-- `valueToQuotedString`. -/
def valueToQuotedString (value : Bytes) : Bytes :=
  let value := cstr value
  if value.all fun c => escapeByte c = [c] then 34 :: value ++ [34]
  else 34 :: value.flatMap escapeByte ++ [34]

mutual

/-- `FastWriter::writeValue`. -/
def writeValue : Json → Bytes
  | .null => ascii "null"
  | .str s => valueToQuotedString s
  | .int n => decimal n
  | .bool b => if b then ascii "true" else ascii "false"
  | .arr elements => 91 :: [44].intercalate (writeValues elements) ++ [93]
  | .obj fields =>
      -- the members are in a map, by name
      let members := (writeMembers fields).foldl (fun m member => m.insert member.1 member.2)
        (.empty : OrderedMap Bytes Bytes)
      123 :: [44].intercalate (members.rows.map fun (name, text) =>
        valueToQuotedString name ++ 58 :: text) ++ [125]

/-- The elements of an array. -/
def writeValues : List Json → List Bytes
  | [] => []
  | v :: vs => writeValue v :: writeValues vs

/-- The members of an object. -/
def writeMembers : List (Bytes × Json) → List (Bytes × Bytes)
  | [] => []
  | m :: ms => writeMember m :: writeMembers ms

/-- A member, with the text of its value. -/
def writeMember : Bytes × Json → Bytes × Bytes
  | (name, v) => (name, writeValue v)

end

/-- `FastWriter::write`. -/
def fastWrite (root : Json) : Bytes := writeValue root ++ [10]

/-! ### What a client reads -/

/-- What follows a backslash, but for `u`. -/
def unescape : Byte → Option Byte
  | 34 => some 34
  | 92 => some 92
  | 47 => some 47
  | 98 => some 8
  | 102 => some 12
  | 110 => some 10
  | 114 => some 13
  | 116 => some 9
  | _ => none

/-- A hexadecimal digit. -/
def hexValue (c : Byte) : Option Nat :=
  if 48 ≤ c ∧ c ≤ 57 then some (c.val - 48)
  else if 65 ≤ c ∧ c ≤ 70 then some (c.val - 55)
  else if 97 ≤ c ∧ c ≤ 102 then some (c.val - 87)
  else none

/-- Four hexadecimal digits that stand for an ASCII character. -/
def hexByte (a b c d : Byte) : Option Byte := do
  let n := (((← hexValue a) * 16 + (← hexValue b)) * 16 + (← hexValue c)) * 16 + (← hexValue d)
  if n < 128 then some (Fin.ofNat 256 n) else none

/-- What follows `\u`. -/
def readHex : Bytes → Option (Byte × Bytes)
  | a :: b :: c :: d :: rest => (hexByte a b c d).map (·, rest)
  | _ => none

/-- What follows a backslash. -/
def readEscape : Bytes → Option (Byte × Bytes)
  | [] => none
  | e :: rest => if e = 117 then readHex rest else (unescape e).map (·, rest)

/-- A byte of a string. -/
def readChar : Bytes → Option (Byte × Bytes)
  | [] => none
  | c :: rest => if c = 92 then readEscape rest else some (c, rest)

/-- A string between quotation marks. -/
def readQuoted : Bytes → Option (Bytes × Bytes)
  | 34 :: rest => readUntil readChar 34 rest.length rest
  | _ => none

/-- A comma, and a string. -/
def readNext : Bytes → Option (Bytes × Bytes)
  | 44 :: rest => readQuoted rest
  | _ => none

/-- An array of strings, with a line feed after it. -/
def readList : Bytes → Option (List Bytes)
  | 91 :: rest => do
      let (s, rest) ← readQuoted rest
      let (ss, rest) ← readUntil readNext 93 rest.length rest
      if rest = [10] then some (s :: ss) else none
  | _ => none

/-- The strings that a document lists; there are none in `null`. -/
def jsonStrings (text : Bytes) : Option (List Bytes) :=
  if text = ascii "null\n" ∨ text = ascii "[]\n" then some [] else readList text

/-! ### A list is read back -/

/-- A byte is written as an escape of one letter, as the two digits of a control character, or as it
is. -/
theorem escapeByte_cases (c : Byte) :
    (∃ e, escapeByte c = [92, e] ∧ e ≠ 117 ∧ unescape e = some c) ∨
      (c ≤ 31 ∧
        escapeByte c = [92, 117, 48, 48, hexDigit (c.val / 16), hexDigit (c.val % 16)]) ∨
      (escapeByte c = [c] ∧ c ≠ 34 ∧ c ≠ 92) := by
  rw [escapeByte]
  by_cases h₁ : c = 34
  · exact Or.inl ⟨34, if_pos h₁, by decide, by rw [h₁]; rfl⟩
  rw [if_neg h₁]
  by_cases h₂ : c = 92
  · exact Or.inl ⟨92, if_pos h₂, by decide, by rw [h₂]; rfl⟩
  rw [if_neg h₂]
  by_cases h₃ : c = 8
  · exact Or.inl ⟨98, if_pos h₃, by decide, by rw [h₃]; rfl⟩
  rw [if_neg h₃]
  by_cases h₄ : c = 12
  · exact Or.inl ⟨102, if_pos h₄, by decide, by rw [h₄]; rfl⟩
  rw [if_neg h₄]
  by_cases h₅ : c = 10
  · exact Or.inl ⟨110, if_pos h₅, by decide, by rw [h₅]; rfl⟩
  rw [if_neg h₅]
  by_cases h₆ : c = 13
  · exact Or.inl ⟨114, if_pos h₆, by decide, by rw [h₆]; rfl⟩
  rw [if_neg h₆]
  by_cases h₇ : c = 9
  · exact Or.inl ⟨116, if_pos h₇, by decide, by rw [h₇]; rfl⟩
  rw [if_neg h₇]
  by_cases h₈ : 0 < c ∧ c ≤ 31
  · exact Or.inr (Or.inl ⟨h₈.2, if_pos h₈⟩)
  · exact Or.inr (Or.inr ⟨if_neg h₈, h₁, h₂⟩)

/-- A byte is read back. -/
theorem readChar_escapeByte (c : Byte) : Reads readChar escapeByte id c := by
  intro rest
  have hhex : ∀ c : Byte, c ≤ 31 →
      hexByte 48 48 (hexDigit (c.val / 16)) (hexDigit (c.val % 16)) = some c := by
    decide +kernel
  rcases escapeByte_cases c with ⟨e, he, hu, hc⟩ | ⟨hc, he⟩ | ⟨he, -, hne⟩
  · rw [he, List.cons_append, List.singleton_append, readChar, if_pos rfl, readEscape, if_neg hu, hc]
    rfl
  · simp only [he, List.cons_append, List.nil_append, readChar, readEscape, readHex, if_true,
      hhex c hc, Option.map_some, id]
  · rw [he, List.singleton_append, readChar, if_neg hne, id]

theorem escapeByte_head (c : Byte) : ∃ d b, escapeByte c = d :: b ∧ d ≠ 34 := by
  rcases escapeByte_cases c with ⟨e, he, -⟩ | ⟨-, he⟩ | ⟨he, hne, -⟩
  · exact ⟨92, _, he, by decide⟩
  · exact ⟨92, _, he, by decide⟩
  · exact ⟨c, _, he, hne⟩

/-- The two ways to write a string give the same. -/
theorem valueToQuotedString_eq (s : Bytes) :
    valueToQuotedString s = 34 :: (cstr s).flatMap escapeByte ++ [34] := by
  simp only [valueToQuotedString]
  split_ifs with hplain
  · have hflat : (cstr s).flatMap escapeByte = cstr s := by
      conv_rhs => rw [← List.flatMap_singleton' (cstr s)]
      refine List.flatMap_congr fun c hc => ?_
      exact of_decide_eq_true (List.all_eq_true.mp hplain c hc)
    rw [hflat]
  · rfl

theorem readQuoted_value (s rest : Bytes) :
    readQuoted (valueToQuotedString s ++ rest) = some (cstr s, rest) := by
  have hlen : (cstr s).length ≤ ((cstr s).flatMap escapeByte).length :=
    length_le_flatMap fun c _ => by
      obtain ⟨d, b, hd, -⟩ := escapeByte_head c
      rw [hd]
      exact List.cons_ne_nil d b
  have hle : (cstr s).length ≤ ((cstr s).flatMap escapeByte ++ 34 :: rest).length := by
    rw [List.length_append]
    omega
  rw [valueToQuotedString_eq, List.cons_append, List.cons_append, List.append_assoc,
    List.singleton_append, readQuoted,
    readUntil_flatMap (fun c _ => readChar_escapeByte c) (fun c _ => escapeByte_head c) hle,
    List.map_id]

theorem intercalate_cons (sep a : Bytes) (l : List Bytes) :
    sep.intercalate (a :: l) = a ++ l.flatMap (sep ++ ·) := by
  induction l generalizing a with
  | nil => simp [List.intercalate]
  | cons b l ih =>
      have hcons : sep.intercalate (a :: b :: l) = a ++ (sep ++ sep.intercalate (b :: l)) := by
        simp [List.intercalate, List.intersperse]
      rw [hcons, ih, List.flatMap_cons, List.append_assoc]

theorem writeValues_str (ss : List Bytes) :
    writeValues (ss.map .str) = ss.map valueToQuotedString := by
  induction ss with
  | nil => rfl
  | cons s ss ih => rw [List.map_cons, writeValues, writeValue, ih, List.map_cons]

theorem fastWrite_appended (s : Bytes) (ss : List Bytes) :
    fastWrite (.appended (s :: ss)) =
      91 :: (valueToQuotedString s ++
        (ss.flatMap (fun s => 44 :: valueToQuotedString s) ++ 93 :: [10])) := by
  rw [fastWrite, Json.appended, if_neg (List.cons_ne_nil s ss), writeValue, writeValues_str,
    List.map_cons, intercalate_cons, List.flatMap_map]
  simp

/-- **A list of strings is read back**, each up to its first NUL. -/
theorem jsonStrings_write (ss : List Bytes) :
    jsonStrings (fastWrite (.appended ss)) = some (ss.map cstr) := by
  cases ss with
  | nil => decide
  | cons s ss =>
      have hread : ∀ s ∈ ss, Reads readNext (fun s => 44 :: valueToQuotedString s) cstr s :=
        fun s _ rest => readQuoted_value s rest
      have hstop : ∀ s ∈ ss, ∃ c b, 44 :: valueToQuotedString s = c :: b ∧ c ≠ (93 : Byte) :=
        fun s _ => ⟨44, valueToQuotedString s, rfl, by decide⟩
      have hlen : ss.length ≤ (ss.flatMap fun s => 44 :: valueToQuotedString s).length :=
        length_le_flatMap fun s _ => List.cons_ne_nil _ _
      have hle : ss.length ≤
          ((ss.flatMap fun s => 44 :: valueToQuotedString s) ++ 93 :: [10]).length := by
        rw [List.length_append]
        omega
      have htext : ¬ (fastWrite (.appended (s :: ss)) = ascii "null\n" ∨
          fastWrite (.appended (s :: ss)) = ascii "[]\n") := by
        rw [fastWrite_appended, valueToQuotedString_eq]
        rintro (h | h)
        · exact absurd (List.cons.inj h).1 (by decide)
        · exact absurd (List.cons.inj (List.cons.inj h).2).1 (by decide)
      rw [jsonStrings, if_neg htext, fastWrite_appended, readList]
      simp only [readQuoted_value, bind, Option.bind, readUntil_flatMap hread hstop hle, if_true,
        List.map_cons]

example : jsonStrings (fastWrite (.appended [ascii "a\"b\n", [1, 255], []])) =
    some [ascii "a\"b\n", [1, 255], []] := by decide

end XHttpCache
