import XHttpCache.Support.Libc

/-!
# Resp — commands on the wire

A command is sent as `*n CRLF`, then `$len CRLF bytes CRLF` for each of its `n` arguments.  This is
the format clients write; what the server makes of it is in `Parser.lean`.
-/

namespace XHttpCache
open Support

/-- `"\r\n"`. -/
def CRLF : Bytes := [13, 10]

/-- One argument. -/
def encodeArg (arg : Bytes) : Bytes := 36 :: natDecimal arg.length ++ CRLF ++ arg ++ CRLF

/-- One command. -/
def encodeCmd (argv : List Bytes) : Bytes :=
  42 :: natDecimal argv.length ++ CRLF ++ argv.flatMap encodeArg

/-- Commands one after another. -/
def encodeCmds (cmds : List (List Bytes)) : Bytes := cmds.flatMap encodeCmd

/-- A command that the parser can hand out: it has no empty argument, and with at least five bytes
of framing for each argument it has fewer than `2 ^ 31` bytes. -/
def Deliverable (argv : List Bytes) : Prop :=
  [] ∉ argv ∧ (argv.map List.length).sum + 5 * argv.length < 2 ^ 31

theorem length_natDecimal_pos (n : Nat) : 0 < (natDecimal n).length :=
  List.length_pos_of_ne_nil (natDecimal_ne_nil n)

theorem length_encodeArg_ge (arg : Bytes) : arg.length + 6 ≤ (encodeArg arg).length := by
  have := length_natDecimal_pos arg.length
  simp only [encodeArg, CRLF, List.cons_append, List.length_cons, List.length_append,
    List.length_nil]
  omega

theorem length_encodeArgs_ge (argv : List Bytes) :
    6 * argv.length ≤ (argv.flatMap encodeArg).length := by
  induction argv with
  | nil => exact Nat.le_refl _
  | cons a argv ih =>
      have := length_encodeArg_ge a
      simp only [List.flatMap_cons, List.length_append, List.length_cons]
      omega

theorem length_encodeArgs_ge_of_mem {argv : List Bytes} {arg : Bytes} (h : arg ∈ argv) :
    arg.length + 6 * argv.length ≤ (argv.flatMap encodeArg).length := by
  induction argv with
  | nil => cases h
  | cons a argv ih =>
      have ha := length_encodeArg_ge a
      simp only [List.flatMap_cons, List.length_append, List.length_cons]
      rcases List.mem_cons.mp h with rfl | h
      · have := length_encodeArgs_ge argv
        omega
      · have := ih h
        omega

/-- An argument is shorter than the command it is part of. -/
theorem length_encodeCmd_ge {argv : List Bytes} {arg : Bytes} (h : arg ∈ argv) :
    arg.length + 6 * argv.length + 4 ≤ (encodeCmd argv).length := by
  have hargs := length_encodeArgs_ge_of_mem h
  have := length_natDecimal_pos argv.length
  simp only [encodeCmd, CRLF, List.cons_append, List.length_cons, List.length_append,
    List.length_nil]
  omega

end XHttpCache
