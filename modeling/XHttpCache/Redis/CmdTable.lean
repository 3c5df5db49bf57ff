import XHttpCache.Redis.Commands
import XHttpCache.Support.Runs

/-!
# Redis — the command table

`SetCmdTable` and `GetCmdProcessFun` of `common/xRedisServerLib.cpp`.  The table has
`CMD_CALLBACK_MAX` entries; registration counts them and stops when the table is full, and the
lookup goes on until it comes to an entry without a name.  A full table has none, so a name that is
not in it is looked for past its end.

* `Filled.run`: what the table holds after any calls of `SetCmdTable`.
* `Filled.getCmdProcessFun_eq`: what the lookup returns, by what the table holds.
* `getCmdProcessFun_systemTable`: the table of this server, which is far from full.
* `cmd_lookup_iff`: the lookup stays in the table, and is right, exactly if an entry is free or the
  name is in the table.
-/

namespace XHttpCache
open Support

/-! ### The table -/

/-- `CMD_CALLBACK_MAX`. -/
def CMD_CALLBACK_MAX : Nat := 64

variable {γ : Type}

/-- `CmdFun`, with two NULL pointers when it is constructed. -/
structure CmdFun (γ : Type) where
  cmd : Option Bytes := none
  cb : Option γ := none
  deriving DecidableEq

/-- The entry of a command that has a name and a function. -/
def CmdFun.of (e : Bytes × γ) : CmdFun γ := ⟨some e.1, some e.2⟩

/-- `mCmdTables`, an array of `CMD_CALLBACK_MAX` entries, and `mCmdCount`. -/
structure CmdTable (γ : Type) where
  mCmdTables : List (CmdFun γ)
  mCmdCount : Nat
  length_mCmdTables : mCmdTables.length = CMD_CALLBACK_MAX

/-- Why a lookup has no result: it reads past the end of the table. -/
inductive TableFault where
  | pastEnd
  deriving DecidableEq

namespace CmdTable

/-- The table of a new server. -/
def init : CmdTable γ where
  mCmdTables := List.replicate CMD_CALLBACK_MAX {}
  mCmdCount := 0
  length_mCmdTables := List.length_replicate

/-- `xRedisServerBase::SetCmdTable`. -/
def setCmdTable (t : CmdTable γ) (cmd : Option Bytes) (fn : Option γ) : Bool × CmdTable γ :=
  if cmd.isNone ∨ fn.isNone ∨ t.mCmdCount ≥ CMD_CALLBACK_MAX then (false, t)
  else
    (true,
      { mCmdTables := t.mCmdTables.set t.mCmdCount ⟨cmd, fn⟩
        mCmdCount := t.mCmdCount + 1
        length_mCmdTables := List.length_set.trans t.length_mCmdTables })

/-- The loop of `GetCmdProcessFun`: `entries` are those from `iter` on. -/
def search (cmd : Bytes) : List (CmdFun γ) → Except TableFault (Option (CmdFun γ))
  | [] => .error .pastEnd
  | iter :: entries =>
      match iter.cmd with
      | none => .ok none
      | some name => if strcasecmpEq name cmd then .ok (some iter) else search cmd entries

/-- `xRedisServerBase::GetCmdProcessFun`: the entry that is pointed to, if any. -/
def getCmdProcessFun (t : CmdTable γ) (cmd : Bytes) : Except TableFault (Option (CmdFun γ)) :=
  search cmd t.mCmdTables

/-- A call of `SetCmdTable`, with what it returns. -/
def register (t : CmdTable γ) (call : Option Bytes × Option γ) : Bool × CmdTable γ :=
  t.setCmdTable call.1 call.2

end CmdTable

/-! ### Registration -/

/-- The command that a call of `SetCmdTable` is about, if neither pointer is NULL. -/
def command? : Option Bytes × Option γ → Option (Bytes × γ)
  | (some cmd, some fn) => some (cmd, fn)
  | _ => none

/-- The commands that are registered: those of the first `CMD_CALLBACK_MAX` calls without a NULL. -/
def registered (calls : List (Option Bytes × Option γ)) : List (Bytes × γ) :=
  (calls.filterMap command?).take CMD_CALLBACK_MAX

/-- The table holds the commands `es`, in front of entries that are free. -/
structure Filled (es : List (Bytes × γ)) (t : CmdTable γ) : Prop where
  entries : t.mCmdTables =
    es.map CmdFun.of ++ List.replicate (CMD_CALLBACK_MAX - es.length) ({} : CmdFun γ)
  count : t.mCmdCount = es.length
  room : es.length ≤ CMD_CALLBACK_MAX

variable {es : List (Bytes × γ)} {t : CmdTable γ}

theorem filled_init : Filled [] (CmdTable.init (γ := γ)) := ⟨rfl, rfl, Nat.zero_le _⟩

/-- A call is answered by false, and changes nothing, if a pointer is NULL or the table is full. -/
theorem Filled.refused (h : Filled es t) {call : Option Bytes × Option γ}
    (hcall : command? call = none ∨ es.length = CMD_CALLBACK_MAX) :
    t.register call = (false, t) := by
  refine if_pos ?_
  rcases hcall with hcall | hfull
  · obtain ⟨cmd, fn⟩ := call
    cases cmd with
    | none => exact Or.inl rfl
    | some cmd =>
        cases fn with
        | none => exact Or.inr (Or.inl rfl)
        | some fn => cases hcall
  · exact Or.inr (Or.inr (by rw [h.count, hfull]))

/-- Any other call is answered by true, and adds its command behind the others. -/
theorem Filled.accepted (h : Filled es t) {call : Option Bytes × Option γ} {e : Bytes × γ}
    (hcall : command? call = some e) (hroom : es.length < CMD_CALLBACK_MAX) :
    (t.register call).1 = true ∧ Filled (es ++ [e]) (t.register call).2 := by
  obtain ⟨cmd, fn⟩ := call
  cases cmd with
  | none => cases hcall
  | some cmd =>
      cases fn with
      | none => cases hcall
      | some fn =>
          obtain rfl : (cmd, fn) = e := Option.some.inj hcall
          have hfree : ¬ ((some cmd).isNone ∨ (some fn).isNone ∨
              t.mCmdCount ≥ CMD_CALLBACK_MAX) := by
            rw [h.count]
            simp [hroom]
          rw [CmdTable.register, CmdTable.setCmdTable, if_neg hfree]
          refine ⟨rfl, ?_, ?_, ?_⟩
          · -- the entry behind the last one is free
            obtain ⟨n, hn⟩ : ∃ n, CMD_CALLBACK_MAX - es.length = n + 1 :=
              Nat.exists_eq_succ_of_ne_zero (Nat.sub_ne_zero_of_lt hroom)
            have hn' : CMD_CALLBACK_MAX - (es ++ [(cmd, fn)]).length = n := by
              rw [List.length_append, List.length_singleton]
              omega
            simp only [h.entries, h.count, hn, hn']
            rw [List.set_append_right _ _ (by simp)]
            simp [List.replicate_succ, CmdFun.of]
          · simp [h.count]
          · rw [List.length_append, List.length_singleton]
            omega

/-- **What the table holds** after any calls, and which of them were answered by true. -/
theorem Filled.run (h : Filled es t) (calls : List (Option Bytes × Option γ)) :
    let es' := (calls.filterMap command?).take (CMD_CALLBACK_MAX - es.length)
    Filled (es ++ es') (Support.run CmdTable.register t calls).2 ∧
      (calls.zip (Support.run CmdTable.register t calls).1).filterMap
        (fun c => if c.2 then command? c.1 else none) = es' := by
  induction calls generalizing es t with
  | nil =>
      simp only [List.filterMap_nil, List.take_nil, List.append_nil]
      exact ⟨h, rfl⟩
  | cons call calls ih =>
      simp only [run_cons, List.zip_cons_cons, List.filterMap_cons]
      cases hcall : command? call with
      | none =>
          rw [h.refused (Or.inl hcall)]
          simp only [Bool.false_eq_true, if_false]
          exact ih h
      | some e =>
          rcases h.room.lt_or_eq with hroom | hfull
          · obtain ⟨htrue, hfilled⟩ := h.accepted hcall hroom
            obtain ⟨hrest, hreturned⟩ := ih hfilled
            obtain ⟨n, hn⟩ : ∃ n, CMD_CALLBACK_MAX - es.length = n + 1 :=
              Nat.exists_eq_succ_of_ne_zero (Nat.sub_ne_zero_of_lt hroom)
            have hn' : CMD_CALLBACK_MAX - (es ++ [e]).length = n := by
              rw [List.length_append, List.length_singleton]
              omega
            rw [hn', List.append_assoc] at hrest
            rw [hn'] at hreturned
            simp only [htrue, if_true, hn, List.take_succ_cons, hreturned]
            exact ⟨hrest, trivial⟩
          · have hnone : CMD_CALLBACK_MAX - es.length = 0 := by omega
            have hrest := ih h
            rw [h.refused (Or.inr hfull)]
            simp only [hnone, List.take_zero, List.append_nil, Bool.false_eq_true, if_false]
              at hrest ⊢
            exact hrest

theorem filled_run (calls : List (Option Bytes × Option γ)) :
    Filled (registered calls) (run CmdTable.register .init calls).2 :=
  (filled_init.run calls).1

/-! ### Lookup -/

/-- The loop over registered commands, and what follows them. -/
theorem search_append (cmd : Bytes) (es : List (Bytes × γ)) (rest : List (CmdFun γ)) :
    CmdTable.search cmd (es.map CmdFun.of ++ rest) =
      (es.find? fun e => strcasecmpEq e.1 cmd).elim (CmdTable.search cmd rest) fun e =>
        .ok (some (.of e)) := by
  induction es with
  | nil => rfl
  | cons e es ih =>
      rw [List.map_cons, List.cons_append, CmdTable.search, List.find?_cons]
      cases hname : strcasecmpEq e.1 cmd with
      | true =>
          simp only [CmdFun.of, hname]
          rfl
      | false =>
          simp only [CmdFun.of, hname]
          exact ih

/-- **What the lookup returns**: the first command of the name, or NULL, or nothing if the table is
full and has no command of the name. -/
theorem Filled.getCmdProcessFun_eq (h : Filled es t) (cmd : Bytes) :
    t.getCmdProcessFun cmd =
      (es.find? fun e => strcasecmpEq e.1 cmd).elim
        (if es.length < CMD_CALLBACK_MAX then .ok none else .error .pastEnd) fun e =>
        .ok (some (.of e)) := by
  rw [CmdTable.getCmdProcessFun, h.entries, search_append]
  cases es.find? fun e => strcasecmpEq e.1 cmd with
  | some e => rfl
  | none =>
      rcases h.room.lt_or_eq with hroom | hfull
      · obtain ⟨n, hn⟩ := Nat.exists_eq_succ_of_ne_zero (Nat.sub_ne_zero_of_lt hroom)
        rw [hn, if_pos hroom]
        rfl
      · rw [hfull, if_neg (lt_irrefl _), Nat.sub_self]
        rfl

/-- The table after `SystemCmdRegister`. -/
def systemTable : CmdTable XRedisServer.CmdCallback :=
  (run CmdTable.register .init
    (XRedisServer.cmdTables.map fun e => (some e.1, some e.2))).2

/-- **The lookup of this server** stays in its table, and returns the function of the command. -/
theorem getCmdProcessFun_systemTable (cmd : Bytes) :
    (systemTable.getCmdProcessFun cmd).map (fun e => e.bind (·.cb)) =
      .ok (XRedisServer.getCmdProcessFun cmd) := by
  have hreg : registered (XRedisServer.cmdTables.map fun e => (some e.1, some e.2)) =
      XRedisServer.cmdTables := rfl
  have hfilled : Filled XRedisServer.cmdTables systemTable := hreg ▸ filled_run _
  have hroom : XRedisServer.cmdTables.length < CMD_CALLBACK_MAX := by decide
  rw [hfilled.getCmdProcessFun_eq, XRedisServer.getCmdProcessFun]
  cases XRedisServer.cmdTables.find? fun e => strcasecmpEq e.1 cmd with
  | some e => rfl
  | none =>
      rw [if_pos hroom]
      rfl

/-- **The lookup stays in the table and returns the first registered command of the name**, or NULL
if there is none, if and only if an entry is free or the name is in the table; and the commands that
are registered are those of the calls that return true. -/
theorem cmd_lookup_iff (calls : List (Option Bytes × Option γ)) (cmd : Bytes) :
    let r := run CmdTable.register .init calls
    (calls.zip r.1).filterMap (fun c => if c.2 then command? c.1 else none) = registered calls ∧
      (r.2.getCmdProcessFun cmd =
          .ok (((registered calls).find? fun e => strcasecmpEq e.1 cmd).map .of) ↔
        (registered calls).length < CMD_CALLBACK_MAX ∨
          ∃ e ∈ registered calls, strcasecmpEq e.1 cmd = true) := by
  intro r
  refine ⟨(filled_init.run calls).2, ?_⟩
  rw [(filled_run calls).getCmdProcessFun_eq]
  cases hfind : (registered calls).find? fun e => strcasecmpEq e.1 cmd with
  | some e =>
      have hname : strcasecmpEq e.1 cmd = true := by simpa using List.find?_some hfind
      exact iff_of_true rfl (Or.inr ⟨e, List.mem_of_find?_eq_some hfind, hname⟩)
  | none =>
      have hno : ¬ ∃ e ∈ registered calls, strcasecmpEq e.1 cmd = true := by
        rintro ⟨e, hmem, hname⟩
        exact List.find?_eq_none.mp hfind e hmem hname
      by_cases hroom : (registered calls).length < CMD_CALLBACK_MAX
      · rw [if_pos hroom]
        exact iff_of_true rfl (Or.inl hroom)
      · rw [if_neg hroom]
        refine iff_of_false (fun h => ?_) (not_or.mpr ⟨hroom, hno⟩)
        cases h

/-- With 64 commands in the table, the lookup of a name that is not among them goes past its end. -/
theorem lookup_past_end :
    let calls : List (Option Bytes × Option Unit) :=
      List.replicate 64 (some (ascii "ping"), some ())
    let r := run CmdTable.register .init calls
    r.1 = List.replicate 64 true ∧ r.2.getCmdProcessFun (ascii "PING") =
      .ok (some (.of (ascii "ping", ()))) ∧
      r.2.getCmdProcessFun (ascii "quit") = .error .pastEnd := by
  decide

end XHttpCache
