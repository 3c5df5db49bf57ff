import XHttpCache.Server.Arguments
import XHttpCache.Server.Deletion

/-!
# Server — what `SET .. EX` and `EXPIRE` report

Both end in a `Zset` of the deadline, and answer by its code.  `Zset` returns `db_err` when it
fails and also when the score is there already, so a command that finds its own deadline recorded
does all it is asked to and reports a failure.

* `TakesTTL.zsets`: a TTL command is a `Zset` of its deadline, answered by its code.
* `zset_code_iff`, `score_zset`: the code, and what is recorded then.
* `reports_iff`: a command reports what it did exactly if its deadline was not recorded before; so
  one that is repeated at the same clock value is answered differently.
-/

namespace XHttpCache
open Support

variable {x : XDataBase} {sv : XRedisServer} {ix : Bytes → Option Int} {now d : Int}
  {argv : List Bytes} {key a : Bytes}

/-! ### The score of a key -/

/-- The score that the member row of `key` has in the set `expire`. -/
def scoreOf (x : XDataBase) (key : Bytes) : Option Bytes :=
  x.rows.get (encodeKey (.zset expireKey key))

theorem deadline_eq_scoreOf (h : x.Healthy) (key : Bytes) :
    deadline x key = (scoreOf x key).map strToInt64 := by
  rw [deadline, XDataBase.zget_spec h, scoreOf]
  cases x.rows.get (encodeKey (.zset expireKey key)) <;> rfl

/-- In a well-formed index, a deadline has one form only. -/
theorem Recorded.deadline_iff (h : Recorded x ix) (hd : IsI64 d) :
    deadline x key = some d ↔ scoreOf x key = some (decimal d) := by
  rw [h.deadline_eq, scoreOf, h.index.zset, Option.map_eq_some_iff]
  constructor
  · intro hix
    exact ⟨d, hix, rfl⟩
  · rintro ⟨d', hix, hdec⟩
    rw [hix, ← strToInt64_decimal (h.index.score key d' hix), hdec, strToInt64_decimal hd]

/-- `Zset` succeeds if the key is not empty and does not have the score. -/
theorem zset_code_iff (h : x.Healthy) (score : Bytes) :
    (x.zset expireKey key score).1 = .ok ↔ key ≠ [] ∧ scoreOf x key ≠ some score := by
  by_cases hk : key = []
  · rw [XDataBase.zset_of_empty x (Or.inr hk)]
    exact iff_of_false RetCode.noConfusion fun hc => hc.1 hk
  · by_cases hs : scoreOf x key = some score
    · rw [XDataBase.zset_same h hs]
      exact iff_of_false RetCode.noConfusion fun hc => hc.2 hs
    · exact iff_of_true (XDataBase.zset_write h Recorded.setKey.ne_nil hk hs).1 ⟨hk, hs⟩

/-- Whatever it returns, a key that is not empty has the score then. -/
theorem score_zset (h : x.Healthy) (key score : Bytes) :
    (x.zset expireKey key score).2.Healthy ∧
      scoreOf (x.zset expireKey key score).2 key =
        if key = [] then scoreOf x key else some score := by
  by_cases hk : key = []
  · rw [XDataBase.zset_of_empty x (Or.inr hk), if_pos hk]
    exact ⟨h, rfl⟩
  · rw [if_neg hk]
    by_cases hs : scoreOf x key = some score
    · rw [XDataBase.zset_same h hs]
      exact ⟨h, hs⟩
    · have hdb := (XDataBase.zset_write h Recorded.setKey.ne_nil hk hs).2
      refine ⟨by rw [XDataBase.Healthy, hdb], ?_⟩
      rw [scoreOf, XDataBase.rows, hdb]
      exact OrderedMap.get_insert_self _ _ _

/-! ### The commands -/

/-- What a `SET .. EX` and an `EXPIRE` answer when `Zset` succeeds. -/
def doneReply (argv : List Bytes) : Reply :=
  if argv.length = 5 then .status (ascii "OK") else .int 1

/-- What they answer when it does not. -/
def failedReply (argv : List Bytes) : Reply := if argv.length = 5 then .null else .int 0

/-- The command gets to its `Zset`: it is a `SET .. EX`, or its key has a value. -/
def Applies (sv : XRedisServer) (key : Bytes) (argv : List Bytes) : Prop :=
  argv.length = 5 ∨ sv.xdb.valueRow key ≠ none

/-- What a TTL command does on the database `y`, which its other calls leave. -/
structure Zsets (sv : XRedisServer) (key : Bytes) (d : Int) (argv : List Bytes) (y : XDataBase)
    (r : List Reply × XRedisServer) : Prop where
  healthy : y.Healthy
  score : scoreOf y key = scoreOf sv.xdb key
  value : argv.length ≠ 5 → y.valueRow key = sv.xdb.valueRow key
  xdb : r.2.xdb = (y.zset expireKey key (decimal d)).2
  replies : r.1 = if (y.zset expireKey key (decimal d)).1 = .ok then [doneReply argv]
    else [failedReply argv]

/-- **A TTL command** that gets there is a `Zset` of its deadline, and answers by its code. -/
theorem TakesTTL.zsets (h : TakesTTL key a argv) (hx : sv.xdb.Healthy) (ha : Applies sv key argv)
    (now : Int) : ∃ y, Zsets sv key (expiredAt now a) argv y (sv.doCmd now argv) := by
  cases h with
  | @set cmd val ex hcmd hex =>
      obtain ⟨-, hdb⟩ := XDataBase.set_spec hx now key val
      refine ⟨(sv.xdb.set now key val).2, ⟨?_, ?_, fun hn => absurd rfl hn, ?_, ?_⟩⟩
      · rw [XDataBase.Healthy, hdb]
      · rw [scoreOf, XDataBase.rows, hdb]
        exact OrderedMap.get_insert_ne _ _ (by simp)
      · rw [doCmd_setEx hcmd hex, (processCmdSetEx_zset ..).1]
      · rw [doCmd_setEx hcmd hex]
        exact (processCmdSetEx_zset sv now key val a).2
  | @expire cmd hcmd =>
      have hkey : sv.xdb.valueRow key ≠ none := ha.resolve_left (fun h => by cases h)
      obtain ⟨hcode, -, hdb⟩ := XDataBase.get_spec hx key
      have hok : (sv.xdb.get key).1 = .ok := by
        rw [hcode]
        exact if_pos (Option.isSome_iff_ne_none.mpr hkey)
      refine ⟨(sv.xdb.get key).2.2, ⟨?_, ?_, fun _ => ?_, ?_, ?_⟩⟩
      · rw [XDataBase.Healthy, hdb]
      · rw [scoreOf, XDataBase.rows, hdb, scoreOf]
      · rw [XDataBase.valueRow, XDataBase.rows, hdb, XDataBase.valueRow]
      · rw [doCmd_expire hcmd, (processCmdExpire_zset hok).1]
      · rw [doCmd_expire hcmd]
        exact (processCmdExpire_zset hok).2

/-- An `EXPIRE` of a key without a value fails, and leaves it without. -/
theorem TakesTTL.not_applies (h : TakesTTL key a argv) (hx : sv.xdb.Healthy)
    (ha : ¬ Applies sv key argv) (now : Int) :
    (sv.doCmd now argv).1 = [failedReply argv] ∧ (sv.doCmd now argv).2.xdb.Healthy ∧
      ¬ Applies (sv.doCmd now argv).2 key argv := by
  cases h with
  | @set cmd val ex hcmd hex => exact absurd (Or.inl rfl) ha
  | @expire cmd hcmd =>
      have hkey : sv.xdb.valueRow key = none := by
        by_contra hn
        exact ha (Or.inr hn)
      obtain ⟨hcode, -, hdb⟩ := XDataBase.get_spec hx key
      have hnull : (sv.xdb.get key).1 = .null := by
        rw [hcode, show sv.xdb.rows.get (encodeKey (.string key)) = none from hkey]
        rfl
      have hpos : ¬ (decimal (expiredAt now a)).length ≤ 0 :=
        Nat.not_le.mpr (List.length_pos_of_ne_nil (decimal_ne_nil _))
      have hdo : sv.doCmd now [cmd, key, a] =
          ([.int 0], { sv with xdb := (sv.xdb.get key).2.2 }) := by
        rw [doCmd_expire hcmd]
        simp only [XRedisServer.processCmdExpire, if_neg hpos]
        generalize sv.xdb.get key = r at hnull
        obtain ⟨c, v, x⟩ := r
        obtain rfl : c = .null := hnull
        rfl
      rw [hdo]
      refine ⟨rfl, by rw [XDataBase.Healthy, hdb], ?_⟩
      rintro (hlen | hval)
      · cases hlen
      · rw [XDataBase.valueRow, XDataBase.rows, hdb] at hval
        exact hval hkey

/-! ### What is reported -/

/-- The value that a `SET .. EX` gives its key. -/
def givenValue : List Bytes → Option Bytes
  | [_, _, val, _, _] => some val
  | _ => none

/-- If the key has the value that the command gives it, if any, and the deadline that is asked for,
then the command says so: a `SET .. EX`, and an `EXPIRE` of a key that has a value. -/
def Reports (sv : XRedisServer) (now : Int) (key a : Bytes) (argv : List Bytes) : Prop :=
  let r := sv.doCmd now argv
  Applies sv key argv →
    (∀ val, givenValue argv = some val → ∃ ts, r.2.xdb.valueOf key = some ⟨ts, val⟩) →
      deadline r.2.xdb key = some (expiredAt now a) → r.1 = [doneReply argv]

theorem TakesTTL.given (h : TakesTTL key a argv) (hx : sv.xdb.Healthy) (now : Int) {val : Bytes}
    (hval : givenValue argv = some val) :
    ∃ ts, (sv.doCmd now argv).2.xdb.valueOf key = some ⟨ts, val⟩ := by
  cases h with
  | @set cmd val' ex hcmd hex =>
      obtain rfl := Option.some.inj hval
      have hset : (sv.xdb.set now key val').2.Healthy := by
        rw [XDataBase.Healthy, (XDataBase.set_spec hx now key val').2]
      refine ⟨getCurrentTime now, ?_⟩
      rw [doCmd_setEx hcmd hex, (processCmdSetEx_zset ..).1, XDataBase.valueOf,
        XDataBase.valueRow_zset hset]
      exact (XDataBase.valueOf_set hx now key val' key).trans (if_pos rfl)
  | @expire cmd hcmd => cases hval

theorem doneReply_ne (argv : List Bytes) : [doneReply argv] ≠ [failedReply argv] := by
  rw [doneReply, failedReply]
  split_ifs <;> simp

/-- A command that applies is answered as done if its deadline is not recorded yet. -/
theorem TakesTTL.replies (h : TakesTTL key a argv) (hx : sv.xdb.Healthy)
    (ha : Applies sv key argv) (now : Int) :
    (sv.doCmd now argv).1 =
      if key ≠ [] ∧ scoreOf sv.xdb key ≠ some (decimal (expiredAt now a)) then [doneReply argv]
      else [failedReply argv] := by
  obtain ⟨y, hy⟩ := h.zsets hx ha now
  rw [hy.replies, ← hy.score]
  exact if_congr (zset_code_iff hy.healthy _) rfl rfl

/-- The command leaves its deadline recorded, unless the key is empty, and can be given again. -/
theorem TakesTTL.after (h : TakesTTL key a argv) (hx : sv.xdb.Healthy)
    (ha : Applies sv key argv) (now : Int) :
    (sv.doCmd now argv).2.xdb.Healthy ∧ Applies (sv.doCmd now argv).2 key argv ∧
      scoreOf (sv.doCmd now argv).2.xdb key =
        if key = [] then scoreOf sv.xdb key else some (decimal (expiredAt now a)) := by
  obtain ⟨y, hy⟩ := h.zsets hx ha now
  obtain ⟨hhealthy, hscore⟩ := score_zset hy.healthy key (decimal (expiredAt now a))
  rw [hy.xdb]
  refine ⟨hhealthy, ?_, by rw [hscore, hy.score]⟩
  by_cases hlen : argv.length = 5
  · exact Or.inl hlen
  · refine Or.inr ?_
    rw [hy.xdb, XDataBase.valueRow_zset hy.healthy, hy.value hlen]
    exact ha.resolve_left hlen

/-- A command that applies reports what it did if its deadline was not recorded before. -/
theorem TakesTTL.reports (h : TakesTTL key a argv) (hx : Recorded sv.xdb ix)
    (ha : Applies sv key argv) (now : Int) :
    Reports sv now key a argv ↔ deadline sv.xdb key ≠ some (expiredAt now a) := by
  obtain ⟨hhealthy, -, hscore⟩ := h.after hx.healthy ha now
  have hbefore : deadline sv.xdb key = some (expiredAt now a) ↔
      scoreOf sv.xdb key = some (decimal (expiredAt now a)) :=
    hx.deadline_iff (expiredAt_isI64 _ _)
  have hreplies := h.replies hx.healthy ha now
  simp only [Reports, ha, true_implies]
  constructor
  · intro hr hd
    have hdeadline : deadline (sv.doCmd now argv).2.xdb key = some (expiredAt now a) := by
      rw [deadline_eq_scoreOf hhealthy, hscore, hbefore.mp hd, ite_self]
      exact congrArg some (strToInt64_decimal (expiredAt_isI64 _ _))
    have hdone := hr (fun _ => h.given hx.healthy now) hdeadline
    rw [if_neg fun hc => hc.2 (hbefore.mp hd)] at hreplies
    exact doneReply_ne argv (hdone.symm.trans hreplies)
  · intro hn _ hd
    refine hreplies.trans (if_pos ⟨fun hk => hn ?_, fun hs => hn (hbefore.mpr hs)⟩)
    -- an empty key has the deadline it had
    rw [deadline_eq_scoreOf hhealthy, hscore, if_pos hk, ← deadline_eq_scoreOf hx.healthy] at hd
    exact hd

/-- One that is repeated fails, so it is answered as before if it failed before. -/
theorem TakesTTL.repeated (h : TakesTTL key a argv) (hx : Recorded sv.xdb ix)
    (ha : Applies sv key argv) (now : Int) :
    ((sv.doCmd now argv).2.doCmd now argv).1 = (sv.doCmd now argv).1 ↔
      key = [] ∨ deadline sv.xdb key = some (expiredAt now a) := by
  obtain ⟨hhealthy, ha', hscore⟩ := h.after hx.healthy ha now
  have hfailed : ((sv.doCmd now argv).2.doCmd now argv).1 = [failedReply argv] := by
    refine (h.replies hhealthy ha' now).trans (if_neg ?_)
    rintro ⟨hk, hs⟩
    exact hs (hscore.trans (if_neg hk))
  rw [hfailed, h.replies hx.healthy ha now, hx.deadline_iff (expiredAt_isI64 _ _)]
  by_cases hor : key = [] ∨ scoreOf sv.xdb key = some (decimal (expiredAt now a))
  · rw [if_neg fun hc => hor.elim hc.1 hc.2]
    exact iff_of_true rfl hor
  · rw [if_pos (not_or.mp hor)]
    exact iff_of_false (doneReply_ne argv).symm hor

/-- **What `SET .. EX` and `EXPIRE` report.**  In every state that is reached, a command reports
what it did exactly if the deadline it asks for was not recorded before; and a command that is
repeated at the same clock value is answered as before exactly if it was, or the key is empty. -/
theorem reports_iff (env : Env) (cfg : XConfig) {s : ServerState} {es : List Event}
    (hx : WellFormed s.redis.xdb) (hes : ∀ ev ∈ es, ev.Deliverable) (h : TakesTTL key a argv)
    (now : Int) :
    let sv := (run (step env cfg) s es).2.redis
    let r := sv.doCmd now argv
    (Reports sv now key a argv ↔
        (Applies sv key argv → deadline sv.xdb key ≠ some (expiredAt now a))) ∧
      ((r.2.doCmd now argv).1 = r.1 ↔
        (Applies sv key argv → key = [] ∨ deadline sv.xdb key = some (expiredAt now a))) := by
  intro sv r
  obtain ⟨ix, hrec⟩ : WellFormed sv.xdb := WellFormed.run hx env cfg hes
  by_cases ha : Applies sv key argv
  · rw [forall_prop_of_true ha, forall_prop_of_true ha]
    exact ⟨h.reports hrec ha now, h.repeated hrec ha now⟩
  · obtain ⟨hfail, hhealthy, ha'⟩ := h.not_applies hrec.healthy ha now
    refine ⟨iff_of_true (fun hn => absurd hn ha) fun hn => absurd hn ha,
      iff_of_true ?_ fun hn => absurd hn ha⟩
    rw [(h.not_applies hhealthy ha' now).1, ← hfail]

/-- The first `SET k v EX 10` reports what it did. -/
theorem reports_first : Reports freshServer.redis 5000 (ascii "k") (ascii "10")
    [ascii "SET", ascii "k", ascii "v", ascii "EX", ascii "10"] := by
  have hes : ∀ ev ∈ ([] : List Event), ev.Deliverable := fun _ h => absurd h List.not_mem_nil
  have hnone : deadline freshServer.redis.xdb (ascii "k") ≠ some (expiredAt 5000 (ascii "10")) := by
    decide
  exact (reports_iff plainEnv {} (s := freshServer) wellFormed_empty hes
    (.set (by decide) (by decide)) 5000).1.mpr fun _ => hnone

/-- A second one at the same clock value is answered by a null reply, and a second `EXPIRE` by 0,
though the value and the deadline are as asked for. -/
theorem repeated_misreported :
    let set := [ascii "SET", ascii "k", ascii "v", ascii "EX", ascii "10"]
    let expire := [ascii "EXPIRE", ascii "k", ascii "10"]
    let r := freshServer.redis.doCmd 5000 set
    let r' := r.2.doCmd 5000 set
    let t := holdingK.doCmd 5000 expire
    let t' := t.2.doCmd 5000 expire
    (r.1 = [.status (ascii "OK")] ∧ r'.1 = [.null] ∧
      r'.2.xdb.valueOf (ascii "k") = some ⟨5000, ascii "v"⟩ ∧
      deadline r'.2.xdb (ascii "k") = some 15000) ∧
    t.1 = [.int 1] ∧ t'.1 = [.int 0] ∧ t'.2.xdb.valueRow (ascii "k") ≠ none ∧
      deadline t'.2.xdb (ascii "k") = some 15000 := by
  decide

end XHttpCache
