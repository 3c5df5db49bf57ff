import XHttpCache.Server.Deadlines

/-!
# Server — TTL arguments

`SET .. EX` and `EXPIRE` make a deadline of their last argument: `str_to_int64` reads it, the
seconds become milliseconds, and the clock is added.  `str_to_int64` reports in `errno` an argument
that is not a number as a whole; neither of its callers looks there, and neither looks for an
overflow.

* `TakesTTL.recorded`: whatever the argument, `expiredAt` of it is recorded.
* `expiredAt_decimal`: of the decimal form of `t` that is `now + 1000 * t`, where this is a deadline
  that can be loaded.
* `ttl_honoured_iff`: any other argument should be refused, and none is.
-/

namespace XHttpCache
open Support

variable {sv : XRedisServer} {ix : Bytes → Option Int} {now : Int} {argv : List Bytes}
  {key a : Bytes}

/-! ### Loading everything -/

/-- The number of entries of the stored index: its score rows. -/
def indexSize (x : XDataBase) : Nat :=
  (x.rows.rows.filter fun row => zscorePrefix expireKey <+: row.1).length

/-- Items of the index are as many of its score rows. -/
theorem Recorded.length_le_indexSize {x : XDataBase} (h : Recorded x ix) {L : List Item}
    (hlt : L.Pairwise (· < ·)) (hL : ∀ d m, item d m ∈ L → ix m = some d) :
    L.length ≤ indexSize x := by
  have hnodup : (L.map fun i => (scoreRow expireKey (ofLex i).1 (ofLex i).2, ([] : Bytes))).Nodup := by
    refine List.Nodup.map_on (fun i hi j hj hij => ?_) (hlt.imp ne_of_lt)
    obtain ⟨hm, hd⟩ := scoreRow_inj Recorded.setKey.2 (h.index.score _ _ (hL _ _ hi))
      (h.index.score _ _ (hL _ _ hj)) (congrArg Prod.fst hij)
    exact Prod.ext hd hm
  have hsub : (L.map fun i => (scoreRow expireKey (ofLex i).1 (ofLex i).2, ([] : Bytes))) ⊆
      x.rows.rows.filter fun row => zscorePrefix expireKey <+: row.1 := by
    intro row hrow
    obtain ⟨i, hi, rfl⟩ := List.mem_map.mp hrow
    have hpre := prefix_scoreRow expireKey (ofLex i).1 (ofLex i).2
    exact List.mem_filter.mpr ⟨OrderedMap.mem_rows.mpr
      ((h.index.zscore _ _ hpre).mpr ⟨rfl, _, _, hL _ _ hi, rfl⟩), decide_eq_true hpre⟩
  have hle := (hnodup.subperm hsub).length_le
  rwa [List.length_map] at hle

/-- A limit that is not below the size of the index lets everything in range be loaded. -/
theorem Recorded.load_all {x : XDataBase} (h : Recorded x ix) {limit : Int}
    (hlimit : indexSize x ≤ limit) :
    ∃ s : SortedSet, x.loadExpirationKeys expireKey .init limit = (.ok, s, x) ∧
      ∀ k d, ix k = some d → InRange d → s.score? k = some d := by
  obtain ⟨L, hlt, hmem, hload⟩ := h.index.load h.fits Recorded.setKey.2
  have hL : ∀ d m, item d m ∈ L → ix m = some d := fun d m hi => ((hmem d m).mp hi).1
  have hlen := h.length_le_indexSize hlt hL
  obtain ⟨n, rfl⟩ : ∃ n : Nat, limit = n := Int.eq_ofNat_of_zero_le (by omega)
  refine ⟨_, hload x h.healthy rfl n .init, fun k d hk hd => ?_⟩
  rw [List.take_of_length_le (by omega),
    SortedSet.score?_addAll (members_ne hlt hL) fun i _ => SortedSet.score?_init _]
  exact Or.inl ((hmem d k).mpr ⟨hk, hd⟩)

/-! ### The deadline of an argument -/

/-- `SET .. EX` reads its argument up to a NUL; so does `EXPIRE`, which has all of it. -/
theorem expiredAt_cstr (now : Int) (a : Bytes) : expiredAt now (cstr a) = expiredAt now a := by
  rw [expiredAt, strToInt64, strtoll_cstr]
  rfl

/-- The decimal form of `t` gives the deadline `now + 1000 * t`, where that is in range. -/
theorem expiredAt_decimal {t : Int} (h₀ : 0 ≤ now) (h₁ : now < 2 ^ 62)
    (ht : InRange (now + 1000 * t)) : expiredAt now (decimal t) = now + 1000 * t := by
  obtain ⟨hlo, hhi⟩ := ht
  have hmax : INT64_MAX = 2 ^ 63 - 1 := rfl
  have hti : IsI64 t := by
    constructor <;> omega
  have hmul : IsI64 (t * 1000) := by
    constructor <;> omega
  have hsum : IsI64 (now + t * 1000) := by
    constructor <;> omega
  rw [expiredAt, strToInt64_decimal hti, i64_eq hmul, i64_eq hsum, Int.mul_comm]

/-- A `SET .. EX` or an `EXPIRE` of `key` with the TTL argument `a`. -/
inductive TakesTTL (key a : Bytes) : List Bytes → Prop where
  | set {cmd val ex : Bytes} (hcmd : XRedisServer.getCmdProcessFun cmd = some .set)
      (hex : strcasecmpEq (ascii "ex") ex = true) : TakesTTL key a [cmd, key, val, ex, a]
  | expire {cmd : Bytes} (hcmd : XRedisServer.getCmdProcessFun cmd = some .expire) :
      TakesTTL key a [cmd, key, a]

theorem TakesTTL.armedKey (h : TakesTTL key a argv) : armedKey argv = some key := by
  cases h with
  | set hcmd hex => exact if_pos ⟨hcmd, hex⟩
  | expire hcmd => exact if_pos hcmd

/-- `Zset` of a deadline leaves it recorded, also where it is refused. -/
theorem Recorded.zset {x : XDataBase} (h : Recorded x ix) {d : Int} (hk : key ≠ []) (hd : IsI64 d)
    (hlen : (scoreRow expireKey d key).length < 2 ^ 31) :
    Recorded (x.zset expireKey key (decimal d)).2 (Function.update ix key (some d)) := by
  by_cases hix : ix key = some d
  · rw [h.zset_err (Or.inr hix), ← hix, Function.update_eq_self]
    exact h
  · exact (h.zset_ok hk hix hd hlen).2

/-- `SET .. EX` ends with a `Zset` of the deadline, and answers by its code. -/
theorem processCmdSetEx_zset (sv : XRedisServer) (now : Int) (key val ttl : Bytes) :
    let z := (sv.xdb.set now key val).2.zset expireKey key (decimal (expiredAt now ttl))
    (sv.processCmdSetEx now key val ttl).2.xdb = z.2 ∧
      (sv.processCmdSetEx now key val ttl).1 =
        if z.1 = .ok then [.status (ascii "OK")] else [.null] := by
  simp only [XRedisServer.processCmdSetEx, ttlData_expiredAt, expiredAt_cstr]
  generalize (sv.xdb.set now key val).2.zset expireKey key _ = r
  obtain ⟨c, x⟩ := r
  cases c <;> exact ⟨rfl, rfl⟩

/-- So does `EXPIRE`, of a key that has a value. -/
theorem processCmdExpire_zset {cmd : Bytes} (h : (sv.xdb.get key).1 = .ok) :
    let z := (sv.xdb.get key).2.2.zset expireKey key (decimal (expiredAt now a))
    (sv.processCmdExpire now [cmd, key, a]).2.xdb = z.2 ∧
      (sv.processCmdExpire now [cmd, key, a]).1 =
        if z.1 = .ok then [.int 1] else [.int 0] := by
  have hpos : ¬ (decimal (expiredAt now a)).length ≤ 0 :=
    Nat.not_le.mpr (List.length_pos_of_ne_nil (decimal_ne_nil _))
  simp only [XRedisServer.processCmdExpire, ttlData_expiredAt, if_neg hpos]
  generalize sv.xdb.get key = r at h
  obtain ⟨c, v, x⟩ := r
  obtain rfl : c = .ok := h
  simp only
  generalize x.zset expireKey key _ = r
  obtain ⟨c, x'⟩ := r
  cases c <;> exact ⟨rfl, rfl⟩

theorem doCmd_setEx {cmd val ex : Bytes} (hcmd : XRedisServer.getCmdProcessFun cmd = some .set)
    (hex : strcasecmpEq (ascii "ex") ex = true) (sv : XRedisServer) (now : Int) :
    sv.doCmd now [cmd, key, val, ex, a] = sv.processCmdSetEx now key val a := by
  rw [XRedisServer.doCmd, hcmd]
  exact if_pos hex

theorem doCmd_expire {cmd : Bytes} (hcmd : XRedisServer.getCmdProcessFun cmd = some .expire)
    (sv : XRedisServer) (now : Int) :
    sv.doCmd now [cmd, key, a] = sv.processCmdExpire now [cmd, key, a] := by
  rw [XRedisServer.doCmd, hcmd]
  rfl

/-- **Whatever the argument**, its deadline is recorded. -/
theorem TakesTTL.recorded (h : TakesTTL key a argv) (hx : Recorded sv.xdb ix)
    (hd : Deliverable argv) (hkey : sv.xdb.valueRow key ≠ none) (now : Int) :
    Recorded (sv.doCmd now argv).2.xdb (Function.update ix key (some (expiredAt now a))) := by
  have hfit := fun d => hd.armedKey h.armedKey d
  cases h with
  | @set cmd val ex hcmd hex =>
      rw [doCmd_setEx hcmd hex, (processCmdSetEx_zset ..).1]
      exact (hx.set now key val).zset (hfit 0).1 (expiredAt_isI64 _ _) (hfit _).2
  | @expire cmd hcmd =>
      have hok : (sv.xdb.get key).1 = .ok := by
        rw [(XDataBase.get_spec hx.healthy key).1]
        exact if_pos (Option.isSome_iff_ne_none.mpr hkey)
      rw [doCmd_expire hcmd, (processCmdExpire_zset hok).1]
      exact (hx.get key).zset (hfit 0).1 (expiredAt_isI64 _ _) (hfit _).2

/-! ### Honoured or refused -/

/-- The deadline of `key` is `d`, and it is found by a scan of the whole index. -/
def Honoured (x : XDataBase) (key : Bytes) (d : Int) : Prop :=
  deadline x key = some d ∧ ∀ limit : Int, indexSize x < limit →
    ∃ s : SortedSet, x.loadExpirationKeys expireKey .init limit = (.ok, s, x) ∧
      s.score? key = some d

/-- An error is sent, and the value of `key`, the deadlines and the manager are as before. -/
def Refused (sv : XRedisServer) (key : Bytes) (r : List Reply × XRedisServer) : Prop :=
  (∃ errtype errmsg, r.1 = [.err errtype errmsg]) ∧ r.2.xdb.valueRow key = sv.xdb.valueRow key ∧
    (∀ k, deadline r.2.xdb k = deadline sv.xdb k) ∧ r.2.expiremgr = sv.expiremgr

/-- The argument is the decimal form of a number of seconds whose deadline can be loaded. -/
def Proper (now : Int) (a : Bytes) : Prop := ∃ t, a = decimal t ∧ InRange (now + 1000 * t)

/-- A proper argument is honoured, and any other refused. -/
def HonouredOrRefused (sv : XRedisServer) (now : Int) (key a : Bytes)
    (r : List Reply × XRedisServer) : Prop :=
  (∀ t, a = decimal t → InRange (now + 1000 * t) → Honoured r.2.xdb key (now + 1000 * t)) ∧
    (¬ Proper now a → Refused sv key r)

/-- No argument is refused. -/
theorem TakesTTL.not_refused (h : TakesTTL key a argv) : ¬ Refused sv key (sv.doCmd now argv) := by
  rintro ⟨⟨t, m, hr⟩, -⟩
  cases h with
  | @set cmd val ex hcmd hex =>
      rw [doCmd_setEx hcmd hex, XRedisServer.processCmdSetEx] at hr
      split at hr
      · cases hr
      · cases hr
  | @expire cmd hcmd =>
      rw [doCmd_expire hcmd, XRedisServer.processCmdExpire] at hr
      split_ifs at hr
      split at hr
      · split at hr
        · cases hr
        · cases hr
      · cases hr

/-- **TTL arguments are honoured or refused** exactly where they are proper: none is refused. -/
theorem ttl_honoured_iff (hx : WellFormed sv.xdb) (hd : Deliverable argv)
    (ha : TakesTTL key a argv) (hkey : sv.xdb.valueRow key ≠ none) (h₀ : 0 ≤ now)
    (h₁ : now < 2 ^ 62) :
    HonouredOrRefused sv now key a (sv.doCmd now argv) ↔ Proper now a := by
  obtain ⟨ix, hx⟩ := hx
  have hrec := ha.recorded hx hd hkey now
  constructor
  · intro h
    by_contra hp
    exact ha.not_refused (h.2 hp)
  · intro hp
    refine ⟨fun t hat ht => ?_, fun hn => absurd hp hn⟩
    rw [hat, expiredAt_decimal h₀ h₁ ht] at hrec
    refine ⟨?_, fun limit hlimit => ?_⟩
    · rw [hrec.deadline_eq, Function.update_self]
    · obtain ⟨s, hload, hs⟩ := hrec.load_all hlimit.le
      exact ⟨s, hload, hs key _ (Function.update_self _ _ _) ht⟩

/-- A server whose only key `k` has a value and no deadline. -/
def holdingK : XRedisServer :=
  ⟨(({ db := ⟨.empty, []⟩ } : XDataBase).set 0 (ascii "k") (ascii "v")).2, {}⟩

theorem wellFormed_holdingK : WellFormed holdingK.xdb := by
  obtain ⟨ix, h⟩ := wellFormed_empty
  exact ⟨ix, h.set 0 (ascii "k") (ascii "v")⟩

/-- `EXPIRE k 10` at 5000 makes 15000 the deadline of `k`. -/
theorem ttl_honoured_ten :
    Honoured (holdingK.doCmd 5000 [ascii "EXPIRE", ascii "k", ascii "10"]).2.xdb (ascii "k")
      15000 := by
  have hten : ascii "10" = decimal 10 := by decide
  have hrange : InRange (5000 + 1000 * 10) := by decide
  have hd : Deliverable [ascii "EXPIRE", ascii "k", ascii "10"] := ⟨by decide, by decide⟩
  have hkey : holdingK.xdb.valueRow (ascii "k") ≠ none := by decide
  exact ((ttl_honoured_iff wellFormed_holdingK hd (.expire (by decide)) hkey (by decide)
    (by decide)).mpr ⟨10, hten, hrange⟩).1 10 hten hrange

/-- At 5000, `EXPIRE k abc` makes 5000 the deadline of `k`, and a number of seconds that overflows
makes it 4000: both are past, and both are answered by 1. -/
theorem ttl_misread :
    let abc := holdingK.doCmd 5000 [ascii "EXPIRE", ascii "k", ascii "abc"]
    let large := holdingK.doCmd 5000 [ascii "EXPIRE", ascii "k", ascii "9223372036854775807"]
    (abc.1 = [.int 1] ∧ deadline abc.2.xdb (ascii "k") = some 5000 ∧
      ¬ HonouredOrRefused holdingK 5000 (ascii "k") (ascii "abc") abc) ∧
    large.1 = [.int 1] ∧ deadline large.2.xdb (ascii "k") = some 4000 := by
  refine ⟨⟨by decide, by decide, fun h => ?_⟩, by decide, by decide⟩
  refine TakesTTL.not_refused (.expire (by decide)) (h.2 ?_)
  rintro ⟨t, ht, -⟩
  have hmem : (97 : Byte) ∈ decimal t := ht ▸ List.mem_cons_self
  exact absurd (isdigit_or_of_mem_decimal hmem) (by decide)

end XHttpCache
