import XHttpCache.Server.Acknowledge
import XHttpCache.Server.CacheRefinement
import XHttpCache.Server.LossyCache
import XHttpCache.Support.Writes

/-!
# Server — failures and restarts

The server when any call of RocksDB may fail and the process may die at any call, with `guard` of
`common/util.cpp` starting it again.  What it had in memory is then lost (the window of the expiry
manager and the ETag caches), and what RocksDB has stays.

Each event only tries certain writes, whichever of its calls fail (`Tries`): rows of values that it
stores or deletes, and rows of the index for deadlines that it gives.  So what is left is what some of
these make of the rows (`Wrote`), and all else follows from which they are.

* `failing_server_refines`: with failures and restarts, a run of the server is one of the lossy cache.
* `stored_value_survives`: a value whose `Put` succeeded is there until an event is about its key,
  however many calls fail and however often the process dies.
-/

namespace XHttpCache
open Support

/-! ### The writes of a call -/

namespace RocksDB

variable {P : Write Bytes Bytes → Prop}

theorem wrote_delete (db : RocksDB) {key : Bytes} (h : P (.delete key)) :
    Wrote P db.rows (db.delete key).2.rows := by
  rw [show db = ⟨db.rows, db.faults⟩ from rfl, delete_eq]
  split_ifs
  · exact .refl
  · exact .delete h

end RocksDB

namespace XDataBase

variable {P : Write Bytes Bytes → Prop} {x : XDataBase} {key member score : Bytes}

theorem wrote_set (now : Int) (val : Bytes)
    (h : P (.put (encodeKey (.string key)) (leBytes 8 (getCurrentTime now) ++ val))) :
    Wrote P x.rows (x.set now key val).2.rows := by
  rw [rows, rows, (set_eq x now key val).2]
  split_ifs
  · exact .refl
  · exact .put h

theorem wrote_del (h : P (.delete (encodeKey (.string key)))) :
    Wrote P x.rows (x.del key).2.rows := by
  rw [rows, rows, (del_eq x key).2]
  split_ifs
  · exact .refl
  · exact .delete h

theorem wrote_foldl_del (keys : List Bytes) (h : ∀ k ∈ keys, P (.delete (encodeKey (.string k))))
    (x : XDataBase) : Wrote P x.rows (keys.foldl (fun xdb key => (xdb.del key).2) x).rows := by
  induction keys generalizing x with
  | nil => exact .refl
  | cons key keys ih =>
      obtain ⟨hkey, hkeys⟩ := List.forall_mem_cons.mp h
      exact (wrote_del hkey).trans (ih hkeys _)

theorem rows_get (key : Bytes) : (x.get key).2.2.rows = x.rows := by
  rw [rows, (get_eq x key).2.2]

theorem rows_zget (key member : Bytes) : (x.zget key member).2.2.rows = x.rows := by
  rw [zget_eq]
  rfl

theorem rows_scanKey (start stop : Bytes) (limit : Int) :
    (x.scanKey start stop limit).2.2.rows = x.rows := by
  rw [scanKey_eq]
  rfl

theorem wrote_flushall (h : ∀ r, P (.delete r)) : Wrote P x.rows x.flushall.2.rows := by
  have hfold : ∀ (it : List (Bytes × Bytes)) (db : RocksDB),
      Wrote P db.rows (it.foldl (fun db row => (db.delete row.1).2) db).rows := by
    intro it
    induction it with
    | nil => exact fun _ => .refl
    | cons row it ih => exact fun db => (db.wrote_delete (h _)).trans (ih _)
  rw [flushall, db_mk, RocksDB.newIterator_eq]
  split_ifs
  · exact .refl
  · exact hfold x.rows.rows ⟨x.rows, x.db.faults.tail⟩

theorem wrote_withoutOld (h : ∀ s, P (.delete (encodeKey (.zscore key member s)))) (old : Bytes) :
    Wrote P x.rows (x.withoutOld key member old) := by
  rw [withoutOld]
  split_ifs
  · exact .refl
  · exact .delete (h old)

theorem wrote_zset (hdel : ∀ s, P (.delete (encodeKey (.zscore key member s))))
    (hscore : P (.put (encodeKey (.zscore key member score)) []))
    (hmember : P (.put (encodeKey (.zset key member)) score)) :
    Wrote P x.rows (x.zset key member score).2.rows := by
  by_cases hempty : key = [] ∨ member = []
  · rw [zset_of_empty x hempty]
    exact .refl
  obtain ⟨hk, hm⟩ := not_or.mp hempty
  have hscored : ∀ {m}, Wrote P x.rows m →
      Wrote P x.rows (m.insert (encodeKey (.zscore key member score)) []) :=
    fun h => h.trans (.put hscore)
  have hboth : ∀ {m}, Wrote P x.rows m → Wrote P x.rows
      ((m.insert (encodeKey (.zscore key member score)) []).insert (encodeKey (.zset key member))
        score) :=
    fun h => (hscored h).trans (.put hmember)
  have hold := wrote_withoutOld (x := x) hdel
  rw [(zset_outcome x hk hm score).2, zsetOutcome]
  cases x.handed key member with
  | none =>
      simp only
      split_ifs
      · exact .refl
      · exact hscored .refl
      · exact hboth .refl
  | some old =>
      simp only
      split_ifs
      · exact .refl
      · exact hold old
      · exact hscored (hold old)
      · exact hboth (hold old)

theorem wrote_zdel (hdel : ∀ s, P (.delete (encodeKey (.zscore key member s))))
    (hmember : P (.delete (encodeKey (.zset key member)))) :
    Wrote P x.rows (x.zdel key member).2.rows := by
  by_cases hempty : key = [] ∨ member = []
  · rw [zdel, if_pos hempty]
    exact .refl
  obtain ⟨hk, hm⟩ := not_or.mp hempty
  have hold := wrote_withoutOld (x := x) hdel
  rw [(zdel_outcome x hk hm).2, zdelOutcome]
  cases x.handed key member with
  | none => exact .refl
  | some old =>
      simp only
      split_ifs
      · exact hold old
      · exact (hold old).trans (.delete hmember)

end XDataBase

/-! ### The writes of an event -/

theorem DataTypeFlag.kv_ne_zscore : DataTypeFlag.KV ≠ DataTypeFlag.ZSCORE := by decide

theorem DataTypeFlag.kv_ne_zset : DataTypeFlag.KV ≠ DataTypeFlag.ZSET := by decide

theorem DataTypeFlag.zset_ne_zscore : DataTypeFlag.ZSET ≠ DataTypeFlag.ZSCORE := by decide

/-- The row is the score row of a deadline that was given, and can be read back. -/
def GivenRow (given : List (Bytes × Int)) (r : Bytes) : Prop :=
  ∃ k d, (k, d) ∈ given ∧ IsI64 d ∧ (scoreRow expireKey d k).length < 2 ^ 31 ∧
    r = scoreRow expireKey d k

/-- A write that may be tried: the row of a value that `puts` or `deletes` allows, and rows of the
index, where a score row is one of a deadline that was given. -/
inductive Tries (puts : Bytes → XValue → Prop) (deletes : Bytes → Prop)
    (given : List (Bytes × Int)) : Write Bytes Bytes → Prop where
  | value {k val : Bytes} {now : Int} (h : puts k ⟨getCurrentTime now, val⟩)
      (hfits : XDataBase.RowFits k) :
      Tries puts deletes given
        (.put (encodeKey (.string k)) (leBytes 8 (getCurrentTime now) ++ val))
  | noValue {k : Bytes} (h : deletes k) : Tries puts deletes given (.delete (encodeKey (.string k)))
  | score {r : Bytes} (h : GivenRow given r) : Tries puts deletes given (.put r [])
  | member (k v : Bytes) : Tries puts deletes given (.put (encodeKey (.zset expireKey k)) v)
  | noDeadline {r : Bytes} (h : r.headD 0 ≠ DataTypeFlag.KV) : Tries puts deletes given (.delete r)

/-- The rows of values can be listed. -/
def XDataBase.RowsFit (x : XDataBase) : Prop := ∀ k v, x.valueRow k = some v → XDataBase.RowFits k

/-- The keys that a scan lists are in its range. -/
theorem XDataBase.RowsFit.mem_scanKey {x : XDataBase} (hx : x.RowsFit) {start stop k : Bytes}
    {limit : Int} (h : k ∈ (x.scanKey start stop limit).2.1) : start ≤ k ∧ k < stop := by
  -- the loop reads the rows alone, so it is that of a database whose calls succeed
  let y : XDataBase := { x with db := ⟨x.rows, []⟩ }
  have hy : y.Healthy := rfl
  have hfits : ∀ k' ∈ (y.keysIn start stop).take limit.toNat, RowFits k' := by
    intro k' hk'
    obtain ⟨v, hv⟩ := Option.ne_none_iff_exists'.mp (mem_keysIn.mp (List.mem_of_mem_take hk')).1
    exact hx k' v hv
  have hloop : scanLoop (encodeKey (.string stop)) limit
      (x.rows.seek (encodeKey (.string start))) 0 {} =
      (y.keysIn start stop).take limit.toNat := by
    have hscan := (scanKey_spec hy start stop limit).symm.trans (scanKey_keysIn hy start stop limit)
    rw [(decodeRows_eq_iff _ rowFits_nil).mpr hfits] at hscan
    exact congrArg (·.2.1) hscan
  rw [scanKey_eq] at h
  split_ifs at h
  · exact absurd h List.not_mem_nil
  · rw [hloop] at h
    exact (mem_keysIn.mp (List.mem_of_mem_take h)).2

/-- The score rows are those of deadlines that were given. -/
def XDataBase.ScoresGiven (given : List (Bytes × Int)) (x : XDataBase) : Prop :=
  ∀ r v, x.rows.get r = some v → r.headD 0 = DataTypeFlag.ZSCORE → GivenRow given r

namespace Tries

variable {puts : Bytes → XValue → Prop} {deletes : Bytes → Prop} {given : List (Bytes × Int)}
  {x x' : XDataBase}

theorem mono {puts' : Bytes → XValue → Prop} {deletes' : Bytes → Prop}
    {given' : List (Bytes × Int)} (hputs : ∀ k v, puts k v → puts' k v)
    (hdeletes : ∀ k, deletes k → deletes' k) (hsub : given ⊆ given') {w : Write Bytes Bytes}
    (h : Tries puts deletes given w) : Tries puts' deletes' given' w := by
  cases h with
  | value h hfits => exact .value (hputs _ _ h) hfits
  | noValue h => exact .noValue (hdeletes _ h)
  | score h =>
      obtain ⟨k, d, hmem, hrow⟩ := h
      exact .score ⟨k, d, hsub hmem, hrow⟩
  | member k v => exact .member k v
  | noDeadline h => exact .noDeadline h

theorem headD_score {r : Bytes} (h : GivenRow given r) : r.headD 0 = DataTypeFlag.ZSCORE := by
  obtain ⟨k, d, -, -, -, rfl⟩ := h
  rfl

/-- Only a value that is allowed is put in the row of a key. -/
theorem of_put_string {k row : Bytes}
    (h : Tries puts deletes given (.put (encodeKey (.string k)) row)) :
    ∃ now val, puts k ⟨getCurrentTime now, val⟩ ∧ XDataBase.RowFits k ∧
      row = leBytes 8 (getCurrentTime now) ++ val := by
  generalize hr : encodeKey (.string k) = r at h
  cases h with
  | value hputs hfits =>
      obtain rfl : k = _ := (List.cons.inj hr).2
      exact ⟨_, _, hputs, hfits, rfl⟩
  | score hgiven =>
      exact absurd ((congrArg (·.headD 0) hr).trans (headD_score hgiven)) DataTypeFlag.kv_ne_zscore
  | member k' v => exact absurd (List.cons.inj hr).1 (by decide)

theorem of_delete_string {k : Bytes}
    (h : Tries puts deletes given (.delete (encodeKey (.string k)))) : deletes k := by
  generalize hr : encodeKey (.string k) = r at h
  cases h with
  | noValue hdel =>
      obtain rfl : k = _ := (List.cons.inj hr).2
      exact hdel
  | noDeadline hne => exact absurd (congrArg (·.headD 0) hr).symm hne

/-- **What becomes of a value.** -/
theorem valueOf_cases (h : Wrote (Tries puts deletes given) x.rows x'.rows) (k : Bytes) :
    x'.valueOf k = x.valueOf k ∨ (∃ v, puts k v ∧ x'.valueOf k = some v) ∨
      (deletes k ∧ x'.valueOf k = none) := by
  rw [XDataBase.valueOf, XDataBase.valueOf, XDataBase.valueRow, XDataBase.valueRow]
  rcases h.get_cases (encodeKey (.string k)) with hk | ⟨row, hput, hk⟩ | ⟨hdel, hk⟩
  · exact Or.inl (by rw [hk])
  · obtain ⟨now, val, hputs, -, rfl⟩ := hput.of_put_string
    refine Or.inr (Or.inl ⟨_, hputs, ?_⟩)
    rw [hk]
    exact congrArg some (XValue.decode_encode (u64_lt now) 0 val)
  · exact Or.inr (Or.inr ⟨hdel.of_delete_string, by rw [hk]; rfl⟩)

theorem rowsFit (h : Wrote (Tries puts deletes given) x.rows x'.rows) (hx : x.RowsFit) :
    x'.RowsFit := by
  intro k v hv
  rcases h.get_cases (encodeKey (.string k)) with hk | ⟨row, hput, hk⟩ | ⟨-, hk⟩
  · exact hx k v (hk.symm.trans hv)
  · obtain ⟨now, val, -, hfits, -⟩ := hput.of_put_string
    exact hfits
  · cases hk.symm.trans hv

theorem scoresGiven (h : Wrote (Tries puts deletes given) x.rows x'.rows)
    (hx : x.ScoresGiven given) : x'.ScoresGiven given := by
  refine h.forall_get hx fun r v hput hr => ?_
  cases hput with
  | value => exact absurd hr DataTypeFlag.kv_ne_zscore
  | score hgiven => exact hgiven
  | member => exact absurd hr DataTypeFlag.zset_ne_zscore

end Tries

/-- A write that an event may try on one of the databases, where the deadlines `given` have been
given. -/
def Event.Tries (env : Env) (cfg : XConfig) (given : List (Bytes × Int)) (ev : Event) (sys : Bool) :
    Write Bytes Bytes → Prop :=
  XHttpCache.Tries (fun k v => ev.Puts env cfg sys k v)
    (fun k => ev.Deletes env cfg given sys k) (ev.gives ++ given)

/-! ### Redis commands -/

/-- What becomes of the server: some writes that may be tried take effect, and the window gets no
deadline but one that is given. -/
structure Attempts (puts : Bytes → XValue → Prop) (deletes : Bytes → Prop)
    (given : List (Bytes × Int)) (sv sv' : XRedisServer) : Prop where
  rows : Wrote (Tries puts deletes given) sv.xdb.rows sv'.xdb.rows
  window : ∀ k d, sv'.expiremgr.sortSet.score? k = some d →
    (k, d) ∈ given ∨ sv.expiremgr.sortSet.score? k = some d

/-- What a request may make of the server. -/
def Request.Attempts (req : Request) (now : Int) (sv sv' : XRedisServer) : Prop :=
  XHttpCache.Attempts (fun k v => req.Puts now k v) (fun k => req.Deletes k) (req.gives now) sv sv'

namespace Attempts

variable {puts : Bytes → XValue → Prop} {deletes : Bytes → Prop} {given : List (Bytes × Int)}
  {sv : XRedisServer} {key : Bytes} {now : Int}

/-- Nothing is tried. -/
theorem of_rows {xdb : XDataBase} (h : xdb.rows = sv.xdb.rows) :
    Attempts puts deletes given sv { sv with xdb } :=
  ⟨.of_eq h, fun _ _ hd => Or.inr hd⟩

theorem of_wrote {xdb : XDataBase} (h : Wrote (Tries puts deletes given) sv.xdb.rows xdb.rows) :
    Attempts puts deletes given sv { sv with xdb } :=
  ⟨h, fun _ _ hd => Or.inr hd⟩

/-- A deadline that is given may get into the window. -/
theorem setTTL {sv' : XRedisServer} (h : Attempts puts deletes given sv sv') {d : Int}
    (hd : (key, d) ∈ given) :
    Attempts puts deletes given sv { sv' with expiremgr := sv'.expiremgr.setTTL key d } where
  rows := h.rows
  window k d' hs := by
    rcases ExpireManager.score?_of_setTTL hs with ⟨rfl, rfl⟩ | ⟨-, hs⟩
    · exact Or.inl hd
    · exact h.window k d' hs

/-- The rows of a deadline that is given are tried. -/
theorem wrote_zset {x : XDataBase} {d : Int} (hgiven : (key, d) ∈ given) (hd : IsI64 d)
    (hlen : (scoreRow expireKey d key).length < 2 ^ 31) :
    Wrote (Tries puts deletes given) x.rows (x.zset expireKey key (decimal d)).2.rows :=
  XDataBase.wrote_zset (fun _ => .noDeadline DataTypeFlag.kv_ne_zscore.symm)
    (.score ⟨key, d, hgiven, hd, hlen, rfl⟩) (.member key _)

end Attempts

namespace XRedisServer

variable {sv : XRedisServer} {now : Int} {key val secs : Bytes}

theorem attempts_get (cmd key : Bytes) :
    (Request.get key).Attempts now sv (sv.processCmdGet [cmd, key]).2 := by
  have hrows := sv.xdb.rows_get key
  rw [processCmdGet]
  generalize sv.xdb.get key = r at hrows
  obtain ⟨ret, v, xdb⟩ := r
  cases ret <;> exact .of_rows hrows

theorem attempts_set (cmd : Bytes) (hfits : XDataBase.RowFits key) :
    (Request.set key val).Attempts now sv (sv.processCmdSet now [cmd, key, val]).2 :=
  .of_wrote (XDataBase.wrote_set now val (.value ⟨rfl, rfl⟩ hfits))

theorem attempts_setEx (hfits : XDataBase.RowFits key)
    (hlen : ∀ d, (scoreRow expireKey d key).length < 2 ^ 31) :
    (Request.setEx key val secs).Attempts now sv (sv.processCmdSetEx now key val secs).2 := by
  have hgiven : (key, expiredAt now (cstr secs)) ∈ (Request.setEx key val secs).gives now :=
    List.mem_singleton_self _
  have hset : Wrote (Tries (fun k v => (Request.setEx key val secs).Puts now k v)
      (fun k => (Request.setEx key val secs).Deletes k) ((Request.setEx key val secs).gives now))
      sv.xdb.rows (sv.xdb.set now key val).2.rows :=
    XDataBase.wrote_set now val (.value ⟨rfl, rfl⟩ hfits)
  have hzset := hset.trans
    (Attempts.wrote_zset hgiven (expiredAt_isI64 now (cstr secs)) (hlen _))
  rw [← ttlData_expiredAt] at hzset
  simp only [processCmdSetEx]
  generalize (sv.xdb.set now key val).2.zset expireKey key (ttlData (expiredAt now (cstr secs))) = r
    at hzset
  obtain ⟨ret, xdb⟩ := r
  have honce : (Request.setEx key val secs).Attempts now sv
      ⟨xdb, sv.expiremgr.setTTL key (expiredAt now (cstr secs))⟩ :=
    Attempts.setTTL (Attempts.of_wrote hzset) hgiven
  cases ret with
  | ok => exact Attempts.setTTL honce hgiven
  | err => exact honce
  | null => exact honce

theorem attempts_del (cmd key : Bytes) :
    (Request.del key).Attempts now sv (sv.processCmdDel [cmd, key]).2 :=
  .of_wrote (XDataBase.wrote_del (.noValue rfl))

theorem attempts_expire (cmd : Bytes) (hlen : ∀ d, (scoreRow expireKey d key).length < 2 ^ 31) :
    (Request.expire key secs).Attempts now sv (sv.processCmdExpire now [cmd, key, secs]).2 := by
  have hgiven : (key, expiredAt now secs) ∈ (Request.expire key secs).gives now :=
    List.mem_singleton_self _
  have hpos : ¬ (decimal (expiredAt now secs)).length ≤ 0 :=
    not_le.mpr (List.length_pos_of_ne_nil (decimal_ne_nil _))
  have hrows := sv.xdb.rows_get key
  simp only [processCmdExpire, if_neg hpos]
  generalize sv.xdb.get key = r at hrows
  obtain ⟨ret, v, xdb⟩ := r
  have hzset : Wrote (Tries (fun k v => (Request.expire key secs).Puts now k v)
      (fun k => (Request.expire key secs).Deletes k) ((Request.expire key secs).gives now))
      sv.xdb.rows (xdb.zset expireKey key (decimal (expiredAt now secs))).2.rows :=
    (Wrote.of_eq hrows).trans
      (Attempts.wrote_zset hgiven (expiredAt_isI64 now secs) (hlen _))
  rw [← ttlData_expiredAt] at hzset
  cases ret with
  | ok =>
      simp only
      generalize xdb.zset expireKey key (ttlData (expiredAt now secs)) = r at hzset
      obtain ⟨ret, xdb'⟩ := r
      cases ret with
      | ok => exact Attempts.setTTL (Attempts.of_wrote hzset) hgiven
      | err => exact .of_wrote hzset
      | null => exact .of_wrote hzset
  | err => exact .of_rows hrows
  | null => exact .of_rows hrows

theorem attempts_ttl (cmd key : Bytes) :
    (Request.ttl key).Attempts now sv (sv.processCmdTtl now [cmd, key]).2 := by
  have hrows := sv.xdb.rows_zget expireKey key
  rw [processCmdTtl]
  generalize sv.xdb.zget expireKey key = r at hrows
  obtain ⟨ret, score, xdb⟩ := r
  cases ret <;> exact .of_rows hrows

theorem attempts_scan (hx : sv.xdb.RowsFit) (argv : List Bytes) :
    (Request.ofScan argv).Attempts now sv (sv.processCmdScan argv).2 := by
  rw [processCmdScan, Request.ofScan]
  rcases scanArgs argv with _ | ⟨start, stop, limit, delResult⟩
  · exact .of_rows rfl
  · have hrows := sv.xdb.rows_scanKey start stop limit
    have hkeys : ∀ k ∈ (sv.xdb.scanKey start stop limit).2.1, start ≤ k ∧ k < stop :=
      fun k hk => hx.mem_scanKey hk
    simp only
    generalize sv.xdb.scanKey start stop limit = r at hrows hkeys
    obtain ⟨ret, keys, xdb⟩ := r
    cases delResult with
    | false =>
        simp only [Bool.false_eq_true, if_false]
        split_ifs <;> exact .of_rows hrows
    | true =>
        simp only [if_true]
        split_ifs
        · exact .of_rows hrows
        · refine .of_wrote ((Wrote.of_eq hrows).trans (XDataBase.wrote_foldl_del keys ?_ xdb))
          exact fun k hk => .noValue (hkeys k hk)

theorem attempts_flushall : Request.flushall.Attempts now sv sv.processCmdFlushall.2 := by
  have hall : ∀ r, Tries (fun k v => Request.flushall.Puts now k v)
      (fun k => Request.flushall.Deletes k) (Request.flushall.gives now) (.delete r) := by
    intro r
    rcases r with _ | ⟨c, k⟩
    · exact .noDeadline (by decide)
    · by_cases hc : c = DataTypeFlag.KV
      · rw [hc]
        exact .noValue (k := k) trivial
      · exact .noDeadline hc
  have hwrote := XDataBase.wrote_flushall (x := sv.xdb) hall
  rw [processCmdFlushall]
  generalize sv.xdb.flushall = r at hwrote
  obtain ⟨ret, xdb⟩ := r
  cases ret <;> exact .of_wrote hwrote

/-- **A command** only tries what its request is about, whichever calls fail. -/
theorem attempts_doCmd (hx : sv.xdb.RowsFit) {argv : List Bytes} (hd : Deliverable argv) :
    (Request.ofArgv argv).Attempts now sv (sv.doCmd now argv).2 := by
  rcases argv with _ | ⟨cmd, args⟩
  · exact .of_rows rfl
  rw [doCmd, Request.ofArgv]
  cases getCmdProcessFun cmd with
  | none => exact .of_rows rfl
  | some cb =>
      cases cb with
      | set =>
          rcases args with _ | ⟨key, _ | ⟨val, _ | ⟨ex, _ | ⟨secs, _ | ⟨a, args⟩⟩⟩⟩⟩
          · exact .of_rows rfl
          · exact .of_rows rfl
          · exact attempts_set cmd (ServerState.Represents.fits_of_deliverable hd).1
          · exact .of_rows rfl
          · obtain ⟨hfits, -, hlen⟩ := ServerState.Represents.fits_of_deliverable hd
            simp only [call, processCmdSet, Request.ofCall, Request.ofSet]
            split_ifs
            · exact attempts_setEx hfits hlen
            · exact .of_rows rfl
          · exact .of_rows rfl
      | get =>
          rcases args with _ | ⟨key, _ | ⟨a, args⟩⟩
          · exact .of_rows rfl
          · exact attempts_get cmd key
          · exact .of_rows rfl
      | del =>
          rcases args with _ | ⟨key, _ | ⟨a, args⟩⟩
          · exact .of_rows rfl
          · exact attempts_del cmd key
          · exact .of_rows rfl
      | expire =>
          rcases args with _ | ⟨key, _ | ⟨secs, _ | ⟨a, args⟩⟩⟩
          · exact .of_rows rfl
          · exact .of_rows rfl
          · exact attempts_expire cmd (ServerState.Represents.fits_of_deliverable hd).2.2
          · exact .of_rows rfl
      | ttl =>
          rcases args with _ | ⟨key, _ | ⟨a, args⟩⟩
          · exact .of_rows rfl
          · exact attempts_ttl cmd key
          · exact .of_rows rfl
      | scan => exact attempts_scan hx (cmd :: args)
      | flushall => exact attempts_flushall

end XRedisServer

/-! ### Requests to the backend -/

section Backend

variable {env : Env} {cfg : XConfig} {now : Int} {req : EvhtpRequest} {given : List (Bytes × Int)}
  {puts : Bytes → XValue → Prop} {deletes : Bytes → Prop}

/-- A request on a key tries to write its row, or to delete it. -/
theorem wrote_restfulPro (hfits : XDataBase.RowFits (uriKey req))
    (hputs : req.method = .post ∨ req.method = .put →
      puts (uriKey req) ⟨getCurrentTime now, postValue env cfg req⟩)
    (hdeletes : req.method = .delete → deletes (uriKey req)) (hs : List (Bytes × Bytes))
    (sys : Bool) (x : XDataBase) :
    Wrote (Tries puts deletes given) x.rows (restfulPro env cfg now req hs sys x).state.rows := by
  rw [restfulPro]
  cases hm : req.method with
  | get =>
      have hrows := x.rows_get (uriKey req)
      simp only
      generalize x.get (uriKey req) = r at hrows
      obtain ⟨ret, v, x'⟩ := r
      cases ret <;> exact .of_eq hrows
  | post =>
      have hset := XDataBase.wrote_set (P := Tries puts deletes given) (x := x) now _
        (.value (hputs (Or.inl hm)) hfits)
      simp only
      split_ifs <;> exact hset
  | put =>
      have hset := XDataBase.wrote_set (P := Tries puts deletes given) (x := x) now _
        (.value (hputs (Or.inr hm)) hfits)
      simp only
      split_ifs <;> exact hset
  | delete =>
      have hdel := XDataBase.wrote_del (P := Tries puts deletes given) (x := x)
        (.noValue (hdeletes hm))
      simp only
      split_ifs <;> exact hdel
  | other => exact .refl

/-- The server with the databases of the backend. -/
def ServerState.withBackend (s : ServerState) (b : XevHtpdBackend) : ServerState :=
  ⟨{ s.redis with xdb := b.xdb }, b.sysdb⟩

/-- A handler of the database that `on` selects tries nothing on the other. -/
theorem wrote_onDb {P : Bool → Write Bytes Bytes → Prop} (s : ServerState) {on : Bool}
    {f : XDataBase → Handled XDataBase} (hf : ∀ x, Wrote (P on) x.rows (f x).state.rows)
    (sys : Bool) :
    Wrote (P sys) (s.database sys).rows
      ((s.withBackend (onDb ⟨s.redis.xdb, s.sysdb⟩ on f).state).database sys).rows := by
  cases on <;> cases sys
  · exact hf _
  · exact .refl
  · exact .refl
  · exact hf _

/-- **A request to the backend** only tries to write the row of its key, and only if it is
authorised. -/
theorem wrote_handle (s : ServerState) (hfits : XDataBase.RowFits (uriKey req)) (sys : Bool) :
    Wrote ((Event.http now req).Tries env cfg given sys) (s.database sys).rows
      ((s.withBackend (handle env cfg now req ⟨s.redis.xdb, s.sysdb⟩).state).database sys).rows := by
  have hrest : ∀ on hs, restsOn env cfg req = some on →
      Wrote ((Event.http now req).Tries env cfg given sys) (s.database sys).rows
        ((s.withBackend (onDb ⟨s.redis.xdb, s.sysdb⟩ on
          (restfulPro env cfg now req hs on)).state).database sys).rows := by
    intro on hs hon
    refine wrote_onDb (P := (Event.http now req).Tries env cfg given) s (fun x => ?_) sys
    exact wrote_restfulPro hfits (fun hm => ⟨hon, hm, rfl, rfl⟩) (fun hm => ⟨hon, hm, rfl⟩) hs on x
  cases hauth : checkAuth env cfg req with
  | false =>
      rw [(handle_unauth hauth now ⟨s.redis.xdb, s.sysdb⟩).2.2]
      cases sys <;> exact .refl
  | true =>
      rw [handle]
      cases hroute : env.route req.full with
      | keyScan =>
          simp only [keyScanCallback, hauth, Bool.not_true, Bool.false_eq_true, if_false]
          refine wrote_onDb (P := (Event.http now req).Tries env cfg given) s (fun x => ?_) sys
          have hrows := x.rows_scanKey ((uriArgFind req (ascii "key")).getD []) [255]
            (atoi ((uriArgFind req (ascii "limit")).getD (ascii "1000")))
          split_ifs <;> exact .of_eq hrows
      | statistics =>
          rw [statisticsCallback, hauth]
          cases sys <;> exact .refl
      | config =>
          rw [configCallback, hauth]
          cases sys <;> exact .refl
      | adminShell =>
          rw [adminShellCallback, hauth]
          refine hrest true _ ?_
          rw [restsOn, hauth, if_pos rfl, hroute]
      | rest =>
          simp only [restCallback, hauth, Bool.not_true, Bool.false_eq_true, if_false]
          split_ifs with hkey
          · cases sys <;> exact .refl
          · refine hrest _ _ ?_
            rw [restsOn, hauth, if_pos rfl, hroute]
            exact if_neg hkey

end Backend

/-! ### The expiry loop -/

section Expiry

variable {given : List (Bytes × Int)}

/-- The window has only deadlines that were given. -/
def SortedSet.Given (given : List (Bytes × Int)) (s : SortedSet) : Prop :=
  ∀ k d, s.score? k = some d → (k, d) ∈ given

theorem XDataBase.given_loadLoop {it : List (Bytes × Bytes)}
    (hit : ∀ r ∈ it, r.1.headD 0 = DataTypeFlag.ZSCORE → GivenRow given r.1) (stop : Bytes)
    (limit n : Int) (out : KeyParts) {s : SortedSet} (hs : s.Given given) :
    (loadLoop stop limit it n out s).2.Given given := by
  induction it generalizing n out s with
  | nil => exact hs
  | cons r it ih =>
      obtain ⟨hr, hit⟩ := List.forall_mem_cons.mp hit
      rw [loadLoop]
      split_ifs with hlt hhead
      · exact hs
      · obtain ⟨k, d, hgiven, hd, hlen, hrow⟩ := hr (not_not.mp hhead)
        have hdecode : decodeKey r.1 out = (true, ⟨expireKey, k, decimal d⟩) := by
          rw [hrow, scoreRow, decodeKey_zscore (by decide) hlen, strToInt64_decimal hd]
        simp only [hdecode]
        refine ih hit _ _ fun k' d' hscore => ?_
        rw [SortedSet.score?_add] at hscore
        split_ifs at hscore with hk
        · rw [hk, ← Option.some.inj hscore, strToInt64_decimal hd]
          exact hgiven
        · exact hs k' d' hscore
      · exact hs

theorem XDataBase.given_loadExpirationKeys {x : XDataBase} (hx : x.ScoresGiven given)
    {s : SortedSet} (hs : s.Given given) (limit : Int) :
    (x.loadExpirationKeys expireKey s limit).2.1.Given given ∧
      (x.loadExpirationKeys expireKey s limit).2.2.rows = x.rows := by
  rw [loadExpirationKeys, db_mk, RocksDB.newIterator_eq]
  split_ifs
  · exact ⟨hs, rfl⟩
  · refine ⟨given_loadLoop (fun r hr => ?_) _ _ _ _ hs, rfl⟩
    exact hx r.1 r.2 (OrderedMap.mem_rows.mp (List.dropWhile_subset _ hr))

variable (env : Env) (cfg : XConfig) {now : Int} {e : ExpireManager} {x : XDataBase}

theorem ExpireManager.attempts_expireFront (hw : e.sortSet.Given given) :
    Wrote ((Event.expireLoop now).Tries env cfg given false) x.rows (e.expireFront x now).2.rows ∧
      (e.expireFront x now).1.sortSet.Given given := by
  rw [expireFront]
  cases hfront : e.sortSet.front with
  | none => exact ⟨.refl, hw⟩
  | some i =>
      have hgiven := hw (ofLex i).2 (ofLex i).1 (SortedSet.score?_of_front hfront)
      simp only
      split_ifs with hdue
      · refine ⟨(XDataBase.wrote_del (.noValue ⟨rfl, _, hdue, hgiven⟩)).trans
          (XDataBase.wrote_zdel (fun _ => .noDeadline DataTypeFlag.kv_ne_zscore.symm)
            (.noDeadline DataTypeFlag.kv_ne_zset.symm)), fun k d hd => ?_⟩
        exact hw k d (SortedSet.score?_of_popFront hd)
      · exact ⟨.refl, hw⟩

/-- **An iteration of the expiry loop** only tries to take a key at a deadline that was given. -/
theorem ExpireManager.attempts_expireLoop (hx : x.ScoresGiven given) (hw : e.sortSet.Given given) :
    Wrote ((Event.expireLoop now).Tries env cfg given false) x.rows (e.expireLoop x now).2.rows ∧
      (e.expireLoop x now).1.sortSet.Given given := by
  rw [expireLoop]
  split_ifs
  · obtain ⟨hload, hrows⟩ := XDataBase.given_loadExpirationKeys hx hw BATCH_SIZE
    rw [ExpireManager.loadExpirationKeys]
    generalize x.loadExpirationKeys expireKey e.sortSet BATCH_SIZE = r at hload hrows
    obtain ⟨ret, w, x'⟩ := r
    cases hempty : w.empty with
    | true =>
        simp only [hempty, if_true]
        exact ⟨.of_eq hrows, hload⟩
    | false =>
        simp only [hempty, Bool.false_eq_true, if_false]
        have hfront : (⟨w, e.firstTimeout⟩ : ExpireManager).sortSet.Given given := hload
        obtain ⟨hwrote, hgiven⟩ := attempts_expireFront env cfg hfront
        exact ⟨(Wrote.of_eq hrows).trans hwrote, hgiven⟩
  · exact attempts_expireFront env cfg hw

end Expiry

/-! ### Incidents -/

/-- The outcomes of the calls to come are `faults`. -/
def XDataBase.withFaults (x : XDataBase) (faults : List Bool) : XDataBase :=
  { x with db := { x.db with faults } }

/-- The outcomes of the calls to come on the two databases. -/
def ServerState.withFaults (s : ServerState) (faults sysFaults : List Bool) : ServerState :=
  ⟨{ s.redis with xdb := s.redis.xdb.withFaults faults }, s.sysdb.withFaults sysFaults⟩

/-- The process is started again on its databases, with a new expiry manager and new ETag caches. -/
def ServerState.restart (s : ServerState) : ServerState :=
  ⟨{ xdb := { s.redis.xdb with xEtag := [] } }, { s.sysdb with xEtag := [] }⟩

/-- What an incident does, and what is answered. -/
def befall (env : Env) (cfg : XConfig) (s : ServerState) : Incident → Option Output × ServerState
  | .served faults sysFaults ev =>
      let r := step env cfg (s.withFaults faults sysFaults) ev
      (some r.1, r.2)
  | .killed faults sysFaults ev =>
      (none, (step env cfg (s.withFaults faults sysFaults) ev).2.restart)
  | .restarted => (none, s.restart)

/-- The databases hold what the cache has; rows of values can be listed, and the score rows and the
window have only deadlines that were given. -/
structure ServerState.Backs (s : ServerState) (c : LossyCache) : Prop where
  stored : ∀ sys k, (s.database sys).valueOf k = c.stored sys k
  fits : s.redis.xdb.RowsFit
  scores : s.redis.xdb.ScoresGiven c.given
  window : s.redis.expiremgr.sortSet.Given c.given

/-- What a `GET` is answered, whether or not its call fails. -/
theorem XRedisServer.doCmd_get {sv : XRedisServer} {cmd : Bytes}
    (hcmd : XRedisServer.getCmdProcessFun cmd = some .get) (now : Int) (key : Bytes) :
    (sv.doCmd now [cmd, key]).1 =
      if sv.xdb.fault 0 = true then []
      else [(sv.xdb.valueOf key).elim .null fun v => .bulk v.strValue] := by
  obtain ⟨hret, hval, -⟩ := sv.xdb.get_eq key
  rw [doCmd, hcmd]
  simp only [call, processCmdGet]
  generalize sv.xdb.get key = r at hret hval
  obtain ⟨ret, v, xdb⟩ := r
  simp only at hret hval
  by_cases hfault : sv.xdb.fault 0 = true
  · rw [if_pos hfault] at hret ⊢
    rw [hret]
  · rw [if_neg hfault] at hret ⊢
    cases hrow : sv.xdb.valueRow key with
    | none =>
        rw [hrow, if_pos rfl] at hret
        rw [hret, XDataBase.valueOf, hrow]
        rfl
    | some row =>
        rw [hrow, if_neg (Option.some_ne_none row)] at hret
        rw [hret, hval hret row hrow, XDataBase.valueOf, hrow]
        rfl

theorem XRedisServer.doCmd_set {sv : XRedisServer} {cmd : Bytes}
    (hcmd : XRedisServer.getCmdProcessFun cmd = some .set) (now : Int) (key val : Bytes) :
    sv.doCmd now [cmd, key, val] =
      ([.status (ascii "OK")], { sv with xdb := (sv.xdb.set now key val).2 }) := by
  rw [doCmd, hcmd]
  rfl

/-- What the command of a request for the value of a key is. -/
theorem Request.ofArgv_eq_get {argv : List Bytes} {key : Bytes}
    (h : Request.ofArgv argv = .get key) :
    ∃ cmd, argv = [cmd, key] ∧ XRedisServer.getCmdProcessFun cmd = some .get := by
  rcases argv with _ | ⟨cmd, args⟩
  · cases h
  rw [Request.ofArgv] at h
  cases hcb : XRedisServer.getCmdProcessFun cmd with
  | none =>
      rw [hcb] at h
      cases h
  | some cb =>
      rw [hcb] at h
      cases cb with
      | get =>
          rcases args with _ | ⟨key', _ | ⟨a, args⟩⟩
          · cases h
          · cases h
            exact ⟨cmd, rfl, hcb⟩
          · cases h
      | set =>
          rcases args with _ | ⟨key', _ | ⟨val, _ | ⟨ex, _ | ⟨secs, _ | ⟨a, args⟩⟩⟩⟩⟩
          · cases h
          · cases h
          · cases h
          · cases h
          · simp only [Request.ofCall, Request.ofSet] at h
            split_ifs at h
          · cases h
      | del => rcases args with _ | ⟨key', _ | ⟨a, args⟩⟩ <;> cases h
      | expire => rcases args with _ | ⟨key', _ | ⟨secs, _ | ⟨a, args⟩⟩⟩ <;> cases h
      | ttl => rcases args with _ | ⟨key', _ | ⟨a, args⟩⟩ <;> cases h
      | scan =>
          simp only [Request.ofCall, Request.ofScan] at h
          generalize XRedisServer.scanArgs (cmd :: args) = r at h
          rcases r with _ | ⟨start, stop, limit, _ | _⟩ <;> cases h
      | flushall => cases h

namespace ServerState.Backs

variable (env : Env) (cfg : XConfig) {s : ServerState} {c : LossyCache} {ev : Event}

/-- A new server backs the empty cache. -/
theorem fresh : freshServer.Backs {} where
  stored sys k := by cases sys <;> rfl
  fits k v hv := by cases hv
  scores r v hv := by cases hv
  window k d hd := by cases hd

/-- It is the rows that back the cache, and the window. -/
theorem of_rows (h : s.Backs c) {s' : ServerState}
    (hrows : ∀ sys, (s'.database sys).rows = (s.database sys).rows)
    (hwindow : s'.redis.expiremgr.sortSet.Given c.given) : s'.Backs c where
  stored sys k := by
    rw [← h.stored, XDataBase.valueOf, XDataBase.valueOf, XDataBase.valueRow, XDataBase.valueRow,
      hrows]
  fits k v hv := by
    have hrow : s'.redis.xdb.rows = s.redis.xdb.rows := hrows false
    rw [XDataBase.valueRow, hrow] at hv
    exact h.fits k v hv
  scores r v hv := by
    have hrow : s'.redis.xdb.rows = s.redis.xdb.rows := hrows false
    rw [hrow] at hv
    exact h.scores r v hv
  window := hwindow

theorem withFaults (h : s.Backs c) (faults sysFaults : List Bool) :
    (s.withFaults faults sysFaults).Backs c :=
  h.of_rows (fun sys => by cases sys <;> rfl) h.window

theorem restart (h : s.Backs c) : s.restart.Backs c := by
  refine h.of_rows (fun sys => by cases sys <;> rfl) ?_
  intro k d hd
  cases hd

/-- **The step**: an event only tries the writes that it may try. -/
theorem wrote_step (h : s.Backs c) (hev : ev.Proper) (sys : Bool) :
    Wrote (ev.Tries env cfg c.given sys) (s.database sys).rows
      ((step env cfg s ev).2.database sys).rows := by
  cases ev with
  | redis now argv =>
      cases sys with
      | true => exact .refl
      | false =>
          refine (XRedisServer.attempts_doCmd h.fits hev.2).rows.mono fun w hw => ?_
          exact hw.mono (fun _ _ hputs => ⟨rfl, hputs⟩) (fun _ hdel => ⟨rfl, hdel⟩)
            (List.subset_append_left _ _)
  | http now req => exact wrote_handle s hev sys
  | expireLoop now =>
      cases sys with
      | true => exact .refl
      | false => exact (ExpireManager.attempts_expireLoop env cfg h.scores h.window).1

theorem window_step (h : s.Backs c) (hev : ev.Proper) :
    (step env cfg s ev).2.redis.expiremgr.sortSet.Given (ev.gives ++ c.given) := by
  intro k d hd
  rw [List.mem_append]
  cases ev with
  | redis now argv =>
      rcases (XRedisServer.attempts_doCmd h.fits hev.2).window k d hd with hgiven | hd
      · exact Or.inl hgiven
      · exact Or.inr (h.window k d hd)
  | http now req => exact Or.inr (h.window k d hd)
  | expireLoop now =>
      exact Or.inr ((ExpireManager.attempts_expireLoop env cfg h.scores h.window).2 k d hd)

/-- **Each event** does what the lossy cache allows, whichever calls fail. -/
theorem serves (h : s.Backs c) (hev : ev.Proper) :
    ∃ c', LossyCache.Serves env cfg c ev (step env cfg s ev).1 c' ∧
      (step env cfg s ev).2.Backs c' := by
  have hwrote := h.wrote_step env cfg hev
  have hscores : s.redis.xdb.ScoresGiven (ev.gives ++ c.given) := fun r v hv hr => by
    obtain ⟨k, d, hmem, hrow⟩ := h.scores r v hv hr
    exact ⟨k, d, List.mem_append_right _ hmem, hrow⟩
  refine ⟨⟨fun sys k => ((step env cfg s ev).2.database sys).valueOf k, ev.gives ++ c.given⟩,
    ?_, ?_⟩
  · refine ⟨fun sys k => ?_, rfl, ?_⟩
    · rw [← h.stored]
      exact Tries.valueOf_cases (hwrote sys) k
    · rintro now argv key rfl hreq
      obtain ⟨cmd, rfl, hcmd⟩ := Request.ofArgv_eq_get hreq
      have hout : (step env cfg s (.redis now [cmd, key])).1 =
          .replies (s.redis.doCmd now [cmd, key]).1 := rfl
      have hvalue : s.redis.xdb.valueOf key = c.stored false key := h.stored false key
      rw [hout, XRedisServer.doCmd_get hcmd now key, hvalue]
      split_ifs
      · exact Or.inl rfl
      · exact Or.inr rfl
  · exact ⟨fun _ _ => rfl, Tries.rowsFit (hwrote false) h.fits,
      Tries.scoresGiven (hwrote false) hscores, h.window_step env cfg hev⟩

/-- **Each incident** is one of the lossy cache. -/
theorem befalls (h : s.Backs c) {i : Incident} (hi : i.Of Event.Proper) :
    ∃ c', LossyCache.Step env cfg c i (befall env cfg s i).1 c' ∧
      (befall env cfg s i).2.Backs c' := by
  cases i with
  | served faults sysFaults ev =>
      obtain ⟨c', hserves, hbacks⟩ := (h.withFaults faults sysFaults).serves env cfg hi
      exact ⟨c', .served hserves, hbacks⟩
  | killed faults sysFaults ev =>
      obtain ⟨c', hserves, hbacks⟩ := (h.withFaults faults sysFaults).serves env cfg hi
      exact ⟨c', .killed hserves, hbacks.restart⟩
  | restarted => exact ⟨c, .restarted, h.restart⟩

/-- A `SET` whose `Put` succeeds stores the value, and gives no deadline. -/
theorem set_served (h : s.Backs c) {cmd k v : Bytes} {now : Int} {faults : List Bool}
    (hcmd : XRedisServer.getCmdProcessFun cmd = some .set) (hput : faults.headD false = false)
    (hev : (Event.redis now [cmd, k, v]).Proper) (hun : c.Unarmed k) (sysFaults : List Bool) :
    ∃ c', (befall env cfg s (.served faults sysFaults (.redis now [cmd, k, v]))).2.Backs c' ∧
      c'.Unarmed k ∧ c'.stored false k = some ⟨getCurrentTime now, v⟩ := by
  obtain ⟨c', hserves, hbacks⟩ := (h.withFaults faults sysFaults).serves env cfg hev
  have hreq : Request.ofArgv [cmd, k, v] = .set k v := by
    rw [Request.ofArgv, hcmd]
    rfl
  refine ⟨c', hbacks, hserves.unarmed (fun harms => ?_) hun, ?_⟩
  · rw [Event.Arms, hreq] at harms
    exact harms
  · rw [← hbacks.stored false k]
    refine (congrArg (fun r : List Reply × XRedisServer => r.2.xdb.valueOf k)
      (XRedisServer.doCmd_set hcmd now k v)).trans ?_
    rw [XDataBase.valueOf_set_any, XDataBase.fault, ← headD_eq_fails]
    exact if_neg (Bool.eq_false_iff.mp hput)

theorem run_lossy (h : s.Backs c) {is : List Incident} (his : ∀ i ∈ is, i.Of Event.Proper) :
    ∃ c', Traces (LossyCache.Step env cfg) c is (run (befall env cfg) s is).1 c' ∧
      (run (befall env cfg) s is).2.Backs c' :=
  exists_traces (fun _ _ _ hi h => h.befalls env cfg hi) his h

end ServerState.Backs

/-! ### Runs with failures and restarts -/

/-- **With failures and restarts, the server is a lossy cache**: whichever calls of RocksDB fail, and
whenever the process dies and is started again, each event does for each key what it is asked to or
nothing, expiry takes a key only at a deadline that it was given, and a `GET` is answered with what is
stored or not at all. -/
theorem failing_server_refines (env : Env) (cfg : XConfig) {is : List Incident}
    (his : ∀ i ∈ is, i.Of Event.Proper) :
    ∃ c, Traces (LossyCache.Step env cfg) {} is (run (befall env cfg) freshServer is).1 c ∧
      (run (befall env cfg) freshServer is).2.Backs c :=
  ServerState.Backs.fresh.run_lossy env cfg his

/-- A `SET .. EX` whose last `Put` fails, in the middle of which the process dies, and expiry after it
is started again. -/
theorem failing_server_refines_run :
    let is : List Incident :=
      [.killed [false, false, false, true] []
          (.redis 0 [ascii "SET", ascii "k", ascii "v", ascii "EX", ascii "5"]),
        .served [] [] (.redis 1000 [ascii "GET", ascii "k"]), .served [] [] (.expireLoop 6000),
        .served [true] [] (.redis 7000 [ascii "GET", ascii "k"]),
        .served [] [] (.redis 8000 [ascii "GET", ascii "k"])]
    ∃ c, Traces (LossyCache.Step plainEnv {}) {} is
      [none, some (.replies [.bulk (ascii "v")]), some .silent, some (.replies []),
        some (.replies [.null])] c := by
  intro is
  have his : ∀ i ∈ is, i.Of Event.Proper := by
    refine List.forall_mem_cons.mpr ⟨⟨by decide, by decide, by decide⟩, ?_⟩
    refine List.forall_mem_cons.mpr ⟨⟨by decide, by decide, by decide⟩, ?_⟩
    refine List.forall_mem_cons.mpr ⟨trivial, ?_⟩
    refine List.forall_mem_cons.mpr ⟨⟨by decide, by decide, by decide⟩, ?_⟩
    exact List.forall_mem_singleton.mpr ⟨by decide, by decide, by decide⟩
  obtain ⟨c, htrace, -⟩ := failing_server_refines plainEnv {} his
  exact ⟨c, htrace⟩

/-- **What is stored was stored**: whichever calls fail and whenever the process dies, the value of a
key is one that an event was to store under that key. -/
theorem stored_value_written (env : Env) (cfg : XConfig) {is : List Incident}
    (his : ∀ i ∈ is, i.Of Event.Proper) (sys : Bool) {k : Bytes} {v : XValue}
    (hv : ((run (befall env cfg) freshServer is).2.database sys).valueOf k = some v) :
    ∃ i ∈ is, i.Puts env cfg sys k v := by
  obtain ⟨c, htrace, hbacks⟩ := ServerState.Backs.fresh.run_lossy env cfg his
  rw [hbacks.stored] at hv
  rcases LossyCache.stored_written htrace hv with hk | hputs
  · cases hk
  · exact hputs

/-- `k` holds the value of the first `SET`, for the second one died before its `Put`. -/
theorem stored_value_written_run :
    let is : List Incident := [.served [] [] (.redis 1 [ascii "SET", ascii "k", ascii "v"]),
      .killed [true] [] (.redis 2 [ascii "SET", ascii "k", ascii "w"])]
    ∃ i ∈ is, i.Puts plainEnv {} false (ascii "k") ⟨1, ascii "v"⟩ := by
  intro is
  have his : ∀ i ∈ is, i.Of Event.Proper := by
    refine List.forall_mem_cons.mpr ⟨⟨by decide, by decide, by decide⟩, ?_⟩
    exact List.forall_mem_singleton.mpr ⟨by decide, by decide, by decide⟩
  exact stored_value_written plainEnv {} his false rfl

/-- **A value that is stored survives**: once the `Put` of a `SET` has succeeded for a key that was
never given a deadline, the value is there, and a `GET` whose call succeeds is answered with it, after
any events that are not about the key, whichever of their calls fail and however often the process
dies. -/
theorem stored_value_survives (env : Env) (cfg : XConfig) {before after : List Incident}
    {cmd k v : Bytes} {now : Int} {faults sysFaults : List Bool}
    (hcmd : XRedisServer.getCmdProcessFun cmd = some .set) (hput : faults.headD false = false)
    (hproper : ∀ i ∈ before ++ .served faults sysFaults (.redis now [cmd, k, v]) :: after,
      i.Of Event.Proper)
    (hbefore : ∀ i ∈ before, i.Of fun ev => ¬ ev.Arms k)
    (hafter : ∀ i ∈ after, i.Of (Event.Spares k)) :
    let s := (run (befall env cfg) freshServer
      (before ++ .served faults sysFaults (.redis now [cmd, k, v]) :: after)).2
    s.redis.xdb.valueOf k = some ⟨getCurrentTime now, v⟩ ∧
      ∀ t cmd', XRedisServer.getCmdProcessFun cmd' = some .get →
        (befall env cfg s (.served [] [] (.redis t [cmd', k]))).1 = some (.replies [.bulk v]) := by
  intro s
  obtain ⟨hbef, hset⟩ := List.forall_mem_append.mp hproper
  obtain ⟨hset, haft⟩ := List.forall_mem_cons.mp hset
  -- before the `SET` the key has no deadline, after it the value, and what comes then spares it
  obtain ⟨c₁, htrace₁, hbacks₁⟩ := ServerState.Backs.fresh.run_lossy env cfg hbef
  have hun₁ : c₁.Unarmed k :=
    LossyCache.unarmed_of_not_arms htrace₁ hbefore fun _ => List.not_mem_nil
  obtain ⟨c₂, hbacks₂, hun₂, hstored⟩ := hbacks₁.set_served env cfg hcmd hput hset hun₁ sysFaults
  obtain ⟨c₃, htrace₃, hbacks₃⟩ := hbacks₂.run_lossy env cfg haft
  have hs : s = (run (befall env cfg) (befall env cfg (run (befall env cfg) freshServer before).2
      (.served faults sysFaults (.redis now [cmd, k, v]))).2 after).2 := by
    simp only [s, run_append, run_cons]
  have hvalue : s.redis.xdb.valueOf k = some ⟨getCurrentTime now, v⟩ := by
    rw [hs]
    exact (hbacks₃.stored false k).trans
      ((LossyCache.stored_of_spares htrace₃ hafter hun₂).trans hstored)
  refine ⟨hvalue, fun t cmd' hget => ?_⟩
  have hout : (befall env cfg s (.served [] [] (.redis t [cmd', k]))).1 =
      some (.replies ((s.withFaults [] []).redis.doCmd t [cmd', k]).1) := rfl
  have hsame : (s.withFaults [] []).redis.xdb.valueOf k = s.redis.xdb.valueOf k := rfl
  rw [hout, XRedisServer.doCmd_get hget, hsame, hvalue]
  rfl

/-- `k` is stored, and the process dies twice, once while it deletes another key. -/
theorem stored_value_survives_run :
    let is : List Incident :=
      [.served [false, true] [] (.redis 1 [ascii "SET", ascii "k", ascii "v"]), .restarted,
        .killed [true] [] (.redis 2 [ascii "DEL", ascii "j"]), .served [] [] (.expireLoop 3)]
    (run (befall plainEnv {}) freshServer is).2.redis.xdb.valueOf (ascii "k") =
      some ⟨1, ascii "v"⟩ := by
  intro is
  have hproper : ∀ i ∈ is, i.Of Event.Proper := by
    refine List.forall_mem_cons.mpr ⟨⟨by decide, by decide, by decide⟩, ?_⟩
    refine List.forall_mem_cons.mpr ⟨trivial, ?_⟩
    refine List.forall_mem_cons.mpr ⟨⟨by decide, by decide, by decide⟩, ?_⟩
    exact List.forall_mem_singleton.mpr trivial
  have hafter : ∀ i ∈ is.tail, i.Of (Event.Spares (ascii "k")) := by
    refine List.forall_mem_cons.mpr ⟨trivial, ?_⟩
    refine List.forall_mem_cons.mpr ⟨?_, List.forall_mem_singleton.mpr trivial⟩
    show ascii "j" ≠ ascii "k"
    decide
  exact (stored_value_survives plainEnv {} rfl rfl hproper (List.forall_mem_nil _) hafter).1

/-! ### Restarts alone -/

/-- What the cache may do in an event, or nothing when the process is started again. -/
inductive Cache.Life (env : Env) (cfg : XConfig) (c : Cache) :
    Option Event → Option Output → Cache → Prop where
  | event {ev : Event} {o : Output} {c' : Cache} (h : c.Step env cfg ev o c') :
      Life env cfg c (some ev) (some o) c'
  | restart : Life env cfg c none none c

/-- An event, or a restart. -/
def live (env : Env) (cfg : XConfig) (s : ServerState) : Option Event → Option Output × ServerState
  | some ev => ((step env cfg s ev).1, (step env cfg s ev).2)
  | none => (none, s.restart)

/-- The window that is lost has nothing that is not recorded. -/
theorem ServerState.Represents.restart {s : ServerState} {c : Cache} (h : s.Represents c) :
    s.restart.Represents c where
  values := h.values.congr h.values.healthy fun _ => rfl
  sys := h.sys.congr h.sys.healthy fun _ => rfl
  recorded := ⟨h.recorded.healthy, h.recorded.index, h.recorded.fits⟩
  scheduled :=
    { recorded := h.scheduled.recorded
      window := fun _ _ hd => by cases hd
      agrees := fun _ _ _ hd => by cases hd }

/-- **Restarts lose nothing** when no call fails: with the process started again between any two
events, the server is the cache still, with all its values and deadlines. -/
theorem restarted_server_refines (env : Env) (cfg : XConfig) {es : List (Option Event)}
    (hes : ∀ ev, some ev ∈ es → ev.Proper) :
    ∃ c, Traces (Cache.Life env cfg) {} es (run (live env cfg) freshServer es).1 c ∧
      (run (live env cfg) freshServer es).2.Represents c := by
  have hes' : ∀ e ∈ es, ∀ ev, e = some ev → ev.Proper := fun e he ev hev => hes ev (hev ▸ he)
  refine exists_traces (fun s c e hok h => ?_) hes' represents_fresh
  cases e with
  | none => exact ⟨c, .restart, h.restart⟩
  | some ev =>
      obtain ⟨c', hstep, hrep⟩ := h.step_cache (hok ev rfl)
      exact ⟨c', .event hstep, hrep⟩

/-- A key that is stored for five seconds is there after a restart, and goes when its time has
come. -/
theorem restarted_server_refines_run :
    let es : List (Option Event) :=
      [some (.redis 0 [ascii "SET", ascii "k", ascii "v", ascii "EX", ascii "5"]), none,
        some (.redis 1000 [ascii "TTL", ascii "k"]), some (.expireLoop 6000), none,
        some (.redis 7000 [ascii "GET", ascii "k"])]
    ∃ c, Traces (Cache.Life plainEnv {}) {} es
      [some (.replies [.status (ascii "OK")]), none, some (.replies [.int 4]), some .silent, none,
        some (.replies [.null])] c := by
  intro es
  have hes : ∀ ev, some ev ∈ es → ev.Proper := by
    intro ev hev
    simp only [es, List.mem_cons, Option.some.injEq, reduceCtorEq, List.not_mem_nil, false_or,
      or_false] at hev
    rcases hev with rfl | rfl | rfl | rfl
    · exact ⟨by decide, by decide, by decide⟩
    · exact ⟨by decide, by decide, by decide⟩
    · exact trivial
    · exact ⟨by decide, by decide, by decide⟩
  obtain ⟨c, htrace, -⟩ := restarted_server_refines plainEnv {} hes
  exact ⟨c, htrace⟩

end XHttpCache
