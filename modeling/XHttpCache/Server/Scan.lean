import XHttpCache.Http.Backend
import XHttpCache.Store.Scan

/-!
# Server — scans

`SCAN` and the `/scan` of the backend list the keys that `ScanKey` finds, and `SCAN .. DEL` deletes
them.

* `scan_exact_iff`: a scan is exact if the rows of its keys have sizes that are `int`s; so is a
  `SCAN .. DEL`, unless its end is the word `limit`, which makes it a scan with a limit.
* `open_scan_iff`: a scan without an end ends before the key of one byte 255, and so do the keys it
  lists; `/scan` also cuts each at its first NUL, and reads its limit by `atoi`.
-/

namespace XHttpCache
open Support

/-! ### From a key to another -/

variable {sv : XRedisServer} {x : XDataBase} {start stop : Bytes}

/-- The keys from `start` to before `stop` are deleted and counted, and no other row changes. -/
structure DeletesRange (sv : XRedisServer) (start stop : Bytes) (r : List Reply × XRedisServer) :
    Prop where
  reply : r.1 = [.int (sv.xdb.keysIn start stop).length]
  gone : ∀ k, start ≤ k → k < stop → r.2.xdb.valueRow k = none
  rest : ∀ row, (∀ k, start ≤ k → k < stop → row ≠ encodeKey (.string k)) →
    r.2.xdb.rows.get row = sv.xdb.rows.get row

/-- **What a `SCAN` does** with what it finds. -/
theorem doCmd_scan (h : sv.xdb.Healthy) {cmd : Bytes} {args : List Bytes}
    (hcmd : XRedisServer.getCmdProcessFun cmd = some .scan) {limit : Int} {del : Bool}
    (hargs : XRedisServer.scanArgs (cmd :: args) = some (start, stop, limit, del)) (now : Int) :
    let keys := (sv.xdb.scanKey start stop limit).2.1
    sv.doCmd now (cmd :: args) =
      if del then
        ([.int keys.length],
          { sv with xdb := keys.foldl (fun xdb key => (xdb.del key).2) sv.xdb })
      else ([.multiBulk keys], sv) := by
  intro keys
  have hdo : sv.doCmd now (cmd :: args) = sv.processCmdScan (cmd :: args) := by
    rw [XRedisServer.doCmd, hcmd]
    rfl
  have hscan : sv.xdb.scanKey start stop limit = (.ok, keys, sv.xdb) := by
    simp only [keys, XDataBase.scanKey_keysIn h]
  rw [hdo, XRedisServer.processCmdScan, hargs]
  simp only [hscan]
  rw [if_neg (by decide)]

theorem deletesRange_iff (h : sv.xdb.Healthy) {cmd del : Bytes}
    (hcmd : XRedisServer.getCmdProcessFun cmd = some .scan)
    (hdel : strcasecmpEq (ascii "del") del = true) (now : Int)
    (hcount : (sv.xdb.keysIn start stop).length < 2 ^ 31 - 1) :
    DeletesRange sv start stop (sv.doCmd now [cmd, start, stop, del]) ↔
      strcasecmpEq (ascii "limit") stop = false ∧
        ∀ k ∈ sv.xdb.keysIn start stop, XDataBase.RowFits k := by
  cases hstop : strcasecmpEq (ascii "limit") stop with
  | true =>
      -- it is a scan with a limit, and lists
      refine iff_of_false (fun hd => ?_) (fun hc => Bool.noConfusion hc.1)
      have hargs : XRedisServer.scanArgs [cmd, start, stop, del] =
          some (start, [255], atoi del, false) := by
        rw [XRedisServer.scanArgs, hstop]
        rfl
      have hreply := hd.reply
      rw [doCmd_scan h hcmd hargs] at hreply
      cases hreply
  | false =>
      have hmax : INT_MAX.toNat = 2 ^ 31 - 1 := rfl
      have hall : (sv.xdb.keysIn start stop).take INT_MAX.toNat = sv.xdb.keysIn start stop :=
        List.take_of_length_le (by omega)
      have hexact := XDataBase.scanKey_exact_iff h start stop INT_MAX
      rw [hall] at hexact
      have hargs : XRedisServer.scanArgs [cmd, start, stop, del] =
          some (start, stop, INT_MAX, true) := by
        rw [XRedisServer.scanArgs, hstop, hdel]
        rfl
      rw [doCmd_scan h hcmd hargs, if_pos rfl, ← hexact]
      have hget := (XDataBase.get_foldl_del (sv.xdb.scanKey start stop INT_MAX).2.1 h).2
      refine ⟨fun hd => ⟨rfl, hexact.mpr fun k hk => ?_⟩, fun hc => ?_⟩
      · obtain ⟨hv, hlo, hhi⟩ := XDataBase.mem_keysIn.mp hk
        have hgone := hd.gone k hlo hhi
        rw [XDataBase.valueRow, hget] at hgone
        split_ifs at hgone with hm
        · obtain ⟨k', hk', he⟩ := List.mem_map.mp hm
          rw [← encodeKey_string_inj.mp he]
          exact XDataBase.rowFits_of_mem_scanKey h hk'
        · exact absurd hgone hv
      · rw [hc.2] at hget ⊢
        refine ⟨rfl, fun k hlo hhi => ?_, fun row hrow => ?_⟩
        · rw [XDataBase.valueRow, hget]
          split_ifs with hm
          · rfl
          · by_contra hv
            exact hm (List.mem_map.mpr ⟨k, XDataBase.mem_keysIn.mpr ⟨hv, hlo, hhi⟩, rfl⟩)
        · rw [hget, if_neg fun hm => ?_]
          obtain ⟨k, hk, he⟩ := List.mem_map.mp hm
          obtain ⟨-, hlo, hhi⟩ := XDataBase.mem_keysIn.mp hk
          exact hrow k hlo hhi he.symm

/-- **Scan is exact** if and only if the rows of the keys have sizes that are `int`s and, for
`SCAN .. DEL`, the end is not the word `limit`. -/
theorem scan_exact_iff (h : sv.xdb.Healthy) (start stop : Bytes) :
    let keys := sv.xdb.keysIn start stop
    (keys.Pairwise (· < ·) ∧
        ∀ k, k ∈ keys ↔ sv.xdb.valueRow k ≠ none ∧ start ≤ k ∧ k < stop) ∧
      (∀ limit : Int, (sv.xdb.scanKey start stop limit).1 = .ok ∧
        ((sv.xdb.scanKey start stop limit).2.1 = keys.take limit.toNat ↔
          ∀ k ∈ keys.take limit.toNat, XDataBase.RowFits k)) ∧
      ∀ now cmd del, XRedisServer.getCmdProcessFun cmd = some .scan →
        strcasecmpEq (ascii "del") del = true → keys.length < 2 ^ 31 - 1 →
          (DeletesRange sv start stop (sv.doCmd now [cmd, start, stop, del]) ↔
            strcasecmpEq (ascii "limit") stop = false ∧ ∀ k ∈ keys, XDataBase.RowFits k) := by
  intro keys
  refine ⟨⟨sv.xdb.sorted_keysIn start stop, fun k => XDataBase.mem_keysIn⟩, fun limit => ⟨?_, ?_⟩,
    fun now cmd del hcmd hdel hcount => deletesRange_iff h hcmd hdel now hcount⟩
  · rw [XDataBase.scanKey_keysIn h]
  · exact XDataBase.scanKey_exact_iff h start stop limit

/-- A server with three keys. -/
def threeKeys : XRedisServer :=
  let set (sv : XRedisServer) (k : Bytes) := (sv.doCmd 0 [ascii "SET", k, ascii "v"]).2
  [ascii "a", ascii "b", ascii "c"].foldl set ⟨⟨⟨.empty, []⟩, false, []⟩, {}⟩

/-- `SCAN a c DEL` deletes two of three keys. -/
theorem scan_exact_three :
    DeletesRange threeKeys (ascii "a") (ascii "c")
      (threeKeys.doCmd 0 [ascii "SCAN", ascii "a", ascii "c", ascii "DEL"]) :=
  ((scan_exact_iff (show threeKeys.xdb.Healthy from rfl) (ascii "a") (ascii "c")).2.2 0
    (ascii "SCAN") (ascii "DEL") (by decide) (by decide) (by decide)).mpr ⟨by decide, by decide⟩

/-- `SCAN a limit DEL` lists no key, where it should delete three. -/
theorem scan_limit_deletes_nothing :
    let r := threeKeys.doCmd 0 [ascii "SCAN", ascii "a", ascii "limit", ascii "DEL"]
    threeKeys.xdb.keysIn (ascii "a") (ascii "limit") = [ascii "a", ascii "b", ascii "c"] ∧
      r.1 = [.multiBulk []] ∧ r.2.xdb.kvKeys = [ascii "a", ascii "b", ascii "c"] := by
  decide

/-! ### Without an end -/

/-- Every key from `start` on is among `l`. -/
def ListsFrom (x : XDataBase) (start : Bytes) (l : List Bytes) : Prop :=
  ∀ k, x.valueRow k ≠ none → start ≤ k → k ∈ l

theorem le_of_isPrefix {k w : Bytes} (h : k <+: w) : k ≤ w := by
  obtain ⟨t, rfl⟩ := h
  refine not_lt.mp fun hlt => ?_
  induction k with
  | nil => exact List.not_lt_nil _ hlt
  | cons c k ih =>
      rw [List.cons_append, List.cons_lt_cons_iff] at hlt
      exact hlt.elim (lt_irrefl c) fun hlt => ih hlt.2

/-- What is listed is the beginning of a key within the limit. -/
theorem isPrefix_of_mem_scanKey (h : x.Healthy) {limit : Int} {v : Bytes}
    (hv : v ∈ (x.scanKey start stop limit).2.1) :
    ∃ w ∈ (x.keysIn start stop).take limit.toNat, v <+: w := by
  rw [XDataBase.scanKey_keysIn h] at hv
  generalize (x.keysIn start stop).take limit.toNat = keys at hv ⊢
  cases keys with
  | nil => cases hv
  | cons k keys =>
      have hnil : ∃ w ∈ k :: keys, [] <+: w := ⟨k, List.mem_cons_self, List.nil_prefix⟩
      exact @XDataBase.decodeRows_inv (fun v => ∃ w ∈ k :: keys, v <+: w) _
        (fun w hw m _ => ⟨w, hw, List.take_prefix m w⟩) {} hnil v hv

/-- **A scan from `first` lists every key from `start` on**, each cut by `cut`, exactly if they come
before its end, fit and are not cut, and are not beyond its limit. -/
theorem listsFrom_scanKey_iff (h : x.Healthy) {first : Bytes} (hle : first ≤ start)
    {cut : Bytes → Bytes} (hcut : ∀ v, cut v <+: v ∧ cut (cut v) = cut v) (stop : Bytes)
    (limit : Int) :
    ListsFrom x start ((x.scanKey first stop limit).2.1.map cut) ↔
      (∀ k ∈ x.kvKeys, start ≤ k → k < stop ∧ XDataBase.RowFits k ∧ cut k = k) ∧
        (x.keysIn start stop = [] ∨ (x.keysIn first stop).length ≤ limit.toNat) := by
  have hsorted : ∀ a ∈ (x.keysIn first stop).take limit.toNat,
      ∀ b ∈ (x.keysIn first stop).drop limit.toNat, a < b := by
    have hs := x.sorted_keysIn first stop
    rw [← List.take_append_drop limit.toNat (x.keysIn first stop)] at hs
    exact (List.pairwise_append.mp hs).2.2
  constructor
  · intro hl
    have hkey : ∀ k, x.valueRow k ≠ none → start ≤ k →
        (k < stop ∧ XDataBase.RowFits k ∧ cut k = k) ∧
          k ∈ (x.keysIn first stop).take limit.toNat := by
      intro k hv hs
      obtain ⟨v, hscan, rfl⟩ := List.mem_map.mp (hl k hv hs)
      obtain ⟨w, hw, hvw⟩ := isPrefix_of_mem_scanKey h hscan
      have hkw : cut v ≤ w := le_of_isPrefix ((hcut v).1.trans hvw)
      have hstop : cut v < stop :=
        lt_of_le_of_lt hkw (XDataBase.mem_keysIn.mp (List.mem_of_mem_take hw)).2.2
      have hfits : XDataBase.RowFits (cut v) := by
        have hlen := (hcut v).1.length_le
        have hfits := XDataBase.rowFits_of_mem_scanKey h hscan
        rw [XDataBase.RowFits, encodeKey, List.length_cons] at hfits ⊢
        omega
      have hmem : cut v ∈ x.keysIn first stop :=
        XDataBase.mem_keysIn.mpr ⟨hv, hle.trans hs, hstop⟩
      rw [← List.take_append_drop limit.toNat (x.keysIn first stop)] at hmem
      refine ⟨⟨hstop, hfits, (hcut v).2⟩, (List.mem_append.mp hmem).resolve_right fun hdrop => ?_⟩
      exact absurd (hsorted w hw _ hdrop) (not_lt.mpr hkw)
    refine ⟨fun k hk hs => (hkey k (XDataBase.mem_kvKeys.mp hk) hs).1, ?_⟩
    by_cases hnil : x.keysIn start stop = []
    · exact Or.inl hnil
    -- a key beyond the limit comes after one from `start` on
    · refine Or.inr (not_lt.mp fun hlt => ?_)
      obtain ⟨k, hk⟩ := List.exists_mem_of_ne_nil _ hnil
      obtain ⟨hv, hs, -⟩ := XDataBase.mem_keysIn.mp hk
      obtain ⟨m, hm⟩ := List.exists_mem_of_ne_nil ((x.keysIn first stop).drop limit.toNat)
        (fun hnil => absurd (List.drop_eq_nil_iff.mp hnil) (not_le.mpr hlt))
      have hkm := hsorted k (hkey k hv hs).2 m hm
      have hmv := (XDataBase.mem_keysIn.mp (List.mem_of_mem_drop hm)).1
      exact lt_irrefl m (hsorted m (hkey m hmv (hs.trans hkm.le)).2 m hm)
  · rintro ⟨hall, hcount⟩ k hv hs
    obtain ⟨hstop, hfits, hself⟩ := hall k (XDataBase.mem_kvKeys.mpr hv) hs
    have hk : k ∈ x.keysIn start stop := XDataBase.mem_keysIn.mpr ⟨hv, hs, hstop⟩
    have hlen := hcount.resolve_left (List.ne_nil_of_mem hk)
    have hmem : k ∈ x.keysIn first stop := XDataBase.mem_keysIn.mpr ⟨hv, hle.trans hs, hstop⟩
    rw [XDataBase.scanKey_keysIn h, List.take_of_length_le hlen]
    exact List.mem_map.mpr ⟨k, XDataBase.mem_decodeRows hmem hfits {}, hself⟩

/-- The query `key=start&limit=n`. -/
def scanQuery (start : Bytes) (n : Nat) : List (Bytes × Option Bytes) :=
  [(ascii "key", some start), (ascii "limit", some (natDecimal n))]

/-- What `/scan` sends. -/
theorem handle_scan (h : x.Healthy) {env : Env} {cfg : XConfig} {req : EvhtpRequest}
    (hroute : env.route req.full = .keyScan) (hauth : checkAuth env cfg req = true) {n : Nat}
    (hquery : req.query = scanQuery start n) (now : Int) (sysdb : XDataBase) :
    (handle env cfg now req ⟨x, sysdb⟩).response =
      sendHttpResphone [(ascii "Content-Type", ascii "text/json; charset=UTF-8")]
        (fastWrite (.appended (x.scanKey (cstr start) [255] (atoi (natDecimal n))).2.1)) := by
  have hfind : ∀ arg, uriArgFind req arg =
      ((if arg.isPrefixOf (ascii "key") = true ∧ start.length > 0 then some (cstr start)
          else none).or
        (if arg.isPrefixOf (ascii "limit") = true ∧ (natDecimal n).length > 0 then
          some (cstr (natDecimal n)) else none)) := by
    intro arg
    have hk : cstr (ascii "key") = ascii "key" := by decide
    have hl : cstr (ascii "limit") = ascii "limit" := by decide
    rw [uriArgFind, hquery, scanQuery]
    simp only [List.findSome?_cons, List.findSome?_nil, hk, hl]
    split_ifs <;> rfl
  have hkey : (uriArgFind req (ascii "key")).getD [] = cstr start := by
    rw [hfind]
    cases start with
    | nil => rfl
    | cons c start => rfl
  have hlimit : uriArgFind req (ascii "limit") = some (cstr (natDecimal n)) := by
    have hpos := List.length_pos_of_ne_nil (natDecimal_ne_nil n)
    rw [hfind, if_neg fun h => absurd h.1 (by decide), if_pos ⟨by decide, hpos⟩]
    rfl
  have hdb : wantsSysdb req = false := by
    rw [wantsSysdb, hfind, if_neg fun h => absurd h.1 (by decide),
      if_neg fun h => absurd h.1 (by decide)]
    rfl
  have hatoi : atoi (cstr (natDecimal n)) = atoi (natDecimal n) := by
    rw [atoi, strtoll_cstr, atoi]
  rw [handle, hroute]
  simp only [keyScanCallback, hauth, Bool.not_true, Bool.false_eq_true, if_false, hkey, hlimit, hdb,
    Option.getD_some, hatoi, onDb, XDataBase.scanKey_keysIn h]
  rw [if_neg (by decide)]

/-- **An open-ended scan misses no key** exactly if every key from its start on comes before the key
of one byte 255, has a row that fits and, for `/scan`, holds no NUL, and the limit, for `/scan` as
`atoi` reads it, is not below the number of the keys. -/
theorem open_scan_iff (h : x.Healthy) (start : Bytes) :
    (∀ mgr now cmd, XRedisServer.getCmdProcessFun cmd = some .scan →
      ((∃ l, (XRedisServer.doCmd ⟨x, mgr⟩ now [cmd, start]).1 = [.multiBulk l] ∧
          ListsFrom x start l) ↔
        (∀ k ∈ x.kvKeys, start ≤ k → k < [255] ∧ XDataBase.RowFits k) ∧
          (x.keysIn start [255]).length ≤ INT_MAX)) ∧
      ∀ env cfg now sysdb req n, env.route req.full = .keyScan → checkAuth env cfg req = true →
        req.query = scanQuery start n → x.kvKeys.length < n →
          let r := (handle env cfg now req ⟨x, sysdb⟩).response
          ((r.status = EVHTP_RES_OK ∧ ∃ l, jsonStrings r.bufferOut = some l ∧ ListsFrom x start l) ↔
            (∀ k ∈ x.kvKeys, start ≤ k → k < [255] ∧ XDataBase.RowFits k ∧ 0 ∉ k) ∧
              (x.keysIn start [255] = [] ∨
                (x.keysIn (cstr start) [255]).length ≤ (atoi (natDecimal n)).toNat)) := by
  refine ⟨fun mgr now cmd hcmd => ?_, fun env cfg now sysdb req n hroute hauth hquery _ => ?_⟩
  · have hargs : XRedisServer.scanArgs [cmd, start] = some (start, [255], INT_MAX, false) := rfl
    have hiff := @listsFrom_scanKey_iff x start h start (le_refl _) id
      (fun v => ⟨List.prefix_refl v, rfl⟩) [255] INT_MAX
    rw [List.map_id] at hiff
    have hdo := @doCmd_scan ⟨x, mgr⟩ _ _ h _ _ hcmd _ _ hargs now
    have hmax : INT_MAX.toNat = 2 ^ 31 - 1 := rfl
    have hmax' : INT_MAX = 2 ^ 31 - 1 := rfl
    rw [hdo]
    constructor
    · rintro ⟨l, hl, hlist⟩
      cases hl
      obtain ⟨hall, hcount⟩ := hiff.mp hlist
      refine ⟨fun k hk hs => ⟨(hall k hk hs).1, (hall k hk hs).2.1⟩, ?_⟩
      rcases hcount with hnil | hle
      · rw [hnil]
        decide
      · omega
    · rintro ⟨hall, hcount⟩
      exact ⟨_, rfl, hiff.mpr ⟨fun k hk hs => ⟨(hall k hk hs).1, (hall k hk hs).2, rfl⟩,
        Or.inr (by omega)⟩⟩
  · have hcut : ∀ v, cstr v <+: v ∧ cstr (cstr v) = cstr v := fun v =>
      ⟨List.takeWhile_prefix _, List.takeWhile_idem⟩
    have hself : ∀ k, cstr k = k ↔ 0 ∉ k := by
      intro k
      rw [cstr, List.takeWhile_eq_self_iff]
      refine ⟨fun hk h0 => by simpa using hk 0 h0, fun h0 c hc => ?_⟩
      exact decide_eq_true fun hc0 => h0 (hc0 ▸ hc)
    have hiff := listsFrom_scanKey_iff h (le_of_isPrefix (hcut start).1) hcut [255]
      (atoi (natDecimal n))
    simp only [hself] at hiff
    rw [handle_scan h hroute hauth hquery, ← hiff]
    simp only [sendHttpResphone, jsonStrings_write, Option.some.injEq, exists_eq_left', true_and]

/-- `SCAN a` lists three keys, and so does `/scan?key=a&limit=100`. -/
theorem open_scan_three :
    let x := threeKeys.xdb
    let req : EvhtpRequest :=
      { method := .get, full := ascii "/scan", query := scanQuery (ascii "a") 100 }
    let r := (handle plainEnv {} 0 req ⟨x, x⟩).response
    (∃ l, (threeKeys.doCmd 0 [ascii "SCAN", ascii "a"]).1 = [.multiBulk l] ∧
        ListsFrom x (ascii "a") l) ∧
      r.status = EVHTP_RES_OK ∧
        ∃ l, jsonStrings r.bufferOut = some l ∧ ListsFrom x (ascii "a") l := by
  intro x req r
  have h : x.Healthy := rfl
  exact ⟨((open_scan_iff h (ascii "a")).1 _ 0 (ascii "SCAN") (by decide)).mpr
      ⟨by decide, by decide⟩,
    ((open_scan_iff h (ascii "a")).2 plainEnv {} 0 x req 100 (by decide) (by decide) rfl
      (by decide)).mpr ⟨by decide, by decide⟩⟩

/-- A key that starts with the byte 255 is not listed, and one with a NUL not by `/scan`. -/
theorem open_scan_misses :
    let set (x : XDataBase) (k : Bytes) := (x.set 0 k []).2
    let x := set (set ⟨⟨.empty, []⟩, false, []⟩ [255, 1]) [97, 0, 98]
    let req : EvhtpRequest := { method := .get, full := ascii "/scan", query := scanQuery [97] 100 }
    x.kvKeys = [[97, 0, 98], [255, 1]] ∧
      (XRedisServer.doCmd ⟨x, {}⟩ 0 [ascii "SCAN", ascii "a"]).1 = [.multiBulk [[97, 0, 98]]] ∧
      (handle plainEnv {} 0 req ⟨x, x⟩).response.bufferOut = ascii "[\"a\"]\n" := by
  decide

end XHttpCache
