import XHttpCache.Store.Keys
import XHttpCache.Store.SortedSet

/-!
# Store — `xDataBase`

`src/xDataBase.cpp` over RocksDB.  RocksDB is a byte-string map in unsigned lexicographic key
order (`rows`) whose calls may fail: `faults` says of the calls to come, in turn, whether each
fails, and a failing call has no effect.  With `faults = []` every call succeeds; an iterator
reads the rows as they are when it is made.

`xEtag` is the list of the calls the ETag manager has received; the database makes one per
`Set` and successful `Get` when `bEtag` is set.

The second half gives, for a RocksDB whose calls succeed, what each operation returns and the
rows it leaves: `set_spec`, `get_spec`, `del_spec`, `zget_spec`, `zset_same` and `zset_write`,
`zdel_absent` and `zdel_present`, `flushall_spec`, `loadExpirationKeys_spec`.  Later modules use
these and unfold no operation.
-/

namespace XHttpCache
open Support

/-! ### RocksDB -/

/-- `rocksdb::Status`, as far as its users tell its values apart. -/
inductive Status where
  | ok
  | notFound
  | error
  deriving DecidableEq

/-- A RocksDB database, with the outcomes of the calls to come (`true` for a failure). -/
structure RocksDB where
  rows : OrderedMap Bytes Bytes
  faults : List Bool := []

namespace RocksDB

/-- Whether the next call fails, and the database after it if it does. -/
def call (db : RocksDB) : Bool × RocksDB :=
  (db.faults.headD false, { db with faults := db.faults.tail })

/-- `DB::Put`. -/
def put (db : RocksDB) (key value : Bytes) : Status × RocksDB :=
  match db.call with
  | (true, db) => (.error, db)
  | (false, db) => (.ok, { db with rows := db.rows.insert key value })

/-- `DB::Delete`.  Deleting a key that is not there succeeds. -/
def delete (db : RocksDB) (key : Bytes) : Status × RocksDB :=
  match db.call with
  | (true, db) => (.error, db)
  | (false, db) => (.ok, { db with rows := db.rows.erase key })

/-- `DB::Get` into `value`, which only a found key changes. -/
def get (db : RocksDB) (key value : Bytes) : Status × Bytes × RocksDB :=
  match db.call with
  | (true, db) => (.error, value, db)
  | (false, db) =>
      match db.rows.get key with
      | some v => (.ok, v, db)
      | none => (.notFound, value, db)

/-- `DB::NewIterator`: its status, and the rows it sees.  `Seek` and `Next` succeed here; no loop of
the source looks at the status of its iterator once it has started. -/
def newIterator (db : RocksDB) : Status × OrderedMap Bytes Bytes × RocksDB :=
  match db.call with
  | (true, db) => (.error, .empty, db)
  | (false, db) => (.ok, db.rows, db)

end RocksDB

/-! ### The operations -/

/-- `ret_code`. -/
inductive RetCode where
  | ok
  | err
  | null
  deriving DecidableEq

/-- A call on the `xEtagManager`. -/
inductive EtagCall where
  | setKey (key : Bytes) (timestamp : Nat)
  | getKey (key : Bytes) (timestamp : Nat)
  deriving DecidableEq

/-- `xDataBase`. -/
structure XDataBase where
  db : RocksDB
  bEtag : Bool := false
  xEtag : List EtagCall := []

/-- `getCurrentTime`, at the clock value `now` in milliseconds. -/
def getCurrentTime (now : Int) : Nat := u64 now

namespace XDataBase

/-- `if (bEtag) xEtag->SetKey(key.c_str(), timestamp)`. -/
def recordEtag (x : XDataBase) (key : Bytes) (timestamp : Nat) : XDataBase :=
  if x.bEtag then { x with xEtag := x.xEtag ++ [.setKey (cstr key) timestamp] } else x

/-- `xDataBase::Set`, at the clock value `now`. -/
def set (x : XDataBase) (now : Int) (key val : Bytes) : RetCode × XDataBase :=
  let xVal : XValue := { timestamp := getCurrentTime now, strValue := val }
  match x.db.put (encodeKey (.string key)) xVal.encode.strValue with
  | (.ok, db) => (.ok, { x with db }.recordEtag key xVal.timestamp)
  | (_, db) => (.err, { x with db })

/-- `xDataBase::Get`, into an `xValue` as it is constructed. -/
def get (x : XDataBase) (key : Bytes) : RetCode × XValue × XDataBase :=
  match x.db.get (encodeKey (.string key)) [] with
  | (.notFound, v, db) => (.null, { strValue := v }, { x with db })
  | (.error, v, db) => (.err, { strValue := v }, { x with db })
  | (.ok, v, db) =>
      let xval := XValue.decode { strValue := v }
      (.ok, xval, { x with db }.recordEtag key xval.timestamp)

/-- `xDataBase::Del`. -/
def del (x : XDataBase) (key : Bytes) : RetCode × XDataBase :=
  match x.db.delete (encodeKey (.string key)) with
  | (.ok, db) => (.ok, { x with db })
  | (_, db) => (.err, { x with db })

/-- The loop of `xDataBase::ScanKey`; `strkey` keeps its value when a key does not decode. -/
def scanLoop (endKey : Bytes) (limit : Int) :
    List (Bytes × Bytes) → Int → KeyParts → List Bytes
  | [], _, _ => []
  | (row, _) :: it, n, out =>
      if row < endKey ∧ limit > n then
        let out := (decodeKey row out).2
        out.key :: scanLoop endKey limit it (n + 1) out
      else []

/-- `xDataBase::ScanKey`. -/
def scanKey (x : XDataBase) (start stop : Bytes) (limit : Int) :
    RetCode × List Bytes × XDataBase :=
  match x.db.newIterator with
  | (.ok, it, db) =>
      (.ok, scanLoop (encodeKey (.string stop)) limit (it.seek (encodeKey (.string start))) 0 {},
        { x with db })
  | (_, _, db) => (.err, [], { x with db })

/-- The loop of `xDataBase::LoadExpirationKeys`.  It compares the `bool` of `DecodeKey` with
`-1`, so it goes on when a row does not decode, with `member` and `score` as they were. -/
def loadLoop (startEnd : Bytes) (limit : Int) :
    List (Bytes × Bytes) → Int → KeyParts → SortedSet → RetCode × SortedSet
  | [], _, _, keylist => (.ok, keylist)
  | (strkey, _) :: it, n, out, keylist =>
      if strkey < startEnd ∧ limit > n then
        if strkey.headD 0 ≠ DataTypeFlag.ZSCORE then (.err, keylist)
        else
          let out := (decodeKey strkey out).2
          loadLoop startEnd limit it (n + 1) out
            (keylist.add out.member (strToInt64 out.score)).2
      else (.ok, keylist)

/-- `SCORE_MIN`. -/
def SCORE_MIN : Bytes := ascii "0"

/-- `SCORE_MAX`. -/
def SCORE_MAX : Bytes := ascii "9223372036854775807"

/-- `xDataBase::LoadExpirationKeys`. -/
def loadExpirationKeys (x : XDataBase) (expirekey : Bytes) (keylist : SortedSet) (limit : Int) :
    RetCode × SortedSet × XDataBase :=
  let strStart := encodeKey (.zscore expirekey [] SCORE_MIN)
  let startEnd := encodeKey (.zscore expirekey [] SCORE_MAX)
  match x.db.newIterator with
  | (.ok, it, db) =>
      let (ret, keylist) := loadLoop startEnd limit (it.seek strStart) 0 {} keylist
      (ret, keylist, { x with db })
  | (_, _, db) => (.err, keylist, { x with db })

/-- `xDataBase::Flushall`.  A row that could not be deleted is only logged. -/
def flushall (x : XDataBase) : RetCode × XDataBase :=
  match x.db.newIterator with
  | (.ok, it, db) =>
      (.ok, { x with db := it.rows.foldl (fun db row => (db.delete row.1).2) db })
  | (_, _, db) => (.err, { x with db })

/-- `xDataBase::Zget`, into an empty string. -/
def zget (x : XDataBase) (key member : Bytes) : RetCode × Bytes × XDataBase :=
  match x.db.get (encodeKey (.zset key member)) [] with
  | (.notFound, score, db) => (.null, score, { x with db })
  | (.error, score, db) => (.err, score, { x with db })
  | (.ok, score, db) => (.ok, score, { x with db })

/-- `xDataBase::Zset`. -/
def zset (x : XDataBase) (key member score : Bytes) : RetCode × XDataBase :=
  if key = [] ∨ member = [] then (.err, x)
  else
    match x.zget key member with
    | (ret, oldScore, x) =>
      if ret = .null ∨ oldScore ≠ score then
        -- the row of the old score goes, and whether that worked is not looked at
        let x := if ret ≠ .null then
            { x with db := (x.db.delete (encodeKey (.zscore key member oldScore))).2 } else x
        match x.db.put (encodeKey (.zscore key member score)) [] with
        | (.ok, db) =>
            match db.put (encodeKey (.zset key member)) score with
            | (.ok, db) => (.ok, { x with db })
            | (_, db) => (.err, { x with db })
        | (_, db) => (.err, { x with db })
      else (.err, x)

/-- `xDataBase::Zdel`. -/
def zdel (x : XDataBase) (key member : Bytes) : RetCode × XDataBase :=
  if key = [] ∨ member = [] then (.err, x)
  else
    match x.zget key member with
    | (ret, oldScore, x) =>
      if ret = .null then (.err, x)
      else
        let db := (x.db.delete (encodeKey (.zscore key member oldScore))).2
        match db.delete (encodeKey (.zset key member)) with
        | (.ok, db) => (.ok, { x with db })
        | (_, db) => (.err, { x with db })

/-! ### The operations when RocksDB succeeds -/

/-- The rows of the database. -/
def rows (x : XDataBase) : OrderedMap Bytes Bytes := x.db.rows

/-- No call of RocksDB fails from here on. -/
def Healthy (x : XDataBase) : Prop := x.db.faults = []

/-- What `Zset` leaves when it writes: the row of the old score goes, and the rows of the new
one come. -/
def zsetRows (rows : OrderedMap Bytes Bytes) (key member score : Bytes) :
    OrderedMap Bytes Bytes :=
  let rows' := match rows.get (encodeKey (.zset key member)) with
    | some old => rows.erase (encodeKey (.zscore key member old))
    | none => rows
  (rows'.insert (encodeKey (.zscore key member score)) []).insert
    (encodeKey (.zset key member)) score

/-- What `Zdel` leaves when it deletes a member whose score is `old`. -/
def zdelRows (rows : OrderedMap Bytes Bytes) (key member old : Bytes) : OrderedMap Bytes Bytes :=
  (rows.erase (encodeKey (.zscore key member old))).erase (encodeKey (.zset key member))

@[simp] theorem recordEtag_db (x : XDataBase) (key : Bytes) (t : Nat) :
    (x.recordEtag key t).db = x.db := by
  unfold recordEtag; split_ifs <;> rfl

theorem db_eq {x : XDataBase} (h : x.Healthy) : x.db = ⟨x.rows, []⟩ := by
  rw [rows, ← show x.db.faults = [] from h]

theorem healthy_of_db {x : XDataBase} {r : OrderedMap Bytes Bytes} (h : x.db = ⟨r, []⟩) :
    x.Healthy := by
  rw [Healthy, h]

theorem rows_of_db {x : XDataBase} {r : OrderedMap Bytes Bytes} (h : x.db = ⟨r, []⟩) :
    x.rows = r := by
  rw [rows, h]

theorem set_spec {x : XDataBase} (h : x.Healthy) (now : Int) (key val : Bytes) :
    (x.set now key val).1 = .ok ∧
      (x.set now key val).2.db =
        ⟨x.rows.insert (encodeKey (.string key)) (leBytes 8 (getCurrentTime now) ++ val), []⟩ := by
  simp [set, db_eq h, RocksDB.put, RocksDB.call, XValue.encode]

theorem get_spec {x : XDataBase} (h : x.Healthy) (key : Bytes) :
    (x.get key).1 = (if (x.rows.get (encodeKey (.string key))).isSome then .ok else .null) ∧
      (∀ v, x.rows.get (encodeKey (.string key)) = some v →
        (x.get key).2.1 = XValue.decode { strValue := v }) ∧
      (x.get key).2.2.db = ⟨x.rows, []⟩ := by
  unfold get
  rw [db_eq h]
  cases hg : x.rows.get (encodeKey (.string key)) <;>
    simp [RocksDB.get, RocksDB.call, hg]

theorem del_spec {x : XDataBase} (h : x.Healthy) (key : Bytes) :
    (x.del key).1 = .ok ∧ (x.del key).2.db = ⟨x.rows.erase (encodeKey (.string key)), []⟩ := by
  simp [del, db_eq h, RocksDB.delete, RocksDB.call]

theorem scanKey_spec {x : XDataBase} (h : x.Healthy) (start stop : Bytes) (limit : Int) :
    x.scanKey start stop limit =
      (.ok, scanLoop (encodeKey (.string stop)) limit
        (x.rows.seek (encodeKey (.string start))) 0 {}, x) := by
  have hx : ({ x with db := ⟨x.rows, []⟩ } : XDataBase) = x := by rw [← db_eq h]
  unfold scanKey
  rw [db_eq h]
  simp only [RocksDB.newIterator, RocksDB.call, List.headD_nil, List.tail_nil, hx]

theorem loadExpirationKeys_spec {x : XDataBase} (h : x.Healthy) (key : Bytes) (s : SortedSet)
    (limit : Int) :
    x.loadExpirationKeys key s limit =
      ((loadLoop (encodeKey (.zscore key [] SCORE_MAX)) limit
          (x.rows.seek (encodeKey (.zscore key [] SCORE_MIN))) 0 {} s).1,
        (loadLoop (encodeKey (.zscore key [] SCORE_MAX)) limit
          (x.rows.seek (encodeKey (.zscore key [] SCORE_MIN))) 0 {} s).2, x) := by
  have hx : ({ x with db := ⟨x.rows, []⟩ } : XDataBase) = x := by rw [← db_eq h]
  unfold loadExpirationKeys
  rw [db_eq h]
  simp only [RocksDB.newIterator, RocksDB.call, List.headD_nil, List.tail_nil, hx]

theorem zget_spec {x : XDataBase} (h : x.Healthy) (key member : Bytes) :
    x.zget key member =
      match x.rows.get (encodeKey (.zset key member)) with
      | some v => (.ok, v, x)
      | none => (.null, [], x) := by
  have hx : ({ x with db := ⟨x.rows, []⟩ } : XDataBase) = x := by rw [← db_eq h]
  unfold zget
  rw [db_eq h]
  cases hg : x.rows.get (encodeKey (.zset key member)) <;>
    simp [RocksDB.get, RocksDB.call, hg, hx]

theorem zset_of_empty (x : XDataBase) {key member : Bytes} (h : key = [] ∨ member = [])
    (score : Bytes) : x.zset key member score = (.err, x) := by
  rw [zset, if_pos h]

/-- `Zset` with the score that is recorded writes nothing. -/
theorem zset_same {x : XDataBase} (h : x.Healthy) {key member score : Bytes}
    (hg : x.rows.get (encodeKey (.zset key member)) = some score) :
    x.zset key member score = (.err, x) := by
  unfold zset
  rw [zget_spec h, hg]
  simp

/-- `Zset` with another score writes. -/
theorem zset_write {x : XDataBase} (h : x.Healthy) {key member score : Bytes} (hk : key ≠ [])
    (hm : member ≠ []) (hg : x.rows.get (encodeKey (.zset key member)) ≠ some score) :
    (x.zset key member score).1 = .ok ∧
      (x.zset key member score).2.db = ⟨zsetRows x.rows key member score, []⟩ := by
  have hne : ¬ (key = [] ∨ member = []) := by simp [hk, hm]
  unfold zset
  rw [if_neg hne, zget_spec h]
  cases hold : x.rows.get (encodeKey (.zset key member)) with
  | none => simp [db_eq h, RocksDB.put, RocksDB.call, zsetRows, hold]
  | some old =>
      have ho : old ≠ score := fun e => hg (by rw [hold, e])
      simp [ho, db_eq h, RocksDB.put, RocksDB.delete, RocksDB.call, zsetRows, hold]

theorem zdel_of_empty (x : XDataBase) {key member : Bytes} (h : key = [] ∨ member = []) :
    x.zdel key member = (.err, x) := by
  rw [zdel, if_pos h]

theorem zdel_absent {x : XDataBase} (h : x.Healthy) {key member : Bytes}
    (hg : x.rows.get (encodeKey (.zset key member)) = none) :
    x.zdel key member = (.err, x) := by
  unfold zdel
  rw [zget_spec h, hg]
  simp

theorem zdel_present {x : XDataBase} (h : x.Healthy) {key member old : Bytes} (hk : key ≠ [])
    (hm : member ≠ []) (hg : x.rows.get (encodeKey (.zset key member)) = some old) :
    (x.zdel key member).1 = .ok ∧
      (x.zdel key member).2.db = ⟨zdelRows x.rows key member old, []⟩ := by
  have hne : ¬ (key = [] ∨ member = []) := by simp [hk, hm]
  unfold zdel
  rw [if_neg hne, zget_spec h, hg]
  simp [db_eq h, RocksDB.delete, RocksDB.call, zdelRows]

/-- Where the next `n + 1` calls succeed, the next one does, and then `n` more. -/
theorem succeeds_succ {faults : List Bool} {n : Nat} (h : ∀ b ∈ faults.take (n + 1), b = false) :
    faults.headD false = false ∧ ∀ b ∈ faults.tail.take n, b = false := by
  cases faults with
  | nil => exact ⟨rfl, by simp⟩
  | cons b faults => exact ⟨h b (by simp), fun b' hb' => h b' (List.mem_cons_of_mem _ hb')⟩

theorem foldl_delete (rs : List (Bytes × Bytes)) {faults : List Bool}
    (hf : ∀ b ∈ faults.take rs.length, b = false) (r : OrderedMap Bytes Bytes) :
    ∃ r', rs.foldl (fun db row => (RocksDB.delete db row.1).2) ⟨r, faults⟩ =
        ⟨r', faults.drop rs.length⟩ ∧
      ∀ k, r'.get k = if k ∈ rs.map (·.1) then none else r.get k := by
  induction rs generalizing r faults with
  | nil => exact ⟨r, rfl, fun k => by simp⟩
  | cons a rs ih =>
      obtain ⟨hhead, htail⟩ := succeeds_succ hf
      have hdel : (RocksDB.delete ⟨r, faults⟩ a.1).2 = ⟨r.erase a.1, faults.tail⟩ := by
        simp only [RocksDB.delete, RocksDB.call, hhead]
      obtain ⟨r', hr', hget⟩ := ih htail (r.erase a.1)
      refine ⟨r', ?_, fun k => ?_⟩
      · rw [List.foldl_cons, hdel, hr', List.drop_tail, List.length_cons]
      · rw [hget, OrderedMap.get_erase]
        by_cases hk : k = a.1 <;> by_cases hm : k ∈ rs.map (·.1) <;> simp_all

/-- No call of RocksDB that `Flushall` makes fails. -/
def FlushSucceeds (x : XDataBase) : Prop :=
  ∀ b ∈ x.db.faults.take (x.rows.rows.length + 1), b = false

/-- **`Flushall` leaves no row** when its calls succeed. -/
theorem flushall_of_succeeds {x : XDataBase} (h : x.FlushSucceeds) :
    x.flushall.1 = .ok ∧
      x.flushall.2.db = ⟨.empty, x.db.faults.drop (x.rows.rows.length + 1)⟩ := by
  obtain ⟨hhead, htail⟩ := succeeds_succ h
  have hcall : x.db.newIterator = (.ok, x.rows, ⟨x.rows, x.db.faults.tail⟩) := by
    simp only [RocksDB.newIterator, RocksDB.call, hhead]
    rfl
  obtain ⟨r', hr', hget⟩ := foldl_delete x.rows.rows htail x.rows
  have hempty : r' = .empty := OrderedMap.ext_get fun k => by
    rw [hget, OrderedMap.get_empty]
    cases hk : x.rows.get k with
    | none => simp
    | some v => rw [if_pos (List.mem_map.mpr ⟨(k, v), OrderedMap.mem_rows.mpr hk, rfl⟩)]
  rw [flushall, hcall]
  simp only
  exact ⟨trivial, by rw [hr', hempty, List.drop_tail]⟩

theorem Healthy.flushSucceeds {x : XDataBase} (h : x.Healthy) : x.FlushSucceeds := by
  intro b hb
  rw [show x.db.faults = [] from h] at hb
  simp at hb

theorem flushall_spec {x : XDataBase} (h : x.Healthy) :
    x.flushall.1 = .ok ∧ x.flushall.2.db = ⟨.empty, []⟩ := by
  obtain ⟨hok, hdb⟩ := flushall_of_succeeds h.flushSucceeds
  rw [show x.db.faults = [] from h, List.drop_nil] at hdb
  exact ⟨hok, hdb⟩

/-! ### Value rows -/

/-- The row of a key: its value, after the time it was set. -/
def valueRow (x : XDataBase) (key : Bytes) : Option Bytes :=
  x.rows.get (encodeKey (.string key))

theorem valueRow_of_db {x : XDataBase} {r : OrderedMap Bytes Bytes} (h : x.db = ⟨r, []⟩)
    (key : Bytes) : x.valueRow key = r.get (encodeKey (.string key)) := by
  rw [valueRow, rows_of_db h]

theorem valueRow_set {x : XDataBase} (h : x.Healthy) (now : Int) (key val k : Bytes) :
    (x.set now key val).2.valueRow k =
      if k = key then some (leBytes 8 (getCurrentTime now) ++ val) else x.valueRow k := by
  rw [valueRow_of_db (set_spec h now key val).2, OrderedMap.get_insert]
  simp only [encodeKey_string_inj]
  rfl

theorem valueRow_del {x : XDataBase} (h : x.Healthy) (key k : Bytes) :
    (x.del key).2.valueRow k = if k = key then none else x.valueRow k := by
  rw [valueRow_of_db (del_spec h key).2, OrderedMap.get_erase]
  simp only [encodeKey_string_inj]
  rfl

theorem valueRow_get {x : XDataBase} (h : x.Healthy) (key k : Bytes) :
    (x.get key).2.2.valueRow k = x.valueRow k :=
  valueRow_of_db (get_spec h key).2.2 k

/-- The value of a key, with the time it was set at. -/
def valueOf (x : XDataBase) (key : Bytes) : Option XValue :=
  (x.valueRow key).map fun row => XValue.decode { strValue := row }

theorem valueOf_set {x : XDataBase} (h : x.Healthy) (now : Int) (key val k : Bytes) :
    (x.set now key val).2.valueOf k =
      if k = key then some ⟨getCurrentTime now, val⟩ else x.valueOf k := by
  rw [valueOf, valueRow_set h]
  split_ifs
  · exact congrArg some (XValue.decode_encode (u64_lt now) 0 val)
  · rfl

theorem valueOf_del {x : XDataBase} (h : x.Healthy) (key k : Bytes) :
    (x.del key).2.valueOf k = if k = key then none else x.valueOf k := by
  rw [valueOf, valueRow_del h]
  split_ifs <;> rfl

theorem valueOf_get {x : XDataBase} (h : x.Healthy) (key k : Bytes) :
    (x.get key).2.2.valueOf k = x.valueOf k := by
  rw [valueOf, valueRow_get h, valueOf]

theorem valueOf_flushall {x : XDataBase} (h : x.Healthy) (k : Bytes) :
    x.flushall.2.valueOf k = none := by
  rw [valueOf, valueRow_of_db (flushall_spec h).2, OrderedMap.get_empty, Option.map_none]

/-- `Get` hands out the value that is stored. -/
theorem get_of_valueOf {x : XDataBase} (h : x.Healthy) {key : Bytes} {v : XValue}
    (hv : x.valueOf key = some v) : (x.get key).1 = .ok ∧ (x.get key).2.1 = v := by
  obtain ⟨row, hrow, rfl⟩ := Option.map_eq_some_iff.mp hv
  obtain ⟨hret, hval, -⟩ := get_spec h key
  refine ⟨?_, hval row hrow⟩
  rw [hret, show x.rows.get (encodeKey (.string key)) = some row from hrow]
  rfl

theorem get_of_no_value {x : XDataBase} (h : x.Healthy) {key : Bytes}
    (hv : x.valueOf key = none) : (x.get key).1 = .null := by
  have hrow : x.rows.get (encodeKey (.string key)) = none := Option.map_eq_none_iff.mp hv
  rw [(get_spec h key).1, hrow]
  rfl

/-- `Zset` changes no value. -/
theorem valueRow_zset {x : XDataBase} (h : x.Healthy) (key member score k : Bytes) :
    (x.zset key member score).2.valueRow k = x.valueRow k := by
  by_cases hne : key = [] ∨ member = []
  · rw [zset_of_empty x hne]
  · obtain ⟨hk, hm⟩ := not_or.mp hne
    by_cases hg : x.rows.get (encodeKey (.zset key member)) = some score
    · rw [zset_same h hg]
    · rw [valueRow_of_db (zset_write h hk hm hg).2, zsetRows]
      cases x.rows.get (encodeKey (.zset key member)) with
      | none =>
          rw [OrderedMap.get_insert_ne _ _ (by simp), OrderedMap.get_insert_ne _ _ (by simp)]
          rfl
      | some old =>
          rw [OrderedMap.get_insert_ne _ _ (by simp), OrderedMap.get_insert_ne _ _ (by simp),
            OrderedMap.get_erase_ne _ (by simp)]
          rfl

/-- `Zdel` changes no value. -/
theorem valueRow_zdel {x : XDataBase} (h : x.Healthy) (key member k : Bytes) :
    (x.zdel key member).2.valueRow k = x.valueRow k := by
  by_cases hne : key = [] ∨ member = []
  · rw [zdel_of_empty x hne]
  · obtain ⟨hk, hm⟩ := not_or.mp hne
    cases hg : x.rows.get (encodeKey (.zset key member)) with
    | none => rw [zdel_absent h hg]
    | some old =>
        rw [valueRow_of_db (zdel_present h hk hm hg).2, zdelRows,
          OrderedMap.get_erase_ne _ (by simp), OrderedMap.get_erase_ne _ (by simp)]
        rfl

end XDataBase

end XHttpCache
