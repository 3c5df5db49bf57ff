import XHttpCache.Store.ScoreIndex

/-!
# Store — sorted sets when RocksDB fails

`Zset` and `Zdel` make up to four calls of RocksDB, one after another.  `zset_outcome` and
`zdel_outcome` say for every pattern of failing calls what is returned and which rows are left,
in terms of what `Zget` hands out: a `Zget` that fails hands out an empty old score, and the
update goes on with it.

`Paired key rows` is the well-formedness of the sorted set `key`: its score rows are those of its
member rows.  An update of one member leaves the rows of the others (`Paired.iff_of_frame`), so
that it is decided by the rows of that member: which patterns keep it, and leave the rows alone
when `db_err` is returned, is `all_or_nothing_iff`.
-/

namespace XHttpCache
open Support

/-! ### Calls that may fail -/

/-- Whether the call number `i` to come fails. -/
def fails (faults : List Bool) (i : Nat) : Bool := faults.getD i false

@[simp] theorem fails_tail (faults : List Bool) (i : Nat) :
    fails faults.tail i = fails faults (i + 1) := by
  cases faults <;> rfl

theorem headD_eq_fails (faults : List Bool) : faults.headD false = fails faults 0 := by
  cases faults <;> rfl

namespace RocksDB

variable (rows : OrderedMap Bytes Bytes) (faults : List Bool) (key value : Bytes)

theorem put_eq : RocksDB.put ⟨rows, faults⟩ key value =
    if fails faults 0 = true then (.error, ⟨rows, faults.tail⟩)
    else (.ok, ⟨rows.insert key value, faults.tail⟩) := by
  rw [← headD_eq_fails]
  cases hf : faults.headD false <;> simp only [put, call, hf] <;> rfl

theorem delete_eq : RocksDB.delete ⟨rows, faults⟩ key =
    if fails faults 0 = true then (.error, ⟨rows, faults.tail⟩)
    else (.ok, ⟨rows.erase key, faults.tail⟩) := by
  rw [← headD_eq_fails]
  cases hf : faults.headD false <;> simp only [delete, call, hf] <;> rfl

theorem get_eq : RocksDB.get ⟨rows, faults⟩ key value =
    if fails faults 0 = true then (.error, value, ⟨rows, faults.tail⟩)
    else ((if rows.get key = none then .notFound else .ok), (rows.get key).getD value,
      ⟨rows, faults.tail⟩) := by
  rw [← headD_eq_fails]
  cases hf : faults.headD false with
  | true => simp only [get, call, hf, if_true]
  | false =>
      simp only [get, call, hf, Bool.false_eq_true, if_false]
      cases rows.get key <;> rfl

theorem newIterator_eq : RocksDB.newIterator ⟨rows, faults⟩ =
    if fails faults 0 = true then (.error, .empty, ⟨rows, faults.tail⟩)
    else (.ok, rows, ⟨rows, faults.tail⟩) := by
  rw [← headD_eq_fails]
  cases hf : faults.headD false <;> simp only [newIterator, call, hf] <;> rfl

end RocksDB

namespace XDataBase

/-- Whether the call number `i` to come fails. -/
abbrev fault (x : XDataBase) (i : Nat) : Bool := fails x.db.faults i

theorem db_mk (x : XDataBase) : x.db = ⟨x.rows, x.db.faults⟩ := rfl

/-- `Set` writes its row, if its call succeeds. -/
theorem set_eq (x : XDataBase) (now : Int) (key val : Bytes) :
    (x.set now key val).1 = (if x.fault 0 = true then .err else .ok) ∧
      (x.set now key val).2.db = ⟨if x.fault 0 = true then x.rows
        else x.rows.insert (encodeKey (.string key)) (leBytes 8 (getCurrentTime now) ++ val),
        x.db.faults.tail⟩ := by
  rw [set, db_mk, RocksDB.put_eq]
  by_cases hf : x.fault 0 = true
  · simp only [if_pos hf, and_self]
  · simp only [if_neg hf, recordEtag_db, XValue.encode, and_self]

theorem valueOf_of_rows {x y : XDataBase} {k : Bytes} (h : y.rows = x.rows) :
    y.valueOf k = x.valueOf k := by
  rw [XDataBase.valueOf, XDataBase.valueRow, h]
  rfl

/-- `Set` stores the value, or nothing. -/
theorem valueOf_set_any (x : XDataBase) (now : Int) (key val : Bytes) :
    (x.set now key val).2.valueOf key =
      if x.fault 0 = true then x.valueOf key else some ⟨getCurrentTime now, val⟩ := by
  have hrows : (x.set now key val).2.rows = _ := congrArg RocksDB.rows (x.set_eq now key val).2
  split_ifs with hf
  · rw [if_pos hf] at hrows
    exact valueOf_of_rows hrows
  · rw [if_neg hf] at hrows
    rw [XDataBase.valueOf, XDataBase.valueRow, hrows, OrderedMap.get_insert, if_pos rfl]
    exact congrArg some (XValue.decode_encode (u64_lt now) 0 val)

/-- `Get` reads the row of a key, if its call succeeds. -/
theorem get_eq (x : XDataBase) (key : Bytes) :
    (x.get key).1 = (if x.fault 0 = true then .err
        else if x.valueRow key = none then .null else .ok) ∧
      ((x.get key).1 = .ok → ∀ v, x.valueRow key = some v →
        (x.get key).2.1 = XValue.decode { strValue := v }) ∧
      (x.get key).2.2.db = ⟨x.rows, x.db.faults.tail⟩ := by
  rw [get, db_mk, RocksDB.get_eq, valueRow]
  by_cases hf : x.fault 0 = true
  · simp [if_pos hf]
  · simp only [if_neg hf]
    cases hv : x.rows.get (encodeKey (.string key)) with
    | none => simp
    | some v => simp

/-- `Del` deletes the row of a key, if its call succeeds. -/
theorem del_eq (x : XDataBase) (key : Bytes) :
    (x.del key).1 = (if x.fault 0 = true then .err else .ok) ∧
      (x.del key).2.db = ⟨if x.fault 0 = true then x.rows
        else x.rows.erase (encodeKey (.string key)), x.db.faults.tail⟩ := by
  rw [del, db_mk, RocksDB.delete_eq]
  by_cases hf : x.fault 0 = true
  · simp only [if_pos hf, and_self]
  · simp only [if_neg hf, and_self]

/-- `ScanKey` finds nothing when its call fails. -/
theorem scanKey_eq (x : XDataBase) (start stop : Bytes) (limit : Int) :
    x.scanKey start stop limit =
      (if x.fault 0 = true then .err else .ok,
        if x.fault 0 = true then [] else scanLoop (encodeKey (.string stop)) limit
          (x.rows.seek (encodeKey (.string start))) 0 {},
        { x with db := ⟨x.rows, x.db.faults.tail⟩ }) := by
  rw [scanKey, db_mk, RocksDB.newIterator_eq]
  by_cases hf : x.fault 0 = true
  · simp only [if_pos hf]
  · simp only [if_neg hf]

theorem flushall_code (x : XDataBase) :
    x.flushall.1 = if x.fault 0 = true then .err else .ok := by
  rw [flushall, db_mk, RocksDB.newIterator_eq]
  by_cases hf : x.fault 0 = true
  · simp only [if_pos hf]
  · simp only [if_neg hf]

/-- The old score that `Zget` hands to an update, if it does not answer that there is none. -/
def handed (x : XDataBase) (key member : Bytes) : Option Bytes :=
  if x.fault 0 = true then some [] else x.rows.get (encodeKey (.zset key member))

/-- The rows after the row of the old score `old` was to be deleted. -/
def withoutOld (x : XDataBase) (key member old : Bytes) : OrderedMap Bytes Bytes :=
  if x.fault 1 = true then x.rows else x.rows.erase (encodeKey (.zscore key member old))

/-- What `Zset` returns, and the rows it leaves. -/
def zsetOutcome (x : XDataBase) (key member score : Bytes) : RetCode × OrderedMap Bytes Bytes :=
  let scored (rows : OrderedMap Bytes Bytes) := rows.insert (encodeKey (.zscore key member score)) []
  let both rows := (scored rows).insert (encodeKey (.zset key member)) score
  match x.handed key member with
  | none =>
      if x.fault 1 = true then (.err, x.rows)
      else if x.fault 2 = true then (.err, scored x.rows)
      else (.ok, both x.rows)
  | some old =>
      let rows := x.withoutOld key member old
      if old = score then (.err, x.rows)
      else if x.fault 2 = true then (.err, rows)
      else if x.fault 3 = true then (.err, scored rows)
      else (.ok, both rows)

/-- What `Zdel` returns, and the rows it leaves. -/
def zdelOutcome (x : XDataBase) (key member : Bytes) : RetCode × OrderedMap Bytes Bytes :=
  match x.handed key member with
  | none => (.err, x.rows)
  | some old =>
      let rows := x.withoutOld key member old
      if x.fault 2 = true then (.err, rows) else (.ok, rows.erase (encodeKey (.zset key member)))

theorem zget_eq (x : XDataBase) (key member : Bytes) :
    x.zget key member =
      (if x.fault 0 = true then .err
        else if x.rows.get (encodeKey (.zset key member)) = none then .null else .ok,
        (x.handed key member).getD [], { x with db := ⟨x.rows, x.db.faults.tail⟩ }) := by
  rw [zget, show x.db = ⟨x.rows, x.db.faults⟩ from rfl, RocksDB.get_eq, handed]
  by_cases hf : x.fault 0 = true
  · simp only [if_pos hf]
    rfl
  · simp only [if_neg hf]
    by_cases hg : x.rows.get (encodeKey (.zset key member)) = none
    · simp only [hg, if_true]
    · simp only [if_neg hg]

/-- `Zget` hands out nothing when it answers that there is nothing. -/
theorem zget_eq_null (x : XDataBase) (key member : Bytes) :
    (x.zget key member).1 = .null ↔ x.handed key member = none := by
  rw [zget_eq, handed]
  by_cases h₀ : x.fault 0 = true
  · simp [h₀]
  · by_cases hg : x.rows.get (encodeKey (.zset key member)) = none <;> simp [h₀, hg]

/-- **What `Zset` does**, whichever calls fail. -/
theorem zset_outcome (x : XDataBase) {key member : Bytes} (hk : key ≠ []) (hm : member ≠ [])
    (score : Bytes) :
    (x.zset key member score).1 = (x.zsetOutcome key member score).1 ∧
      (x.zset key member score).2.rows = (x.zsetOutcome key member score).2 := by
  have hne : ¬ (key = [] ∨ member = []) := by simp [hk, hm]
  have hnull := x.zget_eq_null key member
  rw [zget_eq] at hnull
  rw [zset, if_neg hne, zget_eq, zsetOutcome]
  generalize (if x.fault 0 = true then RetCode.err
    else if x.rows.get (encodeKey (.zset key member)) = none then .null else .ok) = ret at hnull ⊢
  cases hh : x.handed key member with
  | none =>
      obtain rfl : ret = .null := hnull.mpr hh
      cases hf₁ : x.fault 1 with
      | true => simp [RocksDB.put_eq, hf₁, rows]
      | false => cases hf₂ : x.fault 2 <;> simp [RocksDB.put_eq, hf₁, hf₂, rows]
  | some old =>
      have hret : ret ≠ .null := fun he => by simp [hnull.mp he] at hh
      by_cases hs : old = score
      · simp [hs, hret, rows]
      · cases hf₁ : x.fault 1 <;> cases hf₂ : x.fault 2 <;> cases hf₃ : x.fault 3 <;>
          simp [hs, hret, RocksDB.put_eq, RocksDB.delete_eq, hf₁, hf₂, hf₃, rows, withoutOld]

/-- **What `Zdel` does**, whichever calls fail. -/
theorem zdel_outcome (x : XDataBase) {key member : Bytes} (hk : key ≠ []) (hm : member ≠ []) :
    (x.zdel key member).1 = (x.zdelOutcome key member).1 ∧
      (x.zdel key member).2.rows = (x.zdelOutcome key member).2 := by
  have hne : ¬ (key = [] ∨ member = []) := by simp [hk, hm]
  have hnull := x.zget_eq_null key member
  rw [zget_eq] at hnull
  rw [zdel, if_neg hne, zget_eq, zdelOutcome]
  generalize (if x.fault 0 = true then RetCode.err
    else if x.rows.get (encodeKey (.zset key member)) = none then .null else .ok) = ret at hnull ⊢
  cases hh : x.handed key member with
  | none =>
      obtain rfl : ret = .null := hnull.mpr hh
      simp [rows]
  | some old =>
      have hret : ret ≠ .null := fun he => by simp [hnull.mp he] at hh
      cases hf₁ : x.fault 1 <;> cases hf₂ : x.fault 2 <;>
        simp [hret, RocksDB.delete_eq, hf₁, hf₂, rows, withoutOld]

end XDataBase

/-! ### The rows of one sorted set -/

theorem zset_row_inj (key : Bytes) {m m' : Bytes} :
    encodeKey (.zset key m) = encodeKey (.zset key m') ↔ m = m' := by
  constructor
  · intro h
    simp only [encodeKey, List.cons.injEq, true_and, List.append_cancel_left_eq] at h
    exact h.2
  · rintro rfl
    rfl

theorem zscore_row_inj (key : Bytes) {m m' s s' : Bytes} :
    encodeKey (.zscore key m s) = encodeKey (.zscore key m' s') ↔
      m = m' ∧ strToInt64 s = strToInt64 s' := by
  rw [encodeKey_zscore_eq, encodeKey_zscore_eq, List.append_cancel_left_eq]
  constructor
  · intro h
    obtain ⟨hs, hm⟩ := List.append_inj h (by simp)
    refine ⟨List.tail_eq_of_cons_eq hm, ?_⟩
    exact u64_inj (strToInt64_isI64 s) (strToInt64_isI64 s')
      (beBytes_inj (u64_lt _) (u64_lt _) hs)
  · rintro ⟨rfl, hs⟩
    rw [hs]

/-- The score that the member row has, as its score row is to have it. -/
def stored (rows : OrderedMap Bytes Bytes) (key member : Bytes) : Option Int :=
  (rows.get (encodeKey (.zset key member))).map strToInt64

/-- The score rows of `member` are the one of its member row. -/
def PairedAt (key : Bytes) (rows : OrderedMap Bytes Bytes) (member : Bytes) : Prop :=
  ∀ s, rows.get (encodeKey (.zscore key member s)) =
    if stored rows key member = some (strToInt64 s) then some [] else none

/-- **The sorted set `key` is well formed**: its score rows are those of its member rows. -/
def Paired (key : Bytes) (rows : OrderedMap Bytes Bytes) : Prop := ∀ m, PairedAt key rows m

/-- The rows of `member` are the same. -/
def SameRows (key member : Bytes) (rows rows' : OrderedMap Bytes Bytes) : Prop :=
  rows'.get (encodeKey (.zset key member)) = rows.get (encodeKey (.zset key member)) ∧
    ∀ s, rows'.get (encodeKey (.zscore key member s)) = rows.get (encodeKey (.zscore key member s))

theorem Paired.empty (key : Bytes) : Paired key .empty := by
  intro m s
  simp [stored]

variable {key member : Bytes} {rows rows' : OrderedMap Bytes Bytes}

theorem SameRows.refl (key member : Bytes) (rows : OrderedMap Bytes Bytes) :
    SameRows key member rows rows :=
  ⟨rfl, fun _ => rfl⟩

theorem SameRows.trans {rows'' : OrderedMap Bytes Bytes} (h : SameRows key member rows rows')
    (h' : SameRows key member rows' rows'') : SameRows key member rows rows'' :=
  ⟨h'.1.trans h.1, fun s => (h'.2 s).trans (h.2 s)⟩

theorem SameRows.pairedAt (h : SameRows key member rows rows') (hp : PairedAt key rows member) :
    PairedAt key rows' member := by
  intro s
  rw [h.2, hp, stored, stored, h.1]

/-- What leaves the rows of the other members is decided by those of `member`. -/
theorem Paired.iff_of_frame (h : Paired key rows)
    (hf : ∀ m, m ≠ member → SameRows key m rows rows') :
    Paired key rows' ↔ PairedAt key rows' member := by
  refine ⟨fun hp => hp member, fun hp m => ?_⟩
  by_cases hm : m = member
  · rwa [hm]
  · exact (hf m hm).pairedAt (h m)

/-- The rows of the member `m` of `K` are not those of `member` of `key`. -/
structure Elsewhere (K m key member : Bytes) : Prop where
  zset : encodeKey (.zset K m) ≠ encodeKey (.zset key member)
  zscore : ∀ s s', encodeKey (.zscore K m s) ≠ encodeKey (.zscore key member s')

theorem Elsewhere.of_member {m : Bytes} (hm : m ≠ member) : Elsewhere key m key member :=
  ⟨fun e => hm ((zset_row_inj key).mp e), fun _ _ e => hm ((zscore_row_inj key).mp e).1⟩

theorem Elsewhere.of_set {K : Bytes} (hK : K ≠ key) (hlen : K.length ≤ 255) (hlen' : key.length ≤ 255)
    (m member : Bytes) : Elsewhere K m key member :=
  ⟨fun e => hK (encodeKey_zset_inj hlen hlen' e).1,
    fun _ _ e => hK (encodeKey_zscore_inj hlen hlen' e).1⟩

namespace Elsewhere

variable {K m : Bytes} (h : Elsewhere K m key member) (rows : OrderedMap Bytes Bytes)
include h

theorem insert_zset (v : Bytes) :
    SameRows K m rows (rows.insert (encodeKey (.zset key member)) v) :=
  ⟨OrderedMap.get_insert_ne _ _ h.zset,
    fun _ => OrderedMap.get_insert_ne _ _ (zscore_ne_zset _ _ _ _ _)⟩

theorem erase_zset : SameRows K m rows (rows.erase (encodeKey (.zset key member))) :=
  ⟨OrderedMap.get_erase_ne _ h.zset, fun _ => OrderedMap.get_erase_ne _ (zscore_ne_zset _ _ _ _ _)⟩

theorem insert_zscore (s v : Bytes) :
    SameRows K m rows (rows.insert (encodeKey (.zscore key member s)) v) :=
  ⟨OrderedMap.get_insert_ne _ _ (zset_ne_zscore _ _ _ _ _),
    fun _ => OrderedMap.get_insert_ne _ _ (h.zscore _ _)⟩

theorem erase_zscore (s : Bytes) :
    SameRows K m rows (rows.erase (encodeKey (.zscore key member s))) :=
  ⟨OrderedMap.get_erase_ne _ (zset_ne_zscore _ _ _ _ _),
    fun _ => OrderedMap.get_erase_ne _ (h.zscore _ _)⟩

theorem withoutOld (x : XDataBase) (old : Bytes) :
    SameRows K m x.rows (x.withoutOld key member old) := by
  rw [XDataBase.withoutOld]
  split_ifs
  · exact .refl K m x.rows
  · exact h.erase_zscore _ _

/-- An update leaves the rows of every other member, whichever calls fail. -/
theorem zsetOutcome (x : XDataBase) (score : Bytes) :
    SameRows K m x.rows (x.zsetOutcome key member score).2 := by
  have hboth : ∀ rows : OrderedMap Bytes Bytes, SameRows K m rows
      ((rows.insert (encodeKey (.zscore key member score)) []).insert
        (encodeKey (.zset key member)) score) :=
    fun rows => (h.insert_zscore rows score []).trans (h.insert_zset _ score)
  rw [XDataBase.zsetOutcome]
  cases x.handed key member with
  | none =>
      simp only
      split_ifs
      · exact .refl K m x.rows
      · exact h.insert_zscore _ _ _
      · exact hboth _
  | some old =>
      simp only
      split_ifs
      · exact .refl K m x.rows
      · exact h.withoutOld x old
      · exact (h.withoutOld x old).trans (h.insert_zscore _ _ _)
      · exact (h.withoutOld x old).trans (hboth _)

theorem zdelOutcome (x : XDataBase) : SameRows K m x.rows (x.zdelOutcome key member).2 := by
  rw [XDataBase.zdelOutcome]
  cases x.handed key member with
  | none => exact .refl K m x.rows
  | some old =>
      simp only
      split_ifs
      · exact h.withoutOld x old
      · exact (h.withoutOld x old).trans (h.erase_zset _)

end Elsewhere

/-! ### The rows of the member that is updated -/

/-- `base` has the rows of `member`, less the score row of `i` if `p`. -/
structure Trimmed (p : Prop) [Decidable p] (i : Int) (key member : Bytes)
    (rows base : OrderedMap Bytes Bytes) : Prop where
  zset : base.get (encodeKey (.zset key member)) = rows.get (encodeKey (.zset key member))
  zscore : ∀ s, base.get (encodeKey (.zscore key member s)) =
    if p ∧ strToInt64 s = i then none else rows.get (encodeKey (.zscore key member s))

theorem Trimmed.refl (i : Int) (key member : Bytes) (rows : OrderedMap Bytes Bytes) :
    Trimmed False i key member rows rows :=
  ⟨rfl, fun _ => by simp⟩

theorem Trimmed.withoutOld (x : XDataBase) (key member old : Bytes) :
    Trimmed (x.fault 1 = false) (strToInt64 old) key member x.rows
      (x.withoutOld key member old) := by
  rw [XDataBase.withoutOld]
  cases x.fault 1 with
  | true => exact ⟨rfl, fun _ => by simp⟩
  | false =>
      refine ⟨OrderedMap.get_erase_ne _ (zset_ne_zscore _ _ _ _ _), fun s => ?_⟩
      simp [OrderedMap.get_erase, zscore_row_inj]

namespace Trimmed

variable {p : Prop} [Decidable p] {i : Int} {base : OrderedMap Bytes Bytes} {score : Bytes}

/-- A score that is stored is the score of some text. -/
theorem exists_score {d : Int} (h : stored rows key member = some d) : ∃ s, strToInt64 s = d := by
  obtain ⟨s, -, hs⟩ := Option.map_eq_some_iff.mp h
  exact ⟨s, hs⟩

/-- Deleting a score row changes nothing if it is not there. -/
theorem sameRows_iff (h : Trimmed p i key member rows base) (hp : PairedAt key rows member) :
    SameRows key member rows base ↔ ¬ p ∨ stored rows key member ≠ some i := by
  constructor
  · intro hsame
    by_contra hno
    obtain ⟨hpp, hst⟩ := not_or.mp hno
    rw [not_not] at hpp hst
    obtain ⟨s, rfl⟩ := exists_score hst
    have hs := hsame.2 s
    rw [h.zscore, if_pos ⟨hpp, rfl⟩, hp, if_pos hst] at hs
    cases hs
  · intro hor
    refine ⟨h.zset, fun s => ?_⟩
    rw [h.zscore]
    split_ifs with hc
    · obtain ⟨hpp, rfl⟩ := hc
      rw [hp, if_neg (hor.resolve_left (not_not.mpr hpp))]
    · rfl

theorem get_scored (h : Trimmed p i key member rows base) (hp : PairedAt key rows member)
    (s : Bytes) :
    (base.insert (encodeKey (.zscore key member score)) []).get (encodeKey (.zscore key member s)) =
      if strToInt64 s = strToInt64 score then some []
      else if p ∧ strToInt64 s = i then none
      else if stored rows key member = some (strToInt64 s) then some [] else none := by
  rw [OrderedMap.get_insert, h.zscore, hp]
  simp only [zscore_row_inj, true_and]

/-- Writing the score row alone changes nothing if it is there. -/
theorem scored_iff (h : Trimmed p i key member rows base) (hp : PairedAt key rows member) :
    SameRows key member rows (base.insert (encodeKey (.zscore key member score)) []) ↔
      stored rows key member = some (strToInt64 score) := by
  constructor
  · intro hsame
    have hs := hsame.2 score
    rw [h.get_scored hp, if_pos rfl, hp] at hs
    by_contra hst
    rw [if_neg hst] at hs
    cases hs
  · intro hst
    refine ⟨?_, fun s => ?_⟩
    · rw [OrderedMap.get_insert_ne _ _ (zset_ne_zscore _ _ _ _ _), h.zset]
    · rw [h.get_scored hp, hp, hst]
      by_cases hs : strToInt64 s = strToInt64 score
      · simp [hs]
      · simp [hs, Ne.symm hs]

/-- Writing both rows is right if no other score row is left. -/
theorem both_iff (h : Trimmed p i key member rows base) (hp : PairedAt key rows member) :
    PairedAt key ((base.insert (encodeKey (.zscore key member score)) []).insert
        (encodeKey (.zset key member)) score) member ↔
      stored rows key member = none ∨ stored rows key member = some (strToInt64 score) ∨
        stored rows key member = some i ∧ p := by
  have hnew : stored ((base.insert (encodeKey (.zscore key member score)) []).insert
      (encodeKey (.zset key member)) score) key member = some (strToInt64 score) := by
    rw [stored, OrderedMap.get_insert_self]
    rfl
  rw [PairedAt]
  simp only [hnew, OrderedMap.get_insert_ne _ _ (zscore_ne_zset _ _ _ _ _), h.get_scored hp]
  constructor
  · intro hall
    cases hst : stored rows key member with
    | none => exact Or.inl rfl
    | some d =>
        right
        obtain ⟨s, rfl⟩ := exists_score hst
        have hs := hall s
        rw [hst] at hs
        by_cases he : strToInt64 s = strToInt64 score
        · exact Or.inl (congrArg some he)
        · by_cases hc : p ∧ strToInt64 s = i
          · exact Or.inr ⟨congrArg some hc.2, hc.1⟩
          · simp [he, hc, Ne.symm he] at hs
  · rintro (hst | hst | ⟨hst, hpp⟩) s
    · by_cases he : strToInt64 s = strToInt64 score
      · simp [he]
      · simp [he, Ne.symm he, hst]
    · by_cases he : strToInt64 s = strToInt64 score
      · simp [he]
      · simp [he, Ne.symm he, hst]
    · by_cases he : strToInt64 s = strToInt64 score
      · simp [he]
      · by_cases hi : strToInt64 s = i
        · subst hi
          simp [hpp, he, Ne.symm he]
        · simp [he, Ne.symm he, hst, Ne.symm hi]

/-- Deleting the member row is right if no score row is left. -/
theorem erase_iff (h : Trimmed p i key member rows base) (hp : PairedAt key rows member) :
    PairedAt key (base.erase (encodeKey (.zset key member))) member ↔
      stored rows key member = none ∨ stored rows key member = some i ∧ p := by
  have hnew : stored (base.erase (encodeKey (.zset key member))) key member = none := by
    rw [stored, OrderedMap.get_erase_self]
    rfl
  rw [PairedAt]
  simp only [hnew, OrderedMap.get_erase_ne _ (zscore_ne_zset _ _ _ _ _), h.zscore, hp _]
  constructor
  · intro hall
    cases hst : stored rows key member with
    | none => exact Or.inl rfl
    | some d =>
        obtain ⟨s, rfl⟩ := exists_score hst
        have hs := hall s
        rw [hst] at hs
        by_cases hc : p ∧ strToInt64 s = i
        · exact Or.inr ⟨congrArg some hc.2, hc.1⟩
        · simp [hc] at hs
  · rintro (hst | ⟨hst, hpp⟩) s
    · simp [hst]
    · by_cases hi : strToInt64 s = i
      · simp [hpp, hi]
      · simp [hst, Ne.symm hi]

end Trimmed

/-! ### All or nothing -/

/-- An update has left the sorted set `key` well formed, and the rows of `member` alone if it
returned `db_err`. -/
def AllOrNothing (key member : Bytes) (rows : OrderedMap Bytes Bytes)
    (out : RetCode × OrderedMap Bytes Bytes) : Prop :=
  Paired key out.2 ∧ (out.1 = .err → SameRows key member rows out.2)

namespace XDataBase

/-- The calls of `Zset` that fail leave no half of an update.  Without a member row only the
write of the member row must not fail after that of the score row.  Otherwise it depends on the
score that is stored: the row of `old`, which is empty after a failed `Zget`, is not its score
row, or what was begun with it is brought to its end. -/
def ZsetWhole (x : XDataBase) (key member score : Bytes) : Prop :=
  match x.handed key member with
  | none => x.fault 1 = true ∨ x.fault 2 = false
  | some old =>
      old = score ∨
        if x.fault 2 = true then
          ¬ x.fault 1 = false ∨ stored x.rows key member ≠ some (strToInt64 old)
        else if x.fault 3 = true then stored x.rows key member = some (strToInt64 score)
        else stored x.rows key member = none ∨
          stored x.rows key member = some (strToInt64 score) ∨
          stored x.rows key member = some (strToInt64 old) ∧ x.fault 1 = false

/-- The calls of `Zdel` that fail leave no half of a deletion. -/
def ZdelWhole (x : XDataBase) (key member : Bytes) : Prop :=
  match x.handed key member with
  | none => True
  | some old =>
      if x.fault 2 = true then
        ¬ x.fault 1 = false ∨ stored x.rows key member ≠ some (strToInt64 old)
      else stored x.rows key member = none ∨
        stored x.rows key member = some (strToInt64 old) ∧ x.fault 1 = false

end XDataBase

section AllOrNothing

variable {x : XDataBase} {out : OrderedMap Bytes Bytes}

/-- An update that returns `db_err`. -/
theorem AllOrNothing.err_iff (h : Paired key rows)
    (hf : ∀ m, m ≠ member → SameRows key m rows out) :
    AllOrNothing key member rows (.err, out) ↔ SameRows key member rows out := by
  constructor
  · intro hall
    exact hall.2 rfl
  · intro hsame
    exact ⟨(h.iff_of_frame hf).mpr (hsame.pairedAt (h member)), fun _ => hsame⟩

/-- An update that returns `db_ok`. -/
theorem AllOrNothing.ok_iff (h : Paired key rows)
    (hf : ∀ m, m ≠ member → SameRows key m rows out) :
    AllOrNothing key member rows (.ok, out) ↔ PairedAt key out member := by
  rw [AllOrNothing, h.iff_of_frame hf]
  simp

theorem zsetOutcome_iff (h : Paired key x.rows) (score : Bytes) :
    AllOrNothing key member x.rows (x.zsetOutcome key member score) ↔
      x.ZsetWhole key member score := by
  have hp := h member
  have hframe : ∀ m, m ≠ member → SameRows key m x.rows (x.zsetOutcome key member score).2 :=
    fun m hm => (Elsewhere.of_member hm).zsetOutcome x score
  rw [XDataBase.ZsetWhole]
  rw [XDataBase.zsetOutcome] at hframe ⊢
  cases hh : x.handed key member with
  | none =>
      -- there is no member row, and so no score row
      have hnone : stored x.rows key member = none := by
        rw [XDataBase.handed] at hh
        split_ifs at hh
        rw [stored, hh]
        rfl
      have ht := Trimmed.refl 0 key member x.rows
      simp only [hh] at hframe ⊢
      split_ifs at hframe ⊢ with h₁ h₂
      · rw [AllOrNothing.err_iff h hframe]
        simp [h₁, SameRows.refl]
      · rw [AllOrNothing.err_iff h hframe, ht.scored_iff hp, hnone]
        simp [h₁, h₂]
      · rw [AllOrNothing.ok_iff h hframe, ht.both_iff hp, hnone]
        simp [h₁, h₂]
  | some old =>
      have ht := Trimmed.withoutOld x key member old
      simp only [hh] at hframe ⊢
      by_cases hs : old = score
      · rw [if_pos hs] at hframe ⊢
        rw [AllOrNothing.err_iff h hframe]
        simp [hs, SameRows.refl]
      · rw [if_neg hs] at hframe ⊢
        rw [or_iff_right hs]
        split_ifs at hframe ⊢ with h₂ h₃
        · rw [AllOrNothing.err_iff h hframe, ht.sameRows_iff hp]
        · rw [AllOrNothing.err_iff h hframe, ht.scored_iff hp]
        · rw [AllOrNothing.ok_iff h hframe, ht.both_iff hp]

theorem zdelOutcome_iff (h : Paired key x.rows) :
    AllOrNothing key member x.rows (x.zdelOutcome key member) ↔ x.ZdelWhole key member := by
  have hp := h member
  have hframe : ∀ m, m ≠ member → SameRows key m x.rows (x.zdelOutcome key member).2 :=
    fun m hm => (Elsewhere.of_member hm).zdelOutcome x
  rw [XDataBase.ZdelWhole]
  rw [XDataBase.zdelOutcome] at hframe ⊢
  cases hh : x.handed key member with
  | none =>
      simp only [hh] at hframe ⊢
      rw [AllOrNothing.err_iff h hframe]
      simp [SameRows.refl]
  | some old =>
      have ht := Trimmed.withoutOld x key member old
      simp only [hh] at hframe ⊢
      split_ifs at hframe ⊢ with h₂
      · rw [AllOrNothing.err_iff h hframe, ht.sameRows_iff hp]
      · rw [AllOrNothing.ok_iff h hframe, ht.erase_iff hp]

/-- Without a key or a member nothing is called. -/
theorem allOrNothing_of_refused (h : Paired key x.rows) :
    AllOrNothing key member x.rows (.err, x.rows) :=
  ⟨h, fun _ => .refl key member x.rows⟩

end AllOrNothing

/-- **Sorted-set updates are all or nothing** under exactly these patterns of failing calls: they
leave the sorted set well formed, and the rows of the member alone when they return `db_err`.  No
pattern touches another sorted set. -/
theorem all_or_nothing_iff (x : XDataBase) (key member score : Bytes) (h : Paired key x.rows) :
    let zset := x.zset key member score
    let zdel := x.zdel key member
    (AllOrNothing key member x.rows (zset.1, zset.2.rows) ↔
      key = [] ∨ member = [] ∨ x.ZsetWhole key member score) ∧
    (AllOrNothing key member x.rows (zdel.1, zdel.2.rows) ↔
      key = [] ∨ member = [] ∨ x.ZdelWhole key member) ∧
    ∀ K, K ≠ key → K.length ≤ 255 → key.length ≤ 255 → Paired K x.rows →
      Paired K zset.2.rows ∧ Paired K zdel.2.rows := by
  by_cases hne : key = [] ∨ member = []
  · have hor : ∀ p : Prop, key = [] ∨ member = [] ∨ p := fun p => hne.imp_right Or.inl
    simp only [XDataBase.zset_of_empty x hne, XDataBase.zdel_of_empty x hne, hor, iff_true]
    exact ⟨allOrNothing_of_refused h, allOrNothing_of_refused h, fun K _ _ _ hK => ⟨hK, hK⟩⟩
  · obtain ⟨hk, hm⟩ := not_or.mp hne
    obtain ⟨hz, hzr⟩ := x.zset_outcome hk hm score
    obtain ⟨hd, hdr⟩ := x.zdel_outcome hk hm
    simp only [hz, hzr, hd, hdr, hk, hm, false_or, Prod.mk.eta]
    refine ⟨zsetOutcome_iff h score, zdelOutcome_iff h, fun K hK hlen hlen' hp => ?_⟩
    have he := fun m => Elsewhere.of_set hK hlen hlen' m member
    exact ⟨fun m => ((he m).zsetOutcome x score).pairedAt (hp m),
      fun m => ((he m).zdelOutcome x).pairedAt (hp m)⟩

/-- On an empty store, where a failure of the third call would leave a score row alone. -/
theorem all_or_nothing_empty :
    Paired (ascii "s") .empty ∧
      AllOrNothing (ascii "s") (ascii "k") .empty
        (let r := ({ db := ⟨.empty, [false, true]⟩ } : XDataBase).zset (ascii "s") (ascii "k")
          (ascii "5")
        (r.1, r.2.rows)) := by
  refine ⟨.empty _, (all_or_nothing_iff { db := ⟨.empty, [false, true]⟩ } _ _ _ (.empty _)).1.mpr ?_⟩
  exact Or.inr (Or.inr (Or.inl rfl))

/-- A store with the member `k`, whose score is 5. -/
def oneMember : OrderedMap Bytes Bytes :=
  (({ db := ⟨.empty, []⟩ } : XDataBase).zset (ascii "s") (ascii "k") (ascii "5")).2.rows

theorem paired_oneMember : Paired (ascii "s") oneMember := by
  have hwhole : ({ db := ⟨.empty, []⟩ } : XDataBase).ZsetWhole (ascii "s") (ascii "k")
      (ascii "5") := Or.inr rfl
  have hall := (zsetOutcome_iff (x := { db := ⟨.empty, []⟩ }) (.empty (ascii "s")) _).mpr hwhole
  rw [oneMember, (XDataBase.zset_outcome _ (by decide) (by decide) _).2]
  exact hall.1

/-- A `Zset` whose `Zget` fails succeeds with a second score row for its member, and one whose last
`Put` fails leaves the score row of a member that is not there. -/
theorem half_updates :
    let late := ({ db := ⟨oneMember, [true]⟩ } : XDataBase).zset (ascii "s") (ascii "k") (ascii "7")
    let cut := ({ db := ⟨.empty, [false, false, true]⟩ } : XDataBase).zset (ascii "s") (ascii "k")
      (ascii "7")
    Paired (ascii "s") oneMember ∧ late.1 = .ok ∧ ¬ Paired (ascii "s") late.2.rows ∧
      Paired (ascii "s") .empty ∧ cut.1 = .err ∧ ¬ Paired (ascii "s") cut.2.rows ∧
        ¬ SameRows (ascii "s") (ascii "k") .empty cut.2.rows := by
  refine ⟨paired_oneMember, by decide, fun h => ?_, .empty _, by decide, fun h => ?_, fun h => ?_⟩
  · exact absurd (h (ascii "k") (ascii "5")) (by decide)
  · exact absurd (h (ascii "k") (ascii "7")) (by decide)
  · exact absurd (h.2 (ascii "7")) (by decide)

end XHttpCache
