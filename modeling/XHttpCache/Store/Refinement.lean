import XHttpCache.Store.DataBase
import XHttpCache.Support.Runs

/-!
# Store — the store as two maps

What the database is for: a map from keys to timestamped values, and a map from (sorted set,
member) to scores.  `Op.apply` is each operation on the two maps, `Op.exec` the operation of
`xDataBase` on the rows.  From the empty store, with a RocksDB whose calls succeed, the two
answer alike (`store_refines_maps`), whatever bytes the keys, members, values and scores are
made of; sorted-set keys have 1 to 255 bytes, as their length is stored in one.

`Refines` relates rows and maps through the row encodings.  Its steps rest on the encodings
being injective and disjoint (`Keys.lean`); a score row is in none of the relation's rows, so
what `Zset` and `Zdel` do to the score rows is invisible here.
-/

namespace XHttpCache
open Support

/-! ### The two maps -/

/-- The abstract state. -/
structure Maps where
  kv : Bytes → Option XValue
  zs : Bytes → Bytes → Option Bytes

namespace Maps

/-- Both maps empty. -/
def empty : Maps := ⟨fun _ => none, fun _ _ => none⟩

/-- The value of one key written, or removed. -/
def updateKv (m : Maps) (key : Bytes) (v : Option XValue) : Maps :=
  { m with kv := Function.update m.kv key v }

/-- The score of one member written, or removed. -/
def updateZs (m : Maps) (key member : Bytes) (s : Option Bytes) : Maps :=
  { m with zs := Function.update m.zs key (Function.update (m.zs key) member s) }

variable (m : Maps)

theorem kv_updateKv (key k : Bytes) (v : Option XValue) :
    (m.updateKv key v).kv k = if k = key then v else m.kv k := by
  simp [updateKv, Function.update_apply]

@[simp] theorem zs_updateKv (key : Bytes) (v : Option XValue) : (m.updateKv key v).zs = m.zs := rfl

theorem zs_updateZs (key member k w : Bytes) (s : Option Bytes) :
    (m.updateZs key member s).zs k w = if k = key ∧ w = member then s else m.zs k w := by
  by_cases hk : k = key
  · subst hk; simp [updateZs, Function.update_apply]
  · simp [updateZs, hk]

@[simp] theorem kv_updateZs (key member : Bytes) (s : Option Bytes) :
    (m.updateZs key member s).kv = m.kv := rfl

end Maps

/-- A call on the database; `set` carries the clock value it is made at. -/
inductive Op where
  | set (now : Int) (key val : Bytes)
  | get (key : Bytes)
  | del (key : Bytes)
  | flushall
  | zset (key member score : Bytes)
  | zget (key member : Bytes)
  | zdel (key member : Bytes)

/-- What a call answers: a return code, the value of a `Get` that found one, or the score of a
`Zget` that found one. -/
inductive Answer where
  | code (c : RetCode)
  | value (v : XValue)
  | score (s : Bytes)
  deriving DecidableEq

/-- A sorted-set key has 1 to 255 bytes. -/
def SetKey (key : Bytes) : Prop := 1 ≤ key.length ∧ key.length ≤ 255

instance : DecidablePred SetKey := fun _ => inferInstanceAs (Decidable (_ ∧ _))

theorem SetKey.ne_nil {key : Bytes} (h : SetKey key) : key ≠ [] := List.ne_nil_of_length_pos h.1

namespace Op

/-- Sorted-set operations are on sorted-set keys. -/
def Valid : Op → Prop
  | zset key _ _ | zget key _ | zdel key _ => SetKey key
  | _ => True

instance : DecidablePred Valid
  | zset .. | zget .. | zdel .. => inferInstanceAs (Decidable (SetKey _))
  | set .. | get .. | del .. | flushall => inferInstanceAs (Decidable True)

/-- The call writes the value of key `k`. -/
def WritesKv (k : Bytes) : Op → Prop
  | set _ key _ | del key => key = k
  | flushall => True
  | _ => False

/-- The call writes the score of `member` in the sorted set `k`. -/
def WritesZs (k w : Bytes) : Op → Prop
  | zset key member _ | zdel key member => key = k ∧ member = w
  | flushall => True
  | _ => False

/-- The call, on the rows. -/
def exec (x : XDataBase) : Op → Answer × XDataBase
  | set now key val => let (c, x) := x.set now key val; (.code c, x)
  | get key =>
      match x.get key with
      | (.ok, v, x) => (.value v, x)
      | (c, _, x) => (.code c, x)
  | del key => let (c, x) := x.del key; (.code c, x)
  | flushall => let (c, x) := x.flushall; (.code c, x)
  | zset key member score => let (c, x) := x.zset key member score; (.code c, x)
  | zget key member =>
      match x.zget key member with
      | (.ok, s, x) => (.score s, x)
      | (c, _, x) => (.code c, x)
  | zdel key member => let (c, x) := x.zdel key member; (.code c, x)

/-- The call, on the maps.  `Zset` refuses an empty member and the score that is recorded. -/
def apply (m : Maps) : Op → Answer × Maps
  | set now key val =>
      (.code .ok, m.updateKv key (some ⟨getCurrentTime now, val⟩))
  | get key => (match m.kv key with | some v => .value v | none => .code .null, m)
  | del key => (.code .ok, m.updateKv key none)
  | flushall => (.code .ok, .empty)
  | zset key member score =>
      if member = [] ∨ m.zs key member = some score then (.code .err, m)
      else (.code .ok, m.updateZs key member (some score))
  | zget key member => (match m.zs key member with | some s => .score s | none => .code .null, m)
  | zdel key member =>
      if m.zs key member = none then (.code .err, m)
      else (.code .ok, m.updateZs key member none)

/-- A call changes the value of no key but the one it writes. -/
theorem apply_kv {op : Op} {k : Bytes} (h : ¬ op.WritesKv k) (m : Maps) :
    (op.apply m).2.kv k = m.kv k := by
  cases op with
  | set now key val => exact (m.kv_updateKv ..).trans (if_neg (Ne.symm h))
  | del key => exact (m.kv_updateKv ..).trans (if_neg (Ne.symm h))
  | flushall => exact absurd trivial h
  | zset key member score => rw [apply]; split <;> rfl
  | zdel key member => rw [apply]; split <;> rfl
  | get key => rfl
  | zget key member => rfl

/-- A call changes the score of no member but the one it writes. -/
theorem apply_zs {op : Op} {k w : Bytes} (h : ¬ op.WritesZs k w) (m : Maps) :
    (op.apply m).2.zs k w = m.zs k w := by
  have hne : ∀ {key member s}, ¬ (key = k ∧ member = w) →
      (m.updateZs key member s).zs k w = m.zs k w := fun h =>
    (m.zs_updateZs ..).trans (if_neg fun e => h ⟨e.1.symm, e.2.symm⟩)
  cases op with
  | zset key member score =>
      rw [apply]
      split
      · rfl
      · exact hne h
  | zdel key member =>
      rw [apply]
      split
      · rfl
      · exact hne h
  | flushall => exact absurd trivial h
  | set now key val => rfl
  | del key => rfl
  | get key => rfl
  | zget key member => rfl

end Op

/-- The rows `x` holds are those of the maps `m`. -/
structure Refines (x : XDataBase) (m : Maps) : Prop where
  healthy : x.Healthy
  kv : ∀ k, x.rows.get (encodeKey (.string k)) = (m.kv k).map fun v => v.encode.strValue
  stamp : ∀ k v, m.kv k = some v → v.timestamp < 2 ^ 64
  zs : ∀ key member, key.length ≤ 255 → x.rows.get (encodeKey (.zset key member)) = m.zs key member
  member : ∀ key, m.zs key [] = none

namespace Refines

variable {x : XDataBase} {m : Maps}

theorem empty (x : XDataBase) (h : x.db = ⟨.empty, []⟩) : Refines x .empty where
  healthy := XDataBase.healthy_of_db h
  kv _ := by rw [XDataBase.rows_of_db h]; rfl
  stamp _ _ hv := by cases hv
  zs _ _ _ := by rw [XDataBase.rows_of_db h]; rfl
  member _ := rfl

/-- A step that changes no row of a key or a member keeps the maps. -/
theorem congr {x' : XDataBase} (h : Refines x m) (hx : x'.db = ⟨x.rows, []⟩) : Refines x' m where
  healthy := XDataBase.healthy_of_db hx
  kv k := by rw [XDataBase.rows_of_db hx, h.kv]
  stamp := h.stamp
  zs key member hk := by rw [XDataBase.rows_of_db hx, h.zs key member hk]
  member := h.member

theorem set (h : Refines x m) (now : Int) (key val : Bytes) :
    Refines (x.set now key val).2 (m.updateKv key (some ⟨getCurrentTime now, val⟩)) := by
  have hdb := (XDataBase.set_spec h.healthy now key val).2
  refine ⟨XDataBase.healthy_of_db hdb, fun k => ?_, fun k v hv => ?_, fun zk member hk => ?_,
    h.member⟩
  · rw [XDataBase.rows_of_db hdb, OrderedMap.get_insert, Maps.kv_updateKv]
    by_cases hk : k = key
    · simp [hk, XValue.encode]
    · simp [hk, encodeKey_string_inj, h.kv]
  · rw [Maps.kv_updateKv] at hv
    split_ifs at hv
    · cases hv; exact u64_lt now
    · exact h.stamp k v hv
  · rw [XDataBase.rows_of_db hdb, OrderedMap.get_insert_ne _ _ (zset_ne_string _ _ _),
      h.zs zk member hk, Maps.zs_updateKv]

theorem del (h : Refines x m) (key : Bytes) : Refines (x.del key).2 (m.updateKv key none) := by
  have hdb := (XDataBase.del_spec h.healthy key).2
  refine ⟨XDataBase.healthy_of_db hdb, fun k => ?_, fun k v hv => ?_, fun zk member hk => ?_,
    h.member⟩
  · rw [XDataBase.rows_of_db hdb, OrderedMap.get_erase, Maps.kv_updateKv]
    by_cases hk : k = key
    · simp [hk]
    · simp [hk, encodeKey_string_inj, h.kv]
  · rw [Maps.kv_updateKv] at hv
    split_ifs at hv
    exact h.stamp k v hv
  · rw [XDataBase.rows_of_db hdb, OrderedMap.get_erase_ne _ (zset_ne_string _ _ _),
      h.zs zk member hk, Maps.zs_updateKv]

/-- Rows that keep every key row, and every member row but that of `(key, member)`. -/
theorem update_zs {x' : XDataBase} (h : Refines x m) {key member : Bytes} {s : Option Bytes}
    (hx : x'.Healthy) (hkl : key.length ≤ 255) (hm : member ≠ [])
    (hkv : ∀ k, x'.rows.get (encodeKey (.string k)) = x.rows.get (encodeKey (.string k)))
    (hzs : x'.rows.get (encodeKey (.zset key member)) = s)
    (hne : ∀ k w, encodeKey (.zset k w) ≠ encodeKey (.zset key member) →
      x'.rows.get (encodeKey (.zset k w)) = x.rows.get (encodeKey (.zset k w))) :
    Refines x' (m.updateZs key member s) := by
  refine ⟨hx, fun k => by rw [hkv, h.kv, Maps.kv_updateZs], h.stamp, fun k w hk => ?_,
    fun k => ?_⟩
  · rw [Maps.zs_updateZs]
    split_ifs with he
    · rw [he.1, he.2, hzs]
    · rw [hne k w fun e => he (encodeKey_zset_inj hk hkl e), h.zs k w hk]
  · rw [Maps.zs_updateZs, if_neg fun he => hm he.2.symm, h.member]

theorem zset (h : Refines x m) {key member score : Bytes} (hkl : key.length ≤ 255)
    (hk : key ≠ []) (hm : member ≠ []) (hs : m.zs key member ≠ some score) :
    (x.zset key member score).1 = .ok ∧
      Refines (x.zset key member score).2 (m.updateZs key member (some score)) := by
  obtain ⟨hok, hdb⟩ := XDataBase.zset_write h.healthy hk hm
    (show x.rows.get _ ≠ some score by rwa [h.zs key member hkl])
  refine ⟨hok, h.update_zs (XDataBase.healthy_of_db hdb) hkl hm (fun k => ?_) ?_
    fun k w he => ?_⟩
  · rw [XDataBase.rows_of_db hdb, XDataBase.zsetRows,
      OrderedMap.get_insert_ne _ _ (string_ne_zset _ _ _),
      OrderedMap.get_insert_ne _ _ (string_ne_zscore _ _ _ _)]
    split
    · rw [OrderedMap.get_erase_ne _ (string_ne_zscore _ _ _ _)]
    · rfl
  · rw [XDataBase.rows_of_db hdb, XDataBase.zsetRows, OrderedMap.get_insert_self]
  · rw [XDataBase.rows_of_db hdb, XDataBase.zsetRows, OrderedMap.get_insert_ne _ _ he,
      OrderedMap.get_insert_ne _ _ (zset_ne_zscore _ _ _ _ _)]
    split
    · rw [OrderedMap.get_erase_ne _ (zset_ne_zscore _ _ _ _ _)]
    · rfl

theorem zdel (h : Refines x m) {key member old : Bytes} (hkl : key.length ≤ 255)
    (hk : key ≠ []) (hs : m.zs key member = some old) :
    (x.zdel key member).1 = .ok ∧
      Refines (x.zdel key member).2 (m.updateZs key member none) := by
  have hm : member ≠ [] := fun e => by rw [e, h.member] at hs; cases hs
  obtain ⟨hok, hdb⟩ := XDataBase.zdel_present h.healthy hk hm
    (by rw [h.zs key member hkl, hs])
  refine ⟨hok, h.update_zs (XDataBase.healthy_of_db hdb) hkl hm (fun k => ?_) ?_
    fun k w he => ?_⟩
  · rw [XDataBase.rows_of_db hdb, XDataBase.zdelRows,
      OrderedMap.get_erase_ne _ (string_ne_zset _ _ _),
      OrderedMap.get_erase_ne _ (string_ne_zscore _ _ _ _)]
  · rw [XDataBase.rows_of_db hdb, XDataBase.zdelRows, OrderedMap.get_erase_self]
  · rw [XDataBase.rows_of_db hdb, XDataBase.zdelRows, OrderedMap.get_erase_ne _ he,
      OrderedMap.get_erase_ne _ (zset_ne_zscore _ _ _ _ _)]

theorem get (h : Refines x m) (key : Bytes) :
    (Op.exec x (.get key)).1 = (Op.apply m (.get key)).1 ∧
      Refines (Op.exec x (.get key)).2 m := by
  obtain ⟨h₁, h₂, h₃⟩ := XDataBase.get_spec h.healthy key
  rw [h.kv] at h₁ h₂
  rcases hg : x.get key with ⟨c, v, x'⟩
  rw [hg] at h₁ h₂ h₃
  simp only [Op.exec, Op.apply, hg]
  cases hm : m.kv key with
  | none =>
      obtain rfl : c = .null := by simpa [hm] using h₁
      exact ⟨rfl, h.congr h₃⟩
  | some v' =>
      obtain rfl : c = .ok := by simpa [hm] using h₁
      have hv : v = v' := (h₂ _ (by rw [hm]; rfl)).trans
        (XValue.decode_encode (h.stamp key v' hm) 0 v'.strValue)
      exact ⟨by rw [hv], h.congr h₃⟩

/-- **One call**: the rows and the maps answer alike, and stay related. -/
theorem step (h : Refines x m) {op : Op} (hv : op.Valid) :
    (op.exec x).1 = (op.apply m).1 ∧ Refines (op.exec x).2 (op.apply m).2 := by
  cases op with
  | set now key val =>
      exact ⟨congrArg Answer.code (XDataBase.set_spec h.healthy now key val).1, h.set now key val⟩
  | get key => exact h.get key
  | del key =>
      exact ⟨congrArg Answer.code (XDataBase.del_spec h.healthy key).1, h.del key⟩
  | flushall =>
      obtain ⟨h₁, h₂⟩ := XDataBase.flushall_spec h.healthy
      exact ⟨congrArg Answer.code h₁, .empty _ h₂⟩
  | zset key member score =>
      have hk : key ≠ [] := SetKey.ne_nil hv
      obtain ⟨-, hkl⟩ := hv
      simp only [Op.exec, Op.apply]
      split_ifs with hc
      · have he : x.zset key member score = (.err, x) := by
          rcases hc with hm | hs
          · exact XDataBase.zset_of_empty x (Or.inr hm) score
          · exact XDataBase.zset_same h.healthy (by rw [h.zs key member hkl, hs])
        rw [he]
        exact ⟨rfl, h⟩
      · rw [not_or] at hc
        obtain ⟨h₁, h₂⟩ := h.zset hkl hk hc.1 hc.2
        exact ⟨by rw [h₁], h₂⟩
  | zget key member =>
      obtain ⟨-, hkl⟩ := hv
      simp only [Op.exec, Op.apply, XDataBase.zget_spec h.healthy, h.zs key member hkl]
      cases m.zs key member with
      | none => exact ⟨rfl, h⟩
      | some s => exact ⟨rfl, h⟩
  | zdel key member =>
      have hk : key ≠ [] := SetKey.ne_nil hv
      obtain ⟨-, hkl⟩ := hv
      simp only [Op.exec, Op.apply]
      cases hs : m.zs key member with
      | none =>
          rw [XDataBase.zdel_absent h.healthy (by rw [h.zs key member hkl, hs]), if_pos rfl]
          exact ⟨rfl, h⟩
      | some old =>
          obtain ⟨h₁, h₂⟩ := h.zdel hkl hk hs
          rw [if_neg (by simp)]
          exact ⟨by rw [h₁], h₂⟩

/-- Every row of a key holds its 8-byte timestamp. -/
theorem length_row (h : Refines x m) {k v : Bytes}
    (hv : x.rows.get (encodeKey (.string k)) = some v) : 8 ≤ v.length := by
  rw [h.kv, Option.map_eq_some_iff] at hv
  obtain ⟨u, -, rfl⟩ := hv
  simp [XValue.encode]

end Refines

/-! ### Runs -/

/-- **The store refines two maps.**  Every call of a run from the empty store answers as on the
maps.  In the state `y` reached, every row of a key has its 8-byte timestamp; a call that does
not write a key, or a member, leaves what `Get`, or `Zget`, answers for it; and after a
`Flushall` every `Get` and `Zget` finds nothing. -/
theorem store_refines_maps {x : XDataBase} (hx : x.db = ⟨.empty, []⟩) {ops : List Op}
    (hops : ∀ op ∈ ops, op.Valid) :
    (run Op.exec x ops).1 = (run Op.apply .empty ops).1 ∧
      let y := (run Op.exec x ops).2
      (∀ k v, y.rows.get (encodeKey (.string k)) = some v → 8 ≤ v.length) ∧
      (∀ (op : Op) k, op.Valid → ¬ op.WritesKv k →
        (Op.exec (op.exec y).2 (.get k)).1 = (Op.exec y (.get k)).1) ∧
      (∀ (op : Op) k w, op.Valid → (Op.zget k w).Valid → ¬ op.WritesZs k w →
        (Op.exec (op.exec y).2 (.zget k w)).1 = (Op.exec y (.zget k w)).1) ∧
      (∀ k, (Op.exec (Op.exec y .flushall).2 (.get k)).1 = .code .null) ∧
      (∀ k w, (Op.zget k w).Valid →
        (Op.exec (Op.exec y .flushall).2 (.zget k w)).1 = .code .null) := by
  have hstep : ∀ x m (op : Op), op.Valid → Refines x m →
      (op.exec x).1 = (op.apply m).1 ∧ Refines (op.exec x).2 (op.apply m).2 :=
    fun _ _ _ hop h => h.step hop
  obtain ⟨hout, hy⟩ := run_sim hstep hops (Refines.empty x hx)
  have hget : ∀ k, (Op.get k).Valid := fun _ => trivial
  have hflush : Op.flushall.Valid := trivial
  refine ⟨hout, fun k v => hy.length_row, fun op k hop hk => ?_, fun op k w hop hz hk => ?_,
    fun k => ?_, fun k w hz => ?_⟩
  · rw [((hy.step hop).2.step (hget k)).1, (hy.step (hget k)).1, Op.apply, Op.apply_kv hk]
    rfl
  · rw [((hy.step hop).2.step hz).1, (hy.step hz).1, Op.apply, Op.apply_zs hk]
    rfl
  · rw [((hy.step hflush).2.step (hget k)).1]
    rfl
  · rw [((hy.step hflush).2.step hz).1]
    rfl

/-- A run over one key and one member, whose last `Zget` finds the score last written. -/
theorem store_refines_maps_run :
    (run Op.exec { db := ⟨.empty, []⟩ }
        [.set 5 [1] [2], .zset [3] [1] [9], .zset [3] [1] [8], .del [1], .get [1],
          .zget [3] [1]]).1 =
      [.code .ok, .code .ok, .code .ok, .code .ok, .code .null, .score [8]] :=
  (store_refines_maps rfl (by decide)).1

end XHttpCache
