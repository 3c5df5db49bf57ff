import XHttpCache.Store.DataBase

/-!
# Store — scans

`ScanKey` goes through the rows from `k|start` to before `k|end`.  These are the rows of the keys
from `start` to before `end`, in their order (`keysIn`), since `k` stands before both and the rows
of sorted sets start with another byte.  Of each row it decodes the key; `Decoder` has the size in
an `int`, and a row that does not decode leaves the key of the row before it.

* `scanKey_eq`: what it lists, row by row; `scanKey_exact_iff`: these are the keys exactly if each
  row has a size that is an `int`.
* `get_foldl_del`: what is left when keys are deleted one after another.
-/

namespace XHttpCache
open Support

/-- The key of a row that holds a value. -/
def kvKey (row : Bytes) : Option Bytes :=
  if row.head? = some DataTypeFlag.KV then some row.tail else none

theorem kvKey_eq_some {row k : Bytes} : kvKey row = some k ↔ row = encodeKey (.string k) := by
  cases row with
  | nil => simp [kvKey, encodeKey]
  | cons c row => simp [kvKey, encodeKey]

theorem encodeKey_string_lt {k k' : Bytes} :
    encodeKey (.string k) < encodeKey (.string k') ↔ k < k' := by
  simp [encodeKey]

/-- **The rows between two value rows** are value rows. -/
theorem between_string_iff {start stop row : Bytes} :
    encodeKey (.string start) ≤ row ∧ row < encodeKey (.string stop) ↔
      ∃ k, row = encodeKey (.string k) ∧ start ≤ k ∧ k < stop := by
  constructor
  · rintro ⟨hlo, hhi⟩
    cases row with
    | nil => exact absurd (List.nil_lt_cons _ _) (not_lt.mpr hlo)
    | cons c row =>
        rw [← not_lt, encodeKey, List.cons_lt_cons_iff, not_or] at hlo
        rw [encodeKey, List.cons_lt_cons_iff] at hhi
        obtain ⟨hc, hlo⟩ := hlo
        rcases hhi with hlt | ⟨rfl, hhi⟩
        · exact absurd hlt hc
        · exact ⟨row, rfl, not_lt.mp fun h => hlo ⟨rfl, h⟩, hhi⟩
  · rintro ⟨k, rfl, hlo, hhi⟩
    rw [← not_lt, encodeKey_string_lt, encodeKey_string_lt]
    exact ⟨not_lt.mpr hlo, hhi⟩

namespace XDataBase

variable {x : XDataBase} {start stop k : Bytes}

/-! ### The keys -/

/-- The keys that hold a value. -/
def kvKeys (x : XDataBase) : List Bytes := x.rows.rows.filterMap fun row => kvKey row.1

/-- Those from `start` on and before `stop`. -/
def keysIn (x : XDataBase) (start stop : Bytes) : List Bytes :=
  x.kvKeys.filter fun k => start ≤ k ∧ k < stop

theorem mem_kvKeys : k ∈ x.kvKeys ↔ x.valueRow k ≠ none := by
  rw [kvKeys, List.mem_filterMap, valueRow, Option.ne_none_iff_exists']
  constructor
  · rintro ⟨⟨row, v⟩, hrow, hk⟩
    exact ⟨v, by rw [← kvKey_eq_some.mp hk]; exact OrderedMap.mem_rows.mp hrow⟩
  · rintro ⟨v, hv⟩
    exact ⟨(_, v), OrderedMap.mem_rows.mpr hv, kvKey_eq_some.mpr rfl⟩

theorem sorted_kvKeys (x : XDataBase) : x.kvKeys.Pairwise (· < ·) := by
  refine List.Pairwise.filterMap _ ?_ x.rows.sorted
  intro a b hab k hk k' hk'
  rw [kvKey_eq_some.mp hk, kvKey_eq_some.mp hk'] at hab
  exact encodeKey_string_lt.mp hab

theorem mem_keysIn : k ∈ x.keysIn start stop ↔ x.valueRow k ≠ none ∧ start ≤ k ∧ k < stop := by
  rw [keysIn, List.mem_filter, mem_kvKeys, decide_eq_true_iff]

theorem sorted_keysIn (x : XDataBase) (start stop : Bytes) :
    (x.keysIn start stop).Pairwise (· < ·) :=
  x.sorted_kvKeys.filter _

/-- **The rows that the iterator goes through** are those of the keys, in their order. -/
theorem range_eq_keysIn (x : XDataBase) (start stop : Bytes) :
    (x.rows.range (encodeKey (.string start)) (encodeKey (.string stop))).map (·.1) =
      (x.keysIn start stop).map fun k => encodeKey (.string k) := by
  refine OrderedMap.eq_of_pairwise_of_mem_iff (R := (· < ·)) (fun _ _ => lt_asymm) ?_ ?_ ?_
  · exact (List.pairwise_map).mpr (x.rows.sorted_range _ _)
  · refine (List.pairwise_map).mpr ((x.sorted_keysIn start stop).imp ?_)
    exact encodeKey_string_lt.mpr
  · intro row
    simp only [List.mem_map, OrderedMap.mem_range, mem_keysIn, between_string_iff]
    constructor
    · rintro ⟨⟨row, v⟩, ⟨hrow, k, rfl, hk⟩, rfl⟩
      refine ⟨k, ⟨?_, hk⟩, rfl⟩
      rw [valueRow, OrderedMap.mem_rows.mp hrow]
      exact Option.some_ne_none v
    · rintro ⟨k, ⟨hv, hk⟩, rfl⟩
      obtain ⟨v, hv⟩ := Option.ne_none_iff_exists'.mp hv
      exact ⟨(_, v), ⟨OrderedMap.mem_rows.mpr hv, k, rfl, hk⟩, rfl⟩

/-! ### The loop -/

/-- The keys that are decoded, row by row. -/
def decodeRows : KeyParts → List Bytes → List Bytes
  | _, [] => []
  | out, row :: rows => (decodeKey row out).2.key :: decodeRows (decodeKey row out).2 rows

theorem scanLoop_eq {endKey : Bytes} {below : Bytes × Bytes → Bool}
    (hbelow : ∀ r, below r = true ↔ r.1 < endKey) (limit : Int) (it : List (Bytes × Bytes))
    (n : Int) (out : KeyParts) :
    scanLoop endKey limit it n out =
      decodeRows out (((it.takeWhile below).map (·.1)).take (limit - n).toNat) := by
  induction it generalizing n out with
  | nil => simp [scanLoop, decodeRows]
  | cons row it ih =>
      rw [scanLoop]
      by_cases hrow : row.1 < endKey
      · rw [List.takeWhile_cons_of_pos ((hbelow row).mpr hrow), List.map_cons]
        by_cases hn : limit > n
        · obtain ⟨m, hm⟩ : ∃ m, (limit - n).toNat = m + 1 := ⟨(limit - n).toNat - 1, by omega⟩
          have hnext := ih (n + 1) (decodeKey row.1 out).2
          rw [show (limit - (n + 1)).toNat = m by omega] at hnext
          rw [if_pos ⟨hrow, hn⟩, hm, List.take_succ_cons, decodeRows, ← hnext]
        · rw [if_neg fun h => hn h.2, show (limit - n).toNat = 0 by omega, List.take_zero,
            decodeRows]
      · rw [if_neg fun h => hrow h.1, List.takeWhile_cons_of_neg fun h => hrow ((hbelow row).mp h),
          List.map_nil, List.take_nil, decodeRows]

/-- **What `ScanKey` lists.** -/
theorem scanKey_keysIn (h : x.Healthy) (start stop : Bytes) (limit : Int) :
    x.scanKey start stop limit =
      (.ok, decodeRows {} (((x.keysIn start stop).take limit.toNat).map
        fun k => encodeKey (.string k)), x) := by
  obtain ⟨below, hbelow, hrange⟩ : ∃ below : Bytes × Bytes → Bool,
      (∀ r, below r = true ↔ r.1 < encodeKey (.string stop)) ∧
        ((x.rows.seek (encodeKey (.string start))).takeWhile below).map (·.1) =
          (x.keysIn start stop).map fun k => encodeKey (.string k) :=
    ⟨_, fun r => @decide_eq_true_iff _ (_), x.range_eq_keysIn start stop⟩
  rw [scanKey_spec h, scanLoop_eq hbelow, Int.sub_zero, hrange, List.map_take]

/-! ### Decoding -/

/-- The row of the key has a size that is an `int`. -/
def RowFits (k : Bytes) : Prop := (encodeKey (.string k)).length < 2 ^ 31

instance (k : Bytes) : Decidable (RowFits k) := inferInstanceAs (Decidable (_ < _))

theorem rowFits_nil : RowFits [] := by
  rw [RowFits, encodeKey, List.length_singleton]
  norm_num

theorem decodeKey_string (k : Bytes) (out : KeyParts) :
    (decodeKey (encodeKey (.string k)) out).2.key =
      if i32 (encodeKey (.string k)).length < 1 then out.key
      else k.take (i32 (encodeKey (.string k)).length - 1).toNat := by
  rw [decodeKey, if_pos (show (encodeKey (.string k)).headD 0 = DataTypeFlag.KV from rfl),
    Decoder.skip, Decoder.ofBytes]
  simp only [Nat.cast_one]
  split_ifs
  · rfl
  · simp only [Decoder.readData, encodeKey, List.drop_succ_cons, List.drop_zero]

/-- What is decoded is what there was before, or a beginning of the key. -/
theorem decodeKey_string_cases (k : Bytes) (out : KeyParts) :
    (decodeKey (encodeKey (.string k)) out).2.key = out.key ∨
      ∃ m, m + 1 < 2 ^ 31 ∧ (decodeKey (encodeKey (.string k)) out).2.key = k.take m := by
  have hlt : i32 (encodeKey (.string k)).length < 2 ^ 31 := i32_lt _
  rw [decodeKey_string]
  split_ifs with hsize
  · exact Or.inl rfl
  · exact Or.inr ⟨_, by omega, rfl⟩

theorem decodeKey_string_of_rowFits (h : RowFits k) (out : KeyParts) :
    (decodeKey (encodeKey (.string k)) out).2.key = k := by
  rw [RowFits, encodeKey, List.length_cons] at h
  rw [decodeKey_string, encodeKey, List.length_cons, i32_eq (by omega) (by omega),
    if_neg (by omega), List.take_of_length_le (by omega)]

theorem rowFits_take (k : Bytes) {m : Nat} (h : m + 1 < 2 ^ 31) : RowFits (k.take m) := by
  have hle := List.length_take_le m k
  rw [RowFits, encodeKey, List.length_cons]
  omega

/-- What is decoded fits. -/
theorem rowFits_decodeKey (k : Bytes) {out : KeyParts} (h : RowFits out.key) :
    RowFits (decodeKey (encodeKey (.string k)) out).2.key := by
  rcases decodeKey_string_cases k out with he | ⟨m, hm, he⟩
  · rw [he]
    exact h
  · rw [he]
    exact rowFits_take k hm

/-- The keys are decoded exactly if their rows fit. -/
theorem decodeRows_eq_iff (keys : List Bytes) {out : KeyParts} (h : RowFits out.key) :
    decodeRows out (keys.map fun k => encodeKey (.string k)) = keys ↔ ∀ k ∈ keys, RowFits k := by
  induction keys generalizing out with
  | nil => simp [decodeRows]
  | cons k keys ih =>
      rw [List.map_cons, decodeRows, List.cons.injEq, ih (rowFits_decodeKey k h),
        List.forall_mem_cons]
      refine and_congr_left fun _ => ⟨fun he => ?_, fun hk => decodeKey_string_of_rowFits hk out⟩
      rw [← he]
      exact rowFits_decodeKey k h

/-- **`ScanKey` is exact** if and only if the rows of the keys fit. -/
theorem scanKey_exact_iff (h : x.Healthy) (start stop : Bytes) (limit : Int) :
    (x.scanKey start stop limit).2.1 = (x.keysIn start stop).take limit.toNat ↔
      ∀ k ∈ (x.keysIn start stop).take limit.toNat, RowFits k := by
  rw [scanKey_keysIn h]
  exact decodeRows_eq_iff _ rowFits_nil

/-- What holds of the beginnings of the keys, and of the string before, holds of all that is
decoded. -/
theorem decodeRows_inv {P : Bytes → Prop} {keys : List Bytes}
    (hP : ∀ k ∈ keys, ∀ m, m + 1 < 2 ^ 31 → P (k.take m)) {out : KeyParts} (h : P out.key) :
    ∀ v ∈ decodeRows out (keys.map fun k => encodeKey (.string k)), P v := by
  induction keys generalizing out with
  | nil => exact fun v hv => absurd hv List.not_mem_nil
  | cons k keys ih =>
      obtain ⟨hk, hkeys⟩ := List.forall_mem_cons.mp hP
      have hnext : P (decodeKey (encodeKey (.string k)) out).2.key := by
        rcases decodeKey_string_cases k out with he | ⟨m, hm, he⟩
        · rw [he]
          exact h
        · rw [he]
          exact hk m hm
      rw [List.map_cons, decodeRows, List.forall_mem_cons]
      exact ⟨hnext, ih hkeys hnext⟩

/-- What is listed fits. -/
theorem rowFits_of_mem_scanKey (h : x.Healthy) {limit : Int}
    (hk : k ∈ (x.scanKey start stop limit).2.1) : RowFits k := by
  rw [scanKey_keysIn h] at hk
  exact decodeRows_inv (fun k _ _ hm => rowFits_take k hm) rowFits_nil k hk

/-- A key whose row fits is decoded, whatever came before. -/
theorem mem_decodeRows {keys : List Bytes} (hk : k ∈ keys) (h : RowFits k) (out : KeyParts) :
    k ∈ decodeRows out (keys.map fun k => encodeKey (.string k)) := by
  induction keys generalizing out with
  | nil => cases hk
  | cons k' keys ih =>
      rw [List.map_cons, decodeRows]
      rcases List.mem_cons.mp hk with rfl | hk
      · rw [decodeKey_string_of_rowFits h]
        exact List.mem_cons_self
      · exact List.mem_cons_of_mem _ (ih hk _)

/-! ### Deleting -/

/-- What is left when the keys are deleted one after another. -/
theorem get_foldl_del (keys : List Bytes) (h : x.Healthy) :
    let x' := keys.foldl (fun xdb key => (xdb.del key).2) x
    x'.Healthy ∧ ∀ row, x'.rows.get row =
      if row ∈ keys.map (fun k => encodeKey (.string k)) then none else x.rows.get row := by
  induction keys generalizing x with
  | nil => exact ⟨h, fun row => by simp⟩
  | cons key keys ih =>
      have hdel := (del_spec h key).2
      obtain ⟨hhealthy, hget⟩ := ih (healthy_of_db hdel)
      refine ⟨hhealthy, fun row => ?_⟩
      rw [List.foldl_cons, hget, rows_of_db hdel, OrderedMap.get_erase]
      by_cases hkey : row = encodeKey (.string key) <;>
        by_cases hkeys : row ∈ keys.map (fun k => encodeKey (.string k)) <;> simp [hkey, hkeys]

end XDataBase

end XHttpCache
