import XHttpCache.Store.Refinement

/-!
# Store — the score index

`Zset` and `Zdel` keep two rows a member: its score under the member row, and an empty score
row whose key carries the score, in an order that agrees with the order of the scores.
`LoadExpirationKeys` reads the score rows of one sorted set from `SCORE_MIN` to `SCORE_MAX`.

* `ZIndex K rows ix`: the member rows and the score rows of the sorted set `K` are those of
  `ix : member → score`.  It speaks of the rows of `K` alone, so it can be assumed of one
  sorted set of a store about which nothing else is known.
* `ZIndex.load`: what `LoadExpirationKeys` adds is a prefix of the scores and members of `ix`
  in order.  A score row of `2 ^ 31` bytes or more does not pass through the `int` size of
  `Decoder`, so this needs `Fits`.
* `score_index_exact`: over every run from the empty store the score rows correspond to the
  member rows, and over every run whose score rows fit, `LoadExpirationKeys` loads the smallest.
-/

namespace XHttpCache
open Support

/-- The score row of `member` with score `d` in the sorted set `K`. -/
def scoreRow (K : Bytes) (d : Int) (member : Bytes) : Bytes :=
  encodeKey (.zscore K member (decimal d))

/-- The rows of the sorted set `K` are those of `ix`. -/
structure ZIndex (K : Bytes) (rows : OrderedMap Bytes Bytes) (ix : Bytes → Option Int) : Prop where
  zset : ∀ m, rows.get (encodeKey (.zset K m)) = (ix m).map decimal
  zscore : ∀ r v, zscorePrefix K <+: r →
    (rows.get r = some v ↔ v = [] ∧ ∃ m d, ix m = some d ∧ r = scoreRow K d m)
  member : ∀ m d, ix m = some d → m ≠ []
  score : ∀ m d, ix m = some d → IsI64 d

/-- A score that is loaded: one from `SCORE_MIN` up to `SCORE_MAX`. -/
def InRange (d : Int) : Prop := 0 ≤ d ∧ d < INT64_MAX

instance : DecidablePred InRange := fun _ => inferInstanceAs (Decidable (_ ∧ _))

theorem InRange.isI64 {d : Int} (h : InRange d) : IsI64 d :=
  ⟨(by decide : (-2 ^ 63 : Int) ≤ 0).trans h.1, h.2.trans (by decide)⟩

/-- Every score row of `K` has a size that an `int` holds. -/
def Fits (K : Bytes) (ix : Bytes → Option Int) : Prop :=
  ∀ m d, ix m = some d → (scoreRow K d m).length < 2 ^ 31

/-! ### Score rows -/

theorem length_scoreRow (K : Bytes) (d : Int) (m : Bytes) :
    (scoreRow K d m).length = 11 + K.length + m.length :=
  length_encodeKey_zscore K m (decimal d)

theorem prefix_scoreRow (K : Bytes) (d : Int) (m : Bytes) : zscorePrefix K <+: scoreRow K d m :=
  zscorePrefix_encodeKey K m (decimal d)

theorem strToInt64_decimal {d : Int} (h : IsI64 d) : strToInt64 (decimal d) = d :=
  strtoll_decimal h

theorem scoreRow_inj {K m m' : Bytes} {d d' : Int} (hK : K.length ≤ 255)
    (hd : IsI64 d) (hd' : IsI64 d') (h : scoreRow K d m = scoreRow K d' m') :
    m = m' ∧ d = d' := by
  obtain ⟨-, hm, hs⟩ := encodeKey_zscore_inj hK hK h
  rw [strToInt64_decimal hd, strToInt64_decimal hd'] at hs
  exact ⟨hm, hs⟩

/-- No member row starts as a score row does. -/
theorem not_prefix_zset (K key m : Bytes) : ¬ zscorePrefix K <+: encodeKey (.zset key m) :=
  fun ⟨_, h⟩ => absurd (List.cons.inj h).1 (by decide)

/-- No key row starts as a score row does. -/
theorem not_prefix_string (K k : Bytes) : ¬ zscorePrefix K <+: encodeKey (.string k) :=
  fun ⟨_, h⟩ => absurd (List.cons.inj h).1 (by decide)

theorem ne_of_prefixed {r r' p : Bytes} (h : p <+: r) (h' : ¬ p <+: r') : r ≠ r' :=
  fun e => h' (e ▸ h)

namespace ZIndex

variable {K : Bytes} {rows rows' : OrderedMap Bytes Bytes} {ix : Bytes → Option Int}

theorem empty (K : Bytes) : ZIndex K .empty fun _ => none where
  zset _ := rfl
  zscore _ _ _ := by simp
  member _ _ h := by cases h
  score _ _ h := by cases h

/-- The index depends on the rows of `K` alone. -/
theorem congr (h : ZIndex K rows ix)
    (hz : ∀ m, rows'.get (encodeKey (.zset K m)) = rows.get (encodeKey (.zset K m)))
    (hs : ∀ r, zscorePrefix K <+: r → rows'.get r = rows.get r) : ZIndex K rows' ix where
  zset m := by rw [hz, h.zset]
  zscore r v hr := by rw [hs r hr, h.zscore r v hr]
  member := h.member
  score := h.score

theorem insert_string (h : ZIndex K rows ix) (k v : Bytes) :
    ZIndex K (rows.insert (encodeKey (.string k)) v) ix :=
  h.congr (fun m => OrderedMap.get_insert_ne _ _ (zset_ne_string k K m))
    fun _ hr => OrderedMap.get_insert_ne _ _ (ne_of_prefixed hr (not_prefix_string K k))

theorem erase_string (h : ZIndex K rows ix) (k : Bytes) :
    ZIndex K (rows.erase (encodeKey (.string k))) ix :=
  h.congr (fun m => OrderedMap.get_erase_ne _ (zset_ne_string k K m))
    fun _ hr => OrderedMap.get_erase_ne _ (ne_of_prefixed hr (not_prefix_string K k))

/-- What `Zset` leaves at a score row. -/
theorem get_zsetRows_scoreRow (rows : OrderedMap Bytes Bytes) {key m s r : Bytes}
    (hr : zscorePrefix K <+: r) :
    (XDataBase.zsetRows rows key m s).get r =
      if r = encodeKey (.zscore key m s) then some []
      else if ∃ old, rows.get (encodeKey (.zset key m)) = some old ∧
        r = encodeKey (.zscore key m old) then none
      else rows.get r := by
  rw [XDataBase.zsetRows,
    OrderedMap.get_insert_ne _ _ (ne_of_prefixed hr (not_prefix_zset K key m)),
    OrderedMap.get_insert]
  cases hold : rows.get (encodeKey (.zset key m)) with
  | none => simp
  | some old =>
      simp only [OrderedMap.get_erase, Option.some.injEq, exists_eq_left']

/-- What `Zdel` leaves at a score row. -/
theorem get_zdelRows_scoreRow (rows : OrderedMap Bytes Bytes) {key m old r : Bytes}
    (hr : zscorePrefix K <+: r) :
    (XDataBase.zdelRows rows key m old).get r =
      if r = encodeKey (.zscore key m old) then none else rows.get r := by
  rw [XDataBase.zdelRows, OrderedMap.get_erase_ne _ (ne_of_prefixed hr (not_prefix_zset K key m)),
    OrderedMap.get_erase]

/-- `Zset` on another sorted set. -/
theorem zset_other (h : ZIndex K rows ix) {key : Bytes} (hK : K.length ≤ 255)
    (hkey : key.length ≤ 255) (hne : K ≠ key) (m s : Bytes) :
    ZIndex K (XDataBase.zsetRows rows key m s) ix := by
  have hrow : ∀ {r s'}, zscorePrefix K <+: r → r ≠ encodeKey (.zscore key m s') :=
    fun hr e => hne (zscorePrefix_inj hK hkey hr (e ▸ zscorePrefix_encodeKey key m _))
  refine h.congr (fun m' => ?_) fun r hr => ?_
  · rw [XDataBase.zsetRows,
      OrderedMap.get_insert_ne _ _ fun e => hne (encodeKey_zset_inj hK hkey e).1,
      OrderedMap.get_insert_ne _ _ (zset_ne_zscore _ _ _ _ _)]
    split
    · rw [OrderedMap.get_erase_ne _ (zset_ne_zscore _ _ _ _ _)]
    · rfl
  · rw [get_zsetRows_scoreRow rows hr, if_neg (hrow hr), if_neg]
    rintro ⟨_, _, e⟩
    exact hrow hr e

/-- `Zdel` on another sorted set. -/
theorem zdel_other (h : ZIndex K rows ix) {key : Bytes} (hK : K.length ≤ 255)
    (hkey : key.length ≤ 255) (hne : K ≠ key) (m old : Bytes) :
    ZIndex K (XDataBase.zdelRows rows key m old) ix := by
  refine h.congr (fun m' => ?_) fun r hr => ?_
  · rw [XDataBase.zdelRows,
      OrderedMap.get_erase_ne _ fun e => hne (encodeKey_zset_inj hK hkey e).1,
      OrderedMap.get_erase_ne _ (zset_ne_zscore _ _ _ _ _)]
  · have hrow : r ≠ encodeKey (.zscore key m old) := fun e =>
      hne (zscorePrefix_inj hK hkey hr (e ▸ zscorePrefix_encodeKey key m old))
    rw [get_zdelRows_scoreRow rows hr, if_neg hrow]

/-- `Zset` writes the score of its member, and moves its score row. -/
theorem zset_self (h : ZIndex K rows ix) (hK : K.length ≤ 255) {m : Bytes} (hm : m ≠ [])
    {d : Int} (hd : IsI64 d) :
    ZIndex K (XDataBase.zsetRows rows K m (decimal d)) (Function.update ix m (some d)) := by
  refine ⟨fun m' => ?_, fun r v hr => ?_, fun m' d' h' => ?_, fun m' d' h' => ?_⟩
  · by_cases hm' : m' = m
    · subst hm'
      rw [XDataBase.zsetRows, OrderedMap.get_insert_self, Function.update_self]
      rfl
    · rw [Function.update_of_ne hm', ← h.zset, XDataBase.zsetRows,
        OrderedMap.get_insert_ne _ _ fun e => hm' (encodeKey_zset_inj hK hK e).2,
        OrderedMap.get_insert_ne _ _ (zset_ne_zscore _ _ _ _ _)]
      split
      · rw [OrderedMap.get_erase_ne _ (zset_ne_zscore _ _ _ _ _)]
      · rfl
  · rw [get_zsetRows_scoreRow rows hr, h.zset]
    split_ifs with hnew hold
    · -- the new score row
      have hex : ∃ m' d', Function.update ix m (some d) m' = some d' ∧ r = scoreRow K d' m' :=
        ⟨m, d, Function.update_self .., hnew⟩
      exact ⟨fun e => ⟨(Option.some.inj e).symm, hex⟩, fun e => congrArg some e.1.symm⟩
    · -- the row of the old score, which is no longer recorded
      obtain ⟨old, hix, hr'⟩ := hold
      obtain ⟨d₀, hd₀, rfl⟩ := Option.map_eq_some_iff.mp hix
      refine ⟨False.elim, ?_⟩
      rintro ⟨_, m', d', h', e⟩
      by_cases hm' : m' = m
      · subst hm'
        rw [Function.update_self] at h'
        cases h'
        exact absurd e hnew
      · rw [Function.update_of_ne hm'] at h'
        exact absurd (scoreRow_inj hK (h.score _ _ h') (h.score _ _ hd₀) (e.symm.trans hr')).1 hm'
    · -- any other row, which is not of `m`
      rw [h.zscore r v hr]
      refine and_congr_right fun _ => exists_congr fun m' => exists_congr fun d' => ?_
      by_cases hm' : m' = m
      · subst hm'
        rw [Function.update_self]
        constructor
        · rintro ⟨h', e⟩
          exact absurd ⟨_, by rw [h']; rfl, e⟩ hold
        · rintro ⟨h', e⟩
          cases h'
          exact absurd e hnew
      · rw [Function.update_of_ne hm']
  · by_cases hm' : m' = m
    · rwa [hm']
    · exact h.member m' d' (by rwa [Function.update_of_ne hm'] at h')
  · by_cases hm' : m' = m
    · subst hm'
      rw [Function.update_self] at h'
      cases h'
      exact hd
    · exact h.score m' d' (by rwa [Function.update_of_ne hm'] at h')

/-- `Zdel` takes both rows of its member. -/
theorem zdel_self (h : ZIndex K rows ix) (hK : K.length ≤ 255) {m : Bytes} {d : Int}
    (hd : ix m = some d) :
    ZIndex K (XDataBase.zdelRows rows K m (decimal d)) (Function.update ix m none) := by
  refine ⟨fun m' => ?_, fun r v hr => ?_, fun m' d' h' => ?_, fun m' d' h' => ?_⟩
  · by_cases hm' : m' = m
    · subst hm'
      rw [XDataBase.zdelRows, OrderedMap.get_erase_self, Function.update_self]
      rfl
    · rw [Function.update_of_ne hm', ← h.zset, XDataBase.zdelRows,
        OrderedMap.get_erase_ne _ fun e => hm' (encodeKey_zset_inj hK hK e).2,
        OrderedMap.get_erase_ne _ (zset_ne_zscore _ _ _ _ _)]
  · rw [get_zdelRows_scoreRow rows hr]
    split_ifs with hold
    · refine ⟨False.elim, ?_⟩
      rintro ⟨_, m', d', h', e⟩
      by_cases hm' : m' = m
      · rw [hm', Function.update_self] at h'
        cases h'
      · rw [Function.update_of_ne hm'] at h'
        exact absurd (scoreRow_inj hK (h.score _ _ h') (h.score _ _ hd) (e.symm.trans hold)).1 hm'
    · rw [h.zscore r v hr]
      refine and_congr_right fun _ => exists_congr fun m' => exists_congr fun d' => ?_
      by_cases hm' : m' = m
      · subst hm'
        rw [Function.update_self, hd]
        constructor
        · rintro ⟨h', e⟩
          cases h'
          exact absurd e hold
        · rintro ⟨h', -⟩
          cases h'
      · rw [Function.update_of_ne hm']
  · by_cases hm' : m' = m
    · rw [hm', Function.update_self] at h'
      cases h'
    · exact h.member m' d' (by rwa [Function.update_of_ne hm'] at h')
  · by_cases hm' : m' = m
    · rw [hm', Function.update_self] at h'
      cases h'
    · exact h.score m' d' (by rwa [Function.update_of_ne hm'] at h')

end ZIndex

/-! ### Loading -/

/-- The loop over rows that start with the score rows of the items `L` adds the first `j`. -/
theorem loadLoop_items {K : Bytes} (hK : K.length ≤ 255) {stop : Bytes} {it : List (Bytes × Bytes)}
    {L : List Item} {below : Bytes × Bytes → Bool}
    (hL : (it.takeWhile below).map (·.1) = L.map fun i => scoreRow K (ofLex i).1 (ofLex i).2)
    (hbelow : ∀ r, below r = true ↔ r.1 < stop)
    (hd : ∀ i ∈ L, IsI64 (ofLex i).1)
    (hfit : ∀ i ∈ L, (scoreRow K (ofLex i).1 (ofLex i).2).length < 2 ^ 31)
    (j : Nat) (n : Int) (out : KeyParts) (s : SortedSet) :
    XDataBase.loadLoop stop (n + j) it n out s = (.ok, s.addAll (L.take j)) := by
  induction it generalizing L j n out s with
  | nil =>
      obtain rfl : L = [] := List.map_eq_nil_iff.mp hL.symm
      simp [XDataBase.loadLoop, SortedSet.addAll]
  | cons row it ih =>
      obtain ⟨k, v⟩ := row
      by_cases hk : k < stop
      · rw [List.takeWhile_cons_of_pos ((hbelow _).mpr hk), List.map_cons] at hL
        obtain ⟨i, L, rfl⟩ : ∃ i L', L = i :: L' := by
          cases L with
          | nil => cases hL
          | cons i L => exact ⟨i, L, rfl⟩
        obtain ⟨hki, hL⟩ := List.cons.inj hL
        obtain ⟨hd₀, hd⟩ := List.forall_mem_cons.mp hd
        obtain ⟨hfit₀, hfit⟩ := List.forall_mem_cons.mp hfit
        simp only at hki
        cases j with
        | zero => simp [XDataBase.loadLoop, SortedSet.addAll]
        | succ j =>
            have hgo : k < stop ∧ n + ((j + 1 : ℕ) : Int) > n := ⟨hk, by omega⟩
            have hz : k.headD 0 = DataTypeFlag.ZSCORE := by rw [hki]; rfl
            have hdec : decodeKey k out = (true, ⟨K, (ofLex i).2, decimal (ofLex i).1⟩) := by
              rw [hki, scoreRow, decodeKey_zscore hK hfit₀, strToInt64_decimal hd₀]
            have hn : n + ((j + 1 : ℕ) : Int) = n + 1 + j := by omega
            rw [XDataBase.loadLoop, if_pos hgo, if_neg (not_not.mpr hz), hdec, hn]
            simp only [strToInt64_decimal hd₀]
            rw [ih hL hd hfit j (n + 1)]
            rfl
      · rw [List.takeWhile_cons_of_neg fun h => hk ((hbelow _).mp h)] at hL
        obtain rfl : L = [] := List.map_eq_nil_iff.mp hL.symm
        rw [XDataBase.loadLoop, if_neg fun h => hk h.1]
        simp [SortedSet.addAll]

namespace ZIndex

variable {K : Bytes} {rows : OrderedMap Bytes Bytes} {ix : Bytes → Option Int}

/-- The rows that `LoadExpirationKeys` goes through. -/
def loadRange (K : Bytes) (rows : OrderedMap Bytes Bytes) : List (Bytes × Bytes) :=
  rows.range (encodeKey (.zscore K [] XDataBase.SCORE_MIN))
    (encodeKey (.zscore K [] XDataBase.SCORE_MAX))

theorem scoreRow_lt_iff {m m' : Bytes} {d d' : Int} (hd : InRange d) (hd' : InRange d') :
    scoreRow K d m < scoreRow K d' m' ↔ item d m < item d' m' := by
  have hu : ∀ {c}, InRange c → u64 c = c.toNat := fun hc =>
    u64_of_nonneg hc.1 (hc.2.trans (by decide))
  rw [scoreRow, scoreRow, encodeKey_zscore_lt_iff, strToInt64_decimal hd.isI64,
    strToInt64_decimal hd'.isI64, hu hd, hu hd', Prod.Lex.toLex_lt_toLex, Prod.Lex.toLex_lt_toLex]
  obtain ⟨h₀, -⟩ := hd
  obtain ⟨h₀', -⟩ := hd'
  simp only
  rw [show d.toNat < d'.toNat ↔ d < d' by omega, show d.toNat = d'.toNat ↔ d = d' by omega]

/-- The score rows from `SCORE_MIN` up to `SCORE_MAX`. -/
theorem scoreRow_between_iff {m : Bytes} {d : Int} (hd : IsI64 d) :
    (encodeKey (.zscore K [] XDataBase.SCORE_MIN) ≤ scoreRow K d m ∧
      scoreRow K d m < encodeKey (.zscore K [] XDataBase.SCORE_MAX)) ↔ InRange d := by
  have hmin : u64 (strToInt64 XDataBase.SCORE_MIN) = 0 := by decide
  have hmax : u64 (strToInt64 XDataBase.SCORE_MAX) = 2 ^ 63 - 1 := by decide
  have hlow : encodeKey (.zscore K [] XDataBase.SCORE_MIN) ≤ scoreRow K d m := by
    rw [← not_lt, scoreRow, encodeKey_zscore_lt_iff, hmin, Prod.Lex.toLex_lt_toLex]
    rintro (hlt | ⟨-, hlt⟩)
    · exact absurd hlt (Nat.not_lt_zero _)
    · exact absurd hlt (List.not_lt_nil m)
  rw [and_iff_right hlow, scoreRow, encodeKey_zscore_lt_iff, strToInt64_decimal hd, hmax,
    Prod.Lex.toLex_lt_toLex]
  -- no member is before the empty one, so the score decides
  have hmem : ¬ m < [] := List.not_lt_nil m
  have hu : u64 d < 2 ^ 63 - 1 ↔ InRange d := by
    obtain ⟨h₁, h₂⟩ := hd
    simp only [u64, InRange, INT64_MAX]
    omega
  rw [← hu]
  exact ⟨fun h => h.resolve_right fun h' => hmem h'.2, Or.inl⟩

/-- Those rows are the score rows of the index with a score in range. -/
theorem mem_loadRange (h : ZIndex K rows ix) {r v : Bytes} :
    (r, v) ∈ loadRange K rows ↔
      v = [] ∧ ∃ m d, ix m = some d ∧ InRange d ∧ r = scoreRow K d m := by
  rw [loadRange, OrderedMap.mem_range, OrderedMap.mem_rows]
  constructor
  · rintro ⟨hr, hlo, hhi⟩
    have hpre : zscorePrefix K <+: r := by
      rw [encodeKey_zscore_eq] at hlo hhi
      exact prefix_of_between hlo hhi
    obtain ⟨hv, m, d, hm, rfl⟩ := (h.zscore r v hpre).mp hr
    exact ⟨hv, m, d, hm, (scoreRow_between_iff (h.score m d hm)).mp ⟨hlo, hhi⟩, rfl⟩
  · rintro ⟨rfl, m, d, hm, hd, rfl⟩
    exact ⟨(h.zscore _ _ (prefix_scoreRow K d m)).mpr ⟨rfl, m, d, hm, rfl⟩,
      (scoreRow_between_iff hd.isI64).mpr hd⟩

/-- The items of the index, in the order of its score rows. -/
theorem exists_items (h : ZIndex K rows ix) (hK : K.length ≤ 255) :
    ∃ L : List Item, L.Pairwise (· < ·) ∧
      (∀ d m, item d m ∈ L ↔ ix m = some d ∧ InRange d) ∧
      (loadRange K rows).map (·.1) = L.map fun i => scoreRow K (ofLex i).1 (ofLex i).2 := by
  -- each row of the range is the score row of an item of the index
  have hrange : (loadRange K rows).map (·.1) ∈ Set.range (List.map
      fun i : {i : Item // ix (ofLex i).2 = some (ofLex i).1 ∧ InRange (ofLex i).1} =>
        scoreRow K (ofLex i.1).1 (ofLex i.1).2) := by
    rw [Set.range_list_map]
    intro r hr
    obtain ⟨⟨r, v⟩, hr', rfl⟩ := List.mem_map.mp hr
    obtain ⟨-, m, d, hm, hd, rfl⟩ := h.mem_loadRange.mp hr'
    exact ⟨⟨item d m, hm, hd⟩, rfl⟩
  obtain ⟨L', hL'⟩ := hrange
  obtain ⟨L, hLL⟩ : ∃ L, L = L'.map (·.1) := ⟨_, rfl⟩
  have hL : (loadRange K rows).map (·.1) =
      L.map fun i => scoreRow K (ofLex i).1 (ofLex i).2 := by
    rw [← hL', hLL, List.map_map]
    rfl
  have hix : ∀ i ∈ L, ix (ofLex i).2 = some (ofLex i).1 ∧ InRange (ofLex i).1 := by
    intro i hi
    rw [hLL] at hi
    obtain ⟨j, -, rfl⟩ := List.mem_map.mp hi
    exact j.2
  refine ⟨L, ?_, fun d m => ⟨fun hi => hix _ hi, fun ⟨hm, hd⟩ => ?_⟩, hL⟩
  · have hs : (L.map fun i => scoreRow K (ofLex i).1 (ofLex i).2).Pairwise (· < ·) := by
      rw [← hL, List.pairwise_map]
      exact rows.sorted_range _ _
    refine (List.pairwise_map.mp hs).imp_of_mem fun hi hj hij => ?_
    exact (scoreRow_lt_iff (hix _ hi).2 (hix _ hj).2).mp hij
  · have hr : scoreRow K d m ∈ L.map fun i => scoreRow K (ofLex i).1 (ofLex i).2 := by
      rw [← hL]
      exact List.mem_map.mpr ⟨_, h.mem_loadRange.mpr ⟨rfl, m, d, hm, hd, rfl⟩, rfl⟩
    obtain ⟨i, hi, hri⟩ := List.mem_map.mp hr
    obtain ⟨h₁, h₂⟩ := scoreRow_inj hK (hix i hi).2.isI64 hd.isI64 hri
    rw [← h₁, ← h₂]
    exact hi

/-- **What `LoadExpirationKeys` loads**: the first `n` of the items of the index in order. -/
theorem load (h : ZIndex K rows ix) (hfit : Fits K ix) (hK : K.length ≤ 255) :
    ∃ L : List Item, L.Pairwise (· < ·) ∧
      (∀ d m, item d m ∈ L ↔ ix m = some d ∧ InRange d) ∧
      ∀ x : XDataBase, x.Healthy → x.rows = rows → ∀ (n : Nat) (s : SortedSet),
        x.loadExpirationKeys K s n = (.ok, s.addAll (L.take n), x) := by
  obtain ⟨L, hlt, hmem, hL⟩ := h.exists_items hK
  refine ⟨L, hlt, hmem, fun x hx hrows n s => ?_⟩
  rw [loadRange, OrderedMap.range] at hL
  have hload := loadLoop_items hK hL (fun r => @decide_eq_true_iff _ (_))
    (fun i hi => ((hmem _ _).mp hi).2.isI64)
    (fun i hi => hfit _ _ ((hmem _ _).mp hi).1) n 0 {} s
  rw [Int.zero_add] at hload
  rw [XDataBase.loadExpirationKeys_spec hx, hrows, hload]

end ZIndex

/-- The items of a map from members to scores have distinct members. -/
theorem members_ne {ix : Bytes → Option Int} {L : List Item} (hlt : L.Pairwise (· < ·))
    (hmem : ∀ d m, item d m ∈ L → ix m = some d) :
    L.Pairwise fun i j => (ofLex i).2 ≠ (ofLex j).2 := by
  refine hlt.imp_of_mem fun {i j} hi hj hij e => ?_
  have h₁ : ix (ofLex i).2 = some (ofLex i).1 := hmem _ _ hi
  have h₂ : ix (ofLex j).2 = some (ofLex j).1 := hmem _ _ hj
  rw [e, h₂, Option.some.injEq] at h₁
  have hij' : i = j := Prod.ext h₁.symm e
  exact absurd hij (hij' ▸ lt_irrefl i)

/-! ### Every sorted set of a store -/

/-- The row key `r` belongs to a sorted set, if it looks like one that does. -/
structure Owned (r : Bytes) : Prop where
  zset : r.head? = some DataTypeFlag.ZSET → ∃ K m, SetKey K ∧ r = encodeKey (.zset K m)
  zscore : r.head? = some DataTypeFlag.ZSCORE → ∃ K, SetKey K ∧ zscorePrefix K <+: r

/-- Every row that looks like a sorted set's belongs to one. -/
def Owns (rows : OrderedMap Bytes Bytes) : Prop := ∀ r v, rows.get r = some v → Owned r

theorem Owned.string (k : Bytes) : Owned (encodeKey (.string k)) :=
  ⟨fun h => absurd (Option.some.inj h) (by decide), fun h => absurd (Option.some.inj h) (by decide)⟩

theorem Owned.zset_row {K : Bytes} (hK : SetKey K) (m : Bytes) : Owned (encodeKey (.zset K m)) :=
  ⟨fun _ => ⟨K, m, hK, rfl⟩, fun h => absurd (Option.some.inj h) (by decide)⟩

theorem Owned.zscore_row {K : Bytes} (hK : SetKey K) (m s : Bytes) :
    Owned (encodeKey (.zscore K m s)) :=
  ⟨fun h => absurd (Option.some.inj h) (by decide),
    fun _ => ⟨K, hK, zscorePrefix_encodeKey K m s⟩⟩

namespace Owns

variable {rows : OrderedMap Bytes Bytes}

theorem insert (h : Owns rows) {k : Bytes} (hk : Owned k) (w : Bytes) :
    Owns (rows.insert k w) := by
  intro r v hv
  rw [OrderedMap.get_insert] at hv
  split_ifs at hv with hr
  · rwa [hr]
  · exact h r v hv

theorem erase (h : Owns rows) (k : Bytes) : Owns (rows.erase k) := by
  intro r v hv
  rw [OrderedMap.get_erase] at hv
  split_ifs at hv
  exact h r v hv

theorem zsetRows (h : Owns rows) {K : Bytes} (hK : SetKey K) (m s : Bytes) :
    Owns (XDataBase.zsetRows rows K m s) := by
  rw [XDataBase.zsetRows]
  refine Owns.insert (Owns.insert ?_ (.zscore_row hK m s) _) (.zset_row hK m) _
  split
  · exact h.erase _
  · exact h

theorem zdelRows (h : Owns rows) (K m old : Bytes) : Owns (XDataBase.zdelRows rows K m old) :=
  (h.erase _).erase _

end Owns

/-- The sorted sets of the store are those of `ix`, whose members and scores satisfy `P`. -/
structure Scored (P : Bytes → Bytes → Int → Prop) (x : XDataBase)
    (ix : Bytes → Bytes → Option Int) : Prop where
  healthy : x.Healthy
  index : ∀ K, SetKey K → ZIndex K x.rows (ix K)
  owns : Owns x.rows
  member : ∀ K m d, ix K m = some d → P K m d

namespace Op

/-- The scores stored are canonical decimals of integers in `[0, 2 ^ 63 - 1)`. -/
def Canonical : Op → Prop
  | zset _ _ score => score = decimal (strToInt64 score) ∧ InRange (strToInt64 score)
  | _ => True

instance : DecidablePred Canonical
  | zset .. => inferInstanceAs (Decidable (_ ∧ _))
  | set .. | get .. | del .. | flushall | zget .. | zdel .. => inferInstanceAs (Decidable True)

/-- What is stored satisfies `P`. -/
def Stores (P : Bytes → Bytes → Int → Prop) : Op → Prop
  | zset key member score => P key member (strToInt64 score)
  | _ => True

end Op

namespace Scored

variable {P : Bytes → Bytes → Int → Prop} {x : XDataBase} {ix : Bytes → Bytes → Option Int}

theorem empty (P : Bytes → Bytes → Int → Prop) {x : XDataBase} (h : x.db = ⟨.empty, []⟩) :
    Scored P x fun _ _ => none := by
  have hrows := XDataBase.rows_of_db h
  refine ⟨XDataBase.healthy_of_db h, fun K _ => hrows ▸ .empty K, fun r v hv => ?_, nofun⟩
  rw [hrows] at hv
  cases hv

/-- The rows of the sorted set `key` change, and those of no other. -/
theorem update {x' : XDataBase} {r : OrderedMap Bytes Bytes} (h : Scored P x ix)
    (hx' : x'.db = ⟨r, []⟩) {key : Bytes} {f : Bytes → Option Int} (howns : Owns r)
    (hself : ZIndex key r f) (hP : ∀ m d, f m = some d → P key m d)
    (hother : ∀ K, SetKey K → K ≠ key → ZIndex K r (ix K)) :
    Scored P x' (Function.update ix key f) := by
  have hrows := XDataBase.rows_of_db hx'
  refine ⟨XDataBase.healthy_of_db hx', fun K hK => ?_, hrows ▸ howns, fun K m d hd => ?_⟩
  · rw [hrows]
    by_cases hKk : K = key
    · subst hKk
      rwa [Function.update_self]
    · rw [Function.update_of_ne hKk]
      exact hother K hK hKk
  · by_cases hKk : K = key
    · subst hKk
      rw [Function.update_self] at hd
      exact hP m d hd
    · rw [Function.update_of_ne hKk] at hd
      exact h.member K m d hd

/-- **One call** keeps the two kinds of rows in step. -/
theorem step (h : Scored P x ix) {op : Op} (hv : op.Valid) (hc : op.Canonical)
    (hP : op.Stores P) : ∃ ix', Scored P (op.exec x).2 ix' := by
  cases op with
  | set now key val =>
      have hdb := (XDataBase.set_spec h.healthy now key val).2
      have hrows := XDataBase.rows_of_db hdb
      exact ⟨ix, XDataBase.healthy_of_db hdb, fun K hK => hrows ▸ (h.index K hK).insert_string _ _,
        hrows ▸ h.owns.insert (.string key) _, h.member⟩
  | get key =>
      have hdb : (Op.exec x (.get key)).2.db = ⟨x.rows, []⟩ := by
        rw [← (XDataBase.get_spec h.healthy key).2.2, Op.exec]
        rcases x.get key with ⟨c, v, x'⟩
        cases c <;> rfl
      have hrows := XDataBase.rows_of_db hdb
      exact ⟨ix, XDataBase.healthy_of_db hdb, fun K hK => hrows ▸ h.index K hK, hrows ▸ h.owns,
        h.member⟩
  | del key =>
      have hdb := (XDataBase.del_spec h.healthy key).2
      have hrows := XDataBase.rows_of_db hdb
      exact ⟨ix, XDataBase.healthy_of_db hdb, fun K hK => hrows ▸ (h.index K hK).erase_string _,
        hrows ▸ h.owns.erase _, h.member⟩
  | flushall => exact ⟨_, .empty P (XDataBase.flushall_spec h.healthy).2⟩
  | zset key member score =>
      obtain ⟨hs, hd⟩ := hc
      by_cases hm : member = []
      · have he := XDataBase.zset_of_empty x (Or.inr hm : key = [] ∨ member = []) score
        exact ⟨ix, by rw [Op.exec, he]; exact h⟩
      by_cases hg : x.rows.get (encodeKey (.zset key member)) = some score
      · exact ⟨ix, by rw [Op.exec, XDataBase.zset_same h.healthy hg]; exact h⟩
      · have hdb := (XDataBase.zset_write h.healthy (SetKey.ne_nil hv) hm hg).2
        refine ⟨_, h.update hdb (h.owns.zsetRows hv member score)
          (f := Function.update (ix key) member (some (strToInt64 score))) ?_ (fun m d hmd => ?_)
          fun K hK hne => (h.index K hK).zset_other hK.2 hv.2 hne member score⟩
        · have := (h.index key hv).zset_self hv.2 hm hd.isI64
          rwa [← hs] at this
        · by_cases hmm : m = member
          · rw [hmm, Function.update_self] at hmd
            cases hmd
            rw [hmm]
            exact hP
          · exact h.member key m d (by rwa [Function.update_of_ne hmm] at hmd)
  | zget key member =>
      have he : (Op.exec x (.zget key member)).2 = x := by
        rw [Op.exec, XDataBase.zget_spec h.healthy]
        cases x.rows.get (encodeKey (.zset key member)) <;> rfl
      exact ⟨ix, by rwa [he]⟩
  | zdel key member =>
      cases hd : ix key member with
      | none =>
          have hg := (h.index key hv).zset member
          rw [hd] at hg
          exact ⟨ix, by rw [Op.exec, XDataBase.zdel_absent h.healthy hg]; exact h⟩
      | some d =>
          have hg := (h.index key hv).zset member
          rw [hd] at hg
          have hdb := (XDataBase.zdel_present h.healthy (SetKey.ne_nil hv)
            ((h.index key hv).member member d hd) hg).2
          refine ⟨_, h.update hdb (h.owns.zdelRows key member _)
            ((h.index key hv).zdel_self hv.2 hd) (fun m d' hmd => ?_)
            fun K hK hne => (h.index K hK).zdel_other hK.2 hv.2 hne member _⟩
          by_cases hmm : m = member
          · rw [hmm, Function.update_self] at hmd
            cases hmd
          · exact h.member key m d' (by rwa [Function.update_of_ne hmm] at hmd)

/-- What every call of a run stores holds of what the store has at its end. -/
theorem of_run {x : XDataBase} (hx : x.db = ⟨.empty, []⟩) {ops : List Op}
    (hops : ∀ op ∈ ops, op.Valid ∧ op.Canonical ∧ op.Stores P) :
    ∃ ix, Scored P (run Op.exec x ops).2 ix := by
  have hstep : ∀ x (op : Op), (op.Valid ∧ op.Canonical ∧ op.Stores P) →
      (∃ ix, Scored P x ix) → ∃ ix, Scored P (op.exec x).2 ix :=
    fun _ _ ⟨hv, hc, hP⟩ ⟨_, h⟩ => h.step hv hc hP
  exact run_inv hstep hops ⟨_, .empty P hx⟩

end Scored

/-! ### The rows of a store -/

/-- The row keys of the store that start with `flag`. -/
def rowsOf (rows : OrderedMap Bytes Bytes) (flag : Byte) : Set Bytes :=
  {r | r.head? = some flag ∧ (rows.get r).isSome}

/-- The members of the sorted sets of the store, each with the key of its set. -/
def members (rows : OrderedMap Bytes Bytes) : Set (Bytes × Bytes) :=
  {p | SetKey p.1 ∧ (rows.get (encodeKey (.zset p.1 p.2))).isSome}

/-- The member row of a member. -/
def memberRowOf (p : Bytes × Bytes) : Bytes := encodeKey (.zset p.1 p.2)

/-- The score row of a member with its current score. -/
def scoreRowOf (rows : OrderedMap Bytes Bytes) (p : Bytes × Bytes) : Bytes :=
  encodeKey (.zscore p.1 p.2 ((rows.get (memberRowOf p)).getD []))

theorem bijOn_memberRowOf {P : Bytes → Bytes → Int → Prop} {x : XDataBase}
    {ix : Bytes → Bytes → Option Int} (h : Scored P x ix) :
    Set.BijOn memberRowOf (members x.rows) (rowsOf x.rows DataTypeFlag.ZSET) := by
  refine ⟨fun p hp => ⟨rfl, hp.2⟩, fun p hp q hq he => ?_, fun r ⟨hr, hs⟩ => ?_⟩
  · exact Prod.ext_iff.mpr (encodeKey_zset_inj hp.1.2 hq.1.2 he)
  · obtain ⟨v, hv⟩ := Option.isSome_iff_exists.mp hs
    obtain ⟨K, m, hK, rfl⟩ := (h.owns r v hv).zset hr
    exact ⟨(K, m), ⟨hK, hs⟩, rfl⟩

theorem bijOn_scoreRowOf {P : Bytes → Bytes → Int → Prop} {x : XDataBase}
    {ix : Bytes → Bytes → Option Int} (h : Scored P x ix) :
    Set.BijOn (scoreRowOf x.rows) (members x.rows) (rowsOf x.rows DataTypeFlag.ZSCORE) := by
  -- a member's current score is the one the index has
  have hscore : ∀ {K m d}, SetKey K → ix K m = some d →
      scoreRowOf x.rows (K, m) = scoreRow K d m := by
    intro K m d hK hd
    rw [scoreRowOf, memberRowOf, (h.index K hK).zset, hd]
    rfl
  refine ⟨fun ⟨K, m⟩ hp => ⟨rfl, ?_⟩, fun p hp q hq he => ?_, fun r ⟨hr, hs⟩ => ?_⟩
  · obtain ⟨hK, hp⟩ := hp
    rw [(h.index K hK).zset, Option.isSome_map, Option.isSome_iff_exists] at hp
    obtain ⟨d, hd⟩ := hp
    rw [hscore hK hd,
      ((h.index K hK).zscore _ _ (prefix_scoreRow K d m)).mpr ⟨rfl, m, d, hd, rfl⟩]
    rfl
  · obtain ⟨hK, hm, -⟩ := encodeKey_zscore_inj hp.1.2 hq.1.2 he
    exact Prod.ext hK hm
  · obtain ⟨v, hv⟩ := Option.isSome_iff_exists.mp hs
    obtain ⟨K, hK, hpre⟩ := (h.owns r v hv).zscore hr
    obtain ⟨-, m, d, hd, rfl⟩ := ((h.index K hK).zscore r v hpre).mp hv
    refine ⟨(K, m), ⟨hK, ?_⟩, hscore hK hd⟩
    rw [(h.index K hK).zset, hd]
    rfl

/-- **The score index is exact.**  In the state `y` that a run from the empty store reaches, the
members of the sorted sets are the member rows and, each with its current score, the score
rows.  When the score rows of the run's members have sizes that an `int` holds, loading from a
sorted set `K` gives, for every limit, that many of the smallest items of `K`. -/
theorem score_index_exact {x : XDataBase} (hx : x.db = ⟨.empty, []⟩) {ops : List Op}
    (hops : ∀ op ∈ ops, op.Valid ∧ op.Canonical) :
    let y := (run Op.exec x ops).2
    Set.BijOn memberRowOf (members y.rows) (rowsOf y.rows DataTypeFlag.ZSET) ∧
      Set.BijOn (scoreRowOf y.rows) (members y.rows) (rowsOf y.rows DataTypeFlag.ZSCORE) ∧
      ((∀ op ∈ ops, op.Stores fun key member _ => 11 + key.length + member.length < 2 ^ 31) →
        ∀ K, SetKey K → ∃ L : List Item, L.Pairwise (· < ·) ∧
          (∀ d m, item d m ∈ L ↔ IsI64 d ∧ y.zget K m = (.ok, decimal d, y)) ∧
          ∀ n : Nat, ∃ keylist, y.loadExpirationKeys K .init n = (.ok, keylist, y) ∧
            keylist.items = L.take n) := by
  intro y
  have hstores : ∀ op : Op, op.Stores fun _ _ _ => True := by
    intro op
    cases op <;> trivial
  obtain ⟨ix, h⟩ := Scored.of_run (P := fun _ _ _ => True) hx fun op hop =>
    ⟨(hops op hop).1, (hops op hop).2, hstores op⟩
  refine ⟨bijOn_memberRowOf h, bijOn_scoreRowOf h, fun hfit K hK => ?_⟩
  have hstores : ∀ op ∈ ops, op.Stores fun key member d =>
      11 + key.length + member.length < 2 ^ 31 ∧ InRange d := by
    intro op hop
    have hf := hfit op hop
    have hc := (hops op hop).2
    cases op with
    | zset key member score => exact ⟨hf, hc.2⟩
    | _ => trivial
  obtain ⟨ix, h⟩ := Scored.of_run hx fun op hop =>
    ⟨(hops op hop).1, (hops op hop).2, hstores op hop⟩
  have hfits : Fits K (ix K) := by
    intro m d hd
    rw [length_scoreRow]
    exact (h.member K m d hd).1
  obtain ⟨L, hlt, hmem, hload⟩ := (h.index K hK).load hfits hK.2
  refine ⟨L, hlt, fun d m => ?_, fun n => ⟨_, hload y h.healthy rfl n _, ?_⟩⟩
  · rw [hmem, show y.zget K m = _ from XDataBase.zget_spec h.healthy K m,
      (h.index K hK).zset]
    cases hm : ix K m with
    | none => exact ⟨nofun, nofun⟩
    | some d' =>
        have hd' := (h.member K m d' hm).2
        refine ⟨fun ⟨e, _⟩ => ?_, fun ⟨hd, e⟩ => ?_⟩
        · cases e
          exact ⟨hd'.isI64, rfl⟩
        · obtain rfl := decimal_inj hd'.isI64 hd (congrArg (·.2.1) e)
          exact ⟨rfl, hd'⟩
  · exact SortedSet.items_addAll (hlt.sublist (List.take_sublist n L))
      ((members_ne hlt fun d m hi => ((hmem d m).mp hi).1).sublist (List.take_sublist n L))

/-- Two members, of which a limit of one loads the one with the smaller score. -/
theorem score_index_exact_run :
    let y := (run Op.exec { db := ⟨.empty, []⟩ }
      [.zset (ascii "e") [1] (ascii "5"), .zset (ascii "e") [2] (ascii "30"),
        .zset (ascii "e") [1] (ascii "40")]).2
    ∃ L : List Item, L.Pairwise (· < ·) ∧
      (∀ d m, item d m ∈ L ↔ IsI64 d ∧ y.zget (ascii "e") m = (.ok, decimal d, y)) ∧
      ∀ n : Nat, ∃ keylist, y.loadExpirationKeys (ascii "e") .init n = (.ok, keylist, y) ∧
        keylist.items = L.take n :=
  (score_index_exact rfl (by decide)).2.2 (by simp [Op.Stores, ascii]) (ascii "e") (by decide)

/-! ### A score row whose size no `int` holds -/

/-- A score row of `2 ^ 31` bytes or more does not decode, and the loop adds the empty key with
score 0 for it. -/
theorem load_of_large {K m : Bytes} {d : Int} (hK : K.length ≤ 255) (hd : InRange d)
    {x : XDataBase} (hx : x.Healthy) (h : ZIndex K x.rows (Function.update (fun _ => none) m (some d)))
    (h₁ : 2 ^ 31 ≤ 11 + K.length + m.length) (h₂ : 11 + K.length + m.length < 2 ^ 32) :
    (x.loadExpirationKeys K .init 1).1 = .ok ∧
      (x.loadExpirationKeys K .init 1).2.1.items = [item 0 []] := by
  obtain ⟨L, hlt, hmem, hL⟩ := h.exists_items hK
  obtain rfl : L = [item d m] := by
    refine hlt.eq_of_mem_iff (List.pairwise_singleton _ _) fun i => ?_
    rw [show i = item (ofLex i).1 (ofLex i).2 from rfl, hmem, List.mem_singleton,
      Function.update_apply]
    split_ifs with hm
    · rw [hm]
      refine ⟨fun e => by rw [← Option.some.inj e.1], fun e => ?_⟩
      have hd' : (ofLex i).1 = d := congrArg (·.1) e
      exact ⟨by rw [hd'], hd' ▸ hd⟩
    · exact ⟨nofun, fun e => absurd (congrArg (·.2) e) hm⟩
  rw [ZIndex.loadRange, OrderedMap.range] at hL
  rw [XDataBase.loadExpirationKeys_spec hx]
  cases hseek : x.rows.seek (encodeKey (.zscore K [] XDataBase.SCORE_MIN)) with
  | nil =>
      rw [hseek] at hL
      cases hL
  | cons row it =>
      obtain ⟨r, v⟩ := row
      rw [hseek, List.takeWhile_cons] at hL
      split_ifs at hL with hr
      · obtain rfl : r = scoreRow K d m := (List.cons.inj hL).1
        have hgo : scoreRow K d m < encodeKey (.zscore K [] XDataBase.SCORE_MAX) ∧ (1 : Int) > 0 :=
          ⟨(@decide_eq_true_iff _ (_)).mp hr, by decide⟩
        have hz : (scoreRow K d m).headD 0 = DataTypeFlag.ZSCORE := rfl
        have hdec : ∀ out, decodeKey (scoreRow K d m) out = (false, out) :=
          decodeKey_of_large (by rwa [length_scoreRow]) (by rwa [length_scoreRow])
        rw [XDataBase.loadLoop, if_pos hgo, if_neg (not_not.mpr hz), hdec]
        -- the limit is reached, whatever rows are left
        have hend : ∀ stop out s, XDataBase.loadLoop stop 1 it (0 + 1) out s = (.ok, s) := by
          intro stop out s
          cases it with
          | nil => rfl
          | cons row it => rw [XDataBase.loadLoop, if_neg fun h => absurd h.2 (by decide)]
        rw [hend]
        exact ⟨rfl, rfl⟩
      · cases hL

/-- The store after a first `Zset`. -/
theorem zset_first {x : XDataBase} (hx : x.db = ⟨.empty, []⟩) {K m : Bytes} {d : Int}
    (hK : SetKey K) (hm : m ≠ []) (hd : IsI64 d) :
    (x.zset K m (decimal d)).2.Healthy ∧
      ZIndex K (x.zset K m (decimal d)).2.rows (Function.update (fun _ => none) m (some d)) := by
  have hg : x.rows.get (encodeKey (.zset K m)) ≠ some (decimal d) := by
    rw [XDataBase.rows_of_db hx]
    nofun
  have hdb := (XDataBase.zset_write (XDataBase.healthy_of_db hx) hK.ne_nil hm hg).2
  rw [XDataBase.rows_of_db hx] at hdb
  refine ⟨XDataBase.healthy_of_db hdb, ?_⟩
  rw [XDataBase.rows_of_db hdb]
  exact (ZIndex.empty K).zset_self hK.2 hm hd

/-- A large member is recorded with its score, and loading one item gives the empty key, which
was never added. -/
theorem load_zset_large {x : XDataBase} (hx : x.db = ⟨.empty, []⟩) {m : Bytes}
    (h₁ : 2 ^ 31 ≤ m.length) (h₂ : m.length < 2 ^ 32 - 12) :
    let y := (x.zset (ascii "e") m (decimal 5)).2
    y.zget (ascii "e") m = (.ok, decimal 5, y) ∧
      (y.loadExpirationKeys (ascii "e") .init 1).2.1.items = [item 0 []] := by
  intro y
  have hK : SetKey (ascii "e") := by decide
  have hd : InRange 5 := by decide
  have hlen : (ascii "e").length = 1 := rfl
  obtain ⟨hy, hix⟩ := zset_first hx hK (List.ne_nil_of_length_pos (by omega : 0 < m.length))
    hd.isI64
  refine ⟨?_, (load_of_large hK.2 hd hy hix (by omega) (by omega)).2⟩
  rw [XDataBase.zget_spec hy, hix.zset, Function.update_self]
  rfl

/-- The run that records a member of `2 ^ 31` bytes. -/
theorem load_large_member :
    let y := (run Op.exec { db := ⟨.empty, []⟩ }
      [.zset (ascii "e") (List.replicate (2 ^ 31) 0) (decimal 5)]).2
    y.zget (ascii "e") (List.replicate (2 ^ 31) 0) = (.ok, decimal 5, y) ∧
      (y.loadExpirationKeys (ascii "e") .init 1).2.1.items = [item 0 []] := by
  have h₁ : 2 ^ 31 ≤ (List.replicate (2 ^ 31) (0 : Byte)).length := by rw [List.length_replicate]
  have h₂ : (List.replicate (2 ^ 31) (0 : Byte)).length < 2 ^ 32 - 12 := by
    rw [List.length_replicate]
    decide
  generalize List.replicate (2 ^ 31) (0 : Byte) = m at h₁ h₂ ⊢
  exact load_zset_large (x := { db := ⟨.empty, []⟩ }) rfl h₁ h₂

end XHttpCache
