import XHttpCache.Support.OrderedMap
import XHttpCache.Support.Bytes

/-!
# Store — `SortedSet`

`common/sorted_set.h` and `sorted_set.cpp`: keys with scores, in the order of
`Item::operator<`, which is the lexicographic order of (score, key).  `sorted_set` holds the
items; `existed` maps each key to its item, and an iterator into `sorted_set` is the score of
the item it points at.  The two fields describe the same items: that is the field `agree`, so
a set whose halves disagree cannot be built.

A set is read through `score?`, the score of a key: every operation has its equation for
`score?`, and `front`, `back` and `max_score` are the least and the greatest item.
-/

namespace XHttpCache
open Support

/-- `SortedSet::Item`, in the order of its `operator<`. -/
abbrev Item := Int ×ₗ Bytes

/-- The item of `key` with `score`. -/
abbrev item (score : Int) (key : Bytes) : Item := toLex (score, key)

/-- `SortedSet`. -/
structure SortedSet where
  existed : OrderedMap Bytes Int
  sortedSet : OrderedMap Item Unit
  agree : ∀ key score, existed.get key = some score ↔ sortedSet.get (item score key) = some ()

namespace SortedSet

/-- The set as it is constructed. -/
def init : SortedSet := ⟨.empty, .empty, fun _ _ => by simp⟩

/-- The score of `key`. -/
def score? (s : SortedSet) (key : Bytes) : Option Int := s.existed.get key

/-- `SortedSet::size`. -/
def size (s : SortedSet) : Nat := s.sortedSet.size

/-- `SortedSet::empty`. -/
def empty (s : SortedSet) : Bool := s.size = 0

theorem agree_insert {e : OrderedMap Bytes Int} {t : OrderedMap Item Unit}
    (h : ∀ key score, e.get key = some score ↔ t.get (item score key) = some ())
    {key : Bytes} (score : Int) (hn : e.get key = none) :
    ∀ k v, (e.insert key score).get k = some v ↔
      (t.insert (item score key) ()).get (item v k) = some () := by
  intro k v
  rw [OrderedMap.get_insert, OrderedMap.get_insert]
  by_cases hk : k = key
  · subst hk
    have hnt : t.get (item v k) ≠ some () := fun ht => by
      rw [← h, hn] at ht; cases ht
    by_cases hv : v = score
    · simp [hv]
    · simp [hv, Ne.symm hv, hnt]
  · have hne : item v k ≠ item score key := fun e => hk (congrArg Prod.snd (toLex.injective e))
    rw [if_neg hk, if_neg hne, h]

theorem agree_erase {e : OrderedMap Bytes Int} {t : OrderedMap Item Unit}
    (h : ∀ key score, e.get key = some score ↔ t.get (item score key) = some ())
    {key : Bytes} {score : Int} (hs : e.get key = some score) :
    ∀ k v, (e.erase key).get k = some v ↔ (t.erase (item score key)).get (item v k) = some () := by
  intro k v
  rw [OrderedMap.get_erase, OrderedMap.get_erase]
  by_cases hk : k = key
  · subst hk
    by_cases hv : v = score
    · simp [hv]
    · have hnt : t.get (item v k) ≠ some () := fun ht => by
        rw [← h, hs] at ht; exact hv (Option.some.inj ht).symm
      simp [hv, hnt]
  · have hne : item v k ≠ item score key := fun e => hk (congrArg Prod.snd (toLex.injective e))
    rw [if_neg hk, if_neg hne, h]

theorem agree_replace {e : OrderedMap Bytes Int} {t : OrderedMap Item Unit}
    (h : ∀ key score, e.get key = some score ↔ t.get (item score key) = some ())
    {key : Bytes} {old : Int} (score : Int) (hs : e.get key = some old) :
    ∀ k v, (e.insert key score).get k = some v ↔
      ((t.erase (item old key)).insert (item score key) ()).get (item v k) = some () := by
  intro k v
  rw [← agree_insert (agree_erase h hs) score (OrderedMap.get_erase_self e key) k v,
    OrderedMap.get_insert, OrderedMap.get_insert]
  by_cases hk : k = key
  · simp [hk]
  · simp [hk, OrderedMap.get_erase_ne e hk]

/-! ### The operations -/

/-- `SortedSet::add`. -/
def add (s : SortedSet) (key : Bytes) (score : Int) : Int × SortedSet :=
  match h : s.existed.get key with
  | none =>
      -- new item
      (1, ⟨s.existed.insert key score, s.sortedSet.insert (item score key) (),
        agree_insert s.agree score h⟩)
  | some old =>
      -- not updated
      if old = score then (0, s)
      -- remove existing item
      else (0, ⟨s.existed.insert key score,
        (s.sortedSet.erase (item old key)).insert (item score key) (),
        agree_replace s.agree score h⟩)

/-- `SortedSet::del`: 0 for not found, 1 for found and deleted. -/
def del (s : SortedSet) (key : Bytes) : Int × SortedSet :=
  match h : s.existed.get key with
  | none => (0, s)
  | some old =>
      (1, ⟨s.existed.erase key, s.sortedSet.erase (item old key), agree_erase s.agree h⟩)

/-- `SortedSet::front`: the first item, if any. -/
def front (s : SortedSet) : Option Item := s.sortedSet.rows.head?.map (·.1)

/-- `SortedSet::back`: the last item, if any. -/
def back (s : SortedSet) : Option Item := s.sortedSet.rows.getLast?.map (·.1)

/-- `SortedSet::max_score`: 0 for an empty set. -/
def maxScore (s : SortedSet) : Int :=
  match s.back with
  | none => 0
  | some i => (ofLex i).1

/-- `existed.erase(item.key); sorted_set.erase(it)`, for an item of the set. -/
def eraseItem (s : SortedSet) (i : Item) (h : s.sortedSet.get i = some ()) : SortedSet :=
  ⟨s.existed.erase (ofLex i).2, s.sortedSet.erase i, agree_erase s.agree ((s.agree _ _).mpr h)⟩

theorem get_of_front {s : SortedSet} {i : Item} (h : s.front = some i) :
    s.sortedSet.get i = some () := by
  obtain ⟨⟨i', u⟩, hr, rfl⟩ := Option.map_eq_some_iff.mp h
  exact OrderedMap.mem_rows.mp (List.mem_of_mem_head? hr)

theorem get_of_back {s : SortedSet} {i : Item} (h : s.back = some i) :
    s.sortedSet.get i = some () := by
  obtain ⟨⟨i', u⟩, hr, rfl⟩ := Option.map_eq_some_iff.mp h
  exact OrderedMap.mem_rows.mp (List.mem_of_getLast? hr)

/-- `SortedSet::pop_front`. -/
def popFront (s : SortedSet) : Int × SortedSet :=
  match h : s.front with
  | none => (0, s)
  | some i => (1, s.eraseItem i (get_of_front h))

/-- `SortedSet::pop_back`. -/
def popBack (s : SortedSet) : Int × SortedSet :=
  match h : s.back with
  | none => (0, s)
  | some i => (1, s.eraseItem i (get_of_back h))

/-! ### The scores after an operation -/

@[simp] theorem score?_init (key : Bytes) : init.score? key = none := rfl

theorem score?_add (s : SortedSet) (key k : Bytes) (score : Int) :
    (s.add key score).2.score? k = if k = key then some score else s.score? k := by
  unfold add
  split
  · exact OrderedMap.get_insert s.existed key k score
  · rename_i old h
    split_ifs with hs hk
    · rw [hk, ← hs]; exact h
    · rfl
    · rename_i hk; rw [score?, hk]; exact OrderedMap.get_insert_self _ _ _
    · rename_i hk; exact OrderedMap.get_insert_ne _ _ hk

theorem score?_del (s : SortedSet) (key k : Bytes) :
    (s.del key).2.score? k = if k = key then none else s.score? k := by
  unfold del
  split
  · rename_i h
    split_ifs with hk
    · rw [hk]; exact h
    · rfl
  · exact OrderedMap.get_erase s.existed key k

theorem score?_popFront {s : SortedSet} {v : Int} {key : Bytes} (h : s.front = some (item v key))
    (k : Bytes) : s.popFront.2.score? k = if k = key then none else s.score? k := by
  unfold popFront
  split
  · rename_i h'; rw [h] at h'; cases h'
  · rename_i h'
    cases h.symm.trans h'
    exact OrderedMap.get_erase s.existed key k

theorem score?_popBack {s : SortedSet} {v : Int} {key : Bytes} (h : s.back = some (item v key))
    (k : Bytes) : s.popBack.2.score? k = if k = key then none else s.score? k := by
  unfold popBack
  split
  · rename_i h'; rw [h] at h'; cases h'
  · rename_i h'
    cases h.symm.trans h'
    exact OrderedMap.get_erase s.existed key k

theorem popBack_of_none {s : SortedSet} (h : s.back = none) : s.popBack.2 = s := by
  unfold popBack
  split
  · rfl
  · rename_i h'
    cases h.symm.trans h'

theorem popFront_of_none {s : SortedSet} (h : s.front = none) : s.popFront.2 = s := by
  unfold popFront
  split
  · rfl
  · rename_i h'
    cases h.symm.trans h'

/-- `pop_back` brings nothing in. -/
theorem score?_of_popBack {s : SortedSet} {k : Bytes} {v : Int}
    (h : s.popBack.2.score? k = some v) : s.score? k = some v := by
  cases hb : s.back with
  | none => rwa [popBack_of_none hb] at h
  | some i =>
      rw [score?_popBack (show s.back = some (item (ofLex i).1 (ofLex i).2) from hb)] at h
      split_ifs at h
      exact h

/-- Nor does `pop_front`. -/
theorem score?_of_popFront {s : SortedSet} {k : Bytes} {v : Int}
    (h : s.popFront.2.score? k = some v) : s.score? k = some v := by
  cases hf : s.front with
  | none => rwa [popFront_of_none hf] at h
  | some i =>
      rw [score?_popFront (show s.front = some (item (ofLex i).1 (ofLex i).2) from hf)] at h
      split_ifs at h
      exact h

theorem score?_popBack_eq_none {s : SortedSet} {k : Bytes} (h : s.score? k = none) :
    s.popBack.2.score? k = none := by
  refine Option.eq_none_iff_forall_ne_some.mpr fun v hv => ?_
  rw [score?_of_popBack hv] at h
  cases h

/-! ### The ends of the set -/

theorem mem_rows_iff {s : SortedSet} {v : Int} {k : Bytes} :
    (item v k, ()) ∈ s.sortedSet.rows ↔ s.score? k = some v := by
  rw [OrderedMap.mem_rows, score?, s.agree]

theorem empty_iff {s : SortedSet} : s.empty = true ↔ ∀ k, s.score? k = none := by
  rw [empty, decide_eq_true_iff, size, OrderedMap.size, List.length_eq_zero_iff,
    OrderedMap.rows_eq_nil]
  constructor
  · intro h k
    refine Option.eq_none_iff_forall_ne_some.mpr fun v hv => ?_
    have := (s.agree k v).mp hv
    rw [h] at this; cases this
  · intro h i
    refine Option.eq_none_iff_forall_ne_some.mpr fun u hu => ?_
    have := (s.agree (ofLex i).2 (ofLex i).1).mpr hu
    rw [show s.existed.get _ = none from h _] at this; cases this

theorem eq_init {s : SortedSet} (h : s.empty = true) : s = init := by
  have hexisted : s.existed = .empty := OrderedMap.ext_get fun k => empty_iff.mp h k
  have hsorted : s.sortedSet = .empty := by
    refine OrderedMap.ext_get fun i => ?_
    have hrows : s.sortedSet.rows = [] := List.length_eq_zero_iff.mp (of_decide_eq_true h)
    rw [OrderedMap.rows_eq_nil.mp hrows i, OrderedMap.get_empty]
  cases s
  cases hexisted
  cases hsorted
  rfl

/-- The front is the least item. -/
theorem front_le {s : SortedSet} {v v' : Int} {k k' : Bytes} (h : s.front = some (item v k))
    (h' : s.score? k' = some v') : item v k ≤ item v' k' := by
  obtain ⟨r, hr, hv⟩ := Option.map_eq_some_iff.mp h
  rw [← hv]
  exact OrderedMap.le_of_head? hr (mem_rows_iff.mpr h')

/-- The back is the greatest item. -/
theorem le_back {s : SortedSet} {v v' : Int} {k k' : Bytes} (h : s.back = some (item v k))
    (h' : s.score? k' = some v') : item v' k' ≤ item v k := by
  obtain ⟨r, hr, hv⟩ := Option.map_eq_some_iff.mp h
  rw [← hv]
  exact OrderedMap.le_of_getLast? hr (mem_rows_iff.mpr h')

theorem score?_of_front {s : SortedSet} {v : Int} {k : Bytes} (h : s.front = some (item v k)) :
    s.score? k = some v :=
  (s.agree k v).mpr (get_of_front h)

theorem score?_of_back {s : SortedSet} {v : Int} {k : Bytes} (h : s.back = some (item v k)) :
    s.score? k = some v :=
  (s.agree k v).mpr (get_of_back h)

theorem front_eq_none {s : SortedSet} : s.front = none ↔ s.empty = true := by
  simp [front, empty, size, OrderedMap.size]

theorem back_eq_none {s : SortedSet} : s.back = none ↔ s.empty = true := by
  simp [back, empty, size, OrderedMap.size]

theorem exists_front {s : SortedSet} (h : s.empty = false) :
    ∃ v k, s.front = some (item v k) := by
  cases hf : s.front with
  | none => rw [front_eq_none.mp hf] at h; cases h
  | some i => exact ⟨(ofLex i).1, (ofLex i).2, rfl⟩

/-- A set that is not empty has a back, whose score is `max_score`. -/
theorem exists_back {s : SortedSet} (h : s.empty = false) :
    ∃ k, s.back = some (item s.maxScore k) := by
  cases hb : s.back with
  | none => rw [back_eq_none.mp hb] at h; cases h
  | some i =>
      refine ⟨(ofLex i).2, ?_⟩
      rw [maxScore, hb]
      rfl

theorem fst_le_of_item_le {v v' : Int} {k k' : Bytes} (h : item v k ≤ item v' k') : v ≤ v' := by
  rcases Prod.Lex.toLex_le_toLex.mp h with h | h
  · exact le_of_lt h
  · exact le_of_eq h.1

theorem le_maxScore {s : SortedSet} {k : Bytes} {v : Int} (h : s.score? k = some v) :
    v ≤ s.maxScore := by
  cases he : s.empty with
  | true => rw [empty_iff.mp he] at h; cases h
  | false =>
      obtain ⟨k', hb⟩ := exists_back he
      exact fst_le_of_item_le (le_back hb h)

/-! ### Sizes -/

theorem size_add_le (s : SortedSet) (key : Bytes) (score : Int) :
    (s.add key score).2.size ≤ s.size + 1 := by
  unfold add
  split
  · exact OrderedMap.size_insert_le _ _ _
  · rename_i old h
    split_ifs
    · exact Nat.le_succ _
    · refine (OrderedMap.size_insert_le _ _ _).trans ?_
      have := OrderedMap.size_erase ((s.agree _ _).mp h)
      simp only [size]
      omega

theorem size_del_le (s : SortedSet) (key : Bytes) : (s.del key).2.size ≤ s.size := by
  unfold del
  split
  · exact Nat.le_refl _
  · rename_i old h
    have := OrderedMap.size_erase ((s.agree _ _).mp h)
    simp only [size]
    omega

theorem size_popFront_le (s : SortedSet) : s.popFront.2.size ≤ s.size := by
  unfold popFront
  split
  · exact Nat.le_refl _
  · rename_i i h
    have := OrderedMap.size_erase (get_of_front h)
    simp only [size, eraseItem]
    omega

theorem size_popBack_le (s : SortedSet) : s.popBack.2.size ≤ s.size - 1 := by
  unfold popBack
  split
  · rename_i h
    have h0 : s.size = 0 := of_decide_eq_true (back_eq_none.mp h)
    simp only [h0]
    omega
  · rename_i i h
    have := OrderedMap.size_erase (get_of_back h)
    simp only [size, eraseItem]
    omega

/-! ### The items, and adding many -/

/-- The items in order. -/
def items (s : SortedSet) : List Item := s.sortedSet.rows.map (·.1)

theorem sorted_items (s : SortedSet) : s.items.Pairwise (· < ·) :=
  List.pairwise_map.mpr s.sortedSet.sorted

theorem mem_items {s : SortedSet} {v : Int} {k : Bytes} :
    item v k ∈ s.items ↔ s.score? k = some v := by
  rw [← mem_rows_iff, items, List.mem_map]
  exact ⟨fun ⟨⟨_, ()⟩, h, e⟩ => e ▸ h, fun h => ⟨_, h, rfl⟩⟩

theorem length_items (s : SortedSet) : s.items.length = s.size := List.length_map _

/-- The items of `l` added one after another. -/
def addAll (s : SortedSet) (l : List Item) : SortedSet :=
  l.foldl (fun s i => (s.add (ofLex i).2 (ofLex i).1).2) s

theorem score?_of_addAll {l : List Item} {s : SortedSet} {v : Int} {k : Bytes}
    (h : (s.addAll l).score? k = some v) : item v k ∈ l ∨ s.score? k = some v := by
  induction l generalizing s with
  | nil => exact Or.inr h
  | cons i l ih =>
      rcases ih h with h | h
      · exact Or.inl (List.mem_cons_of_mem _ h)
      · rw [score?_add] at h
        split_ifs at h with hk
        · cases h
          exact Or.inl (by rw [hk]; exact List.mem_cons_self)
        · exact Or.inr h

/-- Items of distinct keys, added to a set that has none of the keys, are in it with what was
there before. -/
theorem score?_addAll {l : List Item} (hl : l.Pairwise fun i j => (ofLex i).2 ≠ (ofLex j).2)
    {s : SortedSet} (hs : ∀ i ∈ l, s.score? (ofLex i).2 = none) {v : Int} {k : Bytes} :
    (s.addAll l).score? k = some v ↔ item v k ∈ l ∨ s.score? k = some v := by
  induction l generalizing s with
  | nil => simp [addAll]
  | cons i l ih =>
      obtain ⟨hi, hl⟩ := List.pairwise_cons.mp hl
      have hadd : ∀ j ∈ l, (s.add (ofLex i).2 (ofLex i).1).2.score? (ofLex j).2 = none := by
        intro j hj
        rw [score?_add, if_neg (Ne.symm (hi j hj))]
        exact hs j (List.mem_cons_of_mem _ hj)
      rw [addAll, List.foldl_cons, ← addAll, ih hl hadd, score?_add, List.mem_cons]
      by_cases hk : k = (ofLex i).2
      · have hn : s.score? k = none := hk ▸ hs i List.mem_cons_self
        have hm : item v k ∉ l := fun h => hi _ h hk.symm
        have he : item v k = i ↔ (ofLex i).1 = v := by
          rw [hk]
          exact ⟨fun e => by rw [← e]; rfl, fun e => by rw [← e]; rfl⟩
        simp [hk ▸ hm, hk ▸ hn, hk ▸ he, hk]
      · have he : item v k ≠ i := fun e => hk (by rw [← e]; rfl)
        simp [hk, he]

/-- A list of items in order, with distinct keys, is what adding it to the new set gives. -/
theorem items_addAll {l : List Item} (hlt : l.Pairwise (· < ·))
    (hl : l.Pairwise fun i j => (ofLex i).2 ≠ (ofLex j).2) : (init.addAll l).items = l := by
  refine (sorted_items _).eq_of_mem_iff hlt fun i => ?_
  rw [show i = item (ofLex i).1 (ofLex i).2 from rfl, mem_items,
    score?_addAll hl fun _ _ => score?_init _]
  simp

end SortedSet

end XHttpCache
