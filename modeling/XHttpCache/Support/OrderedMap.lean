import Mathlib

/-!
# Support — ordered maps

A finite map over a linearly ordered key type, kept as the list of its rows in strictly
increasing key order.  The order is part of the value: an `OrderedMap` whose rows are out of
order, or that holds a key twice, cannot be built.

* `get`, `insert`, `erase`: the point operations, with their lookup equations.
* `seek lo`: the rows an iterator positioned at `lo` goes through, in key order.
* `range lo hi`: the rows with `lo ≤ key < hi`, as a prefix of `seek lo`.

A map is determined by its lookups (`ext_get`).
-/

namespace Support

/-- A finite map, as its rows in increasing key order. -/
structure OrderedMap (κ ν : Type) [LinearOrder κ] where
  rows : List (κ × ν)
  sorted : rows.Pairwise fun a b => a.1 < b.1

namespace OrderedMap

variable {κ ν : Type} [LinearOrder κ]

/-! ### The row lists -/

/-- The value of the first row at `k`. -/
def lookupRow (k : κ) : List (κ × ν) → Option ν
  | [] => none
  | (k', v) :: rs => if k = k' then some v else lookupRow k rs

/-- `rs` with the row `(k, v)` in its place, in the stead of any row at `k`. -/
def insertRow (k : κ) (v : ν) : List (κ × ν) → List (κ × ν)
  | [] => [(k, v)]
  | (k', v') :: rs =>
      if k < k' then (k, v) :: (k', v') :: rs
      else if k = k' then (k, v) :: rs
      else (k', v') :: insertRow k v rs

/-- `rs` without its row at `k`. -/
def eraseRow (k : κ) : List (κ × ν) → List (κ × ν)
  | [] => []
  | (k', v') :: rs => if k = k' then rs else (k', v') :: eraseRow k rs

theorem mem_insertRow {k : κ} {v : ν} {r : κ × ν} :
    ∀ {rs : List (κ × ν)}, r ∈ insertRow k v rs → r = (k, v) ∨ r ∈ rs
  | [], h => by simpa [insertRow] using h
  | (k', v') :: rs, h => by
      simp only [insertRow] at h
      split_ifs at h
      · simpa using h
      · rcases List.mem_cons.mp h with h | h
        · exact Or.inl h
        · exact Or.inr (List.mem_cons_of_mem _ h)
      · rcases List.mem_cons.mp h with h | h
        · exact Or.inr (h ▸ List.mem_cons_self)
        · exact (mem_insertRow h).imp_right (List.mem_cons_of_mem _)

theorem sorted_insertRow (k : κ) (v : ν) :
    ∀ {rs : List (κ × ν)}, rs.Pairwise (fun a b => a.1 < b.1) →
      (insertRow k v rs).Pairwise fun a b => a.1 < b.1
  | [], _ => List.pairwise_singleton _ _
  | (k', v') :: rs, h => by
      obtain ⟨h₁, h₂⟩ := List.pairwise_cons.mp h
      simp only [insertRow]
      split_ifs with hlt heq
      · refine List.pairwise_cons.mpr ⟨fun r hr => ?_, h⟩
        rcases List.mem_cons.mp hr with rfl | hr
        · exact hlt
        · exact hlt.trans (h₁ r hr)
      · exact List.pairwise_cons.mpr ⟨fun r hr => heq ▸ h₁ r hr, h₂⟩
      · have hgt : k' < k := lt_of_le_of_ne (not_lt.mp hlt) (Ne.symm heq)
        refine List.pairwise_cons.mpr ⟨fun r hr => ?_, sorted_insertRow k v h₂⟩
        rcases mem_insertRow hr with rfl | hr
        · exact hgt
        · exact h₁ r hr

theorem eraseRow_sublist (k : κ) : ∀ rs : List (κ × ν), (eraseRow k rs).Sublist rs
  | [] => List.Sublist.slnil
  | (k', v') :: rs => by
      simp only [eraseRow]
      split_ifs
      · exact List.sublist_cons_self _ _
      · exact (eraseRow_sublist k rs).cons_cons _

theorem lookupRow_eq_none {k : κ} :
    ∀ {rs : List (κ × ν)}, lookupRow k rs = none ↔ ∀ r ∈ rs, r.1 ≠ k
  | [] => by simp [lookupRow]
  | (k', v') :: rs => by
      simp only [lookupRow, List.forall_mem_cons]
      split_ifs with h
      · simp [h]
      · simp [lookupRow_eq_none, Ne.symm h]

theorem lookupRow_eq_some {k : κ} {v : ν} :
    ∀ {rs : List (κ × ν)}, rs.Pairwise (fun a b => a.1 < b.1) →
      (lookupRow k rs = some v ↔ (k, v) ∈ rs)
  | [], _ => by simp [lookupRow]
  | (k', v') :: rs, h => by
      obtain ⟨h₁, h₂⟩ := List.pairwise_cons.mp h
      simp only [lookupRow, List.mem_cons, Prod.mk.injEq]
      split_ifs with he
      · subst he
        have hn : (k, v) ∉ rs := fun hm => lt_irrefl k (h₁ (k, v) hm)
        simp [hn, eq_comm]
      · simp [he, lookupRow_eq_some h₂]

theorem lookupRow_insertRow (k k' : κ) (v : ν) :
    ∀ rs : List (κ × ν),
      lookupRow k' (insertRow k v rs) = if k' = k then some v else lookupRow k' rs
  | [] => by simp [insertRow, lookupRow]
  | (k₀, v₀) :: rs => by
      simp only [insertRow]
      split_ifs with hlt heq h h h <;>
        simp_all [lookupRow, lookupRow_insertRow k k' v rs, lookupRow_insertRow k k v rs]

theorem lookupRow_eraseRow (k k' : κ) :
    ∀ {rs : List (κ × ν)}, rs.Pairwise (fun a b => a.1 < b.1) →
      lookupRow k' (eraseRow k rs) = if k' = k then none else lookupRow k' rs
  | [], _ => by simp [eraseRow, lookupRow]
  | (k₀, v₀) :: rs, h => by
      obtain ⟨h₁, h₂⟩ := List.pairwise_cons.mp h
      simp only [eraseRow]
      by_cases he : k = k₀
      · rw [if_pos he]
        by_cases hk : k' = k
        · rw [if_pos hk, lookupRow_eq_none]
          intro r hr hr'
          exact absurd (h₁ r hr) (by rw [hr', hk, he]; exact lt_irrefl _)
        · rw [if_neg hk]
          simp [lookupRow, show k' ≠ k₀ from fun e => hk (e.trans he.symm)]
      · rw [if_neg he]
        by_cases hk : k' = k
        · subst hk; simp [lookupRow, he, lookupRow_eraseRow k' k' h₂]
        · simp [lookupRow, lookupRow_eraseRow k k' h₂, hk]

theorem length_insertRow_le (k : κ) (v : ν) :
    ∀ rs : List (κ × ν), (insertRow k v rs).length ≤ rs.length + 1
  | [] => Nat.le_refl _
  | (k₀, v₀) :: rs => by
      have ih := length_insertRow_le k v rs
      simp only [insertRow]
      split_ifs <;> simp only [List.length_cons] <;> omega

theorem length_eraseRow {k : κ} {v : ν} :
    ∀ {rs : List (κ × ν)}, lookupRow k rs = some v → (eraseRow k rs).length + 1 = rs.length
  | [], h => by simp [lookupRow] at h
  | (k₀, v₀) :: rs, h => by
      simp only [lookupRow] at h
      simp only [eraseRow]
      split_ifs at h ⊢
      · rfl
      · simp [length_eraseRow h]

/-! ### The map -/

/-- The map with no row. -/
def empty : OrderedMap κ ν := ⟨[], List.Pairwise.nil⟩

/-- The value at `k`. -/
def get (m : OrderedMap κ ν) (k : κ) : Option ν := lookupRow k m.rows

/-- `m` with `v` at `k`. -/
def insert (m : OrderedMap κ ν) (k : κ) (v : ν) : OrderedMap κ ν :=
  ⟨insertRow k v m.rows, sorted_insertRow k v m.sorted⟩

/-- `m` with nothing at `k`. -/
def erase (m : OrderedMap κ ν) (k : κ) : OrderedMap κ ν :=
  ⟨eraseRow k m.rows, m.sorted.sublist (eraseRow_sublist k m.rows)⟩

/-- The number of rows. -/
def size (m : OrderedMap κ ν) : Nat := m.rows.length

@[simp] theorem get_empty (k : κ) : (empty : OrderedMap κ ν).get k = none := rfl

@[simp] theorem rows_empty : (empty : OrderedMap κ ν).rows = [] := rfl

theorem mem_rows {m : OrderedMap κ ν} {k : κ} {v : ν} : (k, v) ∈ m.rows ↔ m.get k = some v :=
  (lookupRow_eq_some m.sorted).symm

theorem get_insert (m : OrderedMap κ ν) (k k' : κ) (v : ν) [Decidable (k' = k)] :
    (m.insert k v).get k' = if k' = k then some v else m.get k' := by
  rw [get, insert, lookupRow_insertRow, get]
  split_ifs <;> rfl

@[simp] theorem get_insert_self (m : OrderedMap κ ν) (k : κ) (v : ν) :
    (m.insert k v).get k = some v := by
  rw [get_insert, if_pos rfl]

theorem get_insert_ne (m : OrderedMap κ ν) {k k' : κ} (v : ν) (h : k' ≠ k) :
    (m.insert k v).get k' = m.get k' := by
  rw [get_insert, if_neg h]

theorem get_erase (m : OrderedMap κ ν) (k k' : κ) [Decidable (k' = k)] :
    (m.erase k).get k' = if k' = k then none else m.get k' := by
  rw [get, erase, lookupRow_eraseRow k k' m.sorted, get]
  split_ifs <;> rfl

@[simp] theorem get_erase_self (m : OrderedMap κ ν) (k : κ) : (m.erase k).get k = none := by
  rw [get_erase, if_pos rfl]

theorem get_erase_ne (m : OrderedMap κ ν) {k k' : κ} (h : k' ≠ k) :
    (m.erase k).get k' = m.get k' := by
  rw [get_erase, if_neg h]

/-- Two lists in strictly increasing order with the same members are the same list. -/
theorem eq_of_pairwise_of_mem_iff {α : Type} {R : α → α → Prop} (hR : ∀ a b, R a b → ¬ R b a)
    {l₁ l₂ : List α} (h₁ : l₁.Pairwise R) (h₂ : l₂.Pairwise R) (h : ∀ r, r ∈ l₁ ↔ r ∈ l₂) :
    l₁ = l₂ := by
  have nodup : ∀ {l : List α}, l.Pairwise R → l.Nodup := fun hl => hl.imp fun {a b} hab => by
    rintro rfl
    exact hR a a hab hab
  have hp : l₁.Perm l₂ := (List.perm_ext_iff_of_nodup (nodup h₁) (nodup h₂)).mpr h
  exact hp.eq_of_pairwise (fun a b _ _ hab hba => absurd hba (hR a b hab)) h₁ h₂

theorem rows_ext {α : Type} [LinearOrder α] {β : Type} {l₁ l₂ : List (α × β)}
    (h₁ : l₁.Pairwise fun a b => a.1 < b.1) (h₂ : l₂.Pairwise fun a b => a.1 < b.1)
    (h : ∀ r, r ∈ l₁ ↔ r ∈ l₂) : l₁ = l₂ :=
  eq_of_pairwise_of_mem_iff (fun _ _ => lt_asymm) h₁ h₂ h

/-- A map is determined by its lookups. -/
theorem ext_get {m₁ m₂ : OrderedMap κ ν} (h : ∀ k, m₁.get k = m₂.get k) : m₁ = m₂ := by
  have hr : m₁.rows = m₂.rows :=
    rows_ext m₁.sorted m₂.sorted fun ⟨k, v⟩ => by rw [mem_rows, mem_rows, h]
  cases m₁; cases m₂; cases hr; rfl

theorem rows_eq_nil {m : OrderedMap κ ν} : m.rows = [] ↔ ∀ k, m.get k = none := by
  constructor
  · intro h k
    rw [get, h]; rfl
  · intro h
    refine List.eq_nil_iff_forall_not_mem.mpr fun ⟨k, v⟩ hm => ?_
    rw [mem_rows, h] at hm
    cases hm

theorem size_insert_le (m : OrderedMap κ ν) (k : κ) (v : ν) :
    (m.insert k v).size ≤ m.size + 1 :=
  length_insertRow_le k v m.rows

theorem size_erase {m : OrderedMap κ ν} {k : κ} {v : ν} (h : m.get k = some v) :
    (m.erase k).size + 1 = m.size :=
  length_eraseRow h

/-- The last insertion at a key counts. -/
theorem insert_insert (m : OrderedMap κ ν) (k : κ) (v w : ν) :
    (m.insert k v).insert k w = m.insert k w := by
  refine ext_get fun k' => ?_
  by_cases h : k' = k
  · subst h
    simp
  · simp only [get_insert_ne _ _ h]

/-! ### The image of the values -/

section MapValues

variable {ν' : Type} (f : ν → ν')

/-- `m` with `f v` for each value `v`. -/
def mapValues (m : OrderedMap κ ν) : OrderedMap κ ν' where
  rows := m.rows.map fun r => (r.1, f r.2)
  sorted := List.pairwise_map.mpr m.sorted

@[simp] theorem rows_mapValues (m : OrderedMap κ ν) :
    (m.mapValues f).rows = m.rows.map fun r => (r.1, f r.2) := rfl

theorem get_mapValues (m : OrderedMap κ ν) (k : κ) : (m.mapValues f).get k = (m.get k).map f := by
  cases h : m.get k with
  | some v => exact mem_rows.mp (List.mem_map.mpr ⟨(k, v), mem_rows.mpr h, rfl⟩)
  | none =>
      refine lookupRow_eq_none.mpr fun r hr => ?_
      obtain ⟨r', hr', rfl⟩ := List.mem_map.mp hr
      exact lookupRow_eq_none.mp h r' hr'

end MapValues

/-! ### First and last rows -/

/-- The first row has the least key. -/
theorem le_of_head? {m : OrderedMap κ ν} {r r' : κ × ν} (h : m.rows.head? = some r)
    (hr : r' ∈ m.rows) : r.1 ≤ r'.1 := by
  obtain ⟨t, ht⟩ := List.head?_eq_some_iff.mp h
  have hs := m.sorted
  rw [ht] at hs hr
  rcases List.mem_cons.mp hr with rfl | hr
  · exact le_refl _
  · exact le_of_lt ((List.pairwise_cons.mp hs).1 r' hr)

/-- The last row has the greatest key. -/
theorem le_of_getLast? {m : OrderedMap κ ν} {r r' : κ × ν} (h : m.rows.getLast? = some r)
    (hr : r' ∈ m.rows) : r'.1 ≤ r.1 := by
  obtain ⟨t, ht⟩ := List.getLast?_eq_some_iff.mp h
  have hs := m.sorted
  rw [ht] at hs hr
  rcases List.mem_append.mp hr with hr | hr
  · exact le_of_lt ((List.pairwise_append.mp hs).2.2 r' hr r (List.mem_singleton_self r))
  · rw [List.mem_singleton.mp hr]

/-- A search through the rows finds what `f` makes of the row at `k`, if it makes nothing of the rows
before it. -/
theorem findSome?_rows {β : Type} {f : ν → Option β} {m : OrderedMap κ ν} {k : κ} {v : ν} {c : β}
    (h : m.get k = some v) (hv : f v = some c)
    (hmin : ∀ k' v', m.get k' = some v' → k' < k → f v' = none) :
    m.rows.findSome? (fun r => f r.2) = some c := by
  obtain ⟨before, after, hrows⟩ := List.append_of_mem (mem_rows.mpr h)
  have hsorted := m.sorted
  rw [hrows, List.pairwise_append] at hsorted
  have hbefore : before.findSome? (fun r => f r.2) = none := by
    refine List.findSome?_eq_none_iff.mpr fun r hr => ?_
    have hmem : (r.1, r.2) ∈ m.rows := by
      rw [hrows]
      exact List.mem_append_left _ hr
    exact hmin r.1 r.2 (mem_rows.mp hmem) (hsorted.2.2 r hr (k, v) List.mem_cons_self)
  rw [hrows, List.findSome?_append, hbefore, Option.none_or, List.findSome?_cons, hv]

/-! ### Seeking -/

/-- The rows from the first key not below `lo` on. -/
def seek (m : OrderedMap κ ν) (lo : κ) : List (κ × ν) := m.rows.dropWhile (·.1 < lo)

/-- The rows with `lo ≤ key < hi`. -/
def range (m : OrderedMap κ ν) (lo hi : κ) : List (κ × ν) := (m.seek lo).takeWhile (·.1 < hi)

theorem sorted_seek (m : OrderedMap κ ν) (lo : κ) :
    (m.seek lo).Pairwise fun a b => a.1 < b.1 :=
  m.sorted.sublist (List.dropWhile_sublist _)

theorem sorted_range (m : OrderedMap κ ν) (lo hi : κ) :
    (m.range lo hi).Pairwise fun a b => a.1 < b.1 :=
  (m.sorted_seek lo).sublist (List.takeWhile_sublist _)

theorem mem_dropWhile_lt {lo : κ} {r : κ × ν} :
    ∀ {l : List (κ × ν)}, l.Pairwise (fun a b => a.1 < b.1) →
      (r ∈ l.dropWhile (·.1 < lo) ↔ r ∈ l ∧ lo ≤ r.1)
  | [], _ => by simp
  | a :: l, h => by
      obtain ⟨h₁, h₂⟩ := List.pairwise_cons.mp h
      by_cases ha : a.1 < lo
      · rw [List.dropWhile_cons_of_pos (by simpa using ha), mem_dropWhile_lt h₂]
        constructor
        · exact fun ⟨hm, hl⟩ => ⟨List.mem_cons_of_mem _ hm, hl⟩
        · rintro ⟨hm, hl⟩
          rcases List.mem_cons.mp hm with rfl | hm
          · exact absurd ha (not_lt.mpr hl)
          · exact ⟨hm, hl⟩
      · rw [List.dropWhile_cons_of_neg (by simpa using ha)]
        refine ⟨fun hm => ⟨hm, ?_⟩, fun hm => hm.1⟩
        rcases List.mem_cons.mp hm with rfl | hm
        · exact not_lt.mp ha
        · exact (not_lt.mp ha).trans (le_of_lt (h₁ r hm))

theorem mem_takeWhile_lt {hi : κ} {r : κ × ν} :
    ∀ {l : List (κ × ν)}, l.Pairwise (fun a b => a.1 < b.1) →
      (r ∈ l.takeWhile (·.1 < hi) ↔ r ∈ l ∧ r.1 < hi)
  | [], _ => by simp
  | a :: l, h => by
      obtain ⟨h₁, h₂⟩ := List.pairwise_cons.mp h
      by_cases ha : a.1 < hi
      · rw [List.takeWhile_cons_of_pos (by simpa using ha), List.mem_cons, List.mem_cons,
          mem_takeWhile_lt h₂]
        constructor
        · rintro (rfl | ⟨hm, hl⟩)
          · exact ⟨Or.inl rfl, ha⟩
          · exact ⟨Or.inr hm, hl⟩
        · rintro ⟨rfl | hm, hl⟩
          · exact Or.inl rfl
          · exact Or.inr ⟨hm, hl⟩
      · rw [List.takeWhile_cons_of_neg (by simpa using ha)]
        refine ⟨fun hm => absurd hm (List.not_mem_nil), ?_⟩
        rintro ⟨hm, hl⟩
        rcases List.mem_cons.mp hm with rfl | hm
        · exact absurd hl ha
        · exact absurd ((h₁ r hm).trans hl) ha

theorem mem_range {m : OrderedMap κ ν} {lo hi : κ} {r : κ × ν} :
    r ∈ m.range lo hi ↔ r ∈ m.rows ∧ lo ≤ r.1 ∧ r.1 < hi := by
  rw [range, mem_takeWhile_lt (m.sorted_seek lo), seek, mem_dropWhile_lt m.sorted, and_assoc]

end OrderedMap

end Support
