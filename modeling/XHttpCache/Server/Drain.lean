import XHttpCache.Server.Deadlines

/-!
# Server — the expiry loop drains what is due

`expireLoops now n` is `n` iterations of `ExpireLoop` at one clock value.  An iteration that finds
a due deadline removes the key of a first one, its value and its deadline, and touches nothing
else; one that finds none sets `first_timeout` after `now` (`Draining.expireLoop`).  So the due
deadlines are what is left to do, and they go one by one in the order of time until the thread
goes to sleep (`Draining.drain`).

The keys need not go in the order of their rows: two keys that are due together on both sides of
the end of a batch go in the order of the batches.
-/

namespace XHttpCache
open Support

/-- `n` iterations of `ExpireLoop` at the clock value `now`. -/
def expireLoops (now : Int) : Nat → ExpireManager × XDataBase → ExpireManager × XDataBase
  | 0, p => p
  | n + 1, p => expireLoops now n (p.1.expireLoop p.2 now)

/-- The window `s` is part of the deadlines `ix`, all of which can be loaded, and the rest are no
earlier; `first` is not after any of them. -/
structure Draining (ix : Bytes → Option Int) (x : XDataBase) (e : ExpireManager) : Prop where
  recorded : Recorded x ix
  inRange : ∀ k d, ix k = some d → InRange d
  subset : ∀ k v, e.sortSet.score? k = some v → ix k = some v
  window : Window ix e.sortSet
  first : ∀ k d, ix k = some d → e.firstTimeout ≤ d

variable {ix : Bytes → Option Int} {x : XDataBase} {e : ExpireManager} {now : Int}

/-- An iteration takes the key of a first deadline that is due. -/
structure Took (ix : Bytes → Option Int) (x : XDataBase) (now : Int) (key : Bytes) (d : Int)
    (p : ExpireManager × XDataBase) : Prop where
  recorded : ix key = some d
  due : d ≤ now
  least : ∀ k d', ix k = some d' → d ≤ d'
  value : ∀ k, p.2.valueRow k = if k = key then none else x.valueRow k
  rest : Draining (Function.update ix key none) p.2 p.1

namespace Draining

/-- All deadlines can be loaded. -/
theorem loadable_eq (h : Draining ix x e) : loadable ix = ix := by
  funext k
  cases hk : ix k with
  | none => simp [loadable, hk]
  | some d => exact loadable_eq_some.mpr ⟨hk, h.inRange k d hk⟩

/-- What an iteration looks at is part of the deadlines, and the rest are no earlier. -/
theorem faced (h : Draining ix x e) {s : SortedSet} (hs : Faced ix e s) :
    (∀ k v, s.score? k = some v → ix k = some v) ∧ Window ix s := by
  have hsub := hs.elim (P := fun s => ∀ k v, s.score? k = some v → ix k = some v) h.subset
    hs.recorded
  refine ⟨hsub, hs.elim h.window fun he => ?_⟩
  have hw := hs.window he
  rwa [h.loadable_eq] at hw

/-- **One iteration**: a first key goes, if it is due; otherwise nothing is due, nothing changes,
and `first_timeout` is to come. -/
theorem expireLoop (h : Draining ix x e) (hnow : now < INT64_MAX) :
    (∃ key d, Took ix x now key d (e.expireLoop x now)) ∨
      (∀ k d, ix k = some d → now < d) ∧ (e.expireLoop x now).2 = x ∧
        now < (e.expireLoop x now).1.firstTimeout := by
  obtain ⟨s, hs, hit⟩ := h.recorded.iterated e now
  obtain ⟨hsub, hw⟩ := h.faced hs
  generalize e.expireLoop x now = r at hit ⊢
  cases hit with
  | idle he =>
      refine Or.inr ⟨fun k d hd => ?_, rfl, hnow⟩
      have hnone := hs.none he k
      rw [h.loadable_eq, hd] at hnone
      cases hnone
  | early hf hv => exact Or.inr ⟨fun k d hd => lt_of_lt_of_le hv (hw.front_le hf hd), rfl, hv⟩
  | @due v key hf hv =>
      have hkey := hsub key v (SortedSet.score?_of_front hf)
      have hleast : ∀ k d', ix k = some d' → v ≤ d' := fun _ _ hd => hw.front_le hf hd
      have hupdate : ∀ {k d}, Function.update ix key none k = some d → ix k = some d :=
        fun hd => (update_none_eq_some.mp hd).2
      refine Or.inl ⟨key, v, hkey, hv, hleast, h.recorded.valueRow_expired key, ?_⟩
      refine ⟨(h.recorded.del key).zdel key, fun k d hd => h.inRange k d (hupdate hd),
        fun k d hd => ?_, hw.popFront hf, fun k d hd => hleast k d (hupdate hd)⟩
      rw [SortedSet.score?_popFront hf] at hd
      split_ifs at hd with hk
      rw [Function.update_of_ne hk]
      exact hsub k d hd

/-- The items that are due. -/
def IsDue (ix : Bytes → Option Int) (now : Int) (D : List Item) : Prop :=
  D.Nodup ∧ ∀ d k, item d k ∈ D ↔ ix k = some d ∧ d ≤ now

/-- There are finitely many. -/
theorem exists_isDue (h : Draining ix x e) (now : Int) : ∃ D, IsDue ix now D := by
  obtain ⟨L, hlt, hmem, -⟩ := h.recorded.index.exists_items Recorded.setKey.2
  refine ⟨L.filter fun i => decide ((ofLex i).1 ≤ now), (hlt.imp ne_of_lt).filter _, ?_⟩
  intro d k
  rw [List.mem_filter, hmem, decide_eq_true_iff]
  constructor
  · rintro ⟨⟨hk, -⟩, hd⟩
    exact ⟨hk, hd⟩
  · rintro ⟨hk, hd⟩
    exact ⟨⟨hk, h.inRange k d hk⟩, hd⟩

/-- One less when one of them goes. -/
theorem IsDue.erase {D : List Item} (h : IsDue ix now D) {key : Bytes} {d : Int}
    (hd : ix key = some d) : IsDue (Function.update ix key none) now (D.erase (item d key)) := by
  refine ⟨h.1.erase _, fun d' k => ?_⟩
  rw [h.1.mem_erase_iff, h.2, update_none_eq_some]
  constructor
  · rintro ⟨hne, hk, hdue⟩
    refine ⟨⟨?_, hk⟩, hdue⟩
    rintro rfl
    rw [hd] at hk
    cases hk
    exact hne rfl
  · rintro ⟨⟨hne, hk⟩, hdue⟩
    exact ⟨fun he => hne (congrArg (fun i => (ofLex i).2) he), hk, hdue⟩

end Draining

/-- The keys of `L` go one by one, `n` iterations from `p` on, and then the thread sleeps. -/
structure Drained (ix : Bytes → Option Int) (now : Int) (p : ExpireManager × XDataBase)
    (L : List Item) (n : Nat) : Prop where
  length : L.length ≤ n
  awake : ∀ i < n, (expireLoops now i p).1.firstTimeout ≤ now
  asleep : now < (expireLoops now n p).1.firstTimeout
  value : ∀ i ≤ n, ∀ k, (expireLoops now i p).2.valueRow k =
    if k ∈ (L.take i).map (fun j => (ofLex j).2) then none else p.2.valueRow k
  index : ∀ i ≤ n, ∃ ix', Recorded (expireLoops now i p).2 ix' ∧ ∀ k, ix' k =
    if k ∈ (L.take i).map (fun j => (ofLex j).2) then none else ix k

/-- Already asleep. -/
theorem Drained.zero (h : Recorded x ix) (hf : now < e.firstTimeout) :
    Drained ix now (e, x) [] 0 where
  length := le_refl 0
  awake i hi := absurd hi (Nat.not_lt_zero i)
  asleep := hf
  value i hi k := by
    obtain rfl := Nat.le_zero.mp hi
    simp [expireLoops]
  index i hi := by
    obtain rfl := Nat.le_zero.mp hi
    exact ⟨ix, h, fun k => by simp⟩

/-- Asleep after an iteration that finds nothing due. -/
theorem Drained.one (h : Recorded x ix) (hf : e.firstTimeout ≤ now)
    (hx : (e.expireLoop x now).2 = x) (hl : now < (e.expireLoop x now).1.firstTimeout) :
    Drained ix now (e, x) [] 1 where
  length := Nat.zero_le 1
  awake i hi := by
    obtain rfl := Nat.lt_one_iff.mp hi
    exact hf
  asleep := hl
  value i hi k := by
    rcases Nat.le_one_iff_eq_zero_or_eq_one.mp hi with rfl | rfl
    · simp [expireLoops]
    · simp [expireLoops, hx]
  index i hi := by
    refine ⟨ix, ?_, fun k => by simp⟩
    rcases Nat.le_one_iff_eq_zero_or_eq_one.mp hi with rfl | rfl
    · exact h
    · exact hx.symm ▸ h

/-- One key more. -/
theorem Drained.cons {key : Bytes} {d : Int} {L : List Item} {n : Nat} (h : Recorded x ix)
    (hf : e.firstTimeout ≤ now) (ht : Took ix x now key d (e.expireLoop x now))
    (hL : Drained (Function.update ix key none) now (e.expireLoop x now) L n) :
    Drained ix now (e, x) (item d key :: L) (n + 1) where
  length := Nat.succ_le_succ hL.length
  awake i hi := by
    cases i with
    | zero => exact hf
    | succ i => exact hL.awake i (Nat.lt_of_succ_lt_succ hi)
  asleep := hL.asleep
  value i hi k := by
    cases i with
    | zero => simp [expireLoops]
    | succ i =>
        rw [expireLoops, hL.value i (Nat.le_of_succ_le_succ hi), ht.value]
        by_cases hk : k = key <;> simp [hk]
  index i hi := by
    cases i with
    | zero => exact ⟨ix, h, fun k => by simp⟩
    | succ i =>
        obtain ⟨ix', hrec, hix⟩ := hL.index i (Nat.le_of_succ_le_succ hi)
        refine ⟨ix', hrec, fun k => ?_⟩
        rw [hix]
        by_cases hk : k = key <;> simp [hk]

/-- The order of time. -/
abbrev InOrder (L : List Item) : Prop := L.Pairwise fun i j => (ofLex i).1 ≤ (ofLex j).1

/-- **The loop drains what is due**, in the order of time.  The induction is on the number of
deadlines that are due. -/
theorem Draining.drain (h : Draining ix x e) (hnow : now < INT64_MAX) :
    ∃ L n, InOrder L ∧ (∀ d k, item d k ∈ L ↔ ix k = some d ∧ d ≤ now) ∧
      Drained ix now (e, x) L n := by
  obtain ⟨D, hD⟩ := h.exists_isDue now
  induction hm : D.length using Nat.strongRecOn generalizing D ix x e with
  | ind m ih =>
      have hnil : (∀ k d, ix k = some d → now < d) →
          ∀ d k, item d k ∈ ([] : List Item) ↔ ix k = some d ∧ d ≤ now := by
        intro hlate d k
        constructor
        · intro hmem
          cases hmem
        · rintro ⟨hk, hd⟩
          exact absurd (hlate k d hk) (not_lt.mpr hd)
      by_cases hf : e.firstTimeout ≤ now
      · rcases h.expireLoop hnow with ⟨key, d, ht⟩ | ⟨hlate, hx, hl⟩
        · have hmem : item d key ∈ D := (hD.2 d key).mpr ⟨ht.recorded, ht.due⟩
          have hlt : (D.erase (item d key)).length < m := by
            rw [List.length_erase_of_mem hmem, hm]
            exact Nat.sub_lt (hm ▸ List.length_pos_of_mem hmem) Nat.one_pos
          obtain ⟨L, n, hord, hLmem, hL⟩ := ih _ hlt ht.rest _ (hD.erase ht.recorded) rfl
          refine ⟨item d key :: L, n + 1, ?_, ?_, hL.cons h.recorded hf ht⟩
          · refine List.pairwise_cons.mpr ⟨fun j hj => ?_, hord⟩
            have hj' := (hLmem (ofLex j).1 (ofLex j).2).mp hj
            exact ht.least _ _ (update_none_eq_some.mp hj'.1).2
          · intro d' k
            rw [List.mem_cons, hLmem, update_none_eq_some]
            constructor
            · rintro (he | ⟨⟨-, hk⟩, hd'⟩)
              · cases toLex.injective he
                exact ⟨ht.recorded, ht.due⟩
              · exact ⟨hk, hd'⟩
            · rintro ⟨hk, hd'⟩
              by_cases hkey : k = key
              · subst hkey
                cases ht.recorded.symm.trans hk
                exact Or.inl rfl
              · exact Or.inr ⟨⟨hkey, hk⟩, hd'⟩
        · exact ⟨[], 1, List.Pairwise.nil, hnil hlate, .one h.recorded hf hx hl⟩
      · have hlate : ∀ k d, ix k = some d → now < d :=
          fun k d hd => lt_of_lt_of_le (not_le.mp hf) (h.first k d hd)
        exact ⟨[], 0, List.Pairwise.nil, hnil hlate, .zero h.recorded (not_le.mp hf)⟩

/-- **Expiry drains exactly the due keys.**  From a well-formed index whose deadlines can all be
loaded, and a manager whose window is part of it, with the rest no earlier, and whose
`first_timeout` is not after any deadline, `n` iterations at one clock value `now` take
`first_timeout` past `now`.  The keys that are due lose their value and their deadline one by one
in the order of time, and nothing else is touched. -/
theorem expiry_drains {x : XDataBase} {e : ExpireManager} {now : Int} (hx : WellFormed x)
    (hrange : ∀ k d, deadline x k = some d → InRange d)
    (hsub : ∀ k v, e.sortSet.score? k = some v → deadline x k = some v)
    (hout : ∀ k d, deadline x k = some d → e.sortSet.score? k = none →
      e.sortSet.empty = false → e.sortSet.maxScore ≤ d)
    (hfirst : ∀ k d, deadline x k = some d → e.firstTimeout ≤ d) (hnow : now < INT64_MAX) :
    ∃ (L : List Item) (n : Nat), InOrder L ∧
      (∀ d k, item d k ∈ L ↔ deadline x k = some d ∧ d ≤ now) ∧ L.length ≤ n ∧
      (∀ i < n, (expireLoops now i (e, x)).1.firstTimeout ≤ now) ∧
      now < (expireLoops now n (e, x)).1.firstTimeout ∧
      ∀ i ≤ n, ∀ k,
        ((expireLoops now i (e, x)).2.valueRow k =
          if k ∈ (L.take i).map (fun j => (ofLex j).2) then none else x.valueRow k) ∧
        (deadline (expireLoops now i (e, x)).2 k =
          if k ∈ (L.take i).map (fun j => (ofLex j).2) then none else deadline x k) := by
  obtain ⟨ix, hx⟩ := hx
  simp only [hx.deadline_eq] at hrange hsub hout hfirst ⊢
  have hwindow : Window ix e.sortSet := by
    refine ⟨fun k v d hv hd => ?_, fun k d hd hk k' v hv => ?_⟩
    · rw [hsub k v hv] at hd
      exact Option.some.inj hd
    · have hne : e.sortSet.empty = false := by
        refine Bool.eq_false_iff.mpr fun he => ?_
        rw [SortedSet.empty_iff.mp he k'] at hv
        cases hv
      exact (SortedSet.le_maxScore hv).trans (hout k d hd hk hne)
  have h : Draining ix x e := ⟨hx, hrange, hsub, hwindow, hfirst⟩
  obtain ⟨L, n, hord, hmem, hL⟩ := h.drain hnow
  refine ⟨L, n, hord, hmem, hL.length, hL.awake, hL.asleep, fun i hi k => ⟨hL.value i hi k, ?_⟩⟩
  obtain ⟨ix', hrec, hix⟩ := hL.index i hi
  rw [hrec.deadline_eq, hix]

/-- A database with two keys, due at 1000 and at 9000. -/
def twoDue : XDataBase :=
  let x := (({ db := ⟨.empty, []⟩ } : XDataBase).set 0 (ascii "a") (ascii "v")).2
  ((x.zset expireKey (ascii "a") (decimal 1000)).2.zset expireKey (ascii "b") (decimal 9000)).2

theorem deadline_twoDue (k : Bytes) : WellFormed twoDue ∧ deadline twoDue k =
    if k = ascii "b" then some 9000 else if k = ascii "a" then some 1000 else none := by
  have h₀ : Recorded { db := ⟨.empty, []⟩ } fun _ => none :=
    .of_db rfl (.empty expireKey) fun _ _ hd => by cases hd
  have ha : InRange 1000 := by decide
  have hb : InRange 9000 := by decide
  have h₁ := ((h₀.set 0 (ascii "a") (ascii "v")).zset_ok (show ascii "a" ≠ [] by decide)
    (by decide) ha.isI64 (by decide)).2
  have h₂ := (h₁.zset_ok (show ascii "b" ≠ [] by decide) (by decide) hb.isI64 (by decide)).2
  refine ⟨⟨_, h₂⟩, (h₂.deadline_eq k).trans ?_⟩
  simp only [Function.update_apply]

/-- At 2000 a new manager takes the first key and leaves the second. -/
theorem expiry_drains_twoDue :
    ∃ n, let p := expireLoops 2000 n ({}, twoDue)
      2000 < p.1.firstTimeout ∧ p.2.valueRow (ascii "a") = none ∧
        deadline p.2 (ascii "a") = none ∧ deadline p.2 (ascii "b") = some 9000 := by
  have hrange : ∀ k d, deadline twoDue k = some d → InRange d := by
    intro k d hd
    rw [(deadline_twoDue k).2] at hd
    split_ifs at hd
    · cases hd
      decide
    · cases hd
      decide
  obtain ⟨L, n, -, hmem, hlen, -, hs, hkey⟩ := expiry_drains (e := {})
    (deadline_twoDue []).1 hrange (fun _ _ hv => by cases hv) (fun _ _ _ _ he => by cases he)
    (fun k d hd => (hrange k d hd).1) (show (2000 : Int) < INT64_MAX by decide)
  have htake : L.take n = L := List.take_of_length_le hlen
  have ha : ascii "a" ∈ L.map fun j => (ofLex j).2 :=
    List.mem_map.mpr ⟨item 1000 (ascii "a"), (hmem _ _).mpr ⟨(deadline_twoDue _).2, by decide⟩, rfl⟩
  have hb : ascii "b" ∉ L.map fun j => (ofLex j).2 := by
    intro hb
    obtain ⟨j, hj, hjb⟩ := List.mem_map.mp hb
    obtain ⟨hd, hdue⟩ := (hmem (ofLex j).1 (ofLex j).2).mp hj
    rw [hjb, (deadline_twoDue _).2] at hd
    rw [← Option.some.inj hd] at hdue
    exact absurd hdue (by decide)
  have hkeyn := fun k => htake ▸ hkey n (le_refl n) k
  refine ⟨n, hs, ?_, ?_, ?_⟩
  · rw [(hkeyn _).1, if_pos ha]
  · rw [(hkeyn _).2, if_pos ha]
  · rw [(hkeyn _).2, if_neg hb, (deadline_twoDue _).2]
    rfl

end XHttpCache
