import XHttpCache.Store.ScoreIndex

/-!
# Expire — `ExpireManager`

`src/xExpireManager.cpp`.  The deadlines of the keys are the scores of the sorted set `expire` of
the database; `sort_set` is a window on them, of at most `BATCH_SIZE` keys, and `first_timeout`
is the time until which the expiry thread sleeps.

`Timely ix e` says what the window and `first_timeout` owe to the recorded deadlines `ix`:

* `first`: the thread does not sleep past a deadline;
* `window`: a key in the window has its recorded deadline, if it has one, and what is not in
  the window is due no earlier than all of it.  A key of the window need not be recorded:
  `Flushall` and the refused `Zset` of an empty key leave such keys;
* `size`: the window is bounded.

The more is recorded the more `Timely` asks (`Timely.mono`), so a key can be taken out of `ix`,
rescheduled, and put back with its new deadline: that is how `setTTL` is used, whose two calls
in `SET .. EX` stand on both sides of the write to the index.
-/

namespace XHttpCache
open Support

/-! ### The manager -/

/-- `BATCH_SIZE`. -/
def BATCH_SIZE : Nat := 1000

/-- `expire_key`. -/
def expireKey : Bytes := ascii "expire"

/-- `ExpireManager`, less the pointer to the database and `brun`, which is always true. -/
structure ExpireManager where
  sortSet : SortedSet := .init
  firstTimeout : Int := 0

namespace ExpireManager

/-- `ExpireManager::LoadExpirationKeys`. -/
def loadExpirationKeys (e : ExpireManager) (xdb : XDataBase) (num : Int) :
    ExpireManager × XDataBase :=
  let (_, sortSet, xdb) := xdb.loadExpirationKeys expireKey e.sortSet num
  ({ e with sortSet }, xdb)

/-- The second half of `ExpireManager::ExpireLoop`, from `front` on. -/
def expireFront (e : ExpireManager) (xdb : XDataBase) (now : Int) : ExpireManager × XDataBase :=
  match e.sortSet.front with
  | none => (e, xdb)
  | some i =>
      let (score, key) := ofLex i
      let e := { e with firstTimeout := score }
      if score ≤ now then
        let xdb := (xdb.del key).2
        let xdb := (xdb.zdel expireKey key).2
        ({ e with sortSet := e.sortSet.popFront.2 }, xdb)
      else (e, xdb)

/-- `ExpireManager::ExpireLoop`, at the clock value `now`. -/
def expireLoop (e : ExpireManager) (xdb : XDataBase) (now : Int) : ExpireManager × XDataBase :=
  if e.sortSet.empty then
    let (e, xdb) := e.loadExpirationKeys xdb BATCH_SIZE
    if e.sortSet.empty then ({ e with firstTimeout := INT64_MAX }, xdb)
    else e.expireFront xdb now
  else e.expireFront xdb now

/-- Whether an iteration of `ExpireManager::Dispatch` sleeps, rather than run `ExpireLoop`. -/
def sleeps (e : ExpireManager) (now : Int) : Bool := decide (e.firstTimeout > now)

/-- `ExpireManager::SetTTL`. -/
def setTTL (e : ExpireManager) (key : Bytes) (ttl : Int) : ExpireManager :=
  let e := if ttl < e.firstTimeout then { e with firstTimeout := ttl } else e
  if e.sortSet.empty = false ∧ ttl ≤ e.sortSet.maxScore then
    let sortSet := (e.sortSet.add key ttl).2
    { e with sortSet := if sortSet.size > BATCH_SIZE then sortSet.popBack.2 else sortSet }
  else { e with sortSet := (e.sortSet.del key).2 }

theorem firstTimeout_setTTL (e : ExpireManager) (key : Bytes) (ttl : Int) :
    (e.setTTL key ttl).firstTimeout = if ttl < e.firstTimeout then ttl else e.firstTimeout := by
  simp only [setTTL]
  split_ifs <;> rfl

/-- What `SetTTL` makes of the window. -/
theorem sortSet_setTTL (e : ExpireManager) (key : Bytes) (ttl : Int) :
    (e.setTTL key ttl).sortSet =
      if e.sortSet.empty = false ∧ ttl ≤ e.sortSet.maxScore then
        if (e.sortSet.add key ttl).2.size > BATCH_SIZE then (e.sortSet.add key ttl).2.popBack.2
        else (e.sortSet.add key ttl).2
      else (e.sortSet.del key).2 := by
  simp only [setTTL]
  by_cases hf : ttl < e.firstTimeout
  · rw [if_pos hf]
    split_ifs <;> rfl
  · rw [if_neg hf]
    split_ifs <;> rfl

end ExpireManager

/-! ### The window and the recorded deadlines -/

/-- What a map still has when `a` is taken out of it. -/
theorem update_none_eq_some {α β : Type} [DecidableEq α] {f : α → Option β} {a k : α} {d : β} :
    Function.update f a none k = some d ↔ k ≠ a ∧ f k = some d := by
  by_cases hk : k = a
  · subst hk
    simp
  · simp [hk]

/-- The set `s` is a window on the deadlines `ix`. -/
structure Window (ix : Bytes → Option Int) (s : SortedSet) : Prop where
  agree : ∀ k v d, s.score? k = some v → ix k = some d → v = d
  below : ∀ k d, ix k = some d → s.score? k = none → ∀ k' v, s.score? k' = some v → v ≤ d

namespace Window

variable {ix ix' : Bytes → Option Int} {s : SortedSet}

theorem mono (h : Window ix s) (hix : ∀ k d, ix' k = some d → ix k = some d) : Window ix' s where
  agree k v d hv hd := h.agree k v d hv (hix k d hd)
  below k d hd := h.below k d (hix k d hd)

/-- Nothing in an empty window is out of place. -/
theorem of_empty (ix : Bytes → Option Int) (h : s.empty = true) : Window ix s where
  agree k _ _ hv := by rw [SortedSet.empty_iff.mp h k] at hv; cases hv
  below _ _ _ _ k _ hv := by rw [SortedSet.empty_iff.mp h k] at hv; cases hv

/-- What is outside a window that is not empty is no earlier than its greatest score. -/
theorem maxScore_le (h : Window ix s) (he : s.empty = false) {k : Bytes} {d : Int}
    (hd : ix k = some d) (hk : s.score? k = none) : s.maxScore ≤ d := by
  obtain ⟨k', hb⟩ := SortedSet.exists_back he
  exact h.below k d hd hk k' _ (SortedSet.score?_of_back hb)

/-- The front is no later than any deadline. -/
theorem front_le (h : Window ix s) {v : Int} {key : Bytes} (hf : s.front = some (item v key))
    {k : Bytes} {d : Int} (hd : ix k = some d) : v ≤ d := by
  have hkey := SortedSet.score?_of_front hf
  cases hk : s.score? k with
  | none => exact h.below k d hd hk key v hkey
  | some v' =>
      rw [← h.agree k v' d hk hd]
      exact SortedSet.fst_le_of_item_le (SortedSet.front_le hf hk)

/-- `key` comes in with a deadline no later than the greatest score. -/
theorem add {key : Bytes} {d : Int} (h : Window (Function.update ix key none) s)
    (he : s.empty = false) (hd : d ≤ s.maxScore) :
    Window (Function.update ix key (some d)) (s.add key d).2 := by
  refine ⟨fun k v d' hv hd' => ?_, fun k d' hd' hk k' v hv => ?_⟩
  · rw [SortedSet.score?_add] at hv
    by_cases hk : k = key
    · rw [hk, Function.update_self] at hd'
      rw [if_pos hk, hd'] at hv
      exact (Option.some.inj hv).symm
    · rw [if_neg hk] at hv
      rw [Function.update_of_ne hk] at hd'
      exact h.agree k v d' hv (by rwa [Function.update_of_ne hk])
  · rw [SortedSet.score?_add] at hk hv
    by_cases hkk : k = key
    · rw [if_pos hkk] at hk
      cases hk
    · rw [if_neg hkk] at hk
      have hix : Function.update ix key none k = some d' := by
        rwa [Function.update_of_ne hkk] at hd' ⊢
      split_ifs at hv with hk'
      · cases hv
        exact hd.trans (h.maxScore_le he hix hk)
      · exact h.below k d' hix hk k' v hv

/-- `key` stays out, with a deadline later than the greatest score. -/
theorem del {key : Bytes} {d : Int} (h : Window (Function.update ix key none) s)
    (hd : s.empty = false → s.maxScore < d) :
    Window (Function.update ix key (some d)) (s.del key).2 := by
  refine ⟨fun k v d' hv hd' => ?_, fun k d' hd' hk k' v hv => ?_⟩
  · rw [SortedSet.score?_del] at hv
    split_ifs at hv with hk
    rw [Function.update_of_ne hk] at hd'
    exact h.agree k v d' hv (by rwa [Function.update_of_ne hk])
  · rw [SortedSet.score?_del] at hk hv
    split_ifs at hv with hk'
    by_cases hkk : k = key
    · rw [hkk, Function.update_self] at hd'
      cases hd'
      have he : s.empty = false := by
        cases hemp : s.empty with
        | false => rfl
        | true => rw [SortedSet.empty_iff.mp hemp k'] at hv; cases hv
      exact (SortedSet.le_maxScore hv).trans (le_of_lt (hd he))
    · rw [if_neg hkk] at hk
      exact h.below k d' (by rwa [Function.update_of_ne hkk] at hd' ⊢) hk k' v hv

theorem popBack (h : Window ix s) : Window ix s.popBack.2 := by
  cases hb : s.back with
  | none =>
      refine of_empty ix ?_
      rw [SortedSet.popBack_of_none hb]
      exact SortedSet.back_eq_none.mp hb
  | some i =>
      have hback : s.back = some (item (ofLex i).1 (ofLex i).2) := hb
      have hkey := SortedSet.score?_of_back hback
      refine ⟨fun k v d hv hd => ?_, fun k d hd hk k' v hv => ?_⟩
      · rw [SortedSet.score?_popBack hback] at hv
        split_ifs at hv
        exact h.agree k v d hv hd
      · rw [SortedSet.score?_popBack hback] at hk hv
        split_ifs at hv
        split_ifs at hk with hkk
        · -- the key that left was the last, and no key of the window is later
          subst hkk
          rw [← h.agree _ _ d hkey hd]
          exact SortedSet.fst_le_of_item_le (SortedSet.le_back hback hv)
        · exact h.below k d hd hk k' v hv

theorem popFront {v : Int} {key : Bytes} (h : Window ix s) (hf : s.front = some (item v key)) :
    Window (Function.update ix key none) s.popFront.2 := by
  refine ⟨fun k v' d hv hd => ?_, fun k d hd hk k' v' hv => ?_⟩
  · rw [SortedSet.score?_popFront hf] at hv
    split_ifs at hv with hkk
    rw [Function.update_of_ne hkk] at hd
    exact h.agree k v' d hv hd
  · rw [SortedSet.score?_popFront hf] at hk hv
    split_ifs at hv
    by_cases hkk : k = key
    · rw [hkk, Function.update_self] at hd
      cases hd
    · rw [Function.update_of_ne hkk] at hd
      rw [if_neg hkk] at hk
      exact h.below k d hd hk k' v' hv

theorem score?_addAll_take {L : List Item} (hlt : L.Pairwise (· < ·))
    (hmem : ∀ d m, item d m ∈ L → ix m = some d) (n : Nat) {k : Bytes} {v : Int} :
    (SortedSet.init.addAll (L.take n)).score? k = some v ↔ item v k ∈ L.take n := by
  rw [SortedSet.score?_addAll ((members_ne hlt hmem).sublist (List.take_sublist n L))
    fun _ _ => SortedSet.score?_init _]
  simp

/-- The first items of the deadlines, in order, are a window. -/
theorem of_take {L : List Item} (hlt : L.Pairwise (· < ·))
    (hmem : ∀ d m, item d m ∈ L ↔ ix m = some d) (n : Nat) :
    Window ix (SortedSet.init.addAll (L.take n)) := by
  have hscore : ∀ k v, (SortedSet.init.addAll (L.take n)).score? k = some v ↔
      item v k ∈ L.take n := fun k v =>
    score?_addAll_take hlt (fun d m => (hmem d m).mp) n
  refine ⟨fun k v d hv hd => ?_, fun k d hd hk k' v hv => ?_⟩
  · have hv' := (hmem v k).mp (List.mem_of_mem_take ((hscore k v).mp hv))
    rw [hd] at hv'
    exact (Option.some.inj hv').symm
  · have hdrop : item d k ∈ L.drop n := by
      have hL := (hmem d k).mpr hd
      rw [← List.take_append_drop n L, List.mem_append] at hL
      rcases hL with hL | hL
      · rw [(hscore k d).mpr hL] at hk
        cases hk
      · exact hL
    rw [← List.take_append_drop n L] at hlt
    exact SortedSet.fst_le_of_item_le
      (le_of_lt ((List.pairwise_append.mp hlt).2.2 _ ((hscore k' v).mp hv) _ hdrop))

end Window

/-- The window and `first_timeout` serve the deadlines `ix`. -/
structure Timely (ix : Bytes → Option Int) (e : ExpireManager) : Prop where
  first : ∀ k d, ix k = some d → e.firstTimeout ≤ d
  window : Window ix e.sortSet
  size : e.sortSet.size ≤ BATCH_SIZE

namespace Timely

variable {ix ix' : Bytes → Option Int} {e : ExpireManager}

theorem mono (h : Timely ix e) (hix : ∀ k d, ix' k = some d → ix k = some d) : Timely ix' e where
  first k d hd := h.first k d (hix k d hd)
  window := h.window.mono hix
  size := h.size

theorem update_none (h : Timely ix e) (key : Bytes) :
    Timely (Function.update ix key none) e :=
  h.mono fun _ _ hd => (update_none_eq_some.mp hd).2

/-- **`SetTTL`** serves the deadline it is given. -/
theorem setTTL {key : Bytes} (h : Timely (Function.update ix key none) e) (d : Int) :
    Timely (Function.update ix key (some d)) (e.setTTL key d) := by
  refine ⟨fun k d' hd' => ?_, ?_, ?_⟩
  · rw [ExpireManager.firstTimeout_setTTL]
    by_cases hk : k = key
    · rw [hk, Function.update_self] at hd'
      cases hd'
      split_ifs with hlt
      · exact le_refl d
      · exact not_lt.mp hlt
    · have hfirst := h.first k d' (by rwa [Function.update_of_ne hk] at hd' ⊢)
      split_ifs with hlt
      · exact (le_of_lt hlt).trans hfirst
      · exact hfirst
  · rw [ExpireManager.sortSet_setTTL]
    split_ifs with hc hs
    · exact (h.window.add hc.1 hc.2).popBack
    · exact h.window.add hc.1 hc.2
    · exact h.window.del fun he => not_le.mp fun hd => hc ⟨he, hd⟩
  · rw [ExpireManager.sortSet_setTTL]
    have hadd := (e.sortSet.size_add_le key d).trans (Nat.succ_le_succ h.size)
    split_ifs with hc hs
    · exact (SortedSet.size_popBack_le _).trans (Nat.sub_le_of_le_add hadd)
    · exact not_lt.mp hs
    · exact (e.sortSet.size_del_le key).trans h.size

end Timely

/-! ### The index in the database -/

/-- The deadlines that `LoadExpirationKeys` finds. -/
def loadable (ix : Bytes → Option Int) (k : Bytes) : Option Int :=
  (ix k).filter fun d => decide (InRange d)

theorem loadable_eq_some {ix : Bytes → Option Int} {k : Bytes} {d : Int} :
    loadable ix k = some d ↔ ix k = some d ∧ InRange d := by
  rw [loadable, Option.filter_eq_some_iff, decide_eq_true_iff]

/-- A key that is rescheduled is loaded with its new deadline, if at all. -/
theorem loadable_update {ix : Bytes → Option Int} {key k : Bytes} {o : Option Int} {d : Int}
    (h : loadable (Function.update ix key o) k = some d) :
    Function.update (loadable ix) key o k = some d := by
  obtain ⟨h, hd⟩ := loadable_eq_some.mp h
  by_cases hk : k = key
  · subst hk
    rwa [Function.update_self] at h ⊢
  · rw [Function.update_of_ne hk] at h ⊢
    exact loadable_eq_some.mpr ⟨h, hd⟩

/-- The stored set `expire` records the deadlines `ix`, and each of its rows can be read. -/
structure Recorded (x : XDataBase) (ix : Bytes → Option Int) : Prop where
  healthy : x.Healthy
  index : ZIndex expireKey x.rows ix
  fits : Fits expireKey ix

namespace Recorded

variable {x x' : XDataBase} {ix : Bytes → Option Int}

theorem setKey : SetKey expireKey := by decide

theorem of_db {r : OrderedMap Bytes Bytes} (hx : x.db = ⟨r, []⟩) (h : ZIndex expireKey r ix)
    (hf : Fits expireKey ix) : Recorded x ix :=
  ⟨XDataBase.healthy_of_db hx, by rwa [XDataBase.rows_of_db hx], hf⟩

theorem set (h : Recorded x ix) (now : Int) (key val : Bytes) :
    Recorded (x.set now key val).2 ix :=
  of_db (XDataBase.set_spec h.healthy now key val).2 (h.index.insert_string _ _) h.fits

theorem get (h : Recorded x ix) (key : Bytes) : Recorded (x.get key).2.2 ix :=
  of_db (XDataBase.get_spec h.healthy key).2.2 h.index h.fits

theorem del (h : Recorded x ix) (key : Bytes) : Recorded (x.del key).2 ix :=
  of_db (XDataBase.del_spec h.healthy key).2 (h.index.erase_string _) h.fits

theorem flushall (h : Recorded x ix) : Recorded x.flushall.2 fun _ => none :=
  of_db (XDataBase.flushall_spec h.healthy).2 (.empty expireKey) nofun

/-- `Zget` reads the deadline of a key. -/
theorem zget (h : Recorded x ix) (key : Bytes) :
    x.zget expireKey key =
      match ix key with
      | some d => (.ok, decimal d, x)
      | none => (.null, [], x) := by
  rw [XDataBase.zget_spec h.healthy, h.index.zset]
  cases ix key <;> rfl

/-- `Zset` of the empty key, or of the deadline that is recorded. -/
theorem zset_err (h : Recorded x ix) {key : Bytes} {d : Int} (hk : key = [] ∨ ix key = some d) :
    x.zset expireKey key (decimal d) = (.err, x) := by
  rcases hk with hk | hk
  · exact XDataBase.zset_of_empty x (Or.inr hk) _
  · exact XDataBase.zset_same h.healthy (by rw [h.index.zset, hk]; rfl)

/-- `Zset` of a new deadline. -/
theorem zset_ok (h : Recorded x ix) {key : Bytes} {d : Int} (hk : key ≠ []) (hd : ix key ≠ some d)
    (hr : IsI64 d) (hlen : (scoreRow expireKey d key).length < 2 ^ 31) :
    (x.zset expireKey key (decimal d)).1 = .ok ∧
      Recorded (x.zset expireKey key (decimal d)).2 (Function.update ix key (some d)) := by
  have hg : x.rows.get (encodeKey (.zset expireKey key)) ≠ some (decimal d) := by
    rw [h.index.zset]
    intro hs
    obtain ⟨d', hd', he⟩ := Option.map_eq_some_iff.mp hs
    have hr' := h.index.score key d' hd'
    have heq : d' = d := by
      rw [← strToInt64_decimal hr', he, strToInt64_decimal hr]
    exact hd (heq ▸ hd')
  obtain ⟨hok, hdb⟩ := XDataBase.zset_write h.healthy setKey.ne_nil hk hg
  refine ⟨hok, of_db hdb (h.index.zset_self setKey.2 hk hr) fun m d' hm => ?_⟩
  by_cases hmk : m = key
  · subst hmk
    rw [Function.update_self] at hm
    cases hm
    exact hlen
  · rw [Function.update_of_ne hmk] at hm
    exact h.fits m d' hm

theorem zdel (h : Recorded x ix) (key : Bytes) :
    Recorded (x.zdel expireKey key).2 (Function.update ix key none) := by
  have hfits : Fits expireKey (Function.update ix key none) := by
    intro m d hm
    by_cases hmk : m = key
    · rw [hmk, Function.update_self] at hm
      cases hm
    · rw [Function.update_of_ne hmk] at hm
      exact h.fits m d hm
  cases hd : ix key with
  | none =>
      rw [XDataBase.zdel_absent h.healthy (by rw [h.index.zset, hd]; rfl),
        Function.update_eq_self_iff.mpr hd.symm]
      exact h
  | some d =>
      have hdb := (XDataBase.zdel_present h.healthy setKey.ne_nil (h.index.member key d hd)
        (by rw [h.index.zset, hd]; rfl)).2
      exact of_db hdb (h.index.zdel_self setKey.2 hd) hfits

/-- Loading into an empty window gives a window on what can be loaded; if it stays empty, there
is nothing to load. -/
theorem load (h : Recorded x ix) :
    ∃ s : SortedSet, x.loadExpirationKeys expireKey .init BATCH_SIZE = (.ok, s, x) ∧
      Window (loadable ix) s ∧ s.size ≤ BATCH_SIZE ∧
      (s.empty = true → ∀ k, loadable ix k = none) ∧
      ∀ k v, s.score? k = some v → ix k = some v := by
  obtain ⟨L, hlt, hmem, hload⟩ := h.index.load h.fits setKey.2
  have hmem' : ∀ d m, item d m ∈ L ↔ loadable ix m = some d := by
    intro d m
    rw [hmem, loadable_eq_some]
  have hL : ∀ d m, item d m ∈ L → ix m = some d := fun d m hi => ((hmem d m).mp hi).1
  have hitems : (SortedSet.init.addAll (L.take BATCH_SIZE)).items = L.take BATCH_SIZE :=
    SortedSet.items_addAll (hlt.sublist (List.take_sublist _ L))
      ((members_ne hlt hL).sublist (List.take_sublist _ L))
  refine ⟨_, hload x h.healthy rfl BATCH_SIZE .init, .of_take hlt hmem' BATCH_SIZE, ?_,
    fun he k => ?_, fun k v hv => ?_⟩
  · rw [← SortedSet.length_items, hitems]
    exact List.length_take_le _ _
  · -- an empty prefix of a positive length is a prefix of nothing
    have hnil : L = [] := by
      have hlen : (L.take BATCH_SIZE).length = 0 := by
        rw [← hitems, SortedSet.length_items]
        exact of_decide_eq_true he
      cases L with
      | nil => rfl
      | cons i L => cases hlen
    cases hk : loadable ix k with
    | none => rfl
    | some d =>
        have := (hmem' d k).mpr hk
        rw [hnil] at this
        cases this
  · exact hL v k (List.mem_of_mem_take ((Window.score?_addAll_take hlt hL BATCH_SIZE).mp hv))

/-- What loading brings into any window is recorded. -/
theorem score?_load (h : Recorded x ix) (s : SortedSet) :
    ∃ s' : SortedSet, x.loadExpirationKeys expireKey s BATCH_SIZE = (.ok, s', x) ∧
      ∀ k v, s'.score? k = some v → s.score? k = some v ∨ ix k = some v := by
  obtain ⟨L, -, hmem, hload⟩ := h.index.load h.fits setKey.2
  refine ⟨_, hload x h.healthy rfl BATCH_SIZE s, fun k v hv => ?_⟩
  rcases SortedSet.score?_of_addAll hv with hv | hv
  · exact Or.inr ((hmem v k).mp (List.mem_of_mem_take hv)).1
  · exact Or.inl hv

end Recorded

/-! ### The expiry loop -/

variable {x : XDataBase} {ix : Bytes → Option Int} {e : ExpireManager} {now : Int}

/-- The window that an iteration looks at: the one there is, or what is loaded in place of an
empty one. -/
structure Faced (ix : Bytes → Option Int) (e : ExpireManager) (s : SortedSet) : Prop where
  kept : e.sortSet.empty = false → s = e.sortSet
  recorded : e.sortSet.empty = true → ∀ k v, s.score? k = some v → ix k = some v
  window : e.sortSet.empty = true → Window (loadable ix) s
  size : e.sortSet.empty = true → s.size ≤ BATCH_SIZE
  none : s.empty = true → ∀ k, loadable ix k = none

/-- What an iteration that looks at the window `s` does. -/
inductive Iterated (x : XDataBase) (now : Int) (s : SortedSet) : ExpireManager × XDataBase → Prop
  /-- There is nothing to wait for. -/
  | idle (he : s.empty = true) : Iterated x now s (⟨s, INT64_MAX⟩, x)
  /-- The first deadline is to come. -/
  | early {v : Int} {key : Bytes} (hf : s.front = some (item v key)) (hv : now < v) :
      Iterated x now s (⟨s, v⟩, x)
  /-- The first key is due, and goes. -/
  | due {v : Int} {key : Bytes} (hf : s.front = some (item v key)) (hv : v ≤ now) :
      Iterated x now s (⟨s.popFront.2, v⟩, ((x.del key).2.zdel expireKey key).2)

theorem Iterated.of_expireFront (he : e.sortSet.empty = false) :
    Iterated x now e.sortSet (e.expireFront x now) := by
  obtain ⟨v, key, hf⟩ := SortedSet.exists_front he
  have hfront : e.expireFront x now =
      if v ≤ now then (⟨e.sortSet.popFront.2, v⟩, ((x.del key).2.zdel expireKey key).2)
      else (⟨e.sortSet, v⟩, x) := by
    rw [ExpireManager.expireFront, hf]
    rfl
  rw [hfront]
  split_ifs with hv
  · exact .due hf hv
  · exact .early hf (not_le.mp hv)

/-- **What an iteration of `ExpireLoop` does.** -/
theorem Recorded.iterated (hx : Recorded x ix) (e : ExpireManager) (now : Int) :
    ∃ s, Faced ix e s ∧ Iterated x now s (e.expireLoop x now) := by
  rw [ExpireManager.expireLoop]
  split_ifs with he
  · obtain ⟨s, hload, hw, hsize, hnone, hs⟩ := hx.load
    have hfaced : Faced ix e s :=
      ⟨fun hne => absurd he (Bool.eq_false_iff.mp hne), fun _ => hs, fun _ => hw, fun _ => hsize,
        hnone⟩
    refine ⟨s, hfaced, ?_⟩
    rw [ExpireManager.loadExpirationKeys, SortedSet.eq_init he, hload]
    simp only
    split_ifs with hse
    · exact .idle hse
    · exact .of_expireFront (e := { e with sortSet := s }) (Bool.eq_false_iff.mpr hse)
  · have hne := Bool.eq_false_iff.mpr he
    have hfaced : Faced ix e e.sortSet :=
      ⟨fun _ => rfl, fun h => absurd h he, fun h => absurd h he, fun h => absurd h he,
        fun h => absurd h he⟩
    exact ⟨_, hfaced, .of_expireFront hne⟩

/-- What holds of an empty window and of the one there is holds of the one an iteration looks
at. -/
theorem Faced.elim {s : SortedSet} (h : Faced ix e s) {P : SortedSet → Prop} (hkept : P e.sortSet)
    (hloaded : e.sortSet.empty = true → P s) : P s := by
  cases he : e.sortSet.empty with
  | false => rwa [h.kept he]
  | true => exact hloaded he

/-- **One iteration of `ExpireLoop`** keeps the window and the index timely. -/
theorem Timely.expireLoop (hx : Recorded x ix) (h : Timely (loadable ix) e) (now : Int) :
    ∃ ix', Recorded (e.expireLoop x now).2 ix' ∧ Timely (loadable ix') (e.expireLoop x now).1 := by
  obtain ⟨s, hs, hit⟩ := hx.iterated e now
  have hw : Window (loadable ix) s := hs.elim h.window hs.window
  have hsize : s.size ≤ BATCH_SIZE := hs.elim (P := fun s => s.size ≤ BATCH_SIZE) h.size hs.size
  generalize e.expireLoop x now = r at hit ⊢
  cases hit with
  | idle he =>
      refine ⟨ix, hx, fun k d hd => ?_, hw, hsize⟩
      rw [hs.none he k] at hd
      cases hd
  | early hf hv => exact ⟨ix, hx, fun _ _ hd => hw.front_le hf hd, hw, hsize⟩
  | @due v key hf hv =>
      have ht : Timely (Function.update (loadable ix) key none) ⟨s.popFront.2, v⟩ := by
        refine ⟨fun k d hd => ?_, hw.popFront hf, (SortedSet.size_popFront_le _).trans hsize⟩
        exact hw.front_le hf (update_none_eq_some.mp hd).2
      exact ⟨_, (hx.del key).zdel key, ht.mono fun _ _ hd => loadable_update hd⟩

/-! ### Keys without a deadline -/

/-- `SetTTL` brings no other key into the window. -/
theorem ExpireManager.score?_setTTL_eq_none {key k : Bytes} (hk : k ≠ key)
    (h : e.sortSet.score? k = none) (d : Int) : (e.setTTL key d).sortSet.score? k = none := by
  have hadd : (e.sortSet.add key d).2.score? k = none := by
    rw [SortedSet.score?_add, if_neg hk, h]
  rw [ExpireManager.sortSet_setTTL]
  split_ifs
  · exact SortedSet.score?_popBack_eq_none hadd
  · exact hadd
  · rw [SortedSet.score?_del, if_neg hk, h]

/-- After `SetTTL` of a key the window has that deadline for it or none, and for the others what
it had. -/
theorem ExpireManager.score?_of_setTTL {key k : Bytes} {d v : Int}
    (h : (e.setTTL key d).sortSet.score? k = some v) :
    (k = key ∧ v = d) ∨ (k ≠ key ∧ e.sortSet.score? k = some v) := by
  have hadd : (e.sortSet.add key d).2.score? k = some v →
      (k = key ∧ v = d) ∨ (k ≠ key ∧ e.sortSet.score? k = some v) := by
    rw [SortedSet.score?_add]
    split_ifs with hk
    · intro hv
      exact Or.inl ⟨hk, (Option.some.inj hv).symm⟩
    · exact fun hv => Or.inr ⟨hk, hv⟩
  rw [ExpireManager.sortSet_setTTL] at h
  split_ifs at h
  · exact hadd (SortedSet.score?_of_popBack h)
  · exact hadd h
  · rw [SortedSet.score?_del] at h
    split_ifs at h with hk
    exact Or.inr ⟨hk, h⟩

/-- The value of a key after the expiry of another. -/
theorem Recorded.valueRow_expired (hx : Recorded x ix) (key k : Bytes) :
    ((x.del key).2.zdel expireKey key).2.valueRow k = if k = key then none else x.valueRow k := by
  rw [XDataBase.valueRow_zdel (hx.del key).healthy, XDataBase.valueRow_del hx.healthy]

/-- An iteration of `ExpireLoop` gives no key a deadline, and deletes only a key that is in the
window or has one. -/
theorem Recorded.expireLoop (hx : Recorded x ix) (e : ExpireManager) (now : Int) :
    ∃ ix', Recorded (e.expireLoop x now).2 ix' ∧
      ∀ k, ix k = none → e.sortSet.score? k = none →
        ix' k = none ∧ (e.expireLoop x now).1.sortSet.score? k = none ∧
          (e.expireLoop x now).2.valueRow k = x.valueRow k := by
  obtain ⟨s, hs, hit⟩ := hx.iterated e now
  have hnone : ∀ k, ix k = none → e.sortSet.score? k = none → s.score? k = none := by
    intro k hk hek
    refine hs.elim (P := fun s => s.score? k = none) hek fun he => ?_
    refine Option.eq_none_iff_forall_ne_some.mpr fun v hv => ?_
    rw [hs.recorded he k v hv] at hk
    cases hk
  generalize e.expireLoop x now = r at hit ⊢
  cases hit with
  | idle he => exact ⟨ix, hx, fun k hk hek => ⟨hk, hnone k hk hek, rfl⟩⟩
  | early hf hv => exact ⟨ix, hx, fun k hk hek => ⟨hk, hnone k hk hek, rfl⟩⟩
  | @due v key hf hv =>
      refine ⟨_, (hx.del key).zdel key, fun k hk hek => ?_⟩
      have hsk := hnone k hk hek
      -- the key that goes is in the window
      have hne : k ≠ key := by
        rintro rfl
        rw [SortedSet.score?_of_front hf] at hsk
        cases hsk
      refine ⟨by rw [Function.update_of_ne hne, hk], ?_, ?_⟩
      · rw [SortedSet.score?_popFront hf, if_neg hne, hsk]
      · rw [hx.valueRow_expired, if_neg hne]

end XHttpCache
