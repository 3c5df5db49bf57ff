import XHttpCache.Server.Threads

/-!
# Server — wake-ups between the two threads

`SetTTL` lowers `first_timeout` and `ExpireLoop` overwrites it, from what it has seen of the
index some steps before.  A deadline recorded in between is slept past (`wakeup_lost`).

The manager owes a wake-up for what the index records, less the key of a command that is between
its `Zset` and the end of its `SetTTL`, and less the one whose first `SetTTL` has been told
another deadline (`owed`).  An iteration that sees no `SetTTL` overwrites `first_timeout` with a
bound of what is owed, whatever the calls of the Redis thread to the database in the meantime:
they only take from it (`OnCourse.mono`).  So no wake-up is lost in a run in which calls of
`SetTTL` and iterations do not overlap (`no_wakeup_lost`).
-/

namespace XHttpCache
open Support

/-! ### Calls and iterations that do not overlap -/

/-- Where the Redis thread is in a call of `SetTTL`. -/
def RedisPc.setTTLPc : RedisPc → Option SetTTLPc
  | setTTL _ _ _ pc => some pc
  | _ => none

/-- `SetTTL` takes a step only between two iterations, and no iteration begins within a call of
it. -/
def Apart (s : Threads) : Threads.Action → Prop
  | .redis => s.redis.setTTLPc.isSome = true → s.expiry = .dispatch
  | .expiry => s.expiry = .dispatch → s.server.expiremgr.sleeps s.now = false →
      s.redis.setTTLPc = none ∨ s.redis.setTTLPc = some .readFirst
  | _ => True

instance (s : Threads) (a : Threads.Action) : Decidable (Apart s a) :=
  match a with
  | .redis => inferInstanceAs (Decidable (_ → _))
  | .expiry => inferInstanceAs (Decidable (_ → _ → _))
  | .tick _ => inferInstanceAs (Decidable True)
  | .command _ => inferInstanceAs (Decidable True)

/-! ### What the manager owes -/

/-- The deadlines that the manager has to serve while the Redis thread is at `pc`. -/
def owed (ix : Bytes → Option Int) : RedisPc → Bytes → Option Int
  -- a `Zset` of the deadline that is recorded already is refused, and no `SetTTL` follows it
  | .zset .setEx key d => if ix key = some d then ix else Function.update ix key none
  | .setTTL _ key _ _ => Function.update ix key none
  | _ => ix

/-- No more is owed than is recorded. -/
theorem owed_eq_some {ix : Bytes → Option Int} {k : Bytes} {d : Int} {pc : RedisPc}
    (h : owed ix pc k = some d) : ix k = some d := by
  unfold owed at h
  split at h
  · split_ifs at h
    · exact h
    · exact (update_none_eq_some.mp h).2
  · exact (update_none_eq_some.mp h).2
  · exact h

theorem owed_zset_recorded {ix : Bytes → Option Int} {key : Bytes} {d : Int}
    (h : ix key = some d) (cmd : Arming) : owed ix (.zset cmd key d) = ix := by
  cases cmd with
  | setEx => exact if_pos h
  | expire => rfl

theorem owed_zset_ne {ix : Bytes → Option Int} {key k : Bytes} {d d' : Int} (hk : k ≠ key)
    (h : ix k = some d') (cmd : Arming) : owed ix (.zset cmd key d) k = some d' := by
  cases cmd with
  | setEx =>
      simp only [owed]
      split_ifs
      · exact h
      · exact update_none_eq_some.mpr ⟨hk, h⟩
  | expire => exact h

theorem owed_update_none {ix : Bytes → Option Int} {key k : Bytes} {d : Int} {pc : RedisPc}
    (h : owed (Function.update ix key none) pc k = some d) :
    Function.update (owed ix pc) key none k = some d := by
  rw [update_none_eq_some]
  unfold owed at h ⊢
  split at h
  · rename_i key' d'
    split_ifs at h with hd'
    · rw [if_pos (update_none_eq_some.mp hd').2]
      exact update_none_eq_some.mp h
    · obtain ⟨hk', h⟩ := update_none_eq_some.mp h
      obtain ⟨hk, h⟩ := update_none_eq_some.mp h
      refine ⟨hk, ?_⟩
      split_ifs
      · exact h
      · exact update_none_eq_some.mpr ⟨hk', h⟩
  · obtain ⟨hk', h⟩ := update_none_eq_some.mp h
    obtain ⟨hk, h⟩ := update_none_eq_some.mp h
    exact ⟨hk, update_none_eq_some.mpr ⟨hk', h⟩⟩
  · exact update_none_eq_some.mp h

theorem loadable_mono {ix ix' : Bytes → Option Int} (h : ∀ k d, ix' k = some d → ix k = some d)
    (k : Bytes) (d : Int) (hd : loadable ix' k = some d) : loadable ix k = some d := by
  obtain ⟨hd, hr⟩ := loadable_eq_some.mp hd
  exact loadable_eq_some.mpr ⟨h k d hd, hr⟩

/-! ### An iteration -/

/-- The iteration has found `key` at the front, with `score`. -/
structure Found (iy : Bytes → Option Int) (s : SortedSet) (key : Bytes) (score : Int) : Prop where
  window : Window iy s
  size : s.size ≤ BATCH_SIZE
  front : s.front = some (item score key)

/-- What holds of the manager while the expiry thread is at `pc` and `iy` is owed. -/
def OnCourse (iy : Bytes → Option Int) (e : ExpireManager) : ExpiryPc → Prop
  | .dispatch => Timely iy e
  | .empty => Window iy e.sortSet ∧ e.sortSet.size ≤ BATCH_SIZE
  | .load => e.sortSet.empty = true
  | .emptyAgain => Window iy e.sortSet ∧ e.sortSet.size ≤ BATCH_SIZE ∧
      (e.sortSet.empty = true → ∀ k, iy k = none)
  | .writeMax => e.sortSet.empty = true ∧ ∀ k, iy k = none
  | .front => Window iy e.sortSet ∧ e.sortSet.size ≤ BATCH_SIZE ∧ e.sortSet.empty = false
  | .writeFirst key score => Found iy e.sortSet key score
  | .clock key score => Found iy e.sortSet key score ∧ e.firstTimeout = score
  | .del key => Found iy e.sortSet key e.firstTimeout
  | .zdel key => Found iy e.sortSet key e.firstTimeout
  | .popFront => ∃ key, Found iy e.sortSet key e.firstTimeout ∧ iy key = none

theorem Found.mono {iy iy' : Bytes → Option Int} {s : SortedSet} {key : Bytes} {score : Int}
    (h : Found iy s key score) (hiy : ∀ k d, iy' k = some d → iy k = some d) :
    Found iy' s key score :=
  ⟨h.window.mono hiy, h.size, h.front⟩

/-- The front of the window is a bound of what is owed. -/
theorem Found.timely {iy : Bytes → Option Int} {e : ExpireManager} {key : Bytes}
    (h : Found iy e.sortSet key e.firstTimeout) : Timely iy e :=
  ⟨fun _ _ hd => h.window.front_le h.front hd, h.window, h.size⟩

/-- **The less is owed, the less is asked.** -/
theorem OnCourse.mono {iy iy' : Bytes → Option Int} {e : ExpireManager} {pc : ExpiryPc}
    (h : OnCourse iy e pc) (hiy : ∀ k d, iy' k = some d → iy k = some d) : OnCourse iy' e pc := by
  have hnone : ∀ k, iy k = none → iy' k = none := fun k hk =>
    Option.eq_none_iff_forall_ne_some.mpr fun d hd => by
      rw [hiy k d hd] at hk
      cases hk
  cases pc with
  | dispatch => exact Timely.mono h hiy
  | empty => exact ⟨h.1.mono hiy, h.2⟩
  | load => exact h
  | emptyAgain => exact ⟨h.1.mono hiy, h.2.1, fun he k => hnone k (h.2.2 he k)⟩
  | writeMax => exact ⟨h.1, fun k => hnone k (h.2 k)⟩
  | front => exact ⟨h.1.mono hiy, h.2⟩
  | writeFirst key score => exact Found.mono h hiy
  | clock key score => exact ⟨h.1.mono hiy, h.2⟩
  | del key => exact Found.mono h hiy
  | zdel key => exact Found.mono h hiy
  | popFront =>
      obtain ⟨key, hf, hk⟩ := h
      exact ⟨key, hf.mono hiy, hnone key hk⟩

/-- A step of the iteration, which takes a key out of the index at most. -/
theorem OnCourse.expiryStep {s : Threads} {ix : Bytes → Option Int}
    (hx : Recorded s.server.xdb ix)
    (h : OnCourse (loadable (owed ix s.redis)) s.server.expiremgr s.expiry) :
    ∃ ix', Recorded s.expiryStep.server.xdb ix' ∧ (∀ k, ix' k = none ∨ ix' k = ix k) ∧
      OnCourse (loadable (owed ix' s.redis)) s.expiryStep.server.expiremgr s.expiryStep.expiry := by
  have hsame : ∀ k, ix k = none ∨ ix k = ix k := fun _ => Or.inr rfl
  obtain ⟨now, ⟨x, e⟩, redis, expiry, p⟩ := s
  cases expiry with
  | dispatch =>
      refine ⟨ix, ?_, hsame, ?_⟩ <;> simp only [Threads.expiryStep] <;> split_ifs
      · exact hx
      · exact hx
      · exact h
      · exact ⟨h.window, h.size⟩
  | empty =>
      refine ⟨ix, hx, hsame, ?_⟩
      simp only [Threads.expiryStep]
      cases he : e.sortSet.empty with
      | true => exact he
      | false => exact ⟨h.1, h.2, he⟩
  | load =>
      obtain ⟨w, hload, hw, hsize, hnone, -⟩ := hx.load
      rw [← SortedSet.eq_init h] at hload
      have hle := loadable_mono fun k d => @owed_eq_some ix k d redis
      refine ⟨ix, ?_, hsame, ?_⟩ <;>
        simp only [Threads.expiryStep, ExpireManager.loadExpirationKeys, hload]
      · exact hx
      · refine ⟨hw.mono hle, hsize, fun he k => ?_⟩
        refine Option.eq_none_iff_forall_ne_some.mpr fun d hd => ?_
        have := hle k d hd
        rw [hnone he k] at this
        cases this
  | emptyAgain =>
      refine ⟨ix, hx, hsame, ?_⟩
      simp only [Threads.expiryStep]
      cases he : e.sortSet.empty with
      | true => exact ⟨he, h.2.2 he⟩
      | false => exact ⟨h.1, h.2.1, he⟩
  | writeMax =>
      refine ⟨ix, hx, hsame, fun k d hd => ?_, .of_empty _ h.1, ?_⟩
      · rw [h.2 k] at hd
        cases hd
      · have hzero : e.sortSet.size = 0 := of_decide_eq_true h.1
        exact hzero.le.trans (Nat.zero_le _)
  | front =>
      obtain ⟨v, key, hf⟩ := SortedSet.exists_front h.2.2
      refine ⟨ix, ?_, hsame, ?_⟩ <;> simp only [Threads.expiryStep, hf]
      · exact hx
      · exact ⟨h.1, h.2.1, hf⟩
  | writeFirst key score => exact ⟨ix, hx, hsame, h, rfl⟩
  | clock key score =>
      obtain ⟨h, hfirst⟩ := h
      obtain rfl : e.firstTimeout = score := hfirst
      refine ⟨ix, hx, hsame, ?_⟩
      simp only [Threads.expiryStep]
      split_ifs
      · exact h
      · exact h.timely
  | del key => exact ⟨ix, hx.del key, hsame, h⟩
  | zdel key =>
      have hsub : ∀ k d, owed (Function.update ix key none) redis k = some d →
          k ≠ key ∧ owed ix redis k = some d := fun _ _ hd =>
        update_none_eq_some.mp (owed_update_none hd)
      refine ⟨_, hx.zdel key, fun k => ?_, key,
        h.mono (loadable_mono fun k d hd => (hsub k d hd).2), ?_⟩
      · by_cases hk : k = key
        · exact Or.inl (by rw [hk, Function.update_self])
        · exact Or.inr (Function.update_of_ne hk _ _)
      · refine Option.eq_none_iff_forall_ne_some.mpr fun d hd => ?_
        exact (hsub key d (loadable_eq_some.mp hd).1).1 rfl
  | popFront =>
      obtain ⟨key, hf, hk⟩ := h
      have ht := hf.timely
      have hw := hf.window.popFront hf.front
      rw [Function.update_eq_self_iff.mpr hk.symm] at hw
      exact ⟨ix, hx, hsame, ht.first, hw, (SortedSet.size_popFront_le _).trans hf.size⟩

/-! ### The invariant -/

/-- A deadline whose last `SetTTL` is in progress is in the index, unless it has expired. -/
def Settling (ix : Bytes → Option Int) : RedisPc → Prop
  | .setTTL (some _) key d _ => ix key = none ∨ ix key = some d
  | _ => True

/-- The manager is on course, or else a call of `SetTTL` on its way will have it so. -/
inductive Served (ix : Bytes → Option Int) : RedisPc → ExpiryPc → ExpireManager → Prop where
  | outside {redis expiry e} (hpc : redis.setTTLPc = none ∨ redis.setTTLPc = some .readFirst)
      (h : OnCourse (loadable (owed ix redis)) e expiry) : Served ix redis expiry e
  | inside {cmd key d pc e} (hpc : pc ≠ .readFirst)
      (h : Timely (loadable (Function.update ix key (some d))) (pc.finish key d e)) :
      Served ix (.setTTL cmd key d pc) .dispatch e

/-- The invariant of the two threads, with the deadlines `ix` in the index. -/
structure AwakeAt (ix : Bytes → Option Int) (s : Threads) : Prop where
  recorded : Recorded s.server.xdb ix
  fits : s.redis.Fits
  settling : Settling ix s.redis
  served : Served ix s.redis s.expiry s.server.expiremgr

/-- The invariant of the two threads. -/
def Awake (s : Threads) : Prop := ∃ ix, AwakeAt ix s

variable {s : Threads} {ix : Bytes → Option Int} {cmd : Option Arming} {key : Bytes} {d : Int}
  {pc : SetTTLPc} {e : ExpireManager}

/-- A call of `SetTTL` between two iterations serves its deadline when it returns. -/
theorem Served.finish (h : Served ix (.setTTL cmd key d pc) .dispatch e) :
    Timely (loadable (Function.update ix key (some d))) (pc.finish key d e) := by
  cases h with
  | outside hpc h =>
      obtain rfl : pc = .readFirst := by simpa [RedisPc.setTTLPc] using hpc
      refine Timely.setTTL_loadable (h.mono fun k d' hd' => ?_) d
      obtain ⟨hk, hd'⟩ := update_none_eq_some.mp hd'
      obtain ⟨hd', hr⟩ := loadable_eq_some.mp hd'
      exact loadable_eq_some.mpr ⟨update_none_eq_some.mpr ⟨hk, hd'⟩, hr⟩
  | inside _ h => exact h

theorem SetTTLPc.ne_readFirst {pc' : SetTTLPc} {e' : ExpireManager}
    (h : pc.step key d e = (some pc', e')) : pc' ≠ .readFirst := by
  rintro rfl
  have := SetTTLPc.left_of_some h
  cases pc <;> simp [SetTTLPc.left] at this

theorem Served.onCourse {redis : RedisPc} {expiry : ExpiryPc} (h : Served ix redis expiry e)
    (hpc : redis.setTTLPc = none ∨ redis.setTTLPc = some .readFirst) :
    OnCourse (loadable (owed ix redis)) e expiry := by
  cases h with
  | outside _ h => exact h
  | inside hne _ => exact absurd (by simpa [RedisPc.setTTLPc] using hpc) hne

/-- Outside `SetTTL`, a step of the Redis thread leaves the manager, and only takes from what is
owed. -/
theorem AwakeAt.outside {ix' : Bytes → Option Int} {s' : Threads} (h : AwakeAt ix s)
    (hs : s.redis.setTTLPc = none) (hx : Recorded s'.server.xdb ix') (hfits : s'.redis.Fits)
    (hsettling : Settling ix' s'.redis)
    (hpc : s'.redis.setTTLPc = none ∨ s'.redis.setTTLPc = some .readFirst)
    (hexpiry : s'.expiry = s.expiry) (he : s'.server.expiremgr = s.server.expiremgr)
    (howed : ∀ k d, owed ix' s'.redis k = some d → owed ix s.redis k = some d) : Awake s' := by
  refine ⟨ix', hx, hfits, hsettling, .outside hpc ?_⟩
  rw [hexpiry, he]
  exact (h.served.onCourse (Or.inl hs)).mono (loadable_mono howed)

theorem update_of_settled (h : ix key = none ∨ ix key = some d) (k : Bytes) (d' : Int)
    (hk : ix k = some d') : Function.update ix key (some d) k = some d' := by
  by_cases hkey : k = key
  · subst hkey
    rw [hk] at h
    rw [Function.update_self, h.resolve_left (Option.some_ne_none _)]
  · rwa [Function.update_of_ne hkey]

/-- A step of `SetTTL`, between two iterations. -/
theorem AwakeAt.setTTL (h : AwakeAt ix s) (hs : s.redis = .setTTL cmd key d pc)
    (hexpiry : s.expiry = .dispatch) : Awake s.redisStep.2 := by
  obtain ⟨now, ⟨x, e⟩, redis, expiry, p⟩ := s
  obtain rfl : redis = _ := hs
  obtain rfl : expiry = _ := hexpiry
  obtain ⟨hx, hfits, hsettling, hserved⟩ := h
  have hfinish := hserved.finish
  simp only [Threads.redisStep]
  rcases hpc : pc.step key d e with ⟨_ | pc', e'⟩
  · obtain rfl := SetTTLPc.eq_finish_of_none hpc
    cases cmd with
    | none =>
        refine ⟨ix, hx, hfits, trivial, .outside (Or.inl rfl)
          (hfinish.mono (loadable_mono fun k d' hd' => ?_))⟩
        change (if ix key = some d then ix else Function.update ix key none) k = some d' at hd'
        split_ifs at hd' with hd
        · exact update_of_settled (Or.inr hd) k d' hd'
        · have := update_of_settled (d := d) (Or.inl (Function.update_self key none ix)) k d' hd'
          rwa [Function.update_idem] at this
    | some cmd =>
        exact ⟨ix, hx, trivial, trivial, .outside (Or.inl rfl)
          (hfinish.mono (loadable_mono (update_of_settled hsettling)))⟩
  · rw [← SetTTLPc.finish_of_some hpc] at hfinish
    exact ⟨ix, hx, hfits, by cases cmd <;> exact hsettling,
      .inside (SetTTLPc.ne_readFirst hpc) hfinish⟩

/-- **A step of the Redis thread** keeps the invariant. -/
theorem Awake.redisStep (h : Awake s) (ha : Apart s .redis) : Awake s.redisStep.2 := by
  obtain ⟨ix, h⟩ := h
  have hx := h.recorded
  obtain ⟨now, ⟨x, e⟩, redis, expiry, p⟩ := s
  cases redis with
  | idle => exact ⟨ix, h⟩
  | set key val d =>
      exact h.outside rfl (hx.set now key val) h.fits trivial (Or.inr rfl) rfl rfl
        fun k d' hd' => (update_none_eq_some.mp hd').2
  | get key d =>
      have hget := hx.get key
      simp only [Threads.redisStep]
      rcases hg : x.get key with ⟨c, val, x'⟩
      rw [show (Threads.server _).xdb = x from rfl, hg] at hget
      cases c with
      | ok => exact h.outside rfl hget h.fits trivial (Or.inl rfl) rfl rfl fun _ _ => id
      | err => exact h.outside rfl hget trivial trivial (Or.inl rfl) rfl rfl fun _ _ => id
      | null => exact h.outside rfl hget trivial trivial (Or.inl rfl) rfl rfl fun _ _ => id
  | zset cmd key d =>
      simp only [Threads.redisStep]
      rcases hx.zset_fits h.fits with ⟨hix, hz⟩ | ⟨hix, x', hz, hrec⟩
      · -- refused: the deadline is recorded, and has been served all along
        rw [show x.zset expireKey key (ttlData d) = _ from hz]
        refine h.outside rfl hx trivial trivial (Or.inl rfl) rfl rfl fun k d' hd' => ?_
        rwa [show Threads.redis _ = .zset cmd key d from rfl, owed_zset_recorded hix]
      · rw [show x.zset expireKey key (ttlData d) = _ from hz]
        refine h.outside rfl hrec h.fits (Or.inr (Function.update_self _ _ _)) (Or.inr rfl) rfl rfl
          fun k d' hd' => ?_
        obtain ⟨hk, hd'⟩ := update_none_eq_some.mp hd'
        exact owed_zset_ne hk ((Function.update_of_ne hk _ _).symm.trans hd') cmd
  | setTTL cmd key d pc => exact h.setTTL rfl (ha rfl)
  | delScanned key keys count =>
      simp only [Threads.redisStep]
      cases keys with
      | nil => exact h.outside rfl (hx.del key) trivial trivial (Or.inl rfl) rfl rfl fun _ _ => id
      | cons => exact h.outside rfl (hx.del key) trivial trivial (Or.inl rfl) rfl rfl fun _ _ => id

/-- **A command** that comes in keeps the invariant. -/
theorem Awake.command (h : Awake s) (hs : s.redis = .idle) {argv : List Bytes}
    (hd : Deliverable argv) : Awake (s.command argv).2 := by
  obtain ⟨ix, h⟩ := h
  have hx := h.recorded
  obtain ⟨now, ⟨x, e⟩, redis, expiry, p⟩ := s
  obtain rfl : redis = .idle := hs
  rw [Threads.command]
  cases ha : armingPc now argv with
  | some pc =>
      have hfits := fits_of_armingPc ha hd
      rcases armingPc_eq_some ha with ⟨cmd, key, val, ex, ttl, rfl, -, -, rfl⟩ |
        ⟨cmd, key, ttl, rfl, -, rfl⟩
      · exact h.outside rfl hx hfits trivial (Or.inl rfl) rfl rfl fun _ _ => id
      · exact h.outside rfl hx hfits trivial (Or.inl rfl) rfl rfl fun _ _ => id
  | none =>
      cases hscan : scanDelArgs argv with
      | some args =>
          obtain ⟨start, stop, limit⟩ := args
          rcases hk : x.scanKey start stop limit with ⟨c, keys, x'⟩
          obtain rfl : x = x' := by
            rw [XDataBase.scanKey_spec hx.healthy] at hk
            exact congrArg (·.2.2) hk
          simp only [hk]
          cases keys with
          | nil => exact h.outside rfl hx trivial trivial (Or.inl rfl) rfl rfl fun _ _ => id
          | cons => exact h.outside rfl hx trivial trivial (Or.inl rfl) rfl rfl fun _ _ => id
      | none =>
          have heff := @doCmd_effect ⟨x, e⟩ ix argv hx now hd
          have hquiet := armedKey_eq_none ha
          simp only
          generalize XRedisServer.doCmd ⟨x, e⟩ now argv = r at heff ⊢
          obtain ⟨replies, sv⟩ := r
          cases heff with
          | quiet hx' => exact h.outside rfl hx' trivial trivial (Or.inl rfl) rfl rfl fun _ _ => id
          | armed _ _ _ harm => cases hquiet.symm.trans harm.1
          | refused _ _ _ harm => cases hquiet.symm.trans harm
          | flushed _ hx' =>
              refine h.outside rfl hx' trivial trivial (Or.inl rfl) rfl rfl ?_
              intro _ _ hnone
              cases hnone

theorem Settling.mono {ix' : Bytes → Option Int} {redis : RedisPc} (h : Settling ix redis)
    (hix : ∀ k, ix' k = none ∨ ix' k = ix k) : Settling ix' redis := by
  unfold Settling at h ⊢
  split
  · rename_i key d pc
    rcases hix key with hk | hk
    · exact Or.inl hk
    · rwa [hk]
  · trivial

/-- An iteration does not begin within a call of `SetTTL`. -/
theorem Served.apart (h : Served ix s.redis s.expiry s.server.expiremgr) (ha : Apart s .expiry) :
    (s.redis.setTTLPc = none ∨ s.redis.setTTLPc = some .readFirst) ∨ s.expiryStep = s := by
  obtain ⟨now, ⟨x, e⟩, redis, expiry, p⟩ := s
  change Served ix redis expiry e at h
  cases h with
  | outside hpc _ => exact Or.inl hpc
  | inside _ _ =>
      cases hsleep : e.sleeps now with
      | true => exact Or.inr (if_pos hsleep)
      | false => exact Or.inl (ha rfl hsleep)

/-- **A step of the expiry thread** keeps the invariant. -/
theorem Awake.expiryStep (h : Awake s) (ha : Apart s .expiry) : Awake s.expiryStep := by
  obtain ⟨ix, hx, hfits, hsettling, hserved⟩ := h
  rcases hserved.apart ha with hpc | hsame
  · obtain ⟨ix', hx', hix, hcourse⟩ := (hserved.onCourse hpc).expiryStep hx
    rw [← s.redis_expiryStep] at hfits hsettling hpc hcourse
    exact ⟨ix', hx', hfits, hsettling.mono hix, .outside hpc hcourse⟩
  · rw [hsame]
    exact ⟨ix, hx, hfits, hsettling, hserved⟩

/-- **Every step** keeps the invariant, if `SetTTL` and the iterations stay apart. -/
theorem Awake.step (h : Awake s) {a : Threads.Action} (hd : a.Deliverable) (ha : Apart s a) :
    Awake (s.step a).2 := by
  cases a with
  | tick now =>
      obtain ⟨ix, h⟩ := h
      exact ⟨ix, h.recorded, h.fits, h.settling, h.served⟩
  | command argv =>
      rw [Threads.step]
      split_ifs with hs
      · exact h.command hs hd
      · exact h
  | redis => exact h.redisStep ha
  | expiry => exact h.expiryStep ha

theorem Awake.started {xdb : XDataBase} (h : WellFormed xdb) (now : Int) :
    Awake (Threads.started xdb now) := by
  obtain ⟨ix, h⟩ := h
  exact ⟨ix, h, trivial, trivial, .outside (Or.inl rfl) (Timely.fresh ix)⟩

/-- **No wake-up is lost**, in every interleaving in which calls of `SetTTL` and iterations of
`ExpireLoop` do not overlap: when neither a command nor an iteration is in progress,
`first_timeout` is no later than any recorded deadline that can be loaded. -/
theorem no_wakeup_lost {xdb : XDataBase} (now : Int) {as : List Threads.Action}
    (hx : WellFormed xdb) (hd : ∀ a ∈ as, a.Deliverable)
    (ha : Along Threads.step Apart (.started xdb now) as) :
    let t := (run Threads.step (.started xdb now) as).2
    t.redis = .idle → t.expiry = .dispatch → ∀ k d, deadline t.server.xdb k = some d → InRange d →
      t.server.expiremgr.firstTimeout ≤ d := by
  intro t hidle hdispatch k d hk hr
  have hstep : ∀ (s : Threads) (a : Threads.Action), a.Deliverable ∧ Apart s a → Awake s →
      Awake (s.step a).2 := fun s a ha hs => hs.step ha.1 ha.2
  obtain ⟨ix, h⟩ : Awake t := along_inv hstep (ha.and_mem hd) (Awake.started hx now)
  have hserved := h.served.onCourse (Or.inl (by rw [hidle]; rfl))
  rw [hidle, hdispatch] at hserved
  exact hserved.first k d (loadable_eq_some.mpr ⟨(h.recorded.deadline_eq k).symm.trans hk, hr⟩)

/-- An iteration finds nothing to load, while the value of `k` is stored and before its deadline
is. -/
theorem no_wakeup_lost_run :
    let as : List Threads.Action :=
      [.expiry, .command [ascii "SET", ascii "k", ascii "v", ascii "EX", ascii "5"], .redis] ++
        List.replicate 4 .expiry ++ List.replicate 8 .redis
    let t := (run Threads.step (.started { db := ⟨.empty, []⟩ } 1000) as).2
    deadline t.server.xdb (ascii "k") = some 6000 ∧ t.server.expiremgr.firstTimeout ≤ 6000 :=
  ⟨by decide, no_wakeup_lost 1000 wellFormed_empty (by decide) (by decide) (by decide) (by decide)
    (ascii "k") 6000 (by decide) (by decide)⟩

/-- The iteration has found nothing to load when `k` gets its deadline, and then has the thread
sleep for good. -/
theorem wakeup_lost :
    let as : List Threads.Action := List.replicate 4 .expiry ++
      .command [ascii "SET", ascii "k", ascii "v", ascii "EX", ascii "5"] ::
        List.replicate 8 .redis ++ [.expiry]
    let t := (run Threads.step (.started { db := ⟨.empty, []⟩ } 1000) as).2
    t.redis = .idle ∧ t.expiry = .dispatch ∧ deadline t.server.xdb (ascii "k") = some 6000 ∧
      InRange 6000 ∧ t.server.expiremgr.firstTimeout = INT64_MAX := by
  decide

end XHttpCache
