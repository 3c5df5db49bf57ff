import XHttpCache.Server.Threads
import XHttpCache.Server.Touched

/-!
# Server — a refreshed key between the two threads

`ExpireLoop` reads the front of the window, and deletes that key some steps later: a key that is
given a new deadline in between is deleted with it (`refresh_lost`).

`Keeps ix s k d` says what the promise of a reply takes: the value and the deadline `d` are
stored, the window does not have `k` with another deadline, and the iteration in progress has not
read another one.  It lasts until the promise ends, if no `SET .. EX` or `EXPIRE` of a key is in
progress while an iteration holds the key (`refreshed_key_survives`).  Everything else may
overlap: the steps of `SetTTL` with those of an iteration, and commands on other keys.
-/

namespace XHttpCache
open Support

/-! ### Keys that are held -/

/-- The key that an iteration has read at the front and has not finished with. -/
def ExpiryPc.held : ExpiryPc → Option Bytes
  | writeFirst key _ | clock key _ | del key | zdel key => some key
  | dispatch | empty | load | emptyAgain | writeMax | front | popFront => none

/-- No `SET .. EX` or `EXPIRE` begins of a key that is held, and no iteration takes hold of the key
of one that is in progress. -/
def Exclusive (s : Threads) : Threads.Action → Prop
  | .command argv => s.redis = .idle → armedKey argv = none ∨ armedKey argv ≠ s.expiry.held
  | .expiry => s.expiry = .front → s.redis.key? = none ∨
      s.redis.key? ≠ s.server.expiremgr.sortSet.front.map fun i => (ofLex i).2
  | _ => True

instance (s : Threads) (a : Threads.Action) : Decidable (Exclusive s a) :=
  match a with
  | .command _ | .expiry => inferInstanceAs (Decidable (_ → _))
  | .tick _ | .redis => inferInstanceAs (Decidable True)

/-! ### What a promise takes -/

/-- `SetTTL` has been told, or is being told, the deadline `d` of `key`, which is not recorded. -/
def RedisPc.Tells (key : Bytes) (d : Int) : RedisPc → Prop
  | setTTL none key' d' _ | zset .setEx key' d' => key' = key ∧ d' = d
  | _ => False

/-- The promise of the deadline `d` for `key` is kept, with the deadlines `ix` in the index. -/
structure Keeps (ix : Bytes → Option Int) (s : Threads) (key : Bytes) (d : Int) : Prop where
  early : s.now < d
  value : (s.server.xdb.valueRow key).isSome = true
  index : ix key = some d
  window : ∀ v, s.server.expiremgr.sortSet.score? key = some v → v = d ∨ s.redis.Tells key v
  held : s.expiry.held = some key → s.expiry = .writeFirst key d ∨ s.expiry = .clock key d

/-- `SetTTL` has put the key where it belongs. -/
def SetTTLPc.Placed (pc : SetTTLPc) : Prop := pc = .size ∨ pc = .popBack

/-- What the command in progress has done so far. -/
def Underway (ix : Bytes → Option Int) (s : Threads) : RedisPc → Prop
  | .setTTL none key _ _ | .zset _ key _ => (s.server.xdb.valueRow key).isSome = true
  | .setTTL (some _) key d pc =>
      (s.server.xdb.valueRow key).isSome = true ∧ ix key = some d ∧ s.promised key = none ∧
        (pc.Placed → ∀ v, s.server.expiremgr.sortSet.score? key = some v → v = d)
  | .delScanned key keys _ => ∀ k ∈ key :: keys, s.promised k = none
  | .idle | .set _ _ _ | .get _ _ => True

/-- The invariant of the two threads, with the deadlines `ix` in the index. -/
structure KeptAt (ix : Bytes → Option Int) (s : Threads) : Prop where
  recorded : Recorded s.server.xdb ix
  fits : s.redis.Fits
  exclusive : ∀ k, s.redis.key? = some k → s.expiry.held ≠ some k
  underway : Underway ix s s.redis
  kept : ∀ k d, s.promised k = some d → Keeps ix s k d

/-- The invariant of the two threads. -/
def Kept (s : Threads) : Prop := ∃ ix, KeptAt ix s

/-! ### The expiry thread -/

variable {s : Threads} {ix : Bytes → Option Int}

/-- A step of the expiry thread touches only the value and the deadline of the key it deletes, and
brings only what is recorded into the window. -/
structure Expires (ix ix' : Bytes → Option Int) (s s' : Threads) : Prop where
  recorded : Recorded s'.server.xdb ix'
  other : ∀ k, s.expiry ≠ .del k → s.expiry ≠ .zdel k →
    ix' k = ix k ∧ s'.server.xdb.valueRow k = s.server.xdb.valueRow k
  window : ∀ k v, s'.server.expiremgr.sortSet.score? k = some v →
    s.server.expiremgr.sortSet.score? k = some v ∨ ix k = some v

theorem Expires.quiet {s' : Threads} (hx : Recorded s.server.xdb ix)
    (hxdb : s'.server.xdb = s.server.xdb)
    (hset : s'.server.expiremgr.sortSet = s.server.expiremgr.sortSet) : Expires ix ix s s' := by
  refine ⟨?_, fun k _ _ => ⟨rfl, ?_⟩, fun k v hv => Or.inl ?_⟩
  · rwa [hxdb]
  · rw [hxdb]
  · rwa [hset] at hv

theorem expires_expiryStep (hx : Recorded s.server.xdb ix) :
    ∃ ix', Expires ix ix' s s.expiryStep := by
  obtain ⟨now, ⟨x, e⟩, redis, expiry, p⟩ := s
  cases expiry with
  | dispatch =>
      simp only [Threads.expiryStep]
      split_ifs <;> exact ⟨ix, .quiet hx rfl rfl⟩
  | empty => exact ⟨ix, .quiet hx rfl rfl⟩
  | load =>
      obtain ⟨w, hload, hw⟩ := hx.score?_load e.sortSet
      refine ⟨ix, ?_, fun k _ _ => ⟨rfl, ?_⟩, ?_⟩ <;>
        simp only [Threads.expiryStep, ExpireManager.loadExpirationKeys, hload]
      · exact hx
      · exact hw
  | emptyAgain => exact ⟨ix, .quiet hx rfl rfl⟩
  | writeMax => exact ⟨ix, .quiet hx rfl rfl⟩
  | front =>
      simp only [Threads.expiryStep]
      split <;> exact ⟨ix, .quiet hx rfl rfl⟩
  | writeFirst key score => exact ⟨ix, .quiet hx rfl rfl⟩
  | clock key score => exact ⟨ix, .quiet hx rfl rfl⟩
  | del key =>
      refine ⟨ix, hx.del key, fun k hk _ => ⟨rfl, ?_⟩, fun _ _ => Or.inl⟩
      have hne : k ≠ key := fun he => hk (he ▸ rfl)
      exact (XDataBase.valueRow_del hx.healthy key k).trans (if_neg hne)
  | zdel key =>
      refine ⟨_, hx.zdel key, fun k _ hk => ?_, fun _ _ => Or.inl⟩
      have hne : k ≠ key := fun he => hk (he ▸ rfl)
      exact ⟨Function.update_of_ne hne _ _, XDataBase.valueRow_zdel hx.healthy _ _ _⟩
  | popFront =>
      exact ⟨ix, hx, fun _ _ _ => ⟨rfl, rfl⟩, fun _ _ hv => Or.inl (SortedSet.score?_of_popFront hv)⟩

/-- How an iteration comes to hold a key. -/
theorem held_expiryStep {k : Bytes} (h : s.expiryStep.expiry.held = some k) :
    (s.expiry = .front ∧ ∃ v, s.server.expiremgr.sortSet.front = some (item v k) ∧
      s.expiryStep.expiry = .writeFirst k v) ∨
    (∃ v, s.expiry = .writeFirst k v ∧ s.expiryStep.expiry = .clock k v) ∨
    (∃ v, s.expiry = .clock k v ∧ v ≤ s.now) ∨ s.expiry = .del k := by
  obtain ⟨now, ⟨x, e⟩, redis, expiry, p⟩ := s
  cases expiry with
  | dispatch =>
      simp only [Threads.expiryStep] at h
      split_ifs at h <;> cases h
  | empty =>
      simp only [Threads.expiryStep] at h
      split_ifs at h <;> cases h
  | load => cases h
  | emptyAgain =>
      simp only [Threads.expiryStep] at h
      split_ifs at h <;> cases h
  | writeMax => cases h
  | front =>
      left
      cases hf : e.sortSet.front with
      | none => simp [Threads.expiryStep, hf, ExpiryPc.held] at h
      | some i =>
          simp only [Threads.expiryStep, hf, ExpiryPc.held] at h
          cases h
          refine ⟨rfl, (ofLex i).1, rfl, ?_⟩
          simp only [Threads.expiryStep, hf]
  | writeFirst key score =>
      cases h
      exact Or.inr (Or.inl ⟨score, rfl, rfl⟩)
  | clock key score =>
      simp only [Threads.expiryStep] at h
      split_ifs at h with hdue
      · cases h
        exact Or.inr (Or.inr (Or.inl ⟨score, rfl, hdue⟩))
      · cases h
  | del key =>
      cases h
      exact Or.inr (Or.inr (Or.inr rfl))
  | zdel key => cases h
  | popFront => cases h

/-- A command in progress that has no key to arm is apart from whatever is held. -/
theorem apart_of_keyless {redis : RedisPc} {held : Option Bytes} (h : redis.key? = none) :
    ∀ k, redis.key? = some k → held ≠ some k := by
  intro k hk
  cases h.symm.trans hk

theorem RedisPc.Tells.key? {redis : RedisPc} {k : Bytes} {v : Int} (h : redis.Tells k v) :
    redis.key? = some k := by
  unfold RedisPc.Tells at h
  split at h
  · exact congrArg some h.1
  · exact congrArg some h.1
  · cases h

/-- What an iteration takes hold of is not the key of a command in progress. -/
theorem Exclusive.front {k : Bytes} {v : Int} (h : Exclusive s .expiry) (hs : s.expiry = .front)
    (hf : s.server.expiremgr.sortSet.front = some (item v k)) : s.redis.key? ≠ some k := by
  intro hk
  rcases h hs with hn | hn
  · rw [hk] at hn
    cases hn
  · rw [hk, hf] at hn
    exact hn rfl

/-- A step of the expiry thread keeps a promise. -/
theorem Keeps.expiryStep {k : Bytes} {d : Int} {ix' : Bytes → Option Int} (h : Keeps ix s k d)
    (hstep : Expires ix ix' s s.expiryStep) (he : Exclusive s .expiry) :
    Keeps ix' s.expiryStep k d := by
  obtain ⟨hearly, hvalue, hindex, hwindow, hheld⟩ := h
  -- the iteration is not about to delete the key: it would have to hold it past the clock
  have hdel : s.expiry ≠ .del k ∧ s.expiry ≠ .zdel k := by
    constructor <;> intro hs <;> rw [hs] at hheld <;> rcases hheld rfl with hs | hs <;> cases hs
  obtain ⟨hix, hrow⟩ := hstep.other k hdel.1 hdel.2
  obtain ⟨hnow, hredis, -⟩ := s.expiryStep_frame
  refine ⟨by rwa [hnow], by rwa [hrow], by rwa [hix], fun v hv => ?_, fun hk => ?_⟩
  · rw [hredis]
    rcases hstep.window k v hv with hv | hv
    · exact hwindow v hv
    · rw [hindex] at hv
      exact Or.inl (Option.some.inj hv).symm
  · rcases held_expiryStep hk with ⟨hs, v, hf, hs'⟩ | ⟨v, hs, hs'⟩ | ⟨v, hs, hdue⟩ | hs
    · rcases hwindow v (SortedSet.score?_of_front hf) with rfl | htells
      · exact Or.inl hs'
      · exact absurd htells.key? (he.front hs hf)
    · rw [hs] at hheld
      rcases hheld rfl with heq | heq
      · cases heq
        exact Or.inr hs'
      · cases heq
    · rw [hs] at hheld
      rcases hheld rfl with heq | heq
      · cases heq
      · cases heq
        exact absurd hdue (not_le.mpr hearly)
    · exact absurd hs hdel.1

/-- It leaves what the command in progress has done. -/
theorem Underway.expiryStep {ix' : Bytes → Option Int} (h : Underway ix s s.redis)
    (hexcl : ∀ k, s.redis.key? = some k → s.expiry.held ≠ some k)
    (hstep : Expires ix ix' s s.expiryStep) : Underway ix' s.expiryStep s.redis := by
  have hother : ∀ k, s.redis.key? = some k → ix' k = ix k ∧
      s.expiryStep.server.xdb.valueRow k = s.server.xdb.valueRow k := fun k hk =>
    hstep.other k (fun hs => hexcl k hk (by rw [hs]; rfl)) fun hs => hexcl k hk (by rw [hs]; rfl)
  have hprom := s.expiryStep_frame.2.2
  cases hs : s.redis with
  | idle => trivial
  | set key val d => trivial
  | get key d => trivial
  | zset cmd key d =>
      rw [hs] at h hother
      exact (congrArg Option.isSome (hother key rfl).2).trans h
  | setTTL cmd key d pc =>
      rw [hs] at h hother
      obtain ⟨hix, hrow⟩ := hother key rfl
      cases cmd with
      | none => exact (congrArg Option.isSome hrow).trans h
      | some cmd =>
          obtain ⟨hvalue, hindex, hnone, hplaced⟩ := h
          refine ⟨hrow ▸ hvalue, hix ▸ hindex, hprom ▸ hnone, fun hpc v hv => ?_⟩
          rcases hstep.window key v hv with hv | hv
          · exact hplaced hpc v hv
          · rw [hindex] at hv
            exact (Option.some.inj hv).symm
  | delScanned key keys count =>
      rw [hs] at h
      exact fun k hk => (congrFun hprom k).trans (h k hk)

/-- **A step of the expiry thread** keeps the promises. -/
theorem Kept.expiryStep (h : Kept s) (he : Exclusive s .expiry) : Kept s.expiryStep := by
  obtain ⟨ix, hx, hfits, hexcl, hunder, hkept⟩ := h
  obtain ⟨ix', hstep⟩ := expires_expiryStep hx
  obtain ⟨-, hredis, hprom⟩ := s.expiryStep_frame
  refine ⟨ix', hstep.recorded, ?_, fun k hk hheld => ?_, ?_, fun k d hk => ?_⟩
  · rwa [hredis]
  · rw [hredis] at hk
    -- a key is taken hold of at the front only
    rcases held_expiryStep hheld with ⟨hs, v, hf, -⟩ | ⟨v, hs, -⟩ | ⟨v, hs, -⟩ | hs
    · exact he.front hs hf hk
    all_goals exact hexcl k hk (by rw [hs]; rfl)
  · rw [hredis]
    exact hunder.expiryStep hexcl hstep
  · rw [hprom] at hk
    exact (hkept k d hk).expiryStep hstep he

/-! ### The Redis thread -/

variable {key : Bytes} {d : Int} {pc : SetTTLPc} {e : ExpireManager}

/-- A step of `SetTTL` brings only its key into the window. -/
theorem SetTTLPc.score?_step {k : Bytes} {v : Int}
    (h : (pc.step key d e).2.sortSet.score? k = some v) :
    e.sortSet.score? k = some v ∨ k = key ∧ v = d := by
  cases pc with
  | add =>
      rw [show (SetTTLPc.add.step key d e).2.sortSet = (e.sortSet.add key d).2 from rfl,
        SortedSet.score?_add] at h
      split_ifs at h with hk
      · exact Or.inr ⟨hk, (Option.some.inj h).symm⟩
      · exact Or.inl h
  | popBack => exact Or.inl (SortedSet.score?_of_popBack h)
  | del =>
      rw [show (SetTTLPc.del.step key d e).2.sortSet = (e.sortSet.del key).2 from rfl,
        SortedSet.score?_del] at h
      split_ifs at h
      exact Or.inl h
  | _ => exact Or.inl h

/-- From `add` on, and when `SetTTL` returns, its key is in the window with its deadline, or not
at all. -/
theorem SetTTLPc.placed_step
    (hplaced : pc.Placed → ∀ v, e.sortSet.score? key = some v → v = d)
    (hnext : ∀ pc' ∈ (pc.step key d e).1, pc'.Placed) (v : Int)
    (hv : (pc.step key d e).2.sortSet.score? key = some v) : v = d := by
  cases pc with
  | readFirst =>
      have h := hnext _ rfl
      split_ifs at h <;> rcases h with h | h <;> cases h
  | writeFirst => rcases hnext _ rfl with h | h <;> cases h
  | empty =>
      have h := hnext _ rfl
      split_ifs at h <;> rcases h with h | h <;> cases h
  | maxScore =>
      have h := hnext _ rfl
      split_ifs at h with hle
      · rcases h with h | h <;> cases h
      · rcases h with h | h <;> cases h
  | add =>
      rw [show (SetTTLPc.add.step key d e).2.sortSet = (e.sortSet.add key d).2 from rfl,
        SortedSet.score?_add, if_pos rfl] at hv
      exact (Option.some.inj hv).symm
  | size => exact hplaced (Or.inl rfl) v hv
  | popBack => exact hplaced (Or.inr rfl) v (SortedSet.score?_of_popBack hv)
  | del =>
      rw [show (SetTTLPc.del.step key d e).2.sortSet = (e.sortSet.del key).2 from rfl,
        SortedSet.score?_del, if_pos rfl] at hv
      cases hv

/-- A step of the Redis thread keeps the promise for a key whose value, deadline and place in the
window it leaves. -/
theorem Keeps.redis {s' : Threads} {ix' : Bytes → Option Int} {k : Bytes} {d' : Int}
    (h : Keeps ix s k d') (hnow : s'.now = s.now) (hexpiry : s'.expiry = s.expiry)
    (hvalue : (s'.server.xdb.valueRow k).isSome = true) (hindex : ix' k = ix k)
    (hwindow : ∀ v, s'.server.expiremgr.sortSet.score? k = some v →
      v = d' ∨ s'.redis.Tells k v) : Keeps ix' s' k d' :=
  ⟨hnow ▸ h.early, hvalue, hindex.trans h.index, hwindow, hexpiry ▸ h.held⟩

theorem Kept.set (h : KeptAt ix s) {val : Bytes} (hs : s.redis = .set key val d) :
    Kept s.redisStep.2 := by
  obtain ⟨now, ⟨x, e⟩, redis, expiry, p⟩ := s
  obtain rfl : redis = _ := hs
  have hx := h.recorded
  have hrow : ∀ k, (x.valueRow k).isSome = true ∨ k = key →
      ((x.set now key val).2.valueRow k).isSome = true := by
    intro k hk
    rw [XDataBase.valueRow_set hx.healthy]
    split_ifs with hkey
    · rfl
    · exact hk.resolve_right hkey
  refine ⟨ix, hx.set now key val, h.fits, h.exclusive, hrow key (Or.inr rfl), fun k d' hk => ?_⟩
  have hkeep := h.kept k d' hk
  exact hkeep.redis rfl rfl (hrow k (Or.inl hkeep.value)) rfl
    fun v hv => (hkeep.window v hv).imp_right False.elim

theorem Kept.get (h : KeptAt ix s) (hs : s.redis = .get key d) : Kept s.redisStep.2 := by
  obtain ⟨now, ⟨x, e⟩, redis, expiry, p⟩ := s
  obtain rfl : redis = _ := hs
  have hx := h.recorded
  have hget := hx.get key
  have hrow := XDataBase.valueRow_get hx.healthy key
  have hok := (XDataBase.get_spec hx.healthy key).1
  simp only [Threads.redisStep]
  rcases hg : x.get key with ⟨c, val, x'⟩
  simp only [hg] at hget hrow hok
  have hkept : ∀ {redis : RedisPc} k d', p k = some d' →
      Keeps ix ⟨now, ⟨x', e⟩, redis, expiry, p⟩ k d' := by
    intro redis k d' hk
    have hkeep := h.kept k d' hk
    exact hkeep.redis rfl rfl (hrow k ▸ hkeep.value) rfl
      fun v hv => (hkeep.window v hv).imp_right False.elim
  cases c with
  | ok =>
      have hvalue : (x.valueRow key).isSome = true := by
        split_ifs at hok with hsome
        exact hsome
      exact ⟨ix, hget, h.fits, h.exclusive, (congrArg Option.isSome (hrow key)).trans hvalue, hkept⟩
  | err => exact ⟨ix, hget, trivial, apart_of_keyless rfl, trivial, hkept⟩
  | null => exact ⟨ix, hget, trivial, apart_of_keyless rfl, trivial, hkept⟩

theorem Kept.zset (h : KeptAt ix s) {cmd : Arming} (hs : s.redis = .zset cmd key d) :
    Kept s.redisStep.2 := by
  obtain ⟨now, ⟨x, e⟩, redis, expiry, p⟩ := s
  obtain rfl : redis = _ := hs
  have hx := h.recorded
  have hrow := XDataBase.valueRow_zset hx.healthy expireKey key (ttlData d)
  simp only [Threads.redisStep]
  rcases hx.zset_fits h.fits with ⟨hix, hz⟩ | ⟨-, x', hz, hrec⟩
  · rw [show x.zset expireKey key (ttlData d) = _ from hz]
    refine ⟨ix, hx, trivial, apart_of_keyless rfl, trivial, fun k d' hk => ?_⟩
    have hkeep := h.kept k d' hk
    refine hkeep.redis rfl rfl hkeep.value rfl fun v hv => Or.inl ?_
    rcases hkeep.window v hv with hv | htells
    · exact hv
    · -- the deadline that `SetTTL` has been told is the promised one
      cases cmd with
      | setEx =>
          obtain ⟨rfl, rfl⟩ := htells
          exact Option.some.inj (hix.symm.trans hkeep.index)
      | expire => cases htells
  · rw [show x.zset expireKey key (ttlData d) = _ from hz] at hrow ⊢
    refine ⟨_, hrec, h.fits, h.exclusive, ⟨?_, Function.update_self _ _ _, Function.update_self _ _ _,
      fun hpc => ?_⟩, fun k d' hk => ?_⟩
    · exact (congrArg Option.isSome (hrow key)).trans h.underway
    · rcases hpc with hpc | hpc <;> cases hpc
    · obtain ⟨hne, hk⟩ := update_none_eq_some.mp hk
      have hkeep := h.kept k d' hk
      refine hkeep.redis rfl rfl ((congrArg Option.isSome (hrow k)).trans hkeep.value)
        (Function.update_of_ne hne _ _) fun v hv => Or.inl ?_
      rcases hkeep.window v hv with hv | htells
      · exact hv
      · exact absurd (Option.some.inj htells.key?).symm hne

theorem Kept.setTTL (h : KeptAt ix s) {cmd : Option Arming} (hs : s.redis = .setTTL cmd key d pc) :
    Kept s.redisStep.2 := by
  obtain ⟨now, ⟨x, e⟩, redis, expiry, p⟩ := s
  obtain rfl : redis = _ := hs
  have hx := h.recorded
  have hunder := h.underway
  have hscore := fun k v => @SetTTLPc.score?_step key d pc e k v
  have hplaced := @SetTTLPc.placed_step key d pc e
  simp only [Threads.redisStep]
  rcases hpc : pc.step key d e with ⟨o, e'⟩
  simp only [hpc] at hscore hplaced
  cases cmd with
  | none =>
      -- the window may have the key with a deadline that is not recorded yet
      have hkept : ∀ {redis : RedisPc}, redis.Tells key d → ∀ k d', p k = some d' →
          Keeps ix ⟨now, ⟨x, e'⟩, redis, expiry, p⟩ k d' := by
        intro redis htells k d' hk
        have hkeep := h.kept k d' hk
        refine hkeep.redis rfl rfl hkeep.value rfl fun v hv => ?_
        rcases hscore k v hv with hv | ⟨rfl, rfl⟩
        · rcases hkeep.window v hv with hv | ⟨rfl, rfl⟩
          · exact Or.inl hv
          · exact Or.inr htells
        · exact Or.inr htells
      cases o with
      | none => exact ⟨ix, hx, h.fits, h.exclusive, hunder, hkept ⟨rfl, rfl⟩⟩
      | some pc' => exact ⟨ix, hx, h.fits, h.exclusive, hunder, hkept ⟨rfl, rfl⟩⟩
  | some cmd =>
      obtain ⟨hvalue, hindex, hnone, hwindow⟩ := hunder
      have hkept : ∀ {redis : RedisPc} {p' : Bytes → Option Int} k d', p k = some d' →
          Keeps ix ⟨now, ⟨x, e'⟩, redis, expiry, p'⟩ k d' := by
        intro redis p' k d' hk
        have hkeep := h.kept k d' hk
        have hne : k ≠ key := by
          rintro rfl
          cases hnone.symm.trans hk
        refine hkeep.redis rfl rfl hkeep.value rfl fun v hv => Or.inl ?_
        rcases hscore k v hv with hv | ⟨hk, -⟩
        · exact (hkeep.window v hv).resolve_right False.elim
        · exact absurd hk hne
      cases o with
      | none =>
          refine ⟨ix, hx, trivial, apart_of_keyless rfl, trivial, fun k d' hk => ?_⟩
          simp only [Threads.returned, Threads.promise] at hk
          split_ifs at hk with hnow
          · by_cases hkey : k = key
            · subst hkey
              rw [Function.update_self] at hk
              cases hk
              have hreturned : ∀ pc' : SetTTLPc, (none : Option SetTTLPc) = some pc' → pc'.Placed := by
                intro _ hnone
                cases hnone
              exact ⟨hnow, hvalue, hindex, fun v hv => Or.inl (hplaced hwindow hreturned v hv),
                fun hheld => absurd hheld (h.exclusive k rfl)⟩
            · rw [Function.update_of_ne hkey] at hk
              exact hkept k d' hk
          · exact hkept k d' hk
      | some pc' =>
          refine ⟨ix, hx, h.fits, h.exclusive, ⟨hvalue, hindex, hnone, fun hpc' => ?_⟩, hkept⟩
          exact hplaced hwindow fun pc'' h => Option.some.inj h ▸ hpc'

theorem Kept.delScanned (h : KeptAt ix s) {keys : List Bytes} {count : Nat}
    (hs : s.redis = .delScanned key keys count) : Kept s.redisStep.2 := by
  obtain ⟨now, ⟨x, e⟩, redis, expiry, p⟩ := s
  obtain rfl : redis = _ := hs
  have hx := h.recorded
  have hunder := h.underway
  have hkept : ∀ {redis : RedisPc} k d', p k = some d' →
      Keeps ix ⟨now, ⟨(x.del key).2, e⟩, redis, expiry, p⟩ k d' := by
    intro redis k d' hk
    have hkeep := h.kept k d' hk
    have hne : k ≠ key := by
      rintro rfl
      cases (hunder k List.mem_cons_self).symm.trans hk
    refine hkeep.redis rfl rfl ?_ rfl fun v hv => (hkeep.window v hv).imp_right False.elim
    have hrow := XDataBase.valueRow_del hx.healthy key k
    rw [if_neg hne] at hrow
    exact (congrArg Option.isSome hrow).trans hkeep.value
  simp only [Threads.redisStep]
  cases keys with
  | nil => exact ⟨ix, hx.del key, trivial, apart_of_keyless rfl, trivial, hkept⟩
  | cons key' keys =>
      exact ⟨ix, hx.del key, trivial, apart_of_keyless rfl,
        fun k hk => hunder k (List.mem_cons_of_mem _ hk), hkept⟩

/-- **A step of the Redis thread** keeps the promises, and makes those it replies. -/
theorem Kept.redisStep (h : Kept s) : Kept s.redisStep.2 := by
  obtain ⟨ix, h⟩ := h
  cases hs : s.redis with
  | idle =>
      rw [Threads.redisStep, hs]
      exact ⟨ix, h⟩
  | set key val d => exact Kept.set h hs
  | get key d => exact Kept.get h hs
  | zset cmd key d => exact Kept.zset h hs
  | setTTL cmd key d pc => exact Kept.setTTL h hs
  | delScanned key keys count => exact Kept.delScanned h hs

/-! ### Commands -/

/-- A command that writes a value and no deadline leaves the key with a value. -/
theorem valueRow_written {sv : XRedisServer} (h : sv.xdb.Healthy) (now : Int) {argv : List Bytes}
    (harm : armedKey argv = none) {k : Bytes} (hk : writtenKey argv = some k) :
    ((sv.doCmd now argv).2.xdb.valueRow k).isSome = true := by
  unfold writtenKey at hk
  split at hk
  · rename_i cmd key val
    split_ifs at hk with hcmd
    obtain rfl := Option.some.inj hk
    have hrow := XDataBase.valueRow_set h now key val key
    rw [XRedisServer.doCmd, hcmd]
    simp only [XRedisServer.call, XRedisServer.processCmdSet, hrow, if_true, Option.isSome_some]
  · -- a `SET .. EX` arms its key
    split_ifs at hk with hset
    cases harm.symm.trans (if_pos hset)
  · cases hk

/-- A command in one step that deletes nothing leaves every value, or stores another. -/
theorem valueRow_doCmd {sv : XRedisServer} (h : sv.xdb.Healthy) (now : Int) {argv : List Bytes}
    (harm : armedKey argv = none)
    (hflush : argv.head?.bind XRedisServer.getCmdProcessFun ≠ some .flushall) {k : Bytes}
    (hdel : k ∉ redisDeletes sv.xdb argv) (hk : (sv.xdb.valueRow k).isSome = true) :
    ((sv.doCmd now argv).2.xdb.valueRow k).isSome = true := by
  by_cases hw : writtenKey argv = some k
  · exact valueRow_written h now harm hw
  · have hleaves := leaves_doCmd h now (not_or.mpr ⟨hw, not_or.mpr ⟨hdel, hflush⟩⟩)
    rw [hleaves.valueRow]
    exact hk

theorem Threads.spared_eq_some {argv : List Bytes} {k : Bytes} {d' : Int}
    (h : s.spared argv k = some d') :
    argv.head?.bind XRedisServer.getCmdProcessFun ≠ some .flushall ∧
      k ∉ redisDeletes s.server.xdb argv ∧ s.promised k = some d' := by
  unfold Threads.spared at h
  split_ifs at h with hc
  obtain ⟨hflush, hdel⟩ := not_or.mp hc
  exact ⟨hflush, hdel, h⟩

/-- **A command** that comes in keeps the promises that it does not end. -/
theorem Kept.command (h : Kept s) (hs : s.redis = .idle) {argv : List Bytes}
    (hd : Deliverable argv) (he : armedKey argv = none ∨ armedKey argv ≠ s.expiry.held) :
    Kept (s.command argv).2 := by
  obtain ⟨ix, h⟩ := h
  have hx := h.recorded
  have hspared := fun k d' => @Threads.spared_eq_some s argv k d'
  obtain ⟨now, ⟨x, e⟩, redis, expiry, p⟩ := s
  obtain rfl : redis = .idle := hs
  -- nothing that a command begins with changes what is stored
  have hkept : ∀ {redis : RedisPc} {p' : Bytes → Option Int} k d', p k = some d' →
      Keeps ix ⟨now, ⟨x, e⟩, redis, expiry, p'⟩ k d' := by
    intro redis p' k d' hk
    have hkeep := h.kept k d' hk
    exact hkeep.redis rfl rfl hkeep.value rfl fun v hv => (hkeep.window v hv).imp_right False.elim
  rw [Threads.command]
  cases ha : armingPc now argv with
  | some pc =>
      have hkey := armedKey_of_armingPc ha
      have hexcl : ∀ k, pc.key? = some k → expiry.held ≠ some k := by
        intro k hk hheld
        rw [hkey, hk] at he
        exact he.elim (Option.some_ne_none k) fun hne => hne hheld.symm
      have hunder : Underway ix ⟨now, ⟨x, e⟩, pc, expiry, p⟩ pc := by
        rcases armingPc_eq_some ha with ⟨_, _, _, _, _, -, -, -, rfl⟩ | ⟨_, _, _, -, -, rfl⟩
        · trivial
        · trivial
      exact ⟨ix, hx, fits_of_armingPc ha hd, hexcl, hunder, hkept⟩
  | none =>
      cases hscan : scanDelArgs argv with
      | some args =>
          obtain ⟨start, stop, limit⟩ := args
          obtain ⟨cmd, args, rfl, hcmd, hargs⟩ := scanDelArgs_eq_some hscan
          have hdel : redisDeletes x (cmd :: args) = (x.scanKey start stop limit).2.1 := by
            simp only [redisDeletes, List.head?_cons, Option.bind_some, hcmd, hargs]
          rcases hk : x.scanKey start stop limit with ⟨c, keys, x'⟩
          obtain rfl : x = x' := by
            rw [XDataBase.scanKey_spec hx.healthy] at hk
            exact congrArg (·.2.2) hk
          simp only [hk]
          cases keys with
          | nil => exact ⟨ix, hx, trivial, apart_of_keyless rfl, trivial, hkept⟩
          | cons key keys =>
              refine ⟨ix, hx, trivial, apart_of_keyless rfl, fun k hk' => if_pos (Or.inr ?_),
                fun k d' hk' => hkept k d' (hspared k d' hk').2.2⟩
              rw [hdel, hk]
              exact hk'
      | none =>
          have harm := armedKey_eq_none ha
          have heff := @doCmd_effect ⟨x, e⟩ ix argv hx now hd
          have hrow := @valueRow_doCmd ⟨x, e⟩ hx.healthy now argv harm
          simp only
          generalize XRedisServer.doCmd ⟨x, e⟩ now argv = r at heff hrow ⊢
          obtain ⟨replies, sv⟩ := r
          cases heff with
          | quiet hx' =>
              refine ⟨ix, hx', trivial, apart_of_keyless rfl, trivial, fun k d' hk => ?_⟩
              obtain ⟨hflush, hdel, hk⟩ := hspared k d' hk
              have hkeep := h.kept k d' hk
              exact hkeep.redis rfl rfl (hrow hflush hdel hkeep.value) rfl
                fun v hv => (hkeep.window v hv).imp_right False.elim
          | armed _ _ _ ha' => cases harm.symm.trans ha'.1
          | refused _ _ _ ha' => cases harm.symm.trans ha'
          | flushed hflush hx' =>
              exact ⟨_, hx', trivial, apart_of_keyless rfl, trivial, fun k d' hk =>
                absurd hflush (hspared k d' hk).1⟩

theorem Underway.tick (h : Underway ix s s.redis) (now : Int) :
    Underway ix (s.tick now) s.redis := by
  have hnone : ∀ k, s.promised k = none → (s.tick now).promised k = none := by
    intro k hk
    rw [show (s.tick now).promised k = (s.promised k).filter _ from rfl, hk]
    rfl
  cases hs : s.redis with
  | idle => trivial
  | set key val d => trivial
  | get key d => trivial
  | zset cmd key d => rwa [hs] at h
  | setTTL cmd key d pc =>
      rw [hs] at h
      cases cmd with
      | none => exact h
      | some cmd => exact ⟨h.1, h.2.1, hnone key h.2.2.1, h.2.2.2⟩
  | delScanned key keys count =>
      rw [hs] at h
      exact fun k hk => hnone k (h k hk)

/-- **Every step** keeps the promises, if commands and iterations exclude each other key by
key. -/
theorem Kept.step (h : Kept s) {a : Threads.Action} (hd : a.Deliverable) (he : Exclusive s a) :
    Kept (s.step a).2 := by
  cases a with
  | tick now =>
      obtain ⟨ix, h⟩ := h
      refine ⟨ix, h.recorded, h.fits, h.exclusive, h.underway.tick now, fun k d' hk => ?_⟩
      obtain ⟨hk, hnow⟩ := Option.filter_eq_some_iff.mp hk
      have hkeep := h.kept k d' hk
      exact ⟨of_decide_eq_true hnow, hkeep.value, hkeep.index, hkeep.window, hkeep.held⟩
  | command argv =>
      rw [Threads.step]
      split_ifs with hs
      · exact h.command hs hd (he hs)
      · exact h
  | redis => exact h.redisStep
  | expiry => exact h.expiryStep he

theorem Kept.started {xdb : XDataBase} (h : WellFormed xdb) (now : Int) :
    Kept (Threads.started xdb now) := by
  obtain ⟨ix, h⟩ := h
  exact ⟨ix, h, trivial, apart_of_keyless rfl, trivial, fun _ _ hnone => by cases hnone⟩

/-- **A refreshed key survives**, in every interleaving in which no `SET .. EX` or `EXPIRE` of a
key is in progress while an iteration holds the key: what a reply has promised, the value and its
deadline, is stored until a later command deletes or reschedules the key or the clock gets to the
deadline. -/
theorem refreshed_key_survives {xdb : XDataBase} (now : Int) {as : List Threads.Action}
    (hx : WellFormed xdb) (hd : ∀ a ∈ as, a.Deliverable)
    (he : Along Threads.step Exclusive (.started xdb now) as) :
    let t := (run Threads.step (.started xdb now) as).2
    ∀ k d, t.promised k = some d →
      (t.server.xdb.valueRow k).isSome = true ∧ deadline t.server.xdb k = some d := by
  intro t k d hk
  have hstep : ∀ (s : Threads) (a : Threads.Action), a.Deliverable ∧ Exclusive s a → Kept s →
      Kept (s.step a).2 := fun s a ha hs => hs.step ha.1 ha.2
  obtain ⟨ix, h⟩ : Kept t := along_inv hstep (he.and_mem hd) (Kept.started hx now)
  have hkeep := h.kept k d hk
  exact ⟨hkeep.value, (h.recorded.deadline_eq k).trans hkeep.index⟩

/-- `k` gets its deadline while an iteration loads it, and a longer one while the next iteration
has found nothing due. -/
theorem refreshed_key_survives_run :
    let as : List Threads.Action :=
      .command [ascii "SET", ascii "k", ascii "v", ascii "EX", ascii "5"] ::
        List.replicate 5 .redis ++ List.replicate 3 .expiry ++ List.replicate 5 .redis ++
        List.replicate 4 .expiry ++
        .command [ascii "EXPIRE", ascii "k", ascii "100"] :: List.replicate 6 .redis
    let t := (run Threads.step (.started { db := ⟨.empty, []⟩ } 1000) as).2
    t.promised (ascii "k") = some 101000 ∧ (t.server.xdb.valueRow (ascii "k")).isSome = true ∧
      deadline t.server.xdb (ascii "k") = some 101000 :=
  ⟨by decide, refreshed_key_survives 1000 wellFormed_empty (by decide) (by decide) (ascii "k") 101000
    (by decide)⟩

/-- The iteration finds `k` due, `EXPIRE` gives it a hundred seconds more and replies 1, and the
iteration deletes it. -/
theorem refresh_lost :
    let as : List Threads.Action :=
      .command [ascii "SET", ascii "k", ascii "v", ascii "EX", ascii "1"] ::
        List.replicate 8 .redis ++ [.tick 2000] ++ List.replicate 7 .expiry ++
        .command [ascii "EXPIRE", ascii "k", ascii "100"] :: List.replicate 8 .redis ++
        List.replicate 3 .expiry
    let r := run Threads.step (.started { db := ⟨.empty, []⟩ } 1000) as
    r.1.flatten = [.status (ascii "OK"), .int 1] ∧ r.2.promised (ascii "k") = some 102000 ∧
      r.2.now < 102000 ∧ r.2.server.xdb.valueRow (ascii "k") = none ∧
      deadline r.2.server.xdb (ascii "k") = none := by
  decide

end XHttpCache
