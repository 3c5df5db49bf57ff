import XHttpCache.Http.Frontend
import XHttpCache.Support.Runs

/-!
# Http — the ETag cache and the database

With `bEtag` on, the ETag manager hears of every `Set` and every `Get`, and the frontend sends
`304` for what it remembers without a look at the database.  Nothing is ever forgotten because the
key was set again, deleted or flushed, and the manager hears of a key only up to its first NUL.

The keys and times of a run are those of a `Scope`, on which the hash has no collisions.

* `Coherent`: what the manager remembers of a key is the time of its row.
* `coherent_step`, `coherent_run`: calls keep that which leave no entry behind (`KeepsEtags`).
* `fast_path_sound`: over a run of such calls, `CheckEtag` says what `Get` says, and the early `304`
  is sent only where the late one would be.
-/

namespace XHttpCache
open Support

/-! ### The time of a value -/

namespace XDataBase

/-- The time that the value of a key was set at. -/
def timeOf (x : XDataBase) (key : Bytes) : Option Nat := (x.valueOf key).map (·.timestamp)

variable {x : XDataBase}

theorem timeOf_set (h : x.Healthy) (now : Int) (key val k : Bytes) :
    (x.set now key val).2.timeOf k =
      if k = key then some (getCurrentTime now) else x.timeOf k := by
  rw [timeOf, valueOf_set h]
  split_ifs <;> rfl

theorem timeOf_get (h : x.Healthy) (key k : Bytes) : (x.get key).2.2.timeOf k = x.timeOf k := by
  rw [timeOf, valueOf_get h, timeOf]

theorem timeOf_del (h : x.Healthy) (key k : Bytes) :
    (x.del key).2.timeOf k = if k = key then none else x.timeOf k := by
  rw [timeOf, valueOf_del h]
  split_ifs <;> rfl

theorem timeOf_flushall (h : x.Healthy) (k : Bytes) : x.flushall.2.timeOf k = none := by
  rw [timeOf, valueOf_flushall h, Option.map_none]

/-- `Get` reports the time of the value. -/
theorem get_of_timeOf (h : x.Healthy) {key : Bytes} {t : Nat} (ht : x.timeOf key = some t) :
    (x.get key).1 = .ok ∧ (x.get key).2.1.timestamp = t := by
  obtain ⟨v, hv, rfl⟩ := Option.map_eq_some_iff.mp ht
  obtain ⟨hok, hval⟩ := get_of_valueOf h hv
  exact ⟨hok, by rw [hval]⟩

/-! ### What the manager hears of -/

variable {setup : EtagSetup} {key k : Bytes} {t : Nat}

theorem cached_set {now : Int} {val : Bytes} (h : (x.set now key val).2.Cached setup k t) :
    setup.hashkey k t = setup.hashkey (cstr key) (getCurrentTime now) ∨ x.Cached setup k t := by
  rw [set] at h
  split at h
  · rename_i db _
    exact cached_recordEtag (x := { x with db := db }) h
  · exact Or.inr h

theorem cached_get (hx : x.Healthy) (h : (x.get key).2.2.Cached setup k t) :
    (∃ s, x.timeOf key = some s ∧ setup.hashkey k t = setup.hashkey (cstr key) s) ∨
      x.Cached setup k t := by
  cases hrow : x.valueRow key with
  | none =>
      rw [valueRow, rows] at hrow
      simp only [get, RocksDB.get, RocksDB.call, show x.db.faults = [] from hx, List.headD_nil,
        hrow] at h
      exact Or.inr h
  | some row =>
      have ht : x.timeOf key = some (XValue.decode { strValue := row }).timestamp := by
        rw [timeOf, valueOf, hrow, Option.map_some, Option.map_some]
      rw [valueRow, rows] at hrow
      simp only [get, RocksDB.get, RocksDB.call, show x.db.faults = [] from hx, List.headD_nil,
        hrow] at h
      exact (cached_recordEtag h).imp_left fun hh => ⟨_, ht, hh⟩

theorem xEtag_del : (x.del key).2.xEtag = x.xEtag ∧ (x.del key).2.bEtag = x.bEtag := by
  rw [del]
  split <;> exact ⟨rfl, rfl⟩

theorem xEtag_flushall : x.flushall.2.xEtag = x.xEtag ∧ x.flushall.2.bEtag = x.bEtag := by
  rw [flushall]
  split <;> exact ⟨rfl, rfl⟩

theorem cached_congr {y : XDataBase} (h : y.xEtag = x.xEtag) :
    y.Cached setup k t ↔ x.Cached setup k t := by
  rw [Cached, Cached, etagManager, etagManager, h]

end XDataBase

/-! ### Runs of calls -/

/-- A call on a database. -/
inductive DbCall where
  | set (now : Int) (key val : Bytes)
  | get (key : Bytes)
  | del (key : Bytes)
  | flushall
  | checkEtag (key : Bytes) (timestamp : Nat)

/-- The database after a call. -/
def DbCall.apply (setup : EtagSetup) (x : XDataBase) : DbCall → XDataBase
  | .set now key val => (x.set now key val).2
  | .get key => (x.get key).2.2
  | .del key => (x.del key).2
  | .flushall => x.flushall.2
  | .checkEtag key timestamp => (x.checkEtag setup key timestamp).2

def dbStep (setup : EtagSetup) (x : XDataBase) (c : DbCall) : Unit × XDataBase :=
  ((), c.apply setup x)

/-- The keys and the times that are used, with no collisions of the hash among them. -/
structure Scope (setup : EtagSetup) where
  keys : Set Bytes
  times : Set Nat
  cstr_mem : ∀ k ∈ keys, cstr k ∈ keys
  hashkey_inj : ∀ k ∈ keys, ∀ k' ∈ keys, ∀ t ∈ times, ∀ t' ∈ times,
    setup.hashkey k t = setup.hashkey k' t' → k = k' ∧ t = t'

variable {setup : EtagSetup} (scope : Scope setup)

/-- The call uses keys and times of the scope. -/
def Scope.Uses : DbCall → Prop
  | .set now key _ => key ∈ scope.keys ∧ getCurrentTime now ∈ scope.times
  | .get key => key ∈ scope.keys
  | .del key => key ∈ scope.keys
  | .flushall => True
  | .checkEtag key t => key ∈ scope.keys ∧ t ∈ scope.times

/-- The times of the rows are of the scope. -/
def Scope.Dated (x : XDataBase) : Prop :=
  ∀ k ∈ scope.keys, ∀ t, x.timeOf k = some t → t ∈ scope.times

/-- What the manager remembers of a key is the time of its row. -/
def Scope.Coherent (x : XDataBase) : Prop :=
  ∀ k ∈ scope.keys, ∀ t ∈ scope.times, x.Cached setup k t → x.timeOf k = some t

/-- **The call leaves no entry behind.**  A key that is set is remembered at no other time; one that
goes is not remembered; and where a key has a NUL, the part before it has a row of the same time. -/
def Scope.KeepsEtags (x : XDataBase) : DbCall → Prop
  | .set now key _ =>
      (∀ t ∈ scope.times, x.Cached setup key t → t = getCurrentTime now) ∧
        (cstr key = key ∨ x.timeOf (cstr key) = some (getCurrentTime now))
  | .get key => cstr key = key ∨ ∀ t, x.timeOf key = some t → x.timeOf (cstr key) = some t
  | .del key => ∀ t ∈ scope.times, ¬ x.Cached setup key t
  | .flushall => ∀ k ∈ scope.keys, ∀ t ∈ scope.times, ¬ x.Cached setup k t
  | .checkEtag _ _ => True

/-- The state of a database with a coherent manager. -/
structure Scope.Kept (x : XDataBase) : Prop where
  healthy : x.Healthy
  dated : scope.Dated x
  coherent : scope.Coherent x

variable {scope} {x : XDataBase}

theorem Scope.Kept.set (h : scope.Kept x) {now : Int} {key : Bytes} (val : Bytes)
    (hu : scope.Uses (.set now key val)) (hk : scope.KeepsEtags x (.set now key val)) :
    scope.Kept (x.set now key val).2 := by
  obtain ⟨hkey, hnow⟩ := hu
  obtain ⟨hother, hnul⟩ := hk
  refine ⟨XDataBase.healthy_of_db (XDataBase.set_spec h.healthy now key val).2, ?_, ?_⟩
  · intro k hk t ht
    rw [XDataBase.timeOf_set h.healthy] at ht
    split_ifs at ht
    · rwa [← Option.some.inj ht]
    · exact h.dated k hk t ht
  · intro k hk t ht hc
    rw [XDataBase.timeOf_set h.healthy]
    rcases XDataBase.cached_set hc with hnew | hold
    · obtain ⟨rfl, rfl⟩ :=
        scope.hashkey_inj k hk _ (scope.cstr_mem key hkey) t ht _ hnow hnew
      rcases hnul with heq | htime
      · rw [if_pos heq]
      · split_ifs
        · rfl
        · exact htime
    · split_ifs with heq
      · subst heq
        rw [hother t ht hold]
      · exact h.coherent k hk t ht hold

theorem Scope.Kept.get (h : scope.Kept x) {key : Bytes} (hu : scope.Uses (.get key))
    (hk : scope.KeepsEtags x (.get key)) : scope.Kept (x.get key).2.2 := by
  refine ⟨XDataBase.healthy_of_db (XDataBase.get_spec h.healthy key).2.2, ?_, ?_⟩
  · intro k hk t ht
    rw [XDataBase.timeOf_get h.healthy] at ht
    exact h.dated k hk t ht
  · intro k hk' t ht hc
    rw [XDataBase.timeOf_get h.healthy]
    rcases XDataBase.cached_get h.healthy hc with ⟨s, hs, hnew⟩ | hold
    · obtain ⟨rfl, rfl⟩ :=
        scope.hashkey_inj k hk' _ (scope.cstr_mem key hu) t ht s (h.dated key hu s hs) hnew
      rcases hk with heq | htime
      · rwa [heq]
      · exact htime t hs
    · exact h.coherent k hk' t ht hold

theorem Scope.Kept.del (h : scope.Kept x) {key : Bytes}
    (hk : scope.KeepsEtags x (.del key)) : scope.Kept (x.del key).2 := by
  refine ⟨XDataBase.healthy_of_db (XDataBase.del_spec h.healthy key).2, ?_, ?_⟩
  · intro k hk t ht
    rw [XDataBase.timeOf_del h.healthy] at ht
    split_ifs at ht
    exact h.dated k hk t ht
  · intro k hk' t ht hc
    have hold := (XDataBase.cached_congr XDataBase.xEtag_del.1).mp hc
    rw [XDataBase.timeOf_del h.healthy]
    split_ifs with heq
    · subst heq
      exact absurd hold (hk t ht)
    · exact h.coherent k hk' t ht hold

theorem Scope.Kept.flushall (h : scope.Kept x) (hk : scope.KeepsEtags x .flushall) :
    scope.Kept x.flushall.2 := by
  refine ⟨XDataBase.healthy_of_db (XDataBase.flushall_spec h.healthy).2, ?_, ?_⟩
  · intro k hk t ht
    rw [XDataBase.timeOf_flushall h.healthy] at ht
    cases ht
  · intro k hk' t ht hc
    exact absurd ((XDataBase.cached_congr XDataBase.xEtag_flushall.1).mp hc) (hk k hk' t ht)

theorem Scope.Kept.checkEtag (h : scope.Kept x) (key : Bytes) (t : Nat) :
    scope.Kept (x.checkEtag setup key t).2 :=
  ⟨h.healthy, h.dated, fun k hk s hs hc =>
    h.coherent k hk s hs (XDataBase.cached_checkEtag hc)⟩

/-- Calls that leave no entry behind keep the manager coherent. -/
theorem Scope.Kept.step {c : DbCall} (hc : scope.Uses c ∧ scope.KeepsEtags x c)
    (h : scope.Kept x) : scope.Kept (dbStep setup x c).2 := by
  cases c with
  | set now key val => exact h.set val hc.1 hc.2
  | get key => exact h.get hc.1 hc.2
  | del key => exact h.del hc.2
  | flushall => exact h.flushall hc.2
  | checkEtag key t => exact h.checkEtag key t

/-- What a database remembers that has just been handed a new manager is nothing. -/
theorem Scope.kept_of_new (hx : x.Healthy) (hnew : x.xEtag = []) (hd : scope.Dated x) :
    scope.Kept x :=
  ⟨hx, hd, fun _ _ _ _ hc => absurd hc (XDataBase.not_cached_of_nil hnew)⟩

/-! ### The early answer and the late one -/

variable {env : FrontEnv} {cfg : XConfig} {req : EvhtpRequest} {uri header : Bytes}

/-- The early `304` is sent for what `CheckEtag` says. -/
theorem earlyNotModified_eq_some {y : XDataBase}
    (h : earlyNotModified env cfg req uri x = some (true, y)) :
    ∃ header n, ifNoneMatchHeader env cfg req = some header ∧
      ifNoneMatchTime header = some n ∧ (x.checkEtag env.setup uri (u64 n)).1 = true ∧
      y = (x.checkEtag env.setup uri (u64 n)).2 := by
  rw [earlyNotModified] at h
  cases hh : ifNoneMatchHeader env cfg req with
  | none =>
      rw [hh] at h
      cases h
  | some header =>
      rw [hh] at h
      obtain ⟨n, hn, hc⟩ := Option.map_eq_some_iff.mp h
      exact ⟨header, n, rfl, hn, congrArg Prod.fst hc, (congrArg Prod.snd hc).symm⟩

/-- The late `304` is sent where `If-None-Match` starts with the ETag of the row. -/
theorem lookup_notModified (hok : (x.get uri).1 = .ok)
    (hh : ifNoneMatchHeader env cfg req = some header)
    (hpre : etagText (x.get uri).2.1.timestamp <+: cstr header)
    (hs : (modifiedSince env req (x.get uri).2.1.timestamp).isSome) :
    ∃ r y, lookup env cfg req uri x = some (r, y) ∧ r.status = EVHTP_RES_NOTMOD := by
  obtain ⟨modified, hmod⟩ := Option.isSome_iff_exists.mp hs
  have hetag : (noneMatch env cfg req (x.get uri).2.1.timestamp).1 = true := by
    rw [noneMatch, hh]
    exact strnicmpEq_etagText.mpr hpre
  refine ⟨_, _, lookup_of_ok hok hmod, ?_⟩
  rw [hetag, Bool.or_true, if_pos rfl]

/-- **The ETag cache agrees with the database** after every run of calls that leave no entry
behind.  What `CheckEtag` says, `Get` says; and where `If-None-Match` starts with the ETag of the
number it is taken for, the early `304` is sent only if the late one would be. -/
theorem fast_path_sound (scope : Scope setup) {x : XDataBase} (hx : x.Healthy)
    (hnew : x.xEtag = []) (hd : scope.Dated x) {calls : List DbCall}
    (hu : ∀ c ∈ calls, scope.Uses c) (hk : Along (dbStep setup) scope.KeepsEtags x calls)
    {y : XDataBase} (hy : (run (dbStep setup) x calls).2 = y) :
    (∀ key ∈ scope.keys, ∀ t ∈ scope.times, (y.checkEtag setup key t).1 = true →
        (y.get key).1 = .ok ∧ (y.get key).2.1.timestamp = t) ∧
      ∀ env : FrontEnv, env.setup = setup → ∀ cfg req, ∀ key ∈ scope.keys,
        ∀ header n, ifNoneMatchHeader env cfg req = some header →
          ifNoneMatchTime header = some n → u64 n ∈ scope.times →
          etagText (u64 n) <+: cstr header → (modifiedSince env req (u64 n)).isSome →
          ∀ y', earlyNotModified env cfg req key y = some (true, y') →
            ∃ r z, lookup env cfg req key y' = some (r, z) ∧ r.status = EVHTP_RES_NOTMOD := by
  have hkept : scope.Kept y := hy ▸ along_inv (I := scope.Kept)
    (fun _ _ => Scope.Kept.step) (hk.and_mem hu) (Scope.kept_of_new hx hnew hd)
  have hcheck : ∀ key ∈ scope.keys, ∀ t ∈ scope.times, (y.checkEtag setup key t).1 = true →
      (y.get key).1 = .ok ∧ (y.get key).2.1.timestamp = t := by
    intro key hkey t ht hc
    exact XDataBase.get_of_timeOf hkept.healthy
      (hkept.coherent key hkey t ht (XDataBase.checkEtag_eq_true.mp hc))
  refine ⟨hcheck, ?_⟩
  rintro env rfl cfg req key hkey header n hheader hn ht hpre hs y' hearly
  obtain ⟨header', n', hheader', hn', hc, rfl⟩ := earlyNotModified_eq_some hearly
  obtain rfl := Option.some.inj (hheader.symm.trans hheader')
  obtain rfl := Option.some.inj (hn.symm.trans hn')
  obtain ⟨hok, htime⟩ := XDataBase.get_of_timeOf (hkept.checkEtag key (u64 n)).healthy
    (hkept.coherent key hkey _ ht (XDataBase.checkEtag_eq_true.mp hc))
  rw [← htime] at hpre hs
  exact lookup_notModified hok hheader hpre hs

/-- One key, at any time: the times alone tell its entries apart. -/
def Scope.single (setup : EtagSetup) (key : Bytes) (h : cstr key = key) : Scope setup where
  keys := {key}
  times := {t | t < 2 ^ 64}
  cstr_mem k hk := by
    rw [Set.mem_singleton_iff.mp hk, h]
    rfl
  hashkey_inj k hk k' hk' t ht t' ht' heq := by
    obtain rfl := Set.mem_singleton_iff.mp hk
    obtain rfl := Set.mem_singleton_iff.mp hk'
    rw [Set.mem_ofPred_eq] at ht ht'
    refine ⟨rfl, ?_⟩
    rw [EtagSetup.hashkey, EtagSetup.hashkey] at heq
    omega

/-- An empty database that has been handed a new manager. -/
def etagDb : XDataBase := { db := ⟨.empty, []⟩, bEtag := true }

/-- A key that is set and read is remembered at the time of its row. -/
theorem fast_path_set_get :
    let y := (run (dbStep plainFront.setup) etagDb
      [.set 5 (ascii "k") (ascii "v"), .get (ascii "k")]).2
    (y.checkEtag plainFront.setup (ascii "k") 5).1 = true ∧
      (y.get (ascii "k")).1 = .ok ∧ (y.get (ascii "k")).2.1.timestamp = 5 := by
  have hk : cstr (ascii "k") = ascii "k" := by decide
  have hx : etagDb.Healthy := rfl
  have h5 : (5 : Nat) < 2 ^ 64 := by decide
  have hcheck : ((run (dbStep plainFront.setup) etagDb
      [.set 5 (ascii "k") (ascii "v"), .get (ascii "k")]).2.checkEtag plainFront.setup
        (ascii "k") 5).1 = true := by decide
  refine ⟨hcheck, (fast_path_sound (.single plainFront.setup (ascii "k") hk) hx rfl ?_ ?_ ?_
    rfl).1 _ rfl 5 h5 hcheck⟩
  · rintro k - t ht
    rw [XDataBase.timeOf, XDataBase.valueOf, XDataBase.valueRow, XDataBase.rows, etagDb,
      OrderedMap.get_empty] at ht
    cases ht
  · rintro c hc
    rcases List.mem_cons.mp hc with rfl | hc
    · exact ⟨rfl, u64_lt 5⟩
    · rw [List.mem_singleton.mp hc]
      exact rfl
  · refine ⟨⟨?_, Or.inl hk⟩, Or.inl hk, trivial⟩
    rintro t - hc
    exact absurd hc (XDataBase.not_cached_of_nil rfl)

/-- A key that is set again is still remembered at its old time, and the frontend sends `304` for it
although the database has another value. -/
theorem fast_path_stale :
    let k := ascii "k"
    let req : EvhtpRequest :=
      { method := .get, full := ascii "/k", headersIn := [(ascii "If-None-Match", ascii "\"1\"")] }
    let cfg : XConfig := { frontend := { etag := 1 } }
    let y := (run (dbStep plainFront.setup) etagDb
      [.set 1 k (ascii "old"), .set 2 k (ascii "new")]).2
    (y.checkEtag plainFront.setup k 1).1 = true ∧ (y.get k).2.1.timestamp = 2 ∧
      (frontend plainFront cfg req y).map (·.1.status) = some EVHTP_RES_NOTMOD ∧
      (lookup plainFront cfg req k y).map (fun r => (r.1.status, r.1.bufferOut)) =
        some (EVHTP_RES_OK, ascii "new") := by
  decide

end XHttpCache
