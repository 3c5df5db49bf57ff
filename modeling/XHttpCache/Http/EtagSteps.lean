import XHttpCache.Http.Frontend
import XHttpCache.Store.EtagNodes
import XHttpCache.Store.Faults

/-!
# Http — undefined steps of the ETag check

The sizes of the ETag manager come from the configuration (`src/xHttpCache.cpp`), where
`etag_cache_size` is never 0 once it is loaded and `etag_cache_count` may be.  The manager is asked
by a `GET` of the frontend that has an `If-None-Match`, from whose text the first and the last byte
are erased, and told by `Set` and `Get` of a database that records.

A database keeps the calls on its manager, so an operation is evaluated by running them on a new
one, node by node (`EtagOp.eval`); a missing step is an `EtagFault`.

* `frontend_after`: the calls of a `GET` are those of `frontend`.
* `runCalls_ok_iff`: calls have an undefined step exactly if there are no caches.
* `etag_total_iff`: which operations have none.
-/

namespace XHttpCache
open Support

/-! ### The manager of a configuration -/

/-- The arguments of `Init` in `xhttpcache()`, an `int` each that is passed as a `size_t`. -/
def XConfig.etagSetup (cfg : XConfig) (hash : Bytes → Nat) : EtagSetup :=
  ⟨hash, u64 cfg.frontend.etagCacheCount, u64 cfg.frontend.etagCacheSize⟩

/-- `new EtagCache[count]` succeeds: the size of the array in bytes is a `size_t`, where an
`EtagCache` has two bytes at least, and the memory is there. -/
def allocates (memory : Nat → Bool) (count : Nat) : Bool :=
  decide (2 * count < 2 ^ 64) && memory count

/-- The frontend with the manager of the configuration. -/
def FrontEnv.wired (env : FrontEnv) (cfg : XConfig) : FrontEnv :=
  { env with setup := cfg.etagSetup env.setup.hash }

theorem u64_eq_zero_iff {v : Int} (h : IsI64 v) : u64 v = 0 ↔ v = 0 := by
  obtain ⟨h₁, h₂⟩ := h
  simp only [u64]
  omega

/-- A size that is loaded is not 0. -/
theorem etagCacheSize_pos (ini : CIniFile) :
    0 < u64 (XConfig.loadFrontend ini).etagCacheSize := by
  have hrange : ∀ s, IsI64 (atoi s) := fun s =>
    ⟨le_trans (by decide) (le_i32 _), lt_trans (i32_lt _) (by decide)⟩
  refine Nat.pos_of_ne_zero fun hzero => ?_
  simp only [XConfig.loadFrontend] at hzero
  split_ifs at hzero with hsize
  · exact absurd hzero (by decide)
  · exact hsize ((u64_eq_zero_iff (hrange _)).mp hzero)

/-- A number of caches that can be allocated is not negative, so an `int` counts them. -/
theorem etagCacheCount_lt {ini : CIniFile} {memory : Nat → Bool}
    (h : allocates memory (u64 (XConfig.loadFrontend ini).etagCacheCount) = true) :
    u64 (XConfig.loadFrontend ini).etagCacheCount < 2 ^ 31 := by
  rw [allocates, Bool.and_eq_true, decide_eq_true_iff] at h
  have hle := le_i32 (strtoll (ini.getValue (ascii "xhttpcache") (ascii "etag_cache_count")
    (decimal 4)))
  have hlt := i32_lt (strtoll (ini.getValue (ascii "xhttpcache") (ascii "etag_cache_count")
    (decimal 4)))
  have hcount : (XConfig.loadFrontend ini).etagCacheCount =
      i32 (strtoll (ini.getValue (ascii "xhttpcache") (ascii "etag_cache_count") (decimal 4))) :=
    rfl
  rw [hcount] at h ⊢
  generalize i32 _ = v at h hle hlt ⊢
  have hbytes := h.1
  simp only [u64] at hbytes ⊢
  omega

/-! ### Running calls -/

/-- **Calls on a new manager** have an undefined step if there are some and there are no caches. -/
theorem runCalls_ok_iff {setup : EtagSetup} (hint : setup.cnt < 2 ^ 31) (hn : 0 < setup.size)
    (calls : List EtagCall) :
    (∃ r, runCalls setup (.init setup) calls = .ok r) ↔ setup.cnt ≠ 0 ∨ calls = [] := by
  by_cases hc : setup.cnt = 0
  · cases calls with
    | nil => exact iff_of_true ⟨_, rfl⟩ (Or.inr rfl)
    | cons call calls =>
        refine iff_of_false ?_ fun h => h.elim (fun h => h hc) fun h => by cases h
        rintro ⟨r, hr⟩
        have hdiv : ∀ w, (EtagShards.init setup).cacheIndex w = .error .divZero := fun w =>
          if_pos hc
        have hexec : call.exec setup (.init setup) = .error .divZero := by
          cases call with
          | setKey key timestamp => simp only [EtagCall.exec, EtagShards.setKey, hdiv]; rfl
          | getKey key timestamp => simp only [EtagCall.exec, EtagShards.getKey, hdiv]; rfl
        rw [runCalls, hexec] at hr
        cases hr
  · refine iff_of_true ?_ (Or.inl hc)
    obtain ⟨trace, m, hrun, -⟩ := (Tracks.init (Nat.pos_of_ne_zero hc) hint hn).run hn calls
    exact ⟨_, hrun⟩

/-! ### The operations -/

/-- What asks the manager, or tells it. -/
inductive EtagOp where
  | frontend (req : EvhtpRequest)
  | set (now : Int) (key val : Bytes)
  | get (key : Bytes)

section Operations

variable (env : FrontEnv) (cfg : XConfig) (x : XDataBase)

/-- `GetCallbackPro` up to `Get`: the database with the calls that are made. -/
def checkThenGet (req : EvhtpRequest) (uri : Bytes) : Except EtagFault XDataBase :=
  match earlyNotModified env cfg req uri x with
  | none => .error .eraseEnd
  | some (true, x) => .ok x
  | some (false, x) => .ok (x.get uri).2.2

namespace EtagOp

/-- The database after an operation. -/
def after : EtagOp → Except EtagFault XDataBase
  | .frontend req =>
      if req.method ≠ .get then .ok x else checkThenGet env cfg x req (frontKey cfg req)
  | .set now key val => .ok (x.set now key val).2
  | .get key => .ok (x.get key).2.2

/-- The operation with its calls run. -/
def eval (op : EtagOp) : Except EtagFault (XDataBase × EtagShards) := do
  let x ← op.after env cfg x
  let (_, m) ← runCalls env.setup (.init env.setup) x.xEtag
  pure (x, m)

/-- No step of it is undefined. -/
def Total (op : EtagOp) : Prop := ∃ r, op.eval env cfg x = .ok r

/-- An `If-None-Match` that the frontend looks at has two bytes. -/
def HeaderFine : EtagOp → Prop
  | .frontend req => req.method = .get → ∀ header, ifNoneMatchHeader env cfg req = some header →
      2 ≤ (cstr header).length
  | _ => True

end EtagOp

/-- `Get` of `key` tells the manager. -/
def XDataBase.Records (key : Bytes) : Prop :=
  x.bEtag = true ∧ x.fault 0 = false ∧ x.valueRow key ≠ none

/-- The operation asks the manager, or tells it. -/
def EtagOp.Consults : EtagOp → Prop
  | .frontend req => req.method = .get ∧
      ((ifNoneMatchHeader env cfg req).isSome = true ∨ x.Records (frontKey cfg req))
  | .set _ _ _ => x.bEtag = true ∧ x.fault 0 = false
  | .get key => x.Records key

end Operations

variable {env : FrontEnv} {cfg : XConfig} {x : XDataBase}

/-- What the frontend leaves of the database is what its calls leave. -/
theorem frontend_after {req : EvhtpRequest} {r : Response} {x' : XDataBase}
    (h : frontend env cfg req x = some (r, x')) :
    (EtagOp.frontend req).after env cfg x = .ok x' := by
  rw [frontend, getCallbackPro] at h
  rw [EtagOp.after]
  split_ifs at h ⊢ with hm
  · cases h
    rfl
  · obtain ⟨⟨found, y⟩, he, hl⟩ := Option.bind_eq_some_iff.mp h
    rw [checkThenGet, he]
    cases found with
    | true =>
        cases hl
        rfl
    | false =>
        simp only [Bool.false_eq_true, if_false, lookup] at hl
        obtain ⟨response, -, hy⟩ := Option.map_eq_some_iff.mp hl
        cases hy
        rfl

/-! ### When calls are made -/

theorem xEtag_recordEtag (y : XDataBase) (key : Bytes) (timestamp : Nat) (h : y.xEtag = []) :
    (y.recordEtag key timestamp).xEtag = [] ↔ ¬ y.bEtag = true := by
  rw [XDataBase.recordEtag]
  split_ifs with hb
  · exact iff_of_false (by simp) (not_not.mpr hb)
  · exact iff_of_true h hb

theorem xEtag_set (h : x.xEtag = []) (now : Int) (key val : Bytes) :
    (x.set now key val).2.xEtag = [] ↔ ¬ (x.bEtag = true ∧ x.fault 0 = false) := by
  rw [XDataBase.set, XDataBase.db_mk, RocksDB.put_eq]
  by_cases hf : x.fault 0 = true
  · simp only [if_pos hf]
    exact iff_of_true h fun hn => Bool.false_ne_true (hn.2.symm.trans hf)
  · simp only [if_neg hf]
    rw [Bool.not_eq_true] at hf
    rw [and_iff_left hf]
    exact xEtag_recordEtag _ _ _ h

theorem xEtag_get (h : x.xEtag = []) (key : Bytes) :
    (x.get key).2.2.xEtag = [] ↔ ¬ x.Records key := by
  rw [XDataBase.get, XDataBase.db_mk, RocksDB.get_eq, XDataBase.Records, XDataBase.valueRow]
  by_cases hf : x.fault 0 = true
  · simp only [if_pos hf]
    exact iff_of_true h fun hn => Bool.false_ne_true (hn.2.1.symm.trans hf)
  · simp only [if_neg hf]
    rw [Bool.not_eq_true] at hf
    cases hv : x.rows.get (encodeKey (.string key)) with
    | none => exact iff_of_true h fun hn => hn.2.2 rfl
    | some v =>
        simp only [reduceCtorEq, if_false]
        rw [and_iff_left ⟨hf, Option.some_ne_none v⟩]
        exact xEtag_recordEtag _ _ _ h

/-- `Get` takes back no call. -/
theorem xEtag_get_ne_nil (h : x.xEtag ≠ []) (key : Bytes) : (x.get key).2.2.xEtag ≠ [] := by
  rw [XDataBase.get]
  split
  · exact h
  · exact h
  · simp only [XDataBase.recordEtag]
    split_ifs
    · exact List.append_ne_nil_of_right_ne_nil _ (List.cons_ne_nil _ _)
    · exact h

/-- Without a header to look at, the manager is not asked. -/
theorem checkThenGet_of_none {req : EvhtpRequest} (h : ifNoneMatchHeader env cfg req = none)
    (uri : Bytes) : checkThenGet env cfg x req uri = .ok (x.get uri).2.2 := by
  rw [checkThenGet, earlyNotModified, h]

/-- A header that is too short is not got over. -/
theorem checkThenGet_of_short {req : EvhtpRequest} {header : Bytes}
    (h : ifNoneMatchHeader env cfg req = some header) (hlen : ¬ 2 ≤ (cstr header).length)
    (uri : Bytes) : checkThenGet env cfg x req uri = .error .eraseEnd := by
  rw [← ifNoneMatchTime_isSome_iff, Option.not_isSome_iff_eq_none] at hlen
  rw [checkThenGet, earlyNotModified, h]
  simp only [hlen, Option.map_none]

/-- With any other, the manager is asked. -/
theorem checkThenGet_of_header {req : EvhtpRequest} {header : Bytes}
    (h : ifNoneMatchHeader env cfg req = some header) (hlen : 2 ≤ (cstr header).length)
    (uri : Bytes) : ∃ y, checkThenGet env cfg x req uri = .ok y ∧ y.xEtag ≠ [] := by
  rw [← ifNoneMatchTime_isSome_iff, Option.isSome_iff_exists] at hlen
  obtain ⟨t, ht⟩ := hlen
  have hne : (x.checkEtag env.setup uri (u64 t)).2.xEtag ≠ [] :=
    List.append_ne_nil_of_right_ne_nil _ (List.cons_ne_nil _ _)
  rw [checkThenGet, earlyNotModified, h]
  simp only [ht, Option.map_some]
  generalize x.checkEtag env.setup uri (u64 t) = early at hne
  obtain ⟨found, y⟩ := early
  cases found with
  | true => exact ⟨y, rfl, hne⟩
  | false => exact ⟨_, rfl, xEtag_get_ne_nil hne uri⟩

/-- An operation is evaluated to its end if it gets to its calls, and those can be run. -/
theorem EtagOp.total_iff (hint : env.setup.cnt < 2 ^ 31) (hn : 0 < env.setup.size) (op : EtagOp) :
    op.Total env cfg x ↔
      ∃ y, op.after env cfg x = .ok y ∧ (env.setup.cnt ≠ 0 ∨ y.xEtag = []) := by
  rw [EtagOp.Total, EtagOp.eval]
  cases hafter : op.after env cfg x with
  | error e =>
      refine iff_of_false ?_ ?_
      · rintro ⟨r, hr⟩
        cases hr
      · rintro ⟨y, hy, -⟩
        cases hy
  | ok y =>
      have hok := runCalls_ok_iff hint hn y.xEtag
      constructor
      · rintro ⟨r, hr⟩
        refine ⟨y, rfl, hok.mp ?_⟩
        cases hrun : runCalls env.setup (.init env.setup) y.xEtag with
        | error e =>
            simp only [bind, Except.bind, hrun] at hr
            cases hr
        | ok t => exact ⟨t, rfl⟩
      · rintro ⟨y', hy, hor⟩
        cases hy
        obtain ⟨t, ht⟩ := hok.mpr hor
        exact ⟨(y, t.2), by simp only [bind, Except.bind, ht]; rfl⟩

/-- An operation gets to its calls if its header can be stripped. -/
theorem EtagOp.after_isOk_iff (op : EtagOp) :
    (∃ y, op.after env cfg x = .ok y) ↔ op.HeaderFine env cfg := by
  cases op with
  | set now key val => exact iff_of_true ⟨_, rfl⟩ trivial
  | get key => exact iff_of_true ⟨_, rfl⟩ trivial
  | frontend req =>
      rw [EtagOp.after, EtagOp.HeaderFine]
      by_cases hm : req.method = .get
      · rw [if_neg (not_not_intro hm), forall_prop_of_true hm]
        cases hheader : ifNoneMatchHeader env cfg req with
        | none => exact iff_of_true ⟨_, checkThenGet_of_none hheader _⟩ fun _ h => by cases h
        | some header =>
            by_cases hlen : 2 ≤ (cstr header).length
            · obtain ⟨y, hy, -⟩ := checkThenGet_of_header (x := x) hheader hlen (frontKey cfg req)
              refine iff_of_true ⟨y, hy⟩ fun header' h => ?_
              obtain rfl := Option.some.inj h
              exact hlen
            · refine iff_of_false ?_ fun h => hlen (h header rfl)
              rintro ⟨y, hy⟩
              rw [checkThenGet_of_short hheader hlen] at hy
              cases hy
      · rw [if_pos hm]
        exact iff_of_true ⟨x, rfl⟩ fun hget => absurd hget hm

/-- Where the manager was not called before, an operation calls it if it consults it. -/
theorem EtagOp.after_nil_iff (h : x.xEtag = []) (op : EtagOp) :
    (∃ y, op.after env cfg x = .ok y ∧ y.xEtag = []) ↔ ¬ op.Consults env cfg x := by
  have hsingle : ∀ {y : XDataBase}, (∃ z, (.ok y : Except EtagFault XDataBase) = .ok z ∧
      z.xEtag = []) ↔ y.xEtag = [] := by
    intro y
    constructor
    · rintro ⟨z, hz, hnil⟩
      cases hz
      exact hnil
    · intro hnil
      exact ⟨y, rfl, hnil⟩
  cases op with
  | set now key val =>
      rw [EtagOp.after, EtagOp.Consults, hsingle]
      exact xEtag_set h now key val
  | get key =>
      rw [EtagOp.after, EtagOp.Consults, hsingle]
      exact xEtag_get h key
  | frontend req =>
      rw [EtagOp.after, EtagOp.Consults]
      by_cases hm : req.method = .get
      · rw [if_neg (not_not_intro hm), and_iff_right hm]
        cases hheader : ifNoneMatchHeader env cfg req with
        | none =>
            rw [checkThenGet_of_none hheader, hsingle, xEtag_get h]
            exact not_congr (or_iff_right (by simp)).symm
        | some header =>
            refine iff_of_false ?_ (not_not_intro (Or.inl rfl))
            rintro ⟨y, hy, hnil⟩
            by_cases hlen : 2 ≤ (cstr header).length
            · obtain ⟨z, hz, hne⟩ := checkThenGet_of_header (x := x) hheader hlen (frontKey cfg req)
              rw [hz] at hy
              cases hy
              exact hne hnil
            · rw [checkThenGet_of_short hheader hlen] at hy
              cases hy
      · rw [if_pos hm, hsingle]
        exact iff_of_true h fun hc => hm hc.1

/-- **Which operations have no undefined step.**  With any configuration that turns the ETag on and
whose caches can be allocated, and on a manager that has come so far without an undefined step, an
operation has none exactly if its `If-None-Match`, if it looks at one, has two bytes, and there
are caches or it does not consult the manager. -/
theorem etag_total_iff (env : FrontEnv) (cfg : XConfig) (ini : CIniFile) (memory : Nat → Bool)
    (x : XDataBase) (op : EtagOp) (_ : (cfg.loadxHttpdAppConfig ini).frontend.etag = 1)
    (halloc : allocates memory (u64 (cfg.loadxHttpdAppConfig ini).frontend.etagCacheCount) = true)
    (hx : ∃ r, runCalls (env.wired (cfg.loadxHttpdAppConfig ini)).setup
      (.init (env.wired (cfg.loadxHttpdAppConfig ini)).setup) x.xEtag = .ok r) :
    let loaded := cfg.loadxHttpdAppConfig ini
    let env := env.wired loaded
    op.Total env loaded x ↔ op.HeaderFine env loaded ∧
      (loaded.frontend.etagCacheCount ≠ 0 ∨ ¬ op.Consults env loaded x) := by
  intro loaded env
  have hint : env.setup.cnt < 2 ^ 31 := etagCacheCount_lt halloc
  have hn : 0 < env.setup.size := etagCacheSize_pos ini
  have hcount : env.setup.cnt = 0 ↔ loaded.frontend.etagCacheCount = 0 :=
    u64_eq_zero_iff ⟨le_trans (by decide) (le_i32 _), lt_trans (i32_lt _) (by decide)⟩
  rw [EtagOp.total_iff hint hn]
  by_cases hzero : env.setup.cnt = 0
  · have hnil : x.xEtag = [] := ((runCalls_ok_iff hint hn _).mp hx).resolve_left (not_not_intro hzero)
    simp only [hzero, ne_eq, not_true_eq_false, false_or, hcount.mp hzero]
    rw [EtagOp.after_nil_iff hnil]
    refine (and_iff_right_of_imp fun hc => ?_).symm
    obtain ⟨y, hy, -⟩ := (EtagOp.after_nil_iff hnil op).mpr hc
    exact (EtagOp.after_isOk_iff op).mp ⟨y, hy⟩
  · have hne : loaded.frontend.etagCacheCount ≠ 0 := fun h => hzero (hcount.mpr h)
    simp only [ne_eq, hzero, not_false_eq_true, true_or, and_true, hne]
    exact EtagOp.after_isOk_iff op

/-- A `GET` of `k` with an `If-None-Match`. -/
def ifNoneMatchGet (header : Bytes) : EvhtpRequest where
  method := .get
  full := ascii "/k"
  headersIn := [(ascii "If-None-Match", header)]

/-- A database that records. -/
def recordingDb : XDataBase := { db := ⟨.empty, []⟩, bEtag := true }

/-- The configuration of an empty ini file. -/
def defaultConfig : XConfig := XConfig.loadxHttpdAppConfig {} ⟨[]⟩

/-- The configuration with no ETag caches. -/
def cachelessConfig : XConfig := XConfig.loadxHttpdAppConfig {}
  ⟨[(ascii "xhttpcache", [(ascii "etag_cache_count", ascii "0")])]⟩

/-- With the defaults, a quoted number is checked. -/
theorem etag_total_quoted :
    (EtagOp.frontend (ifNoneMatchGet (ascii "\"1\""))).Total (plainFront.wired defaultConfig)
      defaultConfig recordingDb := by
  have hheader : ifNoneMatchHeader (plainFront.wired defaultConfig) defaultConfig
      (ifNoneMatchGet (ascii "\"1\"")) = some (ascii "\"1\"") := by decide
  refine (etag_total_iff plainFront {} ⟨[]⟩ (fun _ => true) recordingDb _ (by decide) (by decide)
    ⟨_, rfl⟩).mpr ⟨fun _ header h => ?_, Or.inl (by decide)⟩
  obtain rfl := Option.some.inj (hheader.symm.trans h)
  decide

/-- With the defaults, an `If-None-Match` of one byte is erased past its end; without caches, a
quoted number and a `SET` divide by zero. -/
theorem etag_undefined :
    let cacheless := plainFront.wired cachelessConfig
    (EtagOp.frontend (ifNoneMatchGet (ascii "\""))).eval (plainFront.wired defaultConfig)
        defaultConfig recordingDb = .error .eraseEnd ∧
      cachelessConfig.frontend.etag = 1 ∧
      allocates (fun _ => true) (u64 cachelessConfig.frontend.etagCacheCount) = true ∧
      (EtagOp.frontend (ifNoneMatchGet (ascii "\"1\""))).eval cacheless cachelessConfig
        recordingDb = .error .divZero ∧
      (EtagOp.set 0 (ascii "k") (ascii "v")).eval cacheless cachelessConfig recordingDb =
        .error .divZero := by
  refine ⟨rfl, by decide, by decide, rfl, rfl⟩

end XHttpCache
