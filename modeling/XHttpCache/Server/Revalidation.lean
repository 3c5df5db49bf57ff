import XHttpCache.Http.Validators
import XHttpCache.Server.Acknowledge
import XHttpCache.Server.Upload

/-!
# Server — asking again for what was fetched

A client that was given the `ETag` of a value can ask later whether the value is still the same.
The frontend writes the `ETag` only into the answer to a request that has an `If-None-Match`, so a
client that fetches a key for the first time is given none.  An `ETag` that was given comes back as
a `304` until the key is written or deleted: from the ETag cache, or from the time of the value.

* `etag_of_ok`: the answers with a value that carry an `ETag`, and which one.
* `notModified_iff`: a request that returns the `ETag` of a value is answered `304`, unless it also
  has an `If-Modified-Since` and `asctime` cannot write the time.
* `revalidable_iff`: exactly which answers a client can ask again for.
-/

namespace XHttpCache
open Support

/-! ### Requests that return an `ETag` -/

section Definitions

variable (env : FrontEnv) (cfg : XConfig)

/-- A `GET` of the key `k` with the `If-None-Match` `e`, whatever its other headers. -/
structure AsksAgain (k e : Bytes) (q : EvhtpRequest) : Prop where
  method : q.method = .get
  key : frontKey cfg q = k
  etag : env.headerFind q.headersIn (ascii "If-None-Match") = some e

/-- The request is answered `304`. -/
def NotModified (q : EvhtpRequest) (x : XDataBase) : Prop :=
  ∃ r y, frontend env cfg q x = some (r, y) ∧ r.status = EVHTP_RES_NOTMOD

/-- **The client can ask again** for what `req` was answered with: the answer `r` carries an `ETag`,
and whatever happens next, as long as the key is neither written nor deleted, every `GET` of the key
that returns the `ETag` is answered `304`. -/
def Revalidable (s : ServerState) (req : EvhtpRequest) (r : Response) : Prop :=
  ∃ e, (ascii "ETag", e) ∈ r.headersOut ∧
    ∀ ts, Along (trafficStep env cfg) (fun s t => ¬ t.Touches env cfg (frontKey cfg req) s)
        (trafficStep env cfg s (.frontend req)).2 ts →
      ∀ q, AsksAgain env cfg (frontKey cfg req) e q →
        NotModified env cfg q (run (trafficStep env cfg) s (.frontend req :: ts)).2.redis.xdb

/-- The time `t` can be compared with the validators of the request: there is no
`If-Modified-Since`, or `asctime` can write the time. -/
def Comparable (q : EvhtpRequest) (t : Nat) : Prop :=
  ifModifiedSinceHeader env q = none ∨ (lastModified env t).isSome = true

/-- The ETag cache has what the `If-None-Match` `e` of a request for `k` names. -/
def CacheHas (x : XDataBase) (k e : Bytes) : Prop :=
  ∃ n, ifNoneMatchTime e = some n ∧ x.Cached env.setup k (u64 n)

end Definitions

variable {env : FrontEnv} {cfg : XConfig} {x : XDataBase} {k : Bytes} {v : XValue}
  {req q : EvhtpRequest} {r : Response} {s : ServerState}

/-! ### The `ETag` of an answer -/

theorem mem_noneMatch {t : Nat} {e : Bytes} :
    (ascii "ETag", e) ∈ (noneMatch env cfg req t).2 ↔
      (ifNoneMatchHeader env cfg req).isSome = true ∧ e = etagText t := by
  rw [noneMatch]
  cases ifNoneMatchHeader env cfg req with
  | none => simp
  | some header => simp

theorem not_mem_modifiedSince {t : Nat} {modified : Bool × List (Bytes × Bytes)}
    (hmod : modifiedSince env req t = some modified) (e : Bytes) :
    (ascii "ETag", e) ∉ modified.2 := by
  intro h
  rw [modifiedSince] at hmod
  cases hsince : ifModifiedSinceHeader env req with
  | none =>
      rw [hsince] at hmod
      cases hmod
      cases h
  | some since =>
      rw [hsince] at hmod
      obtain ⟨text, -, rfl⟩ := Option.map_eq_some_iff.mp hmod
      have hname := (Prod.mk.inj (List.mem_singleton.mp h)).1
      exact absurd hname (by decide)

/-- **An answer with a value carries an `ETag`** exactly if the request has an `If-None-Match` that
is looked at, and then it is that of the time of the value. -/
theorem etag_of_ok (hx : x.Healthy) (hv : x.valueOf (frontKey cfg req) = some v)
    (hr : ∃ y, frontend env cfg req x = some (r, y)) (hok : r.status = EVHTP_RES_OK) (e : Bytes) :
    (ascii "ETag", e) ∈ r.headersOut ↔
      (ifNoneMatchHeader env cfg req).isSome = true ∧ e = etagText v.timestamp := by
  obtain ⟨hget, hval⟩ := XDataBase.get_of_valueOf hx hv
  obtain ⟨-, hs, ⟨-, -, modified, hmod, -, rfl⟩, rfl⟩ := frontend_ok_iff.mp ⟨hr, hok⟩
  rw [if_pos hget, hval] at hmod ⊢
  rw [mem_headersOut_sendValue (by decide), List.mem_append, mem_noneMatch]
  exact or_iff_right (not_mem_modifiedSince hmod e)

/-! ### Asking again -/

theorem ifNoneMatchHeader_of_asksAgain (he : cfg.frontend.etag = 1) {e : Bytes}
    (hq : AsksAgain env cfg k e q) : ifNoneMatchHeader env cfg q = some e := by
  rw [ifNoneMatchHeader, if_pos he, hq.etag]

theorem modifiedSince_isSome (q : EvhtpRequest) (t : Nat) :
    (modifiedSince env q t).isSome = true ↔ Comparable env q t := by
  rw [modifiedSince, Comparable]
  cases ifModifiedSinceHeader env q with
  | none => simp
  | some since => simp

/-- What comes past the ETag cache is answered `304` if it can be compared. -/
theorem lookup_of_asksAgain (he : cfg.frontend.etag = 1) (hx : x.Healthy)
    (hv : x.valueOf k = some v) (hq : AsksAgain env cfg k (etagText v.timestamp) q) :
    (∃ r y, lookup env cfg q k x = some (r, y) ∧ r.status = EVHTP_RES_NOTMOD) ↔
      Comparable env q v.timestamp := by
  obtain ⟨hok, hval⟩ := XDataBase.get_of_valueOf hx hv
  have hmatch : (noneMatch env cfg q v.timestamp).1 = true := by
    rw [noneMatch, ifNoneMatchHeader_of_asksAgain he hq]
    simp only [strnicmpEq_self]
  rw [← modifiedSince_isSome]
  cases hmod : modifiedSince env q v.timestamp with
  | none =>
      refine iff_of_false ?_ Bool.false_ne_true
      rintro ⟨r, y, hl, -⟩
      rw [lookup, answer, if_neg (by rw [hok]; exact RetCode.noConfusion)] at hl
      simp only [hok, hval, if_true, hmod] at hl
      cases hl
  | some modified =>
      refine iff_of_true ?_ rfl
      rw [← hval] at hmod hmatch
      refine ⟨_, _, lookup_of_ok hok hmod, ?_⟩
      rw [hmatch, Bool.or_true, if_pos rfl]

/-- **A request that returns the `ETag` of the value** is answered `304` by the ETag cache, or if it
can be compared with the time of the value. -/
theorem notModified_iff (he : cfg.frontend.etag = 1) (hx : x.Healthy) (hv : x.valueOf k = some v)
    (hq : AsksAgain env cfg k (etagText v.timestamp) q) :
    NotModified env cfg q x ↔
      CacheHas env x k (etagText v.timestamp) ∨ Comparable env q v.timestamp := by
  have hlen : 2 ≤ (cstr (etagText v.timestamp)).length := by
    rw [cstr_etagText]
    exact Nat.le_of_succ_le (length_etagText v.timestamp)
  obtain ⟨n, hn⟩ := Option.isSome_iff_exists.mp ((ifNoneMatchTime_isSome_iff _).mpr hlen)
  have hearly : earlyNotModified env cfg q k x = some (x.checkEtag env.setup k (u64 n)) := by
    rw [earlyNotModified, ifNoneMatchHeader_of_asksAgain he hq]
    simp only [hn, Option.map_some]
  have hcache : CacheHas env x k (etagText v.timestamp) ↔
      (x.checkEtag env.setup k (u64 n)).1 = true := by
    rw [CacheHas, hn, XDataBase.checkEtag_eq_true]
    simp
  rw [NotModified, frontend, hq.key, getCallbackPro, if_neg (not_not_intro hq.method), hearly,
    Option.bind_some, hcache]
  cases hhit : (x.checkEtag env.setup k (u64 n)).1 with
  | true => exact iff_of_true ⟨_, _, rfl, rfl⟩ (Or.inl rfl)
  | false =>
      rw [if_neg Bool.false_ne_true]
      have hy : (x.checkEtag env.setup k (u64 n)).2.Healthy := hx
      simp only [Bool.false_eq_true, false_or]
      exact lookup_of_asksAgain he hy hv hq

/-- **An answer can be asked for again** exactly if the request had an `If-None-Match`, and every
request that returns its `ETag` finds it in the ETag cache or can be compared. -/
theorem revalidable_iff (he : cfg.frontend.etag = 1) (hx : s.redis.xdb.Healthy)
    (hv : s.redis.xdb.valueOf (frontKey cfg req) = some v)
    (hr : (frontend env cfg req s.redis.xdb).map (·.1) = some r) (hok : r.status = EVHTP_RES_OK) :
    Revalidable env cfg s req r ↔
      (env.headerFind req.headersIn (ascii "If-None-Match")).isSome = true ∧
        ∀ ts, Along (trafficStep env cfg) (fun s t => ¬ t.Touches env cfg (frontKey cfg req) s)
            (trafficStep env cfg s (.frontend req)).2 ts →
          ∀ q, AsksAgain env cfg (frontKey cfg req) (etagText v.timestamp) q →
            CacheHas env (run (trafficStep env cfg) s (.frontend req :: ts)).2.redis.xdb
                (frontKey cfg req) (etagText v.timestamp) ∨ Comparable env q v.timestamp := by
  have hheader : ifNoneMatchHeader env cfg req =
      env.headerFind req.headersIn (ascii "If-None-Match") := if_pos he
  obtain ⟨⟨r', y⟩, hf, rfl⟩ := Option.map_eq_some_iff.mp hr
  have hetag := etag_of_ok hx hv ⟨y, hf⟩ hok
  rw [hheader] at hetag
  -- the value stays until it is touched, so each later request finds it
  have hlater : ∀ ts,
      Along (trafficStep env cfg) (fun s t => ¬ t.Touches env cfg (frontKey cfg req) s)
        (trafficStep env cfg s (.frontend req)).2 ts →
      ∀ q, AsksAgain env cfg (frontKey cfg req) (etagText v.timestamp) q →
        (NotModified env cfg q (run (trafficStep env cfg) s (.frontend req :: ts)).2.redis.xdb ↔
          CacheHas env (run (trafficStep env cfg) s (.frontend req :: ts)).2.redis.xdb
            (frontKey cfg req) (etagText v.timestamp) ∨ Comparable env q v.timestamp) := by
    intro ts hts q hq
    have hleaves : Leaves (frontKey cfg req) s.redis.xdb
        (run (trafficStep env cfg) s (.frontend req :: ts)).2.redis.xdb :=
      leaves_traffic hx ⟨not_false, hts⟩
    refine notModified_iff he hleaves.healthy ?_ hq
    rw [XDataBase.valueOf, hleaves.valueRow]
    exact hv
  constructor
  · rintro ⟨e, hmem, hagain⟩
    obtain ⟨hsome, rfl⟩ := (hetag e).mp hmem
    exact ⟨hsome, fun ts hts q hq => (hlater ts hts q hq).mp (hagain ts hts q hq)⟩
  · rintro ⟨hsome, hagain⟩
    exact ⟨_, (hetag _).mpr ⟨hsome, rfl⟩,
      fun ts hts q hq => (hlater ts hts q hq).mpr (hagain ts hts q hq)⟩

/-- A server that was given a value of `k` at 1. -/
def servingK : ServerState :=
  (step plainEnv {} freshServer (.redis 1 [ascii "SET", ascii "k", ascii "v"])).2

/-- A client that sends any `If-None-Match` is given the `ETag`, and can ask again. -/
theorem revalidable_given_etag :
    let req := getWith (ascii "/k") (ascii "If-None-Match") (ascii "\"0\"")
    let r := sendHttpResphone [(ascii "ETag", ascii "\"1\""),
      (ascii "Content-Type", ascii "text/plain")] (ascii "v")
    (frontend plainFront etagCfg req servingK.redis.xdb).map (·.1) = some r ∧
      Revalidable plainFront etagCfg servingK req r := by
  intro req r
  have hr : (frontend plainFront etagCfg req servingK.redis.xdb).map (·.1) = some r := by decide
  have hv : servingK.redis.xdb.valueOf (frontKey etagCfg req) = some ⟨1, ascii "v"⟩ := by decide
  have hx : servingK.redis.xdb.Healthy := rfl
  have htime : (lastModified plainFront 1).isSome = true := by decide
  refine ⟨hr, (revalidable_iff rfl hx hv hr rfl).mpr ⟨by decide, fun ts _ q _ => ?_⟩⟩
  exact Or.inr (Or.inr htime)

/-- A client that fetches `k` for the first time is given no `ETag`. -/
theorem first_fetch_without_etag :
    let req : EvhtpRequest := { method := .get, full := ascii "/k" }
    let r := sendHttpResphone [(ascii "Content-Type", ascii "text/plain")] (ascii "v")
    (frontend plainFront etagCfg req servingK.redis.xdb).map (·.1) = some r ∧
      r.status = EVHTP_RES_OK ∧ ¬ Revalidable plainFront etagCfg servingK req r := by
  intro req r
  refine ⟨by decide, rfl, ?_⟩
  rintro ⟨e, he, -⟩
  have hname : ascii "ETag" ∈ r.headersOut.map (·.1) := List.mem_map_of_mem he
  exact absurd hname (by decide)

end XHttpCache
