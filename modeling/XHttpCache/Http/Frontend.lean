import XHttpCache.Http.Backend
import XHttpCache.Store.Etag

/-!
# Http — the frontend

`src/xevHtpdFrontend.cpp`: a `GET` of a key, or of `index.html` for one of the `default_index`
paths.  A request may carry the validators of an earlier answer, `If-None-Match` with its `ETag`
(the time of the value in milliseconds) and `If-Modified-Since` with its `Last-Modified` (the same
time in seconds, as text).  The ETag cache is asked first (`earlyNotModified`), and what it does not
have is compared with the value in the database (`answer`).

An answer is missing where C++ leaves the behaviour open: an `If-None-Match` of fewer than two
bytes, from whose text the first and the last are erased, and a time that `asctime` cannot write.

* `eq_of_etagText_isPrefix`, `secondOf_eq_of_lastModified`: the text of one time starts with that
  of another only if the two are the same millisecond, or the same second.
* `getCallbackPro_unconditional`: what is sent to a request without validators.
-/

namespace XHttpCache
open Support

/-! ### What other code does -/

/-- What other code does for the frontend. -/
structure FrontEnv extends Env where
  /-- A single header is found by its name, in any case. -/
  headerFind_singleton : ∀ key val name,
    headerFind [(key, val)] name = if strcasecmpEq key name then some val else none
  /-- The hash function and the sizes of the ETag manager. -/
  setup : EtagSetup
  /-- `asctime(gmtime(&t))`, for the times that it is defined for. -/
  asctime : Int → Option Bytes
  /-- It has 25 characters, the last of which is a newline. -/
  length_asctime : ∀ t text, asctime t = some text → text.length = 25
  getLast_asctime : ∀ t text, asctime t = some text → text.getLast? = some 10
  ne_zero_asctime : ∀ t text, asctime t = some text → ∀ c ∈ text, c ≠ 0
  /-- It tells any two seconds apart, whatever the case of its letters. -/
  asctime_inj : ∀ t text t' text', asctime t = some text → asctime t' = some text' →
    text.map tolower = text'.map tolower → t = t'
  /-- zlib: the gzip stream of the data, if it has no more bytes than the data. -/
  deflate : Bytes → Option Bytes
  /-- What a `timestamp` holds that nothing was written to. -/
  uninit : Nat

def EVHTP_RES_NOTMOD : Nat := 304

/-- `strnicmp(a, b, n) == 0`. -/
def strnicmpEq (a b : Bytes) (n : Nat) : Bool :=
  ((cstr a).take n).map tolower = ((cstr b).take n).map tolower

/-! ### The validators -/

/-- `toGMT`. -/
def toGMT (env : FrontEnv) (t : Int) : Option Bytes := (env.asctime t).map List.dropLast

/-- The second that a timestamp is shown as. -/
def secondOf (timestamp : Nat) : Int := (i64 timestamp).tdiv 1000

/-- `LastModified`. -/
def lastModified (env : FrontEnv) (timestamp : Nat) : Option Bytes :=
  (toGMT env (secondOf timestamp)).map (· ++ ascii " GMT")

/-- `Etag`, in its 22 bytes. -/
def etagText (timestamp : Nat) : Bytes := snprintf 22 (34 :: decimal (i64 timestamp) ++ [34])

/-- The number that an `If-None-Match` is taken for, without its first and its last byte. -/
def ifNoneMatchTime (header : Bytes) : Option Int :=
  match (cstr header).drop 1 with
  | [] => none
  | c :: text => some (strToInt64 (c :: text).dropLast)

section Handlers

variable (env : FrontEnv) (cfg : XConfig) (req : EvhtpRequest) (uri : Bytes)

/-- `If_None_Match`, which is looked at when `etag` is on. -/
def ifNoneMatchHeader : Option Bytes :=
  if cfg.frontend.etag = 1 then env.headerFind req.headersIn (ascii "If-None-Match") else none

/-- `If_Modified_Since`. -/
def ifModifiedSinceHeader : Option Bytes :=
  env.headerFind req.headersIn (ascii "If-Modified-Since")

/-- `Modified`, and the header that goes with it. -/
def modifiedSince (timestamp : Nat) : Option (Bool × List (Bytes × Bytes)) :=
  match ifModifiedSinceHeader env req with
  | none => some (false, [])
  | some since => (lastModified env timestamp).map fun text =>
      (strnicmpEq since text text.length, [(ascii "Last-Modified", text)])

/-- `etag`, and the header that goes with it. -/
def noneMatch (timestamp : Nat) : Bool × List (Bytes × Bytes) :=
  match ifNoneMatchHeader env cfg req with
  | none => (false, [])
  | some header =>
      (strnicmpEq (etagText timestamp) header (etagText timestamp).length,
        [(ascii "ETag", etagText timestamp)])

/-! ### The answer -/

/-- `gzcompress`, into a buffer as long as the data.  `avail_in` has 32 bits. -/
def gzcompress (data : Bytes) : Option Bytes :=
  if data.length % 2 ^ 32 = 0 then none else env.deflate (data.take (data.length % 2 ^ 32))

/-- The value is sent, after the headers `hs`.  The length of a compressed one is passed on as an
`int`, and a negative one is refused. -/
def sendValue (hs : List (Bytes × Bytes)) (value : Bytes) : Response :=
  let hs := hs ++ [(ascii "Content-Type", guessContentType uri)]
  if cfg.frontend.gzip = 1 then
    match gzcompress env value with
    | none => sendHttpResphone hs value
    | some buf => sendHttpResphone (hs ++ [(ascii "Content-Encoding", ascii "gzip")])
        (buf.take (i32 buf.length).toNat)
  else sendHttpResphone hs value

/-- `GetCallbackPro` from `Get` on. -/
def answer (ret : RetCode) (value : XValue) : Option Response :=
  if ret = .null then some (sendStatusResphone [] EVHTP_RES_NOTFOUND (ascii "NOT FOUND"))
  else
    -- an error is not told apart, and leaves `timestamp` as it was
    let timestamp := if ret = .ok then value.timestamp else env.uninit
    (modifiedSince env req timestamp).map fun modified =>
      let etag := noneMatch env cfg req timestamp
      if modified.1 || etag.1 then
        { status := EVHTP_RES_NOTMOD, headersOut := modified.2 ++ etag.2 }
      else sendValue env cfg uri (modified.2 ++ etag.2) value.strValue

/-- The value is looked up and the answer made from it. -/
def lookup (x : XDataBase) : Option (Response × XDataBase) :=
  (answer env cfg req uri (x.get uri).1 (x.get uri).2.1).map fun response =>
    (response, (x.get uri).2.2)

/-- Whether the ETag cache has what `If-None-Match` names. -/
def earlyNotModified (x : XDataBase) : Option (Bool × XDataBase) :=
  match ifNoneMatchHeader env cfg req with
  | none => some (false, x)
  | some header => (ifNoneMatchTime header).map fun t => x.checkEtag env.setup uri (u64 t)

/-- `GetCallbackPro`. -/
def getCallbackPro (x : XDataBase) : Option (Response × XDataBase) :=
  if req.method ≠ .get then some (sendStatusResphone [] EVHTP_RES_BADREQ (ascii "error"), x)
  else
    (earlyNotModified env cfg req uri x).bind fun early =>
      if early.1 then some ({ status := EVHTP_RES_NOTMOD }, early.2)
      else lookup env cfg req uri early.2

/-- `str2Vect`, with the separator `|`: what stands between separators, if anything does. -/
def str2Vect (src : Bytes) : List Bytes := ((cstr src).splitOn 124).filter (· ≠ [])

/-- The key of a request: `IndexCallback` for the `default_index` paths, `GetCallback` for the
others. -/
def frontKey : Bytes :=
  if req.full ∈ str2Vect cfg.frontend.defaultIndex then ascii "index.html" else uriKey req

/-- A request to the frontend. -/
def frontend (x : XDataBase) : Option (Response × XDataBase) :=
  getCallbackPro env cfg req (frontKey cfg req) x

end Handlers

/-- The first and the last byte can be erased from a text of two bytes or more. -/
theorem ifNoneMatchTime_isSome_iff (header : Bytes) :
    (ifNoneMatchTime header).isSome = true ↔ 2 ≤ (cstr header).length := by
  rw [ifNoneMatchTime]
  cases hdrop : (cstr header).drop 1 with
  | nil =>
      have hlen := List.drop_eq_nil_iff.mp hdrop
      exact iff_of_false Bool.false_ne_true (by omega)
  | cons c text =>
      have hlen := congrArg List.length hdrop
      rw [List.length_drop, List.length_cons] at hlen
      exact iff_of_true rfl (by omega)

/-! ### The text of a time in milliseconds -/

theorem tolower_eq_iff {c d : Byte} (hd : d < 65) : tolower c = d ↔ c = d := by
  unfold tolower
  split_ifs with hc
  · have h65 : (65 : Nat) ≤ c.val := hc.1
    have h90 : c.val ≤ 90 := hc.2
    have hdv : d.val < 65 := hd
    refine iff_of_false (fun h => ?_) (fun h => ?_)
    · have hval : (c.val + 32) % 256 = d.val := congrArg Fin.val h
      omega
    · rw [h] at h65
      omega
  · exact Iff.rfl

/-- A text without letters is the same in any case as itself only. -/
theorem map_tolower_eq_iff : ∀ {s t : Bytes}, (∀ c ∈ t, c < 65) →
    (s.map tolower = t ↔ s = t)
  | [], [], _ => Iff.rfl
  | [], _ :: _, _ => by simp
  | _ :: _, [], _ => by simp
  | c :: s, d :: t, h => by
      rw [List.map_cons, List.cons.injEq, List.cons.injEq,
        tolower_eq_iff (h d List.mem_cons_self),
        map_tolower_eq_iff fun c hc => h c (List.mem_cons_of_mem _ hc)]

theorem of_mem_decimal {v : Int} {c : Byte} (h : c ∈ decimal v) : c ≠ 0 ∧ c ≠ 34 ∧ c < 65 := by
  rcases isdigit_or_of_mem_decimal h with rfl | hc
  · decide
  · rw [isdigit, Bool.and_eq_true, decide_eq_true_eq, decide_eq_true_eq] at hc
    refine ⟨?_, ?_, lt_of_le_of_lt hc.2 (by decide)⟩
    · rintro rfl
      exact absurd hc.1 (by decide)
    · rintro rfl
      exact absurd hc.1 (by decide)

theorem of_mem_etagText {t : Nat} {c : Byte} (h : c ∈ etagText t) : c ≠ 0 ∧ c < 65 := by
  have hc := List.mem_of_mem_take h
  rw [List.cons_append, List.mem_cons, List.mem_append, List.mem_singleton] at hc
  rcases hc with rfl | hc | rfl
  · decide
  · exact ⟨(of_mem_decimal hc).1, (of_mem_decimal hc).2.2⟩
  · decide

/-- **A header matches the ETag exactly if it starts with it.** -/
theorem strnicmpEq_etagText {t : Nat} {header : Bytes} :
    strnicmpEq (etagText t) header (etagText t).length = true ↔ etagText t <+: cstr header := by
  have hlow : (etagText t).map tolower = etagText t :=
    (map_tolower_eq_iff fun c hc => (of_mem_etagText hc).2).mpr rfl
  rw [strnicmpEq, cstr_of_ne_zero fun c hc => (of_mem_etagText hc).1, List.take_length, hlow,
    decide_eq_true_iff, eq_comm, map_tolower_eq_iff fun c hc => (of_mem_etagText hc).2,
    List.prefix_iff_eq_take, eq_comm]

theorem etagText_eq (t : Nat) : etagText t = 34 :: (decimal (i64 t) ++ [34]).take 20 := by
  rw [etagText, snprintf, List.cons_append, List.take_succ_cons]

/-- The number stands before the second quotation mark, where there is room for one. -/
theorem takeWhile_etagText (t : Nat) :
    ((decimal (i64 t) ++ [34]).take 20).takeWhile (· ≠ 34) = decimal (i64 t) := by
  have hlen := length_decimal_le (i64_isI64 t)
  have hall : ∀ c ∈ decimal (i64 t), decide (c ≠ 34) = true := fun c hc =>
    decide_eq_true (of_mem_decimal hc).2.1
  rw [List.take_append, List.take_of_length_le hlen, List.takeWhile_append_of_pos hall]
  cases 20 - (decimal (i64 t)).length with
  | zero => simp
  | succ n => simp

/-- **The ETag of one time starts with that of another** only if they are the same. -/
theorem eq_of_etagText_isPrefix {t t' : Nat} (ht : t < 2 ^ 64) (ht' : t' < 2 ^ 64)
    (h : etagText t <+: etagText t') : t = t' := by
  rw [etagText_eq, etagText_eq, List.cons_prefix_cons] at h
  obtain ⟨rest, hrest⟩ := h.2
  have hlen := length_decimal_le (i64_isI64 t)
  have hlen' := length_decimal_le (i64_isI64 t')
  have hdec : decimal (i64 t) = decimal (i64 t') := by
    have hw := takeWhile_etagText t'
    rw [← hrest] at hw
    by_cases hfull : (decimal (i64 t)).length = 20
    · -- there is no room for the second quotation mark
      have hcut : (decimal (i64 t) ++ [34]).take 20 = decimal (i64 t) := by
        rw [← hfull, List.take_left]
      rw [hcut, List.takeWhile_append_of_pos fun c hc => decide_eq_true (of_mem_decimal hc).2.1]
        at hw
      have hnil : rest.takeWhile (· ≠ 34) = [] := by
        refine List.eq_nil_of_length_eq_zero ?_
        have := congrArg List.length hw
        rw [List.length_append] at this
        omega
      rw [hnil, List.append_nil] at hw
      exact hw
    · rw [List.take_of_length_le (by rw [List.length_append, List.length_singleton]; omega),
        List.append_assoc,
        List.takeWhile_append_of_pos fun c hc => decide_eq_true (of_mem_decimal hc).2.1] at hw
      simpa using hw
  have hi := decimal_inj (i64_isI64 t) (i64_isI64 t') hdec
  simp only [i64, Int.bmod_def] at hi
  omega

/-! ### The text of a time in seconds -/

variable {env : FrontEnv} {cfg : XConfig} {req : EvhtpRequest} {uri : Bytes} {x : XDataBase}

theorem lastModified_eq_some {t : Nat} {text : Bytes} (h : lastModified env t = some text) :
    ∃ gmt, env.asctime (secondOf t) = some (gmt ++ [10]) ∧ text = gmt ++ ascii " GMT" ∧
      gmt.length = 24 ∧ ∀ c ∈ text, c ≠ 0 := by
  rw [lastModified, toGMT, Option.map_map, Option.map_eq_some_iff] at h
  obtain ⟨asc, hasc, rfl⟩ := h
  have hz : ∀ c ∈ ascii " GMT", c ≠ 0 := by decide +kernel
  have hsplit := List.dropLast_append_getLast? 10 (env.getLast_asctime _ _ hasc)
  have hlen := env.length_asctime _ _ hasc
  refine ⟨asc.dropLast, by rw [hsplit, hasc], rfl, by rw [List.length_dropLast, hlen], ?_⟩
  intro c hc
  rcases List.mem_append.mp hc with hc | hc
  · exact env.ne_zero_asctime _ _ hasc c (List.mem_of_mem_dropLast hc)
  · exact hz c hc

/-- **Two times are shown by one text** only if they are in the same second. -/
theorem secondOf_eq_of_lastModified {t t' : Nat} {text text' : Bytes}
    (h : lastModified env t = some text) (h' : lastModified env t' = some text')
    (heq : strnicmpEq text' text text.length = true) : secondOf t = secondOf t' := by
  obtain ⟨gmt, hasc, rfl, hlen, hz⟩ := lastModified_eq_some h
  obtain ⟨gmt', hasc', rfl, hlen', hz'⟩ := lastModified_eq_some h'
  have heq := of_decide_eq_true heq
  rw [cstr_of_ne_zero hz, cstr_of_ne_zero hz', List.take_length,
    List.take_of_length_le (by simp [hlen, hlen']), List.map_append, List.map_append] at heq
  have hgmt : gmt.map tolower = gmt'.map tolower := (List.append_cancel_right heq).symm
  exact env.asctime_inj _ _ _ _ hasc hasc' (by rw [List.map_append, List.map_append, hgmt])

theorem strnicmpEq_self (s : Bytes) : strnicmpEq s s s.length = true := decide_eq_true rfl

/-! ### What is answered -/

/-- **Where `Get` succeeds**, either validator alone makes the answer a `304`. -/
theorem lookup_of_ok {modified : Bool × List (Bytes × Bytes)} (hok : (x.get uri).1 = .ok)
    (hmod : modifiedSince env req (x.get uri).2.1.timestamp = some modified) :
    lookup env cfg req uri x =
      some (if modified.1 || (noneMatch env cfg req (x.get uri).2.1.timestamp).1 then
          { status := EVHTP_RES_NOTMOD
            headersOut := modified.2 ++ (noneMatch env cfg req (x.get uri).2.1.timestamp).2 }
        else sendValue env cfg uri
          (modified.2 ++ (noneMatch env cfg req (x.get uri).2.1.timestamp).2)
          (x.get uri).2.1.strValue, (x.get uri).2.2) := by
  have hnull : ¬ (x.get uri).1 = .null := by
    rw [hok]
    exact RetCode.noConfusion
  rw [lookup, answer, if_neg hnull]
  simp only [hok, if_true, hmod, Option.map_some]

/-- The ETag cache is asked beside the rows. -/
theorem earlyNotModified_db {early : Bool × XDataBase}
    (h : earlyNotModified env cfg req uri x = some early) : early.2.db = x.db := by
  rw [earlyNotModified] at h
  split at h
  · cases h
    rfl
  · obtain ⟨n, -, rfl⟩ := Option.map_eq_some_iff.mp h
    rfl

/-- A request changes at most what the ETag manager has heard, and reads a value. -/
theorem frontend_state {r : Response} {y : XDataBase}
    (h : frontend env cfg req x = some (r, y)) :
    ∃ x', x'.db = x.db ∧ (y = x' ∨ y = (x'.get (frontKey cfg req)).2.2) := by
  rw [frontend, getCallbackPro] at h
  split_ifs at h
  · cases h
    exact ⟨x, rfl, Or.inl rfl⟩
  · obtain ⟨early, he, hl⟩ := Option.bind_eq_some_iff.mp h
    refine ⟨early.2, earlyNotModified_db he, ?_⟩
    split_ifs at hl
    · cases hl
      exact Or.inl rfl
    · obtain ⟨_, -, heq⟩ := Option.map_eq_some_iff.mp hl
      exact Or.inr (Prod.mk.inj heq).2.symm

/-! ### Requests without validators -/

theorem noneMatch_none (h : ifNoneMatchHeader env cfg req = none) (t : Nat) :
    noneMatch env cfg req t = (false, []) := by
  rw [noneMatch, h]

theorem modifiedSince_none (h : ifModifiedSinceHeader env req = none) (t : Nat) :
    modifiedSince env req t = some (false, []) := by
  rw [modifiedSince, h]

theorem earlyNotModified_none (h : ifNoneMatchHeader env cfg req = none) (uri : Bytes)
    (x : XDataBase) : earlyNotModified env cfg req uri x = some (false, x) := by
  rw [earlyNotModified, h]

/-- **Without validators**, what is sent is the value, or that there is none. -/
theorem getCallbackPro_unconditional (hm : req.method = .get)
    (hn : ifNoneMatchHeader env cfg req = none) (hs : ifModifiedSinceHeader env req = none)
    (uri : Bytes) (x : XDataBase) :
    getCallbackPro env cfg req uri x =
      some (if (x.get uri).1 = .null then
          sendStatusResphone [] EVHTP_RES_NOTFOUND (ascii "NOT FOUND")
        else sendValue env cfg uri [] (x.get uri).2.1.strValue, (x.get uri).2.2) := by
  rw [getCallbackPro, if_neg (not_not_intro hm), earlyNotModified_none hn]
  simp only [Option.bind_some, Bool.false_eq_true, if_false, lookup, answer,
    modifiedSince_none hs, noneMatch_none hn]
  by_cases hnull : (x.get uri).1 = .null
  · rw [if_pos hnull, if_pos hnull]
    rfl
  · rw [if_neg hnull, if_neg hnull]
    rfl

theorem sendValue_plain (h : cfg.frontend.gzip ≠ 1) (hs : List (Bytes × Bytes)) (value : Bytes) :
    sendValue env cfg uri hs value =
      sendHttpResphone (hs ++ [(ascii "Content-Type", guessContentType uri)]) value := by
  rw [sendValue, if_neg h]

theorem status_sendValue (hs : List (Bytes × Bytes)) (value : Bytes) :
    (sendValue env cfg uri hs value).status = EVHTP_RES_OK := by
  rw [sendValue]
  split_ifs
  · cases gzcompress env value <;> rfl
  · rfl

/-! ### A small environment -/

/-- The text of the first second of all. -/
def epochText : Bytes := ascii "Thu Jan  1 00:00:00 1970" ++ [10]

theorem plainEnv_headerFind_singleton (key val name : Bytes) :
    plainEnv.headerFind [(key, val)] name = if strcasecmpEq key name then some val else none := by
  change Option.map _ (List.find? _ [(key, val)]) = _
  rw [List.find?_singleton]
  split_ifs <;> rfl

/-- Plain requests, a hash that tells short keys apart, and one second of time. -/
def plainFront : FrontEnv where
  toEnv := plainEnv
  headerFind_singleton := plainEnv_headerFind_singleton
  setup := { hash := fun key => key.foldl (fun h c => h * 256 + c.val) 0, cnt := 2, size := 2 }
  asctime t := if t = 0 then some epochText else none
  length_asctime t text h := by
    split_ifs at h
    rw [← Option.some.inj h]
    decide
  getLast_asctime t text h := by
    split_ifs at h
    rw [← Option.some.inj h]
    decide
  ne_zero_asctime t text h := by
    split_ifs at h
    rw [← Option.some.inj h]
    decide +kernel
  asctime_inj t text t' text' h h' _ := by
    split_ifs at h h' with ht ht'
    rw [ht, ht']
  deflate _ := none
  uninit := 0

end XHttpCache
