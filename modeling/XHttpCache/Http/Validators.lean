import XHttpCache.Http.Frontend
import XHttpCache.Support.Runs

/-!
# Http — what a `304` says about the value

A client that holds a value sends back the validators it came with.  `304` tells it that the value
is still the one stored, and the validators are the time of the last `Set`: in milliseconds, and in
seconds.  Either one is enough for a `304`, so the value may be another one that was set in the same
second, although its `ETag` is not the one the client sent.

The database is set up as `main` does it, with an ETag manager that hears of nothing (`EtagsOff`).

* `Holds.step`, `Holds.run`: requests change nothing, and what is stored is what the last write
  left.
* `frontend_of_holds`: the answer, from the value that is stored.
* `never_hides_iff`: no `304` hides a change, whatever requests come in between, exactly if any two
  values that are set in the same second (that has a text) or millisecond are equal.
-/

namespace XHttpCache
open Support

/-! ### A manager that hears of nothing -/

namespace XDataBase

/-- The manager is only ever asked, as after `SetEtag(etag)`. -/
structure EtagsOff (x : XDataBase) : Prop where
  off : x.bEtag = false
  asked : ∀ c ∈ x.xEtag, ∃ key t, c = .getKey key t

variable {x : XDataBase} {setup : EtagSetup} {key k : Bytes} {t : Nat}

theorem EtagsOff.not_cached (h : x.EtagsOff) : ¬ x.Cached setup k t := by
  suffices hs : ∀ (calls : List EtagCall) (m : XEtagManager), (∀ a, ¬ m.Holds a) →
      (∀ c ∈ calls, ∃ key t, c = EtagCall.getKey key t) →
      ∀ a, ¬ (calls.foldl (EtagCall.apply setup) m).Holds a from
    hs x.xEtag _ (XEtagManager.not_holds_init setup) h.asked _
  intro calls
  induction calls with
  | nil => exact fun m hm _ => hm
  | cons c calls ih =>
      intro m hm hc
      obtain ⟨key, t, rfl⟩ := hc c List.mem_cons_self
      refine ih _ (fun a ha => hm a (XEtagManager.holds_getKey ha)) fun c hc' => ?_
      exact hc c (List.mem_cons_of_mem _ hc')

theorem EtagsOff.recordEtag (h : x.EtagsOff) (key : Bytes) (t : Nat) :
    (x.recordEtag key t).EtagsOff := by
  rw [XDataBase.recordEtag, if_neg (by rw [h.off]; exact Bool.false_ne_true)]
  exact h

theorem EtagsOff.withDb (h : x.EtagsOff) (db : RocksDB) : { x with db := db }.EtagsOff :=
  ⟨h.off, h.asked⟩

theorem EtagsOff.set (h : x.EtagsOff) (now : Int) (key val : Bytes) :
    (x.set now key val).2.EtagsOff := by
  rw [XDataBase.set]
  split
  · exact (h.withDb _).recordEtag key _
  · exact h.withDb _

theorem EtagsOff.get (h : x.EtagsOff) (key : Bytes) : (x.get key).2.2.EtagsOff := by
  rw [XDataBase.get]
  split
  · exact h.withDb _
  · exact h.withDb _
  · exact (h.withDb _).recordEtag key _

theorem EtagsOff.del (h : x.EtagsOff) (key : Bytes) : (x.del key).2.EtagsOff := by
  rw [XDataBase.del]
  split <;> exact h.withDb _

theorem EtagsOff.checkEtag (h : x.EtagsOff) (key : Bytes) (t : Nat) :
    (x.checkEtag setup key t).2.EtagsOff := by
  refine ⟨h.off, fun c hc => ?_⟩
  rcases List.mem_append.mp hc with hc | hc
  · exact h.asked c hc
  · exact ⟨key, t, List.mem_singleton.mp hc⟩

end XDataBase

/-! ### Histories of a key -/

/-- A write of the key. -/
inductive KeyWrite where
  | set (now : Int) (val : Bytes)
  | del

/-- What a write leaves. -/
def KeyWrite.value : KeyWrite → Option XValue
  | .set now val => some ⟨getCurrentTime now, val⟩
  | .del => none

/-- What a history leaves of `v`. -/
def held (v : Option XValue) (ws : List KeyWrite) : Option XValue :=
  ws.foldl (fun _ w => w.value) v

theorem held_concat (v : Option XValue) (ws : List KeyWrite) (w : KeyWrite) :
    held v (ws ++ [w]) = w.value := List.foldl_append

/-- A value that is left was there, or was written. -/
theorem mem_of_held {ws : List KeyWrite} {v : Option XValue} {xv : XValue}
    (h : held v ws = some xv) : v = some xv ∨ ∃ w ∈ ws, w.value = some xv := by
  induction ws generalizing v with
  | nil => exact Or.inl h
  | cons w ws ih =>
      rcases ih h with hw | ⟨w', hw', hv⟩
      · exact Or.inr ⟨w, List.mem_cons_self, hw⟩
      · exact Or.inr ⟨w', List.mem_cons_of_mem _ hw', hv⟩

/-- A write of the key, or a request to the frontend. -/
inductive KeyEvent where
  | write (w : KeyWrite)
  | request (req : EvhtpRequest)

def KeyEvent.written : KeyEvent → Option KeyWrite
  | .write w => some w
  | .request _ => none

/-- The history of the key. -/
def writes (es : List KeyEvent) : List KeyWrite := es.filterMap KeyEvent.written

theorem writes_map (ws : List KeyWrite) : writes (ws.map .write) = ws := by
  rw [writes, List.filterMap_map]
  exact List.filterMap_some

theorem writes_request (es es' : List KeyEvent) (req : EvhtpRequest) :
    writes (es ++ .request req :: es') = writes es ++ writes es' := by
  rw [writes, List.filterMap_append]
  rfl

section Machine

variable (env : FrontEnv) (cfg : XConfig) (key : Bytes)

/-- The database after an event.  A request whose answer is open leaves it as it was. -/
def keyStep (x : XDataBase) : KeyEvent → Unit × XDataBase
  | .write (.set now val) => ((), (x.set now key val).2)
  | .write .del => ((), (x.del key).2)
  | .request req => ((), ((frontend env cfg req x).map (·.2)).getD x)

/-- The database holds `v` under the key, and answers every call. -/
structure Holds (x : XDataBase) (v : Option XValue) : Prop where
  healthy : x.Healthy
  etagsOff : x.EtagsOff
  valueOf : x.valueOf key = v

variable {env cfg key} {x y : XDataBase} {v : Option XValue} {req : EvhtpRequest} {r : Response}

theorem Holds.get (h : Holds key x v) (k : Bytes) : Holds key (x.get k).2.2 v :=
  ⟨XDataBase.healthy_of_db (XDataBase.get_spec h.healthy k).2.2, h.etagsOff.get k, by
    rw [XDataBase.valueOf_get h.healthy, h.valueOf]⟩

theorem Holds.checkEtag (h : Holds key x v) (k : Bytes) (t : Nat) :
    Holds key (x.checkEtag env.setup k t).2 v :=
  ⟨h.healthy, h.etagsOff.checkEtag k t, h.valueOf⟩

/-- The ETag cache never answers. -/
theorem Holds.early (h : Holds key x v) {uri : Bytes} {early : Bool × XDataBase}
    (he : earlyNotModified env cfg req uri x = some early) :
    early.1 = false ∧ Holds key early.2 v := by
  rw [earlyNotModified] at he
  cases hh : ifNoneMatchHeader env cfg req with
  | none =>
      rw [hh] at he
      cases he
      exact ⟨rfl, h⟩
  | some header =>
      rw [hh] at he
      obtain ⟨n, -, rfl⟩ := Option.map_eq_some_iff.mp he
      refine ⟨?_, h.checkEtag uri (u64 n)⟩
      rw [Bool.eq_false_iff]
      exact fun hc => h.etagsOff.not_cached (XDataBase.checkEtag_eq_true.mp hc)

/-- A request is turned down, or goes by `Get` in a database that holds the same. -/
theorem Holds.frontend (h : Holds key x v) (hf : frontend env cfg req x = some (r, y)) :
    (r.status = EVHTP_RES_BADREQ ∧ y = x) ∨
      ∃ x', Holds key x' v ∧ lookup env cfg req (frontKey cfg req) x' = some (r, y) := by
  rw [XHttpCache.frontend, getCallbackPro] at hf
  split_ifs at hf
  · cases hf
    exact Or.inl ⟨rfl, rfl⟩
  · obtain ⟨early, he, hl⟩ := Option.bind_eq_some_iff.mp hf
    obtain ⟨hfalse, hx'⟩ := h.early he
    rw [hfalse] at hl
    exact Or.inr ⟨early.2, hx', hl⟩

/-- A request leaves what is stored. -/
theorem Holds.request (h : Holds key x v) (req : EvhtpRequest) :
    Holds key (keyStep env cfg key x (.request req)).2 v := by
  cases hf : XHttpCache.frontend env cfg req x with
  | none =>
      rw [keyStep, hf]
      exact h
  | some ry =>
      obtain ⟨r, y⟩ := ry
      rw [keyStep, hf]
      change Holds key y v
      rcases h.frontend hf with ⟨-, rfl⟩ | ⟨x', hx', hl⟩
      · exact h
      · obtain ⟨_, -, heq⟩ := Option.map_eq_some_iff.mp hl
        rw [← (Prod.mk.inj heq).2]
        exact hx'.get _

theorem Holds.write (h : Holds key x v) (w : KeyWrite) :
    Holds key (keyStep env cfg key x (.write w)).2 w.value := by
  cases w with
  | set now val =>
      exact ⟨XDataBase.healthy_of_db (XDataBase.set_spec h.healthy now key val).2,
        h.etagsOff.set now key val, by
          rw [keyStep, XDataBase.valueOf_set h.healthy, if_pos rfl, KeyWrite.value]⟩
  | del =>
      exact ⟨XDataBase.healthy_of_db (XDataBase.del_spec h.healthy key).2, h.etagsOff.del key, by
        rw [keyStep, XDataBase.valueOf_del h.healthy, if_pos rfl, KeyWrite.value]⟩

/-- **What is stored is what the last write left.** -/
theorem Holds.run (h : Holds key x v) (es : List KeyEvent) :
    Holds key (Support.run (keyStep env cfg key) x es).2 (held v (writes es)) := by
  induction es generalizing x v with
  | nil => exact h
  | cons e es ih =>
      cases e with
      | write w => exact ih (h.write w)
      | request req => exact ih (h.request req)

/-! ### Answers -/

/-- **The answer, from the value that is stored.** -/
theorem Holds.lookup {xv : XValue} (h : Holds key x (some xv))
    {modified : Bool × List (Bytes × Bytes)}
    (hmod : modifiedSince env req xv.timestamp = some modified) :
    XHttpCache.lookup env cfg req key x =
      some (if modified.1 || (noneMatch env cfg req xv.timestamp).1 then
          { status := EVHTP_RES_NOTMOD
            headersOut := modified.2 ++ (noneMatch env cfg req xv.timestamp).2 }
        else sendValue env cfg key (modified.2 ++ (noneMatch env cfg req xv.timestamp).2)
          xv.strValue, (x.get key).2.2) := by
  obtain ⟨hok, rfl⟩ := XDataBase.get_of_valueOf h.healthy h.valueOf
  exact lookup_of_ok hok hmod

/-- An answer with the value, or `304`, is made from the value that is stored. -/
theorem Holds.answered (h : Holds key x v) (hk : frontKey cfg req = key)
    (hf : XHttpCache.frontend env cfg req x = some (r, y))
    (hr : r.status = EVHTP_RES_OK ∨ r.status = EVHTP_RES_NOTMOD) :
    ∃ xv modified, v = some xv ∧ modifiedSince env req xv.timestamp = some modified ∧
      r = if modified.1 || (noneMatch env cfg req xv.timestamp).1 then
          { status := EVHTP_RES_NOTMOD
            headersOut := modified.2 ++ (noneMatch env cfg req xv.timestamp).2 }
        else sendValue env cfg key (modified.2 ++ (noneMatch env cfg req xv.timestamp).2)
          xv.strValue := by
  rcases h.frontend hf with ⟨hbad, -⟩ | ⟨x', hx', hl⟩
  · rw [hbad] at hr
    rcases hr with hr | hr <;> cases hr
  · rw [hk] at hl
    cases v with
    | none =>
        have hnull := XDataBase.get_of_no_value hx'.healthy hx'.valueOf
        rw [XHttpCache.lookup, answer, if_pos hnull] at hl
        cases hl
        rcases hr with hr | hr <;> cases hr
    | some xv =>
        cases hmod : modifiedSince env req xv.timestamp with
        | none =>
            obtain ⟨hok, rfl⟩ := XDataBase.get_of_valueOf hx'.healthy hx'.valueOf
            rw [XHttpCache.lookup, answer, if_neg (by rw [hok]; exact RetCode.noConfusion)] at hl
            simp only [hok, if_true, hmod] at hl
            cases hl
        | some modified =>
            rw [hx'.lookup hmod] at hl
            exact ⟨xv, modified, rfl, hmod, (Prod.mk.inj (Option.some.inj hl)).1.symm⟩

end Machine

/-! ### Validators that come back -/

section Validators

variable (env : FrontEnv) (cfg : XConfig)

/-- The client has obtained `v` in the answer `r`. -/
structure Obtained (key : Bytes) (x : XDataBase) (req : EvhtpRequest) (r : Response)
    (v : Bytes) : Prop where
  key_eq : frontKey cfg req = key
  answered : ∃ y, frontend env cfg req x = some (r, y)
  ok : r.status = EVHTP_RES_OK
  valueOf : ∃ t, x.valueOf key = some ⟨t, v⟩

/-- The validators of the request are those of the answer `r`. -/
structure Returns (req : EvhtpRequest) (r : Response) : Prop where
  etag : ∀ e, ifNoneMatchHeader env cfg req = some e → (ascii "ETag", e) ∈ r.headersOut
  lastModified : ∀ s, ifModifiedSinceHeader env req = some s →
    (ascii "Last-Modified", s) ∈ r.headersOut

/-- **No `304` hides a change**: a client that has obtained a value and is told `304` for the
validators it came with holds the value that is stored. -/
def NeverHides (key : Bytes) (x : XDataBase) (es : List KeyEvent) : Prop :=
  ∀ before req mid after, es = before ++ .request req :: mid ++ after →
    ∀ r v, Obtained env cfg key (run (keyStep env cfg key) x before).2 req r v →
      ∀ req' r' y, frontKey cfg req' = key → Returns env cfg req' r →
        frontend env cfg req'
            (run (keyStep env cfg key) x (before ++ .request req :: mid)).2 = some (r', y) →
          r'.status = EVHTP_RES_NOTMOD →
            ∃ t, (run (keyStep env cfg key) x (before ++ .request req :: mid)).2.valueOf key =
              some ⟨t, v⟩

/-- The two times have the same `ETag`, or the same `Last-Modified`. -/
def SameTag (t t' : Nat) : Prop :=
  t = t' ∨ secondOf t = secondOf t' ∧ (env.asctime (secondOf t)).isSome

/-- Values that are set at times with the same tag are equal. -/
def Spaced (ws : List KeyWrite) : Prop :=
  ∀ now val now' val', .set now val ∈ ws → .set now' val' ∈ ws →
    SameTag env (getCurrentTime now) (getCurrentTime now') → val = val'

variable {env cfg} {key : Bytes} {x y : XDataBase} {req : EvhtpRequest} {r : Response}

/-- The headers that go with every value. -/
theorem headersOut_sendValue (hs : List (Bytes × Bytes)) (value : Bytes) :
    ∃ extra, (sendValue env cfg key hs value).headersOut = hs ++ extra ∧
      ∀ h ∈ extra, h.1 ∈ [ascii "Content-Type", ascii "Content-Encoding", ascii "Server"] := by
  rw [sendValue]
  split_ifs
  · cases gzcompress env value with
    | none =>
        refine ⟨_, List.append_assoc _ _ _, fun h hh => ?_⟩
        rcases List.mem_pair.mp hh with rfl | rfl <;> simp
    | some buf =>
        refine ⟨[_, _, _], by simp only [sendHttpResphone, List.append_assoc]; rfl, fun h hh => ?_⟩
        simp only [List.mem_cons, List.not_mem_nil, or_false] at hh
        rcases hh with rfl | rfl | rfl <;> simp
  · refine ⟨_, List.append_assoc _ _ _, fun h hh => ?_⟩
    rcases List.mem_pair.mp hh with rfl | rfl <;> simp

/-- None of them is a validator. -/
theorem mem_headersOut_sendValue {hs : List (Bytes × Bytes)} {value name val : Bytes}
    (hn : name ∉ [ascii "Content-Type", ascii "Content-Encoding", ascii "Server"]) :
    (name, val) ∈ (sendValue env cfg key hs value).headersOut ↔ (name, val) ∈ hs := by
  obtain ⟨extra, heq, hextra⟩ := @headersOut_sendValue env cfg key hs value
  rw [heq, List.mem_append]
  exact or_iff_left fun h => hn (hextra _ h)

/-- The headers of an answer, in which the validators show the time of the value. -/
theorem tags_of_mem {t : Nat} {modified : Bool × List (Bytes × Bytes)}
    (hmod : modifiedSince env req t = some modified) {name val : Bytes}
    (h : (name, val) ∈ modified.2 ++ (noneMatch env cfg req t).2) :
    (name = ascii "Last-Modified" ∧ lastModified env t = some val) ∨
      (name = ascii "ETag" ∧ val = etagText t) := by
  rcases List.mem_append.mp h with h | h
  · rw [modifiedSince] at hmod
    cases hi : ifModifiedSinceHeader env req with
    | none =>
        rw [hi] at hmod
        cases hmod
        cases h
    | some since =>
        rw [hi] at hmod
        obtain ⟨text, htext, rfl⟩ := Option.map_eq_some_iff.mp hmod
        obtain ⟨rfl, rfl⟩ := Prod.mk.inj (List.mem_singleton.mp h)
        exact Or.inl ⟨rfl, htext⟩
  · rw [noneMatch] at h
    cases hi : ifNoneMatchHeader env cfg req with
    | none =>
        rw [hi] at h
        cases h
    | some header =>
        rw [hi] at h
        obtain ⟨rfl, rfl⟩ := Prod.mk.inj (List.mem_singleton.mp h)
        exact Or.inr ⟨rfl, rfl⟩

/-- An answer with a value shows its time. -/
theorem tags_of_sendValue {t : Nat} {modified : Bool × List (Bytes × Bytes)}
    (hmod : modifiedSince env req t = some modified) {value : Bytes}
    (hr : r = sendValue env cfg key (modified.2 ++ (noneMatch env cfg req t).2) value) :
    (∀ e, (ascii "ETag", e) ∈ r.headersOut → e = etagText t) ∧
      ∀ s, (ascii "Last-Modified", s) ∈ r.headersOut → lastModified env t = some s := by
  subst hr
  refine ⟨fun e he => ?_, fun s hs => ?_⟩
  · rw [mem_headersOut_sendValue (by decide)] at he
    rcases tags_of_mem hmod he with ⟨hn, -⟩ | ⟨-, hv⟩
    · exact absurd hn (by decide)
    · exact hv
  · rw [mem_headersOut_sendValue (by decide)] at hs
    rcases tags_of_mem hmod hs with ⟨-, hv⟩ | ⟨hn, -⟩
    · exact hv
    · exact absurd hn (by decide)

theorem of_noneMatch {t : Nat} (h : (noneMatch env cfg req t).1 = true) :
    ∃ header, ifNoneMatchHeader env cfg req = some header ∧ etagText t <+: cstr header := by
  rw [noneMatch] at h
  cases hi : ifNoneMatchHeader env cfg req with
  | none =>
      rw [hi] at h
      cases h
  | some header =>
      rw [hi] at h
      exact ⟨header, rfl, strnicmpEq_etagText.mp h⟩

theorem of_modifiedSince {t : Nat} {modified : Bool × List (Bytes × Bytes)}
    (hmod : modifiedSince env req t = some modified) (h : modified.1 = true) :
    ∃ since text, ifModifiedSinceHeader env req = some since ∧ lastModified env t = some text ∧
      strnicmpEq since text text.length = true := by
  rw [modifiedSince] at hmod
  cases hi : ifModifiedSinceHeader env req with
  | none =>
      rw [hi] at hmod
      cases hmod
      cases h
  | some since =>
      rw [hi] at hmod
      obtain ⟨text, htext, rfl⟩ := Option.map_eq_some_iff.mp hmod
      exact ⟨since, text, rfl, htext, h⟩

theorem isSome_asctime {t : Nat} {text : Bytes} (h : lastModified env t = some text) :
    (env.asctime (secondOf t)).isSome := by
  obtain ⟨gmt, hgmt, -⟩ := lastModified_eq_some h
  rw [hgmt]
  rfl

/-- **A `304` for the validators of a time** says that the value has a time of the same tag. -/
theorem sameTag_of_notModified {t t' : Nat} (ht : t < 2 ^ 64) (ht' : t' < 2 ^ 64)
    (hetag : ∀ e, ifNoneMatchHeader env cfg req = some e → e = etagText t)
    (hlast : ∀ s, ifModifiedSinceHeader env req = some s → lastModified env t = some s)
    {modified : Bool × List (Bytes × Bytes)}
    (hmod : modifiedSince env req t' = some modified)
    (h : (modified.1 || (noneMatch env cfg req t').1) = true) : SameTag env t t' := by
  rcases (Bool.or_eq_true _ _).mp h with h | h
  · obtain ⟨since, text, hsince, htext, heq⟩ := of_modifiedSince hmod h
    have hs := hlast since hsince
    exact Or.inr ⟨(secondOf_eq_of_lastModified htext hs heq).symm, isSome_asctime hs⟩
  · obtain ⟨header, hheader, hpre⟩ := of_noneMatch h
    obtain rfl := hetag header hheader
    rw [cstr_of_ne_zero fun c hc => (of_mem_etagText hc).1] at hpre
    exact Or.inl (eq_of_etagText_isPrefix ht' ht hpre).symm

theorem KeyWrite.value_eq_some {w : KeyWrite} {xv : XValue} (h : w.value = some xv) :
    ∃ now, w = .set now xv.strValue ∧ getCurrentTime now = xv.timestamp := by
  cases w with
  | set now val =>
      cases h
      exact ⟨now, rfl, rfl⟩
  | del => cases h

/-- Where values with the same tag are equal, no change is hidden. -/
theorem neverHides_of_spaced (hx : Holds key x none) {es : List KeyEvent}
    (hs : Spaced env (writes es)) : NeverHides env cfg key x es := by
  rintro before req mid after rfl r v hob req' r' y hk' hret hf' hr'
  have hwrites := writes_request before mid req
  have hin : ∀ w ∈ writes before ++ writes mid,
      w ∈ writes (before ++ .request req :: mid ++ after) := fun w hw => by
    rw [writes, List.filterMap_append, ← writes, hwrites]
    exact List.mem_append_left _ hw
  have hbefore : Holds key (run (keyStep env cfg key) x before).2 _ := hx.run before
  have hmid : Holds key (run (keyStep env cfg key) x (before ++ .request req :: mid)).2 _ :=
    hx.run _
  rw [hwrites] at hmid
  -- the answer that the client obtained, and the value it was made from
  obtain ⟨y₁, hf⟩ := hob.answered
  obtain ⟨xv, modified, hxv, hmod, hr⟩ := hbefore.answered hob.key_eq hf (Or.inl hob.ok)
  obtain ⟨t, hv⟩ := hob.valueOf
  rw [hbefore.valueOf, hxv] at hv
  cases hv
  split_ifs at hr with hmatch
  · rw [hr] at hob
    exact absurd hob.ok (show ¬ EVHTP_RES_NOTMOD = EVHTP_RES_OK by decide)
  -- the answer to the request that sends its validators back
  · have htags := tags_of_sendValue hmod hr
    obtain ⟨xv', modified', hxv', hmod', hr₂⟩ := hmid.answered hk' hf' (Or.inr hr')
    split_ifs at hr₂ with hmatch'
    · obtain ⟨w, hw, hwv⟩ := (mem_of_held hxv).resolve_left (fun h => by cases h)
      obtain ⟨w', hw', hwv'⟩ := (mem_of_held hxv').resolve_left (fun h => by cases h)
      obtain ⟨now, rfl, ht⟩ := KeyWrite.value_eq_some hwv
      obtain ⟨now', rfl, ht'⟩ := KeyWrite.value_eq_some hwv'
      have hsame : SameTag env (getCurrentTime now) (getCurrentTime now') := by
        refine sameTag_of_notModified (u64_lt now) (u64_lt now')
          (fun e he => ?_) (fun s hs => ?_) (ht'.symm ▸ hmod') (ht'.symm ▸ hmatch')
        · rw [ht]
          exact htags.1 e (hret.etag e he)
        · rw [ht]
          exact htags.2 s (hret.lastModified s hs)
      have hval := hs now v now' xv'.strValue (hin _ (List.mem_append_left _ hw)) (hin _ hw') hsame
      exact ⟨xv'.timestamp, by rw [hmid.valueOf, hxv', hval]⟩
    · rw [hr₂, status_sendValue] at hr'
      cases hr'

/-! ### Two values with one tag -/

theorem length_etagText (t : Nat) : 2 < (etagText t).length := by
  have hpos := List.length_pos_of_ne_nil (decimal_ne_nil (i64 t))
  rw [etagText_eq, List.length_cons, List.length_take, List.length_append, List.length_singleton]
  omega

theorem cstr_etagText (t : Nat) : cstr (etagText t) = etagText t :=
  cstr_of_ne_zero fun _ hc => (of_mem_etagText hc).1

/-- A `GET` that C++ leaves nothing open for is answered from the value that is stored. -/
theorem Holds.frontend_eq {xv : XValue} (h : Holds key x (some xv)) (hm : req.method = .get)
    (hk : frontKey cfg req = key)
    (he : ∀ header, ifNoneMatchHeader env cfg req = some header → 1 < (cstr header).length)
    {modified : Bool × List (Bytes × Bytes)}
    (hmod : modifiedSince env req xv.timestamp = some modified) :
    ∃ y, XHttpCache.frontend env cfg req x =
      some (if modified.1 || (noneMatch env cfg req xv.timestamp).1 then
          { status := EVHTP_RES_NOTMOD
            headersOut := modified.2 ++ (noneMatch env cfg req xv.timestamp).2 }
        else sendValue env cfg key (modified.2 ++ (noneMatch env cfg req xv.timestamp).2)
          xv.strValue, y) := by
  have hsome : ∃ early, earlyNotModified env cfg req key x = some early := by
    rw [← Option.isSome_iff_exists, earlyNotModified]
    cases hh : ifNoneMatchHeader env cfg req with
    | none => rfl
    | some header =>
        simp only [Option.isSome_map]
        exact (ifNoneMatchTime_isSome_iff header).mpr (he header hh)
  obtain ⟨early, hearly⟩ := hsome
  obtain ⟨hfalse, hx'⟩ := h.early hearly
  refine ⟨(early.2.get key).2.2, ?_⟩
  rw [XHttpCache.frontend, hk, getCallbackPro, if_neg (not_not_intro hm), hearly, Option.bind_some,
    hfalse, if_neg Bool.false_ne_true, hx'.lookup hmod]

/-- Where a client obtains one value, and its validators are answered `304` when another is stored,
the two are equal. -/
theorem eq_of_neverHides (hx : Holds key x none) {ws ws' ws'' : List KeyWrite} {v v' : XValue}
    (hv : held none ws = some v) (hv' : held none (ws ++ ws') = some v')
    (h : ∀ es, writes es = ws ++ ws' ++ ws'' → NeverHides env cfg key x es)
    (q q' : EvhtpRequest) (hk : frontKey cfg q = key) (hk' : frontKey cfg q' = key)
    (hq : ∀ x, Holds key x (some v) → ∃ r y, frontend env cfg q x = some (r, y) ∧
      r.status = EVHTP_RES_OK ∧ Returns env cfg q' r)
    (hq' : ∀ x, Holds key x (some v') → ∃ r y, frontend env cfg q' x = some (r, y) ∧
      r.status = EVHTP_RES_NOTMOD) : v.strValue = v'.strValue := by
  have hbefore : Holds key (run (keyStep env cfg key) x (ws.map .write)).2 _ := hx.run _
  have hafter : Holds key (run (keyStep env cfg key) x
      (ws.map .write ++ .request q :: ws'.map .write)).2 _ := hx.run _
  rw [writes_map, hv] at hbefore
  rw [writes_request, writes_map, writes_map, hv'] at hafter
  obtain ⟨r, y, hf, hok, hret⟩ := hq _ hbefore
  obtain ⟨r', y', hf', hnot⟩ := hq' _ hafter
  have hall : writes (ws.map .write ++ .request q :: ws'.map .write ++ ws''.map .write) =
      ws ++ ws' ++ ws'' := by
    rw [writes, List.filterMap_append, ← writes, ← writes, writes_request, writes_map, writes_map,
      writes_map]
  obtain ⟨t, ht⟩ := h _ hall _ _ _ _ rfl r v.strValue
    ⟨hk, ⟨y, hf⟩, hok, ⟨v.timestamp, hbefore.valueOf⟩⟩ q' r' y' hk' hret hf' hnot
  rw [hafter.valueOf] at ht
  rw [Option.some.inj ht]

/-- A `GET` with one header. -/
def getWith (full name val : Bytes) : EvhtpRequest :=
  { method := .get, full := full, headersIn := [(name, val)] }

theorem ifNoneMatchHeader_etag (he : cfg.frontend.etag = 1) (full val : Bytes) :
    ifNoneMatchHeader env cfg (getWith full (ascii "If-None-Match") val) = some val := by
  rw [ifNoneMatchHeader, if_pos he, getWith, env.headerFind_singleton, if_pos (by decide)]

theorem ifModifiedSinceHeader_etag (full val : Bytes) :
    ifModifiedSinceHeader env (getWith full (ascii "If-None-Match") val) = none := by
  rw [ifModifiedSinceHeader, getWith, env.headerFind_singleton, if_neg (by decide)]

theorem ifNoneMatchHeader_since (full val : Bytes) :
    ifNoneMatchHeader env cfg (getWith full (ascii "If-Modified-Since") val) = none := by
  rw [ifNoneMatchHeader, getWith, env.headerFind_singleton,
    show strcasecmpEq (ascii "If-Modified-Since") (ascii "If-None-Match") = false by
      decide]
  exact ite_self none

theorem ifModifiedSinceHeader_since (full val : Bytes) :
    ifModifiedSinceHeader env (getWith full (ascii "If-Modified-Since") val) = some val := by
  rw [ifModifiedSinceHeader, getWith, env.headerFind_singleton, if_pos (by decide)]

/-- The `ETag` of a value is sent to a `GET` with any `If-None-Match`, and comes back as `304`
while the time is the same. -/
theorem etag_returns (he : cfg.frontend.etag = 1) {req : EvhtpRequest}
    (hk : frontKey cfg req = key) {t : Nat} {val : Bytes} (h : Holds key x (some ⟨t, val⟩)) :
    (∃ r y, frontend env cfg (getWith req.full (ascii "If-None-Match") [34, 34]) x = some (r, y) ∧
        r.status = EVHTP_RES_OK ∧
        Returns env cfg (getWith req.full (ascii "If-None-Match") (etagText t)) r) ∧
      ∃ r y, frontend env cfg (getWith req.full (ascii "If-None-Match") (etagText t)) x =
        some (r, y) ∧ r.status = EVHTP_RES_NOTMOD := by
  have hkey : ∀ val, frontKey cfg (getWith req.full (ascii "If-None-Match") val) = key :=
    fun _ => hk
  have hmod : ∀ val, modifiedSince env (getWith req.full (ascii "If-None-Match") val) t =
      some (false, []) := fun val => modifiedSince_none (ifModifiedSinceHeader_etag req.full val) t
  have hnone : ∀ val, noneMatch env cfg (getWith req.full (ascii "If-None-Match") val) t =
      (strnicmpEq (etagText t) val (etagText t).length, [(ascii "ETag", etagText t)]) := fun val => by
    rw [noneMatch, ifNoneMatchHeader_etag he]
  have hearly : ∀ val, 1 < (cstr val).length → ∀ header,
      ifNoneMatchHeader env cfg (getWith req.full (ascii "If-None-Match") val) = some header →
        1 < (cstr header).length := fun val hval header hh => by
    rw [ifNoneMatchHeader_etag he] at hh
    rwa [← Option.some.inj hh]
  have hshort : strnicmpEq (etagText t) [34, 34] (etagText t).length = false := by
    rw [Bool.eq_false_iff]
    intro hm
    have hlen := (strnicmpEq_etagText.mp hm).length_le
    exact absurd (length_etagText t) (not_lt_of_ge hlen)
  have hlong : 1 < (cstr (etagText t)).length := by
    rw [cstr_etagText]
    exact (length_etagText t).le
  refine ⟨?_, ?_⟩
  · obtain ⟨y, hy⟩ := h.frontend_eq rfl (hkey _) (hearly [34, 34] (by decide)) (hmod _)
    rw [hnone, hshort] at hy
    refine ⟨_, y, hy, status_sendValue _ _, fun e hh => ?_, fun s hh => ?_⟩
    · rw [ifNoneMatchHeader_etag he] at hh
      cases hh
      exact (mem_headersOut_sendValue (by decide)).mpr (List.mem_singleton.mpr rfl)
    · rw [ifModifiedSinceHeader_etag] at hh
      cases hh
  · obtain ⟨y, hy⟩ := h.frontend_eq rfl (hkey _) (hearly _ hlong) (hmod _)
    rw [hnone, strnicmpEq_self] at hy
    exact ⟨_, y, hy, rfl⟩

/-- The `Last-Modified` of a value is sent to a `GET` with any `If-Modified-Since`, and comes back as
`304` while the second is the same. -/
theorem lastModified_returns {req : EvhtpRequest} (hk : frontKey cfg req = key) {t : Nat}
    {val text : Bytes} (htext : lastModified env t = some text)
    (h : Holds key x (some ⟨t, val⟩)) :
    (∃ r y, frontend env cfg (getWith req.full (ascii "If-Modified-Since") []) x = some (r, y) ∧
        r.status = EVHTP_RES_OK ∧
        Returns env cfg (getWith req.full (ascii "If-Modified-Since") text) r) ∧
      ∃ r y, frontend env cfg (getWith req.full (ascii "If-Modified-Since") text) x =
        some (r, y) ∧ r.status = EVHTP_RES_NOTMOD := by
  have hkey : ∀ val, frontKey cfg (getWith req.full (ascii "If-Modified-Since") val) = key :=
    fun _ => hk
  have hmod : ∀ val, modifiedSince env (getWith req.full (ascii "If-Modified-Since") val) t =
      some (strnicmpEq val text text.length, [(ascii "Last-Modified", text)]) := fun val => by
    rw [modifiedSince, ifModifiedSinceHeader_since, htext]
    rfl
  have hnone : ∀ val, noneMatch env cfg (getWith req.full (ascii "If-Modified-Since") val) t =
      (false, []) := fun val => noneMatch_none (ifNoneMatchHeader_since req.full val) t
  have hearly : ∀ val header,
      ifNoneMatchHeader env cfg (getWith req.full (ascii "If-Modified-Since") val) = some header →
        1 < (cstr header).length := fun val header hh => by
    rw [ifNoneMatchHeader_since] at hh
    cases hh
  have hempty : strnicmpEq [] text text.length = false := by
    obtain ⟨gmt, -, rfl, hlen, hz⟩ := lastModified_eq_some htext
    rw [strnicmpEq, decide_eq_false_iff_not, cstr_of_ne_zero hz, List.take_length]
    intro heq
    have hnil := congrArg List.length heq
    rw [List.length_map, List.length_map, List.length_append, hlen] at hnil
    exact absurd hnil.symm (Nat.succ_ne_zero _)
  refine ⟨?_, ?_⟩
  · obtain ⟨y, hy⟩ := h.frontend_eq rfl (hkey _) (hearly _) (hmod [])
    rw [hnone, hempty] at hy
    refine ⟨_, y, hy, status_sendValue _ _, fun e hh => ?_, fun s hh => ?_⟩
    · rw [ifNoneMatchHeader_since] at hh
      cases hh
    · rw [ifModifiedSinceHeader_since] at hh
      cases hh
      exact (mem_headersOut_sendValue (by decide)).mpr (List.mem_singleton.mpr rfl)
  · obtain ⟨y, hy⟩ := h.frontend_eq rfl (hkey _) (hearly _) (hmod text)
    rw [hnone, strnicmpEq_self] at hy
    exact ⟨_, y, hy, rfl⟩

/-! ### Exactly when no change is hidden -/

theorem SameTag.symm {t t' : Nat} (h : SameTag env t t') : SameTag env t' t := by
  rcases h with rfl | ⟨hs, ht⟩
  · exact Or.inl rfl
  · exact Or.inr ⟨hs.symm, hs ▸ ht⟩

theorem lastModified_of_isSome {t : Nat} (h : (env.asctime (secondOf t)).isSome) :
    ∃ text, lastModified env t = some text := by
  obtain ⟨asc, hasc⟩ := Option.isSome_iff_exists.mp h
  exact ⟨_, by rw [lastModified, toGMT, hasc, Option.map_some, Option.map_some]⟩

/-- A value and a later one whose time has the same tag. -/
theorem eq_of_sameTag (he : cfg.frontend.etag = 1) {req : EvhtpRequest}
    (hk : frontKey cfg req = key) (hx : Holds key x none) {a b c : List KeyWrite} {now now' : Int}
    {val val' : Bytes}
    (h : ∀ es, writes es = a ++ .set now val :: b ++ .set now' val' :: c →
      NeverHides env cfg key x es)
    (hs : SameTag env (getCurrentTime now) (getCurrentTime now')) : val = val' := by
  have hsplit : a ++ .set now val :: b ++ .set now' val' :: c =
      (a ++ [.set now val]) ++ (b ++ [.set now' val']) ++ c := by simp
  have hv : held none (a ++ [.set now val]) = some ⟨getCurrentTime now, val⟩ := held_concat _ _ _
  have hv' : held none ((a ++ [.set now val]) ++ (b ++ [.set now' val'])) =
      some ⟨getCurrentTime now', val'⟩ := by
    rw [← List.append_assoc, held_concat, KeyWrite.value]
  rw [hsplit] at h
  rcases hs with heq | ⟨hsec, hasc⟩
  · refine eq_of_neverHides hx hv hv' h (getWith req.full (ascii "If-None-Match") [34, 34])
      (getWith req.full (ascii "If-None-Match") (etagText (getCurrentTime now))) hk hk
      (fun x hx => (etag_returns he hk hx).1) (fun x hx => ?_)
    rw [heq]
    exact (etag_returns he hk hx).2
  · obtain ⟨text, htext⟩ := lastModified_of_isSome hasc
    have htext' : lastModified env (getCurrentTime now') = some text := by
      rw [← htext, lastModified, lastModified, hsec]
    exact eq_of_neverHides hx hv hv' h (getWith req.full (ascii "If-Modified-Since") [])
      (getWith req.full (ascii "If-Modified-Since") text) hk hk
      (fun x hx => (lastModified_returns hk htext hx).1)
      (fun x hx => (lastModified_returns hk htext' hx).2)

/-- **When a conditional `GET` never hides a change.**  Over every run of requests and of writes of
a key that is not there at first, and with `etag` on, a `304` for the validators of an answer means
that the value it carried is stored, if and only if values that are set at times with one tag (the
same millisecond, or the same second where it has a text) are equal. -/
theorem never_hides_iff {req : EvhtpRequest} (he : cfg.frontend.etag = 1)
    (hk : frontKey cfg req = key) (hx : Holds key x none) (ws : List KeyWrite) :
    (∀ es, writes es = ws → NeverHides env cfg key x es) ↔ Spaced env ws := by
  constructor
  · intro h now val now' val' hw hw' hs
    obtain ⟨a, b, rfl⟩ := List.append_of_mem hw
    rcases List.mem_append.mp hw' with ha | hb
    · -- the second value was set before the first
      obtain ⟨a₁, a₂, rfl⟩ := List.append_of_mem ha
      refine (eq_of_sameTag he hk hx (a := a₁) (b := a₂) (c := b) (fun es hes => h es ?_)
        hs.symm).symm
      rw [hes]
    · rcases List.mem_cons.mp hb with heq | hb
      · cases heq
        rfl
      · obtain ⟨b₁, b₂, rfl⟩ := List.append_of_mem hb
        refine eq_of_sameTag he hk hx (a := a) (b := b₁) (c := b₂) (fun es hes => h es ?_) hs
        rw [hes, List.append_assoc, List.cons_append]
  · rintro h es rfl
    exact neverHides_of_spaced hx h

end Validators

/-- An empty database, as `main` sets it up. -/
def plainDb : XDataBase := { db := ⟨.empty, []⟩ }

/-- The frontend with `etag` on. -/
def etagCfg : XConfig := { frontend := { etag := 1 } }

theorem holds_plainDb (key : Bytes) : Holds key plainDb none := by
  refine ⟨rfl, ⟨rfl, fun c hc => by cases hc⟩, ?_⟩
  rw [XDataBase.valueOf, XDataBase.valueRow, XDataBase.rows, plainDb, OrderedMap.get_empty,
    Option.map_none]

/-- Two values that are set two seconds apart. -/
theorem never_hides_two_seconds :
    NeverHides plainFront etagCfg (ascii "k") plainDb
      [.write (.set 1 (ascii "old")),
        .request (getWith (ascii "/k") (ascii "If-None-Match") [34, 34]),
        .write (.set 2000 (ascii "new"))] := by
  have hkey : frontKey etagCfg (getWith (ascii "/k") [] []) = ascii "k" := by decide
  refine (never_hides_iff rfl hkey (holds_plainDb _)
    [.set 1 (ascii "old"), .set 2000 (ascii "new")]).mpr ?_ _ rfl
  have hne : ¬ SameTag plainFront (getCurrentTime 1) (getCurrentTime 2000) := by
    rintro (h | ⟨h, -⟩) <;> exact absurd h (by decide)
  intro now val now' val' hw hw' hs
  simp only [List.mem_cons, KeyWrite.set.injEq, List.not_mem_nil, or_false] at hw hw'
  rcases hw with ⟨rfl, rfl⟩ | ⟨rfl, rfl⟩ <;> rcases hw' with ⟨rfl, rfl⟩ | ⟨rfl, rfl⟩
  · rfl
  · exact absurd hs hne
  · exact absurd hs.symm hne
  · rfl

/-- Two values that are set one millisecond apart: the client sends both validators of the first
back, and is told `304` with the `ETag` of the second. -/
theorem change_hidden :
    let validators (etag since : Bytes) : EvhtpRequest :=
      { method := .get, full := ascii "/k"
        headersIn := [(ascii "If-None-Match", etag), (ascii "If-Modified-Since", since)] }
    let epoch := ascii "Thu Jan  1 00:00:00 1970 GMT"
    let y := (run (keyStep plainFront etagCfg (ascii "k")) plainDb
      [.write (.set 1 (ascii "old"))]).2
    let z := (run (keyStep plainFront etagCfg (ascii "k")) plainDb
      [.write (.set 1 (ascii "old")), .request (validators (ascii "none") (ascii "never")),
        .write (.set 2 (ascii "new"))]).2
    (frontend plainFront etagCfg (validators (ascii "none") (ascii "never")) y).map (·.1) =
        some { status := EVHTP_RES_OK
               headersOut := [(ascii "Last-Modified", epoch), (ascii "ETag", ascii "\"1\""),
                 (ascii "Content-Type", ascii "text/plain"), (ascii "Server", SERVER_SIGNATURE)]
               bufferOut := ascii "old" } ∧
      (frontend plainFront etagCfg (validators (ascii "\"1\"") epoch) z).map (·.1) =
        some { status := EVHTP_RES_NOTMOD
               headersOut := [(ascii "Last-Modified", epoch), (ascii "ETag", ascii "\"2\"")] } ∧
      z.valueOf (ascii "k") = some ⟨2, ascii "new"⟩ := by
  decide

end XHttpCache
