import XHttpCache.Http.Frontend
import XHttpCache.Support.Loops
import XHttpCache.Support.Zlib

/-!
# Http — compressed answers

`gzcompress` of `common/util.cpp`, call by call of zlib, and what the frontend makes of it.  The
buffer is as long as the value.  A first loop passes the value to `deflate`, until all of it is
taken or the buffer is full; a second one calls it until the stream ends.

* `Code.compress_spec`, `Code.finish_spec`: both loops end, since `Z_OK` means that something was
  taken or written.
* `Code.gzcompress_spec`: it returns 0 only with a stream that unpacks to the value.
* `compressed_answer_delivers`: so the value is what a client of the frontend gets.
-/

namespace XHttpCache
open Support

/-! ### The function -/

namespace Code

section Gzcompress

variable {z : Zlib}

/-- A round of the first loop: it goes on with a new state, returns -1, or is over. -/
def compressRound (nzdata : Nat) (c : ZStream z) : ZStream z ⊕ Option (ZStream z) :=
  if c.nextIn ≠ [] ∧ c.totalOut < nzdata then
    if (c.deflate .noFlush).1 ≠ .ok then .inr none else .inl (c.deflate .noFlush).2
  else .inr (some c)

/-- A round of the second loop. -/
def finishRound (c : ZStream z) : ZStream z ⊕ Option (ZStream z) :=
  if (c.deflate .finish).1 = .streamEnd then .inr (some (c.deflate .finish).2)
  else if (c.deflate .finish).1 ≠ .ok then .inr none
  else .inl (c.deflate .finish).2

/-- `gzcompress` from the second loop on. -/
def finish (fuel : Nat) (c : ZStream z) : Option (Except Int Bytes) :=
  (loop finishRound fuel c).map fun ended => ended.elim (.error (-1)) fun c =>
    if z.deflateEnd c.state then .ok c.written else .error (-1)

/-- `gzcompress` from the first loop on. -/
def compress (fuel nzdata : Nat) (c : ZStream z) : Option (Except Int Bytes) :=
  (loop (compressRound nzdata) fuel c).bind fun ended => ended.elim (some (.error (-1))) fun c =>
    -- `avail_in` is returned as an `int`
    if c.nextIn ≠ [] then some (.error (i32 c.nextIn.length)) else finish fuel c

variable (z)

/-- `gzcompress`, with at most `fuel` rounds of each loop: what it returns if that is not 0, or the
`*nzdata` bytes of the stream.  `avail_in` and `avail_out` have 32 bits. -/
def gzcompress (fuel : Nat) (data : Bytes) (nzdata : Nat) : Option (Except Int Bytes) :=
  if data.length = 0 then some (.error (-1))
  else z.deflateInit2.elim (some (.error (-1))) fun state =>
    compress fuel nzdata
      { nextIn := data.take (data.length % 2 ^ 32), written := []
        availOut := nzdata % 2 ^ 32, state := state }

end Gzcompress

/-! ### Both loops end -/

variable {z : Zlib} {c : ZStream z} {data : Bytes} {size : Nat}

/-- What the loops keep: the stream is one of `data`, and in a buffer of `size` bytes. -/
structure Filling (data : Bytes) (size : Nat) (c : ZStream z) : Prop where
  stream : c.Of data
  room : c.totalOut + c.availOut = size

theorem Filling.deflate (h : Filling data size c) (flush : ZFlush) :
    Filling data size (c.deflate flush).2 :=
  ⟨ZStream.deflate_of h.stream flush, (ZStream.room_deflate flush).trans h.room⟩

theorem compressRound_inl {nzdata : Nat} {c' : ZStream z} (h : compressRound nzdata c = .inl c') :
    (c.deflate .noFlush).1 = .ok ∧ c' = (c.deflate .noFlush).2 := by
  rw [compressRound] at h
  split_ifs at h with hgo hret
  exact ⟨not_not.mp hret, (Sum.inl.inj h).symm⟩

theorem compressRound_inr {nzdata : Nat} {ended : Option (ZStream z)}
    (h : compressRound nzdata c = .inr ended) : ended = none ∨ ended = some c := by
  rw [compressRound] at h
  split_ifs at h
  · exact Or.inl (Sum.inr.inj h).symm
  · exact Or.inr (Sum.inr.inj h).symm

theorem finishRound_inl {c' : ZStream z} (h : finishRound c = .inl c') :
    (c.deflate .finish).1 = .ok ∧ c' = (c.deflate .finish).2 := by
  rw [finishRound] at h
  split_ifs at h with hend hret
  exact ⟨not_not.mp hret, (Sum.inl.inj h).symm⟩

theorem finishRound_inr {ended : Option (ZStream z)} (h : finishRound c = .inr ended) :
    ended = none ∨
      (c.deflate .finish).1 = .streamEnd ∧ ended = some (c.deflate .finish).2 := by
  rw [finishRound] at h
  split_ifs at h with hend
  · exact Or.inr ⟨hend, (Sum.inr.inj h).symm⟩
  · exact Or.inl (Sum.inr.inj h).symm

/-- What may come of `gzcompress`: an error code, which is not 0, or a stream in the buffer that
unpacks to the data. -/
def Delivers (z : Zlib) (data : Bytes) (size : Nat) : Except Int Bytes → Prop
  | .error ret => ret ≠ 0
  | .ok stream => z.gunzip stream = some data ∧ stream.length ≤ size

/-- **The second loop ends**, and a stream that it ends with is one of the data. -/
theorem finish_spec (h : Filling data size c) (hin : c.nextIn = []) :
    ∃ r, Delivers z data size r ∧ ∀ fuel, c.measure < fuel → finish fuel c = some r := by
  -- all input is taken already, and stays so
  have hnext : ∀ c c' : ZStream z, Filling data size c ∧ c.nextIn = [] → finishRound c = .inl c' →
      (Filling data size c' ∧ c'.nextIn = []) ∧ c'.measure < c.measure := by
    rintro c c' ⟨hfill, hnil⟩ hround
    obtain ⟨hok, rfl⟩ := finishRound_inl hround
    refine ⟨⟨hfill.deflate _, ?_⟩, ZStream.measure_deflate hok⟩
    simp only [ZStream.deflate, hnil, List.drop_nil]
  have hend : ∀ (c : ZStream z) (ended : Option (ZStream z)),
      Filling data size c ∧ c.nextIn = [] → finishRound c = .inr ended →
      ∀ c', ended = some c' → z.gunzip c'.written = some data ∧ c'.written.length ≤ size := by
    rintro c ended ⟨hfill, hnil⟩ hround c' rfl
    rcases finishRound_inr hround with hnone | ⟨hret, hsome⟩
    · cases hnone
    · obtain rfl := Option.some.inj hsome
      exact ⟨ZStream.gunzip_of_streamEnd hfill.stream hnil hret,
        Nat.le.intro (hfill.deflate _).room⟩
  obtain ⟨ended, hended, hloop⟩ := loop_total hnext hend ⟨h, hin⟩
  refine ⟨_, ?_, fun fuel hfuel => by rw [finish, hloop fuel hfuel, Option.map_some]⟩
  cases ended with
  | none => exact (by decide : (-1 : Int) ≠ 0)
  | some c' =>
      simp only [Option.elim_some]
      split_ifs
      · exact hended c' rfl
      · exact (by decide : (-1 : Int) ≠ 0)

theorem i32_length_ne_zero {l : Bytes} (hne : l ≠ []) (hlt : l.length < 2 ^ 32) :
    i32 l.length ≠ 0 := by
  have hpos := List.length_pos_iff.mpr hne
  rw [i32, Int.bmod_def]
  omega

/-- **The first loop ends**, and so does what comes after it. -/
theorem compress_spec (h : Filling data size c) (hlen : data.length < 2 ^ 32) (nzdata : Nat) :
    ∃ r, Delivers z data size r ∧ ∀ fuel, c.measure < fuel → compress fuel nzdata c = some r := by
  have hnext : ∀ d d' : ZStream z, Filling data size d ∧ d.measure ≤ c.measure →
      compressRound nzdata d = .inl d' →
      (Filling data size d' ∧ d'.measure ≤ c.measure) ∧ d'.measure < d.measure := by
    rintro d d' ⟨hfill, hle⟩ hround
    obtain ⟨hok, rfl⟩ := compressRound_inl hround
    have hlt := ZStream.measure_deflate hok
    exact ⟨⟨hfill.deflate _, hlt.le.trans hle⟩, hlt⟩
  have hend : ∀ (d : ZStream z) (ended : Option (ZStream z)),
      Filling data size d ∧ d.measure ≤ c.measure → compressRound nzdata d = .inr ended →
      ∀ d', ended = some d' → Filling data size d' ∧ d'.measure ≤ c.measure := by
    rintro d ended hd hround d' rfl
    rcases compressRound_inr hround with hnone | hsome
    · cases hnone
    · obtain rfl := Option.some.inj hsome
      exact hd
  obtain ⟨ended, hended, hloop⟩ := loop_total hnext hend ⟨h, le_rfl⟩
  cases ended with
  | none =>
      refine ⟨.error (-1), (by decide : (-1 : Int) ≠ 0), fun fuel hfuel => ?_⟩
      rw [compress, hloop fuel hfuel]
      rfl
  | some d =>
      obtain ⟨hfill, hle⟩ := hended d rfl
      by_cases hin : d.nextIn = []
      · obtain ⟨r, hr, hfinish⟩ := finish_spec hfill hin
        refine ⟨r, hr, fun fuel hfuel => ?_⟩
        rw [compress, hloop fuel hfuel, Option.bind_some, Option.elim_some,
          if_neg (not_not_intro hin)]
        exact hfinish fuel (hle.trans_lt hfuel)
      · -- the buffer is full before all input is taken
        obtain ⟨taken, -, hdata⟩ := hfill.stream
        have hle : d.nextIn.length ≤ data.length := by
          rw [← hdata, List.length_append]
          exact Nat.le_add_left _ _
        refine ⟨.error (i32 d.nextIn.length), i32_length_ne_zero hin (hle.trans_lt hlen),
          fun fuel hfuel => ?_⟩
        rw [compress, hloop fuel hfuel, Option.bind_some, Option.elim_some, if_pos hin]

/-- **`gzcompress` ends**, with a number of rounds that the length bounds, and what it returns 0 for
unpacks to the data. -/
theorem gzcompress_spec (z : Zlib) (data : Bytes) (hlen : data.length < 2 ^ 32) :
    ∃ r, Delivers z data data.length r ∧
      ∀ fuel, 2 * data.length < fuel → gzcompress z fuel data data.length = some r := by
  by_cases hnil : data.length = 0
  · exact ⟨.error (-1), (by decide : (-1 : Int) ≠ 0), fun fuel _ => by rw [gzcompress, if_pos hnil]⟩
  cases hinit : z.deflateInit2 with
  | none =>
      refine ⟨.error (-1), (by decide : (-1 : Int) ≠ 0), fun fuel _ => ?_⟩
      rw [gzcompress, if_neg hnil, hinit]
      rfl
  | some state =>
      have hmod : data.length % 2 ^ 32 = data.length := Nat.mod_eq_of_lt hlen
      have hfill : Filling data data.length
          (⟨data, [], data.length, state⟩ : ZStream z) :=
        ⟨⟨[], .init hinit, rfl⟩, Nat.zero_add _⟩
      obtain ⟨r, hr, hcompress⟩ := compress_spec hfill hlen data.length
      refine ⟨r, hr, fun fuel hfuel => ?_⟩
      rw [gzcompress, if_neg hnil, hinit, Option.elim_some, hmod, List.take_length]
      refine hcompress fuel ?_
      simp only [ZStream.measure]
      omega

end Code

/-! ### The frontend -/

/-- The frontend over zlib: its compressed values are what `gzcompress` returns. -/
def FrontEnv.withZlib (env : FrontEnv) (z : Zlib) : FrontEnv :=
  { env with
    deflate := fun data =>
      (Code.gzcompress z (2 * data.length + 1) data data.length).bind Except.toOption }

/-- The value that is sent when `gzcompress` returns `r`. -/
theorem gzcompress_withZlib (env : FrontEnv) {z : Zlib} {data : Bytes} {r : Except Int Bytes}
    (hlen : data.length < 2 ^ 32)
    (hr : ∀ fuel, 2 * data.length < fuel → Code.gzcompress z fuel data data.length = some r) :
    gzcompress (env.withZlib z) data = r.toOption := by
  have hmod : data.length % 2 ^ 32 = data.length := Nat.mod_eq_of_lt hlen
  rw [gzcompress, hmod, List.take_length]
  split_ifs with hnil
  · have hrun := hr (2 * data.length + 1) (Nat.lt_succ_self _)
    rw [Code.gzcompress, if_pos hnil] at hrun
    rw [← Option.some.inj hrun]
    rfl
  · simp only [FrontEnv.withZlib, hr (2 * data.length + 1) (Nat.lt_succ_self _), Option.bind_some]

/-- The headers that go out have no `Content-Encoding`. -/
def Response.Plain (r : Response) : Prop := ∀ val, (ascii "Content-Encoding", val) ∉ r.headersOut

/-- The headers that go out have `Content-Encoding: gzip`. -/
def Response.Gzipped (r : Response) : Prop :=
  (ascii "Content-Encoding", ascii "gzip") ∈ r.headersOut

theorem plain_sendHttpResphone (type value : Bytes) :
    (sendHttpResphone [(ascii "Content-Type", type)] value).Plain := by
  intro val hmem
  rcases List.mem_cons.mp hmem with heq | hmem
  · have hname : ascii "Content-Encoding" = ascii "Content-Type" := congrArg Prod.fst heq
    exact absurd hname (by decide)
  · have hname : ascii "Content-Encoding" = ascii "Server" :=
      congrArg Prod.fst (List.mem_singleton.mp hmem)
    exact absurd hname (by decide)

theorem sendValue_of_none {env : FrontEnv} {cfg : XConfig} {value : Bytes}
    (h : gzcompress env value = none) (uri : Bytes) (hs : List (Bytes × Bytes)) :
    sendValue env cfg uri hs value =
      sendHttpResphone (hs ++ [(ascii "Content-Type", guessContentType uri)]) value := by
  rw [sendValue, h]
  exact ite_self _

theorem sendValue_of_some {env : FrontEnv} {cfg : XConfig} {value stream : Bytes}
    (hgzip : cfg.frontend.gzip = 1) (h : gzcompress env value = some stream)
    (hlen : stream.length < 2 ^ 31) (uri : Bytes) (hs : List (Bytes × Bytes)) :
    sendValue env cfg uri hs value =
      sendHttpResphone (hs ++ [(ascii "Content-Type", guessContentType uri)] ++
        [(ascii "Content-Encoding", ascii "gzip")]) stream := by
  have hint : (i32 stream.length).toNat = stream.length := by
    rw [i32_eq (by omega) (by omega), Int.toNat_natCast]
  rw [sendValue, if_pos hgzip, h]
  simp only [hint, List.take_length]

/-- **A value is sent as it is, or as a stream that unpacks to it.** -/
theorem sendValue_delivers (env : FrontEnv) (z : Zlib) (cfg : XConfig) (uri : Bytes) {value : Bytes}
    (hlen : value.length < 2 ^ 31) :
    let r := sendValue (env.withZlib z) cfg uri [] value
    r.Plain ∧ r.bufferOut = value ∨ r.Gzipped ∧ z.gunzip r.bufferOut = some value := by
  intro r
  by_cases hgzip : cfg.frontend.gzip = 1
  · have hlen' : value.length < 2 ^ 32 := hlen.trans (by norm_num)
    obtain ⟨ret, hret, hruns⟩ := Code.gzcompress_spec z value hlen'
    have hgz := gzcompress_withZlib env hlen' hruns
    cases ret with
    | error e =>
        have hr : r = _ := sendValue_of_none hgz uri []
        rw [hr]
        exact Or.inl ⟨plain_sendHttpResphone _ _, rfl⟩
    | ok stream =>
        have hr : r = _ := sendValue_of_some hgzip hgz (hret.2.trans_lt hlen) uri []
        rw [hr]
        exact Or.inr ⟨List.mem_append_left _ (List.mem_append_right _ List.mem_cons_self), hret.1⟩
  · have hr : r = _ := sendValue_plain hgzip [] value
    rw [hr]
    exact Or.inl ⟨plain_sendHttpResphone _ _, rfl⟩

/-- **A compressed answer still delivers the stored value.**  Whatever zlib does, within what it
promises: `gzcompress` ends, and a request without validators for a value of less than `2³¹` bytes
is answered with the value, or with a `Content-Encoding` and a stream that unpacks to it. -/
theorem compressed_answer_delivers (env : FrontEnv) (z : Zlib) (cfg : XConfig) (req : EvhtpRequest)
    (x x' : XDataBase) (v : XValue) (hm : req.method = .get)
    (hnone : ifNoneMatchHeader (env.withZlib z) cfg req = none)
    (hsince : ifModifiedSinceHeader (env.withZlib z) req = none)
    (hget : x.get (frontKey cfg req) = (.ok, v, x')) (hlen : v.strValue.length < 2 ^ 31) :
    (∃ r, ∀ fuel, 2 * v.strValue.length < fuel →
      Code.gzcompress z fuel v.strValue v.strValue.length = some r) ∧
    ∃ r, frontend (env.withZlib z) cfg req x = some (r, x') ∧ r.status = EVHTP_RES_OK ∧
      (r.Plain ∧ r.bufferOut = v.strValue ∨
        r.Gzipped ∧ z.gunzip r.bufferOut = some v.strValue) := by
  obtain ⟨ret, -, hruns⟩ := Code.gzcompress_spec z v.strValue (hlen.trans (by norm_num))
  refine ⟨⟨ret, hruns⟩, sendValue (env.withZlib z) cfg (frontKey cfg req) [] v.strValue, ?_,
    status_sendValue _ _, sendValue_delivers env z cfg _ hlen⟩
  rw [frontend, getCallbackPro_unconditional hm hnone hsince, hget]
  rfl

/-! ### A run of zlib -/

/-- How far the run is. -/
inductive Replay where
  | fresh
  | taken
  | ended
  deriving DecidableEq

/-- What is compressed in it: `a`, 32 times. -/
def replayData : Bytes := List.replicate 32 97

/-- The header of the stream, which zlib writes when it takes the data. -/
def replayHeader : Bytes := [31, 139, 8, 0, 0, 0, 0, 0, 0, 3]

/-- What it writes when it is told that this is all: a block with an `a` and a copy of it at
distance one, the checksum, and the size. -/
def replayRest : Bytes := [75, 76, 196, 15, 0, 119, 23, 177, 202, 32, 0, 0, 0]

/-- The two calls of the run, with room for what they write.  All others fail. -/
def replayDeflate (state : Replay) (flush : ZFlush) (nextIn : Bytes) (availOut : Nat) :
    DeflateCall Replay :=
  if state = .fresh ∧ flush = .noFlush ∧ nextIn = replayData ∧ replayHeader.length ≤ availOut then
    ⟨.ok, nextIn.length, replayHeader, .taken⟩
  else if state = .taken ∧ flush = .finish ∧ nextIn = [] ∧ replayRest.length ≤ availOut then
    ⟨.streamEnd, 0, replayRest, .ended⟩
  else ⟨.otherError, 0, [], state⟩

def replayFunctions : ZlibFunctions where
  State := Replay
  deflateInit2 := some .fresh
  deflate := replayDeflate
  deflateEnd state := state = .ended
  gunzip stream := if stream = replayHeader ++ replayRest then some replayData else none

/-- What has been taken and written after the first call. -/
theorem replay_reached {state : replayFunctions.State} {taken written : Bytes}
    (h : replayFunctions.Reached state taken written) :
    (state = .fresh → taken = [] ∧ written = []) ∧
      (state = .taken → taken = replayData ∧ written = replayHeader) := by
  induction h with
  | init h =>
      obtain rfl := Option.some.inj h
      exact ⟨fun _ => ⟨rfl, rfl⟩, Replay.noConfusion⟩
  | deflate h flush nextIn availOut ih =>
      simp only [replayFunctions, replayDeflate]
      split_ifs with hfirst hlast
      · obtain ⟨rfl, rfl⟩ := ih.1 hfirst.1
        refine ⟨False.elim, fun _ => ⟨?_, List.nil_append _⟩⟩
        rw [List.nil_append, List.take_length, hfirst.2.2.1]
      · exact ⟨False.elim, False.elim⟩
      · rw [List.take_zero, List.append_nil, List.append_nil]
        exact ih

/-- zlib as far as the run shows it; it keeps its promises. -/
def replayZlib : Zlib where
  toZlibFunctions := replayFunctions
  IsStream data stream := data = replayData ∧ stream = replayHeader ++ replayRest
  consumed_le state flush nextIn availOut := by
    simp only [replayFunctions, replayDeflate]
    split_ifs
    · exact le_rfl
    · exact Nat.zero_le _
    · exact Nat.zero_le _
  length_output_le state flush nextIn availOut := by
    simp only [replayFunctions, replayDeflate]
    split_ifs with hfirst hlast
    · exact hfirst.2.2.2
    · exact hlast.2.2.2
    · exact Nat.zero_le _
  progress state flush nextIn availOut h := by
    simp only [replayFunctions, replayDeflate] at h ⊢
    split_ifs at h ⊢
    exact Or.inr (List.cons_ne_nil _ _)
  isStream_of_streamEnd state taken written hreached flush nextIn availOut h := by
    simp only [replayFunctions, replayDeflate] at h ⊢
    split_ifs at h ⊢ with hfirst hlast
    obtain ⟨rfl, rfl⟩ := (replay_reached hreached).2 hlast.1
    exact ⟨by rw [List.take_zero, List.append_nil], rfl⟩
  gunzip_of_isStream data stream h := by
    obtain ⟨rfl, rfl⟩ := h
    simp only [replayFunctions, if_true]

/-- The 32 bytes are sent as a stream of 23, which unpacks to them. -/
theorem compressed_answer_run :
    let cfg : XConfig := { frontend := { gzip := 1 } }
    let req : EvhtpRequest := { method := .get, full := ascii "/k" }
    let x := (({ db := ⟨.empty, []⟩ } : XDataBase).set 1 (ascii "k") replayData).2
    (frontend (plainFront.withZlib replayZlib) cfg req x).map (·.1.bufferOut) =
        some (replayHeader ++ replayRest) ∧
      ∃ r, frontend (plainFront.withZlib replayZlib) cfg req x =
          some (r, (x.get (ascii "k")).2.2) ∧ r.status = EVHTP_RES_OK ∧
        (r.Plain ∧ r.bufferOut = replayData ∨
          r.Gzipped ∧ replayZlib.gunzip r.bufferOut = some replayData) := by
  intro cfg req x
  have hok : (x.get (ascii "k")).1 = .ok := by decide
  have hvalue : (x.get (ascii "k")).2.1 = ⟨1, replayData⟩ := by decide
  have hget : x.get (ascii "k") = (.ok, ⟨1, replayData⟩, (x.get (ascii "k")).2.2) :=
    Prod.ext hok (Prod.ext hvalue rfl)
  exact ⟨by decide +kernel, (compressed_answer_delivers plainFront replayZlib cfg req x _ _ rfl rfl
    rfl hget (by decide)).2⟩

end XHttpCache
