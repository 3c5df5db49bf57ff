import XHttpCache.Support.Bytes

/-!
# Support — zlib

The part of zlib that compresses: a stream is set up, `deflate` is called with what is left of the
input and of the output buffer, and the stream is ended.  How it compresses is open.  `Zlib` has
what callers may rely on: a call takes a part of the input and writes no more than there is room
for, it does something if it returns `Z_OK`, and when it returns `Z_STREAM_END` a complete stream of
the input has been written.

* `ZStream.Of`: a stream has taken a part of the data, and has the rest before it.
* `ZStream.deflate_of`, `ZStream.measure_deflate`, `ZStream.gunzip_of_streamEnd`: what a call keeps,
  what it lowers, and what it ends with.
-/

namespace Support

/-- What `deflate` returns. -/
inductive ZRet where
  | ok
  | streamEnd
  | bufError
  | otherError
  deriving DecidableEq

/-- `Z_NO_FLUSH` and `Z_FINISH`. -/
inductive ZFlush where
  | noFlush
  | finish
  deriving DecidableEq

/-- What a call of `deflate` does: what it returns, how many bytes of the input it takes, what it
writes, and the state it leaves. -/
structure DeflateCall (State : Type) where
  ret : ZRet
  consumed : Nat
  output : Bytes
  state : State

/-- The functions of zlib.  `deflate` is given the bytes from `next_in` on, and `avail_out`. -/
structure ZlibFunctions where
  State : Type
  deflateInit2 : Option State
  deflate : State → ZFlush → Bytes → Nat → DeflateCall State
  deflateEnd : State → Bool
  gunzip : Bytes → Option Bytes

/-- A state of a stream, what it has taken and what it has written. -/
inductive ZlibFunctions.Reached (z : ZlibFunctions) : z.State → Bytes → Bytes → Prop
  | init {state : z.State} (h : z.deflateInit2 = some state) : Reached z state [] []
  | deflate {state : z.State} {taken written : Bytes} (h : Reached z state taken written)
      (flush : ZFlush) (nextIn : Bytes) (availOut : Nat) :
      Reached z (z.deflate state flush nextIn availOut).state
        (taken ++ nextIn.take (z.deflate state flush nextIn availOut).consumed)
        (written ++ (z.deflate state flush nextIn availOut).output)

/-- zlib, and what it promises. -/
structure Zlib extends ZlibFunctions where
  /-- The complete gzip streams of some data. -/
  IsStream : Bytes → Bytes → Prop
  consumed_le : ∀ state flush nextIn availOut,
    (deflate state flush nextIn availOut).consumed ≤ nextIn.length
  length_output_le : ∀ state flush nextIn availOut,
    (deflate state flush nextIn availOut).output.length ≤ availOut
  progress : ∀ state flush nextIn availOut, (deflate state flush nextIn availOut).ret = .ok →
    (deflate state flush nextIn availOut).consumed ≠ 0 ∨
      (deflate state flush nextIn availOut).output ≠ []
  isStream_of_streamEnd : ∀ state taken written, toZlibFunctions.Reached state taken written →
    ∀ flush nextIn availOut, (deflate state flush nextIn availOut).ret = .streamEnd →
      IsStream (taken ++ nextIn.take (deflate state flush nextIn availOut).consumed)
        (written ++ (deflate state flush nextIn availOut).output)
  gunzip_of_isStream : ∀ data stream, IsStream data stream → gunzip stream = some data

/-- `z_stream`: the `avail_in` bytes from `next_in` on, the bytes before `next_out`, of which there
are `total_out`, and `avail_out`. -/
structure ZStream (z : Zlib) where
  nextIn : Bytes
  written : Bytes
  availOut : Nat
  state : z.State

namespace ZStream

variable {z : Zlib} {c : ZStream z} {data : Bytes}

/-- `total_out`. -/
def totalOut (c : ZStream z) : Nat := c.written.length

/-- `deflate`, and what it returns. -/
def deflate (c : ZStream z) (flush : ZFlush) : ZRet × ZStream z :=
  let call := z.deflate c.state flush c.nextIn c.availOut
  (call.ret,
    { nextIn := c.nextIn.drop call.consumed
      written := c.written ++ call.output
      availOut := c.availOut - call.output.length
      state := call.state })

/-- The stream has taken a part of `data`, and has the rest before it. -/
def Of (data : Bytes) (c : ZStream z) : Prop :=
  ∃ taken, z.Reached c.state taken c.written ∧ taken ++ c.nextIn = data

theorem deflate_of (h : c.Of data) (flush : ZFlush) : (c.deflate flush).2.Of data := by
  obtain ⟨taken, hreached, hdata⟩ := h
  refine ⟨_, hreached.deflate flush c.nextIn c.availOut, ?_⟩
  rw [List.append_assoc]
  exact (congrArg _ (List.take_append_drop _ _)).trans hdata

/-- What is left to take and to write. -/
def measure (c : ZStream z) : Nat := c.nextIn.length + c.availOut

/-- A call that returns `Z_OK` has taken or written something. -/
theorem measure_deflate {flush : ZFlush} (h : (c.deflate flush).1 = .ok) :
    (c.deflate flush).2.measure < c.measure := by
  have htaken := z.consumed_le c.state flush c.nextIn c.availOut
  have hwritten := z.length_output_le c.state flush c.nextIn c.availOut
  have hprogress := z.progress c.state flush c.nextIn c.availOut h
  rw [← List.length_pos_iff] at hprogress
  simp only [measure, deflate, List.length_drop]
  omega

/-- There is room for what is written. -/
theorem room_deflate (flush : ZFlush) :
    (c.deflate flush).2.totalOut + (c.deflate flush).2.availOut = c.totalOut + c.availOut := by
  have hwritten := z.length_output_le c.state flush c.nextIn c.availOut
  simp only [totalOut, deflate, List.length_append]
  omega

/-- When a stream has ended and all input is taken, what was written unpacks to the data. -/
theorem gunzip_of_streamEnd {flush : ZFlush} (h : c.Of data) (hin : c.nextIn = [])
    (hend : (c.deflate flush).1 = .streamEnd) :
    z.gunzip (c.deflate flush).2.written = some data := by
  obtain ⟨taken, hreached, hdata⟩ := h
  have hstream := z.isStream_of_streamEnd _ _ _ hreached flush c.nextIn c.availOut hend
  have hall : taken ++ c.nextIn.take (z.deflate c.state flush c.nextIn c.availOut).consumed =
      data := by
    rw [← hdata, hin, List.take_nil]
  rw [hall] at hstream
  exact z.gunzip_of_isStream _ _ hstream

end ZStream

end Support
