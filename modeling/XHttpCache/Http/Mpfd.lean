import XHttpCache.Http.Multipart
import XHttpCache.Support.Find
import XHttpCache.Support.Loops

/-!
# Http — the form parser

`MPFD::Parser` of `common/Parser.cpp`, with `MPFD::Field` of `common/Field.cpp`.  The parser collects
what it is given and works on what it has collected, in a loop over three statuses: it looks for the
boundary, waits for the end of the headers of a field, and passes the content of the field on to it.

Files are stored in memory, as `ParasrMultipartPost` asks for; the files of `TempDir` are left out.

* `Round`: what a round of the loop can do; `rounds_lt`: the loop ends.
* `processData_collect`: what is collected later may as well have been there before.
* `Inv`: while the content of a field is processed there is such a field, and every field has got its
  type, so that only headers are thrown at (`Inv.processData_eq_error`).
* `acceptSomeData_pieces`: it does not matter in which pieces a form arrives.
* `filedata_piece`: whatever arrives, what is taken from it is a piece of it.
-/

namespace XHttpCache.MPFD
open Support

/-! ### Fields -/

/-- `type` of a field: 0, `TextType` or `FileType`. -/
inductive FieldType where
  | unset
  | text
  | file
  deriving DecidableEq

/-- `MPFD::Field`. -/
structure Field where
  type : FieldType := .unset
  fileName : Bytes := []
  fileContentType : Bytes := []
  fieldContent : Bytes := []
  deriving DecidableEq

namespace Field

/-- `GetType`. -/
def getType (f : Field) : Except Bytes FieldType :=
  if f.type = .unset then .error (ascii "Trying to get type of field, but no type was set.")
  else .ok f.type

/-- `AcceptSomeData`. -/
def acceptSomeData (f : Field) (data : Bytes) : Except Bytes Field :=
  if f.type = .unset then .error (ascii "Trying to AcceptSomeData but no type was set.")
  else .ok { f with fieldContent := f.fieldContent ++ data }

/-- What `ParasrMultipartPost` gets from a field: `GetTextTypeContent` returns a C string,
`GetFileContent` and `GetFileContentSize` all of the content.  `GetType` does not throw, for every
field has got its type (`Inv`). -/
def toMpfdField (f : Field) : MpfdField :=
  if f.getType = .ok .text then .text (cstr f.fieldContent) else .file f.fieldContent

end Field

/-! ### The parser -/

/-- `CurrentStatus`. -/
inductive Status where
  | lookingForStartingBoundary
  | processingHeaders
  | processingContentOfTheField
  deriving DecidableEq

/-- `MPFD::Parser`. -/
structure Parser where
  boundary : Bytes := []
  currentStatus : Status := .lookingForStartingBoundary
  processingFieldName : Bytes := []
  dataCollector : Bytes := []
  maxDataCollectorLength : Int := 16 * 1024 * 1024
  fields : OrderedMap Bytes Field := .empty

/-- `s.substr(pos, n)`. -/
def substr (s : Bytes) (pos n : Nat) : Bytes := (s.drop pos).take n

/-- The end of the headers of a field. -/
def headersEnd : Bytes := ascii "\r\n\r\n"

/-- The value of `Content-Type: `, as `_ParseHeaders` cuts it out.  `content_type_end_pos` is one
less than the position of the first blank, line feed or carriage return, or 0, and the length is
computed in a `size_t`. -/
def contentTypeOf (headers : Bytes) : Bytes :=
  match find (ascii "Content-Type: ") headers with
  | none => []
  | some contentTypePos =>
      let start := contentTypePos + 14
      let endPos : Int :=
        match (headers.drop start).findIdx? fun c => c = 32 || c = 10 || c = 13 with
        | some i => start + i - 1
        | none => 0
      substr headers start (u64 (endPos - start))

namespace Parser

/-- `SetContentType`. -/
def setContentType (p : Parser) (type : Bytes) : Except Bytes Parser :=
  if find (ascii "multipart/form-data;") type ≠ some 0 then
    .error (ascii "Content type is not \"multipart/form-data\"\nIt is \"" ++ type ++ ascii "\"")
  else
    match find (ascii "boundary=") type with
    | none => .error (ascii "Cannot find boundary in Content-type: \"" ++ type ++ ascii "\"")
    | some bp =>
        .ok { p with boundary := ascii "--" ++ substr type (bp + 9) (type.length - bp) }

/-- `BoundaryPositionInDataCollector`. -/
def boundaryPositionInDataCollector (p : Parser) : Option Nat := find p.boundary p.dataCollector

/-- `TruncateDataCollectorFromTheBeginning`. -/
def truncateDataCollectorFromTheBeginning (p : Parser) (n : Nat) : Parser :=
  { p with dataCollector := p.dataCollector.drop n }

/-- `FindStartingBoundaryAndTruncData`. -/
def findStartingBoundaryAndTruncData (p : Parser) : Bool × Parser :=
  match p.boundaryPositionInDataCollector with
  | some n => (true, p.truncateDataCollectorFromTheBeginning (n + p.boundary.length))
  | none => (false, p)

/-- `_ParseHeaders`. -/
def parseHeaders (p : Parser) (headers : Bytes) : Except Bytes Parser :=
  let quoted := ascii "\nThe headers are: \"" ++ headers ++ ascii "\""
  if find (ascii "Content-Disposition: form-data;") headers = none then
    .error (ascii "Accepted headers of field does not contain \"Content-Disposition: form-data;\"" ++
      quoted)
  else
    match find (ascii "name=\"") headers with
    | none => .error (ascii "Accepted headers of field does not contain \"name=\"." ++ quoted)
    | some namePos =>
        match findFrom (ascii "\"") headers (namePos + 6) with
        | none => .error (ascii "Cannot find closing quote of \"name=\" attribute." ++ quoted)
        | some nameEndPos =>
            let name := substr headers (namePos + 6) (nameEndPos - (namePos + 6))
            match find (ascii "filename=\"") headers with
            | none =>
                .ok { p with
                  processingFieldName := name
                  fields := p.fields.insert name { type := .text } }
            | some filenamePos =>
                match findFrom (ascii "\"") headers (filenamePos + 10) with
                | none =>
                    .error (ascii "Cannot find closing quote of \"filename=\" attribute." ++ quoted)
                | some filenameEndPos =>
                    .ok { p with
                      processingFieldName := name
                      fields := p.fields.insert name
                        { type := .file
                          fileName := substr headers (filenamePos + 10)
                            (filenameEndPos - (filenamePos + 10))
                          fileContentType := contentTypeOf headers } }

/-- `WaitForHeadersEndAndParseThem`.  The headers become a C string on the way. -/
def waitForHeadersEndAndParseThem (p : Parser) : Except Bytes (Bool × Parser) :=
  match find headersEnd p.dataCollector with
  | some i =>
      (p.parseHeaders (cstr (p.dataCollector.take i))).map fun q =>
        (true, q.truncateDataCollectorFromTheBeginning (i + 4))
  | none => .ok (false, p)

/-- The field that is processed gets the first `n` bytes, if `n` is positive.  There is such a field
(`Inv`). -/
def sendToField (p : Parser) (n : Int) : Except Bytes Parser :=
  if n > 0 then
    match p.fields.get p.processingFieldName with
    | none => .ok (p.truncateDataCollectorFromTheBeginning n.toNat)
    | some f =>
        (f.acceptSomeData (p.dataCollector.take n.toNat)).map fun f' =>
          { p with fields := p.fields.insert p.processingFieldName f' }
            |>.truncateDataCollectorFromTheBeginning n.toNat
  else .ok p

/-- `DataLengthToSendToField`: up to the line break before the boundary, or all but as many bytes as
may belong to the two. -/
def dataLengthToSendToField (p : Parser) : Int :=
  match p.boundaryPositionInDataCollector with
  | some n => n - 2
  | none => p.dataCollector.length - (p.boundary.length + 2)

/-- `ProcessContentOfTheField`. -/
def processContentOfTheField (p : Parser) : Except Bytes (Bool × Parser) :=
  (p.sendToField p.dataLengthToSendToField).map fun q =>
    if p.boundaryPositionInDataCollector.isSome then
      (true, { q with currentStatus := .lookingForStartingBoundary })
    else (false, q)

/-- What a status function says: to go on with the next status, to wait for more, or an
exception. -/
def next (status : Status) : Except Bytes (Bool × Parser) → Parser ⊕ Except Bytes Parser
  | .error e => .inr (.error e)
  | .ok (true, q) => .inl { q with currentStatus := status }
  | .ok (false, q) => .inr (.ok q)

/-- A round of the loop of `_ProcessData`. -/
def processRound (p : Parser) : Parser ⊕ Except Bytes Parser :=
  match p.currentStatus with
  | .lookingForStartingBoundary =>
      next .processingHeaders (.ok p.findStartingBoundaryAndTruncData)
  | .processingHeaders => next .processingContentOfTheField p.waitForHeadersEndAndParseThem
  | .processingContentOfTheField => next .lookingForStartingBoundary p.processContentOfTheField

/-- As many rounds as there can be. -/
def rounds (p : Parser) : Nat :=
  3 * p.dataCollector.length +
    match p.currentStatus with
    | .lookingForStartingBoundary => 1
    | .processingHeaders => 0
    | .processingContentOfTheField => 2

/-- `_ProcessData`. -/
def processData (p : Parser) : Except Bytes Parser :=
  (loop processRound (p.rounds + 1) p).getD (.ok p)

/-- `AcceptSomeData`.  For a negative `length`, which a body of 2^31 bytes or more can have as an
`int`, `new char[length]` throws what is no `MPFD::Exception`, so that `ParasrMultipartPost` does not
catch it; here it is an exception like the others.  The loops over what is collected count in an
`int`, and do what `find` does if that is shorter than 2^31 bytes. -/
def acceptSomeData (p : Parser) (data : Bytes) (length : Int) : Except Bytes Parser :=
  if p.boundary.length > 0 then
    if length < 0 then .error (ascii "std::bad_array_new_length")
    else
      let q := { p with dataCollector := p.dataCollector ++ data.take length.toNat }
      if (q.dataCollector.length : Int) > q.maxDataCollectorLength then
        .error (ascii "Maximum data collector length reached.")
      else q.processData
  else .error (ascii "Accepting data, but content type was not set.")

/-! ### What a round does -/

variable {p q : Parser} {e : Bytes} {n : Int}

/-- Headers that are accepted open an empty field. -/
theorem parseHeaders_eq_ok {headers : Bytes} (h : p.parseHeaders headers = .ok q) :
    ∃ name f, f.type ≠ .unset ∧ f.fieldContent = [] ∧
      q = { p with processingFieldName := name, fields := p.fields.insert name f } := by
  simp only [parseHeaders] at h
  split at h
  · cases h
  split at h
  · cases h
  split at h
  · cases h
  split at h
  · obtain rfl := Except.ok.inj h
    exact ⟨_, { type := .text }, by decide, rfl, rfl⟩
  split at h
  · cases h
  · obtain rfl := Except.ok.inj h
    exact ⟨_, _, FieldType.noConfusion, rfl, rfl⟩

/-- What is sent to the field is taken from what is collected. -/
theorem sendToField_eq_ok (h : p.sendToField n = .ok q) :
    ∃ fields, q = { p with
      fields := fields, dataCollector := p.dataCollector.drop n.toNat } := by
  simp only [sendToField] at h
  split at h
  next hn =>
    split at h
    · obtain rfl := Except.ok.inj h
      exact ⟨p.fields, rfl⟩
    next f hf =>
      cases ha : f.acceptSomeData (p.dataCollector.take n.toNat) with
      | error e =>
          rw [ha] at h
          cases h
      | ok f' =>
          rw [ha] at h
          obtain rfl := Except.ok.inj h
          exact ⟨p.fields.insert p.processingFieldName f', rfl⟩
  next hn =>
    obtain rfl := Except.ok.inj h
    exact ⟨p.fields, by rw [Int.toNat_of_nonpos (Int.not_lt.mp hn), List.drop_zero]⟩

/-- What a round can do: go on in a new state, or end with what `_ProcessData` ends with. -/
inductive Round (p : Parser) : Parser ⊕ Except Bytes Parser → Prop where
  | boundary {n : Nat} (status : p.currentStatus = .lookingForStartingBoundary)
      (found : find p.boundary p.dataCollector = some n) :
      Round p (.inl { p with
        currentStatus := .processingHeaders
        dataCollector := p.dataCollector.drop (n + p.boundary.length) })
  | noBoundary (status : p.currentStatus = .lookingForStartingBoundary)
      (found : find p.boundary p.dataCollector = none) : Round p (.inr (.ok p))
  | headers {i : Nat} {q : Parser} (status : p.currentStatus = .processingHeaders)
      (found : find headersEnd p.dataCollector = some i)
      (parsed : p.parseHeaders (cstr (p.dataCollector.take i)) = .ok q) :
      Round p (.inl { q with
        currentStatus := .processingContentOfTheField
        dataCollector := q.dataCollector.drop (i + 4) })
  | badHeaders {i : Nat} {e : Bytes} (status : p.currentStatus = .processingHeaders)
      (found : find headersEnd p.dataCollector = some i)
      (parsed : p.parseHeaders (cstr (p.dataCollector.take i)) = .error e) :
      Round p (.inr (.error e))
  | noHeaders (status : p.currentStatus = .processingHeaders)
      (found : find headersEnd p.dataCollector = none) : Round p (.inr (.ok p))
  | content {n : Nat} {q : Parser} (status : p.currentStatus = .processingContentOfTheField)
      (found : find p.boundary p.dataCollector = some n) (sent : p.sendToField (n - 2) = .ok q) :
      Round p (.inl { q with currentStatus := .lookingForStartingBoundary })
  | someContent {q : Parser} (status : p.currentStatus = .processingContentOfTheField)
      (found : find p.boundary p.dataCollector = none)
      (sent : p.sendToField (p.dataCollector.length - (p.boundary.length + 2)) = .ok q) :
      Round p (.inr (.ok q))
  | notSent {e : Bytes} (status : p.currentStatus = .processingContentOfTheField)
      (sent : p.sendToField p.dataLengthToSendToField = .error e) : Round p (.inr (.error e))

theorem dataLengthToSendToField_of_some {n : Nat}
    (h : find p.boundary p.dataCollector = some n) : p.dataLengthToSendToField = n - 2 := by
  rw [dataLengthToSendToField, boundaryPositionInDataCollector, h]

theorem dataLengthToSendToField_of_none (h : find p.boundary p.dataCollector = none) :
    p.dataLengthToSendToField = p.dataCollector.length - (p.boundary.length + 2) := by
  rw [dataLengthToSendToField, boundaryPositionInDataCollector, h]

theorem round_processRound (p : Parser) : Round p p.processRound := by
  rw [processRound]
  split
  next hs =>
    rw [findStartingBoundaryAndTruncData, boundaryPositionInDataCollector]
    split
    next n hn => exact .boundary hs hn
    next hn => exact .noBoundary hs hn
  next hs =>
    rw [waitForHeadersEndAndParseThem]
    split
    next i hi =>
      cases hp : p.parseHeaders (cstr (p.dataCollector.take i)) with
      | error e => exact .badHeaders hs hi hp
      | ok q => exact .headers hs hi hp
    next hi => exact .noHeaders hs hi
  next hs =>
    rw [processContentOfTheField]
    cases hp : p.sendToField p.dataLengthToSendToField with
    | error e => exact .notSent hs hp
    | ok q =>
        cases hn : find p.boundary p.dataCollector with
        | none =>
            rw [dataLengthToSendToField_of_none hn] at hp
            simp only [Except.map, boundaryPositionInDataCollector, hn]
            exact .someContent hs hn hp
        | some n =>
            rw [dataLengthToSendToField_of_some hn] at hp
            simp only [Except.map, boundaryPositionInDataCollector, hn]
            exact Round.content (q := q) hs hn hp

/-- The three statuses and what is found leave one way to go on. -/
theorem round_iff {r : Parser ⊕ Except Bytes Parser} : Round p r ↔ p.processRound = r := by
  constructor
  · intro h
    cases h with
    | boundary hs hn =>
        simp only [processRound, hs, findStartingBoundaryAndTruncData,
          boundaryPositionInDataCollector, hn]
        rfl
    | noBoundary hs hn =>
        simp only [processRound, hs, findStartingBoundaryAndTruncData,
          boundaryPositionInDataCollector, hn, next]
    | headers hs hi hq =>
        simp only [processRound, hs, waitForHeadersEndAndParseThem, hi, hq]
        rfl
    | badHeaders hs hi hq =>
        simp only [processRound, hs, waitForHeadersEndAndParseThem, hi, hq]
        rfl
    | noHeaders hs hi => simp only [processRound, hs, waitForHeadersEndAndParseThem, hi, next]
    | content hs hn hq =>
        simp only [processRound, hs, processContentOfTheField,
          dataLengthToSendToField_of_some hn, hq, boundaryPositionInDataCollector, hn]
        rfl
    | someContent hs hn hq =>
        simp only [processRound, hs, processContentOfTheField,
          dataLengthToSendToField_of_none hn, hq, boundaryPositionInDataCollector, hn]
        rfl
    | notSent hs hq =>
        simp only [processRound, hs, processContentOfTheField, hq]
        rfl
  · rintro rfl
    exact round_processRound p

/-! ### The loop ends -/

/-- A round that is not the last leaves fewer rounds. -/
theorem rounds_lt (h : Round p (.inl q)) : q.rounds < p.rounds := by
  cases h with
  | boundary hs hn =>
      simp only [rounds, hs, List.length_drop]
      omega
  | headers hs hi hq =>
      obtain ⟨name, f, -, -, rfl⟩ := parseHeaders_eq_ok hq
      have hle : _ + 4 ≤ p.dataCollector.length := find_le hi
      simp only [rounds, hs, List.length_drop]
      omega
  | content hs hn hq =>
      obtain ⟨fields, rfl⟩ := sendToField_eq_ok hq
      simp only [rounds, hs, List.length_drop]
      omega

/-- Induction along the rounds. -/
theorem round_induction {motive : Parser → Prop}
    (step : ∀ p, (∀ q, Round p (.inl q) → motive q) → motive p) (p : Parser) : motive p := by
  induction h : p.rounds using Nat.strong_induction_on generalizing p with
  | _ n ih =>
      subst h
      exact step p fun q hq => ih _ (rounds_lt hq) q rfl

theorem exists_loop (p : Parser) :
    ∃ r, ∀ fuel, p.rounds < fuel → loop processRound fuel p = some r := by
  obtain ⟨r, -, hr⟩ := @loop_total _ _ processRound p (fun _ => True) (fun _ => True) rounds
    (fun _ _ _ h => ⟨trivial, rounds_lt (round_iff.mpr h)⟩) (fun _ _ _ _ => trivial) trivial
  exact ⟨r, hr⟩

theorem processData_of_inl (h : Round p (.inl q)) : p.processData = q.processData := by
  obtain ⟨r, hr⟩ := exists_loop q
  rw [processData, processData, loop_next (round_iff.mp h), hr _ (rounds_lt h),
    hr _ (Nat.lt_succ_self _), Option.getD_some, Option.getD_some]

theorem processData_of_inr {r : Except Bytes Parser} (h : Round p (.inr r)) :
    p.processData = r := by
  rw [processData, loop_end (round_iff.mp h), Option.getD_some]

/-! ### Collecting more -/

/-- `p` with `t` behind what it has collected. -/
def collect (p : Parser) (t : Bytes) : Parser := { p with dataCollector := p.dataCollector ++ t }

variable {t : Bytes}

theorem parseHeaders_collect (headers : Bytes) :
    (p.collect t).parseHeaders headers = (p.parseHeaders headers).map (·.collect t) := by
  simp only [parseHeaders, collect]
  split
  · rfl
  split
  · rfl
  split
  · rfl
  split
  · rfl
  split <;> rfl

/-- What is sent from what is there. -/
theorem sendToField_collect (h : n.toNat ≤ p.dataCollector.length) :
    (p.collect t).sendToField n = (p.sendToField n).map (·.collect t) := by
  simp only [sendToField, collect, truncateDataCollectorFromTheBeginning,
    List.take_append_of_le_length h, List.drop_append_of_le_length h]
  split
  · split
    · rfl
    next f hf =>
      cases f.acceptSomeData (p.dataCollector.take n.toNat) <;> rfl
  · rfl

/-- What is sent in two goes. -/
theorem sendToField_add {m : Int} (hn : 0 < n) (hm : 0 < m) :
    p.sendToField (n + m) = (p.sendToField n).bind (·.sendToField m) := by
  have hnm : n + m > 0 := by omega
  have htoNat : (n + m).toNat = n.toNat + m.toNat := by omega
  simp only [sendToField, if_pos hn, if_pos hm, if_pos hnm, htoNat]
  cases hf : p.fields.get p.processingFieldName with
  | none =>
      simp only [Except.bind, truncateDataCollectorFromTheBeginning, hf, List.drop_drop]
  | some f =>
      by_cases htype : f.type = .unset
      · simp only [Field.acceptSomeData, if_pos htype, Except.map, Except.bind]
      · simp only [Field.acceptSomeData, if_neg htype, Except.map, Except.bind,
          truncateDataCollectorFromTheBeginning, OrderedMap.get_insert_self,
          OrderedMap.insert_insert, List.drop_drop, List.append_assoc, List.take_add]

/-- What is sent before more is collected, and after. -/
theorem sendToField_collect_add {m : Int} (hn : 0 < n) (hm : 0 ≤ m)
    (h : n.toNat ≤ p.dataCollector.length) :
    (p.collect t).sendToField (n + m) =
      (p.sendToField n).bind fun q => (q.collect t).sendToField m := by
  rcases Int.lt_or_eq_of_le hm with hm | rfl
  · rw [sendToField_add hn hm, sendToField_collect h]
    cases p.sendToField n <;> rfl
  · rw [Int.add_zero, sendToField_collect h]
    cases p.sendToField n <;> rfl

/-- Only a field without a type does not take what is sent. -/
theorem sendToField_eq_error_iff :
    p.sendToField n = .error e ↔ 0 < n ∧ ∃ f, p.fields.get p.processingFieldName = some f ∧
      f.type = .unset ∧ e = ascii "Trying to AcceptSomeData but no type was set." := by
  by_cases hn : n > 0
  · simp only [sendToField, if_pos hn]
    cases hf : p.fields.get p.processingFieldName with
    | none => simp
    | some f =>
        by_cases htype : f.type = .unset
        · simp [Field.acceptSomeData, htype, Except.map, hn, eq_comm]
        · simp [Field.acceptSomeData, htype, Except.map]
  · simp [sendToField, hn]

/-- A boundary that is found only with what is collected later starts at the end at the earliest. -/
theorem find_collect_of_none (h : find p.boundary p.dataCollector = none) {m : Nat}
    (hm : find p.boundary (p.dataCollector ++ t) = some m) :
    p.dataCollector.length < m + p.boundary.length := by
  refine Nat.not_le.mp fun hle => ?_
  exact find_eq_none_iff.mp h m ((occursAt_append_iff hle).mp (find_eq_some_iff.mp hm).1)

theorem dataLengthToSendToField_le_collect :
    p.dataLengthToSendToField ≤ (p.collect t).dataLengthToSendToField := by
  cases hn : find p.boundary p.dataCollector with
  | some n =>
      rw [dataLengthToSendToField_of_some hn,
        dataLengthToSendToField_of_some (p := p.collect t) (find_append hn t)]
  | none =>
      rw [dataLengthToSendToField_of_none hn]
      cases hm : find p.boundary (p.dataCollector ++ t) with
      | none =>
          rw [dataLengthToSendToField_of_none (p := p.collect t) hm]
          simp only [collect, List.length_append]
          omega
      | some m =>
          have hlt := find_collect_of_none hn hm
          rw [dataLengthToSendToField_of_some (p := p.collect t) hm]
          omega

/-- A round that goes on does so with more behind it. -/
theorem Round.collect_inl (h : Round p (.inl q)) : Round (p.collect t) (.inl (q.collect t)) := by
  cases h with
  | @boundary n hs hn =>
      have hle := find_le hn
      have hround := Round.boundary (p := p.collect t) hs (find_append hn t)
      simp only [collect, List.drop_append_of_le_length hle] at hround ⊢
      exact hround
  | @headers i q hs hi hq =>
      have hle : i + 4 ≤ p.dataCollector.length := find_le hi
      have hq' : (p.collect t).parseHeaders (cstr ((p.collect t).dataCollector.take i)) =
          .ok (q.collect t) := by
        rw [parseHeaders_collect]
        simp only [collect]
        rw [List.take_append_of_le_length (by omega), hq]
        rfl
      have hround := Round.headers (p := p.collect t) hs (find_append hi t) hq'
      obtain ⟨name, f, -, -, rfl⟩ := parseHeaders_eq_ok hq
      simp only [collect, List.drop_append_of_le_length hle] at hround ⊢
      exact hround
  | @content n q hs hn hq =>
      have hle := find_le hn
      have hq' : (p.collect t).sendToField (n - 2) = .ok (q.collect t) := by
        rw [sendToField_collect (by omega), hq]
        rfl
      exact Round.content (p := p.collect t) hs (find_append hn t) hq'

/-- So does one that fails. -/
theorem Round.collect_error (h : Round p (.inr (.error e))) :
    Round (p.collect t) (.inr (.error e)) := by
  cases h with
  | @badHeaders i e hs hi hq =>
      have hle := find_le hi
      refine Round.badHeaders (p := p.collect t) hs (find_append hi t) ?_
      rw [parseHeaders_collect]
      simp only [collect]
      rw [List.take_append_of_le_length (by omega), hq]
      rfl
  | notSent hs hq =>
      obtain ⟨hpos, hfield⟩ := sendToField_eq_error_iff.mp hq
      have hle := @dataLengthToSendToField_le_collect p t
      exact Round.notSent (p := p.collect t) hs
        (sendToField_eq_error_iff.mpr ⟨by omega, hfield⟩)

/-- What was sent to the field before a round may as well be sent in it. -/
theorem processContentOfTheField_collect (hn : find p.boundary p.dataCollector = none)
    (hq : p.sendToField (p.dataCollector.length - (p.boundary.length + 2)) = .ok q) :
    (p.collect t).processContentOfTheField = (q.collect t).processContentOfTheField := by
  by_cases hk : 0 < (p.dataCollector.length : Int) - (p.boundary.length + 2)
  · obtain ⟨k, hkL, hk0⟩ : ∃ k : Nat,
        (p.dataCollector.length : Int) - (p.boundary.length + 2) = k ∧ 0 < k :=
      ⟨p.dataCollector.length - (p.boundary.length + 2), by omega, by omega⟩
    rw [hkL] at hq
    obtain ⟨fields, hfields⟩ := sendToField_eq_ok hq
    have hcollected : (q.collect t).dataCollector = p.dataCollector.drop k ++ t := by
      rw [hfields]
      rfl
    have hboundary : (q.collect t).boundary = p.boundary := by
      rw [hfields]
      rfl
    have hfind : find p.boundary (p.collect t).dataCollector =
        (find (q.collect t).boundary (q.collect t).dataCollector).map (k + ·) := by
      rw [hcollected, hboundary]
      exact find_append_drop hn (by omega) (by omega) t
    have hlength : (p.collect t).dataLengthToSendToField =
        k + (q.collect t).dataLengthToSendToField ∧
          0 ≤ (q.collect t).dataLengthToSendToField := by
      cases hm : find (q.collect t).boundary (q.collect t).dataCollector with
      | none =>
          rw [hm, Option.map_none] at hfind
          rw [dataLengthToSendToField_of_none hm, hcollected, hboundary,
            dataLengthToSendToField_of_none (p := p.collect t) hfind]
          simp only [collect, List.length_append, List.length_drop]
          omega
      | some m =>
          rw [hm, Option.map_some] at hfind
          have hlt : p.dataCollector.length < k + m + p.boundary.length :=
            find_collect_of_none hn hfind
          rw [dataLengthToSendToField_of_some hm,
            dataLengthToSendToField_of_some (p := p.collect t) hfind]
          omega
    have hsome : (p.collect t).boundaryPositionInDataCollector.isSome =
        (q.collect t).boundaryPositionInDataCollector.isSome := by
      rw [boundaryPositionInDataCollector, boundaryPositionInDataCollector]
      change (find p.boundary (p.collect t).dataCollector).isSome = _
      rw [hfind, Option.isSome_map]
    rw [processContentOfTheField, processContentOfTheField, hsome, hlength.1,
      sendToField_collect_add (by omega) hlength.2 (by omega), hq]
    rfl
  · have hpq : p.sendToField (p.dataCollector.length - (p.boundary.length + 2)) = .ok p :=
      if_neg hk
    rw [hq] at hpq
    rw [Except.ok.inj hpq]

/-- A round that waits for more: the next round does not tell whether it took place. -/
theorem Round.collect_ok (h : Round p (.inr (.ok q))) :
    (p.collect t).processRound = (q.collect t).processRound := by
  cases h with
  | noBoundary hs hn => rfl
  | noHeaders hs hi => rfl
  | someContent hs hn hq =>
      have hcontent := @processContentOfTheField_collect p q t hn hq
      obtain ⟨fields, rfl⟩ := sendToField_eq_ok hq
      simp only [processRound, collect, hs] at hcontent ⊢
      rw [hcontent]

/-- **What is collected later may as well have been there before.** -/
theorem processData_collect (p : Parser) (t : Bytes) :
    (p.collect t).processData = p.processData.bind fun q => (q.collect t).processData := by
  induction p using round_induction with
  | step p ih =>
      cases hround : p.processRound with
      | inl q =>
          have hq := round_iff.mpr hround
          rw [processData_of_inl hq, processData_of_inl hq.collect_inl, ih q hq]
      | inr r =>
          have hr := round_iff.mpr hround
          rw [processData_of_inr hr]
          cases r with
          | error e => exact processData_of_inr hr.collect_error
          | ok q =>
              simp only [Except.bind]
              have heq := @Round.collect_ok p q t hr
              cases hnext : (q.collect t).processRound with
              | inl q' =>
                  rw [processData_of_inl (round_iff.mpr hnext),
                    processData_of_inl (round_iff.mpr (heq.trans hnext))]
              | inr r' =>
                  rw [processData_of_inr (round_iff.mpr hnext),
                    processData_of_inr (round_iff.mpr (heq.trans hnext))]

/-! ### What no round changes -/

/-- `q` has the boundary and the limit of `p`, and has not collected more. -/
structure Follows (p q : Parser) : Prop where
  boundary : q.boundary = p.boundary
  limit : q.maxDataCollectorLength = p.maxDataCollectorLength
  length : q.dataCollector.length ≤ p.dataCollector.length

theorem Round.follows_inl (h : Round p (.inl q)) : Follows p q := by
  cases h with
  | boundary hs hn => exact ⟨rfl, rfl, by simp⟩
  | headers hs hi hq =>
      obtain ⟨name, f, -, -, rfl⟩ := parseHeaders_eq_ok hq
      exact ⟨rfl, rfl, by simp⟩
  | content hs hn hq =>
      obtain ⟨fields, rfl⟩ := sendToField_eq_ok hq
      exact ⟨rfl, rfl, by simp⟩

theorem Round.follows_ok (h : Round p (.inr (.ok q))) : Follows p q := by
  cases h with
  | noBoundary hs hn => exact ⟨rfl, rfl, Nat.le_refl _⟩
  | noHeaders hs hi => exact ⟨rfl, rfl, Nat.le_refl _⟩
  | someContent hs hn hq =>
      obtain ⟨fields, rfl⟩ := sendToField_eq_ok hq
      exact ⟨rfl, rfl, by simp⟩

/-- What every round keeps, the loop keeps. -/
theorem processData_inv {I J : Parser → Prop} (hinl : ∀ p q, I p → Round p (.inl q) → I q)
    (hok : ∀ p q, I p → Round p (.inr (.ok q)) → J q) (hp : I p) (h : p.processData = .ok q) :
    J q := by
  induction p using round_induction with
  | step p ih =>
      cases hround : p.processRound with
      | inl p' =>
          have hp' := round_iff.mpr hround
          rw [processData_of_inl hp'] at h
          exact ih p' hp' (hinl p p' hp hp') h
      | inr r =>
          have hr := round_iff.mpr hround
          rw [processData_of_inr hr] at h
          subst h
          exact hok p q hp hr

theorem processData_follows (h : p.processData = .ok q) : Follows p q := by
  refine processData_inv (I := Follows p) (J := Follows p) ?_ ?_ ⟨rfl, rfl, Nat.le_refl _⟩ h
  · intro p' q' hp' hround
    have hq' := hround.follows_inl
    exact ⟨hq'.1.trans hp'.1, hq'.2.trans hp'.2, hq'.3.trans hp'.3⟩
  · intro p' q' hp' hround
    have hq' := hround.follows_ok
    exact ⟨hq'.1.trans hp'.1, hq'.2.trans hp'.2, hq'.3.trans hp'.3⟩

/-- A parser that has processed its data has nothing more to do. -/
theorem processData_of_processed (h : p.processData = .ok q) : q.processData = .ok q := by
  have hcollect := processData_collect p []
  have hnil : ∀ r : Parser, r.collect [] = r := by
    intro r
    simp [collect]
  simp only [hnil, h, Except.bind] at hcollect
  exact hcollect.symm

/-! ### Fields have types -/

/-- While the content of a field is processed there is such a field, and all fields have types. -/
structure Inv (p : Parser) : Prop where
  current : p.currentStatus = .processingContentOfTheField →
    (p.fields.get p.processingFieldName).isSome = true
  typed : ∀ name f, p.fields.get name = some f → f.type ≠ .unset

/-- Fields that are replaced by fields with types. -/
theorem typed_insert {fields : OrderedMap Bytes Field} {name : Bytes} {f : Field}
    (h : ∀ name f, fields.get name = some f → f.type ≠ .unset) (hf : f.type ≠ .unset) :
    ∀ name' f', (fields.insert name f).get name' = some f' → f'.type ≠ .unset := by
  intro name' f' h'
  rw [OrderedMap.get_insert] at h'
  split_ifs at h' with hname
  · obtain rfl := Option.some.inj h'
    exact hf
  · exact h name' f' h'

/-- What is sent goes to the end of the content of a field with a type. -/
theorem sendToField_of_get {f : Field} (hf : p.fields.get p.processingFieldName = some f)
    (htype : f.type ≠ .unset) (n : Int) :
    p.sendToField n = .ok { p with
      fields := p.fields.insert p.processingFieldName
        { f with fieldContent := f.fieldContent ++ p.dataCollector.take n.toNat }
      dataCollector := p.dataCollector.drop n.toNat } := by
  rw [sendToField]
  split
  next hn =>
    simp only [hf, Field.acceptSomeData, if_neg htype]
    rfl
  next hn =>
    have hzero : n.toNat = 0 := Int.toNat_of_nonpos (Int.not_lt.mp hn)
    have hsame : p.fields.insert p.processingFieldName f = p.fields := by
      refine OrderedMap.ext_get fun name => ?_
      rw [OrderedMap.get_insert]
      split_ifs with hname
      · rw [hname, hf]
      · rfl
    simp only [hzero, List.take_zero, List.append_nil, List.drop_zero, hsame]

theorem Inv.sendToField (hp : Inv p) (hs : p.currentStatus = .processingContentOfTheField)
    (n : Int) :
    ∃ f, p.fields.get p.processingFieldName = some f ∧ p.sendToField n =
      .ok { p with
        fields := p.fields.insert p.processingFieldName
          { f with fieldContent := f.fieldContent ++ p.dataCollector.take n.toNat }
        dataCollector := p.dataCollector.drop n.toNat } := by
  obtain ⟨f, hf⟩ := Option.isSome_iff_exists.mp (hp.current hs)
  exact ⟨f, hf, sendToField_of_get hf (hp.typed _ _ hf) n⟩

theorem Inv.round_inl (hp : Inv p) (h : Round p (.inl q)) : Inv q := by
  cases h with
  | boundary hs hn => exact ⟨Status.noConfusion, hp.typed⟩
  | headers hs hi hq =>
      obtain ⟨name, f, hf, -, rfl⟩ := parseHeaders_eq_ok hq
      exact ⟨fun _ => by simp, typed_insert hp.typed hf⟩
  | content hs hn hq =>
      obtain ⟨f, hf, hsent⟩ := hp.sendToField hs _
      obtain rfl := Except.ok.inj (hq.symm.trans hsent)
      exact ⟨Status.noConfusion, typed_insert hp.typed (hp.typed _ f hf)⟩

theorem Inv.round_ok (hp : Inv p) (h : Round p (.inr (.ok q))) : Inv q := by
  cases h with
  | noBoundary hs hn => exact hp
  | noHeaders hs hi => exact hp
  | someContent hs hn hq =>
      obtain ⟨f, hf, hsent⟩ := hp.sendToField hs _
      obtain rfl := Except.ok.inj (hq.symm.trans hsent)
      exact ⟨fun _ => by simp, typed_insert hp.typed (hp.typed _ f hf)⟩

/-- **Every exception of the loop is one of `_ParseHeaders`.** -/
theorem Inv.processData_eq_error (hp : Inv p) (h : p.processData = .error e) :
    ∃ (q : Parser) (headers : Bytes), q.parseHeaders headers = .error e := by
  induction p using round_induction with
  | step p ih =>
      cases hround : p.processRound with
      | inl q =>
          have hq := round_iff.mpr hround
          rw [processData_of_inl hq] at h
          exact ih q hq (hp.round_inl hq) h
      | inr r =>
          have hr := round_iff.mpr hround
          rw [processData_of_inr hr] at h
          subst h
          cases hr with
          | badHeaders hs hi hq => exact ⟨p, _, hq⟩
          | notSent hs hq =>
              obtain ⟨f, hf, hsent⟩ := hp.sendToField hs p.dataLengthToSendToField
              cases hq.symm.trans hsent

/-! ### What fields contain -/

/-- A piece of `body` without the boundary in it. -/
def Piece (boundary body content : Bytes) : Prop :=
  content <:+: body ∧ ¬ boundary <:+: content

/-- In the middle of `body`: what is collected is the rest of it, and what the fields contain are
pieces of it.  The field that is processed is empty. -/
structure Within (body : Bytes) (p : Parser) : Prop where
  inv : Inv p
  rest : p.dataCollector <:+ body
  pieces : ∀ name f, p.fields.get name = some f → Piece p.boundary body f.fieldContent
  empty : p.currentStatus = .processingContentOfTheField →
    ∀ f, p.fields.get p.processingFieldName = some f → f.fieldContent = []

theorem not_infix_of_find {pat s : Bytes} (h : find pat s = none) : ¬ pat <:+: s := by
  rintro ⟨a, b, rfl⟩
  exact find_eq_none_iff.mp h a.length (occursAt_iff.mpr ⟨a, b, rfl, rfl⟩)

variable {body : Bytes}

/-- At the start of a body. -/
theorem within_start (hs : p.currentStatus = .lookingForStartingBoundary)
    (hf : p.fields = .empty) : Within p.dataCollector p := by
  have hstatus : p.currentStatus ≠ .processingContentOfTheField := by
    rw [hs]
    exact Status.noConfusion
  have hget : ∀ name f, p.fields.get name ≠ some f := by
    intro name f h
    rw [hf] at h
    cases h
  exact
    { inv := ⟨fun h => absurd h hstatus, fun name f h => absurd h (hget name f)⟩
      rest := List.suffix_rfl
      pieces := fun name f h => absurd h (hget name f)
      empty := fun h => absurd h hstatus }

/-- What is sent to a field is a piece, if the boundary is not found in it. -/
theorem Within.sent (hp : Within body p) (hs : p.currentStatus = .processingContentOfTheField)
    (hfind : find p.boundary (p.dataCollector.take n.toNat) = none)
    (hq : p.sendToField n = .ok q) :
    Inv q ∧ q.dataCollector <:+ body ∧
      ∀ name f, q.fields.get name = some f → Piece q.boundary body f.fieldContent := by
  obtain ⟨f, hf, hsent⟩ := hp.inv.sendToField hs n
  obtain rfl := Except.ok.inj (hq.symm.trans hsent)
  refine ⟨⟨fun _ => by simp, typed_insert hp.inv.typed (hp.inv.typed _ f hf)⟩,
    (List.drop_suffix _ _).trans hp.rest, ?_⟩
  intro name f' hf'
  simp only [OrderedMap.get_insert] at hf'
  split_ifs at hf' with hname
  · obtain rfl := Option.some.inj hf'
    rw [hp.empty hs f hf, List.nil_append]
    exact ⟨(List.take_prefix _ _).isInfix.trans hp.rest.isInfix, not_infix_of_find hfind⟩
  · exact hp.pieces name f' hf'

theorem Within.round_inl (hb : p.boundary ≠ []) (hp : Within body p) (h : Round p (.inl q)) :
    Within body q := by
  cases h with
  | boundary hs hn =>
      exact ⟨hp.inv.round_inl (.boundary hs hn), (List.drop_suffix _ _).trans hp.rest, hp.pieces,
        Status.noConfusion⟩
  | headers hs hi hq =>
      have hinv := hp.inv.round_inl (.headers hs hi hq)
      obtain ⟨name, f, -, hempty, rfl⟩ := parseHeaders_eq_ok hq
      refine ⟨hinv, (List.drop_suffix _ _).trans hp.rest, ?_, ?_⟩
      · intro name' f' hf'
        simp only [OrderedMap.get_insert] at hf'
        split_ifs at hf' with hname
        · obtain rfl := Option.some.inj hf'
          rw [hempty]
          exact ⟨List.nil_infix, fun h => hb (List.infix_nil.mp h)⟩
        · exact hp.pieces name' f' hf'
      · intro _ f' hf'
        simp only [OrderedMap.get_insert_self, Option.some.injEq] at hf'
        rw [← hf', hempty]
  | @content n q hs hn hq =>
      have hpos := List.length_pos_of_ne_nil hb
      obtain ⟨hinv, hrest, hpieces⟩ := hp.sent hs (find_take hn (by omega)) hq
      exact ⟨⟨Status.noConfusion, hinv.typed⟩, hrest, hpieces, Status.noConfusion⟩

/-- **Whatever the body is, what a field contains is a piece of it**, without the boundary. -/
theorem processData_pieces (hb : p.boundary ≠ []) (hp : Within body p)
    (h : p.processData = .ok q) :
    ∀ name f, q.fields.get name = some f →
      f.type ≠ .unset ∧ Piece p.boundary body f.fieldContent := by
  have hboundary := (processData_follows h).boundary
  rw [← hboundary]
  refine processData_inv (I := fun p => p.boundary ≠ [] ∧ Within body p) (J := fun q =>
    ∀ name f, q.fields.get name = some f → f.type ≠ .unset ∧ Piece q.boundary body f.fieldContent)
    ?_ ?_ ⟨hb, hp⟩ h
  · rintro p q ⟨hb, hp⟩ hround
    refine ⟨?_, hp.round_inl hb hround⟩
    rw [hround.follows_inl.boundary]
    exact hb
  · rintro p q ⟨hb, hp⟩ hround name f hf
    refine ⟨(hp.inv.round_ok hround).typed name f hf, ?_⟩
    cases hround with
    | noBoundary hs hn => exact hp.pieces name f hf
    | noHeaders hs hi => exact hp.pieces name f hf
    | someContent hs hn hq =>
        refine (hp.sent hs ?_ hq).2.2 name f hf
        refine find_eq_none_iff.mpr fun m hm => find_eq_none_iff.mp hn m ?_
        rw [← List.take_append_drop (((p.dataCollector.length : Int) -
          (p.boundary.length + 2)).toNat) p.dataCollector]
        exact hm.append _

/-! ### Forms in pieces -/

theorem acceptSomeData_eq {data : Bytes} (hb : p.boundary ≠ [])
    (hlen : ((p.dataCollector.length + data.length : Nat) : Int) ≤ p.maxDataCollectorLength) :
    p.acceptSomeData data data.length = (p.collect data).processData := by
  have hpos : p.boundary.length > 0 := List.length_pos_of_ne_nil hb
  have hnonneg : ¬ (data.length : Int) < 0 := by omega
  have hle : ¬ ((p.dataCollector ++ data).length : Int) > p.maxDataCollectorLength := by
    rw [List.length_append]
    omega
  simp only [acceptSomeData, if_pos hpos, if_neg hnonneg, Int.toNat_natCast, List.take_length,
    if_neg hle]
  rfl

/-- A parser that has processed its data, and more pieces that fit. -/
theorem foldlM_acceptSomeData (pieces : List Bytes) (hp : p.processData = .ok p)
    (hb : p.boundary ≠ [])
    (hlen : ((p.dataCollector.length + pieces.flatten.length : Nat) : Int) ≤
      p.maxDataCollectorLength) :
    (pieces.foldlM (fun p data => p.acceptSomeData data data.length) p) =
      (p.collect pieces.flatten).processData := by
  induction pieces generalizing p with
  | nil =>
      simp only [List.foldlM_nil, List.flatten_nil, collect, List.append_nil]
      exact hp.symm
  | cons data pieces ih =>
      simp only [List.flatten_cons, List.length_append] at hlen
      have hdata : p.acceptSomeData data data.length = (p.collect data).processData :=
        acceptSomeData_eq hb (by omega)
      have hsplit : p.collect (data :: pieces).flatten =
          (p.collect data).collect pieces.flatten := by
        simp [collect]
      rw [List.foldlM_cons, hdata, hsplit, processData_collect (p.collect data)]
      cases hq : (p.collect data).processData with
      | error e => rfl
      | ok q =>
          have hfollows := processData_follows hq
          have hlength : q.dataCollector.length ≤ p.dataCollector.length + data.length := by
            simpa [collect] using hfollows.length
          have hboundary : q.boundary = p.boundary := hfollows.boundary
          have hlimit : q.maxDataCollectorLength = p.maxDataCollectorLength := hfollows.limit
          exact ih (processData_of_processed hq) (by rw [hboundary]; exact hb)
            (by rw [hlimit]; omega)

/-! ### `SetContentType` -/

/-- What `SetContentType` accepts. -/
theorem setContentType_eq_ok {type : Bytes} (h : p.setContentType type = .ok q) :
    ∃ b, find (ascii "boundary=") type = some b ∧
      q = { p with boundary := ascii "--" ++ type.drop (b + 9) } := by
  rw [setContentType] at h
  split at h
  · cases h
  split at h
  · cases h
  next b hb =>
    obtain rfl := Except.ok.inj h
    refine ⟨b, hb, ?_⟩
    have hlen := find_le hb
    rw [substr, List.take_of_length_le (by rw [List.length_drop]; omega)]

/-- A parser that looks for a boundary in nothing. -/
theorem processData_of_nil (hs : p.currentStatus = .lookingForStartingBoundary)
    (hb : p.boundary ≠ []) (hc : p.dataCollector = []) : p.processData = .ok p :=
  processData_of_inr (.noBoundary hs (by rw [hc]; exact find_nil_of_ne hb))

/-- **The pieces in which a form arrives make no difference**, if all of it fits: neither to the
fields, nor to an exception. -/
theorem acceptSomeData_pieces {contentType : Bytes} {limit : Int}
    (hp : setContentType { maxDataCollectorLength := limit } contentType = .ok p)
    (pieces : List Bytes) (hlen : (pieces.flatten.length : Int) ≤ limit) :
    pieces.foldlM (fun p data => p.acceptSomeData data data.length) p =
      p.acceptSomeData pieces.flatten pieces.flatten.length := by
  obtain ⟨b, -, rfl⟩ := setContentType_eq_ok hp
  have hb : ascii "--" ++ contentType.drop (b + 9) ≠ [] :=
    List.append_ne_nil_of_left_ne_nil (by decide) _
  rw [foldlM_acceptSomeData pieces (processData_of_nil rfl hb rfl) hb (by simpa using hlen),
    acceptSomeData_eq hb (by simpa using hlen)]

/-- A form in two pieces, cut in the boundary that ends its field. -/
theorem acceptSomeData_two_pieces :
    let pieces := [ascii "--b\r\nContent-Disposition: form-data; name=\"a\"\r\n\r\nx\r\n-",
      ascii "-b--\r\n"]
    let p : Parser := { boundary := ascii "--b", maxDataCollectorLength := 100 }
    pieces.foldlM (fun p data => p.acceptSomeData data data.length) p =
      p.acceptSomeData pieces.flatten pieces.flatten.length := by
  have hp : setContentType { maxDataCollectorLength := 100 }
      (ascii "multipart/form-data; boundary=b") =
        .ok { boundary := ascii "--b", maxDataCollectorLength := 100 } := rfl
  exact acceptSomeData_pieces hp _ (by decide)

end Parser

/-- The parser as `ParasrMultipartPost` uses it. -/
def mpfdParser : MpfdParser := fun contentType maxUploadFileSize buf length => do
  let p ← Parser.setContentType { maxDataCollectorLength := maxUploadFileSize } contentType
  let p ← p.acceptSomeData buf length
  return p.fields.mapValues Field.toMpfdField

/-! ### What `ParasrMultipartPost` takes -/

variable {contentType buf : Bytes} {limit length : Int}

/-- What the parser of `ParasrMultipartPost` goes through before it is asked for its fields. -/
theorem mpfdParser_eq_ok {fields : OrderedMap Bytes MpfdField}
    (h : mpfdParser contentType limit buf length = .ok fields) :
    ∃ b q, find (ascii "boundary=") contentType = some b ∧
      Parser.processData
        { boundary := ascii "--" ++ contentType.drop (b + 9)
          maxDataCollectorLength := limit
          dataCollector := buf.take length.toNat } = .ok q ∧
      fields = q.fields.mapValues Field.toMpfdField := by
  rw [mpfdParser] at h
  cases hp : Parser.setContentType { maxDataCollectorLength := limit } contentType with
  | error e =>
      rw [hp] at h
      cases h
  | ok p =>
      rw [hp] at h
      obtain ⟨b, hb, rfl⟩ := Parser.setContentType_eq_ok hp
      simp only [bind, Except.bind] at h
      split at h
      · cases h
      next q hq =>
        refine ⟨b, q, hb, ?_, (Except.ok.inj h).symm⟩
        have hpos : (ascii "--" ++ contentType.drop (b + 9)).length > 0 := by
          rw [List.length_append]
          exact Nat.add_pos_left (by decide) _
        simp only [Parser.acceptSomeData, if_pos hpos, List.nil_append] at hq
        split at hq
        · cases hq
        split at hq
        · cases hq
        · exact hq

/-- **What `ParasrMultipartPost` takes is a piece of the body**, whatever the request is: nothing
that was not sent in one piece is stored, and nothing that has the boundary in it. -/
theorem filedata_piece (contentType : Bytes) (limit : Int) (buf : Bytes) (length : Int) :
    let r := parasrMultipartPost mpfdParser limit contentType buf length
    r.2 <:+: buf ∧ ∀ b, find (ascii "boundary=") contentType = some b →
      ¬ ascii "--" ++ contentType.drop (b + 9) <:+: r.2 := by
  intro r
  have hnone : ∀ b, ¬ ascii "--" ++ contentType.drop (b + 9) <:+: [] := by
    intro b h
    have hnil := List.infix_nil.mp h
    exact absurd (List.append_eq_nil_iff.mp hnil).1 (by decide)
  simp only [r, parasrMultipartPost]
  split
  · exact ⟨List.nil_infix, fun b _ => hnone b⟩
  next fields hfields =>
    split
    next content hcontent =>
      obtain ⟨b, q, hb, hq, rfl⟩ := mpfdParser_eq_ok hfields
      obtain ⟨⟨name, field⟩, hmem, hfield⟩ := List.exists_of_findSome?_eq_some hcontent
      rw [OrderedMap.mem_rows, OrderedMap.get_mapValues] at hmem
      obtain ⟨f, hf, rfl⟩ := Option.map_eq_some_iff.mp hmem
      have hne : ascii "--" ++ contentType.drop (b + 9) ≠ [] :=
        List.append_ne_nil_of_left_ne_nil (by decide) _
      have hpiece := (Parser.processData_pieces hne (Parser.within_start rfl rfl) hq name f hf).2
      have hcontent : content = f.fieldContent := by
        simp only [Field.toMpfdField] at hfield
        split at hfield
        · cases hfield
        · exact (Option.some.inj hfield).symm
      rw [hcontent]
      refine ⟨hpiece.1.trans (List.take_prefix _ _).isInfix, fun b' hb' => ?_⟩
      obtain rfl := Option.some.inj (hb.symm.trans hb')
      exact hpiece.2
    · exact ⟨List.nil_infix, fun b _ => hnone b⟩

end XHttpCache.MPFD
