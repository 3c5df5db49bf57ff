import XHttpCache.Http.FormPosts

/-!
# Http — forms and back

A form as browsers send it: parts with a name, maybe with a file name and a content type, between
boundaries.  `MPFD::Parser` reads it back.

The layout of the headers of a part is fixed: the name and the file name between quotes, and the
content type last and without a blank.  A content type that another header follows loses its last
character (`contentTypeOf`).  A part has what can be written so in its fields.  A name has no quote,
and does not end with `filename=`, since `name="filename="` would be taken for a file; what is in a
part does not have the boundary in it.

* `parseHeaders_part`: the headers of a part open its field.
* `processData_part`: three rounds of the loop for each part.
* `mpfdParser_form`: the parser gets the fields of the form, later ones in place of earlier ones of
  the same name.
* `uploaded_form`: so the file of a form is what is stored, whatever bytes it has.
-/

namespace XHttpCache.MPFD
open Support

/-! ### Forms -/

/-- What can stand between quotes in the headers of a part. -/
structure Quotable (s : Bytes) : Prop where
  plain : 0 ∉ s ∧ 13 ∉ s ∧ 34 ∉ s
  noType : find (ascii "Content-Type: ") s = none

/-- What a part says about its file. -/
structure FileInfo where
  fileName : Bytes
  contentType : Bytes
  quotable : Quotable fileName
  token : 0 ∉ contentType ∧ 10 ∉ contentType ∧ 13 ∉ contentType ∧ 32 ∉ contentType

/-- A part of a form with the boundary `boundary`. -/
structure Part (boundary : Bytes) where
  name : Bytes
  file : Option FileInfo := none
  content : Bytes
  quotable : Quotable name
  noFile : ¬ ascii "filename=" <:+ name
  unbounded : find boundary content = none

/-- A form, with `boundary` as it stands in the `Content-Type` of the request. -/
structure Form where
  boundary : Bytes
  line : 10 ∉ boundary ∧ 13 ∉ boundary
  parts : List (Part (ascii "--" ++ boundary))

namespace Part

variable {boundary : Bytes} (x : Part boundary)

/-- The line of the name. -/
def disposition : Bytes :=
  ascii "Content-Disposition: form-data; name=\"" ++ x.name ++ ascii "\""

/-- What follows it for a file. -/
def fileHeaders (f : FileInfo) : Bytes :=
  ascii "; filename=\"" ++ f.fileName ++ ascii "\"\r\nContent-Type: " ++ f.contentType

/-- The headers, from the line break behind the boundary on. -/
def headers : Bytes := ascii "\r\n" ++ x.disposition ++ x.file.elim [] fileHeaders

/-- The part. -/
def render : Bytes := boundary ++ x.headers ++ headersEnd ++ x.content ++ ascii "\r\n"

/-- The field before its content comes. -/
def opened : Field :=
  x.file.elim { type := .text } fun f =>
    { type := .file, fileName := f.fileName, fileContentType := f.contentType }

/-- The field. -/
def field : Field := { x.opened with fieldContent := x.content }

end Part

/-- `fields` with those of the parts, one after another. -/
def addFields {boundary : Bytes} (parts : List (Part boundary)) (fields : OrderedMap Bytes Field) :
    OrderedMap Bytes Field :=
  parts.foldl (fun fields x => fields.insert x.name x.field) fields

namespace Form

/-- The body of a request with the form. -/
def render (form : Form) : Bytes :=
  form.parts.flatMap Part.render ++ (ascii "--" ++ form.boundary) ++ ascii "--\r\n"

/-- The fields of the form. -/
def fields (form : Form) : OrderedMap Bytes Field :=
  addFields form.parts .empty

end Form

/-! ### The headers of a part -/

section Headers

variable {boundary : Bytes} {x : Part boundary} {f : FileInfo}

/-- What stands before the name. -/
theorem headers_eq (x : Part boundary) :
    x.headers = ascii "\r\nContent-Disposition: form-data; name=\"" ++
      (x.name ++ 34 :: x.file.elim [] Part.fileHeaders) := by
  have hopen : ascii "\r\nContent-Disposition: form-data; name=\"" =
      ascii "\r\n" ++ ascii "Content-Disposition: form-data; name=\"" := by decide
  have hquote : ascii "\"" = [34] := by decide
  rw [Part.headers, Part.disposition, hopen, hquote]
  simp only [List.append_assoc, List.singleton_append]

/-- The closing quote of what can be quoted. -/
theorem find_quote {s : Bytes} (h : Quotable s) (t : Bytes) :
    find (ascii "\"") (s ++ 34 :: t) = some s.length := by
  have hquote : ascii "\"" = [34] := by decide
  have hzero : find [34] (34 :: t) = some 0 := find_self_append t
  rw [hquote, find_skip h.plain.2.2, hzero]
  rfl

/-- There is no `filename="` up to the quote behind the name. -/
theorem find_filename_name (x : Part boundary) :
    find (ascii "filename=\"")
      (ascii "\r\nContent-Disposition: form-data; name=\"" ++ (x.name ++ [34])) = none := by
  have hopen : ascii "\r\nContent-Disposition: form-data; name=\"" =
      ascii "\r\nContent-Disposition: form-data" ++ 59 :: ascii " name=\"" := by decide
  have hpat : ascii "filename=\"" = ascii "filename=" ++ [34] := by decide
  have hcons : ascii "filename=\"" = 102 :: ascii "ilename=\"" := by decide
  have hname : find (ascii "filename=\"") (x.name ++ [34]) = none := by
    rw [hpat]
    exact find_concat_eq_none x.quotable.plain.2.2 x.noFile
  have hskip : find (ascii "filename=\"") (ascii " name=\"" ++ (x.name ++ [34])) = none := by
    rw [hcons, find_skip (by decide), ← hcons, hname]
    rfl
  rw [hopen, List.append_assoc, List.cons_append, find_append_cons (by decide) (by decide), hskip]
  rfl

/-- The headers of a part with a file. -/
theorem headers_of_file (hf : x.file = some f) :
    x.headers = (ascii "\r\nContent-Disposition: form-data; name=\"" ++ (x.name ++ [34])) ++
      59 :: (ascii " filename=\"" ++
        (f.fileName ++ 34 :: (ascii "\r\nContent-Type: " ++ f.contentType))) := by
  have hfile : ascii "; filename=\"" = 59 :: ascii " filename=\"" := by decide
  have htype : ascii "\"\r\nContent-Type: " = 34 :: ascii "\r\nContent-Type: " := by decide
  rw [headers_eq, hf, Option.elim_some, Part.fileHeaders, hfile, htype]
  simp only [List.append_assoc, List.cons_append, List.nil_append]

theorem headers_of_text (hf : x.file = none) :
    x.headers = ascii "\r\nContent-Disposition: form-data; name=\"" ++ (x.name ++ [34]) := by
  rw [headers_eq, hf, Option.elim_none]

/-- The position of the file name. -/
theorem find_filename_file (hf : x.file = some f) :
    find (ascii "filename=\"") x.headers = some (x.name.length + 43) := by
  rw [headers_of_file hf, find_append_cons (find_filename_name x) (by decide),
    find_append (by decide : find (ascii "filename=\"") (ascii " filename=\"") = some 1)]
  have hopen : (ascii "\r\nContent-Disposition: form-data; name=\"").length = 40 := by decide
  simp only [List.length_append, hopen, List.length_singleton, Option.map_some]
  exact congrArg some (by omega)

/-- The headers of a part with a file, cut at the quotes. -/
theorem headers_quotes (hf : x.file = some f) :
    x.headers = ascii "\r\nContent-Disposition: form-data; name=" ++ 34 :: (x.name ++
      34 :: (ascii "; filename=" ++ 34 :: (f.fileName ++
        34 :: (ascii "\r\nContent-Type: " ++ f.contentType)))) := by
  have hopen : ascii "\r\nContent-Disposition: form-data; name=\"" =
      ascii "\r\nContent-Disposition: form-data; name=" ++ [34] := by decide
  have hfile : 59 :: ascii " filename=\"" = ascii "; filename=" ++ [34] := by decide
  rw [headers_of_file hf, hopen, ← List.cons_append, hfile]
  simp only [List.append_assoc, List.cons_append, List.nil_append]

/-- The position of the content type. -/
theorem find_contentType (hf : x.file = some f) :
    find (ascii "Content-Type: ") x.headers =
      some (x.name.length + f.fileName.length + 56) := by
  have hline : find (ascii "Content-Type: ") (ascii "\r\nContent-Type: ") = some 2 := by decide
  rw [headers_quotes hf, find_append_cons (by decide) (by decide),
    find_append_cons x.quotable.noType (by decide), find_append_cons (by decide) (by decide),
    find_append_cons f.quotable.noType (by decide), find_append hline]
  have hopen : (ascii "\r\nContent-Disposition: form-data; name=").length = 39 := by decide
  have hfile : (ascii "; filename=").length = 11 := by decide
  simp only [hopen, hfile, Option.map_some]
  exact congrArg some (by omega)

/-- What is behind it. -/
theorem drop_contentType (hf : x.file = some f) :
    x.headers.drop (x.name.length + f.fileName.length + 70) = f.contentType := by
  have hsplit : x.headers = (ascii "\r\nContent-Disposition: form-data; name=" ++ 34 :: (x.name ++
      34 :: (ascii "; filename=" ++ 34 :: (f.fileName ++
        34 :: (ascii "\r\nContent-Type: "))))) ++ f.contentType := by
    rw [headers_quotes hf]
    simp only [List.append_assoc, List.cons_append]
  rw [hsplit]
  refine List.drop_left' ?_
  have hopen : (ascii "\r\nContent-Disposition: form-data; name=").length = 39 := by decide
  have hfile : (ascii "; filename=").length = 11 := by decide
  have htype : (ascii "\r\nContent-Type: ").length = 16 := by decide
  simp only [List.length_append, List.length_cons, hopen, hfile, htype]
  omega

theorem contentTypeOf_headers (hf : x.file = some f) (hlen : x.headers.length < 2 ^ 31) :
    contentTypeOf x.headers = f.contentType := by
  have hdrop := drop_contentType hf
  have hno : (f.contentType.findIdx? fun c => c = 32 || c = 10 || c = 13) = none := by
    rw [List.findIdx?_eq_none_iff]
    intro c hc
    have hne : ∀ d, d ∉ f.contentType → c ≠ d := by
      rintro d hd rfl
      exact hd hc
    simp [hne 10 f.token.2.1, hne 13 f.token.2.2.1, hne 32 f.token.2.2.2]
  have hct : f.contentType.length < 2 ^ 31 := by
    rw [← hdrop, List.length_drop]
    omega
  have hstart : x.name.length + f.fileName.length + 70 ≤ x.headers.length := by
    rw [headers_quotes hf]
    have hopen : (ascii "\r\nContent-Disposition: form-data; name=").length = 39 := by decide
    have hfile : (ascii "; filename=").length = 11 := by decide
    have htype : (ascii "\r\nContent-Type: ").length = 16 := by decide
    simp only [List.length_append, List.length_cons, hopen, hfile, htype]
    omega
  simp only [contentTypeOf, find_contentType hf, substr]
  rw [show x.name.length + f.fileName.length + 56 + 14 =
    x.name.length + f.fileName.length + 70 from rfl, hdrop, hno]
  refine List.take_of_length_le ?_
  simp only [u64]
  omega

/-- What is quoted is found from behind the opening quote to before the closing one. -/
theorem substr_quoted {before s after headers : Bytes} {pos : Nat} (h : Quotable s)
    (hs : headers = before ++ (s ++ 34 :: after)) (hpos : before.length = pos) :
    findFrom (ascii "\"") headers pos = some (s.length + pos) ∧
      substr headers pos (s.length + pos - pos) = s := by
  subst hs hpos
  constructor
  · rw [findFrom, if_pos (by simp), List.drop_left, find_quote h, Option.map_some]
  · rw [substr, List.drop_left, Nat.add_sub_cancel, List.take_left]

/-- **The headers of a part open its field.** -/
theorem parseHeaders_part (p : Parser) (x : Part boundary) (hlen : x.headers.length < 2 ^ 31) :
    p.parseHeaders x.headers = .ok { p with
      processingFieldName := x.name, fields := p.fields.insert x.name x.opened } := by
  have hform : find (ascii "Content-Disposition: form-data;") x.headers = some 2 := by
    rw [headers_eq]
    exact find_append (by decide) _
  have hname : find (ascii "name=\"") x.headers = some 34 := by
    rw [headers_eq]
    exact find_append (by decide) _
  obtain ⟨hquote, hsubstr⟩ := @substr_quoted
    (ascii "\r\nContent-Disposition: form-data; name=\"") x.name _ x.headers 40 x.quotable
    (headers_eq x) (by decide)
  simp only [Parser.parseHeaders, hform, hname, hquote, reduceCtorEq, if_false, hsubstr]
  cases hf : x.file with
  | none =>
      have hnone : find (ascii "filename=\"") x.headers = none := by
        rw [headers_of_text hf]
        exact find_filename_name x
      rw [hnone, Part.opened, hf]
      rfl
  | some f =>
      have hopen : (ascii "\r\nContent-Disposition: form-data; name=\"").length = 40 := by decide
      have hfile : (ascii " filename=\"").length = 11 := by decide
      obtain ⟨hquote', hsubstr'⟩ := @substr_quoted
        (ascii "\r\nContent-Disposition: form-data; name=\"" ++ (x.name ++ [34]) ++
          59 :: ascii " filename=\"") f.fileName
        (ascii "\r\nContent-Type: " ++ f.contentType) x.headers (x.name.length + 43 + 10)
        f.quotable (by rw [headers_of_file hf]; simp only [List.append_assoc, List.cons_append])
        (by simp only [List.length_append, List.length_cons, List.length_nil, hopen, hfile]; omega)
      simp only [find_filename_file hf, hquote', hsubstr', contentTypeOf_headers hf hlen,
        Part.opened, hf]
      rfl

/-! ### The end of the headers -/

/-- A line is passed over. -/
theorem find_headersEnd_line {l : Bytes} (hne : l ≠ []) (hl : 13 ∉ l) (t : Bytes) :
    find headersEnd (ascii "\r\n" ++ (l ++ t)) = (find headersEnd t).map (l.length + 2 + ·) := by
  obtain ⟨c, l, rfl⟩ := List.exists_cons_of_ne_nil hne
  have hend : headersEnd = 13 :: [10, 13, 10] := by decide
  have hcrlf : ascii "\r\n" = [13] ++ [10] := by decide
  have hc : 13 ≠ c := fun h => hl (h ▸ List.mem_cons_self)
  have hskip : 13 ∉ [10] ++ c :: l := by
    rw [List.singleton_append, List.mem_cons, not_or]
    exact ⟨by decide, hl⟩
  -- the line break itself is not the end of the headers, since no other follows
  have hno : ∀ m < 1, ¬ OccursAt headersEnd ([13] ++ ([10] ++ (c :: l ++ t))) m := by
    rintro m hm ⟨-, b, hb⟩
    obtain rfl : m = 0 := by omega
    rw [hend] at hb
    simp only [List.drop_zero, List.cons_append, List.nil_append, List.cons.injEq, true_and] at hb
    exact hc hb.1
  rw [hcrlf, List.append_assoc, find_drop (by simp) hno, List.drop_left' (by rfl), hend,
    ← List.append_assoc, find_skip hskip, ← hend]
  cases find headersEnd t with
  | none => rfl
  | some n =>
      simp only [Option.map_some, List.length_append, List.length_cons, List.length_nil]
      exact congrArg some (by omega)

/-- The end of the headers is behind them. -/
theorem find_headersEnd (x : Part boundary) (t : Bytes) :
    find headersEnd (x.headers ++ (headersEnd ++ t)) = some x.headers.length := by
  have hname : 13 ∉ x.disposition := by
    have h₁ : 13 ∉ ascii "Content-Disposition: form-data; name=\"" := by decide
    have h₂ : 13 ∉ ascii "\"" := by decide
    simp only [Part.disposition, List.mem_append, not_or]
    exact ⟨⟨h₁, x.quotable.plain.2.1⟩, h₂⟩
  cases hf : x.file with
  | none =>
      rw [Part.headers, hf, Option.elim_none, List.append_nil, List.append_assoc,
        find_headersEnd_line (by simp [Part.disposition, ascii]) hname, find_self_append]
      simp only [Option.map_some, List.length_append]
      have hcrlf : (ascii "\r\n").length = 2 := by decide
      exact congrArg some (by omega)
  | some f =>
      have hline : 13 ∉ x.disposition ++ (ascii "; filename=\"" ++ f.fileName ++ ascii "\"") := by
        have h₁ : 13 ∉ ascii "; filename=\"" := by decide
        have h₂ : 13 ∉ ascii "\"" := by decide
        simp only [List.mem_append, not_or]
        exact ⟨hname, ⟨h₁, f.quotable.plain.2.1⟩, h₂⟩
      have htype : 13 ∉ ascii "Content-Type: " ++ f.contentType := by
        have h₁ : 13 ∉ ascii "Content-Type: " := by decide
        simp only [List.mem_append, not_or]
        exact ⟨h₁, f.token.2.2.1⟩
      have hsplit : x.headers ++ (headersEnd ++ t) = ascii "\r\n" ++
          ((x.disposition ++ (ascii "; filename=\"" ++ f.fileName ++ ascii "\"")) ++
            (ascii "\r\n" ++ ((ascii "Content-Type: " ++ f.contentType) ++ (headersEnd ++ t)))) := by
        have hct : ascii "\"\r\nContent-Type: " =
            ascii "\"" ++ (ascii "\r\n" ++ ascii "Content-Type: ") := by decide
        rw [Part.headers, hf, Option.elim_some, Part.fileHeaders, hct]
        simp only [List.append_assoc]
      have hlength : x.headers.length = 2 + (x.disposition ++
          (ascii "; filename=\"" ++ f.fileName ++ ascii "\"")).length +
            (2 + (ascii "Content-Type: " ++ f.contentType).length) := by
        have hsum := congrArg List.length hsplit
        have hcrlf : (ascii "\r\n").length = 2 := by decide
        simp only [List.length_append, hcrlf] at hsum ⊢
        omega
      rw [hsplit, find_headersEnd_line (by simp [Part.disposition, ascii]) hline,
        find_headersEnd_line (by simp [ascii]) htype, find_self_append, hlength]
      simp only [Option.map_some]
      exact congrArg some (by omega)

/-- The headers are a C string. -/
theorem cstr_headers (x : Part boundary) : cstr x.headers = x.headers := by
  refine cstr_of_ne_zero fun c hc => ?_
  have hconst : ∀ s : Bytes, 0 ∉ s → c ∈ s → c ≠ 0 := by
    rintro s hs hc rfl
    exact hs hc
  rw [headers_eq] at hc
  rcases List.mem_append.mp hc with hc | hc
  · exact hconst _ (by decide) hc
  rcases List.mem_append.mp hc with hc | hc
  · exact hconst _ x.quotable.plain.1 hc
  rcases List.mem_cons.mp hc with rfl | hc
  · decide
  cases hf : x.file with
  | none =>
      rw [hf] at hc
      cases hc
  | some f =>
      rw [hf, Option.elim_some, Part.fileHeaders] at hc
      simp only [List.mem_append] at hc
      rcases hc with ((hc | hc) | hc) | hc
      · exact hconst _ (by decide) hc
      · exact hconst _ f.quotable.plain.1 hc
      · exact hconst _ (by decide) hc
      · exact hconst _ f.token.1 hc

end Headers

/-! ### Parts and forms -/

theorem opened_type {boundary : Bytes} (x : Part boundary) : x.opened.type ≠ .unset := by
  rw [Part.opened]
  cases x.file <;> exact FieldType.noConfusion

theorem opened_fieldContent {boundary : Bytes} (x : Part boundary) :
    x.opened.fieldContent = [] := by
  rw [Part.opened]
  cases x.file <;> rfl

section Rounds

variable {boundary rest : Bytes} {p : Parser}

/-- The boundary behind the content of a part and its line break. -/
theorem find_boundary (hline : 10 ∉ boundary ∧ 13 ∉ boundary) {content : Bytes}
    (h : find boundary content = none) (t : Bytes) :
    find boundary (content ++ (ascii "\r\n" ++ (boundary ++ t))) =
      some (content.length + 2) := by
  have hcrlf : ascii "\r\n" = 13 :: [10] := by decide
  have hnil : find boundary [] = none := find_nil_of_ne (ne_nil_of_find h)
  have hten : find boundary ([] ++ 10 :: (boundary ++ t)) = some 1 := by
    rw [find_append_cons hnil hline.1, find_self_append]
    rfl
  rw [hcrlf, List.cons_append, find_append_cons h hline.2]
  rw [List.nil_append] at hten
  rw [List.singleton_append, hten]
  rfl

/-- `p` looks for the boundary that `rest` is behind. -/
structure Looking (boundary rest : Bytes) (p : Parser) : Prop where
  status : p.currentStatus = .lookingForStartingBoundary
  expects : p.boundary = boundary
  collected : ∃ before, find boundary (before ++ boundary) = some before.length ∧
    p.dataCollector = before ++ (boundary ++ rest)

/-- The boundary is found, and what is behind it is left. -/
theorem Looking.processData (h : Looking boundary rest p) :
    p.processData = Parser.processData { p with
      currentStatus := .processingHeaders, dataCollector := rest } := by
  obtain ⟨hs, rfl, before, hbefore, hc⟩ := h
  have hfound : find p.boundary p.dataCollector = some before.length := by
    rw [hc, ← List.append_assoc]
    exact find_append hbefore _
  have hdrop : p.dataCollector.drop (before.length + p.boundary.length) = rest := by
    rw [hc, ← List.drop_drop, List.drop_left, List.drop_left]
  rw [Parser.processData_of_inl (.boundary hs hfound), hdrop]

/-- The headers of a part are read, and its content is left. -/
theorem processData_headers (hs : p.currentStatus = .processingHeaders) (x : Part boundary)
    (hlen : x.headers.length < 2 ^ 31) (hc : p.dataCollector = x.headers ++ (headersEnd ++ rest)) :
    p.processData = Parser.processData { p with
      currentStatus := .processingContentOfTheField
      processingFieldName := x.name
      dataCollector := rest
      fields := p.fields.insert x.name x.opened } := by
  have hend : find headersEnd p.dataCollector = some x.headers.length := by
    rw [hc]
    exact find_headersEnd x rest
  have hparsed : p.parseHeaders (cstr (p.dataCollector.take x.headers.length)) = .ok { p with
      processingFieldName := x.name, fields := p.fields.insert x.name x.opened } := by
    have htake : p.dataCollector.take x.headers.length = x.headers := by
      rw [hc, List.take_left]
    rw [htake, cstr_headers]
    exact parseHeaders_part p x hlen
  have hdrop : p.dataCollector.drop (x.headers.length + 4) = rest := by
    rw [hc, ← List.drop_drop, List.drop_left]
    exact List.drop_left' (by decide)
  rw [Parser.processData_of_inl (.headers hs hend hparsed), hdrop]

/-- **Three rounds for a part**: `rest` begins behind the boundary that ends it, and is left with the
line break before that boundary. -/
theorem processData_part (hline : 10 ∉ boundary ∧ 13 ∉ boundary) (x : Part boundary)
    (hlen : x.headers.length < 2 ^ 31)
    (h : Looking boundary (x.headers ++ (headersEnd ++ (x.content ++ (ascii "\r\n" ++
      (boundary ++ rest))))) p) :
    p.processData = Parser.processData { p with
      processingFieldName := x.name
      dataCollector := ascii "\r\n" ++ (boundary ++ rest)
      fields := p.fields.insert x.name x.field } := by
  have hb := h.expects
  subst hb
  have hcontent := find_boundary hline x.unbounded rest
  have hn : (((x.content.length + 2 : Nat) : Int) - 2).toNat = x.content.length := by omega
  rw [h.processData, processData_headers rfl x hlen rfl, Parser.processData_of_inl
    (.content rfl hcontent
      (Parser.sendToField_of_get (OrderedMap.get_insert_self _ _ _) (opened_type x) _))]
  simp only [hn, List.take_left, List.drop_left, OrderedMap.insert_insert, opened_fieldContent,
    List.nil_append, h.status]
  rfl

/-- **All parts**, by induction: each leaves the line break before the boundary of the next. -/
theorem processData_parts (hline : 10 ∉ boundary ∧ 13 ∉ boundary) (parts : List (Part boundary))
    (hlen : ∀ x ∈ parts, x.headers.length < 2 ^ 31) (hb : p.boundary = boundary)
    (hs : p.currentStatus = .lookingForStartingBoundary) {before : Bytes}
    (hbefore : find boundary (before ++ boundary) = some before.length)
    (hc : p.dataCollector = before ++ (parts.flatMap Part.render ++ (boundary ++ rest))) :
    ∃ q : Parser, p.processData = q.processData ∧ Looking boundary rest q ∧
      q.fields = addFields parts p.fields := by
  induction parts generalizing p before with
  | nil => exact ⟨p, rfl, ⟨hs, hb, before, hbefore, hc⟩, rfl⟩
  | cons x parts ih =>
      subst hb
      have hnext : p.boundary <+: parts.flatMap Part.render ++ (p.boundary ++ rest) := by
        cases parts with
        | nil => exact List.prefix_append p.boundary rest
        | cons y parts =>
            rw [List.flatMap_cons, Part.render]
            simp only [List.append_assoc]
            exact List.prefix_append p.boundary _
      obtain ⟨rest', hrest'⟩ := hnext
      have hlooking : Looking p.boundary (x.headers ++ (headersEnd ++ (x.content ++
          (ascii "\r\n" ++ (p.boundary ++ rest'))))) p := by
        refine ⟨hs, rfl, before, hbefore, ?_⟩
        rw [hc, List.flatMap_cons, List.append_assoc, ← hrest', Part.render]
        simp only [List.append_assoc]
      rw [processData_part hline x (hlen x List.mem_cons_self) hlooking]
      have hnil : find p.boundary [] = none := find_nil_of_ne (ne_nil_of_find x.unbounded)
      have hcrlf := find_boundary hline hnil []
      rw [List.nil_append, List.append_nil] at hcrlf
      exact ih (fun y hy => hlen y (List.mem_cons_of_mem x hy)) rfl hs hcrlf (by rw [hrest'])

end Rounds

/-! ### The parser of `ParasrMultipartPost` -/

/-- `contentType` announces a form with the boundary `boundary`. -/
structure Announces (contentType boundary : Bytes) : Prop where
  form : find (ascii "multipart/form-data;") contentType = some 0
  boundary : ∃ b, find (ascii "boundary=") contentType = some b ∧
    contentType.drop (b + 9) = boundary

variable {form : Form} {contentType : Bytes} {limit : Int}

theorem setContentType_of_announces {boundary : Bytes} (h : Announces contentType boundary)
    (p : Parser) :
    p.setContentType contentType = .ok { p with boundary := ascii "--" ++ boundary } := by
  obtain ⟨b, hb, hdrop⟩ := h.boundary
  have hlen := find_le hb
  have hn : ¬ find (ascii "multipart/form-data;") contentType ≠ some 0 := not_not.mpr h.form
  simp only [Parser.setContentType, if_neg hn, hb, substr]
  rw [List.take_of_length_le (by rw [List.length_drop]; omega), hdrop]

theorem length_headers_le {boundary : Bytes} {parts : List (Part boundary)} {x : Part boundary}
    (hx : x ∈ parts) : x.headers.length ≤ (parts.flatMap Part.render).length := by
  obtain ⟨before, after, rfl⟩ := List.append_of_mem hx
  simp only [List.flatMap_append, List.flatMap_cons, Part.render, List.length_append]
  omega

/-- The boundary that a body starts with. -/
theorem find_boundary_first (boundary : Bytes) :
    find boundary ([] ++ boundary) = some ([] : Bytes).length := by
  have hself := @find_self_append _ boundary _ []
  rwa [List.append_nil] at hself

/-- **All of a form in one piece.** -/
theorem acceptSomeData_form (hlimit : (form.render.length : Int) ≤ limit)
    (hlen : form.render.length < 2 ^ 31) :
    ∃ q, Parser.acceptSomeData
        { boundary := ascii "--" ++ form.boundary, maxDataCollectorLength := limit }
        form.render form.render.length = .ok q ∧ q.fields = form.fields := by
  have hline : 10 ∉ ascii "--" ++ form.boundary ∧ 13 ∉ ascii "--" ++ form.boundary := by
    simp only [List.mem_append, not_or]
    exact ⟨⟨by decide, form.line.1⟩, by decide, form.line.2⟩
  have hne : ascii "--" ++ form.boundary ≠ [] :=
    List.append_ne_nil_of_left_ne_nil (by decide) _
  have hrender : form.render = form.parts.flatMap Part.render ++
      ((ascii "--" ++ form.boundary) ++ ascii "--\r\n") := by
    rw [Form.render, List.append_assoc]
  have hheaders : ∀ x ∈ form.parts, x.headers.length < 2 ^ 31 := by
    intro x hx
    have hle := length_headers_le hx
    rw [hrender, List.length_append] at hlen
    omega
  rw [Parser.acceptSomeData_eq hne (by simpa using hlimit)]
  obtain ⟨q, hq, hlooking, hfields⟩ := @processData_parts (ascii "--" ++ form.boundary)
    (ascii "--\r\n") (Parser.collect { boundary := _, maxDataCollectorLength := limit } form.render)
    hline form.parts hheaders rfl rfl [] (find_boundary_first _) hrender
  have hclosed : find headersEnd (ascii "--\r\n") = none := by decide
  rw [hq, hlooking.processData, Parser.processData_of_inr (.noHeaders rfl hclosed)]
  exact ⟨_, rfl, hfields⟩

/-- **A form that arrives in pieces is read back**, however it is cut: the parser ends with the
fields of the form. -/
theorem form_round_trip (hannounce : Announces contentType form.boundary)
    (hlimit : (form.render.length : Int) ≤ limit) (hlen : form.render.length < 2 ^ 31)
    (pieces : List Bytes) (hpieces : pieces.flatten = form.render) :
    ∃ p q, Parser.setContentType { maxDataCollectorLength := limit } contentType = .ok p ∧
      pieces.foldlM (fun p data => p.acceptSomeData data data.length) p = .ok q ∧
      q.fields = form.fields := by
  have hne : ascii "--" ++ form.boundary ≠ [] :=
    List.append_ne_nil_of_left_ne_nil (by decide) _
  have hlimit' : ((([] : Bytes).length + form.render.length : Nat) : Int) ≤ limit := by
    simpa using hlimit
  obtain ⟨q, hq, hfields⟩ := acceptSomeData_form hlimit hlen
  refine ⟨_, q, setContentType_of_announces hannounce _, ?_, hfields⟩
  rw [Parser.foldlM_acceptSomeData pieces (Parser.processData_of_nil rfl hne rfl) hne
    (by rw [hpieces]; exact hlimit'), hpieces, ← Parser.acceptSomeData_eq hne hlimit', hq]

/-- A part with a text. -/
def textPart : Part (ascii "--" ++ ascii "b") where
  name := ascii "t"
  content := ascii "x"
  quotable := ⟨by decide, by decide⟩
  noFile := by decide
  unbounded := by decide

/-- A part with a file that has a NUL in it. -/
def filePart : Part (ascii "--" ++ ascii "b") where
  name := ascii "f"
  file := some
    { fileName := ascii "n.bin"
      contentType := ascii "a/b"
      quotable := ⟨by decide, by decide⟩
      token := by decide }
  content := [0, 255, 13, 10, 45, 1, 2]
  quotable := ⟨by decide, by decide⟩
  noFile := by decide
  unbounded := by decide

/-- A form of the two. -/
def sampleForm : Form where
  boundary := ascii "b"
  line := by decide
  parts := [textPart, filePart]

theorem announces_sampleForm :
    Announces (ascii "multipart/form-data; boundary=b") sampleForm.boundary where
  form := by decide
  boundary := ⟨21, by decide, by decide⟩

set_option maxRecDepth 4000 in
theorem length_sampleForm : sampleForm.render.length ≤ 300 := by decide

theorem form_round_trip_bytes : ∃ p q, Parser.setContentType { maxDataCollectorLength := 300 }
      (ascii "multipart/form-data; boundary=b") = .ok p ∧
    (sampleForm.render.map fun c => [c]).foldlM
      (fun p data => p.acceptSomeData data data.length) p = .ok q ∧
    q.fields = sampleForm.fields :=
  form_round_trip announces_sampleForm (Int.ofNat_le.mpr length_sampleForm)
    (Nat.lt_of_le_of_lt length_sampleForm (by decide)) (sampleForm.render.map fun c => [c])
    (by rw [← List.flatMap_def]; exact List.flatMap_singleton' _)

/-- **The parser reads a form back.** -/
theorem mpfdParser_form (hannounce : Announces contentType form.boundary)
    (hlimit : (form.render.length : Int) ≤ limit) (hlen : form.render.length < 2 ^ 31) :
    mpfdParser contentType limit form.render (i32 form.render.length) =
      .ok (form.fields.mapValues Field.toMpfdField) := by
  have hi32 : i32 form.render.length = form.render.length := i32_eq (by omega) (by omega)
  obtain ⟨q, hq, hfields⟩ := acceptSomeData_form hlimit hlen
  rw [hi32, mpfdParser, setContentType_of_announces hannounce, ← hfields]
  exact congrArg (Except.map fun p => p.fields.mapValues Field.toMpfdField) hq

/-! ### Forms that are cut -/

/-- The boundary is not found in what there is of a content. -/
theorem find_take_of_none {pat s : Bytes} (h : find pat s = none) (m : Nat) :
    find pat (s.take m) = none := by
  refine find_eq_none_iff.mpr fun i hi => find_eq_none_iff.mp h i ?_
  rw [← List.take_append_drop m s]
  exact hi.append _

/-- **A form that ends in the middle of the content of a part** is accepted.  The field of the part
gets what there is of the content, but for as many bytes as the boundary and the line break before
it have. -/
theorem acceptSomeData_cut {boundary : Bytes} (hline : 10 ∉ boundary ∧ 13 ∉ boundary)
    (parts : List (Part (ascii "--" ++ boundary))) (x : Part (ascii "--" ++ boundary)) (m : Nat)
    {body : Bytes} (hbody : body = parts.flatMap Part.render ++ ((ascii "--" ++ boundary) ++
      (x.headers ++ (headersEnd ++ x.content.take m))))
    (hlimit : (body.length : Int) ≤ limit) (hlen : body.length < 2 ^ 31) :
    ∃ q, Parser.acceptSomeData
        { boundary := ascii "--" ++ boundary, maxDataCollectorLength := limit }
        body body.length = .ok q ∧
      q.fields = (addFields parts .empty).insert x.name
        { x.opened with
          fieldContent := (x.content.take m).take
            ((x.content.take m).length - ((ascii "--" ++ boundary).length + 2)) } := by
  have hne : ascii "--" ++ boundary ≠ [] := List.append_ne_nil_of_left_ne_nil (by decide) _
  have hline' : 10 ∉ ascii "--" ++ boundary ∧ 13 ∉ ascii "--" ++ boundary := by
    simp only [List.mem_append, not_or]
    exact ⟨⟨by decide, hline.1⟩, by decide, hline.2⟩
  have hsum := congrArg List.length hbody
  simp only [List.length_append] at hsum
  have hheaders : ∀ y ∈ parts, y.headers.length < 2 ^ 31 := by
    intro y hy
    have hle := length_headers_le hy
    omega
  rw [Parser.acceptSomeData_eq hne (by simpa using hlimit)]
  obtain ⟨q, hq, hlooking, hfields⟩ := @processData_parts (ascii "--" ++ boundary)
    (x.headers ++ (headersEnd ++ x.content.take m))
    (Parser.collect { boundary := _, maxDataCollectorLength := limit } body)
    hline' parts hheaders rfl rfl [] (find_boundary_first _) hbody
  have hnone : find q.boundary (x.content.take m) = none := by
    rw [hlooking.expects]
    exact find_take_of_none x.unbounded m
  rw [hq, hlooking.processData, processData_headers rfl x (by omega) rfl,
    Parser.processData_of_inr (.someContent rfl hnone
      (Parser.sendToField_of_get (OrderedMap.get_insert_self _ _ _) (opened_type x) _))]
  refine ⟨_, rfl, ?_⟩
  have hn : (((x.content.take m).length : Int) - (q.boundary.length + 2)).toNat =
      (x.content.take m).length - ((ascii "--" ++ boundary).length + 2) := by
    rw [hlooking.expects]
    omega
  simp only [hn, OrderedMap.insert_insert, opened_fieldContent, List.nil_append, hfields]
  rfl

/-- A file of which one byte is left. -/
theorem acceptSomeData_cut_file :
    let body := ascii "--b" ++ (filePart.headers ++ (headersEnd ++ filePart.content.take 6))
    ∃ q, Parser.acceptSomeData { boundary := ascii "--b", maxDataCollectorLength := 300 }
        body body.length = .ok q ∧
      q.fields = OrderedMap.empty.insert (ascii "f")
        { type := .file, fileName := ascii "n.bin", fileContentType := ascii "a/b",
          fieldContent := [0] } := by
  have hlen : (ascii "--b" ++ (filePart.headers ++ (headersEnd ++
      filePart.content.take 6))).length ≤ 300 := by decide
  exact @acceptSomeData_cut 300 (ascii "b") (by decide) [] filePart 6 _ rfl
    (Int.ofNat_le.mpr hlen) (Nat.lt_of_le_of_lt hlen (by decide))

/-! ### The file of a form -/

/-- `x` is the file that `ParasrMultipartPost` takes: no later part has its name, and no file has a
lesser one. -/
structure Form.Uploads (form : Form) (x : Part (ascii "--" ++ form.boundary)) : Prop where
  file : x.file.isSome = true
  last : ∃ before after, form.parts = before ++ x :: after ∧ ∀ y ∈ after, y.name ≠ x.name
  first : ∀ y ∈ form.parts, y.file.isSome = true → x.name ≤ y.name

section Fields

variable {boundary : Bytes} {fields : OrderedMap Bytes Field}

/-- The parts that come later leave the field of another name alone. -/
theorem get_addFields_of_ne {name : Bytes} (parts : List (Part boundary))
    (h : ∀ y ∈ parts, y.name ≠ name) :
    (addFields parts fields).get name = fields.get name := by
  induction parts generalizing fields with
  | nil => rfl
  | cons y parts ih =>
      rw [addFields, List.foldl_cons, ← addFields, ih fun z hz => h z (List.mem_cons_of_mem y hz),
        OrderedMap.get_insert_ne _ _ (h y List.mem_cons_self).symm]

/-- Every field is that of a part. -/
theorem exists_part_of_get {name : Bytes} {f : Field} (parts : List (Part boundary))
    (h : (addFields parts fields).get name = some f) :
    fields.get name = some f ∨ ∃ y ∈ parts, y.name = name ∧ y.field = f := by
  induction parts generalizing fields with
  | nil => exact Or.inl h
  | cons y parts ih =>
      rcases ih h with hget | ⟨z, hz, hname, hfield⟩
      · rw [OrderedMap.get_insert] at hget
        split_ifs at hget with hname
        · exact Or.inr ⟨y, List.mem_cons_self, hname.symm, Option.some.inj hget⟩
        · exact Or.inl hget
      · exact Or.inr ⟨z, List.mem_cons_of_mem y hz, hname, hfield⟩

theorem fileContent_field (x : Part boundary) :
    x.field.toMpfdField.fileContent = if x.file.isSome then some x.content else none := by
  rw [Part.field, Part.opened]
  cases x.file <;> rfl

end Fields

variable {x : Part (ascii "--" ++ form.boundary)}

/-- The field of the file, and those of lesser names. -/
theorem Form.Uploads.findSome? (hx : form.Uploads x) :
    (form.fields.mapValues Field.toMpfdField).rows.findSome? (fun r => r.2.fileContent) =
      some x.content := by
  obtain ⟨before, after, hparts, hafter⟩ := hx.last
  have hget : form.fields.get x.name = some x.field := by
    rw [Form.fields, hparts, addFields, List.foldl_append, List.foldl_cons, ← addFields,
      get_addFields_of_ne after hafter, OrderedMap.get_insert_self]
  have hvalue : (form.fields.mapValues Field.toMpfdField).get x.name =
      some x.field.toMpfdField := by
    rw [OrderedMap.get_mapValues, hget, Option.map_some]
  refine OrderedMap.findSome?_rows hvalue (by rw [fileContent_field, if_pos hx.file]) ?_
  intro name v hv hlt
  rw [OrderedMap.get_mapValues] at hv
  obtain ⟨f, hf, rfl⟩ := Option.map_eq_some_iff.mp hv
  rcases exists_part_of_get form.parts hf with hnone | ⟨y, hy, rfl, rfl⟩
  · cases hnone
  · rw [fileContent_field, if_neg fun hfile => absurd (hx.first y hy hfile) (not_le.mpr hlt)]

/-- **`ParasrMultipartPost` takes the file of the form.** -/
theorem parasrMultipartPost_form (hannounce : Announces contentType form.boundary)
    (hlimit : (form.render.length : Int) ≤ limit) (hlen : form.render.length < 2 ^ 31)
    (hx : form.Uploads x) :
    parasrMultipartPost mpfdParser limit contentType form.render (i32 form.render.length) =
      (true, x.content) := by
  rw [parasrMultipartPost, mpfdParser_form hannounce hlimit hlen]
  simp only [hx.findSome?]

/-- An authorised `GET` of the key of `req`, from the database that `sys` selects. -/
structure KeyGet (env : Env) (cfg : XConfig) (req : EvhtpRequest) (sys : Bool)
    (get : EvhtpRequest) : Prop where
  method : get.method = .get
  auth : checkAuth env cfg get = true
  route : env.route get.full = .rest
  sys : wantsSysdb get = sys
  key : uriKey get = uriKey req
  key_ne : uriKey get ≠ []

variable {env : Env} {cfg : XConfig} {req get : EvhtpRequest} {b : XevHtpdBackend} {sys : Bool}

/-- A `GET` of a value that is stored. -/
theorem handle_keyGet {v : XValue} (h : KeyGet env cfg req sys get)
    (hdb : (b.selected sys).Healthy) (hv : (b.selected sys).valueOf (uriKey req) = some v)
    (now : Int) :
    (handle env cfg now get b).response.status = EVHTP_RES_OK ∧
      (handle env cfg now get b).response.bufferOut = v.strValue := by
  obtain ⟨hcode, hvalue⟩ := XDataBase.get_of_valueOf hdb hv
  have hrest : handle env cfg now get b = onDb b sys (restfulPro env cfg now get
      [(ascii "Content-Type", guessContentType (uriKey get))] sys) := by
    simp only [handle, h.route, restCallback, h.auth, Bool.not_true, Bool.false_eq_true, if_false,
      if_neg h.key_ne, h.sys]
  rw [hrest, (selected_onDb _).1, restfulPro, h.method, h.key]
  simp only
  split
  next hnull =>
    rw [hnull] at hcode
    cases hcode
  next hget =>
    rw [hget] at hvalue
    exact ⟨rfl, congrArg XValue.strValue hvalue⟩

/-- **The file of a form is stored as it is and read back**, whatever bytes it has: the request is
answered with `200`, and a `GET` of the key with the content of the file. -/
theorem uploaded_form (h : FormPost env cfg req contentType sys)
    (hannounce : Announces (cstr contentType) form.boundary) (hbody : req.bufferIn = form.render)
    (hlimit : (form.render.length : Int) ≤ cfg.backend.maxUploadFileSize)
    (hlen : form.render.length < 2 ^ 31) (hx : form.Uploads x) (hdb : (b.selected sys).Healthy)
    (now now' : Int) (hget : KeyGet env cfg req sys get) :
    let r := handle (env.withParser mpfdParser) cfg now req b
    let r' := handle (env.withParser mpfdParser) cfg now' get r.state
    r.response.status = EVHTP_RES_OK ∧ r'.response.status = EVHTP_RES_OK ∧
      r'.response.bufferOut = x.content := by
  intro r r'
  obtain ⟨hstatus, hstate⟩ := handle_formPost h mpfdParser now b
  have hform : (formResult mpfdParser cfg req contentType).2 = x.content := by
    rw [formResult, hbody, parasrMultipartPost_form hannounce hlimit hlen hx]
  obtain ⟨hset, hset_db⟩ := XDataBase.set_spec hdb now (uriKey req) x.content
  rw [hform] at hstatus hstate
  have hvalue : (r.state.selected sys).valueOf (uriKey req) =
      some ⟨getCurrentTime now, x.content⟩ := by
    rw [hstate, XDataBase.valueOf_set hdb, if_pos rfl]
  have hhealthy : (r.state.selected sys).Healthy := by
    rw [hstate]
    exact XDataBase.healthy_of_db hset_db
  have hget' : KeyGet (env.withParser mpfdParser) cfg req sys get :=
    ⟨hget.method, hget.auth, hget.route, hget.sys, hget.key, hget.key_ne⟩
  refine ⟨?_, handle_keyGet hget' hhealthy hvalue now'⟩
  rw [hstatus, hset]
  rfl

/-- The form, posted to `k`. -/
def formRequest : EvhtpRequest where
  method := .post
  full := ascii "/k"
  headersIn := [(ascii "Content-Type", ascii "multipart/form-data; boundary=b")]
  bufferIn := sampleForm.render

theorem uploads_sampleForm : sampleForm.Uploads filePart where
  file := rfl
  last := ⟨[textPart], [], rfl, fun _ h => by cases h⟩
  first := by
    intro y hy hfile
    rcases List.mem_cons.mp hy with rfl | hy
    · cases hfile
    · obtain rfl := List.mem_singleton.mp hy
      exact le_refl _

/-- It replaces what was there, and is read back with its NUL. -/
theorem uploaded_form_bytes :
    let cfg : XConfig := { backend := { maxUploadFileSize := 300 } }
    let r := handle (plainEnv.withParser mpfdParser) cfg 2 formRequest (storedBackend [])
    let r' := handle (plainEnv.withParser mpfdParser) cfg 3
      { method := .get, full := ascii "/k" } r.state
    r.response.status = EVHTP_RES_OK ∧ r'.response.status = EVHTP_RES_OK ∧
      r'.response.bufferOut = [0, 255, 13, 10, 45, 1, 2] := by
  have hpost : FormPost plainEnv { backend := { maxUploadFileSize := 300 } } formRequest
      (ascii "multipart/form-data; boundary=b") false :=
    { method := Or.inl rfl
      auth := rfl
      route := Or.inl ⟨by decide, by decide, rfl⟩
      header := by decide
      form := by decide }
  have hget : KeyGet plainEnv { backend := { maxUploadFileSize := 300 } } formRequest false
      { method := .get, full := ascii "/k" } :=
    { method := rfl
      auth := rfl
      route := by decide
      sys := rfl
      key := by decide
      key_ne := by decide }
  have hdb : ((storedBackend []).selected false).Healthy := rfl
  have hcstr : cstr (ascii "multipart/form-data; boundary=b") =
      ascii "multipart/form-data; boundary=b" := by decide
  exact uploaded_form hpost (by rw [hcstr]; exact announces_sampleForm) rfl
    (Int.ofNat_le.mpr length_sampleForm) (Nat.lt_of_le_of_lt length_sampleForm (by decide))
    uploads_sampleForm hdb 2 3 hget

end XHttpCache.MPFD
