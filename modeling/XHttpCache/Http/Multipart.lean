import XHttpCache.Http.Backend

/-!
# Http — forms

`ParasrMultipartPost` of `src/xevHtpdBackend.cpp` takes the value of a `POST` or `PUT` from a form:
the content of its first file field.  The MPFD parser is a parameter here, which yields the fields
of a form or throws; `Http.Mpfd` has it.  A form without a file field and one that the parser throws
at are answered with `false`, and the value is left as it is constructed
(`parasrMultipartPost_eq_false_iff`, `filedata_of_eq_false`).
-/

namespace XHttpCache
open Support

/-! ### `ParasrMultipartPost` -/

/-- `MPFD::Field`. -/
inductive MpfdField where
  | text (content : Bytes)
  | file (content : Bytes)
  deriving DecidableEq

/-- The content of a file field. -/
def MpfdField.fileContent : MpfdField → Option Bytes
  | .text _ => none
  | .file content => some content

/-- `MPFD::Parser`, from `SetContentType`, `SetMaxCollectedDataLength` and the two arguments of
`AcceptSomeData` to `GetFieldsMap`, or to an `MPFD::Exception`. -/
abbrev MpfdParser := Bytes → Int → Bytes → Int → Except Bytes (OrderedMap Bytes MpfdField)

section Parse

variable (parser : MpfdParser) (maxUploadFileSize : Int) (contentType buf : Bytes) (length : Int)

/-- `ParasrMultipartPost`: what it returns, and `filedata`, which is empty before. -/
def parasrMultipartPost : Bool × Bytes :=
  match parser contentType maxUploadFileSize buf length with
  | .error _ => (false, [])
  | .ok fields =>
      match fields.rows.findSome? fun field => field.2.fileContent with
      | some content => (true, content)
      | none => (false, [])

/-- The parser yields a form with a file field. -/
def YieldsFile : Prop :=
  ∃ fields, parser contentType maxUploadFileSize buf length = .ok fields ∧
    ∃ name content, (name, MpfdField.file content) ∈ fields.rows

end Parse

variable {parser : MpfdParser} {maxUploadFileSize : Int} {contentType buf : Bytes} {length : Int}

/-- **A form fails** if the parser throws, or finds no file. -/
theorem parasrMultipartPost_eq_false_iff :
    (parasrMultipartPost parser maxUploadFileSize contentType buf length).1 = false ↔
      ¬ YieldsFile parser maxUploadFileSize contentType buf length := by
  rw [parasrMultipartPost, YieldsFile]
  cases hp : parser contentType maxUploadFileSize buf length with
  | error e => simp
  | ok fields =>
      simp only
      cases hf : fields.rows.findSome? fun field => field.2.fileContent with
      | none =>
          rw [List.findSome?_eq_none_iff] at hf
          refine iff_of_true rfl ?_
          rintro ⟨fields', hfields, name, content, hmem⟩
          obtain rfl := Except.ok.inj hfields
          cases hf _ hmem
      | some content =>
          obtain ⟨⟨name, field⟩, hmem, hfield⟩ := List.exists_of_findSome?_eq_some hf
          refine iff_of_false (by simp) (not_not.mpr ⟨fields, rfl, name, content, ?_⟩)
          cases field with
          | text c => cases hfield
          | file c =>
              obtain rfl := Option.some.inj hfield
              exact hmem

/-- A form that fails leaves nothing in `filedata`. -/
theorem filedata_of_eq_false
    (h : (parasrMultipartPost parser maxUploadFileSize contentType buf length).1 = false) :
    (parasrMultipartPost parser maxUploadFileSize contentType buf length).2 = [] := by
  rw [parasrMultipartPost] at h ⊢
  split at h
  · rfl
  · split at h
    · cases h
    · rfl

/-- The backend over the parser: `len` is passed on as an `int`. -/
def Env.withParser (env : Env) (parser : MpfdParser) : Env :=
  { env with
    multipart := fun contentType body maxUploadFileSize =>
      let r := parasrMultipartPost parser maxUploadFileSize (cstr contentType) body
        (i32 body.length)
      if r.1 then some r.2 else none }

end XHttpCache
