import XHttpCache.Http.Mpfd
import XHttpCache.Store.Faults

/-!
# Http — forms sent to the backend

`RESTfulPro` stores the value that `ParasrMultipartPost` takes from a form.  It does not look at
whether `ParasrMultipartPost` fails, and then stores the empty value that it leaves.

* `handle_formPost`: what a form does to the database.
* `failed_form_iff`: a form that fails leaves the key alone exactly if `Put` fails as well.
-/

namespace XHttpCache
open Support

/-- The database that `sys` selects. -/
def XevHtpdBackend.selected (b : XevHtpdBackend) (sys : Bool) : XDataBase :=
  if sys then b.sysdb else b.xdb

variable {parser : MpfdParser} {contentType : Bytes} {env : Env} {cfg : XConfig} {now : Int}
  {req : EvhtpRequest} {b : XevHtpdBackend} {sys : Bool}

/-- An authorised `POST` or `PUT` of a form that `RESTfulPro` gets for the database that `sys`
selects, by the catch-all route or by that of the administrator's page. -/
structure FormPost (env : Env) (cfg : XConfig) (req : EvhtpRequest) (contentType : Bytes)
    (sys : Bool) : Prop where
  method : req.method = .post ∨ req.method = .put
  auth : checkAuth env cfg req = true
  route : (env.route req.full = .rest ∧ uriKey req ≠ [] ∧ sys = wantsSysdb req) ∨
    (env.route req.full = .adminShell ∧ sys = true)
  header : env.headerFind req.headersIn (ascii "Content-Type") = some contentType
  form : (strstr (ascii "multipart/form-data") (cstr contentType)).isSome = true

/-- What `ParasrMultipartPost` does with the form of `req`. -/
def formResult (parser : MpfdParser) (cfg : XConfig) (req : EvhtpRequest) (contentType : Bytes) :
    Bool × Bytes :=
  parasrMultipartPost parser cfg.backend.maxUploadFileSize (cstr contentType) req.bufferIn
    (i32 req.bufferIn.length)

/-- What is stored is `filedata`, whatever is returned. -/
theorem FormPost.postValue (h : FormPost env cfg req contentType sys) :
    XHttpCache.postValue (env.withParser parser) cfg req =
      (formResult parser cfg req contentType).2 := by
  have hh : (env.withParser parser).headerFind req.headersIn (ascii "Content-Type") =
      some contentType := h.header
  rw [XHttpCache.postValue, hh]
  simp only [h.form, if_true]
  rw [Env.withParser, formResult]
  simp only
  split_ifs with hr
  · rfl
  · exact (filedata_of_eq_false (Bool.not_eq_true _ ▸ hr)).symm

theorem selected_onDb (f : XDataBase → Handled XDataBase) :
    (onDb b sys f).response = (f (b.selected sys)).response ∧
      (onDb b sys f).state.selected sys = (f (b.selected sys)).state := by
  cases sys <;> exact ⟨rfl, rfl⟩

/-- **What a form does**: a `Set` of `filedata`, and the answer to its code. -/
theorem handle_formPost (h : FormPost env cfg req contentType sys) (parser : MpfdParser)
    (now : Int) (b : XevHtpdBackend) :
    let r := handle (env.withParser parser) cfg now req b
    let set := (b.selected sys).set now (uriKey req) (formResult parser cfg req contentType).2
    r.response.status = (if set.1.toInt > 0 then EVHTP_RES_SERVERR else EVHTP_RES_OK) ∧
      r.state.selected sys = set.2 := by
  intro r set
  have hpro : ∀ hs, (restfulPro (env.withParser parser) cfg now req hs sys
      (b.selected sys)).response.status =
        (if set.1.toInt > 0 then EVHTP_RES_SERVERR else EVHTP_RES_OK) ∧
      (restfulPro (env.withParser parser) cfg now req hs sys (b.selected sys)).state = set.2 := by
    intro hs
    have hmethod : restfulPro (env.withParser parser) cfg now req hs sys (b.selected sys) =
        if set.1.toInt > 0 then
          { response := sendStatusResphone hs EVHTP_RES_SERVERR (ascii "EVHTP_RES_SERVERR")
            accesses := [.set sys]
            state := set.2 }
        else
          { response := sendStatusResphone hs EVHTP_RES_OK (ascii "OK")
            accesses := [.set sys]
            state := set.2 } := by
      rw [restfulPro, h.postValue]
      rcases h.method with hm | hm <;> rw [hm]
    rw [hmethod]
    split_ifs <;> exact ⟨rfl, rfl⟩
  have hauth : checkAuth (env.withParser parser) cfg req = true := h.auth
  have hdb : ∀ hs, r = onDb b sys (restfulPro (env.withParser parser) cfg now req hs sys) →
      r.response.status = (if set.1.toInt > 0 then EVHTP_RES_SERVERR else EVHTP_RES_OK) ∧
        r.state.selected sys = set.2 := by
    intro hs hr
    obtain ⟨hresponse, hstate⟩ :=
      @selected_onDb b sys (restfulPro (env.withParser parser) cfg now req hs sys)
    rw [hr, hresponse, hstate]
    exact hpro hs
  rcases h.route with ⟨hroute, hkey, rfl⟩ | ⟨hroute, rfl⟩
  · have hroute' : (env.withParser parser).route req.full = .rest := hroute
    refine hdb [(ascii "Content-Type", guessContentType (uriKey req))] ?_
    simp only [r, handle, hroute', restCallback, hauth, Bool.not_true, Bool.false_eq_true, if_false,
      if_neg hkey]
  · have hroute' : (env.withParser parser).route req.full = .adminShell := hroute
    refine hdb [(ascii "Content-Type", guessContentType (uriKey req))] ?_
    simp only [r, handle, hroute', adminShellCallback, hauth, Bool.not_true, Bool.false_eq_true,
      if_false]

/-- The value under the key of `req` and its timestamp are as they were, and the answer is not
`200`. -/
def LeavesKey (env : Env) (cfg : XConfig) (now : Int) (req : EvhtpRequest) (b : XevHtpdBackend)
    (sys : Bool) : Prop :=
  ((handle env cfg now req b).state.selected sys).valueOf (uriKey req) =
      (b.selected sys).valueOf (uriKey req) ∧
    (handle env cfg now req b).response.status ≠ EVHTP_RES_OK

/-- A form, whatever came of it, leaves its key alone exactly if `Put` fails. -/
theorem leavesKey_iff (h : FormPost env cfg req contentType sys) :
    LeavesKey (env.withParser parser) cfg now req b sys ↔ (b.selected sys).fault 0 = true := by
  obtain ⟨hstatus, hstate⟩ := handle_formPost h parser now b
  rw [LeavesKey, hstate, hstatus, XDataBase.valueOf_set_any, (XDataBase.set_eq _ _ _ _).1]
  have herr : RetCode.err.toInt > 0 := by decide
  have hok : ¬ RetCode.ok.toInt > 0 := by decide
  have hne : EVHTP_RES_SERVERR ≠ EVHTP_RES_OK := by decide
  by_cases hf : (b.selected sys).fault 0 = true
  · simp only [hf, if_true, if_pos herr]
    exact iff_of_true ⟨trivial, hne⟩ trivial
  · simp only [hf, Bool.false_eq_true, if_false, if_neg hok]
    exact iff_of_false (fun h => h.2 rfl) id

/-- **A form that fails leaves its key alone exactly if `Put` fails as well.**  For any form, that
a failure of `ParasrMultipartPost` leaves the value and its timestamp alone and is not answered
with `200` means that the parser yields a file, or that RocksDB fails to write. -/
theorem failed_form_iff (parser : MpfdParser) (now : Int) (b : XevHtpdBackend)
    (h : FormPost env cfg req contentType sys) :
    ((formResult parser cfg req contentType).1 = false →
        LeavesKey (env.withParser parser) cfg now req b sys) ↔
      YieldsFile parser cfg.backend.maxUploadFileSize (cstr contentType) req.bufferIn
          (i32 req.bufferIn.length) ∨
        (b.selected sys).fault 0 = true := by
  rw [formResult, parasrMultipartPost_eq_false_iff, leavesKey_iff h, or_iff_not_imp_left]

/-! ### A form without a file -/

/-- A form with one text field, posted to `k`. -/
def textForm : EvhtpRequest where
  method := .post
  full := ascii "/k"
  headersIn := [(ascii "Content-Type", ascii "multipart/form-data; boundary=b")]
  bufferIn := ascii
    "--b\r\nContent-Disposition: form-data; name=\"title\"\r\n\r\nt\r\n--b--\r\n"

/-- A backend that takes forms of 100 bytes. -/
def smallForms : XConfig := { backend := { maxUploadFileSize := 100 } }

/-- A backend with a value of `k`, whose next calls fail as `faults` says. -/
def storedBackend (faults : List Bool) : XevHtpdBackend where
  xdb := { db := ⟨OrderedMap.empty.insert (encodeKey (.string (ascii "k")))
    (leBytes 8 1 ++ ascii "good"), faults⟩ }
  sysdb := { db := ⟨.empty, []⟩ }

theorem formPost_textForm :
    FormPost plainEnv smallForms textForm (ascii "multipart/form-data; boundary=b") false where
  method := Or.inl rfl
  auth := rfl
  route := Or.inl ⟨by decide, by decide, rfl⟩
  header := by decide
  form := by decide

/-- `MPFD::Parser` finds a text field in it, and no file. -/
theorem formResult_textForm :
    formResult MPFD.mpfdParser smallForms textForm (ascii "multipart/form-data; boundary=b") =
      (false, []) := by
  decide +kernel

/-- Where `Put` fails, the form leaves the value alone. -/
theorem failed_form_put :
    LeavesKey (plainEnv.withParser MPFD.mpfdParser) smallForms 2 textForm (storedBackend [true])
      false :=
  (failed_form_iff MPFD.mpfdParser 2 (storedBackend [true]) formPost_textForm).mpr (Or.inr rfl)
    (congrArg Prod.fst formResult_textForm)

/-- Where it does not, the form replaces the value by nothing, and is answered with `200`. -/
theorem failed_form_destroys :
    let r := handle (plainEnv.withParser MPFD.mpfdParser) smallForms 2 textForm (storedBackend [])
    (formResult MPFD.mpfdParser smallForms textForm
        (ascii "multipart/form-data; boundary=b")).1 = false ∧
      (storedBackend []).xdb.valueOf (ascii "k") = some ⟨1, ascii "good"⟩ ∧
      r.response.status = EVHTP_RES_OK ∧ r.state.xdb.valueOf (ascii "k") = some ⟨2, []⟩ := by
  refine ⟨congrArg Prod.fst formResult_textForm, by decide, ?_⟩
  obtain ⟨hstatus, hstate⟩ :=
    handle_formPost formPost_textForm MPFD.mpfdParser 2 (storedBackend [])
  rw [formResult_textForm] at hstatus hstate
  refine ⟨hstatus, ?_⟩
  change XDataBase.valueOf (XevHtpdBackend.selected _ false) _ = _
  rw [hstate]
  exact (storedBackend []).xdb.valueOf_set_any 2 (ascii "k") []

end XHttpCache
