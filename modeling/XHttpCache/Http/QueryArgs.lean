import XHttpCache.Http.Backend
import XHttpCache.Support.First

/-!
# Http — the parameters of a query

`uri_arg_find` (`common/xevHtpdBase.cpp`) compares the name of a parameter with the name it looks
for by `strncmp`, up to the length of the latter: it takes the first parameter that has a value and
whose name *starts with* the name.  So `dbname=xdb` selects the system database, and a `keys=` hides
the `key=` behind it.

* `uriArgFind_eq_some_iff`: what it returns.
* `findsNamed_iff`: it returns the value of the parameter of the name exactly if no parameter of a
  longer name hides it.
* `selectsNamed_iff`: the system database is selected by the parameter `db` alone exactly if no
  other selects it.
-/

namespace XHttpCache
open Support

/-! ### Parameters -/

/-- `kv->val`, if it is there and not empty. -/
def paramValue (kv : Bytes × Option Bytes) : Option Bytes :=
  kv.2.bind fun val => if val.length > 0 then some (cstr val) else none

/-- The parameter has a value, and its name is `arg`. -/
def Named (arg : Bytes) (kv : Bytes × Option Bytes) : Prop :=
  paramValue kv ≠ none ∧ cstr kv.1 = arg

/-- The parameter has a value, and its name starts with `arg`. -/
def Prefixed (arg : Bytes) (kv : Bytes × Option Bytes) : Prop :=
  paramValue kv ≠ none ∧ arg <+: cstr kv.1

section Properties

variable (req : EvhtpRequest) (arg : Bytes)

/-- **The argument is looked up by its name**: what is returned is the value of the first parameter
of that name that has a value, and nothing if there is none. -/
def FindsNamed : Prop :=
  (∀ kv, First (Named arg) req.query kv → uriArgFind req arg = paramValue kv) ∧
    ((∀ kv ∈ req.query, ¬ Named arg kv) → uriArgFind req arg = none)

/-- The first parameter that has a value and whose name starts with `arg` is of that name, or has
the value of the first one that is. -/
def Unhidden : Prop :=
  ∀ kv, First (Prefixed arg) req.query kv →
    cstr kv.1 = arg ∨ ∃ kv', First (Named arg) req.query kv' ∧ paramValue kv' = paramValue kv

/-- A parameter named `db` has the value `xdb`. -/
def NamesSysdb : Prop :=
  ∃ kv ∈ req.query, cstr kv.1 = ascii "db" ∧ paramValue kv = some (ascii "xdb")

end Properties

/-- The access is to `sysdb`. -/
def Access.OnSysdb : Access → Prop
  | .get sys | .set sys | .del sys | .scanKey sys | .statusStr sys => sys = true
  | .config => False

/-- `RESTCallback` and `KeyScanCallback` select the system database only by the parameter `db`. -/
def SelectsNamed (req : EvhtpRequest) : Prop :=
  ∀ (env : Env) (cfg : XConfig) (now : Int) (b : XevHtpdBackend),
    (∃ a ∈ (restCallback env cfg now req b).accesses ++ (keyScanCallback env cfg req b).accesses,
      a.OnSysdb) → NamesSysdb req

variable {req : EvhtpRequest} {arg : Bytes}

/-! ### The search -/

theorem Named.prefixed {kv : Bytes × Option Bytes} (h : Named arg kv) : Prefixed arg kv :=
  ⟨h.1, by rw [h.2]⟩

/-- **What `uri_arg_find` returns.** -/
theorem uriArgFind_eq_some_iff {val : Bytes} :
    uriArgFind req arg = some val ↔
      ∃ kv, First (Prefixed arg) req.query kv ∧ paramValue kv = some val := by
  let f : Bytes × Option Bytes → Option Bytes := fun kv =>
    if arg <+: cstr kv.1 then paramValue kv else none
  have hf : uriArgFind req arg = req.query.findSome? f := by
    refine congrArg (fun g => req.query.findSome? g) (funext fun kv => ?_)
    obtain ⟨name, value⟩ := kv
    cases value with
    | none => simp [f, paramValue]
    | some val => by_cases hp : arg <+: cstr name <;> simp [f, paramValue, hp]
  have hP : (fun kv => f kv ≠ none) = Prefixed arg := by
    funext kv
    by_cases hp : arg <+: cstr kv.1 <;> simp [f, Prefixed, hp]
  rw [hf, findSome?_eq_some_iff_first, hP]
  refine exists_congr fun kv => and_congr_right fun h => ?_
  rw [show f kv = paramValue kv from if_pos h.prop.2]

theorem uriArgFind_of_first {kv : Bytes × Option Bytes} (h : First (Prefixed arg) req.query kv) :
    uriArgFind req arg = paramValue kv := by
  obtain ⟨val, hval⟩ := Option.ne_none_iff_exists'.mp h.prop.1
  rw [hval]
  exact uriArgFind_eq_some_iff.mpr ⟨kv, h, hval⟩

theorem uriArgFind_eq_none (h : ∀ kv ∈ req.query, ¬ Prefixed arg kv) :
    uriArgFind req arg = none := by
  refine Option.eq_none_iff_forall_ne_some.mpr fun val hval => ?_
  obtain ⟨kv, hfirst, -⟩ := uriArgFind_eq_some_iff.mp hval
  exact h kv hfirst.mem hfirst.prop

/-- **An argument is looked up by its name** if and only if no longer name hides it. -/
theorem findsNamed_iff : FindsNamed req arg ↔ Unhidden req arg := by
  constructor
  · rintro ⟨hsome, hnone⟩ kv hkv
    have hfind := uriArgFind_of_first hkv
    by_cases hnamed : ∃ kv' ∈ req.query, Named arg kv'
    · obtain ⟨kv', hkv'⟩ := exists_first hnamed
      exact Or.inr ⟨kv', hkv', (hsome kv' hkv').symm.trans hfind⟩
    · -- a value is returned although no parameter has the name
      have hno := hnone fun kv' hmem hn => hnamed ⟨kv', hmem, hn⟩
      exact absurd (hfind.symm.trans hno) hkv.prop.1
  · intro h
    refine ⟨fun kv hkv => ?_, fun hno => ?_⟩
    · obtain ⟨first, hfirst⟩ := exists_first ⟨kv, hkv.mem, hkv.prop.prefixed⟩
      rw [uriArgFind_of_first hfirst]
      rcases h first hfirst with hname | ⟨kv', hkv', heq⟩
      · -- the first whose name starts with it is also the first of the name
        have hnamed : First (Named arg) req.query first := by
          obtain ⟨before, after, hl, hp, hbefore⟩ := hfirst
          exact ⟨before, after, hl, ⟨hp.1, hname⟩, fun p hp' hn => hbefore p hp' hn.prefixed⟩
        rw [hnamed.unique hkv]
      · rw [← heq, hkv'.unique hkv]
    · refine uriArgFind_eq_none fun kv hmem hp => ?_
      obtain ⟨first, hfirst⟩ := exists_first ⟨kv, hmem, hp⟩
      rcases h first hfirst with hname | ⟨kv', hkv', -⟩
      · exact hno first hfirst.mem ⟨hfirst.prop.1, hname⟩
      · exact hno kv' hkv'.mem hkv'.prop

/-! ### The system database -/

theorem wantsSysdb_iff :
    wantsSysdb req = true ↔
      ∃ kv, First (Prefixed (ascii "db")) req.query kv ∧ paramValue kv = some (ascii "xdb") := by
  have hcstr : cstr (ascii "xdb") = ascii "xdb" := by decide
  rw [← uriArgFind_eq_some_iff, wantsSysdb]
  cases hfind : uriArgFind req (ascii "db") with
  | none => simp
  | some val =>
      -- the value that is returned ends at its first NUL
      have hval : cstr val = val := by
        obtain ⟨kv, -, hkv⟩ := uriArgFind_eq_some_iff.mp hfind
        obtain ⟨v, -, hv⟩ := Option.bind_eq_some_iff.mp hkv
        split_ifs at hv
        obtain rfl := Option.some.inj hv
        exact List.takeWhile_idem
      simp only [strcmpEq, decide_eq_true_eq, hval, hcstr, Option.some.injEq]

theorem onSysdb_restfulPro {env : Env} {cfg : XConfig} {now : Int} {hs : List (Bytes × Bytes)}
    {sys : Bool} {x : XDataBase} {a : Access}
    (h : a ∈ (restfulPro env cfg now req hs sys x).accesses) (ha : a.OnSysdb) : sys = true := by
  have hcases : a = .get sys ∨ a = .set sys ∨ a = .del sys := by
    rw [restfulPro] at h
    cases hm : req.method with
    | get =>
        rw [hm] at h
        simp only at h
        generalize x.get (uriKey req) = r at h
        obtain ⟨c, v, y⟩ := r
        cases c <;> exact Or.inl (List.mem_singleton.mp h)
    | post =>
        rw [hm] at h
        simp only at h
        split_ifs at h <;> exact Or.inr (Or.inl (List.mem_singleton.mp h))
    | put =>
        rw [hm] at h
        simp only at h
        split_ifs at h <;> exact Or.inr (Or.inl (List.mem_singleton.mp h))
    | delete =>
        rw [hm] at h
        simp only at h
        split_ifs at h <;> exact Or.inr (Or.inr (List.mem_singleton.mp h))
    | other =>
        rw [hm] at h
        cases h
  rcases hcases with rfl | rfl | rfl <;> exact ha

/-- A callback that gets to the system database was asked for it. -/
theorem wantsSysdb_of_onSysdb {env : Env} {cfg : XConfig} {now : Int} {b : XevHtpdBackend}
    {a : Access}
    (h : a ∈ (restCallback env cfg now req b).accesses ++ (keyScanCallback env cfg req b).accesses)
    (ha : a.OnSysdb) : wantsSysdb req = true := by
  rcases List.mem_append.mp h with h | h
  · rw [restCallback] at h
    split_ifs at h
    · cases h
    · cases h
    · rw [accesses_onDb] at h
      exact onSysdb_restfulPro h ha
  · rw [keyScanCallback] at h
    split_ifs at h
    · cases h
    · simp only [accesses_onDb] at h
      split_ifs at h <;> (obtain rfl := List.mem_singleton.mp h; exact ha)

/-- **The system database is selected by the parameter `db` alone** if and only if there is such a
parameter, or the first one whose name starts so does not ask for it. -/
theorem selectsNamed_iff :
    SelectsNamed req ↔ NamesSysdb req ∨ ∀ kv, First (Prefixed (ascii "db")) req.query kv →
      paramValue kv ≠ some (ascii "xdb") := by
  constructor
  · intro h
    by_cases hwants : wantsSysdb req = true
    · -- a scan without a password reaches the database that is selected
      refine Or.inl (h plainEnv {} 0 freshBackend ⟨.scanKey true, ?_, rfl⟩)
      refine List.mem_append_right _ ?_
      have hauth : checkAuth plainEnv {} req = true := rfl
      simp only [keyScanCallback, hauth, Bool.not_true, Bool.false_eq_true, if_false,
        accesses_onDb, hwants]
      split_ifs <;> exact List.mem_singleton.mpr rfl
    · exact Or.inr fun kv hkv hval => hwants (wantsSysdb_iff.mpr ⟨kv, hkv, hval⟩)
  · rintro (h | h) env cfg now b ⟨a, hmem, ha⟩
    · exact h
    · obtain ⟨kv, hkv, hval⟩ := wantsSysdb_iff.mp (wantsSysdb_of_onSysdb hmem ha)
      exact absurd hval (h kv hkv)

/-- **Query parameters are looked up by their exact name**, and the system database is selected by
the exact name `db`, exactly where no longer name comes first. -/
theorem query_args_iff (req : EvhtpRequest) :
    (∀ arg, FindsNamed req arg ↔ Unhidden req arg) ∧
      (SelectsNamed req ↔ NamesSysdb req ∨ ∀ kv, First (Prefixed (ascii "db")) req.query kv →
        paramValue kv ≠ some (ascii "xdb")) :=
  ⟨fun _ => findsNamed_iff, selectsNamed_iff⟩

/-- A `PUT` of `k` with the parameter `dbname=xdb` is written to the system database. -/
theorem longer_name_selects :
    let req : EvhtpRequest :=
      { method := .put, full := ascii "/k", query := [(ascii "dbname", some (ascii "xdb"))],
        bufferIn := ascii "v" }
    let b := (restCallback plainEnv {} 0 req freshBackend).state
    uriArgFind req (ascii "db") = some (ascii "xdb") ∧ ¬ FindsNamed req (ascii "db") ∧
      ¬ SelectsNamed req ∧ (b.sysdb.get (ascii "k")).2.1.strValue = ascii "v" ∧
      (b.xdb.get (ascii "k")).1 = .null := by
  intro req b
  have hfind : uriArgFind req (ascii "db") = some (ascii "xdb") := by decide
  have hno : ∀ kv ∈ req.query, ¬ cstr kv.1 = ascii "db" := by decide
  refine ⟨hfind, fun h => ?_, fun h => ?_, by decide, by decide⟩
  · have hnone := h.2 fun kv hmem hn => hno kv hmem hn.2
    rw [hfind] at hnone
    cases hnone
  · obtain ⟨kv, hmem, hname, -⟩ := h plainEnv {} 0 freshBackend ⟨.set true, by decide, rfl⟩
    exact hno kv hmem hname

end XHttpCache
