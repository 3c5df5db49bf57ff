import XHttpCache.Http.Config
import XHttpCache.Support.Named

/-!
# Http — ini files

`ReadFile` and `WriteFile` of `common/xIniFile.cpp`, on the text of a file, and `xConfig::Load`.

A line is what its first `;`, `#`, `[` or `=` makes it (`IniItem.ofLine`): nothing is trimmed, and a
line whose first character cannot be printed, such as a tab, ends the reading.  A key that is opened
twice is two keys, of which only the first is ever looked up and written to.

* `getValue_readFile`: whatever the text is, a lookup gives the value of the last line that sets the
  name under the key, without regard to case; the reading succeeds if no line ends it and one opens a
  key or sets a value.
* `readFile_writeFile_readFile`: every file that `ReadFile` gives can be written and read back.
-/

namespace XHttpCache
open Support

/-! ### The file -/

/-- A key: its values by name, and its comments. -/
structure IniKey where
  values : List (Bytes × Bytes) := []
  comments : List Bytes := []
  deriving DecidableEq

/-- `CIniFile`, with its comments. -/
structure IniFile where
  comments : List Bytes := []
  keys : List (Bytes × IniKey) := []
  deriving DecidableEq

namespace IniFile

/-- What the lookups see. -/
def lookups (ini : IniFile) : CIniFile := ⟨ini.keys.map fun k => (k.1, k.2.values)⟩

/-- `CIniFile::AddKeyName`. -/
def addKeyName (ini : IniFile) (keyname : Bytes) : IniFile :=
  { ini with keys := ini.keys ++ [(keyname, {})] }

/-- `CIniFile::SetValue`: in the key that `FindKey` finds, or in a new one, the value that
`FindValue` finds, or a new one. -/
def setValue (ini : IniFile) (keyname valuename value : Bytes) : IniFile :=
  { ini with
    keys := alterAs CIniFile.checkCase keyname (fun key =>
      { key.getD {} with
        values := alterAs CIniFile.checkCase valuename (fun _ => value) (key.getD {}).values })
      ini.keys }

/-- `CIniFile::HeaderComment`. -/
def headerComment (ini : IniFile) (comment : Bytes) : IniFile :=
  { ini with comments := ini.comments ++ [comment] }

/-- `CIniFile::KeyComment`. -/
def keyComment (ini : IniFile) (keyname comment : Bytes) : IniFile :=
  if lookupAs CIniFile.checkCase keyname ini.keys = none then ini
  else
    { ini with
      keys := alterAs CIniFile.checkCase keyname (fun key =>
        { key.getD {} with comments := (key.getD {}).comments ++ [comment] }) ini.keys }

end IniFile

/-! ### Reading -/

/-- `getline`, to the end of the text, after the beginning `line` of a line. -/
def getlinesFrom (line : Bytes) : Bytes → List Bytes
  | [] => if line = [] then [] else [line]
  | c :: text => if c = 10 then line :: getlinesFrom [] text else getlinesFrom (line ++ [c]) text

/-- The lines of a text. -/
def getlines (text : Bytes) : List Bytes := getlinesFrom [] text

/-- What a line is. -/
inductive IniItem where
  /-- It has no effect. -/
  | skip
  /-- Its first character cannot be printed. -/
  | bad
  | key (name : Bytes)
  | value (name val : Bytes)
  | comment (text : Bytes)
  deriving DecidableEq

/-- `isprint`, in the C locale. -/
def isprint (c : Byte) : Bool := 32 ≤ c && c ≤ 126

/-- `c` is one of the characters that make a line what it is. -/
def isMark (c : Byte) : Bool := c = 59 || c = 35 || c = 91 || c = 61

/-- What stands before the last `c`. -/
def beforeLast (c : Byte) (l : Bytes) : Bytes := (l.reverse.dropWhile (· ≠ c)).tail.reverse

/-- The line without a CR at its end. -/
def stripCR (line : Bytes) : Bytes := if line.getLast? = some 13 then line.dropLast else line

/-- What is made of a line without its CR, by the first of the characters. -/
def IniItem.ofText (line : Bytes) : IniItem :=
  match line.dropWhile fun c => !isMark c with
  | [] => .skip
  | mark :: after =>
      if mark = 91 then
        if 93 ∈ after then .key (beforeLast 93 after) else .skip
      else if mark = 61 then .value (line.takeWhile fun c => !isMark c) after
      else .comment after

/-- The body of the loop of `ReadFile`, but for its effect. -/
def IniItem.ofLine (line : Bytes) : IniItem :=
  match stripCR line with
  | [] => .skip
  | c :: line => if isprint c then .ofText (c :: line) else .bad

/-- `ReadFile` between two lines: the file so far, and `keyname`. -/
structure IniReader where
  ini : IniFile := {}
  keyname : Bytes := []

/-- The effect of a line. -/
def IniReader.take (s : IniReader) : IniItem → IniReader
  | .skip | .bad => s
  | .key name => ⟨s.ini.addKeyName name, name⟩
  | .value name val => { s with ini := s.ini.setValue s.keyname name val }
  | .comment text =>
      { s with
        ini := if s.ini.keys = [] then s.ini.headerComment text
          else s.ini.keyComment s.keyname text }

/-- The loop: what `ReadFile` returns, and the file. -/
def IniReader.read (s : IniReader) : List IniItem → Bool × IniReader
  | [] => (s.ini.keys ≠ [], s)
  | item :: items => if item = .bad then (false, s) else (s.take item).read items

/-- What the lines of a text are. -/
def IniItem.ofFile (text : Bytes) : List IniItem := (getlines text).map .ofLine

/-- `CIniFile::ReadFile`. -/
def readFile (text : Bytes) : Bool × IniFile :=
  let r := IniReader.read {} (IniItem.ofFile text)
  (r.1, r.2.ini)

/-! ### Writing -/

/-- The lines of a key. -/
def IniKey.lines (name : Bytes) (key : IniKey) : List Bytes :=
  (91 :: name ++ [93]) ::
    (key.comments.map (59 :: ·) ++ key.values.map (fun v => v.1 ++ 61 :: v.2) ++ [[]])

/-- The lines of a file. -/
def IniFile.lines (ini : IniFile) : List Bytes :=
  ini.comments.map (59 :: ·) ++ (if ini.comments = [] then [] else [[]]) ++
    ini.keys.flatMap fun k => k.2.lines k.1

/-- `CIniFile::WriteFile`; `iniEOL` is CR LF. -/
def writeFile (ini : IniFile) : Bytes := ini.lines.flatMap (· ++ [13, 10])

/-- `xConfig::Load`. -/
def XConfig.load (cfg : XConfig) (text : Bytes) : Bool × XConfig :=
  let (ok, ini) := readFile text
  if ok then (true, (cfg.loadxHttpdAppConfig ini.lookups).loadxDBConfig ini.lookups)
  else (false, cfg)

/-! ### What a lookup gives -/

/-- The setting is one of the name under the key, without regard to case. -/
def Sets (keyname valuename : Bytes) (t : Bytes × Bytes × Bytes) : Prop :=
  CIniFile.checkCase keyname = CIniFile.checkCase t.1 ∧
    CIniFile.checkCase valuename = CIniFile.checkCase t.2.1

instance (keyname valuename : Bytes) : DecidablePred (Sets keyname valuename) := fun _ =>
  inferInstanceAs (Decidable (_ ∧ _))

namespace IniFile

variable {ini : IniFile} {keyname valuename : Bytes}

/-- The value that a lookup finds. -/
def value? (ini : IniFile) (keyname valuename : Bytes) : Option Bytes :=
  (lookupAs CIniFile.checkCase keyname ini.keys).bind fun key =>
    lookupAs CIniFile.checkCase valuename key.values

theorem getValue_lookups (ini : IniFile) (keyname valuename default : Bytes) :
    ini.lookups.getValue keyname valuename default = (ini.value? keyname valuename).getD default := by
  have hkey : ini.lookups.findKey keyname =
      (lookupAs CIniFile.checkCase keyname ini.keys).map IniKey.values :=
    lookupAs_map IniKey.values
  rw [CIniFile.getValue, hkey, value?]
  cases lookupAs CIniFile.checkCase keyname ini.keys with
  | none => rfl
  | some key => rfl

/-- A new key has no value, and hides none. -/
theorem value?_addKeyName (name : Bytes) :
    (ini.addKeyName name).value? keyname valuename = ini.value? keyname valuename := by
  rw [value?, value?, addKeyName, lookupAs_append]
  cases lookupAs CIniFile.checkCase keyname ini.keys with
  | none =>
      rw [lookupAs_cons]
      split_ifs <;> rfl
  | some key => rfl

theorem value?_setValue (k n v : Bytes) :
    (ini.setValue k n v).value? keyname valuename =
      if Sets keyname valuename (k, n, v) then some v else ini.value? keyname valuename := by
  rw [value?, value?, setValue, lookupAs_alterAs]
  by_cases hk : CIniFile.checkCase keyname = CIniFile.checkCase k
  · rw [if_pos hk, Option.bind_some, lookupAs_alterAs, lookupAs_congr hk]
    by_cases hn : CIniFile.checkCase valuename = CIniFile.checkCase n
    · rw [if_pos hn, if_pos ⟨hk, hn⟩]
    · rw [if_neg hn, if_neg fun h => hn h.2]
      cases lookupAs CIniFile.checkCase k ini.keys with
      | none => rfl
      | some key => rfl
  · rw [if_neg hk, if_neg fun h => hk h.1]

/-- A comment changes no value. -/
theorem value?_keyComment (k text : Bytes) :
    (ini.keyComment k text).value? keyname valuename = ini.value? keyname valuename := by
  rw [keyComment]
  split_ifs with hnone
  · rfl
  · rw [value?, value?, lookupAs_alterAs]
    by_cases hk : CIniFile.checkCase keyname = CIniFile.checkCase k
    · obtain ⟨key, hkey⟩ := Option.ne_none_iff_exists'.mp hnone
      rw [if_pos hk, lookupAs_congr hk, hkey]
      rfl
    · rw [if_neg hk]

end IniFile

/-- The values that the lines set, with the key and the name of each, up to a line that ends the
reading; `keyname` is the key that is open. -/
def settings (keyname : Bytes) : List IniItem → List (Bytes × Bytes × Bytes)
  | [] | .bad :: _ => []
  | .key name :: items => settings name items
  | .value name val :: items => (keyname, name, val) :: settings keyname items
  | .skip :: items | .comment _ :: items => settings keyname items

/-- The last value that the lines set. -/
def lastSetting (keyname valuename : Bytes) (ts : List (Bytes × Bytes × Bytes)) : Option Bytes :=
  ((ts.filter fun t => Sets keyname valuename t).getLast?).map fun t => t.2.2

theorem lastSetting_singleton (keyname valuename : Bytes) (t : Bytes × Bytes × Bytes) :
    lastSetting keyname valuename [t] = if Sets keyname valuename t then some t.2.2 else none := by
  by_cases h : Sets keyname valuename t <;> simp [lastSetting, h]

theorem lastSetting_append (keyname valuename : Bytes) (ts ts' : List (Bytes × Bytes × Bytes)) :
    lastSetting keyname valuename (ts ++ ts') =
      (lastSetting keyname valuename ts').or (lastSetting keyname valuename ts) := by
  rw [lastSetting, List.filter_append, List.getLast?_append, Option.map_or]
  rfl

/-- The line opens a key or sets a value. -/
def IniItem.Fills : IniItem → Prop
  | .key _ | .value _ _ => True
  | .skip | .bad | .comment _ => False

namespace IniReader

variable {s : IniReader} {keyname valuename : Bytes}

/-- A line that does not end the reading changes a lookup only if it sets the value. -/
theorem value?_take (item : IniItem) :
    (s.take item).ini.value? keyname valuename =
      (lastSetting keyname valuename (settings s.keyname [item])).or
        (s.ini.value? keyname valuename) := by
  cases item with
  | skip => rfl
  | bad => rfl
  | key name => exact IniFile.value?_addKeyName name
  | value name val =>
      rw [take, settings, settings, lastSetting_singleton, IniFile.value?_setValue]
      split_ifs <;> rfl
  | comment text =>
      rw [take]
      split_ifs
      · rfl
      · exact IniFile.value?_keyComment _ _

theorem settings_cons {item : IniItem} (h : item ≠ .bad) (items : List IniItem) (s : IniReader) :
    settings s.keyname (item :: items) =
      settings s.keyname [item] ++ settings (s.take item).keyname items := by
  cases item with
  | skip => rfl
  | bad => exact absurd rfl h
  | key name => rfl
  | value name val => rfl
  | comment text => rfl

/-- **The loop**: a lookup gives the last value that the lines set, or what it gave before. -/
theorem value?_read (items : List IniItem) (s : IniReader) :
    (s.read items).2.ini.value? keyname valuename =
      (lastSetting keyname valuename (settings s.keyname items)).or
        (s.ini.value? keyname valuename) := by
  induction items generalizing s with
  | nil => rfl
  | cons item items ih =>
      rw [read]
      by_cases h : item = .bad
      · rw [if_pos h, h]
        rfl
      · rw [if_neg h, ih, value?_take, settings_cons h items s, lastSetting_append, Option.or_assoc]

theorem keys_take_ne_nil (item : IniItem) :
    (s.take item).ini.keys ≠ [] ↔ s.ini.keys ≠ [] ∨ item.Fills := by
  cases item with
  | skip => exact (or_iff_left id).symm
  | bad => exact (or_iff_left id).symm
  | key name => exact iff_of_true (List.append_ne_nil_of_right_ne_nil _ (by simp)) (Or.inr trivial)
  | value name val => exact iff_of_true alterAs_ne_nil (Or.inr trivial)
  | comment text =>
      rw [take]
      by_cases h : s.ini.keys = []
      · rw [if_pos h]
        exact (or_iff_left id).symm
      · rw [if_neg h]
        refine iff_of_true ?_ (Or.inl h)
        rw [IniFile.keyComment]
        split_ifs
        · exact h
        · exact alterAs_ne_nil

/-- `ReadFile` succeeds if no line ends it, and one opens a key or sets a value. -/
theorem read_eq_true (items : List IniItem) (s : IniReader) :
    (s.read items).1 = true ↔ .bad ∉ items ∧
      (s.ini.keys ≠ [] ∨ ∃ item ∈ items, item.Fills) := by
  induction items generalizing s with
  | nil => simp [read]
  | cons item items ih =>
      rw [read]
      by_cases h : item = .bad
      · rw [if_pos h, h]
        simp
      · rw [if_neg h, ih, List.mem_cons, not_or, List.exists_mem_cons_iff, keys_take_ne_nil,
          or_assoc]
        exact and_congr_left' (and_iff_right (Ne.symm h)).symm

theorem keys_of_read_eq_true {items : List IniItem} {s : IniReader}
    (h : (s.read items).1 = true) : (s.read items).2.ini.keys ≠ [] := by
  induction items generalizing s with
  | nil => exact of_decide_eq_true h
  | cons item items ih =>
      rw [read] at h ⊢
      split_ifs at h ⊢
      exact ih h

end IniReader

theorem getValue_lookups_readFile (text keyname valuename default : Bytes) :
    (readFile text).2.lookups.getValue keyname valuename default =
      (lastSetting keyname valuename (settings [] (IniItem.ofFile text))).getD default := by
  rw [IniFile.getValue_lookups, readFile, IniReader.value?_read]
  exact congrArg (Option.getD · default) Option.or_none

/-- **What a lookup gives after `ReadFile`**, whatever the text is: the last value that a line sets
for the name under the key, or the default.  The reading succeeds if no line ends it, and one opens
a key or sets a value. -/
theorem getValue_readFile (text keyname valuename default : Bytes) :
    (readFile text).2.lookups.getValue keyname valuename default =
        (lastSetting keyname valuename (settings [] (IniItem.ofFile text))).getD default ∧
      ((readFile text).1 = true ↔ .bad ∉ IniItem.ofFile text ∧
        ∃ item ∈ IniItem.ofFile text, item.Fills) := by
  refine ⟨getValue_lookups_readFile text keyname valuename default, ?_⟩
  rw [readFile, IniReader.read_eq_true]
  simp

section

/-- Every lookup gives the same. -/
def CIniFile.Agree (ini ini' : CIniFile) : Prop :=
  ∀ keyname valuename default,
    ini.getValue keyname valuename default = ini'.getValue keyname valuename default

variable {ini ini' : CIniFile} (h : ini.Agree ini')
include h

theorem CIniFile.Agree.getValueI (keyname valuename : Bytes) (default : Int) :
    ini.getValueI keyname valuename default = ini'.getValueI keyname valuename default := by
  rw [CIniFile.getValueI, h, CIniFile.getValueI]

theorem CIniFile.Agree.getValueB (keyname valuename : Bytes) (default : Bool) :
    ini.getValueB keyname valuename default = ini'.getValueB keyname valuename default := by
  rw [CIniFile.getValueB, h.getValueI, CIniFile.getValueB]

theorem CIniFile.Agree.loadxHttpdAppConfig (cfg : XConfig) :
    cfg.loadxHttpdAppConfig ini = cfg.loadxHttpdAppConfig ini' := by
  have happ : XConfig.loadApp ini = XConfig.loadApp ini' := by
    simp only [XConfig.loadApp, h _ _ _, h.getValueI]
  have hfrontend : XConfig.loadFrontend ini = XConfig.loadFrontend ini' := by
    simp only [XConfig.loadFrontend, h _ _ _, h.getValueI]
  have hbackend : XConfig.loadBackend cfg.backend ini = XConfig.loadBackend cfg.backend ini' := by
    simp only [XConfig.loadBackend, h _ _ _, h.getValueI]
  rw [XConfig.loadxHttpdAppConfig, happ, hfrontend, hbackend, XConfig.loadxHttpdAppConfig]

theorem CIniFile.Agree.loadxDBConfig (cfg : XConfig) :
    cfg.loadxDBConfig ini = cfg.loadxDBConfig ini' := by
  simp only [XConfig.loadxDBConfig, h _ _ _, h.getValueI, h.getValueB]

end

/-- What `Load` loads is a matter of the last settings: neither the order of the keys nor comments,
blank lines and settings that are made again later count. -/
theorem XConfig.load_eq_of_lastSetting (cfg : XConfig) {text text' : Bytes}
    (hok : (readFile text).1 = (readFile text').1)
    (h : ∀ keyname valuename, lastSetting keyname valuename (settings [] (IniItem.ofFile text)) =
      lastSetting keyname valuename (settings [] (IniItem.ofFile text'))) :
    cfg.load text = cfg.load text' := by
  have hagree : (readFile text).2.lookups.Agree (readFile text').2.lookups := by
    intro keyname valuename default
    rw [getValue_lookups_readFile, getValue_lookups_readFile, h]
  simp only [XConfig.load, hok, hagree.loadxHttpdAppConfig, hagree.loadxDBConfig]

/-! ### What can be written -/

/-- A name that a line gives to a value. -/
structure ValueName (name : Bytes) : Prop where
  line : 10 ∉ name
  marks : ∀ c ∈ name, isMark c = false
  first : ∀ c ∈ name.head?, isprint c = true

structure IniKey.WellFormed (key : IniKey) : Prop where
  comments : ∀ c ∈ key.comments, 10 ∉ c
  values : ∀ v ∈ key.values, ValueName v.1 ∧ 10 ∉ v.2
  names : key.values.Pairwise fun v v' => CIniFile.checkCase v.1 = CIniFile.checkCase v'.1 → False

/-- The texts are ones of lines, a key has one value of a name, and of the keys of a name only the
first has anything. -/
structure IniFile.WellFormed (ini : IniFile) : Prop where
  comments : ∀ c ∈ ini.comments, 10 ∉ c
  keys : ∀ k ∈ ini.keys, 10 ∉ k.1 ∧ k.2.WellFormed
  names : ini.keys.Pairwise fun k k' =>
    CIniFile.checkCase k.1 = CIniFile.checkCase k'.1 → k'.2 = {}

theorem IniKey.wellFormed_empty : ({} : IniKey).WellFormed :=
  ⟨List.forall_mem_nil _, List.forall_mem_nil _, List.Pairwise.nil⟩

theorem IniFile.wellFormed_empty : ({} : IniFile).WellFormed :=
  ⟨List.forall_mem_nil _, List.forall_mem_nil _, List.Pairwise.nil⟩

section

variable {ini : IniFile} {key : IniKey} {keyname valuename value text : Bytes}

theorem IniKey.WellFormed.setValue (h : key.WellFormed) (hn : ValueName valuename)
    (hv : 10 ∉ value) :
    IniKey.WellFormed { key with
      values := alterAs CIniFile.checkCase valuename (fun _ => value) key.values } where
  comments := h.comments
  values := forall_alterAs h.values ⟨hn, hv⟩ fun v hmem => ⟨(h.values v hmem).1, hv⟩
  names := pairwise_alterAs (P := fun _ => False) h.names

theorem IniKey.WellFormed.comment (h : key.WellFormed) (hc : 10 ∉ text) :
    IniKey.WellFormed { key with comments := key.comments ++ [text] } where
  comments := List.forall_mem_append.mpr ⟨h.comments, List.forall_mem_singleton.mpr hc⟩
  values := h.values
  names := h.names

namespace IniFile.WellFormed

theorem addKeyName (h : ini.WellFormed) (hk : 10 ∉ keyname) :
    (ini.addKeyName keyname).WellFormed where
  comments := h.comments
  keys := List.forall_mem_append.mpr
    ⟨h.keys, List.forall_mem_singleton.mpr ⟨hk, IniKey.wellFormed_empty⟩⟩
  names := List.pairwise_append.mpr ⟨h.names, List.pairwise_singleton _ _, fun k _ k' hk' _ => by
    rw [List.mem_singleton.mp hk']⟩

theorem setValue (h : ini.WellFormed) (hk : 10 ∉ keyname) (hn : ValueName valuename)
    (hv : 10 ∉ value) : (ini.setValue keyname valuename value).WellFormed where
  comments := h.comments
  keys := forall_alterAs h.keys ⟨hk, IniKey.wellFormed_empty.setValue hn hv⟩ fun k hmem =>
    ⟨(h.keys k hmem).1, (h.keys k hmem).2.setValue hn hv⟩
  names := pairwise_alterAs (P := fun key : IniKey => key = {}) h.names

theorem headerComment (h : ini.WellFormed) (hc : 10 ∉ text) :
    (ini.headerComment text).WellFormed where
  comments := List.forall_mem_append.mpr ⟨h.comments, List.forall_mem_singleton.mpr hc⟩
  keys := h.keys
  names := h.names

theorem keyComment (h : ini.WellFormed) (hk : 10 ∉ keyname) (hc : 10 ∉ text) :
    (ini.keyComment keyname text).WellFormed := by
  rw [IniFile.keyComment]
  split_ifs
  · exact h
  · exact {
      comments := h.comments
      keys := forall_alterAs h.keys ⟨hk, IniKey.wellFormed_empty.comment hc⟩ fun k hmem =>
        ⟨(h.keys k hmem).1, (h.keys k hmem).2.comment hc⟩
      names := pairwise_alterAs (P := fun key : IniKey => key = {}) h.names }

end IniFile.WellFormed

end

/-- The texts of the item are ones of a line. -/
def IniItem.WellFormed : IniItem → Prop
  | .skip | .bad => True
  | .key name => 10 ∉ name
  | .value name val => ValueName name ∧ 10 ∉ val
  | .comment text => 10 ∉ text

theorem mem_of_mem_beforeLast {c d : Byte} {l : Bytes} (h : c ∈ beforeLast d l) : c ∈ l := by
  rw [beforeLast, List.mem_reverse] at h
  exact List.mem_reverse.mp (List.dropWhile_subset _ (List.mem_of_mem_tail h))

theorem mem_of_mem_stripCR {c : Byte} {line : Bytes} (h : c ∈ stripCR line) : c ∈ line := by
  rw [stripCR] at h
  split_ifs at h
  · exact List.mem_of_mem_dropLast h
  · exact h

theorem IniItem.wellFormed_ofText {c : Byte} {line : Bytes} (hc : isprint c = true)
    (h : 10 ∉ c :: line) : (IniItem.ofText (c :: line)).WellFormed := by
  rw [ofText]
  cases hdrop : (c :: line).dropWhile fun c => !isMark c with
  | nil => trivial
  | cons mark after =>
      have hafter : 10 ∉ after := fun hmem =>
        h (List.dropWhile_subset _ (hdrop ▸ List.mem_cons_of_mem _ hmem))
      show (ite _ _ _ : IniItem).WellFormed
      split_ifs
      · exact fun hmem => hafter (mem_of_mem_beforeLast hmem)
      · trivial
      · refine ⟨⟨fun hmem => h (List.takeWhile_subset _ hmem), fun d hd => ?_, fun d hd => ?_⟩,
          hafter⟩
        · simpa using List.mem_takeWhile_imp hd
        · rw [List.head?_takeWhile] at hd
          obtain rfl : d = c := by simp_all
          exact hc
      · exact hafter

theorem IniItem.wellFormed_ofLine {line : Bytes} (h : 10 ∉ line) :
    (IniItem.ofLine line).WellFormed := by
  rw [ofLine]
  cases hline : stripCR line with
  | nil => trivial
  | cons c rest =>
      have hrest : 10 ∉ c :: rest := fun hmem => h (mem_of_mem_stripCR (hline ▸ hmem))
      show (ite _ _ _ : IniItem).WellFormed
      split_ifs with hc
      · exact wellFormed_ofText hc hrest
      · trivial

theorem not_mem_of_mem_getlinesFrom {line : Bytes} (h : 10 ∉ line) (text : Bytes) :
    ∀ l ∈ getlinesFrom line text, 10 ∉ l := by
  induction text generalizing line with
  | nil =>
      rw [getlinesFrom]
      split_ifs
      · exact List.forall_mem_nil _
      · exact List.forall_mem_singleton.mpr h
  | cons c text ih =>
      rw [getlinesFrom]
      split_ifs with hc
      · exact List.forall_mem_cons.mpr ⟨h, ih List.not_mem_nil⟩
      · refine ih fun hmem => ?_
        rcases List.mem_append.mp hmem with hmem | hmem
        · exact h hmem
        · exact hc (List.mem_singleton.mp hmem).symm

namespace IniReader

/-- What the loop keeps. -/
structure WellFormed (s : IniReader) : Prop where
  ini : s.ini.WellFormed
  keyname : 10 ∉ s.keyname

theorem WellFormed.take {s : IniReader} (h : s.WellFormed) {item : IniItem}
    (hitem : item.WellFormed) : (s.take item).WellFormed := by
  cases item with
  | skip => exact h
  | bad => exact h
  | key name => exact ⟨h.ini.addKeyName hitem, hitem⟩
  | value name val => exact ⟨h.ini.setValue h.keyname hitem.1 hitem.2, h.keyname⟩
  | comment text =>
      refine ⟨?_, h.keyname⟩
      rw [IniReader.take]
      split_ifs
      · exact h.ini.headerComment hitem
      · exact h.ini.keyComment h.keyname hitem

theorem WellFormed.read {items : List IniItem} (hitems : ∀ item ∈ items, item.WellFormed)
    {s : IniReader} (h : s.WellFormed) : (s.read items).2.WellFormed := by
  induction items generalizing s with
  | nil => exact h
  | cons item items ih =>
      obtain ⟨hitem, hitems⟩ := List.forall_mem_cons.mp hitems
      rw [IniReader.read]
      split_ifs
      · exact h
      · exact ih hitems (h.take hitem)

end IniReader

/-- Every file that `ReadFile` gives can be written, even one that it fails on. -/
theorem wellFormed_readFile (text : Bytes) : (readFile text).2.WellFormed := by
  have hitems : ∀ item ∈ IniItem.ofFile text, item.WellFormed := by
    intro item hitem
    obtain ⟨line, hline, rfl⟩ := List.mem_map.mp hitem
    exact IniItem.wellFormed_ofLine (not_mem_of_mem_getlinesFrom List.not_mem_nil text line hline)
  exact (IniReader.WellFormed.read hitems ⟨IniFile.wellFormed_empty, List.not_mem_nil⟩).ini

/-! ### What is written is read back -/

theorem getlinesFrom_append {line : Bytes} (h : 10 ∉ line) (start text : Bytes) :
    getlinesFrom start (line ++ 10 :: text) = (start ++ line) :: getlines text := by
  induction line generalizing start with
  | nil => rw [List.nil_append, getlinesFrom, if_pos rfl, List.append_nil, getlines]
  | cons c line ih =>
      have hc : c ≠ 10 := (List.ne_of_not_mem_cons h).symm
      rw [List.cons_append, getlinesFrom, if_neg hc, ih (List.not_mem_of_not_mem_cons h),
        List.append_assoc, List.singleton_append]

theorem getlines_flatMap {lines : List Bytes} (h : ∀ line ∈ lines, 10 ∉ line) :
    getlines (lines.flatMap (· ++ [13, 10])) = lines.map (· ++ [13]) := by
  induction lines with
  | nil => rfl
  | cons line lines ih =>
      obtain ⟨hline, hlines⟩ := List.forall_mem_cons.mp h
      have hcr : 10 ∉ line ++ [13] := by simp [hline]
      have hsplit : line ++ [13, 10] ++ lines.flatMap (· ++ [13, 10]) =
          (line ++ [13]) ++ 10 :: lines.flatMap (· ++ [13, 10]) := by simp
      rw [List.flatMap_cons, hsplit, getlines, getlinesFrom_append hcr, ih hlines]
      rfl

theorem stripCR_concat (line : Bytes) : stripCR (line ++ [13]) = line := by
  rw [stripCR, if_pos List.getLast?_concat, List.dropLast_concat]

namespace IniItem

theorem ofLine_nil : ofLine ([] ++ [13]) = .skip := by
  rw [ofLine, stripCR_concat]

theorem ofLine_comment (text : Bytes) : ofLine (59 :: text ++ [13]) = .comment text := by
  rw [ofLine, stripCR_concat]
  rfl

theorem beforeLast_concat (c : Byte) (l : Bytes) : beforeLast c (l ++ [c]) = l := by
  rw [beforeLast, List.reverse_append, List.reverse_singleton, List.singleton_append,
    List.dropWhile_cons_of_neg (by simp), List.tail_cons, List.reverse_reverse]

theorem ofLine_key (name : Bytes) : ofLine (91 :: name ++ [93] ++ [13]) = .key name := by
  rw [ofLine, stripCR_concat]
  show (if 93 ∈ name ++ [93] then IniItem.key (beforeLast 93 (name ++ [93])) else .skip) = _
  rw [if_pos (by simp), beforeLast_concat]

theorem ofText_value {name : Bytes} (h : ∀ c ∈ name, isMark c = false) (val : Bytes) :
    ofText (name ++ 61 :: val) = .value name val := by
  have hname : ∀ c ∈ name, (!isMark c) = true := fun c hc => by rw [h c hc]; rfl
  rw [ofText, List.dropWhile_append_of_pos hname, List.takeWhile_append_of_pos hname,
    List.dropWhile_cons_of_neg (by decide), List.takeWhile_cons_of_neg (by decide), List.append_nil]
  rfl

theorem ofLine_value {name : Bytes} (h : ValueName name) (val : Bytes) :
    ofLine (name ++ 61 :: val ++ [13]) = .value name val := by
  rw [ofLine, stripCR_concat]
  cases name with
  | nil => rfl
  | cons c name =>
      show ite _ _ _ = _
      rw [if_pos (h.first c rfl)]
      exact ofText_value h.marks val

end IniItem

/-- What the lines of a key are. -/
def IniKey.items (name : Bytes) (key : IniKey) : List IniItem :=
  .key name ::
    (key.comments.map .comment ++ key.values.map (fun v => .value v.1 v.2) ++ [.skip])

/-- What the lines of a file are. -/
def IniFile.items (ini : IniFile) : List IniItem :=
  ini.comments.map .comment ++ (if ini.comments = [] then [] else [.skip]) ++
    ini.keys.flatMap fun k => k.2.items k.1

theorem IniKey.WellFormed.lines {key : IniKey} (h : key.WellFormed) {name : Bytes}
    (hname : 10 ∉ name) : ∀ line ∈ key.lines name, 10 ∉ line := by
  intro line hline
  simp only [IniKey.lines, List.mem_cons, List.mem_append, List.mem_map, List.not_mem_nil,
    or_false] at hline
  rcases hline with rfl | (⟨c, hc, rfl⟩ | ⟨v, hv, rfl⟩) | rfl
  · simpa using hname
  · simpa using h.comments c hc
  · obtain ⟨hn, hval⟩ := h.values v hv
    simpa using ⟨hn.line, hval⟩
  · exact List.not_mem_nil

theorem IniFile.WellFormed.lines {ini : IniFile} (h : ini.WellFormed) :
    ∀ line ∈ ini.lines, 10 ∉ line := by
  intro line hline
  rcases List.mem_append.mp hline with hline | hline
  · rcases List.mem_append.mp hline with hline | hline
    · obtain ⟨c, hc, rfl⟩ := List.mem_map.mp hline
      simpa using h.comments c hc
    · split_ifs at hline
      · exact absurd hline List.not_mem_nil
      · rw [List.mem_singleton.mp hline]
        exact List.not_mem_nil
  · obtain ⟨k, hk, hline⟩ := List.mem_flatMap.mp hline
    exact (h.keys k hk).2.lines (h.keys k hk).1 line hline

theorem IniKey.WellFormed.map_ofLine {key : IniKey} (h : key.WellFormed) (name : Bytes) :
    (key.lines name).map (fun line => IniItem.ofLine (line ++ [13])) = key.items name := by
  have hvalues : key.values.map (fun v => IniItem.ofLine (v.1 ++ 61 :: v.2 ++ [13])) =
      key.values.map fun v => IniItem.value v.1 v.2 :=
    List.map_congr_left fun v hv => IniItem.ofLine_value (h.values v hv).1 v.2
  rw [IniKey.lines, IniKey.items, List.map_cons, List.map_append, List.map_append, List.map_map,
    List.map_map]
  exact congrArg₂ List.cons (IniItem.ofLine_key name) (congrArg₂ (· ++ ·) (congrArg₂ (· ++ ·)
    (List.map_congr_left fun c _ => IniItem.ofLine_comment c) hvalues)
    (congrArg (fun item => [item]) IniItem.ofLine_nil))

/-- Each line that is written is read as what it was written for. -/
theorem IniFile.WellFormed.ofFile_writeFile {ini : IniFile} (h : ini.WellFormed) :
    IniItem.ofFile (writeFile ini) = ini.items := by
  have hkeys : ini.keys.flatMap (fun k =>
        (k.2.lines k.1).map fun line => IniItem.ofLine (line ++ [13])) =
      ini.keys.flatMap fun k => k.2.items k.1 :=
    List.flatMap_congr fun k hk => (h.keys k hk).2.map_ofLine k.1
  rw [IniItem.ofFile, writeFile, getlines_flatMap h.lines, List.map_map, IniFile.lines,
    List.map_append, List.map_append, List.map_map, List.map_flatMap, IniFile.items]
  refine congrArg₂ (· ++ ·) (congrArg₂ (· ++ ·)
    (List.map_congr_left fun c _ => IniItem.ofLine_comment c) ?_) hkeys
  split_ifs
  · rfl
  · exact congrArg (fun item => [item]) IniItem.ofLine_nil

namespace IniReader

variable {s : IniReader} {cs : List Bytes} {ks : List (Bytes × IniKey)} {name : Bytes} {key : IniKey}

theorem read_eq_foldl {items : List IniItem} (h : .bad ∉ items) (s : IniReader) :
    s.read items = (decide ((items.foldl take s).ini.keys ≠ []), items.foldl take s) := by
  induction items generalizing s with
  | nil => rfl
  | cons item items ih =>
      rw [read, if_neg (List.ne_of_not_mem_cons h).symm, ih (List.not_mem_of_not_mem_cons h),
        List.foldl_cons]

theorem foldl_headerComments (cs' : List Bytes) (cs : List Bytes) :
    (cs'.map IniItem.comment).foldl take ⟨⟨cs, []⟩, []⟩ = ⟨⟨cs ++ cs', []⟩, []⟩ := by
  induction cs' generalizing cs with
  | nil => rw [List.append_nil]; rfl
  | cons c cs' ih =>
      rw [List.map_cons, List.foldl_cons, take, if_pos rfl, IniFile.headerComment, ih,
        List.append_assoc, List.singleton_append]

theorem foldl_keyComments (h : lookupAs CIniFile.checkCase name ks = none) (cs' : List Bytes)
    (key : IniKey) :
    (cs'.map IniItem.comment).foldl take ⟨⟨cs, ks ++ [(name, key)]⟩, name⟩ =
      ⟨⟨cs, ks ++ [(name, { key with comments := key.comments ++ cs' })]⟩, name⟩ := by
  induction cs' generalizing key with
  | nil => rw [List.append_nil]; rfl
  | cons c cs' ih =>
      have hne : ks ++ [(name, key)] ≠ [] := List.append_ne_nil_of_right_ne_nil _ (by simp)
      have hfind : lookupAs CIniFile.checkCase name (ks ++ [(name, key)]) ≠ none := by
        rw [lookupAs_append, h, lookupAs_cons, if_pos rfl]
        exact Option.some_ne_none _
      rw [List.map_cons, List.foldl_cons, take, if_neg hne, IniFile.keyComment, if_neg hfind,
        alterAs_concat h, Option.getD_some, ih, List.append_assoc, List.singleton_append]

theorem foldl_values (h : lookupAs CIniFile.checkCase name ks = none)
    (vs : List (Bytes × Bytes)) (key : IniKey)
    (hvs : (key.values ++ vs).Pairwise fun v v' =>
      CIniFile.checkCase v.1 = CIniFile.checkCase v'.1 → False) :
    (vs.map fun v => IniItem.value v.1 v.2).foldl take ⟨⟨cs, ks ++ [(name, key)]⟩, name⟩ =
      ⟨⟨cs, ks ++ [(name, { key with values := key.values ++ vs })]⟩, name⟩ := by
  induction vs generalizing key with
  | nil => rw [List.append_nil]; rfl
  | cons v vs ih =>
      have hnew : lookupAs CIniFile.checkCase v.1 key.values = none :=
        lookupAs_eq_none.mpr fun v' hv' =>
          (List.pairwise_append.mp hvs).2.2 v' hv' v List.mem_cons_self
      rw [List.append_cons] at hvs
      rw [List.map_cons, List.foldl_cons, take, IniFile.setValue, alterAs_concat h, Option.getD_some,
        alterAs_eq_concat hnew, ih _ hvs, List.append_assoc, List.singleton_append]

/-- **The step**: the lines of a key add it. -/
theorem foldl_items (hkey : key.WellFormed)
    (h : ∀ k ∈ ks, CIniFile.checkCase k.1 = CIniFile.checkCase name → key = {}) :
    (key.items name).foldl take { s with ini := ⟨cs, ks⟩ } = ⟨⟨cs, ks ++ [(name, key)]⟩, name⟩ := by
  by_cases hempty : key = {}
  · rw [hempty]
    rfl
  · have hnew : lookupAs CIniFile.checkCase name ks = none :=
      lookupAs_eq_none.mpr fun k hk he => hempty (h k hk he)
    rw [IniKey.items, List.foldl_cons, List.foldl_append, List.foldl_append, take,
      IniFile.addKeyName, foldl_keyComments hnew, foldl_values hnew key.values ⟨[], _⟩ hkey.names]
    rfl

/-- **The keys**, by induction on them: the ones before are in the file. -/
theorem foldl_keys (ks' ks : List (Bytes × IniKey)) {s : IniReader}
    (hks : s.ini.keys = ks) (hkeys : ∀ k ∈ ks', k.2.WellFormed)
    (hnames : (ks ++ ks').Pairwise fun k k' =>
      CIniFile.checkCase k.1 = CIniFile.checkCase k'.1 → k'.2 = {}) :
    ((ks'.flatMap fun k => k.2.items k.1).foldl take s).ini = ⟨s.ini.comments, ks ++ ks'⟩ := by
  induction ks' generalizing ks s with
  | nil =>
      rw [List.append_nil, ← hks]
      rfl
  | cons k ks' ih =>
      obtain ⟨hk, hkeys⟩ := List.forall_mem_cons.mp hkeys
      have hold : ∀ k' ∈ ks, CIniFile.checkCase k'.1 = CIniFile.checkCase k.1 → k.2 = {} :=
        fun k' hk' => (List.pairwise_append.mp hnames).2.2 k' hk' k List.mem_cons_self
      rw [List.append_cons] at hnames
      have hs : s = { s with ini := ⟨s.ini.comments, ks⟩ } := by rw [← hks]
      rw [List.flatMap_cons, List.foldl_append, hs, foldl_items hk hold, ih _ rfl hkeys hnames,
        List.append_assoc, List.singleton_append]

end IniReader

theorem IniFile.not_mem_items (ini : IniFile) : .bad ∉ ini.items := by
  rw [IniFile.items]
  split_ifs <;> simp [IniKey.items]

theorem IniFile.WellFormed.readFile_writeFile {ini : IniFile} (h : ini.WellFormed) :
    readFile (writeFile ini) = (decide (ini.keys ≠ []), ini) := by
  have hheader : ((ini.comments.map IniItem.comment ++
      if ini.comments = [] then [] else [IniItem.skip]).foldl IniReader.take {}) =
      ⟨⟨ini.comments, []⟩, []⟩ := by
    rw [List.foldl_append, IniReader.foldl_headerComments]
    split_ifs <;> rfl
  have hini : (ini.items.foldl IniReader.take {}).ini = ini := by
    rw [IniFile.items, List.foldl_append, hheader,
      IniReader.foldl_keys ini.keys [] rfl (fun k hk => (h.keys k hk).2) h.names]
    rfl
  rw [readFile, h.ofFile_writeFile, IniReader.read_eq_foldl ini.not_mem_items, hini]

/-- **What `ReadFile` gives can be written and read back**, whatever the text was: the same keys in
the same order, one that was opened twice included, with the same values and comments. -/
theorem readFile_writeFile_readFile (text : Bytes) :
    readFile (writeFile (readFile text).2) =
      (decide ((readFile text).2.keys ≠ []), (readFile text).2) :=
  (wellFormed_readFile text).readFile_writeFile

/-- A configuration that was loaded is loaded again from what `WriteFile` makes of its text. -/
theorem XConfig.load_writeFile (cfg : XConfig) {text : Bytes} (h : (readFile text).1 = true) :
    cfg.load (writeFile (readFile text).2) = cfg.load text := by
  have hkeys : (readFile text).2.keys ≠ [] := IniReader.keys_of_read_eq_true h
  have hread : readFile (writeFile (readFile text).2) = readFile text := by
    rw [(wellFormed_readFile text).readFile_writeFile, decide_eq_true hkeys, ← h]
  rw [XConfig.load, hread, XConfig.load]

end XHttpCache
