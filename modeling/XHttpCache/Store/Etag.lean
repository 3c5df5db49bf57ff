import XHttpCache.Store.DataBase

/-!
# Store — the ETag manager

`src/xEtagManager.cpp`: caches of the hashes of keys with the times they were set, each of which
drops its least recently used entry when it is full.  An `xDataBase` keeps the calls its manager
has received; the manager is what they make of a new one (`XDataBase.etagManager`).

The hash function is a parameter, as are the number and the size of the caches.

* `XEtagManager.holds_setKey`, `XEtagManager.holds_getKey`: an entry is there only if it was put
  there, and looking for one changes nothing about that.
* `XDataBase.checkEtag_eq_true`: `CheckEtag` looks for an entry.
-/

namespace XHttpCache
open Support

/-- `EtagCache`: `etaglist`, the most recently used entry first.  `etagmap` finds the places of its
entries. -/
structure EtagCache where
  capacity : Nat
  etaglist : List Nat := []

namespace EtagCache

/-- `EtagCache::Set`. -/
def set (c : EtagCache) (etagkey : Nat) : EtagCache :=
  if etagkey ∈ c.etaglist then { c with etaglist := etagkey :: c.etaglist.erase etagkey }
  else if c.etaglist.length = c.capacity then
    { c with etaglist := etagkey :: c.etaglist.dropLast }
  else { c with etaglist := etagkey :: c.etaglist }

/-- `EtagCache::Get`. -/
def get (c : EtagCache) (etagkey : Nat) : Bool × EtagCache :=
  if etagkey ∈ c.etaglist then
    (true, { c with etaglist := etagkey :: c.etaglist.erase etagkey })
  else (false, c)

theorem mem_move {l : List Nat} {a b : Nat} (h : a ∈ l) : b ∈ a :: l.erase a ↔ b ∈ l :=
  (List.perm_cons_erase h).symm.mem_iff

theorem mem_set {c : EtagCache} {a b : Nat} (h : b ∈ (c.set a).etaglist) :
    b = a ∨ b ∈ c.etaglist := by
  rw [set] at h
  split_ifs at h with ha
  · exact Or.inr ((mem_move ha).mp h)
  · exact (List.mem_cons.mp h).imp_right List.mem_of_mem_dropLast
  · exact List.mem_cons.mp h

theorem mem_get {c : EtagCache} {a b : Nat} :
    b ∈ (c.get a).2.etaglist ↔ b ∈ c.etaglist := by
  rw [get]
  split_ifs with ha
  · exact mem_move ha
  · exact Iff.rfl

end EtagCache

/-- `MurmurHash64A`, and the arguments of `xEtagManager::Init`. -/
structure EtagSetup where
  hash : Bytes → Nat
  cnt : Nat
  size : Nat

/-- `hashkey`, of a key and a time. -/
def EtagSetup.hashkey (setup : EtagSetup) (key : Bytes) (timestamp : Nat) : Nat :=
  (setup.hash key + timestamp) % 2 ^ 64

/-- `xEtagManager`, less the counts of its hits. -/
structure XEtagManager where
  etagCache : List EtagCache

namespace XEtagManager

/-- `xEtagManager::Init`. -/
def init (setup : EtagSetup) : XEtagManager := ⟨List.replicate setup.cnt { capacity := setup.size }⟩

/-- The cache of an entry. -/
def cacheIndex (m : XEtagManager) (hashkey : Nat) : Nat := hashkey % m.etagCache.length

/-- `xEtagManager::GetKey`, of the `hashkey`. -/
def getKey (m : XEtagManager) (hashkey : Nat) : Bool × XEtagManager :=
  ((m.etagCache[m.cacheIndex hashkey]?).any fun c => (c.get hashkey).1,
    ⟨m.etagCache.modify (m.cacheIndex hashkey) fun c => (c.get hashkey).2⟩)

/-- `xEtagManager::SetKey`, of the `hashkey`. -/
def setKey (m : XEtagManager) (hashkey : Nat) : XEtagManager :=
  ⟨m.etagCache.modify (m.cacheIndex hashkey) fun c => c.set hashkey⟩

/-- The entry is in its cache. -/
def Holds (m : XEtagManager) (hashkey : Nat) : Prop :=
  ∃ c, m.etagCache[m.cacheIndex hashkey]? = some c ∧ hashkey ∈ c.etaglist

variable {m : XEtagManager} {a b : Nat}

theorem getKey_eq_true : (m.getKey a).1 = true ↔ m.Holds a := by
  rw [getKey, Holds]
  simp only [Option.any_eq_true]
  refine exists_congr fun c => and_congr_right fun _ => ?_
  rw [EtagCache.get]
  split_ifs with ha
  · exact iff_of_true rfl ha
  · exact iff_of_false id ha

theorem not_holds_init (setup : EtagSetup) (a : Nat) : ¬ (init setup).Holds a := by
  rintro ⟨c, hc, ha⟩
  obtain ⟨-, rfl⟩ := List.mem_replicate.mp (List.mem_of_getElem? hc)
  cases ha

/-- A change of one cache that brings in no more than `P` allows. -/
theorem holds_modify {f : EtagCache → EtagCache} {P : Prop}
    (hf : ∀ c, b ∈ (f c).etaglist → P ∨ b ∈ c.etaglist)
    (h : Holds ⟨m.etagCache.modify (m.cacheIndex a) f⟩ b) : P ∨ m.Holds b := by
  obtain ⟨c, hc, hb⟩ := h
  simp only [cacheIndex, List.length_modify, List.getElem?_modify] at hc
  split_ifs at hc with hi
  · obtain ⟨c', hc', rfl⟩ := Option.map_eq_some_iff.mp hc
    exact (hf c' hb).imp_right fun hb' => ⟨c', hc', hb'⟩
  · exact Or.inr ⟨c, by simpa [cacheIndex] using hc, hb⟩

/-- An entry that is there was there, or it is the one that comes. -/
theorem holds_setKey (h : (m.setKey a).Holds b) : b = a ∨ m.Holds b :=
  holds_modify (fun _ => EtagCache.mem_set) h

theorem holds_getKey (h : (m.getKey a).2.Holds b) : m.Holds b :=
  (holds_modify (P := False) (fun _ hb => Or.inr (EtagCache.mem_get.mp hb)) h).resolve_left id

end XEtagManager

/-- A call that the manager receives. -/
def EtagCall.apply (setup : EtagSetup) (m : XEtagManager) : EtagCall → XEtagManager
  | .setKey key timestamp => m.setKey (setup.hashkey key timestamp)
  | .getKey key timestamp => (m.getKey (setup.hashkey key timestamp)).2

namespace XDataBase

variable (setup : EtagSetup)

/-- The ETag manager of the database, which was new when it was handed over. -/
def etagManager (x : XDataBase) : XEtagManager :=
  x.xEtag.foldl (EtagCall.apply setup) (.init setup)

/-- `xDataBase::CheckEtag`. -/
def checkEtag (x : XDataBase) (key : Bytes) (timestamp : Nat) : Bool × XDataBase :=
  (((x.etagManager setup).getKey (setup.hashkey key timestamp)).1,
    { x with xEtag := x.xEtag ++ [.getKey key timestamp] })

/-- The manager has the entry of `key` at the time `t`, or one with the same hash. -/
def Cached (x : XDataBase) (key : Bytes) (t : Nat) : Prop :=
  (x.etagManager setup).Holds (setup.hashkey key t)

variable {setup} {x : XDataBase} {key k : Bytes} {t ts : Nat}

theorem checkEtag_eq_true : (x.checkEtag setup key t).1 = true ↔ x.Cached setup key t :=
  XEtagManager.getKey_eq_true

theorem not_cached_of_nil (h : x.xEtag = []) : ¬ x.Cached setup key t := by
  rw [Cached, etagManager, h]
  exact XEtagManager.not_holds_init setup _

theorem cached_checkEtag (h : (x.checkEtag setup key t).2.Cached setup k ts) :
    x.Cached setup k ts := by
  rw [Cached, etagManager, checkEtag, List.foldl_append] at h
  exact XEtagManager.holds_getKey h

/-- What `SetKey` brings in is the entry of the key up to its first NUL. -/
theorem cached_recordEtag (h : (x.recordEtag key t).Cached setup k ts) :
    setup.hashkey k ts = setup.hashkey (cstr key) t ∨ x.Cached setup k ts := by
  rw [recordEtag] at h
  split_ifs at h
  · rw [Cached, etagManager, List.foldl_append] at h
    exact XEtagManager.holds_setKey h
  · exact Or.inr h

end XDataBase

end XHttpCache
