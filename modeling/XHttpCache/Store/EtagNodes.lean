import XHttpCache.Store.Etag
import XHttpCache.Support.Recency

/-!
# Store — the ETag caches, node by node

`EtagCache` keeps its entries twice: in the list `etaglist`, whose nodes are moved by `splice`, and
in `etagmap`, from an entry to the iterator of its node.  Here a node is its iterator and its
entry, an iterator stays with its node, and what has no defined meaning is an `EtagFault`: a
`splice` of an iterator that is not of the list, `back` of an empty list, `% 0`, and an index past
the array.

`Linked` is the invariant between the two, under which a cache is the list of `Store/Etag.lean`
(`EtagNodes.set_refines`, `EtagNodes.get_refines`), and so is the manager (`exec_refines`).

The list is the `recency` of the uses, as far as its size goes (`Lru`, `Sharded`); so the manager is
a sharded cache that replaces what is least recently used (`sharded_lru`).
-/

namespace XHttpCache
open Support

/-- What has no defined meaning. -/
inductive EtagFault where
  /-- `hashkey % 0`. -/
  | divZero
  /-- `etag_cache[cache_index]` outside the array. -/
  | index
  /-- `back` of an empty list. -/
  | emptyBack
  /-- `splice` of an iterator that is not of the list. -/
  | iterator
  /-- `erase` at the end of a string. -/
  | eraseEnd
  deriving DecidableEq

/-! ### One cache -/

/-- The list of a cache after `Set`. -/
theorem EtagCache.set_eq (c : EtagCache) (a : Nat) :
    c.set a = ⟨c.capacity, replaceLru c.capacity c.etaglist a⟩ := by
  rw [EtagCache.set, replaceLru]
  split_ifs <;> rfl

theorem EtagCache.capacity_set (c : EtagCache) (a : Nat) : (c.set a).capacity = c.capacity := by
  rw [EtagCache.set_eq]

theorem EtagCache.capacity_get (c : EtagCache) (a : Nat) : (c.get a).2.capacity = c.capacity := by
  rw [EtagCache.get]
  split_ifs <;> rfl

/-- `EtagCache`: the nodes of `etaglist`, each with its iterator, and `etagmap`.  The iterators of
nodes to come start with `fresh`. -/
structure EtagNodes where
  capacity : Nat
  etaglist : List (Nat × Nat) := []
  etagmap : OrderedMap Nat Nat := .empty
  fresh : Nat := 0

namespace EtagNodes

/-- `etagmap.erase(etaglist.back())`, and `etaglist.pop_back()`. -/
def popBack (c : EtagNodes) : Except EtagFault EtagNodes :=
  match c.etaglist.getLast? with
  | none => .error .emptyBack
  | some node =>
      .ok { c with etagmap := c.etagmap.erase node.2, etaglist := c.etaglist.dropLast }

/-- `etaglist.push_front(etagkey)`. -/
def pushFront (c : EtagNodes) (etagkey : Nat) : EtagNodes :=
  { c with etaglist := (c.fresh, etagkey) :: c.etaglist, fresh := c.fresh + 1 }

/-- `etaglist.splice(etaglist.begin(), etaglist, it)`. -/
def splice (c : EtagNodes) (it : Nat) : Except EtagFault EtagNodes :=
  match c.etaglist.find? fun node => node.1 = it with
  | none => .error .iterator
  | some node => .ok { c with etaglist := node :: c.etaglist.erase node }

/-- `etagmap[etagkey] = etaglist.begin()`, of a list that is not empty. -/
def mapFront (c : EtagNodes) (etagkey : Nat) : EtagNodes :=
  match c.etaglist with
  | [] => c
  | node :: _ => { c with etagmap := c.etagmap.insert etagkey node.1 }

/-- `EtagCache::Set`. -/
def set (c : EtagNodes) (etagkey : Nat) : Except EtagFault EtagNodes :=
  match c.etagmap.get etagkey with
  | none => do
      let c ← if c.etaglist.length = c.capacity then c.popBack else pure c
      pure ((c.pushFront etagkey).mapFront etagkey)
  | some it => do
      let c ← c.splice it
      pure (c.mapFront etagkey)

/-- `EtagCache::Get`. -/
def get (c : EtagNodes) (etagkey : Nat) : Except EtagFault (Bool × EtagNodes) :=
  match c.etagmap.get etagkey with
  | none => pure (false, c)
  | some it => do
      let c ← c.splice it
      pure (true, c.mapFront etagkey)

/-- The entries, in order. -/
def words (c : EtagNodes) : List Nat := c.etaglist.map (·.2)

/-- The cache without its nodes. -/
def toCache (c : EtagNodes) : EtagCache := ⟨c.capacity, c.words⟩

/-- No iterator and no entry stands twice, and `etagmap` has the iterator of each entry. -/
structure Linked (c : EtagNodes) : Prop where
  iterators : (c.etaglist.map (·.1)).Nodup
  entries : c.words.Nodup
  fresh : ∀ node ∈ c.etaglist, node.1 < c.fresh
  map : ∀ w it, c.etagmap.get w = some it ↔ (it, w) ∈ c.etaglist

variable {c : EtagNodes} {etagkey it : Nat}

theorem Linked.new (capacity : Nat) : Linked { capacity } where
  iterators := List.nodup_nil
  entries := List.nodup_nil
  fresh _ h := absurd h List.not_mem_nil
  map _ _ := iff_of_false (Option.some_ne_none _).symm List.not_mem_nil

namespace Linked

/-- `etagmap` finds what the list has. -/
theorem get_isSome (h : c.Linked) : (∃ it, c.etagmap.get etagkey = some it) ↔ etagkey ∈ c.words := by
  rw [words, List.mem_map]
  constructor
  · rintro ⟨it, hit⟩
    exact ⟨(it, etagkey), (h.map _ _).mp hit, rfl⟩
  · rintro ⟨⟨it, w⟩, hmem, rfl⟩
    exact ⟨it, (h.map _ _).mpr hmem⟩

/-- An iterator is that of one node. -/
theorem find_iterator (h : c.Linked) (hmem : (it, etagkey) ∈ c.etaglist) :
    c.etaglist.find? (fun node => node.1 = it) = some (it, etagkey) := by
  obtain ⟨node, hnode⟩ : ∃ node, c.etaglist.find? (fun node => node.1 = it) = some node := by
    cases hf : c.etaglist.find? fun node => node.1 = it with
    | some node => exact ⟨node, rfl⟩
    | none => exact absurd (List.find?_eq_none.mp hf _ hmem) (by simp)
  have hit : node.1 = it := by simpa using List.find?_some hnode
  rw [hnode, List.inj_on_of_nodup_map h.iterators (List.mem_of_find?_eq_some hnode) hmem hit]

/-- In a list of nodes, a node is erased with its entry. -/
theorem map_erase {l : List (Nat × Nat)} (hl : (l.map (·.2)).Nodup) {node : Nat × Nat}
    (h : node ∈ l) : (l.erase node).map (·.2) = (l.map (·.2)).erase node.2 := by
  induction l with
  | nil => cases h
  | cons x l ih =>
      obtain ⟨hx, hl'⟩ := List.nodup_cons.mp hl
      by_cases hxn : x = node
      · subst hxn
        rw [List.erase_cons_head, List.map_cons, List.erase_cons_head]
      · have hmem : node ∈ l := (List.mem_cons.mp h).resolve_left (Ne.symm hxn)
        have hne : x.2 ≠ node.2 := fun he => hx (List.mem_map.mpr ⟨node, hmem, he.symm⟩)
        rw [List.erase_cons_tail (by simpa using hxn), List.map_cons, List.map_cons,
          List.erase_cons_tail (by simpa using hne), ih hl' hmem]

/-- **Moving a node to the front** keeps what is linked, and moves its entry. -/
theorem splice_mapFront (h : c.Linked) (hit : c.etagmap.get etagkey = some it) :
    ∃ c', c.splice it = .ok c' ∧ (c'.mapFront etagkey).Linked ∧
      (c'.mapFront etagkey).toCache = ⟨c.capacity, touch etagkey c.words⟩ := by
  have hmem := (h.map _ _).mp hit
  have hperm := (List.perm_cons_erase hmem).symm
  refine ⟨{ c with etaglist := (it, etagkey) :: c.etaglist.erase (it, etagkey) }, ?_,
    ⟨?_, ?_, ?_, ?_⟩, ?_⟩
  · rw [splice, h.find_iterator hmem]
  · exact (hperm.map _).nodup_iff.mpr h.iterators
  · exact (hperm.map _).nodup_iff.mpr h.entries
  · exact fun node hnode => h.fresh node (hperm.mem_iff.mp hnode)
  · intro w it'
    simp only [mapFront, OrderedMap.get_insert]
    rw [hperm.mem_iff, ← h.map]
    split_ifs with hw
    · rw [hw, hit]
    · exact Iff.rfl
  · simp only [toCache, mapFront, words, List.map_cons, touch, map_erase h.entries hmem]

/-- Dropping the last node keeps what is linked. -/
theorem popBack (h : c.Linked) (hne : c.etaglist ≠ []) :
    ∃ c', c.popBack = .ok c' ∧ c'.Linked ∧ c'.toCache = ⟨c.capacity, c.words.dropLast⟩ := by
  obtain ⟨l, node, hl⟩ : ∃ l node, c.etaglist = l ++ [node] :=
    ⟨_, _, (List.dropLast_append_getLast hne).symm⟩
  have hlast : c.etaglist.getLast? = some node := by rw [hl, List.getLast?_concat]
  have hdrop : c.etaglist.dropLast = l := by rw [hl, List.dropLast_concat]
  have hsub : l.Sublist c.etaglist := hl ▸ List.sublist_append_left l [node]
  refine ⟨{ c with etagmap := c.etagmap.erase node.2, etaglist := c.etaglist.dropLast }, ?_,
    ⟨?_, ?_, ?_, ?_⟩, ?_⟩
  · rw [EtagNodes.popBack, hlast]
  · rw [hdrop]
    exact h.iterators.sublist (hsub.map _)
  · rw [words, hdrop]
    exact h.entries.sublist (hsub.map _)
  · rw [hdrop]
    exact fun n hn => h.fresh n (hsub.mem hn)
  · intro w it
    have hnot : node.2 ∉ l.map (·.2) := by
      have hnodup := h.entries
      rw [words, hl, List.map_append] at hnodup
      exact fun hmem => (List.nodup_append.mp hnodup).2.2 _ hmem _ List.mem_cons_self rfl
    simp only [OrderedMap.get_erase, hdrop]
    split_ifs with hw
    · exact iff_of_false id fun hmem => hnot (List.mem_map.mpr ⟨_, hmem, hw⟩)
    · rw [h.map, hl, List.mem_append, List.mem_singleton]
      exact or_iff_left fun he => hw (congrArg Prod.snd he)
  · simp only [toCache, words, List.map_dropLast]

/-- A new node keeps what is linked. -/
theorem pushFront (h : c.Linked) (hnew : etagkey ∉ c.words) :
    ((c.pushFront etagkey).mapFront etagkey).Linked ∧
      ((c.pushFront etagkey).mapFront etagkey).toCache = ⟨c.capacity, etagkey :: c.words⟩ := by
  refine ⟨⟨?_, ?_, ?_, ?_⟩, rfl⟩
  · refine List.nodup_cons.mpr ⟨fun hmem => ?_, h.iterators⟩
    obtain ⟨node, hnode, hit⟩ := List.mem_map.mp hmem
    exact absurd (h.fresh node hnode) (by rw [hit]; exact Nat.lt_irrefl _)
  · exact List.nodup_cons.mpr ⟨hnew, h.entries⟩
  · intro node hnode
    rcases List.mem_cons.mp hnode with rfl | hnode
    · exact Nat.lt_succ_self _
    · exact (h.fresh node hnode).trans (Nat.lt_succ_self _)
  · intro w it
    simp only [mapFront, EtagNodes.pushFront, OrderedMap.get_insert, List.mem_cons]
    split_ifs with hw
    · constructor
      · intro hit
        exact Or.inl (by rw [hw, Option.some.inj hit])
      · rintro (he | hmem)
        · exact congrArg some (congrArg Prod.fst he).symm
        · exact absurd (List.mem_map.mpr ⟨_, hmem, hw⟩) hnew
    · rw [h.map]
      exact (or_iff_right fun he => hw (congrArg Prod.snd he)).symm

end Linked

theorem Linked.notMem_words (h : c.Linked) (hget : c.etagmap.get etagkey = none) :
    etagkey ∉ c.words := by
  intro hmem
  obtain ⟨it, hit⟩ := h.get_isSome.mpr hmem
  rw [hget] at hit
  cases hit

/-- **`EtagCache::Set`**, of a cache with room for an entry. -/
theorem set_refines (h : c.Linked) (hc : 0 < c.capacity) (etagkey : Nat) :
    ∃ c', c.set etagkey = .ok c' ∧ c'.Linked ∧ c'.toCache = c.toCache.set etagkey := by
  have hset : c.toCache.set etagkey = ⟨c.capacity, replaceLru c.capacity c.words etagkey⟩ :=
    c.toCache.set_eq etagkey
  rw [set, hset, replaceLru]
  cases hget : c.etagmap.get etagkey with
  | some it =>
      obtain ⟨c', hsplice, hlinked, hcache⟩ := h.splice_mapFront hget
      rw [if_pos (h.get_isSome.mp ⟨it, hget⟩)]
      refine ⟨_, ?_, hlinked, hcache⟩
      simp only [hsplice]
      rfl
  | none =>
      have hnew := h.notMem_words hget
      have hlen : c.words.length = c.etaglist.length := List.length_map _
      rw [if_neg hnew, hlen]
      by_cases hfull : c.etaglist.length = c.capacity
      · have hne : c.etaglist ≠ [] := List.ne_nil_of_length_pos (hfull ▸ hc)
        obtain ⟨c', hpop, hlinked, hcache⟩ := h.popBack hne
        have hwords : c'.words = c.words.dropLast := congrArg EtagCache.etaglist hcache
        have hcap : c'.capacity = c.capacity := congrArg EtagCache.capacity hcache
        have hnew' : etagkey ∉ c'.words := by
          rw [hwords]
          exact fun hmem => hnew (List.mem_of_mem_dropLast hmem)
        obtain ⟨hlinked', hcache'⟩ := hlinked.pushFront hnew'
        simp only [if_pos hfull, hpop]
        exact ⟨_, rfl, hlinked', by rw [hcache', hcap, hwords]⟩
      · obtain ⟨hlinked', hcache'⟩ := h.pushFront hnew
        simp only [if_neg hfull]
        exact ⟨_, rfl, hlinked', hcache'⟩

/-- **`EtagCache::Get`.** -/
theorem get_refines (h : c.Linked) (etagkey : Nat) :
    ∃ c', c.get etagkey = .ok ((c.toCache.get etagkey).1, c') ∧ c'.Linked ∧
      c'.toCache = (c.toCache.get etagkey).2 := by
  rw [get, EtagCache.get]
  cases hget : c.etagmap.get etagkey with
  | some it =>
      obtain ⟨c', hsplice, hlinked, hcache⟩ := h.splice_mapFront hget
      have hmem : etagkey ∈ c.toCache.etaglist := h.get_isSome.mp ⟨it, hget⟩
      rw [if_pos hmem]
      refine ⟨_, ?_, hlinked, hcache⟩
      simp only [hsplice]
      rfl
  | none =>
      rw [if_neg (show etagkey ∉ c.toCache.etaglist from h.notMem_words hget)]
      exact ⟨c, rfl, h, rfl⟩

end EtagNodes

/-! ### The manager -/

/-- `xEtagManager`. -/
structure EtagShards where
  getHit : Nat := 0
  totalTimes : Nat := 0
  count : Nat
  etagCache : List EtagNodes

namespace EtagShards

/-- `xEtagManager::Init`, of a new manager. -/
def init (setup : EtagSetup) : EtagShards :=
  { count := setup.cnt, etagCache := List.replicate setup.cnt { capacity := setup.size } }

/-- `int cache_index = hashkey % count`. -/
def cacheIndex (m : EtagShards) (hashkey : Nat) : Except EtagFault Int :=
  if m.count = 0 then .error .divZero else .ok (i32 (hashkey % m.count : Nat))

/-- `etag_cache[cache_index]`. -/
def cacheAt (m : EtagShards) (i : Int) : Except EtagFault EtagNodes :=
  if i < 0 then .error .index
  else
    match m.etagCache[i.toNat]? with
    | some c => .ok c
    | none => .error .index

/-- `xEtagManager::GetKey`, of the `hashkey`. -/
def getKey (m : EtagShards) (hashkey : Nat) : Except EtagFault (Bool × EtagShards) := do
  let i ← m.cacheIndex hashkey
  let c ← m.cacheAt i
  let (bRet, c) ← c.get hashkey
  pure (bRet, { m with
    totalTimes := (m.totalTimes + 1) % 2 ^ 32
    getHit := if bRet then (m.getHit + 1) % 2 ^ 32 else m.getHit
    etagCache := m.etagCache.set i.toNat c })

/-- `xEtagManager::SetKey`, of the `hashkey`. -/
def setKey (m : EtagShards) (hashkey : Nat) : Except EtagFault EtagShards := do
  let i ← m.cacheIndex hashkey
  let c ← m.cacheAt i
  let c ← c.set hashkey
  pure { m with etagCache := m.etagCache.set i.toNat c }

/-- The manager without the nodes of its caches. -/
def toManager (m : EtagShards) : XEtagManager := ⟨m.etagCache.map EtagNodes.toCache⟩

/-- The array has `count` caches, an `int` counts them, and each is linked and has room. -/
structure Sound (m : EtagShards) : Prop where
  count : m.count = m.etagCache.length
  pos : 0 < m.count
  int : m.count < 2 ^ 31
  caches : ∀ c ∈ m.etagCache, c.Linked ∧ 0 < c.capacity

variable {m : EtagShards}

theorem Sound.init {setup : EtagSetup} (hc : 0 < setup.cnt) (hint : setup.cnt < 2 ^ 31)
    (hn : 0 < setup.size) : (EtagShards.init setup).Sound where
  count := List.length_replicate.symm
  pos := hc
  int := hint
  caches c hmem := by
    obtain ⟨-, rfl⟩ := List.mem_replicate.mp hmem
    exact ⟨.new _, hn⟩

/-- The cache of an entry is found. -/
theorem Sound.locate (h : m.Sound) (hashkey : Nat) :
    ∃ c, m.cacheIndex hashkey = .ok (hashkey % m.count : Nat) ∧
      m.cacheAt (hashkey % m.count : Nat) = .ok c ∧
      m.etagCache[hashkey % m.count]? = some c := by
  have hlt : hashkey % m.count < m.count := Nat.mod_lt _ h.pos
  have hint := h.int
  have hi : i32 (hashkey % m.count : Nat) = (hashkey % m.count : Nat) := by
    rw [i32, Int.bmod_eq_of_le] <;> omega
  obtain ⟨c, hc⟩ : ∃ c, m.etagCache[hashkey % m.count]? = some c :=
    ⟨_, List.getElem?_eq_getElem (h.count ▸ hlt)⟩
  refine ⟨c, by rw [cacheIndex, if_neg h.pos.ne', hi], ?_, hc⟩
  rw [cacheAt, if_neg (by omega), Int.toNat_natCast, hc]

/-- A cache is replaced by one that is linked and has room. -/
theorem Sound.replace (h : m.Sound) (i : Nat) {c' : EtagNodes} (hc' : c'.Linked ∧ 0 < c'.capacity)
    (total hit : Nat) :
    Sound { m with totalTimes := total, getHit := hit, etagCache := m.etagCache.set i c' } where
  count := by rw [List.length_set, h.count]
  pos := h.pos
  int := h.int
  caches c hmem := by
    rcases List.mem_or_eq_of_mem_set hmem with hmem | rfl
    · exact h.caches c hmem
    · exact hc'

theorem toManager_set {l : List EtagNodes} {i : Nat} {c c' : EtagNodes} (hc : l[i]? = some c)
    {f : EtagCache → EtagCache} (hf : c'.toCache = f c.toCache) :
    (l.set i c').map EtagNodes.toCache = (l.map EtagNodes.toCache).modify i f := by
  refine List.ext_getElem? fun j => ?_
  rw [List.getElem?_map, List.getElem?_modify, List.getElem?_map, List.getElem?_set]
  by_cases hij : i = j
  · subst hij
    have hlt : i < l.length := (List.getElem?_eq_some_iff.mp hc).1
    rw [hc]
    simp [hlt, hf]
  · simp [hij]

theorem Sound.cacheIndex_toManager (h : m.Sound) (hashkey : Nat) :
    m.toManager.cacheIndex hashkey = hashkey % m.count := by
  rw [XEtagManager.cacheIndex, toManager, List.length_map, ← h.count]

/-- **`xEtagManager::SetKey`.** -/
theorem setKey_refines (h : m.Sound) (hashkey : Nat) :
    ∃ m', m.setKey hashkey = .ok m' ∧ m'.Sound ∧ m'.toManager = m.toManager.setKey hashkey := by
  obtain ⟨c, hindex, hat, hc⟩ := h.locate hashkey
  obtain ⟨hlinked, hroom⟩ := h.caches c (List.mem_of_getElem? hc)
  obtain ⟨c', hset, hlinked', hcache⟩ := EtagNodes.set_refines hlinked hroom hashkey
  have hcap : c'.capacity = c.capacity :=
    (congrArg EtagCache.capacity hcache).trans (EtagCache.capacity_set _ _)
  refine ⟨{ m with etagCache := m.etagCache.set (hashkey % m.count) c' }, ?_,
    h.replace _ ⟨hlinked', hcap ▸ hroom⟩ _ _, ?_⟩
  · rw [setKey, hindex]
    simp only [bind, Except.bind, hat, hset, Int.toNat_natCast]
    rfl
  · rw [XEtagManager.setKey, h.cacheIndex_toManager]
    exact congrArg XEtagManager.mk (toManager_set hc hcache)

/-- **`xEtagManager::GetKey`.** -/
theorem getKey_refines (h : m.Sound) (hashkey : Nat) :
    ∃ m', m.getKey hashkey = .ok ((m.toManager.getKey hashkey).1, m') ∧ m'.Sound ∧
      m'.toManager = (m.toManager.getKey hashkey).2 := by
  obtain ⟨c, hindex, hat, hc⟩ := h.locate hashkey
  obtain ⟨hlinked, hroom⟩ := h.caches c (List.mem_of_getElem? hc)
  obtain ⟨c', hget, hlinked', hcache⟩ := EtagNodes.get_refines hlinked hashkey
  have hcap : c'.capacity = c.capacity :=
    (congrArg EtagCache.capacity hcache).trans (EtagCache.capacity_get _ _)
  have hreply : (m.toManager.getKey hashkey).1 = (c.toCache.get hashkey).1 := by
    rw [XEtagManager.getKey, h.cacheIndex_toManager, toManager, List.getElem?_map, hc]
    rfl
  rw [hreply]
  refine ⟨{ m with
    totalTimes := (m.totalTimes + 1) % 2 ^ 32
    getHit := if (c.toCache.get hashkey).1 then (m.getHit + 1) % 2 ^ 32 else m.getHit
    etagCache := m.etagCache.set (hashkey % m.count) c' }, ?_,
    h.replace _ ⟨hlinked', hcap ▸ hroom⟩ _ _, ?_⟩
  · rw [getKey, hindex]
    simp only [bind, Except.bind, hat, hget, Int.toNat_natCast]
    rfl
  · rw [XEtagManager.getKey, h.cacheIndex_toManager]
    exact congrArg XEtagManager.mk (toManager_set hc hcache)

end EtagShards

/-! ### Calls -/

section Calls

variable (setup : EtagSetup)

/-- A call on the manager, and what it returns: nothing, in the case of `SetKey`. -/
def EtagCall.exec (m : EtagShards) : EtagCall → Except EtagFault (Option Bool × EtagShards)
  | .setKey key timestamp => do
      let m ← m.setKey (setup.hashkey key timestamp)
      pure (none, m)
  | .getKey key timestamp => do
      let (bRet, m) ← m.getKey (setup.hashkey key timestamp)
      pure (some bRet, m)

/-- Calls one after the other, each with what it returns. -/
def runCalls : EtagShards → List EtagCall →
    Except EtagFault (List (EtagCall × Option Bool) × EtagShards)
  | m, [] => pure ([], m)
  | m, call :: calls => do
      let (ret, m) ← call.exec setup m
      let (trace, m) ← runCalls m calls
      pure ((call, ret) :: trace, m)

/-- What a call returns, by the manager without its nodes. -/
def EtagCall.returned (m : XEtagManager) : EtagCall → Option Bool
  | .setKey _ _ => none
  | .getKey key timestamp => some (m.getKey (setup.hashkey key timestamp)).1

/-- The word that a call uses: that of a `SetKey`, or of a `GetKey` that finds it. -/
def EtagCall.use : EtagCall × Option Bool → Option Nat
  | (.setKey key timestamp, _) => some (setup.hashkey key timestamp)
  | (.getKey key timestamp, some true) => some (setup.hashkey key timestamp)
  | (.getKey _ _, _) => none

/-- The words that are used, the latest first. -/
def uses (trace : List (EtagCall × Option Bool)) : List Nat :=
  (trace.filterMap (EtagCall.use setup)).reverse

/-- `w` was put in by a `SetKey`. -/
def Inserted (calls : List EtagCall) (w : Nat) : Prop :=
  ∃ key timestamp, EtagCall.setKey key timestamp ∈ calls ∧ setup.hashkey key timestamp = w

end Calls

variable {setup : EtagSetup} {n : Nat} {us : List Nat}

/-- **A call** on a sound manager is that on the manager without its nodes. -/
theorem EtagCall.exec_refines (setup : EtagSetup) {m : EtagShards} (h : m.Sound)
    (call : EtagCall) :
    ∃ m', call.exec setup m = .ok (call.returned setup m.toManager, m') ∧ m'.Sound ∧
      m'.toManager = call.apply setup m.toManager := by
  cases call with
  | setKey key timestamp =>
      obtain ⟨m', hset, hsound, hm'⟩ := m.setKey_refines h (setup.hashkey key timestamp)
      exact ⟨m', by rw [EtagCall.exec, hset]; rfl, hsound, hm'⟩
  | getKey key timestamp =>
      obtain ⟨m', hget, hsound, hm'⟩ := m.getKey_refines h (setup.hashkey key timestamp)
      exact ⟨m', by rw [EtagCall.exec, hget]; rfl, hsound, hm'⟩

theorem uses_cons (call : EtagCall) (ret : Option Bool) (trace : List (EtagCall × Option Bool)) :
    uses setup ((call, ret) :: trace) =
      uses setup trace ++ (EtagCall.use setup (call, ret)).toList := by
  rw [uses, uses, List.filterMap_cons]
  cases EtagCall.use setup (call, ret) with
  | none => exact (List.append_nil _).symm
  | some w => exact List.reverse_cons

/-! ### What the caches hold -/

/-- The cache holds the `n` words of `us` most recently used. -/
structure EtagCache.Lru (n : Nat) (us : List Nat) (c : EtagCache) : Prop where
  capacity : c.capacity = n
  etaglist : c.etaglist = (recency us).take n

namespace EtagCache.Lru

variable {c : EtagCache} {a : Nat}

/-- One more word is used. -/
theorem replace (h : c.Lru n us) (hn : 0 < n) (a : Nat) :
    Lru n (a :: us) ⟨c.capacity, replaceLru c.capacity c.etaglist a⟩ := by
  obtain ⟨n, rfl⟩ := Nat.exists_eq_succ_of_ne_zero hn.ne'
  refine ⟨h.capacity, ?_⟩
  rw [h.capacity, h.etaglist]
  exact (take_touch a (recency us) n).symm

theorem set (h : c.Lru n us) (hn : 0 < n) (a : Nat) : Lru n (a :: us) (c.set a) := by
  rw [EtagCache.set_eq]
  exact h.replace hn a

theorem get_hit (h : c.Lru n us) (hn : 0 < n) (ha : (c.get a).1 = true) :
    Lru n (a :: us) (c.get a).2 := by
  have hmem : a ∈ c.etaglist := by
    by_contra hnot
    rw [EtagCache.get, if_neg hnot] at ha
    cases ha
  have hget : (c.get a).2 = ⟨c.capacity, replaceLru c.capacity c.etaglist a⟩ := by
    rw [EtagCache.get, if_pos hmem, replaceLru, if_pos hmem]
    rfl
  rw [hget]
  exact h.replace hn a

theorem get_miss (h : c.Lru n us) (ha : (c.get a).1 = false) : Lru n us (c.get a).2 := by
  have hnot : a ∉ c.etaglist := by
    intro hmem
    rw [EtagCache.get, if_pos hmem] at ha
    cases ha
  rw [EtagCache.get, if_neg hnot]
  exact h

end EtagCache.Lru

namespace XEtagManager

variable {m : XEtagManager} {a : Nat}

/-- Each cache holds the most recently used of its own words. -/
def Sharded (n : Nat) (us : List Nat) (m : XEtagManager) : Prop :=
  ∀ i (c : EtagCache), m.etagCache[i]? = some c →
    c.Lru n (us.filter fun w => w % m.etagCache.length = i)

theorem Sharded.init (setup : EtagSetup) : (XEtagManager.init setup).Sharded setup.size [] := by
  intro i c hc
  obtain ⟨-, rfl⟩ := List.mem_replicate.mp (List.mem_of_getElem? hc)
  exact ⟨rfl, List.take_nil.symm⟩

/-- A use of `a`, in its cache. -/
theorem Sharded.modify (h : m.Sharded n us) {f : EtagCache → EtagCache}
    (hf : ∀ c us, m.etagCache[m.cacheIndex a]? = some c → c.Lru n us → (f c).Lru n (a :: us)) :
    Sharded n (a :: us) ⟨m.etagCache.modify (m.cacheIndex a) f⟩ := by
  intro i c hc
  simp only [List.length_modify, List.getElem?_modify] at hc ⊢
  rw [List.filter_cons]
  split_ifs at hc with hi
  · obtain ⟨c', hc', rfl⟩ := Option.map_eq_some_iff.mp hc
    have hai : decide (a % m.etagCache.length = i) = true := decide_eq_true hi
    rw [if_pos hai]
    exact hf c' _ (hi ▸ hc') (h i c' hc')
  · have hai : ¬ decide (a % m.etagCache.length = i) = true := fun hd => hi (of_decide_eq_true hd)
    rw [if_neg hai]
    exact h i c (by simpa using hc)

theorem Sharded.setKey (h : m.Sharded n us) (hn : 0 < n) (a : Nat) :
    (m.setKey a).Sharded n (a :: us) :=
  h.modify fun _ _ _ hc => hc.set hn a

theorem Sharded.getKey_hit (h : m.Sharded n us) (hn : 0 < n) (ha : (m.getKey a).1 = true) :
    (m.getKey a).2.Sharded n (a :: us) := by
  refine h.modify fun c _ hc hlru => hlru.get_hit hn ?_
  rw [getKey, hc] at ha
  exact ha

theorem Sharded.getKey_miss (h : m.Sharded n us) (ha : (m.getKey a).1 = false) :
    (m.getKey a).2.Sharded n us := by
  intro i c hc
  simp only [getKey, List.length_modify, List.getElem?_modify] at hc ⊢
  split_ifs at hc with hi
  · obtain ⟨c', hc', rfl⟩ := Option.map_eq_some_iff.mp hc
    refine (h i c' hc').get_miss ?_
    rw [getKey, hi, hc'] at ha
    exact ha
  · exact h i c (by simpa using hc)

/-- **`GetKey` finds a word** that is among the most recently used of its cache. -/
theorem Sharded.getKey_iff (h : m.Sharded n us) (hm : 0 < m.etagCache.length) :
    (m.getKey a).1 = true ↔
      AmongRecent n (us.filter fun w => w % m.etagCache.length = a % m.etagCache.length) a := by
  obtain ⟨c, hc⟩ : ∃ c, m.etagCache[a % m.etagCache.length]? = some c :=
    ⟨_, List.getElem?_eq_getElem (Nat.mod_lt _ hm)⟩
  rw [getKey_eq_true, ← mem_take_recency, ← (h _ c hc).etaglist]
  constructor
  · rintro ⟨c', hc', ha⟩
    rw [cacheIndex, hc] at hc'
    obtain rfl := Option.some.inj hc'
    exact ha
  · intro ha
    exact ⟨c, hc, ha⟩

end XEtagManager

/-! ### Runs -/

/-- The manager `m` after `calls`, which used the words `us`. -/
structure Tracks (setup : EtagSetup) (calls : List EtagCall) (us : List Nat) (m : EtagShards) :
    Prop where
  sound : m.Sound
  count : m.etagCache.length = setup.cnt
  sharded : m.toManager.Sharded setup.size us
  inserted : ∀ w ∈ us, Inserted setup calls w

theorem Inserted.mono {calls calls' : List EtagCall} {w : Nat} (h : Inserted setup calls w)
    (hsub : calls ⊆ calls') : Inserted setup calls' w := by
  obtain ⟨key, timestamp, hmem, hw⟩ := h
  exact ⟨key, timestamp, hsub hmem, hw⟩

namespace Tracks

variable {calls : List EtagCall} {m : EtagShards}

theorem init (hc : 0 < setup.cnt) (hint : setup.cnt < 2 ^ 31) (hn : 0 < setup.size) :
    Tracks setup [] [] (.init setup) where
  sound := .init hc hint hn
  count := List.length_replicate
  sharded := by
    have hinit : (EtagShards.init setup).toManager = .init setup :=
      congrArg XEtagManager.mk List.map_replicate
    rw [hinit]
    exact .init setup
  inserted _ h := absurd h List.not_mem_nil

theorem length_toManager (h : Tracks setup calls us m) :
    m.toManager.etagCache.length = setup.cnt := by
  rw [EtagShards.toManager, List.length_map, h.count]

theorem getKey_iff (h : Tracks setup calls us m) (a : Nat) :
    (m.toManager.getKey a).1 = true ↔
      AmongRecent setup.size (us.filter fun w => w % setup.cnt = a % setup.cnt) a := by
  have hpos : 0 < m.toManager.etagCache.length := by
    rw [h.length_toManager, ← h.count, ← h.sound.count]
    exact h.sound.pos
  rw [h.sharded.getKey_iff hpos, h.length_toManager]

/-- A word that is found was put in. -/
theorem inserted_of_getKey (h : Tracks setup calls us m) {a : Nat}
    (ha : (m.toManager.getKey a).1 = true) : Inserted setup calls a :=
  h.inserted a (List.mem_of_mem_filter ((h.getKey_iff a).mp ha).1)

/-- **One call.** -/
theorem exec (h : Tracks setup calls us m) (hn : 0 < setup.size) (call : EtagCall) :
    ∃ ret m', call.exec setup m = .ok (ret, m') ∧
      Tracks setup (calls ++ [call]) ((EtagCall.use setup (call, ret)).toList ++ us) m' := by
  obtain ⟨m', hexec, hsound, hm'⟩ := call.exec_refines setup h.sound
  have hcount : m'.etagCache.length = setup.cnt := by
    have hlen : m'.toManager.etagCache.length = m.toManager.etagCache.length := by
      rw [hm']
      cases call <;> exact List.length_modify _ _ _
    rw [h.length_toManager, EtagShards.toManager, List.length_map] at hlen
    exact hlen
  have hold : ∀ w ∈ us, Inserted setup (calls ++ [call]) w := fun w hw =>
    (h.inserted w hw).mono (List.subset_append_left _ _)
  refine ⟨_, m', hexec, hsound, hcount, ?_, ?_⟩
  · rw [hm']
    cases call with
    | setKey key timestamp => exact h.sharded.setKey hn _
    | getKey key timestamp =>
        cases hret : (m.toManager.getKey (setup.hashkey key timestamp)).1 with
        | true =>
            simp only [EtagCall.returned, hret]
            exact h.sharded.getKey_hit hn hret
        | false =>
            simp only [EtagCall.returned, hret]
            exact h.sharded.getKey_miss hret
  · intro w hw
    rcases List.mem_append.mp hw with hw | hw
    · cases call with
      | setKey key timestamp =>
          obtain rfl := List.mem_singleton.mp hw
          exact ⟨key, timestamp, List.mem_append_right _ List.mem_cons_self, rfl⟩
      | getKey key timestamp =>
          cases hret : (m.toManager.getKey (setup.hashkey key timestamp)).1 with
          | true =>
              simp only [EtagCall.returned, hret] at hw
              obtain rfl := List.mem_singleton.mp hw
              exact (h.inserted_of_getKey hret).mono (List.subset_append_left _ _)
          | false =>
              simp only [EtagCall.returned, hret] at hw
              cases hw
    · exact hold w hw

/-- **Any calls.** -/
theorem run (h : Tracks setup calls us m) (hn : 0 < setup.size) (more : List EtagCall) :
    ∃ trace m', runCalls setup m more = .ok (trace, m') ∧
      Tracks setup (calls ++ more) (uses setup trace ++ us) m' := by
  induction more generalizing calls us m with
  | nil => exact ⟨[], m, rfl, by rw [List.append_nil]; exact h⟩
  | cons call more ih =>
      obtain ⟨ret, m₁, hexec, h₁⟩ := h.exec hn call
      obtain ⟨trace, m', hrun, h'⟩ := ih h₁
      refine ⟨(call, ret) :: trace, m', ?_, ?_⟩
      · rw [runCalls, hexec]
        simp only [bind, Except.bind, hrun]
        rfl
      · rw [uses_cons, List.append_assoc]
        rw [List.append_assoc, List.singleton_append] at h'
        exact h'

end Tracks

/-- A list of nodes and a map from words to iterators are one cache of the words `us`: no word and
no iterator stands twice, there are at most `n`, each word was used since those behind it, and the
map has the iterator of each word and nothing else. -/
structure Represents (n : Nat) (us : List Nat) (c : EtagNodes) : Prop where
  words : c.words.Nodup
  iterators : (c.etaglist.map (·.1)).Nodup
  size : c.etaglist.length ≤ n
  order : c.words.Pairwise fun a b => a ∈ since us b
  map : ∀ w it, c.etagmap.get w = some it ↔ (it, w) ∈ c.etaglist

theorem represents_of_lru {c : EtagNodes} (h : c.Linked) (hlru : c.toCache.Lru n us) :
    Represents n us c where
  words := h.entries
  iterators := h.iterators
  size := by
    have hlen : c.words.length ≤ n := by
      rw [show c.words = (recency us).take n from hlru.etaglist]
      exact List.length_take_le _ _
    rw [EtagNodes.words, List.length_map] at hlen
    exact hlen
  order := by
    rw [show c.words = (recency us).take n from hlru.etaglist]
    exact (pairwise_recency us).sublist (List.take_sublist _ _)
  map := h.map

/-- **The ETag manager is a sharded cache that replaces what is least recently used.**  For every
number of caches that an `int` counts, every size and every list of calls, no call has an undefined
step; `GetKey` then finds a word exactly if a `SetKey` put it in and it is among the `size` words of
its cache that were used last; and the list and the map of each cache represent its uses. -/
theorem sharded_lru (setup : EtagSetup) (hc : 1 ≤ setup.cnt) (hint : setup.cnt < 2 ^ 31)
    (hn : 1 ≤ setup.size) (calls : List EtagCall) :
    ∃ trace m, runCalls setup (.init setup) calls = .ok (trace, m) ∧
      m.etagCache.length = setup.cnt ∧
      (∀ key timestamp,
        let h := setup.hashkey key timestamp
        ∃ found m', m.getKey h = .ok (found, m') ∧
          (found = true ↔ Inserted setup calls h ∧ AmongRecent setup.size
            ((uses setup trace).filter fun w => w % setup.cnt = h % setup.cnt) h)) ∧
      ∀ i c, m.etagCache[i]? = some c →
        Represents setup.size ((uses setup trace).filter fun w => w % setup.cnt = i) c := by
  obtain ⟨trace, m, hrun, h⟩ := (Tracks.init hc hint hn).run hn calls
  rw [List.append_nil, List.nil_append] at h
  refine ⟨trace, m, hrun, h.count, fun key timestamp => ?_, fun i c hc' => ?_⟩
  · obtain ⟨m', hget, -, -⟩ := m.getKey_refines h.sound (setup.hashkey key timestamp)
    refine ⟨_, m', hget, ?_⟩
    constructor
    · intro hfound
      exact ⟨h.inserted_of_getKey hfound, (h.getKey_iff _).mp hfound⟩
    · rintro ⟨-, hrecent⟩
      exact (h.getKey_iff _).mpr hrecent
  · have hlinked := (h.sound.caches c (List.mem_of_getElem? hc')).1
    have hlru := h.sharded i c.toCache (by rw [EtagShards.toManager, List.getElem?_map, hc']; rfl)
    rw [h.length_toManager] at hlru
    exact represents_of_lru hlinked hlru

/-- Two caches with room for one word each: the second of two words of one cache is found. -/
theorem sharded_lru_two :
    let setup : EtagSetup := ⟨List.length, 2, 1⟩
    let calls : List EtagCall := [.setKey (ascii "a") 0, .setKey (ascii "b") 2]
    ∃ trace m, runCalls setup (.init setup) calls = .ok (trace, m) ∧
      ∃ m', m.getKey (setup.hashkey (ascii "b") 2) = .ok (true, m') := by
  intro setup calls
  obtain ⟨trace, m, hrun, -, hget, -⟩ :=
    sharded_lru setup (by decide) (by decide) (by decide) calls
  have htrace : (runCalls setup (.init setup) calls).map (·.1) =
      .ok [(.setKey (ascii "a") 0, none), (.setKey (ascii "b") 2, none)] := by decide
  rw [hrun] at htrace
  obtain rfl := Except.ok.inj htrace
  obtain ⟨found, m', hfound, hiff⟩ := hget (ascii "b") 2
  obtain rfl := hiff.mpr ⟨⟨ascii "b", 2, by decide, rfl⟩, by decide⟩
  exact ⟨_, m, hrun, m', hfound⟩

end XHttpCache
