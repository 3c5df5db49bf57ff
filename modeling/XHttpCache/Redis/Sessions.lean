import XHttpCache.Support.OrderedMap
import XHttpCache.Support.Runs

/-!
# Redis — session ids

`MallocConnection` and `FreeConnection` of `common/xRedisServerLib.cpp`, and the callbacks that call
them.  A connection gets the next number of a 32-bit counter as its id and is entered under it into
`connectionmap`, by an `insert` that leaves an entry of the same id as it is.  A callback frees
whatever connection the map has under the id of its own.

* `Sound.step`, `Sound.run`: while no id is given out that a live connection has, the map has every
  live connection under its id, and nothing else.
* `always_identified_iff`: ids identify connections, in all states of a run, exactly if that is so
  at every accept.
* `alwaysIdentified_of_few`: it is so for the first `2 ^ 32` accepts, whatever is closed.
-/

namespace XHttpCache
open Support

/-! ### Connections -/

/-- `xRedisConnectorBase`: how many connections were accepted before it, which tells it from every
other one, and `sid`. -/
structure Connector where
  serial : Nat
  sid : Nat
  deriving DecidableEq

/-- The connections of `xRedisServerBase`: `sessionbase`, a `uint32_t`, `connectionmap`, the
connectors that are allocated, and how many connections were accepted. -/
structure Sessions where
  sessionbase : Nat
  connectionmap : OrderedMap Nat Connector
  live : List Connector
  accepted : Nat

/-- What happens to connections.  When the timer of a connector goes off, `OnTimer` tells whether it
stays. -/
inductive SessionEvent where
  | accept
  | error (c : Connector)
  | timeout (c : Connector) (onTimer : Bool)

/-- How many connections an event accepts. -/
def SessionEvent.accepts : SessionEvent → Nat
  | .accept => 1
  | .error _ | .timeout _ _ => 0

namespace Sessions

/-- A new server. -/
def init : Sessions := { sessionbase := 1000, connectionmap := .empty, live := [], accepted := 0 }

/-- `xRedisServerBase::MallocConnection`. -/
def mallocConnection (s : Sessions) : Sessions :=
  let c : Connector := ⟨s.accepted, s.sessionbase⟩
  { sessionbase := (s.sessionbase + 1) % 2 ^ 32
    -- `map::insert` does not replace an entry
    connectionmap :=
      if (s.connectionmap.get c.sid).isSome then s.connectionmap else s.connectionmap.insert c.sid c
    live := c :: s.live
    accepted := s.accepted + 1 }

/-- `xRedisServerBase::FreeConnection`: the connector that is deleted, if any. -/
def freeConnection (s : Sessions) (sid : Nat) : Option Connector × Sessions :=
  match s.connectionmap.get sid with
  | none => (none, s)
  | some c =>
      (some c, { s with connectionmap := s.connectionmap.erase sid, live := s.live.erase c })

/-- `AcceptCallback`, `ErrorCallback` and `TimeoutCallback`: the connector that is deleted, if any.
Only a connector that is allocated has callbacks. -/
def step (s : Sessions) : SessionEvent → Option Connector × Sessions
  | .accept => (none, s.mallocConnection)
  | .error c => if c ∈ s.live then s.freeConnection c.sid else (none, s)
  | .timeout c onTimer =>
      if c ∈ s.live ∧ onTimer = false then s.freeConnection c.sid else (none, s)

/-! ### What ids are for -/

/-- **Ids identify connections**: every live connector is found under its id, and its callbacks
delete it and no other. -/
structure Identified (s : Sessions) : Prop where
  found : ∀ c ∈ s.live, s.connectionmap.get c.sid = some c
  frees : ∀ c ∈ s.live, ∀ e, e = .error c ∨ e = .timeout c false →
    (s.step e).1 = some c ∧ (s.step e).2.live = s.live.erase c

/-- Ids identify connections in every state of the run. -/
def AlwaysIdentified (es : List SessionEvent) : Prop :=
  ∀ before after, es = before ++ after → (run step init before).2.Identified

/-- No connection is given the id of a live one. -/
def IdFree (s : Sessions) (e : SessionEvent) : Prop :=
  e = .accept → ∀ c ∈ s.live, c.sid ≠ s.sessionbase

variable {s : Sessions} {c : Connector} {e : SessionEvent}

theorem step_callback (hc : c ∈ s.live) (he : e = .error c ∨ e = .timeout c false) :
    s.step e = s.freeConnection c.sid := by
  rcases he with rfl | rfl
  · exact if_pos hc
  · exact if_pos ⟨hc, rfl⟩

/-- A connector that is found under its id is the one that is deleted. -/
theorem identified_of_found (h : ∀ c ∈ s.live, s.connectionmap.get c.sid = some c) :
    s.Identified := by
  refine ⟨h, fun c hc e he => ?_⟩
  rw [step_callback hc he, freeConnection, h c hc]
  exact ⟨rfl, rfl⟩

/-- An event accepts a connection, deletes the one that the map has under the id of a live one, or
changes nothing. -/
theorem step_cases (s : Sessions) (e : SessionEvent) :
    (e = .accept ∧ (s.step e).2 = s.mallocConnection) ∨
      (∃ c ∈ s.live, (s.step e).2 = (s.freeConnection c.sid).2) ∨ (s.step e).2 = s := by
  cases e with
  | accept => exact Or.inl ⟨rfl, rfl⟩
  | error c =>
      by_cases hc : c ∈ s.live
      · exact Or.inr (Or.inl ⟨c, hc, congrArg Prod.snd (if_pos hc)⟩)
      · exact Or.inr (Or.inr (congrArg Prod.snd (if_neg hc)))
  | timeout c onTimer =>
      by_cases hc : c ∈ s.live ∧ onTimer = false
      · exact Or.inr (Or.inl ⟨c, hc.1, congrArg Prod.snd (if_pos hc)⟩)
      · exact Or.inr (Or.inr (congrArg Prod.snd (if_neg hc)))

/-! ### Serial numbers -/

/-- Connectors are numbered as they are accepted, and their ids are these numbers, from 1000 on,
modulo `2 ^ 32`. -/
structure Numbered (s : Sessions) : Prop where
  base : s.sessionbase = (1000 + s.accepted) % 2 ^ 32
  serial_lt : ∀ c ∈ s.live, c.serial < s.accepted
  sid : ∀ c ∈ s.live, c.sid = (1000 + c.serial) % 2 ^ 32

theorem numbered_init : init.Numbered :=
  ⟨by decide, fun _ hc => absurd hc List.not_mem_nil, fun _ hc => absurd hc List.not_mem_nil⟩

theorem live_freeConnection (s : Sessions) (sid : Nat) :
    (s.freeConnection sid).2.live ⊆ s.live ∧
      (s.freeConnection sid).2.sessionbase = s.sessionbase ∧
        (s.freeConnection sid).2.accepted = s.accepted := by
  rw [freeConnection]
  cases s.connectionmap.get sid with
  | none => exact ⟨List.Subset.refl _, rfl, rfl⟩
  | some c => exact ⟨List.erase_subset, rfl, rfl⟩

theorem Numbered.step (h : s.Numbered) (e : SessionEvent) : (s.step e).2.Numbered := by
  rcases step_cases s e with ⟨-, heq⟩ | ⟨c, -, heq⟩ | heq
  · rw [heq]
    have hbase := h.base
    refine ⟨?_, fun d hd => ?_, fun d hd => ?_⟩
    · simp only [mallocConnection]
      omega
    · rcases List.mem_cons.mp hd with rfl | hd
      · exact Nat.lt_succ_self _
      · exact Nat.lt_succ_of_lt (h.serial_lt d hd)
    · rcases List.mem_cons.mp hd with rfl | hd
      · exact hbase
      · exact h.sid d hd
  · obtain ⟨hsub, hbase, hacc⟩ := live_freeConnection s c.sid
    rw [heq]
    refine ⟨by rw [hbase, hacc, h.base], fun d hd => ?_, fun d hd => h.sid d (hsub hd)⟩
    rw [hacc]
    exact h.serial_lt d (hsub hd)
  · rw [heq]
    exact h

theorem numbered_run (es : List SessionEvent) : (run step init es).2.Numbered := by
  have hstep : ∀ (s : Sessions) (e : SessionEvent), True → s.Numbered → (s.step e).2.Numbered :=
    fun _ e _ h => h.step e
  exact run_inv hstep (fun _ _ => trivial) numbered_init

/-! ### One step -/

/-- The map has every live connector under its id, and no other. -/
structure Sound (s : Sessions) : Prop where
  found : ∀ c ∈ s.live, s.connectionmap.get c.sid = some c
  entry : ∀ sid c, s.connectionmap.get sid = some c → c ∈ s.live ∧ c.sid = sid
  nodup : s.live.Nodup

theorem sound_init : init.Sound :=
  ⟨fun _ hc => absurd hc List.not_mem_nil, fun _ _ h => absurd h (Option.some_ne_none _).symm,
    List.nodup_nil⟩

theorem connectionmap_mallocConnection (h : s.connectionmap.get s.sessionbase = none) :
    s.mallocConnection.connectionmap =
      s.connectionmap.insert s.sessionbase ⟨s.accepted, s.sessionbase⟩ := by
  simp only [mallocConnection, h, Option.isSome_none, Bool.false_eq_true, if_false]

theorem Sound.mallocConnection (h : s.Sound) (hn : s.Numbered)
    (hfree : ∀ c ∈ s.live, c.sid ≠ s.sessionbase) : s.mallocConnection.Sound := by
  have hnone : s.connectionmap.get s.sessionbase = none := by
    refine Option.eq_none_iff_forall_ne_some.mpr fun c hc => ?_
    obtain ⟨hlive, hsid⟩ := h.entry _ c hc
    exact hfree c hlive hsid
  have hmap := connectionmap_mallocConnection hnone
  refine ⟨fun c hc => ?_, fun sid c hc => ?_, List.nodup_cons.mpr ⟨fun hmem => ?_, h.nodup⟩⟩
  · rw [hmap]
    rcases List.mem_cons.mp hc with rfl | hc
    · exact OrderedMap.get_insert_self _ _ _
    · rw [OrderedMap.get_insert_ne _ _ (hfree c hc), h.found c hc]
  · rw [hmap, OrderedMap.get_insert] at hc
    split_ifs at hc with hsid
    · obtain rfl := Option.some.inj hc
      exact ⟨List.mem_cons_self, hsid.symm⟩
    · obtain ⟨hlive, heq⟩ := h.entry sid c hc
      exact ⟨List.mem_cons_of_mem _ hlive, heq⟩
  · exact absurd (hn.serial_lt _ hmem) (lt_irrefl _)

theorem Sound.freeConnection (h : s.Sound) (hc : c ∈ s.live) :
    (s.freeConnection c.sid).2.Sound := by
  rw [Sessions.freeConnection, h.found c hc]
  -- no other live connector has this id
  have hother : ∀ d ∈ s.live.erase c, d ∈ s.live ∧ d.sid ≠ c.sid := by
    intro d hd
    obtain ⟨hne, hlive⟩ := h.nodup.mem_erase_iff.mp hd
    refine ⟨hlive, fun hsid => hne ?_⟩
    have hfound := h.found d hlive
    rw [hsid, h.found c hc] at hfound
    exact (Option.some.inj hfound).symm
  refine ⟨fun d hd => ?_, fun sid d hd => ?_, h.nodup.erase c⟩
  · obtain ⟨hlive, hsid⟩ := hother d hd
    exact (OrderedMap.get_erase_ne _ hsid).trans (h.found d hlive)
  · simp only [OrderedMap.get_erase] at hd
    split_ifs at hd with hsid
    obtain ⟨hlive, heq⟩ := h.entry sid d hd
    refine ⟨h.nodup.mem_erase_iff.mpr ⟨?_, hlive⟩, heq⟩
    rintro rfl
    exact hsid heq.symm

theorem Sound.step (h : s.Sound) (hn : s.Numbered) (hfree : s.IdFree e) : (s.step e).2.Sound := by
  rcases step_cases s e with ⟨he, heq⟩ | ⟨c, hc, heq⟩ | heq
  · rw [heq]
    exact h.mallocConnection hn (hfree he)
  · rw [heq]
    exact h.freeConnection hc
  · rw [heq]
    exact h

/-! ### Runs -/

/-- **While no id is given out twice**, the map has the live connectors under their ids. -/
theorem Sound.run {es : List SessionEvent} (h : Along Sessions.step IdFree init es) :
    (Support.run Sessions.step init es).2.Sound :=
  (along_inv (I := fun s => s.Sound ∧ s.Numbered)
    (fun _ e hfree hs => ⟨hs.1.step hs.2 hfree, hs.2.step e⟩) h ⟨sound_init, numbered_init⟩).1

/-- A connection that is given the id of a live one is not found under it. -/
theorem not_identified_of_taken (hn : s.Numbered) (h : s.Identified) (hc : c ∈ s.live)
    (hsid : c.sid = s.sessionbase) : ¬ (s.step .accept).2.Identified := by
  intro h'
  have hget : s.connectionmap.get s.sessionbase = some c := hsid ▸ h.found c hc
  have hnew := h'.found ⟨s.accepted, s.sessionbase⟩ List.mem_cons_self
  simp only [Sessions.step, mallocConnection, hget, Option.isSome_some, if_true] at hnew
  have hlt := hn.serial_lt c hc
  rw [Option.some.inj hnew] at hlt
  exact lt_irrefl _ hlt

/-- **Ids identify connections in every state of a run** if and only if no connection of the run is
given the id of a live one. -/
theorem always_identified_iff (es : List SessionEvent) :
    AlwaysIdentified es ↔ Along step IdFree init es := by
  constructor
  · intro h
    refine along_iff.mpr fun before e after hes he c hc hsid => ?_
    subst he
    have hbefore := h before (.accept :: after) hes
    refine not_identified_of_taken (numbered_run before) hbefore hc hsid ?_
    have hthen := h (before ++ [.accept]) after (by rw [hes, List.append_assoc]; rfl)
    rw [run_append] at hthen
    exact hthen
  · rintro h before after rfl
    exact identified_of_found (Sound.run (along_append.mp h).1).found

/-- An id comes back after `2 ^ 32` accepts: a live connector has the next id exactly if it was
accepted a multiple of `2 ^ 32` accepts ago. -/
theorem Numbered.sid_eq_iff (h : s.Numbered) (hc : c ∈ s.live) :
    c.sid = s.sessionbase ↔ 2 ^ 32 ∣ s.accepted - c.serial := by
  have hlt := h.serial_lt c hc
  rw [h.base, h.sid c hc]
  omega

theorem accepted_step (s : Sessions) (e : SessionEvent) :
    (s.step e).2.accepted = s.accepted + e.accepts := by
  cases e with
  | accept => rfl
  | error c =>
      rw [step]
      split_ifs
      · exact (live_freeConnection s c.sid).2.2
      · rfl
  | timeout c onTimer =>
      rw [step]
      split_ifs
      · exact (live_freeConnection s c.sid).2.2
      · rfl

theorem accepted_run (es : List SessionEvent) (s : Sessions) :
    (run step s es).2.accepted = s.accepted + (es.map SessionEvent.accepts).sum := by
  induction es generalizing s with
  | nil => rfl
  | cons e es ih =>
      rw [run_cons, List.map_cons, List.sum_cons, ← Nat.add_assoc, ← accepted_step]
      exact ih (s.step e).2

/-- Ids identify connections in every run of at most `2 ^ 32` accepts. -/
theorem alwaysIdentified_of_few {es : List SessionEvent}
    (h : (es.map SessionEvent.accepts).sum ≤ 2 ^ 32) : AlwaysIdentified es := by
  refine (always_identified_iff es).mpr (along_iff.mpr fun before e after hes he c hc hsid => ?_)
  subst he
  have hn := numbered_run before
  have hlt := hn.serial_lt c hc
  have hacc : (run step init before).2.accepted = (before.map SessionEvent.accepts).sum := by
    rw [accepted_run]
    exact Nat.zero_add _
  rw [hes, List.map_append, List.map_cons, List.sum_append, List.sum_cons,
    SessionEvent.accepts] at h
  obtain ⟨n, hdvd⟩ := (hn.sid_eq_iff hc).mp hsid
  omega

/-! ### An id that comes back -/

/-- Connections that come and go, `n` of them, after a first one. -/
def churn : Nat → List SessionEvent
  | 0 => []
  | n + 1 => churn n ++ [.accept, .error ⟨n + 1, (1000 + (n + 1)) % 2 ^ 32⟩]

/-- The first connection alone, when `n` connections have been accepted. -/
def firstAlone (n : Nat) : Sessions where
  sessionbase := (1000 + n) % 2 ^ 32
  connectionmap := OrderedMap.insert .empty 1000 ⟨0, 1000⟩
  live := [⟨0, 1000⟩]
  accepted := n

/-- A connection that is closed right after it was accepted leaves nothing but the counters. -/
theorem run_accept_error (h : s.connectionmap.get s.sessionbase = none) :
    (run step s [.accept, .error ⟨s.accepted, s.sessionbase⟩]).2 =
      { s with sessionbase := (s.sessionbase + 1) % 2 ^ 32, accepted := s.accepted + 1 } := by
  have hmap := connectionmap_mallocConnection h
  have hget : s.mallocConnection.connectionmap.get s.sessionbase =
      some ⟨s.accepted, s.sessionbase⟩ := by
    rw [hmap, OrderedMap.get_insert_self]
  have herase : s.mallocConnection.connectionmap.erase s.sessionbase = s.connectionmap := by
    refine OrderedMap.ext_get fun k => ?_
    by_cases hk : k = s.sessionbase
    · rw [hk, OrderedMap.get_erase_self, h]
    · rw [OrderedMap.get_erase_ne _ hk, hmap, OrderedMap.get_insert_ne _ _ hk]
  have hlive : s.mallocConnection.live.erase ⟨s.accepted, s.sessionbase⟩ = s.live :=
    List.erase_cons_head _ _
  have hclose : s.mallocConnection.step (.error ⟨s.accepted, s.sessionbase⟩) =
      s.mallocConnection.freeConnection s.sessionbase := if_pos List.mem_cons_self
  have haccept : s.step .accept = (none, s.mallocConnection) := rfl
  rw [run_cons, run_cons, run_nil]
  simp only [haccept, hclose, freeConnection, hget, herase, hlive]
  rfl

/-- While connections come and go, the first one keeps its id. -/
theorem run_churn {n : Nat} (hn : n < 2 ^ 32) :
    (run step init (.accept :: churn n)).2 = firstAlone (n + 1) := by
  induction n with
  | zero => rfl
  | succ n ih =>
      have hsid : (1000 + (n + 1)) % 2 ^ 32 ≠ 1000 := by omega
      have hget :
          (firstAlone (n + 1)).connectionmap.get (firstAlone (n + 1)).sessionbase = none := by
        rw [firstAlone, OrderedMap.get_insert_ne _ _ hsid, OrderedMap.get_empty]
      have hbase : ((1000 + (n + 1)) % 2 ^ 32 + 1) % 2 ^ 32 = (1000 + (n + 2)) % 2 ^ 32 := by omega
      rw [churn, ← List.cons_append, run_append, ih (Nat.lt_of_succ_lt hn)]
      refine (run_accept_error hget).trans ?_
      simp only [firstAlone, hbase]

/-- The connection that is accepted next is given the id of the first one. -/
theorem run_churn_accept {n : Nat} (hn : n + 1 = 2 ^ 32) :
    (run step init (.accept :: churn n ++ [.accept])).2 =
      { sessionbase := 1001
        connectionmap := OrderedMap.insert .empty 1000 ⟨0, 1000⟩
        live := [⟨2 ^ 32, 1000⟩, ⟨0, 1000⟩]
        accepted := 2 ^ 32 + 1 } := by
  rw [run_append, run_churn (by omega), hn]
  rfl

/-- One connection stays open while `2 ^ 32 - 1` others come and go.  The next one is given its id,
is not entered into the map, and when it is closed the first one is deleted. -/
theorem id_of_another :
    let first : Connector := ⟨0, 1000⟩
    let last : Connector := ⟨2 ^ 32, 1000⟩
    let s := (run step init (.accept :: churn (2 ^ 32 - 1) ++ [.accept])).2
    s.live = [last, first] ∧ s.connectionmap.get last.sid = some first ∧
      (s.step (.error last)).1 = some first ∧ (s.step (.error last)).2.live = [last] := by
  intro first last s
  have hs : s = _ := run_churn_accept (by norm_num)
  rw [hs]
  exact ⟨rfl, rfl, rfl, rfl⟩

end Sessions

end XHttpCache
