import Mathlib.Data.Finset.Card
import RasterRuntime.Transition

/-! # Connections of a server

`listen` spawns a task that binds an address and then accepts connections, `close` tells these tasks
to stop, and each connection is a task too. A connection raises the count of the event loop when a
dispatch begins and lowers it when the dispatch has returned; one that ends before drops the
dispatch where it is.

* `inflight_iff`: the count is right in exactly the runs in which no dispatch is dropped.
* `close_sound`: `close` is emitted as it should be if `listen` is called only after the tasks of
  earlier calls have ended and `close` was emitted for earlier calls of it, and `close` only when no
  task binds. -/

namespace RasterRuntime.Http

open Transition

/-- The server: its flags, how many tasks of `listen` bind and how many accept, the connections,
those in a dispatch, those told to end and those told to end if they are idle, and the count of the
event loop. The last four fields are what has happened: the calls of `close` and its events, whether
`listen` was not called after the last event, and whether an event came while a task accepted
connections. -/
structure Server where
  listening : Bool := false
  closing : Bool := false
  closeEmitted : Bool := false
  binding : ℕ := 0
  accepting : ℕ := 0
  connections : Finset ℕ := ∅
  dispatches : Finset ℕ := ∅
  told : Finset ℕ := ∅
  toldIdle : Finset ℕ := ∅
  inflight : ℕ := 0
  closes : ℕ := 0
  closeEvents : ℕ := 0
  closed : Bool := false
  early : Bool := false

/-- `bindFails` and `acceptFails` end a task of `listen` with an error, and in `wake` a connection
looks at what it was told. -/
inductive ServerEvent where
  | listen
  | bound
  | bindFails
  | accept (c : ℕ)
  | acceptFails
  | leave
  | close
  | request (c : ℕ)
  | complete (c : ℕ)
  | disconnect (c : ℕ)
  | idleTimeout (c : ℕ)
  | closeAllConnections
  | closeIdleConnections
  | wake (c : ℕ)

namespace Server

def emitCloseIfReady (s : Server) : Server :=
  if s.closing ∧ ¬ s.listening ∧ s.connections = ∅ ∧ ¬ s.closeEmitted then
    { s with
      closeEmitted := true
      closeEvents := s.closeEvents + 1
      closed := true
      early := s.early || 0 < s.accepting }
  else s

/-- The end of a connection, and of the dispatch it may be in. -/
def finish (s : Server) (c : ℕ) : Server :=
  if c ∈ s.connections then
    emitCloseIfReady
      { s with connections := s.connections.erase c, dispatches := s.dispatches.erase c }
  else s

def next (s : Server) : ServerEvent → Server
  | .listen => { s with binding := s.binding + 1, closed := false }
  | .bound =>
    if 0 < s.binding then
      { s with binding := s.binding - 1, accepting := s.accepting + 1, listening := true }
    else s
  | .bindFails => { s with binding := s.binding - 1 }
  | .accept c =>
    if 0 < s.accepting ∧ c ∉ s.connections then
      { s with
        connections := insert c s.connections
        told := s.told.erase c
        toldIdle := s.toldIdle.erase c }
    else s
  | .acceptFails => { s with accepting := s.accepting - 1 }
  | .leave =>
    if 0 < s.accepting then
      emitCloseIfReady { s with accepting := s.accepting - 1, listening := false }
    else s
  | .close => emitCloseIfReady { s with closing := true, closes := s.closes + 1 }
  | .request c =>
    if c ∈ s.connections ∧ c ∉ s.dispatches then
      { s with dispatches := insert c s.dispatches, inflight := s.inflight + 1 }
    else s
  | .complete c =>
    if c ∈ s.dispatches then
      { s with dispatches := s.dispatches.erase c, inflight := s.inflight - 1 }
    else s
  | .disconnect c => s.finish c
  | .idleTimeout c => if c ∈ s.dispatches then s else s.finish c
  | .closeAllConnections => { s with told := s.connections }
  | .closeIdleConnections => { s with toldIdle := s.connections }
  | .wake c =>
    if c ∈ s.told then s.finish c
    else if c ∈ s.toldIdle ∧ c ∉ s.dispatches then s.finish c
    else { s with toldIdle := s.toldIdle.erase c }

variable {s : Server} {e : ServerEvent} {c : ℕ}

/-! ### The count of the event loop -/

/-- The count is the number of dispatches, and is zero when no connection is left. -/
def Counted (s : Server) : Prop :=
  s.inflight = s.dispatches.card ∧ (s.connections = ∅ → s.inflight = 0)

/-- The event does not end a connection in the middle of a dispatch. -/
def Spares (s : Server) : ServerEvent → Prop
  | .disconnect c => c ∉ s.dispatches
  | .wake c => c ∈ s.told → c ∉ s.dispatches
  | _ => True

structure Tallied (s : Server) : Prop where
  inflight : s.inflight = s.dispatches.card
  dispatches : s.dispatches ⊆ s.connections

theorem Tallied.counted (h : s.Tallied) : s.Counted := by
  refine ⟨h.inflight, fun hc => ?_⟩
  have := h.dispatches
  rw [hc, Finset.subset_empty] at this
  rw [h.inflight, this, Finset.card_empty]

theorem Tallied.emitCloseIfReady (h : s.Tallied) : s.emitCloseIfReady.Tallied := by
  unfold Server.emitCloseIfReady
  split_ifs
  exacts [{ h with }, h]

theorem Tallied.finish (h : s.Tallied) (hc : c ∉ s.dispatches) : (s.finish c).Tallied := by
  unfold Server.finish
  split_ifs
  · refine Tallied.emitCloseIfReady ⟨?_, Finset.erase_subset_erase c h.dispatches⟩
    rw [Finset.erase_eq_of_notMem hc]; exact h.inflight
  · exact h

theorem Tallied.next (h : s.Tallied) (hs : s.Spares e) : (s.next e).Tallied := by
  cases e with
  | listen | bindFails | acceptFails | closeAllConnections | closeIdleConnections =>
    exact { h with }
  | bound =>
    unfold Server.next; dsimp only
    split_ifs
    exacts [{ h with }, h]
  | accept c =>
    unfold Server.next; dsimp only
    split_ifs
    · exact { h with dispatches := h.dispatches.trans (Finset.subset_insert c _) }
    · exact h
  | leave =>
    unfold Server.next; dsimp only
    split_ifs
    exacts [Tallied.emitCloseIfReady { h with }, h]
  | close => exact Tallied.emitCloseIfReady { h with }
  | request c =>
    unfold Server.next; dsimp only
    split_ifs with hc
    · refine ⟨?_, Finset.insert_subset hc.1 h.dispatches⟩
      dsimp only; rw [Finset.card_insert_of_notMem hc.2, h.inflight]
    · exact h
  | complete c =>
    unfold Server.next; dsimp only
    split_ifs with hc
    · refine ⟨?_, (Finset.erase_subset c _).trans h.dispatches⟩
      dsimp only; rw [Finset.card_erase_of_mem hc, h.inflight]
    · exact h
  | disconnect c => exact h.finish hs
  | idleTimeout c =>
    unfold Server.next; dsimp only
    split_ifs with hc
    exacts [h, h.finish hc]
  | wake c =>
    unfold Server.next; dsimp only
    split_ifs with ht hc
    exacts [h.finish (hs ht), h.finish hc.2, { h with }]

/-- A connection that ends in the middle of a dispatch leaves the count too high. -/
theorem Tallied.lost (h : s.Tallied) (hc : c ∈ s.dispatches) : ¬ (s.finish c).Counted := by
  have hpos := Finset.card_pos.mpr ⟨c, hc⟩
  intro hcount
  have : s.inflight = (s.dispatches.erase c).card := by
    have := hcount.1
    unfold Server.finish Server.emitCloseIfReady at this
    rw [if_pos (h.dispatches hc)] at this
    split_ifs at this <;> exact this
  rw [Finset.card_erase_of_mem hc, h.inflight] at this
  omega

/-- **Requests in flight**: the count is right in exactly the runs in which no connection ends in
the middle of a dispatch. -/
theorem inflight_iff (es : List ServerEvent) :
    Throughout next Counted {} es ↔ Each next Spares {} es := by
  refine throughout_iff_each (fun _ h => Tallied.counted h) (fun _ _ h => h.next) ?_ es
    ⟨rfl, subset_rfl⟩
  intro s e h hs
  cases e with
  | disconnect c => exact h.lost (of_not_not hs)
  | wake c =>
    obtain ⟨ht, hc⟩ := Classical.not_imp.mp hs
    unfold Server.next; dsimp only
    rw [if_pos ht]; exact h.lost (of_not_not hc)
  | _ => exact absurd trivial hs

/-- After its only client has disconnected, or was told to, a server still has a request in
flight. -/
theorem dropped_dispatch_counts :
    ([.listen, .bound, .accept 0, .request 0, .disconnect 0].foldl next {}).inflight = 1 ∧
      ([.listen, .bound, .accept 0, .request 0, .closeAllConnections, .wake 0].foldl next
        {}).inflight = 1 := by
  decide

/-! ### The event `close` -/

/-- There are no more events than calls of `close`, none came while connections were accepted, and
there are no connections after one until `listen` is called. -/
structure Quiet (s : Server) : Prop where
  events : s.closeEvents ≤ s.closes
  early : s.early = false
  connections : s.closed → s.connections = ∅

/-- `listen` is called when the tasks of earlier calls have ended and no event is due, and `close`
when no task binds. -/
def Ordered (s : Server) : ServerEvent → Prop
  | .listen => s.binding + s.accepting = 0 ∧ (s.closing → s.closeEmitted)
  | .close => s.binding = 0
  | _ => True

/-- What ordered events keep. -/
structure Closing (s : Server) : Prop where
  one : s.binding + s.accepting ≤ 1
  listening : 0 < s.accepting → s.listening
  binding : 0 < s.binding → s.closing → s.closeEmitted
  emitted : s.closeEvents = if s.closeEmitted then 1 else 0
  calls : s.closing ∨ s.closeEmitted → 0 < s.closes
  early : s.early = false
  closed : s.closed → s.connections = ∅ ∧ s.binding + s.accepting = 0

theorem Closing.quiet (h : s.Closing) : s.Quiet := by
  refine ⟨?_, h.early, fun hc => (h.closed hc).1⟩
  have hcalls := h.calls
  rw [h.emitted]
  split_ifs with he
  exacts [hcalls (.inr he), Nat.zero_le _]

theorem Closing.emitCloseIfReady (h : s.Closing) : s.emitCloseIfReady.Closing := by
  unfold Server.emitCloseIfReady
  split_ifs with hready
  · obtain ⟨hc, hl, hconn, he⟩ := hready
    have ha : s.accepting = 0 := by
      by_contra ha
      exact hl (h.listening (by omega))
    have hb : s.binding = 0 := by
      by_contra hb
      exact he (h.binding (by omega) hc)
    have hev := h.emitted
    exact {
      h with
      binding := fun _ _ => rfl
      emitted := by simpa [he] using hev
      calls := fun _ => h.calls (.inl hc)
      early := by simp [h.early, ha]
      closed := fun _ => ⟨hconn, by rw [hb, ha]⟩ }
  · exact h

theorem Closing.finish (h : s.Closing) : (s.finish c).Closing := by
  unfold Server.finish
  split_ifs
  · refine Closing.emitCloseIfReady { h with closed := fun hc => ?_ }
    obtain ⟨hconn, hnone⟩ := h.closed hc
    exact ⟨by simp [hconn], hnone⟩
  · exact h

theorem Closing.next (h : s.Closing) (ho : s.Ordered e) : (s.next e).Closing := by
  have hone := h.one
  cases e with
  | listen =>
    obtain ⟨hnone, hdue⟩ := ho
    exact { h with
      one := by dsimp only [Server.next]; omega
      binding := fun _ => hdue
      closed := nofun }
  | bound =>
    unfold Server.next; dsimp only
    split_ifs with hb
    · exact {
        h with
        one := by dsimp only; omega
        listening := fun _ => rfl
        binding := fun hb' => absurd hb' (by dsimp only; omega)
        closed := fun hc => absurd (h.closed hc).2 (by omega) }
    · exact h
  | bindFails =>
    exact {
      h with
      one := by dsimp only [Server.next]; omega
      binding := fun hb => absurd hb (by dsimp only [Server.next]; omega)
      closed := fun hc => (h.closed hc).imp_right fun _ => by dsimp only [Server.next]; omega }
  | accept c =>
    unfold Server.next; dsimp only
    split_ifs with ha
    · exact { h with closed := fun hc => absurd (h.closed hc).2 (by omega) }
    · exact h
  | acceptFails =>
    exact {
      h with
      one := by dsimp only [Server.next]; omega
      listening := fun ha => absurd ha (by dsimp only [Server.next]; omega)
      closed := fun hc => (h.closed hc).imp_right fun _ => by dsimp only [Server.next]; omega }
  | leave =>
    unfold Server.next; dsimp only
    split_ifs with ha
    · exact Closing.emitCloseIfReady {
        h with
        one := by dsimp only; omega
        listening := fun ha' => absurd ha' (by dsimp only; omega)
        closed := fun hc => absurd (h.closed hc).2 (by omega) }
    · exact h
  | close =>
    refine Closing.emitCloseIfReady
      { h with binding := fun hb => absurd hb ?_, calls := fun _ => Nat.succ_pos _ }
    exact Nat.not_lt.mpr (Nat.le_of_eq ho)
  | request | complete =>
    unfold Server.next; dsimp only
    split_ifs
    exacts [{ h with }, h]
  | disconnect c => exact h.finish
  | idleTimeout c =>
    unfold Server.next; dsimp only
    split_ifs
    exacts [h, h.finish]
  | closeAllConnections | closeIdleConnections => exact { h with }
  | wake c =>
    unfold Server.next; dsimp only
    split_ifs
    exacts [h.finish, h.finish, { h with }]

/-- **The event `close`** comes as it should in a run whose calls are ordered. -/
theorem close_sound (es : List ServerEvent) (h : Each next Ordered {} es) :
    (es.foldl next {}).Quiet :=
  Closing.quiet (Each.invariant (fun _ _ h => h.next) (by constructor <;> simp) h)

theorem close_sound_once :
    ([.listen, .bound, .accept 0, .close, .leave, .disconnect 0].foldl next {}).Quiet :=
  close_sound _ (by simp [Each, Ordered, next])

/-- `close` while a task binds is followed by its event at once, and then by a connection; with two
tasks the event comes while one of them accepts connections. -/
theorem close_too_early :
    let s := [.listen, .close, .bound, .accept 0].foldl next {}
    let t := [.listen, .bound, .listen, .bound, .close, .leave].foldl next {}
    (s.closed = true ∧ s.connections = {0}) ∧ t.early = true := by
  decide

end Server

end RasterRuntime.Http
