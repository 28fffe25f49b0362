import Mathlib.Data.Nat.Notation
import Mathlib.Tactic.SplitIfs

/-! # Dispatches that wait for each other

A request is dispatched under the lock `HTTP_JS_ROOT`, which is held until its response is there.
The count `HTTP_DISPATCH_NEST` is meant to let a request through that the handler of another one has
sent, but it belongs to a task, and every request has a task with a count of its own.

* `stuck_iff`: the server is stuck exactly if the handler of the request that has the lock waits for
  a request that is not answered. -/

namespace RasterRuntime.Http

/-- What a handler does: it sends requests to the same server, waits for the response to the `k`-th
request it has sent, and responds in the end. -/
inductive Handler where
  | respond
  | send (request : Handler) (rest : Handler)
  | wait (k : ℕ) (rest : Handler)

inductive Stage where
  | queued
  | running
  | answered
  deriving DecidableEq

/-- A request, of which the body is there: what is left of its handler, the requests that it has
sent, and the count of its task. -/
structure Request where
  stage : Stage := .queued
  handler : Handler
  sent : List ℕ := []
  nest : ℕ := 0

/-- The accepted requests, and the one that has the lock. -/
structure Dispatcher where
  requests : List Request := []
  root : Option ℕ := none

namespace Dispatcher

def push (s : Dispatcher) (handler : Handler) : Dispatcher :=
  { s with requests := s.requests ++ [{ handler := handler }] }

def set (s : Dispatcher) (i : ℕ) (r : Request) : Dispatcher :=
  { s with requests := s.requests.set i r }

def IsAnswered (s : Dispatcher) (i : ℕ) : Prop := ∃ r, s.requests[i]? = some r ∧ r.stage = .answered

/-- The steps of a dispatch: `HttpJsSerialGuard::acquire`, and those of its handler. With the
response the dispatch returns and drops its guard. -/
inductive Step (s : Dispatcher) : Dispatcher → Prop
  | acquire {i : ℕ} {r : Request} (hi : s.requests[i]? = some r) (hr : r.stage = .queued)
      (hroot : r.nest = 0 → s.root = none) :
      Step s { s.set i { r with stage := .running, nest := r.nest + 1 } with
               root := if r.nest = 0 then some i else s.root }
  | send {i : ℕ} {r : Request} {request rest : Handler} (hi : s.requests[i]? = some r)
      (hr : r.stage = .running) (hh : r.handler = .send request rest) :
      Step s
        ((s.set i
          { r with
            handler := rest
            sent := r.sent ++ [s.requests.length] }).push request)
  | wait {i k : ℕ} {r : Request} {rest : Handler} (hi : s.requests[i]? = some r)
      (hr : r.stage = .running) (hh : r.handler = .wait k rest)
      (hk : ∀ j, r.sent[k]? = some j → s.IsAnswered j) : Step s (s.set i { r with handler := rest })
  | respond {i : ℕ} {r : Request} (hi : s.requests[i]? = some r) (hr : r.stage = .running)
      (hh : r.handler = .respond) :
      Step s { s.set i { r with stage := .answered, nest := r.nest - 1 } with
               root := if s.root = some i then none else s.root }

inductive Reachable : Dispatcher → Prop
  | init : Reachable {}
  | accept {s : Dispatcher} (h : Reachable s) (handler : Handler) : Reachable (s.push handler)
  | step {s s' : Dispatcher} (h : Reachable s) (hstep : Step s s') : Reachable s'

/-- Some request is not answered, and no step can be made for any. -/
def Stuck (s : Dispatcher) : Prop := (∃ r ∈ s.requests, r.stage ≠ .answered) ∧ ∀ s', ¬ Step s s'

/-- The handler of the request that has the lock waits for a request that is not answered. -/
def Waits (s : Dispatcher) : Prop :=
  ∃ i r k rest, s.root = some i ∧ s.requests[i]? = some r ∧ r.stage = .running ∧
    r.handler = .wait k rest ∧ ¬ ∀ j, r.sent[k]? = some j → s.IsAnswered j

/-- The lock belongs to the one dispatch that is running, and the count of those before theirs is
zero. -/
structure Sound (s : Dispatcher) : Prop where
  root : ∀ i, s.root = some i ↔ ∃ r, s.requests[i]? = some r ∧ r.stage = .running
  nest : ∀ r ∈ s.requests, r.stage = .queued → r.nest = 0

variable {s s' : Dispatcher} {i : ℕ} {r r' : Request}

theorem Sound.push (h : s.Sound) (handler : Handler) : (s.push handler).Sound where
  root j := by
    refine (h.root j).trans (exists_congr fun r => and_congr_left fun hr => ?_)
    show _ ↔ (s.requests ++ _)[j]? = some r
    rw [List.getElem?_append]
    split_ifs with hj
    · rfl
    · rw [List.getElem?_eq_none (Nat.not_lt.mp hj)]
      refine ⟨nofun, fun heq => ?_⟩
      obtain rfl := List.mem_singleton.mp (List.mem_of_getElem? heq)
      cases hr
  nest := List.forall_mem_append.mpr ⟨h.nest, by simp⟩

theorem Sound.set (h : s.Sound) (hi : s.requests[i]? = some r) (hr : r'.stage ≠ .queued)
    {root : Option ℕ}
    (hroot : ∀ j, root = some j ↔ if i = j then r'.stage = .running else s.root = some j) :
    Sound { s.set i r' with root := root } where
  root j := by
    have hlt := (List.getElem?_eq_some_iff.mp hi).1
    show _ ↔ ∃ x, (s.requests.set i r')[j]? = some x ∧ _
    rw [hroot, h.root, List.getElem?_set]
    split_ifs with hj
    · simp
    · rfl
  nest x hx hq := by
    rcases List.mem_or_eq_of_mem_set hx with hx | rfl
    · exact h.nest x hx hq
    · exact absurd hq hr

theorem Sound.handled (h : s.Sound) (hi : s.requests[i]? = some r) (hr : r.stage = .running)
    (hr' : r'.stage = .running) : (s.set i r').Sound := by
  have hroot := (h.root i).mpr ⟨r, hi, hr⟩
  exact h.set hi (by simp [hr']) fun j => by simp [hroot, hr']

theorem Sound.step (h : s.Sound) (hstep : Step s s') : s'.Sound := by
  cases hstep with
  | acquire hi hr hroot =>
    have hn := h.nest _ (List.mem_of_getElem? hi) hr
    exact h.set hi (by simp) fun j => by simp [hn, hroot hn]
  | send hi hr => exact (h.handled hi hr (by exact hr)).push _
  | wait hi hr => exact h.handled hi hr (by exact hr)
  | respond hi hr =>
    have hroot := (h.root _).mpr ⟨_, hi, hr⟩
    exact h.set hi (by simp) fun j => by simp [hroot]

theorem Reachable.sound (h : Reachable s) : s.Sound := by
  induction h with
  | init => exact ⟨fun i => by simp, nofun⟩
  | accept _ handler ih => exact ih.push handler
  | step _ hstep ih => exact ih.step hstep

theorem Sound.stuck (h : s.Sound) (hw : s.Waits) : s.Stuck := by
  obtain ⟨i, r, k, rest, hroot, hi, hr, hh, hk⟩ := hw
  refine ⟨⟨r, List.mem_of_getElem? hi, by simp [hr]⟩, fun s' hstep => ?_⟩
  have hrunning {i' : ℕ} {x : Request} (hi' : s.requests[i']? = some x) (hx : x.stage = .running) :
      r = x := by
    obtain rfl : i = i' := Option.some.inj (hroot.symm.trans ((h.root i').mpr ⟨x, hi', hx⟩))
    exact Option.some.inj (hi.symm.trans hi')
  cases hstep with
  | acquire hi' hr' hfree =>
    cases hroot.symm.trans (hfree (h.nest _ (List.mem_of_getElem? hi') hr'))
  | send hi' hr' hh' | respond hi' hr' hh' =>
    obtain rfl := hrunning hi' hr'
    cases hh.symm.trans hh'
  | wait hi' hr' hh' hk' =>
    obtain rfl := hrunning hi' hr'
    cases hh.symm.trans hh'
    exact hk hk'

theorem Sound.waits (h : s.Sound) (hs : s.Stuck) : s.Waits := by
  obtain ⟨⟨r, hr, hne⟩, hstuck⟩ := hs
  cases hroot : s.root with
  | none =>
    -- the lock is free, so that a dispatch can begin
    obtain ⟨i, hi⟩ := List.mem_iff_getElem?.mp hr
    cases hst : r.stage with
    | queued => exact absurd (.acquire hi hst fun _ => hroot) (hstuck _)
    | running => cases hroot.symm.trans ((h.root i).mpr ⟨r, hi, hst⟩)
    | answered => exact absurd hst hne
  | some i =>
    obtain ⟨r, hi, hr⟩ := (h.root i).mp hroot
    cases hh : r.handler with
    | respond => exact absurd (.respond hi hr hh) (hstuck _)
    | send => exact absurd (.send hi hr hh) (hstuck _)
    | wait k rest =>
      exact ⟨i, r, k, rest, hroot, hi, hr, hh, fun hk => hstuck _ (.wait hi hr hh hk)⟩

/-- **When the server is stuck.** -/
theorem stuck_iff (h : Reachable s) : s.Stuck ↔ s.Waits := ⟨h.sound.waits, h.sound.stuck⟩

/-- A handler that sends a request to its own server and does not wait for the response. -/
theorem stuck_iff_unawaited : ∃ s, Reachable s ∧ s.requests.length = 2 ∧ ¬ s.Stuck := by
  have h : Reachable _ := .step (.step (.accept .init (.send .respond .respond))
    (.acquire (i := 0) rfl rfl fun _ => rfl)) (.send (i := 0) rfl rfl rfl)
  refine ⟨_, h, rfl, fun hs => ?_⟩
  obtain ⟨i, r, k, rest, hroot, hi, -, hh, -⟩ := (stuck_iff h).mp hs
  cases hroot
  cases hi
  cases hh

/-- A handler that waits for the response to a request to its own server. -/
theorem nested_request_stuck : ∃ s, Reachable s ∧ s.Stuck := by
  have h : Reachable _ := .step (.step (.accept .init (.send .respond (.wait 0 .respond)))
    (.acquire (i := 0) rfl rfl fun _ => rfl)) (.send (i := 0) rfl rfl rfl)
  refine ⟨_, h, h.sound.stuck ⟨0, _, 0, .respond, rfl, rfl, rfl, rfl, fun hk => ?_⟩⟩
  obtain ⟨_, ⟨⟩, ⟨⟩⟩ := hk 1 rfl

end Dispatcher

end RasterRuntime.Http
