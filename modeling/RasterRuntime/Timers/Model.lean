import Mathlib.Data.List.Sort
import RasterRuntime.Transition

/-! # Timers

`setTimeout`, `setInterval` and `setImmediate` append an entry to a list of timers. `poll_timers`
goes through the list, moves what is due into a vector of its caller, and then runs the callbacks of
the vector one after the other. A callback may set and clear timers and, by loading a module, start
another poll inside. A callback that throws ends the poll: a caller that keeps its vector finds the
rest of it there at its next poll, if there is one before it drops the vector.

A run is a list of events in the order in which they happen: calls from any code, and the stages of
polls. An entry's callback is named by the timer that it was set with. Times are nanoseconds. What
only decides when the next poll comes (references, the sleep of the loop) is left out: a poll may
start at any time. -/

namespace RasterRuntime.Timers

/-- An entry of the list of timers. -/
structure Timeout where
  id : ℕ
  hookId : ℕ
  callback : Option ℕ
  deadline : ℤ
  repeating : Bool
  interval : ℕ
  pendingDestroy : Bool
  deriving DecidableEq, Repr

/-- A callback that is due. -/
structure ExecutingTimer where
  deadline : ℤ
  callback : ℕ
  hookId : ℕ
  deriving DecidableEq, Repr

/-- A poll that has begun: its vector, and the hook id of its callback that is running. -/
structure Frame where
  vec : ℕ
  executing : Option ℕ
  deriving DecidableEq, Repr

/-- What is seen from outside. -/
inductive Obs
  | invoked (callback : ℕ)
  | cleared (id : ℕ)
  deriving DecidableEq, Repr

/-- The state of the timers of a runtime; the innermost poll first. -/
structure State where
  timers : List Timeout
  nextId : ℕ
  nextHook : ℕ
  executingHookId : ℕ
  callVec : ℕ → List ExecutingTimer
  frames : List Frame
  log : List Obs

inductive ProviderType
  | immediate
  | timeout
  | interval
  deriving DecidableEq, Repr

/-- An unstable sort by deadline: it gives some sorted arrangement. -/
structure UnstableSort where
  sort : List ExecutingTimer → List ExecutingTimer
  perm : ∀ l, (sort l).Perm l
  sorted : ∀ l, (sort l).Pairwise fun a b => a.deadline ≤ b.deadline

def millis (n : ℕ) : ℤ := n * 1000000

/-- The state before any timer is set. -/
def State.init : State where
  timers := []
  nextId := 0
  nextHook := 2
  executingHookId := 0
  callVec := fun _ => []
  frames := []
  log := []

/-! ### Setting and clearing -/

def deadlineOf (provider : ProviderType) (delay : ℕ) (now : ℤ) : ℤ :=
  match provider with
  | .immediate => now - millis 600000
  | .timeout => now + millis delay
  | .interval => now + millis delay

def State.setTimeoutInterval (s : State) (provider : ProviderType) (delay : ℕ) (now : ℤ) : State :=
  { s with
    timers := s.timers ++
      [{ id := s.nextId
         hookId := s.nextHook
         callback := some s.nextId
         deadline := deadlineOf provider delay now
         repeating := provider = .interval
         interval := delay
         pendingDestroy := false }]
    nextId := s.nextId + 1
    nextHook := s.nextHook + 1 }

/-- The first entry with the id is changed. -/
def updateFirst (id : ℕ) (f : Timeout → Timeout) : List Timeout → List Timeout
  | [] => []
  | t :: ts => if t.id = id then f t :: ts else t :: updateFirst id f ts

/-- A cleared entry; inside its own callback the end of the resource is left to the poll. -/
def Timeout.clear (t : Timeout) (executingHookId : ℕ) (now : ℤ) : Timeout :=
  { t with
    callback := none
    repeating := false
    deadline := now - millis 1000
    pendingDestroy := t.pendingDestroy || (executingHookId = t.hookId && t.hookId ≠ 0) }

def State.clearTimeoutInterval (s : State) (id : ℕ) (now : ℤ) : State :=
  { s with
    timers := updateFirst id (·.clear s.executingHookId now) s.timers
    log := s.log ++ [.cleared id] }

/-! ### Polls -/

/-- What stays of an entry when the list is gone through. -/
def Timeout.remaining (now : ℤ) (t : Timeout) : Option Timeout :=
  if t.deadline < now then
    match t.callback with
    | some _ => if t.repeating then some { t with deadline := now + millis t.interval } else none
    | none => none
  else some t

/-- What of an entry is due. -/
def Timeout.due (now : ℤ) (t : Timeout) : Option ExecutingTimer :=
  if t.deadline < now then
    t.callback.map fun cb =>
      { deadline := if t.repeating then now + millis t.interval else t.deadline
        callback := cb
        hookId := t.hookId }
  else none

def setVec (callVec : ℕ → List ExecutingTimer) (v : ℕ) (es : List ExecutingTimer) :
    ℕ → List ExecutingTimer :=
  fun u => if u = v then es else callVec u

/-- The first half of a poll. -/
def State.collect (sort : UnstableSort) (s : State) (v : ℕ) (now : ℤ) : State :=
  { s with
    timers := s.timers.filterMap (Timeout.remaining now)
    callVec := setVec s.callVec v (sort.sort (s.callVec v ++ s.timers.filterMap (Timeout.due now)))
    frames := ⟨v, none⟩ :: s.frames }

/-- The entry of a resource whose callback has returned is dropped if it was cleared meanwhile. -/
def destroy (hookId : ℕ) (timers : List Timeout) : List Timeout :=
  if (timers.find? (·.hookId = hookId)).all (·.pendingDestroy) then
    timers.filter (·.hookId ≠ hookId)
  else timers

/-- What may happen next. -/
inductive Event
  /-- A timer is set. -/
  | set (provider : ProviderType) (delay : ℕ) (now : ℤ)
  /-- A timer is cleared. -/
  | clear (id : ℕ) (now : ℤ)
  /-- Other runtimes and other resources take ids from the counters. -/
  | take (ids hooks : ℕ)
  /-- A caller with vector `v` starts a poll. -/
  | poll (v : ℕ) (now : ℤ)
  /-- The innermost poll takes its next entry and invokes the callback. -/
  | fire
  /-- The callback returns. -/
  | ret
  /-- The callback throws, and the caller keeps its vector or not. -/
  | throw (keep : Bool)
  /-- The hook before the callback throws. -/
  | hookThrow (keep : Bool)
  /-- The vector is empty and the poll ends. -/
  | done
  /-- A caller between its polls drops its vector. -/
  | drop (v : ℕ)
  deriving DecidableEq, Repr

/-- The vector of a poll that is left by an error. -/
def State.leave (s : State) (v : ℕ) (keep : Bool) : ℕ → List ExecutingTimer :=
  if keep then s.callVec else setVec s.callVec v []

/-- One event. -/
def step (sort : UnstableSort) (s : State) : Event → Option State
  | .set provider delay now => some (s.setTimeoutInterval provider delay now)
  | .clear id now => some (s.clearTimeoutInterval id now)
  | .take ids hooks => some { s with nextId := s.nextId + ids, nextHook := s.nextHook + hooks }
  | .poll v now => if v ∈ s.frames.map Frame.vec then none else some (s.collect sort v now)
  | .fire =>
    match s.frames with
    | ⟨v, none⟩ :: frames =>
      match s.callVec v with
      | e :: es =>
        some { s with
          callVec := setVec s.callVec v es
          executingHookId := e.hookId
          frames := ⟨v, some e.hookId⟩ :: frames
          log := s.log ++ [.invoked e.callback] }
      | [] => none
    | _ => none
  | .ret =>
    match s.frames with
    | ⟨v, some hookId⟩ :: frames =>
      some { s with
        timers := destroy hookId s.timers
        executingHookId := 0
        frames := ⟨v, none⟩ :: frames }
    | _ => none
  | .throw keep =>
    match s.frames with
    | ⟨v, some _⟩ :: frames =>
      some { s with callVec := s.leave v keep, executingHookId := 0, frames := frames }
    | _ => none
  | .hookThrow keep =>
    match s.frames with
    | ⟨v, none⟩ :: frames =>
      match s.callVec v with
      | _ :: es =>
        let s := { s with callVec := setVec s.callVec v es }
        some { s with callVec := s.leave v keep, executingHookId := 0, frames := frames }
      | [] => none
    | _ => none
  | .done =>
    match s.frames with
    | ⟨v, none⟩ :: frames => if s.callVec v = [] then some { s with frames := frames } else none
    | _ => none
  | .drop v =>
    if v ∈ s.frames.map Frame.vec then none else some { s with callVec := setVec s.callVec v [] }

/-- The states of a runtime. -/
def Reachable (sort : UnstableSort) (s : State) : Prop :=
  Transition.Reaches (step sort) State.init s

end RasterRuntime.Timers
