import RasterRuntime.Timers.References

/-! # The timer loop

A runtime with timers has a task that sleeps until the first deadline and then polls. It is spawned
when a timer is set and no such task is marked as running, ends when a poll finds nothing to keep it
for, and is woken early by a notification. Other code polls too: `require` while it waits for an
import, and a server while it waits for a response. A poll of any of them moves the mark `running`
and the recorded deadline.

The event loop counts what holds it: timers and other handles that are referenced. When nothing does
any more, and when a request begins or ends, the drivers of the runtime are woken. The timer loop
waits for that too: it is a second notification.

The polls are those of `Timers.Model`; here each event also says what becomes of the task. Vectors
with odd numbers belong to timer loops. Of those with even numbers every other one belongs to the
pump of a server, which keeps its vector when a callback throws and drops it when the request is
answered; the others belong to `require`, which drops its vector when a callback throws. -/

namespace RasterRuntime.Timers

open Transition

/-- A task that polls: its number, and the deadline that its sleep is set to. -/
structure Sleeper where
  task : ℕ
  sleep : ℤ
  deriving DecidableEq, Repr

/-- The vector of a task. -/
def Sleeper.vec (l : Sleeper) : ℕ := 2 * l.task + 1

/-- The state of the timers of a runtime and of the tasks that poll them. -/
structure RuntimeTimerState where
  base : State
  /-- The flag that a timer shares with its handle, by id. -/
  referenced : ℕ → Bool
  /-- The other handles that are referenced. -/
  handles : ℕ
  /-- The count of the event loop: the flags that are set and the other handles. -/
  refs : ℕ
  httpInflight : ℕ
  clock : ℤ
  running : Bool
  deadline : ℤ
  /-- A notification is pending. -/
  notified : Bool
  /-- The notification of the drivers has been registered. -/
  registered : Bool
  /-- The notification of the drivers is pending. -/
  driverWake : Bool
  loops : List Sleeper
  nextLoop : ℕ
  /-- For each open poll, whether it has left any timer in the list. -/
  hasItems : List Bool

def minSleep : ℤ := millis 4

def farFuture : ℤ := millis (84200 * 365 * 30 * 1000)

/-- The vector belongs to a timer loop. -/
def isLoop (v : ℕ) : Bool := v % 2 = 1

/-- The vector belongs to the pump of a server. -/
def isPump (v : ℕ) : Bool := v % 4 = 0

theorem isLoop_of_isPump {v : ℕ} (h : isPump v) : isLoop v = false := by
  unfold isPump isLoop at *
  rw [decide_eq_true_eq] at h
  rw [decide_eq_false_iff_not]
  omega

theorem isLoop_vec (l : Sleeper) : isLoop l.vec := by
  unfold isLoop Sleeper.vec
  rw [decide_eq_true_eq]
  omega

namespace RuntimeTimerState

def new (now : ℤ) : RuntimeTimerState where
  base := State.init
  referenced := fun _ => false
  handles := 0
  refs := 0
  httpInflight := 0
  clock := now
  running := false
  deadline := now + millis (86400 * 365 * 30 * 1000)
  notified := false
  registered := false
  driverWake := false
  loops := []
  nextLoop := 0
  hasItems := []

/-! ### References -/

def wakeNativeDrivers (s : RuntimeTimerState) : RuntimeTimerState :=
  { s with driverWake := s.driverWake || s.registered }

def decrementRef (s : RuntimeTimerState) : RuntimeTimerState :=
  let s' := { s with refs := s.refs - 1 }
  if s.refs = 1 then s'.wakeNativeDrivers else s'

def reference (s : RuntimeTimerState) (id : ℕ) : RuntimeTimerState :=
  if s.referenced id then s
  else { s with referenced := Function.update s.referenced id true, refs := s.refs + 1 }

def unreference (s : RuntimeTimerState) (id : ℕ) : RuntimeTimerState :=
  if s.referenced id then
    { s with referenced := Function.update s.referenced id false }.decrementRef
  else s

def adjustHttpInflight (s : RuntimeTimerState) (inflight : ℕ) : RuntimeTimerState :=
  { s with httpInflight := inflight }.wakeNativeDrivers

/-! ### Timers -/

def shouldKeepTimerLoop (s : RuntimeTimerState) : Bool :=
  s.base.timers.any (·.callback.isSome) && (0 < s.httpInflight || 0 < s.refs ||
    s.base.timers.any fun t => t.callback.isSome && s.referenced t.id)

def createSpawnLoop (s : RuntimeTimerState) (deadline : ℤ) : RuntimeTimerState :=
  { s with
    running := true
    registered := true
    loops := s.loops ++ [⟨s.nextLoop, deadline⟩]
    nextLoop := s.nextLoop + 1 }

/-- The new timer is in the list. -/
def push (s : RuntimeTimerState) (provider : ProviderType) (delay : ℕ) (referenced : Bool)
    (now : ℤ) : RuntimeTimerState :=
  { s with
    base := s.base.setTimeoutInterval provider delay now
    referenced := Function.update s.referenced s.base.nextId referenced
    refs := if referenced then s.refs + 1 else s.refs
    clock := now }

def setTimeoutInterval (s : RuntimeTimerState) (provider : ProviderType) (delay : ℕ)
    (referenced : Bool) (now : ℤ) : RuntimeTimerState :=
  let deadline := deadlineOf provider delay now
  let s := s.push provider delay referenced now
  if s.running then
    if deadline < s.deadline then { s with deadline := deadline, notified := true } else s
  else if s.shouldKeepTimerLoop then s.createSpawnLoop deadline
  else s

def clearTimeoutInterval (s : RuntimeTimerState) (id : ℕ) (now : ℤ) : RuntimeTimerState :=
  let s' := { s with base := s.base.clearTimeoutInterval id now, clock := now }
  if s.base.timers.any (·.id = id) then { s'.unreference id with notified := true } else s'

/-- The flag is shared, so only the notification is left to do. -/
def setTimerReferenced (s : RuntimeTimerState) (id : ℕ) (referenced : Bool) : RuntimeTimerState :=
  if s.base.timers.any (·.id = id) then { s with notified := s.notified || !referenced } else s

/-- `ref` and `unref` of the handle of a timer. -/
def handleRef (s : RuntimeTimerState) (id : ℕ) : RuntimeTimerState :=
  (s.reference id).setTimerReferenced id true

@[inherit_doc handleRef]
def handleUnref (s : RuntimeTimerState) (id : ℕ) : RuntimeTimerState :=
  (s.unreference id).setTimerReferenced id false

/-- The handle of a timer is collected; the flag ends with it if the timer is gone too. -/
def collectHandle (s : RuntimeTimerState) (id : ℕ) : RuntimeTimerState :=
  if s.base.timers.any (·.id = id) then s else s.unreference id

def resumeTimerLoopIfIdle (s : RuntimeTimerState) : RuntimeTimerState :=
  if s.running then s
  else if s.shouldKeepTimerLoop then s.createSpawnLoop s.deadline
  else s

/-! ### Polls -/

/-- The first deadline of what stays in the list. -/
def lowest (now : ℤ) (timers : List Timeout) : ℤ :=
  timers.foldl (fun lowest t => if t.deadline < lowest then t.deadline else lowest)
    (now + farFuture)

/-- What a sleep is set to. -/
def sleepUntil (now : ℤ) (timers : List Timeout) : ℤ :=
  if lowest now timers - now < minSleep then now + minSleep else lowest now timers

def resetSleep (v : ℕ) (sleep : ℤ) (l : Sleeper) : Sleeper :=
  if l.vec = v then { l with sleep := sleep } else l

/-- What a poll with the vector `v` records after it has gone through the list. Timers that fire for
the last time take their flags back. -/
def record (s : RuntimeTimerState) (v : ℕ) (now : ℤ) (base : State) : RuntimeTimerState :=
  let sleep := sleepUntil now base.timers
  { (s.base.released (.poll v now)).foldl unreference s with
    base := base
    clock := now
    deadline := if s.base.timers = [] then s.deadline else sleep
    loops := if s.base.timers = [] then s.loops else s.loops.map (resetSleep v sleep)
    hasItems := (base.timers ≠ []) :: s.hasItems }

/-- The task of the vector `v` ends. -/
def endLoop (s : RuntimeTimerState) (v : ℕ) : RuntimeTimerState :=
  { s with loops := s.loops.filter (·.vec ≠ v) }

/-- The end of a poll with the vector `v`. A task whose poll finds nothing to stay for ends. -/
def settle (s : RuntimeTimerState) (v : ℕ) (hasItems : Bool) : RuntimeTimerState :=
  if s.shouldKeepTimerLoop && hasItems then { s with running := true }
  else { (if isLoop v then s.endLoop v else s) with running := false }

def finish (sort : UnstableSort) (s : RuntimeTimerState) (v : ℕ) : Option RuntimeTimerState :=
  match s.hasItems with
  | has :: rest =>
    (Timers.step sort s.base .done).map fun base =>
      ({ s with base := base, hasItems := rest }).settle v has
  | [] => none

/-- A poll starts. If nothing is due it ends at once. -/
def pollTimers (sort : UnstableSort) (s : RuntimeTimerState) (v : ℕ) (now : ℤ) :
    Option RuntimeTimerState :=
  (Timers.step sort s.base (.poll v now)).bind fun base =>
    let s := s.record v now base
    if base.callVec v = [] then s.finish sort v else some s

/-- The vector of the innermost poll. -/
def innermost (s : RuntimeTimerState) : Option ℕ := s.base.frames.head?.map Frame.vec

/-- An error leaves the innermost poll: the pump of a server keeps its vector, and the task of a
timer loop ends. -/
def leave (sort : UnstableSort) (s : RuntimeTimerState) (error : Bool → Timers.Event) :
    Option RuntimeTimerState :=
  s.innermost.bind fun v =>
    (Timers.step sort s.base (error (isPump v))).map fun base =>
      let s := { s with base := base, hasItems := s.hasItems.tail }
      if isLoop v then s.endLoop v else s

/-- Why a timer loop wakes up. -/
inductive Cause
  | notice
  | drivers
  | sleep
  deriving DecidableEq, Repr

/-- A notification that wakes a task is gone. -/
def consume (s : RuntimeTimerState) (cause : Cause) : RuntimeTimerState :=
  { s with
    notified := s.notified && cause ≠ .notice
    driverWake := s.driverWake && cause ≠ .drivers }

/-- What may happen next. -/
inductive Event
  /-- A timer is set. -/
  | set (provider : ProviderType) (delay : ℕ) (referenced : Bool) (now : ℤ)
  /-- A timer is cleared. -/
  | clear (id : ℕ) (now : ℤ)
  | ref (id : ℕ)
  | unref (id : ℕ)
  /-- The handle of a timer is collected. -/
  | collect (id : ℕ)
  /-- Some other handle begins to hold the event loop. -/
  | hold
  /-- It ceases to hold the event loop. -/
  | release
  /-- A request begins or ends. -/
  | http (begins : Bool)
  /-- An addon registers the notification of the drivers. -/
  | register
  /-- An addon or a signal wakes the drivers. -/
  | signal
  /-- Other runtimes and other resources take ids from the counters. -/
  | take (ids hooks : ℕ)
  /-- Some code asks for a timer loop. -/
  | resume
  /-- A timer loop wakes up and polls. -/
  | wake (v : ℕ) (cause : Cause) (now : ℤ)
  /-- Other code polls. -/
  | poll (v : ℕ) (now : ℤ)
  /-- The innermost poll takes its next entry and invokes the callback. -/
  | fire
  /-- The callback returns. -/
  | ret
  /-- The callback throws. -/
  | throw
  /-- The hook before the callback throws. -/
  | hookThrow
  /-- The vector is empty and the poll ends. -/
  | done
  /-- A server has its response, and its pump ends. -/
  | drop (v : ℕ)
  deriving DecidableEq, Repr

/-- One event. The clock does not go back. -/
def step (sort : UnstableSort) (s : RuntimeTimerState) : Event → Option RuntimeTimerState
  | .set provider delay referenced now =>
    if now < s.clock then none else some (s.setTimeoutInterval provider delay referenced now)
  | .clear id now => if now < s.clock then none else some (s.clearTimeoutInterval id now)
  | .ref id => if id < s.base.nextId then some (s.handleRef id) else none
  | .unref id => if id < s.base.nextId then some (s.handleUnref id) else none
  | .collect id => some (s.collectHandle id)
  | .hold => some { s with handles := s.handles + 1, refs := s.refs + 1 }
  | .release =>
    if s.handles = 0 then none else some { s with handles := s.handles - 1 }.decrementRef
  | .http true => some (s.adjustHttpInflight (s.httpInflight + 1))
  | .http false =>
    if s.httpInflight = 0 then none else some (s.adjustHttpInflight (s.httpInflight - 1))
  | .register => some { s with registered := true }
  | .signal => some s.wakeNativeDrivers
  | .take ids hooks =>
    (Timers.step sort s.base (.take ids hooks)).map fun base => { s with base := base }
  | .resume => some s.resumeTimerLoopIfIdle
  | .wake v cause now =>
    if now < s.clock ∨ v ∉ s.loops.map Sleeper.vec then none
    else (s.consume cause).pollTimers sort v now
  | .poll v now => if now < s.clock ∨ isLoop v then none else s.pollTimers sort v now
  | .fire => (Timers.step sort s.base .fire).map fun base => { s with base := base }
  | .ret => (Timers.step sort s.base .ret).map fun base => { s with base := base }
  | .throw => s.leave sort .throw
  | .hookThrow => s.leave sort .hookThrow
  | .done => s.innermost.bind (s.finish sort)
  | .drop v =>
    if isPump v then (Timers.step sort s.base (.drop v)).map fun base => { s with base := base }
    else none

end RuntimeTimerState

end RasterRuntime.Timers
