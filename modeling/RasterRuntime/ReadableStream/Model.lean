import RasterRuntime.Streams.Queue
import RasterRuntime.Transition

/-! # Default readable streams

A stream with its default controller and the default readers that were acquired on it, one after the
other. Readers and the promises that `read()` returns are numbered in the order in which they are
made; `issued` has each promise with the reader it was asked of, `settled` what the promises were
settled with, in order.

A run is a list of events: calls that the program makes, and callbacks of the program that end. The
program's `pull` and `cancel` functions run inside the calls that invoke them; what they do comes as
further events, since nothing that the rest of such a call does depends on it. A call of `enqueue`
is cut in two, because what comes after the strategy's `size` function does depend on it: `sizing`
has the calls whose `size` function is running, innermost first, each with the chunk and the reader
that the call found when it began. A stream whose body is native has a `native_pull`, which `read()`
uses in place of the controller while nothing is queued and no pull is running; what it gives is
part of the event.

`Object.prototype.then` is taken to be untouched, so that to settle a promise runs no program. -/

namespace RasterRuntime.ReadableStream

open Streams

/-- The state of a stream. -/
inductive Phase (V : Type)
  | readable
  | closed
  | errored (e : Reason V)
  deriving Repr

instance {V : Type} (phase : Phase V) : Decidable (phase = .readable) :=
  match phase with
  | .readable => isTrue rfl
  | .closed => isFalse (fun h => nomatch h)
  | .errored _ => isFalse (fun h => nomatch h)

/-- What a promise of a read is settled with. -/
inductive Outcome (V : Type)
  | chunk (v : V)
  | done
  | rejected (e : Reason V)
  deriving DecidableEq, Repr

/-- A stream and its readers. -/
structure Stream (V : Type) where
  phase : Phase V
  reader : Option ℕ
  requests : ℕ → List ℕ
  nativeReads : List ℕ
  nextReader : ℕ
  nextPromise : ℕ
  issued : List (ℕ × ℕ)
  settled : List (ℕ × Outcome V)

/-- A default controller; `startPromise` and `pullPromise` say whether the promise of the start or
the pull algorithm is still to settle. -/
structure Controller (V F : Type) where
  container : QueueWithSizes V F
  strategyHwm : F
  startPromise : Bool
  pullPromise : Bool
  started : Bool
  closeRequested : Bool
  pullAgain : Bool
  pulling : Bool
  nativePull : Bool
  sizing : List (V × Option ℕ)

structure State (V F : Type) where
  stream : Stream V
  controller : Controller V F

variable {V F : Type}

/-! ### Streams and readers -/

namespace Stream

/-- The read requests of the reader that a call works with. -/
def requestsOf (s : Stream V) (reader : Option ℕ) : List ℕ :=
  match reader with
  | none => []
  | some r => s.requests r

def setRequests (s : Stream V) (r : ℕ) (ps : List ℕ) : Stream V :=
  { s with requests := Function.update s.requests r ps }

def clearRequests (s : Stream V) (reader : Option ℕ) : Stream V :=
  match reader with
  | none => s
  | some r => s.setRequests r []

def settle (s : Stream V) (ps : List ℕ) (o : Outcome V) : Stream V :=
  { s with settled := s.settled ++ ps.map fun p => (p, o) }

/-- A read that returns its promise; the promise is `nextPromise`. -/
def issue (s : Stream V) (r : ℕ) : Stream V :=
  { s with issued := s.issued ++ [(s.nextPromise, r)], nextPromise := s.nextPromise + 1 }

/-- A read whose promise is settled at once. -/
def answer (s : Stream V) (r : ℕ) (o : Outcome V) : Stream V :=
  (s.issue r).settle [s.nextPromise] o

def readableStreamAddReadRequest (s : Stream V) (r : ℕ) : Stream V :=
  (s.issue r).setRequests r (s.requests r ++ [s.nextPromise])

/-- The stream leaves the readable state: the requests of the reader are settled. -/
def shut (s : Stream V) (phase : Phase V) (o : Outcome V) (reader : Option ℕ) : Stream V :=
  (({ s with phase := phase }).settle (s.requestsOf reader) o).clearRequests reader

def readableStreamClose (s : Stream V) (reader : Option ℕ) : Stream V :=
  s.shut .closed .done reader

def readableStreamError (s : Stream V) (reader : Option ℕ) (e : Reason V) : Stream V :=
  s.shut (.errored e) (.rejected e) reader

def readableStreamFulfillReadRequest (s : Stream V) (r : ℕ) (v : V) : Stream V :=
  match s.requests r with
  | [] => s
  | p :: ps => (s.setRequests r ps).settle [p] (.chunk v)

def readableStreamDefaultReaderErrorReadRequests (s : Stream V) (r : ℕ) (e : Reason V) : Stream V :=
  (s.settle (s.requests r) (.rejected e)).setRequests r []

/-- The requests are cleared before the reader is detached, and what is left of them is rejected. -/
def readableStreamDefaultReaderRelease (s : Stream V) (r : ℕ) : Stream V :=
  readableStreamDefaultReaderErrorReadRequests { s.setRequests r [] with reader := none } r
    (.typeError "Reader was released")

def getReader (s : Stream V) : Stream V :=
  match s.reader with
  | some _ => s
  | none => { s with reader := some s.nextReader, nextReader := s.nextReader + 1 }

end Stream

/-! ### The controller -/

namespace State

variable [Binary64 F]

def canCloseOrEnqueue (s : State V F) : Bool :=
  s.stream.phase = .readable && !s.controller.closeRequested

def desiredSizePositive (s : State V F) : Bool :=
  Binary64.lt Binary64.zero
    (Binary64.sub s.controller.strategyHwm s.controller.container.queueTotalSize)

def shouldCallPull (s : State V F) (reader : Option ℕ) : Bool :=
  s.canCloseOrEnqueue && s.controller.started &&
    (!(s.stream.requestsOf reader).isEmpty || s.desiredSizePositive)

def callPullIfNeeded (s : State V F) (reader : Option ℕ) : State V F :=
  if s.shouldCallPull reader then
    if s.controller.pulling then
      { s with controller := { s.controller with pullAgain := true } }
    else { s with controller := { s.controller with pulling := true, pullPromise := true } }
  else s

/-- Of the algorithms that are cleared, the native pull is the one that is looked for later. -/
def clearAlgorithms (s : State V F) : State V F :=
  { s with controller := { s.controller with nativePull := false } }

def resetQueue (s : State V F) : State V F :=
  { s with controller := { s.controller with container := .empty } }

def defaultControllerError (s : State V F) (reader : Option ℕ) (e : Reason V) : State V F :=
  if s.stream.phase = .readable then
    { s.resetQueue.clearAlgorithms with stream := s.stream.readableStreamError reader e }
  else s

def defaultControllerClose (s : State V F) (reader : Option ℕ) : State V F :=
  if s.canCloseOrEnqueue then
    let s := { s with controller := { s.controller with closeRequested := true } }
    if s.controller.container.queue.isEmpty then
      { s.clearAlgorithms with stream := s.stream.readableStreamClose reader }
    else s
  else s

/-- A call of `enqueue`, up to the call of the `size` function if there is one. -/
def defaultControllerEnqueue (s : State V F) (v : V) : State V F :=
  if s.canCloseOrEnqueue then
    match s.stream.reader with
    | some r =>
      if s.stream.requests r = [] then
        { s with controller := { s.controller with sizing := (v, some r) :: s.controller.sizing } }
      else
        { s with stream := s.stream.readableStreamFulfillReadRequest r v }.callPullIfNeeded (some r)
    | none =>
      { s with controller := { s.controller with sizing := (v, none) :: s.controller.sizing } }
  else s

/-- What a `size` function does: it throws, or returns a number or something that is none. -/
inductive SizeResult (V F : Type)
  | threw (e : V)
  | returned (size : Option F)
  deriving DecidableEq, Repr

/-- The queue with the chunk, or what the call of `enqueue` throws. -/
def SizeResult.queued (res : SizeResult V F) (q : QueueWithSizes V F) (v : V) :
    Except (Reason V) (QueueWithSizes V F) :=
  match res with
  | .threw e => .error (.value e)
  | .returned size => q.enqueueValueWithSize v size

/-- The rest of a call of `enqueue`: it goes on with the reader that it found when it began. -/
def sizeReturns (s : State V F) (res : SizeResult V F) : State V F :=
  match s.controller.sizing with
  | [] => s
  | (v, reader) :: rest =>
    let s := { s with controller := { s.controller with sizing := rest } }
    match res.queued s.controller.container v with
    | .error e => s.defaultControllerError reader e
    | .ok q => { s with controller := { s.controller with container := q } }.callPullIfNeeded reader

def startSettles (s : State V F) (res : Except V Unit) : State V F :=
  if s.controller.startPromise then
    let s := { s with controller := { s.controller with startPromise := false } }
    match res with
    | .ok _ =>
      { s with controller := { s.controller with started := true } }.callPullIfNeeded
        s.stream.reader
    | .error e => s.defaultControllerError s.stream.reader (.value e)
  else s

def pullSettles (s : State V F) (res : Except V Unit) : State V F :=
  if s.controller.pullPromise then
    let s := { s with controller := { s.controller with pullPromise := false } }
    match res with
    | .ok _ =>
      let s := { s with controller := { s.controller with pulling := false } }
      if s.controller.pullAgain then
        { s with controller := { s.controller with pullAgain := false } }.callPullIfNeeded
          s.stream.reader
      else s
    | .error e => s.defaultControllerError s.stream.reader (.value e)
  else s

/-! ### Reads and cancellation -/

def pullSteps (s : State V F) (r : ℕ) : State V F :=
  match s.controller.container.dequeueValue with
  | some (v, q) =>
    let s := { s with controller := { s.controller with container := q } }
    let s :=
      if s.controller.closeRequested && q.queue.isEmpty then
        { s.clearAlgorithms with stream := s.stream.readableStreamClose (some r) }
      else s.callPullIfNeeded (some r)
    { s with stream := s.stream.answer r (.chunk v) }
  | none =>
    { s with stream := s.stream.readableStreamAddReadRequest r }.callPullIfNeeded (some r)

def readDefault (s : State V F) (r : ℕ) : State V F :=
  match s.stream.phase with
  | .closed => { s with stream := s.stream.answer r .done }
  | .errored e => { s with stream := s.stream.answer r (.rejected e) }
  | .readable => s.pullSteps r

/-- What a `native_pull` gives. -/
inductive NativePullResult (V : Type)
  | ready (chunk : V)
  | eof
  | pending
  | threw (e : V)
  deriving DecidableEq, Repr

def tryGetNativePull (s : State V F) : Bool :=
  s.stream.phase = .readable && s.controller.container.queue.isEmpty && !s.controller.pulling &&
    s.controller.nativePull

/-- A read by the native pull; one that throws returns no promise. -/
def readNative (s : State V F) (r : ℕ) (res : NativePullResult V) : State V F :=
  match res with
  | .ready v => { s with stream := s.stream.answer r (.chunk v) }
  | .eof => { s with stream := s.stream.answer r .done }
  | .pending =>
    { s with stream :=
      { s.stream.issue r with nativeReads := s.stream.nativeReads ++ [s.stream.nextPromise] } }
  | .threw _ => s

def releasedMessage : String := "Cannot read from a stream using a released reader"

def read (s : State V F) (r : ℕ) (native : NativePullResult V) : State V F :=
  if s.stream.nextReader ≤ r then s
  else if s.stream.reader = some r then
    if s.tryGetNativePull then s.readNative r native else s.readDefault r
  else { s with stream := s.stream.answer r (.rejected (.typeError releasedMessage)) }

/-- The future of a native read is done: with a chunk, at the end of the body, or with an error. -/
def nativeSettles (s : State V F) (p : ℕ) (res : Except V (Option V)) : State V F :=
  if p ∈ s.stream.nativeReads then
    let o : Outcome V :=
      match res with
      | .ok (some v) => .chunk v
      | .ok none => .done
      | .error e => .rejected (.value e)
    { s with stream :=
      ({ s.stream with nativeReads := s.stream.nativeReads.erase p }).settle [p] o }
  else s

def releaseLock (s : State V F) (r : ℕ) : State V F :=
  if s.stream.reader = some r then
    { s with stream := s.stream.readableStreamDefaultReaderRelease r }
  else s

/-- To cancel with a reader that is released, or a stream that is locked, does nothing. -/
def cancel (s : State V F) (reader : Option ℕ) : State V F :=
  if s.stream.reader = reader ∧ s.stream.phase = .readable then
    { s.resetQueue.clearAlgorithms with stream := s.stream.readableStreamClose reader }
  else s

end State

/-! ### Runs -/

open State in
/-- What can happen to a stream. -/
inductive Event (V F : Type)
  | getReader
  | read (r : ℕ) (native : NativePullResult V)
  | nativeSettles (p : ℕ) (res : Except V (Option V))
  | releaseLock (r : ℕ)
  | cancel (reader : Option ℕ)
  | enqueue (v : V)
  | sizeReturns (res : SizeResult V F)
  | close
  | error (e : V)
  | startSettles (res : Except V Unit)
  | pullSettles (res : Except V Unit)

variable [Binary64 F]

/-- What an event does; one that cannot happen does nothing. -/
def step (s : State V F) : Event V F → State V F
  | .getReader => { s with stream := s.stream.getReader }
  | .read r native => s.read r native
  | .nativeSettles p res => s.nativeSettles p res
  | .releaseLock r => s.releaseLock r
  | .cancel reader => s.cancel reader
  | .enqueue v => s.defaultControllerEnqueue v
  | .sizeReturns res => s.sizeReturns res
  | .close => s.defaultControllerClose s.stream.reader
  | .error e => s.defaultControllerError s.stream.reader (.value e)
  | .startSettles res => s.startSettles res
  | .pullSettles res => s.pullSettles res

/-- A stream that was just constructed. -/
def init (strategyHwm : F) (nativePull : Bool) : State V F where
  stream :=
    { phase := .readable, reader := none, requests := fun _ => [], nativeReads := []
      nextReader := 0, nextPromise := 0, issued := [], settled := [] }
  controller :=
    { container := .empty, strategyHwm, startPromise := true, pullPromise := false
      started := false, closeRequested := false, pullAgain := false, pulling := false
      nativePull, sizing := [] }

end RasterRuntime.ReadableStream
