import RasterRuntime.Streams.Queue
import RasterRuntime.Transition

/-! # Writable streams

A stream with its controller, its sink and the writers that were acquired on it, one after the
other. Writers and the promises of requests are numbered in the order in which they are made. The
functions that act on a writer get it as an argument, as the source's do: it is the writer that was
there when the call or the callback was set up, and not always the one that is attached to the
stream.

The close request waits in the controller's queue as the value `sentinel`, the symbol that the
source takes from the global registry; a chunk can be any value.

A run is a list of events: calls of the program, and callbacks and promises of the program that come
to an end. The functions of the sink run inside the calls that invoke them; what they do comes as
further events, since nothing that the rest of such a call does depends on it. A call of `write` is
cut in two at the strategy's `size` function and a call of `abort` at the listeners of the abort
signal, because what comes after them does: `sizing` and `signalling` have the calls that wait
there, innermost first. A panic ends the run: nothing happens after it.

`log` has what the sink sees of a run: the chunks that were accepted and the calls of `close`, and
the calls of the sink's functions and how they end. -/

namespace RasterRuntime.WritableStream

open Streams
open Function (update)

/-- The state of a stream. -/
inductive Phase (V : Type)
  | writable
  | closed
  | erroring (e : Reason V)
  | errored (e : Reason V)
  deriving Repr

def Phase.isWritable {V : Type} : Phase V → Bool
  | .writable => true
  | _ => false

structure PendingAbortRequest (V : Type) where
  promise : ℕ
  reason : Option V
  wasAlreadyErroring : Bool
  deriving Repr

/-- What is seen at the sink. -/
inductive Obs (V : Type)
  | written (v : V)
  | closeCalled
  | sinkWrite (v : V)
  | sinkClose
  | sinkAbort (reason : Option V)
  | sinkDone
  | sinkFailed
  deriving DecidableEq, Repr

/-- A writable stream: the stream, its controller, its writers, and what is running. -/
structure State (V F : Type) where
  phase : Phase V
  backpressure : Bool
  closeRequest : Option ℕ
  inFlightWriteRequest : Option ℕ
  inFlightCloseRequest : Option ℕ
  pendingAbortRequest : Option (PendingAbortRequest V)
  writer : Option ℕ
  writeRequests : List ℕ
  container : QueueWithSizes V F
  started : Bool
  strategyHwm : F
  cleared : Bool
  closedPromise : ℕ → PromiseState V
  readyPromise : ℕ → PromiseState V
  nextWriter : ℕ
  nextPromise : ℕ
  settled : List (ℕ × PromiseState V)
  sizing : List (V × ℕ)
  signalling : List (V × Option ℕ)
  startPromise : Bool
  sinkWritePromise : Bool
  sinkClosePromise : Option (Option ℕ)
  sinkAbortPromise : Option ℕ
  log : List (Obs V)
  panicked : Option String

variable {V F : Type}

namespace State

/-! ### Promises -/

/-- A promise of the writer is settled; one that was settled before stays. -/
def settleAt (promises : ℕ → PromiseState V) (writer : Option ℕ) (o : PromiseState V) :
    ℕ → PromiseState V :=
  match writer with
  | none => promises
  | some w => update promises w ((promises w).settle o)

/-- A promise of the writer is settled, or replaced by one that is. -/
def ensureAt (promises : ℕ → PromiseState V) (writer : Option ℕ) (o : PromiseState V) :
    ℕ → PromiseState V :=
  match writer with
  | none => promises
  | some w => update promises w o

/-- What was settled, with the promises of these requests. -/
def settling (s : State V F) (ps : List ℕ) (o : PromiseState V) : List (ℕ × PromiseState V) :=
  s.settled ++ ps.map fun p => (p, o)

def panic (s : State V F) (message : String) : State V F := { s with panicked := some message }

def writableStreamCloseQueuedOrInFlight (s : State V F) : Bool :=
  s.closeRequest.isSome || s.inFlightCloseRequest.isSome

def writableStreamHasOperationMarkedInFlight (s : State V F) : Bool :=
  s.inFlightWriteRequest.isSome || s.inFlightCloseRequest.isSome

/-- The close request is rejected, and the closed promise of the writer. -/
def rejectCloseAndClosedPromise (s : State V F) (writer : Option ℕ) (e : Reason V) : State V F :=
  { s with
    settled := s.settling s.closeRequest.toList (.rejected e)
    closeRequest := none
    closedPromise := settleAt s.closedPromise writer (.rejected e) }

/-! ### Erroring -/

variable [Binary64 F]

def clearAlgorithms (s : State V F) : State V F := { s with cleared := true }

/-- The abort algorithm is called with the reason of the request. -/
def abortSteps (s : State V F) (request : PendingAbortRequest V) : State V F :=
  if s.cleared then
    s.panic "abort algorithm used after WritableStreamDefaultControllerClearAlgorithms"
  else
    { s with
      log := s.log ++ [.sinkAbort request.reason]
      cleared := true
      sinkAbortPromise := some request.promise }

/-- The queue is emptied and the requests for writes are rejected. -/
def errorRequests (s : State V F) (storedError : Reason V) : State V F :=
  { s with
    settled := s.settling s.writeRequests (.rejected storedError)
    phase := .errored storedError
    container := .empty
    writeRequests := []
    pendingAbortRequest := none }

def writableStreamFinishErroring (s : State V F) (writer : Option ℕ) (storedError : Reason V) :
    State V F :=
  match s.pendingAbortRequest with
  | none => (s.errorRequests storedError).rejectCloseAndClosedPromise writer storedError
  | some request =>
    if request.wasAlreadyErroring then
      { s.errorRequests storedError with
        settled := (s.errorRequests storedError).settling [request.promise]
          (.rejected storedError) }.rejectCloseAndClosedPromise writer storedError
    else (s.errorRequests storedError).abortSteps request

/-- The erroring is finished at once if the stream has started and nothing is in flight. -/
def finishErroringIfIdle (s : State V F) (writer : Option ℕ) (reason : Reason V) : State V F :=
  if !s.writableStreamHasOperationMarkedInFlight && s.started then
    s.writableStreamFinishErroring writer reason
  else s

def writableStreamStartErroring (s : State V F) (writer : Option ℕ) (reason : Reason V) :
    State V F :=
  { s with
    phase := .erroring reason
    readyPromise := ensureAt s.readyPromise writer (.rejected reason) }.finishErroringIfIdle
      writer reason

def rejectionMessage : String :=
  "WritableStreamDealWithRejection must be called in state 'writable' or 'erroring'"

def writableStreamDealWithRejection (s : State V F) (writer : Option ℕ) (error : Reason V) :
    State V F :=
  match s.phase with
  | .writable => s.writableStreamStartErroring writer error
  | .erroring storedError => s.writableStreamFinishErroring writer storedError
  | .closed => s.panic rejectionMessage
  | .errored _ => s.panic rejectionMessage

def defaultControllerError (s : State V F) (writer : Option ℕ) (error : Reason V) : State V F :=
  s.clearAlgorithms.writableStreamStartErroring writer error

def defaultControllerErrorIfNeeded (s : State V F) (writer : Option ℕ) (error : Reason V) :
    State V F :=
  match s.phase with
  | .writable => s.defaultControllerError writer error
  | _ => s

/-! ### The queue -/

/-- A promise that the writer waits for when there is backpressure. -/
def writableStreamUpdateBackpressure (s : State V F) (writer : Option ℕ) (backpressure : Bool) :
    State V F :=
  { s with
    readyPromise :=
      if backpressure == s.backpressure then s.readyPromise
      else if backpressure then ensureAt s.readyPromise writer .pending
      else settleAt s.readyPromise writer .resolved
    backpressure := backpressure }

/-- Whether the desired size is not above zero. -/
def getBackpressure (s : State V F) : Bool :=
  Binary64.le (Binary64.sub s.strategyHwm s.container.queueTotalSize) Binary64.zero

/-- The backpressure is looked at again when a chunk comes or goes. -/
def updateBackpressureIfWritable (s : State V F) (writer : Option ℕ) : State V F :=
  match s.phase with
  | .writable =>
    if s.writableStreamCloseQueuedOrInFlight then s
    else s.writableStreamUpdateBackpressure writer s.getBackpressure
  | _ => s

def processWrite (s : State V F) (chunk : V) : State V F :=
  match s.writeRequests with
  | [] => s.panic
      "writable_stream_mark_first_write_request_in_flight must be called with non-empty write requests"
  | request :: rest =>
    if s.cleared then
      s.panic "write algorithm used after WritableStreamDefaultControllerClearAlgorithms"
    else
      { s with
        log := s.log ++ [.sinkWrite chunk]
        inFlightWriteRequest := some request
        writeRequests := rest
        sinkWritePromise := true }

def dequeueMessage : String := "DequeueValue called with empty queue"

/-- The sink is closed; the callback for the end of this keeps the writer. -/
def processClose (s : State V F) (writer : Option ℕ) : State V F :=
  match s.closeRequest with
  | none =>
    s.panic "writable_stream_mark_close_request_in_flight called without close request"
  | some request =>
    match s.container.dequeueValue with
    | none => s.panic dequeueMessage
    | some (_, container) =>
      if s.cleared then
        s.panic "close algorithm used after WritableStreamDefaultControllerClearAlgorithms"
      else
        { s with
          log := s.log ++ [.sinkClose]
          cleared := true
          inFlightCloseRequest := some request
          closeRequest := none
          container := container
          sinkClosePromise := some writer }

variable [DecidableEq V]

/-- The first value of the queue goes to the sink. -/
def processFront (sentinel : V) (s : State V F) (writer : Option ℕ) : State V F :=
  match s.container.queue with
  | [] => s
  | (value, _) :: _ => if value = sentinel then s.processClose writer else s.processWrite value

def advanceQueueIfNeeded (sentinel : V) (s : State V F) (writer : Option ℕ) : State V F :=
  if !s.started || s.inFlightWriteRequest.isSome then s
  else
    match s.phase with
    | .erroring storedError => s.writableStreamFinishErroring writer storedError
    | _ => s.processFront sentinel writer

/-! ### Calls -/

/-- What a `size` function does: it throws, or returns a number or something that is none. -/
inductive SizeResult (V F : Type)
  | threw (e : V)
  | returned (size : Option F)
  deriving DecidableEq, Repr

def defaultControllerWrite (sentinel : V) (s : State V F) (w : ℕ) (chunk : V) (size : Option F) :
    State V F :=
  match s.container.enqueueValueWithSize (V := V) chunk size with
  | .error e => s.defaultControllerErrorIfNeeded (some w) e
  | .ok container =>
    ({ s with container := container }.updateBackpressureIfWritable (some w)).advanceQueueIfNeeded
      sentinel (some w)

/-- A call of `write`, up to the call of the `size` function. -/
def write (s : State V F) (w : ℕ) (chunk : V) : State V F :=
  if s.writer = some w then { s with sizing := (chunk, w) :: s.sizing } else s

/-- The size of a chunk; if the `size` function throws, the stream is errored and the size is
one. -/
def getChunkSize (s : State V F) (w : ℕ) (res : SizeResult V F) : State V F × Option F :=
  match res with
  | .returned size => (s, size)
  | .threw e => (s.defaultControllerErrorIfNeeded (some w) (.value e), some Binary64.one)

/-- A chunk that the stream takes. -/
def addWriteRequest (s : State V F) (chunk : V) : State V F :=
  { s with
    log := s.log ++ [.written chunk]
    writeRequests := s.writeRequests ++ [s.nextPromise]
    nextPromise := s.nextPromise + 1 }

/-- The rest of a call of `write`. -/
def writeChunk (sentinel : V) (s : State V F) (w : ℕ) (chunk : V) (size : Option F) : State V F :=
  if s.writer = some w then
    match s.phase with
    | .writable =>
      if s.writableStreamCloseQueuedOrInFlight then s
      else (s.addWriteRequest chunk).defaultControllerWrite sentinel w chunk size
    | _ => s
  else s

def sizeReturns (sentinel : V) (s : State V F) (res : SizeResult V F) : State V F :=
  match s.sizing with
  | [] => s
  | (chunk, w) :: rest =>
    let (s, size) := { s with sizing := rest }.getChunkSize w res
    s.writeChunk sentinel w chunk size

def defaultControllerClose (sentinel : V) (s : State V F) (writer : Option ℕ) : State V F :=
  match s.container.enqueueValueWithSize (V := V) sentinel (some Binary64.zero) with
  | .error _ => s
  | .ok container => { s with container := container }.advanceQueueIfNeeded sentinel writer

/-- The stream's close request is set. -/
def addCloseRequest (s : State V F) (writer : Option ℕ) : State V F :=
  { s with
    log := s.log ++ [.closeCalled]
    closeRequest := some s.nextPromise
    nextPromise := s.nextPromise + 1
    readyPromise :=
      match s.backpressure, s.phase with
      | true, .writable => settleAt s.readyPromise writer .resolved
      | _, _ => s.readyPromise }

def writableStreamClose (sentinel : V) (s : State V F) (writer : Option ℕ) : State V F :=
  match s.phase with
  | .closed => s
  | .errored _ => s
  | _ => (s.addCloseRequest writer).defaultControllerClose sentinel writer

/-- `close` of the writer, or of a stream without one. -/
def close (sentinel : V) (s : State V F) (writer : Option ℕ) : State V F :=
  if s.writer = writer then
    if s.writableStreamCloseQueuedOrInFlight then s else s.writableStreamClose sentinel writer
  else s

/-- `abort` of the writer, or of a stream without one, up to the call of the signal's listeners. -/
def abort (s : State V F) (writer : Option ℕ) (reason : V) : State V F :=
  if s.writer = writer then
    match s.phase with
    | .closed => s
    | .errored _ => s
    | _ => { s with signalling := (reason, writer) :: s.signalling }
  else s

/-- The request for an abort. -/
def addAbortRequest (s : State V F) (reason : Option V) (wasAlreadyErroring : Bool) : State V F :=
  { s with
    pendingAbortRequest :=
      some { promise := s.nextPromise, reason := reason, wasAlreadyErroring := wasAlreadyErroring }
    nextPromise := s.nextPromise + 1 }

/-- The rest of a call of `abort`; an omitted reason is the value `undefined`. -/
def writableStreamAbort (s : State V F) (writer : Option ℕ) (reason : V) : State V F :=
  match s.phase with
  | .closed => s
  | .errored _ => s
  | .erroring _ =>
    if s.pendingAbortRequest.isSome then s else s.addAbortRequest none true
  | .writable =>
    if s.pendingAbortRequest.isSome then s
    else (s.addAbortRequest (some reason) false).writableStreamStartErroring writer (.value reason)

/-- The listeners of the signal are done, or one of them threw. -/
def signalled (s : State V F) (threw : Bool) : State V F :=
  match s.signalling with
  | [] => s
  | (reason, writer) :: rest =>
    let s := { s with signalling := rest }
    if threw then s else s.writableStreamAbort writer reason

def releasedError : Reason V :=
  .typeError "Writer was released and can no longer be used to monitor the stream's closedness"

def releaseLock (s : State V F) (w : ℕ) : State V F :=
  if s.writer = some w then
    { s with
      readyPromise := ensureAt s.readyPromise (some w) (.rejected releasedError)
      closedPromise := ensureAt s.closedPromise (some w) (.rejected releasedError)
      writer := none }
  else s

/-- The closed promise of a writer that is acquired. -/
def initialClosed (s : State V F) : PromiseState V :=
  match s.phase with
  | .writable => .pending
  | .erroring _ => .pending
  | .closed => .resolved
  | .errored e => .rejected e

/-- The ready promise of a writer that is acquired. -/
def initialReady (s : State V F) : PromiseState V :=
  match s.phase with
  | .writable =>
    if !s.writableStreamCloseQueuedOrInFlight && s.backpressure then .pending else .resolved
  | .erroring e => .rejected e
  | .closed => .resolved
  | .errored e => .rejected e

def getWriter (s : State V F) : State V F :=
  match s.writer with
  | some _ => s
  | none =>
    { s with
      writer := some s.nextWriter
      nextWriter := s.nextWriter + 1
      closedPromise := update s.closedPromise s.nextWriter s.initialClosed
      readyPromise := update s.readyPromise s.nextWriter s.initialReady }

/-! ### Promises of the sink -/

def startSettles (sentinel : V) (s : State V F) (res : Except V Unit) : State V F :=
  if s.startPromise then
    let s := { s with startPromise := false, started := true }
    match res with
    | .ok _ => s.advanceQueueIfNeeded sentinel s.writer
    | .error e => s.writableStreamDealWithRejection s.writer (.value e)
  else s

/-- The write in flight has come to its end. -/
def landWrite (s : State V F) (request : ℕ) (o : PromiseState V) (seen : Obs V) : State V F :=
  { s with
    settled := s.settling [request] o
    log := s.log ++ [seen]
    inFlightWriteRequest := none
    sinkWritePromise := false }

/-- A write of the sink has succeeded. -/
def finishInFlightWrite (sentinel : V) (s : State V F) : State V F :=
  match s.inFlightWriteRequest with
  | none => s.panic
      "writable_stream_finish_in_flight_write called without in flight write request"
  | some request =>
    match s.container.dequeueValue with
    | none => s.panic dequeueMessage
    | some (_, container) =>
      ({ s.landWrite request .resolved .sinkDone with
        container := container }.updateBackpressureIfWritable s.writer).advanceQueueIfNeeded
          sentinel s.writer

def clearIfWritable (s : State V F) : State V F :=
  { s with cleared := s.cleared || s.phase.isWritable }

/-- A write of the sink has failed. -/
def finishInFlightWriteWithError (s : State V F) (error : Reason V) : State V F :=
  match s.inFlightWriteRequest with
  | none => s.panic
      "writable_stream_finish_in_flight_write_with_error called without in flight write request"
  | some request =>
    (s.clearIfWritable.landWrite request (.rejected error)
      .sinkFailed).writableStreamDealWithRejection s.writer error

def sinkWriteSettles (sentinel : V) (s : State V F) (res : Except V Unit) : State V F :=
  if s.sinkWritePromise then
    match res with
    | .ok _ => s.finishInFlightWrite sentinel
    | .error e => s.finishInFlightWriteWithError (.value e)
  else s

/-- The close in flight has come to its end. -/
def landClose (s : State V F) (request : ℕ) (o : PromiseState V) (seen : Obs V) : State V F :=
  { s with
    settled := s.settling [request] o
    log := s.log ++ [seen]
    inFlightCloseRequest := none
    sinkClosePromise := none }

/-- The request for an abort, if there is one, is settled. -/
def settleAbortRequest (s : State V F) (o : PromiseState V) : State V F :=
  { s with
    settled := s.settling (s.pendingAbortRequest.map (·.promise)).toList o
    pendingAbortRequest := none }

/-- The request for an abort is resolved if the stream is erroring. -/
def resolveAbortRequest (s : State V F) : State V F :=
  match s.phase with
  | .erroring _ => s.settleAbortRequest .resolved
  | _ => s

/-- The sink is closed. -/
def writableStreamFinishInFlightClose (s : State V F) (writer : Option ℕ) : State V F :=
  match s.inFlightCloseRequest with
  | none => s.panic
      "writable_stream_finish_in_flight_close called without in flight close request"
  | some request =>
    { (s.landClose request .resolved .sinkDone).resolveAbortRequest with
      phase := .closed
      closedPromise := settleAt s.closedPromise writer .resolved }

/-- The sink has failed to close. -/
def writableStreamFinishInFlightCloseWithError (s : State V F) (writer : Option ℕ)
    (error : Reason V) : State V F :=
  match s.inFlightCloseRequest with
  | none => s.panic
      "writable_stream_finish_in_flight_close_with_error called without in flight close request"
  | some request =>
    ((s.landClose request (.rejected error) .sinkFailed).settleAbortRequest
      (.rejected error)).writableStreamDealWithRejection writer error

/-- The callback acts on the writer that was there when the sink was told to close. -/
def sinkCloseSettles (s : State V F) (res : Except V Unit) : State V F :=
  match s.sinkClosePromise with
  | none => s
  | some writer =>
    match res with
    | .ok _ => s.writableStreamFinishInFlightClose writer
    | .error e => s.writableStreamFinishInFlightCloseWithError writer (.value e)

/-- What the promise of an abort is settled with. -/
def abortOutcome (res : Except V Unit) : PromiseState V :=
  match res with
  | .ok _ => .resolved
  | .error e => .rejected (.value e)

/-- The abort algorithm has come to its end. -/
def landAbort (s : State V F) (request : ℕ) (o : PromiseState V) : State V F :=
  { s with settled := s.settling [request] o, sinkAbortPromise := none }

def sinkAbortSettles (s : State V F) (res : Except V Unit) : State V F :=
  match s.sinkAbortPromise with
  | none => s
  | some request =>
    match s.phase with
    | .erroring e =>
      (s.landAbort request (abortOutcome res)).rejectCloseAndClosedPromise s.writer e
    | .errored e =>
      (s.landAbort request (abortOutcome res)).rejectCloseAndClosedPromise s.writer e
    | _ => s.landAbort request (abortOutcome res)

/-- `error` of the controller. -/
def error (s : State V F) (e : V) : State V F :=
  match s.phase with
  | .writable => s.defaultControllerError s.writer (.value e)
  | _ => s

end State

/-! ### Runs -/

open State in
/-- What can happen to a stream. -/
inductive Event (V F : Type)
  | getWriter
  | releaseLock (w : ℕ)
  | write (w : ℕ) (chunk : V)
  | sizeReturns (res : SizeResult V F)
  | close (writer : Option ℕ)
  | abort (writer : Option ℕ) (reason : V)
  | signalled (threw : Bool)
  | error (e : V)
  | startSettles (res : Except V Unit)
  | sinkWriteSettles (res : Except V Unit)
  | sinkCloseSettles (res : Except V Unit)
  | sinkAbortSettles (res : Except V Unit)

variable [Binary64 F] [DecidableEq V]

/-- What an event does while the stream has not panicked. -/
def act (sentinel : V) (s : State V F) : Event V F → State V F
  | .getWriter => s.getWriter
  | .releaseLock w => s.releaseLock w
  | .write w chunk => s.write w chunk
  | .sizeReturns res => s.sizeReturns sentinel res
  | .close writer => s.close sentinel writer
  | .abort writer reason => s.abort writer reason
  | .signalled threw => s.signalled threw
  | .error e => s.error e
  | .startSettles res => s.startSettles sentinel res
  | .sinkWriteSettles res => s.sinkWriteSettles sentinel res
  | .sinkCloseSettles res => s.sinkCloseSettles res
  | .sinkAbortSettles res => s.sinkAbortSettles res

/-- What an event does; one that cannot happen does nothing. -/
def step (sentinel : V) (s : State V F) (e : Event V F) : State V F :=
  if s.panicked.isSome then s else act sentinel s e

/-- A stream that was just constructed. -/
def init (strategyHwm : F) : State V F where
  phase := .writable
  backpressure := Binary64.le (Binary64.sub strategyHwm Binary64.zero) Binary64.zero
  closeRequest := none
  inFlightWriteRequest := none
  inFlightCloseRequest := none
  pendingAbortRequest := none
  writer := none
  writeRequests := []
  container := .empty
  started := false
  strategyHwm := strategyHwm
  cleared := false
  closedPromise := fun _ => .pending
  readyPromise := fun _ => .pending
  nextWriter := 0
  nextPromise := 0
  settled := []
  sizing := []
  signalling := []
  startPromise := true
  sinkWritePromise := false
  sinkClosePromise := none
  sinkAbortPromise := none
  log := []
  panicked := none

end RasterRuntime.WritableStream
