import RasterRuntime.ByteStream.Controller

/-! # Operations on a byte stream

What a source and a consumer can do to a byte stream: the methods of the controller, of its
`byobRequest` and of the readers, the writes of the source into the buffer of a request, and the two
promise reactions of the controller. Each one is a step; a `Run` takes them in turn. A call that
throws or is rejected leaves a `Reply` and, with one exception (`close`), the state as it was. -/

namespace RasterRuntime.ByteStream

variable (c : Config)

/-! ### The source -/

/-- The part of `readable_byte_stream_controller_enqueue` about the first descriptor: its request
ends, and the bytes it has for a released reader go to the queue. -/
def detachFirst (s : State) : Except Panic State :=
  match s.pendingPullIntos with
  | [] => .ok s
  | d :: _ =>
    if d.readerType = .none then enqueueDetachedPullIntoToQueue (invalidateByobRequest s)
    else .ok (invalidateByobRequest s)

/-- The part of `readable_byte_stream_controller_enqueue` that finds a place for the chunk. -/
def placeChunk (s : State) (chunk : View) : Except Panic State :=
  match s.reader with
  | some (.default _) => do
    let s ← processReadRequestsUsingQueue c s
    if numReadRequests s = 0 then
      return enqueueChunkToQueue s chunk.buffer chunk.byteOffset chunk.byteLength
    else if s.pendingPullIntos = [] then
      fulfillReadRequest s ⟨.uint8Array, chunk.bytes⟩ false
    else
      let (_, s) ← shiftPendingPullInto s
      fulfillReadRequest s ⟨.uint8Array, chunk.bytes⟩ false
  | some (.byob _) =>
    processPullIntoDescriptorsUsingQueue
      (enqueueChunkToQueue s chunk.buffer chunk.byteOffset chunk.byteLength)
  | none => .ok (enqueueChunkToQueue s chunk.buffer chunk.byteOffset chunk.byteLength)

/-- `readable_byte_stream_controller_enqueue`, on a readable stream. The bytes count as supplied
from the call on. -/
def controllerEnqueue (s : State) (chunk : View) : Except Panic State := do
  let s ← detachFirst { s with supplied := s.supplied ++ chunk.bytes }
  let s ← placeChunk c s chunk
  return callPullIfNeeded c s

/-- `controller.enqueue(chunk)`. -/
def enqueue (s : State) (chunk : View) : Except Panic (Reply × State) :=
  if chunk.byteLength = 0 then
    .ok (.failed (.typeError "chunk must have non-zero byteLength"), s)
  else if chunk.buffer.length = 0 then
    .ok (.failed (.typeError "chunk must have non-zero buffer byteLength"), s)
  else if s.closeRequested then .ok (.failed (.typeError "stream is closed or draining"), s)
  else if s.streamState ≠ .readable then
    .ok (.failed (.typeError "The stream is not in the readable state and cannot be enqueued to"),
      s)
  else do
    let s ← controllerEnqueue c s chunk
    return (.returned, s)

/-- The error of a stream that ends inside an element. -/
def insufficientBytes : JsError :=
  .typeError "Insufficient bytes to fill elements in the given buffer"

/-- `readable_byte_stream_controller_close`, on a readable stream. -/
def controllerClose (s : State) : Reply × State :=
  if 0 < s.queueTotalSize then (.returned, { s with closeRequested := true })
  else
    match s.pendingPullIntos with
    | d :: _ =>
      if d.bytesFilled % d.elementSize ≠ 0 then
        (.failed insufficientBytes, controllerError s insufficientBytes)
      else (.returned, streamClose s)
    | [] => (.returned, streamClose s)

/-- `controller.close()`. -/
def close (s : State) : Reply × State :=
  if s.closeRequested then (.failed (.typeError "close() called more than once"), s)
  else if s.streamState ≠ .readable then
    (.failed (.typeError "close() called when stream is not readable"), s)
  else controllerClose s

/-- The getter `controller.byobRequest`. -/
def getByobRequest (s : State) : State :=
  match s.pendingPullIntos with
  | [] => s
  | _ :: _ => { s with byobRequest := true }

/-- The source writes bytes into the buffer of `byobRequest.view`, from the index on. -/
def writeRequest (s : State) (index : ℕ) (bytes : List UInt8) : Reply × State :=
  match s.byobRequest, s.pendingPullIntos with
  | true, d :: ds =>
    match copyDataBlockBytes d.buffer index bytes 0 bytes.length with
    | .ok buffer => (.returned, { s with pendingPullIntos := { d with buffer } :: ds })
    | .error _ => (.failed (.rangeError "offset is out of bounds"), s)
  | _, _ => (.failed (.typeError "This BYOB request has been invalidated"), s)

/-- The loop of `readable_byte_stream_controller_respond_in_closed_state` over the `n` reads that
wait at a BYOB reader. -/
def closedLoop : ℕ → State → Except Panic State
  | 0, s => .ok s
  | n + 1, s => do
    let (d, s) ← shiftPendingPullInto s
    let s ← commitPullIntoDescriptor s d
    closedLoop n s

/-- `readable_byte_stream_controller_respond_in_closed_state`. -/
def respondInClosedState (s : State) : Except Panic State :=
  match s.pendingPullIntos with
  | [] => .error ⟨"Out of bounds access"⟩
  | d :: ds =>
    let s := if d.readerType = .none then { s with pendingPullIntos := ds } else s
    closedLoop (numReadIntoRequests s) s

/-- The end of `readable_byte_stream_controller_respond_in_readable_state`, for a descriptor that
has its minimum: what is left of an element goes to the queue. -/
def commitFilled (s : State) (d : PullIntoDescriptor) : Except Panic State := do
  let remainderSize := d.bytesFilled % d.elementSize
  let s ← enqueueClonedIfAny s d.buffer (d.byteOffset + d.bytesFilled - remainderSize) remainderSize
  let s ← commitPullIntoDescriptor s { d with bytesFilled := d.bytesFilled - remainderSize }
  processPullIntoDescriptorsUsingQueue s

/-- `readable_byte_stream_controller_respond_in_readable_state`. The bytes that the source wrote are
supplied here. -/
def respondInReadableState (s : State) (bytesWritten : ℕ) : Except Panic State :=
  match s.pendingPullIntos with
  | [] => .error ⟨"Out of bounds access"⟩
  | d :: ds =>
    let written := window d.buffer (d.byteOffset + d.bytesFilled) bytesWritten
    let d := fillHeadPullIntoDescriptor bytesWritten d
    let s := { s with pendingPullIntos := d :: ds, supplied := s.supplied ++ written }
    if d.readerType = .none then do
      let s ← enqueueDetachedPullIntoToQueue s
      processPullIntoDescriptorsUsingQueue s
    else if d.bytesFilled < d.minimumFill then .ok s
    else do
      let (d, s) ← shiftPendingPullInto s
      commitFilled s d

/-- `readable_byte_stream_controller_respond_internal`. -/
def respondInternal (s : State) (bytesWritten : ℕ) : Except Panic State := do
  let s := invalidateByobRequest s
  let s ← match s.streamState with
    | .closed => respondInClosedState s
    | _ => respondInReadableState s bytesWritten
  return callPullIfNeeded c s

/-- `byobRequest.respond(bytesWritten)`. -/
def respond (s : State) (bytesWritten : ℕ) : Except Panic (Reply × State) :=
  if s.byobRequest then do
    let d ← firstDescriptor s
    if s.streamState = .closed ∧ bytesWritten ≠ 0 then
      return (.failed (.typeError
        "bytesWritten must be 0 when calling respond() on a closed stream"), s)
    else if s.streamState ≠ .closed ∧ bytesWritten = 0 then
      return (.failed (.typeError
        "bytesWritten must be greater than 0 when calling respond() on a readable stream"), s)
    else if s.streamState ≠ .closed ∧ d.byteLength < d.bytesFilled + bytesWritten then
      return (.failed (.rangeError "bytesWritten out of range'"), s)
    else
      let s ← respondInternal c s bytesWritten
      return (.returned, s)
  else .ok (.failed (.typeError "This BYOB request has been invalidated"), s)

/-- `byobRequest.respondWithNewView(view)`. -/
def respondWithNewView (s : State) (view : View) : Except Panic (Reply × State) :=
  if s.byobRequest then
    if s.streamState = .closed ∧ view.byteLength ≠ 0 then
      .ok (.failed (.typeError
        "The view's length must be 0 when calling respondWithNewView() on a closed stream"), s)
    else if s.streamState ≠ .closed ∧ view.byteLength = 0 then
      .ok (.failed (.typeError ("The view's length must be greater than 0 when calling " ++
        "respondWithNewView() on a readable stream")), s)
    else do
      let (d, rest) ← shiftPendingPullInto s
      if d.byteOffset + d.bytesFilled ≠ view.byteOffset then
        return (.failed (.rangeError "The region specified by view does not match byobRequest"), s)
      else if d.bufferByteLength ≠ view.buffer.length then
        return (.failed (.rangeError
          "The buffer of view has different capacity than byobRequest"), s)
      else if d.byteLength < d.bytesFilled + view.byteLength then
        return (.failed (.rangeError "The region specified by view is larger than byobRequest"), s)
      else
        let d := { d with buffer := view.buffer }
        let s ← respondInternal c { s with pendingPullIntos := d :: rest.pendingPullIntos }
          view.byteLength
        return (.returned, s)
  else .ok (.failed (.typeError "This BYOB request has been invalidated"), s)

/-! ### The consumer -/

/-- A read that waits is added to the reader. -/
def addRequest (s : State) (read : ℕ) : State :=
  { s with reader := s.reader.map fun
    | .default rs => .default (rs ++ [read])
    | .byob rs => .byob (rs ++ [read]) }

/-- The descriptor that `pull_steps` allocates for a default read. -/
def autoAllocated (size : ℕ) : PullIntoDescriptor where
  buffer := List.replicate size 0
  bufferByteLength := size
  byteOffset := 0
  byteLength := size
  bytesFilled := 0
  minimumFill := 1
  elementSize := 1
  viewConstructor := .uint8Array
  readerType := .default

/-- The descriptor of a BYOB read. -/
def descriptorOf (view : View) (min : ℕ) : PullIntoDescriptor where
  buffer := view.buffer
  bufferByteLength := view.buffer.length
  byteOffset := view.byteOffset
  byteLength := view.byteLength
  bytesFilled := 0
  minimumFill := min * view.kind.elementSize
  elementSize := view.kind.elementSize
  viewConstructor := view.kind
  readerType := .byob

/-- `pull_steps`. -/
def pullSteps (s : State) (read : ℕ) : Except Panic State :=
  if 0 < s.queueTotalSize then fillReadRequestFromQueue c s read
  else
    let s := match c.autoAllocateChunkSize with
      | some n => { s with pendingPullIntos := s.pendingPullIntos ++ [autoAllocated n] }
      | none => s
    .ok (callPullIfNeeded c (addRequest s read))

/-- `reader.read()` of a default reader. A read gets the next number when it is not refused. -/
def read (s : State) : Except Panic (Reply × State) :=
  match s.reader with
  | some (.default _) =>
    let number := s.reads
    let s := { s with reads := number + 1 }
    match s.streamState with
    | .closed => .ok (.returned, resolve s number (.close none))
    | .errored e => .ok (.failed e, s)
    | .readable => do
      let s ← pullSteps c s number
      return (.returned, s)
  | _ => .ok (.failed (.typeError "Cannot read from a stream using a released reader"), s)

/-- The end of `readable_byte_stream_controller_pull_into`: the read waits. -/
def awaitFill (s : State) (d : PullIntoDescriptor) (number : ℕ) : State :=
  callPullIfNeeded c
    (addRequest { s with pendingPullIntos := s.pendingPullIntos ++ [d] } number)

/-- `readable_byte_stream_controller_pull_into`. -/
def pullInto (s : State) (view : View) (min number : ℕ) : Except Panic (Reply × State) :=
  let d := descriptorOf view min
  if s.pendingPullIntos ≠ [] then
    .ok (.returned, addRequest { s with pendingPullIntos := s.pendingPullIntos ++ [d] } number)
  else if s.streamState = .closed then
    .ok (.returned, resolve s number (.close (some ⟨view.kind, []⟩)))
  else if 0 < s.queueTotalSize then do
    let (ready, d, s) ← fillPullIntoDescriptorFromQueue s d
    if ready then
      return (.returned,
        resolve (handleQueueDrain c s) number (.chunk (convertPullIntoDescriptor d)))
    else if s.closeRequested then
      return (.failed insufficientBytes, controllerError s insufficientBytes)
    else return (.returned, awaitFill c s d number)
  else .ok (.returned, awaitFill c s d number)

/-- `reader.read(view, { min })` of a BYOB reader. -/
def readInto (s : State) (view : View) (min : ℕ) : Except Panic (Reply × State) :=
  if view.byteLength = 0 then
    .ok (.failed (.typeError "view must have non-zero byteLength"), s)
  else if view.buffer.length = 0 then
    .ok (.failed (.typeError "view's buffer must have non-zero byteLength"), s)
  else if min = 0 then .ok (.failed (.typeError "options.min must be greater than 0"), s)
  else if view.byteLength / view.kind.elementSize < min then
    .ok (.failed (.rangeError (if view.kind = .dataView then
      "options.min must be less than or equal to views byteLength"
      else "options.min must be less than or equal to views length")), s)
  else
    match s.reader with
    | some (.byob _) =>
      let number := s.reads
      let s := { s with reads := number + 1 }
      match s.streamState with
      | .errored e => .ok (.failed e, s)
      | _ => pullInto c s view min number
    | _ => .ok (.failed (.typeError "Cannot read a stream using a released reader"), s)

/-- `stream.getReader()` and `stream.getReader({ mode: "byob" })`. -/
def getReader (s : State) (byob : Bool) : Reply × State :=
  match s.reader with
  | none => (.returned, { s with reader := some (if byob then .byob [] else .default []) })
  | some _ => (.failed (.typeError
    "This stream has already been locked for exclusive reading by another reader"), s)

/-- `release_steps`. -/
def releaseSteps (s : State) : State :=
  match s.pendingPullIntos with
  | [] => s
  | d :: _ => { s with pendingPullIntos := [{ d with readerType := .none }] }

/-- `reader.releaseLock()`. -/
def releaseLock (s : State) : State :=
  match s.reader with
  | none => s
  | some _ => { releaseSteps s with reader := none }

/-! ### Runs -/

/-- What can happen to a byte stream. -/
inductive Op
  | enqueue (chunk : View)
  | close
  | getByobRequest
  | writeRequest (index : ℕ) (bytes : List UInt8)
  | respond (bytesWritten : ℕ)
  | respondWithNewView (view : View)
  | getReader (byob : Bool)
  | read
  | readInto (view : View) (min : ℕ)
  | releaseLock
  | startSettled
  | pullSettled

/-- What one operation does. The last two are the reactions to the promises of `start` and `pull`
when they are fulfilled. -/
def step (s : State) : Op → Except Panic (Reply × State)
  | .enqueue chunk => enqueue c s chunk
  | .close => .ok (close s)
  | .getByobRequest => .ok (.returned, getByobRequest s)
  | .writeRequest index bytes => .ok (writeRequest s index bytes)
  | .respond bytesWritten => respond c s bytesWritten
  | .respondWithNewView view => respondWithNewView c s view
  | .getReader byob => .ok (getReader s byob)
  | .read => read c s
  | .readInto view min => readInto c s view min
  | .releaseLock => .ok (.returned, releaseLock s)
  | .startSettled => .ok (.returned, callPullIfNeeded c { s with started := true })
  | .pullSettled =>
    let s := { s with pulling := false }
    .ok (.returned, if s.pullAgain then callPullIfNeeded c { s with pullAgain := false } else s)

/-- The state after an operation, whatever it replies. -/
def stepState (s : State) (op : Op) : Except Panic State := (step c s op).map Prod.snd

/-- The state after a sequence of operations. -/
def run (ops : List Op) : Except Panic State := ops.foldlM (stepState c) .new

end RasterRuntime.ByteStream
