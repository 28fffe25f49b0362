import RasterRuntime.ByteStream.State

/-! # `ReadableByteStreamController`

The algorithms of the controller and of the reader, as functions of the state. What the source does
in its `pull` is not part of them: `callPullIfNeeded` only notes that `pull` was called, and what it
calls in turn are further operations. An `expect` or an index that fails is a `Panic`. -/

namespace RasterRuntime.ByteStream

variable (c : Config)

/-! ### Requests -/

/-- `readable_stream_get_num_read_requests`, for a default reader. -/
def numReadRequests (s : State) : ℕ :=
  match s.reader with
  | some (.default rs) => rs.length
  | _ => 0

/-- `readable_stream_get_num_read_into_requests`, for a BYOB reader. -/
def numReadIntoRequests (s : State) : ℕ :=
  match s.reader with
  | some (.byob rs) => rs.length
  | _ => 0

/-- A read is resolved. -/
def resolve (s : State) (read : ℕ) (result : ReadResult) : State :=
  { s with delivered := s.delivered ++ [(read, result)] }

/-- `readable_stream_fulfill_read_request`. -/
def fulfillReadRequest (s : State) (chunk : Chunk) (done : Bool) : Except Panic State :=
  match s.reader with
  | some (.default (r :: rs)) =>
    .ok (resolve { s with reader := some (.default rs) } r
      (if done then .close none else .chunk chunk))
  | some (.default []) =>
    .error ⟨"ReadableStreamFulfillReadRequest called with empty readRequests"⟩
  | some (.byob _) => .error ⟨"expected default reader, found byob reader"⟩
  | none => .error ⟨"expected default reader, found no reader"⟩

/-- `readable_stream_fulfill_read_into_request`. -/
def fulfillReadIntoRequest (s : State) (chunk : Chunk) (done : Bool) : Except Panic State :=
  match s.reader with
  | some (.byob (r :: rs)) =>
    .ok (resolve { s with reader := some (.byob rs) } r
      (if done then .close (some chunk) else .chunk chunk))
  | some (.byob []) =>
    .error ⟨"ReadableStreamFulfillReadIntoRequest called with empty readIntoRequests"⟩
  | some (.default _) => .error ⟨"expected byob reader, found default reader"⟩
  | none => .error ⟨"expected byob reader, found no reader"⟩

/-- `readable_stream_close`: the reads that wait at a default reader are closed, the ones at a BYOB
reader keep waiting. -/
def streamClose (s : State) : State :=
  match s.reader with
  | some (.default rs) =>
    { s with
      streamState := .closed
      reader := some (.default [])
      delivered := s.delivered ++ rs.map fun r => (r, .close none) }
  | _ => { s with streamState := .closed }

/-- `readable_stream_error`: the reads that wait are rejected. -/
def streamError (s : State) (e : JsError) : State :=
  { s with
    streamState := .errored e
    reader := s.reader.map fun
      | .default _ => .default []
      | .byob _ => .byob [] }

/-! ### Pulling -/

/-- `readable_byte_stream_controller_should_call_pull`. -/
def shouldCallPull (s : State) : Bool :=
  match s.streamState with
  | .readable => !s.closeRequested && s.started &&
      (0 < numReadRequests s || 0 < numReadIntoRequests s || c.desired s.queueTotalSize)
  | _ => false

/-- `readable_byte_stream_controller_call_pull_if_needed`. -/
def callPullIfNeeded (s : State) : State :=
  if shouldCallPull c s then
    if s.pulling then { s with pullAgain := true } else { s with pulling := true }
  else s

/-- `readable_byte_stream_controller_invalidate_byob_request`. -/
def invalidateByobRequest (s : State) : State := { s with byobRequest := false }

/-- `readable_byte_stream_controller_error`. -/
def controllerError (s : State) (e : JsError) : State :=
  match s.streamState with
  | .readable =>
    streamError { invalidateByobRequest s with
      pendingPullIntos := [], queue := [], queueTotalSize := 0 } e
  | _ => s

/-- `readable_byte_stream_controller_handle_queue_drain`. -/
def handleQueueDrain (s : State) : State :=
  if s.queueTotalSize = 0 ∧ s.closeRequested then streamClose s else callPullIfNeeded c s

/-! ### The queue -/

/-- `readable_byte_stream_controller_enqueue_chunk_to_queue`. -/
def enqueueChunkToQueue (s : State) (buffer : List UInt8) (byteOffset byteLength : ℕ) : State :=
  { s with
    queue := s.queue ++ [⟨buffer, byteOffset, byteLength⟩]
    queueTotalSize := s.queueTotalSize + byteLength }

/-- `readable_byte_stream_controller_enqueue_cloned_chunk_to_queue`. -/
def enqueueClonedChunkToQueue (s : State) (buffer : List UInt8) (byteOffset byteLength : ℕ) :
    Except Panic State :=
  if byteOffset + byteLength ≤ buffer.length then
    .ok (enqueueChunkToQueue s (window buffer byteOffset byteLength) 0 byteLength)
  else .error ⟨"range end index out of range"⟩

/-- `readable_byte_stream_controller_shift_pending_pull_into`. -/
def shiftPendingPullInto (s : State) : Except Panic (PullIntoDescriptor × State) :=
  match s.pendingPullIntos with
  | d :: ds => .ok (d, { s with pendingPullIntos := ds })
  | [] => .error
    ⟨"ReadableByteStreamControllerShiftPendingPullInto called on empty pendingPullIntos"⟩

/-- The descriptor at index 0, which a list without one panics at. -/
def firstDescriptor (s : State) : Except Panic PullIntoDescriptor :=
  match s.pendingPullIntos with
  | d :: _ => .ok d
  | [] => .error ⟨"Out of bounds access"⟩

/-- The clone is made only if there are bytes, at both places that call for one. -/
def enqueueClonedIfAny (s : State) (buffer : List UInt8) (byteOffset byteLength : ℕ) :
    Except Panic State :=
  if 0 < byteLength then enqueueClonedChunkToQueue s buffer byteOffset byteLength else .ok s

/-- `readable_byte_stream_enqueue_detached_pull_into_to_queue`. -/
def enqueueDetachedPullIntoToQueue (s : State) : Except Panic State := do
  let d ← firstDescriptor s
  let s ← enqueueClonedIfAny s d.buffer d.byteOffset d.bytesFilled
  let (_, s) ← shiftPendingPullInto s
  return s

/-- `readable_byte_stream_controller_fill_read_request_from_queue`. -/
def fillReadRequestFromQueue (s : State) (read : ℕ) : Except Panic State :=
  match s.queue with
  | e :: es =>
    let s := { s with queue := es, queueTotalSize := s.queueTotalSize - e.byteLength }
    .ok (resolve (handleQueueDrain c s) read (.chunk ⟨.uint8Array, e.bytes⟩))
  | [] => .error ⟨"ReadableByteStreamControllerFillReadRequestFromQueue called with empty queue"⟩

/-- The loop of `readable_byte_stream_controller_process_read_requests_using_queue`; each round
takes one of the `n` reads that wait. -/
def processReadRequestsLoop : ℕ → State → Except Panic State
  | 0, s => .ok s
  | n + 1, s =>
    if s.queueTotalSize = 0 then .ok s
    else
      match s.reader with
      | some (.default (r :: rs)) => do
        let s ← fillReadRequestFromQueue c { s with reader := some (.default rs) } r
        processReadRequestsLoop n s
      | _ => .ok s

/-- `readable_byte_stream_controller_process_read_requests_using_queue`. -/
def processReadRequestsUsingQueue (s : State) : Except Panic State :=
  processReadRequestsLoop c (numReadRequests s) s

/-! ### Descriptors -/

/-- `readable_byte_stream_controller_convert_pull_into_descriptor`, of the controller and of its
twin. The constructor takes a number of elements, so what is left of an element is cut off. -/
def convertPullIntoDescriptor (d : PullIntoDescriptor) : Chunk :=
  ⟨d.viewConstructor, window d.buffer d.byteOffset (d.bytesFilled / d.elementSize * d.elementSize)⟩

/-- `readable_byte_stream_controller_commit_pull_into_descriptor`. -/
def commitPullIntoDescriptor (s : State) (d : PullIntoDescriptor) : Except Panic State :=
  match d.readerType with
  | .default => fulfillReadRequest s (convertPullIntoDescriptor d) (s.streamState = .closed)
  | _ => fulfillReadIntoRequest s (convertPullIntoDescriptor d) (s.streamState = .closed)

/-- `copy_data_block_bytes`; the slices panic when they are out of range. -/
def copyDataBlockBytes (toBlock : List UInt8) (toIndex : ℕ) (fromBlock : List UInt8)
    (fromIndex count : ℕ) : Except Panic (List UInt8) :=
  if toIndex + count ≤ toBlock.length ∧ fromIndex + count ≤ fromBlock.length then
    .ok (toBlock.take toIndex ++ window fromBlock fromIndex count ++ toBlock.drop (toIndex + count))
  else .error ⟨"range end index out of range"⟩

/-- `readable_byte_stream_controller_fill_head_pull_into_descriptor`. -/
def fillHeadPullIntoDescriptor (size : ℕ) (d : PullIntoDescriptor) : PullIntoDescriptor :=
  { d with bytesFilled := d.bytesFilled + size }

/-- The loop of `readable_byte_stream_controller_fill_pull_into_descriptor_from_queue`, which copies
`remaining` bytes out of the queue with the total size `total`. -/
def copyFromQueue : List QueueEntry → ℕ → ℕ → PullIntoDescriptor →
    Except Panic (PullIntoDescriptor × List QueueEntry × ℕ)
  | queue, 0, total, d => .ok (d, queue, total)
  | [], _ + 1, _, _ => .error ⟨"empty queue with bytes to copy"⟩
  | e :: es, remaining + 1, total, d => do
    let bytesToCopy := min (remaining + 1) e.byteLength
    let buffer ← copyDataBlockBytes d.buffer (d.byteOffset + d.bytesFilled) e.buffer e.byteOffset
      bytesToCopy
    let d := fillHeadPullIntoDescriptor bytesToCopy { d with buffer }
    if e.byteLength = bytesToCopy then
      copyFromQueue es (remaining + 1 - bytesToCopy) (total - bytesToCopy) d
    else
      -- the entry has more than is left to copy, so this round is the last one
      return (d, { e with
        byteOffset := e.byteOffset + bytesToCopy
        byteLength := e.byteLength - bytesToCopy } :: es, total - bytesToCopy)

/-- The bytes that a descriptor could have once the queue has been used, in whole elements. -/
def maxAlignedBytes (total : ℕ) (d : PullIntoDescriptor) : ℕ :=
  let maxBytesFilled := d.bytesFilled + min total (d.byteLength - d.bytesFilled)
  maxBytesFilled - maxBytesFilled % d.elementSize

/-- `readable_byte_stream_controller_fill_pull_into_descriptor_from_queue`: whether the descriptor
is ready, the descriptor, and what the queue becomes. -/
def fillPullIntoDescriptorFromQueue (s : State) (d : PullIntoDescriptor) :
    Except Panic (Bool × PullIntoDescriptor × State) := do
  let ready := d.minimumFill ≤ maxAlignedBytes s.queueTotalSize d
  let remaining := if ready then maxAlignedBytes s.queueTotalSize d - d.bytesFilled
    else min s.queueTotalSize (d.byteLength - d.bytesFilled)
  let (d, queue, queueTotalSize) ← copyFromQueue s.queue remaining s.queueTotalSize d
  return (ready, d, { s with queue, queueTotalSize })

/-- The loop of `readable_byte_stream_controller_process_pull_into_descriptors_using_queue` over the
`n` descriptors. A descriptor that is not ready has used up the queue. -/
def processPullIntoLoop : ℕ → State → Except Panic State
  | 0, s => .ok s
  | n + 1, s =>
    match s.pendingPullIntos with
    | [] => .ok s
    | d :: ds =>
      if s.queueTotalSize = 0 then .ok s
      else do
        let (ready, d, s) ← fillPullIntoDescriptorFromQueue s d
        if ready then
          let s ← commitPullIntoDescriptor { s with pendingPullIntos := ds } d
          processPullIntoLoop n s
        else processPullIntoLoop n { s with pendingPullIntos := d :: ds }

/-- `readable_byte_stream_controller_process_pull_into_descriptors_using_queue`. -/
def processPullIntoDescriptorsUsingQueue (s : State) : Except Panic State :=
  processPullIntoLoop s.pendingPullIntos.length s

end RasterRuntime.ByteStream
