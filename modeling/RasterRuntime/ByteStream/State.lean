import Mathlib.Algebra.Divisibility.Basic
import Mathlib.Data.List.Basic
import RasterRuntime.Fallible

/-! # The data of a readable byte stream

The fields of `ReadableByteStreamController` and of its stream that decide where bytes go: the queue
of chunks, the descriptors of the buffers that wait to be filled (`pending_pull_intos`), and the
reads that wait at the reader. An `ArrayBuffer` is its bytes; transferring one keeps them.

Two fields are a record of the past and are never read: what the reads were resolved with
(`delivered`) and the bytes that the source handed over (`supplied`). -/

namespace RasterRuntime.ByteStream

/-- The part of a buffer that starts at `offset` and has `length` bytes. -/
def window (buffer : List UInt8) (offset length : ℕ) : List UInt8 :=
  (buffer.drop offset).take length

/-- The views of a buffer that are not the buffer itself: the typed arrays and `DataView`. -/
inductive ViewKind
  | uint8Array | int8Array | uint16Array | int16Array | uint32Array | int32Array
  | bigUint64Array | bigInt64Array | float32Array | float64Array | uint8ClampedArray | dataView
  deriving DecidableEq, Repr

/-- `ViewBytes::element_size`. -/
def ViewKind.elementSize : ViewKind → ℕ
  | .uint8Array | .int8Array | .uint8ClampedArray | .dataView => 1
  | .uint16Array | .int16Array => 2
  | .uint32Array | .int32Array | .float32Array => 4
  | .bigUint64Array | .bigInt64Array | .float64Array => 8

theorem ViewKind.elementSize_pos (k : ViewKind) : 0 < k.elementSize := by
  cases k <;> decide

/-- A view of a buffer. The engine keeps it inside the buffer and whole elements long. -/
structure View where
  kind : ViewKind
  buffer : List UInt8
  byteOffset : ℕ
  byteLength : ℕ
  inBounds : byteOffset + byteLength ≤ buffer.length
  whole : kind.elementSize ∣ byteLength
  deriving DecidableEq, Repr

/-- The bytes that are seen through a view. -/
def View.bytes (v : View) : List UInt8 := window v.buffer v.byteOffset v.byteLength

/-- `PullIntoDescriptorReaderType`. -/
inductive ReaderType
  | default | byob | none
  deriving DecidableEq, Repr

/-- `PullIntoDescriptor`. -/
structure PullIntoDescriptor where
  buffer : List UInt8
  bufferByteLength : ℕ
  byteOffset : ℕ
  byteLength : ℕ
  bytesFilled : ℕ
  minimumFill : ℕ
  elementSize : ℕ
  viewConstructor : ViewKind
  readerType : ReaderType
  deriving DecidableEq, Repr

/-- The bytes already filled into a descriptor. -/
def PullIntoDescriptor.filled (d : PullIntoDescriptor) : List UInt8 :=
  window d.buffer d.byteOffset d.bytesFilled

/-- `ReadableByteStreamQueueEntry`. -/
structure QueueEntry where
  buffer : List UInt8
  byteOffset : ℕ
  byteLength : ℕ
  deriving DecidableEq, Repr

def QueueEntry.bytes (e : QueueEntry) : List UInt8 := window e.buffer e.byteOffset e.byteLength

/-- What a reader is handed: a view of its own, given by its type and the bytes seen through it. -/
structure Chunk where
  kind : ViewKind
  bytes : List UInt8
  deriving DecidableEq, Repr

/-- `ReadableStreamReadResult`: `done` is false for a chunk, and true for `close`. -/
inductive ReadResult
  | chunk (value : Chunk)
  | close (value : Option Chunk)
  deriving DecidableEq, Repr

def ReadResult.bytes : ReadResult → List UInt8
  | .chunk c => c.bytes
  | .close c => (c.map Chunk.bytes).getD []

/-- The reader of a stream, with the reads that wait at it; a read is known by its number. -/
inductive Reader
  | default (readRequests : List ℕ)
  | byob (readIntoRequests : List ℕ)
  deriving DecidableEq, Repr

/-- The exceptions that calls on a byte stream throw or reject with. -/
inductive JsError
  | typeError (message : String)
  | rangeError (message : String)
  deriving DecidableEq, Repr

/-- `ReadableStreamState`. -/
inductive StreamState
  | readable
  | closed
  | errored (storedError : JsError)
  deriving DecidableEq, Repr

/-- What comes of a call. -/
inductive Reply
  | returned
  | failed (e : JsError)
  deriving DecidableEq, Repr

/-- A panic of the runtime, which ends the process. -/
structure Panic where
  message : String
  deriving DecidableEq, Repr

/-- What a byte stream is created with. The high water mark is a float, and only the sign of
`strategyHWM − queueTotalSize` is used: `desired n` says that it is positive at the total `n`. -/
structure Config where
  autoAllocateChunkSize : Option ℕ
  desired : ℕ → Bool
  autoAllocate_pos : ∀ n ∈ autoAllocateChunkSize, 0 < n

/-- The stream, its controller and its reader. Whether the controller has a `byobRequest` is all
that is kept of it: the request is for the first descriptor. -/
structure State where
  streamState : StreamState
  reader : Option Reader
  byobRequest : Bool
  closeRequested : Bool
  pullAgain : Bool
  pulling : Bool
  started : Bool
  pendingPullIntos : List PullIntoDescriptor
  queue : List QueueEntry
  queueTotalSize : ℕ
  reads : ℕ
  delivered : List (ℕ × ReadResult)
  supplied : List UInt8
  deriving DecidableEq, Repr

/-- A new stream. -/
def State.new : State where
  streamState := .readable
  reader := .none
  byobRequest := false
  closeRequested := false
  pullAgain := false
  pulling := false
  started := false
  pendingPullIntos := []
  queue := []
  queueTotalSize := 0
  reads := 0
  delivered := []
  supplied := []

/-- The bytes that reads were resolved with. -/
def State.deliveredBytes (s : State) : List UInt8 := s.delivered.flatMap fun r => r.2.bytes

/-- The bytes filled into the pending descriptors. -/
def State.filledBytes (s : State) : List UInt8 :=
  s.pendingPullIntos.flatMap PullIntoDescriptor.filled

/-- The bytes in the queue. -/
def State.queueBytes (s : State) : List UInt8 := s.queue.flatMap QueueEntry.bytes

/-! ### Parts of a buffer -/

theorem length_window {b : List UInt8} {o n : ℕ} (h : o + n ≤ b.length) :
    (window b o n).length = n := by
  unfold window
  rw [List.length_take, List.length_drop]
  omega

variable (b : List UInt8) (o m n : ℕ)

@[simp] theorem window_zero (b : List UInt8) (o : ℕ) : window b o 0 = [] := List.take_zero

theorem window_append : window b o m ++ window b (o + m) n = window b o (m + n) := by
  unfold window
  rw [List.take_add, List.drop_drop]

theorem take_window (h : m ≤ n) : (window b o n).take m = window b o m := by
  unfold window
  rw [List.take_take, Nat.min_eq_left h]

theorem drop_window : (window b o n).drop m = window b (o + m) (n - m) := by
  unfold window
  rw [List.drop_take, List.drop_drop]

theorem window_window (b : List UInt8) (o m : ℕ) : window (window b o m) 0 m = window b o m := by
  unfold window
  rw [List.drop_zero, List.take_take, Nat.min_self]

end RasterRuntime.ByteStream
