import RasterRuntime.ReadableStream.Model

/-! # The body of a response as a stream

`create_body_stream` makes a readable stream of an HTTP body. There are two ways to a chunk. The
pull algorithm of the stream spawns a task, which takes the body out of a slot that all share, reads
one chunk of it (`read_body_chunk`), puts the body back and enqueues the chunk. The native pull,
which `read()` uses while nothing is queued and no pull is running, polls the body in the slot; if
no frame is ready it spawns a task of the second kind, which takes the body, reads one chunk and
settles the promise of the read with it.

A body is the list of what its polls give, one after the other; when the list has come to its end,
so has the body. So a body is a sequence of frames together with a schedule of when they are ready.
The decoders of the compression libraries are a parameter (`Codec`).

The stream itself is the one of `ReadableStream.Model`, with one as the high water mark and as the
size of each chunk. A run is a list of events: `read()` calls, callbacks of promises, and polls of
tasks. A task that was spawned can be polled for the first time at any moment; only the one that has
taken the body is polled again. -/

namespace RasterRuntime.BodyStream

open Streams ReadableStream.State

abbrev Bytes := List UInt8

/-- No bytes are no chunk. -/
def nonEmpty : Bytes → Option Bytes
  | [] => none
  | b :: bytes => some (b :: bytes)

/-! ### Decoders -/

/-- The decoders of the compression libraries. -/
class Codec (δ : Type) where
  new : String → Option δ
  write : δ → Bytes → Except String Bytes × δ
  finish : δ → Except String Bytes

/-- A build without compression libraries. -/
instance : Codec Empty where
  new _ := none
  write d := d.elim
  finish d := d.elim

inductive StreamingDecoder (δ : Type)
  | identity
  | codec (d : δ)
  deriving Repr

variable {δ : Type}

namespace StreamingDecoder

variable [Codec δ]

def encodings : List String := ["gzip", "deflate", "deflate-raw", "zstd", "br"]

/-- The decoder for an encoding, if it is supported. -/
def new (encoding : String) : Option (StreamingDecoder δ) :=
  if encoding = "" ∨ encoding = "identity" then some .identity
  else if encoding ∈ encodings then (Codec.new encoding).map .codec
  else none

def decompressChunk (decoder : StreamingDecoder δ) (input : Bytes) :
    Except String Bytes × StreamingDecoder δ :=
  match decoder with
  | .identity => (.ok input, .identity)
  | .codec d => ((Codec.write d input).1, .codec (Codec.write d input).2)

def finish : StreamingDecoder δ → Except String Bytes
  | .identity => .ok []
  | .codec d => Codec.finish d

end StreamingDecoder

/-- The decoder that all ways of reading share; one that is not asked for decodes nothing. -/
structure Decoding (δ : Type) where
  hasDecoder : Bool
  decoder : Option (StreamingDecoder δ)
  unused : hasDecoder = false → ∀ d, decoder = some d → d = .identity

namespace Decoding

/-- Whether a content encoding is one to decode. -/
def isEncoded (encoding : Option String) : Bool :=
  encoding.any fun e => !(e = "" || e = "identity")

variable [Codec δ]

theorem identity_of_not_isEncoded {encoding : Option String} (h : isEncoded encoding = false)
    (d : StreamingDecoder δ) (hd : encoding.bind StreamingDecoder.new = some d) :
    d = .identity := by
  cases encoding with
  | none => cases hd
  | some e =>
    have he : e = "" ∨ e = "identity" := or_iff_not_imp_left.mpr (by simpa [isEncoded] using h)
    have hnew : StreamingDecoder.new (δ := δ) e = some .identity := by
      unfold StreamingDecoder.new
      rw [if_pos he]
    exact (Option.some_inj.mp (hnew.symm.trans hd)).symm

/-- The decoder of a stream that was just made. -/
def new (encoding : Option String) : Decoding δ where
  hasDecoder := isEncoded encoding
  decoder := encoding.bind StreamingDecoder.new
  unused := identity_of_not_isEncoded

/-- The decoder is taken away. -/
def take (d : Decoding δ) : Decoding δ := { d with decoder := none, unused := nofun }

/-- Data is decoded, or copied if there is no decoder. -/
def process (d : Decoding δ) (data : Bytes) : Except String Bytes × Decoding δ :=
  match d.hasDecoder, d.decoder with
  | true, some decoder =>
    let (out, decoder) := decoder.decompressChunk data
    (out, { hasDecoder := true, decoder := some decoder, unused := nofun })
  | _, _ => (.ok data, d)

/-- The data of several frames is decoded into one buffer, up to the first error. -/
def processAll (d : Decoding δ) : List Bytes → Except String Bytes × Decoding δ
  | [] => (.ok [], d)
  | data :: rest =>
    match d.process data with
    | (.error e, d) => (.error e, d)
    | (.ok out, d) =>
      match d.processAll rest with
      | (.error e, d) => (.error e, d)
      | (.ok buffer, d) => (.ok (out ++ buffer), d)

/-- What the decoder gives in the end. -/
def finish (d : Decoding δ) : Except String Bytes :=
  match d.decoder with
  | none => .ok []
  | some decoder => decoder.finish

end Decoding

/-! ### Bodies -/

inductive Frame
  | data (bytes : Bytes)
  | trailers
  deriving DecidableEq, Repr

/-- What a poll of a body gives while the body has not ended. -/
inductive Polled
  | pending
  | frame (f : Frame)
  | error (message : String)
  deriving DecidableEq, Repr

abbrev Incoming := List Polled

/-- The data of all frames that are ready. The poll that ends this is lost, be it an error. -/
def drainReady : Incoming → List Bytes × Incoming
  | [] => ([], [])
  | .pending :: rest => ([], rest)
  | .error _ :: rest => ([], rest)
  | .frame .trailers :: rest => drainReady rest
  | .frame (.data bytes) :: rest => (bytes :: (drainReady rest).1, (drainReady rest).2)

/-- What the task that has the body gets when it is polled. -/
inductive ReadPoll
  | pending
  | ready (res : Except String (Option Bytes))
  deriving Repr

section Read

variable [Codec δ]

/-- One chunk of the body, or none. -/
def readBodyChunk (d : Decoding δ) : Incoming → ReadPoll × Decoding δ × Incoming
  | .pending :: rest => (.pending, d, rest)
  | .error e :: rest => (.ready (.error e), d, rest)
  | [] =>
    match d.finish with
    | .ok remaining => (.ready (.ok (nonEmpty remaining)), d.take, [])
    | .error _ => (.ready (.ok none), d.take, [])
  | .frame .trailers :: rest => (.ready (.ok none), d, rest)
  | .frame (.data first) :: rest =>
    let (data, rest) := drainReady rest
    match d.processAll (first :: data) with
    | (.error e, d) => (.ready (.error e), d, rest)
    | (.ok buffer, d) => (.ready (.ok (nonEmpty buffer)), d, rest)

end Read

/-- What the native pull finds when it polls a body. -/
inductive DataPoll
  | pending
  | ended
  | failed (message : String)
  | data (first : Bytes)
  deriving DecidableEq, Repr

/-- The first frame with data, if it is ready. -/
def pollData : Incoming → DataPoll × Incoming
  | [] => (.ended, [])
  | .pending :: rest => (.pending, rest)
  | .error e :: rest => (.failed e, rest)
  | .frame .trailers :: rest => pollData rest
  | .frame (.data bytes) :: rest => (.data bytes, rest)

/-! ### The stream -/

/-- The values that such a stream has: chunks, and the messages of errors. -/
inductive Value
  | bytes (b : Bytes)
  | message (text : String)
  deriving DecidableEq, Repr

/-- A task: of the pull algorithm, or of a read by the native pull. -/
inductive Task
  | pull
  | native (p : ℕ)
  deriving DecidableEq, Repr

/-- Where the body is. -/
inductive Place
  | slot
  | taken (t : Task)
  | dropped
  deriving DecidableEq, Repr

/-- A stream of a body; `spawned` has the tasks that were not polled yet, and `pullResolved` says
whether the promise of the pull algorithm is resolved and its callback is still to run. -/
structure State (δ F : Type) where
  readable : ReadableStream.State Value F
  body : Incoming
  place : Place
  decoding : Decoding δ
  spawned : List Task
  pullResolved : Bool

namespace State

variable {F : Type} [Codec δ] [Binary64 F]

/-- A call into the stream has been made; if the stream has called the pull algorithm, it has
spawned a task. -/
def withReadable (s : State δ F) (readable : ReadableStream.State Value F) : State δ F :=
  { s with
    readable := readable
    spawned :=
      if !s.readable.controller.pullPromise && readable.controller.pullPromise then
        s.spawned ++ [.pull]
      else s.spawned }

def enqueue (s : State δ F) (chunk : Bytes) : State δ F :=
  s.withReadable ((s.readable.defaultControllerEnqueue (.bytes chunk)).sizeReturns
    (.returned (some Binary64.one)))

def closeStream (s : State δ F) : State δ F :=
  s.withReadable (s.readable.defaultControllerClose s.readable.stream.reader)

def errorStream (s : State δ F) (message : String) : State δ F :=
  s.withReadable
    (s.readable.defaultControllerError s.readable.stream.reader (.value (.message message)))

/-! ### Reads -/

/-- The native pull, up to the future of a read that has to wait. -/
def nativePull (s : State δ F) : NativePullResult Value × State δ F :=
  match s.place with
  | .slot =>
    match pollData s.body with
    | (.pending, rest) => (.pending, { s with body := rest })
    | (.failed e, rest) => (.threw (.message e), { s with body := rest, place := .dropped })
    | (.data first, rest) =>
      let (extras, rest) := drainReady rest
      match s.decoding.process (first ++ extras.flatten) with
      | (.ok chunk, d) => (.ready (.bytes chunk), { s with body := rest, decoding := d })
      | (.error e, d) => (.threw (.message e), { s with body := rest, decoding := d })
    | (.ended, rest) =>
      if s.decoding.hasDecoder then
        let s' := { s with body := rest, place := .dropped, decoding := s.decoding.take }
        match s.decoding.finish with
        | .ok [] => (.eof, s')
        | .ok remaining => (.ready (.bytes remaining), s')
        | .error e => (.threw (.message e), s')
      else (.eof, { s with body := rest, place := .dropped })
  | _ => (.eof, s)

def readNative (s : State δ F) (r : ℕ) : State δ F :=
  match s.nativePull with
  | (.pending, s') =>
    { s' with
      readable := s.readable.readNative r .pending
      spawned := s.spawned ++ [.native s.readable.stream.nextPromise] }
  | (res, s') => { s' with readable := s.readable.readNative r res }

/-- `read` of the reader. -/
def read (s : State δ F) : State δ F :=
  match s.readable.stream.reader with
  | none => s
  | some r =>
    if s.readable.tryGetNativePull then s.readNative r
    else s.withReadable (s.readable.readDefault r)

/-! ### Tasks -/

/-- What the future of a read gives. -/
def nativeResult : Except String (Option Bytes) → Except Value (Option Value)
  | .ok chunk => .ok (chunk.map .bytes)
  | .error e => .error (.message e)

/-- The end of the future of a read. -/
def settleNative (s : State δ F) (p : ℕ) (res : Except String (Option Bytes)) : State δ F :=
  { s with readable := s.readable.nativeSettles p (nativeResult res) }

/-- The end of the task of a pull that had the body. -/
def settlePull (s : State δ F) (res : Except String (Option Bytes)) : State δ F :=
  let s :=
    match res with
    | .ok (some chunk) => s.enqueue chunk
    | .ok none => s.closeStream
    | .error e => s.errorStream e
  { s with pullResolved := true }

/-- The end of a task that had the body. -/
def settleTask (s : State δ F) (t : Task) (res : Except String (Option Bytes)) : State δ F :=
  match t with
  | .pull => s.settlePull res
  | .native p => s.settleNative p res

/-- The body is put back after a chunk only. -/
def placeAfter : Except String (Option Bytes) → Place
  | .ok (some _) => .slot
  | _ => .dropped

/-- A poll of the task that has the body. -/
def pollTask (s : State δ F) (t : Task) : State δ F :=
  match readBodyChunk s.decoding s.body with
  | (.pending, d, rest) => { s with decoding := d, body := rest, place := .taken t }
  | (.ready res, d, rest) =>
    { s with decoding := d, body := rest, place := placeAfter res }.settleTask t res

/-- A task finds no body in the slot: a pull does nothing, a read is done. -/
def passTask (s : State δ F) (t : Task) : State δ F :=
  match t with
  | .pull => { s with pullResolved := true }
  | .native p => s.settleNative p (.ok none)

/-- The first poll of a task. -/
def begin (s : State δ F) (i : ℕ) : State δ F :=
  match s.spawned[i]? with
  | none => s
  | some t =>
    let s := { s with spawned := s.spawned.eraseIdx i }
    match s.place with
    | .slot => s.pollTask t
    | _ => s.passTask t

def wake (s : State δ F) : State δ F :=
  match s.place with
  | .taken t => s.pollTask t
  | _ => s

/-- The callback of the pull algorithm's promise; it may call the algorithm again. -/
def pullSettles (s : State δ F) : State δ F :=
  if s.pullResolved then
    let readable := s.readable.pullSettles (.ok ())
    { s with
      readable := readable
      pullResolved := false
      spawned := if readable.controller.pullPromise then s.spawned ++ [.pull] else s.spawned }
  else s

end State

/-! ### Runs -/

/-- What can happen to a stream. -/
inductive Event
  | getReader
  | read
  | startSettles
  | pullSettles
  | begin (i : ℕ)
  | wake
  deriving DecidableEq, Repr

variable {F : Type} [Codec δ] [Binary64 F]

/-- What an event does; one that cannot happen does nothing. -/
def step (s : State δ F) : Event → State δ F
  | .getReader => { s with readable := { s.readable with stream := s.readable.stream.getReader } }
  | .read => s.read
  | .startSettles => s.withReadable (s.readable.startSettles (.ok ()))
  | .pullSettles => s.pullSettles
  | .begin i => s.begin i
  | .wake => s.wake

/-- `create_body_stream` -/
def createBodyStream (body : Incoming) (encoding : Option String) : State δ F where
  readable := ReadableStream.init Binary64.one true
  body := body
  place := .slot
  decoding := .new encoding
  spawned := []
  pullResolved := false

end RasterRuntime.BodyStream
