import RasterRuntime.Transition

/-! # Native writable streams

`writable.rs` of `raster_runtime_stream`: `write`, `end` and `destroy` send commands through a
channel, or a signal, to the loop of `process_loop`, which writes to the transport through a
buffered writer. The program and the loop take turns at every point where the loop waits or calls
back; what the writer and the transport do is part of the events. The writer may pass on any part of
what it has taken whenever it is polled, and may fail instead.

The loop can stop for several reasons while commands are queued. The writer is dropped then, with
what the transport has not taken; the receiver of the channel is dropped, with what is queued, where
`write_function` returns, which is after the listeners of `finish`. `State.written` and the fields
after it record what was written, which callbacks were called, and which events were emitted. A
value that is written is not changed while it is in the channel. -/

namespace RasterRuntime.NodeStream.Writable

/-- `WriteCommand`. A value to write is its bytes, if `ObjectBytes` takes it; `callback` tells
whether there is one. -/
inductive WriteCommand where
  | «end»
  | write (id : ℕ) (value : Option (List UInt8)) (callback flush : Bool)
  | flush
  | flushBarrier
  | handoff
  deriving DecidableEq, Repr

/-- What follows when the writer is flushed. -/
inductive Next where
  | callback (id : ℕ) (callback : Bool)
  | resume
  | handOff
  deriving DecidableEq, Repr

/-- Where the loop is. -/
inductive Phase where
  /-- `process_loop` has not been called -/
  | detached
  /-- at the check that the loop begins with -/
  | top
  /-- in `select!` -/
  | select
  /-- in `write_all`, with the bytes that the writer has not taken -/
  | writing (id : ℕ) (callback flush : Bool) (data : List UInt8)
  | flushing (next : Next)
  | shutting
  /-- a callback runs; `failed` if the loop returns an error after it -/
  | calling (failed : Bool)
  /-- the listeners of `finish` run -/
  | finishing
  /-- `write_function` has returned -/
  | returned (failed handedOff : Bool)
  | closed
  deriving DecidableEq, Repr

/-- A call of `write`; `late` if `end` was called before. -/
structure Written where
  id : ℕ
  bytes : List UInt8
  callback : Bool
  late : Bool
  deriving DecidableEq, Repr

/-- The events emitted. -/
inductive Event where
  | finish
  | error
  | close
  deriving DecidableEq, Repr

/-- `WritableStreamInner` with the variables of the loop. -/
structure State where
  commands : List WriteCommand
  /-- the receiver of the channel has not been dropped -/
  receiving : Bool
  isFinished : Bool
  isDestroyed : Bool
  emitClose : Bool
  /-- the message of the destroy channel: was there an error value? -/
  signal : Option Bool
  /-- `io_loop_ref.is_some()` -/
  watched : Bool
  /-- `keeps_event_loop_alive` -/
  alive : Bool
  phase : Phase
  /-- the bytes that the writer has taken and the transport has not -/
  buffer : List UInt8
  /-- the bytes the transport has taken -/
  handed : List UInt8
  /-- how many of them it has flushed -/
  flushed : ℕ
  ended : Bool
  written : List Written
  /-- the callbacks called, and whether with an error -/
  calls : List (ℕ × Bool)
  events : List Event
  deriving DecidableEq, Repr

/-- A new stream. -/
def State.initial (emitClose : Bool) : State :=
  ⟨[], true, false, false, emitClose, none, false, true, .detached, [], [], 0, false, [], [], []⟩

/-- What the program, the loop, the writer and the transport do. -/
inductive Act where
  | write (value : Option (List UInt8)) (callback flush : Bool)
  | «end»
  | destroy (error : Bool)
  | flush
  | flushBarrier
  | handoff
  /-- `ref` and `unref`, of this or of other handles -/
  | setAlive (alive : Bool)
  /-- `process_loop`, with an `io_loop_ref` or without -/
  | process (watched : Bool)
  /-- the loop goes on by itself -/
  | tick
  /-- `select!` takes the next command -/
  | recv
  /-- `select!` sees that the handle is not referenced -/
  | seeUnref
  /-- `select!` receives from the destroy channel -/
  | seeDestroy
  /-- the writer takes bytes of the chunk -/
  | take (n : ℕ)
  /-- the transport takes bytes of those that the writer has taken -/
  | accept (n : ℕ)
  /-- the writer has flushed -/
  | flushed
  /-- the writer has shut down -/
  | shutDown
  /-- the writer fails -/
  | fail
  | callbackReturns (throws : Bool)
  /-- the listeners of `finish` return, or one throws -/
  | listenersReturn (throws : Bool)
  /-- `error` and `close` are emitted: is there a listener of `error`, and does one throw? -/
  | conclude (listens throws : Bool)
  deriving DecidableEq, Repr

/-! ### The methods -/

/-- `do_write`. -/
def doWrite (value : Option (List UInt8)) (callback flush : Bool) (s : State) : State :=
  let id := s.written.length
  let written := s.written ++ [⟨id, value.getD [], callback, s.ended⟩]
  if s.receiving then
    { s with commands := s.commands ++ [.write id value callback flush], written }
  else
    { s with written, calls := s.calls ++ if callback then [(id, true)] else [] }

/-- `command_tx.send`, of a command that nobody waits for. -/
def send (command : WriteCommand) (s : State) : State :=
  if s.receiving then { s with commands := s.commands ++ [command] } else s

/-- `end`. -/
def endStream (s : State) : State :=
  if s.isFinished then s else send .end { s with isFinished := true, ended := true }

/-- `destroy`: the message reaches the loop if the loop is there. -/
def destroy (error : Bool) (s : State) : State :=
  if s.isFinished then s
  else
    { s with
      isFinished := true
      isDestroyed := true
      signal := if s.phase = .detached then s.signal else some error }

/-! ### The loop -/

/-- `write_function` returns: the receiver is dropped with what is in the channel, and the writer if
it was not before. -/
def returns (failed handedOff : Bool) (s : State) : State :=
  { s with
    phase := .returned failed handedOff
    receiving := false
    commands := []
    buffer := [] }

/-- The loop is left with `is_destroyed` false: the writer is dropped and `finish` emitted. -/
def finish (s : State) : State :=
  { s with
    phase := .finishing
    buffer := []
    events := s.events ++ [.finish] }

/-- What is emitted after `write_function`. An error that nobody listens for ends the task, as does
a listener that throws. -/
def conclude (failed handedOff listens throws : Bool) (s : State) : State :=
  let close := if s.emitClose && !handedOff then [Event.close] else []
  let emitted :=
    if failed then
      if listens then Event.error :: (if throws then [] else close) else []
    else close
  { s with
    phase := .closed
    events := s.events ++ emitted }

/-- A callback is called, and the loop waits for it. -/
def callBack (id : ℕ) (callback failed : Bool) (s : State) : State :=
  if callback then { s with phase := .calling failed, calls := s.calls ++ [(id, failed)] }
  else if failed then returns true false s
  else { s with phase := .top }

/-- What the loop does with a command. -/
def handle : WriteCommand → State → State
  | .end, s => { s with phase := .shutting }
  | .write _ none _ _, s => returns true false s
  | .write id (some data) callback flush, s => { s with phase := .writing id callback flush data }
  | .flush, s => { s with phase := .flushing .resume }
  | .flushBarrier, s => { s with phase := .flushing .resume }
  | .handoff, s => { s with phase := .flushing .handOff }

/-- After a flush. -/
def proceed : Next → State → State
  | .callback id callback, s => callBack id callback false s
  | .resume, s => { s with phase := .top }
  | .handOff, s => returns false true s

/-- The loop goes on by itself: the check at its top, and after `write_all`. -/
def tick (s : State) : Option State :=
  match s.phase with
  | .top => if s.watched && !s.alive then some (finish s) else some { s with phase := .select }
  | .writing id callback flush [] =>
    if flush then some { s with phase := .flushing (.callback id callback) }
    else some (callBack id callback false s)
  | _ => none

/-- The writer takes `n` bytes of the chunk. -/
def take (n : ℕ) (s : State) : Option State :=
  match s.phase with
  | .writing id callback flush data =>
    some { s with
      buffer := s.buffer ++ data.take n
      phase := .writing id callback flush (data.drop n) }
  | _ => none

/-- The loop waits for the writer. -/
def Phase.polls : Phase → Bool
  | .writing .. => true
  | .flushing _ => true
  | .shutting => true
  | _ => false

/-- The transport takes `n` bytes of those that the writer has. -/
def accept (n : ℕ) (s : State) : Option State :=
  if s.phase.polls then
    some { s with handed := s.handed ++ s.buffer.take n, buffer := s.buffer.drop n }
  else none

/-- After an error of the writer. `write_all` fails only with bytes left. -/
def failWith (s : State) : Option State :=
  match s.phase with
  | .writing id callback _ (_ :: _) => some (callBack id callback true s)
  | .flushing (.callback id callback) => some (callBack id callback true s)
  | .flushing _ => some (returns true false s)
  | .shutting => some (returns true false s)
  | _ => none

/-- A step. -/
def step (s : State) : Act → Option State
  | .write value callback flush => some (doWrite value callback flush s)
  | .end => some (endStream s)
  | .destroy error => some (destroy error s)
  | .flush => some (send .flush s)
  | .flushBarrier => some (send .flushBarrier s)
  | .handoff => some (send .handoff s)
  | .setAlive alive => some { s with alive }
  | .process watched =>
    if s.phase = .detached then
      if s.isDestroyed then some (returns false false { s with watched })
      else some { s with phase := .top, watched }
    else none
  | .tick => tick s
  | .recv =>
    match s.phase, s.commands with
    | .select, command :: rest => some (handle command { s with commands := rest })
    | _, _ => none
  | .seeUnref => if s.phase = .select ∧ s.watched ∧ !s.alive then some (finish s) else none
  | .seeDestroy =>
    match s.phase, s.signal with
    | .select, some error => some (returns error false { s with signal := none })
    | _, _ => none
  | .take n => take n s
  | .accept n => accept n s
  | .flushed =>
    match s.phase with
    | .flushing next =>
      if s.buffer = [] then some (proceed next { s with flushed := s.handed.length }) else none
    | _ => none
  | .shutDown =>
    if s.phase = .shutting ∧ s.buffer = [] then
      some (finish { s with flushed := s.handed.length })
    else none
  | .fail => failWith s
  | .callbackReturns throws =>
    match s.phase with
    | .calling failed =>
      if failed || throws then some (returns true false s) else some { s with phase := .top }
    | _ => none
  | .listenersReturn throws =>
    if s.phase = .finishing then some (returns throws false s) else none
  | .conclude listens throws =>
    match s.phase with
    | .returned failed handedOff => some (conclude failed handedOff listens throws s)
    | _ => none

end RasterRuntime.NodeStream.Writable
