import RasterRuntime.Transition

/-! # Native readable streams

`readable.rs` of `raster_runtime_stream` with the `BytearrayBuffer` of `bytearray_buffer.rs`. The
loop of `do_process` reads from the transport into a buffer of its own and, by the state of the
stream, emits the bytes, puts them into the stored buffer for `read`, or drops them. The program and
the loop take turns at every point where the loop waits or calls listeners; which branch a `select!`
takes is part of the events. `pause` and `resume` are not methods of these streams.

`State.arrived`, `State.given` and `State.handedOver` record the bytes read from the transport,
those given out by `data` events and `read`, and those handed off with the transport. -/

namespace RasterRuntime.NodeStream.Readable

/-- `DEFAULT_BUFFER_SIZE`. -/
def defaultBufferSize : ℕ := 1024 * 16

/-- The capacity of a `Vec` or a `VecDeque` after `reserve`. -/
def reserve (length capacity additional : ℕ) : ℕ :=
  if length + additional ≤ capacity then capacity else max (2 * capacity) (length + additional)

/-- `BytearrayBuffer`. -/
structure BytearrayBuffer where
  bytes : List UInt8
  maxCapacity : ℕ
  closed : Bool
  deriving DecidableEq, Repr

/-- The capacity after a `read` of more than there is room for. -/
def BytearrayBuffer.grow (b : BytearrayBuffer) (desired : ℕ) : ℕ :=
  let capacity := reserve b.bytes.length b.maxCapacity (desired - b.maxCapacity - 1)
  if capacity < desired then reserve b.bytes.length capacity (desired - capacity) else capacity

/-- `BytearrayBuffer::read`. -/
def BytearrayBuffer.read (b : BytearrayBuffer) (desired : Option ℕ) :
    Option (List UInt8) × BytearrayBuffer :=
  if b.closed then (some b.bytes, { b with bytes := [] })
  else
    match desired with
    | none => (some b.bytes, { b with bytes := [] })
    | some n =>
      if b.maxCapacity < n then (none, { b with maxCapacity := b.grow n })
      else if b.bytes.length < n then (none, b)
      else (some (b.bytes.take n), { b with bytes := b.bytes.drop n })

/-- How many bytes there is room for. -/
def BytearrayBuffer.available (b : BytearrayBuffer) : ℕ := b.maxCapacity - b.bytes.length

/-- `ReadableState`. -/
inductive ReadableState where
  | init
  | flowing
  | paused
  deriving DecidableEq, Repr

/-- The listeners that `on_event_changed` looks at. -/
inductive Listener where
  | data
  | readable
  deriving DecidableEq, Repr

/-- Why the loop has stopped. -/
inductive Reason where
  | ended
  | destroyed
  | failed
  | panicked
  | handedOff
  deriving DecidableEq, Repr

/-- Where the loop is. -/
inductive Phase where
  /-- the task has not been polled -/
  | idle
  /-- at the checks that the loop begins with -/
  | top
  /-- in the `select!` of the loop -/
  | select
  | emittingData
  | emittingReadable
  /-- in the `select!` around `write_consuming` -/
  | filling
  | stopped (reason : Reason)
  deriving DecidableEq, Repr

/-- `ReadableStreamInner` with the variables of the loop. -/
structure State where
  state : ReadableState
  listener : Option Listener
  isEnded : Bool
  isDestroyed : Bool
  stored : BytearrayBuffer
  /-- messages of `data_listener_attached_tx` that the loop has not received -/
  attached : ℕ
  /-- a message of `destroy_tx` that the loop has not received -/
  signalled : Bool
  /-- `handoff_waiter` is there -/
  waiting : Bool
  /-- messages of `handoff_notify` that the loop has not received -/
  notified : ℕ
  /-- `io_loop_ref.is_some()` -/
  watched : Bool
  /-- `keeps_event_loop_alive` -/
  alive : Bool
  phase : Phase
  /-- the loop's own buffer -/
  buffer : List UInt8
  capacity : ℕ
  lastState : ReadableState
  hasData : Bool
  arrived : List UInt8
  given : List UInt8
  handedOver : List UInt8
  deriving DecidableEq, Repr

/-- A new stream. -/
def State.initial : State :=
  ⟨.init, none, false, false, ⟨[], defaultBufferSize, false⟩, 0, false, false, 0, false,
    true, .idle,
    [], defaultBufferSize, .init, false, [], [], []⟩

/-- `has_consumer`. -/
def State.hasConsumer (s : State) : Bool := s.listener.isSome || s.state = .flowing

/-- What the program, the loop and the transport do. -/
inductive Act where
  /-- `on_event_changed`, with `added` or without -/
  | listen (listener : Listener)
  | unlisten (listener : Listener)
  | read (size : Option ℕ)
  | drain
  | destroy
  | requestHandoff
  /-- `ref` and `unref`, of this or of other handles -/
  | setAlive (alive : Bool)
  /-- the task is polled for the first time -/
  | start (watched : Bool)
  /-- the checks at the top of the loop -/
  | tick
  /-- `read_buf` has read these bytes; none at the end -/
  | arrive (chunk : List UInt8)
  /-- `read_buf` fails -/
  | fail
  /-- a `select!` sees that the handle is not referenced, receives a message of `destroy_tx`, of
  `handoff_notify` or of `data_listener_attached_tx` -/
  | seeUnref
  | seeDestroy
  | seeHandoff
  | seeAttached
  /-- `write_consuming` is polled -/
  | fill
  /-- the listeners return, or one of them throws -/
  | returned
  | thrown
  deriving DecidableEq, Repr

/-! ### The methods -/

/-- `on_event_changed`, added. A message is received by a loop that is there. -/
def listen (listener : Listener) (s : State) : State :=
  match listener with
  | .data =>
    { s with
      attached := if s.state = .paused ∧ s.phase ≠ .idle then s.attached + 1 else s.attached
      state := .flowing
      listener := some .data }
  | .readable => { s with state := .paused, listener := some .readable }

/-- `on_event_changed`, removed. -/
def unlisten (listener : Listener) (s : State) : State :=
  match listener with
  | .data =>
    { s with listener := none, state := if s.state = .flowing then .paused else s.state }
  | .readable => { s with listener := none }

/-- `read`. -/
def read (size : Option ℕ) (s : State) : State :=
  let result := s.stored.read size
  { s with stored := result.2, given := s.given ++ result.1.getD [] }

/-- `drain`. A `readable` event changes nothing by itself. -/
def drain (s : State) : State :=
  if s.listener = some .data then
    { s with stored := { s.stored with bytes := [] }, given := s.given ++ s.stored.bytes }
  else s

def destroy (s : State) : State :=
  { s with isDestroyed := true, signalled := s.signalled || s.phase ≠ .idle }

def requestHandoff (s : State) : State :=
  { s with waiting := true, notified := if s.phase ≠ .idle then s.notified + 1 else s.notified }

/-! ### The loop -/

/-- The messages left when one is received: a channel keeps one, and a receiver that lags gets an
error first. -/
def received (messages : ℕ) : ℕ := if 1 < messages then 1 else 0

/-- `complete_readable_handoff` with somebody waiting. -/
def handOff (s : State) : State :=
  { s with
    waiting := false
    handedOver := s.stored.bytes ++ s.buffer
    stored := { s.stored with bytes := [] }
    buffer := []
    phase := .stopped .handedOff }

/-- The end of `read_function` after the loop. -/
def finish (destroyed : Bool) (s : State) : State :=
  { s with
    buffer := []
    stored := { s.stored with closed := true }
    isDestroyed := s.isDestroyed || destroyed
    isEnded := s.isEnded || !destroyed
    phase := .stopped (if destroyed then .destroyed else .ended) }

/-- `read_function` returns an error. -/
def abandon (reason : Reason) (s : State) : State :=
  { s with buffer := [], phase := .stopped reason }

/-- `complete_readable_handoff`, and what follows if nobody waits. -/
def handOffOr (otherwise s : State) : State := if s.waiting then handOff s else otherwise

/-- The loop goes on with the next iteration. -/
def next (s : State) : State := { s with phase := .top }

/-- Bytes were read in state `Flowing`. -/
def takeFlowing (s : State) : State :=
  let s :=
    if s.lastState = .paused then
      { s with
        buffer := s.buffer ++ s.stored.bytes
        capacity := reserve s.buffer.length s.capacity s.stored.bytes.length
        stored := { s.stored with bytes := [] } }
    else s
  if s.buffer = [] then handOffOr (finish false s) s
  else
    -- the buffer is cleared when the listeners have returned
    { s with given := s.given ++ s.buffer, buffer := [], phase := .emittingData }

/-- Nobody consumes the stream: the bytes are dropped. -/
def discard (s : State) : State :=
  { s with buffer := [], capacity := reserve 0 s.capacity defaultBufferSize }

/-- Bytes were read in state `Paused`. -/
def takePaused (chunk : List UInt8) (s : State) : State :=
  if chunk = [] then handOffOr (finish false s) s
  else if !s.hasConsumer then next { discard s with lastState := .paused }
  else { s with phase := .emittingReadable }

/-- Bytes were read in state `Init`. -/
def takeInit (chunk : List UInt8) (s : State) : State :=
  if chunk = [] then finish false s
  else if !s.hasConsumer then next { discard s with lastState := .init }
  else next { s with lastState := .init }

/-- The capacity of the loop's buffer when `read_buf` looks for room in it. -/
def roomy (s : State) : ℕ :=
  if s.buffer.length = s.capacity then reserve s.buffer.length s.capacity 64 else s.capacity

/-- The state that bytes are taken in: the first ones end `Init`. -/
def stateFor (chunk : List UInt8) (s : State) : ReadableState :=
  if s.hasData = false ∧ s.state = .init ∧ chunk ≠ [] then .paused else s.state

/-- After `read_buf`. -/
def arrive (chunk : List UInt8) (s : State) : State :=
  let taken :=
    { s with
      buffer := s.buffer ++ chunk
      capacity := roomy s
      arrived := s.arrived ++ chunk
      state := stateFor chunk s
      hasData := s.hasData || (s.state = .init ∧ chunk ≠ []) }
  match stateFor chunk s with
  | .flowing => takeFlowing taken
  | .paused => takePaused chunk taken
  | .init => takeInit chunk taken

/-- `write_consuming` has returned. The subtraction of the capacities overflows if the stored
buffer's has outgrown the loop's. -/
def filled (s : State) : State :=
  if s.capacity < s.stored.maxCapacity then abandon .panicked s
  else
    next
      { s with
        buffer := []
        capacity := reserve 0 s.capacity (s.capacity - s.stored.maxCapacity)
        lastState := .paused }

/-- `write_consuming` is polled. -/
def fill (s : State) : State :=
  if s.stored.closed then filled s
  else
    let moved := s.buffer.take s.stored.available
    let s :=
      { s with
        stored := { s.stored with bytes := s.stored.bytes ++ moved }
        buffer := s.buffer.drop s.stored.available }
    if s.buffer = [] then filled s else s

/-- A step. -/
def step (s : State) : Act → Option State
  | .listen listener => some (listen listener s)
  | .unlisten listener => some (unlisten listener s)
  | .read size => some (read size s)
  | .drain => some (drain s)
  | .destroy => some (destroy s)
  | .requestHandoff => some (requestHandoff s)
  | .setAlive alive => some { s with alive }
  | .start watched =>
    if s.phase = .idle then
      let s := { s with watched }
      if s.isEnded || s.isDestroyed then some (finish s.isDestroyed s)
      else some (handOffOr (next s) s)
    else none
  | .tick =>
    if s.phase = .top then
      if s.watched && !s.alive then some (finish false s)
      else some (handOffOr { s with phase := .select } s)
    else none
  | .arrive chunk =>
    if s.phase = .select ∧ s.buffer.length + chunk.length ≤ roomy s then some (arrive chunk s)
    else none
  | .fail => if s.phase = .select then some (abandon .failed s) else none
  | .seeUnref => if s.phase = .select ∧ s.watched ∧ !s.alive then some (finish false s) else none
  | .seeDestroy =>
    if (s.phase = .select ∨ s.phase = .filling) ∧ s.signalled then
      some (finish true { s with signalled := false })
    else none
  | .seeHandoff =>
    if 0 < s.notified then
      let s := { s with notified := received s.notified }
      match s.phase with
      | .select => some (handOffOr (next s) s)
      | .filling => some (handOffOr (next { s with lastState := .paused }) s)
      | _ => none
    else none
  | .seeAttached =>
    if s.phase = .filling ∧ 0 < s.attached then
      some (next
        { s with
          attached := received s.attached
          stored := { s.stored with bytes := [], closed := false }
          lastState := .paused })
    else none
  | .fill => if s.phase = .filling then some (fill s) else none
  | .returned =>
    match s.phase with
    | .emittingData => some (next { s with lastState := .flowing })
    | .emittingReadable => some { s with phase := .filling }
    | _ => none
  | .thrown =>
    match s.phase with
    | .emittingData => some (abandon .failed s)
    | .emittingReadable => some (abandon .failed s)
    | _ => none

end RasterRuntime.NodeStream.Readable
