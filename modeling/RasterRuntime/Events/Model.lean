import RasterRuntime.Transition

/-! # Event emitters

The `Emitter` trait of `raster_runtime_events`: the listener table of one instance, and a stack of
what is going on. A call that emits an event runs listeners, which are code of the program and may
call the emitter again; so the stack holds the running code (`js`), the loops of `do_emit`, and what
each method still has to do when the event it emits first has been dealt with. A step is something
the running code does, or, where the emitter is in control, `tick`.

`remove_listener_by_id` finds the table with `resolve_events`, which knows the classes
`EventEmitter` and `EventTarget` only (`known`) and gives every other instance a `hidden` table; the
other methods find it with `resolve_events_from`, which knows the class itself.

The log is for the theorems: it says which registrations were made, which emits began with which
listeners and which listeners they called, what they returned, and what was reported to
`on_event_changed`. -/

namespace RasterRuntime.Events

/-- `EventKey`. -/
inductive EventKey where
  | symbol (id : ℕ)
  | string (s : String)
  deriving DecidableEq, Repr

def newListener : EventKey := .string "newListener"

def removeListener : EventKey := .string "removeListener"

/-- `EventItem`, with the callback as the identity of a function. The flag `fired`, which an item
shares with the snapshots it is in, is in `State.fired`. -/
structure EventItem where
  id : ℕ
  callback : ℕ
  once : Bool
  deriving DecidableEq, Repr

/-- `EventList`. -/
abbrev EventList := List (EventKey × List EventItem)

/-- The listeners of an event, if it has an entry. -/
def listenersOf (events : EventList) (key : EventKey) : Option (List EventItem) :=
  (events.find? (·.1 = key)).map (·.2)

/-- `has_key`. -/
def hasKey (events : EventList) (key : EventKey) : Bool := events.any (·.1 = key)

/-- The list with `f` done to the listeners of an event; an entry that becomes empty is removed. -/
def removing (key : EventKey) (f : List EventItem → List EventItem) : EventList → EventList
  | [] => []
  | (k, items) :: rest =>
    if k = key then
      if (f items).isEmpty then rest else (k, f items) :: rest
    else (k, items) :: removing key f rest

/-- `items.insert(0, item)` or `items.push(item)`. -/
def placing (item : EventItem) (prepend : Bool) (items : List EventItem) : List EventItem :=
  if prepend then item :: items else items ++ [item]

/-- The list with a listener added; an event without an entry gets one at the end. -/
def adding (key : EventKey) (item : EventItem) (prepend : Bool) : EventList → EventList
  | [] => [(key, [item])]
  | (k, items) :: rest =>
    if k = key then (k, placing item prepend items) :: rest
    else (k, items) :: adding key item prepend rest

/-- What is going on, from the innermost call outwards. -/
inductive Frame where
  /-- code of the program: a listener, or what started it all -/
  | js
  /-- the loop of `do_emit`, with the rest of its snapshot -/
  | doEmit (emit : ℕ) (key : EventKey) (callbacks : List EventItem)
  /-- `do_emit` after `remove_listener_by_id`, about to call a `once` listener -/
  | fire (emit : ℕ) (key : EventKey) (item : EventItem) (callbacks : List EventItem)
  /-- `add_event_listener` after it has emitted `newListener` -/
  | insert (key : EventKey) (callback : ℕ) (prepend once : Bool)
  /-- a removal after it has emitted `removeListener`: is `on_event_changed` called? -/
  | removed (key : EventKey) (reports : Bool)
  /-- the loop of `remove_all_for_key` -/
  | removeIds (key : EventKey) (ids : List ℕ)
  /-- the loop of `remove_all_listeners` without an event -/
  | removeKeys (keys : List EventKey)
  deriving DecidableEq, Repr

/-- What the theorems speak about. -/
inductive Entry where
  | added (key : EventKey) (item : EventItem)
  | began (emit : ℕ) (key : EventKey) (snapshot : List EventItem)
  | called (emit : ℕ) (item : EventItem)
  | finished (emit : ℕ) (result : Bool)
  | changed (key : EventKey) (added : Bool)
  deriving DecidableEq, Repr

/-- An instance, and what is going on. -/
structure State where
  events : EventList
  hidden : EventList
  nextId : ℕ
  fired : List ℕ
  nextEmit : ℕ
  stack : List Frame
  log : List Entry
  deriving DecidableEq, Repr

/-- A new instance, with the program in control. -/
def State.initial : State := ⟨[], [], 1, [], 0, [.js], []⟩

/-- What the running code does, and the emitter's own steps. -/
inductive Act where
  /-- `on`, `once`, `prependListener` and `prependOnceListener` -/
  | add (key : EventKey) (callback : ℕ) (prepend once : Bool)
  /-- `off` -/
  | off (key : EventKey) (callback : ℕ)
  | removeAllListeners (key : Option EventKey)
  | emit (key : EventKey)
  /-- a listener returns -/
  | ret
  /-- a listener throws -/
  | throw
  | tick
  deriving DecidableEq, Repr

/-! ### The table -/

/-- `resolve_events`. -/
def resolveEvents (known : Bool) (s : State) : EventList := if known then s.events else s.hidden

def setResolved (known : Bool) (s : State) (events : EventList) : State :=
  if known then { s with events } else { s with hidden := events }

/-- `do_emit` up to its loop, on the list it has found. -/
def doEmit (events : EventList) (key : EventKey) (s : State) : State :=
  match listenersOf events key with
  | some callbacks =>
    { s with
      nextEmit := s.nextEmit + 1
      stack := .doEmit s.nextEmit key callbacks :: s.stack
      log := s.log ++ [.began s.nextEmit key callbacks] }
  | none =>
    { s with nextEmit := s.nextEmit + 1, log := s.log ++ [.finished s.nextEmit false] }

/-- `remove_listener_by_id`: a listener that is found is removed and `removeListener` is emitted, as
`EventEmitter` does; the report, to the two classes it knows, comes after that. -/
def removeListenerById (known : Bool) (key : EventKey) (id : ℕ) (s : State) : State :=
  match listenersOf (resolveEvents known s) key with
  | none => s
  | some items =>
    if items.any (·.id = id) then
      let nowEmpty := (items.eraseP (·.id = id)).isEmpty
      let s := setResolved known s (removing key (·.eraseP (·.id = id)) (resolveEvents known s))
      doEmit (resolveEvents known s) removeListener
        { s with stack := .removed key (nowEmpty && known) :: s.stack }
    else s

/-- The listeners without the last one of a function. -/
def without (callback : ℕ) (items : List EventItem) : List EventItem :=
  (items.reverse.eraseP (·.callback = callback)).reverse

/-- `remove_event_listener`: the last matching listener goes. -/
def removeEventListener (key : EventKey) (callback : ℕ) (s : State) : State :=
  match listenersOf s.events key with
  | none => s
  | some items =>
    if items.any (·.callback = callback) then
      let s' := { s with events := removing key (without callback) s.events }
      doEmit s'.events removeListener
        { s' with stack := .removed key (without callback items).isEmpty :: s'.stack }
    else s

/-- `add_event_listener` up to the insertion. -/
def addEventListener (key : EventKey) (callback : ℕ) (prepend once : Bool) (s : State) : State :=
  doEmit s.events newListener { s with stack := .insert key callback prepend once :: s.stack }

/-- The insertion. -/
def insertListener (key : EventKey) (callback : ℕ) (prepend once : Bool) (s : State) : State :=
  let item : EventItem := ⟨s.nextId, callback, once⟩
  let isNew := !hasKey s.events key
  { s with
    events := adding key item prepend s.events
    nextId := s.nextId + 1
    log := s.log ++ [.added key item] ++ if isNew then [.changed key true] else [] }

/-- `remove_all_for_key`: the identities are taken in reverse before the first is removed. -/
def removeAllForKey (known : Bool) (key : EventKey) (s : State) : State :=
  let ids := (((listenersOf (resolveEvents known s) key).getD []).reverse.map (·.id))
  { s with stack := .removeIds key ids :: s.stack }

/-- `remove_all_listeners`. -/
def removeAllListeners (known : Bool) (key : Option EventKey) (s : State) : State :=
  match key with
  | some key => removeAllForKey known key s
  | none =>
    let keys := (s.events.filter fun e => !e.2.isEmpty).map (·.1)
    let last := keys.filter (· ≠ removeListener) ++ [removeListener]
    { s with stack := .removeKeys last :: s.stack }

/-! ### Steps -/

/-- A listener of the emit on top of the stack is called. -/
def callListener (emit : ℕ) (item : EventItem) (s : State) : State :=
  { s with stack := .js :: s.stack, log := s.log ++ [.called emit item] }

/-- The emitter's own next step, with the top of the stack already taken off. -/
def tick (known : Bool) (s : State) : Frame → Option State
  | .js => none
  | .doEmit e _ [] => some { s with log := s.log ++ [.finished e true] }
  | .doEmit e key (item :: rest) =>
    if item.once then
      if item.id ∈ s.fired then some { s with stack := .doEmit e key rest :: s.stack }
      else
        some (removeListenerById known key item.id
          { s with stack := .fire e key item rest :: s.stack })
    else some (callListener e item { s with stack := .doEmit e key rest :: s.stack })
  | .fire e key item rest =>
    some (callListener e item
      { s with fired := item.id :: s.fired, stack := .doEmit e key rest :: s.stack })
  | .insert key callback prepend once => some (insertListener key callback prepend once s)
  | .removed key reports =>
    some { s with log := s.log ++ if reports then [.changed key false] else [] }
  | .removeIds _ [] => some s
  | .removeIds key (id :: ids) =>
    some (removeListenerById known key id { s with stack := .removeIds key ids :: s.stack })
  | .removeKeys [] => some s
  | .removeKeys (key :: keys) =>
    some (removeAllForKey known key { s with stack := .removeKeys keys :: s.stack })

/-- An exception leaves everything up to the code that called. -/
def unwind : List Frame → List Frame
  | [] => []
  | .js :: rest => .js :: rest
  | _ :: rest => unwind rest

/-- A step of an instance. -/
def step (known : Bool) (s : State) : Act → Option State
  | .tick =>
    match s.stack with
    | [] => none
    | f :: rest => tick known { s with stack := rest } f
  | act =>
    match s.stack with
    | .js :: rest =>
      match act with
      | .add key callback prepend once => some (addEventListener key callback prepend once s)
      | .off key callback => some (removeEventListener key callback s)
      | .removeAllListeners key => some (removeAllListeners known key s)
      | .emit key => some (doEmit s.events key s)
      | .ret => if rest = [] then none else some { s with stack := rest }
      | .throw => if rest = [] then none else some { s with stack := unwind rest }
      | .tick => none
    | _ => none

/-- What a step can do. -/
inductive Move (known : Bool) (s : State) : Act → State → Prop
  | tick {f rest s'} (hstack : s.stack = f :: rest)
    (h : Events.tick known { s with stack := rest } f = some s') : Move known s .tick s'
  | add {rest} (hstack : s.stack = .js :: rest) (key : EventKey) (callback : ℕ)
    (prepend once : Bool) :
    Move known s (.add key callback prepend once) (addEventListener key callback prepend once s)
  | off {rest} (hstack : s.stack = .js :: rest) (key : EventKey) (callback : ℕ) :
    Move known s (.off key callback) (removeEventListener key callback s)
  | removeAllListeners {rest} (hstack : s.stack = .js :: rest) (key : Option EventKey) :
    Move known s (.removeAllListeners key) (Events.removeAllListeners known key s)
  | emit {rest} (hstack : s.stack = .js :: rest) (key : EventKey) :
    Move known s (.emit key) (doEmit s.events key s)
  | ret {rest} (hstack : s.stack = .js :: rest) : Move known s .ret { s with stack := rest }
  | throw {rest} (hstack : s.stack = .js :: rest) :
    Move known s .throw { s with stack := unwind rest }

theorem Move.of_step {known : Bool} {s s' : State} {act : Act} (h : step known s act = some s') :
    Move known s act s' := by
  revert h
  fun_cases step known s act
  case case2 hstack => exact .tick hstack
  all_goals rintro ⟨⟩
  · exact .add ‹_› ..
  · exact .off ‹_› ..
  · exact .removeAllListeners ‹_› ..
  · exact .emit ‹_› ..
  · exact .ret ‹_›
  · exact .throw ‹_›

end RasterRuntime.Events
