import RasterRuntime.Transition

/-! # `AsyncLocalStorage`

The storage of `ASYNC_LOCAL_STORAGE_FACTORY_JS` in `raster_runtime_async_hooks`: a map from async
ids to stores that `run` and `exit` change around their callbacks, that the `init` hook copies to
new resources and the `destroy` hook shrinks. `executionAsyncId` is the current context of
`AsyncHookIds`, which the `before` and `after` hooks push and pop.

A program is a list of events. The calls of `run` and `exit` and the continuations that are being
executed are the frames of the JavaScript stack; the `restore` of a `run` whose callback has
returned a promise waits in `State.deferred` until the promise is settled. Every scope is made with
`active: true` and is never changed, so a scope is its store. -/

namespace RasterRuntime.AsyncHooks

open Function (update)

variable {α : Type}

/-- The async id of `BOOTSTRAP_CONTEXT`. -/
def bootstrap : ℕ := 1

/-- A frame of the stack. -/
inductive Frame (α : Type) where
  /-- a call of `run`: `id`, `store` and `previous` of the call -/
  | run (id : ℕ) (store : α) (previous : Option α)
  /-- a call of `exit` -/
  | exit (id : ℕ) (previous : Option α)
  /-- a continuation of a resource -/
  | scope (id : ℕ)
  deriving DecidableEq, Repr

/-- The storage and `AsyncHookIds`. -/
structure State (α : Type) where
  enabled : Bool
  storeMap : ℕ → Option α
  /-- `current_id` -/
  current : ℕ
  /-- `scope_stack` -/
  contexts : List ℕ
  /-- `next_async_id` -/
  nextId : ℕ
  stack : List (Frame α)
  /-- the `restore` functions that wait for a promise: `id` and `previous` -/
  deferred : List (ℕ × Option α)
  /-- what `getStore()` gave where the resource was made -/
  captured : ℕ → Option α

/-- Nothing has happened. -/
def State.initial : State α :=
  ⟨false, fun _ => none, bootstrap, [], bootstrap, [], [], fun _ => none⟩

/-- What a program does. -/
inductive Act (α : Type) where
  /-- `run` is called -/
  | run (store : α)
  /-- `exit` is called -/
  | exit
  /-- the callback returns a value, throws, or returns a promise -/
  | returned
  | thrown
  | returnedPromise
  /-- a promise is settled that a `run` returned -/
  | settle (k : ℕ)
  /-- a resource is made; does its type look at the trigger? -/
  | create (looks : Bool) (trigger : ℕ)
  /-- a continuation of a resource begins, or ends -/
  | enter (id : ℕ)
  | leave
  | destroy (id : ℕ)
  deriving DecidableEq, Repr

/-- `getStore`. -/
def getStore (s : State α) : Option α := if s.enabled then s.storeMap s.current else none

/-- `storeMap.set`, or `storeMap.delete` without a scope. -/
def setScope (id : ℕ) (scope : Option α) (s : State α) : State α :=
  { s with storeMap := update s.storeMap id scope }

/-- `run` up to the call of the callback. -/
def callRun (store : α) (s : State α) : State α :=
  { setScope s.current (some store) s with
    enabled := true
    stack := .run s.current store (s.storeMap s.current) :: s.stack }

/-- `exit` up to the call of the callback. -/
def callExit (s : State α) : State α :=
  let s' := if s.enabled then setScope s.current none s else s
  { s' with stack := .exit s.current (s.storeMap s.current) :: s.stack }

/-- `exit` when the callback is done: what was not there is not restored. -/
def leaveExit (id : ℕ) (previous : Option α) (s : State α) : State α :=
  match previous with
  | none => s
  | some store => setScope id (some store) s

/-- The scope that the `init` hook gives to a new resource. -/
def inherited (looks : Bool) (trigger : ℕ) (s : State α) : Option α :=
  match s.storeMap s.current with
  | some store => some store
  | none => if bootstrap < trigger ∧ looks then s.storeMap trigger else none

/-- `storeMap.set` if there is a scope. -/
def copyScope (id : ℕ) (scope : Option α) (storeMap : ℕ → Option α) : ℕ → Option α :=
  match scope with
  | some store => update storeMap id (some store)
  | none => storeMap

/-- A resource is made: `allocate_async_id`, and the `init` hook while the storage is active. -/
def create (looks : Bool) (trigger : ℕ) (s : State α) : State α :=
  let id := s.nextId + 1
  let scope := if s.enabled then inherited looks trigger s else none
  { s with
    nextId := id
    storeMap := copyScope id scope s.storeMap
    captured := update s.captured id (getStore s) }

/-- The callback is done and what it changed is restored. -/
def restore (s : State α) : Option (State α) :=
  match s.stack with
  | .run id _ previous :: rest => some (setScope id previous { s with stack := rest })
  | .exit id previous :: rest => some (leaveExit id previous { s with stack := rest })
  | _ => none

/-- A step. -/
def step (s : State α) : Act α → Option (State α)
  | .run store => some (callRun store s)
  | .exit => some (callExit s)
  | .returned => restore s
  | .thrown => restore s
  | .returnedPromise =>
    match s.stack with
    | .run id _ previous :: rest =>
      some { s with stack := rest, deferred := s.deferred ++ [(id, previous)] }
    | _ => restore s
  | .settle k =>
    match s.stack, s.deferred[k]? with
    | [], some (id, previous) =>
      some (setScope id previous { s with deferred := s.deferred.eraseIdx k })
    | _, _ => none
  | .create looks trigger => some (create looks trigger s)
  | .enter id =>
    if bootstrap < id ∧ id ≤ s.nextId then
      some { s with
        current := id
        contexts := s.current :: s.contexts
        stack := .scope id :: s.stack }
    else none
  | .leave =>
    match s.stack with
    | .scope _ :: rest =>
      some { s with
        current := s.contexts.headD bootstrap, contexts := s.contexts.tail, stack := rest }
    | _ => none
  | .destroy id =>
    if bootstrap < id ∧ id ≤ s.nextId then
      let captured := update s.captured id none
      some (if s.enabled then { setScope id none s with captured } else { s with captured })
    else none

end RasterRuntime.AsyncHooks
