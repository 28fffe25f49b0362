import RasterRuntime.Modules.Request

/-! # The module loader

Four tables answer a `require`: the cache that JavaScript sees, with a record for each module and in
it the flag `loaded`; the values of the modules that are loaded; the modules that are being loaded;
and the module whose body runs. A load calls an extension handler or imports the module, and with
that user code that can call `require` again, so a load is cut in two: what is done before the
handler is called, which leaves a `Frame`, and what is done when it has returned or thrown. -/

namespace RasterRuntime.Modules

open Lexical (isAbsolute)
open Function (update)

/-! ### Records -/

/-- A reference to a module record. -/
abbrev Ref := ℕ

inductive Value
  | undefined
  | object (id : ℕ)
  | primitive (text : Text)
  deriving DecidableEq, Repr

/-- A module record; its `id` is its `filename`. -/
structure Record where
  filename : Text
  exports : Value
  loaded : Bool
  children : List Ref
  parent : Option Ref
  deriving DecidableEq, Repr

/-- What is stored for a module that is being loaded: its record, or for an import a new object. -/
inductive Progress
  | record (r : Ref)
  | object (id : ℕ)
  deriving DecidableEq, Repr

/-- The tables and the records. -/
structure Loader where
  records : List Record
  /-- The number of objects that were made for exports. -/
  objects : ℕ
  /-- `require.cache`. -/
  cache : Text → Option Ref
  /-- `RequireState::cache`. -/
  values : Text → Option Value
  progress : Text → Option Progress
  current : Option Ref

def Loader.empty : Loader := ⟨[], 0, fun _ => none, fun _ => none, fun _ => none, none⟩

namespace Loader

variable (s : Loader)

def filenameOf (r : Ref) : Text := (s.records[r]?).elim [] Record.filename

def exportsOf (r : Ref) : Value := (s.records[r]?).elim .undefined Record.exports

def isLoaded (r : Ref) : Bool := (s.records[r]?).elim false Record.loaded

def childrenOf (r : Ref) : List Ref := (s.records[r]?).elim [] Record.children

/-- The loader with another content of a record. -/
def modify (r : Ref) (f : Record → Record) : Loader := { s with records := s.records.modify r f }

def setLoaded (r : Ref) (loaded : Bool) : Loader :=
  s.modify r fun record => { record with loaded := loaded }

def setExports (r : Ref) (exports : Value) : Loader :=
  s.modify r fun record => { record with exports := exports }

/-- `link_child_to_parent`. -/
def linkChild (parent child : Ref) : Loader :=
  s.modify parent fun record => { record with children := record.children ++ [child] }

/-- `replace_backslash`. -/
def replaceBackslash (path : Text) : Text := path.map fun c => if c = '\\' then '/' else c

/-- The file name of a module that is made for an id. -/
def moduleFilename (W : World) (id : Text) : Text :=
  if isAbsolute id then replaceBackslash id else W.resolvePath id

/-- `module_constructor`: a record with a new object as its exports. -/
def construct (W : World) (id : Text) (parent : Option Ref) : Loader :=
  { s with
    records := s.records ++ [⟨moduleFilename W id, .object s.objects, false, [], parent⟩]
    objects := s.objects + 1 }

/-- A new record in the cache, among the children of its parent. -/
def create (W : World) (name : Text) (parent : Option Ref) : Loader :=
  let made := { s.construct W name parent with
                cache := update s.cache name (some s.records.length) }
  match parent with
  | some p => made.linkChild p s.records.length
  | none => made

/-- `get_or_create_module_record`. -/
def getOrCreate (W : World) (name : Text) (parent : Option Ref) : Ref × Loader :=
  match s.cache name with
  | some r => (r, s)
  | none => (s.records.length, s.create W name parent)

/-! ### Modules that are known -/

/-- The value of a module, which is forgotten if the module is no longer in the cache. -/
def cachedValue (name : Text) : Option Value × Loader :=
  match s.values name with
  | some v =>
    if s.cache name = none then (none, { s with values := update s.values name none })
    else (some v, s)
  | none => (none, s)

/-- What a module that is being loaded exports by now. -/
def inProgress (name : Text) : Option Value :=
  (s.progress name).map fun
    | .record r => s.exportsOf r
    | .object _ => .undefined

/-- The value of a module that is not loaded. -/
def knownUnloaded (name : Text) : Option Value × Loader :=
  match s.cachedValue name with
  | (some v, s) => (some v, s)
  | (none, s) => (s.inProgress name, s)

/-- The second part of `require_from_module`: the value of a module that need not be loaded. -/
def known (name : Text) : Option Value × Loader :=
  match s.cache name with
  | some r => if s.isLoaded r then (some (s.exportsOf r), s) else s.knownUnloaded name
  | none => s.knownUnloaded name

/-! ### Loads -/

/-- `load_via_extensions` up to the call of the handler; it checks again what `known` did. -/
def enterExtensions (name : Text) (r : Ref) : Option Value × Loader :=
  if s.isLoaded r then (some (s.exportsOf r), s)
  else
    match s.cachedValue name with
    | (some v, s) => (some v, s)
    | (none, s) =>
      match s.progress name with
      | some _ => (some (s.exportsOf r), s)
      | none =>
        (none, { s.setLoaded r false with
                 progress := update s.progress name (some (.record r)) })

/-- `load_via_import` up to the import, for which the module becomes the current one. -/
def enterImport (name : Text) (r : Ref) : Loader :=
  { s.setLoaded r false with
    progress := update s.progress name (some (.object s.objects))
    objects := s.objects + 1
    current := some r }

/-- The end of a load that went well. -/
def complete (name : Text) (r : Ref) : Loader :=
  { s.setLoaded r true with
    progress := update s.progress name none
    values := update s.values name (some (s.exportsOf r)) }

/-- `rollback_failed_load` and `rollback_failed_import`. -/
def rollback (name : Text) : Loader :=
  { s with
    cache := update s.cache name none
    progress := update s.progress name none
    values := update s.values name none }

end Loader

/-- A load whose handler has not returned. -/
structure Frame where
  name : Text
  record : Ref
  viaImport : Bool
  /-- What `CurrentModuleGuard` restores, once it is made: the body runs. -/
  guard : Option (Option Ref)
  deriving DecidableEq, Repr

/-- The guard of a load is dropped. -/
def Loader.dropGuard (s : Loader) (f : Frame) : Loader :=
  match f.guard with
  | some previous => { s with current := previous }
  | none => s

/-- How far a call of `require` comes on its own. -/
inductive Entered
  | failed (e : LoadError)
  | returned (name : Text) (v : Value)
  | loading (f : Frame)

/-- The third part of `require_from_module`: a module that is not known is loaded. -/
def loadModule (W : World) (s : Loader) (i : Import) (parent : Option Ref) : Entered × Loader :=
  let (r, s) := s.getOrCreate W i.name parent
  if i.viaImport then (.loading ⟨i.name, r, true, some s.current⟩, s.enterImport i.name r)
  else
    match s.enterExtensions i.name r with
    | (some v, s) => (.returned i.name v, s)
    | (none, s) => (.loading ⟨i.name, r, false, none⟩, s)

/-- `require_from_module`, which adds a new module to the children of its parent if `link` says
so. -/
def requireFromModule (W : World) (time : ℕ) (s : Loader) (parent : Ref) (specifier : Text)
    (link : Bool) : Entered × Loader :=
  match importOf W time specifier (s.filenameOf parent) with
  | .error e => (.failed e, s)
  | .ok i =>
    match s.known i.name with
    | (some v, s) => (.returned i.name v, s)
    | (none, s) => loadModule W s i (if link then some parent else none)

end RasterRuntime.Modules
